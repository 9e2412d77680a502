import Snowpatch.Database
import Snowpatch.Library.Machine

/-! The watchcat: one pass of `check_series_list` over a page of the series list.
The page is mapped in parallel, so its series interleave step by step; once a series has
failed, `collect` may leave out any series it has not started. -/
namespace Snowpatch

/-- A listed series with the server's answers about it in this pass: `get_patch` on its
last patch and `get_patch_checks` on its first one. -/
structure Listed where
  series : Series
  lastPatch : Except String Patch
  checks : Except String (List Check)
  deriving DecidableEq, Repr

structure Scan where
  todo : List Listed
  chosen : List Listed
  marked : List Listed
  failed : Bool
  deriving DecidableEq, Repr

def Scan.start (page : List Listed) : Scan := ⟨page, [], [], false⟩

def Scan.Finished (s : Scan) : Prop := s.todo = [] ∧ s.chosen = [] ∧ s.marked = []

namespace Watchcat

/-- The four filters of `check_series_list`, in their order. -/
def wanted (seen : KvTree String String) (l : Listed) : Bool :=
  l.series.receivedAll &&
  decide (l.series.receivedTotal > 0) &&
  !decide (l.series.id.toDecimal ∈ seen) &&
  match l.series.patches.getLast? with
  | some _ =>
    match l.lastPatch with
    | .ok patch => patch.actionRequired
    | .error _ => false
  | none => false

def checkState (db : Db) (l : Listed) : Except String Db :=
  match l.series.patches.head? with
  | none => .error ("Series with no patches? " ++ l.series.id.toDecimal)
  | some _ =>
    match l.checks with
    | .error e => .error e
    | .ok checks =>
      -- the source keeps the test of the checks but never lets it decide
      if checks.isEmpty || true then
        .ok (db.insertSeries .needsTesting l.series.id l.series.mbox)
      else .ok db

theorem checkState_ok {db : Db} {l : Listed} {checks : List Check}
    (hp : l.series.patches ≠ []) (hc : l.checks = .ok checks) :
    checkState db l = .ok (db.insertSeries .needsTesting l.series.id l.series.mbox) := by
  obtain ⟨p, ps, hl⟩ := List.exists_cons_of_ne_nil hp
  simp [checkState, hl, hc]

theorem eq_insert_of_checkState {db db' : Db} {l : Listed} (h : checkState db l = .ok db') :
    db' = db.insertSeries .needsTesting l.series.id l.series.mbox := by
  unfold checkState at h
  split at h
  · cases h
  · split at h
    · cases h
    · simpa using h.symm

structure State where
  db : Db
  scan : Scan

/-- `choose` is the moment of the `contains_key` test, `mark` and `queue` are the two
writes, and `fail` is an error of `check_state` after the first of them. -/
inductive Event where
  | reject (l : Listed)
  | choose (l : Listed)
  | mark (l : Listed)
  | queue (l : Listed)
  | fail (l : Listed)
  | skip (l : Listed)
  deriving DecidableEq, Repr

def Enabled (s : State) : Event → Prop
  | .reject l => l ∈ s.scan.todo ∧ wanted s.db.seenByWatchcat l = false
  | .choose l => l ∈ s.scan.todo ∧ wanted s.db.seenByWatchcat l = true
  | .mark l => l ∈ s.scan.chosen
  | .queue l => l ∈ s.scan.marked ∧ (checkState s.db l).toBool = true
  | .fail l => l ∈ s.scan.marked ∧ (checkState s.db l).toBool = false
  | .skip l => l ∈ s.scan.todo ∧ s.scan.failed = true

instance (s : State) (e : Event) : Decidable (Enabled s e) := by
  cases e <;> simp only [Enabled] <;> infer_instance

def next (s : State) : Event → State
  | .reject l | .skip l => { s with scan := { s.scan with todo := s.scan.todo.erase l } }
  | .choose l =>
    { s with scan := { s.scan with todo := s.scan.todo.erase l, chosen := l :: s.scan.chosen } }
  | .mark l =>
    { s with
      db := s.db.markSeen l.series.id
      scan := { s.scan with chosen := s.scan.chosen.erase l, marked := l :: s.scan.marked } }
  | .queue l =>
    { s with
      db := (checkState s.db l).toOption.getD s.db
      scan := { s.scan with marked := s.scan.marked.erase l } }
  | .fail l =>
    { s with scan := { s.scan with marked := s.scan.marked.erase l, failed := true } }

def machine : Machine State Event := ⟨Enabled, next⟩

theorem queue_db {s : State} {l : Listed} (h : Enabled s (.queue l)) :
    (next s (.queue l)).db = s.db.insertSeries .needsTesting l.series.id l.series.mbox := by
  cases hc : checkState s.db l with
  | error e => simp [Enabled, hc, Except.toBool] at h
  | ok db' => simpa [next, hc, Except.toOption] using eq_insert_of_checkState hc

/-- The watchcat writes to "seen by watchcat" and "needs testing" only. -/
theorem next_db (s : State) (e : Event) : ∃ seen series,
    (next s e).db = { s.db with seenByWatchcat := seen, series := series } := by
  cases e with
  | queue l =>
    cases hc : checkState s.db l with
    | error err =>
      exact ⟨s.db.seenByWatchcat, s.db.series, by simp [next, hc, Except.toOption]⟩
    | ok db =>
      refine ⟨s.db.seenByWatchcat,
        (s.db.insertSeries .needsTesting l.series.id l.series.mbox).series, ?_⟩
      simp [next, hc, Except.toOption, eq_insert_of_checkState hc, Db.insertSeries]
  | reject | choose | mark | fail | skip => exact ⟨_, _, rfl⟩

theorem wanted_patches {seen : KvTree String String} {l : Listed} (h : wanted seen l = true) :
    l.series.patches ≠ [] := by
  intro hn
  simp [wanted, hn] at h

theorem wanted_antitone {seen seen' : KvTree String String} {l : Listed}
    (hs : ∀ k ∈ seen, k ∈ seen') (h : wanted seen' l = true) : wanted seen l = true := by
  simp only [wanted, Bool.and_eq_true, Bool.not_eq_true', decide_eq_false_iff_not] at h ⊢
  exact ⟨⟨h.1.1, fun hm => h.1.2 (hs _ hm)⟩, h.2⟩

def Answered (db : Db) (page : List Listed) : Prop :=
  ∀ l ∈ page, wanted db.seenByWatchcat l = true → ∃ checks, l.checks = .ok checks

/-- No pass over this page leaves an id newly seen and not queued, in any schedule. -/
def SeenOnlyIfQueued (db : Db) (page : List Listed) : Prop :=
  ∀ tr s, machine.Execution ⟨db, Scan.start page⟩ tr s → s.scan.Finished →
    ∀ id, id.toDecimal ∈ s.db.seenByWatchcat → id.toDecimal ∉ db.seenByWatchcat →
      ∃ l, Event.queue l ∈ tr ∧ l.series.id = id

structure PassInvariant (db : Db) (page : List Listed) (tr : List Event) (s : State) : Prop where
  todo_page : ∀ l ∈ s.scan.todo, l ∈ page
  seen_grows : ∀ k ∈ db.seenByWatchcat, k ∈ s.db.seenByWatchcat
  started : ∀ l ∈ s.scan.chosen ++ s.scan.marked, l ∈ page ∧
    wanted db.seenByWatchcat l = true
  seen_cause : ∀ k ∈ s.db.seenByWatchcat, k ∈ db.seenByWatchcat ∨
    (∃ l ∈ s.scan.marked, l.series.id.toDecimal = k) ∨
    ∃ l, Event.queue l ∈ tr ∧ l.series.id.toDecimal = k

theorem pass_invariant_start (db : Db) (page : List Listed) :
    PassInvariant db page [] ⟨db, Scan.start page⟩ := by
  constructor <;> simp [Scan.start]

theorem pass_invariant_step {db : Db} {page : List Listed} (ha : Answered db page)
    {tr : List Event} {s : State} {e : Event} (h : PassInvariant db page tr s)
    (he : Enabled s e) : PassInvariant db page (tr ++ [e]) (next s e) := by
  obtain ⟨htodo, hgrow, hstart, hcause⟩ := h
  have carry : ∀ k, (∃ l, Event.queue l ∈ tr ∧ l.series.id.toDecimal = k) →
      ∃ l, Event.queue l ∈ tr ++ [e] ∧ l.series.id.toDecimal = k :=
    fun k ⟨l, hl, hk⟩ => ⟨l, List.mem_append_left _ hl, hk⟩
  cases e with
  | reject a | skip a =>
    exact ⟨fun l hl => htodo l (List.mem_of_mem_erase hl), hgrow, hstart,
      fun k hk => (hcause k hk).imp_right (Or.imp_right (carry k))⟩
  | choose a =>
    refine ⟨fun l hl => htodo l (List.mem_of_mem_erase hl), hgrow, ?_,
      fun k hk => (hcause k hk).imp_right (Or.imp_right (carry k))⟩
    intro l hl
    rcases List.mem_cons.mp hl with rfl | hl
    · exact ⟨htodo _ he.1, wanted_antitone hgrow he.2⟩
    · exact hstart l hl
  | mark a =>
    have hmem : ∀ l, l ∈ s.scan.chosen.erase a ++ a :: s.scan.marked →
        l ∈ s.scan.chosen ++ s.scan.marked := by
      intro l hl
      rcases List.mem_append.mp hl with hl | hl
      · exact List.mem_append_left _ (List.mem_of_mem_erase hl)
      · rcases List.mem_cons.mp hl with rfl | hl
        · exact List.mem_append_left _ he
        · exact List.mem_append_right _ hl
    refine ⟨htodo, fun k hk => Finmap.mem_insert.mpr (Or.inr (hgrow k hk)),
      fun l hl => hstart l (hmem l hl), ?_⟩
    intro k hk
    rcases Finmap.mem_insert.mp hk with rfl | hk
    · exact Or.inr (Or.inl ⟨a, List.mem_cons_self, rfl⟩)
    · refine (hcause k hk).imp_right (Or.imp ?_ (carry k))
      exact fun ⟨l, hl, hlk⟩ => ⟨l, List.mem_cons_of_mem a hl, hlk⟩
  | queue a =>
    have hseen : (next s (.queue a)).db.seenByWatchcat = s.db.seenByWatchcat := by
      rw [queue_db he]; rfl
    refine ⟨htodo, fun k hk => hseen ▸ hgrow k hk, fun l hl => hstart l ?_, ?_⟩
    · exact (List.mem_append.mp hl).elim (List.mem_append_left _)
        (fun hl => List.mem_append_right _ (List.mem_of_mem_erase hl))
    · intro k hk
      rw [hseen] at hk
      rcases hcause k hk with hk | ⟨l, hl, rfl⟩ | hq
      · exact Or.inl hk
      · by_cases hla : l = a
        · exact Or.inr (Or.inr ⟨a, by simp, by rw [hla]⟩)
        · exact Or.inr (Or.inl ⟨l, (List.mem_erase_of_ne hla).mpr hl, rfl⟩)
      · exact Or.inr (Or.inr (carry k hq))
  | fail a =>
    obtain ⟨hpage, hw⟩ := hstart a (List.mem_append_right _ he.1)
    obtain ⟨checks, hc⟩ := ha a hpage hw
    have hfail := he.2
    rw [checkState_ok (wanted_patches hw) hc] at hfail
    cases hfail

theorem pass_queues_seen {db : Db} {page : List Listed} (ha : Answered db page) :
    SeenOnlyIfQueued db page := by
  intro tr s hx hf id hid hnew
  have hi : PassInvariant db page tr s :=
    hx.history (pass_invariant_start db page) fun _ _ _ _ h he => pass_invariant_step ha h he
  rcases hi.seen_cause _ hid with hold | ⟨l, hl, _⟩ | ⟨l, hl, hk⟩
  · exact absurd hold hnew
  · rw [hf.2.2] at hl
    cases hl
  · exact ⟨l, hl, toDecimal_inj.mp hk⟩

theorem skip_rest (db : Db) (todo : List Listed) :
    machine.Execution ⟨db, ⟨todo, [], [], true⟩⟩ (todo.map Event.skip)
      ⟨db, ⟨[], [], [], true⟩⟩ := by
  induction todo with
  | nil => exact .nil
  | cons l rest ih =>
    refine .cons (e := Event.skip l) ⟨List.mem_cons_self, rfl⟩ ?_
    simpa [machine, next] using ih

/-- The schedule that starts with one unanswered series: seen, never queued. -/
theorem unanswered_pass {db : Db} {page : List Listed} {l : Listed} {err : String}
    (hl : l ∈ page) (hw : wanted db.seenByWatchcat l = true) (hc : l.checks = .error err) :
    machine.Execution ⟨db, Scan.start page⟩
      ([.choose l, .mark l, .fail l] ++ (page.erase l).map Event.skip)
      ⟨db.markSeen l.series.id, ⟨[], [], [], true⟩⟩ := by
  obtain ⟨p, ps, hp⟩ := List.exists_cons_of_ne_nil (wanted_patches hw)
  refine Machine.Execution.append (s := ⟨db.markSeen l.series.id,
    ⟨page.erase l, [], [], true⟩⟩) ?_ (skip_rest _ _)
  refine .cons ⟨hl, hw⟩ (.cons List.mem_cons_self (.cons ⟨List.mem_cons_self, ?_⟩ ?_))
  · simp [checkState, hp, hc, Except.toBool]
  · simpa [machine, next, Scan.start] using Machine.Execution.nil

def unansweredSeries : Listed where
  series := ⟨⟨1⟩, ⟨"https://patchwork/series/1/mbox"⟩, [7], true, 1⟩
  lastPatch := .ok ⟨7, none, "new"⟩
  checks := .error "502 Bad Gateway"

theorem unansweredSeries_lost : ¬ SeenOnlyIfQueued Db.empty [unansweredSeries] := by
  intro h
  obtain ⟨l, hl, _⟩ := h _ _
    (unanswered_pass List.mem_cons_self (by decide : wanted ∅ unansweredSeries = true) rfl)
    ⟨rfl, rfl, rfl⟩ ⟨1⟩ (Finmap.mem_insert.mpr (Or.inl rfl)) Finmap.notMem_empty
  simp at hl

theorem seen_only_if_queued_iff (db : Db) (page : List Listed) :
    SeenOnlyIfQueued db page ↔ Answered db page := by
  constructor
  · intro h l hl hw
    cases hc : l.checks with
    | ok checks => exact ⟨checks, rfl⟩
    | error err =>
      have hnew : l.series.id.toDecimal ∉ db.seenByWatchcat := by
        simp only [wanted, Bool.and_eq_true, Bool.not_eq_true', decide_eq_false_iff_not] at hw
        exact hw.1.2
      obtain ⟨a, ha, _⟩ := h _ _ (unanswered_pass hl hw hc) ⟨rfl, rfl, rfl⟩ l.series.id
        (Finmap.mem_insert.mpr (Or.inl rfl)) hnew
      simp at ha
  · exact pass_queues_seen

end Watchcat

end Snowpatch
