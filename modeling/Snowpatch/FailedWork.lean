import Snowpatch.Watchers

/-! A `do_work` that fails. Its push loop queues a series for one runner before it pushes to
the next remote, and no exit of the loop takes back what is queued. One call by itself comes
first, for any remotes and any outcome of each; then the runs of the whole program. -/
namespace Snowpatch.FailedWork

open Pipeline Pushes Watchers

inductive Outcome where
  | pushed
  | notFastForward
  | breaks
  deriving DecidableEq, Repr

/-- The steps of a `do_work` in which each remote has its outcome. -/
def Agrees (outcome : String → Outcome) (s : DoWork.State) : DoWork.Event → Prop
  | .push remote => outcome remote = .pushed
  | .notFastForward remote => outcome remote = .notFastForward
  | .pushBreaks remote _ => outcome remote = .breaks
  | .fail => ∀ remote runner rest, s.pc = .pushing ((remote, runner) :: rest) →
      outcome remote = .breaks
  | _ => True

/-- One call of `do_work` by itself. -/
def call (apply : Mbox → GitTree → Option GitTree) (i : ℕ) (id : SeriesId) :
    Machine DoWork.State DoWork.Event :=
  ⟨DoWork.Enabled apply i id, DoWork.next apply i id⟩

/-- No remote breaks, or the first in the order of the tree does already. -/
def BreaksFirst (remotes : KvTree String String) (outcome : String → Outcome) : Prop :=
  (∃ remote ∈ remotes, outcome remote = .breaks) →
    ∃ first : String, KvTree.first remotes ⊥ = (first : WithTop String) ∧
      outcome first = .breaks

def NoneQueued (calls : List DoWork.Event) : Prop := ∀ r n, DoWork.Event.queue r n ∉ calls

structure FromFirst (remotes : KvTree String String) (l : List (String × String)) : Prop where
  stored : ∀ p ∈ l, p.1 ∈ remotes
  head : ∀ p rest, l = p :: rest → KvTree.first remotes ⊥ = (p.1 : WithTop String)

/-- Where a call stands. Nothing is queued up to its first push; from then on no remote is
left that breaks. -/
def Stands (remotes : KvTree String String) (outcome : String → Outcome)
    (calls : List DoWork.Event) : DoWork.Pc → Prop
  | .listing leaf cursor l => NoneQueued calls ∧ leaf.Covers remotes.keys cursor ∧
      FromFirst remotes l ∧ (l = [] → cursor = ⊥)
  | .pushing l => (NoneQueued calls ∧ FromFirst remotes l) ∨
      ((∀ p ∈ l, p.1 ∈ remotes) ∧ ∀ r ∈ remotes, outcome r ≠ .breaks)
  | .queueing _ _ rest => (∀ p ∈ rest, p.1 ∈ remotes) ∧ ∀ r ∈ remotes, outcome r ≠ .breaks
  | .returned true => True
  | .returned false | .opening | .resetting | .reading | .downloading _ | .applying _
  | .fallback _ | .reopening | .committing => NoneQueued calls

section Call

variable {apply : Mbox → GitTree → Option GitTree} {i : ℕ} {id : SeriesId}
  {remotes : KvTree String String} {outcome : String → Outcome} {calls : List DoWork.Event}
  {s t : DoWork.State} {e : DoWork.Event}

theorem NoneQueued.append (h : NoneQueued calls) (he : ∀ r n, e ≠ .queue r n) :
    NoneQueued (calls ++ [e]) := by
  intro r n hq
  rcases List.mem_append.mp hq with hq | hq
  · exact h r n hq
  · exact he r n (List.mem_singleton.mp hq).symm

theorem ne_queue_of_silent (h : e.Silent) : ∀ r n, e ≠ .queue r n := by
  rintro r n rfl
  exact h

theorem stands_setUp {pc : DoWork.Pc} (h : pc.SetUp) :
    Stands remotes outcome calls pc ↔ NoneQueued calls := by
  cases pc with
  | listing | pushing | queueing | returned => exact h.elim
  | _ => exact Iff.rfl

theorem FromFirst.append {cursor : WithBot String} {l : List (String × String)}
    (h : FromFirst remotes l) (hl : l = [] → cursor = ⊥) {p : String × String}
    (hnext : KvTree.first remotes cursor = (p.1 : WithTop String)) :
    FromFirst remotes (l ++ [p]) := by
  constructor
  · intro q hq
    rcases List.mem_append.mp hq with hq | hq
    · exact h.stored q hq
    · rw [List.mem_singleton.mp hq]
      exact KvTree.mem_of_first hnext
  · intro q rest heq
    cases l with
    | nil =>
      obtain ⟨rfl, _⟩ := List.cons.inj heq
      rw [← hl rfl, hnext]
    | cons a l =>
      obtain ⟨rfl, _⟩ := List.cons.inj heq
      exact h.head a l rfl

theorem none_breaks (hb : BreaksFirst remotes outcome) {first : String}
    (hfirst : KvTree.first remotes ⊥ = (first : WithTop String))
    (hok : outcome first ≠ .breaks) : ∀ r ∈ remotes, outcome r ≠ .breaks := by
  intro r hr hbreaks
  obtain ⟨a, ha, habreaks⟩ := hb ⟨r, hr, hbreaks⟩
  obtain rfl : a = first := WithTop.coe_injective (ha.symm.trans hfirst)
  exact hok habreaks

theorem stands_step (hb : BreaksFirst remotes outcome) (hs : s.db.remotesToPushTo = remotes)
    (h : Stands remotes outcome calls s.pc)
    (he : ((call apply i id).restrict (Agrees outcome)).Enabled s e) :
    Stands remotes outcome (calls ++ [e]) (DoWork.nextPc s.pc e) := by
  obtain ⟨hen, hagrees⟩ := he
  obtain ⟨db, git, pc⟩ := s
  subst hs
  have hmoves := DoWork.moves hen
  generalize DoWork.nextPc pc e = pc' at hmoves
  cases hmoves with
  | setUp hpc hsilent hpc' =>
    refine (stands_setUp hpc').mpr ?_
    exact ((stands_setUp hpc).mp h).append (ne_queue_of_silent hsilent)
  | fail hpc hsilent => exact ((stands_setUp hpc).mp h).append (ne_queue_of_silent hsilent)
  | commit =>
    exact ⟨NoneQueued.append h (by simp), KvTree.Leaf.covers_start _, ⟨by simp, by simp⟩,
      fun _ => rfl⟩
  | readRemotes hreads =>
    obtain ⟨hq, hcovers, hl⟩ := h
    exact ⟨hq.append (by simp), hcovers.read hreads fun _ _ _ => Finmap.mem_keys.symm, hl⟩
  | nextRunner hnext _ =>
    obtain ⟨hq, hcovers, hl, hstart⟩ := h
    exact ⟨hq.append (by simp), hcovers.yield hnext, hl.append hstart (hcovers.next_eq hnext),
      by simp⟩
  | listed _ => exact Or.inl ⟨h.1.append (by simp), h.2.2.1⟩
  | @push remote runner rest e hpush =>
    have hok : outcome remote ≠ .breaks := by
      rcases hpush with rfl | rfl
      · have houtcome : outcome remote = .pushed := hagrees
        simp [houtcome]
      · have houtcome : outcome remote = .notFastForward := hagrees
        simp [houtcome]
    rcases h with ⟨_, hl⟩ | ⟨hstored, hnone⟩
    · exact ⟨fun p hp => hl.stored p (List.mem_cons_of_mem _ hp),
        none_breaks hb (hl.head _ _ rfl) hok⟩
    · exact ⟨fun p hp => hstored p (List.mem_cons_of_mem _ hp), hnone⟩
  | queue => exact Or.inr h
  | @breaks remote runner rest e hbreaks =>
    have houtcome : outcome remote = .breaks := by
      rcases hbreaks with rfl | ⟨updated, rfl⟩
      · exact hagrees remote runner rest rfl
      · exact hagrees
    rcases h with ⟨hq, _⟩ | ⟨hstored, hnone⟩
    · refine hq.append ?_
      rintro r n rfl
      simp at hbreaks
    · exact absurd houtcome (hnone remote (hstored _ List.mem_cons_self))
  | finish => trivial

theorem nothing_queued (hb : BreaksFirst remotes outcome) (hs : s.db.remotesToPushTo = remotes)
    (hpc : s.pc = .opening)
    (hx : ((call apply i id).restrict (Agrees outcome)).Execution s calls t)
    (ht : t.pc = .returned false) : NoneQueued calls := by
  have h : t.db.remotesToPushTo = remotes ∧ Stands remotes outcome calls t.pc := by
    refine hx.history (I := fun calls t => t.db.remotesToPushTo = remotes ∧
      Stands remotes outcome calls t.pc) ⟨hs, ?_⟩ fun calls t e _ h he => ⟨?_, ?_⟩
    · rw [hpc]
      simp [Stands, NoneQueued]
    · refine Eq.trans ?_ h.1
      cases e <;> rfl
    · exact stands_step hb h.1 h.2 he
  rw [ht] at h
  exact h.2

structure Ready (remotes : KvTree String String) (s : DoWork.State) : Prop where
  remotes : s.db.remotesToPushTo = remotes
  keys : DoWork.HasKeys s.db
  refs : ∀ remote branch, (s.git.refs remote branch).isSome

theorem Ready.next (h : Ready remotes s) (e : DoWork.Event) :
    Ready remotes (DoWork.next apply i id s e) := by
  constructor
  · refine Eq.trans ?_ h.remotes
    cases e <;> rfl
  · cases e <;> exact h.keys
  · intro remote branch
    cases e with
    | push r =>
      simp only [DoWork.next, DoWork.nextGit, GitWorld.setRef_refs]
      split
      · rfl
      · exact h.refs remote branch
    | pushBreaks r updated =>
      simp only [DoWork.next, DoWork.nextGit]
      split
      · rw [GitWorld.setRef_refs]
        split
        · rfl
        · exact h.refs remote branch
      · exact h.refs remote branch
    | applyToRepo | binaryApply =>
      simp only [DoWork.next, DoWork.nextGit]
      split <;> exact h.refs remote branch
    | _ => exact h.refs remote branch

theorem exists_read (h : Ready remotes s) {leaf : KvTree.Leaf String String}
    {cursor : WithBot String} {l : List (String × String)} (hpc : s.pc = .listing leaf cursor l)
    (hcovers : leaf.Covers remotes.keys cursor) : ∃ calls t leaf',
      ((call apply i id).restrict (Agrees outcome)).Execution s calls t ∧ Ready remotes t ∧
        t.pc = .listing leaf' cursor l ∧ leaf'.Covers remotes.keys cursor ∧
        ((∃ r : String, leaf'.next cursor = (r : WithTop String)) ∨
          leaf'.Ends remotes cursor) := by
  rcases leaf.ready remotes cursor with hnext | hreads | hend
  · exact ⟨[], s, leaf, .nil, h, hpc, hcovers, Or.inl hnext⟩
  · have hen : DoWork.Enabled apply i id s (.readRemotes (leaf.read remotes ⊤) true) :=
      ⟨leaf, cursor, l, hpc, h.remotes ▸ hreads⟩
    refine ⟨[.readRemotes (leaf.read remotes ⊤) true], _, leaf.read remotes ⊤,
      .single ⟨hen, trivial⟩, h.next _, ?_, ?_, Or.inl ?_⟩
    · simp [call, Machine.restrict, DoWork.next, DoWork.nextPc, hpc]
    · exact hcovers.read hreads fun _ _ _ => Finmap.mem_keys.symm
    · obtain ⟨r, hr⟩ := WithTop.ne_top_iff_exists.mp (hreads.2.2.2.mp rfl)
      exact ⟨r, hr.symm⟩
  · exact ⟨[], s, leaf, .nil, h, hpc, hcovers, Or.inr hend⟩

theorem exists_listing (h : Ready remotes s) {leaf : KvTree.Leaf String String}
    {cursor : WithBot String} {l : List (String × String)} (hpc : s.pc = .listing leaf cursor l)
    (hcovers : leaf.Covers remotes.keys cursor) : ∃ calls t rest,
      ((call apply i id).restrict (Agrees outcome)).Execution s calls t ∧ Ready remotes t ∧
        t.pc = .pushing (l ++ rest) ∧
        (∀ r ∈ remotes, cursor < (r : WithBot String) → ∃ p ∈ rest, p.1 = r) ∧
        ∀ first : String, KvTree.first remotes cursor = (first : WithTop String) →
          ∃ p rest', rest = p :: rest' ∧ p.1 = first := by
  induction hn : (remotes.keys.filter fun k : String => cursor < (k : WithBot String)).card
    using Nat.strong_induction_on generalizing s leaf cursor l with
  | _ n ih =>
    obtain ⟨calls₀, u, leaf', hx₀, hu, hupc, hcovers', ⟨r, hnext⟩ | hend⟩ :=
      exists_read h hpc hcovers
    · have hfirst := hcovers'.next_eq hnext
      obtain ⟨hr, hlt, hleast⟩ := KvTree.of_nextIn_eq hfirst
      obtain ⟨n', hn'⟩ := Finmap.mem_iff.mp (KvTree.mem_of_first hnext)
      have hen : DoWork.Enabled apply i id u (.nextRunner r n') :=
        ⟨leaf', cursor, l, hupc, hnext, hn'⟩
      have hpc' : (DoWork.next apply i id u (.nextRunner r n')).pc =
          .listing leaf' r (l ++ [(r, n')]) := by
        simp [DoWork.next, DoWork.nextPc, hupc]
      obtain ⟨calls, t, rest, hx, ht, htpc, hall, _⟩ :=
        ih _ (hn ▸ KvTree.card_after_lt hlt hr) (hu.next (.nextRunner r n')) hpc'
          (hcovers'.yield hnext) rfl
      refine ⟨calls₀ ++ .nextRunner r n' :: calls, t, (r, n') :: rest,
        hx₀.append (.cons ⟨hen, trivial⟩ hx), ht, ?_, ?_, ?_⟩
      · simpa using htpc
      · intro k hk hck
        by_cases hkr : k = r
        · exact ⟨(r, n'), List.mem_cons_self, hkr.symm⟩
        · have hle := hleast k (Finmap.mem_keys.mpr hk) hck
          obtain ⟨p, hp, rfl⟩ := hall k hk
            (WithBot.coe_lt_coe.mpr (lt_of_le_of_ne hle (Ne.symm hkr)))
          exact ⟨p, List.mem_cons_of_mem _ hp, rfl⟩
      · intro first hf
        exact ⟨(r, n'), rest, rfl, WithTop.coe_injective (hfirst.symm.trans hf)⟩
    · have hlast := hcovers'.next_top hend fun _ _ => Finmap.mem_keys.symm
      have hen : DoWork.Enabled apply i id u .listed :=
        ⟨leaf', cursor, l, hupc, hu.remotes ▸ hend⟩
      have hlisted : ((call apply i id).restrict (Agrees outcome)).Execution u [.listed] _ :=
        .single ⟨hen, trivial⟩
      refine ⟨calls₀ ++ [.listed], _, [], hx₀.append hlisted, hu.next _, ?_, ?_, ?_⟩
      · simp [DoWork.next, DoWork.nextPc, hupc]
      · intro r hr hlt
        exact absurd hlt (KvTree.nextIn_eq_top.mp hlast r (Finmap.mem_keys.mpr hr))
      · intro first hf
        cases hlast.symm.trans hf

theorem push_and_queue (h : Ready remotes s) {r n : String} {rest : List (String × String)}
    (hpc : s.pc = .pushing ((r, n) :: rest)) (hok : outcome r ≠ .breaks) : ∃ calls t,
      ((call apply i id).restrict (Agrees outcome)).Execution s calls t ∧ Ready remotes t ∧
        t.pc = .pushing rest ∧ DoWork.Event.queue r n ∈ calls := by
  have hpush : ∃ e, (e = .push r ∨ e = .notFastForward r) ∧ DoWork.Enabled apply i id s e ∧
      Agrees outcome s e := by
    cases houtcome : outcome r with
    | pushed => exact ⟨.push r, Or.inl rfl, ⟨n, rest, hpc, h.keys⟩, houtcome⟩
    | notFastForward =>
      exact ⟨.notFastForward r, Or.inr rfl, ⟨n, rest, hpc, h.keys, h.refs _ _⟩, houtcome⟩
    | breaks => exact absurd houtcome hok
  obtain ⟨e, he, hen, hagrees⟩ := hpush
  have hpc' : (DoWork.next apply i id s e).pc = .queueing r n rest := by
    rcases he with rfl | rfl <;> simp [DoWork.next, DoWork.nextPc, hpc]
  have hqueue : DoWork.Enabled apply i id (DoWork.next apply i id s e) (.queue r n) :=
    ⟨rest, hpc'⟩
  refine ⟨[e, .queue r n], _, .cons ⟨hen, hagrees⟩ (.single ⟨hqueue, trivial⟩),
    (h.next e).next _, ?_, by simp⟩
  change DoWork.nextPc (DoWork.next apply i id s e).pc (.queue r n) = _
  rw [hpc']
  rfl

theorem exists_failure {l : List (String × String)} (h : Ready remotes s)
    (hpc : s.pc = .pushing l) (hl : ∃ p ∈ l, outcome p.1 = .breaks) : ∃ calls t,
      ((call apply i id).restrict (Agrees outcome)).Execution s calls t ∧
        t.pc = .returned false := by
  induction l generalizing s with
  | nil => simp at hl
  | cons p rest ih =>
    obtain ⟨r, n⟩ := p
    by_cases hr : outcome r = .breaks
    · have hen : DoWork.Enabled apply i id s .fail := by
        change s.pc.Fallible
        rw [hpc]
        exact List.cons_ne_nil _ _
      refine ⟨[.fail], _, .single ⟨hen, ?_⟩, rfl⟩
      intro r' n' rest' hpc'
      rw [hpc] at hpc'
      cases hpc'
      exact hr
    · obtain ⟨p, hp, hbreaks⟩ := hl
      obtain ⟨calls, t, hx, ht, htpc, _⟩ := push_and_queue h hpc hr
      have hrest : ∃ p ∈ rest, outcome p.1 = .breaks := by
        rcases List.mem_cons.mp hp with rfl | hp
        · exact absurd hbreaks hr
        · exact ⟨p, hp, hbreaks⟩
      obtain ⟨calls', t', hx', ht'⟩ := ih ht htpc hrest
      exact ⟨calls ++ calls', t', hx.append hx', ht'⟩

end Call

section Start

def opened (remotes : KvTree String String) : DoWork.State where
  db := { Db.empty.populate Sample.config with
    series := fun _ => Finmap.singleton Sample.id Sample.listed.series.mbox
    remotesToPushTo := remotes }
  git := ⟨Sample.master, fun _ => ⟨Sample.master, ⟨[]⟩, ⟨[]⟩⟩, fun _ _ => some Sample.master⟩
  pc := .opening

def setUp : List DoWork.Event :=
  [.openRepo, .reset Sample.master, .readUrl Sample.listed.series.mbox, .download ⟨"diff"⟩,
    .applyToRepo, .commit]

theorem setUp_runs (remotes : KvTree String String) (outcome : String → Outcome) :
    ((call Sample.env.apply 0 Sample.id).restrict (Agrees outcome)).Runs (opened remotes)
      setUp := by
  refine ⟨⟨rfl, trivial⟩, ⟨⟨rfl, rfl⟩, trivial⟩, ⟨⟨rfl, ?_⟩, trivial⟩, ⟨⟨_, rfl⟩, trivial⟩,
    ⟨⟨_, rfl, rfl, rfl⟩, trivial⟩, ⟨⟨rfl, rfl⟩, trivial⟩, trivial⟩
  exact Finmap.lookup_singleton_eq

theorem exists_queued {remotes : KvTree String String} {outcome : String → Outcome}
    (hb : ¬ BreaksFirst remotes outcome) : ∃ calls t,
      ((call Sample.env.apply 0 Sample.id).restrict (Agrees outcome)).Execution
        (opened remotes) calls t ∧ t.pc = .returned false ∧ ¬ NoneQueued calls := by
  unfold BreaksFirst at hb
  push Not at hb
  obtain ⟨⟨broken, hmem, hbreaks⟩, hfirst⟩ := hb
  have hready : Ready remotes ((call Sample.env.apply 0 Sample.id).run (opened remotes) setUp) :=
    ⟨rfl, ⟨rfl, rfl⟩, fun _ _ => rfl⟩
  obtain ⟨calls, t, rest, hlist, ht, htpc, hall, hhead⟩ :=
    exists_listing hready rfl (KvTree.Leaf.covers_start _)
  obtain ⟨first, hf⟩ : ∃ first : String, KvTree.first remotes ⊥ = (first : WithTop String) := by
    cases h : KvTree.first remotes ⊥ with
    | coe first => exact ⟨first, rfl⟩
    | top =>
      exact absurd (WithBot.bot_lt_coe broken)
        (KvTree.first_eq_top.mp h broken hmem)
  obtain ⟨⟨r, n⟩, rest, rfl, rfl⟩ := hhead first hf
  obtain ⟨calls', u, hpush, hu, hupc, hqueued⟩ := push_and_queue ht htpc (hfirst _ hf)
  obtain ⟨p, hp, rfl⟩ := hall broken hmem (WithBot.bot_lt_coe _)
  have hrest : ∃ p ∈ rest, outcome p.1 = .breaks := by
    rcases List.mem_cons.mp hp with rfl | hp
    · exact absurd hbreaks (hfirst _ hf)
    · exact ⟨p, hp, hbreaks⟩
  obtain ⟨calls'', v, hfail, hv⟩ := exists_failure hu hupc hrest
  refine ⟨_, v, (((setUp_runs remotes outcome).execution.append hlist).append hpush).append hfail,
    hv, ?_⟩
  intro hnone
  exact hnone r n (by simp [hqueued])

end Start

/-! The runs of the program. -/

/-- A `do_work` for the series ends in an error. -/
def Fails (id : SeriesId) (e : Event) : Prop :=
  ∃ i we, e = .worker i id (.work we) ∧
    (we = .fail ∨ (∃ left, we = .resetFails left) ∨ ∃ r updated, we = .pushBreaks r updated)

def FailsFirst (tr : List Event) : Prop :=
  ∀ pre post id e, tr = pre ++ e :: post → Fails id e → ¬ Pushed pre id

/-- The branch is in the trees of a runner, with a watcher or with a task. -/
def UnderTest (s : State) (branch : String) : Prop :=
  (∃ t, branch ∈ s.db.branches t) ∨ (∃ k, RunnerStage.Names (s.proc.watcher k) branch) ∨
    ∃ t ∈ s.proc.waits, t.branch = branch

/-- Where a `do_work` stands that fails before its first push, if it fails. -/
def Fate (tr : List Event) (id : SeriesId) : DoWork.Pc → Prop
  | .pushing _ | .returned true => Queued tr id → Pushed tr id
  | .queueing _ _ _ => Pushed tr id
  | .returned false => ¬ Queued tr id
  | .opening | .resetting | .reading | .downloading _ | .applying _ | .fallback _ | .reopening
  | .committing | .listing _ _ _ => Untouched tr id

section Runs

variable {env : Env} {s₀ s : State} {tr : List Event} {e : Event} {id : SeriesId}

theorem FailsFirst.before (h : FailsFirst (tr ++ [e])) : FailsFirst tr := by
  rintro pre post id a rfl
  exact h pre (post ++ [e]) id a (by simp)

theorem FailsFirst.last (h : FailsFirst (tr ++ [e])) (he : Fails id e) : ¬ Pushed tr id :=
  h tr [] id e rfl he

theorem fate_setUp {pc : DoWork.Pc} (h : pc.SetUp) : Fate tr id pc ↔ Untouched tr id := by
  cases pc with
  | listing | pushing | queueing | returned => exact h.elim
  | _ => exact Iff.rfl

theorem Fate.append {pc : DoWork.Pc} (h : Fate tr id pc) (he : Idle id e) :
    Fate (tr ++ [e]) id pc := by
  have hpushed : Pushed (tr ++ [e]) id ↔ Pushed tr id :=
    pushed_append.trans (or_iff_left (not_exists.mpr he.1))
  have hqueued : Queued (tr ++ [e]) id ↔ Queued tr id := by
    refine queued_append.trans (or_iff_left ?_)
    rintro ⟨r, n, hq⟩
    exact he.2 r n hq
  cases pc with
  | pushing => simpa only [Fate, hpushed, hqueued] using h
  | queueing => exact hpushed.mpr h
  | returned ok => cases ok <;> simpa only [Fate, hpushed, hqueued] using h
  | _ => exact Untouched.append h he

theorem fate_work {i : ℕ} {p : DoWork.Pc} {we : DoWork.Event}
    (hfirst : FailsFirst (tr ++ [.worker i id (.work we)]))
    (he : DoWork.Enabled env.apply i id ⟨s.db, s.git, p⟩ we) (h : Fate tr id p) :
    Fate (tr ++ [.worker i id (.work we)]) id (DoWork.nextPc p we) := by
  have hmoves := DoWork.moves he
  generalize DoWork.nextPc p we = p' at hmoves
  cases hmoves with
  | setUp hpc hsilent hpc' =>
    refine (fate_setUp hpc').mpr ?_
    exact ((fate_setUp hpc).mp h).append (idle_of_silent hsilent i id)
  | fail hpc hsilent =>
    exact not_queued_of_untouched
      (((fate_setUp hpc).mp h).append (idle_of_silent hsilent i id))
  | commit | readRemotes | nextRunner =>
    refine Untouched.append h (idle_of_silent ?_ i id)
    trivial
  | listed =>
    have hsilent : DoWork.Event.listed.Silent := trivial
    intro hq
    exact absurd hq (not_queued_of_untouched (h.append (idle_of_silent hsilent i id)))
  | @push remote runner rest we hpush =>
    refine pushed_append.mpr (Or.inr ⟨remote, i, ?_⟩)
    rcases hpush with rfl | rfl
    · exact Or.inl rfl
    · exact Or.inr rfl
  | queue => exact fun _ => pushed_append.mpr (Or.inl h)
  | @breaks remote runner rest we hbreaks =>
    have hfails : Fails id (.worker i id (.work we)) := by
      refine ⟨i, we, rfl, ?_⟩
      rcases hbreaks with rfl | ⟨updated, rfl⟩
      · exact Or.inl rfl
      · exact Or.inr (Or.inr ⟨remote, updated, rfl⟩)
    intro hq
    rcases queued_append.mp hq with hq | ⟨r, n, j, hj⟩
    · exact hfirst.last hfails (h hq)
    · cases hj
      simp at hbreaks
  | finish =>
    refine Fate.append h (idle_of_silent ?_ i id)
    trivial

theorem execution_fate (hx : (machine env).Execution s₀ tr s) (h₀ : Initial s₀)
    (hfirst : FailsFirst tr) :
    ∀ i id pc, s.proc.thread i = some (id, .working pc) → Fate tr id pc := by
  intro i id pc hi
  refine work_history (C := fun _ _ => True)
    (I := fun tr _ id pc => FailsFirst tr → Fate tr id pc) (hx.restrict fun _ _ => trivial) h₀
    (fun _ _ _ hu _ => hu) ?_ ?_ i id pc hi hfirst
  · intro tr _ id pc e h he hfirst
    exact (h hfirst.before).append he
  · intro tr s i id p we _ _ he _ h hfirst
    exact fate_work hfirst he (h hfirst.before)

theorem failures_next (he : Enabled env s e)
    (hid : id ∈ (next env s e).db.series .gitFailures) :
    id ∈ s.db.series .gitFailures ∨ ∃ i, e = .worker i id .moveToFailures := by
  cases e using GitStage.event_cases with
  | elsewhere e ho =>
    have htrees : (next env s e).db.series = s.db.series :=
      congrArg (·.trees) (GitStage.view_elsewhere env s ho)
    exact Or.inl (htrees ▸ hid)
  | start | stop | beginScan | begin => exact Or.inl hid
  | scan e => cases e with
    | queue a =>
      have hdb : (next env s (.scan (.queue a))).db =
          s.db.insertSeries .needsTesting a.series.id a.series.mbox := Watchcat.queue_db he
      rw [hdb] at hid
      exact Or.inl ((Db.mem_insertSeries.mp hid).resolve_left (by simp))
    | reject | choose | skip | fail | mark => exact Or.inl hid
  | ingest e => cases e with
    | move a =>
      rcases (GitStage.held_moved (by simp) he.2 _ id).mp hid with ⟨_, ht⟩ | ⟨hid, _⟩
      · cases ht
      · exact Or.inl hid
    | ready | read | take | ends | spawn | wait => exact Or.inl hid
  | worker i a e =>
    obtain ⟨pc, hi, he⟩ := he
    have htrees : (next env s (.worker i a e)).db.series =
        (Worker.nextDb i a ⟨s.db, s.git, pc⟩ e).series :=
      congrArg (·.trees) (GitStage.view_worker env hi)
    rw [htrees] at hid
    by_cases hia : id = a
    · subst hia
      cases e with
      | moveToFailures => exact Or.inr ⟨i, rfl⟩
      | moveIn =>
        rcases (GitStage.held_moved (by simp) he.2 _ id).mp hid with ⟨_, ht⟩ | ⟨hid, _⟩
        · cases ht
        · exact Or.inl hid
      | work e =>
        simp only [Worker.nextDb, DoWork.nextDb_series] at hid
        exact Or.inl hid
      | remove => exact Or.inl (Db.mem_removeSeries.mp hid).1
      | busy | free | wait | startWork => exact Or.inl hid
    · exact Or.inl (GitStage.held_of_worker_ne he hia hid)

theorem not_queued_of_failed (hx : (machine env).Execution s₀ tr s) (h₀ : Initial s₀)
    (hfirst : FailsFirst tr) : ∀ id ∈ s.db.series .gitFailures, ¬ Queued tr id := by
  refine hx.history (I := fun tr s => FailsFirst tr → ∀ id ∈ s.db.series .gitFailures,
    ¬ Queued tr id) ?_ ?_ hfirst
  · intro _ id hid
    rw [h₀.db_empty] at hid
    exact absurd hid Finmap.notMem_empty
  intro tr s e hx ih he hfirst id hid hq
  have hcustody := (GitStage.execution_git hx h₀).2
  rcases failures_next he hid with hfailed | ⟨i, rfl⟩
  · rcases queued_append.mp hq with hq | ⟨r, n, i, rfl⟩
    · exact ih hfirst.before id hfailed hq
    · obtain ⟨_, hi, p, rfl, _⟩ := he
      cases hcustody.held_once _ _ id hfailed (hcustody.thread_after i id _ hi trivial)
  · obtain ⟨_, hi, rfl, _⟩ := he
    rcases queued_append.mp hq with hq | ⟨r, n, j, hj⟩
    · exact execution_fate hx h₀ hfirst.before i id _ hi hq
    · cases hj

theorem queued_of_underTest (hx : (machine env).Execution s₀ tr s) (h₀ : Initial s₀) :
    ∀ id, (UnderTest s (SeriesId.toDecimal id) ∨
      ∃ k, SeriesId.toDecimal id ∈ (s.proc.watcherLeaf k).entries) → Queued tr id := by
  refine hx.history (I := fun tr s => ∀ id, (UnderTest s (SeriesId.toDecimal id) ∨
    ∃ k, SeriesId.toDecimal id ∈ (s.proc.watcherLeaf k).entries) → Queued tr id) ?_ ?_
  · intro id h
    simp [UnderTest, h₀.db_empty, h₀.not_running, Process.stopped, Db.empty, RunnerStage.Names,
      KvTree.Leaf.start, Finmap.notMem_empty] at h
  intro tr s e hx ih he id h
  have hold : UnderTest s id.toDecimal → Queued (tr ++ [e]) id :=
    fun h => queued_append.mpr (Or.inl (ih id (Or.inl h)))
  have hcloned : ∀ k, id.toDecimal ∈ (s.proc.watcherLeaf k).entries → Queued (tr ++ [e]) id :=
    fun k hb => queued_append.mpr (Or.inl (ih id (Or.inr ⟨k, hb⟩)))
  rcases h with (⟨t, hb⟩ | ⟨k, hk⟩ | ⟨t, ht, hbranch⟩) | ⟨k, hb⟩
  · rcases RunnerStage.mem_branches_next he hb with hb | ⟨i, a, r, n, rfl, ha, _⟩ | ⟨k, rfl, _⟩
    · exact hold (Or.inl ⟨t, hb⟩)
    · obtain rfl := toDecimal_inj.mp ha
      exact queued_append.mpr (Or.inr ⟨r, n, i, rfl⟩)
    · exact hold (Or.inl ⟨_, he.2⟩)
  · rcases RunnerStage.watcher_next he hk with ⟨we, _, hen, hpc⟩ | ⟨_, hpc⟩
    · rcases RunnerStage.names_nextPc hen (hpc ▸ hk) with hk | hb
      · exact hold (Or.inr (Or.inl ⟨k, hk⟩))
      · exact hcloned k hb
    · have hk : RunnerStage.Names (s.proc.watcher k) id.toDecimal := hpc ▸ hk
      exact hold (Or.inr (Or.inl ⟨k, hk⟩))
  · rcases RunnerStage.mem_waits_next ht with ht | ⟨k, branch, rfl, rfl⟩ | ⟨u, we, rfl, hn⟩
    · exact hold (Or.inr (Or.inr ⟨t, ht, hbranch⟩))
    · obtain rfl : branch = id.toDecimal := hbranch
      have hspawn : Watcher.Enabled gitHubHandle
        ⟨s.db, s.proc.watcher k, s.proc.watcherLeaf k⟩ (.spawn id.toDecimal) := he
      exact hold (Or.inr (Or.inl ⟨k, Or.inr (Or.inr hspawn)⟩))
    · exact hold (Or.inr (Or.inr ⟨u, he.1, (Completion.next_same hn).2.symm.trans hbranch⟩))
  · rcases RunnerStage.mem_watcherLeaf_next he hb with hb | hb
    · exact hcloned k hb
    · exact hold (Or.inl ⟨_, hb⟩)

end Runs

/-- A failed git stage leaves nothing queued if and only if no remote breaks after the first
one has been pushed to; and in the runs of the program in which no `do_work` fails so, a series
in "git failures" is not under test. -/
theorem failed_work_queues_nothing (remotes : KvTree String String)
    (outcome : String → Outcome) (env : Env) :
    ((∀ apply i id s calls t, s.pc = .opening → s.db.remotesToPushTo = remotes →
      ((call apply i id).restrict (Agrees outcome)).Execution s calls t →
        t.pc = .returned false → NoneQueued calls) ↔ BreaksFirst remotes outcome) ∧
    ∀ s₀ tr s, (machine env).Execution s₀ tr s → Initial s₀ → FailsFirst tr →
      ∀ id ∈ s.db.series .gitFailures, ¬ Queued tr id ∧ ¬ UnderTest s id.toDecimal := by
  constructor
  · constructor
    · intro h
      by_contra hb
      obtain ⟨calls, t, hx, ht, hqueued⟩ := exists_queued hb
      exact hqueued (h _ _ _ _ calls t rfl rfl hx ht)
    · intro hb apply i id s calls t hpc hs hx ht
      exact nothing_queued hb hs hpc hx ht
  · intro s₀ tr s hx h₀ hfirst id hid
    have hq := not_queued_of_failed hx h₀ hfirst id hid
    exact ⟨hq, fun hu => hq (queued_of_underTest hx h₀ id (Or.inl hu))⟩

section Samples

def brokenTrace : List Event :=
  beforeListing ++ (listing ++
    [.worker 0 Sample.id (.work .fail), .worker 0 Sample.id .moveToFailures])

theorem brokenTrace_runs : (machine Sample.env).Runs Sample.state brokenTrace := by
  have hsample : (machine Sample.env).Runs Sample.state ((beforeListing ++ listing) ++
      (Sample.gitWork.drop 13 ++ Sample.testing)) := Sample.runs
  obtain ⟨hbefore, _⟩ := Machine.runs_append.mp hsample
  obtain ⟨hbefore, hlisting⟩ := Machine.runs_append.mp hbefore
  refine Machine.runs_append.mpr ⟨hbefore, Machine.runs_append.mpr
    ⟨hlisting, ⟨_, rfl, _, rfl, ?_⟩, ⟨_, rfl, rfl, ?_⟩, trivial⟩⟩
  · exact List.cons_ne_nil _ _
  · decide

theorem brokenTrace_failsFirst : FailsFirst brokenTrace := by
  rintro pre post id e htr - ⟨remote, a, ha, hp⟩
  have hmem : a ∈ brokenTrace := htr ▸ List.mem_append_left _ ha
  rcases hp with ⟨i, rfl | rfl⟩ <;>
    simp [brokenTrace, beforeListing, listing, Sample.boot, Sample.discover, Sample.ingest,
      Sample.gitWork] at hmem

def brokenCall : List DoWork.Event :=
  [.readRemotes (.whole Sample.remotes) true, .nextRunner "origin" "github", .listed, .fail]

theorem brokenCall_runs : ((call Sample.env.apply 0 Sample.id).restrict
    (Agrees fun _ => .breaks)).Runs (opened Sample.remotes)
      (setUp ++ brokenCall) := by
  refine Machine.runs_append.mpr ⟨setUp_runs _ _,
    ⟨⟨_, _, _, rfl, KvTree.Leaf.reads_whole ?_⟩, trivial⟩, ⟨⟨_, _, _, rfl, ?_, ?_⟩, trivial⟩,
    ⟨⟨_, _, _, rfl, ?_⟩, trivial⟩, ⟨List.cons_ne_nil _ _, fun _ _ _ _ => rfl⟩, trivial⟩
  all_goals decide

theorem failed_work_queues_nothing_sample : NoneQueued (setUp ++ brokenCall) ∧
    ¬ UnderTest ((machine Sample.env).run Sample.state brokenTrace) Sample.id.toDecimal := by
  constructor
  · have hbreaks : BreaksFirst Sample.remotes fun _ => .breaks :=
      fun _ => ⟨"origin", by decide, rfl⟩
    exact (failed_work_queues_nothing _ _ Sample.env).1.mpr hbreaks _ _ _ _ _ _ rfl rfl
      brokenCall_runs.execution rfl
  · exact ((failed_work_queues_nothing ∅ (fun _ => .breaks) Sample.env).2 _ _ _
      brokenTrace_runs.execution Sample.state_initial brokenTrace_failsFirst Sample.id
      (by decide)).2

/-- The first of two remotes takes the branch and the second breaks. -/
def halfTrace : List Event :=
  pairTrace.take 34 ++ [.worker 0 Sample.id (.work .fail), .worker 0 Sample.id .moveToFailures]

theorem halfTrace_runs : (machine Sample.env).Runs Sample.state halfTrace := by
  have hpair : (machine Sample.env).Runs Sample.state (pairTrace.take 34 ++ pairTrace.drop 34) :=
    pairTrace_runs
  obtain ⟨hbefore, _⟩ := Machine.runs_append.mp hpair
  refine Machine.runs_append.mpr ⟨hbefore, ⟨_, rfl, _, rfl, ?_⟩, ⟨_, rfl, rfl, ?_⟩, trivial⟩
  · exact List.cons_ne_nil _ _
  · decide

theorem failed_and_queued : ∃ tr s, (machine Sample.env).Execution Sample.state tr s ∧
    Sample.id ∈ s.db.series .gitFailures ∧ Queued tr Sample.id ∧
      Sample.id.toDecimal ∈ s.db.branches (.queue gitHubHandle) := by
  refine ⟨halfTrace, _, halfTrace_runs.execution, ?_, ⟨"backup", "github", ?_⟩, ?_⟩
  · decide
  · have hqueue : halfTrace[33]? =
        some (.worker 0 Sample.id (.work (.queue "backup" "github"))) := rfl
    exact ⟨_, List.mem_of_getElem? hqueue, 0, rfl⟩
  · decide

end Samples

end Snowpatch.FailedWork
