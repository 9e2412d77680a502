import Snowpatch.Pipeline

/-! One pass of `wait_and_send` over a fixed tree "needs dispatch". The entries are sent in
the order of their keys and removed in a second loop after the last of them; an error leaves
both loops at once. Which entries `send_check` fails for is arbitrary. -/
namespace Snowpatch.Passes

inductive Event where
  | step (e : Dispatch.Event)
  | error

def inHand : Dispatch.Pc → Option String
  | .sending key _ _ | .checking key _ _ _ _ | .posting key _ _ _ _ => some key
  | .off | .iterate _ _ | .dropping _ | .waiting _ | .aborted => none

/-- `send_check` returns Err for the entries in `failing` and Ok for the others. The pass is
over when the dispatcher waits for the tree. -/
def Agrees (failing : Set String) (pc : Dispatch.Pc) : Dispatch.Event → Prop
  | .noToken | .duplicate | .post _ _ _ => ∀ key, inHand pc = some key → key ∉ failing
  | .postBreaks _ _ _ => ∀ key, inHand pc = some key → key ∈ failing
  | .wait _ => False
  | .read _ _ | .take _ | .getSeries _ | .unique | .ends | .drop _ | .dropped => True

/-- An error is that of the parser or of `send_check`, which has none without a token. -/
def Enabled (token : Option String) (lastPatch : SeriesId → Option PatchId)
    (failing : Set String) (s : Dispatch.State) : Event → Prop
  | .step e => Dispatch.Enabled token lastPatch s e ∧ Agrees failing s.pc e
  | .error => ∃ key, inHand s.pc = some key ∧
      (parseEntry key = none ∨ token.isSome ∧ key ∈ failing)

def next (s : Dispatch.State) : Event → Dispatch.State
  | .step e => Dispatch.next s e
  | .error => { s with pc := .aborted }

def machine (token : Option String) (lastPatch : SeriesId → Option PatchId)
    (failing : Set String) : Machine Dispatch.State Event :=
  ⟨Enabled token lastPatch failing, next⟩

def start (db : Db) (checks : PatchId → List Check) : Dispatch.State :=
  ⟨db, checks, .iterate ⊥ [], .start⟩

def Over (s : Dispatch.State) : Prop := s.pc = .waiting .register ∨ s.pc = .aborted

def Taken (tr : List Event) (key : String) : Prop := Event.step (.take key) ∈ tr

/-- `send_check` is called for an entry that has been taken if its key can be parsed. -/
def Called (tr : List Event) (key : String) : Prop := Taken tr key ∧ (parseEntry key).isSome

def Removed (tr : List Event) (key : String) : Prop := Event.step (.drop key) ∈ tr

/-- No bad entry blocks another one. -/
structure Unblocked (entries : KvTree String RunnerResult) (failing : Set String)
    (tr : List Event) : Prop where
  called : ∀ key ∈ entries, key ∉ failing → Called tr key
  removed : ∀ key, Removed tr key ↔ Called tr key ∧ key ∉ failing

def Good (failing : Set String) (key : String) : Prop :=
  key ∉ failing ∧ (parseEntry key).isSome

/-- How far the first loop has read: everything up to the cursor is taken, and all of it is
to be dropped apart from what is in hand. -/
structure Reading (entries : KvTree String RunnerResult) (failing : Set String)
    (tr : List Event) (leaf : KvTree.Leaf String RunnerResult) (cursor : WithBot String)
    (drop : List String) (hand : Option String) : Prop where
  covers : leaf.Covers entries.keys cursor
  taken : ∀ k : String, Taken tr k ↔ k ∈ entries ∧ (k : WithBot String) ≤ cursor
  held : ∀ k, Taken tr k ↔ k ∈ drop ∨ hand = some k
  good : ∀ k ∈ drop, Good failing k
  kept : ∀ k, ¬ Removed tr k

structure Dropping (entries : KvTree String RunnerResult) (failing : Set String)
    (tr : List Event) (rest : List String) : Prop where
  taken : ∀ k, Taken tr k ↔ k ∈ entries
  good : ∀ k ∈ entries, Good failing k
  removed : ∀ k, Removed tr k ∨ k ∈ rest ↔ k ∈ entries

def Stage (entries : KvTree String RunnerResult) (failing : Set String) (tr : List Event)
    (s : Dispatch.State) : Prop :=
  match s.pc with
  | .iterate cursor drop =>
    s.db.needsDispatch = entries ∧ Reading entries failing tr s.leaf cursor drop none
  | .sending key _ drop =>
    s.db.needsDispatch = entries ∧ Reading entries failing tr s.leaf key drop (some key)
  | .checking key _ _ _ drop | .posting key _ _ _ drop =>
    s.db.needsDispatch = entries ∧ Reading entries failing tr s.leaf key drop (some key) ∧
      (parseEntry key).isSome
  | .aborted => ∃ (key : String) (drop : List String), s.db.needsDispatch = entries ∧
      Reading entries failing tr s.leaf key drop (some key) ∧ ¬ Good failing key
  | .dropping rest => Dropping entries failing tr rest
  | .waiting _ => Dropping entries failing tr []
  | .off => False

section Steps

variable {entries : KvTree String RunnerResult} {failing : Set String} {tr : List Event}
  {leaf leaf' : KvTree.Leaf String RunnerResult} {cursor : WithBot String}
  {keysToDrop : List String} {hand : Option String} {key : String}
  {e : Event}

theorem taken_append {k : String} :
    Taken (tr ++ [e]) k ↔ Taken tr k ∨ e = .step (.take k) := by
  simp [Taken, eq_comm]

theorem removed_append {k : String} :
    Removed (tr ++ [e]) k ↔ Removed tr k ∨ e = .step (.drop k) := by
  simp [Removed, eq_comm]

namespace Reading

theorem append (h : Reading entries failing tr leaf cursor keysToDrop hand)
    (ht : ∀ k, e ≠ .step (.take k)) (hd : ∀ k, e ≠ .step (.drop k)) :
    Reading entries failing (tr ++ [e]) leaf cursor keysToDrop hand where
  covers := h.covers
  taken := by
    intro k
    rw [taken_append, or_iff_left (ht k)]
    exact h.taken k
  held := by
    intro k
    rw [taken_append, or_iff_left (ht k)]
    exact h.held k
  good := h.good
  kept := by
    intro k
    rw [removed_append, or_iff_left (hd k)]
    exact h.kept k

theorem take (h : Reading entries failing tr leaf cursor keysToDrop none)
    (hnext : leaf.next cursor = (key : WithTop String)) :
    Reading entries failing (tr ++ [.step (.take key)]) leaf key keysToDrop (some key) where
  covers := h.covers.yield hnext
  taken := by
    obtain ⟨hmem, hlt, hleast⟩ := KvTree.of_nextIn_eq (h.covers.next_eq hnext)
    intro k
    rw [taken_append, h.taken]
    constructor
    · rintro (⟨hk, hc⟩ | hk)
      · exact ⟨hk, (hc.trans_lt hlt).le⟩
      · cases hk
        exact ⟨Finmap.mem_keys.mp hmem, le_rfl⟩
    · rintro ⟨hk, hle⟩
      by_cases hc : (k : WithBot String) ≤ cursor
      · exact Or.inl ⟨hk, hc⟩
      · have hkey := hleast k (Finmap.mem_keys.mpr hk) (not_le.mp hc)
        have heq : k = key := le_antisymm (WithBot.coe_le_coe.mp hle) hkey
        exact Or.inr (by rw [heq])
  held := by
    intro k
    rw [taken_append, h.held]
    simp
  good := h.good
  kept := by
    intro k
    rw [removed_append, or_iff_left (by simp)]
    exact h.kept k

theorem read (h : Reading entries failing tr leaf cursor keysToDrop hand) {found : Bool}
    (hreads : leaf.Reads entries cursor leaf' found) :
    Reading entries failing tr leaf' cursor keysToDrop hand :=
  { h with covers := h.covers.read hreads fun _ _ _ => Finmap.mem_keys.symm }

theorem sent (h : Reading entries failing tr leaf cursor keysToDrop (some key))
    (hgood : Good failing key) :
    Reading entries failing tr leaf cursor (keysToDrop ++ [key]) none where
  covers := h.covers
  taken := h.taken
  held := by
    intro k
    rw [h.held]
    simp [eq_comm]
  good := by
    intro k hk
    rcases List.mem_append.mp hk with hk | hk
    · exact h.good k hk
    · rw [List.mem_singleton.mp hk]
      exact hgood
  kept := h.kept

theorem ends (h : Reading entries failing tr leaf cursor keysToDrop none)
    (hend : leaf.Ends entries cursor) : Dropping entries failing tr keysToDrop := by
  have htaken : ∀ k, Taken tr k ↔ k ∈ entries := by
    intro k
    rw [h.taken, and_iff_left_iff_imp]
    intro hk
    have htop := h.covers.next_top hend fun _ _ => Finmap.mem_keys.symm
    exact not_lt.mp (KvTree.nextIn_eq_top.mp htop k (Finmap.mem_keys.mpr hk))
  have hdrop : ∀ k, k ∈ keysToDrop ↔ k ∈ entries := by
    intro k
    rw [← htaken, h.held]
    simp
  exact ⟨htaken, fun k hk => h.good k ((hdrop k).mpr hk),
    fun k => (or_iff_right (h.kept k)).trans (hdrop k)⟩

end Reading

theorem Dropping.append {rest : List String} (h : Dropping entries failing tr rest)
    (ht : ∀ k, e ≠ .step (.take k)) (hd : ∀ k, e ≠ .step (.drop k)) :
    Dropping entries failing (tr ++ [e]) rest where
  taken := by
    intro k
    rw [taken_append, or_iff_left (ht k)]
    exact h.taken k
  good := h.good
  removed := by
    intro k
    rw [removed_append, or_iff_left (hd k)]
    exact h.removed k

theorem Dropping.drop {rest : List String} (h : Dropping entries failing tr (key :: rest)) :
    Dropping entries failing (tr ++ [.step (.drop key)]) rest where
  taken := by
    intro k
    rw [taken_append, or_iff_left (by simp)]
    exact h.taken k
  good := h.good
  removed := by
    intro k
    rw [← h.removed k, removed_append, List.mem_cons, or_assoc]
    simp [eq_comm]

/-- A step of the pass, by the position it leaves. -/
theorem stage_step {token : Option String} {lastPatch : SeriesId → Option PatchId}
    {s : Dispatch.State} (h : Stage entries failing tr s)
    (he : (machine token lastPatch failing).Enabled s e) :
    Stage entries failing (tr ++ [e]) (next s e) := by
  obtain ⟨db, checks, pc, leaf⟩ := s
  cases e with
  | error =>
    obtain ⟨key, hhand, hbad⟩ := he
    have hnot : ¬ Good failing key := by
      rintro ⟨hok, hparse⟩
      rcases hbad with hnone | ⟨_, hfails⟩
      · simp [hnone] at hparse
      · exact hok hfails
    have hreading : ∃ keysToDrop, db.needsDispatch = entries ∧
        Reading entries failing tr leaf key keysToDrop (some key) := by
      cases pc with
      | sending k value l =>
        obtain rfl := Option.some.inj hhand
        exact ⟨l, h⟩
      | checking k id patch result l | posting k id patch result l =>
        obtain rfl := Option.some.inj hhand
        exact ⟨l, h.1, h.2.1⟩
      | off | iterate | dropping | waiting | aborted => cases hhand
    obtain ⟨l, hdb, hreading⟩ := hreading
    exact ⟨key, l, hdb, hreading.append (by simp) (by simp), hnot⟩
  | step e =>
    obtain ⟨hen, hagrees⟩ := he
    cases e with
    | read leaf' found =>
      obtain ⟨cursor, l, rfl, hreads⟩ := hen
      obtain ⟨rfl, hreading⟩ := h
      exact ⟨rfl, (hreading.read hreads).append (by simp) (by simp)⟩
    | take key =>
      obtain ⟨cursor, l, rfl, hnext⟩ := hen
      obtain ⟨rfl, hreading⟩ := h
      obtain ⟨value, hv⟩ := Finmap.mem_iff.mp (KvTree.mem_of_first hnext)
      simp only [next, Dispatch.next, Dispatch.nextPc, hv]
      exact ⟨rfl, hreading.take hnext⟩
    | noToken =>
      obtain ⟨_, key, value, l, rfl, hparse⟩ := hen
      exact ⟨h.1, (h.2.sent ⟨hagrees key rfl, hparse⟩).append (by simp) (by simp)⟩
    | getSeries patch =>
      obtain ⟨_, key, value, l, handle, id, name, rfl, hparse, _⟩ := hen
      simp only [next, Dispatch.next, Dispatch.nextPc, hparse]
      exact ⟨h.1, h.2.append (by simp) (by simp), by simp [hparse]⟩
    | duplicate =>
      obtain ⟨key, id, patch, result, l, rfl, _⟩ := hen
      exact ⟨h.1, (h.2.1.sent ⟨hagrees key rfl, h.2.2⟩).append (by simp) (by simp)⟩
    | unique =>
      obtain ⟨key, id, patch, result, l, rfl, _⟩ := hen
      exact ⟨h.1, h.2.1.append (by simp) (by simp), h.2.2⟩
    | post id patch check =>
      obtain ⟨key, result, l, rfl, _⟩ := hen
      exact ⟨h.1, (h.2.1.sent ⟨hagrees key rfl, h.2.2⟩).append (by simp) (by simp)⟩
    | postBreaks id patch check =>
      obtain ⟨key, result, l, rfl, _⟩ := hen
      exact ⟨key, l, h.1, h.2.1.append (by simp) (by simp), fun hg => hg.1 (hagrees key rfl)⟩
    | ends =>
      obtain ⟨cursor, l, rfl, hend⟩ := hen
      obtain ⟨rfl, hreading⟩ := h
      exact (hreading.ends hend).append (by simp) (by simp)
    | drop key =>
      obtain ⟨rest, rfl⟩ := hen
      exact Dropping.drop h
    | dropped =>
      obtain rfl : pc = .dropping [] := hen
      exact Dropping.append h (by simp) (by simp)
    | wait e => exact hagrees.elim

end Steps

section Results

variable {token : Option String} {lastPatch : SeriesId → Option PatchId} {failing : Set String}
  {db : Db} {checks : PatchId → List Check} {tr : List Event} {s : Dispatch.State}

theorem execution_stage (hx : (machine token lastPatch failing).Execution (start db checks) tr s) :
    Stage db.needsDispatch failing tr s := by
  refine hx.history (I := fun tr s => Stage db.needsDispatch failing tr s) ⟨rfl, ?_⟩
    fun _ _ _ _ h he => stage_step h he
  refine ⟨KvTree.Leaf.covers_start _, ?_, ?_, ?_, ?_⟩ <;> simp [Taken, Removed]

/-- A pass sends every entry and removes what it has sent if and only if no entry is bad or
every one fails. -/
theorem unblocked_iff (hx : (machine token lastPatch failing).Execution (start db checks) tr s)
    (hover : Over s) : Unblocked db.needsDispatch failing tr ↔
      (∀ key ∈ db.needsDispatch, Good failing key) ∨ ∀ key ∈ db.needsDispatch, key ∈ failing := by
  have h := execution_stage hx
  obtain ⟨db', checks', pc, leaf⟩ := s
  rcases hover with rfl | rfl
  · have h : Dropping db.needsDispatch failing tr [] := h
    refine iff_of_true ⟨?_, ?_⟩ (Or.inl h.good)
    · intro key hkey _
      exact ⟨(h.taken key).mpr hkey, (h.good key hkey).2⟩
    · intro key
      have hremoved := h.removed key
      rw [or_iff_left List.not_mem_nil] at hremoved
      rw [hremoved]
      constructor
      · intro hkey
        exact ⟨⟨(h.taken key).mpr hkey, (h.good key hkey).2⟩, (h.good key hkey).1⟩
      · rintro ⟨⟨ht, _⟩, _⟩
        exact (h.taken key).mp ht
  · obtain ⟨bad, l, _, hreading, hbad⟩ := h
    have hmem : bad ∈ db.needsDispatch :=
      ((hreading.taken bad).mp ((hreading.held bad).mpr (Or.inr rfl))).1
    rw [or_iff_right fun hall => hbad (hall bad hmem)]
    constructor
    · intro hu key hkey
      by_contra hok
      have hcalled := hu.called key hkey hok
      exact hreading.kept key ((hu.removed key).mpr ⟨hcalled, hok⟩)
    · intro hall
      refine ⟨fun key hkey hok => absurd (hall key hkey) hok, fun key => ?_⟩
      refine iff_of_false (hreading.kept key) ?_
      rintro ⟨⟨ht, _⟩, hok⟩
      exact hok (hall key ((hreading.taken key).mp ht).1)

end Results

section Samples

def lint : RunnerResult := ⟨"lint", .completed, .success, none, none⟩

def twoResults : Db :=
  { Db.empty with
    needsDispatch := Finmap.insert "github 300 lint" lint
      (Finmap.singleton "github 301 lint" lint) }

def sentTrace : List Event :=
  [.step (.read (.whole twoResults.needsDispatch) true), .step (.take "github 300 lint"),
    .step (.getSeries 7), .step .unique,
    .step (.post ⟨300⟩ 7 ⟨.success, none, "github-lint", none⟩), .step (.take "github 301 lint"),
    .step (.getSeries 7), .step .duplicate, .step .ends, .step (.drop "github 300 lint"),
    .step (.drop "github 301 lint"), .step .dropped]

theorem sentTrace_runs : (machine (some "token") (fun _ => some 7) ∅).Runs
    (start twoResults fun _ => []) sentTrace := by
  have hok : ∀ (pc : Dispatch.Pc) (key : String), inHand pc = some key →
      key ∉ (∅ : Set String) := fun _ _ _ => Set.notMem_empty _
  have hfirst : parseEntry "github 300 lint" = some ("github", ⟨300⟩, "lint") := rfl
  have hsecond : parseEntry "github 301 lint" = some ("github", ⟨301⟩, "lint") := rfl
  refine ⟨⟨⟨_, _, rfl, KvTree.Leaf.reads_whole ?_⟩, trivial⟩, ⟨⟨_, _, rfl, ?_⟩, trivial⟩,
    ⟨⟨rfl, _, _, _, _, _, _, rfl, hfirst, rfl⟩, trivial⟩,
    ⟨⟨_, _, _, _, _, rfl, ?_⟩, trivial⟩, ⟨⟨_, _, _, rfl, rfl⟩, hok _⟩, ⟨⟨_, _, rfl, ?_⟩, trivial⟩,
    ⟨⟨rfl, _, _, _, _, _, _, rfl, hsecond, rfl⟩, trivial⟩, ⟨⟨_, _, _, _, _, rfl, ?_⟩, hok _⟩,
    ⟨⟨_, _, rfl, ?_⟩, trivial⟩, ⟨⟨_, rfl⟩, trivial⟩, ⟨⟨_, rfl⟩, trivial⟩, ⟨rfl, trivial⟩, trivial⟩
  · decide
  · decide
  · rintro ⟨check, hcheck, _⟩
    cases hcheck
  · decide
  · exact ⟨_, List.mem_singleton_self _, rfl⟩
  · decide

theorem unblocked_iff_sample : Unblocked twoResults.needsDispatch ∅ sentTrace := by
  refine (unblocked_iff sentTrace_runs.execution (Or.inl rfl)).mpr (Or.inl ?_)
  intro key hkey
  have hkeys : key = "github 300 lint" ∨ key = "github 301 lint" := by
    simpa [twoResults, Finmap.mem_insert] using hkey
  rcases hkeys with rfl | rfl
  · exact ⟨Set.notMem_empty _, rfl⟩
  · exact ⟨Set.notMem_empty _, rfl⟩

/-- The series of the first entry has gone from Patchwork; the second result is never sent. -/
theorem entry_blocked : ∃ tr s,
    (machine (some "token") (fun _ => some 7) {"github 300 lint"}).Execution
      (start twoResults fun _ => []) tr s ∧ Over s ∧
    ∃ key ∈ twoResults.needsDispatch, key ∉ ({"github 300 lint"} : Set String) ∧
      ¬ Called tr key := by
  have hruns : (machine (some "token") (fun _ => some 7) {"github 300 lint"}).Runs
      (start twoResults fun _ => []) [.step (.read (.whole twoResults.needsDispatch) true),
        .step (.take "github 300 lint"), .error] := by
    refine ⟨⟨⟨_, _, rfl, KvTree.Leaf.reads_whole ?_⟩, trivial⟩, ⟨⟨_, _, rfl, ?_⟩, trivial⟩,
      ⟨"github 300 lint", rfl, Or.inr ⟨rfl, ?_⟩⟩, trivial⟩
    · decide
    · decide
    · exact Set.mem_singleton _
  refine ⟨_, _, hruns.execution, Or.inr rfl, "github 301 lint", by decide, by simp, ?_⟩
  rintro ⟨htaken, _⟩
  simp [Taken] at htaken

end Samples

end Snowpatch.Passes
