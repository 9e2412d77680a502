import Snowpatch.Library.Transaction
import Snowpatch.Watchers

/-! One call of `move_to_new_queue`: the transaction as sled runs it, between any other work
on the two trees. The family of trees and the types of keys and values are arbitrary; the
steps of the program that move an entry are the attempts that return Ok. -/
namespace Snowpatch.MoveToNewQueue

open Transaction

variable {ι κ ν ε : Type} [DecidableEq ι] [DecidableEq κ]

/-- The errors that the storage has in one attempt, for each operation on the view. -/
structure Io (ε : Type) where
  remove : Option ε
  insert : Option ε

def Io.fine : Io ε := ⟨none, none⟩

abbrev Trees (ι κ ν : Type) := ι → KvTree κ ν

def remove (error : Option ε) (tree : ι) (key : κ) : Closure (Trees ι κ ν) Unit ε (Option ν) :=
  fun trees => match error with
    | some e => .error (.storage e)
    | none => .ok (Finmap.lookup key (trees tree),
        Function.update trees tree (Finmap.erase key (trees tree)))

def insert (error : Option ε) (tree : ι) (key : κ) (value : ν) :
    Closure (Trees ι κ ν) Unit ε Unit :=
  fun trees => match error with
    | some e => .error (.storage e)
    | none => .ok ((), Function.update trees tree (Finmap.insert key value (trees tree)))

/-- `ok_or_else`: the message goes to the log, and the closure returns `Conflict`. -/
def okOrConflict (value : Option ν) : Closure (Trees ι κ ν) Unit ε ν :=
  match value with
  | some value => pure value
  | none => throw .conflict

def moveToNewQueue (io : Io ε) (old new : ι) (key : κ) : Closure (Trees ι κ ν) Unit ε Unit := do
  let value ← remove io.remove old key
  let value ← okOrConflict value
  insert io.insert new key value

/-- Others may do anything but touch the key in the two trees. -/
def Spares (old new : ι) (key : κ) (trees trees' : Trees ι κ ν) : Prop :=
  Finmap.lookup key (trees' old) = Finmap.lookup key (trees old) ∧
    Finmap.lookup key (trees' new) = Finmap.lookup key (trees new)

def call (io : ℕ → Io ε) (old new : ι) (key : κ) :
    Machine (Call (Trees ι κ ν) Unit ε Unit) (Transaction.Event (Trees ι κ ν)) :=
  Transaction.machine (fun n => moveToNewQueue (io n) old new key) (Spares old new key)

section Closure

variable {io : Io ε} {old new : ι} {key : κ} {trees : Trees ι κ ν} {value : ν}

theorem remove_ok (tree : ι) (h : Finmap.lookup key (trees tree) = some value) :
    (remove none tree key : Closure (Trees ι κ ν) Unit ε (Option ν)) trees =
      .ok (some value, Function.update trees tree (Finmap.erase key (trees tree))) := by
  rw [remove, h]

theorem moveToNewQueue_ok (hne : old ≠ new) (hremove : io.remove = none)
    (hinsert : io.insert = none) (h : Finmap.lookup key (trees old) = some value) :
    moveToNewQueue io old new key trees = .ok ((), KvTree.moved trees old new key value) := by
  have hnew : Function.update trees old (Finmap.erase key (trees old)) new = trees new :=
    Function.update_of_ne (Ne.symm hne) _ _
  rw [moveToNewQueue, hremove, hinsert, bind_ok (remove_ok old h), bind_ok rfl, insert, hnew,
    KvTree.moved]

theorem moveToNewQueue_conflict (hremove : io.remove = none)
    (h : Finmap.lookup key (trees old) = none) :
    moveToNewQueue io old new key trees = .error .conflict := by
  have habsent : (remove none old key : Closure (Trees ι κ ν) Unit ε (Option ν)) trees =
      .ok (none, Function.update trees old (Finmap.erase key (trees old))) := by
    rw [remove, h]
  rw [moveToNewQueue, hremove, bind_ok habsent]
  exact bind_error rfl

theorem moveToNewQueue_storage {e : ε} (hremove : io.remove = some e) :
    moveToNewQueue io old new key trees = .error (.storage e) := by
  rw [moveToNewQueue, hremove]
  exact bind_error rfl

theorem storage_of_present (h : Finmap.lookup key (trees old) = some value)
    (hio : io.remove ≠ none ∨ io.insert ≠ none) :
    ∃ e, moveToNewQueue io old new key trees = .error (.storage e) := by
  cases hremove : io.remove with
  | some e => exact ⟨e, moveToNewQueue_storage hremove⟩
  | none =>
    obtain ⟨e, hinsert⟩ := Option.ne_none_iff_exists'.mp (hio.resolve_left fun hx => hx hremove)
    refine ⟨e, ?_⟩
    rw [moveToNewQueue, hremove, hinsert, bind_ok (remove_ok old h), bind_ok rfl, insert]

theorem attempt_eq_moveBetween (hne : old ≠ new) (c : Call (Trees ι κ ν) Unit ε Unit) :
    (call (fun _ => Io.fine) old new key).next c .attempt =
      ⟨(KvTree.moveBetween c.state old new key).getD c.state, c.attempts + 1,
        (KvTree.moveBetween c.state old new key).map fun _ => .ok ()⟩ := by
  cases h : Finmap.lookup key (c.state old) with
  | none =>
    have hnone : KvTree.moveBetween c.state old new key = none := by
      simp [KvTree.moveBetween, KvTree.move, h]
    have hrun : moveToNewQueue (Io.fine : Io ε) old new key c.state = .error .conflict :=
      moveToNewQueue_conflict rfl h
    simp [call, Transaction.machine, hrun, commit, answer, hnone]
  | some value =>
    have hrun : moveToNewQueue (Io.fine : Io ε) old new key c.state = _ :=
      moveToNewQueue_ok hne rfl rfl h
    simp [call, Transaction.machine, hrun, commit, answer, KvTree.moveBetween_of_lookup h]

end Closure

section Property

variable (io : ℕ → Io ε) (old new : ι) (key : κ) (trees : Trees ι κ ν)

/-- The call returns Ok, the entry has changed trees with its value, and no attempt has
touched another key. -/
structure Moves (value : ν) : Prop where
  returns : ∀ tr c, (call io old new key).Execution (.start trees) tr c → 0 < c.attempts →
    c.returned = some (.ok ())
  moved : ∀ tr c, (call io old new key).Execution (.start trees) tr c → 0 < c.attempts →
    Finmap.lookup key (c.state old) = none ∧ Finmap.lookup key (c.state new) = some value
  others : ∀ tr c, (call io old new key).Execution (.start trees) tr c → c.returned = none →
    ∀ t a, ¬ (a = key ∧ (t = old ∨ t = new)) →
      Finmap.lookup a (((call io old new key).next c .attempt).state t) =
        Finmap.lookup a (c.state t)

/-- The call returns Err after finitely many attempts, none of which has changed a tree. -/
structure Refuses : Prop where
  finite : ∃ n, ∀ tr c, (call io old new key).Execution (.start trees) tr c →
    c.returned = none → c.attempts < n
  returns : ∀ tr c r, (call io old new key).Execution (.start trees) tr c →
    c.returned = some r → ∃ e, r = .error e
  unchanged : ∀ tr c, (call io old new key).Execution (.start trees) tr c →
    c.returned = none → ((call io old new key).next c .attempt).state = c.state

/-- A total atomic move, whatever others do to other keys meanwhile. -/
structure TotalMove : Prop where
  present : ∀ value, Finmap.lookup key (trees old) = some value → Moves io old new key trees value
  absent : Finmap.lookup key (trees old) = none → Refuses io old new key trees

/-- The key is there and the first attempt meets no storage error, or it is not there and
some attempt meets one when it looks. -/
def Settled : Prop :=
  if key ∈ trees old then (io 0).remove = none ∧ (io 0).insert = none
  else ∃ n, (io n).remove ≠ none

end Property

section Results

variable {io : ℕ → Io ε} {old new : ι} {key : κ} {trees : Trees ι κ ν} {value : ν}
  {tr : List (Transaction.Event (Trees ι κ ν))} {c : Call (Trees ι κ ν) Unit ε Unit}

theorem execution_present (hne : old ≠ new) (hremove : (io 0).remove = none)
    (hinsert : (io 0).insert = none) (h : Finmap.lookup key (trees old) = some value)
    (hx : (call io old new key).Execution (.start trees) tr c) :
    (c.attempts = 0 ∧ c.returned = none ∧ Finmap.lookup key (c.state old) = some value) ∨
      ∃ r, c.attempts = 1 ∧ c.returned = some (.ok r) ∧
        Finmap.lookup key (c.state old) = none ∧ Finmap.lookup key (c.state new) = some value := by
  refine execution_ok (P := fun f => Finmap.lookup key (f old) = some value)
    (Q := fun f => Finmap.lookup key (f old) = none ∧ Finmap.lookup key (f new) = some value)
    hx h ?_ ?_ ?_
  · intro f g hf hspares
    exact hspares.1.trans hf
  · intro f g hf hspares
    exact ⟨hspares.1.trans hf.1, hspares.2.trans hf.2⟩
  · intro f hf
    refine ⟨(), _, moveToNewQueue_ok hne hremove hinsert hf, ?_, ?_⟩
    · simp [KvTree.lookup_moved hne, hne]
    · simp [KvTree.lookup_moved hne]

theorem moves_of_present (hne : old ≠ new) (hremove : (io 0).remove = none)
    (hinsert : (io 0).insert = none) (h : Finmap.lookup key (trees old) = some value) :
    Moves io old new key trees value where
  returns := by
    intro tr c hx hpos
    rcases execution_present hne hremove hinsert h hx with ⟨hzero, _⟩ | ⟨⟨⟩, _, hr, _⟩
    · omega
    · exact hr
  moved := by
    intro tr c hx hpos
    rcases execution_present hne hremove hinsert h hx with ⟨hzero, _⟩ | ⟨r, _, _, hmoved⟩
    · omega
    · exact hmoved
  others := by
    intro tr c hx hr t a hother
    rcases execution_present hne hremove hinsert h hx with ⟨hzero, _, hkey⟩ | ⟨r, _, hr', _⟩
    · have hrun := moveToNewQueue_ok hne hremove hinsert hkey
      simp only [call, Transaction.machine, hzero, hrun, commit]
      rw [KvTree.lookup_moved hne]
      by_cases ha : a = key
      · have ht : t ≠ old ∧ t ≠ new := not_or.mp fun ht => hother ⟨ha, ht⟩
        simp [ht]
      · simp [ha]
    · cases hr.symm.trans hr'

theorem error_of_absent (n : ℕ) {f : Trees ι κ ν} (h : Finmap.lookup key (f old) = none) :
    ∃ e, moveToNewQueue (io n) old new key f = .error e := by
  cases hremove : (io n).remove with
  | none => exact ⟨_, moveToNewQueue_conflict hremove h⟩
  | some e => exact ⟨_, moveToNewQueue_storage hremove⟩

theorem execution_absent (h : Finmap.lookup key (trees old) = none) {last : ℕ}
    (hlast : (io last).remove ≠ none)
    (hx : (call io old new key).Execution (.start trees) tr c) :
    Finmap.lookup key (c.state old) = none ∧ (c.returned = none → c.attempts ≤ last) ∧
      ∀ r, c.returned = some r → ∃ e, r = .error e := by
  refine execution_error (P := fun f => Finmap.lookup key (f old) = none) hx h ?_ ?_ ?_
  · intro f g hf hspares
    exact hspares.1.trans hf
  · intro n f hf
    exact error_of_absent n hf
  · intro f _ hconflict
    obtain ⟨e, he⟩ := Option.ne_none_iff_exists'.mp hlast
    cases hconflict.symm.trans (moveToNewQueue_storage he)

theorem refuses_of_storage (h : Finmap.lookup key (trees old) = none) {n : ℕ}
    (hn : (io n).remove ≠ none) : Refuses io old new key trees where
  finite := ⟨n + 1, fun tr c hx hr => Nat.lt_succ_of_le ((execution_absent h hn hx).2.1 hr)⟩
  returns := fun tr c r hx hr => (execution_absent h hn hx).2.2 r hr
  unchanged := by
    intro tr c hx _
    have hfails : ∃ e, moveToNewQueue (io c.attempts) old new key c.state = .error e :=
      error_of_absent c.attempts (execution_absent h hn hx).1
    obtain ⟨e, he⟩ := hfails
    simp [call, Transaction.machine, he, commit]

theorem not_refuses (h : Finmap.lookup key (trees old) = none) (hn : ∀ n, (io n).remove = none) :
    ¬ Refuses io old new key trees := by
  rintro ⟨⟨n, hfinite⟩, _, _⟩
  have hrepeats : ∃ tr, (call io old new key).Execution (.start trees) tr ⟨trees, n, none⟩ :=
    conflict_repeats (fun n => moveToNewQueue_conflict (hn n) h) n
  obtain ⟨tr, hx⟩ := hrepeats
  exact absurd (hfinite tr _ hx rfl) (lt_irrefl n)

theorem total_move_iff (hne : old ≠ new) :
    TotalMove io old new key trees ↔ Settled io old key trees := by
  unfold Settled
  split
  · next hmem =>
    obtain ⟨value, h⟩ := Finmap.mem_iff.mp hmem
    constructor
    · intro htotal
      by_contra hio
      have hfails : ∃ e, moveToNewQueue (io 0) old new key trees = .error (.storage e) :=
        storage_of_present h (not_and_or.mp hio)
      obtain ⟨e, he⟩ := hfails
      have hx : (call io old new key).Execution (.start trees) [.attempt] _ :=
        Machine.Execution.single (e := Transaction.Event.attempt) rfl
      have hreturns := (htotal.present value h).returns _ _ hx (Nat.succ_pos 0)
      simp [call, Transaction.machine, Call.start, he, answer] at hreturns
    · rintro ⟨hremove, hinsert⟩
      refine ⟨fun v hv => moves_of_present hne hremove hinsert hv, fun hnone => ?_⟩
      cases h.symm.trans hnone
  · next hmem =>
    have h : Finmap.lookup key (trees old) = none := Finmap.lookup_eq_none.mpr hmem
    constructor
    · intro htotal
      by_contra hio
      exact not_refuses h (by simpa using hio) (htotal.absent h)
    · rintro ⟨n, hn⟩
      refine ⟨fun v hv => ?_, fun _ => refuses_of_storage h hn⟩
      cases h.symm.trans hv

end Results

section Samples

/-- A new series is moved out of "needs testing". -/
theorem total_move_iff_sample : TotalMove (fun _ => (Io.fine : Io String)) SeriesTree.needsTesting
    .awaitingGitWorker Sample.id
    (Db.empty.insertSeries .needsTesting Sample.id Sample.listed.series.mbox).series := by
  refine (total_move_iff (by decide)).mpr ?_
  rw [Settled, if_pos (Db.mem_insertSeries.mpr (Or.inl ⟨rfl, rfl⟩))]
  exact ⟨rfl, rfl⟩

def raceTrace : List Event :=
  Watchers.pairTrace.take 38 ++ [.watcher 0 (.read (.whole Sample.queued) true),
    .watcher 0 (.take "300"), .watcher 1 (.read (.whole Sample.queued) true),
    .watcher 1 (.take "300"), .watcher 0 (.startWork "300"), .watcher 1 (.startWork "300"),
    .watcher 0 (.move "300")]

theorem raceTrace_runs : (Pipeline.machine Sample.env).Runs Sample.state raceTrace := by
  have hpair : (Pipeline.machine Sample.env).Runs Sample.state
      (Watchers.pairTrace.take 38 ++ Watchers.pairTrace.drop 38) := Watchers.pairTrace_runs
  refine Machine.runs_append.mpr ⟨(Machine.runs_append.mp hpair).1,
    ⟨_, rfl, KvTree.Leaf.reads_whole ?_⟩, ⟨_, rfl, ?_⟩,
    ⟨_, rfl, KvTree.Leaf.reads_whole ?_⟩, ⟨_, rfl, ?_⟩, rfl, rfl, ⟨rfl, ?_⟩, trivial⟩
  all_goals decide

/-- The second watcher is left with a call that never returns. -/
theorem move_never_returns : ∃ tr s, (Pipeline.machine Sample.env).Execution Sample.state tr s ∧
    s.proc.watcher 1 = .moving "300" ∧
    ¬ TotalMove (fun _ => (Io.fine : Io String)) (BranchTree.queue gitHubHandle)
      (.working gitHubHandle) "300" s.db.branches := by
  refine ⟨raceTrace, _, raceTrace_runs.execution, rfl, ?_⟩
  intro htotal
  refine not_refuses ?_ (fun _ => rfl) (htotal.absent ?_) <;> decide

end Samples

end Snowpatch.MoveToNewQueue
