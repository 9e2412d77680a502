import Snowpatch.DoWork

/-! The git stage: the ingest loop and the closures it spawns on the git pool.
Each event is one operation on the database or one hand-over; between two events of a task
any other task may run. A task whose move finds no key repeats the transaction for ever. -/
namespace Snowpatch

namespace Ingest

inductive Pc where
  | off
  | initWorktrees
  | iterate (cursor : WithBot SeriesId)
  | moving (id : SeriesId)
  | spawning (id : SeriesId)
  | waiting (w : Waiting)

def Pc.notify : Pc → Pc
  | .waiting w => .waiting w.notify
  | pc => pc

/-- How far the iteration has come. -/
def Pc.cursor : Pc → WithBot SeriesId
  | .iterate cursor => cursor
  | .moving id | .spawning id => id
  | .off | .initWorktrees | .waiting _ => ⊥

@[simp] theorem Pc.cursor_notify (pc : Pc) : pc.notify.cursor = pc.cursor := by
  cases pc <;> rfl

inductive Event where
  | ready
  | read (leaf : KvTree.Leaf SeriesId Url) (found : Bool)
  | take (id : SeriesId)
  | ends
  | move (id : SeriesId)
  | spawn (id : SeriesId)
  | wait (e : WaitEvent)

structure State where
  db : Db
  pc : Pc
  pool : List SeriesId
  leaf : KvTree.Leaf SeriesId Url

def Enabled (s : State) : Event → Prop
  | .ready => s.pc = .initWorktrees
  | .read leaf found => ∃ cursor, s.pc = .iterate cursor ∧
      s.leaf.Reads (s.db.series .needsTesting) cursor leaf found
  | .take id => ∃ cursor, s.pc = .iterate cursor ∧
      s.leaf.next cursor = (id : WithTop SeriesId)
  | .ends => ∃ cursor, s.pc = .iterate cursor ∧ s.leaf.Ends (s.db.series .needsTesting) cursor
  | .move id => s.pc = .moving id ∧ id ∈ s.db.series .needsTesting
  | .spawn id => s.pc = .spawning id
  | .wait e => ∃ w, s.pc = .waiting w ∧
      w.Enabled (KvTree.IsEmpty (s.db.series .needsTesting)) e

def nextPc (pc : Pc) : Event → Pc
  | .ready => .iterate ⊥
  | .read _ _ => pc
  | .take id => .moving id
  | .ends => .waiting .register
  | .move id => .spawning id
  | .spawn id => .iterate id
  | .wait e => match pc with
    | .waiting w => ((w.next e).map Pc.waiting).getD (.iterate ⊥)
    | pc => pc

def next (s : State) (e : Event) : State :=
  { db := match e with
      | .move id => (s.db.moveToNewQueue .needsTesting .awaitingGitWorker id).getD s.db
      | _ => s.db
    pc := nextPc s.pc e
    pool := match e with
      | .spawn id => id :: s.pool
      | _ => s.pool
    leaf := match e with
      | .read leaf _ => leaf
      | .ready | .ends | .wait _ => .start
      | _ => s.leaf }

end Ingest

/-! `try_do_work` for one series on thread `i` of the git pool. -/
namespace Worker

inductive Pc where
  | checking
  | waiting (w : Waiting)
  | movingIn
  | moved
  | working (pc : DoWork.Pc)

/-- Up to the call of `do_work` the series is still in "awaiting git worker" or just left it. -/
def Pc.Started : Pc → Prop
  | .working _ => True
  | _ => False

/-- The entry has been moved into "git worker {i}". -/
def Pc.MovedIn : Pc → Prop
  | .moved | .working _ => True
  | _ => False

inductive Event where
  | busy
  | free
  | wait (e : WaitEvent)
  | moveIn
  | startWork
  | work (e : DoWork.Event)
  | remove
  | moveToFailures

structure State where
  db : Db
  git : GitWorld
  pc : Pc

variable (apply : Mbox → GitTree → Option GitTree) (i : ℕ) (id : SeriesId)

def Enabled (s : State) : Event → Prop
  | .busy => s.pc = .checking ∧ ¬ KvTree.IsEmpty (s.db.series (.gitWorker i))
  | .free => s.pc = .checking ∧ KvTree.IsEmpty (s.db.series (.gitWorker i))
  | .wait e => ∃ w, s.pc = .waiting w ∧
      w.Enabled (KvTree.IsEmpty (s.db.series (.gitWorker i))) e
  | .moveIn => s.pc = .movingIn ∧ id ∈ s.db.series .awaitingGitWorker
  | .startWork => s.pc = .moved
  | .work e => ∃ pc, s.pc = .working pc ∧ DoWork.Enabled apply i id ⟨s.db, s.git, pc⟩ e
  | .remove => s.pc = .working (.returned true)
  | .moveToFailures => s.pc = .working (.returned false) ∧ id ∈ s.db.series (.gitWorker i)

/-- The position after an event, or none once the closure has returned. -/
def nextPc (pc : Pc) : Event → Option Pc
  | .busy => some (.waiting .register)
  | .free => some .movingIn
  | .wait e => match pc with
    | .waiting w => some (((w.next e).map Pc.waiting).getD .checking)
    | pc => some pc
  | .moveIn => some .moved
  | .startWork => some (.working .opening)
  | .work e => match pc with
    | .working pc => some (.working (DoWork.nextPc pc e))
    | pc => some pc
  | .remove | .moveToFailures => none

def nextDb (s : State) : Event → Db
  | .moveIn => (s.db.moveToNewQueue .awaitingGitWorker (.gitWorker i) id).getD s.db
  | .work e => DoWork.nextDb id s.db e
  | .remove => s.db.removeSeries (.gitWorker i) id
  | .moveToFailures => (s.db.moveToNewQueue (.gitWorker i) .gitFailures id).getD s.db
  | _ => s.db

def nextGit (s : State) : Event → GitWorld
  | .work e => match s.pc with
    | .working pc => DoWork.nextGit apply i id ⟨s.db, s.git, pc⟩ e
    | _ => s.git
  | _ => s.git

/-- Outside the series trees a worker writes nothing but what `do_work` queues. -/
theorem nextDb_elsewhere (s : State) {e : Event} (h : ∀ r n, e ≠ .work (.queue r n)) :
    ∃ series, nextDb i id s e = { s.db with series := series } := by
  cases e with
  | busy | free | wait | startWork => exact ⟨s.db.series, rfl⟩
  | moveIn => exact s.db.moveToNewQueue_eq _ _ id
  | moveToFailures => exact s.db.moveToNewQueue_eq _ _ id
  | remove => exact ⟨_, rfl⟩
  | work e =>
    cases e with
    | queue r n => exact absurd rfl (h r n)
    | _ => exact ⟨s.db.series, rfl⟩

end Worker

end Snowpatch
