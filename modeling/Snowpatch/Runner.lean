import Snowpatch.Database

/-! The runner stage: one watcher loop per runner and the tasks that poll for completion.
What a runner answers is left open: `start_work` succeeds at some time, `get_progress`
returns any list of results. An error of either ends the process. -/
namespace Snowpatch

/-- Every GitHub runner has the same handle, whatever its remote and repository. -/
def RunnerConfig.getHandle (_ : RunnerConfig) : String := "github"

def RunnerConfig.remote? (r : RunnerConfig) : Option String :=
  match r.trigger with
  | .onPush remote => some remote
  | .manual _ => none

/-- The two filters on a job's state. -/
def RunnerResult.isFinished (r : RunnerResult) : Bool :=
  r.state != .waiting && r.state != .running

/-- `format!("{} {} {}", handle, local_branch_name, j.name)` -/
def dispatchKey (handle branch name : String) : String :=
  handle ++ " " ++ branch ++ " " ++ name

/-! `new_job_watcher` of one runner. -/
namespace Watcher

inductive Pc where
  | off
  | iterate (cursor : WithBot String)
  | starting (branch : String)
  | moving (branch : String)
  | spawning (branch : String)
  | waiting (w : Waiting)

def Pc.notify : Pc → Pc
  | .waiting w => .waiting w.notify
  | pc => pc

def Pc.cursor : Pc → WithBot String
  | .iterate cursor => cursor
  | .starting branch | .moving branch | .spawning branch => branch
  | .off | .waiting _ => ⊥

@[simp] theorem Pc.cursor_notify (pc : Pc) : pc.notify.cursor = pc.cursor := by
  cases pc <;> rfl

inductive Event where
  | read (leaf : KvTree.Leaf String String) (found : Bool)
  | take (branch : String)
  | ends
  | startWork (branch : String)
  | move (branch : String)
  | spawn (branch : String)
  | wait (e : WaitEvent)

structure State where
  db : Db
  pc : Pc
  leaf : KvTree.Leaf String String

variable (handle : String)

def Enabled (s : State) : Event → Prop
  | .read leaf found => ∃ cursor, s.pc = .iterate cursor ∧
      s.leaf.Reads (s.db.branches (.queue handle)) cursor leaf found
  | .take branch => ∃ cursor, s.pc = .iterate cursor ∧
      s.leaf.next cursor = (branch : WithTop String)
  | .ends => ∃ cursor, s.pc = .iterate cursor ∧
      s.leaf.Ends (s.db.branches (.queue handle)) cursor
  | .startWork branch => s.pc = .starting branch
  | .move branch => s.pc = .moving branch ∧ branch ∈ s.db.branches (.queue handle)
  | .spawn branch => s.pc = .spawning branch
  | .wait e => ∃ w, s.pc = .waiting w ∧
      w.Enabled (KvTree.IsEmpty (s.db.branches (.queue handle))) e

def nextPc (pc : Pc) : Event → Pc
  | .read _ _ => pc
  | .take branch => .starting branch
  | .ends => .waiting .register
  | .startWork branch => .moving branch
  | .move branch => .spawning branch
  | .spawn branch => .iterate branch
  | .wait e => match pc with
    | .waiting w => ((w.next e).map Pc.waiting).getD (.iterate ⊥)
    | pc => pc

def nextDb (db : Db) : Event → Db
  | .move branch => (db.moveBranch (.queue handle) (.working handle) branch).getD db
  | _ => db

def nextLeaf (leaf : KvTree.Leaf String String) : Event → KvTree.Leaf String String
  | .read leaf _ => leaf
  | .ends | .wait _ => .start
  | _ => leaf

end Watcher

/-! `wait_for_completion` of one branch against the repository of one runner. -/
namespace Completion

inductive Pc where
  | polling
  | reporting (jobs todo : List RunnerResult)
  | removing
  deriving DecidableEq, Repr

structure Task where
  runner : ℕ
  branch : String
  completed : List String
  pc : Pc
  deriving DecidableEq, Repr

inductive Event where
  | progress (jobs : List RunnerResult)
  | report (job : RunnerResult)
  | again
  | settle
  | remove
  deriving DecidableEq, Repr

def finished (jobs : List RunnerResult) : List RunnerResult := jobs.filter RunnerResult.isFinished

def Enabled (t : Task) : Event → Prop
  | .progress _ => t.pc = .polling
  | .report job => ∃ jobs rest, t.pc = .reporting jobs (job :: rest)
  | .again => ∃ jobs, t.pc = .reporting jobs [] ∧ jobs.length ≠ (finished jobs).length
  | .settle => ∃ jobs, t.pc = .reporting jobs [] ∧ jobs.length = (finished jobs).length
  | .remove => t.pc = .removing

/-- The task after an event, or none once it has returned. -/
def next (t : Task) : Event → Option Task
  | .progress jobs => some { t with pc := .reporting jobs (finished jobs) }
  | .report job => match t.pc with
    | .reporting jobs (_ :: rest) =>
      if job.name ∈ t.completed then some { t with pc := .reporting jobs rest }
      else some { t with completed := t.completed ++ [job.name], pc := .reporting jobs rest }
    | _ => some t
  | .again => some { t with pc := .polling }
  | .settle => some { t with pc := .removing }
  | .remove => none

variable (handle : String)

def nextDb (db : Db) (t : Task) : Event → Db
  | .report job =>
    if job.name ∈ t.completed then db
    else
      { db with
        needsDispatch :=
          Finmap.insert (dispatchKey handle t.branch job.name) job db.needsDispatch }
  | .remove => db.removeBranch (.working handle) t.branch
  | _ => db

theorem nextDb_eq (db : Db) (t : Task) (e : Event) : ∃ branches entries,
    nextDb handle db t e = { db with branches := branches, needsDispatch := entries } := by
  cases e with
  | report job =>
    by_cases hj : job.name ∈ t.completed
    · exact ⟨db.branches, db.needsDispatch, by simp [nextDb, hj]⟩
    · exact ⟨db.branches, _, by simp [nextDb, hj]; rfl⟩
  | remove => exact ⟨_, _, rfl⟩
  | progress | again | settle => exact ⟨_, _, rfl⟩

theorem next_same {t t' : Task} {e : Event} (h : next t e = some t') :
    t'.runner = t.runner ∧ t'.branch = t.branch := by
  cases e with
  | progress | again | settle =>
    obtain rfl := Option.some.inj h
    exact ⟨rfl, rfl⟩
  | report job =>
    simp only [next] at h
    split at h
    · split at h <;>
        · obtain rfl := Option.some.inj h
          exact ⟨rfl, rfl⟩
    · obtain rfl := Option.some.inj h
      exact ⟨rfl, rfl⟩
  | remove => cases h

theorem eq_remove_of_next {t : Task} {e : Event} (h : next t e = none) : e = .remove := by
  cases e with
  | remove => rfl
  | progress | again | settle => cases h
  | report job =>
    simp only [next] at h
    split at h
    · split at h <;> cases h
    · cases h

end Completion

end Snowpatch
