import Snowpatch.Data

/-! The sled database: one value of `Db` is everything that survives a process stop.
Trees with the same kind of keys form one family, so that a move names its two trees.
Every sled operation is atomic and succeeds; a write is durable once it returns. -/
namespace Snowpatch

/-- The trees a series id passes through on its way to the runners:
"needs testing", "awaiting git worker", "git worker {i}" and "git failures". -/
inductive SeriesTree where
  | needsTesting
  | awaitingGitWorker
  | gitWorker (i : ℕ)
  | gitFailures
  deriving DecidableEq, Repr

/-- The trees of the runners with one handle: "{handle} queue" and "{handle} working". -/
inductive BranchTree where
  | queue (handle : String)
  | working (handle : String)
  deriving DecidableEq, Repr

structure Db where
  seenByWatchcat : KvTree String String
  series : SeriesTree → KvTree SeriesId Url
  remotesToPushTo : KvTree String String
  branches : BranchTree → KvTree String String
  needsDispatch : KvTree String RunnerResult
  sshPrivateKeyPath : Option String
  sshPublicKeyPath : Option String
  patchworkSeriesLinkPrefix : Option String

namespace Db

def empty : Db := ⟨∅, fun _ => ∅, ∅, fun _ => ∅, ∅, none, none, none⟩

def markSeen (db : Db) (id : SeriesId) : Db :=
  { db with seenByWatchcat := Finmap.insert id.toDecimal "hello" db.seenByWatchcat }

def insertSeries (db : Db) (tree : SeriesTree) (id : SeriesId) (mbox : Url) : Db :=
  { db with series :=
    Function.update db.series tree (Finmap.insert id mbox (db.series tree)) }

def removeSeries (db : Db) (tree : SeriesTree) (id : SeriesId) : Db :=
  { db with series := Function.update db.series tree (Finmap.erase id (db.series tree)) }

/-- `move_to_new_queue` between two series trees. The closure returns `Conflict` when the
key is absent, and sled then runs it again: no result means the call has not returned. -/
def moveToNewQueue (db : Db) (old new : SeriesTree) (id : SeriesId) : Option Db :=
  (KvTree.moveBetween db.series old new id).map fun series => { db with series := series }

def insertBranch (db : Db) (tree : BranchTree) (branch value : String) : Db :=
  { db with branches :=
    Function.update db.branches tree (Finmap.insert branch value (db.branches tree)) }

def removeBranch (db : Db) (tree : BranchTree) (branch : String) : Db :=
  { db with branches :=
    Function.update db.branches tree (Finmap.erase branch (db.branches tree)) }

def moveBranch (db : Db) (old new : BranchTree) (branch : String) : Option Db :=
  (KvTree.moveBetween db.branches old new branch).map fun branches =>
    { db with branches := branches }

theorem moveToNewQueue_of_lookup {db : Db} {old new : SeriesTree} {id : SeriesId} {mbox : Url}
    (h : Finmap.lookup id (db.series old) = some mbox) :
    db.moveToNewQueue old new id =
      some { db with series := KvTree.moved db.series old new id mbox } := by
  simp [moveToNewQueue, KvTree.moveBetween_of_lookup h]

theorem moveToNewQueue_eq (db : Db) (old new : SeriesTree) (id : SeriesId) :
    ∃ series, (db.moveToNewQueue old new id).getD db = { db with series := series } := by
  unfold moveToNewQueue
  cases KvTree.moveBetween db.series old new id with
  | none => exact ⟨db.series, rfl⟩
  | some series => exact ⟨series, rfl⟩

theorem series_moveToNewQueue_of_ne {db : Db} {old new t : SeriesTree} {id : SeriesId}
    (hold : t ≠ old) (hnew : t ≠ new) :
    ((db.moveToNewQueue old new id).getD db).series t = db.series t := by
  cases hm : Finmap.lookup id (db.series old) with
  | none => simp [moveToNewQueue, KvTree.moveBetween, KvTree.move, hm]
  | some mbox => simp [moveToNewQueue_of_lookup hm, KvTree.moved, hold, hnew]

theorem seen_moveToNewQueue {db : Db} {old new : SeriesTree} {id : SeriesId} :
    ((db.moveToNewQueue old new id).getD db).seenByWatchcat = db.seenByWatchcat := by
  obtain ⟨series, h⟩ := moveToNewQueue_eq db old new id
  rw [h]

theorem moveBranch_of_lookup {db : Db} {old new : BranchTree} {branch value : String}
    (h : Finmap.lookup branch (db.branches old) = some value) :
    db.moveBranch old new branch =
      some { db with branches := KvTree.moved db.branches old new branch value } := by
  simp [moveBranch, KvTree.moveBetween_of_lookup h]

theorem moveBranch_eq (db : Db) (old new : BranchTree) (branch : String) :
    ∃ branches, (db.moveBranch old new branch).getD db = { db with branches := branches } := by
  unfold moveBranch
  cases KvTree.moveBetween db.branches old new branch with
  | none => exact ⟨db.branches, rfl⟩
  | some branches => exact ⟨branches, rfl⟩

theorem mem_insertSeries {db : Db} {tree t : SeriesTree} {id a : SeriesId} {mbox : Url} :
    a ∈ (db.insertSeries tree id mbox).series t ↔ (a = id ∧ t = tree) ∨ a ∈ db.series t := by
  by_cases ht : t = tree
  · subst ht; simp [insertSeries]
  · simp [insertSeries, ht]

theorem mem_removeSeries {db : Db} {tree t : SeriesTree} {id a : SeriesId} :
    a ∈ (db.removeSeries tree id).series t ↔ a ∈ db.series t ∧ ¬ (a = id ∧ t = tree) := by
  by_cases ht : t = tree
  · subst ht; simp [removeSeries, and_comm]
  · simp [removeSeries, ht]

theorem markSeen_comm (db : Db) (a b : SeriesId) :
    (db.markSeen a).markSeen b = (db.markSeen b).markSeen a := by
  by_cases hab : a = b
  · rw [hab]
  · have hne : b.toDecimal ≠ a.toDecimal := fun h => hab (toDecimal_inj.mp h).symm
    simp only [markSeen, Finmap.insert_insert_of_ne _ hne]

theorem insertSeries_comm (db : Db) (tree : SeriesTree) {a b : SeriesId} (hab : a ≠ b)
    (x y : Url) : (db.insertSeries tree a x).insertSeries tree b y =
      (db.insertSeries tree b y).insertSeries tree a x := by
  simp [insertSeries, Finmap.insert_insert_of_ne _ hab.symm]

theorem mem_insertBranch {db : Db} {tree t : BranchTree} {branch value a : String} :
    a ∈ (db.insertBranch tree branch value).branches t ↔
      (a = branch ∧ t = tree) ∨ a ∈ db.branches t := by
  by_cases ht : t = tree
  · subst ht; simp [insertBranch]
  · simp [insertBranch, ht]

theorem mem_removeBranch {db : Db} {tree t : BranchTree} {branch a : String} :
    a ∈ (db.removeBranch tree branch).branches t ↔
      a ∈ db.branches t ∧ ¬ (a = branch ∧ t = tree) := by
  by_cases ht : t = tree
  · subst ht; simp [removeBranch, and_comm]
  · simp [removeBranch, ht]

/-- Written anew at every start, whatever an earlier start has left. -/
def populate (config : Config) (db : Db) : Db :=
  { db with
    sshPrivateKeyPath := some config.privateKey
    sshPublicKeyPath := some config.publicKey
    patchworkSeriesLinkPrefix :=
      some (config.patchworkUrl.text ++ "/project/" ++ config.name ++ "/list/?series=") }

end Db

end Snowpatch
