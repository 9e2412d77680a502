import Snowpatch.GitStage
import Snowpatch.Library.Serial

/-! The git stage one task after the other. Each task of it writes under its own series, on
its own worktree and to its own remote branch, so whatever way ingest and the git workers
interleave, they might as well have run in turn: ingest first, then thread by thread. -/
namespace Snowpatch.GitSerial

open Pipeline GitStage

inductive Task where
  | ingest
  | thread (i : ℕ)
  deriving DecidableEq, Repr

/-- The task that takes a step of the git stage. -/
def owner : Event → Option Task
  | .ingest _ => some .ingest
  | .begin i _ | .worker i _ _ => some (.thread i)
  | .start _ _ | .stop | .main _ | .scan _ | .watcher _ _ | .wait _ _ | .dispatch _
  | .moveMaster _ | .otherCheck _ _ => none

/-- Ingest comes before every thread, and the threads come in any order. -/
def Before (k k' : Option Task) : Prop := k ≠ k' ∧ k' ≠ some .ingest

section Effects

variable {apply : Mbox → GitTree → Option GitTree} {i j : ℕ} {id a : SeriesId}
  {pc : Worker.Pc} {db db' : Db} {git git' : GitWorld}

theorem getD_moveToNewQueue (db : Db) (old new : SeriesTree) (id : SeriesId) :
    (db.moveToNewQueue old new id).getD db =
      { db with series := (KvTree.moveBetween db.series old new id).getD db.series } := by
  unfold Db.moveToNewQueue
  cases KvTree.moveBetween db.series old new id <;> rfl

/-- A worker writes to the series trees under its series and to the queues under its branch. -/
theorem nextDb_edits (i : ℕ) (id : SeriesId) (e : Worker.Event) : ∃ series branches,
    KvTree.EditsAt series id ∧ KvTree.EditsAt branches id.toDecimal ∧
      ∀ s : Worker.State, Worker.nextDb i id s e =
        { s.db with series := series s.db.series, branches := branches s.db.branches } := by
  cases e with
  | busy | free | wait | startWork =>
    exact ⟨_, _, KvTree.editsAt_id id, KvTree.editsAt_id _, fun _ => rfl⟩
  | moveIn =>
    exact ⟨_, _, KvTree.editsAt_move (by simp) id, KvTree.editsAt_id _,
      fun s => getD_moveToNewQueue s.db .awaitingGitWorker (.gitWorker i) id⟩
  | moveToFailures =>
    exact ⟨_, _, KvTree.editsAt_move (by simp) id, KvTree.editsAt_id _,
      fun s => getD_moveToNewQueue s.db (.gitWorker i) .gitFailures id⟩
  | remove =>
    exact ⟨_, _, KvTree.editsAt_erase (.gitWorker i) id, KvTree.editsAt_id _, fun _ => rfl⟩
  | work e => cases e with
    | queue remote runner =>
      exact ⟨_, _, KvTree.editsAt_id id, KvTree.editsAt_insert (.queue runner) _ "new",
        fun _ => rfl⟩
    | _ => exact ⟨_, _, KvTree.editsAt_id id, KvTree.editsAt_id _, fun _ => rfl⟩

def edited (git : GitWorld) (i : ℕ) (branch : String) (tree : Worktree → Worktree)
    (refs : Worktree → (String → Option Commit) → String → Option Commit) : GitWorld :=
  ⟨git.master, Function.update git.worktree i (tree (git.worktree i)), fun remote b =>
    if b = branch then refs (git.worktree i) (fun r => git.refs r b) remote
    else git.refs remote b⟩

theorem edited_setWorktree (git : GitWorld) (i : ℕ) (branch : String)
    (tree : Worktree → Worktree) :
    edited git i branch tree (fun _ c => c) = git.setWorktree i (tree (git.worktree i)) := by
  simp [edited, GitWorld.setWorktree]

theorem edited_same (git : GitWorld) (i : ℕ) (branch : String) :
    edited git i branch (fun w => w) (fun _ c => c) = git := by
  simp [edited]

theorem edited_setRef (git : GitWorld) (i : ℕ) (remote branch : String) :
    edited git i branch (fun w => w) (fun w c => Function.update c remote (some w.head)) =
      git.setRef remote branch (git.worktree i).head := by
  have hrefs : (fun r b => if b = branch then Function.update (fun r => git.refs r b) remote
      (some (git.worktree i).head) r else git.refs r b) =
        (git.setRef remote branch (git.worktree i).head).refs := by
    funext r b
    rw [GitWorld.setRef_refs]
    by_cases hb : b = branch
    · by_cases hr : r = remote <;> simp [hb, hr]
    · simp [hb]
  simp only [edited, hrefs, Function.update_eq_self]
  rfl

theorem edited_comm {branch branch' : String} (hij : i ≠ j) (hb : branch ≠ branch')
    (git : GitWorld) (tree tree' : Worktree → Worktree)
    (refs refs' : Worktree → (String → Option Commit) → String → Option Commit) :
    edited (edited git i branch tree refs) j branch' tree' refs' =
      edited (edited git j branch' tree' refs') i branch tree refs := by
  simp only [edited, Function.update_of_ne hij, Function.update_of_ne hij.symm,
    GitWorld.mk.injEq, true_and]
  refine ⟨Function.update_comm hij _ _ _, ?_⟩
  funext r b
  by_cases h : b = branch
  · subst h
    simp [hb]
  · by_cases h' : b = branch'
    · subst h'
      simp [h]
    · simp [h, h']

/-- A worker writes to its own worktree and, on the remotes, to the branch of its series; what
it writes depends on the worktree and on the link prefix. -/
theorem nextGit_edits (apply : Mbox → GitTree → Option GitTree) (i : ℕ) (id : SeriesId)
    (pc : Worker.Pc) (e : Worker.Event) (urlPrefix : Option String) : ∃ tree refs, ∀ db git,
      db.patchworkSeriesLinkPrefix = urlPrefix → Worker.nextGit apply i id ⟨db, git, pc⟩ e =
        edited git i (remoteBranch id.toDecimal) tree refs := by
  have quiet : ∃ tree refs, ∀ git, git = edited git i (remoteBranch id.toDecimal) tree refs :=
    ⟨_, _, fun git => (edited_same git i _).symm⟩
  have onTree : ∀ tree : Worktree → Worktree, ∃ tree' refs, ∀ git : GitWorld,
      git.setWorktree i (tree (git.worktree i)) =
        edited git i (remoteBranch id.toDecimal) tree' refs :=
    fun tree => ⟨tree, _, fun git => (edited_setWorktree git i _ tree).symm⟩
  have pushed : ∀ remote, ∃ tree refs, ∀ git : GitWorld,
      git.setRef remote (remoteBranch id.toDecimal) (git.worktree i).head =
        edited git i (remoteBranch id.toDecimal) tree refs :=
    fun remote => ⟨_, _, fun git => (edited_setRef git i remote _).symm⟩
  cases e with
  | busy | free | wait | moveIn | startWork | remove | moveToFailures =>
    obtain ⟨tree, refs, h⟩ := quiet
    exact ⟨tree, refs, fun db git _ => h git⟩
  | work we => cases pc with
    | checking | waiting | movingIn | moved =>
      obtain ⟨tree, refs, h⟩ := quiet
      exact ⟨tree, refs, fun db git _ => h git⟩
    | working p => cases we with
      | reset target =>
        obtain ⟨tree, refs, h⟩ := onTree fun _ => ⟨target, target.tree, target.tree⟩
        exact ⟨tree, refs, fun db git _ => h git⟩
      | resetFails left =>
        obtain ⟨tree, refs, h⟩ := onTree fun _ => left
        exact ⟨tree, refs, fun db git _ => h git⟩
      | applyToRepo | binaryApply => cases p with
        | applying mbox | fallback mbox =>
          obtain ⟨tree, refs, h⟩ := onTree (DoWork.applied apply mbox)
          exact ⟨tree, refs, fun db git _ => h git⟩
        | _ =>
          obtain ⟨tree, refs, h⟩ := quiet
          exact ⟨tree, refs, fun db git _ => h git⟩
      | commit =>
        obtain ⟨tree, refs, h⟩ := onTree fun w => { w with
          head := .mk w.index [w.head] (DoWork.commitMessage id (urlPrefix.getD "")) }
        refine ⟨tree, refs, fun db git hprefix => ?_⟩
        rw [← hprefix] at h
        exact h git
      | push remote =>
        obtain ⟨tree, refs, h⟩ := pushed remote
        exact ⟨tree, refs, fun db git _ => h git⟩
      | pushBreaks remote updated => cases updated with
        | true =>
          obtain ⟨tree, refs, h⟩ := pushed remote
          exact ⟨tree, refs, fun db git _ => h git⟩
        | false =>
          obtain ⟨tree, refs, h⟩ := quiet
          exact ⟨tree, refs, fun db git _ => h git⟩
      | _ =>
        obtain ⟨tree, refs, h⟩ := quiet
        exact ⟨tree, refs, fun db git _ => h git⟩

structure Agree (i : ℕ) (id : SeriesId) (db db' : Db) (git git' : GitWorld) : Prop where
  tree : db'.series (.gitWorker i) = db.series (.gitWorker i)
  awaiting : id ∈ db'.series .awaitingGitWorker ↔ id ∈ db.series .awaitingGitWorker
  remotes : db'.remotesToPushTo = db.remotesToPushTo
  public_key : db'.sshPublicKeyPath = db.sshPublicKeyPath
  private_key : db'.sshPrivateKeyPath = db.sshPrivateKeyPath
  url_prefix : db'.patchworkSeriesLinkPrefix = db.patchworkSeriesLinkPrefix
  master : git'.master = git.master
  worktree : git'.worktree i = git.worktree i
  refs : ∀ remote, git'.refs remote (remoteBranch id.toDecimal) =
    git.refs remote (remoteBranch id.toDecimal)

theorem Agree.symm (h : Agree i id db db' git git') : Agree i id db' db git' git :=
  ⟨h.tree.symm, h.awaiting.symm, h.remotes.symm, h.public_key.symm, h.private_key.symm,
    h.url_prefix.symm, h.master.symm, h.worktree.symm, fun r => (h.refs r).symm⟩

theorem Agree.enabled (h : Agree i id db db' git git') {e : Worker.Event}
    (he : Worker.Enabled apply i id ⟨db, git, pc⟩ e) :
    Worker.Enabled apply i id ⟨db', git', pc⟩ e := by
  cases e with
  | busy | free | wait | moveToFailures => simpa only [Worker.Enabled, h.tree] using he
  | moveIn => exact ⟨he.1, h.awaiting.mpr he.2⟩
  | startWork | remove => exact he
  | work we =>
    obtain ⟨p, hp, he⟩ := he
    refine ⟨p, hp, ?_⟩
    cases we with
    | reset => simpa only [DoWork.Enabled, h.master] using he
    | readUrl => simpa only [DoWork.Enabled, h.tree] using he
    | applyToRepo | binaryApply => simpa only [DoWork.Enabled, h.worktree] using he
    | commit => simpa only [DoWork.Enabled, h.url_prefix] using he
    | readRemotes | nextRunner | listed => simpa only [DoWork.Enabled, h.remotes] using he
    | push | pushBreaks =>
      simpa only [DoWork.Enabled, DoWork.HasKeys, h.public_key, h.private_key] using he
    | notFastForward =>
      simpa only [DoWork.Enabled, DoWork.HasKeys, h.public_key, h.private_key, h.refs] using he
    | openRepo | resetFails | download | applyFails | reopen | queue | finish | fail => exact he

theorem toDecimal_ne (h : id ≠ a) : id.toDecimal ≠ a.toDecimal :=
  fun heq => h (toDecimal_inj.mp heq)

theorem remoteBranch_ne (h : id ≠ a) : remoteBranch id.toDecimal ≠ remoteBranch a.toDecimal := by
  intro heq
  have hl := congrArg String.toList heq
  simp only [remoteBranch, String.toList_append, List.append_cancel_left_eq] at hl
  exact toDecimal_ne h (String.toList_inj.mp hl)

theorem mem_of_edits {series : (SeriesTree → KvTree SeriesId Url) → SeriesTree →
    KvTree SeriesId Url} (h : KvTree.EditsAt series a) (hne : id ≠ a)
    (f : SeriesTree → KvTree SeriesId Url) (t : SeriesTree) : id ∈ series f t ↔ id ∈ f t := by
  have hlookup : Finmap.lookup id (series f t) = Finmap.lookup id (f t) :=
    congrFun (h.2 f id hne) t
  rw [← Finmap.lookup_isSome, ← Finmap.lookup_isSome, hlookup]

theorem agree_worker (apply : Mbox → GitTree → Option GitTree) (hij : i ≠ j) (hne : id ≠ a)
    (s : Worker.State) (e : Worker.Event) :
    Agree j id s.db (Worker.nextDb i a s e) s.git (Worker.nextGit apply i a s e) := by
  obtain ⟨series, branches, hseries, _, hdb⟩ := nextDb_edits i a e
  obtain ⟨tree, refs, hgit⟩ :=
    nextGit_edits apply i a s.pc e s.db.patchworkSeriesLinkPrefix
  have hgit' : Worker.nextGit apply i a s e =
      edited s.git i (remoteBranch a.toDecimal) tree refs := hgit s.db s.git rfl
  have htree : (Worker.nextDb i a s e).series (.gitWorker j) = s.db.series (.gitWorker j) := by
    cases e with
    | busy | free | wait | startWork => rfl
    | moveIn | moveToFailures =>
      exact Db.series_moveToNewQueue_of_ne (by simp [hij.symm]) (by simp [hij.symm])
    | remove => simp [Worker.nextDb, Db.removeSeries, hij.symm]
    | work we => simp [Worker.nextDb, DoWork.nextDb_series]
  refine ⟨htree, ?_, ?_, ?_, ?_, ?_, ?_, ?_, fun remote => ?_⟩
  · rw [hdb s]
    exact mem_of_edits hseries hne s.db.series .awaitingGitWorker
  · rw [hdb s]
  · rw [hdb s]
  · rw [hdb s]
  · rw [hdb s]
  · rw [hgit']
    rfl
  · rw [hgit']
    simp [edited, hij.symm]
  · rw [hgit']
    simp [edited, remoteBranch_ne hne]

theorem worker_comm (apply : Mbox → GitTree → Option GitTree) (hij : i ≠ j) (hne : id ≠ a)
    (db : Db) (git : GitWorld) (pc pc' : Worker.Pc) (e e' : Worker.Event) :
    Worker.nextDb j a ⟨Worker.nextDb i id ⟨db, git, pc⟩ e,
        Worker.nextGit apply i id ⟨db, git, pc⟩ e, pc'⟩ e' =
      Worker.nextDb i id ⟨Worker.nextDb j a ⟨db, git, pc'⟩ e',
        Worker.nextGit apply j a ⟨db, git, pc'⟩ e', pc⟩ e ∧
    Worker.nextGit apply j a ⟨Worker.nextDb i id ⟨db, git, pc⟩ e,
        Worker.nextGit apply i id ⟨db, git, pc⟩ e, pc'⟩ e' =
      Worker.nextGit apply i id ⟨Worker.nextDb j a ⟨db, git, pc'⟩ e',
        Worker.nextGit apply j a ⟨db, git, pc'⟩ e', pc⟩ e := by
  obtain ⟨series, branches, hseries, hbranches, hdb⟩ := nextDb_edits i id e
  obtain ⟨series', branches', hseries', hbranches', hdb'⟩ := nextDb_edits j a e'
  obtain ⟨tree, refs, hgit⟩ := nextGit_edits apply i id pc e db.patchworkSeriesLinkPrefix
  obtain ⟨tree', refs', hgit'⟩ := nextGit_edits apply j a pc' e' db.patchworkSeriesLinkPrefix
  constructor
  · rw [hdb', hdb, hdb, hdb']
    simp only [Db.mk.injEq, true_and, and_true]
    exact ⟨hseries.comm hseries' hne db.series,
      hbranches.comm hbranches' (toDecimal_ne hne) db.branches⟩
  · have hprefix : (Worker.nextDb i id ⟨db, git, pc⟩ e).patchworkSeriesLinkPrefix =
        db.patchworkSeriesLinkPrefix := by rw [hdb]
    have hprefix' : (Worker.nextDb j a ⟨db, git, pc'⟩ e').patchworkSeriesLinkPrefix =
        db.patchworkSeriesLinkPrefix := by rw [hdb']
    rw [hgit' _ _ hprefix, hgit _ _ rfl, hgit _ _ hprefix', hgit' _ _ rfl]
    exact edited_comm hij (remoteBranch_ne hne) git tree tree' refs refs'

end Effects

section Swaps

variable {env : Env} {s : State} {i j : ℕ} {id a : SeriesId} {e : Worker.Event}

def woken (e : Worker.Event) (watcher : ℕ → Watcher.Pc) : ℕ → Watcher.Pc :=
  match e with
  | .work (.queue _ runner) =>
    if runner = gitHubHandle then fun k => (watcher k).notify else watcher
  | _ => watcher

theorem woken_comm (e e' : Worker.Event) (watcher : ℕ → Watcher.Pc) :
    woken e (woken e' watcher) = woken e' (woken e watcher) := by
  have hall : ∀ e, (∀ w, woken e w = w) ∨ ∀ w, woken e w = fun k => (w k).notify := by
    intro e
    cases e with
    | work we => cases we with
      | queue remote runner =>
        by_cases hr : runner = gitHubHandle
        · exact Or.inr fun w => by simp [woken, hr]
        · exact Or.inl fun w => by simp [woken, hr]
      | _ => exact Or.inl fun _ => rfl
    | _ => exact Or.inl fun _ => rfl
  rcases hall e with he | he <;> rcases hall e' with he' | he' <;> simp only [he, he']

theorem next_worker {pc : Worker.Pc} (hi : s.proc.thread i = some (id, pc)) (e : Worker.Event) :
    next env s (.worker i id e) =
      ⟨Worker.nextDb i id ⟨s.db, s.git, pc⟩ e, Worker.nextGit env.apply i id ⟨s.db, s.git, pc⟩ e,
        s.checks, { s.proc with
          watcher := woken e s.proc.watcher
          thread := Function.update s.proc.thread i
            ((Worker.nextPc pc e).map fun pc => (id, pc)) }⟩ := by
  simp only [next, workerNext, hi]
  cases e with
  | work we => cases we with
    | queue remote runner =>
      by_cases hr : runner = gitHubHandle
      · simp [woken, Process.notifyWatchers, hr]
      · simp [woken, Process.notifyWatchers, hr]
    | _ => rfl
  | _ => rfl

/-- Two tasks can be swapped in a state: the later one could have gone first. -/
def Swap (env : Env) (s : State) (first second : Event) : Prop :=
  Enabled env s second ∧ Enabled env (next env s second) first ∧
    next env (next env s second) first = next env (next env s first) second

theorem swap_workers (hc : GitCustody (view s)) (hij : i ≠ j) {e' : Worker.Event}
    (he : Enabled env s (.worker i id e))
    (he' : Enabled env (next env s (.worker i id e)) (.worker j a e')) :
    Swap env s (.worker i id e) (.worker j a e') := by
  obtain ⟨pc, hi, hen⟩ := he
  rw [next_worker hi] at he'
  obtain ⟨pc', hj, hen'⟩ := he'
  have hj : s.proc.thread j = some (a, pc') := by simpa [hij.symm] using hj
  have hne : id ≠ a := by
    rintro rfl
    exact hij (hc.thread_once i j id pc pc' hi hj)
  have hback : Worker.Enabled env.apply j a ⟨s.db, s.git, pc'⟩ e' :=
    (agree_worker env.apply hij hne.symm ⟨s.db, s.git, pc⟩ e).symm.enabled hen'
  have hforth := (agree_worker env.apply hij.symm hne ⟨s.db, s.git, pc'⟩ e').enabled hen
  have hi' : (next env s (.worker j a e')).proc.thread i = some (id, pc) := by
    rw [next_worker hj]
    simpa [hij] using hi
  have hj' : (next env s (.worker i id e)).proc.thread j = some (a, pc') := by
    rw [next_worker hi]
    simpa [hij.symm] using hj
  refine ⟨⟨pc', hj, hback⟩, ⟨pc, hi', ?_⟩, ?_⟩
  · rw [next_worker hj]
    exact hforth
  · obtain ⟨hdb, hgit⟩ := worker_comm env.apply hij hne s.db s.git pc pc' e e'
    rw [next_worker hi', next_worker hj', next_worker hi, next_worker hj]
    simp only [hdb, hgit, woken_comm e e', Function.update_comm hij]

theorem swap_begin_worker (hij : i ≠ j) (he : Enabled env s (.begin i id))
    (he' : Enabled env (next env s (.begin i id)) (.worker j a e)) :
    Swap env s (.begin i id) (.worker j a e) := by
  obtain ⟨hlt, hidle, hpool⟩ := he
  obtain ⟨pc, hj, hen⟩ := he'
  have hj : s.proc.thread j = some (a, pc) := by simpa [next, hij.symm] using hj
  have hj' : (next env s (.begin i id)).proc.thread j = some (a, pc) := by
    simpa [next, hij.symm] using hj
  refine ⟨⟨pc, hj, hen⟩, ?_, ?_⟩
  · rw [next_worker hj]
    exact ⟨hlt, by simpa [hij] using hidle, hpool⟩
  · rw [next_worker hj, next_worker hj']
    simp only [next, Function.update_comm hij]

theorem swap_worker_begin (hij : i ≠ j) (he : Enabled env s (.worker i id e))
    (he' : Enabled env (next env s (.worker i id e)) (.begin j a)) :
    Swap env s (.worker i id e) (.begin j a) := by
  obtain ⟨pc, hi, hen⟩ := he
  rw [next_worker hi] at he'
  obtain ⟨hlt, hidle, hpool⟩ := he'
  have hidle : s.proc.thread j = none := by simpa [hij.symm] using hidle
  have hi' : (next env s (.begin j a)).proc.thread i = some (id, pc) := by
    simpa [next, hij] using hi
  refine ⟨⟨hlt, hidle, hpool⟩, ⟨pc, hi', hen⟩, ?_⟩
  rw [next_worker hi, next_worker hi']
  simp only [next, Function.update_comm hij]

theorem swap_begins (hc : GitCustody (view s)) (hij : i ≠ j) (he : Enabled env s (.begin i id))
    (he' : Enabled env (next env s (.begin i id)) (.begin j a)) :
    Swap env s (.begin i id) (.begin j a) := by
  obtain ⟨hlt, hidle, hpool⟩ := he
  obtain ⟨hlt', hidle', hpool'⟩ := he'
  have hnodup : s.proc.pool.Nodup := hc.pool_nodup
  obtain ⟨hne, hmem⟩ := hnodup.mem_erase_iff.mp hpool'
  have hidle' : s.proc.thread j = none := by simpa [next, hij.symm] using hidle'
  refine ⟨⟨hlt', hidle', hmem⟩, ⟨hlt, ?_, ?_⟩, ?_⟩
  · simpa [next, hij] using hidle
  · exact hnodup.mem_erase_iff.mpr ⟨hne.symm, hpool⟩
  · simp only [next, Function.update_comm hij, List.erase_comm a id]

theorem ingest_enabled_iff {db db' : Db} {pc : Ingest.Pc} {pool pool' : List SeriesId}
    {leaf : KvTree.Leaf SeriesId Url}
    (h : db'.series .needsTesting = db.series .needsTesting) (e : Ingest.Event) :
    Ingest.Enabled ⟨db', pc, pool', leaf⟩ e ↔ Ingest.Enabled ⟨db, pc, pool, leaf⟩ e := by
  cases e with
  | ready | take | spawn => exact Iff.rfl
  | read | ends | move | wait => simp only [Ingest.Enabled, h]

def ingestDb (db : Db) : Ingest.Event → Db
  | .move id => (db.moveToNewQueue .needsTesting .awaitingGitWorker id).getD db
  | _ => db

theorem next_ingest (env : Env) (s : State) (e : Ingest.Event) : next env s (.ingest e) =
    ⟨ingestDb s.db e, s.git, s.checks, { s.proc with
      ingest := Ingest.nextPc s.proc.ingest e
      pool := match e with
        | .spawn id => id :: s.proc.pool
        | _ => s.proc.pool
      ingestLeaf := match e with
        | .read leaf _ => leaf
        | .ready | .ends | .wait _ => .start
        | _ => s.proc.ingestLeaf }⟩ := by
  cases e <;> rfl

theorem ne_of_ingest (hc : GitCustody (view s)) {pc : Worker.Pc}
    (hi : s.proc.thread i = some (id, pc)) (he : Enabled env s (.ingest (.move a))) : id ≠ a := by
  have hheld : (view s).held .needsTesting a := he.2
  by_cases hp : pc.MovedIn
  · exact hc.ne_of_held (hc.thread_after i id pc hi hp) hheld (by simp)
  · exact hc.ne_of_held (hc.thread_before i id pc hi hp) hheld (by simp)

theorem agree_ingest {e : Ingest.Event} (hne : ∀ a, e = .move a → id ≠ a) (db : Db)
    (git : GitWorld) : Agree i id db (ingestDb db e) git git := by
  cases e with
  | move a =>
    have hdb := getD_moveToNewQueue db .needsTesting .awaitingGitWorker a
    have htree : (ingestDb db (.move a)).series (.gitWorker i) = db.series (.gitWorker i) :=
      Db.series_moveToNewQueue_of_ne (by simp) (by simp)
    have hedits := KvTree.editsAt_move (κ := SeriesId) (ν := Url)
      (show SeriesTree.needsTesting ≠ .awaitingGitWorker by simp) a
    have hawaiting := mem_of_edits hedits (hne a rfl) db.series .awaitingGitWorker
    simp only [ingestDb, hdb] at htree ⊢
    exact ⟨htree, hawaiting, rfl, rfl, rfl, rfl, rfl, rfl, fun _ => rfl⟩
  | ready | read | take | ends | spawn | wait =>
    exact ⟨rfl, Iff.rfl, rfl, rfl, rfl, rfl, rfl, rfl, fun _ => rfl⟩

theorem ingest_comm (apply : Mbox → GitTree → Option GitTree) {e : Ingest.Event}
    (hne : ∀ a, e = .move a → id ≠ a) (db : Db) (git : GitWorld) (pc : Worker.Pc)
    (we : Worker.Event) :
    ingestDb (Worker.nextDb i id ⟨db, git, pc⟩ we) e =
      Worker.nextDb i id ⟨ingestDb db e, git, pc⟩ we ∧
    Worker.nextGit apply i id ⟨db, git, pc⟩ we =
      Worker.nextGit apply i id ⟨ingestDb db e, git, pc⟩ we := by
  cases e with
  | move a =>
    obtain ⟨series, branches, hseries, _, hdb⟩ := nextDb_edits i id we
    obtain ⟨tree, refs, hgit⟩ := nextGit_edits apply i id pc we db.patchworkSeriesLinkPrefix
    have hprefix : (ingestDb db (.move a)).patchworkSeriesLinkPrefix =
        db.patchworkSeriesLinkPrefix := by
      simp only [ingestDb, getD_moveToNewQueue]
    refine ⟨?_, by rw [hgit _ _ rfl, hgit _ _ hprefix]⟩
    simp only [ingestDb, getD_moveToNewQueue, hdb, Db.mk.injEq, true_and, and_true]
    exact hseries.comm (KvTree.editsAt_move (by simp) a) (hne a rfl) db.series
  | ready | read | take | ends | spawn | wait => exact ⟨rfl, rfl⟩

theorem swap_worker_ingest (hc : GitCustody (view s)) {e' : Ingest.Event}
    (he : Enabled env s (.worker i id e))
    (he' : Enabled env (next env s (.worker i id e)) (.ingest e')) :
    Swap env s (.worker i id e) (.ingest e') := by
  obtain ⟨pc, hi, hen⟩ := he
  have htesting := needsTesting_worker i id ⟨s.db, s.git, pc⟩ e
  rw [next_worker hi] at he'
  have hen' : Enabled env s (.ingest e') := (ingest_enabled_iff htesting e').mp he'
  have hne : ∀ a, e' = .move a → id ≠ a := by
    rintro a rfl
    exact ne_of_ingest hc hi hen'
  have hi' : (next env s (.ingest e')).proc.thread i = some (id, pc) := hi
  obtain ⟨hdb, hgit⟩ := ingest_comm (i := i) env.apply hne s.db s.git pc e
  have hi' : (next env s (.ingest e')).proc.thread i = some (id, pc) := hi
  refine ⟨hen', ⟨pc, hi', ?_⟩, ?_⟩
  · rw [next_ingest]
    exact (agree_ingest hne s.db s.git).enabled hen
  · rw [next_worker hi', next_ingest, next_ingest, next_worker hi]
    simp only [hdb, hgit]

theorem swap_begin_ingest (hc : GitCustody (view s)) {e : Ingest.Event}
    (he : Enabled env s (.begin i id))
    (he' : Enabled env (next env s (.begin i id)) (.ingest e)) :
    Swap env s (.begin i id) (.ingest e) := by
  obtain ⟨hlt, hidle, hpool⟩ := he
  have hen : Enabled env s (.ingest e) := (ingest_enabled_iff rfl e).mp he'
  cases e with
  | spawn a =>
    have hpc : s.proc.ingest = .spawning a := hen
    have hne : a ≠ id := by
      rintro rfl
      exact (hc.spawning a hpc).2.1 hpool
    refine ⟨hen, ⟨hlt, hidle, List.mem_cons_of_mem a hpool⟩, ?_⟩
    simp [next, ingestNext, Ingest.next, List.erase_cons_tail, hne]
  | ready | read | take | ends | move | wait => exact ⟨hen, ⟨hlt, hidle, hpool⟩, rfl⟩

end Swaps

/-- Wherever two tasks of the git stage take turns, they might take them in the other order;
ingest cannot be made to wait for a closure that it has yet to hand over. -/
theorem movers (env : Env) : (machine env).Movers
    (fun s => GitDiscovery (view s) ∧ GitCustody (view s)) (fun e => owner e ≠ none) owner
    Before where
  keep s e h he := ⟨discovery_step h.1 he, custody_step h.1 h.2 he⟩
  swap := by
    intro s first second h hfirst hsecond hbefore he he'
    obtain ⟨hne, hfirst'⟩ := hbefore
    have hc : GitCustody (view s) := h.2
    have he : Enabled env s first := he
    have he' : Enabled env (next env s first) second := he'
    cases first with
    | begin i id =>
      cases second with
      | ingest e => exact swap_begin_ingest hc he he'
      | begin j a =>
        exact swap_begins hc (by simpa [owner, eq_comm] using hne) he he'
      | worker j a e => exact swap_begin_worker (by simpa [owner, eq_comm] using hne) he he'
      | _ => exact absurd rfl hsecond
    | worker i id e =>
      cases second with
      | ingest e => exact swap_worker_ingest hc he he'
      | begin j a => exact swap_worker_begin (by simpa [owner, eq_comm] using hne) he he'
      | worker j a e => exact swap_workers hc (by simpa [owner, eq_comm] using hne) he he'
      | _ => exact absurd rfl hsecond
    | ingest => exact absurd rfl hfirst'
    | _ => exact absurd rfl hfirst

def turns (threads : List ℕ) : List (Option Task) :=
  some .ingest :: threads.map fun i => some (.thread i)

/-- However the steps of ingest and of the git workers interleave between two states of a run,
the workers might as well have waited for ingest and for each other: the same steps, taken
task by task in whatever order of the threads, are a run to the same state. -/
theorem git_stage_serializable {s₀ s t : State} {tr tr' : List Event} {threads : List ℕ}
    (hx : (machine env).Execution s₀ tr s) (h₀ : Initial s₀)
    (hy : (machine env).Execution s tr' t) (hnodup : threads.Nodup)
    (hown : ∀ e ∈ tr', owner e ∈ turns threads) : (machine env).Execution s
      ((turns threads).flatMap fun k => tr'.filter fun e => owner e = k) t := by
  have hthread : ∀ k ∈ threads.map fun i => some (Task.thread i), k ≠ some .ingest ∧ k ≠ none := by
    intro k hk
    obtain ⟨i, _, rfl⟩ := List.mem_map.mp hk
    simp
  have hinj : Function.Injective fun i => some (Task.thread i) := fun i j h => by simpa using h
  have hdistinct : (turns threads).Nodup :=
    List.nodup_cons.mpr ⟨fun hm => (hthread _ hm).1 rfl, hnodup.map hinj⟩
  have hbefore : (turns threads).Pairwise Before := by
    refine List.pairwise_cons.mpr ⟨fun k hk => ⟨(hthread k hk).1.symm, (hthread k hk).1⟩, ?_⟩
    exact (hnodup.map hinj).imp_of_mem fun _ hb hne => ⟨hne, (hthread _ hb).1⟩
  refine (movers env).serial (turns threads) hdistinct hbefore hy (execution_git hx h₀) ?_
  intro e he
  refine ⟨fun hnone => ?_, hown e he⟩
  rcases List.mem_cons.mp (hown e he) with hk | hk
  · rw [hnone] at hk
    cases hk
  · exact (hthread _ hk).2 hnone

open Sample in
theorem git_stage_serializable_sample : ∃ s t,
    (machine Sample.env).Execution state (boot ++ (discover ++ Sample.ingest)) s ∧
    (machine Sample.env).Execution s [.begin 0 id, .ingest .ends, .worker 0 id .free] t ∧
    (machine Sample.env).Execution s [.ingest .ends, .begin 0 id, .worker 0 id .free] t := by
  have hready : (machine Sample.env).Runs state (boot ++ (discover ++ Sample.ingest)) :=
    Machine.runs_append.mpr ⟨boot_runs rfl,
      (Machine.runs_append.mp (committing_runs config _ _ _)).1⟩
  have hmixed : (machine Sample.env).Runs
      ((machine Sample.env).run state (boot ++ (discover ++ Sample.ingest)))
      [.begin 0 id, .ingest .ends, .worker 0 id .free] := by
    refine ⟨⟨?_, rfl, List.mem_cons_self⟩, ⟨_, rfl, ?_⟩, ⟨_, rfl, rfl, ?_⟩, trivial⟩
    all_goals exact of_decide_eq_true rfl
  refine ⟨_, _, hready.execution, hmixed.execution, ?_⟩
  exact git_stage_serializable hready.execution state_initial hmixed.execution
    (List.nodup_singleton 0) (by simp [owner, turns])

end Snowpatch.GitSerial
