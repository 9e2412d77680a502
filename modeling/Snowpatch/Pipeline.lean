import Snowpatch.Watchcat
import Snowpatch.Git
import Snowpatch.Dispatch

/-! The whole program: `main`, its loops and spawned closures over one database, with any
interleaving of their steps and any number of process stops and restarts. The database, the
repositories and the checks on Patchwork survive a stop; the process does not. Threads of
the shared pool are not counted here. Only one process runs at a time. -/
namespace Snowpatch

/-- The only handle of the only runner type. -/
def gitHubHandle : String := "github"

theorem getHandle_eq (r : RunnerConfig) : r.getHandle = gitHubHandle := rfl

inductive MainPc where
  | off
  | init (k : ℕ)
  | smokeTest (k : ℕ)
  | spawning (k : ℕ)
  | idle
  | scanning
  deriving DecidableEq, Repr

/-- What a process stop destroys. `pool` holds the closures no git thread has picked up. -/
structure Process where
  config : Config
  threads : ℕ
  main : MainPc
  scan : Scan
  ingest : Ingest.Pc
  pool : List SeriesId
  thread : ℕ → Option (SeriesId × Worker.Pc)
  watcher : ℕ → Watcher.Pc
  waits : List Completion.Task
  dispatch : Dispatch.Pc
  ingestLeaf : KvTree.Leaf SeriesId Url
  watcherLeaf : ℕ → KvTree.Leaf String String
  dispatchLeaf : KvTree.Leaf String RunnerResult

def Config.none : Config := ⟨"", "", "", 0, ⟨""⟩, .none, []⟩

namespace Process

def stopped : Process :=
  ⟨.none, 0, .off, .start [], .off, [], fun _ => none, fun _ => .off, [], .off, .start,
    fun _ => .start, .start⟩

/-- `main` up to the call of `runner::init`: the ingest loop is already spawned. -/
def launched (config : Config) (threads : ℕ) : Process :=
  { stopped with
    config := config
    threads := threads
    main := .init 0
    ingest := .initWorktrees }

def notifyWatchers (p : Process) (handle : String) : Process :=
  if handle = gitHubHandle then { p with watcher := fun k => (p.watcher k).notify } else p

theorem notifyWatchers_eq (p : Process) (handle : String) :
    ∃ w, p.notifyWatchers handle = { p with watcher := w } ∧
      ∀ k, w k = p.watcher k ∨ w k = (p.watcher k).notify := by
  unfold notifyWatchers
  split
  · exact ⟨_, rfl, fun _ => Or.inr rfl⟩
  · exact ⟨p.watcher, rfl, fun _ => Or.inl rfl⟩

theorem notifyWatchers_watcher (p : Process) (handle : String) (k : ℕ) :
    (p.notifyWatchers handle).watcher k =
      if handle = gitHubHandle then (p.watcher k).notify else p.watcher k := by
  unfold notifyWatchers
  split <;> rfl

end Process

structure State where
  db : Db
  git : GitWorld
  checks : PatchId → List Check
  proc : Process

/-- The code outside the program: what applying an mbox gives, and the last patch of a
series on Patchwork. -/
structure Env where
  apply : Mbox → GitTree → Option GitTree
  lastPatch : SeriesId → Option PatchId

inductive MainEvent where
  | insertRemote (remote : String)
  | smokeTest
  | initDone
  | spawnWatcher (k : ℕ)
  | connect
  | beginScan (page : List Listed)
  | endScan

inductive Event where
  | start (config : Config) (threads : ℕ)
  | stop
  | main (e : MainEvent)
  | scan (e : Watchcat.Event)
  | ingest (e : Ingest.Event)
  | begin (i : ℕ) (id : SeriesId)
  | worker (i : ℕ) (id : SeriesId) (e : Worker.Event)
  | watcher (k : ℕ) (e : Watcher.Event)
  | wait (t : Completion.Task) (e : Completion.Event)
  | dispatch (e : Dispatch.Event)
  | moveMaster (target : Commit)
  | otherCheck (patch : PatchId) (check : Check)

namespace Pipeline

/-- `runner::init` panics on a manual trigger, so only `stop` follows there. A scan that
ends in an error ends `main`. -/
def mainEnabled (p : Process) : MainEvent → Prop
  | .insertRemote remote => ∃ k r, p.main = .init k ∧ p.config.runners[k]? = some r ∧
      r.trigger = .onPush remote
  | .smokeTest => ∃ k, p.main = .smokeTest k
  | .initDone => p.main = .init p.config.runners.length
  | .spawnWatcher k => p.main = .spawning k ∧ k < p.config.runners.length
  | .connect => p.main = .spawning p.config.runners.length
  | .beginScan page => p.main = .idle ∧ (page.map (·.series.id)).Nodup
  | .endScan => p.main = .scanning ∧ p.scan.Finished ∧ p.scan.failed = false

def mainNext (s : State) : MainEvent → State
  | .insertRemote remote =>
    { s with
      db := { s.db with
        remotesToPushTo := Finmap.insert remote "github" s.db.remotesToPushTo }
      proc := { s.proc with
        main := match s.proc.main with
          | .init k => .smokeTest k
          | pc => pc } }
  | .smokeTest =>
    { s with
      proc := { s.proc with
        main := match s.proc.main with
          | .smokeTest k => .init (k + 1)
          | pc => pc } }
  | .initDone => { s with proc := { s.proc with main := .spawning 0 } }
  | .spawnWatcher k =>
    { s with
      proc := { s.proc with
        main := .spawning (k + 1)
        watcher := Function.update s.proc.watcher k (.iterate ⊥)
        watcherLeaf := Function.update s.proc.watcherLeaf k .start } }
  | .connect =>
    { s with
      proc := { s.proc with
        main := .idle
        dispatch := .iterate ⊥ []
        dispatchLeaf := .start } }
  | .beginScan page =>
    { s with proc := { s.proc with main := .scanning, scan := Scan.start page } }
  | .endScan => { s with proc := { s.proc with main := .idle } }

variable (env : Env)

def Enabled (s : State) : Event → Prop
  | .start config threads => s.proc.main = .off ∧ 0 < threads ∧
      (0 < config.workers → threads = config.workers)
  | .stop => s.proc.main ≠ .off
  | .main e => mainEnabled s.proc e
  | .scan e => Watchcat.Enabled ⟨s.db, s.proc.scan⟩ e
  | .ingest e => Ingest.Enabled ⟨s.db, s.proc.ingest, s.proc.pool, s.proc.ingestLeaf⟩ e
  | .begin i id => i < s.proc.threads ∧ s.proc.thread i = none ∧ id ∈ s.proc.pool
  | .worker i id e => ∃ pc, s.proc.thread i = some (id, pc) ∧
      Worker.Enabled env.apply i id ⟨s.db, s.git, pc⟩ e
  | .watcher k e => Watcher.Enabled gitHubHandle
      ⟨s.db, s.proc.watcher k, s.proc.watcherLeaf k⟩ e
  | .wait t e => t ∈ s.proc.waits ∧ Completion.Enabled t e
  | .dispatch e => Dispatch.Enabled s.proc.config.patchworkToken env.lastPatch
      ⟨s.db, s.checks, s.proc.dispatch, s.proc.dispatchLeaf⟩ e
  | .moveMaster _ | .otherCheck _ _ => True

def scanNext (s : State) (e : Watchcat.Event) : State :=
  let r := Watchcat.next ⟨s.db, s.proc.scan⟩ e
  { s with
    db := r.db
    proc := { s.proc with
      scan := r.scan
      ingest := match e with
        | .queue _ => s.proc.ingest.notify
        | _ => s.proc.ingest } }

def ingestNext (s : State) (e : Ingest.Event) : State :=
  let r := Ingest.next ⟨s.db, s.proc.ingest, s.proc.pool, s.proc.ingestLeaf⟩ e
  { s with
    db := r.db
    proc := { s.proc with ingest := r.pc, pool := r.pool, ingestLeaf := r.leaf } }

def workerNext (s : State) (i : ℕ) (id : SeriesId) (e : Worker.Event) : State :=
  match s.proc.thread i with
  | none => s
  | some (_, pc) =>
    let w : Worker.State := ⟨s.db, s.git, pc⟩
    let proc := match e with
      | .work (.queue _ runner) => s.proc.notifyWatchers runner
      | _ => s.proc
    { s with
      db := Worker.nextDb i id w e
      git := Worker.nextGit env.apply i id w e
      proc := { proc with
        thread := Function.update s.proc.thread i ((Worker.nextPc pc e).map fun pc => (id, pc)) } }

def watcherNext (s : State) (k : ℕ) (e : Watcher.Event) : State :=
  let proc := match e with
    | .move _ => s.proc.notifyWatchers gitHubHandle
    | _ => s.proc
  { s with
    db := Watcher.nextDb gitHubHandle s.db e
    proc := { proc with
      watcher := Function.update proc.watcher k (Watcher.nextPc (s.proc.watcher k) e)
      watcherLeaf := Function.update proc.watcherLeaf k
        (Watcher.nextLeaf (s.proc.watcherLeaf k) e)
      waits := match e with
        | .spawn branch => ⟨k, branch, [], .polling⟩ :: s.proc.waits
        | _ => s.proc.waits } }

def waitNext (s : State) (t : Completion.Task) (e : Completion.Event) : State :=
  { s with
    db := Completion.nextDb gitHubHandle s.db t e
    proc := { s.proc with
      waits := (Completion.next t e).toList ++ s.proc.waits.erase t
      dispatch := match e with
        | .report job =>
          if job.name ∈ t.completed then s.proc.dispatch else s.proc.dispatch.notify
        | _ => s.proc.dispatch } }

def dispatchNext (s : State) (e : Dispatch.Event) : State :=
  let r := Dispatch.next ⟨s.db, s.checks, s.proc.dispatch, s.proc.dispatchLeaf⟩ e
  { s with
    db := r.db
    checks := r.checks
    proc := { s.proc with dispatch := r.pc, dispatchLeaf := r.leaf } }

def next (s : State) : Event → State
  | .start config threads =>
    { s with db := s.db.populate config, proc := Process.launched config threads }
  | .stop => { s with proc := Process.stopped }
  | .main e => mainNext s e
  | .scan e => scanNext s e
  | .ingest e => ingestNext s e
  | .begin i id =>
    { s with
      proc := { s.proc with
        pool := s.proc.pool.erase id
        thread := Function.update s.proc.thread i (some (id, .checking)) } }
  | .worker i id e => workerNext env s i id e
  | .watcher k e => watcherNext s k e
  | .wait t e => waitNext s t e
  | .dispatch e => dispatchNext s e
  | .moveMaster target => { s with git := { s.git with master := target } }
  | .otherCheck patch check =>
    { s with checks := Function.update s.checks patch (s.checks patch ++ [check]) }

def machine : Machine State Event := ⟨Enabled env, next env⟩

theorem workerNext_proc {s : State} {i : ℕ} (id : SeriesId) {a : SeriesId} {pc : Worker.Pc}
    (hi : s.proc.thread i = some (a, pc)) (e : Worker.Event) :
    ∃ w, (next env s (.worker i id e)).proc = { s.proc with
        watcher := w
        thread := Function.update s.proc.thread i
          ((Worker.nextPc pc e).map fun pc => (id, pc)) } ∧
      ∀ k, w k = s.proc.watcher k ∨ w k = (s.proc.watcher k).notify := by
  simp only [next, workerNext, hi]
  split
  · obtain ⟨w, hw, hn⟩ := s.proc.notifyWatchers_eq _
    exact ⟨w, by rw [hw], hn⟩
  · exact ⟨s.proc.watcher, rfl, fun _ => Or.inl rfl⟩

theorem watcherNext_proc (s : State) (k : ℕ) (e : Watcher.Event) :
    ∃ w, (next env s (.watcher k e)).proc = { s.proc with
        watcher := Function.update w k (Watcher.nextPc (s.proc.watcher k) e)
        watcherLeaf := Function.update s.proc.watcherLeaf k
          (Watcher.nextLeaf (s.proc.watcherLeaf k) e)
        waits := match e with
          | .spawn branch => ⟨k, branch, [], .polling⟩ :: s.proc.waits
          | _ => s.proc.waits } ∧
      ∀ k, w k = s.proc.watcher k ∨ w k = (s.proc.watcher k).notify := by
  cases e with
  | move branch =>
    obtain ⟨w, hw, hn⟩ := s.proc.notifyWatchers_eq gitHubHandle
    exact ⟨w, by simp [next, watcherNext, hw], hn⟩
  | read | take | ends | startWork | spawn | wait => exact ⟨_, rfl, fun _ => Or.inl rfl⟩

theorem next_dispatch (s : State) (e : Dispatch.Event) :
    (next env s (.dispatch e)).proc.dispatch =
      Dispatch.nextPc ⟨s.db, s.checks, s.proc.dispatch, s.proc.dispatchLeaf⟩ e := rfl

/-- No process has run yet: the database is empty. Repositories and checks are arbitrary. -/
structure Initial (s : State) : Prop where
  db_empty : s.db = Db.empty
  not_running : s.proc = Process.stopped

end Pipeline

/-! One series and one runner: the runs that the concrete cases below are made of. -/
namespace Sample

def config : Config where
  name := "linux"
  publicKey := "id.pub"
  privateKey := "id"
  workers := 1
  patchworkUrl := ⟨"https://patchwork"⟩
  patchworkToken := some "token"
  runners := [⟨.onPush "origin", ⟨"https://github.com/ci/linux"⟩, none⟩]

def id : SeriesId := ⟨300⟩

def listed : Listed where
  series := ⟨id, ⟨"https://patchwork/series/300/mbox"⟩, [7], true, 1⟩
  lastPatch := .ok ⟨7, none, "new"⟩
  checks := .ok []

/-- Applying an mbox adds it to the tree as one more file. -/
def env : Env := ⟨fun mbox tree => some ⟨("mbox", mbox.text) :: tree.files⟩, fun _ => some 7⟩

def master : Commit := .mk ⟨[]⟩ [] "master"

def state : State :=
  ⟨Db.empty, ⟨master, fun _ => ⟨master, ⟨[]⟩, ⟨[]⟩⟩, fun _ _ => none⟩, fun _ => [],
    Process.stopped⟩

theorem state_initial : Pipeline.Initial state := ⟨rfl, rfl⟩

def boot : List Event :=
  [.start config 1, .main (.insertRemote "origin"), .main .smokeTest, .main .initDone,
    .main (.spawnWatcher 0), .main .connect]

def discover : List Event :=
  [.main (.beginScan [listed]), .scan (.choose listed), .scan (.mark listed),
    .scan (.queue listed)]

def toTest : KvTree SeriesId Url := Finmap.insert id listed.series.mbox ∅

def remotes : KvTree String String := Finmap.insert "origin" "github" ∅

def queued : KvTree String String := Finmap.insert "300" "new" ∅

def ingest : List Event :=
  [.ingest .ready, .ingest (.read (.whole toTest) true), .ingest (.take id), .ingest (.move id),
    .ingest (.spawn id)]

def gitWork : List Event :=
  [.begin 0 id, .worker 0 id .free, .worker 0 id .moveIn, .worker 0 id .startWork,
    .worker 0 id (.work .openRepo), .worker 0 id (.work (.reset master)),
    .worker 0 id (.work (.readUrl listed.series.mbox)), .worker 0 id (.work (.download ⟨"diff"⟩)),
    .worker 0 id (.work .applyToRepo), .worker 0 id (.work .commit),
    .worker 0 id (.work (.readRemotes (.whole remotes) true)),
    .worker 0 id (.work (.nextRunner "origin" "github")), .worker 0 id (.work .listed),
    .worker 0 id (.work (.push "origin")), .worker 0 id (.work (.queue "origin" "github")),
    .worker 0 id (.work .finish), .worker 0 id .remove]

def job : RunnerResult := ⟨"build it", .completed, .success, none, none⟩

def testing : List Event :=
  [.watcher 0 (.read (.whole queued) true), .watcher 0 (.take "300"),
    .watcher 0 (.startWork "300"), .watcher 0 (.move "300"), .watcher 0 (.spawn "300"),
    .wait ⟨0, "300", [], .polling⟩ (.progress [job]),
    .wait ⟨0, "300", [], .reporting [job] [job]⟩ (.report job),
    .wait ⟨0, "300", ["build it"], .reporting [job] []⟩ .settle,
    .wait ⟨0, "300", ["build it"], .removing⟩ .remove]

/-- From the start of the process to the end of the tests. -/
def trace : List Event := boot ++ discover ++ ingest ++ gitWork ++ testing

def final : State := (Pipeline.machine env).run state trace

/-- All loops are up; nothing has been queued yet. -/
def up (config : Config) (remotes : KvTree String String) (watcher : ℕ → Watcher.Pc)
    (watcherLeaf : ℕ → KvTree.Leaf String String) : State :=
  { state with
    db := { Db.empty.populate config with remotesToPushTo := remotes }
    proc := { Process.launched config 1 with
      main := .idle
      watcher := watcher
      dispatch := .iterate ⊥ []
      watcherLeaf := watcherLeaf } }

def committing : List Event := discover ++ ingest ++ gitWork.take 10

theorem committing_runs (config : Config) (remotes : KvTree String String)
    (watcher : ℕ → Watcher.Pc) (watcherLeaf : ℕ → KvTree.Leaf String String) :
    (Pipeline.machine env).Runs (up config remotes watcher watcherLeaf) committing := by
  refine ⟨⟨rfl, ?_⟩, ⟨List.mem_cons_self, ?_⟩, List.mem_cons_self, ⟨List.mem_cons_self, ?_⟩,
    rfl, ⟨_, rfl, KvTree.Leaf.reads_whole ?_⟩, ⟨_, rfl, ?_⟩, ⟨rfl, ?_⟩, rfl,
    ⟨?_, rfl, List.mem_cons_self⟩, ⟨_, rfl, rfl, ?_⟩,
    ⟨_, rfl, rfl, ?_⟩, ⟨_, rfl, rfl⟩, ⟨_, rfl, _, rfl, rfl⟩, ⟨_, rfl, _, rfl, rfl, rfl⟩,
    ⟨_, rfl, _, rfl, rfl, ?_⟩, ⟨_, rfl, _, rfl, _, rfl⟩, ⟨_, rfl, _, rfl, _, rfl, rfl, rfl⟩,
    ⟨_, rfl, _, rfl, rfl, rfl⟩, trivial⟩
  all_goals exact of_decide_eq_true rfl

/-- A start succeeds from whatever the last process has left. -/
theorem boot_runs {s : State} (hoff : s.proc.main = .off) :
    (Pipeline.machine env).Runs s boot := by
  refine ⟨⟨hoff, ?_, ?_⟩, ⟨0, _, rfl, rfl, rfl⟩, ⟨0, rfl⟩, rfl, ⟨rfl, ?_⟩, rfl, trivial⟩
  all_goals exact of_decide_eq_true rfl

theorem runs : (Pipeline.machine env).Runs state trace := by
  have h : (Pipeline.machine env).Runs state
      (boot ++ (committing ++ (gitWork.drop 10 ++ testing))) := by
    refine Machine.runs_append.mpr ⟨boot_runs rfl, Machine.runs_append.mpr
      ⟨committing_runs config _ _ _,
        ⟨_, rfl, _, rfl, _, _, _, rfl, KvTree.Leaf.reads_whole ?_⟩,
        ⟨_, rfl, _, rfl, _, _, _, rfl, ?_, ?_⟩, ⟨_, rfl, _, rfl, _, _, _, rfl, ?_⟩,
        ⟨_, rfl, _, rfl, _, _, rfl, rfl, rfl⟩,
        ⟨_, rfl, _, rfl, _, rfl⟩, ⟨_, rfl, _, rfl, rfl⟩, ⟨_, rfl, rfl⟩,
        ⟨_, rfl, KvTree.Leaf.reads_whole ?_⟩, ⟨_, rfl, ?_⟩, rfl,
        ⟨rfl, ?_⟩, rfl, ⟨List.mem_cons_self, rfl⟩, ⟨List.mem_cons_self, _, _, rfl⟩,
        ⟨List.mem_cons_self, _, rfl, rfl⟩, ⟨List.mem_cons_self, rfl⟩, trivial⟩⟩
    all_goals decide
  exact h

theorem execution : (Pipeline.machine env).Execution state trace final := runs.execution

end Sample

end Snowpatch
