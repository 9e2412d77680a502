import Snowpatch.RunnerStage
import Snowpatch.GitStage

/-! What the position of `main` says about the loops: which of them have been spawned, and
that nothing of a process is left once it has stopped. Every runner has the same handle, so
every branch is in the trees of that handle. -/
namespace Snowpatch.Startup

open Pipeline

/-- How many watchers `main` has spawned. -/
def spawned (p : Process) : ℕ :=
  match p.main with
  | .off | .init _ | .smokeTest _ => 0
  | .spawning k => k
  | .idle | .scanning => p.config.runners.length

structure Booted (p : Process) : Prop where
  off_stopped : p.main = .off → p = Process.stopped
  watchers_off : ∀ j, spawned p ≤ j → p.watcher j = .off
  watchers_on : ∀ j, j < spawned p → p.watcher j ≠ .off
  spawned_le : spawned p ≤ p.config.runners.length
  ingest_on : p.main ≠ .off → p.ingest ≠ .off
  dispatch_on : p.main = .idle ∨ p.main = .scanning → p.dispatch ≠ .off

theorem booted_stopped : Booted Process.stopped := by
  constructor <;> simp [Process.stopped, spawned]

theorem booted_launched (config : Config) (threads : ℕ) :
    Booted (Process.launched config threads) := by
  constructor <;> simp [Process.launched, Process.stopped, spawned]

theorem watcher_notify_eq_off {pc : Watcher.Pc} : pc.notify = .off ↔ pc = .off := by
  cases pc <;> simp [Watcher.Pc.notify]

theorem ingest_notify_eq_off {pc : Ingest.Pc} : pc.notify = .off ↔ pc = .off := by
  cases pc <;> simp [Ingest.Pc.notify]

theorem dispatch_notify_eq_off {pc : Dispatch.Pc} : pc.notify = .off ↔ pc = .off := by
  cases pc <;> simp [Dispatch.Pc.notify]

theorem Booted.kept {p p' : Process} (h : Booted p) (hrun : p.main ≠ .off)
    (hmain : p'.main = p.main) (hconfig : p'.config = p.config)
    (hwatcher : ∀ j, p'.watcher j = .off ↔ p.watcher j = .off)
    (hingest : p'.ingest = .off ↔ p.ingest = .off)
    (hdispatch : p'.dispatch = .off ↔ p.dispatch = .off) : Booted p' := by
  have hs : spawned p' = spawned p := by simp [spawned, hmain, hconfig]
  refine ⟨fun ho => absurd (hmain ▸ ho) hrun, fun j hj => (hwatcher j).mpr ?_, ?_, ?_,
    fun _ ho => h.ingest_on hrun (hingest.mp ho), ?_⟩
  · exact h.watchers_off j (hs ▸ hj)
  · intro j hj ho
    exact h.watchers_on j (hs ▸ hj) ((hwatcher j).mp ho)
  · rw [hs, hconfig]
    exact h.spawned_le
  · intro hm ho
    exact h.dispatch_on (hmain ▸ hm) (hdispatch.mp ho)

section Off

variable {env : Env} {s : State}

theorem ingest_ne_off {d : Ingest.State} {e : Ingest.Event} (he : Ingest.Enabled d e) :
    d.pc ≠ .off ∧ Ingest.nextPc d.pc e ≠ .off := by
  cases e with
  | ready =>
    have hpc : d.pc = .initWorktrees := he
    simp [Ingest.nextPc, hpc]
  | spawn id =>
    have hpc : d.pc = .spawning id := he
    simp [Ingest.nextPc, hpc]
  | move => simp [Ingest.nextPc, he.1]
  | read | take | ends =>
    obtain ⟨cursor, hpc, _⟩ := he
    simp [Ingest.nextPc, hpc]
  | wait e =>
    obtain ⟨w, hpc, _⟩ := he
    cases hn : w.next e <;> simp [Ingest.nextPc, hpc, hn]

theorem watcher_ne_off {d : Watcher.State} {e : Watcher.Event}
    (he : Watcher.Enabled gitHubHandle d e) : d.pc ≠ .off ∧ Watcher.nextPc d.pc e ≠ .off := by
  cases e with
  | startWork branch =>
    have hpc : d.pc = .starting branch := he
    simp [Watcher.nextPc, hpc]
  | spawn branch =>
    have hpc : d.pc = .spawning branch := he
    simp [Watcher.nextPc, hpc]
  | move => simp [Watcher.nextPc, he.1]
  | read | take | ends =>
    obtain ⟨cursor, hpc, _⟩ := he
    simp [Watcher.nextPc, hpc]
  | wait e =>
    obtain ⟨w, hpc, _⟩ := he
    cases hn : w.next e <;> simp [Watcher.nextPc, hpc, hn]

theorem dispatch_ne_off {token : Option String} {lastPatch : SeriesId → Option PatchId}
    {d : Dispatch.State} {e : Dispatch.Event} (he : Dispatch.Enabled token lastPatch d e) :
    d.pc ≠ .off ∧ Dispatch.nextPc d e ≠ .off := by
  constructor
  · intro ho
    cases e <;> simp [Dispatch.Enabled, ho] at he
  · intro ho
    rcases Dispatch.nextPc_cases he with ⟨_, _, _, _, hn⟩ |
      ⟨_, _, _, _, _, _, _, _, _, _, hn⟩ | ⟨_, _, _, _, _, _, _, hn⟩ | hn
    · cases hn.symm.trans ho
    · cases hn.symm.trans ho
    · cases hn.symm.trans ho
    · rw [ho] at hn
      exact hn

theorem running_of_enabled {e : Event} (h : Booted s.proc) (he : Enabled env s e) :
    s.proc.main ≠ .off ∨ (∃ config threads, e = .start config threads) ∨
      (∃ target, e = .moveMaster target) ∨ ∃ patch check, e = .otherCheck patch check := by
  by_cases ho : s.proc.main = .off
  · refine Or.inr ?_
    have hp := h.off_stopped ho
    cases e with
    | start config threads => exact Or.inl ⟨config, threads, rfl⟩
    | moveMaster target => exact Or.inr (Or.inl ⟨target, rfl⟩)
    | otherCheck patch check => exact Or.inr (Or.inr ⟨patch, check, rfl⟩)
    | stop => exact absurd ho he
    | main e => cases e <;> simp [Enabled, mainEnabled, hp, Process.stopped] at he
    | scan e => cases e <;> simp [Enabled, Watchcat.Enabled, hp, Process.stopped,
        Scan.start] at he
    | ingest e => exact absurd (congrArg Process.ingest hp) (ingest_ne_off he).1
    | begin i id => simp [Enabled, hp, Process.stopped] at he
    | worker i id e => simp [Enabled, hp, Process.stopped] at he
    | watcher k e =>
      exact absurd (congrFun (congrArg Process.watcher hp) k) (watcher_ne_off he).1
    | wait t e => simp [Enabled, hp, Process.stopped] at he
    | dispatch e => exact absurd (congrArg Process.dispatch hp) (dispatch_ne_off he).1
  · exact Or.inl ho

theorem Booted.main {p p' : Process} (h : Booted p) (hrun : p.main ≠ .off)
    (hrun' : p'.main ≠ .off) (hs : spawned p' = spawned p) (hconfig : p'.config = p.config)
    (hwatcher : p'.watcher = p.watcher) (hingest : p'.ingest = p.ingest)
    (hdispatch : p'.main = .idle ∨ p'.main = .scanning → p'.dispatch ≠ .off) : Booted p' where
  off_stopped := fun ho => absurd ho hrun'
  watchers_off := fun j hj => hwatcher ▸ h.watchers_off j (hs ▸ hj)
  watchers_on := fun j hj => hwatcher ▸ h.watchers_on j (hs ▸ hj)
  spawned_le := by
    rw [hs, hconfig]
    exact h.spawned_le
  ingest_on := fun _ => hingest ▸ h.ingest_on hrun
  dispatch_on := hdispatch

theorem booted_main {e : MainEvent} (h : Booted s.proc) (he : Enabled env s (.main e)) :
    Booted (next env s (.main e)).proc := by
  have hrun : s.proc.main ≠ .off :=
    (running_of_enabled h he).resolve_right (by simp)
  cases e with
  | insertRemote remote =>
    obtain ⟨k, r, hm, _⟩ := he
    refine h.main hrun ?_ ?_ rfl rfl rfl ?_ <;> simp [next, mainNext, hm, spawned]
  | smokeTest =>
    obtain ⟨k, hm⟩ := he
    refine h.main hrun ?_ ?_ rfl rfl rfl ?_ <;> simp [next, mainNext, hm, spawned]
  | initDone =>
    have hm : s.proc.main = .init s.proc.config.runners.length := he
    refine h.main hrun ?_ ?_ rfl rfl rfl ?_ <;> simp [next, mainNext, hm, spawned]
  | connect =>
    have hm : s.proc.main = .spawning s.proc.config.runners.length := he
    refine h.main hrun ?_ ?_ rfl rfl rfl ?_ <;> simp [next, mainNext, hm, spawned]
  | beginScan page =>
    have hm : s.proc.main = .idle := he.1
    refine h.main hrun ?_ ?_ rfl rfl rfl fun _ => h.dispatch_on (Or.inl hm) <;>
      simp [next, mainNext, hm, spawned]
  | endScan =>
    have hm : s.proc.main = .scanning := he.1
    refine h.main hrun ?_ ?_ rfl rfl rfl fun _ => h.dispatch_on (Or.inr hm) <;>
      simp [next, mainNext, hm, spawned]
  | spawnWatcher k =>
    obtain ⟨hm, hk⟩ := he
    have hs : spawned s.proc = k := by simp [spawned, hm]
    refine ⟨by simp [next, mainNext], ?_, ?_, ?_, fun _ => h.ingest_on hrun,
      by simp [next, mainNext]⟩
    · intro j hj
      have hj' : k + 1 ≤ j := hj
      have hjk : j ≠ k := by omega
      simp only [next, mainNext, Function.update_of_ne hjk]
      exact h.watchers_off j (by omega)
    · intro j hj
      have hj' : j < k + 1 := hj
      by_cases hjk : j = k
      · simp [next, mainNext, hjk]
      · simp only [next, mainNext, Function.update_of_ne hjk]
        exact h.watchers_on j (by omega)
    · exact hk

/-- A watcher is spawned once. -/
theorem off_of_spawn {k : ℕ} (h : Booted s.proc) (he : Enabled env s (.main (.spawnWatcher k))) :
    s.proc.watcher k = .off := by
  have hm : s.proc.main = .spawning k := he.1
  exact h.watchers_off k (by simp [spawned, hm])

theorem booted_step {e : Event} (h : Booted s.proc) (he : Enabled env s e) :
    Booted (next env s e).proc := by
  have hrun := running_of_enabled h he
  cases e with
  | start config threads => exact booted_launched config threads
  | stop => exact booted_stopped
  | main e => exact booted_main h he
  | moveMaster | otherCheck => exact h
  | scan e =>
    refine h.kept (hrun.resolve_right (by simp)) rfl rfl (fun _ => Iff.rfl) ?_ Iff.rfl
    cases e with
    | queue l => exact ingest_notify_eq_off
    | _ => exact Iff.rfl
  | ingest e =>
    obtain ⟨hoff, hoff'⟩ := ingest_ne_off he
    exact h.kept (hrun.resolve_right (by simp)) rfl rfl (fun _ => Iff.rfl)
      (iff_of_false hoff' hoff) Iff.rfl
  | begin i id =>
    exact h.kept (hrun.resolve_right (by simp)) rfl rfl (fun _ => Iff.rfl) Iff.rfl Iff.rfl
  | worker i id e =>
    obtain ⟨pc, hi, _⟩ := he
    obtain ⟨w, hw, hn⟩ := workerNext_proc env id hi e
    rw [hw]
    refine h.kept (hrun.resolve_right (by simp)) rfl rfl ?_ Iff.rfl Iff.rfl
    intro j
    rcases hn j with hj | hj <;> simp [hj, watcher_notify_eq_off]
  | watcher k e =>
    obtain ⟨hoff, hoff'⟩ := watcher_ne_off he
    obtain ⟨w, hw, hn⟩ := watcherNext_proc env s k e
    rw [hw]
    refine h.kept (hrun.resolve_right (by simp)) rfl rfl ?_ Iff.rfl Iff.rfl
    intro j
    by_cases hjk : j = k
    · subst hjk
      simpa using iff_of_false hoff' hoff
    · simp only [Function.update_of_ne hjk]
      rcases hn j with hj | hj <;> simp [hj, watcher_notify_eq_off]
  | wait t e =>
    refine h.kept (hrun.resolve_right (by simp)) rfl rfl (fun _ => Iff.rfl) Iff.rfl ?_
    cases e with
    | report job =>
      simp only [next, waitNext]
      split
      · exact Iff.rfl
      · exact dispatch_notify_eq_off
    | _ => exact Iff.rfl
  | dispatch e =>
    obtain ⟨hoff, hoff'⟩ := dispatch_ne_off he
    exact h.kept (hrun.resolve_right (by simp)) rfl rfl (fun _ => Iff.rfl) Iff.rfl
      (iff_of_false hoff' hoff)

theorem config_next {e : Event} (hstart : ∀ config threads, e ≠ .start config threads)
    (hstop : e ≠ .stop) : (next env s e).proc.config = s.proc.config := by
  cases e with
  | start config threads => exact absurd rfl (hstart config threads)
  | stop => exact absurd rfl hstop
  | main e => cases e <;> rfl
  | worker i id e =>
    cases hi : s.proc.thread i with
    | none => simp [next, workerNext, hi]
    | some x =>
      obtain ⟨w, hw, _⟩ := workerNext_proc env id hi e
      rw [hw]
  | watcher k e =>
    obtain ⟨w, hw, _⟩ := watcherNext_proc env s k e
    rw [hw]
  | scan | ingest | begin | wait | dispatch | moveMaster | otherCheck => rfl

theorem threads_next {e : Event} (hstart : ∀ config threads, e ≠ .start config threads)
    (hstop : e ≠ .stop) : (next env s e).proc.threads = s.proc.threads := by
  cases e with
  | start config threads => exact absurd rfl (hstart config threads)
  | stop => exact absurd rfl hstop
  | main e => cases e <;> rfl
  | worker i id e =>
    cases hi : s.proc.thread i with
    | none => simp [next, workerNext, hi]
    | some x =>
      obtain ⟨w, hw, _⟩ := workerNext_proc env id hi e
      rw [hw]
  | watcher k e =>
    obtain ⟨w, hw, _⟩ := watcherNext_proc env s k e
    rw [hw]
  | scan | ingest | begin | wait | dispatch | moveMaster | otherCheck => rfl

/-- Only a start sets a process running. -/
theorem running_before {e : Event} (hb : Booted s.proc) (he : Enabled env s e)
    (hstart : ∀ config threads, e ≠ .start config threads)
    (hrun : (next env s e).proc.main ≠ .off) : s.proc.main ≠ .off := by
  intro hoff
  rcases running_of_enabled hb he with hr | ⟨config, threads, hs⟩ | ⟨_, rfl⟩ | ⟨_, _, rfl⟩
  · exact hr hoff
  · exact hstart config threads hs
  · exact hrun hoff
  · exact hrun hoff

/-- What every start guarantees of its configuration holds while a process runs. -/
theorem config_step {P : Config → Prop} {e : Event} (hb : Booted s.proc)
    (h : s.proc.main ≠ .off → P s.proc.config) (he : Enabled env s e)
    (hstart : ∀ config threads, e = .start config threads → P config)
    (hrun : (next env s e).proc.main ≠ .off) : P (next env s e).proc.config := by
  by_cases hs : ∃ config threads, e = .start config threads
  · obtain ⟨config, threads, rfl⟩ := hs
    exact hstart config threads rfl
  · have hno : ∀ config threads, e ≠ .start config threads := fun c n hx => hs ⟨c, n, hx⟩
    have hstop : e ≠ .stop := by
      rintro rfl
      exact hrun rfl
    rw [config_next hno hstop]
    exact h (running_before hb he hno hrun)

theorem execution_booted {s₀ : State} {tr : List Event} (hx : (machine env).Execution s₀ tr s)
    (h₀ : Initial s₀) : Booted s.proc := by
  refine hx.invariant (I := fun s => Booted s.proc) ?_ fun s e h he => booted_step h he
  rw [h₀.not_running]
  exact booted_stopped

theorem execution_config {P : Config → Prop} {C : State → Event → Prop} {s₀ : State}
    {tr : List Event} (hstart : ∀ s config threads, C s (.start config threads) → P config)
    (hx : ((machine env).restrict C).Execution s₀ tr s) (h₀ : Initial s₀) :
    s.proc.main ≠ .off → P s.proc.config := by
  refine hx.history (I := fun _ s => s.proc.main ≠ .off → P s.proc.config) ?_
    fun tr s e hx h he => config_step (execution_booted hx.of_restrict h₀) h he.1 ?_
  · rw [h₀.not_running]
    exact absurd rfl
  · rintro config threads rfl
    exact hstart s config threads he.2

end Off

/-- All remotes, listed pairs and branch trees are those of the one handle. -/
structure Handles (s : State) : Prop where
  remotes : ∀ remote runner, Finmap.lookup remote s.db.remotesToPushTo = some runner →
    runner = gitHubHandle
  tasks : ∀ i id pc, s.proc.thread i = some (id, .working pc) → ∀ p ∈ pc.runners,
    p.2 = gitHubHandle
  leaves : ∀ i id leaf cursor runners,
    s.proc.thread i = some (id, .working (.listing leaf cursor runners)) → ∀ remote runner,
      Finmap.lookup remote leaf.entries = some runner → runner = gitHubHandle
  trees : ∀ t b, b ∈ s.db.branches t → t = .queue gitHubHandle ∨ t = .working gitHubHandle

section Handles

variable {env : Env} {s : State}

theorem remotes_elsewhere {e : Event} (h : ∀ remote, e ≠ .main (.insertRemote remote)) :
    (next env s e).db.remotesToPushTo = s.db.remotesToPushTo := by
  cases e with
  | main e => cases e with
    | insertRemote remote => exact absurd rfl (h remote)
    | smokeTest | initDone | spawnWatcher | connect | beginScan | endScan => rfl
  | scan e =>
    obtain ⟨seen, series, hdb⟩ := Watchcat.next_db ⟨s.db, s.proc.scan⟩ e
    simp [next, scanNext, hdb]
  | ingest e => cases e with
    | move id =>
      obtain ⟨series, hdb⟩ := s.db.moveToNewQueue_eq .needsTesting .awaitingGitWorker id
      simp [next, ingestNext, Ingest.next, hdb]
    | ready | read | take | ends | spawn | wait => rfl
  | worker i id e =>
    simp only [next, workerNext]
    split
    · rfl
    · next a pc hi =>
      by_cases hq : ∀ r n, e ≠ .work (.queue r n)
      · obtain ⟨series, hdb⟩ := Worker.nextDb_elsewhere i id ⟨s.db, s.git, pc⟩ hq
        simp [hdb]
      · push Not at hq
        obtain ⟨r, n, rfl⟩ := hq
        rfl
  | watcher k e => cases e with
    | move branch =>
      obtain ⟨branches, hdb⟩ := s.db.moveBranch_eq (.queue gitHubHandle)
        (.working gitHubHandle) branch
      simp [next, watcherNext, Watcher.nextDb, hdb]
    | read | take | ends | startWork | spawn | wait => rfl
  | wait t e =>
    obtain ⟨branches, entries, hdb⟩ := Completion.nextDb_eq gitHubHandle s.db t e
    simp [next, waitNext, hdb]
  | dispatch e =>
    obtain ⟨entries, hdb⟩ := Dispatch.nextDb_elsewhere s.db e
    simp [next, dispatchNext, Dispatch.next, hdb]
  | start | stop | begin | moveMaster | otherCheck => rfl

theorem Handles.queued_for (h : Handles s) {i : ℕ} {id : SeriesId} {r n : String}
    (he : Enabled env s (.worker i id (.work (.queue r n)))) : n = gitHubHandle := by
  obtain ⟨_, hi, q, rfl, rest, hq⟩ := he
  refine h.tasks i id q hi (r, n) ?_
  have hpc : q = .queueing r n rest := hq
  rw [hpc]
  exact List.mem_cons_self

theorem handles_step {e : Event} (h : Handles s) (he : Enabled env s e) :
    Handles (next env s e) := by
  refine ⟨?_, ?_, ?_, ?_⟩
  · intro remote runner hr
    by_cases hm : ∀ remote, e ≠ .main (.insertRemote remote)
    · exact h.remotes remote runner (remotes_elsewhere hm ▸ hr)
    · push Not at hm
      obtain ⟨a, rfl⟩ := hm
      simp only [next, mainNext, KvTree.lookup_insert_eq_ite] at hr
      split at hr
      · exact (Option.some.inj hr).symm
      · exact h.remotes remote runner hr
  · intro i id pc hi p hp
    rcases GitStage.working_cases he hi with ⟨hold, _⟩ | ⟨_, rfl⟩ | ⟨q, we, rfl, hold, hen, rfl⟩
    · exact h.tasks i id pc hold p hp
    · cases hp
    · rcases DoWork.mem_runners_nextPc hen hp with hp | rfl
      · exact h.tasks i id q hold p hp
      · obtain ⟨leaf, _, _, hpc, _, hlookup⟩ := hen
        obtain rfl : q = .listing leaf _ _ := hpc
        exact h.leaves i id leaf _ _ hold _ _ hlookup
  · intro i id leaf cursor runners hi remote runner hlookup
    rcases GitStage.working_cases he hi with ⟨hold, _⟩ | ⟨_, hx⟩ | ⟨q, we, rfl, hold, hen, hpc⟩
    · exact h.leaves i id leaf cursor runners hold remote runner hlookup
    · cases hx
    · rcases DoWork.leaf_cases hen hpc.symm with rfl | ⟨cursor', runners', rfl⟩ |
        ⟨old, found, _, _, hreads⟩
      · exact absurd (Finmap.mem_of_lookup_eq_some hlookup) Finmap.notMem_empty
      · exact h.leaves i id leaf _ _ hold remote runner hlookup
      · exact h.remotes remote runner (hreads.lookup hlookup)
  · intro t b hb
    rcases RunnerStage.mem_branches_next he hb with hb | ⟨i, id, r, n, rfl, _, rfl⟩ | ⟨k, _, rfl⟩
    · exact h.trees t b hb
    · exact Or.inl (by rw [h.queued_for he])
    · exact Or.inr rfl

theorem execution_handles {s₀ : State} {tr : List Event}
    (hx : (machine env).Execution s₀ tr s) (h₀ : Initial s₀) : Handles s := by
  refine hx.invariant ?_ fun s e h he => handles_step h he
  refine ⟨?_, ?_, ?_, ?_⟩
  · intro remote runner hr
    rw [h₀.db_empty] at hr
    cases hr
  · intro i id pc hi
    rw [h₀.not_running] at hi
    cases hi
  · intro i id leaf cursor runners hi
    rw [h₀.not_running] at hi
    cases hi
  · intro t b hb
    rw [h₀.db_empty] at hb
    exact absurd hb Finmap.notMem_empty

end Handles

end Snowpatch.Startup
