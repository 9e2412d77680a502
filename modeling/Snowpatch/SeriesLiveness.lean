import Snowpatch.WorkLiveness
import Snowpatch.WatcherLiveness

/-! The way of a series through all of the program: from "needs testing" through the git pool
and a worker to the queue of the runners, and from there to the runner's answers. Where no part
is kept from its steps, a series comes to the end of it or fails. -/
namespace Snowpatch.SeriesLiveness

open Pipeline Liveness WorkLiveness WatcherLiveness

variable {env : Env} {s s₀ : State} {e : Event} {i : ℕ} {id : SeriesId} {remote : String}

section Remotes

/-- From the first runner on, `main` has a remote to push to. -/
def Registered (s : State) : Prop :=
  s.proc.main = .off ∨ s.proc.main = .init 0 ∨ s.proc.config.runners = [] ∨
    ∃ remote, remote ∈ s.db.remotesToPushTo

theorem mem_remotes_next (env : Env) (e : Event)
    (h : remote ∈ s.db.remotesToPushTo) : remote ∈ (next env s e).db.remotesToPushTo := by
  by_cases hinsert : ∀ remote, e ≠ .main (.insertRemote remote)
  · rw [Startup.remotes_elsewhere hinsert]
    exact h
  · push Not at hinsert
    obtain ⟨a, rfl⟩ := hinsert
    exact Finmap.mem_insert.mpr (Or.inr h)

theorem registered_step (hb : Startup.Booted s.proc) (h : Registered s) (he : Enabled env s e) :
    Registered (next env s e) := by
  by_cases hstart : ∃ config threads, e = .start config threads
  · obtain ⟨config, threads, rfl⟩ := hstart
    exact Or.inr (Or.inl rfl)
  push Not at hstart
  by_cases hstop : e = .stop
  · exact Or.inl (hstop ▸ rfl)
  by_cases hinsert : ∃ remote, e = .main (.insertRemote remote)
  · obtain ⟨remote, rfl⟩ := hinsert
    exact Or.inr (Or.inr (Or.inr ⟨remote, Finmap.mem_insert.mpr (Or.inl rfl)⟩))
  push Not at hinsert
  have hconfig : (next env s e).proc.config = s.proc.config := Startup.config_next hstart hstop
  rcases h with hoff | hinit | hnone | ⟨remote, hr⟩
  · rcases Startup.running_of_enabled hb he with hrun | ⟨config, threads, rfl⟩ | ⟨_, rfl⟩ |
      ⟨_, _, rfl⟩
    · exact absurd hoff hrun
    · exact absurd rfl (hstart config threads)
    · exact Or.inl hoff
    · exact Or.inl hoff
  · rcases main_next he (by simp [hinit]) hstop with ⟨m, rfl⟩ | hm
    · cases m with
      | insertRemote remote => exact absurd rfl (hinsert remote)
      | initDone =>
        have hm : s.proc.main = .init s.proc.config.runners.length := he
        have hlength : 0 = s.proc.config.runners.length :=
          MainPc.init.inj (hinit.symm.trans hm)
        refine Or.inr (Or.inr (Or.inl ?_))
        rw [hconfig]
        exact List.length_eq_zero_iff.mp hlength.symm
      | smokeTest =>
        obtain ⟨k, hm⟩ := he
        cases hinit.symm.trans hm
      | spawnWatcher | beginScan | endScan => cases hinit.symm.trans he.1
      | connect => cases hinit.symm.trans he
    · exact Or.inr (Or.inl (hm.trans hinit))
  · exact Or.inr (Or.inr (Or.inl (hconfig ▸ hnone)))
  · exact Or.inr (Or.inr (Or.inr ⟨remote, mem_remotes_next env e hr⟩))

theorem execution_registered {tr : List Event} (hx : (machine env).Execution s₀ tr s)
    (h₀ : Initial s₀) : Registered s := by
  refine hx.history (I := fun _ s => Registered s) ?_ fun tr s e hx h he =>
    registered_step (Startup.execution_booted hx h₀) h he
  rw [Registered, h₀.not_running]
  exact Or.inl rfl

end Remotes

section Work

/-- This `do_work` returns an error, or it queues the series before it returns: its listing is
still to come to the remote. -/
def GoingToQueue (remote : String) : DoWork.Pc → Prop
  | .listing leaf cursor runners => runners = [] → leaf.Ahead cursor remote
  | .pushing runners => runners ≠ []
  | .returned ok => ok = false
  | .opening | .resetting | .reading | .downloading _ | .applying _ | .fallback _
  | .reopening | .committing | .queueing _ _ _ => True

theorem goingToQueue_setUp {pc : DoWork.Pc} (h : pc.SetUp) : GoingToQueue remote pc := by
  cases pc with
  | listing | pushing | queueing | returned => exact h.elim
  | _ => trivial

theorem goingToQueue_next {d : DoWork.State} {we : DoWork.Event}
    (hremote : remote ∈ d.db.remotesToPushTo)
    (he : DoWork.Enabled env.apply i id d we) (h : GoingToQueue remote d.pc) :
    (∃ r n, we = .queue r n) ∨ GoingToQueue remote (DoWork.nextPc d.pc we) := by
  obtain ⟨db, git, pc⟩ := d
  have hmoves := DoWork.moves he
  have h : GoingToQueue remote pc := h
  generalize DoWork.nextPc pc we = pc' at hmoves
  cases hmoves with
  | setUp _ _ hpc' => exact Or.inr (goingToQueue_setUp hpc')
  | fail | breaks => exact Or.inr rfl
  | commit => exact Or.inr fun _ => KvTree.Leaf.ahead_start remote
  | readRemotes hreads => exact Or.inr fun hnil => hreads.ahead hremote (h hnil)
  | nextRunner => exact Or.inr fun hnil => absurd hnil (by simp)
  | listed hend => exact Or.inr fun hnil => hend.not_ahead hremote (h hnil)
  | push => exact Or.inr trivial
  | @queue remote runner rest => exact Or.inl ⟨remote, runner, rfl⟩
  | finish => exact absurd rfl h

def Unqueued (remote : String) : Worker.Pc → Prop
  | .working pc => GoingToQueue remote pc
  | .checking | .waiting _ | .movingIn | .moved => True

structure InWork (i : ℕ) (id : SeriesId) (remote : String) (s : State) : Prop where
  thread : ∃ pc, s.proc.thread i = some (id, pc) ∧ Unqueued remote pc
  scans : s.proc.main = .idle ∨ s.proc.main = .scanning
  runners : s.proc.config.runners.length = 1
  registered : remote ∈ s.db.remotesToPushTo

def EndsWork (i : ℕ) (id : SeriesId) (e : Event) : Prop :=
  (∃ r n, e = .worker i id (.work (.queue r n))) ∨ e = .worker i id .moveToFailures ∨ e = .stop

theorem unqueued_next {w : Worker.State} {we : Worker.Event}
    (hremote : remote ∈ w.db.remotesToPushTo)
    (he : Worker.Enabled env.apply i id w we) (h : Unqueued remote w.pc) :
    ((∃ r n, we = .work (.queue r n)) ∨ we = .moveToFailures) ∨
      ∃ pc, Worker.nextPc w.pc we = some pc ∧ Unqueued remote pc := by
  obtain ⟨db, git, pc⟩ := w
  have h : Unqueued remote pc := h
  cases we with
  | busy | free | moveIn => exact Or.inr ⟨_, rfl, trivial⟩
  | startWork => exact Or.inr ⟨_, rfl, trivial⟩
  | wait e =>
    obtain ⟨v, rfl, _⟩ := he
    cases hn : v.next e with
    | none => exact Or.inr ⟨.checking, by simp [Worker.nextPc, hn], trivial⟩
    | some v' => exact Or.inr ⟨.waiting v', by simp [Worker.nextPc, hn], trivial⟩
  | work e =>
    obtain ⟨pc, rfl, hwork⟩ := he
    rcases goingToQueue_next hremote hwork h with ⟨r, n, rfl⟩ | hpc
    · exact Or.inl (Or.inl ⟨r, n, rfl⟩)
    · exact Or.inr ⟨_, rfl, hpc⟩
  | remove =>
    obtain rfl : pc = .working (.returned true) := he
    cases h
  | moveToFailures => exact Or.inl (Or.inr rfl)

theorem inWork_next (h : InWork i id remote s) (he : Enabled env s e) :
    EndsWork i id e ∨ InWork i id remote (next env s e) := by
  by_cases hends : EndsWork i id e
  · exact Or.inl hends
  have hstop : e ≠ .stop := fun hs => hends (Or.inr (Or.inr hs))
  have hrun : s.proc.main ≠ .off := by
    rcases h.scans with hm | hm <;> simp [hm]
  have hstart : ∀ config threads, e ≠ .start config threads := by
    rintro config threads rfl
    exact hrun he.1
  have hthread : ∃ pc, (next env s e).proc.thread i = some (id, pc) ∧ Unqueued remote pc := by
    obtain ⟨pc, hi, hpc⟩ := h.thread
    by_cases hown : ∃ a we, e = .worker i a we
    · obtain ⟨a, we, rfl⟩ := hown
      obtain ⟨q, hq, hwe⟩ := he
      obtain ⟨rfl, rfl⟩ := Prod.mk.inj (Option.some.inj (hi.symm.trans hq))
      rcases unqueued_next h.registered hwe hpc with (⟨r, n, rfl⟩ | rfl) | ⟨pc', hnext, hpc'⟩
      · exact absurd (Or.inl ⟨r, n, rfl⟩) hends
      · exact absurd (Or.inr (Or.inl rfl)) hends
      · have hnext : Worker.nextPc pc we = some pc' := hnext
        obtain ⟨w, hproc, _⟩ := workerNext_proc env id hi we
        refine ⟨pc', ?_, hpc'⟩
        rw [hproc, hnext]
        exact Function.update_self ..
    · push Not at hown
      refine ⟨pc, ?_, hpc⟩
      rw [WorkerLoop.thread_elsewhere he hown ?_ hstart hstop]
      · exact hi
      · rintro a rfl
        cases hi.symm.trans he.2.1
  refine Or.inr ⟨hthread, scans_next h.scans he hstop, ?_, mem_remotes_next env e h.registered⟩
  rw [Startup.config_next hstart hstop]
  exact h.runners

/-- A series on a thread is queued for a runner or fails, unless the process stops. -/
theorem work_queues (ρ : (machine env).Run s₀) (h₀ : Initial s₀) (hfair : ρ.Fair (IsWorker i))
    {n : ℕ} (hs : Serving (ρ.state n)) (h : InWork i id remote (ρ.state n)) :
    ∃ m, n ≤ m ∧ InWork i id remote (ρ.state m) ∧ EndsWork i id (ρ.event m) := by
  obtain ⟨pc, hi, _⟩ := h.thread
  obtain ⟨m, hm, hends⟩ := task_returns ρ h₀ hfair hi (hs.clear hi)
  rcases ρ.stays (I := fun _ => True) (fun s e _ h he => inWork_next h he) (fun _ => trivial) hm h
    with ⟨l, hl, _, hIl, hgoal⟩ | hIm
  · exact ⟨l, hl, hIl, hgoal⟩
  · refine ⟨m, hm, hIm, ?_⟩
    rcases hends with hremove | hends
    · obtain ⟨pc, hi, hpc⟩ := hIm.thread
      have hen : Enabled env (ρ.state m) (.worker i id .remove) := hremove ▸ ρ.enabled m
      obtain ⟨q, hq, hret⟩ := hen
      obtain ⟨_, rfl⟩ := Prod.mk.inj (Option.some.inj (hi.symm.trans hq))
      obtain rfl : pc = .working (.returned true) := hret
      cases hpc
    · exact Or.inr hends

end Work

section Whole

open DispatchLiveness (IsWait)

/-- The process has come to its scans, and it has one runner. -/
def Tests (p : Process) : Prop :=
  (p.main = .idle ∨ p.main = .scanning) ∧ p.config.runners.length = 1

theorem tests_next (h : Tests s.proc) (he : Enabled env s e) (hstop : e ≠ .stop) :
    Tests (next env s e).proc := by
  have hstart : ∀ config threads, e ≠ .start config threads := by
    rintro config threads rfl
    have hoff : s.proc.main = .off := he.1
    rcases h.1 with hm | hm <;> cases hm.symm.trans hoff
  refine ⟨scans_next h.1 he hstop, ?_⟩
  rw [Startup.config_next hstart hstop]
  exact h.2

theorem Tests.remotes {p : State} (h : Tests p.proc) (hr : Registered p) :
    ∃ remote, remote ∈ p.db.remotesToPushTo := by
  rcases hr with hm | hm | hnone | hr
  · rcases h.1 with h | h <;> cases h.symm.trans hm
  · rcases h.1 with h | h <;> cases h.symm.trans hm
  · have hone := h.2
    rw [hnone] at hone
    cases hone
  · exact hr

theorem mem_queue_of_queued (hh : Startup.Handles s) {r n : String}
    (he : Enabled env s (.worker i id (.work (.queue r n)))) :
    id.toDecimal ∈ (next env s (.worker i id (.work (.queue r n)))).db.branches
      (.queue gitHubHandle) := by
  obtain rfl := hh.queued_for he
  obtain ⟨w, hw, _⟩ := RunnerStage.view_queue he
  have htrees : (next env s (.worker i id (.work (.queue r gitHubHandle)))).db.branches = _ :=
    congrArg (·.branches) hw
  rw [htrees]
  exact Db.mem_insertBranch.mpr (Or.inl ⟨rfl, rfl⟩)

theorem series_queued (ρ : (machine env).Run s₀) (h₀ : Initial s₀) (hingest : ρ.Fair IsIngest)
    (hpool : ρ.Fair IsBegin) (hworkers : ∀ i, ρ.Fair (IsWorker i))
    (horder : ∀ n, InOrder (ρ.state n) (ρ.event n)) {n : ℕ} (hserving : Serving (ρ.state n))
    (htests : Tests (ρ.state n).proc) (hid : id ∈ (ρ.state n).db.series .needsTesting) :
    ∃ m, n ≤ m ∧ (ρ.event m = .stop ∨ (∃ i, ρ.event m = .worker i id .moveToFailures) ∨
      Tests (ρ.state (m + 1)).proc ∧
        id.toDecimal ∈ (ρ.state (m + 1)).db.branches (.queue gitHubHandle)) := by
  have hkept : ∀ s e, True → Tests s.proc → Enabled env s e →
      e = .stop ∨ Tests (next env s e).proc := by
    intro s e _ h he
    by_cases hstop : e = .stop
    · exact Or.inl hstop
    · exact Or.inr (tests_next h he hstop)
  obtain ⟨l, hl, hstop | ⟨hserving, i, hthread⟩⟩ :=
    series_begins ρ h₀ hingest hpool (hworkers 0) horder hserving hid
  · exact ⟨l, hl, Or.inl hstop⟩
  rcases ρ.stays hkept (fun _ => trivial) (Nat.le_succ_of_le hl) htests with
    ⟨m, hm, _, _, hstop⟩ | htests'
  · exact ⟨m, hm, Or.inl hstop⟩
  obtain ⟨remote, hr⟩ := htests'.remotes (execution_registered (ρ.execution (l + 1)) h₀)
  have hwork : InWork i id remote (ρ.state (l + 1)) :=
    ⟨⟨_, hthread, trivial⟩, htests'.1, htests'.2, hr⟩
  obtain ⟨m, hm, hIm, ⟨r, q, hqueue⟩ | hfailed | hstop⟩ :=
    work_queues ρ h₀ (hworkers i) hserving hwork
  · have hen : Enabled env (ρ.state m) (.worker i id (.work (.queue r q))) :=
      hqueue ▸ ρ.enabled m
    refine ⟨m, hl.trans (Nat.le_of_succ_le hm), Or.inr (Or.inr ?_)⟩
    rw [ρ.step m, hqueue]
    exact ⟨tests_next ⟨hIm.scans, hIm.runners⟩ hen (by simp),
      mem_queue_of_queued (Startup.execution_handles (ρ.execution m) h₀) hen⟩
  · exact ⟨m, hl.trans (Nat.le_of_succ_le hm), Or.inr (Or.inl ⟨i, hfailed⟩)⟩
  · exact ⟨m, hl.trans (Nat.le_of_succ_le hm), Or.inl hstop⟩

/-- Every series is tested. In a run in which no loop, thread or task is kept from its steps,
whose pool keeps the order of its closures and whose process has one runner and has found the
trees of its workers empty, each series in "needs testing" is in the end taken by the watcher,
and the task that is spawned for it asks the runner, unless the work of the series has failed
or the process stops. -/
theorem series_are_tested (ρ : (machine env).Run s₀) (h₀ : Initial s₀)
    (hingest : ρ.Fair IsIngest) (hpool : ρ.Fair IsBegin) (hworkers : ∀ i, ρ.Fair (IsWorker i))
    (hwatchers : ∀ k, ρ.Fair (IsWatcher k)) (hwaits : ∀ t, ρ.Fair (IsWait t))
    (horder : ∀ n, InOrder (ρ.state n) (ρ.event n)) {n : ℕ}
    (hfound : FoundClean env s₀ ((List.range n).map ρ.event)) (htests : Tests (ρ.state n).proc)
    (hid : id ∈ (ρ.state n).db.series .needsTesting) :
    ∃ m, n ≤ m ∧ (ρ.event m = .stop ∨ (∃ i, ρ.event m = .worker i id .moveToFailures) ∨
      ∃ k l jobs, n ≤ l ∧ l < m ∧ ρ.event l = .watcher k (.spawn id.toDecimal) ∧
        ρ.event m = .wait ⟨k, id.toDecimal, [], .polling⟩ (.progress jobs)) := by
  have hrun : (ρ.state n).proc.main ≠ .off := by
    rcases htests.1 with hm | hm <;> simp [hm]
  have hserving := serving_of_found (ρ.execution n) h₀ hfound hrun
  obtain ⟨m, hm, hstop | hfailed | ⟨htests', hqueued⟩⟩ :=
    series_queued ρ h₀ hingest hpool hworkers horder hserving htests hid
  · exact ⟨m, hm, Or.inl hstop⟩
  · exact ⟨m, hm, Or.inr (Or.inl hfailed)⟩
  · have hm : n ≤ m + 1 := Nat.le_succ_of_le hm
    obtain ⟨o, ho, hstop | ⟨k, l, jobs, hl, hlo, hspawn, hasks⟩⟩ :=
      lone_polled ρ h₀ hwatchers hwaits ⟨htests'.1, htests'.2, hqueued⟩
    · exact ⟨o, hm.trans ho, Or.inl hstop⟩
    · exact ⟨o, hm.trans ho, Or.inr (Or.inr ⟨k, l, jobs, hm.trans hl, hlo, hspawn, hasks⟩)⟩

theorem testedTrace_inOrder : ((machine Sample.env).restrict InOrder).Runs Sample.state
    testedTrace := by
  have hsplit : testedTrace = (Sample.boot ++ Sample.discover ++ Sample.ingest) ++
      (Sample.gitWork ++ (Sample.testing ++ testedTrace.drop 41)) := rfl
  have hruns := testedTrace_runs
  rw [hsplit] at hruns ⊢
  refine sample_inOrder hruns ?_
  simp [Sample.testing, testedTrace, Sample.trace, Sample.boot, Sample.discover, Sample.ingest,
    Sample.gitWork]

theorem series_are_tested_sample : ∃ m, 10 ≤ m ∧ (testedRun.event m = .stop ∨
    (∃ i, testedRun.event m = .worker i Sample.id .moveToFailures) ∨
    ∃ k l jobs, 10 ≤ l ∧ l < m ∧ testedRun.event l = .watcher k (.spawn Sample.id.toDecimal) ∧
      testedRun.event m = .wait ⟨k, Sample.id.toDecimal, [], .polling⟩ (.progress jobs)) := by
  have hasleep : ((machine Sample.env).run Sample.state testedTrace).proc.ingest =
      .waiting (.blocked 0) := rfl
  have hpool : ((machine Sample.env).run Sample.state testedTrace).proc.pool = [] := rfl
  have hthread : ∀ i, ((machine Sample.env).run Sample.state testedTrace).proc.thread i = none
    | 0 => rfl
    | _ + 1 => rfl
  refine series_are_tested (n := 10) testedRun Sample.state_initial
    (testedRun_fair fun _ => ingest_asleep hasleep) (testedRun_fair ?_)
    (fun i => testedRun_fair ?_) testedRun_watchers testedRun_waits
    (testedTrace_runs.forever_restrict testedTrace_inOrder (e := .moveMaster _) trivial
      (moveMaster_same Sample.env _) trivial)
    (fun _ => KvTree.isEmpty_iff.mpr fun _ => Finmap.notMem_empty)
    ⟨Or.inr rfl, rfl⟩ (Finmap.mem_keys.mp (of_decide_eq_true rfl))
  · rintro e ⟨i, id, rfl⟩ he
    exact List.not_mem_nil (hpool ▸ he.2.2)
  · rintro e ⟨id, we, rfl, _⟩ ⟨pc, hi, _⟩
    cases (hthread i).symm.trans hi

end Whole

end Snowpatch.SeriesLiveness
