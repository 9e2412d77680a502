import Snowpatch.Runner
import Snowpatch.Library.Fallible
import Mathlib.Data.UInt

/-! The GitHub Actions runner: how the workflow runs of a branch become results. The server
is a parameter: every request has an answer of its own, which may be an error. Parallel
iterations keep the order of what they collect. -/
namespace Snowpatch.GitHub

inductive Conclusion where
  | actionRequired
  | cancelled
  | failure
  | neutral
  | success
  | skipped
  | stale
  | startupFailure
  | timedOut
  deriving DecidableEq, Repr

inductive Status where
  | queued
  | inProgress
  | completed
  deriving DecidableEq, Repr

structure WorkflowRun where
  htmlUrl : Url
  jobsUrl : Url
  conclusion : Option Conclusion
  status : Status
  name : String
  deriving DecidableEq, Repr

structure WorkflowRuns where
  count : UInt64
  runs : List WorkflowRun
  deriving DecidableEq, Repr

structure CheckRunOutput where
  annotationsCount : UInt64
  title : String
  deriving DecidableEq, Repr

structure CheckRun where
  output : CheckRunOutput
  deriving DecidableEq, Repr

structure Step where
  conclusion : Conclusion
  name : String
  deriving DecidableEq, Repr

structure Job where
  name : String
  steps : List Step
  checkRunUrl : Url
  conclusion : Conclusion
  deriving DecidableEq, Repr

/-- One page of the jobs of a run; `count` is the `total_count` of all its pages. -/
structure Jobs where
  jobs : List Job
  count : UInt64
  deriving DecidableEq, Repr

/-- What the server answers while one run is looked at. Each job's check run is a request
of its own, so two jobs may get different answers at one URL. -/
structure Api where
  getJobs : Url → Except String Jobs
  getCheckRun : ℕ → Url → Except String CheckRun

def decimal (n : UInt64) : String := Nat.repr n.toNat

section Verdict

def jobState (run : WorkflowRun) : JobState :=
  match run.status with
  | .queued => .waiting
  | .inProgress => .running
  | .completed => match run.conclusion with
    | some .failure | some .neutral | some .success => .completed
    | some .actionRequired | some .cancelled | some .skipped | some .stale | some .timedOut
    | some .startupFailure | none => .failed

def failures (jobs : Jobs) : List Job := jobs.jobs.filter fun j => decide (j.conclusion = .failure)

def failedSteps (job : Job) : List Step :=
  job.steps.filter fun s => decide (s.conclusion = .failure)

/-- The pair built for a failed step called "Set up job". -/
def notThePatch (job : Job) : TestState × String :=
  (.warning, job.name ++ " failed to run, not the patch's fault")

def failedJobDescription (job : Job) : String :=
  -- the loop over the failed steps is a statement: the pairs it builds go nowhere
  let _ := (failedSteps job).map fun step =>
    if step.name = "Set up job" then some (notThePatch job) else none
  match failedSteps job with
  | [step] => job.name ++ " failed at step " ++ step.name ++ "."
  | steps => job.name ++ " failed " ++ Nat.repr steps.length ++ " of " ++
      Nat.repr job.steps.length ++ " steps."

def failureVerdict (jobs : Jobs) : Except String (TestState × String) :=
  match failures jobs with
  | [] => .error "Run reported Failure but couldn't find failures in jobs"
  | [job] => .ok (.fail, failedJobDescription job)
  | failed => .ok (.fail, Nat.repr failed.length ++ " of " ++ decimal jobs.count ++ " jobs failed.")

/-- The check runs that could be fetched; a failed request is filtered out. -/
def checkRuns (api : Api) (jobs : Jobs) : List CheckRun :=
  jobs.jobs.zipIdx.filterMap fun p => (api.getCheckRun p.2 p.1.checkRunUrl).toOption

def warnings (api : Api) (jobs : Jobs) : List CheckRunOutput :=
  ((checkRuns api jobs).map CheckRun.output).filter fun o => decide (0 < o.annotationsCount)

def successVerdict (api : Api) (jobs : Jobs) : TestState × String :=
  match warnings api jobs with
  | [] => (.success, "Successfully ran " ++ decimal jobs.count ++ " jobs.")
  | [output] => (.warning,
      output.title ++ " found " ++ decimal output.annotationsCount ++ " issues.")
  | outputs => (.warning,
      "Found " ++ decimal (outputs.map CheckRunOutput.annotationsCount).sum ++ " issues from " ++
        Nat.repr outputs.length ++ " of " ++ decimal jobs.count ++ " jobs.")

/-- The outcome and the description, by the conclusion whatever the status is. -/
def verdict (api : Api) (run : WorkflowRun) : Except String (TestState × String) :=
  match run.conclusion with
  | some .actionRequired => .ok (.fail, "Manual intervention required")
  | some .cancelled => .ok (.fail, "Job manually cancelled")
  | some .failure => (api.getJobs run.jobsUrl).bind failureVerdict
  | some .neutral => .ok (.warning, "Neutral job result, check for details")
  | some .success => (api.getJobs run.jobsUrl).map (successVerdict api)
  | some .skipped => .ok (.warning, "Job skipped.")
  | some .stale => .ok (.warning, "Job 'stale'?  No results.")
  | some .startupFailure => .ok (.fail, "Job currently broken.")
  | some .timedOut => .ok (.fail, "Job timed out.")
  | none => .ok (.fail, "Missing conclusion from job")

def wfrToRunnerResult (api : Api) (run : WorkflowRun) : Except String RunnerResult :=
  (verdict api run).map fun v =>
    { name := run.name
      state := jobState run
      outcome := v.1
      url := some run.htmlUrl
      description := some v.2 }

theorem isFinished_iff {api : Api} {run : WorkflowRun} {r : RunnerResult}
    (h : wfrToRunnerResult api run = .ok r) : r.isFinished ↔ run.status = .completed := by
  obtain ⟨v, _, rfl⟩ := Fallible.map_eq_ok.mp h
  cases hs : run.status with
  | queued | inProgress => simp [RunnerResult.isFinished, jobState, hs]
  | completed =>
    have hstate : jobState run = .completed ∨ jobState run = .failed := by
      simp only [jobState, hs]
      split <;> simp
    rcases hstate with hj | hj <;> simp [RunnerResult.isFinished, hj]

theorem verdict_ne_pending {api : Api} {run : WorkflowRun} {v : TestState × String}
    (h : verdict api run = .ok v) : v.1 ≠ .pending := by
  unfold verdict at h
  split at h
  case h_3 =>
    obtain ⟨jobs, _, hv⟩ := Fallible.bind_eq_ok.mp h
    unfold failureVerdict at hv
    split at hv <;> cases hv <;> exact TestState.noConfusion
  case h_5 =>
    obtain ⟨jobs, _, rfl⟩ := Fallible.map_eq_ok.mp h
    unfold successVerdict
    split <;> exact TestState.noConfusion
  all_goals
    obtain rfl := Except.ok.inj h
    exact TestState.noConfusion

end Verdict

section SetUp

/-- The one failed job has failed before any of the patch's code was run. -/
def SetUpFailed (jobs : Jobs) : Prop :=
  ∃ job, failures jobs = [job] ∧ ∃ step ∈ failedSteps job, step.name = "Set up job"

/-- An infrastructure failure is a warning that says so, any other failed job a failure. -/
structure Classifies (jobs : Jobs) (answer : Except String RunnerResult) : Prop where
  setUp : ∀ job, failures jobs = [job] →
    (∃ step ∈ failedSteps job, step.name = "Set up job") →
      ∃ r, answer = .ok r ∧ r.outcome = .warning ∧
        r.description = some (job.name ++ " failed to run, not the patch's fault")
  other : failures jobs ≠ [] → ¬ SetUpFailed jobs → ∃ r, answer = .ok r ∧ r.outcome = .fail

variable {api : Api} {run : WorkflowRun} {jobs : Jobs}

theorem outcome_of_failure (hc : run.conclusion = some .failure)
    (hj : api.getJobs run.jobsUrl = .ok jobs) (hf : failures jobs ≠ []) :
    ∃ r, wfrToRunnerResult api run = .ok r ∧ r.outcome = .fail := by
  have hv : verdict api run = failureVerdict jobs := by
    simp [verdict, hc, hj, Except.bind]
  rw [wfrToRunnerResult, hv]
  unfold failureVerdict
  split
  · contradiction
  · exact ⟨_, rfl, rfl⟩
  · exact ⟨_, rfl, rfl⟩

theorem classifies_iff (hc : run.conclusion = some .failure)
    (hj : api.getJobs run.jobsUrl = .ok jobs) :
    Classifies jobs (wfrToRunnerResult api run) ↔ ¬ SetUpFailed jobs := by
  constructor
  · rintro hcl ⟨job, hone, hstep⟩
    obtain ⟨r, hr, hwarning, _⟩ := hcl.setUp job hone hstep
    obtain ⟨q, hq, hfail⟩ := outcome_of_failure hc hj (by simp [hone])
    obtain rfl := Except.ok.inj (hr.symm.trans hq)
    rw [hwarning] at hfail
    cases hfail
  · intro hn
    constructor
    · intro job hone hstep
      exact absurd ⟨job, hone, hstep⟩ hn
    · exact fun hf _ => outcome_of_failure hc hj hf

def failedRun : WorkflowRun :=
  ⟨⟨"https://github.com/ci/linux/runs/1"⟩, ⟨"https://api.github.com/runs/1/jobs"⟩,
    some .failure, .completed, "build"⟩

def failedAt (step : String) : Jobs :=
  ⟨[⟨"ppc64", [⟨.success, "Checkout"⟩, ⟨.failure, step⟩], ⟨"https://api.github.com/check/1"⟩,
    .failure⟩], 1⟩

def answering (jobs : Jobs) (checkRun : Except String CheckRun) : Api :=
  ⟨fun _ => .ok jobs, fun _ _ => checkRun⟩

theorem classifies_iff_sample : Classifies (failedAt "make")
    (wfrToRunnerResult (answering (failedAt "make") (.error "404")) failedRun) := by
  refine (classifies_iff rfl rfl).mpr ?_
  rintro ⟨job, hone, step, hstep, hname⟩
  obtain rfl := (List.singleton_inj.mp hone).symm
  obtain rfl := List.mem_singleton.mp hstep
  revert hname
  decide

/-- The runner could not set the job up; the patch is blamed. -/
theorem setUp_blamed : ¬ Classifies (failedAt "Set up job")
    (wfrToRunnerResult (answering (failedAt "Set up job") (.error "404")) failedRun) := by
  intro h
  obtain ⟨r, hr, hwarning, _⟩ := h.setUp _ rfl ⟨_, List.mem_singleton_self _, rfl⟩
  obtain rfl := Except.ok.inj hr
  cases hwarning

end SetUp

section Success

variable {api : Api} {run : WorkflowRun} {jobs : Jobs}

theorem warnings_eq_nil : warnings api jobs = [] ↔
    ∀ i job, jobs.jobs[i]? = some job → ∀ checkRun,
      api.getCheckRun i job.checkRunUrl = .ok checkRun →
        checkRun.output.annotationsCount = 0 := by
  simp only [warnings, checkRuns, List.filter_eq_nil_iff, List.mem_map, List.mem_filterMap,
    Prod.exists, List.mem_zipIdx_iff_getElem?, decide_eq_true_eq]
  constructor
  · intro h i job hi checkRun hok
    have hpos := h checkRun.output ⟨checkRun, ⟨job, i, hi, by rw [hok]; rfl⟩, rfl⟩
    simpa using hpos
  · rintro h _ ⟨checkRun, ⟨job, i, hi, hok⟩, rfl⟩
    have hfetched : api.getCheckRun i job.checkRunUrl = .ok checkRun := by
      cases hg : api.getCheckRun i job.checkRunUrl with
      | error e => simp [hg, Except.toOption] at hok
      | ok a => simpa [hg, Except.toOption] using hok
    simp [h i job hi checkRun hfetched]

theorem success_iff_no_warning (hc : run.conclusion = some .success)
    (hj : api.getJobs run.jobsUrl = .ok jobs) :
    ∃ r, wfrToRunnerResult api run = .ok r ∧
      (r.outcome = .success ↔ ∀ i job, jobs.jobs[i]? = some job → ∀ checkRun,
        api.getCheckRun i job.checkRunUrl = .ok checkRun →
          checkRun.output.annotationsCount = 0) := by
  have hv : verdict api run = .ok (successVerdict api jobs) := by
    simp [verdict, hc, hj, Except.map]
  refine ⟨_, by rw [wfrToRunnerResult, hv]; rfl, ?_⟩
  rw [← warnings_eq_nil]
  unfold successVerdict
  split
  · next h => simp [h]
  · next h => simp [h]
  · next hnil _ =>
    constructor
    · intro h
      cases h
    · exact fun h => absurd h hnil

def passedRun : WorkflowRun := { failedRun with conclusion := some .success }

def passed (count : UInt64) : Jobs :=
  ⟨[⟨"ppc64", [⟨.success, "make"⟩], ⟨"https://api.github.com/check/1"⟩, .success⟩], count⟩

theorem success_iff_no_warning_sample : ∃ r,
    wfrToRunnerResult (answering (passed 1) (.ok ⟨⟨0, "sparse"⟩⟩)) passedRun = .ok r ∧
      r.outcome = .success := by
  have hjobs : (answering (passed 1) (.ok ⟨⟨0, "sparse"⟩⟩)).getJobs passedRun.jobsUrl =
      .ok (passed 1) := rfl
  obtain ⟨r, hr, hiff⟩ := success_iff_no_warning rfl hjobs
  refine ⟨r, hr, hiff.mpr ?_⟩
  intro i job _ checkRun hok
  obtain rfl := Except.ok.inj hok
  rfl

/-- Two jobs, one of them listed, its check run not fetched: the run is a success. -/
theorem unexamined_success : ∃ r,
    wfrToRunnerResult (answering (passed 2) (.error "timed out")) passedRun = .ok r ∧
      r.outcome = .success ∧
      ¬ ((passed 2).count.toNat = (passed 2).jobs.length ∧
        ∀ i job, (passed 2).jobs[i]? = some job → ∃ checkRun,
          (answering (passed 2) (.error "timed out")).getCheckRun i job.checkRunUrl =
            .ok checkRun ∧ checkRun.output.annotationsCount = 0) := by
  refine ⟨_, rfl, rfl, ?_⟩
  rintro ⟨hall, _⟩
  revert hall
  decide

end Success

section Progress

/-- What the server answers to one poll of a branch: the list of its runs, and the requests
made for each run of the list. -/
structure Poll where
  runs : Except String WorkflowRuns
  api : ℕ → Api

def Poll.answers (p : Poll) : List (Except String RunnerResult) :=
  match p.runs with
  | .ok listed => listed.runs.zipIdx.map fun q => wfrToRunnerResult (p.api q.2) q.1
  | .error _ => []

/-- `get_progress`: one run that cannot be interpreted leaves no result of the others. -/
def getProgress (p : Poll) : Except String (List RunnerResult) :=
  p.runs.bind fun _ => Fallible.collect p.answers

theorem values_of_getProgress {p : Poll} {jobs : List RunnerResult}
    (h : getProgress p = .ok jobs) : Fallible.values p.answers = jobs := by
  obtain ⟨_, _, hc⟩ := Fallible.bind_eq_ok.mp h
  exact Fallible.values_of_collect hc

theorem mem_getProgress {p : Poll} {jobs : List RunnerResult} (h : getProgress p = .ok jobs)
    {job : RunnerResult} (hj : job ∈ jobs) : ∃ listed i run, p.runs = .ok listed ∧
      listed.runs[i]? = some run ∧ wfrToRunnerResult (p.api i) run = .ok job := by
  obtain ⟨listed, hlisted, hc⟩ := Fallible.bind_eq_ok.mp h
  have hmem : Except.ok job ∈ p.answers := by
    rw [Fallible.collect_eq_ok.mp hc]
    exact List.mem_map_of_mem hj
  simp only [Poll.answers, hlisted] at hmem
  obtain ⟨⟨run, i⟩, hrun, hresult⟩ := List.mem_map.mp hmem
  exact ⟨listed, i, run, hlisted, List.mem_zipIdx_iff_getElem?.mp hrun, hresult⟩

/-- `start_work` on a push trigger: the list of runs it asked for first, then for each test of
its loop the seconds since the start and the answer to the request after its sleep. The result
is none while it is still waiting. It shows the list that was seen last; the source drops it. -/
def startWork : Except String WorkflowRuns → List (ℕ × Except String WorkflowRuns) →
    Option (Except String WorkflowRuns)
  | .error e, _ => some (.error e)
  | .ok _, [] => none
  | .ok listed, (elapsed, answer) :: rest =>
    if elapsed < 600 then
      if listed.runs.isEmpty then startWork answer rest else some (.ok listed)
    else some (.ok listed)

end Progress

end Snowpatch.GitHub
