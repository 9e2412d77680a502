import Snowpatch.Submissions
import Snowpatch.Delivery
import Snowpatch.GitHub

/-! What a check on Patchwork stands for, from the mailing list to the verdict. A check has
been read off a workflow run that GitHub had completed, the run was on the branch of the
series, and that branch is the series on top of master. -/
namespace Snowpatch.Verdicts

open Pipeline RunnerStage

/-- What a poll of a branch returns is what GitHub answers to its requests. -/
def FromGitHub (_ : State) : Event → Prop
  | .wait _ (.progress jobs) => ∃ poll, GitHub.getProgress poll = .ok jobs
  | _ => True

/-- The check is the verdict of run `i` of a poll, a run that was over. -/
structure IsVerdict (poll : GitHub.Poll) (i : ℕ) (run : GitHub.WorkflowRun) (check : Check) :
    Prop where
  listed : ∃ l, poll.runs = .ok l ∧ l.runs[i]? = some run
  completed : run.status = .completed
  verdict : ∃ description, GitHub.verdict (poll.api i) run = .ok (check.state, description) ∧
    check.description = some description
  url : check.targetUrl = some run.htmlUrl.text
  context : check.context = Delivery.contextOf run.name

variable {env : Env} {s₀ s t : State} {tr : List Event}

theorem isVerdict_checkOf {poll : GitHub.Poll} {jobs : List RunnerResult} {job : RunnerResult}
    (h : GitHub.getProgress poll = .ok jobs) (hj : job ∈ jobs) (hfin : job.isFinished = true) :
    ∃ i run, IsVerdict poll i run (Delivery.checkOf job) := by
  obtain ⟨listed, i, run, hlisted, hrun, hresult⟩ := GitHub.mem_getProgress h hj
  have hcompleted : run.status = .completed := (GitHub.isFinished_iff hresult).mp hfin
  obtain ⟨v, hv, rfl⟩ := Fallible.map_eq_ok.mp hresult
  exact ⟨i, run, ⟨listed, hlisted, hrun⟩, hcompleted, ⟨v.2, hv, rfl⟩, rfl, rfl⟩

theorem IsVerdict.ne_pending {poll : GitHub.Poll} {i : ℕ} {run : GitHub.WorkflowRun}
    {check : Check} (h : IsVerdict poll i run check) : check.state ≠ .pending := by
  obtain ⟨_, hv, _⟩ := h.verdict
  exact GitHub.verdict_ne_pending hv

section Watched

/-- The branch of a series is on some remote. -/
def OnRemote (s : State) (b : String) : Prop :=
  ∃ remote c, s.git.refs remote (remoteBranch b) = some c

theorem OnRemote.next {b : String} {e : Event} (h : OnRemote s b) (he : Enabled env s e) :
    OnRemote (next env s e) b := by
  obtain ⟨remote, c, hc⟩ := h
  exact ⟨remote, Submissions.refs_kept he hc⟩

theorem OnRemote.execution {b : String} (h : OnRemote s b)
    (hx : (machine env).Execution s tr t) : OnRemote t b :=
  hx.invariant (I := fun s => OnRemote s b) h fun _ _ h he => h.next he

structure Watched (s : State) : Prop where
  hands : ∀ k b, Names (s.proc.watcher k) b → OnRemote s b
  leaves : ∀ k, ∀ b ∈ (s.proc.watcherLeaf k).entries, OnRemote s b
  waits : ∀ t ∈ s.proc.waits, OnRemote s t.branch

theorem watched_step {e : Event} (htrees : ∀ t b, b ∈ s.db.branches t → OnRemote s b)
    (h : Watched s) (he : Enabled env s e) : Watched (next env s e) := by
  refine ⟨fun k b hb => ?_, fun k b hb => ?_, fun t ht => ?_⟩
  · rcases watcher_next he hb with ⟨we, _, hen, hpc⟩ | ⟨_, hpc⟩
    · rcases names_nextPc hen (hpc ▸ hb) with hb | hb
      · exact (h.hands k b hb).next he
      · exact (h.leaves k b hb).next he
    · exact (h.hands k b (hpc ▸ hb)).next he
  · rcases mem_watcherLeaf_next he hb with hb | hb
    · exact (h.leaves k b hb).next he
    · exact (htrees _ b hb).next he
  · rcases mem_waits_next ht with ht | ⟨k, b, rfl, rfl⟩ | ⟨u, we, rfl, hn⟩
    · exact (h.waits t ht).next he
    · have hpc : s.proc.watcher k = .spawning b := he
      exact (h.hands k b (Or.inr (Or.inr hpc))).next he
    · rw [(Completion.next_same hn).2]
      exact (h.waits u he.1).next he

theorem execution_watched (hx : (machine env).Execution s₀ tr s) (h₀ : Initial s₀)
    (hrefs : Submissions.Unpushed s₀) : Watched s := by
  refine hx.history (I := fun _ s => Watched s) ?_ fun tr s e hx h he =>
    watched_step (Submissions.execution_pushed hx h₀ hrefs) h he
  constructor <;> simp [h₀.not_running, Process.stopped, Names, KvTree.Leaf.start,
    Finmap.notMem_empty]

theorem onRemote_of_inserted (hx : (machine env).Execution s₀ tr s) (h₀ : Initial s₀)
    (hrefs : Submissions.Unpushed s₀) {id : SeriesId} {job : RunnerResult}
    (h : Reporting.Inserted tr id job) : OnRemote s id.toDecimal := by
  obtain ⟨t, ht, hb, _⟩ := h
  obtain ⟨pre, post, u, rfl, hpre, hen, hpost⟩ := hx.occurrence ht
  have hen : Enabled env u (.wait t (.report job)) := hen
  rw [← hb]
  exact (((execution_watched hpre h₀ hrefs).waits t hen.1).next hen).execution hpost

end Watched

theorem posted_job (hx : (machine env).Execution s₀ tr s) (h₀ : Initial s₀) {e : Event}
    {id : SeriesId} {patch : PatchId} {check : Check} (he : Enabled env s e)
    (hpost : Reporting.Posts e id patch check) : env.lastPatch id = some patch ∧
      ∃ job, Reporting.Inserted tr id job ∧ check = Delivery.checkOf job := by
  have hresult : ∃ key result drop,
      s.proc.dispatch = .posting key id patch result drop ∧ check = result.encode := by
    rcases hpost with rfl | rfl <;> exact he
  obtain ⟨key, result, drop, hpc, rfl⟩ := hresult
  obtain ⟨hlast, job, hins, _, rfl⟩ :=
    (Reporting.execution_traced hx h₀).2.1.result key id patch result drop (Or.inr hpc)
  exact ⟨hlast, job, hins, rfl⟩

/-- Every check that is posted is the verdict GitHub gave on a completed run, asked about the
branch of the series; it is never pending. The branch is on a remote, and there it is the
series on top of master. -/
theorem checks_are_verdicts (hx : ((machine env).restrict FromGitHub).Execution s₀ tr s)
    (h₀ : Initial s₀) (hrefs : Submissions.Unpushed s₀) {e : Event} (he : e ∈ tr)
    {id : SeriesId} {patch : PatchId} {check : Check} (hpost : Reporting.Posts e id patch check) :
    env.lastPatch id = some patch ∧ check.state ≠ .pending ∧
      (∃ t jobs poll i run, Event.wait t (.progress jobs) ∈ tr ∧ t.branch = id.toDecimal ∧
        GitHub.getProgress poll = .ok jobs ∧ IsVerdict poll i run check) ∧
      ∃ remote c, s.git.refs remote (remoteBranch id.toDecimal) = some c ∧
        Submissions.Submitted env s₀ tr id c := by
  have hmachine := hx.of_restrict
  obtain ⟨pre, post, u, rfl, hpre, hen, hpost'⟩ := hmachine.occurrence he
  have hen : Enabled env u e := hen
  obtain ⟨hlast, job, hins, rfl⟩ := posted_job hpre h₀ hen hpost
  obtain ⟨t, jobs, hprogress, hb, hj, hfin⟩ := Reporting.progressed_of_inserted hpre h₀ hins
  have hmem : Event.wait t (.progress jobs) ∈ pre ++ e :: post := List.mem_append_left _ hprogress
  obtain ⟨_, _, _, _, _, ⟨_, poll, hpoll⟩, _⟩ := hx.occurrence hmem
  obtain ⟨i, run, hverdict⟩ := isVerdict_checkOf hpoll hj hfin
  refine ⟨hlast, hverdict.ne_pending, ⟨t, jobs, poll, i, run, hmem, hb, hpoll, hverdict⟩, ?_⟩
  obtain ⟨remote, c, hc⟩ :=
    ((onRemote_of_inserted hpre h₀ hrefs hins).next hen).execution hpost'
  obtain ⟨id', hid, hs⟩ :=
    (Submissions.execution_pushContent hmachine h₀ hrefs).refs remote _ c hc
  obtain rfl := toDecimal_inj.mp (PushContent.remoteBranch_injective hid)
  exact ⟨remote, c, hc, Submissions.submitted_of_isSubmission hmachine hs⟩

/-- Somebody cancels the one run of the sample series. -/
def cancelledRun : GitHub.WorkflowRun :=
  { GitHub.failedRun with conclusion := some .cancelled }

def cancelledPoll : GitHub.Poll :=
  ⟨.ok ⟨1, [cancelledRun]⟩, fun _ => GitHub.answering (GitHub.passed 1) (.error "404")⟩

def cancelledJob : RunnerResult :=
  ⟨"build", .failed, .fail, some cancelledRun.htmlUrl, some "Job manually cancelled"⟩

theorem cancelledPoll_progress : GitHub.getProgress cancelledPoll = .ok [cancelledJob] := rfl

def cancelledResults : KvTree String RunnerResult :=
  (∅ : KvTree String RunnerResult).insert
    (dispatchKey gitHubHandle Sample.id.toDecimal "build") cancelledJob

def cancelledTrace : List Event :=
  (Sample.boot ++ Sample.discover ++ Sample.ingest ++ Sample.gitWork) ++
    ([.watcher 0 (.read (.whole Sample.queued) true), .watcher 0 (.take "300"),
      .watcher 0 (.startWork "300"), .watcher 0 (.move "300"), .watcher 0 (.spawn "300"),
      .wait ⟨0, "300", [], .polling⟩ (.progress [cancelledJob]),
      .wait ⟨0, "300", [], .reporting [cancelledJob] [cancelledJob]⟩ (.report cancelledJob),
      .dispatch (.read (.whole cancelledResults) true),
      .dispatch (.take (dispatchKey gitHubHandle Sample.id.toDecimal "build"))] ++
    [.dispatch (.getSeries 7), .dispatch .unique,
      .dispatch (.post Sample.id 7 (Delivery.checkOf cancelledJob))])

theorem cancelledTrace_runs : (machine Sample.env).Runs Sample.state cancelledTrace := by
  refine Machine.runs_append.mpr ⟨(Machine.runs_append.mp Sample.runs).1,
    Machine.runs_append.mpr ⟨⟨⟨_, rfl, KvTree.Leaf.reads_whole ?_⟩, ⟨_, rfl, ?_⟩, rfl,
      ⟨rfl, ?_⟩, rfl, ⟨List.mem_cons_self, rfl⟩, ⟨List.mem_cons_self, _, _, rfl⟩,
      ⟨⊥, [], rfl, KvTree.Leaf.reads_whole ?_⟩, ⟨⊥, [], rfl, ?_⟩, trivial⟩,
      Reporting.send_runs rfl rfl ?_ rfl ?_⟩⟩
  · decide
  · decide
  · decide
  · decide
  · decide
  · exact parseEntry_dispatchKey Reporting.space_notMem_gitHubHandle Sample.id "build"
  · rintro ⟨c, hc, _⟩
    cases hc

theorem checks_are_verdicts_sample : ∃ s remote c,
    (machine Sample.env).Execution Sample.state cancelledTrace s ∧
      s.git.refs remote (remoteBranch Sample.id.toDecimal) = some c ∧
      Submissions.Submitted Sample.env Sample.state cancelledTrace Sample.id c := by
  have hruns : ((machine Sample.env).restrict FromGitHub).Runs Sample.state cancelledTrace := by
    refine cancelledTrace_runs.restrict fun e he _ => ?_
    cases e with
    | wait t we => cases we with
      | progress jobs =>
        simp [cancelledTrace, Sample.boot, Sample.discover, Sample.ingest, Sample.gitWork] at he
        exact ⟨cancelledPoll, he.2 ▸ cancelledPoll_progress⟩
      | _ => trivial
    | _ => trivial
  obtain ⟨_, _, _, remote, c, hc, hs⟩ := checks_are_verdicts hruns.execution Sample.state_initial
    (fun _ _ => rfl) (e := .dispatch (.post Sample.id 7 (Delivery.checkOf cancelledJob)))
    (by simp [cancelledTrace]) (Or.inl rfl)
  exact ⟨_, remote, c, cancelledTrace_runs.execution, hc, hs⟩

end Snowpatch.Verdicts
