import Snowpatch.Polling
import Snowpatch.Reporting

/-! What slow, empty and failing answers of the runner do to the polling. The tasks of the
program are calls of `wait_for_completion`; an answer without any run ends a call at once,
and a run that cannot be interpreted ends it together with the process. -/
namespace Snowpatch.Outages

open Pipeline RunnerStage Reporting Firsts

/-- A task is a call that has come to its position, each insert of it an event of the run. -/
def IsCall (tr : List Event) (t : Completion.Task) : Prop :=
  ∃ db k branch calls c,
    (Polling.machine gitHubHandle).Execution (Polling.Call.start db k branch) calls c ∧
      c.position = .running t ∧
      ∀ p ∈ c.inserted, ∃ u, Event.wait u (.report p.2) ∈ tr ∧ u.branch = t.branch ∧
        p.2.name ∉ u.completed

section Calls

variable {env : Env} {s₀ s : State} {tr : List Event} {e : Event}

theorem IsCall.append {t : Completion.Task} (h : IsCall tr t) : IsCall (tr ++ [e]) t := by
  obtain ⟨db, k, branch, calls, c, hx, hpos, hins⟩ := h
  refine ⟨db, k, branch, calls, c, hx, hpos, fun p hp => ?_⟩
  obtain ⟨u, hu, hb⟩ := hins p hp
  exact ⟨u, List.mem_append_left _ hu, hb⟩

theorem IsCall.wait {u t : Completion.Task} {we : Completion.Event} (h : IsCall tr u)
    (he : Completion.Enabled u we) (hn : Completion.next u we = some t) :
    IsCall (tr ++ [.wait u we]) t := by
  obtain ⟨db, k, branch, calls, c, hx, hpos, hins⟩ := h
  have hstep : (Polling.machine gitHubHandle).Enabled c (.step we) := ⟨u, hpos, he⟩
  have hbranch : t.branch = u.branch := (Completion.next_same hn).2
  refine ⟨db, k, branch, _, _, hx.snoc (.step we) hstep, ?_, ?_⟩
  · simp [Polling.machine, Polling.next, hpos, hn]
  · intro p hp
    have hcases : p ∈ c.inserted ∨ Polling.written gitHubHandle u we = some p := by
      simpa [Polling.machine, Polling.next, hpos] using hp
    rcases hcases with hp | hw
    · obtain ⟨v, hv, hb, hnew⟩ := hins p hp
      exact ⟨v, List.mem_append_left _ hv, hb.trans hbranch.symm, hnew⟩
    · cases we with
      | report job =>
        simp only [Polling.written] at hw
        split at hw
        · cases hw
        · next hnew =>
          obtain rfl := Option.some.inj hw
          exact ⟨u, by simp, hbranch.symm, hnew⟩
      | progress | again | settle | remove => cases hw

theorem calls_step (h : ∀ t ∈ s.proc.waits, IsCall tr t) (he : Enabled env s e) :
    ∀ t ∈ (next env s e).proc.waits, IsCall (tr ++ [e]) t := by
  intro t ht
  rcases mem_waits_next ht with ht | ⟨k, branch, rfl, rfl⟩ | ⟨u, we, rfl, hn⟩
  · exact (h t ht).append
  · exact ⟨Db.empty, k, branch, [], _, .nil, rfl, by simp [Polling.Call.start]⟩
  · exact (h u he.1).wait he.2 hn

theorem execution_calls (hx : (machine env).Execution s₀ tr s) (h₀ : Initial s₀) :
    ∀ t ∈ s.proc.waits, IsCall tr t := by
  refine hx.history (I := fun tr s => ∀ t ∈ s.proc.waits, IsCall tr t) ?_
    fun _ _ _ _ h he => calls_step h he
  intro t ht
  rw [h₀.not_running] at ht
  cases ht

end Calls

section Vacuous

variable {handle branch : String} {db₀ : Db} {k : ℕ} {calls : List Polling.Event}
  {c : Polling.Call}

/-- No response is empty unless some response has shown a finished run: the loop ends at the
first empty one. -/
def Answered (responses : List (List RunnerResult)) : Prop :=
  [] ∈ responses → ∃ jobs ∈ responses, ∃ job ∈ jobs, job.isFinished

theorem returned_reported_iff
    (hx : (Polling.machine handle).Execution (Polling.Call.start db₀ k branch) calls c)
    (hr : c.position = .returned true) :
    c.inserted ≠ [] ↔ Answered (Polling.responses calls) := by
  have h := Polling.execution_tracks hx
  obtain ⟨done, hdone, hins, _⟩ := h.reported
  rw [hr, Polling.Position.todo, List.append_nil] at hdone
  have hrounds := h.rounds
  rw [hr] at hrounds
  obtain ⟨earlier, last, hresponses, hall, _⟩ := hrounds
  have hsome : c.inserted ≠ [] ↔
      ∃ jobs ∈ Polling.responses calls, ∃ job ∈ jobs, job.isFinished := by
    rw [hins, Ne, List.map_eq_nil_iff, firsts_eq_nil, ← hdone]
    constructor
    · intro hne
      obtain ⟨job, hjob⟩ := List.exists_mem_of_ne_nil _ hne
      obtain ⟨jobs, hmem, hin, hfin⟩ := Polling.mem_results.mp hjob
      exact ⟨jobs, hmem, job, hin, hfin⟩
    · rintro ⟨jobs, hmem, job, hin, hfin⟩
      exact List.ne_nil_of_mem (Polling.mem_results.mpr ⟨jobs, hmem, hin, hfin⟩)
  rw [hsome]
  constructor
  · exact fun h _ => h
  · intro h
    cases hl : last with
    | nil => exact h (by simp [hresponses, hl])
    | cons job rest =>
      have hjob : job ∈ last := by simp [hl]
      exact ⟨last, by simp [hresponses], job, hjob, hall job hjob⟩

variable {env : Env} {s₀ s : State} {tr : List Event} {e : Event}

/-- An answer without any run comes only to a call that has reported a job before. -/
def NeverVacuous (_ : State) : Event → Prop
  | .wait t (.progress jobs) => jobs = [] → t.completed ≠ []
  | _ => True

def Fed (t : Completion.Task) : Prop :=
  (∀ todo, t.pc = .reporting [] todo → t.completed ≠ []) ∧
    (t.pc = .removing → t.completed ≠ [])

theorem fed_wait {u t : Completion.Task} {we : Completion.Event} (hcall : IsCall tr u)
    (h : Fed u) (he : Completion.Enabled u we) (hc : NeverVacuous s (.wait u we))
    (hn : Completion.next u we = some t) : Fed t := by
  obtain ⟨k, branch, completed, pc⟩ := u
  cases we with
  | progress jobs =>
    obtain rfl := Option.some.inj hn
    refine ⟨?_, by simp⟩
    rintro todo ⟨⟩
    exact hc rfl
  | report job =>
    obtain ⟨jobs, rest, rfl⟩ := he
    simp only [Completion.next] at hn
    split at hn <;> obtain rfl := Option.some.inj hn <;> refine ⟨?_, by simp⟩
    · rintro todo ⟨⟩
      exact h.1 _ rfl
    · rintro todo ⟨⟩
      simp
  | again =>
    obtain rfl := Option.some.inj hn
    constructor <;> simp
  | settle =>
    obtain ⟨jobs, rfl, hlen⟩ := he
    obtain rfl := Option.some.inj hn
    refine ⟨by simp, fun _ => ?_⟩
    cases jobs with
    | nil => exact h.1 _ rfl
    | cons job rest =>
      obtain ⟨db, k', b, calls, c, hx, hpos, _⟩ := hcall
      have ht := Polling.execution_tracks hx
      obtain ⟨done, hdone, _, hcompleted⟩ := ht.reported
      have hr := ht.rounds
      rw [hpos] at hr hdone
      obtain ⟨earlier, hresponses, _⟩ := hr
      have hjob : job ∈ done := by
        have hm : job ∈ Polling.results calls := Polling.mem_results.mpr
          ⟨job :: rest, by simp [hresponses], List.mem_cons_self,
            Polling.length_finished.mp hlen job List.mem_cons_self⟩
        simpa [hdone, Polling.Position.todo, Completion.Pc.todo] using hm
      have hname : completed = (firsts RunnerResult.name done).map (·.name) := hcompleted _ hpos
      change completed ≠ []
      rw [hname, Ne, List.map_eq_nil_iff, firsts_eq_nil]
      exact List.ne_nil_of_mem hjob
  | remove => cases hn

theorem execution_fed (hx : ((machine env).restrict NeverVacuous).Execution s₀ tr s)
    (h₀ : Initial s₀) : ∀ t ∈ s.proc.waits, Fed t := by
  refine hx.history (I := fun _ s => ∀ t ∈ s.proc.waits, Fed t) ?_ fun tr s e hx h he t ht => ?_
  · intro t ht
    rw [h₀.not_running] at ht
    cases ht
  · rcases mem_waits_next ht with ht | ⟨k, branch, rfl, rfl⟩ | ⟨u, we, rfl, hn⟩
    · exact h t ht
    · constructor <;> simp
    · exact fed_wait (execution_calls hx.of_restrict h₀ u he.1.1) (h u he.1.1) he.1.2 he.2 hn

theorem inserted_before_removal {t : Completion.Task}
    (hx : ((machine env).restrict NeverVacuous).Execution s₀ tr s) (h₀ : Initial s₀)
    (he : Enabled env s (.wait t .remove)) :
    ∃ id job, t.branch = id.toDecimal ∧ Inserted tr id job := by
  obtain ⟨hmem, hpc⟩ := he
  obtain ⟨id, hid⟩ := (execution_traced hx.of_restrict h₀).1.waits t hmem
  have hfed := (execution_fed hx h₀ t hmem).2 hpc
  obtain ⟨db, k, branch, calls, c, hcx, hpos, hins⟩ := execution_calls hx.of_restrict h₀ t hmem
  obtain ⟨done, _, hinserted, hcompleted⟩ := (Polling.execution_tracks hcx).reported
  have hdone : firsts RunnerResult.name done ≠ [] := by
    intro hnil
    rw [hcompleted t hpos, hnil] at hfed
    exact hfed rfl
  obtain ⟨job, hjob⟩ := List.exists_mem_of_ne_nil _ hdone
  obtain ⟨u, hu, hb, hnew⟩ := hins (Polling.entry gitHubHandle branch job)
    (hinserted ▸ List.mem_map_of_mem hjob)
  exact ⟨id, job, hid, u, hu, hb.trans hid, hnew⟩

theorem no_vacuous_completion (handle branch : String) (env : Env) :
    (∀ db k calls c,
      (Polling.machine handle).Execution (Polling.Call.start db k branch) calls c →
        c.position = .returned true →
          (c.inserted ≠ [] ↔ Answered (Polling.responses calls))) ∧
    ∀ s₀ tr s, ((machine env).restrict NeverVacuous).Execution s₀ tr s → Initial s₀ →
      ∀ pre post t, tr = pre ++ .wait t .remove :: post →
        ∃ id job, t.branch = id.toDecimal ∧ Inserted pre id job := by
  constructor
  · intro db k calls c hx hr
    exact returned_reported_iff hx hr
  · rintro s₀ tr s hx h₀ pre post t rfl
    obtain ⟨u, hpre, hrest⟩ := hx.split
    exact inserted_before_removal hpre h₀ hrest.uncons.1.1

theorem no_vacuous_completion_sample : Polling.sampleCall.inserted ≠ [] ∧
    ∃ id job, "300" = SeriesId.toDecimal id ∧ Inserted (Sample.trace.dropLast) id job := by
  have hruns : ((machine Sample.env).restrict NeverVacuous).Runs Sample.state Sample.trace := by
    refine Sample.runs.restrict ?_
    simp [Sample.trace, Sample.boot, Sample.discover, Sample.ingest, Sample.gitWork,
      Sample.testing, NeverVacuous]
  constructor
  · have hanswered : Answered (Polling.responses Polling.sampleTrace) := by
      intro h
      revert h
      decide
    exact ((no_vacuous_completion _ _ Sample.env).1 _ _ _ _ Polling.sample_execution rfl).mpr
      hanswered
  · exact (no_vacuous_completion "github" "300" Sample.env).2 _ _ _ hruns.execution
      Sample.state_initial _ [] ⟨0, "300", ["build it"], .removing⟩ rfl

def vacuousTrace : List Event :=
  Sample.boot ++ Sample.discover ++ Sample.ingest ++ Sample.gitWork ++ Sample.testing.take 5 ++
    [.wait ⟨0, "300", [], .polling⟩ (.progress []),
      .wait ⟨0, "300", [], .reporting [] []⟩ .settle, .wait ⟨0, "300", [], .removing⟩ .remove]

theorem vacuousTrace_runs : (machine Sample.env).Runs Sample.state vacuousTrace := by
  have hsample : (machine Sample.env).Runs Sample.state (Sample.boot ++ Sample.discover ++
      Sample.ingest ++ Sample.gitWork ++ Sample.testing.take 5 ++ Sample.testing.drop 5) :=
    Sample.runs
  exact Machine.runs_append.mpr ⟨(Machine.runs_append.mp hsample).1, ⟨List.mem_cons_self, rfl⟩,
    ⟨List.mem_cons_self, _, rfl, rfl⟩, ⟨List.mem_cons_self, rfl⟩, trivial⟩

theorem vacuous_completion :
    GitHub.startWork (.ok ⟨0, []⟩) [(0, .ok ⟨0, []⟩), (600, .ok ⟨0, []⟩)] = some (.ok ⟨0, []⟩) ∧
      ∃ tr s t, (machine Sample.env).Execution Sample.state tr s ∧
        Event.watcher 0 (.startWork t.branch) ∈ tr ∧ Event.wait t .remove ∈ tr ∧
          ∀ id job, ¬ Inserted tr id job := by
  refine ⟨rfl, vacuousTrace, _, ⟨0, "300", [], .removing⟩, vacuousTrace_runs.execution, ?_, ?_, ?_⟩
  · simp [vacuousTrace, Sample.testing]
  · simp [vacuousTrace]
  · rintro id job ⟨t, ht, _⟩
    simp [vacuousTrace, Sample.boot, Sample.discover, Sample.ingest, Sample.gitWork,
      Sample.testing] at ht

end Vacuous

/-! One run that cannot be interpreted among the runs of a poll. -/
section Uninterpretable

open GitHub

/-- The finished results of all runs that can be interpreted, in response order. -/
def finishedResults (polls : List Poll) : List RunnerResult :=
  polls.flatMap fun p => Completion.finished (Fallible.values p.answers)

/-- Every finished result has been put into "needs dispatch" itself. -/
def AllReported (handle branch : String) (polls : List Poll)
    (inserted : List (String × RunnerResult)) : Prop :=
  ∀ job ∈ finishedResults polls, (dispatchKey handle branch job.name, job) ∈ inserted

/-- No two different results are finished under one workflow name. -/
def OneResultPerName (polls : List Poll) : Prop :=
  ∀ a ∈ finishedResults polls, ∀ b ∈ finishedResults polls, a.name = b.name → a = b

/-- A poll with an error has no finished run besides whose name is new. -/
def NothingNewLost (polls : List Poll) : Prop :=
  ∀ earlier p later, polls = earlier ++ p :: later → ∀ message, getProgress p = .error message →
    ∀ job ∈ finishedResults [p], ∃ job' ∈ finishedResults earlier, job'.name = job.name

variable {handle branch : String} {db₀ : Db} {k : ℕ} {calls : List Polling.Event}
  {c : Polling.Call}

theorem answers_shape
    (hx : (Polling.machine handle).Execution (Polling.Call.start db₀ k branch) calls c) :
    (∃ l : List (List RunnerResult), Polling.answers calls = l.map .ok) ∨
      ∃ (l : List (List RunnerResult)) (message : String),
        Polling.answers calls = l.map .ok ++ [.error message] ∧ c.position = .returned false := by
  refine hx.history (I := fun calls c =>
    (∃ l : List (List RunnerResult), Polling.answers calls = l.map .ok) ∨
      ∃ (l : List (List RunnerResult)) (message : String),
        Polling.answers calls = l.map .ok ++ [.error message] ∧ c.position = .returned false)
    (Or.inl ⟨[], rfl⟩) fun calls c e _ h he => ?_
  have hrun : ∃ t, c.position = .running t := by
    cases e with
    | error message => exact he.imp fun _ => And.left
    | step e => exact he.imp fun _ => And.left
  obtain ⟨t, hpos⟩ := hrun
  obtain ⟨l, hl⟩ := h.resolve_right (by simp [hpos])
  have happ : Polling.answers (calls ++ [e]) = l.map .ok ++ (Polling.answer e).toList := by
    rw [Polling.answers_append, hl]
  cases e with
  | error message => exact Or.inr ⟨l, message, happ, rfl⟩
  | step e =>
    refine Or.inl ?_
    cases e with
    | progress jobs => exact ⟨l ++ [jobs], by simpa [Polling.answer] using happ⟩
    | report | again | settle | remove => exact ⟨l, by simpa [Polling.answer] using happ⟩

theorem finishedResults_of_ok {polls : List Poll} {l : List (List RunnerResult)}
    (h : polls.map getProgress = l.map .ok) :
    finishedResults polls = l.flatMap Completion.finished := by
  induction polls generalizing l with
  | nil =>
    obtain rfl := List.map_eq_nil_iff.mp h.symm
    rfl
  | cons p polls ih =>
    cases l with
    | nil => cases h
    | cons jobs l =>
      obtain ⟨hp, hrest⟩ := List.cons.inj h
      rw [finishedResults, List.flatMap_cons, List.flatMap_cons, values_of_getProgress hp,
        ← ih hrest]
      rfl

theorem mem_inserted_iff {polls : List Poll} {l : List (List RunnerResult)}
    (hx : (Polling.machine handle).Execution (Polling.Call.start db₀ k branch) calls c)
    (hrest : c.position.todo = []) (hresponses : Polling.responses calls = l)
    (hl : polls.map getProgress = l.map .ok) {job : RunnerResult} :
    (dispatchKey handle branch job.name, job) ∈ c.inserted ↔
      job ∈ firsts RunnerResult.name (finishedResults polls) := by
  obtain ⟨done, hdone, hins, _⟩ := (Polling.execution_tracks hx).reported
  rw [hrest, List.append_nil, Polling.results, hresponses, ← finishedResults_of_ok hl] at hdone
  rw [hdone, hins, List.mem_map]
  constructor
  · rintro ⟨j, hj, heq⟩
    obtain ⟨_, rfl⟩ := Prod.ext_iff.mp heq
    exact hj
  · exact fun hj => ⟨job, hj, rfl⟩

theorem nothingNewLost_of_ok {polls : List Poll} {l : List (List RunnerResult)}
    (hl : polls.map getProgress = l.map .ok) : NothingNewLost polls := by
  rintro earlier p later rfl message herr
  have hmem : Except.error message ∈ l.map Except.ok := by
    rw [← hl, ← herr]
    simp
  simp at hmem

theorem nothingNewLost_snoc {earlier : List Poll} {p : Poll} {l : List (List RunnerResult)}
    {message : String} (hl : earlier.map getProgress = l.map .ok)
    (herr : getProgress p = .error message) :
    NothingNewLost (earlier ++ [p]) ↔
      ∀ job ∈ finishedResults [p], ∃ job' ∈ finishedResults earlier, job'.name = job.name := by
  constructor
  · intro h
    exact h earlier p [] rfl message herr
  · intro h pre q later heq message' herr'
    rcases List.eq_nil_or_concat later with rfl | ⟨later, last, rfl⟩
    · obtain ⟨rfl, hq⟩ := List.append_inj' heq rfl
      obtain rfl := List.singleton_inj.mp hq
      exact h
    · have hconcat : earlier ++ [p] = (pre ++ q :: later) ++ [last] := by simpa using heq
      obtain ⟨hcut, -⟩ := List.append_inj' hconcat rfl
      exact nothingNewLost_of_ok hl pre q later hcut message' herr'

theorem finishedResults_append (earlier rest : List Poll) :
    finishedResults (earlier ++ rest) = finishedResults earlier ++ finishedResults rest :=
  List.flatMap_append

theorem allReported_iff (earlier rest : List Poll) {l : List (List RunnerResult)}
    (hx : (Polling.machine handle).Execution (Polling.Call.start db₀ k branch) calls c)
    (hrest : c.position.todo = []) (hresponses : Polling.responses calls = l)
    (hl : earlier.map getProgress = l.map .ok) :
    AllReported handle branch (earlier ++ rest) c.inserted ↔
      (∀ job ∈ finishedResults rest, ∃ job' ∈ finishedResults earlier, job'.name = job.name) ∧
        OneResultPerName (earlier ++ rest) := by
  have hfirsts : AllReported handle branch (earlier ++ rest) c.inserted ↔
      ∀ job ∈ finishedResults (earlier ++ rest),
        job ∈ firsts RunnerResult.name (finishedResults earlier) :=
    forall₂_congr fun job _ => mem_inserted_iff hx hrest hresponses hl
  rw [hfirsts, OneResultPerName, finishedResults_append]
  exact forall_mem_firsts_iff RunnerResult.name

theorem others_reported_iff {polls : List Poll}
    (hx : (Polling.machine handle).Execution (Polling.Call.start db₀ k branch) calls c)
    (hp : Polling.answers calls = polls.map getProgress) (hrest : c.position.todo = []) :
    AllReported handle branch polls c.inserted ↔
      NothingNewLost polls ∧ OneResultPerName polls := by
  rcases answers_shape hx with ⟨l, hl⟩ | ⟨l, message, hl, _⟩
  · have hpolls := hp.symm.trans hl
    have hresponses : Polling.responses calls = l := by
      rw [Polling.responses, hl, Fallible.values_map_ok]
    have hiff := allReported_iff polls [] hx hrest hresponses hpolls
    rw [List.append_nil] at hiff
    rw [hiff, and_congr_left_iff]
    exact fun _ => iff_of_true (fun job hjob => by cases hjob) (nothingNewLost_of_ok hpolls)
  · obtain ⟨earlier, last, rfl, hearlier, hlast⟩ :=
      List.map_eq_append_iff.mp (hp.symm.trans hl)
    obtain ⟨p, rest, rfl, herr, hnil⟩ := List.map_eq_cons_iff.mp hlast
    obtain rfl := List.map_eq_nil_iff.mp hnil
    have hresponses : Polling.responses calls = l := by
      rw [Polling.responses, hl, Fallible.values_append, Fallible.values_map_ok]
      exact List.append_nil l
    rw [nothingNewLost_snoc hearlier herr]
    exact allReported_iff earlier [p] hx hrest hresponses hearlier

def pollWith (others : List (WorkflowRun × Jobs)) : Poll where
  runs := .ok ⟨others.length.toUInt64 + 1, passedRun :: others.map Prod.fst⟩
  api := fun i => answering (((passed 1) :: others.map Prod.snd).getD i (passed 1))
    (.ok ⟨⟨0, "sparse"⟩⟩)

def passedResult : RunnerResult :=
  ⟨"build", .completed, .success, some passedRun.htmlUrl, some "Successfully ran 1 jobs."⟩

def reportedCalls : List Polling.Event :=
  [.step (.progress [passedResult]), .step (.report passedResult), .step .settle, .step .remove]

theorem others_reported_iff_sample : AllReported "github" "300" [pollWith []]
    ((Polling.machine "github").run (Polling.Call.start Db.empty 0 "300")
      reportedCalls).inserted := by
  have hruns : (Polling.machine "github").Runs (Polling.Call.start Db.empty 0 "300")
      reportedCalls := by
    refine ⟨⟨_, rfl, rfl⟩, ⟨_, rfl, _, _, rfl⟩, ⟨_, rfl, _, rfl, ?_⟩, ⟨_, rfl, rfl⟩, trivial⟩
    decide
  refine (others_reported_iff hruns.execution rfl rfl).mpr ⟨?_, ?_⟩
  · intro earlier p later heq message herr
    have hmem : p ∈ [pollWith []] := by simp [heq]
    rw [List.mem_singleton.mp hmem] at herr
    cases herr
  · have hone : finishedResults [pollWith []] = [passedResult] := rfl
    intro a ha b hb _
    rw [hone] at ha hb
    exact (List.mem_singleton.mp ha).trans (List.mem_singleton.mp hb).symm

/-- A run that reports a failure although its only job has timed out. -/
def timedOutRun : WorkflowRun × Jobs :=
  ({ failedRun with name := "boot" }, ⟨[⟨"qemu", [], ⟨"https://api.github.com/check/2"⟩,
    .timedOut⟩], 1⟩)

theorem one_error_loses_others : ∃ calls c,
    (Polling.machine "github").Execution (Polling.Call.start Db.empty 0 "300") calls c ∧
      Polling.answers calls = [pollWith [timedOutRun]].map getProgress ∧
      c.position = .returned false ∧
      ¬ AllReported "github" "300" [pollWith [timedOutRun]] c.inserted := by
  have hruns : (Polling.machine "github").Runs (Polling.Call.start Db.empty 0 "300")
      [.error "Run reported Failure but couldn't find failures in jobs"] :=
    ⟨⟨_, rfl, rfl⟩, trivial⟩
  refine ⟨_, _, hruns.execution, rfl, rfl, ?_⟩
  intro h
  have hjob : passedResult ∈ finishedResults [pollWith [timedOutRun]] := List.mem_cons_self
  exact absurd (h passedResult hjob) List.not_mem_nil

end Uninterpretable

end Snowpatch.Outages
