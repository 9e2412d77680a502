import Snowpatch.Reporting
import Snowpatch.Startup

/-! What becomes of a result. The dispatcher drops an entry once a check with its sanitised
context is on the last patch of the series. That check is the job's own, unless another job
whose context is rewritten to the same text, or another user of Patchwork, has come first. -/
namespace Snowpatch.Delivery

open Pipeline RunnerStage Reporting

/-- A token is configured, and no request of the dispatcher fails. -/
def Answered (_ : State) : Event → Prop
  | .start config _ => config.patchworkToken.isSome
  | .dispatch (.postBreaks _ _ _) => False
  | _ => True

def contextOf (jobName : String) : String :=
  serializeContext (some (gitHubHandle ++ "-" ++ jobName))

def checkOf (job : RunnerResult) : Check := (checkToSend gitHubHandle job.name job).encode

/-- A check on a patch was there before the first start, or another user of Patchwork has
added it, or it is the check of an inserted job. -/
def Origin (env : Env) (s₀ : State) (tr : List Event) (patch : PatchId) (check : Check) : Prop :=
  check ∈ s₀.checks patch ∨ Event.otherCheck patch check ∈ tr ∨
    ∃ id job, Inserted tr id job ∧ env.lastPatch id = some patch ∧ check = checkOf job

/-- The entries of the current pass that have been sent and not yet removed. -/
def keysToDrop : Dispatch.Pc → List String
  | .iterate _ drop | .sending _ _ drop | .checking _ _ _ _ drop | .posting _ _ _ _ drop
  | .dropping drop => drop
  | .off | .waiting _ | .aborted => []

/-- The last patch of the series of an entry has a check with the context of its job. -/
def Present (env : Env) (checks : PatchId → List Check) (key : String) : Prop :=
  ∃ id : SeriesId, ∃ name patch, key = dispatchKey gitHubHandle id.toDecimal name ∧
    env.lastPatch id = some patch ∧ ∃ check ∈ checks patch, check.context = contextOf name

structure Answers (env : Env) (s₀ : State) (tr : List Event) (v : View) : Prop where
  origin : ∀ patch, ∀ check ∈ v.checks patch, Origin env s₀ tr patch check
  dropping : ∀ key ∈ keysToDrop v.dispatch, Present env v.checks key
  dropped : ∀ key, Event.dispatch (.drop key) ∈ tr → Present env v.checks key

variable {env : Env} {s₀ s : State} {tr : List Event} {e : Event}

theorem Origin.append {patch : PatchId} {check : Check} (h : Origin env s₀ tr patch check) :
    Origin env s₀ (tr ++ [e]) patch check := by
  rcases h with h | h | ⟨id, job, hjob, hlast, hc⟩
  · exact Or.inl h
  · exact Or.inr (Or.inl (List.mem_append_left _ h))
  · exact Or.inr (Or.inr ⟨id, job, hjob.append, hlast, hc⟩)

theorem Present.mono {checks checks' : PatchId → List Check} {key : String}
    (h : Present env checks key) (hc : ∀ p, ∀ c ∈ checks p, c ∈ checks' p) :
    Present env checks' key := by
  obtain ⟨id, name, patch, hk, hlast, check, hmem, hctx⟩ := h
  exact ⟨id, name, patch, hk, hlast, check, hc patch check hmem, hctx⟩

theorem keysToDrop_notify (pc : Dispatch.Pc) : keysToDrop pc.notify = keysToDrop pc := by
  cases pc <;> rfl

theorem Answers.kept {v v' : View} (h : Answers env s₀ tr v) (hc : v'.checks = v.checks)
    (hd : ∀ key ∈ keysToDrop v'.dispatch, key ∈ keysToDrop v.dispatch)
    (he : ∀ key, e ≠ .dispatch (.drop key)) : Answers env s₀ (tr ++ [e]) v' where
  origin := fun patch check hm => (h.origin patch check (hc ▸ hm)).append
  dropping := fun key hk => hc ▸ h.dropping key (hd key hk)
  dropped := by
    intro key hk
    rcases List.mem_append.mp hk with hk | hk
    · exact hc ▸ h.dropped key hk
    · exact absurd (List.mem_singleton.mp hk).symm (he key)

theorem Answers.stored {v v' : View} {check : Check} (h : Answers env s₀ tr v)
    (patch : PatchId)
    (hc : v'.checks = Function.update v.checks patch (v.checks patch ++ [check]))
    (horigin : Origin env s₀ (tr ++ [e]) patch check)
    (hd : ∀ key ∈ keysToDrop v'.dispatch,
      key ∈ keysToDrop v.dispatch ∨ Present env v'.checks key)
    (he : ∀ key, e ≠ .dispatch (.drop key)) : Answers env s₀ (tr ++ [e]) v' := by
  have hmono : ∀ p, ∀ c ∈ v.checks p, c ∈ v'.checks p := by
    intro p c hm
    rw [hc]
    by_cases hp : p = patch
    · subst hp
      simp [hm]
    · simpa [hp] using hm
  refine ⟨?_, ?_, ?_⟩
  · intro p c hm
    by_cases hp : p = patch
    · subst hp
      rw [hc, Function.update_self] at hm
      rcases List.mem_append.mp hm with hm | hm
      · exact (h.origin p c hm).append
      · exact List.mem_singleton.mp hm ▸ horigin
    · rw [hc, Function.update_of_ne hp] at hm
      exact (h.origin p c hm).append
  · intro key hk
    rcases hd key hk with hk | hk
    · exact (h.dropping key hk).mono hmono
    · exact hk
  · intro key hk
    rcases List.mem_append.mp hk with hk | hk
    · exact (h.dropped key hk).mono hmono
    · exact absurd (List.mem_singleton.mp hk).symm (he key)

section Dispatch

theorem answers_duplicate (ht : Traced env tr (view s)) (h : Answers env s₀ tr (view s))
    (he : Enabled env s (.dispatch .duplicate)) :
    Answers env s₀ (tr ++ [.dispatch .duplicate]) (view (next env s (.dispatch .duplicate))) := by
  obtain ⟨key, id, patch, result, drop, hpc, check, hmem, hctx⟩ := he
  have hpc : s.proc.dispatch = _ := hpc
  obtain ⟨hlast, job, _, rfl, rfl⟩ := ht.result key id patch result drop (Or.inl hpc)
  have hdisp : (view (next env s (.dispatch .duplicate))).dispatch =
      .iterate (dispatchKey gitHubHandle id.toDecimal job.name)
        (drop ++ [dispatchKey gitHubHandle id.toDecimal job.name]) := by
    simp [view, next_dispatch, Dispatch.nextPc, hpc]
  have hpresent : Present env s.checks (dispatchKey gitHubHandle id.toDecimal job.name) :=
    ⟨id, job.name, patch, rfl, hlast, check, hmem, hctx⟩
  refine ⟨fun p c hm => (h.origin p c hm).append, ?_, ?_⟩
  · intro k hk
    rw [hdisp] at hk
    rcases List.mem_append.mp hk with hk | hk
    · exact h.dropping k (by simpa [view, hpc, keysToDrop] using hk)
    · exact List.mem_singleton.mp hk ▸ hpresent
  · intro k hk
    exact h.dropped k ((List.mem_append.mp hk).resolve_right (by simp))

theorem answers_post {id : SeriesId} {patch : PatchId} {check : Check}
    (ht : Traced env tr (view s)) (h : Answers env s₀ tr (view s))
    (he : Enabled env s (.dispatch (.post id patch check))) :
    Answers env s₀ (tr ++ [.dispatch (.post id patch check)])
      (view (next env s (.dispatch (.post id patch check)))) := by
  obtain ⟨key, result, drop, hpc, rfl⟩ := he
  have hpc : s.proc.dispatch = _ := hpc
  obtain ⟨hlast, job, hins, rfl, rfl⟩ := ht.result key id patch result drop (Or.inr hpc)
  refine h.stored patch rfl (Or.inr (Or.inr ⟨id, job, hins.append, hlast, rfl⟩)) ?_ (by simp)
  intro k hk
  have hdisp : (view (next env s (.dispatch (.post id patch
      (checkToSend gitHubHandle job.name job).encode)))).dispatch =
      .iterate (dispatchKey gitHubHandle id.toDecimal job.name)
        (drop ++ [dispatchKey gitHubHandle id.toDecimal job.name]) := by
    simp [view, next_dispatch, Dispatch.nextPc, hpc]
  rw [hdisp] at hk
  rcases List.mem_append.mp hk with hk | hk
  · exact Or.inl (by simpa [view, hpc, keysToDrop] using hk)
  · obtain rfl := List.mem_singleton.mp hk
    refine Or.inr ⟨id, job.name, patch, rfl, hlast, checkOf job, ?_, rfl⟩
    simp [view, next, dispatchNext, Dispatch.next, Dispatch.nextChecks, checkOf]

theorem answers_dispatch {e : Dispatch.Event} (htoken : s.proc.dispatch ≠ .off →
    s.proc.config.patchworkToken.isSome) (ht : Traced env tr (view s))
    (h : Answers env s₀ tr (view s)) (he : Enabled env s (.dispatch e))
    (ha : Answered s (.dispatch e)) :
    Answers env s₀ (tr ++ [.dispatch e]) (view (next env s (.dispatch e))) := by
  cases e with
  | duplicate => exact answers_duplicate ht h he
  | post => exact answers_post ht h he
  | postBreaks => exact ha.elim
  | noToken =>
    obtain ⟨hnone, _, _, _, hpc, _⟩ := he
    have hpc : s.proc.dispatch = _ := hpc
    have hsome := htoken (by simp [hpc])
    simp [hnone] at hsome
  | read =>
    obtain ⟨cursor, drop, hpc, _⟩ := he
    have hpc : s.proc.dispatch = _ := hpc
    refine h.kept rfl ?_ (by simp)
    simp [view, next_dispatch, Dispatch.nextPc, keysToDrop, hpc]
  | take key =>
    obtain ⟨cursor, drop, hpc, hnext⟩ := he
    have hpc : s.proc.dispatch = _ := hpc
    obtain ⟨value, hv⟩ := Finmap.mem_iff.mp (KvTree.mem_of_first hnext)
    refine h.kept rfl ?_ (by simp)
    simp [view, next_dispatch, Dispatch.nextPc, keysToDrop, hv, hpc]
  | getSeries patch =>
    obtain ⟨_, key, value, drop, handle, id, name, hpc, hparse, _⟩ := he
    have hpc : s.proc.dispatch = _ := hpc
    refine h.kept rfl ?_ (by simp)
    simp [view, next_dispatch, Dispatch.nextPc, keysToDrop, hparse, hpc]
  | unique =>
    obtain ⟨key, id, patch, result, drop, hpc, _⟩ := he
    have hpc : s.proc.dispatch = _ := hpc
    refine h.kept rfl ?_ (by simp)
    simp [view, next_dispatch, Dispatch.nextPc, keysToDrop, hpc]
  | ends =>
    obtain ⟨cursor, drop, hpc, _⟩ := he
    have hpc : s.proc.dispatch = _ := hpc
    refine h.kept rfl ?_ (by simp)
    simp [view, next_dispatch, Dispatch.nextPc, keysToDrop, hpc]
  | dropped =>
    exact h.kept rfl (by simp [view, next_dispatch, Dispatch.nextPc, keysToDrop]) (by simp)
  | wait w =>
    obtain ⟨v, hpc, _⟩ := he
    have hpc : s.proc.dispatch = _ := hpc
    refine h.kept rfl ?_ (by simp)
    intro key hk
    cases hn : v.next w <;> simp [view, next_dispatch, Dispatch.nextPc, hn, keysToDrop, hpc] at hk
  | drop key =>
    obtain ⟨rest, hpc⟩ := he
    have hpc : s.proc.dispatch = _ := hpc
    have hpresent : ∀ k ∈ key :: rest, Present env s.checks k := fun k hk =>
      h.dropping k (by simpa [view, hpc, keysToDrop] using hk)
    refine ⟨fun p c hm => (h.origin p c hm).append, ?_, ?_⟩
    · intro k hk
      refine hpresent k (List.mem_cons_of_mem _ ?_)
      simpa [view, next_dispatch, Dispatch.nextPc, keysToDrop, hpc] using hk
    · intro k hk
      rcases List.mem_append.mp hk with hk | hk
      · exact h.dropped k hk
      · cases List.mem_singleton.mp hk
        exact hpresent key List.mem_cons_self

end Dispatch

theorem answers_step (htoken : s.proc.dispatch ≠ .off → s.proc.config.patchworkToken.isSome)
    (ht : Traced env tr (view s)) (h : Answers env s₀ tr (view s)) (he : Enabled env s e)
    (ha : Answered s e) : Answers env s₀ (tr ++ [e]) (view (next env s e)) := by
  by_cases hd : ∀ d, e ≠ .dispatch d
  · by_cases ho : ∀ patch check, e ≠ .otherCheck patch check
    · obtain ⟨hchecks, hdisp⟩ := dispatch_next env s hd ho
      refine h.kept hchecks ?_ fun key => hd _
      intro key hk
      have hk' : key ∈ keysToDrop (next env s e).proc.dispatch := hk
      rcases hdisp with hn | hn | hn | hn <;> rw [hn] at hk'
      · exact hk'
      · exact keysToDrop_notify s.proc.dispatch ▸ hk'
      · cases hk'
      · cases hk'
    · push Not at ho
      obtain ⟨patch, check, rfl⟩ := ho
      exact h.stored patch rfl (Or.inr (Or.inl (by simp))) (fun _ hk => Or.inl hk) (by simp)
  · push Not at hd
    obtain ⟨d, rfl⟩ := hd
    exact answers_dispatch htoken ht h he ha

section Results

theorem execution_answers (hx : ((machine env).restrict Answered).Execution s₀ tr s)
    (h₀ : Initial s₀) : Answers env s₀ tr (view s) := by
  refine hx.history (I := fun tr s => Answers env s₀ tr (view s)) ?_ fun tr s e hx h he => ?_
  · refine ⟨fun _ _ hm => Or.inl hm, ?_, fun key hk => absurd hk List.not_mem_nil⟩
    intro key hk
    simp [view, h₀.not_running, Process.stopped, keysToDrop] at hk
  · refine answers_step ?_ (execution_traced hx.of_restrict h₀).2.1 h he.1 he.2
    intro hon
    refine Startup.execution_config (P := fun c => c.patchworkToken.isSome)
      (fun _ _ _ hc => hc) hx h₀ fun hoff => hon ?_
    rw [(Startup.execution_booted hx.of_restrict h₀).off_stopped hoff]
    rfl

def Foreign (env : Env) (s₀ : State) (tr : List Event) (id : SeriesId) (name : String)
    (patch : PatchId) (check : Check) : Prop :=
  check ∈ s₀.checks patch ∨ Event.otherCheck patch check ∈ tr ∨
    ∃ id' job, Inserted tr id' job ∧ env.lastPatch id' = some patch ∧
      (id' ≠ id ∨ job.name ≠ name) ∧ check = checkOf job

theorem dispatchKey_inj {id id' : SeriesId} {name name' : String}
    (h : dispatchKey gitHubHandle id.toDecimal name =
      dispatchKey gitHubHandle id'.toDecimal name') : id = id' ∧ name = name' := by
  have hp := parseEntry_dispatchKey space_notMem_gitHubHandle id name
  rw [h, parseEntry_dispatchKey space_notMem_gitHubHandle] at hp
  simpa using hp.symm

/-- Once the entry of a job is dropped, a check with its sanitised context is on the last
patch, and it is the job's own unless it is somebody else's. -/
theorem dropped_result_has_check
    (hx : ((machine env).restrict Answered).Execution s₀ tr s) (h₀ : Initial s₀)
    (id : SeriesId) (job : RunnerResult)
    (honce : ∀ a, Inserted tr id a → a.name = job.name → a = job)
    (hdrop : Event.dispatch (.drop (dispatchKey gitHubHandle id.toDecimal job.name)) ∈ tr) :
    ∃ patch, env.lastPatch id = some patch ∧ ∃ check ∈ s.checks patch,
      check.context = contextOf job.name ∧
      ((check.state = job.outcome ∧ check.targetUrl = job.url.map Url.text ∧
        check.description = job.description) ∨ Foreign env s₀ tr id job.name patch check) := by
  have h := execution_answers hx h₀
  obtain ⟨a, name, patch, hkey, hlast, check, hmem, hctx⟩ := h.dropped _ hdrop
  obtain ⟨rfl, rfl⟩ := dispatchKey_inj hkey
  refine ⟨patch, hlast, check, hmem, hctx, ?_⟩
  rcases h.origin patch check hmem with hi | ho | ⟨a, other, hins, hlast', rfl⟩
  · exact Or.inr (Or.inl hi)
  · exact Or.inr (Or.inr (Or.inl ho))
  · by_cases hsame : a = id ∧ other.name = job.name
    · obtain ⟨rfl, hname⟩ := hsame
      obtain rfl := honce other hins hname
      exact Or.inl ⟨rfl, rfl, rfl⟩
    · exact Or.inr (Or.inr (Or.inr ⟨a, other, hins, hlast', not_and_or.mp hsame, rfl⟩))

def samplePass : List Event :=
  sampleSending ++ [.dispatch .ends,
    .dispatch (.drop (dispatchKey gitHubHandle Sample.id.toDecimal Sample.job.name))]

theorem inserted_sample {job : RunnerResult}
    (h : Inserted (Sample.trace ++ samplePass) Sample.id job) : job = Sample.job := by
  obtain ⟨t, ht, _⟩ := h
  simp only [Sample.trace, Sample.boot, Sample.discover, Sample.ingest, Sample.gitWork,
    Sample.testing, samplePass, sampleSending] at ht
  simp at ht
  exact ht.2

theorem dropped_result_has_check_sample :
    ∃ patch, Sample.env.lastPatch Sample.id = some patch ∧
      ∃ check ∈ ((machine Sample.env).run Sample.final samplePass).checks patch,
        check.context = contextOf Sample.job.name := by
  have htrace : ((machine Sample.env).restrict Answered).Runs Sample.state Sample.trace :=
    Sample.runs.restrict (by simp [Sample.trace, Sample.boot, Sample.discover, Sample.ingest,
      Sample.gitWork, Sample.testing, Answered, Sample.config])
  have hpass : (machine Sample.env).Runs Sample.final samplePass :=
    Machine.runs_append.mpr ⟨sampleSending_runs, ⟨_, _, rfl, by decide⟩, ⟨_, rfl⟩, trivial⟩
  have hpass' := hpass.restrict (C := Answered) (by simp [samplePass, sampleSending, Answered])
  obtain ⟨patch, hlast, check, hmem, hctx, _⟩ :=
    dropped_result_has_check (htrace.execution.append hpass'.execution) Sample.state_initial
      Sample.id Sample.job (fun a ha _ => inserted_sample ha)
      (List.mem_append_right _ (by simp [samplePass]))
  exact ⟨patch, hlast, check, hmem, hctx⟩

end Results

/-! Two jobs of one series whose contexts are rewritten to the same text. -/
section Swallowed

def rival : RunnerResult := ⟨"build_it", .completed, .fail, none, none⟩

def results : KvTree String RunnerResult :=
  ((∅ : KvTree String RunnerResult).insert "github 300 build it" Sample.job).insert
    "github 300 build_it" rival

def swallowing : List Event :=
  [.wait ⟨0, "300", [], .polling⟩ (.progress [Sample.job, rival]),
    .wait ⟨0, "300", [], .reporting [Sample.job, rival] [Sample.job, rival]⟩
      (.report Sample.job),
    .wait ⟨0, "300", ["build it"], .reporting [Sample.job, rival] [rival]⟩ (.report rival),
    .dispatch (.read (.whole results) true),
    .dispatch (.take "github 300 build it"), .dispatch (.getSeries 7), .dispatch .unique,
    .dispatch (.post Sample.id 7 (checkOf Sample.job)),
    .dispatch (.take "github 300 build_it"), .dispatch (.getSeries 7), .dispatch .duplicate,
    .dispatch .ends, .dispatch (.drop "github 300 build it"),
    .dispatch (.drop "github 300 build_it")]

def swallowTrace : List Event :=
  Sample.boot ++ Sample.discover ++ Sample.ingest ++ Sample.gitWork ++ Sample.testing.take 5 ++
    swallowing

theorem swallowTrace_runs : (machine Sample.env).Runs Sample.state swallowTrace := by
  have hsample : (machine Sample.env).Runs Sample.state (Sample.boot ++ Sample.discover ++
      Sample.ingest ++ Sample.gitWork ++ Sample.testing.take 5 ++ Sample.testing.drop 5) :=
    Sample.runs
  have hrival : parseEntry "github 300 build_it" = some ("github", Sample.id, "build_it") :=
    parseEntry_dispatchKey space_notMem_gitHubHandle Sample.id rival.name
  have hjob : parseEntry "github 300 build it" = some ("github", Sample.id, "build it") :=
    parseEntry_dispatchKey space_notMem_gitHubHandle Sample.id Sample.job.name
  refine Machine.runs_append.mpr ⟨(Machine.runs_append.mp hsample).1, ⟨List.mem_cons_self, rfl⟩,
    ⟨List.mem_cons_self, _, _, rfl⟩, ⟨List.mem_cons_self, _, _, rfl⟩,
    ⟨⊥, [], rfl, KvTree.Leaf.reads_whole ?_⟩, ⟨⊥, [], rfl, ?_⟩,
    ⟨rfl, _, Sample.job, [], _, _, _, rfl, hjob, rfl⟩, ⟨_, _, _, _, _, rfl, ?_⟩,
    ⟨_, _, _, rfl, rfl⟩, ⟨_, _, rfl, ?_⟩,
    ⟨rfl, _, rival, ["github 300 build it"], _, _, _, rfl, hrival, rfl⟩,
    ⟨_, _, _, _, _, rfl, checkOf Sample.job, ?_, ?_⟩, ⟨_, _, rfl, ?_⟩, ⟨_, rfl⟩, ⟨_, rfl⟩, trivial⟩
  · decide
  · decide
  · rintro ⟨c, hc, _⟩
    cases hc
  · decide
  · exact List.mem_cons_self
  · decide
  · decide

theorem result_swallowed : ∃ tr s,
    ((machine Sample.env).restrict Answered).Execution Sample.state tr s ∧
    (∀ a b, Inserted tr Sample.id a → Inserted tr Sample.id b → a.name = b.name → a = b) ∧
    Inserted tr Sample.id rival ∧
    Event.dispatch (.drop (dispatchKey gitHubHandle Sample.id.toDecimal rival.name)) ∈ tr ∧
    ¬ ∃ patch check, Sample.env.lastPatch Sample.id = some patch ∧ check ∈ s.checks patch ∧
      check.state = rival.outcome ∧ check.targetUrl = rival.url.map Url.text ∧
      check.description = rival.description := by
  have hruns : ((machine Sample.env).restrict Answered).Runs Sample.state swallowTrace :=
    swallowTrace_runs.restrict (by simp [swallowTrace, swallowing, Sample.boot, Sample.discover,
      Sample.ingest, Sample.gitWork, Sample.testing, Answered, Sample.config])
  refine ⟨swallowTrace, _, hruns.execution, ?_, ?_, ?_, ?_⟩
  · intro a b ha hb hab
    have hcases : ∀ c, Inserted swallowTrace Sample.id c → c = Sample.job ∨ c = rival := by
      rintro c ⟨t, ht, _⟩
      simp only [swallowTrace, swallowing, Sample.boot, Sample.discover, Sample.ingest,
        Sample.gitWork, Sample.testing] at ht
      simp at ht
      exact ht.imp And.right And.right
    rcases hcases a ha with rfl | rfl <;> rcases hcases b hb with rfl | rfl
    · rfl
    · simp [Sample.job, rival] at hab
    · simp [Sample.job, rival] at hab
    · rfl
  · exact ⟨⟨0, "300", ["build it"], .reporting [Sample.job, rival] [rival]⟩,
      by simp [swallowTrace, swallowing], rfl, by decide⟩
  · refine List.mem_append_right _ ?_
    simp [swallowing]
    decide
  · rintro ⟨patch, check, hlast, hmem, hstate, _⟩
    cases hlast
    obtain rfl : check = checkOf Sample.job := List.mem_singleton.mp hmem
    cases hstate

end Swallowed

end Snowpatch.Delivery
