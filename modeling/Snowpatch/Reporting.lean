import Snowpatch.RunnerStage

/-! Checks on Patchwork over whole runs of the program. Every entry on the way from a
runner's answer to the POST is traced back to the `get_progress` call it came from, and the
checks already on a patch keep the dispatcher from posting the same context again. -/
namespace Snowpatch.Reporting

open Pipeline RunnerStage

def Progressed (tr : List Event) (branch : String) (job : RunnerResult) : Prop :=
  ∃ t jobs, Event.wait t (.progress jobs) ∈ tr ∧ t.branch = branch ∧ job ∈ jobs ∧
    job.isFinished = true

def Inserted (tr : List Event) (id : SeriesId) (job : RunnerResult) : Prop :=
  ∃ t, Event.wait t (.report job) ∈ tr ∧ t.branch = id.toDecimal ∧ job.name ∉ t.completed

/-- What an entry of "needs dispatch" stands for. -/
def IsEntry (tr : List Event) (key : String) (job : RunnerResult) : Prop :=
  ∃ id : SeriesId, key = dispatchKey gitHubHandle id.toDecimal job.name ∧ Inserted tr id job

/-- What the dispatcher is about to send stands for. -/
def IsResult (env : Env) (tr : List Event) (key : String) (id : SeriesId) (patch : PatchId)
    (result : TestResult) : Prop :=
  env.lastPatch id = some patch ∧ ∃ job, Inserted tr id job ∧
    key = dispatchKey gitHubHandle id.toDecimal job.name ∧
    result = checkToSend gitHubHandle job.name job

/-- The check an event stores on a patch for this program. -/
def postedBy : Event → Option (PatchId × Check)
  | .dispatch (.post _ patch check) | .dispatch (.postBreaks _ patch check) =>
    some (patch, check)
  | _ => none

def posted (tr : List Event) : List (PatchId × Check) := tr.filterMap postedBy

structure Traced (env : Env) (tr : List Event) (v : View) : Prop where
  reporting : ∀ t ∈ v.waits, ∀ jobs todo, t.pc = .reporting jobs todo →
    ∀ job ∈ todo, Progressed tr t.branch job
  entries : ∀ key job, Finmap.lookup key v.needsDispatch = some job → IsEntry tr key job
  cloned : ∀ key job, Finmap.lookup key v.dispatchLeaf.entries = some job → IsEntry tr key job
  sending : ∀ key job drop, v.dispatch = .sending key job drop → IsEntry tr key job
  result : ∀ key id patch result drop, v.dispatch = .checking key id patch result drop ∨
    v.dispatch = .posting key id patch result drop → IsResult env tr key id patch result

structure PostedOnce (tr : List Event) (v : View) : Prop where
  stored : ∀ p ∈ posted tr, p.2 ∈ v.checks p.1
  fresh : ∀ key id patch result drop, v.dispatch = .posting key id patch result drop →
    ∀ p ∈ posted tr, p.1 = patch → p.2.context ≠ result.encode.context
  nodup : ((posted tr).map fun p => (p.1, p.2.context)).Nodup

section Monotone

variable {tr : List Event} {e : Event}

theorem Progressed.append {branch : String} {job : RunnerResult}
    (h : Progressed tr branch job) : Progressed (tr ++ [e]) branch job := by
  obtain ⟨t, jobs, ht, hb⟩ := h
  exact ⟨t, jobs, List.mem_append_left _ ht, hb⟩

theorem Inserted.append {id : SeriesId} {job : RunnerResult} (h : Inserted tr id job) :
    Inserted (tr ++ [e]) id job := by
  obtain ⟨t, ht, hb⟩ := h
  exact ⟨t, List.mem_append_left _ ht, hb⟩

theorem IsEntry.append {key : String} {job : RunnerResult} (h : IsEntry tr key job) :
    IsEntry (tr ++ [e]) key job := by
  obtain ⟨id, hk, hj⟩ := h
  exact ⟨id, hk, hj.append⟩

theorem IsResult.append {env : Env} {key : String} {id : SeriesId} {patch : PatchId}
    {result : TestResult} (h : IsResult env tr key id patch result) :
    IsResult env (tr ++ [e]) key id patch result := by
  obtain ⟨hp, job, hj, hr⟩ := h
  exact ⟨hp, job, hj.append, hr⟩

end Monotone

variable {env : Env} {s : State}

section Trace

variable {tr : List Event}

theorem reporting_step {e : Event} (h : Traced env tr (view s)) (he : Enabled env s e)
    {t : Completion.Task} (ht : t ∈ (next env s e).proc.waits) {jobs todo : List RunnerResult}
    (hpc : t.pc = .reporting jobs todo) {job : RunnerResult} (hj : job ∈ todo) :
    Progressed (tr ++ [e]) t.branch job := by
  rcases mem_waits_next ht with ht | ⟨k, branch, rfl, rfl⟩ | ⟨u, we, rfl, hn⟩
  · exact (h.reporting t ht jobs todo hpc job hj).append
  · cases hpc
  · obtain ⟨hu, hen⟩ := he
    cases we with
    | progress answer =>
      obtain rfl := Option.some.inj hn
      obtain ⟨rfl, rfl⟩ := Completion.Pc.reporting.inj hpc
      obtain ⟨hmem, hfin⟩ := List.mem_filter.mp hj
      exact ⟨u, answer, by simp, rfl, hmem, hfin⟩
    | report a =>
      obtain ⟨answer, rest, hupc⟩ := hen
      have htodo : t.pc = .reporting answer rest := by
        simp only [Completion.next, hupc] at hn
        split at hn <;> exact (Option.some.inj hn) ▸ rfl
      obtain ⟨rfl, rfl⟩ := Completion.Pc.reporting.inj (hpc.symm.trans htodo)
      rw [(Completion.next_same hn).2]
      exact (h.reporting u hu jobs _ hupc job (List.mem_cons_of_mem _ hj)).append
    | again | settle =>
      obtain rfl := Option.some.inj hn
      cases hpc
    | remove => cases hn

theorem entries_step {e : Event} (hb : BranchesAreIds (view s)) (h : Traced env tr (view s))
    (he : Enabled env s e) {key : String} {job : RunnerResult}
    (hk : Finmap.lookup key (next env s e).db.needsDispatch = some job) :
    IsEntry (tr ++ [e]) key job := by
  rcases lookup_next hk with hk | ⟨t, rfl, hnew, rfl⟩
  · exact (h.entries key job hk).append
  · obtain ⟨id, hid⟩ := hb.waits t he.1
    exact ⟨id, by rw [hid], t, by simp, hid, hnew⟩

theorem space_notMem_gitHubHandle : ' ' ∉ gitHubHandle.toList := by decide

theorem IsEntry.parse {key : String} {job : RunnerResult} (h : IsEntry tr key job) :
    ∃ id : SeriesId, parseEntry key = some (gitHubHandle, id, job.name) ∧
      Inserted tr id job ∧ key = dispatchKey gitHubHandle id.toDecimal job.name := by
  obtain ⟨id, rfl, hj⟩ := h
  exact ⟨id, parseEntry_dispatchKey space_notMem_gitHubHandle id job.name, hj, rfl⟩

theorem sending_step {e : Event} (h : Traced env tr (view s)) (he : Enabled env s e)
    {key : String} {job : RunnerResult} {drop : List String}
    (hs : (next env s e).proc.dispatch = .sending key job drop) : IsEntry (tr ++ [e]) key job := by
  by_cases hd : ∀ d, e ≠ .dispatch d
  · have hold := dispatch_inHand hd (by rw [hs]; trivial)
    exact (h.sending key job drop (hold.symm.trans hs)).append
  · push Not at hd
    obtain ⟨d, rfl⟩ := hd
    have hpc : Dispatch.nextPc ⟨s.db, s.checks, s.proc.dispatch, s.proc.dispatchLeaf⟩ d =
        .sending key job drop := hs
    rcases Dispatch.nextPc_cases he with ⟨k, v, dr, hv, hn⟩ |
      ⟨_, _, _, _, _, _, _, _, _, _, hn⟩ | ⟨_, _, _, _, _, _, _, hn⟩ | hn
    · obtain ⟨rfl, rfl, _⟩ := Dispatch.Pc.sending.inj (hn.symm.trans hpc)
      exact (h.cloned _ _ hv).append
    · cases hn.symm.trans hpc
    · cases hn.symm.trans hpc
    · rw [hpc] at hn
      exact hn.elim

theorem result_step {e : Event} (h : Traced env tr (view s)) (he : Enabled env s e)
    {key : String} {id : SeriesId} {patch : PatchId} {result : TestResult} {drop : List String}
    (hr : (next env s e).proc.dispatch = .checking key id patch result drop ∨
      (next env s e).proc.dispatch = .posting key id patch result drop) :
    IsResult env (tr ++ [e]) key id patch result := by
  by_cases hd : ∀ d, e ≠ .dispatch d
  · have hold := dispatch_inHand hd
      (by rcases hr with hr | hr <;> rw [hr] <;> trivial)
    rw [hold] at hr
    exact (h.result key id patch result drop hr).append
  · push Not at hd
    obtain ⟨d, rfl⟩ := hd
    have hpc : (next env s (.dispatch d)).proc.dispatch =
      Dispatch.nextPc ⟨s.db, s.checks, s.proc.dispatch, s.proc.dispatchLeaf⟩ d := rfl
    rw [hpc] at hr
    rcases Dispatch.nextPc_cases he with ⟨_, _, _, _, hn⟩ |
      ⟨k, v, dr, handle, a, name, p, hsend, hparse, hlast, hn⟩ | ⟨k, a, p, r, dr, hcheck, _, hn⟩ |
      hn
    · rw [hn] at hr
      rcases hr with hr | hr <;> cases hr
    · have hchk : Dispatch.Pc.checking key id patch result drop = _ :=
        (hr.resolve_right (by simp [hn])).symm.trans hn
      obtain ⟨rfl, rfl, rfl, rfl, _⟩ := Dispatch.Pc.checking.inj hchk
      obtain ⟨a, hparse', hjob, hkey⟩ := (h.sending _ v dr hsend).parse
      obtain ⟨rfl, rfl, rfl⟩ : handle = gitHubHandle ∧ id = a ∧ name = v.name := by
        simpa using hparse.symm.trans hparse'
      exact ⟨hlast, v, hjob.append, hkey, rfl⟩
    · have hpost : Dispatch.Pc.posting key id patch result drop = _ :=
        (hr.resolve_left (by simp [hn])).symm.trans hn
      obtain ⟨rfl, rfl, rfl, rfl, rfl⟩ := Dispatch.Pc.posting.inj hpost
      exact (h.result _ _ _ _ _ (Or.inl hcheck)).append
    · rcases hr with hr | hr <;> rw [hr] at hn <;> exact hn.elim

theorem traced_step {e : Event} (hb : BranchesAreIds (view s)) (h : Traced env tr (view s))
    (he : Enabled env s e) : Traced env (tr ++ [e]) (view (next env s e)) where
  reporting := fun _ ht _ _ hpc _ hj => reporting_step h he ht hpc hj
  entries := fun _ _ hk => entries_step hb h he hk
  cloned := by
    intro key job hk
    rcases lookup_dispatchLeaf_next he hk with hk | hk
    · exact (h.cloned key job hk).append
    · exact (h.entries key job hk).append
  sending := fun _ _ _ hs => sending_step h he hs
  result := fun _ _ _ _ _ hr => result_step h he hr

theorem posted_append (e : Event) : posted (tr ++ [e]) = posted tr ++ (postedBy e).toList := by
  cases h : postedBy e <;> simp [posted, h]

theorem PostedOnce.kept {v v' : View} {e : Event} (h : PostedOnce tr v)
    (he : postedBy e = none) (hc : ∀ p, ∀ c ∈ v.checks p, c ∈ v'.checks p)
    (hd : ∀ key id patch result drop, v'.dispatch = .posting key id patch result drop →
      v.dispatch = .posting key id patch result drop ∨
        ¬ Dispatch.IsDuplicate (v.checks patch) result) : PostedOnce (tr ++ [e]) v' := by
  have hp : posted (tr ++ [e]) = posted tr := by simp [posted_append, he]
  refine ⟨fun p hm => hc _ _ (h.stored p (hp ▸ hm)), ?_, hp ▸ h.nodup⟩
  intro key id patch result drop hpc p hm heq
  rw [hp] at hm
  rcases hd key id patch result drop hpc with hpc | hdup
  · exact h.fresh key id patch result drop hpc p hm heq
  · exact fun hctx => hdup ⟨p.2, heq ▸ h.stored p hm, hctx⟩

theorem PostedOnce.post {v v' : View} {e : Event} {key : String} {id : SeriesId}
    {patch : PatchId} {result : TestResult} {drop : List String} (h : PostedOnce tr v)
    (hpc : v.dispatch = .posting key id patch result drop)
    (he : postedBy e = some (patch, result.encode))
    (hc : v'.checks = Function.update v.checks patch (v.checks patch ++ [result.encode]))
    (hd : v'.dispatch.Between) : PostedOnce (tr ++ [e]) v' := by
  have hp : posted (tr ++ [e]) = posted tr ++ [(patch, result.encode)] := by
    simp [posted_append, he]
  refine ⟨?_, ?_, ?_⟩
  · intro p hm
    rw [hc]
    by_cases heq : p.1 = patch
    · rw [heq, Function.update_self]
      rcases List.mem_append.mp (hp ▸ hm) with hm | hm
      · exact List.mem_append_left _ (heq ▸ h.stored p hm)
      · rw [List.mem_singleton.mp hm]
        simp
    · rw [Function.update_of_ne heq]
      rcases List.mem_append.mp (hp ▸ hm) with hm | hm
      · exact h.stored p hm
      · exact absurd (congrArg Prod.fst (List.mem_singleton.mp hm)) heq
  · intro _ _ _ _ _ hpost
    rw [hpost] at hd
    exact hd.elim
  · rw [hp, List.map_append]
    refine h.nodup.append (List.nodup_singleton _) ?_
    simp only [List.disjoint_singleton, List.map_cons, List.map_nil]
    intro hm
    obtain ⟨p, hmem, heq⟩ := List.mem_map.mp hm
    obtain ⟨hpatch, hctx⟩ := Prod.mk.inj heq
    exact h.fresh key id patch result drop hpc p hmem hpatch hctx

theorem posted_once_dispatch {e : Dispatch.Event} (h : PostedOnce tr (view s))
    (he : Enabled env s (.dispatch e)) :
    PostedOnce (tr ++ [.dispatch e]) (view (next env s (.dispatch e))) := by
  have hcases := Dispatch.nextPc_cases he
  cases e with
  | post id patch check =>
    obtain ⟨key, result, drop, hpc, rfl⟩ := he
    refine h.post hpc rfl rfl ?_
    have hpc : s.proc.dispatch = .posting key id patch result drop := hpc
    simp [view, next_dispatch, Dispatch.nextPc, hpc, Dispatch.Pc.Between]
  | postBreaks id patch check =>
    obtain ⟨key, result, drop, hpc, rfl⟩ := he
    exact h.post hpc rfl rfl trivial
  | read | take | noToken | getSeries | duplicate | unique | ends | drop | dropped | wait =>
    refine h.kept rfl (fun _ _ hc => hc) fun key id patch result drop hpost => Or.inr ?_
    rcases hcases with ⟨_, _, _, _, hn⟩ | ⟨_, _, _, _, _, _, _, _, _, _, hn⟩ |
      ⟨_, _, _, _, _, _, hdup, hn⟩ | hn
    · cases hn.symm.trans hpost
    · cases hn.symm.trans hpost
    · obtain ⟨_, _, rfl, rfl, _⟩ := Dispatch.Pc.posting.inj (hn.symm.trans hpost)
      exact hdup
    · exact (hpost ▸ hn : Dispatch.Pc.Between (.posting key id patch result drop)).elim

theorem posted_once_step {e : Event} (h : PostedOnce tr (view s)) (he : Enabled env s e) :
    PostedOnce (tr ++ [e]) (view (next env s e)) := by
  by_cases hd : ∀ d, e ≠ .dispatch d
  · have hpost : postedBy e = none := by
      cases e with
      | dispatch d => exact absurd rfl (hd d)
      | _ => rfl
    refine h.kept hpost ?_ fun key id patch result drop hpc => Or.inl ?_
    · intro p c hc
      by_cases ho : ∀ patch check, e ≠ .otherCheck patch check
      · have hchecks : (next env s e).checks p = s.checks p :=
          congrFun (dispatch_next env s hd ho).1 p
        simpa only [view, hchecks] using hc
      · push Not at ho
        obtain ⟨patch, check, rfl⟩ := ho
        by_cases hp : p = patch
        · subst hp
          simp only [view, next, Function.update_self]
          exact List.mem_append_left _ hc
        · simpa [view, next, hp] using hc
    · have hpc' : (next env s e).proc.dispatch = .posting key id patch result drop := hpc
      exact (dispatch_inHand hd (by rw [hpc']; trivial)).symm.trans hpc'
  · push Not at hd
    obtain ⟨d, rfl⟩ := hd
    exact posted_once_dispatch h he

end Trace

section Results

variable {s₀ : State} {tr : List Event}

theorem execution_traced (hx : (machine env).Execution s₀ tr s) (h₀ : Initial s₀) :
    BranchesAreIds (view s) ∧ Traced env tr (view s) ∧ PostedOnce tr (view s) := by
  refine hx.history (I := fun tr s => BranchesAreIds (view s) ∧ Traced env tr (view s) ∧
    PostedOnce tr (view s)) ?_ fun tr s e _ h he => ⟨branches_step h.1 he,
      traced_step h.1 h.2.1 he, posted_once_step h.2.2 he⟩
  have hv : view s₀ = ⟨fun _ => ∅, ∅, s₀.checks, fun _ => .off, [], .off, fun _ => .start,
      .start⟩ := by
    simp [view, h₀.db_empty, h₀.not_running, Db.empty, Process.stopped]
  rw [hv]
  refine ⟨⟨fun _ _ hb => absurd hb Finmap.notMem_empty, ?_, ?_, ?_⟩, ⟨?_, ?_, ?_, ?_, ?_⟩,
    ⟨?_, ?_, ?_⟩⟩ <;> simp [Names, posted, KvTree.Leaf.start, Finmap.notMem_empty]

theorem progressed_of_inserted (hx : (machine env).Execution s₀ tr s) (h₀ : Initial s₀)
    {id : SeriesId} {job : RunnerResult} (h : Inserted tr id job) :
    Progressed tr id.toDecimal job := by
  obtain ⟨t, ht, hb, _⟩ := h
  obtain ⟨pre, post, u, rfl, hpre, ⟨hmem, jobs, rest, hpc⟩, _⟩ := hx.occurrence ht
  obtain ⟨t', jobs', ht', hbranch, hj⟩ := (execution_traced hpre h₀).2.1.reporting t hmem jobs _
    hpc job List.mem_cons_self
  exact ⟨t', jobs', List.mem_append_left _ ht', hbranch.trans hb, hj⟩

/-- A check this program stores on a patch, with the series it was sent for. -/
def Posts (e : Event) (id : SeriesId) (patch : PatchId) (check : Check) : Prop :=
  e = .dispatch (.post id patch check) ∨ e = .dispatch (.postBreaks id patch check)

/-- Every check posted is a finished job of the series, as some `get_progress` on its branch
returned it; no two checks posted on one patch have the same context. -/
theorem checks_sound_and_unique (hx : (machine env).Execution s₀ tr s) (h₀ : Initial s₀) :
    (∀ e ∈ tr, ∀ id patch check, Posts e id patch check →
      env.lastPatch id = some patch ∧ ∃ t jobs job, Event.wait t (.progress jobs) ∈ tr ∧
        t.branch = id.toDecimal ∧ job ∈ jobs ∧
        (job.state = .completed ∨ job.state = .failed) ∧
        check.context.toList = ("github-" ++ job.name).toList.map
          (fun c => if c.isAlphanum || c == '-' || c == '_' then c else '_') ∧
        check.state = job.outcome ∧ check.targetUrl = job.url.map Url.text ∧
        check.description = job.description) ∧
    ((posted tr).map fun p => (p.1, p.2.context)).Nodup := by
  refine ⟨?_, (execution_traced hx h₀).2.2.nodup⟩
  intro e he id patch check hpost
  obtain ⟨pre, post, u, rfl, hpre, hen, _⟩ := hx.occurrence he
  have hresult : ∃ key result drop,
      u.proc.dispatch = .posting key id patch result drop ∧ check = result.encode := by
    rcases hpost with rfl | rfl <;> exact hen
  obtain ⟨key, result, drop, hpc, rfl⟩ := hresult
  obtain ⟨hlast, job, hins, _, rfl⟩ :=
    (execution_traced hpre h₀).2.1.result key id patch result drop (Or.inr hpc)
  obtain ⟨t, jobs, hmem, hb, hj, hfin⟩ := progressed_of_inserted hpre h₀ hins
  refine ⟨hlast, t, jobs, job, List.mem_append_left _ hmem, hb, hj, ?_,
    String.toList_ofList, rfl, rfl, rfl⟩
  cases hs : job.state <;> simp [RunnerResult.isFinished, hs] at hfin ⊢

theorem send_runs {key handle name : String} {value : RunnerResult} {drop : List String}
    {id : SeriesId} {patch : PatchId} (hpc : s.proc.dispatch = .sending key value drop)
    (htoken : s.proc.config.patchworkToken.isSome)
    (hparse : parseEntry key = some (handle, id, name)) (hlast : env.lastPatch id = some patch)
    (hdup : ¬ Dispatch.IsDuplicate (s.checks patch) (checkToSend handle name value)) :
    (machine env).Runs s [.dispatch (.getSeries patch), .dispatch .unique,
      .dispatch (.post id patch (checkToSend handle name value).encode)] := by
  refine ⟨⟨htoken, key, value, drop, handle, id, name, hpc, hparse, hlast⟩,
    ⟨key, id, patch, checkToSend handle name value, drop, ?_, hdup⟩,
    ⟨key, checkToSend handle name value, drop, ?_, rfl⟩, trivial⟩ <;>
  simp [machine, next_dispatch, Dispatch.nextPc, hpc, hparse]

/-- The sample series after its tests: the one finished job is sent. -/
def sampleSending : List Event :=
  [.dispatch (.read (.whole Sample.final.db.needsDispatch) true),
    .dispatch (.take (dispatchKey gitHubHandle Sample.id.toDecimal Sample.job.name)),
    .dispatch (.getSeries 7), .dispatch .unique,
    .dispatch (.post Sample.id 7 (checkToSend gitHubHandle Sample.job.name Sample.job).encode)]

theorem sampleSending_runs : (machine Sample.env).Runs Sample.final sampleSending := by
  refine ⟨⟨⊥, [], rfl, KvTree.Leaf.reads_whole (by decide)⟩, ⟨⊥, [], rfl, by decide⟩,
    send_runs rfl rfl ?_ rfl ?_⟩
  · exact parseEntry_dispatchKey space_notMem_gitHubHandle Sample.id Sample.job.name
  · rintro ⟨c, hc, _⟩
    cases hc

theorem checks_sound_and_unique_sample :
    (∃ t jobs job, Event.wait t (.progress jobs) ∈ Sample.trace ++ sampleSending ∧
      t.branch = Sample.id.toDecimal ∧ job ∈ jobs ∧
      "github-build_it".toList = ("github-" ++ job.name).toList.map
        (fun c => if c.isAlphanum || c == '-' || c == '_' then c else '_')) ∧
    ((posted (Sample.trace ++ sampleSending)).map fun p => (p.1, p.2.context)).Nodup := by
  obtain ⟨hsound, honce⟩ := checks_sound_and_unique
    (Sample.execution.append sampleSending_runs.execution) Sample.state_initial
  obtain ⟨_, t, jobs, job, hmem, hb, hj, _, hcontext, _⟩ :=
    hsound (.dispatch (.post Sample.id 7 _))
      (List.mem_append_right _ (by simp [sampleSending]; rfl)) _ _ _ (Or.inl rfl)
  exact ⟨⟨t, jobs, job, hmem, hb, hj, hcontext⟩, honce⟩

end Results

end Snowpatch.Reporting
