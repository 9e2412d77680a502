import Snowpatch.PushContent
import Snowpatch.Startup
import Snowpatch.Library.Refinement

/-! What is under test, in whole runs of the program. The runs refine the executions of
`do_work` that `PushContent` is about: the calls on the threads are the executions there, a
stop of the process abandons them all, and everything else changes the database or master.
So every branch in a runner tree is on a remote, as the submission of its own series. -/
namespace Snowpatch.Submissions

open Pipeline

/-- The `do_work` on a thread, if its task has come so far. -/
def inWork : Option (SeriesId × Worker.Pc) → Option (SeriesId × DoWork.Pc)
  | some (id, .working pc) => some (id, pc)
  | _ => none

def abs (s : State) : PushContent.State := ⟨s.db, s.git, fun i => inWork (s.proc.thread i)⟩

def abandonAll (threads : ℕ) : List PushContent.Event :=
  (List.range threads).map .abandon

variable (env : Env)

def label (s : State) (e : Event) : List PushContent.Event :=
  match e with
  | .worker i id .startWork => [.begin i id]
  | .worker i id (.work e) => [.work i id e]
  | .worker i _ .remove | .worker i _ .moveToFailures =>
    [.changeDb (next env s e).db, .abandon i]
  | .start _ _ | .stop => abandonAll s.proc.threads ++ [.changeDb (next env s e).db]
  | .moveMaster target => [.moveMaster target]
  | _ => [.changeDb (next env s e).db]

variable {env}

section Steps

variable {s : State}

def Bounded (s : State) : Prop := ∀ i, s.proc.threads ≤ i → s.proc.thread i = none

theorem bounded_step {e : Event} (h : Bounded s) (he : Enabled env s e) :
    Bounded (next env s e) := by
  intro i hi
  cases e using GitStage.event_cases with
  | elsewhere e ho =>
    have hthread : (next env s e).proc.thread = s.proc.thread :=
      congrArg (·.thread) (GitStage.view_elsewhere env s ho)
    have hthreads : (next env s e).proc.threads = s.proc.threads := by
      refine Startup.threads_next ?_ ?_
      · rintro config threads rfl
        exact ho
      · rintro rfl
        exact ho
    rw [hthread]
    exact h i (hthreads ▸ hi)
  | start | stop => rfl
  | beginScan | scan | ingest => exact h i hi
  | begin j id =>
    have hj : j < s.proc.threads := he.1
    have hne : i ≠ j := by
      rintro rfl
      exact absurd hj (not_lt.mpr hi)
    simpa [next, hne] using h i hi
  | worker j id e =>
    obtain ⟨pc, hj, _⟩ := he
    obtain ⟨w, hw, _⟩ := workerNext_proc env id hj e
    rw [hw] at hi ⊢
    have hne : i ≠ j := by
      rintro rfl
      cases (h i hi).symm.trans hj
    simpa [hne] using h i hi

theorem inWork_update (thread : ℕ → Option (SeriesId × Worker.Pc)) (i : ℕ)
    (x : Option (SeriesId × Worker.Pc)) : (fun j => inWork (Function.update thread i x j)) =
      Function.update (fun j => inWork (thread j)) i (inWork x) := by
  funext j
  by_cases hj : j = i
  · subst hj
    simp
  · simp [hj]

theorem changeDb_step {e : Event} (hgit : (next env s e).git = s.git)
    (hthread : ∀ i, inWork ((next env s e).proc.thread i) = inWork (s.proc.thread i)) :
    (PushContent.machine env.apply).Execution (abs s) [.changeDb (next env s e).db]
      (abs (next env s e)) := by
  have hnext : abs (next env s e) =
      PushContent.next env.apply (abs s) (.changeDb (next env s e).db) := by
    simp [abs, PushContent.next, hgit, hthread]
  rw [hnext]
  exact Machine.Execution.single (e := PushContent.Event.changeDb _) trivial

theorem abandon_all (p : PushContent.State) (n : ℕ) :
    (PushContent.machine env.apply).Execution p (abandonAll n)
      { p with task := fun i => if i < n then none else p.task i } := by
  induction n with
  | zero => exact .nil
  | succ n ih =>
    have hlast := Machine.Execution.snoc (M := PushContent.machine env.apply)
      (PushContent.Event.abandon n) ih trivial
    have hnext : (PushContent.machine env.apply).next
        { p with task := fun i => if i < n then none else p.task i } (.abandon n) =
          { p with task := fun i => if i < n + 1 then none else p.task i } := by
      simp only [PushContent.machine, PushContent.next, PushContent.State.mk.injEq, true_and]
      funext i
      by_cases hi : i = n
      · subst hi
        simp
      · simp only [Function.update_of_ne hi]
        exact if_congr (by omega) rfl rfl
    rw [hnext] at hlast
    rw [abandonAll, List.range_succ, List.map_append]
    exact hlast

theorem step_around {i : ℕ} {id : SeriesId} {pc : Worker.Pc} {e : Worker.Event}
    (hi : s.proc.thread i = some (id, pc)) (hpc : inWork (some (id, pc)) = none)
    (hnext : inWork ((Worker.nextPc pc e).map fun pc => (id, pc)) = none)
    (hgit : Worker.nextGit env.apply i id ⟨s.db, s.git, pc⟩ e = s.git) :
    (PushContent.machine env.apply).Execution (abs s)
      [.changeDb (next env s (.worker i id e)).db] (abs (next env s (.worker i id e))) := by
  refine changeDb_step ?_ fun j => ?_
  · simp only [next, workerNext, hi, hgit]
  · have hthread : (next env s (.worker i id e)).proc.thread = _ :=
      congrArg (·.thread) (GitStage.view_worker env hi)
    rw [hthread, congrFun (inWork_update s.proc.thread i _) j, hnext, ← hpc, ← hi]
    exact congrFun (Function.update_eq_self i fun j => inWork (s.proc.thread j)) j

theorem step_returns {i : ℕ} {id : SeriesId} {pc : Worker.Pc} {e : Worker.Event}
    (hi : s.proc.thread i = some (id, pc)) (hnext : Worker.nextPc pc e = none)
    (hgit : Worker.nextGit env.apply i id ⟨s.db, s.git, pc⟩ e = s.git) :
    (PushContent.machine env.apply).Execution (abs s)
      [.changeDb (next env s (.worker i id e)).db, .abandon i]
      (abs (next env s (.worker i id e))) := by
  have hthread : (next env s (.worker i id e)).proc.thread = _ :=
    congrArg (·.thread) (GitStage.view_worker env hi)
  have hgit' : (next env s (.worker i id e)).git = s.git := by
    simp only [next, workerNext, hi, hgit]
  have habs : abs (next env s (.worker i id e)) = (PushContent.machine env.apply).next
      ((PushContent.machine env.apply).next (abs s) (.changeDb (next env s (.worker i id e)).db))
      (.abandon i) := by
    simp only [abs, PushContent.machine, PushContent.next, PushContent.State.mk.injEq, true_and]
    refine ⟨hgit', ?_⟩
    rw [hthread, inWork_update, hnext]
    rfl
  rw [habs]
  exact .cons (e := PushContent.Event.changeDb _) trivial
    (.single (e := PushContent.Event.abandon i) trivial)

theorem step_worker {i : ℕ} {id : SeriesId} {e : Worker.Event}
    (he : Enabled env s (.worker i id e)) :
    (PushContent.machine env.apply).Execution (abs s) (label env s (.worker i id e))
      (abs (next env s (.worker i id e))) := by
  obtain ⟨pc, hi, he⟩ := he
  have hthread : (next env s (.worker i id e)).proc.thread = _ :=
    congrArg (·.thread) (GitStage.view_worker env hi)
  cases e with
  | busy | free | moveIn =>
    obtain ⟨rfl, _⟩ := he
    exact step_around hi rfl rfl rfl
  | wait e =>
    obtain ⟨w, rfl, _⟩ := he
    refine step_around hi rfl ?_ rfl
    cases hn : w.next e <;> simp [Worker.nextPc, hn, inWork]
  | startWork =>
    obtain rfl : pc = .moved := he
    have hidle : (abs s).task i = none := by
      simp [abs, hi, inWork]
    have habs : abs (next env s (.worker i id .startWork)) =
        PushContent.next env.apply (abs s) (.begin i id) := by
      simp only [abs, PushContent.next, hthread, inWork_update]
      simp only [next, workerNext, hi]
      rfl
    rw [habs]
    exact Machine.Execution.single (e := PushContent.Event.begin i id) hidle
  | work e =>
    obtain ⟨p, rfl, hen⟩ := he
    have htask : (abs s).task i = some (id, p) := by
      simp [abs, hi, inWork]
    have habs : abs (next env s (.worker i id (.work e))) =
        PushContent.next env.apply (abs s) (.work i id e) := by
      simp only [PushContent.next, htask]
      simp only [abs, hthread, inWork_update]
      simp only [next, workerNext, hi]
      rfl
    rw [habs]
    exact Machine.Execution.single (e := PushContent.Event.work i id e) ⟨p, htask, hen⟩
  | remove =>
    obtain rfl : pc = .working (.returned true) := he
    exact step_returns hi rfl rfl
  | moveToFailures =>
    obtain ⟨rfl, _⟩ := he
    exact step_returns hi rfl rfl

theorem step_process {e : Event} (hs : Bounded s) (hgit : (next env s e).git = s.git)
    (hthread : (next env s e).proc.thread = fun _ => none) :
    (PushContent.machine env.apply).Execution (abs s)
      (abandonAll s.proc.threads ++ [.changeDb (next env s e).db]) (abs (next env s e)) := by
  have hnone : abs (next env s e) = PushContent.next env.apply
      { abs s with task := fun i => if i < s.proc.threads then none else (abs s).task i }
      (.changeDb (next env s e).db) := by
    simp only [abs, PushContent.next, PushContent.State.mk.injEq, true_and]
    refine ⟨hgit, ?_⟩
    funext i
    rw [hthread]
    by_cases hi : i < s.proc.threads
    · simp [hi, inWork]
    · simp [hs i (not_lt.mp hi), inWork]
  rw [hnone]
  exact (abandon_all (abs s) s.proc.threads).append
    (Machine.Execution.single (e := PushContent.Event.changeDb _) trivial)

theorem refines (env : Env) : (Pipeline.machine env).Refines (PushContent.machine env.apply)
    Bounded abs (label env) where
  keep := fun _ _ => bounded_step
  step := by
    intro s e hs he
    cases e with
    | start | stop => exact step_process hs rfl rfl
    | worker i id e => exact step_worker he
    | moveMaster target =>
      exact Machine.Execution.single (e := PushContent.Event.moveMaster target) trivial
    | begin i id =>
      have hfree : s.proc.thread i = none := he.2.1
      refine changeDb_step rfl fun j => ?_
      change inWork (Function.update s.proc.thread i (some (id, .checking)) j) = _
      by_cases hj : j = i
      · subst hj
        simp [inWork, hfree]
      · simp [hj]
    | main e => cases e <;> exact changeDb_step rfl fun _ => rfl
    | scan | ingest => exact changeDb_step rfl fun _ => rfl
    | watcher k e =>
      refine changeDb_step rfl fun j => ?_
      rw [show (next env s (.watcher k e)).proc.thread = s.proc.thread from
        congrArg (·.thread) (GitStage.view_elsewhere env s (e := .watcher k e) trivial)]
    | wait | dispatch | otherCheck => exact changeDb_step rfl fun _ => rfl

theorem eq_of_work_mem_label {e : Event} {i : ℕ} {id : SeriesId} {we : DoWork.Event}
    (h : PushContent.Event.work i id we ∈ label env s e) : e = .worker i id (.work we) := by
  cases e with
  | worker j a e => cases e with
    | work e =>
      cases List.mem_singleton.mp h
      rfl
    | busy | free | wait | moveIn | startWork | remove | moveToFailures => simp [label] at h
  | start | stop => simp [label, abandonAll] at h
  | main | scan | ingest | begin | watcher | wait | dispatch | moveMaster | otherCheck =>
    simp [label] at h

/-- A branch once on a remote stays on it, at this commit or another one. -/
theorem refs_kept {e : Event} (he : Enabled env s e) {remote branch : String} {c : Commit}
    (h : s.git.refs remote branch = some c) :
    ∃ c', (next env s e).git.refs remote branch = some c' := by
  cases e with
  | worker i id e =>
    obtain ⟨pc, hi, he⟩ := he
    have hgit : (next env s (.worker i id e)).git =
        Worker.nextGit env.apply i id ⟨s.db, s.git, pc⟩ e := by
      simp only [next, workerNext, hi]
    rw [hgit]
    cases e with
    | work e =>
      obtain ⟨p, rfl, _⟩ := he
      exact Option.ne_none_iff_exists'.mp (PushContent.nextGit_refs_ne_none h)
    | busy | free | wait | moveIn | startWork | remove | moveToFailures => exact ⟨c, h⟩
  | main e => cases e <;> exact ⟨c, h⟩
  | start | stop | scan | ingest | begin | watcher | wait | dispatch | moveMaster | otherCheck =>
    exact ⟨c, h⟩

end Steps

section Runs

variable {s₀ s : State} {tr : List Event}

/-- The commit is the mbox of the series, as a `do_work` of it downloaded it, on top of what
master was when one of them reset to it, with nothing else in it. -/
def Submitted (env : Env) (s₀ : State) (tr : List Event) (id : SeriesId) (c : Commit) : Prop :=
  ∃ base mbox, c.parents = [base] ∧ env.apply mbox base.tree = some c.tree ∧
    (∃ i pre post, tr = pre ++ .worker i id (.work (.reset base)) :: post ∧
      ((Pipeline.machine env).run s₀ pre).git.master = base) ∧
    ∃ i, Event.worker i id (.work (.download mbox)) ∈ tr

/-- Of the branches below `snowpatch/`, which are the ones `refs` is about, none is on a remote
before the first start. -/
def Unpushed (s : State) : Prop := ∀ remote branch, s.git.refs remote branch = none

theorem execution_pushContent (hx : (Pipeline.machine env).Execution s₀ tr s) (h₀ : Initial s₀)
    (hrefs : Unpushed s₀) : PushContent.Invariant env.apply
      ((Pipeline.machine env).labels (label env) s₀ tr) (abs s) := by
  have hidle : ∀ i, s₀.proc.thread i = none := by
    intro i
    rw [h₀.not_running]
    rfl
  refine PushContent.execution_invariant ((refines env).execution hx fun i _ => hidle i) ?_
  exact ⟨fun i => by simp [abs, hidle, inWork], hrefs⟩

theorem submitted_of_isSubmission (hx : (Pipeline.machine env).Execution s₀ tr s)
    {id : SeriesId} {c : Commit} (h : PushContent.IsSubmission env.apply
      ((Pipeline.machine env).labels (label env) s₀ tr) id c) : Submitted env s₀ tr id c := by
  obtain ⟨base, mbox, hparents, ⟨i, hreset⟩, ⟨j, hdownload⟩, happly⟩ := h
  refine ⟨base, mbox, hparents, happly, ?_, j, ?_⟩
  · obtain ⟨pre, e, post, rfl, hmem⟩ := Machine.mem_labels hreset
    obtain rfl := eq_of_work_mem_label hmem
    obtain ⟨u, hpre, hrest⟩ := hx.split
    obtain ⟨⟨pc, _, p, _, hen⟩, _⟩ := hrest.uncons
    refine ⟨i, pre, post, rfl, ?_⟩
    rw [← hpre.eq_run]
    exact hen.2.symm
  · obtain ⟨pre, e, post, rfl, hmem⟩ := Machine.mem_labels hdownload
    obtain rfl := eq_of_work_mem_label hmem
    simp

theorem execution_pushed (hx : (Pipeline.machine env).Execution s₀ tr s) (h₀ : Initial s₀)
    (hrefs : Unpushed s₀) : ∀ t b, b ∈ s.db.branches t →
      ∃ remote c, s.git.refs remote (remoteBranch b) = some c := by
  refine hx.history (I := fun _ s => ∀ t b, b ∈ s.db.branches t →
    ∃ remote c, s.git.refs remote (remoteBranch b) = some c) ?_ fun tr s e hx h he t b hb => ?_
  · intro t b hb
    rw [h₀.db_empty] at hb
    exact absurd hb Finmap.notMem_empty
  · have hbefore : ∃ remote c, s.git.refs remote (remoteBranch b) = some c := by
      rcases RunnerStage.mem_branches_next he hb with hb | ⟨i, id, r, n, rfl, rfl, rfl⟩ |
        ⟨k, rfl, rfl⟩
      · exact h t b hb
      · obtain ⟨_, hi, _, rfl, rest, rfl⟩ := he
        have htask : (abs s).task i = some (id, .queueing r n rest) := by
          simp [abs, hi, inWork]
        obtain ⟨_, c, hc, _⟩ := (execution_pushContent hx h₀ hrefs).tasks i id _ htask
        exact ⟨r, c, hc⟩
      · exact h (.queue gitHubHandle) b he.2
    obtain ⟨remote, c, hc⟩ := hbefore
    exact ⟨remote, refs_kept he hc⟩

/-- In every state of every run, whatever is on a remote is the submission of its own series,
and whatever a runner tree holds is on a remote. -/
theorem branches_are_submissions (hx : (Pipeline.machine env).Execution s₀ tr s)
    (h₀ : Initial s₀) (hrefs : Unpushed s₀) :
    (∀ remote branch c, s.git.refs remote branch = some c →
      ∃ id, branch = remoteBranch id.toDecimal ∧ Submitted env s₀ tr id c) ∧
    ∀ t b, b ∈ s.db.branches t → ∃ id remote c, b = id.toDecimal ∧
      s.git.refs remote (remoteBranch b) = some c ∧ Submitted env s₀ tr id c := by
  have hon : ∀ remote branch c, s.git.refs remote branch = some c →
      ∃ id, branch = remoteBranch id.toDecimal ∧ Submitted env s₀ tr id c := by
    intro remote branch c hc
    obtain ⟨id, hb, hs⟩ := (execution_pushContent hx h₀ hrefs).refs remote branch c hc
    exact ⟨id, hb, submitted_of_isSubmission hx hs⟩
  refine ⟨hon, ?_⟩
  intro t b hb
  obtain ⟨remote, c, hc⟩ := execution_pushed hx h₀ hrefs t b hb
  obtain ⟨id, hid, hs⟩ := hon remote _ c hc
  exact ⟨id, remote, c, PushContent.remoteBranch_injective hid, hc, hs⟩

theorem branches_are_submissions_sample : ∃ c,
    Sample.final.git.refs "origin" "snowpatch/300" = some c ∧
      ∃ id, "snowpatch/300" = remoteBranch id.toDecimal ∧
        Submitted Sample.env Sample.state Sample.trace id c := by
  have hsome : (Sample.final.git.refs "origin" "snowpatch/300").isSome = true := by decide
  obtain ⟨c, hc⟩ := Option.isSome_iff_exists.mp hsome
  have hon := (branches_are_submissions Sample.execution Sample.state_initial fun _ _ => rfl).1
  exact ⟨c, hc, hon _ _ c hc⟩

end Runs

end Snowpatch.Submissions
