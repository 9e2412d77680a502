import Snowpatch.Scanning
import Snowpatch.SeriesLiveness

/-! From the list of series to a check on Patchwork. A scan comes to every series it wants; the
way of the series through the git stage and the runner's queue ends in a task that asks GitHub
until a run is finished, and what is finished is sent. -/
namespace Snowpatch.ReportLiveness

open Pipeline Liveness DispatchLiveness WorkLiveness WatcherLiveness SeriesLiveness

variable {env : Env} {s s₀ : State} {e : Event} {l : Listed} {db : Db} {scan : Scan}

section Scanning

/-- A wanted series that the scan has still to queue. -/
structure Underway (l : Listed) (db : Db) (scan : Scan) : Prop where
  going : scan.failed = false
  wanted : l ∈ scan.todo → Watchcat.wanted db.seenByWatchcat l = true
  mem : l ∈ scan.todo ∨ l ∈ scan.chosen ∨ l ∈ scan.marked

theorem underway_next {we : Watchcat.Event}
    (hd : GitStage.Discovery (GitStage.held db) db.seenByWatchcat scan)
    (he : Watchcat.Enabled ⟨db, scan⟩ we) (h : Underway l db scan) :
    (we = .queue l ∨ ∃ a, we = .fail a) ∨
      Underway l (Watchcat.next ⟨db, scan⟩ we).db (Watchcat.next ⟨db, scan⟩ we).scan := by
  cases we with
  | reject a =>
    have hne : l ∈ scan.todo → l ≠ a := by
      rintro hl rfl
      exact Bool.false_ne_true (he.2.symm.trans (h.wanted hl))
    exact Or.inr ⟨h.going, fun hl => h.wanted (List.mem_of_mem_erase hl),
      h.mem.imp_left fun hl => (List.mem_erase_of_ne (hne hl)).mpr hl⟩
  | choose a =>
    refine Or.inr ⟨h.going, fun hl => h.wanted (List.mem_of_mem_erase hl), ?_⟩
    by_cases hla : l = a
    · exact Or.inr (Or.inl (hla ▸ List.mem_cons_self))
    · exact h.mem.imp (List.mem_erase_of_ne hla).mpr (Or.imp_left (List.mem_cons_of_mem a))
  | mark a =>
    refine Or.inr ⟨h.going, fun hl => ?_, ?_⟩
    · have hdisjoint : l.series.id ≠ a.series.id := by
        have hnodup := hd.distinct
        rw [List.map_append, List.map_append] at hnodup
        have htodo := (List.nodup_append.mp (List.nodup_append.mp hnodup).1).2.2
        exact htodo _ (List.mem_map_of_mem hl) _ (List.mem_map_of_mem he)
      rw [← h.wanted hl]
      exact Watchcat.wanted_congr (Watchcat.mem_seen_markSeen hdisjoint)
    · by_cases hla : l = a
      · exact Or.inr (Or.inr (hla ▸ List.mem_cons_self))
      · exact h.mem.imp_right
          (Or.imp (List.mem_erase_of_ne hla).mpr (List.mem_cons_of_mem a))
  | queue a =>
    by_cases hla : l = a
    · exact Or.inl (Or.inl (hla ▸ rfl))
    · refine Or.inr ⟨h.going, ?_, h.mem.imp_right (Or.imp_right (List.mem_erase_of_ne hla).mpr)⟩
      rw [Watchcat.queue_db he]
      exact h.wanted
  | fail a => exact Or.inl (Or.inr ⟨a, rfl⟩)
  | skip a => exact absurd (h.going.symm.trans he.2) Bool.false_ne_true

theorem underway_enabled (h : Underway l db scan) (hchecks : ∃ checks, l.checks = .ok checks)
    (hpatches : l.series.patches ≠ []) : ∃ we, Watchcat.Enabled ⟨db, scan⟩ we := by
  rcases h.mem with hl | hl | hl
  · exact ⟨.choose l, hl, h.wanted hl⟩
  · exact ⟨.mark l, hl⟩
  · obtain ⟨checks, hc⟩ := hchecks
    exact ⟨.queue l, hl, by rw [Watchcat.checkState_ok hpatches hc]; rfl⟩

def scanLeft (scan : Scan) : ℕ :=
  3 * scan.todo.length + 2 * scan.chosen.length + scan.marked.length

theorem scanLeft_next {we : Watchcat.Event} (he : Watchcat.Enabled ⟨db, scan⟩ we) :
    scanLeft (Watchcat.next ⟨db, scan⟩ we).scan < scanLeft scan := by
  cases we with
  | reject a | skip a =>
    have hlength : (scan.todo.erase a).length + 1 = scan.todo.length :=
      List.length_erase_add_one he.1
    simp only [scanLeft, Watchcat.next]
    omega
  | choose a =>
    have hlength : (scan.todo.erase a).length + 1 = scan.todo.length :=
      List.length_erase_add_one he.1
    simp only [scanLeft, Watchcat.next, List.length_cons]
    omega
  | mark a =>
    have hlength : (scan.chosen.erase a).length + 1 = scan.chosen.length :=
      List.length_erase_add_one he
    simp only [scanLeft, Watchcat.next, List.length_cons]
    omega
  | queue a | fail a =>
    have hlength : (scan.marked.erase a).length + 1 = scan.marked.length :=
      List.length_erase_add_one he.1
    simp only [scanLeft, Watchcat.next]
    omega

def IsScan (e : Event) : Prop := ∃ we, e = .scan we

theorem scan_foreign (hscanning : s.proc.main = .scanning) (he : Enabled env s e)
    (hstop : e ≠ .stop) (hown : ¬ IsScan e) : (next env s e).proc.scan = s.proc.scan ∧
      (next env s e).db.seenByWatchcat = s.db.seenByWatchcat := by
  cases e using GitStage.event_cases with
  | elsewhere e ho =>
    have hview := GitStage.view_elsewhere env s ho
    exact ⟨congrArg (·.scan) hview, congrArg (·.seen) hview⟩
  | start => cases hscanning.symm.trans he.1
  | stop => exact absurd rfl hstop
  | beginScan page => cases hscanning.symm.trans he.1
  | scan we => exact absurd ⟨we, rfl⟩ hown
  | ingest ie =>
    cases ie with
    | move id => exact ⟨rfl, Db.seen_moveToNewQueue⟩
    | ready | read | take | ends | spawn | wait => exact ⟨rfl, rfl⟩
  | begin i id => exact ⟨rfl, rfl⟩
  | worker i id we =>
    obtain ⟨pc, hi, _⟩ := he
    have hview := GitStage.view_worker env (e := we) hi
    refine ⟨congrArg (·.scan) hview, (congrArg (·.seen) hview).trans ?_⟩
    cases we with
    | work we => exact DoWork.nextDb_seen id s.db we
    | moveIn | moveToFailures => exact Db.seen_moveToNewQueue
    | busy | free | wait | startWork | remove => rfl

theorem scanning_next (hu : Underway l s.db s.proc.scan) (hscanning : s.proc.main = .scanning)
    (he : Enabled env s e) (hstop : e ≠ .stop) : (next env s e).proc.main = .scanning := by
  rcases main_next he (by simp [hscanning]) hstop with ⟨m, rfl⟩ | hm
  · cases m with
    | endScan =>
      obtain ⟨_, ⟨htodo, hchosen, hmarked⟩, _⟩ := he
      rcases hu.mem with hl | hl | hl
      · exact absurd (htodo ▸ hl) List.not_mem_nil
      · exact absurd (hchosen ▸ hl) List.not_mem_nil
      · exact absurd (hmarked ▸ hl) List.not_mem_nil
    | insertRemote =>
      obtain ⟨k, r, hm, _⟩ := he
      cases hscanning.symm.trans hm
    | smokeTest =>
      obtain ⟨k, hm⟩ := he
      cases hscanning.symm.trans hm
    | spawnWatcher | beginScan => cases hscanning.symm.trans he.1
    | initDone | connect => cases hscanning.symm.trans he
  · exact hm.trans hscanning

def EndsScan (l : Listed) (e : Event) : Prop :=
  e = .scan (.queue l) ∨ (∃ a, e = .scan (.fail a)) ∨ e = .stop

theorem scan_descends (env : Env) (hchecks : ∃ checks, l.checks = .ok checks)
    (hpatches : l.series.patches ≠ []) :
    (machine env).Descends (fun s => GitStage.GitDiscovery (GitStage.view s))
      (fun s => s.proc.main = .scanning ∧ Underway l s.db s.proc.scan) IsScan (EndsScan l)
      fun s => scanLeft s.proc.scan where
  ready := by
    rintro s _ ⟨_, hu⟩
    obtain ⟨we, hwe⟩ := underway_enabled hu hchecks hpatches
    exact ⟨.scan we, ⟨we, rfl⟩, hwe⟩
  step := by
    rintro s e hd ⟨hscanning, hu⟩ he
    have he : Enabled env s e := he
    by_cases hstop : e = .stop
    · exact Or.inl (Or.inr (Or.inr hstop))
    by_cases hown : IsScan e
    · obtain ⟨we, rfl⟩ := hown
      have hleft := scanLeft_next he
      rcases underway_next hd he hu with (rfl | ⟨a, rfl⟩) | hu'
      · exact Or.inl (Or.inl rfl)
      · exact Or.inl (Or.inr (Or.inl ⟨a, rfl⟩))
      · exact Or.inr ⟨⟨hscanning, hu'⟩, hleft.le, fun _ => hleft⟩
    · obtain ⟨hscan, hseen⟩ := scan_foreign hscanning he hstop hown
      refine Or.inr ⟨⟨scanning_next hu hscanning he hstop, ?_⟩, ?_, fun h => absurd h hown⟩
      · have hu' := hu
        rw [← hscan] at hu'
        exact ⟨hu'.going, fun hl => hseen ▸ hu'.wanted hl, hu'.mem⟩
      · exact (congrArg scanLeft hscan).le

theorem scan_queues (ρ : (machine env).Run s₀) (h₀ : Initial s₀) (hscan : ρ.Fair IsScan)
    {n : ℕ} {page : List Listed} (hbegin : ρ.event n = .main (.beginScan page)) (hl : l ∈ page)
    (hwanted : Watchcat.wanted (ρ.state n).db.seenByWatchcat l = true)
    (hchecks : ∃ checks, l.checks = .ok checks) :
    ∃ m, n ≤ m ∧ EndsScan l (ρ.event m) := by
  have hpatches : l.series.patches ≠ [] := by
    intro hnil
    simp [Watchcat.wanted, hnil] at hwanted
  have hunder : (ρ.state (n + 1)).proc.main = .scanning ∧
      Underway l (ρ.state (n + 1)).db (ρ.state (n + 1)).proc.scan := by
    rw [ρ.step n, hbegin]
    exact ⟨rfl, rfl, fun _ => hwanted, Or.inl hl⟩
  obtain ⟨m, hm, hends⟩ := (scan_descends env hchecks hpatches).eventually ρ hscan
    (fun n => (GitStage.execution_git (ρ.execution n) h₀).1) hunder
  exact ⟨m, Nat.le_of_succ_le hm, hends⟩

end Scanning

section Polling

/-- GitHub is asked about the branch. -/
def Polls (b : String) (e : Event) : Prop :=
  ∃ t jobs, t.branch = b ∧ e = .wait t (.progress jobs)

def Shows (b : String) (job : RunnerResult) (e : Event) : Prop :=
  ∃ t jobs, t.branch = b ∧ e = .wait t (.progress jobs) ∧ job ∈ jobs ∧ job.isFinished = true

def EndsPolling (b : String) (e : Event) : Prop := (∃ job, Shows b job e) ∨ e = .stop

/-- GitHub has a run for each branch it is asked about, `start_work` having waited for one, and
one of the runs of a branch is finished if it is asked often enough. -/
structure GitHubFinishes (ρ : (machine env).Run s₀) : Prop where
  found : ∀ n t jobs, ρ.event n = .wait t (.progress jobs) → jobs ≠ []
  finishes : ∀ b, (∀ k, ∃ m, k ≤ m ∧ Polls b (ρ.event m)) →
    ∀ k, ∃ m job, k ≤ m ∧ Shows b job (ρ.event m)

theorem eq_again_of_unfinished {t : Completion.Task} {jobs : List RunnerResult}
    {we : Completion.Event} (hpc : t.pc = .reporting jobs []) (hne : jobs ≠ [])
    (hfinished : Completion.finished jobs = []) (he : Completion.Enabled t we) : we = .again := by
  cases we with
  | again => rfl
  | settle =>
    obtain ⟨jobs', hpc', hlength⟩ := he
    cases hpc.symm.trans hpc'
    rw [hfinished] at hlength
    exact absurd (List.length_eq_zero_iff.mp hlength) hne
  | report =>
    obtain ⟨_, _, hpc'⟩ := he
    cases hpc.symm.trans hpc'
  | progress | remove => cases hpc.symm.trans he

theorem polls_again (ρ : (machine env).Run s₀) (h₀ : Initial s₀)
    (hwaits : ∀ t, ρ.Fair (IsWait t)) {n : ℕ} {t : Completion.Task} {jobs : List RunnerResult}
    (hprogress : ρ.event n = .wait t (.progress jobs)) (hne : jobs ≠ [])
    (hfinished : Completion.finished jobs = []) :
    ∃ m, n < m ∧ (Polls t.branch (ρ.event m) ∨ ρ.event m = .stop) := by
  have hasked := asked_reports ρ hprogress
  rw [hfinished] at hasked
  obtain ⟨l, hl, _, ⟨we, hwe⟩ | hstop⟩ := task_steps ρ h₀ (hwaits _) hasked
  · have hen := ρ.enabled l
    rw [hwe] at hen
    obtain rfl := eq_again_of_unfinished rfl hne hfinished hen.2
    have hpolling : { t with pc := .polling } ∈ (ρ.state (l + 1)).proc.waits := by
      rw [ρ.step l, hwe]
      exact List.mem_cons_self
    obtain ⟨m, hm, ⟨jobs', hagain⟩ | hstop⟩ := task_polls ρ h₀ (hwaits _) hpolling rfl
    · exact ⟨m, Nat.lt_of_lt_of_le hl (Nat.le_of_succ_le hm),
        Or.inl ⟨{ t with pc := .polling }, jobs', rfl, hagain⟩⟩
    · exact ⟨m, Nat.lt_of_lt_of_le hl (Nat.le_of_succ_le hm), Or.inr hstop⟩
  · exact ⟨l, hl, Or.inr hstop⟩

/-- A branch that is asked about is asked about until GitHub shows a finished job. -/
theorem polls_until_shown (ρ : (machine env).Run s₀) (h₀ : Initial s₀)
    (hwaits : ∀ t, ρ.Fair (IsWait t)) (hgithub : GitHubFinishes ρ) {n : ℕ} {b : String}
    (hpolls : Polls b (ρ.event n)) : ∃ m, n ≤ m ∧ EndsPolling b (ρ.event m) := by
  have hstep : ∀ k, Polls b (ρ.event k) →
      (∃ m, k ≤ m ∧ EndsPolling b (ρ.event m)) ∨ ∃ m, k < m ∧ Polls b (ρ.event m) := by
    rintro k ⟨t, jobs, rfl, hprogress⟩
    by_cases hfinished : Completion.finished jobs = []
    · obtain ⟨m, hm, hagain | hstop⟩ :=
        polls_again ρ h₀ hwaits hprogress (hgithub.found k t jobs hprogress) hfinished
      · exact Or.inr ⟨m, hm, hagain⟩
      · exact Or.inl ⟨m, hm.le, Or.inr hstop⟩
    · obtain ⟨job, hjob⟩ := List.exists_mem_of_ne_nil _ hfinished
      obtain ⟨hj, hfin⟩ := List.mem_filter.mp hjob
      exact Or.inl ⟨k, le_rfl, Or.inl ⟨job, t, jobs, rfl, hprogress, hj, hfin⟩⟩
  rcases ρ.recurs hstep hpolls with hgoal | hagain
  · exact hgoal
  · obtain ⟨m, job, hm, hshows⟩ := hgithub.finishes b hagain n
    exact ⟨m, hm, Or.inl ⟨job, hshows⟩⟩

end Polling

section Whole

/-- No part of the program is kept from its steps, and the pool keeps the order of its
closures. -/
structure Scheduled (ρ : (machine env).Run s₀) : Prop where
  scan : ρ.Fair IsScan
  ingest : ρ.Fair IsIngest
  pool : ρ.Fair IsBegin
  order : ∀ n, InOrder (ρ.state n) (ρ.event n)
  workers : ∀ i, ρ.Fair (IsWorker i)
  watchers : ∀ k, ρ.Fair (IsWatcher k)
  waits : ∀ t, ρ.Fair (IsWait t)
  dispatch : ρ.Fair IsDispatch

/-- The process serves its pool, has one runner and a dispatcher that goes on. -/
structure On (s : State) : Prop where
  serving : Serving s
  tests : Tests s.proc
  up : Recovery.Up s.proc

theorem on_next (h : On s) (he : Enabled env s e) : EndsDispatch e ∨ On (next env s e) := by
  by_cases hends : EndsDispatch e
  · exact Or.inl hends
  · have hstop : e ≠ .stop := fun hs => hends (Or.inl hs)
    exact Or.inr ⟨serving_next h.serving he hstop, tests_next h.tests he hstop,
      up_next h.up he hends⟩

theorem on_until (ρ : (machine env).Run s₀)
    (hanswered : ∀ n, Delivery.Answered (ρ.state n) (ρ.event n)) {n m : ℕ} (hm : n ≤ m)
    (h : On (ρ.state n)) : (∃ l, n ≤ l ∧ ρ.event l = .stop) ∨ On (ρ.state m) := by
  rcases ρ.stays (I := fun _ => True) (fun s e _ => on_next) (fun _ => trivial) hm h with
    ⟨l, hl, _, _, hends⟩ | hm
  · exact Or.inl ⟨l, hl, stop_of_ends hends (hanswered l)⟩
  · exact Or.inr hm

theorem shown_delivered (ρ : (machine env).Run s₀) (h₀ : Initial s₀) (hfair : Scheduled ρ)
    {names : Finset String} (hknown : ∀ n, Known env names (ρ.event n))
    (hanswered : ∀ n, Delivery.Answered (ρ.state n) (ρ.event n)) {n : ℕ} (h : On (ρ.state n))
    {id : SeriesId} {job : RunnerResult} (hshows : Shows id.toDecimal job (ρ.event n)) :
    ∃ m, n ≤ m ∧ (ρ.event m = .stop ∨ n < m ∧ Delivery.Present env (ρ.state m).checks
      (dispatchKey gitHubHandle id.toDecimal job.name)) := by
  obtain ⟨t, jobs, hb, hprogress, hj, hfin⟩ := hshows
  obtain ⟨l, hl, ⟨u, hu, hreport⟩ | hstop⟩ := job_reported ρ h₀ hfair.waits
    (List.mem_filter.mpr ⟨hj, hfin⟩) rfl (asked_reports ρ hprogress)
  swap
  · exact ⟨l, Nat.le_of_succ_le hl, Or.inl hstop⟩
  rcases on_until ρ hanswered (Nat.le_of_succ_le hl) h with ⟨m, hm, hstop⟩ | hon
  · exact ⟨m, hm, Or.inl hstop⟩
  obtain ⟨m, hm, hstop | ⟨id', hid', hpresent⟩⟩ :=
    report_delivered ρ h₀ hfair.dispatch hknown hanswered hon.up hreport
  · exact ⟨m, (Nat.le_of_succ_le hl).trans hm, Or.inl hstop⟩
  · obtain rfl : id' = id := toDecimal_inj.mp (hid'.symm.trans (hu.trans hb))
    exact ⟨m, (Nat.le_of_succ_le hl).trans hm, Or.inr ⟨Nat.lt_of_lt_of_le hl hm, hpresent⟩⟩

theorem polled_delivered (ρ : (machine env).Run s₀) (h₀ : Initial s₀) (hfair : Scheduled ρ)
    (hgithub : GitHubFinishes ρ) {names : Finset String}
    (hknown : ∀ n, Known env names (ρ.event n))
    (hanswered : ∀ n, Delivery.Answered (ρ.state n) (ρ.event n)) {n : ℕ} (h : On (ρ.state n))
    {id : SeriesId} (hpolls : Polls id.toDecimal (ρ.event n)) :
    ∃ m, n ≤ m ∧ (ρ.event m = .stop ∨ ∃ k job, n ≤ k ∧ k < m ∧
      Shows id.toDecimal job (ρ.event k) ∧ Delivery.Present env (ρ.state m).checks
        (dispatchKey gitHubHandle id.toDecimal job.name)) := by
  obtain ⟨k, hk, ⟨job, hshows⟩ | hstop⟩ := polls_until_shown ρ h₀ hfair.waits hgithub hpolls
  swap
  · exact ⟨k, hk, Or.inl hstop⟩
  rcases on_until ρ hanswered hk h with ⟨m, hm, hstop⟩ | hon
  · exact ⟨m, hm, Or.inl hstop⟩
  obtain ⟨m, hm, hstop | ⟨hlt, hpresent⟩⟩ :=
    shown_delivered ρ h₀ hfair hknown hanswered hon hshows
  · exact ⟨m, hk.trans hm, Or.inl hstop⟩
  · exact ⟨m, hk.trans hm, Or.inr ⟨k, job, hk, hlt, hshows, hpresent⟩⟩

/-- A series that is queued comes to a task that asks GitHub about it, or its work fails. -/
theorem testing_polled (ρ : (machine env).Run s₀) (h₀ : Initial s₀) (hfair : Scheduled ρ)
    (hanswered : ∀ n, Delivery.Answered (ρ.state n) (ρ.event n)) {n : ℕ} (h : On (ρ.state n))
    {id : SeriesId} (hid : id ∈ (ρ.state n).db.series .needsTesting) :
    ∃ m, n ≤ m ∧ (ρ.event m = .stop ∨ (∃ i, ρ.event m = .worker i id .moveToFailures) ∨
      On (ρ.state m) ∧ Polls id.toDecimal (ρ.event m)) := by
  obtain ⟨l, hl, hstop | hfailed | ⟨htests, hqueued⟩⟩ := series_queued ρ h₀ hfair.ingest hfair.pool
    hfair.workers hfair.order h.serving h.tests hid
  · exact ⟨l, hl, Or.inl hstop⟩
  · exact ⟨l, hl, Or.inr (Or.inl hfailed)⟩
  obtain ⟨m, hm, hstop | ⟨k, _, jobs, _, _, _, hprogress⟩⟩ :=
    lone_polled ρ h₀ hfair.watchers hfair.waits ⟨htests.1, htests.2, hqueued⟩
  · exact ⟨m, hl.trans (Nat.le_of_succ_le hm), Or.inl hstop⟩
  rcases on_until ρ hanswered (hl.trans (Nat.le_of_succ_le hm)) h with ⟨j, hj, hstop⟩ | hon
  · exact ⟨j, hj, Or.inl hstop⟩
  · exact ⟨m, hl.trans (Nat.le_of_succ_le hm), Or.inr (Or.inr ⟨hon, _, jobs, rfl, hprogress⟩)⟩

theorem mem_of_queue (he : Enabled env s (.scan (.queue l))) :
    l.series.id ∈ (next env s (.scan (.queue l))).db.series .needsTesting := by
  have hdb : (next env s (.scan (.queue l))).db =
      s.db.insertSeries .needsTesting l.series.id l.series.mbox := Watchcat.queue_db he
  rw [hdb]
  exact Db.mem_insertSeries.mpr (Or.inl ⟨rfl, rfl⟩)

/-- Every new series is reported. In a run none of whose parts is kept from its steps, whose
process has found the trees of its workers empty and has one runner and a token, and in which no
request of the dispatcher breaks, each series of a page that the scan wants gets a check on its
last patch for a job that GitHub has shown for it, unless a series of the page makes the scan
fail, its own work fails, or the process stops. -/
theorem new_series_are_reported (ρ : (machine env).Run s₀) (h₀ : Initial s₀)
    (hfair : Scheduled ρ) (hgithub : GitHubFinishes ρ) {names : Finset String}
    (hknown : ∀ n, Known env names (ρ.event n))
    (hanswered : ∀ n, Delivery.Answered (ρ.state n) (ρ.event n)) {n : ℕ}
    (hfound : FoundClean env s₀ ((List.range n).map ρ.event))
    (hup : Recovery.Up (ρ.state n).proc) (hrunners : (ρ.state n).proc.config.runners.length = 1)
    {page : List Listed} (hbegin : ρ.event n = .main (.beginScan page)) (hl : l ∈ page)
    (hwanted : Watchcat.wanted (ρ.state n).db.seenByWatchcat l = true)
    (hchecks : ∃ checks, l.checks = .ok checks) :
    ∃ m, n ≤ m ∧ (ρ.event m = .stop ∨ (∃ a, ρ.event m = .scan (.fail a)) ∨
      (∃ i, ρ.event m = .worker i l.series.id .moveToFailures) ∨
      ∃ k job, n ≤ k ∧ k < m ∧ Shows l.series.id.toDecimal job (ρ.event k) ∧
        Delivery.Present env (ρ.state m).checks
          (dispatchKey gitHubHandle l.series.id.toDecimal job.name)) := by
  have hon : On (ρ.state n) :=
    ⟨serving_of_found (ρ.execution n) h₀ hfound (up_running hup), ⟨hup.1, hrunners⟩, hup⟩
  obtain ⟨i, hi, hqueue | hfailed | hstop⟩ :=
    scan_queues ρ h₀ hfair.scan hbegin hl hwanted hchecks
  · have hen : Enabled env (ρ.state i) (.scan (.queue l)) := hqueue ▸ ρ.enabled i
    have hid : l.series.id ∈ (ρ.state (i + 1)).db.series .needsTesting := by
      rw [ρ.step i, hqueue]
      exact mem_of_queue hen
    have hi : n ≤ i + 1 := Nat.le_succ_of_le hi
    rcases on_until ρ hanswered hi hon with ⟨m, hm, hstop⟩ | hon
    · exact ⟨m, hm, Or.inl hstop⟩
    obtain ⟨j, hj, hstop | hfailed | ⟨hon, hpolls⟩⟩ :=
      testing_polled ρ h₀ hfair hanswered hon hid
    · exact ⟨j, hi.trans hj, Or.inl hstop⟩
    · exact ⟨j, hi.trans hj, Or.inr (Or.inr (Or.inl hfailed))⟩
    obtain ⟨m, hm, hstop | ⟨k, job, hk, hlt, hshows, hpresent⟩⟩ :=
      polled_delivered ρ h₀ hfair hgithub hknown hanswered hon hpolls
    · exact ⟨m, (hi.trans hj).trans hm, Or.inl hstop⟩
    · exact ⟨m, (hi.trans hj).trans hm, Or.inr (Or.inr (Or.inr
        ⟨k, job, (hi.trans hj).trans hk, hlt, hshows, hpresent⟩))⟩
  · exact ⟨i, hi, Or.inr (Or.inl hfailed)⟩
  · exact ⟨i, hi, Or.inl hstop⟩

end Whole

section Sample

def reportedTrace : List Event :=
  sendingTrace ++ [.ingest .ends, .ingest (.wait .register), .ingest (.wait .sleep),
    .watcher 0 .ends, .watcher 0 (.wait .register), .watcher 0 (.wait .sleep)]

theorem reportedTrace_runs : (machine Sample.env).Runs Sample.state reportedTrace := by
  refine Machine.runs_append.mpr ⟨sendingTrace_runs, ⟨_, rfl, ?_⟩, ⟨_, rfl, rfl⟩,
    ⟨_, rfl, ?_, _, rfl⟩, ⟨_, rfl, ?_⟩, ⟨_, rfl, rfl⟩, ⟨_, rfl, ?_, _, rfl⟩, trivial⟩
  all_goals exact of_decide_eq_true rfl

def reportedRun : (machine Sample.env).Run Sample.state :=
  reportedTrace_runs.forever (.moveMaster _) trivial (moveMaster_same Sample.env _)

theorem reportedRun_fair {A : Event → Prop} (hnone : ∀ e, A e →
    ¬ Enabled Sample.env ((machine Sample.env).run Sample.state reportedTrace) e) :
    reportedRun.Fair A :=
  reportedTrace_runs.fair_forever (e := .moveMaster _) trivial (moveMaster_same Sample.env _)
    hnone

theorem reportedRun_event {P : Event → Prop} (htr : ∀ e ∈ reportedTrace, P e)
    (hlast : ∀ target, P (.moveMaster target)) (n : ℕ) : P (reportedRun.event n) :=
  reportedTrace_runs.forever_event (e := .moveMaster _) trivial (moveMaster_same Sample.env _)
    htr (hlast _) n

theorem reportedTrace_inOrder :
    ((machine Sample.env).restrict InOrder).Runs Sample.state reportedTrace := by
  have hsplit : reportedTrace = (Sample.boot ++ Sample.discover ++ Sample.ingest) ++
      (Sample.gitWork ++ (Sample.testing ++ reportedTrace.drop 41)) := rfl
  have hruns := reportedTrace_runs
  rw [hsplit] at hruns ⊢
  refine sample_inOrder hruns ?_
  simp [Sample.testing, reportedTrace, sendingTrace, Reporting.sampleSending, Sample.trace,
    Sample.boot, Sample.discover, Sample.ingest, Sample.gitWork]

theorem scan_over (h : s.proc.scan.todo ++ s.proc.scan.chosen ++ s.proc.scan.marked = [])
    (hown : IsScan e) : ¬ Enabled env s e := by
  obtain ⟨we, rfl⟩ := hown
  intro he
  have he : Watchcat.Enabled ⟨s.db, s.proc.scan⟩ we := he
  obtain ⟨hrest, hmarked⟩ := List.append_eq_nil_iff.mp h
  obtain ⟨htodo, hchosen⟩ := List.append_eq_nil_iff.mp hrest
  cases we with
  | reject | choose | skip => exact List.not_mem_nil (htodo ▸ he.1)
  | mark l =>
    have hl : l ∈ s.proc.scan.chosen := he
    exact List.not_mem_nil (hchosen ▸ hl)
  | queue | fail => exact List.not_mem_nil (hmarked ▸ he.1)

theorem reportedRun_scheduled : Scheduled reportedRun where
  scan := reportedRun_fair fun _ => scan_over rfl
  ingest := reportedRun_fair fun _ => ingest_asleep rfl
  pool := by
    have hpool : ((machine Sample.env).run Sample.state reportedTrace).proc.pool = [] := rfl
    refine reportedRun_fair ?_
    rintro e ⟨i, id, rfl⟩ he
    exact List.not_mem_nil (hpool ▸ he.2.2)
  order := reportedTrace_runs.forever_restrict reportedTrace_inOrder (e := .moveMaster _) trivial
    (moveMaster_same Sample.env _) trivial
  workers i := by
    have hthread : ∀ i,
        ((machine Sample.env).run Sample.state reportedTrace).proc.thread i = none
      | 0 => rfl
      | _ + 1 => rfl
    refine reportedRun_fair ?_
    rintro e ⟨id, we, rfl, _⟩ ⟨pc, hi, _⟩
    cases (hthread i).symm.trans hi
  watchers k := by
    refine reportedRun_fair fun e hown => watcher_asleep ?_ hown
    cases k with
    | zero => exact Or.inr rfl
    | succ k => exact Or.inl rfl
  waits t := by
    have hwaits : ((machine Sample.env).run Sample.state reportedTrace).proc.waits = [] := rfl
    refine reportedRun_fair ?_
    rintro e ⟨we, rfl⟩ he
    exact List.not_mem_nil (hwaits ▸ he.1)
  dispatch := reportedRun_fair fun _ => dispatch_asleep rfl

theorem reportedRun_finishes : GitHubFinishes reportedRun where
  found := by
    have hjobs : ∀ e ∈ reportedTrace, ∀ t jobs, e = .wait t (.progress jobs) → jobs ≠ [] := by
      simp [reportedTrace, sendingTrace, Reporting.sampleSending, Sample.trace, Sample.boot,
        Sample.discover, Sample.ingest, Sample.gitWork, Sample.testing]
    intro n t jobs hprogress
    exact reportedRun_event (P := fun e => ∀ t jobs, e = .wait t (.progress jobs) → jobs ≠ [])
      hjobs (by simp) n t jobs hprogress
  finishes := by
    intro b hpolls
    obtain ⟨m, hm, t, jobs, _, hprogress⟩ := hpolls reportedTrace.length
    have hlast : reportedRun.event m = .moveMaster _ := List.getD_eq_default _ _ hm
    cases hlast.symm.trans hprogress

theorem new_series_are_reported_sample : ∃ m, 6 ≤ m ∧ (reportedRun.event m = .stop ∨
    (∃ a, reportedRun.event m = .scan (.fail a)) ∨
    (∃ i, reportedRun.event m = .worker i Sample.id .moveToFailures) ∨
    ∃ k job, 6 ≤ k ∧ k < m ∧ Shows Sample.id.toDecimal job (reportedRun.event k) ∧
      Delivery.Present Sample.env (reportedRun.state m).checks
        (dispatchKey gitHubHandle Sample.id.toDecimal job.name)) := by
  have hjobs : ∀ t job, Event.wait t (.report job) ∈ reportedTrace → job = Sample.job := by
    intro t job ht
    simp [reportedTrace, sendingTrace, Sample.trace, Sample.boot, Sample.discover, Sample.ingest,
      Sample.gitWork, Sample.testing, Reporting.sampleSending] at ht
    exact ht.2
  have hknown : ∀ n, Known Sample.env {Sample.job.name} (reportedRun.event n) :=
    reportedRun_event (fun e he t job hjob =>
      ⟨Finset.mem_singleton.mpr (congrArg RunnerResult.name (hjobs t job (hjob ▸ he))),
        fun _ _ => rfl⟩) fun _ _ _ hjob => by cases hjob
  have hanswered : ∀ n, Delivery.Answered (reportedRun.state n) (reportedRun.event n) := fun n =>
    reportedRun_event (P := Delivery.Answered (reportedRun.state n)) (by
      simp [reportedTrace, sendingTrace, Sample.trace, Sample.boot, Sample.discover,
        Sample.ingest, Sample.gitWork, Sample.testing, Reporting.sampleSending,
        Delivery.Answered, Sample.config]) (fun _ => trivial) n
  have hbegin : reportedRun.event 6 = .main (.beginScan [Sample.listed]) := rfl
  exact new_series_are_reported (n := 6) reportedRun Sample.state_initial reportedRun_scheduled
    reportedRun_finishes hknown hanswered
    (fun _ => KvTree.isEmpty_iff.mpr fun _ => Finmap.notMem_empty)
    ⟨Or.inl rfl, fun h => by cases h⟩ rfl hbegin
    List.mem_cons_self (of_decide_eq_true rfl) ⟨[], rfl⟩

end Sample

end Snowpatch.ReportLiveness
