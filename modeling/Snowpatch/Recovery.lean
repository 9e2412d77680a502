import Snowpatch.Startup

/-! What a restart finds. The loops read "needs testing", "{handle} queue" and "needs
dispatch" anew; nothing reads "awaiting git worker", "git worker {i}" and "{handle} working",
whose entries live on only in tasks of the process. As long as no stop catches an entry in
one of these, every series stays owned. -/
namespace Snowpatch.Recovery

open Pipeline

/-- The git task of a series: in the hands of ingest, in the pool or on a thread. -/
def HasGitTask (p : Process) (id : SeriesId) : Prop :=
  p.ingest = .spawning id ∨ id ∈ p.pool ∨ ∃ i pc, p.thread i = some (id, pc)

def HasRunTask (p : Process) (branch : String) : Prop :=
  (∃ k, p.watcher k = .spawning branch) ∨ ∃ t ∈ p.waits, t.branch = branch

/-- The process has finished starting, and no error is about to end it. -/
def Up (p : Process) : Prop := (p.main = .idle ∨ p.main = .scanning) ∧ p.dispatch ≠ .aborted

/-- Every entry of a pipeline tree has a live task or is in a tree that a running loop reads. -/
structure Owned (s : State) : Prop where
  awaiting : ∀ id ∈ s.db.series .awaitingGitWorker, HasGitTask s.proc id
  workers : ∀ i, ∀ id ∈ s.db.series (.gitWorker i), HasGitTask s.proc id
  working : ∀ handle, ∀ b ∈ s.db.branches (.working handle),
    b ∈ s.db.branches (.queue handle) ∨ HasRunTask s.proc b
  reads_series : s.proc.ingest ≠ .off
  reads_queues : Up s.proc → ∀ handle, ∀ b ∈ s.db.branches (.queue handle),
    ∃ k r, s.proc.config.runners[k]? = some r ∧ r.getHandle = handle ∧ s.proc.watcher k ≠ .off
  reads_results : Up s.proc → s.proc.dispatch ≠ .off ∧ s.proc.dispatch ≠ .aborted

/-- A stop now would leave nothing in a tree that no loop reads. -/
structure Drained (db : Db) : Prop where
  awaiting : ∀ id, id ∉ db.series .awaitingGitWorker
  workers : ∀ i id, id ∉ db.series (.gitWorker i)
  working : ∀ handle, ∀ b ∈ db.branches (.working handle), b ∈ db.branches (.queue handle)

/-- Nothing is queued for a runner, and no remote is known to push to. -/
structure Quiet (db : Db) : Prop where
  queues : ∀ handle b, b ∉ db.branches (.queue handle)
  remotes : ∀ remote, remote ∉ db.remotesToPushTo

/-- The condition on a run: what a stop may find, and what a start without runners may. -/
def NothingCaught (s : State) : Event → Prop
  | .stop => Drained s.db
  | .start config _ => config.runners = [] → Quiet s.db
  | _ => True

def InHand (t : SeriesTree) : Prop := t = .awaitingGitWorker ∨ ∃ i, t = .gitWorker i

def Tasked (v : GitStage.View) (id : SeriesId) : Prop :=
  v.ingest = .spawning id ∨ id ∈ v.pool ∨ ∃ i pc, v.thread i = some (id, pc)

def Tended (v : GitStage.View) : Prop := ∀ t id, InHand t → v.held t id → Tasked v id

variable {env : Env} {s : State} {e : Event}

theorem inHand_ne {t u : SeriesTree} (h : InHand t)
    (hu : u = .needsTesting ∨ u = .gitFailures) : t ≠ u := by
  rintro rfl
  rcases h with rfl | ⟨i, rfl⟩ <;> simp at hu

theorem tended_ingest {e : Ingest.Event} (h : Tended (GitStage.view s))
    (he : Enabled env s (.ingest e)) : Tended (GitStage.view (next env s (.ingest e))) := by
  intro t id ht hid
  have keep : (∀ a, s.proc.ingest ≠ .spawning a) → (GitStage.view s).held t id →
      Tasked (GitStage.view (next env s (.ingest e))) id := by
    intro hno hid
    rcases h t id ht hid with hi | hp | hth
    · exact absurd hi (hno id)
    · refine Or.inr (Or.inl ?_)
      cases e <;> first | exact hp | exact List.mem_cons_of_mem _ hp
    · exact Or.inr (Or.inr hth)
  cases e with
  | ready =>
    have hpc : s.proc.ingest = .initWorktrees := he
    exact keep (by simp [hpc]) hid
  | read | take | ends =>
    obtain ⟨cursor, hpc, _⟩ := he
    have hpc : s.proc.ingest = .iterate cursor := hpc
    exact keep (by simp [hpc]) hid
  | move a =>
    obtain ⟨hpc, hmem⟩ := he
    have hpc : s.proc.ingest = .moving a := hpc
    rcases (GitStage.held_moved (by simp) hmem t id).mp hid with ⟨rfl, _⟩ | ⟨hid, _⟩
    · exact Or.inl rfl
    · exact keep (by simp [hpc]) hid
  | spawn a =>
    rcases h t id ht hid with hi | hp | hth
    · obtain rfl := Ingest.Pc.spawning.inj (hi.symm.trans he)
      exact Or.inr (Or.inl List.mem_cons_self)
    · exact Or.inr (Or.inl (List.mem_cons_of_mem _ hp))
    · exact Or.inr (Or.inr hth)
  | wait e =>
    obtain ⟨w, hpc, _⟩ := he
    have hpc : s.proc.ingest = .waiting w := hpc
    exact keep (by simp [hpc]) hid

theorem tended_worker {i : ℕ} {a : SeriesId} {e : Worker.Event}
    (hc : GitStage.GitCustody (GitStage.view s)) (h : Tended (GitStage.view s))
    (he : Enabled env s (.worker i a e)) :
    Tended (GitStage.view (next env s (.worker i a e))) := by
  obtain ⟨pc, hi, hen⟩ := he
  have hv := GitStage.view_worker env (e := e) hi
  rw [hv]
  intro t id ht hid
  by_cases hia : id = a
  · subst hia
    cases hn : Worker.nextPc pc e with
    | some pc' => exact Or.inr (Or.inr ⟨i, pc', by simp⟩)
    | none =>
      exact absurd (GitStage.held_of_return hc.toCustody hi hen hn hid) (inHand_ne ht (Or.inr rfl))
  · rcases h t id ht (GitStage.held_of_worker_ne hen hia hid) with hs | hp | ⟨j, p, hj⟩
    · exact Or.inl hs
    · exact Or.inr (Or.inl hp)
    · have hji : j ≠ i := by
        rintro rfl
        exact hia (congrArg Prod.fst (Option.some.inj (hj.symm.trans hi)))
      exact Or.inr (Or.inr ⟨j, p, by simpa [hji, GitStage.view] using hj⟩)

theorem tended_step {e : Event} (hb : Startup.Booted s.proc)
    (hc : GitStage.GitCustody (GitStage.view s)) (h : Tended (GitStage.view s))
    (he : Enabled env s e) (hs : NothingCaught s e) :
    Tended (GitStage.view (next env s e)) := by
  cases e using GitStage.event_cases with
  | elsewhere e ho =>
    rw [GitStage.view_elsewhere env s ho]
    exact h
  | start config threads =>
    intro t id ht hid
    have hstop : s.proc = Process.stopped := hb.off_stopped he.1
    rcases h t id ht hid with hi | hp | ⟨i, pc, hi⟩
    · simp [GitStage.view, hstop, Process.stopped] at hi
    · simp [GitStage.view, hstop, Process.stopped] at hp
    · simp [GitStage.view, hstop, Process.stopped] at hi
  | stop =>
    intro t id ht hid
    rcases ht with rfl | ⟨i, rfl⟩
    · exact absurd hid (hs.awaiting id)
    · exact absurd hid (hs.workers i id)
  | beginScan page => exact h
  | scan e => cases e with
    | queue l =>
      intro t id ht hid
      have hdb : (next env s (.scan (.queue l))).db =
          s.db.insertSeries .needsTesting l.series.id l.series.mbox := Watchcat.queue_db he
      have hold : (GitStage.view s).held t id := by
        simp only [GitStage.View.held, GitStage.view, hdb] at hid
        exact (Db.mem_insertSeries.mp hid).resolve_left fun hx =>
          inHand_ne ht (Or.inl rfl) hx.2
      refine (h t id ht hold).imp_left ?_
      intro hi
      exact GitStage.ingest_notify_eq_spawning.mpr hi
    | reject | choose | mark | fail | skip => exact h
  | ingest e => exact tended_ingest h he
  | begin i a =>
    intro t id ht hid
    rcases h t id ht hid with hi | hp | ⟨j, pc, hj⟩
    · exact Or.inl hi
    · by_cases hia : id = a
      · subst hia
        exact Or.inr (Or.inr ⟨i, .checking, by simp [GitStage.view, next]⟩)
      · exact Or.inr (Or.inl ((List.mem_erase_of_ne hia).mpr hp))
    · have hji : j ≠ i := by
        rintro rfl
        cases hj.symm.trans he.2.1
      exact Or.inr (Or.inr ⟨j, pc, by simpa [GitStage.view, next, hji] using hj⟩)
  | worker i a e => exact tended_worker hc h he

/-- Every entry of "working" is still queued as well or has its task. -/
def Worked (s : State) : Prop := ∀ b ∈ s.db.branches (.working gitHubHandle),
  b ∈ s.db.branches (.queue gitHubHandle) ∨ HasRunTask s.proc b

theorem worked_of_queue {b : String} (he : Enabled env s e)
    (hb : b ∈ s.db.branches (.queue gitHubHandle)) :
    b ∈ (next env s e).db.branches (.queue gitHubHandle) ∨ HasRunTask (next env s e).proc b := by
  rcases RunnerStage.mem_branches_kept he hb with hb | ⟨k, rfl, _⟩ | ⟨_, _, _, ht⟩
  · exact Or.inl hb
  · exact Or.inr (Or.inl ⟨k, RunnerStage.watcher_move env s k b⟩)
  · cases ht

theorem worked_of_task {b : String} (hboot : Startup.Booted s.proc) (he : Enabled env s e)
    (hstart : ∀ config threads, e ≠ .start config threads) (hstop : e ≠ .stop)
    (hb : b ∈ (next env s e).db.branches (.working gitHubHandle))
    (h : HasRunTask s.proc b) : HasRunTask (next env s e).proc b := by
  rcases h with ⟨k, hk⟩ | ⟨t, ht, hbt⟩
  · rcases RunnerStage.spawning_kept he hk with hk | rfl | rfl | rfl | ⟨config, threads, rfl⟩
    · exact Or.inl ⟨k, hk⟩
    · exact Or.inr ⟨⟨k, b, [], .polling⟩, RunnerStage.mem_waits_spawn env s k b, rfl⟩
    · cases (Startup.off_of_spawn hboot he).symm.trans hk
    · exact absurd rfl hstop
    · exact absurd rfl (hstart config threads)
  · rcases RunnerStage.mem_waits_kept env e ht with ht | ⟨we, rfl, hnext⟩ | rfl |
      ⟨config, threads, rfl⟩
    · exact Or.inr ⟨t, ht, hbt⟩
    · cases hn : Completion.next t we with
      | some t' => exact Or.inr ⟨t', hnext t' hn, (Completion.next_same hn).2.trans hbt⟩
      | none =>
        obtain rfl := Completion.eq_remove_of_next hn
        exact absurd ⟨hbt.symm, rfl⟩ (Db.mem_removeBranch.mp hb).2
    · exact absurd rfl hstop
    · exact absurd rfl (hstart config threads)

theorem worked_step (hboot : Startup.Booted s.proc) (h : Worked s)
    (he : Enabled env s e) (hs : NothingCaught s e) : Worked (next env s e) := by
  intro b hb
  by_cases hstart : ∃ config threads, e = .start config threads
  · obtain ⟨config, threads, rfl⟩ := hstart
    have hstop : s.proc = Process.stopped := hboot.off_stopped he.1
    rcases h b hb with hq | ⟨k, hk⟩ | ⟨t, ht, _⟩
    · exact Or.inl hq
    · simp [hstop, Process.stopped] at hk
    · simp [hstop, Process.stopped] at ht
  by_cases hstop : e = .stop
  · subst hstop
    exact Or.inl (hs.working gitHubHandle b hb)
  rcases RunnerStage.mem_branches_next he hb with hold | ⟨_, _, _, _, _, _, ht⟩ | ⟨k, rfl, _⟩
  · rcases h b hold with hq | htask
    · exact worked_of_queue he hq
    · exact Or.inr (worked_of_task hboot he (fun c n hx => hstart ⟨c, n, hx⟩) hstop hb htask)
  · cases ht
  · exact Or.inr (Or.inl ⟨k, RunnerStage.watcher_move env s k b⟩)

/-- Without runners the process keeps the queues as empty as it has found them. -/
structure Silent (s : State) : Prop where
  quiet : Quiet s.db
  tasks : ∀ i id pc, s.proc.thread i = some (id, .working pc) → pc.runners = []
  leaves : ∀ i id leaf cursor runners,
    s.proc.thread i = some (id, .working (.listing leaf cursor runners)) →
      ∀ remote, remote ∉ leaf.entries

theorem silent_step {e : Event} (h : Silent s) (hrunners : s.proc.config.runners = [])
    (he : Enabled env s e) : Silent (next env s e) := by
  refine ⟨⟨?_, ?_⟩, ?_, ?_⟩
  · intro handle b hb
    rcases RunnerStage.mem_branches_next he hb with hb | ⟨i, id, r, n, rfl, _⟩ | ⟨_, _, ht⟩
    · exact h.quiet.queues handle b hb
    · obtain ⟨_, hi, q, rfl, rest, hq⟩ := he
      have hnil := h.tasks i id q hi
      have hpc : q = .queueing r n rest := hq
      rw [hpc] at hnil
      cases hnil
    · cases ht
  · intro remote hr
    by_cases hm : ∀ remote, e ≠ .main (.insertRemote remote)
    · rw [Startup.remotes_elsewhere hm] at hr
      exact h.quiet.remotes remote hr
    · push Not at hm
      obtain ⟨a, rfl⟩ := hm
      obtain ⟨k, r, _, hk, _⟩ := he
      simp [hrunners] at hk
  · intro i id pc hi
    rcases GitStage.working_cases he hi with ⟨hold, _⟩ | ⟨_, rfl⟩ | ⟨q, we, rfl, hold, hen, rfl⟩
    · exact h.tasks i id pc hold
    · rfl
    · refine List.eq_nil_iff_forall_not_mem.mpr ?_
      intro p hp
      rcases DoWork.mem_runners_nextPc hen hp with hp | rfl
      · rw [h.tasks i id q hold] at hp
        cases hp
      · obtain ⟨leaf, _, _, hpc, _, hlookup⟩ := hen
        obtain rfl : q = .listing leaf _ _ := hpc
        exact h.leaves i id leaf _ _ hold _ (Finmap.mem_of_lookup_eq_some hlookup)
  · intro i id leaf cursor runners hi remote hremote
    rcases GitStage.working_cases he hi with ⟨hold, _⟩ | ⟨_, hx⟩ | ⟨q, we, rfl, hold, hen, hpc⟩
    · exact h.leaves i id leaf cursor runners hold remote hremote
    · cases hx
    · rcases DoWork.leaf_cases hen hpc.symm with rfl | ⟨cursor', runners', rfl⟩ |
        ⟨old, found, _, _, hreads⟩
      · exact Finmap.notMem_empty hremote
      · exact h.leaves i id leaf _ _ hold remote hremote
      · exact h.quiet.remotes remote (hreads.mem hremote)

def Attended (s : State) : Prop :=
  s.proc.main ≠ .off → s.proc.config.runners ≠ [] ∨ Silent s

theorem attended_step {e : Event} (hboot : Startup.Booted s.proc) (h : Attended s)
    (he : Enabled env s e) (hs : NothingCaught s e) : Attended (next env s e) := by
  intro hrun
  by_cases hstart : ∀ config threads, e ≠ .start config threads
  · by_cases hstop : e = .stop
    · subst hstop
      exact absurd rfl hrun
    · rw [Startup.config_next hstart hstop]
      have hon : s.proc.main ≠ .off := by
        intro hoff
        rcases Startup.running_of_enabled hboot he with hr | ⟨c, n, hx⟩ | ⟨c, rfl⟩ | ⟨p, c, rfl⟩
        · exact hr hoff
        · exact hstart c n hx
        · exact hrun hoff
        · exact hrun hoff
      by_cases hnil : s.proc.config.runners = []
      · exact Or.inr (silent_step ((h hon).resolve_left fun hne => hne hnil) hnil he)
      · exact Or.inl hnil
  · push Not at hstart
    obtain ⟨config, threads, rfl⟩ := hstart
    by_cases hnil : config.runners = []
    · obtain ⟨hqueues, hremotes⟩ := hs hnil
      refine Or.inr ⟨⟨hqueues, hremotes⟩, ?_, ?_⟩
      · intro i id pc hi
        cases hi
      · intro i id leaf cursor runners hi
        cases hi
    · exact Or.inl hnil

theorem execution_tended {s₀ : State} {tr : List Event}
    (hx : ((machine env).restrict NothingCaught).Execution s₀ tr s) (h₀ : Initial s₀) :
    Tended (GitStage.view s) ∧ Worked s ∧ Attended s := by
  refine hx.history (I := fun _ s => Tended (GitStage.view s) ∧ Worked s ∧ Attended s) ?_
    fun tr s e hx h he => ?_
  · refine ⟨?_, ?_, ?_⟩
    · intro t id _ hid
      have hmem : id ∈ s₀.db.series t := hid
      rw [h₀.db_empty] at hmem
      exact absurd hmem Finmap.notMem_empty
    · intro b hb
      rw [h₀.db_empty] at hb
      exact absurd hb Finmap.notMem_empty
    · intro hr
      simp [h₀.not_running, Process.stopped] at hr
  · have hboot := Startup.execution_booted hx.of_restrict h₀
    have hgit := GitStage.execution_git hx.of_restrict h₀
    exact ⟨tended_step hboot hgit.2 h.1 he.1 he.2, worked_step hboot h.2.1 he.1 he.2,
      attended_step hboot h.2.2 he.1 he.2⟩

theorem entries_owned {s₀ : State} {tr : List Event}
    (hx : ((machine env).restrict NothingCaught).Execution s₀ tr s) (h₀ : Initial s₀)
    (hrun : s.proc.main ≠ .off) : Owned s := by
  obtain ⟨htend, hwork, hattend⟩ := execution_tended hx h₀
  have hboot := Startup.execution_booted hx.of_restrict h₀
  have hhandles := Startup.execution_handles hx.of_restrict h₀
  refine ⟨fun id hid => htend _ id (Or.inl rfl) hid, fun i id hid => htend _ id (Or.inr ⟨i, rfl⟩)
    hid, ?_, hboot.ingest_on hrun, ?_, fun hup => ⟨hboot.dispatch_on hup.1, hup.2⟩⟩
  · intro handle b hb
    rcases hhandles.trees _ b hb with ht | ht
    · cases ht
    · obtain rfl := BranchTree.working.inj ht
      exact hwork b hb
  · intro hup handle b hb
    rcases hhandles.trees _ b hb with ht | ht
    · obtain rfl := BranchTree.queue.inj ht
      have hne : s.proc.config.runners ≠ [] :=
        (hattend hrun).resolve_right fun hsilent => hsilent.quiet.queues _ b hb
      obtain ⟨r, rest, hr⟩ := List.exists_cons_of_ne_nil hne
      refine ⟨0, r, by simp [hr], rfl, hboot.watchers_on 0 ?_⟩
      rcases hup.1 with hm | hm <;> simp [Startup.spawned, hm, hr]
    · cases ht

def caughtTrace : List Event :=
  Sample.boot ++ (Sample.discover ++ Sample.ingest.take 4 ++ [.stop]) ++ Sample.boot

theorem caughtTrace_runs : (machine Sample.env).Runs Sample.state caughtTrace := by
  have hcaught : (machine Sample.env).Runs ((machine Sample.env).run Sample.state Sample.boot)
      (Sample.discover ++ Sample.ingest.take 4 ++ [.stop]) := by
    refine ⟨⟨rfl, ?_⟩, ⟨List.mem_cons_self, ?_⟩, List.mem_cons_self, ⟨List.mem_cons_self, ?_⟩,
      rfl, ⟨_, rfl, KvTree.Leaf.reads_whole ?_⟩, ⟨_, rfl, ?_⟩, ⟨rfl, ?_⟩, MainPc.noConfusion,
      trivial⟩
    all_goals decide
  exact Machine.runs_append.mpr ⟨Machine.runs_append.mpr ⟨Sample.boot_runs rfl, hcaught⟩,
    Sample.boot_runs rfl⟩

theorem caught_not_owned : ∃ tr s, (machine Sample.env).Execution Sample.state tr s ∧
    s.proc.main ≠ .off ∧ ¬ Owned s := by
  refine ⟨caughtTrace, _, caughtTrace_runs.execution, MainPc.noConfusion, ?_⟩
  intro h
  rcases h.awaiting Sample.id (by decide) with hi | hp | ⟨i, pc, hi⟩
  · cases hi
  · cases hp
  · cases hi

theorem sample_drained : Drained Sample.final.db := by
  refine ⟨KvTree.isEmpty_iff.mp (by decide), ?_, ?_⟩
  · intro i
    cases i with
    | zero => exact KvTree.isEmpty_iff.mp (by decide)
    | succ i => exact fun a ha => absurd ha Finmap.notMem_empty
  · intro handle b hb
    rcases (Startup.execution_handles Sample.execution Sample.state_initial).trees _ b hb with
      ht | ht
    · cases ht
    · obtain rfl := BranchTree.working.inj ht
      exact absurd hb (KvTree.isEmpty_iff.mp (by decide) b)

theorem entries_owned_sample :
    Owned ((machine Sample.env).run Sample.final (.stop :: Sample.boot)) := by
  have htrace : ((machine Sample.env).restrict NothingCaught).Runs Sample.state Sample.trace :=
    Sample.runs.restrict (by simp [Sample.trace, Sample.boot, Sample.discover, Sample.ingest,
      Sample.gitWork, Sample.testing, NothingCaught, Sample.config])
  have hrestart : ((machine Sample.env).restrict NothingCaught).Runs Sample.final
      (.stop :: Sample.boot) := by
    refine ⟨⟨MainPc.noConfusion, sample_drained⟩, (Sample.boot_runs rfl).restrict ?_⟩
    simp [Sample.boot, NothingCaught, Sample.config]
  exact entries_owned (htrace.execution.append hrestart.execution) Sample.state_initial
    MainPc.noConfusion

end Snowpatch.Recovery
