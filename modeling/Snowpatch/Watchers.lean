import Snowpatch.Pushes

/-! Which runner watches which push. The queue and "working" are named by the handle that
all runners share, so a watcher takes whatever entry it finds. With at most one runner there
is one watcher, every series is queued at most once, and its entry is followed from the push
to the one task that polls for it. -/
namespace Snowpatch.Watchers

open Pipeline Pushes

/-- Every start of the program reads the same list of runners. -/
def Configured (runners : List RunnerConfig) (_ : State) : Event → Prop
  | .start config _ => config.runners = runners
  | _ => True

def Named (runners : List RunnerConfig) (remote : String) : Prop :=
  ∃ r ∈ runners, r.remote? = some remote

def Pushed (tr : List Event) (id : SeriesId) : Prop := ∃ remote, PushedTo tr id remote

def Queued (tr : List Event) (id : SeriesId) : Prop :=
  ∃ remote handle, QueuedFor tr id remote handle

/-- Its `do_work` has returned Ok. -/
def Completed (tr : List Event) (id : SeriesId) : Prop :=
  ∃ i, Event.worker i id (.work .finish) ∈ tr

/-- The watcher of a runner spawns `wait_for_completion` for a branch. -/
def spawns (k : ℕ) (branch : String) : Event → Bool
  | .watcher j (.spawn b) => decide (j = k ∧ b = branch)
  | _ => false

/-- Where a `do_work` with at most one remote stands: nothing is pushed before the remotes
are listed, and the one push is followed by the one insert into the queue. -/
def PushesOnce (configured : List RunnerConfig) (tr : List Event) (id : SeriesId) :
    DoWork.Pc → Prop
  | .listing leaf cursor runners => Untouched tr id ∧
      (∀ remote ∈ leaf.entries, Named configured remote) ∧ (runners = [] ∨
        ∃ p, runners = [p] ∧ cursor = (p.1 : WithBot String) ∧ Named configured p.1)
  | .pushing [] | .returned true => Pushed tr id → Queued tr id
  | .pushing (_ :: rest) => Untouched tr id ∧ rest = []
  | .queueing _ _ rest => ¬ Queued tr id ∧ rest = []
  | .returned false => True
  | .opening | .resetting | .reading | .downloading _ | .applying _ | .fallback _
  | .reopening | .committing => Untouched tr id

section Single

variable {env : Env} {runners : List RunnerConfig} {s : State}

/-- What the program knows of its runners, over all starts with one configuration. -/
structure Settled (runners : List RunnerConfig) (s : State) : Prop where
  config : s.proc.main ≠ .off → s.proc.config.runners = runners
  remotes : ∀ remote ∈ s.db.remotesToPushTo, Named runners remote

theorem remotes_step {e : Event} (hb : Startup.Booted s.proc) (h : Settled runners s)
    (he : Enabled env s e) : ∀ remote ∈ (next env s e).db.remotesToPushTo,
      Named runners remote := by
  intro remote hr
  by_cases hm : ∀ a, e ≠ .main (.insertRemote a)
  · rw [Startup.remotes_elsewhere hm] at hr
    exact h.remotes remote hr
  · push Not at hm
    obtain ⟨a, rfl⟩ := hm
    have hrun : s.proc.main ≠ .off :=
      (Startup.running_of_enabled hb he).resolve_right (by simp)
    obtain ⟨k, r, _, hk, htrigger⟩ := he
    rcases Finmap.mem_insert.mp hr with rfl | hr
    · rw [h.config hrun] at hk
      exact ⟨r, List.mem_of_getElem? hk, by simp [RunnerConfig.remote?, htrigger]⟩
    · exact h.remotes remote hr

theorem named_unique (hone : runners.length ≤ 1) {a b : String} (ha : Named runners a)
    (hb : Named runners b) : a = b := by
  obtain ⟨r, hr, hra⟩ := ha
  obtain ⟨q, hq, hqb⟩ := hb
  have hrq : r = q := by
    match runners, hone with
    | [x], _ => rw [List.mem_singleton.mp hr, List.mem_singleton.mp hq]
  exact Option.some.inj (hra.symm.trans (hrq ▸ hqb))

theorem watcher_eq_zero (hone : runners.length ≤ 1) (hb : Startup.Booted s.proc)
    (h : Settled runners s) {k : ℕ} (hk : s.proc.watcher k ≠ .off) : k = 0 := by
  have hlt : k < Startup.spawned s.proc := not_le.mp fun hle => hk (hb.watchers_off k hle)
  by_cases hrun : s.proc.main = .off
  · simp [Startup.spawned, hrun] at hlt
  · have hle := hb.spawned_le
    rw [h.config hrun] at hle
    omega

end Single

section PushesOnce

variable {configured : List RunnerConfig} {tr : List Event} {e : Event} {id : SeriesId}

theorem pushed_append : Pushed (tr ++ [e]) id ↔ Pushed tr id ∨ ∃ r, IsPush id r e := by
  simp only [Pushed, pushedTo_append, exists_or]

theorem queued_append :
    Queued (tr ++ [e]) id ↔ Queued tr id ∨ ∃ r n, IsQueue id r n e := by
  simp only [Queued, queuedFor_append, exists_or]

theorem not_queued_of_untouched (h : Untouched tr id) : ¬ Queued tr id := by
  rintro ⟨r, n, hq⟩
  exact h.queued r n hq

theorem PushesOnce.append {pc : DoWork.Pc} (h : PushesOnce configured tr id pc)
    (he : Idle id e) : PushesOnce configured (tr ++ [e]) id pc := by
  have hpushed : Pushed (tr ++ [e]) id ↔ Pushed tr id :=
    pushed_append.trans (or_iff_left (not_exists.mpr he.1))
  have hqueued : Queued (tr ++ [e]) id ↔ Queued tr id := by
    refine queued_append.trans (or_iff_left ?_)
    rintro ⟨r, n, hq⟩
    exact he.2 r n hq
  cases pc with
  | listing leaf cursor runners => exact ⟨h.1.append he, h.2⟩
  | pushing rest =>
    cases rest with
    | nil => simpa only [PushesOnce, hpushed, hqueued] using h
    | cons p rest => exact ⟨h.1.append he, h.2⟩
  | queueing remote handle rest => simpa only [PushesOnce, hqueued] using h
  | returned ok =>
    cases ok with
    | true => simpa only [PushesOnce, hpushed, hqueued] using h
    | false => trivial
  | opening | resetting | reading | downloading | applying | fallback | reopening
  | committing => exact Untouched.append h he

/-- The listing finds one remote at most: after the first there is none past the cursor. -/
theorem listed_once (hone : configured.length ≤ 1) {cursor : WithBot String}
    {runners : List (String × String)}
    (h : runners = [] ∨ ∃ p, runners = [p] ∧ cursor = (p.1 : WithBot String) ∧
      Named configured p.1) {remote : String} (hnamed : Named configured remote)
    (hlt : cursor < (remote : WithBot String)) : runners = [] := by
  refine h.resolve_right ?_
  rintro ⟨p, _, rfl, hp⟩
  obtain rfl := named_unique hone hp hnamed
  exact lt_irrefl _ hlt

theorem pushesOnce_setUp {pc : DoWork.Pc} (h : pc.SetUp) :
    PushesOnce configured tr id pc ↔ Untouched tr id := by
  cases pc with
  | listing | pushing | queueing | returned => exact h.elim
  | _ => exact Iff.rfl

theorem pushesOnce_work {env : Env} {s : State} {i : ℕ} {p : DoWork.Pc} {we : DoWork.Event}
    (hone : configured.length ≤ 1) (hs : Settled configured s)
    (he : DoWork.Enabled env.apply i id ⟨s.db, s.git, p⟩ we)
    (h : PushesOnce configured tr id p) :
    PushesOnce configured (tr ++ [.worker i id (.work we)]) id (DoWork.nextPc p we) := by
  have hmoves := DoWork.moves he
  generalize DoWork.nextPc p we = p' at hmoves
  cases hmoves with
  | setUp hpc hsilent hpc' =>
    refine (pushesOnce_setUp hpc').mpr ?_
    exact ((pushesOnce_setUp hpc).mp h).append (idle_of_silent hsilent i id)
  | fail | breaks => trivial
  | commit =>
    refine ⟨Untouched.append h (by simp [Idle, IsPush, IsQueue]), ?_, Or.inl rfl⟩
    exact fun _ hr => absurd hr Finmap.notMem_empty
  | readRemotes hreads =>
    obtain ⟨hu, _, hrunners⟩ := h
    exact ⟨hu.append (by simp [Idle, IsPush, IsQueue]),
      fun remote hr => hs.remotes remote (hreads.mem hr), hrunners⟩
  | @nextRunner leaf cursor runners remote handle hnext _ =>
    obtain ⟨hu, hleaf, hrunners⟩ := h
    obtain ⟨hmem, hlt, _⟩ := KvTree.of_first_eq hnext
    obtain rfl := listed_once hone hrunners (hleaf remote hmem) hlt
    exact ⟨hu.append (by simp [Idle, IsPush, IsQueue]), hleaf,
      Or.inr ⟨(remote, handle), rfl, rfl, hleaf remote hmem⟩⟩
  | listed _ =>
    have hu := h.1.append (e := .worker i id (.work .listed)) (by simp [Idle, IsPush, IsQueue])
    rcases h.2.2 with rfl | ⟨p, rfl, _⟩
    · rintro ⟨r, hp⟩
      exact absurd hp (hu.pushed r)
    · exact ⟨hu, rfl⟩
  | push hpush =>
    refine ⟨?_, h.2⟩
    intro hq
    rcases queued_append.mp hq with hq | ⟨r, n, j, hj⟩
    · exact not_queued_of_untouched h.1 hq
    · cases hj
      simp at hpush
  | @queue remote handle rest =>
    obtain ⟨_, rfl⟩ := h
    exact fun _ => queued_append.mpr (Or.inr ⟨remote, handle, i, rfl⟩)
  | finish => exact PushesOnce.append h (by simp [Idle, IsPush, IsQueue])

end PushesOnce

section Runs

variable {env : Env} {runners : List RunnerConfig} {s₀ s : State} {tr : List Event}

theorem execution_settled (hx : ((machine env).restrict (Configured runners)).Execution s₀ tr s)
    (h₀ : Initial s₀) : Settled runners s := by
  refine hx.history (I := fun _ s => Settled runners s) ?_ fun tr s e hx h he => ?_
  · constructor
    · intro hrun
      rw [h₀.not_running] at hrun
      exact absurd rfl hrun
    · intro remote hr
      rw [h₀.db_empty] at hr
      exact absurd hr Finmap.notMem_empty
  · have hb := Startup.execution_booted hx.of_restrict h₀
    refine ⟨Startup.config_step (P := fun c => c.runners = runners) hb h.config he.1 ?_,
      remotes_step hb h he.1⟩
    rintro config threads rfl
    exact he.2

theorem execution_pushesOnce (hone : runners.length ≤ 1)
    (hx : ((machine env).restrict (Configured runners)).Execution s₀ tr s) (h₀ : Initial s₀) :
    ∀ i id pc, s.proc.thread i = some (id, .working pc) → PushesOnce runners tr id pc :=
  work_history (I := fun tr _ id pc => PushesOnce runners tr id pc) hx h₀
    (fun _ _ _ hu => hu) (fun _ _ _ _ _ h he => h.append he)
    fun _ _ _ _ _ _ hx _ he _ h => pushesOnce_work hone (execution_settled hx h₀) he h

theorem not_queued_of_queue (hone : runners.length ≤ 1)
    (hx : ((machine env).restrict (Configured runners)).Execution s₀ tr s) (h₀ : Initial s₀)
    {i : ℕ} {id : SeriesId} {r n : String}
    (he : Enabled env s (.worker i id (.work (.queue r n)))) : ¬ Queued tr id := by
  obtain ⟨_, hi, p, rfl, rest, rfl⟩ := he
  exact (execution_pushesOnce hone hx h₀ i id _ hi).1

theorem completed_append {e : Event} {id : SeriesId} : Completed (tr ++ [e]) id ↔
    Completed tr id ∨ ∃ i, e = .worker i id (.work .finish) := by
  simp [Completed, exists_or, eq_comm]

theorem returned_of_completed (hx : (machine env).Execution s₀ tr s) (h₀ : Initial s₀)
    {i : ℕ} {id : SeriesId} {pc : DoWork.Pc} (hc : Completed tr id)
    (hi : s.proc.thread i = some (id, .working pc)) : pc = .returned true := by
  refine hx.history (I := fun tr s => ∀ i pc, Completed tr id →
    s.proc.thread i = some (id, .working pc) → pc = .returned true) ?_ ?_ i pc hc hi
  · intro i pc hc
    simp [Completed] at hc
  intro tr s e hx ih he i pc hc hi
  rcases GitStage.working_cases he hi with ⟨hold, hne⟩ | ⟨rfl, rfl⟩ | ⟨p, we, rfl, hold, hen, rfl⟩
  · rcases completed_append.mp hc with hc | ⟨j, rfl⟩
    · exact ih i pc hc hold
    · have ⟨q, hq, _⟩ := he
      obtain rfl := (GitStage.execution_git hx h₀).2.thread_once j i id q _ hq hold
      exact absurd rfl (hne .finish)
  · obtain ⟨j, hj⟩ := (completed_append.mp hc).resolve_right (by simp)
    obtain ⟨_, hmoved, rfl⟩ := he
    exact absurd ((GitStage.begun_of_work hx h₀ hj).started i .moved hmoved) fun h => h
  · rcases completed_append.mp hc with hc | ⟨j, hj⟩
    · obtain rfl := ih i p hc hold
      cases we <;> simp [DoWork.Enabled, DoWork.Pc.Fallible] at hen
    · obtain rfl : we = .finish := by
        cases hj
        rfl
      rfl

theorem queued_of_completed (hone : runners.length ≤ 1)
    (hx : ((machine env).restrict (Configured runners)).Execution s₀ tr s) (h₀ : Initial s₀)
    {id : SeriesId} (hc : Completed tr id) (hp : Pushed tr id) : Queued tr id := by
  refine hx.history (I := fun tr _ => Completed tr id → Pushed tr id → Queued tr id) ?_ ?_ hc hp
  · intro hc
    simp [Completed] at hc
  intro tr s e hx ih he hc hp
  rcases completed_append.mp hc with hc | ⟨i, rfl⟩
  · rcases pushed_append.mp hp with hp | ⟨r, i, hr⟩
    · exact queued_append.mpr (Or.inl (ih hc hp))
    · have hpush : ∃ p, s.proc.thread i = some (id, .working p) ∧
          ∃ runner rest, p = .pushing ((r, runner) :: rest) := by
        rcases hr with rfl | rfl
        · obtain ⟨⟨_, hi, p, rfl, runner, rest, hpc, _⟩, _⟩ := he
          exact ⟨p, hi, runner, rest, hpc⟩
        · obtain ⟨⟨_, hi, p, rfl, runner, rest, hpc, _⟩, _⟩ := he
          exact ⟨p, hi, runner, rest, hpc⟩
      obtain ⟨p, hi, runner, rest, rfl⟩ := hpush
      cases returned_of_completed hx.of_restrict h₀ hc hi
  · obtain ⟨_, hi, p, rfl, rfl⟩ := he.1
    have h := execution_pushesOnce hone hx h₀ i id _ hi
    rcases pushed_append.mp hp with hp | ⟨r, j, hr⟩
    · exact queued_append.mpr (Or.inl (h hp))
    · simp at hr

end Runs

/-- What watcher 0 has cloned of the queue is still queued from its cursor on: with no second
watcher nothing else takes from the queue. -/
def Cached (s : State) : Prop := ∀ b ∈ (s.proc.watcherLeaf 0).entries,
  (s.proc.watcher 0).cursor < (b : WithBot String) → b ∈ s.db.branches (.queue gitHubHandle)

section Cached

variable {env : Env} {s : State} {e : Event}

theorem cached_step (hlone : ∀ k, s.proc.watcher k ≠ .off → k = 0) (h : Cached s)
    (he : Enabled env s e) : Cached (next env s e) := by
  intro b hb hlt
  have hbefore : b ∈ s.db.branches (.queue gitHubHandle) := by
    rcases RunnerStage.watcherLeaf_next he hb with ⟨hold, hle⟩ | hq
    · exact h b hold (hle.trans_lt hlt)
    · exact hq
  rcases RunnerStage.mem_branches_kept he hbefore with hq | ⟨k, rfl, _⟩ | ⟨_, _, _, ht⟩
  · exact hq
  · have hmove : Watcher.Enabled gitHubHandle
      ⟨s.db, s.proc.watcher k, s.proc.watcherLeaf k⟩ (.move b) := he
    obtain rfl := hlone k (Startup.watcher_ne_off hmove).1
    rw [RunnerStage.watcher_move] at hlt
    exact absurd hlt (lt_irrefl _)
  · cases ht

theorem Cached.queued (h : Cached s) (hlone : ∀ k, s.proc.watcher k ≠ .off → k = 0) {k : ℕ}
    {b : String} (he : Enabled env s (.watcher k (.take b))) :
    b ∈ s.db.branches (.queue gitHubHandle) := by
  obtain ⟨cursor, hpc, hnext⟩ := he
  have hpc : s.proc.watcher k = .iterate cursor := hpc
  obtain rfl := hlone k (by simp [hpc])
  obtain ⟨hmem, hlt, _⟩ := KvTree.of_first_eq hnext
  exact h b hmem (hpc ▸ hlt)

end Cached

def tasksSpawned (tr : List Event) (id : SeriesId) : ℕ := tr.countP (spawns 0 id.toDecimal)

/-- The way of one series through the runner stage, with watcher 0 as the only one: it is
queued once, then taken, then its task is spawned, and it does not come back. -/
structure Watched (tr : List Event) (s : State) (id : SeriesId) : Prop where
  unqueued : ¬ Queued tr id → tasksSpawned tr id = 0 ∧
    id.toDecimal ∉ s.db.branches (.queue gitHubHandle) ∧
    ∀ k, ¬ RunnerStage.Names (s.proc.watcher k) id.toDecimal
  queue : id.toDecimal ∈ s.db.branches (.queue gitHubHandle) → tasksSpawned tr id = 0 ∧
    ∀ k, s.proc.watcher k ≠ .spawning id.toDecimal
  taken : ∀ k, s.proc.watcher k = .starting id.toDecimal ∨
    s.proc.watcher k = .moving id.toDecimal →
      id.toDecimal ∈ s.db.branches (.queue gitHubHandle)
  spawning : ∀ k, s.proc.watcher k = .spawning id.toDecimal → tasksSpawned tr id = 0
  started : ∀ k, s.proc.watcher k = .moving id.toDecimal ∨
    s.proc.watcher k = .spawning id.toDecimal → Event.watcher 0 (.startWork id.toDecimal) ∈ tr
  tasks : ∀ t ∈ s.proc.waits, t.branch = id.toDecimal → tasksSpawned tr id = 1
  counted : tasksSpawned tr id = 1 → Event.watcher 0 (.startWork id.toDecimal) ∈ tr
  whereabouts : Queued tr id → id.toDecimal ∈ s.db.branches (.queue gitHubHandle) ∨
    id.toDecimal ∈ s.db.branches (.working gitHubHandle) ∨ tasksSpawned tr id = 1

section Watched

variable {env : Env} {s : State} {tr : List Event} {e : Event} {id : SeriesId}

theorem tasksSpawned_append_of_ne (h : e ≠ .watcher 0 (.spawn id.toDecimal)) :
    tasksSpawned (tr ++ [e]) id = tasksSpawned tr id := by
  have hno : spawns 0 id.toDecimal e = false := by
    unfold spawns
    split
    · next j b =>
      refine decide_eq_false ?_
      rintro ⟨rfl, rfl⟩
      exact h rfl
    · rfl
  simp [tasksSpawned, hno]

theorem tasksSpawned_append_spawn :
    tasksSpawned (tr ++ [.watcher 0 (.spawn id.toDecimal)]) id = tasksSpawned tr id + 1 := by
  simp [tasksSpawned, spawns]

namespace Watched

variable (h : Watched tr s id) (he : Enabled env s e)
include h he

theorem ne_spawn_of_spawned (hc : tasksSpawned tr id = 1) :
    e ≠ .watcher 0 (.spawn id.toDecimal) := by
  rintro rfl
  exact absurd ((h.spawning 0 he).symm.trans hc) zero_ne_one

theorem unqueued_step (hlone : ∀ k, s.proc.watcher k ≠ .off → k = 0) (hcached : Cached s)
    (hq : ¬ Queued (tr ++ [e]) id) : tasksSpawned (tr ++ [e]) id = 0 ∧
    id.toDecimal ∉ (next env s e).db.branches (.queue gitHubHandle) ∧
    ∀ k, ¬ RunnerStage.Names ((next env s e).proc.watcher k) id.toDecimal := by
  obtain ⟨hcount, hqueue, hnames⟩ := h.unqueued fun hx => hq (queued_append.mpr (Or.inl hx))
  have hne : e ≠ .watcher 0 (.spawn id.toDecimal) := by
    rintro rfl
    exact hnames 0 (Or.inr (Or.inr he))
  refine ⟨(tasksSpawned_append_of_ne hne).trans hcount, ?_, ?_⟩
  · intro hb
    rcases RunnerStage.mem_branches_next he hb with hb | ⟨i, a, r, n, rfl, ha, _⟩ | ⟨_, _, ht⟩
    · exact hqueue hb
    · obtain rfl := toDecimal_inj.mp ha
      exact hq (queued_append.mpr (Or.inr ⟨r, n, i, rfl⟩))
    · cases ht
  · intro k hk
    rcases RunnerStage.watcher_next he hk with ⟨we, rfl, hen, hpc⟩ | ⟨_, hpc⟩
    · rcases RunnerStage.hand_cases hen (hpc ▸ hk) with ⟨rfl, _⟩ | ⟨_, hold⟩ | ⟨_, hold⟩
      · exact hqueue (hcached.queued hlone he)
      · exact hnames k (Or.inl hold)
      · exact hnames k (Or.inr (Or.inl hold))
    · rw [hpc] at hk
      exact hnames k hk

theorem queue_step (honce : ∀ i r n, e = .worker i id (.work (.queue r n)) → ¬ Queued tr id)
    (hb : id.toDecimal ∈ (next env s e).db.branches (.queue gitHubHandle)) :
    tasksSpawned (tr ++ [e]) id = 0 ∧
      ∀ k, (next env s e).proc.watcher k ≠ .spawning id.toDecimal := by
  have hbefore : tasksSpawned tr id = 0 ∧ (∀ k, s.proc.watcher k ≠ .spawning id.toDecimal) := by
    rcases RunnerStage.mem_branches_next he hb with hb | ⟨i, a, r, n, rfl, ha, _⟩ | ⟨_, _, ht⟩
    · exact h.queue hb
    · obtain rfl := toDecimal_inj.mp ha
      obtain ⟨hcount, _, hnames⟩ := h.unqueued (honce i r n rfl)
      exact ⟨hcount, fun k hk => hnames k (Or.inr (Or.inr hk))⟩
    · cases ht
  have hne : e ≠ .watcher 0 (.spawn id.toDecimal) := by
    rintro rfl
    exact hbefore.2 0 he
  refine ⟨(tasksSpawned_append_of_ne hne).trans hbefore.1, ?_⟩
  intro k hk
  rcases RunnerStage.watcher_next he (Or.inr (Or.inr hk)) with ⟨we, rfl, hen, hpc⟩ | ⟨_, hpc⟩
  · rw [hpc] at hk
    obtain rfl : we = .move id.toDecimal := by
      rcases RunnerStage.hand_cases hen (Or.inr (Or.inr hk)) with ⟨rfl, _⟩ | ⟨rfl, _⟩ | ⟨rfl, _⟩
      · cases hk
      · cases hk
      · rfl
    exact RunnerStage.notMem_queue_of_move he hb
  · exact hbefore.2 k (hpc.symm.trans hk)

theorem taken_step (hlone : ∀ k, s.proc.watcher k ≠ .off → k = 0) (hcached : Cached s) {k : ℕ}
    (hk : (next env s e).proc.watcher k = .starting id.toDecimal ∨
      (next env s e).proc.watcher k = .moving id.toDecimal) :
    id.toDecimal ∈ (next env s e).db.branches (.queue gitHubHandle) := by
  have hnames : RunnerStage.Names ((next env s e).proc.watcher k) id.toDecimal :=
    hk.imp_right Or.inl
  have hbefore : id.toDecimal ∈ s.db.branches (.queue gitHubHandle) ∧
      (s.proc.watcher k ≠ .off ∧ e ≠ .watcher k (.move id.toDecimal)) := by
    rcases RunnerStage.watcher_next he hnames with ⟨we, rfl, hen, hpc⟩ | ⟨hne, hpc⟩
    · rw [hpc] at hnames hk
      refine ⟨?_, (Startup.watcher_ne_off hen).1, ?_⟩
      · rcases RunnerStage.hand_cases hen hnames with ⟨rfl, _⟩ | ⟨_, hpc⟩ | ⟨_, hpc⟩
        · exact hcached.queued hlone he
        · exact h.taken k (Or.inl hpc)
        · exact h.taken k (Or.inr hpc)
      · rintro hx
        cases hx
        rcases hk with hk | hk <;> cases hk
    · rw [hpc] at hk
      refine ⟨h.taken k hk, ?_, hne _⟩
      rcases hk with hk | hk <;> simp [hk]
  rcases RunnerStage.mem_branches_kept he hbefore.1 with hb | ⟨j, rfl, _⟩ | ⟨_, _, _, ht⟩
  · exact hb
  · have hmove : Watcher.Enabled gitHubHandle
      ⟨s.db, s.proc.watcher j, s.proc.watcherLeaf j⟩ (.move id.toDecimal) := he
    have hj : s.proc.watcher j ≠ .off := (Startup.watcher_ne_off hmove).1
    rw [hlone k hbefore.2.1, hlone j hj] at hbefore
    exact absurd rfl hbefore.2.2
  · cases ht

theorem spawning_step (hlone : ∀ k, s.proc.watcher k ≠ .off → k = 0) {k : ℕ}
    (hk : (next env s e).proc.watcher k = .spawning id.toDecimal) :
    tasksSpawned (tr ++ [e]) id = 0 := by
  rcases RunnerStage.watcher_next he (Or.inr (Or.inr hk)) with ⟨we, rfl, hen, hpc⟩ | ⟨hne, hpc⟩
  · rw [hpc] at hk
    rcases RunnerStage.hand_cases hen (Or.inr (Or.inr hk)) with ⟨rfl, _⟩ | ⟨rfl, _⟩ | ⟨rfl, hm⟩
    · cases hk
    · cases hk
    · rw [tasksSpawned_append_of_ne (by simp)]
      exact (h.queue (h.taken k (Or.inr hm))).1
  · have hold : s.proc.watcher k = .spawning id.toDecimal := hpc.symm.trans hk
    rw [tasksSpawned_append_of_ne fun hx => ?_]
    · exact h.spawning k hold
    · rw [hlone k (by simp [hold])] at hne
      exact hne _ hx

theorem started_step (hlone : ∀ k, s.proc.watcher k ≠ .off → k = 0) {k : ℕ}
    (hk : (next env s e).proc.watcher k = .moving id.toDecimal ∨
      (next env s e).proc.watcher k = .spawning id.toDecimal) :
    Event.watcher 0 (.startWork id.toDecimal) ∈ tr ++ [e] := by
  rcases RunnerStage.watcher_next he (Or.inr hk) with ⟨we, rfl, hen, hpc⟩ | ⟨hne, hpc⟩
  · obtain rfl := hlone k (Startup.watcher_ne_off hen).1
    rw [hpc] at hk
    rcases RunnerStage.hand_cases hen (Or.inr hk) with ⟨rfl, _⟩ | ⟨rfl, _⟩ | ⟨rfl, hm⟩
    · rcases hk with hk | hk <;> cases hk
    · exact List.mem_append_right _ List.mem_cons_self
    · exact List.mem_append_left _ (h.started 0 (Or.inl hm))
  · rw [hpc] at hk
    exact List.mem_append_left _ (h.started k hk)

theorem tasks_step (hlone : ∀ k, s.proc.watcher k ≠ .off → k = 0) {t : Completion.Task}
    (ht : t ∈ (next env s e).proc.waits) (hb : t.branch = id.toDecimal) :
    tasksSpawned (tr ++ [e]) id = 1 := by
  have hkept : tasksSpawned tr id = 1 → tasksSpawned (tr ++ [e]) id = 1 := fun hc =>
    (tasksSpawned_append_of_ne (h.ne_spawn_of_spawned he hc)).trans hc
  rcases RunnerStage.mem_waits_next ht with ht | ⟨k, branch, rfl, rfl⟩ | ⟨u, we, rfl, hn⟩
  · exact hkept (h.tasks t ht hb)
  · obtain rfl : branch = id.toDecimal := hb
    have hspawn : Watcher.Enabled gitHubHandle
      ⟨s.db, s.proc.watcher k, s.proc.watcherLeaf k⟩ (.spawn id.toDecimal) := he
    obtain rfl := hlone k (Startup.watcher_ne_off hspawn).1
    rw [tasksSpawned_append_spawn, h.spawning 0 he]
  · exact hkept (h.tasks u he.1 ((Completion.next_same hn).2.symm.trans hb))

theorem counted_step (hc : tasksSpawned (tr ++ [e]) id = 1) :
    Event.watcher 0 (.startWork id.toDecimal) ∈ tr ++ [e] := by
  refine List.mem_append_left _ ?_
  by_cases hs : e = .watcher 0 (.spawn id.toDecimal)
  · subst hs
    exact h.started 0 (Or.inr he)
  · exact h.counted ((tasksSpawned_append_of_ne hs).symm.trans hc)

theorem whereabouts_step (hhandles : Startup.Handles s) (hq : Queued (tr ++ [e]) id) :
    id.toDecimal ∈ (next env s e).db.branches (.queue gitHubHandle) ∨
      id.toDecimal ∈ (next env s e).db.branches (.working gitHubHandle) ∨
      tasksSpawned (tr ++ [e]) id = 1 := by
  have hkept : tasksSpawned tr id = 1 → tasksSpawned (tr ++ [e]) id = 1 := fun hc =>
    (tasksSpawned_append_of_ne (h.ne_spawn_of_spawned he hc)).trans hc
  rcases queued_append.mp hq with hq | ⟨r, n, i, rfl⟩
  · rcases h.whereabouts hq with hb | hb | hc
    · rcases RunnerStage.mem_branches_kept he hb with hb | ⟨_, _, _, hb⟩ | ⟨_, _, _, ht⟩
      · exact Or.inl hb
      · exact Or.inr (Or.inl hb)
      · cases ht
    · rcases RunnerStage.mem_branches_kept he hb with hb | ⟨_, _, ht, _⟩ | ⟨u, rfl, hu, _⟩
      · exact Or.inr (Or.inl hb)
      · cases ht
      · exact Or.inr (Or.inr (hkept (h.tasks u he.1 hu)))
    · exact Or.inr (Or.inr (hkept hc))
  · obtain rfl := hhandles.queued_for he
    obtain ⟨w, hw, _⟩ := RunnerStage.view_queue he
    have htrees : (next env s (.worker i id (.work (.queue r gitHubHandle)))).db.branches = _ :=
      congrArg (·.branches) hw
    rw [htrees]
    exact Or.inl (Db.mem_insertBranch.mpr (Or.inl ⟨rfl, rfl⟩))

end Watched

theorem watched_step (hlone : ∀ k, s.proc.watcher k ≠ .off → k = 0)
    (hcached : Cached s) (hhandles : Startup.Handles s)
    (honce : ∀ i r n, e = .worker i id (.work (.queue r n)) → ¬ Queued tr id)
    (h : Watched tr s id) (he : Enabled env s e) : Watched (tr ++ [e]) (next env s e) id where
  unqueued := h.unqueued_step he hlone hcached
  queue := h.queue_step he honce
  taken := fun _ => h.taken_step he hlone hcached
  spawning := fun _ => h.spawning_step he hlone
  started := fun _ => h.started_step he hlone
  tasks := fun _ => h.tasks_step he hlone
  counted := h.counted_step he
  whereabouts := h.whereabouts_step he hhandles

theorem watched_initial (h₀ : Initial s) : Watched [] s id := by
  constructor <;> simp [tasksSpawned, Queued, QueuedFor, RunnerStage.Names, h₀.db_empty,
    h₀.not_running, Process.stopped, Db.empty, Finmap.notMem_empty]

end Watched

section Results

variable {env : Env} {runners : List RunnerConfig} {s₀ s : State} {tr : List Event}

theorem execution_lone (hone : runners.length ≤ 1)
    (hx : ((machine env).restrict (Configured runners)).Execution s₀ tr s) (h₀ : Initial s₀) :
    ∀ k, s.proc.watcher k ≠ .off → k = 0 := fun _ hk =>
  watcher_eq_zero hone (Startup.execution_booted hx.of_restrict h₀) (execution_settled hx h₀) hk

theorem execution_cached (hone : runners.length ≤ 1)
    (hx : ((machine env).restrict (Configured runners)).Execution s₀ tr s) (h₀ : Initial s₀) :
    Cached s := by
  refine hx.history (I := fun _ s => Cached s) ?_ fun tr s e hx h he =>
    cached_step (execution_lone hone hx h₀) h he.1
  intro b hb
  rw [h₀.not_running] at hb
  exact absurd hb Finmap.notMem_empty

theorem execution_watched (hone : runners.length ≤ 1)
    (hx : ((machine env).restrict (Configured runners)).Execution s₀ tr s) (h₀ : Initial s₀)
    (id : SeriesId) : Watched tr s id := by
  refine hx.history (I := fun tr s => Watched tr s id) (watched_initial h₀)
    fun tr s e hx h he => ?_
  refine watched_step (execution_lone hone hx h₀) (execution_cached hone hx h₀)
    (Startup.execution_handles hx.of_restrict h₀) ?_ h he.1
  rintro i r n rfl
  exact not_queued_of_queue hone hx h₀ he.1

theorem watchers_take_once (hone : runners.length ≤ 1)
    (hx : ((machine env).restrict (Configured runners)).Execution s₀ tr s) (h₀ : Initial s₀)
    {k : ℕ} {branch : String} (ht : Event.watcher k (.take branch) ∈ tr) : k = 0 := by
  obtain ⟨pre, post, u, rfl, hpre, he, _⟩ := hx.occurrence ht
  have hen : Watcher.Enabled gitHubHandle
    ⟨u.db, u.proc.watcher k, u.proc.watcherLeaf k⟩ (.take branch) := he.1
  exact execution_lone hone hpre h₀ k (Startup.watcher_ne_off hen).1

theorem runner_watches_own_pushes (hone : runners.length ≤ 1)
    (hx : ((machine env).restrict (Configured runners)).Execution s₀ tr s) (h₀ : Initial s₀) :
    (∀ id, Completed tr id → id.toDecimal ∉ s.db.branches (.queue gitHubHandle) →
      id.toDecimal ∉ s.db.branches (.working gitHubHandle) →
      ∀ k r remote, runners[k]? = some r → r.remote? = some remote →
        PushedTo tr id remote → Event.watcher k (.startWork id.toDecimal) ∈ tr ∧
          tr.countP (spawns k id.toDecimal) = 1) ∧
    ∀ k k' branch, Event.watcher k (.take branch) ∈ tr →
      Event.watcher k' (.take branch) ∈ tr → k = k' := by
  constructor
  · intro id hc hqueue hworking k r remote hk _ hp
    have hw := execution_watched hone hx h₀ id
    have hqueued := queued_of_completed hone hx h₀ hc ⟨remote, hp⟩
    have hspawned : tasksSpawned tr id = 1 :=
      ((hw.whereabouts hqueued).resolve_left hqueue).resolve_left hworking
    obtain ⟨hlt, _⟩ := List.getElem?_eq_some_iff.mp hk
    obtain rfl : k = 0 := by omega
    exact ⟨hw.counted hspawned, hspawned⟩
  · intro k k' branch ht ht'
    rw [watchers_take_once hone hx h₀ ht, watchers_take_once hone hx h₀ ht']

theorem runner_watches_own_pushes_sample :
    Event.watcher 0 (.startWork Sample.id.toDecimal) ∈ Sample.trace ∧
      Sample.trace.countP (spawns 0 Sample.id.toDecimal) = 1 := by
  have hruns : ((machine Sample.env).restrict (Configured Sample.config.runners)).Runs
      Sample.state Sample.trace :=
    Sample.runs.restrict (by simp [Sample.trace, Sample.boot, Sample.discover, Sample.ingest,
      Sample.gitWork, Sample.testing, Configured])
  refine (runner_watches_own_pushes (by decide) hruns.execution Sample.state_initial).1 Sample.id
    ⟨0, ?_⟩ (KvTree.isEmpty_iff.mp (by decide) _) (KvTree.isEmpty_iff.mp (by decide) _) 0 _
    "origin" rfl rfl ⟨.worker 0 Sample.id (.work (.push "origin")), ?_, 0, Or.inl rfl⟩
  · simp [Sample.trace, Sample.gitWork]
  · simp [Sample.trace, Sample.gitWork]

end Results

/-! Two runners: their remotes take the branch, and one entry in the shared queue is left. -/
section Pair

def pair : Config :=
  { Sample.config with
    runners := [⟨.onPush "origin", ⟨"https://github.com/ci/linux"⟩, none⟩,
      ⟨.onPush "backup", ⟨"https://github.com/backup/linux"⟩, none⟩] }

def pairBoot : List Event :=
  [.start pair 1, .main (.insertRemote "origin"), .main .smokeTest,
    .main (.insertRemote "backup"), .main .smokeTest, .main .initDone,
    .main (.spawnWatcher 0), .main (.spawnWatcher 1), .main .connect]

def pairRemotes : KvTree String String :=
  ((∅ : KvTree String String).insert "origin" gitHubHandle).insert "backup" gitHubHandle

def pairTrace : List Event :=
  pairBoot ++ Sample.discover ++ Sample.ingest ++ Sample.gitWork.take 10 ++
    [.worker 0 Sample.id (.work (.readRemotes (.whole pairRemotes) true)),
      .worker 0 Sample.id (.work (.nextRunner "backup" "github")),
      .worker 0 Sample.id (.work (.nextRunner "origin" "github")),
      .worker 0 Sample.id (.work .listed), .worker 0 Sample.id (.work (.push "backup")),
      .worker 0 Sample.id (.work (.queue "backup" "github")),
      .worker 0 Sample.id (.work (.push "origin")),
      .worker 0 Sample.id (.work (.queue "origin" "github")),
      .worker 0 Sample.id (.work .finish), .worker 0 Sample.id .remove] ++ Sample.testing

theorem pairBoot_runs : (machine Sample.env).Runs Sample.state pairBoot := by
  refine ⟨⟨rfl, ?_, ?_⟩, ⟨0, _, rfl, rfl, rfl⟩, ⟨0, rfl⟩, ⟨1, _, rfl, rfl, rfl⟩, ⟨1, rfl⟩, rfl,
    ⟨rfl, ?_⟩, ⟨rfl, ?_⟩, rfl, trivial⟩
  all_goals decide

theorem pairTrace_runs : (machine Sample.env).Runs Sample.state pairTrace := by
  have h : (machine Sample.env).Runs Sample.state
      (pairBoot ++ (Sample.committing ++ pairTrace.drop 28)) := by
    refine Machine.runs_append.mpr ⟨pairBoot_runs, Machine.runs_append.mpr
      ⟨Sample.committing_runs pair _ _ _,
        ⟨_, rfl, _, rfl, _, _, _, rfl, KvTree.Leaf.reads_whole ?_⟩,
        ⟨_, rfl, _, rfl, _, _, _, rfl, ?_, ?_⟩,
        ⟨_, rfl, _, rfl, _, _, _, rfl, ?_, ?_⟩, ⟨_, rfl, _, rfl, _, _, _, rfl, ?_⟩,
        ⟨_, rfl, _, rfl, _, _, rfl, rfl, rfl⟩, ⟨_, rfl, _, rfl, _, rfl⟩,
        ⟨_, rfl, _, rfl, _, _, rfl, rfl, rfl⟩, ⟨_, rfl, _, rfl, _, rfl⟩,
        ⟨_, rfl, _, rfl, rfl⟩, ⟨_, rfl, rfl⟩, ⟨_, rfl, KvTree.Leaf.reads_whole ?_⟩,
        ⟨_, rfl, ?_⟩, rfl, ⟨rfl, ?_⟩, rfl,
        ⟨List.mem_cons_self, rfl⟩, ⟨List.mem_cons_self, _, _, rfl⟩,
        ⟨List.mem_cons_self, _, rfl, rfl⟩, ⟨List.mem_cons_self, rfl⟩, trivial⟩⟩
    all_goals decide
  exact h

theorem runner_misses_own_push : ∃ tr s, (machine Sample.env).Execution Sample.state tr s ∧
    Completed tr Sample.id ∧ Sample.id.toDecimal ∉ s.db.branches (.queue gitHubHandle) ∧
    Sample.id.toDecimal ∉ s.db.branches (.working gitHubHandle) ∧
    ∃ k r remote, s.proc.config.runners[k]? = some r ∧ r.remote? = some remote ∧
      PushedTo tr Sample.id remote ∧ Event.watcher k (.startWork Sample.id.toDecimal) ∉ tr := by
  refine ⟨pairTrace, _, pairTrace_runs.execution, ⟨0, ?_⟩, KvTree.isEmpty_iff.mp (by decide) _,
    KvTree.isEmpty_iff.mp (by decide) _, 1, _, "backup", rfl, rfl,
    ⟨.worker 0 Sample.id (.work (.push "backup")), ?_, 0, Or.inl rfl⟩, ?_⟩
  · simp [pairTrace]
  · simp [pairTrace]
  · simp [pairTrace, pairBoot, Sample.discover, Sample.ingest, Sample.gitWork, Sample.testing]

end Pair

end Snowpatch.Watchers
