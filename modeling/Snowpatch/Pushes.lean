import Snowpatch.Startup

/-! Pushes against the current configuration. `do_work` reads "remotes to push to" while
`runner::init` may still be writing to it, and no start removes what an earlier one wrote.
A `do_work` pushes to the configured remotes when each part of the tree holds exactly them at
the moment it is read. -/
namespace Snowpatch.Pushes

open Pipeline

def remotes (config : Config) : Finset String :=
  (config.runners.filterMap RunnerConfig.remote?).toFinset

theorem mem_remotes {config : Config} {remote : String} :
    remote ∈ remotes config ↔ ∃ r ∈ config.runners, r.remote? = some remote := by
  simp [remotes]

/-- The push of a series to a remote; a rejected one has found the branch there. -/
def IsPush (id : SeriesId) (remote : String) (e : Event) : Prop :=
  ∃ i, e = .worker i id (.work (.push remote)) ∨
    e = .worker i id (.work (.notFastForward remote))

def IsQueue (id : SeriesId) (remote handle : String) (e : Event) : Prop :=
  ∃ i, e = .worker i id (.work (.queue remote handle))

def PushedTo (tr : List Event) (id : SeriesId) (remote : String) : Prop :=
  ∃ e ∈ tr, IsPush id remote e

def QueuedFor (tr : List Event) (id : SeriesId) (remote handle : String) : Prop :=
  ∃ e ∈ tr, IsQueue id remote handle e

/-- From one bound to another the tree holds exactly the configured remotes. -/
def Configured (s : State) (lo hi : KvTree.Bound String) : Prop :=
  ∀ remote, lo ≤ KvTree.Bound.key remote → KvTree.Bound.key remote < hi →
    (remote ∈ s.db.remotesToPushTo ↔ remote ∈ remotes s.proc.config)

/-- What is read of the remotes is what the configuration has there: no remote of an earlier
start, and none is missing that `runner::init` has not inserted yet. -/
def ReadsConfigured (s : State) : Event → Prop
  | .worker i id (.work (.readRemotes leaf' _)) => ∀ leaf cursor runners,
    s.proc.thread i = some (id, .working (.listing leaf cursor runners)) →
      Configured s leaf.hi leaf'.hi
  | .worker i id (.work .listed) => ∀ leaf cursor runners,
    s.proc.thread i = some (id, .working (.listing leaf cursor runners)) →
      Configured s leaf.hi ⊤
  | _ => True

theorem reads_of_keys {s : State} {e : Event}
    (h : s.db.remotesToPushTo.keys = remotes s.proc.config) : ReadsConfigured s e := by
  have hsame : ∀ lo hi, Configured s lo hi := fun _ _ remote _ _ => by
    rw [← Finmap.mem_keys, h]
  unfold ReadsConfigured
  split
  · exact fun leaf _ _ _ => hsame _ _
  · exact fun leaf _ _ _ => hsame _ _
  · trivial

structure Untouched (tr : List Event) (id : SeriesId) : Prop where
  pushed : ∀ remote, ¬ PushedTo tr id remote
  queued : ∀ remote handle, ¬ QueuedFor tr id remote handle

/-- The configured remotes, split into those done and those still to come. -/
structure Progress (tr : List Event) (config : Config) (id : SeriesId)
    (toPush toQueue : List (String × String)) : Prop where
  pushed : ∀ remote, PushedTo tr id remote ∨ remote ∈ toPush.map Prod.fst ↔
    remote ∈ remotes config
  queued : ∀ remote handle, QueuedFor tr id remote handle ∨ (remote, handle) ∈ toQueue ↔
    remote ∈ remotes config ∧ handle = gitHubHandle

/-- Where the pushes of a series stand at each position of its `do_work`. -/
def Follows (tr : List Event) (config : Config) (id : SeriesId) : DoWork.Pc → Prop
  | .listing leaf cursor runners => Untouched tr id ∧ leaf.Covers (remotes config) cursor ∧
      ∀ p, p ∈ runners ↔
        p.1 ∈ remotes config ∧ (p.1 : WithBot String) ≤ cursor ∧ p.2 = gitHubHandle
  | .pushing rest => Progress tr config id rest rest
  | .queueing remote handle rest => Progress tr config id rest ((remote, handle) :: rest)
  | .returned true => Progress tr config id [] []
  | .returned false => True
  | .opening | .resetting | .reading | .downloading _ | .applying _ | .fallback _
  | .reopening | .committing => Untouched tr id

section Append

variable {tr : List Event} {e : Event} {id : SeriesId} {remote handle : String}

theorem pushedTo_append : PushedTo (tr ++ [e]) id remote ↔
    PushedTo tr id remote ∨ IsPush id remote e := by
  simp [PushedTo, or_and_right, exists_or]

theorem queuedFor_append : QueuedFor (tr ++ [e]) id remote handle ↔
    QueuedFor tr id remote handle ∨ IsQueue id remote handle e := by
  simp [QueuedFor, or_and_right, exists_or]

def Idle (id : SeriesId) (e : Event) : Prop :=
  (∀ remote, ¬ IsPush id remote e) ∧ ∀ remote handle, ¬ IsQueue id remote handle e

theorem idle_of_silent {we : DoWork.Event} (h : we.Silent) (i : ℕ) (a : SeriesId) :
    Idle id (.worker i a (.work we)) := by
  constructor
  · rintro remote ⟨j, hj | hj⟩
    · cases hj
      exact h
    · cases hj
      exact h
  · rintro remote handle ⟨j, hj⟩
    cases hj
    exact h

theorem Untouched.append (h : Untouched tr id) (he : Idle id e) : Untouched (tr ++ [e]) id := by
  constructor
  · intro remote hp
    rcases pushedTo_append.mp hp with hp | hp
    · exact h.pushed remote hp
    · exact he.1 remote hp
  · intro remote handle hq
    rcases queuedFor_append.mp hq with hq | hq
    · exact h.queued remote handle hq
    · exact he.2 remote handle hq

theorem Progress.append {config : Config} {toPush toQueue : List (String × String)}
    (h : Progress tr config id toPush toQueue) (he : Idle id e) :
    Progress (tr ++ [e]) config id toPush toQueue where
  pushed := by
    intro remote
    rw [pushedTo_append, or_iff_left (he.1 remote)]
    exact h.pushed remote
  queued := by
    intro remote handle
    rw [queuedFor_append, or_iff_left (he.2 remote handle)]
    exact h.queued remote handle

theorem Follows.append {config : Config} {pc : DoWork.Pc} (h : Follows tr config id pc)
    (he : Idle id e) : Follows (tr ++ [e]) config id pc := by
  cases pc with
  | listing leaf cursor runners => exact ⟨h.1.append he, h.2⟩
  | pushing rest => exact Progress.append h he
  | queueing remote handle rest => exact Progress.append h he
  | returned ok =>
    cases ok with
    | true => exact Progress.append h he
    | false => trivial
  | opening | resetting | reading | downloading | applying | fallback | reopening
  | committing => exact Untouched.append h he

end Append

section Steps

variable {env : Env} {s : State} {tr : List Event} {i : ℕ} {id : SeriesId}

theorem listed_next {config : Config} {cursor : WithBot String}
    {runners : List (String × String)} {remote handle : String}
    (h : ∀ p, p ∈ runners ↔
      p.1 ∈ remotes config ∧ (p.1 : WithBot String) ≤ cursor ∧ p.2 = gitHubHandle)
    (hnext : KvTree.nextIn (remotes config) cursor = (remote : WithTop String))
    (hhandle : handle = gitHubHandle) (p : String × String) :
    p ∈ runners ++ [(remote, handle)] ↔
      p.1 ∈ remotes config ∧ (p.1 : WithBot String) ≤ (remote : WithBot String) ∧
        p.2 = gitHubHandle := by
  obtain ⟨hmem, hlt, hleast⟩ := KvTree.of_nextIn_eq hnext
  rw [List.mem_append, List.mem_singleton, h]
  constructor
  · rintro (⟨hp, hc, hg⟩ | rfl)
    · exact ⟨hp, (hc.trans_lt hlt).le, hg⟩
    · exact ⟨hmem, le_rfl, hhandle⟩
  · rintro ⟨hp, hc, hg⟩
    by_cases hpc : (p.1 : WithBot String) ≤ cursor
    · exact Or.inl ⟨hp, hpc, hg⟩
    · have hle := hleast p.1 hp (not_le.mp hpc)
      have heq : p.1 = remote := le_antisymm (WithBot.coe_le_coe.mp hc) hle
      exact Or.inr (Prod.ext heq (hg.trans hhandle.symm))

theorem Untouched.progress {config : Config} {cursor : WithBot String}
    {runners : List (String × String)} (hu : Untouched tr id)
    (h : ∀ p, p ∈ runners ↔
      p.1 ∈ remotes config ∧ (p.1 : WithBot String) ≤ cursor ∧ p.2 = gitHubHandle)
    (hend : KvTree.nextIn (remotes config) cursor = ⊤) :
    Progress tr config id runners runners := by
  have hall : ∀ remote ∈ remotes config, (remote : WithBot String) ≤ cursor :=
    fun remote hr => not_lt.mp (KvTree.nextIn_eq_top.mp hend remote hr)
  constructor
  · intro remote
    rw [or_iff_right (hu.pushed remote), List.mem_map]
    constructor
    · rintro ⟨p, hp, rfl⟩
      exact ((h p).mp hp).1
    · exact fun hr => ⟨(remote, gitHubHandle), (h _).mpr ⟨hr, hall remote hr, rfl⟩, rfl⟩
  · intro remote handle
    rw [or_iff_right (hu.queued remote handle), h]
    constructor
    · exact fun hp => ⟨hp.1, hp.2.2⟩
    · exact fun hp => ⟨hp.1, hall remote hp.1, hp.2⟩

theorem Progress.push {config : Config} {remote handle : String}
    {rest toQueue : List (String × String)}
    (h : Progress tr config id ((remote, handle) :: rest) toQueue) {e : Event}
    (he : ∀ r, IsPush id r e ↔ r = remote) (hq : ∀ r n, ¬ IsQueue id r n e) :
    Progress (tr ++ [e]) config id rest toQueue where
  pushed := by
    intro r
    rw [← h.pushed r, pushedTo_append, he, List.map_cons, List.mem_cons, or_assoc]
  queued := by
    intro r n
    rw [queuedFor_append, or_iff_left (hq r n)]
    exact h.queued r n

theorem Progress.queue {config : Config} {remote handle : String}
    {toPush rest : List (String × String)}
    (h : Progress tr config id toPush ((remote, handle) :: rest)) {e : Event}
    (he : ∀ r n, IsQueue id r n e ↔ r = remote ∧ n = handle) (hp : ∀ r, ¬ IsPush id r e) :
    Progress (tr ++ [e]) config id toPush rest where
  pushed := by
    intro r
    rw [pushedTo_append, or_iff_left (hp r)]
    exact h.pushed r
  queued := by
    intro r n
    rw [← h.queued r n, queuedFor_append, he, List.mem_cons, Prod.mk.injEq, or_assoc]

theorem follows_setUp {config : Config} {pc : DoWork.Pc} (h : pc.SetUp) :
    Follows tr config id pc ↔ Untouched tr id := by
  cases pc with
  | listing | pushing | queueing | returned => exact h.elim
  | _ => exact Iff.rfl

theorem follows_work {p : DoWork.Pc} {we : DoWork.Event} (hhandles : Startup.Handles s)
    (hi : s.proc.thread i = some (id, .working p))
    (he : DoWork.Enabled env.apply i id ⟨s.db, s.git, p⟩ we)
    (hr : ReadsConfigured s (.worker i id (.work we)))
    (h : Follows tr s.proc.config id p) :
    Follows (tr ++ [.worker i id (.work we)]) s.proc.config id (DoWork.nextPc p we) := by
  have hmoves := DoWork.moves he
  generalize DoWork.nextPc p we = p' at hmoves
  cases hmoves with
  | setUp hpc hsilent hpc' =>
    refine (follows_setUp hpc').mpr ?_
    exact ((follows_setUp hpc).mp h).append (idle_of_silent hsilent i id)
  | fail | breaks => trivial
  | commit =>
    refine ⟨Untouched.append h (by simp [Idle, IsPush, IsQueue]),
      KvTree.Leaf.covers_start _, ?_⟩
    intro p
    simp
  | readRemotes hreads =>
    obtain ⟨hu, hcovers, hrunners⟩ := h
    exact ⟨hu.append (by simp [Idle, IsPush, IsQueue]), hcovers.read hreads (hr _ _ _ hi),
      hrunners⟩
  | @nextRunner leaf cursor runners remote handle hnext hlookup =>
    obtain ⟨hu, hcovers, hrunners⟩ := h
    exact ⟨hu.append (by simp [Idle, IsPush, IsQueue]), hcovers.yield hnext,
      listed_next hrunners (hcovers.next_eq hnext)
        (hhandles.leaves i id leaf cursor runners hi remote handle hlookup)⟩
  | listed hends =>
    obtain ⟨hu, hcovers, hrunners⟩ := h
    have hend := hcovers.next_top hends fun remote hlo =>
      hr _ _ _ hi remote hlo (WithBot.coe_lt_coe.mpr (WithTop.coe_lt_top remote))
    exact (hu.progress hrunners hend).append (by simp [Idle, IsPush, IsQueue])
  | push hpush =>
    rcases hpush with rfl | rfl <;>
      exact Progress.push h (by simp [IsPush, eq_comm]) (by simp [IsQueue])
  | queue => exact Progress.queue h (by simp [IsQueue, eq_comm]) (by simp [IsPush])
  | finish => exact Progress.append h (by simp [Idle, IsPush, IsQueue])

end Steps

section Runs

variable {env : Env} {s₀ s : State} {tr : List Event}

theorem idle_of_no_work {id : SeriesId} {e : Event}
    (h : ∀ j we, e ≠ .worker j id (.work we)) : Idle id e := by
  constructor
  · intro remote hp
    obtain ⟨j, hj | hj⟩ := hp
    · exact h j _ hj
    · exact h j _ hj
  · intro remote handle hq
    obtain ⟨j, hj⟩ := hq
    exact h j _ hj

theorem untouched_of_moved (hx : (machine env).Execution s₀ tr s) (h₀ : Initial s₀) {i : ℕ}
    {id : SeriesId} (hi : s.proc.thread i = some (id, .moved)) : Untouched tr id := by
  have hno : ∀ j we, Event.worker j id (.work we) ∉ tr := fun j we hw =>
    (GitStage.begun_of_work hx h₀ hw).started i .moved hi
  constructor
  · intro remote hp
    obtain ⟨e, he, j, rfl | rfl⟩ := hp
    · exact hno j _ he
    · exact hno j _ he
  · intro remote handle hq
    obtain ⟨e, he, j, rfl⟩ := hq
    exact hno j _ he

theorem idle_elsewhere {e : Event} (hc : GitStage.GitCustody (GitStage.view s))
    (he : Enabled env s e) {i : ℕ} {id : SeriesId} {pc : Worker.Pc}
    (hi : s.proc.thread i = some (id, pc)) (hne : ∀ we, e ≠ .worker i id (.work we)) :
    Idle id e := by
  refine idle_of_no_work ?_
  intro j we hj
  subst hj
  obtain ⟨q, hq, _⟩ := he
  obtain rfl := hc.thread_once j i id q pc hq hi
  exact hne we rfl

/-- What holds of a `do_work` from its start, as long as each of its own steps keeps it. -/
theorem work_history {C : State → Event → Prop}
    (hx : ((machine env).restrict C).Execution s₀ tr s) (h₀ : Initial s₀)
    {I : List Event → Config → SeriesId → DoWork.Pc → Prop}
    (opening : ∀ tr config id, Untouched tr id → I tr config id .opening)
    (idle : ∀ tr config id pc e, I tr config id pc → Idle id e → I (tr ++ [e]) config id pc)
    (work : ∀ tr s i id p we, ((machine env).restrict C).Execution s₀ tr s →
      s.proc.thread i = some (id, .working p) →
      DoWork.Enabled env.apply i id ⟨s.db, s.git, p⟩ we → C s (.worker i id (.work we)) →
      I tr s.proc.config id p →
      I (tr ++ [.worker i id (.work we)]) s.proc.config id (DoWork.nextPc p we)) :
    ∀ i id pc, s.proc.thread i = some (id, .working pc) → I tr s.proc.config id pc := by
  refine hx.history (I := fun tr s => ∀ i id pc, s.proc.thread i = some (id, .working pc) →
    I tr s.proc.config id pc) ?_ fun tr s e hx ih he i id pc hi => ?_
  · intro i id pc hi
    rw [h₀.not_running] at hi
    cases hi
  obtain ⟨he, hc⟩ := he
  have hconfig : (((machine env).restrict C).next s e).proc.config = s.proc.config := by
    refine Startup.config_next ?_ ?_
    · rintro config threads rfl
      cases hi
    · rintro rfl
      cases hi
  rw [hconfig]
  rcases GitStage.working_cases he hi with ⟨hold, hne⟩ | ⟨rfl, rfl⟩ | ⟨p, we, rfl, hold, hen, rfl⟩
  · have hcustody := (GitStage.execution_git hx.of_restrict h₀).2
    exact idle _ _ _ _ _ (ih i id pc hold) (idle_elsewhere hcustody he hold hne)
  · obtain ⟨_, hmoved, rfl⟩ := he
    have hu := untouched_of_moved hx.of_restrict h₀ hmoved
    exact opening _ _ _ (hu.append (idle_of_no_work (by simp)))
  · exact work _ _ _ _ _ _ hx hold hen hc (ih i id p hold)

theorem execution_follows (hx : ((machine env).restrict ReadsConfigured).Execution s₀ tr s)
    (h₀ : Initial s₀) : ∀ i id pc, s.proc.thread i = some (id, .working pc) →
      Follows tr s.proc.config id pc :=
  work_history hx h₀ (fun _ _ _ hu => hu) (fun _ _ _ _ _ h he => h.append he)
    fun _ _ _ _ _ _ hx hi he hr h =>
      follows_work (Startup.execution_handles hx.of_restrict h₀) hi he hr h

/-- When `do_work` is about to return Ok, the pushes and the queued entries of the series are
those of the configuration. -/
theorem pushes_follow_configuration
    (hx : ((machine env).restrict ReadsConfigured).Execution s₀ tr s) (h₀ : Initial s₀)
    {i : ℕ} {id : SeriesId} (he : Enabled env s (.worker i id (.work .finish))) :
    (∀ remote, PushedTo tr id remote ↔
      ∃ r ∈ s.proc.config.runners, r.remote? = some remote) ∧
    ∀ remote handle, QueuedFor tr id remote handle ↔
      ∃ r ∈ s.proc.config.runners, r.remote? = some remote ∧ r.getHandle = handle := by
  obtain ⟨_, hi, p, rfl, rfl⟩ := he
  have h : Progress tr s.proc.config id [] [] := execution_follows hx h₀ i id _ hi
  constructor
  · intro remote
    rw [← mem_remotes, ← h.pushed remote]
    simp
  · intro remote handle
    have hq := h.queued remote handle
    rw [or_iff_left List.not_mem_nil, mem_remotes] at hq
    rw [hq]
    constructor
    · rintro ⟨⟨r, hr, hremote⟩, rfl⟩
      exact ⟨r, hr, hremote, getHandle_eq r⟩
    · rintro ⟨r, hr, hremote, hhandle⟩
      exact ⟨⟨r, hr, hremote⟩, hhandle.symm.trans (getHandle_eq r)⟩

/-! The sample run up to the listing of the remotes, the listing, and the pushes. -/

def beforeListing : List Event :=
  Sample.boot ++ Sample.discover ++ Sample.ingest ++ Sample.gitWork.take 10

def listing : List Event :=
  [.worker 0 Sample.id (.work (.readRemotes (.whole Sample.remotes) true)),
    .worker 0 Sample.id (.work (.nextRunner "origin" "github")),
    .worker 0 Sample.id (.work .listed)]

def pushing : List Event :=
  [.worker 0 Sample.id (.work (.push "origin")),
    .worker 0 Sample.id (.work (.queue "origin" "github"))]

theorem sample_runs : ((machine Sample.env).restrict ReadsConfigured).Runs Sample.state
    (beforeListing ++ (listing ++ pushing)) := by
  have hsample : (machine Sample.env).Runs Sample.state ((beforeListing ++ (listing ++ pushing)) ++
      (Sample.gitWork.drop 15 ++ Sample.testing)) := Sample.runs
  obtain ⟨hbefore, hrest⟩ := Machine.runs_append.mp (Machine.runs_append.mp hsample).1
  obtain ⟨⟨hread, hnext, hlisted, _⟩, hpush⟩ := Machine.runs_append.mp hrest
  refine Machine.runs_append.mpr ⟨hbefore.restrict ?_, Machine.runs_append.mpr
    ⟨⟨⟨hread, reads_of_keys ?_⟩, ⟨hnext, trivial⟩, ⟨hlisted, reads_of_keys ?_⟩, trivial⟩,
      hpush.restrict ?_⟩⟩
  · simp [beforeListing, Sample.boot, Sample.discover, Sample.ingest, Sample.gitWork,
      ReadsConfigured]
  · decide
  · decide
  · simp [pushing, ReadsConfigured]

theorem pushes_follow_configuration_sample :
    (∀ remote, PushedTo (beforeListing ++ (listing ++ pushing)) Sample.id remote ↔
      ∃ r ∈ Sample.config.runners, r.remote? = some remote) ∧
    ∀ remote handle,
      QueuedFor (beforeListing ++ (listing ++ pushing)) Sample.id remote handle ↔
        ∃ r ∈ Sample.config.runners, r.remote? = some remote ∧ r.getHandle = handle :=
  pushes_follow_configuration sample_runs.execution Sample.state_initial
    (i := 0) ⟨_, rfl, _, rfl, rfl⟩

end Runs

/-! A second start with another remote: the tree still has the first one. -/
section Stale

def newConfig : Config :=
  { Sample.config with
    runners := [⟨.onPush "backup", ⟨"https://github.com/ci/linux"⟩, none⟩] }

def reconfigured : List Event :=
  [.start Sample.config 1, .main (.insertRemote "origin"), .stop, .start newConfig 1,
    .main (.insertRemote "backup"), .main .smokeTest, .main .initDone,
    .main (.spawnWatcher 0), .main .connect]

def staleRemotes : KvTree String String :=
  Finmap.insert "backup" "github" (Finmap.insert "origin" "github" ∅)

def staleTrace : List Event :=
  reconfigured ++ Sample.discover ++ Sample.ingest ++
    Sample.gitWork.take 10 ++
    [.worker 0 Sample.id (.work (.readRemotes (.whole staleRemotes) true)),
      .worker 0 Sample.id (.work (.nextRunner "backup" "github")),
      .worker 0 Sample.id (.work (.nextRunner "origin" "github")),
      .worker 0 Sample.id (.work .listed), .worker 0 Sample.id (.work (.push "backup")),
      .worker 0 Sample.id (.work (.queue "backup" "github")),
      .worker 0 Sample.id (.work (.push "origin")),
      .worker 0 Sample.id (.work (.queue "origin" "github"))]

theorem reconfigured_runs : (machine Sample.env).Runs Sample.state reconfigured := by
  refine ⟨⟨rfl, ?_, ?_⟩, ⟨0, _, rfl, rfl, rfl⟩, MainPc.noConfusion, ⟨rfl, ?_, ?_⟩,
    ⟨0, _, rfl, rfl, rfl⟩, ⟨0, rfl⟩, rfl, ⟨rfl, ?_⟩, rfl, trivial⟩
  all_goals decide

/-- The listing finds a remote of either start. -/
theorem staleTrace_runs : (machine Sample.env).Runs Sample.state staleTrace := by
  have h : (machine Sample.env).Runs Sample.state
      (reconfigured ++ (Sample.committing ++ staleTrace.drop 28)) := by
    refine Machine.runs_append.mpr ⟨reconfigured_runs, Machine.runs_append.mpr
      ⟨Sample.committing_runs newConfig _ _ _,
        ⟨_, rfl, _, rfl, _, _, _, rfl, KvTree.Leaf.reads_whole ?_⟩,
        ⟨_, rfl, _, rfl, _, _, _, rfl, ?_, ?_⟩, ⟨_, rfl, _, rfl, _, _, _, rfl, ?_, ?_⟩,
        ⟨_, rfl, _, rfl, _, _, _, rfl, ?_⟩,
        ⟨_, rfl, _, rfl, _, _, rfl, rfl, rfl⟩, ⟨_, rfl, _, rfl, _, rfl⟩,
        ⟨_, rfl, _, rfl, _, _, rfl, rfl, rfl⟩, ⟨_, rfl, _, rfl, _, rfl⟩, trivial⟩⟩
    all_goals decide
  exact h

theorem stale_remote_pushed : ∃ tr s, (machine Sample.env).Execution Sample.state tr s ∧
    Enabled Sample.env s (.worker 0 Sample.id (.work .finish)) ∧
    PushedTo tr Sample.id "origin" ∧
    ¬ ∃ r ∈ s.proc.config.runners, r.remote? = some "origin" := by
  refine ⟨staleTrace, _, staleTrace_runs.execution, ⟨_, rfl, _, rfl, rfl⟩,
    ⟨.worker 0 Sample.id (.work (.push "origin")), ?_, 0, Or.inl rfl⟩, ?_⟩
  · simp [staleTrace]
  · exact of_decide_eq_false rfl

end Stale

end Snowpatch.Pushes
