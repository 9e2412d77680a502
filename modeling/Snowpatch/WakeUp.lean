import Snowpatch.GitStage
import Snowpatch.RunnerStage

/-! No lost wake-up at any of the three trees that a loop consumes. On top of every step of
the program any number of other producers may insert at any key at any moment, and the
database may hold anything at the start. -/
namespace Snowpatch.WakeUp

open Pipeline

/-- A step of the program, or an insert by somebody else into a consumed tree. -/
inductive Event where
  | step (e : Snowpatch.Event)
  | insertSeries (id : SeriesId) (mbox : Url)
  | insertBranch (handle branch value : String)
  | insertEntry (key : String) (job : RunnerResult)

variable (env : Env)

def Enabled (s : State) : Event → Prop
  | .step e => Pipeline.Enabled env s e
  | .insertSeries _ _ | .insertBranch _ _ _ | .insertEntry _ _ => True

def next (s : State) : Event → State
  | .step e => Pipeline.next env s e
  | .insertSeries id mbox =>
    { s with
      db := s.db.insertSeries .needsTesting id mbox
      proc := { s.proc with ingest := s.proc.ingest.notify } }
  | .insertBranch handle branch value =>
    { s with
      db := s.db.insertBranch (.queue handle) branch value
      proc := s.proc.notifyWatchers handle }
  | .insertEntry key job =>
    { s with
      db := { s.db with needsDispatch := Finmap.insert key job s.db.needsDispatch }
      proc := { s.proc with dispatch := s.proc.dispatch.notify } }

def machine : Machine State Event := ⟨Enabled env, next env⟩

variable {env}

section Consumers

def IngestSound (trees : SeriesTree → KvTree SeriesId Url) (pc : Ingest.Pc) : Prop :=
  ∀ w, pc = .waiting w → w.Sound (KvTree.IsEmpty (trees .needsTesting))

def WatcherSound (trees : BranchTree → KvTree String String) (pc : Watcher.Pc) : Prop :=
  ∀ w, pc = .waiting w → w.Sound (KvTree.IsEmpty (trees (.queue gitHubHandle)))

def DispatchSound (entries : KvTree String RunnerResult) (pc : Dispatch.Pc) : Prop :=
  ∀ w, pc = .waiting w → w.Sound (KvTree.IsEmpty entries)

theorem IngestSound.notify (trees : SeriesTree → KvTree SeriesId Url) (pc : Ingest.Pc) :
    IngestSound trees pc.notify := by
  intro w hw
  cases pc with
  | waiting v =>
    obtain rfl := Ingest.Pc.waiting.inj hw
    exact Waiting.sound_notify _ v
  | _ => cases hw

theorem WatcherSound.notify (trees : BranchTree → KvTree String String) (pc : Watcher.Pc) :
    WatcherSound trees pc.notify := by
  intro w hw
  cases pc with
  | waiting v =>
    obtain rfl := Watcher.Pc.waiting.inj hw
    exact Waiting.sound_notify _ v
  | _ => cases hw

theorem DispatchSound.notify (entries : KvTree String RunnerResult) (pc : Dispatch.Pc) :
    DispatchSound entries pc.notify := by
  intro w hw
  cases pc with
  | waiting v =>
    obtain rfl := Dispatch.Pc.waiting.inj hw
    exact Waiting.sound_notify _ v
  | _ => cases hw

/-- The loop's own steps: it blocks only after its emptiness test, which runs after the
registration of the subscriber. -/
theorem ingestSound_nextPc {s : Ingest.State} {e : Ingest.Event} (he : Ingest.Enabled s e) :
    IngestSound s.db.series (Ingest.nextPc s.pc e) := by
  intro w hw
  cases e with
  | ready | take | move | spawn => cases hw
  | read =>
    obtain ⟨cursor, hpc, _⟩ := he
    cases hpc.symm.trans hw
  | ends =>
    obtain rfl := Ingest.Pc.waiting.inj hw
    exact fun n hn => by cases hn
  | wait e =>
    obtain ⟨v, hv, hen⟩ := he
    cases hn : v.next e with
    | none => simp [Ingest.nextPc, hv, hn] at hw
    | some v' =>
      obtain rfl : v' = w := by simpa [Ingest.nextPc, hv, hn] using hw
      exact Waiting.sound_next hen hn

theorem watcherSound_nextPc {s : Watcher.State} {e : Watcher.Event}
    (he : Watcher.Enabled gitHubHandle s e) :
    WatcherSound s.db.branches (Watcher.nextPc s.pc e) := by
  intro w hw
  cases e with
  | take | startWork | move | spawn => cases hw
  | read =>
    obtain ⟨cursor, hpc, _⟩ := he
    cases hpc.symm.trans hw
  | ends =>
    obtain rfl := Watcher.Pc.waiting.inj hw
    exact fun n hn => by cases hn
  | wait e =>
    obtain ⟨v, hv, hen⟩ := he
    cases hn : v.next e with
    | none => simp [Watcher.nextPc, hv, hn] at hw
    | some v' =>
      obtain rfl : v' = w := by simpa [Watcher.nextPc, hv, hn] using hw
      exact Waiting.sound_next hen hn

theorem dispatchSound_nextPc {token : Option String} {lastPatch : SeriesId → Option PatchId}
    {s : Dispatch.State} {e : Dispatch.Event} (he : Dispatch.Enabled token lastPatch s e) :
    DispatchSound s.db.needsDispatch (Dispatch.nextPc s e) := by
  intro w hw
  cases e with
  | dropped =>
    obtain rfl := Dispatch.Pc.waiting.inj hw
    exact fun n hn => by cases hn
  | wait e =>
    obtain ⟨v, hv, hen⟩ := he
    cases hn : v.next e with
    | none => simp [Dispatch.nextPc, hv, hn] at hw
    | some v' =>
      obtain rfl : v' = w := by simpa [Dispatch.nextPc, hv, hn] using hw
      exact Waiting.sound_next hen hn
  | read =>
    obtain ⟨cursor, drop, hpc, _⟩ := he
    cases hpc.symm.trans hw
  | take key =>
    obtain ⟨cursor, drop, hpc, hnext⟩ := he
    obtain ⟨value, hv⟩ := Finmap.mem_iff.mp (KvTree.mem_of_first hnext)
    simp [Dispatch.nextPc, hpc, hv] at hw
  | noToken =>
    obtain ⟨_, key, value, drop, hpc, _⟩ := he
    simp [Dispatch.nextPc, hpc] at hw
  | getSeries patch =>
    obtain ⟨_, key, value, drop, handle, id, name, hpc, hparse, _⟩ := he
    simp [Dispatch.nextPc, hpc, hparse] at hw
  | duplicate | unique =>
    obtain ⟨key, id, patch, result, drop, hpc, _⟩ := he
    simp [Dispatch.nextPc, hpc] at hw
  | post =>
    obtain ⟨key, result, drop, hpc, _⟩ := he
    simp [Dispatch.nextPc, hpc] at hw
  | postBreaks => cases hw
  | ends =>
    obtain ⟨cursor, drop, hpc, _⟩ := he
    simp [Dispatch.nextPc, hpc] at hw
  | drop key =>
    obtain ⟨rest, hpc⟩ := he
    simp [Dispatch.nextPc, hpc] at hw

end Consumers

theorem isEmpty_of_subset {κ ν : Type*} {t t' : KvTree κ ν} (h : ∀ k, k ∈ t' → k ∈ t)
    (ht : KvTree.IsEmpty t) : KvTree.IsEmpty t' :=
  KvTree.isEmpty_iff.mpr fun k hk => KvTree.isEmpty_iff.mp ht k (h k hk)

theorem IngestSound.of_subset {trees trees' : SeriesTree → KvTree SeriesId Url}
    {pc : Ingest.Pc} (hs : IngestSound trees pc)
    (h : ∀ id, id ∈ trees' .needsTesting → id ∈ trees .needsTesting) : IngestSound trees' pc :=
  fun w hw => (hs w hw).mono (isEmpty_of_subset h)

theorem WatcherSound.of_subset {trees trees' : BranchTree → KvTree String String}
    {pc : Watcher.Pc} (hs : WatcherSound trees pc)
    (h : ∀ b, b ∈ trees' (.queue gitHubHandle) → b ∈ trees (.queue gitHubHandle)) :
    WatcherSound trees' pc :=
  fun w hw => (hs w hw).mono (isEmpty_of_subset h)

theorem DispatchSound.of_subset {entries entries' : KvTree String RunnerResult}
    {pc : Dispatch.Pc} (hs : DispatchSound entries pc)
    (h : ∀ key, key ∈ entries' → key ∈ entries) : DispatchSound entries' pc :=
  fun w hw => (hs w hw).mono (isEmpty_of_subset h)

theorem WatcherSound.insertBranch {db : Db} {p : Process} {k : ℕ}
    (h : WatcherSound db.branches (p.watcher k)) (handle branch value : String) :
    WatcherSound (db.insertBranch (.queue handle) branch value).branches
      ((p.notifyWatchers handle).watcher k) := by
  rw [Process.notifyWatchers_watcher]
  split
  · exact .notify _ _
  · next hne =>
    refine h.of_subset ?_
    intro b hb
    rcases Db.mem_insertBranch.mp hb with ⟨_, ht⟩ | hb
    · exact absurd (BranchTree.queue.inj ht).symm hne
    · exact hb

section Steps

variable {s : State}

theorem ingest_step {e : Snowpatch.Event} (h : IngestSound s.db.series s.proc.ingest)
    (he : Pipeline.Enabled env s e) :
    IngestSound (Pipeline.next env s e).db.series (Pipeline.next env s e).proc.ingest := by
  cases e using GitStage.event_cases with
  | elsewhere e ho =>
    have hv := GitStage.view_elsewhere env s ho
    have htrees : (Pipeline.next env s e).db.series = s.db.series := congrArg (·.trees) hv
    have hpc : (Pipeline.next env s e).proc.ingest = s.proc.ingest := congrArg (·.ingest) hv
    rw [htrees, hpc]
    exact h
  | start | stop => exact fun w hw => by cases hw
  | beginScan page => exact h
  | scan e => cases e with
    | queue l => exact .notify _ _
    | _ => exact h
  | ingest e =>
    refine (ingestSound_nextPc he).of_subset ?_
    intro id hid
    cases e with
    | move a =>
      have hne : SeriesTree.needsTesting ≠ .awaitingGitWorker := by simp
      rcases (GitStage.held_moveToNewQueue hne he.2 _ id).mp hid with ⟨_, ht⟩ | ⟨hid, _⟩
      · cases ht
      · exact hid
    | _ => exact hid
  | begin i id => exact h
  | worker i id e =>
    obtain ⟨pc, hi, hen⟩ := he
    have hv := GitStage.view_worker env (e := e) hi
    have htrees : (Pipeline.next env s (.worker i id e)).db.series =
      (Worker.nextDb i id ⟨s.db, s.git, pc⟩ e).series := congrArg (·.trees) hv
    have hpc : (Pipeline.next env s (.worker i id e)).proc.ingest = s.proc.ingest :=
      congrArg (·.ingest) hv
    rw [htrees, hpc]
    exact h.of_subset fun a ha => GitStage.held_of_worker hen (Or.inl rfl) ha

theorem watcher_step {e : Snowpatch.Event} {k : ℕ}
    (h : ∀ k, WatcherSound s.db.branches (s.proc.watcher k))
    (he : Pipeline.Enabled env s e) :
    WatcherSound (Pipeline.next env s e).db.branches
      ((Pipeline.next env s e).proc.watcher k) := by
  cases e using RunnerStage.event_cases with
  | elsewhere e ho =>
    have hv := RunnerStage.view_elsewhere env s ho
    have htrees : (Pipeline.next env s e).db.branches = s.db.branches :=
      congrArg (·.branches) hv
    have hpc : (Pipeline.next env s e).proc.watcher = s.proc.watcher := congrArg (·.watcher) hv
    rw [htrees, hpc]
    exact h k
  | start | stop => exact fun w hw => by cases hw
  | connect => exact h k
  | spawnWatcher j =>
    intro w hw
    by_cases hkj : k = j
    · simp [Pipeline.next, mainNext, hkj] at hw
    · exact h k w (by simpa [Pipeline.next, mainNext, hkj] using hw)
  | queue i id r n =>
    obtain ⟨pc, hi, _⟩ := he
    simp only [Pipeline.next, workerNext, hi]
    exact (h k).insertBranch n id.toDecimal "new"
  | watcher j e =>
    have hsub : ∀ b, b ∈ (Pipeline.next env s (.watcher j e)).db.branches
        (.queue gitHubHandle) → b ∈ s.db.branches (.queue gitHubHandle) := by
      intro b hb
      cases e with
      | move branch =>
        obtain ⟨value, hv⟩ := Finmap.mem_iff.mp he.2
        simp only [Pipeline.next, watcherNext, Watcher.nextDb, Db.moveBranch_of_lookup hv] at hb
        rcases (KvTree.mem_moved (by simp)).mp hb with ⟨_, ht⟩ | ⟨hb, _⟩
        · cases ht
        · exact hb
      | _ => exact hb
    by_cases hkj : k = j
    · subst hkj
      simp only [Pipeline.next, watcherNext, Function.update_self]
      exact (watcherSound_nextPc he).of_subset hsub
    · simp only [Pipeline.next, watcherNext, Function.update_of_ne hkj]
      cases e with
      | move branch =>
        rw [Process.notifyWatchers_watcher, if_pos rfl]
        exact .notify _ _
      | _ => exact h k
  | wait t e =>
    refine (h k).of_subset ?_
    intro b hb
    cases e with
    | remove => exact (Db.mem_removeBranch.mp hb).1
    | report job =>
      simp only [Pipeline.next, waitNext, Completion.nextDb] at hb
      split at hb <;> exact hb
    | _ => exact hb
  | dispatch e => cases e <;> exact h k
  | otherCheck => exact h k

theorem dispatch_step {e : Snowpatch.Event}
    (h : DispatchSound s.db.needsDispatch s.proc.dispatch) (he : Pipeline.Enabled env s e) :
    DispatchSound (Pipeline.next env s e).db.needsDispatch
      (Pipeline.next env s e).proc.dispatch := by
  by_cases hreport : ∃ t job, e = .wait t (.report job)
  · obtain ⟨t, job, rfl⟩ := hreport
    simp only [Pipeline.next, waitNext, Completion.nextDb]
    split
    · exact h
    · exact .notify _ _
  have hsub : ∀ key, key ∈ (Pipeline.next env s e).db.needsDispatch →
      key ∈ s.db.needsDispatch := by
    intro key hk
    obtain ⟨job, hj⟩ := Finmap.mem_iff.mp hk
    rcases RunnerStage.lookup_next hj with hj | ⟨t, ht, _⟩
    · exact Finmap.mem_of_lookup_eq_some hj
    · exact absurd ⟨t, job, ht⟩ hreport
  by_cases hd : ∃ d, e = .dispatch d
  · obtain ⟨d, rfl⟩ := hd
    exact (dispatchSound_nextPc he).of_subset hsub
  by_cases hc : ∃ patch check, e = .otherCheck patch check
  · obtain ⟨patch, check, rfl⟩ := hc
    exact h
  push Not at hd hc
  rcases (RunnerStage.dispatch_next env s hd hc).2 with hn | hn | hn | hn
  · rw [hn]
    exact h.of_subset hsub
  · rw [hn]
    exact .notify _ _
  · rw [hn]
    exact fun w hw => by cases hw
  · rw [hn]
    exact fun w hw => by cases hw

end Steps

/-- No loop is blocked over a tree with an entry and without an event to take. -/
structure Sound (s : State) : Prop where
  ingest : IngestSound s.db.series s.proc.ingest
  watchers : ∀ k, WatcherSound s.db.branches (s.proc.watcher k)
  dispatch : DispatchSound s.db.needsDispatch s.proc.dispatch

theorem sound_step {s : State} {e : Event} (h : Sound s) (he : Enabled env s e) :
    Sound (next env s e) := by
  cases e with
  | step e =>
    exact ⟨ingest_step h.ingest he, fun k => watcher_step h.watchers he,
      dispatch_step h.dispatch he⟩
  | insertSeries id mbox => exact ⟨.notify _ _, h.watchers, h.dispatch⟩
  | insertBranch handle branch value =>
    obtain ⟨w, hw, _⟩ := s.proc.notifyWatchers_eq handle
    refine ⟨?_, fun k => (h.watchers k).insertBranch handle branch value, ?_⟩
    · simpa [next, hw, Db.insertBranch] using h.ingest
    · simpa [next, hw, Db.insertBranch] using h.dispatch
  | insertEntry key job => exact ⟨h.ingest, h.watchers, .notify _ _⟩

theorem sound_stopped {s : State} (h : s.proc = Process.stopped) : Sound s := by
  refine ⟨?_, fun k => ?_, ?_⟩ <;> rw [h] <;> exact fun w hw => by cases hw

/-- In every reachable state a blocked consumer has an empty tree or a pending event. -/
theorem no_lost_wake_up {s₀ s : State} {tr : List Event}
    (hx : (machine env).Execution s₀ tr s) (h₀ : s₀.proc = Process.stopped) (n : ℕ) :
    (s.proc.ingest = .waiting (.blocked n) →
      KvTree.IsEmpty (s.db.series .needsTesting) ∨ 0 < n) ∧
    (∀ k, s.proc.watcher k = .waiting (.blocked n) →
      KvTree.IsEmpty (s.db.branches (.queue gitHubHandle)) ∨ 0 < n) ∧
    (s.proc.dispatch = .waiting (.blocked n) →
      KvTree.IsEmpty s.db.needsDispatch ∨ 0 < n) := by
  have h : Sound s := hx.invariant (sound_stopped h₀) fun _ _ hs he => sound_step hs he
  exact ⟨fun hw => h.ingest _ hw n rfl, fun k hw => h.watchers k _ hw n rfl,
    fun hw => h.dispatch _ hw n rfl⟩

/-- Ingest blocks on its empty tree, then somebody inserts a series. -/
theorem no_lost_wake_up_sample :
    (machine Sample.env).Runs Sample.state
      [.step (.start Sample.config 1), .step (.ingest .ready), .step (.ingest .ends),
        .step (.ingest (.wait .register)), .step (.ingest (.wait .sleep)),
        .insertSeries Sample.id ⟨"mbox"⟩] ∧
    (KvTree.IsEmpty (((Db.empty.populate Sample.config).insertSeries .needsTesting Sample.id
      ⟨"mbox"⟩).series .needsTesting) ∨ 0 < 1) := by
  have hruns : (machine Sample.env).Runs Sample.state
      [.step (.start Sample.config 1), .step (.ingest .ready), .step (.ingest .ends),
        .step (.ingest (.wait .register)), .step (.ingest (.wait .sleep)),
        .insertSeries Sample.id ⟨"mbox"⟩] :=
    ⟨⟨rfl, by decide, by decide⟩, rfl, ⟨_, rfl, by decide⟩, ⟨_, rfl, rfl⟩,
      ⟨_, rfl, by decide, _, rfl⟩, trivial, trivial⟩
  exact ⟨hruns, (no_lost_wake_up hruns.execution rfl 1).1 rfl⟩

end Snowpatch.WakeUp
