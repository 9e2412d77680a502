import Snowpatch.Pipeline

/-! The runner stage and the dispatcher: what the steps of the program do to the branch trees,
the watchers, the tasks and the entries for the dispatcher. Every key of these trees is the
decimal form of a series id. -/
namespace Snowpatch.RunnerStage

open Pipeline

def Names (pc : Watcher.Pc) (branch : String) : Prop :=
  pc = .starting branch ∨ pc = .moving branch ∨ pc = .spawning branch

structure View where
  branches : BranchTree → KvTree String String
  needsDispatch : KvTree String RunnerResult
  checks : PatchId → List Check
  watcher : ℕ → Watcher.Pc
  waits : List Completion.Task
  dispatch : Dispatch.Pc
  watcherLeaf : ℕ → KvTree.Leaf String String
  dispatchLeaf : KvTree.Leaf String RunnerResult

def view (s : State) : View :=
  ⟨s.db.branches, s.db.needsDispatch, s.checks, s.proc.watcher, s.proc.waits, s.proc.dispatch,
    s.proc.watcherLeaf, s.proc.dispatchLeaf⟩

/-- Every key of the runner stage is the decimal form of a series id. -/
structure BranchesAreIds (v : View) : Prop where
  trees : ∀ t b, b ∈ v.branches t → ∃ id : SeriesId, b = id.toDecimal
  watchers : ∀ k b, Names (v.watcher k) b → ∃ id : SeriesId, b = id.toDecimal
  leaves : ∀ k, ∀ b ∈ (v.watcherLeaf k).entries, ∃ id : SeriesId, b = id.toDecimal
  waits : ∀ t ∈ v.waits, ∃ id : SeriesId, t.branch = id.toDecimal

/-- The watchcat, the git stage up to the queueing of a branch, and the rest of `main`. -/
def Elsewhere : Event → Prop
  | .main (.spawnWatcher _) | .main .connect | .worker _ _ (.work (.queue _ _)) => False
  | .main _ | .scan _ | .ingest _ | .begin _ _ | .worker _ _ _ | .moveMaster _ => True
  | .start _ _ | .stop | .watcher _ _ | .wait _ _ | .dispatch _ | .otherCheck _ _ => False

/-- A case split on the events that the runner stage and the dispatcher take part in. -/
@[elab_as_elim]
theorem event_cases {motive : Event → Prop} (elsewhere : ∀ e, Elsewhere e → motive e)
    (start : ∀ config threads, motive (.start config threads)) (stop : motive .stop)
    (spawnWatcher : ∀ k, motive (.main (.spawnWatcher k))) (connect : motive (.main .connect))
    (queue : ∀ i id r n, motive (.worker i id (.work (.queue r n))))
    (watcher : ∀ k e, motive (.watcher k e)) (wait : ∀ t e, motive (.wait t e))
    (dispatch : ∀ e, motive (.dispatch e))
    (otherCheck : ∀ patch check, motive (.otherCheck patch check)) (e : Event) : motive e := by
  cases e with
  | start config threads => exact start config threads
  | stop => exact stop
  | main e => cases e with
    | spawnWatcher k => exact spawnWatcher k
    | connect => exact connect
    | insertRemote | smokeTest | initDone | beginScan | endScan => exact elsewhere _ trivial
  | worker i id e => cases e with
    | work e => cases e with
      | queue r n => exact queue i id r n
      | _ => exact elsewhere _ trivial
    | _ => exact elsewhere _ trivial
  | watcher k e => exact watcher k e
  | wait t e => exact wait t e
  | dispatch e => exact dispatch e
  | otherCheck patch check => exact otherCheck patch check
  | scan | ingest | begin | moveMaster => exact elsewhere _ trivial

variable {env : Env} {s : State}

theorem view_worker {i : ℕ} {id : SeriesId} {e : Worker.Event}
    (h : ∀ r n, e ≠ .work (.queue r n)) : view (next env s (.worker i id e)) = view s := by
  simp only [next, workerNext]
  split
  · rfl
  · next a pc hi =>
    obtain ⟨series, hdb⟩ := Worker.nextDb_elsewhere i id ⟨s.db, s.git, pc⟩ h
    rw [hdb]
    rfl

theorem view_elsewhere (env : Env) (s : State) {e : Event} (he : Elsewhere e) :
    view (next env s e) = view s := by
  cases e with
  | main e => cases e with
    | spawnWatcher | connect => exact he.elim
    | insertRemote | smokeTest | initDone | beginScan | endScan => rfl
  | scan e =>
    obtain ⟨seen, series, hdb⟩ := Watchcat.next_db ⟨s.db, s.proc.scan⟩ e
    simp [next, scanNext, view, hdb]
  | ingest e => cases e with
    | move id =>
      obtain ⟨series, hdb⟩ := s.db.moveToNewQueue_eq .needsTesting .awaitingGitWorker id
      simp [next, ingestNext, Ingest.next, view, hdb]
    | ready | read | take | ends | spawn | wait => rfl
  | worker i id e =>
    refine view_worker ?_
    rintro r n rfl
    exact he
  | begin | moveMaster => rfl
  | start | stop | watcher | wait | dispatch | otherCheck => exact he.elim

section Branches

theorem view_queue {i : ℕ} {id : SeriesId} {r n : String}
    (he : Enabled env s (.worker i id (.work (.queue r n)))) :
    ∃ w, view (next env s (.worker i id (.work (.queue r n)))) =
        { view s with
          branches := (s.db.insertBranch (.queue n) id.toDecimal "new").branches
          watcher := w } ∧
      ∀ k, w k = s.proc.watcher k ∨ w k = (s.proc.watcher k).notify := by
  obtain ⟨pc, hi, _⟩ := he
  obtain ⟨w, hw, hn⟩ := s.proc.notifyWatchers_eq n
  exact ⟨w, by simp [next, workerNext, hi, hw, view, Worker.nextDb, DoWork.nextDb,
    Db.insertBranch], hn⟩

/-- A watcher writes to the database only when it moves a branch. -/
theorem view_watcher (env : Env) (s : State) (k : ℕ) (e : Watcher.Event) :
    ∃ w, view (next env s (.watcher k e)) =
        { view s with
          branches := (Watcher.nextDb gitHubHandle s.db e).branches
          watcher := Function.update w k (Watcher.nextPc (s.proc.watcher k) e)
          watcherLeaf := Function.update s.proc.watcherLeaf k
            (Watcher.nextLeaf (s.proc.watcherLeaf k) e)
          waits := match e with
            | .spawn branch => ⟨k, branch, [], .polling⟩ :: s.proc.waits
            | _ => s.proc.waits } ∧
      ∀ k, w k = s.proc.watcher k ∨ w k = (s.proc.watcher k).notify := by
  obtain ⟨w, hw, hn⟩ := watcherNext_proc env s k e
  refine ⟨w, ?_, hn⟩
  simp only [view, hw]
  cases e with
  | move branch =>
    simp only [next, watcherNext, Watcher.nextDb, Db.moveBranch]
    cases KvTree.moveBetween s.db.branches (.queue gitHubHandle) (.working gitHubHandle) branch
      <;> rfl
  | read | take | ends | startWork | spawn | wait => rfl

theorem hand_cases {pc : Watcher.Pc} {db : Db} {leaf : KvTree.Leaf String String}
    {e : Watcher.Event} {b : String} (he : Watcher.Enabled gitHubHandle ⟨db, pc, leaf⟩ e)
    (h : Names (Watcher.nextPc pc e) b) : (e = .take b ∧ b ∈ leaf.entries) ∨
      (e = .startWork b ∧ pc = .starting b) ∨ (e = .move b ∧ pc = .moving b) := by
  cases e with
  | read =>
    obtain ⟨cursor, hpc, _⟩ := he
    obtain rfl : pc = .iterate cursor := hpc
    simp [Names, Watcher.nextPc] at h
  | take branch =>
    obtain ⟨cursor, _, hnext⟩ := he
    obtain rfl : branch = b := by simpa [Names, Watcher.nextPc] using h
    exact Or.inl ⟨rfl, KvTree.mem_of_first hnext⟩
  | ends => simp [Names, Watcher.nextPc] at h
  | startWork branch =>
    obtain rfl : branch = b := by simpa [Names, Watcher.nextPc] using h
    exact Or.inr (Or.inl ⟨rfl, he⟩)
  | move branch =>
    obtain rfl : branch = b := by simpa [Names, Watcher.nextPc] using h
    exact Or.inr (Or.inr ⟨rfl, he.1⟩)
  | spawn branch => simp [Names, Watcher.nextPc] at h
  | wait e =>
    obtain ⟨w, hw, _⟩ := he
    cases hn : w.next e <;> simp_all [Names, Watcher.nextPc]

theorem names_nextPc {pc : Watcher.Pc} {db : Db} {leaf : KvTree.Leaf String String}
    {e : Watcher.Event} {b : String} (he : Watcher.Enabled gitHubHandle ⟨db, pc, leaf⟩ e)
    (h : Names (Watcher.nextPc pc e) b) : Names pc b ∨ b ∈ leaf.entries := by
  rcases hand_cases he h with ⟨_, hb⟩ | ⟨_, hpc⟩ | ⟨_, hpc⟩
  · exact Or.inr hb
  · exact Or.inl (Or.inl hpc)
  · exact Or.inl (Or.inr (Or.inl hpc))

theorem mem_waitNext {t t' : Completion.Task} {e : Completion.Event}
    (h : t' ∈ (waitNext s t e).proc.waits) :
    Completion.next t e = some t' ∨ t' ∈ s.proc.waits := by
  rcases List.mem_append.mp h with h | h
  · exact Or.inl (Option.mem_toList.mp h)
  · exact Or.inr (List.mem_of_mem_erase h)

theorem mem_branches_next {e : Event} (he : Enabled env s e) {t : BranchTree} {b : String}
    (hb : b ∈ (next env s e).db.branches t) : b ∈ s.db.branches t ∨
      (∃ i id r n, e = .worker i id (.work (.queue r n)) ∧ b = id.toDecimal ∧ t = .queue n) ∨
      (∃ k, e = .watcher k (.move b) ∧ t = .working gitHubHandle) := by
  cases e using event_cases with
  | elsewhere e ho =>
    have htrees : (next env s e).db.branches = s.db.branches :=
      congrArg (·.branches) (view_elsewhere env s ho)
    exact Or.inl (htrees ▸ hb)
  | start | stop | otherCheck => exact Or.inl hb
  | spawnWatcher | connect => exact Or.inl hb
  | queue i id r n =>
    obtain ⟨w, hw, _⟩ := view_queue he
    have htrees : (next env s (.worker i id (.work (.queue r n)))).db.branches = _ :=
      congrArg (·.branches) hw
    rw [htrees] at hb
    rcases Db.mem_insertBranch.mp hb with ⟨rfl, rfl⟩ | hb
    · exact Or.inr (Or.inl ⟨i, id, r, n, rfl, rfl, rfl⟩)
    · exact Or.inl hb
  | watcher k e => cases e with
    | move branch =>
      obtain ⟨value, hv⟩ := Finmap.mem_iff.mp he.2
      simp only [next, watcherNext, Watcher.nextDb, Db.moveBranch_of_lookup hv] at hb
      rcases (KvTree.mem_moved (by simp)).mp hb with ⟨rfl, rfl⟩ | ⟨hb, _⟩
      · exact Or.inr (Or.inr ⟨k, rfl, rfl⟩)
      · exact Or.inl hb
    | read | take | ends | startWork | spawn | wait => exact Or.inl hb
  | wait u e => cases e with
    | remove => exact Or.inl (Db.mem_removeBranch.mp hb).1
    | report job =>
      simp only [next, waitNext, Completion.nextDb] at hb
      split at hb <;> exact Or.inl hb
    | progress | again | settle => exact Or.inl hb
  | dispatch e => cases e <;> exact Or.inl hb

theorem notMem_queue_of_move {k : ℕ} {b : String} (he : Enabled env s (.watcher k (.move b))) :
    b ∉ (next env s (.watcher k (.move b))).db.branches (.queue gitHubHandle) := by
  obtain ⟨value, hv⟩ := Finmap.mem_iff.mp he.2
  simp only [next, watcherNext, Watcher.nextDb, Db.moveBranch_of_lookup hv]
  intro hb
  rcases (KvTree.mem_moved (by simp)).mp hb with ⟨_, ht⟩ | ⟨_, hne⟩
  · cases ht
  · exact hne ⟨rfl, rfl⟩

theorem mem_branches_kept {e : Event} (he : Enabled env s e) {t : BranchTree} {b : String}
    (hb : b ∈ s.db.branches t) : b ∈ (next env s e).db.branches t ∨
      (∃ k, e = .watcher k (.move b) ∧ t = .queue gitHubHandle ∧
        b ∈ (next env s e).db.branches (.working gitHubHandle)) ∨
      (∃ u, e = .wait u .remove ∧ u.branch = b ∧ t = .working gitHubHandle) := by
  cases e using event_cases with
  | elsewhere e ho =>
    have htrees : (next env s e).db.branches = s.db.branches :=
      congrArg (·.branches) (view_elsewhere env s ho)
    exact Or.inl (htrees ▸ hb)
  | start | stop | otherCheck => exact Or.inl hb
  | spawnWatcher | connect => exact Or.inl hb
  | queue i id r n =>
    obtain ⟨w, hw, _⟩ := view_queue he
    have htrees : (next env s (.worker i id (.work (.queue r n)))).db.branches = _ :=
      congrArg (·.branches) hw
    rw [htrees]
    exact Or.inl (Db.mem_insertBranch.mpr (Or.inr hb))
  | watcher k e => cases e with
    | move branch =>
      obtain ⟨value, hv⟩ := Finmap.mem_iff.mp he.2
      simp only [next, watcherNext, Watcher.nextDb, Db.moveBranch_of_lookup hv]
      by_cases hmoved : b = branch ∧ t = .queue gitHubHandle
      · obtain ⟨rfl, rfl⟩ := hmoved
        exact Or.inr (Or.inl ⟨k, rfl, rfl, (KvTree.mem_moved (by simp)).mpr (Or.inl ⟨rfl, rfl⟩)⟩)
      · exact Or.inl ((KvTree.mem_moved (by simp)).mpr (Or.inr ⟨hb, hmoved⟩))
    | read | take | ends | startWork | spawn | wait => exact Or.inl hb
  | wait u e => cases e with
    | remove =>
      by_cases hgone : b = u.branch ∧ t = .working gitHubHandle
      · exact Or.inr (Or.inr ⟨u, rfl, hgone.1.symm, hgone.2⟩)
      · exact Or.inl (Db.mem_removeBranch.mpr ⟨hb, hgone⟩)
    | report job =>
      simp only [next, waitNext, Completion.nextDb]
      split <;> exact Or.inl hb
    | progress | again | settle => exact Or.inl hb
  | dispatch e => cases e <;> exact Or.inl hb

theorem eq_of_notified {pc pc' : Watcher.Pc} {b : String} (h : pc' = pc ∨ pc' = pc.notify)
    (hb : Names pc' b) : pc' = pc := by
  rcases h with rfl | rfl
  · rfl
  · cases pc <;> simp [Names, Watcher.Pc.notify] at hb ⊢

/-- A watcher has a branch in hand by a step of its own, or had it before. -/
theorem watcher_next {e : Event} (he : Enabled env s e) {k : ℕ} {b : String}
    (hb : Names ((next env s e).proc.watcher k) b) :
    (∃ we, e = .watcher k we ∧
        Watcher.Enabled gitHubHandle ⟨s.db, s.proc.watcher k, s.proc.watcherLeaf k⟩ we ∧
        (next env s e).proc.watcher k = Watcher.nextPc (s.proc.watcher k) we) ∨
      ((∀ we, e ≠ .watcher k we) ∧ (next env s e).proc.watcher k = s.proc.watcher k) := by
  cases e using event_cases with
  | elsewhere e ho =>
    have hw : (next env s e).proc.watcher = s.proc.watcher :=
      congrArg (·.watcher) (view_elsewhere env s ho)
    refine Or.inr ⟨?_, congrFun hw k⟩
    rintro we rfl
    exact ho
  | start | stop => simp [Names, next, Process.launched, Process.stopped] at hb
  | connect => exact Or.inr ⟨by simp, rfl⟩
  | spawnWatcher j =>
    by_cases hkj : k = j
    · simp [next, mainNext, Names, hkj] at hb
    · exact Or.inr ⟨by simp, by simp [next, mainNext, hkj]⟩
  | queue i id r n =>
    obtain ⟨w, hw, hn⟩ := view_queue he
    have hwk : (next env s (.worker i id (.work (.queue r n)))).proc.watcher = w :=
      congrArg (·.watcher) hw
    rw [hwk] at hb ⊢
    exact Or.inr ⟨by simp, eq_of_notified (hn k) hb⟩
  | watcher j e =>
    obtain ⟨w, hw, hn⟩ := watcherNext_proc env s j e
    rw [hw] at hb ⊢
    by_cases hkj : k = j
    · subst hkj
      exact Or.inl ⟨e, rfl, he, Function.update_self ..⟩
    · simp only [Function.update_of_ne hkj] at hb ⊢
      refine Or.inr ⟨?_, eq_of_notified (hn k) hb⟩
      intro we hx
      cases hx
      exact hkj rfl
  | wait | otherCheck | dispatch => exact Or.inr ⟨by simp, rfl⟩

theorem watcherLeaf_own {k : ℕ} {e : Watcher.Event} (he : Enabled env s (.watcher k e))
    {b : String} (hb : b ∈ ((next env s (.watcher k e)).proc.watcherLeaf k).entries) :
    (b ∈ (s.proc.watcherLeaf k).entries ∧
      (s.proc.watcher k).cursor ≤ ((next env s (.watcher k e)).proc.watcher k).cursor) ∨
        b ∈ s.db.branches (.queue gitHubHandle) := by
  obtain ⟨w, hw, hn⟩ := watcherNext_proc env s k e
  rw [hw] at hb ⊢
  simp only [Function.update_self] at hb ⊢
  cases e with
  | read leaf found =>
    obtain ⟨cursor, _, hreads⟩ := he
    exact Or.inr (hreads.mem hb)
  | ends | wait => exact absurd hb Finmap.notMem_empty
  | take branch =>
    obtain ⟨cursor, hpc, hnext⟩ := he
    have hpc : s.proc.watcher k = .iterate cursor := hpc
    refine Or.inl ⟨hb, ?_⟩
    rw [hpc]
    exact (KvTree.of_first_eq hnext).2.1.le
  | startWork branch =>
    have hpc : s.proc.watcher k = .starting branch := he
    exact Or.inl ⟨hb, hpc ▸ le_rfl⟩
  | move branch =>
    have hpc : s.proc.watcher k = .moving branch := he.1
    exact Or.inl ⟨hb, hpc ▸ le_rfl⟩
  | spawn branch =>
    have hpc : s.proc.watcher k = .spawning branch := he
    exact Or.inl ⟨hb, hpc ▸ le_rfl⟩

/-- What a watcher has cloned it had before, with a cursor no further on, or it has just read
it from the queue. -/
theorem watcherLeaf_next {e : Event} (he : Enabled env s e) {k : ℕ} {b : String}
    (hb : b ∈ ((next env s e).proc.watcherLeaf k).entries) :
    (b ∈ (s.proc.watcherLeaf k).entries ∧
      (s.proc.watcher k).cursor ≤ ((next env s e).proc.watcher k).cursor) ∨
        b ∈ s.db.branches (.queue gitHubHandle) := by
  have hnotified : ∀ {pc pc' : Watcher.Pc}, pc' = pc ∨ pc' = pc.notify →
      pc.cursor ≤ pc'.cursor := by
    rintro pc pc' (rfl | rfl)
    · exact le_rfl
    · exact pc.cursor_notify.ge
  cases e using event_cases with
  | elsewhere e ho =>
    have hl : (next env s e).proc.watcherLeaf = s.proc.watcherLeaf :=
      congrArg (·.watcherLeaf) (view_elsewhere env s ho)
    have hw : (next env s e).proc.watcher = s.proc.watcher :=
      congrArg (·.watcher) (view_elsewhere env s ho)
    exact Or.inl ⟨hl ▸ hb, hw ▸ le_rfl⟩
  | start | stop => exact absurd hb Finmap.notMem_empty
  | connect | wait | dispatch | otherCheck => exact Or.inl ⟨hb, le_rfl⟩
  | spawnWatcher j =>
    by_cases hkj : k = j
    · subst hkj
      simp [next, mainNext, KvTree.Leaf.start, Finmap.notMem_empty] at hb
    · refine Or.inl ?_
      simpa [next, mainNext, hkj] using hb
  | queue i id r n =>
    obtain ⟨w, hw, hn⟩ := view_queue he
    have hl : (next env s (.worker i id (.work (.queue r n)))).proc.watcherLeaf =
        s.proc.watcherLeaf := congrArg (·.watcherLeaf) hw
    have hwk : (next env s (.worker i id (.work (.queue r n)))).proc.watcher = w :=
      congrArg (·.watcher) hw
    rw [hwk]
    exact Or.inl ⟨hl ▸ hb, hnotified (hn k)⟩
  | watcher j e =>
    by_cases hkj : k = j
    · subst hkj
      exact watcherLeaf_own he hb
    · obtain ⟨w, hw, hn⟩ := watcherNext_proc env s j e
      rw [hw] at hb ⊢
      simp only [Function.update_of_ne hkj] at hb ⊢
      exact Or.inl ⟨hb, hnotified (hn k)⟩

theorem mem_watcherLeaf_next {e : Event} (he : Enabled env s e) {k : ℕ} {b : String}
    (hb : b ∈ ((next env s e).proc.watcherLeaf k).entries) :
    b ∈ (s.proc.watcherLeaf k).entries ∨ b ∈ s.db.branches (.queue gitHubHandle) :=
  (watcherLeaf_next he hb).imp_left And.left

theorem lookup_dispatchLeaf_next {e : Event} (he : Enabled env s e) {key : String}
    {job : RunnerResult}
    (h : Finmap.lookup key (next env s e).proc.dispatchLeaf.entries = some job) :
    Finmap.lookup key s.proc.dispatchLeaf.entries = some job ∨
      Finmap.lookup key s.db.needsDispatch = some job := by
  cases e using event_cases with
  | elsewhere e ho =>
    have hl : (next env s e).proc.dispatchLeaf = s.proc.dispatchLeaf :=
      congrArg (·.dispatchLeaf) (view_elsewhere env s ho)
    exact Or.inl (hl ▸ h)
  | start | stop | connect =>
    exact absurd (Finmap.mem_of_lookup_eq_some h) Finmap.notMem_empty
  | spawnWatcher | wait | otherCheck => exact Or.inl h
  | queue i id r n =>
    obtain ⟨w, hw, _⟩ := view_queue he
    have hl : (next env s (.worker i id (.work (.queue r n)))).proc.dispatchLeaf =
        s.proc.dispatchLeaf := congrArg (·.dispatchLeaf) hw
    exact Or.inl (hl ▸ h)
  | watcher k e =>
    obtain ⟨w, hw, _⟩ := watcherNext_proc env s k e
    rw [hw] at h
    exact Or.inl h
  | dispatch e => cases e with
    | read leaf found =>
      obtain ⟨cursor, drop, _, hreads⟩ := he
      exact Or.inr (hreads.lookup h)
    | ends | wait => exact absurd (Finmap.mem_of_lookup_eq_some h) Finmap.notMem_empty
    | _ => exact Or.inl h

theorem watchers_step {e : Event} (h : BranchesAreIds (view s)) (he : Enabled env s e)
    {k : ℕ} {b : String} (hb : Names ((next env s e).proc.watcher k) b) :
    ∃ id : SeriesId, b = id.toDecimal := by
  rcases watcher_next he hb with ⟨we, _, hen, hpc⟩ | ⟨_, hpc⟩
  · rcases names_nextPc hen (hpc ▸ hb) with hb | hb
    · exact h.watchers k b hb
    · exact h.leaves k b hb
  · rw [hpc] at hb
    exact h.watchers k b hb

/-- A task polls a branch that some watcher had in hand when it spawned the task. -/
theorem mem_waits_next {e : Event} {t : Completion.Task}
    (ht : t ∈ (next env s e).proc.waits) : t ∈ s.proc.waits ∨
      (∃ k branch, e = .watcher k (.spawn branch) ∧ t = ⟨k, branch, [], .polling⟩) ∨
      (∃ u we, e = .wait u we ∧ Completion.next u we = some t) := by
  cases e using event_cases with
  | elsewhere e ho =>
    have hw : (next env s e).proc.waits = s.proc.waits :=
      congrArg (·.waits) (view_elsewhere env s ho)
    exact Or.inl (hw ▸ ht)
  | start | stop => exact absurd ht List.not_mem_nil
  | spawnWatcher | connect => exact Or.inl ht
  | queue i id r n =>
    cases hi : s.proc.thread i with
    | none => exact Or.inl (by simpa [next, workerNext, hi] using ht)
    | some x =>
      obtain ⟨w, hw, _⟩ := workerNext_proc env id hi (.work (.queue r n))
      rw [hw] at ht
      exact Or.inl ht
  | watcher k e =>
    obtain ⟨w, hw, _⟩ := watcherNext_proc env s k e
    rw [hw] at ht
    cases e with
    | spawn branch =>
      rcases List.mem_cons.mp ht with rfl | ht
      · exact Or.inr (Or.inl ⟨k, branch, rfl, rfl⟩)
      · exact Or.inl ht
    | read | take | ends | startWork | move | wait => exact Or.inl ht
  | wait u e =>
    rcases mem_waitNext ht with hn | ht
    · exact Or.inr (Or.inr ⟨u, e, rfl, hn⟩)
    · exact Or.inl ht
  | dispatch | otherCheck => exact Or.inl ht

theorem watcher_move (env : Env) (s : State) (k : ℕ) (b : String) :
    (next env s (.watcher k (.move b))).proc.watcher k = .spawning b := by
  obtain ⟨w, hw, _⟩ := watcherNext_proc env s k (.move b)
  rw [hw]
  exact Function.update_self ..

theorem mem_waits_spawn (env : Env) (s : State) (k : ℕ) (b : String) :
    ⟨k, b, [], .polling⟩ ∈ (next env s (.watcher k (.spawn b))).proc.waits :=
  List.mem_cons_self

theorem spawning_kept {e : Event} (he : Enabled env s e) {k : ℕ} {b : String}
    (h : s.proc.watcher k = .spawning b) :
    (next env s e).proc.watcher k = .spawning b ∨ e = .watcher k (.spawn b) ∨
      e = .main (.spawnWatcher k) ∨ e = .stop ∨ ∃ config threads, e = .start config threads := by
  have notified : ∀ {pc}, pc = s.proc.watcher k ∨ pc = (s.proc.watcher k).notify →
      pc = .spawning b := by
    rintro pc (rfl | rfl) <;> simp [h, Watcher.Pc.notify]
  cases e using event_cases with
  | elsewhere e ho =>
    have hw : (next env s e).proc.watcher = s.proc.watcher :=
      congrArg (·.watcher) (view_elsewhere env s ho)
    exact Or.inl (hw ▸ h)
  | start config threads => simp
  | stop => simp
  | connect => exact Or.inl h
  | spawnWatcher j =>
    by_cases hjk : k = j
    · simp [hjk]
    · exact Or.inl (by simpa [next, mainNext, hjk] using h)
  | queue i id r n =>
    refine Or.inl ?_
    cases hi : s.proc.thread i with
    | none => simpa [next, workerNext, hi] using h
    | some x =>
      obtain ⟨w, hw, hn⟩ := workerNext_proc env id hi (.work (.queue r n))
      rw [hw]
      exact notified (hn k)
  | watcher j e =>
    obtain ⟨w, hw, hn⟩ := watcherNext_proc env s j e
    by_cases hjk : k = j
    · subst hjk
      cases e with
      | spawn branch => simp [Watcher.Pc.spawning.inj (h.symm.trans he)]
      | move branch => cases h.symm.trans he.1
      | startWork branch => cases h.symm.trans he
      | read | take | ends =>
        obtain ⟨cursor, hpc, _⟩ := he
        cases h.symm.trans hpc
      | wait e =>
        obtain ⟨v, hpc, _⟩ := he
        cases h.symm.trans hpc
    · rw [hw]
      exact Or.inl (by simpa [hjk] using notified (hn k))
  | wait | otherCheck | dispatch => exact Or.inl h

theorem mem_waits_kept (env : Env) (e : Event) {t : Completion.Task} (h : t ∈ s.proc.waits) :
    t ∈ (next env s e).proc.waits ∨
      (∃ we, e = .wait t we ∧
        ∀ t', Completion.next t we = some t' → t' ∈ (next env s e).proc.waits) ∨
      e = .stop ∨ ∃ config threads, e = .start config threads := by
  cases e using event_cases with
  | elsewhere e ho =>
    have hw : (next env s e).proc.waits = s.proc.waits :=
      congrArg (·.waits) (view_elsewhere env s ho)
    exact Or.inl (hw ▸ h)
  | start config threads => simp
  | stop => simp
  | spawnWatcher | connect => exact Or.inl h
  | queue i id r n =>
    refine Or.inl ?_
    cases hi : s.proc.thread i with
    | none => simpa [next, workerNext, hi] using h
    | some x =>
      obtain ⟨w, hw, _⟩ := workerNext_proc env id hi (.work (.queue r n))
      rw [hw]
      exact h
  | watcher k e =>
    obtain ⟨w, hw, _⟩ := watcherNext_proc env s k e
    rw [hw]
    refine Or.inl ?_
    cases e with
    | spawn branch => exact List.mem_cons_of_mem _ h
    | read | take | ends | startWork | move | wait => exact h
  | wait u we =>
    by_cases hut : t = u
    · subst hut
      refine Or.inr (Or.inl ⟨we, rfl, ?_⟩)
      intro t' ht'
      simp [next, waitNext, ht']
    · exact Or.inl (List.mem_append_right _ ((List.mem_erase_of_ne hut).mpr h))
  | dispatch | otherCheck => exact Or.inl h

theorem lookup_next {e : Event} {key : String} {job : RunnerResult}
    (h : Finmap.lookup key (next env s e).db.needsDispatch = some job) :
    Finmap.lookup key s.db.needsDispatch = some job ∨
      ∃ t, e = .wait t (.report job) ∧ job.name ∉ t.completed ∧
        key = dispatchKey gitHubHandle t.branch job.name := by
  cases e using event_cases with
  | elsewhere e ho =>
    have hn : (next env s e).db.needsDispatch = s.db.needsDispatch :=
      congrArg (·.needsDispatch) (view_elsewhere env s ho)
    exact Or.inl (hn ▸ h)
  | start | stop | otherCheck => exact Or.inl h
  | spawnWatcher | connect => exact Or.inl h
  | queue i id r n =>
    refine Or.inl ?_
    simp only [next, workerNext] at h
    split at h <;> exact h
  | watcher k e =>
    have hn : (next env s (.watcher k e)).db.needsDispatch = s.db.needsDispatch := by
      obtain ⟨w, hw, _⟩ := view_watcher env s k e
      exact congrArg (·.needsDispatch) hw
    exact Or.inl (hn ▸ h)
  | wait t e => cases e with
    | report a =>
      simp only [next, waitNext, Completion.nextDb] at h
      split at h
      · exact Or.inl h
      · next hnew =>
        rw [KvTree.lookup_insert_eq_ite] at h
        split at h
        · next hkey =>
          obtain rfl := Option.some.inj h
          exact Or.inr ⟨t, rfl, hnew, hkey⟩
        · exact Or.inl h
    | progress | again | settle | remove => exact Or.inl h
  | dispatch e => exact Or.inl (Dispatch.lookup_nextDb h)

theorem dispatch_next (env : Env) (s : State) {e : Event} (hd : ∀ d, e ≠ .dispatch d)
    (hc : ∀ patch check, e ≠ .otherCheck patch check) :
    (next env s e).checks = s.checks ∧
      ((next env s e).proc.dispatch = s.proc.dispatch ∨
        (next env s e).proc.dispatch = s.proc.dispatch.notify ∨
        (next env s e).proc.dispatch = .off ∨
        (next env s e).proc.dispatch = .iterate ⊥ []) := by
  cases e using event_cases with
  | elsewhere e ho =>
    have hv := view_elsewhere env s ho
    exact ⟨congrArg (·.checks) hv, Or.inl (congrArg (·.dispatch) hv)⟩
  | start | stop => exact ⟨rfl, Or.inr (Or.inr (Or.inl rfl))⟩
  | connect => exact ⟨rfl, Or.inr (Or.inr (Or.inr rfl))⟩
  | spawnWatcher => exact ⟨rfl, Or.inl rfl⟩
  | queue i id r n =>
    cases hi : s.proc.thread i with
    | none => simp [next, workerNext, hi]
    | some x =>
      obtain ⟨w, hw, _⟩ := workerNext_proc env id hi (.work (.queue r n))
      rw [hw]
      refine ⟨?_, Or.inl rfl⟩
      simp [next, workerNext, hi]
  | watcher k e =>
    obtain ⟨w, hw, _⟩ := view_watcher env s k e
    exact ⟨congrArg (·.checks) hw, Or.inl (congrArg (·.dispatch) hw)⟩
  | wait t e =>
    refine ⟨rfl, ?_⟩
    cases e with
    | report job =>
      simp only [next, waitNext]
      split
      · exact Or.inl rfl
      · exact Or.inr (Or.inl rfl)
    | progress | again | settle | remove => exact Or.inl rfl
  | dispatch d => exact absurd rfl (hd d)
  | otherCheck patch check => exact absurd rfl (hc patch check)

theorem dispatch_inHand {e : Event} (hd : ∀ d, e ≠ .dispatch d)
    (h : (next env s e).proc.dispatch.InHand) :
    (next env s e).proc.dispatch = s.proc.dispatch := by
  by_cases hc : ∀ patch check, e ≠ .otherCheck patch check
  · rcases (dispatch_next env s hd hc).2 with hn | hn | hn | hn
    · exact hn
    · rw [hn] at h ⊢
      exact Dispatch.eq_of_notify_inHand h
    · rw [hn] at h
      exact h.elim
    · rw [hn] at h
      exact h.elim
  · push Not at hc
    obtain ⟨patch, check, rfl⟩ := hc
    rfl

theorem branches_step {e : Event} (h : BranchesAreIds (view s)) (he : Enabled env s e) :
    BranchesAreIds (view (next env s e)) := by
  refine ⟨?_, fun k b hb => watchers_step h he hb, ?_, ?_⟩
  · intro t b hb
    rcases mem_branches_next he hb with hb | ⟨_, id, _, _, _, rfl, _⟩ | ⟨k, rfl, _⟩
    · exact h.trees t b hb
    · exact ⟨id, rfl⟩
    · exact h.trees _ b he.2
  · intro k b hb
    rcases mem_watcherLeaf_next he hb with hb | hb
    · exact h.leaves k b hb
    · exact h.trees _ b hb
  · intro t ht
    rcases mem_waits_next ht with ht | ⟨k, branch, rfl, rfl⟩ | ⟨u, we, rfl, hn⟩
    · exact h.waits t ht
    · exact h.watchers k branch (Or.inr (Or.inr he))
    · rw [(Completion.next_same hn).2]
      exact h.waits u he.1

end Branches

end Snowpatch.RunnerStage
