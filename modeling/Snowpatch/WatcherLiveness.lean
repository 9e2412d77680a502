import Snowpatch.DispatchLiveness
import Snowpatch.Watchers
import Mathlib.Data.DFinsupp.WellFounded

/-! The watchers of all runners consume one queue, each with a clone of it. A watcher that has
taken a branch which another one has moved hangs: its transaction conflicts until the branch is
queued once more. As long as one of them does not, no branch is left in the queue. -/
namespace Snowpatch.WatcherLiveness

open Pipeline LivePasses Liveness

variable {env : Env} {s s₀ : State} {k : ℕ} {e : Event}

/-- A step of a watcher. It passes an empty leaf for nothing. -/
def IsWatcher (k : ℕ) (e : Event) : Prop :=
  ∃ we, e = .watcher k we ∧ ∀ leaf, we ≠ .read leaf false

def watcherPosition (leaf : KvTree.Leaf String String) :
    Watcher.Pc → Machine.Position String String
  | .off => .resting 3
  | .iterate cursor => .iterating cursor leaf
  | .starting branch => .passing branch leaf 4
  | .moving branch => .passing branch leaf 3
  | .spawning branch => .passing branch leaf 2
  | .waiting w => .resting w.left

/-- The watcher is going to move the branch. -/
def Pursues (pc : Watcher.Pc) (branch : String) : Prop :=
  pc = .starting branch ∨ pc = .moving branch

/-- Its transaction conflicts: the branch has been moved by somebody else. -/
def Hangs (k : ℕ) (s : State) : Prop :=
  ∃ b, s.proc.watcher k = .moving b ∧ b ∉ s.db.branches (.queue gitHubHandle)

def Useful (k : ℕ) (s : State) : Prop := s.proc.watcher k ≠ .off ∧ ¬ Hangs k s

theorem watcherPosition_notify (leaf : KvTree.Leaf String String) (pc : Watcher.Pc) :
    watcherPosition leaf pc.notify = watcherPosition leaf pc := by
  cases pc with
  | waiting w => exact congrArg Machine.Position.resting w.left_notify
  | off | iterate | starting | moving | spawning => rfl

@[simp] theorem pursues_notify {pc : Watcher.Pc} {b : String} :
    Pursues pc.notify b ↔ Pursues pc b := by
  cases pc <;> simp [Pursues, Watcher.Pc.notify]

theorem watcher_foreign (hrun : s.proc.main ≠ .off) (he : Enabled env s e) (hstop : e ≠ .stop)
    (hspawn : e ≠ .main (.spawnWatcher k)) (hown : ∀ we, e ≠ .watcher k we) :
    ((next env s e).proc.watcher k = s.proc.watcher k ∨
      (next env s e).proc.watcher k = (s.proc.watcher k).notify) ∧
        (next env s e).proc.watcherLeaf k = s.proc.watcherLeaf k := by
  refine watcher_pc_next env s ?_ hown
  cases e with
  | start => exact absurd he.1 hrun
  | stop => exact absurd rfl hstop
  | watcher j we =>
    have hjk : j ≠ k := by
      rintro rfl
      exact hown we rfl
    cases we <;> first | exact hjk | trivial
  | main m => cases m with
    | spawnWatcher j =>
      intro hjk
      exact hspawn (hjk ▸ rfl)
    | insertRemote | smokeTest | initDone | connect | beginScan | endScan => trivial
  | scan | ingest | begin | worker | wait | dispatch | moveMaster | otherCheck => trivial

theorem branch_kept {b : String} (he : Enabled env s e)
    (hb : b ∈ s.db.branches (.queue gitHubHandle)) :
    b ∈ (next env s e).db.branches (.queue gitHubHandle) ∨ ∃ k, e = .watcher k (.move b) := by
  rcases RunnerStage.mem_branches_kept he hb with hb | ⟨k, rfl, _⟩ | ⟨_, _, _, ht⟩
  · exact Or.inl hb
  · exact Or.inr ⟨k, rfl⟩
  · cases ht

theorem running_of_watcher (hb : Startup.Booted s.proc) (hon : s.proc.watcher k ≠ .off) :
    s.proc.main ≠ .off := by
  intro hoff
  rw [hb.off_stopped hoff] at hon
  exact hon rfl

theorem ne_spawnWatcher (hb : Startup.Booted s.proc) (he : Enabled env s e)
    (hon : s.proc.watcher k ≠ .off) : e ≠ .main (.spawnWatcher k) := by
  rintro rfl
  exact hon (Startup.off_of_spawn hb he)

theorem Useful.kept (hb : Startup.Booted s.proc) (h : Useful k s) (he : Enabled env s e)
    (hstop : e ≠ .stop) (hown : ¬ ∃ j, IsWatcher j e) : Useful k (next env s e) := by
  have hkept : ∀ b ∈ s.db.branches (.queue gitHubHandle),
      b ∈ (next env s e).db.branches (.queue gitHubHandle) := by
    intro b hq
    refine (branch_kept he hq).resolve_right ?_
    rintro ⟨j, rfl⟩
    exact hown ⟨j, _, rfl, by simp⟩
  have hpc : (next env s e).proc.watcher k = s.proc.watcher k ∨
      (next env s e).proc.watcher k = (s.proc.watcher k).notify := by
    by_cases hstep : ∃ we, e = .watcher k we
    · obtain ⟨we, rfl⟩ := hstep
      obtain ⟨leaf, rfl⟩ : ∃ leaf, we = .read leaf false := by
        by_contra hread
        exact hown ⟨k, we, rfl, not_exists.mp hread⟩
      exact Or.inl (watcher_own env s k _).1
    · exact (watcher_foreign (running_of_watcher hb h.1) he hstop (ne_spawnWatcher hb he h.1)
        (not_exists.mp hstep)).1
  constructor
  · rcases hpc with hpc | hpc
    · exact hpc ▸ h.1
    · rw [hpc]
      exact fun hoff => h.1 (Startup.watcher_notify_eq_off.mp hoff)
  · rintro ⟨b, hmoving, hb'⟩
    have hbefore : s.proc.watcher k = .moving b :=
      (RunnerStage.eq_of_notified hpc (Or.inr (Or.inl hmoving))).symm.trans hmoving
    exact h.2 ⟨b, hbefore, fun hq => hb' (hkept b hq)⟩

section Crew

variable {bound : Finset String} {b : String} {r : ℕ}

structure WatchReady (s : State) : Prop where
  ids : RunnerStage.BranchesAreIds (RunnerStage.view s)
  sound : ∀ k, WakeUp.WatcherSound s.db.branches (s.proc.watcher k)
  booted : Startup.Booted s.proc

/-- A process with so many runners goes on, and the branch waits for one of its watchers. -/
structure Queued (r : ℕ) (b : String) (s : State) : Prop where
  up : s.proc.main = .idle ∨ s.proc.main = .scanning
  runners : s.proc.config.runners.length = r
  mem : b ∈ s.db.branches (.queue gitHubHandle)

noncomputable def watcherDistance (bound : Finset String) (b : String)
    (leaf : KvTree.Leaf String String) (pc : Watcher.Pc) : ℕ ×ₗ (ℕ ×ₗ (ℕ ×ₗ ℕ)) :=
  (watcherPosition leaf pc).distance bound b (Pursues pc b)

noncomputable def crewDistance (r : ℕ) (bound : Finset String) (b : String) (s : State) :
    Fin r → ℕ ×ₗ (ℕ ×ₗ (ℕ ×ₗ ℕ)) :=
  fun k => watcherDistance bound b (s.proc.watcherLeaf k) (s.proc.watcher k)

theorem watcherDistance_notify (bound : Finset String) (b : String)
    (leaf : KvTree.Leaf String String) (pc : Watcher.Pc) :
    watcherDistance bound b leaf pc.notify = watcherDistance bound b leaf pc := by
  simp only [watcherDistance, watcherPosition_notify, pursues_notify]

theorem useful_enabled (h : WatchReady s) (hb : b ∈ s.db.branches (.queue gitHubHandle))
    (hk : Useful k s) : ∃ e, IsWatcher k e ∧ Enabled env s e := by
  obtain ⟨hon, hhangs⟩ := hk
  have hsound := h.sound k
  have hen : ∃ we, (∀ leaf, we ≠ .read leaf false) ∧
      Watcher.Enabled gitHubHandle ⟨s.db, s.proc.watcher k, s.proc.watcherLeaf k⟩ we := by
    unfold Hangs at hhangs
    generalize s.proc.watcher k = pc at hon hhangs hsound
    cases pc with
    | off => exact absurd rfl hon
    | iterate cursor =>
      rcases (s.proc.watcherLeaf k).ready (s.db.branches (.queue gitHubHandle)) cursor with
        ⟨a, hnext⟩ | hreads | hend
      · exact ⟨.take a, by simp, cursor, rfl, hnext⟩
      · exact ⟨.read _ true, by simp, cursor, rfl, hreads⟩
      · exact ⟨.ends, by simp, cursor, rfl, hend⟩
    | starting a => exact ⟨.startWork a, by simp, rfl⟩
    | moving a =>
      have hqueued : a ∈ s.db.branches (.queue gitHubHandle) := by
        by_contra hgone
        exact hhangs ⟨a, rfl, hgone⟩
      exact ⟨.move a, by simp, rfl, hqueued⟩
    | spawning a => exact ⟨.spawn a, by simp, rfl⟩
    | waiting w =>
      have hne : ¬ KvTree.IsEmpty (s.db.branches (.queue gitHubHandle)) := fun hempty =>
        KvTree.isEmpty_iff.mp hempty b hb
      obtain ⟨e, he⟩ := Waiting.exists_enabled (hsound w rfl) hne
      exact ⟨.wait e, by simp, w, rfl, he⟩
  obtain ⟨we, hread, hwe⟩ := hen
  exact ⟨.watcher k we, ⟨we, rfl, hread⟩, hwe⟩

theorem watcherDistance_lt {db : Db} {pc : Watcher.Pc} {leaf : KvTree.Leaf String String}
    {we : Watcher.Event} (he : Watcher.Enabled gitHubHandle ⟨db, pc, leaf⟩ we)
    (hread : ∀ leaf, we ≠ .read leaf false) (hmove : we ≠ .move b)
    (hbound : ∀ a ∈ leaf.entries, a ∈ bound) (hb : b ∈ db.branches (.queue gitHubHandle)) :
    watcherDistance bound b (Watcher.nextLeaf leaf we) (Watcher.nextPc pc we) <
      watcherDistance bound b leaf pc := by
  have hlt : ∀ {pc' : Watcher.Pc} {leaf' : KvTree.Leaf String String} {y : Option String},
      Machine.Advance (db.branches (.queue gitHubHandle)) (¬ Pursues pc b) y
        (watcherPosition leaf pc) (watcherPosition leaf' pc') →
      (∀ a, y = some a → a ∈ bound) → (Pursues pc b → Pursues pc' b) →
      (y = some b → Pursues pc' b) →
      watcherDistance bound b leaf' pc' < watcherDistance bound b leaf pc :=
    fun hadv hy hheld htaken => hadv.distance_lt hy (Or.inl hb) hheld id htaken
  cases we with
  | read leaf' found =>
    obtain ⟨cursor, rfl, hreads⟩ := he
    cases found with
    | true => exact hlt (.read hreads) nofun (by simp [Pursues]) nofun
    | false => exact absurd rfl (hread leaf')
  | take a =>
    obtain ⟨cursor, rfl, hnext⟩ := he
    refine hlt (.yield hnext) ?_ (by simp [Pursues]) ?_
    · rintro _ ⟨⟩
      exact hbound a (KvTree.mem_of_first hnext)
    · rintro ⟨⟩
      exact Or.inl rfl
  | ends =>
    obtain ⟨cursor, rfl, hend⟩ := he
    exact hlt (.finish hend) nofun (by simp [Pursues]) nofun
  | startWork a =>
    obtain rfl : pc = .starting a := he
    refine hlt (.work (Nat.lt_succ_self 3)) nofun ?_ nofun
    rintro (⟨⟨⟩⟩ | ⟨⟨⟩⟩)
    exact Or.inr rfl
  | move a =>
    obtain ⟨rfl, _⟩ := he
    refine hlt (.work (Nat.lt_succ_self 2)) nofun ?_ nofun
    rintro (⟨⟨⟩⟩ | ⟨⟨⟩⟩)
    exact absurd rfl hmove
  | spawn a =>
    obtain rfl : pc = .spawning a := he
    exact hlt (.resume Nat.one_lt_two) nofun (by simp [Pursues]) nofun
  | wait e =>
    obtain ⟨w, rfl, hen⟩ := he
    have hpos : watcherPosition .start (Watcher.nextPc (.waiting w) (.wait e)) =
        (w.next e).elim (.iterating ⊥ .start) fun w' => .resting w'.left := by
      cases hn : w.next e <;> simp [Watcher.nextPc, watcherPosition, hn]
    exact hlt (y := none) (hpos ▸ Waiting.advance hen (by simp [Pursues])) nofun
      (by simp [Pursues]) nofun

theorem watcherDistance_le {i : ℕ} (hrun : s.proc.main ≠ .off) (he : Enabled env s e)
    (hstop : e ≠ .stop) (hspawn : e ≠ .main (.spawnWatcher i)) (hown : ¬ IsWatcher i e)
    (hb : b ∈ s.db.branches (.queue gitHubHandle)) :
    watcherDistance bound b ((next env s e).proc.watcherLeaf i) ((next env s e).proc.watcher i) ≤
      watcherDistance bound b (s.proc.watcherLeaf i) (s.proc.watcher i) := by
  by_cases hstep : ∃ we, e = .watcher i we
  · obtain ⟨we, rfl⟩ := hstep
    obtain ⟨leaf, rfl⟩ : ∃ leaf, we = .read leaf false := by
      by_contra hread
      exact hown ⟨we, rfl, not_exists.mp hread⟩
    obtain ⟨hpc', hleaf'⟩ := watcher_own env s i (.read leaf false)
    obtain ⟨cursor, hpc, hreads⟩ := he
    have hpc : s.proc.watcher i = .iterate cursor := hpc
    rw [hpc', hleaf', hpc]
    exact Machine.Idle.distance_le (.skip hreads) (Or.inl hb) (by simp [Pursues, Watcher.nextPc])
  · obtain ⟨hpc | hpc, hleaf⟩ := watcher_foreign hrun he hstop hspawn (not_exists.mp hstep)
    · rw [hpc, hleaf]
    · rw [hpc, hleaf, watcherDistance_notify]

theorem crewDistance_lt {j : ℕ} {t : State} (hj : j < r)
    (hlt : watcherDistance bound b (t.proc.watcherLeaf j) (t.proc.watcher j) <
      watcherDistance bound b (s.proc.watcherLeaf j) (s.proc.watcher j))
    (hother : ∀ i, i ≠ j → watcherDistance bound b (t.proc.watcherLeaf i) (t.proc.watcher i) ≤
      watcherDistance bound b (s.proc.watcherLeaf i) (s.proc.watcher i)) :
    crewDistance r bound b t < crewDistance r bound b s := by
  refine Pi.lt_def.mpr ⟨fun i => ?_, ⟨j, hj⟩, hlt⟩
  by_cases hij : (i : ℕ) = j
  · simp only [crewDistance, hij]
    exact hlt.le
  · exact hother i hij

theorem Queued.running (hq : Queued r b s) : s.proc.main ≠ .off := by
  rcases hq.up with hm | hm <;> simp [hm]

theorem Queued.ne_spawnWatcher (hq : Queued r b s) (he : Enabled env s e) (i : ℕ) :
    e ≠ .main (.spawnWatcher i) := by
  rintro rfl
  rcases hq.up with hm | hm <;> cases hm.symm.trans he.1

theorem Queued.watcher_lt (h : WatchReady s) (hq : Queued r b s) {j : ℕ} :
    s.proc.watcher j ≠ .off ↔ j < r := by
  have hspawned : Startup.spawned s.proc = r := by
    rw [← hq.runners]
    rcases hq.up with hm | hm <;> simp [Startup.spawned, hm]
  refine ⟨fun hon => not_le.mp fun hle => ?_, fun hlt => ?_⟩
  · exact hon (h.booted.watchers_off j (hspawned ▸ hle))
  · exact h.booted.watchers_on j (hspawned ▸ hlt)

/-- Every step of a watcher brings this watcher closer to the branch and no other further away;
between two such steps, those that get on stay so. -/
theorem crew_step (hbound : ∀ k, ∀ a ∈ (s.proc.watcherLeaf k).entries, a ∈ bound)
    (h : WatchReady s) (hq : Queued r b s) (he : Enabled env s e) (hstop : e ≠ .stop)
    (hmove : ∀ j, e ≠ .watcher j (.move b)) :
    crewDistance r bound b (next env s e) < crewDistance r bound b s ∨
      crewDistance r bound b (next env s e) ≤ crewDistance r bound b s ∧
        ∀ k, Useful k s → ¬ IsWatcher k e ∧ Useful k (next env s e) := by
  have hle : ∀ i, ¬ IsWatcher i e → watcherDistance bound b ((next env s e).proc.watcherLeaf i)
      ((next env s e).proc.watcher i) ≤
        watcherDistance bound b (s.proc.watcherLeaf i) (s.proc.watcher i) := fun i hown =>
    watcherDistance_le hq.running he hstop (hq.ne_spawnWatcher he i) hown hq.mem
  by_cases hown : ∃ j, IsWatcher j e
  · obtain ⟨j, we, rfl, hread⟩ := hown
    have hwe : Watcher.Enabled gitHubHandle
      ⟨s.db, s.proc.watcher j, s.proc.watcherLeaf j⟩ we := he
    have hj : j < r := (hq.watcher_lt h).mp (Startup.watcher_ne_off hwe).1
    refine Or.inl (crewDistance_lt hj ?_ fun i hij => hle i ?_)
    · obtain ⟨hpc, hleaf⟩ := watcher_own env s j we
      rw [hpc, hleaf]
      exact watcherDistance_lt hwe hread (fun hwe => hmove j (hwe ▸ rfl)) (hbound j) hq.mem
    · rintro ⟨we', hwe', _⟩
      cases hwe'
      exact hij rfl
  · refine Or.inr ⟨fun i => hle i (not_exists.mp hown i), fun k hk => ?_⟩
    exact ⟨not_exists.mp hown k, hk.kept h.booted he hstop hown⟩

theorem Queued.next (hq : Queued r b s) (he : Enabled env s e) (hstop : e ≠ .stop)
    (hmove : ∀ j, e ≠ .watcher j (.move b)) : Queued r b (next env s e) where
  up := scans_next hq.up he hstop
  runners := by
    have hstart : ∀ config threads, e ≠ .start config threads := by
      rintro config threads rfl
      exact hq.running he.1
    rw [Startup.config_next hstart hstop]
    exact hq.runners
  mem := by
    refine (branch_kept he hq.mem).resolve_right ?_
    rintro ⟨j, hj⟩
    exact hmove j hj

def EndsQueued (b : String) (e : Event) : Prop := e = .stop ∨ ∃ k, e = .watcher k (.move b)

theorem queued_step (hq : Queued r b s) (he : Enabled env s e) :
    EndsQueued b e ∨ Queued r b (Pipeline.next env s e) := by
  by_cases hgoal : EndsQueued b e
  · exact Or.inl hgoal
  · obtain ⟨hstop, hmove⟩ := not_or.mp hgoal
    exact Or.inr (hq.next he hstop (not_exists.mp hmove))

theorem crew_responds (env : Env) (r : ℕ) (b : String) {bound : Finset String}
    (hbound : ∀ s, WatchReady s → ∀ k, ∀ a ∈ (s.proc.watcherLeaf k).entries, a ∈ bound) :
    (machine env).Responds WatchReady (Queued r b) IsWatcher Useful (EndsQueued b)
      (crewDistance r bound b) where
  enabled _ _ h hq hk := useful_enabled h hq.mem hk
  step := by
    intro s e h hq he
    by_cases hgoal : EndsQueued b e
    · exact Or.inl hgoal
    · obtain ⟨hstop, hmove⟩ := not_or.mp hgoal
      have hmove := not_exists.mp hmove
      exact Or.inr ⟨hq.next he hstop hmove, crew_step (hbound s h) h hq he hstop hmove⟩

theorem branchKeys_finite : (Set.range SeriesId.toDecimal).Finite := Set.finite_range _

theorem watch_ready_run (ρ : (machine env).Run s₀) (h₀ : Initial s₀) (n : ℕ) :
    WatchReady (ρ.state n) := by
  have hx := ρ.execution n
  refine ⟨(Reporting.execution_traced hx h₀).1, ?_, Startup.execution_booted hx h₀⟩
  refine hx.invariant (I := fun s => ∀ k, WakeUp.WatcherSound s.db.branches (s.proc.watcher k))
    ?_ fun s e h he k => WakeUp.watcher_step h he
  rw [h₀.not_running]
  exact fun k w hw => by cases hw

/-- The branch is moved, or from some time on every watcher hangs. -/
theorem branch_taken (ρ : (machine env).Run s₀) (h₀ : Initial s₀)
    (hfair : ∀ k, ρ.Fair (IsWatcher k)) {n : ℕ} (hq : Queued r b (ρ.state n)) :
    ∃ m, n ≤ m ∧ (EndsQueued b (ρ.event m) ∨
      Queued r b (ρ.state m) ∧ ∀ l, m ≤ l → ∀ k < r, Hangs k (ρ.state l)) := by
  have hstays : ∀ m, n ≤ m →
      (∃ l, n ≤ l ∧ EndsQueued b (ρ.event l)) ∨ Queued r b (ρ.state m) := by
    intro m hm
    rcases ρ.stays (I := fun _ => True) (fun s e _ hq he => queued_step hq he) (fun _ => trivial)
      hm hq with ⟨l, hl, _, _, hends⟩ | hqm
    · exact Or.inl ⟨l, hl, hends⟩
    · exact Or.inr hqm
  by_cases hends : ∃ l, n ≤ l ∧ EndsQueued b (ρ.event l)
  · obtain ⟨l, hl, hends⟩ := hends
    exact ⟨l, hl, Or.inl hends⟩
  by_cases hnone : ∃ m, n ≤ m ∧ ∀ l, m ≤ l → ∀ k, ¬ Useful k (ρ.state l)
  · obtain ⟨m, hm, hnone⟩ := hnone
    have hqueued := fun l (hl : m ≤ l) => (hstays l (hm.trans hl)).resolve_left hends
    refine ⟨m, hm, Or.inr ⟨hqueued m le_rfl, fun l hl k hk => ?_⟩⟩
    by_contra hhangs
    exact hnone l hl k
      ⟨((hqueued l hl).watcher_lt (watch_ready_run ρ h₀ l)).mpr hk, hhangs⟩
  · push Not at hnone
    have hbound : ∀ s, WatchReady s → ∀ k, ∀ a ∈ (s.proc.watcherLeaf k).entries,
        a ∈ branchKeys_finite.toFinset := by
      intro s h k a ha
      obtain ⟨id, hid⟩ := h.ids.leaves k a ha
      exact (Set.Finite.mem_toFinset _).mpr ⟨id, hid.symm⟩
    exact absurd ((crew_responds env r b hbound).eventually ρ hfair (watch_ready_run ρ h₀)
      hnone hq) hends

end Crew

section Lone

/-- Where watcher 0 is the only one, what it has cloned and what it has in hand is queued. -/
structure Lone (s : State) : Prop where
  cached : Watchers.Cached s
  pursued : ∀ b, Pursues (s.proc.watcher 0) b → b ∈ s.db.branches (.queue gitHubHandle)

theorem lone_step (hlone : ∀ k, s.proc.watcher k ≠ .off → k = 0) (h : Lone s)
    (he : Enabled env s e) : Lone (next env s e) := by
  refine ⟨Watchers.cached_step hlone h.cached he, fun b hb => ?_⟩
  have hnames : RunnerStage.Names ((next env s e).proc.watcher 0) b := hb.imp_right Or.inl
  have hbefore : b ∈ s.db.branches (.queue gitHubHandle) ∧ e ≠ .watcher 0 (.move b) := by
    rcases RunnerStage.watcher_next he hnames with ⟨we, rfl, hen, hpc⟩ | ⟨hne, hpc⟩
    · rw [hpc] at hb hnames
      rcases RunnerStage.hand_cases hen hnames with ⟨rfl, _⟩ | ⟨rfl, hstarting⟩ | ⟨rfl, _⟩
      · exact ⟨h.cached.queued hlone he, by simp⟩
      · exact ⟨h.pursued b (Or.inl hstarting), by simp⟩
      · rcases hb with hb | hb <;> cases hb
    · exact ⟨h.pursued b (hpc ▸ hb), hne _⟩
  refine (branch_kept he hbefore.1).resolve_right ?_
  rintro ⟨k, rfl⟩
  have hmove : Watcher.Enabled gitHubHandle
    ⟨s.db, s.proc.watcher k, s.proc.watcherLeaf k⟩ (.move b) := he
  obtain rfl := hlone k (Startup.watcher_ne_off hmove).1
  exact hbefore.2 rfl

theorem execution_lone {tr : List Event} (hx : (machine env).Execution s₀ tr s)
    (h₀ : Initial s₀) : s.proc.main ≠ .off → s.proc.config.runners.length ≤ 1 → Lone s := by
  refine hx.history (I := fun _ s =>
    s.proc.main ≠ .off → s.proc.config.runners.length ≤ 1 → Lone s) ?_
    fun tr s e hx h he hrun hone => ?_
  · intro hrun
    rw [h₀.not_running] at hrun
    exact absurd rfl hrun
  · by_cases hstart : ∃ config threads, e = .start config threads
    · obtain ⟨config, threads, rfl⟩ := hstart
      constructor
      · exact fun b hb => absurd hb Finmap.notMem_empty
      · rintro b (hb | hb) <;> cases hb
    push Not at hstart
    have hstop : e ≠ .stop := by
      rintro rfl
      exact hrun rfl
    have hb := Startup.execution_booted hx h₀
    have hrun := Startup.running_before hb he hstart hrun
    have hconfig : (next env s e).proc.config = s.proc.config := Startup.config_next hstart hstop
    have hone : s.proc.config.runners.length ≤ 1 := hconfig ▸ hone
    refine lone_step (fun k hk => ?_) (h hrun hone) he
    have hlt : k < Startup.spawned s.proc := not_le.mp fun hle => hk (hb.watchers_off k hle)
    exact Nat.lt_one_iff.mp (hlt.trans_le (hb.spawned_le.trans hone))

end Lone

section Polling

open DispatchLiveness (IsWait task_steps)

variable {b : String}

theorem eq_spawn_of_spawning {db : Db} {leaf : KvTree.Leaf String String} {we : Watcher.Event}
    (he : Watcher.Enabled gitHubHandle ⟨db, .spawning b, leaf⟩ we) : we = .spawn b := by
  cases we with
  | spawn a =>
    rw [Watcher.Pc.spawning.inj he]
  | startWork => cases he
  | move => cases he.1
  | read | take | ends | wait =>
    obtain ⟨_, hpc, _⟩ := he
    cases hpc

theorem eq_progress_of_polling {t : Completion.Task} {we : Completion.Event}
    (hpc : t.pc = .polling) (he : Completion.Enabled t we) : ∃ jobs, we = .progress jobs := by
  cases we with
  | progress jobs => exact ⟨jobs, rfl⟩
  | report =>
    obtain ⟨_, _, hr⟩ := he
    cases hpc.symm.trans hr
  | again | settle =>
    obtain ⟨_, hr, _⟩ := he
    cases hpc.symm.trans hr
  | remove => cases hpc.symm.trans he

theorem task_spawned (ρ : (machine env).Run s₀) (h₀ : Initial s₀) (hfair : ρ.Fair (IsWatcher k))
    {n : ℕ} (hpc : (ρ.state n).proc.watcher k = .spawning b) :
    ∃ m, n ≤ m ∧ (ρ.event m = .watcher k (.spawn b) ∨ ρ.event m = .stop) := by
  have hkept : ∀ s e, Startup.Booted s.proc → s.proc.watcher k = .spawning b →
      Enabled env s e →
      (IsWatcher k e ∨ e = .stop) ∨ (next env s e).proc.watcher k = .spawning b := by
    intro s e hb hpc he
    have hon : s.proc.watcher k ≠ .off := by simp [hpc]
    rcases RunnerStage.spawning_kept he hpc with hkept | rfl | rfl | rfl | ⟨config, threads, rfl⟩
    · exact Or.inr hkept
    · exact Or.inl (Or.inl ⟨_, rfl, by simp⟩)
    · exact absurd rfl (ne_spawnWatcher hb he hon)
    · exact Or.inl (Or.inr rfl)
    · exact absurd he.1 (running_of_watcher hb hon)
  obtain ⟨m, hm, hpcm, ⟨we, hwe, _⟩ | hstop⟩ := ρ.happens hfair
    (fun s _ hpc => ⟨.watcher k (.spawn b), ⟨_, rfl, by simp⟩, hpc⟩) hkept
    (fun n => Startup.execution_booted (ρ.execution n) h₀) hpc
  · have hen : Enabled env (ρ.state m) (.watcher k we) := hwe ▸ ρ.enabled m
    have hen : Watcher.Enabled gitHubHandle
      ⟨(ρ.state m).db, .spawning b, (ρ.state m).proc.watcherLeaf k⟩ we := hpcm ▸ hen
    exact ⟨m, hm, Or.inl (hwe.trans (by rw [eq_spawn_of_spawning hen]))⟩
  · exact ⟨m, hm, Or.inr hstop⟩

theorem task_polls (ρ : (machine env).Run s₀) (h₀ : Initial s₀) {t : Completion.Task}
    (hfair : ρ.Fair (IsWait t)) {n : ℕ} (ht : t ∈ (ρ.state n).proc.waits)
    (hpc : t.pc = .polling) :
    ∃ m, n ≤ m ∧ ((∃ jobs, ρ.event m = .wait t (.progress jobs)) ∨ ρ.event m = .stop) := by
  obtain ⟨m, hm, _, ⟨we, hwe⟩ | hstop⟩ := task_steps ρ h₀ hfair ht
  · have hen := ρ.enabled m
    rw [hwe] at hen
    obtain ⟨jobs, rfl⟩ := eq_progress_of_polling hpc hen.2
    exact ⟨m, hm, Or.inl ⟨jobs, hwe⟩⟩
  · exact ⟨m, hm, Or.inr hstop⟩

def Asks (ρ : (machine env).Run s₀) (b : String) (n m : ℕ) : Prop :=
  ∃ k l jobs, n ≤ l ∧ l < m ∧ ρ.event l = .watcher k (.spawn b) ∧
    ρ.event m = .wait ⟨k, b, [], .polling⟩ (.progress jobs)

theorem branch_polled (ρ : (machine env).Run s₀) (h₀ : Initial s₀)
    (hwatchers : ∀ k, ρ.Fair (IsWatcher k)) (hwaits : ∀ t, ρ.Fair (IsWait t)) {n r : ℕ}
    (hq : Queued r b (ρ.state n)) : ∃ m, n ≤ m ∧ (ρ.event m = .stop ∨ Asks ρ b n m ∨
      Queued r b (ρ.state m) ∧ ∀ l, m ≤ l → ∀ k < r, Hangs k (ρ.state l)) := by
  obtain ⟨i, hi, (hstop | ⟨k, hmove⟩) | hhang⟩ := branch_taken ρ h₀ hwatchers hq
  · exact ⟨i, hi, Or.inl hstop⟩
  · have hpc : (ρ.state (i + 1)).proc.watcher k = .spawning b := by
      rw [ρ.step i, hmove]
      exact RunnerStage.watcher_move env _ k b
    obtain ⟨j, hj, hspawn | hstop⟩ := task_spawned ρ h₀ (hwatchers k) hpc
    · have hj : n ≤ j := hi.trans (Nat.le_of_succ_le hj)
      have htask : ⟨k, b, [], .polling⟩ ∈ (ρ.state (j + 1)).proc.waits := by
        rw [ρ.step j, hspawn]
        exact RunnerStage.mem_waits_spawn env _ k b
      obtain ⟨m, hm, ⟨jobs, hprogress⟩ | hstop⟩ := task_polls ρ h₀ (hwaits _) htask rfl
      · exact ⟨m, hj.trans (Nat.le_of_succ_le hm),
          Or.inr (Or.inl ⟨k, j, jobs, hj, hm, hspawn, hprogress⟩)⟩
      · exact ⟨m, hj.trans (Nat.le_of_succ_le hm), Or.inl hstop⟩
    · exact ⟨j, hi.trans (Nat.le_of_succ_le hj), Or.inl hstop⟩
  · exact ⟨i, hi, Or.inr (Or.inr hhang)⟩

/-- With one runner its watcher does not hang. -/
theorem lone_polled (ρ : (machine env).Run s₀) (h₀ : Initial s₀)
    (hwatchers : ∀ k, ρ.Fair (IsWatcher k)) (hwaits : ∀ t, ρ.Fair (IsWait t)) {n : ℕ}
    (hq : Queued 1 b (ρ.state n)) : ∃ m, n ≤ m ∧ (ρ.event m = .stop ∨ Asks ρ b n m) := by
  obtain ⟨m, hm, hstop | hasks | ⟨hqm, hhang⟩⟩ := branch_polled ρ h₀ hwatchers hwaits hq
  · exact ⟨m, hm, Or.inl hstop⟩
  · exact ⟨m, hm, Or.inr hasks⟩
  · obtain ⟨a, hmoving, hgone⟩ := hhang m le_rfl 0 Nat.one_pos
    have hlone := execution_lone (ρ.execution m) h₀ hqm.running hqm.runners.le
    exact absurd (hlone.pursued a (Or.inr hmoving)) hgone

/-- No branch is left in the queue. In a run in which no watcher and no task that polls is kept
from its steps, each branch that is in the queue once `main` scans is taken by a watcher, and
the task that this watcher spawns for it asks the runner, unless the process stops, or all its
watchers come to hang in `move_to_new_queue` for ever, which takes two runners. -/
theorem queued_branches_are_polled (ρ : (machine env).Run s₀) (h₀ : Initial s₀)
    (hwatchers : ∀ k, ρ.Fair (IsWatcher k)) (hwaits : ∀ t, ρ.Fair (IsWait t)) {n : ℕ}
    (hup : (ρ.state n).proc.main = .idle ∨ (ρ.state n).proc.main = .scanning)
    (hrunners : (ρ.state n).proc.config.runners ≠ [])
    (hb : b ∈ (ρ.state n).db.branches (.queue gitHubHandle)) :
    ∃ m, n ≤ m ∧ (ρ.event m = .stop ∨
      (∃ k l jobs, n ≤ l ∧ l < m ∧ ρ.event l = .watcher k (.spawn b) ∧
        ρ.event m = .wait ⟨k, b, [], .polling⟩ (.progress jobs)) ∨
      1 < (ρ.state n).proc.config.runners.length ∧
        ∀ l, m ≤ l → ∀ k < (ρ.state n).proc.config.runners.length, Hangs k (ρ.state l)) := by
  have hq : Queued (ρ.state n).proc.config.runners.length b (ρ.state n) := ⟨hup, rfl, hb⟩
  rcases (Nat.succ_le_of_lt (List.length_pos_iff.mpr hrunners)).eq_or_lt with hone | htwo
  · obtain ⟨m, hm, hends⟩ := lone_polled ρ h₀ hwatchers hwaits (hone ▸ hq)
    exact ⟨m, hm, hends.imp_right Or.inl⟩
  · obtain ⟨m, hm, hends⟩ := branch_polled ρ h₀ hwatchers hwaits hq
    exact ⟨m, hm, hends.imp_right (Or.imp_right fun h => ⟨htwo, h.2⟩)⟩

def testedTrace : List Event :=
  Sample.trace ++ [.ingest .ends, .ingest (.wait .register), .ingest (.wait .sleep),
    .watcher 0 .ends, .watcher 0 (.wait .register), .watcher 0 (.wait .sleep)]

theorem testedTrace_runs : (machine Sample.env).Runs Sample.state testedTrace := by
  refine Machine.runs_append.mpr ⟨Sample.runs, ⟨_, rfl, ?_⟩, ⟨_, rfl, rfl⟩, ⟨_, rfl, ?_, _, rfl⟩,
    ⟨_, rfl, ?_⟩, ⟨_, rfl, rfl⟩, ⟨_, rfl, ?_, _, rfl⟩, trivial⟩
  all_goals exact of_decide_eq_true rfl

def testedRun : (machine Sample.env).Run Sample.state :=
  testedTrace_runs.forever (.moveMaster _) trivial (moveMaster_same Sample.env _)

theorem testedRun_fair {A : Event → Prop}
    (hnone : ∀ e, A e →
      ¬ Enabled Sample.env ((machine Sample.env).run Sample.state testedTrace) e) :
    testedRun.Fair A :=
  testedTrace_runs.fair_forever (e := .moveMaster _) trivial (moveMaster_same Sample.env _) hnone

theorem watcher_asleep (h : s.proc.watcher k = .off ∨ s.proc.watcher k = .waiting (.blocked 0))
    (hown : IsWatcher k e) : ¬ Enabled env s e := by
  obtain ⟨we, rfl, _⟩ := hown
  intro he
  have he : Watcher.Enabled gitHubHandle ⟨s.db, s.proc.watcher k, s.proc.watcherLeaf k⟩ we := he
  rcases h with h | h
  · exact (Startup.watcher_ne_off he).1 h
  · rw [h] at he
    cases we with
    | wait e => cases e <;> simp [Watcher.Enabled, Waiting.Enabled] at he
    | _ => simp [Watcher.Enabled] at he

theorem testedRun_watchers (k : ℕ) : testedRun.Fair (IsWatcher k) := by
  refine testedRun_fair fun e hown => watcher_asleep ?_ hown
  cases k with
  | zero => exact Or.inr rfl
  | succ k => exact Or.inl rfl

theorem testedRun_waits (t : Completion.Task) : testedRun.Fair (IsWait t) := by
  have hwaits : ((machine Sample.env).run Sample.state testedTrace).proc.waits = [] := rfl
  refine testedRun_fair ?_
  rintro e ⟨we, rfl⟩ he
  exact List.not_mem_nil (hwaits ▸ he.1)

theorem queued_branches_are_polled_sample : ∃ m, 30 ≤ m ∧ (testedRun.event m = .stop ∨
    (∃ k l jobs, 30 ≤ l ∧ l < m ∧ testedRun.event l = .watcher k (.spawn "300") ∧
      testedRun.event m = .wait ⟨k, "300", [], .polling⟩ (.progress jobs)) ∨
    1 < 1 ∧ ∀ l, m ≤ l → ∀ k < 1, Hangs k (testedRun.state l)) :=
  queued_branches_are_polled (n := 30) testedRun Sample.state_initial testedRun_watchers
    testedRun_waits (Or.inr rfl) (List.cons_ne_nil _ _) (Finmap.mem_keys.mp (of_decide_eq_true rfl))

end Polling

end Snowpatch.WatcherLiveness
