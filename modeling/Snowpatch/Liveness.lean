import Snowpatch.LivePasses
import Snowpatch.WakeUp
import Snowpatch.Library.Consumer
import Mathlib.Data.Fintype.EquivFin

/-! What the loops come to if they are scheduled at all. Ingest is a consumer of its tree: each
series is come to and finished with, whatever else is inserted in the meantime, unless the
process ends before. -/
namespace Snowpatch.Liveness

open Pipeline LivePasses

variable {env : Env} {s s₀ : State}

/-- Only `main` itself moves, as long as the process goes on. -/
theorem main_next {e : Event} (he : Enabled env s e) (hrun : s.proc.main ≠ .off)
    (hstop : e ≠ .stop) :
    (∃ m, e = .main m) ∨ (next env s e).proc.main = s.proc.main := by
  cases e with
  | start config threads => exact absurd he.1 hrun
  | stop => exact absurd rfl hstop
  | main m => exact Or.inl ⟨m, rfl⟩
  | worker i id e =>
    obtain ⟨pc, hi, _⟩ := he
    obtain ⟨w, hw, _⟩ := workerNext_proc env id hi e
    exact Or.inr (by rw [hw])
  | watcher k e =>
    obtain ⟨w, hw, _⟩ := watcherNext_proc env s k e
    exact Or.inr (by rw [hw])
  | scan | ingest | begin | wait | dispatch | moveMaster | otherCheck => exact Or.inr rfl

theorem running_next {e : Event} (he : Enabled env s e) (hstop : e ≠ .stop)
    (hrun : s.proc.main ≠ .off) : (next env s e).proc.main ≠ .off := by
  rcases main_next he hrun hstop with ⟨m, rfl⟩ | hm
  · cases m with
    | insertRemote remote =>
      obtain ⟨k, r, hm, _⟩ := he
      simp [next, mainNext, hm]
    | smokeTest =>
      obtain ⟨k, hm⟩ := he
      simp [next, mainNext, hm]
    | initDone | spawnWatcher | connect | beginScan | endScan => simp [next, mainNext]
  · rwa [hm]

/-- Once `main` scans, it waits and scans until the process ends. -/
theorem scans_next {e : Event} (hup : s.proc.main = .idle ∨ s.proc.main = .scanning)
    (he : Enabled env s e) (hstop : e ≠ .stop) :
    (next env s e).proc.main = .idle ∨ (next env s e).proc.main = .scanning := by
  have hrun : s.proc.main ≠ .off := by
    rcases hup with hm | hm <;> simp [hm]
  rcases main_next he hrun hstop with ⟨m, rfl⟩ | hm
  · cases m with
    | insertRemote =>
      obtain ⟨k, r, hk, _⟩ := he
      rcases hup with hm | hm <;> cases hm.symm.trans hk
    | smokeTest =>
      obtain ⟨k, hk⟩ := he
      rcases hup with hm | hm <;> cases hm.symm.trans hk
    | spawnWatcher =>
      rcases hup with hm | hm <;> cases hm.symm.trans he.1
    | initDone | connect => rcases hup with hm | hm <;> cases hm.symm.trans he
    | beginScan => exact Or.inr rfl
    | endScan => exact Or.inl rfl
  · rw [hm]
    exact hup

section Ingest

def IsIngest (e : Event) : Prop :=
  ∃ ie, e = .ingest ie ∧ ∀ leaf, ie ≠ .read leaf false

def ingestPosition (leaf : KvTree.Leaf SeriesId Url) :
    Ingest.Pc → Machine.Position SeriesId Url
  | .iterate cursor => .iterating cursor leaf
  | .moving id => .passing id leaf 3
  | .spawning id => .passing id leaf 2
  | .waiting w => .resting w.left
  | .off | .initWorktrees => .resting 0

def IngestHolds (pc : Ingest.Pc) (id : SeriesId) : Prop := pc = .moving id ∨ pc = .spawning id

structure IngestReady (s : State) : Prop where
  discovery : GitStage.GitDiscovery (GitStage.view s)
  custody : GitStage.GitCustody (GitStage.view s)
  sound : WakeUp.IngestSound s.db.series s.proc.ingest
  booted : Startup.Booted s.proc

theorem ingestPosition_notify (leaf : KvTree.Leaf SeriesId Url) (pc : Ingest.Pc) :
    ingestPosition leaf pc.notify = ingestPosition leaf pc := by
  cases pc with
  | waiting w => exact congrArg Machine.Position.resting w.left_notify
  | off | initWorktrees | iterate | moving | spawning => rfl

theorem ingestHolds_notify {pc : Ingest.Pc} {id : SeriesId} (h : IngestHolds pc id) :
    pc.notify = pc := by
  rcases h with rfl | rfl <;> rfl

theorem ingest_pc_foreign {e : Event} (hrun : s.proc.main ≠ .off) (he : Enabled env s e)
    (hstop : e ≠ .stop) (hown : ∀ ie, e ≠ .ingest ie) :
    ((next env s e).proc.ingest = s.proc.ingest ∨
      (next env s e).proc.ingest = s.proc.ingest.notify) ∧
        (next env s e).proc.ingestLeaf = s.proc.ingestLeaf := by
  refine ingest_pc_next env s ?_ hown
  cases e with
  | start => exact absurd he.1 hrun
  | stop => exact absurd rfl hstop
  | ingest ie => exact absurd rfl (hown ie)
  | main | scan | begin | worker | watcher | wait | dispatch | moveMaster | otherCheck =>
    trivial

theorem ingest_ready (h : IngestReady s) (hrun : s.proc.main ≠ .off) {id : SeriesId}
    (hid : id ∈ s.db.series .needsTesting ∨ IngestHolds s.proc.ingest id) :
    ∃ e, IsIngest e ∧ Enabled env s e := by
  have hsound := h.sound
  have hmoving := h.custody.moving
  have hon := h.booted.ingest_on hrun
  have hen : ∃ ie, (∀ leaf, ie ≠ .read leaf false) ∧
      Ingest.Enabled ⟨s.db, s.proc.ingest, s.proc.pool, s.proc.ingestLeaf⟩ ie := by
    simp only [GitStage.view] at hmoving
    generalize s.proc.ingest = pc at hsound hmoving hon hid
    cases pc with
    | off => exact absurd rfl hon
    | initWorktrees => exact ⟨.ready, by simp, rfl⟩
    | iterate cursor =>
      rcases s.proc.ingestLeaf.ready (s.db.series .needsTesting) cursor with
        ⟨a, hnext⟩ | hreads | hend
      · exact ⟨.take a, by simp, cursor, rfl, hnext⟩
      · exact ⟨.read _ true, by simp, cursor, rfl, hreads⟩
      · exact ⟨.ends, by simp, cursor, rfl, hend⟩
    | moving a => exact ⟨.move a, by simp, rfl, hmoving a rfl⟩
    | spawning a => exact ⟨.spawn a, by simp, rfl⟩
    | waiting w =>
      have hne : ¬ KvTree.IsEmpty (s.db.series .needsTesting) := by
        intro hempty
        rcases hid with hid | hid | hid
        · exact KvTree.isEmpty_iff.mp hempty id hid
        · cases hid
        · cases hid
      obtain ⟨e, he⟩ := Waiting.exists_enabled (hsound w rfl) hne
      exact ⟨.wait e, by simp, w, rfl, he⟩
  obtain ⟨ie, hread, hie⟩ := hen
  exact ⟨.ingest ie, ⟨ie, rfl, hread⟩, hie⟩

theorem ingest_advance {ie : Ingest.Event} (he : Enabled env s (.ingest ie))
    (hread : ∀ leaf, ie ≠ .read leaf false) :
    Machine.Advance (s.db.series .needsTesting) (∀ id, ¬ IngestHolds s.proc.ingest id)
      (ingested (.ingest ie)) (ingestPosition s.proc.ingestLeaf s.proc.ingest)
      (ingestPosition (next env s (.ingest ie)).proc.ingestLeaf
        (next env s (.ingest ie)).proc.ingest) := by
  have he : Ingest.Enabled ⟨s.db, s.proc.ingest, s.proc.pool, s.proc.ingestLeaf⟩ ie := he
  change Machine.Advance _ _ _ _ (ingestPosition
    (Ingest.next ⟨s.db, s.proc.ingest, s.proc.pool, s.proc.ingestLeaf⟩ ie).leaf
    (Ingest.nextPc s.proc.ingest ie))
  generalize s.proc.ingest = pc at he
  cases ie with
  | ready =>
    obtain rfl : pc = .initWorktrees := he
    exact .again fun id => by simp [IngestHolds]
  | read leaf found =>
    obtain ⟨cursor, rfl, hreads⟩ := he
    cases found with
    | true => exact .read hreads
    | false => exact absurd rfl (hread leaf)
  | take a =>
    obtain ⟨cursor, rfl, hnext⟩ := he
    exact .yield hnext
  | ends =>
    obtain ⟨cursor, rfl, hend⟩ := he
    exact .finish hend
  | move a =>
    obtain ⟨rfl, _⟩ := he
    exact .work (by decide)
  | spawn a =>
    obtain rfl : pc = .spawning a := he
    exact .resume (by decide)
  | wait e =>
    obtain ⟨w, rfl, hen⟩ := he
    have hpos : ingestPosition .start (Ingest.nextPc (.waiting w) (.wait e)) =
        (w.next e).elim (.iterating ⊥ .start) fun w' => .resting w'.left := by
      cases hn : w.next e <;> simp [Ingest.nextPc, ingestPosition, hn]
    exact hpos ▸ Waiting.advance hen fun id => by simp [IngestHolds]

theorem ingest_idle {e : Event} (hrun : s.proc.main ≠ .off) (he : Enabled env s e)
    (hstop : e ≠ .stop) (hown : ¬ IsIngest e) : Machine.Idle (s.db.series .needsTesting)
      (ingestPosition s.proc.ingestLeaf s.proc.ingest)
      (ingestPosition (next env s e).proc.ingestLeaf (next env s e).proc.ingest) := by
  by_cases hingest : ∃ ie, e = .ingest ie
  · obtain ⟨ie, rfl⟩ := hingest
    obtain ⟨leaf, rfl⟩ : ∃ leaf, ie = .read leaf false := by
      by_contra hread
      exact hown ⟨ie, rfl, not_exists.mp hread⟩
    obtain ⟨cursor, hpc, hreads⟩ := he
    have hpc : s.proc.ingest = .iterate cursor := hpc
    have hpc' : (next env s (.ingest (.read leaf false))).proc.ingest = .iterate cursor := hpc
    rw [hpc, hpc']
    exact .skip hreads
  · obtain ⟨hpc | hpc, hleaf⟩ := ingest_pc_foreign hrun he hstop (not_exists.mp hingest)
    · rw [hpc, hleaf]
      exact .same
    · rw [hpc, hleaf, ingestPosition_notify]
      exact .same

theorem ingest_held {e : Event} {id : SeriesId} (hrun : s.proc.main ≠ .off)
    (he : Enabled env s e) (hstop : e ≠ .stop) (h : IngestHolds s.proc.ingest id) :
    IngestHolds (next env s e).proc.ingest id ∨ e = .ingest (.spawn id) := by
  by_cases hown : ∃ ie, e = .ingest ie
  · obtain ⟨ie, rfl⟩ := hown
    cases ie with
    | move a =>
      have hpc : s.proc.ingest = .moving a := he.1
      rcases h with h | h
      · obtain rfl := Ingest.Pc.moving.inj (hpc.symm.trans h)
        exact Or.inl (Or.inr rfl)
      · cases hpc.symm.trans h
    | spawn a =>
      have hpc : s.proc.ingest = .spawning a := he
      rcases h with h | h
      · cases hpc.symm.trans h
      · rw [Ingest.Pc.spawning.inj (hpc.symm.trans h)]
        exact Or.inr rfl
    | ready =>
      have hpc : s.proc.ingest = .initWorktrees := he
      rcases h with h | h <;> cases hpc.symm.trans h
    | read | take | ends =>
      obtain ⟨cursor, hpc, _⟩ := he
      rcases h with h | h <;> cases hpc.symm.trans h
    | wait we =>
      obtain ⟨w, hpc, _⟩ := he
      rcases h with h | h <;> cases hpc.symm.trans h
  · rcases (ingest_pc_foreign hrun he hstop (not_exists.mp hown)).1 with hpc | hpc
    · rw [hpc]
      exact Or.inl h
    · rw [hpc, ingestHolds_notify h]
      exact Or.inl h

def ingestConsumer (env : Env) :
    (machine env).Consumer SeriesId Url IngestReady (fun s => s.proc.main ≠ .off) where
  tree s := s.db.series .needsTesting
  position s := ingestPosition s.proc.ingestLeaf s.proc.ingest
  inHand s := IngestHolds s.proc.ingest
  own := IsIngest
  halts e := e = .stop
  yields := ingested
  finishes e id := e = .ingest (.spawn id)
  stays _ _ _ hrun he hstop := running_next he hstop hrun
  ready _ _ h hrun hid := ingest_ready h hrun hid
  advance := by
    rintro s e _ _ he _ ⟨ie, rfl, hread⟩
    have he : Enabled env s (.ingest ie) := he
    exact ingest_advance he hread
  foreign s e _ hrun he hstop hown := ingest_idle hrun he hstop hown
  yielded := by
    intro s e id h _ he hy
    cases e with
    | ingest ie => cases ie with
      | take a =>
        obtain rfl : a = id := Option.some.inj hy
        obtain ⟨cursor, hpc, hnext⟩ := he
        obtain ⟨hmem, hlt, _⟩ := KvTree.of_first_eq hnext
        have hlt : s.proc.ingest.cursor < (a : WithBot SeriesId) :=
          (congrArg Ingest.Pc.cursor hpc).trans_lt hlt
        exact h.custody.cloned a hmem hlt
      | ready | read | ends | move | spawn | wait => cases hy
    | _ => cases hy
  taken := by
    intro s e id _ _ _ hy
    cases e with
    | ingest ie => cases ie with
      | take a =>
        obtain rfl : a = id := Option.some.inj hy
        exact Or.inl rfl
      | ready | read | ends | move | spawn | wait => cases hy
    | _ => cases hy
  kept := by
    intro s e id _ _ he _ hid
    rcases mem_needsTesting_next he hid with hk | rfl
    · exact Or.inl hk
    · exact Or.inr (Or.inl (Or.inr rfl))
  held _ _ _ _ hrun he hstop h := ingest_held hrun he hstop h

instance : Finite SeriesId := by
  refine Finite.of_injective (fun id : SeriesId => id.val.toFin) ?_
  intro ⟨a⟩ ⟨b⟩ h
  exact congrArg SeriesId.mk (UInt64.toFin_inj.mp h)

theorem ingest_ready_run (ρ : (machine env).Run s₀) (h₀ : Initial s₀) (n : ℕ) :
    IngestReady (ρ.state n) := by
  have hx := ρ.execution n
  obtain ⟨hd, hc⟩ := GitStage.execution_git hx h₀
  refine ⟨hd, hc, ?_, Startup.execution_booted hx h₀⟩
  refine hx.invariant (I := fun s => WakeUp.IngestSound s.db.series s.proc.ingest) ?_
    fun s e h he => WakeUp.ingest_step h he
  rw [h₀.not_running]
  exact fun w hw => by cases hw

/-- No series starves. In a run in which ingest is not kept from its steps, each series that
is in "needs testing" while a process runs is handed to the git pool in the end, whatever the
watchcat queues in front of it, unless the process stops before. -/
theorem ingest_never_starves (ρ : (machine env).Run s₀) (h₀ : Initial s₀)
    (hfair : ρ.Fair IsIngest) {n : ℕ} (hrun : (ρ.state n).proc.main ≠ .off) {id : SeriesId}
    (hid : id ∈ (ρ.state n).db.series .needsTesting) :
    ∃ m, n ≤ m ∧ (ρ.event m = .ingest (.spawn id) ∨ ρ.event m = .stop) := by
  have := Fintype.ofFinite SeriesId
  exact (ingestConsumer env).eventually_finishes ρ hfair (ingest_ready_run ρ h₀) Finset.univ
    (fun _ _ => Finset.subset_univ _) hrun hid

/-- Somebody resets the local master branch to where it is. -/
theorem moveMaster_same (env : Env) (s : State) :
    (machine env).next s (.moveMaster s.git.master) = s := rfl

theorem ingest_asleep {s : State} (h : s.proc.ingest = .waiting (.blocked 0)) {e : Event}
    (hown : IsIngest e) : ¬ Enabled env s e := by
  obtain ⟨ie, rfl, _⟩ := hown
  intro he
  have he : Ingest.Enabled ⟨s.db, .waiting (.blocked 0), s.proc.pool, s.proc.ingestLeaf⟩ ie :=
    h ▸ he
  cases ie with
  | wait we => cases we <;> simp [Ingest.Enabled, Waiting.Enabled] at he
  | _ => simp [Ingest.Enabled] at he

end Ingest

end Snowpatch.Liveness
