import Snowpatch.Liveness
import Snowpatch.Recovery
import Mathlib.Data.Finite.Prod

/-! How a result gets to Patchwork if the dispatcher and the tasks that poll are scheduled at
all. The dispatcher is a consumer of "needs dispatch", and a task reports every finished run
that it is shown. -/
namespace Snowpatch.DispatchLiveness

open Pipeline LivePasses Liveness

variable {env : Env} {s s₀ : State}

section Consumer

open Dispatch (Pc)

/-- A step of the dispatcher. It passes an empty leaf for nothing. -/
def IsDispatch (e : Event) : Prop :=
  ∃ d, e = .dispatch d ∧ ∀ leaf, d ≠ .read leaf false

/-- The end of a process, or of its dispatcher by an error. -/
def EndsDispatch (e : Event) : Prop :=
  e = .stop ∨ ∃ id patch check, e = .dispatch (.postBreaks id patch check)

def dispatchPosition (leaf : KvTree.Leaf String RunnerResult) :
    Pc → Machine.Position String RunnerResult
  | .iterate cursor _ => .iterating cursor leaf
  | .sending key _ _ => .passing key leaf 4
  | .checking key _ _ _ _ => .passing key leaf 3
  | .posting key _ _ _ _ => .passing key leaf 2
  | .dropping keys => .resting (keys.length + 3)
  | .waiting w => .resting w.left
  | .off | .aborted => .resting 0

def entryKeys (names : Finset String) : Set String :=
  Set.image2 (fun id : SeriesId => dispatchKey gitHubHandle id.toDecimal) Set.univ names

theorem entryKeys_finite (names : Finset String) : (entryKeys names).Finite :=
  Set.finite_univ.image2 _ names.finite_toSet

/-- Nothing is dropped while there is a clone. -/
structure DispatchCloned (s : State) : Prop where
  stored : ∀ key ∈ s.proc.dispatchLeaf.entries, key ∈ s.db.needsDispatch
  dropping : ∀ keys, s.proc.dispatch = .dropping keys →
    ∀ key, key ∉ s.proc.dispatchLeaf.entries

structure DispatchReady (env : Env) (names : Finset String) (s : State) : Prop where
  entries : ∀ key ∈ s.db.needsDispatch, key ∈ entryKeys names
  sending : ∀ key job drop, s.proc.dispatch = .sending key job drop →
    ∃ handle id name patch, parseEntry key = some (handle, id, name) ∧
      env.lastPatch id = some patch
  sound : WakeUp.DispatchSound s.db.needsDispatch s.proc.dispatch
  booted : Startup.Booted s.proc
  cloned : DispatchCloned s

theorem dispatchPosition_notify (leaf : KvTree.Leaf String RunnerResult) (pc : Pc) :
    dispatchPosition leaf pc.notify = dispatchPosition leaf pc := by
  cases pc with
  | waiting w => exact congrArg Machine.Position.resting w.left_notify
  | off | iterate | sending | checking | posting | dropping | aborted => rfl

theorem up_running (hup : Recovery.Up s.proc) : s.proc.main ≠ .off := by
  rcases hup.1 with hm | hm <;> simp [hm]

theorem dispatch_pc_foreign {e : Event} (hup : Recovery.Up s.proc) (he : Enabled env s e)
    (hends : ¬ EndsDispatch e) (hown : ∀ d, e ≠ .dispatch d) :
    ((next env s e).proc.dispatch = s.proc.dispatch ∨
      (next env s e).proc.dispatch = s.proc.dispatch.notify) ∧
        (next env s e).proc.dispatchLeaf = s.proc.dispatchLeaf := by
  refine dispatch_pc_next env s ?_ hown
  cases e with
  | start => exact absurd he.1 (up_running hup)
  | stop => exact absurd (Or.inl rfl) hends
  | dispatch d => exact absurd rfl (hown d)
  | main e => cases e with
    | connect =>
      have hm : s.proc.main = .spawning s.proc.config.runners.length := he
      rcases hup.1 with h | h <;> cases hm.symm.trans h
    | insertRemote | smokeTest | initDone | spawnWatcher | beginScan | endScan => trivial
  | scan | ingest | begin | worker | watcher | wait | moveMaster | otherCheck => trivial

theorem drops_of_next {token : Option String} {lastPatch : SeriesId → Option PatchId}
    {a : Dispatch.State} {d : Dispatch.Event} (he : Dispatch.Enabled token lastPatch a d)
    {keys : List String} (h : Dispatch.nextPc a d = .dropping keys) :
    Dispatch.nextLeaf a.leaf d = .start ∨
      Dispatch.nextLeaf a.leaf d = a.leaf ∧ ∃ rest, a.pc = .dropping rest := by
  cases d with
  | ends => exact Or.inl rfl
  | wait => exact Or.inl rfl
  | drop key =>
    obtain ⟨rest, hpc⟩ := he
    exact Or.inr ⟨rfl, _, hpc⟩
  | dropped | postBreaks => cases h
  | read =>
    obtain ⟨cursor, drop, hpc, _⟩ := he
    simp [Dispatch.nextPc, hpc] at h
  | take key =>
    obtain ⟨cursor, drop, hpc, hnext⟩ := he
    obtain ⟨value, hv⟩ := Finmap.mem_iff.mp (KvTree.mem_of_first hnext)
    simp [Dispatch.nextPc, hpc, hv] at h
  | noToken =>
    obtain ⟨_, key, value, drop, hpc, _⟩ := he
    simp [Dispatch.nextPc, hpc] at h
  | getSeries patch =>
    obtain ⟨_, key, value, drop, handle, id, name, hpc, hparse, _⟩ := he
    simp [Dispatch.nextPc, hpc, hparse] at h
  | duplicate | unique =>
    obtain ⟨key, id, patch, result, drop, hpc, _⟩ := he
    simp [Dispatch.nextPc, hpc] at h
  | post =>
    obtain ⟨key, result, drop, hpc, _⟩ := he
    simp [Dispatch.nextPc, hpc] at h

theorem dropping_of_next {e : Event} (he : Enabled env s e) {keys : List String}
    (h : (next env s e).proc.dispatch = .dropping keys) :
    (next env s e).proc.dispatchLeaf = .start ∨
      (next env s e).proc.dispatchLeaf = s.proc.dispatchLeaf ∧
        ∃ rest, s.proc.dispatch = .dropping rest := by
  have hforeign : InDispatchPass e → (∀ d, e ≠ .dispatch d) →
      (next env s e).proc.dispatchLeaf = s.proc.dispatchLeaf ∧
        ∃ rest, s.proc.dispatch = .dropping rest := by
    intro hin hown
    obtain ⟨hpc | hpc, hleaf⟩ := dispatch_pc_next env s hin hown
    · exact ⟨hleaf, keys, hpc ▸ h⟩
    · rw [hpc] at h
      refine ⟨hleaf, keys, ?_⟩
      cases hd : s.proc.dispatch <;> simp_all [Pc.notify]
  cases e with
  | dispatch d => exact drops_of_next he h
  | start | stop => cases h
  | main e => cases e with
    | connect => cases h
    | insertRemote | smokeTest | initDone | spawnWatcher | beginScan | endScan =>
      exact Or.inr (hforeign trivial (by simp))
  | scan | ingest | begin | worker | watcher | wait | moveMaster | otherCheck =>
    exact Or.inr (hforeign trivial (by simp))

theorem dispatchCloned_next {e : Event} (h : DispatchCloned s) (he : Enabled env s e) :
    DispatchCloned (next env s e) := by
  constructor
  · intro key hkey
    obtain ⟨job, hjob⟩ := Finmap.mem_iff.mp hkey
    have hbefore : key ∈ s.db.needsDispatch := by
      rcases RunnerStage.lookup_dispatchLeaf_next he hjob with hold | hread
      · exact h.stored key (Finmap.mem_of_lookup_eq_some hold)
      · exact Finmap.mem_of_lookup_eq_some hread
    rcases mem_needsDispatch_next env (e := e) hbefore with hk | rfl
    · exact hk
    · obtain ⟨rest, hpc⟩ := he
      exact absurd hkey (h.dropping _ hpc key)
  · intro keys hpc key
    rcases dropping_of_next he hpc with hstart | ⟨hleaf, rest, hold⟩
    · rw [hstart]
      exact Finmap.notMem_empty
    · rw [hleaf]
      exact h.dropping rest hold key

theorem dispatch_advance {d : Dispatch.Event} (he : Enabled env s (.dispatch d))
    (hends : ¬ EndsDispatch (.dispatch d))
    (hread : ∀ leaf, d ≠ .read leaf false) :
    Machine.Advance s.db.needsDispatch (∀ key, key ∉ entriesRead s.proc.dispatch)
      (readKey (.dispatch d)) (dispatchPosition s.proc.dispatchLeaf s.proc.dispatch)
      (dispatchPosition (next env s (.dispatch d)).proc.dispatchLeaf
        (next env s (.dispatch d)).proc.dispatch) := by
  rw [next_dispatch]
  have he : Dispatch.Enabled s.proc.config.patchworkToken env.lastPatch
    ⟨s.db, s.checks, s.proc.dispatch, s.proc.dispatchLeaf⟩ d := he
  change Machine.Advance _ _ _ _
    (dispatchPosition (Dispatch.nextLeaf s.proc.dispatchLeaf d) (Dispatch.nextPc _ d))
  generalize s.proc.dispatch = pc at he
  cases d with
  | read leaf found =>
    obtain ⟨cursor, drop, rfl, hreads⟩ := he
    cases found with
    | true => exact .read hreads
    | false => exact absurd rfl (hread leaf)
  | take key =>
    obtain ⟨cursor, drop, rfl, hnext⟩ := he
    have hmem := KvTree.mem_of_first hnext
    obtain ⟨value, hv⟩ := Finmap.mem_iff.mp hmem
    simp only [Dispatch.nextPc, hv]
    exact .yield hnext
  | noToken =>
    obtain ⟨_, key, value, drop, rfl, _⟩ := he
    exact .resume (by decide)
  | getSeries patch =>
    obtain ⟨_, key, value, drop, handle, id, name, rfl, hparse, _⟩ := he
    simp only [Dispatch.nextPc, hparse]
    exact .work (Nat.lt_succ_self 3)
  | duplicate =>
    obtain ⟨key, id, patch, result, drop, rfl, _⟩ := he
    exact .resume (by decide)
  | unique =>
    obtain ⟨key, id, patch, result, drop, rfl, _⟩ := he
    exact .work (Nat.lt_succ_self 2)
  | post id patch check =>
    obtain ⟨key, result, drop, rfl, _⟩ := he
    exact .resume (by decide)
  | postBreaks id patch check => exact absurd (Or.inr ⟨id, patch, check, rfl⟩) hends
  | ends =>
    obtain ⟨cursor, drop, rfl, hend⟩ := he
    exact .finish hend
  | drop key =>
    obtain ⟨rest, rfl⟩ := he
    exact .rest (Nat.lt_succ_self _)
  | dropped =>
    obtain rfl : pc = .dropping [] := he
    exact .rest (Nat.lt_succ_self 2)
  | wait e =>
    obtain ⟨w, rfl, hen⟩ := he
    have hpos : dispatchPosition .start
        (Dispatch.nextPc ⟨s.db, s.checks, .waiting w, s.proc.dispatchLeaf⟩ (.wait e)) =
          (w.next e).elim (.iterating ⊥ .start) fun w' => .resting w'.left := by
      cases hn : w.next e <;> simp [Dispatch.nextPc, dispatchPosition, hn]
    exact hpos ▸ Waiting.advance hen fun key => List.not_mem_nil

theorem dispatch_idle {e : Event} (hup : Recovery.Up s.proc) (he : Enabled env s e)
    (hends : ¬ EndsDispatch e) (hown : ¬ IsDispatch e) : Machine.Idle s.db.needsDispatch
      (dispatchPosition s.proc.dispatchLeaf s.proc.dispatch)
      (dispatchPosition (next env s e).proc.dispatchLeaf (next env s e).proc.dispatch) := by
  by_cases hdispatch : ∃ d, e = .dispatch d
  · obtain ⟨d, rfl⟩ := hdispatch
    obtain ⟨leaf, rfl⟩ : ∃ leaf, d = .read leaf false := by
      by_contra hread
      exact hown ⟨d, rfl, not_exists.mp hread⟩
    obtain ⟨cursor, drop, hpc, hreads⟩ := he
    have hpc : s.proc.dispatch = .iterate cursor drop := hpc
    have hpc' : (next env s (.dispatch (.read leaf false))).proc.dispatch =
        .iterate cursor drop := hpc
    rw [hpc, hpc']
    exact .skip hreads
  · obtain ⟨hpc | hpc, hleaf⟩ := dispatch_pc_foreign hup he hends (not_exists.mp hdispatch)
    · rw [hpc, hleaf]
      exact .same
    · rw [hpc, hleaf, dispatchPosition_notify]
      exact .same

theorem entry_held {e : Event} {key : String} (hup : Recovery.Up s.proc)
    (he : Enabled env s e) (hends : ¬ EndsDispatch e) (h : key ∈ entriesRead s.proc.dispatch) :
    key ∈ entriesRead (next env s e).proc.dispatch ∨ e = .dispatch (.drop key) := by
  by_cases hown : ∃ d, e = .dispatch d
  · obtain ⟨d, rfl⟩ := hown
    cases d with
    | read | take | noToken | getSeries | duplicate | unique | post =>
      rcases dispatch_own_next (by trivial) he with ⟨cursor, drop, a, _, hpc, _, _, _, hread⟩ |
        ⟨_, _, _, hread⟩
      · rw [hread]
        rw [hpc] at h
        exact Or.inl (List.mem_append_left _ h)
      · rw [hread]
        exact Or.inl h
    | postBreaks id patch check => exact absurd (Or.inr ⟨id, patch, check, rfl⟩) hends
    | ends =>
      obtain ⟨cursor, drop, hpc, _⟩ := he
      have hpc : s.proc.dispatch = .iterate cursor drop := hpc
      rw [hpc] at h
      refine Or.inl ?_
      simp only [next_dispatch, Dispatch.nextPc, hpc]
      exact h
    | drop a =>
      obtain ⟨rest, hpc⟩ := he
      have hpc : s.proc.dispatch = .dropping (a :: rest) := hpc
      rw [hpc] at h
      rcases List.mem_cons.mp h with rfl | h
      · exact Or.inr rfl
      · refine Or.inl ?_
        simp only [next_dispatch, Dispatch.nextPc, hpc]
        exact h
    | dropped =>
      have hpc : s.proc.dispatch = .dropping [] := he
      rw [hpc] at h
      cases h
    | wait we =>
      obtain ⟨w, hpc, _⟩ := he
      have hpc : s.proc.dispatch = .waiting w := hpc
      rw [hpc] at h
      cases h
  · rcases (dispatch_pc_foreign hup he hends (not_exists.mp hown)).1 with hpc | hpc
    · exact Or.inl (hpc ▸ h)
    · rw [hpc, entriesRead_notify]
      exact Or.inl h

theorem dispatch_ne_aborted {token : Option String} {lastPatch : SeriesId → Option PatchId}
    {a : Dispatch.State} {d : Dispatch.Event} (he : Dispatch.Enabled token lastPatch a d)
    (hends : ¬ EndsDispatch (.dispatch d)) : Dispatch.nextPc a d ≠ .aborted := by
  cases d with
  | postBreaks id patch check => exact absurd (Or.inr ⟨id, patch, check, rfl⟩) hends
  | read =>
    obtain ⟨cursor, drop, hpc, _⟩ := he
    simp [Dispatch.nextPc, hpc]
  | take key =>
    obtain ⟨cursor, drop, hpc, hnext⟩ := he
    obtain ⟨value, hv⟩ := Finmap.mem_iff.mp (KvTree.mem_of_first hnext)
    simp [Dispatch.nextPc, hpc, hv]
  | noToken =>
    obtain ⟨_, key, value, drop, hpc, _⟩ := he
    simp [Dispatch.nextPc, hpc]
  | getSeries patch =>
    obtain ⟨_, key, value, drop, handle, id, name, hpc, hparse, _⟩ := he
    simp [Dispatch.nextPc, hpc, hparse]
  | duplicate | unique =>
    obtain ⟨key, id, patch, result, drop, hpc, _⟩ := he
    simp [Dispatch.nextPc, hpc]
  | post =>
    obtain ⟨key, result, drop, hpc, _⟩ := he
    simp [Dispatch.nextPc, hpc]
  | ends =>
    obtain ⟨cursor, drop, hpc, _⟩ := he
    simp [Dispatch.nextPc, hpc]
  | drop key =>
    obtain ⟨rest, hpc⟩ := he
    simp [Dispatch.nextPc, hpc]
  | dropped => simp [Dispatch.nextPc]
  | wait e =>
    obtain ⟨w, hpc, _⟩ := he
    cases hn : w.next e <;> simp [Dispatch.nextPc, hpc, hn]

theorem up_next {e : Event} (hup : Recovery.Up s.proc) (he : Enabled env s e)
    (hends : ¬ EndsDispatch e) : Recovery.Up (next env s e).proc := by
  refine ⟨scans_next hup.1 he fun hs => hends (Or.inl hs), fun hab => ?_⟩
  by_cases hown : ∃ d, e = .dispatch d
  · obtain ⟨d, rfl⟩ := hown
    exact dispatch_ne_aborted he hends hab
  · rcases (dispatch_pc_foreign hup he hends (not_exists.mp hown)).1 with hpc | hpc
    · exact hup.2 (hpc.symm.trans hab)
    · rw [hpc] at hab
      cases hd : s.proc.dispatch <;> simp [hd, Pc.notify] at hab
      exact hup.2 hd

theorem dispatch_ready {names : Finset String} (h : DispatchReady env names s)
    (hup : Recovery.Up s.proc) {key : String}
    (hkey : key ∈ s.db.needsDispatch ∨ key ∈ entriesRead s.proc.dispatch) :
    ∃ e, IsDispatch e ∧ Enabled env s e := by
  have hsound := h.sound
  have hsending := h.sending
  have hon := h.booted.dispatch_on hup.1
  have habort := hup.2
  have hen : ∃ d, (∀ leaf, d ≠ .read leaf false) ∧
      Dispatch.Enabled s.proc.config.patchworkToken env.lastPatch
        ⟨s.db, s.checks, s.proc.dispatch, s.proc.dispatchLeaf⟩ d := by
    generalize s.proc.dispatch = pc at hsound hsending hon habort hkey
    cases pc with
    | off => exact absurd rfl hon
    | aborted => exact absurd rfl habort
    | iterate cursor drop =>
      rcases s.proc.dispatchLeaf.ready s.db.needsDispatch cursor with
        ⟨a, hnext⟩ | hreads | hend
      · exact ⟨.take a, by simp, cursor, drop, rfl, hnext⟩
      · exact ⟨.read _ true, by simp, cursor, drop, rfl, hreads⟩
      · exact ⟨.ends, by simp, cursor, drop, rfl, hend⟩
    | sending a job drop =>
      obtain ⟨handle, id, name, patch, hparse, hlast⟩ := hsending a job drop rfl
      cases htoken : s.proc.config.patchworkToken with
      | none => exact ⟨.noToken, by simp, rfl, a, job, drop, rfl, by simp [hparse]⟩
      | some token =>
        exact ⟨.getSeries patch, by simp, rfl, a, job, drop, handle, id, name, rfl, hparse, hlast⟩
    | checking a id patch result drop =>
      by_cases hdup : Dispatch.IsDuplicate (s.checks patch) result
      · exact ⟨.duplicate, by simp, a, id, patch, result, drop, rfl, hdup⟩
      · exact ⟨.unique, by simp, a, id, patch, result, drop, rfl, hdup⟩
    | posting a id patch result drop =>
      exact ⟨.post id patch result.encode, by simp, a, result, drop, rfl, rfl⟩
    | dropping keys => cases keys with
      | nil => exact ⟨.dropped, by simp, rfl⟩
      | cons a rest => exact ⟨.drop a, by simp, rest, rfl⟩
    | waiting w =>
      have hne : ¬ KvTree.IsEmpty s.db.needsDispatch := by
        intro hempty
        rcases hkey with hkey | hkey
        · exact KvTree.isEmpty_iff.mp hempty key hkey
        · cases hkey
      obtain ⟨e, he⟩ := Waiting.exists_enabled (hsound w rfl) hne
      exact ⟨.wait e, by simp, w, rfl, he⟩
  obtain ⟨d, hread, hd⟩ := hen
  exact ⟨.dispatch d, ⟨d, rfl, hread⟩, hd⟩

def dispatchConsumer (env : Env) (names : Finset String) :
    (machine env).Consumer String RunnerResult (DispatchReady env names)
      (fun s => Recovery.Up s.proc) where
  tree s := s.db.needsDispatch
  position s := dispatchPosition s.proc.dispatchLeaf s.proc.dispatch
  inHand s key := key ∈ entriesRead s.proc.dispatch
  own := IsDispatch
  halts := EndsDispatch
  yields := readKey
  finishes e key := e = .dispatch (.drop key)
  stays _ _ _ hup he hends := up_next hup he hends
  ready _ _ h hup hkey := dispatch_ready h hup hkey
  advance := by
    rintro s e _ _ he hends ⟨d, rfl, hread⟩
    have he : Enabled env s (.dispatch d) := he
    exact dispatch_advance he hends hread
  foreign _ _ _ hup he hends hown := dispatch_idle hup he hends hown
  yielded := by
    intro s e key h _ he hy
    cases e with
    | dispatch d => cases d with
      | take a =>
        obtain rfl : a = key := Option.some.inj hy
        obtain ⟨cursor, drop, hpc, hnext⟩ := he
        exact h.cloned.stored a (KvTree.mem_of_first hnext)
      | _ => cases hy
    | _ => cases hy
  taken := by
    intro s e key _ _ he hy
    cases e with
    | dispatch d => cases d with
      | take a =>
        obtain rfl : a = key := Option.some.inj hy
        have he : Enabled env s (.dispatch (.take a)) := he
        rcases dispatch_own_next (by trivial) he with ⟨cursor, drop, b, hb, _, _, _, _, hread⟩ |
          ⟨hnone, _⟩
        · obtain rfl := Dispatch.Event.take.inj hb
          exact hread ▸ List.mem_append_right _ (List.mem_singleton_self a)
        · cases hnone
      | _ => cases hy
    | _ => cases hy
  kept := by
    intro s e key _ _ _ _ hkey
    exact (mem_needsDispatch_next env (e := e) hkey).imp_right Or.inr
  held _ _ _ _ hup he hends h := entry_held hup he hends h

/-- The jobs a run reports have names out of `names`, and Patchwork has a last patch for their
series. -/
def Known (env : Env) (names : Finset String) (e : Event) : Prop :=
  ∀ t job, e = .wait t (.report job) →
    job.name ∈ names ∧ ∀ id : SeriesId, t.branch = id.toDecimal → (env.lastPatch id).isSome

theorem isEntry_known {tr : List Event} {names : Finset String}
    (hknown : ∀ e ∈ tr, Known env names e) {key : String} {job : RunnerResult}
    (h : Reporting.IsEntry tr key job) : ∃ id : SeriesId, job.name ∈ names ∧
      key = dispatchKey gitHubHandle id.toDecimal job.name ∧
      parseEntry key = some (gitHubHandle, id, job.name) ∧ (env.lastPatch id).isSome := by
  obtain ⟨id, hparse, ⟨t, ht, hb, _⟩, hkey⟩ := h.parse
  obtain ⟨hname, hlast⟩ := hknown _ ht t job rfl
  exact ⟨id, hname, hkey, hparse, hlast id hb⟩

theorem dispatch_ready_run (ρ : (machine env).Run s₀) (h₀ : Initial s₀) {names : Finset String}
    (hknown : ∀ n, Known env names (ρ.event n)) (n : ℕ) :
    DispatchReady env names (ρ.state n) := by
  have hx := ρ.execution n
  have htr : ∀ e ∈ (List.range n).map ρ.event, Known env names e := by
    intro e he
    obtain ⟨m, _, rfl⟩ := List.mem_map.mp he
    exact hknown m
  have htraced := (Reporting.execution_traced hx h₀).2.1
  refine ⟨?_, ?_, ?_, Startup.execution_booted hx h₀, ?_⟩
  · intro key hkey
    obtain ⟨job, hjob⟩ := Finmap.mem_iff.mp hkey
    obtain ⟨id, hname, hk, _⟩ := isEntry_known htr (htraced.entries key job hjob)
    exact ⟨id, Set.mem_univ id, job.name, hname, hk.symm⟩
  · intro key job drop hpc
    obtain ⟨id, _, _, hparse, hlast⟩ := isEntry_known htr (htraced.sending key job drop hpc)
    obtain ⟨patch, hpatch⟩ := Option.isSome_iff_exists.mp hlast
    exact ⟨gitHubHandle, id, job.name, patch, hparse, hpatch⟩
  · refine hx.invariant (I := fun s => WakeUp.DispatchSound s.db.needsDispatch s.proc.dispatch)
      ?_ fun s e h he => WakeUp.dispatch_step h he
    rw [h₀.not_running]
    exact fun w hw => by cases hw
  · refine hx.invariant (I := DispatchCloned) ?_ fun s e h he => dispatchCloned_next h he
    constructor <;> simp [h₀.not_running, Process.stopped, KvTree.Leaf.start, Finmap.notMem_empty]

theorem entry_dropped (ρ : (machine env).Run s₀) (h₀ : Initial s₀) (hfair : ρ.Fair IsDispatch)
    {names : Finset String} (hknown : ∀ n, Known env names (ρ.event n)) {n : ℕ}
    (hup : Recovery.Up (ρ.state n).proc) {key : String}
    (hkey : key ∈ (ρ.state n).db.needsDispatch) :
    ∃ m, n ≤ m ∧ (EndsDispatch (ρ.event m) ∨ ρ.event m = .dispatch (.drop key)) := by
  have hbound : ∀ s, DispatchReady env names s →
      s.db.needsDispatch.keys ⊆ (entryKeys_finite names).toFinset := fun s h a ha =>
    (Set.Finite.mem_toFinset _).mpr (h.entries a (Finmap.mem_keys.mp ha))
  obtain ⟨m, hm, h⟩ := (dispatchConsumer env names).eventually_finishes ρ hfair
    (dispatch_ready_run ρ h₀ hknown) _ hbound hup hkey
  exact ⟨m, hm, h.symm⟩

theorem present_of_drop (ρ : (machine env).Run s₀) (h₀ : Initial s₀) {m : ℕ} {key : String}
    (hdrop : ρ.event m = .dispatch (.drop key))
    (hanswered : ∀ l < m, Delivery.Answered (ρ.state l) (ρ.event l)) :
    Delivery.Present env (ρ.state m).checks key := by
  have hen := ρ.enabled m
  rw [hdrop] at hen
  obtain ⟨rest, hpc⟩ := hen
  have hpc : (ρ.state m).proc.dispatch = .dropping (key :: rest) := hpc
  refine (Delivery.execution_answers (ρ.execution_restrict hanswered) h₀).dropping key ?_
  simp [RunnerStage.view, hpc, Delivery.keysToDrop]

/-- No result is put off for ever. In a run in which the dispatcher is not kept from its steps,
each entry that is in "needs dispatch" once `main` scans is dropped in the end, whatever the
runners report in the meantime, unless the process or a request of the dispatcher breaks. By
then its check is on Patchwork, if a token is configured and no request has broken. -/
theorem entries_never_starve (ρ : (machine env).Run s₀) (h₀ : Initial s₀)
    (hfair : ρ.Fair IsDispatch) {names : Finset String}
    (hknown : ∀ n, Known env names (ρ.event n)) {n : ℕ} (hup : Recovery.Up (ρ.state n).proc)
    {key : String} (hkey : key ∈ (ρ.state n).db.needsDispatch) :
    ∃ m, n ≤ m ∧ (EndsDispatch (ρ.event m) ∨ ρ.event m = .dispatch (.drop key) ∧
      ((∀ l < m, Delivery.Answered (ρ.state l) (ρ.event l)) →
        Delivery.Present env (ρ.state m).checks key)) := by
  obtain ⟨m, hm, hends | hdrop⟩ := entry_dropped ρ h₀ hfair hknown hup hkey
  · exact ⟨m, hm, Or.inl hends⟩
  · exact ⟨m, hm, Or.inr ⟨hdrop, fun hanswered => present_of_drop ρ h₀ hdrop hanswered⟩⟩

def sendingTrace : List Event :=
  Sample.trace ++ (Reporting.sampleSending ++
    [.dispatch .ends,
      .dispatch (.drop (dispatchKey gitHubHandle Sample.id.toDecimal Sample.job.name)),
      .dispatch .dropped, .dispatch (.wait .register), .dispatch (.wait .sleep)])

theorem sendingTrace_runs : (machine Sample.env).Runs Sample.state sendingTrace := by
  refine Machine.runs_append.mpr ⟨Sample.runs, Machine.runs_append.mpr
    ⟨Reporting.sampleSending_runs, ⟨_, _, rfl, ?_⟩, ⟨_, rfl⟩, rfl, ⟨_, rfl, rfl⟩,
      ⟨_, rfl, ?_, _, rfl⟩, trivial⟩⟩
  all_goals exact of_decide_eq_true rfl

theorem dispatch_asleep {s : State} (h : s.proc.dispatch = .waiting (.blocked 0)) {e : Event}
    (hown : IsDispatch e) : ¬ Enabled env s e := by
  obtain ⟨d, rfl, _⟩ := hown
  intro he
  have he : Dispatch.Enabled s.proc.config.patchworkToken env.lastPatch
    ⟨s.db, s.checks, .waiting (.blocked 0), s.proc.dispatchLeaf⟩ d := h ▸ he
  cases d with
  | wait we => cases we <;> simp [Dispatch.Enabled, Waiting.Enabled] at he
  | _ => simp [Dispatch.Enabled] at he

def sendingRun : (machine Sample.env).Run Sample.state :=
  sendingTrace_runs.forever (.moveMaster _) trivial (moveMaster_same Sample.env _)

theorem sendingRun_fair : sendingRun.Fair IsDispatch := by
  have hasleep : ((machine Sample.env).run Sample.state sendingTrace).proc.dispatch =
      .waiting (.blocked 0) := rfl
  exact sendingTrace_runs.fair_forever (e := .moveMaster _) trivial (moveMaster_same Sample.env _)
    fun _ hown => dispatch_asleep hasleep hown

theorem sendingRun_known (n : ℕ) : Known Sample.env {Sample.job.name} (sendingRun.event n) := by
  have hjobs : ∀ t job, Event.wait t (.report job) ∈ sendingTrace → job = Sample.job := by
    intro t job ht
    simp [sendingTrace, Sample.trace, Sample.boot, Sample.discover, Sample.ingest,
      Sample.gitWork, Sample.testing, Reporting.sampleSending] at ht
    exact ht.2
  exact sendingTrace_runs.forever_event (e := .moveMaster _) trivial
    (moveMaster_same Sample.env _) (fun e he t job hjob =>
      ⟨Finset.mem_singleton.mpr (congrArg RunnerResult.name (hjobs t job (hjob ▸ he))),
        fun _ _ => rfl⟩) (fun t job hjob => by cases hjob) n

theorem entries_never_starve_sample : ∃ m, 41 ≤ m ∧ (EndsDispatch (sendingRun.event m) ∨
    sendingRun.event m = .dispatch (.drop
      (dispatchKey gitHubHandle Sample.id.toDecimal Sample.job.name))) := by
  have hkey : dispatchKey gitHubHandle Sample.id.toDecimal Sample.job.name ∈
      ((machine Sample.env).run Sample.state (sendingTrace.take 41)).db.needsDispatch :=
    Finmap.mem_keys.mp (of_decide_eq_true rfl)
  obtain ⟨m, hm, h⟩ := entries_never_starve sendingRun Sample.state_initial sendingRun_fair
    sendingRun_known (n := 41) ⟨Or.inr rfl, fun h => by cases h⟩ hkey
  exact ⟨m, hm, h.imp_right And.left⟩

end Consumer

section Results

variable {tr : List Event}

def IsWait (t : Completion.Task) (e : Event) : Prop := ∃ we, e = .wait t we

theorem stored_or_dropped (hx : (machine env).Execution s₀ tr s) {id : SeriesId}
    {job : RunnerResult} (h : Reporting.Inserted tr id job) :
    dispatchKey gitHubHandle id.toDecimal job.name ∈ s.db.needsDispatch ∨
      Event.dispatch (.drop (dispatchKey gitHubHandle id.toDecimal job.name)) ∈ tr := by
  obtain ⟨t, ht, hb, hnew⟩ := h
  obtain ⟨pre, post, u, rfl, _, _, hpost⟩ := hx.occurrence ht
  have hinserted : dispatchKey gitHubHandle id.toDecimal job.name ∈
      (next env u (.wait t (.report job))).db.needsDispatch := by
    simp [next, waitNext, Completion.nextDb, hnew, hb]
  have hkept : dispatchKey gitHubHandle id.toDecimal job.name ∈ s.db.needsDispatch ∨
      Event.dispatch (.drop (dispatchKey gitHubHandle id.toDecimal job.name)) ∈ post := by
    refine hpost.history (I := fun tr s =>
      dispatchKey gitHubHandle id.toDecimal job.name ∈ s.db.needsDispatch ∨
        Event.dispatch (.drop (dispatchKey gitHubHandle id.toDecimal job.name)) ∈ tr)
      (Or.inl hinserted) fun tr s e _ h _ => ?_
    rcases h with h | h
    · rcases mem_needsDispatch_next env (e := e) h with hk | rfl
      · exact Or.inl hk
      · exact Or.inr (by simp)
    · exact Or.inr (List.mem_append_left _ h)
  exact hkept.imp_right fun h => List.mem_append_right _ (List.mem_cons_of_mem _ h)

theorem completed_next {t t' : Completion.Task} {e : Completion.Event}
    (h : Completion.next t e = some t') : t'.completed = t.completed ∨
      ∃ job, e = .report job ∧ job.name ∉ t.completed ∧
        t'.completed = t.completed ++ [job.name] := by
  cases e with
  | progress | again | settle =>
    obtain rfl := Option.some.inj h
    exact Or.inl rfl
  | report job =>
    simp only [Completion.next] at h
    split at h
    · split at h
      · obtain rfl := Option.some.inj h
        exact Or.inl rfl
      · next hnew =>
        obtain rfl := Option.some.inj h
        exact Or.inr ⟨job, rfl, hnew, rfl⟩
    · obtain rfl := Option.some.inj h
      exact Or.inl rfl
  | remove => cases h

theorem execution_completed (hx : (machine env).Execution s₀ tr s) (h₀ : Initial s₀) :
    ∀ t ∈ s.proc.waits, ∀ name ∈ t.completed, ∃ id job, t.branch = SeriesId.toDecimal id ∧
      Reporting.Inserted tr id job ∧ job.name = name := by
  refine hx.history (I := fun tr s => ∀ t ∈ s.proc.waits, ∀ name ∈ t.completed, ∃ id job,
    t.branch = SeriesId.toDecimal id ∧ Reporting.Inserted tr id job ∧ job.name = name) ?_
    fun tr s e hx h he t ht name hname => ?_
  · simp [h₀.not_running, Process.stopped]
  · have hold : ∀ u ∈ s.proc.waits, name ∈ u.completed → u.branch = t.branch →
        ∃ id job, t.branch = SeriesId.toDecimal id ∧ Reporting.Inserted (tr ++ [e]) id job ∧
          job.name = name := by
      intro u hu hname hb
      obtain ⟨id, job, hid, hins, hj⟩ := h u hu name hname
      exact ⟨id, job, hb ▸ hid, hins.append, hj⟩
    rcases RunnerStage.mem_waits_next ht with ht | ⟨k, b, rfl, rfl⟩ | ⟨u, we, rfl, hn⟩
    · exact hold t ht hname rfl
    · cases hname
    · have hb : u.branch = t.branch := (Completion.next_same hn).2.symm
      rcases completed_next hn with hsame | ⟨job, rfl, hnew, hcompleted⟩
      · exact hold u he.1 (hsame ▸ hname) hb
      · rw [hcompleted] at hname
        rcases List.mem_append.mp hname with hname | hname
        · exact hold u he.1 hname hb
        · obtain ⟨id, hid⟩ := (Reporting.execution_traced hx h₀).1.waits u he.1
          exact ⟨id, job, hb ▸ hid, ⟨u, by simp, hid, hnew⟩, (List.mem_singleton.mp hname).symm⟩

theorem exists_completion_enabled (t : Completion.Task) : ∃ we, Completion.Enabled t we := by
  cases hpc : t.pc with
  | polling => exact ⟨.progress [], hpc⟩
  | removing => exact ⟨.remove, hpc⟩
  | reporting jobs todo => cases todo with
    | cons job rest => exact ⟨.report job, jobs, rest, hpc⟩
    | nil =>
      by_cases hall : jobs.length = (Completion.finished jobs).length
      · exact ⟨.settle, jobs, hpc, hall⟩
      · exact ⟨.again, jobs, hpc, hall⟩

theorem task_steps (ρ : (machine env).Run s₀) (h₀ : Initial s₀) {t : Completion.Task}
    (hfair : ρ.Fair (IsWait t)) {n : ℕ} (ht : t ∈ (ρ.state n).proc.waits) :
    ∃ m, n ≤ m ∧ t ∈ (ρ.state m).proc.waits ∧ (IsWait t (ρ.event m) ∨ ρ.event m = .stop) := by
  have hkept : ∀ s e, Startup.Booted s.proc → t ∈ s.proc.waits → Enabled env s e →
      (IsWait t e ∨ e = .stop) ∨ t ∈ (next env s e).proc.waits := by
    intro s e hb ht he
    rcases RunnerStage.mem_waits_kept env e ht with hk | ⟨we, rfl, _⟩ | rfl | ⟨config, threads, rfl⟩
    · exact Or.inr hk
    · exact Or.inl (Or.inl ⟨we, rfl⟩)
    · exact Or.inl (Or.inr rfl)
    · rw [hb.off_stopped he.1] at ht
      cases ht
  refine ρ.happens hfair (fun s _ ht => ?_) hkept
    (fun n => Startup.execution_booted (ρ.execution n) h₀) ht
  obtain ⟨we, hwe⟩ := exists_completion_enabled t
  exact ⟨.wait t we, ⟨we, rfl⟩, ht, hwe⟩

theorem eq_report_of_todo {t : Completion.Task} {jobs rest : List RunnerResult}
    {a : RunnerResult} {we : Completion.Event} (hpc : t.pc = .reporting jobs (a :: rest))
    (he : Completion.Enabled t we) : we = .report a := by
  cases we with
  | report b =>
    obtain ⟨_, _, hb⟩ := he
    cases hpc.symm.trans hb
    rfl
  | progress | remove => cases hpc.symm.trans he
  | again | settle =>
    obtain ⟨_, hnil, _⟩ := he
    cases hpc.symm.trans hnil

theorem next_report {t : Completion.Task} {jobs rest : List RunnerResult} {a : RunnerResult}
    (hpc : t.pc = .reporting jobs (a :: rest)) : ∃ t', Completion.next t (.report a) = some t' ∧
      t'.pc = .reporting jobs rest ∧ t'.branch = t.branch := by
  by_cases ha : a.name ∈ t.completed
  · exact ⟨{ t with pc := .reporting jobs rest }, by simp [Completion.next, hpc, ha], rfl, rfl⟩
  · exact ⟨{ t with completed := t.completed ++ [a.name], pc := .reporting jobs rest },
      by simp [Completion.next, hpc, ha], rfl, rfl⟩

theorem job_reported (ρ : (machine env).Run s₀) (h₀ : Initial s₀)
    (hfair : ∀ t, ρ.Fair (IsWait t)) {jobs todo : List RunnerResult} {job : RunnerResult}
    (hj : job ∈ todo) {n : ℕ} {t : Completion.Task} (hpc : t.pc = .reporting jobs todo)
    (ht : t ∈ (ρ.state n).proc.waits) :
    ∃ m, n ≤ m ∧ ((∃ u, u.branch = t.branch ∧ ρ.event m = .wait u (.report job)) ∨
      ρ.event m = .stop) := by
  induction todo generalizing n t with
  | nil => cases hj
  | cons a rest ih =>
    obtain ⟨m, hm, htm, ⟨we, he⟩ | hstop⟩ := task_steps ρ h₀ (hfair t) ht
    · have hen := ρ.enabled m
      rw [he] at hen
      obtain rfl := eq_report_of_todo hpc hen.2
      rcases List.mem_cons.mp hj with rfl | hj
      · exact ⟨m, hm, Or.inl ⟨t, rfl, he⟩⟩
      · obtain ⟨t', hnext, hpc', hb⟩ := next_report hpc
        have ht' : t' ∈ (ρ.state (m + 1)).proc.waits := by
          rw [ρ.step m, he]
          exact List.mem_append_left _ (by simp [hnext])
        obtain ⟨l, hl, ⟨u, hu, hreport⟩ | hstop⟩ := ih hj hpc' ht'
        · exact ⟨l, hm.trans (Nat.le_of_succ_le hl), Or.inl ⟨u, hu.trans hb, hreport⟩⟩
        · exact ⟨l, hm.trans (Nat.le_of_succ_le hl), Or.inr hstop⟩
    · exact ⟨m, hm, Or.inr hstop⟩

theorem up_stays {e : Event} (hup : Recovery.Up s.proc) (he : Enabled env s e) :
    EndsDispatch e ∨ Recovery.Up (next env s e).proc := by
  by_cases hends : EndsDispatch e
  · exact Or.inl hends
  · exact Or.inr (up_next hup he hends)

theorem stop_of_ends {e : Event} (hends : EndsDispatch e) (hanswered : Delivery.Answered s e) :
    e = .stop := by
  rcases hends with hstop | ⟨id, patch, check, rfl⟩
  · exact hstop
  · exact hanswered.elim

theorem up_until (ρ : (machine env).Run s₀)
    (hanswered : ∀ n, Delivery.Answered (ρ.state n) (ρ.event n)) {n m : ℕ} (hm : n ≤ m)
    (hup : Recovery.Up (ρ.state n).proc) :
    (∃ l, n ≤ l ∧ ρ.event l = .stop) ∨ Recovery.Up (ρ.state m).proc := by
  rcases ρ.stays (I := fun _ => True) (fun s e _ => up_stays) (fun _ => trivial) hm hup with
    ⟨l, hl, _, _, hends⟩ | hupm
  · exact Or.inl ⟨l, hl, stop_of_ends hends (hanswered l)⟩
  · exact Or.inr hupm

/-- A job that is reported has a check in the end, from this report or an earlier one. -/
theorem report_delivered (ρ : (machine env).Run s₀) (h₀ : Initial s₀)
    (hdispatch : ρ.Fair IsDispatch) {names : Finset String}
    (hknown : ∀ n, Known env names (ρ.event n))
    (hanswered : ∀ n, Delivery.Answered (ρ.state n) (ρ.event n)) {n : ℕ}
    (hup : Recovery.Up (ρ.state n).proc) {t : Completion.Task} {job : RunnerResult}
    (hreport : ρ.event n = .wait t (.report job)) : ∃ m, n ≤ m ∧ (ρ.event m = .stop ∨
      ∃ id : SeriesId, t.branch = id.toDecimal ∧ Delivery.Present env (ρ.state m).checks
        (dispatchKey gitHubHandle id.toDecimal job.name)) := by
  have hen : Enabled env (ρ.state n) (.wait t (.report job)) := hreport ▸ ρ.enabled n
  obtain ⟨id, hid⟩ := (Reporting.execution_traced (ρ.execution n) h₀).1.waits t hen.1
  obtain ⟨l, hl, job', hname, hins⟩ : ∃ l, n ≤ l ∧ ∃ job' : RunnerResult, job'.name = job.name ∧
      Reporting.Inserted ((List.range l).map ρ.event) id job' := by
    by_cases hnew : job.name ∈ t.completed
    · obtain ⟨id', job', hid', hins, hname⟩ :=
        execution_completed (ρ.execution n) h₀ t hen.1 job.name hnew
      obtain rfl := toDecimal_inj.mp (hid.symm.trans hid')
      exact ⟨n, le_rfl, job', hname, hins⟩
    · refine ⟨n + 1, Nat.le_succ n, job, rfl, t, ?_, hid, hnew⟩
      exact List.mem_map.mpr ⟨n, List.mem_range.mpr (Nat.lt_succ_self n), hreport⟩
  rcases stored_or_dropped (ρ.execution l) hins with hstored | hdropped
  · rcases up_until ρ hanswered hl hup with ⟨j, hj, hstop⟩ | hupl
    · exact ⟨j, hj, Or.inl hstop⟩
    obtain ⟨j, hj, hends | hdrop⟩ := entry_dropped ρ h₀ hdispatch hknown hupl hstored
    · exact ⟨j, hl.trans hj, Or.inl (stop_of_ends hends (hanswered j))⟩
    · exact ⟨j, hl.trans hj, Or.inr ⟨id, hid,
        hname ▸ present_of_drop ρ h₀ hdrop fun k _ => hanswered k⟩⟩
  · refine ⟨l, hl, Or.inr ⟨id, hid, ?_⟩⟩
    have hanswers := Delivery.execution_answers
      (ρ.execution_restrict fun k (_ : k < l) => hanswered k) h₀
    exact hname ▸ hanswers.dropped _ hdropped

theorem asked_reports (ρ : (machine env).Run s₀) {n : ℕ} {t : Completion.Task}
    {jobs : List RunnerResult} (hprogress : ρ.event n = .wait t (.progress jobs)) :
    { t with pc := .reporting jobs (Completion.finished jobs) } ∈
      (ρ.state (n + 1)).proc.waits := by
  rw [ρ.step n, hprogress]
  exact List.mem_cons_self

/-- What GitHub has shown gets to Patchwork. In a run in which neither the dispatcher nor the
tasks that poll are kept from their steps, and in which no request of the dispatcher breaks,
each finished run in an answer of `get_progress` has a check with its context in the end, on
the last patch of the series that was polled for, unless the process stops. -/
theorem results_are_delivered (ρ : (machine env).Run s₀) (h₀ : Initial s₀)
    (hdispatch : ρ.Fair IsDispatch) (hwaits : ∀ t, ρ.Fair (IsWait t)) {names : Finset String}
    (hknown : ∀ n, Known env names (ρ.event n))
    (hanswered : ∀ n, Delivery.Answered (ρ.state n) (ρ.event n)) {n : ℕ}
    (hup : Recovery.Up (ρ.state n).proc) {t : Completion.Task} {jobs : List RunnerResult}
    (hprogress : ρ.event n = .wait t (.progress jobs)) {job : RunnerResult} (hj : job ∈ jobs)
    (hfin : job.isFinished = true) : ∃ m, n ≤ m ∧ (ρ.event m = .stop ∨
      ∃ id : SeriesId, t.branch = id.toDecimal ∧ Delivery.Present env (ρ.state m).checks
        (dispatchKey gitHubHandle id.toDecimal job.name)) := by
  obtain ⟨m, hm, ⟨u, hu, hreport⟩ | hstop⟩ := job_reported ρ h₀ hwaits
    (List.mem_filter.mpr ⟨hj, hfin⟩) rfl (asked_reports ρ hprogress)
  · have hm : n ≤ m := Nat.le_of_succ_le hm
    rcases up_until ρ hanswered hm hup with ⟨l, hl, hstop⟩ | hupm
    · exact ⟨l, hl, Or.inl hstop⟩
    obtain ⟨l, hl, hdelivered⟩ :=
      report_delivered ρ h₀ hdispatch hknown hanswered hupm hreport
    exact ⟨l, hm.trans hl, hu ▸ hdelivered⟩
  · exact ⟨m, Nat.le_of_succ_le hm, Or.inl hstop⟩

theorem results_are_delivered_sample : ∃ m, 37 ≤ m ∧ (sendingRun.event m = .stop ∨
    ∃ id : SeriesId, "300" = id.toDecimal ∧ Delivery.Present Sample.env
      (sendingRun.state m).checks (dispatchKey gitHubHandle id.toDecimal Sample.job.name)) := by
  have hwaits : ((machine Sample.env).run Sample.state sendingTrace).proc.waits = [] := rfl
  have hanswered : ((machine Sample.env).restrict Delivery.Answered).Runs Sample.state
      sendingTrace :=
    sendingTrace_runs.restrict (by simp [sendingTrace, Sample.trace, Sample.boot,
      Sample.discover, Sample.ingest, Sample.gitWork, Sample.testing, Reporting.sampleSending,
      Delivery.Answered, Sample.config])
  refine results_are_delivered (n := 37) (t := ⟨0, "300", [], .polling⟩) sendingRun
    Sample.state_initial sendingRun_fair (fun t => ?_) sendingRun_known
    (sendingTrace_runs.forever_restrict hanswered (e := .moveMaster _) trivial
      (moveMaster_same Sample.env _) trivial)
    ⟨Or.inr rfl, fun h => by cases h⟩ rfl (List.mem_singleton_self Sample.job) rfl
  refine sendingTrace_runs.fair_forever (e := .moveMaster _) trivial
    (moveMaster_same Sample.env _) ?_
  rintro e ⟨we, rfl⟩ he
  have ht : t ∈ ((machine Sample.env).run Sample.state sendingTrace).proc.waits := he.1
  rw [hwaits] at ht
  cases ht

end Results

end Snowpatch.DispatchLiveness
