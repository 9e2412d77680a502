import Mathlib.Algebra.BigOperators.Group.Finset.Basic
import Mathlib.Algebra.Order.BigOperators.Group.Finset
import Mathlib.Tactic.Abel
import Mathlib.Tactic.IntervalCases
import Snowpatch.Library.Machine

/-! The global thread pool. `main` spawns the loops on it in a fixed order and issues the
`par_iter` of a scan to it, unless the page is too short to be split; the watchers spawn a
`wait_for_completion` for each branch. A thread runs what it has picked up until that returns.
While it waits for parts of a `par_iter` that another thread has taken it may pick up any
pending work on top. -/
namespace Snowpatch.ThreadPool

inductive Loop where
  | ingest
  | watcher (k : ℕ)
  | dispatch
  deriving DecidableEq, Repr

/-- Whatever needs a thread; a part of a `par_iter` names the frame that has split it off. -/
inductive Work where
  | loop (l : Loop)
  | wait (k : ℕ) (branch : String)
  | scan
  | part (parent : ℕ)
  deriving DecidableEq, Repr

def Work.isLoop : Work → Bool
  | .loop _ => true
  | .wait _ _ | .scan | .part _ => false

/-- A call on the stack of a thread, with the number of its parts that have not returned. -/
structure Frame where
  id : ℕ
  work : Work
  parts : ℕ
  deriving DecidableEq, Repr

inductive MainPc where
  | start
  | spawning (k : ℕ)
  | idle
  | scanning
  deriving DecidableEq, Repr

structure State where
  main : MainPc
  pending : List Work
  stack : ℕ → List Frame
  calls : ℕ

inductive Event where
  | spawnIngest
  | spawnWatcher (k : ℕ)
  | spawnDispatch
  | beginScan (length : ℕ)
  | endScan
  | run (i : ℕ) (w : Work)
  | spawnWait (i k : ℕ) (branch : String)
  | split (i : ℕ)
  | ret (i : ℕ)
  deriving DecidableEq, Repr

def initial : State := ⟨.start, [], fun _ => [], 0⟩

def Free : List Frame → Prop
  | [] => True
  | f :: _ => 0 < f.parts

variable (n r : ℕ)

def Enabled (s : State) : Event → Prop
  | .spawnIngest => s.main = .start
  | .spawnWatcher k => s.main = .spawning k ∧ k < r
  | .spawnDispatch => s.main = .spawning r
  | .beginScan _ => s.main = .idle
  | .endScan => s.main = .scanning ∧ .scan ∉ s.pending ∧
      ∀ i < n, ∀ f ∈ s.stack i, f.work ≠ .scan
  | .run i w => i < n ∧ w ∈ s.pending ∧ Free (s.stack i)
  | .spawnWait i k _ => i < n ∧ ∃ f rest, s.stack i = f :: rest ∧ f.work = .loop (.watcher k)
  | .split i => i < n ∧ ∃ f rest, s.stack i = f :: rest ∧ f.work.isLoop = false
  | .ret i => i < n ∧ ∃ f rest, s.stack i = f :: rest ∧ f.work.isLoop = false ∧ f.parts = 0

/-- A part has returned to the frame it was split off from. -/
def joined (w : Work) (stack : ℕ → List Frame) : ℕ → List Frame :=
  match w with
  | .part parent => fun i => (stack i).map fun f =>
      if f.id = parent then { f with parts := f.parts - 1 } else f
  | .loop _ | .wait _ _ | .scan => stack

def next (s : State) : Event → State
  | .spawnIngest => { s with main := .spawning 0, pending := s.pending ++ [.loop .ingest] }
  | .spawnWatcher k =>
    { s with main := .spawning (k + 1), pending := s.pending ++ [.loop (.watcher k)] }
  | .spawnDispatch => { s with main := .idle, pending := s.pending ++ [.loop .dispatch] }
  | .beginScan length =>
    { s with
      main := .scanning
      pending := if 2 ≤ length then s.pending ++ [.scan] else s.pending }
  | .endScan => { s with main := .idle }
  | .run i w =>
    { s with
      pending := s.pending.erase w
      stack := Function.update s.stack i (⟨s.calls, w, 0⟩ :: s.stack i)
      calls := s.calls + 1 }
  | .spawnWait _ k branch => { s with pending := s.pending ++ [.wait k branch] }
  | .split i => match s.stack i with
    | f :: rest =>
      { s with
        pending := s.pending ++ [.part f.id]
        stack := Function.update s.stack i ({ f with parts := f.parts + 1 } :: rest) }
    | [] => s
  | .ret i => match s.stack i with
    | f :: rest => { s with stack := joined f.work (Function.update s.stack i rest) }
    | [] => s

def machine : Machine State Event := ⟨Enabled n r, next⟩

/-- Every thread is held by a loop, and some work waits for a thread. -/
def Exhausted (s : State) : Prop :=
  (∀ i < n, ∃ f ∈ s.stack i, f.work.isLoop) ∧ s.pending ≠ []

section Count

def held (stack : ℕ → List Frame) : ℕ :=
  ∑ i ∈ Finset.range n, (stack i).countP (·.work.isLoop)

def spawned : MainPc → ℕ
  | .start => 0
  | .spawning k => k + 1
  | .idle | .scanning => r + 2

variable {n r} {s : State} {stack : ℕ → List Frame} {i : ℕ}

theorem sum_update {M : Type*} [AddCommMonoid M] (f : List Frame → M) (hi : i < n)
    (stack : ℕ → List Frame) (l : List Frame) :
    ∑ j ∈ Finset.range n, f (Function.update stack i l j) + f (stack i) =
      ∑ j ∈ Finset.range n, f (stack j) + f l := by
  have hmem : i ∈ Finset.range n := Finset.mem_range.mpr hi
  have hrest : ∑ j ∈ (Finset.range n).erase i, f (Function.update stack i l j) =
      ∑ j ∈ (Finset.range n).erase i, f (stack j) := by
    refine Finset.sum_congr rfl ?_
    intro j hj
    rw [Function.update_of_ne (Finset.ne_of_mem_erase hj)]
  rw [← Finset.add_sum_erase _ _ hmem, ← Finset.add_sum_erase _ (fun j => f (stack j)) hmem,
    hrest, Function.update_self]
  abel

theorem held_update (hi : i < n) (stack : ℕ → List Frame) (l : List Frame) :
    held n (Function.update stack i l) + (stack i).countP (·.work.isLoop) =
      held n stack + l.countP (·.work.isLoop) :=
  sum_update (List.countP fun f : Frame => f.work.isLoop) hi stack l

theorem held_joined (w : Work) : held n (joined w stack) = held n stack := by
  cases w with
  | loop | wait | scan => rfl
  | part parent =>
    refine Finset.sum_congr rfl ?_
    intro i _
    simp only [joined, List.countP_map]
    refine List.countP_congr ?_
    intro f _
    simp only [Function.comp_apply]
    split <;> rfl

/-- Every loop spawned so far is on the stack of one thread or still pending. -/
structure Balanced (n r : ℕ) (s : State) : Prop where
  loops : held n s.stack + s.pending.countP Work.isLoop = spawned r s.main
  runners : ∀ k, s.main = .spawning k → k ≤ r

theorem balanced_initial : Balanced n r initial := by
  refine ⟨?_, by simp [initial]⟩
  simp [initial, held, spawned]

theorem countP_erase_add {w : Work} {pending : List Work} (hw : w ∈ pending) :
    (pending.erase w).countP Work.isLoop + (if w.isLoop then 1 else 0) =
      pending.countP Work.isLoop := by
  have hperm := (List.perm_cons_erase hw).countP_eq Work.isLoop
  rw [hperm, List.countP_cons]

theorem balanced_step {e : Event} (h : Balanced n r s) (he : Enabled n r s e) :
    Balanced n r (next s e) := by
  have hloops := h.loops
  cases e with
  | spawnIngest =>
    have hm : s.main = .start := he
    rw [hm] at hloops
    constructor
    · simp only [spawned] at hloops
      simp [next, spawned, Work.isLoop]
      omega
    · intro k hk
      cases hk
      exact Nat.zero_le r
  | spawnWatcher k =>
    obtain ⟨hm, hk⟩ := he
    rw [hm] at hloops
    constructor
    · simp only [spawned] at hloops
      simp [next, spawned, Work.isLoop]
      omega
    · intro j hj
      cases hj
      exact hk
  | spawnDispatch =>
    have hm : s.main = .spawning r := he
    rw [hm] at hloops
    refine ⟨?_, fun k hk => by cases hk⟩
    simp only [spawned] at hloops
    simp [next, spawned, Work.isLoop]
    omega
  | beginScan length =>
    have hm : s.main = .idle := he
    rw [hm] at hloops
    refine ⟨?_, fun k hk => by cases hk⟩
    by_cases hlength : 2 ≤ length <;>
      simpa [next, spawned, hlength, Work.isLoop] using hloops
  | endScan =>
    have hm : s.main = .scanning := he.1
    rw [hm] at hloops
    exact ⟨hloops, fun k hk => by cases hk⟩
  | run i w =>
    obtain ⟨hi, hw, _⟩ := he
    refine ⟨?_, h.runners⟩
    have hheld := held_update hi s.stack (⟨s.calls, w, 0⟩ :: s.stack i)
    have hpending := countP_erase_add hw
    simp only [List.countP_cons] at hheld
    simp only [next]
    omega
  | spawnWait i k branch =>
    refine ⟨?_, h.runners⟩
    simpa [next, Work.isLoop] using hloops
  | split i =>
    obtain ⟨hi, f, rest, hs, hf⟩ := he
    have hheld := held_update hi s.stack ({ f with parts := f.parts + 1 } :: rest)
    simp only [hs, List.countP_cons, hf] at hheld
    simp only [next, hs]
    refine ⟨?_, h.runners⟩
    simp only [List.countP_append, List.countP_singleton, Work.isLoop, Bool.false_eq_true,
      if_false]
    omega
  | ret i =>
    obtain ⟨hi, f, rest, hs, hf, _⟩ := he
    have hheld := held_update hi s.stack rest
    simp only [hs, List.countP_cons, hf, Bool.false_eq_true, if_false] at hheld
    simp only [next, hs]
    refine ⟨?_, h.runners⟩
    simp only [held_joined]
    omega

/-- A pool whose threads are all held by loops has no more threads than there are loops. -/
theorem le_of_exhausted (h : Balanced n r s) (hx : Exhausted n s) : n ≤ r + 2 := by
  have hheld : n ≤ held n s.stack := by
    calc n = ∑ _i ∈ Finset.range n, 1 := by simp
      _ ≤ held n s.stack := Finset.sum_le_sum fun i hi => ?_
    obtain ⟨f, hf, hloop⟩ := hx.1 i (Finset.mem_range.mp hi)
    exact List.countP_pos_iff.mpr ⟨f, hf, hloop⟩
  have hspawned : spawned r s.main ≤ r + 2 := by
    cases hm : s.main with
    | spawning k =>
      have hk := h.runners k hm
      simp only [spawned]
      omega
    | start | idle | scanning => simp [spawned]
  have hloops := h.loops
  omega

end Count

section Reach

variable {n r : ℕ} {s : State}

theorem execution_balanced {tr : List Event} (hx : (machine n r).Execution initial tr s) :
    Balanced n r s :=
  hx.invariant balanced_initial fun _ _ h he => balanced_step h he

def loops (r : ℕ) : List Work :=
  .loop .ingest :: (List.range r).map (fun k => .loop (.watcher k)) ++ [.loop .dispatch]

theorem length_loops (r : ℕ) : (loops r).length = r + 2 := by simp [loops]

theorem isLoop_of_mem_loops {w : Work} (h : w ∈ loops r) : w.isLoop := by
  simp only [loops, List.cons_append, List.mem_cons, List.mem_append, List.mem_map] at h
  rcases h with rfl | ⟨k, _, rfl⟩ | rfl | h
  · rfl
  · rfl
  · rfl
  · exact absurd h List.not_mem_nil

theorem spawning_reached {k : ℕ} (hk : k ≤ r) : ∃ tr, (machine n r).Execution initial tr
    ⟨.spawning k, .loop .ingest :: (List.range k).map (fun k => .loop (.watcher k)),
      fun _ => [], 0⟩ := by
  induction k with
  | zero => exact ⟨[.spawnIngest], .single rfl⟩
  | succ k ih =>
    obtain ⟨tr, hx⟩ := ih (Nat.le_of_succ_le hk)
    refine ⟨tr ++ [.spawnWatcher k], ?_⟩
    have hnext := Machine.Execution.snoc (Event.spawnWatcher k) hx ⟨rfl, hk⟩
    simpa [machine, next, List.range_succ] using hnext

theorem scanning_reached : ∃ tr, (machine n r).Execution initial tr
    ⟨.scanning, loops r ++ [.scan], fun _ => [], 0⟩ := by
  obtain ⟨tr, hx⟩ := spawning_reached (n := n) (le_refl r)
  have hidle := Machine.Execution.snoc Event.spawnDispatch hx rfl
  exact ⟨_, Machine.Execution.snoc (Event.beginScan 2) hidle rfl⟩

structure TakenUp (j : ℕ) (s : State) : Prop where
  taken : ∀ i < j, ∃ f ∈ s.stack i, f.work.isLoop
  idle : ∀ i, j ≤ i → s.stack i = []

theorem loops_taken {ws rest : List Work} {j : ℕ} (hs : TakenUp j s)
    (hw : ∀ w ∈ ws, w.isLoop) (hp : s.pending = ws ++ rest) (hj : j + ws.length ≤ n) :
    ∃ tr t, (machine n r).Execution s tr t ∧ TakenUp (j + ws.length) t ∧ t.pending = rest := by
  induction ws generalizing s j with
  | nil => exact ⟨[], s, .nil, hs, hp⟩
  | cons w ws ih =>
    have hidle := hs.idle j le_rfl
    have hen : (machine n r).Enabled s (.run j w) := by
      refine ⟨?_, by simp [hp], by simp [hidle, Free]⟩
      simp only [List.length_cons] at hj
      omega
    have hnext : TakenUp (j + 1) (next s (.run j w)) := by
      constructor
      · intro i hi
        by_cases hij : i = j
        · subst hij
          exact ⟨⟨s.calls, w, 0⟩, by simp [next], hw w List.mem_cons_self⟩
        · obtain ⟨f, hf, hloop⟩ := hs.taken i (by omega)
          exact ⟨f, by simpa [next, hij] using hf, hloop⟩
      · intro i hi
        have hij : i ≠ j := by omega
        simpa [next, hij] using hs.idle i (by omega)
    have hpending : (next s (.run j w)).pending = ws ++ rest := by simp [next, hp]
    obtain ⟨tr, t, hx, ht, hrest⟩ := ih hnext (fun v hv => hw v (List.mem_cons_of_mem w hv))
      hpending (by simp only [List.length_cons] at hj; omega)
    refine ⟨.run j w :: tr, t, .cons hen hx, ?_, hrest⟩
    rwa [List.length_cons, Nat.add_comm ws.length, ← Nat.add_assoc]

theorem exhausted_reached (h : n ≤ r + 2) :
    ∃ tr s, (machine n r).Execution initial tr s ∧ Exhausted n s := by
  obtain ⟨tr, hx⟩ := scanning_reached (n := n) (r := r)
  have hlength : ((loops r).take n).length = n := by
    rw [List.length_take, length_loops]
    omega
  have hsplit : loops r ++ [.scan] = (loops r).take n ++ ((loops r).drop n ++ [.scan]) := by
    rw [← List.append_assoc, List.take_append_drop]
  have hstart : TakenUp 0 (⟨.scanning, loops r ++ [.scan], fun _ => [], 0⟩ : State) :=
    ⟨fun i hi => absurd hi (Nat.not_lt_zero i), fun _ _ => rfl⟩
  obtain ⟨tr', t, hx', ht, hp⟩ := loops_taken (n := n) (r := r) hstart
    (fun w hw => isLoop_of_mem_loops (List.mem_of_mem_take hw)) hsplit (by omega)
  refine ⟨tr ++ tr', t, hx.append hx', fun i hi => ht.taken i (by omega), ?_⟩
  rw [hp]
  simp

/-- The pool is never exhausted exactly when it has a thread more than there are loops. -/
theorem never_exhausted_iff (n r : ℕ) :
    (∀ tr s, (machine n r).Execution initial tr s → ¬ Exhausted n s) ↔ r + 3 ≤ n := by
  constructor
  · intro h
    by_contra hn
    obtain ⟨tr, s, hx, hexh⟩ := exhausted_reached (n := n) (r := r) (by omega)
    exact h tr s hx hexh
  · intro hn tr s hx hexh
    have hle := le_of_exhausted (execution_balanced hx) hexh
    omega

/-- Two runners on a machine with four threads: a scan of two series waits for ever. -/
theorem four_threads_exhausted :
    ∃ tr s, (machine 4 2).Execution initial tr s ∧ s.main = .scanning ∧ Exhausted 4 s := by
  have hruns : (machine 4 2).Runs initial [.spawnIngest, .spawnWatcher 0, .spawnWatcher 1,
      .spawnDispatch, .beginScan 2, .run 0 (.loop .ingest), .run 1 (.loop (.watcher 0)),
      .run 2 (.loop (.watcher 1)), .run 3 (.loop .dispatch)] := by
    refine ⟨rfl, ⟨rfl, ?_⟩, ⟨rfl, ?_⟩, rfl, rfl, ⟨?_, ?_, trivial⟩, ⟨?_, ?_, trivial⟩,
      ⟨?_, ?_, trivial⟩, ⟨?_, ?_, trivial⟩, trivial⟩
    all_goals decide
  refine ⟨_, _, hruns.execution, rfl, ?_, List.cons_ne_nil _ _⟩
  intro i hi
  interval_cases i <;> exact ⟨_, List.mem_cons_self, rfl⟩

end Reach

section Hang

variable {n r : ℕ} {s : State}

/-- A loop has split off nothing, so it stays the last call of its thread. -/
def Seated (stack : ℕ → List Frame) : Prop :=
  ∀ i, ∀ f ∈ stack i, f.work.isLoop → f.parts = 0 ∧ (stack i).head? = some f

theorem Seated.joined {stack : ℕ → List Frame} (h : Seated stack) (w : Work) :
    Seated (joined w stack) := by
  cases w with
  | loop | wait | scan => exact h
  | part parent =>
    intro i f hf hloop
    obtain ⟨g, hg, rfl⟩ := List.mem_map.mp hf
    have hgloop : g.work.isLoop := by
      split at hloop <;> exact hloop
    obtain ⟨hparts, hhead⟩ := h i g hg hgloop
    refine ⟨?_, by simp [ThreadPool.joined, hhead]⟩
    split
    · simp [hparts]
    · exact hparts

theorem Seated.update {stack : ℕ → List Frame} (h : Seated stack) {i : ℕ} {l : List Frame}
    (hl : ∀ f ∈ l, f.work.isLoop → f.parts = 0 ∧ l.head? = some f) :
    Seated (Function.update stack i l) := by
  intro j f hf hloop
  by_cases hji : j = i
  · subst hji
    simp only [Function.update_self] at hf ⊢
    exact hl f hf hloop
  · simp only [Function.update_of_ne hji] at hf ⊢
    exact h j f hf hloop

theorem Seated.no_loop {stack : ℕ → List Frame} (h : Seated stack) {i : ℕ} {f : Frame}
    {rest : List Frame} (hs : stack i = f :: rest) (hf : f.work.isLoop = false ∨ 0 < f.parts)
    {g : Frame} (hg : g ∈ stack i) : g.work.isLoop = false := by
  by_contra hloop
  obtain ⟨hparts, hhead⟩ := h i g hg (by simpa using hloop)
  rw [hs] at hhead
  obtain rfl := Option.some.inj hhead
  rcases hf with hf | hf
  · exact hloop hf
  · omega

theorem seated_step {e : Event} (h : Seated s.stack) (he : Enabled n r s e) :
    Seated (next s e).stack := by
  cases e with
  | spawnIngest | spawnWatcher | spawnDispatch | beginScan | endScan | spawnWait => exact h
  | run i w =>
    obtain ⟨_, _, hfree⟩ := he
    refine h.update ?_
    intro f hf hloop
    rcases List.mem_cons.mp hf with rfl | hf
    · exact ⟨rfl, rfl⟩
    · cases hs : s.stack i with
      | nil => simp [hs] at hf
      | cons g rest =>
        have hg : 0 < g.parts := by simpa [hs, Free] using hfree
        have hno := h.no_loop hs (Or.inr hg) hf
        simp [hno] at hloop
  | split i =>
    obtain ⟨_, f, rest, hs, hf⟩ := he
    simp only [next, hs]
    refine h.update ?_
    intro g hg hloop
    have hno : ∀ a ∈ f :: rest, a.work.isLoop = false := fun a ha =>
      h.no_loop hs (Or.inl hf) (hs ▸ ha)
    rcases List.mem_cons.mp hg with rfl | hg
    · simp [hf] at hloop
    · simp [hno g (List.mem_cons_of_mem f hg)] at hloop
  | ret i =>
    obtain ⟨_, f, rest, hs, hf, _⟩ := he
    simp only [next, hs]
    refine (h.update ?_).joined f.work
    intro g hg hloop
    have hno := h.no_loop hs (Or.inl hf) (hs ▸ List.mem_cons_of_mem f hg)
    simp [hno] at hloop

theorem exhausted_step {e : Event} (h : Seated s.stack) (hx : Exhausted n s)
    (he : Enabled n r s e) : Exhausted n (next s e) ∧ ∀ i w, e ≠ .run i w := by
  have hbusy : ∀ {i f rest}, i < n → s.stack i = f :: rest →
      ¬ (f.work.isLoop = false ∨ 0 < f.parts) := by
    intro i f rest hi hs hf
    obtain ⟨g, hg, hloop⟩ := hx.1 i hi
    simp [h.no_loop hs hf hg] at hloop
  cases e with
  | spawnIngest | spawnWatcher | spawnDispatch | spawnWait =>
    exact ⟨⟨hx.1, by simp [next]⟩, by simp⟩
  | beginScan length =>
    refine ⟨⟨hx.1, ?_⟩, by simp⟩
    by_cases hlength : 2 ≤ length <;> simp [next, hlength, hx.2]
  | endScan => exact ⟨⟨hx.1, hx.2⟩, by simp⟩
  | run i w =>
    obtain ⟨hi, _, hfree⟩ := he
    obtain ⟨g, hg, _⟩ := hx.1 i hi
    cases hs : s.stack i with
    | nil => simp [hs] at hg
    | cons f rest =>
      have hf : 0 < f.parts := by simpa [hs, Free] using hfree
      exact absurd (Or.inr hf) (hbusy hi hs)
  | split i =>
    obtain ⟨hi, f, rest, hs, hf⟩ := he
    exact absurd (Or.inl hf) (hbusy hi hs)
  | ret i =>
    obtain ⟨hi, f, rest, hs, hf, _⟩ := he
    exact absurd (Or.inl hf) (hbusy hi hs)

/-- Once the pool is exhausted, no pending work is ever taken up again. -/
theorem exhausted_hangs {tr tr' : List Event} {t : State}
    (hx : (machine n r).Execution initial tr s) (hexh : Exhausted n s)
    (hx' : (machine n r).Execution s tr' t) :
    Exhausted n t ∧ ∀ i w, Event.run i w ∉ tr' := by
  have hseated : Seated s.stack :=
    hx.invariant (I := fun s => Seated s.stack) (fun i f hf => by simp [initial] at hf)
      fun _ _ h he => seated_step h he
  have h := hx'.history (I := fun tr t => Seated t.stack ∧ Exhausted n t ∧
    ∀ i w, Event.run i w ∉ tr) ⟨hseated, hexh, by simp⟩ fun tr s e _ h he => ?_
  · exact h.2
  · obtain ⟨hnext, hno⟩ := exhausted_step h.1 h.2.1 he
    refine ⟨seated_step h.1 he, hnext, ?_⟩
    intro i w hw
    rcases List.mem_append.mp hw with hw | hw
    · exact h.2.2 i w hw
    · exact hno i w (List.mem_singleton.mp hw).symm

end Hang

end Snowpatch.ThreadPool
