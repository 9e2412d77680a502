import Snowpatch.Library.Machine
import Mathlib.Order.WellFounded
import Mathlib.Data.List.GetD

/-! Runs that never end, and what a fair run comes to. Fairness is weak: events of a kind that
stay possible from some time on happen again. A measure that these events take down, and no
other event takes up, leads to the goal; so it does if it is now this kind of events that
helps and now that one. -/
namespace Machine

variable {σ ε ω : Type*} {M : Machine σ ε} {s₀ s : σ} {tr : List ε}

structure Run (M : Machine σ ε) (s₀ : σ) where
  state : ℕ → σ
  event : ℕ → ε
  start : state 0 = s₀
  enabled : ∀ n, M.Enabled (state n) (event n)
  step : ∀ n, state (n + 1) = M.next (state n) (event n)

namespace Run

/-- Weak fairness for a kind of events: they are not kept from happening for ever. -/
def Fair (ρ : M.Run s₀) (A : ε → Prop) : Prop :=
  ∀ k, (∀ l, k ≤ l → ∃ e, A e ∧ M.Enabled (ρ.state l) e) → ∃ l, k ≤ l ∧ A (ρ.event l)

theorem execution (ρ : M.Run s₀) (n : ℕ) :
    M.Execution s₀ ((List.range n).map ρ.event) (ρ.state n) := by
  induction n with
  | zero =>
    rw [ρ.start]
    exact .nil
  | succ n ih =>
    rw [List.range_succ, List.map_append, ρ.step n]
    exact .snoc _ ih (ρ.enabled n)

/-- What every step keeps unless it is the goal is kept until the goal is met. -/
theorem stays (ρ : M.Run s₀) {I P : σ → Prop} {goal : ε → Prop}
    (hstep : ∀ s e, I s → P s → M.Enabled s e → goal e ∨ P (M.next s e))
    (hI : ∀ n, I (ρ.state n)) {n m : ℕ} (hnm : n ≤ m) (hP : P (ρ.state n)) :
    (∃ l, n ≤ l ∧ l < m ∧ P (ρ.state l) ∧ goal (ρ.event l)) ∨ P (ρ.state m) := by
  induction m, hnm using Nat.le_induction with
  | base => exact Or.inr hP
  | succ m hm ih =>
    rcases ih with ⟨l, hl, hlm, hg⟩ | hPm
    · exact Or.inl ⟨l, hl, hlm.trans (Nat.lt_succ_self m), hg⟩
    · rcases hstep _ _ (hI m) hPm (ρ.enabled m) with hg | hPnext
      · exact Or.inl ⟨m, hm, Nat.lt_succ_self m, hPm, hg⟩
      · exact Or.inr (ρ.step m ▸ hPnext)

theorem stays_until (ρ : M.Run s₀) {I P : σ → Prop} {goal : ε → Prop}
    (hstep : ∀ s e, I s → P s → M.Enabled s e → goal e ∨ P (M.next s e))
    (hI : ∀ n, I (ρ.state n)) {n : ℕ} (hP : P (ρ.state n))
    (hgoal : ∃ m, n ≤ m ∧ goal (ρ.event m)) :
    ∃ l, n ≤ l ∧ P (ρ.state l) ∧ goal (ρ.event l) := by
  obtain ⟨m, hm, hg⟩ := hgoal
  rcases ρ.stays hstep hI hm hP with ⟨l, hl, _, hPl, hgl⟩ | hPm
  · exact ⟨l, hl, hPl, hgl⟩
  · exact ⟨m, hm, hPm, hg⟩

theorem execution_restrict (ρ : M.Run s₀) {C : σ → ε → Prop} {n : ℕ}
    (h : ∀ m < n, C (ρ.state m) (ρ.event m)) :
    (M.restrict C).Execution s₀ ((List.range n).map ρ.event) (ρ.state n) := by
  induction n with
  | zero =>
    rw [ρ.start]
    exact .nil
  | succ n ih =>
    rw [List.range_succ, List.map_append, ρ.step n]
    exact .snoc _ (ih fun m hm => h m (hm.trans (Nat.lt_succ_self n)))
      ⟨ρ.enabled n, h n (Nat.lt_succ_self n)⟩

end Run

/-- The rule of helpful events. As long as `P` holds an event of a kind that is helpful is
possible. Whatever happens is the goal, or it keeps `P`; it takes the measure down, or it takes
it no further up, is of no helpful kind and leaves every helpful kind so. -/
structure Responds [Preorder ω] (M : Machine σ ε) (I P : σ → Prop) {ι : Type*}
    (A : ι → ε → Prop) (helpful : ι → σ → Prop) (goal : ε → Prop) (measure : σ → ω) : Prop where
  enabled : ∀ s i, I s → P s → helpful i s → ∃ e, A i e ∧ M.Enabled s e
  step : ∀ s e, I s → P s → M.Enabled s e → goal e ∨ P (M.next s e) ∧
    (measure (M.next s e) < measure s ∨ measure (M.next s e) ≤ measure s ∧
      ∀ i, helpful i s → ¬ A i e ∧ helpful i (M.next s e))

/-- A run that is fair to every kind comes to the goal, if some kind is helpful again and
again. -/
theorem Responds.eventually [Preorder ω] [WellFoundedLT ω] {I P : σ → Prop} {ι : Type*}
    {A : ι → ε → Prop} {helpful : ι → σ → Prop} {goal : ε → Prop} {measure : σ → ω}
    (r : M.Responds I P A helpful goal measure) (ρ : M.Run s₀) (hfair : ∀ i, ρ.Fair (A i))
    (hI : ∀ n, I (ρ.state n)) {k : ℕ}
    (hhelp : ∀ l, k ≤ l → ∃ j, l ≤ j ∧ ∃ i, helpful i (ρ.state j)) (hP : P (ρ.state k)) :
    ∃ l, k ≤ l ∧ goal (ρ.event l) := by
  induction hm : measure (ρ.state k) using WellFoundedLT.induction generalizing k with
  | ind m ih =>
    subst hm
    by_contra hgoal
    push Not at hgoal
    have hstep : ∀ l, k ≤ l → P (ρ.state l) → measure (ρ.state l) ≤ measure (ρ.state k) →
        P (ρ.state (l + 1)) ∧ measure (ρ.state (l + 1)) ≤ measure (ρ.state k) ∧
          ∀ i, helpful i (ρ.state l) → ¬ A i (ρ.event l) ∧ helpful i (ρ.state (l + 1)) := by
      intro l hl hPl hle
      obtain ⟨hPnext, hlt | ⟨hlevel, hkept⟩⟩ :=
        (r.step _ _ (hI l) hPl (ρ.enabled l)).resolve_left (hgoal l hl)
      · have hkl : k ≤ l + 1 := Nat.le_succ_of_le hl
        rw [← ρ.step l] at hPnext hlt
        obtain ⟨j, hj, hg⟩ := ih _ (hlt.trans_le hle)
          (fun j hj => hhelp j (hkl.trans hj)) hPnext rfl
        exact absurd hg (hgoal j (hkl.trans hj))
      · rw [← ρ.step l] at hPnext hlevel hkept
        exact ⟨hPnext, hlevel.trans hle, hkept⟩
    have hlevel : ∀ l, k ≤ l → P (ρ.state l) ∧ measure (ρ.state l) ≤ measure (ρ.state k) := by
      intro l hl
      induction l, hl using Nat.le_induction with
      | base => exact ⟨hP, le_rfl⟩
      | succ l hl ihl =>
        obtain ⟨hPnext, hle, _⟩ := hstep l hl ihl.1 ihl.2
        exact ⟨hPnext, hle⟩
    have hkept : ∀ l, k ≤ l → ∀ i, helpful i (ρ.state l) →
        ¬ A i (ρ.event l) ∧ helpful i (ρ.state (l + 1)) := fun l hl =>
      (hstep l hl (hlevel l hl).1 (hlevel l hl).2).2.2
    obtain ⟨j, hj, i, hi⟩ := hhelp k le_rfl
    have hstays : ∀ l, j ≤ l → helpful i (ρ.state l) := by
      intro l hl
      induction l, hl using Nat.le_induction with
      | base => exact hi
      | succ l hl ihl => exact (hkept l (hj.trans hl) i ihl).2
    obtain ⟨l, hl, hA⟩ := hfair i j fun l hl =>
      r.enabled _ i (hI l) (hlevel l (hj.trans hl)).1 (hstays l hl)
    exact (hkept l (hj.trans hl) i (hstays l hl)).1 hA

/-- As long as `P` holds, an event of the kind `A` is possible. Whatever happens then is the
goal, or it keeps `P` and does not take the measure up; an event of the kind takes it down. -/
structure Descends [Preorder ω] (M : Machine σ ε) (I P : σ → Prop) (A goal : ε → Prop)
    (measure : σ → ω) : Prop where
  ready : ∀ s, I s → P s → ∃ e, A e ∧ M.Enabled s e
  step : ∀ s e, I s → P s → M.Enabled s e → goal e ∨
    P (M.next s e) ∧ measure (M.next s e) ≤ measure s ∧
      (A e → measure (M.next s e) < measure s)

theorem Descends.responds [Preorder ω] {I P : σ → Prop} {A goal : ε → Prop} {measure : σ → ω}
    (d : M.Descends I P A goal measure) :
    M.Responds I P (fun _ : Unit => A) (fun _ _ => True) goal measure where
  enabled s _ hI hP _ := d.ready s hI hP
  step := by
    intro s e hI hP he
    rcases d.step s e hI hP he with hg | ⟨hPnext, hle, hlt⟩
    · exact Or.inl hg
    · refine Or.inr ⟨hPnext, ?_⟩
      by_cases hA : A e
      · exact Or.inl (hlt hA)
      · exact Or.inr ⟨hle, fun _ _ => ⟨hA, trivial⟩⟩

theorem Descends.eventually [Preorder ω] [WellFoundedLT ω] {I P : σ → Prop}
    {A goal : ε → Prop} {measure : σ → ω} (d : M.Descends I P A goal measure) (ρ : M.Run s₀)
    (hfair : ρ.Fair A) (hI : ∀ n, I (ρ.state n)) {k : ℕ} (hP : P (ρ.state k)) :
    ∃ l, k ≤ l ∧ goal (ρ.event l) :=
  d.responds.eventually ρ (fun _ => hfair) hI (fun l _ => ⟨l, le_rfl, (), trivial⟩) hP

theorem Run.happens (ρ : M.Run s₀) {I P : σ → Prop} {A goal : ε → Prop} (hfair : ρ.Fair A)
    (hready : ∀ s, I s → P s → ∃ e, A e ∧ M.Enabled s e)
    (hstep : ∀ s e, I s → P s → M.Enabled s e → (A e ∨ goal e) ∨ P (M.next s e))
    (hI : ∀ n, I (ρ.state n)) {n : ℕ} (hP : P (ρ.state n)) :
    ∃ m, n ≤ m ∧ P (ρ.state m) ∧ (A (ρ.event m) ∨ goal (ρ.event m)) := by
  have hdescends : M.Descends I P A (fun e => A e ∨ goal e) fun _ => 0 := by
    refine ⟨hready, fun s e hs hPs he => ?_⟩
    rcases hstep s e hs hPs he with hgoal | hPnext
    · exact Or.inl hgoal
    · by_cases hA : A e
      · exact Or.inl (Or.inl hA)
      · exact Or.inr ⟨hPnext, le_rfl, fun h => absurd h hA⟩
  exact ρ.stays_until hstep hI hP (hdescends.eventually ρ hfair hI hP)

/-- What is followed by its like until the goal is met happens again and again, or the goal is
met. -/
theorem Run.recurs (ρ : M.Run s₀) {P goal : ε → Prop}
    (hstep : ∀ n, P (ρ.event n) →
      (∃ m, n ≤ m ∧ goal (ρ.event m)) ∨ ∃ m, n < m ∧ P (ρ.event m))
    {n : ℕ} (hP : P (ρ.event n)) :
    (∃ m, n ≤ m ∧ goal (ρ.event m)) ∨ ∀ k, ∃ m, k ≤ m ∧ P (ρ.event m) := by
  by_cases hgoal : ∃ m, n ≤ m ∧ goal (ρ.event m)
  · exact Or.inl hgoal
  refine Or.inr fun k => ?_
  have hagain : ∃ m, k ≤ m ∧ n ≤ m ∧ P (ρ.event m) := by
    induction k with
    | zero => exact ⟨n, Nat.zero_le n, le_rfl, hP⟩
    | succ k ih =>
      obtain ⟨m, hkm, hnm, hPm⟩ := ih
      rcases hstep m hPm with ⟨l, hl, hg⟩ | ⟨l, hl, hPl⟩
      · exact absurd ⟨l, hnm.trans hl, hg⟩ hgoal
      · exact ⟨l, hkm.trans_lt hl, hnm.trans hl.le, hPl⟩
  obtain ⟨m, hkm, _, hPm⟩ := hagain
  exact ⟨m, hkm, hPm⟩

section Lasso

theorem Runs.enabled_getElem {tr : List ε} (h : M.Runs s tr) {n : ℕ} (hn : n < tr.length) :
    M.Enabled (M.run s (tr.take n)) tr[n] := by
  induction tr generalizing s n with
  | nil => exact absurd hn (Nat.not_lt_zero n)
  | cons e tr ih => cases n with
    | zero => exact h.1
    | succ n => exact ih h.2 (Nat.lt_of_succ_lt_succ hn)

def Runs.forever (h : M.Runs s tr) (e : ε) (he : M.Enabled (M.run s tr) e)
    (hstays : M.next (M.run s tr) e = M.run s tr) : M.Run s where
  state n := M.run s (tr.take n)
  event n := tr.getD n e
  start := rfl
  enabled := by
    intro n
    by_cases hn : n < tr.length
    · rw [List.getD_eq_getElem _ _ hn]
      exact h.enabled_getElem hn
    · have hle : tr.length ≤ n := not_lt.mp hn
      rw [List.getD_eq_default _ _ hle, List.take_of_length_le hle]
      exact he
  step := by
    intro n
    by_cases hn : n < tr.length
    · rw [List.getD_eq_getElem _ _ hn, List.take_succ_eq_append_getElem hn, run,
        List.foldl_append]
      rfl
    · have hle : tr.length ≤ n := not_lt.mp hn
      rw [List.getD_eq_default _ _ hle, List.take_of_length_le hle,
        List.take_of_length_le (hle.trans (Nat.le_succ n))]
      exact hstays.symm

theorem Runs.forever_restrict {C : σ → ε → Prop} (h : M.Runs s tr)
    (hC : (M.restrict C).Runs s tr) {e : ε} (he : M.Enabled (M.run s tr) e)
    (hstays : M.next (M.run s tr) e = M.run s tr) (hCe : C (M.run s tr) e) (n : ℕ) :
    C ((h.forever e he hstays).state n) ((h.forever e he hstays).event n) := by
  by_cases hn : n < tr.length
  · have hevent : (h.forever e he hstays).event n = tr[n] := List.getD_eq_getElem tr e hn
    rw [hevent]
    exact (hC.enabled_getElem hn).2
  · have hle : tr.length ≤ n := not_lt.mp hn
    have hevent : (h.forever e he hstays).event n = e := List.getD_eq_default tr e hle
    have hstate : (h.forever e he hstays).state n = M.run s tr :=
      congrArg (M.run s) (List.take_of_length_le hle)
    rw [hevent, hstate]
    exact hCe

theorem Runs.forever_event {P : ε → Prop} (h : M.Runs s tr) {e : ε}
    (he : M.Enabled (M.run s tr) e) (hstays : M.next (M.run s tr) e = M.run s tr)
    (htr : ∀ a ∈ tr, P a) (hlast : P e) (n : ℕ) : P ((h.forever e he hstays).event n) := by
  by_cases hn : n < tr.length
  · have hevent : (h.forever e he hstays).event n = tr[n] := List.getD_eq_getElem tr e hn
    rw [hevent]
    exact htr _ (List.getElem_mem hn)
  · have hevent : (h.forever e he hstays).event n = e :=
      List.getD_eq_default tr e (not_lt.mp hn)
    rw [hevent]
    exact hlast

theorem Runs.fair_forever {A : ε → Prop} (h : M.Runs s tr) {e : ε}
    (he : M.Enabled (M.run s tr) e) (hstays : M.next (M.run s tr) e = M.run s tr)
    (hnone : ∀ a, A a → ¬ M.Enabled (M.run s tr) a) : (h.forever e he hstays).Fair A := by
  intro k hready
  obtain ⟨a, ha, hen⟩ := hready (k + tr.length) (Nat.le_add_right _ _)
  have hlast : (h.forever e he hstays).state (k + tr.length) = M.run s tr :=
    congrArg (M.run s) (List.take_of_length_le (Nat.le_add_left _ _))
  rw [hlast] at hen
  exact absurd hen (hnone a ha)

end Lasso

end Machine
