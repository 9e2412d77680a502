import Snowpatch.Library.Machine

/-! Refinement between machines. One step of the lower machine is a run of the upper one, an
empty run where the upper machine has nothing to show for it. Whole runs then carry over with
their traces, so an invariant of the upper machine is one of the lower. -/
namespace Machine

variable {σ ε τ δ : Type*}

/-- What a run of the lower machine looks like above, event by event. -/
def labels (M : Machine σ ε) (label : σ → ε → List δ) : σ → List ε → List δ
  | _, [] => []
  | s, e :: tr => label s e ++ labels M label (M.next s e) tr

structure Refines (M : Machine σ ε) (N : Machine τ δ) (I : σ → Prop) (abs : σ → τ)
    (label : σ → ε → List δ) : Prop where
  keep : ∀ s e, I s → M.Enabled s e → I (M.next s e)
  step : ∀ s e, I s → M.Enabled s e → N.Execution (abs s) (label s e) (abs (M.next s e))

variable {M : Machine σ ε} {N : Machine τ δ} {I : σ → Prop} {abs : σ → τ}
  {label : σ → ε → List δ} {s₀ s : σ} {tr : List ε} {d : δ}

theorem labels_append (tr' : List ε) : M.labels label s₀ (tr ++ tr') =
    M.labels label s₀ tr ++ M.labels label (M.run s₀ tr) tr' := by
  induction tr generalizing s₀ with
  | nil => rfl
  | cons e tr ih =>
    simp only [List.cons_append, labels, ih, List.append_assoc]
    rfl

theorem mem_labels (h : d ∈ M.labels label s₀ tr) :
    ∃ pre e post, tr = pre ++ e :: post ∧ d ∈ label (M.run s₀ pre) e := by
  induction tr generalizing s₀ with
  | nil => cases h
  | cons e tr ih =>
    rcases List.mem_append.mp h with h | h
    · exact ⟨[], e, tr, rfl, h⟩
    · obtain ⟨pre, a, post, rfl, ha⟩ := ih h
      exact ⟨e :: pre, a, post, rfl, ha⟩

/-- A run of the lower machine is one of the upper. -/
theorem Refines.execution (r : M.Refines N I abs label) (hx : M.Execution s₀ tr s)
    (h₀ : I s₀) : N.Execution (abs s₀) (M.labels label s₀ tr) (abs s) := by
  induction hx with
  | nil => exact .nil
  | @snoc tr s e hx he ih =>
    have hI : I s := hx.invariant h₀ r.keep
    rw [labels_append, ← hx.eq_run]
    refine ih.append ?_
    simpa [labels] using r.step s e hI he

end Machine
