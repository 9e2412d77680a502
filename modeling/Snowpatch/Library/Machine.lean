import Mathlib.Data.List.Basic
import Mathlib.Tactic.Common

/-! Guarded transition systems whose executions carry their trace.
A run property is derived once from a step property here; each system supplies only
its enabling conditions, its effects and the step lemma. No fairness is assumed. -/

structure Machine (σ ε : Type*) where
  Enabled : σ → ε → Prop
  next : σ → ε → σ

namespace Machine

variable {σ ε : Type*}

/-- The trace lists the events of the run from the oldest to the newest. -/
inductive Execution (M : Machine σ ε) (s₀ : σ) : List ε → σ → Prop where
  | nil : Execution M s₀ [] s₀
  | snoc {tr s} (e : ε) : Execution M s₀ tr s → M.Enabled s e →
      Execution M s₀ (tr ++ [e]) (M.next s e)

variable {M : Machine σ ε} {s₀ s t : σ} {tr tr' : List ε} {e : ε}

theorem Execution.single (he : M.Enabled s e) : M.Execution s [e] (M.next s e) :=
  .snoc e .nil he

theorem Execution.append (h : M.Execution s₀ tr s) (k : M.Execution s tr' t) :
    M.Execution s₀ (tr ++ tr') t := by
  induction k with
  | nil => simpa using h
  | snoc e _ he ih =>
    rw [← List.append_assoc]
    exact .snoc e ih he

theorem Execution.cons (he : M.Enabled s e) (h : M.Execution (M.next s e) tr t) :
    M.Execution s (e :: tr) t :=
  (Execution.single he).append h

theorem Execution.split (h : M.Execution s₀ (tr ++ tr') t) :
    ∃ s, M.Execution s₀ tr s ∧ M.Execution s tr' t := by
  generalize hw : tr ++ tr' = w at h
  induction h generalizing tr' with
  | nil =>
    obtain ⟨rfl, rfl⟩ := List.append_eq_nil_iff.mp hw
    exact ⟨_, .nil, .nil⟩
  | @snoc w s e hx he ih =>
    rcases List.eq_nil_or_concat tr' with rfl | ⟨l, a, rfl⟩
    · exact ⟨_, by rw [List.append_nil] at hw; exact hw ▸ .snoc e hx he, .nil⟩
    · rw [List.concat_eq_append, ← List.append_assoc] at hw
      obtain ⟨rfl, ha⟩ := List.append_inj' hw rfl
      obtain rfl := List.singleton_inj.mp ha
      obtain ⟨u, hu, hl⟩ := ih rfl
      exact ⟨u, hu, by rw [List.concat_eq_append]; exact .snoc a hl he⟩

theorem Execution.eq_of_nil (h : M.Execution s [] t) : t = s := by
  generalize hw : ([] : List ε) = w at h
  cases h with
  | nil => rfl
  | snoc e _ _ => simp at hw

theorem Execution.uncons (h : M.Execution s (e :: tr) t) :
    M.Enabled s e ∧ M.Execution (M.next s e) tr t := by
  generalize hw : e :: tr = w at h
  induction h generalizing tr with
  | nil => cases hw
  | @snoc w u a hx ha ih =>
    cases w with
    | nil =>
      obtain ⟨rfl, rfl⟩ := List.cons.inj hw
      obtain rfl := hx.eq_of_nil
      exact ⟨ha, .nil⟩
    | cons b w =>
      obtain ⟨rfl, rfl⟩ := List.cons.inj hw
      obtain ⟨he, hr⟩ := ih rfl
      exact ⟨he, .snoc a hr ha⟩

def run (M : Machine σ ε) (s : σ) (tr : List ε) : σ := tr.foldl M.next s

def Runs (M : Machine σ ε) : σ → List ε → Prop
  | _, [] => True
  | s, e :: tr => M.Enabled s e ∧ Runs M (M.next s e) tr

theorem Runs.execution (h : M.Runs s tr) : M.Execution s tr (M.run s tr) := by
  induction tr generalizing s with
  | nil => exact .nil
  | cons e tr ih => exact .cons h.1 (ih h.2)

theorem Execution.eq_run (h : M.Execution s₀ tr s) : s = M.run s₀ tr := by
  induction h with
  | nil => rfl
  | snoc e _ _ ih => rw [run, List.foldl_append, ih]; rfl

theorem Execution.occurrence (h : M.Execution s₀ tr t) (he : e ∈ tr) :
    ∃ pre post s, tr = pre ++ e :: post ∧ M.Execution s₀ pre s ∧ M.Enabled s e ∧
      M.Execution (M.next s e) post t := by
  obtain ⟨pre, post, rfl⟩ := List.mem_iff_append.mp he
  obtain ⟨s, hpre, hrest⟩ := h.split
  obtain ⟨hen, hpost⟩ := hrest.uncons
  exact ⟨pre, post, s, rfl, hpre, hen, hpost⟩

/-- What holds at the start and is kept by every step holds in every state reached. -/
theorem Execution.invariant {I : σ → Prop} (h : M.Execution s₀ tr s) (hs : I s₀)
    (step : ∀ s e, I s → M.Enabled s e → I (M.next s e)) : I s := by
  induction h with
  | nil => exact hs
  | snoc e _ he ih => exact step _ e ih he

/-- The same rule for a property of the state together with the history that led to it. -/
theorem Execution.history {I : List ε → σ → Prop} (h : M.Execution s₀ tr s) (hs : I [] s₀)
    (step : ∀ tr s e, M.Execution s₀ tr s → I tr s → M.Enabled s e →
      I (tr ++ [e]) (M.next s e)) : I tr s := by
  induction h with
  | nil => exact hs
  | snoc e hx he ih => exact step _ _ e hx ih he

/-- The runs whose steps all meet a condition on the state before the step. -/
def restrict (M : Machine σ ε) (C : σ → ε → Prop) : Machine σ ε :=
  ⟨fun s e => M.Enabled s e ∧ C s e, M.next⟩

theorem Execution.of_restrict {C : σ → ε → Prop} (h : (M.restrict C).Execution s₀ tr s) :
    M.Execution s₀ tr s := by
  induction h with
  | nil => exact .nil
  | snoc e _ he ih => exact .snoc e ih he.1

theorem Execution.restrict {C : σ → ε → Prop} (h : M.Execution s₀ tr s) (hc : ∀ s e, C s e) :
    (M.restrict C).Execution s₀ tr s := by
  induction h with
  | nil => exact .nil
  | snoc e _ he ih => exact .snoc e ih ⟨he, hc _ e⟩

theorem runs_append : M.Runs s (tr ++ tr') ↔ M.Runs s tr ∧ M.Runs (M.run s tr) tr' := by
  induction tr generalizing s with
  | nil => simp [Runs, run]
  | cons e tr ih => simp only [List.cons_append, Runs, ih, and_assoc]; rfl

theorem Runs.restrict {C : σ → ε → Prop} (h : M.Runs s tr) (hc : ∀ e ∈ tr, ∀ u, C u e) :
    (M.restrict C).Runs s tr := by
  induction tr generalizing s with
  | nil => trivial
  | cons e tr ih =>
    exact ⟨⟨h.1, hc e List.mem_cons_self s⟩,
      ih h.2 fun a ha => hc a (List.mem_cons_of_mem e ha)⟩

/-- An event that needs an open latch, closes it, and that no other step reopens,
occurs at most once in a run. `I` is an invariant the argument may use. -/
theorem Execution.once {I : σ → Prop} (h : M.Execution s₀ tr s) (closed : σ → Prop) (P : ε → Bool)
    (hs : I s₀) (keep : ∀ s e, I s → M.Enabled s e → I (M.next s e))
    (needs : ∀ s e, I s → M.Enabled s e → P e → ¬ closed s)
    (closes : ∀ s e, I s → M.Enabled s e → P e → closed (M.next s e))
    (stays : ∀ s e, I s → M.Enabled s e → closed s → closed (M.next s e)) :
    tr.countP P = 0 ∨ tr.countP P = 1 ∧ closed s := by
  induction h with
  | nil => exact Or.inl rfl
  | @snoc tr s e hx he ih =>
    have hI : I s := hx.invariant hs keep
    rw [List.countP_append, List.countP_singleton]
    by_cases hp : P e
    · rcases ih with hz | ⟨_, hc⟩
      · exact Or.inr ⟨by simp [hz, hp], closes s e hI he hp⟩
      · exact absurd hc (needs s e hI he hp)
    · rcases ih with hz | ⟨ho, hc⟩
      · exact Or.inl (by simp [hz, hp])
      · exact Or.inr ⟨by simp [ho, hp], stays s e hI he hc⟩

end Machine
