import Snowpatch.Library.Machine
import Mathlib.Data.List.Nodup

/-! Interleavings put in order. Each event has an owner, and the events of some owners can be
moved in front of those of others without a difference to what they do. A run in which that
holds of every two owners is, up to its final state, the run of one owner after the other. -/
namespace Machine

variable {σ ε κ : Type*}

/-- The events of class `C` of one owner can be moved before those of another one: wherever
they are next to each other, they can be swapped. -/
structure Movers (M : Machine σ ε) (I : σ → Prop) (C : ε → Prop) (owner : ε → κ)
    (Before : κ → κ → Prop) : Prop where
  keep : ∀ s e, I s → M.Enabled s e → I (M.next s e)
  swap : ∀ s a b, I s → C a → C b → Before (owner b) (owner a) → M.Enabled s a →
    M.Enabled (M.next s a) b →
      M.Enabled s b ∧ M.Enabled (M.next s b) a ∧ M.next (M.next s b) a = M.next (M.next s a) b

variable {M : Machine σ ε} {I : σ → Prop} {C : ε → Prop} {owner : ε → κ}
  {Before : κ → κ → Prop} {s t : σ} {tr : List ε}

theorem Movers.move_left (m : M.Movers I C owner Before) {b : ε} (hb : C b)
    (hx : M.Execution s tr t) (hs : I s) (htr : ∀ a ∈ tr, C a ∧ Before (owner b) (owner a))
    (he : M.Enabled t b) : M.Enabled s b ∧ M.Execution (M.next s b) tr (M.next t b) := by
  induction hx with
  | nil => exact ⟨he, .nil⟩
  | @snoc tr t a hx ha ih =>
    obtain ⟨hca, hba⟩ := htr a (List.mem_append_right _ (List.mem_singleton_self a))
    obtain ⟨hen, hen', hnext⟩ := m.swap t a b (hx.invariant hs m.keep) hca hb hba ha he
    obtain ⟨hsb, hrest⟩ := ih (fun c hc => htr c (List.mem_append_left _ hc)) hen
    refine ⟨hsb, ?_⟩
    rw [← hnext]
    exact .snoc a hrest hen'

variable [DecidableEq κ]

theorem Movers.pull_front (m : M.Movers I C owner Before) {k : κ} (hx : M.Execution s tr t)
    (hs : I s) (htr : ∀ e ∈ tr, C e ∧ (owner e ≠ k → Before k (owner e))) :
    M.Execution s ((tr.filter fun e => owner e = k) ++ tr.filter fun e => ¬ owner e = k) t := by
  induction hx with
  | nil => exact .nil
  | @snoc tr t e hx he ih =>
    have hpulled := ih fun a ha => htr a (List.mem_append_left _ ha)
    obtain ⟨hce, _⟩ := htr e (List.mem_append_right _ (List.mem_singleton_self e))
    rw [List.filter_append, List.filter_append]
    by_cases hk : owner e = k
    · obtain ⟨u, hfront, hrest⟩ := hpulled.split
      have hbehind : ∀ a ∈ tr.filter fun e => ¬ owner e = k, C a ∧ Before (owner e) (owner a) := by
        intro a ha
        obtain ⟨hmem, hne⟩ := List.mem_filter.mp ha
        obtain ⟨hca, hbefore⟩ := htr a (List.mem_append_left _ hmem)
        exact ⟨hca, hk ▸ hbefore (by simpa using hne)⟩
      obtain ⟨hen, hmoved⟩ := m.move_left hce hrest (hfront.invariant hs m.keep) hbehind he
      simpa [hk] using hfront.append (.cons hen hmoved)
    · simpa [hk] using Execution.snoc e hpulled he

/-- The owners take their turns one after the other. -/
theorem Movers.serial (m : M.Movers I C owner Before) (order : List κ) (hnodup : order.Nodup)
    (horder : order.Pairwise Before) (hx : M.Execution s tr t) (hs : I s)
    (htr : ∀ e ∈ tr, C e ∧ owner e ∈ order) :
    M.Execution s (order.flatMap fun k => tr.filter fun e => owner e = k) t := by
  induction order generalizing s tr with
  | nil =>
    cases tr with
    | nil => exact hx
    | cons e tr => exact absurd (htr e List.mem_cons_self).2 List.not_mem_nil
  | cons k rest ih =>
    obtain ⟨hk, hrest⟩ := List.nodup_cons.mp hnodup
    obtain ⟨hbefore, hpairs⟩ := List.pairwise_cons.mp horder
    have hpulled := m.pull_front (k := k) hx hs fun e he =>
      ⟨(htr e he).1, fun hne => hbefore _ ((List.mem_cons.mp (htr e he).2).resolve_left hne)⟩
    obtain ⟨u, hfront, hothers⟩ := hpulled.split
    have hlater := ih hrest hpairs hothers (hfront.invariant hs m.keep) fun e he => by
      obtain ⟨hmem, hne⟩ := List.mem_filter.mp he
      exact ⟨(htr e hmem).1, (List.mem_cons.mp (htr e hmem).2).resolve_left (by simpa using hne)⟩
    have hsame : (rest.flatMap fun j => (tr.filter fun e => ¬ owner e = k).filter
        fun e => owner e = j) = rest.flatMap fun j => tr.filter fun e => owner e = j := by
      refine List.flatMap_congr fun j hj => ?_
      rw [List.filter_filter]
      refine List.filter_congr fun e _ => ?_
      have hjk : j ≠ k := by
        rintro rfl
        exact hk hj
      by_cases he : owner e = j
      · simp [he, hjk]
      · simp [he]
    rw [hsame] at hlater
    exact hfront.append hlater

end Machine
