import Snowpatch.Library.Machine
import Snowpatch.Library.KvTree

/-! Passes over a tree that changes under the iteration. In between the keys it yields, others
insert and remove. A pass yields its keys in ascending order, and it yields every key that it
can still come to and that nobody removes: all that were there when it began, and all that were
there when their leaf was read. -/
namespace Machine

variable {σ ε κ ν : Type*} [LinearOrder κ]

/-- `yields` are the events by which the consumer takes a key, and only they move its cursor
while the pass goes on. `Removes` are the steps of others that take a key away from it. -/
structure Sweeps (M : Machine σ ε) (tree : σ → KvTree κ ν) (cursor : σ → WithBot κ)
    (leaf : σ → KvTree.Leaf κ ν) (yields : ε → Option κ) (InPass : ε → Prop)
    (Removes : ε → κ → Prop) : Prop where
  yield : ∀ s e (k : κ), M.Enabled s e → yields e = some k →
    (leaf s).next (cursor s) = (k : WithTop κ) ∧ cursor (M.next s e) = k ∧
      leaf (M.next s e) = leaf s
  quiet : ∀ s e, M.Enabled s e → InPass e → yields e = none →
    cursor (M.next s e) = cursor s ∧ (leaf (M.next s e) = leaf s ∨
      ∃ found, (leaf s).Reads (tree s) (cursor s) (leaf (M.next s e)) found)
  kept : ∀ s e (k : κ), M.Enabled s e → InPass e → (leaf s).Ahead (cursor s) k → k ∈ tree s →
    k ∈ tree (M.next s e) ∨ Removes e k

namespace Sweeps

variable {M : Machine σ ε} {tree : σ → KvTree κ ν} {cursor : σ → WithBot κ}
  {leaf : σ → KvTree.Leaf κ ν} {yields : ε → Option κ} {InPass : ε → Prop}
  {Removes : ε → κ → Prop} {s t : σ} {tr : List ε}

theorem ascending (w : M.Sweeps tree cursor leaf yields InPass Removes)
    (hx : M.Execution s tr t) (hin : ∀ e ∈ tr, InPass e) :
    (tr.filterMap yields).Pairwise (· < ·) ∧
      (∀ k ∈ tr.filterMap yields, cursor s < (k : WithBot κ) ∧ (k : WithBot κ) ≤ cursor t) ∧
      cursor s ≤ cursor t := by
  induction hx with
  | nil => exact ⟨.nil, by simp, le_rfl⟩
  | @snoc tr t e hx he ih =>
    obtain ⟨hpairs, hbounds, hle⟩ := ih fun a ha => hin a (List.mem_append_left _ ha)
    have hine := hin e (List.mem_append_right _ (List.mem_singleton_self e))
    cases hy : yields e with
    | none =>
      have hsame : (tr ++ [e]).filterMap yields = tr.filterMap yields := by simp [hy]
      rw [hsame, (w.quiet t e he hine hy).1]
      exact ⟨hpairs, hbounds, hle⟩
    | some k =>
      have hgrown : (tr ++ [e]).filterMap yields = tr.filterMap yields ++ [k] := by simp [hy]
      obtain ⟨hnext, hcursor, _⟩ := w.yield t e k he hy
      have hk : cursor t < (k : WithBot κ) := (KvTree.of_first_eq hnext).2.1
      rw [hgrown, hcursor]
      refine ⟨List.pairwise_append.mpr ⟨hpairs, List.pairwise_singleton _ _, ?_⟩, ?_,
        (hle.trans_lt hk).le⟩
      · intro a ha b hb
        obtain rfl := List.mem_singleton.mp hb
        exact WithBot.coe_lt_coe.mp ((hbounds a ha).2.trans_lt hk)
      · intro a ha
        rcases List.mem_append.mp ha with ha | ha
        · exact ⟨(hbounds a ha).1, ((hbounds a ha).2.trans_lt hk).le⟩
        · obtain rfl := List.mem_singleton.mp ha
          exact ⟨hle.trans_lt hk, le_rfl⟩

theorem ahead_step (w : M.Sweeps tree cursor leaf yields InPass Removes) {e : ε}
    (he : M.Enabled s e) (hin : InPass e) {k : κ} (hk : k ∈ tree s)
    (hahead : (leaf s).Ahead (cursor s) k) : yields e = some k ∨ Removes e k ∨
      (k ∈ tree (M.next s e) ∧ (leaf (M.next s e)).Ahead (cursor (M.next s e)) k) := by
  rcases w.kept s e k he hin hahead hk with hkept | hr
  · cases hy : yields e with
    | none =>
      obtain ⟨hcursor, hleaf | ⟨_, hreads⟩⟩ := w.quiet s e he hin hy
      · exact Or.inr (Or.inr ⟨hkept, by rw [hleaf, hcursor]; exact hahead⟩)
      · exact Or.inr (Or.inr ⟨hkept, by rw [hcursor]; exact hreads.ahead hk hahead⟩)
    | some j =>
      obtain ⟨hnext, hcursor, hleaf⟩ := w.yield s e j he hy
      by_cases hjk : j = k
      · exact Or.inl (by rw [hjk])
      · exact Or.inr (Or.inr ⟨hkept, by rw [hleaf, hcursor]; exact hahead.yield hnext hjk⟩)
  · exact Or.inr (Or.inl hr)

theorem ahead (w : M.Sweeps tree cursor leaf yields InPass Removes) (hx : M.Execution s tr t)
    (hin : ∀ e ∈ tr, InPass e) {k : κ} (hk : k ∈ tree s)
    (hahead : (leaf s).Ahead (cursor s) k) :
    k ∈ tr.filterMap yields ∨ (∃ e ∈ tr, Removes e k) ∨
      (k ∈ tree t ∧ (leaf t).Ahead (cursor t) k) := by
  induction hx with
  | nil => exact Or.inr (Or.inr ⟨hk, hahead⟩)
  | @snoc tr t e hx he ih =>
    have hlast : e ∈ tr ++ [e] := List.mem_append_right _ (List.mem_singleton_self e)
    rw [List.filterMap_append]
    rcases ih fun a ha => hin a (List.mem_append_left _ ha) with hy | ⟨a, ha, hr⟩ | ⟨hkt, hat⟩
    · exact Or.inl (List.mem_append_left _ hy)
    · exact Or.inr (Or.inl ⟨a, List.mem_append_left _ ha, hr⟩)
    rcases w.ahead_step he (hin e hlast) hkt hat with hy | hr | hnext
    · exact Or.inl (List.mem_append_right _ (by simp [hy]))
    · exact Or.inr (Or.inl ⟨e, hlast, hr⟩)
    · exact Or.inr (Or.inr hnext)

/-- A pass that comes to its end has yielded every key that was ahead of it, or somebody else
has removed it. -/
theorem complete (w : M.Sweeps tree cursor leaf yields InPass Removes)
    (hx : M.Execution s tr t) (hin : ∀ e ∈ tr, InPass e)
    (hend : (leaf t).Ends (tree t) (cursor t)) {k : κ} (hk : k ∈ tree s)
    (hahead : (leaf s).Ahead (cursor s) k) :
    k ∈ tr.filterMap yields ∨ ∃ e ∈ tr, Removes e k := by
  rcases w.ahead hx hin hk hahead with hy | hr | ⟨hkt, hat⟩
  · exact Or.inl hy
  · exact Or.inr hr
  · exact absurd hat (hend.not_ahead hkt)

end Sweeps

/-- A consumer that has one key in hand at a time: it takes the next one only after it has
finished with the one before. -/
structure OneByOne {κ : Type*} (M : Machine σ ε) (takes finishes : ε → Option κ)
    (InPass : ε → Prop) (hand : σ → Option κ) : Prop where
  take : ∀ s e k, M.Enabled s e → takes e = some k →
    hand s = none ∧ hand (M.next s e) = some k ∧ finishes e = none
  finish : ∀ s e k, M.Enabled s e → finishes e = some k →
    hand s = some k ∧ hand (M.next s e) = none ∧ takes e = none
  other : ∀ s e, M.Enabled s e → InPass e → takes e = none → finishes e = none →
    hand (M.next s e) = hand s

theorem OneByOne.finished {κ : Type*} {M : Machine σ ε} {takes finishes : ε → Option κ}
    {InPass : ε → Prop} {hand : σ → Option κ} {s t : σ} {tr : List ε}
    (w : M.OneByOne takes finishes InPass hand) (hx : M.Execution s tr t)
    (hin : ∀ e ∈ tr, InPass e) (hs : hand s = none) :
    tr.filterMap takes = tr.filterMap finishes ++ (hand t).toList := by
  induction hx with
  | nil => simp [hs]
  | @snoc tr t e hx he ih =>
    have hrun := ih fun a ha => hin a (List.mem_append_left _ ha)
    have hine := hin e (List.mem_append_right _ (List.mem_singleton_self e))
    cases ht : takes e with
    | some k =>
      obtain ⟨hfree, hhand, hf⟩ := w.take t e k he ht
      simpa [ht, hf, hhand, hfree] using hrun
    | none => cases hf : finishes e with
      | some k =>
        obtain ⟨hhand, hfree, _⟩ := w.finish t e k he hf
        simpa [ht, hf, hhand, hfree] using hrun
      | none => simpa [ht, hf, w.other t e he hine ht hf] using hrun

end Machine
