import Mathlib.Data.List.Basic
import Mathlib.Data.List.Induction
import Mathlib.Data.List.Nodup
import Mathlib.Tactic.Common

/-! The first element of a list for each key, as a loop collects them that skips every key
it has met before. -/
namespace Firsts

variable {α κ : Type*} [DecidableEq κ] (key : α → κ)

def firsts (l : List α) : List α :=
  l.foldl (fun kept a => if key a ∈ kept.map key then kept else kept ++ [a]) []

theorem firsts_concat (l : List α) (a : α) :
    firsts key (l ++ [a]) =
      if key a ∈ (firsts key l).map key then firsts key l else firsts key l ++ [a] := by
  simp [firsts, List.foldl_append]

theorem mem_map_firsts {l : List α} {k : κ} : k ∈ (firsts key l).map key ↔ k ∈ l.map key := by
  induction l using List.reverseRecOn with
  | nil => simp [firsts]
  | append_singleton l a ih =>
    rw [firsts_concat, List.map_append, List.mem_append, ← ih]
    split
    · next ha =>
      constructor
      · exact Or.inl
      · rintro (hk | hk)
        · exact hk
        · rw [List.mem_singleton.mp hk]
          exact ha
    · rw [List.map_append, List.mem_append]

theorem nodup_map_firsts (l : List α) : ((firsts key l).map key).Nodup := by
  induction l using List.reverseRecOn with
  | nil => simp [firsts]
  | append_singleton l a ih =>
    rw [firsts_concat]
    split
    · exact ih
    · next ha =>
      rw [List.map_append, List.nodup_append]
      refine ⟨ih, by simp, ?_⟩
      intro k hk k' hk' heq
      rw [List.mem_singleton.mp hk'] at heq
      exact ha (heq ▸ hk)

/-- What is kept for a key is the first element with it. -/
theorem filter_firsts (l : List α) (k : κ) :
    (firsts key l).filter (fun a => decide (key a = k)) =
      (l.find? fun a => decide (key a = k)).toList := by
  induction l using List.reverseRecOn with
  | nil => rfl
  | append_singleton l b ih =>
    rw [firsts_concat, List.find?_append]
    by_cases hk : key b = k
    · have hmem : key b ∈ (firsts key l).map key ↔
          (l.find? fun a => decide (key a = k)).isSome := by
        rw [mem_map_firsts, List.find?_isSome, List.mem_map, hk]
        simp
      cases hf : l.find? fun a => decide (key a = k) with
      | some c =>
        rw [if_pos (hmem.mpr (by rw [hf]; rfl)), ih, hf]
        rfl
      | none =>
        rw [if_neg (fun h => by simpa [hf] using hmem.mp h), List.filter_append, ih, hf]
        simp [hk]
    · have hb : [b].find? (fun a => decide (key a = k)) = none := by simp [hk]
      rw [hb, Option.or_none, ← ih]
      split
      · rfl
      · simp [List.filter_append, hk]

theorem mem_firsts {l : List α} {a : α} :
    a ∈ firsts key l ↔ l.find? (fun b => decide (key b = key a)) = some a := by
  rw [← Option.mem_toList, ← filter_firsts, List.mem_filter]
  simp

theorem exists_mem_firsts {l : List α} {a : α} (ha : a ∈ l) :
    ∃ b ∈ firsts key l, key b = key a := by
  have hk : key a ∈ (firsts key l).map key :=
    (mem_map_firsts key).mpr (List.mem_map_of_mem ha)
  obtain ⟨b, hb, hba⟩ := List.mem_map.mp hk
  exact ⟨b, hb, hba⟩

/-- The firsts of a list are all elements of a longer one when the rest has no new key and no
two elements share a key. -/
theorem forall_mem_firsts_iff {l rest : List α} : (∀ a ∈ l ++ rest, a ∈ firsts key l) ↔
    (∀ a ∈ rest, ∃ b ∈ l, key b = key a) ∧
      ∀ a ∈ l ++ rest, ∀ b ∈ l ++ rest, key a = key b → a = b := by
  have hmem : ∀ a ∈ firsts key l, a ∈ l := fun a ha =>
    List.mem_of_find?_eq_some ((mem_firsts key).mp ha)
  constructor
  · intro h
    refine ⟨fun a ha => ⟨a, hmem a (h a (List.mem_append_right l ha)), rfl⟩, ?_⟩
    intro a ha b hb hab
    exact List.inj_on_of_nodup_map (nodup_map_firsts key l) (h a ha) (h b hb) hab
  · rintro ⟨hrest, hinj⟩ a ha
    obtain ⟨b, hb, hba⟩ : ∃ b ∈ l, key b = key a := by
      rcases List.mem_append.mp ha with hl | hr
      · exact ⟨a, hl, rfl⟩
      · exact hrest a hr
    obtain ⟨first, hfirst, hkey⟩ := exists_mem_firsts key hb
    have heq := hinj first (List.mem_append_left rest (hmem first hfirst)) a ha (hkey.trans hba)
    exact heq ▸ hfirst

theorem firsts_eq_nil {l : List α} : firsts key l = [] ↔ l = [] := by
  constructor
  · intro h
    cases l with
    | nil => rfl
    | cons a l =>
      obtain ⟨b, hb, _⟩ := exists_mem_firsts key (List.mem_cons_self (a := a) (l := l))
      rw [h] at hb
      cases hb
  · rintro rfl
    rfl

end Firsts
