import Mathlib.Algebra.Group.Nat.Defs
import Mathlib.Data.List.Basic
import Mathlib.Tactic.Common

/-! Keys as text and bytes: splitting at a separator, joining the parts again, decimal
numbers, numbers of a fixed width.
Splitting keeps empty segments, so a join of all parts is always the original text. -/
namespace Text

def split (sep : Char) (s : String) : List String :=
  (s.toList.splitOn sep).map String.ofList

def join (sep : Char) (parts : List String) : String :=
  String.ofList ([sep].intercalate (parts.map String.toList))

theorem join_split (sep : Char) (s : String) : join sep (split sep s) = s := by
  have hparts : (split sep s).map String.toList = s.toList.splitOn sep := by
    simp [split, List.map_map, Function.comp_def]
  rw [join, hparts, List.intercalate_splitOn, String.ofList_toList]

/-- A segment without the separator is split off as it is, whatever follows it. -/
theorem split_cons {sep : Char} {s : String} (hs : sep ∉ s.toList) (rest : String) :
    split sep (s ++ String.singleton sep ++ rest) = s :: split sep rest := by
  have hl : (s ++ String.singleton sep ++ rest).toList = s.toList ++ sep :: rest.toList := by
    simp
  rw [split, hl, List.splitOn_append_cons_self_of_not_mem hs, List.map_cons,
    String.ofList_toList, split]

/-- Unsigned decimal parsing at 64 bits: an optional plus sign, at least one digit and
no other character, and no value past the largest representable one. -/
def parseU64 (s : String) : Option UInt64 :=
  let digits := match s.toList with
    | '+' :: rest => rest
    | cs => cs
  if !digits.isEmpty && digits.all Char.isDigit &&
      (Nat.ofDigitChars 10 digits 0).blt UInt64.size then
    some (UInt64.ofNat (Nat.ofDigitChars 10 digits 0))
  else none

theorem digits_of_repr (n : ℕ) : ∀ c ∈ (Nat.repr n).toList, c.isDigit = true := by
  intro c hc
  rw [Nat.toList_repr] at hc
  exact Nat.isDigit_of_mem_toDigits (by omega) (by omega) hc

theorem notMem_repr_of_not_digit {c : Char} (hc : c.isDigit = false) (n : ℕ) :
    c ∉ (Nat.repr n).toList := by
  intro hm
  rw [digits_of_repr n c hm] at hc
  cases hc

theorem repr_injective : Function.Injective Nat.repr := by
  intro a b h
  have hd := congrArg (fun s => Nat.ofDigitChars 10 s.toList 0) h
  simpa [Nat.toList_repr, Nat.ofDigitChars_ten_toDigits] using hd

theorem parseU64_repr (n : UInt64) : parseU64 (Nat.repr n.toNat) = some n := by
  have hplus : '+' ∉ (Nat.repr n.toNat).toList := notMem_repr_of_not_digit (by decide) _
  have hsign : (match (Nat.repr n.toNat).toList with
      | '+' :: rest => rest
      | cs => cs) = (Nat.repr n.toNat).toList := by
    split
    · next rest h => exact absurd (h ▸ List.mem_cons_self) hplus
    · rfl
  have hval : Nat.ofDigitChars 10 (Nat.repr n.toNat).toList 0 = n.toNat := by
    rw [Nat.toList_repr, Nat.ofDigitChars_ten_toDigits]
  have hne : (Nat.repr n.toNat).toList.isEmpty = false := by
    rw [Nat.toList_repr, List.isEmpty_eq_false_iff]
    exact Nat.toDigits_ne_nil
  have hall : (Nat.repr n.toNat).toList.all Char.isDigit = true :=
    List.all_eq_true.mpr (digits_of_repr _)
  have hlt : n.toNat.blt UInt64.size = true := Nat.ble_eq.mpr n.toNat_lt_size
  simp only [parseU64, hsign, hval]
  rw [if_pos (by rw [hne, hall, hlt]; rfl), UInt64.ofNat_toNat]

example : parseU64 "+42" = some 42 ∧ parseU64 "" = none ∧ parseU64 "4 2" = none := by decide

theorem eq_of_digits {base k a b : ℕ} (ha : a < base ^ k) (hb : b < base ^ k)
    (hd : ∀ i < k, a / base ^ i % base = b / base ^ i % base) : a = b := by
  induction k generalizing a b with
  | zero =>
    rw [pow_zero] at ha hb
    omega
  | succ k ih =>
    have hpow : base ^ (k + 1) = base * base ^ k := pow_succ' base k
    have hmod : a % base = b % base := by simpa using hd 0 k.succ_pos
    have hdiv : a / base = b / base := by
      apply ih
      · exact Nat.div_lt_of_lt_mul (hpow ▸ ha)
      · exact Nat.div_lt_of_lt_mul (hpow ▸ hb)
      · intro i hi
        have hi' := hd (i + 1) (Nat.succ_lt_succ hi)
        rwa [pow_succ', ← Nat.div_div_eq_div_mul, ← Nat.div_div_eq_div_mul] at hi'
    calc a = base * (a / base) + a % base := (Nat.div_add_mod a base).symm
      _ = base * (b / base) + b % base := by rw [hdiv, hmod]
      _ = b := Nat.div_add_mod b base

end Text
