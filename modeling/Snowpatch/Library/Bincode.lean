import Snowpatch.Library.Utf8
import Mathlib.Algebra.Group.Nat.Defs

/-! Values as bytes, without names or types: numbers of a fixed width with the least
significant byte first, texts behind their length, optional values behind one byte, variants
by their index. What has been written is read back, whatever comes after it. -/
namespace Bincode

/-- A value at the front of the bytes. A text whose length is no number of 64 bits does not
fit. -/
structure Codec (α : Type*) where
  encode : α → List UInt8
  decode : List UInt8 → Option (α × List UInt8)
  Fits : α → Prop
  decode_encode : ∀ a rest, Fits a → decode (encode a ++ rest) = some (a, rest)

variable {α β : Type*}

section Numbers

def encodeNat : ℕ → ℕ → List UInt8
  | 0, _ => []
  | width + 1, n => UInt8.ofNat (n % 256) :: encodeNat width (n / 256)

def decodeNat : ℕ → List UInt8 → Option (ℕ × List UInt8)
  | 0, bytes => some (0, bytes)
  | _ + 1, [] => none
  | width + 1, b :: bytes => (decodeNat width bytes).map fun p => (b.toNat + 256 * p.1, p.2)

theorem toNat_ofNat_mod (n : ℕ) : (UInt8.ofNat (n % 256)).toNat = n % 256 :=
  UInt8.toNat_ofNat_of_lt' (Nat.mod_lt n (by decide))

theorem decodeNat_encodeNat {width n : ℕ} (h : n < 256 ^ width) (rest : List UInt8) :
    decodeNat width (encodeNat width n ++ rest) = some (n, rest) := by
  induction width generalizing n with
  | zero =>
    obtain rfl : n = 0 := Nat.lt_one_iff.mp h
    rfl
  | succ width ih =>
    have hdiv : n / 256 < 256 ^ width := Nat.div_lt_of_lt_mul (Nat.pow_succ' ▸ h)
    rw [encodeNat, List.cons_append, decodeNat, ih hdiv, Option.map_some, toNat_ofNat_mod,
      Nat.mod_add_div]

theorem encodeNat_digits (width n : ℕ) : (encodeNat width n).map UInt8.toNat =
    (List.range width).map fun i => n / 256 ^ i % 256 := by
  induction width generalizing n with
  | zero => rfl
  | succ width ih =>
    rw [encodeNat, List.map_cons, toNat_ofNat_mod, ih, List.range_succ_eq_map, List.map_cons,
      List.map_map, Nat.pow_zero, Nat.div_one]
    refine congrArg _ (List.map_congr_left fun i _ => ?_)
    rw [Function.comp_apply, Nat.succ_eq_add_one, Nat.pow_succ', Nat.div_div_eq_div_mul]

def nat (width : ℕ) : Codec ℕ where
  encode := encodeNat width
  decode := decodeNat width
  Fits n := n < 256 ^ width
  decode_encode _ rest h := decodeNat_encodeNat h rest

end Numbers

section Values

def text : Codec String where
  encode s := encodeNat 8 (Utf8.encode s).length ++ Utf8.encode s
  decode bytes := (decodeNat 8 bytes).bind fun p =>
    if p.1 ≤ p.2.length then (Utf8.decode (p.2.take p.1)).map fun s => (s, p.2.drop p.1)
    else none
  Fits s := (Utf8.encode s).length < 256 ^ 8
  decode_encode := by
    intro s rest h
    rw [List.append_assoc, decodeNat_encodeNat h, Option.bind_some, if_pos (by simp),
      List.take_left, List.drop_left, Utf8.decode_encode]
    rfl

def option (c : Codec α) : Codec (Option α) where
  encode
    | none => [0]
    | some a => 1 :: c.encode a
  decode
    | [] => none
    | b :: bytes =>
      if b = 0 then some (none, bytes)
      else if b = 1 then (c.decode bytes).map fun p => (some p.1, p.2) else none
  Fits a := ∀ b ∈ a, c.Fits b
  decode_encode := by
    intro a rest h
    cases a with
    | none => rfl
    | some a => simp [c.decode_encode a rest (h a rfl)]

def pair (c : Codec α) (d : Codec β) : Codec (α × β) where
  encode p := c.encode p.1 ++ d.encode p.2
  decode bytes := (c.decode bytes).bind fun p => (d.decode p.2).map fun q => ((p.1, q.1), q.2)
  Fits p := c.Fits p.1 ∧ d.Fits p.2
  decode_encode := by
    intro p rest h
    rw [List.append_assoc, c.decode_encode _ _ h.1, Option.bind_some, d.decode_encode _ _ h.2]
    rfl

def Codec.via (c : Codec β) (f : α → β) (g : β → Option α) (hg : ∀ a, g (f a) = some a) :
    Codec α where
  encode a := c.encode (f a)
  decode bytes := (c.decode bytes).bind fun p => (g p.1).map fun a => (a, p.2)
  Fits a := c.Fits (f a)
  decode_encode := by
    intro a rest h
    rw [c.decode_encode _ _ h, Option.bind_some, hg]
    rfl

/-- The variants of an enumeration, by their index among 32-bit numbers. -/
def enum [DecidableEq α] (variants : List α) : Codec α where
  encode a := encodeNat 4 (variants.idxOf a)
  decode bytes := (decodeNat 4 bytes).bind fun p => (variants[p.1]?).map fun a => (a, p.2)
  Fits a := a ∈ variants ∧ variants.idxOf a < 256 ^ 4
  decode_encode := by
    rintro a rest ⟨hmem, h⟩
    rw [decodeNat_encodeNat h, Option.bind_some, List.getElem?_idxOf hmem]
    rfl

end Values

/-- The value the bytes begin with; whatever comes after it is ignored. -/
def Codec.deserialize (c : Codec α) (bytes : List UInt8) : Option α :=
  (c.decode bytes).map Prod.fst

theorem Codec.deserialize_encode (c : Codec α) {a : α} (h : c.Fits a) :
    c.deserialize (c.encode a) = some a := by
  have hdecode := c.decode_encode a [] h
  rw [List.append_nil] at hdecode
  rw [deserialize, hdecode]
  rfl

end Bincode
