import Mathlib.Data.List.Basic
import Mathlib.Tactic.Common

/-! Text as bytes. Encoding is that of the language; decoding is lossy and total: a longest
beginning of a character that is not a character becomes one replacement character. Text that
has been encoded is read back as it was. -/
namespace Utf8

def encode (s : String) : List UInt8 := s.toList.flatMap String.utf8EncodeChar

def decodeChar (bytes : List UInt8) : Option Char := bytes.toByteArray.utf8DecodeChar? 0

/-- Whether a byte may follow the first one of a character of three or four bytes. -/
def continues (first second : UInt8) : Bool :=
  (first == 0xE0 && 0xA0 ≤ second && second ≤ 0xBF) ||
  (0xE1 ≤ first && first ≤ 0xEC && 0x80 ≤ second && second ≤ 0xBF) ||
  (first == 0xED && 0x80 ≤ second && second ≤ 0x9F) ||
  (0xEE ≤ first && first ≤ 0xEF && 0x80 ≤ second && second ≤ 0xBF) ||
  (first == 0xF0 && 0x90 ≤ second && second ≤ 0xBF) ||
  (0xF1 ≤ first && first ≤ 0xF3 && 0x80 ≤ second && second ≤ 0xBF) ||
  (first == 0xF4 && 0x80 ≤ second && second ≤ 0x8F)

/-- How many bytes one replacement character stands for, where no character begins. -/
def invalidLength : List UInt8 → ℕ
  | first :: second :: third :: _ =>
    if continues first second then
      if 0xF0 ≤ first && 0x80 ≤ third && third ≤ 0xBF then 3 else 2
    else 1
  | [first, second] => if continues first second then 2 else 1
  | _ => 1

/-- The first character and the number of its bytes. -/
def decodeStep (bytes : List UInt8) : Char × ℕ :=
  match decodeChar bytes with
  | some c => (c, c.utf8Size)
  | none => ('\uFFFD', invalidLength bytes)

def decodeChars : ℕ → List UInt8 → List Char
  | _, [] => []
  | 0, _ :: _ => []
  | n + 1, b :: rest =>
    let step := decodeStep (b :: rest)
    step.1 :: decodeChars n ((b :: rest).drop step.2)

def decodeLossy (bytes : List UInt8) : String := String.ofList (decodeChars bytes.length bytes)

theorem decodeStep_encode (c : Char) (rest : List UInt8) :
    decodeStep (String.utf8EncodeChar c ++ rest) = (c, c.utf8Size) := by
  have hc : decodeChar (String.utf8EncodeChar c ++ rest) = some c := by
    rw [decodeChar, List.toByteArray_append]
    exact ByteArray.utf8DecodeChar?_utf8EncodeChar_append
  rw [decodeStep, hc]

theorem decodeChars_encode (l : List Char) (n : ℕ)
    (hn : (l.flatMap String.utf8EncodeChar).length ≤ n) :
    decodeChars n (l.flatMap String.utf8EncodeChar) = l := by
  induction l generalizing n with
  | nil => cases n <;> rfl
  | cons c l ih =>
    have hpos := c.utf8Size_pos
    have hlen : (String.utf8EncodeChar c).length = c.utf8Size := String.length_utf8EncodeChar c
    rw [List.flatMap_cons, List.length_append, hlen] at hn
    obtain ⟨m, rfl⟩ : ∃ m, n = m + 1 := ⟨n - 1, by omega⟩
    have hcons : ∃ b bs, String.utf8EncodeChar c ++ l.flatMap String.utf8EncodeChar = b :: bs := by
      refine List.exists_cons_of_ne_nil ?_
      intro hnil
      have h0 := congrArg List.length hnil
      rw [List.length_append, hlen] at h0
      simp only [List.length_nil] at h0
      omega
    have hstep := decodeStep_encode c (l.flatMap String.utf8EncodeChar)
    have hdrop : (String.utf8EncodeChar c ++ l.flatMap String.utf8EncodeChar).drop c.utf8Size =
        l.flatMap String.utf8EncodeChar := by
      rw [← hlen, List.drop_left]
    obtain ⟨b, bs, hb⟩ := hcons
    rw [List.flatMap_cons, hb, decodeChars, ← hb, hstep, hdrop, ih m (by omega)]

theorem decodeLossy_encode (s : String) : decodeLossy (encode s) = s := by
  rw [decodeLossy, encode, decodeChars_encode _ _ (Nat.le_refl _), String.ofList_toList]

/-- Strict decoding: bytes that are no encoding of a text are refused. -/
def decode (bytes : List UInt8) : Option String :=
  if encode (decodeLossy bytes) = bytes then some (decodeLossy bytes) else none

theorem decode_encode (s : String) : decode (encode s) = some s := by
  rw [decode, decodeLossy_encode, if_pos rfl]

example : decodeLossy [0x47, 0xE2, 0x82, 0xFF, 0xC3, 0xA9] = "G\uFFFD\uFFFDé" := by decide

end Utf8
