import Snowpatch.Library.KvTree
import Snowpatch.Library.Utf8
import Mathlib.Data.List.Lex
import Mathlib.Data.String.Basic

/-! Trees of bytes and the typed trees they hold. Keys are ordered by their bytes; a way to
write keys that keeps their order makes the two kinds of trees agree in everything an iteration
or a lookup can tell. UTF-8 is such a way. -/

instance instLinearOrderUInt8 : LinearOrder UInt8 where
  le_refl := UInt8.le_refl
  le_trans _ _ _ := UInt8.le_trans
  lt_iff_le_not_ge a b := by simp only [UInt8.lt_iff_toNat_lt, UInt8.le_iff_toNat_le]; omega
  le_antisymm _ _ := UInt8.le_antisymm
  le_total := UInt8.le_total
  toDecidableLE := inferInstance
  toDecidableLT := inferInstance

namespace Utf8

theorem encodeChar_lt {c d : Char} (h : c < d) (x y : List UInt8) :
    String.utf8EncodeChar c ++ x < String.utf8EncodeChar d ++ y := by
  have hlt : c.val.toNat < d.val.toNat := h
  have hd : d.val.toNat < 0x110000 := by
    rcases d.valid with hv | ⟨_, hv⟩
    · exact hv.trans (by decide)
    · exact hv
  simp only [String.utf8EncodeChar]
  generalize c.val.toNat = v at hlt
  generalize d.val.toNat = w at hlt hd
  have hsteps : ∀ n : ℕ, n / 4096 = n / 64 / 64 ∧ n / 262144 = n / 64 / 64 / 64 := by omega
  rw [(hsteps v).1, (hsteps v).2, (hsteps w).1, (hsteps w).2]
  split_ifs <;>
    simp only [List.cons_append, List.nil_append, List.cons_lt_cons_iff, UInt8.lt_iff_toNat_lt,
      ← UInt8.toNat_inj, UInt8.toNat_ofNat'] <;>
    omega

theorem encode_chars_lt {l m : List Char} (h : l < m) :
    l.flatMap String.utf8EncodeChar < m.flatMap String.utf8EncodeChar := by
  induction h with
  | @nil c m =>
    obtain ⟨b, bs, hb⟩ := List.exists_cons_of_ne_nil (String.utf8EncodeChar_ne_nil (c := c))
    rw [List.flatMap_nil, List.flatMap_cons, hb]
    exact List.nil_lt_cons _ _
  | rel h => exact encodeChar_lt h _ _
  | cons _ ih =>
    rw [List.flatMap_cons, List.flatMap_cons]
    exact List.Lex.append_left _ ih _

theorem encode_strictMono : StrictMono encode := by
  intro s t h
  exact encode_chars_lt (String.lt_iff_toList_lt.mp h)

end Utf8

namespace KvTree

variable {κ κ' ν : Type*} [LinearOrder κ] [LinearOrder κ']

theorem nextIn_eq_coe {s : Finset κ} {cursor : WithBot κ} {k : κ} (hk : k ∈ s)
    (hc : cursor < (k : WithBot κ)) (hleast : ∀ a ∈ s, cursor < (a : WithBot κ) → k ≤ a) :
    nextIn s cursor = (k : WithTop κ) := by
  cases hnext : nextIn s cursor with
  | top => exact absurd hc (nextIn_eq_top.mp hnext k hk)
  | coe a =>
    obtain ⟨ha, hca, hle⟩ := of_nextIn_eq hnext
    rw [le_antisymm (hle k hk hc) (hleast a ha hca)]

theorem nextIn_written {f : κ → κ'} (hf : StrictMono f) {s : Finset κ} {s' : Finset κ'}
    (hs : ∀ b, b ∈ s' ↔ ∃ k ∈ s, f k = b) (cursor : WithBot κ) :
    nextIn s' (cursor.map f) = (nextIn s cursor).map f := by
  have hlt : ∀ k : κ, cursor.map f < (f k : WithBot κ') ↔ cursor < (k : WithBot κ) := by
    intro k
    cases cursor with
    | bot => simp
    | coe c => simp [hf.lt_iff_lt]
  cases hnext : nextIn s cursor with
  | top =>
    refine nextIn_eq_top.mpr fun b hb => ?_
    obtain ⟨k, hk, rfl⟩ := (hs b).mp hb
    rw [hlt]
    exact nextIn_eq_top.mp hnext k hk
  | coe k =>
    obtain ⟨hk, hc, hleast⟩ := of_nextIn_eq hnext
    refine nextIn_eq_coe ((hs _).mpr ⟨k, hk, rfl⟩) ((hlt k).mpr hc) fun b hb hcb => ?_
    obtain ⟨a, ha, rfl⟩ := (hs b).mp hb
    exact hf.monotone (hleast a ha ((hlt a).mp hcb))

end KvTree

namespace ByteTree

abbrev Bytes := List UInt8

/-- How values are written, and what is read back of those that fit. -/
structure Format (α : Type*) where
  write : α → Bytes
  read : Bytes → Option α
  Fits : α → Prop
  read_write : ∀ a, Fits a → read (write a) = some a

/-- How keys are written: each of them can be, and their order is kept. -/
structure KeyFormat (κ : Type*) [LinearOrder κ] where
  write : κ → Bytes
  read : Bytes → Option κ
  read_write : ∀ k, read (write k) = some k
  strictMono : StrictMono write

variable {κ ν : Type*} [LinearOrder κ] {kf : KeyFormat κ} {vf : Format ν}
  {bytes bytes' : KvTree Bytes Bytes} {t t' : KvTree κ ν} {key : κ} {value : ν}

/-- The bytes are those of the typed tree. -/
structure Holds (kf : KeyFormat κ) (vf : Format ν) (bytes : KvTree Bytes Bytes)
    (t : KvTree κ ν) : Prop where
  lookup : ∀ key, Finmap.lookup (kf.write key) bytes = (Finmap.lookup key t).map vf.write
  keys : ∀ b ∈ bytes, ∃ key, b = kf.write key
  fits : ∀ key value, Finmap.lookup key t = some value → vf.Fits value

/-- What a program reads from the bytes is what the typed tree has: the next key past a key,
whether a key is there, and the value under it. -/
structure Reads (kf : KeyFormat κ) (vf : Format ν) (bytes : KvTree Bytes Bytes)
    (t : KvTree κ ν) : Prop where
  first : ∀ cursor : WithBot κ,
    KvTree.first bytes (cursor.map kf.write) = (KvTree.first t cursor).map kf.write
  key : ∀ b ∈ bytes, ∃ key ∈ t, kf.read b = some key ∧ b = kf.write key
  mem : ∀ key, kf.write key ∈ bytes ↔ key ∈ t
  value : ∀ key, (Finmap.lookup (kf.write key) bytes).bind vf.read = Finmap.lookup key t
  isEmpty : KvTree.IsEmpty bytes ↔ KvTree.IsEmpty t

namespace Holds

theorem empty : Holds kf vf ∅ (∅ : KvTree κ ν) where
  lookup _ := rfl
  keys _ h := absurd h Finmap.notMem_empty
  fits _ _ h := by cases h

theorem mem_iff (h : Holds kf vf bytes t) : kf.write key ∈ bytes ↔ key ∈ t := by
  simp only [Finmap.mem_iff, h.lookup key, Option.map_eq_some_iff]
  exact ⟨fun ⟨_, v, hv, _⟩ => ⟨v, hv⟩, fun ⟨v, hv⟩ => ⟨_, v, hv, rfl⟩⟩

theorem insert (h : Holds kf vf bytes t) (key : κ) (value : ν) (hv : vf.Fits value) :
    Holds kf vf (Finmap.insert (kf.write key) (vf.write value) bytes)
      (Finmap.insert key value t) where
  lookup a := by
    rw [KvTree.lookup_insert_eq_ite, KvTree.lookup_insert_eq_ite]
    by_cases ha : a = key
    · simp [ha]
    · rw [if_neg ha, if_neg (kf.strictMono.injective.ne ha), h.lookup a]
  keys b hb := by
    rcases Finmap.mem_insert.mp hb with rfl | hb
    · exact ⟨key, rfl⟩
    · exact h.keys b hb
  fits a v ha := by
    rw [KvTree.lookup_insert_eq_ite] at ha
    split_ifs at ha with hkey
    · exact Option.some.inj ha ▸ hv
    · exact h.fits a v ha

theorem erase (h : Holds kf vf bytes t) (key : κ) :
    Holds kf vf (Finmap.erase (kf.write key) bytes) (Finmap.erase key t) where
  lookup a := by
    rw [KvTree.lookup_erase_eq_ite, KvTree.lookup_erase_eq_ite]
    by_cases ha : a = key
    · simp [ha]
    · rw [if_neg ha, if_neg (kf.strictMono.injective.ne ha), h.lookup a]
  keys b hb := h.keys b (Finmap.mem_erase.mp hb).2
  fits a v ha := by
    rw [KvTree.lookup_erase_eq_ite] at ha
    split_ifs at ha
    exact h.fits a v ha

theorem move (h : Holds kf vf bytes t) (h' : Holds kf vf bytes' t')
    (hv : Finmap.lookup key t = some value) :
    KvTree.move bytes bytes' (kf.write key) = some (Finmap.erase (kf.write key) bytes,
      Finmap.insert (kf.write key) (vf.write value) bytes') ∧
    Holds kf vf (Finmap.erase (kf.write key) bytes) (Finmap.erase key t) ∧
    Holds kf vf (Finmap.insert (kf.write key) (vf.write value) bytes')
      (Finmap.insert key value t') := by
  refine ⟨?_, h.erase key, h'.insert key value (h.fits key value hv)⟩
  rw [KvTree.move, h.lookup key, hv]
  rfl

theorem mem_keys (h : Holds kf vf bytes t) (b : Bytes) :
    b ∈ bytes ↔ ∃ key ∈ t, kf.write key = b := by
  constructor
  · intro hb
    obtain ⟨key, rfl⟩ := h.keys b hb
    exact ⟨key, h.mem_iff.mp hb, rfl⟩
  · rintro ⟨key, hkey, rfl⟩
    exact h.mem_iff.mpr hkey

theorem reads (h : Holds kf vf bytes t) : Reads kf vf bytes t where
  first cursor := by
    refine KvTree.nextIn_written kf.strictMono (fun b => ?_) cursor
    simpa only [Finmap.mem_keys] using h.mem_keys b
  key b hb := by
    obtain ⟨key, hkey, rfl⟩ := (h.mem_keys b).mp hb
    exact ⟨key, hkey, kf.read_write key, rfl⟩
  mem _ := h.mem_iff
  value key := by
    rw [h.lookup key]
    cases hv : Finmap.lookup key t with
    | none => rfl
    | some value => exact vf.read_write value (h.fits key value hv)
  isEmpty := by
    rw [KvTree.isEmpty_iff, KvTree.isEmpty_iff]
    constructor
    · exact fun hempty key hkey => hempty _ (h.mem_iff.mpr hkey)
    · intro hempty b hb
      obtain ⟨key, hkey, _⟩ := (h.mem_keys b).mp hb
      exact hempty key hkey

end Holds

/-- There is one typed tree that is read from the bytes. -/
theorem Reads.unique (h : Reads kf vf bytes t) (h' : Reads kf vf bytes t') : t = t' :=
  Finmap.ext_lookup fun key => (h.value key).symm.trans (h'.value key)

end ByteTree
