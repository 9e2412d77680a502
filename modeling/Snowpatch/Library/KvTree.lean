import Mathlib.Data.Finmap
import Mathlib.Data.Finset.Max

/-! Ordered key-value trees with atomic moves, iterations and subscriptions. An iteration
clones one leaf of the tree and goes on over the clone; when that has nothing more past the
cursor, it clones the leaf that then follows. Where the leaves end is left open.
A subscriber counts the events it has not yet taken. -/

abbrev KvTree (κ ν : Type*) := Finmap fun _ : κ => ν

namespace KvTree

variable {κ ν : Type*}

theorem lookup_insert_eq_ite [DecidableEq κ] (t : KvTree κ ν) (a b : κ) (v : ν) :
    Finmap.lookup a (Finmap.insert b v t) = if a = b then some v else Finmap.lookup a t := by
  by_cases h : a = b
  · subst h; simp
  · simp [h, Finmap.lookup_insert_of_ne t h]

theorem lookup_erase_eq_ite [DecidableEq κ] (t : KvTree κ ν) (a b : κ) :
    Finmap.lookup a (Finmap.erase b t) = if a = b then none else Finmap.lookup a t := by
  by_cases h : a = b
  · subst h; simp
  · simp [h, Finmap.lookup_erase_ne h]

/-- The transaction of a move: the entry leaves one tree and enters the other with its
value, or the key is absent and nothing changes. -/
def move [DecidableEq κ] (old new : KvTree κ ν) (key : κ) : Option (KvTree κ ν × KvTree κ ν) :=
  (Finmap.lookup key old).map fun value => (Finmap.erase key old, Finmap.insert key value new)

section Family

variable {ι : Type*} [DecidableEq ι] [DecidableEq κ]

def moveBetween (f : ι → KvTree κ ν) (old new : ι) (key : κ) : Option (ι → KvTree κ ν) :=
  (move (f old) (f new) key).map fun p => Function.update (Function.update f old p.1) new p.2

def moved (f : ι → KvTree κ ν) (old new : ι) (key : κ) (value : ν) : ι → KvTree κ ν :=
  Function.update (Function.update f old (Finmap.erase key (f old))) new
    (Finmap.insert key value (f new))

theorem moveBetween_of_lookup {f : ι → KvTree κ ν} {old new : ι} {key : κ} {value : ν}
    (h : Finmap.lookup key (f old) = some value) :
    moveBetween f old new key = some (moved f old new key value) := by
  simp [moveBetween, move, h, moved]

theorem lookup_moved {f : ι → KvTree κ ν} {old new : ι} (hne : old ≠ new) (key a : κ)
    (value : ν) (i : ι) :
    Finmap.lookup a (moved f old new key value i) =
      if a = key then (if i = new then some value else if i = old then none
        else Finmap.lookup a (f i)) else Finmap.lookup a (f i) := by
  unfold moved
  by_cases hn : i = new
  · subst hn
    simp [lookup_insert_eq_ite]
  · by_cases ho : i = old
    · subst ho
      simp [hne, lookup_erase_eq_ite]
    · simp [hn, ho]

theorem mem_moved {f : ι → KvTree κ ν} {old new : ι} (hne : old ≠ new) {key a : κ}
    {value : ν} {i : ι} :
    a ∈ moved f old new key value i ↔
      (a = key ∧ i = new) ∨ (a ∈ f i ∧ ¬ (a = key ∧ i = old)) := by
  unfold moved
  by_cases hn : i = new
  · subst hn
    simp [Finmap.mem_insert, Ne.symm hne]
  · by_cases ho : i = old
    · subst ho
      simp [hne, Finmap.mem_erase, and_comm]
    · simp [hn, ho]

end Family

section Columns

variable {ι : Type*} [DecidableEq κ] {f g : ι → KvTree κ ν} {key : κ}

def column (f : ι → KvTree κ ν) (key : κ) : ι → Option ν := fun i => Finmap.lookup key (f i)

theorem ext_column (h : ∀ key, column f key = column g key) : f = g := by
  funext i
  exact Finmap.ext_lookup fun key => congrFun (h key) i

/-- An operation on the trees that reads and writes one key only. -/
def EditsAt (op : (ι → KvTree κ ν) → ι → KvTree κ ν) (key : κ) : Prop :=
  (∃ edit : (ι → Option ν) → ι → Option ν, ∀ f, column (op f) key = edit (column f key)) ∧
    ∀ f a, a ≠ key → column (op f) a = column f a

theorem EditsAt.comm {op op' : (ι → KvTree κ ν) → ι → KvTree κ ν} {key' : κ}
    (h : EditsAt op key) (h' : EditsAt op' key') (hne : key ≠ key') (f : ι → KvTree κ ν) :
    op' (op f) = op (op' f) := by
  obtain ⟨⟨edit, hedit⟩, hother⟩ := h
  obtain ⟨⟨edit', hedit'⟩, hother'⟩ := h'
  refine ext_column fun a => ?_
  by_cases ha : a = key
  · subst ha
    rw [hother' _ _ hne, hedit, hedit, hother' _ _ hne]
  · by_cases ha' : a = key'
    · subst ha'
      rw [hedit', hother _ _ ha, hother _ _ ha, hedit']
    · rw [hother' _ _ ha', hother _ _ ha, hother _ _ ha, hother' _ _ ha']

theorem editsAt_id (key : κ) : EditsAt (fun f : ι → KvTree κ ν => f) key :=
  ⟨⟨fun c => c, fun _ => rfl⟩, fun _ _ _ => rfl⟩

variable [DecidableEq ι]

theorem editsAt_insert (i : ι) (key : κ) (value : ν) : EditsAt
    (fun f : ι → KvTree κ ν => Function.update f i (Finmap.insert key value (f i))) key := by
  refine ⟨⟨fun c => Function.update c i (some value), fun f => ?_⟩, fun f a ha => ?_⟩
  · funext j
    by_cases hj : j = i
    · subst hj
      simp [column]
    · simp [column, hj]
  · funext j
    by_cases hj : j = i
    · subst hj
      simp [column, Finmap.lookup_insert_of_ne _ ha]
    · simp [column, hj]

theorem editsAt_erase (i : ι) (key : κ) : EditsAt
    (fun f : ι → KvTree κ ν => Function.update f i (Finmap.erase key (f i))) key := by
  refine ⟨⟨fun c => Function.update c i none, fun f => ?_⟩, fun f a ha => ?_⟩
  · funext j
    by_cases hj : j = i
    · subst hj
      simp [column]
    · simp [column, hj]
  · funext j
    by_cases hj : j = i
    · subst hj
      simp [column, Finmap.lookup_erase_ne ha]
    · simp [column, hj]

theorem editsAt_move {old new : ι} (hne : old ≠ new) (key : κ) : EditsAt
    (fun f : ι → KvTree κ ν => (moveBetween f old new key).getD f) key := by
  have hmove : ∀ f : ι → KvTree κ ν, (moveBetween f old new key).getD f =
      match Finmap.lookup key (f old) with
      | some value => moved f old new key value
      | none => f := by
    intro f
    cases hf : Finmap.lookup key (f old) with
    | none => simp [moveBetween, move, hf]
    | some value => simp [moveBetween_of_lookup hf]
  refine ⟨⟨fun c => match c old with
    | some value => Function.update (Function.update c old none) new (some value)
    | none => c, fun f => ?_⟩, fun f a ha => ?_⟩
  · simp only [hmove f]
    cases hf : Finmap.lookup key (f old) with
    | none => simp [column, hf]
    | some value =>
      funext i
      simp only [column, hf, lookup_moved hne]
      by_cases hi : i = new
      · subst hi
        simp
      · by_cases ho : i = old
        · subst ho
          simp [hne]
        · simp [hi, ho, column]
  · simp only [hmove f]
    cases hf : Finmap.lookup key (f old) with
    | none => rfl
    | some value =>
      funext i
      simp [column, lookup_moved hne, ha]

end Columns

def IsEmpty (t : KvTree κ ν) : Prop := t.keys = ∅

instance [DecidableEq κ] (t : KvTree κ ν) : Decidable (IsEmpty t) :=
  inferInstanceAs (Decidable (t.keys = ∅))

theorem isEmpty_iff {t : KvTree κ ν} : IsEmpty t ↔ ∀ k, k ∉ t := by
  simp [IsEmpty, Finset.eq_empty_iff_forall_notMem, Finmap.mem_keys]

section Cursor

variable [LinearOrder κ]

/-- The least element past a cursor; `⊤` when there is none. -/
def nextIn (s : Finset κ) (cursor : WithBot κ) : WithTop κ :=
  (s.filter fun k : κ => cursor < (k : WithBot κ)).min

theorem of_nextIn_eq {s : Finset κ} {cursor : WithBot κ} {k : κ}
    (h : nextIn s cursor = (k : WithTop κ)) : k ∈ s ∧ cursor < (k : WithBot κ) ∧
      ∀ a ∈ s, cursor < (a : WithBot κ) → k ≤ a := by
  obtain ⟨hk, hc⟩ := Finset.mem_filter.mp (Finset.mem_of_min h)
  exact ⟨hk, hc, fun a ha hca => Finset.min_le_of_eq (Finset.mem_filter.mpr ⟨ha, hca⟩) h⟩

theorem nextIn_eq_top {s : Finset κ} {cursor : WithBot κ} :
    nextIn s cursor = ⊤ ↔ ∀ k ∈ s, ¬ cursor < (k : WithBot κ) := by
  simp only [nextIn, Finset.min_eq_top, Finset.filter_eq_empty_iff]

theorem card_after_lt {bound : Finset κ} {cursor : WithBot κ} {k : κ}
    (hlt : cursor < (k : WithBot κ)) (hk : k ∈ bound) :
    (bound.filter fun a : κ => (k : WithBot κ) < (a : WithBot κ)).card <
      (bound.filter fun a : κ => cursor < (a : WithBot κ)).card := by
  refine Finset.card_lt_card (Finset.ssubset_iff_of_subset ?_ |>.mpr ?_)
  · intro a ha
    obtain ⟨ha, hka⟩ := Finset.mem_filter.mp ha
    exact Finset.mem_filter.mpr ⟨ha, hlt.trans hka⟩
  · exact ⟨k, Finset.mem_filter.mpr ⟨hk, hlt⟩, by simp⟩

def first (t : KvTree κ ν) (cursor : WithBot κ) : WithTop κ := nextIn t.keys cursor

theorem of_first_eq {t : KvTree κ ν} {cursor : WithBot κ} {k : κ}
    (h : first t cursor = (k : WithTop κ)) : k ∈ t ∧ cursor < (k : WithBot κ) ∧
      ∀ a ∈ t, cursor < (a : WithBot κ) → k ≤ a := by
  obtain ⟨hk, hlt, hleast⟩ := of_nextIn_eq h
  exact ⟨Finmap.mem_keys.mp hk, hlt, fun a ha => hleast a (Finmap.mem_keys.mpr ha)⟩

theorem first_eq_top {t : KvTree κ ν} {cursor : WithBot κ} :
    first t cursor = ⊤ ↔ ∀ k ∈ t, ¬ cursor < (k : WithBot κ) := by
  simp only [first, nextIn_eq_top, Finmap.mem_keys]

theorem mem_of_first {t : KvTree κ ν} {cursor : WithBot κ} {k : κ}
    (h : first t cursor = (k : WithTop κ)) : k ∈ t :=
  (of_first_eq h).1

end Cursor

section Leaves

variable [LinearOrder κ]

/-- Where a leaf begins or ends: before all keys, at a key, or after all keys. -/
abbrev Bound (κ : Type*) := WithBot (WithTop κ)

abbrev Bound.key (k : κ) : Bound κ := ((k : WithTop κ) : WithBot (WithTop κ))

/-- The entries from one bound up to another. -/
def slice (t : KvTree κ ν) (lo hi : Bound κ) : KvTree κ ν where
  entries := t.entries.filter fun entry => lo ≤ Bound.key entry.1 ∧ Bound.key entry.1 < hi
  nodupKeys := by
    obtain ⟨entries, h⟩ := t
    induction entries using Quotient.inductionOn with
    | h l =>
      refine List.NodupKeys.sublist ?_ (Multiset.coe_nodupKeys.mp h)
      exact List.filter_sublist

theorem lookup_slice [DecidableEq κ] {t : KvTree κ ν} {lo hi : Bound κ} {k : κ} {v : ν} :
    Finmap.lookup k (slice t lo hi) = some v ↔
      Finmap.lookup k t = some v ∧ lo ≤ Bound.key k ∧ Bound.key k < hi := by
  obtain ⟨entries, h⟩ := t
  induction entries using Quotient.inductionOn with
  | h l =>
    have hl : l.NodupKeys := Multiset.coe_nodupKeys.mp h
    have hf := hl.sublist (List.filter_sublist (p := fun entry : Sigma fun _ : κ => ν =>
      decide (lo ≤ Bound.key entry.1 ∧ Bound.key entry.1 < hi)))
    refine (List.mem_dlookup_iff hf).trans ?_
    rw [List.mem_filter, decide_eq_true_iff]
    exact and_congr_left fun _ => (List.mem_dlookup_iff hl).symm

theorem mem_slice {t : KvTree κ ν} {lo hi : Bound κ} {k : κ} :
    k ∈ slice t lo hi ↔ k ∈ t ∧ lo ≤ Bound.key k ∧ Bound.key k < hi := by
  simp only [Finmap.mem_iff, lookup_slice, exists_and_right]

/-- The leaf an iteration has cloned. What lies from `hi` on it has not read. -/
structure Leaf (κ ν : Type*) [LinearOrder κ] where
  entries : KvTree κ ν
  hi : Bound κ
  below : ∀ k ∈ entries, Bound.key k < hi

namespace Leaf

variable {l : Leaf κ ν} {t : KvTree κ ν} {cursor : WithBot κ} {hi : Bound κ} {k : κ}

def start : Leaf κ ν := ⟨∅, ⊥, fun _ hk => absurd hk Finmap.notMem_empty⟩

def read (l : Leaf κ ν) (t : KvTree κ ν) (hi : Bound κ) : Leaf κ ν :=
  ⟨slice t l.hi hi, hi, fun _ hk => (mem_slice.mp hk).2.2⟩

def whole (t : KvTree κ ν) : Leaf κ ν := start.read t ⊤

def next (l : Leaf κ ν) (cursor : WithBot κ) : WithTop κ := first l.entries cursor

/-- The iteration clones the leaf after this one, or passes it by when nothing is found there
past the cursor. -/
def Reads (l : Leaf κ ν) (t : KvTree κ ν) (cursor : WithBot κ) (l' : Leaf κ ν)
    (found : Bool) : Prop :=
  l.next cursor = ⊤ ∧ l.hi < l'.hi ∧ l' = l.read t l'.hi ∧ (found = true ↔ l'.next cursor ≠ ⊤)

def Ends (l : Leaf κ ν) (t : KvTree κ ν) (cursor : WithBot κ) : Prop :=
  l.next cursor = ⊤ ∧ (l.read t ⊤).next cursor = ⊤

instance instDecidableEnds : Decidable (l.Ends t cursor) :=
  inferInstanceAs (Decidable (_ ∧ _))

theorem ready (l : Leaf κ ν) (t : KvTree κ ν) (cursor : WithBot κ) :
    (∃ k : κ, l.next cursor = (k : WithTop κ)) ∨ l.Reads t cursor (l.read t ⊤) true ∨
      l.Ends t cursor := by
  cases hnext : l.next cursor with
  | coe k => exact Or.inl ⟨k, rfl⟩
  | top =>
    by_cases hrest : (l.read t ⊤).next cursor = ⊤
    · exact Or.inr (Or.inr ⟨hnext, hrest⟩)
    · obtain ⟨k, hk⟩ := WithTop.ne_top_iff_exists.mp hrest
      obtain ⟨_, hlo, hhi⟩ := mem_slice.mp (mem_of_first hk.symm)
      exact Or.inr (Or.inl ⟨hnext, hlo.trans_lt hhi, rfl, by simp [hrest]⟩)

/-- The iteration can still come to the key: it is in the clone or in what is not yet read. -/
def Ahead (l : Leaf κ ν) (cursor : WithBot κ) (k : κ) : Prop :=
  cursor < (k : WithBot κ) ∧ (k ∈ l.entries ∨ l.hi ≤ Bound.key k)

theorem ahead_start (k : κ) : (start : Leaf κ ν).Ahead ⊥ k :=
  ⟨WithBot.bot_lt_coe k, Or.inr bot_le⟩

theorem Ahead.next_le {j : κ} (h : l.Ahead cursor k) (hnext : l.next cursor = (j : WithTop κ)) :
    j ≤ k := by
  obtain ⟨hj, _, hleast⟩ := of_first_eq hnext
  rcases h.2 with hk | hk
  · exact hleast k hk h.1
  · have hjk : Bound.key j < Bound.key k := (l.below j hj).trans_le hk
    exact (WithTop.coe_lt_coe.mp (WithBot.coe_lt_coe.mp hjk)).le

theorem Ahead.yield {j : κ} (h : l.Ahead cursor k) (hnext : l.next cursor = (j : WithTop κ))
    (hne : j ≠ k) : l.Ahead j k :=
  ⟨WithBot.coe_lt_coe.mpr ((h.next_le hnext).lt_of_ne hne), h.2⟩

/-- A leaf that is read holds the keys of the tree that it is to hold. -/
theorem Ahead.read (h : l.Ahead cursor k) (hnext : l.next cursor = ⊤) (hk : k ∈ t)
    (hi : Bound κ) : (l.read t hi).Ahead cursor k := by
  refine ⟨h.1, ?_⟩
  have hrest : l.hi ≤ Bound.key k := h.2.resolve_left fun hin => first_eq_top.mp hnext k hin h.1
  by_cases hhi : hi ≤ Bound.key k
  · exact Or.inr hhi
  · exact Or.inl (mem_slice.mpr ⟨hk, hrest, not_le.mp hhi⟩)

theorem Reads.ahead {l' : Leaf κ ν} {found : Bool} (h : l.Reads t cursor l' found) (hk : k ∈ t)
    (hahead : l.Ahead cursor k) : l'.Ahead cursor k := by
  rw [h.2.2.1]
  exact hahead.read h.1 hk l'.hi

theorem reads_whole (h : (whole t).next cursor ≠ ⊤) :
    (start : Leaf κ ν).Reads t cursor (whole t) true :=
  ⟨first_eq_top.mpr fun _ hk => absurd hk Finmap.notMem_empty, bot_lt_top, rfl,
    iff_of_true rfl h⟩

theorem Ends.not_ahead (h : l.Ends t cursor) (hk : k ∈ t) : ¬ l.Ahead cursor k := by
  intro hahead
  obtain ⟨hlt, hin⟩ := hahead.read h.1 hk ⊤
  rcases hin with hin | hin
  · exact first_eq_top.mp h.2 k hin hlt
  · exact absurd hin (not_le.mpr (WithBot.coe_lt_coe.mpr (WithTop.coe_lt_top k)))

theorem Reads.lookup [DecidableEq κ] {l' : Leaf κ ν} {found : Bool} {v : ν}
    (h : l.Reads t cursor l' found) (hk : Finmap.lookup k l'.entries = some v) :
    Finmap.lookup k t = some v := by
  rw [h.2.2.1] at hk
  exact (lookup_slice.mp hk).1

theorem Reads.mem {l' : Leaf κ ν} {found : Bool} (h : l.Reads t cursor l' found)
    (hk : k ∈ l'.entries) : k ∈ t := by
  rw [h.2.2.1] at hk
  exact (mem_slice.mp hk).1

/-- An iteration that so far has met what it is to meet: it has cloned nothing but keys of
`keys`, and those past the cursor are all to come. -/
structure Covers (l : Leaf κ ν) (keys : Finset κ) (cursor : WithBot κ) : Prop where
  sound : ∀ k ∈ l.entries, k ∈ keys
  ahead : ∀ k ∈ keys, cursor < (k : WithBot κ) → l.Ahead cursor k

theorem covers_start (keys : Finset κ) : (start : Leaf κ ν).Covers keys ⊥ where
  sound _ h := absurd h Finmap.notMem_empty
  ahead k _ _ := ahead_start k

variable {keys : Finset κ}

/-- It is kept as long as what is read of the tree is what the keys have there. -/
theorem Covers.read {l' : Leaf κ ν} {found : Bool} (h : l.Covers keys cursor)
    (hreads : l.Reads t cursor l' found)
    (hsame : ∀ k, l.hi ≤ Bound.key k → Bound.key k < l'.hi → (k ∈ t ↔ k ∈ keys)) :
    l'.Covers keys cursor := by
  obtain ⟨hnext, _, hl', _⟩ := hreads
  have hmem : ∀ k, k ∈ l'.entries ↔ k ∈ t ∧ l.hi ≤ Bound.key k ∧ Bound.key k < l'.hi := by
    intro k
    rw [hl']
    exact mem_slice
  refine ⟨fun k hk => ?_, fun k hk hlt => ⟨hlt, ?_⟩⟩
  · obtain ⟨hkt, hlo, hhi⟩ := (hmem k).mp hk
    exact (hsame k hlo hhi).mp hkt
  · have hlo : l.hi ≤ Bound.key k :=
      (h.ahead k hk hlt).2.resolve_left fun hin => first_eq_top.mp hnext k hin hlt
    by_cases hhi : l'.hi ≤ Bound.key k
    · exact Or.inr hhi
    · exact Or.inl ((hmem k).mpr ⟨(hsame k hlo (not_le.mp hhi)).mpr hk, hlo, not_le.mp hhi⟩)

/-- It yields the least key past its cursor. -/
theorem Covers.next_eq (h : l.Covers keys cursor) (hnext : l.next cursor = (k : WithTop κ)) :
    nextIn keys cursor = (k : WithTop κ) := by
  obtain ⟨hk, hlt, _⟩ := of_first_eq hnext
  refine le_antisymm ?_ (Finset.le_min fun a ha => ?_)
  · exact Finset.min_le (Finset.mem_filter.mpr ⟨h.sound k hk, hlt⟩)
  · obtain ⟨ha, hlta⟩ := Finset.mem_filter.mp ha
    exact WithTop.coe_le_coe.mpr ((h.ahead a ha hlta).next_le hnext)

theorem Covers.yield (h : l.Covers keys cursor) (hnext : l.next cursor = (k : WithTop κ)) :
    l.Covers keys k where
  sound := h.sound
  ahead a ha hlt :=
    (h.ahead a ha ((of_first_eq hnext).2.1.trans hlt)).yield hnext (WithBot.coe_lt_coe.mp hlt).ne

theorem Covers.next_top (h : l.Covers keys cursor) (hend : l.Ends t cursor)
    (hsame : ∀ k, l.hi ≤ Bound.key k → (k ∈ t ↔ k ∈ keys)) : nextIn keys cursor = ⊤ := by
  refine nextIn_eq_top.mpr fun k hk hlt => ?_
  have hahead := h.ahead k hk hlt
  have hlo : l.hi ≤ Bound.key k :=
    hahead.2.resolve_left fun hin => first_eq_top.mp hend.1 k hin hlt
  exact hend.not_ahead ((hsame k hlo).mpr hk) hahead

end Leaf

end Leaves

end KvTree

/-- Where a consumer stands between its last iteration and the next one: it registers a
subscriber, tests the tree, and blocks until the subscriber holds an event. -/
inductive Waiting where
  | register
  | test (events : ℕ)
  | blocked (events : ℕ)
  deriving DecidableEq, Repr

inductive WaitEvent where
  | register
  | found
  | sleep
  | wake
  deriving DecidableEq, Repr

namespace Waiting

/-- A change of the tree reaches every subscriber registered before it. -/
def notify : Waiting → Waiting
  | .register => .register
  | .test n => .test (n + 1)
  | .blocked n => .blocked (n + 1)

def Enabled (empty : Prop) (w : Waiting) : WaitEvent → Prop
  | .register => w = .register
  | .found => ¬ empty ∧ ∃ n, w = .test n
  | .sleep => empty ∧ ∃ n, w = .test n
  | .wake => ∃ n, w = .blocked (n + 1)

/-- The next position, or none once the wait has returned. -/
def next : Waiting → WaitEvent → Option Waiting
  | _, .register => some (.test 0)
  | .test n, .sleep => some (.blocked n)
  | _, _ => none

def Sound (empty : Prop) (w : Waiting) : Prop := ∀ n, w = .blocked n → empty ∨ 0 < n

theorem sound_notify (empty : Prop) (w : Waiting) : Sound empty w.notify := by
  intro n hn
  cases w with
  | register => cases hn
  | test m => cases hn
  | blocked m =>
    obtain rfl := Waiting.blocked.inj hn
    exact Or.inr (Nat.succ_pos m)

theorem Sound.mono {empty empty' : Prop} {w : Waiting} (h : Sound empty w)
    (he : empty → empty') : Sound empty' w :=
  fun n hn => (h n hn).imp_left he

/-- The emptiness test runs after the registration, so it justifies the block. -/
theorem sound_next {empty : Prop} {w w' : Waiting} {e : WaitEvent}
    (he : Enabled empty w e) (hw : w.next e = some w') : Sound empty w' := by
  intro n hn
  subst hn
  cases e with
  | register => simp [next] at hw
  | found =>
    obtain ⟨_, m, rfl⟩ := he
    simp [next] at hw
  | sleep => exact Or.inl he.1
  | wake =>
    obtain ⟨m, rfl⟩ := he
    simp [next] at hw

end Waiting
