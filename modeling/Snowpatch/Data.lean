import Snowpatch.Library.KvTree
import Snowpatch.Library.Text
import Mathlib.Order.Lex
import Mathlib.Data.List.Lex
import Mathlib.Data.String.Basic

/-! The data the program stores, receives and sends, with the fields its logic reads.
bincode and the URL encoding are exact round trips here: a tree keyed by `SeriesId`
stands for the tree keyed by the eight serialized bytes, in the order of those bytes. -/
namespace Snowpatch

structure SeriesId where
  val : UInt64
  deriving Repr

/-- bincode writes a u64 as eight bytes, the least significant first. -/
def SeriesId.serialize (id : SeriesId) : List ℕ :=
  (List.range 8).map fun i => id.val.toNat / 256 ^ i % 256

theorem SeriesId.serialize_injective : Function.Injective SeriesId.serialize := by
  intro ⟨a⟩ ⟨b⟩ h
  have hd : ∀ i < 8, a.toNat / 256 ^ i % 256 = b.toNat / 256 ^ i % 256 := by
    intro i hi
    exact List.map_inj_left.mp h i (List.mem_range.mpr hi)
  have hsize : UInt64.size = 256 ^ 8 := by decide
  have hn : a.toNat = b.toNat :=
    Text.eq_of_digits (hsize ▸ a.toNat_lt_size) (hsize ▸ b.toNat_lt_size) hd
  exact congrArg SeriesId.mk (UInt64.toNat_inj.mp hn)

/-- sled orders keys by their bytes, so iteration follows the serialized form. -/
instance : LinearOrder SeriesId :=
  LinearOrder.lift' SeriesId.serialize SeriesId.serialize_injective

/-- `id.to_string()`: the key in the runner trees, in "seen by watchcat" and in branch names. -/
def SeriesId.toDecimal (id : SeriesId) : String := Nat.repr id.val.toNat

theorem parseU64_toDecimal (id : SeriesId) : Text.parseU64 id.toDecimal = some id.val :=
  Text.parseU64_repr id.val

theorem SeriesId.toDecimal_injective : Function.Injective SeriesId.toDecimal := by
  intro ⟨a⟩ ⟨b⟩ h
  have hp := parseU64_toDecimal ⟨a⟩
  rw [h, parseU64_toDecimal] at hp
  exact congrArg SeriesId.mk (Option.some.inj hp).symm

theorem toDecimal_inj {a b : SeriesId} : a.toDecimal = b.toDecimal ↔ a = b :=
  SeriesId.toDecimal_injective.eq_iff

theorem space_notMem_toDecimal (id : SeriesId) : ' ' ∉ id.toDecimal.toList :=
  Text.notMem_repr_of_not_digit (by decide) _

structure Url where
  text : String
  deriving DecidableEq, Repr

abbrev PatchId := UInt64

inductive TestState where
  | pending
  | success
  | warning
  | fail
  deriving DecidableEq, Repr

structure Check where
  state : TestState
  targetUrl : Option String
  context : String
  description : Option String
  deriving DecidableEq, Repr

/-- What is sent to Patchwork; `context` is sanitised when it is serialized. -/
structure TestResult where
  state : TestState
  targetUrl : Option String
  description : Option String
  context : Option String
  deriving DecidableEq, Repr

structure Patch where
  id : PatchId
  pullUrl : Option Url
  state : String
  deriving DecidableEq, Repr

def Patch.actionRequired (p : Patch) : Bool :=
  p.pullUrl.isNone && (p.state == "new" || p.state == "under-review")

structure Series where
  id : SeriesId
  mbox : Url
  patches : List PatchId
  receivedAll : Bool
  receivedTotal : UInt64
  deriving DecidableEq, Repr

inductive JobState where
  | waiting
  | running
  | completed
  | failed
  deriving DecidableEq, Repr

structure RunnerResult where
  name : String
  state : JobState
  outcome : TestState
  url : Option Url
  description : Option String
  deriving DecidableEq, Repr

inductive Trigger where
  | onPush (remote : String)
  | manual (data : String)
  deriving DecidableEq, Repr

/-- The only runner there is: `Runner::GitHub`. -/
structure RunnerConfig where
  trigger : Trigger
  url : Url
  token : Option String
  deriving DecidableEq, Repr

structure Config where
  name : String
  publicKey : String
  privateKey : String
  workers : ℕ
  patchworkUrl : Url
  patchworkToken : Option String
  runners : List RunnerConfig
  deriving DecidableEq, Repr

end Snowpatch
