import Snowpatch.Runner
import Snowpatch.Library.Machine

/-! The dispatcher: `wait_and_send`, with `send_check` spelled out request by request.
Patchwork lists every check on a patch and never drops one; the last patch of a series is
fixed. Any error ends the process, so an event stands for a request that was answered. -/
namespace Snowpatch

/-- Only ASCII letters and digits, '-' and '_' survive; everything else becomes '_'. -/
def fixChar (c : Char) : Char :=
  if c.isAlphanum || c == '-' || c == '_' then c else '_'

def serializeContext : Option String → String
  | some ctx => String.ofList (ctx.toList.map fixChar)
  | none => "snowpatch-0_9_1"

/-- The check Patchwork stores for a result. -/
def TestResult.encode (r : TestResult) : Check :=
  ⟨r.state, r.targetUrl, serializeContext r.context, r.description⟩

/-- The handle, series and job name of a key, or none for an error of the parser. -/
def parseEntry (key : String) : Option (String × SeriesId × String) :=
  match Text.split ' ' key with
  | handle :: series :: parts =>
    (Text.parseU64 series).map fun n => (handle, ⟨n⟩, Text.join ' ' parts)
  | _ => none

def checkToSend (handle jobName : String) (r : RunnerResult) : TestResult :=
  { state := r.outcome
    targetUrl := r.url.map Url.text
    description := r.description
    context := some (handle ++ "-" ++ jobName) }

theorem parseEntry_dispatchKey {handle : String} (hh : ' ' ∉ handle.toList) (id : SeriesId)
    (name : String) :
    parseEntry (dispatchKey handle id.toDecimal name) = some (handle, id, name) := by
  have hk : dispatchKey handle id.toDecimal name =
      handle ++ String.singleton ' ' ++ (id.toDecimal ++ String.singleton ' ' ++ name) := by
    simp [dispatchKey, String.append_assoc]
  have hs : Text.split ' ' (dispatchKey handle id.toDecimal name) =
      handle :: id.toDecimal :: Text.split ' ' name := by
    rw [hk, Text.split_cons hh, Text.split_cons (space_notMem_toDecimal id)]
  simp [parseEntry, hs, parseU64_toDecimal, Text.join_split]

namespace Dispatch

inductive Pc where
  | off
  | iterate (cursor : WithBot String) (keysToDrop : List String)
  | sending (key : String) (value : RunnerResult) (keysToDrop : List String)
  | checking (key : String) (id : SeriesId) (patch : PatchId) (result : TestResult)
      (keysToDrop : List String)
  | posting (key : String) (id : SeriesId) (patch : PatchId) (result : TestResult)
      (keysToDrop : List String)
  | dropping (keys : List String)
  | waiting (w : Waiting)
  | aborted

def Pc.notify : Pc → Pc
  | .waiting w => .waiting w.notify
  | pc => pc

def Pc.cursor : Pc → WithBot String
  | .iterate cursor _ => cursor
  | .sending key _ _ | .checking key _ _ _ _ | .posting key _ _ _ _ => key
  | .off | .dropping _ | .waiting _ | .aborted => ⊥

@[simp] theorem Pc.cursor_notify (pc : Pc) : pc.notify.cursor = pc.cursor := by
  cases pc <;> rfl

inductive Event where
  | read (leaf : KvTree.Leaf String RunnerResult) (found : Bool)
  | take (key : String)
  | noToken
  | getSeries (patch : PatchId)
  | duplicate
  | unique
  | post (id : SeriesId) (patch : PatchId) (check : Check)
  | postBreaks (id : SeriesId) (patch : PatchId) (check : Check)
  | ends
  | drop (key : String)
  | dropped
  | wait (e : WaitEvent)

structure State where
  db : Db
  checks : PatchId → List Check
  pc : Pc
  leaf : KvTree.Leaf String RunnerResult

variable (token : Option String) (lastPatch : SeriesId → Option PatchId)

/-- The duplicate protection compares the sanitised contexts. -/
def IsDuplicate (checks : List Check) (r : TestResult) : Prop :=
  ∃ c ∈ checks, c.context = r.encode.context

def Enabled (s : State) : Event → Prop
  | .read leaf found => ∃ cursor drop, s.pc = .iterate cursor drop ∧
      s.leaf.Reads s.db.needsDispatch cursor leaf found
  | .take key => ∃ cursor drop, s.pc = .iterate cursor drop ∧
      s.leaf.next cursor = (key : WithTop String)
  | .noToken => token = none ∧ ∃ key value drop, s.pc = .sending key value drop ∧
      (parseEntry key).isSome
  | .getSeries patch => token.isSome ∧ ∃ key value drop handle id name,
      s.pc = .sending key value drop ∧ parseEntry key = some (handle, id, name) ∧
      lastPatch id = some patch
  | .duplicate => ∃ key id patch result drop, s.pc = .checking key id patch result drop ∧
      IsDuplicate (s.checks patch) result
  | .unique => ∃ key id patch result drop, s.pc = .checking key id patch result drop ∧
      ¬ IsDuplicate (s.checks patch) result
  | .post id patch check | .postBreaks id patch check => ∃ key result drop,
      s.pc = .posting key id patch result drop ∧ check = result.encode
  | .ends => ∃ cursor drop, s.pc = .iterate cursor drop ∧
      s.leaf.Ends s.db.needsDispatch cursor
  | .drop key => ∃ rest, s.pc = .dropping (key :: rest)
  | .dropped => s.pc = .dropping []
  | .wait e => ∃ w, s.pc = .waiting w ∧ w.Enabled (KvTree.IsEmpty s.db.needsDispatch) e

def nextPc (s : State) : Event → Pc
  | .read _ _ => s.pc
  | .take key => match s.pc, Finmap.lookup key s.leaf.entries with
    | .iterate _ drop, some value => .sending key value drop
    | pc, _ => pc
  | .noToken => match s.pc with
    | .sending key _ drop => .iterate key (drop ++ [key])
    | pc => pc
  | .getSeries patch => match s.pc with
    | .sending key value drop => match parseEntry key with
      | some (handle, id, name) => .checking key id patch (checkToSend handle name value) drop
      | none => .aborted
    | pc => pc
  | .duplicate => match s.pc with
    | .checking key _ _ _ drop => .iterate key (drop ++ [key])
    | pc => pc
  | .unique => match s.pc with
    | .checking key id patch result drop => .posting key id patch result drop
    | pc => pc
  | .post _ _ _ => match s.pc with
    | .posting key _ _ _ drop => .iterate key (drop ++ [key])
    | pc => pc
  | .postBreaks _ _ _ => .aborted
  | .ends => match s.pc with
    | .iterate _ drop => .dropping drop
    | pc => pc
  | .drop _ => match s.pc with
    | .dropping (_ :: rest) => .dropping rest
    | pc => pc
  | .dropped => .waiting .register
  | .wait e => match s.pc with
    | .waiting w => ((w.next e).map Pc.waiting).getD (.iterate ⊥ [])
    | pc => pc

/-- A stored check stays on its patch. `postBreaks` is stored although the answer is lost. -/
def nextChecks (checks : PatchId → List Check) : Event → PatchId → List Check
  | .post _ patch check | .postBreaks _ patch check =>
    Function.update checks patch (checks patch ++ [check])
  | _ => checks

def nextDb (db : Db) : Event → Db
  | .drop key => { db with needsDispatch := Finmap.erase key db.needsDispatch }
  | _ => db

def nextLeaf (leaf : KvTree.Leaf String RunnerResult) : Event → KvTree.Leaf String RunnerResult
  | .read leaf _ => leaf
  | .ends | .wait _ => .start
  | _ => leaf

def next (s : State) (e : Event) : State :=
  ⟨nextDb s.db e, nextChecks s.checks e, nextPc s e, nextLeaf s.leaf e⟩

def Pc.Between : Pc → Prop
  | .iterate _ _ | .dropping _ | .waiting _ | .aborted => True
  | .off | .sending _ _ _ | .checking _ _ _ _ _ | .posting _ _ _ _ _ => False

def Pc.InHand : Pc → Prop
  | .sending _ _ _ | .checking _ _ _ _ _ | .posting _ _ _ _ _ => True
  | .off | .iterate _ _ | .dropping _ | .waiting _ | .aborted => False

theorem eq_of_notify_inHand {pc : Pc} (h : pc.notify.InHand) : pc.notify = pc := by
  cases pc with
  | waiting w => exact h.elim
  | off | iterate | sending | checking | posting | dropping | aborted => rfl

section Inversion

variable {token lastPatch} {s : State} {e : Event}

/-- How the dispatcher comes to have an entry in hand: it takes one of its leaf, it parses the
key and fetches the series, or it finds no listed check with the sanitised context. -/
theorem nextPc_cases (he : Enabled token lastPatch s e) :
    (∃ key value drop, Finmap.lookup key s.leaf.entries = some value ∧
      nextPc s e = .sending key value drop) ∨
    (∃ key value drop handle id name patch, s.pc = .sending key value drop ∧
      parseEntry key = some (handle, id, name) ∧ lastPatch id = some patch ∧
      nextPc s e = .checking key id patch (checkToSend handle name value) drop) ∨
    (∃ key id patch result drop, s.pc = .checking key id patch result drop ∧
      ¬ IsDuplicate (s.checks patch) result ∧
      nextPc s e = .posting key id patch result drop) ∨
    (nextPc s e).Between := by
  cases e with
  | read =>
    obtain ⟨cursor, drop, hpc, _⟩ := he
    simp [nextPc, hpc, Pc.Between]
  | take key =>
    obtain ⟨cursor, drop, hpc, hnext⟩ := he
    obtain ⟨value, hv⟩ := Finmap.mem_iff.mp (KvTree.mem_of_first hnext)
    exact Or.inl ⟨key, value, drop, hv, by simp [nextPc, hpc, hv]⟩
  | noToken =>
    obtain ⟨_, key, value, drop, hpc, _⟩ := he
    simp [nextPc, hpc, Pc.Between]
  | getSeries patch =>
    obtain ⟨_, key, value, drop, handle, id, name, hpc, hparse, hlast⟩ := he
    refine Or.inr (Or.inl ⟨key, value, drop, handle, id, name, patch, hpc, hparse, hlast, ?_⟩)
    simp [nextPc, hpc, hparse]
  | duplicate =>
    obtain ⟨key, id, patch, result, drop, hpc, _⟩ := he
    simp [nextPc, hpc, Pc.Between]
  | unique =>
    obtain ⟨key, id, patch, result, drop, hpc, hdup⟩ := he
    refine Or.inr (Or.inr (Or.inl ⟨key, id, patch, result, drop, hpc, hdup, ?_⟩))
    simp [nextPc, hpc]
  | post =>
    obtain ⟨key, result, drop, hpc, _⟩ := he
    simp [nextPc, hpc, Pc.Between]
  | ends =>
    obtain ⟨cursor, drop, hpc, _⟩ := he
    simp [nextPc, hpc, Pc.Between]
  | drop =>
    obtain ⟨rest, hpc⟩ := he
    simp [nextPc, hpc, Pc.Between]
  | postBreaks | dropped => simp [nextPc, Pc.Between]
  | wait e =>
    obtain ⟨w, hpc, _⟩ := he
    cases hn : w.next e <;> simp [nextPc, hpc, hn, Pc.Between]

theorem nextDb_elsewhere (db : Db) (e : Event) :
    ∃ entries, nextDb db e = { db with needsDispatch := entries } := by
  cases e <;> exact ⟨_, rfl⟩

/-- The dispatcher adds no entry and changes none. -/
theorem lookup_nextDb {db : Db} {key : String} {job : RunnerResult}
    (h : Finmap.lookup key (nextDb db e).needsDispatch = some job) :
    Finmap.lookup key db.needsDispatch = some job := by
  cases e with
  | drop k =>
    simp only [nextDb, KvTree.lookup_erase_eq_ite] at h
    split at h
    · cases h
    · exact h
  | _ => exact h

end Inversion

end Dispatch

end Snowpatch
