import Snowpatch.Dispatch
import Snowpatch.Library.Utf8

/-! The keys of a series on its way from the git stage to its checks. The trees hold bytes:
`do_work` writes the id as text, the watcher reads it back, `wait_for_completion` puts it into
the key of a result and `wait_and_send` takes that key apart. -/
namespace Snowpatch.DispatchKeys

/-- The key that `do_work` inserts into "{runner} queue". -/
def queueKey (id : SeriesId) : List UInt8 := Utf8.encode id.toDecimal

/-- What `new_job_watcher` makes of a key of "{handle} queue". -/
def localBranchName (key : List UInt8) : String := Utf8.decodeLossy key

/-- The key that `wait_for_completion` inserts into "needs dispatch". -/
def resultKey (handle branch name : String) : List UInt8 :=
  Utf8.encode (dispatchKey handle branch name)

inductive EntryError where
  | malformed (key : String)
  | parseInt (series : String)
  deriving DecidableEq, Repr

/-- The handle, series and job name that `wait_and_send` reads from a key. -/
def readEntry (dbKey : List UInt8) : Except EntryError (String × SeriesId × String) :=
  let key := Utf8.decodeLossy dbKey
  match Text.split ' ' key with
  | handle :: series :: parts =>
    match Text.parseU64 series with
    | some n => .ok (handle, ⟨n⟩, Text.join ' ' parts)
    | none => .error (.parseInt series)
  | _ => .error (.malformed key)

theorem readEntry_encode (key : String) :
    (readEntry (Utf8.encode key)).toOption = parseEntry key := by
  rw [readEntry, Utf8.decodeLossy_encode, parseEntry]
  generalize Text.split ' ' key = parts
  cases parts with
  | nil => rfl
  | cons handle rest =>
    cases rest with
    | nil => rfl
    | cons series parts =>
      simp only
      cases Text.parseU64 series with
      | none => rfl
      | some n => rfl

theorem localBranchName_queueKey (id : SeriesId) : localBranchName (queueKey id) = id.toDecimal :=
  Utf8.decodeLossy_encode _

theorem readEntry_resultKey {handle : String} (hh : ' ' ∉ handle.toList) (id : SeriesId)
    (name : String) :
    readEntry (resultKey handle (localBranchName (queueKey id)) name) = .ok (handle, id, name) := by
  have hread : (readEntry (resultKey handle (localBranchName (queueKey id)) name)).toOption =
      some (handle, id, name) := by
    rw [resultKey, localBranchName_queueKey, readEntry_encode]
    exact parseEntry_dispatchKey hh id name
  generalize readEntry (resultKey handle (localBranchName (queueKey id)) name) = answer at hread
  cases answer with
  | error e => cases hread
  | ok entry => exact congrArg Except.ok (Option.some.inj hread)

theorem dispatch_key_round_trip {handle : String} (hh : ' ' ∉ handle.toList) :
    (∀ id name, readEntry (resultKey handle (localBranchName (queueKey id)) name) =
      .ok (handle, id, name)) ∧
    ∀ handle' id id' name name', ' ' ∉ handle'.toList →
      resultKey handle (localBranchName (queueKey id)) name =
        resultKey handle' (localBranchName (queueKey id')) name' →
      handle = handle' ∧ id = id' ∧ name = name' := by
  refine ⟨readEntry_resultKey hh, ?_⟩
  intro handle' id id' name name' hh' hkey
  have hread := readEntry_resultKey hh id name
  rw [hkey, readEntry_resultKey hh' id' name'] at hread
  obtain ⟨hhandle, hrest⟩ := Prod.ext_iff.mp (Except.ok.inj hread)
  obtain ⟨hid, hname⟩ := Prod.ext_iff.mp hrest
  exact ⟨hhandle.symm, hid.symm, hname.symm⟩

theorem dispatch_key_round_trip_sample :
    readEntry (resultKey "github" (localBranchName (queueKey ⟨300⟩)) "  build  it ") =
      .ok ("github", ⟨300⟩, "  build  it ") :=
  (dispatch_key_round_trip (by decide)).1 ⟨300⟩ "  build  it "

/-- A space in the handle is not survived: its end is read as the series. -/
example : readEntry (resultKey "my ci" "300" "build") = .error (.parseInt "ci") := by decide

end Snowpatch.DispatchKeys
