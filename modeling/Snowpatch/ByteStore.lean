import Snowpatch.Pipeline
import Snowpatch.Library.Bincode
import Snowpatch.Library.ByteTree

/-! The database as sled has it: one space of trees by name, keys and values as bytes. Every
write of the program is spelled out with the name, the key and the value it passes to sled.
The typed database of the other modules is what the program reads from these bytes. -/
namespace Snowpatch.ByteStore

open Pipeline ByteTree

section Formats

/-- `bincode::serialize(&id)` -/
def serializeId (id : SeriesId) : Bytes := Bincode.encodeNat 8 id.val.toNat

example : serializeId ⟨300⟩ = [44, 1, 0, 0, 0, 0, 0, 0] := by decide

theorem serializeId_digits (id : SeriesId) : (serializeId id).map UInt8.toNat = id.serialize :=
  Bincode.encodeNat_digits 8 _

theorem serializeId_strictMono : StrictMono serializeId := by
  intro a b h
  have hdigits : (serializeId a).map UInt8.toNat < (serializeId b).map UInt8.toNat := by
    rw [serializeId_digits, serializeId_digits]
    exact h
  by_contra hle
  rcases (not_lt.mp hle).eq_or_lt with heq | hlt
  · rw [heq] at hdigits
    exact lt_irrefl _ hdigits
  · exact lt_asymm hdigits (List.map_lt (fun _ _ h => UInt8.lt_iff_toNat_lt.mp h) hlt)

/-- The keys of the series trees; ingest reads them with `deserialize::<u64>`. -/
def idKey : KeyFormat SeriesId where
  write := serializeId
  read bytes := ((Bincode.nat 8).deserialize bytes).map fun n => ⟨UInt64.ofNat n⟩
  read_write id := by
    have hfits : (Bincode.nat 8).Fits id.val.toNat := id.val.toNat_lt_size
    have hread : (Bincode.nat 8).deserialize (serializeId id) = some id.val.toNat :=
      (Bincode.nat 8).deserialize_encode hfits
    rw [hread, Option.map_some, UInt64.ofNat_toNat]
  strictMono := serializeId_strictMono

/-- Keys that are text, and `String::from_utf8_lossy` of them. -/
def textKey : KeyFormat String where
  write := Utf8.encode
  read bytes := some (Utf8.decodeLossy bytes)
  read_write s := congrArg some (Utf8.decodeLossy_encode s)
  strictMono := Utf8.encode_strictMono

def textValue : Format String where
  write := Utf8.encode
  read bytes := some (Utf8.decodeLossy bytes)
  Fits _ := True
  read_write s _ := congrArg some (Utf8.decodeLossy_encode s)

/-- A URL is written as its text. -/
def urlCodec : Bincode.Codec Url := Bincode.text.via Url.text (fun s => some ⟨s⟩) fun _ => rfl

def jobStateCodec : Bincode.Codec JobState := Bincode.enum [.waiting, .running, .completed, .failed]

def testStateCodec : Bincode.Codec TestState := Bincode.enum [.pending, .success, .warning, .fail]

/-- The fields of a `RunnerResult` in their order. -/
def resultCodec : Bincode.Codec RunnerResult :=
  (Bincode.pair Bincode.text (Bincode.pair jobStateCodec (Bincode.pair testStateCodec
    (Bincode.pair (Bincode.option urlCodec) (Bincode.option Bincode.text))))).via
      (fun r => (r.name, r.state, r.outcome, r.url, r.description))
      (fun p => some ⟨p.1, p.2.1, p.2.2.1, p.2.2.2.1, p.2.2.2.2⟩) fun _ => rfl

def binary {α : Type*} (c : Bincode.Codec α) : Format α :=
  ⟨c.encode, c.deserialize, c.Fits, fun _ h => c.deserialize_encode h⟩

def mboxValue : Format Url := binary urlCodec

def resultValue : Format RunnerResult := binary resultCodec

end Formats

section Names

def seriesTreeName : SeriesTree → String
  | .needsTesting => "needs testing"
  | .awaitingGitWorker => "awaiting git worker"
  | .gitWorker i => "git worker " ++ Nat.repr i
  | .gitFailures => "git failures"

def branchTreeName : BranchTree → String
  | .queue handle => handle ++ " queue"
  | .working handle => handle ++ " working"

/-- The trees the program opens, and the one that the database itself is. -/
inductive TreeId where
  | settings
  | seenByWatchcat
  | series (t : SeriesTree)
  | remotesToPushTo
  | branches (t : BranchTree)
  | needsDispatch
  deriving DecidableEq

def TreeId.name : TreeId → Option String
  | .settings => none
  | .seenByWatchcat => some "seen by watchcat"
  | .series t => some (seriesTreeName t)
  | .remotesToPushTo => some "remotes to push to"
  | .branches t => some (branchTreeName t)
  | .needsDispatch => some "needs dispatch"

/-- How a name ends; all digits count as one. -/
def ending (name : String) : Option Char :=
  name.toList.getLast?.map fun c => if c.isDigit then '0' else c

theorem ending_append (s : String) {t : String} (ht : t ≠ "") : ending (s ++ t) = ending t := by
  have hne : t.toList ≠ [] := mt String.toList_eq_nil_iff.mp ht
  rw [ending, String.toList_append, List.getLast?_append_of_ne_nil _ hne, ending]

theorem ending_repr (i : ℕ) : ending (Nat.repr i) = some '0' := by
  have hne : (Nat.repr i).toList ≠ [] := mt String.toList_eq_nil_iff.mp Nat.repr_ne_empty
  have hdigit := Text.digits_of_repr i _ (List.getLast_mem hne)
  rw [ending, List.getLast?_eq_getLast_of_ne_nil hne, Option.map_some, if_pos hdigit]

def TreeId.ending : TreeId → Option Char
  | .settings => none
  | .seenByWatchcat => some 't'
  | .series .needsTesting => some 'g'
  | .series .awaitingGitWorker => some 'r'
  | .series (.gitWorker _) => some '0'
  | .series .gitFailures => some 's'
  | .remotesToPushTo => some 'o'
  | .branches (.queue _) => some 'e'
  | .branches (.working _) => some 'g'
  | .needsDispatch => some 'h'

theorem ending_name (x : TreeId) : x.name.bind ByteStore.ending = x.ending := by
  rcases x with _ | _ | (_ | _ | i | _) | _ | (handle | handle) | _
  case series.gitWorker =>
    exact (ending_append _ Nat.repr_ne_empty).trans (ending_repr i)
  case branches.queue => exact ending_append handle (by decide)
  case branches.working => exact ending_append handle (by decide)
  all_goals rfl

theorem working_ne_needsTesting (handle : String) : handle ++ " working" ≠ "needs testing" := by
  intro h
  have hsuffix : " working".toList <:+ "needs testing".toList :=
    ⟨handle.toList, by rw [← String.toList_append, h]⟩
  revert hsuffix
  decide

/-- No two trees of the program share a name, whatever the handles are. -/
theorem TreeId.name_injective : Function.Injective TreeId.name := by
  intro x y h
  have hending : x.ending = y.ending := by rw [← ending_name, h, ending_name]
  rcases x with _ | _ | (_ | _ | i | _) | _ | (a | a) | _ <;>
    rcases y with _ | _ | (_ | _ | j | _) | _ | (b | b) | _ <;>
    first | rfl | simp [TreeId.ending] at hending
  case series.gitWorker.series.gitWorker =>
    have hrepr : Nat.repr i = Nat.repr j := String.append_right_inj _ |>.mp (Option.some.inj h)
    rw [Text.repr_injective hrepr]
  case branches.queue.branches.queue =>
    rw [String.append_left_inj _ |>.mp (Option.some.inj h)]
  case branches.working.branches.working =>
    rw [String.append_left_inj _ |>.mp (Option.some.inj h)]
  case series.needsTesting.branches.working =>
    exact absurd (Option.some.inj h).symm (working_ne_needsTesting b)
  case branches.working.series.needsTesting =>
    exact absurd (Option.some.inj h) (working_ne_needsTesting a)

end Names

section Writes

/-- Everything in the database file, by the names of the trees. -/
abbrev Store := Option String → KvTree Bytes Bytes

def Store.trees (store : Store) (x : TreeId) : KvTree Bytes Bytes := store x.name

/-- A call that changes the database. -/
inductive Write where
  | insert (tree : Option String) (key value : Bytes)
  | remove (tree : Option String) (key : Bytes)
  | moveToNewQueue (old new : Option String) (key : Bytes)

/-- No store where `move_to_new_queue` does not find its key. -/
def Write.apply (store : Store) : Write → Option Store
  | .insert tree key value =>
    some (Function.update store tree (Finmap.insert key value (store tree)))
  | .remove tree key => some (Function.update store tree (Finmap.erase key (store tree)))
  | .moveToNewQueue old new key => KvTree.moveBetween store old new key

def applyAll (store : Store) (writes : List Write) : Option Store := writes.foldlM Write.apply store

def populateDatabase (config : Config) : List Write :=
  [.insert none (Utf8.encode "ssh private key path") (Utf8.encode config.privateKey),
    .insert none (Utf8.encode "ssh public key path") (Utf8.encode config.publicKey),
    .insert none (Utf8.encode "patchwork series link prefix")
      (Utf8.encode (config.patchworkUrl.text ++ "/project/" ++ config.name ++ "/list/?series="))]

def writes : Event → List Write
  | .start config _ => populateDatabase config
  | .main (.insertRemote remote) =>
    [.insert (some "remotes to push to") (Utf8.encode remote) (Utf8.encode "github")]
  | .scan (.mark l) =>
    [.insert (some "seen by watchcat") (Utf8.encode l.series.id.toDecimal) (Utf8.encode "hello")]
  | .scan (.queue l) =>
    [.insert (some "needs testing") (serializeId l.series.id) (urlCodec.encode l.series.mbox)]
  | .ingest (.move id) =>
    [.moveToNewQueue (some "needs testing") (some "awaiting git worker") (serializeId id)]
  | .worker i id .moveIn =>
    [.moveToNewQueue (some "awaiting git worker") (some ("git worker " ++ Nat.repr i))
      (serializeId id)]
  | .worker i id .remove => [.remove (some ("git worker " ++ Nat.repr i)) (serializeId id)]
  | .worker i id .moveToFailures =>
    [.moveToNewQueue (some ("git worker " ++ Nat.repr i)) (some "git failures") (serializeId id)]
  | .worker _ id (.work (.queue _ runner)) =>
    [.insert (some (runner ++ " queue")) (Utf8.encode id.toDecimal) (Utf8.encode "new")]
  | .watcher _ (.move branch) =>
    [.moveToNewQueue (some (gitHubHandle ++ " queue")) (some (gitHubHandle ++ " working"))
      (Utf8.encode branch)]
  | .wait t (.report job) =>
    if job.name ∈ t.completed then []
    else [.insert (some "needs dispatch") (Utf8.encode (dispatchKey gitHubHandle t.branch job.name))
      (resultCodec.encode job)]
  | .wait t .remove => [.remove (some (gitHubHandle ++ " working")) (Utf8.encode t.branch)]
  | .dispatch (.drop key) => [.remove (some "needs dispatch") (Utf8.encode key)]
  | _ => []

/-- The texts of a value have lengths that are numbers of 64 bits. -/
def Fits (_ : State) : Event → Prop
  | .scan (.queue l) => urlCodec.Fits l.series.mbox
  | .wait _ (.report job) => resultCodec.Fits job
  | _ => True

end Writes

section Refinement

/-- The three settings, each under its own key of the database itself. -/
structure HoldsSettings (bytes : KvTree Bytes Bytes) (db : Db) : Prop where
  privateKey : Finmap.lookup (Utf8.encode "ssh private key path") bytes =
    db.sshPrivateKeyPath.map Utf8.encode
  publicKey : Finmap.lookup (Utf8.encode "ssh public key path") bytes =
    db.sshPublicKeyPath.map Utf8.encode
  linkPrefix : Finmap.lookup (Utf8.encode "patchwork series link prefix") bytes =
    db.patchworkSeriesLinkPrefix.map Utf8.encode

def HoldsAt (db : Db) : TreeId → KvTree Bytes Bytes → Prop
  | .settings, bytes => HoldsSettings bytes db
  | .seenByWatchcat, bytes => Holds textKey textValue bytes db.seenByWatchcat
  | .series t, bytes => Holds idKey mboxValue bytes (db.series t)
  | .remotesToPushTo, bytes => Holds textKey textValue bytes db.remotesToPushTo
  | .branches t, bytes => Holds textKey textValue bytes (db.branches t)
  | .needsDispatch, bytes => Holds textKey resultValue bytes db.needsDispatch

def Represents (trees : TreeId → KvTree Bytes Bytes) (db : Db) : Prop :=
  ∀ x, HoldsAt db x (trees x)

variable {store : Store} {trees : TreeId → KvTree Bytes Bytes} {db db' : Db}
  {bytes : KvTree Bytes Bytes} {key value : Bytes}

theorem Represents.seen (h : Represents trees db) :
    Holds textKey textValue (trees .seenByWatchcat) db.seenByWatchcat := h .seenByWatchcat

theorem Represents.series (h : Represents trees db) (t : SeriesTree) :
    Holds idKey mboxValue (trees (.series t)) (db.series t) := h (.series t)

theorem Represents.remotes (h : Represents trees db) :
    Holds textKey textValue (trees .remotesToPushTo) db.remotesToPushTo := h .remotesToPushTo

theorem Represents.branches (h : Represents trees db) (t : BranchTree) :
    Holds textKey textValue (trees (.branches t)) (db.branches t) := h (.branches t)

theorem Represents.entries (h : Represents trees db) :
    Holds textKey resultValue (trees .needsDispatch) db.needsDispatch := h .needsDispatch

theorem represents_empty : Represents (fun _ => ∅) Db.empty := by
  intro x
  cases x with
  | settings => exact ⟨rfl, rfl, rfl⟩
  | seenByWatchcat | series | remotesToPushTo | branches | needsDispatch => exact Holds.empty

theorem Represents.update (h : Represents trees db) {x : TreeId} (hx : HoldsAt db' x bytes)
    (hother : ∀ y, y ≠ x → HoldsAt db y (trees y) → HoldsAt db' y (trees y)) :
    Represents (Function.update trees x bytes) db' := by
  intro y
  by_cases hy : y = x
  · subst hy
    rwa [Function.update_self]
  · rw [Function.update_of_ne hy]
    exact hother y hy (h y)

theorem Represents.update_series (h : Represents trees db) (t : SeriesTree)
    {typed : KvTree SeriesId Url} (hb : Holds idKey mboxValue bytes typed) :
    Represents (Function.update trees (.series t) bytes)
      { db with series := Function.update db.series t typed } := by
  refine h.update (by simpa [HoldsAt] using hb) fun y hy hold => ?_
  cases y with
  | series t' =>
    have hne : t' ≠ t := fun ht => hy (congrArg _ ht)
    simpa [HoldsAt, hne] using hold
  | settings => exact ⟨hold.privateKey, hold.publicKey, hold.linkPrefix⟩
  | seenByWatchcat | remotesToPushTo | branches | needsDispatch => exact hold

theorem Represents.update_branches (h : Represents trees db) (t : BranchTree)
    {typed : KvTree String String} (hb : Holds textKey textValue bytes typed) :
    Represents (Function.update trees (.branches t) bytes)
      { db with branches := Function.update db.branches t typed } := by
  refine h.update (by simpa [HoldsAt] using hb) fun y hy hold => ?_
  cases y with
  | branches t' =>
    have hne : t' ≠ t := fun ht => hy (congrArg _ ht)
    simpa [HoldsAt, hne] using hold
  | settings => exact ⟨hold.privateKey, hold.publicKey, hold.linkPrefix⟩
  | seenByWatchcat | remotesToPushTo | series | needsDispatch => exact hold

theorem Represents.update_seen (h : Represents trees db) {typed : KvTree String String}
    (hb : Holds textKey textValue bytes typed) :
    Represents (Function.update trees .seenByWatchcat bytes)
      { db with seenByWatchcat := typed } := by
  refine h.update hb fun y hy hold => ?_
  cases y with
  | seenByWatchcat => exact absurd rfl hy
  | settings => exact ⟨hold.privateKey, hold.publicKey, hold.linkPrefix⟩
  | series | remotesToPushTo | branches | needsDispatch => exact hold

theorem Represents.update_remotes (h : Represents trees db) {typed : KvTree String String}
    (hb : Holds textKey textValue bytes typed) :
    Represents (Function.update trees .remotesToPushTo bytes)
      { db with remotesToPushTo := typed } := by
  refine h.update hb fun y hy hold => ?_
  cases y with
  | remotesToPushTo => exact absurd rfl hy
  | settings => exact ⟨hold.privateKey, hold.publicKey, hold.linkPrefix⟩
  | series | seenByWatchcat | branches | needsDispatch => exact hold

theorem Represents.update_entries (h : Represents trees db) {typed : KvTree String RunnerResult}
    (hb : Holds textKey resultValue bytes typed) :
    Represents (Function.update trees .needsDispatch bytes)
      { db with needsDispatch := typed } := by
  refine h.update hb fun y hy hold => ?_
  cases y with
  | needsDispatch => exact absurd rfl hy
  | settings => exact ⟨hold.privateKey, hold.publicKey, hold.linkPrefix⟩
  | series | seenByWatchcat | branches | remotesToPushTo => exact hold

theorem holds_insert_text {typed : KvTree String String} (h : Holds textKey textValue bytes typed)
    (key value : String) :
    Holds textKey textValue (Finmap.insert (Utf8.encode key) (Utf8.encode value) bytes)
      (Finmap.insert key value typed) :=
  h.insert key value trivial

theorem trees_update (store : Store) (x : TreeId) (t : KvTree Bytes Bytes) :
    Store.trees (Function.update store x.name t) = Function.update store.trees x t :=
  Function.update_comp_eq_of_injective store TreeId.name_injective x t

theorem trees_moved (store : Store) (old new : TreeId) (key value : Bytes) :
    Store.trees (KvTree.moved store old.name new.name key value) =
      KvTree.moved store.trees old new key value := by
  rw [KvTree.moved, trees_update, trees_update]
  rfl

theorem applyAll_singleton (store : Store) (w : Write) : applyAll store [w] = w.apply store := by
  simp [applyAll]

theorem insert_writes (x : TreeId)
    (h : Represents (Function.update store.trees x (Finmap.insert key value (store.trees x))) db) :
    ∃ store', applyAll store [.insert x.name key value] = some store' ∧
      Represents store'.trees db :=
  ⟨_, applyAll_singleton store _, by rwa [trees_update]⟩

theorem remove_writes (x : TreeId)
    (h : Represents (Function.update store.trees x (Finmap.erase key (store.trees x))) db) :
    ∃ store', applyAll store [.remove x.name key] = some store' ∧ Represents store'.trees db :=
  ⟨_, applyAll_singleton store _, by rwa [trees_update]⟩

theorem move_writes (old new : TreeId) (hvalue : Finmap.lookup key (store.trees old) = some value)
    (h : Represents (KvTree.moved store.trees old new key value) db) :
    ∃ store', applyAll store [.moveToNewQueue old.name new.name key] = some store' ∧
      Represents store'.trees db :=
  ⟨_, (applyAll_singleton store _).trans (KvTree.moveBetween_of_lookup hvalue),
    by rwa [trees_moved]⟩

theorem series_moves (h : Represents store.trees db) (old new : SeriesTree) {id : SeriesId}
    (hid : id ∈ db.series old) :
    ∃ store', applyAll store [.moveToNewQueue (some (seriesTreeName old))
        (some (seriesTreeName new)) (serializeId id)] = some store' ∧
      Represents store'.trees ((db.moveToNewQueue old new id).getD db) := by
  obtain ⟨mbox, hmbox⟩ := Finmap.mem_iff.mp hid
  have hold := h.series old
  have hbytes : Finmap.lookup (idKey.write id) (store.trees (.series old)) =
      some (mboxValue.write mbox) := by rw [hold.lookup, hmbox, Option.map_some]
  rw [Db.moveToNewQueue_of_lookup hmbox]
  exact move_writes (.series old) (.series new) hbytes
    ((h.update_series old (hold.erase id)).update_series new
      ((h.series new).insert id mbox (hold.fits id mbox hmbox)))

theorem branch_moves (h : Represents store.trees db) (old new : BranchTree) {branch : String}
    (hbranch : branch ∈ db.branches old) :
    ∃ store', applyAll store [.moveToNewQueue (some (branchTreeName old))
        (some (branchTreeName new)) (Utf8.encode branch)] = some store' ∧
      Represents store'.trees ((db.moveBranch old new branch).getD db) := by
  obtain ⟨value, hvalue⟩ := Finmap.mem_iff.mp hbranch
  have hold := h.branches old
  have hbytes : Finmap.lookup (textKey.write branch) (store.trees (.branches old)) =
      some (textValue.write value) := by rw [hold.lookup, hvalue, Option.map_some]
  rw [Db.moveBranch_of_lookup hvalue]
  exact move_writes (.branches old) (.branches new) hbytes
    ((h.update_branches old (hold.erase branch)).update_branches new
      (holds_insert_text (h.branches new) branch value))

def populated (config : Config) (bytes : KvTree Bytes Bytes) : KvTree Bytes Bytes :=
  Finmap.insert (Utf8.encode "patchwork series link prefix")
    (Utf8.encode (config.patchworkUrl.text ++ "/project/" ++ config.name ++ "/list/?series="))
    (Finmap.insert (Utf8.encode "ssh public key path") (Utf8.encode config.publicKey)
      (Finmap.insert (Utf8.encode "ssh private key path") (Utf8.encode config.privateKey) bytes))

theorem holdsSettings_populated (config : Config) (bytes : KvTree Bytes Bytes) (db : Db) :
    HoldsSettings (populated config bytes) (db.populate config) := by
  have hne : ∀ a b : String, a ≠ b → Utf8.encode a ≠ Utf8.encode b :=
    fun _ _ h => Utf8.encode_strictMono.injective.ne h
  refine ⟨?_, ?_, Finmap.lookup_insert _⟩
  · rw [populated, Finmap.lookup_insert_of_ne _ (hne _ _ (by decide)),
      Finmap.lookup_insert_of_ne _ (hne _ _ (by decide)), Finmap.lookup_insert]
    rfl
  · rw [populated, Finmap.lookup_insert_of_ne _ (hne _ _ (by decide)), Finmap.lookup_insert]
    rfl

theorem populate_writes (h : Represents store.trees db) (config : Config) :
    ∃ store', applyAll store (populateDatabase config) = some store' ∧
      Represents store'.trees (db.populate config) := by
  refine ⟨Function.update store TreeId.settings.name (populated config (store none)), ?_, ?_⟩
  · simp [applyAll, populateDatabase, Write.apply, populated, TreeId.name]
  · rw [trees_update]
    refine h.update (holdsSettings_populated config _ db) fun y hy hold => ?_
    cases y with
    | settings => exact absurd rfl hy
    | seenByWatchcat | series | branches | remotesToPushTo | needsDispatch => exact hold

/-- One event: its calls succeed on the bytes and do there what it does to the typed trees. -/
theorem event_writes {env : Env} {s : State} {e : Event} (h : Represents store.trees s.db)
    (he : Enabled env s e) (hfits : Fits s e) :
    ∃ store', applyAll store (writes e) = some store' ∧
      Represents store'.trees (next env s e).db := by
  cases e with
  | start config threads => exact populate_writes h config
  | stop => exact ⟨store, rfl, h⟩
  | main e =>
    cases e with
    | insertRemote remote =>
      exact insert_writes .remotesToPushTo (h.update_remotes (holds_insert_text h.remotes remote _))
    | smokeTest | initDone | spawnWatcher | connect | beginScan | endScan => exact ⟨store, rfl, h⟩
  | scan e =>
    cases e with
    | mark l =>
      exact insert_writes .seenByWatchcat (h.update_seen (holds_insert_text h.seen _ _))
    | queue l =>
      have hqueue : Watchcat.Enabled ⟨s.db, s.proc.scan⟩ (.queue l) := he
      have hdb : (next env s (.scan (.queue l))).db =
          s.db.insertSeries .needsTesting l.series.id l.series.mbox := Watchcat.queue_db hqueue
      rw [hdb]
      exact insert_writes (.series .needsTesting)
        (h.update_series _ ((h.series _).insert _ _ hfits))
    | reject | choose | fail | skip => exact ⟨store, rfl, h⟩
  | ingest e =>
    cases e with
    | move id => exact series_moves h .needsTesting .awaitingGitWorker he.2
    | ready | read | take | ends | spawn | wait => exact ⟨store, rfl, h⟩
  | begin i id => exact ⟨store, rfl, h⟩
  | worker i id e =>
    obtain ⟨pc, hi, he⟩ := he
    have hdb : (next env s (.worker i id e)).db = Worker.nextDb i id ⟨s.db, s.git, pc⟩ e := by
      simp only [next, workerNext, hi]
    rw [hdb]
    cases e with
    | moveIn => exact series_moves h .awaitingGitWorker (.gitWorker i) he.2
    | moveToFailures => exact series_moves h (.gitWorker i) .gitFailures he.2
    | remove =>
      exact remove_writes (.series (.gitWorker i)) (h.update_series _ ((h.series _).erase id))
    | work e =>
      cases e with
      | queue remote runner =>
        exact insert_writes (.branches (.queue runner))
          (h.update_branches _ (holds_insert_text (h.branches _) _ _))
      | _ => exact ⟨store, rfl, h⟩
    | busy | free | wait | startWork => exact ⟨store, rfl, h⟩
  | watcher k e =>
    cases e with
    | move branch => exact branch_moves h (.queue gitHubHandle) (.working gitHubHandle) he.2
    | read | take | ends | startWork | spawn | wait => exact ⟨store, rfl, h⟩
  | wait t e =>
    cases e with
    | report job =>
      by_cases hjob : job.name ∈ t.completed
      · exact ⟨store, by simp [writes, hjob, applyAll],
          by simpa [next, waitNext, Completion.nextDb, hjob] using h⟩
      · simp only [writes, next, waitNext, Completion.nextDb, hjob, if_false]
        exact insert_writes .needsDispatch (h.update_entries (h.entries.insert _ _ hfits))
    | remove =>
      exact remove_writes (.branches (.working gitHubHandle))
        (h.update_branches _ ((h.branches _).erase _))
    | progress | again | settle => exact ⟨store, rfl, h⟩
  | dispatch e =>
    cases e with
    | drop key =>
      exact remove_writes .needsDispatch (h.update_entries (h.entries.erase key))
    | _ => exact ⟨store, rfl, h⟩
  | moveMaster target => exact ⟨store, rfl, h⟩
  | otherCheck patch check => exact ⟨store, rfl, h⟩

theorem run_writes {env : Env} {s₀ s : State} {tr : List Event} (h₀ : Initial s₀)
    (hx : ((machine env).restrict Fits).Execution s₀ tr s) :
    ∃ store, applyAll (fun _ => ∅) (tr.flatMap writes) = some store ∧
      Represents store.trees s.db := by
  induction hx with
  | nil => exact ⟨_, rfl, h₀.db_empty ▸ represents_empty⟩
  | snoc e _ he ih =>
    obtain ⟨store, hstore, h⟩ := ih
    obtain ⟨store', hstore', h'⟩ := event_writes h he.1 he.2
    refine ⟨store', ?_, h'⟩
    rw [List.flatMap_append, applyAll, List.foldlM_append, ← applyAll, hstore,
      List.flatMap_singleton]
    exact hstore'

/-- What the program reads from the store: each tree under its name, and the settings. -/
structure ReadsAs (store : Store) (db : Db) : Prop where
  privateKey : (Finmap.lookup (Utf8.encode "ssh private key path") (store none)).map
    Utf8.decodeLossy = db.sshPrivateKeyPath
  publicKey : (Finmap.lookup (Utf8.encode "ssh public key path") (store none)).map
    Utf8.decodeLossy = db.sshPublicKeyPath
  linkPrefix : (Finmap.lookup (Utf8.encode "patchwork series link prefix") (store none)).map
    Utf8.decodeLossy = db.patchworkSeriesLinkPrefix
  seen : Reads textKey textValue (store (some "seen by watchcat")) db.seenByWatchcat
  series : ∀ t, Reads idKey mboxValue (store (some (seriesTreeName t))) (db.series t)
  remotes : Reads textKey textValue (store (some "remotes to push to")) db.remotesToPushTo
  branches : ∀ t, Reads textKey textValue (store (some (branchTreeName t))) (db.branches t)
  entries : Reads textKey resultValue (store (some "needs dispatch")) db.needsDispatch

theorem decode_map_encode (o : Option String) : (o.map Utf8.encode).map Utf8.decodeLossy = o := by
  rw [Option.map_map]
  exact (congrArg (Option.map · o) (funext Utf8.decodeLossy_encode)).trans Option.map_id'

theorem Represents.reads (h : Represents store.trees db) : ReadsAs store db where
  privateKey := (congrArg _ (h .settings).privateKey).trans (decode_map_encode _)
  publicKey := (congrArg _ (h .settings).publicKey).trans (decode_map_encode _)
  linkPrefix := (congrArg _ (h .settings).linkPrefix).trans (decode_map_encode _)
  seen := h.seen.reads
  series t := (h.series t).reads
  remotes := h.remotes.reads
  branches t := (h.branches t).reads
  entries := h.entries.reads

/-- The bytes determine all that is read from them. -/
theorem ReadsAs.unique (h : ReadsAs store db) (h' : ReadsAs store db') : db = db' := by
  cases db
  cases db'
  congr
  · exact h.seen.unique h'.seen
  · exact funext fun t => (h.series t).unique (h'.series t)
  · exact h.remotes.unique h'.remotes
  · exact funext fun t => (h.branches t).unique (h'.branches t)
  · exact h.entries.unique h'.entries
  · exact h.privateKey.symm.trans h'.privateKey
  · exact h.publicKey.symm.trans h'.publicKey
  · exact h.linkPrefix.symm.trans h'.linkPrefix

/-- The calls that have returned in a run return on the bytes, and the typed database is what the
program reads from them, and nothing else is. -/
theorem byte_store_refines {env : Env} {s₀ s : State} {tr : List Event} (h₀ : Initial s₀)
    (hx : ((machine env).restrict Fits).Execution s₀ tr s) :
    ∃ store, applyAll (fun _ => ∅) (tr.flatMap writes) = some store ∧ ReadsAs store s.db ∧
      ∀ db, ReadsAs store db → db = s.db := by
  obtain ⟨store, hstore, h⟩ := run_writes h₀ hx
  exact ⟨store, hstore, h.reads, fun db hdb => hdb.unique h.reads⟩

end Refinement

section Sample

theorem job_fits : resultCodec.Fits Sample.job := by
  have hname : (Utf8.encode Sample.job.name).length < 256 ^ 8 := by decide
  have hstate : JobState.completed ∈ [JobState.waiting, .running, .completed, .failed] ∧
      [JobState.waiting, .running, .completed, .failed].idxOf .completed < 256 ^ 4 := by decide
  have houtcome : TestState.success ∈ [TestState.pending, .success, .warning, .fail] ∧
      [TestState.pending, .success, .warning, .fail].idxOf .success < 256 ^ 4 := by decide
  exact ⟨hname, hstate, houtcome, fun _ h => (by cases h), fun _ h => (by cases h)⟩

theorem trace_fits : ∀ e ∈ Sample.trace, ∀ u, Fits u e := by
  have hlength : (Utf8.encode "https://patchwork/series/300/mbox").length < 256 ^ 8 := by decide
  have hmbox : urlCodec.Fits Sample.listed.series.mbox := hlength
  simp [Sample.trace, Sample.boot, Sample.discover, Sample.ingest, Sample.gitWork, Sample.testing,
    Fits, hmbox, job_fits]

theorem byte_store_refines_sample :
    ∃ store, applyAll (fun _ => ∅) (Sample.trace.flatMap writes) = some store ∧
      ReadsAs store Sample.final.db ∧ ∀ db, ReadsAs store db → db = Sample.final.db :=
  byte_store_refines Sample.state_initial
    ((Sample.runs.restrict trace_fits).execution)

end Sample

end Snowpatch.ByteStore
