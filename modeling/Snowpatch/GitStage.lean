import Snowpatch.Pipeline
import Snowpatch.Custody

/-! The git stage in the runs of the program. Its view of a state keeps `Discovery` and
`Custody` under every event, and the call of `do_work` is a latch: once a series has passed
it, nothing that could lead to a second call is left. -/
namespace Snowpatch.GitStage

open Pipeline

/-- What the git stage sees of a state. -/
structure View where
  trees : SeriesTree → KvTree SeriesId Url
  seen : KvTree String String
  scan : Scan
  ingest : Ingest.Pc
  pool : List SeriesId
  thread : ℕ → Option (SeriesId × Worker.Pc)
  leaf : KvTree.Leaf SeriesId Url

def view (s : State) : View :=
  ⟨s.db.series, s.db.seenByWatchcat, s.proc.scan, s.proc.ingest, s.proc.pool, s.proc.thread,
    s.proc.ingestLeaf⟩

def View.held (v : View) : Held := fun t id => id ∈ v.trees t

/-- The runner stage, the dispatcher, the other users of git and Patchwork, and `main` apart
from the start of a scan. -/
def Elsewhere : Event → Prop
  | .main (.beginScan _) => False
  | .main _ | .watcher _ _ | .wait _ _ | .dispatch _ | .moveMaster _ | .otherCheck _ _ => True
  | .start _ _ | .stop | .scan _ | .ingest _ | .begin _ _ | .worker _ _ _ => False

/-- A case split on the events that the git stage takes part in. -/
@[elab_as_elim]
theorem event_cases {motive : Event → Prop} (elsewhere : ∀ e, Elsewhere e → motive e)
    (start : ∀ config threads, motive (.start config threads)) (stop : motive .stop)
    (beginScan : ∀ page, motive (.main (.beginScan page))) (scan : ∀ e, motive (.scan e))
    (ingest : ∀ e, motive (.ingest e)) (begin : ∀ i id, motive (.begin i id))
    (worker : ∀ i id e, motive (.worker i id e)) (e : Event) : motive e := by
  cases e with
  | start config threads => exact start config threads
  | stop => exact stop
  | main e => cases e with
    | beginScan page => exact beginScan page
    | insertRemote | smokeTest | initDone | spawnWatcher | connect | endScan =>
      exact elsewhere _ trivial
  | scan e => exact scan e
  | ingest e => exact ingest e
  | begin i id => exact begin i id
  | worker i id e => exact worker i id e
  | watcher | wait | dispatch | moveMaster | otherCheck => exact elsewhere _ trivial

variable {env : Env}

theorem view_elsewhere (env : Env) (s : State) {e : Event} (he : Elsewhere e) :
    view (next env s e) = view s := by
  cases e with
  | main e => cases e with
    | beginScan page => exact he.elim
    | insertRemote | smokeTest | initDone | spawnWatcher | connect | endScan => rfl
  | watcher k e =>
    obtain ⟨w, hw, _⟩ := s.proc.notifyWatchers_eq gitHubHandle
    cases e with
    | move branch =>
      unfold Pipeline.next watcherNext Watcher.nextDb Db.moveBranch
      cases KvTree.moveBetween s.db.branches (.queue gitHubHandle) (.working gitHubHandle)
        branch <;> simp [view, hw]
    | read | take | ends | startWork | spawn | wait => rfl
  | wait t e =>
    cases e with
    | report job =>
      unfold Pipeline.next waitNext Completion.nextDb
      by_cases hj : job.name ∈ t.completed <;> simp [view, hj]
    | progress | again | settle | remove => rfl
  | dispatch e => cases e <;> rfl
  | moveMaster | otherCheck => rfl
  | start | stop | scan | ingest | begin | worker => exact he.elim

theorem view_worker (env : Env) {s : State} {i : ℕ} {id : SeriesId} {pc : Worker.Pc}
    {e : Worker.Event} (hi : s.proc.thread i = some (id, pc)) : view (next env s (.worker i id e)) =
      { view s with
        trees := (Worker.nextDb i id ⟨s.db, s.git, pc⟩ e).series
        seen := (Worker.nextDb i id ⟨s.db, s.git, pc⟩ e).seenByWatchcat
        thread := Function.update s.proc.thread i
          ((Worker.nextPc pc e).map fun pc => (id, pc)) } := by
  simp only [next, workerNext, hi, view]
  split
  · obtain ⟨w, hw, _⟩ := s.proc.notifyWatchers_eq _
    rw [hw]
  · rfl

/-- A position inside `do_work` comes from the step of the position before it, or is its
start, or was there before and some other event has happened. -/
theorem working_cases {s : State} {e : Event} (he : Enabled env s e) {i : ℕ} {id : SeriesId}
    {pc : DoWork.Pc} (hi : (next env s e).proc.thread i = some (id, .working pc)) :
    (s.proc.thread i = some (id, .working pc) ∧ ∀ we, e ≠ .worker i id (.work we)) ∨
      (e = .worker i id .startWork ∧ pc = .opening) ∨
      ∃ p we, e = .worker i id (.work we) ∧ s.proc.thread i = some (id, .working p) ∧
        DoWork.Enabled env.apply i id ⟨s.db, s.git, p⟩ we ∧ pc = DoWork.nextPc p we := by
  cases e using event_cases with
  | elsewhere e ho =>
    have hv : (next env s e).proc.thread = s.proc.thread :=
      congrArg (·.thread) (view_elsewhere env s ho)
    refine Or.inl ⟨hv ▸ hi, ?_⟩
    rintro we rfl
    exact ho
  | start | stop => cases hi
  | beginScan page => exact Or.inl ⟨hi, by simp⟩
  | scan | ingest => exact Or.inl ⟨hi, by simp⟩
  | begin j a =>
    rcases Custody.thread_update hi with ⟨_, hx⟩ | ⟨_, hi⟩
    · cases hx
    · exact Or.inl ⟨hi, by simp⟩
  | worker j a e =>
    obtain ⟨q, hj, hen⟩ := he
    have hv : (next env s (.worker j a e)).proc.thread = _ :=
      congrArg (·.thread) (view_worker env hj)
    rw [hv] at hi
    rcases Custody.thread_update hi with ⟨rfl, hx⟩ | ⟨hij, hi⟩
    · obtain ⟨p, hp, hpa⟩ := Option.map_eq_some_iff.mp hx
      cases hpa
      cases e with
      | busy | free | moveIn | remove | moveToFailures => simp [Worker.nextPc] at hp
      | startWork => exact Or.inr (Or.inl ⟨rfl, by simpa [Worker.nextPc] using hp.symm⟩)
      | wait e =>
        obtain ⟨w, rfl, _⟩ := hen
        cases hn : w.next e <;> simp [Worker.nextPc, hn] at hp
      | work e =>
        obtain ⟨p, rfl, hen⟩ := hen
        exact Or.inr (Or.inr ⟨p, e, rfl, hj, hen, by simpa [Worker.nextPc] using hp.symm⟩)
    · refine Or.inl ⟨hi, ?_⟩
      rintro we hx
      cases hx
      exact hij rfl

def GitDiscovery (v : View) : Prop := Discovery v.held v.seen v.scan

/-- Only ingest takes a series out of "needs testing", so what it is still to yield is there. -/
structure ClonedCustody (held : Held) (ingest : Ingest.Pc) (pool : List SeriesId)
    (thread : ℕ → Option (SeriesId × Worker.Pc)) (leaf : KvTree.Leaf SeriesId Url) : Prop
    extends Custody held ingest pool thread where
  cloned : ∀ id ∈ leaf.entries, ingest.cursor < (id : WithBot SeriesId) → held .needsTesting id

theorem ClonedCustody.of_custody {held held' : Held} {ingest ingest' : Ingest.Pc}
    {pool pool' : List SeriesId} {thread thread' : ℕ → Option (SeriesId × Worker.Pc)}
    {leaf : KvTree.Leaf SeriesId Url} (hc : ClonedCustody held ingest pool thread leaf)
    (h : Custody held' ingest' pool' thread') (hcursor : ingest.cursor ≤ ingest'.cursor)
    (hheld : ∀ id : SeriesId, ingest'.cursor < (id : WithBot SeriesId) →
      held .needsTesting id → held' .needsTesting id) :
    ClonedCustody held' ingest' pool' thread' leaf where
  toCustody := h
  cloned id hid hlt := hheld id hlt (hc.cloned id hid (hcursor.trans_lt hlt))

def GitCustody (v : View) : Prop :=
  ClonedCustody v.held v.ingest v.pool v.thread v.leaf

theorem held_moved {s : State} {old new : SeriesTree} {id : SeriesId} (hne : old ≠ new)
    (hid : (view s).held old id) (t : SeriesTree) (a : SeriesId) :
    a ∈ ((s.db.moveToNewQueue old new id).getD s.db).series t ↔
      (a = id ∧ t = new) ∨ ((view s).held t a ∧ ¬ (a = id ∧ t = old)) :=
  held_moveToNewQueue hne hid t a

theorem held_of_moved {s : State} {old new : SeriesTree} {id : SeriesId} (hne : old ≠ new)
    (hid : (view s).held old id) (t : SeriesTree) (a : SeriesId)
    (ha : a ∈ ((s.db.moveToNewQueue old new id).getD s.db).series t) :
    ∃ u, (view s).held u a := by
  rcases (held_moved hne hid t a).mp ha with ⟨rfl, _⟩ | ⟨ha, _⟩
  · exact ⟨old, hid⟩
  · exact ⟨t, ha⟩

theorem held_of_worker {s : State} {i : ℕ} {id a : SeriesId} {pc : Worker.Pc}
    {e : Worker.Event} (he : Worker.Enabled env.apply i a ⟨s.db, s.git, pc⟩ e)
    {t : SeriesTree} (ht : t = .needsTesting ∨ t = .awaitingGitWorker)
    (hid : id ∈ (Worker.nextDb i a ⟨s.db, s.git, pc⟩ e).series t) : (view s).held t id := by
  cases e with
  | work e =>
    simp only [Worker.nextDb, DoWork.nextDb_series] at hid
    exact hid
  | moveIn | moveToFailures =>
    rcases (held_moved (by simp) he.2 t id).mp hid with ⟨_, rfl⟩ | ⟨hid, _⟩
    · simp at ht
    · exact hid
  | remove => exact (Db.mem_removeSeries.mp hid).1
  | busy | free | wait | startWork => exact hid

theorem held_of_worker_ne {s : State} {i : ℕ} {id a : SeriesId} {pc : Worker.Pc}
    {e : Worker.Event} (he : Worker.Enabled env.apply i a ⟨s.db, s.git, pc⟩ e) (hne : id ≠ a)
    {t : SeriesTree} (hid : id ∈ (Worker.nextDb i a ⟨s.db, s.git, pc⟩ e).series t) :
    (view s).held t id := by
  cases e with
  | work e =>
    simp only [Worker.nextDb, DoWork.nextDb_series] at hid
    exact hid
  | moveIn | moveToFailures =>
    rcases (held_moved (by simp) he.2 t id).mp hid with ⟨hia, _⟩ | ⟨hid, _⟩
    · exact absurd hia hne
    · exact hid
  | remove => exact (Db.mem_removeSeries.mp hid).1
  | busy | free | wait | startWork => exact hid

theorem held_of_return {s : State} {i : ℕ} {a : SeriesId} {pc : Worker.Pc} {e : Worker.Event}
    (hc : Custody (view s).held (view s).ingest (view s).pool (view s).thread)
    (hi : s.proc.thread i = some (a, pc))
    (he : Worker.Enabled env.apply i a ⟨s.db, s.git, pc⟩ e) (hn : Worker.nextPc pc e = none)
    {t : SeriesTree} (ha : a ∈ (Worker.nextDb i a ⟨s.db, s.git, pc⟩ e).series t) :
    t = .gitFailures := by
  cases e with
  | busy | free | moveIn | startWork => simp [Worker.nextPc] at hn
  | wait e =>
    obtain ⟨w, rfl, _⟩ := he
    cases hw : w.next e <;> simp [Worker.nextPc, hw] at hn
  | work e =>
    obtain ⟨p, rfl, _⟩ := he
    simp [Worker.nextPc] at hn
  | remove =>
    obtain rfl : pc = .working (.returned true) := he
    obtain ⟨ht, hne⟩ := Db.mem_removeSeries.mp ha
    exact absurd ⟨rfl, hc.held_once t _ a ht (hc.thread_after i a _ hi trivial)⟩ hne
  | moveToFailures =>
    rcases (held_moved (by simp) he.2 t a).mp ha with ⟨_, ht⟩ | ⟨ht, hne⟩
    · exact ht
    · exact absurd ⟨rfl, hc.held_once t _ a ht he.2⟩ hne

section Steps

variable {s : State}

theorem custody_ingest {e : Ingest.Event} (hc : GitCustody (view s))
    (he : Enabled env s (.ingest e)) : GitCustody (view (next env s (.ingest e))) := by
  cases e with
  | ready =>
    have hpc : s.proc.ingest = .initWorktrees := he
    refine ⟨hc.with_ingest ?_ ?_, fun id hid => absurd hid Finmap.notMem_empty⟩ <;>
      simp [view, Pipeline.next, ingestNext, Ingest.next, Ingest.nextPc, hpc]
  | read leaf found =>
    obtain ⟨cursor, hpc, hreads⟩ := he
    exact { hc with cloned := fun id hid _ => hreads.mem hid }
  | take id =>
    obtain ⟨cursor, hpc, hnext⟩ := he
    have hpc : s.proc.ingest = .iterate cursor := hpc
    obtain ⟨hid, hlt, _⟩ := KvTree.of_first_eq hnext
    refine hc.of_custody (hc.with_ingest ?_ fun a ha => by cases ha) ?_ fun _ _ h => h
    · intro a ha
      obtain rfl : id = a := Ingest.Pc.moving.inj ha
      exact hc.cloned id hid (by rwa [view, hpc])
    · rw [view, hpc]
      exact hlt.le
  | ends =>
    refine ⟨hc.with_ingest ?_ ?_, fun id hid => absurd hid Finmap.notMem_empty⟩
    · intro a ha
      cases ha
    · intro a ha
      cases ha
  | move id =>
    have hpc : (view s).ingest = .moving id := he.1
    have hne : SeriesTree.needsTesting ≠ .awaitingGitWorker := by simp
    have hmoves := held_moved hne he.2
    have hcustody := hc.toCustody
    rw [hpc] at hcustody
    refine hc.of_custody (hcustody.ingested hmoves) ?_ ?_
    · rw [hpc]
      exact le_rfl
    · intro a ha hheld
      exact (hmoves .needsTesting a).mpr
        (Or.inr ⟨hheld, fun h => absurd h.1 (WithBot.coe_lt_coe.mp ha).ne'⟩)
  | spawn id =>
    have hpc : (view s).ingest = .spawning id := he
    have hcustody := hc.toCustody
    rw [hpc] at hcustody
    refine hc.of_custody (hcustody.spawned id) ?_ fun _ _ h => h
    rw [hpc]
    exact le_rfl
  | wait e =>
    obtain ⟨w, hw, _⟩ := he
    have hpc : s.proc.ingest = .waiting w := hw
    have hnext : ∀ a, Ingest.nextPc s.proc.ingest (.wait e) ≠ .moving a ∧
        Ingest.nextPc s.proc.ingest (.wait e) ≠ .spawning a := by
      intro a
      rw [hpc]
      cases hn : w.next e <;> simp [Ingest.nextPc, hn]
    exact ⟨hc.with_ingest (fun a ha => absurd ha (hnext a).1) fun a => (hnext a).2,
      fun id hid => absurd hid Finmap.notMem_empty⟩

theorem custody_scan {e : Watchcat.Event} (hd : GitDiscovery (view s))
    (hc : GitCustody (view s)) (he : Enabled env s (.scan e)) :
    GitCustody (view (next env s (.scan e))) := by
  cases e with
  | reject | choose | mark | fail | skip => exact hc
  | queue l =>
    have hdb : (next env s (.scan (.queue l))).db =
        s.db.insertSeries .needsTesting l.series.id l.series.mbox := Watchcat.queue_db he
    have hfree : ∀ t, ¬ (view s).held t l.series.id := hd.marked_free l he.1
    have hmem : ∀ t a, (view (next env s (.scan (.queue l)))).held t a ↔
        (a = l.series.id ∧ t = .needsTesting) ∨ (view s).held t a := by
      intro t a
      simp only [View.held, view, hdb]
      exact Db.mem_insertSeries
    refine hc.of_custody (hc.discovered hfree hmem).notify ?_ ?_
    · exact (Ingest.Pc.cursor_notify _).ge
    · exact fun a _ ha => (hmem _ a).mpr (Or.inr ha)

theorem needsTesting_worker (i : ℕ) (id : SeriesId) (w : Worker.State) (e : Worker.Event) :
    (Worker.nextDb i id w e).series .needsTesting = w.db.series .needsTesting := by
  cases e with
  | busy | free | wait | startWork => rfl
  | moveIn | moveToFailures => exact Db.series_moveToNewQueue_of_ne (by simp) (by simp)
  | work e => rw [Worker.nextDb, DoWork.nextDb_series]
  | remove => simp [Worker.nextDb, Db.removeSeries]

theorem custody_worker {i : ℕ} {id : SeriesId} {e : Worker.Event}
    (hc : GitCustody (view s)) (he : Enabled env s (.worker i id e)) :
    GitCustody (view (next env s (.worker i id e))) := by
  obtain ⟨pc, hi, he⟩ := he
  rw [view_worker env hi]
  have hkept := needsTesting_worker i id ⟨s.db, s.git, pc⟩ e
  refine ClonedCustody.of_custody hc ?_ le_rfl fun a _ ha => (congrArg (a ∈ ·) hkept).mpr ha
  cases e with
  | busy =>
    obtain rfl : pc = .checking := he.1
    exact hc.advanced hi (by simp [Worker.Pc.MovedIn]) (by simp)
  | free =>
    obtain rfl : pc = .checking := he.1
    exact hc.advanced hi (by simp [Worker.Pc.MovedIn]) fun _ => KvTree.isEmpty_iff.mp he.2
  | wait e =>
    obtain ⟨w, rfl, _⟩ := he
    refine hc.advanced hi ?_ ?_ <;> cases hn : w.next e <;> simp [Worker.Pc.MovedIn]
  | moveIn =>
    obtain rfl : pc = .movingIn := he.1
    exact hc.taken hi fun t a => held_moved (by simp) he.2 t a
  | startWork =>
    obtain rfl : pc = .moved := he
    exact hc.advanced hi (by simp [Worker.Pc.MovedIn]) (by simp)
  | work e =>
    obtain ⟨p, rfl, _⟩ := he
    have hser := DoWork.nextDb_series id s.db e
    simp only [Worker.nextDb, hser]
    exact hc.advanced hi (by simp [Worker.Pc.MovedIn]) (by simp)
  | remove =>
    have hpc : pc = .working (.returned true) := he
    subst hpc
    refine hc.released hi trivial ?_ fun t ht => held_of_return hc.toCustody hi he rfl ht
    intro t a ha
    simp [View.held, Worker.nextDb, Db.mem_removeSeries, ha, view]
  | moveToFailures =>
    obtain rfl : pc = .working (.returned false) := he.1
    have hne : SeriesTree.gitWorker i ≠ .gitFailures := by simp
    refine hc.released hi trivial ?_ fun t ht => held_of_return hc.toCustody hi he rfl ht
    intro t a ha
    exact (held_moved hne he.2 t a).trans (by simp [ha])

theorem custody_step {e : Event} (hd : GitDiscovery (view s)) (hc : GitCustody (view s))
    (he : Enabled env s e) : GitCustody (view (next env s e)) := by
  cases e using event_cases with
  | elsewhere e ho =>
    rw [view_elsewhere env s ho]
    exact hc
  | start config threads =>
    exact ⟨Custody.stopped hc.held_once hc.worker_single (Or.inr rfl),
      fun _ hid => absurd hid Finmap.notMem_empty⟩
  | stop =>
    exact ⟨Custody.stopped hc.held_once hc.worker_single (Or.inl rfl),
      fun _ hid => absurd hid Finmap.notMem_empty⟩
  | beginScan page => exact hc
  | scan e => exact custody_scan hd hc he
  | ingest e => exact custody_ingest hc he
  | begin i id => exact hc.of_custody (Custody.begun hc.toCustody he.2.2) le_rfl fun _ _ h => h
  | worker i id e => exact custody_worker hc he

theorem discovery_worker {i : ℕ} {id : SeriesId} {e : Worker.Event}
    (hd : GitDiscovery (view s)) (he : Enabled env s (.worker i id e)) :
    GitDiscovery (view (next env s (.worker i id e))) := by
  obtain ⟨pc, hi, he⟩ := he
  rw [view_worker env hi]
  cases e with
  | busy | free | wait | startWork => exact hd
  | moveIn =>
    simp only [GitDiscovery, Worker.nextDb, Db.seen_moveToNewQueue]
    exact hd.of_held (held_of_moved (by simp) he.2)
  | work e =>
    simp only [GitDiscovery, Worker.nextDb, DoWork.nextDb_seen]
    exact hd.of_held fun t a ha => ⟨t, by simpa [View.held, view, DoWork.nextDb_series] using ha⟩
  | remove => exact hd.of_held fun t a ha => ⟨t, (Db.mem_removeSeries.mp ha).1⟩
  | moveToFailures =>
    simp only [GitDiscovery, Worker.nextDb, Db.seen_moveToNewQueue]
    exact hd.of_held (held_of_moved (by simp) he.2)

theorem discovery_step {e : Event} (hd : GitDiscovery (view s)) (he : Enabled env s e) :
    GitDiscovery (view (next env s e)) := by
  cases e using event_cases with
  | elsewhere e ho =>
    rw [view_elsewhere env s ho]
    exact hd
  | start | stop => exact Discovery.start hd.held_seen List.nodup_nil
  | beginScan page => exact Discovery.start hd.held_seen he.2
  | scan e => exact discovery_scan hd he
  | ingest e => cases e with
    | move id =>
      refine Discovery.of_held (h := (view s).held) ?_ (held_of_moved (by simp) he.2)
      simpa [view, Pipeline.next, ingestNext, Ingest.next, Db.seen_moveToNewQueue, GitDiscovery]
        using hd
    | ready | read | take | ends | spawn | wait => exact hd
  | begin i id => exact hd
  | worker i id e => exact discovery_worker hd he

end Steps

section Latch

variable {s : State}

/-- The series has passed the call of `do_work`: nothing that could lead to it is left. -/
structure Begun (id : SeriesId) (v : View) : Prop where
  seen : id.toDecimal ∈ v.seen
  unmarked : ∀ m ∈ v.scan.marked, m.series.id ≠ id
  not_testing : ¬ v.held .needsTesting id
  not_awaiting : ¬ v.held .awaitingGitWorker id
  started : ∀ i pc, v.thread i = some (id, pc) → pc.Started

theorem Begun.worker {id a : SeriesId} {i : ℕ} {e : Worker.Event} (h : Begun id (view s))
    (he : Enabled env s (.worker i a e)) :
    Begun id (view (next env s (.worker i a e))) := by
  obtain ⟨pc, hi, he⟩ := he
  rw [view_worker env hi]
  have hseen : (Worker.nextDb i a ⟨s.db, s.git, pc⟩ e).seenByWatchcat = s.db.seenByWatchcat := by
    cases e with
    | work e => exact DoWork.nextDb_seen a s.db e
    | moveIn | moveToFailures => exact Db.seen_moveToNewQueue
    | busy | free | wait | startWork | remove => rfl
  have hback : ∀ t, t = .needsTesting ∨ t = .awaitingGitWorker →
      id ∈ (Worker.nextDb i a ⟨s.db, s.git, pc⟩ e).series t → (view s).held t id :=
    fun t ht hid => held_of_worker he ht hid
  refine ⟨hseen.symm ▸ h.seen, h.unmarked, fun hid => h.not_testing (hback _ (Or.inl rfl) hid),
    fun hid => h.not_awaiting (hback _ (Or.inr rfl) hid), ?_⟩
  intro j p hj
  rcases Custody.thread_update hj with ⟨rfl, hx⟩ | ⟨_, hj⟩
  · obtain ⟨q, hq, hqa⟩ := Option.map_eq_some_iff.mp hx
    cases hqa
    have hst := h.started j pc hi
    cases pc with
    | working p =>
      cases e with
      | work e => exact (Option.some.inj hq) ▸ trivial
      | remove | moveToFailures => cases hq
      | busy | free | moveIn => cases he.1
      | startWork => cases he
      | wait e =>
        obtain ⟨w, hw, _⟩ := he
        cases hw
    | checking | waiting | movingIn | moved => exact hst.elim
  · exact h.started j p hj

theorem Begun.step {id : SeriesId} {e : Event} (hd : GitDiscovery (view s))
    (hc : GitCustody (view s)) (h : Begun id (view s)) (he : Enabled env s e) :
    Begun id (view (next env s e)) := by
  cases e using event_cases with
  | elsewhere e ho =>
    rw [view_elsewhere env s ho]
    exact h
  | start | stop =>
    exact ⟨h.seen, fun m hm => absurd hm List.not_mem_nil, h.not_testing, h.not_awaiting,
      fun i pc hi => by cases hi⟩
  | beginScan page =>
    exact ⟨h.seen, fun m hm => absurd hm List.not_mem_nil, h.not_testing, h.not_awaiting,
      h.started⟩
  | scan e => cases e with
    | reject | choose | skip => exact ⟨h.1, h.2, h.3, h.4, h.5⟩
    | fail a => exact { h with unmarked := fun m hm => h.unmarked m (List.mem_of_mem_erase hm) }
    | mark a =>
      refine ⟨Finmap.mem_insert.mpr (Or.inr h.seen), ?_, h.not_testing, h.not_awaiting, h.started⟩
      intro m hm
      rcases List.mem_cons.mp hm with rfl | hm
      · rintro rfl
        exact hd.chosen_unseen _ he h.seen
      · exact h.unmarked m hm
    | queue a =>
      have hdb : (next env s (.scan (.queue a))).db =
          s.db.insertSeries .needsTesting a.series.id a.series.mbox := Watchcat.queue_db he
      have hback : ∀ t, id ∈ (next env s (.scan (.queue a))).db.series t →
          (view s).held t id := by
        intro t ht
        rw [hdb] at ht
        exact (Db.mem_insertSeries.mp ht).resolve_left fun hx => h.unmarked a he.1 hx.1.symm
      have hseen : id.toDecimal ∈ (next env s (.scan (.queue a))).db.seenByWatchcat := by
        rw [hdb]
        exact h.seen
      exact ⟨hseen, fun m hm => h.unmarked m (List.mem_of_mem_erase hm),
        fun ht => h.not_testing (hback _ ht), fun ht => h.not_awaiting (hback _ ht), h.started⟩
  | ingest e => cases e with
    | move a =>
      have hne : id ≠ a := by
        rintro rfl
        exact h.not_testing he.2
      have hback : ∀ t, (view (next env s (.ingest (.move a)))).held t id →
          (view s).held t id := fun t ht =>
        ((held_moved (by simp) he.2 t id).mp ht).elim (fun hx => absurd hx.1 hne) And.left
      refine ⟨?_, h.unmarked, fun ht => h.not_testing (hback _ ht),
        fun ht => h.not_awaiting (hback _ ht), h.started⟩
      simpa [view, Pipeline.next, ingestNext, Ingest.next, Db.seen_moveToNewQueue] using h.seen
    | ready | read | take | ends | spawn | wait => exact ⟨h.1, h.2, h.3, h.4, h.5⟩
  | begin i a =>
    refine ⟨h.seen, h.unmarked, h.not_testing, h.not_awaiting, ?_⟩
    intro j pc hj
    rcases Custody.thread_update hj with ⟨_, hx⟩ | ⟨_, hj⟩
    · cases hx
      exact absurd (hc.pool_awaiting id he.2.2).1 h.not_awaiting
    · exact h.started j pc hj
  | worker i a e => exact h.worker he

theorem Begun.of_working {i : ℕ} {id : SeriesId} {pc : DoWork.Pc} (hd : GitDiscovery (view s))
    (hc : GitCustody (view s)) (hi : s.proc.thread i = some (id, .working pc)) :
    Begun id (view s) := by
  have hw : (view s).held (.gitWorker i) id := hc.thread_after i id _ hi trivial
  refine ⟨hd.held_seen _ id hw, fun m hm heq => hd.marked_free m hm _ (heq ▸ hw), ?_, ?_, ?_⟩
  · intro ht
    cases hc.held_once _ _ id ht hw
  · intro ht
    cases hc.held_once _ _ id ht hw
  · intro j p hj
    obtain rfl := hc.thread_once j i id p _ hj hi
    cases Option.some.inj (hj.symm.trans hi)
    trivial

end Latch

def startsWork (id : SeriesId) : Event → Bool
  | .worker _ a .startWork => decide (a = id)
  | _ => false

section Runs

variable {s₀ s : State} {tr : List Event}

theorem view_initial (h : Initial s₀) :
    view s₀ = ⟨fun _ => ∅, ∅, .start [], .off, [], fun _ => none, .start⟩ := by
  simp [view, h.db_empty, h.not_running, Db.empty, Process.stopped]

theorem execution_git (hx : (machine env).Execution s₀ tr s) (h₀ : Initial s₀) :
    GitDiscovery (view s) ∧ GitCustody (view s) := by
  refine hx.invariant (I := fun s => GitDiscovery (view s) ∧ GitCustody (view s)) ?_
    fun s e h he => ⟨discovery_step h.1 he, custody_step h.1 h.2 he⟩
  rw [view_initial h₀]
  have hno : ∀ t id,
      ¬ View.held ⟨fun _ => ∅, ∅, .start [], .off, [], fun _ => none, .start⟩ t id :=
    fun _ _ => Finmap.notMem_empty
  exact ⟨Discovery.start (fun t id ht => absurd ht (hno t id)) List.nodup_nil,
    Custody.stopped (fun t u id ht => absurd ht (hno t id))
      (fun i a b ha => absurd ha (hno _ a)) (Or.inl rfl),
    fun _ hid => absurd hid Finmap.notMem_empty⟩

theorem startsWork_once (hx : (machine env).Execution s₀ tr s) (h₀ : Initial s₀)
    (id : SeriesId) : tr.countP (startsWork id) ≤ 1 := by
  have hstart : ∀ {s e}, Enabled env s e → startsWork id e = true →
      ∃ i, e = .worker i id .startWork := by
    intro s e _ hp
    unfold startsWork at hp
    split at hp
    · exact ⟨_, by rw [of_decide_eq_true hp]⟩
    · cases hp
  have hnil : (machine env).Execution s₀ [] s₀ := .nil
  have hlatch := hx.once (I := fun s => GitDiscovery (view s) ∧ GitCustody (view s))
    (fun s => Begun id (view s)) (startsWork id) (execution_git hnil h₀)
    (fun s e h he => ⟨discovery_step h.1 he, custody_step h.1 h.2 he⟩) ?_ ?_
    fun s e h he hb => hb.step h.1 h.2 he
  · rcases hlatch with h | ⟨h, _⟩ <;> omega
  · intro s e h he hp hb
    obtain ⟨i, rfl⟩ := hstart he hp
    obtain ⟨pc, hi, rfl⟩ := he
    exact hb.started i _ hi
  · intro s e h he hp
    obtain ⟨i, rfl⟩ := hstart he hp
    have hnext : (next env s (.worker i id .startWork)).proc.thread i =
        some (id, .working .opening) := by
      obtain ⟨pc, hi, _⟩ := he
      have hv := congrArg (·.thread) (view_worker env (e := .startWork) hi)
      exact (congrFun hv i).trans (by simp [Worker.nextPc])
    exact .of_working (discovery_step h.1 he) (custody_step h.1 h.2 he) hnext

theorem begun_of_work (hx : (machine env).Execution s₀ tr s) (h₀ : Initial s₀) {i : ℕ}
    {id : SeriesId} {we : DoWork.Event} (hw : Event.worker i id (.work we) ∈ tr) :
    Begun id (view s) := by
  obtain ⟨pre, post, u, rfl, hpre, he, hpost⟩ := hx.occurrence hw
  obtain ⟨hd, hc⟩ := execution_git hpre h₀
  have he : Enabled env u (.worker i id (.work we)) := he
  have hbegun : Begun id (view u) := by
    obtain ⟨_, hi, q, rfl, _⟩ := he
    exact .of_working hd hc hi
  have hnext := hbegun.step hd hc he
  refine (hpost.invariant (I := fun s => GitDiscovery (view s) ∧ GitCustody (view s) ∧
    Begun id (view s)) ⟨discovery_step hd he, custody_step hd hc he, hnext⟩ ?_).2.2
  exact fun s e h he => ⟨discovery_step h.1 he, custody_step h.1 h.2.1 he, h.2.2.step h.1 h.2.1 he⟩

end Runs

end Snowpatch.GitStage
