import Snowpatch.GitStage
import Snowpatch.RunnerStage
import Snowpatch.Delivery
import Snowpatch.Library.Sweep

/-! The passes of the three loops over trees that change under them. A pass goes from the
start of an iteration to its end; in between, every other part of the program goes on as it
likes. No key is left behind that was in the tree when its pass began, or when its leaf was
read. -/
namespace Snowpatch.LivePasses

open Pipeline

variable {env : Env} {s t : State} {tr : List Event}

section Ingest

def InIngestPass : Event → Prop
  | .start _ _ | .stop | .ingest .ready | .ingest .ends | .ingest (.wait _) => False
  | .main _ | .scan _ | .ingest _ | .begin _ _ | .worker _ _ _ | .watcher _ _ | .wait _ _
  | .dispatch _ | .moveMaster _ | .otherCheck _ _ => True

def ingestHand : Ingest.Pc → Option SeriesId
  | .moving id | .spawning id => some id
  | .off | .initWorktrees | .iterate _ | .waiting _ => none

def ingested : Event → Option SeriesId
  | .ingest (.take id) => some id
  | _ => none

def handedOver : Event → Option SeriesId
  | .ingest (.spawn id) => some id
  | _ => none

theorem ingest_pc_next (env : Env) (s : State) {e : Event} (hin : InIngestPass e)
    (he : ∀ ie, e ≠ .ingest ie) :
    ((next env s e).proc.ingest = s.proc.ingest ∨
      (next env s e).proc.ingest = s.proc.ingest.notify) ∧
        (next env s e).proc.ingestLeaf = s.proc.ingestLeaf := by
  cases e using GitStage.event_cases with
  | elsewhere e ho =>
    have hv := GitStage.view_elsewhere env s ho
    exact ⟨Or.inl (congrArg (·.ingest) hv), congrArg (·.leaf) hv⟩
  | start | stop => exact hin.elim
  | beginScan page => exact ⟨Or.inl rfl, rfl⟩
  | scan e => cases e with
    | queue l => exact ⟨Or.inr rfl, rfl⟩
    | reject | choose | mark | fail | skip => exact ⟨Or.inl rfl, rfl⟩
  | ingest e => exact absurd rfl (he e)
  | begin i id => exact ⟨Or.inl rfl, rfl⟩
  | worker i id e =>
    cases hi : s.proc.thread i with
    | none => simp [next, workerNext, hi]
    | some x =>
      obtain ⟨w, hw, _⟩ := workerNext_proc env id hi e
      rw [hw]
      exact ⟨Or.inl rfl, rfl⟩

theorem ingestHand_notify (pc : Ingest.Pc) : ingestHand pc.notify = ingestHand pc := by
  cases pc <;> rfl

theorem mem_needsTesting_next {e : Event} (he : Enabled env s e) {id : SeriesId}
    (hid : id ∈ s.db.series .needsTesting) :
    id ∈ (next env s e).db.series .needsTesting ∨ e = .ingest (.move id) := by
  cases e using GitStage.event_cases with
  | elsewhere e ho =>
    have htrees : (next env s e).db.series = s.db.series :=
      congrArg (·.trees) (GitStage.view_elsewhere env s ho)
    exact Or.inl (htrees ▸ hid)
  | start | stop | beginScan | begin => exact Or.inl hid
  | scan e => cases e with
    | queue l =>
      have hdb : (next env s (.scan (.queue l))).db =
          s.db.insertSeries .needsTesting l.series.id l.series.mbox := Watchcat.queue_db he
      rw [hdb]
      exact Or.inl (Db.mem_insertSeries.mpr (Or.inr hid))
    | reject | choose | mark | fail | skip => exact Or.inl hid
  | ingest e => cases e with
    | move a =>
      by_cases ha : id = a
      · exact Or.inr (by rw [ha])
      · exact Or.inl ((GitStage.held_moveToNewQueue (by simp) he.2 _ _).mpr
          (Or.inr ⟨hid, fun h => ha h.1⟩))
    | ready | read | take | ends | spawn | wait => exact Or.inl hid
  | worker i id e =>
    obtain ⟨pc, hi, _⟩ := he
    have htrees : (next env s (.worker i id e)).db.series =
        (Worker.nextDb i id ⟨s.db, s.git, pc⟩ e).series :=
      congrArg (·.trees) (GitStage.view_worker env hi)
    rw [htrees]
    refine Or.inl ?_
    cases e with
    | busy | free | wait | startWork => exact hid
    | moveIn | moveToFailures =>
      simp only [Worker.nextDb]
      rw [Db.series_moveToNewQueue_of_ne (by simp) (by simp)]
      exact hid
    | remove => exact Db.mem_removeSeries.mpr ⟨hid, by simp⟩
    | work e => simpa only [Worker.nextDb, DoWork.nextDb_series] using hid

theorem ingest_sweeps (env : Env) : (machine env).Sweeps
    (fun s => s.db.series .needsTesting) (fun s => s.proc.ingest.cursor)
    (fun s => s.proc.ingestLeaf) ingested InIngestPass fun _ _ => False where
  yield := by
    intro s e id he hy
    cases e with
    | ingest e => cases e with
      | take a =>
        obtain rfl : a = id := Option.some.inj hy
        obtain ⟨cursor, hpc, hnext⟩ := he
        have hpc : s.proc.ingest = .iterate cursor := hpc
        exact ⟨by rw [hpc]; exact hnext, rfl, rfl⟩
      | ready | read | ends | move | spawn | wait => cases hy
    | _ => cases hy
  quiet := by
    intro s e he hin hy
    by_cases hown : ∃ ie, e = .ingest ie
    · obtain ⟨ie, rfl⟩ := hown
      cases ie with
      | take a => cases hy
      | ready | ends | wait => exact hin.elim
      | read leaf found =>
        obtain ⟨cursor, hpc, hreads⟩ := he
        have hpc : s.proc.ingest = .iterate cursor := hpc
        exact ⟨rfl, Or.inr ⟨found, by rw [hpc]; exact hreads⟩⟩
      | move a =>
        have hpc : s.proc.ingest = .moving a := he.1
        exact ⟨(congrArg Ingest.Pc.cursor hpc).symm, Or.inl rfl⟩
      | spawn a =>
        have hpc : s.proc.ingest = .spawning a := he
        exact ⟨(congrArg Ingest.Pc.cursor hpc).symm, Or.inl rfl⟩
    · push Not at hown
      obtain ⟨h | h, hleaf⟩ := ingest_pc_next env s hin hown
      · exact ⟨congrArg Ingest.Pc.cursor h, Or.inl hleaf⟩
      · exact ⟨(congrArg Ingest.Pc.cursor h).trans (Ingest.Pc.cursor_notify _), Or.inl hleaf⟩
  kept := by
    intro s e id he hin hahead hid
    rcases mem_needsTesting_next he hid with h | rfl
    · exact Or.inl h
    · have hpc : s.proc.ingest = .moving id := he.1
      rw [hpc] at hahead
      exact absurd hahead.1 (lt_irrefl _)

theorem ingest_one_by_one (env : Env) : (machine env).OneByOne ingested handedOver
    InIngestPass fun s => ingestHand s.proc.ingest where
  take := by
    intro s e id he hy
    cases e with
    | ingest e => cases e with
      | take a =>
        obtain ⟨cursor, hpc, _⟩ := he
        have hpc : s.proc.ingest = .iterate cursor := hpc
        exact ⟨congrArg ingestHand hpc, hy, rfl⟩
      | ready | read | ends | move | spawn | wait => cases hy
    | _ => cases hy
  finish := by
    intro s e id he hy
    cases e with
    | ingest e => cases e with
      | spawn a =>
        have hpc : s.proc.ingest = .spawning a := he
        exact ⟨(congrArg ingestHand hpc).trans hy, rfl, rfl⟩
      | ready | read | take | ends | move | wait => cases hy
    | _ => cases hy
  other := by
    intro s e he hin htake hfinish
    by_cases hown : ∃ ie, e = .ingest ie
    · obtain ⟨ie, rfl⟩ := hown
      cases ie with
      | take => cases htake
      | spawn => cases hfinish
      | ready | ends | wait => exact hin.elim
      | read => rfl
      | move a =>
        have hpc : s.proc.ingest = .moving a := he.1
        exact (congrArg ingestHand hpc).symm
    · push Not at hown
      rcases (ingest_pc_next env s hin hown).1 with h | h
      · exact congrArg ingestHand h
      · exact (congrArg ingestHand h).trans (ingestHand_notify _)

/-- When an iteration of ingest over "needs testing" comes to its end, every series that it
could still come to at some time of it has been handed to the git pool: in the clone it had then
or in what was not yet read, past the cursor. The series have been handed over in the order of
their keys, each of them once. -/
theorem ingest_pass_complete {cursor : WithBot SeriesId} (hs : s.proc.ingest = .iterate cursor)
    (hx : (machine env).Execution s tr t) (hin : ∀ e ∈ tr, InIngestPass e)
    (hend : Enabled env t (.ingest .ends)) :
    (tr.filterMap handedOver).Pairwise (· < ·) ∧
      ∀ id ∈ s.db.series .needsTesting, s.proc.ingestLeaf.Ahead cursor id →
        Event.ingest (.spawn id) ∈ tr := by
  obtain ⟨last, hpc, hend⟩ := hend
  have hpc : t.proc.ingest = .iterate last := hpc
  have hfinished := (ingest_one_by_one env).finished hx hin (congrArg ingestHand hs)
  simp only [hpc, ingestHand, Option.toList_none, List.append_nil] at hfinished
  refine ⟨hfinished ▸ ((ingest_sweeps env).ascending hx hin).1, fun id hid hahead => ?_⟩
  have hends : t.proc.ingestLeaf.Ends (t.db.series .needsTesting) t.proc.ingest.cursor := by
    rw [hpc]
    exact hend
  rcases (ingest_sweeps env).complete hx hin hends hid (by rw [hs]; exact hahead) with
    hy | ⟨_, _, hr⟩
  · rw [hfinished] at hy
    obtain ⟨e, he, hid⟩ := List.mem_filterMap.mp hy
    cases e with
    | ingest e => cases e with
      | spawn a =>
        obtain rfl : a = id := Option.some.inj hid
        exact he
      | ready | read | take | ends | move | wait => cases hid
    | _ => cases hid
  · exact hr.elim

open Sample in
theorem ingest_pass_complete_sample : ∃ s t,
    (machine Sample.env).Execution s
      (Sample.ingest.drop 1) t ∧
    ∀ a ∈ s.db.series .needsTesting, s.proc.ingestLeaf.Ahead ⊥ a →
      Event.ingest (.spawn a) ∈ Sample.ingest.drop 1 := by
  have hready := Machine.runs_append.mp (Machine.runs_append.mp
    (committing_runs config ∅ (fun _ => .off) fun _ => .start)).1
  have hpass := hready.2.2
  exact ⟨_, _, hpass.execution, (ingest_pass_complete rfl hpass.execution
    (by simp [InIngestPass]) ⟨_, rfl, by decide⟩).2⟩

end Ingest

section Watcher

variable {k : ℕ}

def InWatcherPass (k : ℕ) : Event → Prop
  | .start _ _ | .stop => False
  | .main (.spawnWatcher j) | .watcher j .ends | .watcher j (.wait _) => j ≠ k
  | .main _ | .scan _ | .ingest _ | .begin _ _ | .worker _ _ _ | .watcher _ _ | .wait _ _
  | .dispatch _ | .moveMaster _ | .otherCheck _ _ => True

def watcherHand : Watcher.Pc → Option String
  | .starting branch | .moving branch | .spawning branch => some branch
  | .off | .iterate _ | .waiting _ => none

def watched (k : ℕ) : Event → Option String
  | .watcher j (.take branch) => if j = k then some branch else none
  | _ => none

/-- The branches whose `wait_for_completion` the watcher spawns. -/
def polled (k : ℕ) : Event → Option String
  | .watcher j (.spawn branch) => if j = k then some branch else none
  | _ => none

/-- Another watcher of the same queue is faster. -/
def MovedByOther (k : ℕ) (e : Event) (branch : String) : Prop :=
  ∃ j, j ≠ k ∧ e = .watcher j (.move branch)

theorem watched_eq_some {e : Event} {branch : String} :
    watched k e = some branch ↔ e = .watcher k (.take branch) := by
  cases e with
  | watcher j e => cases e with
    | take b => by_cases hj : j = k <;> simp [watched, hj]
    | read | ends | startWork | move | spawn | wait => simp [watched]
  | _ => simp [watched]

theorem polled_eq_some {e : Event} {branch : String} :
    polled k e = some branch ↔ e = .watcher k (.spawn branch) := by
  cases e with
  | watcher j e => cases e with
    | spawn b => by_cases hj : j = k <;> simp [polled, hj]
    | read | take | ends | startWork | move | wait => simp [polled]
  | _ => simp [polled]

theorem watcher_pc_next (env : Env) (s : State) {e : Event} (hin : InWatcherPass k e)
    (he : ∀ we, e ≠ .watcher k we) :
    ((next env s e).proc.watcher k = s.proc.watcher k ∨
      (next env s e).proc.watcher k = (s.proc.watcher k).notify) ∧
        (next env s e).proc.watcherLeaf k = s.proc.watcherLeaf k := by
  cases e using RunnerStage.event_cases with
  | elsewhere e ho =>
    have hv := RunnerStage.view_elsewhere env s ho
    have hw : (next env s e).proc.watcher = s.proc.watcher := congrArg (·.watcher) hv
    have hl : (next env s e).proc.watcherLeaf = s.proc.watcherLeaf := congrArg (·.watcherLeaf) hv
    exact ⟨Or.inl (congrFun hw k), congrFun hl k⟩
  | start | stop => exact hin.elim
  | spawnWatcher j =>
    have hkj : k ≠ j := fun h => hin h.symm
    simp [next, mainNext, hkj]
  | queue i id r n =>
    cases hi : s.proc.thread i with
    | none => simp [next, workerNext, hi]
    | some x =>
      obtain ⟨w, hw, hn⟩ := workerNext_proc env id hi (.work (.queue r n))
      rw [hw]
      exact ⟨hn k, rfl⟩
  | watcher j e =>
    have hkj : k ≠ j := by
      rintro rfl
      exact he e rfl
    obtain ⟨w, hw, hn⟩ := watcherNext_proc env s j e
    rw [hw]
    simpa [hkj] using hn k
  | connect | wait | dispatch | otherCheck => exact ⟨Or.inl rfl, rfl⟩

theorem watcher_own (env : Env) (s : State) (k : ℕ) (we : Watcher.Event) :
    (next env s (.watcher k we)).proc.watcher k = Watcher.nextPc (s.proc.watcher k) we ∧
      (next env s (.watcher k we)).proc.watcherLeaf k =
        Watcher.nextLeaf (s.proc.watcherLeaf k) we := by
  obtain ⟨w, hw, _⟩ := watcherNext_proc env s k we
  rw [hw]
  exact ⟨Function.update_self .., Function.update_self ..⟩

theorem watcher_own_next {we : Watcher.Event} (hin : InWatcherPass k (.watcher k we))
    (he : Enabled env s (.watcher k we)) (htake : watched k (.watcher k we) = none) :
    (∃ branch, watcherHand (s.proc.watcher k) = some branch ∧
      (s.proc.watcher k).cursor = branch ∧
      (Watcher.nextPc (s.proc.watcher k) we).cursor = branch ∧
      Watcher.nextLeaf (s.proc.watcherLeaf k) we = s.proc.watcherLeaf k) ∨
    ∃ leaf found, we = .read leaf found ∧ (s.proc.watcherLeaf k).Reads
      (s.db.branches (.queue gitHubHandle)) (s.proc.watcher k).cursor leaf found := by
  cases we with
  | take branch => simp [watched] at htake
  | ends | wait => exact absurd rfl hin
  | read leaf found =>
    obtain ⟨cursor, hs, hreads⟩ := he
    have hs : s.proc.watcher k = .iterate cursor := hs
    exact Or.inr ⟨leaf, found, rfl, by rw [hs]; exact hreads⟩
  | startWork branch =>
    have hs : s.proc.watcher k = .starting branch := he
    exact Or.inl ⟨branch, by rw [hs]; rfl, by rw [hs]; rfl, rfl, rfl⟩
  | move branch =>
    have hs : s.proc.watcher k = .moving branch := he.1
    exact Or.inl ⟨branch, by rw [hs]; rfl, by rw [hs]; rfl, rfl, rfl⟩
  | spawn branch =>
    have hs : s.proc.watcher k = .spawning branch := he
    exact Or.inl ⟨branch, by rw [hs]; rfl, by rw [hs]; rfl, rfl, rfl⟩

theorem watcher_sweeps (env : Env) (k : ℕ) : (machine env).Sweeps
    (fun s => s.db.branches (.queue gitHubHandle)) (fun s => (s.proc.watcher k).cursor)
    (fun s => s.proc.watcherLeaf k) (watched k) (InWatcherPass k) (MovedByOther k) where
  yield := by
    intro s e branch he hy
    obtain rfl := watched_eq_some.mp hy
    obtain ⟨cursor, hpc, hnext⟩ := he
    have hpc : s.proc.watcher k = .iterate cursor := hpc
    obtain ⟨hpc', hleaf⟩ := watcher_own env s k (.take branch)
    exact ⟨by rw [hpc]; exact hnext, congrArg Watcher.Pc.cursor hpc', hleaf⟩
  quiet := by
    intro s e he hin hy
    by_cases hown : ∃ we, e = .watcher k we
    · obtain ⟨we, rfl⟩ := hown
      have he : Enabled env s (.watcher k we) := he
      obtain ⟨hpc', hleaf⟩ := watcher_own env s k we
      rcases watcher_own_next hin he hy with ⟨_, _, hc, hc', hl⟩ | ⟨leaf, found, rfl, hreads⟩
      · exact ⟨(congrArg Watcher.Pc.cursor hpc').trans (hc'.trans hc.symm),
          Or.inl (hleaf.trans hl)⟩
      · exact ⟨congrArg Watcher.Pc.cursor hpc', Or.inr ⟨found, hleaf ▸ hreads⟩⟩
    · push Not at hown
      obtain ⟨h | h, hleaf⟩ := watcher_pc_next env s hin hown
      · exact ⟨congrArg Watcher.Pc.cursor h, Or.inl hleaf⟩
      · exact ⟨(congrArg Watcher.Pc.cursor h).trans (Watcher.Pc.cursor_notify _), Or.inl hleaf⟩
  kept := by
    intro s e branch he hin hahead hb
    rcases RunnerStage.mem_branches_kept he hb with hk | ⟨j, rfl, _, _⟩ | ⟨_, _, _, ht⟩
    · exact Or.inl hk
    · refine Or.inr ⟨j, ?_, rfl⟩
      rintro rfl
      have hpc : s.proc.watcher j = .moving branch := he.1
      rw [hpc] at hahead
      exact lt_irrefl _ hahead.1
    · cases ht

theorem watcherHand_notify (pc : Watcher.Pc) : watcherHand pc.notify = watcherHand pc := by
  cases pc <;> rfl

theorem watcher_one_by_one (env : Env) (k : ℕ) : (machine env).OneByOne (watched k) (polled k)
    (InWatcherPass k) fun s => watcherHand (s.proc.watcher k) where
  take := by
    intro s e branch he hy
    obtain rfl := watched_eq_some.mp hy
    obtain ⟨cursor, hpc, _⟩ := he
    have hpc : s.proc.watcher k = .iterate cursor := hpc
    exact ⟨congrArg watcherHand hpc,
      congrArg watcherHand (watcher_own env s k (.take branch)).1, rfl⟩
  finish := by
    intro s e branch he hy
    obtain rfl := polled_eq_some.mp hy
    have hpc : s.proc.watcher k = .spawning branch := he
    exact ⟨congrArg watcherHand hpc,
      congrArg watcherHand (watcher_own env s k (.spawn branch)).1, rfl⟩
  other := by
    intro s e he hin htake hfinish
    by_cases hown : ∃ we, e = .watcher k we
    · obtain ⟨we, rfl⟩ := hown
      refine (congrArg watcherHand (watcher_own env s k we).1).trans ?_
      cases we with
      | take b => simp [watched] at htake
      | spawn b => simp [polled] at hfinish
      | ends | wait => exact absurd rfl hin
      | read => rfl
      | startWork b =>
        have hpc : s.proc.watcher k = .starting b := he
        exact (congrArg watcherHand hpc).symm
      | move b =>
        have hpc : s.proc.watcher k = .moving b := he.1
        exact (congrArg watcherHand hpc).symm
    · push Not at hown
      rcases (watcher_pc_next env s hin hown).1 with h | h
      · exact congrArg watcherHand h
      · exact (congrArg watcherHand h).trans (watcherHand_notify _)

/-- When an iteration of a watcher comes to its end, every branch that it could still come to at
some time of it has a `wait_for_completion` of this watcher, or another watcher has moved it;
the watcher has gone through its branches in their order, each of them once. -/
theorem watcher_pass_complete {cursor : WithBot String}
    (hs : s.proc.watcher k = .iterate cursor) (hx : (machine env).Execution s tr t)
    (hin : ∀ e ∈ tr, InWatcherPass k e) (hend : Enabled env t (.watcher k .ends)) :
    (tr.filterMap (polled k)).Pairwise (· < ·) ∧
      ∀ branch ∈ s.db.branches (.queue gitHubHandle),
        (s.proc.watcherLeaf k).Ahead cursor branch → Event.watcher k (.spawn branch) ∈ tr ∨
          ∃ j, j ≠ k ∧ Event.watcher j (.move branch) ∈ tr := by
  obtain ⟨last, hpc, hend⟩ := hend
  have hpc : t.proc.watcher k = .iterate last := hpc
  have hfinished := (watcher_one_by_one env k).finished hx hin (congrArg watcherHand hs)
  simp only [hpc, watcherHand, Option.toList_none, List.append_nil] at hfinished
  refine ⟨hfinished ▸ ((watcher_sweeps env k).ascending hx hin).1, fun branch hb hahead => ?_⟩
  have hends : (t.proc.watcherLeaf k).Ends (t.db.branches (.queue gitHubHandle))
      (t.proc.watcher k).cursor := by
    rw [hpc]
    exact hend
  rcases (watcher_sweeps env k).complete hx hin hends hb (by rw [hs]; exact hahead) with
    hy | ⟨e, he, j, hjk, rfl⟩
  · rw [hfinished] at hy
    obtain ⟨e, he, hpolled⟩ := List.mem_filterMap.mp hy
    exact Or.inl (polled_eq_some.mp hpolled ▸ he)
  · exact Or.inr ⟨j, hjk, he⟩

open Sample in
theorem watcher_pass_complete_sample : ∃ s t,
    (machine Sample.env).Execution s (testing.take 5) t ∧
    ∀ branch ∈ s.db.branches (.queue gitHubHandle), (s.proc.watcherLeaf 0).Ahead ⊥ branch →
      Event.watcher 0 (.spawn branch) ∈ testing.take 5 ∨
        ∃ j, j ≠ 0 ∧ Event.watcher j (.move branch) ∈ testing.take 5 := by
  have htrace : trace = (boot ++ discover ++ Sample.ingest ++ gitWork) ++
      (testing.take 5 ++ testing.drop 5) := rfl
  have hruns := runs
  rw [htrace] at hruns
  have hpass := (Machine.runs_append.mp (Machine.runs_append.mp hruns).2).1
  exact ⟨_, _, hpass.execution, (watcher_pass_complete rfl hpass.execution
    (by simp [InWatcherPass, testing]) ⟨_, rfl, by decide⟩).2⟩

end Watcher

section Dispatch

open Delivery

/-- The process goes on, no request breaks, and the dispatcher neither begins nor ends the
first of its two loops. -/
def InDispatchPass : Event → Prop
  | .start _ _ | .stop | .main .connect | .dispatch .ends | .dispatch (.drop _)
  | .dispatch .dropped | .dispatch (.wait _) | .dispatch (.postBreaks _ _ _) => False
  | .main _ | .scan _ | .ingest _ | .begin _ _ | .worker _ _ _ | .watcher _ _ | .wait _ _
  | .dispatch _ | .moveMaster _ | .otherCheck _ _ => True

def entriesRead : Dispatch.Pc → List String
  | .iterate _ drop | .dropping drop => drop
  | .sending key _ drop | .checking key _ _ _ drop | .posting key _ _ _ drop => drop ++ [key]
  | .off | .waiting _ | .aborted => []

def readKey : Event → Option String
  | .dispatch (.take key) => some key
  | _ => none

theorem dispatch_pc_next (env : Env) (s : State) {e : Event} (hin : InDispatchPass e)
    (he : ∀ d, e ≠ .dispatch d) : ((next env s e).proc.dispatch = s.proc.dispatch ∨
      (next env s e).proc.dispatch = s.proc.dispatch.notify) ∧
        (next env s e).proc.dispatchLeaf = s.proc.dispatchLeaf := by
  cases e using RunnerStage.event_cases with
  | elsewhere e ho =>
    have hv := RunnerStage.view_elsewhere env s ho
    exact ⟨Or.inl (congrArg (·.dispatch) hv), congrArg (·.dispatchLeaf) hv⟩
  | start | stop | connect => exact hin.elim
  | spawnWatcher | otherCheck => exact ⟨Or.inl rfl, rfl⟩
  | queue i id r n =>
    cases hi : s.proc.thread i with
    | none => simp [next, workerNext, hi]
    | some x =>
      obtain ⟨w, hw, _⟩ := workerNext_proc env id hi (.work (.queue r n))
      rw [hw]
      exact ⟨Or.inl rfl, rfl⟩
  | watcher k e =>
    obtain ⟨w, hw, _⟩ := RunnerStage.view_watcher env s k e
    exact ⟨Or.inl (congrArg (·.dispatch) hw), congrArg (·.dispatchLeaf) hw⟩
  | wait t e => cases e with
    | report job =>
      refine ⟨?_, rfl⟩
      simp only [next, waitNext]
      split
      · exact Or.inl rfl
      · exact Or.inr rfl
    | progress | again | settle | remove => exact ⟨Or.inl rfl, rfl⟩
  | dispatch d => exact absurd rfl (he d)

theorem dispatch_own_next {d : Dispatch.Event} (hin : InDispatchPass (.dispatch d))
    (he : Enabled env s (.dispatch d)) :
    (∃ cursor drop key, d = .take key ∧ s.proc.dispatch = .iterate cursor drop ∧
      s.proc.dispatchLeaf.next cursor = (key : WithTop String) ∧
      (next env s (.dispatch d)).proc.dispatch.cursor = key ∧
      (next env s (.dispatch d)).proc.dispatchLeaf = s.proc.dispatchLeaf ∧
      entriesRead (next env s (.dispatch d)).proc.dispatch = drop ++ [key]) ∨
    (readKey (.dispatch d) = none ∧
      (next env s (.dispatch d)).proc.dispatch.cursor = s.proc.dispatch.cursor ∧
      ((next env s (.dispatch d)).proc.dispatchLeaf = s.proc.dispatchLeaf ∨
        ∃ found, s.proc.dispatchLeaf.Reads s.db.needsDispatch s.proc.dispatch.cursor
          (next env s (.dispatch d)).proc.dispatchLeaf found) ∧
      entriesRead (next env s (.dispatch d)).proc.dispatch = entriesRead s.proc.dispatch) := by
  rw [next_dispatch]
  cases d with
  | take key =>
    obtain ⟨cursor, drop, hpc, hnext⟩ := he
    obtain ⟨value, hv⟩ := Finmap.mem_iff.mp (KvTree.mem_of_first hnext)
    have hpc : s.proc.dispatch = .iterate cursor drop := hpc
    refine Or.inl ⟨cursor, drop, key, rfl, hpc, hnext, ?_, rfl, ?_⟩ <;>
      simp [Dispatch.nextPc, hpc, hv, Dispatch.Pc.cursor, entriesRead]
  | read leaf found =>
    obtain ⟨cursor, drop, hpc, hreads⟩ := he
    have hpc : s.proc.dispatch = .iterate cursor drop := hpc
    exact Or.inr ⟨rfl, rfl, Or.inr ⟨found, by rw [hpc]; exact hreads⟩, rfl⟩
  | noToken =>
    obtain ⟨_, key, value, drop, hpc, _⟩ := he
    have hpc : s.proc.dispatch = .sending key value drop := hpc
    refine Or.inr ⟨rfl, ?_, Or.inl rfl, ?_⟩ <;>
      simp [Dispatch.nextPc, hpc, Dispatch.Pc.cursor, entriesRead]
  | getSeries patch =>
    obtain ⟨_, key, value, drop, handle, id, name, hpc, hparse, _⟩ := he
    have hpc : s.proc.dispatch = .sending key value drop := hpc
    refine Or.inr ⟨rfl, ?_, Or.inl rfl, ?_⟩ <;>
      simp [Dispatch.nextPc, hpc, hparse, Dispatch.Pc.cursor, entriesRead]
  | duplicate | unique =>
    obtain ⟨key, id, patch, result, drop, hpc, _⟩ := he
    have hpc : s.proc.dispatch = .checking key id patch result drop := hpc
    refine Or.inr ⟨rfl, ?_, Or.inl rfl, ?_⟩ <;>
      simp [Dispatch.nextPc, hpc, Dispatch.Pc.cursor, entriesRead]
  | post id patch check =>
    obtain ⟨key, result, drop, hpc, _⟩ := he
    have hpc : s.proc.dispatch = .posting key id patch result drop := hpc
    refine Or.inr ⟨rfl, ?_, Or.inl rfl, ?_⟩ <;>
      simp [Dispatch.nextPc, hpc, Dispatch.Pc.cursor, entriesRead]
  | postBreaks | ends | drop | dropped | wait => exact hin.elim

theorem entriesRead_notify (pc : Dispatch.Pc) : entriesRead pc.notify = entriesRead pc := by
  cases pc <;> rfl

theorem mem_needsDispatch_next (env : Env) {e : Event} {key : String}
    (hkey : key ∈ s.db.needsDispatch) :
    key ∈ (next env s e).db.needsDispatch ∨ e = .dispatch (.drop key) := by
  cases e using RunnerStage.event_cases with
  | elsewhere e ho =>
    have hn : (next env s e).db.needsDispatch = s.db.needsDispatch :=
      congrArg (·.needsDispatch) (RunnerStage.view_elsewhere env s ho)
    exact Or.inl (hn ▸ hkey)
  | start | stop | connect | spawnWatcher | otherCheck => exact Or.inl hkey
  | queue i id r n =>
    refine Or.inl ?_
    simp only [next, workerNext]
    split <;> exact hkey
  | watcher k e =>
    obtain ⟨w, hw, _⟩ := RunnerStage.view_watcher env s k e
    have hn : (next env s (.watcher k e)).db.needsDispatch = s.db.needsDispatch :=
      congrArg (·.needsDispatch) hw
    exact Or.inl (hn ▸ hkey)
  | wait t e => cases e with
    | report job =>
      refine Or.inl ?_
      simp only [next, waitNext, Completion.nextDb]
      split
      · exact hkey
      · exact Finmap.mem_insert.mpr (Or.inr hkey)
    | progress | again | settle | remove => exact Or.inl hkey
  | dispatch d => cases d with
    | drop k =>
      by_cases hk : key = k
      · exact Or.inr (by rw [hk])
      · exact Or.inl (Finmap.mem_erase.mpr ⟨hk, hkey⟩)
    | _ => exact Or.inl hkey

theorem dispatch_sweeps (env : Env) : (machine env).Sweeps (fun s => s.db.needsDispatch)
    (fun s => s.proc.dispatch.cursor) (fun s => s.proc.dispatchLeaf) readKey InDispatchPass
    fun _ _ => False where
  yield := by
    intro s e key he hy
    cases e with
    | dispatch d => cases d with
      | take k =>
        obtain rfl : k = key := Option.some.inj hy
        have he : Enabled env s (.dispatch (.take k)) := he
        have hin : InDispatchPass (.dispatch (.take k)) := trivial
        rcases dispatch_own_next hin he with
          ⟨c, drop, k', hk, hpc, hnext, hcur, hleaf, _⟩ | ⟨hn, _⟩
        · cases hk
          exact ⟨by rw [hpc]; exact hnext, hcur, hleaf⟩
        · cases hn
      | _ => cases hy
    | _ => cases hy
  quiet := by
    intro s e he hin hy
    by_cases hown : ∃ d, e = .dispatch d
    · obtain ⟨d, rfl⟩ := hown
      rcases dispatch_own_next hin he with ⟨_, _, k, rfl, _⟩ | ⟨_, hcur, hleaf, _⟩
      · cases hy
      · exact ⟨hcur, hleaf⟩
    · push Not at hown
      obtain ⟨h | h, hleaf⟩ := dispatch_pc_next env s hin hown
      · exact ⟨congrArg Dispatch.Pc.cursor h, Or.inl hleaf⟩
      · exact ⟨(congrArg Dispatch.Pc.cursor h).trans (Dispatch.Pc.cursor_notify _),
          Or.inl hleaf⟩
  kept := by
    intro s e key _ hin _ hkey
    rcases mem_needsDispatch_next env (e := e) hkey with hk | rfl
    · exact Or.inl hk
    · exact hin.elim

theorem entriesRead_execution (hx : (machine env).Execution s tr t)
    (hin : ∀ e ∈ tr, InDispatchPass e) :
    entriesRead t.proc.dispatch = entriesRead s.proc.dispatch ++ tr.filterMap readKey := by
  induction hx with
  | nil => simp
  | @snoc tr t e hx he ih =>
    have hrun := ih fun a ha => hin a (List.mem_append_left _ ha)
    have hine := hin e (List.mem_append_right _ (List.mem_singleton_self e))
    rw [List.filterMap_append, ← List.append_assoc, ← hrun]
    by_cases hown : ∃ d, e = .dispatch d
    · obtain ⟨d, rfl⟩ := hown
      rcases dispatch_own_next hine he with
        ⟨_, drop, k, rfl, hpc, _, _, _, hread⟩ | ⟨hn, _, _, hread⟩
      · exact hread.trans (by rw [hpc]; rfl)
      · exact hread.trans (by simp [hn])
    · push Not at hown
      have hn : readKey e = none := by
        cases e with
        | dispatch d => exact absurd rfl (hown d)
        | _ => rfl
      rcases (dispatch_pc_next env t hine hown).1 with h | h
      · exact (congrArg entriesRead h).trans (by simp [hn])
      · exact (congrArg entriesRead h).trans (by simp [hn, entriesRead_notify])

/-- When the dispatcher comes to the end of its first loop, everything that was in "needs
dispatch" when it began is among the keys it is going to drop, and for each of these the last
patch of the series has a check with the context of the job. -/
theorem dispatch_pass_complete {s₀ : State} {tr₀ : List Event}
    (hx : ((machine env).restrict Answered).Execution s₀ tr₀ s) (h₀ : Initial s₀)
    (hs : s.proc.dispatch = .iterate ⊥ []) (hleaf : s.proc.dispatchLeaf = .start)
    (hy : ((machine env).restrict Answered).Execution s tr t)
    (hin : ∀ e ∈ tr, InDispatchPass e) (hend : Enabled env t (.dispatch .ends)) :
    ∃ cursor drop, t.proc.dispatch = .iterate cursor drop ∧ drop.Pairwise (· < ·) ∧
      (∀ key ∈ s.db.needsDispatch, key ∈ drop) ∧ ∀ key ∈ drop, Present env t.checks key := by
  obtain ⟨cursor, drop, hpc, hend⟩ := hend
  have hpc : t.proc.dispatch = .iterate cursor drop := hpc
  have hread := entriesRead_execution hy.of_restrict hin
  simp only [hpc, hs, entriesRead, List.nil_append] at hread
  have hsweep := dispatch_sweeps env
  have hends : t.proc.dispatchLeaf.Ends t.db.needsDispatch t.proc.dispatch.cursor := by
    rw [hpc]
    exact hend
  refine ⟨cursor, drop, hpc, hread ▸ (hsweep.ascending hy.of_restrict hin).1, ?_, ?_⟩
  · intro key hkey
    have hahead : s.proc.dispatchLeaf.Ahead s.proc.dispatch.cursor key := by
      rw [hs, hleaf]
      exact KvTree.Leaf.ahead_start key
    rcases hsweep.complete hy.of_restrict hin hends hkey hahead with hr | ⟨_, _, hr⟩
    · exact hread ▸ hr
    · exact hr.elim
  · intro key hkey
    refine (execution_answers (hx.append hy) h₀).dropping key ?_
    simpa [RunnerStage.view, hpc, keysToDrop] using hkey

theorem dispatch_pass_complete_sample : ∃ cursor drop,
    ((machine Sample.env).run Sample.final Reporting.sampleSending).proc.dispatch =
      .iterate cursor drop ∧
    ∀ key ∈ Sample.final.db.needsDispatch, key ∈ drop := by
  have htrace : ((machine Sample.env).restrict Answered).Runs Sample.state Sample.trace :=
    Sample.runs.restrict (by simp [Sample.trace, Sample.boot, Sample.discover, Sample.ingest,
      Sample.gitWork, Sample.testing, Answered, Sample.config])
  have hpass := Reporting.sampleSending_runs.restrict (C := Answered)
    (by simp [Reporting.sampleSending, Answered])
  obtain ⟨cursor, drop, hpc, _, hall, _⟩ := dispatch_pass_complete htrace.execution
    Sample.state_initial rfl rfl hpass.execution (by simp [Reporting.sampleSending, InDispatchPass])
    ⟨_, _, rfl, by decide⟩
  exact ⟨cursor, drop, hpc, hall⟩

end Dispatch

end Snowpatch.LivePasses
