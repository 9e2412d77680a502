import Snowpatch.GitStage

/-! The loop of `try_do_work` that waits for "git worker {i}" to become empty. Only the task
on thread `i` writes to that tree, so within one process the tree is empty whenever the thread
is free, unless the process has found an entry in it: then the first task on the thread enters
the loop and nobody is left to let it out. -/
namespace Snowpatch.WorkerLoop

open Pipeline

/-- The database when a process starts or stops; every other event leaves the record alone. -/
def record (s : State) (db : Db) : Event → Db
  | .start _ _ | .stop => s.db
  | _ => db

/-- What the last process has left: the database as the running one has found it. -/
def left (env : Env) (s₀ : State) (tr : List Event) : Db :=
  (tr.foldl (fun p e => (next env p.1 e, record p.1 p.2 e)) (s₀, s₀.db)).2

/-- Whenever a task starts on thread `i`, "git worker {i}" is empty, and no task enters the
loop. -/
structure NeverEntered (env : Env) (s₀ : State) (tr : List Event) : Prop where
  empty : ∀ pre post i id, tr = pre ++ .begin i id :: post →
    KvTree.IsEmpty (((machine env).run s₀ pre).db.series (.gitWorker i))
  idle : ∀ i id, Event.worker i id .busy ∉ tr

/-- The process a task starts in has found the tree of the task's thread empty. -/
def FoundEmpty (env : Env) (s₀ : State) (tr : List Event) : Prop :=
  ∀ pre post i id, tr = pre ++ .begin i id :: post →
    KvTree.IsEmpty ((left env s₀ pre).series (.gitWorker i))

def Outside : Worker.Pc → Prop
  | .checking | .waiting _ => True
  | .movingIn | .moved | .working _ => False

/-- One thread, the tree of it and what the process has found there. -/
structure Slot (found tree : KvTree SeriesId Url) (thread : Option (SeriesId × Worker.Pc)) :
    Prop where
  clean : KvTree.IsEmpty found → ∀ a ∈ tree, ∃ pc, thread = some (a, pc) ∧ pc.MovedIn
  stale : ¬ KvTree.IsEmpty found →
    ¬ KvTree.IsEmpty tree ∧ ∀ a pc, thread = some (a, pc) → Outside pc
  looping : ∀ a w, thread = some (a, .waiting w) → ¬ KvTree.IsEmpty tree

theorem Slot.unused (tree : KvTree SeriesId Url) : Slot tree tree none where
  clean := fun hempty a ha => absurd ha (KvTree.isEmpty_iff.mp hempty a)
  stale := fun hfound => ⟨hfound, by simp⟩
  looping := by simp

section Slots

variable {found tree tree' : KvTree SeriesId Url} {id : SeriesId} {pc pc' : Worker.Pc}

theorem Slot.begun (h : Slot found tree none) : Slot found tree (some (id, .checking)) where
  clean := by
    intro hfound a ha
    obtain ⟨pc, hnone, _⟩ := h.clean hfound a ha
    cases hnone
  stale := by
    intro hfound
    refine ⟨(h.stale hfound).1, ?_⟩
    rintro a pc ⟨⟩
    trivial
  looping := by simp

theorem Slot.outside (h : Slot found tree (some (id, pc))) (hpc : Outside pc) (hpc' : Outside pc')
    (hloop : ∀ w, pc' = .waiting w → ¬ KvTree.IsEmpty tree) :
    Slot found tree (some (id, pc')) where
  clean := by
    intro hfound a ha
    obtain ⟨q, hq, hin⟩ := h.clean hfound a ha
    cases hq
    cases pc with
    | checking | waiting => exact hin.elim
    | movingIn | moved | working => exact hpc.elim
  stale := by
    intro hfound
    refine ⟨(h.stale hfound).1, ?_⟩
    rintro a q ⟨⟩
    exact hpc'
  looping := by
    rintro a w ⟨⟩
    exact hloop w rfl

theorem Slot.free (h : Slot found tree (some (id, pc))) (hempty : KvTree.IsEmpty tree) :
    Slot found tree (some (id, .movingIn)) where
  clean := fun _ a ha => absurd ha (KvTree.isEmpty_iff.mp hempty a)
  stale := fun hfound => absurd hempty (h.stale hfound).1
  looping := by simp

theorem Slot.inside (h : Slot found tree (some (id, pc))) (hpc : ¬ Outside pc)
    (hpc' : pc'.MovedIn) (htree : ∀ a ∈ tree', a = id ∨ a ∈ tree) :
    Slot found tree' (some (id, pc')) where
  clean := by
    intro hfound a ha
    rcases htree a ha with rfl | ha
    · exact ⟨pc', rfl, hpc'⟩
    · obtain ⟨q, hq, _⟩ := h.clean hfound a ha
      cases hq
      exact ⟨pc', rfl, hpc'⟩
  stale := fun hfound => absurd ((h.stale hfound).2 id pc rfl) hpc
  looping := by
    rintro a w ⟨⟩
    exact hpc'.elim

theorem Slot.returned (h : Slot found tree (some (id, pc))) (hpc : ¬ Outside pc)
    (htree : ∀ a ∈ tree', a ≠ id ∧ a ∈ tree) : Slot found tree' none where
  clean := by
    intro hfound a ha
    obtain ⟨hne, ha⟩ := htree a ha
    obtain ⟨q, hq, _⟩ := h.clean hfound a ha
    cases hq
    exact absurd rfl hne
  stale := fun hfound => absurd ((h.stale hfound).2 id pc rfl) hpc
  looping := by simp

end Slots

section Steps

variable {env : Env} {s : State} {e : Event} {i : ℕ}

theorem tree_elsewhere (he : Enabled env s e) (hw : ∀ id we, e ≠ .worker i id we) :
    (next env s e).db.series (.gitWorker i) = s.db.series (.gitWorker i) := by
  cases e using GitStage.event_cases with
  | elsewhere e ho =>
    exact congrFun (congrArg (·.trees) (GitStage.view_elsewhere env s ho)) (.gitWorker i)
  | start | stop | beginScan | begin => rfl
  | scan e => cases e with
    | queue l =>
      have hdb : (next env s (.scan (.queue l))).db =
          s.db.insertSeries .needsTesting l.series.id l.series.mbox := Watchcat.queue_db he
      rw [hdb]
      simp [Db.insertSeries]
    | reject | choose | mark | fail | skip => rfl
  | ingest e => cases e with
    | move id => exact Db.series_moveToNewQueue_of_ne (by simp) (by simp)
    | ready | read | take | ends | spawn | wait => rfl
  | worker j id we =>
    have hij : i ≠ j := by
      rintro rfl
      exact hw id we rfl
    obtain ⟨pc, hj, _⟩ := he
    have hv := congrFun (congrArg (·.trees) (GitStage.view_worker env (e := we) hj)) (.gitWorker i)
    refine hv.trans ?_
    cases we with
    | busy | free | wait | startWork => rfl
    | moveIn | moveToFailures =>
      exact Db.series_moveToNewQueue_of_ne (by simp [hij]) (by simp [hij])
    | remove => simp [Worker.nextDb, Db.removeSeries, hij]
    | work we => simp [Worker.nextDb, DoWork.nextDb_series]

theorem thread_elsewhere (he : Enabled env s e) (hw : ∀ id we, e ≠ .worker i id we)
    (hb : ∀ id, e ≠ .begin i id) (hstart : ∀ config threads, e ≠ .start config threads)
    (hstop : e ≠ .stop) : (next env s e).proc.thread i = s.proc.thread i := by
  cases e using GitStage.event_cases with
  | elsewhere e ho => exact congrFun (congrArg (·.thread) (GitStage.view_elsewhere env s ho)) i
  | start config threads => exact absurd rfl (hstart config threads)
  | stop => exact absurd rfl hstop
  | beginScan | scan | ingest => rfl
  | begin j id =>
    have hij : i ≠ j := by
      rintro rfl
      exact hb id rfl
    simp [next, hij]
  | worker j id we =>
    have hij : i ≠ j := by
      rintro rfl
      exact hw id we rfl
    obtain ⟨pc, hj, _⟩ := he
    have hv := congrFun (congrArg (·.thread) (GitStage.view_worker env (e := we) hj)) i
    exact hv.trans (Function.update_of_ne hij _ _)

theorem slot_worker {found : KvTree SeriesId Url} {id : SeriesId} {we : Worker.Event}
    (h : Slot found (s.db.series (.gitWorker i)) (s.proc.thread i))
    (he : Enabled env s (.worker i id we)) :
    Slot found ((next env s (.worker i id we)).db.series (.gitWorker i))
      ((next env s (.worker i id we)).proc.thread i) := by
  obtain ⟨pc, hi, he⟩ := he
  have hv := GitStage.view_worker env (e := we) hi
  have htree : (next env s (.worker i id we)).db.series (.gitWorker i) =
      (Worker.nextDb i id ⟨s.db, s.git, pc⟩ we).series (.gitWorker i) :=
    congrFun (congrArg (·.trees) hv) (.gitWorker i)
  have hthread : (next env s (.worker i id we)).proc.thread i =
      (Worker.nextPc pc we).map fun pc => (id, pc) :=
    (congrFun (congrArg (·.thread) hv) i).trans (Function.update_self _ _ _)
  rw [htree, hthread]
  rw [hi] at h
  cases we with
  | busy =>
    obtain ⟨rfl, hbusy⟩ := he
    exact h.outside trivial trivial fun _ _ => hbusy
  | free => exact h.free he.2
  | wait e =>
    obtain ⟨w, rfl, _⟩ := he
    have hbusy := h.looping id w rfl
    cases hn : w.next e with
    | none =>
      have hnext : Worker.nextPc (.waiting w) (.wait e) = some .checking := by
        simp [Worker.nextPc, hn]
      rw [hnext]
      exact h.outside trivial trivial fun _ _ => hbusy
    | some w' =>
      have hnext : Worker.nextPc (.waiting w) (.wait e) = some (.waiting w') := by
        simp [Worker.nextPc, hn]
      rw [hnext]
      exact h.outside trivial trivial fun _ _ => hbusy
  | moveIn =>
    obtain ⟨rfl, hmem⟩ := he
    refine h.inside False.elim trivial fun a ha => ?_
    rcases (GitStage.held_moved (by simp) hmem _ a).mp ha with ⟨rfl, _⟩ | ⟨ha, _⟩
    · exact Or.inl rfl
    · exact Or.inr ha
  | startWork =>
    obtain rfl : pc = .moved := he
    exact h.inside False.elim trivial fun a => Or.inr
  | work we =>
    obtain ⟨p, rfl, _⟩ := he
    refine h.inside False.elim trivial fun a ha => ?_
    simp only [Worker.nextDb, DoWork.nextDb_series] at ha
    exact Or.inr ha
  | remove =>
    obtain rfl : pc = .working (.returned true) := he
    refine h.returned False.elim fun a ha => ?_
    obtain ⟨ha, hne⟩ := Db.mem_removeSeries.mp ha
    exact ⟨fun hx => hne ⟨hx, rfl⟩, ha⟩
  | moveToFailures =>
    obtain ⟨rfl, hmem⟩ := he
    refine h.returned False.elim fun a ha => ?_
    rcases (GitStage.held_moved (by simp) hmem _ a).mp ha with ⟨_, ht⟩ | ⟨ha, hne⟩
    · cases ht
    · exact ⟨fun hx => hne ⟨hx, rfl⟩, ha⟩

theorem slot_step {db : Db}
    (h : Slot (db.series (.gitWorker i)) (s.db.series (.gitWorker i)) (s.proc.thread i))
    (he : Enabled env s e) :
    Slot ((record s db e).series (.gitWorker i)) ((next env s e).db.series (.gitWorker i))
      ((next env s e).proc.thread i) := by
  cases e with
  | start | stop => exact .unused _
  | begin j id =>
    by_cases hij : i = j
    · subst hij
      have hfree : s.proc.thread i = none := he.2.1
      rw [hfree] at h
      have hthread : (next env s (.begin i id)).proc.thread i = some (id, .checking) := by
        simp [next]
      rw [hthread]
      exact h.begun
    · have hthread : (next env s (.begin j id)).proc.thread i = s.proc.thread i := by
        simp [next, hij]
      rw [hthread]
      exact h
  | worker j id we =>
    by_cases hij : i = j
    · subst hij
      exact slot_worker h he
    · rw [tree_elsewhere he (by simp [Ne.symm hij]),
        thread_elsewhere he (by simp [Ne.symm hij]) (by simp) (by simp) (by simp)]
      exact h
  | main | scan | ingest | watcher | wait | dispatch | moveMaster | otherCheck =>
    rw [tree_elsewhere he (by simp), thread_elsewhere he (by simp) (by simp) (by simp) (by simp)]
    exact h

end Steps

section Runs

variable {env : Env} {s₀ s : State} {tr : List Event} {e : Event}

theorem left_append (hx : (machine env).Execution s₀ tr s) (e : Event) :
    left env s₀ (tr ++ [e]) = record s (left env s₀ tr) e := by
  have hfst : ∀ (l : List Event) (p : State × Db),
      (l.foldl (fun p e => (next env p.1 e, record p.1 p.2 e)) p).1 = (machine env).run p.1 l := by
    intro l
    induction l with
    | nil => intro p; rfl
    | cons a l ih => intro p; exact ih _
  rw [left, List.foldl_append, List.foldl_cons, List.foldl_nil, hfst, ← hx.eq_run]
  rfl

theorem execution_slot (hx : (machine env).Execution s₀ tr s) (h₀ : s₀.proc = Process.stopped)
    (i : ℕ) : Slot ((left env s₀ tr).series (.gitWorker i)) (s.db.series (.gitWorker i))
      (s.proc.thread i) := by
  refine hx.history (I := fun tr s => Slot ((left env s₀ tr).series (.gitWorker i))
    (s.db.series (.gitWorker i)) (s.proc.thread i)) ?_ fun tr s e hx h he => ?_
  · rw [h₀]
    exact .unused _
  · rw [left_append hx]
    exact slot_step h he

theorem empty_iff_found (hx : (machine env).Execution s₀ tr s) (h₀ : s₀.proc = Process.stopped)
    {i : ℕ} (hfree : s.proc.thread i = none) :
    KvTree.IsEmpty (s.db.series (.gitWorker i)) ↔
      KvTree.IsEmpty ((left env s₀ tr).series (.gitWorker i)) := by
  have hslot := execution_slot hx h₀ i
  constructor
  · intro hempty
    by_contra hfound
    exact (hslot.stale hfound).1 hempty
  · intro hfound
    refine KvTree.isEmpty_iff.mpr fun a ha => ?_
    obtain ⟨pc, hpc, _⟩ := hslot.clean hfound a ha
    cases hfree.symm.trans hpc

theorem FoundEmpty.of_append {tr' : List Event} (h : FoundEmpty env s₀ (tr ++ tr')) :
    FoundEmpty env s₀ tr := by
  rintro pre post i id rfl
  exact h pre (post ++ tr') i id (by simp)

theorem found_of_thread (hx : (machine env).Execution s₀ tr s) (h₀ : s₀.proc = Process.stopped)
    (h : FoundEmpty env s₀ tr) {i : ℕ} {x : SeriesId × Worker.Pc}
    (hi : s.proc.thread i = some x) :
    KvTree.IsEmpty ((left env s₀ tr).series (.gitWorker i)) := by
  revert h x
  refine hx.history (I := fun tr s => FoundEmpty env s₀ tr → ∀ {x}, s.proc.thread i = some x →
    KvTree.IsEmpty ((left env s₀ tr).series (.gitWorker i))) ?_ fun tr s e hx ih he h x hi => ?_
  · intro _ x hi
    rw [h₀] at hi
    cases hi
  · rw [left_append hx]
    have hkept : (next env s e).proc.thread i = s.proc.thread i →
        KvTree.IsEmpty ((left env s₀ tr).series (.gitWorker i)) :=
      fun hthread => ih h.of_append (hthread ▸ hi)
    cases e with
    | start | stop => cases hi
    | begin j id =>
      by_cases hij : i = j
      · subst hij
        exact h tr [] i id rfl
      · refine hkept ?_
        simp [next, hij]
    | worker j id we =>
      by_cases hij : i = j
      · subst hij
        obtain ⟨pc, hthread, _⟩ := he
        exact ih h.of_append hthread
      · exact hkept (thread_elsewhere he (by simp [Ne.symm hij]) (by simp) (by simp) (by simp))
    | main | scan | ingest | watcher | wait | dispatch | moveMaster | otherCheck =>
      exact hkept (thread_elsewhere he (by simp) (by simp) (by simp) (by simp))

/-- Between the start of a task and its test of the loop's condition nobody else fills the
tree. -/
theorem not_busy (hx : (machine env).Execution s₀ tr s) (h₀ : s₀.proc = Process.stopped)
    (h : FoundEmpty env s₀ tr) {i : ℕ} {id : SeriesId} :
    ¬ Enabled env s (.worker i id .busy) := by
  rintro ⟨pc, hi, rfl, hbusy⟩
  have hfound := found_of_thread hx h₀ h hi
  refine hbusy (KvTree.isEmpty_iff.mpr fun a ha => ?_)
  obtain ⟨pc, hpc, hin⟩ := (execution_slot hx h₀ i).clean hfound a ha
  cases hi.symm.trans hpc
  exact hin

theorem never_entered_iff (hx : (machine env).Execution s₀ tr s) (h₀ : s₀.proc = Process.stopped) :
    (NeverEntered env s₀ tr ↔ FoundEmpty env s₀ tr) ∧
      ∀ i id, Event.worker i id (.wait .sleep) ∉ tr := by
  have hbegin : ∀ pre post i id, tr = pre ++ .begin i id :: post →
      (KvTree.IsEmpty (((machine env).run s₀ pre).db.series (.gitWorker i)) ↔
        KvTree.IsEmpty ((left env s₀ pre).series (.gitWorker i))) := by
    rintro pre post i id rfl
    obtain ⟨u, hpre, hrest⟩ := hx.split
    rw [← hpre.eq_run]
    exact empty_iff_found hpre h₀ hrest.uncons.1.2.1
  refine ⟨⟨fun h pre post i id htr => ?_, fun h => ⟨fun pre post i id htr => ?_, ?_⟩⟩, ?_⟩
  · exact (hbegin pre post i id htr).mp (h.empty pre post i id htr)
  · exact (hbegin pre post i id htr).mpr (h pre post i id htr)
  · intro i id hmem
    obtain ⟨pre, post, u, rfl, hpre, he, _⟩ := hx.occurrence hmem
    exact not_busy hpre h₀ h.of_append he
  · intro i id hmem
    obtain ⟨pre, post, u, rfl, hpre, ⟨pc, hi, w, rfl, hempty, _⟩, _⟩ := hx.occurrence hmem
    exact (execution_slot hpre h₀ i).looping id w hi hempty

end Runs

theorem left_start {env : Env} {s : State} {config : Config} {threads : ℕ} {tr : List Event}
    (h : ∀ e ∈ tr, (∀ c n, e ≠ .start c n) ∧ e ≠ .stop) :
    left env s (.start config threads :: tr) = s.db := by
  have hkept : ∀ (l : List Event) (p : State × Db),
      (∀ e ∈ l, (∀ c n, e ≠ .start c n) ∧ e ≠ .stop) →
        (l.foldl (fun p e => (next env p.1 e, record p.1 p.2 e)) p).2 = p.2 := by
    intro l
    induction l with
    | nil => intro p _; rfl
    | cons e l ih =>
      intro p hl
      obtain ⟨hstart, hstop⟩ := hl e List.mem_cons_self
      have hrecord : record p.1 p.2 e = p.2 := by
        cases e with
        | start c n => exact absurd rfl (hstart c n)
        | stop => exact absurd rfl hstop
        | _ => rfl
      exact (ih _ fun a ha => hl a (List.mem_cons_of_mem e ha)).trans hrecord
  exact hkept tr _ h

theorem never_entered_iff_sample : NeverEntered Sample.env Sample.state Sample.trace := by
  refine (never_entered_iff Sample.execution rfl).1.mpr ?_
  intro pre post i id htr
  cases pre with
  | nil => cases htr
  | cons a rest =>
    obtain ⟨rfl, hrest⟩ := List.cons.inj htr
    have htail : ∀ e ∈ Sample.trace.tail, (∀ c n, e ≠ .start c n) ∧ e ≠ .stop := by
      simp [Sample.trace, Sample.boot, Sample.discover, Sample.ingest, Sample.gitWork,
        Sample.testing]
    have hquiet : ∀ e ∈ rest, (∀ c n, e ≠ .start c n) ∧ e ≠ .stop := by
      intro e he
      refine htail e ?_
      rw [htr]
      exact List.mem_append_left _ he
    rw [left_start hquiet]
    exact KvTree.isEmpty_iff.mpr fun a => Finmap.notMem_empty

def secondToTest : KvTree SeriesId Url := Finmap.insert ⟨301⟩ Sample.listed.series.mbox ∅

def secondListed : Listed :=
  { Sample.listed with series := { Sample.listed.series with id := ⟨301⟩ } }

def second : List Event :=
  [.main (.beginScan [secondListed]), .scan (.choose secondListed), .scan (.mark secondListed),
    .scan (.queue secondListed), .ingest .ready, .ingest (.read (.whole secondToTest) true),
    .ingest (.take ⟨301⟩), .ingest (.move ⟨301⟩), .ingest (.spawn ⟨301⟩), .begin 0 ⟨301⟩,
    .worker 0 ⟨301⟩ .busy, .worker 0 ⟨301⟩ (.wait .register), .worker 0 ⟨301⟩ (.wait .found),
    .worker 0 ⟨301⟩ .busy]

/-- The process stops while the first series is in "git worker 0", and another one starts. -/
def leftTrace : List Event :=
  Sample.boot ++ (Sample.discover ++ Sample.ingest ++ Sample.gitWork.take 3 ++ [.stop]) ++
    (Sample.boot ++ second)

theorem leftTrace_runs : (machine Sample.env).Runs Sample.state leftTrace := by
  refine Machine.runs_append.mpr ⟨Machine.runs_append.mpr ⟨Sample.boot_runs rfl, ?_⟩,
    Machine.runs_append.mpr ⟨Sample.boot_runs rfl, ?_⟩⟩
  · refine ⟨⟨rfl, ?_⟩, ⟨List.mem_cons_self, ?_⟩, List.mem_cons_self, ⟨List.mem_cons_self, ?_⟩,
      rfl, ⟨_, rfl, KvTree.Leaf.reads_whole ?_⟩, ⟨_, rfl, ?_⟩, ⟨rfl, ?_⟩, rfl,
      ⟨?_, rfl, List.mem_cons_self⟩, ⟨_, rfl, rfl, ?_⟩, ⟨_, rfl, rfl, ?_⟩, MainPc.noConfusion,
      trivial⟩
    all_goals exact of_decide_eq_true rfl
  · refine ⟨⟨rfl, ?_⟩, ⟨List.mem_cons_self, ?_⟩, List.mem_cons_self, ⟨List.mem_cons_self, ?_⟩,
      rfl, ⟨_, rfl, KvTree.Leaf.reads_whole ?_⟩, ⟨_, rfl, ?_⟩, ⟨rfl, ?_⟩, rfl,
      ⟨?_, rfl, List.mem_cons_self⟩, ⟨_, rfl, rfl, ?_⟩, ⟨_, rfl, _, rfl, rfl⟩,
      ⟨_, rfl, _, rfl, ?_, _, rfl⟩, ⟨_, rfl, rfl, ?_⟩, trivial⟩
    all_goals exact of_decide_eq_true rfl

theorem loop_entered : ∃ tr s, (machine Sample.env).Execution Sample.state tr s ∧
    ¬ NeverEntered Sample.env Sample.state tr := by
  refine ⟨leftTrace, _, leftTrace_runs.execution, ?_⟩
  intro h
  refine h.idle 0 ⟨301⟩ ?_
  simp [leftTrace, second]

end Snowpatch.WorkerLoop
