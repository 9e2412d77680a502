import Snowpatch.GitStage

/-! Conservation of the git stage over whole runs of the program: every series the watchcat
queued stays in exactly one tree with its mbox until a successful `do_work` removes it, no
worker holds two, and `do_work` starts at most once for each. -/
namespace Snowpatch.GitStage

open Pipeline

variable {env : Env}

/-- Its `do_work` returned Ok on a worker, and the entry was then removed from there. -/
def RemovedAfterOk (tr : List Event) (id : SeriesId) : Prop :=
  ∃ i, [Event.worker i id (.work .finish), Event.worker i id .remove].Sublist tr

structure Conserved (tr : List Event) (v : View) : Prop where
  queued_seen : ∀ l, Event.scan (.queue l) ∈ tr → l.series.id.toDecimal ∈ v.seen
  queued_once : ∀ l, Event.scan (.queue l) ∈ tr → ∀ m ∈ v.scan.marked,
    m.series.id ≠ l.series.id
  accounted : ∀ l, Event.scan (.queue l) ∈ tr →
    (∃ t, Finmap.lookup l.series.id (v.trees t) = some l.series.mbox) ∨
      (RemovedAfterOk tr l.series.id ∧ ∀ t, ¬ v.held t l.series.id)
  finished : ∀ i id, v.thread i = some (id, .working (.returned true)) →
    Event.worker i id (.work .finish) ∈ tr

/-- What a step of the git stage never does to the trees: lose or change an entry, or bring
one in. Only the watchcat's insert and the removal after an Ok do more. -/
structure Keeps (v v' : View) : Prop where
  stays : ∀ t id mbox, Finmap.lookup id (v.trees t) = some mbox →
    ∃ u, Finmap.lookup id (v'.trees u) = some mbox
  arrives : ∀ t id, v'.held t id → ∃ u, v.held u id

namespace Conserved

variable {tr : List Event} {v v' : View} {e : Event}

theorem mem_of_mem_concat {l : Listed} (hq : ∀ l, e ≠ .scan (.queue l))
    (hl : Event.scan (.queue l) ∈ tr ++ [e]) : Event.scan (.queue l) ∈ tr :=
  (List.mem_append.mp hl).resolve_right fun h => hq l (List.mem_singleton.mp h).symm

theorem kept (h : Conserved tr v) (hk : Keeps v v') (hq : ∀ l, e ≠ .scan (.queue l))
    (hseen : ∀ k ∈ v.seen, k ∈ v'.seen)
    (hmark : ∀ m ∈ v'.scan.marked, m ∈ v.scan.marked ∨ m.series.id.toDecimal ∉ v.seen)
    (hfin : ∀ i id, v'.thread i = some (id, .working (.returned true)) →
      v.thread i = some (id, .working (.returned true)) ∨ e = .worker i id (.work .finish)) :
    Conserved (tr ++ [e]) v' where
  queued_seen := fun l hl => hseen _ (h.queued_seen l (mem_of_mem_concat hq hl))
  queued_once := by
    intro l hl m hm heq
    rcases hmark m hm with hm | hm
    · exact h.queued_once l (mem_of_mem_concat hq hl) m hm heq
    · exact hm (heq ▸ h.queued_seen l (mem_of_mem_concat hq hl))
  accounted := by
    intro l hl
    rcases h.accounted l (mem_of_mem_concat hq hl) with ⟨t, ht⟩ | ⟨⟨i, hi⟩, hno⟩
    · exact Or.inl (hk.stays t _ _ ht)
    · refine Or.inr ⟨⟨i, hi.trans (List.sublist_append_left _ _)⟩, ?_⟩
      intro t ht
      obtain ⟨u, hu⟩ := hk.arrives t _ ht
      exact hno u hu
  finished := by
    intro i id hi
    rcases hfin i id hi with hi | rfl
    · exact List.mem_append_left _ (h.finished i id hi)
    · simp

end Conserved

theorem Keeps.of_trees {v v' : View} (h : v'.trees = v.trees) : Keeps v v' := by
  constructor
  · exact fun t id mbox ht => ⟨t, h ▸ ht⟩
  · intro t id ht
    exact ⟨t, by simpa [View.held, h] using ht⟩

theorem Keeps.of_move {s : State} {v' : View} {old new : SeriesTree} {id : SeriesId}
    (hne : old ≠ new) (hc : GitCustody (view s)) (hid : (view s).held old id)
    (hv : v'.trees = ((s.db.moveToNewQueue old new id).getD s.db).series) :
    Keeps (view s) v' := by
  obtain ⟨mbox, hm⟩ := Finmap.mem_iff.mp hid
  constructor
  · intro t a m ht
    rw [hv, Db.moveToNewQueue_of_lookup hm]
    by_cases ha : a = id
    · subst ha
      obtain rfl := hc.held_once t old a (Finmap.mem_of_lookup_eq_some ht) hid
      refine ⟨new, ?_⟩
      rw [Option.getD_some, KvTree.lookup_moved hne]
      simpa [← hm] using ht
    · refine ⟨t, ?_⟩
      rw [Option.getD_some, KvTree.lookup_moved hne]
      simpa [ha, view] using ht
  · intro t a ht
    exact held_of_moved hne hid t a (by simpa [View.held, hv] using ht)

section Runs

variable {s : State} {tr : List Event}

theorem conserved_scan {e : Watchcat.Event} (hd : GitDiscovery (view s))
    (h : Conserved tr (view s)) (he : Enabled env s (.scan e)) :
    Conserved (tr ++ [.scan e]) (view (next env s (.scan e))) := by
  cases e with
  | reject | choose | skip =>
    exact h.kept (.of_trees rfl) (by simp) (fun k hk => hk) (fun m hm => Or.inl hm)
      fun i id hi => Or.inl hi
  | mark a =>
    refine h.kept (.of_trees rfl) (by simp) (fun k hk => Finmap.mem_insert.mpr (Or.inr hk)) ?_
      fun i id hi => Or.inl hi
    intro m hm
    rcases List.mem_cons.mp hm with rfl | hm
    · exact Or.inr (hd.chosen_unseen _ he)
    · exact Or.inl hm
  | fail a =>
    exact h.kept (.of_trees rfl) (by simp) (fun k hk => hk)
      (fun m hm => Or.inl (List.mem_of_mem_erase hm)) fun i id hi => Or.inl hi
  | queue a =>
    have hdb : (next env s (.scan (.queue a))).db =
        s.db.insertSeries .needsTesting a.series.id a.series.mbox := Watchcat.queue_db he
    have hdist : (s.proc.scan.marked.map (·.series.id)).Nodup :=
      hd.distinct.sublist ((List.sublist_append_right _ _).map _)
    have hcase : ∀ l, Event.scan (.queue l) ∈ tr ++ [.scan (.queue a)] →
        l = a ∨ Event.scan (.queue l) ∈ tr ∧ a.series.id ≠ l.series.id := by
      intro l hl
      rcases List.mem_append.mp hl with hl | hl
      · exact Or.inr ⟨hl, h.queued_once l hl a he.1⟩
      · cases List.mem_singleton.mp hl
        exact Or.inl rfl
    constructor
    · intro l hl
      simp only [view, hdb]
      rcases hcase l hl with rfl | ⟨hl, _⟩
      · exact hd.marked_seen _ he.1
      · exact h.queued_seen l hl
    · intro l hl m hm
      have hm' : m ∈ s.proc.scan.marked := List.mem_of_mem_erase hm
      rcases hcase l hl with rfl | ⟨hl, _⟩
      · exact id_ne_of_mem_erase hdist he.1 hm
      · exact h.queued_once l hl m hm'
    · intro l hl
      simp only [View.held, view, hdb]
      rcases hcase l hl with rfl | ⟨hl, hne⟩
      · exact Or.inl ⟨.needsTesting, by simp [Db.insertSeries]⟩
      · rcases h.accounted l hl with ⟨t, ht⟩ | ⟨⟨i, hi⟩, hno⟩
        · refine Or.inl ⟨t, ?_⟩
          by_cases hn : t = .needsTesting
          · subst hn
            simpa [Db.insertSeries, Finmap.lookup_insert_of_ne _ hne.symm, view] using ht
          · simpa [Db.insertSeries, hn, view] using ht
        · refine Or.inr ⟨⟨i, hi.trans (List.sublist_append_left _ _)⟩, ?_⟩
          intro t ht
          rcases Db.mem_insertSeries.mp ht with ⟨heq, _⟩ | ht
          · exact hne heq.symm
          · exact hno t ht
    · exact fun i id hi => List.mem_append_left _ (h.finished i id hi)

theorem finish_of_returned {e : Event} {i : ℕ} {id : SeriesId} (he : Enabled env s e)
    (hi : (view (next env s e)).thread i = some (id, .working (.returned true))) :
    (view s).thread i = some (id, .working (.returned true)) ∨
      e = .worker i id (.work .finish) := by
  rcases working_cases he hi with ⟨hi, _⟩ | ⟨_, hpc⟩ | ⟨p, we, rfl, _, hen, hpc⟩
  · exact Or.inl hi
  · cases hpc
  · rw [DoWork.eq_finish_of_returned hen hpc.symm]
    exact Or.inr rfl

theorem conserved_remove {i : ℕ} {id : SeriesId} (hc : GitCustody (view s))
    (h : Conserved tr (view s)) (he : Enabled env s (.worker i id .remove)) :
    Conserved (tr ++ [.worker i id .remove]) (view (next env s (.worker i id .remove))) := by
  obtain ⟨pc, hi, rfl⟩ := he
  have hw : (view s).held (.gitWorker i) id := hc.thread_after i id _ hi trivial
  have hfin : Event.worker i id (.work .finish) ∈ tr := h.finished i id hi
  have hold : ∀ l, Event.scan (.queue l) ∈ tr ++ [.worker i id .remove] →
      Event.scan (.queue l) ∈ tr := fun l => Conserved.mem_of_mem_concat (by simp)
  rw [view_worker env hi]
  refine ⟨fun l hl => h.queued_seen l (hold l hl), fun l hl => h.queued_once l (hold l hl),
    ?_, ?_⟩
  · intro l hl
    by_cases heq : l.series.id = id
    · subst heq
      refine Or.inr ⟨⟨i, (List.singleton_sublist.mpr hfin).append (.refl _)⟩, ?_⟩
      intro t ht
      obtain ⟨ht, hn⟩ := Db.mem_removeSeries.mp ht
      exact hn ⟨rfl, hc.held_once t _ _ ht hw⟩
    · rcases h.accounted l (hold l hl) with ⟨t, ht⟩ | ⟨⟨j, hj⟩, hno⟩
      · refine Or.inl ⟨t, ?_⟩
        by_cases hti : t = .gitWorker i
        · subst hti
          simpa [Worker.nextDb, Db.removeSeries, Finmap.lookup_erase_ne heq, view] using ht
        · simpa [Worker.nextDb, Db.removeSeries, hti, view] using ht
      · refine Or.inr ⟨⟨j, hj.trans (List.sublist_append_left _ _)⟩, ?_⟩
        intro t ht
        exact hno t (Db.mem_removeSeries.mp ht).1
  · intro j a hj
    rcases Custody.thread_update hj with ⟨_, hx⟩ | ⟨_, hj⟩
    · cases hx
    · exact List.mem_append_left _ (h.finished j a hj)

theorem conserved_worker {i : ℕ} {id : SeriesId} {e : Worker.Event}
    (hc : GitCustody (view s)) (h : Conserved tr (view s))
    (he : Enabled env s (.worker i id e)) :
    Conserved (tr ++ [.worker i id e]) (view (next env s (.worker i id e))) := by
  have keep : Keeps (view s) (view (next env s (.worker i id e))) →
      (∀ k ∈ (view s).seen, k ∈ (view (next env s (.worker i id e))).seen) →
      Conserved (tr ++ [.worker i id e]) (view (next env s (.worker i id e))) := by
    intro hk hseen
    refine h.kept hk (by simp) hseen (fun m hm => Or.inl ?_) fun j a => finish_of_returned he
    obtain ⟨pc, hi, _⟩ := he
    simpa [view_worker env hi] using hm
  have hen := he
  obtain ⟨pc, hi, hen⟩ := hen
  rw [view_worker env hi] at keep ⊢
  cases e with
  | busy | free | wait | startWork => exact keep (.of_trees rfl) fun k hk => hk
  | work e =>
    refine keep (.of_trees ?_) ?_
    · exact DoWork.nextDb_series id s.db e
    · intro k hk
      exact (DoWork.nextDb_seen id s.db e).symm ▸ hk
  | moveIn =>
    exact keep (.of_move (by simp) hc hen.2 rfl) fun k hk => Db.seen_moveToNewQueue.symm ▸ hk
  | moveToFailures =>
    exact keep (.of_move (by simp) hc hen.2 rfl) fun k hk => Db.seen_moveToNewQueue.symm ▸ hk
  | remove => simpa only [view_worker env hi] using conserved_remove hc h he

theorem conserved_step {e : Event} (hd : GitDiscovery (view s)) (hc : GitCustody (view s))
    (h : Conserved tr (view s)) (he : Enabled env s e) :
    Conserved (tr ++ [e]) (view (next env s e)) := by
  cases e using event_cases with
  | elsewhere e ho =>
    rw [view_elsewhere env s ho]
    refine h.kept (.of_trees rfl) ?_ (fun k hk => hk) (fun m hm => Or.inl hm)
      fun i id hi => Or.inl hi
    rintro l rfl
    exact ho
  | start | stop =>
    exact h.kept (.of_trees rfl) (by simp) (fun k hk => hk) (fun m hm => by cases hm)
      fun i id hi => by cases hi
  | beginScan page =>
    exact h.kept (.of_trees rfl) (by simp) (fun k hk => hk) (fun m hm => by cases hm)
      fun i id hi => Or.inl hi
  | scan e => exact conserved_scan hd h he
  | ingest e => cases e with
    | move id =>
      refine h.kept (.of_move (by simp) hc he.2 rfl) (by simp) ?_ (fun m hm => Or.inl hm)
        fun i id hi => Or.inl hi
      intro k hk
      simpa [view, Pipeline.next, ingestNext, Ingest.next, Db.seen_moveToNewQueue] using hk
    | ready | read | take | ends | spawn | wait =>
      exact h.kept (.of_trees rfl) (by simp) (fun k hk => hk) (fun m hm => Or.inl hm)
        fun i id hi => Or.inl hi
  | begin i id =>
    refine h.kept (.of_trees rfl) (by simp) (fun k hk => hk) (fun m hm => Or.inl hm) ?_
    intro j a hj
    rcases Custody.thread_update hj with ⟨_, hx⟩ | ⟨_, hj⟩
    · cases hx
    · exact Or.inl hj
  | worker i id e => exact conserved_worker hc h he

end Runs

/-- The moves of ingest and `try_do_work` that are due find their keys. -/
structure MovesFindKeys (s : State) : Prop where
  ingest : ∀ id, s.proc.ingest = .moving id → id ∈ s.db.series .needsTesting
  to_worker : ∀ i id, s.proc.thread i = some (id, .movingIn) →
    id ∈ s.db.series .awaitingGitWorker
  to_failures : ∀ i id, s.proc.thread i = some (id, .working (.returned false)) →
    id ∈ s.db.series (.gitWorker i)

section Results

variable {s₀ s : State} {tr : List Event}

theorem execution_conserved (hx : (machine env).Execution s₀ tr s) (h₀ : Initial s₀) :
    Conserved tr (view s) := by
  refine hx.history (I := fun tr s => Conserved tr (view s)) ?_ fun tr s e hx h he =>
    conserved_step (execution_git hx h₀).1 (execution_git hx h₀).2 h he
  rw [view_initial h₀]
  constructor <;> simp

theorem git_stage_conserves (hx : (machine env).Execution s₀ tr s) (h₀ : Initial s₀) :
    (∀ l, Event.scan (.queue l) ∈ tr →
      (∃! t, l.series.id ∈ s.db.series t) ∧
          (∃ t, Finmap.lookup l.series.id (s.db.series t) = some l.series.mbox) ∨
        RemovedAfterOk tr l.series.id ∧ ∀ t, l.series.id ∉ s.db.series t) ∧
    (∀ i, (s.db.series (.gitWorker i)).keys.card ≤ 1) ∧
    (∀ id, tr.countP (startsWork id) ≤ 1) ∧ MovesFindKeys s := by
  obtain ⟨_, hc⟩ := execution_git hx h₀
  refine ⟨?_, ?_, startsWork_once hx h₀, ?_⟩
  · intro l hl
    refine ((execution_conserved hx h₀).accounted l hl).imp_left fun ⟨t, ht⟩ => ?_
    have hmem : l.series.id ∈ s.db.series t := Finmap.mem_of_lookup_eq_some ht
    exact ⟨⟨t, hmem, fun u hu => hc.held_once u t _ hu hmem⟩, t, ht⟩
  · intro i
    refine Finset.card_le_one.mpr ?_
    intro a ha b hb
    exact hc.worker_single i a b (Finmap.mem_keys.mp ha) (Finmap.mem_keys.mp hb)
  · exact ⟨hc.moving, fun i id hi => hc.thread_before i id _ hi fun hm => hm,
      fun i id hi => hc.thread_after i id _ hi trivial⟩

theorem git_stage_conserves_sample :
    ((∃ t, Finmap.lookup Sample.id (Sample.final.db.series t) = some Sample.listed.series.mbox) ∨
      RemovedAfterOk Sample.trace Sample.id) ∧
    Sample.trace.countP (startsWork Sample.id) ≤ 1 ∧ MovesFindKeys Sample.final := by
  obtain ⟨hheld, _, honce, hmoves⟩ := git_stage_conserves Sample.execution Sample.state_initial
  have hq : Event.scan (.queue Sample.listed) ∈ Sample.trace := by
    simp [Sample.trace, Sample.discover]
  exact ⟨(hheld Sample.listed hq).imp And.right And.left, honce Sample.id, hmoves⟩

end Results

end Snowpatch.GitStage
