import Snowpatch.GitStage
import Snowpatch.Library.Refinement

/-! The life of one series in the git stage, apart from how the stage goes about it: it is
seen, queued, handed over, worked on, and then it has failed or left. The program refines
this machine for every series at once, whatever is done to the others and however often the
process stops. -/
namespace Snowpatch.Lifecycle

open Pipeline GitStage

/-- `left` is a series that has been seen and is in no tree: done, or lost before it was queued. -/
inductive Phase where
  | unseen
  | marked
  | queued
  | awaiting
  | working
  | failed
  | left
  deriving DecidableEq, Repr

inductive Move where
  | mark
  | queue
  | lose
  | ingest
  | take
  | fail
  | succeed
  deriving DecidableEq, Repr

def Move.source : Move → Phase
  | .mark => .unseen
  | .queue | .lose => .marked
  | .ingest => .queued
  | .take => .awaiting
  | .fail | .succeed => .working

def Move.target : Move → Phase
  | .mark => .marked
  | .queue => .queued
  | .ingest => .awaiting
  | .take => .working
  | .fail => .failed
  | .lose | .succeed => .left

def machine : Machine Phase Move := ⟨fun p m => p = m.source, fun _ m => m.target⟩

def Phase.rank : Phase → ℕ
  | .unseen => 0
  | .marked => 1
  | .queued => 2
  | .awaiting => 3
  | .working => 4
  | .failed | .left => 5

def Phase.Settled (p : Phase) : Prop := p = .failed ∨ p = .left

theorem rank_le (p : Phase) : p.rank ≤ 5 := by
  cases p <;> decide

theorem rank_of_settled {p : Phase} (h : p.Settled) : p.rank = 5 := by
  rcases h with rfl | rfl <;> rfl

theorem rank_move (m : Move) : m.source.rank < m.target.rank := by
  cases m <;> decide

theorem rank_execution {p q : Phase} {ms : List Move} (h : machine.Execution p ms q) :
    p.rank + ms.length ≤ q.rank := by
  induction h with
  | nil => simp
  | @snoc ms q m _ he ih =>
    have hstep : q.rank < m.target.rank := by
      rw [show q = m.source from he]
      exact rank_move m
    have hnext : machine.next q m = m.target := rfl
    rw [List.length_append, List.length_singleton, hnext]
    omega

def treePhase : SeriesTree → Phase
  | .needsTesting => .queued
  | .awaitingGitWorker => .awaiting
  | .gitWorker _ => .working
  | .gitFailures => .failed

def IsMarked (v : View) (id : SeriesId) : Prop := ∃ l ∈ v.scan.marked, l.series.id = id

instance (v : View) (id : SeriesId) : Decidable (IsMarked v id) :=
  inferInstanceAs (Decidable (∃ l ∈ v.scan.marked, l.series.id = id))

open Classical in
noncomputable def phase (v : View) (id : SeriesId) : Phase :=
  if h : ∃ t, v.held t id then treePhase h.choose
  else if IsMarked v id then .marked
  else if id.toDecimal ∈ v.seen then .left
  else .unseen

section Phases

variable {v v' : View} {id : SeriesId}

theorem phase_of_held (hc : GitCustody v) {t : SeriesTree} (h : v.held t id) :
    phase v id = treePhase t := by
  have hex : ∃ t, v.held t id := ⟨t, h⟩
  rw [phase, dif_pos hex, hc.held_once _ _ id hex.choose_spec h]

theorem phase_of_marked (hfree : ∀ t, ¬ v.held t id) (h : IsMarked v id) :
    phase v id = .marked := by
  rw [phase, dif_neg (fun ⟨t, ht⟩ => hfree t ht), if_pos h]

theorem phase_of_seen (hfree : ∀ t, ¬ v.held t id) (hm : ¬ IsMarked v id)
    (h : id.toDecimal ∈ v.seen) : phase v id = .left := by
  rw [phase, dif_neg (fun ⟨t, ht⟩ => hfree t ht), if_neg hm, if_pos h]

theorem phase_of_unseen (hd : GitDiscovery v) (h : id.toDecimal ∉ v.seen) :
    phase v id = .unseen := by
  have hfree : ¬ ∃ t, v.held t id := fun ⟨t, ht⟩ => h (hd.held_seen t id ht)
  have hm : ¬ IsMarked v id := by
    rintro ⟨l, hl, rfl⟩
    exact h (hd.marked_seen l hl)
  rw [phase, dif_neg hfree, if_neg hm, if_neg h]

theorem phase_congr (id : SeriesId) (hc : GitCustody v) (hc' : GitCustody v')
    (hheld : ∀ t, v'.held t id ↔ v.held t id) (hmarked : IsMarked v' id ↔ IsMarked v id)
    (hseen : id.toDecimal ∈ v'.seen ↔ id.toDecimal ∈ v.seen) : phase v' id = phase v id := by
  by_cases h : ∃ t, v.held t id
  · obtain ⟨t, ht⟩ := h
    rw [phase_of_held hc ht, phase_of_held hc' ((hheld t).mpr ht)]
  · have h' : ¬ ∃ t, v'.held t id := fun ⟨t, ht⟩ => h ⟨t, (hheld t).mp ht⟩
    rw [phase, phase, dif_neg h, dif_neg h']
    exact if_congr hmarked rfl (if_congr hseen rfl rfl)

end Phases

section Steps

variable {env : Env} {s : State} {id : SeriesId}

/-- The move that an event makes with the series. The end of a process, and the next scan,
forget what had been marked. -/
noncomputable def label (id : SeriesId) (s : State) : Event → List Move
  | .scan (.mark l) => if l.series.id = id then [.mark] else []
  | .scan (.queue l) => if l.series.id = id then [.queue] else []
  | .scan (.fail l) => if l.series.id = id then [.lose] else []
  | .start _ _ | .stop | .main (.beginScan _) =>
    if phase (view s) id = .marked then [.lose] else []
  | .ingest (.move a) => if a = id then [.ingest] else []
  | .worker _ a .moveIn => if a = id then [.take] else []
  | .worker _ a .moveToFailures => if a = id then [.fail] else []
  | .worker _ a .remove => if a = id then [.succeed] else []
  | _ => []

theorem isMarked_erase {v v' : View} {l : Listed} (hne : l.series.id ≠ id)
    (h : v'.scan.marked = v.scan.marked.erase l) : IsMarked v' id ↔ IsMarked v id := by
  unfold IsMarked
  rw [h]
  constructor
  · rintro ⟨a, ha, rfl⟩
    exact ⟨a, List.mem_of_mem_erase ha, rfl⟩
  · rintro ⟨a, ha, rfl⟩
    have hal : a ≠ l := by
      rintro rfl
      exact hne rfl
    exact ⟨a, (List.mem_erase_of_ne hal).mpr ha, rfl⟩

theorem forget {v v' : View} (hd : GitDiscovery v) (hc : GitCustody v) (hc' : GitCustody v')
    (htrees : v'.trees = v.trees) (hseen : v'.seen = v.seen) (hmarked : v'.scan.marked = []) :
    machine.Execution (phase v id) (if phase v id = .marked then [.lose] else [])
      (phase v' id) := by
  have hheld : ∀ t, v'.held t id ↔ v.held t id := by
    intro t
    rw [View.held, View.held, htrees]
  have hnone : ¬ IsMarked v' id := by
    rintro ⟨l, hl, _⟩
    rw [hmarked] at hl
    cases hl
  by_cases hm : IsMarked v id
  · have hfree : ∀ t, ¬ v.held t id := by
      obtain ⟨l, hl, rfl⟩ := hm
      exact hd.marked_free l hl
    have hs : id.toDecimal ∈ v'.seen := by
      obtain ⟨l, hl, rfl⟩ := hm
      rw [hseen]
      exact hd.marked_seen l hl
    rw [phase_of_marked hfree hm, if_pos rfl,
      phase_of_seen (fun t ht => hfree t ((hheld t).mp ht)) hnone hs]
    exact Machine.Execution.single (e := Move.lose) rfl
  · have hsame : phase v' id = phase v id :=
      phase_congr id hc hc' hheld (iff_of_false hnone hm) (by rw [hseen])
    have hne : phase v id ≠ .marked := by
      intro hp
      by_cases h : ∃ t, v.held t id
      · obtain ⟨t, ht⟩ := h
        rw [phase_of_held hc ht] at hp
        cases t <;> cases hp
      · rw [phase, dif_neg h, if_neg hm] at hp
        split at hp <;> cases hp
    rw [if_neg hne, hsame]
    exact .nil

theorem step_scan {e : Watchcat.Event} (hd : GitDiscovery (view s)) (hc : GitCustody (view s))
    (he : Enabled env s (.scan e)) :
    machine.Execution (phase (view s) id) (label id s (.scan e))
      (phase (view (next env s (.scan e))) id) := by
  have hc' : GitCustody (view (next env s (.scan e))) := custody_scan hd hc he
  have hd' : GitDiscovery (view (next env s (.scan e))) := discovery_step hd he
  cases e with
  | reject | choose | skip =>
    have hsame := phase_congr id hc hc' (fun _ => Iff.rfl) Iff.rfl Iff.rfl
    rw [hsame]
    exact .nil
  | mark l =>
    by_cases hl : l.series.id = id
    · subst hl
      have hfree : ∀ t, ¬ (view s).held t l.series.id :=
        fun t ht => hd.chosen_unseen l he (hd.held_seen t _ ht)
      have hmarked : IsMarked (view (next env s (.scan (.mark l)))) l.series.id :=
        ⟨l, List.mem_cons_self, rfl⟩
      rw [phase_of_unseen hd (hd.chosen_unseen l he), label, if_pos rfl,
        phase_of_marked (v := view (next env s (.scan (.mark l)))) hfree hmarked]
      exact Machine.Execution.single (e := Move.mark) rfl
    · have hmarked : IsMarked (view (next env s (.scan (.mark l)))) id ↔ IsMarked (view s) id := by
        constructor
        · rintro ⟨a, ha, rfl⟩
          rcases List.mem_cons.mp ha with rfl | ha
          · exact absurd rfl hl
          · exact ⟨a, ha, rfl⟩
        · rintro ⟨a, ha, rfl⟩
          exact ⟨a, List.mem_cons_of_mem l ha, rfl⟩
      have hseen : id.toDecimal ∈ (view (next env s (.scan (.mark l)))).seen ↔
          id.toDecimal ∈ (view s).seen := by
        refine Finmap.mem_insert.trans (or_iff_right ?_)
        exact fun h => hl (toDecimal_inj.mp h).symm
      rw [label, if_neg hl, phase_congr id hc hc' (fun _ => Iff.rfl) hmarked hseen]
      exact .nil
  | queue l =>
    have hdb : (next env s (.scan (.queue l))).db =
        s.db.insertSeries .needsTesting l.series.id l.series.mbox := Watchcat.queue_db he
    have hheld : ∀ t a, (view (next env s (.scan (.queue l)))).held t a ↔
        (a = l.series.id ∧ t = .needsTesting) ∨ (view s).held t a := by
      intro t a
      simp only [View.held, view, hdb]
      exact Db.mem_insertSeries
    by_cases hl : l.series.id = id
    · subst hl
      rw [label, if_pos rfl, phase_of_marked (hd.marked_free l he.1) ⟨l, he.1, rfl⟩,
        phase_of_held hc' ((hheld .needsTesting _).mpr (Or.inl ⟨rfl, rfl⟩))]
      exact Machine.Execution.single (e := Move.queue) rfl
    · have hseen : (view (next env s (.scan (.queue l)))).seen = (view s).seen := by
        simp only [view, hdb]
        rfl
      rw [label, if_neg hl, phase_congr id hc hc' ?_ (isMarked_erase hl rfl) (by rw [hseen])]
      · exact .nil
      · intro t
        refine (hheld t id).trans (or_iff_right ?_)
        exact fun h => hl h.1.symm
  | fail l =>
    by_cases hl : l.series.id = id
    · subst hl
      have hdist : (s.proc.scan.marked.map (·.series.id)).Nodup :=
        hd.distinct.sublist ((List.sublist_append_right _ _).map _)
      have hnone : ¬ IsMarked (view (next env s (.scan (.fail l)))) l.series.id := by
        rintro ⟨a, ha, hal⟩
        exact id_ne_of_mem_erase hdist he.1 ha hal
      rw [label, if_pos rfl, phase_of_marked (hd.marked_free l he.1) ⟨l, he.1, rfl⟩,
        phase_of_seen (v := view (next env s (.scan (.fail l)))) (hd.marked_free l he.1) hnone
          (hd.marked_seen l he.1)]
      exact Machine.Execution.single (e := Move.lose) rfl
    · rw [label, if_neg hl,
        phase_congr id hc hc' (fun _ => Iff.rfl) (isMarked_erase hl rfl) Iff.rfl]
      exact .nil

theorem step_moved {v : View} {old new : SeriesTree} {a : SeriesId} {m : Move} (hne : old ≠ new)
    (hc : GitCustody (view s)) (hc' : GitCustody v) (hheld : (view s).held old a)
    (htrees : v.trees = ((s.db.moveToNewQueue old new a).getD s.db).series)
    (hseen : v.seen = s.db.seenByWatchcat) (hscan : v.scan = s.proc.scan)
    (hsource : treePhase old = m.source) (htarget : treePhase new = m.target) :
    machine.Execution (phase (view s) id) (if a = id then [m] else []) (phase v id) := by
  have hmoved : ∀ t b, v.held t b ↔
      (b = a ∧ t = new) ∨ ((view s).held t b ∧ ¬ (b = a ∧ t = old)) := by
    intro t b
    rw [View.held, htrees]
    exact held_moved hne hheld t b
  by_cases ha : a = id
  · subst ha
    rw [if_pos rfl, phase_of_held hc hheld,
      phase_of_held hc' ((hmoved new a).mpr (Or.inl ⟨rfl, rfl⟩)), htarget]
    exact Machine.Execution.single (e := m) hsource
  · have hsame : ∀ t, v.held t id ↔ (view s).held t id := by
      intro t
      rw [hmoved t id]
      simp [Ne.symm ha]
    rw [if_neg ha, phase_congr id hc hc' hsame]
    · exact .nil
    · unfold IsMarked
      rw [hscan]
      rfl
    · rw [hseen]
      rfl

theorem step_worker {i : ℕ} {a : SeriesId} {e : Worker.Event} (hd : GitDiscovery (view s))
    (hc : GitCustody (view s)) (he : Enabled env s (.worker i a e)) :
    machine.Execution (phase (view s) id) (label id s (.worker i a e))
      (phase (view (next env s (.worker i a e))) id) := by
  have hc' : GitCustody (view (next env s (.worker i a e))) := custody_worker hc he
  obtain ⟨pc, hi, he⟩ := he
  rw [view_worker env hi] at hc' ⊢
  cases e with
  | busy | free | wait | startWork =>
    rw [phase_congr id hc hc' (fun _ => Iff.rfl) Iff.rfl Iff.rfl]
    exact .nil
  | work we =>
    rw [phase_congr id hc hc' ?_ Iff.rfl ?_]
    · exact .nil
    · intro t
      simp [View.held, view, Worker.nextDb, DoWork.nextDb_series]
    · simp [view, Worker.nextDb, DoWork.nextDb_seen]
  | moveIn =>
    exact step_moved (m := .take) (by simp) hc hc' he.2 rfl Db.seen_moveToNewQueue rfl rfl rfl
  | moveToFailures =>
    exact step_moved (m := .fail) (by simp) hc hc' he.2 rfl Db.seen_moveToNewQueue rfl rfl rfl
  | remove =>
    obtain rfl : pc = .working (.returned true) := he
    have hw : (view s).held (.gitWorker i) a := hc.thread_after i a _ hi trivial
    have hheld : ∀ t b, b ∈ (s.db.removeSeries (.gitWorker i) a).series t ↔
        (view s).held t b ∧ ¬ (b = a ∧ t = .gitWorker i) := fun _ _ => Db.mem_removeSeries
    by_cases ha : a = id
    · subst ha
      have hfree : ∀ t, a ∉ (s.db.removeSeries (.gitWorker i) a).series t := by
        intro t ht
        obtain ⟨ht, hne⟩ := (hheld t a).mp ht
        exact hne ⟨rfl, hc.held_once t _ a ht hw⟩
      have hnone : ¬ IsMarked (view s) a := by
        rintro ⟨l, hl, rfl⟩
        exact hd.marked_free l hl _ hw
      have hleft : phase _ a = .left := phase_of_seen (v := View.mk
        (s.db.removeSeries (.gitWorker i) a).series s.db.seenByWatchcat s.proc.scan s.proc.ingest
        s.proc.pool (Function.update s.proc.thread i none) s.proc.ingestLeaf) hfree hnone
        (hd.held_seen _ _ hw)
      rw [label, if_pos rfl, phase_of_held hc hw]
      exact hleft.symm.subst (motive := machine.Execution _ _)
        (Machine.Execution.single (e := Move.succeed) rfl)
    · rw [label, if_neg ha, phase_congr id hc hc' ?_ Iff.rfl Iff.rfl]
      · exact .nil
      · intro t
        refine (hheld t id).trans (and_iff_left ?_)
        exact fun h => ha h.1.symm

theorem step_ingest {e : Ingest.Event} (hc : GitCustody (view s))
    (he : Enabled env s (.ingest e)) :
    machine.Execution (phase (view s) id) (label id s (.ingest e))
      (phase (view (next env s (.ingest e))) id) := by
  have hc' : GitCustody (view (next env s (.ingest e))) := custody_ingest hc he
  cases e with
  | move a =>
    exact step_moved (m := .ingest) (by simp) hc hc' he.2 rfl Db.seen_moveToNewQueue rfl rfl rfl
  | ready | read | take | ends | spawn | wait =>
    have hsame := phase_congr id hc hc' (fun _ => Iff.rfl) Iff.rfl Iff.rfl
    rw [hsame]
    exact .nil

/-- Every step of the program is a move of the series, or nothing that concerns it. -/
theorem refines (env : Env) (id : SeriesId) : (Pipeline.machine env).Refines machine
    (fun s => GitDiscovery (view s) ∧ GitCustody (view s)) (fun s => phase (view s) id)
    (label id) where
  keep := fun s e h he => ⟨discovery_step h.1 he, custody_step h.1 h.2 he⟩
  step := by
    rintro s e ⟨hd, hc⟩ he
    have hc' : GitCustody (view (next env s e)) := custody_step hd hc he
    cases e using event_cases with
    | elsewhere e ho =>
      have hv : view (next env s e) = view s := view_elsewhere env s ho
      have hl : label id s e = [] := by
        cases e with
        | main e => cases e with
          | beginScan => exact ho.elim
          | insertRemote | smokeTest | initDone | spawnWatcher | connect | endScan => rfl
        | watcher | wait | dispatch | moveMaster | otherCheck => rfl
        | start | stop | scan | ingest | begin | worker => exact ho.elim
      change machine.Execution _ _ (phase (view (next env s e)) id)
      rw [hv, hl]
      exact .nil
    | start | stop | beginScan => exact forget hd hc hc' rfl rfl rfl
    | scan e =>
      have he : Enabled env s (.scan e) := he
      exact step_scan hd hc he
    | ingest e =>
      have he : Enabled env s (.ingest e) := he
      exact step_ingest hc he
    | begin i a =>
      have hsame := phase_congr id hc hc' (fun _ => Iff.rfl) Iff.rfl Iff.rfl
      change machine.Execution _ [] (phase (view (next env s (.begin i a))) id)
      rw [hsame]
      exact .nil
    | worker i a e =>
      have he : Enabled env s (.worker i a e) := he
      exact step_worker hd hc he

end Steps

section Runs

variable {env : Env} {s₀ s t : State} {tr tr' : List Event}

/-- Between any two states of a run a series makes moves of its life cycle and no others: each
is a step of the program, there are five at most, and a series that has failed or left stays
where it is, in this process and in every later one. -/
theorem only_forward (hx : (Pipeline.machine env).Execution s₀ tr s) (h₀ : Initial s₀)
    (hy : (Pipeline.machine env).Execution s tr' t) (id : SeriesId) :
    (∃ moves, machine.Execution (phase (view s) id) moves (phase (view t) id) ∧
      moves.length ≤ 5 ∧ ∀ m ∈ moves, ∃ pre e post, tr' = pre ++ e :: post ∧
        m ∈ label id ((Pipeline.machine env).run s pre) e) ∧
    ((phase (view s) id).Settled → phase (view t) id = phase (view s) id) := by
  have hmoves := (refines env id).execution hy (execution_git hx h₀)
  have hrank := rank_execution hmoves
  have hlast := rank_le (phase (view t) id)
  refine ⟨⟨_, hmoves, by omega, fun m => Machine.mem_labels⟩, ?_⟩
  intro hsettled
  have hnone : (Pipeline.machine env).labels (label id) s tr' = [] := by
    refine List.length_eq_zero_iff.mp ?_
    have hsource := rank_of_settled hsettled
    omega
  rw [hnone] at hmoves
  exact hmoves.eq_of_nil

theorem only_forward_sample : ∃ moves,
    machine.Execution (phase (view Sample.state) Sample.id) moves
      (phase (view Sample.final) Sample.id) ∧ moves.length ≤ 5 := by
  obtain ⟨⟨moves, hmoves, hlength, _⟩, _⟩ :=
    only_forward .nil Sample.state_initial Sample.execution Sample.id
  exact ⟨moves, hmoves, hlength⟩

end Runs

end Snowpatch.Lifecycle
