import Snowpatch.Watchcat
import Snowpatch.Git

/-! Who holds a series in the git stage. `Discovery` ties the watchcat's marks to the trees
and `Custody` ties the trees to the tasks: the entry of a series and the task that may move
it are always found together. One lemma for each way the stage can change. -/
namespace Snowpatch.GitStage

/-- Which series each tree holds. -/
abbrev Held := SeriesTree → SeriesId → Prop

def held (db : Db) : Held := fun t id => id ∈ db.series t

structure Discovery (held : Held) (seen : KvTree String String) (scan : Scan) : Prop where
  held_seen : ∀ t id, held t id → id.toDecimal ∈ seen
  chosen_unseen : ∀ l ∈ scan.chosen, l.series.id.toDecimal ∉ seen
  marked_seen : ∀ l ∈ scan.marked, l.series.id.toDecimal ∈ seen
  marked_free : ∀ l ∈ scan.marked, ∀ t, ¬ held t l.series.id
  distinct : ((scan.todo ++ scan.chosen ++ scan.marked).map (·.series.id)).Nodup

structure Custody (held : Held) (ingest : Ingest.Pc) (pool : List SeriesId)
    (thread : ℕ → Option (SeriesId × Worker.Pc)) : Prop where
  held_once : ∀ t u id, held t id → held u id → t = u
  moving : ∀ id, ingest = .moving id → held .needsTesting id
  spawning : ∀ id, ingest = .spawning id → held .awaitingGitWorker id ∧ id ∉ pool ∧
    ∀ i pc, thread i ≠ some (id, pc)
  pool_awaiting : ∀ id ∈ pool, held .awaitingGitWorker id ∧ ∀ i pc, thread i ≠ some (id, pc)
  pool_nodup : pool.Nodup
  thread_once : ∀ i j id pc pc', thread i = some (id, pc) → thread j = some (id, pc') → i = j
  thread_before : ∀ i id pc, thread i = some (id, pc) → ¬ pc.MovedIn →
    held .awaitingGitWorker id
  thread_after : ∀ i id pc, thread i = some (id, pc) → pc.MovedIn → held (.gitWorker i) id
  worker_single : ∀ i a b, held (.gitWorker i) a → held (.gitWorker i) b → a = b
  worker_free : ∀ i id, thread i = some (id, .movingIn) → ∀ a, ¬ held (.gitWorker i) a

theorem ingest_notify_eq_moving {pc : Ingest.Pc} {id : SeriesId} :
    pc.notify = .moving id ↔ pc = .moving id := by
  cases pc <;> simp [Ingest.Pc.notify]

theorem ingest_notify_eq_spawning {pc : Ingest.Pc} {id : SeriesId} :
    pc.notify = .spawning id ↔ pc = .spawning id := by
  cases pc <;> simp [Ingest.Pc.notify]

section Moves

variable {db : Db} {old new : SeriesTree} {id : SeriesId}

theorem held_moveToNewQueue (hne : old ≠ new) (hid : id ∈ db.series old) (t : SeriesTree)
    (a : SeriesId) : held ((db.moveToNewQueue old new id).getD db) t a ↔
      (a = id ∧ t = new) ∨ (held db t a ∧ ¬ (a = id ∧ t = old)) := by
  obtain ⟨mbox, hm⟩ := Finmap.mem_iff.mp hid
  rw [Db.moveToNewQueue_of_lookup hm]
  exact KvTree.mem_moved hne

end Moves

theorem id_ne_of_mem_erase {ls : List Listed} {a l : Listed}
    (hd : (ls.map (·.series.id)).Nodup) (ha : a ∈ ls) (hl : l ∈ ls.erase a) :
    l.series.id ≠ a.series.id := by
  have hp : (a :: ls.erase a).Perm ls := (List.perm_cons_erase ha).symm
  have hn := (hp.map (·.series.id)).nodup_iff.mpr hd
  rw [List.map_cons, List.nodup_cons] at hn
  intro heq
  exact hn.1 (heq ▸ List.mem_map_of_mem hl)

namespace Discovery

variable {h h' : Held} {seen : KvTree String String} {scan : Scan}

/-- Moves inside the git stage show the watchcat nothing new. -/
theorem of_held (hd : Discovery h seen scan) (hh : ∀ t a, h' t a → ∃ u, h u a) :
    Discovery h' seen scan where
  held_seen := by
    intro t a ha
    obtain ⟨u, hu⟩ := hh t a ha
    exact hd.held_seen u a hu
  chosen_unseen := hd.chosen_unseen
  marked_seen := hd.marked_seen
  marked_free := by
    intro l hl t ha
    obtain ⟨u, hu⟩ := hh t _ ha
    exact hd.marked_free l hl u hu
  distinct := hd.distinct

theorem start (hd : ∀ t id, h t id → id.toDecimal ∈ seen) {page : List Listed}
    (hp : (page.map (·.series.id)).Nodup) : Discovery h seen (Scan.start page) where
  held_seen := hd
  chosen_unseen := by simp [Scan.start]
  marked_seen := by simp [Scan.start]
  marked_free := by simp [Scan.start]
  distinct := by simpa [Scan.start] using hp

end Discovery

theorem discovery_scan {db : Db} {scan : Scan} {e : Watchcat.Event}
    (hd : Discovery (held db) db.seenByWatchcat scan) (he : Watchcat.Enabled ⟨db, scan⟩ e) :
    Discovery (held (Watchcat.next ⟨db, scan⟩ e).db)
      (Watchcat.next ⟨db, scan⟩ e).db.seenByWatchcat (Watchcat.next ⟨db, scan⟩ e).scan := by
  have hsub : ∀ l, ((scan.todo.erase l ++ scan.chosen ++ scan.marked).map
      (·.series.id)).Sublist ((scan.todo ++ scan.chosen ++ scan.marked).map (·.series.id)) :=
    fun l => ((List.erase_sublist.append_right _).append_right _).map _
  cases e with
  | reject a | skip a =>
    exact ⟨hd.held_seen, hd.chosen_unseen, hd.marked_seen, hd.marked_free,
      hd.distinct.sublist (hsub a)⟩
  | choose a =>
    have hunseen : a.series.id.toDecimal ∉ db.seenByWatchcat := by
      have hw := he.2
      simp only [Watchcat.wanted, Bool.and_eq_true, Bool.not_eq_true',
        decide_eq_false_iff_not] at hw
      exact hw.1.2
    refine ⟨hd.held_seen, ?_, hd.marked_seen, hd.marked_free, ?_⟩
    · intro l hl
      rcases List.mem_cons.mp hl with rfl | hl
      · exact hunseen
      · exact hd.chosen_unseen l hl
    · refine (List.Perm.nodup_iff (List.Perm.map _ ?_)).mpr hd.distinct
      have hp : (scan.todo.erase a ++ a :: scan.chosen).Perm (scan.todo ++ scan.chosen) :=
        List.perm_middle.trans ((List.perm_cons_erase he.1).symm.append_right scan.chosen)
      exact hp.append_right _
  | mark a =>
    have hdist : (scan.chosen.map (·.series.id)).Nodup :=
      hd.distinct.sublist (((List.sublist_append_right _ _).trans
        (List.sublist_append_left _ _)).map _)
    refine ⟨fun t id ht => Finmap.mem_insert.mpr (Or.inr (hd.held_seen t id ht)), ?_, ?_, ?_, ?_⟩
    · intro l hl hm
      rcases Finmap.mem_insert.mp hm with heq | hm
      · exact id_ne_of_mem_erase hdist he hl (toDecimal_inj.mp heq)
      · exact hd.chosen_unseen l (List.mem_of_mem_erase hl) hm
    · intro l hl
      rcases List.mem_cons.mp hl with rfl | hl
      · exact Finmap.mem_insert.mpr (Or.inl rfl)
      · exact Finmap.mem_insert.mpr (Or.inr (hd.marked_seen l hl))
    · intro l hl t ht
      rcases List.mem_cons.mp hl with rfl | hl
      · exact hd.chosen_unseen _ he (hd.held_seen t _ ht)
      · exact hd.marked_free l hl t ht
    · refine (List.Perm.nodup_iff (List.Perm.map _ ?_)).mpr hd.distinct
      have hp : (scan.chosen.erase a ++ a :: scan.marked).Perm (scan.chosen ++ scan.marked) :=
        List.perm_middle.trans ((List.perm_cons_erase he).symm.append_right scan.marked)
      simpa [Watchcat.next, List.append_assoc] using hp.append_left scan.todo
  | queue a =>
    have hdist : (scan.marked.map (·.series.id)).Nodup :=
      hd.distinct.sublist ((List.sublist_append_right _ _).map _)
    have hdb := Watchcat.queue_db he
    have hseen : (Watchcat.next ⟨db, scan⟩ (.queue a)).db.seenByWatchcat =
        db.seenByWatchcat := by rw [hdb]; rfl
    rw [hseen]
    have hheld : ∀ t id, held (Watchcat.next ⟨db, scan⟩ (.queue a)).db t id →
        (id = a.series.id ∧ t = .needsTesting) ∨ held db t id := by
      intro t id ht
      rw [held, hdb] at ht
      exact Db.mem_insertSeries.mp ht
    refine ⟨?_, hd.chosen_unseen, fun l hl => hd.marked_seen l (List.mem_of_mem_erase hl),
      ?_, ?_⟩
    · intro t id ht
      rcases hheld t id ht with ⟨rfl, _⟩ | ht
      · exact hd.marked_seen a he.1
      · exact hd.held_seen t id ht
    · intro l hl t ht
      rcases hheld t _ ht with ⟨heq, _⟩ | ht
      · exact id_ne_of_mem_erase hdist he.1 hl heq
      · exact hd.marked_free l (List.mem_of_mem_erase hl) t ht
    · exact hd.distinct.sublist ((List.erase_sublist.append_left _).map _)
  | fail a =>
    exact ⟨hd.held_seen, hd.chosen_unseen,
      fun l hl => hd.marked_seen l (List.mem_of_mem_erase hl),
      fun l hl => hd.marked_free l (List.mem_of_mem_erase hl),
      hd.distinct.sublist ((List.erase_sublist.append_left _).map _)⟩

namespace Custody

variable {h h' : Held} {ingest : Ingest.Pc} {pool : List SeriesId}
  {thread : ℕ → Option (SeriesId × Worker.Pc)}

theorem stopped (hc : ∀ t u id, h t id → h u id → t = u)
    (hw : ∀ i a b, h (.gitWorker i) a → h (.gitWorker i) b → a = b) {pc : Ingest.Pc}
    (hpc : pc = .off ∨ pc = .initWorktrees) : Custody h pc [] fun _ => none where
  held_once := hc
  moving := by rcases hpc with rfl | rfl <;> simp
  spawning := by rcases hpc with rfl | rfl <;> simp
  pool_awaiting := by simp
  pool_nodup := List.nodup_nil
  thread_once := by simp
  thread_before := by simp
  thread_after := by simp
  worker_single := hw
  worker_free := by simp

theorem with_ingest (hc : Custody h ingest pool thread) {pc : Ingest.Pc}
    (hm : ∀ id, pc = .moving id → h .needsTesting id) (hs : ∀ id, pc ≠ .spawning id) :
    Custody h pc pool thread :=
  { hc with
    moving := hm
    spawning := fun id hid => absurd hid (hs id) }

theorem notify (hc : Custody h ingest pool thread) : Custody h ingest.notify pool thread :=
  { hc with
    moving := fun id hid => hc.moving id (ingest_notify_eq_moving.mp hid)
    spawning := fun id hid => hc.spawning id (ingest_notify_eq_spawning.mp hid) }

theorem discovered (hc : Custody h ingest pool thread) {id : SeriesId}
    (hfree : ∀ t, ¬ h t id)
    (hh : ∀ t a, h' t a ↔ (a = id ∧ t = .needsTesting) ∨ h t a) :
    Custody h' ingest pool thread where
  held_once := by
    intro t u a ht hu
    rcases (hh t a).mp ht with ⟨rfl, rfl⟩ | ht
    · rcases (hh u a).mp hu with ⟨_, rfl⟩ | hu
      · rfl
      · exact absurd hu (hfree u)
    · rcases (hh u a).mp hu with ⟨rfl, _⟩ | hu
      · exact absurd ht (hfree t)
      · exact hc.held_once t u a ht hu
  moving := fun a ha => (hh _ a).mpr (Or.inr (hc.moving a ha))
  spawning := fun a ha => ⟨(hh _ a).mpr (Or.inr (hc.spawning a ha).1), (hc.spawning a ha).2⟩
  pool_awaiting := fun a ha =>
    ⟨(hh _ a).mpr (Or.inr (hc.pool_awaiting a ha).1), (hc.pool_awaiting a ha).2⟩
  pool_nodup := hc.pool_nodup
  thread_once := hc.thread_once
  thread_before := fun i a pc ht hp => (hh _ a).mpr (Or.inr (hc.thread_before i a pc ht hp))
  thread_after := fun i a pc ht hp => (hh _ a).mpr (Or.inr (hc.thread_after i a pc ht hp))
  worker_single := fun i a b ha hb =>
    hc.worker_single i a b (((hh _ a).mp ha).resolve_left (by simp))
      (((hh _ b).mp hb).resolve_left (by simp))
  worker_free := fun i a ht b hb =>
    hc.worker_free i a ht b (((hh _ b).mp hb).resolve_left (by simp))

theorem held_once_moved (hc : ∀ t u id, h t id → h u id → t = u) {old new : SeriesTree}
    {id : SeriesId} (hid : h old id)
    (hh : ∀ t a, h' t a ↔ (a = id ∧ t = new) ∨ (h t a ∧ ¬ (a = id ∧ t = old))) :
    ∀ t u a, h' t a → h' u a → t = u := by
  have key : ∀ t a, h' t a → a = id → t = new := by
    intro t a ht ha
    rcases (hh t a).mp ht with ⟨_, rfl⟩ | ⟨ht, hn⟩
    · rfl
    · exact absurd ⟨ha, hc t old a ht (ha ▸ hid)⟩ hn
  intro t u a ht hu
  by_cases ha : a = id
  · rw [key t a ht ha, key u a hu ha]
  · have drop : ∀ t, h' t a → h t a := fun t ht =>
      ((hh t a).mp ht).elim (fun hx => absurd hx.1 ha) And.left
    exact hc t u a (drop t ht) (drop u hu)

theorem ingested {id : SeriesId} (hc : Custody h (.moving id) pool thread)
    (hh : ∀ t a, h' t a ↔ (a = id ∧ t = .awaitingGitWorker) ∨
      (h t a ∧ ¬ (a = id ∧ t = .needsTesting))) :
    Custody h' (.spawning id) pool thread where
  held_once := held_once_moved hc.held_once (hc.moving id rfl) hh
  moving := by simp
  spawning := by
    intro a ha
    obtain rfl := Ingest.Pc.spawning.inj ha
    have hnt := hc.moving id rfl
    refine ⟨(hh _ _).mpr (Or.inl ⟨rfl, rfl⟩), ?_, ?_⟩
    · intro hp
      have := hc.held_once _ _ _ hnt (hc.pool_awaiting id hp).1
      cases this
    · intro i pc ht
      by_cases hp : pc.MovedIn
      · have := hc.held_once _ _ _ hnt (hc.thread_after i id pc ht hp)
        cases this
      · have := hc.held_once _ _ _ hnt (hc.thread_before i id pc ht hp)
        cases this
  pool_awaiting := fun a ha =>
    ⟨(hh _ a).mpr (Or.inr ⟨(hc.pool_awaiting a ha).1, by simp⟩), (hc.pool_awaiting a ha).2⟩
  pool_nodup := hc.pool_nodup
  thread_once := hc.thread_once
  thread_before := fun i a pc ht hp =>
    (hh _ a).mpr (Or.inr ⟨hc.thread_before i a pc ht hp, by simp⟩)
  thread_after := fun i a pc ht hp =>
    (hh _ a).mpr (Or.inr ⟨hc.thread_after i a pc ht hp, by simp⟩)
  worker_single := fun i a b ha hb =>
    hc.worker_single i a b (((hh _ a).mp ha).resolve_left (by simp)).1
      (((hh _ b).mp hb).resolve_left (by simp)).1
  worker_free := fun i a ht b hb =>
    hc.worker_free i a ht b (((hh _ b).mp hb).resolve_left (by simp)).1

theorem spawned {id : SeriesId} (hc : Custody h (.spawning id) pool thread)
    (cursor : WithBot SeriesId) : Custody h (.iterate cursor) (id :: pool) thread :=
  { hc with
    moving := by simp
    spawning := by simp
    pool_awaiting := by
      intro a ha
      rcases List.mem_cons.mp ha with rfl | ha
      · exact ⟨(hc.spawning _ rfl).1, (hc.spawning _ rfl).2.2⟩
      · exact hc.pool_awaiting a ha
    pool_nodup := List.nodup_cons.mpr ⟨(hc.spawning id rfl).2.1, hc.pool_nodup⟩ }

theorem thread_update {i j : ℕ} {x : Option (SeriesId × Worker.Pc)} {a : SeriesId}
    {pc : Worker.Pc} (hj : Function.update thread i x j = some (a, pc)) :
    (j = i ∧ x = some (a, pc)) ∨ (j ≠ i ∧ thread j = some (a, pc)) := by
  by_cases hji : j = i
  · subst hji
    exact Or.inl ⟨rfl, by simpa using hj⟩
  · exact Or.inr ⟨hji, by simpa [hji] using hj⟩

theorem unheld_update {i : ℕ} {id a : SeriesId} {pc : Worker.Pc} (hne : a ≠ id)
    (ha : ∀ j p, thread j ≠ some (a, p)) :
    ∀ j p, Function.update thread i (some (id, pc)) j ≠ some (a, p) := by
  intro j p hj
  rcases thread_update hj with ⟨_, hx⟩ | ⟨_, hj⟩
  · cases hx
    exact hne rfl
  · exact ha j p hj

/-- A closure leaves the pool for an idle thread. -/
theorem begun (hc : Custody h ingest pool thread) {i : ℕ} {id : SeriesId} (hid : id ∈ pool) :
    Custody h ingest (pool.erase id)
      (Function.update thread i (some (id, .checking))) := by
  obtain ⟨haw, hno⟩ := hc.pool_awaiting id hid
  refine { hc with
    spawning := ?_, pool_awaiting := ?_, pool_nodup := hc.pool_nodup.erase id
    thread_once := ?_, thread_before := ?_, thread_after := ?_, worker_free := ?_ }
  · intro a ha
    obtain ⟨h1, h2, h3⟩ := hc.spawning a ha
    have hne : a ≠ id := by
      rintro rfl
      exact h2 hid
    exact ⟨h1, fun hm => h2 (List.mem_of_mem_erase hm), unheld_update hne h3⟩
  · intro a ha
    have hne := (hc.pool_nodup.mem_erase_iff.mp ha).1
    obtain ⟨h1, h2⟩ := hc.pool_awaiting a (List.mem_of_mem_erase ha)
    exact ⟨h1, unheld_update hne h2⟩
  · intro j k a pc pc' hj hk
    rcases thread_update hj with ⟨rfl, hx⟩ | ⟨_, hj'⟩
    · cases hx
      rcases thread_update hk with ⟨rfl, _⟩ | ⟨_, hk'⟩
      · rfl
      · exact absurd hk' (hno k pc')
    · rcases thread_update hk with ⟨rfl, hy⟩ | ⟨_, hk'⟩
      · cases hy
        exact absurd hj' (hno j pc)
      · exact hc.thread_once j k a pc pc' hj' hk'
  · intro j a pc hj hp
    rcases thread_update hj with ⟨_, hx⟩ | ⟨_, hj⟩
    · cases hx
      exact haw
    · exact hc.thread_before j a pc hj hp
  · intro j a pc hj hp
    rcases thread_update hj with ⟨_, hx⟩ | ⟨_, hj⟩
    · cases hx
      exact hp.elim
    · exact hc.thread_after j a pc hj hp
  · intro j a hj
    rcases thread_update hj with ⟨_, hx⟩ | ⟨_, hj⟩
    · cases hx
    · exact hc.worker_free j a hj

theorem advanced (hc : Custody h ingest pool thread) {i : ℕ} {id : SeriesId}
    {pc pc' : Worker.Pc} (hi : thread i = some (id, pc)) (hm : pc'.MovedIn ↔ pc.MovedIn)
    (hf : pc' = .movingIn → ∀ a, ¬ h (.gitWorker i) a) :
    Custody h ingest pool (Function.update thread i (some (id, pc'))) := by
  have back : ∀ {j a p}, Function.update thread i (some (id, pc')) j = some (a, p) →
      ∃ q, thread j = some (a, q) ∧ (p.MovedIn ↔ q.MovedIn) := by
    intro j a p hj
    rcases thread_update hj with ⟨rfl, hx⟩ | ⟨_, hj⟩
    · cases hx
      exact ⟨pc, hi, hm⟩
    · exact ⟨p, hj, Iff.rfl⟩
  refine { hc with
    spawning := fun a ha => ?_, pool_awaiting := fun a ha => ?_
    thread_once := fun j k a p q hj hk => ?_, thread_before := fun j a p hj hp => ?_
    thread_after := fun j a p hj hp => ?_, worker_free := fun j a hj => ?_ }
  · obtain ⟨h1, h2, h3⟩ := hc.spawning a ha
    refine ⟨h1, h2, ?_⟩
    intro j p hj
    obtain ⟨q, hq, _⟩ := back hj
    exact h3 j q hq
  · obtain ⟨h1, h2⟩ := hc.pool_awaiting a ha
    refine ⟨h1, ?_⟩
    intro j p hj
    obtain ⟨q, hq, _⟩ := back hj
    exact h2 j q hq
  · obtain ⟨p', hp', _⟩ := back hj
    obtain ⟨q', hq', _⟩ := back hk
    exact hc.thread_once j k a p' q' hp' hq'
  · obtain ⟨q, hq, hpq⟩ := back hj
    exact hc.thread_before j a q hq fun hm => hp (hpq.mpr hm)
  · obtain ⟨q, hq, hpq⟩ := back hj
    exact hc.thread_after j a q hq (hpq.mp hp)
  · rcases thread_update hj with ⟨rfl, hx⟩ | ⟨_, hj⟩
    · cases hx
      exact hf rfl
    · exact hc.worker_free j a hj

theorem ne_of_held (hc : Custody h ingest pool thread) {t u : SeriesTree} {a b : SeriesId}
    (ha : h t a) (hb : h u b) (htu : t ≠ u) : a ≠ b :=
  fun hab => htu (hc.held_once t u a ha (hab ▸ hb))

/-- The closure on an idle worker takes its entry over. -/
theorem taken (hc : Custody h ingest pool thread) {i : ℕ} {id : SeriesId}
    (hi : thread i = some (id, .movingIn))
    (hh : ∀ t a, h' t a ↔ (a = id ∧ t = .gitWorker i) ∨
      (h t a ∧ ¬ (a = id ∧ t = .awaitingGitWorker))) :
    Custody h' ingest pool (Function.update thread i (some (id, .moved))) := by
  have haw : h .awaitingGitWorker id := hc.thread_before i id _ hi fun hm => hm
  have keep : ∀ {t a}, h t a → a ≠ id → h' t a := fun ht ha =>
    (hh _ _).mpr (Or.inr ⟨ht, fun hx => ha hx.1⟩)
  have only : ∀ {j a}, h' (.gitWorker j) a → (a = id ∧ j = i) ∨ h (.gitWorker j) a := by
    intro j a ha
    rcases (hh _ a).mp ha with ⟨ha, hj⟩ | ⟨ha, _⟩
    · exact Or.inl ⟨ha, SeriesTree.gitWorker.inj hj⟩
    · exact Or.inr ha
  have other : ∀ {j a p}, j ≠ i → thread j = some (a, p) → a ≠ id := by
    rintro j a p hji hj rfl
    exact hji (hc.thread_once j i a p _ hj hi)
  refine ⟨held_once_moved hc.held_once haw hh, ?_, ?_, ?_, hc.pool_nodup, ?_, ?_, ?_, ?_, ?_⟩
  · intro a ha
    exact keep (hc.moving a ha) (hc.ne_of_held (hc.moving a ha) haw (by simp))
  · intro a ha
    obtain ⟨h1, h2, h3⟩ := hc.spawning a ha
    have hne : a ≠ id := by
      rintro rfl
      exact h3 i _ hi
    exact ⟨keep h1 hne, h2, unheld_update hne h3⟩
  · intro a ha
    obtain ⟨h1, h2⟩ := hc.pool_awaiting a ha
    have hne : a ≠ id := by
      rintro rfl
      exact h2 i _ hi
    exact ⟨keep h1 hne, unheld_update hne h2⟩
  · intro j k a p q hj hk
    rcases thread_update hj with ⟨rfl, hx⟩ | ⟨hji, hj'⟩
    · cases hx
      rcases thread_update hk with ⟨rfl, _⟩ | ⟨hki, hk'⟩
      · rfl
      · exact absurd rfl (other hki hk')
    · rcases thread_update hk with ⟨rfl, hy⟩ | ⟨_, hk'⟩
      · cases hy
        exact absurd rfl (other hji hj')
      · exact hc.thread_once j k a p q hj' hk'
  · intro j a p hj hp
    rcases thread_update hj with ⟨_, hx⟩ | ⟨hji, hj⟩
    · cases hx
      exact absurd trivial hp
    · exact keep (hc.thread_before j a p hj hp) (other hji hj)
  · intro j a p hj hp
    rcases thread_update hj with ⟨rfl, hx⟩ | ⟨hji, hj⟩
    · cases hx
      exact (hh _ _).mpr (Or.inl ⟨rfl, rfl⟩)
    · exact keep (hc.thread_after j a p hj hp) (other hji hj)
  · intro j a b ha hb
    rcases only ha with ⟨rfl, rfl⟩ | ha
    · rcases only hb with ⟨rfl, _⟩ | hb
      · rfl
      · exact absurd hb (hc.worker_free j a hi b)
    · rcases only hb with ⟨rfl, rfl⟩ | hb
      · exact absurd ha (hc.worker_free j b hi a)
      · exact hc.worker_single j a b ha hb
  · intro j a hj b hb
    rcases thread_update hj with ⟨_, hx⟩ | ⟨hji, hj⟩
    · cases hx
    · rcases only hb with ⟨_, hji'⟩ | hb
      · exact hji hji'
      · exact hc.worker_free j a hj b hb

/-- A closure returns: its entry is gone or has failed, and every other one stays. -/
theorem released (hc : Custody h ingest pool thread) {i : ℕ} {id : SeriesId}
    {pc : Worker.Pc} (hi : thread i = some (id, pc)) (hp : pc.MovedIn)
    (hh : ∀ t a, a ≠ id → (h' t a ↔ h t a)) (hid : ∀ t, h' t id → t = .gitFailures) :
    Custody h' ingest pool (Function.update thread i none) := by
  have hw : h (.gitWorker i) id := hc.thread_after i id pc hi hp
  have stay : ∀ {j a p}, Function.update thread i none j = some (a, p) →
      thread j = some (a, p) ∧ a ≠ id := by
    intro j a p hj
    rcases thread_update hj with ⟨_, hx⟩ | ⟨hji, hj⟩
    · cases hx
    · refine ⟨hj, ?_⟩
      rintro rfl
      exact hji (hc.thread_once j i a p pc hj hi)
  have keep : ∀ {t a}, t ≠ .gitWorker i → h t a → h' t a ∧ a ≠ id := fun ht ha =>
    have hne := hc.ne_of_held ha hw ht
    ⟨(hh _ _ hne).mpr ha, hne⟩
  have only : ∀ {j a}, h' (.gitWorker j) a → h (.gitWorker j) a ∧ a ≠ id := by
    intro j a ha
    have hne : a ≠ id := by
      rintro rfl
      cases hid _ ha
    exact ⟨(hh _ a hne).mp ha, hne⟩
  refine ⟨?_, fun a ha => (keep (by simp) (hc.moving a ha)).1, ?_, ?_, hc.pool_nodup, ?_, ?_,
    ?_, ?_, ?_⟩
  · intro t u a ht hu
    by_cases ha : a = id
    · subst ha
      rw [hid t ht, hid u hu]
    · exact hc.held_once t u a ((hh t a ha).mp ht) ((hh u a ha).mp hu)
  · intro a ha
    obtain ⟨h1, h2, h3⟩ := hc.spawning a ha
    exact ⟨(keep (by simp) h1).1, h2, fun j p hj => h3 j p (stay hj).1⟩
  · intro a ha
    obtain ⟨h1, h2⟩ := hc.pool_awaiting a ha
    exact ⟨(keep (by simp) h1).1, fun j p hj => h2 j p (stay hj).1⟩
  · intro j k a p q hj hk
    exact hc.thread_once j k a p q (stay hj).1 (stay hk).1
  · intro j a p hj hp
    exact (keep (by simp) (hc.thread_before j a p (stay hj).1 hp)).1
  · intro j a p hj hp
    exact (hh _ a (stay hj).2).mpr (hc.thread_after j a p (stay hj).1 hp)
  · intro j a b ha hb
    exact hc.worker_single j a b (only ha).1 (only hb).1
  · intro j a hj b hb
    exact hc.worker_free j a (stay hj).1 b (only hb).1

end Custody

end Snowpatch.GitStage
