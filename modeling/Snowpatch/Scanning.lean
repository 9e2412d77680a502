import Snowpatch.Watchcat

/-! The parallel pass over a page against the plain one. The closures of the iteration run in
any order and in between each other, and a failure stops `collect` from starting the rest;
what is left behind is what visiting some of the series one by one would leave. -/
namespace Snowpatch.Watchcat

/-- `check_state` returns Ok, whatever is in the database. -/
def Passes (l : Listed) : Prop := l.series.patches ≠ [] ∧ ∃ checks, l.checks = .ok checks

instance (l : Listed) : Decidable (Passes l) :=
  match hc : l.checks with
  | .ok checks => decidable_of_iff (l.series.patches ≠ []) ⟨fun h => ⟨h, checks, hc⟩, And.left⟩
  | .error e => isFalse (by rintro ⟨_, _, h⟩; rw [hc] at h; cases h)

theorem toBool_checkState (db : Db) (l : Listed) :
    (checkState db l).toBool = true ↔ Passes l := by
  constructor
  · intro h
    unfold checkState at h
    cases hp : l.series.patches with
    | nil => simp [hp, Except.toBool] at h
    | cons p ps => cases hc : l.checks with
      | error e => simp [hp, hc, Except.toBool] at h
      | ok checks => exact ⟨by simp [hp], checks, hc⟩
  · rintro ⟨hp, checks, hc⟩
    rw [checkState_ok hp hc]
    rfl

/-- What `check_state` adds to the database. -/
def stored (db : Db) (l : Listed) : Db :=
  if Passes l then db.insertSeries .needsTesting l.series.id l.series.mbox else db

def visit (db : Db) (l : Listed) : Db :=
  if wanted db.seenByWatchcat l then stored (db.markSeen l.series.id) l else db

/-- A series the filters let through and `check_state` returns an error for. -/
def Fails (db : Db) (l : Listed) : Prop :=
  wanted db.seenByWatchcat l = true ∧ ¬ Passes l

def markAll (db : Db) (ls : List Listed) : Db :=
  ls.foldl (fun db l => db.markSeen l.series.id) db

section Visits

variable {db : Db} {a b l : Listed} {ls ls' : List Listed}

theorem stored_markSeen (db : Db) (id : SeriesId) (l : Listed) :
    stored (db.markSeen id) l = (stored db l).markSeen id := by
  unfold stored
  split <;> rfl

theorem stored_comm (hne : a.series.id ≠ b.series.id) (db : Db) :
    stored (stored db a) b = stored (stored db b) a := by
  unfold stored
  by_cases ha : Passes a
  · by_cases hb : Passes b
    · simp only [ha, hb, if_true, Db.insertSeries_comm db _ hne]
    · simp only [ha, hb, if_true, if_false]
  · simp only [ha, if_false]

theorem seen_stored (db : Db) (l : Listed) :
    (stored db l).seenByWatchcat = db.seenByWatchcat := by
  unfold stored
  split <;> rfl

theorem wanted_congr {seen seen' : KvTree String String}
    (h : l.series.id.toDecimal ∈ seen ↔ l.series.id.toDecimal ∈ seen') :
    wanted seen l = wanted seen' l := by
  unfold wanted
  rw [decide_eq_decide.mpr h]

theorem mem_seen_markSeen {id id' : SeriesId} (hne : id ≠ id') :
    id.toDecimal ∈ (db.markSeen id').seenByWatchcat ↔ id.toDecimal ∈ db.seenByWatchcat := by
  have hkey : id.toDecimal ≠ id'.toDecimal := fun h => hne (toDecimal_inj.mp h)
  simp [Db.markSeen, Finmap.mem_insert, hkey]

theorem mem_seen_visit (hne : a.series.id ≠ l.series.id) :
    a.series.id.toDecimal ∈ (visit db l).seenByWatchcat ↔
      a.series.id.toDecimal ∈ db.seenByWatchcat := by
  unfold visit
  split
  · rw [seen_stored]
    exact mem_seen_markSeen hne
  · exact Iff.rfl

theorem mem_seen_visits (h : ∀ l ∈ ls, a.series.id ≠ l.series.id) :
    a.series.id.toDecimal ∈ (ls.foldl visit db).seenByWatchcat ↔
      a.series.id.toDecimal ∈ db.seenByWatchcat := by
  induction ls generalizing db with
  | nil => exact Iff.rfl
  | cons l ls ih =>
    exact (ih fun m hm => h m (List.mem_cons_of_mem l hm)).trans
      (mem_seen_visit (h l List.mem_cons_self))

theorem mem_seen_markAll (h : ∀ l ∈ ls, a.series.id ≠ l.series.id) :
    a.series.id.toDecimal ∈ (markAll db ls).seenByWatchcat ↔
      a.series.id.toDecimal ∈ db.seenByWatchcat := by
  induction ls generalizing db with
  | nil => exact Iff.rfl
  | cons l ls ih =>
    exact (ih fun m hm => h m (List.mem_cons_of_mem l hm)).trans
      (mem_seen_markSeen (h l List.mem_cons_self))

theorem visit_comm (hne : a.series.id ≠ b.series.id) (db : Db) :
    visit (visit db a) b = visit (visit db b) a := by
  have hb : wanted (visit db a).seenByWatchcat b = wanted db.seenByWatchcat b :=
    wanted_congr (mem_seen_visit hne.symm)
  have ha : wanted (visit db b).seenByWatchcat a = wanted db.seenByWatchcat a :=
    wanted_congr (mem_seen_visit hne)
  unfold visit at ha hb ⊢
  by_cases hwa : wanted db.seenByWatchcat a = true
  · by_cases hwb : wanted db.seenByWatchcat b = true
    · simp only [hwa, hwb, if_true] at ha hb ⊢
      rw [ha, hb, if_pos rfl, if_pos rfl, ← stored_markSeen, ← stored_markSeen,
        Db.markSeen_comm, stored_comm hne]
    · simp_all
  · simp_all

theorem markAll_perm (h : ls.Perm ls') : markAll db ls = markAll db ls' :=
  h.foldl_eq' (fun _ _ _ _ db => Db.markSeen_comm db _ _) db

theorem markAll_markSeen (db : Db) (id : SeriesId) (ls : List Listed) :
    (markAll db ls).markSeen id = markAll (db.markSeen id) ls := by
  induction ls generalizing db with
  | nil => rfl
  | cons l ls ih =>
    have hstep := ih (db.markSeen l.series.id)
    rw [Db.markSeen_comm] at hstep
    exact hstep

theorem stored_markAll (db : Db) (l : Listed) (ls : List Listed) :
    stored (markAll db ls) l = markAll (stored db l) ls := by
  induction ls generalizing db with
  | nil => rfl
  | cons m ls ih =>
    have hstep := ih (db.markSeen m.series.id)
    rw [stored_markSeen] at hstep
    exact hstep

end Visits

section Pass

variable {db : Db} {page finished skipped : List Listed} {s : State} {a : Listed}

/-- A pass halfway: the finished series have been visited one by one, the marked ones are
halfway through their visit, and the skipped ones are left out. -/
structure Halfway (db : Db) (page finished skipped : List Listed) (s : State) : Prop where
  parts : (s.scan.todo ++ (s.scan.chosen ++ (s.scan.marked ++ (finished ++ skipped)))).Perm page
  visited : s.db = markAll (finished.foldl visit db) s.scan.marked
  failed : s.scan.failed = true ↔ ∃ l ∈ finished, Fails db l
  started : ∀ l ∈ s.scan.chosen ++ s.scan.marked, wanted db.seenByWatchcat l = true
  all_started : s.scan.failed = false → skipped = []

theorem ne_of_nodup_append {xs ys : List Listed} {a l : Listed}
    (h : ((xs ++ ys).map (·.series.id)).Nodup) (ha : a ∈ xs) (hl : l ∈ ys) :
    a.series.id ≠ l.series.id := by
  rw [List.map_append] at h
  intro heq
  exact List.disjoint_of_nodup_append h (List.mem_map_of_mem ha) (heq ▸ List.mem_map_of_mem hl)

theorem halfway_start (db : Db) (page : List Listed) :
    Halfway db page [] [] ⟨db, Scan.start page⟩ := by
  constructor <;> simp [Scan.start, markAll]

theorem Halfway.distinct (h : Halfway db page finished skipped s)
    (hpage : (page.map (·.series.id)).Nodup) : ((s.scan.todo ++ (s.scan.chosen ++
      (s.scan.marked ++ (finished ++ skipped)))).map (·.series.id)).Nodup :=
  (h.parts.map _).nodup_iff.mpr hpage

/-- What a pass has left of the database does not change what the filters say of a series. -/
theorem Halfway.wanted_iff (h : Halfway db page finished skipped s)
    (hpage : (page.map (·.series.id)).Nodup) (ha : a ∈ s.scan.todo) :
    wanted s.db.seenByWatchcat a = wanted db.seenByWatchcat a ∧
      wanted (finished.foldl visit db).seenByWatchcat a = wanted db.seenByWatchcat a := by
  have hother : ∀ l, l ∈ s.scan.marked ∨ l ∈ finished → a.series.id ≠ l.series.id := by
    intro l hl
    refine ne_of_nodup_append (h.distinct hpage) ha ?_
    simp only [List.mem_append]
    tauto
  have hfinished : a.series.id.toDecimal ∈ (finished.foldl visit db).seenByWatchcat ↔
      a.series.id.toDecimal ∈ db.seenByWatchcat :=
    mem_seen_visits fun l hl => hother l (Or.inr hl)
  refine ⟨?_, wanted_congr hfinished⟩
  rw [h.visited]
  exact wanted_congr ((mem_seen_markAll fun l hl => hother l (Or.inl hl)).trans hfinished)

theorem Halfway.visit_marked (h : Halfway db page finished skipped s)
    (hpage : (page.map (·.series.id)).Nodup) (ha : a ∈ s.scan.marked) :
    markAll ((finished ++ [a]).foldl visit db) (s.scan.marked.erase a) = stored s.db a := by
  have hdistinct : ((s.scan.marked ++ (finished ++ skipped)).map (·.series.id)).Nodup :=
    (h.distinct hpage).sublist (((List.sublist_append_right _ _).trans
      (List.sublist_append_right _ _)).map _)
  have hother : ∀ l ∈ finished, a.series.id ≠ l.series.id := fun l hl =>
    ne_of_nodup_append hdistinct ha (List.mem_append_left _ hl)
  have hwanted : wanted (finished.foldl visit db).seenByWatchcat a = true :=
    (wanted_congr (mem_seen_visits hother)).trans
      (h.started a (List.mem_append_right _ ha))
  rw [h.visited, markAll_perm (List.perm_cons_erase ha), stored_markAll, List.foldl_append]
  simp only [List.foldl_cons, List.foldl_nil, visit, hwanted, if_true, stored_markSeen]
  rfl

theorem count_erase_add {ls : List Listed} (ha : a ∈ ls) (x : Listed) :
    ls.count x = (ls.erase a).count x + if a == x then 1 else 0 := by
  rw [(List.perm_cons_erase ha).count_eq x, List.count_cons]

theorem Halfway.settle (h : Halfway db page finished skipped s)
    (hpage : (page.map (·.series.id)).Nodup) (ha : a ∈ s.scan.marked) {failed : Bool}
    (hfailed : failed = true ↔ s.scan.failed = true ∨ ¬ Passes a) :
    Halfway db page (finished ++ [a]) skipped ⟨stored s.db a,
      ⟨s.scan.todo, s.scan.chosen, s.scan.marked.erase a, failed⟩⟩ := by
  have hwanted : wanted db.seenByWatchcat a = true := h.started a (List.mem_append_right _ ha)
  refine ⟨?_, (h.visit_marked hpage ha).symm, hfailed.trans ?_, fun l hl => h.started l ?_, ?_⟩
  · refine (List.perm_iff_count.mpr fun x => ?_).trans h.parts
    have hx := count_erase_add ha x
    simp only [List.count_append, List.count_cons, List.count_nil]
    omega
  · rw [h.failed]
    constructor
    · rintro (⟨l, hl, hf⟩ | hp)
      · exact ⟨l, List.mem_append_left _ hl, hf⟩
      · exact ⟨a, by simp, hwanted, hp⟩
    · rintro ⟨l, hl, hf⟩
      rcases List.mem_append.mp hl with hl | hl
      · exact Or.inl ⟨l, hl, hf⟩
      · rw [List.mem_singleton.mp hl] at hf
        exact Or.inr hf.2
  · exact (List.mem_append.mp hl).elim (List.mem_append_left _) fun hl =>
      List.mem_append_right _ (List.mem_of_mem_erase hl)
  · intro hok
    have hok : failed = false := hok
    refine h.all_started ?_
    by_contra hf
    rw [hfailed.mpr (Or.inl (by simpa using hf))] at hok
    cases hok

theorem halfway_step {e : Event} (h : Halfway db page finished skipped s)
    (hpage : (page.map (·.series.id)).Nodup) (he : Enabled s e) :
    ∃ finished' skipped', Halfway db page finished' skipped' (next s e) := by
  have hperm : ∀ ls : List Listed, (∀ x, ls.count x = (s.scan.todo ++ (s.scan.chosen ++
      (s.scan.marked ++ (finished ++ skipped)))).count x) → ls.Perm page :=
    fun ls hcount => (List.perm_iff_count.mpr hcount).trans h.parts
  cases e with
  | reject a =>
    obtain ⟨hnow, hthen⟩ := h.wanted_iff hpage he.1
    rw [he.2] at hnow
    refine ⟨finished ++ [a], skipped, hperm _ fun x => ?_, ?_, ?_, h.started, h.all_started⟩
    · have hx := count_erase_add he.1 x
      simp only [next, List.count_append, List.count_cons, List.count_nil]
      omega
    · simp only [List.foldl_append, List.foldl_cons, List.foldl_nil, visit, hthen, ← hnow]
      exact h.visited
    · refine h.failed.trans ⟨?_, ?_⟩
      · rintro ⟨l, hl, hf⟩
        exact ⟨l, List.mem_append_left _ hl, hf⟩
      · rintro ⟨l, hl, hf⟩
        rcases List.mem_append.mp hl with hl | hl
        · exact ⟨l, hl, hf⟩
        · rw [List.mem_singleton.mp hl, Fails, ← hnow] at hf
          cases hf.1
  | skip a =>
    refine ⟨finished, a :: skipped, hperm _ fun x => ?_, h.visited, h.failed, h.started, ?_⟩
    · have hx := count_erase_add he.1 x
      simp only [next, List.count_append, List.count_cons]
      omega
    · intro hok
      have hok : s.scan.failed = false := hok
      rw [he.2] at hok
      cases hok
  | choose a =>
    refine ⟨finished, skipped, hperm _ fun x => ?_, h.visited, h.failed, ?_, h.all_started⟩
    · have hx := count_erase_add he.1 x
      simp only [next, List.count_append, List.count_cons]
      omega
    · intro l hl
      rcases List.mem_cons.mp hl with rfl | hl
      · exact (h.wanted_iff hpage he.1).1.symm.trans he.2
      · exact h.started l hl
  | mark a =>
    have ha : a ∈ s.scan.chosen := he
    refine ⟨finished, skipped, hperm _ fun x => ?_, ?_, h.failed, ?_, h.all_started⟩
    · have hx := count_erase_add ha x
      simp only [next, List.count_append, List.count_cons]
      omega
    · simp only [next, h.visited, markAll_markSeen]
      rfl
    · intro l hl
      rcases List.mem_append.mp hl with hl | hl
      · exact h.started l (List.mem_append_left _ (List.mem_of_mem_erase hl))
      · rcases List.mem_cons.mp hl with rfl | hl
        · exact h.started _ (List.mem_append_left _ ha)
        · exact h.started l (List.mem_append_right _ hl)
  | queue a =>
    have hp : Passes a := (toBool_checkState s.db a).mp he.2
    have hdb : (next s (.queue a)).db = stored s.db a := by
      rw [queue_db he, stored, if_pos hp]
    have hnext : next s (.queue a) = ⟨stored s.db a, ⟨s.scan.todo, s.scan.chosen,
        s.scan.marked.erase a, s.scan.failed⟩⟩ := by rw [← hdb]; rfl
    rw [hnext]
    exact ⟨_, _, h.settle hpage he.1 (by simp [hp])⟩
  | fail a =>
    have hp : ¬ Passes a := by
      rw [← toBool_checkState s.db a, he.2]
      simp
    have hnext : next s (.fail a) = ⟨stored s.db a, ⟨s.scan.todo, s.scan.chosen,
        s.scan.marked.erase a, true⟩⟩ := by rw [stored, if_neg hp]; rfl
    rw [hnext]
    exact ⟨_, _, h.settle hpage he.1 (by simp [hp])⟩

theorem visits_perm {ls ls' : List Listed} (hp : ls.Perm ls')
    (hd : (ls.map (·.series.id)).Nodup) : ls.foldl visit db = ls'.foldl visit db := by
  refine hp.foldl_eq' (fun a ha b hb db => ?_) db
  by_cases hab : a.series.id = b.series.id
  · rw [List.inj_on_of_nodup_map hd ha hb hab]
  · exact visit_comm hab db

/-- However the closures of a pass interleave, it leaves behind what visiting some of the
series of the page one by one, in the order of the page, leaves behind. It fails exactly when
one of these fails, and where none does these are all of the page. -/
theorem scan_is_sequential {tr : List Event} (hpage : (page.map (·.series.id)).Nodup)
    (hx : machine.Execution ⟨db, Scan.start page⟩ tr s) (hf : s.scan.Finished) :
    ∃ visited, visited.Sublist page ∧ s.db = visited.foldl visit db ∧
      (s.scan.failed = true ↔ ∃ l ∈ visited, Fails db l) ∧
      (s.scan.failed = false → visited = page) := by
  have hhalf : ∃ finished skipped, Halfway db page finished skipped s :=
    hx.invariant (I := fun s => ∃ finished skipped, Halfway db page finished skipped s)
      ⟨[], [], halfway_start db page⟩ fun s e ⟨_, _, h⟩ he => halfway_step h hpage he
  obtain ⟨finished, skipped, h⟩ := hhalf
  obtain ⟨htodo, hchosen, hmarked⟩ := hf
  have hparts : (finished ++ skipped).Perm page := by
    simpa [htodo, hchosen, hmarked] using h.parts
  have hnodup : page.Nodup := hpage.of_map
  have hfinished_nodup : finished.Nodup :=
    ((hparts.nodup_iff.mpr hnodup).sublist (List.sublist_append_left _ _))
  have hvisited : (page.filter fun l => l ∈ finished).Perm finished := by
    refine (List.perm_ext_iff_of_nodup (hnodup.filter _) hfinished_nodup).mpr fun l => ?_
    simp only [List.mem_filter, decide_eq_true_eq, and_iff_right_iff_imp]
    exact fun hl => hparts.mem_iff.mp (List.mem_append_left _ hl)
  refine ⟨page.filter fun l => l ∈ finished, List.filter_sublist, ?_, ?_, ?_⟩
  · have hdistinct : ((page.filter fun l => l ∈ finished).map (·.series.id)).Nodup :=
      hpage.sublist (List.filter_sublist.map _)
    rw [visits_perm hvisited hdistinct, h.visited, hmarked]
    rfl
  · simp only [h.failed, hvisited.mem_iff]
  · intro hok
    refine List.filter_eq_self.mpr fun l hl => ?_
    have hl := hparts.mem_iff.mpr hl
    rw [h.all_started hok, List.append_nil] at hl
    simpa using hl

end Pass

/-- A second new series, whose requests are answered. -/
def answeredSeries : Listed where
  series := ⟨⟨2⟩, ⟨"https://patchwork/series/2/mbox"⟩, [8], true, 1⟩
  lastPatch := .ok ⟨8, none, "new"⟩
  checks := .ok []

def mixed : List Event :=
  [.choose unansweredSeries, .choose answeredSeries, .mark answeredSeries,
    .mark unansweredSeries, .fail unansweredSeries, .queue answeredSeries]

theorem scan_is_sequential_mixed : ∃ visited : List Listed,
    visited.Sublist [unansweredSeries, answeredSeries] ∧
      (machine.run ⟨Db.empty, Scan.start [unansweredSeries, answeredSeries]⟩ mixed).db =
        visited.foldl visit Db.empty := by
  have hruns : machine.Runs ⟨Db.empty, Scan.start [unansweredSeries, answeredSeries]⟩ mixed := by
    refine ⟨⟨?_, ?_⟩, ⟨?_, ?_⟩, List.mem_cons_self, List.mem_cons_self, ⟨?_, ?_⟩, ⟨?_, ?_⟩,
      trivial⟩
    all_goals decide
  obtain ⟨visited, hsub, hdb, _⟩ :=
    scan_is_sequential (by decide) hruns.execution ⟨rfl, rfl, rfl⟩
  exact ⟨visited, hsub, hdb⟩

end Snowpatch.Watchcat
