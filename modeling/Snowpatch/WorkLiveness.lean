import Snowpatch.Liveness
import Snowpatch.WorkerLoop

/-! What becomes of a series in the git stage if its threads are scheduled at all. A task that
finds the tree of its thread empty returns; a pool that hands out its closures in the order
they came hands out each of them; and so a series found by the watchcat leaves the stage. -/
namespace Snowpatch.WorkLiveness

open Pipeline Liveness

variable {env : Env} {s s₀ : State} {i : ℕ} {id : SeriesId}

section Work

theorem toLex_lt_right {n a b : ℕ} (h : a < b) : toLex (n, a) < toLex (n, b) :=
  Prod.Lex.toLex_lt_toLex.mpr (Or.inr ⟨rfl, h⟩)

theorem toLex_lt_left {m n a b : ℕ} (h : m < n) : toLex (m, a) < toLex (n, b) :=
  Prod.Lex.toLex_lt_toLex.mpr (Or.inl h)

/-- What is left of a `do_work`, if the remotes stay within `bound`: the commit is set up, the
remotes are listed, leaf by leaf, and each of those listed takes a push and an insert. -/
def workLeft (bound : Finset String) : DoWork.Pc → ℕ ×ₗ ℕ
  | .opening => toLex (3, 7)
  | .resetting => toLex (3, 6)
  | .reading => toLex (3, 5)
  | .downloading _ => toLex (3, 4)
  | .applying _ => toLex (3, 3)
  | .fallback _ => toLex (3, 2)
  | .reopening => toLex (3, 1)
  | .committing => toLex (3, 0)
  | .listing leaf cursor _ =>
    toLex (2, 2 * (bound.filter fun r : String => cursor < (r : WithBot String)).card +
      if leaf.next cursor = ⊤ then 1 else 0)
  | .pushing runners => toLex (1, 2 * runners.length)
  | .queueing _ _ rest => toLex (1, 2 * rest.length + 1)
  | .returned _ => toLex (0, 0)

variable {apply : Mbox → GitTree → Option GitTree} {d : DoWork.State}

theorem workLeft_returned (bound : Finset String) {pc : DoWork.Pc} (ok : Bool)
    (h : ∀ ok, pc ≠ .returned ok) : workLeft bound (.returned ok) < workLeft bound pc := by
  cases pc with
  | returned ok => exact absurd rfl (h ok)
  | _ => exact toLex_lt_left (by decide)

def cloned : DoWork.Pc → Finset String
  | .listing leaf _ _ => leaf.entries.keys
  | _ => ∅

theorem cloned_next {bound : Finset String} (hbound : d.db.remotesToPushTo.keys ⊆ bound)
    (hcloned : cloned d.pc ⊆ bound) {e : DoWork.Event} (he : DoWork.Enabled apply i id d e) :
    cloned (DoWork.nextPc d.pc e) ⊆ bound := by
  cases hpc : DoWork.nextPc d.pc e with
  | listing leaf cursor runners =>
    rcases DoWork.leaf_cases he hpc with rfl | ⟨_, _, hold⟩ | ⟨_, _, _, _, hreads⟩
    · exact fun r hr => absurd (Finmap.mem_keys.mp hr) Finmap.notMem_empty
    · rw [hold] at hcloned
      exact hcloned
    · exact fun r hr => hbound (Finmap.mem_keys.mpr (hreads.mem (Finmap.mem_keys.mp hr)))
  | _ => exact Finset.empty_subset bound

theorem workLeft_next {bound : Finset String} (hcloned : cloned d.pc ⊆ bound)
    {e : DoWork.Event} (he : DoWork.Enabled apply i id d e)
    (hread : ∀ leaf, e ≠ .readRemotes leaf false) :
    workLeft bound (DoWork.nextPc d.pc e) < workLeft bound d.pc := by
  obtain ⟨db, git, pc⟩ := d
  cases e with
  | openRepo | reopen =>
    obtain rfl := he
    exact toLex_lt_right (by decide)
  | reset =>
    obtain ⟨rfl, _⟩ := he
    exact toLex_lt_right (by decide)
  | resetFails =>
    obtain rfl : pc = .resetting := he
    exact toLex_lt_left (by decide)
  | readUrl =>
    obtain ⟨rfl, _⟩ := he
    exact toLex_lt_right (by decide)
  | download | applyFails =>
    obtain ⟨_, rfl⟩ := he
    exact toLex_lt_right (by decide)
  | applyToRepo | binaryApply =>
    obtain ⟨_, rfl, _⟩ := he
    exact toLex_lt_right (by decide)
  | commit =>
    obtain ⟨rfl, _⟩ := he
    exact toLex_lt_left (by decide)
  | readRemotes leaf' found =>
    obtain ⟨leaf, cursor, runners, rfl, hend, _, _, hfound⟩ := he
    cases found with
    | true =>
      refine toLex_lt_right (Nat.add_lt_add_left ?_ _)
      rw [if_pos hend, if_neg (hfound.mp rfl)]
      exact Nat.zero_lt_one
    | false => exact absurd rfl (hread leaf')
  | nextRunner =>
    obtain ⟨leaf, cursor, runners, rfl, hnext, _⟩ := he
    obtain ⟨hmem, hlt, _⟩ := KvTree.of_first_eq hnext
    have hcard := KvTree.card_after_lt hlt (hcloned (Finmap.mem_keys.mpr hmem))
    refine toLex_lt_right ?_
    split <;> split <;> omega
  | listed =>
    obtain ⟨leaf, cursor, runners, rfl, _⟩ := he
    exact toLex_lt_left (by decide)
  | push | notFastForward =>
    obtain ⟨runner, rest, rfl, _⟩ := he
    refine toLex_lt_right ?_
    rw [List.length_cons]
    omega
  | queue =>
    obtain ⟨rest, rfl⟩ := he
    exact toLex_lt_right (Nat.lt_succ_self _)
  | pushBreaks =>
    obtain ⟨runner, rest, rfl, _⟩ := he
    exact toLex_lt_left (by decide)
  | finish =>
    obtain rfl : pc = .pushing [] := he
    exact toLex_lt_left (by decide)
  | fail =>
    refine workLeft_returned bound false ?_
    rintro ok rfl
    exact he

theorem workLeft_skip {bound : Finset String} {leaf : KvTree.Leaf String String}
    (he : DoWork.Enabled apply i id d (.readRemotes leaf false)) :
    workLeft bound (DoWork.nextPc d.pc (.readRemotes leaf false)) = workLeft bound d.pc := by
  obtain ⟨db, git, pc⟩ := d
  obtain ⟨leaf, cursor, runners, rfl, hend, _, _, hfound⟩ := he
  have hempty := not_not.mp (mt hfound.mpr Bool.false_ne_true)
  simp only [workLeft, DoWork.nextPc, if_pos hend, if_pos hempty]

theorem work_ready (d : DoWork.State) (h : ∀ ok, d.pc ≠ .returned ok) :
    ∃ e, (∀ leaf, e ≠ .readRemotes leaf false) ∧ DoWork.Enabled apply i id d e := by
  obtain ⟨db, git, pc⟩ := d
  cases pc with
  | opening | resetting | reading | downloading | fallback | reopening | committing =>
    exact ⟨.fail, by simp, trivial⟩
  | applying mbox => exact ⟨.applyFails, by simp, mbox, rfl⟩
  | listing leaf cursor runners =>
    rcases leaf.ready db.remotesToPushTo cursor with ⟨remote, hnext⟩ | hreads | hend
    · obtain ⟨runner, hrunner⟩ := Finmap.mem_iff.mp (KvTree.mem_of_first hnext)
      exact ⟨.nextRunner remote runner, by simp, leaf, cursor, runners, rfl, hnext, hrunner⟩
    · exact ⟨.readRemotes _ true, by simp, leaf, cursor, runners, rfl, hreads⟩
    · exact ⟨.listed, by simp, leaf, cursor, runners, rfl, hend⟩
  | pushing runners => cases runners with
    | nil => exact ⟨.finish, by simp, rfl⟩
    | cons r rest => exact ⟨.fail, by simp, List.cons_ne_nil r rest⟩
  | queueing remote runner rest => exact ⟨.queue remote runner, by simp, rest, rfl⟩
  | returned ok => exact absurd rfl (h ok)

end Work

section Task

variable {apply : Mbox → GitTree → Option GitTree} {bound : Finset String}

/-- A step of the task on the thread. It passes an empty leaf of the remotes for nothing. -/
def IsWorker (i : ℕ) (e : Event) : Prop :=
  ∃ id we, e = .worker i id we ∧ ∀ leaf, we ≠ .work (.readRemotes leaf false)

/-- The closure of the series comes to its end, or the process does. -/
def EndsTask (i : ℕ) (id : SeriesId) (e : Event) : Prop :=
  e = .worker i id .remove ∨ e = .worker i id .moveToFailures ∨ e = .stop

def taskLeft (bound : Finset String) : Worker.Pc → ℕ ×ₗ ℕ
  | .checking | .waiting _ => toLex (3, 10)
  | .movingIn => toLex (3, 9)
  | .moved => toLex (3, 8)
  | .working pc => workLeft bound pc

def taskCloned : Worker.Pc → Finset String
  | .working pc => cloned pc
  | _ => ∅

/-- On a thread, and not about to wait for the tree of the thread. -/
structure Engaged (i : ℕ) (id : SeriesId) (bound : Finset String) (s : State) : Prop where
  thread : ∃ pc, s.proc.thread i = some (id, pc) ∧ taskCloned pc ⊆ bound ∧
    (WorkerLoop.Outside pc → pc = .checking ∧ KvTree.IsEmpty (s.db.series (.gitWorker i)))
  remotes : s.db.remotesToPushTo.keys ⊆ bound
  wanted : ∀ r ∈ s.proc.config.runners, ∀ remote, r.trigger = .onPush remote → remote ∈ bound

structure GitReady (s : State) : Prop where
  custody : GitStage.GitCustody (GitStage.view s)
  booted : Startup.Booted s.proc

theorem taskLeft_next {w : Worker.State} {we : Worker.Event}
    (hbound : w.db.remotesToPushTo.keys ⊆ bound) (hcloned : taskCloned w.pc ⊆ bound)
    (hclear : WorkerLoop.Outside w.pc → w.pc = .checking ∧
      KvTree.IsEmpty (w.db.series (.gitWorker i)))
    (he : Worker.Enabled apply i id w we) :
    (we = .remove ∨ we = .moveToFailures) ∨ ∃ pc, Worker.nextPc w.pc we = some pc ∧
      ¬ WorkerLoop.Outside pc ∧ taskCloned pc ⊆ bound ∧
        (taskLeft bound pc < taskLeft bound w.pc ∨ taskLeft bound pc = taskLeft bound w.pc ∧
          ∃ leaf, we = .work (.readRemotes leaf false)) := by
  have hnone : ∅ ⊆ bound := Finset.empty_subset bound
  obtain ⟨db, git, pc⟩ := w
  cases we with
  | busy =>
    obtain ⟨rfl, hbusy⟩ := he
    exact absurd (hclear trivial).2 hbusy
  | wait =>
    obtain ⟨w, rfl, _⟩ := he
    cases (hclear trivial).1
  | free =>
    obtain ⟨rfl, _⟩ := he
    exact Or.inr ⟨_, rfl, not_false, hnone, Or.inl (toLex_lt_right (by decide))⟩
  | moveIn =>
    obtain ⟨rfl, _⟩ := he
    exact Or.inr ⟨_, rfl, not_false, hnone, Or.inl (toLex_lt_right (by decide))⟩
  | startWork =>
    obtain rfl : pc = .moved := he
    exact Or.inr ⟨_, rfl, not_false, hnone, Or.inl (toLex_lt_right (by decide))⟩
  | work e =>
    obtain ⟨pc, rfl, hwork⟩ := he
    refine Or.inr ⟨_, rfl, not_false, cloned_next hbound hcloned hwork, ?_⟩
    by_cases hskip : ∃ leaf, e = .readRemotes leaf false
    · obtain ⟨leaf, rfl⟩ := hskip
      exact Or.inr ⟨workLeft_skip hwork, leaf, rfl⟩
    · exact Or.inl (workLeft_next hcloned hwork (not_exists.mp hskip))
  | remove => exact Or.inl (Or.inl rfl)
  | moveToFailures => exact Or.inl (Or.inr rfl)

theorem task_ready (h : GitReady s) (hs : Engaged i id bound s) :
    ∃ e, IsWorker i e ∧ Enabled env s e := by
  obtain ⟨pc, hi, _, hclear⟩ := hs.thread
  have hbefore := h.custody.thread_before i id
  have hafter := h.custody.thread_after i id
  have hen : ∃ we, (∀ leaf, we ≠ .work (.readRemotes leaf false)) ∧
      Worker.Enabled env.apply i id ⟨s.db, s.git, pc⟩ we := by
    cases pc with
    | checking => exact ⟨.free, by simp, rfl, (hclear trivial).2⟩
    | waiting w => cases (hclear trivial).1
    | movingIn => exact ⟨.moveIn, by simp, rfl, hbefore _ hi not_false⟩
    | moved => exact ⟨.startWork, by simp, rfl⟩
    | working pc =>
      by_cases hret : ∃ ok, pc = .returned ok
      · obtain ⟨ok, rfl⟩ := hret
        cases ok with
        | true => exact ⟨.remove, by simp, rfl⟩
        | false => exact ⟨.moveToFailures, by simp, rfl, hafter _ hi trivial⟩
      · push Not at hret
        obtain ⟨e, hread, he⟩ := work_ready ⟨s.db, s.git, pc⟩ hret
        exact ⟨.work e, by simpa using hread, pc, rfl, he⟩
  obtain ⟨we, hread, hwe⟩ := hen
  exact ⟨.worker i id we, ⟨id, we, rfl, hread⟩, pc, hi, hwe⟩

def threadLeft (i : ℕ) (bound : Finset String) (s : State) : ℕ ×ₗ ℕ :=
  (s.proc.thread i).elim (toLex (0, 0)) fun x => taskLeft bound x.2

theorem remotes_bounded {e : Event} (he : Enabled env s e)
    (hremotes : s.db.remotesToPushTo.keys ⊆ bound)
    (hwanted : ∀ r ∈ s.proc.config.runners, ∀ remote, r.trigger = .onPush remote →
      remote ∈ bound) : (next env s e).db.remotesToPushTo.keys ⊆ bound := by
  by_cases hinsert : ∀ remote, e ≠ .main (.insertRemote remote)
  · rw [Startup.remotes_elsewhere hinsert]
    exact hremotes
  · push Not at hinsert
    obtain ⟨remote, rfl⟩ := hinsert
    obtain ⟨k, r, _, hr, htrigger⟩ := he
    intro a ha
    rcases Finmap.mem_insert.mp (Finmap.mem_keys.mp ha) with rfl | ha
    · exact hwanted r (List.mem_of_getElem? hr) a htrigger
    · exact hremotes (Finmap.mem_keys.mpr ha)

theorem Engaged.not_start {e : Event} (h : GitReady s) (hs : Engaged i id bound s)
    (he : Enabled env s e) (config : Config) (threads : ℕ) : e ≠ .start config threads := by
  rintro rfl
  obtain ⟨pc, hi, _⟩ := hs.thread
  rw [h.booted.off_stopped he.1] at hi
  cases hi

theorem Engaged.foreign {e : Event} (h : GitReady s) (hs : Engaged i id bound s)
    (he : Enabled env s e) (hends : ¬ EndsTask i id e) (hworker : ∀ id we, e ≠ .worker i id we) :
    (next env s e).proc.thread i = s.proc.thread i ∧
      (next env s e).db.series (.gitWorker i) = s.db.series (.gitWorker i) := by
  refine ⟨WorkerLoop.thread_elsewhere he hworker ?_ (hs.not_start h he)
    (fun hstop => hends (Or.inr (Or.inr hstop))), WorkerLoop.tree_elsewhere he hworker⟩
  rintro a rfl
  obtain ⟨pc, hi, _⟩ := hs.thread
  cases hi.symm.trans he.2.1

theorem Engaged.own {a : SeriesId} {we : Worker.Event} (hs : Engaged i id bound s)
    (he : Enabled env s (.worker i a we)) (hends : ¬ EndsTask i id (.worker i a we)) :
    ∃ pc pc', s.proc.thread i = some (id, pc) ∧
      (next env s (.worker i a we)).proc.thread i = some (id, pc') ∧
      ¬ WorkerLoop.Outside pc' ∧ taskCloned pc' ⊆ bound ∧
      (taskLeft bound pc' < taskLeft bound pc ∨ taskLeft bound pc' = taskLeft bound pc ∧
        ∃ leaf, we = .work (.readRemotes leaf false)) := by
  obtain ⟨pc, hi, hcloned, hclear⟩ := hs.thread
  obtain ⟨q, hq, hwe⟩ := he
  obtain ⟨rfl, rfl⟩ := Prod.mk.inj (Option.some.inj (hi.symm.trans hq))
  obtain ⟨w, hproc, _⟩ := workerNext_proc env id hi we
  rcases taskLeft_next hs.remotes hcloned hclear hwe with
    (rfl | rfl) | ⟨pc', hpc', hin, hcloned', hleft⟩
  · exact absurd (Or.inl rfl) hends
  · exact absurd (Or.inr (Or.inl rfl)) hends
  · have hpc' : Worker.nextPc pc we = some pc' := hpc'
    refine ⟨pc, pc', hi, ?_, hin, hcloned', hleft⟩
    rw [hproc, hpc']
    exact Function.update_self ..

theorem engaged_descends (env : Env) (i : ℕ) (id : SeriesId) (bound : Finset String) :
    (machine env).Descends GitReady (Engaged i id bound) (IsWorker i) (EndsTask i id)
      (threadLeft i bound) where
  ready _ h hs := task_ready h hs
  step := by
    intro s e h hs he
    by_cases hends : EndsTask i id e
    · exact Or.inl hends
    have hconfig : (next env s e).proc.config = s.proc.config :=
      Startup.config_next (hs.not_start h he) fun hstop => hends (Or.inr (Or.inr hstop))
    have hremotes := remotes_bounded he hs.remotes hs.wanted
    refine Or.inr ?_
    by_cases hworker : ∃ a we, e = .worker i a we
    · obtain ⟨a, we, rfl⟩ := hworker
      obtain ⟨pc, pc', hi, hi', hin, hcloned, hleft⟩ := hs.own he hends
      have hbefore : threadLeft i bound s = taskLeft bound pc := by rw [threadLeft, hi]; rfl
      have hafter : threadLeft i bound (next env s (.worker i a we)) = taskLeft bound pc' := by
        rw [threadLeft, hi']
        rfl
      refine ⟨⟨⟨pc', hi', hcloned, fun hout => absurd hout hin⟩, hremotes,
        hconfig ▸ hs.wanted⟩, ?_⟩
      change threadLeft i bound (next env s _) ≤ _ ∧ (_ → threadLeft i bound (next env s _) < _)
      rw [hbefore, hafter]
      rcases hleft with hlt | ⟨heq, leaf, rfl⟩
      · exact ⟨hlt.le, fun _ => hlt⟩
      · refine ⟨heq.le, ?_⟩
        rintro ⟨_, _, hw, hread⟩
        cases hw
        exact absurd rfl (hread leaf)
    · have hforeign : ∀ a we, e ≠ .worker i a we := fun a we hw => hworker ⟨a, we, hw⟩
      obtain ⟨hthread, htree⟩ := hs.foreign h he hends hforeign
      obtain ⟨pc, hi, hcloned, hclear⟩ := hs.thread
      refine ⟨⟨⟨pc, hthread.trans hi, hcloned, htree ▸ hclear⟩, hremotes,
        hconfig ▸ hs.wanted⟩, ?_, ?_⟩
      · exact le_of_eq (congrArg (fun x => Option.elim x _ _) hthread)
      · rintro ⟨a, we, hw, _⟩
        exact absurd hw (hforeign a we)

def pushRemotes (s : State) (pc : Worker.Pc) : Finset String :=
  taskCloned pc ∪ s.db.remotesToPushTo.keys ∪ (s.proc.config.runners.filterMap fun r =>
    match r.trigger with
    | .onPush remote => some remote
    | _ => none).toFinset

theorem git_ready_run (ρ : (machine env).Run s₀) (h₀ : Initial s₀) (n : ℕ) :
    GitReady (ρ.state n) :=
  ⟨(GitStage.execution_git (ρ.execution n) h₀).2, Startup.execution_booted (ρ.execution n) h₀⟩

/-- A task returns. Whatever its thread is at, short of waiting for a tree that is not its
own: if the thread is not kept from its steps, the series leaves "git worker {i}" in the end,
done or failed, or the process stops. -/
theorem task_returns (ρ : (machine env).Run s₀) (h₀ : Initial s₀) (hfair : ρ.Fair (IsWorker i))
    {n : ℕ} {pc : Worker.Pc} (hi : (ρ.state n).proc.thread i = some (id, pc))
    (hclear : WorkerLoop.Outside pc →
      pc = .checking ∧ KvTree.IsEmpty ((ρ.state n).db.series (.gitWorker i))) :
    ∃ m, n ≤ m ∧ EndsTask i id (ρ.event m) := by
  have hcloned : taskCloned pc ⊆ pushRemotes (ρ.state n) pc :=
    Finset.subset_union_left.trans Finset.subset_union_left
  refine (engaged_descends env i id (pushRemotes (ρ.state n) pc)).eventually ρ hfair
    (git_ready_run ρ h₀) ⟨⟨pc, hi, hcloned, hclear⟩,
      Finset.subset_union_right.trans Finset.subset_union_left, ?_⟩
  intro r hr remote htrigger
  refine Finset.mem_union_right _ (List.mem_toFinset.mpr (List.mem_filterMap.mpr ⟨r, hr, ?_⟩))
  rw [htrigger]

end Task

section Pool

def IsBegin (e : Event) : Prop := ∃ i id, e = .begin i id

/-- The pool hands out the closure that has waited longest. -/
def InOrder (s : State) : Event → Prop
  | .begin _ id => s.proc.pool.getLast? = some id
  | _ => True

/-- A process with threads in its pool, each of which takes a task and lets it go. -/
structure Serving (s : State) : Prop where
  running : s.proc.main ≠ .off
  threads : 0 < s.proc.threads
  slots : ∀ i, WorkerLoop.Slot ∅ (s.db.series (.gitWorker i)) (s.proc.thread i)

theorem pool_next {e : Event} (he : Enabled env s e) (hrun : s.proc.main ≠ .off)
    (hstop : e ≠ .stop) :
    (∃ i a, e = .begin i a ∧ (next env s e).proc.pool = s.proc.pool.erase a) ∨
      ∃ new, (next env s e).proc.pool = new ++ s.proc.pool := by
  cases e using GitStage.event_cases with
  | elsewhere e ho =>
    exact Or.inr ⟨[], congrArg (·.pool) (GitStage.view_elsewhere env s ho)⟩
  | start => exact absurd he.1 hrun
  | stop => exact absurd rfl hstop
  | beginScan | scan => exact Or.inr ⟨[], rfl⟩
  | ingest e => cases e with
    | spawn a => exact Or.inr ⟨[a], rfl⟩
    | ready | read | take | ends | move | wait => exact Or.inr ⟨[], rfl⟩
  | begin i a => exact Or.inl ⟨i, a, rfl, rfl⟩
  | worker i a e =>
    obtain ⟨pc, hi, _⟩ := he
    exact Or.inr ⟨[], congrArg (·.pool) (GitStage.view_worker env (e := e) hi)⟩

theorem serving_next {e : Event} (h : Serving s) (he : Enabled env s e) (hstop : e ≠ .stop) :
    Serving (next env s e) where
  running := running_next he hstop h.running
  threads := by
    have hstart : ∀ config threads, e ≠ .start config threads := by
      rintro config threads rfl
      exact absurd he.1 h.running
    exact h.threads.trans_eq (Startup.threads_next hstart hstop).symm
  slots i := by
    have hslot : WorkerLoop.Slot ((WorkerLoop.record s Db.empty e).series (.gitWorker i))
        ((next env s e).db.series (.gitWorker i)) ((next env s e).proc.thread i) :=
      WorkerLoop.slot_step (h.slots i) he
    cases e with
    | start => exact absurd he.1 h.running
    | stop => exact absurd rfl hstop
    | _ => exact hslot

/-- On such a thread no task waits, or is about to. -/
theorem Serving.clear (h : Serving s) {pc : Worker.Pc} (hi : s.proc.thread i = some (id, pc))
    (hout : WorkerLoop.Outside pc) :
    pc = .checking ∧ KvTree.IsEmpty (s.db.series (.gitWorker i)) := by
  have hempty : KvTree.IsEmpty (s.db.series (.gitWorker i)) := by
    refine KvTree.isEmpty_iff.mpr fun a ha => ?_
    obtain ⟨q, hq, hin⟩ :=
      (h.slots i).clean (KvTree.isEmpty_iff.mpr fun _ => Finmap.notMem_empty) a ha
    obtain ⟨_, rfl⟩ := Prod.mk.inj (Option.some.inj (hi.symm.trans hq))
    cases pc with
    | checking | waiting => exact hin
    | movingIn | moved | working => exact hout
  cases pc with
  | checking => exact ⟨rfl, hempty⟩
  | waiting w => exact absurd hempty ((h.slots i).looping id w hi)
  | movingIn | moved | working => exact hout.elim

def Behind (k : ℕ) (id : SeriesId) (s : State) : Prop :=
  ∃ front back, s.proc.pool = front ++ id :: back ∧ back.length = k

theorem behind_next {k : ℕ} {e : Event} (h : Behind k id s) (he : Enabled env s e)
    (hrun : s.proc.main ≠ .off) (hstop : e ≠ .stop) (hbegin : ¬ IsBegin e) :
    Behind k id (next env s e) := by
  obtain ⟨front, back, hpool, hk⟩ := h
  rcases pool_next he hrun hstop with ⟨i, a, rfl, _⟩ | ⟨new, hnext⟩
  · exact absurd ⟨i, a, rfl⟩ hbegin
  · exact ⟨new ++ front, back, by rw [hnext, hpool, List.append_assoc], hk⟩

theorem behind_begin (env : Env) (i : ℕ) {k : ℕ} {a : SeriesId} (hg : GitReady s)
    (h : Behind k id s)
    (horder : s.proc.pool.getLast? = some a) :
    a = id ∨ ∃ j < k, Behind j id (next env s (.begin i a)) := by
  obtain ⟨front, back, hpool, rfl⟩ := h
  have hnodup : s.proc.pool.Nodup := hg.custody.pool_nodup
  cases back using List.reverseRecOn with
  | nil => exact Or.inl (by simpa [hpool] using horder.symm)
  | append_singleton back b =>
    have hlast : s.proc.pool = (front ++ id :: back) ++ [b] := by simp [hpool]
    obtain rfl : b = a := by
      rw [hlast, List.getLast?_concat] at horder
      exact Option.some.inj horder
    have hnotin : b ∉ front ++ id :: back := by
      rw [hlast] at hnodup
      exact fun hb => List.disjoint_of_nodup_append hnodup hb (List.mem_singleton_self b)
    refine Or.inr ⟨back.length, by simp, front, back, ?_, rfl⟩
    have hnext : (next env s (.begin i b)).proc.pool = s.proc.pool.erase b := rfl
    rw [hnext, hlast, List.erase_append_right _ hnotin]
    simp

def BeginsOrStops (e : Event) : Prop := IsBegin e ∨ e = .stop

theorem serving_stays {P : State → Prop} (hP : ∀ s e, Serving s → P s → Enabled env s e →
    e ≠ .stop → ¬ IsBegin e → P (next env s e)) (s : State) (e : Event) (_ : GitReady s)
    (h : Serving s ∧ P s) (he : Enabled env s e) :
    BeginsOrStops e ∨ Serving (next env s e) ∧ P (next env s e) := by
  by_cases hgoal : BeginsOrStops e
  · exact Or.inl hgoal
  · obtain ⟨hbegin, hstop⟩ := not_or.mp hgoal
    exact Or.inr ⟨serving_next h.1 he hstop, hP s e h.1 h.2 he hstop hbegin⟩

theorem pool_ne_nil_next {e : Event} (hs : Serving s) (h : s.proc.pool ≠ [])
    (he : Enabled env s e) (hstop : e ≠ .stop) (hbegin : ¬ IsBegin e) :
    (next env s e).proc.pool ≠ [] := by
  rcases pool_next he hs.running hstop with ⟨i, a, rfl, _⟩ | ⟨new, hnext⟩
  · exact absurd ⟨i, a, rfl⟩ hbegin
  · rw [hnext]
    exact List.append_ne_nil_of_right_ne_nil _ h

theorem begins_of_free (ρ : (machine env).Run s₀) (h₀ : Initial s₀) (hpool : ρ.Fair IsBegin)
    {n : ℕ} (hs : Serving (ρ.state n)) (hne : (ρ.state n).proc.pool ≠ [])
    (hfree : (ρ.state n).proc.thread 0 = none) : ∃ m, n ≤ m ∧ BeginsOrStops (ρ.event m) := by
  have hkept : ∀ s e, Serving s → (s.proc.pool ≠ [] ∧ s.proc.thread 0 = none) →
      Enabled env s e → e ≠ .stop → ¬ IsBegin e →
      ((next env s e).proc.pool ≠ [] ∧ (next env s e).proc.thread 0 = none) := by
    rintro s e hs ⟨hne, hfree⟩ he hstop hbegin
    refine ⟨pool_ne_nil_next hs hne he hstop hbegin, ?_⟩
    rw [WorkerLoop.thread_elsewhere he ?_ (fun id hb => hbegin ⟨0, id, hb⟩) ?_ hstop]
    · exact hfree
    · rintro id we rfl
      obtain ⟨pc, hi, _⟩ := he
      cases hfree.symm.trans hi
    · rintro config threads rfl
      exact absurd he.1 hs.running
  have hready : ∀ s, GitReady s → (Serving s ∧ s.proc.pool ≠ [] ∧ s.proc.thread 0 = none) →
      ∃ e, IsBegin e ∧ Enabled env s e := by
    rintro s _ ⟨hs, hne, hfree⟩
    obtain ⟨a, rest, hpool⟩ := List.exists_cons_of_ne_nil hne
    exact ⟨.begin 0 a, ⟨0, a, rfl⟩, hs.threads, hfree, hpool ▸ List.mem_cons_self⟩
  obtain ⟨m, hm, _, hgoal⟩ := ρ.happens hpool hready (serving_stays hkept)
    (git_ready_run ρ h₀) ⟨hs, hne, hfree⟩
  exact ⟨m, hm, hgoal⟩

theorem thread_after_end {e : Event} (he : Enabled env s e) (hends : EndsTask i id e) :
    (next env s e).proc.thread i = none := by
  rcases hends with rfl | rfl | rfl
  · obtain ⟨pc, hi, _⟩ := he
    obtain ⟨w, hproc, _⟩ := workerNext_proc env id hi .remove
    rw [hproc]
    exact Function.update_self ..
  · obtain ⟨pc, hi, _⟩ := he
    obtain ⟨w, hproc, _⟩ := workerNext_proc env id hi .moveToFailures
    rw [hproc]
    exact Function.update_self ..
  · rfl

theorem begins (ρ : (machine env).Run s₀) (h₀ : Initial s₀) (hpool : ρ.Fair IsBegin)
    (hworker : ρ.Fair (IsWorker 0)) {n : ℕ} (hs : Serving (ρ.state n))
    (hne : (ρ.state n).proc.pool ≠ []) : ∃ m, n ≤ m ∧ BeginsOrStops (ρ.event m) := by
  cases hthread : (ρ.state n).proc.thread 0 with
  | none => exact begins_of_free ρ h₀ hpool hs hne hthread
  | some x =>
    obtain ⟨m, hm, hends⟩ := task_returns ρ h₀ hworker hthread (hs.clear hthread)
    rcases ρ.stays (serving_stays (P := fun s => s.proc.pool ≠ []) fun _ _ => pool_ne_nil_next)
      (git_ready_run ρ h₀) (Nat.le_succ_of_le hm) ⟨hs, hne⟩ with
      ⟨l, hl, _, _, hgoal⟩ | ⟨hs', hne'⟩
    · exact ⟨l, hl, hgoal⟩
    · by_cases hstop : ρ.event m = .stop
      · exact ⟨m, hm, Or.inr hstop⟩
      · have hfree : (ρ.state (m + 1)).proc.thread 0 = none := by
          rw [ρ.step m]
          exact thread_after_end (ρ.enabled m) hends
        obtain ⟨l, hl, hgoal⟩ := begins_of_free ρ h₀ hpool hs' hne' hfree
        exact ⟨l, hm.trans (Nat.le_of_succ_le hl), hgoal⟩

/-- In a pool that keeps the order, each closure is handed out. -/
theorem closure_begins (ρ : (machine env).Run s₀) (h₀ : Initial s₀) (hpool : ρ.Fair IsBegin)
    (hworker : ρ.Fair (IsWorker 0)) (horder : ∀ n, InOrder (ρ.state n) (ρ.event n)) {k n : ℕ}
    (hs : Serving (ρ.state n)) (hid : Behind k id (ρ.state n)) :
    ∃ m, n ≤ m ∧ Serving (ρ.state m) ∧
      ((∃ i, ρ.event m = .begin i id) ∨ ρ.event m = .stop) := by
  induction k using Nat.strong_induction_on generalizing n with
  | h k ih =>
    have hne : (ρ.state n).proc.pool ≠ [] := by
      obtain ⟨front, back, hpool, _⟩ := hid
      simp [hpool]
    obtain ⟨l, hl, ⟨hsl, hidl⟩, hgoal⟩ := ρ.stays_until
      (serving_stays fun s e hs h he hstop hbegin => behind_next h he hs.running hstop hbegin)
      (git_ready_run ρ h₀) ⟨hs, hid⟩ (begins ρ h₀ hpool hworker hs hne)
    rcases hgoal with ⟨i, a, he⟩ | hstop
    · have hlast : (ρ.state l).proc.pool.getLast? = some a := by
        have := horder l
        rwa [he] at this
      rcases behind_begin env i (git_ready_run ρ h₀ l) hidl hlast with rfl | ⟨j, hj, hidj⟩
      · exact ⟨l, hl, hsl, Or.inl ⟨i, he⟩⟩
      · have hnext : ρ.state (l + 1) = next env (ρ.state l) (.begin i a) := he ▸ ρ.step l
        have hsnext : Serving (ρ.state (l + 1)) := by
          rw [ρ.step l]
          exact serving_next hsl (ρ.enabled l) (by simp [he])
        obtain ⟨m, hm, hgoal⟩ := ih j hj hsnext (hnext ▸ hidj)
        exact ⟨m, hl.trans (Nat.le_of_succ_le hm), hgoal⟩
    · exact ⟨l, hl, hsl, Or.inr hstop⟩

end Pool

section Stage

/-- The process has found the tree of every git worker empty. -/
def FoundClean (env : Env) (s₀ : State) (tr : List Event) : Prop :=
  ∀ i, KvTree.IsEmpty ((WorkerLoop.left env s₀ tr).series (.gitWorker i))

theorem threads_pos {tr : List Event} (hx : (machine env).Execution s₀ tr s) (h₀ : Initial s₀) :
    s.proc.main ≠ .off → 0 < s.proc.threads := by
  refine hx.history (I := fun _ s => s.proc.main ≠ .off → 0 < s.proc.threads) ?_
    fun tr s e hx h he hrun => ?_
  · intro hrun
    rw [h₀.not_running] at hrun
    exact absurd rfl hrun
  · by_cases hstart : ∀ config threads, e ≠ .start config threads
    · have hstop : e ≠ .stop := by
        rintro rfl
        exact absurd rfl hrun
      have hbefore := Startup.running_before (Startup.execution_booted hx h₀) he hstart hrun
      exact (h hbefore).trans_eq (Startup.threads_next hstart hstop).symm
    · push Not at hstart
      obtain ⟨config, threads, rfl⟩ := hstart
      exact he.2.1

theorem serving_of_found {tr : List Event} (hx : (machine env).Execution s₀ tr s)
    (h₀ : Initial s₀) (hfound : FoundClean env s₀ tr) (hrun : s.proc.main ≠ .off) :
    Serving s where
  running := hrun
  threads := threads_pos hx h₀ hrun
  slots i := by
    have hslot := WorkerLoop.execution_slot hx h₀.not_running i
    exact ⟨fun _ => hslot.clean (hfound i),
      fun hne => absurd (KvTree.isEmpty_iff.mpr fun _ => Finmap.notMem_empty) hne, hslot.looping⟩

def Leaves (id : SeriesId) (e : Event) : Prop := ∃ i, EndsTask i id e

theorem series_begins (ρ : (machine env).Run s₀) (h₀ : Initial s₀) (hingest : ρ.Fair IsIngest)
    (hpool : ρ.Fair IsBegin) (hworker : ρ.Fair (IsWorker 0))
    (horder : ∀ n, InOrder (ρ.state n) (ρ.event n)) {n : ℕ} (hserving : Serving (ρ.state n))
    {id : SeriesId} (hid : id ∈ (ρ.state n).db.series .needsTesting) :
    ∃ m, n ≤ m ∧ (ρ.event m = .stop ∨ Serving (ρ.state (m + 1)) ∧
      ∃ i, (ρ.state (m + 1)).proc.thread i = some (id, .checking)) := by
  have hready := git_ready_run ρ h₀
  have hkept : ∀ s e, GitReady s → Serving s → Enabled env s e →
      (e = .ingest (.spawn id) ∨ e = .stop) ∨ Serving (next env s e) := by
    intro s e _ hs he
    by_cases hstop : e = .stop
    · exact Or.inl (Or.inr hstop)
    · exact Or.inr (serving_next hs he hstop)
  obtain ⟨l, hl, hsl, hspawn | hstop⟩ := ρ.stays_until hkept hready hserving
    (ingest_never_starves ρ h₀ hingest hserving.running hid)
  swap
  · exact ⟨l, hl, Or.inl hstop⟩
  have hsl' : Serving (ρ.state (l + 1)) := by
    rw [ρ.step l]
    exact serving_next hsl (ρ.enabled l) (by simp [hspawn])
  have hpooled : Behind (ρ.state l).proc.pool.length id (ρ.state (l + 1)) := by
    rw [ρ.step l, hspawn]
    exact ⟨[], _, rfl, rfl⟩
  obtain ⟨m, hm, hsm, ⟨i, hbegin⟩ | hstop⟩ := closure_begins ρ h₀ hpool hworker horder hsl'
    hpooled
  swap
  · exact ⟨m, hl.trans (Nat.le_of_succ_le hm), Or.inl hstop⟩
  have hsm' : Serving (ρ.state (m + 1)) := by
    rw [ρ.step m]
    exact serving_next hsm (ρ.enabled m) (by simp [hbegin])
  refine ⟨m, hl.trans (Nat.le_of_succ_le hm), Or.inr ⟨hsm', i, ?_⟩⟩
  rw [ρ.step m, hbegin]
  exact Function.update_self ..

/-- Nothing gets lost in the git stage. In a process that has found the trees of its workers
empty, and none of whose loops and threads is kept from its steps, every series in "needs
testing" is taken, waits for its turn in the pool, and leaves a worker, done or failed, unless
the process stops. -/
theorem git_stage_drains (ρ : (machine env).Run s₀) (h₀ : Initial s₀)
    (hingest : ρ.Fair IsIngest) (hpool : ρ.Fair IsBegin) (hworkers : ∀ i, ρ.Fair (IsWorker i))
    (horder : ∀ n, InOrder (ρ.state n) (ρ.event n)) {n : ℕ}
    (hfound : FoundClean env s₀ ((List.range n).map ρ.event))
    (hrun : (ρ.state n).proc.main ≠ .off) {id : SeriesId}
    (hid : id ∈ (ρ.state n).db.series .needsTesting) :
    ∃ m, n ≤ m ∧ Leaves id (ρ.event m) := by
  obtain ⟨m, hm, hstop | ⟨hserving, i, hthread⟩⟩ :=
    series_begins ρ h₀ hingest hpool (hworkers 0) horder
      (serving_of_found (ρ.execution n) h₀ hfound hrun) hid
  · exact ⟨m, hm, 0, Or.inr (Or.inr hstop)⟩
  · obtain ⟨o, ho, hends⟩ := task_returns ρ h₀ (hworkers i) hthread (hserving.clear hthread)
    exact ⟨o, hm.trans (Nat.le_of_succ_le ho), i, hends⟩

/-- The sample series goes through the git stage, and ingest goes to sleep. -/
def stageTrace : List Event :=
  (Sample.boot ++ Sample.discover ++ Sample.ingest) ++ (Sample.gitWork ++
    [.ingest .ends, .ingest (.wait .register), .ingest (.wait .sleep)])

theorem stageTrace_runs : (machine Sample.env).Runs Sample.state stageTrace := by
  obtain ⟨hready, hwork⟩ := Machine.runs_append.mp (Machine.runs_append.mp Sample.runs).1
  refine Machine.runs_append.mpr ⟨hready, Machine.runs_append.mpr ⟨hwork, ⟨_, rfl, ?_⟩,
    ⟨_, rfl, rfl⟩, ⟨_, rfl, ?_, _, rfl⟩, trivial⟩⟩
  all_goals exact of_decide_eq_true rfl

theorem inOrder_of_ne_begin {e : Event} (h : ∀ i id, e ≠ .begin i id) : InOrder s e := by
  cases e with
  | begin i id => exact absurd rfl (h i id)
  | _ => trivial

theorem sample_inOrder {rest : List Event}
    (hruns : (machine Sample.env).Runs Sample.state
      ((Sample.boot ++ Sample.discover ++ Sample.ingest) ++ (Sample.gitWork ++ rest)))
    (hrest : ∀ e ∈ rest, ∀ i id, e ≠ .begin i id) :
    ((machine Sample.env).restrict InOrder).Runs Sample.state
      ((Sample.boot ++ Sample.discover ++ Sample.ingest) ++ (Sample.gitWork ++ rest)) := by
  obtain ⟨hready, hwork⟩ := Machine.runs_append.mp hruns
  refine Machine.runs_append.mpr ⟨hready.restrict ?_, ⟨hwork.1, rfl⟩, hwork.2.restrict ?_⟩
  · simp [Sample.boot, Sample.discover, Sample.ingest, InOrder]
  · intro e he u
    rcases List.mem_append.mp he with he | he
    · exact inOrder_of_ne_begin fun i id heq => by
        subst heq
        simp at he
    · exact inOrder_of_ne_begin (hrest e he)

theorem git_stage_drains_sample : ∃ ρ : (machine Sample.env).Run Sample.state,
    (ρ.Fair IsIngest ∧ ρ.Fair IsBegin ∧ ∀ i, ρ.Fair (IsWorker i)) ∧
      ∃ m, 10 ≤ m ∧ Leaves Sample.id (ρ.event m) := by
  have hasleep : ((machine Sample.env).run Sample.state stageTrace).proc.ingest =
      .waiting (.blocked 0) := rfl
  have hpool : ((machine Sample.env).run Sample.state stageTrace).proc.pool = [] := rfl
  have hthread : ∀ i, ((machine Sample.env).run Sample.state stageTrace).proc.thread i = none
    | 0 => rfl
    | _ + 1 => rfl
  have hsame := moveMaster_same Sample.env ((machine Sample.env).run Sample.state stageTrace)
  have hingest := stageTrace_runs.fair_forever (A := IsIngest) (e := .moveMaster _) trivial hsame
    fun _ hown => ingest_asleep hasleep hown
  have hbegin := stageTrace_runs.fair_forever (A := IsBegin) (e := .moveMaster _) trivial hsame
    fun _ hown he => by
      obtain ⟨i, id, rfl⟩ := hown
      exact List.not_mem_nil (hpool ▸ he.2.2)
  have hworkers := fun i => stageTrace_runs.fair_forever (A := IsWorker i) (e := .moveMaster _)
    trivial hsame fun _ hown he => by
      obtain ⟨id, we, rfl, _⟩ := hown
      obtain ⟨pc, hi, _⟩ := he
      cases (hthread i).symm.trans hi
  have horder := stageTrace_runs.forever_restrict (sample_inOrder stageTrace_runs (by simp))
    (e := .moveMaster _) trivial hsame trivial
  refine ⟨_, ⟨hingest, hbegin, hworkers⟩, git_stage_drains _ Sample.state_initial hingest hbegin
    hworkers horder (fun i => ?_) (fun h => by cases h) ?_⟩
  · exact KvTree.isEmpty_iff.mpr fun _ => Finmap.notMem_empty
  · exact Finmap.mem_keys.mp (of_decide_eq_true rfl)

end Stage

end Snowpatch.WorkLiveness
