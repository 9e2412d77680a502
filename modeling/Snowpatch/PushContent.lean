import Snowpatch.DoWork

/-! What the branch of a queued series holds, over any sequence of `do_work` executions.
Any worktree may run any series again after any failure or process stop; master moves and
the database changes at will in between. Only `do_work` writes `snowpatch/*` branches. -/
namespace Snowpatch.PushContent

structure State where
  db : Db
  git : GitWorld
  task : ℕ → Option (SeriesId × DoWork.Pc)

/-- `abandon` is a return of `do_work` or the end of its process, at any position. -/
inductive Event where
  | begin (i : ℕ) (id : SeriesId)
  | work (i : ℕ) (id : SeriesId) (e : DoWork.Event)
  | abandon (i : ℕ)
  | moveMaster (target : Commit)
  | changeDb (db : Db)

variable (apply : Mbox → GitTree → Option GitTree)

def Enabled (s : State) : Event → Prop
  | .begin i _ => s.task i = none
  | .work i id e => ∃ pc, s.task i = some (id, pc) ∧
      DoWork.Enabled apply i id ⟨s.db, s.git, pc⟩ e
  | .abandon _ | .moveMaster _ | .changeDb _ => True

def next (s : State) : Event → State
  | .begin i id => { s with task := Function.update s.task i (some (id, .opening)) }
  | .work i id e => match s.task i with
    | some (_, pc) =>
      let r := DoWork.next apply i id ⟨s.db, s.git, pc⟩ e
      ⟨r.db, r.git, Function.update s.task i (some (id, r.pc))⟩
    | none => s
  | .abandon i => { s with task := Function.update s.task i none }
  | .moveMaster target => { s with git := { s.git with master := target } }
  | .changeDb db => { s with db := db }

def machine : Machine State Event := ⟨Enabled apply, next apply⟩

/-- Before the first push: the worktrees, master and the database may be anything. -/
structure Fresh (s : State) : Prop where
  idle : ∀ i, s.task i = none
  no_branch : ∀ remote branch, s.git.refs remote branch = none

def ResetTo (tr : List Event) (id : SeriesId) (base : Commit) : Prop :=
  ∃ i, Event.work i id (.reset base) ∈ tr

def Downloaded (tr : List Event) (id : SeriesId) (mbox : Mbox) : Prop :=
  ∃ i, Event.work i id (.download mbox) ∈ tr

/-- The commit is the mbox of this series on top of one base and has nothing else in it. -/
def IsSubmission (tr : List Event) (id : SeriesId) (c : Commit) : Prop :=
  ∃ base mbox, c.parents = [base] ∧ ResetTo tr id base ∧ Downloaded tr id mbox ∧
    apply mbox base.tree = some c.tree

def Clean (tr : List Event) (id : SeriesId) (w : Worktree) : Prop :=
  ∃ base, w = ⟨base, base.tree, base.tree⟩ ∧ ResetTo tr id base

def Patched (tr : List Event) (id : SeriesId) (w : Worktree) : Prop :=
  ∃ mbox, ResetTo tr id w.head ∧ Downloaded tr id mbox ∧
    apply mbox w.head.tree = some w.index

/-- What a worktree holds at each position between the reset and the return. -/
def Holds (tr : List Event) (g : GitWorld) (i : ℕ) (id : SeriesId) : DoWork.Pc → Prop
  | .reading | .downloading _ => Clean tr id (g.worktree i)
  | .applying mbox | .fallback mbox => Clean tr id (g.worktree i) ∧ Downloaded tr id mbox
  | .reopening | .committing => Patched apply tr id (g.worktree i)
  | .listing _ _ _ | .pushing _ => IsSubmission apply tr id (g.worktree i).head
  | .queueing remote _ _ => IsSubmission apply tr id (g.worktree i).head ∧
      ∃ c, g.refs remote (remoteBranch id.toDecimal) = some c ∧ IsSubmission apply tr id c
  | .opening | .resetting | .returned _ => True

structure Invariant (tr : List Event) (s : State) : Prop where
  refs : ∀ remote branch c, s.git.refs remote branch = some c →
    ∃ id, branch = remoteBranch id.toDecimal ∧ IsSubmission apply tr id c
  tasks : ∀ i id pc, s.task i = some (id, pc) → Holds apply tr s.git i id pc

variable {apply}

theorem remoteBranch_injective : Function.Injective remoteBranch := by
  intro a b h
  have hl := congrArg String.toList h
  simp only [remoteBranch, String.toList_append, List.append_cancel_left_eq] at hl
  exact String.toList_inj.mp hl

section Monotone

variable {tr : List Event} {id : SeriesId}

theorem ResetTo.append {base : Commit} (h : ResetTo tr id base) (e : Event) :
    ResetTo (tr ++ [e]) id base := by
  obtain ⟨i, hi⟩ := h
  exact ⟨i, List.mem_append_left _ hi⟩

theorem Downloaded.append {mbox : Mbox} (h : Downloaded tr id mbox) (e : Event) :
    Downloaded (tr ++ [e]) id mbox := by
  obtain ⟨i, hi⟩ := h
  exact ⟨i, List.mem_append_left _ hi⟩

theorem IsSubmission.append {c : Commit} (h : IsSubmission apply tr id c) (e : Event) :
    IsSubmission apply (tr ++ [e]) id c := by
  obtain ⟨base, mbox, hp, hr, hd, ha⟩ := h
  exact ⟨base, mbox, hp, hr.append e, hd.append e, ha⟩

theorem Clean.append {w : Worktree} (h : Clean tr id w) (e : Event) :
    Clean (tr ++ [e]) id w := by
  obtain ⟨base, hw, hr⟩ := h
  exact ⟨base, hw, hr.append e⟩

theorem Patched.append {w : Worktree} (h : Patched apply tr id w) (e : Event) :
    Patched apply (tr ++ [e]) id w := by
  obtain ⟨mbox, hr, hd, ha⟩ := h
  exact ⟨mbox, hr.append e, hd.append e, ha⟩

theorem Holds.append {g : GitWorld} {i : ℕ} {pc : DoWork.Pc} (h : Holds apply tr g i id pc)
    (e : Event) : Holds apply (tr ++ [e]) g i id pc := by
  cases pc with
  | opening | resetting | returned => trivial
  | reading | downloading => exact Clean.append h e
  | applying | fallback => exact ⟨h.1.append e, h.2.append e⟩
  | reopening | committing => exact Patched.append h e
  | listing | pushing => exact IsSubmission.append h e
  | queueing =>
    obtain ⟨hh, c, hc, hs⟩ := h
    exact ⟨hh.append e, c, hc, hs.append e⟩

end Monotone

theorem Clean.applied {tr : List Event} {id : SeriesId} {w : Worktree} {mbox : Mbox}
    (h : Clean tr id w) (hd : Downloaded tr id mbox) (ha : DoWork.Applies apply mbox w) :
    Patched apply tr id (DoWork.applied apply mbox w) := by
  obtain ⟨base, rfl, hr⟩ := h
  refine ⟨mbox, hr, hd, ?_⟩
  exact (Option.some_get ha.1).symm.trans (congrArg some (Option.get_eq_getD ..))

theorem Patched.newCommit {tr : List Event} {id : SeriesId} {w : Worktree}
    (h : Patched apply tr id w) (db : Db) :
    IsSubmission apply tr id (DoWork.newCommit id db w) := by
  obtain ⟨mbox, hr, hd, ha⟩ := h
  exact ⟨w.head, mbox, rfl, hr, hd, ha⟩

theorem nextGit_worktree_ne {i j : ℕ} (hij : j ≠ i) (id : SeriesId) (d : DoWork.State)
    (e : DoWork.Event) : (DoWork.nextGit apply i id d e).worktree j = d.git.worktree j := by
  unfold DoWork.nextGit
  split <;> try split
  all_goals first
    | rfl
    | simp [GitWorld.setWorktree, hij]

theorem nextGit_refs {i : ℕ} {id : SeriesId} {d : DoWork.State} {e : DoWork.Event}
    {remote branch : String} {c : Commit}
    (h : (DoWork.nextGit apply i id d e).refs remote branch = some c) :
    d.git.refs remote branch = some c ∨ branch = remoteBranch id.toDecimal ∧
      c = (d.git.worktree i).head ∧ (∃ r, e = .push r ∨ ∃ u, e = .pushBreaks r u) := by
  unfold DoWork.nextGit at h
  split at h <;> try split at h
  all_goals try exact Or.inl h
  all_goals
    rw [GitWorld.setRef_refs] at h
    split at h
    · next hr => exact Or.inr ⟨hr.2, (Option.some.inj h).symm, hr.1 ▸ ⟨remote, by simp [hr.1]⟩⟩
    · exact Or.inl h

theorem nextGit_refs_ne_none {i : ℕ} {id : SeriesId} {d : DoWork.State} {e : DoWork.Event}
    {remote branch : String} {c : Commit} (h : d.git.refs remote branch = some c) :
    (DoWork.nextGit apply i id d e).refs remote branch ≠ none := by
  unfold DoWork.nextGit
  split <;> try split
  all_goals first
    | rw [GitWorld.setRef_refs]; split <;> simp [h]
    | simp [GitWorld.setWorktree, h]

/-- Where `do_work` pushes from, the worktree's head is the submission. -/
theorem head_of_push {tr : List Event} {i : ℕ} {id : SeriesId} {d : DoWork.State}
    {e : DoWork.Event} (he : DoWork.Enabled apply i id d e)
    (hh : Holds apply tr d.git i id d.pc) (hp : ∃ r, e = .push r ∨ ∃ u, e = .pushBreaks r u) :
    IsSubmission apply tr id (d.git.worktree i).head := by
  obtain ⟨r, rfl | ⟨u, rfl⟩⟩ := hp
  · obtain ⟨runner, rest, hpc, _⟩ := he
    rw [hpc] at hh
    exact hh
  · obtain ⟨runner, rest, hpc, _⟩ := he
    rw [hpc] at hh
    exact hh

theorem Holds.of_frame {tr : List Event} {g g' : GitWorld} {i : ℕ} {id : SeriesId}
    {pc : DoWork.Pc} (h : Holds apply tr g i id pc) (hw : g'.worktree i = g.worktree i)
    (hrefs : ∀ remote c, g.refs remote (remoteBranch id.toDecimal) = some c →
      ∃ c', g'.refs remote (remoteBranch id.toDecimal) = some c' ∧
        (c' = c ∨ IsSubmission apply tr id c')) : Holds apply tr g' i id pc := by
  cases pc with
  | opening | resetting | returned => trivial
  | reading | downloading | applying | fallback | reopening | committing | listing | pushing =>
    simpa only [Holds, hw] using h
  | queueing remote =>
    obtain ⟨hh, c, hc, hs⟩ := h
    obtain ⟨c', hc', hcc⟩ := hrefs remote c hc
    refine ⟨hw ▸ hh, c', hc', ?_⟩
    exact hcc.elim (fun heq => heq ▸ hs) fun hs' => hs'

theorem holds_work {tr : List Event} {i : ℕ} {id : SeriesId} {d : DoWork.State}
    {e : DoWork.Event} (he : DoWork.Enabled apply i id d e)
    (hrefs : ∀ remote branch c, d.git.refs remote branch = some c →
      ∃ id, branch = remoteBranch id.toDecimal ∧ IsSubmission apply tr id c)
    (hh : Holds apply tr d.git i id d.pc) :
    Holds apply (tr ++ [.work i id e]) (DoWork.nextGit apply i id d e) i id
      (DoWork.nextPc d.pc e) := by
  have grown := hh.append (.work i id e)
  cases e with
  | openRepo | resetFails | finish | fail | pushBreaks => trivial
  | reset target =>
    refine ⟨target, ?_, i, by simp⟩
    simp [DoWork.nextGit, GitWorld.setWorktree]
  | readUrl url =>
    rw [he.1] at grown
    exact grown
  | download mbox =>
    obtain ⟨url, hpc⟩ := he
    rw [hpc] at grown
    exact ⟨grown, i, by simp⟩
  | applyToRepo | binaryApply =>
    obtain ⟨mbox, hpc, ha⟩ := he
    rw [hpc] at grown
    have hp := grown.1.applied grown.2 ha
    simpa [DoWork.nextGit, DoWork.nextPc, hpc, Holds, GitWorld.setWorktree] using hp
  | applyFails =>
    obtain ⟨mbox, hpc⟩ := he
    rw [hpc] at grown
    simpa [DoWork.nextGit, DoWork.nextPc, hpc, Holds] using grown
  | reopen =>
    have hpc : d.pc = .reopening := he
    rw [hpc] at grown
    exact grown
  | commit =>
    rw [he.1] at grown
    simpa [DoWork.nextGit, DoWork.nextPc, Holds, GitWorld.setWorktree] using
      Patched.newCommit grown d.db
  | readRemotes | nextRunner | listed =>
    obtain ⟨leaf, cursor, runners, hpc, _⟩ := he
    rw [hpc] at grown
    simpa [DoWork.nextGit, DoWork.nextPc, hpc, Holds] using grown
  | push remote =>
    obtain ⟨runner, rest, hpc, _⟩ := he
    rw [hpc] at grown
    simp only [DoWork.nextPc, hpc]
    refine ⟨grown, (d.git.worktree i).head, ?_, grown⟩
    simp [DoWork.nextGit, GitWorld.setRef]
  | notFastForward remote =>
    obtain ⟨runner, rest, hpc, _, hsome⟩ := he
    rw [hpc] at grown
    simp only [DoWork.nextPc, hpc]
    obtain ⟨c, hc⟩ := Option.isSome_iff_exists.mp hsome
    obtain ⟨a, ha, hs⟩ := hrefs _ _ c hc
    obtain rfl := SeriesId.toDecimal_injective (remoteBranch_injective ha)
    exact ⟨grown, c, hc, hs.append _⟩
  | queue remote runner =>
    obtain ⟨rest, hpc⟩ := he
    rw [hpc] at grown
    simpa [DoWork.nextGit, DoWork.nextPc, hpc, Holds] using grown.1

theorem invariant_work {tr : List Event} {s : State} {i : ℕ} {id : SeriesId}
    {e : DoWork.Event} (h : Invariant apply tr s) (he : Enabled apply s (.work i id e)) :
    Invariant apply (tr ++ [.work i id e]) (next apply s (.work i id e)) := by
  obtain ⟨pc, hpc, hen⟩ := he
  have hh := h.tasks i id pc hpc
  have hnext : next apply s (.work i id e) = ⟨DoWork.nextDb id s.db e,
      DoWork.nextGit apply i id ⟨s.db, s.git, pc⟩ e,
      Function.update s.task i (some (id, DoWork.nextPc pc e))⟩ := by
    simp [next, hpc, DoWork.next]
  rw [hnext]
  constructor
  · intro remote branch c hc
    rcases nextGit_refs hc with hold | ⟨hb, rfl, hp⟩
    · obtain ⟨a, ha, hs⟩ := h.refs _ _ c hold
      exact ⟨a, ha, hs.append _⟩
    · exact ⟨id, hb, (head_of_push hen hh hp).append _⟩
  · intro j a pc' hj
    by_cases hij : j = i
    · subst hij
      simp only [Function.update_self, Option.some.injEq, Prod.mk.injEq] at hj
      obtain ⟨rfl, rfl⟩ := hj
      exact holds_work hen h.refs hh
    · simp only [Function.update_of_ne hij] at hj
      refine ((h.tasks j a pc' hj).of_frame (nextGit_worktree_ne hij id _ e) ?_).append _
      intro remote c hc
      cases hn : (DoWork.nextGit apply i id ⟨s.db, s.git, pc⟩ e).refs remote
          (remoteBranch a.toDecimal) with
      | none => exact absurd hn (nextGit_refs_ne_none hc)
      | some c' =>
        refine ⟨c', rfl, ?_⟩
        rcases nextGit_refs hn with hold | ⟨hb, rfl, hp⟩
        · exact Or.inl (Option.some.inj (hold.symm.trans hc))
        · obtain rfl := SeriesId.toDecimal_injective (remoteBranch_injective hb)
          exact Or.inr (head_of_push hen hh hp)

theorem invariant_fresh {s : State} (h : Fresh s) : Invariant apply [] s := by
  constructor
  · intro remote branch c hc
    rw [h.no_branch] at hc
    cases hc
  · intro i id pc hi
    rw [h.idle] at hi
    cases hi

theorem invariant_step {tr : List Event} {s : State} {e : Event}
    (h : Invariant apply tr s) (he : Enabled apply s e) :
    Invariant apply (tr ++ [e]) (next apply s e) := by
  have hrefs : ∀ remote branch c, s.git.refs remote branch = some c →
      ∃ id, branch = remoteBranch id.toDecimal ∧ IsSubmission apply (tr ++ [e]) id c := by
    intro remote branch c hc
    obtain ⟨id, hb, hs⟩ := h.refs _ _ c hc
    exact ⟨id, hb, hs.append e⟩
  cases e with
  | work i id e => exact invariant_work h he
  | begin i id =>
    refine ⟨hrefs, ?_⟩
    intro j a pc hj
    by_cases hij : j = i
    · subst hij
      simp only [next, Function.update_self, Option.some.injEq, Prod.mk.injEq] at hj
      obtain ⟨rfl, rfl⟩ := hj
      trivial
    · exact (h.tasks j a pc (by simpa [next, hij] using hj)).append _
  | abandon i =>
    refine ⟨hrefs, ?_⟩
    intro j a pc hj
    by_cases hij : j = i
    · subst hij
      simp [next] at hj
    · exact (h.tasks j a pc (by simpa [next, hij] using hj)).append _
  | moveMaster target =>
    refine ⟨hrefs, fun j a pc hj => ((h.tasks j a pc hj).of_frame rfl ?_).append _⟩
    exact fun remote c hc => ⟨c, hc, Or.inl rfl⟩
  | changeDb db => exact ⟨hrefs, fun j a pc hj => (h.tasks j a pc hj).append _⟩

theorem execution_invariant {s₀ s : State} {tr : List Event}
    (h : (machine apply).Execution s₀ tr s) (hs : Fresh s₀) : Invariant apply tr s :=
  h.history (invariant_fresh hs) fun _ _ _ _ hi he => invariant_step hi he

/-- The base was the tip of master when some `do_work` of this series reset to it. -/
def MasterAtReset (apply : Mbox → GitTree → Option GitTree) (s₀ : State) (tr : List Event)
    (id : SeriesId) (base : Commit) : Prop :=
  ∃ i pre post s, tr = pre ++ Event.work i id (.reset base) :: post ∧
    (machine apply).Execution s₀ pre s ∧ s.git.master = base

theorem ResetTo.masterAtReset {s₀ s : State} {tr : List Event} {id : SeriesId} {base : Commit}
    (h : ResetTo tr id base) (hx : (machine apply).Execution s₀ tr s) :
    MasterAtReset apply s₀ tr id base := by
  obtain ⟨i, hi⟩ := h
  obtain ⟨pre, post, u, htr, hpre, ⟨pc, _, hen⟩, _⟩ := hx.occurrence hi
  exact ⟨i, pre, post, u, htr, hpre, hen.2.symm⟩

/-- Whenever a series is queued, the branch on the remote just pushed to is its mbox, as
some `do_work` of it downloaded it, applied to what was then master, and nothing else. -/
theorem queued_branch_is_submission {s₀ s : State} {tr : List Event} {i : ℕ} {id : SeriesId}
    {remote runner : String} (h : (machine apply).Execution s₀ tr s) (hs : Fresh s₀)
    (he : Enabled apply s (.work i id (.queue remote runner))) :
    ∃ c base mbox, s.git.refs remote (remoteBranch id.toDecimal) = some c ∧
      c.parents = [base] ∧ MasterAtReset apply s₀ tr id base ∧ Downloaded tr id mbox ∧
      apply mbox base.tree = some c.tree := by
  obtain ⟨pc, hpc, rest, hq⟩ := he
  have hi := execution_invariant h hs
  have hh := hi.tasks i id pc hpc
  obtain rfl : pc = .queueing remote runner rest := hq
  obtain ⟨_, c, hc, base, mbox, hp, hr, hd, ha⟩ := hh
  exact ⟨c, base, mbox, hc, hp, hr.masterAtReset h, hd, ha⟩

/-- One series on worktree 0, up to the queueing of its branch. -/
def sampleRemotes : KvTree String String := Finmap.insert "origin" "github" ∅

def sampleEvents : List Event :=
  [.begin 0 ⟨300⟩, .work 0 ⟨300⟩ .openRepo, .work 0 ⟨300⟩ (.reset (.mk ⟨[]⟩ [] "master")),
    .work 0 ⟨300⟩ (.readUrl ⟨"mbox"⟩), .work 0 ⟨300⟩ (.download ⟨"diff"⟩),
    .work 0 ⟨300⟩ .applyToRepo, .work 0 ⟨300⟩ .commit,
    .work 0 ⟨300⟩ (.readRemotes (.whole sampleRemotes) true),
    .work 0 ⟨300⟩ (.nextRunner "origin" "github"), .work 0 ⟨300⟩ .listed,
    .work 0 ⟨300⟩ (.push "origin")]

def sampleDb : Db :=
  { (Db.empty.insertSeries (.gitWorker 0) ⟨300⟩ ⟨"mbox"⟩) with
    remotesToPushTo := sampleRemotes
    sshPrivateKeyPath := some "id"
    sshPublicKeyPath := some "id.pub"
    patchworkSeriesLinkPrefix := some "https://patchwork/" }

def sampleState : State :=
  ⟨sampleDb, ⟨.mk ⟨[]⟩ [] "master", fun _ => ⟨.mk ⟨[]⟩ [] "", ⟨[]⟩, ⟨[]⟩⟩, fun _ _ => none⟩,
    fun _ => none⟩

def sampleApply : Mbox → GitTree → Option GitTree :=
  fun mbox tree => some ⟨("mbox", mbox.text) :: tree.files⟩

theorem queued_branch_is_submission_sample :
    ∃ c base mbox, ((machine sampleApply).run sampleState sampleEvents).git.refs "origin"
        (remoteBranch (SeriesId.toDecimal ⟨300⟩)) = some c ∧ c.parents = [base] ∧
      MasterAtReset sampleApply sampleState sampleEvents ⟨300⟩ base ∧
      Downloaded sampleEvents ⟨300⟩ mbox ∧ sampleApply mbox base.tree = some c.tree := by
  have hruns : (machine sampleApply).Runs sampleState sampleEvents := by
    refine ⟨rfl, ⟨_, rfl, rfl⟩, ⟨_, rfl, rfl, rfl⟩, ⟨_, rfl, rfl, ?_⟩, ⟨_, rfl, _, rfl⟩,
      ⟨_, rfl, _, rfl, rfl, rfl⟩, ⟨_, rfl, rfl, rfl⟩,
      ⟨_, rfl, _, _, _, rfl, KvTree.Leaf.reads_whole ?_⟩, ⟨_, rfl, _, _, _, rfl, ?_, ?_⟩,
      ⟨_, rfl, _, _, _, rfl, ?_⟩, ⟨_, rfl, _, _, rfl, rfl, rfl⟩, trivial⟩
    all_goals decide
  have hfresh : Fresh sampleState := ⟨fun _ => rfl, fun _ _ => rfl⟩
  have hqueue : Enabled sampleApply ((machine sampleApply).run sampleState sampleEvents)
      (.work 0 ⟨300⟩ (.queue "origin" "github")) := ⟨_, rfl, [], rfl⟩
  exact queued_branch_is_submission hruns.execution hfresh hqueue

end Snowpatch.PushContent
