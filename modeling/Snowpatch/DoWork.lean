import Snowpatch.Database
import Snowpatch.Library.Machine

/-! One execution of `do_work` on a git worker, step by step against the live database
and repositories. A step may fail wherever the source has a `?`; what earlier steps did to
the worktree, the remotes and the queues then stays as it is. -/
namespace Snowpatch

structure GitTree where
  files : List (String × String)
  deriving DecidableEq, Repr

inductive Commit where
  | mk (tree : GitTree) (parents : List Commit) (message : String)

def Commit.tree : Commit → GitTree
  | .mk tree _ _ => tree

def Commit.parents : Commit → List Commit
  | .mk _ parents _ => parents

structure Mbox where
  text : String
  deriving DecidableEq, Repr

/-- A checkout with its own HEAD branch, index and files. -/
structure Worktree where
  head : Commit
  index : GitTree
  files : GitTree

structure GitWorld where
  master : Commit
  worktree : ℕ → Worktree
  refs : String → String → Option Commit

namespace GitWorld

def setWorktree (g : GitWorld) (i : ℕ) (w : Worktree) : GitWorld :=
  { g with worktree := Function.update g.worktree i w }

def setRef (g : GitWorld) (remote branch : String) (c : Commit) : GitWorld :=
  { g with
    refs := Function.update g.refs remote
      (Function.update (g.refs remote) branch (some c)) }

theorem setRef_refs (g : GitWorld) (remote branch r b : String) (c : Commit) :
    (g.setRef remote branch c).refs r b =
      if r = remote ∧ b = branch then some c else g.refs r b := by
  by_cases hr : r = remote
  · subst hr
    by_cases hb : b = branch <;> simp [setRef, hb]
  · simp [setRef, hr]

end GitWorld

def remoteBranch (localBranch : String) : String := "snowpatch/" ++ localBranch

namespace DoWork

inductive Pc where
  | opening
  | resetting
  | reading
  | downloading (mbox : Url)
  | applying (mbox : Mbox)
  | fallback (mbox : Mbox)
  | reopening
  | committing
  | listing (leaf : KvTree.Leaf String String) (cursor : WithBot String)
      (runners : List (String × String))
  | pushing (runners : List (String × String))
  | queueing (remote runner : String) (rest : List (String × String))
  | returned (ok : Bool)

/-- The positions whose step can return an error. A failed libgit2 application does not:
the binary is tried instead. -/
def Pc.Fallible : Pc → Prop
  | .opening | .resetting | .reading | .downloading _ | .fallback _ | .reopening
  | .committing => True
  | .pushing runners => runners ≠ []
  | .applying _ | .listing _ _ _ | .queueing _ _ _ | .returned _ => False

inductive Event where
  | openRepo
  | reset (target : Commit)
  | resetFails (left : Worktree)
  | readUrl (mbox : Url)
  | download (mbox : Mbox)
  | applyToRepo
  | applyFails
  | binaryApply
  | reopen
  | commit
  | readRemotes (leaf : KvTree.Leaf String String) (found : Bool)
  | nextRunner (remote runner : String)
  | listed
  | push (remote : String)
  | notFastForward (remote : String)
  | pushBreaks (remote : String) (updated : Bool)
  | queue (remote runner : String)
  | finish
  | fail

structure State where
  db : Db
  git : GitWorld
  pc : Pc

variable (apply : Mbox → GitTree → Option GitTree) (i : ℕ) (id : SeriesId)

/-- Both locations take the patch, the index and the working tree. -/
def Applies (mbox : Mbox) (w : Worktree) : Prop :=
  (apply mbox w.index).isSome ∧ (apply mbox w.files).isSome

def applied (mbox : Mbox) (w : Worktree) : Worktree :=
  { w with index := (apply mbox w.index).getD w.index
           files := (apply mbox w.files).getD w.files }

def HasKeys (db : Db) : Prop := db.sshPublicKeyPath.isSome ∧ db.sshPrivateKeyPath.isSome

def commitMessage (urlPrefix : String) : String :=
  "From patchwork series " ++ id.toDecimal ++ "\n\n" ++ urlPrefix ++ id.toDecimal

/-- The commit on HEAD: the tree of the index and the single parent HEAD. -/
def newCommit (db : Db) (w : Worktree) : Commit :=
  .mk w.index [w.head] (commitMessage id (db.patchworkSeriesLinkPrefix.getD ""))

def Enabled (s : State) : Event → Prop
  | .openRepo => s.pc = .opening
  | .reset target => s.pc = .resetting ∧ target = s.git.master
  | .resetFails _ => s.pc = .resetting
  | .readUrl mbox => s.pc = .reading ∧
      Finmap.lookup id (s.db.series (.gitWorker i)) = some mbox
  | .download _ => ∃ url, s.pc = .downloading url
  | .applyToRepo => ∃ mbox, s.pc = .applying mbox ∧ Applies apply mbox (s.git.worktree i)
  | .applyFails => ∃ mbox, s.pc = .applying mbox
  | .binaryApply => ∃ mbox, s.pc = .fallback mbox ∧ Applies apply mbox (s.git.worktree i)
  | .reopen => s.pc = .reopening
  | .commit => s.pc = .committing ∧ s.db.patchworkSeriesLinkPrefix.isSome
  | .readRemotes leaf' found => ∃ leaf cursor runners, s.pc = .listing leaf cursor runners ∧
      leaf.Reads s.db.remotesToPushTo cursor leaf' found
  | .nextRunner remote runner => ∃ leaf cursor runners, s.pc = .listing leaf cursor runners ∧
      leaf.next cursor = (remote : WithTop String) ∧
      Finmap.lookup remote leaf.entries = some runner
  | .listed => ∃ leaf cursor runners, s.pc = .listing leaf cursor runners ∧
      leaf.Ends s.db.remotesToPushTo cursor
  | .push remote => ∃ runner rest, s.pc = .pushing ((remote, runner) :: rest) ∧ HasKeys s.db
  | .notFastForward remote => ∃ runner rest, s.pc = .pushing ((remote, runner) :: rest) ∧
      HasKeys s.db ∧ (s.git.refs remote (remoteBranch id.toDecimal)).isSome
  | .pushBreaks remote _ => ∃ runner rest, s.pc = .pushing ((remote, runner) :: rest) ∧
      HasKeys s.db
  | .queue remote runner => ∃ rest, s.pc = .queueing remote runner rest
  | .finish => s.pc = .pushing []
  | .fail => s.pc.Fallible

def nextPc (pc : Pc) : Event → Pc
  | .openRepo => .resetting
  | .reset _ => .reading
  | .resetFails _ => .returned false
  | .readUrl mbox => .downloading mbox
  | .download mbox => .applying mbox
  | .applyToRepo => .committing
  | .applyFails => match pc with
    | .applying mbox => .fallback mbox
    | pc => pc
  | .binaryApply => .reopening
  | .reopen => .committing
  | .commit => .listing .start ⊥ []
  | .readRemotes leaf _ => match pc with
    | .listing _ cursor runners => .listing leaf cursor runners
    | pc => pc
  | .nextRunner remote runner => match pc with
    | .listing leaf _ runners => .listing leaf remote (runners ++ [(remote, runner)])
    | pc => pc
  | .listed => match pc with
    | .listing _ _ runners => .pushing runners
    | pc => pc
  | .push _ | .notFastForward _ => match pc with
    | .pushing ((remote, runner) :: rest) => .queueing remote runner rest
    | pc => pc
  | .queue _ _ => match pc with
    | .queueing _ _ rest => .pushing rest
    | pc => pc
  | .finish => .returned true
  | .pushBreaks _ _ | .fail => .returned false

/-- What an event does to the repositories. A rejected push leaves the remote alone;
another push error may come after the remote has already taken the commit. Remotes are taken
to accept what is pushed: `push` is Ok in libgit2 also where the remote refuses the branch. -/
def nextGit (s : State) : Event → GitWorld
  | .reset target => s.git.setWorktree i ⟨target, target.tree, target.tree⟩
  | .resetFails left => s.git.setWorktree i left
  | .applyToRepo | .binaryApply => match s.pc with
    | .applying mbox | .fallback mbox =>
      s.git.setWorktree i (applied apply mbox (s.git.worktree i))
    | _ => s.git
  | .commit => s.git.setWorktree i
      { s.git.worktree i with head := newCommit id s.db (s.git.worktree i) }
  | .push remote =>
    s.git.setRef remote (remoteBranch id.toDecimal) (s.git.worktree i).head
  | .pushBreaks remote updated =>
    if updated then s.git.setRef remote (remoteBranch id.toDecimal) (s.git.worktree i).head
    else s.git
  | _ => s.git

/-- The only write to the database: the id enters the queue of the remote's runner. -/
def nextDb (db : Db) : Event → Db
  | .queue _ runner => db.insertBranch (.queue runner) id.toDecimal "new"
  | _ => db

def next (s : State) (e : Event) : State :=
  ⟨nextDb id s.db e, nextGit apply i id s e, nextPc s.pc e⟩

theorem nextDb_series (db : Db) (e : Event) : (nextDb id db e).series = db.series := by
  cases e <;> rfl

theorem nextDb_seen (db : Db) (e : Event) :
    (nextDb id db e).seenByWatchcat = db.seenByWatchcat := by
  cases e <;> rfl

def Pc.SetUp : Pc → Prop
  | .opening | .resetting | .reading | .downloading _ | .applying _ | .fallback _
  | .reopening | .committing => True
  | .listing _ _ _ | .pushing _ | .queueing _ _ _ | .returned _ => False

/-- An event that neither pushes nor queues. A push that breaks is no push. -/
def Event.Silent : Event → Prop
  | .push _ | .notFastForward _ | .queue _ _ => False
  | .openRepo | .reset _ | .resetFails _ | .readUrl _ | .download _ | .applyToRepo
  | .applyFails | .binaryApply | .reopen | .commit | .readRemotes _ _ | .nextRunner _ _ | .listed
  | .pushBreaks _ _ | .finish | .fail => True

/-- How a `do_work` gets on, seen from its positions: the commit is set up, the remotes are
listed, and for each of them a push is followed by an insert. Errors end the set-up or come
at a remote that breaks. -/
inductive Moves (db : Db) : Pc → Event → Pc → Prop where
  | setUp {pc pc' e} : pc.SetUp → e.Silent → pc'.SetUp → Moves db pc e pc'
  | fail {pc e} : pc.SetUp → e.Silent → Moves db pc e (.returned false)
  | commit : Moves db .committing .commit (.listing .start ⊥ [])
  | readRemotes {leaf leaf' cursor runners found} :
      leaf.Reads db.remotesToPushTo cursor leaf' found →
      Moves db (.listing leaf cursor runners) (.readRemotes leaf' found)
        (.listing leaf' cursor runners)
  | nextRunner {leaf cursor runners} {remote runner : String} :
      leaf.next cursor = (remote : WithTop String) →
      Finmap.lookup remote leaf.entries = some runner →
      Moves db (.listing leaf cursor runners) (.nextRunner remote runner)
        (.listing leaf remote (runners ++ [(remote, runner)]))
  | listed {leaf cursor runners} : leaf.Ends db.remotesToPushTo cursor →
      Moves db (.listing leaf cursor runners) .listed (.pushing runners)
  | push {remote runner rest e} : e = .push remote ∨ e = .notFastForward remote →
      Moves db (.pushing ((remote, runner) :: rest)) e (.queueing remote runner rest)
  | queue {remote runner rest} :
      Moves db (.queueing remote runner rest) (.queue remote runner) (.pushing rest)
  | breaks {remote runner rest e} : e = .fail ∨ (∃ updated, e = .pushBreaks remote updated) →
      Moves db (.pushing ((remote, runner) :: rest)) e (.returned false)
  | finish : Moves db (.pushing []) .finish (.returned true)

theorem moves {apply : Mbox → GitTree → Option GitTree} {i : ℕ} {id : SeriesId} {db : Db}
    {git : GitWorld} {pc : Pc} {e : Event} (he : Enabled apply i id ⟨db, git, pc⟩ e) :
    Moves db pc e (nextPc pc e) := by
  cases e with
  | openRepo =>
    obtain rfl : pc = .opening := he
    exact .setUp trivial trivial trivial
  | reset =>
    obtain ⟨rfl, _⟩ := he
    exact .setUp trivial trivial trivial
  | resetFails =>
    obtain rfl : pc = .resetting := he
    exact .fail trivial trivial
  | readUrl =>
    obtain ⟨rfl, _⟩ := he
    exact .setUp trivial trivial trivial
  | download | applyFails =>
    obtain ⟨_, rfl⟩ := he
    exact .setUp trivial trivial trivial
  | applyToRepo | binaryApply =>
    obtain ⟨_, rfl, _⟩ := he
    exact .setUp trivial trivial trivial
  | reopen =>
    obtain rfl : pc = .reopening := he
    exact .setUp trivial trivial trivial
  | commit =>
    obtain ⟨rfl, _⟩ := he
    exact .commit
  | readRemotes =>
    obtain ⟨_, _, _, rfl, hreads⟩ := he
    exact .readRemotes hreads
  | nextRunner =>
    obtain ⟨_, _, _, rfl, hnext, hlookup⟩ := he
    exact .nextRunner hnext hlookup
  | listed =>
    obtain ⟨_, _, _, rfl, hend⟩ := he
    exact .listed hend
  | push =>
    obtain ⟨_, _, rfl, _⟩ := he
    exact .push (Or.inl rfl)
  | notFastForward =>
    obtain ⟨_, _, rfl, _⟩ := he
    exact .push (Or.inr rfl)
  | queue =>
    obtain ⟨_, rfl⟩ := he
    exact .queue
  | pushBreaks _ updated =>
    obtain ⟨_, _, rfl, _⟩ := he
    exact .breaks (Or.inr ⟨updated, rfl⟩)
  | finish =>
    obtain rfl : pc = .pushing [] := he
    exact .finish
  | fail =>
    have hfallible : pc.Fallible := he
    match pc with
    | .pushing [] => exact absurd rfl hfallible
    | .pushing (_ :: _) => exact .breaks (Or.inl rfl)
    | .opening | .resetting | .reading | .downloading _ | .fallback _ | .reopening
    | .committing => exact .fail trivial trivial

def Pc.runners : Pc → List (String × String)
  | .listing _ _ runners | .pushing runners => runners
  | .queueing remote runner rest => (remote, runner) :: rest
  | .opening | .resetting | .reading | .downloading _ | .applying _ | .fallback _
  | .reopening | .committing | .returned _ => []

theorem Pc.SetUp.runners {pc : Pc} (h : pc.SetUp) : pc.runners = [] := by
  cases pc with
  | listing | pushing | queueing | returned => exact h.elim
  | _ => rfl

theorem mem_runners_nextPc {apply : Mbox → GitTree → Option GitTree} {i : ℕ} {id : SeriesId}
    {s : State} {e : Event} (he : Enabled apply i id s e) {p : String × String}
    (hp : p ∈ (nextPc s.pc e).runners) : p ∈ s.pc.runners ∨ e = .nextRunner p.1 p.2 := by
  have hmoves := moves he
  generalize nextPc s.pc e = pc' at hmoves hp
  generalize s.pc = pc at hmoves ⊢
  cases hmoves with
  | setUp _ _ hpc' =>
    rw [hpc'.runners] at hp
    cases hp
  | fail | breaks | commit | finish => cases hp
  | nextRunner _ _ =>
    rcases List.mem_append.mp hp with hp | hp
    · exact Or.inl hp
    · rw [List.mem_singleton.mp hp]
      exact Or.inr rfl
  | readRemotes _ | listed _ | push _ => exact Or.inl hp
  | queue => exact Or.inl (List.mem_cons_of_mem _ hp)

theorem leaf_cases {apply : Mbox → GitTree → Option GitTree} {i : ℕ} {id : SeriesId}
    {s : State} {e : Event} (he : Enabled apply i id s e) {leaf : KvTree.Leaf String String}
    {cursor : WithBot String} {runners : List (String × String)}
    (h : nextPc s.pc e = .listing leaf cursor runners) : leaf = .start ∨
      (∃ cursor' runners', s.pc = .listing leaf cursor' runners') ∨
      ∃ old found, e = .readRemotes leaf found ∧ s.pc = .listing old cursor runners ∧
        old.Reads s.db.remotesToPushTo cursor leaf found := by
  have hmoves := moves he
  rw [h] at hmoves
  generalize s.pc = pc at hmoves ⊢
  cases hmoves with
  | setUp _ _ hpc' => exact hpc'.elim
  | commit => exact Or.inl rfl
  | readRemotes hreads => exact Or.inr (Or.inr ⟨_, _, rfl, rfl, hreads⟩)
  | nextRunner => exact Or.inr (Or.inl ⟨_, _, rfl⟩)

theorem eq_finish_of_returned {apply : Mbox → GitTree → Option GitTree} {i : ℕ}
    {id : SeriesId} {s : State} {e : Event} (he : Enabled apply i id s e)
    (h : nextPc s.pc e = .returned true) : e = .finish := by
  have hmoves := moves he
  rw [h] at hmoves
  generalize s.pc = pc at hmoves
  cases hmoves with
  | setUp _ _ hpc' => exact hpc'.elim
  | finish => rfl

end DoWork

end Snowpatch
