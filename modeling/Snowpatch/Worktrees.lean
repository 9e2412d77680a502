import Snowpatch.Library.Text
import Mathlib.Data.List.Infix
import Mathlib.Logic.Function.Basic

/-! The worktrees of the git workers: `init_worktrees` goes by the names that git has
registered, `do_work` by paths under the current workdir. What libgit2 does to a repository,
and which calls succeed, is a parameter; a call that fails ends `init_worktrees` with an error.
The pool has `n` threads, one worktree for each. -/
namespace Snowpatch.Worktrees

abbrev Path := List String

/-- What stands at a path: a checkout with a link to an entry of .git/worktrees of this
repository, anything else with a .git of its own, or neither. -/
inductive Dir where
  | checkout (worktree : String)
  | foreign
  | plain
  deriving DecidableEq, Repr

/-- An entry of .git/worktrees. Only one with all of its files is found by its name. -/
structure Admin where
  findable : Bool
  path : Path
  deriving DecidableEq, Repr

structure Repo where
  worktrees : String → Option Admin
  dirs : Path → Option Dir
  branches : String → Bool

def HasGit : Option Dir → Prop
  | some (.checkout _) | some .foreign => True
  | some .plain | none => False

instance : DecidablePred HasGit := fun dir =>
  match dir with
  | some (.checkout _) | some .foreign => isTrue trivial
  | some .plain | none => isFalse id

/-- The calls of `create_worktree` that can fail. -/
inductive Call where
  | prune
  | removeCheckout
  | removeDotgit
  | deleteBranch
  | addWorktree
  deriving DecidableEq, Repr

/-- `validates` is `validate` followed by `open_from_worktree`. -/
structure Git2 where
  succeeds : Call → Repo → String → Bool
  validates : String → Admin → Option Dir → Bool
  prune : Repo → String → Admin → Repo
  deleteBranch : Repo → String → Repo
  worktree : Repo → String → Path → Repo

namespace Repo

def findWorktree (r : Repo) (name : String) : Option Admin :=
  (r.worktrees name).filter Admin.findable

def removeDirAll (r : Repo) (path : Path) : Repo :=
  { r with dirs := fun q => if path.isPrefixOf q then none else r.dirs q }

def removeDotgit (r : Repo) (name : String) : Repo :=
  { r with worktrees := Function.update r.worktrees name none }

end Repo

/-- What is relied on of libgit2. Validation accepts a working checkout at the registered path
and nothing without a .git. With the flags of the source nothing keeps git from pruning, and the
working tree goes with the entry where a .git is found at its path. -/
structure Git2.Behaves (git : Git2) : Prop where
  validates_checkout : ∀ name admin, git.validates name admin (some (.checkout name)) = true
  hasGit_of_validates : ∀ name admin dir, git.validates name admin dir = true → HasGit dir
  prune_names : ∀ r name admin other, other ≠ name →
    (git.prune r name admin).worktrees other = r.worktrees other
  prune_removes : ∀ r name (admin : Admin) q, HasGit (r.dirs admin.path) → admin.path <+: q →
    (git.prune r name admin).dirs q = none
  prune_keeps : ∀ r name (admin : Admin) q, ¬ (HasGit (r.dirs admin.path) ∧ admin.path <+: q) →
    (git.prune r name admin).dirs q = r.dirs q
  deleteBranch_names : ∀ r name, (git.deleteBranch r name).worktrees = r.worktrees
  deleteBranch_dirs : ∀ r name, (git.deleteBranch r name).dirs = r.dirs
  worktree_registers : ∀ r name path, ((git.worktree r name path).findWorktree name).isSome
  worktree_names : ∀ r name path other, other ≠ name →
    (git.worktree r name path).worktrees other = r.worktrees other
  worktree_checkout : ∀ r name path,
    (git.worktree r name path).dirs path = some (.checkout name)
  worktree_below : ∀ r name path q, path <+: q → q ≠ path →
    ¬ HasGit ((git.worktree r name path).dirs q)
  worktree_keeps : ∀ r name path q, ¬ path <+: q →
    (git.worktree r name path).dirs q = r.dirs q

def worktreeName (i : ℕ) : String := "snowpatch" ++ Nat.repr i

def checkoutPath (workdir : Path) (i : ℕ) : Path := workdir ++ [worktreeName i]

section Model

variable (git : Git2) (workdir : Path)

def attempt (call : Call) (name : String) (r r' : Repo) : Option Repo :=
  if git.succeeds call r name then some r' else none

def pruneOld (name : String) (old : Option Admin) (r : Repo) : Option Repo :=
  match old with
  | some admin => attempt git .prune name r (git.prune r name admin)
  | none => some r

def removeCheckout (i : ℕ) (r : Repo) : Option Repo :=
  if (r.dirs (checkoutPath workdir i)).isSome then
    attempt git .removeCheckout (worktreeName i) r (r.removeDirAll (checkoutPath workdir i))
  else some r

def removeDotgit (name : String) (r : Repo) : Option Repo :=
  if (r.worktrees name).isSome then attempt git .removeDotgit name r (r.removeDotgit name)
  else some r

def deleteBranch (name : String) (r : Repo) : Option Repo :=
  if r.branches name then attempt git .deleteBranch name r (git.deleteBranch r name) else some r

def createWorktree (i : ℕ) (old : Option Admin) (r : Repo) : Option Repo :=
  (pruneOld git (worktreeName i) old r).bind fun r =>
  (removeCheckout git workdir i r).bind fun r =>
  (removeDotgit git (worktreeName i) r).bind fun r =>
  (deleteBranch git (worktreeName i) r).bind fun r =>
  attempt git .addWorktree (worktreeName i) r
    (git.worktree r (worktreeName i) (checkoutPath workdir i))

/-- A registered worktree stays where it is if it validates, wherever that is. -/
def initWorktree (r : Repo) (i : ℕ) : Option Repo :=
  match r.findWorktree (worktreeName i) with
  | some admin =>
    if git.validates (worktreeName i) admin (r.dirs admin.path) then some r
    else createWorktree git workdir i (some admin) r
  | none => createWorktree git workdir i none r

def initWorktrees (n : ℕ) (r : Repo) : Option Repo :=
  (List.range n).foldlM (initWorktree git workdir) r

end Model

/-- The path that `do_work` opens on thread `i` is a checkout of that thread's worktree. -/
def Found (workdir : Path) (r : Repo) (i : ℕ) : Prop :=
  r.dirs (checkoutPath workdir i) = some (.checkout (worktreeName i)) ∧
    (r.findWorktree (worktreeName i)).isSome

instance (workdir : Path) (r : Repo) (i : ℕ) : Decidable (Found workdir r i) :=
  inferInstanceAs (Decidable (_ ∧ _))

section Paths

variable {workdir : Path} {i j : ℕ}

theorem worktreeName_injective : Function.Injective worktreeName := by
  intro i j h
  exact Text.repr_injective (String.append_right_inj _ |>.mp h)

theorem eq_of_checkoutPath_below (h : checkoutPath workdir i <+: checkoutPath workdir j) :
    i = j := by
  have hlen : (checkoutPath workdir i).length = (checkoutPath workdir j).length := by
    simp [checkoutPath]
  have heq := h.eq_of_length hlen
  exact worktreeName_injective (List.singleton_inj.mp (List.append_cancel_left heq))

theorem checkoutPath_injective (workdir : Path) : Function.Injective (checkoutPath workdir) := by
  intro i j h
  have hp : checkoutPath workdir i <+: checkoutPath workdir j := by rw [h]
  exact eq_of_checkoutPath_below hp

theorem hasGit_of_found {r : Repo} (h : Found workdir r i) :
    HasGit (r.dirs (checkoutPath workdir i)) := by
  rw [h.1]
  exact trivial

end Paths

section Creation

variable {git : Git2} {workdir : Path} {r r' : Repo} {i : ℕ}

theorem eq_of_attempt {call : Call} {name : String} {s : Repo}
    (h : attempt git call name r s = some r') : r' = s := by
  unfold attempt at h
  split at h
  · exact (Option.some.inj h).symm
  · cases h

/-- The pruning reaches the path: it removes the directory of the old worktree. -/
def Pruned (r : Repo) (old : Option Admin) (p : Path) : Prop :=
  ∃ admin, old = some admin ∧ HasGit (r.dirs admin.path) ∧ admin.path <+: p

structure Leaves (workdir : Path) (i : ℕ) (r r' : Repo) : Prop where
  names : ∀ name, name ≠ worktreeName i → r'.worktrees name = r.worktrees name
  dirs : ∀ p, ¬ checkoutPath workdir i <+: p → r'.dirs p = r.dirs p

theorem Leaves.trans {r'' : Repo} (h : Leaves workdir i r r') (k : Leaves workdir i r' r'') :
    Leaves workdir i r r'' :=
  ⟨fun j hj => (k.names j hj).trans (h.names j hj), fun p hp => (k.dirs p hp).trans (h.dirs p hp)⟩

theorem leaves_removeCheckout (h : removeCheckout git workdir i r = some r') :
    Leaves workdir i r r' := by
  unfold removeCheckout at h
  split at h
  · obtain rfl := eq_of_attempt h
    exact ⟨fun _ _ => rfl, fun p hp => by simp [Repo.removeDirAll, hp]⟩
  · obtain rfl := Option.some.inj h
    exact ⟨fun _ _ => rfl, fun _ _ => rfl⟩

theorem leaves_removeDotgit (h : removeDotgit git (worktreeName i) r = some r') :
    Leaves workdir i r r' := by
  unfold removeDotgit at h
  split at h
  · obtain rfl := eq_of_attempt h
    exact ⟨fun _ hname => Function.update_of_ne hname _ _, fun _ _ => rfl⟩
  · obtain rfl := Option.some.inj h
    exact ⟨fun _ _ => rfl, fun _ _ => rfl⟩

theorem leaves_deleteBranch (hgit : git.Behaves)
    (h : deleteBranch git (worktreeName i) r = some r') : Leaves workdir i r r' := by
  unfold deleteBranch at h
  split at h
  · obtain rfl := eq_of_attempt h
    exact ⟨fun name _ => congrFun (hgit.deleteBranch_names r _) name,
      fun p _ => congrFun (hgit.deleteBranch_dirs r _) p⟩
  · obtain rfl := Option.some.inj h
    exact ⟨fun _ _ => rfl, fun _ _ => rfl⟩

theorem leaves_worktree (hgit : git.Behaves) : Leaves workdir i r
    (git.worktree r (worktreeName i) (checkoutPath workdir i)) :=
  ⟨fun name => hgit.worktree_names r _ _ name, fun p => hgit.worktree_keeps r _ _ p⟩

theorem pruneOld_spec (hgit : git.Behaves) {old : Option Admin}
    (h : pruneOld git (worktreeName i) old r = some r') :
    (∀ name, name ≠ worktreeName i → r'.worktrees name = r.worktrees name) ∧
      ∀ p, (Pruned r old p → r'.dirs p = none) ∧ (¬ Pruned r old p → r'.dirs p = r.dirs p) := by
  unfold pruneOld at h
  split at h
  · next admin =>
    obtain rfl := eq_of_attempt h
    refine ⟨hgit.prune_names r _ admin, fun p => ⟨?_, fun hp => ?_⟩⟩
    · rintro ⟨_, ⟨⟩, hg, hp⟩
      exact hgit.prune_removes r _ admin p hg hp
    · exact hgit.prune_keeps r _ admin p fun hg => hp ⟨admin, rfl, hg⟩
  · obtain rfl := Option.some.inj h
    refine ⟨fun _ _ => rfl, fun p => ⟨?_, fun _ => rfl⟩⟩
    rintro ⟨_, ⟨⟩, _⟩

structure Created (workdir : Path) (i : ℕ) (old : Option Admin) (r r' : Repo) : Prop where
  found : Found workdir r' i
  names : ∀ name, name ≠ worktreeName i → r'.worktrees name = r.worktrees name
  below : ∀ p, checkoutPath workdir i <+: p → p ≠ checkoutPath workdir i → ¬ HasGit (r'.dirs p)
  pruned : ∀ p, ¬ checkoutPath workdir i <+: p → Pruned r old p → r'.dirs p = none
  kept : ∀ p, ¬ checkoutPath workdir i <+: p → ¬ Pruned r old p → r'.dirs p = r.dirs p

theorem createWorktree_spec (hgit : git.Behaves) {old : Option Admin}
    (h : createWorktree git workdir i old r = some r') : Created workdir i old r r' := by
  obtain ⟨r₁, h₁, h⟩ := Option.bind_eq_some_iff.mp h
  obtain ⟨r₂, h₂, h⟩ := Option.bind_eq_some_iff.mp h
  obtain ⟨r₃, h₃, h⟩ := Option.bind_eq_some_iff.mp h
  obtain ⟨r₄, h₄, h⟩ := Option.bind_eq_some_iff.mp h
  obtain rfl := eq_of_attempt h
  obtain ⟨hnames, hdirs⟩ := pruneOld_spec hgit h₁
  have hleaves : Leaves workdir i r₁ _ :=
    (((leaves_removeCheckout h₂).trans (leaves_removeDotgit h₃)).trans
      (leaves_deleteBranch hgit h₄)).trans (leaves_worktree hgit)
  exact
    { found := ⟨hgit.worktree_checkout r₄ _ _, hgit.worktree_registers r₄ _ _⟩
      names := fun name hname => (hleaves.names name hname).trans (hnames name hname)
      below := fun p hp hne => hgit.worktree_below r₄ _ _ p hp hne
      pruned := fun p hp hpruned => (hleaves.dirs p hp).trans ((hdirs p).1 hpruned)
      kept := fun p hp hpruned => (hleaves.dirs p hp).trans ((hdirs p).2 hpruned) }

/-- The checkout of another worker outlives a creation unless the pruning reaches it. -/
theorem Created.found_iff {old : Option Admin} (h : Created workdir i old r r') {j : ℕ}
    (hj : j ≠ i) : Found workdir r' j ↔
      Found workdir r j ∧ ¬ Pruned r old (checkoutPath workdir j) := by
  have hbelow : ¬ checkoutPath workdir i <+: checkoutPath workdir j := fun hp =>
    hj (eq_of_checkoutPath_below hp).symm
  have hfind : r'.findWorktree (worktreeName j) = r.findWorktree (worktreeName j) := by
    rw [Repo.findWorktree, h.names _ (worktreeName_injective.ne hj), Repo.findWorktree]
  rw [Found, Found, hfind]
  by_cases hp : Pruned r old (checkoutPath workdir j)
  · simp [h.pruned _ hbelow hp, hp]
  · simp [h.kept _ hbelow hp, hp]

end Creation

/-! The condition under which every worker finds its worktree, in terms of the repository that
`init_worktrees` begins with. -/
section Condition

variable (git : Git2) (workdir : Path) (r : Repo)

/-- To make the worktree of a worker anew removes what stands at the path. -/
def Removes (i : ℕ) (p : Path) : Prop :=
  (checkoutPath workdir i <+: p ∧ p ≠ checkoutPath workdir i) ∨
    Pruned r (r.findWorktree (worktreeName i)) p

/-- The worktree is made anew: it is not registered, or it does not validate, or the path it is
registered at is removed when that of an earlier worker is made anew. One that is registered at
an earlier worker's path is not counted here. -/
inductive Anew : ℕ → Prop where
  | absent {i} : r.findWorktree (worktreeName i) = none → Anew i
  | broken {i admin} : r.findWorktree (worktreeName i) = some admin →
      (∀ j < i, admin.path ≠ checkoutPath workdir j) →
      ¬ git.validates (worktreeName i) admin (r.dirs admin.path) → Anew i
  | removed {i j admin} : r.findWorktree (worktreeName i) = some admin →
      (∀ j < i, admin.path ≠ checkoutPath workdir j) → j < i → Anew j →
      Removes workdir r j admin.path → Anew i

/-- What stands at the path is removed before it is the turn of worker `i`. -/
def RemovedBefore (i : ℕ) (p : Path) : Prop :=
  ∃ j < i, Anew git workdir r j ∧ Removes workdir r j p

/-- A worktree that is not made anew is where its worker looks for it, and stays there; making
one anew prunes nothing at or above the checkout of an earlier worker; and one that is
registered at such a checkout validates there, and so is not pruned. -/
structure Placed (i : ℕ) : Prop where
  kept : ¬ Anew git workdir r i →
    r.dirs (checkoutPath workdir i) = some (.checkout (worktreeName i)) ∧
      ¬ RemovedBefore git workdir r i (checkoutPath workdir i)
  pruned : Anew git workdir r i → ∀ admin, r.findWorktree (worktreeName i) = some admin →
    HasGit (r.dirs admin.path) → ¬ RemovedBefore git workdir r i admin.path →
      ∀ j < i, ¬ admin.path <+: checkoutPath workdir j
  shared : ∀ admin, r.findWorktree (worktreeName i) = some admin → ∀ j < i,
    admin.path = checkoutPath workdir j →
      git.validates (worktreeName i) admin (some (.checkout (worktreeName j))) = true

end Condition

section Turns

variable {git : Git2} {workdir : Path} {r u u' : Repo} {i : ℕ}

theorem Removes.below {p q : Path} (h : Removes workdir r i p) (hpq : p <+: q) :
    Removes workdir r i q := by
  rcases h with ⟨hp, hne⟩ | ⟨admin, hadmin, hg, hp⟩
  · refine Or.inl ⟨hp.trans hpq, ?_⟩
    rintro rfl
    exact hne (hpq.eq_of_length_le hp.length_le)
  · exact Or.inr ⟨admin, hadmin, hg, hp.trans hpq⟩

theorem removedBefore_succ {p : Path} : RemovedBefore git workdir r (i + 1) p ↔
    RemovedBefore git workdir r i p ∨ Anew git workdir r i ∧ Removes workdir r i p :=
  Nat.exists_lt_succ_right

/-- The repository when it is the turn of worker `i` and the earlier ones are found: the names
that are still to come are as they were, and so is what has not been removed. -/
structure Turn (git : Git2) (workdir : Path) (r : Repo) (i : ℕ) (u : Repo) : Prop where
  names : ∀ j, i ≤ j → u.findWorktree (worktreeName j) = r.findWorktree (worktreeName j)
  found : ∀ j < i, Found workdir u j
  gone : ∀ p, (∀ j < i, p ≠ checkoutPath workdir j) → RemovedBefore git workdir r i p →
    ¬ HasGit (u.dirs p)
  same : ∀ p, (∀ j < i, p ≠ checkoutPath workdir j) → ¬ RemovedBefore git workdir r i p →
    u.dirs p = r.dirs p

theorem turn_zero : Turn git workdir r 0 r where
  names _ _ := rfl
  found _ hj := absurd hj (Nat.not_lt_zero _)
  gone := by
    rintro p _ ⟨j, hj, _⟩
    exact absurd hj (Nat.not_lt_zero j)
  same _ _ _ := rfl

theorem Turn.validates_iff (hgit : git.Behaves) (h : Turn git workdir r i u) {admin : Admin}
    (hadmin : r.findWorktree (worktreeName i) = some admin)
    (hshared : ∀ j < i, admin.path = checkoutPath workdir j →
      git.validates (worktreeName i) admin (some (.checkout (worktreeName j))) = true) :
    git.validates (worktreeName i) admin (u.dirs admin.path) = true ↔
      ¬ Anew git workdir r i := by
  by_cases hown : ∀ j < i, admin.path ≠ checkoutPath workdir j
  · by_cases hremoved : RemovedBefore git workdir r i admin.path
    · have hanew : Anew git workdir r i := by
        obtain ⟨j, hj, hanew, hremoves⟩ := hremoved
        exact .removed hadmin hown hj hanew hremoves
      refine iff_of_false (fun hv => ?_) (not_not.mpr hanew)
      exact h.gone _ hown hremoved (hgit.hasGit_of_validates _ _ _ hv)
    · rw [h.same _ hown hremoved]
      refine ⟨fun hv hanew => ?_, fun hanew => ?_⟩
      · cases hanew with
        | absent hnone => cases hadmin.symm.trans hnone
        | broken hadmin' _ hinvalid =>
          obtain rfl := Option.some.inj (hadmin.symm.trans hadmin')
          exact hinvalid hv
        | removed hadmin' _ hj hanew hremoves =>
          obtain rfl := Option.some.inj (hadmin.symm.trans hadmin')
          exact hremoved ⟨_, hj, hanew, hremoves⟩
      · by_contra hv
        exact hanew (.broken hadmin hown hv)
  · push Not at hown
    obtain ⟨j, hj, hpath⟩ := hown
    have hv : git.validates (worktreeName i) admin (u.dirs admin.path) = true := by
      rw [hpath, (h.found j hj).1]
      exact hshared j hj hpath
    refine iff_of_true hv fun hanew => ?_
    cases hanew with
    | absent hnone => cases hadmin.symm.trans hnone
    | broken hadmin' hown _ | removed hadmin' hown =>
      obtain rfl := Option.some.inj (hadmin.symm.trans hadmin')
      exact hown j hj hpath

theorem initWorktree_cases (hgit : git.Behaves)
    (hinit : initWorktree git workdir u i = some u') :
    (u' = u ∧ ∃ admin, u.findWorktree (worktreeName i) = some admin ∧
      git.validates (worktreeName i) admin (u.dirs admin.path) = true) ∨
    (Created workdir i (u.findWorktree (worktreeName i)) u u' ∧
      ∀ admin, u.findWorktree (worktreeName i) = some admin →
        git.validates (worktreeName i) admin (u.dirs admin.path) ≠ true) := by
  unfold initWorktree at hinit
  split at hinit
  · next admin hadmin =>
    rw [hadmin]
    split at hinit
    · next hv =>
      exact Or.inl ⟨(Option.some.inj hinit).symm, admin, rfl, hv⟩
    · next hv =>
      refine Or.inr ⟨createWorktree_spec hgit hinit, ?_⟩
      rintro _ ⟨⟩
      exact hv
  · next hnone =>
    rw [hnone]
    exact Or.inr ⟨createWorktree_spec hgit hinit, nofun⟩

theorem found_before (hgit : git.Behaves) (hinit : initWorktree git workdir u i = some u')
    (hfound : ∀ j < i + 1, Found workdir u' j) : ∀ j < i, Found workdir u j := by
  intro j hj
  have hfound := hfound j (Nat.lt_succ_of_lt hj)
  rcases initWorktree_cases hgit hinit with ⟨rfl, _⟩ | ⟨hcreated, _⟩
  · exact hfound
  · exact ((hcreated.found_iff hj.ne).mp hfound).1

theorem Turn.placed (hgit : git.Behaves) (h : Turn git workdir r i u)
    (hinit : initWorktree git workdir u i = some u') (hfound : ∀ j < i + 1, Found workdir u' j) :
    Placed git workdir r i := by
  have hcases := initWorktree_cases hgit hinit
  rw [h.names i le_rfl] at hcases
  rcases hcases with ⟨rfl, admin, hadmin, hv⟩ | ⟨hcreated, hinvalid⟩
  · have hshared : ∀ j < i, admin.path = checkoutPath workdir j →
        git.validates (worktreeName i) admin (some (.checkout (worktreeName j))) = true := by
      intro j hj hpath
      rw [← (h.found j hj).1, ← hpath]
      exact hv
    have hkept := (h.validates_iff hgit hadmin hshared).mp hv
    have hfound := hfound i (Nat.lt_succ_self i)
    have hown : ∀ j < i, checkoutPath workdir i ≠ checkoutPath workdir j := fun j hj hpath =>
      hj.ne (checkoutPath_injective workdir hpath).symm
    have hstays : ¬ RemovedBefore git workdir r i (checkoutPath workdir i) := fun hremoved =>
      h.gone _ hown hremoved (hasGit_of_found hfound)
    refine ⟨fun _ => ⟨?_, hstays⟩, fun hanew => absurd hanew hkept, ?_⟩
    · rw [← h.same _ hown hstays]
      exact hfound.1
    · rintro admin' hadmin'
      obtain rfl := Option.some.inj (hadmin.symm.trans hadmin')
      exact hshared
  · have hpruned : ∀ admin, r.findWorktree (worktreeName i) = some admin →
        HasGit (u.dirs admin.path) → ∀ j < i, ¬ admin.path <+: checkoutPath workdir j :=
      fun admin hadmin hg j hj hp => ((hcreated.found_iff hj.ne).mp
        (hfound j (Nat.lt_succ_of_lt hj))).2 ⟨admin, hadmin, hg, hp⟩
    have hown : ∀ admin, r.findWorktree (worktreeName i) = some admin → ∀ j < i,
        admin.path ≠ checkoutPath workdir j := by
      intro admin hadmin j hj hpath
      refine hpruned admin hadmin ?_ j hj (hpath ▸ List.prefix_rfl)
      rw [hpath]
      exact hasGit_of_found (h.found j hj)
    refine ⟨fun hkept => absurd ?_ hkept, fun _ admin hadmin hg hstays => ?_,
      fun admin hadmin j hj hpath => absurd hpath (hown admin hadmin j hj)⟩
    · cases hadmin : r.findWorktree (worktreeName i) with
      | none => exact .absent hadmin
      | some admin =>
        have hiff := h.validates_iff hgit hadmin fun j hj hpath =>
          absurd hpath (hown admin hadmin j hj)
        exact not_not.mp (mt hiff.mpr (hinvalid admin hadmin))
    · refine hpruned admin hadmin ?_
      rw [h.same _ (hown admin hadmin) hstays]
      exact hg

theorem Turn.pruned_iff (h : Turn git workdir r i u)
    (hown : ∀ admin, r.findWorktree (worktreeName i) = some admin → ∀ j < i,
      admin.path ≠ checkoutPath workdir j) {p : Path} :
    Pruned u (r.findWorktree (worktreeName i)) p ↔
      Pruned r (r.findWorktree (worktreeName i)) p ∧
        ∀ admin, r.findWorktree (worktreeName i) = some admin →
          ¬ RemovedBefore git workdir r i admin.path := by
  constructor
  · rintro ⟨admin, hadmin, hg, hp⟩
    have hstays : ¬ RemovedBefore git workdir r i admin.path := fun hremoved =>
      h.gone _ (hown admin hadmin) hremoved hg
    rw [h.same _ (hown admin hadmin) hstays] at hg
    refine ⟨⟨admin, hadmin, hg, hp⟩, fun admin' hadmin' => ?_⟩
    obtain rfl := Option.some.inj (hadmin.symm.trans hadmin')
    exact hstays
  · rintro ⟨⟨admin, hadmin, hg, hp⟩, hstays⟩
    rw [← h.same _ (hown admin hadmin) (hstays admin hadmin)] at hg
    exact ⟨admin, hadmin, hg, hp⟩

theorem Turn.keep (h : Turn git workdir r i u) (hplaced : Placed git workdir r i)
    (hkept : ¬ Anew git workdir r i) : Turn git workdir r (i + 1) u := by
  have hremoved : ∀ p, RemovedBefore git workdir r (i + 1) p ↔ RemovedBefore git workdir r i p :=
    fun p => removedBefore_succ.trans (or_iff_left fun hanew => hkept hanew.1)
  have hown : ∀ j < i, checkoutPath workdir i ≠ checkoutPath workdir j := fun j hj hpath =>
    hj.ne (checkoutPath_injective workdir hpath).symm
  obtain ⟨hfound, hstays⟩ := hplaced.kept hkept
  refine ⟨fun j hj => h.names j (Nat.le_of_succ_le hj), ?_, ?_, ?_⟩
  · refine Nat.forall_lt_succ_right.mpr ⟨h.found, ?_, ?_⟩
    · rw [h.same _ hown hstays]
      exact hfound
    · rw [h.names i le_rfl]
      exact Option.isSome_iff_ne_none.mpr fun hnone => hkept (.absent hnone)
  · exact fun p hp hr => h.gone p (fun j hj => hp j (Nat.lt_succ_of_lt hj)) ((hremoved p).mp hr)
  · exact fun p hp hr => h.same p (fun j hj => hp j (Nat.lt_succ_of_lt hj))
      (mt (hremoved p).mpr hr)

theorem Turn.create (h : Turn git workdir r i u) (hplaced : Placed git workdir r i)
    (hanew : Anew git workdir r i)
    (hcreated : Created workdir i (r.findWorktree (worktreeName i)) u u')
    (hown : ∀ admin, r.findWorktree (worktreeName i) = some admin → ∀ j < i,
      admin.path ≠ checkoutPath workdir j) : Turn git workdir r (i + 1) u' := by
  have hearlier : ∀ p, (∀ j < i + 1, p ≠ checkoutPath workdir j) →
      ∀ j < i, p ≠ checkoutPath workdir j := fun p hp j hj => hp j (Nat.lt_succ_of_lt hj)
  refine ⟨fun j hj => ?_, ?_, fun p hp hr => ?_, fun p hp hr => ?_⟩
  · have hname := worktreeName_injective.ne (Nat.lt_of_succ_le hj).ne'
    rw [Repo.findWorktree, hcreated.names _ hname, ← Repo.findWorktree,
      h.names j (Nat.le_of_succ_le hj)]
  · refine Nat.forall_lt_succ_right.mpr ⟨fun j hj => ?_, hcreated.found⟩
    refine (hcreated.found_iff hj.ne).mpr ⟨h.found j hj, fun hpruned => ?_⟩
    obtain ⟨⟨admin, hadmin, hg, hp⟩, hstays⟩ := (h.pruned_iff hown).mp hpruned
    exact hplaced.pruned hanew admin hadmin hg (hstays admin hadmin) j hj hp
  · by_cases hbelow : checkoutPath workdir i <+: p
    · exact hcreated.below p hbelow (hp i (Nat.lt_succ_self i))
    by_cases hpruned : Pruned u (r.findWorktree (worktreeName i)) p
    · rw [hcreated.pruned p hbelow hpruned]
      exact id
    rw [hcreated.kept p hbelow hpruned]
    refine h.gone p (hearlier p hp) ?_
    rcases removedBefore_succ.mp hr with hr | ⟨_, ⟨hp, _⟩ | hpruned'⟩
    · exact hr
    · exact absurd hp hbelow
    · obtain ⟨admin, hadmin, _, hadminp⟩ := id hpruned'
      by_contra hstays
      refine hpruned ((h.pruned_iff hown).mpr ⟨hpruned', fun admin' hadmin' hremoved => ?_⟩)
      obtain rfl := Option.some.inj (hadmin.symm.trans hadmin')
      obtain ⟨j, hj, hanew, hremoves⟩ := hremoved
      exact hstays ⟨j, hj, hanew, hremoves.below hadminp⟩
  · obtain ⟨hbefore, hnow⟩ := not_or.mp (mt removedBefore_succ.mpr hr)
    have hremoves : ¬ Removes workdir r i p := fun hremoves => hnow ⟨hanew, hremoves⟩
    obtain ⟨hbelow, hpruned⟩ := not_or.mp hremoves
    have hbelow : ¬ checkoutPath workdir i <+: p := fun hb =>
      hbelow ⟨hb, hp i (Nat.lt_succ_self i)⟩
    rw [hcreated.kept p hbelow fun hp => hpruned ((h.pruned_iff hown).mp hp).1]
    exact h.same p (hearlier p hp) hbefore

theorem Turn.next (hgit : git.Behaves) (h : Turn git workdir r i u)
    (hplaced : Placed git workdir r i) (hinit : initWorktree git workdir u i = some u') :
    Turn git workdir r (i + 1) u' := by
  have hcases := initWorktree_cases hgit hinit
  rw [h.names i le_rfl] at hcases
  rcases hcases with ⟨rfl, admin, hadmin, hv⟩ | ⟨hcreated, hinvalid⟩
  · exact h.keep hplaced ((h.validates_iff hgit hadmin (hplaced.shared admin hadmin)).mp hv)
  · refine h.create hplaced ?_ hcreated fun admin hadmin j hj hpath => ?_
    · cases hadmin : r.findWorktree (worktreeName i) with
      | none => exact .absent hadmin
      | some admin =>
        have hiff := h.validates_iff hgit hadmin (hplaced.shared admin hadmin)
        exact not_not.mp (mt hiff.mpr (hinvalid admin hadmin))
    · refine hinvalid admin hadmin ?_
      rw [hpath, (h.found j hj).1]
      exact hplaced.shared admin hadmin j hj hpath

end Turns

section Runs

variable {git : Git2} {workdir : Path} {n : ℕ} {r r' : Repo}

theorem initWorktrees_succ : initWorktrees git workdir (n + 1) r =
    (initWorktrees git workdir n r).bind fun u => initWorktree git workdir u n := by
  simp [initWorktrees, List.range_succ, List.foldlM_append]

theorem initWorktrees_turn (hgit : git.Behaves) (h : initWorktrees git workdir n r = some r')
    (hplaced : ∀ i < n, Placed git workdir r i) : Turn git workdir r n r' := by
  induction n generalizing r' with
  | zero =>
    obtain rfl := Option.some.inj h
    exact turn_zero
  | succ n ih =>
    rw [initWorktrees_succ] at h
    obtain ⟨u, hu, hinit⟩ := Option.bind_eq_some_iff.mp h
    have hturn := ih hu fun i hi => hplaced i (Nat.lt_succ_of_lt hi)
    exact hturn.next hgit (hplaced n (Nat.lt_succ_self n)) hinit

theorem initWorktrees_placed (hgit : git.Behaves) (h : initWorktrees git workdir n r = some r')
    (hfound : ∀ i < n, Found workdir r' i) : ∀ i < n, Placed git workdir r i := by
  induction n generalizing r' with
  | zero => exact fun i hi => absurd hi (Nat.not_lt_zero i)
  | succ n ih =>
    rw [initWorktrees_succ] at h
    obtain ⟨u, hu, hinit⟩ := Option.bind_eq_some_iff.mp h
    have hplaced := ih hu (found_before hgit hinit hfound)
    refine Nat.forall_lt_succ_right.mpr ⟨hplaced, ?_⟩
    exact (initWorktrees_turn hgit hu hplaced).placed hgit hinit hfound

/-- Every worker finds its worktree where it looks for it if and only if in the repository that
`init_worktrees` begins with each of them is placed. -/
theorem all_found_iff (hgit : git.Behaves) (h : initWorktrees git workdir n r = some r') :
    (∀ i < n, Found workdir r' i) ↔ ∀ i < n, Placed git workdir r i :=
  ⟨initWorktrees_placed hgit h, fun hplaced => (initWorktrees_turn hgit h hplaced).found⟩

end Runs

section Samples

/-- libgit2 where every call goes ahead and any repository at the registered path is accepted. -/
def willing : Git2 where
  succeeds _ _ _ := true
  validates _ _ dir := decide (HasGit dir)
  prune r name admin :=
    if HasGit (r.dirs admin.path) then (r.removeDotgit name).removeDirAll admin.path
    else r.removeDotgit name
  deleteBranch r name := { r with branches := Function.update r.branches name false }
  worktree r name path :=
    { worktrees := Function.update r.worktrees name (some ⟨true, path⟩)
      dirs := Function.update (r.removeDirAll path).dirs path (some (.checkout name))
      branches := Function.update r.branches name true }

theorem willing_behaves : willing.Behaves where
  validates_checkout _ _ := rfl
  hasGit_of_validates _ _ _ h := of_decide_eq_true h
  prune_names := by
    intro r name admin other hother
    by_cases hg : HasGit (r.dirs admin.path) <;>
      simp [willing, hg, Repo.removeDirAll, Repo.removeDotgit, hother]
  prune_removes := by
    intro r name admin q hg hq
    simp [willing, hg, Repo.removeDirAll, hq]
  prune_keeps := by
    intro r name admin q hq
    by_cases hg : HasGit (r.dirs admin.path)
    · have hq : ¬ admin.path <+: q := fun hp => hq ⟨hg, hp⟩
      simp [willing, hg, Repo.removeDirAll, Repo.removeDotgit, hq]
    · simp [willing, hg, Repo.removeDotgit]
  deleteBranch_names _ _ := rfl
  deleteBranch_dirs _ _ := rfl
  worktree_registers := by simp [willing, Repo.findWorktree]
  worktree_names _ _ _ _ hother := Function.update_of_ne hother _ _
  worktree_checkout _ _ _ := Function.update_self ..
  worktree_below := by
    intro r name path q hq hne
    simp [willing, Repo.removeDirAll, hne, hq, HasGit]
  worktree_keeps := by
    intro r name path q hq
    have hne : q ≠ path := fun h => hq (h ▸ List.prefix_refl q)
    simp [willing, Repo.removeDirAll, hne, hq]

/-- The first worktree as an earlier workdir setting has left it. -/
def moved : Repo where
  worktrees := Function.update (fun _ => none) "snowpatch0" (some ⟨true, ["old", "snowpatch0"]⟩)
  dirs := Function.update (fun _ => none) ["old", "snowpatch0"] (some (.checkout "snowpatch0"))
  branches := Function.update (fun _ => false) "snowpatch0" true

theorem all_found_iff_sample : ∃ r', initWorktrees willing ["old"] 2 moved = some r' ∧
    ∀ i < 2, Placed willing ["old"] moved i :=
  ⟨_, rfl, (all_found_iff willing_behaves rfl).mp (by decide)⟩

/-- After a change of the workdir the worker has no checkout where it looks for one. -/
theorem checkout_left_behind : willing.Behaves ∧
    ∃ r', initWorktrees willing ["new"] 1 moved = some r' ∧ ¬ Found ["new"] r' 0 :=
  ⟨willing_behaves, moved, rfl, by decide⟩

end Samples

end Snowpatch.Worktrees
