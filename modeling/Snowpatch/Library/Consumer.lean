import Snowpatch.Library.Fairness
import Snowpatch.Library.KvTree
import Mathlib.Data.Prod.Lex

/-! Loops that consume a tree: an iteration over it, some work on each key, and a wait before
the next iteration. Where the keys stay within finitely many, such a loop comes to every key,
however many more are inserted around it. -/
namespace Machine

variable {σ ε : Type*}

/-- In an iteration, with so many steps to go for the key at the cursor, or between two of
them, with so many steps to go at most. -/
inductive Position (κ ν : Type*) [LinearOrder κ] where
  | passing (cursor : WithBot κ) (leaf : KvTree.Leaf κ ν) (busy : ℕ)
  | resting (busy : ℕ)

variable {κ ν : Type*} [LinearOrder κ]

def Position.iterating (cursor : WithBot κ) (leaf : KvTree.Leaf κ ν) : Position κ ν :=
  .passing cursor leaf (if leaf.next cursor = ⊤ then 1 else 0)

/-- The steps of a consumer. It begins anew only when it has nothing in hand. -/
inductive Advance (tree : KvTree κ ν) (clear : Prop) :
    Option κ → Position κ ν → Position κ ν → Prop where
  | yield {cursor : WithBot κ} {leaf : KvTree.Leaf κ ν} {k : κ} {busy busy' : ℕ} :
      leaf.next cursor = (k : WithTop κ) →
      Advance tree clear (some k) (.passing cursor leaf busy) (.passing k leaf busy')
  | read {cursor : WithBot κ} {leaf leaf' : KvTree.Leaf κ ν} :
      leaf.Reads tree cursor leaf' true →
      Advance tree clear none (.iterating cursor leaf) (.iterating cursor leaf')
  | work {cursor : WithBot κ} {leaf : KvTree.Leaf κ ν} {busy busy' : ℕ} : busy' < busy →
      Advance tree clear none (.passing cursor leaf busy) (.passing cursor leaf busy')
  | finish {cursor : WithBot κ} {leaf : KvTree.Leaf κ ν} {busy busy' : ℕ} :
      leaf.Ends tree cursor →
      Advance tree clear none (.passing cursor leaf busy) (.resting busy')
  | rest {busy busy' : ℕ} : busy' < busy →
      Advance tree clear none (.resting busy) (.resting busy')
  | again {busy : ℕ} : clear →
      Advance tree clear none (.resting busy) (.iterating ⊥ .start)

theorem Advance.resume {tree : KvTree κ ν} {clear : Prop} {cursor : WithBot κ}
    {leaf : KvTree.Leaf κ ν} {busy : ℕ} (h : 1 < busy) :
    Advance tree clear none (.passing cursor leaf busy) (.iterating cursor leaf) := by
  refine .work (lt_of_le_of_lt ?_ h)
  split
  · exact le_rfl
  · exact Nat.zero_le 1

/-- What does not count as a step of a consumer: others act, or it passes an empty leaf. -/
inductive Idle (tree : KvTree κ ν) : Position κ ν → Position κ ν → Prop where
  | same {p : Position κ ν} : Idle tree p p
  | skip {cursor : WithBot κ} {leaf leaf' : KvTree.Leaf κ ν} :
      leaf.Reads tree cursor leaf' false →
      Idle tree (.iterating cursor leaf) (.iterating cursor leaf')

/-- A consumer in a system. `active` says that it runs and `halts` are the events that end it;
`inHand` are the keys it has taken and `finishes` the events by which it is done with one. -/
structure Consumer (M : Machine σ ε) (κ ν : Type*) [LinearOrder κ] (I active : σ → Prop) where
  tree : σ → KvTree κ ν
  position : σ → Position κ ν
  inHand : σ → κ → Prop
  own : ε → Prop
  halts : ε → Prop
  yields : ε → Option κ
  finishes : ε → κ → Prop
  stays : ∀ s e, I s → active s → M.Enabled s e → ¬ halts e → active (M.next s e)
  ready : ∀ s k, I s → active s → k ∈ tree s ∨ inHand s k → ∃ e, own e ∧ M.Enabled s e
  advance : ∀ s e, I s → active s → M.Enabled s e → ¬ halts e → own e →
    Advance (tree s) (∀ k, ¬ inHand s k) (yields e) (position s) (position (M.next s e))
  foreign : ∀ s e, I s → active s → M.Enabled s e → ¬ halts e → ¬ own e →
    Idle (tree s) (position s) (position (M.next s e))
  yielded : ∀ s e k, I s → active s → M.Enabled s e → yields e = some k → k ∈ tree s
  taken : ∀ s e k, I s → active s → M.Enabled s e → yields e = some k → inHand (M.next s e) k
  kept : ∀ s e k, I s → active s → M.Enabled s e → ¬ halts e → k ∈ tree s →
    k ∈ tree (M.next s e) ∨ inHand (M.next s e) k ∨ finishes e k
  held : ∀ s e k, I s → active s → M.Enabled s e → ¬ halts e → inHand s k →
    inHand (M.next s e) k ∨ finishes e k

namespace Position

open Classical in
noncomputable def stage (k : κ) : Position κ ν → ℕ
  | .passing cursor leaf _ => if leaf.Ahead cursor k then 1 else 3
  | .resting _ => 2

def work (bound : Finset κ) : Position κ ν → ℕ ×ₗ (ℕ ×ₗ ℕ)
  | .passing cursor _ busy =>
    toLex (1, toLex ((bound.filter fun k : κ => cursor < (k : WithBot κ)).card, busy))
  | .resting busy => toLex (0, toLex (0, busy))

theorem stage_pos (k : κ) (p : Position κ ν) : 0 < p.stage k := by
  cases p with
  | passing cursor leaf =>
    by_cases h : leaf.Ahead cursor k <;> simp [stage, h]
  | resting => exact Nat.two_pos

theorem stage_passing_le (k : κ) {cursor cursor' : WithBot κ} {leaf leaf' : KvTree.Leaf κ ν}
    (busy busy' : ℕ) (h : leaf.Ahead cursor k → leaf'.Ahead cursor' k) :
    (passing cursor' leaf' busy').stage k ≤ (passing cursor leaf busy).stage k := by
  by_cases hk : leaf.Ahead cursor k
  · simp [stage, hk, h hk]
  · by_cases hk' : leaf'.Ahead cursor' k <;> simp [stage, hk, hk']

end Position

variable {tree : KvTree κ ν} {bound : Finset κ} {clear : Prop} {p q : Position κ ν}
  {y : Option κ}

theorem Advance.work_lt (h : Advance tree clear y p q) (hy : ∀ k, y = some k → k ∈ bound) :
    q.work bound < p.work bound ∨
      clear ∧ ∃ busy, p = .resting busy ∧ q = .iterating ⊥ .start := by
  have hbusy : ∀ {cursor : WithBot κ} {leaf leaf' : KvTree.Leaf κ ν} {busy busy' : ℕ},
      busy' < busy → (Position.passing cursor leaf' busy').work bound <
        (Position.passing cursor leaf busy).work bound := fun hlt =>
    Prod.Lex.toLex_lt_toLex.mpr (Or.inr ⟨rfl, Prod.Lex.toLex_lt_toLex.mpr (Or.inr ⟨rfl, hlt⟩)⟩)
  cases h with
  | @yield cursor leaf k busy busy' hnext =>
    have hcard := KvTree.card_after_lt (KvTree.of_first_eq hnext).2.1 (hy k rfl)
    exact Or.inl (Prod.Lex.toLex_lt_toLex.mpr
      (Or.inr ⟨rfl, Prod.Lex.toLex_lt_toLex.mpr (Or.inl hcard)⟩))
  | read hreads =>
    obtain ⟨hend, _, _, hfound⟩ := hreads
    refine Or.inl (hbusy ?_)
    rw [if_neg (hfound.mp rfl), if_pos hend]
    exact Nat.zero_lt_one
  | work hlt => exact Or.inl (hbusy hlt)
  | rest hlt =>
    exact Or.inl (Prod.Lex.toLex_lt_toLex.mpr
      (Or.inr ⟨rfl, Prod.Lex.toLex_lt_toLex.mpr (Or.inr ⟨rfl, hlt⟩)⟩))
  | finish => exact Or.inl (Prod.Lex.toLex_lt_toLex.mpr (Or.inl Nat.zero_lt_one))
  | again hclear => exact Or.inr ⟨hclear, _, rfl, rfl⟩

/-- A key in the tree that is not taken by a step is not moved away from by it: an iteration
that is to come to the key still is, one that is not comes to its end. -/
theorem Advance.stage_le (h : Advance tree clear y p q) {k : κ} (hk : k ∈ tree)
    (hy : y ≠ some k) : q.stage k ≤ p.stage k := by
  cases h with
  | @yield cursor leaf j busy busy' hnext =>
    have hne : j ≠ k := fun hjk => hy (congrArg some hjk)
    exact Position.stage_passing_le k _ _ fun hahead => hahead.yield hnext hne
  | read hreads => exact Position.stage_passing_le k _ _ (hreads.ahead hk)
  | work | rest => exact le_rfl
  | finish hend =>
    rw [Position.stage, Position.stage, if_neg (hend.not_ahead hk)]
    decide
  | again =>
    rw [Position.iterating, Position.stage, Position.stage,
      if_pos (KvTree.Leaf.ahead_start k)]
    decide

theorem Idle.work_eq (h : Idle tree p q) : q.work bound = p.work bound := by
  cases h with
  | same => rfl
  | skip hreads =>
    obtain ⟨hend, _, _, hfound⟩ := hreads
    have hempty := not_not.mp (mt hfound.mpr Bool.false_ne_true)
    rw [Position.iterating, Position.iterating, if_pos hend, if_pos hempty]
    rfl

theorem Idle.stage_le (h : Idle tree p q) {k : κ} (hk : k ∈ tree) : q.stage k ≤ p.stage k := by
  cases h with
  | same => exact le_rfl
  | skip hreads => exact Position.stage_passing_le k _ _ (hreads.ahead hk)

open Classical in
noncomputable def Position.distance (bound : Finset κ) (k : κ) (held : Prop)
    (p : Position κ ν) : ℕ ×ₗ (ℕ ×ₗ (ℕ ×ₗ ℕ)) :=
  toLex (if held then 0 else p.stage k, p.work bound)

/-- A step brings a consumer closer to a key that waits for it. -/
theorem Advance.distance_lt (h : Advance tree clear y p q) (hy : ∀ k, y = some k → k ∈ bound)
    {k : κ} {held held' : Prop} (hk : k ∈ tree ∨ held) (hheld : held → held')
    (hclear : clear → ¬ held) (htaken : y = some k → held') :
    q.distance bound k held' < p.distance bound k held := by
  unfold Position.distance
  by_cases hin : held
  · rcases h.work_lt hy with hlt | ⟨hc, _⟩
    · rw [if_pos hin, if_pos (hheld hin)]
      exact Prod.Lex.toLex_lt_toLex.mpr (Or.inr ⟨rfl, hlt⟩)
    · exact absurd hin (hclear hc)
  · rw [if_neg hin]
    by_cases hin' : held'
    · rw [if_pos hin']
      exact Prod.Lex.toLex_lt_toLex.mpr (Or.inl (Position.stage_pos k _))
    · rw [if_neg hin']
      have hstage := h.stage_le (hk.resolve_right hin) fun hy => hin' (htaken hy)
      rcases h.work_lt hy with hlt | ⟨_, busy, rfl, rfl⟩
      · rcases hstage.eq_or_lt with heq | hless
        · exact Prod.Lex.toLex_lt_toLex.mpr (Or.inr ⟨heq, hlt⟩)
        · exact Prod.Lex.toLex_lt_toLex.mpr (Or.inl hless)
      · refine Prod.Lex.toLex_lt_toLex.mpr (Or.inl ?_)
        rw [Position.iterating, Position.stage, Position.stage,
          if_pos (KvTree.Leaf.ahead_start k)]
        exact Nat.one_lt_two

theorem Idle.distance_le (h : Idle tree p q) {k : κ} {held held' : Prop} (hk : k ∈ tree ∨ held)
    (hheld : held → held') : q.distance bound k held' ≤ p.distance bound k held := by
  unfold Position.distance
  rw [h.work_eq]
  by_cases hin : held
  · rw [if_pos hin, if_pos (hheld hin)]
  · rw [if_neg hin]
    by_cases hin' : held'
    · rw [if_pos hin']
      exact (Prod.Lex.toLex_lt_toLex.mpr (Or.inl (Position.stage_pos k _))).le
    · rw [if_neg hin']
      rcases (h.stage_le (hk.resolve_right hin)).eq_or_lt with heq | hlt
      · rw [heq]
      · exact (Prod.Lex.toLex_lt_toLex.mpr (Or.inl hlt)).le

namespace Consumer

variable {M : Machine σ ε} {I active : σ → Prop} {s₀ : σ}

noncomputable def distance (c : M.Consumer κ ν I active) (bound : Finset κ) (k : κ) (s : σ) :
    ℕ ×ₗ (ℕ ×ₗ (ℕ ×ₗ ℕ)) :=
  (c.position s).distance bound k (c.inHand s k)

/-- The consumer comes to every key in the tree and is done with it, or it is halted. -/
theorem descends (c : M.Consumer κ ν I active) (bound : Finset κ)
    (hbound : ∀ s, I s → (c.tree s).keys ⊆ bound) (k : κ) : M.Descends I
      (fun s => active s ∧ (k ∈ c.tree s ∨ c.inHand s k)) c.own
      (fun e => c.finishes e k ∨ c.halts e) (c.distance bound k) where
  ready := fun s hI ⟨ha, hk⟩ => c.ready s k hI ha hk
  step := by
    rintro s e hI ⟨ha, hk⟩ he
    by_cases hgoal : c.finishes e k ∨ c.halts e
    · exact Or.inl hgoal
    obtain ⟨hfin, hhalt⟩ := not_or.mp hgoal
    have hheld : c.inHand s k → c.inHand (M.next s e) k := fun h =>
      (c.held s e k hI ha he hhalt h).resolve_right hfin
    have hpending : k ∈ c.tree (M.next s e) ∨ c.inHand (M.next s e) k := by
      rcases hk with hk | hk
      · exact (or_assoc.mpr (c.kept s e k hI ha he hhalt hk)).resolve_right hfin
      · exact Or.inr (hheld hk)
    refine Or.inr ⟨⟨c.stays s e hI ha he hhalt, hpending⟩, ?_⟩
    by_cases hown : c.own e
    · have hlt : c.distance bound k (M.next s e) < c.distance bound k s :=
        (c.advance s e hI ha he hhalt hown).distance_lt
          (fun a hy => hbound s hI (Finmap.mem_keys.mpr (c.yielded s e a hI ha he hy))) hk hheld
          (fun h => h k) fun hy => c.taken s e k hI ha he hy
      exact ⟨hlt.le, fun _ => hlt⟩
    · exact ⟨(c.foreign s e hI ha he hhalt hown).distance_le hk hheld, fun h => absurd h hown⟩

theorem eventually_finishes (c : M.Consumer κ ν I active) (ρ : M.Run s₀) (hfair : ρ.Fair c.own)
    (hI : ∀ n, I (ρ.state n)) (bound : Finset κ) (hbound : ∀ s, I s → (c.tree s).keys ⊆ bound)
    {n : ℕ} (ha : active (ρ.state n)) {k : κ} (hk : k ∈ c.tree (ρ.state n)) :
    ∃ m, n ≤ m ∧ (c.finishes (ρ.event m) k ∨ c.halts (ρ.event m)) :=
  (c.descends bound hbound k).eventually ρ hfair hI ⟨ha, Or.inl hk⟩

end Consumer

end Machine

/-! Between two iterations a consumer waits for its tree. -/
namespace Waiting

variable {empty : Prop} {w : Waiting} {e : WaitEvent}

def left : Waiting → ℕ
  | .register => 2
  | .test _ => 1
  | .blocked _ => 0

@[simp] theorem left_notify (w : Waiting) : w.notify.left = w.left := by
  cases w <;> rfl

theorem exists_enabled (h : w.Sound empty) (hne : ¬ empty) : ∃ e, w.Enabled empty e := by
  cases w with
  | register => exact ⟨.register, rfl⟩
  | test n => exact ⟨.found, hne, n, rfl⟩
  | blocked n =>
    have hpos : 0 < n := (h n rfl).resolve_left hne
    exact ⟨.wake, n - 1, by rw [Nat.sub_add_cancel hpos]⟩

theorem advance {κ ν : Type*} [LinearOrder κ] {tree : KvTree κ ν} {clear : Prop}
    (he : w.Enabled empty e) (hclear : clear) : Machine.Advance tree clear none
      (.resting w.left) ((w.next e).elim (.iterating ⊥ .start) fun w' => .resting w'.left) := by
  cases e with
  | register =>
    obtain rfl : w = .register := he
    exact .rest Nat.one_lt_two
  | found =>
    obtain ⟨_, n, rfl⟩ := he
    exact .again hclear
  | sleep =>
    obtain ⟨_, n, rfl⟩ := he
    exact .rest Nat.zero_lt_one
  | wake =>
    obtain ⟨n, rfl⟩ := he
    exact .again hclear

end Waiting
