import Snowpatch.Library.Machine

/-! Transactions that are run again on a conflict. A closure sees the shared state as it is at
one moment; what it writes takes effect if it returns Ok and is dropped otherwise. A conflict
makes it run once more, on the state of that later moment, and any other error is returned.
Around the attempts others change the state as far as a relation lets them. -/
namespace Transaction

universe u

variable {σ ρ : Type u} {α ε : Type*}

inductive Conflictable (α ε : Type*) where
  | abort (a : α)
  | conflict
  | storage (e : ε)
  deriving DecidableEq, Repr

inductive TransactionError (α ε : Type*) where
  | abort (a : α)
  | storage (e : ε)
  deriving DecidableEq, Repr

abbrev Closure (σ : Type u) (α ε : Type*) (ρ : Type u) := StateT σ (Except (Conflictable α ε)) ρ

structure Call (σ : Type u) (α ε : Type*) (ρ : Type u) where
  state : σ
  attempts : ℕ
  returned : Option (Except (TransactionError α ε) ρ)

def Call.start (s : σ) : Call σ α ε ρ := ⟨s, 0, none⟩

inductive Event (σ : Type*) where
  | attempt
  | other (s : σ)

def answer : Except (Conflictable α ε) (ρ × σ) → Option (Except (TransactionError α ε) ρ)
  | .ok (r, _) => some (.ok r)
  | .error (.abort a) => some (.error (.abort a))
  | .error .conflict => none
  | .error (.storage e) => some (.error (.storage e))

/-- The writes of the closure if it has returned Ok. -/
def commit (s : σ) : Except (Conflictable α ε) (ρ × σ) → σ
  | .ok (_, t) => t
  | .error _ => s

/-- The attempts are numbered, as the storage may fail in one and not in another. -/
def machine (closure : ℕ → Closure σ α ε ρ) (interferes : σ → σ → Prop) :
    Machine (Call σ α ε ρ) (Event σ) where
  Enabled c
    | .attempt => c.returned = none
    | .other s => interferes c.state s
  next c
    | .attempt =>
      let a := closure c.attempts c.state
      ⟨commit c.state a, c.attempts + 1, answer a⟩
    | .other s => { c with state := s }

section Bind

variable {τ : Type u} {f : Closure σ α ε ρ} {g : ρ → Closure σ α ε τ} {s t : σ}

theorem bind_ok {r : ρ} (h : f s = .ok (r, t)) : (f >>= g) s = g r t := by
  change (f s >>= fun p => g p.1 p.2) = g r t
  rw [h]
  rfl

theorem bind_error {e : Conflictable α ε} (h : f s = .error e) : (f >>= g) s = .error e := by
  change (f s >>= fun p => g p.1 p.2) = .error e
  rw [h]
  rfl

end Bind

section Rules

variable {closure : ℕ → Closure σ α ε ρ} {interferes : σ → σ → Prop} {s₀ : σ}
  {tr : List (Event σ)} {c : Call σ α ε ρ} {P Q : σ → Prop}

/-- A closure that returns Ok whenever its precondition holds does so at the first attempt. -/
theorem execution_ok (hx : (machine closure interferes).Execution (.start s₀) tr c) (h₀ : P s₀)
    (hP : ∀ s t, P s → interferes s t → P t) (hQ : ∀ s t, Q s → interferes s t → Q t)
    (hclosure : ∀ s, P s → ∃ r t, closure 0 s = .ok (r, t) ∧ Q t) :
    (c.attempts = 0 ∧ c.returned = none ∧ P c.state) ∨
      ∃ r, c.attempts = 1 ∧ c.returned = some (.ok r) ∧ Q c.state := by
  refine hx.invariant (I := fun c => (c.attempts = 0 ∧ c.returned = none ∧ P c.state) ∨
    ∃ r, c.attempts = 1 ∧ c.returned = some (.ok r) ∧ Q c.state) (Or.inl ⟨rfl, rfl, h₀⟩) ?_
  rintro ⟨s, n, answered⟩ e (⟨rfl, rfl, hs⟩ | ⟨r, rfl, rfl, hs⟩) he
  · cases e with
    | attempt =>
      obtain ⟨r, t, hrun, ht⟩ := hclosure s hs
      refine Or.inr ⟨r, rfl, ?_, ?_⟩
      · simp [machine, hrun, answer]
      · simpa [machine, hrun, commit] using ht
    | other t => exact Or.inl ⟨rfl, rfl, hP s t hs he⟩
  · cases e with
    | attempt => cases he
    | other t => exact Or.inr ⟨r, rfl, rfl, hQ s t hs he⟩

/-- A closure that fails whenever its precondition holds writes nothing and never returns Ok;
an attempt that does not end in a conflict is the last one. -/
theorem execution_error (hx : (machine closure interferes).Execution (.start s₀) tr c) (h₀ : P s₀)
    (hP : ∀ s t, P s → interferes s t → P t)
    (hclosure : ∀ n s, P s → ∃ e, closure n s = .error e) {last : ℕ}
    (hlast : ∀ s, P s → closure last s ≠ .error .conflict) :
    P c.state ∧ (c.returned = none → c.attempts ≤ last) ∧
      ∀ r, c.returned = some r → ∃ e, r = .error e := by
  refine hx.invariant (I := fun c => P c.state ∧ (c.returned = none → c.attempts ≤ last) ∧
    ∀ r, c.returned = some r → ∃ e, r = .error e) ⟨h₀, fun _ => Nat.zero_le _, by simp [Call.start]⟩
    ?_
  rintro ⟨s, n, answered⟩ e ⟨hs, hle, hret⟩ he
  cases e with
  | attempt =>
    obtain ⟨err, hrun⟩ := hclosure n s hs
    have hn : n ≤ last := hle he
    cases err with
    | abort a => simp [machine, hrun, answer, commit, hs]
    | storage a => simp [machine, hrun, answer, commit, hs]
    | conflict =>
      have hne : n ≠ last := by
        rintro rfl
        exact hlast s hs hrun
      simp only [machine, hrun, answer, commit]
      exact ⟨hs, fun _ => by omega, by simp⟩
  | other t => exact ⟨hP s t hs he, hle, hret⟩

theorem conflict_repeats (hclosure : ∀ n, closure n s₀ = .error .conflict) (n : ℕ) :
    ∃ tr, (machine closure interferes).Execution (.start s₀) tr ⟨s₀, n, none⟩ := by
  induction n with
  | zero => exact ⟨[], .nil⟩
  | succ n ih =>
    obtain ⟨tr, hx⟩ := ih
    have he : (machine closure interferes).Enabled ⟨s₀, n, none⟩ .attempt := rfl
    have hstep := Machine.Execution.snoc _ hx he
    simp only [machine, hclosure, commit, answer] at hstep
    exact ⟨_, hstep⟩

end Rules

end Transaction
