import Mathlib.Data.List.Basic
import Mathlib.Tactic.Common

/-! Results that may be errors, and a list of them collected into one: all the values in
their order, or an error if there is any. -/
namespace Fallible

variable {ε α β : Type*}

theorem map_eq_ok {x : Except ε α} {f : α → β} {b : β} :
    x.map f = .ok b ↔ ∃ a, x = .ok a ∧ f a = b := by
  cases x <;> simp [Except.map]

theorem bind_eq_ok {x : Except ε α} {f : α → Except ε β} {b : β} :
    x.bind f = .ok b ↔ ∃ a, x = .ok a ∧ f a = .ok b := by
  cases x <;> simp [Except.bind]

def collect : List (Except ε α) → Except ε (List α)
  | [] => .ok []
  | .ok a :: rest => (collect rest).map (a :: ·)
  | .error e :: _ => .error e

theorem collect_eq_ok {l : List (Except ε α)} {as : List α} :
    collect l = .ok as ↔ l = as.map .ok := by
  induction l generalizing as with
  | nil => cases as <;> simp [collect]
  | cons x rest ih =>
    cases x with
    | error e => cases as <;> simp [collect]
    | ok a => cases as <;> simp [collect, map_eq_ok, ih, and_comm]

/-- The values that are there, whether or not there is an error among them. -/
def values (l : List (Except ε α)) : List α := l.filterMap Except.toOption

theorem values_append (l l' : List (Except ε α)) : values (l ++ l') = values l ++ values l' :=
  List.filterMap_append

theorem values_map_ok (as : List α) : values (as.map (Except.ok : α → Except ε α)) = as := by
  rw [values, List.filterMap_map]
  exact List.filterMap_some

theorem values_of_collect {l : List (Except ε α)} {as : List α} (h : collect l = .ok as) :
    values l = as := by
  rw [collect_eq_ok.mp h, values_map_ok]

end Fallible
