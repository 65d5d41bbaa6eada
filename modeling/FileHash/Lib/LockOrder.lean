import Mathlib.Order.Basic
import Mathlib.Tactic.Common

/-! Threads that wait for resources which others hold. When what a thread waits for ranks
above all it holds, the waiting cannot go in a circle. -/
namespace FileHash.Lib

variable {T R : Type} {t : T} {r : R}

theorem wait_ends (waits : T → Option R) (holds : T → R → Prop) (rank : R → Nat) (top : Nat)
    (bound : ∀ r, rank r ≤ top)
    (ordered : ∀ t r r', waits t = some r → holds t r' → rank r' < rank r) (wait : waits t = some r) :
    ∃ t' r', waits t' = some r' ∧ ((∀ u, ¬holds u r') ∨ ∃ u, holds u r' ∧ waits u = none) := by
  induction n : top - rank r using Nat.strongRecOn generalizing t r with
  | ind n ih =>
    by_cases free : ∀ u, ¬holds u r
    · exact ⟨t, r, wait, .inl free⟩
    · push Not at free
      obtain ⟨u, held⟩ := free
      cases next : waits u with
      | none => exact ⟨t, r, wait, .inr ⟨u, held, next⟩⟩
      | some r' =>
        have up := ordered u r' r next held
        have low := bound r'
        exact ih (top - rank r') (by omega) next rfl

end FileHash.Lib
