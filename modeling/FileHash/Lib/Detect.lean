import Mathlib.Data.Set.Function
import Mathlib.Data.List.Basic

/-! Folds that tell their inputs apart. A step that is injective in the state for each
letter carries a difference of two states to the end of the input, and a step that is
injective in the letter makes one from a difference of two letters. -/
namespace FileHash.Lib

variable {σ α : Type*} {f : σ → α → σ} {s : Set σ}

theorem foldl_injOn (keep : ∀ x ∈ s, ∀ a, f x a ∈ s) (inj : ∀ a, Set.InjOn (fun x => f x a) s)
    (l : List α) : Set.InjOn (fun x => l.foldl f x) s := by
  induction l with
  | nil => exact fun x _ y _ same => same
  | cons a l ih =>
    intro x hx y hy same
    exact inj a hx hy (ih (keep x hx a) (keep y hy a) same)

theorem foldl_ne_of_set (keep : ∀ x ∈ s, ∀ a, f x a ∈ s)
    (inj : ∀ a, Set.InjOn (fun x => f x a) s) (sep : ∀ x ∈ s, Function.Injective (f x))
    {l : List α} {i : Nat} {b : α} (hi : i < l.length) (ne : b ≠ l[i]) {x : σ} (hx : x ∈ s) :
    (l.set i b).foldl f x ≠ l.foldl f x := by
  induction l generalizing i x with
  | nil => exact absurd hi (Nat.not_lt_zero i)
  | cons a l ih =>
    cases i with
    | zero =>
      intro same
      have first := foldl_injOn keep inj l (keep x hx b) (keep x hx a) same
      exact ne (sep x hx first)
    | succ i => exact ih (Nat.lt_of_succ_lt_succ hi) ne (keep x hx a)

end FileHash.Lib
