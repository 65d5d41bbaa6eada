import Mathlib.Data.List.Basic
import Mathlib.Data.List.Nodup

/-! Singly linked lists in memory: `next` tells of each node which one it points to. -/
namespace FileHash.Lib

variable {α : Type*} {next next' : α → Option α} {p q r : Option α} {xs ys : List α}

/-- The nodes from `p` on are `xs`, and what the last of them points to is `r`. -/
def Seg (next : α → Option α) : Option α → List α → Option α → Prop
  | p, [], r => p = r
  | p, x :: xs, r => p = some x ∧ Seg next (next x) xs r

namespace Seg

theorem append_iff : Seg next p (xs ++ ys) r ↔ ∃ q, Seg next p xs q ∧ Seg next q ys r := by
  induction xs generalizing p with
  | nil =>
    constructor
    · exact fun h => ⟨p, rfl, h⟩
    · rintro ⟨q, rfl, h⟩
      exact h
  | cons x xs ih =>
    rw [List.cons_append, Seg, ih]
    constructor
    · rintro ⟨rfl, q, front, back⟩
      exact ⟨q, ⟨rfl, front⟩, back⟩
    · rintro ⟨q, ⟨rfl, front⟩, back⟩
      exact ⟨rfl, q, front, back⟩

theorem congr (h : Seg next p xs r) (same : ∀ x ∈ xs, next' x = next x) : Seg next' p xs r := by
  induction xs generalizing p with
  | nil => exact h
  | cons x xs ih =>
    refine ⟨h.1, ?_⟩
    rw [same x List.mem_cons_self]
    exact ih h.2 fun y mem => same y (List.mem_cons_of_mem _ mem)

theorem head?_eq (h : Seg next p xs none) : p = xs.head? := by
  cases xs with
  | nil => exact h
  | cons x xs => exact h.1

theorem unique (h : Seg next p xs none) (h' : Seg next p ys none) : xs = ys := by
  induction xs generalizing p ys with
  | nil =>
    cases ys with
    | nil => rfl
    | cons y ys => cases h.symm.trans h'.1
  | cons x xs ih =>
    cases ys with
    | nil => cases h.1.symm.trans h'
    | cons y ys =>
      obtain rfl := Option.some.inj (h.1.symm.trans h'.1)
      rw [ih h.2 h'.2]

theorem nodup (h : Seg next p xs none) : xs.Nodup := by
  induction xs generalizing p with
  | nil => exact List.nodup_nil
  | cons x xs ih =>
    refine List.nodup_cons.mpr ⟨fun mem => ?_, ih h.2⟩
    -- behind its second place the list would go on as behind its first
    obtain ⟨before, behind, rfl⟩ := List.append_of_mem mem
    obtain ⟨q, _, again⟩ := append_iff.mp h.2
    have same := congrArg List.length (unique h.2 again.2)
    simp only [List.length_append, List.length_cons] at same
    omega

theorem snoc {e last : α} (h : Seg next p (xs ++ [last]) r) (tail : next' last = some e)
    (new : next' e = r) (same : ∀ x ∈ xs, next' x = next x) :
    Seg next' p (xs ++ [last] ++ [e]) r := by
  obtain ⟨q, front, rfl, points⟩ := append_iff.mp h
  refine append_iff.mpr ⟨some e, append_iff.mpr ⟨some last, front.congr same, rfl, tail⟩, rfl, new⟩

end Seg
end FileHash.Lib
