import Mathlib

/-! Spans of indices that follow each other. They reach from one end to the other, and
cover every index between once. -/
namespace FileHash.Lib

structure Span where
  start : Nat
  len : Nat
  deriving DecidableEq, Repr

def Span.covers (c : Span) (i : Nat) : Bool := decide (c.start ≤ i) && decide (i < c.start + c.len)

/-- The spans go from `a` to `b` without gap or overlap. -/
def Tiles : Nat → List Span → Nat → Prop
  | a, [], b => a = b
  | a, c :: l, b => c.start = a ∧ Tiles (a + c.len) l b

def totalLen (l : List Span) : Nat := (l.map Span.len).sum

variable {a b n i : Nat} {c : Span} {l l' : List Span}

@[simp] theorem totalLen_nil : totalLen [] = 0 := rfl

@[simp] theorem totalLen_cons : totalLen (c :: l) = c.len + totalLen l := by simp [totalLen]

@[simp] theorem totalLen_append : totalLen (l ++ l') = totalLen l + totalLen l' := by
  simp [totalLen]

theorem Tiles.append (h : Tiles a l b) (h' : Tiles b l' n) : Tiles a (l ++ l') n := by
  induction l generalizing a with
  | nil =>
    cases h
    exact h'
  | cons c l ih => exact ⟨h.1, ih h.2⟩

theorem Tiles.total (h : Tiles a l b) : b = a + totalLen l := by
  induction l generalizing a with
  | nil => exact h.symm
  | cons c l ih =>
    rw [totalLen_cons, ih h.2]
    omega

theorem Tiles.inside (h : Tiles a l b) (mem : c ∈ l) : a ≤ c.start ∧ c.start + c.len ≤ b := by
  induction l generalizing a with
  | nil => cases mem
  | cons d l ih =>
    obtain ⟨rfl, rest⟩ := h
    rcases List.mem_cons.mp mem with rfl | later
    · have := rest.total
      omega
    · have := ih rest later
      omega

theorem Tiles.chain (h : Tiles a l b) : l.IsChain fun x y => y.start = x.start + x.len := by
  induction l generalizing a with
  | nil => exact List.isChain_nil
  | cons c l ih =>
    obtain ⟨rfl, rest⟩ := h
    cases l with
    | nil => exact List.isChain_singleton c
    | cons d l => exact List.isChain_cons_cons.mpr ⟨rest.1, ih rest⟩

theorem Tiles.count (h : Tiles a l b) (low : a ≤ i) (high : i < b) :
    l.countP (fun c => c.covers i) = 1 := by
  induction l generalizing a with
  | nil =>
    have : a = b := h
    omega
  | cons c l ih =>
    obtain ⟨rfl, rest⟩ := h
    by_cases here : i < c.start + c.len
    · have later : ∀ d ∈ l, ¬d.covers i = true := by
        intro d mem
        have := rest.inside mem
        simp only [Span.covers, Bool.and_eq_true, decide_eq_true_eq]
        omega
      have first : c.covers i = true := by simp [Span.covers, low, here]
      rw [List.countP_cons_of_pos (p := fun c : Span => c.covers i) first, List.countP_eq_zero.mpr later]
    · have first : ¬c.covers i = true := by simp [Span.covers, here]
      rw [List.countP_cons_of_neg (p := fun c : Span => c.covers i) first]
      exact ih rest (not_lt.mp here)

end FileHash.Lib
