import Mathlib.Data.List.Basic

/-! A list cut into pieces of one length, as a loop with a fixed stride cuts it, and
when the pieces of a concatenation are its parts again. -/
namespace FileHash.Lib

variable {α : Type*}

/-- The pieces at the offsets `0, size, 2 * size, …` below the length. -/
def cut (size : Nat) : Nat → List α → List (List α)
  | 0, _ => []
  | fuel + 1, l => if l = [] then [] else l.take size :: cut size fuel (l.drop size)

def pieces (size : Nat) (l : List α) : List (List α) := cut size l.length l

variable {size : Nat}

theorem length_flatten_of_uniform {parts : List (List α)}
    (each : ∀ part ∈ parts, part.length = size) : parts.flatten.length = parts.length * size := by
  induction parts with
  | nil => simp
  | cons part parts ih =>
    have tail := ih fun q hq => each q (List.mem_cons_of_mem _ hq)
    have head := each part List.mem_cons_self
    rw [List.flatten_cons, List.length_append, tail, head, List.length_cons, Nat.succ_mul,
      Nat.add_comm]

theorem cut_flatten {fuel : Nat} {parts : List (List α)} (pos : 0 < size)
    (each : ∀ part ∈ parts, part.length = size) (enough : parts.length ≤ fuel) :
    cut size fuel parts.flatten = parts := by
  induction parts generalizing fuel with
  | nil => cases fuel <;> simp [cut]
  | cons part parts ih =>
    cases fuel with
    | zero => simp at enough
    | succ fuel =>
      have head : part.length = size := each part List.mem_cons_self
      have some_left : (part :: parts).flatten ≠ [] := by
        intro none_left
        have := congrArg List.length none_left
        simp only [List.flatten_cons, List.length_append, List.length_nil] at this
        omega
      have tail := ih (fun q hq => each q (List.mem_cons_of_mem _ hq))
        (Nat.le_of_succ_le_succ enough)
      rw [cut, if_neg some_left, List.flatten_cons, List.take_left' head, List.drop_left' head,
        tail]

theorem pieces_flatten {parts : List (List α)} (pos : 0 < size)
    (each : ∀ part ∈ parts, part.length = size) : pieces size parts.flatten = parts := by
  refine cut_flatten pos each ?_
  rw [length_flatten_of_uniform each]
  exact Nat.le_mul_of_pos_right _ pos

theorem length_of_mem_cut {fuel count : Nat} {l part : List α} (whole : l.length = count * size)
    (mem : part ∈ cut size fuel l) : part.length = size := by
  induction fuel generalizing l count with
  | zero => simp [cut] at mem
  | succ fuel ih =>
    rw [cut] at mem
    split at mem
    · simp at mem
    · rename_i some_left
      cases count with
      | zero => simp [List.length_eq_zero_iff.mp (by simpa using whole)] at some_left
      | succ count =>
        rw [Nat.succ_mul] at whole
        rcases List.mem_cons.mp mem with rfl | later
        · rw [List.length_take]
          omega
        · have rest : (l.drop size).length = count * size := by
            rw [List.length_drop]
            omega
          exact ih rest later

theorem length_of_mem_pieces {count : Nat} {l part : List α} (whole : l.length = count * size)
    (mem : part ∈ pieces size l) : part.length = size :=
  length_of_mem_cut whole mem

theorem cut_whole {fuel count : Nat} {l : List α} (pos : 0 < size) (whole : l.length = count * size)
    (enough : count ≤ fuel) : (cut size fuel l).flatten = l ∧ (cut size fuel l).length = count := by
  induction fuel generalizing l count with
  | zero =>
    obtain rfl : count = 0 := Nat.le_zero.mp enough
    rw [Nat.zero_mul] at whole
    rw [List.length_eq_zero_iff.mp whole]
    exact ⟨rfl, rfl⟩
  | succ fuel ih =>
    rw [cut]
    cases count with
    | zero =>
      rw [Nat.zero_mul] at whole
      rw [if_pos (List.length_eq_zero_iff.mp whole), List.length_eq_zero_iff.mp whole]
      exact ⟨rfl, rfl⟩
    | succ count =>
      rw [Nat.succ_mul] at whole
      have some_left : l ≠ [] := by
        rintro rfl
        rw [List.length_nil] at whole
        omega
      have rest : (l.drop size).length = count * size := by
        rw [List.length_drop]
        omega
      obtain ⟨flatten, length⟩ := ih rest (Nat.le_of_succ_le_succ enough)
      rw [if_neg some_left, List.flatten_cons, flatten, List.take_append_drop, List.length_cons, length]
      exact ⟨rfl, rfl⟩

theorem pieces_whole {count : Nat} {l : List α} (pos : 0 < size) (whole : l.length = count * size) :
    (pieces size l).flatten = l ∧ (pieces size l).length = count := by
  refine cut_whole pos whole ?_
  rw [whole]
  exact Nat.le_mul_of_pos_right _ pos

@[simp] theorem pieces_nil : pieces size ([] : List α) = [] := rfl

/-- The list is dealt out in portions of the size, `n` of them; the last ones may be short. -/
def deal (size : Nat) : Nat → List α → List (List α)
  | 0, _ => []
  | n + 1, l => l.take size :: deal size n (l.drop size)

theorem length_deal (n : Nat) (l : List α) : (deal size n l).length = n := by
  induction n generalizing l with
  | zero => rfl
  | succ n ih => rw [deal, List.length_cons, ih]

theorem flatten_deal (n : Nat) (l : List α) : (deal size n l).flatten = l.take (n * size) := by
  induction n generalizing l with
  | zero => simp [deal]
  | succ n ih =>
    rw [deal, List.flatten_cons, ih, Nat.succ_mul, Nat.add_comm, List.take_add]

/-- Portion `i` of the list, when it is cut into portions of the size. -/
def portion (size i : Nat) (l : List α) : List α := (l.drop (i * size)).take size

section Portion

variable {i : Nat} {l : List α}

theorem portion_succ : portion size (i + 1) l = portion size i (l.drop size) := by
  rw [portion, portion, List.drop_drop, Nat.succ_mul, Nat.add_comm]

theorem portion_beyond (past : l.length ≤ i * size) : portion size i l = [] := by
  rw [portion, List.drop_eq_nil_of_le past, List.take_nil]

theorem portion_whole (fits : l.length ≤ size) : portion size 0 l = l := by
  rw [portion, Nat.zero_mul, List.drop_zero, List.take_of_length_le fits]

theorem portion_double : portion (size * 2) i l = portion size (2 * i) l ++ portion size (2 * i + 1) l := by
  have second : (2 * i + 1) * size = 2 * i * size + size := Nat.succ_mul ..
  have first : i * (size * 2) = 2 * i * size := by rw [Nat.mul_comm size, ← Nat.mul_assoc, Nat.mul_comm i]
  rw [portion, portion, portion, second, first, Nat.mul_two, ← List.drop_drop, List.take_add]

end Portion

/-- `v` is written into the list from position `start` on. -/
def overwrite (l : List α) (start : Nat) (v : List α) : List α :=
  l.take start ++ v ++ l.drop (start + v.length)

theorem length_overwrite {l v : List α} {start : Nat} (fits : start + v.length ≤ l.length) :
    (overwrite l start v).length = l.length := by
  simp only [overwrite, List.length_append, List.length_take, List.length_drop]
  omega

theorem overwrite_flatten {parts : List (List α)} {v : List α} {i : Nat}
    (each : ∀ part ∈ parts, part.length = size) (same : v.length = size) (small : i < parts.length) :
    overwrite parts.flatten (i * size) v = (parts.set i v).flatten := by
  induction parts generalizing i with
  | nil => simp at small
  | cons part parts ih =>
    have head : part.length = size := each part List.mem_cons_self
    cases i with
    | zero =>
      rw [overwrite, Nat.zero_mul, List.take_zero, List.nil_append, Nat.zero_add, same,
        List.flatten_cons, List.drop_left' head, List.set_cons_zero, List.flatten_cons]
    | succ i =>
      have rest := ih (fun q hq => each q (List.mem_cons_of_mem _ hq))
        (Nat.lt_of_succ_lt_succ small)
      have start : (i + 1) * size = part.length + i * size := by rw [head, Nat.succ_mul, Nat.add_comm]
      rw [overwrite, start, List.flatten_cons, List.set_cons_succ, List.flatten_cons, ← rest,
        overwrite, List.take_length_add_append, Nat.add_assoc, List.drop_length_add_append]
      simp only [List.append_assoc]

end FileHash.Lib
