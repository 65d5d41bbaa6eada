import Mathlib.Algebra.Order.Ring.Nat
import Mathlib.Tactic.Ring

/-! Addresses in a hash table that grows by one bucket at a time. With `2 ^ k` to `2 ^ (k + 1)`
buckets a value goes by its last `k + 1` digits where there is such a bucket, and by its
last `k` digits where there is none yet. -/
namespace FileHash.Lib

variable {k size : Nat}

def address (k size n : Nat) : Nat := if n % 2 ^ (k + 1) < size then n % 2 ^ (k + 1) else n % 2 ^ k

theorem address_lt (low : 2 ^ k ≤ size) (n : Nat) : address k size n < size := by
  unfold address
  split
  · assumption
  · exact (Nat.mod_lt n (Nat.two_pow_pos k)).trans_le low

theorem address_full (n : Nat) : address (k + 1) (2 ^ (k + 1)) n = address k (2 ^ (k + 1)) n := by
  have low := Nat.mod_lt n (Nat.two_pow_pos (k + 1))
  unfold address
  rw [if_pos low]
  split
  · rename_i small
    rw [← Nat.mod_eq_of_lt small, Nat.mod_mod_of_dvd n (pow_dvd_pow 2 (Nat.le_succ (k + 1)))]
  · rfl

/-- One more bucket: the values that go there come from the bucket `2 ^ k` below. -/
theorem address_grow (low : 2 ^ k ≤ size) (high : size < 2 ^ (k + 1)) (n : Nat) :
    (address k size n = size - 2 ^ k ∧ address k (size + 1) n = size) ∨
      address k (size + 1) n = address k size n := by
  unfold address
  by_cases new : n % 2 ^ (k + 1) = size
  · have whole : 2 ^ (k + 1) = 2 * 2 ^ k := by ring
    have lower : n % 2 ^ k = size - 2 ^ k := by
      rw [← Nat.mod_mod_of_dvd n (pow_dvd_pow 2 (Nat.le_succ k)), new, Nat.mod_eq_sub_mod low,
        Nat.mod_eq_of_lt (by omega)]
    exact .inl ⟨by rw [if_neg (by omega), lower], by rw [if_pos (by omega), new]⟩
  · right
    by_cases there : n % 2 ^ (k + 1) < size
    · rw [if_pos there, if_pos (by omega)]
    · rw [if_neg there, if_neg (by omega)]

end FileHash.Lib
