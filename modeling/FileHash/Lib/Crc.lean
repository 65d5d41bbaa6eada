import Mathlib.Data.Nat.Bitwise
import Mathlib.Data.Nat.Prime.Basic
import Mathlib.Dynamics.PeriodicPts.Defs

/-! Cyclic redundancy checks, the low bit first. A remainder modulo a polynomial of degree `w`
is a word below `2 ^ w` whose low bit is the coefficient of the highest power. To take in one
more bit is one multiplication by `x`, which is linear in exclusive or and loses nothing: so
the check of a difference is the difference of the checks, and what it misses are multiples
of the polynomial. -/
namespace FileHash.Lib.Crc

/-- Multiplication by `x`. -/
def shift (poly h : Nat) : Nat := (h >>> 1) ^^^ (if h % 2 = 1 then poly else 0)

def bitStep (poly x : Nat) (b : Bool) : Nat := shift poly (x ^^^ b.toNat)

def serial (poly x : Nat) (l : List Bool) : Nat := l.foldl (bitStep poly) x

def word : List Bool → Nat
  | [] => 0
  | b :: l => Nat.bit b (word l)

/-- The product of two remainders, by the rule of Horner from the highest power of `a` on. -/
def times (poly w a b : Nat) : Nat :=
  (List.range w).foldl (fun r i => shift poly r ^^^ (if a.testBit i then b else 0)) 0

variable {poly w a b h i j k n x : Nat} {l m : List Bool}

@[simp] theorem shift_zero : shift poly 0 = 0 := by simp [shift]

theorem shift_two_mul : shift poly (2 * h) = h := by
  have even : 2 * h % 2 ≠ 1 := by omega
  rw [shift, if_neg even, Nat.xor_zero, Nat.shiftRight_one, Nat.mul_div_cancel_left _ Nat.two_pos]

theorem shift_xor : shift poly (a ^^^ b) = shift poly a ^^^ shift poly b := by
  have parity := @Nat.xor_mod_two_eq_one a b
  simp only [shift, Nat.shiftRight_xor_distrib]
  by_cases ha : a % 2 = 1
  · by_cases hb : b % 2 = 1
    · rw [if_neg (by rw [parity]; tauto), if_pos ha, if_pos hb, Nat.xor_zero,
        Nat.xor_comm (b >>> 1), ← Nat.xor_assoc, Nat.xor_assoc (a >>> 1), Nat.xor_self, Nat.xor_zero]
    · rw [if_pos (by rw [parity]; tauto), if_pos ha, if_neg hb, Nat.xor_zero, Nat.xor_assoc,
        Nat.xor_comm (b >>> 1), ← Nat.xor_assoc]
  · by_cases hb : b % 2 = 1
    · rw [if_pos (by rw [parity]; tauto), if_neg ha, if_pos hb, Nat.xor_zero, Nat.xor_assoc]
    · rw [if_neg (by rw [parity]; tauto), if_neg ha, if_neg hb, Nat.xor_zero, Nat.xor_zero,
        Nat.xor_zero]

theorem shift_lt (fits : poly < 2 ^ w) (low : h < 2 ^ w) : shift poly h < 2 ^ w := by
  refine Nat.xor_lt_two_pow ?_ ?_
  · exact Nat.lt_of_le_of_lt (Nat.shiftRight_le h 1) low
  · split
    · exact fits
    · exact Nat.two_pow_pos w

theorem shift_eq_zero (top : poly.testBit (w - 1) = true) (low : h < 2 ^ w) (gone : shift poly h = 0) :
    h = 0 := by
  by_cases odd : h % 2 = 1
  · rw [shift, if_pos odd] at gone
    have same : h >>> 1 = poly := Nat.xor_eq_zero_iff.mp gone
    have high : (h >>> 1).testBit (w - 1) = false := by
      rw [Nat.testBit_shiftRight]
      exact Nat.testBit_lt_two_pow (Nat.lt_of_lt_of_le low (Nat.pow_le_pow_right Nat.two_pos (by omega)))
    rw [same, top] at high
    cases high
  · rw [shift, if_neg odd, Nat.xor_zero, Nat.shiftRight_one] at gone
    omega

theorem shifts_zero (n : Nat) : (shift poly)^[n] 0 = 0 := Function.iterate_fixed shift_zero n

theorem shifts_xor (n : Nat) : ∀ a b, (shift poly)^[n] (a ^^^ b) = (shift poly)^[n] a ^^^ (shift poly)^[n] b := by
  induction n with
  | zero => exact fun a b => rfl
  | succ n ih =>
    intro a b
    rw [Function.iterate_succ_apply, shift_xor, ih, ← Function.iterate_succ_apply,
      ← Function.iterate_succ_apply]

theorem shifts_two_pow_mul (n : Nat) : (shift poly)^[n] (2 ^ n * h) = h := by
  induction n with
  | zero => rw [Nat.pow_zero, Nat.one_mul, Function.iterate_zero_apply]
  | succ n ih =>
    rw [Function.iterate_succ_apply, Nat.pow_succ', Nat.mul_assoc, shift_two_mul]
    exact ih

theorem shifts_lt (fits : poly < 2 ^ w) (low : h < 2 ^ w) (n : Nat) : (shift poly)^[n] h < 2 ^ w := by
  induction n with
  | zero => exact low
  | succ n ih =>
    rw [Function.iterate_succ_apply']
    exact shift_lt fits ih

theorem shifts_eq_zero (fits : poly < 2 ^ w) (top : poly.testBit (w - 1) = true) (n : Nat)
    (low : h < 2 ^ w) (gone : (shift poly)^[n] h = 0) : h = 0 := by
  induction n with
  | zero => exact gone
  | succ n ih =>
    rw [Function.iterate_succ_apply'] at gone
    exact ih (shift_eq_zero top (shifts_lt fits low n) gone)

/-! The check of a whole message is its number carried through as many multiplications. -/

theorem bit_eq (b : Bool) (h : Nat) : Nat.bit b h = b.toNat ^^^ 2 * h := by
  apply Nat.eq_of_testBit_eq
  intro i
  cases i with
  | zero => cases b <;> simp
  | succ i =>
    have high : b.toNat.testBit (i + 1) = false := by cases b <;> simp [Nat.testBit_succ]
    rw [Nat.testBit_bit_succ, Nat.testBit_xor, high, Nat.testBit_succ, Nat.mul_div_cancel_left _ Nat.two_pos,
      Bool.false_xor]

theorem serial_eq (x : Nat) (l : List Bool) :
    serial poly x l = (shift poly)^[l.length] (x ^^^ word l) := by
  induction l generalizing x with
  | nil => exact (Nat.xor_zero x).symm
  | cons b l ih =>
    have step : serial poly x (b :: l) = serial poly (shift poly (x ^^^ b.toNat)) l := rfl
    rw [step, ih, List.length_cons, Function.iterate_succ_apply, word, bit_eq, ← Nat.xor_assoc,
      @shift_xor _ (x ^^^ b.toNat), shift_two_mul]

theorem testBit_word (l : List Bool) (k : Nat) : (word l).testBit k = l.getD k false := by
  induction l generalizing k with
  | nil => exact Nat.zero_testBit k
  | cons b l ih =>
    cases k with
    | zero => exact Nat.testBit_bit_zero b _
    | succ k => rw [word, Nat.testBit_bit_succ, ih, List.getD_cons_succ]

theorem serial_xor (x : Nat) (same : l.length = m.length) :
    serial poly x l ^^^ serial poly x m = (shift poly)^[l.length] (word l ^^^ word m) := by
  rw [serial_eq, serial_eq, ← same, ← shifts_xor]
  congr 1
  rw [Nat.xor_comm x, Nat.xor_assoc, ← Nat.xor_assoc x, Nat.xor_self, Nat.zero_xor]

/-- A difference within `w` consecutive bits is not a multiple of the polynomial. -/
theorem burst_ne_zero (fits : poly < 2 ^ w) (top : poly.testBit (w - 1) = true) (some : x ≠ 0)
    (window : ∀ k, x.testBit k = true → j ≤ k ∧ k < j + w) (inside : j ≤ n) : (shift poly)^[n] x ≠ 0 := by
  have low : x / 2 ^ j < 2 ^ w := by
    apply Nat.lt_pow_two_of_testBit
    intro i hi
    rw [← Nat.shiftRight_eq_div_pow, Nat.testBit_shiftRight]
    by_contra set
    have := window _ (Bool.eq_true_of_not_eq_false set)
    omega
  have clear : x = 2 ^ j * (x / 2 ^ j) := by
    apply Nat.eq_of_testBit_eq
    intro i
    rw [Nat.testBit_two_pow_mul]
    by_cases hi : j ≤ i
    · rw [← Nat.shiftRight_eq_div_pow, Nat.testBit_shiftRight, Nat.add_sub_cancel' hi, decide_eq_true hi,
        Bool.true_and]
    · rw [decide_eq_false hi, Bool.false_and]
      by_contra set
      exact hi (window i (Bool.eq_true_of_not_eq_false set)).1
  intro gone
  rw [show n = n - j + j by omega, Function.iterate_add_apply, clear, shifts_two_pow_mul] at gone
  rw [shifts_eq_zero fits top _ low gone, Nat.mul_zero] at clear
  exact some clear

/-! The order of `x`: the powers of `x` are the remainders that multiplications by `x` make of one,
and they repeat only after `n` steps if that many steps lead back and no step of a quotient of `n`
by a prime does. -/

/-- `x` to the power `n`, by squaring. -/
def power (poly w : Nat) : Nat → Nat → Nat
  | 0, _ => 2 ^ (w - 1)
  | fuel + 1, n =>
    let r := power poly w fuel (n / 2)
    if n % 2 = 1 then shift poly (times poly w r r) else times poly w r r

theorem horner_step (a : Nat) (hi : i < w) :
    2 ^ (w - (i + 1)) * (a % 2 ^ i) ^^^ (if a.testBit i = true then 2 ^ (w - 1) else 0) =
      2 ^ (w - (i + 1)) * (a % 2 ^ (i + 1)) := by
  apply Nat.eq_of_testBit_eq
  intro k
  have lead : (if a.testBit i = true then 2 ^ (w - 1) else 0 : Nat).testBit k =
      (decide (k = w - 1) && a.testBit i) := by
    split
    next set => rw [Nat.testBit_two_pow, set, Bool.and_true, decide_eq_decide]; exact eq_comm
    next clear => rw [Nat.zero_testBit, Bool.eq_false_of_not_eq_true clear, Bool.and_false]
  rw [Nat.testBit_xor, lead, Nat.testBit_two_pow_mul, Nat.testBit_two_pow_mul, Nat.testBit_mod_two_pow,
    Nat.testBit_mod_two_pow]
  rcases Nat.lt_trichotomy k (w - 1) with low | rfl | high
  · simp only [show k ≠ w - 1 by omega, decide_false, Bool.false_and, Bool.xor_false]
    by_cases reach : k ≥ w - (i + 1)
    · simp [show k - (w - (i + 1)) < i by omega, show k - (w - (i + 1)) < i + 1 by omega]
    · simp [reach]
  · simp [show w - 1 ≥ w - (i + 1) by omega, show w - 1 - (w - (i + 1)) = i by omega]
  · simp [show k ≠ w - 1 by omega, show ¬k - (w - (i + 1)) < i by omega,
      show ¬k - (w - (i + 1)) < i + 1 by omega]

/-- A product with a power of `x` is that many multiplications by `x`. -/
theorem times_eq (low : a < 2 ^ w) (k : Nat) :
    times poly w a ((shift poly)^[k] (2 ^ (w - 1))) = (shift poly)^[k] a := by
  have partial_ : ∀ i ≤ w, (List.range i).foldl (fun r i => shift poly r ^^^
      (if a.testBit i then (shift poly)^[k] (2 ^ (w - 1)) else 0)) 0 =
        (shift poly)^[k] (2 ^ (w - i) * (a % 2 ^ i)) := by
    intro i hi
    induction i with
    | zero => rw [Nat.pow_zero, Nat.mod_one, Nat.mul_zero, shifts_zero]; rfl
    | succ i ih =>
      have down : shift poly (2 ^ (w - i) * (a % 2 ^ i)) = 2 ^ (w - (i + 1)) * (a % 2 ^ i) := by
        rw [show w - i = w - (i + 1) + 1 by omega, Nat.pow_succ', Nat.mul_assoc, shift_two_mul]
      have lead : (if a.testBit i then (shift poly)^[k] (2 ^ (w - 1)) else 0) =
          (shift poly)^[k] (if a.testBit i = true then 2 ^ (w - 1) else 0) := by
        split
        · rfl
        · exact (shifts_zero k).symm
      rw [List.range_succ, List.foldl_append, ih (by omega), List.foldl_cons, List.foldl_nil, lead,
        ← Function.iterate_succ_apply' (shift poly), Function.iterate_succ_apply, ← shifts_xor, down,
        horner_step a (by omega)]
  have whole := partial_ w (Nat.le_refl w)
  rw [Nat.sub_self, Nat.pow_zero, Nat.one_mul, Nat.mod_eq_of_lt low] at whole
  exact whole

theorem power_eq (fits : poly < 2 ^ w) (wide : 0 < w) (fuel n : Nat) (enough : n < 2 ^ fuel) :
    power poly w fuel n = (shift poly)^[n] (2 ^ (w - 1)) := by
  induction fuel generalizing n with
  | zero =>
    rw [show n = 0 by simpa using enough]
    rfl
  | succ fuel ih =>
    have half : n / 2 < 2 ^ fuel := by rw [Nat.pow_succ] at enough; omega
    have one : 2 ^ (w - 1) < 2 ^ w := Nat.pow_lt_pow_right (by decide) (by omega)
    rw [power, ih _ half]
    rw [times_eq (shifts_lt fits one _), ← Function.iterate_add_apply]
    split
    · rw [← Function.iterate_succ_apply' (shift poly)]
      congr 2
      omega
    · congr 2
      omega

theorem minimalPeriod_eq {α : Type*} {f : α → α} {x : α}
    (period : Function.IsPeriodicPt f n x)
    (primes : ∀ q, q.Prime → q ∣ n → ¬Function.IsPeriodicPt f (n / q) x) :
    Function.minimalPeriod f x = n := by
  obtain ⟨c, split⟩ := period.minimalPeriod_dvd
  by_cases one : c = 1
  · rw [one, Nat.mul_one] at split
    exact split.symm
  · obtain ⟨q, prime, r, rest⟩ := Nat.exists_prime_and_dvd one
    refine absurd ?_ (primes q prime ⟨Function.minimalPeriod f x * r, by rw [Nat.mul_left_comm, ← rest]; exact split⟩)
    rw [Function.isPeriodicPt_iff_minimalPeriod_dvd]
    refine ⟨r, Nat.div_eq_of_eq_mul_right prime.pos ?_⟩
    rw [Nat.mul_left_comm, ← rest]
    exact split

theorem two_pow_eq (hi : i < w) : 2 ^ i = (shift poly)^[w - 1 - i] (2 ^ (w - 1)) := by
  have down := @shifts_two_pow_mul poly (2 ^ i) (w - 1 - i)
  rw [← Nat.pow_add, Nat.sub_add_cancel (by omega)] at down
  exact down.symm

/-- A one in a message stands for a power of `x`, as many as bits follow it. -/
theorem shifts_two_pow (wide : 0 < w) (hi : i ≤ n) :
    (shift poly)^[n] (2 ^ i) = (shift poly)^[n - i + (w - 1)] (2 ^ (w - 1)) := by
  have down := @shifts_two_pow_mul poly 1 i
  have one := @two_pow_eq poly w 0 wide
  rw [Nat.pow_zero, Nat.sub_zero] at one
  rw [Nat.mul_one] at down
  rw [Function.iterate_add_apply, ← one, ← down, ← Function.iterate_add_apply, Nat.sub_add_cancel hi]

end FileHash.Lib.Crc
