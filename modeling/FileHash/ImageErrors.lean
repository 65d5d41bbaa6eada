import FileHash.Lib.Crc
import FileHash.PageIntegrity
import FileHash.Table
import Mathlib.Data.Finset.Card
import Mathlib.Tactic.NormNum.Prime

/-! What the checksum of a page image can miss. The table of the code is eight steps of the
plain CRC at once, so the checksum is linear, and a page passes the check of `pginRoutine` with
the wrong bits only if they make a multiple of the polynomial: never with bits that lie within
one word, and never with one or two bits, however far apart. -/
namespace FileHash

namespace Checksum

open Lib.Crc (shift serial word power)

theorem crc32Poly_lt : crc32Poly < 2 ^ 32 := by decide

theorem crc32Poly_top : crc32Poly.testBit (32 - 1) = true := by decide

theorem crcTable_eq : ∀ i < 256, crcTable i = (shift crc32Poly)^[8] i := by decide +kernel

theorem crc32Byte_eq (x : Nat) (b : UInt8) : crc32Byte x b = (shift crc32Poly)^[8] (x ^^^ b.toNat) := by
  have low : b.toNat >>> 8 = 0 := by
    rw [Nat.shiftRight_eq_div_pow]
    exact Nat.div_eq_of_lt b.toNat_lt
  have parts : x ^^^ b.toNat = 2 ^ 8 * (x >>> 8) ^^^ ((x ^^^ b.toNat) &&& 255) := by
    apply Nat.eq_of_testBit_eq
    intro i
    have high : i ≥ 8 → b.toNat.testBit i = false := fun hi => by
      have := Nat.testBit_shiftRight b.toNat (i := 8) (j := i - 8)
      rw [low, Nat.zero_testBit, Nat.add_sub_cancel' hi] at this
      exact this.symm
    rw [Nat.testBit_xor, Nat.testBit_xor, Nat.testBit_two_pow_mul, show (255 : Nat) = 2 ^ 8 - 1 by rfl,
      Nat.testBit_and, Nat.testBit_two_pow_sub_one, Nat.testBit_xor, Nat.testBit_shiftRight]
    by_cases hi : i ≥ 8
    · simp [hi, high hi, Nat.not_lt.mpr hi]
    · simp [hi, Nat.lt_of_not_ge hi]
  rw [crc32Byte, crcTable_eq _ (low_lt _), ← @Lib.Crc.shifts_two_pow_mul crc32Poly (x >>> 8) 8,
    ← Lib.Crc.shifts_xor, ← parts]

def octet (b : UInt8) : List Bool := (List.range 8).map b.toNat.testBit

theorem word_octet (b : UInt8) : word (octet b) = b.toNat := by
  apply Nat.eq_of_testBit_eq
  intro i
  rw [Lib.Crc.testBit_word, octet, List.getD_eq_getElem?_getD, List.getElem?_map]
  by_cases hi : i < 8
  · rw [List.getElem?_range hi]
    rfl
  · rw [List.getElem?_eq_none (by rw [List.length_range]; omega)]
    exact (Nat.testBit_lt_two_pow (Nat.lt_of_lt_of_le b.toNat_lt
      (Nat.pow_le_pow_right Nat.two_pos (by omega)))).symm

theorem fold_eq (x : Nat) (buf : List UInt8) :
    buf.foldl crc32Byte x = serial crc32Poly x (buf.flatMap octet) := by
  induction buf generalizing x with
  | nil => rfl
  | cons b buf ih =>
    have first : crc32Byte x b = serial crc32Poly x (octet b) := by
      rw [Lib.Crc.serial_eq, word_octet]
      exact crc32Byte_eq x b
    rw [List.foldl_cons, ih, List.flatMap_cons, first]
    exact List.foldl_append.symm

/-- The checksum that the table makes is the plain CRC, a bit at a time, of the same bytes. -/
theorem crc32Checksum_serial (crc : Nat) (buf : List UInt8) :
    crc32Checksum crc buf =
      serial crc32Poly (crc ^^^ 0xffffffff) (buf.flatMap octet) ^^^ 0xffffffff := by
  rw [crc32Checksum, fold_eq]

theorem dvd_order {q : Nat} (prime : q.Prime) (divides : q ∣ 2 ^ 32 - 1) :
    q = 3 ∨ q = 5 ∨ q = 17 ∨ q = 257 ∨ q = 65537 := by
  rw [show 2 ^ 32 - 1 = 3 * 5 * 17 * 257 * 65537 by rfl, prime.dvd_mul, prime.dvd_mul, prime.dvd_mul,
    prime.dvd_mul, Nat.prime_dvd_prime_iff_eq prime (by norm_num), Nat.prime_dvd_prime_iff_eq prime (by norm_num),
    Nat.prime_dvd_prime_iff_eq prime (by norm_num), Nat.prime_dvd_prime_iff_eq prime (by norm_num),
    Nat.prime_dvd_prime_iff_eq prime (by norm_num)] at divides
  tauto

/-- The polynomial is primitive: the powers of `x` run through every nonzero word. -/
theorem crc32_order : Function.minimalPeriod (shift crc32Poly) (2 ^ (32 - 1)) = 2 ^ 32 - 1 := by
  have computed : ∀ n < 2 ^ 32, (shift crc32Poly)^[n] (2 ^ (32 - 1)) = power crc32Poly 32 32 n :=
    fun n hn => (Lib.Crc.power_eq crc32Poly_lt (by decide) 32 n hn).symm
  apply Lib.Crc.minimalPeriod_eq
  · show _ = _
    rw [computed _ (by decide)]
    decide +kernel
  · intro q prime divides back
    have back : _ = _ := back
    rw [computed _ (Nat.lt_of_le_of_lt (Nat.div_le_self _ _) (by decide))] at back
    rcases dvd_order prime divides with rfl | rfl | rfl | rfl | rfl
    · exact absurd back (by decide +kernel)
    · exact absurd back (by decide +kernel)
    · exact absurd back (by decide +kernel)
    · exact absurd back (by decide +kernel)
    · exact absurd back (by decide +kernel)

end Checksum

open Lib.Crc (shift word)
open Checksum (crc32Poly octet)

def Page.bit (p : Page) (k : Nat) : Bool := (p (k / 8)).toNat.testBit (k % 8)

/-- The bits in which an image differs from another. -/
def altered (bsize : Nat) (p q : Page) : Finset Nat :=
  (Finset.range (8 * bsize)).filter fun k => p.bit k ≠ q.bit k

def place (k : Nat) : Nat := if k < 8 * chksumPos then k else k + 32

variable {bsize n : Nat} {c p q : Page}

theorem place_cases (k : Nat) : k < 8 * chksumPos ∧ place k = k ∨ 8 * chksumPos ≤ k ∧ place k = k + 32 := by
  rw [place]
  split
  next low => exact .inl ⟨low, rfl⟩
  next high => exact .inr ⟨Nat.not_lt.mp high, rfl⟩

def rank (s : Nat) : Nat := if s < 8 * chksumPos then s else s - 32

theorem rank_cases (s : Nat) : s < 8 * chksumPos ∧ rank s = s ∨ 8 * chksumPos ≤ s ∧ rank s = s - 32 := by
  rw [rank]
  split
  next low => exact .inl ⟨low, rfl⟩
  next high => exact .inr ⟨Nat.not_lt.mp high, rfl⟩

def InWord (s : Nat) : Prop := 8 * chksumPos ≤ s ∧ s < 8 * chksumOffset

instance : DecidablePred InWord := fun _ => inferInstanceAs (Decidable (_ ∧ _))

theorem not_inWord_place (k : Nat) : ¬InWord (place k) := by
  have cases_ := place_cases k
  simp only [InWord, chksumPos, chksumOffset] at cases_ ⊢
  omega

theorem place_rank {s : Nat} (out : ¬InWord s) : place (rank s) = s := by
  have up := place_cases (rank s)
  have down := rank_cases s
  simp only [InWord, chksumPos, chksumOffset] at out up down
  omega

theorem rank_place (k : Nat) : rank (place k) = k := by
  have up := place_cases k
  have down := rank_cases (place k)
  omega

theorem rank_lt {s : Nat} (whole : chksumOffset ≤ bsize) (hs : s < 8 * bsize) :
    rank s < 8 * (bsize - 4) := by
  have down := rank_cases s
  simp only [chksumPos, chksumOffset] at whole down
  omega

theorem place_lt {k : Nat} (whole : chksumOffset ≤ bsize) (hk : k < 8 * (bsize - 4)) : place k < 8 * bsize := by
  have up := place_cases k
  simp only [chksumOffset] at whole
  omega

theorem flatMap_octet (m : Page) (n : Nat) :
    (Lib.Mem.bytes m n).flatMap octet = (List.range (8 * n)).map (Page.bit m) := by
  induction n with
  | zero => rfl
  | succ n ih =>
    have last : octet (m n) = (List.range 8).map fun i => Page.bit m (8 * n + i) := by
      apply List.map_congr_left
      intro i hi
      have low := List.mem_range.mp hi
      rw [Page.bit, show (8 * n + i) / 8 = n by omega, show (8 * n + i) % 8 = i by omega]
    rw [Lib.Mem.bytes, List.range_succ, List.map_append, List.flatMap_append, ← Lib.Mem.bytes, ih,
      Nat.mul_succ, List.range_add, List.map_append, List.map_map]
    simp only [List.map_cons, List.map_nil, List.flatMap_cons, List.flatMap_nil, List.append_nil]
    exact congrArg _ last

theorem flatMap_covered (p : Page) (whole : chksumOffset ≤ bsize) :
    (covered bsize p).flatMap octet = (List.range (8 * (bsize - 4))).map fun k => p.bit (place k) := by
  have len : 8 * (bsize - 4) = 8 * chksumPos + 8 * (bsize - chksumOffset) := by
    simp only [chksumPos, chksumOffset] at whole ⊢
    omega
  have head : (List.range (8 * chksumPos)).map (Page.bit p) =
      (List.range (8 * chksumPos)).map fun k => p.bit (place k) := by
    apply List.map_congr_left
    intro k hk
    rw [show place k = k from if_pos (List.mem_range.mp hk)]
  have tail : (List.range (8 * (bsize - chksumOffset))).map (Page.bit (Lib.Mem.drop p chksumOffset)) =
      (List.range (8 * (bsize - chksumOffset))).map fun k => p.bit (place (8 * chksumPos + k)) := by
    apply List.map_congr_left
    intro k _
    have up : place (8 * chksumPos + k) = 8 * chksumPos + k + 32 := if_neg (by omega)
    rw [up, Page.bit, Page.bit, Lib.Mem.drop]
    simp only [chksumPos, chksumOffset]
    rw [show (8 * 20 + k + 32) / 8 = 24 + k / 8 by omega, show (8 * 20 + k + 32) % 8 = k % 8 by omega]
  rw [covered, List.flatMap_append, flatMap_octet, flatMap_octet, len, List.range_add, List.map_append,
    List.map_map, head, tail]
  rfl

def coveredError (bsize : Nat) (p q : Page) : Nat :=
  word ((covered bsize p).flatMap octet) ^^^ word ((covered bsize q).flatMap octet)

theorem testBit_coveredError (whole : chksumOffset ≤ bsize) (k : Nat) :
    (coveredError bsize p q).testBit k = true ↔ k < 8 * (bsize - 4) ∧ place k ∈ altered bsize p q := by
  have bits : ∀ m : Page, (word ((covered bsize m).flatMap octet)).testBit k =
      (decide (k < 8 * (bsize - 4)) && m.bit (place k)) := fun m => by
    rw [Lib.Crc.testBit_word, flatMap_covered m whole, List.getD_eq_getElem?_getD, List.getElem?_map]
    by_cases hk : k < 8 * (bsize - 4)
    · rw [List.getElem?_range hk, decide_eq_true hk]
      rfl
    · rw [List.getElem?_eq_none (by rw [List.length_range]; omega), decide_eq_false hk]
      rfl
  rw [coveredError, Nat.testBit_xor, bits, bits, altered, Finset.mem_filter, Finset.mem_range]
  by_cases hk : k < 8 * (bsize - 4)
  · simp [hk, place_lt whole hk]
  · simp [hk]

theorem testBit_chksumError (whole : chksumOffset ≤ bsize) (i : Nat) :
    (Page.chksum p ^^^ Page.chksum q).testBit i = true ↔ i < 32 ∧ 8 * chksumPos + i ∈ altered bsize p q := by
  have bits : ∀ m : Page, (Page.chksum m).testBit i = (decide (i < 32) && m.bit (8 * chksumPos + i)) := fun m => by
    have bytes : Page.chksum m = 2 ^ 8 * (2 ^ 8 * (2 ^ 8 * (m 23).toNat + (m 22).toNat) + (m 21).toNat) +
        (m 20).toNat := by
      rw [Page.chksum, Lib.Mem.read32]
      ring
    have low : ∀ (b : UInt8) (j : Nat), 8 ≤ j → b.toNat.testBit j = false := fun b j hj =>
      Nat.testBit_lt_two_pow (Nat.lt_of_lt_of_le b.toNat_lt (Nat.pow_le_pow_right Nat.two_pos hj))
    rw [bytes, Nat.testBit_two_pow_mul_add _ (UInt8.toNat_lt _), Nat.testBit_two_pow_mul_add _ (UInt8.toNat_lt _),
      Nat.testBit_two_pow_mul_add _ (UInt8.toNat_lt _), Page.bit, chksumPos]
    rcases (by omega : i < 8 ∨ 8 ≤ i ∧ i < 16 ∨ 16 ≤ i ∧ i < 24 ∨ 24 ≤ i ∧ i < 32 ∨ 32 ≤ i) with h | h | h | h | h
    · rw [if_pos h, show (8 * 20 + i) / 8 = 20 by omega, show (8 * 20 + i) % 8 = i by omega]
      simp [show i < 32 by omega]
    · rw [if_neg (by omega), if_pos (by omega), show (8 * 20 + i) / 8 = 21 by omega,
        show (8 * 20 + i) % 8 = i - 8 by omega]
      simp [show i < 32 by omega]
    · rw [if_neg (by omega), if_neg (by omega), if_pos (by omega), show (8 * 20 + i) / 8 = 22 by omega,
        show (8 * 20 + i) % 8 = i - 8 - 8 by omega]
      simp [show i < 32 by omega]
    · rw [if_neg (by omega), if_neg (by omega), if_neg (by omega), show (8 * 20 + i) / 8 = 23 by omega,
        show (8 * 20 + i) % 8 = i - 8 - 8 - 8 by omega]
      simp [show i < 32 by omega]
    · rw [if_neg (by omega), if_neg (by omega), if_neg (by omega), low _ _ (by omega), decide_eq_false (by omega),
        Bool.false_and]
  rw [Nat.testBit_xor, bits, bits, altered, Finset.mem_filter, Finset.mem_range]
  by_cases hi : i < 32
  · have inside : 8 * chksumPos + i < 8 * bsize := by
      simp only [chksumPos, chksumOffset] at whole ⊢
      omega
    simp [hi, inside]
  · simp [hi]

theorem pageChecksum_error (whole : chksumOffset ≤ bsize) : pageChecksum bsize p ^^^ pageChecksum bsize q =
    (shift crc32Poly)^[8 * (bsize - 4)] (coveredError bsize p q) := by
  rw [pageChecksum_eq, pageChecksum_eq, Checksum.crc32Checksum_serial, Checksum.crc32Checksum_serial]
  have len : ∀ m : Page, ((covered bsize m).flatMap octet).length = 8 * (bsize - 4) := fun m => by
    rw [flatMap_covered m whole, List.length_map, List.length_range]
  have linear := @Lib.Crc.serial_xor crc32Poly _ _ (0 ^^^ 0xffffffff) ((len p).trans (len q).symm)
  rw [len] at linear
  rw [coveredError, ← linear, Nat.xor_comm (Lib.Crc.serial _ _ ((covered bsize q).flatMap octet)),
    ← Nat.xor_assoc, Nat.xor_xor_cancel_right]

theorem accepted_error (whole : chksumOffset ≤ bsize) (sign : q.pageSign = pageMagic)
    (taken : pginRoutine bsize false n q ≠ none) :
    (shift crc32Poly)^[8 * (bsize - 4)] (coveredError bsize (pgoutRoutine bsize false n c) q) =
      (pgoutRoutine bsize false n c).chksum ^^^ q.chksum := by
  have passed : pageChecksum bsize q = q.chksum := by
    by_contra fails
    apply taken
    simp only [pginRoutine, Bool.false_eq_true, if_false, sign, ne_eq, not_true]
    exact if_pos fails
  rw [← pageChecksum_error whole, ← chksum_pgout, passed]

theorem error_eq_zero (whole : chksumOffset ≤ bsize) (out : ∀ s ∈ altered bsize p q, InWord s) :
    coveredError bsize p q = 0 := by
  apply Nat.zero_of_testBit_eq_false
  intro k
  by_contra set
  exact not_inWord_place k (out _ ((testBit_coveredError whole k).mp (Bool.eq_true_of_not_eq_false set)).2)

theorem chksum_eq_zero (whole : chksumOffset ≤ bsize) (out : ∀ s ∈ altered bsize p q, ¬InWord s) :
    Page.chksum p ^^^ Page.chksum q = 0 := by
  apply Nat.zero_of_testBit_eq_false
  intro i
  by_contra set
  obtain ⟨low, mem⟩ := (testBit_chksumError whole i).mp (Bool.eq_true_of_not_eq_false set)
  refine out _ mem ⟨Nat.le_add_right _ _, ?_⟩
  simp only [chksumPos, chksumOffset]
  omega

/-- Wrong bits within 32 consecutive ones are found, if they lie on one side of the checksum word
or in it. -/
theorem burst_refused (bsize n j : Nat) (c q : Page) (whole : chksumOffset ≤ bsize)
    (side : j + 32 ≤ 8 * chksumPos ∨ j = 8 * chksumPos ∨ 8 * chksumOffset ≤ j)
    (wrong : (altered bsize (pgoutRoutine bsize false n c) q).Nonempty)
    (window : ∀ k ∈ altered bsize (pgoutRoutine bsize false n c) q, j ≤ k ∧ k < j + 32)
    (sign : q.pageSign = pageMagic) : pginRoutine bsize false n q = none := by
  by_contra taken
  obtain ⟨s, mem⟩ := wrong
  have small := Finset.mem_range.mp (Finset.mem_filter.mp mem).1
  have error := accepted_error (c := c) whole sign taken
  have near := window s mem
  by_cases inside : j = 8 * chksumPos
  · -- the bits covered are right, and so must the word be
    rw [error_eq_zero whole, Lib.Crc.shifts_zero] at error
    · have at_ : 8 * chksumPos + (s - 8 * chksumPos) = s := by omega
      have set := (testBit_chksumError whole (s - 8 * chksumPos)).mpr ⟨by omega, at_.symm ▸ mem⟩
      rw [← error, Nat.zero_testBit] at set
      cases set
    · intro s mem
      have near := window s mem
      simp only [InWord, chksumPos, chksumOffset] at inside ⊢
      omega
  · have out : ∀ s, j ≤ s ∧ s < j + 32 → ¬InWord s := fun s near => by
      simp only [InWord, chksumPos, chksumOffset] at inside side ⊢
      omega
    rw [chksum_eq_zero whole fun s mem => out s (window s mem)] at error
    have set := (testBit_coveredError whole (rank s)).mpr
      ⟨rank_lt whole small, (place_rank (out s near)).symm ▸ mem⟩
    refine Lib.Crc.burst_ne_zero Checksum.crc32Poly_lt Checksum.crc32Poly_top (j := rank j) ?_ ?_ ?_ error
    · intro none
      rw [none, Nat.zero_testBit] at set
      cases set
    · intro k bit
      have near := window _ ((testBit_coveredError whole k).mp bit).2
      have up := place_cases k
      have down := rank_cases j
      simp only [chksumPos, chksumOffset] at inside side up down
      omega
    · have first := rank_cases s
      have down := rank_cases j
      have below := rank_lt whole small
      simp only [chksumPos, chksumOffset] at inside side first down
      omega

def blankImage : Page := pgoutRoutine 512 false 3 (initPage 512 (fun _ => 0) 3 hashDataPage)

theorem altered_blank {i j : Nat} {u v : UInt8} {k : Nat} (hi : blankImage i = 0) (hj : blankImage j = 0)
    (mem : k ∈ altered 512 blankImage (Function.update (Function.update blankImage i u) j v)) :
    k / 8 = j ∧ v.toNat.testBit (k % 8) = true ∨ k / 8 = i ∧ u.toNat.testBit (k % 8) = true := by
  have ne := (Finset.mem_filter.mp mem).2
  rw [Page.bit, Page.bit] at ne
  by_cases second : k / 8 = j
  · rw [second, hj, Function.update_self] at ne
    exact .inl ⟨second, by simpa using ne⟩
  · by_cases first : k / 8 = i
    · rw [Function.update_of_ne second, first, hi, Function.update_self] at ne
      exact .inr ⟨first, by simpa using ne⟩
    · rw [Function.update_of_ne second, Function.update_of_ne first] at ne
      exact absurd rfl ne

theorem burst_refused_bytes : pginRoutine 512 false 3
    (Function.update (Function.update blankImage 100 7) 102 255) = none := by
  refine burst_refused 512 3 800 (initPage 512 (fun _ => 0) 3 hashDataPage) _ (by decide) (.inr (.inr (by decide)))
    ⟨800, Finset.mem_filter.mpr ⟨Finset.mem_range.mpr (by decide), by decide⟩⟩ (fun k mem => ?_) (by decide)
  rcases altered_blank (by rfl) (by rfl) mem with ⟨at_, _⟩ | ⟨at_, _⟩
  · omega
  · omega

def coveredBit (s : Nat) : Nat := if InWord s then 0 else 2 ^ rank s

def wordBit (s : Nat) : Nat := if InWord s then 2 ^ (s - 8 * chksumPos) else 0

/-- The power of `x` that a wrong bit adds to the difference of the checksum and its word. -/
def exponent (bsize s : Nat) : Nat :=
  if InWord s then 32 - 1 - (s - 8 * chksumPos) else 8 * (bsize - 4) - rank s + (32 - 1)

theorem testBit_coveredBit (s k : Nat) : (coveredBit s).testBit k = decide (place k = s) := by
  rw [coveredBit]
  split
  next inside =>
    rw [Nat.zero_testBit, decide_eq_false]
    rintro rfl
    exact not_inWord_place k inside
  next out =>
    rw [Nat.testBit_two_pow, decide_eq_decide]
    constructor
    · rintro rfl
      exact place_rank out
    · rintro rfl
      exact rank_place k

theorem testBit_wordBit (s i : Nat) : (wordBit s).testBit i = decide (i < 32 ∧ 8 * chksumPos + i = s) := by
  rw [wordBit]
  split
  next inside =>
    rw [Nat.testBit_two_pow, decide_eq_decide]
    simp only [InWord, chksumPos, chksumOffset] at inside ⊢
    omega
  next out =>
    rw [Nat.zero_testBit, decide_eq_false]
    simp only [InWord, chksumPos, chksumOffset] at out ⊢
    omega

theorem mem_altered {s : Nat} (mem : s ∈ altered bsize p q) : s < 8 * bsize :=
  Finset.mem_range.mp (Finset.mem_filter.mp mem).1

theorem coveredError_iff (whole : chksumOffset ≤ bsize) (k : Nat) :
    (coveredError bsize p q).testBit k = true ↔ place k ∈ altered bsize p q := by
  rw [testBit_coveredError whole, and_iff_right_of_imp]
  intro mem
  have low := rank_lt whole (mem_altered mem)
  rwa [rank_place] at low

theorem error_single (whole : chksumOffset ≤ bsize) {a : Nat} (only : altered bsize p q = {a}) :
    coveredError bsize p q = coveredBit a ∧ Page.chksum p ^^^ Page.chksum q = wordBit a := by
  constructor
  · apply Nat.eq_of_testBit_eq
    intro k
    rw [testBit_coveredBit, Bool.eq_iff_iff, coveredError_iff whole, only, Finset.mem_singleton, decide_eq_true_iff]
  · apply Nat.eq_of_testBit_eq
    intro i
    rw [testBit_wordBit, Bool.eq_iff_iff, testBit_chksumError whole, only, Finset.mem_singleton, decide_eq_true_iff]

theorem error_pair (whole : chksumOffset ≤ bsize) {a b : Nat} (ne : a ≠ b) (both : altered bsize p q = {a, b}) :
    coveredError bsize p q = coveredBit a ^^^ coveredBit b ∧
      Page.chksum p ^^^ Page.chksum q = wordBit a ^^^ wordBit b := by
  constructor
  · apply Nat.eq_of_testBit_eq
    intro k
    rw [Nat.testBit_xor, testBit_coveredBit, testBit_coveredBit, Bool.eq_iff_iff, coveredError_iff whole, both,
      Finset.mem_insert, Finset.mem_singleton]
    by_cases first : place k = a
    · have second : place k ≠ b := fun same => ne (first.symm.trans same)
      simp [first, ne]
    · simp [first]
  · apply Nat.eq_of_testBit_eq
    intro i
    rw [Nat.testBit_xor (wordBit a), testBit_wordBit, testBit_wordBit, Bool.eq_iff_iff, testBit_chksumError whole,
      both, Finset.mem_insert, Finset.mem_singleton]
    by_cases first : 8 * chksumPos + i = a
    · have second : 8 * chksumPos + i ≠ b := fun same => ne (first.symm.trans same)
      simp [first, ne]
    · simp [first]

theorem syndrome (whole : chksumOffset ≤ bsize) {s : Nat} (hs : s < 8 * bsize) :
    (shift crc32Poly)^[8 * (bsize - 4)] (coveredBit s) ^^^ wordBit s =
      (shift crc32Poly)^[exponent bsize s] (2 ^ (32 - 1)) := by
  rw [coveredBit, wordBit, exponent]
  split
  next inside =>
    have low : s - 8 * chksumPos < 32 := by
      simp only [InWord, chksumPos, chksumOffset] at inside ⊢
      omega
    rw [Lib.Crc.shifts_zero, Nat.zero_xor]
    exact @Lib.Crc.two_pow_eq crc32Poly 32 _ low
  next out =>
    rw [Nat.xor_zero]
    exact @Lib.Crc.shifts_two_pow crc32Poly 32 _ _ (by decide) (Nat.le_of_lt (rank_lt whole hs))

theorem exponent_cases (bsize s : Nat) : InWord s ∧ exponent bsize s = 32 - 1 - (s - 8 * chksumPos) ∨
    ¬InWord s ∧ exponent bsize s = 8 * (bsize - 4) - rank s + (32 - 1) := by
  rw [exponent]
  split
  next inside => exact .inl ⟨inside, rfl⟩
  next out => exact .inr ⟨out, rfl⟩

theorem exponent_inj (whole : chksumOffset ≤ bsize) {a b : Nat} (ha : a < 8 * bsize) (hb : b < 8 * bsize)
    (same : exponent bsize a = exponent bsize b) : a = b := by
  have low := rank_lt whole ha
  have low' := rank_lt whole hb
  have first := exponent_cases bsize a
  have second := exponent_cases bsize b
  have down := rank_cases a
  have down' := rank_cases b
  simp only [InWord, chksumPos, chksumOffset] at first second down down'
  omega

/-- One or two wrong bits are found wherever they are, the checksum word included. -/
theorem two_bits_refused (bsize n : Nat) (c q : Page) (whole : chksumOffset ≤ bsize) (small : bsize ≤ maxBsize)
    (wrong : (altered bsize (pgoutRoutine bsize false n c) q).Nonempty)
    (few : (altered bsize (pgoutRoutine bsize false n c) q).card ≤ 2)
    (sign : q.pageSign = pageMagic) : pginRoutine bsize false n q = none := by
  by_contra taken
  have error := accepted_error (c := c) whole sign taken
  have some := Finset.card_pos.mpr wrong
  have order : ∀ s, exponent bsize s < 2 ^ 32 - 1 := fun s => by
    have := exponent_cases bsize s
    simp only [maxBsize] at small
    omega
  rcases (by omega : (altered bsize (pgoutRoutine bsize false n c) q).card = 1 ∨
    (altered bsize (pgoutRoutine bsize false n c) q).card = 2) with one | two
  · obtain ⟨a, only⟩ := Finset.card_eq_one.mp one
    have inside : a < 8 * bsize := mem_altered (by rw [only]; exact Finset.mem_singleton_self a)
    obtain ⟨covers, word⟩ := error_single whole only
    have power := syndrome whole inside
    rw [← covers, ← word, error, Nat.xor_self] at power
    have := Lib.Crc.shifts_eq_zero Checksum.crc32Poly_lt Checksum.crc32Poly_top _ (by decide) power.symm
    exact absurd this (by decide)
  · obtain ⟨a, b, ne, both⟩ := Finset.card_eq_two.mp two
    have ha : a < 8 * bsize := mem_altered (by rw [both]; exact Finset.mem_insert_self a _)
    have hb : b < 8 * bsize := mem_altered (by rw [both]; exact Finset.mem_insert_of_mem (Finset.mem_singleton_self b))
    obtain ⟨covers, word⟩ := error_pair whole ne both
    rw [covers, word, Lib.Crc.shifts_xor] at error
    have swap : ∀ x y z t : Nat, (x ^^^ y) ^^^ (z ^^^ t) = (x ^^^ z) ^^^ (y ^^^ t) := fun x y z t => by ac_rfl
    have powers : (shift crc32Poly)^[exponent bsize a] (2 ^ (32 - 1)) ^^^
        (shift crc32Poly)^[exponent bsize b] (2 ^ (32 - 1)) = 0 := by
      rw [← syndrome whole ha, ← syndrome whole hb, swap, error, Nat.xor_self]
    refine ne (exponent_inj whole ha hb (Function.iterate_injOn_Iio_minimalPeriod ?_ ?_
      (Nat.xor_eq_zero_iff.mp powers)))
    · rw [Checksum.crc32_order]
      exact order a
    · rw [Checksum.crc32_order]
      exact order b

theorem two_bits_refused_ends : pginRoutine 512 false 3
    (Function.update (Function.update blankImage 100 1) 511 128) = none := by
  have bits : ∀ i < 8, ((1 : UInt8).toNat.testBit i = true → i = 0) ∧
    ((128 : UInt8).toNat.testBit i = true → i = 7) := by decide
  refine two_bits_refused 512 3 (initPage 512 (fun _ => 0) 3 hashDataPage) _ (by decide) (by decide)
    ⟨800, Finset.mem_filter.mpr ⟨Finset.mem_range.mpr (by decide), by decide⟩⟩ ?_ (by decide)
  refine (Finset.card_le_card (t := {800, 4095}) fun k mem => ?_).trans Finset.card_le_two
  rw [Finset.mem_insert, Finset.mem_singleton]
  have low := bits (k % 8) (Nat.mod_lt k (by decide))
  rcases altered_blank (by rfl) (by rfl) mem with ⟨at_, set⟩ | ⟨at_, set⟩
  · have := low.2 set
    omega
  · have := low.1 set
    omega

end FileHash
