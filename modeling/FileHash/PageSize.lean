import FileHash.InitialLayout
import Mathlib.Order.Bounds.Basic

/-! How the size of a page is chosen, in the words of the machine: the limit of `__ffdb_log2`
has 32 bits, and the size a shift makes of its answer is a signed number. -/
namespace FileHash

/-- The loop of `__ffdb_log2`; `none` when it has not come to its end. -/
def log2Word (num : Nat) : Nat → Nat → Nat → Option Nat
  | 0, _, _ => none
  | fuel + 1, limit, i => if limit < num then log2Word num fuel (u32 (limit * 2)) (u32 (i + 1)) else some i

def signed32 (v : Nat) : Int := if u32 v < 0x80000000 then u32 v else (u32 v : Int) - 0x100000000

/-- A signed number as the `size_t` it is converted to. -/
def sizeOfInt (v : Int) : Int := v % 0x10000000000000000

namespace Htab

/-- The page size that is asked for; `0` leaves it to the file system. -/
def Opening.asked (o : Opening) : Nat := o.option Hashinfo.bsize 0

/-- `_ffdb_init_hash`, as far as the page size and its logarithm go: the inner `none` is a
refusal, the outer one a loop that has not come to its end. -/
def initHashWord (o : Opening) (fuel : Nat) : Option (Option (Int × Nat)) := do
  let bshift ← log2Word (u32 o.blksize) fuel 1 0
  if o.asked = 0 then pure (some (signed32 o.blksize, bshift))
  else
    let bshift ← log2Word o.asked fuel 1 0
    let bsize := signed32 (2 ^ bshift)
    if maxBsize < bsize then pure none
    else if sizeOfInt bsize < hashhdrSize then pure none
    else pure (some (bsize, bshift))

end Htab

section Loop

variable {num i fuel : Nat}

theorem log2Word_up (bound : num ≤ 2 ^ 31) (rest : Nat) (reach : i + rest = max i (Nat.clog 2 num))
    (enough : rest < fuel) (low : i ≤ 31) : log2Word num fuel (2 ^ i) i = some (max i (Nat.clog 2 num)) := by
  induction rest generalizing i fuel with
  | zero =>
    obtain ⟨fuel, rfl⟩ := Nat.exists_eq_succ_of_ne_zero (Nat.ne_of_gt enough)
    have done : num ≤ 2 ^ i := Nat.clog_le_iff_le_pow (by decide) |>.mp (by omega)
    rw [log2Word, if_neg (not_lt.mpr done), ← reach, Nat.add_zero]
  | succ rest ih =>
    obtain ⟨fuel, rfl⟩ := Nat.exists_eq_succ_of_ne_zero (Nat.ne_of_gt (Nat.zero_lt_of_lt enough))
    have more : i < Nat.clog 2 num := by omega
    have less : 2 ^ i < num := (Nat.lt_clog_iff_pow_lt (by decide)).mp more
    have below : i < 31 := (Nat.pow_lt_pow_iff_right (a := 2) (by decide)).mp (less.trans_le bound)
    have word : 2 ^ (i + 1) ≤ 2 ^ 31 := Nat.pow_le_pow_right (by decide) below
    have next : u32 (2 ^ i * 2) = 2 ^ (i + 1) := by
      rw [← pow_succ]
      exact Nat.mod_eq_of_lt (word.trans_lt (by decide))
    have count : u32 (i + 1) = i + 1 := Nat.mod_eq_of_lt (by omega)
    rw [log2Word, if_pos less, next, count, ih (by omega) (by omega) below]
    congr 1
    omega

theorem log2Word_eq (bound : num ≤ 2 ^ 31) (enough : 32 ≤ fuel) :
    log2Word num fuel 1 0 = some (Nat.clog 2 num) := by
  have top : Nat.clog 2 num ≤ 31 := Nat.clog_le_of_le_pow bound
  have up := @log2Word_up num 0 fuel bound (Nat.clog 2 num) (by omega) (by omega) (by decide)
  rwa [pow_zero, max_eq_right (Nat.zero_le _)] at up

theorem log2Word_none (high : 2 ^ 31 < num) (limit : Nat) (power : limit = 0 ∨ ∃ k ≤ 31, limit = 2 ^ k) :
    log2Word num fuel limit i = none := by
  induction fuel generalizing limit i with
  | zero => rfl
  | succ fuel ih =>
    have less : limit < num := by
      rcases power with rfl | ⟨k, low, rfl⟩
      · exact Nat.zero_lt_of_lt high
      · exact (Nat.pow_le_pow_right (by decide) low).trans_lt high
    rw [log2Word, if_pos less]
    refine ih _ ?_
    rcases power with rfl | ⟨k, low, rfl⟩
    · exact .inl rfl
    · by_cases last : k = 31
      · rw [last]
        exact .inl rfl
      · refine .inr ⟨k + 1, by omega, ?_⟩
        rw [← pow_succ]
        exact Nat.mod_eq_of_lt (Nat.pow_lt_pow_right (by decide : 1 < 2) (by omega : k + 1 < 32))

end Loop

def Log2Ends (num : Nat) : Prop :=
  ∃ i n, IsLeast { i | num ≤ 2 ^ i } i ∧ ∀ fuel, n ≤ fuel → log2Word num fuel 1 0 = some i

theorem isLeast_clog (num : Nat) : IsLeast { i | num ≤ 2 ^ i } (Nat.clog 2 num) :=
  ⟨Nat.le_pow_clog (by decide) num, fun _ le => Nat.clog_le_of_le_pow le⟩

theorem log2Ends_iff {num : Nat} : Log2Ends num ↔ num ≤ 2 ^ 31 := by
  constructor
  · rintro ⟨i, n, -, ends⟩
    by_contra high
    have never := @log2Word_none _ 0 n (not_le.mp high) 1 (.inr ⟨0, by decide, rfl⟩)
    exact Option.some_ne_none i ((ends n le_rfl).symm.trans never)
  · intro low
    exact ⟨Nat.clog 2 num, 32, isLeast_clog num, fun _ enough => log2Word_eq low enough⟩

section Signed

variable {v bshift : Nat}

theorem signed32_small (small : v < 2 ^ 31) : signed32 v = v := by
  have word : u32 v = v := Nat.mod_eq_of_lt (small.trans (by decide))
  exact (congrArg signed32 word.symm).trans (by rw [signed32, word, word]; exact if_pos small)

theorem signed32_top : signed32 (2 ^ 31) = -2 ^ 31 := by decide

theorem signed32_pow (word : bshift ≤ 30) : signed32 (2 ^ bshift) = (2 ^ bshift : Nat) :=
  signed32_small (Nat.pow_lt_pow_right (by decide : 1 < 2) (by omega : bshift < 31))

theorem sizeOfInt_nat (small : v < 2 ^ 31) : sizeOfInt v = v :=
  Int.emod_eq_of_lt (Int.natCast_nonneg v) (by omega)

end Signed

namespace Htab

structure SoundSize (asked : Nat) (bsize : Int) (bshift : Nat) : Prop where
  power : bsize = (2 ^ bshift : Nat)
  enough : (asked : Int) ≤ bsize
  header : (hashhdrSize : Int) ≤ bsize
  most : bsize ≤ maxBsize

/-- The request is refused, or the page size is sound. -/
def Settled (o : Opening) : Prop :=
  ∃ n r, (∀ fuel, n ≤ fuel → initHashWord o fuel = some r) ∧
    ∀ bsize bshift, r = some (bsize, bshift) → SoundSize o.asked bsize bshift

section Ends

variable {o : Opening} {fuel n : Nat} {r : Option (Int × Nat)}

theorem initHashWord_asked (disk : u32 o.blksize ≤ 2 ^ 31) (asked : o.asked ≠ 0) (low : o.asked ≤ 2 ^ 31)
    (enough : 32 ≤ fuel) : initHashWord o fuel = some
      (if maxBsize < signed32 (2 ^ Nat.clog 2 o.asked) then none
      else if sizeOfInt (signed32 (2 ^ Nat.clog 2 o.asked)) < hashhdrSize then none
      else some (signed32 (2 ^ Nat.clog 2 o.asked), Nat.clog 2 o.asked)) := by
  simp only [initHashWord, log2Word_eq disk enough, log2Word_eq low enough, Option.bind_eq_bind,
    Option.bind_some, if_neg asked, Option.pure_def]
  split_ifs <;> rfl

theorem initHashWord_unasked (disk : u32 o.blksize ≤ 2 ^ 31) (unasked : o.asked = 0) (enough : 32 ≤ fuel) :
    initHashWord o fuel = some (some (signed32 o.blksize, Nat.clog 2 (u32 o.blksize))) := by
  simp only [initHashWord, log2Word_eq disk enough, Option.bind_eq_bind, Option.bind_some, if_pos unasked,
    Option.pure_def]

theorem disk_of_settled (settled : Settled o) : u32 o.blksize ≤ 2 ^ 31 := by
  obtain ⟨n, r, ends, -⟩ := settled
  by_contra high
  have never := @log2Word_none _ 0 n (not_le.mp high) 1 (.inr ⟨0, by decide, rfl⟩)
  have none : initHashWord o n = none := by
    rw [initHashWord, never]
    rfl
  exact Option.some_ne_none r ((ends n le_rfl).symm.trans none)

theorem settled_iff (ends : ∀ fuel, 32 ≤ fuel → initHashWord o fuel = some r) :
    Settled o ↔ ∀ bsize bshift, r = some (bsize, bshift) → SoundSize o.asked bsize bshift := by
  constructor
  · rintro ⟨n, r', ends', sound⟩
    have same := (ends (max n 32) (le_max_right ..)).symm.trans (ends' _ (le_max_left ..))
    exact Option.some.inj same ▸ sound
  · exact fun sound => ⟨32, r, ends, sound⟩

end Ends

section Requests

variable {o : Opening} (disk : u32 o.blksize ≤ 2 ^ 31)
include disk

theorem settled_unasked (unasked : o.asked = 0) :
    Settled o ↔ ∃ k, u32 o.blksize = 2 ^ k ∧ hashhdrSize ≤ 2 ^ k ∧ 2 ^ k ≤ maxBsize := by
  rw [settled_iff fun fuel enough => initHashWord_unasked disk unasked enough]
  constructor
  · intro sound
    obtain ⟨power, -, header, most⟩ := sound _ _ rfl
    have small : u32 o.blksize < 2 ^ 31 := by
      refine lt_of_le_of_ne disk fun top => ?_
      have least : signed32 o.blksize = -2 ^ 31 := by
        rw [signed32, top]
        rfl
      rw [least] at header
      exact absurd header (by decide)
    have signed : signed32 o.blksize = (u32 o.blksize : Int) := if_pos small
    rw [signed] at power header most
    have same : u32 o.blksize = 2 ^ Nat.clog 2 (u32 o.blksize) := Int.ofNat.inj power
    exact ⟨_, same, same ▸ Int.ofNat_le.mp header, same ▸ Int.ofNat_le.mp most⟩
  · rintro ⟨k, same, header, most⟩ bsize bshift answer
    obtain ⟨rfl, rfl⟩ := Prod.mk.inj (Option.some.inj answer)
    have small : u32 o.blksize < 2 ^ 31 := same ▸ most.trans_lt (by decide)
    have signed : signed32 o.blksize = (u32 o.blksize : Int) := if_pos small
    rw [signed, same, Nat.clog_pow 2 k (by decide), unasked]
    exact ⟨rfl, Int.natCast_nonneg _, Int.ofNat_le.mpr header, Int.ofNat_le.mpr most⟩

theorem settled_low (asked : o.asked ≠ 0) (low : o.asked ≤ 2 ^ 30) : Settled o := by
  have shift : Nat.clog 2 o.asked ≤ 30 := Nat.clog_le_of_le_pow low
  have word : 2 ^ Nat.clog 2 o.asked < 2 ^ 31 := Nat.pow_lt_pow_right (by decide : 1 < 2) (by omega)
  rw [settled_iff fun fuel enough => initHashWord_asked disk asked (low.trans (by decide)) enough,
    signed32_pow shift, sizeOfInt_nat word]
  intro bsize bshift accepted
  split_ifs at accepted with large small
  obtain ⟨rfl, rfl⟩ := Prod.mk.inj (Option.some.inj accepted)
  exact ⟨rfl, Int.ofNat_le.mpr (Nat.le_pow_clog (by decide) _), not_lt.mp small, not_lt.mp large⟩

theorem not_settled_high (high : 2 ^ 30 < o.asked) (low : o.asked ≤ 2 ^ 31) : ¬Settled o := by
  have shift : Nat.clog 2 o.asked = 31 :=
    Nat.le_antisymm (Nat.clog_le_of_le_pow low) ((Nat.lt_clog_iff_pow_lt (by decide)).mpr high)
  have asked : o.asked ≠ 0 := Nat.ne_of_gt (Nat.zero_lt_of_lt high)
  rw [settled_iff fun fuel enough => initHashWord_asked disk asked low enough, shift, signed32_top]
  intro sound
  have header := (sound _ _ rfl).header
  exact absurd header (by decide)

end Requests

/-- A block size that a word holds and the loop reaches, and a request up to `2^30`; without
a request the block size itself has to be a page size. -/
theorem page_size (o : Opening) : (Log2Ends o.asked ∧ Settled o) ↔
    u32 o.blksize ≤ 2 ^ 31 ∧
      if o.asked = 0 then ∃ k, u32 o.blksize = 2 ^ k ∧ hashhdrSize ≤ 2 ^ k ∧ 2 ^ k ≤ maxBsize
      else o.asked ≤ 2 ^ 30 := by
  rw [log2Ends_iff]
  split_ifs with unasked
  · constructor
    · rintro ⟨-, settled⟩
      have disk := disk_of_settled settled
      exact ⟨disk, (settled_unasked disk unasked).mp settled⟩
    · rintro ⟨disk, size⟩
      exact ⟨unasked ▸ Nat.zero_le _, (settled_unasked disk unasked).mpr size⟩
  · constructor
    · rintro ⟨low, settled⟩
      have disk := disk_of_settled settled
      refine ⟨disk, not_lt.mp fun high => ?_⟩
      exact not_settled_high disk high low settled
    · rintro ⟨disk, low⟩
      exact ⟨low.trans (by decide), settled_low disk unasked low⟩

theorem initHash_eq_ite (o : Opening) : initHash o =
    if o.asked = 0 then some (o.blksize, ffdbLog2 o.blksize)
    else if maxBsize < 2 ^ ffdbLog2 o.asked ∨ 2 ^ ffdbLog2 o.asked < hashhdrSize then none
    else some (2 ^ ffdbLog2 o.asked, ffdbLog2 o.asked) := rfl

theorem initHashWord_eq_initHash {o : Opening} {fuel : Nat} (disk : o.blksize < 2 ^ 31) (low : o.asked ≤ 2 ^ 30)
    (enough : 32 ≤ fuel) :
    initHashWord o fuel = some ((initHash o).map fun size => ((size.1 : Int), size.2)) := by
  have word : u32 o.blksize = o.blksize := Nat.mod_eq_of_lt (disk.trans (by decide))
  by_cases unasked : o.asked = 0
  · rw [initHashWord_unasked (word.trans_le disk.le) unasked enough, initHash_eq_ite, if_pos unasked,
      signed32_small disk, word,
      ffdbLog2_eq (disk.le.trans (by decide))]
    rfl
  · have shift : Nat.clog 2 o.asked ≤ 30 := Nat.clog_le_of_le_pow low
    have size : 2 ^ Nat.clog 2 o.asked < 2 ^ 31 := Nat.pow_lt_pow_right (by decide : 1 < 2) (by omega)
    have loop : ffdbLog2 o.asked = Nat.clog 2 o.asked := ffdbLog2_eq (low.trans (by decide))
    rw [initHashWord_asked (word.trans_le disk.le) unasked (low.trans (by decide)) enough, signed32_pow shift,
      sizeOfInt_nat size, initHash_eq_ite, if_neg unasked, loop]
    by_cases large : maxBsize < 2 ^ Nat.clog 2 o.asked
    · rw [if_pos (Int.ofNat_lt.mpr large), if_pos (.inl large), Option.map_none]
    · by_cases small : 2 ^ Nat.clog 2 o.asked < hashhdrSize
      · rw [if_neg (mt Int.ofNat_lt.mp large), if_pos (Int.ofNat_lt.mpr small), if_pos (.inr small), Option.map_none]
      · rw [if_neg (mt Int.ofNat_lt.mp large), if_neg (mt Int.ofNat_lt.mp small), if_neg (not_or.mpr ⟨large, small⟩)]
        rfl

def Opening.request (bsize : Nat) : Opening :=
  { defaults with info := some ⟨bsize, 0, 0, false, 0, 0, none, none⟩ }

/-- Above `2^30` a request is accepted with a negative size, above `2^31` it is never answered. -/
theorem page_size_fails :
    (¬Settled (Opening.request 0x40000001) ∧
      initHashWord (Opening.request 0x40000001) 32 = some (some (-0x80000000, 31))) ∧
    ¬Log2Ends 0x80000001 ∧ ∀ fuel, initHashWord (Opening.request 0x80000001) fuel = none := by
  refine ⟨⟨not_settled_high (by decide) (by decide) (by decide), by decide +kernel⟩, ?_, fun fuel => ?_⟩
  · rw [log2Ends_iff]
    decide
  · have never := @log2Word_none 0x80000001 0 fuel (by decide) 1 (.inr ⟨0, by decide, rfl⟩)
    change (log2Word _ fuel 1 0).bind (fun _ => _) = none
    cases log2Word (u32 (Opening.request 0x80000001).blksize) fuel 1 0 with
    | none => rfl
    | some bshift =>
      change (log2Word 0x80000001 fuel 1 0).bind _ = none
      rw [never]
      rfl

end Htab
end FileHash
