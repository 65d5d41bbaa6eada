import FileHash.OpenedTable
import Mathlib

/-! The header of a new table: the masks, the pages of the first buckets, and the pages
set aside for user information and configurations. -/
namespace FileHash

section Log

variable {num i : Nat}

theorem ffdbLog2Loop_eq (fuel : Nat) (enough : num ≤ 2 ^ (i + fuel)) :
    ffdbLog2Loop num fuel (2 ^ i) i = max i (Nat.clog 2 num) := by
  induction fuel generalizing i with
  | zero => exact (max_eq_left (Nat.clog_le_of_le_pow enough)).symm
  | succ fuel ih =>
    rw [ffdbLog2Loop]
    by_cases low : 2 ^ i < num
    · have more : i < Nat.clog 2 num := (Nat.lt_clog_iff_pow_lt (by decide)).mpr low
      rw [if_pos low, ← pow_succ, ih (by rwa [Nat.add_assoc, Nat.add_comm 1]), max_eq_right more.le,
        max_eq_right more]
    · rw [if_neg low, max_eq_left]
      exact Nat.clog_le_of_le_pow (not_lt.mp low)

theorem ffdbLog2_eq (bound : num ≤ 0x100000000) : ffdbLog2 num = Nat.clog 2 num := by
  have loop := ffdbLog2Loop_eq (i := 0) 32 (show num ≤ 2 ^ (0 + 32) from bound)
  rwa [pow_zero, max_eq_right (Nat.zero_le _)] at loop

theorem clog_succ_eq {b k : Nat} (low : 2 ^ k ≤ b) (high : b < 2 ^ (k + 1)) :
    Nat.clog 2 (b + 1) = k + 1 := by
  apply Nat.le_antisymm
  · exact Nat.clog_le_of_le_pow high
  · exact (Nat.lt_clog_iff_pow_lt (by decide)).mpr (Nat.lt_succ_of_le low)

end Log

namespace Htab

variable {o : Opening} {bsize bshift : Nat}

theorem configInfoPages_eq {each : Nat} (pos : 0 < each) (fuel num npages : Nat) (enough : num ≤ fuel) :
    configInfoPages each fuel num npages = npages + (num + each - 1) / each := by
  induction fuel generalizing num npages with
  | zero =>
    obtain rfl : num = 0 := Nat.le_zero.mp enough
    rw [configInfoPages, Nat.zero_add, Nat.div_eq_of_lt (by omega), Nat.add_zero]
  | succ fuel ih =>
    rw [configInfoPages]
    by_cases more : 0 < num
    · rw [if_pos more, ih _ _ (by omega)]
      by_cases last : num ≤ each
      · rw [min_eq_right last, Nat.sub_self, Nat.zero_add, Nat.div_eq_of_lt (by omega), Nat.add_zero]
        rw [Nat.div_eq_of_lt_le (k := 1) (by omega) (by omega)]
      · rw [min_eq_left (by omega)]
        have split : num + each - 1 = num - each + each - 1 + each := by omega
        rw [split, Nat.add_div_right _ pos]
        omega
    · obtain rfl : num = 0 := by omega
      rw [if_neg more, Nat.zero_add, Nat.div_eq_of_lt (by omega), Nat.add_zero]

theorem numConfigInfoPages_eq {num : Nat} (page : pageOverhead + configInfoSize ≤ bsize) :
    numConfigInfoPages bsize num = (num + (bsize - pageOverhead) / configInfoSize - 1) /
      ((bsize - pageOverhead) / configInfoSize) := by
  have pos : 0 < (bsize - pageOverhead) / configInfoSize :=
    Nat.div_pos (by omega) (by decide)
  rw [numConfigInfoPages, configInfoPages_eq pos num num 0 le_rfl, Nat.zero_add]

def Opening.level (o : Opening) : Nat := Nat.clog 2 (o.option Hashinfo.nbuckets 1)

def Opening.uinfolen (o : Opening) : Nat := o.option Hashinfo.userinfolen ffdbDefaultUinfoLen

def Opening.numConfigs (o : Opening) : Nat := o.option Hashinfo.numconfigs 1

/-- What the rest of the code relies on. The first page of user information begins with the
four bytes of its length. -/
structure Laid (o : Opening) (bsize : Nat) (hdr : Hashhdr) : Prop where
  maxBucket : hdr.maxBucket = 2 ^ o.level - 1
  highMask : hdr.highMask = 2 ^ o.level - 1
  lowMask : hdr.lowMask = 2 ^ o.level / 2 - 1
  split : 2 ^ o.level &&& hdr.lowMask < 2 ^ o.level
  pages : ∀ b < 2 ^ o.level, hdr.bucketToPage b = hdr.hdrpages + b
  apart : Disjoint (Set.Ico hdr.uinfoPage (hdr.uinfoPage + hdr.uinfoNpages))
    (Set.Ico hdr.cfigPage (hdr.cfigPage + hdr.cfigNpages))
  below : hdr.uinfoPage + hdr.uinfoNpages ≤ hdr.hdrpages ∧ hdr.cfigPage + hdr.cfigNpages ≤ hdr.hdrpages
  uinfo : hdr.uinfolen = o.uinfolen ∧ o.uinfolen + 4 ≤ hdr.uinfoNpages * (bsize - pageOverhead)
  cfigs : hdr.numCfigs = o.numConfigs ∧
    o.numConfigs ≤ hdr.cfigNpages * ((bsize - pageOverhead) / configInfoSize)

/-- Two buckets at least, and counts of pages that 16 bits hold. -/
structure Modest (o : Opening) (bsize : Nat) : Prop where
  buckets : 2 ≤ o.option Hashinfo.nbuckets 1 ∧ o.option Hashinfo.nbuckets 1 ≤ 2 ^ 30
  uinfolen : o.uinfolen + 4 < 2 ^ 32
  uinfo : numUinfoPages bsize o.uinfolen < 65535 ∨
    (numUinfoPages bsize o.uinfolen = 65535 ∧ numConfigInfoPages bsize o.numConfigs = 1)
  cfigs : numConfigInfoPages bsize o.numConfigs < 65536

theorem option_pos {field : Hashinfo → Nat} {default : Nat} (pos : 0 < default) :
    0 < o.option field default := by
  unfold Opening.option
  cases o.info with
  | none => exact pos
  | some info =>
    dsimp only
    split
    · exact pos
    · omega

theorem ceil_pages {each pages : Nat} (num : Nat) (pos : 0 < each)
    (count : pages = num / each + (if num % each = 0 then 0 else 1)) :
    num ≤ pages * each ∧ pages * each < num + each := by
  have parts := Nat.div_add_mod num each
  have rest := Nat.mod_lt num pos
  rw [count, Nat.add_mul, Nat.mul_comm]
  split <;> omega

theorem ceil_configs {each : Nat} (num : Nat) (pos : 0 < each) :
    num ≤ (num + each - 1) / each * each ∧ (num + each - 1) / each * each < num + each := by
  have parts := Nat.div_add_mod (num + each - 1) each
  have rest := Nat.mod_lt (num + each - 1) pos
  rw [Nat.mul_comm]
  omega

theorem cut_short {each num pages : Nat} (pos : 0 < each) (close : pages * each < num + each)
    (cut : num ≤ pages % 65536 * each) : pages < 65536 := by
  by_contra many
  have less : pages % 65536 + 65536 ≤ pages := by omega
  have bytes := Nat.mul_le_mul_right each less
  rw [Nat.add_mul] at bytes
  omega

section Masks

variable (few : o.option Hashinfo.nbuckets 1 ≤ 0x80000000)
include few

theorem level_le : o.level ≤ 31 := Nat.clog_le_of_le_pow few

theorem log2_nbuckets : ffdbLog2 (o.option Hashinfo.nbuckets 1) = o.level :=
  ffdbLog2_eq (few.trans (by decide))

theorem initHdr_lowMask : (initHdr o bsize bshift).lowMask = 2 ^ o.level / 2 - 1 ↔
    2 ≤ o.option Hashinfo.nbuckets 1 ∧ o.option Hashinfo.nbuckets 1 ≤ 2 ^ 30 := by
  have mask : (initHdr o bsize bshift).lowMask = u32 (shiftOne (2 ^ o.level) + 0xffffffff) := by
    simp only [initHdr, log2_nbuckets few]
  have top := level_le few
  rw [mask]
  by_cases one : o.level = 0
  · -- half of one bucket, less one, has all bits set
    have single : ¬2 ≤ o.option Hashinfo.nbuckets 1 := fun two => by
      have := Nat.clog_pos (b := 2) (by decide) (Nat.lt_of_succ_le two)
      exact absurd one this.ne'
    rw [one]
    exact iff_of_false (by decide) fun both => single both.1
  by_cases last : o.level = 31
  · have many : ¬o.option Hashinfo.nbuckets 1 ≤ 2 ^ 30 := fun low => by
      have : o.level ≤ 30 := Nat.clog_le_of_le_pow low
      omega
    rw [last]
    exact iff_of_false (by decide) fun both => many both.2
  · refine iff_of_true ?_ ⟨?_, ?_⟩
    · obtain ⟨k, level⟩ := Nat.exists_eq_succ_of_ne_zero one
      have half : 2 ^ o.level = 2 ^ k * 2 := by rw [level, pow_succ]
      have low := Nat.one_le_two_pow (n := k)
      have high : 2 ^ k ≤ 2 ^ 29 := Nat.pow_le_pow_right (by decide) (by omega)
      rw [half, shiftOne, u32, if_neg (by omega), Nat.mul_div_cancel _ (by decide)]
      omega
    · by_contra few'
      exact one (Nat.clog_of_right_le_one (by omega) 2)
    · exact (Nat.clog_le_iff_le_pow (by decide)).mp (show o.level ≤ 30 by omega)

theorem initHdr_pages (low : o.level ≤ 30) (room : (initHdr o bsize bshift).hdrpages < 2 ^ 31) {b : Nat}
    (first : b < 2 ^ o.level) :
    (initHdr o bsize bshift).bucketToPage b = (initHdr o bsize bshift).hdrpages + b := by
  have spares : ∀ i ≤ o.level, (initHdr o bsize bshift).spares i =
      if i = 0 then (initHdr o bsize bshift).hdrpages
      else (initHdr o bsize bshift).hdrpages + 2 ^ (i - 1) := by
    intro i inside
    simp only [initHdr, initSpares, log2_nbuckets few, if_neg (not_lt.mpr inside)]
  have top : 2 ^ o.level ≤ 2 ^ 30 := Nat.pow_le_pow_right (by decide) low
  have word : u32 (b + 1) = b + 1 := Nat.mod_eq_of_lt (by omega)
  rw [Hashhdr.bucketToPage, word, ffdbLog2_eq (by omega)]
  by_cases zero : b = 0
  · subst zero
    rw [if_neg (lt_irrefl 0), Nat.clog_of_right_le_one le_rfl, spares 0 (Nat.zero_le _), if_pos rfl,
      Nat.add_zero]
  · obtain ⟨k, below, above⟩ : ∃ k, 2 ^ k ≤ b ∧ b < 2 ^ (k + 1) :=
      ⟨Nat.log 2 b, Nat.pow_log_le_self 2 zero, Nat.lt_pow_succ_log_self (by decide) b⟩
    have inside : k + 1 ≤ o.level := (Nat.pow_lt_pow_iff_right (a := 2) (by decide)).mp
      (below.trans_lt first)
    rw [if_pos (Nat.pos_of_ne_zero zero), clog_succ_eq below above, spares _ inside,
      if_neg (Nat.succ_ne_zero k), Nat.add_sub_cancel, u32, Nat.mod_eq_of_lt (by omega)]
    omega

end Masks

section Header

variable (header : hashhdrSize ≤ bsize) (small : bsize < 2 ^ 31)
include header small

theorem uinfo_capacity :
    o.uinfolen + 4 ≤ numUinfoPages bsize o.uinfolen % 65536 * (bsize - pageOverhead) ↔
      o.uinfolen + 4 < 2 ^ 32 ∧ numUinfoPages bsize o.uinfolen < 65536 := by
  have each : 0 < bsize - pageOverhead := Nat.sub_pos_of_lt ((by decide : pageOverhead < hashhdrSize).trans_le header)
  obtain ⟨enough, close⟩ := ceil_pages (u32 (o.uinfolen + 4)) each rfl
  change _ ≤ numUinfoPages bsize o.uinfolen * _ at enough
  change numUinfoPages bsize o.uinfolen * _ < _ at close
  have word : u32 (o.uinfolen + 4) = (o.uinfolen + 4) % 2 ^ 32 := rfl
  constructor
  · intro fits
    have fits' := fits.trans (Nat.mul_le_mul_right _ (Nat.mod_le ..))
    have low : o.uinfolen + 4 < 2 ^ 32 := by
      by_contra wraps
      omega
    rw [word, Nat.mod_eq_of_lt low] at close
    exact ⟨low, cut_short each close fits⟩
  · rintro ⟨low, few⟩
    rw [word, Nat.mod_eq_of_lt low] at enough
    rwa [Nat.mod_eq_of_lt few]

omit small in
theorem cfig_capacity :
    o.numConfigs ≤ numConfigInfoPages bsize o.numConfigs % 65536 *
        ((bsize - pageOverhead) / configInfoSize) ↔ numConfigInfoPages bsize o.numConfigs < 65536 := by
  have page : pageOverhead + configInfoSize ≤ bsize :=
    (by decide : pageOverhead + configInfoSize ≤ hashhdrSize).trans header
  have each : 0 < (bsize - pageOverhead) / configInfoSize := Nat.div_pos (by omega) (by decide)
  rw [numConfigInfoPages_eq page]
  obtain ⟨enough, close⟩ := ceil_configs o.numConfigs each
  constructor
  · exact cut_short each close
  · intro few
    rwa [Nat.mod_eq_of_lt few]

/-- A new table is laid out as the rest of the code has it exactly if it has at least two
buckets, and its header pages can be counted in 16 bits. -/
theorem init_layout :
    (∃ hdr, initHtab o bsize bshift = some hdr ∧ Laid o bsize hdr) ↔ Modest o bsize := by
  have page : pageOverhead + configInfoSize ≤ bsize :=
    (by decide : pageOverhead + configInfoSize ≤ hashhdrSize).trans header
  have fields : (initHdr o bsize bshift).uinfoPage = 1 ∧
      (initHdr o bsize bshift).uinfoNpages = numUinfoPages bsize o.uinfolen % 65536 ∧
      (initHdr o bsize bshift).cfigPage = (1 + numUinfoPages bsize o.uinfolen) % 65536 ∧
      (initHdr o bsize bshift).cfigNpages = numConfigInfoPages bsize o.numConfigs % 65536 ∧
      (initHdr o bsize bshift).hdrpages =
        1 + numUinfoPages bsize o.uinfolen + numConfigInfoPages bsize o.numConfigs :=
    ⟨rfl, rfl, rfl, rfl, rfl⟩
  obtain ⟨uinfoPage, uinfoNpages, cfigPage, cfigNpages, hdrpages⟩ := fields
  have someCfig : 0 < numConfigInfoPages bsize o.numConfigs := by
    rw [numConfigInfoPages_eq page]
    have some_asked : 0 < o.numConfigs := option_pos Nat.one_pos
    exact Nat.div_pos (by omega) (Nat.div_pos (by omega) (by decide))
  constructor
  · rintro ⟨hdr, init, laid⟩
    rw [initHtab] at init
    split at init
    · cases init
    rename_i few
    cases init
    have masks := (initHdr_lowMask (not_lt.mp few)).mp laid.lowMask
    have uinfo := laid.uinfo.2
    rw [uinfoNpages, uinfo_capacity header small] at uinfo
    have cfigs := laid.cfigs.2
    rw [cfigNpages, cfig_capacity header] at cfigs
    refine ⟨masks, uinfo.1, ?_, cfigs⟩
    by_contra neither
    -- the configurations would begin at page 0 and reach page 1
    have last : numUinfoPages bsize o.uinfolen = 65535 := by omega
    have many : 1 < numConfigInfoPages bsize o.numConfigs := by omega
    have shared := laid.apart
    rw [uinfoPage, uinfoNpages, cfigPage, cfigNpages, last, Nat.mod_eq_of_lt cfigs] at shared
    have inside : 1 ∈ Set.Ico 1 (1 + 65535 % 65536) := ⟨le_rfl, by decide⟩
    exact Set.disjoint_left.mp shared inside ⟨Nat.zero_le _, by simpa using many⟩
  · intro h
    have few : ¬0x80000000 < o.option Hashinfo.nbuckets 1 := by
      have := h.buckets.2
      omega
    have top := level_le (not_lt.mp few)
    have low : o.level ≤ 30 := Nat.clog_le_of_le_pow h.buckets.2
    have cfigs := h.cfigs
    have uinfo : numUinfoPages bsize o.uinfolen < 65536 := by
      have := h.uinfo
      omega
    refine ⟨_, if_neg few, ?_⟩
    have lowMask : (initHdr o bsize bshift).lowMask = _ := (initHdr_lowMask (not_lt.mp few)).mpr h.buckets
    refine ⟨?_, ?_, lowMask, ?_, fun b first => initHdr_pages (not_lt.mp few) low (by omega) first, ?_,
      ?_, ⟨rfl, ?_⟩, rfl, ?_⟩
    · simp only [initHdr, log2_nbuckets (not_lt.mp few)]
    · simp only [initHdr, log2_nbuckets (not_lt.mp few)]
    · rw [lowMask]
      refine Nat.and_lt_two_pow _ ?_
      have := Nat.one_le_two_pow (n := o.level)
      omega
    · rw [uinfoPage, uinfoNpages, cfigPage, cfigNpages, Nat.mod_eq_of_lt uinfo, Nat.mod_eq_of_lt cfigs]
      refine Set.disjoint_left.mpr fun p inside inside' => ?_
      obtain ⟨begins, ends⟩ := inside
      obtain ⟨begins', ends'⟩ := inside'
      have := h.uinfo
      omega
    · rw [uinfoPage, uinfoNpages, cfigPage, cfigNpages, hdrpages]
      omega
    · rw [uinfoNpages]
      exact (uinfo_capacity header small).mpr ⟨h.uinfolen, uinfo⟩
    · rw [cfigNpages]
      exact (cfig_capacity header).mpr cfigs

end Header

/-- The defaults ask for one bucket. Half of its mask, less one, has all bits set, and the
bucket it is to be split into is split from itself. -/
theorem default_layout_wrong : (initHtab defaults 4096 12).map Hashhdr.lowMask = some 0xffffffff ∧
    1 &&& 0xffffffff = 1 ∧
    ¬∃ hdr, initHtab defaults 4096 12 = some hdr ∧ Laid defaults 4096 hdr := by
  refine ⟨by decide +kernel, by decide, ?_⟩
  rintro ⟨hdr, init, laid⟩
  have split := laid.split
  cases init
  have level : defaults.level = 0 := Nat.clog_one_right 2
  rw [level] at split
  exact absurd split (by decide +kernel)

def twoBuckets : Opening :=
  { defaults with info := some ⟨0, 2, 0, false, 0, 0, none, none⟩ }

theorem two_buckets_laid : ∃ hdr, initHtab twoBuckets 4096 12 = some hdr ∧ Laid twoBuckets 4096 hdr :=
  (init_layout (by decide) (by decide)).mpr
    ⟨by decide, by decide, .inl (by decide +kernel), by decide +kernel⟩

end Htab
end FileHash
