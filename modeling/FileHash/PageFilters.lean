import FileHash.PoolEvolve
import Mathlib.Data.Nat.Bitwise

/-! The filters the hash layer installs on its pool, in the byte order of the machine:
apart from the checksum they change nothing, and what was written reads back. -/
namespace FileHash

namespace Checksum

theorem crc32Shift_lt {h : Nat} (low : h < 2 ^ 32) : crc32Shift h < 2 ^ 32 := by
  refine Nat.xor_lt_two_pow ?_ ?_
  · rw [Nat.shiftRight_eq_div_pow]
    omega
  · split
    · decide
    · decide

theorem crc32InitLoop_lt (l : List Nat) {h : Nat} {table : Nat → Nat} (low : h < 2 ^ 32)
    (bound : ∀ k, table k < 2 ^ 32) (k : Nat) : crc32InitLoop l h table k < 2 ^ 32 := by
  induction l generalizing h table with
  | nil => exact bound k
  | cons i rest ih =>
    refine ih (crc32Shift_lt low) fun j => ?_
    simp only [crc32Fill]
    split
    · exact Nat.xor_lt_two_pow (bound _) (crc32Shift_lt low)
    · exact bound j

theorem crcTable_lt (k : Nat) : crcTable k < 2 ^ 32 :=
  crc32InitLoop_lt _ (by decide) (fun _ => by decide) k

theorem crc32Byte_lt {crc : Nat} (low : crc < 2 ^ 32) (b : UInt8) : crc32Byte crc b < 2 ^ 32 := by
  refine Nat.xor_lt_two_pow ?_ (crcTable_lt _)
  rw [Nat.shiftRight_eq_div_pow]
  omega

theorem crc32Checksum_lt {crc : Nat} (low : crc < 2 ^ 32) (buf : List UInt8) :
    crc32Checksum crc buf < 2 ^ 32 := by
  have fold : ∀ start, start < 2 ^ 32 → buf.foldl crc32Byte start < 2 ^ 32 := by
    induction buf with
    | nil => exact fun _ h => h
    | cons b buf ih => exact fun start h => ih _ (crc32Byte_lt h b)
  exact Nat.xor_lt_two_pow (fold _ (Nat.xor_lt_two_pow low (by decide))) (by decide)

end Checksum

theorem pageChecksum_lt (bsize : Nat) (p : Page) : pageChecksum bsize p < 2 ^ 32 :=
  Checksum.crc32Checksum_lt (Checksum.crc32Checksum_lt (by decide) _) _

theorem pageChecksum_congr {bsize : Nat} {a b : Page} (h : Agree a b) :
    pageChecksum bsize a = pageChecksum bsize b := by
  have head : a.bytes chksumPos = b.bytes chksumPos :=
    Lib.Mem.bytes_congr fun i hi => h i (.inl hi)
  have tail : (Lib.Mem.drop a chksumOffset).bytes (bsize - chksumOffset) =
      (Lib.Mem.drop b chksumOffset).bytes (bsize - chksumOffset) :=
    Lib.Mem.bytes_congr fun i _ => h _ (.inr (Nat.le_add_right _ _))
  simp only [pageChecksum]
  rw [head, tail]

theorem Agree.pageSign {a b : Page} (h : Agree a b) : Page.pageSign a = Page.pageSign b :=
  h.read32 (by omega)

variable {bsize : Nat}

theorem filters_native :
    Pagepool.Filters (pginRoutine bsize false) (pgoutRoutine bsize false) where
  out_agree _ c := agree_setChksum c _
  in_agree n c d sign run := by
    simp only [pginRoutine, Bool.false_eq_true, if_false, sign, ne_eq, not_true] at run
    split at run
    · cases run
    · cases run
      exact Agree.refl _
  in_zero n := by
    refine ⟨initPage bsize (fun _ => 0) n hashDeletedPage, ?_⟩
    have sign : Page.pageSign (fun _ => 0) ≠ pageMagic := by decide
    simp only [pginRoutine, Bool.false_eq_true, if_false, if_pos sign]

theorem roundTrip_native {n : Nat} {c : Page} (sign : Page.pageSign c = pageMagic) :
    ∃ d, pginRoutine bsize false n (pgoutRoutine bsize false n c) = some d ∧ Agree d c := by
  have same : Agree (pgoutRoutine bsize false n c) c := agree_setChksum c _
  refine ⟨pgoutRoutine bsize false n c, ?_, same⟩
  have stored : Page.chksum (pgoutRoutine bsize false n c) = pageChecksum bsize c :=
    Lib.Mem.read32_write32_same.trans (Nat.mod_eq_of_lt (pageChecksum_lt bsize c))
  simp only [pginRoutine, Bool.false_eq_true, if_false, same.pageSign, sign, ne_eq, not_true,
    pageChecksum_congr same, stored]

end FileHash
