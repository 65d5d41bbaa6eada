import FileHash.Lib.ByteOrder
import FileHash.Lib.Detect
import FileHash.PageFilters

/-! Integrity of page images. The checksum tells apart any two images that differ in one
byte: the table entries have different top bytes, so a step of the CRC loses neither the
word it starts from nor the byte it takes in. Only pages with the signature are checked. -/
namespace FileHash

namespace Checksum

/-- The index of the table entry with top byte `t`. The table is linear, and so is this. -/
def crcIndex (t : Nat) : Nat :=
  ([65, 195, 134, 77, 154, 117, 234, 149].zipIdx).foldl
    (fun k e => if t.testBit e.2 then k ^^^ e.1 else k) 0

theorem crcIndex_crcTable : ∀ i < 256, crcIndex (crcTable i >>> 24) = i := by decide +kernel

theorem low_lt (x : Nat) : x &&& 255 < 256 := Nat.lt_of_le_of_lt Nat.and_le_right (by decide)

theorem crc32Byte_index {x : Nat} (hx : x < 2 ^ 32) (b : UInt8) :
    crcIndex (crc32Byte x b >>> 24) = (x ^^^ b.toNat) &&& 255 := by
  have gone : x >>> 8 >>> 24 = 0 := by
    rw [← Nat.shiftRight_add, Nat.shiftRight_eq_div_pow]
    exact Nat.div_eq_of_lt hx
  rw [crc32Byte, Nat.shiftRight_xor_distrib, gone, Nat.zero_xor]
  exact crcIndex_crcTable _ (low_lt _)

theorem low_toNat (b : UInt8) : b.toNat &&& 255 = b.toNat := by
  rw [show (255 : Nat) = 2 ^ 8 - 1 by rfl, Nat.and_two_pow_sub_one_eq_mod]
  exact Nat.mod_eq_of_lt b.toNat_lt

theorem crc32Byte_injOn (b : UInt8) : Set.InjOn (fun x => crc32Byte x b) {x | x < 2 ^ 32} := by
  intro x hx y hy same
  have index := congrArg (fun z => crcIndex (z >>> 24)) same
  simp only [crc32Byte_index hx, crc32Byte_index hy] at index
  simp only [crc32Byte, index] at same
  have high : x >>> 8 = y >>> 8 := Nat.xor_left_injective same
  have low : x &&& 255 = y &&& 255 := by
    rw [Nat.and_xor_distrib_right, Nat.and_xor_distrib_right] at index
    exact Nat.xor_left_injective index
  rw [show (255 : Nat) = 2 ^ 8 - 1 by rfl, Nat.and_two_pow_sub_one_eq_mod,
    Nat.and_two_pow_sub_one_eq_mod] at low
  rw [Nat.shiftRight_eq_div_pow, Nat.shiftRight_eq_div_pow] at high
  omega

theorem crc32Byte_injective {x : Nat} (hx : x < 2 ^ 32) : Function.Injective (crc32Byte x) := by
  intro b c same
  have index := congrArg (fun z => crcIndex (z >>> 24)) same
  simp only [crc32Byte_index hx] at index
  rw [Nat.and_xor_distrib_right, Nat.and_xor_distrib_right, low_toNat, low_toNat] at index
  exact UInt8.toNat_inj.mp (Nat.xor_right_injective index)

theorem crc32Checksum_set {crc : Nat} (low : crc < 2 ^ 32) {l : List UInt8} {i : Nat} {b : UInt8}
    (hi : i < l.length) (ne : b ≠ l[i]) :
    crc32Checksum crc (l.set i b) ≠ crc32Checksum crc l := by
  intro same
  have folds := Nat.xor_left_injective same
  refine Lib.foldl_ne_of_set (s := {x | x < 2 ^ 32}) ?_ ?_ ?_ hi ne ?_ folds
  · exact fun x hx b => crc32Byte_lt hx b
  · exact crc32Byte_injOn
  · exact fun x hx => crc32Byte_injective hx
  · exact Nat.xor_lt_two_pow low (by decide)

theorem crc32Checksum_append (crc : Nat) (a b : List UInt8) :
    crc32Checksum (crc32Checksum crc a) b = crc32Checksum crc (a ++ b) := by
  simp only [crc32Checksum, List.foldl_append, Nat.xor_xor_cancel_right]

end Checksum

def covered (bsize : Nat) (p : Page) : List UInt8 :=
  p.bytes chksumPos ++ (Lib.Mem.drop p chksumOffset).bytes (bsize - chksumOffset)

theorem pageChecksum_eq (bsize : Nat) (p : Page) :
    pageChecksum bsize p = Checksum.crc32Checksum 0 (covered bsize p) :=
  Checksum.crc32Checksum_append 0 _ _

variable {bsize n i : Nat} {p c : Page} {v : UInt8}

theorem bytes_update {k : Nat} (m : Lib.Mem) :
    Lib.Mem.bytes (Function.update m i v) k = (m.bytes k).set i v := by
  apply List.ext_getElem
  · simp
  · intro j h h'
    rw [Lib.Mem.getElem_bytes, List.getElem_set, Lib.Mem.getElem_bytes]
    by_cases same : j = i
    · simp [same]
    · rw [if_neg (Ne.symm same), Function.update_of_ne same]

theorem bytes_update_outside {k : Nat} (m : Lib.Mem) (hi : k ≤ i) :
    Lib.Mem.bytes (Function.update m i v) k = m.bytes k := by
  apply Lib.Mem.bytes_congr
  intro j hj
  rw [Function.update_of_ne (by omega)]

theorem drop_update {k : Nat} (m : Lib.Mem) (hi : k ≤ i) :
    Lib.Mem.drop (Function.update m i v) k = Function.update (m.drop k) (i - k) v := by
  funext j
  simp only [Lib.Mem.drop, Function.update_apply]
  exact if_congr (by omega) rfl rfl

theorem drop_update_outside {k : Nat} (m : Lib.Mem) (hi : i < k) :
    Lib.Mem.drop (Function.update m i v) k = m.drop k := by
  funext j
  simp only [Lib.Mem.drop]
  rw [Function.update_of_ne (by omega)]

theorem pageChecksum_update (hi : i < bsize) (out : i < chksumPos ∨ chksumOffset ≤ i)
    (ne : v ≠ p i) : pageChecksum bsize (Function.update p i v) ≠ pageChecksum bsize p := by
  rw [pageChecksum_eq, pageChecksum_eq]
  rcases out with low | high
  · have gap : i < chksumOffset := by simp only [chksumPos, chksumOffset] at low ⊢; omega
    have len : i < (p.bytes chksumPos).length := by rw [Lib.Mem.length_bytes]; exact low
    rw [covered, bytes_update p, drop_update_outside p gap, covered, ← List.set_append_left _ _ len]
    refine Checksum.crc32Checksum_set (by decide) (by rw [List.length_append]; omega) ?_
    rw [List.getElem_append_left len, Lib.Mem.getElem_bytes]
    exact ne
  · have gap : chksumPos ≤ i := by simp only [chksumPos, chksumOffset] at high ⊢; omega
    have len : i - chksumOffset < bsize - chksumOffset := by omega
    rw [covered, bytes_update_outside p gap, drop_update p high, bytes_update, covered]
    have put : ∀ l m : List UInt8, l ++ m.set (i - chksumOffset) v =
        (l ++ m).set (l.length + (i - chksumOffset)) v := fun l m => by
      rw [List.set_append_right _ _ (Nat.le_add_right _ _), Nat.add_sub_cancel_left]
    rw [put]
    have inside : (p.bytes chksumPos).length + (i - chksumOffset) <
        (p.bytes chksumPos ++ (p.drop chksumOffset).bytes (bsize - chksumOffset)).length := by
      rw [List.length_append, Lib.Mem.length_bytes, Lib.Mem.length_bytes]
      omega
    refine Checksum.crc32Checksum_set (by decide) inside ?_
    rw [List.getElem_append_right (Nat.le_add_right _ _), Lib.Mem.getElem_bytes]
    simp only [Lib.Mem.length_bytes, Nat.add_sub_cancel_left, Lib.Mem.drop]
    rw [show chksumOffset + (i - chksumOffset) = i by omega]
    exact ne

theorem chksum_pgout (n : Nat) (c : Page) :
    Page.chksum (pgoutRoutine bsize false n c) = pageChecksum bsize (pgoutRoutine bsize false n c) := by
  have same : Agree (pgoutRoutine bsize false n c) c := agree_setChksum c _
  rw [pageChecksum_congr same]
  exact Lib.Mem.read32_write32_same.trans (Nat.mod_eq_of_lt (pageChecksum_lt bsize c))

theorem chksum_changed (hi : i < bsize) (ne : v ≠ pgoutRoutine bsize false n c i) :
    pageChecksum bsize (Function.update (pgoutRoutine bsize false n c) i v) ≠
      Page.chksum (Function.update (pgoutRoutine bsize false n c) i v) := by
  by_cases inside : chksumPos ≤ i ∧ i < chksumOffset
  · have moved : Page.chksum (Function.update (pgoutRoutine bsize false n c) i v) ≠
        Page.chksum (pgoutRoutine bsize false n c) :=
      Lib.Mem.word32_update (o := .little) inside.1 (by simp only [chksumPos, chksumOffset] at inside ⊢; omega) ne
    have kept : Agree (Function.update (pgoutRoutine bsize false n c) i v)
        (pgoutRoutine bsize false n c) := fun j hj => Function.update_of_ne (by omega) _ _
    rw [pageChecksum_congr kept, ← chksum_pgout]
    exact moved.symm
  · have out : i < chksumPos ∨ chksumOffset ≤ i := by omega
    have kept : Page.chksum (Function.update (pgoutRoutine bsize false n c) i v) =
        Page.chksum (pgoutRoutine bsize false n c) :=
      Lib.Mem.word32_update_outside (o := .little) (by simp only [chksumPos, chksumOffset] at out; omega)
    rw [kept, chksum_pgout]
    exact pageChecksum_update hi out ne

/-- A page image with one byte changed: while it carries the signature it is refused, and
without the signature it is taken for a page never initialized. The image of a signed page
loses its signature exactly when the byte is one of the signature's. -/
theorem changed_image_refused (bsize n : Nat) (c : Page) (i : Nat) (v : UInt8) (hi : i < bsize)
    (ne : v ≠ pgoutRoutine bsize false n c i) :
    let changed : Page := Function.update (pgoutRoutine bsize false n c) i v
    (changed.pageSign = pageMagic → pginRoutine bsize false n changed = none) ∧
    (changed.pageSign ≠ pageMagic →
      pginRoutine bsize false n changed = some (initPage bsize changed n hashDeletedPage)) ∧
    (c.pageSign = pageMagic → (changed.pageSign = pageMagic ↔ ¬(12 ≤ i ∧ i < 16))) := by
  intro changed
  refine ⟨fun sign => ?_, fun sign => ?_, fun sign => ?_⟩
  · simp only [pginRoutine, Bool.false_eq_true, if_false, sign, ne_eq, not_true]
    exact if_pos (chksum_changed hi ne)
  · simp only [pginRoutine, Bool.false_eq_true, if_false, if_pos sign]
  · have same : Agree (pgoutRoutine bsize false n c) c := agree_setChksum c _
    rw [← same.pageSign] at sign
    constructor
    · rintro kept ⟨low, high⟩
      exact Lib.Mem.word32_update (o := .little) low high ne (kept.trans sign.symm)
    · intro out
      exact (Lib.Mem.word32_update_outside (o := .little) (by omega)).trans sign

theorem changed_image_refused_last : pginRoutine 512 false 3
    (Function.update (pgoutRoutine 512 false 3 (initPage 512 (fun _ => 0) 3 hashDataPage)) 511 7) =
      none := by
  have blank : pgoutRoutine 512 false 3 (initPage 512 (fun _ => 0) 3 hashDataPage) 511 = 0 := by rfl
  obtain ⟨refused, _, signed⟩ := changed_image_refused 512 3 (initPage 512 (fun _ => 0) 3 hashDataPage)
    511 7 (by decide) (by rw [blank]; decide)
  exact refused ((signed (by decide)).mpr (by decide))

/-- A changed signature is not noticed: the page is reset without a word. -/
theorem changed_signature_resets : ∃ reset,
    pginRoutine 512 false 3
      (Function.update (pgoutRoutine 512 false 3 (initPage 512 (fun _ => 0) 3 hashDataPage)) 12 7) =
        some reset ∧ reset.type = hashDeletedPage :=
  ⟨_, by rfl, by rfl⟩

end FileHash
