import FileHash.Contents
import FileHash.PoolRefinement

/-! The words of a page after it is initialized and after a record is written to it. -/
namespace FileHash

open Page
open Lib.Mem (read32_write32 read32_write16 read16_write32 read16_write16 read32_copy read16_copy)

variable {bsize n ty a b i : Nat} {c : Page}

section Init

theorem currPgno_initPage (word : n < 0x100000000) : (initPage bsize c n ty).currPgno = n := by
  have same : ∀ q : Page, (setCurrPgno q n).currPgno = n := fun q =>
    Lib.Mem.read32_write32_same.trans (Nat.mod_eq_of_lt word)
  simp only [initPage, currPgno, setCurrPgno, setNextPgno, setPrevPgno, setPageSign, setNumEnt, setType,
    setChksum, setOffset, setFirstDataPos, setUserDataLen] at same ⊢
  split_ifs <;> simp (disch := omega) only [read32_write32, read32_write16, same]

theorem signed_initPage : Pagepool.Signed (initPage bsize c n ty) := by
  simp only [Pagepool.Signed, initPage, pageSign, setCurrPgno, setNextPgno, setPrevPgno, setPageSign,
    setNumEnt, setType, setChksum, setOffset, setFirstDataPos, setUserDataLen]
  split_ifs <;> simp (disch := omega) only [read32_write32, read32_write16, Lib.Mem.read32_write32_same] <;> rfl

theorem nextPgno_initPage : (initPage bsize c n ty).nextPgno = invalidPgno := by
  simp only [initPage, nextPgno, setCurrPgno, setNextPgno, setPrevPgno, setPageSign, setNumEnt, setType,
    setChksum, setOffset, setFirstDataPos, setUserDataLen]
  split_ifs <;> simp (disch := omega) only [read32_write32, read32_write16, Lib.Mem.read32_write32_same] <;> rfl

theorem offset_initPage_data : (initPage bsize c n hashDataPage).offset = bigPageOverhead := by
  simp only [initPage]
  rw [if_neg (by decide), if_pos trivial]
  exact (read32_write32 (by omega)).trans Lib.Mem.read32_write32_same

theorem offset_initPage_bucket (word : bsize < 0x100000000) (ovfl : ty = hashBucketPage ∨ ty = hashOvflPage) :
    (initPage bsize c n ty).offset = bsize - 1 := by
  simp only [initPage, if_pos ovfl, offset, setOffset, setType]
  rw [read32_write16 (by omega), Lib.Mem.read32_write32_same, Nat.mod_eq_of_lt (by omega)]

end Init

section Records

theorem writeHeader_outside {h : DataHeader} (out : i < a ∨ a + bigDataOverhead ≤ i) :
    (c.writeHeader a h) i = c i := by
  simp only [bigDataOverhead] at out
  simp only [writeHeader]
  rw [Lib.Mem.write32_outside (by omega), Lib.Mem.write32_outside (by omega), Lib.Mem.write32_outside (by omega),
    Lib.Mem.write32_outside (by omega), Lib.Mem.write32_outside (by omega)]

def DataHeader.Words (h : DataHeader) : Prop :=
  h.len < 0x100000000 ∧ h.status < 0x100000000 ∧ h.next < 0x100000000 ∧ h.keyPage < 0x100000000 ∧
    h.keyIdx < 0x100000000

theorem readHeader_writeHeader {h : DataHeader} (words : h.Words) : (c.writeHeader a h).readHeader a = h := by
  obtain ⟨len, status, next, keyPage, keyIdx⟩ := words
  cases h
  simp only [readHeader, writeHeader, DataHeader.mk.injEq]
  simp (disch := omega) only [read32_write32, Lib.Mem.read32_write32_same]
  exact ⟨Nat.mod_eq_of_lt len, Nat.mod_eq_of_lt status, Nat.mod_eq_of_lt next, Nat.mod_eq_of_lt keyPage,
    Nat.mod_eq_of_lt keyIdx⟩

theorem readHeader_words : (c.readHeader a).Words :=
  ⟨Lib.Mem.read32_lt, Lib.Mem.read32_lt, Lib.Mem.read32_lt, Lib.Mem.read32_lt, Lib.Mem.read32_lt⟩

theorem readHeader_congr {d : Page} (same : ∀ i, a ≤ i → i < a + bigDataOverhead → d i = c i) :
    d.readHeader a = c.readHeader a := by
  have word : ∀ k, k + 4 ≤ bigDataOverhead → d.read32 (a + k) = c.read32 (a + k) :=
    fun k small => Lib.Mem.read32_congr fun i low high => same i (by omega) (by omega)
  simp only [Page.readHeader, DataHeader.mk.injEq]
  exact ⟨word 0 (by decide), word 4 (by decide), word 8 (by decide), word 12 (by decide), word 16 (by decide)⟩

theorem writeHeader_lengths {l st : Nat} (out : i < a ∨ a + 8 ≤ i) :
    (c.writeHeader a { c.readHeader a with len := l, status := st }) i = c i := by
  have word : ∀ {k : Nat} {m : Page}, Lib.Mem.read32 m k = Lib.Mem.read32 c k →
      Lib.Mem.write32 m k (Lib.Mem.read32 c k) = m := by
    intro k m same
    rw [← same]
    exact Lib.Mem.write32_read32
  simp only [writeHeader, readHeader]
  rw [word (k := a + 16), word (k := a + 12), word (k := a + 8), Lib.Mem.write32_outside (by omega),
    Lib.Mem.write32_outside (by omega)]
  all_goals simp (disch := omega) only [read32_write32]

theorem writeHeader_slot {kp ki : Nat} (out : i < a + 12 ∨ a + bigDataOverhead ≤ i) :
    (c.writeHeader a { c.readHeader a with keyPage := kp, keyIdx := ki }) i = c i := by
  simp only [bigDataOverhead] at out
  simp only [writeHeader, readHeader]
  rw [Lib.Mem.write32_outside (by omega), Lib.Mem.write32_outside (by omega)]
  have word : ∀ {k : Nat} {m : Page}, Lib.Mem.read32 m k = Lib.Mem.read32 c k →
      Lib.Mem.write32 m k (Lib.Mem.read32 c k) = m := by
    intro k m same
    rw [← same]
    exact Lib.Mem.write32_read32
  rw [word (k := a + 8), word (k := a + 4), word (k := a) rfl]
  all_goals simp (disch := omega) only [read32_write32]

theorem writeDatap_outside {d : Datap} (out : i < a ∨ a + datapSize ≤ i) : (c.writeDatap a d) i = c i := by
  simp only [datapSize] at out
  simp only [writeDatap]
  rw [Lib.Mem.write32_outside (by omega), Lib.Mem.write32_outside (by omega), Lib.Mem.write32_outside (by omega),
    Lib.Mem.write32_outside (by omega)]

def Datap.Words (d : Datap) : Prop :=
  d.first < 0x100000000 ∧ d.offset < 0x100000000 ∧ d.len < 0x100000000 ∧ d.chksum < 0x100000000

theorem readDatap_writeDatap {d : Datap} (words : d.Words) : (c.writeDatap a d).readDatap a = d := by
  obtain ⟨first, offset, len, chksum⟩ := words
  cases d
  simp only [readDatap, writeDatap, Datap.mk.injEq]
  simp (disch := omega) only [read32_write32, Lib.Mem.read32_write32_same]
  exact ⟨Nat.mod_eq_of_lt first, Nat.mod_eq_of_lt offset, Nat.mod_eq_of_lt len, Nat.mod_eq_of_lt chksum⟩

theorem readDatap_words : (c.readDatap a).Words :=
  ⟨Lib.Mem.read32_lt, Lib.Mem.read32_lt, Lib.Mem.read32_lt, Lib.Mem.read32_lt⟩

theorem readDatap_congr {d : Page} (same : ∀ i, a ≤ i → i < a + datapSize → d i = c i) :
    d.readDatap a = c.readDatap a := by
  have word : ∀ k, k + 4 ≤ datapSize → d.read32 (a + k) = c.read32 (a + k) :=
    fun k small => Lib.Mem.read32_congr fun i low high => same i (by omega) (by omega)
  simp only [Page.readDatap, Datap.mk.injEq]
  exact ⟨word 0 (by decide), word 4 (by decide), word 8 (by decide), word 12 (by decide)⟩

end Records
end FileHash
