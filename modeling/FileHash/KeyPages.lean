import FileHash.DataLayout

/-! Key pages: the words of each pair grow from the page's header up, its pointer and its key from
the end of the page down. A pair that is put on a page, and a pointer that is written anew, leave
the other pairs as they are. -/
namespace FileHash.Htab

open Page
open Lib.Mem (read32_write32 read32_write16 read16_write32 read16_write16 read32_copy read16_copy)

structure KeyDatap where
  key : List UInt8
  datap : Datap

/-- Where the first `n` pairs begin. -/
def roof (bsize : Nat) (c : Page) : Nat → Nat
  | 0 => bsize
  | n + 1 => c.datapOff n

variable {bsize n i : Nat} {c c' : Page} {pair : KeyDatap} {pairs : List KeyDatap} {key : Dbt} {datap : Datap}

/-- Page `c` has the pair as its pair `n`. -/
structure KeyDatap.On (bsize n : Nat) (pair : KeyDatap) (c : Page) : Prop where
  gap : c.datapOff n + datapSize ≤ c.keyOff n
  high : c.keyOff n + c.keyLen n ≤ roof bsize c n
  key : (c.key n).bytes = pair.key
  datap : c.datap n = pair.datap

structure Keyed (bsize : Nat) (pairs : List KeyDatap) (c : Page) : Prop where
  signed : Pagepool.Signed c
  count : c.numEnt = pairs.length
  room : pageOverhead + pairs.length * pairOverhead ≤ c.offset + 1
  free : c.offset + 1 ≤ roof bsize c pairs.length
  on : ∀ n (pair : KeyDatap), pairs[n]? = some pair → pair.On bsize n c

def Roomy (c : Page) (ksize : Nat) : Prop :=
  pageOverhead + (c.numEnt + 1) * pairOverhead + datapSize + ksize ≤ c.offset + 1

theorem roof_congr (words : ∀ i, pageOverhead ≤ i → i < pageOverhead + n * pairOverhead → c' i = c i) :
    roof bsize c' n = roof bsize c n := by
  cases n with
  | zero => rfl
  | succ n =>
    simp only [pairOverhead] at words
    exact Lib.Mem.read32_congr fun i low high => words i (by omega) (by simp only [pairOverhead] at *; omega)

theorem KeyDatap.On.congr (on : pair.On bsize n c)
    (words : ∀ i, pageOverhead ≤ i → i < pageOverhead + (n + 1) * pairOverhead → c' i = c i)
    (bytes : ∀ i, c.datapOff n ≤ i → i < roof bsize c n → c' i = c i) : pair.On bsize n c' := by
  have word : ∀ a, pageOverhead ≤ a → a + 4 ≤ pageOverhead + (n + 1) * pairOverhead → c'.read32 a = c.read32 a :=
    fun a low high => Lib.Mem.read32_congr fun i least most => words i (by omega) (by omega)
  have keyOff : c'.keyOff n = c.keyOff n := word _ (by omega) (by simp only [pairOverhead]; omega)
  have keyLen : c'.keyLen n = c.keyLen n := word _ (by omega) (by simp only [pairOverhead]; omega)
  have datapOff : c'.datapOff n = c.datapOff n := word _ (by omega) (by simp only [pairOverhead]; omega)
  have same : roof bsize c' n = roof bsize c n := roof_congr fun i low high =>
    words i low (by simp only [pairOverhead] at *; omega)
  have gap := on.gap
  have high := on.high
  refine ⟨?_, ?_, ?_, ?_⟩
  · rw [datapOff, keyOff]
    exact gap
  · rw [keyOff, keyLen, same]
    exact high
  · refine Eq.trans ?_ on.key
    simp only [Page.key, Dbt.bytes, keyOff, keyLen]
    exact Lib.Mem.bytes_congr fun i less => bytes _ (by omega) (by omega)
  · refine Eq.trans ?_ on.datap
    simp only [Page.datap, datapOff]
    exact readDatap_congr fun i low less => bytes i low (by omega)

namespace Keyed

variable (h : Keyed bsize pairs c)
include h

theorem on_lt (low : n < pairs.length) : (pairs.get ⟨n, low⟩).On bsize n c :=
  h.on n _ (List.getElem?_eq_getElem low)

theorem roof_le (le : n ≤ pairs.length) : roof bsize c n + n * datapSize ≤ bsize := by
  induction n with
  | zero => simp [roof]
  | succ n ih =>
    have on := h.on_lt le
    have gap := on.gap
    have high := on.high
    have low := ih (Nat.le_of_succ_le le)
    simp only [roof, datapSize] at *
    omega

theorem roof_mono {m : Nat} (le : n ≤ m) (most : m ≤ pairs.length) : roof bsize c m ≤ roof bsize c n := by
  induction m with
  | zero =>
    obtain rfl : n = 0 := Nat.le_zero.mp le
    exact le_rfl
  | succ m ih =>
    rcases Nat.lt_or_eq_of_le le with less | rfl
    · have on := h.on_lt most
      have gap := on.gap
      have high := on.high
      have low := ih (Nat.le_of_lt_succ less) (Nat.le_of_succ_le most)
      simp only [roof] at *
      omega
    · exact le_rfl

theorem offset_lt : c.offset < bsize := by
  have low := h.roof_le le_rfl
  have free := h.free
  omega

theorem few (most : bsize ≤ maxBsize) : pairs.length < 65535 := by
  have low := h.roof_le le_rfl
  have room := h.room
  have free := h.free
  simp only [maxBsize, datapSize, pageOverhead, pairOverhead] at *
  omega

theorem behind (low : n < pairs.length) : c.offset + 1 ≤ c.datapOff n :=
  h.free.trans (h.roof_mono low le_rfl)

theorem congr (signed : Pagepool.Signed c') (count : c'.numEnt = c.numEnt) (offset : c'.offset = c.offset)
    (same : ∀ i, pageOverhead ≤ i → c' i = c i) : Keyed bsize pairs c' := by
  have room := h.room
  have free : c'.offset + 1 ≤ roof bsize c' pairs.length := by
    rw [offset, roof_congr fun i low _ => same i low]
    exact h.free
  refine ⟨signed, count.trans h.count, offset ▸ room, free, fun n pair mem => ?_⟩
  have below := h.behind (List.getElem?_eq_some_iff.mp mem).1
  exact (h.on n pair mem).congr (fun i low _ => same i low) fun i low _ => same i (by omega)

theorem agree (same : Agree c' c) : Keyed bsize pairs c' :=
  h.congr ((same.read32 (.inl (by decide))).trans h.signed)
    (Lib.Mem.read16_congr fun i _ high => same i (.inl (by simp only [chksumPos]; omega)))
    (same.read32 (.inr (by decide))) fun i low => same i (.inr (by simp only [pageOverhead, chksumOffset] at *; omega))

end Keyed

section Put

/-- Where the next pair goes, on a page that has room for it: its pointer at `a`, its key at `k`. -/
structure Places (c : Page) (key : Dbt) (a k : Nat) : Prop where
  keyOff : slotKeyOff c key = k
  off : slotOff c key = a
  ends : k + key.size = c.offset + 1
  word : c.offset < maxBsize
  gap : a + datapSize ≤ k
  near : k < a + datapSize + 4
  room : pageOverhead + (c.numEnt + 1) * pairOverhead ≤ a

theorem places (most : bsize ≤ maxBsize) (high : c.offset < bsize) (roomy : Roomy c key.size) :
    ∃ a k, Places c key a k := by
  simp only [Roomy, pageOverhead, pairOverhead, datapSize] at roomy
  have word : c.offset < maxBsize := by omega
  have small : maxBsize < 0x100000000 := by decide
  have start : slotKeyOff c key = c.offset + 1 - key.size := by
    simp only [slotKeyOff, u32]
    omega
  obtain ⟨soff, eq⟩ : ∃ soff, soff = c.offset + 1 - key.size - 16 := ⟨_, rfl⟩
  have low : slotOff c key = soff - soff % 4 := by
    rw [slotOff, start, show u32 (c.offset + 1 - key.size + 0x100000000 - datapSize) = soff by
      simp only [u32, datapSize]
      omega]
    rfl
  refine ⟨_, _, start, low, by omega, word, ?_, ?_, ?_⟩
  · simp only [datapSize]
    omega
  · simp only [datapSize]
    omega
  · simp only [pageOverhead, pairOverhead]
    omega

namespace Places

variable {a k : Nat} (p : Places c key a k)
include p

theorem size : u32 key.size = key.size := by
  have ends := p.ends
  have word := p.word
  have small : maxBsize < 0x100000000 := by decide
  simp only [u32]
  omega

theorem putKey : Htab.putKey key c =
    Lib.Mem.fill (setKeyLen (setKeyOff (Lib.Mem.copy c k key.data key.size) c.numEnt k) c.numEnt key.size)
      (a + datapSize) (k - datapSize - a) 0 := by
  have ends := p.ends
  have word := p.word
  have gap := p.gap
  have small : maxBsize < 0x100000000 := by decide
  have soff : u32 (k + 0x100000000 - datapSize) = k - datapSize := by
    simp only [u32, datapSize] at *
    omega
  have align : alignDatapOffsetVal (k - datapSize) = a := by
    rw [← soff, ← p.keyOff]
    exact p.off
  simp only [Htab.putKey, p.keyOff, p.size, soff, align]

theorem putKey_outside (words : i < pageOverhead + c.numEnt * pairOverhead ∨
      pageOverhead + c.numEnt * pairOverhead + 8 ≤ i) (bytes : i < a + datapSize ∨ c.offset < i) :
    Htab.putKey key c i = c i := by
  have ends := p.ends
  have gap := p.gap
  rw [p.putKey]
  simp only [setKeyOff, setKeyLen, Lib.Mem.fill]
  rw [Lib.Mem.copy_outside (by omega), Lib.Mem.write32_outside (by omega), Lib.Mem.write32_outside (by omega),
    Lib.Mem.copy_outside (by omega)]

theorem pair_outside (counts : i < 16 ∨ 18 ≤ i) (offset : i < 24 ∨ pageOverhead ≤ i)
    (words : i < pageOverhead + c.numEnt * pairOverhead ∨ pageOverhead + (c.numEnt + 1) * pairOverhead ≤ i)
    (bytes : i < a ∨ c.offset < i) : putDatap c.numEnt a datap (Htab.putKey key c) i = c i := by
  have ends := p.ends
  have gap := p.gap
  simp only [pageOverhead, pairOverhead, datapSize] at *
  simp only [putDatap, setOffset, setNumEnt, setDatapOff, pageOverhead, pairOverhead]
  rw [Lib.Mem.write32_outside (by omega), Lib.Mem.write16_outside (by omega), Lib.Mem.write32_outside (by omega),
    writeDatap_outside (by simp only [datapSize]; omega)]
  exact p.putKey_outside (by simp only [pageOverhead, pairOverhead]; omega) (by simp only [datapSize]; omega)

omit p in
theorem pair_count (few : c.numEnt < 65535) :
    (putDatap c.numEnt a datap (Htab.putKey key c)).numEnt = c.numEnt + 1 := by
  simp only [putDatap, numEnt, setOffset, setNumEnt]
  rw [read16_write32 (by omega), Lib.Mem.read16_write16_same]
  exact Nat.mod_eq_of_lt (by rw [numEnt] at few; omega)

theorem pair_offset : (putDatap c.numEnt a datap (Htab.putKey key c)).offset + 1 = a := by
  have room := p.room
  have ends := p.ends
  have gap := p.gap
  have word := p.word
  have small : maxBsize < 0x100000000 := by decide
  simp only [putDatap, offset, setOffset, Lib.Mem.read32_write32_same, u32, pageOverhead] at *
  omega

theorem pair_words : (putDatap c.numEnt a datap (Htab.putKey key c)).keyOff c.numEnt = k ∧
    (putDatap c.numEnt a datap (Htab.putKey key c)).keyLen c.numEnt = key.size ∧
    (putDatap c.numEnt a datap (Htab.putKey key c)).datapOff c.numEnt = a := by
  have room := p.room
  have ends := p.ends
  have gap := p.gap
  have word := p.word
  have small : maxBsize < 0x100000000 := by decide
  simp only [putDatap, Page.keyOff, keyLen, datapOff, setOffset, setNumEnt, setDatapOff, writeDatap,
    p.putKey, setKeyOff,
    setKeyLen, Lib.Mem.fill, pageOverhead, pairOverhead, datapSize] at *
  refine ⟨?_, ?_, ?_⟩
  · simp (disch := omega) only [read32_write32, read32_write16, read32_copy, Lib.Mem.read32_write32_same]
    omega
  · simp (disch := omega) only [read32_write32, read32_write16, read32_copy, Lib.Mem.read32_write32_same]
    omega
  · simp (disch := omega) only [read32_write32, read32_write16, Lib.Mem.read32_write32_same]
    omega

theorem pair_bytes (words : datap.Words) : (putDatap c.numEnt a datap (Htab.putKey key c)).readDatap a = datap ∧
    Lib.Mem.bytes (Lib.Mem.drop (putDatap c.numEnt a datap (Htab.putKey key c)) k) key.size = key.bytes := by
  have room := p.room
  have gap := p.gap
  simp only [pageOverhead, pairOverhead, datapSize] at room gap
  constructor
  · refine Eq.trans (readDatap_congr fun i low _ => ?_) (readDatap_writeDatap words (c := Htab.putKey key c))
    simp only [putDatap, setOffset, setNumEnt, setDatapOff, pageOverhead, pairOverhead]
    rw [Lib.Mem.write32_outside (by omega), Lib.Mem.write16_outside (by omega), Lib.Mem.write32_outside (by omega)]
  · refine Eq.trans (Lib.Mem.bytes_congr fun i less => ?_) (Lib.Mem.bytes_drop_copy (m := c) (a := k))
    simp only [putDatap, setOffset, setNumEnt, setDatapOff, p.putKey, setKeyOff, setKeyLen, Lib.Mem.fill, Lib.Mem.drop,
      pageOverhead, pairOverhead, datapSize]
    rw [Lib.Mem.write32_outside (by omega), Lib.Mem.write16_outside (by omega), Lib.Mem.write32_outside (by omega),
      writeDatap_outside (by simp only [datapSize]; omega), Lib.Mem.copy_outside (by omega),
      Lib.Mem.write32_outside (by omega), Lib.Mem.write32_outside (by omega)]

end Places

theorem Places.below (p : Places c key a k) : a + datapSize + key.size ≤ c.offset + 1 := by
  have ends := p.ends
  have gap := p.gap
  omega

theorem Keyed.put (h : Keyed bsize pairs c) (most : bsize ≤ maxBsize) (roomy : Roomy c key.size)
    (words : datap.Words) :
    Keyed bsize (pairs ++ [⟨key.bytes, datap⟩]) (putDatap c.numEnt (slotOff c key) datap (putKey key c)) := by
  obtain ⟨a, k, p⟩ := places most h.offset_lt roomy
  rw [p.off]
  have below := p.below
  have room := p.room
  have few := h.few most
  rw [← h.count] at few
  obtain ⟨pointer, bytes⟩ := p.pair_bytes words
  obtain ⟨keyOff, keyLen, datapOff⟩ : (putDatap c.numEnt a datap (putKey key c)).keyOff c.numEnt = k ∧
      (putDatap c.numEnt a datap (putKey key c)).keyLen c.numEnt = key.size ∧
      (putDatap c.numEnt a datap (putKey key c)).datapOff c.numEnt = a := p.pair_words
  have count : (putDatap c.numEnt a datap (putKey key c)).numEnt = c.numEnt + 1 := Places.pair_count few
  have offset : (putDatap c.numEnt a datap (putKey key c)).offset + 1 = a := p.pair_offset
  have outside : ∀ i, _ → _ → _ → _ → putDatap c.numEnt a datap (putKey key c) i = c i := fun i => p.pair_outside
  generalize putDatap c.numEnt a datap (putKey key c) = c' at *
  have length : (pairs ++ [⟨key.bytes, datap⟩] : List KeyDatap).length = c.numEnt + 1 := by
    rw [List.length_append, h.count]
    rfl
  simp only [pageOverhead, pairOverhead, datapSize] at *
  have head : ∀ i, i < 16 → c' i = c i := fun i low =>
    outside i (.inl low) (.inl (by omega)) (.inl (by omega)) (.inl (by omega))
  have mine : ∀ i, 28 ≤ i → i < 28 + c.numEnt * 12 → c' i = c i := fun i low less =>
    outside i (.inr (by omega)) (.inr low) (.inl less) (.inl (by omega))
  refine ⟨(Lib.Mem.read32_congr fun i _ less => head i (by omega)).trans h.signed, count.trans length.symm, ?_, ?_, ?_⟩
  · rw [length, offset]
    exact room
  · rw [length, offset]
    exact datapOff.ge
  · intro m pair mem
    rcases Nat.lt_or_ge m pairs.length with old | new
    · rw [List.getElem?_append_left old] at mem
      have behind := h.behind old
      refine (h.on m pair mem).congr (fun i low less => mine i low ?_) fun i low _ => ?_
      · simp only [pageOverhead, pairOverhead, h.count] at *
        omega
      · exact outside i (.inr (by omega)) (.inr (by omega)) (.inr (by omega)) (.inr (by omega))
    · have last : m = c.numEnt := by
        have less := (List.getElem?_eq_some_iff.mp mem).1
        have count := h.count
        omega
      subst last
      rw [h.count, List.getElem?_concat_length] at mem
      cases mem
      have same : roof bsize c' c.numEnt = roof bsize c c.numEnt := roof_congr mine
      have free := h.free
      rw [← h.count] at free
      have gap := p.gap
      have ends := p.ends
      refine ⟨?_, ?_, ?_, ?_⟩
      · rw [datapOff, keyOff]
        exact gap
      · rw [keyOff, keyLen, same]
        omega
      · simp only [Page.key, Dbt.bytes, keyOff, keyLen]
        exact bytes
      · rw [Page.datap, datapOff]
        exact pointer

theorem Keyed.put_head (h : Keyed bsize pairs c) (most : bsize ≤ maxBsize) (roomy : Roomy c key.size) (head : i < 16) :
    putDatap c.numEnt (slotOff c key) datap (putKey key c) i = c i := by
  obtain ⟨a, k, p⟩ := places most h.offset_lt roomy
  have room := p.room
  simp only [pageOverhead, pairOverhead] at room
  rw [p.off]
  exact p.pair_outside (.inl head) (.inl (by omega)) (.inl (by simp only [pageOverhead]; omega)) (.inl (by omega))

theorem Keyed.renew (h : Keyed bsize pairs c) (low : n < pairs.length) (words : datap.Words) :
    Keyed bsize (pairs.set n ⟨(pairs.get ⟨n, low⟩).key, datap⟩) (c.writeDatap (c.datapOff n) datap) := by
  have room := h.room
  have behind := h.behind low
  have on := h.on_lt low
  have outside : ∀ i, i < c.datapOff n ∨ c.datapOff n + datapSize ≤ i → c.writeDatap (c.datapOff n) datap i = c i :=
    fun i out => writeDatap_outside out
  have pointer : (c.writeDatap (c.datapOff n) datap).readDatap (c.datapOff n) = datap := readDatap_writeDatap words
  generalize c.writeDatap (c.datapOff n) datap = c' at *
  simp only [pageOverhead, pairOverhead] at room
  have head : ∀ i, i < 28 + pairs.length * 12 → c' i = c i := fun i less => outside i (.inl (by omega))
  have offset : c'.offset = c.offset := Lib.Mem.read32_congr fun i _ less => head i (by omega)
  refine ⟨(Lib.Mem.read32_congr fun i _ less => head i (by omega)).trans h.signed, ?_, ?_, ?_, fun m pair mem => ?_⟩
  · rw [List.length_set]
    exact (Lib.Mem.read16_congr fun i _ less => head i (by omega)).trans h.count
  · rw [List.length_set, offset]
    exact h.room
  · rw [List.length_set, offset, roof_congr fun i _ less => head i less]
    exact h.free
  · have most := (List.getElem?_eq_some_iff.mp mem).1
    rw [List.length_set] at most
    have words : ∀ i, pageOverhead ≤ i → i < pageOverhead + (m + 1) * pairOverhead → c' i = c i := fun i _ less =>
      head i (by simp only [pageOverhead, pairOverhead] at less; omega)
    by_cases mine : m = n
    · subst mine
      rw [List.getElem?_set_self low] at mem
      cases mem
      have gap := on.gap
      have high := on.high
      have word : ∀ k, k + 4 ≤ pairOverhead → c'.read32 (pageOverhead + m * pairOverhead + k) =
          c.read32 (pageOverhead + m * pairOverhead + k) := fun k fits =>
        Lib.Mem.read32_congr fun i least less => words i (by omega) (by simp only [pairOverhead] at *; omega)
      have keyOff : c'.keyOff m = c.keyOff m := word 0 (by decide)
      have keyLen : c'.keyLen m = c.keyLen m := word 4 (by decide)
      have datapOff : c'.datapOff m = c.datapOff m := word 8 (by decide)
      refine ⟨?_, ?_, ?_, ?_⟩
      · rw [datapOff, keyOff]
        exact gap
      · rw [keyOff, keyLen, roof_congr fun i least less => words i least (by simp only [pairOverhead] at *; omega)]
        exact high
      · refine Eq.trans ?_ on.key
        simp only [Page.key, Dbt.bytes, keyOff, keyLen]
        exact Lib.Mem.bytes_congr fun i _ => outside _ (.inr (by omega))
      · rw [Page.datap, datapOff]
        exact pointer
    · rw [List.getElem?_set_ne (Ne.symm mine)] at mem
      refine (h.on m pair mem).congr words fun i least less => outside i ?_
      rcases Nat.lt_or_gt_of_ne mine with before | after
      · have above : roof bsize c n ≤ c.datapOff m := h.roof_mono before low.le
        have gap := on.gap
        have high := on.high
        exact .inr (by omega)
      · have above : roof bsize c m ≤ c.datapOff n := h.roof_mono after most.le
        exact .inl (by omega)

theorem keyed_initPage {page ty : Nat} (size : PageSize bsize) (ovfl : ty = hashBucketPage ∨ ty = hashOvflPage) :
    Keyed bsize [] (FileHash.initPage bsize c page ty) := by
  have header := size.header
  have most := size.most
  have offset : (FileHash.initPage bsize c page ty).offset = bsize - 1 :=
    offset_initPage_bucket (by simp only [maxBsize] at most; omega) ovfl
  refine ⟨signed_initPage, numEnt_initPage _ _ _ _, ?_, ?_, fun n pair mem => by cases mem⟩
  · rw [offset]
    simp only [pageOverhead, hashhdrSize, List.length_nil] at *
    omega
  · rw [offset]
    simp only [roof, hashhdrSize, List.length_nil] at *
    omega

end Put

end FileHash.Htab
