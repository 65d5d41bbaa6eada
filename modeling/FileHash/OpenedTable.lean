import FileHash.Contents
import FileHash.Hash
import FileHash.PageFilters

/-! A table just opened on a file of pages serves an image of them: each page is read as it
was written if it is signed, and as an empty one if it is not. -/
namespace FileHash.Htab

open Page

theorem numEnt_clear {c : Page} (clear : Clear c) : c.numEnt = 0 := by
  simp only [numEnt, Lib.Mem.read16, clear 16 (by decide), clear 17 (by decide)]
  rfl

def tableOn (o : Opening) (hdr : Hashhdr) (n : Nat) (pages : Nat → Page) : Htab :=
  tableOf o hdr false ⟨n, fun q => pgoutRoutine hdr.bsize false q (pages q)⟩

variable {o : Opening} {hdr : Hashhdr} {n : Nat} {pages : Nat → Page}

theorem read_tableOn (o : Opening) (n : Nat) (pages : Nat → Page) (native : hdr.lorder = littleEndian)
    (p : Nat) : ∃ d,
    (tableOn o hdr n pages).mp.pgin p ((tableOn o hdr n pages).mp.file.read p) = some d ∧
      if p < n ∧ (pages p).pageSign = pageMagic then Agree d (pages p) else d.numEnt = 0 := by
  have empty : ∀ c : Page, c.pageSign ≠ pageMagic → ∃ d, pginRoutine hdr.bsize false p c = some d ∧
      d.numEnt = 0 := fun c unsigned =>
    ⟨FileHash.initPage hdr.bsize c p hashDeletedPage, by
      simp only [pginRoutine, Bool.false_eq_true, if_false, if_pos unsigned], numEnt_initPage _ _ _ _⟩
  have native' : (hdr.lorder != littleEndian) = false := by simp [native]
  have pgin : (tableOn o hdr n pages).mp.pgin = pginRoutine hdr.bsize (hdr.lorder != littleEndian) := rfl
  have file : (tableOn o hdr n pages).mp.file.read p =
      if p < n then pgoutRoutine hdr.bsize false p (pages p) else fun _ => 0 := rfl
  rw [pgin, file, native']
  have image : Agree (pgoutRoutine hdr.bsize false p (pages p)) (pages p) := agree_setChksum _ _
  by_cases low : p < n
  · rw [if_pos low]
    by_cases signed : (pages p).pageSign = pageMagic
    · simp only [if_pos (And.intro low signed)]
      exact roundTrip_native signed
    · simp only [if_neg fun both : p < n ∧ (pages p).pageSign = pageMagic => signed both.2]
      exact empty _ (by rw [image.pageSign]; exact signed)
  · simp only [if_neg low, if_neg fun both : p < n ∧ (pages p).pageSign = pageMagic => low both.1]
    exact empty _ Pagepool.pageSign_zero

theorem looks_tableOn (native : hdr.lorder = littleEndian) {p : Nat} {c : Page}
    (h : (tableOn o hdr n pages).mp.Looks p c) :
    if p < n ∧ (pages p).pageSign = pageMagic then Agree c (pages p) else c.numEnt = 0 := by
  obtain ⟨e, run, reads⟩ := read_tableOn o n pages native p
  obtain ⟨d, shows, agree⟩ := h
  rcases shows with ⟨id, mem, _⟩ | ⟨_, ⟨e', run', same⟩ | ⟨high, clear⟩⟩
  · exact absurd mem List.not_mem_nil
  · rw [run] at run'
    cases run'
    split_ifs at reads ⊢
    · exact (agree.trans same).trans reads
    · rw [(agree.trans same).numEnt]
      exact reads
  · rw [if_neg (fun both => absurd both.1 (not_lt.mpr high)), agree.numEnt]
    exact numEnt_clear clear

theorem serves_tableOn (fault : ∀ m, o.fault m = false) (native : hdr.lorder = littleEndian)
    (img : Image (tableOn o hdr n pages))
    (signed : ∀ p, img.data p ∨ img.OnChain p → p < n ∧ (pages p).pageSign = pageMagic ∧
      img.view p = pages p)
    (blank : ∀ b ≤ hdr.maxBucket, img.chain b = [] → ¬(hdr.bucketToPage b < n ∧
      (pages (hdr.bucketToPage b)).pageSign = pageMagic)) : img.Serves (tableOn o hdr n pages) := by
  refine ⟨rfl, fault, ⟨Pagepool.linked_openFd, fun p _ => ?_, fun id mem => absurd mem List.not_mem_nil⟩,
    rfl, fun id mem => absurd mem List.not_mem_nil, fun p c looks => ⟨fun on => ?_, ?_⟩⟩
  · obtain ⟨d, run, _⟩ := read_tableOn o n pages native p
    exact ⟨d, run⟩
  · obtain ⟨low, sign, same⟩ := signed p on
    have reads := looks_tableOn native looks
    rw [if_pos ⟨low, sign⟩] at reads
    rw [same]
    exact reads
  · rintro b low none rfl
    exact Eq.mp (if_neg (blank b low none)) (looks_tableOn native looks)

section Examples

def defaults : Opening where
  rdonly := false
  info := none
  blksize := 4096
  mem := fun _ => ⟨fun _ => 0, 0, 0, 0, false, false, false, false, 0, []⟩
  fault := fun _ => false

def defaultHdr : Hashhdr := initHdr defaults 4096 12

def onlyDatap (bytes : List UInt8) : Datap :=
  ⟨4, bigPageOverhead, bytes.length, Checksum.crc32Checksum 0 bytes⟩

def onePair (key bytes : List UInt8) (p : Nat) : Page :=
  if p = 3 then
    putDatap 0 4076 (onlyDatap bytes)
      (putKey (Dbt.ofBytes key) (FileHash.initPage 4096 (fun _ => 0) 3 hashBucketPage))
  else if p = 4 then
    wholeDatum 4096 bigPageOverhead (dataHeader defaultHdr.version dataValid (Dbt.ofBytes bytes) 3 0)
      (Dbt.ofBytes bytes) (FileHash.initPage 4096 (fun _ => 0) 4 hashDataPage)
  else fun _ => 0

/-- The two pages read back as one pair. -/
structure ReadsBack (key bytes : List UInt8) : Prop where
  slots : (onePair key bytes 3).numEnt = 1
  last : (onePair key bytes 3).nextPgno = invalidPgno
  signed : (onePair key bytes 3).pageSign = pageMagic ∧ (onePair key bytes 4).pageSign = pageMagic
  keyOff : chksumOffset ≤ (onePair key bytes 3).keyOff 0
  datapOff : (onePair key bytes 3).datapOff 0 = 4076
  datap : (onePair key bytes 3).datap 0 = onlyDatap bytes
  number : (onePair key bytes 4).currPgno = 4
  entries : 1 ≤ (onePair key bytes 4).numEnt
  header : headerMatches defaultHdr.version dataValid (onePair key bytes 4) (onlyDatap bytes) 3 0 = true
  len : dataLen defaultHdr.version (onlyDatap bytes) = bytes.length
  start : dataOffset defaultHdr.version (onlyDatap bytes) = bigPageOverhead
  spelled : (Lib.Mem.drop (onePair key bytes 4) (bigPageOverhead + bigDataOverhead)).bytes
    bytes.length = bytes
  fits : bigPageOverhead + bigDataOverhead + bytes.length ≤ 4096

variable {key bytes : List UInt8}

def onePairImage (h : ReadsBack key bytes) : Image (tableOn defaults defaultHdr 5 (onePair key bytes)) where
  view := onePair key bytes
  chain b := if b = 0 then [3] else []
  data p := p = 4
  value _ _ := bytes
  size := (by decide : bigPageOverhead < defaultHdr.bsize)
  buckets := (by decide : defaultHdr.maxBucket < 0x80000000)
  linked := by
    intro b low p l eq
    obtain rfl : b = 0 := Nat.le_zero.mp low
    cases eq
    exact ⟨(by decide +kernel : defaultHdr.bucketToPage 0 = 3), .last h.last⟩
  filled := by
    intro b low p l eq
    obtain rfl : b = 0 := Nat.le_zero.mp low
    cases eq
    exact h.slots ▸ Nat.one_pos
  own := by
    intro b low none
    obtain rfl : b = 0 := Nat.le_zero.mp low
    cases none
  apart := by
    intro b low
    obtain rfl : b = 0 := Nat.le_zero.mp low
    exact ⟨(by decide +kernel : defaultHdr.bucketToPage 0 ≠ 4),
      fun p mem => by cases List.mem_singleton.mp mem; decide⟩
  slots := by
    intro b low p mem i slot
    obtain rfl : b = 0 := Nat.le_zero.mp low
    obtain rfl : p = 3 := List.mem_singleton.mp mem
    obtain rfl : i = 0 := by rw [h.slots] at slot; omega
    have whole : Spells 4096 (onePair key bytes) (· = 4) 4 (bigPageOverhead + bigDataOverhead)
        bytes.length _ := .last rfl (by decide) h.fits
    rw [h.spelled] at whole
    refine ⟨h.keyOff, by rw [h.datapOff]; decide, ?_⟩
    rw [h.datap]
    exact ⟨h.number, h.entries, h.header, h.start ▸ (by decide : chksumOffset ≤ bigPageOverhead),
      h.start.symm ▸ h.len.symm ▸ whole, rfl⟩

theorem onePair_serves (h : ReadsBack key bytes) :
    (onePairImage h).Serves (tableOn defaults defaultHdr 5 (onePair key bytes)) := by
  refine serves_tableOn (fun _ => rfl) rfl _ (fun p on => ?_) (fun b low none => ?_)
  · rcases on with (rfl : p = 4) | ⟨b, low, mem⟩
    · exact ⟨by decide, h.signed.2, rfl⟩
    · obtain rfl : b = 0 := Nat.le_zero.mp low
      obtain rfl : p = 3 := List.mem_singleton.mp mem
      exact ⟨by decide, h.signed.1, rfl⟩
  · obtain rfl : b = 0 := Nat.le_zero.mp low
    cases none

theorem readsBack_seven : ReadsBack [7] [42] := by
  constructor <;> decide +kernel

def oneBucket : Opening := { defaults with info := some ⟨512, 1, 0, false, 1, 1, none, none⟩ }

def smallHdr : Hashhdr := initHdr oneBucket 512 9

/-- The pointer to a datum of `threePairs`, which lies at `start` of page 4. -/
def pointTo (start : Nat) (bytes : List UInt8) : Datap :=
  ⟨4, start, bytes.length, Checksum.crc32Checksum 0 bytes⟩

/-- A datum of `threePairs`, whose key is in slot `i` of page `p`. -/
def withDatum (start p i : Nat) (bytes : List UInt8) (c : Page) : Page :=
  wholeDatum 512 start (dataHeader smallHdr.version dataValid (Dbt.ofBytes bytes) p i) (Dbt.ofBytes bytes) c

def threePairs (p : Nat) : Page :=
  if p = 3 then
    (putDatap 1 472 (pointTo 56 [1, 2, 3]) (putKey (Dbt.ofBytes [8, 9])
      (putDatap 0 492 (pointTo 32 [42]) (putKey (Dbt.ofBytes [7])
        (FileHash.initPage 512 (fun _ => 0) 3 hashBucketPage))))).setNextPgno 5
  else if p = 5 then
    putDatap 0 492 (pointTo 80 [5, 6]) (putKey (Dbt.ofBytes [1])
      ((FileHash.initPage 512 (fun _ => 0) 5 hashOvflPage).setPrevPgno 3))
  else if p = 4 then
    withDatum 80 5 0 [5, 6] (withDatum 56 3 1 [1, 2, 3] (withDatum 32 3 0 [42]
      (FileHash.initPage 512 (fun _ => 0) 4 hashDataPage)))
  else fun _ => 0

def threeValues (p i : Nat) : List UInt8 := if p = 5 then [5, 6] else if i = 0 then [42] else [1, 2, 3]

theorem threePairs_slot {p i : Nat} (on : p = 3 ∨ p = 5) (slot : i < (threePairs p).numEnt) :
    (p = 3 ∧ i = 0) ∨ (p = 3 ∧ i = 1) ∨ (p = 5 ∧ i = 0) := by
  have two : (threePairs 3).numEnt = 2 := by decide +kernel
  have one : (threePairs 5).numEnt = 1 := by decide +kernel
  rcases on with rfl | rfl <;> omega

def threePairsImage : Image (tableOn oneBucket smallHdr 6 threePairs) where
  view := threePairs
  chain b := if b = 0 then [3, 5] else []
  data p := p = 4
  value := threeValues
  size := (by decide : bigPageOverhead < smallHdr.bsize)
  buckets := (by decide : smallHdr.maxBucket < 0x80000000)
  linked := by
    intro b low p l eq
    obtain rfl : b = 0 := Nat.le_zero.mp low
    cases eq
    have link : (threePairs 3).nextPgno = 5 := by decide +kernel
    have last : (threePairs 5).nextPgno = invalidPgno := by decide +kernel
    exact ⟨(by decide +kernel : smallHdr.bucketToPage 0 = 3), .next link (by decide) (.last last)⟩
  filled := by
    intro b low p l eq
    obtain rfl : b = 0 := Nat.le_zero.mp low
    cases eq
    exact (by decide +kernel : 0 < (threePairs 3).numEnt)
  own := by
    intro b low none
    obtain rfl : b = 0 := Nat.le_zero.mp low
    cases none
  apart := by
    intro b low
    obtain rfl : b = 0 := Nat.le_zero.mp low
    exact ⟨(by decide +kernel : smallHdr.bucketToPage 0 ≠ 4), (by decide : ∀ p ∈ [3, 5], p ≠ 4)⟩
  slots := by
    intro b low p mem i slot
    obtain rfl : b = 0 := Nat.le_zero.mp low
    have on : p = 3 ∨ p = 5 := by simpa using mem
    have spells : ∀ (start : Nat) (bytes : List UInt8), chksumOffset ≤ start + bigDataOverhead →
        start + bigDataOverhead + bytes.length ≤ 512 →
        (Lib.Mem.drop (threePairs 4) (start + bigDataOverhead)).bytes bytes.length = bytes →
        Spells 512 threePairs (· = 4) 4 (start + bigDataOverhead) bytes.length bytes := by
      intro start bytes low fits spelled
      have whole : Spells 512 threePairs (· = 4) 4 (start + bigDataOverhead) bytes.length _ :=
        .last rfl low fits
      rwa [spelled] at whole
    rcases threePairs_slot on slot with ⟨rfl, rfl⟩ | ⟨rfl, rfl⟩ | ⟨rfl, rfl⟩
    · refine ⟨by decide +kernel, by decide +kernel, ?_⟩
      rw [(by decide +kernel : (threePairs 3).datap 0 = pointTo 32 [42])]
      exact ⟨by decide +kernel, by decide +kernel, by decide +kernel, by decide +kernel,
        spells 32 [42] (by decide) (by decide) (by decide +kernel), rfl⟩
    · refine ⟨by decide +kernel, by decide +kernel, ?_⟩
      rw [(by decide +kernel : (threePairs 3).datap 1 = pointTo 56 [1, 2, 3])]
      exact ⟨by decide +kernel, by decide +kernel, by decide +kernel, by decide +kernel,
        spells 56 [1, 2, 3] (by decide) (by decide) (by decide +kernel), rfl⟩
    · refine ⟨by decide +kernel, by decide +kernel, ?_⟩
      rw [(by decide +kernel : (threePairs 5).datap 0 = pointTo 80 [5, 6])]
      exact ⟨by decide +kernel, by decide +kernel, by decide +kernel, by decide +kernel,
        spells 80 [5, 6] (by decide) (by decide) (by decide +kernel), rfl⟩

theorem threePairs_serves : threePairsImage.Serves (tableOn oneBucket smallHdr 6 threePairs) := by
  refine serves_tableOn (fun _ => rfl) rfl _ (fun p on => ?_) (fun b low none => ?_)
  · rcases on with (rfl : p = 4) | ⟨b, low, mem⟩
    · exact ⟨by decide, by decide +kernel, rfl⟩
    · obtain rfl : b = 0 := Nat.le_zero.mp low
      have on : p = 3 ∨ p = 5 := by simpa [threePairsImage] using mem
      rcases on with rfl | rfl
      · exact ⟨by decide, by decide +kernel, rfl⟩
      · exact ⟨by decide, by decide +kernel, rfl⟩
  · obtain rfl : b = 0 := Nat.le_zero.mp low
    cases none

end Examples

end FileHash.Htab
