import FileHash.Table

/-! The header record on the first page of the file: big-endian words in the order of
`ffdb_hashhdr_t`, with a checksum over all that precedes it. -/
namespace FileHash

/-- Big-endian bytes of a word, as `P_32_COPY` and `P_16_COPY` leave them. -/
def beBytes32 (v : Nat) : List UInt8 := [v / 0x1000000, v / 0x10000, v / 0x100, v].map UInt8.ofNat

def beBytes16 (v : Nat) : List UInt8 := [v / 0x100, v].map UInt8.ofNat

def readBe32 (m : Lib.Mem) (a : Nat) : Nat := bswap32 (m.read32 a)

def readBe16 (m : Lib.Mem) (a : Nat) : Nat := (m a).toNat * 256 + (m (a + 1)).toNat

namespace Hashhdr

def frontWords (hdr : Hashhdr) : List Nat :=
  [hdr.magic, hdr.version, hdr.lorder, hdr.bsize, hdr.bshift, hdr.ovflPoint, hdr.maxBucket,
    hdr.highMask, hdr.lowMask, hdr.ffactor, hdr.nkeys, hdr.hdrpages, hdr.uinfolen]

def halfWords (hdr : Hashhdr) : List Nat :=
  [hdr.uinfoPage, hdr.uinfoNpages, hdr.cfigPage, hdr.cfigNpages]

def backWords (hdr : Hashhdr) : List Nat :=
  [hdr.numCfigs, hdr.hCharkey, hdr.numMovedPages] ++
    (List.range ncached).map hdr.spares ++ (List.range ncached).map hdr.freePages

def body (hdr : Hashhdr) : List UInt8 :=
  hdr.frontWords.flatMap beBytes32 ++ hdr.halfWords.flatMap beBytes16 ++
    hdr.backWords.flatMap beBytes32

/-- `_ffdb_swap_header_copy` and the checksum `_ffdb_hput_header` adds. -/
def encode (hdr : Hashhdr) : List UInt8 :=
  hdr.body ++ beBytes32 (Checksum.crc32Checksum 0 hdr.body)

/-- `_ffdb_swap_header` on the bytes read. -/
def decode (m : Lib.Mem) : Hashhdr where
  magic := readBe32 m 0
  version := readBe32 m 4
  lorder := readBe32 m 8
  bsize := readBe32 m 12
  bshift := readBe32 m 16
  ovflPoint := readBe32 m 20
  maxBucket := readBe32 m 24
  highMask := readBe32 m 28
  lowMask := readBe32 m 32
  ffactor := readBe32 m 36
  nkeys := readBe32 m 40
  hdrpages := readBe32 m 44
  uinfolen := readBe32 m 48
  uinfoPage := readBe16 m 52
  uinfoNpages := readBe16 m 54
  cfigPage := readBe16 m 56
  cfigNpages := readBe16 m 58
  numCfigs := readBe32 m 60
  hCharkey := readBe32 m 64
  numMovedPages := readBe32 m 68
  spares i := if i < ncached then readBe32 m (72 + 4 * i) else 0
  freePages i := if i < ncached then readBe32 m (200 + 4 * i) else 0

/-- The comparison of checksums in `_ffdb_hget_header`. -/
def checks (m : Lib.Mem) : Bool :=
  Checksum.crc32Checksum 0 (m.bytes (hashhdrSize - 4)) == readBe32 m (hashhdrSize - 4)

/-- `_ffdb_hput_header` on the file. -/
def put (hdr : Hashhdr) (file : Pagefile) : Pagefile :=
  file.write 0 ((file.read 0).copy 0 (Dbt.ofBytes hdr.encode).data hashhdrSize)

end Hashhdr

theorem length_flatMap_const {α β : Type} {f : α → List β} {k : Nat} (each : ∀ a, (f a).length = k)
    (l : List α) : (l.flatMap f).length = k * l.length := by
  induction l with
  | nil => rfl
  | cons a l ih => rw [List.flatMap_cons, List.length_append, each, ih, List.length_cons]; ring

theorem Hashhdr.length_encode (hdr : Hashhdr) : hdr.encode.length = hashhdrSize := by
  have words : ∀ l : List Nat, (l.flatMap beBytes32).length = 4 * l.length :=
    length_flatMap_const fun _ => rfl
  have halves : ∀ l : List Nat, (l.flatMap beBytes16).length = 2 * l.length :=
    length_flatMap_const fun _ => rfl
  simp only [encode, body, List.length_append, words, halves, frontWords, halfWords, backWords,
    List.length_map, List.length_range, List.length_cons, List.length_nil]
  rfl

end FileHash
