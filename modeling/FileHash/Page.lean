import FileHash.Checksum

/-! Page layout of `ffdb_page.h` and the routines of `ffdb_page.c` that touch one
page only: initialization, checksum, and the filters run on input and output.
Words are little-endian, as on the machine the model runs on; a file written in
the other byte order goes through the swap routines. A page is addressed from
`0` to `bsize - 1`; what lies beyond is never read or written. -/
namespace FileHash

abbrev Page := Lib.Mem

def invalidPgno : Nat := 0xffffffff
def pageMagic : Nat := 0xe0f1a2b9

def hashBucketPage : Nat := 0x1001
def hashDataPage : Nat := 0x2001
def hashOvflPage : Nat := 0x3001
def hashUinfoPage : Nat := 0x4001
def hashConfigPage : Nat := 0x5001
def hashFreePage : Nat := 0x6001
def hashDeletedPage : Nat := 0x8001
def hashRawPage : Nat := 0xffee

def pageOverhead : Nat := 28
def pairOverhead : Nat := 12
def bigPageOverhead : Nat := 32
def bigDataOverhead : Nat := 20
def datapSize : Nat := 16
def chksumPos : Nat := 20
def chksumOffset : Nat := 24
def cleanhdrSize : Nat := 32
def freePageStart : Nat := 28
def configInfoSize : Nat := 148

/-- `ffdb_datap_t`: where a datum lies, kept beside its key. -/
structure Datap where
  first : Nat
  offset : Nat
  len : Nat
  chksum : Nat
  deriving DecidableEq, Repr

/-- `ffdb_data_header_t`: the words in front of a datum on its first page. -/
structure DataHeader where
  len : Nat
  status : Nat
  next : Nat
  keyPage : Nat
  keyIdx : Nat
  deriving DecidableEq, Repr

/-- `FFDB_DBT`: a caller's buffer, the memory behind the pointer and its length. -/
structure Dbt where
  data : Lib.Mem
  size : Nat

def Dbt.bytes (d : Dbt) : List UInt8 := d.data.bytes d.size

@[simp] theorem Dbt.length_bytes (d : Dbt) : d.bytes.length = d.size := Lib.Mem.length_bytes

def Dbt.ofBytes (l : List UInt8) : Dbt := ⟨fun i => l.getD i 0, l.length⟩

def isHugeData (len : Nat) : Bool := decide (0xffffffff < len)

def dlenHighBits (l : Nat) : Nat := l / 0x100000000 % 256

def insertLenToPgoffset (l o : Nat) : Nat := dlenHighBits l * 0x100000 + o % 0x100000

def getLenFromPgoffset (o : Nat) : Nat := o / 0x100000 % 256

def realDataLen (l o : Nat) : Nat := getLenFromPgoffset o * 0x100000000 + l

def getPgoffset (o : Nat) : Nat := o % 0x100000

def alignDatapOffsetVal (v : Nat) : Nat := v - v % 4

def alignAddr (v : Nat) : Nat := (v + 3) / 4 * 4

namespace Page
open Lib.Mem

def currPgno (p : Page) : Nat := read32 p 0
def prevPgno (p : Page) : Nat := read32 p 4
def nextPgno (p : Page) : Nat := read32 p 8
def pageSign (p : Page) : Nat := read32 p 12
def numEnt (p : Page) : Nat := read16 p 16
def type (p : Page) : Nat := read16 p 18
def chksum (p : Page) : Nat := read32 p 20
def offset (p : Page) : Nat := read32 p 24
def firstDataPos (p : Page) : Nat := read32 p 28
def userDataLen (p : Page) : Nat := read32 p 28
def freePage (p : Page) (i : Nat) : Nat := read32 p (freePageStart + i * 4)

def setCurrPgno (p : Page) (v : Nat) : Page := write32 p 0 v
def setPrevPgno (p : Page) (v : Nat) : Page := write32 p 4 v
def setNextPgno (p : Page) (v : Nat) : Page := write32 p 8 v
def setPageSign (p : Page) (v : Nat) : Page := write32 p 12 v
def setNumEnt (p : Page) (v : Nat) : Page := write16 p 16 v
def setType (p : Page) (v : Nat) : Page := write16 p 18 v
def setChksum (p : Page) (v : Nat) : Page := write32 p 20 v
def setOffset (p : Page) (v : Nat) : Page := write32 p 24 v
def setFirstDataPos (p : Page) (v : Nat) : Page := write32 p 28 v
def setUserDataLen (p : Page) (v : Nat) : Page := write32 p 28 v
def setFreePage (p : Page) (i v : Nat) : Page := write32 p (freePageStart + i * 4) v

def keyOff (p : Page) (n : Nat) : Nat := read32 p (pageOverhead + n * pairOverhead)
def keyLen (p : Page) (n : Nat) : Nat := read32 p (pageOverhead + n * pairOverhead + 4)
def datapOff (p : Page) (n : Nat) : Nat := read32 p (pageOverhead + n * pairOverhead + 8)

def setKeyOff (p : Page) (n v : Nat) : Page := write32 p (pageOverhead + n * pairOverhead) v
def setKeyLen (p : Page) (n v : Nat) : Page := write32 p (pageOverhead + n * pairOverhead + 4) v
def setDatapOff (p : Page) (n v : Nat) : Page := write32 p (pageOverhead + n * pairOverhead + 8) v

/-- `KEY(P, N)` with its length: the key as the page's own memory shows it. -/
def key (p : Page) (n : Nat) : Dbt := ⟨drop p (keyOff p n), keyLen p n⟩

def readDatap (p : Page) (a : Nat) : Datap :=
  ⟨read32 p a, read32 p (a + 4), read32 p (a + 8), read32 p (a + 12)⟩

def writeDatap (p : Page) (a : Nat) (d : Datap) : Page :=
  write32 (write32 (write32 (write32 p a d.first) (a + 4) d.offset) (a + 8) d.len) (a + 12) d.chksum

def datap (p : Page) (n : Nat) : Datap := readDatap p (datapOff p n)

def readHeader (p : Page) (a : Nat) : DataHeader :=
  ⟨read32 p a, read32 p (a + 4), read32 p (a + 8), read32 p (a + 12), read32 p (a + 16)⟩

def writeHeader (p : Page) (a : Nat) (h : DataHeader) : Page :=
  write32 (write32 (write32 (write32 (write32 p a h.len) (a + 4) h.status) (a + 8) h.next)
    (a + 12) h.keyPage) (a + 16) h.keyIdx

end Page

open Page

/-- `PAIRSIZE`: an over-estimate, with the worst padding of the data pointer. -/
def pairsize (ksize : Nat) : Nat := pairOverhead + ksize + datapSize + 4 - 1

/-- `FREESPACE` in 64 bit unsigned arithmetic. -/
def freespace (p : Page) : Nat :=
  ((offset p + 1) % 0x100000000 + 0x10000000000000000 - pageOverhead - numEnt p * pairOverhead)
    % 0x10000000000000000

def pairfits (p : Page) (ksize : Nat) : Bool := decide (pairsize ksize ≤ freespace p)

/-- `MAX_NUM_FREE_PAGES`. -/
def maxNumFreePages (bsize : Nat) : Nat := (bsize - freePageStart) / 4

/-- `FFDB_MAX_KEYSIZE`. -/
def maxKeysize (bsize : Nat) : Nat := bsize - pageOverhead - pairOverhead - datapSize

def pageChecksum (bsize : Nat) (p : Page) : Nat :=
  Checksum.crc32Checksum (Checksum.crc32Checksum 0 (p.bytes chksumPos))
    ((Lib.Mem.drop p chksumOffset).bytes (bsize - chksumOffset))

/-- `_ffdb_init_page`. -/
def initPage (bsize : Nat) (p : Page) (page addrtype : Nat) : Page :=
  let p := setCurrPgno p page
  let p := setNextPgno (setPrevPgno p invalidPgno) invalidPgno
  let p := setPageSign p pageMagic
  let p := setNumEnt p 0
  let p := setType p addrtype
  let p := setChksum p 0
  if addrtype = hashBucketPage ∨ addrtype = hashOvflPage then
    setType (setOffset p (bsize - 1)) hashBucketPage
  else if addrtype = hashDataPage then
    setFirstDataPos (setOffset p bigPageOverhead) bigPageOverhead
  else if addrtype = hashUinfoPage then setUserDataLen p 0
  else if addrtype = hashConfigPage then setOffset p bigPageOverhead
  else if addrtype = hashFreePage then setOffset p 0
  else p

/-- `M_32_SWAP` on a word of the page. -/
def swap32 (p : Page) (a : Nat) : Page := Lib.Mem.copy p a (fun i => p (a + 3 - i)) 4

def swap16 (p : Page) (a : Nat) : Page := Lib.Mem.copy p a (fun i => p (a + 1 - i)) 2

def swap32s (p : Page) (l : List Nat) : Page := l.foldl swap32 p

/-- `M_DATAP_SWAP`, `M_DATA_HEADER_SWAP` and `M_CONFIG_INFO_SWAP`: the words of the record. -/
def datapSwap (p : Page) (a : Nat) : Page := swap32s p [a, a + 4, a + 8, a + 12]

def dataHeaderSwap (p : Page) (a : Nat) : Page := swap32s p [a, a + 4, a + 8, a + 12, a + 16]

def configInfoSwap (p : Page) (a : Nat) : Page := swap32s p [a, a + 4, a + 8, a + 12, a + 16]

def configInfoAt (n : Nat) : Nat := pageOverhead + n * configInfoSize

def swapPageHeader (p : Page) : Page :=
  swap32s (swap16 (swap16 (swap32s p [0, 4, 8, 12]) 16) 18) [20, 24]

def swapPairsIn (p : Page) : List Nat → Page
  | [] => p
  | i :: rest =>
    let a := pageOverhead + i * pairOverhead
    let p := swap32s p [a, a + 4, a + 8]
    swapPairsIn (datapSwap p (datapOff p i)) rest

def swapPairsOut (p : Page) : List Nat → Page
  | [] => p
  | i :: rest =>
    let a := pageOverhead + i * pairOverhead
    swapPairsOut (swap32s (datapSwap p (datapOff p i)) [a, a + 4, a + 8]) rest

def swapHeadersIn (p : Page) (next : Nat) : Nat → Page
  | 0 => p
  | n + 1 =>
    let p := dataHeaderSwap p next
    swapHeadersIn p (readHeader p next).next n

def swapHeadersOut (p : Page) (next : Nat) : Nat → Page
  | 0 => p
  | n + 1 => swapHeadersOut (dataHeaderSwap p next) (readHeader p next).next n

/-- `_ffdb_swap_page_metainfo_in`: the type and the counts are read after their own swap. -/
def swapPageMetainfoIn (p : Page) : Page :=
  let p := swapPageHeader p
  let ty := type p
  let n := numEnt p
  if ty = hashBucketPage then swapPairsIn p (List.range n)
  else if ty = hashDataPage then
    let p := swap32 p 28
    swapHeadersIn p (firstDataPos p) n
  else if ty = hashFreePage then
    swap32s p ((List.range n).map fun i => freePageStart + i * 4)
  else if ty = hashUinfoPage then swap32 p 28
  else if ty = hashConfigPage then (List.range n).foldl (fun q i => configInfoSwap q (configInfoAt i)) p
  else p

/-- `_ffdb_swap_page_metainfo_out`: the type and the counts are read before. -/
def swapPageMetainfoOut (p : Page) : Page :=
  let ty := type p
  let n := numEnt p
  let p := swapPageHeader p
  if ty = hashBucketPage then swapPairsOut p (List.range n)
  else if ty = hashDataPage then
    swapHeadersOut (swap32 p 28) (firstDataPos p) n
  else if ty = hashFreePage then
    swap32s p ((List.range n).map fun i => freePageStart + i * 4)
  else if ty = hashUinfoPage then swap32 p 28
  else if ty = hashConfigPage then (List.range n).foldl (fun q i => configInfoSwap q (configInfoAt i)) p
  else p

def bswap32 (v : Nat) : Nat :=
  v % 256 * 16777216 + v / 256 % 256 * 65536 + v / 65536 % 256 * 256 + v / 16777216 % 256

/-- `ffdb_pgin_routine`; `none` is `exit (123)`. `swapped` says that the byte order
of the file is not the machine's. -/
def pginRoutine (bsize : Nat) (swapped : Bool) (pgno : Nat) (page : Page) : Option Page :=
  let sum := pageChecksum bsize page
  let page := if swapped then swapPageMetainfoIn page else page
  if pageSign page ≠ pageMagic then some (initPage bsize page pgno hashDeletedPage)
  else if sum ≠ chksum page then none
  else some page

/-- `ffdb_pgout_routine`. -/
def pgoutRoutine (bsize : Nat) (swapped : Bool) (_pgno : Nat) (page : Page) : Page :=
  let page := if swapped then swapPageMetainfoOut page else page
  let sum := pageChecksum bsize page
  setChksum page (if swapped then bswap32 sum else sum)

end FileHash
