import FileHash.HeaderCodec

/-! Pages on machines of either byte order: the swap routines and the filters of
`ffdb_page.c` as a machine of order `mborder` runs them on a file of order `lorder`. The
routines find the fields of a page through words they swap on the way; on a page whose
fields lie apart they come to one reversal of all its fields. -/
namespace FileHash

open Lib (ByteOrder)
open Lib.Mem

namespace Machine

def swapPairsIn (mborder : ByteOrder) (p : Page) : List Nat → Page
  | [] => p
  | i :: rest =>
    let a := pageOverhead + i * pairOverhead
    let p := swap32s p [a, a + 4, a + 8]
    swapPairsIn mborder (datapSwap p (word32 mborder p (a + 8))) rest

def swapPairsOut (mborder : ByteOrder) (p : Page) : List Nat → Page
  | [] => p
  | i :: rest =>
    let a := pageOverhead + i * pairOverhead
    swapPairsOut mborder (swap32s (datapSwap p (word32 mborder p (a + 8))) [a, a + 4, a + 8]) rest

def swapHeadersIn (mborder : ByteOrder) (p : Page) (next : Nat) : Nat → Page
  | 0 => p
  | n + 1 =>
    let p := dataHeaderSwap p next
    swapHeadersIn mborder p (word32 mborder p (next + 8)) n

def swapHeadersOut (mborder : ByteOrder) (p : Page) (next : Nat) : Nat → Page
  | 0 => p
  | n + 1 => swapHeadersOut mborder (dataHeaderSwap p next) (word32 mborder p (next + 8)) n

/-- `_ffdb_swap_page_metainfo_in`. -/
def swapPageMetainfoIn (mborder : ByteOrder) (p : Page) : Page :=
  let p := swapPageHeader p
  let ty := word16 mborder p 18
  let n := word16 mborder p 16
  if ty = hashBucketPage then swapPairsIn mborder p (List.range n)
  else if ty = hashDataPage then
    let p := swap32 p 28
    swapHeadersIn mborder p (word32 mborder p 28) n
  else if ty = hashFreePage then swap32s p ((List.range n).map fun i => freePageStart + i * 4)
  else if ty = hashUinfoPage then swap32 p 28
  else if ty = hashConfigPage then
    (List.range n).foldl (fun q i => configInfoSwap q (configInfoAt i)) p
  else p

/-- `_ffdb_swap_page_metainfo_out`. -/
def swapPageMetainfoOut (mborder : ByteOrder) (p : Page) : Page :=
  let ty := word16 mborder p 18
  let n := word16 mborder p 16
  let q := swapPageHeader p
  if ty = hashBucketPage then swapPairsOut mborder q (List.range n)
  else if ty = hashDataPage then swapHeadersOut mborder (swap32 q 28) (word32 mborder p 28) n
  else if ty = hashFreePage then swap32s q ((List.range n).map fun i => freePageStart + i * 4)
  else if ty = hashUinfoPage then swap32 q 28
  else if ty = hashConfigPage then
    (List.range n).foldl (fun q i => configInfoSwap q (configInfoAt i)) q
  else q

/-- `_ffdb_init_page` with the words of the machine. -/
def put16 : ByteOrder → Page → Nat → Nat → Page
  | .little, p, a, v => write16 p a v
  | .big, p, a, v => copy p a (fun i => byteOf v (1 - i)) 2

def initPage (mborder : ByteOrder) (bsize : Nat) (p : Page) (page addrtype : Nat) : Page :=
  let p := put32 mborder p 0 page
  let p := put32 mborder (put32 mborder p 4 invalidPgno) 8 invalidPgno
  let p := put32 mborder p 12 pageMagic
  let p := put16 mborder p 16 0
  let p := put16 mborder p 18 addrtype
  let p := put32 mborder p chksumPos 0
  if addrtype = hashBucketPage ∨ addrtype = hashOvflPage then
    put16 mborder (put32 mborder p 24 (bsize - 1)) 18 hashBucketPage
  else if addrtype = hashDataPage then
    put32 mborder (put32 mborder p 24 bigPageOverhead) 28 bigPageOverhead
  else if addrtype = hashUinfoPage then put32 mborder p 28 0
  else if addrtype = hashConfigPage then put32 mborder p 24 bigPageOverhead
  else if addrtype = hashFreePage then put32 mborder p 24 0
  else p

/-- `ffdb_pgin_routine`. -/
def pginRoutine (bsize : Nat) (lorder mborder : ByteOrder) (pgno : Nat) (page : Page) : Option Page :=
  let sum := pageChecksum bsize page
  let page := if lorder ≠ mborder then swapPageMetainfoIn mborder page else page
  if word32 mborder page 12 ≠ pageMagic then some (initPage mborder bsize page pgno hashDeletedPage)
  else if sum ≠ word32 mborder page chksumPos then none
  else some page

/-- `ffdb_pgout_routine`. -/
def pgoutRoutine (bsize : Nat) (lorder mborder : ByteOrder) (page : Page) : Page :=
  let page := if lorder ≠ mborder then swapPageMetainfoOut mborder page else page
  let sum := pageChecksum bsize page
  put32 mborder page chksumPos (if lorder ≠ mborder then bswap32 sum else sum)

/-! On the little-endian machine these are the routines the page pool runs. -/

theorem swapPairsIn_little (l : List Nat) (p : Page) :
    swapPairsIn .little p l = FileHash.swapPairsIn p l := by
  induction l generalizing p with
  | nil => rfl
  | cons i l ih => exact ih _

theorem swapPairsOut_little (l : List Nat) (p : Page) :
    swapPairsOut .little p l = FileHash.swapPairsOut p l := by
  induction l generalizing p with
  | nil => rfl
  | cons i l ih => exact ih _

theorem swapHeadersIn_little (n : Nat) (p : Page) (next : Nat) :
    swapHeadersIn .little p next n = FileHash.swapHeadersIn p next n := by
  induction n generalizing p next with
  | zero => rfl
  | succ n ih => exact ih _ _

theorem swapHeadersOut_little (n : Nat) (p : Page) (next : Nat) :
    swapHeadersOut .little p next n = FileHash.swapHeadersOut p next n := by
  induction n generalizing p next with
  | zero => rfl
  | succ n ih => exact ih _ _

theorem swapPageMetainfoIn_little (p : Page) :
    swapPageMetainfoIn .little p = FileHash.swapPageMetainfoIn p := by
  simp only [swapPageMetainfoIn, swapPairsIn_little, swapHeadersIn_little]
  rfl

theorem swapPageMetainfoOut_little (p : Page) :
    swapPageMetainfoOut .little p = FileHash.swapPageMetainfoOut p := by
  simp only [swapPageMetainfoOut, swapPairsOut_little, swapHeadersOut_little]
  rfl

theorem pginRoutine_little (bsize : Nat) (lorder : ByteOrder) :
    pginRoutine bsize lorder .little = FileHash.pginRoutine bsize (lorder != .little) := by
  funext pgno page
  cases lorder with
  | little => rfl
  | big =>
    simp only [pginRoutine, swapPageMetainfoIn_little]
    rfl

theorem pgoutRoutine_little (bsize : Nat) (lorder : ByteOrder) :
    (fun _ => pgoutRoutine bsize lorder .little) = FileHash.pgoutRoutine bsize (lorder != .little) := by
  funext pgno page
  cases lorder with
  | little => rfl
  | big =>
    simp only [pgoutRoutine, swapPageMetainfoOut_little]
    rfl

/-! The integer fields of a page. -/

def headerFields : List (Nat × Nat) :=
  [(0, 4), (4, 4), (8, 4), (12, 4), (16, 2), (18, 2), (20, 4), (24, 4)]

/-- `n` consecutive words. -/
def wordFields (a n : Nat) : List (Nat × Nat) := (List.range n).map fun k => (a + 4 * k, 4)

/-- The words of slot `i` of a bucket page and of its data pointer. -/
def pairFields (o : ByteOrder) (p : Page) (i : Nat) : List (Nat × Nat) :=
  let a := pageOverhead + i * pairOverhead
  wordFields a 3 ++ wordFields (word32 o p (a + 8)) 4

/-- Where the headers of a data page lie, from the one at `next` on. -/
def headerChain (o : ByteOrder) (p : Page) (next : Nat) : Nat → List Nat
  | 0 => []
  | n + 1 => next :: headerChain o p (word32 o p (next + 8)) n

def typeFields (o : ByteOrder) (p : Page) : List (Nat × Nat) :=
  let ty := word16 o p 18
  let n := word16 o p 16
  if ty = hashBucketPage then (List.range n).flatMap (pairFields o p)
  else if ty = hashDataPage then
    (28, 4) :: (headerChain o p (word32 o p 28) n).flatMap fun a => wordFields a 5
  else if ty = hashFreePage then wordFields freePageStart n
  else if ty = hashUinfoPage then [(28, 4)]
  else if ty = hashConfigPage then (List.range n).flatMap fun i => wordFields (configInfoAt i) 5
  else []

def pageFields (o : ByteOrder) (p : Page) : List (Nat × Nat) := headerFields ++ typeFields o p

/-- A page with the signature whose fields lie on it and apart from each other. -/
structure WellFormed (o : ByteOrder) (bsize : Nat) (p : Page) : Prop where
  signed : word32 o p 12 = pageMagic
  apart : (pageFields o p).Pairwise Apart
  inside : ∀ r ∈ pageFields o p, r.1 + r.2 ≤ bsize

variable {o : ByteOrder} {p q m : Page} {a n i : Nat} {l done todo : List (Nat × Nat)}

theorem mem_wordFields {r : Nat × Nat} : r ∈ wordFields a n ↔ ∃ k < n, r = (a + 4 * k, 4) := by
  simp only [wordFields, List.mem_map, List.mem_range]
  exact exists_congr fun k => and_congr Iff.rfl eq_comm

theorem mirrors_wordFields (m : Page) (a n : Nat) :
    mirrors m (wordFields a n) = swap32s m ((List.range n).map fun k => a + 4 * k) := by
  rw [wordFields, mirrors, swap32s, List.foldl_map, List.foldl_map]
  rfl

theorem swapPageHeader_eq (m : Page) : swapPageHeader m = mirrors m headerFields := rfl

theorem configInfoSwap_eq (m : Page) (a : Nat) : configInfoSwap m a = mirrors m (wordFields a 5) := rfl

theorem word32_todo (apart : (done ++ todo).Pairwise Apart) (mem : (a, 4) ∈ todo) :
    word32 o (mirrors p done) a = word32 o p a := by
  refine word32_congr fun i low high => mirrors_apart (a := a) (w := 4) (fun s mems => ?_) ⟨low, high⟩
  have := (List.pairwise_append.mp apart).2.2 s mems (a, 4) mem
  simp only [Apart] at this ⊢
  omega

theorem word32_done (todo : List (Nat × Nat)) (apart : (done ++ todo).Pairwise Apart) (mem : (a, 4) ∈ done) :
    word32 o (mirrors p done) a = word32 o.other p a := by
  have := word32_mirrors (o := o.other) (m := p) (List.pairwise_append.mp apart).1 mem
  rwa [ByteOrder.other_other] at this

theorem swapPairsOut_eq (is : List Nat)
    (apart : (done ++ is.flatMap (pairFields o p)).Pairwise Apart) :
    swapPairsOut o (mirrors p done) is = mirrors p (done ++ is.flatMap (pairFields o p)) := by
  induction is generalizing done with
  | nil => rw [List.flatMap_nil, List.append_nil]; rfl
  | cons i is ih =>
    rw [List.flatMap_cons] at apart ⊢
    have here : pageOverhead + i * pairOverhead + 8 = pageOverhead + i * pairOverhead + 4 * 2 := by omega
    have found : word32 o (mirrors p done) (pageOverhead + i * pairOverhead + 8) =
        word32 o p (pageOverhead + i * pairOverhead + 8) := by
      refine word32_todo apart (List.mem_append_left _ (List.mem_append_left _ ?_))
      exact mem_wordFields.mpr ⟨2, by omega, by rw [here]⟩
    have pair : ∀ m : Page, mirrors (mirrors m (wordFields (word32 o p
          (pageOverhead + i * pairOverhead + 8)) 4)) (wordFields (pageOverhead + i * pairOverhead) 3) =
        mirrors m (pairFields o p i) := fun m => by
      have both := (List.pairwise_append.mp (List.pairwise_append.mp apart).2.1).1
      rw [← mirrors_append]
      refine mirrors_congr ?_ both fun r => ?_
      · exact (List.pairwise_append_comm fun h => Apart.symm h).mp both
      · rw [List.mem_append, pairFields, List.mem_append, or_comm]
    have one : swapPairsOut o (mirrors p done) (i :: is) =
        swapPairsOut o (mirrors (mirrors (mirrors p done) (wordFields (word32 o (mirrors p done)
          (pageOverhead + i * pairOverhead + 8)) 4)) (wordFields (pageOverhead + i * pairOverhead) 3)) is := rfl
    rw [one, found, pair, ← mirrors_append, ih (by rwa [List.append_assoc]), List.append_assoc]

theorem swapPairsIn_eq (is : List Nat)
    (apart : (done ++ is.flatMap (pairFields o.other p)).Pairwise Apart) :
    swapPairsIn o (mirrors p done) is = mirrors p (done ++ is.flatMap (pairFields o.other p)) := by
  induction is generalizing done with
  | nil => rw [List.flatMap_nil, List.append_nil]; rfl
  | cons i is ih =>
    rw [List.flatMap_cons] at apart ⊢
    have here : pageOverhead + i * pairOverhead + 8 = pageOverhead + i * pairOverhead + 4 * 2 := by omega
    have found : word32 o (mirrors (mirrors p done) (wordFields (pageOverhead + i * pairOverhead) 3))
        (pageOverhead + i * pairOverhead + 8) =
        word32 o.other p (pageOverhead + i * pairOverhead + 8) := by
      rw [← mirrors_append]
      refine word32_done (wordFields (word32 o.other p (pageOverhead + i * pairOverhead + 8)) 4 ++
        is.flatMap (pairFields o.other p)) ?_ (List.mem_append_right _ ?_)
      · simpa only [pairFields, List.append_assoc] using apart
      · exact mem_wordFields.mpr ⟨2, by omega, by rw [here]⟩
    have one : swapPairsIn o (mirrors p done) (i :: is) =
        swapPairsIn o (mirrors (mirrors (mirrors p done) (wordFields (pageOverhead + i * pairOverhead) 3))
          (wordFields (word32 o (mirrors (mirrors p done) (wordFields (pageOverhead + i * pairOverhead) 3))
            (pageOverhead + i * pairOverhead + 8)) 4)) is := rfl
    have both : mirrors (mirrors (mirrors p done) (wordFields (pageOverhead + i * pairOverhead) 3))
        (wordFields (word32 o.other p (pageOverhead + i * pairOverhead + 8)) 4) =
        mirrors p (done ++ pairFields o.other p i) := by
      rw [← mirrors_append, ← mirrors_append]
      rfl
    rw [one, found, both, ih (by rwa [List.append_assoc]),
      List.append_assoc]

theorem swapHeadersOut_eq (next n : Nat)
    (apart : (done ++ (headerChain o p next n).flatMap fun a => wordFields a 5).Pairwise Apart) :
    swapHeadersOut o (mirrors p done) next n =
      mirrors p (done ++ (headerChain o p next n).flatMap fun a => wordFields a 5) := by
  induction n generalizing done next with
  | zero => rw [headerChain, List.flatMap_nil, List.append_nil]; rfl
  | succ n ih =>
    rw [headerChain, List.flatMap_cons] at apart ⊢
    have found : word32 o (mirrors p done) (next + 8) = word32 o p (next + 8) := by
      refine word32_todo apart (List.mem_append_left _ ?_)
      exact mem_wordFields.mpr ⟨2, by omega, rfl⟩
    have one : swapHeadersOut o (mirrors p done) next (n + 1) =
        swapHeadersOut o (mirrors (mirrors p done) (wordFields next 5))
          (word32 o (mirrors p done) (next + 8)) n := rfl
    rw [one, found, ← mirrors_append, ih _ (by rwa [List.append_assoc]), List.append_assoc]

theorem swapHeadersIn_eq (next n : Nat)
    (apart : (done ++ (headerChain o.other p next n).flatMap fun a => wordFields a 5).Pairwise Apart) :
    swapHeadersIn o (mirrors p done) next n =
      mirrors p (done ++ (headerChain o.other p next n).flatMap fun a => wordFields a 5) := by
  induction n generalizing done next with
  | zero => rw [headerChain, List.flatMap_nil, List.append_nil]; rfl
  | succ n ih =>
    rw [headerChain, List.flatMap_cons] at apart ⊢
    have found : word32 o (mirrors p (done ++ wordFields next 5)) (next + 8) =
        word32 o.other p (next + 8) := by
      refine word32_done _ (by rwa [List.append_assoc]) (List.mem_append_right _ ?_)
      exact mem_wordFields.mpr ⟨2, by omega, rfl⟩
    have one : swapHeadersIn o (mirrors p done) next (n + 1) =
        swapHeadersIn o (mirrors (mirrors p done) (wordFields next 5))
          (word32 o (mirrors (mirrors p done) (wordFields next 5)) (next + 8)) n := rfl
    rw [one, ← mirrors_append, found, ih _ (by rwa [List.append_assoc]), List.append_assoc]

theorem swapFree_eq (m : Page) (n : Nat) :
    swap32s m ((List.range n).map fun i => freePageStart + i * 4) =
      mirrors m (wordFields freePageStart n) := by
  rw [mirrors_wordFields]
  congr 1
  exact List.map_congr_left fun i _ => by rw [Nat.mul_comm]

theorem swapConfigs_eq (is : List Nat) (m : Page) :
    is.foldl (fun q i => configInfoSwap q (configInfoAt i)) m =
      mirrors m (is.flatMap fun i => wordFields (configInfoAt i) 5) := by
  induction is generalizing m with
  | nil => rfl
  | cons i is ih => rw [List.foldl_cons, ih, List.flatMap_cons, mirrors_append, configInfoSwap_eq]

theorem swapFirst_eq (m : Page) :
    swap32 (mirrors m headerFields) 28 = mirrors m (headerFields ++ [(28, 4)]) := by
  rw [mirrors_append]
  rfl

theorem swapPageMetainfoOut_eq (apart : (pageFields o p).Pairwise Apart) :
    swapPageMetainfoOut o p = mirrors p (pageFields o p) := by
  simp only [pageFields, typeFields] at apart ⊢
  simp only [swapPageMetainfoOut, swapPageHeader_eq]
  split_ifs at apart ⊢
  · exact swapPairsOut_eq _ apart
  · rw [swapFirst_eq, swapHeadersOut_eq _ _ (by simpa using apart)]
    simp
  · rw [swapFree_eq, ← mirrors_append]
  · exact swapFirst_eq p
  · rw [swapConfigs_eq, ← mirrors_append]
  · rw [List.append_nil]

theorem word16_header (a : Nat) (mem : (a, 2) ∈ headerFields) :
    word16 o (mirrors p headerFields) a = word16 o.other p a := by
  have := word16_mirrors (o := o.other) (m := p) (l := headerFields) (by decide) mem
  rwa [ByteOrder.other_other] at this

theorem swapPageMetainfoIn_eq (apart : (pageFields o.other p).Pairwise Apart) :
    swapPageMetainfoIn o p = mirrors p (pageFields o.other p) := by
  simp only [pageFields, typeFields] at apart ⊢
  simp only [swapPageMetainfoIn, swapPageHeader_eq, word16_header 18 (by decide),
    word16_header 16 (by decide)]
  split_ifs at apart ⊢
  · exact swapPairsIn_eq _ apart
  · have found : word32 o (mirrors p (headerFields ++ [(28, 4)])) 28 = word32 o.other p 28 :=
      word32_done ((headerChain o.other p (word32 o.other p 28)
        (word16 o.other p 16)).flatMap fun a => wordFields a 5) (by simpa using apart) (by simp)
    rw [swapFirst_eq, found, swapHeadersIn_eq _ _ (by simpa using apart)]
    simp
  · rw [swapFree_eq, ← mirrors_append]
  · exact swapFirst_eq p
  · rw [swapConfigs_eq, ← mirrors_append]
  · rw [List.append_nil]

/-! What a page says, whatever the order of its words. -/

structure Slot where
  keyOff : Nat
  keyLen : Nat
  datapOff : Nat
  datap : Datap

def slot (o : ByteOrder) (p : Page) (i : Nat) : Slot :=
  let a := pageOverhead + i * pairOverhead
  let d := word32 o p (a + 8)
  ⟨word32 o p a, word32 o p (a + 4), d,
    ⟨word32 o p d, word32 o p (d + 4), word32 o p (d + 8), word32 o p (d + 12)⟩⟩

def dataHeader (o : ByteOrder) (p : Page) (a : Nat) : DataHeader :=
  ⟨word32 o p a, word32 o p (a + 4), word32 o p (a + 8), word32 o p (a + 12), word32 o p (a + 16)⟩

/-- The logical contents of a page, its checksum apart. `raw` are the bytes that belong to no
integer field: keys, values, user information and configuration texts. -/
structure Contents where
  currPgno : Nat
  prevPgno : Nat
  nextPgno : Nat
  pageSign : Nat
  numEnt : Nat
  type : Nat
  offset : Nat
  slots : List Slot
  firstDataPos : Option Nat
  headers : List (Nat × DataHeader)
  freePages : List Nat
  userDataLen : Option Nat
  records : List (List Nat)
  raw : Nat → Option UInt8

def ownFields (first : Bool) (o : ByteOrder) (p : Page) : List (Nat × Nat) :=
  if word16 o p 18 = hashUinfoPage ∧ first = false then [] else typeFields o p

/-- `first` says that a page with user information is the first of its kind. -/
def contents (first : Bool) (bsize : Nat) (o : ByteOrder) (p : Page) : Contents :=
  let ty := word16 o p 18
  let n := word16 o p 16
  { currPgno := word32 o p 0
    prevPgno := word32 o p 4
    nextPgno := word32 o p 8
    pageSign := word32 o p 12
    numEnt := n
    type := ty
    offset := word32 o p 24
    slots := if ty = hashBucketPage then (List.range n).map (slot o p) else []
    firstDataPos := if ty = hashDataPage then some (word32 o p 28) else none
    headers := if ty = hashDataPage then
      (headerChain o p (word32 o p 28) n).map fun a => (a, dataHeader o p a) else []
    freePages := if ty = hashFreePage then
      (List.range n).map fun i => word32 o p (freePageStart + 4 * i) else []
    userDataLen := if ty = hashUinfoPage ∧ first = true then some (word32 o p 28) else none
    records := if ty = hashConfigPage then
      (List.range n).map fun i => (List.range 5).map fun k => word32 o p (configInfoAt i + 4 * k)
      else []
    raw := fun i =>
      if i < bsize ∧ ∀ r ∈ headerFields ++ ownFields first o p, ¬Covers r i then some (p i) else none }

variable {o' : ByteOrder} {first : Bool} {bsize : Nat}

theorem headerChain_congr {next : Nat} (words : ∀ r ∈ (headerChain o p next n).flatMap fun a =>
    wordFields a 5, word32 o' q r.1 = word32 o p r.1) :
    headerChain o' q next n = headerChain o p next n := by
  induction n generalizing next with
  | zero => rfl
  | succ n ih =>
    simp only [headerChain, List.flatMap_cons, List.mem_append] at words ⊢
    have link := words (next + 8, 4) (.inl (mem_wordFields.mpr ⟨2, by omega, rfl⟩))
    rw [link, ih fun r mem => words r (.inr mem)]

theorem typeFields_congr (type : word16 o' q 18 = word16 o p 18)
    (numEnt : word16 o' q 16 = word16 o p 16)
    (words : ∀ r ∈ typeFields o p, word32 o' q r.1 = word32 o p r.1) :
    typeFields o' q = typeFields o p := by
  simp only [typeFields, type, numEnt] at words ⊢
  split_ifs at words ⊢
  · refine List.flatMap_congr fun i mem => ?_
    have at_ := words (pageOverhead + i * pairOverhead + 8, 4) (List.mem_flatMap.mpr ⟨i, mem,
      List.mem_append_left _ (mem_wordFields.mpr ⟨2, by omega, rfl⟩)⟩)
    simp only [pairFields, at_]
  · have start := words (28, 4) List.mem_cons_self
    simp only at start
    rw [start, headerChain_congr fun r mem => words r (List.mem_cons_of_mem _ mem)]
  · rfl
  · rfl
  · rfl
  · rfl

theorem slot_congr {i : Nat} (words : ∀ r ∈ pairFields o p i, word32 o' q r.1 = word32 o p r.1) :
    slot o' q i = slot o p i := by
  have field : ∀ k < 3, word32 o' q (pageOverhead + i * pairOverhead + 4 * k) =
      word32 o p (pageOverhead + i * pairOverhead + 4 * k) := fun k hk =>
    words _ (List.mem_append_left _ (mem_wordFields.mpr ⟨k, hk, rfl⟩))
  have pointer : ∀ k < 4, word32 o' q (word32 o p (pageOverhead + i * pairOverhead + 8) + 4 * k) =
      word32 o p (word32 o p (pageOverhead + i * pairOverhead + 8) + 4 * k) := fun k hk =>
    words _ (List.mem_append_right _ (mem_wordFields.mpr ⟨k, hk, rfl⟩))
  have field0 := field 0 (by omega)
  have pointer0 := pointer 0 (by omega)
  rw [Nat.mul_zero, Nat.add_zero] at field0 pointer0
  simp only [slot]
  rw [field0, field 1 (by omega), field 2 (by omega), pointer0, pointer 1 (by omega), pointer 2 (by omega),
    pointer 3 (by omega)]

theorem dataHeader_congr (words : ∀ r ∈ wordFields a 5, word32 o' q r.1 = word32 o p r.1) :
    dataHeader o' q a = dataHeader o p a := by
  have field : ∀ k < 5, word32 o' q (a + 4 * k) = word32 o p (a + 4 * k) := fun k hk =>
    words _ (mem_wordFields.mpr ⟨k, hk, rfl⟩)
  have field0 := field 0 (by omega)
  rw [Nat.mul_zero, Nat.add_zero] at field0
  simp only [dataHeader]
  rw [field0, field 1 (by omega), field 2 (by omega), field 3 (by omega),
    field 4 (by omega)]

theorem contents_congr (halves : ∀ a, (a, 2) ∈ headerFields → word16 o' q a = word16 o p a)
    (header : ∀ a, (a, 4) ∈ headerFields → a ≠ chksumPos → word32 o' q a = word32 o p a)
    (words : ∀ r ∈ typeFields o p, word32 o' q r.1 = word32 o p r.1)
    (raw : ∀ i < bsize, (∀ r ∈ headerFields ++ ownFields first o p, ¬Covers r i) → q i = p i) :
    contents first bsize o' q = contents first bsize o p := by
  have type := halves 18 (by decide)
  have numEnt := halves 16 (by decide)
  have fields := typeFields_congr type numEnt words
  have own : ownFields first o' q = ownFields first o p := by simp only [ownFields, type, fields]
  have bytes : (contents first bsize o' q).raw = (contents first bsize o p).raw := by
    funext i
    simp only [contents, own]
    split
    · rename_i free
      rw [raw i free.1 free.2]
    · rfl
  simp only [contents, type, numEnt, Contents.mk.injEq] at bytes ⊢
  simp only [typeFields] at words
  refine ⟨header 0 (by decide) (by decide), header 4 (by decide) (by decide),
    header 8 (by decide) (by decide), header 12 (by decide) (by decide), trivial, trivial,
    header 24 (by decide) (by decide), ?_, ?_, ?_, ?_, ?_, ?_, bytes⟩
  · split
    · rename_i ty
      simp only [if_pos ty] at words
      refine List.map_congr_left fun i mem => slot_congr fun r memr => ?_
      exact words r (List.mem_flatMap.mpr ⟨i, mem, memr⟩)
    · rfl
  · split
    · rename_i ty
      simp only [ty, show hashDataPage ≠ hashBucketPage by decide, if_false, if_true] at words
      rw [words (28, 4) List.mem_cons_self]
    · rfl
  · split
    · rename_i ty
      simp only [ty, show hashDataPage ≠ hashBucketPage by decide, if_false, if_true] at words
      have start := words (28, 4) List.mem_cons_self
      simp only at start
      rw [start, headerChain_congr fun r mem => words r (List.mem_cons_of_mem _ mem)]
      refine List.map_congr_left fun a mem => ?_
      rw [dataHeader_congr fun r memr =>
        words r (List.mem_cons_of_mem _ (List.mem_flatMap.mpr ⟨a, mem, memr⟩))]
    · rfl
  · split
    · rename_i ty
      simp only [ty, show hashFreePage ≠ hashBucketPage by decide,
        show hashFreePage ≠ hashDataPage by decide, if_false, if_true] at words
      refine List.map_congr_left fun i mem => ?_
      exact words _ (mem_wordFields.mpr ⟨i, List.mem_range.mp mem, rfl⟩)
    · rfl
  · split
    · rename_i ty
      simp only [ty.1, show hashUinfoPage ≠ hashBucketPage by decide,
        show hashUinfoPage ≠ hashDataPage by decide, show hashUinfoPage ≠ hashFreePage by decide,
        if_false, if_true] at words
      rw [words (28, 4) List.mem_cons_self]
    · rfl
  · split
    · rename_i ty
      simp only [ty, show hashConfigPage ≠ hashBucketPage by decide,
        show hashConfigPage ≠ hashDataPage by decide, show hashConfigPage ≠ hashFreePage by decide,
        show hashConfigPage ≠ hashUinfoPage by decide, if_false, if_true] at words
      refine List.map_congr_left fun i mem => List.map_congr_left fun k memk => ?_
      exact words _ (List.mem_flatMap.mpr ⟨i, mem,
        mem_wordFields.mpr ⟨k, List.mem_range.mp memk, rfl⟩⟩)
    · rfl

/-! From the memory of one machine to that of the other. -/

variable {w lorder : ByteOrder} {page : Page} {pgno : Nat}

theorem ByteOrder.ne_other (o : ByteOrder) : o ≠ o.other := by
  cases o <;> exact fun e => ByteOrder.noConfusion e

theorem apart_header (apart : (pageFields o p).Pairwise Apart) {r s : Nat × Nat}
    (memr : r ∈ typeFields o p) (mems : s ∈ headerFields) : Apart r s :=
  Apart.symm ((List.pairwise_append.mp apart).2.2 s mems r memr)

theorem word32_agree (apart : Apart (a, 4) (chksumPos, 4)) (same : Agree p q) :
    word32 o p a = word32 o q a := by
  refine word32_congr fun i low high => same i ?_
  simp only [Apart, chksumPos, chksumOffset] at apart ⊢
  omega

theorem agree_put32 (o : ByteOrder) (p : Page) (v : Nat) : Agree (put32 o p chksumPos v) p := by
  intro i hi
  simp only [chksumPos, chksumOffset] at hi
  exact put32_outside (by simp only [chksumPos]; omega)

theorem typeFields_width {r : Nat × Nat} (mem : r ∈ typeFields o p) : r = (r.1, 4) := by
  have word : ∀ {a n : Nat}, r ∈ wordFields a n → r = (r.1, 4) := fun mem => by
    obtain ⟨k, _, rfl⟩ := mem_wordFields.mp mem
    rfl
  simp only [typeFields] at mem
  split_ifs at mem
  · obtain ⟨i, _, mem⟩ := List.mem_flatMap.mp mem
    rcases List.mem_append.mp mem with mem | mem
    · exact word mem
    · exact word mem
  · rcases List.mem_cons.mp mem with rfl | mem
    · rfl
    · obtain ⟨a, _, mem⟩ := List.mem_flatMap.mp mem
      exact word mem
  · exact word mem
  · rw [List.mem_singleton.mp mem]
  · obtain ⟨i, _, mem⟩ := List.mem_flatMap.mp mem
    exact word mem
  · cases mem

theorem pageFields_agree (apart : (pageFields o p).Pairwise Apart) (same : Agree q p) :
    pageFields o q = pageFields o p := by
  have half : ∀ a, a + 2 ≤ 20 → word16 o q a = word16 o p a := fun a ha =>
    word16_congr fun i _ _ => same i (.inl (by simp only [chksumPos]; omega))
  rw [pageFields, pageFields, typeFields_congr (half 18 (by omega)) (half 16 (by omega))]
  intro r mem
  have := apart_header apart mem (s := (chksumPos, 4)) (by decide)
  rw [typeFields_width mem] at this
  exact word32_agree this same

theorem pageFields_mirrors (apart : (pageFields o p).Pairwise Apart) :
    pageFields o.other (mirrors p (pageFields o p)) = pageFields o p := by
  have half : ∀ a, (a, 2) ∈ headerFields →
      word16 o.other (mirrors p (pageFields o p)) a = word16 o p a := fun a mem =>
    word16_mirrors apart (List.mem_append_left _ mem)
  rw [pageFields, typeFields_congr (half 18 (by decide)) (half 16 (by decide)), ← pageFields]
  intro r mem
  have whole := typeFields_width mem
  rw [whole] at mem
  exact word32_mirrors apart (List.mem_append_right _ mem)

theorem mirrors_agree (apart : (pageFields o p).Pairwise Apart) {x y : Page} (same : Agree x y) :
    Agree (mirrors x (pageFields o p)) (mirrors y (pageFields o p)) := by
  intro i hi
  by_cases covered : ∃ r ∈ pageFields o p, Covers r i
  · obtain ⟨r, mem, cover⟩ := covered
    rw [mirrors_inside apart mem cover, mirrors_inside apart mem cover]
    apply same
    have sum : ((chksumPos, 4) : Nat × Nat) ∈ pageFields o p := List.mem_append_left _ (by decide)
    have other : r ≠ (chksumPos, 4) := fun e => by
      rw [e] at cover
      simp only [Covers, chksumPos, chksumOffset] at cover hi
      omega
    have := apart.forall mem sum other
    simp only [Apart, Covers, chksumPos, chksumOffset] at this cover ⊢
    omega
  · have out : ∀ r ∈ pageFields o p, ¬Covers r i := fun r mem cover => covered ⟨r, mem, cover⟩
    rw [mirrors_outside out, mirrors_outside out]
    exact same i hi

theorem pgin_pgout (wf : WellFormed w bsize page) (lorder : ByteOrder) (pgno : Nat) : ∃ q,
    pginRoutine bsize lorder w.other pgno (pgoutRoutine bsize lorder w page) = some q ∧
      Agree q (mirrors page (pageFields w page)) := by
  have sign : ∀ m : Page, Agree m (mirrors page (pageFields w page)) →
      word32 w.other m 12 = pageMagic := fun m same => by
    rw [word32_agree (by decide) same]
    exact (word32_mirrors wf.apart (List.mem_append_left _ (by decide))).trans wf.signed
  have whole : ∀ m : Page, pageChecksum bsize m % 4294967296 = pageChecksum bsize m := fun m =>
    Nat.mod_eq_of_lt (pageChecksum_lt bsize m)
  by_cases own : lorder = w
  · have image : pgoutRoutine bsize lorder w page = put32 w page chksumPos (pageChecksum bsize page) := by
      simp only [pgoutRoutine, own, ne_eq, not_true, if_false]
    have same := agree_put32 w page (pageChecksum bsize page)
    have fields := pageFields_agree wf.apart same
    have read : swapPageMetainfoIn w.other (put32 w page chksumPos (pageChecksum bsize page)) =
        mirrors (put32 w page chksumPos (pageChecksum bsize page)) (pageFields w page) := by
      rw [swapPageMetainfoIn_eq (by rw [ByteOrder.other_other, fields]; exact wf.apart),
        ByteOrder.other_other, fields]
    have agree := mirrors_agree wf.apart same
    have sum : word32 w.other (mirrors (put32 w page chksumPos (pageChecksum bsize page))
        (pageFields w page)) chksumPos = pageChecksum bsize page := by
      rw [word32_mirrors wf.apart (List.mem_append_left _ (by decide)), word32_put32_same, whole]
    refine ⟨_, ?_, agree⟩
    have foreign : lorder ≠ w.other := own ▸ ByteOrder.ne_other w
    simp only [pginRoutine, image, if_pos foreign, read, sign _ agree, sum, pageChecksum_congr same,
      ne_eq, not_true, if_false]
  · have native : lorder = w.other := by
      revert own
      cases lorder <;> cases w <;> decide
    have image : pgoutRoutine bsize lorder w page = put32 w.other (mirrors page (pageFields w page))
        chksumPos (pageChecksum bsize (mirrors page (pageFields w page))) := by
      simp only [pgoutRoutine, ne_eq, own, not_false_eq_true, if_true, swapPageMetainfoOut_eq wf.apart,
        put32_bswap32]
    have agree := agree_put32 w.other (mirrors page (pageFields w page))
      (pageChecksum bsize (mirrors page (pageFields w page)))
    rw [native] at image ⊢
    refine ⟨_, ?_, agree⟩
    simp only [pginRoutine, image, ne_eq, not_true, if_false, sign _ agree,
      pageChecksum_congr agree, word32_put32_same, whole]

theorem contents_mirrors (wf : WellFormed w bsize page) (same : Agree q (mirrors page (pageFields w page))) :
    contents first bsize w.other q = contents first bsize w page ↔
      (word16 w page 18 = hashUinfoPage → first = false → page 28 = page 31 ∧ page 29 = page 30) := by
  have at_ : ∀ i, (∀ r ∈ headerFields, ¬Covers r i) → q i = mirrors page (pageFields w page) i :=
    fun i free => same i (by
      have := free (chksumPos, 4) (by decide)
      simp only [Covers, chksumPos, chksumOffset] at this ⊢
      omega)
  have uinfo : word16 w page 18 = hashUinfoPage → typeFields w page = [(28, 4)] := fun ty => by
    simp only [typeFields, ty, show hashUinfoPage ≠ hashBucketPage by decide,
      show hashUinfoPage ≠ hashDataPage by decide, show hashUinfoPage ≠ hashFreePage by decide,
      if_false, if_true]
  have reversed : word16 w page 18 = hashUinfoPage → ∀ i, 28 ≤ i → i < 32 →
      mirrors page (pageFields w page) i = page (59 - i) := fun ty i low high => by
    have mem : ((28, 4) : Nat × Nat) ∈ pageFields w page :=
      List.mem_append_right _ (by rw [uinfo ty]; exact List.mem_singleton.mpr rfl)
    rw [mirrors_inside wf.apart mem (by simp only [Covers]; omega)]
    congr 1
    simp only
    omega
  constructor
  · intro equal ty later
    have own : ownFields first w page = [] := by simp only [ownFields, ty, later, and_self, if_true]
    have ty' : word16 w.other q 18 = hashUinfoPage := (congrArg Contents.type equal).trans ty
    have own' : ownFields first w.other q = [] := by
      simp only [ownFields, ty', later, and_self, if_true]
    have room := wf.inside (28, 4) (List.mem_append_right _ (by rw [uinfo ty]; exact List.mem_singleton.mpr rfl))
    have raw : ∀ i, 28 ≤ i → i < 32 → page (59 - i) = page i := fun i low high => by
      have free : ∀ r ∈ headerFields, ¬Covers r i := by
        intro r mem
        simp only [headerFields, List.mem_cons, List.not_mem_nil, or_false] at mem
        simp only [Covers]
        rcases mem with rfl | rfl | rfl | rfl | rfl | rfl | rfl | rfl <;> simp only <;> omega
      have bytes := congrFun (congrArg Contents.raw equal) i
      simp only [contents, own, own', List.append_nil] at bytes
      rw [if_pos ⟨by omega, free⟩, if_pos ⟨by omega, free⟩, at_ i free, reversed ty i low high] at bytes
      exact Option.some.inj bytes
    exact ⟨raw 31 (by omega) (by omega), raw 30 (by omega) (by omega)⟩
  · intro spared
    refine contents_congr (fun a mem => ?_) (fun a mem ne => ?_) (fun r mem => ?_) fun i hi free => ?_
    · rw [word16_congr fun i low high => same i ?_]
      · exact word16_mirrors wf.apart (List.mem_append_left _ mem)
      · simp only [headerFields, List.mem_cons, Prod.mk.injEq, List.not_mem_nil, or_false] at mem
        simp only [chksumPos]
        omega
    · rw [word32_agree ?_ same]
      · exact word32_mirrors wf.apart (List.mem_append_left _ mem)
      · simp only [headerFields, List.mem_cons, Prod.mk.injEq, List.not_mem_nil, or_false] at mem
        simp only [Apart, chksumPos] at ne ⊢
        omega
    · have apart := apart_header wf.apart mem (s := (chksumPos, 4)) (by decide)
      have width := typeFields_width mem
      rw [width] at apart mem
      rw [word32_agree apart same]
      exact word32_mirrors wf.apart (List.mem_append_right _ mem)
    · have freeHeader : ∀ r ∈ headerFields, ¬Covers r i := fun r mem =>
        free r (List.mem_append_left _ mem)
      rw [at_ i freeHeader]
      by_cases later : word16 w page 18 = hashUinfoPage ∧ first = false
      · by_cases length : 28 ≤ i ∧ i < 32
        · obtain ⟨outer, inner⟩ := spared later.1 later.2
          rw [reversed later.1 i length.1 length.2]
          obtain rfl | rfl | rfl | rfl : i = 28 ∨ i = 29 ∨ i = 30 ∨ i = 31 := by omega
          · exact outer.symm
          · exact inner.symm
          · exact inner
          · exact outer
        · refine mirrors_outside fun r mem => ?_
          rcases List.mem_append.mp mem with mem | mem
          · exact freeHeader r mem
          · rw [uinfo later.1, List.mem_singleton] at mem
            rw [mem]
            simp only [Covers]
            omega
      · simp only [ownFields, if_neg later] at free
        exact mirrors_outside free

/-- What a machine writes, the machine of the other byte order reads with the same contents,
and swapping in after swapping out gives back the page. On the later pages of the user
information four user bytes are swapped as though they were a length, so that they survive
only if they read the same backwards. -/
theorem foreign_page_reads (writer lorder : ByteOrder) (first : Bool) (bsize pgno : Nat)
    (page : Page) (wf : WellFormed writer bsize page) :
    ((∃ q, pginRoutine bsize lorder writer.other pgno (pgoutRoutine bsize lorder writer page) = some q ∧
        contents first bsize writer.other q = contents first bsize writer page) ∧
      swapPageMetainfoIn writer (swapPageMetainfoOut writer page) = page) ↔
    (word16 writer page 18 = hashUinfoPage → first = false → page 28 = page 31 ∧ page 29 = page 30) := by
  obtain ⟨q, run, same⟩ := pgin_pgout wf lorder pgno
  have back : swapPageMetainfoIn writer (swapPageMetainfoOut writer page) = page := by
    have there := pageFields_mirrors wf.apart
    have again : pageFields writer.other (mirrors page (pageFields writer page)) =
        pageFields writer page := there
    rw [swapPageMetainfoOut_eq wf.apart, swapPageMetainfoIn_eq (by rw [again]; exact wf.apart), again,
      mirrors_mirrors wf.apart]
  rw [← contents_mirrors wf same]
  constructor
  · rintro ⟨⟨q', run', equal⟩, _⟩
    rw [run] at run'
    cases run'
    exact equal
  · exact fun equal => ⟨⟨q, run, equal⟩, back⟩

def slotsPage : Page :=
  let p : Page := ((FileHash.initPage 512 (fun _ => 0) 7 hashBucketPage).setNumEnt 2).setOffset 471
  let p : Page := copy ((p.setKeyOff 0 509).setKeyLen 0 3) 509 (fun i => [97, 98, 99].getD i 0) 3
  let p : Page := (p.setDatapOff 0 492).writeDatap 492 ⟨9, 32, 5, 0xdeadbeef⟩
  let p : Page := copy ((p.setKeyOff 1 490).setKeyLen 1 2) 490 (fun i => [100, 101].getD i 0) 2
  (p.setDatapOff 1 472).writeDatap 472 ⟨9, 60, 300, 0x12345678⟩

def twoDataPage : Page :=
  let p : Page := ((FileHash.initPage 512 (fun _ => 0) 9 hashDataPage).setNumEnt 2).setOffset 380
  let p : Page := copy (p.writeHeader 32 ⟨5, 1, 60, 7, 0⟩) 52 (fun i => [1, 2, 3, 4, 5].getD i 0) 5
  copy (p.writeHeader 60 ⟨300, 1, 0, 7, 1⟩) 80 (fun i => UInt8.ofNat i) 300

theorem wellFormed_slotsPage : WellFormed .little 512 slotsPage := by
  refine ⟨by decide +kernel, ?_, ?_⟩ <;> decide +kernel

theorem wellFormed_twoDataPage : WellFormed .little 512 twoDataPage := by
  refine ⟨by decide +kernel, ?_, ?_⟩ <;> decide +kernel

theorem foreign_page_reads_two :
    (∃ q, pginRoutine 512 .little .big 7 (pgoutRoutine 512 .little .little slotsPage) = some q ∧
      contents true 512 .big q = contents true 512 .little slotsPage) ∧
    ∃ q, pginRoutine 512 .little .big 9 (pgoutRoutine 512 .little .little twoDataPage) = some q ∧
      contents true 512 .big q = contents true 512 .little twoDataPage :=
  ⟨((foreign_page_reads .little .little true 512 7 _ wellFormed_slotsPage).mpr
      fun ty => absurd ty (by decide +kernel)).1,
    ((foreign_page_reads .little .little true 512 9 _ wellFormed_twoDataPage).mpr
      fun ty => absurd ty (by decide +kernel)).1⟩

def uinfoPage : Page :=
  (FileHash.initPage 512 (fun _ => 0) 2 hashUinfoPage).copy 28 (fun i => UInt8.ofNat (i + 1)) 4

/-- User bytes come out of place on the machine of the other byte order. -/
theorem uinfo_bytes_swapped : ∃ q,
    pginRoutine 512 .little .big 2 (pgoutRoutine 512 .little .little uinfoPage) = some q ∧
      (contents false 512 .little uinfoPage).raw 28 = some 1 ∧ (contents false 512 .big q).raw 28 = some 4 := by
  have wf : WellFormed .little 512 uinfoPage := by
    refine ⟨by decide, ?_, ?_⟩ <;> decide +kernel
  obtain ⟨q, run, same⟩ := pgin_pgout wf .little 2
  refine ⟨q, run, by decide +kernel, ?_⟩
  have byte : q 28 = 4 := (same 28 (by decide)).trans (by decide +kernel)
  have type : word16 .big q 18 = hashUinfoPage := by
    rw [word16_congr fun i low high => same i (.inl (by simp only [chksumPos]; omega))]
    decide +kernel
  have own : ownFields false .big q = [] := by simp only [ownFields, type, and_self, if_true]
  simp only [contents, own, List.append_nil, byte]
  exact if_pos (by decide)

end Machine

/-! A write to the file converts the cached page itself. -/

namespace Pagepool

open Machine

theorem magic_foreign {o : ByteOrder} {m : Page} {a : Nat} (native : word32 o m a = pageMagic) :
    word32 o.other m a ≠ pageMagic := by
  intro foreign
  have both : readBe32 m a = pageMagic ∧ read32 m a = pageMagic := by
    rw [← Hashhdr.word32_big]
    cases o with
    | little => exact ⟨foreign, native⟩
    | big => exact ⟨native, foreign⟩
  obtain ⟨big, little⟩ := both
  rw [readBe32, little] at big
  exact absurd big (by decide)

/-- After a write to a file of the other byte order the page in the cache no longer says what
it said: not even its signature is readable. -/
theorem flush_garbles (mborder : ByteOrder) (first : Bool) (bsize : Nat) (pgp : Pagepool) (id : Nat)
    (filter : pgp.pgout = fun _ => Machine.pgoutRoutine bsize mborder.other mborder)
    (wf : WellFormed mborder bsize (pgp.bkt id).page) :
    contents first bsize mborder ((pgp.write id).bkt id).page ≠
      contents first bsize mborder (pgp.bkt id).page := by
  intro equal
  have sign : word32 mborder ((pgp.write id).bkt id).page 12 = pageMagic :=
    (congrArg Contents.pageSign equal).trans wf.signed
  have out : ((pgp.write id).bkt id).page =
      Machine.pgoutRoutine bsize mborder.other mborder (pgp.bkt id).page := by
    rw [write_bkt_same, filter]
  have foreign : mborder.other ≠ mborder := (ByteOrder.ne_other mborder).symm
  rw [out] at sign
  simp only [Machine.pgoutRoutine, if_pos foreign, swapPageMetainfoOut_eq wf.apart] at sign
  rw [word32_agree (by decide) (agree_put32 _ _ _)] at sign
  have swapped : word32 mborder.other (mirrors (pgp.bkt id).page
      (pageFields mborder (pgp.bkt id).page)) 12 = pageMagic :=
    (word32_mirrors wf.apart (List.mem_append_left _ (by decide))).trans wf.signed
  exact magic_foreign sign swapped

def foreignPool : Pagepool where
  lqh := [0]
  hqh _ := []
  bkt _ := ⟨Machine.twoDataPage, 9, 0, 0, false, true, true, false, 0, []⟩
  brk := 1
  curcache := 1
  maxcache := 8
  npages := 0
  maxpgno := 9
  rdonly := false
  pgin := Machine.pginRoutine 512 .big .little
  pgout _ := Machine.pgoutRoutine 512 .big .little
  file := ⟨0, fun _ _ => 0⟩

theorem flush_garbles_data : contents true 512 .little ((foreignPool.write 0).bkt 0).page ≠
    contents true 512 .little (foreignPool.bkt 0).page :=
  flush_garbles .little true 512 foreignPool 0 rfl wellFormed_twoDataPage

/-- The type of the data page after a sync: what later calls read is the type of no page. -/
theorem flushed_type_unreadable :
    Page.type (foreignPool.bkt 0).page = hashDataPage ∧
      Page.type ((foreignPool.write 0).bkt 0).page = 0x0120 := by
  constructor <;> decide +kernel

end Pagepool
end FileHash
