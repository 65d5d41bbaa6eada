import FileHash.CopiedPieces
import FileHash.FreePages
import FileHash.PageFields

/-! Where a datum lies: its header and its first bytes on one page, the rest on pages of
its own, each linked to the next. A datum owns the bytes it was given when it was added,
also when a shorter value has taken its place. -/
namespace FileHash.Htab

open Page

structure Part where
  page : Nat
  start : Nat
  room : Nat
  deriving DecidableEq, Repr

namespace Part

def covers (part : Part) (p i : Nat) : Prop :=
  p = part.page ∧ part.start ≤ i ∧ i < part.start + part.room

def roomOf (parts : List Part) : Nat := (parts.map Part.room).sum

def Cut (bsize : Nat) : List Part → Prop
  | [] => True
  | [part] => part.start + part.room ≤ bsize
  | part :: next :: rest =>
    part.start + part.room = bsize ∧ next.start = bigPageOverhead ∧ Cut bsize (next :: rest)

/-- Page `c`, as page `p`, has its part of the bytes, and the link to the page of the next part. -/
def Spelled : List Part → List UInt8 → Nat → Page → Prop
  | [], _, _, _ => True
  | part :: rest, bytes, p, c =>
    (p = part.page →
      (Lib.Mem.drop c part.start).bytes (min part.room bytes.length) = bytes.take part.room ∧
        ∀ next ∈ rest.head?, c.nextPgno = next.page) ∧
      Spelled rest (bytes.drop part.room) p c

variable {parts : List Part} {bytes : List UInt8} {p bsize : Nat} {c c' : Page}

theorem Spelled.congr (h : Spelled parts bytes p c)
    (same : ∀ part ∈ parts, ∀ i, part.covers p i → c' i = c i)
    (link : p ∈ (parts.map Part.page).dropLast → c'.nextPgno = c.nextPgno) :
    Spelled parts bytes p c' := by
  induction parts generalizing bytes with
  | nil => trivial
  | cons part rest ih =>
    refine ⟨fun here => ?_, ih h.2 (fun q mem => same q (List.mem_cons_of_mem _ mem)) fun mem => link ?_⟩
    · obtain ⟨read, next⟩ := h.1 here
      constructor
      · rw [← read]
        refine Lib.Mem.bytes_congr fun i low => same part List.mem_cons_self _ ⟨here, ?_, ?_⟩
        · omega
        · omega
      · intro q head
        rw [← next q head]
        refine link ?_
        cases rest with
        | nil => simp at head
        | cons r rest =>
          rw [here]
          exact List.mem_cons_self
    · cases rest with
      | nil => simp at mem
      | cons r rest => exact List.mem_cons_of_mem _ mem

theorem spelled_elsewhere (out : p ∉ parts.map Part.page) : Spelled parts bytes p c := by
  induction parts generalizing bytes with
  | nil => trivial
  | cons part rest ih =>
    rw [List.map_cons, List.mem_cons, not_or] at out
    exact ⟨fun here => absurd here out.1, ih out.2⟩

end Part

/-- The parts on continuation pages, from `rest` bytes on. -/
def tailParts (bsize : Nat) : List Nat → Nat → List Part
  | [], _ => []
  | q :: qs, rest => ⟨q, bigPageOverhead, tailLen bsize rest⟩ :: tailParts bsize qs (rest - tailLen bsize rest)

/-- These are as many continuation pages as `rest` bytes take. -/
def Reaches (bsize : Nat) : List Nat → Nat → Prop
  | [], rest => rest = 0
  | _ :: qs, rest => rest ≠ 0 ∧ Reaches bsize qs (rest - tailLen bsize rest)

variable {bsize rest p : Nat} {pages : List Nat}

@[simp] theorem tailParts_pages : (tailParts bsize pages rest).map Part.page = pages := by
  induction pages generalizing rest with
  | nil => rfl
  | cons q qs ih => simp [tailParts, ih]

theorem tailParts_start {part : Part} (mem : part ∈ tailParts bsize pages rest) :
    part.start = bigPageOverhead := by
  induction pages generalizing rest with
  | nil => cases mem
  | cons q qs ih =>
    rcases List.mem_cons.mp mem with rfl | later
    · rfl
    · exact ih later

theorem tailLen_le (room : bigPageOverhead + bigDataOverhead ≤ bsize) :
    bigPageOverhead + tailLen bsize rest ≤ bsize := by
  unfold tailLen fitsTail
  split
  · rename_i fits
    simp only [decide_eq_true_eq] at fits
    omega
  · omega

theorem tailLen_full (room : bigPageOverhead + bigDataOverhead ≤ bsize)
    (more : rest - tailLen bsize rest ≠ 0) :
    bigPageOverhead + tailLen bsize rest = bsize ∧ bsize - bigPageOverhead < rest := by
  unfold tailLen at *
  split
  · rename_i fits
    rw [if_pos fits, Nat.sub_self] at more
    exact absurd rfl more
  · rename_i fits
    rw [if_neg fits] at more
    omega

theorem tailParts_cut (room : bigPageOverhead + bigDataOverhead ≤ bsize) (reaches : Reaches bsize pages rest) :
    Part.Cut bsize (tailParts bsize pages rest) := by
  induction pages generalizing rest with
  | nil => trivial
  | cons q qs ih =>
    have later := ih reaches.2
    cases qs with
    | nil => exact tailLen_le room
    | cons r rs => exact ⟨(tailLen_full room reaches.2.1).1, rfl, later⟩

theorem tailParts_room (reaches : Reaches bsize pages rest) :
    rest ≤ Part.roomOf (tailParts bsize pages rest) := by
  induction pages generalizing rest with
  | nil => exact reaches.le
  | cons q qs ih =>
    have later := ih reaches.2
    simp only [Part.roomOf, tailParts, List.map_cons, List.sum_cons] at later ⊢
    omega

/-- A datum as it was added, `size` bytes long, and the bytes it has now. -/
structure Datum where
  keyPage : Nat
  keyIdx : Nat
  first : Nat
  roff : Nat
  size : Nat
  pages : List Nat
  bytes : List UInt8

namespace Datum

def headRoom (d : Datum) (bsize : Nat) : Nat := bsize - d.roff - bigDataOverhead

def parts (d : Datum) (bsize : Nat) : List Part :=
  ⟨d.first, d.roff + bigDataOverhead, min d.size (d.headRoom bsize)⟩ ::
    tailParts bsize d.pages (d.size - d.headRoom bsize)

def all (d : Datum) : List Nat := d.first :: d.pages

def owns (d : Datum) (bsize p i : Nat) : Prop :=
  (p = d.first ∧ d.roff ≤ i ∧ i < d.roff + bigDataOverhead) ∨ ∃ part ∈ d.parts bsize, part.covers p i

/-- The datum goes on behind page `p`. -/
def links (d : Datum) (p : Nat) : Prop := p ∈ d.all.dropLast

structure Placed (bsize : Nat) (d : Datum) : Prop where
  low : bigPageOverhead ≤ d.roff
  high : d.roff + bigDataOverhead ≤ bsize
  reaches : Reaches bsize d.pages (d.size - d.headRoom bsize)
  nodup : d.all.Nodup
  fits : d.bytes.length ≤ d.size

def headerLen (version : Nat) (h : DataHeader) : Nat :=
  if ffdbVersion5 < version then realDataLen h.len h.status else h.len

def headerStatus (version : Nat) (h : DataHeader) : Nat :=
  if ffdbVersion5 < version then getPgoffset h.status else h.status

structure Heads (version flag : Nat) (d : Datum) (h : DataHeader) : Prop where
  len : headerLen version h = d.bytes.length
  status : headerStatus version h = flag
  keyPage : h.keyPage = d.keyPage
  keyIdx : h.keyIdx = d.keyIdx

structure Points (version : Nat) (d : Datum) (datap : Datap) : Prop where
  first : datap.first = d.first
  offset : dataOffset version datap = d.roff
  len : dataLen version datap = d.bytes.length
  chksum : Checksum.crc32Checksum 0 d.bytes = datap.chksum

/-- Page `c`, as page `p`, has what it is to have of the datum. -/
structure On (version flag bsize : Nat) (d : Datum) (p : Nat) (c : Page) : Prop where
  signed : Pagepool.Signed c
  head : p = d.first → c.currPgno = p ∧ 1 ≤ c.numEnt ∧ Heads version flag d (c.readHeader d.roff)
  spelled : Part.Spelled (d.parts bsize) d.bytes p c

variable {d : Datum} {version flag bsize p : Nat} {c c' : Page}

@[simp] theorem parts_pages : (d.parts bsize).map Part.page = d.all := by simp [parts, all]

theorem Placed.cut (h : d.Placed bsize) (room : bigPageOverhead + bigDataOverhead ≤ bsize) :
    Part.Cut bsize (d.parts bsize) := by
  have tail := tailParts_cut room h.reaches
  have high := h.high
  have reaches := h.reaches
  unfold parts
  cases pages : d.pages with
  | nil =>
    simp only [tailParts, Part.Cut, headRoom]
    omega
  | cons q qs =>
    rw [pages] at reaches tail
    refine ⟨?_, rfl, tail⟩
    have more := reaches.1
    simp only [headRoom] at more ⊢
    omega

theorem Placed.room (h : d.Placed bsize) : d.bytes.length ≤ Part.roomOf (d.parts bsize) := by
  have tail := tailParts_room h.reaches
  have fits := h.fits
  simp only [Part.roomOf, parts, List.map_cons, List.sum_cons] at tail ⊢
  omega

theorem Placed.owns_high (h : d.Placed bsize) {i : Nat} (owns : d.owns bsize p i) : bigPageOverhead ≤ i := by
  have low := h.low
  rcases owns with ⟨_, start, _⟩ | ⟨part, mem, _, start, _⟩
  · omega
  · rcases List.mem_cons.mp mem with rfl | later
    · simp only at start
      omega
    · rw [← tailParts_start later]
      exact start

theorem owns_page {i : Nat} (owns : d.owns bsize p i) : p ∈ d.all := by
  rcases owns with ⟨rfl, _⟩ | ⟨part, mem, rfl, _⟩
  · exact List.mem_cons_self
  · have pages := List.mem_map_of_mem mem (f := Part.page)
    rwa [parts_pages] at pages

theorem links_page (h : d.links p) : p ∈ d.all := List.dropLast_subset _ h

theorem On.congr (h : d.On version flag bsize p c) (signed : Pagepool.Signed c')
    (head : p = d.first → c'.currPgno = c.currPgno ∧ 1 ≤ c'.numEnt)
    (same : ∀ i, d.owns bsize p i → c' i = c i) (link : d.links p → c'.nextPgno = c.nextPgno) :
    d.On version flag bsize p c' := by
  refine ⟨signed, fun here => ?_, h.spelled.congr (fun part mem i covers => same i (.inr ⟨part, mem, covers⟩)) ?_⟩
  · obtain ⟨number, some, heads⟩ := h.head here
    have header : c'.readHeader d.roff = c.readHeader d.roff :=
      readHeader_congr fun i low high => same i (.inl ⟨here, low, high⟩)
    rw [header]
    exact ⟨(head here).1.trans number, (head here).2, heads⟩
  · rw [parts_pages]
    exact link

theorem On.agree (h : d.On version flag bsize p c) (place : d.Placed bsize) (same : Agree c' c) :
    d.On version flag bsize p c' := by
  refine h.congr (same.pageSign.trans h.signed) (fun here => ⟨same.currPgno, ?_⟩) (fun i owns => ?_)
    fun _ => same.nextPgno
  · rw [same.numEnt]
    exact (h.head here).2.1
  · have high := place.owns_high owns
    exact same i (.inr (by simp only [bigPageOverhead, chksumOffset] at *; omega))

end Datum
structure PageSize (bsize : Nat) : Prop where
  header : hashhdrSize ≤ bsize
  most : bsize ≤ maxBsize
  words : bsize % 4 = 0

theorem PageSize.room {bsize : Nat} (h : PageSize bsize) : bigPageOverhead + bigDataOverhead < bsize := by
  have := h.header
  simp only [hashhdrSize, bigPageOverhead, bigDataOverhead] at *
  omega

section TailPage

variable {bsize n rlen : Nat} {val : Dbt}

theorem alignAddr_tail (page : PageSize bsize) (fits : fitsTail bsize rlen = true) :
    bigPageOverhead + rlen ≤ alignAddr (bigPageOverhead + rlen) ∧
      alignAddr (bigPageOverhead + rlen) + bigDataOverhead ≤ bsize ∧
      alignAddr (bigPageOverhead + rlen) % 4 = 0 := by
  have words := page.words
  have room := page.room
  have small : rlen ≤ bsize - bigPageOverhead - bigDataOverhead := of_decide_eq_true fits
  simp only [alignAddr, bigPageOverhead, bigDataOverhead] at *
  omega

/-- A data page that is the last of its chain. -/
structure Ended (c : Page) : Prop where
  type : c.type = hashDataPage
  last : c.nextPgno = invalidPgno

theorem Ended.agree {c' : Page} (h : Ended c) (same : Agree c' c) : Ended c' :=
  ⟨(Lib.Mem.read16_congr fun i low high => same i (.inl (by simp only [chksumPos]; omega))).trans h.type,
    same.nextPgno.trans h.last⟩

theorem ended_initPage : Ended (FileHash.initPage bsize c n hashDataPage) := by
  refine ⟨?_, nextPgno_initPage⟩
  simp only [FileHash.initPage, type, setFirstDataPos, setOffset, setChksum, setType]
  rw [if_neg (by decide), if_pos trivial]
  simp (disch := omega) only [Lib.Mem.read16_write32]
  exact Lib.Mem.read16_write16_same

theorem Ended.setPrev (h : Ended c) (v : Nat) : Ended (c.setPrevPgno v) :=
  ⟨(Lib.Mem.read16_write32 (by omega)).trans h.type, (Lib.Mem.read32_write32 (by omega)).trans h.last⟩

theorem Ended.tail (h : Ended c) (prevp : Nat) : Ended (tailPage bsize val rlen prevp c) := by
  obtain ⟨type, last⟩ := h.setPrev prevp
  constructor
  · simp only [tailPage, Page.type, setFirstDataPos, setOffset]
    rw [Lib.Mem.read16_copy (by simp only [bigPageOverhead]; omega)]
    simp (disch := omega) only [Lib.Mem.read16_write32]
    exact type
  · simp only [tailPage, nextPgno, setFirstDataPos, setOffset]
    rw [Lib.Mem.read32_copy (by simp only [bigPageOverhead]; omega)]
    simp (disch := omega) only [Lib.Mem.read32_write32]
    exact last

theorem Ended.whole {start : Nat} {header : DataHeader} (h : Ended c) (low : bigPageOverhead ≤ start) :
    Ended (wholeDatum bsize start header val c) := by
  have header : ∀ i, 8 ≤ i → i < 20 → Lib.Mem.copy (c.writeHeader start { header with next := headerNext bsize start val })
      (start + bigDataOverhead) val.data val.size i = c i := fun i _ high => by
    rw [Lib.Mem.copy_outside (by simp only [bigPageOverhead] at low; omega),
      writeHeader_outside (by simp only [bigPageOverhead] at low; omega)]
  constructor
  · refine Eq.trans ?_ h.type
    refine (Lib.Mem.read16_write16 (by omega)).trans ((Lib.Mem.read16_write32 (by omega)).trans ?_)
    exact Lib.Mem.read16_congr fun i low high => header i (by omega) (by omega)
  · refine Eq.trans ?_ h.last
    refine (Lib.Mem.read32_write16 (by omega)).trans ((Lib.Mem.read32_write32 (by omega)).trans ?_)
    exact Lib.Mem.read32_congr fun i low high => header i (by omega) (by omega)

structure Continues (bsize n rlen : Nat) (val : Dbt) (c : Page) : Prop where
  signed : Pagepool.Signed c
  number : c.currPgno = n
  count : c.numEnt = 0
  read : ∀ k, k ≤ tailLen bsize rlen → k ≤ rlen →
    (Lib.Mem.drop c bigPageOverhead).bytes k = (val.bytes.drop (val.size - rlen)).take k
  offset : c.offset = if fitsTail bsize rlen then alignAddr (bigPageOverhead + rlen) else 0
  first : c.firstDataPos = c.offset

theorem continues_tailPage (raw : Page) (prevp : Nat) (page : PageSize bsize) (word : n < 0x100000000)
    (within : rlen ≤ val.size) :
    Continues bsize n rlen val (tailPage bsize val rlen prevp (FileHash.initPage bsize raw n hashDataPage)) := by
  constructor
  · simp only [Pagepool.Signed, tailPage, pageSign, setFirstDataPos, setOffset, setPrevPgno]
    rw [Lib.Mem.read32_copy (by simp only [bigPageOverhead]; omega)]
    simp (disch := omega) only [Lib.Mem.read32_write32]
    exact signed_initPage
  · simp only [tailPage, currPgno, setFirstDataPos, setOffset, setPrevPgno]
    rw [Lib.Mem.read32_copy (by simp only [bigPageOverhead]; omega)]
    simp (disch := omega) only [Lib.Mem.read32_write32]
    exact currPgno_initPage word
  · simp only [tailPage, numEnt, setFirstDataPos, setOffset, setPrevPgno]
    rw [Lib.Mem.read16_copy (by simp only [bigPageOverhead]; omega)]
    simp (disch := omega) only [Lib.Mem.read16_write32]
    exact numEnt_initPage _ _ _ _
  · intro k small less
    unfold tailPage
    rw [Lib.Mem.bytes_drop_copy_le small, Lib.Mem.bytes_drop_eq (n := val.size) (by omega)]
    rfl
  · simp only [tailPage, Page.offset, setFirstDataPos, setOffset, setPrevPgno]
    rw [Lib.Mem.read32_copy (by simp only [bigPageOverhead]; omega), Lib.Mem.read32_write32 (by omega),
      Lib.Mem.read32_write32_same]
    refine Nat.mod_eq_of_lt ?_
    split
    · rename_i fits
      have := alignAddr_tail page fits
      have := page.most
      simp only [maxBsize] at this
      omega
    · decide
  · simp only [tailPage, Page.offset, firstDataPos, setFirstDataPos, setOffset, setPrevPgno]
    rw [Lib.Mem.read32_copy (by simp only [bigPageOverhead]; omega),
      Lib.Mem.read32_copy (by simp only [bigPageOverhead]; omega),
      Lib.Mem.read32_write32_same, Lib.Mem.read32_write32 (by omega), Lib.Mem.read32_write32_same]

theorem Continues.setNext {c : Page} (h : Continues bsize n rlen val c) (next : Nat) :
    Continues bsize n rlen val (c.setNextPgno next) where
  signed := (Lib.Mem.read32_write32 (by omega)).trans h.signed
  number := (Lib.Mem.read32_write32 (by omega)).trans h.number
  count := (Lib.Mem.read16_write32 (by omega)).trans h.count
  read k small less := by
    rw [← h.read k small less]
    exact Lib.Mem.bytes_congr fun i _ => Lib.Mem.write32_outside (by simp only [bigPageOverhead]; omega)
  offset := (Lib.Mem.read32_write32 (by omega)).trans h.offset
  first := (Lib.Mem.read32_write32 (by omega)).trans (h.first.trans (Lib.Mem.read32_write32 (by omega)).symm)

theorem Continues.agree {c d : Page} (h : Continues bsize n rlen val c) (same : Agree d c) :
    Continues bsize n rlen val d where
  signed := same.pageSign.trans h.signed
  number := same.currPgno.trans h.number
  count := same.numEnt.trans h.count
  read k small less := by
    rw [← h.read k small less]
    exact same.drop_bytes (by decide)
  offset := (same.read32 (by omega)).trans h.offset
  first := (same.read32 (by omega)).trans (h.first.trans (same.read32 (by omega)).symm)

end TailPage
end FileHash.Htab
