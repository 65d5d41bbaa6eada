import FileHash.Table

/-! Data pages in `ffdb_page.c`: how page numbers for data and overflow pages are
given out, and how a datum is read, added and replaced. A datum that does not fit
what is left of its first page goes on over a chain of pages of its own. -/
namespace FileHash.Htab

open Lib (Prog)
open Page

/-- `BIG_DATA_TOTAL_SIZE`. -/
def bigDataTotalSize (val : Dbt) : Nat := bigDataOverhead + val.size

def pageFuel : Nat := 0x100000000

/-- `_ffdb_reuse_free_ovflpage`; `0` when there is no free page. -/
def reuseFreeOvflpage : Run Nat := do
  let hashp ← Prog.read
  let clevel := hashp.hdr.ovflPoint
  let fpage := hashp.hdr.freePages clevel
  if fpage = invalidPgno then pure 0
  else
    match (← getPage fpage hashFreePage {}).1 with
    | none => Prog.halt .abort
    | some fpagep =>
      let p ← page fpagep
      if 0 < p.numEnt then
        store fpagep fun p => p.setNumEnt (p.numEnt - 1)
        putPage fpagep true
        pure (p.freePage (p.numEnt - 1))
      else
        putPage fpagep true
        Prog.modify (setFreePages clevel p.nextPgno)
        pure fpage

/-- What `_ffdb_data_page` and `_ffdb_ovfl_page` do first: the current data page of a
level nobody has used yet is the one after its buckets, and the next number follows it. -/
def startLevel (level : Nat) : Run Unit := do
  Prog.modify fun hashp =>
    if hashp.currDpage = invalidPgno then
      { hashp with currDpage := u32 (hashp.hdr.bucketToPage hashp.hdr.highMask + 1) }
    else hashp
  Prog.modify fun hashp =>
    if hashp.hdr.spares level = 0 then setSpares level (u32 (hashp.currDpage + 1)) hashp else hashp

def nextPage (level : Nat) : Run (Nat × Bool) := do
  let num ← reuseFreeOvflpage
  if 0 < num then pure (num, true)
  else
    let hashp ← Prog.read
    let num := hashp.hdr.spares level
    Prog.modify (setSpares level (u32 (num + 1)))
    pure (num, false)

/-- `_ffdb_data_page`. -/
def dataPage (newPage : Bool) : Run (Nat × Bool) := do
  let hashp ← Prog.read
  let level := hashp.hdr.ovflPoint + 1
  startLevel level
  if newPage then
    let r ← nextPage level
    Prog.modify fun hashp => { hashp with currDpage := r.1 }
    pure r
  else
    let hashp ← Prog.read
    pure (hashp.currDpage, false)

/-- `_ffdb_ovfl_page`. -/
def ovflPage : Run (Nat × Bool) := do
  let hashp ← Prog.read
  let level := hashp.hdr.ovflPoint + 1
  startLevel level
  nextPage level

/-- `ffdb_last_data_page`: down from `start` to a data page without successor. -/
def lastDataPage : Nat → Nat → Run Nat
  | 0, _ => Prog.halt .diverge
  | fuel + 1, pgno => do
    match (← getPage pgno hashRawPage {}).1 with
    | none => Prog.halt .abort
    | some pagep =>
      let p ← page pagep
      putPage pagep false
      if p.type = hashDataPage ∧ p.nextPgno = invalidPgno then pure pgno
      else lastDataPage fuel (u32 (pgno + 0xffffffff))

def dataLen (version : Nat) (d : Datap) : Nat :=
  if ffdbVersion5 < version then realDataLen d.len d.offset else d.len

def dataOffset (version : Nat) (d : Datap) : Nat :=
  if ffdbVersion5 < version then getPgoffset d.offset else d.offset

/-- The assertions `_ffdb_get_data` makes about the first page of a datum. -/
def headerMatches (version validFlag : Nat) (p : Page) (d : Datap) (keyPage keyIdx : Nat) : Bool :=
  let header := p.readHeader (dataOffset version d)
  (if ffdbVersion5 < version then
    realDataLen header.len header.status == dataLen version d &&
      getPgoffset header.status == validFlag
  else header.len == d.len && header.status == validFlag) &&
    header.keyPage == keyPage && header.keyIdx == keyIdx

/-- The copy loop of `_ffdb_get_data`. `rlen` bytes are to come, the first of them at
`start` of the page in hand; `none` when a page cannot be had. -/
def copyData (bsize : Nat) : Nat → Nat → Nat → Nat → List UInt8 → Run (Option (List UInt8))
  | 0, _, _, _, _ => Prog.halt .diverge
  | fuel + 1, pagep, start, rlen, sofar => do
    let p ← page pagep
    if bsize < start then Prog.halt .segv
    else
      let copylen := if start + rlen ≤ bsize then rlen else bsize - start
      let sofar := sofar ++ (Lib.Mem.drop p start).bytes copylen
      putPage pagep false
      if rlen - copylen = 0 then pure (some sofar)
      else
        match (← getPage p.nextPgno hashDataPage {}).1 with
        | none => pure none
        | some pagep => copyData bsize fuel pagep bigPageOverhead (rlen - copylen) sofar

/-- `_ffdb_get_data`: status and bytes. `room` is the size of the caller's buffer, or `0`
when the callee is to allocate one. -/
def getData (keyPage keyIdx room : Nat) (datap : Datap) : Run (Int × List UInt8) := do
  let hashp ← Prog.read
  let version := hashp.hdr.version
  match (← getPage datap.first hashDataPage {}).1 with
  | none => pure (-1, [])
  | some pagep =>
    let p ← page pagep
    if datap.first ≠ p.currPgno ∨ p.numEnt < 1 ∨
        headerMatches version hashp.dataValidFlag p datap keyPage keyIdx = false then
      Prog.halt .assertion
    else
      let datalen := dataLen version datap
      if 0 < room ∧ room < datalen then
        leak pagep .shortValue
        pure (-1, [])
      else if datalen = 0 then
        -- the loop that releases the page as it goes makes no turn
        leak pagep .emptyValue
        pure (if Checksum.crc32Checksum 0 [] = datap.chksum then 0 else -1, [])
      else
        match ← copyData hashp.hdr.bsize (datalen + 1) pagep
            (dataOffset version datap + bigDataOverhead) datalen [] with
        | none => pure (-1, [])
        | some bytes =>
          if Checksum.crc32Checksum 0 bytes = datap.chksum then pure (0, bytes) else pure (-1, [])

/-- What a continuation page of a datum takes: `rlen` bytes are to come, and the page
stays open for more data if it has room for a header. -/
def fitsTail (bsize rlen : Nat) : Bool := decide (rlen ≤ bsize - bigPageOverhead - bigDataOverhead)

def tailLen (bsize rlen : Nat) : Nat :=
  if fitsTail bsize rlen then rlen else bsize - bigPageOverhead

/-- One continuation page of `_ffdb_add_data`. -/
def tailPage (bsize : Nat) (val : Dbt) (rlen prevp : Nat) (p : Page) : Page :=
  let p := p.setPrevPgno prevp
  let free := if fitsTail bsize rlen then alignAddr (bigPageOverhead + rlen) else 0
  let p := (p.setOffset free).setFirstDataPos free
  p.copy bigPageOverhead (Lib.Mem.drop val.data (val.size - rlen)) (tailLen bsize rlen)

/-- The loop of `_ffdb_add_data` over continuation pages. -/
def addTail (bsize : Nat) (val : Dbt) : Nat → Nat → Bool → Nat → Nat → Run Int
  | 0, _, _, _, _ => Prog.halt .diverge
  | fuel + 1, currp, reuse, prevp, rlen =>
    if rlen = 0 then pure 0
    else do
      match (← getPage currp hashDataPage { create := true }).1 with
      | none => pure (-1)
      | some currpagep =>
        if reuse then initPage currpagep currp hashDataPage
        store currpagep (tailPage bsize val rlen prevp)
        let rest := rlen - tailLen bsize rlen
        if rest = 0 then
          putPage currpagep true
          pure 0
        else
          let r ← dataPage true
          store currpagep fun p => p.setNextPgno r.1
          putPage currpagep true
          addTail bsize val fuel r.1 r.2 currp rest

/-- The header `_ffdb_add_data` writes in front of a datum, its `next` apart. -/
def dataHeader (version validFlag : Nat) (val : Dbt) (keyPage keyIdx : Nat) : DataHeader where
  len := u32 val.size
  status := if ffdbVersion5 < version ∧ isHugeData val.size then
    insertLenToPgoffset val.size validFlag else validFlag
  next := 0
  keyPage := keyPage
  keyIdx := keyIdx

def headerNext (bsize start : Nat) (val : Dbt) : Nat :=
  let next := alignAddr (start + bigDataTotalSize val)
  if bsize ≤ next + bigDataOverhead then 0 else next

def wholeDatum (bsize start : Nat) (header : DataHeader) (val : Dbt) (p : Page) : Page :=
  let next := headerNext bsize start val
  let p := p.writeHeader start { header with next := next }
  let p : Page := p.copy (start + bigDataOverhead) val.data val.size
  (p.setOffset next).setNumEnt (p.numEnt + 1)

/-- What `_ffdb_add_data` writes to the first page of a datum that does not fit: the
bytes at once, the header when the rest is stored. -/
def headBytes (start fspace : Nat) (val : Dbt) (p : Page) : Page :=
  p.copy (start + bigDataOverhead) val.data (fspace - bigDataOverhead)

def headHeader (start fp : Nat) (header : DataHeader) (p : Page) : Page :=
  let p := ((p.writeHeader start header).setNextPgno fp).setOffset 0
  p.setNumEnt (p.numEnt + 1)

/-- The first part of `_ffdb_add_data`: a page with room for a header, and where the
room begins. `none` when it cannot be had. -/
def openDataPage (mem pnum : Nat) : Run (Option (Nat × Nat × Nat)) := do
  let p ← page mem
  if p.offset = 0 then
    let r ← dataPage true
    match (← getPage r.1 hashDataPage { create := true }).1 with
    | none =>
      putPage mem false
      pure none
    | some cpagep =>
      if r.2 then initPage cpagep r.1 hashDataPage
      store mem fun p => p.setNextPgno r.1
      store cpagep fun p => p.setPrevPgno pnum
      noteSlip mem .fullPage
      putPage mem false
      let c ← page cpagep
      pure (some (cpagep, r.1, c.offset))
  else pure (some (mem, pnum, p.offset))

/-- `_ffdb_add_data`: status, and the pointer with its first page and offset set. -/
def addData (keyPage keyIdx : Nat) (val : Dbt) (mem pnum : Nat) (datap : Datap) :
    Run (Int × Datap) := do
  match ← openDataPage mem pnum with
  | none => pure (-1, datap)
  | some (cpagep, cpage, start) =>
    let hashp ← Prog.read
    let bsize := hashp.hdr.bsize
    let version := hashp.hdr.version
    let fspace := u32 (bsize + 0x100000000 - start)
    let header := dataHeader version hashp.dataValidFlag val keyPage keyIdx
    let datap := { datap with
      first := cpage
      offset := if ffdbVersion5 < version then insertLenToPgoffset val.size start else start }
    if fspace < bigDataOverhead then Prog.halt .assertion
    else if (version = ffdbVersion5 ∨ isHugeData val.size = false) ∧
        bigDataTotalSize val ≤ fspace then
      store cpagep (wholeDatum bsize start header val)
      putPage cpagep true
      pure (0, datap)
    else
      store cpagep (headBytes start fspace val)
      let r ← dataPage true
      let rlen := val.size - (fspace - bigDataOverhead)
      let status ← addTail bsize val (rlen + 1) r.1 r.2 cpage rlen
      if status ≠ 0 then pure (-1, datap)
      else
        store cpagep (headHeader start r.1 header)
        putPage cpagep true
        pure (0, datap)

/-- The loop of `_ffdb_replace_data` over continuation pages. -/
def replaceTail (bsize : Nat) (val : Dbt) : Nat → Nat → Nat → Run Int
  | 0, _, _ => Prog.halt .diverge
  | fuel + 1, currp, rlen =>
    if rlen = 0 then pure 0
    else do
      match (← getPage currp hashDataPage {}).1 with
      | none => pure (-1)
      | some currpagep =>
        store currpagep fun p =>
          p.copy bigPageOverhead (Lib.Mem.drop val.data (val.size - rlen)) (tailLen bsize rlen)
        let p ← page currpagep
        putPage currpagep true
        replaceTail bsize val fuel p.nextPgno (rlen - tailLen bsize rlen)

def replaceHeader (version roffset : Nat) (val : Dbt) (datap : Datap) (p : Page) : Page :=
  let header := p.readHeader roffset
  p.writeHeader roffset { header with
    len := datap.len
    status := if ffdbVersion5 < version then insertLenToPgoffset val.size header.status
      else header.status }

/-- `_ffdb_replace_data`. -/
def replaceData (val : Dbt) (mem : Nat) (datap : Datap) : Run Int := do
  let hashp ← Prog.read
  let bsize := hashp.hdr.bsize
  let version := hashp.hdr.version
  let roffset := dataOffset version datap
  store mem (replaceHeader version roffset val datap)
  let fspace := u32 (bsize + 0x100000000 - roffset)
  if fspace < bigDataOverhead then Prog.halt .assertion
  else if bigDataTotalSize val ≤ fspace then
    store mem fun p => p.copy (roffset + bigDataOverhead) val.data val.size
    putPage mem true
    pure 0
  else
    store mem (headBytes roffset fspace val)
    let rlen := val.size - (fspace - bigDataOverhead)
    let p ← page mem
    let status ← replaceTail bsize val (rlen + 1) p.nextPgno rlen
    if status ≠ 0 then pure (-1)
    else
      putPage mem true
      pure 0

/-- `_ffdb_update_data_info`: the header of a datum is told where its key is. -/
def updateDataInfo (datap : Datap) (kpage kpgindx : Nat) : Run Int := do
  let hashp ← Prog.read
  match (← getPage datap.first hashDataPage {}).1 with
  | none => pure (-1)
  | some dpagep =>
    let roff := dataOffset hashp.hdr.version datap
    store dpagep fun p =>
      p.writeHeader roff { p.readHeader roff with keyPage := kpage, keyIdx := kpgindx }
    putPage dpagep true
    pure 0

end FileHash.Htab
