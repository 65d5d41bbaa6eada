import FileHash.DataPages

/-! Bucket pages and their chains of overflow pages in `ffdb_page.c`: the search for a
key, adding and replacing a pair, the free map that keeps freed overflow pages, and
the split of a bucket. -/
namespace FileHash.Htab

open Lib (Prog)
open Page

inductive ItemStatus where
  | clean
  | ok
  | noMore
  | error
  deriving DecidableEq, Repr

/-- `ffdb_hent_t`, as a search leaves it; `pagep` is the page in hand. -/
structure Hent where
  pagep : Nat
  pgno : Nat
  pgndx : Nat
  status : ItemStatus
  dataChksum : Nat

def findKey (compare : Dbt → Dbt → Int) (key : Dbt) (p : Page) : Option Nat :=
  (List.range p.numEnt).find? fun i => compare key (p.key i) == 0

/-- The walk of `ffdb_find_item` along a chain; `none` when a page cannot be had. -/
def findChain (key : Dbt) (chksum : Nat) : Nat → Nat → Nat → Run (Option Hent)
  | 0, _, _ => Prog.halt .diverge
  | fuel + 1, pagep, pgno => do
    let hashp ← Prog.read
    let p ← page pagep
    match findKey hashp.hCompare key p with
    | some i => pure (some ⟨pagep, pgno, i, .ok, chksum⟩)
    | none =>
      if p.nextPgno = invalidPgno then pure (some ⟨pagep, pgno, p.numEnt, .noMore, chksum⟩)
      else
        putPage pagep false
        match ← getPage p.nextPgno hashOvflPage {} with
        | (none, _) => pure none
        | (some pagep, pgno) => findChain key chksum fuel pagep pgno

def resets (bsize pgno : Nat) (p : Page) : Bool :=
  !sameImage pageOverhead p (FileHash.initPage bsize p pgno hashBucketPage)

/-- `ffdb_find_item`. `val` is there when the caller is about to store it. -/
def findItem (bucket : Nat) (key : Dbt) (val : Option Dbt) : Run (Option Hent) := do
  match ← getPage bucket hashBucketPage { create := true } with
  | (none, _) => pure none
  | (some pagep, pgno) =>
    let hashp ← Prog.read
    let p ← page pagep
    let chksum := match val with
      | some val => Checksum.crc32Checksum 0 val.bytes
      | none => 0
    if p.numEnt = 0 then
      if p.nextPgno ≠ invalidPgno then Prog.mark .unchained
      initPage pagep pgno hashBucketPage
      if val.isNone ∧ resets hashp.hdr.bsize pgno p then noteSlip pagep .emptied
      pure (some ⟨pagep, pgno, 0, .noMore, chksum⟩)
    else findChain key chksum pageFuel pagep p.currPgno

/-- `ffdb_get_item`. -/
def getItem (pagep pgno pgndx room : Nat) (freepage : Bool) : Run (Int × List UInt8) := do
  let p ← page pagep
  let r ← getData pgno pgndx room (p.datap pgndx)
  if r.1 ≠ 0 then
    if freepage then leak pagep .failedGet
    pure r
  else
    if freepage then putPage pagep false
    pure r

def slotKeyOff (p : Page) (key : Dbt) : Nat := u32 (p.offset + 0x100000000 - u32 key.size + 1)

def slotOff (p : Page) (key : Dbt) : Nat :=
  alignDatapOffsetVal (u32 (slotKeyOff p key + 0x100000000 - datapSize))

def putKey (key : Dbt) (p : Page) : Page :=
  let n := p.numEnt
  let off := slotKeyOff p key
  let soff := u32 (off + 0x100000000 - datapSize)
  let aligned := alignDatapOffsetVal soff
  let p : Page := p.copy off key.data (u32 key.size)
  let p := (p.setKeyOff n off).setKeyLen n (u32 key.size)
  p.fill (aligned + datapSize) (soff - aligned) 0

/-- The pointer of slot `n`, and the page told that it has one slot more. -/
def putDatap (n off : Nat) (datap : Datap) (p : Page) : Page :=
  let p := (p.writeDatap off datap).setDatapOff n off
  (p.setNumEnt (n + 1)).setOffset (u32 (off + 0xffffffff))

/-- `_ffdb_add_item_on_page`. -/
def addItemOnPage (pagep pgno : Nat) (key val : Dbt) (chksum : Nat) : Run Int := do
  let p ← page pagep
  let n := p.numEnt
  let off := slotOff p key
  store pagep (putKey key)
  let fpage ← dataPage false
  match ← getPage fpage.1 hashDataPage { create := true } with
  | (none, _) => pure (-1)
  | (some memp, dpage) =>
    let r ← addData pgno n val memp dpage ⟨fpage.1, 0, u32 val.size, chksum⟩
    if r.1 ≠ 0 then pure (-1)
    else
      store pagep (putDatap n off r.2)
      pure 0

/-- `_ffdb_replace_item_on_page`. -/
def replaceItemOnPage (pagep pgndx : Nat) (val : Dbt) (chksum : Nat) : Run Int := do
  let hashp ← Prog.read
  let p ← page pagep
  let version := hashp.hdr.version
  let datap := p.datap pgndx
  if dataLen version datap < val.size then pure (-1)
  else
    match (← getPage datap.first hashDataPage {}).1 with
    | none => pure (-1)
    | some memp =>
      let huge := decide (ffdbVersion5 < version) && isHugeData val.size
      let new := { datap with
        offset := if huge then insertLenToPgoffset val.size datap.offset else datap.offset
        len := u32 val.size
        chksum := chksum }
      if ffdbVersion5 < version ∧ isHugeData val.size = false ∧
          getLenFromPgoffset datap.offset ≠ 0 then Prog.mark .hugeShrunk
      store pagep fun p => p.writeDatap (p.datapOff pgndx) new
      let status ← replaceData val memp new
      if status ≠ 0 then pure (-1) else pure 0

/-- `ffdb_add_pair`. -/
def addPair (key val : Dbt) (item : Hent) (replace : Bool) : Run Int := do
  let status ← if replace then replaceItemOnPage item.pagep item.pgndx val item.dataChksum
    else addItemOnPage item.pagep item.pgno key val item.dataChksum
  putPage item.pagep (status == 0)
  pure status

def chainPage (prevp : Nat) (pagep : Nat) : Run (Option Nat × Nat) := do
  let r ← ovflPage
  match (← getPage r.1 hashOvflPage { create := true }).1 with
  | none => pure (none, r.1)
  | some opagep =>
    if r.2 then initPage opagep r.1 hashOvflPage
    store pagep fun p => p.setNextPgno r.1
    store opagep fun p => p.setPrevPgno prevp
    pure (some opagep, r.1)

/-- `ffdb_add_ovflpage`. -/
def addOvflpage (key val : Dbt) (item : Hent) : Run Int := do
  match ← chainPage item.pgno item.pagep with
  | (none, _) =>
    putPage item.pagep false
    pure (-1)
  | (some opagep, ovflpage) =>
    let status ← addItemOnPage opagep ovflpage key val item.dataChksum
    putPage opagep (status == 0)
    putPage item.pagep (status == 0)
    pure 0

/-- `_ffdb_write_key_datap_to_page`. -/
def writeKeyDatapToPage (key : Dbt) (datap : Datap) (pagep pgno : Nat) : Run Int := do
  let p ← page pagep
  let n := p.numEnt
  let off := slotOff p key
  store pagep (putKey key)
  store pagep fun p => (p.writeDatap off datap).setDatapOff n off
  let status ← updateDataInfo datap pgno n
  store pagep fun p => (p.setNumEnt (n + 1)).setOffset (u32 (off + 0xffffffff))
  pure status

/-- What the walk of `_ffdb_add_key_datap_to_bucket` along a chain comes to. -/
inductive Room where
  | added
  | full (pagep pgno : Nat)
  | error
  deriving DecidableEq, Repr

/-- The loop of `_ffdb_add_key_datap_to_bucket`. -/
def addToChain (key : Dbt) (datap : Datap) : Nat → Nat → Nat → Run Room
  | 0, _, _ => Prog.halt .diverge
  | fuel + 1, pagep, pgno => do
    let p ← page pagep
    if pairfits p key.size then
      let _ ← writeKeyDatapToPage key datap pagep pgno
      putPage pagep true
      pure .added
    else if p.nextPgno = invalidPgno then pure (.full pagep pgno)
    else
      match (← getPage p.nextPgno hashOvflPage {}).1 with
      | none =>
        putPage pagep false
        pure .error
      | some npagep =>
        putPage pagep false
        addToChain key datap fuel npagep p.nextPgno

/-- `_ffdb_add_key_datap_to_bucket`. -/
def addKeyDatapToBucket (key : Dbt) (datap : Datap) (bucket : Nat) : Run Int := do
  match ← getPage bucket hashBucketPage { create := true } with
  | (none, _) => pure (-1)
  | (some pagep, pgno) =>
    match ← addToChain key datap pageFuel pagep pgno with
    | .added => pure 0
    | .error => pure (-1)
    | .full pagep pgno =>
      match ← chainPage pgno pagep with
      | (none, _) =>
        putPage pagep false
        pure (-1)
      | (some opagep, ovflpage) =>
        putPage pagep true
        let _ ← writeKeyDatapToPage key datap opagep ovflpage
        putPage opagep true
        pure 0

/-- `_ffdb_update_free_page`. -/
def updateFreePage (opage : Nat) (p : Page) : Page :=
  (p.setFreePage p.numEnt opage).setNumEnt (p.numEnt + 1)

def freeLevel (hdr : Hashhdr) (opage : Nat) : Nat :=
  ((List.range (hdr.ovflPoint + 1)).find? fun l => decide (opage < hdr.spares l)).getD
    (hdr.ovflPoint + 1)

/-- The walk of `_ffdb_free_ovflpage` along the free map; what is left is the last map
page, when it has no room. -/
def mapChain (bsize opage : Nat) : Nat → Nat → Nat → Run (Option (Nat × Nat))
  | 0, _, _ => Prog.halt .diverge
  | fuel + 1, fpagep, fpage => do
    let p ← page fpagep
    if p.numEnt < maxNumFreePages bsize - 1 then
      store fpagep (updateFreePage opage)
      putPage fpagep true
      pure none
    else if p.nextPgno = invalidPgno then pure (some (fpagep, fpage))
    else
      match (← getPage p.nextPgno hashFreePage {}).1 with
      | none =>
        putPage fpagep false
        pure none
      | some fnext =>
        putPage fpagep false
        mapChain bsize opage fuel fnext p.nextPgno

/-- `_ffdb_free_ovflpage`; `true` when the page is to be deleted. -/
def freeOvflpage (memp : Nat) : Run Bool := do
  let hashp ← Prog.read
  let p ← page memp
  let opage := p.currPgno
  if freeLevel hashp.hdr opage = 0 then Prog.halt .segv
  else
    let level := freeLevel hashp.hdr opage - 1
    let fpage := hashp.hdr.freePages level
    if fpage = invalidPgno then
      Prog.modify (setFreePages level opage)
      initPage memp opage hashFreePage
      pure false
    else
      match (← getPage fpage hashFreePage { create := true }).1 with
      | none => Prog.halt .abort
      | some fpagep =>
        match ← mapChain hashp.hdr.bsize opage pageFuel fpagep fpage with
        | none => pure true
        | some (fpagep, fpage) =>
          initPage memp opage hashFreePage
          store fpagep fun p => p.setNextPgno opage
          store memp fun p => p.setPrevPgno fpage
          noteSlip fpagep .freeMap
          putPage fpagep false
          pure false

/-- `ffdb_delete_page` on an overflow page. -/
def deleteOvflPage (pagep : Nat) : Run Unit := do
  if ← freeOvflpage pagep then
    let p ← page pagep
    initPage pagep p.currPgno hashDeletedPage
    noteSlip pagep .deleted
    poolDelete pagep
  else putPage pagep true

def splitPage : Option Nat → Run Page
  | none => Prog.reads Htab.splitBuf
  | some pagep => page pagep

/-- The inner loop of `ffdb_split_bucket`, over the slots of one page. -/
def splitSlots (oldbucket newbucket : Nat) (temp : Option Nat) : Nat → Nat → Run Unit
  | 0, _ => Prog.halt .diverge
  | fuel + 1, i => do
    let p ← splitPage temp
    if i < p.numEnt then
      let key := p.key i
      let bucket ← callHash key
      let _ ← addKeyDatapToBucket key (p.datap i)
        (if bucket = oldbucket then oldbucket else newbucket)
      splitSlots oldbucket newbucket temp fuel (i + 1)
    else pure ()

/-- The outer loop of `ffdb_split_bucket`. -/
def splitChain (oldbucket newbucket : Nat) : Nat → Option Nat → Run Int
  | 0, _ => Prog.halt .diverge
  | fuel + 1, temp => do
    splitSlots oldbucket newbucket temp 65537 0
    let p ← splitPage temp
    match temp with
    | none => pure ()
    | some pagep => deleteOvflPage pagep
    if p.nextPgno = invalidPgno then pure 0
    else
      match (← getPage p.nextPgno hashOvflPage {}).1 with
      | none => pure 0
      | some pagep => splitChain oldbucket newbucket fuel (some pagep)

/-- `ffdb_split_bucket`. -/
def splitBucket (oldbucket newbucket : Nat) : Run Int := do
  match ← getPage oldbucket hashBucketPage { create := true } with
  | (none, _) => pure (-1)
  | (some oldpagep, oldpage) =>
    let p ← page oldpagep
    Prog.modify fun hashp => { hashp with splitBuf := p }
    initPage oldpagep oldpage hashBucketPage
    putPage oldpagep true
    splitChain oldbucket newbucket pageFuel none

end FileHash.Htab
