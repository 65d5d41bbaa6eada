import FileHash.DataPages

/-! Page moving in `ffdb_page.c`: on close the last pages of a level go to the page
numbers of buckets not yet in use, and on open they come back. -/
namespace FileHash.Htab

open Lib (Prog)
open Page

structure Move where
  oldfirst : Nat
  oldlast : Nat
  newfirst : Nat
  newlast : Nat

def Move.moved (m : Move) (p : Nat) : Bool := decide (m.oldfirst ≤ p) && decide (p ≤ m.oldlast)

def Move.target (m : Move) (p : Nat) : Nat := u32 (m.newfirst + (p + 0x100000000 - m.oldfirst))

/-- `_ffdb_update_data_pages_content`, from slot `i` on. -/
def updateDataPagesContent (pagep oldpage newpage : Nat) (m : Move) : Nat → Nat → Run Int
  | 0, _ => Prog.halt .diverge
  | fuel + 1, i => do
    let hashp ← Prog.read
    let p ← page pagep
    if i < p.numEnt then
      let datap := p.datap i
      if m.newfirst ≤ datap.first ∧ datap.first ≤ m.newlast then
        updateDataPagesContent pagep oldpage newpage m fuel (i + 1)
      else
        match (← getPage datap.first hashDataPage {}).1 with
        | none => pure (-1)
        | some dpagep =>
          let d ← page dpagep
          let roff := dataOffset hashp.hdr.version datap
          if (d.readHeader roff).keyPage ≠ oldpage then Prog.halt .assertion
          else
            store dpagep fun d => d.writeHeader roff { d.readHeader roff with keyPage := newpage }
            putPage dpagep true
            updateDataPagesContent pagep oldpage newpage m fuel (i + 1)
    else pure 0

/-- `_ffdb_update_key_pages_content`, from the header at `next` on. -/
def updateKeyPagesContent (pagep oldpage newpage : Nat) (m : Move) : Nat → Nat → Nat → Run Int
  | 0, _, _ => Prog.halt .diverge
  | fuel + 1, i, next => do
    let p ← page pagep
    if i < p.numEnt then
      let header := p.readHeader next
      match (← getPage header.keyPage hashRawPage {}).1 with
      | none => pure (-1)
      | some kpagep =>
        let k ← page kpagep
        let datap := k.datap header.keyIdx
        if datap.first ≠ oldpage then Prog.halt .assertion
        else
          store kpagep fun k => k.writeDatap (k.datapOff header.keyIdx) { datap with first := newpage }
          if m.moved header.keyPage then
            store pagep fun p => p.writeHeader next { header with keyPage := m.target header.keyPage }
          putPage kpagep true
          updateKeyPagesContent pagep oldpage newpage m fuel (i + 1) header.next
    else pure 0

/-- `ffdb_pagepool_change_page` on a held page. -/
def changePage (pagep n : Nat) : Run Unit := do
  noteDuplicate n
  let _ ← pool (Pagepool.changePage pagep n)
  Prog.modify (unhold pagep)

/-- The neighbour of a page that moves: a page that stays is told the new number, and
the link to one that moves is changed. `false` when a page cannot be had. -/
def relink (pagep neighbour rpage : Nat) (m : Move) (tell : Nat → Page → Page)
    (link : Nat → Page → Page) : Run Bool := do
  if m.moved neighbour then
    store pagep (link (m.target neighbour))
    pure true
  else
    match (← getPage neighbour hashRawPage {}).1 with
    | none =>
      putPage pagep false
      pure false
    | some other =>
      store other (tell rpage)
      putPage other true
      pure true

/-- What `_ffdb_move_pages` does to the pages that point at the contents of the page it moves. -/
def updateContent (type pagep pgno rpage : Nat) (m : Move) : Run Int := do
  if type = hashDataPage then
    let p ← page pagep
    updateKeyPagesContent pagep pgno rpage m 65537 0 p.firstDataPos
  else if type = hashBucketPage then updateDataPagesContent pagep pgno rpage m 65537 0
  else pure 0

/-- One page of `_ffdb_move_pages`, when it is of the type that moves; `false` stops the loop. -/
def moveOne (type pagep pgno rpage : Nat) (m : Move) : Run Bool := do
  let p ← page pagep
  let ahead ← if p.nextPgno ≠ invalidPgno then
      relink pagep p.nextPgno rpage m (fun v q => q.setPrevPgno v) (fun v q => q.setNextPgno v)
    else pure true
  if !ahead then pure false
  else
    let behind ← if p.prevPgno ≠ invalidPgno then
        relink pagep p.prevPgno rpage m (fun v q => q.setNextPgno v) (fun v q => q.setPrevPgno v)
      else pure true
    if !behind then pure false
    else
      store pagep fun q => q.setCurrPgno rpage
      let status ← updateContent type pagep pgno rpage m
      if status ≠ 0 then
        putPage pagep false
        pure false
      else
        let q ← page pagep
        changePage pagep q.currPgno
        pure true

/-- The loop of `_ffdb_move_pages`; `dlast` is the last data page so far. -/
def movePagesLoop (type : Nat) (m : Move) : Nat → Nat → Nat → Nat → Run Nat
  | 0, _, _, dlast => pure dlast
  | numpages + 1, pgno, rpage, dlast => do
    match (← getPage pgno hashRawPage {}).1 with
    | none => pure dlast
    | some pagep =>
      let p ← page pagep
      if p.type ≠ type then
        putPage pagep false
        movePagesLoop type m numpages (u32 (pgno + 1)) (u32 (rpage + 1)) dlast
      else
        let dlast := if p.nextPgno = invalidPgno ∧ type = hashDataPage then rpage else dlast
        if ← moveOne type pagep pgno rpage m then
          movePagesLoop type m numpages (u32 (pgno + 1)) (u32 (rpage + 1)) dlast
        else pure dlast

/-- `_ffdb_move_pages`. -/
def movePages (type : Nat) (m : Move) : Run Nat :=
  movePagesLoop type m (u32 (m.oldlast + 0x100000000 - m.oldfirst + 1)) m.oldfirst m.newfirst
    invalidPgno

/-- `_ffdb_remove_pages`. -/
def removePages : Nat → Nat → Run Unit
  | 0, _ => pure ()
  | numpages + 1, pgno => do
    match (← getPage pgno hashRawPage {}).1 with
    | none => removePages numpages (u32 (pgno + 1))
    | some pagep =>
      poolDelete pagep
      removePages numpages (u32 (pgno + 1))

/-- `ffdb_rearrage_pages_on_close`. -/
def rearragePagesOnClose : Run Unit := do
  let hashp ← Prog.read
  let hdr := hashp.hdr
  let numUnused := u32 (hdr.highMask + 0x100000000 - hdr.maxBucket)
  if numUnused = 0 then pure ()
  else
    let funused := hdr.bucketToPage (u32 (hdr.maxBucket + 1))
    let lunused := hdr.bucketToPage hdr.highMask
    let dlast := u32 (hdr.spares (hdr.ovflPoint + 1) + 0xffffffff)
    if dlast = 0 ∨ dlast ≤ lunused then Prog.halt .assertion
    else
      let numPageMoved := min (dlast - lunused) numUnused
      let m : Move := ⟨dlast - numPageMoved + 1, dlast, funused, funused + numPageMoved - 1⟩
      let _ ← movePages hashDataPage m
      let _ ← movePages hashBucketPage m
      let _ ← movePages hashFreePage m
      Prog.modify (setHdr fun hdr => { hdr with numMovedPages := numPageMoved })

/-- `ffdb_rearrage_pages_on_open`. -/
def rearragePagesOnOpen : Run Unit := do
  let hashp ← Prog.read
  let hdr := hashp.hdr
  if hdr.numMovedPages = 0 ∨ hdr.maxBucket = hdr.highMask then pure ()
  else
    let oldfirst := hdr.bucketToPage (u32 (hdr.maxBucket + 1))
    let oldlast := u32 (oldfirst + hdr.numMovedPages + 0xffffffff)
    let newlast := u32 (hdr.spares (hdr.ovflPoint + 1) + 0xffffffff)
    let newfirst := u32 (newlast + 0x100000000 - hdr.numMovedPages + 1)
    let m : Move := ⟨oldfirst, oldlast, newfirst, newlast⟩
    let lastdpage ← movePages hashDataPage m
    let _ ← movePages hashBucketPage m
    let _ ← movePages hashFreePage m
    if lastdpage = invalidPgno then
      let last ← lastDataPage pageFuel (u32 (newfirst + 0xffffffff))
      Prog.modify fun hashp => { hashp with currDpage := last }
    Prog.modify (setHdr fun hdr => { hdr with numMovedPages := 0 })
    removePages (u32 (oldlast + 0x100000000 - oldfirst + 1)) oldfirst

/-- `ffdb_reduce_filesize`, on the file that is left. -/
def reduceFilesize (hdr : Hashhdr) (file : Pagefile) : Pagefile :=
  let last := u32 (hdr.spares (hdr.ovflPoint + 1) + 0xffffffff)
  let last := u32 (last + 0x100000000 - hdr.numMovedPages)
  if 0 < hdr.numMovedPages then { file with length := last + 1 } else file

end FileHash.Htab
