import FileHash.BucketPages

/-! Cursors: `ffdb_cursor_find_by_key` and the calls of a cursor in `ffdb_hash.c`. A
cursor keeps the page it is positioned on until it moves or is closed. -/
namespace FileHash.Htab

open Lib (Prog)
open Page

/-- `ffdb_crs_t`: the page in hand, if any, and the place on it. -/
structure Crs where
  keyCursor : Bool
  pagep : Option Nat
  pgno : Nat
  bucket : Nat
  pgndx : Nat
  status : ItemStatus

inductive Place where
  | at (crs : Crs)
  | notFound (crs : Crs)
  | failed (crs : Crs)

def Crs.noMore (crs : Crs) : Crs := { crs with pagep := none, status := .noMore }

def Crs.broken (crs : Crs) : Crs := { crs with pagep := none, status := .error }

def Place.settle (old : Crs) (ownBucket : Bool) : Place → Place
  | .at crs => .at crs
  | .notFound crs => .notFound { crs with
      pgno := old.pgno, bucket := if ownBucket then old.bucket else crs.bucket }
  | .failed crs => .failed { crs with
      pgno := old.pgno, bucket := if ownBucket then old.bucket else crs.bucket }

def releaseCursor (crs : Crs) : Run Unit :=
  match crs.pagep with
  | none => pure ()
  | some pagep => putPage pagep false

def noteBeyond (bucket : Nat) : Run Unit := do
  let hashp ← Prog.read
  if hashp.hdr.maxBucket < bucket then Prog.mark .beyond else pure ()

def cursorBucket (crs : Crs) (bucket : Nat) : Run Crs := do
  noteBeyond bucket
  match ← getPage bucket hashBucketPage {} with
  | (none, _) => pure { crs.broken with bucket := bucket }
  | (some pagep, tp) => pure { crs with pagep := some pagep, pgno := tp, bucket := bucket }

/-- Skipping empty buckets: the cursor holds the page of a bucket. `last` says at which
bucket to give up, `step` which comes next. -/
def skipEmpty (last : Nat → Bool) (step : Nat → Nat) : Nat → Crs → Run Place
  | 0, _ => Prog.halt .diverge
  | fuel + 1, crs =>
    match crs.pagep with
    | none => pure (.failed crs)
    | some pagep => do
      let p ← page pagep
      if p.numEnt = 0 then
        putPage pagep false
        if last crs.bucket then pure (.notFound crs.noMore)
        else
          let crs ← cursorBucket { crs with pagep := none } (step crs.bucket)
          skipEmpty last step fuel crs
      else pure (.at { crs with status := .ok })

/-- The loop of `FFDB_FIRST`, which looks at one bucket more than there are. -/
def skipFirst (maxBucket : Nat) : Nat → Crs → Run Place
  | 0, _ => Prog.halt .diverge
  | fuel + 1, crs =>
    match crs.pagep with
    | none => pure (.failed crs)
    | some pagep => do
      let p ← page pagep
      if p.numEnt = 0 ∧ crs.bucket ≤ maxBucket then
        putPage pagep false
        let crs ← cursorBucket { crs with pagep := none } (u32 (crs.bucket + 1))
        skipFirst maxBucket fuel crs
      else if maxBucket < crs.bucket then
        putPage pagep false
        pure (.notFound crs.noMore)
      else pure (.at { crs with pgndx := 0, status := .ok })

/-- The loop of `FFDB_LAST`, which tests for the first bucket after it has fetched it. -/
def skipLast : Nat → Crs → Run Place
  | 0, _ => Prog.halt .diverge
  | fuel + 1, crs =>
    match crs.pagep with
    | none => pure (.failed crs)
    | some pagep => do
      let p ← page pagep
      if p.numEnt = 0 then
        putPage pagep false
        let crs ← cursorBucket { crs with pagep := none } (u32 (crs.bucket + 0xffffffff))
        match crs.pagep with
        | none => pure (.failed crs)
        | some pagep =>
          let p ← page pagep
          if crs.bucket = 0 ∧ p.numEnt = 0 then
            putPage pagep false
            pure (.notFound crs.noMore)
          else skipLast fuel crs
      else pure (.at { crs with pgndx := p.numEnt - 1, status := .ok })

/-- The branch of `FFDB_FIRST`. -/
def cursorFirst (crs : Crs) : Run Place := do
  releaseCursor crs
  let hashp ← Prog.read
  let start ← cursorBucket { crs with pagep := none } 0
  let place ← skipFirst hashp.hdr.maxBucket pageFuel start
  pure (place.settle crs true)

/-- The branch of `FFDB_LAST`. -/
def cursorLast (crs : Crs) : Run Place := do
  releaseCursor crs
  let hashp ← Prog.read
  let start ← cursorBucket { crs with pagep := none } hashp.hdr.maxBucket
  let place ← skipLast pageFuel start
  pure (place.settle crs true)

def cursorOvfl (crs : Crs) (nextp : Nat) : Run Place := do
  match (← getPage nextp hashRawPage {}).1 with
  | none => pure (.failed crs.broken)
  | some pagep => pure (.at { crs with pagep := some pagep, pgno := nextp, status := .ok })

/-- The branch of `FFDB_NEXT`. -/
def cursorNext (crs : Crs) : Run Place := do
  match crs.pagep with
  | none => Prog.halt .segv
  | some pagep =>
    let hashp ← Prog.read
    let maxBucket := hashp.hdr.maxBucket
    let p ← page pagep
    if crs.pgndx + 1 = p.numEnt then
      putPage pagep false
      if maxBucket ≤ crs.bucket ∧ p.nextPgno = invalidPgno then pure (.notFound crs.noMore)
      else
        let place ← if p.nextPgno = invalidPgno then do
            let crs ← cursorBucket { crs with pagep := none } (u32 (crs.bucket + 1))
            skipEmpty (fun b => b == maxBucket) (fun b => u32 (b + 1)) pageFuel crs
          else cursorOvfl crs p.nextPgno
        match place with
        | .at crs => pure (.at { crs with pgndx := 0 })
        | place => pure (place.settle crs false)
    else pure (.at { crs with pgndx := (crs.pgndx + 1) % 65536 })

/-- The branch of `FFDB_PREV`. -/
def cursorPrev (crs : Crs) : Run Place := do
  match crs.pagep with
  | none => Prog.halt .segv
  | some pagep =>
    let p ← page pagep
    if crs.pgndx = 0 then
      putPage pagep false
      if crs.bucket = 0 ∧ p.nextPgno = invalidPgno then pure (.notFound crs.noMore)
      else
        let place ← if p.nextPgno = invalidPgno then do
            let crs ← cursorBucket { crs with pagep := none } (u32 (crs.bucket + 0xffffffff))
            -- the page of the bucket before is used without a test
            if crs.pagep.isNone then Prog.halt .segv
            else skipEmpty (fun b => b == 0) (fun b => u32 (b + 0xffffffff)) pageFuel crs
          else cursorOvfl crs p.nextPgno
        match place with
        | .at crs =>
          match crs.pagep with
          | none => Prog.halt .segv
          | some pagep =>
            let p ← page pagep
            pure (.at { crs with pgndx := (p.numEnt + 65535) % 65536 })
        | place => pure (place.settle crs false)
    else pure (.at { crs with pgndx := crs.pgndx - 1 })

/-- The end of `ffdb_cursor_find_by_key`: the key at the cursor, and the datum if it is
wanted. `keyRoom` and `dataRoom` are the caller's buffers, `0` for one to be allocated. -/
def cursorRead (crs : Crs) (keyRoom : Nat) (dataRoom : Option Nat) :
    Run (Int × List UInt8 × List UInt8) := do
  match crs.pagep with
  | none => Prog.halt .segv
  | some pagep =>
    let p ← page pagep
    let key := p.key crs.pgndx
    if 0 < keyRoom ∧ keyRoom < key.size then pure (-1, [], [])
    else
      match dataRoom with
      | none => pure (0, key.bytes, [])
      | some room =>
        let r ← getItem pagep crs.pgno crs.pgndx room false
        pure (r.1, key.bytes, r.2)

/-- `ffdb_cursor_find_by_key`: status, the cursor, the key and the datum. -/
def cursorFindByKey (crs : Crs) (keyRoom : Nat) (dataRoom : Option Nat) (flags : Nat) :
    Run (Int × Crs × List UInt8 × List UInt8) := do
  let place ← if flags = ffdbFirst then cursorFirst crs
    else if flags = ffdbLast then cursorLast crs
    else if flags = ffdbNext then cursorNext crs
    else cursorPrev crs
  match place with
  | .failed crs => pure (-1, crs, [], [])
  | .notFound crs => pure (ffdbNotFound, crs, [], [])
  | .at crs =>
    let r ← cursorRead crs keyRoom dataRoom
    pure (r.1, crs, r.2.1, r.2.2)

/-- `_ffdb_cursor_get`. -/
def cursorGet (crs : Crs) (keyRoom : Nat) (dataRoom : Option Nat) (flags : Nat) :
    Run (Int × Crs × List UInt8 × List UInt8) :=
  if flags ≠ ffdbFirst ∧ flags ≠ ffdbLast ∧ flags ≠ ffdbNext ∧ flags ≠ ffdbPrev then
    pure (-1, crs, [], [])
  else if crs.keyCursor then
    let realflags := if crs.status = .clean then
        if flags = ffdbNext then ffdbFirst else if flags = ffdbPrev then ffdbLast else flags
      else flags
    cursorFindByKey crs keyRoom dataRoom realflags
  else pure (0, crs, [], [])

/-- `_ffdb_hash_cursor`. -/
def hashCursor (keyCursor : Bool) : Crs := ⟨keyCursor, none, 0, 0, 0, .clean⟩

/-- `_ffdb_cursor_close`. -/
def cursorClose (crs : Crs) : Run Unit := releaseCursor crs

end FileHash.Htab
