import FileHash.Pool

/-! The hash table of `ffdb_hash.c` and `ffdb_hash.h`: its header, the mapping from
buckets to pages, and the calls through which every other routine reaches the page
pool. Programs run on `Htab` and leave a trace of `Event`s: the branches at which
the code lets go of a page without the release, or of a change without the mark,
that the rest of it relies on. -/
namespace FileHash

open Lib (Prog)

def ffdbHashmagic : Nat := 0xcece3434
def ffdbVersion : Nat := 6
def ffdbVersion5 : Nat := 5
def ncached : Nat := 32
def littleEndian : Nat := 1234
def maxBsize : Nat := 1048576
def defFfactor : Nat := 65536
def defCachesize : Nat := 134217728
def ffdbDefaultUinfoLen : Nat := 4000
def ffdbMaxDatasize : Nat := 1099511627775
def hashhdrSize : Nat := 332
def maxPages : Nat := 0xffffffff

def dataValid : Nat := 0xffee
def dataValid5 : Nat := 0xffeeffee

def ffdbNotFound : Int := 1
def ffdbFirst : Nat := 7
def ffdbLast : Nat := 15
def ffdbNext : Nat := 16
def ffdbNooverwrite : Nat := 20
def ffdbPrev : Nat := 23

def self : Nat := 1

def u32 (v : Nat) : Nat := v % 0x100000000

/-- The loop of `__ffdb_log2` on a 32 bit limit. -/
def ffdbLog2Loop (num : Nat) : Nat → Nat → Nat → Nat
  | 0, _, i => i
  | fuel + 1, limit, i => if limit < num then ffdbLog2Loop num fuel (limit * 2) (i + 1) else i

/-- `__ffdb_log2`, for numbers up to `2 ^ 31`. -/
def ffdbLog2 (num : Nat) : Nat := ffdbLog2Loop num 32 1 0

/-- `__ham_defcmp`: the first byte that differs decides, then the length. -/
def hamDefcmp (a b : Dbt) : Int :=
  match (List.range (min a.size b.size)).find? fun i => a.data i != b.data i with
  | some i => (a.data i).toNat - (b.data i).toNat
  | none => a.size - b.size

/-- `ffdb_hashhdr_t`, the checksum apart. The first 32 entries of the two tables are used. -/
structure Hashhdr where
  magic : Nat
  version : Nat
  lorder : Nat
  bsize : Nat
  bshift : Nat
  ovflPoint : Nat
  maxBucket : Nat
  highMask : Nat
  lowMask : Nat
  ffactor : Nat
  nkeys : Nat
  hdrpages : Nat
  uinfolen : Nat
  uinfoPage : Nat
  uinfoNpages : Nat
  cfigPage : Nat
  cfigNpages : Nat
  numCfigs : Nat
  hCharkey : Nat
  numMovedPages : Nat
  spares : Nat → Nat
  freePages : Nat → Nat

/-- `BUCKET_TO_PAGE`. -/
def Hashhdr.bucketToPage (hdr : Hashhdr) (b : Nat) : Nat :=
  let slevel := ffdbLog2 (u32 (b + 1))
  if 0 < b then u32 (b - 2 ^ (slevel - 1) + hdr.spares slevel) else hdr.spares slevel

/-- `_ffdb_call_hash`, from the hash value on. -/
def Hashhdr.bucketOf (hdr : Hashhdr) (n : Nat) : Nat :=
  let bucket := n &&& hdr.highMask
  if hdr.maxBucket < bucket then n &&& hdr.lowMask else bucket

inductive Leak where
  /-- `FFDB_NOOVERWRITE` on a present key. -/
  | refused
  /-- A value of length zero was asked for. -/
  | emptyValue
  /-- The data page of a value that did not fit the caller's buffer. -/
  | shortValue
  /-- The key page of an item whose value could not be had. -/
  | failedGet
  /-- The page of user information that did not fit the caller's buffer. -/
  | shortUinfo
  /-- A page that `ffdb_pagepool_delete` would not take. -/
  | undeleted
  deriving DecidableEq, Repr

inductive Slip where
  /-- The link of a full data page to the next one. -/
  | fullPage
  /-- The link of a full map page to the next one. -/
  | freeMap
  /-- The reset of an overflow page about to be deleted. -/
  | deleted
  /-- The reset of an empty bucket page by a search that only reads. -/
  | emptied
  /-- The reset of a page whose own number is zero, by a fetch. -/
  | unnumbered
  deriving DecidableEq, Repr

inductive Event where
  /-- A fetch that fails. -/
  | fault
  /-- A fetch of a page that is pinned; `own` says that the running call holds it. -/
  | again (own : Bool)
  /-- A page created or renumbered under a number that is in the cache. -/
  | duplicate
  | leak (why : Leak)
  | slip (why : Slip)
  /-- A page is deleted from the cache; `saved` says that the file has its bytes, or that the page was
  not marked and has no valid image there. -/
  | removed (saved : Bool)
  /-- The expansion of a one-bucket table, which splits the new bucket and not the old. -/
  | selfSplit
  /-- A search that resets an empty bucket page which has a chain. -/
  | unchained
  /-- A value whose length has high bits is replaced by one whose length has none. -/
  | hugeShrunk
  /-- A cursor asks for a bucket after the last. -/
  | beyond
  deriving DecidableEq, Repr

/-- `ffdb_htab_t`. `fault` says which page fetches fail, counted by `fetches`; `held` lists
the entries the running call has fetched and not put back: the trace alone depends on it. -/
structure Htab where
  hdr : Hashhdr
  hash : List UInt8 → Nat
  hCompare : Dbt → Dbt → Int
  rdonly : Bool
  newFile : Bool
  splitBuf : Page
  currDpage : Nat
  rearrangePages : Bool
  dataValidFlag : Nat
  mp : Pagepool
  fault : Nat → Bool
  fetches : Nat
  held : List Nat

abbrev Run := Prog Htab Event

namespace Htab

def setMp (mp : Pagepool) (hashp : Htab) : Htab := { hashp with mp := mp }

def setHdr (f : Hashhdr → Hashhdr) (hashp : Htab) : Htab := { hashp with hdr := f hashp.hdr }

def setSpares (level v : Nat) : Htab → Htab :=
  setHdr fun hdr => { hdr with spares := Function.update hdr.spares level v }

def setFreePages (level v : Nat) : Htab → Htab :=
  setHdr fun hdr => { hdr with freePages := Function.update hdr.freePages level v }

def pool {α : Type} (m : Prog Pagepool Event α) : Run α := Prog.zoom Htab.mp setMp m

def page (mem : Nat) : Run Page := Prog.reads fun hashp => (hashp.mp.bkt mem).page

def store (mem : Nat) (f : Page → Page) : Run Unit := pool (Pagepool.store mem f)

def hold (mem : Nat) (hashp : Htab) : Htab := { hashp with held := mem :: hashp.held }

def unhold (mem : Nat) (hashp : Htab) : Htab := { hashp with held := hashp.held.erase mem }

def fails : Run Bool := do
  let hashp ← Prog.read
  Prog.modify fun hashp => { hashp with fetches := hashp.fetches + 1 }
  if hashp.fault hashp.fetches then
    Prog.mark .fault
    pure true
  else pure false

/-- The page an address stands for. From bucket `2 ^ 31` on the loop of `__ffdb_log2` has no
end, and the shift for bucket `0xffffffff` is by a negative count. -/
def address (addr addrtype : Nat) : Run Nat := do
  let hashp ← Prog.read
  if addrtype = hashBucketPage then
    if 0x80000000 ≤ addr then Prog.halt .diverge else pure (hashp.hdr.bucketToPage addr)
  else pure addr

def noteAgain (page : Nat) : Run Unit := do
  let hashp ← Prog.read
  match hashp.mp.find page with
  | some id =>
    if (hashp.mp.bkt id).pinned then Prog.mark (.again (decide (id ∈ hashp.held))) else pure ()
  | none => pure ()

def noteDuplicate (page : Nat) : Run Unit := do
  let hashp ← Prog.read
  if (hashp.mp.find page).isSome then Prog.mark .duplicate else pure ()

def unmarked (mp : Pagepool) (mem : Nat) : Bool :=
  !(mp.bkt mem).dirty && (mp.file.read (mp.bkt mem).pgno).pageSign == pageMagic

def noteSlip (mem : Nat) (why : Slip) : Run Unit := do
  let hashp ← Prog.read
  if unmarked hashp.mp mem then Prog.mark (.slip why) else pure ()

def leak (mem : Nat) (why : Leak) : Run Unit := do
  Prog.mark (.leak why)
  Prog.modify (unhold mem)

/-- `_ffdb_init_page` on a page in the cache. -/
def initPage (mem page addrtype : Nat) : Run Unit := do
  let hashp ← Prog.read
  store mem fun p => FileHash.initPage hashp.hdr.bsize p page addrtype

/-- The fetch itself, in `ffdb_get_page`. -/
def fetch (page : Nat) (flags : PageFlags) : Run (Option Nat) := do
  noteAgain page
  match ← pool (Pagepool.getPage self page flags) with
  | .page mem =>
    Prog.modify (hold mem)
    pure (some mem)
  | .wait _ => Prog.halt .blocked
  | .error => pure none

/-- `ffdb_get_page`: the entry and the page number. -/
def getPage (addr addrtype : Nat) (flags : PageFlags) : Run (Option Nat × Nat) := do
  let page ← address addr addrtype
  if ← fails then pure (none, page)
  else
    match ← fetch page flags with
    | none => pure (none, page)
    | some mem =>
      let p ← Htab.page mem
      if flags.create ∧ p.currPgno = 0 then
        initPage mem page addrtype
        noteSlip mem .unnumbered
      pure (some mem, page)

/-- `ffdb_put_page`. -/
def putPage (mem : Nat) (dirty : Bool) : Run Unit := do
  pool (Pagepool.putPage mem dirty)
  Prog.modify (unhold mem)

/-- `ffdb_new_page`; `false` on failure. -/
def newPage (addr addrtype : Nat) : Run Bool := do
  let page ← address addr addrtype
  if ← fails then pure false
  else
    noteDuplicate page
    let r ← pool (Pagepool.newPage self page { request := true })
    Prog.modify (hold r.1)
    initPage r.1 page addrtype
    putPage r.1 true
    pure true

def sameImage (bsize : Nat) (a b : Page) : Bool :=
  (List.range bsize).all fun i => (decide (chksumPos ≤ i) && decide (i < chksumOffset)) || a i == b i

/-- `ffdb_pagepool_delete` on a held page. -/
def poolDelete (mem : Nat) : Run Unit := do
  let before ← Prog.read
  if ← pool (Pagepool.delete mem) then
    let after ← Prog.read
    let b := before.mp.bkt mem
    let image := after.mp.file.read b.pgno
    Prog.mark (.removed (!b.dirty && image.pageSign != pageMagic ||
      sameImage before.hdr.bsize b.page image))
    Prog.modify (unhold mem)
  else leak mem .undeleted

/-- `_ffdb_call_hash`. -/
def callHash (key : Dbt) : Run Nat :=
  Prog.reads fun hashp => hashp.hdr.bucketOf (u32 (hashp.hash (key.data.bytes (u32 key.size))))

/-- `ffdb_release_item`. -/
def releaseItem (pagep : Nat) : Run Unit := putPage pagep false

def endOf {α : Type} (m : Run α) (hashp : Htab) : Htab :=
  match (m.run hashp).1 with
  | .ok _ hashp' => hashp'
  | .halt _ => hashp

def answerOf {α : Type} (m : Run α) (hashp : Htab) : Option α × List Event :=
  match (m.run hashp).1 with
  | .ok a _ => (some a, (m.run hashp).2)
  | .halt _ => (none, (m.run hashp).2)

theorem run_of_answer {α : Type} {m : Run α} {hashp : Htab} {a : α} {t : List Event}
    (answer : answerOf m hashp = (some a, t)) : m.run hashp = (.ok a (endOf m hashp), t) := by
  unfold answerOf at answer
  unfold endOf
  rcases run : m.run hashp with ⟨_ | _, t'⟩
  · rw [run] at answer
    cases answer
    rfl
  · rw [run] at answer
    cases answer

theorem returns_of_answer {α : Type} {m : Run α} {hashp : Htab} {a : α} {t : List Event}
    (answer : answerOf m hashp = (some a, t)) : m.Returns hashp a (endOf m hashp) := by
  rw [Prog.Returns, run_of_answer answer]

end Htab
end FileHash
