import FileHash.Lib.Prog
import FileHash.Page

/-! The page pool of `ffdb_pagepool.c`: cached pages on hash chains and on one LRU
list, backed by a file of pages. A cache entry is named by its address, as the
code names it by the page memory behind it, so a stale name can be told from the
page number it once had. File reads and writes succeed. The operations take the
calling thread; a call that would wait on a condition variable says so. -/
namespace FileHash

open Lib (Prog)

def ffdbHashsize : Nat := 16384
def ffdbWriteFrac : Nat := 5
def maxPageNumber : Nat := 0xffffffff

@[irreducible] def hashKey (pgno : Nat) : Nat := (pgno + 0x100000000 - 1 + ffdbHashsize) % 0x100000000 % ffdbHashsize

/-- The backing file, in pages. Holes and what lies past the end read as zeros. -/
structure Pagefile where
  length : Nat
  page : Nat → Page

namespace Pagefile

def read (f : Pagefile) (n : Nat) : Page := if n < f.length then f.page n else fun _ => 0

def write (f : Pagefile) (n : Nat) (p : Page) : Pagefile where
  length := max f.length (n + 1)
  page := fun k => if k = n then p else f.read k

end Pagefile

/-- `ffdb_bkt_waiter_t`. -/
structure Waiter where
  tid : Nat
  wakeup : Bool
  deriving DecidableEq, Repr

/-- `ffdb_bkt_t`: one cache entry. The flag word is one field for each bit in use;
thread `0` is the null owner; the waiter queue has its head first. -/
structure Bkt where
  page : Page
  pgno : Nat
  ref : Nat
  waiters : Nat
  pinned : Bool
  valid : Bool
  dirty : Bool
  locked : Bool
  owner : Nat
  wqh : List Waiter

structure PageFlags where
  create : Bool := false
  dirty : Bool := false
  edit : Bool := false
  new : Bool := false
  locked : Bool := false
  request : Bool := false

/-- `ffdb_pagepool_t`. `bkt` is the memory entries live in and `brk` the address of
the next one allocated: memory not yet allocated holds arbitrary bytes. -/
structure Pagepool where
  lqh : List Nat
  hqh : Nat → List Nat
  bkt : Nat → Bkt
  brk : Nat
  curcache : Nat
  maxcache : Nat
  npages : Nat
  maxpgno : Nat
  rdonly : Bool
  pgin : Nat → Page → Option Page
  pgout : Nat → Page → Page
  file : Pagefile

namespace Pagepool

def setBkt (pgp : Pagepool) (id : Nat) (f : Bkt → Bkt) : Pagepool :=
  { pgp with bkt := Function.update pgp.bkt id (f (pgp.bkt id)) }

/-- `FFDB_CIRCLEQ_REMOVE` from the hash chain of the entry's page number and from the LRU list. -/
def unlink (pgp : Pagepool) (id : Nat) : Pagepool :=
  let k := hashKey (pgp.bkt id).pgno
  { pgp with
    hqh := Function.update pgp.hqh k ((pgp.hqh k).erase id)
    lqh := pgp.lqh.erase id }

def link (pgp : Pagepool) (id : Nat) : Pagepool :=
  let k := hashKey (pgp.bkt id).pgno
  { pgp with
    hqh := Function.update pgp.hqh k (id :: pgp.hqh k)
    lqh := pgp.lqh ++ [id] }

def find (pgp : Pagepool) (pgno : Nat) : Option Nat :=
  (pgp.hqh (hashKey pgno)).find? fun id => (pgp.bkt id).pgno == pgno

/-- `_ffdb_sbkt_cmp`: the sign of a 32 bit difference. -/
def sbktLe (a b : Nat) : Bool :=
  let d := (a + 0x100000000 - b) % 0x100000000
  d == 0 || decide (0x80000000 ≤ d)

def mergeRuns (le : Nat → Nat → Bool) : List Nat → List Nat → List Nat
  | [], qs => qs
  | ps, [] => ps
  | p :: ps, q :: qs =>
    if le p q then p :: mergeRuns le ps (q :: qs) else q :: mergeRuns le (p :: ps) qs

/-- One pass: neighbouring runs of `insize` are merged; also how many merges it took. -/
def mergePass (le : Nat → Nat → Bool) (insize : Nat) : Nat → List Nat → List Nat × Nat
  | 0, l => (l, 0)
  | _ + 1, [] => ([], 0)
  | fuel + 1, l =>
    let rest := mergePass le insize fuel ((l.drop insize).drop insize)
    (mergeRuns le (l.take insize) ((l.drop insize).take insize) ++ rest.1, rest.2 + 1)

def mergeLoop (le : Nat → Nat → Bool) : Nat → Nat → List Nat → List Nat
  | 0, _, l => l
  | fuel + 1, insize, l =>
    let pass := mergePass le insize l.length l
    if pass.2 ≤ 1 then pass.1 else mergeLoop le fuel (insize * 2) pass.1

/-- `_ffdb_slist_merge_sort` on the entries of the list. Each pass doubles the run, so
the number of entries bounds the number of passes. -/
def slistMergeSort (le : Nat → Nat → Bool) (l : List Nat) : List Nat := mergeLoop le l.length 1 l

/-- `_ffdb_pagepool_write`. -/
def write (pgp : Pagepool) (id : Nat) : Pagepool :=
  let n := (pgp.bkt id).pgno
  let out := pgp.pgout n (pgp.bkt id).page
  let pgp := pgp.setBkt id fun b => { b with page := out, dirty := false }
  { pgp with
    file := pgp.file.write n out
    npages := if pgp.npages ≤ n then n + 1 else pgp.npages }

/-- `_ffdb_clean_page_ondisk`. -/
def cleanPageOndisk (pgp : Pagepool) (num : Nat) : Pagepool :=
  { pgp with file := pgp.file.write num fun _ => 0 }

def flushable (b : Bkt) : Bool := !b.pinned && b.waiters == 0 && b.dirty

def writeList (pgp : Pagepool) (l : List Nat) : Pagepool :=
  l.foldl (fun p id => if (p.bkt id).dirty then p.write id else p) pgp

/-- The entries `_ffdb_pagepool_sync_i` is to write, in the order it writes them. -/
def syncList (pgp : Pagepool) (numpages : Nat) : List Nat :=
  let all := pgp.lqh.filter fun id => flushable (pgp.bkt id)
  let taken := if numpages = 0 then all else all.take numpages
  slistMergeSort (fun a b => sbktLe (pgp.bkt a).pgno (pgp.bkt b).pgno) taken.reverse

/-- `_ffdb_pagepool_sync_i`. -/
def syncI (pgp : Pagepool) (numpages : Nat) : Pagepool :=
  pgp.writeList (pgp.syncList numpages)

/-- `ffdb_pagepool_sync`. -/
def sync (pgp : Pagepool) : Pagepool := pgp.syncI 0

/-- What `_ffdb_pagepool_reuse_bkt` asks of an entry before it evicts it. -/
def evictable (b : Bkt) : Bool := !b.locked && !b.pinned && b.waiters == 0

def freshBkt (self : Nat) (b : Bkt) : Bkt :=
  { b with ref := 0, waiters := 0, pinned := true, valid := true, dirty := false,
           locked := false, owner := self }

/-- `_ffdb_pagepool_reuse_bkt`, once a victim is found. -/
def evict (self : Nat) (pgp : Pagepool) (id : Nat) : Pagepool :=
  let needwrite := (pgp.bkt id).dirty
  let pgp := if needwrite then pgp.write id else pgp
  let pgp := (pgp.unlink id).setBkt id (freshBkt self)
  if needwrite then pgp.syncI (pgp.maxcache / ffdbWriteFrac) else pgp

/-- `_ffdb_pagepool_new_bkt`. -/
def newBkt (self : Nat) (pgp : Pagepool) : Nat × Pagepool :=
  let id := pgp.brk
  let pgp := { pgp with brk := id + 1, curcache := pgp.curcache + 1 }
  (id, pgp.setBkt id fun b => { freshBkt self b with wqh := [] })

variable {ε : Type}

def obtainBkt (self : Nat) : Prog Pagepool ε Nat := do
  let pgp ← Prog.read
  if pgp.maxcache < pgp.curcache then
    if pgp.lqh = [] then Prog.halt .abort
    else
      match pgp.lqh.find? fun id => evictable (pgp.bkt id) with
      | some id =>
        Prog.modify fun p => evict self p id
        pure id
      | none =>
        Prog.modify fun p => (newBkt self p).2
        pure pgp.brk
  else
    Prog.modify fun p => (newBkt self p).2
    pure pgp.brk

def applyFlags (flags : PageFlags) (b : Bkt) : Bkt :=
  { b with
    dirty := b.dirty || flags.dirty || flags.edit
    locked := b.locked || flags.locked }

/-- `_ffdb_pagepool_load_new_page`. -/
def loadNewPage (self pageno : Nat) (flags : PageFlags) : Prog Pagepool ε Nat := do
  let id ← obtainBkt self
  let pgp ← Prog.read
  Prog.modify fun p => p.setBkt id fun b =>
    applyFlags flags { b with page := p.file.read pageno, pgno := pageno, owner := self,
                              ref := 1, waiters := 0 }
  Prog.modify fun p => p.link id
  match pgp.pgin pageno (pgp.file.read pageno) with
  | none => Prog.halt .exit
  | some page =>
    Prog.modify fun p => p.setBkt id fun b => { b with page := page }
    pure id

/-- `_ffdb_pagepool_new_page_i`: the entry and its page number. -/
def newPageI (self pageno : Nat) (flags : PageFlags) : Prog Pagepool ε (Nat × Nat) := do
  let pgp ← Prog.read
  if pgp.maxpgno = maxPageNumber then Prog.halt .abort
  else
    let id ← obtainBkt self
    let pgno := if flags.request then pageno else pgp.maxpgno + 1
    Prog.modify fun p => { p with maxpgno := max p.maxpgno pgno }
    Prog.modify fun p => p.setBkt id fun b =>
      applyFlags flags { b with pgno := pgno, ref := 1, owner := self }
    Prog.modify fun p => p.link id
    Prog.modify fun p => p.setBkt id fun b => { b with page := b.page.fill 0 cleanhdrSize 0 }
    pure (id, pgno)

/-- `ffdb_pagepool_new_page`. -/
def newPage (self pageno : Nat) (flags : PageFlags) : Prog Pagepool ε (Nat × Nat) :=
  newPageI self pageno flags

inductive GetResult where
  | page (mem : Nat)
  | wait (mem : Nat)
  | error
  deriving DecidableEq, Repr

def mustWait (self : Nat) (b : Bkt) : Bool :=
  b.owner != self && (decide (0 < b.waiters) || b.pinned)

def hold (self : Nat) (b : Bkt) : Bkt :=
  if b.owner = self then { b with pinned := true, ref := b.ref + 1 }
  else { b with ref := b.ref + 1, owner := self, pinned := true }

/-- End of the found branch of `ffdb_pagepool_get_page`. -/
def grab (self : Nat) (flags : PageFlags) (pgp : Pagepool) (id : Nat) : Pagepool :=
  let pgp := pgp.setBkt id fun b => applyFlags flags (hold self b)
  (pgp.unlink id).link id

/-- `ffdb_pagepool_get_page`, up to the point where it returns or begins to wait. -/
def getPage (self pageno : Nat) (flags : PageFlags) : Prog Pagepool ε GetResult := do
  let pgp ← Prog.read
  if flags.dirty ∧ pgp.rdonly then pure .error
  else if flags.new then
    if flags.create then pure .error
    else
      let r ← newPageI self pageno flags
      pure (.page r.1)
  else
    match pgp.find pageno with
    | some id =>
      if mustWait self (pgp.bkt id) then pure (.wait id)
      else
        Prog.modify fun p => grab self flags p id
        pure (.page id)
    | none =>
      if flags.create ∧ pgp.npages ≤ pageno then
        let r ← newPageI self pageno { flags with request := true }
        pure (.page r.1)
      else
        let id ← loadNewPage self pageno flags
        pure (.page id)

/-- The caller of `ffdb_pagepool_get_page` begins to wait, at the head of the queue. -/
def beginWait (self mem : Nat) (pgp : Pagepool) : Pagepool :=
  pgp.setBkt mem fun b => { b with waiters := b.waiters + 1, wqh := ⟨self, false⟩ :: b.wqh }

def unqueue (self : Nat) (flags : PageFlags) (b : Bkt) : Bkt :=
  applyFlags flags { b with waiters := b.waiters - 1, wqh := b.wqh.dropLast, ref := b.ref + 1,
                            owner := self, pinned := true }

def endWait (self mem : Nat) (flags : PageFlags) : Prog Pagepool ε Nat := do
  let pgp ← Prog.read
  if (pgp.bkt mem).wqh.getLast?.map Waiter.tid = some self then
    Prog.modify fun p => ((p.setBkt mem (unqueue self flags)).unlink mem).link mem
    pure mem
  else Prog.halt .abort

def wakeLast : List Waiter → List Waiter
  | [] => []
  | [w] => [{ w with wakeup := true }]
  | w :: ws => w :: wakeLast ws

/-- What `ffdb_pagepool_put_page` does to the entry. -/
def release (dirty : Bool) (b : Bkt) : Bkt :=
  { b with
    dirty := b.dirty || dirty
    ref := b.ref - 1
    owner := 0
    pinned := false
    wqh := if 0 < b.waiters then wakeLast b.wqh else b.wqh }

/-- `ffdb_pagepool_put_page`. -/
def putPage (mem : Nat) (dirty : Bool) : Prog Pagepool ε Unit := do
  let pgp ← Prog.read
  if (pgp.bkt mem).pinned then Prog.modify fun p => p.setBkt mem (release dirty)
  else Prog.halt .abort

/-- The renumbering of `ffdb_pagepool_change_page`. -/
def renumber (pgp : Pagepool) (mem newpagenum : Nat) : Pagepool :=
  let oldpagenum := (pgp.bkt mem).pgno
  let pgp := pgp.unlink mem
  let pgp := pgp.setBkt mem fun b =>
    { b with dirty := true, ref := b.ref - 1, pgno := newpagenum, owner := 0, pinned := false }
  let pgp := pgp.link mem
  let pgp := { pgp with npages := if pgp.npages ≤ newpagenum then newpagenum + 1 else pgp.npages }
  pgp.cleanPageOndisk oldpagenum

/-- `ffdb_pagepool_change_page`; `true` is `EAGAIN`. -/
def changePage (mem newpagenum : Nat) : Prog Pagepool ε Bool := do
  let pgp ← Prog.read
  if (pgp.bkt mem).pinned then
    if 0 < (pgp.bkt mem).waiters then
      putPage mem false
      pure true
    else
      Prog.modify fun p => p.renumber mem newpagenum
      pure false
  else Prog.halt .abort

/-- `ffdb_pagepool_delete`; `true` when the page has left the cache. -/
def delete (mem : Nat) : Prog Pagepool ε Bool := do
  let pgp ← Prog.read
  if (pgp.bkt mem).ref = 1 then
    if (pgp.bkt mem).pinned then
      if 0 < (pgp.bkt mem).waiters then pure false
      else
        if (pgp.bkt mem).dirty then Prog.modify fun p => p.write mem
        Prog.modify fun p => p.unlink mem
        Prog.modify fun p => { p with curcache := p.curcache - 1 }
        pure true
    else Prog.halt .abort
  else pure false

def store (mem : Nat) (f : Page → Page) : Prog Pagepool ε Unit :=
  Prog.modify fun p => p.setBkt mem fun b => { b with page := f b.page }

/-- `ffdb_pagepool_create`, `ffdb_pagepool_open_fd` and `ffdb_pagepool_filter` on a file;
`mem` is the memory the process has to give. -/
def openFd (file : Pagefile) (mem : Nat → Bkt) (rdonly : Bool) (maxcache : Nat)
    (pgin : Nat → Page → Option Page) (pgout : Nat → Page → Page) : Pagepool where
  lqh := []
  hqh := fun _ => []
  bkt := mem
  brk := 0
  curcache := 0
  maxcache := maxcache
  npages := file.length
  maxpgno := file.length
  rdonly := rdonly
  pgin := pgin
  pgout := pgout
  file := file

/-- `ffdb_pagepool_close`: the file that is left. -/
def close (pgp : Pagepool) : Pagefile := pgp.sync.file

end Pagepool
end FileHash
