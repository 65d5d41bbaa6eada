import FileHash.Lib.Rings
import FileHash.Lib.Simulation
import FileHash.PoolThreads
import Mathlib.Data.List.Perm.Subperm

/-! The queues of the page pool as the pool keeps them: an entry is on the LRU list by one pair of
links, and on the hash chain of its page number by another. Every call on the pool does with these
links what it does with lists. -/
namespace FileHash

open Lib (Prog Rings)
open Lib.Prog (Simulates simulates_mono simulates_pure simulates_halt simulates_modify simulates_read_bind
  simulates_bind simulates_ite)

/-- The pool with its queues in memory. What `base` has for them is of no account. -/
structure Ptrpool where
  base : Pagepool
  lru : Rings Unit Nat
  chains : Rings Nat Nat

namespace Ptrpool

variable {ε : Type}

def foreachLru : Prog Ptrpool ε (List Nat) := do
  let q ← Prog.read
  match Rings.visits q.lru.next () q.base.brk (q.lru.first ()) with
  | some l => pure l
  | none => Prog.halt .diverge

def foreachChain (k : Nat) : Prog Ptrpool ε (List Nat) := do
  let q ← Prog.read
  match Rings.visits q.chains.next k q.base.brk (q.chains.first k) with
  | some l => pure l
  | none => Prog.halt .diverge

def onBase (f : Pagepool → Pagepool) : Prog Ptrpool ε Unit := Prog.modify fun q => { q with base := f q.base }

/-- `FFDB_CIRCLEQ_REMOVE` from the hash chain and from the LRU list. -/
def unlink (id : Nat) : Prog Ptrpool ε Unit := do
  let q ← Prog.read
  match q.chains.remove (hashKey (q.base.bkt id).pgno) id with
  | none => Prog.halt .segv
  | some chains =>
    match q.lru.remove () id with
    | none => Prog.halt .segv
    | some lru => Prog.modify fun q => { q with lru := lru, chains := chains }

/-- `FFDB_CIRCLEQ_INSERT_HEAD` on the hash chain, `FFDB_CIRCLEQ_INSERT_TAIL` on the LRU list. -/
def link (id : Nat) : Prog Ptrpool ε Unit := do
  let q ← Prog.read
  match q.chains.insertHead (hashKey (q.base.bkt id).pgno) id with
  | none => Prog.halt .segv
  | some chains =>
    match q.lru.insertTail () id with
    | none => Prog.halt .segv
    | some lru => Prog.modify fun q => { q with lru := lru, chains := chains }

/-- `_ffdb_pagepool_sync_i`. -/
def syncI (numpages : Nat) : Prog Ptrpool ε Unit := do
  let all ← foreachLru
  onBase fun p => p.writeList ({ p with lqh := all }.syncList numpages)

/-- `_ffdb_pagepool_reuse_bkt`, once a victim is found. -/
def evict (self id : Nat) : Prog Ptrpool ε Unit := do
  let q ← Prog.read
  let needwrite := (q.base.bkt id).dirty
  if needwrite then
    onBase fun p => p.write id
    unlink id
    onBase fun p => p.setBkt id (Pagepool.freshBkt self)
    syncI (q.base.maxcache / ffdbWriteFrac)
  else
    unlink id
    onBase fun p => p.setBkt id (Pagepool.freshBkt self)

def obtainBkt (self : Nat) : Prog Ptrpool ε Nat := do
  let q ← Prog.read
  if q.base.maxcache < q.base.curcache then
    let lqh ← foreachLru
    if lqh = [] then Prog.halt .abort
    else
      match lqh.find? fun id => Pagepool.evictable (q.base.bkt id) with
      | some id =>
        evict self id
        pure id
      | none =>
        onBase fun p => (Pagepool.newBkt self p).2
        pure q.base.brk
  else
    onBase fun p => (Pagepool.newBkt self p).2
    pure q.base.brk

/-- `_ffdb_pagepool_load_new_page`. -/
def loadNewPage (self pageno : Nat) (flags : PageFlags) : Prog Ptrpool ε Nat := do
  let id ← obtainBkt self
  let q ← Prog.read
  onBase fun p => p.setBkt id fun b =>
    Pagepool.applyFlags flags { b with page := p.file.read pageno, pgno := pageno, owner := self,
                                       ref := 1, waiters := 0 }
  link id
  match q.base.pgin pageno (q.base.file.read pageno) with
  | none => Prog.halt .exit
  | some page =>
    onBase fun p => p.setBkt id fun b => { b with page := page }
    pure id

/-- `_ffdb_pagepool_new_page_i`. -/
def newPageI (self pageno : Nat) (flags : PageFlags) : Prog Ptrpool ε (Nat × Nat) := do
  let q ← Prog.read
  if q.base.maxpgno = maxPageNumber then Prog.halt .abort
  else
    let id ← obtainBkt self
    let pgno := if flags.request then pageno else q.base.maxpgno + 1
    onBase fun p => { p with maxpgno := max p.maxpgno pgno }
    onBase fun p => p.setBkt id fun b => Pagepool.applyFlags flags { b with pgno := pgno, ref := 1, owner := self }
    link id
    onBase fun p => p.setBkt id fun b => { b with page := b.page.fill 0 cleanhdrSize 0 }
    pure (id, pgno)

/-- `ffdb_pagepool_get_page`, up to the point where it returns or begins to wait. -/
def getPage (self pageno : Nat) (flags : PageFlags) : Prog Ptrpool ε Pagepool.GetResult := do
  let q ← Prog.read
  if flags.dirty ∧ q.base.rdonly then pure .error
  else if flags.new then
    if flags.create then pure .error
    else
      let r ← newPageI self pageno flags
      pure (.page r.1)
  else
    let chain ← foreachChain (hashKey pageno)
    match chain.find? fun id => (q.base.bkt id).pgno == pageno with
    | some id =>
      if Pagepool.mustWait self (q.base.bkt id) then pure (.wait id)
      else
        onBase fun p => p.setBkt id fun b => Pagepool.applyFlags flags (Pagepool.hold self b)
        unlink id
        link id
        pure (.page id)
    | none =>
      if flags.create ∧ q.base.npages ≤ pageno then
        let r ← newPageI self pageno { flags with request := true }
        pure (.page r.1)
      else
        let id ← loadNewPage self pageno flags
        pure (.page id)

/-- The caller of `ffdb_pagepool_get_page` returns from its wait. -/
def endWait (self mem : Nat) (flags : PageFlags) : Prog Ptrpool ε Nat := do
  let q ← Prog.read
  if (q.base.bkt mem).wqh.getLast?.map Waiter.tid = some self then
    onBase fun p => p.setBkt mem (Pagepool.unqueue self flags)
    unlink mem
    link mem
    pure mem
  else Prog.halt .abort

/-- `ffdb_pagepool_put_page`. -/
def putPage (mem : Nat) (dirty : Bool) : Prog Ptrpool ε Unit := do
  let q ← Prog.read
  if (q.base.bkt mem).pinned then onBase fun p => p.setBkt mem (Pagepool.release dirty)
  else Prog.halt .abort

/-- The renumbering of `ffdb_pagepool_change_page`. -/
def renumber (mem newpagenum : Nat) : Prog Ptrpool ε Unit := do
  let q ← Prog.read
  unlink mem
  onBase fun p => p.setBkt mem fun b =>
    { b with dirty := true, ref := b.ref - 1, pgno := newpagenum, owner := 0, pinned := false }
  link mem
  onBase fun p => { p with npages := if p.npages ≤ newpagenum then newpagenum + 1 else p.npages }
  onBase fun p => p.cleanPageOndisk (q.base.bkt mem).pgno

/-- `ffdb_pagepool_change_page`; `true` is `EAGAIN`. -/
def changePage (mem newpagenum : Nat) : Prog Ptrpool ε Bool := do
  let q ← Prog.read
  if (q.base.bkt mem).pinned then
    if 0 < (q.base.bkt mem).waiters then
      putPage mem false
      pure true
    else
      renumber mem newpagenum
      pure false
  else Prog.halt .abort

/-- `ffdb_pagepool_delete`; `true` when the page has left the cache. -/
def delete (mem : Nat) : Prog Ptrpool ε Bool := do
  let q ← Prog.read
  if (q.base.bkt mem).ref = 1 then
    if (q.base.bkt mem).pinned then
      if 0 < (q.base.bkt mem).waiters then pure false
      else if (q.base.bkt mem).dirty then
        onBase fun p => p.write mem
        unlink mem
        onBase fun p => { p with curcache := p.curcache - 1 }
        pure true
      else
        unlink mem
        onBase fun p => { p with curcache := p.curcache - 1 }
        pure true
    else Prog.halt .abort
  else pure false

/-- The end of `ffdb_pagepool_close`: entries are freed from the first on while there is a first. -/
def drain : Nat → Prog Ptrpool ε (List Nat)
  | 0 => Prog.halt .diverge
  | fuel + 1 => do
    let q ← Prog.read
    match q.lru.first () with
    | .head _ => pure []
    | .node id =>
      match q.lru.remove () id with
      | none => Prog.halt .segv
      | some lru =>
        Prog.modify fun q => { q with lru := lru }
        let freed ← drain fuel
        pure (id :: freed)

end Ptrpool

namespace Pagepool

variable {ε α : Type} {pgp : Pagepool} {q : Ptrpool} {id : Nat} {P : Pagepool → Prop} {Q : α → Pagepool → Prop}

def bare (pgp : Pagepool) : Pagepool := { pgp with lqh := [], hqh := fun _ => [] }

theorem bare_writeList (l : List Nat) : pgp.bare.writeList l = (pgp.writeList l).bare := by
  induction l generalizing pgp with
  | nil => rfl
  | cons id l ih =>
    simp only [writeList, List.foldl_cons]
    split
    · rename_i dirty
      rw [if_pos (show (pgp.bkt id).dirty = true from dirty)]
      exact @ih (pgp.write id)
    · rename_i clean
      rw [if_neg (show ¬(pgp.bkt id).dirty = true from clean)]
      exact ih

structure Threaded (pgp : Pagepool) (q : Ptrpool) : Prop where
  base : q.base = pgp.bare
  lru : q.lru.Holds fun _ => pgp.lqh
  chains : q.chains.Holds pgp.hqh

structure Aside (id : Nat) (pgp : Pagepool) : Prop where
  chained : pgp.Chained
  out : id ∉ pgp.lqh
  low : id < pgp.brk

structure Lists (id : Nat) (pgp : Pagepool) : Prop where
  chained : pgp.Chained
  mem : id ∈ pgp.lqh

theorem Chained.length_le (h : pgp.Chained) {l : List Nat} (nodup : l.Nodup) (sub : ∀ id ∈ l, id ∈ pgp.lqh) :
    l.length ≤ pgp.brk := by
  have inside : l ⊆ List.range pgp.brk := fun id mem => List.mem_range.mpr (h.below id (sub id mem))
  simpa using (List.Nodup.subperm nodup inside).length_le

namespace Threaded

theorem foreachLru (rel : pgp.Threaded q) (h : pgp.Chained) :
    (Ptrpool.foreachLru : Prog Ptrpool ε (List Nat)).run q = (.ok pgp.lqh q, []) := by
  have low : pgp.lqh.length ≤ q.base.brk := by
    rw [rel.base]
    exact h.length_le h.nodup fun _ mem => mem
  have visited := rel.lru.foreach (k := ()) low
  unfold Ptrpool.foreachLru
  rw [Prog.run_read_bind, visited]
  rfl

theorem foreachChain (rel : pgp.Threaded q) (h : pgp.Chained) (k : Nat) :
    (Ptrpool.foreachChain k : Prog Ptrpool ε (List Nat)).run q = (.ok (pgp.hqh k) q, []) := by
  have low : (pgp.hqh k).length ≤ q.base.brk := by
    rw [rel.base]
    exact h.length_le (h.chainNodup k) fun id mem => ((h.chain id k).mp mem).1
  have visited := rel.chains.foreach (k := k) low
  unfold Ptrpool.foreachChain
  rw [Prog.run_read_bind, visited]
  rfl

theorem looks {β : Type} {b : β} {m : Prog Pagepool ε α} {n : Prog Ptrpool ε β} {l : β → Prog Ptrpool ε α}
    (finds : ∀ pgp q, pgp.Threaded q → P pgp → n.run q = (.ok b q, [])) (rest : Simulates Threaded P m (l b) Q) :
    Simulates Threaded P m (n >>= l) Q := by
  intro pgp q rel pre
  have step := rest pgp q rel pre
  rw [Prog.run_bind (finds pgp q rel pre)]
  exact step

theorem onBase {f g : Pagepool → Pagepool} {Q : Unit → Pagepool → Prop}
    (bare : ∀ pgp, P pgp → g pgp.bare = (f pgp).bare)
    (lqh : ∀ pgp, (f pgp).lqh = pgp.lqh) (hqh : ∀ pgp, (f pgp).hqh = pgp.hqh) (after : ∀ pgp, P pgp → Q () (f pgp)) :
    Simulates Threaded P (Prog.modify f : Prog Pagepool ε Unit) (Ptrpool.onBase g) Q :=
  simulates_modify fun pgp q rel pre => ⟨⟨by rw [rel.base, bare pgp pre], by rw [lqh]; exact rel.lru,
    by rw [hqh]; exact rel.chains⟩, after pgp pre⟩

theorem unlink (id : Nat) : Simulates Threaded (Lists id) (Prog.modify fun pgp => pgp.unlink id : Prog Pagepool ε Unit)
    (Ptrpool.unlink id) fun _ => Aside id := by
  intro pgp q rel pre
  have number : (q.base.bkt id).pgno = (pgp.bkt id).pgno := by rw [rel.base]; rfl
  have on_chain : id ∈ pgp.hqh (hashKey (pgp.bkt id).pgno) := (pre.chained.chain _ _).mpr ⟨pre.mem, rfl⟩
  obtain ⟨chains, gone, holds⟩ := rel.chains.remove on_chain
  obtain ⟨lru, gone', holds'⟩ := rel.lru.remove (k := ()) pre.mem
  refine ⟨⟨q.base, lru, chains⟩, ?_, ⟨rel.base, ?_, holds⟩, pre.chained.unlink id, pre.chained.not_mem_unlink,
    pre.chained.below id pre.mem⟩
  · unfold Ptrpool.unlink
    rw [Prog.run_read_bind, number, gone, gone']
    rfl
  · rwa [Function.update_eq_const_of_subsingleton] at holds'

theorem link (id : Nat) : Simulates Threaded (Aside id) (Prog.modify fun pgp => pgp.link id : Prog Pagepool ε Unit)
    (Ptrpool.link id) fun _ => Lists id := by
  intro pgp q rel pre
  have number : (q.base.bkt id).pgno = (pgp.bkt id).pgno := by rw [rel.base]; rfl
  obtain ⟨chains, came, holds⟩ := rel.chains.insertHead (k := hashKey (pgp.bkt id).pgno) fun k mem =>
    pre.out ((pre.chained.chain id k).mp mem).1
  obtain ⟨lru, came', holds'⟩ := rel.lru.insertTail (k := ()) fun _ => pre.out
  refine ⟨⟨q.base, lru, chains⟩, ?_, ⟨rel.base, ?_, holds⟩, pre.chained.link pre.out pre.low, ?_⟩
  · unfold Ptrpool.link
    rw [Prog.run_read_bind, number, came, came']
    rfl
  · rwa [Function.update_eq_const_of_subsingleton] at holds'
  · exact List.mem_append_right _ List.mem_cons_self

theorem syncI (numpages : Nat) {Q : Unit → Pagepool → Prop} (chained : ∀ pgp, P pgp → pgp.Chained)
    (after : ∀ pgp, P pgp → Q () (pgp.syncI numpages)) :
    Simulates Threaded P (Prog.modify fun pgp => pgp.syncI numpages : Prog Pagepool ε Unit)
      (Ptrpool.syncI numpages) Q := by
  intro pgp q rel pre
  have written : q.base.writeList ({ q.base with lqh := pgp.lqh }.syncList numpages) = (pgp.syncI numpages).bare := by
    rw [rel.base]
    exact bare_writeList _
  have lqh : (pgp.syncI numpages).lqh = pgp.lqh := writeList_lqh _
  have hqh : (pgp.syncI numpages).hqh = pgp.hqh := writeList_hqh _
  refine ⟨⟨(pgp.syncI numpages).bare, q.lru, q.chains⟩, ?_, ⟨rfl, lqh ▸ rel.lru, hqh ▸ rel.chains⟩, after pgp pre⟩
  unfold Ptrpool.syncI
  rw [Prog.run_bind (rel.foreachLru (chained pgp pre)), ← written]
  rfl

theorem setBkt {f : Bkt → Bkt} {Q : Unit → Pagepool → Prop} (id : Nat) (after : ∀ pgp, P pgp → Q () (pgp.setBkt id f)) :
    Simulates Threaded P (Prog.modify fun pgp => pgp.setBkt id f : Prog Pagepool ε Unit)
      (Ptrpool.onBase fun pgp => pgp.setBkt id f) Q :=
  onBase (fun _ _ => rfl) (fun _ => rfl) (fun _ => rfl) after

theorem write {Q : Unit → Pagepool → Prop} (id : Nat) (after : ∀ pgp, P pgp → Q () (pgp.write id)) :
    Simulates Threaded P (Prog.modify fun pgp => pgp.write id : Prog Pagepool ε Unit)
      (Ptrpool.onBase fun pgp => pgp.write id) Q :=
  onBase (fun _ _ => rfl) (fun _ => rfl) (fun _ => rfl) after

end Threaded

theorem Aside.setBkt (h : Aside id pgp) (f : Bkt → Bkt) : Aside id (pgp.setBkt id f) :=
  ⟨h.chained.setBkt_of_not_mem h.out, h.out, h.low⟩

theorem Aside.syncI (h : Aside id pgp) (n : Nat) : Aside id (pgp.syncI n) := by
  refine ⟨h.chained.syncI n, ?_, ?_⟩
  · rw [Pagepool.syncI, writeList_lqh]
    exact h.out
  · rw [Pagepool.syncI, writeList_brk]
    exact h.low

theorem Chained.written (h : pgp.Chained) (id : Nat) : (pgp.write id).Chained :=
  h.congr rfl rfl rfl fun j _ => by
    by_cases same : j = id
    · rw [same, write_bkt_same]
    · rw [write_bkt_other same]

theorem Lists.setBkt (h : Lists id pgp) {f : Bkt → Bkt} (keep : ∀ b, (f b).pgno = b.pgno) :
    Lists id (pgp.setBkt id f) :=
  ⟨h.chained.setBkt (keep _), h.mem⟩

theorem Lists.write (h : Lists id pgp) : Lists id (pgp.write id) := ⟨h.chained.written id, h.mem⟩

/-- The steps of `evict` one after another. -/
theorem modify_evict (self id : Nat) : (Prog.modify fun pgp => evict self pgp id : Prog Pagepool ε Unit) = (do
    let pgp ← Prog.read
    if (pgp.bkt id).dirty then
      Prog.modify fun pgp => pgp.write id
      Prog.modify fun pgp => pgp.unlink id
      Prog.modify fun pgp => pgp.setBkt id (freshBkt self)
      Prog.modify fun p => p.syncI (pgp.maxcache / ffdbWriteFrac)
    else
      Prog.modify fun pgp => pgp.unlink id
      Prog.modify fun pgp => pgp.setBkt id (freshBkt self)) := by
  refine congrArg Prog.mk (funext fun pgp => ?_)
  change _ = Prog.run (if (pgp.bkt id).dirty = true then _ else _) pgp
  by_cases dirty : (pgp.bkt id).dirty
  · simp only [evict, if_pos dirty]
    rfl
  · simp only [evict, if_neg dirty]
    rfl

namespace Threaded

theorem evict (self id : Nat) : Simulates Threaded (Lists id)
    (Prog.modify fun pgp => Pagepool.evict self pgp id : Prog Pagepool ε Unit) (Ptrpool.evict self id)
      fun _ => Aside id := by
  rw [modify_evict]
  refine simulates_read_bind fun pgp q rel _ => ?_
  have base := rel.base
  obtain ⟨base', lru, chains⟩ := q
  cases base
  refine simulates_mono (P := Lists id) ?_ (fun _ pre => pre.2) fun _ _ post => post
  refine simulates_ite Iff.rfl (fun _ => ?_) fun _ => ?_
  · refine simulates_bind (write id fun _ pre => pre.write) fun _ => simulates_bind (unlink id) fun _ => ?_
    refine simulates_bind (setBkt (Q := fun _ => Aside id) id fun _ pre => pre.setBkt _) fun _ => ?_
    exact syncI _ (fun _ pre => pre.chained) fun _ pre => pre.syncI _
  · exact simulates_bind (unlink id) fun _ => setBkt id fun _ pre => pre.setBkt _

theorem newBkt (self : Nat) {brk : Nat} : Simulates Threaded (fun pgp => pgp.brk = brk ∧ pgp.Chained)
    (Prog.modify fun pgp => (Pagepool.newBkt self pgp).2 : Prog Pagepool ε Unit)
    (Ptrpool.onBase fun pgp => (Pagepool.newBkt self pgp).2) fun _ => Aside brk := by
  refine onBase (fun _ _ => rfl) (fun _ => rfl) (fun _ => rfl) ?_
  rintro pgp ⟨rfl, chained⟩
  have new : Recycled pgp pgp.brk (Pagepool.newBkt self pgp).2 := recycled_newBkt chained
  exact ⟨new.chained, new.out, new.low⟩

theorem obtainBkt (self : Nat) : Simulates Threaded Chained (Pagepool.obtainBkt self : Prog Pagepool ε Nat)
    (Ptrpool.obtainBkt self) Aside := by
  refine simulates_read_bind fun pgp q rel pre => ?_
  have base := rel.base
  obtain ⟨base', lru, chains⟩ := q
  cases base
  have fresh : Simulates Threaded (fun p => p = pgp ∧ p.Chained)
      (do Prog.modify fun p => (Pagepool.newBkt self p).2; pure pgp.brk : Prog Pagepool ε Nat)
      (do Ptrpool.onBase fun p => (Pagepool.newBkt self p).2; pure pgp.brk) Aside := by
    refine simulates_bind (simulates_mono (newBkt self) ?_ fun _ _ post => post) fun _ =>
      simulates_pure fun _ post => post
    rintro _ ⟨rfl, chained⟩
    exact ⟨rfl, chained⟩
  refine simulates_ite Iff.rfl (fun _ => looks (b := pgp.lqh) ?_ ?_) fun _ => fresh
  · rintro _ q' rel' ⟨rfl, chained⟩
    exact rel'.foreachLru chained
  · refine simulates_ite Iff.rfl (fun _ => simulates_halt _) fun _ => ?_
    dsimp only [bare]
    cases found : pgp.lqh.find? fun id => evictable (pgp.bkt id) with
    | none => exact fresh
    | some id =>
      refine simulates_bind (simulates_mono (evict self id) ?_ fun _ _ post => post) fun _ =>
        simulates_pure fun _ post => post
      rintro _ ⟨rfl, chained⟩
      exact ⟨chained, List.mem_of_find?_eq_some found⟩

theorem loadNewPage (self pageno : Nat) (flags : PageFlags) : Simulates Threaded Chained
    (Pagepool.loadNewPage self pageno flags : Prog Pagepool ε Nat) (Ptrpool.loadNewPage self pageno flags) Lists := by
  refine simulates_bind (obtainBkt self) fun id => simulates_read_bind fun pgp q rel pre => ?_
  have base := rel.base
  obtain ⟨base', lru, chains⟩ := q
  cases base
  refine simulates_mono (P := Aside id) ?_ (fun _ pre => pre.2) fun _ _ post => post
  refine simulates_bind (onBase (Q := fun _ => Aside id) (fun _ _ => rfl) (fun _ => rfl) (fun _ => rfl)
    fun _ pre => pre.setBkt _) fun _ => simulates_bind (link id) fun _ => ?_
  dsimp only [bare]
  cases pgp.pgin pageno (pgp.file.read pageno) with
  | none => exact simulates_halt _
  | some page =>
    refine simulates_bind (setBkt (Q := fun _ => Lists id) id fun _ pre => pre.setBkt fun _ => rfl) fun _ => ?_
    exact simulates_pure fun _ post => post

theorem newPageI (self pageno : Nat) (flags : PageFlags) : Simulates Threaded Chained
    (Pagepool.newPageI self pageno flags : Prog Pagepool ε (Nat × Nat)) (Ptrpool.newPageI self pageno flags)
      fun r => Lists r.1 := by
  refine simulates_read_bind fun pgp q rel pre => ?_
  have base := rel.base
  obtain ⟨base', lru, chains⟩ := q
  cases base
  refine simulates_ite Iff.rfl (fun _ => simulates_halt _) fun _ => ?_
  refine simulates_bind (simulates_mono (obtainBkt self) (fun _ pre => pre.2) fun _ _ post => post) fun id => ?_
  refine simulates_bind (onBase (Q := fun _ => Aside id) (fun _ _ => rfl) (fun _ => rfl) (fun _ => rfl)
    fun _ pre => ⟨pre.chained.congr rfl rfl rfl fun _ _ => rfl, pre.out, pre.low⟩) fun _ => ?_
  refine simulates_bind (setBkt (Q := fun _ => Aside id) id fun _ pre => pre.setBkt _) fun _ =>
    simulates_bind (link id) fun _ => ?_
  refine simulates_bind (setBkt (Q := fun _ => Lists id) id fun _ pre => pre.setBkt fun _ => rfl) fun _ => ?_
  exact simulates_pure fun _ post => post

theorem requeue (id : Nat) {m : Prog Pagepool ε α} {n : Prog Ptrpool ε α} (rest : Simulates Threaded (Lists id) m n Q) :
    Simulates Threaded (Lists id)
      (do Prog.modify fun pgp => pgp.unlink id; Prog.modify fun pgp => pgp.link id; m)
      (do Ptrpool.unlink id; Ptrpool.link id; n) Q :=
  simulates_bind (unlink id) fun _ => simulates_bind (link id) fun _ => rest

theorem getPage (self pageno : Nat) (flags : PageFlags) : Simulates Threaded Chained
    (Pagepool.getPage self pageno flags : Prog Pagepool ε GetResult) (Ptrpool.getPage self pageno flags)
      fun _ => Chained := by
  refine simulates_read_bind fun pgp q rel pre => ?_
  have base := rel.base
  obtain ⟨base', lru, chains⟩ := q
  cases base
  have known : ∀ p, p = pgp ∧ p.Chained → p.Chained := fun _ pre => pre.2
  refine simulates_ite Iff.rfl (fun _ => simulates_pure known) fun _ => ?_
  refine simulates_ite Iff.rfl (fun _ => simulates_ite Iff.rfl (fun _ => simulates_pure known) fun _ => ?_) fun _ => ?_
  · refine simulates_bind (simulates_mono (newPageI self pageno flags) known fun _ _ post => post) fun r => ?_
    exact simulates_pure fun _ post => post.chained
  · refine looks (b := pgp.hqh (hashKey pageno)) ?_ ?_
    · rintro _ q' rel' ⟨rfl, chained⟩
      exact rel'.foreachChain chained _
    have search : ((pgp.hqh (hashKey pageno)).find? fun id => (pgp.bkt id).pgno == pageno) = pgp.find pageno := rfl
    dsimp only [bare]
    rw [search]
    cases found : pgp.find pageno with
    | some id =>
      refine simulates_ite Iff.rfl (fun _ => simulates_pure known) fun _ => ?_
      have held : Simulates Threaded (Lists id)
          (do Prog.modify fun p => p.setBkt id fun b => applyFlags flags (hold self b)
              Prog.modify fun p => p.unlink id
              Prog.modify fun p => p.link id
              pure (.page id) : Prog Pagepool ε GetResult)
          (do Ptrpool.onBase fun p => p.setBkt id fun b => applyFlags flags (hold self b)
              Ptrpool.unlink id
              Ptrpool.link id
              pure (.page id)) fun _ => Chained := by
        refine simulates_bind (setBkt (Q := fun _ => Lists id) id fun _ pre => pre.setBkt fun b => ?_) fun _ => ?_
        · unfold applyFlags hold
          dsimp only
          split <;> rfl
        · exact requeue id (simulates_pure fun _ post => post.chained)
      refine simulates_mono held ?_ fun _ _ post => post
      rintro _ ⟨rfl, chained⟩
      exact ⟨chained, (chained.of_find found).1⟩
    | none =>
      refine simulates_ite Iff.rfl (fun _ => ?_) fun _ => ?_
      · refine simulates_bind (simulates_mono (newPageI self pageno _) known fun _ _ post => post) fun r => ?_
        exact simulates_pure fun _ post => post.chained
      · refine simulates_bind (simulates_mono (loadNewPage self pageno flags) known fun _ _ post => post) fun id => ?_
        exact simulates_pure fun _ post => post.chained

theorem endWait (self mem : Nat) (flags : PageFlags) : Simulates Threaded (Lists mem)
    (Pagepool.endWait self mem flags : Prog Pagepool ε Nat) (Ptrpool.endWait self mem flags) fun _ => Chained := by
  refine simulates_read_bind fun pgp q rel pre => ?_
  have base := rel.base
  obtain ⟨base', lru, chains⟩ := q
  cases base
  refine simulates_mono (P := Lists mem) ?_ (fun _ pre => pre.2) fun _ _ post => post
  refine simulates_ite Iff.rfl (fun _ => ?_) fun _ => simulates_halt _
  change Simulates Threaded (Lists mem) (do
    Prog.modify fun p => p.setBkt mem (unqueue self flags)
    Prog.modify fun p => p.unlink mem
    Prog.modify fun p => p.link mem
    pure mem) _ _
  refine simulates_bind (setBkt (Q := fun _ => Lists mem) mem fun _ pre => pre.setBkt fun _ => rfl) fun _ => ?_
  exact requeue mem (simulates_pure fun _ post => post.chained)

theorem putPage (mem : Nat) (dirty : Bool) : Simulates Threaded Chained
    (Pagepool.putPage mem dirty : Prog Pagepool ε Unit) (Ptrpool.putPage mem dirty) fun _ => Chained := by
  refine simulates_read_bind fun pgp q rel pre => ?_
  have base := rel.base
  obtain ⟨base', lru, chains⟩ := q
  cases base
  refine simulates_ite Iff.rfl (fun _ => setBkt mem fun _ pre => pre.2.setBkt ?_) fun _ => simulates_halt _
  rfl

theorem renumber (mem n : Nat) : Simulates Threaded (Lists mem)
    (Prog.modify fun pgp => pgp.renumber mem n : Prog Pagepool ε Unit) (Ptrpool.renumber mem n) fun _ => Chained := by
  have steps : (Prog.modify fun pgp => pgp.renumber mem n : Prog Pagepool ε Unit) = (do
      let pgp ← Prog.read
      Prog.modify fun pgp => pgp.unlink mem
      Prog.modify fun pgp => pgp.setBkt mem fun b =>
        { b with dirty := true, ref := b.ref - 1, pgno := n, owner := 0, pinned := false }
      Prog.modify fun pgp => pgp.link mem
      Prog.modify fun pgp => { pgp with npages := if pgp.npages ≤ n then n + 1 else pgp.npages }
      Prog.modify fun p => p.cleanPageOndisk (pgp.bkt mem).pgno) := rfl
  rw [steps]
  refine simulates_read_bind fun pgp q rel pre => ?_
  have base := rel.base
  obtain ⟨base', lru, chains⟩ := q
  cases base
  refine simulates_mono (P := Lists mem) ?_ (fun _ pre => pre.2) fun _ _ post => post
  refine simulates_bind (unlink mem) fun _ => ?_
  refine simulates_bind (setBkt (Q := fun _ => Aside mem) mem fun _ pre => pre.setBkt _) fun _ =>
    simulates_bind (link mem) fun _ => ?_
  refine simulates_bind (onBase (Q := fun _ => Chained) (fun _ _ => rfl) (fun _ => rfl) (fun _ => rfl)
    fun _ pre => pre.chained.congr rfl rfl rfl fun _ _ => rfl) fun _ => ?_
  exact onBase (fun _ _ => rfl) (fun _ => rfl) (fun _ => rfl) fun _ pre => pre.congr rfl rfl rfl fun _ _ => rfl

theorem changePage (mem n : Nat) : Simulates Threaded (Lists mem)
    (Pagepool.changePage mem n : Prog Pagepool ε Bool) (Ptrpool.changePage mem n) fun _ => Chained := by
  refine simulates_read_bind fun pgp q rel pre => ?_
  have base := rel.base
  obtain ⟨base', lru, chains⟩ := q
  cases base
  refine simulates_mono (P := Lists mem) ?_ (fun _ pre => pre.2) fun _ _ post => post
  refine simulates_ite Iff.rfl (fun _ => simulates_ite Iff.rfl (fun _ => ?_) fun _ => ?_) fun _ => simulates_halt _
  · refine simulates_bind (simulates_mono (putPage mem false) (fun _ pre => pre.chained) fun _ _ post => post)
      fun _ => ?_
    exact simulates_pure fun _ post => post
  · exact simulates_bind (renumber mem n) fun _ => simulates_pure fun _ post => post

theorem delete (mem : Nat) : Simulates Threaded (Lists mem)
    (Pagepool.delete mem : Prog Pagepool ε Bool) (Ptrpool.delete mem) fun _ => Chained := by
  have leave : Simulates Threaded (Lists mem)
      (do Prog.modify fun p => p.unlink mem
          Prog.modify fun p => { p with curcache := p.curcache - 1 }
          pure true : Prog Pagepool ε Bool)
      (do Ptrpool.unlink mem
          Ptrpool.onBase fun p => { p with curcache := p.curcache - 1 }
          pure true) fun _ => Chained := by
    refine simulates_bind (unlink mem) fun _ => ?_
    refine simulates_bind (onBase (Q := fun _ => Chained) (fun _ _ => rfl) (fun _ => rfl) (fun _ => rfl)
      fun _ pre => pre.chained.congr rfl rfl rfl fun _ _ => rfl) fun _ => ?_
    exact simulates_pure fun _ post => post
  refine simulates_read_bind fun pgp q rel pre => ?_
  have base := rel.base
  obtain ⟨base', lru, chains⟩ := q
  cases base
  refine simulates_mono (P := Lists mem) ?_ (fun _ pre => pre.2) fun _ _ post => post
  have known : ∀ p, Lists mem p → p.Chained := fun _ pre => pre.chained
  refine simulates_ite Iff.rfl (fun _ => simulates_ite Iff.rfl
    (fun _ => simulates_ite Iff.rfl (fun _ => ?_) fun _ => ?_)
    fun _ => simulates_halt _) fun _ => simulates_pure known
  · exact simulates_pure known
  · refine simulates_ite Iff.rfl (fun _ => ?_) fun _ => leave
    exact simulates_bind (write (Q := fun _ => Lists mem) mem fun _ pre => pre.write) fun _ => leave

end Threaded

/-- The calls on a pool, of any threads. -/
inductive PoolCall where
  | get (tid pageno : Nat) (flags : PageFlags)
  | wait (tid mem : Nat)
  | wake (tid mem : Nat) (flags : PageFlags)
  | put (mem : Nat) (dirty : Bool)
  | store (mem : Nat) (f : Page → Page)
  | change (mem newpagenum : Nat)
  | delete (mem : Nat)
  | sync

inductive PoolAnswer where
  | got (r : GetResult)
  | entry (id : Nat)
  | flag (b : Bool)
  | done

def PoolCall.Known (pgp : Pagepool) : PoolCall → Prop
  | wake _ mem _ => mem ∈ pgp.lqh
  | change mem _ => mem ∈ pgp.lqh
  | delete mem => mem ∈ pgp.lqh
  | _ => True

def PoolCall.onLists : PoolCall → Prog Pagepool ε PoolAnswer
  | get tid pageno flags => do pure (.got (← getPage tid pageno flags))
  | wait tid mem => do Prog.modify fun p => p.beginWait tid mem; pure .done
  | wake tid mem flags => do pure (.entry (← endWait tid mem flags))
  | put mem dirty => do putPage mem dirty; pure .done
  | store mem f => do Pagepool.store mem f; pure .done
  | change mem n => do pure (.flag (← changePage mem n))
  | delete mem => do pure (.flag (← Pagepool.delete mem))
  | sync => do Prog.modify Pagepool.sync; pure .done

def PoolCall.onPointers : PoolCall → Prog Ptrpool ε PoolAnswer
  | get tid pageno flags => do pure (.got (← Ptrpool.getPage tid pageno flags))
  | wait tid mem => do Ptrpool.onBase fun p => p.beginWait tid mem; pure .done
  | wake tid mem flags => do pure (.entry (← Ptrpool.endWait tid mem flags))
  | put mem dirty => do Ptrpool.putPage mem dirty; pure .done
  | store mem f => do Ptrpool.onBase (fun p => p.setBkt mem fun b => { b with page := f b.page }); pure .done
  | change mem n => do pure (.flag (← Ptrpool.changePage mem n))
  | delete mem => do pure (.flag (← Ptrpool.delete mem))
  | sync => do Ptrpool.syncI 0; pure .done

theorem Threaded.call (c : PoolCall) : Simulates Threaded (fun pgp => pgp.Chained ∧ c.Known pgp)
    (c.onLists : Prog Pagepool ε PoolAnswer) c.onPointers fun _ => Chained := by
  have finish : ∀ {α : Type} (f : α → PoolAnswer) (a : α), Simulates Threaded Chained
    (pure (f a) : Prog Pagepool ε PoolAnswer)
      (pure (f a)) fun _ => Chained := fun _ _ => simulates_pure fun _ post => post
  have free : ∀ {d : PoolCall} (pgp : Pagepool), pgp.Chained ∧ d.Known pgp → pgp.Chained := fun _ pre => pre.1
  have mine : ∀ {mem : Nat} (pgp : Pagepool), pgp.Chained ∧ mem ∈ pgp.lqh → Lists mem pgp := fun _ pre => ⟨pre.1, pre.2⟩
  cases c with
  | get tid pageno flags =>
    exact simulates_bind (simulates_mono (getPage tid pageno flags) free fun _ _ post => post) (finish .got)
  | wait tid mem =>
    exact simulates_bind (setBkt mem fun pgp pre => pre.1.setBkt rfl) (finish fun _ => .done)
  | wake tid mem flags =>
    exact simulates_bind (simulates_mono (endWait tid mem flags) mine fun _ _ post => post) (finish .entry)
  | put mem dirty =>
    exact simulates_bind (simulates_mono (putPage mem dirty) free fun _ _ post => post) (finish fun _ => .done)
  | store mem f => exact simulates_bind (setBkt mem fun pgp pre => pre.1.setBkt rfl) (finish fun _ => .done)
  | change mem n =>
    exact simulates_bind (simulates_mono (changePage mem n) mine fun _ _ post => post) (finish .flag)
  | delete mem =>
    exact simulates_bind (simulates_mono (delete mem) mine fun _ _ post => post) (finish .flag)
  | sync => exact simulates_bind (syncI 0 free fun _ pre => pre.1.syncI 0) (finish fun _ => .done)

/-- What is left after some calls, with what they answered. -/
inductive Session {σ : Type} (exec : PoolCall → Prog σ Empty PoolAnswer) (may : σ → PoolCall → Prop) (start : σ) :
    List (PoolCall × PoolAnswer) → σ → Prop
  | open_ : Session exec may start [] start
  | call {log : List (PoolCall × PoolAnswer)} {s s' : σ} {a : PoolAnswer} {t : List Empty}
      (before : Session exec may start log s) (c : PoolCall) (allowed : may s c)
        (ran : (exec c).run s = (.ok a s', t)) :
      Session exec may start (log ++ [(c, a)]) s'

def openPtrs (pgp : Pagepool) (lru : Nat → Lib.Ptr Unit Nat) (chains : Nat → Lib.Ptr Nat Nat) : Ptrpool :=
  ⟨pgp.bare, Rings.init lru lru, Rings.init chains chains⟩

variable {file : Pagefile} {mem : Nat → Bkt} {rdonly : Bool} {maxcache : Nat} {pgin : Nat → Page → Option Page}
  {pgout : Nat → Page → Page} {log : List (PoolCall × PoolAnswer)}

theorem threaded_open (lru : Nat → Lib.Ptr Unit Nat) (chains : Nat → Lib.Ptr Nat Nat) :
    (openFd file mem rdonly maxcache pgin pgout).Threaded
      (openPtrs (openFd file mem rdonly maxcache pgin pgout) lru chains) :=
  ⟨rfl, Rings.Holds.init _ _, Rings.Holds.init _ _⟩

theorem session_threaded (lru : Nat → Lib.Ptr Unit Nat) (chains : Nat → Lib.Ptr Nat Nat)
    (run : Session PoolCall.onLists PoolCall.Known (openFd file mem rdonly maxcache pgin pgout) log pgp) :
    pgp.Chained ∧ ∃ q, Session PoolCall.onPointers (fun _ _ => True)
      (openPtrs (openFd file mem rdonly maxcache pgin pgout) lru chains) log q ∧ pgp.Threaded q := by
  induction run with
  | open_ => exact ⟨linked_openFd.toChained, _, .open_, threaded_open lru chains⟩
  | call before c known ran ih =>
    obtain ⟨chained, q, session, rel⟩ := ih
    obtain ⟨q', ran', rel', chained'⟩ := (Threaded.call c).returns rel ⟨chained, known⟩ ran
    exact ⟨chained', q', session.call c trivial ran', rel'⟩

/-- Every sequence of calls has the same answers on the links. The file, the entries and their pages are
then the same, the links are those of the lists in both directions, and a call that would end the
process ends it in the same way. -/
theorem pointers_follow (lru : Nat → Lib.Ptr Unit Nat) (chains : Nat → Lib.Ptr Nat Nat)
    (run : Session PoolCall.onLists PoolCall.Known (openFd file mem rdonly maxcache pgin pgout) log pgp) :
    ∃ q, Session PoolCall.onPointers (fun _ _ => True)
        (openPtrs (openFd file mem rdonly maxcache pgin pgout) lru chains) log q ∧
      q.base = pgp.bare ∧ q.lru.Holds (fun _ => pgp.lqh) ∧ q.chains.Holds pgp.hqh ∧
      ∀ c : PoolCall, c.Known pgp → ∀ why t, (c.onLists : Prog Pagepool Empty PoolAnswer).run pgp = (.halt why, t) →
        (c.onPointers : Prog Ptrpool Empty PoolAnswer).run q = (.halt why, t) := by
  obtain ⟨chained, q, session, rel⟩ := session_threaded lru chains run
  refine ⟨q, session, rel.base, rel.lru, rel.chains, fun c known why t halts => ?_⟩
  exact (Threaded.call c).halts rel ⟨chained, known⟩ halts

theorem drain_frees (lru : Rings Unit Nat) (base : Pagepool) (chains : Rings Nat Nat) {l : List Nat}
    (holds : lru.Holds fun _ => l) {fuel : Nat} (enough : l.length < fuel) :
    ∃ lru', (Ptrpool.drain fuel : Prog Ptrpool ε (List Nat)).run
      ⟨base, lru, chains⟩ = (.ok l ⟨base, lru', chains⟩, []) ∧
      lru'.Holds fun _ => [] := by
  induction l generalizing lru fuel with
  | nil =>
    obtain ⟨fuel, rfl⟩ := Nat.exists_eq_add_one_of_ne_zero (Nat.ne_of_gt enough)
    have first : lru.first () = .head () := holds.forward ()
    refine ⟨lru, ?_, holds⟩
    rw [Ptrpool.drain, Prog.run_read_bind, first]
    rfl
  | cons id l ih =>
    obtain ⟨fuel, rfl⟩ := Nat.exists_eq_add_one_of_ne_zero (Nat.ne_of_gt (Nat.lt_of_le_of_lt (Nat.zero_le _) enough))
    have first : lru.first () = .node id := (holds.forward ()).start
    obtain ⟨lru', gone, holds'⟩ := holds.remove (k := ()) (e := id) List.mem_cons_self
    rw [Function.update_eq_const_of_subsingleton, List.erase_cons_head] at holds'
    obtain ⟨lru'', ran, empty⟩ := ih lru' holds' (Nat.lt_of_succ_lt_succ enough)
    refine ⟨lru'', ?_, empty⟩
    rw [Ptrpool.drain, Prog.run_read_bind, first]
    dsimp only
    rw [gone]
    dsimp only
    rw [Prog.run_modify_bind, Prog.run_bind ran]
    rfl

/-- However the pool was used, its close frees each entry on the queues once, and no other. -/
theorem close_frees (lru : Nat → Lib.Ptr Unit Nat) (chains : Nat → Lib.Ptr Nat Nat)
    (run : Session PoolCall.onLists PoolCall.Known (openFd file mem rdonly maxcache pgin pgout) log pgp) :
    ∃ q q', Session PoolCall.onPointers (fun _ _ => True)
        (openPtrs (openFd file mem rdonly maxcache pgin pgout) lru chains) log q ∧
      (Ptrpool.drain (pgp.brk + 1) : Prog Ptrpool Empty (List Nat)).run q = (.ok pgp.lqh q', []) ∧
      q'.lru.Holds (fun _ => []) ∧ pgp.lqh.Nodup ∧ ∀ id, id ∈ pgp.lqh ↔ ∃ k, id ∈ pgp.hqh k := by
  obtain ⟨chained, q, session, rel⟩ := session_threaded lru chains run
  have enough : pgp.lqh.length < pgp.brk + 1 := Nat.lt_succ_of_le (chained.length_le chained.nodup fun _ mem => mem)
  obtain ⟨base, lru', chains'⟩ := q
  obtain ⟨lru'', ran, empty⟩ := drain_frees (ε := Empty) lru' base chains' rel.lru enough
  refine ⟨_, _, session, ran, empty, chained.nodup, fun id => ⟨fun mem => ?_, ?_⟩⟩
  · exact ⟨_, (chained.chain id _).mpr ⟨mem, rfl⟩⟩
  · rintro ⟨k, mem⟩
    exact ((chained.chain id k).mp mem).1

section Examples

attribute [local semireducible] hashKey

def twoSlots : Pagepool :=
  openFd ⟨0, fun _ _ => 0⟩ (fun _ => ⟨fun _ => 0, 0, 0, 0, false, false, false, false, 0, []⟩) false 2
    (fun _ c => some c) fun _ c => c

def smallLog : List (PoolCall × PoolAnswer) :=
  [(.get 1 3 { create := true }, .got (.page 0)), (.get 2 4 { create := true }, .got (.page 1)),
    (.get 1 16387 { create := true }, .got (.page 2)), (.put 1 true, .done), (.put 0 true, .done),
    (.get 2 3 {}, .got (.page 0)), (.get 1 5 { create := true }, .got (.page 1))]

theorem small_session : ∃ pgp, Session PoolCall.onLists PoolCall.Known twoSlots smallLog pgp ∧
    pgp.lqh = [2, 0, 1] ∧ pgp.hqh 2 = [0, 2] := by
  have none_ : Session PoolCall.onLists PoolCall.Known twoSlots [] twoSlots := .open_
  have first := none_.call (.get 1 3 { create := true }) trivial rfl
  have second := first.call (.get 2 4 { create := true }) trivial rfl
  have third := second.call (.get 1 16387 { create := true }) trivial rfl
  have fourth := third.call (.put 1 true) trivial rfl
  have fifth := fourth.call (.put 0 true) trivial rfl
  have sixth := fifth.call (.get 2 3 {}) trivial rfl
  refine ⟨_, sixth.call (.get 1 5 { create := true }) trivial rfl, ?_, ?_⟩
  · rfl
  · decide +kernel

theorem pointers_follow_small : ∃ q, Session PoolCall.onPointers (fun _ _ => True)
    (openPtrs twoSlots (fun _ => .head ()) fun _ => .head 0) smallLog q ∧ q.lru.Holds (fun _ => [2, 0, 1]) := by
  obtain ⟨pgp, run, lqh, _⟩ := small_session
  obtain ⟨q, session, _, lru, _⟩ := pointers_follow (fun _ => .head ()) (fun _ => .head 0) run
  exact ⟨q, session, lqh ▸ lru⟩

theorem close_frees_small : ∃ q q', Session PoolCall.onPointers (fun _ _ => True)
    (openPtrs twoSlots (fun _ => .head ()) fun _ => .head 0) smallLog q ∧ ∃ n,
      (Ptrpool.drain n : Prog Ptrpool Empty (List Nat)).run q = (.ok [2, 0, 1] q', []) := by
  obtain ⟨pgp, run, lqh, _⟩ := small_session
  obtain ⟨q, q', session, frees, _⟩ := close_frees (fun _ => .head ()) (fun _ => .head 0) run
  exact ⟨q, q', session, _, lqh ▸ frees⟩

end Examples

end Pagepool
end FileHash
