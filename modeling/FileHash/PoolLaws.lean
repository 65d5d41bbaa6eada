import FileHash.PoolEvolve

/-! One law for each operation of the page pool, for a thread that has the pool to
itself: what the call returns, what the page it hands out may hold, and what it
leaves as it was. What a page may hold is known of a sound pool only. -/
namespace FileHash.Pagepool

open Lib (Prog)

variable {tid p id n : Nat} {pgp pgp' mid : Pagepool} {b : Bkt} {ε : Type}

/-- The count of entries is the count of entries on the list. -/
def Counted (pgp : Pagepool) : Prop := pgp.curcache = pgp.lqh.length

theorem counted_requeue (counted : Counted pgp) (mem : id ∈ pgp.lqh) :
    Counted ((pgp.unlink id).link id) := by
  have pos := List.length_pos_of_mem mem
  have size := List.length_erase_of_mem mem
  simp only [Counted, link_curcache, unlink_curcache, link_lqh, unlink_lqh, List.length_append,
    List.length_singleton, size]
  rw [counted]
  omega

theorem writeList_bkt {l : List Nat} (out : id ∉ l) : (pgp.writeList l).bkt id = pgp.bkt id := by
  induction l generalizing pgp with
  | nil => rfl
  | cons j l ih =>
    rw [List.mem_cons, not_or] at out
    simp only [writeList, List.foldl_cons]
    split
    · exact (@ih (pgp.write j) out.2).trans (write_bkt_other out.1)
    · exact ih out.2

theorem syncI_bkt {n : Nat} (out : id ∉ pgp.lqh) : (pgp.syncI n).bkt id = pgp.bkt id :=
  writeList_bkt fun mem => out (mem_syncList mem).1

/-- What an entry is when it has just been obtained for a page. -/
structure Fresh (tid : Nat) (b : Bkt) : Prop where
  pinned : b.pinned = true
  dirty : b.dirty = false
  locked : b.locked = false
  waiters : b.waiters = 0
  wqh : b.wqh = []
  owner : b.owner = tid

/-- `id` is an entry off the lists, ready to take a page. -/
structure Obtained (tid : Nat) (pgp : Pagepool) (id : Nat) (pgp' : Pagepool) : Prop where
  evolves : Evolves tid pgp pgp'
  out : id ∉ pgp'.lqh
  low : id < pgp'.brk
  counted : pgp'.curcache = pgp'.lqh.length + 1
  fresh : Fresh tid (pgp'.bkt id)

theorem fresh_freshBkt {b : Bkt} (empty : b.wqh = []) : Fresh tid (freshBkt tid b) :=
  ⟨rfl, rfl, rfl, rfl, empty, rfl⟩

theorem obtained_drop (h : Tidy tid pgp) (counted : Counted pgp) (mem : id ∈ pgp.lqh)
    (clean : (pgp.bkt id).dirty = false) (free : (pgp.bkt id).pinned = false)
    (unlocked : (pgp.bkt id).locked = false) :
    Obtained tid pgp id ((pgp.unlink id).setBkt id (freshBkt tid)) := by
  have away := evolves_unlink h mem clean free unlocked
  have out : id ∉ (pgp.unlink id).lqh := h.linked.not_mem_unlink
  refine ⟨away.trans (evolves_setBkt away.tidy out _), out, h.linked.below id mem, ?_, ?_⟩
  · have size := List.length_erase_of_mem mem
    have pos := List.length_pos_of_mem mem
    simp only [setBkt_curcache, unlink_curcache, setBkt_lqh, unlink_lqh, size]
    rw [counted]
    omega
  · rw [setBkt_same]
    exact fresh_freshBkt (h.alone id mem).wqh

theorem Obtained.syncI (h : Obtained tid pgp id pgp') (n : Nat) :
    Obtained tid pgp id (pgp'.syncI n) where
  evolves := h.evolves.trans (evolves_syncI h.evolves.tidy n)
  out := by
    rw [Pagepool.syncI, writeList_lqh]
    exact h.out
  low := h.low.trans_le (evolves_syncI h.evolves.tidy n).brk
  counted := by
    rw [Pagepool.syncI, writeList_curcache, writeList_lqh]
    exact h.counted
  fresh := by
    rw [syncI_bkt h.out]
    exact h.fresh

theorem Evolves.obtained (h : Evolves tid pgp mid) (h' : Obtained tid mid id pgp') :
    Obtained tid pgp id pgp' :=
  ⟨h.trans h'.evolves, h'.out, h'.low, h'.counted, h'.fresh⟩

theorem obtained_evict (h : Tidy tid pgp) (counted : Counted pgp) (mem : id ∈ pgp.lqh)
    (can : evictable (pgp.bkt id)) : Obtained tid pgp id (evict tid pgp id) := by
  simp only [evictable, Bool.and_eq_true, Bool.not_eq_true'] at can
  obtain ⟨⟨unlocked, free⟩, _⟩ := can
  by_cases dirty : (pgp.bkt id).dirty
  · have one := evolves_write h mem dirty free
    have drop : Obtained tid (pgp.write id) id _ :=
      obtained_drop one.tidy counted mem (by rw [write_bkt_same])
        (by rw [write_bkt_same]; exact free) (by rw [write_bkt_same]; exact unlocked)
    simp only [evict, if_pos dirty]
    exact one.obtained (drop.syncI _)
  · simp only [evict, if_neg dirty]
    exact obtained_drop h counted mem (by simpa using dirty) free unlocked

theorem evolves_grow (h : Tidy tid pgp) :
    Evolves tid pgp { pgp with brk := pgp.brk + 1, curcache := pgp.curcache + 1 } := by
  have tidy : Tidy tid { pgp with brk := pgp.brk + 1, curcache := pgp.curcache + 1 } :=
    { linked := ⟨⟨h.linked.nodup, h.linked.chain, h.linked.chainNodup,
        fun j mem => (h.linked.below j mem).trans (Nat.lt_succ_self _)⟩, h.linked.unique⟩
      filters := h.filters
      alone := h.alone
      tail := h.tail }
  exact {
    tidy := tidy
    sound := fun s => ⟨tidy, s.readable, s.writable⟩
    pgin := rfl
    pgout := rfl
    rdonly := rfl
    maxcache := rfl
    maxpgno := rfl
    brk := Nat.le_succ _
    sub := fun _ mem => ⟨mem, .refl _⟩
    held := fun _ mem _ => ⟨mem, rfl⟩
    locked := fun _ mem _ => mem
    shows := fun _ _ _ s => s
    image := fun _ _ => rfl
    npages := le_rfl
    reached := fun r => r
    below := fun _ b => ⟨b.file, b.top, b.cache⟩
    saved := fun _ _ s => s }

theorem obtained_newBkt (h : Tidy tid pgp) (counted : Counted pgp) :
    Obtained tid pgp pgp.brk (newBkt tid pgp).2 := by
  have out : pgp.brk ∉ pgp.lqh := fun mem => absurd (h.linked.below _ mem) (lt_irrefl _)
  have grown := evolves_grow h
  refine ⟨grown.trans (evolves_setBkt grown.tidy out fun b => { freshBkt tid b with wqh := [] }),
    out, Nat.lt_succ_self _, ?_, ?_⟩
  · simp only [newBkt, setBkt_curcache, setBkt_lqh]
    rw [counted]
  · simp only [newBkt, setBkt_same]
    exact ⟨rfl, rfl, rfl, rfl, rfl, rfl⟩

theorem obtainBkt_spec (h : Tidy tid pgp) (counted : Counted pgp) :
    ∃ id pgp', (obtainBkt (ε := ε) tid).run pgp = (.ok id pgp', []) ∧ Obtained tid pgp id pgp' := by
  by_cases grown : pgp.maxcache < pgp.curcache
  · have some : pgp.lqh ≠ [] := by
      intro none
      rw [counted, none] at grown
      exact absurd grown (Nat.not_lt_zero _)
    cases found : pgp.lqh.find? fun id => evictable (pgp.bkt id) with
    | none =>
      refine ⟨pgp.brk, (newBkt tid pgp).2, ?_, obtained_newBkt h counted⟩
      simp [obtainBkt, grown, some, found]
    | some id =>
      refine ⟨id, evict tid pgp id, ?_, obtained_evict h counted (List.mem_of_find?_eq_some found)
        (by simpa using List.find?_some found)⟩
      simp [obtainBkt, grown, some, found]
  · refine ⟨pgp.brk, (newBkt tid pgp).2, ?_, obtained_newBkt h counted⟩
    simp [obtainBkt, grown]

/-- Page `p` has been taken into the hands of thread `tid`, as entry `id`. -/
structure Takes (tid p : Nat) (pgp : Pagepool) (id : Nat) (pgp' : Pagepool) : Prop where
  tidy : Tidy tid pgp'
  sound : Sound tid pgp → Sound tid pgp'
  counted : Counted pgp'
  pgin : pgp'.pgin = pgp.pgin
  pgout : pgp'.pgout = pgp.pgout
  rdonly : pgp'.rdonly = pgp.rdonly
  maxcache : pgp'.maxcache = pgp.maxcache
  mem : id ∈ pgp'.lqh
  number : (pgp'.bkt id).pgno = p
  pinned : (pgp'.bkt id).pinned = true
  ref : (pgp'.bkt id).ref = 1 ∨
    (id ∈ pgp.lqh ∧ (pgp.bkt id).pgno = p ∧ (pgp'.bkt id).ref = (pgp.bkt id).ref + 1)
  others : ∀ j ∈ pgp'.lqh, j ≠ id → j ∈ pgp.lqh ∧ Flushed (pgp.bkt j) (pgp'.bkt j)
  held : ∀ j ∈ pgp.lqh, (pgp.bkt j).pinned → (pgp.bkt j).pgno ≠ p →
    j ≠ id ∧ j ∈ pgp'.lqh ∧ pgp'.bkt j = pgp.bkt j
  locked : ∀ j ∈ pgp.lqh, (pgp.bkt j).locked → j ∈ pgp'.lqh
  shows : Sound tid pgp → ∀ q c, q ≠ p → pgp'.Shows q c → pgp.Shows q c
  stored : ∀ c, pgp'.CleanAt p → pgp'.Stored p c → pgp.Shows p c
  image : ∀ q, (∀ j ∈ pgp.lqh, (pgp.bkt j).pgno = q → (pgp.bkt j).pinned) →
    pgp'.file.read q = pgp.file.read q
  npages : pgp.npages ≤ pgp'.npages
  reached : pgp.Reached → pgp'.Reached
  below : ∀ t, p < t → pgp.Below t → pgp'.Below t
  saved : ∀ j ∈ pgp'.lqh, j ≠ id → pgp.Saved j → pgp'.Saved j

/-- An obtained entry enters the lists as page `p`. -/
def enter (pgp : Pagepool) (id : Nat) (b : Bkt) (top : Nat) : Pagepool :=
  { (pgp.setBkt id fun _ => b).link id with maxpgno := top }

theorem enter_bkt_same {b : Bkt} {top : Nat} : (pgp.enter id b top).bkt id = b := by
  simp [enter]

theorem enter_bkt_other {b : Bkt} {top j : Nat} (h : j ≠ id) :
    (pgp.enter id b top).bkt j = pgp.bkt j := by
  simp [enter, setBkt_other h]

theorem mem_enter {b : Bkt} {top j : Nat} :
    j ∈ (pgp.enter id b top).lqh ↔ j ∈ pgp.lqh ∨ j = id := by
  simp [enter]

theorem Evolves.not_cached (h : Evolves tid pgp pgp') (fresh : ¬pgp.Cached p) :
    ¬pgp'.Cached p := by
  rintro ⟨j, mem, number⟩
  obtain ⟨mem', flush⟩ := h.sub j mem
  exact fresh ⟨j, mem', by rw [← flush.pgno]; exact number⟩

theorem takes_enter (o : Obtained tid pgp id mid) (fresh : ¬pgp.Cached p) {b : Bkt}
    (number : b.pgno = p) (alone : Alone tid b) (pinned : b.pinned = true) (ref : b.ref = 1)
    {top : Nat} (low : top ≤ max pgp.maxpgno p) : Takes tid p pgp id (mid.enter id b top) := by
  have ev := o.evolves
  have freshMid := ev.not_cached fresh
  have other : ∀ j ∈ mid.lqh, (mid.enter id b top).bkt j = mid.bkt j :=
    fun j mem => enter_bkt_other (j := j) fun e => o.out (e ▸ mem)
  have elsewhere : ∀ j ∈ (mid.enter id b top).lqh, j ≠ id → j ∈ mid.lqh := fun j mem ne =>
    (mem_enter.mp mem).resolve_right ne
  have linked : (mid.enter id b top).Linked := by
    have reset : (mid.setBkt id fun _ => b).Linked := ev.tidy.linked.setBkt_of_not_mem o.out
    refine (reset.link o.out ?_ o.low).congr rfl rfl rfl fun _ _ => rfl
    rintro ⟨j, mem, eq⟩
    have ne : j ≠ id := fun e => o.out (e ▸ mem)
    simp only [setBkt_same, setBkt_other ne] at eq
    exact freshMid ⟨j, mem, eq.trans number⟩
  have image : mid.file.read p = pgp.file.read p :=
    ev.image p fun j mem eq => absurd ⟨j, mem, eq⟩ fresh
  have tidy : Tidy tid (mid.enter id b top) := by
    refine ⟨linked, ev.tidy.filters, fun j mem => ?_, ev.tidy.tail⟩
    by_cases same : j = id
    · rw [same, enter_bkt_same]
      exact alone
    · rw [enter_bkt_other same]
      exact ev.tidy.alone j (elsewhere j mem same)
  refine { tidy := tidy, sound := fun s => ⟨tidy, (ev.sound s).readable, ?_⟩,
           counted := ?_, pgin := ev.pgin, pgout := ev.pgout, rdonly := ev.rdonly,
           maxcache := ev.maxcache, mem := mem_enter.mpr (.inr rfl),
           number := by rw [enter_bkt_same, number], pinned := by rw [enter_bkt_same, pinned],
           ref := .inl (by rw [enter_bkt_same, ref]),
           others := ?_, held := ?_, locked := ?_, shows := ?_, stored := ?_, image := ev.image,
           npages := ev.npages, reached := ev.reached, below := ?_, saved := ?_ }
  · intro j mem
    by_cases same : j = id
    · rw [same, enter_bkt_same]
      intro _ free
      rw [pinned] at free
      cases free
    · rw [enter_bkt_other same]
      exact (ev.sound s).writable j (elsewhere j mem same)
  · have := o.counted
    simp only [Counted, enter, link_lqh, setBkt_lqh, List.length_append, List.length_singleton]
    exact this
  · intro j mem ne
    rw [enter_bkt_other ne]
    exact ev.sub j (elsewhere j mem ne)
  · intro j mem pin _
    obtain ⟨memMid, same⟩ := ev.held j mem pin
    have ne : j ≠ id := fun e => o.out (e ▸ memMid)
    exact ⟨ne, mem_enter.mpr (.inl memMid), (enter_bkt_other ne).trans same⟩
  · exact fun j mem lock => mem_enter.mpr (.inl (ev.locked j mem lock))
  · rintro s q c ne (⟨j, mem, eq, agree⟩ | ⟨clean, stored⟩)
    · by_cases same : j = id
      · rw [same, enter_bkt_same, number] at eq
        exact absurd eq.symm ne
      · rw [enter_bkt_other same] at eq agree
        exact ev.shows s q c (.inl ⟨j, elsewhere j mem same, eq, agree⟩)
    · refine ev.shows s q c (.inr ⟨fun j mem eq => ?_, stored⟩)
      have := clean j (mem_enter.mpr (.inl mem)) (by rw [other j mem]; exact eq)
      rwa [other j mem] at this
  · intro c _ stored
    refine .inr ⟨fun j mem eq => absurd ⟨j, mem, eq⟩ fresh, ?_⟩
    exact stored.congr ev.pgin image ev.npages
  · intro t below old
    have bm := ev.below t old
    refine ⟨bm.file, low.trans (max_le old.top below.le), fun j mem => ?_⟩
    by_cases same : j = id
    · rw [same, enter_bkt_same, number]
      exact below
    · rw [enter_bkt_other same]
      exact bm.cache j (elsewhere j mem same)
  · intro j mem ne saved
    have := ev.saved j (elsewhere j mem ne) saved
    simp only [Saved] at this ⊢
    rw [enter_bkt_other ne]
    exact this

theorem Takes.held_free (h : Takes tid p pgp id pgp')
    (free : ∀ j ∈ pgp.lqh, (pgp.bkt j).pgno = p → (pgp.bkt j).pinned = false) :
    ∀ j ∈ pgp.lqh, (pgp.bkt j).pinned → j ≠ id ∧ j ∈ pgp'.lqh ∧ pgp'.bkt j = pgp.bkt j := by
  intro j mem pin
  refine h.held j mem pin fun eq => ?_
  rw [free j mem eq] at pin
  cases pin

theorem Takes.once (h : Takes tid p pgp id pgp') (once : Once pgp)
    (free : ∀ j ∈ pgp.lqh, (pgp.bkt j).pgno = p → (pgp.bkt j).pinned = false) : Once pgp' := by
  intro j mem
  by_cases same : j = id
  · rw [same, h.pinned]
    rcases h.ref with one | ⟨mem', number, ref⟩
    · exact one
    · have zero := once id mem'
      rw [free id mem' number] at zero
      rw [ref, zero]
      rfl
  · obtain ⟨mem', flush⟩ := h.others j mem same
    obtain ⟨_, pin, _, ref, _⟩ := flush.same
    rw [pin, ref]
    exact once j mem'

theorem takes_grab (h : Tidy tid pgp) (counted : Counted pgp) (mem : id ∈ pgp.lqh)
    (flags : PageFlags) : Takes tid (pgp.bkt id).pgno pgp id (grab tid flags pgp id) := by
  have entry : (grab tid flags pgp id).bkt id = applyFlags flags (hold tid (pgp.bkt id)) := by
    simp [grab]
  have other : ∀ j, j ≠ id → (grab tid flags pgp id).bkt j = pgp.bkt j := fun j ne => by
    simp [grab, setBkt_other ne]
  have kept : ∀ b : Bkt, (applyFlags flags (hold tid b)).pgno = b.pgno ∧
      (applyFlags flags (hold tid b)).page = b.page ∧
      (applyFlags flags (hold tid b)).pinned = true ∧
      (applyFlags flags (hold tid b)).waiters = b.waiters ∧
      (applyFlags flags (hold tid b)).wqh = b.wqh ∧
      (applyFlags flags (hold tid b)).ref = b.ref + 1 ∧
      (applyFlags flags (hold tid b)).owner = tid := by
    intro b
    simp only [applyFlags, hold]
    split <;> simp_all
  obtain ⟨pgno, page, pin, wait, queue, ref, owner⟩ := kept (pgp.bkt id)
  have relinked : (pgp.setBkt id fun b => applyFlags flags (hold tid b)).Linked :=
    h.linked.setBkt pgno
  have same : ∀ j, j ∈ (grab tid flags pgp id).lqh ↔ j ∈ pgp.lqh := fun j =>
    mem_requeue relinked.toChained mem
  have alone := h.alone id mem
  have number : ∀ j, ((grab tid flags pgp id).bkt j).pgno = (pgp.bkt j).pgno := fun j => by
    by_cases eq : j = id
    · rw [eq, entry, pgno]
    · rw [other j eq]
  have tidy : Tidy tid (grab tid flags pgp id) := by
    refine ⟨relinked.requeue mem, h.filters, fun j memj => ?_, h.tail⟩
    by_cases eq : j = id
    · rw [eq, entry]
      exact ⟨wait.trans alone.waiters, queue.trans alone.wqh, fun _ => owner⟩
    · rw [other j eq]
      exact h.alone j ((same j).mp memj)
  refine { tidy := tidy, sound := fun s => ⟨tidy, s.readable, ?_⟩, counted := ?_,
           pgin := rfl, pgout := rfl, rdonly := rfl, maxcache := rfl, mem := (same id).mpr mem,
           number := by rw [entry, pgno], pinned := by rw [entry, pin],
           ref := .inr ⟨mem, rfl, by rw [entry, ref]⟩, others := ?_, held := ?_,
           locked := fun j memj _ => (same j).mpr memj, shows := ?_, stored := ?_,
           image := fun _ _ => rfl, npages := le_rfl, reached := fun r => r, below := ?_, saved := ?_ }
  · intro j memj
    by_cases eq : j = id
    · rw [eq, entry]
      intro _ f
      rw [pin] at f
      cases f
    · rw [other j eq]
      exact s.writable j ((same j).mp memj)
  · exact counted_requeue (show Counted (pgp.setBkt id _) from counted) mem
  · intro j memj ne
    rw [other j ne]
    exact ⟨(same j).mp memj, .refl _⟩
  · intro j memj _ elsewhere
    have ne : j ≠ id := fun e => elsewhere (by rw [e])
    exact ⟨ne, (same j).mpr memj, other j ne⟩
  · rintro _ q c ne (⟨j, memj, eq, agree⟩ | ⟨clean, stored⟩)
    · have neq : j ≠ id := by
        rintro rfl
        exact ne (by rw [← eq, number])
      rw [other j neq] at eq agree
      exact .inl ⟨j, (same j).mp memj, eq, agree⟩
    · refine .inr ⟨fun j memj eq => ?_, stored⟩
      have neq : j ≠ id := by
        rintro rfl
        exact ne eq.symm
      have := clean j ((same j).mpr memj) (by rw [other j neq]; exact eq)
      rwa [other j neq] at this
  · intro c clean stored
    refine .inr ⟨fun j memj eq => ?_, stored⟩
    have eqid := h.linked.unique j memj id mem eq
    have := clean id ((same id).mpr mem) (number id)
    rw [entry] at this
    rw [eqid]
    simp only [applyFlags, hold] at this
    split at this <;> simp_all
  · intro t low below
    refine ⟨below.file, below.top, fun j memj => ?_⟩
    rw [number]
    exact below.cache j ((same j).mp memj)
  · intro j memj ne saved
    simp only [Saved] at saved ⊢
    rw [other j ne]
    exact saved

theorem setBkt_setBkt {f g : Bkt → Bkt} :
    (pgp.setBkt id f).setBkt id g = pgp.setBkt id fun b => g (f b) := by
  simp [setBkt]

theorem setBkt_link {f : Bkt → Bkt} (keep : (f (pgp.bkt id)).pgno = (pgp.bkt id).pgno) :
    (pgp.link id).setBkt id f = (pgp.setBkt id f).link id := by
  simp [setBkt, link, keep]

def loadedBkt (tid pageno : Nat) (flags : PageFlags) (page : Page) (b : Bkt) : Bkt :=
  { applyFlags flags { b with pgno := pageno, owner := tid, ref := 1, waiters := 0 } with
    page := page }

def createdBkt (tid pageno : Nat) (flags : PageFlags) (b : Bkt) : Bkt :=
  { applyFlags flags { b with pgno := pageno, ref := 1, owner := tid } with
    page := b.page.fill 0 cleanhdrSize 0 }

theorem alone_loadedBkt {b : Bkt} (h : Fresh tid b) {flags : PageFlags} {page : Page} :
    Alone tid (loadedBkt tid p flags page b) := ⟨rfl, h.wqh, fun _ => rfl⟩

theorem alone_createdBkt {b : Bkt} (h : Fresh tid b) {flags : PageFlags} :
    Alone tid (createdBkt tid p flags b) := ⟨h.waiters, h.wqh, fun _ => rfl⟩

theorem clear_fill (page : Page) : Clear (page.fill 0 cleanhdrSize 0) :=
  fun _ low => Lib.Mem.copy_inside ⟨Nat.zero_le _, by simpa using low⟩

theorem loadNewPage_spec (h : Tidy tid pgp) (counted : Counted pgp) (fresh : ¬pgp.Cached p)
    (flags : PageFlags) : ∃ id mid, Obtained tid pgp id mid ∧
      (loadNewPage (ε := ε) tid p flags).run pgp =
        match pgp.pgin p (pgp.file.read p) with
        | none => (.halt .exit, [])
        | some page =>
          (.ok id (mid.enter id (loadedBkt tid p flags page (mid.bkt id)) mid.maxpgno), []) := by
  obtain ⟨id, mid, run, o⟩ := obtainBkt_spec (ε := ε) h counted
  have image : mid.file.read p = pgp.file.read p :=
    o.evolves.image p fun j mem eq => absurd ⟨j, mem, eq⟩ fresh
  refine ⟨id, mid, o, ?_⟩
  cases read : pgp.pgin p (pgp.file.read p) with
  | none =>
    simp only [loadNewPage, Prog.run_bind run, Prog.run_read_bind, Prog.run_modify_bind, image,
      o.evolves.pgin, read, Prog.run_halt, List.append_nil]
  | some page =>
    simp only [loadNewPage, Prog.run_bind run, Prog.run_read_bind, Prog.run_modify_bind, image,
      o.evolves.pgin, read, Prog.run_pure, List.append_nil, Prod.mk.injEq, and_true]
    rw [setBkt_link (by simp [applyFlags]), setBkt_setBkt]
    rfl

theorem newPageI_spec (h : Tidy tid pgp) (counted : Counted pgp)
    (room : pgp.maxpgno ≠ maxPageNumber) (flags : PageFlags) : ∃ id mid,
      Obtained tid pgp id mid ∧
      (newPageI (ε := ε) tid p flags).run pgp =
        let n := if flags.request then p else pgp.maxpgno + 1
        (.ok (id, n) (mid.enter id (createdBkt tid n flags (mid.bkt id)) (max mid.maxpgno n)),
          []) := by
  obtain ⟨id, mid, run, o⟩ := obtainBkt_spec (ε := ε) h counted
  refine ⟨id, mid, o, ?_⟩
  simp only [newPageI, Prog.run_read_bind, if_neg room, Prog.run_bind run, Prog.run_modify_bind,
    Prog.run_pure, List.append_nil, Prod.mk.injEq, and_true]
  rw [setBkt_link (by simp [applyFlags]), setBkt_setBkt]
  simp [enter, createdBkt, setBkt, link, applyFlags]

structure Fetched (p : Nat) (flags : PageFlags) (pgp : Pagepool) (id : Nat) (pgp' : Pagepool) :
    Prop where
  content : pgp.Shows p (pgp'.bkt id).page
  saved : (∀ j ∈ pgp.lqh, (pgp.bkt j).pgno = p → pgp.Saved j) → pgp'.Saved id
  marked : flags.dirty ∨ flags.edit → (pgp'.bkt id).dirty = true
  kept : flags.locked → (pgp'.bkt id).locked = true
  dirty : (pgp'.bkt id).dirty = true →
    flags.dirty ∨ flags.edit ∨ ∃ j ∈ pgp.lqh, (pgp.bkt j).pgno = p ∧ (pgp.bkt j).dirty = true

theorem fetched_grab (mem : id ∈ pgp.lqh) (flags : PageFlags) :
    Fetched (pgp.bkt id).pgno flags pgp id (grab tid flags pgp id) := by
  have entry : (grab tid flags pgp id).bkt id = applyFlags flags (hold tid (pgp.bkt id)) := by
    simp [grab]
  have kept : (applyFlags flags (hold tid (pgp.bkt id))).page = (pgp.bkt id).page ∧
      (applyFlags flags (hold tid (pgp.bkt id))).pgno = (pgp.bkt id).pgno ∧
      (applyFlags flags (hold tid (pgp.bkt id))).dirty =
        ((pgp.bkt id).dirty || flags.dirty || flags.edit) := by
    simp only [applyFlags, hold]
    split <;> simp_all
  obtain ⟨page, pgno, dirty⟩ := kept
  refine ⟨.inl ⟨id, mem, rfl, ?_⟩, fun saved => ?_, fun f => ?_, fun f => ?_, fun f => ?_⟩
  · rw [entry, page]
    exact Agree.refl _
  · have := saved id mem rfl
    simp only [Saved, entry, page, pgno] at this ⊢
    exact this.imp_left fun d => by rw [dirty, d]; rfl
  · rw [entry]
    rcases f with f | f <;> simp [applyFlags, f]
  · rw [entry]
    simp [applyFlags, f]
  · rw [entry, dirty] at f
    simp only [Bool.or_eq_true] at f
    rcases f with (f | f) | f
    · exact .inr (.inr ⟨id, mem, rfl, f⟩)
    · exact .inl f
    · exact .inr (.inl f)

theorem fetched_load (h : Tidy tid pgp) (o : Obtained tid pgp id mid) (fresh : ¬pgp.Cached p)
    {page : Page} (read : pgp.pgin p (pgp.file.read p) = some page) (flags : PageFlags) (top : Nat) :
    Fetched p flags pgp id (mid.enter id (loadedBkt tid p flags page (mid.bkt id)) top) := by
  have image : mid.file.read p = pgp.file.read p :=
    o.evolves.image p fun j mem eq => absurd ⟨j, mem, eq⟩ fresh
  refine ⟨.inr ⟨fun j mem eq => absurd ⟨j, mem, eq⟩ fresh, .inl ⟨page, read, ?_⟩⟩, fun _ => ?_,
    fun f => ?_, fun f => ?_, fun f => ?_⟩
  · rw [enter_bkt_same]
    exact Agree.refl _
  · right
    rw [enter_bkt_same]
    intro sign
    change Page.pageSign (mid.file.read p) = _ at sign
    change Agree page (mid.file.read p)
    rw [image] at sign ⊢
    exact h.filters.in_agree p _ _ sign read
  · rw [enter_bkt_same]
    rcases f with f | f <;> simp [loadedBkt, applyFlags, f]
  · rw [enter_bkt_same]
    simp [loadedBkt, applyFlags, f]
  · rw [enter_bkt_same] at f
    have clean := o.fresh.dirty
    simp only [loadedBkt, applyFlags, clean, Bool.false_or, Bool.or_eq_true] at f
    exact f.imp_right .inl

theorem pageSign_zero : Page.pageSign (fun _ => 0) ≠ pageMagic := by decide

theorem fetched_create (h : Tidy tid pgp) (o : Obtained tid pgp id mid) (fresh : ¬pgp.Cached p)
    (high : pgp.npages ≤ p) (flags : PageFlags) (top : Nat) :
    Fetched p flags pgp id (mid.enter id (createdBkt tid p flags (mid.bkt id)) top) := by
  have image : mid.file.read p = pgp.file.read p :=
    o.evolves.image p fun j mem eq => absurd ⟨j, mem, eq⟩ fresh
  refine ⟨.inr ⟨fun j mem eq => absurd ⟨j, mem, eq⟩ fresh, .inr ⟨high, ?_⟩⟩, fun _ => ?_,
    fun f => ?_, fun f => ?_, fun f => ?_⟩
  · rw [enter_bkt_same]
    exact clear_fill _
  · right
    rw [enter_bkt_same]
    intro sign
    change Page.pageSign (mid.file.read p) = _ at sign
    rw [image] at sign
    exact absurd sign (h.tail p high)
  · rw [enter_bkt_same]
    rcases f with f | f <;> simp [createdBkt, applyFlags, f]
  · rw [enter_bkt_same]
    simp [createdBkt, applyFlags, f]
  · rw [enter_bkt_same] at f
    have clean := o.fresh.dirty
    simp only [createdBkt, applyFlags, clean, Bool.false_or, Bool.or_eq_true] at f
    exact f.imp_right .inl

theorem getPage_created (h : Tidy tid pgp) (counted : Counted pgp) {flags : PageFlags}
    (plain : flags.new = false) (may : flags.dirty → pgp.rdonly = false) (make : flags.create = true)
    (fresh : ¬pgp.Cached p) (high : pgp.npages ≤ p) (room : pgp.maxpgno ≠ maxPageNumber) : ∃ id pgp',
      (getPage (ε := ε) tid p flags).run pgp = (.ok (.page id) pgp', []) ∧ Takes tid p pgp id pgp' ∧
      Fetched p flags pgp id pgp' ∧ Clear (pgp'.bkt id).page := by
  have allowed : ¬(flags.dirty ∧ pgp.rdonly) := by
    rintro ⟨dirty, ro⟩
    rw [may dirty] at ro
    cases ro
  have found : pgp.find p = none := h.linked.find_eq_none.mpr fresh
  obtain ⟨id, mid, o, run⟩ :=
    newPageI_spec (ε := ε) (p := p) h counted room { flags with request := true }
  simp only [if_true] at run
  have got := fetched_create h o fresh high { flags with request := true } (max mid.maxpgno p)
  refine ⟨id, _, ?_, ?_, ⟨got.content, got.saved, got.marked, got.kept, got.dirty⟩, ?_⟩
  · simp only [getPage, Prog.run_read_bind, if_neg allowed, plain, Bool.false_eq_true, if_false, found,
      if_pos (And.intro make high)]
    rw [plain] at run
    exact Prog.run_bind run
  · exact takes_enter o fresh rfl (alone_createdBkt o.fresh) o.fresh.pinned rfl
      (by rw [o.evolves.maxpgno])
  · rw [enter_bkt_same]
    exact clear_fill _

theorem getPage_granted (h : Tidy tid pgp) (counted : Counted pgp) {flags : PageFlags}
    (plain : flags.new = false) (may : flags.dirty → pgp.rdonly = false) :
    (∃ id pgp', (getPage (ε := ε) tid p flags).run pgp = (.ok (.page id) pgp', []) ∧
      Takes tid p pgp id pgp' ∧ Fetched p flags pgp id pgp') ∨
    (∃ why, (getPage (ε := ε) tid p flags).run pgp = (.halt why, []) ∧
      (pgp.pgin p (pgp.file.read p) = none ∨
        (flags.create ∧ ¬pgp.Cached p ∧ pgp.npages ≤ p ∧ pgp.maxpgno = maxPageNumber))) := by
  have allowed : ¬(flags.dirty ∧ pgp.rdonly) := by
    rintro ⟨dirty, ro⟩
    rw [may dirty] at ro
    cases ro
  cases found : pgp.find p with
  | some id =>
    obtain ⟨mem, number⟩ := h.linked.find_eq_some.mp found
    have go : mustWait tid (pgp.bkt id) = false := by
      have alone := h.alone id mem
      by_cases pin : (pgp.bkt id).pinned
      · simp [mustWait, alone.owner pin]
      · simp [mustWait, pin, alone.waiters]
    refine .inl ⟨id, grab tid flags pgp id, ?_, ?_, ?_⟩
    · simp [getPage, allowed, plain, found, go]
    · rw [← number]
      exact takes_grab h counted mem flags
    · rw [← number]
      exact fetched_grab mem flags
  | none =>
    have fresh := h.linked.find_eq_none.mp found
    by_cases make : flags.create = true ∧ pgp.npages ≤ p
    · by_cases room : pgp.maxpgno = maxPageNumber
      · refine .inr ⟨.abort, ?_, .inr ⟨make.1, fresh, make.2, room⟩⟩
        have full : (newPageI (ε := ε) tid p { flags with request := true }).run pgp =
            (.halt .abort, []) := by
          simp [newPageI, room]
        simp only [getPage, Prog.run_read_bind, if_neg allowed, plain, Bool.false_eq_true, if_false,
          found, if_pos make]
        rw [plain] at full
        exact Prog.run_bind_halt full
      · obtain ⟨id, pgp', run, takes, fetched, _⟩ :=
          getPage_created (ε := ε) h counted plain may make.1 fresh make.2 room
        exact .inl ⟨id, pgp', run, takes, fetched⟩
    · obtain ⟨id, mid, o, run⟩ := loadNewPage_spec (ε := ε) h counted fresh flags
      cases read : pgp.pgin p (pgp.file.read p) with
      | none =>
        refine .inr ⟨.exit, ?_, .inl rfl⟩
        simp only [read] at run
        simp only [getPage, Prog.run_read_bind, if_neg allowed, plain, Bool.false_eq_true, if_false,
          found, if_neg make]
        exact Prog.run_bind_halt run
      | some page =>
        simp only [read] at run
        refine .inl ⟨id, _, ?_, ?_, fetched_load h o fresh read flags mid.maxpgno⟩
        · simp only [getPage, Prog.run_read_bind, if_neg allowed, plain, Bool.false_eq_true,
            if_false, found, if_neg make]
          exact Prog.run_bind run
        · exact takes_enter o fresh rfl (alone_loadedBkt o.fresh) o.fresh.pinned rfl
            (by rw [o.evolves.maxpgno]; exact le_max_left _ _)

theorem getPage_spec (h : Sound tid pgp) (counted : Counted pgp) {flags : PageFlags}
    (plain : flags.new = false) (may : flags.dirty → pgp.rdonly = false)
    (room : flags.create → ¬pgp.Cached p → pgp.npages ≤ p → pgp.maxpgno ≠ maxPageNumber) :
    ∃ id pgp',
      (getPage (ε := ε) tid p flags).run pgp = (.ok (.page id) pgp', []) ∧ Takes tid p pgp id pgp' ∧
      Fetched p flags pgp id pgp' := by
  rcases getPage_granted (ε := ε) (p := p) h.toTidy counted plain may with got | ⟨_, _, bad | ⟨make, fresh, high, full⟩⟩
  · exact got
  · obtain ⟨c, read⟩ := h.readable p
    rw [read] at bad
    cases bad
  · exact absurd full (room make fresh high)

theorem newPage_spec (h : Tidy tid pgp) (counted : Counted pgp)
    (room : pgp.maxpgno ≠ maxPageNumber) {flags : PageFlags}
    (fresh : ¬pgp.Cached (if flags.request then p else pgp.maxpgno + 1)) : ∃ id pgp',
      let n := if flags.request then p else pgp.maxpgno + 1
      (newPage (ε := ε) tid p flags).run pgp = (.ok (id, n) pgp', []) ∧ Takes tid n pgp id pgp' ∧
      Clear (pgp'.bkt id).page ∧ (pgp'.bkt id).dirty = (flags.dirty || flags.edit) := by
  obtain ⟨id, mid, o, run⟩ := newPageI_spec (ε := ε) (p := p) h counted room flags
  refine ⟨id, _, run, ?_, ?_, ?_⟩
  · exact takes_enter o fresh rfl (alone_createdBkt o.fresh) o.fresh.pinned rfl
      (by rw [o.evolves.maxpgno])
  · rw [enter_bkt_same]
    exact clear_fill _
  · rw [enter_bkt_same]
    simp [createdBkt, applyFlags, o.fresh.dirty]

/-- The pool after an operation on the one entry `id`; `b` is the entry afterwards. -/
structure Changes (tid id : Nat) (b : Bkt) (pgp pgp' : Pagepool) : Prop where
  tidy : Tidy tid pgp'
  sound : Sound tid pgp → (b.dirty → b.pinned = false → pgp.RoundTrip b.pgno b.page) →
    Sound tid pgp'
  counted : Counted pgp'
  pgin : pgp'.pgin = pgp.pgin
  pgout : pgp'.pgout = pgp.pgout
  rdonly : pgp'.rdonly = pgp.rdonly
  maxcache : pgp'.maxcache = pgp.maxcache
  maxpgno : pgp'.maxpgno = pgp.maxpgno
  lqh : pgp'.lqh = pgp.lqh
  entry : pgp'.bkt id = b
  others : ∀ j, j ≠ id → pgp'.bkt j = pgp.bkt j
  file : pgp'.file = pgp.file
  npages : pgp'.npages = pgp.npages

theorem Changes.reached {b : Bkt} (h : Changes tid id b pgp pgp') (r : pgp.Reached) : pgp'.Reached := by
  rw [Reached, h.file, h.npages]
  exact r

theorem changes_setBkt (h : Tidy tid pgp) (counted : Counted pgp) {f : Bkt → Bkt}
    (keep : (f (pgp.bkt id)).pgno = (pgp.bkt id).pgno)
    (alone : id ∈ pgp.lqh → Alone tid (f (pgp.bkt id))) :
    Changes tid id (f (pgp.bkt id)) pgp (pgp.setBkt id f) := by
  have tidy : Tidy tid (pgp.setBkt id f) := by
    refine ⟨h.linked.setBkt keep, h.filters, fun j mem => ?_, h.tail⟩
    by_cases same : j = id
    · subst same
      rw [setBkt_same]
      exact alone mem
    · rw [setBkt_other same]
      exact h.alone j mem
  refine { tidy := tidy, sound := fun s trip => ⟨tidy, s.readable, ?_⟩,
           counted := counted, pgin := rfl, pgout := rfl, rdonly := rfl, maxcache := rfl,
           maxpgno := rfl, lqh := rfl, entry := setBkt_same, others := fun _ ne => setBkt_other ne,
           file := rfl, npages := rfl }
  intro j mem
  by_cases same : j = id
  · rw [same, setBkt_same]
    exact trip
  · rw [setBkt_other same]
    exact s.writable j mem

theorem Changes.shows (h : Changes tid id b pgp pgp') (number : b.pgno = (pgp.bkt id).pgno)
    {q : Nat} {c : Page} (other : q ≠ b.pgno) : pgp'.Shows q c ↔ pgp.Shows q c := by
  have stored : pgp'.Stored q c ↔ pgp.Stored q c := by
    simp only [Stored, h.pgin, h.file, h.npages]
  have ne : ∀ j, (pgp.bkt j).pgno = q → j ≠ id := by
    rintro j eq rfl
    exact other (by rw [number, eq])
  have ne' : ∀ j, (pgp'.bkt j).pgno = q → j ≠ id := by
    rintro j eq rfl
    exact other (by rw [← h.entry, eq])
  simp only [Shows, CleanAt, stored, h.lqh]
  refine or_congr (exists_congr fun j => ?_) (and_congr (forall_congr' fun j => ?_) Iff.rfl)
  · refine and_congr Iff.rfl ⟨fun ⟨eq, agree⟩ => ?_, fun ⟨eq, agree⟩ => ?_⟩
    · have same := h.others j (ne' j eq)
      rw [same] at eq agree
      exact ⟨eq, agree⟩
    · rw [h.others j (ne j eq)]
      exact ⟨eq, agree⟩
  · refine imp_congr Iff.rfl ⟨fun clean eq => ?_, fun clean eq => ?_⟩
    · have same := h.others j (ne j eq)
      rw [← same] at eq ⊢
      exact clean eq
    · have same := h.others j (ne' j eq)
      rw [same] at eq ⊢
      exact clean eq

theorem Changes.shows_same (h : Changes tid id b pgp pgp') (mem : id ∈ pgp.lqh) {c : Page} :
    pgp'.Shows b.pgno c ↔ Agree c b.page ∨ (b.dirty = false ∧ pgp.Stored b.pgno c) := by
  have stored : pgp'.Stored b.pgno c ↔ pgp.Stored b.pgno c := by
    simp only [Stored, h.pgin, h.file, h.npages]
  have mem' : id ∈ pgp'.lqh := by rw [h.lqh]; exact mem
  have only : ∀ j ∈ pgp'.lqh, (pgp'.bkt j).pgno = b.pgno → j = id := fun j memj eq =>
    h.tidy.linked.unique j memj id mem' (by rw [eq, h.entry])
  simp only [Shows, stored]
  refine or_congr ⟨?_, fun agree => ?_⟩ (and_congr ⟨fun clean => ?_, fun clean j memj eq => ?_⟩ Iff.rfl)
  · rintro ⟨j, memj, eq, agree⟩
    rw [only j memj eq, h.entry] at agree
    exact agree
  · exact ⟨id, mem', by rw [h.entry], by rw [h.entry]; exact agree⟩
  · have := clean id mem' (by rw [h.entry])
    rwa [h.entry] at this
  · rw [only j memj eq, h.entry]
    exact clean

theorem Changes.stored (h : Changes tid id b pgp pgp') {q : Nat} {c : Page} :
    pgp'.Stored q c ↔ pgp.Stored q c := by
  simp only [Stored, h.pgin, h.file, h.npages]

theorem Changes.cleanAt (h : Changes tid id b pgp pgp') (number : b.pgno = (pgp.bkt id).pgno)
    {q : Nat} (other : q ≠ b.pgno) : pgp'.CleanAt q ↔ pgp.CleanAt q := by
  simp only [CleanAt, h.lqh]
  refine forall_congr' fun j => imp_congr Iff.rfl ?_
  by_cases same : j = id
  · have old : (pgp.bkt id).pgno ≠ q := fun eq => other (by rw [number, eq])
    have new : (pgp'.bkt id).pgno ≠ q := fun eq => other (by rw [← eq, h.entry])
    rw [same]
    exact ⟨fun _ eq => absurd eq old, fun _ eq => absurd eq new⟩
  · rw [h.others j same]

theorem Changes.cleanAt_same (h : Changes tid id b pgp pgp') (mem : id ∈ pgp.lqh)
    (clean : pgp'.CleanAt b.pgno) : b.dirty = false := by
  have := clean id (by rw [h.lqh]; exact mem) (by rw [h.entry])
  rwa [h.entry] at this

theorem Changes.below (h : Changes tid id b pgp pgp') (number : b.pgno = (pgp.bkt id).pgno)
    {t : Nat} (below : pgp.Below t) : pgp'.Below t := by
  refine ⟨by rw [h.npages]; exact below.file, by rw [h.maxpgno]; exact below.top, fun j mem => ?_⟩
  rw [h.lqh] at mem
  by_cases same : j = id
  · have := below.cache j mem
    rw [same] at this ⊢
    rw [h.entry, number]
    exact this
  · rw [h.others j same]
    exact below.cache j mem

theorem Changes.saved (h : Changes tid id b pgp pgp') {j : Nat} (ne : j ≠ id) :
    pgp'.Saved j ↔ pgp.Saved j := by
  simp only [Saved, h.others j ne, h.file]

theorem Changes.once (h : Changes tid id b pgp pgp') (once : Once pgp)
    (ref : b.ref = if b.pinned then 1 else 0) : Once pgp' := by
  intro j mem
  by_cases same : j = id
  · rw [same, h.entry]
    exact ref
  · rw [h.others j same]
    exact once j (by rw [← h.lqh]; exact mem)

theorem store_spec (h : Tidy tid pgp) (counted : Counted pgp) (f : Page → Page) : ∃ pgp',
      (store (ε := ε) id f).run pgp = (.ok () pgp', []) ∧
      Changes tid id { pgp.bkt id with page := f (pgp.bkt id).page } pgp pgp' := by
  refine ⟨_, rfl, changes_setBkt (f := fun b => { b with page := f b.page }) h counted rfl ?_⟩
  intro mem
  have alone := h.alone id mem
  exact ⟨alone.waiters, alone.wqh, alone.owner⟩

theorem putPage_spec (h : Tidy tid pgp) (counted : Counted pgp)
    (pinned : (pgp.bkt id).pinned = true) (dirty : Bool) :
    ∃ pgp', (putPage (ε := ε) id dirty).run pgp = (.ok () pgp', []) ∧
      Changes tid id (release dirty (pgp.bkt id)) pgp pgp' := by
  refine ⟨pgp.setBkt id (release dirty), ?_, changes_setBkt h counted rfl ?_⟩
  · simp [putPage, pinned]
  · intro mem
    have alone := h.alone id mem
    refine ⟨alone.waiters, ?_, fun p => ?_⟩
    · simp [release, alone.waiters, alone.wqh]
    · cases p

/-- The pool after the held entry `id` has left the cache. -/
structure Drops (tid id : Nat) (pgp pgp' : Pagepool) : Prop where
  tidy : Tidy tid pgp'
  sound : Sound tid pgp → ((pgp.bkt id).dirty → pgp.RoundTrip (pgp.bkt id).pgno (pgp.bkt id).page) →
    Sound tid pgp'
  counted : Counted pgp'
  pgin : pgp'.pgin = pgp.pgin
  pgout : pgp'.pgout = pgp.pgout
  rdonly : pgp'.rdonly = pgp.rdonly
  maxcache : pgp'.maxcache = pgp.maxcache
  maxpgno : pgp'.maxpgno = pgp.maxpgno
  lqh : pgp'.lqh = pgp.lqh.erase id
  others : ∀ j, j ≠ id → pgp'.bkt j = pgp.bkt j
  image : ∀ q, q ≠ (pgp.bkt id).pgno → pgp'.file.read q = pgp.file.read q
  gone : pgp'.file.read (pgp.bkt id).pgno =
    if (pgp.bkt id).dirty then pgp.pgout (pgp.bkt id).pgno (pgp.bkt id).page
    else pgp.file.read (pgp.bkt id).pgno
  npages : pgp'.npages =
    if (pgp.bkt id).dirty then max pgp.npages ((pgp.bkt id).pgno + 1) else pgp.npages
  reached : pgp.Reached → pgp'.Reached

def leave (pgp : Pagepool) (id : Nat) : Pagepool :=
  { pgp.unlink id with curcache := pgp.curcache - 1 }

theorem tidy_leave (h : Tidy tid pgp) (id : Nat) : Tidy tid (pgp.leave id) :=
  have gone := tidy_unlink h id
  ⟨⟨⟨gone.linked.nodup, gone.linked.chain, gone.linked.chainNodup, gone.linked.below⟩,
    gone.linked.unique⟩, gone.filters, gone.alone, gone.tail⟩

theorem sound_leave (h : Sound tid pgp) (id : Nat) : Sound tid (pgp.leave id) :=
  have gone := sound_unlink h id
  ⟨tidy_leave h.toTidy id, gone.readable, gone.writable⟩

theorem counted_leave (counted : Counted pgp) (mem : id ∈ pgp.lqh) : Counted (pgp.leave id) := by
  have size := List.length_erase_of_mem mem
  change pgp.curcache - 1 = (pgp.lqh.erase id).length
  rw [size, counted]

theorem delete_spec (h : Tidy tid pgp) (counted : Counted pgp) (mem : id ∈ pgp.lqh)
    (pinned : (pgp.bkt id).pinned = true) (ref : (pgp.bkt id).ref = 1) :
    ∃ pgp', (delete (ε := ε) id).run pgp = (.ok true pgp', []) ∧ Drops tid id pgp pgp' := by
  have alone := h.alone id mem
  by_cases dirty : (pgp.bkt id).dirty
  · refine ⟨(pgp.write id).leave id, ?_, ?_⟩
    · simp only [delete, Prog.run_read_bind, ref, if_true, pinned, alone.waiters, lt_irrefl,
        if_false, dirty, Prog.run_modify_bind, Prog.run_pure]
      rfl
    · refine { tidy := tidy_leave (tidy_write h) id,
               sound := fun s trip => sound_leave (sound_write s (trip dirty)) id,
               counted := counted_leave counted mem, pgin := rfl, pgout := rfl, rdonly := rfl,
               maxcache := rfl, maxpgno := rfl, lqh := rfl,
               others := fun j ne => write_bkt_other ne, image := fun q ne => write_read_other ne,
               gone := ?_, npages := ?_, reached := reached_write }
      · rw [if_pos dirty]
        exact write_read_same
      · rw [if_pos dirty]
        exact write_npages
  · refine ⟨pgp.leave id, ?_, ?_⟩
    · simp only [delete, Prog.run_read_bind, ref, if_true, pinned, alone.waiters, lt_irrefl,
        if_false, dirty, Prog.run_modify_bind, Prog.run_pure, Bool.false_eq_true]
      rfl
    · exact { tidy := tidy_leave h id, sound := fun s _ => sound_leave s id,
              counted := counted_leave counted mem, pgin := rfl,
              pgout := rfl, rdonly := rfl, maxcache := rfl, maxpgno := rfl, lqh := rfl,
              others := fun _ _ => rfl, image := fun _ _ => rfl,
              gone := by rw [if_neg dirty]; rfl, npages := by rw [if_neg dirty]; rfl, reached := fun r => r }

theorem delete_refused (ref : (pgp.bkt id).ref ≠ 1) :
    (delete (ε := ε) id).run pgp = (.ok false pgp, []) := by
  simp [delete, ref]

theorem Drops.mem (h : Drops tid id pgp pgp') (tidy : Tidy tid pgp) {j : Nat} :
    j ∈ pgp'.lqh ↔ j ≠ id ∧ j ∈ pgp.lqh := by
  rw [h.lqh, tidy.linked.nodup.mem_erase_iff]

theorem Drops.once (h : Drops tid id pgp pgp') (tidy : Tidy tid pgp) (once : Once pgp) :
    Once pgp' := by
  intro j mem
  obtain ⟨ne, mem'⟩ := (h.mem tidy).mp mem
  rw [h.others j ne]
  exact once j mem'

theorem Drops.npages_le (h : Drops tid id pgp pgp') : pgp.npages ≤ pgp'.npages := by
  rw [h.npages]
  split
  · exact le_max_left _ _
  · exact le_rfl

theorem Drops.shows (h : Drops tid id pgp pgp') (tidy : Tidy tid pgp) {q : Nat} {c : Page}
    (other : q ≠ (pgp.bkt id).pgno) (shows : pgp'.Shows q c) : pgp.Shows q c := by
  rcases shows with ⟨j, mem, eq, agree⟩ | ⟨clean, stored⟩
  · obtain ⟨ne, mem⟩ := (h.mem tidy).mp mem
    rw [h.others j ne] at eq agree
    exact .inl ⟨j, mem, eq, agree⟩
  · refine .inr ⟨fun j mem eq => ?_, stored.congr h.pgin (h.image q other) h.npages_le⟩
    have ne : j ≠ id := fun same => other (by rw [← eq, same])
    have := clean j ((h.mem tidy).mpr ⟨ne, mem⟩) (by rw [h.others j ne]; exact eq)
    rwa [h.others j ne] at this

theorem Drops.shows_same (h : Drops tid id pgp pgp') (tidy : Tidy tid pgp) (mem : id ∈ pgp.lqh)
    (trip : (pgp.bkt id).dirty → pgp.RoundTrip (pgp.bkt id).pgno (pgp.bkt id).page) {c : Page}
    (shows : pgp'.Shows (pgp.bkt id).pgno c) :
    ((pgp.bkt id).dirty ∧ Agree c (pgp.bkt id).page) ∨
      ((pgp.bkt id).dirty = false ∧ pgp.Stored (pgp.bkt id).pgno c) := by
  have image := h.gone
  have npages := h.npages
  rcases shows with ⟨j, memj, eq, _⟩ | ⟨_, stored⟩
  · obtain ⟨ne, memj⟩ := (h.mem tidy).mp memj
    rw [h.others j ne] at eq
    exact absurd (tidy.linked.unique j memj id mem eq) ne
  · by_cases dirty : (pgp.bkt id).dirty
    · rw [if_pos dirty] at image npages
      refine .inl ⟨dirty, ?_⟩
      obtain ⟨d, run, agree⟩ := trip dirty
      rcases stored with ⟨e, run', agree'⟩ | ⟨high, _⟩
      · rw [image, h.pgin, run] at run'
        cases run'
        exact agree'.trans agree
      · omega
    · rw [if_neg dirty] at image npages
      exact .inr ⟨by simpa using dirty, stored.congr h.pgin image npages.ge⟩

theorem Drops.below (h : Drops tid id pgp pgp') (tidy : Tidy tid pgp) (mem : id ∈ pgp.lqh)
    {t : Nat} (below : pgp.Below t) : pgp'.Below t := by
  refine ⟨?_, by rw [h.maxpgno]; exact below.top, fun j memj => ?_⟩
  · have file := below.file
    have cache := below.cache id mem
    rw [h.npages]
    split <;> omega
  · obtain ⟨ne, memj⟩ := (h.mem tidy).mp memj
    rw [h.others j ne]
    exact below.cache j memj

theorem Drops.saved (h : Drops tid id pgp pgp') (tidy : Tidy tid pgp) (mem : id ∈ pgp.lqh)
    {j : Nat} (memj : j ∈ pgp'.lqh) (saved : pgp.Saved j) : pgp'.Saved j := by
  obtain ⟨ne, memj⟩ := (h.mem tidy).mp memj
  have other : (pgp.bkt j).pgno ≠ (pgp.bkt id).pgno := fun eq =>
    ne (tidy.linked.unique j memj id mem eq)
  simp only [Saved, h.others j ne, h.image _ other]
  exact saved

/-- The pool after the held entry `id` was released under the number `n`. -/
structure Moves (tid id n : Nat) (pgp pgp' : Pagepool) : Prop where
  tidy : Tidy tid pgp'
  sound : Sound tid pgp → pgp.RoundTrip n (pgp.bkt id).page → Sound tid pgp'
  counted : Counted pgp'
  pgin : pgp'.pgin = pgp.pgin
  pgout : pgp'.pgout = pgp.pgout
  rdonly : pgp'.rdonly = pgp.rdonly
  maxcache : pgp'.maxcache = pgp.maxcache
  maxpgno : pgp'.maxpgno = pgp.maxpgno
  mem : ∀ j, j ∈ pgp'.lqh ↔ j ∈ pgp.lqh
  number : (pgp'.bkt id).pgno = n
  page : (pgp'.bkt id).page = (pgp.bkt id).page
  dirty : (pgp'.bkt id).dirty = true
  free : (pgp'.bkt id).pinned = false
  ref : (pgp'.bkt id).ref = (pgp.bkt id).ref - 1
  locked : (pgp'.bkt id).locked = (pgp.bkt id).locked
  others : ∀ j, j ≠ id → pgp'.bkt j = pgp.bkt j
  image : ∀ q, q ≠ (pgp.bkt id).pgno → pgp'.file.read q = pgp.file.read q
  vacated : pgp'.file.read (pgp.bkt id).pgno = fun _ => 0
  npages : pgp'.npages = if pgp.npages ≤ n then n + 1 else pgp.npages

theorem changePage_spec (h : Tidy tid pgp) (counted : Counted pgp) (mem : id ∈ pgp.lqh)
    (pinned : (pgp.bkt id).pinned = true) {n : Nat} (fresh : ¬pgp.Cached n) :
    ∃ pgp', (changePage (ε := ε) id n).run pgp = (.ok false pgp', []) ∧ Moves tid id n pgp pgp' := by
  have alone := h.alone id mem
  refine ⟨pgp.renumber id n, by simp [changePage, pinned, alone.waiters], ?_⟩
  have out : id ∉ (pgp.unlink id).lqh := h.linked.not_mem_unlink
  have entry : (pgp.renumber id n).bkt id = { pgp.bkt id with
      dirty := true, ref := (pgp.bkt id).ref - 1, pgno := n, owner := 0, pinned := false } := by
    simp [renumber, cleanPageOndisk]
  have other : ∀ j, j ≠ id → (pgp.renumber id n).bkt j = pgp.bkt j := fun j ne => by
    simp [renumber, cleanPageOndisk, setBkt_other ne]
  have linked : (pgp.renumber id n).Linked := by
    have reset := (h.linked.unlink id).setBkt_of_not_mem (f := fun b => { b with
      dirty := true, ref := b.ref - 1, pgno := n, owner := 0, pinned := false }) out
    refine (reset.link out ?_ (h.linked.below id mem)).congr rfl rfl rfl fun _ _ => rfl
    rintro ⟨j, memj, eq⟩
    have ne : j ≠ id := fun same => out (same ▸ memj)
    simp only [setBkt_same, setBkt_other ne] at eq
    exact fresh ⟨j, List.mem_of_mem_erase memj, eq⟩
  have same : ∀ j, j ∈ (pgp.renumber id n).lqh ↔ j ∈ pgp.lqh := fun j => mem_requeue h.linked.toChained mem
  have npages : (pgp.renumber id n).npages = if pgp.npages ≤ n then n + 1 else pgp.npages := rfl
  have image : ∀ q, q ≠ (pgp.bkt id).pgno →
      (pgp.renumber id n).file.read q = pgp.file.read q := fun q ne => Pagefile.read_write_other ne
  have vacated : (pgp.renumber id n).file.read (pgp.bkt id).pgno = fun _ => 0 :=
    Pagefile.read_write_same _ _ _
  have tidy : Tidy tid (pgp.renumber id n) := by
    refine ⟨linked, h.filters, fun j memj => ?_, fun k high => ?_⟩
    · by_cases eq : j = id
      · rw [eq, entry]
        refine ⟨alone.waiters, alone.wqh, fun p => ?_⟩
        cases p
      · rw [other j eq]
        exact h.alone j ((same j).mp memj)
    · by_cases eq : k = (pgp.bkt id).pgno
      · rw [eq, vacated]
        exact pageSign_zero
      · rw [image k eq]
        refine h.tail k (le_trans ?_ high)
        rw [npages]
        split <;> omega
  refine { tidy := tidy, sound := fun s trip => ⟨tidy, ?_, ?_⟩, counted := ?_, pgin := rfl,
           pgout := rfl, rdonly := rfl, maxcache := rfl, maxpgno := rfl, mem := same,
           number := by rw [entry], page := by rw [entry], dirty := by rw [entry],
           free := by rw [entry], ref := by rw [entry], locked := by rw [entry], others := other,
           image := image, vacated := vacated, npages := npages }
  · intro k
    by_cases eq : k = (pgp.bkt id).pgno
    · rw [eq, vacated]
      exact h.filters.in_zero _
    · rw [image k eq]
      exact s.readable k
  · intro j memj
    by_cases eq : j = id
    · rw [eq, entry]
      exact fun _ _ => trip
    · rw [other j eq]
      exact s.writable j ((same j).mp memj)
  · have pos := List.length_pos_of_mem mem
    have size := List.length_erase_of_mem mem
    change pgp.curcache = (pgp.lqh.erase id ++ [id]).length
    rw [List.length_append, size, List.length_singleton, counted]
    omega

theorem Moves.once (h : Moves tid id n pgp pgp') (once : Once pgp) (mem : id ∈ pgp.lqh)
    (pinned : (pgp.bkt id).pinned = true) : Once pgp' := by
  intro j memj
  by_cases same : j = id
  · have one := once id mem
    rw [pinned] at one
    rw [same, h.free, h.ref, one]
    rfl
  · rw [h.others j same]
    exact once j ((h.mem j).mp memj)

theorem Moves.shows (h : Moves tid id n pgp pgp') {q : Nat} {c : Page}
    (old : q ≠ (pgp.bkt id).pgno) (new : q ≠ n) (shows : pgp'.Shows q c) : pgp.Shows q c := by
  have grown : pgp.npages ≤ pgp'.npages := by
    rw [h.npages]
    split <;> omega
  rcases shows with ⟨j, mem, eq, agree⟩ | ⟨clean, stored⟩
  · have ne : j ≠ id := fun same => new (by rw [← eq, same, h.number])
    rw [h.others j ne] at eq agree
    exact .inl ⟨j, (h.mem j).mp mem, eq, agree⟩
  · refine .inr ⟨fun j mem eq => ?_, stored.congr h.pgin (h.image q old) grown⟩
    have ne : j ≠ id := fun same => old (by rw [← eq, same])
    have := clean j ((h.mem j).mpr mem) (by rw [h.others j ne]; exact eq)
    rwa [h.others j ne] at this

theorem Moves.shows_new (h : Moves tid id n pgp pgp') (mem : id ∈ pgp.lqh) {c : Page}
    (shows : pgp'.Shows n c) : Agree c (pgp.bkt id).page := by
  have mem' := (h.mem id).mpr mem
  rcases shows with ⟨j, memj, eq, agree⟩ | ⟨clean, _⟩
  · have same : j = id := h.tidy.linked.unique j memj id mem' (by rw [eq, h.number])
    rw [same, h.page] at agree
    exact agree
  · have := clean id mem' h.number
    rw [h.dirty] at this
    cases this

theorem Moves.shows_old (h : Moves tid id n pgp pgp') (tidy : Tidy tid pgp) (mem : id ∈ pgp.lqh)
    (ne : n ≠ (pgp.bkt id).pgno) {c : Page} (shows : pgp'.Shows (pgp.bkt id).pgno c) :
    Clear c ∨ ∃ d, pgp.pgin (pgp.bkt id).pgno (fun _ => 0) = some d ∧ Agree c d := by
  rcases shows with ⟨j, memj, eq, _⟩ | ⟨_, ⟨d, run, agree⟩ | ⟨_, clear⟩⟩
  · by_cases same : j = id
    · rw [same, h.number] at eq
      exact absurd eq ne
    · rw [h.others j same] at eq
      exact absurd (tidy.linked.unique j ((h.mem j).mp memj) id mem eq) same
  · rw [h.vacated, h.pgin] at run
    exact .inr ⟨d, run, agree⟩
  · exact .inl clear

end FileHash.Pagepool
