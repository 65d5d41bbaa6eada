import FileHash.PoolThreads

/-! What readers do to the page pool. They fetch pages without marking them and put them
back as they were; flushing and eviction go on behind them. Of the filters nothing is
asked but that the dirty pages of the cache survive a trip to the file, so a file in the
other byte order will do as long as nothing of it has been changed. Any thread may be the
one that reads. -/
namespace FileHash.Pagepool

open Lib (Prog)

def Survives (pgp : Pagepool) (n : Nat) (c : Page) : Prop :=
  Agree (pgp.pgout n c) c ∧ pgp.RoundTrip n c

/-- What a fetch of page `p` may find, up to the checksum. -/
def Looks (pgp : Pagepool) (p : Nat) (c : Page) : Prop := ∃ d, pgp.Shows p d ∧ Agree c d

structure Readable (pgp : Pagepool) : Prop where
  linked : pgp.Linked
  whole : ∀ p, pgp.CleanAt p → ∃ d, pgp.pgin p (pgp.file.read p) = some d
  survives : ∀ id ∈ pgp.lqh, (pgp.bkt id).dirty = true →
    pgp.Survives (pgp.bkt id).pgno (pgp.bkt id).page

def Unmarked (pgp : Pagepool) : Prop := ∀ id ∈ pgp.lqh, (pgp.bkt id).dirty = false

/-- The pool stays readable and shows nothing that it did not show before. -/
structure Keeps (pgp pgp' : Pagepool) : Prop where
  readable : pgp'.Readable
  looks : ∀ q c, pgp'.Looks q c → pgp.Looks q c
  pgin : pgp'.pgin = pgp.pgin
  pgout : pgp'.pgout = pgp.pgout
  npages : pgp.npages ≤ pgp'.npages
  unmarked : pgp.Unmarked → pgp'.Unmarked

def SamePage (b b' : Bkt) : Prop := b'.pgno = b.pgno ∧ b'.page = b.page ∧ b'.dirty = b.dirty

variable {tid p id : Nat} {pgp pgp' pgp'' mid : Pagepool} {b : Bkt} {ε : Type}

theorem Looks.agree {c d : Page} (h : pgp.Looks p d) (same : Agree c d) : pgp.Looks p c := by
  obtain ⟨e, shows, agree⟩ := h
  exact ⟨e, shows, same.trans agree⟩

theorem Shows.looks {c : Page} (h : pgp.Shows p c) : pgp.Looks p c := ⟨c, h, .refl c⟩

theorem looks_cached (mem : id ∈ pgp.lqh) : pgp.Looks (pgp.bkt id).pgno (pgp.bkt id).page :=
  Shows.looks (.inl ⟨id, mem, rfl, .refl _⟩)

theorem looks_back (h : ∀ q c, pgp'.Shows q c → pgp.Looks q c) (q : Nat) (c : Page)
    (l : pgp'.Looks q c) : pgp.Looks q c := by
  obtain ⟨d, shows, agree⟩ := l
  exact (h q d shows).agree agree

theorem Keeps.refl (h : pgp.Readable) : Keeps pgp pgp := ⟨h, fun _ _ s => s, rfl, rfl, le_rfl, fun u => u⟩

theorem Keeps.trans (h : Keeps pgp pgp') (h' : Keeps pgp' pgp'') : Keeps pgp pgp'' where
  readable := h'.readable
  looks q c s := h.looks q c (h'.looks q c s)
  pgin := h'.pgin.trans h.pgin
  pgout := h'.pgout.trans h.pgout
  npages := h.npages.trans h'.npages
  unmarked u := h'.unmarked (h.unmarked u)

theorem keeps_same (h : pgp.Readable) (linked : pgp'.Linked) (mem : ∀ j, j ∈ pgp'.lqh ↔ j ∈ pgp.lqh)
    (entry : ∀ j ∈ pgp.lqh, SamePage (pgp.bkt j) (pgp'.bkt j)) (pgin : pgp'.pgin = pgp.pgin)
    (pgout : pgp'.pgout = pgp.pgout) (file : pgp'.file = pgp.file)
    (npages : pgp'.npages = pgp.npages) : Keeps pgp pgp' := by
  have clean : ∀ q, pgp'.CleanAt q → pgp.CleanAt q := fun q clean j memj number => by
    obtain ⟨samePgno, _, dirty⟩ := entry j memj
    rw [← dirty]
    exact clean j ((mem j).mpr memj) (samePgno.trans number)
  refine ⟨⟨linked, fun q cleanq => ?_, fun j memj dirty => ?_⟩, looks_back ?_, pgin, pgout, npages.ge,
    fun u j memj => ?_⟩
  · rw [pgin, file]
    exact h.whole q (clean q cleanq)
  · obtain ⟨samePgno, page, sameDirty⟩ := entry j ((mem j).mp memj)
    rw [samePgno, page, Survives, RoundTrip, pgin, pgout]
    exact h.survives j ((mem j).mp memj) (sameDirty ▸ dirty)
  · rintro q c (⟨j, memj, number, agree⟩ | ⟨cleanq, stored⟩)
    · obtain ⟨samePgno, page, _⟩ := entry j ((mem j).mp memj)
      rw [samePgno] at number
      rw [page] at agree
      exact Shows.looks (.inl ⟨j, (mem j).mp memj, number, agree⟩)
    · exact Shows.looks (.inr ⟨clean q cleanq, stored.congr pgin (by rw [file]) npages.ge⟩)
  · rw [(entry j ((mem j).mp memj)).2.2]
    exact u j ((mem j).mp memj)

theorem keeps_setBkt (h : pgp.Readable) {f : Bkt → Bkt}
    (same : SamePage (pgp.bkt id) (f (pgp.bkt id))) : Keeps pgp (pgp.setBkt id f) := by
  refine keeps_same h (h.linked.setBkt same.1) (fun _ => Iff.rfl) (fun j _ => ?_) rfl rfl rfl rfl
  by_cases eq : j = id
  · rw [eq, setBkt_same]
    exact same
  · rw [setBkt_other eq]
    exact ⟨rfl, rfl, rfl⟩

theorem keeps_setBkt_out (h : pgp.Readable) (out : id ∉ pgp.lqh) (f : Bkt → Bkt) :
    Keeps pgp (pgp.setBkt id f) := by
  refine keeps_same h (h.linked.setBkt_of_not_mem out) (fun _ => Iff.rfl) (fun j mem => ?_)
    rfl rfl rfl rfl
  rw [setBkt_other fun eq : j = id => out (eq ▸ mem)]
  exact ⟨rfl, rfl, rfl⟩

theorem keeps_requeue (h : pgp.Readable) (mem : id ∈ pgp.lqh) :
    Keeps pgp ((pgp.unlink id).link id) :=
  keeps_same h (h.linked.requeue mem) (fun _ => mem_requeue h.linked.toChained mem)
    (fun _ _ => ⟨rfl, rfl, rfl⟩) rfl rfl rfl rfl

theorem keeps_write (h : pgp.Readable) (mem : id ∈ pgp.lqh) (dirty : (pgp.bkt id).dirty = true) :
    Keeps pgp (pgp.write id) := by
  obtain ⟨agree, d, run, back⟩ := h.survives id mem dirty
  have number : ∀ j, ((pgp.write id).bkt j).pgno = (pgp.bkt j).pgno := fun j => by
    by_cases same : j = id
    · rw [same, write_bkt_same]
    · rw [write_bkt_other same]
  have page : ∀ j, Agree ((pgp.write id).bkt j).page (pgp.bkt j).page := fun j => by
    by_cases same : j = id
    · rw [same, write_bkt_same]
      exact agree
    · rw [write_bkt_other same]
      exact .refl _
  have clean : ∀ q, q ≠ (pgp.bkt id).pgno → (pgp.write id).CleanAt q → pgp.CleanAt q := by
    intro q ne cleanq j memj eq
    have other : j ≠ id := fun same => ne (by rw [← eq, same])
    have := cleanq j memj ((number j).trans eq)
    rwa [write_bkt_other other] at this
  refine ⟨⟨h.linked.congr rfl rfl rfl fun j _ => number j, fun q cleanq => ?_, ?_⟩,
    looks_back ?_, rfl, rfl, npages_le_write, fun u => absurd (u id mem) (by rw [dirty]; decide)⟩
  · by_cases same : q = (pgp.bkt id).pgno
    · rw [same, write_read_same]
      exact ⟨d, run⟩
    · rw [write_read_other same]
      exact h.whole q (clean q same cleanq)
  · intro j memj dirtyj
    have other : j ≠ id := by
      rintro rfl
      rw [write_bkt_same] at dirtyj
      cases dirtyj
    rw [write_bkt_other other] at dirtyj ⊢
    exact h.survives j memj dirtyj
  · rintro q c (⟨j, memj, eq, same⟩ | ⟨cleanq, stored⟩)
    · exact Shows.looks (.inl ⟨j, memj, (number j).symm.trans eq, same.trans (page j)⟩)
    · by_cases same : q = (pgp.bkt id).pgno
      · -- what was written reads back as the entry's bytes
        subst same
        rcases stored with ⟨e, run', same⟩ | ⟨high, _⟩
        · rw [write_read_same] at run'
          have eq : some e = some d := run'.symm.trans run
          cases eq
          exact (looks_cached mem).agree (same.trans back)
        · rw [write_npages] at high
          omega
      · exact Shows.looks (.inr ⟨clean q same cleanq,
          stored.congr rfl (write_read_other same) npages_le_write⟩)

theorem keeps_writeList (h : pgp.Readable) (l : List Nat) (mem : ∀ id ∈ l, id ∈ pgp.lqh) :
    Keeps pgp (pgp.writeList l) := by
  induction l generalizing pgp with
  | nil => exact .refl h
  | cons id l ih =>
    simp only [writeList, List.foldl_cons]
    have rest : ∀ j ∈ l, j ∈ pgp.lqh := fun j memj => mem j (List.mem_cons_of_mem _ memj)
    by_cases dirty : (pgp.bkt id).dirty
    · rw [if_pos dirty]
      have one := keeps_write h (mem id List.mem_cons_self) dirty
      exact one.trans (ih one.readable rest)
    · rw [if_neg dirty]
      exact ih h rest

theorem keeps_syncI (h : pgp.Readable) (n : Nat) : Keeps pgp (pgp.syncI n) :=
  keeps_writeList h _ fun _ mem => (mem_syncList mem).1

theorem keeps_unlink (h : pgp.Readable) (clean : (pgp.bkt id).dirty = false) :
    Keeps pgp (pgp.unlink id) := by
  have back : ∀ q, (pgp.unlink id).CleanAt q → pgp.CleanAt q := fun q cleanq j memj eq => by
    by_cases same : j = id
    · rw [same]
      exact clean
    · refine cleanq j ?_ eq
      rw [unlink_lqh, h.linked.nodup.mem_erase_iff]
      exact ⟨same, memj⟩
  refine ⟨⟨h.linked.unlink id, fun q cleanq => h.whole q (back q cleanq),
    fun j memj => h.survives j (List.mem_of_mem_erase memj)⟩, looks_back ?_, rfl, rfl, le_rfl,
    fun u j memj => u j (List.mem_of_mem_erase memj)⟩
  rintro q c (⟨j, memj, eq, agree⟩ | ⟨cleanq, stored⟩)
  · exact Shows.looks (.inl ⟨j, List.mem_of_mem_erase memj, eq, agree⟩)
  · exact Shows.looks (.inr ⟨back q cleanq, stored⟩)

theorem Keeps.enter (k : Keeps pgp mid) (out : id ∉ mid.lqh) (low : id < mid.brk)
    (fresh : ¬mid.Cached b.pgno) (clean : b.dirty = false) (shown : pgp.Looks b.pgno b.page)
    (top : Nat) : Keeps pgp (mid.enter id b top) := by
  have h := k.readable
  have other : ∀ j ∈ mid.lqh, (mid.enter id b top).bkt j = mid.bkt j :=
    fun j mem => enter_bkt_other fun eq => out (eq ▸ mem)
  have linked : (mid.enter id b top).Linked := by
    have reset : (mid.setBkt id fun _ => b).Linked := h.linked.setBkt_of_not_mem out
    refine (reset.link out ?_ low).congr rfl rfl rfl fun _ _ => rfl
    rintro ⟨j, mem, eq⟩
    have ne : j ≠ id := fun eq => out (eq ▸ mem)
    simp only [setBkt_same, setBkt_other ne] at eq
    exact fresh ⟨j, mem, eq⟩
  have back : ∀ q, (mid.enter id b top).CleanAt q → mid.CleanAt q := fun q cleanq j mem eq => by
    have := cleanq j (mem_enter.mpr (.inl mem)) (by rw [other j mem]; exact eq)
    rwa [other j mem] at this
  refine ⟨⟨linked, fun q cleanq => h.whole q (back q cleanq), ?_⟩, looks_back ?_, k.pgin, k.pgout,
    k.npages, fun u j mem => ?_⟩
  · intro j mem dirty
    rcases mem_enter.mp mem with mem | rfl
    · rw [other j mem] at dirty ⊢
      exact h.survives j mem dirty
    · rw [enter_bkt_same, clean] at dirty
      cases dirty
  · rintro q c (⟨j, mem, eq, agree⟩ | ⟨cleanq, stored⟩)
    · rcases mem_enter.mp mem with mem | rfl
      · rw [other j mem] at eq agree
        exact k.looks q c (Shows.looks (.inl ⟨j, mem, eq, agree⟩))
      · rw [enter_bkt_same] at eq agree
        rw [← eq]
        exact shown.agree agree
    · exact k.looks q c (Shows.looks (.inr ⟨back q cleanq, stored⟩))
  · rcases mem_enter.mp mem with mem | rfl
    · rw [other j mem]
      exact k.unmarked u j mem
    · rw [enter_bkt_same]
      exact clean

theorem keeps_newBkt (h : pgp.Readable) : Keeps pgp (newBkt tid pgp).2 := by
  have out : pgp.brk ∉ pgp.lqh := fun mem => absurd (h.linked.below _ mem) (lt_irrefl _)
  have other : ∀ j ∈ pgp.lqh, (newBkt tid pgp).2.bkt j = pgp.bkt j :=
    fun j mem => newBkt_bkt_other fun same => out (same ▸ mem)
  have linked : (newBkt tid pgp).2.Linked :=
    ⟨(recycled_newBkt h.linked.toChained).chained, fun i memi j memj eq => by
      rw [other i memi, other j memj] at eq
      exact h.linked.unique i memi j memj eq⟩
  refine keeps_same h linked (fun _ => Iff.rfl) (fun j mem => ?_) rfl rfl rfl rfl
  rw [other j mem]
  exact ⟨rfl, rfl, rfl⟩

structure Spares (tid : Nat) (pgp : Pagepool) (id : Nat) (mid : Pagepool) : Prop where
  recycled : Recycled pgp id mid
  keeps : Keeps pgp mid
  counted : mid.curcache = mid.lqh.length + 1
  clean : (mid.bkt id).dirty = false
  owner : (mid.bkt id).owner = tid
  top : mid.maxpgno = pgp.maxpgno

theorem writeList_maxpgno (l : List Nat) : (pgp.writeList l).maxpgno = pgp.maxpgno := by
  induction l generalizing pgp with
  | nil => rfl
  | cons i l ih =>
    simp only [writeList, List.foldl_cons]
    split
    · exact @ih (pgp.write i)
    · exact ih

theorem Spares.syncI (h : Spares tid pgp id mid) (n : Nat) : Spares tid pgp id (mid.syncI n) where
  recycled := h.recycled.syncI n
  keeps := h.keeps.trans (keeps_syncI h.keeps.readable n)
  counted := by
    rw [Pagepool.syncI, writeList_curcache, writeList_lqh]
    exact h.counted
  clean := by
    rw [syncI_bkt h.recycled.out]
    exact h.clean
  owner := by
    rw [syncI_bkt h.recycled.out]
    exact h.owner
  top := by
    rw [Pagepool.syncI, writeList_maxpgno]
    exact h.top

theorem spares_drop (h : pgp.Readable) (counted : Counted pgp) (mem : id ∈ pgp.lqh)
    (idle : evictable (pgp.bkt id) = true) (clean : (pgp.bkt id).dirty = false) :
    Spares tid pgp id ((pgp.unlink id).setBkt id (freshBkt tid)) := by
  have away := keeps_unlink h clean
  refine ⟨recycled_drop h.linked.toChained mem idle,
    away.trans (keeps_setBkt_out away.readable h.linked.not_mem_unlink _), ?_, ?_, ?_, rfl⟩
  · have size := List.length_erase_of_mem mem
    have pos := List.length_pos_of_mem mem
    simp only [setBkt_curcache, unlink_curcache, setBkt_lqh, unlink_lqh, size]
    rw [counted]
    omega
  · rw [setBkt_same]
    rfl
  · rw [setBkt_same]
    rfl

theorem spares_evict (h : pgp.Readable) (counted : Counted pgp) (mem : id ∈ pgp.lqh)
    (idle : evictable (pgp.bkt id) = true) : Spares tid pgp id (evict tid pgp id) := by
  by_cases dirty : (pgp.bkt id).dirty
  · have free : (pgp.bkt id).pinned = false := by
      simp only [evictable, Bool.and_eq_true, Bool.not_eq_true'] at idle
      exact idle.1.2
    have written : ∀ j, Written (pgp.bkt j) ((pgp.write id).bkt j) := by
      intro j
      by_cases same : j = id
      · rw [same, write_bkt_same]
        exact .inr ⟨free, rfl⟩
      · exact .inl (write_bkt_other same)
    have write := keeps_write h mem dirty
    have gone : Spares tid (pgp.write id) id (((pgp.write id).unlink id).setBkt id (freshBkt tid)) := by
      refine spares_drop write.readable counted mem ?_ ?_
      · rw [write_bkt_same]
        exact idle
      · rw [write_bkt_same]
    simp only [evict, if_pos dirty]
    refine Spares.syncI ?_ _
    exact ⟨gone.recycled.written rfl written, write.trans gone.keeps, gone.counted, gone.clean,
      gone.owner, gone.top⟩
  · simp only [evict, if_neg dirty]
    exact spares_drop h counted mem idle (by simpa using dirty)

theorem spares_newBkt (h : pgp.Readable) (counted : Counted pgp) :
    Spares tid pgp pgp.brk (newBkt tid pgp).2 := by
  refine ⟨recycled_newBkt h.linked.toChained, keeps_newBkt h, ?_, ?_, ?_, rfl⟩
  · change pgp.curcache + 1 = pgp.lqh.length + 1
    rw [counted]
  · simp [newBkt, freshBkt]
  · simp [newBkt, freshBkt]

theorem obtainBkt_spares (tid : Nat) (h : pgp.Readable) (counted : Counted pgp) :
    ∃ id mid, (obtainBkt (ε := ε) tid).run pgp = (.ok id mid, []) ∧ Spares tid pgp id mid := by
  by_cases grown : pgp.maxcache < pgp.curcache
  · have some : pgp.lqh ≠ [] := by
      intro none
      rw [counted, none] at grown
      exact absurd grown (Nat.not_lt_zero _)
    cases found : pgp.lqh.find? fun id => evictable (pgp.bkt id) with
    | none =>
      refine ⟨pgp.brk, (newBkt tid pgp).2, ?_, spares_newBkt h counted⟩
      simp [obtainBkt, grown, some, found]
    | some id =>
      refine ⟨id, evict tid pgp id, ?_, spares_evict h counted (List.mem_of_find?_eq_some found)
        (by simpa using List.find?_some found)⟩
      simp [obtainBkt, grown, some, found]
  · refine ⟨pgp.brk, (newBkt tid pgp).2, ?_, spares_newBkt h counted⟩
    simp [obtainBkt, grown]

theorem Spares.fresh (h : Spares tid pgp id mid) (fresh : ¬pgp.Cached p) : ¬mid.Cached p := by
  rintro ⟨j, mem, eq⟩
  obtain ⟨old, _⟩ := (h.recycled.mem j).mp mem
  exact fresh ⟨j, old, by rw [← (h.recycled.others j mem).pgno, eq]⟩

/-- A reader has taken page `p` in hand, as entry `id`. -/
structure Fetches (tid p : Nat) (pgp : Pagepool) (id : Nat) (pgp' : Pagepool) : Prop where
  keeps : Keeps pgp pgp'
  counted : Counted pgp'
  mem : id ∈ pgp'.lqh
  number : (pgp'.bkt id).pgno = p
  pinned : (pgp'.bkt id).pinned = true
  alone : (∀ j ∈ pgp.lqh, Alone tid (pgp.bkt j)) → ∀ j ∈ pgp'.lqh, Alone tid (pgp'.bkt j)
  held : ∀ j ∈ pgp.lqh, (pgp.bkt j).pinned = true → (pgp.bkt j).pgno ≠ p →
    j ∈ pgp'.lqh ∧ pgp'.bkt j = pgp.bkt j
  top : pgp'.maxpgno ≤ max pgp.maxpgno p

theorem fetches_enter (s : Spares tid pgp id mid) (fresh : ¬pgp.Cached p) (number : b.pgno = p)
    (clean : b.dirty = false) (shown : pgp.Looks p b.page) (pinned : b.pinned = true)
    (owner : b.owner = tid) (waiters : b.waiters = 0) (wqh : b.wqh = (mid.bkt id).wqh) {top : Nat}
    (low : top ≤ max pgp.maxpgno p) : Fetches tid p pgp id (mid.enter id b top) := by
  have r := s.recycled
  have keeps := s.keeps.enter (b := b) r.out r.low (by rw [number]; exact s.fresh fresh) clean
    (by rw [number]; exact shown) top
  have other : ∀ j ∈ mid.lqh, (mid.enter id b top).bkt j = mid.bkt j :=
    fun j mem => enter_bkt_other fun eq : j = id => r.out (eq ▸ mem)
  refine ⟨keeps, ?_, mem_enter.mpr (.inr rfl), ?_, ?_, fun alone j mem => ?_,
    fun j mem pin _ => ?_, low⟩
  · have := s.counted
    simp only [Counted, enter, link_lqh, setBkt_lqh, List.length_append, List.length_singleton]
    exact this
  · rw [enter_bkt_same, number]
  · rw [enter_bkt_same, pinned]
  · rcases mem_enter.mp mem with mem | rfl
    · rw [other j mem]
      have old := alone j ((r.mem j).mp mem).1
      rcases r.others j mem with eq | ⟨_, eq⟩
      · rw [eq]
        exact old
      · rw [eq]
        exact ⟨old.waiters, old.wqh, old.owner⟩
    · rw [enter_bkt_same]
      refine ⟨waiters, ?_, fun _ => owner⟩
      rw [wqh]
      rcases r.wqh with empty | ⟨mem, same⟩
      · exact empty
      · rw [same]
        exact (alone j mem).wqh
  · have ne : j ≠ id := by
      rintro rfl
      have idle := r.idle mem
      simp [evictable, pin] at idle
    have memMid := (r.mem j).mpr ⟨mem, ne⟩
    refine ⟨mem_enter.mpr (.inl memMid), ?_⟩
    rw [other j memMid]
    rcases r.others j memMid with eq | ⟨free, _⟩
    · exact eq
    · rw [pin] at free
      cases free

theorem loadNewPage_fetches (tid : Nat) (h : pgp.Readable) (counted : Counted pgp)
    (fresh : ¬pgp.Cached p) (create : Bool) : ∃ id pgp',
      (loadNewPage (ε := ε) tid p { create := create }).run pgp = (.ok id pgp', []) ∧
      Fetches tid p pgp id pgp' ∧ pgp'.maxpgno = pgp.maxpgno := by
  obtain ⟨id, mid, run, s⟩ := obtainBkt_spares (ε := ε) tid h counted
  have absent : mid.CleanAt p := fun j mem eq => absurd ⟨j, mem, eq⟩ (s.fresh fresh)
  obtain ⟨page, read⟩ := s.keeps.readable.whole p absent
  have shown : pgp.Looks p page :=
    s.keeps.looks p page (Shows.looks (.inr ⟨absent, .inl ⟨page, read, .refl _⟩⟩))
  refine ⟨id, mid.enter id (loadedBkt tid p { create := create } page (mid.bkt id)) mid.maxpgno, ?_, ?_,
    s.top⟩
  · simp only [loadNewPage, Prog.run_bind run, Prog.run_read_bind, Prog.run_modify_bind, read,
      Prog.run_pure, List.append_nil, Prod.mk.injEq, and_true]
    rw [setBkt_link (by simp [applyFlags]), setBkt_setBkt]
    rfl
  · refine fetches_enter (b := loadedBkt tid p { create := create } page (mid.bkt id)) s fresh rfl ?_
      shown s.recycled.pinned rfl rfl rfl ?_
    · simp [loadedBkt, applyFlags, s.clean]
    · rw [s.top]
      exact le_max_left _ _

theorem newPageI_fetches (tid : Nat) (h : pgp.Readable) (counted : Counted pgp)
    (fresh : ¬pgp.Cached p) (high : pgp.npages ≤ p) (room : pgp.maxpgno ≠ maxPageNumber) : ∃ id pgp',
      (newPageI (ε := ε) tid p { create := true, request := true }).run pgp =
        (.ok (id, p) pgp', []) ∧ Fetches tid p pgp id pgp' := by
  obtain ⟨id, mid, run, s⟩ := obtainBkt_spares (ε := ε) tid h counted
  have absent : pgp.CleanAt p := fun j mem eq => absurd ⟨j, mem, eq⟩ fresh
  refine ⟨id, mid.enter id (createdBkt tid p { create := true, request := true } (mid.bkt id))
    (max mid.maxpgno p), ?_, ?_⟩
  · simp only [newPageI, Prog.run_read_bind, if_neg room, Prog.run_bind run, Prog.run_modify_bind,
      Prog.run_pure, List.append_nil, if_true, Prod.mk.injEq, and_true]
    rw [setBkt_link (by simp [applyFlags]), setBkt_setBkt]
    simp [enter, createdBkt, setBkt, link, applyFlags]
  · refine fetches_enter (b := createdBkt tid p { create := true, request := true } (mid.bkt id)) s
      fresh rfl ?_ ?_ s.recycled.pinned rfl s.recycled.waiters rfl ?_
    · simp [createdBkt, applyFlags, s.clean]
    · exact Shows.looks (.inr ⟨absent, .inr ⟨high, clear_fill _⟩⟩)
    · rw [s.top]

theorem fetches_grab (h : pgp.Readable) (counted : Counted pgp) (mem : id ∈ pgp.lqh) (create : Bool) :
    Fetches tid (pgp.bkt id).pgno pgp id (grab tid { create := create } pgp id) := by
  have kept : SamePage (pgp.bkt id) (applyFlags { create := create } (hold tid (pgp.bkt id))) := by
    simp only [SamePage, applyFlags, hold]
    split <;> simp
  have entry : (grab tid { create := create } pgp id).bkt id =
      applyFlags { create := create } (hold tid (pgp.bkt id)) := by
    simp [grab]
  have other : ∀ j, j ≠ id → (grab tid { create := create } pgp id).bkt j = pgp.bkt j :=
    fun j ne => by simp [grab, setBkt_other ne]
  have held := keeps_setBkt (f := fun b => applyFlags { create := create } (hold tid b)) h kept
  have all : Keeps pgp (grab tid { create := create } pgp id) :=
    held.trans (keeps_requeue held.readable mem)
  have same : ∀ {j}, j ∈ (grab tid { create := create } pgp id).lqh ↔ j ∈ pgp.lqh :=
    mem_requeue held.readable.linked.toChained mem
  refine ⟨all, ?_, same.mpr mem, by rw [entry]; exact kept.1, ?_, fun alone j memj => ?_,
    fun j memj _ ne => ⟨same.mpr memj, other j ?_⟩, le_max_left _ _⟩
  · exact counted_requeue (show Counted (pgp.setBkt id _) from counted) mem
  · rw [entry]
    simp only [applyFlags, hold]
    split <;> rfl
  · by_cases eq : j = id
    · subst eq
      rw [entry]
      have old := alone j mem
      simp only [applyFlags, hold]
      split
      · exact ⟨old.waiters, old.wqh, fun _ => ‹_›⟩
      · exact ⟨old.waiters, old.wqh, fun _ => rfl⟩
    · rw [other j eq]
      exact alone j (same.mp memj)
  · rintro rfl
    exact ne rfl

theorem getPage_fetches (tid p : Nat) (h : pgp.Readable) (counted : Counted pgp) (create : Bool) :
    (∃ id, pgp.find p = some id ∧ mustWait tid (pgp.bkt id) = true ∧
      (getPage (ε := ε) tid p { create := create }).run pgp = (.ok (.wait id) pgp, [])) ∨
    (∃ id pgp', (getPage (ε := ε) tid p { create := create }).run pgp = (.ok (.page id) pgp', []) ∧
      Fetches tid p pgp id pgp' ∧ (create = false → pgp'.maxpgno = pgp.maxpgno) ∧
        ∀ j, pgp.find p = some j → mustWait tid (pgp.bkt j) = false) ∨
    (create = true ∧ ¬pgp.Cached p ∧ pgp.npages ≤ p ∧ pgp.maxpgno = maxPageNumber ∧
      (getPage (ε := ε) tid p { create := create }).run pgp = (.halt .abort, [])) := by
  cases found : pgp.find p with
  | some id =>
    obtain ⟨mem, number⟩ := h.linked.find_eq_some.mp found
    by_cases wait : mustWait tid (pgp.bkt id) = true
    · exact .inl ⟨id, rfl, wait, by simp [getPage, found, wait]⟩
    · refine .inr (.inl ⟨id, grab tid { create := create } pgp id, ?_, ?_, fun _ => rfl, ?_⟩)
      · simp only [getPage, Prog.run_read_bind, found, wait, Bool.false_eq_true, false_and, if_false,
          Prog.run_modify_bind, Prog.run_pure]
      · rw [← number]
        exact fetches_grab h counted mem create
      · rintro j ⟨⟩
        simpa using wait
  | none =>
    have fresh := h.linked.find_eq_none.mp found
    by_cases make : create = true ∧ pgp.npages ≤ p
    · obtain ⟨rfl, high⟩ := make
      by_cases room : pgp.maxpgno = maxPageNumber
      · refine .inr (.inr ⟨rfl, fresh, high, room, ?_⟩)
        have full : (newPageI (ε := ε) tid p { create := true, request := true }).run pgp =
            (.halt .abort, []) := by
          simp [newPageI, room]
        simp only [getPage, Prog.run_read_bind, found, Bool.false_eq_true, false_and, if_false, high,
          and_self, if_true]
        exact Prog.run_bind_halt full
      · obtain ⟨id, pgp', run, f⟩ := newPageI_fetches (ε := ε) tid h counted fresh high room
        refine .inr (.inl ⟨id, pgp', ?_, f, fun no => absurd no (by decide), fun _ eq => by cases eq⟩)
        simp only [getPage, Prog.run_read_bind, found, Bool.false_eq_true, false_and, if_false, high,
          and_self, if_true]
        exact Prog.run_bind run
    · obtain ⟨id, pgp', run, f, top⟩ := loadNewPage_fetches (ε := ε) tid h counted fresh create
      refine .inr (.inl ⟨id, pgp', ?_, f, fun _ => top, fun _ eq => by cases eq⟩)
      simp only [getPage, Prog.run_read_bind, found, Bool.false_eq_true, false_and, if_false,
        if_neg make]
      exact Prog.run_bind run

theorem keeps_release (id : Nat) (h : pgp.Readable) : Keeps pgp (pgp.setBkt id (release false)) :=
  keeps_setBkt h ⟨rfl, rfl, by simp [release]⟩

theorem keeps_beginWait (h : pgp.Readable) : Keeps pgp (pgp.beginWait tid id) :=
  keeps_setBkt h ⟨rfl, rfl, rfl⟩

theorem keeps_unqueue (h : pgp.Readable) (mem : id ∈ pgp.lqh) (create : Bool) :
    Keeps pgp (((pgp.setBkt id (unqueue tid { create := create })).unlink id).link id) := by
  have out : Keeps pgp (pgp.setBkt id (unqueue tid { create := create })) :=
    keeps_setBkt h ⟨rfl, rfl, by simp [unqueue, applyFlags]⟩
  exact out.trans (keeps_requeue out.readable mem)

end FileHash.Pagepool
