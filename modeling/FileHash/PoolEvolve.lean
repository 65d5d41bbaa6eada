import FileHash.PoolLinks

/-! What the page pool does on its own account: it writes dirty pages nobody holds,
and evicts pages nobody holds. `Evolves` says what such activity can and cannot
change, as seen by the pages that are held and by later fetches of any page. -/
namespace FileHash

def Agree (a b : Page) : Prop := ∀ i, i < chksumPos ∨ chksumOffset ≤ i → a i = b i

theorem Agree.refl (a : Page) : Agree a a := fun _ _ => rfl

theorem Agree.symm {a b : Page} (h : Agree a b) : Agree b a := fun i hi => (h i hi).symm

theorem Agree.trans {a b c : Page} (h : Agree a b) (h' : Agree b c) : Agree a c :=
  fun i hi => (h i hi).trans (h' i hi)

theorem Agree.read32 {a b : Page} (h : Agree a b) {x : Nat} (hx : x + 4 ≤ 20 ∨ 24 ≤ x) :
    a.read32 x = b.read32 x :=
  Lib.Mem.read32_congr fun i _ _ => h i (by simp only [chksumPos, chksumOffset]; omega)

theorem Agree.read16 {a b : Page} (h : Agree a b) {x : Nat} (hx : x + 2 ≤ 20 ∨ 24 ≤ x) :
    a.read16 x = b.read16 x :=
  Lib.Mem.read16_congr fun i _ _ => h i (by simp only [chksumPos, chksumOffset]; omega)

theorem agree_setChksum (p : Page) (v : Nat) : Agree (Page.setChksum p v) p := by
  intro i hi
  simp only [chksumPos, chksumOffset] at hi
  exact Lib.Mem.write32_outside (by omega)

/-- The first bytes of the page are clear, as the pool leaves them on a page it creates. -/
def Clear (p : Page) : Prop := ∀ i, i < cleanhdrSize → p i = 0

theorem Pagefile.read_write_same (f : Pagefile) (n : Nat) (p : Page) :
    (f.write n p).read n = p := by
  have : n < max f.length (n + 1) := by omega
  simp [Pagefile.read, Pagefile.write, this]

theorem Pagefile.read_write_other {f : Pagefile} {n k : Nat} {p : Page} (h : k ≠ n) :
    (f.write n p).read k = f.read k := by
  by_cases hk : k < max f.length (n + 1)
  · simp [Pagefile.read, Pagefile.write, hk, h]
  · have : ¬k < f.length := by omega
    simp [Pagefile.read, Pagefile.write, hk, this]

namespace Pagepool

structure Filters (pgin : Nat → Page → Option Page) (pgout : Nat → Page → Page) : Prop where
  out_agree : ∀ n c, Agree (pgout n c) c
  in_agree : ∀ n c d, Page.pageSign c = pageMagic → pgin n c = some d → Agree d c
  in_zero : ∀ n, ∃ c, pgin n (fun _ => 0) = some c

/-- What is written of `c` reads back as `c`. -/
def RoundTrip (pgp : Pagepool) (n : Nat) (c : Page) : Prop :=
  ∃ d, pgp.pgin n (pgp.pgout n c) = some d ∧ Agree d c

structure Alone (tid : Nat) (b : Bkt) : Prop where
  waiters : b.waiters = 0
  wqh : b.wqh = []
  owner : b.pinned → b.owner = tid

structure Tidy (tid : Nat) (pgp : Pagepool) : Prop where
  linked : pgp.Linked
  filters : Filters pgp.pgin pgp.pgout
  alone : ∀ id ∈ pgp.lqh, Alone tid (pgp.bkt id)
  tail : ∀ n, pgp.npages ≤ n → Page.pageSign (pgp.file.read n) ≠ pageMagic

/-- A tidy pool whose pages survive a trip to the file and back. -/
structure Sound (tid : Nat) (pgp : Pagepool) : Prop extends Tidy tid pgp where
  readable : ∀ n, ∃ c, pgp.pgin n (pgp.file.read n) = some c
  writable : ∀ id ∈ pgp.lqh, (pgp.bkt id).dirty → (pgp.bkt id).pinned = false →
    pgp.RoundTrip (pgp.bkt id).pgno (pgp.bkt id).page

def Once (pgp : Pagepool) : Prop :=
  ∀ id ∈ pgp.lqh, (pgp.bkt id).ref = if (pgp.bkt id).pinned then 1 else 0

/-- What a fetch of page `p` may find when the page is not in the cache. -/
def Stored (pgp : Pagepool) (p : Nat) (c : Page) : Prop :=
  (∃ d, pgp.pgin p (pgp.file.read p) = some d ∧ Agree c d) ∨ (pgp.npages ≤ p ∧ Clear c)

/-- No entry of the cache has bytes for `p` that are newer than the file's. -/
def CleanAt (pgp : Pagepool) (p : Nat) : Prop :=
  ∀ id ∈ pgp.lqh, (pgp.bkt id).pgno = p → (pgp.bkt id).dirty = false

/-- What a fetch of page `p` may find, now or after any flushing and eviction. -/
def Shows (pgp : Pagepool) (p : Nat) (c : Page) : Prop :=
  (∃ id ∈ pgp.lqh, (pgp.bkt id).pgno = p ∧ Agree c (pgp.bkt id).page) ∨
    (pgp.CleanAt p ∧ pgp.Stored p c)

/-- Every page number met so far is below `t`. -/
structure Below (pgp : Pagepool) (t : Nat) : Prop where
  file : pgp.npages ≤ t
  top : pgp.maxpgno ≤ t
  cache : ∀ id ∈ pgp.lqh, (pgp.bkt id).pgno < t

/-- The file goes no further than the pages that were met, the header apart. -/
def Reached (pgp : Pagepool) : Prop := pgp.file.length ≤ max 1 pgp.npages

/-- The entry is marked dirty, or it agrees with its page's image if the file has one. -/
def Saved (pgp : Pagepool) (id : Nat) : Prop :=
  (pgp.bkt id).dirty ∨ (Page.pageSign (pgp.file.read (pgp.bkt id).pgno) = pageMagic →
    Agree (pgp.bkt id).page (pgp.file.read (pgp.bkt id).pgno))

/-- `b` after it was possibly written to the file. -/
def Flushed (b b' : Bkt) : Prop :=
  b' = b ∨ (b.dirty ∧ b.pinned = false ∧ Agree b'.page b.page ∧
    b' = { b with page := b'.page, dirty := false })

/-- Background activity: flushing and eviction, by thread `tid`. -/
structure Evolves (tid : Nat) (pgp pgp' : Pagepool) : Prop where
  tidy : Tidy tid pgp'
  sound : Sound tid pgp → Sound tid pgp'
  pgin : pgp'.pgin = pgp.pgin
  pgout : pgp'.pgout = pgp.pgout
  rdonly : pgp'.rdonly = pgp.rdonly
  maxcache : pgp'.maxcache = pgp.maxcache
  maxpgno : pgp'.maxpgno = pgp.maxpgno
  brk : pgp.brk ≤ pgp'.brk
  sub : ∀ j ∈ pgp'.lqh, j ∈ pgp.lqh ∧ Flushed (pgp.bkt j) (pgp'.bkt j)
  held : ∀ j ∈ pgp.lqh, (pgp.bkt j).pinned → j ∈ pgp'.lqh ∧ pgp'.bkt j = pgp.bkt j
  locked : ∀ j ∈ pgp.lqh, (pgp.bkt j).locked → j ∈ pgp'.lqh
  shows : Sound tid pgp → ∀ q c, pgp'.Shows q c → pgp.Shows q c
  image : ∀ q, (∀ j ∈ pgp.lqh, (pgp.bkt j).pgno = q → (pgp.bkt j).pinned) →
    pgp'.file.read q = pgp.file.read q
  npages : pgp.npages ≤ pgp'.npages
  reached : pgp.Reached → pgp'.Reached
  below : ∀ t, pgp.Below t → pgp'.Below t
  saved : ∀ j ∈ pgp'.lqh, pgp.Saved j → pgp'.Saved j

variable {tid : Nat} {pgp pgp' pgp'' : Pagepool} {id : Nat}

theorem Flushed.refl (b : Bkt) : Flushed b b := .inl rfl

theorem Flushed.same {b b' : Bkt} (h : Flushed b b') :
    b'.pgno = b.pgno ∧ b'.pinned = b.pinned ∧ b'.locked = b.locked ∧ b'.ref = b.ref ∧
      b'.waiters = b.waiters ∧ b'.wqh = b.wqh ∧ b'.owner = b.owner := by
  rcases h with rfl | ⟨_, _, _, e⟩
  · exact ⟨rfl, rfl, rfl, rfl, rfl, rfl, rfl⟩
  · rw [e]
    exact ⟨rfl, rfl, rfl, rfl, rfl, rfl, rfl⟩

theorem Flushed.pgno {b b' : Bkt} (h : Flushed b b') : b'.pgno = b.pgno := h.same.1

theorem Alone.flushed {b b' : Bkt} (h : Alone tid b) (flush : Flushed b b') : Alone tid b' := by
  obtain ⟨_, pin, _, _, wait, queue, own⟩ := flush.same
  exact ⟨wait.trans h.waiters, queue.trans h.wqh, fun p => own.trans (h.owner (pin ▸ p))⟩

theorem Flushed.agree {b b' : Bkt} (h : Flushed b b') : Agree b'.page b.page := by
  rcases h with rfl | ⟨_, _, agree, _⟩
  · exact Agree.refl _
  · exact agree

theorem Flushed.dirty {b b' : Bkt} (h : Flushed b b') (mark : b'.dirty = true) :
    b.dirty = true := by
  rcases h with rfl | ⟨dirty, _⟩
  · exact mark
  · exact dirty

theorem Flushed.trans {a b c : Bkt} (h : Flushed a b) (h' : Flushed b c) : Flushed a c := by
  rcases h with rfl | ⟨dirty, free, agree, e⟩
  · exact h'
  · rcases h' with rfl | ⟨dirty', _⟩
    · exact .inr ⟨dirty, free, agree, e⟩
    · rw [e] at dirty'
      simp at dirty'

theorem Evolves.refl (h : Tidy tid pgp) : Evolves tid pgp pgp where
  tidy := h
  sound := id
  pgin := rfl
  pgout := rfl
  rdonly := rfl
  maxcache := rfl
  maxpgno := rfl
  brk := le_rfl
  sub _ mem := ⟨mem, .refl _⟩
  held _ mem _ := ⟨mem, rfl⟩
  locked _ mem _ := mem
  shows _ _ _ s := s
  image _ _ := rfl
  npages := le_rfl
  reached := id
  below _ b := b
  saved _ _ s := s

theorem Evolves.trans (h : Evolves tid pgp pgp') (h' : Evolves tid pgp' pgp'') :
    Evolves tid pgp pgp'' where
  tidy := h'.tidy
  sound s := h'.sound (h.sound s)
  pgin := h'.pgin.trans h.pgin
  pgout := h'.pgout.trans h.pgout
  rdonly := h'.rdonly.trans h.rdonly
  maxcache := h'.maxcache.trans h.maxcache
  maxpgno := h'.maxpgno.trans h.maxpgno
  brk := h.brk.trans h'.brk
  sub j mem := by
    obtain ⟨mem', flush'⟩ := h'.sub j mem
    obtain ⟨mem'', flush⟩ := h.sub j mem'
    exact ⟨mem'', flush.trans flush'⟩
  held j mem pin := by
    obtain ⟨mem', same⟩ := h.held j mem pin
    obtain ⟨mem'', same'⟩ := h'.held j mem' (by rw [same]; exact pin)
    exact ⟨mem'', same'.trans same⟩
  locked j mem lock := by
    have mem' := h.locked j mem lock
    exact h'.locked j mem' (by rw [(h.sub j mem').2.same.2.2.1]; exact lock)
  shows sound q c s := h.shows sound q c (h'.shows (h.sound sound) q c s)
  image q free := by
    rw [h'.image q, h.image q free]
    intro j mem number
    obtain ⟨mem', flush⟩ := h.sub j mem
    rw [flush.pgno] at number
    rw [flush.same.2.1]
    exact free j mem' number
  npages := h.npages.trans h'.npages
  reached r := h'.reached (h.reached r)
  below t b := h'.below t (h.below t b)
  saved j mem s := h'.saved j mem (h.saved j (h'.sub j mem).1 s)

theorem Evolves.once (h : Evolves tid pgp pgp') (once : Once pgp) : Once pgp' := by
  intro j mem
  obtain ⟨mem', flush⟩ := h.sub j mem
  obtain ⟨_, pin, _, ref, _⟩ := flush.same
  rw [pin, ref]
  exact once j mem'

theorem Stored.congr {p : Nat} {c : Page} (s : pgp'.Stored p c) (pgin : pgp'.pgin = pgp.pgin)
    (image : pgp'.file.read p = pgp.file.read p) (npages : pgp.npages ≤ pgp'.npages) :
    pgp.Stored p c := by
  rcases s with ⟨d, run, agree⟩ | ⟨high, clear⟩
  · exact .inl ⟨d, by rw [← pgin, ← image]; exact run, agree⟩
  · exact .inr ⟨npages.trans high, clear⟩

theorem stored_held (linked : pgp.Linked) (mem : id ∈ pgp.lqh) (pinned : (pgp.bkt id).pinned = true)
    (held : ∀ j ∈ pgp.lqh, (pgp.bkt j).pinned → j ∈ pgp'.lqh ∧ pgp'.bkt j = pgp.bkt j)
    (pgin : pgp'.pgin = pgp.pgin) (npages : pgp.npages ≤ pgp'.npages)
    (image : ∀ q, (∀ j ∈ pgp.lqh, (pgp.bkt j).pgno = q → (pgp.bkt j).pinned) →
      pgp'.file.read q = pgp.file.read q) {c : Page} (clean : pgp'.CleanAt (pgp.bkt id).pgno)
    (stored : pgp'.Stored (pgp.bkt id).pgno c) :
    pgp.CleanAt (pgp.bkt id).pgno ∧ pgp.Stored (pgp.bkt id).pgno c := by
  have only : ∀ j ∈ pgp.lqh, (pgp.bkt j).pgno = (pgp.bkt id).pgno → j = id :=
    fun j memj eq => linked.unique j memj id mem eq
  obtain ⟨mem', same⟩ := held id mem pinned
  refine ⟨fun j memj eq => ?_, stored.congr pgin (image _ fun j memj eq => ?_) npages⟩
  · rw [only j memj eq, ← same]
    exact clean id mem' (by rw [same])
  · rw [only j memj eq]
    exact pinned

@[simp] theorem write_lqh : (pgp.write id).lqh = pgp.lqh := rfl
@[simp] theorem write_hqh : (pgp.write id).hqh = pgp.hqh := rfl
@[simp] theorem write_brk : (pgp.write id).brk = pgp.brk := rfl
@[simp] theorem write_curcache : (pgp.write id).curcache = pgp.curcache := rfl
@[simp] theorem write_maxcache : (pgp.write id).maxcache = pgp.maxcache := rfl

theorem write_bkt_same : (pgp.write id).bkt id =
    { pgp.bkt id with page := pgp.pgout (pgp.bkt id).pgno (pgp.bkt id).page, dirty := false } := by
  simp [write, setBkt]

theorem write_bkt_other {j : Nat} (h : j ≠ id) : (pgp.write id).bkt j = pgp.bkt j := by
  simp [write, setBkt, h]

theorem write_read_same : (pgp.write id).file.read (pgp.bkt id).pgno =
    pgp.pgout (pgp.bkt id).pgno (pgp.bkt id).page := Pagefile.read_write_same _ _ _

theorem write_read_other {q : Nat} (h : q ≠ (pgp.bkt id).pgno) :
    (pgp.write id).file.read q = pgp.file.read q := Pagefile.read_write_other h

theorem write_npages : (pgp.write id).npages = max pgp.npages ((pgp.bkt id).pgno + 1) := by
  change (if pgp.npages ≤ (pgp.bkt id).pgno then (pgp.bkt id).pgno + 1 else pgp.npages) = _
  split <;> omega

theorem npages_le_write : pgp.npages ≤ (pgp.write id).npages := by
  rw [write_npages]
  omega

theorem reached_write (h : pgp.Reached) : (pgp.write id).Reached := by
  have length : (pgp.write id).file.length = max pgp.file.length ((pgp.bkt id).pgno + 1) := rfl
  rw [Reached] at h ⊢
  rw [length, write_npages]
  omega

theorem tidy_write (h : Tidy tid pgp) : Tidy tid (pgp.write id) := by
  have number : ∀ i, ((pgp.write id).bkt i).pgno = (pgp.bkt i).pgno := fun i => by
    by_cases same : i = id
    · rw [same, write_bkt_same]
    · rw [write_bkt_other same]
  refine ⟨h.linked.congr rfl rfl rfl fun i _ => number i, h.filters, ?_, ?_⟩
  · intro j memj
    by_cases same : j = id
    · subst same
      rw [write_bkt_same]
      have alone := h.alone j memj
      exact ⟨alone.waiters, alone.wqh, alone.owner⟩
    · rw [write_bkt_other same]
      exact h.alone j memj
  · intro n high
    rw [write_npages] at high
    rw [write_read_other (by omega)]
    exact h.tail n (by omega)

theorem sound_write (h : Sound tid pgp) (trip : pgp.RoundTrip (pgp.bkt id).pgno (pgp.bkt id).page) :
    Sound tid (pgp.write id) := by
  refine ⟨tidy_write h.toTidy, ?_, ?_⟩
  · intro n
    by_cases same : n = (pgp.bkt id).pgno
    · subst same
      obtain ⟨d, run, _⟩ := trip
      exact ⟨d, by rw [write_read_same]; exact run⟩
    · rw [write_read_other same]
      exact h.readable n
  · intro j memj dirtyj freej
    by_cases same : j = id
    · subst same
      rw [write_bkt_same] at dirtyj
      simp at dirtyj
    · rw [write_bkt_other same] at dirtyj freej ⊢
      exact h.writable j memj dirtyj freej

theorem evolves_write (h : Tidy tid pgp) (mem : id ∈ pgp.lqh) (dirty : (pgp.bkt id).dirty)
    (free : (pgp.bkt id).pinned = false) : Evolves tid pgp (pgp.write id) := by
  have agree := h.filters.out_agree (pgp.bkt id).pgno (pgp.bkt id).page
  have flush : ∀ j, Flushed (pgp.bkt j) ((pgp.write id).bkt j) := by
    intro j
    by_cases same : j = id
    · subst same
      rw [write_bkt_same]
      exact .inr ⟨dirty, free, agree, rfl⟩
    · rw [write_bkt_other same]
      exact .refl _
  have only : ∀ j ∈ pgp.lqh, j ≠ id → (pgp.bkt j).pgno ≠ (pgp.bkt id).pgno :=
    fun j memj ne same => ne (h.linked.unique j memj id mem same)
  refine { tidy := tidy_write h, sound := fun s => sound_write s (s.writable id mem dirty free), pgin := rfl,
           pgout := rfl, rdonly := rfl,
           maxcache := rfl, maxpgno := rfl, brk := le_rfl, sub := fun j memj => ⟨memj, flush j⟩,
           held := ?_, locked := fun _ memj _ => memj, shows := ?_, image := ?_,
           npages := npages_le_write, reached := reached_write, below := ?_, saved := ?_ }
  · intro j memj pin
    refine ⟨memj, write_bkt_other ?_⟩
    rintro rfl
    simp [free] at pin
  · rintro sound q c (⟨j, memj, number, agreej⟩ | ⟨clean, stored⟩)
    · refine .inl ⟨j, memj, ?_, agreej.trans (flush j).agree⟩
      rw [← (flush j).pgno]
      exact number
    · by_cases same : q = (pgp.bkt id).pgno
      · -- the page just written reads back as the entry's bytes
        subst same
        rcases stored with ⟨d, run, agreed⟩ | ⟨high, _⟩
        · rw [write_read_same] at run
          obtain ⟨e, run', agree'⟩ := sound.writable id mem dirty free
          have : some d = some e := run.symm.trans run'
          cases this
          exact .inl ⟨id, mem, rfl, agreed.trans agree'⟩
        · rw [write_npages] at high
          omega
      · refine .inr ⟨?_, stored.congr rfl (write_read_other same) npages_le_write⟩
        intro j memj number
        have other : j ≠ id := fun e => same (by rw [← number, e])
        have := clean j memj (by rw [write_bkt_other other]; exact number)
        rwa [write_bkt_other other] at this
  · intro q pinned
    refine write_read_other ?_
    rintro rfl
    have := pinned id mem rfl
    simp [free] at this
  · intro t b
    refine ⟨?_, b.top, fun j memj => ?_⟩
    · have := b.file
      have := b.cache id mem
      rw [write_npages]
      omega
    · rw [(flush j).pgno]
      exact b.cache j memj
  · intro j memj saved
    by_cases same : j = id
    · subst same
      right
      intro _
      rw [write_bkt_same]
      simp only [write_read_same]
      exact Agree.refl _
    · have number := only j memj same
      simp only [Saved] at saved ⊢
      rw [write_bkt_other same, write_read_other number]
      exact saved

theorem evolves_writeList (h : Tidy tid pgp) (l : List Nat) (mem : ∀ id ∈ l, id ∈ pgp.lqh)
    (free : ∀ id ∈ l, (pgp.bkt id).pinned = false) : Evolves tid pgp (pgp.writeList l) := by
  induction l generalizing pgp with
  | nil => exact .refl h
  | cons id l ih =>
    simp only [writeList, List.foldl_cons]
    by_cases dirty : (pgp.bkt id).dirty
    · rw [if_pos dirty]
      have one := evolves_write h (mem id List.mem_cons_self) dirty (free id List.mem_cons_self)
      refine one.trans (ih one.tidy (fun j hj => mem j (List.mem_cons_of_mem _ hj)) ?_)
      intro j hj
      rw [(one.sub j (mem j (List.mem_cons_of_mem _ hj))).2.same.2.1]
      exact free j (List.mem_cons_of_mem _ hj)
    · rw [if_neg dirty]
      exact ih h (fun j hj => mem j (List.mem_cons_of_mem _ hj))
        (fun j hj => free j (List.mem_cons_of_mem _ hj))

theorem mem_syncList {n : Nat} (h : id ∈ pgp.syncList n) :
    id ∈ pgp.lqh ∧ flushable (pgp.bkt id) := by
  have all : id ∈ pgp.lqh.filter fun i => flushable (pgp.bkt i) := by
    rw [syncList, (slistMergeSort_perm _).mem_iff, List.mem_reverse] at h
    split at h
    · exact h
    · exact List.mem_of_mem_take h
  exact ⟨List.mem_of_mem_filter all, List.of_mem_filter (p := fun i => flushable (pgp.bkt i)) all⟩

theorem evolves_syncI (h : Tidy tid pgp) (n : Nat) : Evolves tid pgp (pgp.syncI n) := by
  refine evolves_writeList h _ (fun id hid => (mem_syncList hid).1) fun id hid => ?_
  have := (mem_syncList hid).2
  simp only [flushable, Bool.and_eq_true, Bool.not_eq_true'] at this
  exact this.1.1

theorem writeList_lqh (l : List Nat) : (pgp.writeList l).lqh = pgp.lqh := by
  induction l generalizing pgp with
  | nil => rfl
  | cons id l ih =>
    simp only [writeList, List.foldl_cons]
    split
    · exact @ih (pgp.write id)
    · exact ih

theorem writeList_curcache (l : List Nat) : (pgp.writeList l).curcache = pgp.curcache := by
  induction l generalizing pgp with
  | nil => rfl
  | cons id l ih =>
    simp only [writeList, List.foldl_cons]
    split
    · exact @ih (pgp.write id)
    · exact ih

theorem evolves_setBkt (h : Tidy tid pgp) (out : id ∉ pgp.lqh) (f : Bkt → Bkt) :
    Evolves tid pgp (pgp.setBkt id f) := by
  have other : ∀ j ∈ pgp.lqh, (pgp.setBkt id f).bkt j = pgp.bkt j :=
    fun j mem => setBkt_other fun e => out (e ▸ mem)
  have tidy : Tidy tid (pgp.setBkt id f) := by
    refine ⟨h.linked.setBkt_of_not_mem out, h.filters, fun j mem => ?_, h.tail⟩
    rw [other j mem]
    exact h.alone j mem
  refine { tidy := tidy, sound := fun s => ⟨tidy, s.readable, ?_⟩,
           pgin := rfl, pgout := rfl, rdonly := rfl, maxcache := rfl, maxpgno := rfl,
           brk := le_rfl, sub := fun j mem => ⟨mem, by rw [other j mem]; exact .refl _⟩,
           held := fun j mem _ => ⟨mem, other j mem⟩, locked := fun _ mem _ => mem, shows := ?_,
           image := fun _ _ => rfl, npages := le_rfl, reached := fun r => r, below := ?_, saved := ?_ }
  · intro j mem
    rw [other j mem]
    exact s.writable j mem
  · rintro _ q c (⟨j, mem, number, agree⟩ | ⟨clean, stored⟩)
    · rw [other j mem] at number agree
      exact .inl ⟨j, mem, number, agree⟩
    · refine .inr ⟨fun j mem number => ?_, stored⟩
      have := clean j mem (by rw [other j mem]; exact number)
      rwa [other j mem] at this
  · intro t b
    refine ⟨b.file, b.top, fun j mem => ?_⟩
    rw [other j mem]
    exact b.cache j mem
  · intro j mem saved
    simp only [Saved] at saved ⊢
    rw [other j mem]
    exact saved

theorem tidy_unlink (h : Tidy tid pgp) (id : Nat) : Tidy tid (pgp.unlink id) :=
  ⟨h.linked.unlink id, h.filters, fun j mem => h.alone j (List.mem_of_mem_erase mem), h.tail⟩

theorem sound_unlink (h : Sound tid pgp) (id : Nat) : Sound tid (pgp.unlink id) :=
  ⟨tidy_unlink h.toTidy id, h.readable, fun j mem => h.writable j (List.mem_of_mem_erase mem)⟩

theorem evolves_unlink (h : Tidy tid pgp) (mem : id ∈ pgp.lqh) (clean : (pgp.bkt id).dirty = false)
    (free : (pgp.bkt id).pinned = false) (unlocked : (pgp.bkt id).locked = false) :
    Evolves tid pgp (pgp.unlink id) := by
  have sub : ∀ j, j ∈ (pgp.unlink id).lqh ↔ j ≠ id ∧ j ∈ pgp.lqh := fun j => by
    rw [unlink_lqh, h.linked.nodup.mem_erase_iff]
  refine { tidy := tidy_unlink h id, sound := fun s => sound_unlink s id, pgin := rfl, pgout := rfl,
           rdonly := rfl, maxcache := rfl, maxpgno := rfl, brk := le_rfl,
           sub := fun j memj => ⟨((sub j).mp memj).2, .refl _⟩, held := ?_, locked := ?_,
           shows := ?_, image := fun _ _ => rfl, npages := le_rfl, reached := fun r => r, below := ?_,
           saved := fun _ _ s => s }
  · intro j memj pin
    refine ⟨(sub j).mpr ⟨?_, memj⟩, rfl⟩
    rintro rfl
    simp [free] at pin
  · intro j memj lock
    refine (sub j).mpr ⟨?_, memj⟩
    rintro rfl
    simp [unlocked] at lock
  · rintro _ q c (⟨j, memj, number, agree⟩ | ⟨cleanq, stored⟩)
    · exact .inl ⟨j, ((sub j).mp memj).2, number, agree⟩
    · refine .inr ⟨fun j memj number => ?_, stored⟩
      by_cases same : j = id
      · rw [same]
        exact clean
      · exact cleanq j ((sub j).mpr ⟨same, memj⟩) number
  · exact fun t b => ⟨b.file, b.top, fun j memj => b.cache j ((sub j).mp memj).2⟩

end Pagepool
end FileHash
