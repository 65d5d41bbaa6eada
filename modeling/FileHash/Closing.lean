import FileHash.CustodyRuns

/-! A database is closed and opened again. If changes were looked after, what a close leaves in the
file is what the cache had, and the header it leaves is accepted and read back as it was. -/
namespace FileHash

open Lib (Prog)
open Lib.Prog (guarded_bind guarded_mono guarded_and)

namespace Hashhdr

variable {hdr : Hashhdr} {m m' : Lib.Mem}

theorem readBe32_congr {a : Nat} (h : ∀ i, a ≤ i → i < a + 4 → m i = m' i) : readBe32 m a = readBe32 m' a :=
  congrArg bswap32 (Lib.Mem.read32_congr h)

theorem readBe16_congr {a : Nat} (h : ∀ i, a ≤ i → i < a + 2 → m i = m' i) : readBe16 m a = readBe16 m' a := by
  rw [readBe16, readBe16, h a le_rfl (by omega), h (a + 1) (by omega) (by omega)]

theorem decode_congr (h : ∀ i < hashhdrSize, m i = m' i) : decode m = decode m' := by
  have word : ∀ a, a + 4 ≤ hashhdrSize → readBe32 m a = readBe32 m' a :=
    fun a inside => readBe32_congr fun i _ high => h i (by omega)
  have half : ∀ a, a + 2 ≤ hashhdrSize → readBe16 m a = readBe16 m' a :=
    fun a inside => readBe16_congr fun i _ high => h i (by omega)
  have table : ∀ a, a + 4 * ncached ≤ hashhdrSize → (fun i => if i < ncached then readBe32 m (a + 4 * i) else 0) =
      fun i => if i < ncached then readBe32 m' (a + 4 * i) else 0 := by
    intro a inside
    funext i
    split
    · exact word _ (by omega)
    · rfl
  have size : hashhdrSize = 332 := rfl
  have cached : ncached = 32 := rfl
  unfold decode
  rw [table 72 (by omega), table 200 (by omega)]
  simp only [word _ (show 0 + 4 ≤ hashhdrSize by omega), word _ (show 4 + 4 ≤ hashhdrSize by omega),
    word _ (show 8 + 4 ≤ hashhdrSize by omega), word _ (show 12 + 4 ≤ hashhdrSize by omega),
    word _ (show 16 + 4 ≤ hashhdrSize by omega), word _ (show 20 + 4 ≤ hashhdrSize by omega),
    word _ (show 24 + 4 ≤ hashhdrSize by omega), word _ (show 28 + 4 ≤ hashhdrSize by omega),
    word _ (show 32 + 4 ≤ hashhdrSize by omega), word _ (show 36 + 4 ≤ hashhdrSize by omega),
    word _ (show 40 + 4 ≤ hashhdrSize by omega), word _ (show 44 + 4 ≤ hashhdrSize by omega),
    word _ (show 48 + 4 ≤ hashhdrSize by omega), half _ (show 52 + 2 ≤ hashhdrSize by omega),
    half _ (show 54 + 2 ≤ hashhdrSize by omega), half _ (show 56 + 2 ≤ hashhdrSize by omega),
    half _ (show 58 + 2 ≤ hashhdrSize by omega), word _ (show 60 + 4 ≤ hashhdrSize by omega),
    word _ (show 64 + 4 ≤ hashhdrSize by omega), word _ (show 68 + 4 ≤ hashhdrSize by omega)]

theorem checks_congr (h : ∀ i < hashhdrSize, m i = m' i) : checks m = checks m' := by
  have size : hashhdrSize = 332 := rfl
  rw [checks, checks, Lib.Mem.bytes_congr fun i low => h i (by omega),
    readBe32_congr fun i _ high => h i (by omega)]

def On (hdr : Hashhdr) (p : Page) : Prop := ∀ i < hashhdrSize, p i = memOf hdr.encode i

theorem on_put (hdr : Hashhdr) (file : Pagefile) : hdr.On ((hdr.put file).read 0) := by
  intro i low
  rw [put, Pagefile.read_write_same, Lib.Mem.copy_inside ⟨Nat.zero_le _, by omega⟩]
  rfl

theorem On.checks (on : hdr.On m) : Hashhdr.checks m = true := (checks_congr on).trans hdr.checks_encode

theorem On.decode (on : hdr.On m) (range : hdr.InRange) : (Hashhdr.decode m).SameFields hdr := by
  rw [decode_congr on]
  exact decode_encode range

theorem SameFields.inRange {hdr' : Hashhdr} (same : hdr'.SameFields hdr) (range : hdr.InRange) : hdr'.InRange :=
  ⟨fun v mem => range.words v (by rwa [same.front, same.back] at mem), fun v mem => range.halves v (same.half ▸ mem)⟩

theorem SameFields.proper {hdr' : Hashhdr} (same : hdr'.SameFields hdr) (proper : hdr.Proper) : hdr'.Proper := by
  have front := same.front
  simp only [frontWords, List.cons.injEq] at front
  obtain ⟨magic, version, native, bsize, _⟩ := front
  exact ⟨magic ▸ proper.magic, version ▸ proper.version, native ▸ proper.native, bsize ▸ proper.small,
    same.inRange proper.range⟩

theorem On.length {file : Pagefile} (on : hdr.On (file.read 0)) (proper : hdr.Proper) :
    0 < file.length := by
  by_contra none
  have magic : (Hashhdr.decode (file.read 0)).magic = ffdbHashmagic := by
    have front := (on.decode proper.range).front
    simp only [frontWords, List.cons.injEq] at front
    exact front.1.trans proper.magic
  rw [Pagefile.read, if_neg none] at magic
  exact absurd magic (by decide)

end Hashhdr

namespace Pagepool

variable {pgp : Pagepool} {id tid : Nat}

theorem writeList_clean {l : List Nat} (clean : (pgp.bkt id).dirty = false) :
    ((pgp.writeList l).bkt id).dirty = false := by
  induction l generalizing pgp with
  | nil => exact clean
  | cons i l ih =>
    simp only [writeList, List.foldl_cons]
    split
    · refine @ih (pgp.write i) ?_
      by_cases same : id = i
      · rw [same, write_bkt_same]
      · rw [write_bkt_other same]
        exact clean
    · exact ih clean

theorem writeList_written {l : List Nat} (mem : id ∈ l) : ((pgp.writeList l).bkt id).dirty = false := by
  induction l generalizing pgp with
  | nil => exact absurd mem List.not_mem_nil
  | cons i l ih =>
    simp only [writeList, List.foldl_cons]
    by_cases same : id = i
    · subst same
      split
      · refine @writeList_clean (pgp.write id) _ l ?_
        rw [write_bkt_same]
      · exact writeList_clean ((Bool.not_eq_true _).mp ‹_›)
    · have rest : id ∈ l := (List.mem_cons.mp mem).resolve_left same
      split
      · exact @ih (pgp.write i) rest
      · exact ih rest

theorem sync_clean (tidy : Tidy tid pgp) (mem : id ∈ pgp.sync.lqh) (free : (pgp.sync.bkt id).pinned = false) :
    (pgp.sync.bkt id).dirty = false := by
  have listed : id ∈ pgp.lqh := by rwa [sync, syncI, writeList_lqh] at mem
  have unpinned : (pgp.bkt id).pinned = false := by
    rw [← ((evolves_syncI tidy 0).sub id mem).2.same.2.1]
    exact free
  by_cases dirty : (pgp.bkt id).dirty = true
  · refine writeList_written ?_
    have flush : flushable (pgp.bkt id) = true := by simp [flushable, unpinned, (tidy.alone id listed).waiters, dirty]
    rw [syncList, if_pos rfl, (slistMergeSort_perm _).mem_iff, List.mem_reverse, List.mem_filter]
    exact ⟨listed, flush⟩
  · exact writeList_clean (by simpa using dirty)

theorem sync_idle (clean : ∀ id ∈ pgp.lqh, (pgp.bkt id).pinned = false → (pgp.bkt id).dirty = false) :
    pgp.sync = pgp := by
  have none : pgp.lqh.filter (fun id => flushable (pgp.bkt id)) = [] := by
    refine List.filter_eq_nil_iff.mpr fun id mem flush => ?_
    simp only [flushable, Bool.and_eq_true, Bool.not_eq_true'] at flush
    exact absurd flush.2 (by simp [clean id mem flush.1.1])
  have empty : pgp.syncList 0 = [] := by
    rw [syncList, none]
    exact (slistMergeSort_perm _).eq_nil
  rw [sync, syncI, empty]
  rfl

end Pagepool

namespace Htab

variable {careful : Bool} {H : List Hold}

def Recorded (hashp : Htab) : Prop :=
  hashp.rdonly = false → hashp.hdr.hCharkey = u32 (hashp.hash charkey) ∧ hashp.hdr.On (hashp.mp.file.read 0)

structure Closed (last : Htab) : Prop where
  clean : ∀ id ∈ last.mp.lqh, (last.mp.bkt id).pinned = false → (last.mp.bkt id).dirty = false
  recorded : (∀ id ∈ last.mp.lqh, (last.mp.bkt id).pgno ≠ 0) → last.Recorded

namespace Keeping

theorem recording : Keeping careful H Htab.flushMeta fun _ hashp =>
    Custody careful H hashp ∧ hashp.Recorded := by
  refine guarded_and flushMeta fun hashp u hashp' pre run => ?_
  unfold Htab.flushMeta at run
  rw [Prog.returns_read_bind] at run
  split at run
  · rename_i rdonly
    obtain ⟨-, rfl⟩ := Prog.returns_pure.mp run
    exact fun writable => absurd rdonly (by simp [writable])
  · rw [← Prog.returns_modify.mp run]
    exact fun _ => ⟨rfl, Hashhdr.on_put _ _⟩

theorem flushing : Keeping careful H (do Htab.flushMeta; Htab.syncPool) fun _ last =>
    Custody careful H last ∧ last.Closed := by
  refine guarded_bind recording fun _ => guarded_and (guarded_mono syncPool (fun _ pre => pre.1)
    fun _ _ post => post) ?_
  rintro hashp u last ⟨pre, recorded⟩ run
  unfold Htab.syncPool pool at run
  obtain ⟨mp', run, rfl⟩ := Prog.returns_zoom.mp run
  rw [← Prog.returns_modify.mp run]
  refine ⟨fun id mem free => Pagepool.sync_clean pre.tidy mem free, fun apart writable => ?_⟩
  obtain ⟨key, on⟩ := recorded writable
  refine ⟨key, ?_⟩
  have same : hashp.mp.sync.file.read 0 = hashp.mp.file.read 0 := by
    have evolves := Pagepool.evolves_syncI pre.tidy 0
    refine evolves.image 0 fun j mem number => absurd ?_ (apart j ?_)
    · exact (evolves.sub j (by rw [Pagepool.syncI, Pagepool.writeList_lqh]; exact mem)).2.pgno.trans number
    · change j ∈ (hashp.mp.syncI 0).lqh
      rw [Pagepool.syncI, Pagepool.writeList_lqh]
      exact mem
  change hashp.hdr.On (hashp.mp.sync.file.read 0)
  rw [same]
  exact on

theorem closing : Keeping careful H Htab.hdestroy fun _ last => Custody careful H last ∧ last.Closed := by
  refine next enter fun _ => read fun hashp => ite (fun _ => next rearragePagesOnClose fun _ => ?_) fun _ => ?_
  all_goals exact flushing

end Keeping

variable {o o' : Opening} {start hashp last : Htab} {open_ : List Crs} {t t' : List Event}

theorem Usage.closed (made : SetUp o start) (proper : start.hdr.Proper) (usage : Usage start hashp open_ t)
    (closes : hdestroy.run hashp = (.ok () last, t')) (orderly : ∀ e ∈ t ++ t', Orderly careful e) :
    (Custody careful (openHolds open_) last ∧ last.Closed) ∧ ∀ e ∈ t ++ t', Sparing careful e := by
  obtain ⟨pre, spares⟩ := usage.custody (made.custody proper) fun e mem => orderly e (List.mem_append_left _ mem)
  obtain ⟨post, spares'⟩ := Keeping.closing.comes pre closes fun e mem => orderly e (List.mem_append_right _ mem)
  exact ⟨post, fun e mem => (List.mem_append.mp mem).elim (spares e) (spares' e)⟩

theorem Custody.unpinned (account : Custody careful (openHolds open_) last) (idle : open_.filterMap Crs.pagep = [])
    {id : Nat} (mem : id ∈ last.mp.lqh) : (last.mp.bkt id).pinned = false := by
  have held := account.held id
  rw [map_openHolds, idle] at held
  by_contra pin
  exact absurd (held.mpr ⟨mem, by simpa using pin⟩) List.not_mem_nil

theorem Closed.close (closed : last.Closed) : last.mp.close = last.mp.file := by
  rw [Pagepool.close, Pagepool.sync_idle closed.clean]

/-- A close while no cursor is on a page leaves no change behind: no page is pinned or waits to be
written, and each that the file has is there as the cache had it. -/
theorem close_saves (made : SetUp o start) (proper : start.hdr.Proper) (usage : Usage start hashp open_ t)
    (idle : open_.filterMap Crs.pagep = []) (closes : hdestroy.run hashp = (.ok () last, t'))
    (orderly : ∀ e ∈ t ++ t', Orderly true e) :
    (∀ id ∈ last.mp.lqh, (last.mp.bkt id).pinned = false ∧ (last.mp.bkt id).dirty = false ∧
      (Page.pageSign (last.mp.close.read (last.mp.bkt id).pgno) = pageMagic →
        Agree (last.mp.bkt id).page (last.mp.close.read (last.mp.bkt id).pgno))) ∧
      Event.removed false ∉ t ++ t' := by
  obtain ⟨⟨account, closed⟩, spares⟩ := usage.closed made proper closes orderly
  refine ⟨fun id mem => ?_, fun mem => Bool.false_ne_true (spares _ mem rfl)⟩
  have free := account.unpinned idle mem
  have clean := closed.clean id mem free
  refine ⟨free, clean, ?_⟩
  rw [closed.close]
  rcases (account.saved rfl id mem).resolve_right (untouched_openHolds id) with dirty | image
  · exact absurd dirty (by simp [clean])
  · exact image

theorem closedFile_read (closed : last.Closed) {q : Nat} (inside : q < last.mp.file.length)
    (left : q < (closedFile last).length) : (closedFile last).read q = last.mp.file.read q := by
  rw [Pagefile.read, if_pos left, Pagefile.read, if_pos inside]
  unfold closedFile reduceFilesize
  rw [closed.close]
  dsimp only
  split
  · split <;> rfl
  · rfl

theorem closedFile_length (closed : last.Closed) (some_ : 0 < last.mp.file.length) : 0 < (closedFile last).length := by
  unfold closedFile reduceFilesize
  rw [closed.close]
  dsimp only
  split
  · split
    · exact Nat.succ_pos _
    · exact some_
  · exact some_

/-- The file a close leaves is accepted by the next open with the same hash function. The header is
as it was, and a page still in the file is read as the cache had it. -/
theorem close_reopens (made : SetUp o start) (proper : start.hdr.Proper) (usage : Usage start hashp open_ t)
    (idle : open_.filterMap Crs.pagep = []) (closes : hdestroy.run hashp = (.ok () last, t'))
    (orderly : ∀ e ∈ t ++ t', Orderly true e) (writable : last.rdonly = false)
    (apart : ∀ id ∈ last.mp.lqh, (last.mp.bkt id).pgno ≠ 0)
    (key : u32 (o'.hash charkey) = u32 (last.hash charkey)) :
    ∃ again, knownTable o' (closedFile last) = some again ∧ again.hdr.Proper ∧ again.hdr.SameFields last.hdr ∧
      ∀ id ∈ last.mp.lqh, ∀ d, (last.mp.bkt id).pgno < min last.mp.file.length (closedFile last).length →
        Page.pageSign (again.mp.file.read (last.mp.bkt id).pgno) = pageMagic →
        again.mp.pgin (last.mp.bkt id).pgno (again.mp.file.read (last.mp.bkt id).pgno) = some d →
        Agree d (last.mp.bkt id).page := by
  obtain ⟨⟨account, closed⟩, _⟩ := usage.closed made proper closes orderly
  obtain ⟨stored, on⟩ := closed.recorded apart writable
  have length := on.length account.proper
  have first := closedFile_read closed length (closedFile_length closed length)
  rw [← first] at on
  have same := on.decode account.proper.range
  have proper' := same.proper account.proper
  have back := same.back
  simp only [Hashhdr.backWords, List.cons_append, List.nil_append, List.cons.injEq] at back
  refine ⟨tableOf o' (Hashhdr.decode ((closedFile last).read 0)) false (closedFile last), ?_, proper', same, ?_⟩
  · unfold knownTable
    exact if_pos ⟨on.checks, proper'.magic, proper'.version, key.trans (stored.symm.trans back.2.1.symm)⟩
  · intro id mem d inside sign delivered
    have filters := (@custody_tableOf true o' _ false (closedFile last) proper').tidy.filters
    have image := filters.in_agree _ _ d sign delivered
    have page : (closedFile last).read (last.mp.bkt id).pgno = last.mp.file.read (last.mp.bkt id).pgno :=
      closedFile_read closed (lt_of_lt_of_le inside (min_le_left _ _)) (lt_of_lt_of_le inside (min_le_right _ _))
    change Agree d ((closedFile last).read (last.mp.bkt id).pgno) at image
    change Page.pageSign ((closedFile last).read (last.mp.bkt id).pgno) = pageMagic at sign
    rw [page] at image sign
    rcases (account.saved rfl id mem).resolve_right (untouched_openHolds id) with dirty | agree
    · exact absurd dirty (by simp [closed.clean id mem (account.unpinned idle mem)])
    · exact image.trans (agree sign).symm

section Examples

attribute [local semireducible] hashKey

def recordedTable : Htab := endOf flushMeta (endOf enter usedTable)
def closedTable : Htab := setMp (recordedTable.mp.writeList [0, 1, 2, 3]) recordedTable

theorem recordedTable_sync : recordedTable.mp.sync = recordedTable.mp.writeList [0, 1, 2, 3] := by
  have dirty : recordedTable.mp.lqh.filter (fun id => Pagepool.flushable (recordedTable.mp.bkt id)) = [0, 1, 2, 3] := by
    decide +kernel
  have numbers : [0, 1, 2, 3].map (fun id => (recordedTable.mp.bkt id).pgno) = [1, 2, 4, 5] := by decide +kernel
  simp only [List.map_cons, List.map_nil, List.cons.injEq, and_true] at numbers
  obtain ⟨n₀, n₁, n₂, n₃⟩ := numbers
  refine congrArg recordedTable.mp.writeList ?_
  simp only [Pagepool.syncList, dirty, Pagepool.slistMergeSort, List.reverse_cons, List.reverse_nil,
    List.nil_append, List.cons_append, if_true, List.length_cons, List.length_nil]
  simp [Pagepool.mergeLoop, Pagepool.mergePass, Pagepool.mergeRuns, Pagepool.sbktLe, n₀, n₁, n₂, n₃]

theorem run_hdestroy {begun mid : Htab} (entered : enter.run hashp = (.ok () begun, []))
    (plain : (begun.rearrangePages && !begun.rdonly) = false) (recorded : flushMeta.run begun = (.ok () mid, []))
    (flushed : syncPool.run mid = (.ok () last, [])) : hdestroy.run hashp = (.ok () last, []) := by
  unfold hdestroy
  rw [Prog.run_bind entered, Prog.run_read_bind, if_neg (by rw [plain]; exact Bool.false_ne_true),
    Prog.run_bind recorded, flushed]
  rfl

theorem closedTable_closes : hdestroy.run usedTable = (.ok () closedTable, []) := by
  refine run_hdestroy (run_of_answer (a := ()) (t := []) (by decide +kernel)) (by decide +kernel)
    (run_of_answer (a := ()) (t := []) (by decide +kernel)) ?_
  change syncPool.run recordedTable = _
  rw [closedTable, ← recordedTable_sync]
  rfl

theorem close_saves_used : (∀ id ∈ closedTable.mp.lqh, (closedTable.mp.bkt id).dirty = false) ∧
    2 ∈ closedTable.mp.lqh := by
  have saves := close_saves smallStart_setUp smallStart_proper usedTable_usage rfl closedTable_closes fun _ mem =>
    absurd mem List.not_mem_nil
  exact ⟨fun id mem => (saves.1 id mem).2.1, by decide +kernel⟩

theorem close_reopens_used : ∃ again, knownTable smallTable (closedFile closedTable) = some again ∧
    again.hdr.SameFields closedTable.hdr := by
  have key : u32 (smallTable.hash charkey) = u32 (closedTable.hash charkey) := by decide +kernel
  obtain ⟨again, accepted, _, same, _⟩ := close_reopens smallStart_setUp smallStart_proper usedTable_usage rfl
    closedTable_closes (fun _ mem => absurd mem List.not_mem_nil) (by decide +kernel) (by decide +kernel) key
  exact ⟨again, accepted, same⟩

end Examples

end Htab
end FileHash
