import FileHash.Durability
import FileHash.InitialLayout
import FileHash.RoomForPuts

/-! A new table, once its first pages were made, has all its buckets and no pairs, and can be closed. -/
namespace FileHash

open Lib (Prog)
open Lib.Prog (Wp wp_bind wp_pure wp_mono)

namespace Htab

open Page

variable {h₀ hashp : Htab} {top s p n : Nat} {acc : Account} {adm : Event → Prop} {o : Opening} {bsize bshift ty : Nat}

section Make

theorem wp_noteDuplicate {Q : Unit → Htab → Prop} (next : Q () hashp) : Wp adm (noteDuplicate p) hashp Q := by
  refine wp_bind (Prog.wp_read ?_)
  split
  · exact Prog.wp_mark fun _ => next
  · exact wp_pure next

/-- A page beyond those in use is made, and put back. -/
theorem wp_newPage (h : Knows h₀ top acc [] hashp) (pos : 0 < p) (high : top ≤ p) (few : p + 1 < maxPageNumber)
    (other : ty ≠ hashBucketPage) {Q : Bool → Htab → Prop}
    (next : ∀ raw t, Knows h₀ (p + 1) (acc.set p (FileHash.initPage h₀.hdr.bsize raw p ty)) [] t → Q true t) :
    Wp adm (newPage p ty) hashp Q := by
  have fresh : ¬hashp.mp.Cached p := by
    rintro ⟨j, mem, number⟩
    have := h.below.cache j mem
    omega
  obtain ⟨id, mp, run, takes, -⟩ : ∃ id mp, (Pagepool.newPage (ε := Event) self p { request := true }).run hashp.mp =
      (.ok (id, p) mp, []) ∧ Pagepool.Takes self p hashp.mp id mp ∧ _ :=
    Pagepool.newPage_spec h.sound.toTidy h.counted h.numbered fresh
  refine wp_bind (wp_address_other other (wp_bind (wp_fails h ?_)))
  rw [if_neg Bool.false_ne_true]
  refine wp_bind (wp_noteDuplicate (wp_bind (Prog.wp_zoom (Prog.wp_of_run (by rw [run])
    (wp_bind (Prog.wp_modify ?_))))))
  have known := (h.note (hashp.fetches + 1) hashp.held).take List.not_mem_nil (fun _ => pos) takes
    (high.trans (Nat.le_succ p))
    (Nat.lt_succ_self p) few
  refine wp_bind (wp_initPage known p ty fun mid known => wp_bind (wp_putDirty known signed_initPage fun t known => ?_))
  exact wp_pure (next _ t known)

/-- The pages behind the header up to page `p` are made, and of those behind them none has an entry. -/
structure Making (h₀ : Htab) (p : Nat) (acc : Account) (t : Htab) : Prop where
  known : Knows h₀ p acc [] t
  made : ∀ q, 0 < q → q < p → ∀ c, acc.holds q c → Pagepool.Signed c
  rest : ∀ q, p ≤ q → ∀ c, acc.holds q c → c.numEnt = 0

theorem wp_makePages (making : Making h₀ p acc hashp) (pos : 0 < p) (few : p + n < maxPageNumber)
    (other : ty ≠ hashBucketPage)
    {Q : Unit → Htab → Prop} (next : ∀ acc t, Making h₀ (p + n) acc t → Q () t) : Wp adm
      (makePages ty n p) hashp Q := by
  induction n generalizing p acc hashp with
  | zero => exact wp_pure (next acc hashp making)
  | succ n ih =>
    have word : u32 (p + 1) = p + 1 := Nat.mod_eq_of_lt (by simp only [maxPageNumber] at few; omega)
    refine wp_bind (wp_newPage making.known pos le_rfl (by omega) other fun raw mid known => ?_)
    rw [word]
    refine ih ⟨known, fun q some low c holds => ?_, fun q high c holds => ?_⟩ (Nat.succ_pos p) (by omega)
      fun acc t making =>
      next acc t (by rwa [show p + (n + 1) = p + 1 + n by omega])
    · by_cases same : q = p
      · subst same
        exact (Account.set_same.mp holds).pageSign.trans signed_initPage
      · exact making.made q some (by omega) c ((Account.set_other same).mp holds)
    · exact making.rest q (by omega) c ((Account.set_other (by omega)).mp holds)

theorem wp_readInfo (making : Making h₀ p acc hashp) (new : h₀.newFile = true)
    (writable : h₀.rdonly = false ∧ h₀.mp.rdonly = false) (pos : 0 < p) (few : p + n < maxPageNumber)
    (other : ty ≠ hashBucketPage)
    {Q : Unit → Htab → Prop} (next : ∀ acc t, Making h₀ (p + n) acc t → Q () t) : Wp adm (readInfo ty p n) hashp Q := by
  have made : hashp.newFile = true := by
    rw [making.known.frame]
    exact new
  refine wp_bind (Prog.wp_read ?_)
  rw [made, if_pos rfl]
  refine wp_bind (wp_makePages making pos few other fun acc mid making => ?_)
  exact wp_lockPages other making.known writable (fun q low high => making.made q (pos.trans_le low) high) pos le_rfl
    fun t known => next acc t ⟨known, making.made, making.rest⟩

theorem wp_openNew (making : Making h₀ 1 acc hashp) (new : h₀.newFile = true)
    (writable : h₀.rdonly = false ∧ h₀.mp.rdonly = false) (uinfo : h₀.hdr.uinfoPage = 1)
    (cfig : h₀.hdr.cfigPage = 1 + h₀.hdr.uinfoNpages) (few : h₀.hdr.cfigPage + h₀.hdr.cfigNpages < maxPageNumber)
    (unused : h₀.hdr.spares (h₀.hdr.ovflPoint + 1) = 0) :
    Wp adm openPages hashp fun _ t => ∃ acc, Making h₀ (h₀.hdr.cfigPage + h₀.hdr.cfigNpages) acc t := by
  refine wp_bind (wp_bind (Prog.wp_read ?_))
  rw [making.known.hdr, uinfo]
  refine wp_readInfo making new writable Nat.one_pos (by omega) (by decide) fun acc mid making => ?_
  refine wp_bind (wp_bind (Prog.wp_read ?_))
  rw [making.known.hdr]
  rw [← cfig] at making
  refine wp_readInfo making new writable (by omega) few (by decide) fun acc t making => wp_bind (Prog.wp_read ?_)
  have made : t.newFile = true := by
    rw [making.known.frame]
    exact new
  rw [made]
  refine wp_bind (Prog.wp_read ?_)
  dsimp only
  rw [making.known.hdr, unused, if_neg (lt_irrefl 0)]
  exact wp_pure ⟨acc, making⟩

end Make

section New

variable {hdr : Hashhdr}

def emptyFile : Pagefile := ⟨0, fun _ _ => 0⟩

/-- No page has an entry. -/
def Account.blank : Account := ⟨fun _ c => c.numEnt = 0, fun none same => same.numEnt.trans none⟩

theorem making_new (faultless : ∀ n, o.fault n = false) (native : hdr.lorder = littleEndian) :
    Making (tableOf o hdr true emptyFile) 1 .blank (tableOf o hdr true emptyFile) where
  known := by
    have unsigned : ∀ n, Page.pageSign (emptyFile.read n) ≠ pageMagic := fun n => by
      rw [show emptyFile.read n = fun _ => 0 from if_neg (Nat.not_lt_zero n)]
      decide
    have opened : Knows (tableOf o hdr true emptyFile) 1 .any [] (tableOf o hdr true emptyFile) :=
      knows_tableOf faultless native (fun n => ⟨_, pginRoutine_unsigned (unsigned n)⟩) (Nat.zero_le _) (by decide)
    refine { opened with holds := fun p c _ shows => ?_, behind := fun _ mem => absurd mem List.not_mem_nil }
    have filter : (tableOf o hdr true emptyFile).mp.pgin = pginRoutine hdr.bsize false := by
      change pginRoutine hdr.bsize (hdr.lorder != littleEndian) = _
      rw [native]
      rfl
    rcases shows with ⟨id, mem, -⟩ | ⟨-, ⟨d, read, same⟩ | ⟨-, clear⟩⟩
    · exact absurd mem List.not_mem_nil
    · rw [filter] at read
      cases read.symm.trans (pginRoutine_unsigned (unsigned p))
      exact same.numEnt.trans (numEnt_initPage ..)
    · exact numEnt_clear clear
  made q some low := absurd low (by omega)
  rest _ _ _ holds := holds

/-- What is known of the header of a new table. -/
structure NewHeader (o : Opening) (bsize : Nat) (hdr : Hashhdr) : Prop extends Laid o bsize hdr where
  size : hdr.bsize = bsize
  proper : hdr.Proper
  version : hdr.version = ffdbVersion
  level : hdr.ovflPoint = o.level
  levels : 1 ≤ o.level ∧ o.level ≤ 30
  begins : hdr.uinfoPage = 1 ∧ hdr.cfigPage = 1 + hdr.uinfoNpages ∧ hdr.hdrpages = hdr.cfigPage + hdr.cfigNpages
  unmoved : hdr.numMovedPages = 0
  unused : hdr.spares (hdr.ovflPoint + 1) = 0
  free : hdr.freePages hdr.ovflPoint = invalidPgno
  few : hdr.hdrpages + 2 ^ o.level < maxPageNumber

theorem NewHeader.buckets (new : NewHeader o bsize hdr) : hdr.maxBucket + 1 = 2 ^ o.level := by
  have pos := Nat.two_pow_pos o.level
  rw [new.maxBucket]
  omega

theorem NewHeader.page_lt (new : NewHeader o bsize hdr) {b : Nat} (low : b ≤ hdr.maxBucket) : b < 2 ^ o.level := by
  have count := new.buckets
  omega

theorem NewHeader.ordinary (new : NewHeader o bsize hdr) (compare : o.cmp = hamDefcmp) (writable : o.rdonly = false)
    {newFile : Bool} {file : Pagefile} : Ordinary (tableOf o hdr newFile file) where
  compare := compare
  writable := writable
  shape := by
    have half : 2 ^ o.level / 2 = 2 ^ (o.level - 1) := by
      rw [← Nat.pow_div new.levels.1 (by decide), pow_one]
    refine ⟨o.level, new.levels.1, new.levels.2.trans (by decide), new.highMask, half ▸ new.lowMask, ?_, ?_⟩
    · change hdr.lowMask ≤ hdr.maxBucket
      rw [new.lowMask, new.maxBucket]
      omega
    · change hdr.maxBucket ≤ hdr.highMask
      rw [new.maxBucket, new.highMask]
  buckets := by
    have most : 2 ^ o.level ≤ 2 ^ 30 := Nat.pow_le_pow_right (by decide) new.levels.2
    change hdr.maxBucket < 0x80000000
    have count := new.buckets
    omega
  levels b low := by
    have inside := new.page_lt low
    have most : 2 ^ o.level ≤ 2 ^ 30 := Nat.pow_le_pow_right (by decide) new.levels.2
    have word : u32 (b + 1) = b + 1 := Nat.mod_eq_of_lt (by omega)
    rw [word, ffdbLog2_eq (by omega)]
    change _ ≤ hdr.ovflPoint
    rw [new.level]
    exact Nat.clog_le_of_le_pow inside
  apart a most b most' same := by
    have here : hdr.bucketToPage a = hdr.bucketToPage b := same
    rw [new.pages a (new.page_lt most), new.pages b (new.page_lt most')] at here
    omega

variable {newFile : Bool} {file : Pagefile}

theorem NewHeader.first (new : NewHeader o bsize hdr) :
    u32 (hdr.bucketToPage hdr.highMask + 1) = hdr.hdrpages + 2 ^ o.level := by
  have pos := Nat.two_pow_pos o.level
  have few := new.few
  rw [new.highMask, new.pages _ (by omega), Nat.add_assoc, Nat.sub_add_cancel pos]
  exact Nat.mod_eq_of_lt (by simp only [maxPageNumber] at few; omega)

theorem NewHeader.arranged (new : NewHeader o bsize hdr) (page : PageSize bsize) (compare : o.cmp = hamDefcmp)
    (writable : o.rdonly = false) (rest : ∀ p, hdr.hdrpages ≤ p → ∀ c, acc.holds p c → c.numEnt = 0) :
    Arranged (fun _ => []) (tableOf o hdr newFile file) (hdr.hdrpages + 2 ^ o.level) acc [] [] where
  toOrdinary := new.ordinary compare writable
  format := format_tableOf (.inr new.version)
  laid := by
    have empty : DataLaid (tableOf o hdr newFile file) (hdr.hdrpages + 2 ^ o.level) .any [] [] :=
      laid_tableOf (new.size ▸ page) new.unused new.free new.first (Nat.add_pos_right _ (Nat.two_pow_pos _))
    exact empty.mono fun _ _ _ => trivial
  pages b low := by
    have inside := new.page_lt low
    have begins := new.begins
    have few := new.few
    have place : (tableOf o hdr newFile file).hdr.bucketToPage b = hdr.hdrpages + b := new.pages b inside
    rw [place]
    refine ⟨⟨by omega, by omega, ?_, List.not_mem_nil, fun _ mem => absurd mem List.not_mem_nil⟩, fun c told => ?_,
      fun i e there => (by cases there), fun _ mem => absurd mem List.not_mem_nil, List.nodup_nil⟩
    · change hdr.hdrpages + b ≠ invalidPgno
      simp only [invalidPgno, maxPageNumber] at *
      omega
    · exact ⟨fun _ => rest _ (Nat.le_add_right ..) c told, fun some => absurd rfl some, fun some => absurd rfl some,
        fun some => absurd rfl some, fun some => absurd rfl some⟩
  home _ _ _ mem := absurd mem List.not_mem_nil

theorem NewHeader.low (new : NewHeader o bsize hdr) : hdr.cfigPage + hdr.cfigNpages ≤ hdr.hdrpages + 2 ^ o.level :=
  new.begins.2.2 ▸ Nat.le_add_right _ _

theorem NewHeader.atRest (new : NewHeader o bsize hdr) :
    AtRest (tableOf o hdr true emptyFile) (hdr.hdrpages + 2 ^ o.level) acc [] [] where
  idle _ mem := absurd mem List.not_mem_nil
  none := rfl
  tip := .inl ⟨rfl, rfl⟩
  numbers := numbersOn_self (.inl ⟨rfl, new.unused⟩)
  proper := new.proper
  levels := by
    change hdr.ovflPoint + 1 < ncached
    have := new.levels.2
    rw [new.level, ncached]
    omega
  unmoved := ⟨new.unmoved, fun _ => new.highMask.trans new.maxBucket.symm⟩
  filters := by
    have native : (hdr.lorder != littleEndian) = false := by simp [new.proper.native]
    exact ⟨congrArg (pginRoutine hdr.bsize) native, congrArg (pgoutRoutine hdr.bsize) native⟩
  reached := Nat.zero_le _
  uinfo := by
    change 0 < hdr.uinfoPage ∧ hdr.uinfoPage + hdr.uinfoNpages ≤ _
    have begins := new.begins
    have pos := Nat.two_pow_pos o.level
    omega
  cfig := by
    change 0 < hdr.cfigPage ∧ hdr.cfigPage + hdr.cfigNpages ≤ _
    have begins := new.begins
    have pos := Nat.two_pow_pos o.level
    omega

end New

theorem newHeader_initHtab {hdr : Hashhdr} (page : PageSize bsize) (modest : Modest o bsize)
    (behind : numUinfoPages bsize o.uinfolen < 65535) (init : initHtab o bsize bshift = some hdr) (proper : hdr.Proper)
    (few : hdr.hdrpages + 2 ^ o.level < maxPageNumber) : NewHeader o bsize hdr := by
  obtain ⟨_, again, laid⟩ := (init_layout page.header (page.most.trans_lt (by decide))).mpr modest
  obtain rfl := Option.some.inj (again.symm.trans init)
  have asked : o.option Hashinfo.nbuckets 1 ≤ 0x80000000 := modest.buckets.2.trans (by decide)
  rw [initHtab, if_neg (not_lt.mpr asked)] at init
  cases init
  have level : (initHdr o bsize bshift).ovflPoint = o.level := log2_nbuckets asked
  have uinfo : numUinfoPages bsize o.uinfolen % 65536 = numUinfoPages bsize o.uinfolen := Nat.mod_eq_of_lt (by omega)
  have cfig : numConfigInfoPages bsize o.numConfigs % 65536 = numConfigInfoPages bsize o.numConfigs :=
    Nat.mod_eq_of_lt modest.cfigs
  have start : (1 + numUinfoPages bsize o.uinfolen) % 65536 = 1 + numUinfoPages bsize o.uinfolen :=
    Nat.mod_eq_of_lt (by omega)
  refine { toLaid := laid, size := rfl, proper := proper, version := rfl, level := level, levels := ⟨?_, ?_⟩,
           begins := ⟨rfl, ?_, ?_⟩, unmoved := rfl, unused := if_pos (Nat.lt_succ_self _), free := rfl, few := few }
  · exact Nat.clog_pos (by decide) (Nat.lt_of_succ_le modest.buckets.1)
  · exact Nat.clog_le_of_le_pow modest.buckets.2
  · exact start.trans (by rw [← uinfo]; rfl)
  · change 1 + numUinfoPages bsize o.uinfolen + numConfigInfoPages bsize o.numConfigs =
      (1 + numUinfoPages bsize o.uinfolen) % 65536 + numConfigInfoPages bsize o.numConfigs % 65536
    rw [start, cfig]

end Htab

open Htab

/-- A database that was just made has no pairs. It can be put into, and closed, and it has room for keys that its
buckets can hold. -/
theorem fileLedger_new {o : Opening} {t : Htab} (fresh : freshTable o = some t) (page : PageSize t.hdr.bsize)
    (modest : Modest o t.hdr.bsize) (behind : numUinfoPages t.hdr.bsize o.uinfolen < 65535) (proper : t.hdr.Proper)
    (few : t.hdr.hdrpages + 2 ^ o.level < maxPageNumber) (compare : o.cmp = hamDefcmp) (writable : o.rdonly = false)
    (faultless : ∀ n, o.fault n = false) :
    ∃ t', openPages.Returns t () t' ∧ (fileLedger o t.hdr.bsize).sound t' ∧ (fileLedger o t.hdr.bsize).rests t' ∧
      ((fileLedger o t.hdr.bsize).holding t' = ⟨fun _ => none, t.hdr.numCfigs⟩) ∧
      ∀ (keys : Finset (List UInt8)) (most : Nat), (∀ b, roomTaken t keys b ≤ t.hdr.bsize - pageOverhead) →
        t.hdr.hdrpages + 2 ^ o.level + keys.card * (most / (t.hdr.bsize - bigPageOverhead) + 3) + 1 < maxPageNumber →
        Spacious keys most t' := by
  obtain ⟨⟨bsize, bshift⟩, -, fresh⟩ := Option.bind_eq_some_iff.mp fresh
  obtain ⟨hdr, init, made⟩ := Option.bind_eq_some_iff.mp fresh
  obtain rfl : tableOf o hdr true emptyFile = t := Option.some.inj made
  have size : hdr.bsize = bsize := by
    unfold initHtab at init
    split at init
    · cases init
    · cases init
      rfl
  change PageSize hdr.bsize at page
  change Modest o hdr.bsize at modest
  change numUinfoPages hdr.bsize o.uinfolen < 65535 at behind
  have new : NewHeader o hdr.bsize hdr := newHeader_initHtab page modest behind (size.symm ▸ init) proper few
  have opens : Wp (fun _ => True) openPages (tableOf o hdr true emptyFile) _ :=
    wp_openNew (making_new faultless proper.native) rfl ⟨writable, writable⟩ new.begins.1 new.begins.2.1
      (new.low.trans_lt new.few) new.unused
  obtain ⟨_, t', run, acc, making⟩ := opens fun _ _ => trivial
  have known := making.known.raise new.low new.few
  have file : Arranged (fun _ => []) (tableOf o hdr true emptyFile) (hdr.hdrpages + 2 ^ o.level) acc [] [] :=
    new.arranged page compare writable fun p high => making.rest p (new.begins.2.2 ▸ high)
  have there : Shelves True (fun _ => []) t' := ⟨_, _, acc, [], [], known, file, fun _ => new.atRest⟩
  have same := known.same
  have absent : ∀ k, t'.found k = none := fun k => (fileLedger_nowhere there).mpr fun w under => by
    obtain ⟨e, mem, -⟩ := under
    exact absurd mem List.not_mem_nil
  refine ⟨t', run, ⟨same.size, _, there.sound⟩,
    ⟨⟨same.hash.symm, same.compare.symm, writable, faultless, same.rearrange.symm⟩, _, there⟩,
    congrArg₂ Holding.mk (funext absent) same.configs, fun keys most room numbers => ?_⟩
  refine ⟨fun k v here => ?_, fun b => ?_, ?_⟩
  · rw [absent] at here
    cases here
  · rw [roomTaken_congr same.addressOf, same.size]
    exact room b
  · rw [nextNumber_eq known file.laid, same.size, Finset.filter_true_of_mem fun k _ => absent k]
    exact numbers

theorem fileLedger_new_two : ∃ t, openPages.Returns newTable () t ∧ (fileLedger twoBuckets 4096).sound t ∧
    (fileLedger twoBuckets 4096).rests t ∧ Spacious {[7], [8]} 9000 t := by
  have fresh : freshTable twoBuckets = some newTable := by
    have sized : initHash twoBuckets = some (4096, 12) := by decide +kernel
    have init : initHtab twoBuckets 4096 12 = some (initHdr twoBuckets 4096 12) := if_neg (by decide)
    unfold freshTable
    rw [sized]
    simp only [Option.bind_eq_bind, Option.bind_some]
    rw [init]
    rfl
  have proper : newTable.hdr.Proper := ⟨rfl, .inl rfl, rfl, by decide, by decide +kernel, by decide +kernel⟩
  obtain ⟨t, opens, sound, rests, -, room⟩ := fileLedger_new fresh ⟨by decide, by decide, by decide⟩
    ⟨by decide, by decide, by decide, by decide⟩ (by decide) proper (by decide) rfl rfl fun _ => rfl
  refine ⟨t, opens, sound, rests, room _ _ (fun b => ?_) (by decide)⟩
  exact (Finset.sum_le_sum_of_subset (Finset.filter_subset ..)).trans (by decide)

end FileHash
