import FileHash.Closing
import FileHash.FileDatabase

/-! A table at rest is closed, and its file is opened again. The close writes each page whose bytes are newer than
the file's, and the header, so the file has what the account says; the open finds it there. -/
namespace FileHash.Htab

open Lib (Prog)
open Lib.Prog (Wp wp_bind wp_pure wp_mono)
open Page

section Header

variable {a b : Hashhdr}

theorem sameFields_words (same : a.SameFields b) : a.version = b.version ∧ a.lorder = b.lorder ∧ a.bsize = b.bsize ∧
    a.masks = b.masks := by
  have front := same.front
  simp only [Hashhdr.frontWords, List.cons.injEq] at front
  obtain ⟨-, version, lorder, size, -, point, most, high, low, -⟩ := front
  exact ⟨version, lorder, size, by rw [Hashhdr.masks, Hashhdr.masks, most, high, low, point]⟩

theorem sameFields_infos (same : a.SameFields b) : a.uinfoPage = b.uinfoPage ∧ a.uinfoNpages = b.uinfoNpages ∧
    a.cfigPage = b.cfigPage ∧ a.cfigNpages = b.cfigNpages := by
  have half := same.half
  simp only [Hashhdr.halfWords, List.cons.injEq, and_true] at half
  exact half

theorem sameFields_counts (same : a.SameFields b) : a.numCfigs = b.numCfigs ∧ a.hCharkey = b.hCharkey ∧
    a.numMovedPages = b.numMovedPages := by
  have back := same.back
  simp only [Hashhdr.backWords, List.cons_append, List.nil_append, List.cons.injEq] at back
  exact ⟨back.1, back.2.1, back.2.2.1⟩

theorem sameFields_levels (same : a.SameFields b) : ∀ i < ncached, a.spares i = b.spares i ∧
    a.freePages i = b.freePages i := by
  have back := same.back
  simp only [Hashhdr.backWords, List.cons_append, List.nil_append, List.cons.injEq] at back
  obtain ⟨spares, free⟩ := List.append_inj back.2.2.2 (by simp)
  exact fun i low => ⟨List.map_inj_left.mp spares i (List.mem_range.mpr low),
    List.map_inj_left.mp free i (List.mem_range.mpr low)⟩

end Header

variable {h₀ hashp : Htab} {hdr : Hashhdr} {s p id : Nat} {acc : Account} {maps : FreeMap} {ds : List Datum}
  {file : Pagefile} {adm : Event → Prop}

theorem pginRoutine_unsigned {bsize n : Nat} {c : Page} (unsigned : c.pageSign ≠ pageMagic) :
    pginRoutine bsize false n c = some (FileHash.initPage bsize c n hashDeletedPage) := by
  simp only [pginRoutine, Bool.false_eq_true, if_false, if_pos unsigned]

/-- The file has the pages behind the header as the account says. -/
structure Written (bsize s : Nat) (acc : Account) (file : Pagefile) : Prop where
  low : file.length ≤ s
  readable : ∀ n, ∃ c, pginRoutine bsize false n (file.read n) = some c
  holds : ∀ p, 0 < p → ∀ c, pginRoutine bsize false p (file.read p) = some c → acc.holds p c

section Close

/-- The header that a close records. -/
def recorded (hashp : Htab) : Hashhdr := { hashp.hdr with hCharkey := u32 (hashp.hash charkey) }

/-- The pool once the header was put into its file. -/
def noted (hashp : Htab) : Pagepool := { hashp.mp with file := hashp.recorded.put hashp.mp.file }

theorem read_noted (pos : 0 < p) : hashp.noted.file.read p = hashp.mp.file.read p :=
  Pagefile.read_write_other pos.ne'

theorem tidy_noted (known : Knows h₀ s acc [] hashp) (proper : h₀.hdr.Proper) : Pagepool.Tidy self hashp.noted := by
  refine Pagepool.tidy_header known.sound.toTidy (fun q ne => Pagefile.read_write_other ne) ?_
  refine Hashhdr.unsigned_put _ _ ?_
  change hashp.hdr.bsize ≤ maxBsize
  rw [known.hdr]
  exact proper.small

theorem sound_noted (known : Knows h₀ s acc [] hashp) (rest : AtRest h₀ s acc maps ds) :
    Pagepool.Sound self hashp.noted where
  toTidy := tidy_noted known rest.proper
  readable n := by
    rcases Nat.eq_zero_or_pos n with rfl | pos
    · have unsigned : Page.pageSign (hashp.noted.file.read 0) ≠ pageMagic := by
        refine Hashhdr.unsigned_put _ _ ?_
        change hashp.hdr.bsize ≤ maxBsize
        rw [known.hdr]
        exact rest.proper.small
      change ∃ c, hashp.mp.pgin 0 _ = some c
      rw [known.fixed.1, rest.filters.1]
      exact ⟨_, pginRoutine_unsigned unsigned⟩
    · rw [read_noted pos]
      exact known.sound.readable n
  writable := known.sound.writable

theorem shows_noted {c : Page} (pos : 0 < p) (shows : hashp.noted.Shows p c) : hashp.mp.Shows p c := by
  refine shows.imp_right (And.imp_right fun stored => ?_)
  unfold Pagepool.Stored at stored ⊢
  rwa [read_noted pos] at stored

theorem written_sync (known : Knows h₀ s acc [] hashp) (rest : AtRest h₀ s acc maps ds) (pos : 0 < s) :
    hashp.recorded.On (hashp.noted.sync.file.read 0) ∧ Written h₀.hdr.bsize s acc hashp.noted.sync.file ∧
      ∀ id ∈ hashp.noted.sync.lqh, (hashp.noted.sync.bkt id).pinned = false →
        (hashp.noted.sync.bkt id).dirty = false := by
  have tidy := tidy_noted known rest.proper
  have evolves := Pagepool.evolves_syncI tidy 0
  have sound := evolves.sound (sound_noted known rest)
  have clean : ∀ id ∈ hashp.noted.sync.lqh, (hashp.noted.sync.bkt id).pinned = false →
      (hashp.noted.sync.bkt id).dirty = false := fun id mem free => Pagepool.sync_clean tidy mem free
  obtain ⟨-, only⟩ := known.pins rest.idle
  have free : ∀ id ∈ hashp.noted.sync.lqh, (hashp.noted.sync.bkt id).pinned = false := by
    intro id mem
    obtain ⟨old, flushed⟩ := evolves.sub id mem
    by_contra pin
    have pinned : (hashp.noted.sync.bkt id).pinned = true := by simpa using pin
    obtain ⟨g, memg, -⟩ := (only id old).2 (flushed.same.2.1.symm.trans pinned)
    exact absurd memg List.not_mem_nil
  have filter : hashp.noted.sync.pgin = pginRoutine h₀.hdr.bsize false :=
    evolves.pgin.trans (known.fixed.1.trans rest.filters.1)
  have reached : hashp.noted.Reached := by
    have was := known.reached rest.reached
    change max hashp.mp.file.length 1 ≤ max 1 hashp.mp.npages
    unfold Pagepool.Reached at was
    omega
  have below : Pagepool.Below hashp.noted s := ⟨known.below.file, known.below.top, known.below.cache⟩
  refine ⟨?_, ⟨?_, fun n => ?_, fun p some c read => ?_⟩, clean⟩
  · have same : hashp.noted.sync.file.read 0 = hashp.noted.file.read 0 :=
      evolves.image 0 fun id mem zero => absurd zero (only id mem).1.ne'
    rw [same]
    exact Hashhdr.on_put _ _
  · have length : hashp.noted.sync.file.length ≤ max 1 hashp.noted.sync.npages := evolves.reached reached
    have top : hashp.noted.sync.npages ≤ s := (evolves.below s below).file
    omega
  · rw [← filter]
    exact sound.readable n
  · rw [← filter] at read
    have shows : hashp.noted.sync.Shows p c :=
      .inr ⟨fun id mem _ => clean id mem (free id mem), .inl ⟨c, read, .refl c⟩⟩
    exact known.holds p c List.not_mem_nil (shows_noted some (evolves.shows (sound_noted known rest) p c shows))

theorem closedFile_idle (clean : ∀ id ∈ hashp.mp.lqh, (hashp.mp.bkt id).pinned = false →
    (hashp.mp.bkt id).dirty = false)
    (unmoved : hashp.hdr.numMovedPages = 0) : closedFile hashp = hashp.mp.file := by
  have close : hashp.mp.close = hashp.mp.file := by rw [Pagepool.close, Pagepool.sync_idle clean]
  unfold closedFile reduceFilesize
  rw [close, unmoved]
  exact ite_self _

theorem wp_hdestroy (known : Knows h₀ s acc [] hashp) (rest : AtRest h₀ s acc maps ds) (pos : 0 < s)
    (writable : h₀.rdonly = false) :
    Wp adm hdestroy hashp fun _ last => h₀.recorded.On ((closedFile last).read 0) ∧
      Written h₀.hdr.bsize s acc (closedFile last) := by
  have known₁ : Knows h₀ s acc [] { hashp with held := [] } := known.note hashp.fetches []
  have same : hashp.recorded = h₀.recorded ∧ hashp.rdonly = false ∧ hashp.rearrangePages = h₀.rearrangePages := by
    rw [known.frame]
    exact ⟨rfl, writable, rfl⟩
  have done : Wp adm (do flushMeta; syncPool) { hashp with held := [] } fun _ last =>
      h₀.recorded.On ((closedFile last).read 0) ∧ Written h₀.hdr.bsize s acc (closedFile last) := by
    refine wp_bind (wp_bind (Prog.wp_read ?_))
    rw [if_neg (by simp [same.2.1])]
    refine Prog.wp_modify (Prog.wp_zoom (Prog.wp_modify ?_))
    obtain ⟨header, written, clean⟩ := written_sync known₁ rest pos
    rw [← same.1, closedFile_idle]
    · exact ⟨header, written⟩
    · exact clean
    · change hashp.hdr.numMovedPages = 0
      rw [known.hdr]
      exact rest.unmoved.1
  refine wp_bind (Prog.wp_modify (wp_bind (Prog.wp_read ?_)))
  refine Prog.wp_ite (fun moves => wp_bind (wp_bind (Prog.wp_read ?_))) fun _ => done
  have full : h₀.hdr.highMask = h₀.hdr.maxBucket := by
    refine rest.unmoved.2 ?_
    rw [← same.2.2]
    exact (Bool.and_eq_true_iff.mp moves).1
  have unused : u32 (hashp.hdr.highMask + 0x100000000 - hashp.hdr.maxBucket) = 0 := by
    rw [known.hdr, full, Nat.add_sub_cancel_left]
    rfl
  dsimp only
  rw [if_pos unused]
  exact wp_pure done

end Close

section Open

variable {o : Opening} {shelf : Nat → List Entry} {pages : Pagefile}

theorem Arranged.inside {acc' : Account} (file : Arranged shelf h₀ s acc maps ds)
    (sub : ∀ p, 0 < p → p < s → ∀ c, acc'.holds p c → acc.holds p c) : Arranged shelf h₀ s acc' maps ds :=
  { file with
    laid := file.laid.inside sub
    pages := fun b low =>
      have mine := file.pages b low
      { mine with told := fun c told => mine.told c (sub _ mine.reserved.pos mine.reserved.low c told) } }

/-- The account of a table just opened on a file with `s` pages. -/
def Account.read (acc : Account) (s : Nat) : Account where
  holds p c := 0 < p → p < s → acc.holds p c ∧ Pagepool.Signed c
  agree holds same some low := ⟨acc.agree (holds some low).1 same, same.pageSign.trans (holds some low).2⟩

theorem signed_pginRoutine {bsize n : Nat} {c d : Page} (read : pginRoutine bsize false n c = some d) :
    Pagepool.Signed d := by
  by_cases sign : c.pageSign = pageMagic
  · exact (filters_native.in_agree n c d sign read).pageSign.trans sign
  · rw [pginRoutine_unsigned sign] at read
    cases read
    exact signed_initPage

theorem Written.knows (written : Written hdr.bsize s acc file) (proper : hdr.Proper) (noFault : ∀ n, o.fault n = false)
    (full : file.length = s) (few : s < maxPageNumber) :
    Knows (tableOf o hdr false file) s (acc.read s) [] (tableOf o hdr false file) := by
  have opened : Knows (tableOf o hdr false file) s .any [] (tableOf o hdr false file) :=
    knows_tableOf noFault proper.native written.readable written.low few
  refine { opened with holds := fun p c _ shows some low => ?_, behind := fun _ mem => absurd mem List.not_mem_nil }
  have stored : (tableOf o hdr false file).mp.Stored p c := by
    rcases shows with ⟨id, mem, -⟩ | ⟨-, stored⟩
    · exact absurd mem List.not_mem_nil
    · exact stored
  have filter : (tableOf o hdr false file).mp.pgin = pginRoutine hdr.bsize false := by
    change pginRoutine hdr.bsize (hdr.lorder != littleEndian) = _
    rw [proper.native]
    rfl
  rcases stored with ⟨d, read, same⟩ | ⟨high, -⟩
  · rw [filter] at read
    exact ⟨acc.agree (written.holds p some d read) same, same.pageSign.trans (signed_pginRoutine read)⟩
  · exact absurd (low.trans_le full.ge) (not_lt.mpr high)

theorem not_ended_deleted {bsize n : Nat} {c : Page} : ¬Ended (FileHash.initPage bsize c n hashDeletedPage) := by
  intro ended
  have type : Page.type (FileHash.initPage bsize c n hashDeletedPage) = hashDeletedPage := by
    simp only [FileHash.initPage, Page.type, setChksum, setType]
    rw [if_neg (by decide), if_neg (by decide), if_neg (by decide), if_neg (by decide), if_neg (by decide)]
    rw [Lib.Mem.read16_write32 (by omega)]
    exact Lib.Mem.read16_write16_same
  exact absurd (type.symm.trans ended.type) (by decide)

theorem Started.next (started : Started h₀ s s) (rest : AtRest h₀ s acc maps ds) (made : h₀.currDpage ≠ invalidPgno) :
    s = h₀.currDpage + 1 := by
  have cur := started.cur
  have few := started.few
  rcases rest.numbers.newest with none | newest
  · exact absurd none.1 made
  · rw [started.spares] at newest
    rw [newest]
    exact Nat.mod_eq_of_lt (by simp only [maxPageNumber] at few; omega)

/-- The last page was written, so the file has all of them. -/
theorem Written.full {bsize : Nat} (written : Written bsize s acc file) (tip : Tip h₀ acc) (some : 0 < h₀.currDpage)
    (last : s = h₀.currDpage + 1) : file.length = s := by
  refine le_antisymm written.low ?_
  by_contra short
  have none : file.read h₀.currDpage = fun _ => 0 := if_neg (by omega)
  have read : pginRoutine bsize false h₀.currDpage (file.read h₀.currDpage) = _ :=
    pginRoutine_unsigned (by rw [none]; decide)
  exact not_ended_deleted (tip.ended _ (written.holds _ some _ read))

theorem Arranged.again (file : Arranged shelf h₀ s acc maps ds) (rest : AtRest h₀ s acc maps ds)
    (made : h₀.currDpage ≠ invalidPgno)
    (suits : o.Suits h₀) (same : hdr.SameFields h₀.recorded) (acc' : Account)
    (sub : ∀ p, 0 < p → p < s → ∀ c, acc'.holds p c → acc.holds p c) :
    Arranged shelf { tableOf o hdr false pages with currDpage := h₀.currDpage } s acc' maps ds := by
  obtain ⟨version, -, size, masks⟩ := sameFields_words same
  obtain ⟨-, -, -, point⟩ := Hashhdr.masks_eq masks
  have levels := sameFields_levels same
  have few := rest.levels
  have flag : (tableOf o hdr false pages).dataValidFlag = h₀.dataValidFlag := by
    change (if hdr.version = ffdbVersion5 then dataValid5 else dataValid) = _
    rw [version]
    rcases file.format with ⟨five, flag⟩ | ⟨six, flag⟩
    · rw [flag]
      exact if_pos five
    · rw [flag]
      exact if_neg (by change h₀.hdr.version ≠ _; rw [six]; decide)
  refine Arranged.alike (file.inside sub) ⟨size, version, flag, rfl, point, fun l low => ?_, ?_,
    fun none => absurd none made⟩
    masks suits.hash suits.compare (suits.writable.trans file.writable.symm)
  · exact (levels l (by omega)).1
  · exact (levels _ (by omega)).2

def AllSigned (acc : Account) (s : Nat) : Prop := ∀ p, 0 < p → p < s → ∀ c, acc.holds p c → Pagepool.Signed c

theorem wp_lockPages {ty n : Nat} (other : ty ≠ hashBucketPage) (known : Knows h₀ s acc [] hashp)
    (writable : h₀.rdonly = false ∧ h₀.mp.rdonly = false)
    (signed : ∀ q, p ≤ q → q < p + n → ∀ c, acc.holds q c → Pagepool.Signed c) (pos : 0 < p) (below : p + n ≤ s)
    {Q : Unit → Htab → Prop} (next : ∀ t, Knows h₀ s acc [] t → Q () t) : Wp adm (lockPages ty n p) hashp Q := by
  induction n generalizing p hashp with
  | zero => exact wp_pure (next hashp known)
  | succ n ih =>
    have few := known.few
    have word : u32 (p + 1) = p + 1 := Nat.mod_eq_of_lt (by simp only [maxPageNumber] at few; omega)
    have save : hashp.rdonly = false := by
      rw [known.frame]
      exact writable.1
    refine wp_bind (Prog.wp_read ?_)
    rw [save]
    refine wp_bind (wp_getPage known List.not_mem_nil (fun _ => pos) (by omega) rfl (.inr writable.2)
      (fun q => wp_address_other other q) fun id c mid known told => ?_)
    rw [opened, if_neg (by simp)] at known
    dsimp only
    refine wp_bind (wp_putPage known (signed p le_rfl (by omega) c told) (fun _ _ _ holds => holds) told
      (fun _ _ holds => holds) fun mid known => ?_)
    rw [word]
    exact ih known (fun q low high => signed q (by omega) (by omega)) (Nat.succ_pos p) (by omega)

theorem wp_lastDataPage {fuel : Nat} (known : Knows h₀ s acc [] hashp) (signed : AllSigned acc s)
    (pos : 0 < p) (low : p < s)
    (ended : ∀ c, acc.holds p c → Ended c) {Q : Nat → Htab → Prop} (next : ∀ t, Knows h₀ s acc [] t → Q p t) :
    Wp adm (lastDataPage (fuel + 1) p) hashp Q := by
  refine wp_bind (wp_get known List.not_mem_nil (fun _ => pos) low (by decide) fun id c mid known told => ?_)
  refine wp_bind (wp_page known List.mem_cons_self (wp_bind (wp_putClean known (signed p pos low c told) told
    fun t known => ?_)))
  dsimp only
  rw [if_pos ⟨(ended c told).type, (ended c told).last⟩]
  exact wp_pure (next t known)

theorem wp_openPages (known : Knows h₀ s acc [] hashp) (old : h₀.newFile = false)
    (writable : h₀.rdonly = false ∧ h₀.mp.rdonly = false) (signed : AllSigned acc s)
    (unmoved : h₀.hdr.numMovedPages = 0)
    (uinfo : 0 < h₀.hdr.uinfoPage ∧ h₀.hdr.uinfoPage + h₀.hdr.uinfoNpages ≤ s)
    (cfig : 0 < h₀.hdr.cfigPage ∧ h₀.hdr.cfigPage + h₀.hdr.cfigNpages ≤ s)
    (last : h₀.hdr.spares (h₀.hdr.ovflPoint + 1) = p + 1) (pos : 0 < p) (low : p < s)
    (ended : ∀ c, acc.holds p c → Ended c) :
    Wp adm openPages hashp fun _ t => Knows { h₀ with currDpage := p } s acc [] t := by
  have made : ∀ {t}, Knows h₀ s acc [] t → t.newFile = false := fun known => by
    rw [known.frame]
    exact old
  have infos : ∀ {ty start n : Nat} {t : Htab} {Q : Unit → Htab → Prop}, ty ≠ hashBucketPage → Knows h₀ s acc [] t →
      0 < start ∧ start + n ≤ s → (∀ t, Knows h₀ s acc [] t → Q () t) → Wp adm (readInfo ty start n) t Q := by
    intro ty start n t Q other known place next
    refine wp_bind (Prog.wp_read ?_)
    rw [made known]
    exact wp_lockPages other known writable (fun q low high => signed q (place.1.trans_le low) (high.trans_le place.2))
      place.1 place.2 next
  refine wp_bind (wp_bind (Prog.wp_read ?_))
  rw [known.hdr]
  refine infos (by decide) known uinfo fun mid known => wp_bind (wp_bind (Prog.wp_read ?_))
  rw [known.hdr]
  refine infos (by decide) known cfig fun mid known => wp_bind (Prog.wp_read ?_)
  have past : Wp adm (do
      let hashp ← Prog.read
      let spare := hashp.hdr.spares (hashp.hdr.ovflPoint + 1)
      if 0 < spare then
        let last ← lastDataPage pageFuel (u32 (spare + 0xffffffff))
        Prog.modify fun hashp => { hashp with currDpage := last }) mid fun _ t =>
          Knows { h₀ with currDpage := p } s acc [] t := by
    have few := known.few
    refine wp_bind (Prog.wp_read ?_)
    dsimp only
    rw [known.hdr, last, if_pos (Nat.succ_pos p)]
    have back : u32 (p + 1 + 0xffffffff) = p := by
      rw [show p + 1 + 0xffffffff = p + 0x100000000 by omega, u32, Nat.add_mod_right]
      exact Nat.mod_eq_of_lt (by simp only [maxPageNumber] at few; omega)
    rw [back]
    exact wp_bind (wp_lastDataPage known signed pos low ended fun t known => Prog.wp_modify (known.setCurrDpage p))
  refine Prog.wp_ite (fun _ => wp_bind (wp_bind (Prog.wp_read ?_))) fun _ => past
  dsimp only
  rw [known.hdr, if_pos (.inl unmoved)]
  exact wp_pure past

theorem knownTable_on (on : h₀.recorded.On (pages.read 0)) (proper : h₀.hdr.Proper) (hash : o.hash = h₀.hash) :
    knownTable o pages = some (tableOf o (Hashhdr.decode (pages.read 0)) false pages) := by
  have recorded : h₀.recorded.Proper := proper.setCharkey _
  have same := on.decode recorded.range
  have proper' := same.proper recorded
  refine if_pos ⟨on.checks, proper'.magic, proper'.version, ?_⟩
  rw [(sameFields_counts same).2.1, hash]
  rfl

theorem allSigned_read : AllSigned (acc.read s) s := fun _ some low _ holds => (holds some low).2

theorem Arranged.wp_reopenFile (file : Arranged shelf h₀ s acc maps ds) (rest : AtRest h₀ s acc maps ds)
    (tip : Tip h₀ acc)
    (suits : o.Suits h₀) (known : Knows h₀ s acc [] hashp) :
    Wp adm (reopenFile o) hashp fun _ t => ∃ h₁, Knows h₁ s (acc.read s) [] t ∧ Arranged shelf h₁ s
      (acc.read s) maps ds ∧
      h₁.hdr.SameFields h₀.recorded ∧ h₁.hash = h₀.hash := by
  obtain ⟨started, some⟩ : Started h₀ s s ∧ 0 < h₀.currDpage := by
    rcases file.laid.current with unstarted | current
    · exact absurd unstarted.cur tip.made
    · exact ⟨current.started, current.some⟩
  have next := started.next rest tip.made
  refine wp_bind (wp_mono (wp_hdestroy known rest file.laid.pos file.writable) ?_)
  rintro _ last ⟨on, written⟩
  refine wp_bind (Prog.wp_read ?_)
  rw [knownTable_on on rest.proper suits.hash]
  have recorded : h₀.recorded.Proper := rest.proper.setCharkey _
  have same := on.decode recorded.range
  generalize Hashhdr.decode ((closedFile last).read 0) = hdr at same
  obtain ⟨-, -, size, masks⟩ := sameFields_words same
  obtain ⟨uinfo, uinfos, cfig, cfigs⟩ := sameFields_infos same
  have size : hdr.bsize = h₀.hdr.bsize := size
  have written : Written hdr.bsize s acc (closedFile last) := size ▸ written
  have point : hdr.ovflPoint = h₀.hdr.ovflPoint := (Hashhdr.masks_eq masks).2.2.2
  have opened := written.knows (same.proper recorded) suits.faultless (written.full tip some next) started.few
  refine wp_bind (Prog.wp_modify ?_)
  have inside : ∀ p, 0 < p → p < s → ∀ c, (acc.read s).holds p c → acc.holds p c :=
    fun p some low c holds => (holds some low).1
  refine wp_mono (wp_openPages (p := h₀.currDpage) opened rfl ⟨suits.writable, suits.writable⟩ allSigned_read
    ((sameFields_counts same).2.2.trans rest.unmoved.1) ?_ ?_ ?_ some started.cur
    fun c holds => tip.ended c (inside _ some started.cur c holds)) ?_
  · change 0 < hdr.uinfoPage ∧ hdr.uinfoPage + hdr.uinfoNpages ≤ s
    rw [uinfo, uinfos]
    exact rest.uinfo
  · change 0 < hdr.cfigPage ∧ hdr.cfigPage + hdr.cfigNpages ≤ s
    rw [cfig, cfigs]
    exact rest.cfig
  · change hdr.spares (hdr.ovflPoint + 1) = _
    rw [point, (sameFields_levels same _ rest.levels).1]
    exact started.spares.trans next
  · intro _ t known'
    exact ⟨_, known', file.again rest tip.made suits same _ inside, same, suits.hash⟩

end Open

end FileHash.Htab
