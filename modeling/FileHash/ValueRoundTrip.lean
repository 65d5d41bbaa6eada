import FileHash.AddedValues
import FileHash.InitialLayout

/-! What is stored is what is read. A value goes through `storeValue`, the part of
`_ffdb_add_item_on_page` that has to do with data pages, from any state of the current page
and of the free map, and every value stored by then reads back through its pointer. -/
namespace FileHash.Htab

open Lib (Prog)
open Lib.Prog (Wp wp_bind wp_pure wp_mono)
open Page

variable {h₀ h₁ hashp : Htab} {top s p id bsize kp ki : Nat} {acc acc' : Account} {hand : List Taken}
  {maps maps' : FreeMap} {mem c c' : Page} {adm : Event → Prop} {α : Type} {ds : List Datum} {val : Dbt}

structure Added (kp ki : Nat) (val : Dbt) (d : Datum) : Prop where
  keyPage : d.keyPage = kp
  keyIdx : d.keyIdx = ki
  size : d.size = val.size
  bytes : d.bytes = val.bytes

theorem room_eq {start : Nat} (low : start ≤ bsize) (most : bsize ≤ maxBsize) :
    u32 (bsize + 0x100000000 - start) = bsize - start := by
  simp only [u32, maxBsize] at *
  omega

theorem wp_addSplit (h : Knows h₀ s acc (⟨id, p, c⟩ :: hand) hashp) (w : Working h₀ s acc maps ds p c)
    (room : c.offset ≠ 0) {header : DataHeader} (words : header.Words) (last : header.next = 0)
    (heads : ∀ d : Datum, d.keyPage = kp → d.keyIdx = ki → d.bytes = val.bytes →
      d.Heads h₀.hdr.version h₀.dataValidFlag header)
    (more : h₀.hdr.bsize < c.offset + bigDataOverhead + val.size) (apart : ∀ q ∈ maps.pages, q ∉ numbers hand)
    (few : s + val.size / (h₀.hdr.bsize - bigPageOverhead) + 2 < maxPageNumber) {datap : Datap}
    {Q : Int × Datap → Htab → Prop}
    (next : ∀ h₁ s' acc' maps' d hashp', Onward h₀ s acc maps p h₁ s' acc' maps' →
      s' ≤ s + val.size / (h₀.hdr.bsize - bigPageOverhead) + 1 → DataLaid h₁ s' acc' maps' (d :: ds) →
        Added kp ki val d → (∀ q ∈ d.all, Touches maps s p q) →
      d.first = p → d.roff = c.offset → (ChainsHeld h₀.hdr.bsize acc ds p c → ChainsLaid h₁ acc' (d :: ds)) →
      Tip h₁ acc' →
      Knows h₁ s' acc' hand hashp' → Q (0, datap) hashp') :
    Wp adm (do
      store id (headBytes c.offset (h₀.hdr.bsize - c.offset) val)
      let r ← dataPage true
      let rlen := val.size - (h₀.hdr.bsize - c.offset - bigDataOverhead)
      let status ← addTail h₀.hdr.bsize val (rlen + 1) r.1 r.2 p rlen
      if status ≠ 0 then pure (-1, datap)
      else
        store id (headHeader c.offset r.1 header)
        putPage id true
        pure (0, datap)) hashp Q := by
  obtain ⟨full, high, _, _⟩ := w.opens.offset.resolve_left room
  have turns : (val.size - (h₀.hdr.bsize - c.offset - bigDataOverhead)) / (h₀.hdr.bsize - bigPageOverhead) ≤
      val.size / (h₀.hdr.bsize - bigPageOverhead) := Nat.div_le_div_right (Nat.sub_le _ _)
  have pos := Nat.zero_le ((val.size - (h₀.hdr.bsize - c.offset - bigDataOverhead)) / (h₀.hdr.bsize - bigPageOverhead))
  have apart' : ∀ q ∈ maps.pages, q ∉ p :: numbers hand := by
    intro q mem both
    rcases List.mem_cons.mp both with rfl | held
    · exact w.free mem
    · exact apart q mem held
  refine wp_bind (wp_store h _ fun mid known => ?_)
  refine wp_bind (wp_dataPage known w.stock w.started (by omega) apart'
    fun n reuse h₁ acc₁ maps₁ s₁ mid given cur known => ?_)
  obtain ⟨size, _, _⟩ := given.renumbered.facts
  have within : val.size - (val.size - (h₀.hdr.bsize - c.offset - bigDataOverhead)) =
      h₀.hdr.bsize - c.offset - bigDataOverhead := by omega
  have step : s₁ ≤ s + 1 := by
    cases reuse with
    | true => exact (given.reused rfl).2.le.trans (Nat.le_succ s)
    | false => exact (given.fresh rfl).2.le
  have outN : n ∉ p :: numbers hand := by
    cases reuse with
    | true => exact apart' n (given.reused rfl).1
    | false =>
      obtain ⟨rfl, _⟩ := given.fresh rfl
      exact fun held => lt_irrefl _ (known.hand_lt held)
  dsimp only
  refine wp_bind ?_
  rw [← size]
  refine wp_addTail (size ▸ w.page) (by omega) (by omega) (by omega) known given.stock given.started cur
    (given.low w.stock w.started).1
    (fun yes => ?_) (fun no => ?_) given.out (List.forall_mem_cons.mpr ⟨outN, fun q mem => apart' q (given.sub q mem)⟩)
    (by rw [size]; omega) fun h₂ acc₂ maps₂ s₂ ps mid tail known => ?_
  · obtain ⟨mem, rfl⟩ := given.reused yes
    exact ⟨(w.stock.bound n mem).2, rfl⟩
  · exact given.fresh no
  rw [if_neg (by decide)]
  refine wp_bind (wp_store known _ fun mid known => ?_)
  let d : Datum := ⟨kp, ki, p, c.offset, val.size, ps, val.bytes⟩
  have parted : Parted h₀.hdr.bsize p c.offset val ps d := ⟨rfl, rfl, rfl, rfl, rfl, high, by omega⟩
  have wrote : Wrote c.offset header val (h₀.hdr.bsize - c.offset - bigDataOverhead) 0 c
      (headHeader c.offset n header (headBytes c.offset (h₀.hdr.bsize - c.offset) val c)) :=
    wrote_headHeader ((Nat.le_add_right _ _).trans full) words
  have link : Page.nextPgno (headHeader c.offset n header (headBytes c.offset (h₀.hdr.bsize - c.offset) val c)) =
    n := by
    have := (given.low w.stock w.started).2
    have := given.started.few
    simp only [maxPageNumber] at this
    exact nextPgno_headHeader (by omega)
  rw [size, within] at tail
  have most : s₂ ≤ s + val.size / (h₀.hdr.bsize - bigPageOverhead) + 1 := by
    refine tail.most.trans ?_
    rw [List.length_drop, val.length_bytes, size]
    have less := Nat.div_le_div_right (c := h₀.hdr.bsize - bigPageOverhead)
      (Nat.sub_le val.size (h₀.hdr.bsize - c.offset - bigDataOverhead))
    omega
  obtain ⟨laid, onward⟩ := w.split room parted given tail (heads d rfl rfl rfl) wrote link
  dsimp only at known
  refine wp_bind (wp_putDirty known (w.wrote room wrote).1 fun hashp' known => wp_pure ?_)
  exact next h₂ s₂ _ maps₂ d hashp' onward most laid ⟨rfl, rfl, rfl, rfl⟩
    (List.forall_mem_cons.mpr ⟨.inl rfl, fun q mem => .inr (tail.from_free given q mem)⟩) rfl rfl
    (w.split_chains room parted given tail last wrote) (w.split_tip given tail) known

theorem wp_addData (h : Knows h₀ s acc (⟨id, p, c⟩ :: hand) hashp) (w : Working h₀ s acc maps ds p c)
    (format : Format h₀.hdr.version h₀.dataValidFlag) (storable : Storable h₀.hdr.version val.size)
    (word : kp < 0x100000000 ∧ ki < 0x100000000) (apart : ∀ q ∈ maps.pages, q ∉ numbers hand)
    (few : s + val.size / (h₀.hdr.bsize - bigPageOverhead) + 3 < maxPageNumber) {first offset : Nat}
    {Q : Int × Datap → Htab → Prop}
    (next : ∀ h₁ s' acc' maps' d datap hashp', Onward h₀ s acc maps p h₁ s' acc' maps' →
      s' ≤ s + val.size / (h₀.hdr.bsize - bigPageOverhead) + 2 → DataLaid h₁ s' acc' maps' (d :: ds) →
        Added kp ki val d → (∀ q ∈ d.all, Touches maps s p q) →
      datap = d.pointer h₀.hdr.version → (ChainsHeld h₀.hdr.bsize acc ds p c → ChainsLaid h₁ acc' (d :: ds)) →
      (Ended c → Tip h₁ acc') →
      Knows h₁ s' acc' hand hashp' → Q (0, datap) hashp') :
    Wp adm (addData kp ki val id p ⟨first, offset, u32 val.size, Checksum.crc32Checksum 0 val.bytes⟩) hashp Q := by
  have turns := Nat.zero_le (val.size / (h₀.hdr.bsize - bigPageOverhead))
  refine wp_bind (wp_openDataPage h w (by omega) apart
    fun h₁ s₁ acc₁ maps₁ id' p' c' mid onward grown place w' room chains ended known => ?_)
  obtain ⟨size, version, flag⟩ := onward.renumbered.facts
  refine wp_bind (Prog.wp_read ?_)
  dsimp only
  rw [known.hdr, show mid.dataValidFlag = h₁.dataValidFlag by rw [known.frame], version, flag]
  have most := w'.page.most
  obtain ⟨full, header, _, behind⟩ := w'.opens.offset.resolve_left room
  have words : (dataHeader h₀.hdr.version h₀.dataValidFlag val kp ki).Words := dataHeader_words format word
  have heads : ∀ d : Datum, d.keyPage = kp → d.keyIdx = ki → d.bytes = val.bytes →
      d.Heads h₁.hdr.version h₁.dataValidFlag (dataHeader h₀.hdr.version h₀.dataValidFlag val kp ki) := by
    rintro d rfl rfl bytes
    rw [version, flag]
    exact heads_dataHeader format storable bytes
  rw [room_eq (by omega) most, if_neg (by omega)]
  refine Prog.wp_ite (fun fits => ?_) fun splits => ?_
  · have inside : c'.offset + bigDataOverhead + val.size ≤ h₁.hdr.bsize := by
      have := fits.2
      simp only [bigDataTotalSize] at this
      omega
    have low : bigPageOverhead ≤ c'.offset := (Nat.le_add_right _ _).trans full
    have next' : headerNext h₁.hdr.bsize c'.offset val < 0x100000000 := by
      have := headerNext_room h₁.hdr.bsize c'.offset val
      simp only [maxBsize] at most
      omega
    have wrote := wrote_wholeDatum (c := c') low words next'
    refine wp_bind (wp_store known _ fun mid known => ?_)
    dsimp only at known
    refine wp_bind (wp_putDirty known (w'.wrote room wrote).1 fun hashp' known => wp_pure ?_)
    let d : Datum := ⟨kp, ki, p', c'.offset, val.size, [], val.bytes⟩
    refine next h₁ s₁ _ maps₁ d _ hashp' (onward.set place) (by omega)
      (w'.whole room inside ⟨rfl, rfl, rfl, rfl, rfl⟩ ((heads d rfl rfl rfl).next _) wrote)
      ⟨rfl, rfl, rfl, rfl⟩ (List.forall_mem_cons.mpr ⟨place, fun q mem => by cases mem⟩) ?_ (fun held => ?_)
        (fun last => ?_) known
    · rw [Datum.pointer, show d.bytes.length = val.size from val.length_bytes]
    · exact w'.whole_chains room ⟨rfl, rfl, rfl, rfl, rfl⟩ rfl wrote (size ▸ chains held)
    · exact w'.tip ((ended last).whole low)
  · have more : h₁.hdr.bsize < c'.offset + bigDataOverhead + val.size := by
      by_contra fits
      refine splits ⟨format.imp And.left fun new => ?_, by simp only [bigDataTotalSize]; omega⟩
      simp only [isHugeData, decide_eq_false_iff_not, not_lt]
      simp only [maxBsize] at most
      omega
    refine wp_addSplit known w' room words rfl heads more (fun q mem => apart q (onward.sub q mem)) ?_
      fun h₂ s₂ acc₂ maps₂ d hashp' onward' most' laid added pages first roff split tip known => ?_
    · rw [size]
      omega
    · rw [size] at most'
      refine next h₂ s₂ acc₂ maps₂ d _ hashp' (onward.trans onward' place) (by omega) laid added
        (fun q mem => (pages q mem).trans onward.sub onward.grows place) ?_ (fun held => split (size ▸ chains held))
          (fun _ => tip) known
      rw [Datum.pointer, first, roff, added.bytes, val.length_bytes]

/-- What `_ffdb_add_item_on_page` does with the value: status, and the pointer to it. -/
def storeValue (keyPage keyIdx : Nat) (val : Dbt) (chksum : Nat) : Run (Int × Datap) := do
  let fpage ← dataPage false
  let r ← getPage fpage.1 hashDataPage { create := true }
  match r with
  | (none, _) => pure (-1, ⟨fpage.1, 0, u32 val.size, chksum⟩)
  | (some memp, dpage) => addData keyPage keyIdx val memp dpage ⟨fpage.1, 0, u32 val.size, chksum⟩

/-- The rest of `_ffdb_add_item_on_page` has to do with the page of the key only. -/
theorem addItemOnPage_eq {pagep pgno chksum : Nat} {key : Dbt} :
    addItemOnPage pagep pgno key val chksum = (do
      let p ← page pagep
      store pagep (putKey key)
      let r ← storeValue pgno p.numEnt val chksum
      if r.1 ≠ 0 then pure (-1)
      else
        store pagep (putDatap p.numEnt (slotOff p key) r.2)
        pure 0) := by
  have : LawfulMonad (Prog Htab Event) := Prog.lawful
  refine bind_congr fun p => bind_congr fun _ => ?_
  rw [storeValue, bind_assoc]
  refine bind_congr fun fpage => ?_
  rw [bind_assoc]
  refine bind_congr fun r => ?_
  rcases r with ⟨_ | memp, dpage⟩
  · dsimp only
    rw [pure_bind, if_pos (show (-1 : Int) ≠ 0 by decide)]
  · rfl

theorem wp_storeValue (h : Knows h₀ s acc hand hashp) (laid : DataLaid h₀ s acc maps ds)
    (format : Format h₀.hdr.version h₀.dataValidFlag) (storable : Storable h₀.hdr.version val.size)
    (word : kp < 0x100000000 ∧ ki < 0x100000000) (cur : h₀.currDpage ∉ numbers hand)
    (apart : ∀ q ∈ maps.pages, q ∉ numbers hand)
    (few : s + val.size / (h₀.hdr.bsize - bigPageOverhead) + 4 < maxPageNumber) {Q : Int × Datap → Htab → Prop}
    (next : ∀ h₁ s' acc' maps' d datap hashp', Onward h₀ s acc maps h₀.currDpage h₁ s' acc' maps' →
      s' ≤ s + val.size / (h₀.hdr.bsize - bigPageOverhead) + 3 → DataLaid h₁ s' acc' maps' (d :: ds) →
        Added kp ki val d → (∀ q ∈ d.all, Touches maps s h₀.currDpage q) →
      datap = d.pointer h₀.hdr.version → (ChainsLaid h₀ acc ds → ChainsLaid h₁ acc' (d :: ds)) →
      ((h₀.currDpage ≠ invalidPgno → Tip h₀ acc) → Tip h₁ acc') →
      Knows h₁ s' acc' hand hashp' → Q (0, datap) hashp') :
    Wp adm (storeValue kp ki val (Checksum.crc32Checksum 0 val.bytes)) hashp Q := by
  have turns := Nat.zero_le (val.size / (h₀.hdr.bsize - bigPageOverhead))
  refine wp_bind (wp_mono (wp_currentPage h laid cur (by omega)
    fun h₁ s₁ memp p c mid renumbered grows least place w chains ended known => ?_) fun _ _ => wp_bind)
  obtain ⟨size, version, flag⟩ := renumbered.facts
  refine wp_addData known w (by rw [version, flag]; exact format) (by rw [version]; exact storable) word apart
    (by rw [size]; omega) fun h₂ s₂ acc₂ maps₂ d datap hashp' onward most laid added pages points held tip known => ?_
  rw [size] at most
  have first : Onward h₀ s acc maps h₀.currDpage h₁ s₁ acc maps :=
    ⟨renumbered, grows, fun _ => id, fun _ _ _ => Iff.rfl, w.cur ▸ place⟩
  exact next h₂ s₂ acc₂ maps₂ d datap hashp' (first.trans onward place) (by omega) laid added
    (fun q mem => (pages q mem).trans (fun _ => id) grows place) (version ▸ points)
    (fun laid => held (size.symm ▸ chains laid)) (fun was => tip (ended was)) known

structure Stored where
  keyPage : Nat
  keyIdx : Nat
  datap : Datap
  bytes : List UInt8

/-- The datum is that value. -/
structure Datum.Keeps (version : Nat) (d : Datum) (v : Stored) : Prop where
  keyPage : d.keyPage = v.keyPage
  keyIdx : d.keyIdx = v.keyIdx
  bytes : d.bytes = v.bytes
  points : d.Points version v.datap

structure Aside (h₀ : Htab) (maps : FreeMap) (ds : List Datum) (hand : List Taken) : Prop where
  cur : h₀.currDpage ∉ numbers hand
  free : ∀ p ∈ maps.pages, p ∉ numbers hand
  data : ∀ d ∈ ds, ∀ p ∈ d.all, p ∉ numbers hand

/-- The table, of which the thread has the pages `hand`, has the data `ds`. How full the current data
page is, and which pages are free, is left open. -/
def HasData (hand : List Taken) (hashp : Htab) (ds : List Datum) : Prop :=
  ∃ h₀ s acc maps, Knows h₀ s acc hand hashp ∧ Format h₀.hdr.version h₀.dataValidFlag ∧
    DataLaid h₀ s acc maps ds ∧ Aside h₀ maps ds hand

/-- It has the values `vals`, among others. -/
def HasValues (hand : List Taken) (hashp : Htab) (vals : List Stored) : Prop :=
  ∃ ds, HasData hand hashp ds ∧ ∀ v ∈ vals, ∃ d ∈ ds, d.Keeps hashp.hdr.version v

def nextNumber (hashp : Htab) : Nat :=
  if hashp.currDpage = invalidPgno then u32 (hashp.hdr.bucketToPage hashp.hdr.highMask + 1)
  else hashp.hdr.spares (hashp.hdr.ovflPoint + 1)

/-- There are page numbers left for a value of this size. -/
def Numbered (hashp : Htab) (size : Nat) : Prop :=
  nextNumber hashp + size / (hashp.hdr.bsize - bigPageOverhead) + 4 < maxPageNumber

/-- From one table to another by storing values and by reading some of them, in any order. -/
inductive ValueRun (start : Htab) (vals : List Stored) : Htab → List Stored → Prop
  | refl : ValueRun start vals start vals
  | store {hashp hashp' : Htab} {now : List Stored} {kp ki : Nat} {val : Dbt} {datap : Datap}
    (run : ValueRun start vals hashp now) (storable : Storable hashp.hdr.version val.size)
    (slot : kp < 0x100000000 ∧ ki < 0x100000000) (few : Numbered hashp val.size)
    (stores : (storeValue kp ki val (Checksum.crc32Checksum 0 val.bytes)).Returns hashp (0, datap) hashp') :
    ValueRun start vals hashp' (⟨kp, ki, datap, val.bytes⟩ :: now)
  | read {hashp hashp' : Htab} {now : List Stored} {v : Stored} {room : Nat} {r : Int × List UInt8}
    (run : ValueRun start vals hashp now) (mem : v ∈ now) (roomy : room = 0 ∨ v.bytes.length ≤ room)
    (reads : (getData v.keyPage v.keyIdx room v.datap).Returns hashp r hashp') : ValueRun start vals hashp' now

variable {vals vals' : List Stored}

theorem Aside.onward {d : Datum} (aside : Aside h₀ maps ds hand) (h : Knows h₀ s acc hand hashp) {s' : Nat}
    (onward : Onward h₀ s acc maps h₀.currDpage h₁ s' acc' maps')
    (pages : ∀ q ∈ d.all, Touches maps s h₀.currDpage q) : Aside h₁ maps' (d :: ds) hand := by
  have out : ∀ q, Touches maps s h₀.currDpage q → q ∉ numbers hand := by
    rintro q (rfl | free | high) held
    · exact aside.cur held
    · exact aside.free q free held
    · exact absurd (h.hand_lt held) (not_lt.mpr high)
  exact ⟨out _ onward.cur, fun q mem => aside.free q (onward.sub q mem),
    List.forall_mem_cons.mpr ⟨fun q mem => out q (pages q mem), aside.data⟩⟩

theorem nextNumber_eq (h : Knows h₀ s acc hand hashp) (laid : DataLaid h₀ s acc maps ds) : nextNumber hashp = s := by
  have cur : hashp.currDpage = h₀.currDpage := by rw [h.frame]
  rw [nextNumber, h.hdr, cur]
  rcases laid.current with unstarted | current
  · rw [if_pos unstarted.cur]
    exact unstarted.first
  · have started := current.started
    have := started.cur
    have := started.few
    rw [if_neg (by simp only [invalidPgno, maxPageNumber] at *; omega)]
    exact started.spares

theorem DataLaid.points {d : Datum} (laid : DataLaid h₀ s acc maps ds) (mem : d ∈ ds)
    (format : Format h₀.hdr.version h₀.dataValidFlag) (storable : Storable h₀.hdr.version d.bytes.length) :
    d.Points h₀.hdr.version (d.pointer h₀.hdr.version) := by
  refine d.points_pointer format storable ?_
  have high := (laid.placed d mem).high
  have most := laid.page.most
  simp only [maxBsize, bigDataOverhead] at *
  omega

/-- All that is told of a table with the data `ds`. -/
structure Accounted (h₀ : Htab) (s : Nat) (acc : Account) (maps : FreeMap) (hand : List Taken) (hashp : Htab)
    (ds : List Datum) : Prop where
  known : Knows h₀ s acc hand hashp
  format : Format h₀.hdr.version h₀.dataValidFlag
  laid : DataLaid h₀ s acc maps ds
  aside : Aside h₀ maps ds hand

theorem Accounted.store (has : Accounted h₀ s acc maps hand hashp ds) (storable : Storable hashp.hdr.version val.size)
    (slot : kp < 0x100000000 ∧ ki < 0x100000000) (few : Numbered hashp val.size) :
    ∃ d datap hashp' h₁ s' acc' maps',
      (storeValue kp ki val (Checksum.crc32Checksum 0 val.bytes)).Returns hashp (0, datap) hashp' ∧
      Accounted h₁ s' acc' maps' hand hashp' (d :: ds) ∧ (ChainsLaid h₀ acc ds → ChainsLaid h₁ acc' (d :: ds)) ∧
      Added kp ki val d ∧ d.Points hashp'.hdr.version datap ∧ hashp'.hdr.version = hashp.hdr.version ∧
      hashp'.hdr.bsize = hashp.hdr.bsize := by
  obtain ⟨known, format, laid, aside⟩ := has
  rw [Numbered, nextNumber_eq known laid, known.hdr] at few
  rw [known.hdr] at storable ⊢
  have stores : Wp (fun _ => True) (storeValue kp ki val (Checksum.crc32Checksum 0 val.bytes)) hashp fun r hashp' =>
      r.1 = 0 ∧ ∃ d h₁ s' acc' maps', Accounted h₁ s' acc' maps' hand hashp' (d :: ds) ∧
        (ChainsLaid h₀ acc ds → ChainsLaid h₁ acc' (d :: ds)) ∧ Added kp ki val d ∧
        d.Points hashp'.hdr.version r.2 ∧ hashp'.hdr.version = h₀.hdr.version ∧ hashp'.hdr.bsize = h₀.hdr.bsize := by
    refine wp_storeValue known laid format storable slot aside.cur aside.free few
      fun h₁ s' acc' maps' d datap hashp' onward _ laid added pages pointer chains _ known' => ?_
    obtain ⟨size, version, flag⟩ := onward.renumbered.facts
    have format' : Format h₁.hdr.version h₁.dataValidFlag := by
      rw [version, flag]
      exact format
    refine ⟨rfl, d, h₁, s', acc', maps', ⟨known', format', laid, aside.onward known onward pages⟩, chains, added,
      ?_, ?_, ?_⟩
    · subst pointer
      rw [known'.hdr, ← version]
      refine laid.points List.mem_cons_self format' ?_
      rw [added.bytes, val.length_bytes, version]
      exact storable
    · rw [known'.hdr, version]
    · rw [known'.hdr, size]
  obtain ⟨⟨status, datap⟩, hashp', run, rfl, d, h₁, s', acc', maps', rest⟩ := stores fun _ _ => trivial
  exact ⟨d, datap, hashp', h₁, s', acc', maps', run, rest⟩

/-- The tables agree in what their data depend on. -/
structure Alike (h₀ h₁ : Htab) : Prop where
  size : h₁.hdr.bsize = h₀.hdr.bsize
  version : h₁.hdr.version = h₀.hdr.version
  flag : h₁.dataValidFlag = h₀.dataValidFlag
  current : h₁.currDpage = h₀.currDpage
  point : h₁.hdr.ovflPoint = h₀.hdr.ovflPoint
  spares : ∀ l ≤ h₀.hdr.ovflPoint + 1, h₁.hdr.spares l = h₀.hdr.spares l
  free : h₁.hdr.freePages h₀.hdr.ovflPoint = h₀.hdr.freePages h₀.hdr.ovflPoint
  first : h₀.currDpage = invalidPgno →
    h₁.hdr.bucketToPage h₁.hdr.highMask = h₀.hdr.bucketToPage h₀.hdr.highMask

theorem alike_loosened : Alike h₀ h₀.loosened := ⟨rfl, rfl, rfl, rfl, rfl, fun _ _ => rfl, rfl, fun _ => rfl⟩

theorem Format.alike (format : Format h₀.hdr.version h₀.dataValidFlag) (alike : Alike h₀ h₁) :
    Format h₁.hdr.version h₁.dataValidFlag := by
  rw [alike.version, alike.flag]
  exact format

theorem DataLaid.alike (laid : DataLaid h₀ s acc maps ds) (alike : Alike h₀ h₁) : DataLaid h₁ s acc maps ds where
  page := alike.size ▸ laid.page
  pos := laid.pos
  stock := ⟨by rw [alike.point, alike.free]; exact laid.stock.head, laid.stock.onPages, laid.stock.nodup, laid.stock.bound⟩
  placed := alike.size ▸ laid.placed
  on d mem p on c holds := by
    rw [alike.size, alike.version, alike.flag]
    exact laid.on d mem p on c holds
  used := laid.used
  apart := alike.size ▸ laid.apart
  current := by
    have spares := alike.spares _ le_rfl
    rw [← alike.point] at spares
    refine laid.current.imp (fun new => ⟨?_, alike.current.trans new.cur, ?_⟩) fun current =>
      ⟨⟨?_, ?_, ?_, ?_⟩, ?_, ?_, ?_, ?_⟩
    · rw [spares, alike.point]
      exact new.spares
    · rw [alike.first new.cur]
      exact new.first
    · rw [spares, alike.point]
      exact current.started.spares
    · exact alike.current ▸ current.started.cur
    · exact current.started.le
    · exact current.started.few
    all_goals rw [alike.current]
    · exact current.some
    · exact current.free
    · exact current.unlinked
    · rw [alike.size]
      exact current.opens

theorem Accounted.loosen (has : Accounted h₀ s acc maps hand hashp ds) :
    Accounted h₀.loosened s acc maps hand hashp ds :=
  ⟨has.known.loosen, has.format, has.laid.alike alike_loosened, ⟨has.aside.cur, has.aside.free, has.aside.data⟩⟩

/-- Where an empty value has been read its page stays pinned, and nothing more is known of the pins. -/
theorem Accounted.read (has : Accounted h₀ s acc maps hand hashp ds) (loose : ¬h₀.Idle) {d : Datum} (mem : d ∈ ds)
    {datap : Datap} (points : d.Points hashp.hdr.version datap) {room : Nat}
    (roomy : room = 0 ∨ d.bytes.length ≤ room) :
    ∃ hashp', (getData d.keyPage d.keyIdx room datap).Returns hashp (0, d.bytes) hashp' ∧
      Accounted h₀ s acc maps hand hashp' ds ∧ hashp'.hdr.version = hashp.hdr.version := by
  obtain ⟨known, format, laid, aside⟩ := has
  rw [known.hdr] at points ⊢
  have reads : Wp (fun _ => True) (getData d.keyPage d.keyIdx room datap) hashp fun r hashp' =>
      r = (0, d.bytes) ∧ Accounted h₀ s acc maps hand hashp' ds ∧ hashp'.hdr.version = h₀.hdr.version := by
    refine wp_getData known laid.page.room (laid.placed d mem) (laid.on d mem) points
      (fun p on => ⟨(laid.used d mem p on).1, aside.data d mem p on⟩) roomy (fun _ => loose) fun hashp' known' => ?_
    exact ⟨rfl, ⟨known', format, laid, aside⟩, by rw [known'.hdr]⟩
  obtain ⟨r, hashp', run, rfl, has⟩ := reads fun _ _ => trivial
  exact ⟨hashp', run, has⟩

theorem HasData.store (has : HasData hand hashp ds) (storable : Storable hashp.hdr.version val.size)
    (slot : kp < 0x100000000 ∧ ki < 0x100000000) (few : Numbered hashp val.size) :
    ∃ d datap hashp', (storeValue kp ki val (Checksum.crc32Checksum 0 val.bytes)).Returns hashp (0, datap) hashp' ∧
      HasData hand hashp' (d :: ds) ∧ Added kp ki val d ∧ d.Points hashp'.hdr.version datap ∧
      hashp'.hdr.version = hashp.hdr.version ∧ hashp'.hdr.bsize = hashp.hdr.bsize := by
  obtain ⟨h₀, s, acc, maps, known, format, laid, aside⟩ := has
  obtain ⟨d, datap, hashp', h₁, s', acc', maps', run, has, _, rest⟩ :=
    Accounted.store ⟨known, format, laid, aside⟩ storable slot few
  exact ⟨d, datap, hashp', run, ⟨h₁, s', acc', maps', has.known, has.format, has.laid, has.aside⟩, rest⟩

theorem HasData.read (has : HasData hand hashp ds) {d : Datum} (mem : d ∈ ds) {datap : Datap}
    (points : d.Points hashp.hdr.version datap) {room : Nat} (roomy : room = 0 ∨ d.bytes.length ≤ room) :
    ∃ hashp', (getData d.keyPage d.keyIdx room datap).Returns hashp (0, d.bytes) hashp' ∧ HasData hand hashp' ds ∧
      hashp'.hdr.version = hashp.hdr.version := by
  obtain ⟨h₀, s, acc, maps, known, format, laid, aside⟩ := has
  obtain ⟨hashp', run, has, version⟩ :=
    (Accounted.loosen ⟨known, format, laid, aside⟩).read not_idle_loosened mem points roomy
  exact ⟨hashp', run, ⟨_, s, acc, maps, has.known, has.format, has.laid, has.aside⟩, version⟩

theorem HasValues.store (has : HasValues hand hashp vals) (storable : Storable hashp.hdr.version val.size)
    (slot : kp < 0x100000000 ∧ ki < 0x100000000) (few : Numbered hashp val.size) :
    ∃ datap hashp', (storeValue kp ki val (Checksum.crc32Checksum 0 val.bytes)).Returns hashp (0, datap) hashp' ∧
      HasValues hand hashp' (⟨kp, ki, datap, val.bytes⟩ :: vals) := by
  obtain ⟨ds, has, kept⟩ := has
  obtain ⟨d, datap, hashp', run, has, added, points, version, _⟩ := has.store storable slot few
  refine ⟨datap, hashp', run, d :: ds, has, List.forall_mem_cons.mpr ⟨⟨d, List.mem_cons_self, ?_⟩, fun v mem => ?_⟩⟩
  · exact ⟨added.keyPage, added.keyIdx, added.bytes, points⟩
  · obtain ⟨d', memd, keeps⟩ := kept v mem
    exact ⟨d', List.mem_cons_of_mem _ memd, version ▸ keeps⟩

theorem HasValues.read (has : HasValues hand hashp vals) {v : Stored} (mem : v ∈ vals) {room : Nat}
    (roomy : room = 0 ∨ v.bytes.length ≤ room) :
    ∃ hashp', (getData v.keyPage v.keyIdx room v.datap).Returns hashp (0, v.bytes) hashp' ∧
      HasValues hand hashp' vals := by
  obtain ⟨ds, has, kept⟩ := has
  obtain ⟨d, memd, keeps⟩ := kept v mem
  obtain ⟨hashp', run, has, version⟩ := has.read memd keeps.points (keeps.bytes ▸ roomy)
  rw [keeps.keyPage, keeps.keyIdx, keeps.bytes] at run
  exact ⟨hashp', run, ds, has, fun v mem => version ▸ kept v mem⟩

theorem ValueRun.holds {hashp' : Htab} (run : ValueRun hashp vals hashp' vals') (start : HasValues hand hashp vals) :
    HasValues hand hashp' vals' := by
  induction run with
  | refl => exact start
  | store run storable slot few stores ih =>
    obtain ⟨datap, hashp'', again, holds⟩ := ih.store storable slot few
    obtain ⟨same, rfl⟩ := again.unique stores
    cases same
    exact holds
  | read run mem roomy reads ih =>
    obtain ⟨hashp'', again, holds⟩ := ih.read mem roomy
    obtain ⟨_, rfl⟩ := again.unique reads
    exact holds

/-- After any run of stores and reads every value there is reads back as it was stored, and every
value that is accepted can be stored. -/
theorem value_round_trip {hashp' : Htab} (start : HasValues hand hashp vals) (run : ValueRun hashp vals hashp' vals') :
    (∀ v ∈ vals', ∀ room, room = 0 ∨ v.bytes.length ≤ room →
      ∃ t, (getData v.keyPage v.keyIdx room v.datap).Returns hashp' (0, v.bytes) t) ∧
    ∀ val kp ki, Storable hashp'.hdr.version val.size → kp < 0x100000000 ∧ ki < 0x100000000 →
      Numbered hashp' val.size → ∃ datap t,
        (storeValue kp ki val (Checksum.crc32Checksum 0 val.bytes)).Returns hashp' (0, datap) t ∧
        ValueRun hashp vals t (⟨kp, ki, datap, val.bytes⟩ :: vals') := by
  have holds := run.holds start
  constructor
  · intro v mem room roomy
    obtain ⟨t, reads, _⟩ := holds.read mem roomy
    exact ⟨t, reads⟩
  · intro val kp ki storable slot few
    obtain ⟨datap, t, stores, _⟩ := holds.store storable slot few
    exact ⟨datap, t, stores, .store run storable slot few stores⟩

section Opened

variable {o : Opening} {hdr : Hashhdr} {newFile : Bool} {file : Pagefile}

def Account.any : Account := ⟨fun _ _ => True, fun _ _ => trivial⟩

theorem knows_tableOf (noFault : ∀ n, o.fault n = false) (native : hdr.lorder = littleEndian)
    (readable : ∀ n, ∃ c, pginRoutine hdr.bsize false n (file.read n) = some c) (below : file.length ≤ top)
    (few : top < maxPageNumber) : Knows (tableOf o hdr newFile file) top .any [] (tableOf o hdr newFile file) := by
  have swapped : (hdr.lorder != littleEndian) = false := by simp [native]
  have sound : Pagepool.Sound self (Pagepool.openFd file o.mem o.rdonly
      (o.option Hashinfo.cachesize defCachesize / hdr.bsize) (pginRoutine hdr.bsize false)
      (pgoutRoutine hdr.bsize false)) := (Pagepool.refines_openFd Pagepool.inverse_native readable).sound
  unfold tableOf
  rw [swapped]
  exact {
    frame := rfl
    noFault := noFault
    sound := sound
    counted := rfl
    inverse := Pagepool.inverse_native
    below := ⟨below, below, fun _ mem => absurd mem List.not_mem_nil⟩
    few := few
    distinct := List.nodup_nil
    hands := fun _ mem => absurd mem List.not_mem_nil
    holds := fun _ _ _ _ => trivial
    behind := fun _ mem => absurd mem List.not_mem_nil
    pins := fun _ => ⟨fun _ mem => absurd mem List.not_mem_nil, fun _ mem => absurd mem List.not_mem_nil⟩
    fixed := ⟨rfl, rfl, rfl⟩
    reached := id }

theorem laid_tableOf (page : PageSize hdr.bsize) (spares : hdr.spares (hdr.ovflPoint + 1) = 0)
    (free : hdr.freePages hdr.ovflPoint = invalidPgno) (first : u32 (hdr.bucketToPage hdr.highMask + 1) = top)
    (pos : 0 < top) : DataLaid (tableOf o hdr newFile file) top .any [] [] where
  page := page
  pos := pos
  stock := ⟨free, trivial, List.nodup_nil, fun _ mem => absurd mem List.not_mem_nil⟩
  placed _ mem := absurd mem List.not_mem_nil
  on _ mem := absurd mem List.not_mem_nil
  used _ mem := absurd mem List.not_mem_nil
  apart := List.Pairwise.nil
  current := .inl ⟨spares, rfl, first⟩

theorem format_tableOf (version : hdr.version = ffdbVersion5 ∨ hdr.version = ffdbVersion) :
    Format (tableOf o hdr newFile file).hdr.version (tableOf o hdr newFile file).dataValidFlag := by
  rcases version with five | six
  · exact .inl ⟨five, if_pos five⟩
  · exact .inr ⟨six, if_neg (by rw [six]; decide)⟩

theorem hasData_tableOf (noFault : ∀ n, o.fault n = false) (native : hdr.lorder = littleEndian)
    (readable : ∀ n, ∃ c, pginRoutine hdr.bsize false n (file.read n) = some c)
    (version : hdr.version = ffdbVersion5 ∨ hdr.version = ffdbVersion) (page : PageSize hdr.bsize)
    (spares : hdr.spares (hdr.ovflPoint + 1) = 0) (free : hdr.freePages hdr.ovflPoint = invalidPgno)
    (first : u32 (hdr.bucketToPage hdr.highMask + 1) = top) (pos : 0 < top) (below : file.length ≤ top)
    (few : top < maxPageNumber) : HasData [] (tableOf o hdr newFile file) [] :=
  ⟨tableOf o hdr newFile file, top, .any, [], knows_tableOf noFault native readable below few, format_tableOf version,
    laid_tableOf page spares free first pos, List.not_mem_nil, fun _ mem => absurd mem List.not_mem_nil,
    fun _ mem => absurd mem List.not_mem_nil⟩

theorem pageSize_initHash {bsize bshift : Nat} (accepted : initHash o = some (bsize, bshift))
    (asked : o.option Hashinfo.bsize 0 ≠ 0) : PageSize bsize := by
  rw [initHash, if_neg asked] at accepted
  dsimp only at accepted
  split_ifs at accepted with refused
  obtain ⟨most, least⟩ := not_or.mp refused
  obtain ⟨rfl, rfl⟩ := Prod.mk.inj (Option.some.inj accepted)
  have shift : 2 ≤ ffdbLog2 (o.option Hashinfo.bsize 0) := by
    by_contra low
    have small : 2 ^ ffdbLog2 (o.option Hashinfo.bsize 0) ≤ 2 ^ 1 := Nat.pow_le_pow_right (by decide) (by omega)
    simp only [hashhdrSize] at least
    omega
  refine ⟨not_lt.mp least, not_lt.mp most, ?_⟩
  obtain ⟨k, shift⟩ := Nat.exists_eq_add_of_le shift
  rw [shift, pow_add]
  exact Nat.mul_mod_right 4 _

theorem hasData_new {bsize bshift : Nat} (noFault : ∀ n, o.fault n = false) (page : PageSize bsize)
    (first : u32 ((initHdr o bsize bshift).bucketToPage (initHdr o bsize bshift).highMask + 1) = top) (pos : 0 < top)
    (few : top < maxPageNumber) :
    HasData [] (tableOf o (initHdr o bsize bshift) true ⟨0, fun _ _ => 0⟩) [] := by
  refine hasData_tableOf noFault rfl (fun n => ?_) (.inr rfl) page ?_ rfl first pos (Nat.zero_le _) few
  · rw [show (⟨0, fun _ _ => 0⟩ : Pagefile).read n = fun _ => 0 from if_neg (Nat.not_lt_zero n)]
    exact filters_native.in_zero n
  · exact if_pos (Nat.lt_succ_self _)

end Opened

def newTable : Htab := tableOf twoBuckets (initHdr twoBuckets 4096 12) true ⟨0, fun _ _ => 0⟩

theorem hasData_newTable : HasData [] newTable [] :=
  hasData_new (fun _ => rfl) ⟨by decide, by decide, by decide⟩
    (show u32 ((initHdr twoBuckets 4096 12).bucketToPage (initHdr twoBuckets 4096 12).highMask + 1) = 5 by
      decide +kernel) (by decide) (by decide)

theorem hasValues_newTable : HasValues [] newTable [] :=
  ⟨[], hasData_newTable, fun _ mem => absurd mem List.not_mem_nil⟩

theorem value_round_trip_three : ∃ datap t u,
    (storeValue 3 0 (.ofBytes [7, 8, 9]) (Checksum.crc32Checksum 0 (Dbt.bytes (.ofBytes [7, 8, 9])))).Returns
      newTable (0, datap) t ∧
    (getData 3 0 0 datap).Returns t (0, Dbt.bytes (.ofBytes [7, 8, 9])) u := by
  obtain ⟨datap, t, stores, run⟩ := (value_round_trip hasValues_newTable .refl).2 (.ofBytes [7, 8, 9]) 3 0
    (.inl (by decide)) (by decide) (by unfold Numbered; decide +kernel)
  obtain ⟨u, reads⟩ := (value_round_trip hasValues_newTable run).1 _ List.mem_cons_self 0 (.inl rfl)
  exact ⟨datap, t, u, stores, reads⟩

end FileHash.Htab
