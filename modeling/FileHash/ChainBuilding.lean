import FileHash.BucketLayout
import FileHash.LevelStarts
import FileHash.UnwrittenPages

/-! Chains of bucket pages, as insertions build them: a pair goes on the last page when it fits there,
and on a page behind it when it does not. A page of a chain holds no data and is not given out. -/
namespace FileHash

open Page

section Chains

variable {view view' : Nat → Page} {p n : Nat} {l : List Nat}

theorem Follow.congr (h : Follow view p l) (same : ∀ q ∈ p :: l, (view' q).nextPgno = (view q).nextPgno) :
    Follow view' p l := by
  induction h with
  | last none => exact .last ((same _ List.mem_cons_self).trans none)
  | next link some rest ih =>
    exact .next ((same _ List.mem_cons_self).trans link) some (ih fun q mem => same q (List.mem_cons_of_mem _ mem))

theorem Follow.end_of (h : Follow view p l) : (view (l.getLastD p)).nextPgno = invalidPgno := by
  induction h with
  | last none => exact none
  | next _ _ _ ih =>
    rw [List.getLastD_cons]
    exact ih

theorem Follow.snoc (h : Follow view p l) (new : n ≠ invalidPgno)
    (others : ∀ q ∈ p :: l, q ≠ l.getLastD p → (view' q).nextPgno = (view q).nextPgno)
    (link : (view' (l.getLastD p)).nextPgno = n) (none : (view' n).nextPgno = invalidPgno) :
    Follow view' p (l ++ [n]) := by
  induction h with
  | last => exact .next link new (.last none)
  | @next p q l behind made rest ih =>
    rw [List.getLastD_cons] at link others
    have ne : p ≠ l.getLastD q := by
      have out := (List.nodup_cons.mp (Follow.next behind made rest).nodup).1
      exact fun same => out (same ▸ List.getLastD_mem_cons)
    refine .next ((others p List.mem_cons_self ne).trans behind) made (ih (fun r mem => ?_) link)
    exact others r (List.mem_cons_of_mem _ mem)

end Chains

namespace Htab

open Lib (Prog)
open Lib.Prog (Wp wp_bind wp_pure wp_mono)

variable {h₀ h₁ hashp : Htab} {s s' p q id n : Nat} {acc acc' : Account} {hand : List Taken} {maps maps' : FreeMap}
  {c c' : Page} {adm : Event → Prop} {ds : List Datum} {key val : Dbt} {pairs : List KeyDatap} {bsize : Nat}

section Numbers

/-- Page `p` is in use, and not for data. -/
structure Reserved (h₀ : Htab) (s : Nat) (maps : FreeMap) (ds : List Datum) (p : Nat) : Prop where
  pos : 0 < p
  low : p < s
  cur : p ≠ h₀.currDpage
  free : p ∉ maps.pages
  data : ∀ d ∈ ds, p ∉ d.all

theorem Reserved.untouched (r : Reserved h₀ s maps ds p) : ¬Touches maps s h₀.currDpage p := by
  rintro (cur | free | high)
  · exact r.cur cur
  · exact r.free free
  · exact absurd r.low (not_lt.mpr high)

theorem Reserved.onward (r : Reserved h₀ s maps ds p)
    (onward : Onward h₀ s acc maps h₀.currDpage h₁ s' acc' maps') : Reserved h₁ s' maps' ds p where
  pos := r.pos
  low := r.low.trans_le onward.grows
  cur same := r.untouched (same ▸ onward.cur)
  free listed := r.free (onward.sub p listed)
  data := r.data

theorem Reserved.cons {d : Datum} (r : Reserved h₁ s' maps' ds p) (out : p ∉ d.all) :
    Reserved h₁ s' maps' (d :: ds) p :=
  { r with data := List.forall_mem_cons.mpr ⟨out, r.data⟩ }

theorem opens_unwritten (h : Agree c (FileHash.initPage bsize (fun _ => 0) p hashDeletedPage))
    (word : p < 0x100000000) : Opens bsize ds p c := by
  refine Opens.agree ⟨signed_initPage, currPgno_initPage word, .inl ?_⟩ h
  simp only [FileHash.initPage, setCurrPgno, setNextPgno, setPrevPgno, setPageSign, setNumEnt, setType, setChksum,
    Page.offset]
  rw [if_neg (by decide), if_neg (by decide), if_neg (by decide), if_neg (by decide), if_neg (by decide)]
  simp (disch := omega) only [Lib.Mem.read32_write32, Lib.Mem.read32_write16]
  rfl

theorem Opens.agree_or (told : Opens bsize ds p c ∨ Unmade c) (same : Agree c' c) : Opens bsize ds p c' ∨ Unmade c' :=
  told.imp (fun opens => opens.agree same) fun ⟨d, clear, same'⟩ => ⟨d, clear, same.trans same'⟩

theorem Reserved.set (r : Reserved h₀ s maps ds p) (laid : DataLaid h₀ s acc maps ds) (c : Page) :
    DataLaid h₀ s (acc.set p c) maps ds :=
  laid.elsewhere (fun _ _ ne => (Account.set_other ne).mp) r.cur r.free r.data

/-- Of page `p` more is known: it is open, or was never made. -/
def Account.open (acc : Account) (bsize : Nat) (ds : List Datum) (p : Nat) : Account where
  holds q c := acc.holds q c ∧ (q = p → Opens bsize ds p c ∨ Unmade c)
  agree holds same := ⟨acc.agree holds.1 same, fun here => Opens.agree_or (holds.2 here) same⟩

theorem Knows.open (h : Knows h₀ s acc hand hashp) (out : p ∉ numbers hand)
    (shown : ∀ c, hashp.mp.Shows p c → Opens bsize ds p c ∨ Unmade c) : Knows h₀ s (acc.open bsize ds p) hand hashp :=
  { h with
    holds := fun q c outq shows => ⟨h.holds q c outq shows, fun here => shown c (here ▸ shows)⟩
    behind := fun g memg c clean stored =>
      ⟨h.behind g memg c clean stored, fun here => absurd (here ▸ List.mem_map_of_mem memg) out⟩ }

theorem wp_started (h : Knows h₀ s acc hand hashp) (laid : DataLaid h₀ s acc maps ds)
    (unwritten : Pagepool.Unwritten h₀.hdr.bsize hashp.mp) (few : s + 1 < maxPageNumber) {Q : Unit → Htab → Prop}
    (next : ∀ h₁ s' acc' hashp', Onward h₀ s acc maps h₀.currDpage h₁ s' acc' maps → s' ≤ s + 1 →
      Filed h₁ s' acc' maps ds → Current h₁ s' acc' maps ds → Knows h₁ s' acc' hand hashp' → Q () hashp') :
    Wp adm (startLevel (h₀.hdr.ovflPoint + 1)) hashp Q := by
  rcases laid.current with unstarted | current
  · have word : s < 0x100000000 := by
      simp only [maxPageNumber] at few
      omega
    have free : ¬hashp.mp.Cached s := by
      rintro ⟨j, mem, number⟩
      exact (h.below.cache j mem).ne number
    have shown : ∀ c, hashp.mp.Shows s c → Opens h₀.hdr.bsize ds s c ∨ Unmade c := fun c shows =>
      (unwritten.shows h.below.file laid.pos free shows).imp (opens_unwritten · word) fun clear => ⟨c, clear, .refl c⟩
    have known := h.open (fun held => lt_irrefl s (h.hand_lt held)) shown
    have laid' : DataLaid h₀ s (acc.open h₀.hdr.bsize ds s) maps ds := laid.mono fun _ _ => And.left
    have out : ∀ d ∈ ds, s ∉ d.all := fun d mem on => lt_irrefl s (laid.used d mem s on).1.2
    refine wp_startLevel known unstarted few fun hashp' known' => ?_
    refine next (setSpares (h₀.hdr.ovflPoint + 1) (s + 1) { h₀ with currDpage := s }) (s + 1) _ hashp' ?_ le_rfl ?_ ?_
      (known'.raise (Nat.le_succ s) few)
    · refine ⟨rfl, Nat.le_succ s, fun _ => id, fun q c far => ⟨And.left, fun holds => ⟨holds, ?_⟩⟩, .inr (.inr le_rfl)⟩
      exact fun here => absurd (.inr (.inr here.ge)) far
    · exact {
        page := laid'.page
        pos := Nat.succ_pos s
        stock := ⟨laid'.stock.head, laid'.stock.onPages, laid'.stock.nodup, fun q mem =>
          ⟨(laid'.stock.bound q mem).1, (laid'.stock.bound q mem).2.trans (Nat.lt_succ_self s)⟩⟩
        placed := laid'.placed
        on := laid'.on
        used := fun d mem q on => (laid'.used d mem q on).imp_left fun both =>
          ⟨both.1, both.2.trans (Nat.lt_succ_self s)⟩
        apart := laid'.apart }
    · exact {
        started := ⟨Function.update_self .., Nat.lt_succ_self s, le_rfl, few⟩
        some := laid.pos
        free := fun listed => lt_irrefl s (laid.stock.bound s listed).2
        unlinked := fun d mem link => out d mem (Datum.links_page link)
        opens := fun c holds => (holds.2 rfl).imp_right fun unmade => ⟨unmade, out⟩ }
  · exact wp_startLevel_started h current.started
      (next h₀ s acc hashp (.refl rfl) (Nat.le_succ s) laid.toFiled current h)

theorem Current.given {reuse : Bool} (current : Current h₀ s acc maps ds)
    (given : Given h₀ s s acc maps n reuse h₁ acc' maps' s') (same : h₁.currDpage = h₀.currDpage) :
    Current h₁ s' acc' maps' ds where
  started := ⟨given.started.spares, given.started.cur, le_rfl, given.started.few⟩
  some := same ▸ current.some
  free := same ▸ fun listed => current.free (given.sub _ listed)
  unlinked := same ▸ current.unlinked
  opens c holds := by
    rw [same] at holds ⊢
    rw [given.renumbered.facts.1]
    exact current.opens c ((given.same _ c current.free).mp holds)

theorem Given.reserved {reuse : Bool} (given : Given h₀ s s acc maps n reuse h₁ acc' maps' s')
    (filed : Filed h₀ s acc maps ds) (current : Current h₀ s acc maps ds) (same : h₁.currDpage = h₀.currDpage) :
    Reserved h₁ s' maps' ds n where
  pos := (given.low filed.stock current.started).1
  low := (given.low filed.stock current.started).2
  cur := by
    rintro rfl
    cases reuse with
    | true => exact current.free (same ▸ (given.reused rfl).1)
    | false => exact absurd (same ▸ (given.fresh rfl).1) current.started.cur.ne
  free := given.out
  data d mem := filed.unused given mem

theorem wp_chainPage (h : Knows h₀ s acc (⟨id, p, c⟩ :: hand) hashp) (laid : DataLaid h₀ s acc maps ds)
    (unwritten : Pagepool.Unwritten h₀.hdr.bsize hashp.mp) (few : s + 2 < maxPageNumber)
    (apart : ∀ q ∈ maps.pages, q ∉ numbers (⟨id, p, c⟩ :: hand)) {Q : Option Nat × Nat → Htab → Prop}
    (next : ∀ oid n raw h₁ s' acc' maps' hashp', Onward h₀ s acc maps h₀.currDpage h₁ s' acc' maps' → s' ≤ s + 2 →
      DataLaid h₁ s' acc' maps' ds → Reserved h₁ s' maps' ds n → Touches maps s h₀.currDpage n →
      Knows h₁ s' acc' (⟨oid, n, (FileHash.initPage h₁.hdr.bsize raw n hashOvflPage).setPrevPgno q⟩ ::
        ⟨id, p, c.setNextPgno n⟩ :: hand) hashp' → Q (some oid, n) hashp') :
    Wp adm (chainPage q id) hashp Q := by
  refine wp_bind (wp_bind (Prog.wp_read ?_))
  dsimp only
  rw [h.hdr]
  refine wp_bind (wp_started h laid unwritten (by omega) fun h₁ s₁ acc₁ mid onward least filed current known => ?_)
  have level : h₁.hdr.ovflPoint = h₀.hdr.ovflPoint := by
    rw [onward.renumbered]
  rw [← level]
  refine wp_nextPage known filed.stock current.started (by omega) apart
    fun n reuse h₂ acc₂ maps₂ s₂ mid given cur known => ?_
  have limit : max s₁ (n + 1) = s₂ ∧ s₂ ≤ s₁ + 1 := by
    cases reuse with
    | true =>
      obtain ⟨mem, rfl⟩ := given.reused rfl
      exact ⟨max_eq_left (filed.stock.bound n mem).2, Nat.le_succ _⟩
    | false =>
      obtain ⟨rfl, rfl⟩ := given.fresh rfl
      exact ⟨max_eq_right (Nat.le_succ _), le_rfl⟩
  refine wp_bind (wp_getGiven known (fun _ => (given.low filed.stock current.started).1)
      (fun yes => ⟨(filed.stock.bound n (given.reused yes).1).2, apart n (given.reused yes).1⟩)
    (fun no => ?_) (by decide) fun oid mem mid known blank => ?_)
  · obtain ⟨rfl, _⟩ := given.fresh no
    exact ⟨le_rfl, by omega⟩
  rw [limit.1] at known
  refine wp_initGiven known blank fun raw mid known => ?_
  refine wp_bind (wp_store known.swap _ fun mid known => wp_bind (wp_store known.swap _ fun hashp' known => wp_pure ?_))
  have behind : Onward h₁ s₁ acc₁ maps h₁.currDpage h₂ s₂ acc₂ maps₂ := by
    refine ⟨given.renumbered, given.started.le, given.sub, fun q d out => ?_, .inl cur⟩
    exact given.same q d fun listed => out (.inr (.inl listed))
  refine next oid n raw h₂ s₂ acc₂ maps₂ hashp' (onward.trans behind onward.cur) (by omega)
    ⟨filed.given given, .inr (current.given given cur)⟩ (given.reserved filed current cur) ?_ known
  exact given.touches.trans onward.sub onward.grows onward.cur

end Numbers

section Sheets

/-- Page `p` of a chain, with the bytes it has. -/
structure Sheet (bsize : Nat) (acc : Account) (p : Nat) (c : Page) : Prop where
  told : ∀ d, acc.holds p d → Agree d c
  number : c.currPgno = p
  stacked : ∃ pairs, Stacked bsize pairs c

/-- The chain from page `p` on, on a table of which the data are `ds`. -/
structure Strung (h₀ : Htab) (s : Nat) (acc : Account) (maps : FreeMap) (ds : List Datum) (p : Nat) (l : List Nat)
    (view : Nat → Page) (hashp : Htab) : Prop extends Accounted h₀ s acc maps [] hashp ds where
  follow : Follow view p l
  reserved : ∀ q ∈ p :: l, Reserved h₀ s maps ds q
  sheet : ∀ q ∈ p :: l, Sheet h₀.hdr.bsize acc q (view q)

variable {l : List Nat} {view : Nat → Page}

theorem Stacked.congr (h : Stacked bsize pairs c) (same : ∀ i, 12 ≤ i → c' i = c i) : Stacked bsize pairs c' := by
  have offset : c'.offset = c.offset := Lib.Mem.read32_congr fun i low _ => same i (by omega)
  have sign : c'.pageSign = c.pageSign := Lib.Mem.read32_congr fun i low _ => same i low
  have count : c'.numEnt = c.numEnt := Lib.Mem.read16_congr fun i low _ => same i (by omega)
  have word : ∀ n, c'.datapOff n = c.datapOff n := fun n => Lib.Mem.read32_congr fun i low _ => same i (by
    simp only [pageOverhead] at low
    omega)
  refine ⟨h.toKeyed.congr (sign.trans h.signed) count offset fun i low => same i ?_, ?_, fun n low => ?_⟩
  · simp only [pageOverhead] at low
    omega
  · rw [offset, h.tight]
    cases pairs.length with
    | zero => rfl
    | succ n => exact (word n).symm
  · rw [word]
    exact h.aligned n low

theorem Stacked.link (h : Stacked bsize pairs c) {a : Nat} (head : a ≤ 8) (v : Nat) :
    Stacked bsize pairs (c.write32 a v) :=
  h.congr fun i low => Lib.Mem.write32_outside (.inr (by omega))

theorem freespace_agree (same : Agree c' c) : freespace c' = freespace c := by
  have offset : c'.offset = c.offset := same.read32 (.inr (by decide))
  unfold freespace
  rw [offset, same.numEnt]

theorem pairfits_agree (same : Agree c' c) (ksize : Nat) : pairfits c' ksize = pairfits c ksize := by
  unfold pairfits
  rw [freespace_agree same]

structure Filling (c c' : Page) : Prop where
  number : c'.currPgno = c.currPgno
  link : c'.nextPgno = c.nextPgno
  count : c'.numEnt = c.numEnt + 1

theorem Stacked.filling (h : Stacked bsize pairs c) (page : PageSize bsize) (placeable : Placeable bsize c key.size)
    {datap : Datap} (words : datap.Words) :
    Filling c (putDatap c.numEnt (slotOff c key) datap (putKey key c)) := by
  have roomy := h.roomy page placeable
  have head : ∀ i < 16, putDatap c.numEnt (slotOff c key) datap (putKey key c) i = c i := fun i =>
    h.toKeyed.put_head page.most roomy
  refine ⟨Lib.Mem.read32_congr fun i _ high => head i (by omega), Lib.Mem.read32_congr fun i _ high =>
    head i (by omega), ?_⟩
  rw [(h.toKeyed.put page.most roomy words).count, h.count, List.length_append, List.length_singleton]

theorem blank_chainPage {raw : Page} (page : PageSize bsize) (word : n < 0x100000000) {blank : Page}
    (made : blank = (FileHash.initPage bsize raw n hashOvflPage).setPrevPgno q) :
    Stacked bsize [] blank ∧ blank.currPgno = n ∧ blank.nextPgno = invalidPgno := by
  subst made
  refine ⟨(stacked_initPage page (.inr rfl)).link (a := 4) (by omega) _, ?_, ?_⟩
  · exact (Lib.Mem.read32_write32 (by omega)).trans (currPgno_initPage word)
  · exact (Lib.Mem.read32_write32 (by omega)).trans nextPgno_initPage

theorem aside_none : Aside h₀ maps ds [] :=
  ⟨List.not_mem_nil, fun _ _ => List.not_mem_nil, fun _ _ _ _ => List.not_mem_nil⟩

theorem aside_reserved (reserved : ∀ g ∈ hand, Reserved h₀ s maps ds g.pgno) : Aside h₀ maps ds hand := by
  have each : ∀ q ∈ numbers hand, Reserved h₀ s maps ds q := fun q held => by
    obtain ⟨g, mem, rfl⟩ := List.mem_map.mp held
    exact reserved g mem
  exact ⟨fun held => (each _ held).cur rfl, fun q listed held => (each q held).free listed,
    fun d mem q on held => (each q held).data d mem on⟩

end Sheets

section Insertions

variable {l l' : List Nat} {view view' : Nat → Page}

/-- A pair is put in a bucket as `_ffdb_hash_put` does it: on the last page if it fits there, and else on a
page behind it. -/
def insertLast (last : Nat) (key val : Dbt) : Run Int := do
  match ← getPage last hashOvflPage {} with
  | (none, _) => pure (-1)
  | (some pagep, pgno) =>
    let p ← page pagep
    let item : Hent := ⟨pagep, pgno, p.numEnt, .noMore, Checksum.crc32Checksum 0 val.bytes⟩
    if pairfits p key.size then addPair key val item false
    else addOvflpage key val item

structure Lengthens (ksize p : Nat) (l : List Nat) (view : Nat → Page) (l' : List Nat) (view' : Nat → Page) : Prop where
  others : ∀ q ∈ p :: l, q ≠ l.getLastD p → view' q = view q
  fits : pairfits (view (l.getLastD p)) ksize = true → l' = l ∧
    (view' (l.getLastD p)).numEnt = (view (l.getLastD p)).numEnt + 1
  more : pairfits (view (l.getLastD p)) ksize = false → (∃ n, l' = l ++ [n]) ∧
    (view' (l.getLastD p)).numEnt = (view (l.getLastD p)).numEnt

theorem Sheet.onward (sheet : Sheet bsize acc q c) (reserved : Reserved h₀ s maps ds q)
    (onward : Onward h₀ s acc maps h₀.currDpage h₁ s' acc' maps') : Sheet bsize acc' q c :=
  { sheet with told := fun d holds => sheet.told d ((onward.same q d reserved.untouched).mp holds) }

theorem Sheet.set_other (sheet : Sheet bsize acc q c) (ne : q ≠ p) : Sheet bsize (acc.set p c') q c :=
  { sheet with told := fun d holds => sheet.told d ((Account.set_other ne).mp holds) }

theorem Sheet.set_same (number : c.currPgno = p) (stacked : Stacked bsize pairs c) : Sheet bsize (acc.set p c) p c :=
  ⟨fun _ holds => Account.set_same.mp holds, number, pairs, stacked⟩

theorem Onward.format (onward : Onward h₀ s acc maps n h₁ s' acc' maps')
    (format : Format h₀.hdr.version h₀.dataValidFlag) :
    Format h₁.hdr.version h₁.dataValidFlag := by
  obtain ⟨_, version, flag⟩ := onward.renumbered.facts
  rw [version, flag]
  exact format

theorem Strung.wp_addPair (h : Strung h₀ s acc maps ds p l view hashp) {last : Nat} (mine : l.getLastD p = last)
    {mid : Htab} (known : Knows h₀ s acc [⟨id, last, c⟩] mid)
    (same : Agree c (view last)) (fits : pairfits c key.size = true) (storable : Storable h₀.hdr.version val.size)
    (few : s + val.size / (h₀.hdr.bsize - bigPageOverhead) + 4 < maxPageNumber) :
    Wp (fun _ => True) (addPair key val ⟨id, last, n, .noMore, Checksum.crc32Checksum 0 val.bytes⟩ false) mid
      fun r hashp' => r = 0 ∧ ∃ h₁ s' acc' maps' ds' l' view', Strung h₁ s' acc' maps' ds' p l' view' hashp' ∧
        Lengthens key.size p l view l' view' ∧ h₁.hdr.bsize = h₀.hdr.bsize ∧ h₁.hdr.version = h₀.hdr.version := by
  subst mine
  have mine : l.getLastD p ∈ p :: l := List.getLastD_mem_cons
  obtain ⟨pairs, stacked⟩ := (h.sheet _ mine).stacked
  have stacked := stacked.agree same
  have placeable : Placeable h₀.hdr.bsize c key.size := .inl fits
  have aside : Aside h₀ maps ds [⟨id, l.getLastD p, c⟩] :=
    aside_reserved (List.forall_mem_singleton.mpr (h.reserved _ mine))
  refine wp_bind (wp_addItemOnPage known h.laid h.format storable aside few
    fun h₁ s' acc' maps' d mid onward _ laid _ pages words _ known' => ?_)
  have filling := stacked.filling h.laid.page placeable words
  have filled := stacked.put h.laid.page placeable words
  generalize putDatap c.numEnt (slotOff c key) (d.pointer h₀.hdr.version) (putKey key c) = c' at *
  have reserved : ∀ q ∈ p :: l, Reserved h₁ s' maps' (d :: ds) q := fun q mem =>
    ((h.reserved q mem).onward onward).cons fun on => (h.reserved q mem).untouched (pages q on)
  refine wp_bind (wp_putDirty known' filled.signed fun hashp' known'' => wp_pure ⟨rfl, ?_⟩)
  obtain ⟨size, version, _⟩ := onward.renumbered.facts
  have has : Accounted h₁ s' (acc'.set (l.getLastD p) c') maps' [] hashp' (d :: ds) :=
    ⟨known'', onward.format h.format, (reserved _ mine).set laid c', aside_none⟩
  refine ⟨h₁, s', _, maps', d :: ds, l, Function.update view (l.getLastD p) c', ⟨has, ?_, reserved, ?_⟩,
    ⟨fun q _ ne => Function.update_of_ne ne .., fun _ => ⟨rfl, ?_⟩, fun wide => ?_⟩, size, version⟩
  · refine h.follow.congr fun q _ => ?_
    by_cases last : q = l.getLastD p
    · rw [last, Function.update_self, filling.link, same.nextPgno]
    · rw [Function.update_of_ne last]
  · intro q mem
    by_cases last : q = l.getLastD p
    · rw [last, Function.update_self, size]
      exact Sheet.set_same (filling.number.trans (same.currPgno.trans (h.sheet _ mine).number)) filled
    · rw [Function.update_of_ne last, size]
      exact ((h.sheet q mem).onward (h.reserved q mem) onward).set_other last
  · rw [Function.update_self, filling.count, same.numEnt]
  · rw [← pairfits_agree same, fits] at wide
    cases wide

theorem Strung.wp_addOvflpage (h : Strung h₀ s acc maps ds p l view hashp) {last : Nat} (mine : l.getLastD p = last)
    {mid : Htab} (known : Knows h₀ s acc [⟨id, last, c⟩] mid) (unwritten : Pagepool.Unwritten h₀.hdr.bsize mid.mp)
    (same : Agree c (view last)) (wide : pairfits c key.size = false) (small : key.size ≤ maxKeysize h₀.hdr.bsize)
    (storable : Storable h₀.hdr.version val.size)
    (few : s + val.size / (h₀.hdr.bsize - bigPageOverhead) + 6 < maxPageNumber) :
    Wp (fun _ => True) (addOvflpage key val ⟨id, last, n, .noMore, Checksum.crc32Checksum 0 val.bytes⟩) mid
      fun r hashp' => r = 0 ∧ ∃ h₁ s' acc' maps' ds' l' view', Strung h₁ s' acc' maps' ds' p l' view' hashp' ∧
        Lengthens key.size p l view l' view' ∧ h₁.hdr.bsize = h₀.hdr.bsize ∧ h₁.hdr.version = h₀.hdr.version := by
  subst mine
  have mine : l.getLastD p ∈ p :: l := List.getLastD_mem_cons
  obtain ⟨pairs, stacked⟩ := (h.sheet _ mine).stacked
  have aside : Aside h₀ maps ds [⟨id, l.getLastD p, c⟩] :=
    aside_reserved (List.forall_mem_singleton.mpr (h.reserved _ mine))
  have turns := Nat.zero_le (val.size / (h₀.hdr.bsize - bigPageOverhead))
  refine wp_bind (wp_chainPage known h.laid unwritten (by omega) aside.free
    fun oid n raw h₁ s₁ acc₁ maps₁ mid onward least laid new place known => ?_)
  obtain ⟨size, version, _⟩ := onward.renumbered.facts
  have reserved : ∀ q ∈ p :: l, Reserved h₁ s₁ maps₁ ds q := fun q mem => (h.reserved q mem).onward onward
  have out : ∀ q ∈ p :: l, q ≠ n := fun q mem here => (h.reserved q mem).untouched (here ▸ place)
  have page : PageSize h₁.hdr.bsize := laid.page
  have bound := known.few
  have low := new.low
  have word : n < 0x100000000 := by
    simp only [maxPageNumber] at bound
    omega
  have linked : Stacked h₀.hdr.bsize pairs (c.setNextPgno n) := (stacked.agree same).link (a := 8) le_rfl _
  generalize made : (FileHash.initPage h₁.hdr.bsize raw n hashOvflPage).setPrevPgno (l.getLastD p) = blank at known
  obtain ⟨empty, number, none⟩ := blank_chainPage page word made.symm
  have placeable : Placeable h₁.hdr.bsize blank key.size := .inr ⟨empty.count, size ▸ small⟩
  have aside' : Aside h₁ maps₁ ds [⟨oid, n, blank⟩, ⟨id, l.getLastD p, c.setNextPgno n⟩] :=
    aside_reserved (List.forall_mem_cons.mpr ⟨new, List.forall_mem_singleton.mpr (reserved _ mine)⟩)
  refine wp_bind (wp_addItemOnPage known laid (onward.format h.format) (version ▸ storable) aside' (by rw [size]; omega)
    fun h₂ s₂ acc₂ maps₂ d mid onward' _ laid' _ pages words _ known' => ?_)
  have filling := empty.filling page placeable words
  have filled := empty.put page placeable words
  generalize putDatap blank.numEnt (slotOff blank key) (d.pointer h₁.hdr.version) (putKey key blank) = c' at *
  refine wp_bind (wp_putDirty known' filled.signed fun mid known' => ?_)
  refine wp_bind (wp_putDirty known' linked.signed fun hashp' known'' => wp_pure ⟨rfl, ?_⟩)
  obtain ⟨size', version', _⟩ := onward'.renumbered.facts
  have kept : ∀ q ∈ n :: p :: l, Reserved h₂ s₂ maps₂ (d :: ds) q := fun q mem => by
    have before := List.forall_mem_cons.mpr ⟨new, reserved⟩ q mem
    exact (before.onward onward').cons fun on => before.untouched (pages q on)
  have ne : l.getLastD p ≠ n := out _ mine
  have has : Accounted h₂ s₂ ((acc₂.set n c').set (l.getLastD p) (c.setNextPgno n)) maps₂ [] hashp' (d :: ds) :=
    ⟨known'', onward'.format (onward.format h.format), (kept _ (List.mem_cons_of_mem n mine)).set
      ((kept n List.mem_cons_self).set laid' c') _, aside_none⟩
  refine ⟨h₂, s₂, _, maps₂, d :: ds, l ++ [n], Function.update (Function.update view (l.getLastD p)
    (c.setNextPgno n)) n c',
    ⟨has, ?_, fun q mem => kept q ?_, ?_⟩, ⟨fun q mem other => ?_, fun fits => ?_, fun _ => ⟨⟨n, rfl⟩, ?_⟩⟩,
    size'.trans size, version'.trans version⟩
  · refine h.follow.snoc ?_ (fun q mem other => ?_) ?_ ?_
    · have := known'.few
      have := (kept n List.mem_cons_self).low
      simp only [maxPageNumber, invalidPgno] at *
      omega
    · rw [Function.update_of_ne (out q mem), Function.update_of_ne other]
    · rw [Function.update_of_ne ne, Function.update_self]
      exact Lib.Mem.read32_write32_same.trans (Nat.mod_eq_of_lt word)
    · rw [Function.update_self, filling.link, none]
  · rw [← List.cons_append] at mem
    rcases List.mem_append.mp mem with old | here
    · exact List.mem_cons_of_mem _ old
    · rw [List.mem_singleton.mp here]
      exact List.mem_cons_self
  · intro q mem
    rw [size']
    by_cases fresh : q = n
    · rw [fresh, Function.update_self]
      exact (Sheet.set_same (filling.number.trans number) filled).set_other ne.symm
    have old : q ∈ p :: l := by
      rw [← List.cons_append] at mem
      exact (List.mem_append.mp mem).resolve_right fun here => fresh (List.mem_singleton.mp here)
    rw [Function.update_of_ne fresh, size]
    by_cases last : q = l.getLastD p
    · rw [last, Function.update_self]
      refine Sheet.set_same ?_ linked
      exact (Lib.Mem.read32_write32 (by omega)).trans (same.currPgno.trans (h.sheet _ mine).number)
    · rw [Function.update_of_ne last]
      have before := (h.sheet q old).onward (h.reserved q old) onward
      exact ((before.onward (reserved q old) onward').set_other fresh).set_other last
  · rw [Function.update_of_ne (out q mem), Function.update_of_ne other]
  · rw [← pairfits_agree same, wide] at fits
    cases fits
  · rw [Function.update_of_ne ne, Function.update_self, ← same.numEnt]
    exact Lib.Mem.read16_write32 (by omega)

theorem stays_insertLast {P : Htab → Prop} (last : Nat) (key val : Dbt)
    (gets : Prog.Stays adm P (getPage last hashOvflPage {}))
    (pair : ∀ item, Prog.Stays adm P (addPair key val item false))
    (ovfl : ∀ item, Prog.Stays adm P (addOvflpage key val item)) : Prog.Stays adm P (insertLast last key val) := by
  refine Prog.stays_bind gets fun r => ?_
  obtain ⟨_ | id, pgno⟩ := r
  · exact Prog.stays_pure _
  · exact Prog.stays_bind (Prog.stays_reads _) fun _ => Prog.stays_ite (pair _) (ovfl _)

theorem Strung.wp_insertLast (h : Strung h₀ s acc maps ds p l view hashp)
    (unwritten : Pagepool.Unwritten h₀.hdr.bsize hashp.mp) (small : key.size ≤ maxKeysize h₀.hdr.bsize)
    (storable : Storable h₀.hdr.version val.size)
    (few : s + val.size / (h₀.hdr.bsize - bigPageOverhead) + 6 < maxPageNumber) :
    Wp (fun _ => True) (insertLast (l.getLastD p) key val) hashp fun r hashp' => r = 0 ∧
      ∃ h₁ s' acc' maps' ds' l' view', Strung h₁ s' acc' maps' ds' p l' view' hashp' ∧
        Lengthens key.size p l view l' view' ∧ h₁.hdr.bsize = h₀.hdr.bsize ∧ h₁.hdr.version = h₀.hdr.version := by
  have mine : l.getLastD p ∈ p :: l := List.getLastD_mem_cons
  have gets : Wp (fun _ => True) (getPage (l.getLastD p) hashOvflPage {}) hashp fun r mid =>
      ∃ id mem, r = (some id, l.getLastD p) ∧ acc.holds (l.getLastD p) mem ∧
        Knows h₀ s acc [⟨id, l.getLastD p, mem⟩] mid :=
    wp_get h.known List.not_mem_nil (fun _ => (h.reserved _ mine).pos) (h.reserved _ mine).low (by decide)
      fun id mem mid known told =>
      ⟨id, mem, rfl, told, known⟩
  refine wp_bind (wp_mono (Prog.wp_triple gets ((tame_unwritten _ _).getPage _ _ rfl) unwritten) ?_)
  rintro _ mid ⟨⟨id, mem, rfl, told, known⟩, unwritten'⟩
  have same := (h.sheet _ mine).told mem told
  refine wp_bind (wp_page known List.mem_cons_self ?_)
  dsimp only
  by_cases fits : pairfits mem key.size = true
  · rw [if_pos fits]
    exact h.wp_addPair rfl known same fits storable (by omega)
  · rw [if_neg fits]
    exact h.wp_addOvflpage rfl known unwritten' same (Bool.eq_false_iff.mpr fits) small storable few

end Insertions
end Htab
end FileHash
