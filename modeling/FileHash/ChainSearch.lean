import FileHash.ChainBuilding

/-! The search of a bucket's chain, on chains that insertions have built. It is exact when the first page has
a pair. When the first key was too long for the room a test leaves it, that page is empty with a chain behind
it, and a search resets it. -/
namespace FileHash.Htab

open Lib (Prog)
open Lib.Prog (Wp wp_bind wp_pure wp_mono)
open Page

variable {h₀ h₁ hashp : Htab} {s p q id b : Nat} {acc : Account} {maps : FreeMap} {c c' : Page} {adm : Event → Prop}
  {ds : List Datum} {key : Dbt} {pairs : List KeyDatap} {bsize chksum : Nat} {view view' : Nat → Page} {l l' : List Nat}
  {compare : Dbt → Dbt → Int} {i : Nat}

structure Locates (compare : Dbt → Dbt → Int) (view : Nat → Page) (pages : List Nat) (key : Dbt) (item : Hent) :
    Prop where
  found : item.status = .ok ↔ ∃ q ∈ pages, ∃ i < (view q).numEnt, compare key ((view q).key i) = 0
  slot : item.status = .ok → item.pgno ∈ pages ∧ item.pgndx < (view item.pgno).numEnt ∧
    compare key ((view item.pgno).key item.pgndx) = 0
  last : item.status ≠ .ok → item.status = .noMore ∧ pages.getLast? = some item.pgno

section Along

theorem findKey_some (found : findKey compare key c = some i) : i < c.numEnt ∧ compare key (c.key i) = 0 :=
  ⟨List.mem_range.mp (List.mem_of_find?_eq_some found), by simpa using List.find?_some found⟩

theorem findKey_none (none : findKey compare key c = none) : ∀ i < c.numEnt, compare key (c.key i) ≠ 0 := by
  intro i low
  simpa using List.find?_eq_none.mp none i (List.mem_range.mpr low)

theorem Locates.here {item : Hent} (found : findKey compare key (view q) = some i) (status : item.status = .ok)
    (page : item.pgno = q) (slot : item.pgndx = i) : Locates compare view (q :: l) key item := by
  obtain ⟨low, equal⟩ := findKey_some found
  subst page slot
  exact ⟨⟨fun _ => ⟨_, List.mem_cons_self, _, low, equal⟩, fun _ => status⟩,
    fun _ => ⟨List.mem_cons_self, low, equal⟩, fun other => absurd status other⟩

theorem Locates.past {item : Hent} (none : findKey compare key (view q) = none) (status : item.status = .noMore)
    (page : item.pgno = q) : Locates compare view [q] key item := by
  have other : ¬item.status = .ok := by rw [status]; decide
  refine ⟨⟨fun ok => absurd ok other, ?_⟩, fun ok => absurd ok other, fun _ => ⟨status, by rw [page]; rfl⟩⟩
  rintro ⟨r, mem, j, low, equal⟩
  rw [List.mem_singleton.mp mem] at low equal
  exact absurd equal (findKey_none none j low)

theorem Locates.behind {item : Hent} {r : Nat} (none : findKey compare key (view q) = none)
    (rest : Locates compare view (r :: l) key item) : Locates compare view (q :: r :: l) key item := by
  refine ⟨rest.found.trans ⟨?_, ?_⟩, fun ok => ?_, fun other => ?_⟩
  · rintro ⟨u, mem, slot⟩
    exact ⟨u, List.mem_cons_of_mem _ mem, slot⟩
  · rintro ⟨u, mem, j, low, equal⟩
    rcases List.mem_cons.mp mem with rfl | later
    · exact absurd equal (findKey_none none j low)
    · exact ⟨u, later, j, low, equal⟩
  · obtain ⟨mem, slot⟩ := rest.slot ok
    exact ⟨List.mem_cons_of_mem _ mem, slot⟩
  · obtain ⟨status, last⟩ := rest.last other
    exact ⟨status, (List.getLast?_cons_cons ..).trans last⟩

theorem Keyed.key_agree (h : Keyed bsize pairs c) (same : Agree c' c) (low : i < c.numEnt) : c'.key i = c.key i := by
  have place := h.count ▸ low
  have gap := (h.on_lt place).gap
  have behind := h.behind place
  have room := h.room
  simp only [pageOverhead] at room
  simp only [Page.key, same.keyOff, same.keyLen, Dbt.mk.injEq, and_true]
  exact funext fun j => same _ (.inr (by simp only [chksumOffset] at *; omega))

theorem findKey_keyed (h : Keyed bsize pairs c) (same : Agree c' c) :
    findKey compare key c' = findKey compare key c := by
  rw [findKey, findKey, same.numEnt]
  exact List.find?_congr fun i mem => by rw [h.key_agree same (List.mem_range.mp mem)]

end Along

theorem Knows.hCompare {hand : List Taken} (h : Knows h₀ s acc hand hashp) : hashp.hCompare = h₀.hCompare := by
  rw [h.frame]

theorem wp_findChain (follow : Follow view q l) (sheets : ∀ r ∈ q :: l, Sheet bsize acc r (view r))
    (low : ∀ r ∈ q :: l, 0 < r ∧ r < s) {fuel : Nat} (enough : l.length < fuel)
    (known : Knows h₀ s acc [⟨id, q, c⟩] hashp)
    (told : acc.holds q c) {Q : Option Hent → Htab → Prop}
    (next : ∀ item c' hashp', Locates h₀.hCompare view (q :: l) key item → acc.holds item.pgno c' →
      Knows h₀ s acc [⟨item.pagep, item.pgno, c'⟩] hashp' → Q (some item) hashp') :
    Wp adm (findChain key chksum fuel id q) hashp Q := by
  induction follow generalizing fuel id c hashp with
  | @last q none =>
    obtain ⟨fuel, rfl⟩ := Nat.exists_eq_succ_of_ne_zero (Nat.pos_iff_ne_zero.mp enough)
    have sheet := sheets q List.mem_cons_self
    have same := sheet.told c told
    obtain ⟨pairs, stacked⟩ := sheet.stacked
    refine wp_bind (Prog.wp_read (wp_bind (wp_page known List.mem_cons_self ?_)))
    rw [known.hCompare, findKey_keyed stacked.toKeyed same]
    cases found : findKey h₀.hCompare key (view q) with
    | some i => exact wp_pure (next _ c hashp (.here found rfl rfl rfl) told known)
    | none =>
      dsimp only
      rw [if_pos (same.nextPgno.trans none)]
      exact wp_pure (next _ c hashp (.past found rfl rfl) told known)
  | @next q r l link some rest ih =>
    obtain ⟨fuel, rfl⟩ := Nat.exists_eq_succ_of_ne_zero (Nat.pos_iff_ne_zero.mp ((Nat.zero_le _).trans_lt enough))
    have sheet := sheets q List.mem_cons_self
    have same := sheet.told c told
    obtain ⟨pairs, stacked⟩ := sheet.stacked
    refine wp_bind (Prog.wp_read (wp_bind (wp_page known List.mem_cons_self ?_)))
    rw [known.hCompare, findKey_keyed stacked.toKeyed same]
    cases found : findKey h₀.hCompare key (view q) with
    | some i => exact wp_pure (next _ c hashp (.here found rfl rfl rfl) told known)
    | none =>
      dsimp only
      rw [if_neg (by rw [same.nextPgno, link]; exact some), same.nextPgno, link]
      refine wp_bind (wp_putClean known (same.pageSign.trans stacked.signed) told fun mid known' => ?_)
      have place := low r (List.mem_cons_of_mem _ List.mem_cons_self)
      refine wp_bind (wp_get known' List.not_mem_nil (fun _ => place.1) place.2 (by decide)
        fun id' c' mid' known'' told' => ?_)
      exact ih (fun u mem => sheets u (List.mem_cons_of_mem _ mem)) (fun u mem => low u (List.mem_cons_of_mem _ mem))
        (Nat.succ_lt_succ_iff.mp enough) known'' told' fun item x t locates => next item x t (locates.behind found)

section Bucket

structure SamePairs (c' c : Page) : Prop where
  link : c'.nextPgno = c.nextPgno
  count : c'.numEnt = c.numEnt
  pairs : ∀ i < c.numEnt, c'.key i = c.key i ∧ c'.datap i = c.datap i

theorem Keyed.samePairs (h : Keyed bsize pairs c) (same : Agree c' c) : SamePairs c' c where
  link := same.nextPgno
  count := same.numEnt
  pairs i low := by
    have behind := h.behind (h.count ▸ low)
    have room := h.room
    simp only [pageOverhead] at room
    exact ⟨h.key_agree same low, same.datap (by simp only [chksumOffset]; omega)⟩

/-- The chain of bucket `b`, of which `view` has the bytes. -/
structure ChainView (hashp : Htab) (b : Nat) (l : List Nat) (view : Nat → Page) : Prop where
  shown : ∀ q ∈ hashp.hdr.bucketToPage b :: l, ∀ c, hashp.mp.Shows q c → Agree c (view q)
  follow : Follow view (hashp.hdr.bucketToPage b) l

/-- A search of the bucket ends on an equal key or on the last page of the chain, with that page in hand, and
leaves all links and pairs of the chain as they were. -/
structure SearchedExactly (hashp : Htab) (b : Nat) (l : List Nat) (view : Nat → Page) (key : Dbt) (item : Hent)
    (hashp' : Htab) : Prop
    extends Locates hashp.hCompare view (hashp.hdr.bucketToPage b :: l) key item where
  hand : (hashp'.mp.bkt item.pagep).pgno = item.pgno
  kept : ∀ q ∈ hashp.hdr.bucketToPage b :: l, ∀ c, hashp'.mp.Shows q c → SamePairs c (view q)

theorem Strung.chainView (h : Strung h₀ s acc maps ds p l view hashp) (first : hashp.hdr.bucketToPage b = p) :
    ChainView hashp b l view := by
  subst first
  exact ⟨fun q mem c shows => (h.sheet q mem).told c (h.known.holds q c List.not_mem_nil shows), h.follow⟩

theorem Strung.wp_getBucket (h : Strung h₀ s acc maps ds p l view hashp) (first : hashp.hdr.bucketToPage b = p)
    (bucket : b < 0x80000000) {Q : Option Nat × Nat → Htab → Prop}
    (next : ∀ id c hashp', Knows h₀ s acc [⟨id, p, c⟩] hashp' → acc.holds p c → Q (some id, p) hashp') :
    Wp adm (getPage b hashBucketPage { create := true }) hashp Q := by
  have mine : p ∈ p :: l := List.mem_cons_self
  refine wp_getPage h.known List.not_mem_nil (fun _ => (h.reserved p mine).pos) (h.reserved p mine).low rfl (.inl rfl)
    (fun q => wp_address_bucket bucket (first.symm ▸ q)) fun id c hashp' known told => next id c hashp' ?_ told
  have same := (h.sheet p mine).told c told
  rw [opened, if_neg] at known
  · exact known
  · rw [same.currPgno, (h.sheet p mine).number]
    exact fun both => (h.reserved p mine).pos.ne' both.2

theorem Strung.findItem_filled (h : Strung h₀ s acc maps ds p l view hashp) (first : hashp.hdr.bucketToPage b = p)
    (bucket : b < 0x80000000) (filled : 0 < (view p).numEnt) (key : Dbt) (val : Option Dbt) :
    ∃ item t, (findItem b key val).Returns hashp (some item) t ∧ SearchedExactly hashp b l view key item t := by
  have searches : Wp (fun _ => True) (findItem b key val) hashp fun r t =>
      ∃ item, r = some item ∧ SearchedExactly hashp b l view key item t := by
    refine wp_bind (h.wp_getBucket first bucket fun id c mid known told => ?_)
    have same := (h.sheet p List.mem_cons_self).told c told
    refine wp_bind (Prog.wp_read (wp_bind (wp_page known List.mem_cons_self ?_)))
    dsimp only
    rw [if_neg (by rw [same.numEnt]; exact filled.ne'), same.currPgno, (h.sheet p List.mem_cons_self).number]
    refine wp_findChain h.follow h.sheet (fun r mem => ⟨(h.reserved r mem).pos, (h.reserved r mem).low⟩)
      h.follow.length_lt known told
      fun item c' t locates told' known' => ⟨item, rfl, ?_⟩
    subst first
    rw [← h.known.hCompare] at locates
    refine ⟨locates, (known'.hands _ List.mem_cons_self).2.1, fun q mem x shows => ?_⟩
    obtain ⟨pairs, stacked⟩ := (h.sheet q mem).stacked
    exact stacked.toKeyed.samePairs ((h.sheet q mem).told x (known'.shown_cons told' List.not_mem_nil shows))
  obtain ⟨_, t, run, item, rfl, exactly⟩ := searches fun _ _ => trivial
  exact ⟨item, t, run, exactly⟩

structure EndsReset (acc : Account) (p : Nat) (item : Hent) (reset : Page) (t : Htab) : Prop where
  status : item.status = .noMore
  page : item.pgno = p
  hand : (t.mp.bkt item.pagep).pgno = p
  count : reset.numEnt = 0
  link : reset.nextPgno = invalidPgno
  shown : t.mp.Shows p reset
  others : ∀ q c, t.mp.Shows q c → acc.holds q c ∨ (q = p ∧ Agree c reset)

theorem Strung.findItem_empty (h : Strung h₀ s acc maps ds p l view hashp) (first : hashp.hdr.bucketToPage b = p)
    (bucket : b < 0x80000000) (none : (view p).numEnt = 0) (key : Dbt) (val : Option Dbt) :
    ∃ item t reset, (findItem b key val).Returns hashp (some item) t ∧ EndsReset acc p item reset t := by
  have searches : Wp (fun _ => True) (findItem b key val) hashp fun r t =>
      ∃ item reset, r = some item ∧ EndsReset acc p item reset t := by
    refine wp_bind (h.wp_getBucket first bucket fun id c mid known told => ?_)
    have same := (h.sheet p List.mem_cons_self).told c told
    refine wp_bind (Prog.wp_read (wp_bind (wp_page known List.mem_cons_self ?_)))
    dsimp only
    rw [if_pos (same.numEnt.trans none)]
    have rest : ∀ sum, Wp (fun _ => True) (do
        initPage id p hashBucketPage
        if val.isNone ∧ resets mid.hdr.bsize p c then noteSlip id .emptied
        pure (some (⟨id, p, 0, .noMore, sum⟩ : Hent))) mid fun r t =>
          ∃ item reset, r = some item ∧ EndsReset acc p item reset t := by
      refine fun sum => wp_bind (wp_initPage known p hashBucketPage fun t known' => ?_)
      obtain ⟨cached, number, _, page⟩ := known'.hands _ List.mem_cons_self
      generalize made : FileHash.initPage h₀.hdr.bsize c p hashBucketPage = reset at known' page
      have ends : EndsReset acc p ⟨id, p, 0, .noMore, sum⟩ reset t := by
        refine ⟨rfl, rfl, number, made ▸ numEnt_initPage .., made ▸ nextPgno_initPage, ?_, fun q x shows => ?_⟩
        · refine .inl ⟨id, cached, number, ?_⟩
          rw [page]
          exact .refl reset
        · have also : Knows h₀ s (acc.also p reset) [⟨id, p, reset⟩] t := known'.mono fun _ _ => .inl
          exact also.shown_cons (.inr ⟨rfl, .refl reset⟩) List.not_mem_nil shows
      exact Prog.wp_ite (fun _ => wp_bind (wp_noteSlip (wp_pure ⟨_, reset, rfl, ends⟩))) fun _ =>
        wp_pure ⟨_, reset, rfl, ends⟩
    exact Prog.wp_ite (fun _ => wp_bind (Prog.wp_mark fun _ => rest _)) fun _ => rest _
  obtain ⟨_, t, run, item, reset, rfl, ends⟩ := searches fun _ _ => trivial
  exact ⟨item, t, reset, run, ends⟩

theorem EndsReset.exactly {item : Hent} {reset : Page} {t : Htab} (ends : EndsReset acc p item reset t)
    (h : Strung h₀ s acc maps ds p [] view hashp) (first : hashp.hdr.bucketToPage b = p) (none : (view p).numEnt = 0) :
    SearchedExactly hashp b [] view key item t := by
  subst first
  have other : ¬item.status = .ok := by
    rw [ends.status]
    decide
  have last : (view (hashp.hdr.bucketToPage b)).nextPgno = invalidPgno := h.follow.end_of
  have sheet := h.sheet _ List.mem_cons_self
  obtain ⟨pairs, stacked⟩ := sheet.stacked
  refine ⟨⟨⟨fun ok => absurd ok other, ?_⟩, fun ok => absurd ok other, fun _ => ⟨ends.status, by rw [ends.page]; rfl⟩⟩,
    ends.hand.trans ends.page.symm, fun q mem x shows => ?_⟩
  · rintro ⟨q, mem, i, low, _⟩
    rw [List.mem_singleton.mp mem, none] at low
    exact absurd low (Nat.not_lt_zero i)
  · rw [List.mem_singleton.mp mem] at shows ⊢
    rcases ends.others _ x shows with told | ⟨_, same⟩
    · exact stacked.toKeyed.samePairs (sheet.told x told)
    · refine ⟨same.nextPgno.trans (ends.link.trans last.symm), same.numEnt.trans (ends.count.trans none.symm), ?_⟩
      exact fun i low => absurd (none ▸ low) (Nat.not_lt_zero i)

theorem Strung.findItem_exactly (h : Strung h₀ s acc maps ds p l view hashp) (first : hashp.hdr.bucketToPage b = p)
    (bucket : b < 0x80000000) (key : Dbt) (val : Option Dbt) :
    (∃ item t, (findItem b key val).Returns hashp (some item) t ∧ SearchedExactly hashp b l view key item t) ↔
      (view p).numEnt ≠ 0 ∨ l = [] := by
  constructor
  · rintro ⟨item, t, run, exactly⟩
    by_contra neither
    obtain ⟨none, more⟩ := not_or.mp neither
    obtain ⟨item', t', reset, run', ends⟩ := h.findItem_empty first bucket (not_not.mp none) key val
    obtain ⟨same, rfl⟩ := run.unique run'
    have kept := exactly.kept p (first ▸ List.mem_cons_self) reset ends.shown
    cases h.follow with
    | last _ => exact more rfl
    | next link some _ => exact some (link.symm.trans (kept.link.symm.trans ends.link))
  · rintro (filled | rfl)
    · exact h.findItem_filled first bucket (Nat.pos_of_ne_zero filled) key val
    · by_cases none : (view p).numEnt = 0
      · obtain ⟨item, t, reset, run, ends⟩ := h.findItem_empty first bucket none key val
        exact ⟨item, t, run, ends.exactly h first none⟩
      · exact h.findItem_filled first bucket (Nat.pos_of_ne_zero none) key val

end Bucket

section Runs

variable {start hashp' : Htab} {val : Dbt}

/-- Bucket `b` of the table has a page that was just initialized, which holds no data and is not given out. The
file reads as zeros behind its last page. -/
structure EmptyBucket (hashp : Htab) (b : Nat) : Prop where
  bucket : b < 0x80000000
  level : ffdbLog2 (u32 (b + 1)) ≤ hashp.hdr.ovflPoint
  unwritten : Pagepool.Unwritten hashp.hdr.bsize hashp.mp
  page : ∃ h₀ s acc maps ds raw, Accounted h₀ s acc maps [] hashp ds ∧
    Reserved h₀ s maps ds (hashp.hdr.bucketToPage b) ∧ ∀ c, acc.holds (hashp.hdr.bucketToPage b) c →
      Agree c (FileHash.initPage hashp.hdr.bsize raw (hashp.hdr.bucketToPage b) hashBucketPage)

/-- From one table to another by insertions into the chain of bucket `b`: beside the keys in their order. -/
inductive Inserted (start : Htab) (b : Nat) : List Dbt → Htab → Prop
  | start : Inserted start b [] start
  | insert {keys : List Dbt} {hashp hashp' : Htab} {l : List Nat} {view : Nat → Page} {key val : Dbt} {r : Int}
    (run : Inserted start b keys hashp) (chain : ChainView hashp b l view)
    (small : key.size ≤ maxKeysize hashp.hdr.bsize) (storable : Storable hashp.hdr.version val.size)
    (few : nextNumber hashp + val.size / (hashp.hdr.bsize - bigPageOverhead) + 6 < maxPageNumber)
    (inserts : (insertLast (l.getLastD (hashp.hdr.bucketToPage b)) key val).Returns hashp r hashp') :
    Inserted start b (keys ++ [key]) hashp'

def FitsEmpty (bsize ksize : Nat) : Prop := pairsize ksize ≤ bsize - pageOverhead

theorem Stacked.fits_empty (h : Stacked bsize pairs c) (page : PageSize bsize) (none : c.numEnt = 0) (ksize : Nat) :
    pairfits c ksize = true ↔ FitsEmpty bsize ksize := by
  have tight := h.tight
  have room := h.freespace_eq page.most
  rw [← h.count, none, roof] at tight
  rw [none] at room
  rw [pairfits, decide_eq_true_iff, FitsEmpty]
  omega

theorem getLastD_ne (nodup : (p :: l).Nodup) (more : l ≠ []) : p ≠ l.getLastD p := by
  cases l with
  | nil => exact absurd rfl more
  | cons q l =>
    rw [List.getLastD_cons]
    exact fun same => (List.nodup_cons.mp nodup).1 (same ▸ List.getLastD_mem_cons)

structure Begun (bsize p : Nat) (keys : List Dbt) (l : List Nat) (view : Nat → Page) : Prop where
  none : keys = [] → l = [] ∧ (view p).numEnt = 0
  fits : ∀ k ∈ keys.head?, FitsEmpty bsize k.size → (view p).numEnt ≠ 0
  wide : ∀ k ∈ keys.head?, ¬FitsEmpty bsize k.size → (view p).numEnt = 0 ∧ l ≠ []

theorem Lengthens.first (more : Lengthens key.size p l view l' view') (nodup : (p :: l).Nodup) :
    ((view p).numEnt ≠ 0 → (view' p).numEnt ≠ 0) ∧ (l ≠ [] → view' p = view p ∧ l' ≠ []) := by
  constructor
  · intro some
    by_cases only : l = []
    · subst only
      cases fit : pairfits (view p) key.size with
      | true => exact (more.fits fit).2.trans_ne (Nat.succ_ne_zero _)
      | false => exact (more.more fit).2.trans_ne some
    · rw [more.others p List.mem_cons_self (getLastD_ne nodup only)]
      exact some
  · intro behind
    refine ⟨more.others p List.mem_cons_self (getLastD_ne nodup behind), ?_⟩
    cases fit : pairfits (view (l.getLastD p)) key.size with
    | true =>
      rw [(more.fits fit).1]
      exact behind
    | false =>
      obtain ⟨n, rfl⟩ := (more.more fit).1
      exact List.append_ne_nil_of_right_ne_nil l (List.cons_ne_nil n [])

theorem Begun.lengthen {keys : List Dbt} (begun : Begun bsize p keys l view) (nodup : (p :: l).Nodup)
    (empty : (view p).numEnt = 0 → ∀ k, pairfits (view p) k = true ↔ FitsEmpty bsize k)
    (more : Lengthens key.size p l view l' view') : Begun bsize p (keys ++ [key]) l' view' := by
  obtain ⟨grows, behind⟩ := more.first nodup
  cases keys with
  | nil =>
    obtain ⟨rfl, none⟩ := begun.none rfl
    refine ⟨fun nil => absurd nil (List.cons_ne_nil _ _), fun k first fits => ?_, fun k first wide => ?_⟩
    · obtain rfl : key = k := Option.some.inj first
      exact (more.fits ((empty none _).mpr fits)).2.trans_ne (Nat.succ_ne_zero _)
    · obtain rfl : key = k := Option.some.inj first
      obtain ⟨⟨n, rfl⟩, same⟩ := more.more (Bool.eq_false_iff.mpr fun fits => wide ((empty none _).mp fits))
      exact ⟨same.trans none, List.cons_ne_nil _ _⟩
  | cons a rest =>
    refine ⟨fun nil => absurd nil (List.cons_ne_nil _ _), fun k first fits => ?_, fun k first wide => ?_⟩
    · exact grows (begun.fits k first fits)
    · obtain ⟨none, some⟩ := begun.wide k first wide
      obtain ⟨same, some'⟩ := behind some
      exact ⟨same ▸ none, some'⟩

structure Built (start : Htab) (b : Nat) (keys : List Dbt) (l : List Nat) (view : Nat → Page)
    (hashp : Htab) : Prop where
  strung : ∃ h₀ s acc maps ds, Strung h₀ s acc maps ds (hashp.hdr.bucketToPage b) l view hashp
  unwritten : Pagepool.Unwritten hashp.hdr.bsize hashp.mp
  size : hashp.hdr.bsize = start.hdr.bsize
  begins : Begins start.hdr.ovflPoint start.hdr.spares hashp
  begun : Begun hashp.hdr.bsize (hashp.hdr.bucketToPage b) keys l view

theorem EmptyBucket.built (h : EmptyBucket start b) : ∃ view, Built start b [] [] view start := by
  obtain ⟨h₀, s, acc, maps, ds, raw, has, reserved, told⟩ := h.page
  have size : PageSize start.hdr.bsize := has.known.hdr ▸ has.laid.page
  have word : start.hdr.bucketToPage b < 0x100000000 := by
    have low := reserved.low
    have bound := has.known.few
    simp only [maxPageNumber] at bound
    omega
  refine ⟨fun _ => FileHash.initPage start.hdr.bsize raw (start.hdr.bucketToPage b) hashBucketPage,
    ⟨h₀, s, acc, maps, ds, has, .last nextPgno_initPage, List.forall_mem_singleton.mpr reserved,
      List.forall_mem_singleton.mpr ⟨told, currPgno_initPage word, [], ?_⟩⟩, h.unwritten, rfl, ⟨rfl, fun _ _ => rfl⟩,
    fun _ => ⟨rfl, numEnt_initPage ..⟩, fun k none => absurd none (Option.not_mem_none k),
    fun k none => absurd none (Option.not_mem_none k)⟩
  rw [← has.known.hdr]
  exact stacked_initPage size (.inl rfl)

theorem Built.insert {keys : List Dbt} (h : Built start b keys l view hashp)
    (level : ffdbLog2 (u32 (b + 1)) ≤ start.hdr.ovflPoint)
    (small : key.size ≤ maxKeysize hashp.hdr.bsize) (storable : Storable hashp.hdr.version val.size)
    (few : nextNumber hashp + val.size / (hashp.hdr.bsize - bigPageOverhead) + 6 < maxPageNumber) :
    ∃ hashp', (insertLast (l.getLastD (hashp.hdr.bucketToPage b)) key val).Returns hashp 0 hashp' ∧
      ∃ l' view', Built start b (keys ++ [key]) l' view' hashp' := by
  obtain ⟨h₀, s, acc, maps, ds, strung⟩ := h.strung
  have hdr := strung.known.hdr
  rw [nextNumber_eq strung.known strung.laid, hdr] at few
  have unwritten := h.unwritten
  rw [hdr] at small storable unwritten
  obtain ⟨_, t, run, rfl, h₁, s', acc', maps', ds', l', view', strung', more, size, _⟩ :=
    strung.wp_insertLast unwritten small storable few fun _ _ => trivial
  have begins : Begins start.hdr.ovflPoint start.hdr.spares t :=
    stays_insertLast _ key val (unpaged_begins.getPage _ _ _) (fun item => giving_begins.addNewPair key val item)
      (fun item => giving_begins.addOvflpage begins_ovflPage key val item) hashp 0 t h.begins (fun _ _ => trivial) run
  have page : t.hdr.bucketToPage b = hashp.hdr.bucketToPage b := h.begins.bucketToPage begins level
  have same : t.hdr.bsize = hashp.hdr.bsize := by rw [strung'.known.hdr, size, hdr]
  have tame := tame_unwritten (fun _ => True) hashp.hdr.bsize
  refine ⟨t, run, l', view', ⟨h₁, s', acc', maps', ds', page.symm ▸ strung'⟩, ?_, same.trans h.size, begins, ?_⟩
  · rw [same]
    exact stays_insertLast _ key val (tame.getPage _ _ rfl) (fun item => tame.addPair key val item false)
      (fun item => tame.addOvflpage key val item) hashp 0 t h.unwritten (fun _ _ => trivial) run
  · obtain ⟨pairs, stacked⟩ := (strung.sheet _ List.mem_cons_self).stacked
    rw [same, page]
    exact h.begun.lengthen strung.follow.nodup (fun none => hdr ▸ stacked.fits_empty strung.laid.page none) more

theorem Follow.same_end (follow : Follow view p l) (follow' : Follow view' p l')
    (same : ∀ q ∈ p :: l, q ∈ p :: l' → (view q).nextPgno = (view' q).nextPgno) : l = l' := by
  induction follow generalizing l' with
  | last none =>
    cases follow' with
    | last => rfl
    | next link some =>
      exact absurd (link.symm.trans ((same _ List.mem_cons_self List.mem_cons_self).symm.trans none)) some
  | next link some rest ih =>
    cases follow' with
    | last none =>
      exact absurd (link.symm.trans ((same _ List.mem_cons_self List.mem_cons_self).trans none)) some
    | next link' some' rest' =>
      obtain rfl := link.symm.trans ((same _ List.mem_cons_self List.mem_cons_self).trans link')
      rw [ih rest' fun q mem mem' => same q (List.mem_cons_of_mem _ mem) (List.mem_cons_of_mem _ mem')]

theorem ChainView.unique (h : ChainView hashp b l view) (h' : ChainView hashp b l' view')
    (sound : Pagepool.Sound self hashp.mp) : l = l' := by
  refine Follow.same_end h.follow h'.follow fun q mem mem' => ?_
  obtain ⟨c, shows⟩ := shows_some sound q
  rw [← (h.shown q mem c shows).nextPgno, (h'.shown q mem' c shows).nextPgno]

theorem Inserted.built {keys : List Dbt} (run : Inserted start b keys hashp) (empty : EmptyBucket start b) :
    ∃ l view, Built start b keys l view hashp := by
  induction run with
  | start => exact ⟨[], empty.built⟩
  | insert run chain small storable few inserts ih =>
    obtain ⟨l, view, built⟩ := ih
    obtain ⟨h₀, s, acc, maps, ds, strung⟩ := built.strung
    obtain rfl := chain.unique (strung.chainView rfl) strung.known.sound
    obtain ⟨t, again, l', view', built'⟩ := built.insert empty.level small storable few
    obtain ⟨_, rfl⟩ := again.unique inserts
    exact ⟨l', view', built'⟩

theorem Inserted.search {keys : List Dbt} (run : Inserted start b keys hashp) (empty : EmptyBucket start b) :
    ∃ l view, ChainView hashp b l view ∧ ∀ key val,
      (∃ item t, (findItem b key val).Returns hashp (some item) t ∧ SearchedExactly hashp b l view key item t) ↔
        ∀ k ∈ keys.head?, FitsEmpty start.hdr.bsize k.size := by
  obtain ⟨l, view, built⟩ := run.built empty
  obtain ⟨h₀, s, acc, maps, ds, strung⟩ := built.strung
  refine ⟨l, view, strung.chainView rfl, fun key val => (strung.findItem_exactly rfl empty.bucket key val).trans
    ⟨?_, ?_⟩⟩
  all_goals rw [← built.size]
  · intro exactly k first
    by_contra wide
    obtain ⟨none, more⟩ := built.begun.wide k first wide
    exact exactly.elim (fun some => some none) more
  · intro fits
    cases keys with
    | nil => exact .inr (built.begun.none rfl).1
    | cons k rest => exact .inl (built.begun.fits k rfl (fits k rfl))

theorem Inserted.insert_next {keys : List Dbt} (run : Inserted start b keys hashp) (empty : EmptyBucket start b)
    (key val : Dbt) (small : key.size ≤ maxKeysize hashp.hdr.bsize) (storable : Storable hashp.hdr.version val.size)
    (few : nextNumber hashp + val.size / (hashp.hdr.bsize - bigPageOverhead) + 6 < maxPageNumber) :
    ∃ hashp', Inserted start b (keys ++ [key]) hashp' := by
  obtain ⟨l, view, built⟩ := run.built empty
  obtain ⟨t, inserts, _⟩ := built.insert empty.level small storable few
  obtain ⟨h₀, s, acc, maps, ds, strung⟩ := built.strung
  exact ⟨t, .insert run (strung.chainView rfl) small storable few inserts⟩

end Runs

section Example

theorem unwritten_newTable : Pagepool.Unwritten newTable.hdr.bsize newTable.mp where
  filter p _ := by
    have sign : Page.pageSign (fun _ => 0) ≠ pageMagic := by decide
    change pginRoutine 4096 false p (fun _ => 0) = _
    simp only [pginRoutine, Bool.false_eq_true, if_false, if_pos sign]
    rfl
  zeros p _ _ := if_neg (Nat.not_lt_zero p)

def emptyBucket : Htab :=
  endOf (initPage 0 3 hashBucketPage >>= fun _ => putPage 0 true) (endOf (getPage 3 hashOvflPage {}) newTable)

theorem emptyBucket_newTable : EmptyBucket emptyBucket 0 ∧ emptyBucket.hdr = newTable.hdr ∧
    nextNumber emptyBucket = 5 := by
  have size : PageSize newTable.hdr.bsize := ⟨by decide, by decide, by decide⟩
  have tame := tame_unwritten (fun _ => True) newTable.hdr.bsize
  have gets : Wp (fun _ => True) (getPage 3 hashOvflPage {}) newTable fun r mid =>
      ∃ id raw, r = (some id, 3) ∧ Knows newTable 5 .any [⟨id, 3, raw⟩] mid :=
    wp_get knows_newTable List.not_mem_nil (fun _ => by decide) (by decide) (by decide) fun id raw mid known _ =>
      ⟨id, raw, rfl, known⟩
  obtain ⟨_, mid, got, ⟨id, raw, rfl, known⟩, unwritten⟩ :=
    Prog.wp_triple gets (tame.getPage 3 hashOvflPage rfl) unwritten_newTable fun _ _ => trivial
  have first : (getPage 3 hashOvflPage {}).Returns newTable (some 0, 3) (endOf (getPage 3 hashOvflPage {}) newTable) :=
    returns_of_answer (t := []) (by decide +kernel)
  obtain ⟨same, rfl⟩ := Prog.Returns.unique got first
  obtain rfl : id = 0 := Option.some.inj (congrArg Prod.fst same)
  have puts : Wp (fun _ => True) (initPage 0 3 hashBucketPage >>= fun _ => putPage 0 true)
      (endOf (getPage 3 hashOvflPage {}) newTable) fun _ t =>
      Knows newTable 5 (Account.any.set 3 (FileHash.initPage newTable.hdr.bsize raw 3 hashBucketPage)) [] t :=
    wp_bind (wp_initPage known 3 hashBucketPage fun mid known => wp_putDirty known signed_initPage fun t known => known)
  obtain ⟨_, t, put, known, unwritten⟩ := Prog.wp_triple puts
    (Prog.stays_bind (tame.initPage 0 3 hashBucketPage) fun _ => tame.putPage 0 true) unwritten fun _ _ => trivial
  obtain rfl : t = emptyBucket := by rw [emptyBucket, endOf, put]
  have laid : DataLaid newTable 5 .any [] [] := laid_tableOf size
    (show (initHdr twoBuckets 4096 12).spares ((initHdr twoBuckets 4096 12).ovflPoint + 1) = 0 by decide +kernel) rfl
    (show u32 ((initHdr twoBuckets 4096 12).bucketToPage (initHdr twoBuckets 4096 12).highMask + 1) = 5 by
      decide +kernel) (by decide)
  have laid : DataLaid newTable 5 (Account.any.set 3 (FileHash.initPage newTable.hdr.bsize raw 3 hashBucketPage)) [] [] :=
    laid.mono fun _ _ _ => trivial
  have page : emptyBucket.hdr.bucketToPage 0 = 3 := by
    rw [known.hdr]
    exact (by decide +kernel : (initHdr twoBuckets 4096 12).bucketToPage 0 = 3)
  refine ⟨⟨by decide, Nat.zero_le _, known.hdr.symm ▸ unwritten, newTable, 5, _, [], [], raw,
    ⟨known, format_tableOf (.inr rfl), laid, aside_none⟩, ?_, fun c holds => ?_⟩, known.hdr, nextNumber_eq known laid⟩
  · rw [page]
    exact ⟨by decide, by decide, by decide, List.not_mem_nil, fun _ mem => absurd mem List.not_mem_nil⟩
  · rw [page, known.hdr] at *
    exact Account.set_same.mp holds

theorem inserted_newTable (key : Dbt) (small : key.size ≤ 4040) : ∃ t, Inserted emptyBucket 0 [key] t ∧
    (insertLast 3 key (.ofBytes [42])).Returns emptyBucket 0 t ∧ emptyBucket.hdr.bsize = 4096 := by
  obtain ⟨empty, hdr, number⟩ := emptyBucket_newTable
  have size : emptyBucket.hdr.bsize = 4096 := by rw [hdr]; rfl
  have page : emptyBucket.hdr.bucketToPage 0 = 3 := by
    rw [hdr]
    exact (by decide +kernel : (initHdr twoBuckets 4096 12).bucketToPage 0 = 3)
  have accepted : key.size ≤ maxKeysize emptyBucket.hdr.bsize := by rw [size]; exact small
  have few : nextNumber emptyBucket + 1 / (emptyBucket.hdr.bsize - bigPageOverhead) + 6 < maxPageNumber := by
    rw [number, size]
    decide
  obtain ⟨view, built⟩ := empty.built
  obtain ⟨h₀, s, acc, maps, ds, strung⟩ := built.strung
  obtain ⟨t, inserts, _⟩ := built.insert empty.level accepted
    (.inl (by decide) : Storable _ (Dbt.ofBytes [42]).size) few
  refine ⟨t, .insert .start (strung.chainView rfl) accepted (.inl (by decide)) few inserts, ?_, size⟩
  rwa [page] at inserts

/-- A search is exact in every chain that insertions have built, if the first key fits an empty page by the estimate
that tests for it; else it is not, whatever the key it is for. -/
theorem chain_search {keys : List Dbt} {start hashp : Htab} {b : Nat} (empty : EmptyBucket start b)
    (run : Inserted start b keys hashp) :
    ∃ l view, ChainView hashp b l view ∧ ∀ key val,
      (∃ item t, (findItem b key val).Returns hashp (some item) t ∧ SearchedExactly hashp b l view key item t) ↔
        ∀ k ∈ keys.head?, FitsEmpty start.hdr.bsize k.size :=
  run.search empty

def oneInserted : Htab := endOf (insertLast 3 (.ofBytes [7]) (.ofBytes [42])) emptyBucket

theorem chain_search_two : ∃ hashp l view, Inserted emptyBucket 0 [Dbt.ofBytes [7], ⟨fun _ => 1, 4000⟩] hashp ∧
    ∀ key ∈ [Dbt.ofBytes [7], ⟨fun _ => 1, 4000⟩], ∃ item t, (findItem 0 key none).Returns hashp (some item) t ∧
      SearchedExactly hashp 0 l view key item t := by
  obtain ⟨empty, -, -⟩ := emptyBucket_newTable
  obtain ⟨t, run, inserts, size⟩ := inserted_newTable (.ofBytes [7]) (by decide)
  obtain rfl : t = oneInserted := by rw [oneInserted, endOf, inserts]
  obtain ⟨hashp, run'⟩ := run.insert_next empty ⟨fun _ => 1, 4000⟩ (.ofBytes [42]) (by decide +kernel)
    (.inl (by decide)) (by decide +kernel)
  obtain ⟨l, view, _, exactly⟩ := chain_search empty run'
  refine ⟨hashp, l, view, run', fun key _ => (exactly key none).mpr fun k first => ?_⟩
  rw [size, ← Option.some.inj first]
  unfold FitsEmpty
  decide

/-- A first key of 4038 bytes leaves the first page empty: no search is exact. -/
theorem chain_search_fails : ∃ start hashp l view, EmptyBucket start 0 ∧ start.hdr.bsize = 4096 ∧
    Inserted start 0 [⟨fun _ => 0, 4038⟩] hashp ∧ ChainView hashp 0 l view ∧ ∀ key val,
      ¬∃ item t, (findItem 0 key val).Returns hashp (some item) t ∧ SearchedExactly hashp 0 l view key item t := by
  obtain ⟨empty, -, -⟩ := emptyBucket_newTable
  obtain ⟨hashp, run, -, size⟩ := inserted_newTable ⟨fun _ => 0, 4038⟩ (by decide)
  obtain ⟨l, view, chain, exactly⟩ := run.search empty
  refine ⟨_, hashp, l, view, empty, size, run, chain, fun key val found => ?_⟩
  have fits := (exactly key val).mp found ⟨fun _ => 0, 4038⟩ rfl
  rw [size] at fits
  exact absurd fits (by unfold FitsEmpty; decide)

end Example

end FileHash.Htab
