import FileHash.RekeyedData

/-! The layout of a bucket page: the words of its pairs from the page's header up, the pointers and
the keys from the end of the page down, whichever of the two functions has put the pairs there. -/
namespace FileHash.Htab

open Lib (Prog)
open Lib.Prog (Wp wp_bind wp_pure)
open Page

section Pages

variable {bsize n a k : Nat} {c c' : Page} {pairs : List KeyDatap} {key : Dbt} {datap : Datap}

/-- A pair that may be put on the page: it fits, or it is the first on a fresh page and its key is one
that a put accepts. -/
def Placeable (bsize : Nat) (c : Page) (ksize : Nat) : Prop :=
  pairfits c ksize = true ∨ (c.numEnt = 0 ∧ ksize ≤ maxKeysize bsize)

structure Stacked (bsize : Nat) (pairs : List KeyDatap) (c : Page) : Prop extends Keyed bsize pairs c where
  tight : c.offset + 1 = roof bsize c pairs.length
  aligned : ∀ n < pairs.length, c.datapOff n % 4 = 0

theorem Keyed.freespace_eq (h : Keyed bsize pairs c) (most : bsize ≤ maxBsize) :
    freespace c + (pageOverhead + c.numEnt * pairOverhead) = c.offset + 1 := by
  have room := h.room
  have high := h.offset_lt
  rw [← h.count] at room
  simp only [freespace, pageOverhead, pairOverhead, maxBsize] at *
  omega

theorem Stacked.roomy (h : Stacked bsize pairs c) (page : PageSize bsize) {ksize : Nat}
    (placeable : Placeable bsize c ksize) : Roomy c ksize := by
  rcases placeable with fits | ⟨first, small⟩
  · have room := h.freespace_eq page.most
    have fits : pairsize ksize ≤ freespace c := of_decide_eq_true fits
    simp only [Roomy, pairsize, pageOverhead, pairOverhead, datapSize] at *
    omega
  · have tight := h.tight
    have header := page.header
    rw [← h.count, first] at tight
    simp only [Roomy, maxKeysize, first, tight, roof, hashhdrSize, pageOverhead, pairOverhead, datapSize] at *
    omega

theorem slotOff_aligned : slotOff c key % 4 = 0 := by
  simp only [slotOff, alignDatapOffsetVal]
  omega

theorem Keyed.put_slots (h : Keyed bsize pairs c) (most : bsize ≤ maxBsize) (roomy : Roomy c key.size) {i : Nat}
    (low : pageOverhead ≤ i) (high : i < pageOverhead + pairs.length * pairOverhead) :
    putDatap c.numEnt (slotOff c key) datap (putKey key c) i = c i := by
  obtain ⟨a, k, p⟩ := places most h.offset_lt roomy
  have room := p.room
  rw [← h.count] at high
  rw [p.off]
  simp only [pageOverhead, pairOverhead] at *
  exact p.pair_outside (.inr (by omega)) (.inr low) (.inl high) (.inl (by omega))

theorem Stacked.put (h : Stacked bsize pairs c) (page : PageSize bsize) (placeable : Placeable bsize c key.size)
    (words : datap.Words) :
    Stacked bsize (pairs ++ [⟨key.bytes, datap⟩]) (putDatap c.numEnt (slotOff c key) datap (putKey key c)) := by
  have roomy := h.roomy page placeable
  have keyed := h.toKeyed.put page.most roomy words
  have slots : ∀ i, pageOverhead ≤ i → i < pageOverhead + pairs.length * pairOverhead →
      putDatap c.numEnt (slotOff c key) datap (putKey key c) i = c i := fun i => h.put_slots page.most roomy
  obtain ⟨a, k, p⟩ := places page.most h.offset_lt roomy
  have last : (putDatap c.numEnt (slotOff c key) datap (putKey key c)).datapOff pairs.length = slotOff c key := by
    rw [← h.count, p.off]
    exact p.pair_words.2.2
  have offset : (putDatap c.numEnt (slotOff c key) datap (putKey key c)).offset + 1 = slotOff c key := by
    rw [p.off]
    exact p.pair_offset
  generalize putDatap c.numEnt (slotOff c key) datap (putKey key c) = c' at *
  refine ⟨keyed, ?_, fun n low => ?_⟩
  · rw [List.length_append, List.length_singleton, roof, last]
    exact offset
  · rw [List.length_append, List.length_singleton] at low
    rcases Nat.lt_succ_iff_lt_or_eq.mp low with old | rfl
    · have same : c'.datapOff n = c.datapOff n := Lib.Mem.read32_congr fun i least less => by
        have := Nat.mul_le_mul_right pairOverhead (Nat.succ_le_of_lt old)
        simp only [pageOverhead, pairOverhead] at *
        exact slots i (by omega) (by omega)
      rw [same]
      exact h.aligned n old
    · rw [last]
      exact slotOff_aligned

theorem Stacked.agree (h : Stacked bsize pairs c) (same : Agree c' c) : Stacked bsize pairs c' := by
  have word : ∀ n, c'.datapOff n = c.datapOff n := fun n =>
    same.read32 (.inr (by simp only [pageOverhead]; omega))
  refine ⟨h.toKeyed.agree same, ?_, fun n low => ?_⟩
  · rw [show c'.offset = c.offset from same.read32 (.inr (by decide)), h.tight]
    cases pairs.length with
    | zero => rfl
    | succ n => exact (word n).symm
  · rw [word]
    exact h.aligned n low

theorem stacked_initPage {page ty : Nat} (size : PageSize bsize) (ovfl : ty = hashBucketPage ∨ ty = hashOvflPage) :
    Stacked bsize [] (FileHash.initPage bsize c page ty) := by
  have header := size.header
  have most := size.most
  refine ⟨keyed_initPage size ovfl, ?_, fun n low => absurd low (Nat.not_lt_zero n)⟩
  rw [offset_initPage_bucket (by simp only [maxBsize] at most; omega) ovfl]
  simp only [hashhdrSize, List.length_nil, roof] at *
  omega

/-- The words of the pairs, the keys and the pointers lie in the page, none over another, and pairs that
were put there are as they were. -/
structure PairLayout (bsize : Nat) (pairs : List KeyDatap) (c : Page) : Prop where
  count : c.numEnt = pairs.length
  slots : pageOverhead + c.numEnt * pairOverhead ≤ c.offset + 1
  inside : ∀ n < c.numEnt, c.offset + 1 ≤ c.datapOff n ∧ c.datapOff n + datapSize ≤ c.keyOff n ∧
    c.keyOff n + c.keyLen n ≤ bsize
  apart : ∀ m n, m < n → n < c.numEnt → c.keyOff n + c.keyLen n ≤ c.datapOff m
  aligned : ∀ n < c.numEnt, c.datapOff n % 4 = 0
  kept : ∀ n pair, pairs[n]? = some pair → (c.key n).bytes = pair.key ∧ c.datap n = pair.datap
  free : freespace c + (pageOverhead + c.numEnt * pairOverhead) = c.offset + 1

theorem Stacked.layout (h : Stacked bsize pairs c) (page : PageSize bsize) : PairLayout bsize pairs c where
  count := h.count
  slots := h.count ▸ h.room
  inside n low := by
    rw [h.count] at low
    have on := h.on_lt low
    have top : roof bsize c n ≤ roof bsize c 0 := h.roof_mono (Nat.zero_le n) low.le
    exact ⟨h.behind low, on.gap, on.high.trans top⟩
  apart m n less low := by
    rw [h.count] at low
    exact (h.on_lt low).high.trans (h.roof_mono less low.le)
  aligned n low := h.aligned n (h.count ▸ low)
  kept n pair mem := ⟨(h.on n pair mem).key, (h.on n pair mem).datap⟩
  free := h.freespace_eq page.most

/-- None of the subtractions goes below zero, nor the count beyond its word. -/
structure NoWrap (c : Page) (key : Dbt) : Prop where
  size : key.size ≤ c.offset
  start : slotKeyOff c key + key.size = c.offset + 1
  pointer : slotOff c key + datapSize ≤ slotKeyOff c key
  word : 0 < slotOff c key
  count : c.numEnt + 1 < 65536

theorem Stacked.noWrap (h : Stacked bsize pairs c) (page : PageSize bsize)
    (placeable : Placeable bsize c key.size) : NoWrap c key := by
  have few := h.few page.most
  obtain ⟨a, k, p⟩ := places page.most h.offset_lt (h.roomy page placeable)
  have room := p.room
  have ends := p.ends
  have gap := p.gap
  rw [← h.count] at few
  simp only [pageOverhead, pairOverhead, datapSize] at room gap
  refine ⟨by omega, ?_, ?_, ?_, by omega⟩
  · rw [p.keyOff]
    exact ends
  · rw [p.off, p.keyOff]
    exact gap
  · rw [p.off]
    omega

end Pages

section Runs

variable {hashp : Htab} {p id id' n : Nat} {hand : List Taken} {ds left right : List Datum} {d : Datum} {key val : Dbt}
  {datap : Datap} {pairs : List KeyDatap}

/-- `_ffdb_write_key_datap_to_page` in two steps: the page, and then the header of the datum. -/
theorem HasKeyPage.write (has : HasKeyPage hand id p pairs hashp (left ++ d :: right))
    (roomy : Roomy (hashp.mp.bkt id).page key.size) (words : datap.Words) (first : datap.first = d.first)
    (offset : dataOffset hashp.hdr.version datap = d.roff) : ∃ hashp',
      (writeKeyDatapToPage key datap id p).Returns hashp 0 hashp' ∧ hashp'.hdr = hashp.hdr ∧
      HasKeyPage hand id p (pairs ++ [⟨key.bytes, datap⟩]) hashp' (left ++ d.rekeyed p pairs.length :: right) ∧
      (hashp'.mp.bkt id).page = putDatap (hashp.mp.bkt id).page.numEnt (slotOff (hashp.mp.bkt id).page key) datap
        (putKey key (hashp.mp.bkt id).page) := by
  obtain ⟨c, data, keyed⟩ := has
  rw [data.page] at roomy ⊢
  obtain ⟨h₀, s, acc, maps, known, format, laid, aside⟩ := data
  have mine : d ∈ left ++ d :: right := by simp
  have most := laid.page.most
  rw [known.hdr] at offset keyed ⊢
  rw [← keyed.count]
  have slots := keyed.few most
  have bound := known.few
  have number := known.hand_lt (p := p) List.mem_cons_self
  have word : p < 0x100000000 ∧ c.numEnt < 0x100000000 := by
    rw [keyed.count]
    simp only [maxPageNumber] at bound
    omega
  have writes : Wp (fun _ => True) (writeKeyDatapToPage key datap id p) hashp fun r hashp' => r = 0 ∧
      hashp'.hdr = h₀.hdr ∧
      HasKeyPage hand id p (pairs ++ [⟨key.bytes, datap⟩]) hashp' (left ++ d.rekeyed p c.numEnt :: right) ∧
      (hashp'.mp.bkt id).page = putDatap c.numEnt (slotOff c key) datap (putKey key c) := by
    refine wp_bind (wp_page known List.mem_cons_self (wp_bind (wp_store known _ fun mid known' => ?_)))
    refine wp_bind (wp_store known' _ fun mid' known'' => wp_bind ?_)
    refine wp_updateDataInfo known'' laid (aside.data d mine d.first List.mem_cons_self) first offset word
      fun acc' mid'' laid' told => wp_bind (wp_store told _ fun hashp' done => wp_pure ?_)
    have data' : HasData (⟨id, p, putDatap c.numEnt (slotOff c key) datap (putKey key c)⟩ :: hand) hashp'
        (left ++ d.rekeyed p c.numEnt :: right) := by
      refine ⟨h₀, s, acc', maps, done, format, laid', aside.cur, aside.free, ?_⟩
      exact forall_mem_renewed (fun e mem => aside.data e (mem_others mem)) (aside.data d mine)
    refine ⟨rfl, done.hdr, ⟨_, data', ?_⟩, data'.page⟩
    rw [done.hdr]
    exact keyed.put most roomy words
  obtain ⟨_, hashp', run, rfl, rest⟩ := writes fun _ _ => trivial
  exact ⟨hashp', run, rest⟩

def Fresh (hand : List Taken) (id p : Nat) (hashp : Htab) (ds : List Datum) : Prop :=
  ∃ raw ty, (ty = hashBucketPage ∨ ty = hashOvflPage) ∧
    HasData (⟨id, p, FileHash.initPage hashp.hdr.bsize raw p ty⟩ :: hand) hashp ds

def PointsInto (hand : List Taken) (id p : Nat) (hashp : Htab) (datap : Datap) : Prop :=
  ∃ c left d right, HasData (⟨id, p, c⟩ :: hand) hashp (left ++ d :: right) ∧ datap.first = d.first ∧
    dataOffset hashp.hdr.version datap = d.roff

/-- From a table with a fresh page in hand: in any order, pairs are put on the page by either function, values
are stored for other pages, and the page goes back to the pool and is fetched again. Beside the pairs in
the order they were put there. -/
inductive Placing (hand : List Taken) (start : Htab) (id₀ p : Nat) : Nat → List KeyDatap → Htab → Prop
  | start : Placing hand start id₀ p id₀ [] start
  | add {id : Nat} {pairs : List KeyDatap} {key val : Dbt} {hashp hashp' : Htab} {r : Int}
    (run : Placing hand start id₀ p id pairs hashp)
    (placeable : Placeable hashp.hdr.bsize (hashp.mp.bkt id).page key.size)
    (storable : Storable hashp.hdr.version val.size) (few : Numbered hashp val.size)
    (adds : (addItemOnPage id p key val (Checksum.crc32Checksum 0 val.bytes)).Returns hashp r hashp') :
    Placing hand start id₀ p id (pairs ++ [⟨key.bytes, (hashp'.mp.bkt id).page.datap pairs.length⟩]) hashp'
  | write {id : Nat} {pairs : List KeyDatap} {key : Dbt} {datap : Datap} {hashp hashp' : Htab} {r : Int}
    (run : Placing hand start id₀ p id pairs hashp)
    (placeable : Placeable hashp.hdr.bsize (hashp.mp.bkt id).page key.size)
    (words : datap.Words) (points : PointsInto hand id p hashp datap)
    (writes : (writeKeyDatapToPage key datap id p).Returns hashp r hashp') :
    Placing hand start id₀ p id (pairs ++ [⟨key.bytes, datap⟩]) hashp'
  | elsewhere {id kp ki : Nat} {pairs : List KeyDatap} {val : Dbt} {datap : Datap} {hashp hashp' : Htab} {r : Int}
    (run : Placing hand start id₀ p id pairs hashp) (storable : Storable hashp.hdr.version val.size)
    (slot : kp < 0x100000000 ∧ ki < 0x100000000) (few : Numbered hashp val.size)
    (stores : (storeValue kp ki val (Checksum.crc32Checksum 0 val.bytes)).Returns hashp (r, datap) hashp') :
    Placing hand start id₀ p id pairs hashp'
  | again {id id' : Nat} {pairs : List KeyDatap} {hashp mid hashp' : Htab} {u : Unit}
    (run : Placing hand start id₀ p id pairs hashp) (puts : (putPage id true).Returns hashp u mid)
    (gets : (getPage p hashOvflPage {}).Returns mid (some id', p) hashp') : Placing hand start id₀ p id' pairs hashp'

structure Filled (hand : List Taken) (id p : Nat) (pairs : List KeyDatap) (hashp : Htab) : Prop where
  page : PageSize hashp.hdr.bsize
  data : ∃ ds, HasKeyPage hand id p pairs hashp ds
  stacked : Stacked hashp.hdr.bsize pairs (hashp.mp.bkt id).page

theorem HasData.pageSize (has : HasData hand hashp ds) : PageSize hashp.hdr.bsize := by
  obtain ⟨h₀, s, acc, maps, known, format, laid, aside⟩ := has
  exact known.hdr ▸ laid.page

theorem Fresh.filled (fresh : Fresh hand id p hashp ds) : Filled hand id p [] hashp := by
  obtain ⟨raw, ty, kind, data⟩ := fresh
  have page := data.pageSize
  refine ⟨page, ⟨ds, _, data, keyed_initPage page kind⟩, ?_⟩
  rw [data.page]
  exact stacked_initPage page kind

theorem Filled.add (filled : Filled hand id p pairs hashp)
    (placeable : Placeable hashp.hdr.bsize (hashp.mp.bkt id).page key.size)
    (storable : Storable hashp.hdr.version val.size) (few : Numbered hashp val.size) : ∃ hashp',
      (addItemOnPage id p key val (Checksum.crc32Checksum 0 val.bytes)).Returns hashp 0 hashp' ∧
      Filled hand id p (pairs ++ [⟨key.bytes, (hashp'.mp.bkt id).page.datap pairs.length⟩]) hashp' := by
  obtain ⟨page, ⟨ds, has⟩, stacked⟩ := filled
  have roomy := stacked.roomy page placeable
  obtain ⟨d, hashp', run, has', -, -, size, words, put⟩ := has.add storable roomy few
  have pointer : (hashp'.mp.bkt id).page.datap pairs.length = d.pointer hashp.hdr.version :=
    (has'.keyed.on pairs.length _ List.getElem?_concat_length).datap
  rw [← pointer] at has' words put
  refine ⟨hashp', run, size ▸ page, ⟨_, has'⟩, ?_⟩
  have now := stacked.put page placeable words
  rwa [← put, ← size] at now

theorem Filled.write (filled : Filled hand id p pairs hashp)
    (placeable : Placeable hashp.hdr.bsize (hashp.mp.bkt id).page key.size) (words : datap.Words)
    (points : PointsInto hand id p hashp datap) : ∃ hashp',
      (writeKeyDatapToPage key datap id p).Returns hashp 0 hashp' ∧
      Filled hand id p (pairs ++ [⟨key.bytes, datap⟩]) hashp' := by
  obtain ⟨page, _, stacked⟩ := filled
  have roomy := stacked.roomy page placeable
  obtain ⟨c, left, d, right, data, first, offset⟩ := points
  have has : HasKeyPage hand id p pairs hashp (left ++ d :: right) := ⟨c, data, data.page ▸ stacked.toKeyed⟩
  obtain ⟨hashp', run, hdr, has', put⟩ := has.write roomy words first offset
  refine ⟨hashp', run, hdr ▸ page, ⟨_, has'⟩, ?_⟩
  have now := stacked.put page placeable words
  rwa [← put, ← hdr] at now

theorem Placing.filled {start : Htab} {id₀ : Nat} (fresh : Fresh hand id₀ p start ds)
    (run : Placing hand start id₀ p id pairs hashp) : Filled hand id p pairs hashp := by
  induction run with
  | start => exact fresh.filled
  | add run placeable storable few adds ih =>
    obtain ⟨hashp', again, filled⟩ := ih.add placeable storable few
    obtain ⟨_, rfl⟩ := again.unique adds
    exact filled
  | write run placeable words points writes ih =>
    obtain ⟨hashp', again, filled⟩ := ih.write placeable words points
    obtain ⟨_, rfl⟩ := again.unique writes
    exact filled
  | elsewhere run storable slot few stores ih =>
    obtain ⟨page, ⟨ds, c, data, keyed⟩, stacked⟩ := ih
    obtain ⟨d, datap, hashp', again, data', -, -, -, size⟩ := data.store storable slot few
    obtain ⟨_, rfl⟩ := again.unique stores
    refine ⟨size ▸ page, ⟨_, c, data', size ▸ keyed⟩, ?_⟩
    rwa [size, data'.page, ← data.page]
  | again run puts gets ih =>
    obtain ⟨page, ⟨ds, has⟩, stacked⟩ := ih
    obtain ⟨id', mid, hashp', put, got, has', hdr, same⟩ := has.again
    obtain ⟨_, rfl⟩ := put.unique puts
    obtain ⟨entry, rfl⟩ := got.unique gets
    cases entry
    rw [← hdr] at page stacked
    exact ⟨page, ⟨ds, has'⟩, stacked.agree same⟩

/-- Whichever pairs were put on a page, in whichever order and by whichever function, they lie apart in the
page and are as they were put there; and one more has its place without a wrap. -/
theorem bucket_layout {start : Htab} {id₀ : Nat} (fresh : Fresh hand id₀ p start ds)
    (run : Placing hand start id₀ p id pairs hashp) :
    PairLayout hashp.hdr.bsize pairs (hashp.mp.bkt id).page ∧
    ∀ key : Dbt, Placeable hashp.hdr.bsize (hashp.mp.bkt id).page key.size →
      NoWrap (hashp.mp.bkt id).page key := by
  have filled := run.filled fresh
  exact ⟨filled.stacked.layout filled.page, fun key placeable => filled.stacked.noWrap filled.page placeable⟩

theorem bucket_layout_largest : ∃ id start hashp pair, Placing [] start id 1 id [pair] hashp ∧
    pair.key.length = maxKeysize start.hdr.bsize ∧ PairLayout hashp.hdr.bsize [pair] (hashp.mp.bkt id).page := by
  obtain ⟨id, start, raw, data, hdr, number⟩ := initPage_newTable
  have fresh : Fresh [] id 1 start [] := ⟨raw, hashBucketPage, .inl rfl, hdr.symm ▸ data⟩
  obtain ⟨key, size⟩ : ∃ key : Dbt, key.size = maxKeysize newTable.hdr.bsize := ⟨⟨fun _ => 7, _⟩, rfl⟩
  have placeable : Placeable start.hdr.bsize (start.mp.bkt id).page key.size := by
    refine .inr ⟨?_, ?_⟩
    · rw [data.page]
      exact numEnt_initPage _ _ _ _
    · rw [size, hdr]
  have storable : Storable start.hdr.version (Dbt.ofBytes [9]).size := .inl (by decide)
  have few : Numbered start (Dbt.ofBytes [9]).size := by
    rw [Numbered, number, hdr]
    decide
  obtain ⟨hashp, adds, -⟩ := fresh.filled.add placeable storable few
  have run : Placing [] start id 1 id [⟨key.bytes, (hashp.mp.bkt id).page.datap 0⟩] hashp :=
    .add .start placeable storable few adds
  refine ⟨id, start, hashp, _, run, ?_, (bucket_layout fresh run).1⟩
  rw [hdr, ← size]
  exact key.length_bytes

end Runs

end FileHash.Htab
