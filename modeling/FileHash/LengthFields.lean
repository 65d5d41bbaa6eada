import FileHash.AddedPairs

/-! The length of a datum stands in the pointer beside its key and in the header in front of its
bytes, each in two words. `_ffdb_replace_data` writes both words of the header; the high bits of the
pointer are written only for a value that has some, and stay behind when it has none. -/
namespace FileHash.Htab

open Lib (Prog)
open Lib.Prog (Wp wp_bind wp_pure wp_mono)
open Page

variable {hashp hashp' : Htab} {p id id' bsize n first last : Nat} {hand : List Taken} {ds : List Datum}
  {val key : Dbt} {pairs : List KeyDatap} {pair : KeyDatap} {c : Page} {d : Datum}

/-- The table has the data `ds`, and the thread a key page with these pairs. -/
def HasKeyPage (hand : List Taken) (id p : Nat) (pairs : List KeyDatap) (hashp : Htab) (ds : List Datum) : Prop :=
  ∃ c, HasData (⟨id, p, c⟩ :: hand) hashp ds ∧ Keyed hashp.hdr.bsize pairs c

theorem HasData.page (has : HasData (⟨id, p, c⟩ :: hand) hashp ds) : (hashp.mp.bkt id).page = c := by
  obtain ⟨h₀, s, acc, maps, known, _⟩ := has
  exact (known.hands _ List.mem_cons_self).2.2.2

theorem HasKeyPage.keyed (has : HasKeyPage hand id p pairs hashp ds) :
    Keyed hashp.hdr.bsize pairs (hashp.mp.bkt id).page := by
  obtain ⟨c, data, keyed⟩ := has
  rwa [data.page]

theorem HasKeyPage.add (has : HasKeyPage hand id p pairs hashp ds) (storable : Storable hashp.hdr.version val.size)
    (roomy : Roomy (hashp.mp.bkt id).page key.size) (few : Numbered hashp val.size) : ∃ d hashp',
      (addItemOnPage id p key val (Checksum.crc32Checksum 0 val.bytes)).Returns hashp 0 hashp' ∧
      HasKeyPage hand id p (pairs ++ [⟨key.bytes, d.pointer hashp.hdr.version⟩]) hashp' (d :: ds) ∧
      Added p pairs.length val d ∧ hashp'.hdr.version = hashp.hdr.version ∧ hashp'.hdr.bsize = hashp.hdr.bsize ∧
      (d.pointer hashp.hdr.version).Words ∧ (hashp'.mp.bkt id).page = putDatap (hashp.mp.bkt id).page.numEnt
        (slotOff (hashp.mp.bkt id).page key) (d.pointer hashp.hdr.version) (putKey key (hashp.mp.bkt id).page) := by
  obtain ⟨c, data, keyed⟩ := has
  rw [data.page] at roomy ⊢
  obtain ⟨h₀, s, acc, maps, known, format, laid, aside⟩ := data
  rw [Numbered, nextNumber_eq known laid, known.hdr] at few
  rw [known.hdr] at storable keyed ⊢
  have adds : Wp (fun _ => True) (addItemOnPage id p key val (Checksum.crc32Checksum 0 val.bytes)) hashp fun r hashp' =>
      r = 0 ∧ ∃ d, HasKeyPage hand id p (pairs ++ [⟨key.bytes, d.pointer h₀.hdr.version⟩]) hashp' (d :: ds) ∧
        Added p pairs.length val d ∧ hashp'.hdr.version = h₀.hdr.version ∧ hashp'.hdr.bsize = h₀.hdr.bsize ∧
        (d.pointer h₀.hdr.version).Words ∧ (hashp'.mp.bkt id).page =
          putDatap c.numEnt (slotOff c key) (d.pointer h₀.hdr.version) (putKey key c) := by
    refine wp_addItemOnPage known laid format storable aside few
      fun h₁ s' acc' maps' d hashp' onward _ laid' added pages words _ known' => ?_
    obtain ⟨size, version, flag⟩ := onward.renumbered.facts
    have format' : Format h₁.hdr.version h₁.dataValidFlag := by
      rw [version, flag]
      exact format
    have data' : HasData (⟨id, p, putDatap c.numEnt (slotOff c key) (d.pointer h₀.hdr.version) (putKey key c)⟩ :: hand)
        hashp' (d :: ds) := ⟨h₁, s', acc', maps', known', format', laid', (aside.onward known onward pages).page _⟩
    refine ⟨rfl, d, ⟨_, data', ?_⟩, keyed.count ▸ added, ?_, ?_, words, data'.page⟩
    · rw [known'.hdr, size]
      exact keyed.put laid.page.most roomy words
    · rw [known'.hdr, version]
    · rw [known'.hdr, size]
  obtain ⟨_, hashp', run, rfl, d, rest⟩ := adds fun _ _ => trivial
  exact ⟨d, hashp', run, rest⟩

theorem HasKeyPage.replace {left right : List Datum} {chksum : Nat}
    (has : HasKeyPage hand id p pairs hashp (left ++ d :: right)) (storable : Storable hashp.hdr.version val.size)
    (slot : pairs[n]? = some pair) (first : pair.datap.first = d.first)
    (offset : dataOffset hashp.hdr.version pair.datap = d.roff) (shorter : val.size ≤ d.bytes.length)
    (accepted : val.size ≤ dataLen hashp.hdr.version pair.datap) (sum : chksum < 0x100000000) :
    ∃ hashp', (replaceItemOnPage id n val chksum).Returns hashp 0 hashp' ∧
      HasKeyPage hand id p (pairs.set n ⟨pair.key, renewedDatap hashp.hdr.version val chksum pair.datap⟩) hashp'
        (left ++ d.renewed val :: right) ∧ hashp'.hdr = hashp.hdr := by
  obtain ⟨c, ⟨h₀, s, acc, maps, known, format, laid, aside⟩, keyed⟩ := has
  have mine : d ∈ left ++ d :: right := by simp
  rw [known.hdr] at storable offset accepted keyed ⊢
  have replaces : Wp (fun _ => True) (replaceItemOnPage id n val chksum) hashp fun r hashp' =>
      r = 0 ∧ HasKeyPage hand id p (pairs.set n ⟨pair.key, renewedDatap h₀.hdr.version val chksum pair.datap⟩) hashp'
        (left ++ d.renewed val :: right) ∧ hashp'.hdr = h₀.hdr := by
    refine wp_replaceItemOnPage known laid format storable aside keyed slot mine first offset shorter accepted sum
      fun acc' c' hashp' replaced keyed' _ known' => ?_
    have fits : val.size ≤ d.size := shorter.trans (laid.placed d mine).fits
    refine ⟨rfl, ⟨c', ⟨h₀, s, acc', maps, known', format, laid.renew fits replaced, ?_⟩, ?_⟩, known'.hdr⟩
    · have aside' := aside.page c'
      exact ⟨aside'.cur, aside'.free,
        forall_mem_renewed (fun e mem => aside'.data e (mem_others mem)) (aside'.data d mine)⟩
    · rw [known'.hdr]
      exact keyed'
  obtain ⟨_, hashp', run, rfl, rest⟩ := replaces fun _ _ => trivial
  exact ⟨hashp', run, rest⟩

section Length

variable {datap : Datap} {chksum : Nat}

/-- The words of the pointer of a datum that was added with length `first` and has length `last` now. -/
structure Steps (p n first last : Nat) (d : Datum) (datap : Datap) : Prop where
  keyPage : d.keyPage = p
  keyIdx : d.keyIdx = n
  length : d.bytes.length = last
  least : last ≤ first
  most : first ≤ ffdbMaxDatasize
  page : datap.first = d.first
  offset : getPgoffset datap.offset = d.roff
  len : datap.len = u32 last
  high : (isHugeData first = true → isHugeData last = true) → getLenFromPgoffset datap.offset = dlenHighBits last
  stale : isHugeData first = true → isHugeData last = false → getLenFromPgoffset datap.offset ≠ 0

theorem getLen_insert {size o : Nat} : getLenFromPgoffset (insertLenToPgoffset size o) = dlenHighBits size := by
  simp only [getLenFromPgoffset, insertLenToPgoffset, dlenHighBits]
  omega

theorem dlenHighBits_small {size : Nat} (small : isHugeData size = false) : dlenHighBits size = 0 := by
  simp only [isHugeData, decide_eq_false_iff_not, dlenHighBits] at *
  omega

theorem dlenHighBits_huge {size : Nat} (huge : isHugeData size = true) (most : size ≤ ffdbMaxDatasize) :
    dlenHighBits size ≠ 0 := by
  simp only [isHugeData, decide_eq_true_eq, dlenHighBits, ffdbMaxDatasize] at *
  omega

theorem Steps.added (added : Added p n val d) (most : val.size ≤ ffdbMaxDatasize) (low : d.roff < 0x100000) :
    Steps p n val.size val.size d (d.pointer ffdbVersion) where
  keyPage := added.keyPage
  keyIdx := added.keyIdx
  length := by rw [added.bytes, val.length_bytes]
  least := le_rfl
  most := most
  page := rfl
  offset := getPgoffset_insert.trans (getPgoffset_low low)
  len := by rw [Datum.pointer, added.bytes, val.length_bytes]
  high _ := getLen_insert.trans (by rw [added.bytes, val.length_bytes])
  stale huge small := by
    rw [huge] at small
    cases small

theorem Steps.replaced (h : Steps p n first last d datap) (shorter : val.size ≤ last) :
    Steps p n first val.size (d.renewed val) (renewedDatap ffdbVersion val chksum datap) := by
  have least := h.least
  have most := h.most
  have offset : (renewedDatap ffdbVersion val chksum datap).offset =
      if isHugeData val.size = true then insertLenToPgoffset val.size datap.offset else datap.offset := by
    rw [renewedDatap, show decide (ffdbVersion5 < ffdbVersion) = true by decide, Bool.true_and]
  have down : isHugeData val.size = true → isHugeData last = true := by
    simp only [isHugeData, decide_eq_true_eq]
    omega
  refine ⟨h.keyPage, h.keyIdx, val.length_bytes, shorter.trans least, most, h.page, ?_, rfl, fun keeps => ?_,
    fun huge small => ?_⟩
  · rw [offset]
    split_ifs
    · exact getPgoffset_insert.trans h.offset
    · exact h.offset
  · rw [offset]
    split_ifs with huge
    · exact getLen_insert
    · have never : isHugeData first ≠ true := fun huge' => huge (keeps huge')
      have none : isHugeData last = false := by
        simp only [isHugeData, ne_eq, decide_eq_true_eq, decide_eq_false_iff_not] at never ⊢
        omega
      rw [h.high fun huge' => absurd huge' never, dlenHighBits_small none,
        dlenHighBits_small (Bool.not_eq_true _ ▸ huge)]
  · rw [offset, if_neg (by rw [small]; decide)]
    by_cases was : isHugeData last = true
    · rw [h.high fun _ => was]
      exact dlenHighBits_huge was (least.trans most)
    · exact h.stale huge (Bool.not_eq_true _ ▸ was)

theorem Steps.decoded (h : Steps p n first last d datap) : last ≤ dataLen ffdbVersion datap ∧
    (dataLen ffdbVersion datap = last ↔ (isHugeData first = true → isHugeData last = true)) := by
  have least := h.least
  have most := h.most
  rw [dataLen, if_pos (by decide), realDataLen, h.len]
  by_cases keeps : isHugeData first = true → isHugeData last = true
  · have same := h.high keeps
    simp only [dlenHighBits, ffdbMaxDatasize, u32] at *
    exact ⟨by omega, fun _ => keeps, fun _ => by omega⟩
  · obtain ⟨huge, small⟩ := Classical.not_imp.mp keeps
    have some := h.stale huge (Bool.not_eq_true _ ▸ small)
    simp only [isHugeData, decide_eq_true_eq, u32] at *
    refine ⟨by omega, fun same => ?_, fun keeps' => absurd (keeps' huge) small⟩
    omega

theorem DataLaid.elsewhere {h₀ : Htab} {s : Nat} {acc acc' : Account} {maps : FreeMap}
    (laid : DataLaid h₀ s acc maps ds) (same : ∀ q c, q ≠ p → acc'.holds q c → acc.holds q c)
    (cur : p ≠ h₀.currDpage) (free : p ∉ maps.pages) (data : ∀ d ∈ ds, p ∉ d.all) : DataLaid h₀ s acc' maps ds where
  page := laid.page
  pos := laid.pos
  stock := ⟨laid.stock.head, laid.stock.onPages.congr fun q c listed => same q c fun here => free (here ▸ listed),
    laid.stock.nodup, laid.stock.bound⟩
  placed := laid.placed
  on d mem q memq c told := laid.on d mem q memq c (same q c (fun here => data d mem (here ▸ memq)) told)
  used := laid.used
  apart := laid.apart
  current := laid.current.imp_right fun current =>
    { current with opens := fun c told => current.opens c (same _ c (fun here => cur here.symm) told) }

theorem HasKeyPage.again (has : HasKeyPage hand id p pairs hashp ds) : ∃ id' mid hashp',
    (putPage id true).Returns hashp () mid ∧ (getPage p hashOvflPage {}).Returns mid (some id', p) hashp' ∧
      HasKeyPage hand id' p pairs hashp' ds ∧ hashp'.hdr = hashp.hdr ∧
      Agree (hashp'.mp.bkt id').page (hashp.mp.bkt id).page := by
  obtain ⟨c, data, keyed⟩ := has
  have here := data.page
  obtain ⟨h₀, s, acc, maps, known, format, laid, aside⟩ := data
  have low := known.hand_lt (p := p) List.mem_cons_self
  have out : p ∉ numbers hand := (List.nodup_cons.mp known.distinct).1
  have mine : p ∈ numbers (⟨id, p, c⟩ :: hand) := List.mem_cons_self
  have laid' : DataLaid h₀ s (acc.set p c) maps ds := laid.elsewhere (fun q c ne => (Account.set_other ne).mp)
    (fun same => aside.cur (same ▸ mine)) (fun listed => aside.free p listed mine) fun d on listed =>
      aside.data d on p listed mine
  have puts : Wp (fun _ => True) (putPage id true) hashp fun _ mid => Knows h₀ s (acc.set p c) hand mid :=
    wp_putDirty known keyed.signed fun mid known' => known'
  obtain ⟨_, mid, put, known'⟩ := puts fun _ _ => trivial
  have gets : Wp (fun _ => True) (getPage p hashOvflPage {}) mid fun r hashp' => r.2 = p ∧ ∃ id' c', r.1 = some id' ∧
      Agree c' c ∧ Knows h₀.loosened s (acc.set p c) (⟨id', p, c'⟩ :: hand) hashp' :=
    wp_get known'.loosen out (fun idle => absurd idle not_idle_loosened) low (by decide)
      fun id' c' hashp' known'' told =>
      ⟨rfl, id', c', rfl, Account.set_same.mp told, known''⟩
  obtain ⟨⟨_, q⟩, hashp', got, number, id', c', rfl, same, known''⟩ := gets fun _ _ => trivial
  obtain rfl : p = q := number.symm
  have data' : HasData (⟨id', p, c'⟩ :: hand) hashp' ds :=
    ⟨h₀.loosened, s, _, maps, known'', format, laid'.alike alike_loosened, aside.cur, aside.free, aside.data⟩
  refine ⟨id', mid, hashp', put, got, ⟨c', data', ?_⟩, known''.hdr.trans known.hdr.symm, ?_⟩
  · rw [show hashp'.hdr = hashp.hdr from known''.hdr.trans known.hdr.symm]
    exact keyed.agree same
  · rw [data'.page, here]
    exact same

/-- From a table with a key page in hand: a pair is added as pair `n` of page `p` with a value of
length `first`; in any order it is replaced by values that are not longer, other pairs are added to the
page, values are stored for other pages, and the page goes back to the pool and is fetched again. -/
inductive LengthRun (start : Htab) (id₀ p n : Nat) : Nat → Nat → Nat → Htab → Prop
  | add {key val : Dbt} {hashp : Htab} (count : (start.mp.bkt id₀).page.numEnt = n)
    (roomy : Roomy (start.mp.bkt id₀).page key.size) (most : val.size ≤ ffdbMaxDatasize) (few : Numbered start val.size)
    (adds : (addItemOnPage id₀ p key val (Checksum.crc32Checksum 0 val.bytes)).Returns start 0 hashp) :
    LengthRun start id₀ p n id₀ val.size val.size hashp
  | replace {id first last chksum : Nat} {val : Dbt} {hashp hashp' : Htab}
      (run : LengthRun start id₀ p n id first last hashp)
    (shorter : val.size ≤ last) (sum : chksum < 0x100000000)
    (replaces : (replaceItemOnPage id n val chksum).Returns hashp 0 hashp') :
    LengthRun start id₀ p n id first val.size hashp'
  | another {id first last : Nat} {key val : Dbt} {hashp hashp' : Htab}
      (run : LengthRun start id₀ p n id first last hashp)
    (roomy : Roomy (hashp.mp.bkt id).page key.size) (most : val.size ≤ ffdbMaxDatasize) (few : Numbered hashp val.size)
    (adds : (addItemOnPage id p key val (Checksum.crc32Checksum 0 val.bytes)).Returns hashp 0 hashp') :
    LengthRun start id₀ p n id first last hashp'
  | elsewhere {id first last kp ki : Nat} {val : Dbt} {datap : Datap} {hashp hashp' : Htab}
    (run : LengthRun start id₀ p n id first last hashp) (most : val.size ≤ ffdbMaxDatasize)
    (slot : kp < 0x100000000 ∧ ki < 0x100000000) (few : Numbered hashp val.size)
    (stores : (storeValue kp ki val (Checksum.crc32Checksum 0 val.bytes)).Returns hashp (0, datap) hashp') :
    LengthRun start id₀ p n id first last hashp'
  | again {id id' first last : Nat} {hashp mid hashp' : Htab} (run : LengthRun start id₀ p n id first last hashp)
    (puts : (putPage id true).Returns hashp () mid) (gets : (getPage p hashOvflPage {}).Returns mid
      (some id', p) hashp') :
    LengthRun start id₀ p n id' first last hashp'

def InRun (hand : List Taken) (p n id first last : Nat) (hashp : Htab) : Prop :=
  ∃ pairs pair left right d, HasKeyPage hand id p pairs hashp (left ++ d :: right) ∧ hashp.hdr.version = ffdbVersion ∧
    pairs[n]? = some pair ∧ Steps p n first last d pair.datap

theorem storable_six {version size : Nat} (six : version = ffdbVersion) (most : size ≤ ffdbMaxDatasize) :
    Storable version size := .inr ⟨six ▸ by decide, most⟩

theorem InRun.replace {chksum : Nat} (h : InRun hand p n id first last hashp) (shorter : val.size ≤ last)
    (sum : chksum < 0x100000000) : ∃ hashp', (replaceItemOnPage id n val chksum).Returns hashp 0 hashp' ∧
      InRun hand p n id first val.size hashp' := by
  obtain ⟨pairs, pair, left, right, d, has, version, slot, steps⟩ := h
  have most := shorter.trans (steps.least.trans steps.most)
  have offset : dataOffset ffdbVersion pair.datap = d.roff := (if_pos (by decide)).trans steps.offset
  have accepted := shorter.trans steps.decoded.1
  rw [← version] at offset accepted
  obtain ⟨hashp', run, has', hdr⟩ := has.replace (storable_six version most) slot steps.page offset
    (steps.length ▸ shorter) accepted sum
  rw [version] at has'
  exact ⟨hashp', run, _, _, left, right, _, has', hdr ▸ version,
    List.getElem?_set_self (List.getElem?_eq_some_iff.mp slot).1, steps.replaced shorter⟩

theorem LengthRun.holds {start : Htab} (has : HasKeyPage hand id p pairs start ds)
    (six : start.hdr.version = ffdbVersion) (run : LengthRun start id p n id' first last hashp) :
    InRun hand p n id' first last hashp := by
  induction run with
  | add count roomy most few adds =>
    obtain ⟨d, hashp', again, has', added, version, -⟩ := has.add (storable_six six most) roomy few
    obtain ⟨_, rfl⟩ := again.unique adds
    have slot : pairs.length = n := has.keyed.count.symm.trans count
    subst slot
    refine ⟨_, _, [], ds, d, has', version.trans six, List.getElem?_concat_length, ?_⟩
    obtain ⟨c, ⟨h₀, s, acc, maps, known, format, laid, aside⟩, _⟩ := has'
    rw [six]
    refine Steps.added added most ?_
    have high := (laid.placed d List.mem_cons_self).high
    have size := laid.page.most
    simp only [maxBsize, bigDataOverhead] at *
    omega
  | replace run shorter sum replaces ih =>
    obtain ⟨hashp', again, holds⟩ := ih.replace shorter sum
    obtain ⟨_, rfl⟩ := again.unique replaces
    exact holds
  | another run roomy most few adds ih =>
    obtain ⟨pairs, pair, left, right, d, has', version, slot, steps⟩ := ih
    obtain ⟨d', hashp', again, has'', _, same, -⟩ := has'.add (storable_six version most) roomy few
    obtain ⟨_, rfl⟩ := again.unique adds
    exact ⟨_, pair, d' :: left, right, d, has'', same.trans version,
      (List.getElem?_append_left (List.getElem?_eq_some_iff.mp slot).1).trans slot, steps⟩
  | elsewhere run most slots few stores ih =>
    obtain ⟨pairs, pair, left, right, d, ⟨c, data, keyed⟩, version, slot, steps⟩ := ih
    obtain ⟨d', datap, hashp', again, data', _, _, same, size⟩ := data.store (storable_six version most) slots few
    obtain ⟨_, rfl⟩ := again.unique stores
    exact ⟨pairs, pair, d' :: left, right, d, ⟨c, data', size ▸ keyed⟩, same.trans version, slot, steps⟩
  | again run puts gets ih =>
    obtain ⟨pairs, pair, left, right, d, has', rest⟩ := ih
    obtain ⟨id', mid, hashp', put, got, has'', hdr, -⟩ := has'.again
    obtain ⟨_, rfl⟩ := put.unique puts
    obtain ⟨entry, rfl⟩ := got.unique gets
    cases entry
    exact ⟨pairs, pair, left, right, d, has'', hdr ▸ rest⟩

/-- Pointer and header of pair `n` of page `p` both tell this length; the offset finds the header, and the
header is marked valid. -/
structure InStep (hashp : Htab) (p n size : Nat) (datap : Datap) : Prop where
  pointer : realDataLen datap.len datap.offset = size
  header : ∀ c, hashp.mp.Shows datap.first c →
    realDataLen (c.readHeader (getPgoffset datap.offset)).len (c.readHeader (getPgoffset datap.offset)).status = size
  located : ∀ c, hashp.mp.Shows datap.first c → (c.readHeader (getPgoffset datap.offset)).keyPage = p ∧
    (c.readHeader (getPgoffset datap.offset)).keyIdx = n
  status : ∀ c, hashp.mp.Shows datap.first c →
    getPgoffset (c.readHeader (getPgoffset datap.offset)).status = hashp.dataValidFlag

/-- After any such run, header and pointer tell the length of the last value if and only if the value was
not huge when it was added or is still. -/
theorem lengths_in_step {start : Htab} (has : HasKeyPage hand id p pairs start ds)
    (six : start.hdr.version = ffdbVersion) (run : LengthRun start id p n id' first last hashp) :
    InStep hashp p n last ((hashp.mp.bkt id').page.datap n) ↔ (isHugeData first = true → isHugeData last = true) := by
  obtain ⟨pairs, pair, left, right, d, has', version, slot, steps⟩ := run.holds has six
  have pointer : (hashp.mp.bkt id').page.datap n = pair.datap := (has'.keyed.on n pair slot).datap
  obtain ⟨c, data, _⟩ := has'
  obtain ⟨place, lies⟩ := data.lies (d := d) (by simp)
  have heads : ∀ c, hashp.mp.Shows pair.datap.first c →
      d.Heads ffdbVersion hashp.dataValidFlag (c.readHeader (getPgoffset pair.datap.offset)) := by
    intro c shows
    rw [steps.page] at shows
    rw [steps.offset, ← version]
    exact ((lies d.first List.mem_cons_self c shows).head rfl).2.2
  rw [pointer, ← steps.decoded.2, dataLen, if_pos (by decide)]
  refine ⟨InStep.pointer, fun same => ⟨same, fun c shows => ?_, fun c shows => ?_, fun c shows => ?_⟩⟩
  · have len := (heads c shows).len
    rw [Datum.headerLen, if_pos (by decide), steps.length] at len
    exact len
  · exact ⟨(heads c shows).keyPage.trans steps.keyPage, (heads c shows).keyIdx.trans steps.keyIdx⟩
  · have status := (heads c shows).status
    rwa [Datum.headerStatus, if_pos (by decide)] at status

theorem knows_newTable : Knows newTable 5 .any [] newTable := by
  refine knows_tableOf (fun _ => rfl) rfl (fun n => ?_) (Nat.zero_le _) (by decide)
  rw [show (⟨0, fun _ _ => 0⟩ : Pagefile).read n = fun _ => 0 from if_neg (Nat.not_lt_zero n)]
  exact filters_native.in_zero n

theorem fetches_newTable : Wp (fun _ => True) (do
    let r ← getPage 1 hashOvflPage {}
    match r.1 with
    | none => pure 0
    | some id =>
      initPage id 1 hashBucketPage
      pure id) newTable fun id t =>
        ∃ c, Knows newTable 5 .any [⟨id, 1, FileHash.initPage newTable.hdr.bsize c 1 hashBucketPage⟩] t := by
  refine wp_bind (wp_get knows_newTable List.not_mem_nil (fun _ => by decide) (by decide) (by decide)
    fun id c mid known' _ => ?_)
  exact wp_bind (wp_initPage known' 1 hashBucketPage fun t known'' => wp_pure ⟨c, known''⟩)

theorem initPage_newTable : ∃ id t raw,
    HasData [⟨id, 1, FileHash.initPage newTable.hdr.bsize raw 1 hashBucketPage⟩] t [] ∧
      t.hdr = newTable.hdr ∧ nextNumber t = 5 := by
  have size : PageSize newTable.hdr.bsize := ⟨by decide, by decide, by decide⟩
  have laid : DataLaid newTable 5 .any [] [] := laid_tableOf size
    (show (initHdr twoBuckets 4096 12).spares ((initHdr twoBuckets 4096 12).ovflPoint + 1) = 0 by decide +kernel) rfl
    (show u32 ((initHdr twoBuckets 4096 12).bucketToPage (initHdr twoBuckets 4096 12).highMask + 1) = 5 by
      decide +kernel) (by decide)
  obtain ⟨id, t, _, c, known'⟩ := fetches_newTable fun _ _ => trivial
  have aside : Aside newTable [] [] [⟨id, 1, FileHash.initPage newTable.hdr.bsize c 1 hashBucketPage⟩] := by
    refine ⟨fun mem => ?_, fun _ mem => absurd mem List.not_mem_nil, fun _ mem => absurd mem List.not_mem_nil⟩
    exact absurd (List.mem_singleton.mp mem) (show ¬newTable.currDpage = 1 by decide)
  exact ⟨id, t, c, ⟨newTable, 5, .any, [], known', format_tableOf (.inr rfl), laid, aside⟩, known'.hdr,
    nextNumber_eq known' laid⟩

theorem keyPage_newTable : ∃ id t, HasKeyPage [] id 1 [] t [] ∧ Roomy (t.mp.bkt id).page 1 ∧
    t.hdr = newTable.hdr ∧ nextNumber t = 5 := by
  obtain ⟨id, t, raw, data, hdr, number⟩ := initPage_newTable
  have size : PageSize newTable.hdr.bsize := ⟨by decide, by decide, by decide⟩
  refine ⟨id, t, ⟨_, data, ?_⟩, ?_, hdr, number⟩
  · rw [hdr]
    exact keyed_initPage size (.inl rfl)
  · rw [data.page, Roomy, numEnt_initPage, offset_initPage_bucket (by decide) (.inl rfl)]
    decide

/-- A run in which the value added has `first` bytes, and the one that replaces it `last`. -/
theorem run_newTable {first last : Nat} (shorter : last ≤ first) (most : first ≤ ffdbMaxDatasize)
    (few : 5 + first / (newTable.hdr.bsize - bigPageOverhead) + 4 < maxPageNumber) :
    ∃ id start t, HasKeyPage [] id 1 [] start [] ∧ start.hdr.version = ffdbVersion ∧
      LengthRun start id 1 0 id first last t := by
  obtain ⟨id, start, has, roomy, hdr, number⟩ := keyPage_newTable
  have six : start.hdr.version = ffdbVersion := by rw [hdr]; rfl
  have roomy : Roomy (start.mp.bkt id).page (Dbt.ofBytes [7]).size := roomy
  have numbered : Numbered start (⟨fun _ => 0, first⟩ : Dbt).size := by
    rw [Numbered, number, hdr]
    exact few
  obtain ⟨d, mid, adds, _⟩ := has.add (storable_six six most) roomy numbered
  have run : LengthRun start id 1 0 id first first mid := .add has.keyed.count roomy most numbered adds
  have word : (0 : Nat) < 0x100000000 := by decide
  have value : (⟨fun _ => 0, last⟩ : Dbt).size ≤ first := shorter
  obtain ⟨t, replaces, _⟩ := (run.holds has six).replace value word
  exact ⟨id, start, t, has, six, .replace run shorter word replaces⟩

theorem lengths_in_step_two : ∃ id start t, LengthRun start id 1 0 id 5 2 t ∧
    (InStep t 1 0 2 ((t.mp.bkt id).page.datap 0) ↔ (isHugeData 5 = true → isHugeData 2 = true)) := by
  obtain ⟨id, start, t, has, six, run⟩ := run_newTable (show 2 ≤ 5 by decide) (by decide) (by decide)
  exact ⟨id, start, t, run, lengths_in_step has six run⟩

/-- A value of `2 ^ 32` bytes is replaced by an empty one: the pointer goes on to tell the old length. -/
theorem lengths_out_of_step : ∃ id start t, HasKeyPage [] id 1 [] start [] ∧ start.hdr.version = ffdbVersion ∧
    LengthRun start id 1 0 id 0x100000000 0 t ∧ ¬InStep t 1 0 0 ((t.mp.bkt id).page.datap 0) := by
  obtain ⟨id, start, t, has, six, run⟩ := run_newTable (show 0 ≤ 0x100000000 by decide) (by decide) (by decide)
  exact ⟨id, start, t, has, six, run, fun holds => absurd ((lengths_in_step has six run).mp holds (by decide))
    (by decide)⟩

end Length

end FileHash.Htab
