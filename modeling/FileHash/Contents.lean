import FileHash.BucketPages
import FileHash.PoolReaders
import Mathlib.Data.List.Nodup
import Mathlib.Data.List.Perm.Subperm

/-! What the pages of a database say, and that a call which only reads finds it. An
`Image` is the static picture: the chain of pages of each bucket, the pairs on them and
the pages their data are spelled on. A table serves an image when its page pool shows
nothing else, and reading keeps it so. -/
namespace FileHash

open Lib (Prog)
open Page

namespace Agree

variable {a b : Page} {n x : Nat}

theorem currPgno (h : Agree a b) : a.currPgno = b.currPgno := h.read32 (by omega)

theorem nextPgno (h : Agree a b) : a.nextPgno = b.nextPgno := h.read32 (by omega)

theorem numEnt (h : Agree a b) : a.numEnt = b.numEnt := h.read16 (by omega)

theorem drop_bytes (h : Agree a b) (low : chksumOffset ≤ x) :
    (Lib.Mem.drop a x).bytes n = (Lib.Mem.drop b x).bytes n :=
  Lib.Mem.bytes_congr fun _ _ => h _ (.inr (by omega))

theorem keyOff (h : Agree a b) : a.keyOff n = b.keyOff n :=
  h.read32 (.inr (by simp only [pageOverhead]; omega))

theorem keyLen (h : Agree a b) : a.keyLen n = b.keyLen n :=
  h.read32 (.inr (by simp only [pageOverhead]; omega))

theorem datapOff (h : Agree a b) : a.datapOff n = b.datapOff n :=
  h.read32 (.inr (by simp only [pageOverhead]; omega))

theorem datap (h : Agree a b) (low : chksumOffset ≤ b.datapOff n) : a.datap n = b.datap n := by
  simp only [chksumOffset] at low
  simp only [Page.datap, readDatap, h.datapOff]
  rw [h.read32 (.inr low), h.read32 (by omega), h.read32 (by omega), h.read32 (by omega)]

theorem readHeader (h : Agree a b) (low : chksumOffset ≤ x) : a.readHeader x = b.readHeader x := by
  simp only [chksumOffset] at low
  simp only [Page.readHeader]
  rw [h.read32 (.inr low), h.read32 (by omega), h.read32 (by omega), h.read32 (by omega),
    h.read32 (by omega)]

theorem key_bytes (h : Agree a b) (low : chksumOffset ≤ b.keyOff n) :
    (a.key n).bytes = (b.key n).bytes := by
  simp only [Page.key, Dbt.bytes, h.keyOff, h.keyLen]
  exact h.drop_bytes low

end Agree

theorem numEnt_initPage (bsize : Nat) (p : Page) (n ty : Nat) :
    (initPage bsize p n ty).numEnt = 0 := by
  simp only [initPage, numEnt, setType, setOffset, setFirstDataPos, setUserDataLen, setChksum, setNumEnt]
  split_ifs <;>
    simp (disch := omega) only [Lib.Mem.read16_write16, Lib.Mem.read16_write32,
      Lib.Mem.read16_write16_same]

/-- `len` bytes from `start` of page `p` on, and from the top of the pages behind it. -/
inductive Spells (bsize : Nat) (view : Nat → Page) (data : Nat → Prop) :
    Nat → Nat → Nat → List UInt8 → Prop
  | last {p start len : Nat} (on : data p) (low : chksumOffset ≤ start) (fits : start + len ≤ bsize) :
      Spells bsize view data p start len ((Lib.Mem.drop (view p) start).bytes len)
  | more {p start len : Nat} {rest : List UInt8} (on : data p) (low : chksumOffset ≤ start)
      (inside : start ≤ bsize) (long : bsize < start + len)
      (tail : Spells bsize view data (view p).nextPgno bigPageOverhead (len - (bsize - start)) rest) :
      Spells bsize view data p start len
        ((Lib.Mem.drop (view p) start).bytes (bsize - start) ++ rest)

theorem Spells.length {bsize p start len : Nat} {view : Nat → Page} {data : Nat → Prop}
    {bytes : List UInt8} (h : Spells bsize view data p start len bytes) : bytes.length = len := by
  induction h with
  | last => simp
  | more on low inside long tail ih =>
    rw [List.length_append, Lib.Mem.length_bytes, ih]
    omega

/-- The pages behind `p` in a chain, down to the one without successor. -/
inductive Follow (view : Nat → Page) : Nat → List Nat → Prop
  | last {p : Nat} (none : (view p).nextPgno = invalidPgno) : Follow view p []
  | next {p q : Nat} {l : List Nat} (link : (view p).nextPgno = q) (some : q ≠ invalidPgno)
      (rest : Follow view q l) : Follow view p (q :: l)

theorem Follow.drop {view : Nat → Page} {p q : Nat} {pre post l : List Nat} (h : Follow view p l)
    (split : p :: l = pre ++ q :: post) : Follow view q post := by
  induction h generalizing pre with
  | last none =>
    cases pre with
    | nil =>
      cases split
      exact .last none
    | cons a pre => simp at split
  | next link some rest ih =>
    cases pre with
    | nil =>
      cases split
      exact .next link some rest
    | cons a pre =>
      rw [List.cons_append, List.cons.injEq] at split
      exact ih split.2

theorem Follow.unique {view : Nat → Page} {p : Nat} {l l' : List Nat} (h : Follow view p l)
    (h' : Follow view p l') : l = l' := by
  induction h generalizing l' with
  | last none =>
    cases h' with
    | last => rfl
    | next link some => exact absurd (link.symm.trans none) some
  | next link some rest ih =>
    cases h' with
    | last none => exact absurd (link.symm.trans none) some
    | next link' some' rest' =>
      obtain rfl := link.symm.trans link'
      rw [ih rest']

theorem Follow.nodup {view : Nat → Page} {p : Nat} {l : List Nat} (h : Follow view p l) : (p :: l).Nodup := by
  induction h with
  | last => exact List.nodup_singleton _
  | @next p q l link some rest ih =>
    refine List.nodup_cons.mpr ⟨fun mem => ?_, ih⟩
    obtain ⟨pre, post, split⟩ := List.append_of_mem mem
    have whole : Follow view p (q :: l) := .next link some rest
    have again : Follow view p post := whole.drop (show p :: q :: l = (p :: pre) ++ p :: post by rw [split]; rfl)
    have size := congrArg List.length (whole.unique again)
    rw [split, List.length_append, List.length_cons] at size
    omega

theorem Follow.length_lt {view : Nat → Page} {p : Nat} {l : List Nat} (h : Follow view p l) :
    l.length < Htab.pageFuel := by
  have small : ∀ q ∈ l, q ∈ List.range invalidPgno := by
    induction h with
    | last => exact fun _ mem => absurd mem List.not_mem_nil
    | @next p q l link some rest ih =>
      have word := Lib.Mem.read32_lt (m := view p) (a := 8)
      have number : q = Lib.Mem.read32 (view p) 8 := link.symm
      refine List.forall_mem_cons.mpr ⟨List.mem_range.mpr ?_, ih⟩
      simp only [invalidPgno] at some ⊢
      omega
  have size := (List.subperm_of_subset h.nodup.of_cons small).length_le
  rw [List.length_range] at size
  simp only [invalidPgno] at size
  simp only [Htab.pageFuel]
  omega

namespace Htab

/-- The pointer `d` beside slot `keyIdx` of page `keyPage` leads to the datum `bytes`. -/
structure Leads (hashp : Htab) (view : Nat → Page) (data : Nat → Prop) (keyPage keyIdx : Nat)
    (d : Datap) (bytes : List UInt8) : Prop where
  number : (view d.first).currPgno = d.first
  entries : 1 ≤ (view d.first).numEnt
  header : headerMatches hashp.hdr.version hashp.dataValidFlag (view d.first) d keyPage keyIdx = true
  low : chksumOffset ≤ dataOffset hashp.hdr.version d
  spelled : Spells hashp.hdr.bsize view data d.first (dataOffset hashp.hdr.version d + bigDataOverhead)
    (dataLen hashp.hdr.version d) bytes
  chksum : Checksum.crc32Checksum 0 bytes = d.chksum

/-- The database as its pages have it. `chain` is empty for a bucket whose page is. -/
structure Image (hashp : Htab) where
  view : Nat → Page
  chain : Nat → List Nat
  data : Nat → Prop
  value : Nat → Nat → List UInt8
  size : bigPageOverhead < hashp.hdr.bsize
  buckets : hashp.hdr.maxBucket < 0x80000000
  linked : ∀ b ≤ hashp.hdr.maxBucket, ∀ p l, chain b = p :: l →
    hashp.hdr.bucketToPage b = p ∧ Follow view p l
  filled : ∀ b ≤ hashp.hdr.maxBucket, ∀ p l, chain b = p :: l → 0 < (view p).numEnt
  own : ∀ b ≤ hashp.hdr.maxBucket, chain b = [] → ∀ a ≤ hashp.hdr.maxBucket,
    hashp.hdr.bucketToPage b ∉ chain a
  apart : ∀ b ≤ hashp.hdr.maxBucket, ¬data (hashp.hdr.bucketToPage b) ∧ ∀ p ∈ chain b, ¬data p
  slots : ∀ b ≤ hashp.hdr.maxBucket, ∀ p ∈ chain b, ∀ i < (view p).numEnt,
    chksumOffset ≤ (view p).keyOff i ∧ chksumOffset ≤ (view p).datapOff i ∧
      Leads hashp view data p i ((view p).datap i) (value p i)

namespace Image

variable {h₀ hashp hashp' : Htab} (img : Image h₀)

/-- Page `p` is on the chain of a bucket. -/
def OnChain (p : Nat) : Prop := ∃ b ≤ h₀.hdr.maxBucket, p ∈ img.chain b

/-- What the image tells of page `p` is true of `c`. -/
structure Tells (p : Nat) (c : Page) : Prop where
  page : img.data p ∨ img.OnChain p → Agree c (img.view p)
  empty : ∀ b ≤ h₀.hdr.maxBucket, img.chain b = [] → h₀.hdr.bucketToPage b = p → c.numEnt = 0

/-- The table serves the image, to the one thread that uses it. -/
structure Serves (hashp : Htab) : Prop where
  frame : hashp = { h₀ with mp := hashp.mp, fetches := hashp.fetches, held := hashp.held }
  fault : ∀ n, h₀.fault n = false
  readable : hashp.mp.Readable
  counted : hashp.mp.Counted
  alone : ∀ id ∈ hashp.mp.lqh, Pagepool.Alone self (hashp.mp.bkt id)
  tells : ∀ p c, hashp.mp.Looks p c → img.Tells p c

variable {img}

theorem Serves.hdr (h : img.Serves hashp) : hashp.hdr = h₀.hdr := by rw [h.frame]

theorem Serves.flag (h : img.Serves hashp) : hashp.dataValidFlag = h₀.dataValidFlag := by
  rw [h.frame]

theorem Serves.noFault (h : img.Serves hashp) (n : Nat) : hashp.fault n = false := by
  rw [h.frame]
  exact h.fault n

theorem Serves.note (h : img.Serves hashp) (fetches : Nat) (held : List Nat) :
    img.Serves { hashp with fetches := fetches, held := held } := by
  refine ⟨?_, h.fault, h.readable, h.counted, h.alone, h.tells⟩
  conv_lhs => rw [h.frame]

end Image

/-- Entry `id` is page `p`, fetched and not put back. -/
structure InHand (hashp : Htab) (id p : Nat) : Prop where
  mem : id ∈ hashp.mp.lqh
  number : (hashp.mp.bkt id).pgno = p
  pinned : (hashp.mp.bkt id).pinned = true

section Reading

variable {h₀ hashp hashp' : Htab} {img : Image h₀} {id p : Nat}

theorem Image.Serves.page (h : img.Serves hashp) (hand : InHand hashp id p) :
    img.Tells p (hashp.mp.bkt id).page := by
  have shown := Pagepool.looks_cached hand.mem
  rw [hand.number] at shown
  exact h.tells p _ shown

theorem address_bucket (h : img.Serves hashp) {b : Nat} (low : b < 0x80000000) :
    (address b hashBucketPage).Returns hashp (h₀.hdr.bucketToPage b) hashp := by
  rw [← h.hdr]
  simp [address, Prog.Returns, not_le.mpr low]

theorem address_other (p : Nat) {ty : Nat} (other : ty ≠ hashBucketPage) :
    (address p ty).Returns hashp p hashp := by
  simp [address, Prog.Returns, other]

theorem fails_returns (h : img.Serves hashp) :
    fails.Returns hashp false { hashp with fetches := hashp.fetches + 1 } := by
  simp [fails, Prog.Returns, h.noFault]

theorem noteAgain_returns : (noteAgain p).Returns hashp () hashp := by
  simp only [noteAgain, Prog.Returns, Prog.run_read_bind]
  split
  · split <;> rfl
  · rfl

structure Got (img : Image h₀) (hashp : Htab) (id p : Nat) (hashp' : Htab) : Prop where
  serves : img.Serves hashp'
  hand : InHand hashp' id p
  others : ∀ j q, q ≠ p → InHand hashp j q → InHand hashp' j q

theorem fetch_returns (h : img.Serves hashp) :
    ∃ id hashp', (fetch p {}).Returns hashp (some id) hashp' ∧ Got img hashp id p hashp' := by
  rcases Pagepool.getPage_fetches (ε := Event) self p h.readable h.counted false with
    ⟨id, found, wait, _⟩ | ⟨id, pgp', run, f, _⟩ | ⟨make, _⟩
  · have alone := h.alone id (h.readable.linked.find_eq_some.mp found).1
    by_cases pin : (hashp.mp.bkt id).pinned
    · simp [Pagepool.mustWait, alone.owner pin] at wait
    · simp [Pagepool.mustWait, pin, alone.waiters] at wait
  · refine ⟨id, hold id (setMp pgp' hashp), ?_, ?_, ?_, ?_⟩
    · have got : (pool (Pagepool.getPage self p {})).Returns hashp (.page id) (setMp pgp' hashp) :=
        Prog.returns_zoom.mpr ⟨pgp', by rw [Prog.Returns, run], rfl⟩
      refine Prog.returns_bind.mpr ⟨(), hashp, noteAgain_returns, ?_⟩
      refine Prog.returns_bind.mpr ⟨_, _, got, ?_⟩
      refine Prog.returns_bind.mpr ⟨(), hold id (setMp pgp' hashp), ?_, ?_⟩
      · rw [Prog.returns_modify]
      · rw [Prog.returns_pure]
        exact ⟨rfl, rfl⟩
    · refine ⟨?_, h.fault, f.keeps.readable, f.counted, f.alone h.alone,
        fun q c l => h.tells q c (f.keeps.looks q c l)⟩
      conv_lhs => rw [h.frame]
      rfl
    · exact ⟨f.mem, f.number, f.pinned⟩
    · rintro j q ne ⟨mem, number, pinned⟩
      obtain ⟨mem', same⟩ := f.held j mem pinned (by rw [number]; exact ne)
      refine ⟨mem', ?_, ?_⟩
      · exact (congrArg Bkt.pgno same).trans number
      · exact (congrArg Bkt.pinned same).trans pinned
  · cases make

theorem getPage_returns (h : img.Serves hashp) {addr ty : Nat}
    (address : (address addr ty).Returns hashp p hashp) :
    ∃ id hashp', (getPage addr ty {}).Returns hashp (some id, p) hashp' ∧
      Got img hashp id p hashp' := by
  have counted := h.note (hashp.fetches + 1) hashp.held
  obtain ⟨id, hashp', run, got⟩ := fetch_returns (p := p) counted
  refine ⟨id, hashp', ?_, got.serves, got.hand, fun j q ne hand => got.others j q ne ?_⟩
  · refine Prog.returns_bind.mpr ⟨p, hashp, address, ?_⟩
    refine Prog.returns_bind.mpr ⟨false, _, fails_returns h, ?_⟩
    simp only [Bool.false_eq_true, if_false]
    refine Prog.returns_bind.mpr ⟨_, _, run, ?_⟩
    simp [Htab.page, Prog.Returns]
  · exact ⟨hand.mem, hand.number, hand.pinned⟩

theorem putPage_returns (h : img.Serves hashp) (hand : InHand hashp id p) :
    ∃ hashp', (putPage id false).Returns hashp () hashp' ∧ img.Serves hashp' ∧
      ∀ j q, q ≠ p → InHand hashp j q → InHand hashp' j q := by
  have keeps := Pagepool.keeps_release id h.readable
  refine ⟨unhold id (setMp (hashp.mp.setBkt id (Pagepool.release false)) hashp), ?_, ?_, ?_⟩
  · have put : (pool (Pagepool.putPage id false)).Returns hashp ()
        (setMp (hashp.mp.setBkt id (Pagepool.release false)) hashp) :=
      Prog.returns_zoom.mpr ⟨_, by simp [Prog.Returns, Pagepool.putPage, hand.pinned], rfl⟩
    refine Prog.returns_bind.mpr ⟨(), _, put, ?_⟩
    rw [Prog.returns_modify]
  · refine ⟨?_, h.fault, keeps.readable, h.counted, fun j mem => ?_,
      fun q c l => h.tells q c (keeps.looks q c l)⟩
    · conv_lhs => rw [h.frame]
      rfl
    · have alone := h.alone j mem
      change Pagepool.Alone self ((hashp.mp.setBkt id (Pagepool.release false)).bkt j)
      by_cases same : j = id
      · subst same
        rw [Pagepool.setBkt_same]
        refine ⟨alone.waiters, ?_, fun pin => by cases pin⟩
        simp [Pagepool.release, alone.waiters, alone.wqh]
      · rw [Pagepool.setBkt_other same]
        exact alone
  · rintro j q ne ⟨mem, number, pinned⟩
    have other : j ≠ id := by
      rintro rfl
      exact ne (number.symm.trans hand.number)
    have same : (hashp.mp.setBkt id (Pagepool.release false)).bkt j = hashp.mp.bkt j :=
      Pagepool.setBkt_other other
    exact ⟨mem, (congrArg Bkt.pgno same).trans number, (congrArg Bkt.pinned same).trans pinned⟩

theorem page_returns : (page id).Returns hashp (hashp.mp.bkt id).page hashp := rfl

def Frees (img : Image h₀) (hashp hashp' : Htab) : Prop :=
  ∀ j q, ¬img.data q → InHand hashp j q → InHand hashp' j q

theorem copyData_returns {start len : Nat} {bytes : List UInt8}
    (spelled : Spells h₀.hdr.bsize img.view img.data p start len bytes)
    (h : img.Serves hashp) (hand : InHand hashp id p) (fuel : Nat) (sofar : List UInt8)
    (pos : 0 < fuel) (enough : len + (if start < h₀.hdr.bsize then 0 else 1) ≤ fuel) :
    ∃ hashp', (copyData h₀.hdr.bsize fuel id start len sofar).Returns hashp
      (some (sofar ++ bytes)) hashp' ∧ img.Serves hashp' ∧ Frees img hashp hashp' := by
  induction spelled generalizing hashp id fuel sofar with
  | @last p start len on low fits =>
    obtain ⟨fuel, rfl⟩ := Nat.exists_eq_succ_of_ne_zero pos.ne'
    have agree := (h.page hand).page (.inl on)
    obtain ⟨hashp', put, serves, others⟩ := putPage_returns h hand
    refine ⟨hashp', ?_, serves, fun j q other => others j q fun same => other (same ▸ on)⟩
    refine Prog.returns_bind.mpr ⟨_, hashp, page_returns, ?_⟩
    rw [if_neg (by omega), if_pos fits]
    refine Prog.returns_bind.mpr ⟨(), hashp', put, ?_⟩
    rw [if_pos (Nat.sub_self len), Prog.returns_pure]
    exact ⟨by rw [agree.drop_bytes low], rfl⟩
  | @more p start len rest on low inside long tail ih =>
    obtain ⟨fuel, rfl⟩ := Nat.exists_eq_succ_of_ne_zero pos.ne'
    have agree := (h.page hand).page (.inl on)
    have data : img.data (img.view p).nextPgno := by
      cases tail with
      | last on => exact on
      | more on => exact on
    obtain ⟨mid, put, serves, others⟩ := putPage_returns h hand
    obtain ⟨next, mid', get, got⟩ := getPage_returns serves
      (address_other ((img.view p).nextPgno) (show hashDataPage ≠ hashBucketPage by decide))
    obtain ⟨hashp', copy, serves', frees⟩ := ih got.serves got.hand fuel
      (sofar ++ (Lib.Mem.drop (img.view p) start).bytes (h₀.hdr.bsize - start))
      (by split at enough <;> omega)
      (by
        rw [if_pos img.size]
        split at enough <;> omega)
    refine ⟨hashp', ?_, serves', fun j q other hand => frees j q other ?_⟩
    · refine Prog.returns_bind.mpr ⟨_, hashp, page_returns, ?_⟩
      rw [if_neg (by omega), if_neg (by omega)]
      refine Prog.returns_bind.mpr ⟨(), mid, put, ?_⟩
      rw [if_neg (by omega), agree.nextPgno, agree.drop_bytes low]
      refine Prog.returns_bind.mpr ⟨_, mid', get, ?_⟩
      rw [← List.append_assoc]
      exact copy
    · exact got.others j q (fun same => other (same ▸ data))
        (others j q (fun same => other (same ▸ on)) hand)

theorem leak_returns (why : Leak) : (leak id why).Returns hashp () (unhold id hashp) := rfl

theorem getData_opens {keyPage keyIdx : Nat} {d : Datap} {bytes : List UInt8} (room : Nat)
    (leads : Leads h₀ img.view img.data keyPage keyIdx d bytes) (h : img.Serves hashp) :
    ∃ id mid, Got img hashp id d.first mid ∧ img.data d.first ∧
      ∀ r hashp', (getData keyPage keyIdx room d).Returns hashp r hashp' ↔
        (if 0 < room ∧ room < bytes.length then leak id .shortValue >>= fun _ => pure (-1, [])
        else if bytes.length = 0 then leak id .emptyValue >>= fun _ =>
          pure (if Checksum.crc32Checksum 0 [] = d.chksum then 0 else -1, [])
        else copyData h₀.hdr.bsize (bytes.length + 1) id
            (dataOffset h₀.hdr.version d + bigDataOverhead) bytes.length [] >>= fun r =>
          match r with
          | none => pure (-1, [])
          | some bytes => if Checksum.crc32Checksum 0 bytes = d.chksum then pure (0, bytes)
              else pure (-1, []) : Run (Int × List UInt8)).Returns mid r hashp' := by
  have size := leads.spelled.length
  have data : img.data d.first := by
    cases leads.spelled with
    | last on => exact on
    | more on => exact on
  obtain ⟨id, mid, get, got⟩ := getPage_returns h
    (address_other d.first (show hashDataPage ≠ hashBucketPage by decide))
  have agree := (got.serves.page got.hand).page (.inl data)
  have valid : ¬(d.first ≠ (mid.mp.bkt id).page.currPgno ∨ (mid.mp.bkt id).page.numEnt < 1 ∨
      headerMatches hashp.hdr.version hashp.dataValidFlag (mid.mp.bkt id).page d keyPage keyIdx =
        false) := by
    have header : headerMatches h₀.hdr.version h₀.dataValidFlag (mid.mp.bkt id).page d keyPage keyIdx
        = true := by
      rw [← leads.header]
      simp only [headerMatches, agree.readHeader leads.low]
    rw [agree.currPgno, agree.numEnt, leads.number, h.hdr, h.flag, header]
    have := leads.entries
    simp only [ne_eq, not_true, false_or, Bool.true_eq_false, or_false]
    omega
  refine ⟨id, mid, got, data, fun r hashp' => ?_⟩
  rw [getData, Prog.returns_read_bind]
  dsimp only
  rw [get.bind]
  dsimp only
  rewrite [page_returns.bind, if_neg valid, h.hdr, ← size]
  exact Iff.rfl

theorem getData_returns {keyPage keyIdx room : Nat} {d : Datap} {bytes : List UInt8}
    (leads : Leads h₀ img.view img.data keyPage keyIdx d bytes) (h : img.Serves hashp)
    (roomy : room = 0 ∨ bytes.length ≤ room) :
    ∃ hashp', (getData keyPage keyIdx room d).Returns hashp (0, bytes) hashp' ∧
      img.Serves hashp' ∧ Frees img hashp hashp' := by
  obtain ⟨id, mid, got, data, opens⟩ := getData_opens room leads h
  have frees : Frees img hashp mid := fun j q other => got.others j q fun same => other (same ▸ data)
  have size := leads.spelled.length
  by_cases empty : bytes.length = 0
  · have none : bytes = [] := List.length_eq_zero_iff.mp empty
    subst none
    refine ⟨unhold id mid, ?_, got.serves.note _ _, fun j q other hand => ?_⟩
    · rw [opens, if_neg (by omega), if_pos empty, (leak_returns _).bind, Prog.returns_pure,
        if_pos leads.chksum]
      exact ⟨rfl, rfl⟩
    · have still := frees j q other hand
      exact ⟨still.mem, still.number, still.pinned⟩
  · have spelled := leads.spelled
    rw [← size] at spelled
    obtain ⟨hashp', copy, serves, frees'⟩ := copyData_returns spelled got.serves got.hand
      (bytes.length + 1) [] (Nat.succ_pos _) (by split <;> omega)
    refine ⟨hashp', ?_, serves, fun j q other hand => frees' j q other (frees j q other hand)⟩
    rw [opens, if_neg (by omega), if_neg empty, copy.bind]
    dsimp only
    rw [List.nil_append, if_pos leads.chksum, Prog.returns_pure]
    exact ⟨rfl, rfl⟩

theorem getData_short {keyPage keyIdx room : Nat} {d : Datap} {bytes : List UInt8}
    (leads : Leads h₀ img.view img.data keyPage keyIdx d bytes) (h : img.Serves hashp)
    (short : 0 < room ∧ room < bytes.length) :
    ∃ hashp', (getData keyPage keyIdx room d).Returns hashp (-1, []) hashp' ∧
      img.Serves hashp' ∧ Frees img hashp hashp' := by
  obtain ⟨id, mid, got, data, opens⟩ := getData_opens room leads h
  refine ⟨unhold id mid, ?_, got.serves.note _ _, fun j q other hand => ?_⟩
  · rw [opens, if_pos short, (leak_returns _).bind, Prog.returns_pure]
    exact ⟨rfl, rfl⟩
  · have still := got.others j q (fun same => other (same ▸ data)) hand
    exact ⟨still.mem, still.number, still.pinned⟩

theorem getItem_returns {b i room : Nat} (h : img.Serves hashp) (hand : InHand hashp id p)
    (bucket : b ≤ h₀.hdr.maxBucket) (on : p ∈ img.chain b) (slot : i < (img.view p).numEnt)
    (roomy : room = 0 ∨ (img.value p i).length ≤ room) :
    ∃ hashp', (getItem id p i room false).Returns hashp (0, img.value p i) hashp' ∧
      img.Serves hashp' ∧ InHand hashp' id p := by
  have agree := (h.page hand).page (.inr ⟨b, bucket, on⟩)
  obtain ⟨_, low, leads⟩ := img.slots b bucket p on i slot
  obtain ⟨hashp', data, serves, frees⟩ := getData_returns leads h roomy
  refine ⟨hashp', ?_, serves, frees id p ((img.apart b bucket).2 p on) hand⟩
  refine Prog.returns_bind.mpr ⟨_, hashp, page_returns, ?_⟩
  rw [agree.datap low]
  refine Prog.returns_bind.mpr ⟨_, hashp', data, ?_⟩
  rw [if_neg (not_not.mpr rfl)]
  simp [Prog.Returns]

theorem getItem_short {b i room : Nat} (h : img.Serves hashp) (hand : InHand hashp id p)
    (bucket : b ≤ h₀.hdr.maxBucket) (on : p ∈ img.chain b) (slot : i < (img.view p).numEnt)
    (short : 0 < room ∧ room < (img.value p i).length) :
    ∃ hashp', (getItem id p i room false).Returns hashp (-1, []) hashp' ∧
      img.Serves hashp' ∧ InHand hashp' id p := by
  have agree := (h.page hand).page (.inr ⟨b, bucket, on⟩)
  obtain ⟨_, low, leads⟩ := img.slots b bucket p on i slot
  obtain ⟨hashp', data, serves, frees⟩ := getData_short leads h short
  refine ⟨hashp', ?_, serves, frees id p ((img.apart b bucket).2 p on) hand⟩
  refine Prog.returns_bind.mpr ⟨_, hashp, page_returns, ?_⟩
  rw [agree.datap low]
  refine Prog.returns_bind.mpr ⟨_, hashp', data, ?_⟩
  simp [Prog.Returns]

end Reading
end Htab
end FileHash
