import FileHash.Contents
import FileHash.Hash
import FileHash.Lib.Script
import Mathlib.Data.List.Find

/-! The lookup of a key as one of many threads does it. A `Job` is the program of
`ffdb_hash.c` and `ffdb_page.c` cut at what it asks of the page pool and of the pages it
has in hand; run by itself it is `hashGet`. A job that reads keeps to an order: it asks for
a bucket page with nothing in hand, and for a page of data with at most a bucket page. -/
namespace FileHash.Htab

open Lib (Prog Script)
open Page

namespace Image

variable {h₀ : Htab} (img : Image h₀)

def search (key : Dbt) : List Nat → Option (Nat × Nat)
  | [] => none
  | p :: l =>
    match findKey h₀.hCompare key (img.view p) with
    | some i => some (p, i)
    | none => search key l

def bucketOf (_ : Image h₀) (key : Dbt) : Nat :=
  h₀.hdr.bucketOf (u32 (h₀.hash (key.data.bytes (u32 key.size))))

def find (key : Dbt) : Option (Nat × Nat) := img.search key (img.chain (img.bucketOf key))

def answer (key : Dbt) : Int × List UInt8 :=
  match img.find key with
  | some (p, i) => (0, img.value p i)
  | none => (ffdbNotFound, [])

/-- A get the pages of which are all given back: the value it comes to, if it comes to one,
is not empty, and the caller has room for it or leaves that to the callee. -/
def Fair (key : Dbt) (room : Nat) : Prop :=
  ∀ p i, img.find key = some (p, i) →
    img.value p i ≠ [] ∧ (room = 0 ∨ (img.value p i).length ≤ room)

structure Searchable : Prop where
  masks : ∀ n, h₀.hdr.bucketOf n ≤ h₀.hdr.maxBucket
  numbered : ∀ b ≤ h₀.hdr.maxBucket, ∀ p l, img.chain b = p :: l →
    (img.view p).currPgno = p ∧ p ≠ 0
  room : ∀ b ≤ h₀.hdr.maxBucket, h₀.hdr.bucketToPage b < maxPageNumber

def Blank (p : Nat) : Prop := ∃ b ≤ h₀.hdr.maxBucket, img.chain b = [] ∧ h₀.hdr.bucketToPage b = p

end Image

inductive PageOp where
  | get (pageno : Nat) (flags : PageFlags)
  | page (mem : Nat)
  | store (mem : Nat) (f : Page → Page)
  | put (mem : Nat) (dirty : Bool)
  | stop (why : Lib.Halt)

def PageOp.Ans : PageOp → Type
  | .get _ _ => Option Nat
  | .page _ => Page
  | .store _ _ => Unit
  | .put _ _ => Unit
  | .stop _ => Empty

abbrev Job := Script PageOp PageOp.Ans

/-! The routines, over the parts of `ffdb_htab_t` that no reader changes. -/
namespace Job

variable {α : Type} (hashp : Htab)

def stop (why : Lib.Halt) : Job α := .ask (.stop why) Empty.elim

def get (pageno : Nat) (flags : PageFlags) : Job (Option Nat) := Script.act (PageOp.get pageno flags)

def page (mem : Nat) : Job Page := Script.act (PageOp.page mem)

def store (mem : Nat) (f : Page → Page) : Job Unit := Script.act (PageOp.store mem f)

def put (mem : Nat) (dirty : Bool) : Job Unit := Script.act (PageOp.put mem dirty)

def address (addr addrtype : Nat) : Job Nat :=
  if addrtype = hashBucketPage then
    if 0x80000000 ≤ addr then stop .diverge else pure (hashp.hdr.bucketToPage addr)
  else pure addr

/-- `_ffdb_init_page` on a page in the cache. -/
def initPage (mem pageno addrtype : Nat) : Job Unit :=
  store mem fun p => FileHash.initPage hashp.hdr.bsize p pageno addrtype

/-- `ffdb_get_page`. -/
def getPage (addr addrtype : Nat) (flags : PageFlags) : Job (Option Nat × Nat) := do
  let pageno ← address hashp addr addrtype
  match ← get pageno flags with
  | none => pure (none, pageno)
  | some mem =>
    let p ← page mem
    if flags.create ∧ p.currPgno = 0 then initPage hashp mem pageno addrtype
    pure (some mem, pageno)

/-- The walk of `ffdb_find_item` along a chain. -/
def findChain (key : Dbt) (chksum : Nat) : Nat → Nat → Nat → Job (Option Hent)
  | 0, _, _ => stop .diverge
  | fuel + 1, pagep, pgno => do
    let p ← page pagep
    match findKey hashp.hCompare key p with
    | some i => pure (some ⟨pagep, pgno, i, .ok, chksum⟩)
    | none =>
      if p.nextPgno = invalidPgno then pure (some ⟨pagep, pgno, p.numEnt, .noMore, chksum⟩)
      else
        put pagep false
        match ← getPage hashp p.nextPgno hashOvflPage {} with
        | (none, _) => pure none
        | (some pagep, pgno) => findChain key chksum fuel pagep pgno

/-- `ffdb_find_item`, with no value to store. -/
def findItem (bucket : Nat) (key : Dbt) : Job (Option Hent) := do
  match ← getPage hashp bucket hashBucketPage { create := true } with
  | (none, _) => pure none
  | (some pagep, pgno) =>
    let p ← page pagep
    if p.numEnt = 0 then
      initPage hashp pagep pgno hashBucketPage
      pure (some ⟨pagep, pgno, 0, .noMore, 0⟩)
    else findChain hashp key 0 pageFuel pagep p.currPgno

/-- The copy loop of `_ffdb_get_data`. -/
def copyData : Nat → Nat → Nat → Nat → List UInt8 → Job (Option (List UInt8))
  | 0, _, _, _, _ => stop .diverge
  | fuel + 1, pagep, start, rlen, sofar => do
    let p ← page pagep
    if hashp.hdr.bsize < start then stop .segv
    else
      let copylen := if start + rlen ≤ hashp.hdr.bsize then rlen else hashp.hdr.bsize - start
      let sofar := sofar ++ (Lib.Mem.drop p start).bytes copylen
      put pagep false
      if rlen - copylen = 0 then pure (some sofar)
      else
        match (← getPage hashp p.nextPgno hashDataPage {}).1 with
        | none => pure none
        | some pagep => copyData fuel pagep bigPageOverhead (rlen - copylen) sofar

/-- `_ffdb_get_data`. A page that is not put back stays with the thread. -/
def getData (keyPage keyIdx room : Nat) (datap : Datap) : Job (Int × List UInt8) := do
  let version := hashp.hdr.version
  match (← getPage hashp datap.first hashDataPage {}).1 with
  | none => pure (-1, [])
  | some pagep =>
    let p ← page pagep
    if datap.first ≠ p.currPgno ∨ p.numEnt < 1 ∨
        headerMatches version hashp.dataValidFlag p datap keyPage keyIdx = false then
      stop .assertion
    else
      let datalen := dataLen version datap
      if 0 < room ∧ room < datalen then pure (-1, [])
      else if datalen = 0 then
        pure (if Checksum.crc32Checksum 0 [] = datap.chksum then 0 else -1, [])
      else
        match ← copyData hashp (datalen + 1) pagep (dataOffset version datap + bigDataOverhead)
            datalen [] with
        | none => pure (-1, [])
        | some bytes =>
          if Checksum.crc32Checksum 0 bytes = datap.chksum then pure (0, bytes) else pure (-1, [])

/-- `ffdb_get_item`, the page to be freed. -/
def getItem (pagep pgno pgndx room : Nat) : Job (Int × List UInt8) := do
  let p ← page pagep
  let r ← getData hashp pgno pgndx room (p.datap pgndx)
  if r.1 ≠ 0 then pure r
  else
    put pagep false
    pure r

/-- `_ffdb_hash_get`, from the bucket on. -/
def lookUp (bucket : Nat) (key : Dbt) (room : Nat) : Job (Int × List UInt8) := do
  match ← findItem hashp bucket key with
  | none => pure (-1, [])
  | some item =>
    if item.status = .noMore then
      put item.pagep false
      pure (ffdbNotFound, [])
    else getItem hashp item.pagep item.pgno item.pgndx room

/-- `_ffdb_hash_get`. -/
def hashGet (key : Dbt) (room : Nat) : Job (Int × List UInt8) :=
  lookUp hashp (hashp.hdr.bucketOf (u32 (hashp.hash (key.data.bytes (u32 key.size))))) key room

end Job

abbrev Hand := Nat → Option Nat

def noPage : Hand := fun _ => none

def onePage (id p : Nat) : Hand := Function.update noPage id (some p)

def readerRules {h₀ : Htab} (img : Image h₀) : Lib.Rules PageOp PageOp.Ans Hand where
  may hand
    | .get p flags => (∃ create, flags = { create := create } ∧ (create = true → p < maxPageNumber)) ∧
        ∀ id q, hand id = some q → ¬img.data q ∧ img.data p
    | .page mem => (hand mem).isSome
    | .store mem f => ∃ p, hand mem = some p ∧ img.Blank p ∧
        f = fun c => FileHash.initPage h₀.hdr.bsize c p hashBucketPage
    | .put mem dirty => (hand mem).isSome ∧ dirty = false
    | .stop _ => False
  gives hand
    | .get p _, ans, hand' => ∃ id, ans = some id ∧ hand id = none ∧
        hand' = Function.update hand id (some p)
    | .page mem, c, hand' => (∀ p, hand mem = some p → img.Tells p c) ∧ hand' = hand
    | .store _ _, _, hand' => hand' = hand
    | .put mem _, _, hand' => hand' = Function.update hand mem none
    | .stop _, _, _ => False

section Reading

variable {h₀ : Htab} {img : Image h₀} {α β : Type} {P : β → Hand → Prop} {hand : Hand} {id p b : Nat}

theorem put_back (free : hand id = none) :
    Function.update (Function.update hand id (some p)) id none = hand := by
  rw [Function.update_idem]
  exact (congrArg _ free.symm).trans (Function.update_eq_self id hand)

theorem obeys_page {f : Page → Job β} (inHand : hand id = some p)
    (rest : ∀ c, img.Tells p c → Script.Obeys (readerRules img) P hand (f c)) :
    Script.Obeys (readerRules img) P hand (Job.page id >>= f) := by
  refine Script.obeys_act (by simp [readerRules, inHand]) ?_
  rintro c _ ⟨tells, rfl⟩
  exact rest c (tells p inHand)

theorem obeys_put {f : Unit → Job β} (inHand : hand id = some p)
    (rest : Script.Obeys (readerRules img) P (Function.update hand id none) (f ())) :
    Script.Obeys (readerRules img) P hand (Job.put id false >>= f) := by
  refine Script.obeys_act ⟨by simp [inHand], rfl⟩ ?_
  rintro ans _ rfl
  exact rest

theorem obeys_init {f : Unit → Job β} (inHand : hand id = some p) (blank : img.Blank p)
    (rest : Script.Obeys (readerRules img) P hand (f ())) :
    Script.Obeys (readerRules img) P hand (Job.initPage h₀ id p hashBucketPage >>= f) := by
  refine Script.obeys_act ⟨p, inHand, blank, rfl⟩ ?_
  rintro ans _ rfl
  exact rest

theorem obeys_getPage {addrtype : Nat} {f : Option Nat × Nat → Job β} (other : addrtype ≠ hashBucketPage)
    (order : ∀ id q, hand id = some q → ¬img.data q ∧ img.data p)
    (rest : ∀ id, hand id = none →
      Script.Obeys (readerRules img) P (Function.update hand id (some p)) (f (some id, p))) :
    Script.Obeys (readerRules img) P hand (Job.getPage h₀ p addrtype {} >>= f) := by
  refine Script.obeys_bind ?_
  simp only [Job.getPage, Job.address, if_neg other]
  refine Script.obeys_act ⟨⟨false, rfl, fun no => by cases no⟩, order⟩ ?_
  rintro _ _ ⟨id, rfl, free, rfl⟩
  refine obeys_page (p := p) (Function.update_self ..) fun c _ => ?_
  simpa using rest id free

theorem Image.Searchable.chain_nil (h : img.Searchable) (low : b ≤ h₀.hdr.maxBucket) {c : Page}
    (tells : img.Tells (h₀.hdr.bucketToPage b) c) (none : c.currPgno = 0 ∨ c.numEnt = 0) :
    img.chain b = [] := by
  cases chain : img.chain b with
  | nil => rfl
  | cons q l =>
    have on : q ∈ img.chain b := by rw [chain]; exact List.mem_cons_self
    obtain ⟨number, some⟩ := h.numbered b low q l chain
    have filled := img.filled b low q l chain
    have bucket := (img.linked b low q l chain).1
    rw [bucket] at tells
    have agree := tells.page (.inr ⟨b, low, on⟩)
    rw [agree.currPgno, agree.numEnt, number] at none
    omega

theorem obeys_getBucket (h : img.Searchable) (low : b ≤ h₀.hdr.maxBucket) {f : Option Nat × Nat → Job β}
    (rest : ∀ id, Script.Obeys (readerRules img) P (onePage id (h₀.hdr.bucketToPage b))
      (f (some id, h₀.hdr.bucketToPage b))) :
    Script.Obeys (readerRules img) P noPage
      (Job.getPage h₀ b hashBucketPage { create := true } >>= f) := by
  have small : ¬0x80000000 ≤ b := by
    have := img.buckets
    omega
  refine Script.obeys_bind ?_
  simp only [Job.getPage, Job.address, if_true, if_neg small]
  refine Script.obeys_act ⟨⟨true, rfl, fun _ => h.room b low⟩, fun _ _ eq => by cases eq⟩ ?_
  rintro _ _ ⟨id, rfl, -, rfl⟩
  refine obeys_page (p := h₀.hdr.bucketToPage b) (Function.update_self ..) fun c tells => ?_
  by_cases zero : c.currPgno = 0
  · rw [if_pos ⟨trivial, zero⟩]
    exact obeys_init (Function.update_self ..) ⟨b, low, h.chain_nil low tells (.inl zero), rfl⟩ (rest id)
  · rw [if_neg fun both : (True ∧ c.currPgno = 0) => zero both.2]
    exact rest id

theorem findKey_agree {c : Page} (key : Dbt) (low : b ≤ h₀.hdr.maxBucket) (on : p ∈ img.chain b)
    (agree : Agree c (img.view p)) :
    findKey h₀.hCompare key c = findKey h₀.hCompare key (img.view p) := by
  have same : ∀ i < (img.view p).numEnt, c.key i = (img.view p).key i := by
    intro i slot
    have off := (img.slots b low p on i slot).1
    simp only [Page.key, agree.keyOff, agree.keyLen, Dbt.mk.injEq, and_true]
    exact funext fun j => agree _ (.inr (by omega))
  rw [findKey, findKey, agree.numEnt]
  exact List.find?_congr fun i mem => by rw [same i (List.mem_range.mp mem)]

def Found (place : Option (Nat × Nat)) (r : Option Hent) (hand : Hand) : Prop :=
  ∃ id q, hand = onePage id q ∧
    match place with
    | some (p, i) => p = q ∧ r = some ⟨id, q, i, .ok, 0⟩
    | none => ∃ n, r = some ⟨id, q, n, .noMore, 0⟩

theorem findChain_obeys (key : Dbt) (low : b ≤ h₀.hdr.maxBucket) {l : List Nat}
    (fuel : Nat) (enough : l.length < fuel) (on : ∀ q ∈ p :: l, q ∈ img.chain b)
    (follow : Follow img.view p l) (id : Nat) :
    Script.Obeys (readerRules img) (Found (img.search key (p :: l))) (onePage id p)
      (Job.findChain h₀ key 0 fuel id p) := by
  induction follow generalizing fuel id with
  | @last p none =>
    obtain ⟨fuel, rfl⟩ := Nat.exists_eq_succ_of_ne_zero (Nat.pos_iff_ne_zero.mp enough)
    refine obeys_page (Function.update_self ..) fun c tells => ?_
    have here := on p List.mem_cons_self
    have agree := tells.page (.inr ⟨b, low, here⟩)
    rw [findKey_agree key low here agree]
    cases found : findKey h₀.hCompare key (img.view p) with
    | some i => exact ⟨id, p, rfl, by simp [Image.search, found]⟩
    | none =>
      rw [if_pos (agree.nextPgno.trans none)]
      exact ⟨id, p, rfl, by simp [Image.search, found]⟩
  | @next p q l link some rest ih =>
    obtain ⟨fuel, rfl⟩ := Nat.exists_eq_succ_of_ne_zero (Nat.pos_iff_ne_zero.mp
      ((Nat.zero_le _).trans_lt enough))
    refine obeys_page (Function.update_self ..) fun c tells => ?_
    have here := on p List.mem_cons_self
    have agree := tells.page (.inr ⟨b, low, here⟩)
    rw [findKey_agree key low here agree]
    cases found : findKey h₀.hCompare key (img.view p) with
    | some i => exact ⟨id, p, rfl, by simp [Image.search, found]⟩
    | none =>
      rw [if_neg (by rw [agree.nextPgno, link]; exact some), agree.nextPgno, link]
      refine obeys_put (Function.update_self ..) ?_
      rw [onePage, put_back rfl]
      refine obeys_getPage (by decide) (fun _ _ eq => by cases eq) fun id' _ => ?_
      have search : img.search key (p :: q :: l) = img.search key (q :: l) := by
        rw [Image.search, found]
      rw [search]
      exact ih fuel (Nat.succ_lt_succ_iff.mp enough)
        (fun r mem => on r (List.mem_cons_of_mem _ mem)) id'

theorem findItem_obeys (h : img.Searchable) (key : Dbt) (low : b ≤ h₀.hdr.maxBucket) :
    Script.Obeys (readerRules img) (Found (img.search key (img.chain b))) noPage
      (Job.findItem h₀ b key) := by
  refine obeys_getBucket h low fun id => obeys_page (Function.update_self ..) fun c tells => ?_
  cases chain : img.chain b with
  | nil =>
    rw [if_pos (tells.empty b low chain rfl)]
    refine obeys_init (Function.update_self ..) ⟨b, low, chain, rfl⟩ ?_
    exact ⟨id, _, rfl, 0, rfl⟩
  | cons p l =>
    have some : ¬c.numEnt = 0 := fun none => by
      have nil := h.chain_nil low tells (.inr none)
      rw [chain] at nil
      cases nil
    have on : ∀ q ∈ p :: l, q ∈ img.chain b := fun q mem => by rw [chain]; exact mem
    obtain ⟨bucket, follow⟩ := img.linked b low p l chain
    have agree := tells.page (.inr ⟨b, low, by rw [bucket]; exact on p List.mem_cons_self⟩)
    have number := (h.numbered b low p l chain).1
    rw [if_neg some, agree.currPgno, bucket, number]
    exact findChain_obeys key low pageFuel follow.length_lt on follow id

theorem copyData_obeys {start len : Nat} {bytes : List UInt8}
    (spelled : Spells h₀.hdr.bsize img.view img.data p start len bytes)
    (keys : ∀ id q, hand id = some q → ¬img.data q) (free : hand id = none) (fuel : Nat)
    (sofar : List UInt8) (pos : 0 < fuel)
    (enough : len + (if start < h₀.hdr.bsize then 0 else 1) ≤ fuel) :
    Script.Obeys (readerRules img) (fun r hand' => r = some (sofar ++ bytes) ∧ hand' = hand)
      (Function.update hand id (some p)) (Job.copyData h₀ fuel id start len sofar) := by
  induction spelled generalizing id fuel sofar with
  | @last p start len on low fits =>
    obtain ⟨fuel, rfl⟩ := Nat.exists_eq_succ_of_ne_zero pos.ne'
    refine obeys_page (Function.update_self ..) fun c tells => ?_
    rw [if_neg (by omega), if_pos fits]
    refine obeys_put (Function.update_self ..) ?_
    rw [if_pos (Nat.sub_self len), put_back free, (tells.page (.inl on)).drop_bytes low]
    exact ⟨rfl, rfl⟩
  | @more p start len rest on low inside long tail ih =>
    obtain ⟨fuel, rfl⟩ := Nat.exists_eq_succ_of_ne_zero pos.ne'
    have data : img.data (img.view p).nextPgno := by
      cases tail with
      | last on => exact on
      | more on => exact on
    refine obeys_page (Function.update_self ..) fun c tells => ?_
    have agree := tells.page (.inl on)
    rw [if_neg (by omega), if_neg (by omega)]
    refine obeys_put (Function.update_self ..) ?_
    rw [if_neg (by omega), put_back free, agree.nextPgno, agree.drop_bytes low, ← List.append_assoc]
    refine obeys_getPage (by decide) (fun id q inHand => ⟨keys id q inHand, data⟩) fun id' free' => ?_
    exact ih free' fuel _ (by split at enough <;> omega)
      (by
        rw [if_pos img.size]
        split at enough <;> omega)

theorem getData_comes {keyPage keyIdx room : Nat} {d : Datap} {bytes : List UInt8}
    {P : Int × List UInt8 → Hand → Prop} (leads : Leads h₀ img.view img.data keyPage keyIdx d bytes)
    (keys : ∀ id q, hand id = some q → ¬img.data q)
    (rest : ∀ id, hand id = none →
      Script.Obeys (readerRules img) P (Function.update hand id (some d.first))
        (if 0 < room ∧ room < bytes.length then pure (-1, [])
        else if bytes.length = 0 then
          pure (if Checksum.crc32Checksum 0 [] = d.chksum then 0 else -1, [])
        else do
          match ← Job.copyData h₀ (bytes.length + 1) id (dataOffset h₀.hdr.version d + bigDataOverhead)
              bytes.length [] with
          | none => pure (-1, [])
          | some bytes =>
            if Checksum.crc32Checksum 0 bytes = d.chksum then pure (0, bytes) else pure (-1, []))) :
    Script.Obeys (readerRules img) P hand (Job.getData h₀ keyPage keyIdx room d) := by
  have data : img.data d.first := by
    cases leads.spelled with
    | last on => exact on
    | more on => exact on
  refine obeys_getPage (by decide) (fun id q inHand => ⟨keys id q inHand, data⟩) fun id free => ?_
  refine obeys_page (Function.update_self ..) fun c tells => ?_
  have agree := tells.page (.inl data)
  have valid : ¬(d.first ≠ c.currPgno ∨ c.numEnt < 1 ∨
      headerMatches h₀.hdr.version h₀.dataValidFlag c d keyPage keyIdx = false) := by
    have header : headerMatches h₀.hdr.version h₀.dataValidFlag c d keyPage keyIdx = true := by
      rw [← leads.header]
      simp only [headerMatches, agree.readHeader leads.low]
    have entries := leads.entries
    rw [agree.currPgno, agree.numEnt, leads.number, header]
    simp only [ne_eq, not_true, false_or, Bool.true_eq_false, or_false]
    omega
  rw [if_neg valid, ← leads.spelled.length]
  exact rest id free

theorem getData_obeys {keyPage keyIdx room : Nat} {d : Datap} {bytes : List UInt8}
    (leads : Leads h₀ img.view img.data keyPage keyIdx d bytes)
    (keys : ∀ id q, hand id = some q → ¬img.data q) (full : bytes ≠ [])
    (roomy : room = 0 ∨ bytes.length ≤ room) :
    Script.Obeys (readerRules img) (fun r hand' => r = (0, bytes) ∧ hand' = hand) hand
      (Job.getData h₀ keyPage keyIdx room d) := by
  have some := List.length_pos_of_ne_nil full
  have spelled := leads.spelled
  rw [← spelled.length] at spelled
  refine getData_comes leads keys fun id free => ?_
  rw [if_neg (by omega), if_neg (by omega)]
  refine Script.obeys_bind (Script.obeys_mono (copyData_obeys spelled keys free _ []
    (Nat.succ_pos _) (by split <;> omega)) ?_)
  rintro _ _ ⟨rfl, rfl⟩
  simp only [List.nil_append]
  rw [if_pos leads.chksum]
  exact ⟨rfl, rfl⟩

theorem getData_keeps {keyPage keyIdx room : Nat} {d : Datap} {bytes : List UInt8}
    (leads : Leads h₀ img.view img.data keyPage keyIdx d bytes)
    (keys : ∀ id q, hand id = some q → ¬img.data q)
    (unfair : bytes = [] ∨ (0 < room ∧ room < bytes.length)) :
    Script.Obeys (readerRules img)
      (fun _ hand' => ∃ id, hand id = none ∧ hand' = Function.update hand id (some d.first)) hand
      (Job.getData h₀ keyPage keyIdx room d) := by
  refine getData_comes leads keys fun id free => ?_
  by_cases short : 0 < room ∧ room < bytes.length
  · rw [if_pos short]
    exact ⟨id, free, rfl⟩
  · have none : bytes.length = 0 := List.length_eq_zero_iff.mpr (unfair.resolve_right short)
    rw [if_neg short, if_pos none]
    exact ⟨id, free, rfl⟩

section Item

variable {i room : Nat} (low : b ≤ h₀.hdr.maxBucket) (on : p ∈ img.chain b)
  (slot : i < (img.view p).numEnt)
include low on

theorem not_data_onePage (j q : Nat) (inHand : onePage id p j = some q) : ¬img.data q := by
  by_cases same : j = id
  · rw [same, onePage, Function.update_self] at inHand
    cases inHand
    exact (img.apart b low).2 p on
  · rw [onePage, Function.update_of_ne same] at inHand
    cases inHand

include slot

theorem getItem_obeys (full : img.value p i ≠ [])
    (roomy : room = 0 ∨ (img.value p i).length ≤ room) :
    Script.Obeys (readerRules img) (fun r hand => r = (0, img.value p i) ∧ hand = noPage)
      (onePage id p) (Job.getItem h₀ id p i room) := by
  refine obeys_page (Function.update_self ..) fun c tells => ?_
  have agree := tells.page (.inr ⟨b, low, on⟩)
  obtain ⟨_, off, leads⟩ := img.slots b low p on i slot
  rw [agree.datap off]
  refine Script.obeys_bind (Script.obeys_mono
    (getData_obeys leads (not_data_onePage low on) full roomy) ?_)
  rintro _ _ ⟨rfl, rfl⟩
  refine obeys_put (Function.update_self ..) ?_
  rw [onePage, put_back rfl]
  exact ⟨rfl, rfl⟩

theorem getItem_keeps (unfair : img.value p i = [] ∨ (0 < room ∧ room < (img.value p i).length)) :
    Script.Obeys (readerRules img)
      (fun _ hand => ∃ id, hand id = some ((img.view p).datap i).first)
      (onePage id p) (Job.getItem h₀ id p i room) := by
  refine obeys_page (Function.update_self ..) fun c tells => ?_
  have agree := tells.page (.inr ⟨b, low, on⟩)
  obtain ⟨_, off, leads⟩ := img.slots b low p on i slot
  rw [agree.datap off]
  refine Script.obeys_bind (Script.obeys_mono
    (getData_keeps leads (not_data_onePage low on) unfair) ?_)
  rintro r _ ⟨id', free, rfl⟩
  have other : id' ≠ id := by
    rintro rfl
    rw [onePage, Function.update_self] at free
    cases free
  by_cases failed : r.1 ≠ 0
  · rw [if_pos failed]
    exact ⟨id', Function.update_self ..⟩
  · rw [if_neg failed]
    refine obeys_put (p := p) ?_ ⟨id', ?_⟩
    · rw [Function.update_of_ne other.symm]
      exact Function.update_self ..
    · rw [Function.update_of_ne other]
      exact Function.update_self ..

end Item

theorem search_here {key : Dbt} {l : List Nat} {i : Nat}
    (here : findKey h₀.hCompare key (img.view p) = some i) : img.search key (p :: l) = some (p, i) := by
  rw [Image.search, here]

theorem search_some {key : Dbt} {l : List Nat} {i : Nat} (found : img.search key l = some (p, i)) :
    p ∈ l ∧ i < (img.view p).numEnt := by
  induction l with
  | nil => cases found
  | cons q l ih =>
    rw [Image.search] at found
    cases here : findKey h₀.hCompare key (img.view q) with
    | none =>
      rw [here] at found
      exact ⟨List.mem_cons_of_mem _ (ih found).1, (ih found).2⟩
    | some j =>
      rw [here] at found
      cases found
      exact ⟨List.mem_cons_self, List.mem_range.mp (List.mem_of_find?_eq_some here)⟩

theorem hashGet_comes (h : img.Searchable) {key : Dbt} {room i : Nat}
    {P : Int × List UInt8 → Hand → Prop} (place : img.find key = some (p, i))
    (rest : ∀ id, Script.Obeys (readerRules img) P (onePage id p) (Job.getItem h₀ id p i room)) :
    Script.Obeys (readerRules img) P noPage (Job.hashGet h₀ key room) := by
  refine Script.obeys_bind (Script.obeys_mono (findItem_obeys h key (h.masks _)) ?_)
  rintro r _ ⟨id, q, rfl, found⟩
  change match img.find key with
    | some (p, i) => p = q ∧ r = some ⟨id, q, i, .ok, 0⟩
    | none => ∃ n, r = some ⟨id, q, n, .noMore, 0⟩ at found
  rw [place] at found
  obtain ⟨rfl, rfl⟩ := found
  exact rest id

theorem hashGet_obeys (h : img.Searchable) {key : Dbt} {room : Nat} (fair : img.Fair key room) :
    Script.Obeys (readerRules img) (fun r hand => r = img.answer key ∧ hand = noPage) noPage
      (Job.hashGet h₀ key room) := by
  have low : img.bucketOf key ≤ h₀.hdr.maxBucket := h.masks _
  rw [Image.answer]
  cases place : img.find key with
  | some at' =>
    obtain ⟨p, i⟩ := at'
    obtain ⟨on, slot⟩ := search_some place
    obtain ⟨full, roomy⟩ := fair p i place
    exact hashGet_comes h place fun id => getItem_obeys low on slot full roomy
  | none =>
    refine Script.obeys_bind (Script.obeys_mono (findItem_obeys h key low) ?_)
    rintro r _ ⟨id, q, rfl, found⟩
    change match img.find key with
      | some (p, i) => p = q ∧ r = some ⟨id, q, i, .ok, 0⟩
      | none => ∃ n, r = some ⟨id, q, n, .noMore, 0⟩ at found
    rw [place] at found
    obtain ⟨n, rfl⟩ := found
    refine obeys_put (Function.update_self ..) ?_
    rw [onePage, put_back rfl]
    exact ⟨rfl, rfl⟩

theorem hashGet_keeps (h : img.Searchable) {key : Dbt} {room : Nat} (unfair : ¬img.Fair key room) :
    ∃ d, Script.Obeys (readerRules img) (fun _ hand => ∃ id, hand id = some d) noPage
      (Job.hashGet h₀ key room) := by
  rw [Image.Fair] at unfair
  push Not at unfair
  obtain ⟨p, i, place, kept⟩ := unfair
  obtain ⟨on, slot⟩ := search_some place
  refine ⟨((img.view p).datap i).first, hashGet_comes h place fun id =>
    getItem_keeps (h.masks _) on slot ?_⟩
  by_cases empty : img.value p i = []
  · exact .inl empty
  · exact .inr ⟨Nat.pos_of_ne_zero (kept empty).1, (kept empty).2⟩

end Reading
end FileHash.Htab
