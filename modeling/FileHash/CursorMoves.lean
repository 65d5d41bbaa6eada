import FileHash.Contents
import FileHash.Cursor

/-! The moves of a key cursor. Where it stands is a bucket, a page of the bucket's chain and
a slot of that page; a move takes it to the next such spot in its direction, past empty
buckets. Both directions go down a chain from its bucket page. -/
namespace FileHash.Htab

open Lib (Prog)
open Page

abbrev Pair := List UInt8 × List UInt8

structure Spot where
  bucket : Nat
  page : Nat
  slot : Nat
  behind : List Nat

namespace Image

variable {h₀ : Htab} (img : Image h₀)

/-- The pair in slot `i` of page `p`. -/
def pair (p i : Nat) : Pair := (((img.view p).key i).bytes, img.value p i)

def Fits (p i keyRoom : Nat) (dataRoom : Option Nat) : Prop :=
  (keyRoom = 0 ∨ ((img.view p).key i).size ≤ keyRoom) ∧
    ∀ room, dataRoom = some room → room = 0 ∨ (img.value p i).length ≤ room

def given (p i : Nat) (dataRoom : Option Nat) : Pair :=
  (((img.view p).key i).bytes, if dataRoom.isSome then img.value p i else [])

def Whole : Prop := ∀ b ≤ h₀.hdr.maxBucket, ∀ p ∈ img.chain b, 0 < (img.view p).numEnt

structure First (x : Spot) : Prop where
  low : x.bucket ≤ h₀.hdr.maxBucket
  before : ∀ a < x.bucket, img.chain a = []
  chain : img.chain x.bucket = x.page :: x.behind
  slot : x.slot = 0

structure Last (x : Spot) : Prop where
  low : x.bucket ≤ h₀.hdr.maxBucket
  after : ∀ a, x.bucket < a → a ≤ h₀.hdr.maxBucket → img.chain a = []
  chain : img.chain x.bucket = x.page :: x.behind
  slot : x.slot + 1 = (img.view x.page).numEnt

/-- Where `FFDB_NEXT` goes. -/
inductive Next : Spot → Spot → Prop
  | slot {b p i : Nat} {behind : List Nat} (inside : i + 1 < (img.view p).numEnt) :
      Next ⟨b, p, i, behind⟩ ⟨b, p, i + 1, behind⟩
  | page {b p i q : Nat} {l : List Nat} (spent : i + 1 = (img.view p).numEnt) :
      Next ⟨b, p, i, q :: l⟩ ⟨b, q, 0, l⟩
  | bucket {b p i b' p' : Nat} {l : List Nat} (spent : i + 1 = (img.view p).numEnt) (up : b < b')
      (low : b' ≤ h₀.hdr.maxBucket) (between : ∀ a, b < a → a < b' → img.chain a = [])
      (chain : img.chain b' = p' :: l) : Next ⟨b, p, i, []⟩ ⟨b', p', 0, l⟩

/-- Where `FFDB_PREV` goes. -/
inductive Prev : Spot → Spot → Prop
  | slot {b p i : Nat} {behind : List Nat} : Prev ⟨b, p, i + 1, behind⟩ ⟨b, p, i, behind⟩
  | page {b p q j : Nat} {l : List Nat} (last : j + 1 = (img.view q).numEnt) :
      Prev ⟨b, p, 0, q :: l⟩ ⟨b, q, j, l⟩
  | bucket {b p b' p' j : Nat} {l : List Nat} (down : b' < b)
      (between : ∀ a, b' < a → a < b → img.chain a = []) (chain : img.chain b' = p' :: l)
      (last : j + 1 = (img.view p').numEnt) : Prev ⟨b, p, 0, []⟩ ⟨b', p', j, l⟩

/-- The first bucket from `s` on that has a chain. -/
theorem exists_up {s a : Nat} (le : s ≤ a) (some : img.chain a ≠ []) :
    ∃ b, s ≤ b ∧ b ≤ a ∧ img.chain b ≠ [] ∧ ∀ a', s ≤ a' → a' < b → img.chain a' = [] := by
  have ex : ∃ b, s ≤ b ∧ img.chain b ≠ [] := ⟨a, le, some⟩
  classical
  refine ⟨Nat.find ex, (Nat.find_spec ex).1, Nat.find_min' ex ⟨le, some⟩, (Nat.find_spec ex).2,
    fun a' above below => ?_⟩
  by_contra filled
  exact Nat.find_min ex below ⟨above, filled⟩

/-- The last bucket below `n` that has a chain. -/
theorem exists_down {n a : Nat} (lt : a < n) (some : img.chain a ≠ []) :
    ∃ b, b < n ∧ img.chain b ≠ [] ∧ ∀ a', b < a' → a' < n → img.chain a' = [] := by
  induction n with
  | zero => exact absurd lt (Nat.not_lt_zero a)
  | succ n ih =>
    by_cases none : img.chain n = []
    · have ne : a ≠ n := fun same => some (same ▸ none)
      obtain ⟨b, below, filled, between⟩ := ih (by omega)
      refine ⟨b, by omega, filled, fun a' above below' => ?_⟩
      by_cases top : a' = n
      · rw [top]
        exact none
      · exact between a' above (by omega)
    · exact ⟨n, Nat.lt_succ_self n, none, fun a' above below => by omega⟩

end Image

variable {h₀ hashp hashp' : Htab} {img : Image h₀} {b p i : Nat} {crs : Crs} {behind : List Nat}

structure Crs.Ended (crs : Crs) : Prop where
  key : crs.keyCursor = true
  pagep : crs.pagep = none
  status : crs.status = .noMore

structure Loose (img : Image h₀) (hashp : Htab) (crs : Crs) : Prop where
  serves : img.Serves hashp
  key : crs.keyCursor = true
  hand : ∀ id, crs.pagep = some id → ∃ p, InHand hashp id p

/-- The cursor has the page of bucket `b` in hand. -/
structure Holds (img : Image h₀) (hashp : Htab) (crs : Crs) (b : Nat) : Prop where
  serves : img.Serves hashp
  key : crs.keyCursor = true
  bucket : crs.bucket = b
  pgno : crs.pgno = h₀.hdr.bucketToPage b
  hand : ∃ id, crs.pagep = some id ∧ InHand hashp id (h₀.hdr.bucketToPage b)

/-- The cursor stands on slot `i` of page `p` on the chain of bucket `b`. -/
structure Stands (img : Image h₀) (hashp : Htab) (crs : Crs) (b p i : Nat) (behind : List Nat) :
    Prop where
  serves : img.Serves hashp
  key : crs.keyCursor = true
  status : crs.status = .ok
  bucket : crs.bucket = b
  pgno : crs.pgno = p
  pgndx : crs.pgndx = i
  hand : ∃ id, crs.pagep = some id ∧ InHand hashp id p
  low : b ≤ h₀.hdr.maxBucket
  on : ∃ pre, img.chain b = pre ++ p :: behind
  slot : i < (img.view p).numEnt

/-- The cursor stands on the spot. -/
abbrev StandsAt (img : Image h₀) (hashp : Htab) (crs : Crs) (x : Spot) : Prop :=
  Stands img hashp crs x.bucket x.page x.slot x.behind

theorem u32_succ (low : b < 0x80000000) : u32 (b + 1) = b + 1 := by
  simp only [u32]
  omega

theorem u32_pred (low : b < 0x80000000) : u32 (b + 1 + 0xffffffff) = b := by
  simp only [u32]
  omega

theorem Stands.follow (h : Stands img hashp crs b p i behind) : Follow img.view p behind := by
  obtain ⟨pre, on⟩ := h.on
  cases chain : img.chain b with
  | nil => simp [chain] at on
  | cons q l => exact (img.linked b h.low q l chain).2.drop (chain.symm.trans on)

theorem Stands.page (h : Stands img hashp crs b p i behind) {id : Nat} (hand : InHand hashp id p) :
    Agree (hashp.mp.bkt id).page (img.view p) := by
  obtain ⟨pre, on⟩ := h.on
  exact (h.serves.page hand).page (.inr ⟨b, h.low, by rw [on]; simp⟩)

theorem Stands.turn (h : Stands img hashp crs b p i behind) {j : Nat}
    (slot : j < (img.view p).numEnt) :
    Stands img hashp { crs with pgndx := j } b p j behind :=
  ⟨h.serves, h.key, h.status, h.bucket, h.pgno, rfl, h.hand, h.low, h.on, slot⟩

theorem Image.Serves.empty_iff (h : img.Serves hashp) (low : b ≤ h₀.hdr.maxBucket) {id : Nat}
    (hand : InHand hashp id (h₀.hdr.bucketToPage b)) :
    (hashp.mp.bkt id).page.numEnt = 0 ↔ img.chain b = [] := by
  have tells := h.page hand
  constructor
  · intro none
    cases chain : img.chain b with
    | nil => rfl
    | cons p l =>
      have number := (img.linked b low p l chain).1
      have on : p ∈ img.chain b := by rw [chain]; exact List.mem_cons_self
      have agree := tells.page (.inr ⟨b, low, by rw [number]; exact on⟩)
      have filled := img.filled b low p l chain
      rw [agree.numEnt, number] at none
      omega
  · exact fun none => tells.empty b low none rfl

theorem noteBeyond_returns : (noteBeyond b).Returns hashp () hashp := by
  simp only [noteBeyond, Prog.Returns, Prog.run_read_bind]
  split <;> rfl

theorem cursorBucket_returns (h : img.Serves hashp) (crs : Crs) (key : crs.keyCursor = true)
    (low : b < 0x80000000) : ∃ id hashp',
      (cursorBucket crs b).Returns hashp
        { crs with pagep := some id, pgno := h₀.hdr.bucketToPage b, bucket := b } hashp' ∧
      Holds img hashp' { crs with pagep := some id, pgno := h₀.hdr.bucketToPage b, bucket := b } b := by
  obtain ⟨id, hashp', get, got⟩ := getPage_returns h (address_bucket h low)
  refine ⟨id, hashp', ?_, got.serves, key, rfl, rfl, id, rfl, got.hand⟩
  rw [cursorBucket, noteBeyond_returns.bind, get.bind]
  simp

inductive Lands (img : Image h₀) (hashp : Htab) (buckets : List Nat) : Place → Prop
  | nowhere {crs : Crs} (empty : ∀ b ∈ buckets, img.chain b = []) (ended : crs.Ended) :
      Lands img hashp buckets (.notFound crs)
  | there {crs : Crs} {pre post : List Nat} {b p : Nat} {l : List Nat}
      (split : buckets = pre ++ b :: post) (empty : ∀ a ∈ pre, img.chain a = [])
      (chain : img.chain b = p :: l) (low : b ≤ h₀.hdr.maxBucket) (holds : Holds img hashp crs b)
      (status : crs.status = .ok) : Lands img hashp buckets (.at crs)

theorem Lands.cons {place : Place} {buckets : List Nat} (h : Lands img hashp buckets place)
    (empty : img.chain b = []) : Lands img hashp (b :: buckets) place := by
  cases h with
  | nowhere all ended => exact .nowhere (List.forall_mem_cons.mpr ⟨empty, all⟩) ended
  | there split all chain low holds status =>
    exact .there (by rw [split, List.cons_append]) (List.forall_mem_cons.mpr ⟨empty, all⟩) chain low
      holds status

inductive Visits (last : Nat → Bool) (step : Nat → Nat) : Nat → List Nat → Prop
  | stop {b : Nat} (here : last b = true) : Visits last step b [b]
  | go {b : Nat} {l : List Nat} (on : last b = false) (rest : Visits last step (step b) l) :
      Visits last step b (b :: l)

theorem Holds.lands (h : Holds img hashp crs b) (low : b ≤ h₀.hdr.maxBucket)
    (some : img.chain b ≠ []) (n : Nat) (l : List Nat) :
    Lands img hashp (b :: l) (.at { crs with pgndx := n, status := .ok }) := by
  obtain ⟨p, behind, chain⟩ := List.exists_cons_of_ne_nil some
  exact .there (show b :: l = [] ++ b :: l from rfl) (fun a mem => absurd mem List.not_mem_nil) chain low
    ⟨h.serves, h.key, h.bucket, h.pgno, h.hand⟩ rfl

theorem skipEmpty_here (last : Nat → Bool) (step : Nat → Nat) (h : Holds img hashp crs b)
    (low : b ≤ h₀.hdr.maxBucket) (some : img.chain b ≠ []) {fuel : Nat} (pos : 0 < fuel) :
    (skipEmpty last step fuel crs).Returns hashp (.at { crs with status := .ok }) hashp := by
  obtain ⟨fuel, rfl⟩ := Nat.exists_eq_succ_of_ne_zero pos.ne'
  obtain ⟨id, eq, hand⟩ := h.hand
  simp only [skipEmpty, eq]
  refine Prog.returns_bind.mpr ⟨_, hashp, page_returns, ?_⟩
  rw [if_neg (mt (h.serves.empty_iff low hand).mp some)]
  simp

theorem skipEmpty_returns {last : Nat → Bool} {step : Nat → Nat} {l : List Nat}
    (visits : Visits last step b l) (low : ∀ a ∈ l, a ≤ h₀.hdr.maxBucket)
    (h : Holds img hashp crs b) {fuel : Nat} (enough : l.length ≤ fuel) :
    ∃ place hashp', (skipEmpty last step fuel crs).Returns hashp place hashp' ∧
      img.Serves hashp' ∧ Lands img hashp' l place := by
  induction visits generalizing hashp crs fuel with
  | @stop b here =>
    have bound := low b List.mem_cons_self
    by_cases none : img.chain b = []
    · obtain ⟨fuel, rfl⟩ := Nat.exists_eq_succ_of_ne_zero (Nat.one_le_iff_ne_zero.mp enough)
      obtain ⟨id, eq, hand⟩ := h.hand
      obtain ⟨hashp', put, serves, _⟩ := putPage_returns h.serves hand
      refine ⟨.notFound crs.noMore, hashp', ?_, serves,
        .nowhere (List.forall_mem_singleton.mpr none) ⟨h.key, rfl, rfl⟩⟩
      simp only [skipEmpty, eq]
      refine Prog.returns_bind.mpr ⟨_, hashp, page_returns, ?_⟩
      rw [if_pos ((h.serves.empty_iff bound hand).mpr none)]
      refine Prog.returns_bind.mpr ⟨(), hashp', put, ?_⟩
      rw [h.bucket, if_pos here]
      simp
    · exact ⟨_, hashp, skipEmpty_here last step h bound none enough, h.serves,
        h.lands bound none crs.pgndx []⟩
  | @go b l on rest ih =>
    have bound := low b List.mem_cons_self
    have pos : 0 < fuel := (Nat.succ_pos _).trans_le enough
    by_cases none : img.chain b = []
    · obtain ⟨fuel, rfl⟩ := Nat.exists_eq_succ_of_ne_zero pos.ne'
      obtain ⟨id, eq, hand⟩ := h.hand
      obtain ⟨mid, put, serves, _⟩ := putPage_returns h.serves hand
      have below : ∀ a ∈ l, a ≤ h₀.hdr.maxBucket := fun a mem => low a (List.mem_cons_of_mem _ mem)
      have next : step b ∈ l := by
        cases rest with
        | stop => exact List.mem_cons_self
        | go => exact List.mem_cons_self
      obtain ⟨id', mid', get, holds⟩ := cursorBucket_returns serves { crs with pagep := .none }
        h.key ((below _ next).trans_lt img.buckets)
      obtain ⟨place, hashp', skip, serves', lands⟩ := ih below holds (Nat.succ_le_succ_iff.mp enough)
      refine ⟨place, hashp', ?_, serves', lands.cons none⟩
      simp only [skipEmpty, eq]
      refine Prog.returns_bind.mpr ⟨_, hashp, page_returns, ?_⟩
      rw [if_pos ((h.serves.empty_iff bound hand).mpr none)]
      refine Prog.returns_bind.mpr ⟨(), mid, put, ?_⟩
      rw [h.bucket, if_neg (by rw [on]; exact Bool.false_ne_true)]
      exact Prog.returns_bind.mpr ⟨_, mid', get, skip⟩
    · exact ⟨_, hashp, skipEmpty_here last step h bound none pos, h.serves,
        h.lands bound none crs.pgndx l⟩

theorem address_stuck {b : Nat} (high : 0x80000000 ≤ b) {r : Nat} :
    ¬(address b hashBucketPage).Returns hashp r hashp' := by
  simp [address, Prog.Returns, high]

theorem cursorBucket_stuck {b : Nat} (high : 0x80000000 ≤ b) {r : Crs} :
    ¬(cursorBucket crs b).Returns hashp r hashp' := by
  intro run
  rw [cursorBucket, noteBeyond_returns.bind] at run
  obtain ⟨_, _, get, _⟩ := Prog.returns_bind.mp run
  obtain ⟨_, s, address, _⟩ := Prog.returns_bind.mp get
  have same : s = hashp := by
    simp only [Htab.address, Prog.Returns, Prog.run_read_bind, if_true] at address
    split at address <;> cases address
  exact address_stuck high (same ▸ address)

theorem skipFirst_here (h : Holds img hashp crs b) (low : b ≤ h₀.hdr.maxBucket)
    (some : img.chain b ≠ []) (fuel : Nat) :
    (skipFirst h₀.hdr.maxBucket (fuel + 1) crs).Returns hashp
      (.at { crs with pgndx := 0, status := .ok }) hashp := by
  obtain ⟨id, eq, hand⟩ := h.hand
  have filled := mt (h.serves.empty_iff low hand).mp some
  simp only [skipFirst, eq, page_returns.bind]
  rw [if_neg (fun both => filled both.1), h.bucket, if_neg (not_lt.mpr low)]
  simp

theorem skipFirst_next (h : Holds img hashp crs b) (low : b ≤ h₀.hdr.maxBucket)
    (none : img.chain b = []) (next : b + 1 < 0x80000000) : ∃ crs' mid, Holds img mid crs' (b + 1) ∧
      ∀ fuel place hashp', (skipFirst h₀.hdr.maxBucket (fuel + 1) crs).Returns hashp place hashp' ↔
        (skipFirst h₀.hdr.maxBucket fuel crs').Returns mid place hashp' := by
  obtain ⟨id, eq, hand⟩ := h.hand
  obtain ⟨mid, put, serves, _⟩ := putPage_returns h.serves hand
  obtain ⟨id', mid', get, holds⟩ := cursorBucket_returns serves { crs with pagep := .none }
    h.key next
  refine ⟨_, mid', holds, fun fuel place hashp' => ?_⟩
  have number : u32 (crs.bucket + 1) = b + 1 := by
    rw [h.bucket]
    exact u32_succ (low.trans_lt img.buckets)
  simp only [skipFirst, eq, page_returns.bind]
  rw [if_pos ⟨(h.serves.empty_iff low hand).mpr none, by rw [h.bucket]; exact low⟩, put.bind,
    number, get.bind]

theorem skipFirst_past (h : Holds img hashp crs (h₀.hdr.maxBucket + 1)) (fuel : Nat) : ∃ crs' hashp',
    (skipFirst h₀.hdr.maxBucket (fuel + 1) crs).Returns hashp (.notFound crs') hashp' ∧
      img.Serves hashp' ∧ crs'.Ended := by
  obtain ⟨id, eq, hand⟩ := h.hand
  obtain ⟨hashp', put, serves, _⟩ := putPage_returns h.serves hand
  refine ⟨crs.noMore, hashp', ?_, serves, h.key, rfl, rfl⟩
  simp only [skipFirst, eq, page_returns.bind]
  rw [h.bucket, if_neg (fun both => absurd both.2 (by omega)), if_pos (Nat.lt_succ_self _), put.bind]
  simp

/-- The search of `FFDB_FIRST` ends, unless the table is empty and there is no bucket after
the last for it to look at. -/
theorem skipFirst_returns {n : Nat} (h : Holds img hashp crs b) (last : b + n = h₀.hdr.maxBucket)
    (ends : h₀.hdr.maxBucket + 1 < 0x80000000 ∨
      ∃ a, b ≤ a ∧ a ≤ h₀.hdr.maxBucket ∧ img.chain a ≠ [])
    (fuel : Nat) (enough : n + 2 ≤ fuel) :
    ∃ place hashp', (skipFirst h₀.hdr.maxBucket fuel crs).Returns hashp place hashp' ∧
      img.Serves hashp' ∧ Lands img hashp' (List.range' b (n + 1)) place ∧
      ∀ crs', place = .at crs' → crs'.pgndx = 0 := by
  induction n generalizing hashp crs b fuel with
  | zero =>
    obtain ⟨fuel, rfl⟩ := Nat.exists_eq_add_of_le' enough
    have low : b ≤ h₀.hdr.maxBucket := by omega
    by_cases none : img.chain b = []
    · have room : h₀.hdr.maxBucket + 1 < 0x80000000 := by
        rcases ends with room | ⟨a, above, below, some⟩
        · exact room
        · rw [show a = b by omega] at some
          exact absurd none some
      obtain ⟨crs', mid, holds, turn⟩ := skipFirst_next h low none (by omega)
      rw [show b + 1 = h₀.hdr.maxBucket + 1 by omega] at holds
      obtain ⟨crs'', hashp', past, serves, ended⟩ := skipFirst_past holds fuel
      exact ⟨_, hashp', (turn _ _ _).mpr past, serves,
        .nowhere (List.forall_mem_singleton.mpr none) ended, fun _ eq => by cases eq⟩
    · exact ⟨_, hashp, skipFirst_here h low none _, h.serves, h.lands low none 0 _,
        fun _ eq => by cases eq; rfl⟩
  | succ n ih =>
    obtain ⟨fuel, rfl⟩ := Nat.exists_eq_add_of_le' enough
    have low : b ≤ h₀.hdr.maxBucket := by omega
    have bound := img.buckets
    rw [List.range'_succ]
    by_cases none : img.chain b = []
    · obtain ⟨crs', mid, holds, turn⟩ := skipFirst_next h low none (by omega)
      have ends' : h₀.hdr.maxBucket + 1 < 0x80000000 ∨
          ∃ a, b + 1 ≤ a ∧ a ≤ h₀.hdr.maxBucket ∧ img.chain a ≠ [] := by
        refine ends.imp_right ?_
        rintro ⟨a, above, below, some⟩
        refine ⟨a, Nat.lt_of_le_of_ne above ?_, below, some⟩
        rintro rfl
        exact some none
      obtain ⟨place, hashp', skip, serves, lands, first⟩ :=
        ih holds (by omega) ends' (fuel + n + 2) (by omega)
      exact ⟨place, hashp', (turn _ _ _).mpr skip, serves, lands.cons none, first⟩
    · exact ⟨_, hashp, skipFirst_here h low none _, h.serves, h.lands low none 0 _,
        fun _ eq => by cases eq; rfl⟩

theorem skipFirst_stuck {n : Nat} (h : Holds img hashp crs b) (last : b + n = h₀.hdr.maxBucket)
    (full : h₀.hdr.maxBucket + 1 = 0x80000000)
    (none : ∀ a, b ≤ a → a ≤ h₀.hdr.maxBucket → img.chain a = []) (fuel : Nat) (place : Place) :
    ¬(skipFirst h₀.hdr.maxBucket fuel crs).Returns hashp place hashp' := by
  induction n generalizing hashp crs b fuel with
  | zero =>
    cases fuel with
    | zero => exact Prog.returns_halt
    | succ fuel =>
      have low : b ≤ h₀.hdr.maxBucket := by omega
      obtain ⟨id, eq, hand⟩ := h.hand
      obtain ⟨mid, put, _⟩ := putPage_returns h.serves hand
      simp only [skipFirst, eq, page_returns.bind]
      rw [if_pos ⟨(h.serves.empty_iff low hand).mpr (none b le_rfl low), by rw [h.bucket]; exact low⟩,
        put.bind]
      intro run
      obtain ⟨_, _, get, _⟩ := Prog.returns_bind.mp run
      refine cursorBucket_stuck ?_ get
      rw [h.bucket, u32_succ (low.trans_lt img.buckets)]
      omega
  | succ n ih =>
    cases fuel with
    | zero => exact Prog.returns_halt
    | succ fuel =>
      obtain ⟨crs', mid, holds, turn⟩ :=
        skipFirst_next h (by omega) (none b le_rfl (by omega)) (by omega)
      rw [turn]
      exact ih holds (by omega) (fun a above => none a (by omega)) fuel

theorem skipLast_here (h : Holds img hashp crs b) (low : b ≤ h₀.hdr.maxBucket)
    (some : img.chain b ≠ []) (fuel : Nat) : ∃ n,
    (skipLast (fuel + 1) crs).Returns hashp (.at { crs with pgndx := n, status := .ok }) hashp ∧
      n + 1 = (img.view crs.pgno).numEnt := by
  obtain ⟨id, eq, hand⟩ := h.hand
  have filled := mt (h.serves.empty_iff low hand).mp some
  refine ⟨(hashp.mp.bkt id).page.numEnt - 1, ?_, ?_⟩
  · simp only [skipLast, eq, page_returns.bind]
    rw [if_neg filled]
    simp
  · obtain ⟨p, l, chain⟩ := List.exists_cons_of_ne_nil some
    have number := (img.linked b low p l chain).1
    have on : p ∈ img.chain b := by rw [chain]; exact List.mem_cons_self
    have agree := (h.serves.page hand).page (.inr ⟨b, low, by rw [number]; exact on⟩)
    rw [h.pgno]
    rw [agree.numEnt] at filled ⊢
    omega

theorem skipLast_next (h : Holds img hashp crs (b + 1)) (low : b + 1 ≤ h₀.hdr.maxBucket)
    (none : img.chain (b + 1) = []) : ∃ crs' mid, Holds img mid crs' b ∧
      ((b = 0 ∧ img.chain 0 = []) → ∀ fuel, ∃ crs' hashp',
        (skipLast (fuel + 1) crs).Returns hashp (.notFound crs') hashp' ∧ img.Serves hashp' ∧
          crs'.Ended) ∧
      (¬(b = 0 ∧ img.chain 0 = []) → ∀ fuel place hashp',
        (skipLast (fuel + 1) crs).Returns hashp place hashp' ↔
          (skipLast fuel crs').Returns mid place hashp') := by
  have bound := img.buckets
  obtain ⟨id, eq, hand⟩ := h.hand
  obtain ⟨mid, put, serves, _⟩ := putPage_returns h.serves hand
  obtain ⟨id', mid', get, holds⟩ := cursorBucket_returns serves { crs with pagep := .none }
    h.key (show b < 0x80000000 by omega)
  have number : u32 (crs.bucket + 0xffffffff) = b := by
    rw [h.bucket]
    exact u32_pred (by omega)
  obtain ⟨_, ⟨⟩, hand'⟩ := holds.hand
  have empty := holds.serves.empty_iff (by omega) hand'
  refine ⟨_, mid', holds, fun first fuel => ?_, fun other fuel place hashp' => ?_⟩
  · obtain ⟨rfl, chain⟩ := first
    obtain ⟨hashp', put', serves', _⟩ := putPage_returns holds.serves hand'
    refine ⟨Crs.noMore { crs with
      pagep := some id', pgno := h₀.hdr.bucketToPage 0, bucket := 0 }, hashp', ?_, serves',
      h.key, rfl, rfl⟩
    simp only [skipLast, eq, page_returns.bind]
    rw [if_pos ((h.serves.empty_iff low hand).mpr none), put.bind, number, get.bind]
    simp only [page_returns.bind]
    rw [if_pos ⟨trivial, empty.mpr chain⟩, put'.bind]
    simp
  · simp only [skipLast, eq, page_returns.bind]
    rw [if_pos ((h.serves.empty_iff low hand).mpr none), put.bind, number, get.bind]
    simp only [page_returns.bind]
    rw [if_neg]
    rintro ⟨rfl, filled⟩
    exact other ⟨rfl, empty.mp filled⟩

/-- The search of `FFDB_LAST` ends when it has a bucket to go back to. -/
theorem skipLast_returns (h : Holds img hashp crs b) (low : b ≤ h₀.hdr.maxBucket)
    (ends : 0 < b ∨ img.chain 0 ≠ []) (fuel : Nat) (enough : b < fuel) :
    ∃ place hashp', (skipLast fuel crs).Returns hashp place hashp' ∧ img.Serves hashp' ∧
      Lands img hashp' (List.range (b + 1)).reverse place ∧
      ∀ crs', place = .at crs' → crs'.pgndx + 1 = (img.view crs'.pgno).numEnt := by
  induction b generalizing hashp crs fuel with
  | zero =>
    obtain ⟨fuel, rfl⟩ := Nat.exists_eq_add_of_le' enough
    have some : img.chain 0 ≠ [] := ends.resolve_left (lt_irrefl 0)
    obtain ⟨n, run, last⟩ := skipLast_here h low some fuel
    exact ⟨_, hashp, run, h.serves, h.lands low some n [], fun _ eq => by cases eq; exact last⟩
  | succ b ih =>
    obtain ⟨fuel, rfl⟩ := Nat.exists_eq_add_of_le' enough
    rw [List.range_succ, List.reverse_append]
    by_cases none : img.chain (b + 1) = []
    · obtain ⟨crs', mid, holds, first, next⟩ := skipLast_next h low none
      by_cases done : b = 0 ∧ img.chain 0 = []
      · obtain ⟨crs', hashp', run, serves, ended⟩ := first done (fuel + (b + 1))
        refine ⟨_, hashp', run, serves, .nowhere ?_ ended, fun _ eq => by cases eq⟩
        obtain ⟨rfl, chain⟩ := done
        simp [none, chain]
      · have ends' : 0 < b ∨ img.chain 0 ≠ [] := by
          rw [not_and_or] at done
          exact done.imp_left Nat.pos_of_ne_zero
        obtain ⟨place, hashp', run, serves, lands, last⟩ :=
          ih holds (by omega) ends' (fuel + (b + 1)) (by omega)
        exact ⟨place, hashp', (next done _ _ _).mpr run, serves, lands.cons none, last⟩
    · obtain ⟨n, run, last⟩ := skipLast_here h low none (fuel + (b + 1))
      exact ⟨_, hashp, run, h.serves, h.lands low none n _, fun _ eq => by cases eq; exact last⟩

theorem skipLast_stuck (h : Holds img hashp crs 0) (none : img.chain 0 = []) (fuel : Nat)
    (place : Place) : ¬(skipLast fuel crs).Returns hashp place hashp' := by
  cases fuel with
  | zero => exact Prog.returns_halt
  | succ fuel =>
    obtain ⟨id, eq, hand⟩ := h.hand
    obtain ⟨mid, put, _⟩ := putPage_returns h.serves hand
    simp only [skipLast, eq, page_returns.bind]
    rw [if_pos ((h.serves.empty_iff (Nat.zero_le _) hand).mpr none), put.bind]
    intro run
    obtain ⟨_, _, get, _⟩ := Prog.returns_bind.mp run
    refine cursorBucket_stuck ?_ get
    rw [h.bucket]
    decide

theorem range'_split {s n : Nat} {pre post : List Nat} (split : List.range' s n = pre ++ b :: post) :
    post = List.range' (b + 1) (s + n - (b + 1)) := by
  induction pre generalizing s n with
  | nil =>
    cases n with
    | zero => simp at split
    | succ n =>
      rw [List.range'_succ, List.nil_append, List.cons.injEq] at split
      obtain ⟨rfl, rfl⟩ := split
      congr 1
      omega
  | cons a pre ih =>
    cases n with
    | zero => simp at split
    | succ n =>
      rw [List.range'_succ, List.cons_append, List.cons.injEq] at split
      rw [ih split.2]
      congr 1
      omega

theorem reverse_range_split {n : Nat} {pre post : List Nat}
    (split : (List.range n).reverse = pre ++ b :: post) : post = (List.range b).reverse := by
  induction pre generalizing n with
  | nil =>
    cases n with
    | zero => simp at split
    | succ n =>
      rw [List.range_succ, List.reverse_append, List.reverse_singleton, List.singleton_append,
        List.nil_append, List.cons.injEq] at split
      obtain ⟨rfl, rfl⟩ := split
      rfl
  | cons a pre ih =>
    cases n with
    | zero => simp at split
    | succ n =>
      rw [List.range_succ, List.reverse_append, List.reverse_singleton, List.singleton_append,
        List.cons_append, List.cons.injEq] at split
      exact ih split.2

theorem Holds.stands (h : Holds img hashp crs b) (low : b ≤ h₀.hdr.maxBucket)
    (chain : img.chain b = p :: behind) (status : crs.status = .ok) (pgndx : crs.pgndx = i)
    (slot : i < (img.view p).numEnt) : Stands img hashp crs b p i behind := by
  have number := (img.linked b low p behind chain).1
  obtain ⟨id, eq, hand⟩ := h.hand
  rw [number] at hand
  exact ⟨h.serves, h.key, status, h.bucket, h.pgno.trans number, pgndx, ⟨id, eq, hand⟩, low,
    ⟨[], chain⟩, slot⟩

theorem cursorOvfl_returns {q : Nat} {l : List Nat} (h : img.Serves hashp) (crs : Crs) (key : crs.keyCursor = true)
    (low : b ≤ h₀.hdr.maxBucket) (bucket : crs.bucket = b)
    (on : ∃ pre, img.chain b = pre ++ q :: l) : ∃ crs' hashp',
      (cursorOvfl crs q).Returns hashp (.at crs') hashp' ∧
      (∃ mem, crs'.pagep = some mem ∧ InHand hashp' mem q) ∧
      ∀ j < (img.view q).numEnt, Stands img hashp' { crs' with pgndx := j } b q j l := by
  obtain ⟨id, hashp', get, got⟩ := getPage_returns h
    (address_other q (show hashRawPage ≠ hashBucketPage by decide))
  refine ⟨{ crs with pagep := some id, pgno := q, status := .ok }, hashp', ?_, ⟨id, rfl, got.hand⟩,
    fun j slot => ?_⟩
  · rw [cursorOvfl, get.bind]
    simp
  · exact ⟨got.serves, key, rfl, bucket, rfl, rfl, ⟨id, rfl, got.hand⟩, low, on, slot⟩

theorem Crs.Ended.settle (h : crs.Ended) (old : Crs) (own : Bool) : ∃ crs' : Crs,
    (Place.notFound crs).settle old own = .notFound crs' ∧ crs'.Ended :=
  ⟨_, rfl, h.key, h.pagep, h.status⟩

theorem Lands.settle {buckets : List Nat} {place : Place} (h : Lands img hashp buckets place)
    (old : Crs) (own : Bool) : Lands img hashp buckets (place.settle old own) := by
  cases h with
  | nowhere empty ended =>
    obtain ⟨crs', eq, ended'⟩ := ended.settle old own
    rw [eq]
    exact .nowhere empty ended'
  | there split empty chain low holds status => exact .there split empty chain low holds status

theorem visits_up {n : Nat} {max : Nat} (last : b + n = max) (bound : max < 0x80000000) :
    Visits (fun b => b == max) (fun b => u32 (b + 1)) b (List.range' b (n + 1)) := by
  induction n generalizing b with
  | zero => exact .stop (by simpa using last)
  | succ n ih =>
    refine .go (by simp only [beq_eq_false_iff_ne]; omega) ?_
    rw [u32_succ (by omega)]
    exact ih (by omega)

theorem visits_down (bound : b < 0x80000000) :
    Visits (fun b => b == 0) (fun b => u32 (b + 0xffffffff)) b (List.range (b + 1)).reverse := by
  induction b with
  | zero => exact .stop rfl
  | succ b ih =>
    rw [List.range_succ, List.reverse_append]
    refine .go rfl ?_
    rw [u32_pred (by omega)]
    exact ih (by omega)

theorem Lands.turn {buckets : List Nat} (h : Lands img hashp buckets (.at crs)) (n : Nat) :
    Lands img hashp buckets (.at { crs with pgndx := n }) := by
  cases h with
  | there split empty chain low holds status =>
    exact .there split empty chain low ⟨holds.serves, holds.key, holds.bucket, holds.pgno, holds.hand⟩
      status

theorem Stands.form (h : Stands img hashp crs b p i behind) :
    ∃ id, crs = ⟨true, some id, p, b, i, .ok⟩ ∧ InHand hashp id p := by
  obtain ⟨id, eq, hand⟩ := h.hand
  refine ⟨id, ?_, hand⟩
  cases crs
  rw [Crs.mk.injEq]
  exact ⟨h.key, eq, h.pgno, h.bucket, h.pgndx, h.status⟩


theorem Stands.loose (h : Stands img hashp crs b p i behind) : Loose img hashp crs := by
  obtain ⟨id, rfl, hand⟩ := h.form
  exact ⟨h.serves, rfl, fun j eq => by cases eq; exact ⟨p, hand⟩⟩

theorem Crs.Ended.loose (h : crs.Ended) (serves : img.Serves hashp) : Loose img hashp crs :=
  ⟨serves, h.key, fun id eq => by rw [h.pagep] at eq; cases eq⟩

theorem loose_hashCursor (serves : img.Serves hashp) : Loose img hashp (hashCursor true) :=
  ⟨serves, rfl, fun id eq => by cases eq⟩

theorem releaseCursor_returns (h : Loose img hashp crs) : ∃ hashp',
    (releaseCursor crs).Returns hashp () hashp' ∧ img.Serves hashp' := by
  rw [releaseCursor]
  cases eq : crs.pagep with
  | none => exact ⟨hashp, Prog.returns_pure.mpr ⟨rfl, rfl⟩, h.serves⟩
  | some id =>
    obtain ⟨p, hand⟩ := h.hand id eq
    obtain ⟨hashp', put, serves, _⟩ := putPage_returns h.serves hand
    exact ⟨hashp', put, serves⟩

inductive Moved (img : Image h₀) (to' : Spot → Prop) (hashp : Htab) : Place → Prop
  | there {crs : Crs} {x : Spot} (goal : to' x) (stands : StandsAt img hashp crs x) :
      Moved img to' hashp (.at crs)
  | nowhere {crs : Crs} (none : ∀ x, ¬to' x) (serves : img.Serves hashp) (ended : crs.Ended) :
      Moved img to' hashp (.notFound crs)

theorem Lands.up {s n : Nat} (h : Lands img hashp (List.range' s n) (.at crs))
    (first : crs.pgndx = 0) : ∃ x : Spot, s ≤ x.bucket ∧ x.bucket ≤ h₀.hdr.maxBucket ∧
      (∀ a, s ≤ a → a < x.bucket → img.chain a = []) ∧ img.chain x.bucket = x.page :: x.behind ∧
      x.slot = 0 ∧ StandsAt img hashp crs x := by
  generalize list : List.range' s n = buckets at h
  cases h with
  | @there _ pre post b p l split empty chain low holds status =>
    have later := range'_split (list.trans split)
    have bounds : s ≤ b ∧ b < s + n := by
      rw [← List.mem_range'_1, list, split]
      exact List.mem_append_right _ List.mem_cons_self
    refine ⟨⟨b, p, 0, l⟩, bounds.1, low, fun a above below => ?_, chain, rfl,
      holds.stands low chain status first (img.filled b low p l chain)⟩
    have mem : a ∈ List.range' s n := List.mem_range'_1.mpr ⟨above, below.trans bounds.2⟩
    rw [list, split] at mem
    rcases List.mem_append.mp mem with before | after
    · exact empty a before
    · rcases List.mem_cons.mp after with same | after
      · exact absurd same below.ne
      · rw [later, List.mem_range'_1] at after
        exact absurd after.1 (Nat.not_le.mpr (Nat.lt_succ_of_lt below))

theorem Lands.down {n : Nat} (h : Lands img hashp (List.range n).reverse (.at crs))
    (last : crs.pgndx + 1 = (img.view crs.pgno).numEnt) : ∃ x : Spot, x.bucket < n ∧
      x.bucket ≤ h₀.hdr.maxBucket ∧ (∀ a, x.bucket < a → a < n → img.chain a = []) ∧
      img.chain x.bucket = x.page :: x.behind ∧ x.slot + 1 = (img.view x.page).numEnt ∧
      StandsAt img hashp crs x := by
  generalize list : (List.range n).reverse = buckets at h
  cases h with
  | @there _ pre post b p l split empty chain low holds status =>
    rw [holds.pgno, (img.linked b low p l chain).1] at last
    have later := reverse_range_split (list.trans split)
    have bound : b < n := by
      rw [← List.mem_range, ← List.mem_reverse, list, split]
      exact List.mem_append_right _ List.mem_cons_self
    have slot : crs.pgndx < (img.view p).numEnt := by omega
    refine ⟨⟨b, p, crs.pgndx, l⟩, bound, low, fun a above below => ?_, chain, last,
      holds.stands low chain status rfl slot⟩
    have mem : a ∈ (List.range n).reverse := List.mem_reverse.mpr (List.mem_range.mpr below)
    rw [list, split] at mem
    rcases List.mem_append.mp mem with before | after
    · exact empty a before
    · rcases List.mem_cons.mp after with same | after
      · exact absurd same above.ne'
      · rw [later, List.mem_reverse, List.mem_range] at after
        exact absurd after (Nat.lt_asymm above)

theorem nextBucket_returns (h : img.Serves hashp) (below : b < h₀.hdr.maxBucket)
    (crs : Crs) (key : crs.keyCursor = true) : ∃ crs' mid place hashp',
      (cursorBucket crs (b + 1)).Returns hashp crs' mid ∧
      (skipEmpty (fun b => b == h₀.hdr.maxBucket) (fun b => u32 (b + 1)) pageFuel crs').Returns mid
        place hashp' ∧ img.Serves hashp' ∧
      Lands img hashp' (List.range' (b + 1) (h₀.hdr.maxBucket - b)) place := by
  have bound := img.buckets
  obtain ⟨n, size⟩ : ∃ n, h₀.hdr.maxBucket - b = n + 1 := ⟨h₀.hdr.maxBucket - b - 1, by omega⟩
  have visits := visits_up (b := b + 1) (n := n) (show b + 1 + n = h₀.hdr.maxBucket by omega) bound
  obtain ⟨id', mid, get, holds⟩ := cursorBucket_returns h crs key (show b + 1 < 0x80000000 by omega)
  obtain ⟨place, hashp', skip, serves, lands⟩ := skipEmpty_returns visits (fun a mem => by
    have := List.mem_range'_1.mp mem
    omega) holds (show (List.range' (b + 1) (n + 1)).length ≤ pageFuel by
      rw [List.length_range', pageFuel]
      omega)
  rw [size]
  exact ⟨_, mid, place, hashp', get, skip, serves, lands⟩

/-- `FFDB_NEXT` goes to the next spot. -/
theorem cursorNext_moves (whole : img.Whole) {x : Spot} (h : StandsAt img hashp crs x) :
    ∃ place hashp', (cursorNext crs).Returns hashp place hashp' ∧
      Moved img (img.Next x) hashp' place := by
  obtain ⟨b, p, i, behind⟩ := x
  obtain ⟨mem, rfl, hand⟩ := h.form
  dsimp only at h hand ⊢
  have agree := h.page hand
  have few : (img.view p).numEnt < 65536 := Lib.Mem.read16_lt
  have bound := img.buckets
  have slot := h.slot
  have low := h.low
  dsimp only at slot low
  simp only [cursorNext, Prog.returns_read_bind, page_returns.bind, agree.numEnt, agree.nextPgno,
    h.serves.hdr]
  by_cases full : i + 1 = (img.view p).numEnt
  · obtain ⟨mid, put, serves, _⟩ := putPage_returns h.serves hand
    simp only [if_pos full, put.bind]
    cases h.follow with
    | last none =>
      by_cases final : h₀.hdr.maxBucket ≤ b
      · simp only [if_pos (And.intro final none)]
        refine ⟨_, mid, Prog.returns_pure.mpr ⟨rfl, rfl⟩, .nowhere ?_ serves ⟨rfl, rfl, rfl⟩⟩
        intro y next
        cases next with
        | slot inside => omega
        | bucket _ up low' => omega
      · obtain ⟨crs', mid', place, hashp', get, skip, serves', lands⟩ :=
          nextBucket_returns (b := b) serves (by omega) ⟨true, .none, p, b, i, .ok⟩ rfl
        have more : ¬(h₀.hdr.maxBucket ≤ b ∧ (img.view p).nextPgno = invalidPgno) :=
          fun both => final both.1
        simp only [if_neg more, if_pos none, u32_succ (show b < 0x80000000 by omega), get.bind,
          skip.bind]
        cases place with
        | «at» crs =>
          obtain ⟨⟨b', p', j, l⟩, above, low', between, chain, rfl, stands⟩ := (lands.turn 0).up rfl
          exact ⟨_, hashp', Prog.returns_pure.mpr ⟨rfl, rfl⟩,
            .there (.bucket full above low' between chain) stands⟩
        | notFound crs =>
          cases lands with
          | nowhere empty ended =>
            obtain ⟨crs'', eq, ended'⟩ := ended.settle ⟨true, some mem, p, b, i, .ok⟩ false
            refine ⟨_, hashp', Prog.returns_pure.mpr ⟨rfl, rfl⟩, ?_⟩
            rw [eq]
            refine .nowhere (fun y next => ?_) serves' ended'
            cases next with
            | slot inside => omega
            | @bucket _ _ _ b' _ _ _ up low' _ chain =>
              have nil := empty b' (List.mem_range'_1.mpr (by omega))
              rw [chain] at nil
              cases nil
        | failed crs => cases lands
    | @next _ q l link some follow =>
      obtain ⟨pre, on⟩ := h.on
      have onq : img.chain b = (pre ++ [p]) ++ q :: l := by rw [on, List.append_assoc]; rfl
      have slotq := whole b low q (by rw [onq]; simp)
      obtain ⟨crs', hashp', ovfl, _, stands⟩ := cursorOvfl_returns serves
        ⟨true, .some mem, p, b, i, .ok⟩ rfl low rfl ⟨_, onq⟩
      have more : ¬(h₀.hdr.maxBucket ≤ b ∧ q = invalidPgno) := fun both => some both.2
      simp only [link, if_neg more, if_neg some, ovfl.bind]
      have next : img.Next ⟨b, p, i, q :: l⟩ ⟨b, q, 0, l⟩ := .page full
      exact ⟨_, hashp', Prog.returns_pure.mpr ⟨rfl, rfl⟩, .there next (stands 0 slotq)⟩
  · have inside : i + 1 < (img.view p).numEnt := by omega
    simp only [if_neg full, Nat.mod_eq_of_lt (show i + 1 < 65536 by omega)]
    have next : img.Next ⟨b, p, i, behind⟩ ⟨b, p, i + 1, behind⟩ := .slot inside
    exact ⟨_, hashp, Prog.returns_pure.mpr ⟨rfl, rfl⟩, .there next (h.turn inside)⟩

/-- The index `FFDB_PREV` gives a cursor that has come to a page: the page's last slot. -/
theorem last_slot {n : Nat} (pos : 0 < n) (few : n < 65536) : (n + 65535) % 65536 + 1 = n := by
  omega

theorem Lands.page {buckets : List Nat} (h : Lands img hashp buckets (.at crs)) : ∃ mem,
    crs.pagep = some mem ∧ (hashp.mp.bkt mem).page.numEnt = (img.view crs.pgno).numEnt ∧
      0 < (img.view crs.pgno).numEnt := by
  cases h with
  | @there _ pre post b p l split empty chain low holds status =>
    obtain ⟨mem, eq, hand⟩ := holds.hand
    have on : p ∈ img.chain b := by rw [chain]; exact List.mem_cons_self
    have number := (img.linked b low p l chain).1
    have agree := (holds.serves.page hand).page (.inr ⟨b, low, by rw [number]; exact on⟩)
    rw [holds.pgno, number]
    rw [number] at agree
    exact ⟨mem, eq, agree.numEnt, img.filled b low p l chain⟩

theorem previousBucket_returns (h : img.Serves hashp) (low : b + 1 ≤ h₀.hdr.maxBucket)
    (crs : Crs) (key : crs.keyCursor = true) : ∃ crs' mid place hashp',
      (cursorBucket crs b).Returns hashp crs' mid ∧ crs'.pagep.isNone = false ∧
      (skipEmpty (fun b => b == 0) (fun b => u32 (b + 0xffffffff)) pageFuel crs').Returns mid
        place hashp' ∧ img.Serves hashp' ∧ Lands img hashp' (List.range (b + 1)).reverse place := by
  have bound := img.buckets
  have visits := visits_down (show b < 0x80000000 by omega)
  obtain ⟨id', mid, get, holds⟩ := cursorBucket_returns h crs key (show b < 0x80000000 by omega)
  obtain ⟨place, hashp', skip, serves, lands⟩ := skipEmpty_returns visits (fun a mem => by
    have := List.mem_range.mp (List.mem_reverse.mp mem)
    omega) holds (show (List.range (b + 1)).reverse.length ≤ pageFuel by
      rw [List.length_reverse, List.length_range, pageFuel]
      omega)
  exact ⟨_, mid, place, hashp', get, rfl, skip, serves, lands⟩

/-- `FFDB_PREV` goes to the spot before, as it counts them. -/
theorem cursorPrev_moves (whole : img.Whole) {x : Spot} (h : StandsAt img hashp crs x) :
    ∃ place hashp', (cursorPrev crs).Returns hashp place hashp' ∧
      Moved img (img.Prev x) hashp' place := by
  obtain ⟨b, p, i, behind⟩ := x
  obtain ⟨mem, rfl, hand⟩ := h.form
  dsimp only at h hand ⊢
  have agree := h.page hand
  have bound := img.buckets
  have slot := h.slot
  have low := h.low
  dsimp only at slot low
  simp only [cursorPrev, page_returns.bind, agree.nextPgno]
  cases i with
  | succ i =>
    simp only [if_neg (Nat.succ_ne_zero i), Nat.add_sub_cancel]
    have before : img.Prev ⟨b, p, i + 1, behind⟩ ⟨b, p, i, behind⟩ := .slot
    exact ⟨_, hashp, Prog.returns_pure.mpr ⟨rfl, rfl⟩, .there before (h.turn (Nat.lt_of_succ_lt slot))⟩
  | zero =>
    obtain ⟨mid, put, serves, _⟩ := putPage_returns h.serves hand
    simp only [if_true, put.bind]
    cases h.follow with
    | last none =>
      cases b with
      | zero =>
        simp only [none, and_self, if_true]
        refine ⟨_, mid, Prog.returns_pure.mpr ⟨rfl, rfl⟩, .nowhere ?_ serves ⟨rfl, rfl, rfl⟩⟩
        intro y before
        cases before with
        | bucket down => exact absurd down (Nat.not_lt_zero _)
      | succ b =>
        obtain ⟨crs', mid', place, hashp', get, some, skip, serves', lands⟩ :=
          previousBucket_returns (b := b) serves low ⟨true, .none, p, b + 1, 0, .ok⟩ rfl
        have more : ¬(b + 1 = 0 ∧ (img.view p).nextPgno = invalidPgno) :=
          fun both => Nat.succ_ne_zero b both.1
        simp only [if_neg more, if_pos none, u32_pred (show b < 0x80000000 by omega), get.bind, some,
          Bool.false_eq_true, if_false, skip.bind]
        cases place with
        | «at» crs =>
          obtain ⟨mem', eq, size, pos⟩ := lands.page
          obtain ⟨⟨b', p', j, l⟩, below, low', between, chain, last, stands⟩ :=
            (lands.turn (((hashp'.mp.bkt mem').page.numEnt + 65535) % 65536)).down (by
              rw [size]
              exact last_slot pos Lib.Mem.read16_lt)
          simp only [eq, page_returns.bind] at stands ⊢
          exact ⟨_, hashp', Prog.returns_pure.mpr ⟨rfl, rfl⟩,
            .there (.bucket below between chain last) stands⟩
        | notFound crs =>
          cases lands with
          | nowhere empty ended =>
            obtain ⟨crs'', eq, ended'⟩ := ended.settle ⟨true, .some mem, p, b + 1, 0, .ok⟩ false
            refine ⟨_, hashp', Prog.returns_pure.mpr ⟨rfl, rfl⟩, ?_⟩
            rw [eq]
            refine .nowhere (fun y before => ?_) serves' ended'
            cases before with
            | @bucket _ _ b' _ _ _ down _ chain =>
              have nil := empty b' (List.mem_reverse.mpr (List.mem_range.mpr down))
              rw [chain] at nil
              cases nil
        | failed crs => cases lands
    | @next _ q l link some follow =>
      obtain ⟨pre, on⟩ := h.on
      have onq : img.chain b = (pre ++ [p]) ++ q :: l := by rw [on, List.append_assoc]; rfl
      have slotq := whole b low q (by rw [onq]; simp)
      have size := last_slot slotq Lib.Mem.read16_lt
      obtain ⟨crs', hashp', ovfl, ⟨mem', eq, hand'⟩, stands⟩ := cursorOvfl_returns serves
        ⟨true, .some mem, p, b, 0, .ok⟩ rfl low rfl ⟨_, onq⟩
      have last := stands (((img.view q).numEnt + 65535) % 65536) (by omega)
      have more : ¬(b = 0 ∧ q = invalidPgno) := fun both => some both.2
      have before : img.Prev ⟨b, p, 0, q :: l⟩ ⟨b, q, ((img.view q).numEnt + 65535) % 65536, l⟩ :=
        .page size
      simp only [link, if_neg more, if_neg some, ovfl.bind, eq, page_returns.bind,
        (last.page hand').numEnt]
      refine ⟨_, hashp', Prog.returns_pure.mpr ⟨rfl, rfl⟩, .there before ?_⟩
      rw [← eq]
      exact last

/-- `FFDB_FIRST` goes to the first spot of all. -/
theorem cursorFirst_moves (h : Loose img hashp crs)
    (ends : h₀.hdr.maxBucket + 1 < 0x80000000 ∨ ∃ a ≤ h₀.hdr.maxBucket, img.chain a ≠ []) :
    ∃ place hashp', (cursorFirst crs).Returns hashp place hashp' ∧
      Moved img img.First hashp' place := by
  have bound := img.buckets
  obtain ⟨start, release, serves⟩ := releaseCursor_returns h
  obtain ⟨id', mid, get, holds⟩ := cursorBucket_returns serves { crs with pagep := none } h.key
    (show 0 < 0x80000000 by decide)
  have above : h₀.hdr.maxBucket + 1 < 0x80000000 ∨
      ∃ a, 0 ≤ a ∧ a ≤ h₀.hdr.maxBucket ∧ img.chain a ≠ [] := by
    refine ends.imp_right ?_
    rintro ⟨a, low, filled⟩
    exact ⟨a, Nat.zero_le a, low, filled⟩
  obtain ⟨place, hashp', skip, serves', lands, first⟩ := skipFirst_returns holds (Nat.zero_add _)
    above pageFuel (by rw [pageFuel]; omega)
  refine ⟨place.settle crs true, hashp', ?_, ?_⟩
  · rw [cursorFirst, release.bind, Prog.returns_read_bind, get.bind]
    simp only [serves.hdr, skip.bind, Prog.returns_pure, and_self]
  · cases place with
    | «at» crs' =>
      obtain ⟨x, _, low, before, chain, slot, stands⟩ := lands.up (first crs' rfl)
      exact .there ⟨low, fun a below => before a (Nat.zero_le a) below, chain, slot⟩ stands
    | notFound crs' =>
      cases lands with
      | nowhere empty ended =>
        obtain ⟨crs'', eq, ended'⟩ := ended.settle crs true
        rw [eq]
        refine .nowhere (fun x goal => ?_) serves' ended'
        have nil := empty x.bucket (List.mem_range'_1.mpr ⟨Nat.zero_le _, by
          have := goal.low
          omega⟩)
        rw [goal.chain] at nil
        cases nil
    | failed crs' => cases lands

/-- With every bucket there can be, and all of them empty, `FFDB_FIRST` never returns. -/
theorem cursorFirst_stuck (h : Loose img hashp crs) (full : h₀.hdr.maxBucket + 1 = 0x80000000)
    (none : ∀ a ≤ h₀.hdr.maxBucket, img.chain a = []) {place : Place} :
    ¬(cursorFirst crs).Returns hashp place hashp' := by
  intro first
  obtain ⟨start, release, serves⟩ := releaseCursor_returns h
  obtain ⟨id', mid, bucket, holds⟩ := cursorBucket_returns serves { crs with pagep := .none } h.key
    (show 0 < 0x80000000 by decide)
  rw [cursorFirst, release.bind, Prog.returns_read_bind, bucket.bind, serves.hdr] at first
  obtain ⟨place', mid', skip, _⟩ := Prog.returns_bind.mp first
  exact skipFirst_stuck holds (Nat.zero_add _) full (fun a _ => none a) pageFuel place' skip

/-- With one bucket, and that empty, `FFDB_LAST` never returns. -/
theorem cursorLast_stuck (h : Loose img hashp crs) (one : h₀.hdr.maxBucket = 0)
    (none : img.chain 0 = []) {place : Place} : ¬(cursorLast crs).Returns hashp place hashp' := by
  intro last
  obtain ⟨start, release, serves⟩ := releaseCursor_returns h
  obtain ⟨id', mid, bucket, holds⟩ := cursorBucket_returns serves { crs with pagep := .none } h.key
    (show 0 < 0x80000000 by decide)
  rw [cursorLast, release.bind, Prog.returns_read_bind, serves.hdr, one, bucket.bind] at last
  obtain ⟨place', mid', skip, _⟩ := Prog.returns_bind.mp last
  exact skipLast_stuck holds none pageFuel place' skip

/-- `FFDB_LAST` goes to the last slot of the last bucket that has one. -/
theorem cursorLast_moves (h : Loose img hashp crs)
    (ends : 0 < h₀.hdr.maxBucket ∨ img.chain 0 ≠ []) :
    ∃ place hashp', (cursorLast crs).Returns hashp place hashp' ∧
      Moved img img.Last hashp' place := by
  have bound := img.buckets
  obtain ⟨start, release, serves⟩ := releaseCursor_returns h
  obtain ⟨id', mid, get, holds⟩ := cursorBucket_returns serves { crs with pagep := none } h.key bound
  obtain ⟨place, hashp', skip, serves', lands, last⟩ := skipLast_returns holds le_rfl ends pageFuel
    (by rw [pageFuel]; omega)
  refine ⟨place.settle crs true, hashp', ?_, ?_⟩
  · rw [cursorLast, release.bind, Prog.returns_read_bind, serves.hdr, get.bind]
    simp only [skip.bind, Prog.returns_pure, and_self]
  · cases place with
    | «at» crs' =>
      obtain ⟨x, _, low, after, chain, slot, stands⟩ := lands.down (last crs' rfl)
      exact .there ⟨low, fun a above below => after a above (by omega), chain, slot⟩ stands
    | notFound crs' =>
      cases lands with
      | nowhere empty ended =>
        obtain ⟨crs'', eq, ended'⟩ := ended.settle crs true
        rw [eq]
        refine .nowhere (fun x goal => ?_) serves' ended'
        have nil := empty x.bucket (List.mem_reverse.mpr (List.mem_range.mpr (by
          have := goal.low
          omega)))
        rw [goal.chain] at nil
        cases nil
    | failed crs' => cases lands

theorem Stands.reads (h : Stands img hashp crs b p i behind) : ∃ mem, crs.pagep = some mem ∧
    InHand hashp mem p ∧ p ∈ img.chain b ∧
    ((hashp.mp.bkt mem).page.key i).size = ((img.view p).key i).size ∧
    ((hashp.mp.bkt mem).page.key i).bytes = ((img.view p).key i).bytes := by
  obtain ⟨mem, eq, hand⟩ := h.hand
  obtain ⟨pre, on⟩ := h.on
  have agree := h.page hand
  have mem' : p ∈ img.chain b := by rw [on]; simp
  obtain ⟨low, _, _⟩ := img.slots b h.low p mem' i h.slot
  exact ⟨mem, eq, hand, mem', agree.keyLen, agree.key_bytes low⟩

theorem Stands.still (h : Stands img hashp crs b p i behind) (serves : img.Serves hashp')
    (hand : ∀ mem, crs.pagep = some mem → InHand hashp' mem p) :
    Stands img hashp' crs b p i behind := by
  obtain ⟨mem, eq, _⟩ := h.hand
  exact ⟨serves, h.key, h.status, h.bucket, h.pgno, h.pgndx, ⟨mem, eq, hand mem eq⟩, h.low, h.on, h.slot⟩

theorem cursorRead_fits {keyRoom : Nat} {dataRoom : Option Nat}
    (h : Stands img hashp crs b p i behind) (fits : img.Fits p i keyRoom dataRoom) : ∃ hashp',
    (cursorRead crs keyRoom dataRoom).Returns hashp (0, img.given p i dataRoom) hashp' ∧
      Stands img hashp' crs b p i behind := by
  obtain ⟨mem, eq, hand, on, size, bytes⟩ := h.reads
  have roomy : ¬(0 < keyRoom ∧ ((hashp.mp.bkt mem).page.key i).size > keyRoom) := by
    rw [size]
    have := fits.1
    omega
  simp only [cursorRead, eq, h.pgndx, page_returns.bind]
  rw [if_neg roomy, bytes]
  cases dataRoom with
  | none => exact ⟨hashp, Prog.returns_pure.mpr ⟨rfl, rfl⟩, h⟩
  | some room =>
    obtain ⟨hashp', item, serves, hand'⟩ :=
      getItem_returns h.serves hand h.low on h.slot (fits.2 room rfl)
    refine ⟨hashp', ?_, h.still serves fun j same => ?_⟩
    · simp only [h.pgno, item.bind]
      exact Prog.returns_pure.mpr ⟨rfl, rfl⟩
    · rw [eq] at same
      cases same
      exact hand'

theorem cursorRead_short {keyRoom : Nat} {dataRoom : Option Nat}
    (h : Stands img hashp crs b p i behind) (short : ¬img.Fits p i keyRoom dataRoom) : ∃ r hashp',
    (cursorRead crs keyRoom dataRoom).Returns hashp r hashp' ∧ r.1 = -1 ∧
      Stands img hashp' crs b p i behind := by
  obtain ⟨mem, eq, hand, on, size, bytes⟩ := h.reads
  simp only [cursorRead, eq, h.pgndx, page_returns.bind]
  by_cases key : 0 < keyRoom ∧ keyRoom < ((hashp.mp.bkt mem).page.key i).size
  · rw [if_pos key]
    exact ⟨(-1, [], []), hashp, Prog.returns_pure.mpr ⟨rfl, rfl⟩, rfl, h⟩
  · rw [if_neg key]
    rw [size] at key
    cases dataRoom with
    | none => exact absurd ⟨by omega, fun room no => by cases no⟩ short
    | some room =>
      have datum : 0 < room ∧ room < (img.value p i).length := by
        by_contra roomy
        refine short ⟨by omega, fun room' same => ?_⟩
        cases same
        omega
      obtain ⟨hashp', item, serves, hand'⟩ := getItem_short h.serves hand h.low on h.slot datum
      refine ⟨(-1, ((hashp.mp.bkt mem).page.key i).bytes, []), hashp', ?_, rfl, h.still serves fun j same => ?_⟩
      · simp only [h.pgno, item.bind]
        exact Prog.returns_pure.mpr ⟨rfl, rfl⟩
      · rw [eq] at same
        cases same
        exact hand'

/-- What the end of `ffdb_cursor_find_by_key` makes of a place. -/
def deliver (keyRoom : Nat) (dataRoom : Option Nat) (place : Place) :
    Run (Int × Crs × List UInt8 × List UInt8) :=
  match place with
  | .failed crs => pure (-1, crs, [], [])
  | .notFound crs => pure (ffdbNotFound, crs, [], [])
  | .at crs => do
    let r ← cursorRead crs keyRoom dataRoom
    pure (r.1, crs, r.2.1, r.2.2)

end FileHash.Htab
