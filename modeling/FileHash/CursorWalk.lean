import FileHash.CursorMoves
import FileHash.OpenedTable
import Mathlib.Data.List.Perm.Basic

/-! Walks of a whole database with a key cursor, by `FFDB_NEXT` and by `FFDB_PREV`. Each move
takes the cursor to the next pair of what is left in its direction, and a walk is then an
induction on what is left. -/
namespace FileHash.Htab

open Lib (Prog)
open Page

/-- The loop of `tkeyseq.c` over all keys, with buffers the library allocates: the pairs
it is given, and the status that ends it. -/
def walkAllKeys (flags : Nat) : Nat → Crs → Run (List Pair × Int)
  | 0, _ => Prog.halt .diverge
  | fuel + 1, crs => do
    let r ← cursorGet crs 0 (some 0) flags
    if r.1 = 0 then
      let rest ← walkAllKeys flags fuel r.2.1
      pure (r.2.2 :: rest.1, rest.2)
    else pure ([], r.1)

namespace Image

variable {h₀ : Htab} (img : Image h₀)

def pagePairs (p : Nat) : List Pair := (List.range (img.view p).numEnt).map (img.pair p)

/-- The pairs of some buckets, page by page, in the order `turn` makes of a page's slots. -/
def tour (turn : List Pair → List Pair) (buckets : List Nat) : List Pair :=
  buckets.flatMap fun b => (img.chain b).flatMap fun p => turn (img.pagePairs p)

def pairs : List Pair := img.tour id (List.range (h₀.hdr.maxBucket + 1))

/-- What comes after slot `i` of page `p` of bucket `b`, the pages `behind` it on the chain. -/
def ahead (b p i : Nat) (behind : List Nat) : List Pair :=
  (img.pagePairs p).drop (i + 1) ++ behind.flatMap img.pagePairs ++
    img.tour id (List.range' (b + 1) (h₀.hdr.maxBucket - b))

def back (b p i : Nat) (behind : List Nat) : List Pair :=
  ((img.pagePairs p).take i).reverse ++ behind.flatMap (fun q => (img.pagePairs q).reverse) ++
    img.tour List.reverse (List.range b).reverse

end Image

variable {h₀ hashp hashp' : Htab} {img : Image h₀} {b p i : Nat} {crs : Crs} {behind : List Nat}

/-- Where a move takes the cursor, `left` being what comes after a place: to the first pair
of the list, or to the end when there is none. -/
inductive Arrives (img : Image h₀) (left : Nat → Nat → Nat → List Nat → List Pair) (hashp : Htab) :
    List Pair → Place → Prop
  | done {crs : Crs} (serves : img.Serves hashp) : Arrives img left hashp [] (.notFound crs)
  | on {crs : Crs} {b p i : Nat} {behind : List Nat} (stands : Stands img hashp crs b p i behind) :
      Arrives img left hashp (img.pair p i :: left b p i behind) (.at crs)

namespace Image

variable {turn : List Pair → List Pair} {pre post l : List Nat}

theorem tour_append : img.tour turn (pre ++ post) = img.tour turn pre ++ img.tour turn post :=
  List.flatMap_append

theorem tour_empty (empty : ∀ b ∈ pre, img.chain b = []) : img.tour turn pre = [] := by
  refine List.flatMap_eq_nil_iff.mpr fun b mem => ?_
  rw [empty b mem]
  rfl

theorem tour_split (empty : ∀ b ∈ pre, img.chain b = []) (chain : img.chain b = p :: l) :
    img.tour turn (pre ++ b :: post) =
      turn (img.pagePairs p) ++ l.flatMap (fun q => turn (img.pagePairs q)) ++ img.tour turn post := by
  rw [tour_append, tour_empty empty, List.nil_append]
  simp only [tour, List.flatMap_cons, chain]

theorem tour_up {s n : Nat} (above : s ≤ b) (below : b < s + n)
    (empty : ∀ a, s ≤ a → a < b → img.chain a = []) (chain : img.chain b = p :: l) :
    img.tour turn (List.range' s n) =
      turn (img.pagePairs p) ++ l.flatMap (fun q => turn (img.pagePairs q)) ++
        img.tour turn (List.range' (b + 1) (s + n - (b + 1))) := by
  have split : List.range' s n =
      List.range' s (b - s) ++ b :: List.range' (b + 1) (s + n - (b + 1)) := by
    obtain ⟨k, rfl⟩ := Nat.exists_eq_add_of_le above
    obtain ⟨m, rfl⟩ : ∃ m, n = k + (m + 1) := ⟨n - k - 1, by omega⟩
    rw [Nat.add_sub_cancel_left, ← List.range'_succ, List.range'_append_1]
    congr 1
    omega
  rw [split, tour_split (fun a mem => ?_) chain]
  have := List.mem_range'_1.mp mem
  exact empty a this.1 (by omega)

theorem tour_down {n : Nat} (below : b < n) (empty : ∀ a, b < a → a < n → img.chain a = [])
    (chain : img.chain b = p :: l) : img.tour turn (List.range n).reverse =
      turn (img.pagePairs p) ++ l.flatMap (fun q => turn (img.pagePairs q)) ++
        img.tour turn (List.range b).reverse := by
  have split : (List.range n).reverse =
      (List.range' (b + 1) (n - (b + 1))).reverse ++ b :: (List.range b).reverse := by
    obtain ⟨m, rfl⟩ : ∃ m, n = b + 1 + m := ⟨n - (b + 1), by omega⟩
    rw [Nat.add_sub_cancel_left, List.range_add, List.reverse_append, List.range_succ,
      List.reverse_append, List.range'_eq_map_range]
    rfl
  rw [split, tour_split (fun a mem => ?_) chain]
  have := List.mem_range'_1.mp (List.mem_reverse.mp mem)
  exact empty a (by omega) (by omega)

theorem length_pagePairs : (img.pagePairs p).length = (img.view p).numEnt := by
  simp [pagePairs]

theorem drop_pagePairs (slot : i < (img.view p).numEnt) :
    (img.pagePairs p).drop i = img.pair p i :: (img.pagePairs p).drop (i + 1) := by
  rw [List.drop_eq_getElem_cons (by rw [length_pagePairs]; exact slot)]
  simp [pagePairs]

theorem take_pagePairs (slot : i < (img.view p).numEnt) :
    ((img.pagePairs p).take (i + 1)).reverse =
      img.pair p i :: ((img.pagePairs p).take i).reverse := by
  rw [List.take_succ_eq_append_getElem (by rw [length_pagePairs]; exact slot), List.reverse_append]
  simp [pagePairs]

end Image

theorem Moved.arrives {goal : Spot → Prop} {left : Nat → Nat → Nat → List Nat → List Pair}
    {l : List Pair} {place : Place} (h : Moved img goal hashp place)
    (some : ∀ x, goal x → l = img.pair x.page x.slot :: left x.bucket x.page x.slot x.behind)
    (none : (∀ x, ¬goal x) → l = []) : Arrives img left hashp l place := by
  cases h with
  | there at' stands =>
    rw [some _ at']
    exact .on stands
  | nowhere none' serves ended =>
    rw [none none']
    exact .done serves

namespace Image

theorem pagePairs_first (filled : 0 < (img.view p).numEnt) :
    img.pagePairs p = img.pair p 0 :: (img.pagePairs p).drop 1 := by
  conv_lhs => rw [← List.drop_zero (l := img.pagePairs p), img.drop_pagePairs filled]

theorem pagePairs_last (last : i + 1 = (img.view p).numEnt) :
    (img.pagePairs p).reverse = img.pair p i :: ((img.pagePairs p).take i).reverse := by
  rw [← img.take_pagePairs (by omega), last, ← img.length_pagePairs, List.take_length]

theorem First.pairs {x : Spot} (h : img.First x) :
    img.pairs = img.pair x.page x.slot :: img.ahead x.bucket x.page x.slot x.behind := by
  have filled := img.filled x.bucket h.low x.page x.behind h.chain
  have low := h.low
  rw [Image.pairs, List.range_eq_range', tour_up (Nat.zero_le _) (by omega)
    (fun a _ => h.before a) h.chain, id, pagePairs_first filled, h.slot, Image.ahead,
    Nat.zero_add, Nat.add_sub_add_right]
  rfl

theorem Last.tour {x : Spot} (h : img.Last x) :
    img.tour List.reverse (List.range (h₀.hdr.maxBucket + 1)).reverse =
      img.pair x.page x.slot :: img.back x.bucket x.page x.slot x.behind := by
  have low := h.low
  rw [tour_down (by omega) (fun a above below => h.after a above (by omega)) h.chain,
    pagePairs_last h.slot, Image.back]
  rfl

theorem Next.ahead (whole : img.Whole) {x y : Spot} (h : img.Next x y)
    (low : x.bucket ≤ h₀.hdr.maxBucket) (on : ∀ q ∈ x.behind, q ∈ img.chain x.bucket) :
    img.ahead x.bucket x.page x.slot x.behind =
      img.pair y.page y.slot :: img.ahead y.bucket y.page y.slot y.behind := by
  have spent : ∀ {p i}, i + 1 = (img.view p).numEnt → (img.pagePairs p).drop (i + 1) = [] :=
    fun full => List.drop_of_length_le (by rw [img.length_pagePairs]; exact full.ge)
  cases h with
  | slot inside =>
    dsimp only
    rw [Image.ahead, img.drop_pagePairs inside]
    rfl
  | @page b p i q l full =>
    have filled := whole b low q (on q List.mem_cons_self)
    dsimp only
    rw [Image.ahead, spent full, List.flatMap_cons, pagePairs_first filled]
    rfl
  | @bucket b p i b' p' l full up low' between chain =>
    have filled := img.filled b' low' p' l chain
    have rest : b + 1 + (h₀.hdr.maxBucket - b) - (b' + 1) = h₀.hdr.maxBucket - b' := by omega
    dsimp only
    rw [Image.ahead, spent full, tour_up (by omega) (by omega)
      (fun a above => between a (by omega)) chain, id, pagePairs_first filled, rest]
    rfl

theorem Prev.back {x y : Spot} (h : img.Prev x y) (slot : x.slot < (img.view x.page).numEnt) :
    img.back x.bucket x.page x.slot x.behind =
      img.pair y.page y.slot :: img.back y.bucket y.page y.slot y.behind := by
  cases h with
  | slot =>
    dsimp only at slot ⊢
    rw [Image.back, img.take_pagePairs (by omega)]
    rfl
  | @page b p q j l last =>
    dsimp only
    rw [Image.back, List.take_zero, List.flatMap_cons, pagePairs_last last]
    rfl
  | @bucket b p b' p' j l down between chain last =>
    dsimp only
    rw [Image.back, List.take_zero, tour_down down between chain, pagePairs_last last]
    rfl

end Image

theorem Stands.ahead_nil (h : Stands img hashp crs b p i behind)
    (none : ∀ y, ¬img.Next ⟨b, p, i, behind⟩ y) : img.ahead b p i behind = [] := by
  have slot := h.slot
  have spent : i + 1 = (img.view p).numEnt := by
    by_contra inside
    exact none _ (.slot (by omega))
  cases behind with
  | cons q l => exact absurd (.page spent) (none ⟨b, q, 0, l⟩)
  | nil =>
    rw [Image.ahead, List.drop_of_length_le (by rw [img.length_pagePairs]; exact spent.ge),
      Image.tour_empty fun a mem => ?_]
    · rfl
    · by_contra filled
      have bounds := List.mem_range'_1.mp mem
      obtain ⟨b', above, below, some, between⟩ := img.exists_up bounds.1 filled
      obtain ⟨p', l, chain⟩ := List.exists_cons_of_ne_nil some
      exact none _ (.bucket spent above (by omega) between chain)

theorem Stands.back_nil (whole : img.Whole) (h : Stands img hashp crs b p i behind)
    (none : ∀ y, ¬img.Prev ⟨b, p, i, behind⟩ y) : img.back b p i behind = [] := by
  cases i with
  | succ i => exact absurd .slot (none ⟨b, p, i, behind⟩)
  | zero =>
    cases behind with
    | cons q l =>
      obtain ⟨pre, on⟩ := h.on
      have filled := whole b h.low q (by rw [on]; simp)
      exact absurd (.page (Nat.sub_add_cancel filled)) (none ⟨b, q, (img.view q).numEnt - 1, l⟩)
    | nil =>
      rw [Image.back, List.take_zero, Image.tour_empty fun a mem => ?_]
      · rfl
      · by_contra filled
        have below := List.mem_range.mp (List.mem_reverse.mp mem)
        obtain ⟨b', down, some, between⟩ := img.exists_down below filled
        obtain ⟨p', l, chain⟩ := List.exists_cons_of_ne_nil some
        have low := h.low
        have pos := img.filled b' (by omega) p' l chain
        exact none _ (.bucket down between chain (Nat.sub_add_cancel pos))

/-- `FFDB_NEXT` goes to the first of the pairs ahead. -/
theorem cursorNext_returns (whole : img.Whole) (h : Stands img hashp crs b p i behind) : ∃ place hashp',
    (cursorNext crs).Returns hashp place hashp' ∧
      Arrives img img.ahead hashp' (img.ahead b p i behind) place := by
  obtain ⟨pre, on⟩ := h.on
  have stands : StandsAt img hashp crs ⟨b, p, i, behind⟩ := h
  obtain ⟨place, hashp', run, moved⟩ := cursorNext_moves whole stands
  refine ⟨place, hashp', run, moved.arrives (fun x next => ?_) h.ahead_nil⟩
  exact next.ahead whole h.low fun q mem => by rw [on]; simp [mem]

/-- `FFDB_PREV` goes to the first of the pairs on the way back. -/
theorem cursorPrev_returns (whole : img.Whole) (h : Stands img hashp crs b p i behind) : ∃ place hashp',
    (cursorPrev crs).Returns hashp place hashp' ∧
      Arrives img img.back hashp' (img.back b p i behind) place := by
  have stands : StandsAt img hashp crs ⟨b, p, i, behind⟩ := h
  obtain ⟨place, hashp', run, moved⟩ := cursorPrev_moves whole stands
  exact ⟨place, hashp', run, moved.arrives (fun x prev => prev.back h.slot) (h.back_nil whole)⟩

theorem tour_all_empty {turn : List Pair → List Pair} {l : List Nat}
    (none : ∀ a ≤ h₀.hdr.maxBucket, img.chain a = []) (low : ∀ a ∈ l, a ≤ h₀.hdr.maxBucket) :
    img.tour turn l = [] :=
  Image.tour_empty fun a mem => none a (low a mem)

/-- `FFDB_FIRST` goes to the first pair of all. -/
theorem cursorFirst_returns (h : img.Serves hashp)
    (ends : h₀.hdr.maxBucket + 1 < 0x80000000 ∨ ∃ a ≤ h₀.hdr.maxBucket, img.chain a ≠ []) :
    ∃ place hashp', (cursorFirst (hashCursor true)).Returns hashp place hashp' ∧
      Arrives img img.ahead hashp' img.pairs place := by
  obtain ⟨place, hashp', run, moved⟩ := cursorFirst_moves (loose_hashCursor h) ends
  refine ⟨place, hashp', run, moved.arrives (fun x first => first.pairs) fun none => ?_⟩
  refine tour_all_empty (fun a low => ?_) fun a mem => Nat.le_of_lt_succ (List.mem_range.mp mem)
  by_contra filled
  obtain ⟨b, _, below, some, before⟩ := img.exists_up (Nat.zero_le a) filled
  obtain ⟨p, l, chain⟩ := List.exists_cons_of_ne_nil some
  exact none ⟨b, p, 0, l⟩ ⟨below.trans low, fun a' => before a' (Nat.zero_le a'), chain, rfl⟩

/-- `FFDB_LAST` goes to the last slot of the last bucket that has one. -/
theorem cursorLast_returns (h : img.Serves hashp)
    (ends : 0 < h₀.hdr.maxBucket ∨ img.chain 0 ≠ []) :
    ∃ place hashp', (cursorLast (hashCursor true)).Returns hashp place hashp' ∧
      Arrives img img.back hashp'
        (img.tour List.reverse (List.range (h₀.hdr.maxBucket + 1)).reverse) place := by
  obtain ⟨place, hashp', run, moved⟩ := cursorLast_moves (loose_hashCursor h) ends
  refine ⟨place, hashp', run, moved.arrives (fun x last => last.tour) fun none => ?_⟩
  refine tour_all_empty (fun a low => ?_) fun a mem =>
    Nat.le_of_lt_succ (List.mem_range.mp (List.mem_reverse.mp mem))
  by_contra filled
  obtain ⟨b, below, some, after⟩ := img.exists_down (Nat.lt_succ_of_le low) filled
  obtain ⟨p, l, chain⟩ := List.exists_cons_of_ne_nil some
  have bound := Nat.le_of_lt_succ below
  have pos := img.filled b bound p l chain
  exact none ⟨b, p, (img.view p).numEnt - 1, l⟩ ⟨bound, fun a' above low' =>
    after a' above (Nat.lt_succ_of_le low'), chain, Nat.sub_add_cancel pos⟩

theorem cursorRead_returns (h : Stands img hashp crs b p i behind) : ∃ hashp',
    (cursorRead crs 0 (some 0)).Returns hashp (0, img.pair p i) hashp' ∧
      Stands img hashp' crs b p i behind :=
  cursorRead_fits h ⟨.inl rfl, fun room eq => by cases eq; exact .inl rfl⟩

theorem cursorGet_first :
    cursorGet (hashCursor true) 0 (some 0) ffdbNext = cursorFirst (hashCursor true) >>= deliver 0 (some 0) := rfl

theorem cursorGet_last :
    cursorGet (hashCursor true) 0 (some 0) ffdbPrev = cursorLast (hashCursor true) >>= deliver 0 (some 0) := rfl

theorem cursorGet_next (h : Stands img hashp crs b p i behind) :
    cursorGet crs 0 (some 0) ffdbNext = cursorNext crs >>= deliver 0 (some 0) := by
  obtain ⟨mem, rfl, _⟩ := h.form
  rfl

theorem cursorGet_prev (h : Stands img hashp crs b p i behind) :
    cursorGet crs 0 (some 0) ffdbPrev = cursorPrev crs >>= deliver 0 (some 0) := by
  obtain ⟨mem, rfl, _⟩ := h.form
  rfl

theorem walk_returns {left : Nat → Nat → Nat → List Nat → List Pair} {flags : Nat}
    {move : Crs → Run Place}
    (get : ∀ {hashp crs b p i behind}, Stands img hashp crs b p i behind →
      cursorGet crs 0 (some 0) flags = move crs >>= deliver 0 (some 0))
    (moves : ∀ {hashp crs b p i behind}, Stands img hashp crs b p i behind → ∃ place hashp',
      (move crs).Returns hashp place hashp' ∧ Arrives img left hashp' (left b p i behind) place)
    (l : List Pair) {first : Run Place} {place : Place}
    (start : cursorGet crs 0 (some 0) flags = first >>= deliver 0 (some 0))
    (run : first.Returns hashp place hashp') (arrives : Arrives img left hashp' l place) (fuel : Nat)
    (enough : l.length < fuel) :
    ∃ end', (walkAllKeys flags fuel crs).Returns hashp (l, ffdbNotFound) end' := by
  induction l generalizing crs hashp hashp' first place fuel with
  | nil =>
    obtain ⟨fuel, rfl⟩ := Nat.exists_eq_succ_of_ne_zero (Nat.pos_iff_ne_zero.mp enough)
    cases arrives with
    | @done crs' serves =>
      refine ⟨hashp', ?_⟩
      have got : (cursorGet crs 0 (some 0) flags).Returns hashp (ffdbNotFound, crs', [], []) hashp' := by
        rw [start, run.bind]
        exact Prog.returns_pure.mpr ⟨rfl, rfl⟩
      rw [walkAllKeys, got.bind]
      exact Prog.returns_pure.mpr ⟨rfl, rfl⟩
  | cons x l ih =>
    obtain ⟨fuel, rfl⟩ := Nat.exists_eq_succ_of_ne_zero (Nat.pos_iff_ne_zero.mp
      ((Nat.zero_le _).trans_lt enough))
    cases arrives with
    | @on crs' b p i behind stands =>
      obtain ⟨mid, read, stands'⟩ := cursorRead_returns stands
      have got : (cursorGet crs 0 (some 0) flags).Returns hashp (0, crs', img.pair p i) mid := by
        rw [start, run.bind, deliver, read.bind]
        exact Prog.returns_pure.mpr ⟨rfl, rfl⟩
      obtain ⟨place', mid', run', arrives'⟩ := moves stands'
      obtain ⟨end', rest⟩ := ih (get stands') run' arrives' fuel (Nat.succ_lt_succ_iff.mp enough)
      refine ⟨end', ?_⟩
      rw [walkAllKeys, got.bind, if_pos rfl, rest.bind]
      exact Prog.returns_pure.mpr ⟨rfl, rfl⟩

/-- A fresh cursor stepped with the flag is given these pairs and then told to stop. -/
def Walks (hashp : Htab) (flags : Nat) (l : List Pair) : Prop :=
  ∃ fuel hashp', (walkAllKeys flags fuel (hashCursor true)).Returns hashp (l, ffdbNotFound) hashp'

theorem Walks.first {flags : Nat} {l : List Pair} (h : Walks hashp flags l) : ∃ r mid,
    (cursorGet (hashCursor true) 0 (some 0) flags).Returns hashp r mid := by
  obtain ⟨fuel, hashp', run⟩ := h
  cases fuel with
  | zero => exact absurd run Prog.returns_halt
  | succ fuel =>
    obtain ⟨r, mid, get, _⟩ := Prog.returns_bind.mp run
    exact ⟨r, mid, get⟩

theorem walks_next (h : img.Serves hashp) (whole : img.Whole)
    (ends : h₀.hdr.maxBucket + 1 < 0x80000000 ∨ ∃ a ≤ h₀.hdr.maxBucket, img.chain a ≠ []) :
    Walks hashp ffdbNext img.pairs := by
  obtain ⟨place, hashp', run, arrives⟩ := cursorFirst_returns h ends
  obtain ⟨end', walk⟩ := walk_returns cursorGet_next (cursorNext_returns whole) img.pairs cursorGet_first run
    arrives _ (Nat.lt_succ_self _)
  exact ⟨_, end', walk⟩

theorem walks_prev (h : img.Serves hashp) (whole : img.Whole)
    (ends : 0 < h₀.hdr.maxBucket ∨ img.chain 0 ≠ []) :
    Walks hashp ffdbPrev (img.tour List.reverse (List.range (h₀.hdr.maxBucket + 1)).reverse) := by
  obtain ⟨place, hashp', run, arrives⟩ := cursorLast_returns h ends
  obtain ⟨end', walk⟩ := walk_returns cursorGet_prev (cursorPrev_returns whole) _ cursorGet_last run arrives _
    (Nat.lt_succ_self _)
  exact ⟨_, end', walk⟩

theorem tour_reverse_perm (img : Image h₀) (l : List Nat) : (img.tour List.reverse l.reverse).Perm (img.tour id l) :=
  (List.reverse_perm l).flatMap fun _ _ => .flatMap_left _ fun _ _ => List.reverse_perm _

theorem next_stuck (h : img.Serves hashp) (full : h₀.hdr.maxBucket + 1 = 0x80000000)
    (none : ∀ a ≤ h₀.hdr.maxBucket, img.chain a = []) (l : List Pair) : ¬Walks hashp ffdbNext l := by
  intro walks
  obtain ⟨r, mid, get⟩ := walks.first
  rw [cursorGet_first] at get
  obtain ⟨place, mid', first, _⟩ := Prog.returns_bind.mp get
  exact cursorFirst_stuck (loose_hashCursor h) full none first

theorem prev_stuck (h : img.Serves hashp) (one : h₀.hdr.maxBucket = 0) (none : img.chain 0 = [])
    (l : List Pair) : ¬Walks hashp ffdbPrev l := by
  intro walks
  obtain ⟨r, mid, get⟩ := walks.first
  rw [cursorGet_last] at get
  obtain ⟨place, mid', last, _⟩ := Prog.returns_bind.mp get
  exact cursorLast_stuck (loose_hashCursor h) one none last

theorem pairs_ne_nil : img.pairs ≠ [] ↔ ∃ a ≤ h₀.hdr.maxBucket, img.chain a ≠ [] := by
  constructor
  · intro some
    by_contra none
    push Not at none
    exact some (Image.tour_empty fun b mem => none b (Nat.le_of_lt_succ (List.mem_range.mp mem)))
  · rintro ⟨a, low, chain⟩ none
    obtain ⟨p, l, chain⟩ := List.exists_cons_of_ne_nil chain
    have on : p ∈ img.chain a := by rw [chain]; exact List.mem_cons_self
    have page := List.flatMap_eq_nil_iff.mp (List.flatMap_eq_nil_iff.mp none a
      (List.mem_range.mpr (Nat.lt_succ_of_le low))) p on
    have size := img.length_pagePairs (p := p)
    rw [id] at page
    rw [page] at size
    exact absurd (img.filled a low p l chain) (by rw [← size]; exact lt_irrefl 0)

/-- A key cursor walked forward and one walked backward are each given every stored pair
exactly once, with its own value, and are then told to stop, no overflow page being empty:
this holds of every database that is not empty, and of an empty one that has more than one bucket and no more of them
than leave a bucket number after the last. -/
theorem cursor_complete {hashp : Htab} (img : Image hashp) (whole : img.Whole)
    (serves : img.Serves hashp) :
    (∃ forward backward, Walks hashp ffdbNext forward ∧ Walks hashp ffdbPrev backward ∧
      forward.Perm img.pairs ∧ backward.Perm img.pairs ∧ ∀ x, x ∈ forward ↔ x ∈ backward) ↔
    (img.pairs ≠ [] ∨ (0 < hashp.hdr.maxBucket ∧ hashp.hdr.maxBucket + 1 < 0x80000000)) := by
  constructor
  · rintro ⟨forward, backward, next, prev, _⟩
    by_contra both
    rw [not_or, not_and_or] at both
    obtain ⟨empty, few⟩ := both
    rw [pairs_ne_nil] at empty
    push Not at empty
    rcases few with one | full
    · exact prev_stuck serves (by omega) (empty 0 (Nat.zero_le _)) backward prev
    · have bound := img.buckets
      exact next_stuck serves (by omega) empty forward next
  · intro ends
    have back := tour_reverse_perm img (List.range (hashp.hdr.maxBucket + 1))
    refine ⟨_, _, walks_next serves whole ?_, walks_prev serves whole ?_, .refl _, back, fun x => back.mem_iff.symm⟩
    · rw [pairs_ne_nil] at ends
      exact ends.symm.imp_left And.right
    · rw [pairs_ne_nil] at ends
      rcases ends with ⟨a, low, some⟩ | ⟨more, _⟩
      · by_cases first : a = 0
        · exact .inr (first ▸ some)
        · exact .inl (by omega)
      · exact .inl more

def blankImage : Image (tableOn defaults defaultHdr 0 fun _ _ => 0) where
  view _ _ := 0
  chain _ := []
  data _ := False
  value _ _ := []
  size := by decide
  buckets := by decide
  linked _ _ _ _ eq := by cases eq
  filled _ _ _ _ eq := by cases eq
  own _ _ _ _ _ mem := absurd mem List.not_mem_nil
  apart _ _ := ⟨fun h => h, fun _ _ h => h⟩
  slots _ _ _ mem := absurd mem List.not_mem_nil

/-- In an empty database with one bucket `FFDB_PREV` never returns. -/
theorem empty_not_walked_back : ∃ img : Image (tableOn defaults defaultHdr 0 fun _ _ => 0),
    img.Whole ∧ img.Serves (tableOn defaults defaultHdr 0 fun _ _ => 0) ∧ img.pairs = [] ∧
      ∀ l, ¬Walks (tableOn defaults defaultHdr 0 fun _ _ => 0) ffdbPrev l := by
  have serves : blankImage.Serves (tableOn defaults defaultHdr 0 fun _ _ => 0) :=
    serves_tableOn (fun _ => rfl) rfl blankImage
      (fun p on => by
        rcases on with h | ⟨_, _, mem⟩
        · exact h.elim
        · exact absurd mem List.not_mem_nil)
      (fun _ _ _ both => Nat.not_lt_zero _ both.1)
  exact ⟨blankImage, fun _ _ _ mem => absurd mem List.not_mem_nil, serves, rfl, prev_stuck serves rfl rfl⟩

theorem onePair_whole {key bytes : List UInt8} (h : ReadsBack key bytes) : (onePairImage h).Whole := by
  intro b low p mem
  obtain rfl : b = 0 := Nat.le_zero.mp low
  cases List.mem_singleton.mp mem
  exact h.slots ▸ Nat.one_pos

theorem threePairs_pairs : threePairsImage.pairs = [([7], [42]), ([8, 9], [1, 2, 3]), ([1], [5, 6])] := by
  decide +kernel

theorem threePairs_whole : threePairsImage.Whole := by
  intro b low p mem
  obtain rfl : b = 0 := Nat.le_zero.mp low
  have on : p = 3 ∨ p = 5 := by simpa [threePairsImage] using mem
  rcases on with rfl | rfl
  · exact (by decide +kernel : 0 < (threePairs 3).numEnt)
  · exact (by decide +kernel : 0 < (threePairs 5).numEnt)

theorem three_pairs_walked : threePairsImage.pairs = [([7], [42]), ([8, 9], [1, 2, 3]), ([1], [5, 6])] ∧
    ∃ forward backward, Walks (tableOn oneBucket smallHdr 6 threePairs) ffdbNext forward ∧
      Walks (tableOn oneBucket smallHdr 6 threePairs) ffdbPrev backward ∧
      forward.Perm threePairsImage.pairs ∧ backward.Perm threePairsImage.pairs ∧ ∀ x, x ∈ forward ↔ x ∈ backward := by
  refine ⟨threePairs_pairs, (cursor_complete threePairsImage threePairs_whole threePairs_serves).mpr (.inl ?_)⟩
  rw [threePairs_pairs]
  exact List.cons_ne_nil _ _

end FileHash.Htab
