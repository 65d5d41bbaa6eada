import FileHash.ChainSearch
import FileHash.CursorSteps
import FileHash.DBFunc
import FileHash.KeptPages
import FileHash.ReadOnly

/-! Going through the keys against looking them up. On a database whose keys are in their buckets,
each once, the pairs a cursor comes by are what the gets return, whatever was read before. -/
namespace FileHash

@[simp] theorem Dbt.bytes_ofBytes (l : List UInt8) : (Dbt.ofBytes l).bytes = l := by
  refine List.ext_getElem (by simp [Dbt.ofBytes]) fun i _ low => ?_
  simp [Dbt.ofBytes, Dbt.bytes, Lib.Mem.getElem_bytes, List.getElem?_eq_getElem low]

namespace Pagepool

open Lib (Prog)
open Lib.Prog (keeps_bind keeps_read keeps_modify keeps_pure keeps_halt keeps_ite)

variable {ε : Type} {pgp : Pagepool} {self id pageno : Nat} {flags : PageFlags}

def reach (pgp : Pagepool) : Nat × (Nat → Page → Option Page) × (Nat → Page → Page) :=
  (pgp.maxpgno, pgp.pgin, pgp.pgout)

theorem reach_writeList (l : List Nat) : (pgp.writeList l).reach = pgp.reach := by
  induction l generalizing pgp with
  | nil => rfl
  | cons i l ih =>
    simp only [writeList, List.foldl_cons]
    split
    · exact (@ih (pgp.write i)).trans rfl
    · exact ih

theorem reach_evict : (evict self pgp id).reach = pgp.reach := by
  unfold evict
  cases (pgp.bkt id).dirty
  · rfl
  · exact (reach_writeList _).trans rfl

theorem keeps_obtainBkt : Prog.Keeps reach (obtainBkt (ε := ε) self) := by
  have grown : Prog.Keeps reach (Prog.modify fun p => (newBkt self p).2 : Prog Pagepool ε Unit) :=
    keeps_modify fun _ => rfl
  refine keeps_bind keeps_read fun pgp => keeps_ite (keeps_ite (keeps_halt _) ?_) ?_
  · split
    · exact keeps_bind (keeps_modify fun _ => reach_evict) fun _ => keeps_pure _
    · exact keeps_bind grown fun _ => keeps_pure _
  · exact keeps_bind grown fun _ => keeps_pure _

theorem keeps_getPage_reach (old : flags.new = false) (there : flags.create = false) :
    Prog.Keeps reach (getPage (ε := ε) self pageno flags) := by
  have load : Prog.Keeps reach (loadNewPage (ε := ε) self pageno flags) := by
    refine keeps_bind keeps_obtainBkt fun id => keeps_bind keeps_read fun pgp => ?_
    refine keeps_bind (keeps_modify fun _ => rfl) fun _ => keeps_bind (keeps_modify fun _ => rfl) fun _ => ?_
    split
    · exact keeps_halt _
    · exact keeps_bind (keeps_modify fun _ => rfl) fun _ => keeps_pure _
  refine keeps_bind keeps_read fun pgp => keeps_ite (keeps_pure _) ?_
  rw [old, if_neg Bool.false_ne_true]
  split
  · exact keeps_ite (keeps_pure _) (keeps_bind (keeps_modify fun _ => rfl) fun _ => keeps_pure _)
  · rw [there, if_neg (by simp)]
    exact keeps_bind load fun _ => keeps_pure _

theorem keeps_putPage_reach (mem : Nat) (dirty : Bool) : Prog.Keeps reach (putPage (ε := ε) mem dirty) :=
  keeps_bind keeps_read fun _ => keeps_ite (keeps_modify fun _ => rfl) (keeps_halt _)

end Pagepool

namespace Htab

open Lib (Prog)
open Lib.Prog (Stays Triple stays_pure stays_bind stays_ite stays_modify triple_halt)
open DBFunc (Thrown Scanned BinaryPair)

variable {h₀ hashp hashp' : Htab} {img : Image h₀} {crs : Crs} {pos : Position} {α : Type}

section CursorReply

def Image.left (img : Image h₀) : Position → List Pair
  | .fresh => img.pairs
  | .on x => img.ahead x.bucket x.page x.slot x.behind
  | .ended => []

theorem InHand.note {id p : Nat} (h : InHand hashp id p) (held : List Nat) :
    InHand { hashp with held := held } id p := ⟨h.mem, h.number, h.pinned⟩

theorem Poised.note (h : Poised img hashp crs pos) (held : List Nat) :
    Poised img { hashp with held := held } crs pos := by
  cases pos with
  | fresh => exact ⟨h.1, h.2.note _ _⟩
  | on x =>
    have stands : StandsAt img hashp crs x := h
    refine stands.still (stands.serves.note _ _) fun mem eq => ?_
    obtain ⟨id, eq', hand⟩ := stands.hand
    rw [eq] at eq'
    cases eq'
    exact hand.note held
  | ended => exact ⟨h.1, h.2.note _ _⟩

def Image.Searches (img : Image h₀) : Prop :=
  h₀.hdr.maxBucket + 1 < 0x80000000 ∨ ∃ a ≤ h₀.hdr.maxBucket, img.chain a ≠ []

theorem forward_moves (whole : img.Whole) (searches : img.Searches) (h : Poised img hashp crs pos)
    (live : pos ≠ .ended) : ∃ place hashp',
      (cursorMove crs (pos.flag ffdbNext)).Returns hashp place hashp' ∧
        Moved img (img.Goal pos ffdbNext) hashp' place := by
  cases pos with
  | fresh => exact cursorFirst_moves h.loose searches
  | on x => exact cursorMove_moves whole h (show img.Sound (.on x) ffdbNext from trivial)
  | ended => exact absurd rfl live

theorem Image.Goal.left (whole : img.Whole) {y : Spot} (goal : img.Goal pos ffdbNext y)
    (h : Poised img hashp crs pos) :
    img.left pos = img.pair y.page y.slot :: img.left (.on y) := by
  cases pos with
  | fresh => exact Image.First.pairs goal
  | on x =>
    have stands : StandsAt img hashp crs x := h
    obtain ⟨pre, on⟩ := stands.on
    refine Image.Next.ahead whole goal stands.low fun q mem => ?_
    rw [on]
    exact List.mem_append_right _ (List.mem_cons_of_mem _ mem)
  | ended => exact goal.elim

theorem left_nil (none : ∀ y, ¬img.Goal pos ffdbNext y) (h : Poised img hashp crs pos)
    (live : pos ≠ .ended) : img.left pos = [] := by
  cases pos with
  | fresh =>
    refine tour_all_empty (fun a low => ?_) fun a mem => Nat.le_of_lt_succ (List.mem_range.mp mem)
    by_contra filled
    obtain ⟨b, _, below, some, before⟩ := img.exists_up (Nat.zero_le a) filled
    obtain ⟨p, l, chain⟩ := List.exists_cons_of_ne_nil some
    exact none ⟨b, p, 0, l⟩ ⟨below.trans low, fun a' => before a' (Nat.zero_le a'), chain, rfl⟩
  | on x => exact Stands.ahead_nil h none
  | ended => rfl

/-- What a call with `FFDB_NEXT` and buffers of the library comes to: the next pair, or the end. -/
inductive CursorReply (img : Image h₀) (dataRoom : Option Nat) (hashp : Htab) :
    List Pair → Int × Crs × List UInt8 × List UInt8 → Prop
  | pair {crs : Crs} {y : Spot} (stands : StandsAt img hashp crs y) :
      CursorReply img dataRoom hashp (img.pair y.page y.slot :: img.left (.on y))
        (0, crs, img.given y.page y.slot dataRoom)
  | done {crs : Crs} (ended : crs.Ended) (serves : img.Serves hashp) :
      CursorReply img dataRoom hashp [] (ffdbNotFound, crs, [], [])

theorem cursorCall_steps (whole : img.Whole) (searches : img.Searches) (h : Poised img hashp crs pos)
    (live : pos ≠ .ended) {dataRoom : Option Nat} (ours : ∀ room, dataRoom = some room → room = 0) :
    ∃ r hashp', (cursorCall crs 0 dataRoom ffdbNext).Returns hashp r hashp' ∧
      CursorReply img dataRoom hashp' (img.left pos) r := by
  have begun : Poised img { hashp with held := crs.pagep.toList } crs pos := h.note _
  obtain ⟨place, mid, move, moved⟩ := forward_moves whole searches begun live
  have enters : ∀ {r hashp'},
      (cursorGet crs 0 dataRoom ffdbNext).Returns { hashp with held := crs.pagep.toList } r hashp' →
      (cursorCall crs 0 dataRoom ffdbNext).Returns hashp r hashp' := fun run => run
  rw [cursorGet_poised begun (.inr (.inr (.inl rfl)))] at enters
  cases moved with
  | nowhere none serves ended =>
    rw [left_nil none h live]
    exact ⟨_, mid, enters (move.bind.mpr (Prog.returns_pure.mpr ⟨rfl, rfl⟩)), .done ended serves⟩
  | @there crs' y goal stands =>
    have fits : img.Fits y.page y.slot 0 dataRoom := ⟨.inl rfl, fun room some => .inl (ours room some)⟩
    obtain ⟨hashp', read, stands'⟩ := cursorRead_fits stands fits
    rw [goal.left whole h]
    refine ⟨_, hashp', enters (move.bind.mpr ?_), .pair stands'⟩
    exact read.bind.mpr (Prog.returns_pure.mpr ⟨rfl, rfl⟩)

end CursorReply

section Loops

def asked (dataRoom : Option Nat) (x : Pair) : Pair := (x.1, if dataRoom.isSome then x.2 else [])

def converted (convert : Pair → Option α) : List Pair → Scanned α
  | [] => ⟨[], none, none⟩
  | x :: l =>
    match convert x with
    | none => ⟨[], some .serialize, none⟩
    | some object => { converted convert l with pushed := object :: (converted convert l).pushed }

def seen (onlyOne : Bool) (l : List Pair) : List Pair := if onlyOne then l.take 1 else l

structure Leaves (img : Image h₀) (hashp : Htab) (crs : Crs) (thrown : Option Thrown) : Prop where
  loose : Loose img hashp crs
  stands : thrown ≠ none → ∃ y, StandsAt img hashp crs y

theorem scanLoop_returns (whole : img.Whole) (searches : img.Searches) (error : Thrown)
    (convert : Pair → Option α) (onlyOne : Bool) {dataRoom : Option Nat}
    (ours : ∀ room, dataRoom = some room → room = 0) (l : List Pair) (h : Poised img hashp crs pos)
    (live : pos ≠ .ended) (left : img.left pos = l) (fuel : Nat) (enough : l.length < fuel) :
    ∃ crs' hashp', (DBFunc.scanLoop error dataRoom convert onlyOne fuel crs).Returns hashp
        (converted (fun x => convert (asked dataRoom x)) (seen onlyOne l), crs') hashp' ∧
      Leaves img hashp' crs' (converted (fun x => convert (asked dataRoom x)) (seen onlyOne l)).thrown := by
  induction l generalizing hashp crs pos fuel with
  | nil =>
    obtain ⟨fuel, rfl⟩ := Nat.exists_eq_succ_of_ne_zero (Nat.ne_zero_of_lt enough)
    obtain ⟨r, mid, call, steps⟩ := cursorCall_steps whole searches h live ours
    rw [left] at steps
    cases steps with
    | @done crs' ended serves =>
      refine ⟨crs', mid, ?_, ended.loose serves, ?_⟩
      · cases onlyOne <;> exact call.bind.mpr (Prog.returns_pure.mpr ⟨rfl, rfl⟩)
      · cases onlyOne <;> exact fun thrown => absurd rfl thrown
  | cons x l ih =>
    obtain ⟨fuel, rfl⟩ := Nat.exists_eq_succ_of_ne_zero (Nat.ne_zero_of_lt enough)
    obtain ⟨r, mid, call, steps⟩ := cursorCall_steps whole searches h live ours
    rw [left] at steps
    cases steps with
    | @pair crs' y stands =>
      cases made : convert (asked dataRoom (img.pair y.page y.slot)) with
      | none =>
        have result : converted (fun x => convert (asked dataRoom x))
            (seen onlyOne (img.pair y.page y.slot :: img.left (.on y))) = ⟨[], some .serialize, none⟩ := by
          cases onlyOne <;> simp [seen, converted, made]
        rw [result]
        refine ⟨crs', mid, call.bind.mpr ?_, stands.loose, fun _ => ⟨y, stands⟩⟩
        rw [if_pos rfl, show convert (img.given y.page y.slot dataRoom) = none from made]
        exact Prog.returns_pure.mpr ⟨rfl, rfl⟩
      | some object =>
        cases onlyOne with
        | true =>
          have result : converted (fun x => convert (asked dataRoom x))
              (seen true (img.pair y.page y.slot :: img.left (.on y))) = ⟨[object], none, none⟩ := by
            simp [seen, converted, made]
          rw [result]
          refine ⟨crs', mid, call.bind.mpr ?_, stands.loose, fun thrown => absurd rfl thrown⟩
          rw [if_pos rfl, show convert (img.given y.page y.slot dataRoom) = some object from made]
          exact Prog.returns_pure.mpr ⟨rfl, rfl⟩
        | false =>
          obtain ⟨crs'', end', rest, leaves⟩ :=
            @ih mid crs' (.on y) stands (by simp) rfl _ (Nat.lt_of_succ_lt_succ enough)
          have result : converted (fun x => convert (asked dataRoom x))
              (seen false (img.pair y.page y.slot :: img.left (.on y))) =
                { converted (fun x => convert (asked dataRoom x)) (seen false (img.left (.on y))) with
                  pushed := object :: (converted (fun x => convert (asked dataRoom x))
                    (seen false (img.left (.on y)))).pushed } := by
            simp [seen, converted, made]
          rw [result]
          refine ⟨crs'', end', call.bind.mpr ?_, leaves⟩
          rw [if_pos rfl, show convert (img.given y.page y.slot dataRoom) = some object from made]
          exact rest.bind.mpr (Prog.returns_pure.mpr ⟨rfl, rfl⟩)

@[simp] theorem converted_left (convert : Pair → Option α) (l : List Pair) : (converted convert l).left = none := by
  induction l with
  | nil => rfl
  | cons x l ih =>
    unfold converted
    split
    · rfl
    · exact ih

theorem cursorCloseCall_returns (h : Loose img hashp crs) : ∃ hashp',
    (cursorCloseCall crs).Returns hashp () hashp' ∧ img.Serves hashp' := by
  have begun : Loose img { hashp with held := crs.pagep.toList } crs := by
    refine ⟨h.serves.note _ _, h.key, fun id eq => ?_⟩
    obtain ⟨p, hand⟩ := h.hand id eq
    exact ⟨p, hand.note _⟩
  obtain ⟨hashp', run, serves⟩ := releaseCursor_returns begun
  exact ⟨hashp', run, serves⟩

theorem scan_returns (whole : img.Whole) (searches : img.Searches) (error : Thrown) (convert : Pair → Option α)
    (onlyOne : Bool) {dataRoom : Option Nat} (ours : ∀ room, dataRoom = some room → room = 0)
    (h : img.Serves hashp) (fuel : Nat) (enough : img.pairs.length < fuel) :
    ∃ left hashp', (DBFunc.scan error dataRoom convert onlyOne fuel).Returns hashp
        { converted (fun x => convert (asked dataRoom x)) (seen onlyOne img.pairs) with left := left } hashp' ∧
      img.Serves hashp' ∧
      (left = none ↔ (converted (fun x => convert (asked dataRoom x)) (seen onlyOne img.pairs)).thrown = none) ∧
      ∀ crs, left = some crs → ∃ y, StandsAt img hashp' crs y := by
  have fresh : Poised img hashp (hashCursor true) .fresh := ⟨rfl, h⟩
  obtain ⟨crs, mid, loop, leaves⟩ :=
    scanLoop_returns whole searches error convert onlyOne ours img.pairs fresh (by simp) rfl fuel enough
  have closed := converted_left (fun x => convert (asked dataRoom x)) (seen onlyOne img.pairs)
  generalize converted (fun x => convert (asked dataRoom x)) (seen onlyOne img.pairs) = result at *
  obtain ⟨pushed, thrown, left⟩ := result
  cases thrown with
  | some thrown =>
    refine ⟨some crs, mid, loop.bind.mpr (Prog.returns_pure.mpr ⟨rfl, rfl⟩), leaves.loose.serves, by simp, ?_⟩
    rintro _ ⟨⟩
    exact leaves.stands (by simp)
  | none =>
    obtain ⟨hashp', close, serves⟩ := cursorCloseCall_returns leaves.loose
    subst closed
    refine ⟨none, hashp', loop.bind.mpr (close.bind.mpr (Prog.returns_pure.mpr ⟨rfl, rfl⟩)), serves, by simp, ?_⟩
    rintro _ ⟨⟩

end Loops

section Keys

structure Image.Keyed (img : Image h₀) : Prop where
  compare : h₀.hCompare = hamDefcmp
  placed : ∀ b ≤ h₀.hdr.maxBucket, ∀ p ∈ img.chain b, ∀ i < (img.view p).numEnt, img.bucketOf ((img.view p).key i) = b
  distinct : (img.pairs.map Prod.fst).Nodup

theorem hamDefcmp_eq_zero {a b : Dbt} : hamDefcmp a b = 0 ↔ a.bytes = b.bytes := by
  unfold hamDefcmp Dbt.bytes
  cases differ : (List.range (min a.size b.size)).find? fun i => a.data i != b.data i with
  | some i =>
    have apart : a.data i ≠ b.data i := by simpa using List.find?_some differ
    have inside := List.mem_range.mp (List.mem_of_find?_eq_some differ)
    dsimp only
    refine ⟨fun zero => absurd (UInt8.toNat_inj.mp (by omega)) apart, fun same => absurd ?_ apart⟩
    have sizes := congrArg List.length same
    simp only [Lib.Mem.length_bytes] at sizes
    rw [sizes] at same
    exact Lib.Mem.bytes_inj same i (by omega)
  | none =>
    have alike : ∀ i < min a.size b.size, a.data i = b.data i := fun i low => by
      simpa using List.find?_eq_none.mp differ i (List.mem_range.mpr low)
    dsimp only
    constructor
    · intro zero
      have sizes : a.size = b.size := by omega
      rw [sizes]
      exact Lib.Mem.bytes_congr fun i low => alike i (by omega)
    · intro same
      have sizes := congrArg List.length same
      simp only [Lib.Mem.length_bytes] at sizes
      omega

theorem Image.mem_pairs {x : Pair} :
    x ∈ img.pairs ↔ ∃ b ≤ h₀.hdr.maxBucket, ∃ p ∈ img.chain b, ∃ i < (img.view p).numEnt, img.pair p i = x := by
  simp only [Image.pairs, Image.tour, Image.pagePairs, id, List.mem_flatMap, List.mem_map, List.mem_range,
    Nat.lt_succ_iff]

theorem bucketOf_congr {a b : Dbt} (same : a.bytes = b.bytes) : img.bucketOf a = img.bucketOf b := by
  have sizes := congrArg List.length same
  simp only [Dbt.length_bytes] at sizes
  have low : u32 b.size ≤ b.size := Nat.mod_le _ _
  unfold Image.bucketOf
  rw [sizes, Lib.Mem.bytes_take (sizes ▸ low : u32 b.size ≤ a.size), Lib.Mem.bytes_take low]
  exact congrArg (fun l => h₀.hdr.bucketOf (u32 (h₀.hash (l.take (u32 b.size))))) same

theorem search_bytes (key : Dbt) (compare : h₀.hCompare = hamDefcmp) (l : List Nat) :
    (∃ p i, img.search key l = some (p, i) ∧ ((img.view p).key i).bytes = key.bytes) ∨
      (img.search key l = none ∧ ∀ p ∈ l, ∀ i < (img.view p).numEnt, ((img.view p).key i).bytes ≠ key.bytes) := by
  induction l with
  | nil => exact .inr ⟨rfl, fun p mem => absurd mem List.not_mem_nil⟩
  | cons q l ih =>
    unfold Image.search
    cases here : findKey h₀.hCompare key (img.view q) with
    | some i =>
      have equal := List.find?_some here
      rw [compare] at equal
      exact .inl ⟨q, i, rfl, (hamDefcmp_eq_zero.mp (beq_iff_eq.mp equal)).symm⟩
    | none =>
      refine ih.imp id fun rest => ⟨rest.1, fun p mem => ?_⟩
      rcases List.mem_cons.mp mem with rfl | mem
      · exact fun i low same => findKey_none here i low (by rw [compare]; exact hamDefcmp_eq_zero.mpr same.symm)
      · exact rest.2 p mem

theorem Image.Keyed.answer (keyed : img.Keyed) (masks : ∀ n, h₀.hdr.bucketOf n ≤ h₀.hdr.maxBucket) (key : Dbt) :
    img.answer key = match img.pairs.lookup key.bytes with
      | some v => (0, v)
      | none => (ffdbNotFound, []) := by
  have low : img.bucketOf key ≤ h₀.hdr.maxBucket := masks _
  rcases search_bytes key keyed.compare (img.chain (img.bucketOf key)) with ⟨p, i, found, same⟩ | ⟨none, differ⟩
  · obtain ⟨on, slot⟩ := search_some found
    have stored : img.pair p i ∈ img.pairs := Image.mem_pairs.mpr ⟨_, low, p, on, i, slot, rfl⟩
    have under : img.pairs.lookup key.bytes = some (img.value p i) := by
      rw [← same]
      exact Lib.KeyStore.lookup_of_mem keyed.distinct stored
    rw [under]
    simp only [Image.answer, Image.find, found]
  · have nothing : img.pairs.lookup key.bytes = Option.none := by
      refine List.lookup_eq_none_iff.mpr fun x mem => bne_iff_ne.mpr fun same => ?_
      obtain ⟨b, low', p, on, i, slot, rfl⟩ := Image.mem_pairs.mp mem
      have here : img.bucketOf key = b := (bucketOf_congr same).trans (keyed.placed b low' p on i slot)
      exact differ p (here ▸ on) i slot same.symm
    rw [nothing]
    simp only [Image.answer, Image.find, none]

end Keys

section Runs

variable {adm : Event → Prop} {P : Htab → Prop}

namespace Mild

variable {asks : PageFlags → Prop} (h : Mild adm asks P)
include h

theorem scanLoop (error : Thrown) (dataRoom : Option Nat) (convert : BinaryPair → Option α) (onlyOne : Bool)
    (fuel : Nat) (crs : Crs) : Stays adm P (DBFunc.scanLoop error dataRoom convert onlyOne fuel crs) := by
  induction fuel generalizing crs with
  | zero => exact triple_halt _
  | succ fuel ih =>
    refine stays_bind (h.cursorCall _ _ _ _) fun r => stays_ite ?_ (stays_ite (stays_pure _) (stays_pure _))
    split
    · exact stays_pure _
    · exact stays_ite (stays_pure _) (stays_bind (ih _) fun _ => stays_pure _)

theorem scan (error : Thrown) (dataRoom : Option Nat) (convert : BinaryPair → Option α) (onlyOne : Bool) (fuel : Nat) :
    Stays adm P (DBFunc.scan error dataRoom convert onlyOne fuel) := by
  refine stays_bind (h.scanLoop _ _ _ _ _ _) fun r => ?_
  split
  · exact stays_pure _
  · exact stays_bind (h.cursorCloseCall _) fun _ => stays_pure _

theorem isDatabaseEmpty : Stays adm P DBFunc.isDatabaseEmpty := by
  refine stays_bind (h.cursorCall _ _ _ _) fun r => stays_ite ?_ (stays_ite ?_ (stays_pure _))
  · exact stays_bind (h.cursorCloseCall _) fun _ => stays_pure _
  · exact stays_bind (h.cursorCloseCall _) fun _ => stays_pure _

end Mild

theorem mild_reach (x : Nat × (Nat → Page → Option Page) × (Nat → Page → Page)) :
    Mild adm (· = {}) fun hashp => hashp.mp.reach = x where
  note _ _ _ pre := pre
  store mem f := by
    have still : Stays adm (fun pgp : Pagepool => pgp.reach = x)
        (Prog.modify fun p => p.setBkt mem fun b => { b with page := f b.page }) :=
      Prog.triple_modify fun _ same => same
    exact triple_pool still
  bare := rfl
  get p flags same := by
    subst same
    exact triple_pool (Prog.stays_of_keeps (Pagepool.keeps_getPage_reach rfl rfl) x)
  put mem := triple_pool (Prog.stays_of_keeps (Pagepool.keeps_putPage_reach mem false) x)

theorem mild_clean (f : Pagefile) : Mild adm (· = {}) fun hashp => hashp.mp.Clean f where
  note _ _ _ pre := pre
  store _ _ := triple_pool (Prog.triple_modify fun _ clean => clean.setBkt rfl)
  bare := rfl
  get p flags same := by
    subst same
    exact triple_pool (Pagepool.clean_getPage ⟨rfl, rfl, rfl⟩)
  put mem := triple_pool (Pagepool.clean_putPage mem)

theorem Serving.after {m : Run α} {a : α} (h : Serving img hashp noPage) (run : m.Returns hashp a hashp')
    (serves : img.Serves hashp') (only : ∀ {P}, Mild (fun _ => True) (· = {}) P → Stays (fun _ => True) P m) :
    Serving img hashp' noPage := by
  have reach : hashp'.mp.reach = hashp.mp.reach := only (mild_reach _) hashp a hashp' rfl (fun _ _ => trivial) run
  simp only [Pagepool.reach, Prod.mk.injEq] at reach
  obtain ⟨top, pgin, pgout⟩ := reach
  refine ⟨serves, ⟨serves.readable, serves.counted, serves.tells, by rw [top]; exact h.pooled.room, ?_⟩, ?_⟩
  · refine h.pooled.resets.imp (fun survives n c => ?_) fun unmarked => ?_
    · rw [Pagepool.Survives, Pagepool.RoundTrip, pgin, pgout]
      exact survives n c
    · have clean : hashp.mp.Clean hashp.mp.file := by
        refine ⟨rfl, fun id listed => unmarked id ?_⟩
        rcases listed with mem | ⟨k, mem⟩
        · exact mem
        · exact ((h.pooled.readable.linked.chain id k).mp mem).1
      exact fun id mem => (only (mild_clean _) hashp a hashp' clean (fun _ _ => trivial) run).clean id (.inl mem)
  · rintro id p ⟨⟩

theorem hashGet_serving (searchable : img.Searchable) (h : Serving img hashp noPage) {key : Dbt} {room : Nat}
    (fair : img.Fair key room) : ∃ hashp', (hashGet key room).Returns hashp (img.answer key) hashp' ∧
      Serving img hashp' noPage := by
  have apart : Apart h₀ hashp hashp := by
    rw [h.serves.frame]
    exact ⟨rfl, rfl, rfl, rfl, rfl⟩
  obtain ⟨a, end', hand, run, ⟨rfl, rfl⟩, serving⟩ := exec_returns (hashGet_obeys searchable fair) h
  obtain ⟨hashp', run', same⟩ := (hashGet_alike key room).returns apart run
  refine ⟨hashp', run', ?_⟩
  rw [same.same] at serving
  exact ⟨serving.serves.note hashp'.fetches hashp'.held, serving.pooled, fun id p none => by cases none⟩

end Runs

section Queries

/-- What is asked of an open database through `DBFunc.h`, in binary form. -/
inductive Query where
  | getBinaryData (key : List UInt8)
  | keyExist (key : List UInt8)
  | binaryAllKeys
  | binaryAllPairs
  | isDatabaseEmpty

inductive Reply where
  | got (r : Except Int (List UInt8))
  | exist (there : Except Thrown Bool)
  | keys (keys : Scanned (List UInt8))
  | pairs (pairs : Scanned BinaryPair)
  | empty (r : Except Thrown Bool × Option Crs)

def Query.run (fuel : Nat) : Query → Run Reply
  | getBinaryData key => do return .got (← DBFunc.getBinaryData key)
  | keyExist key => do return .exist (← DBFunc.keyExist binaryForm key)
  | binaryAllKeys => do return .keys (← DBFunc.binaryAllKeys fuel)
  | binaryAllPairs => do return .pairs (← DBFunc.binaryAllPairs fuel)
  | isDatabaseEmpty => do return .empty (← DBFunc.isDatabaseEmpty)

def Query.reply (l : List BinaryPair) : Query → Reply
  | getBinaryData key => .got ((l.lookup key).elim (.error ffdbNotFound) .ok)
  | keyExist key => .exist (.ok (l.lookup key).isSome)
  | binaryAllKeys => .keys ⟨l.map Prod.fst, none, none⟩
  | binaryAllPairs => .pairs ⟨l, none, none⟩
  | isDatabaseEmpty => .empty (.ok l.isEmpty, none)

def runQueries (fuel : Nat) : List Query → Run (List Reply)
  | [] => pure []
  | q :: qs => do
    let r ← q.run fuel
    let rest ← runQueries fuel qs
    pure (r :: rest)

/-- A database in good order: its keys are where they are looked for, each page has one, and no
datum is empty. -/
structure Image.InOrder (img : Image h₀) : Prop where
  searchable : img.Searchable
  whole : img.Whole
  keyed : img.Keyed
  full : ∀ x ∈ img.pairs, x.2 ≠ []
  searches : img.Searches

theorem converted_all (make : Pair → α) (l : List Pair) :
    converted (fun x => some (make x)) l = ⟨l.map make, none, none⟩ := by
  induction l with
  | nil => rfl
  | cons x l ih => simp [converted, ih]

theorem scan_all (order : img.InOrder) (h : Serving img hashp noPage) (error : Thrown) (make : Pair → α) (fuel : Nat)
    (enough : img.pairs.length < fuel) : ∃ hashp',
      (DBFunc.scan error (some 0) (fun x => some (make x)) false fuel).Returns hashp
          ⟨img.pairs.map make, none, none⟩ hashp' ∧
        Serving img hashp' noPage := by
  have ours : ∀ room, some 0 = some room → room = 0 := fun room same => (Option.some.inj same).symm
  obtain ⟨left, hashp', run, serves, closed, _⟩ :=
    scan_returns order.whole order.searches error (fun x => some (make x)) false ours h.serves fuel enough
  have result : converted (fun x => some (make (asked (some 0) x))) (seen false img.pairs) =
      ⟨img.pairs.map make, none, none⟩ := converted_all make _
  rw [result] at run closed
  obtain rfl := closed.mpr rfl
  exact ⟨hashp', run, h.after run serves fun mild => mild.scan _ _ _ _ _⟩

theorem getBinaryData_returns (order : img.InOrder) (h : Serving img hashp noPage) (key : List UInt8) : ∃ hashp',
    (DBFunc.getBinaryData key).Returns hashp ((img.pairs.lookup key).elim (.error ffdbNotFound) .ok) hashp' ∧
      Serving img hashp' noPage := by
  have fair : img.Fair (Dbt.ofBytes key) 0 := by
    intro p i found
    obtain ⟨on, slot⟩ := search_some found
    have stored := Image.mem_pairs.mpr ⟨_, order.searchable.masks _, p, on, i, slot, rfl⟩
    exact ⟨order.full _ stored, .inl rfl⟩
  obtain ⟨hashp', run, serving⟩ := hashGet_serving order.searchable h fair
  rw [order.keyed.answer order.searchable.masks, Dbt.bytes_ofBytes] at run
  refine ⟨hashp', run.bind.mpr ?_, serving⟩
  cases img.pairs.lookup key with
  | some v => exact Prog.returns_pure.mpr ⟨rfl, rfl⟩
  | none => exact Prog.returns_pure.mpr ⟨rfl, rfl⟩

theorem isDatabaseEmpty_returns (order : img.InOrder) (h : Serving img hashp noPage) : ∃ hashp',
    DBFunc.isDatabaseEmpty.Returns hashp (.ok img.pairs.isEmpty, none) hashp' ∧ Serving img hashp' noPage := by
  have fresh : Poised img hashp (hashCursor true) .fresh := ⟨rfl, h.serves⟩
  have ours : ∀ room, some 0 = some room → room = 0 := fun room same => (Option.some.inj same).symm
  obtain ⟨r, mid, call, steps⟩ := cursorCall_steps order.whole order.searches fresh (by simp) ours
  have closes : Loose img mid r.2.1 ∧
      ((r.1 = 0 ∧ img.pairs.isEmpty = false) ∨ (r.1 = ffdbNotFound ∧ img.pairs.isEmpty = true)) := by
    change CursorReply img (some 0) mid img.pairs r at steps
    generalize img.pairs = l at steps
    cases steps with
    | pair stands => exact ⟨stands.loose, .inl ⟨rfl, rfl⟩⟩
    | done ended serves => exact ⟨ended.loose serves, .inr ⟨rfl, rfl⟩⟩
  obtain ⟨hashp', close, serves⟩ := cursorCloseCall_returns closes.1
  have run : DBFunc.isDatabaseEmpty.Returns hashp (.ok img.pairs.isEmpty, none) hashp' := by
    refine call.bind.mpr ?_
    rcases closes.2 with ⟨zero, some⟩ | ⟨last, none⟩
    · rw [if_pos zero, some]
      exact close.bind.mpr (Prog.returns_pure.mpr ⟨rfl, rfl⟩)
    · rw [if_neg (by rw [last]; decide), if_pos last, none]
      exact close.bind.mpr (Prog.returns_pure.mpr ⟨rfl, rfl⟩)
  exact ⟨hashp', run, h.after run serves fun mild => mild.isDatabaseEmpty⟩

theorem query_returns (order : img.InOrder) (h : Serving img hashp noPage) (fuel : Nat)
    (enough : img.pairs.length < fuel) (q : Query) :
    ∃ hashp', (q.run fuel).Returns hashp (q.reply img.pairs) hashp' ∧ Serving img hashp' noPage := by
  cases q with
  | getBinaryData key =>
    obtain ⟨hashp', run, serving⟩ := getBinaryData_returns order h key
    exact ⟨hashp', run.bind.mpr (Prog.returns_pure.mpr ⟨rfl, rfl⟩), serving⟩
  | keyExist key =>
    obtain ⟨hashp', run, serving⟩ := getBinaryData_returns order h key
    have there : (DBFunc.keyExist binaryForm key).Returns hashp (.ok (img.pairs.lookup key).isSome) hashp' := by
      refine run.bind.mpr ?_
      cases img.pairs.lookup key with
      | some v => exact Prog.returns_pure.mpr ⟨rfl, rfl⟩
      | none => exact Prog.returns_pure.mpr ⟨rfl, rfl⟩
    exact ⟨hashp', there.bind.mpr (Prog.returns_pure.mpr ⟨rfl, rfl⟩), serving⟩
  | binaryAllKeys =>
    obtain ⟨hashp', run, serving⟩ := scan_all order h _ Prod.fst fuel enough
    exact ⟨hashp', run.bind.mpr (Prog.returns_pure.mpr ⟨rfl, rfl⟩), serving⟩
  | binaryAllPairs =>
    obtain ⟨hashp', run, serving⟩ := scan_all order h _ id fuel enough
    rw [List.map_id] at run
    exact ⟨hashp', run.bind.mpr (Prog.returns_pure.mpr ⟨rfl, rfl⟩), serving⟩
  | isDatabaseEmpty =>
    obtain ⟨hashp', run, serving⟩ := isDatabaseEmpty_returns order h
    exact ⟨hashp', run.bind.mpr (Prog.returns_pure.mpr ⟨rfl, rfl⟩), serving⟩

/-- Whatever is asked of a database in good order, in any order and any number of times, is answered
as from the one list of its pairs: scans give all of it, and gets what it has under their keys. -/
theorem queries_agree (order : img.InOrder) (h : Serving img hashp noPage) (fuel : Nat)
    (enough : img.pairs.length < fuel) (qs : List Query) :
    ∃ hashp', (runQueries fuel qs).Returns hashp (qs.map (Query.reply img.pairs)) hashp' := by
  induction qs generalizing hashp with
  | nil => exact ⟨hashp, Prog.returns_pure.mpr ⟨rfl, rfl⟩⟩
  | cons q qs ih =>
    obtain ⟨mid, first, serving⟩ := query_returns order h fuel enough q
    obtain ⟨hashp', rest⟩ := ih serving
    exact ⟨hashp', first.bind.mpr (rest.bind.mpr (Prog.returns_pure.mpr ⟨rfl, rfl⟩))⟩

end Queries

section Examples

theorem threePairs_inOrder : threePairsImage.InOrder where
  searchable :=
    { masks := fun n => by
        have mask : smallHdr.highMask = 0 := by decide +kernel
        change smallHdr.bucketOf n ≤ smallHdr.maxBucket
        rw [Hashhdr.bucketOf, mask, Nat.and_zero]
        exact Nat.zero_le _
      numbered := by
        intro b low p l eq
        obtain rfl : b = 0 := Nat.le_zero.mp low
        cases eq
        exact ⟨(by decide +kernel : (threePairs 3).currPgno = 3), by decide⟩
      room := by
        intro b low
        obtain rfl : b = 0 := Nat.le_zero.mp low
        exact (by decide +kernel : smallHdr.bucketToPage 0 < maxPageNumber) }
  whole := threePairs_whole
  keyed :=
    { compare := rfl
      placed := by
        intro b low p on i slot
        obtain rfl : b = 0 := Nat.le_zero.mp low
        have mask : smallHdr.highMask = 0 := by decide +kernel
        change smallHdr.bucketOf _ = 0
        rw [Hashhdr.bucketOf, mask, Nat.and_zero]
        rfl
      distinct := by
        rw [threePairs_pairs]
        decide }
  full := by
    rw [threePairs_pairs]
    decide
  searches := .inl (by decide : smallHdr.maxBucket + 1 < 0x80000000)

theorem queries_agree_three : ∃ hashp',
    (runQueries 4 [.keyExist [8], .binaryAllPairs, .getBinaryData [1], .isDatabaseEmpty, .binaryAllKeys]).Returns
      (tableOn oneBucket smallHdr 6 threePairs)
      [.exist (.ok false), .pairs ⟨[([7], [42]), ([8, 9], [1, 2, 3]), ([1], [5, 6])], none, none⟩,
        .got (.ok [5, 6]), .empty (.ok false, none), .keys ⟨[[7], [8, 9], [1]], none, none⟩] hashp' := by
  have serving : Serving threePairsImage (tableOn oneBucket smallHdr 6 threePairs) noPage :=
    ⟨threePairs_serves,
      { readable := threePairs_serves.readable
        counted := rfl
        tells := threePairs_serves.tells
        room := (by decide : 6 < maxPageNumber)
        resets := .inr fun id mem => absurd mem List.not_mem_nil },
      fun id p none => by cases none⟩
  obtain ⟨hashp', run⟩ := queries_agree threePairs_inOrder serving 4 (by rw [threePairs_pairs]; decide)
    [.keyExist [8], .binaryAllPairs, .getBinaryData [1], .isDatabaseEmpty, .binaryAllKeys]
  rw [threePairs_pairs] at run
  exact ⟨hashp', run⟩

end Examples

end Htab
end FileHash
