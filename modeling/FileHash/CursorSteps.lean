import FileHash.CursorWalk

/-! Steps of a key cursor against each other: a step that is refused for want of room and made
again, and a step followed by the one the other way. -/
namespace FileHash.Htab

open Lib (Prog)
open Page

inductive Position where
  | fresh
  | on (x : Spot)
  | ended

def CursorFlag (flags : Nat) : Prop :=
  flags = ffdbFirst ∨ flags = ffdbLast ∨ flags = ffdbNext ∨ flags = ffdbPrev

def Position.flag (pos : Position) (flags : Nat) : Nat :=
  match pos with
  | .fresh => if flags = ffdbNext then ffdbFirst else if flags = ffdbPrev then ffdbLast else flags
  | _ => flags

namespace Image

variable {h₀ : Htab} (img : Image h₀)

def Goal (pos : Position) (flags : Nat) (y : Spot) : Prop :=
  if pos.flag flags = ffdbFirst then img.First y
  else if pos.flag flags = ffdbLast then img.Last y
  else match pos with
    | .on x => if flags = ffdbNext then img.Next x y else img.Prev x y
    | _ => False

/-- The calls that are made where there is something to begin with: the first pair is asked
for of a database that has one, the last of one that has a pair or more than one bucket, and
no step is made from an end. -/
def Sound (pos : Position) (flags : Nat) : Prop :=
  if pos.flag flags = ffdbFirst then img.pairs ≠ []
  else if pos.flag flags = ffdbLast then img.pairs ≠ [] ∨ 0 < h₀.hdr.maxBucket
  else match pos with
    | .on _ => True
    | _ => False

/-- Two spots with no page of a chain between them that is gone to from either side. -/
def Together (x y : Spot) : Prop :=
  (x.bucket = y.bucket ∧ x.page = y.page) ∨
    (img.chain x.bucket = [x.page] ∧ img.chain y.bucket = [y.page])

end Image

variable {h₀ hashp hashp' : Htab} {img : Image h₀} {crs : Crs} {x y z : Spot} {pos : Position}
  {flags : Nat}

/-- The cursor is in the position. -/
def Poised (img : Image h₀) (hashp : Htab) (crs : Crs) : Position → Prop
  | .fresh => crs = hashCursor true ∧ img.Serves hashp
  | .on x => StandsAt img hashp crs x
  | .ended => crs.Ended ∧ img.Serves hashp

theorem Poised.loose (h : Poised img hashp crs pos) : Loose img hashp crs := by
  cases pos with
  | fresh =>
    rw [h.1]
    exact loose_hashCursor h.2
  | on x => exact h.loose
  | ended => exact h.1.loose h.2

def Crs.flag (crs : Crs) (flags : Nat) : Nat :=
  if crs.status = .clean then
    if flags = ffdbNext then ffdbFirst else if flags = ffdbPrev then ffdbLast else flags
  else flags

theorem Poised.flag (h : Poised img hashp crs pos) (flags : Nat) : crs.flag flags = pos.flag flags := by
  unfold Crs.flag
  cases pos with
  | fresh =>
    rw [h.1]
    rfl
  | on x => rw [h.status]; rfl
  | ended => rw [h.1.status]; rfl

def cursorMove (crs : Crs) (flags : Nat) : Run Place :=
  if flags = ffdbFirst then cursorFirst crs
  else if flags = ffdbLast then cursorLast crs
  else if flags = ffdbNext then cursorNext crs
  else cursorPrev crs

theorem cursorGet_poised (h : Poised img hashp crs pos) (known : CursorFlag flags) (keyRoom : Nat)
    (dataRoom : Option Nat) : cursorGet crs keyRoom dataRoom flags =
      cursorMove crs (pos.flag flags) >>= deliver keyRoom dataRoom := by
  have key := h.loose.key
  have flag := h.flag flags
  unfold Crs.flag at flag
  have listed : ¬(flags ≠ ffdbFirst ∧ flags ≠ ffdbLast ∧ flags ≠ ffdbNext ∧ flags ≠ ffdbPrev) := by
    rintro ⟨first, last, next, prev⟩
    rcases known with eq | eq | eq | eq
    · exact first eq
    · exact last eq
    · exact next eq
    · exact prev eq
  simp only [cursorGet, if_neg listed, key, if_true, flag, cursorFindByKey, cursorMove]
  split_ifs <;> rfl

theorem cursorMove_moves (whole : img.Whole) (h : Poised img hashp crs pos)
    (sound : img.Sound pos flags) : ∃ place hashp',
      (cursorMove crs (pos.flag flags)).Returns hashp place hashp' ∧
        Moved img (img.Goal pos flags) hashp' place := by
  unfold cursorMove Image.Goal
  unfold Image.Sound at sound
  by_cases first : pos.flag flags = ffdbFirst
  · simp only [if_pos first] at sound ⊢
    exact cursorFirst_moves h.loose (.inr (pairs_ne_nil.mp sound))
  · by_cases last : pos.flag flags = ffdbLast
    · simp only [if_neg first, if_pos last] at sound ⊢
      refine cursorLast_moves h.loose ?_
      rw [pairs_ne_nil] at sound
      rcases sound with ⟨a, low, some⟩ | more
      · by_cases zero : a = 0
        · exact .inr (zero ▸ some)
        · exact .inl (by omega)
      · exact .inl more
    · simp only [if_neg first, if_neg last] at sound ⊢
      cases pos with
      | fresh => exact sound.elim
      | ended => exact sound.elim
      | on x =>
        have same : (Position.on x).flag flags = flags := rfl
        rw [same]
        by_cases next : flags = ffdbNext
        · simp only [if_pos next]
          exact cursorNext_moves whole h
        · simp only [if_neg next]
          exact cursorPrev_moves whole h

inductive Answers (img : Image h₀) (goal : Spot → Prop) (keyRoom : Nat) (dataRoom : Option Nat)
    (hashp : Htab) : Int × Crs × List UInt8 × List UInt8 → Prop
  | pair {crs : Crs} {y : Spot} (to' : goal y) (fits : img.Fits y.page y.slot keyRoom dataRoom)
      (stands : StandsAt img hashp crs y) :
      Answers img goal keyRoom dataRoom hashp (0, crs, img.given y.page y.slot dataRoom)
  | refused {crs : Crs} {y : Spot} {r : Pair} (to' : goal y)
      (short : ¬img.Fits y.page y.slot keyRoom dataRoom) (stands : StandsAt img hashp crs y) :
      Answers img goal keyRoom dataRoom hashp (-1, crs, r)
  | nothing {crs : Crs} (none : ∀ y, ¬goal y) (ended : crs.Ended) (serves : img.Serves hashp) :
      Answers img goal keyRoom dataRoom hashp (ffdbNotFound, crs, [], [])

theorem cursorGet_answers (whole : img.Whole) (h : Poised img hashp crs pos)
    (known : CursorFlag flags) (sound : img.Sound pos flags) (keyRoom : Nat)
    (dataRoom : Option Nat) : ∃ r hashp',
      (cursorGet crs keyRoom dataRoom flags).Returns hashp r hashp' ∧
        Answers img (img.Goal pos flags) keyRoom dataRoom hashp' r := by
  obtain ⟨place, mid, move, moved⟩ := cursorMove_moves whole h sound
  rw [cursorGet_poised h known]
  cases moved with
  | nowhere none serves ended =>
    exact ⟨_, mid, move.bind.mpr (Prog.returns_pure.mpr ⟨rfl, rfl⟩), .nothing none ended serves⟩
  | @there crs' y to' stands =>
    by_cases fits : img.Fits y.page y.slot keyRoom dataRoom
    · obtain ⟨hashp', read, stands'⟩ := cursorRead_fits stands fits
      refine ⟨_, hashp', move.bind.mpr ?_, .pair to' fits stands'⟩
      exact read.bind.mpr (Prog.returns_pure.mpr ⟨rfl, rfl⟩)
    · obtain ⟨⟨_, key, data⟩, hashp', read, rfl, stands'⟩ := cursorRead_short stands fits
      refine ⟨(-1, crs', key, data), hashp', move.bind.mpr ?_, .refused to' fits stands'⟩
      exact read.bind.mpr (Prog.returns_pure.mpr ⟨rfl, rfl⟩)

theorem Stands.unique (h : StandsAt img hashp crs x) (h' : StandsAt img hashp' crs y) : x = y := by
  obtain ⟨b, p, i, behind⟩ := x
  obtain ⟨b', p', i', behind'⟩ := y
  obtain rfl : b = b' := h.bucket.symm.trans h'.bucket
  obtain rfl : p = p' := h.pgno.symm.trans h'.pgno
  obtain rfl : i = i' := h.pgndx.symm.trans h'.pgndx
  obtain rfl : behind = behind' := h.follow.unique h'.follow
  rfl

namespace Image

theorem First.unique (h : img.First x) (h' : img.First y) : x = y := by
  obtain ⟨b, p, i, behind⟩ := x
  obtain ⟨b', p', i', behind'⟩ := y
  have chain := h.chain
  have chain' := h'.chain
  dsimp only at chain chain'
  obtain rfl : b = b' := by
    rcases Nat.lt_trichotomy b b' with lt | eq | gt
    · rw [h'.before b lt] at chain
      cases chain
    · exact eq
    · rw [h.before b' gt] at chain'
      cases chain'
  rw [chain] at chain'
  cases chain'
  rw [Spot.mk.injEq]
  exact ⟨rfl, rfl, h.slot.trans h'.slot.symm, rfl⟩

theorem Last.unique (h : img.Last x) (h' : img.Last y) : x = y := by
  obtain ⟨b, p, i, behind⟩ := x
  obtain ⟨b', p', i', behind'⟩ := y
  have chain := h.chain
  have chain' := h'.chain
  dsimp only at chain chain'
  obtain rfl : b = b' := by
    rcases Nat.lt_trichotomy b b' with lt | eq | gt
    · rw [h.after b' lt h'.low] at chain'
      cases chain'
    · exact eq
    · rw [h'.after b gt h.low] at chain
      cases chain
  rw [chain] at chain'
  cases chain'
  rw [Spot.mk.injEq]
  exact ⟨rfl, rfl, Nat.succ_injective (h.slot.trans h'.slot.symm), rfl⟩

theorem Next.ne (h : img.Next x y) : y ≠ x := by
  cases h with
  | slot inside => simp
  | page spent =>
    intro same
    have := congrArg (fun x : Spot => x.behind.length) same
    simp at this
  | bucket spent up =>
    intro same
    exact absurd (congrArg Spot.bucket same) up.ne'

theorem Prev.ne (h : img.Prev x y) : y ≠ x := by
  cases h with
  | slot => simp
  | page last =>
    intro same
    have := congrArg (fun x : Spot => x.behind.length) same
    simp at this
  | bucket down =>
    intro same
    exact absurd (congrArg Spot.bucket same) down.ne

theorem Next.unique (h : img.Next x y) (h' : img.Next x z) : y = z := by
  cases h with
  | slot inside =>
    cases h' with
    | slot => rfl
    | page spent => exact absurd spent inside.ne
    | bucket spent => exact absurd spent inside.ne
  | page spent =>
    cases h' with
    | slot inside => exact absurd spent inside.ne
    | page => rfl
  | @bucket b p i b₁ p₁ l₁ spent up _ between chain =>
    cases h' with
    | slot inside => exact absurd spent inside.ne
    | @bucket _ _ _ b₂ p₂ l₂ _ up' _ between' chain' =>
      obtain rfl : b₁ = b₂ := by
        rcases Nat.lt_trichotomy b₁ b₂ with lt | eq | gt
        · rw [between' b₁ up lt] at chain
          cases chain
        · exact eq
        · rw [between b₂ up' gt] at chain'
          cases chain'
      rw [chain] at chain'
      cases chain'
      rfl

theorem Prev.unique (h : img.Prev x y) (h' : img.Prev x z) : y = z := by
  cases h with
  | slot => cases h' with
    | slot => rfl
  | page last => cases h' with
    | page last' =>
      obtain rfl := Nat.succ_injective (last.trans last'.symm)
      rfl
  | @bucket b p b₁ p₁ j l₁ down between chain last =>
    cases h' with
    | @bucket _ _ b₂ p₂ j' l₂ down' between' chain' last' =>
      obtain rfl : b₁ = b₂ := by
        rcases Nat.lt_trichotomy b₁ b₂ with lt | eq | gt
        · rw [between b₂ lt down'] at chain'
          cases chain'
        · exact eq
        · rw [between' b₁ gt down] at chain
          cases chain
      rw [chain] at chain'
      cases chain'
      obtain rfl := Nat.succ_injective (last.trans last'.symm)
      rfl

end Image

theorem Stands.behind_apart {b p i q : Nat} {l : List Nat} (h : Stands img hashp crs b p i (q :: l)) :
    p ≠ q ∧ img.chain b ≠ [p] := by
  obtain ⟨pre, on⟩ := h.on
  refine ⟨fun same => ?_, fun one => ?_⟩
  · have nodup := h.follow.nodup
    rw [same] at nodup
    exact (List.nodup_cons.mp nodup).1 List.mem_cons_self
  · rw [one] at on
    have := congrArg List.length on
    simp at this
    omega

theorem Image.Next.prev_iff (h : img.Next x y) (stands : StandsAt img hashp crs x) :
    img.Prev y x ↔ img.Together x y := by
  cases h with
  | slot inside => exact ⟨fun _ => .inl ⟨rfl, rfl⟩, fun _ => .slot⟩
  | @page b p i q l spent =>
    obtain ⟨apart, more⟩ := stands.behind_apart
    constructor
    · intro back
      cases back with
      | bucket down => exact absurd down (lt_irrefl b)
    · rintro (same | one)
      · exact absurd same.2 apart
      · exact absurd one.1 more
  | @bucket b p i b' p' l spent up low between chain =>
    constructor
    · intro back
      cases back with
      | page => exact absurd up (lt_irrefl _)
      | bucket _ _ chain' _ => exact .inr ⟨chain', chain⟩
    · rintro (same | one)
      · exact absurd same.1 up.ne
      · obtain ⟨here, there⟩ := one
        rw [chain] at there
        cases there
        exact .bucket up between here spent

theorem Image.Prev.next_iff (h : img.Prev x y) (stands : StandsAt img hashp crs x) :
    img.Next y x ↔ img.Together x y := by
  cases h with
  | slot => exact ⟨fun _ => .inl ⟨rfl, rfl⟩, fun _ => .slot stands.slot⟩
  | @page b p q j l last =>
    obtain ⟨apart, more⟩ := stands.behind_apart
    constructor
    · intro forth
      cases forth with
      | bucket _ up => exact absurd up (lt_irrefl b)
    · rintro (same | one)
      · exact absurd same.2 apart
      · exact absurd one.1 more
  | @bucket b p b' p' j l down between chain last =>
    constructor
    · intro forth
      cases forth with
      | page => exact absurd down (lt_irrefl _)
      | bucket _ _ _ _ chain' => exact .inr ⟨chain', chain⟩
    · rintro (same | one)
      · exact absurd same.1 down.ne'
      · obtain ⟨here, there⟩ := one
        rw [chain] at there
        cases there
        exact .bucket last down stands.low between here

theorem sound_of_refused (h : Poised img hashp crs pos) (known : CursorFlag flags) {keyRoom : Nat}
    {dataRoom : Option Nat} {r : Int × Crs × List UInt8 × List UInt8}
    (run : (cursorGet crs keyRoom dataRoom flags).Returns hashp r hashp') (refused : r.1 = -1) :
    img.Sound pos flags := by
  have bound := img.buckets
  rw [cursorGet_poised h known] at run
  obtain ⟨place, mid, move, rest⟩ := Prog.returns_bind.mp run
  unfold cursorMove at move
  unfold Image.Sound
  by_cases first : pos.flag flags = ffdbFirst
  · simp only [if_pos first] at move ⊢
    intro empty
    have none : ∀ a ≤ h₀.hdr.maxBucket, img.chain a = [] := by
      intro a low
      by_contra some
      exact pairs_ne_nil.mpr ⟨a, low, some⟩ empty
    by_cases full : h₀.hdr.maxBucket + 1 = 0x80000000
    · exact cursorFirst_stuck h.loose full none move
    · obtain ⟨place', mid', move', moved⟩ := cursorFirst_moves h.loose (.inl (by omega))
      obtain ⟨rfl, rfl⟩ := move.unique move'
      cases moved with
      | there to' =>
        have nil := none _ to'.low
        rw [to'.chain] at nil
        cases nil
      | nowhere =>
        obtain ⟨rfl, rfl⟩ := Prog.returns_pure.mp rest
        exact absurd (show ffdbNotFound = -1 from refused) (by decide)
  · by_cases last : pos.flag flags = ffdbLast
    · simp only [if_neg first, if_pos last] at move ⊢
      by_contra none
      rw [not_or, not_not] at none
      have one : h₀.hdr.maxBucket = 0 := by omega
      refine cursorLast_stuck h.loose one ?_ move
      by_contra some
      exact pairs_ne_nil.mpr ⟨0, Nat.zero_le _, some⟩ none.1
    · simp only [if_neg first, if_neg last] at move ⊢
      cases pos with
      | on x => trivial
      | fresh =>
        rcases known with rfl | rfl | rfl | rfl
        · exact first rfl
        · exact last rfl
        · exact first rfl
        · exact last rfl
      | ended =>
        split_ifs at move
        · simp [cursorNext, h.1.pagep] at move
        · simp [cursorPrev, h.1.pagep] at move

theorem goal_ne (known : CursorFlag flags) (goal : img.Goal (.on y) flags y) :
    flags = ffdbFirst ∨ flags = ffdbLast := by
  rcases known with rfl | rfl | rfl | rfl
  · exact .inl rfl
  · exact .inr rfl
  · exact absurd rfl (Image.Next.ne goal)
  · exact absurd rfl (Image.Prev.ne goal)

/-- The call returns the pair of the spot, into any buffers that take it. -/
def Yields (img : Image h₀) (hashp : Htab) (crs : Crs) (flags : Nat) (y : Spot) : Prop :=
  ∀ keyRoom dataRoom, img.Fits y.page y.slot keyRoom dataRoom → ∃ crs' hashp',
    (cursorGet crs keyRoom dataRoom flags).Returns hashp
      (0, crs', img.given y.page y.slot dataRoom) hashp' ∧ StandsAt img hashp' crs' y

theorem Image.Goal.unique (goal : img.Goal pos flags y) (goal' : img.Goal pos flags z) : y = z := by
  unfold Image.Goal at goal goal'
  by_cases first : pos.flag flags = ffdbFirst
  · rw [if_pos first] at goal goal'
    exact Image.First.unique goal goal'
  · rw [if_neg first] at goal goal'
    by_cases last : pos.flag flags = ffdbLast
    · rw [if_pos last] at goal goal'
      exact Image.Last.unique goal goal'
    · rw [if_neg last] at goal goal'
      cases pos with
      | fresh => exact goal.elim
      | ended => exact goal.elim
      | on x =>
        dsimp only at goal goal'
        by_cases next : flags = ffdbNext
        · rw [if_pos next] at goal goal'
          exact Image.Next.unique goal goal'
        · rw [if_neg next] at goal goal'
          exact Image.Prev.unique goal goal'

theorem goal_end {pos' : Position} (ends : flags = ffdbFirst ∨ flags = ffdbLast) :
    img.Goal pos flags y ↔ img.Goal pos' flags y := by
  rcases ends with rfl | rfl
  · cases pos <;> cases pos' <;> exact Iff.rfl
  · cases pos <;> cases pos' <;> exact Iff.rfl

theorem Stands.sound (h : StandsAt img hashp crs x) (flags : Nat) : img.Sound (.on x) flags := by
  have some : img.pairs ≠ [] := by
    obtain ⟨pre, on⟩ := h.on
    refine pairs_ne_nil.mpr ⟨x.bucket, h.low, fun none => ?_⟩
    rw [none] at on
    simp at on
  unfold Image.Sound
  split_ifs
  · exact some
  · exact .inl some
  · trivial

theorem yields_goal (whole : img.Whole) (h : Poised img hashp crs pos) (known : CursorFlag flags)
    (sound : img.Sound pos flags) (goal : img.Goal pos flags y) : Yields img hashp crs flags y := by
  intro keyRoom dataRoom fits
  obtain ⟨r, hashp', run, answers⟩ := cursorGet_answers whole h known sound keyRoom dataRoom
  cases answers with
  | pair goal' _ stands =>
    obtain rfl := goal.unique goal'
    exact ⟨_, hashp', run, stands⟩
  | refused goal' short =>
    obtain rfl := goal.unique goal'
    exact absurd fits short
  | nothing none => exact absurd goal (none y)

theorem Yields.goal (whole : img.Whole) (h : Poised img hashp crs pos) (known : CursorFlag flags)
    (sound : img.Sound pos flags) (yields : Yields img hashp crs flags y) : img.Goal pos flags y := by
  obtain ⟨crs', mid, run, stands⟩ := yields 0 none ⟨.inl rfl, fun _ no => by cases no⟩
  obtain ⟨r, hashp', run', answers⟩ := cursorGet_answers whole h known sound 0 none
  obtain ⟨same, rfl⟩ := run.unique run'
  cases answers with
  | pair goal _ stands' =>
    rw [Prod.mk.injEq, Prod.mk.injEq] at same
    obtain ⟨_, rfl, _⟩ := same
    obtain rfl := stands.unique stands'
    exact goal
  | refused => cases same
  | nothing => cases same

/-- A call that is refused for want of room would have returned the pair of some slot. Made
again with room enough it returns that pair exactly when it asks for the first or the last. -/
theorem refused_again (whole : img.Whole) (h : Poised img hashp crs pos) (known : CursorFlag flags)
    {keyRoom : Nat} {dataRoom : Option Nat} {r : Int × Crs × List UInt8 × List UInt8} {mid : Htab}
    (run : (cursorGet crs keyRoom dataRoom flags).Returns hashp r mid) (refused : r.1 = -1) :
    ∃ y, Yields img hashp crs flags y ∧
      (Yields img mid r.2.1 flags y ↔ flags = ffdbFirst ∨ flags = ffdbLast) := by
  have sound := sound_of_refused h known run refused
  obtain ⟨r', mid', run', answers⟩ := cursorGet_answers whole h known sound keyRoom dataRoom
  obtain ⟨rfl, rfl⟩ := run.unique run'
  cases answers with
  | pair => exact absurd (show (0 : Int) = -1 from refused) (by decide)
  | nothing => exact absurd (show ffdbNotFound = -1 from refused) (by decide)
  | @refused crs' y p goal short stands =>
    have poised : Poised img mid crs' (.on y) := stands
    have sound' := stands.sound flags
    refine ⟨y, yields_goal whole h known sound goal, fun yields => ?_, fun ends => ?_⟩
    · exact goal_ne known (yields.goal whole poised known sound')
    · exact yields_goal whole poised known sound' ((goal_end ends).mp goal)

def Returned (img : Image h₀) (hashp : Htab) (crs : Crs) (x y : Spot) (there back : Nat) : Prop :=
  ∀ keyRoom dataRoom, img.Fits y.page y.slot keyRoom dataRoom → ∃ crs' mid,
    (cursorGet crs keyRoom dataRoom there).Returns hashp
      (0, crs', img.given y.page y.slot dataRoom) mid ∧ Yields img mid crs' back x

theorem returned_iff (whole : img.Whole) (h : StandsAt img hashp crs x) {there back : Nat}
    (known : CursorFlag there) (known' : CursorFlag back) (goal : img.Goal (.on x) there y) :
    Returned img hashp crs x y there back ↔ img.Goal (.on y) back x := by
  have poised : Poised img hashp crs (.on x) := h
  have yields := yields_goal whole poised known (h.sound there) goal
  constructor
  · intro returned
    have fits : img.Fits y.page y.slot 0 none := ⟨.inl rfl, fun _ no => by cases no⟩
    obtain ⟨crs', mid, run, again⟩ := returned 0 none fits
    obtain ⟨crs'', mid', run', stands⟩ := yields 0 none fits
    obtain ⟨same, rfl⟩ := run.unique run'
    cases same
    have poised' : Poised img mid crs' (.on y) := stands
    exact again.goal whole poised' known' (stands.sound back)
  · intro goal' keyRoom dataRoom fits
    obtain ⟨crs', mid, run, stands⟩ := yields keyRoom dataRoom fits
    have poised' : Poised img mid crs' (.on y) := stands
    exact ⟨crs', mid, run, yields_goal whole poised' known' (stands.sound back) goal'⟩

/-- A step from one slot to another and the step the other way come back to the pair the
cursor was on exactly when the two are on one page, or each on the only page of its bucket. -/
theorem step_undone (whole : img.Whole) (h : StandsAt img hashp crs x) :
    (∀ y, img.Next x y → (Returned img hashp crs x y ffdbNext ffdbPrev ↔ img.Together x y)) ∧
    (∀ y, img.Prev x y → (Returned img hashp crs x y ffdbPrev ffdbNext ↔ img.Together x y)) := by
  have known : CursorFlag ffdbNext := .inr (.inr (.inl rfl))
  have known' : CursorFlag ffdbPrev := .inr (.inr (.inr rfl))
  refine ⟨fun y next => ?_, fun y prev => ?_⟩
  · rw [← next.prev_iff h]
    exact returned_iff whole h known known' next
  · rw [← prev.next_iff h]
    exact returned_iff whole h known' known prev

section TwoPages

def soleKey (c : Page) (number ty next : Nat) (key bytes : List UInt8) (first : Nat) : Page :=
  (putDatap 0 4076 { onlyDatap bytes with first := first }
    (putKey (Dbt.ofBytes key) (FileHash.initPage 4096 c number ty))).setNextPgno next

def soleDatum (number keyPage : Nat) (bytes : List UInt8) : Page :=
  wholeDatum 4096 bigPageOverhead
    (dataHeader defaultHdr.version dataValid (Dbt.ofBytes bytes) keyPage 0)
    (Dbt.ofBytes bytes) (FileHash.initPage 4096 (fun _ => 0) number hashDataPage)

def twoPages (p : Nat) : Page :=
  if p = 3 then soleKey (fun _ => 0) 3 hashBucketPage 5 [7, 0] [42] 4
  else if p = 4 then soleDatum 4 3 [42]
  else if p = 5 then soleKey (fun _ => 0) 5 hashOvflPage invalidPgno [8, 0] [43] 6
  else if p = 6 then soleDatum 6 5 [43]
  else fun _ => 0

/-- The key of page `p` and its datum on page `q` read back. -/
structure SoleSlot (p q : Nat) (key bytes : List UInt8) : Prop where
  slots : (twoPages p).numEnt = 1
  signed : (twoPages p).pageSign = pageMagic ∧ (twoPages q).pageSign = pageMagic
  keyOff : chksumOffset ≤ (twoPages p).keyOff 0
  keyLen : (twoPages p).keyLen 0 = 2
  spelledKey : ((twoPages p).key 0).bytes = key
  datapOff : (twoPages p).datapOff 0 = 4076
  datap : (twoPages p).datap 0 = { onlyDatap bytes with first := q }
  number : (twoPages q).currPgno = q
  entries : 1 ≤ (twoPages q).numEnt
  header : headerMatches defaultHdr.version dataValid (twoPages q)
    { onlyDatap bytes with first := q } p 0 = true
  len : dataLen defaultHdr.version { onlyDatap bytes with first := q } = bytes.length
  start : dataOffset defaultHdr.version { onlyDatap bytes with first := q } = bigPageOverhead
  spelled : (Lib.Mem.drop (twoPages q) (bigPageOverhead + bigDataOverhead)).bytes bytes.length = bytes
  fits : bigPageOverhead + bigDataOverhead + bytes.length ≤ 4096

theorem soleSlot_three : SoleSlot 3 4 [7, 0] [42] := by
  constructor <;> decide +kernel

theorem soleSlot_five : SoleSlot 5 6 [8, 0] [43] := by
  constructor <;> decide +kernel

def twoTable : Htab := tableOn defaults defaultHdr 7 twoPages

theorem SoleSlot.leads {p q : Nat} {key bytes : List UInt8} (h : SoleSlot p q key bytes)
    (data : q = 4 ∨ q = 6) : ∀ i < (twoPages p).numEnt,
      chksumOffset ≤ (twoPages p).keyOff i ∧ chksumOffset ≤ (twoPages p).datapOff i ∧
        Leads twoTable twoPages (fun q => q = 4 ∨ q = 6) p i ((twoPages p).datap i) bytes := by
  intro i slot
  obtain rfl : i = 0 := by rw [h.slots] at slot; omega
  have whole : Spells 4096 twoPages (fun q => q = 4 ∨ q = 6) q (bigPageOverhead + bigDataOverhead)
      bytes.length _ := .last data (by decide) h.fits
  rw [h.spelled] at whole
  refine ⟨h.keyOff, by rw [h.datapOff]; decide, ?_⟩
  rw [h.datap]
  exact ⟨h.number, h.entries, h.header, h.start ▸ (by decide : chksumOffset ≤ bigPageOverhead),
    h.start.symm ▸ h.len.symm ▸ whole, rfl⟩

theorem defaultHdr_room : bigPageOverhead < defaultHdr.bsize := by decide

theorem defaultHdr_page : defaultHdr.bucketToPage 0 = 3 := by decide +kernel

theorem defaultHdr_buckets : defaultHdr.maxBucket < 0x80000000 := by decide

def twoImage : Image twoTable where
  view := twoPages
  chain b := if b = 0 then [3, 5] else []
  data q := q = 4 ∨ q = 6
  value p _ := if p = 3 then [42] else [43]
  size := defaultHdr_room
  buckets := defaultHdr_buckets
  linked := by
    intro b low p l eq
    obtain rfl : b = 0 := Nat.le_zero.mp low
    cases eq
    refine ⟨defaultHdr_page, ?_⟩
    exact .next (by decide +kernel) (by decide) (.last (by decide +kernel))
  filled := by
    intro b low p l eq
    obtain rfl : b = 0 := Nat.le_zero.mp low
    cases eq
    exact soleSlot_three.slots ▸ Nat.one_pos
  own := by
    intro b low none
    obtain rfl : b = 0 := Nat.le_zero.mp low
    cases none
  apart := by
    intro b low
    obtain rfl : b = 0 := Nat.le_zero.mp low
    have bucket : (tableOn defaults defaultHdr 7 twoPages).hdr.bucketToPage 0 = 3 :=
      defaultHdr_page
    rw [twoTable, bucket]
    refine ⟨by decide, fun p mem => ?_⟩
    simp only [if_true, List.mem_cons, List.not_mem_nil, or_false] at mem
    omega
  slots := by
    intro b low p mem
    obtain rfl : b = 0 := Nat.le_zero.mp low
    simp only [if_true, List.mem_cons, List.not_mem_nil, or_false] at mem
    rcases mem with rfl | rfl
    · exact soleSlot_three.leads (.inl rfl)
    · exact soleSlot_five.leads (.inr rfl)

theorem two_serves : twoImage.Serves twoTable := by
  refine serves_tableOn (fun _ => rfl) rfl twoImage (fun p on => ?_) (fun b low none => ?_)
  · rcases on with (rfl | rfl) | ⟨b, low, mem⟩
    · exact ⟨by decide, soleSlot_three.signed.2, rfl⟩
    · exact ⟨by decide, soleSlot_five.signed.2, rfl⟩
    · obtain rfl : b = 0 := Nat.le_zero.mp low
      simp only [twoImage, if_true, List.mem_cons, List.not_mem_nil, or_false] at mem
      rcases mem with rfl | rfl
      · exact ⟨by decide, soleSlot_three.signed.1, rfl⟩
      · exact ⟨by decide, soleSlot_five.signed.1, rfl⟩
  · obtain rfl : b = 0 := Nat.le_zero.mp low
    cases none

theorem two_whole : twoImage.Whole := by
  intro b low p mem
  obtain rfl : b = 0 := Nat.le_zero.mp low
  simp only [twoImage, if_true, List.mem_cons, List.not_mem_nil, or_false] at mem
  rcases mem with rfl | rfl
  · exact soleSlot_three.slots ▸ Nat.one_pos
  · exact soleSlot_five.slots ▸ Nat.one_pos

theorem two_first : twoImage.First ⟨0, 3, 0, [5]⟩ :=
  ⟨Nat.le_refl 0, fun a below => absurd below (Nat.not_lt_zero a), rfl, rfl⟩

theorem two_next : twoImage.Next ⟨0, 3, 0, [5]⟩ ⟨0, 5, 0, []⟩ := .page soleSlot_three.slots.symm

theorem two_fresh : Poised twoImage twoTable (hashCursor true) .fresh := ⟨rfl, two_serves⟩

theorem two_pairs : twoImage.pairs ≠ [] :=
  pairs_ne_nil.mpr ⟨0, Nat.le_refl 0, by simp [twoImage]⟩

theorem two_stands : ∃ crs hashp, StandsAt twoImage hashp crs ⟨0, 3, 0, [5]⟩ := by
  have yields := yields_goal two_whole two_fresh (.inl rfl) two_pairs two_first
  obtain ⟨crs, hashp, _, stands⟩ := yields 0 none ⟨.inl rfl, fun _ no => by cases no⟩
  exact ⟨crs, hashp, stands⟩

/-- `FFDB_NEXT` and `FFDB_PREV` again, from the bucket page to its overflow page: the second
does not come back. -/
theorem overflow_page_not_undone : ∃ crs hashp x y, StandsAt twoImage hashp crs x ∧
    twoImage.Next x y ∧ ¬Returned twoImage hashp crs x y ffdbNext ffdbPrev := by
  obtain ⟨crs, hashp, stands⟩ := two_stands
  refine ⟨crs, hashp, _, _, stands, two_next, fun returned => ?_⟩
  rw [returned_iff two_whole stands (.inr (.inr (.inl rfl))) (.inr (.inr (.inr rfl))) two_next] at returned
  have back : twoImage.Prev ⟨0, 5, 0, []⟩ ⟨0, 3, 0, [5]⟩ := returned
  cases back with
  | bucket down => exact absurd down (lt_irrefl 0)

theorem step_undone_two : ∃ crs hashp, StandsAt twoImage hashp crs ⟨0, 3, 0, [5]⟩ ∧
    (Returned twoImage hashp crs ⟨0, 3, 0, [5]⟩ ⟨0, 5, 0, []⟩ ffdbNext ffdbPrev ↔
      twoImage.Together ⟨0, 3, 0, [5]⟩ ⟨0, 5, 0, []⟩) := by
  obtain ⟨crs, hashp, stands⟩ := two_stands
  exact ⟨crs, hashp, stands, (step_undone two_whole stands).1 _ two_next⟩

/-- A first `FFDB_NEXT` with room for one byte of a key of two. -/
theorem two_refused : ∃ r mid,
    (cursorGet (hashCursor true) 1 none ffdbNext).Returns twoTable r mid ∧ r.1 = -1 ∧
      StandsAt twoImage mid r.2.1 ⟨0, 3, 0, [5]⟩ := by
  have known : CursorFlag ffdbNext := .inr (.inr (.inl rfl))
  obtain ⟨r, mid, run, answers⟩ := cursorGet_answers two_whole two_fresh known two_pairs 1 none
  have first : twoImage.Goal .fresh ffdbNext ⟨0, 3, 0, [5]⟩ := two_first
  cases answers with
  | pair goal fits =>
    obtain rfl := first.unique goal
    have size : ((twoPages 3).key 0).size = 2 := soleSlot_three.keyLen
    rcases fits.1 with none | roomy
    · cases none
    · exact absurd (size.symm.trans_le roomy) (by decide)
  | refused goal _ stands =>
    obtain rfl := first.unique goal
    exact ⟨_, mid, run, rfl, stands⟩
  | nothing none => exact absurd first (none _)

theorem refused_again_two : ∃ r mid y,
    (cursorGet (hashCursor true) 1 none ffdbNext).Returns twoTable r mid ∧
      Yields twoImage twoTable (hashCursor true) ffdbNext y ∧
      (Yields twoImage mid r.2.1 ffdbNext y ↔ ffdbNext = ffdbFirst ∨ ffdbNext = ffdbLast) := by
  obtain ⟨r, mid, run, refused, _⟩ := two_refused
  obtain ⟨y, yields, again⟩ := refused_again two_whole two_fresh (.inr (.inr (.inl rfl))) run refused
  exact ⟨r, mid, y, run, yields, again⟩

/-- A first `FFDB_NEXT` that is refused and made again with room enough passes over the pair
it was refused. -/
theorem refused_next_skips : ∃ r mid y,
    (cursorGet (hashCursor true) 1 none ffdbNext).Returns twoTable r mid ∧ r.1 = -1 ∧
      Yields twoImage twoTable (hashCursor true) ffdbNext y ∧
      ¬Yields twoImage mid r.2.1 ffdbNext y := by
  obtain ⟨r, mid, run, refused, stands⟩ := two_refused
  have known : CursorFlag ffdbNext := .inr (.inr (.inl rfl))
  have first : twoImage.Goal .fresh ffdbNext ⟨0, 3, 0, [5]⟩ := two_first
  have poised : Poised twoImage mid r.2.1 (.on ⟨0, 3, 0, [5]⟩) := stands
  refine ⟨r, mid, _, run, refused, yields_goal two_whole two_fresh known two_pairs first, fun again => ?_⟩
  have goal := again.goal two_whole poised known (stands.sound ffdbNext)
  exact absurd rfl (Image.Next.ne goal)

end TwoPages

end FileHash.Htab
