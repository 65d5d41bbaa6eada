import FileHash.DataPages
import FileHash.Lib.Tiles

/-! The pieces of a value that are copied to data pages, on its first storage and on
replacement. They depend on the page size, the place on the first page and the length. -/
namespace FileHash.Htab

open Lib (Prog Span Tiles totalLen totalLen_nil totalLen_cons totalLen_append)
open Page

variable {bsize size start rlen fuel : Nat} {val : Dbt}

def copyPiece (val : Dbt) (c : Span) (p : Page) : Page :=
  p.copy bigPageOverhead (Lib.Mem.drop val.data c.start) c.len

/-- The piece for one continuation page, with `rlen` bytes to come. -/
def tailPiece (bsize size rlen : Nat) : Span := ⟨size - rlen, tailLen bsize rlen⟩

def tailPieces (bsize size : Nat) : Nat → Nat → List Span
  | 0, _ => []
  | fuel + 1, rlen =>
    if rlen = 0 then []
    else tailPiece bsize size rlen :: tailPieces bsize size fuel (rlen - tailLen bsize rlen)

def copiedPieces (bsize start size : Nat) : List Span :=
  let fspace := bsize - start
  if bigDataOverhead + size ≤ fspace then [⟨0, size⟩]
  else
    let rlen := size - (fspace - bigDataOverhead)
    (if 0 < fspace - bigDataOverhead then [⟨0, fspace - bigDataOverhead⟩] else []) ++
      tailPieces bsize size (rlen + 1) rlen

/-- The loop of `_ffdb_add_data`, told which pieces to copy. -/
def addPieces (bsize : Nat) (val : Dbt) : List Span → Nat → Bool → Nat → Run Int
  | [], _, _, _ => pure 0
  | c :: rest, currp, reuse, prevp => do
    match (← getPage currp hashDataPage { create := true }).1 with
    | none => pure (-1)
    | some currpagep =>
      if reuse then initPage currpagep currp hashDataPage
      store currpagep fun p =>
        let p := p.setPrevPgno prevp
        let free := if fitsTail bsize (val.size - c.start) then
          alignAddr (bigPageOverhead + (val.size - c.start)) else 0
        copyPiece val c ((p.setOffset free).setFirstDataPos free)
      if rest = [] then
        putPage currpagep true
        pure 0
      else
        let r ← dataPage true
        store currpagep fun p => p.setNextPgno r.1
        putPage currpagep true
        addPieces bsize val rest r.1 r.2 currp

/-- The loop of `_ffdb_replace_data`, told which pieces to copy. -/
def replacePieces (val : Dbt) : List Span → Nat → Run Int
  | [], _ => pure 0
  | c :: rest, currp => do
    match (← getPage currp hashDataPage {}).1 with
    | none => pure (-1)
    | some currpagep =>
      store currpagep (copyPiece val c)
      let p ← page currpagep
      putPage currpagep true
      replacePieces val rest p.nextPgno

theorem tailLen_pos (room : bigPageOverhead + bigDataOverhead < bsize) (more : rlen ≠ 0) :
    0 < tailLen bsize rlen := by
  unfold tailLen
  split
  · exact Nat.pos_of_ne_zero more
  · omega

theorem tailPieces_eq_nil (enough : rlen < fuel) : tailPieces bsize size fuel rlen = [] ↔ rlen = 0 := by
  cases fuel with
  | zero => omega
  | succ fuel =>
    rw [tailPieces]
    split
    · simpa
    · simpa

theorem addTail_eq (room : bigPageOverhead + bigDataOverhead < bsize) (within : rlen ≤ val.size)
    (enough : rlen < fuel) (currp : Nat) (reuse : Bool) (prevp : Nat) :
    addTail bsize val fuel currp reuse prevp rlen =
      addPieces bsize val (tailPieces bsize val.size fuel rlen) currp reuse prevp := by
  induction fuel generalizing currp reuse prevp rlen with
  | zero => omega
  | succ fuel ih =>
    rw [addTail, tailPieces]
    by_cases done : rlen = 0
    · rw [if_pos done, if_pos done, addPieces]
    · have back : val.size - (tailPiece bsize val.size rlen).start = rlen := by
        simp only [tailPiece]
        omega
      have turn := tailLen_pos room done
      rw [if_neg done, if_neg done, addPieces, back]
      refine congrArg (_ >>= ·) (funext fun got => ?_)
      by_cases last : rlen - tailLen bsize rlen = 0
      · have none : tailPieces bsize val.size fuel (rlen - tailLen bsize rlen) = [] :=
          (tailPieces_eq_nil (by omega)).mpr last
        simp only [none]
        simp only [last, if_true]
        rfl
      · have some : tailPieces bsize val.size fuel (rlen - tailLen bsize rlen) ≠ [] :=
          fun none => last ((tailPieces_eq_nil (by omega)).mp none)
        simp only [if_neg last, if_neg some, @ih (rlen - tailLen bsize rlen) (by omega) (by omega)]
        rfl

theorem replaceTail_eq (room : bigPageOverhead + bigDataOverhead < bsize) (within : rlen ≤ val.size)
    (enough : rlen < fuel) (currp : Nat) :
    replaceTail bsize val fuel currp rlen =
      replacePieces val (tailPieces bsize val.size fuel rlen) currp := by
  induction fuel generalizing currp rlen with
  | zero => omega
  | succ fuel ih =>
    rw [replaceTail, tailPieces]
    by_cases done : rlen = 0
    · rw [if_pos done, if_pos done, replacePieces]
    · have turn := tailLen_pos room done
      rw [if_neg done, if_neg done, replacePieces]
      simp only [@ih (rlen - tailLen bsize rlen) (by omega) (by omega)]
      rfl

/-- The copies take the bytes of the value, one after the other and each once, and no others;
then nothing is left to be copied. -/
structure Exact (size : Nat) (l : List Span) : Prop where
  inside : ∀ c ∈ l, c.start + c.len ≤ size
  consecutive : l.IsChain fun c d => d.start = c.start + c.len
  once : ∀ i < size, l.countP (fun c => c.covers i) = 1
  counter : (size : Int) - totalLen l = 0

theorem Exact.of_tiles {l : List Span} (h : Tiles 0 l size) : Exact size l where
  inside _ mem := (h.inside mem).2
  consecutive := h.chain
  once _ small := h.count (Nat.zero_le _) small
  counter := by
    have := h.total
    omega

/-- What the last of the continuation pages has to take, of `rlen` bytes. -/
def lastRest (bsize rlen : Nat) : Nat := (rlen - 1) % (bsize - bigPageOverhead) + 1

def EndsEven (bsize rlen : Nat) : Prop :=
  fitsTail bsize (lastRest bsize rlen) ∨ lastRest bsize rlen = bsize - bigPageOverhead

theorem lastRest_small (pos : 0 < rlen) (small : rlen ≤ bsize - bigPageOverhead) : lastRest bsize rlen = rlen := by
  unfold lastRest
  rw [Nat.mod_eq_of_lt (by omega)]
  omega

theorem lastRest_sub (more : bsize - bigPageOverhead < rlen) :
    lastRest bsize (rlen - (bsize - bigPageOverhead)) = lastRest bsize rlen := by
  unfold lastRest
  rw [Nat.mod_eq_sub_mod (a := rlen - 1) (by omega)]
  congr 2
  omega

theorem tailPieces_span (room : bigPageOverhead + bigDataOverhead < bsize) (within : rlen ≤ size)
    (pos : 0 < rlen) (enough : rlen < fuel) :
    (EndsEven bsize rlen → Tiles (size - rlen) (tailPieces bsize size fuel rlen) size) ∧
      (¬EndsEven bsize rlen → rlen < totalLen (tailPieces bsize size fuel rlen)) := by
  induction fuel generalizing rlen with
  | zero => omega
  | succ fuel ih =>
    rw [tailPieces, if_neg pos.ne']
    by_cases small : rlen ≤ bsize - bigPageOverhead
    · have last : tailPieces bsize size fuel (rlen - tailLen bsize rlen) = [] := by
        refine (tailPieces_eq_nil (by have := tailLen_pos room pos.ne'; omega)).mpr ?_
        unfold tailLen
        split
        · exact Nat.sub_self rlen
        · omega
      rw [last]
      unfold EndsEven
      rw [lastRest_small pos small]
      constructor
      · intro even
        have len : tailLen bsize rlen = rlen := by
          unfold tailLen
          split
          · rfl
          · exact (even.resolve_left ‹_›).symm
        refine ⟨rfl, ?_⟩
        simp only [Tiles, tailPiece, len]
        omega
      · intro odd
        rw [not_or] at odd
        simp only [totalLen_cons, totalLen_nil, tailPiece, tailLen, if_neg odd.1]
        omega
    · have full : tailLen bsize rlen = bsize - bigPageOverhead := by
        refine if_neg ?_
        simp only [fitsTail, decide_eq_true_eq]
        omega
      have rest := @ih (rlen - (bsize - bigPageOverhead)) (by omega) (by omega) (by omega)
      have same : EndsEven bsize (rlen - (bsize - bigPageOverhead)) ↔ EndsEven bsize rlen := by
        unfold EndsEven
        rw [lastRest_sub (by omega)]
      rw [same] at rest
      simp only [tailPiece, full, totalLen_cons]
      refine ⟨fun even => ⟨rfl, ?_⟩, fun odd => ?_⟩
      · have next : size - rlen + (bsize - bigPageOverhead) = size - (rlen - (bsize - bigPageOverhead)) := by
          omega
        dsimp only
        rw [next]
        exact rest.1 even
      · have := rest.2 odd
        omega

/-- Every copy made to store or to replace a value takes bytes of the value, consecutive and
each once, exactly when the value fits its first page or the last page it goes on to ends
even; and these are the copies the loops of the two routines make. -/
theorem copies_exact (page : hashhdrSize ≤ bsize) (header : start + bigDataOverhead ≤ bsize) :
    (Exact size (copiedPieces bsize start size) ↔ bigDataOverhead + size ≤ bsize - start ∨
      EndsEven bsize (size - (bsize - start - bigDataOverhead))) ∧
    ∀ val : Dbt, val.size = size → ∀ rlen, rlen = size - (bsize - start - bigDataOverhead) →
      (∀ currp reuse prevp, addTail bsize val (rlen + 1) currp reuse prevp rlen =
        addPieces bsize val (tailPieces bsize size (rlen + 1) rlen) currp reuse prevp) ∧
      ∀ currp, replaceTail bsize val (rlen + 1) currp rlen =
        replacePieces val (tailPieces bsize size (rlen + 1) rlen) currp := by
  have room : bigPageOverhead + bigDataOverhead < bsize :=
    (by decide : bigPageOverhead + bigDataOverhead < hashhdrSize).trans_le page
  constructor
  · unfold copiedPieces
    dsimp only
    by_cases fits : bigDataOverhead + size ≤ bsize - start
    · rw [if_pos fits]
      refine iff_of_true (.of_tiles ⟨rfl, Nat.zero_add size⟩) (.inl fits)
    · rw [if_neg fits]
      have span := tailPieces_span room (Nat.sub_le size (bsize - start - bigDataOverhead)) (by omega)
        (Nat.lt_add_one _)
      have back : size - (size - (bsize - start - bigDataOverhead)) = bsize - start - bigDataOverhead := by
        omega
      rw [back] at span
      have head : Tiles 0 (if 0 < bsize - start - bigDataOverhead then
          [⟨0, bsize - start - bigDataOverhead⟩] else []) (bsize - start - bigDataOverhead) := by
        split
        · exact ⟨rfl, Nat.zero_add _⟩
        · exact (Nat.eq_zero_of_not_pos ‹_›).symm
      constructor
      · intro exact
        by_contra odd
        have more := span.2 fun even => odd (.inr even)
        have counter := exact.counter
        have reach := head.total
        rw [totalLen_append] at counter
        omega
      · intro even
        exact .of_tiles (head.append (span.1 (even.resolve_left fits)))
  · rintro val rfl rlen rfl
    exact ⟨addTail_eq room (Nat.sub_le _ _) (Nat.lt_succ_self _),
      replaceTail_eq room (Nat.sub_le _ _) (Nat.lt_succ_self _)⟩

theorem copies_exact_940 : Exact 940 (copiedPieces 512 32 940) :=
  ((copies_exact (by decide) (by decide)).1).mpr (.inr (.inr (by decide)))

/-- On pages of 512 bytes a value of 921 bytes leaves 461 for its second page, which takes 480:
19 bytes from behind the value. -/
theorem last_copy_overruns : hashhdrSize ≤ 512 ∧ 32 + bigDataOverhead ≤ 512 ∧
    copiedPieces 512 32 921 = [⟨0, 460⟩, ⟨460, 480⟩] ∧ ¬Exact 921 (copiedPieces 512 32 921) := by
  have pieces : copiedPieces 512 32 921 = [⟨0, 460⟩, ⟨460, 480⟩] := by decide
  refine ⟨by decide, by decide, pieces, fun exact => ?_⟩
  rw [pieces] at exact
  exact absurd (exact.inside ⟨460, 480⟩ (by simp)) (by decide)

end FileHash.Htab
