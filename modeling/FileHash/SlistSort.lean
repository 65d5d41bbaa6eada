import FileHash.Lib.LinkedList
import FileHash.PoolLinks

/-! `_ffdb_slist_merge_sort` on the list as it is in memory: the entries that are to be written, each
with a pointer to the next one. -/
namespace FileHash

open Lib (Seg)

/-- `ffdb_slh_t`, and the `sle_next` of every `ffdb_sbkt_t`. -/
structure Slist where
  slhFirst : Option Nat
  sleNext : Nat → Option Nat

/-- The largest `int`. -/
def intMax : Nat := 0x7fffffff

namespace Slist

def setNext (head : Slist) (elm : Nat) (next : Option Nat) : Slist :=
  { head with sleNext := Function.update head.sleNext elm next }

/-- `FFDB_SLIST_INSERT_AFTER`. -/
def insertAfter (head : Slist) (slistelm elm : Nat) : Slist :=
  (head.setNext elm (head.sleNext slistelm)).setNext slistelm (some elm)

/-- `FFDB_SLIST_NULL_NEXT`. -/
def nullNext (head : Slist) (slistelm : Nat) : Slist := head.setNext slistelm none

def addMerged (head : Slist) (tail : Option Nat) (e : Nat) : Slist :=
  match tail with
  | some tail => head.insertAfter tail e
  | none => { head with slhFirst := some e }

/-- The `for` loop: `q` steps along while there are entries, at most `insize` of them. -/
def stepAlong (sleNext : Nat → Option Nat) : Nat → Nat → Nat × Option Nat
  | 0, q => (0, some q)
  | insize + 1, q =>
    match sleNext q with
    | none => (1, none)
    | some q' =>
      let r := stepAlong sleNext insize q'
      (r.1 + 1, r.2)

structure Merging where
  head : Slist
  tail : Option Nat
  p : Option Nat
  q : Option Nat
  psize : Nat
  qsize : Nat

namespace Merging

def takeP (m : Merging) : Option Merging :=
  m.p.map fun e => ⟨m.head.addMerged m.tail e, some e, m.head.sleNext e, m.q, m.psize - 1, m.qsize⟩

def takeQ (m : Merging) : Option Merging :=
  m.q.map fun e => ⟨m.head.addMerged m.tail e, some e, m.p, m.head.sleNext e, m.psize, m.qsize - 1⟩

/-- One turn; `none` when a null pointer is followed. -/
def turn (le : Nat → Nat → Bool) (m : Merging) : Option Merging :=
  if m.psize = 0 then m.takeQ
  else if m.qsize = 0 ∨ m.q = none then m.takeP
  else
    match m.p, m.q with
    | some p, some q => if le p q then m.takeP else m.takeQ
    | _, _ => none

def goesOn (m : Merging) : Bool := decide (0 < m.psize) || (decide (0 < m.qsize) && m.q.isSome)

/-- The inner `while` loop. A turn takes one from `psize` or `qsize`, so there are as many at most. -/
def merge (le : Nat → Nat → Bool) : Nat → Merging → Option Merging
  | 0, m => if m.goesOn then none else some m
  | turns + 1, m => if m.goesOn then (m.turn le).bind (merge le turns) else some m

end Merging

/-- `while (p)`: head, tail and number of merges of one pass. -/
def pass (le : Nat → Nat → Bool) (insize : Nat) :
    Nat → Slist → Option Nat → Option Nat → Nat → Option (Slist × Option Nat × Nat)
  | _, head, tail, none, nmerges => some (head, tail, nmerges)
  | 0, _, _, some _, _ => none
  | fuel + 1, head, tail, some p, nmerges =>
    if nmerges = intMax then none
    else
      let r := stepAlong head.sleNext insize p
      (Merging.merge le (r.1 + insize) ⟨head, tail, some p, r.2, r.1, insize⟩).bind fun m =>
        pass le insize fuel m.head m.tail m.q (nmerges + 1)

/-- `while (1)`: passes of `insize`, twice that, and so on. -/
def passes (le : Nat → Nat → Bool) (turns : Nat) : Nat → Nat → Slist → Option Slist
  | 0, _, _ => none
  | fuel + 1, insize, head =>
    (pass le insize turns { head with slhFirst := none } none head.slhFirst 0).bind fun r =>
      r.2.1.bind fun tail =>
        let head := r.1.nullNext tail
        if r.2.2 ≤ 1 then some head
        else if intMax < insize * 2 then none
        else passes le turns fuel (insize * 2) head

/-- `_ffdb_slist_merge_sort`, for so many turns of a loop. There is no result when these are used up,
when a null pointer is followed, or when an `int` would overflow. -/
def mergeSort (le : Nat → Nat → Bool) (fuel : Nat) (head : Slist) : Option Slist :=
  if head.slhFirst = none then some head else passes le fuel fuel 1 head

open Pagepool (mergeRuns mergePass)

variable {le : Nat → Nat → Bool} {base : Nat → Option Nat} {head : Slist} {tail p q r : Option Nat} {m m' : Merging}
  {out ps qs later l : List Nat} {x y e n insize turns fuel nmerges : Nat}

/-- `out` has been merged so far; every other entry points to where it did when the pass began. -/
structure Grown (base : Nat → Option Nat) (head : Slist) (tail : Option Nat) (out : List Nat) : Prop where
  tail : tail = out.getLast?
  linked : ∃ r, Seg head.sleNext head.slhFirst out r
  frame : ∀ y, y ∉ out → head.sleNext y = base y

theorem Grown.addMerged (h : Grown base head tail out) (nodup : (out ++ [e]).Nodup) :
    Grown base (head.addMerged tail e) (some e) (out ++ [e]) := by
  obtain ⟨rfl, ⟨r, linked⟩, frame⟩ := h
  rcases List.eq_nil_or_concat out with rfl | ⟨init, last, rfl⟩
  · exact ⟨rfl, ⟨head.sleNext e, rfl, rfl⟩, fun y out => frame y List.not_mem_nil⟩
  · rw [List.concat_eq_append] at *
    obtain ⟨inits, _, apart⟩ := List.nodup_append.mp nodup
    obtain ⟨_, _, before⟩ := List.nodup_append.mp inits
    have ne : e ≠ last := (apart last (by simp) e (by simp)).symm
    obtain ⟨_, _, _, points⟩ := Seg.append_iff.mp linked
    rw [List.getLast?_append]
    refine ⟨by simp, ⟨r, linked.snoc (Function.update_self ..) ?_ fun x mem => ?_⟩, fun y other => ?_⟩
    · refine (Function.update_of_ne ne ..).trans ((Function.update_self ..).trans points)
    · have back : x ≠ last := before x mem last List.mem_cons_self
      have new : x ≠ e := apart x (List.mem_append_left _ mem) e List.mem_cons_self
      exact (Function.update_of_ne back ..).trans (Function.update_of_ne new ..)
    · rw [List.mem_append, not_or] at other
      have back : y ≠ last := fun same => other.1 (by simp [same])
      have new : y ≠ e := fun same => other.2 (by simp [same])
      exact (Function.update_of_ne back ..).trans ((Function.update_of_ne new ..).trans (frame y other.1))

/-- The `for` loop finds the first list, and where the second begins. -/
theorem stepAlong_spec (h : Seg base (some n) l none) :
    (stepAlong base insize n).1 = (l.take insize).length ∧
      Seg base (some n) (l.take insize) (stepAlong base insize n).2 ∧
      Seg base (stepAlong base insize n).2 (l.drop insize) none := by
  induction insize generalizing n l with
  | zero => exact ⟨rfl, rfl, h⟩
  | succ insize ih =>
    cases l with
    | nil => cases h
    | cons x l =>
      obtain ⟨same, rest⟩ := h
      obtain rfl := Option.some.inj same
      rw [stepAlong, List.take_succ_cons, List.drop_succ_cons]
      cases next : base n with
      | none =>
        rw [next] at rest
        obtain rfl : l = [] := List.head?_eq_none_iff.mp rest.head?_eq.symm
        exact ⟨by simp, ⟨rfl, by rw [next, List.take_nil]; rfl⟩, by rw [List.drop_nil]; rfl⟩
      | some q =>
        rw [next] at rest
        obtain ⟨count, front, back⟩ := ih rest
        exact ⟨by rw [List.length_cons, ← count], ⟨rfl, by rw [next]; exact front⟩, back⟩

/-- Between two turns: `ps` and `qs` are still to be merged, `later` comes behind them. -/
structure Poised (base : Nat → Option Nat) (m : Merging) (out ps qs later : List Nat) : Prop where
  grown : Grown base m.head m.tail out
  fromP : ∃ r, Seg base m.p ps r
  fromQ : Seg base m.q (qs ++ later) none
  psize : m.psize = ps.length
  qsize : qs.length ≤ m.qsize
  short : qs.length < m.qsize → later = []
  nodup : (out ++ ps ++ (qs ++ later)).Nodup

namespace Poised

theorem takeP (h : Poised base m out (x :: ps) qs later) :
    ∃ m', m.takeP = some m' ∧ Poised base m' (out ++ [x]) ps qs later := by
  obtain ⟨grown, ⟨r, here, rest⟩, behind, psize, qsize, short, nodup⟩ := h
  have nodup' : (out ++ [x] ++ ps ++ (qs ++ later)).Nodup := by simpa using nodup
  have front : (out ++ [x]).Nodup := (List.nodup_append.mp (List.nodup_append.mp nodup').1).1
  have out' : x ∉ out := fun mem => (List.nodup_append.mp front).2.2 x mem x List.mem_cons_self rfl
  rw [← grown.frame x out'] at rest
  refine ⟨⟨m.head.addMerged m.tail x, some x, m.head.sleNext x, m.q, m.psize - 1, m.qsize⟩,
    by rw [Merging.takeP, here]; rfl, ?_⟩
  exact {
    grown := grown.addMerged front
    fromP := ⟨r, rest⟩
    fromQ := behind
    psize := by rw [psize]; rfl
    qsize := qsize
    short := short
    nodup := nodup' }

theorem takeQ (h : Poised base m out ps (y :: qs) later) :
    ∃ m', m.takeQ = some m' ∧ Poised base m' (out ++ [y]) ps qs later := by
  obtain ⟨grown, front, ⟨here, rest⟩, psize, qsize, short, nodup⟩ := h
  have moved : (out ++ [y] ++ ps ++ (qs ++ later)).Perm (out ++ ps ++ (y :: qs ++ later)) := by
    simp only [List.append_assoc, List.cons_append, List.nil_append]
    exact List.perm_middle.symm.append_left out
  have nodup' := moved.nodup_iff.mpr nodup
  have merged : (out ++ [y]).Nodup := (List.nodup_append.mp (List.nodup_append.mp nodup').1).1
  have out' : y ∉ out := fun mem => (List.nodup_append.mp merged).2.2 y mem y List.mem_cons_self rfl
  rw [List.length_cons] at qsize short
  rw [← grown.frame y out'] at rest
  refine ⟨⟨m.head.addMerged m.tail y, some y, m.p, m.head.sleNext y, m.psize, m.qsize - 1⟩,
    by rw [Merging.takeQ, here]; rfl, ?_⟩
  exact {
    grown := grown.addMerged merged
    fromP := front
    fromQ := rest
    psize := psize
    qsize := Nat.le_sub_of_add_le qsize
    short := fun less => short (Nat.add_lt_of_lt_sub less)
    nodup := nodup' }

theorem goesOn_iff (h : Poised base m out ps qs later) : m.goesOn = true ↔ ps ≠ [] ∨ qs ≠ [] := by
  have behind := h.fromQ.head?_eq
  rw [Merging.goesOn, Bool.or_eq_true, Bool.and_eq_true, decide_eq_true_eq, decide_eq_true_eq, h.psize,
    List.length_pos_iff]
  refine or_congr_right ?_
  cases qs with
  | nil =>
    refine iff_of_false (fun ⟨pos, more⟩ => ?_) (fun ne => ne rfl)
    rw [h.short pos, List.append_nil] at behind
    rw [behind] at more
    cases more
  | cons y qs =>
    refine iff_of_true ⟨(Nat.succ_pos _).trans_le h.qsize, ?_⟩ (List.cons_ne_nil _ _)
    rw [behind]
    rfl

theorem turn (h : Poised base m out ps qs later) (more : ps ≠ [] ∨ qs ≠ []) :
    ∃ e ps' qs' m', m.turn le = some m' ∧ Poised base m' (out ++ [e]) ps' qs' later ∧
      mergeRuns le ps qs = e :: mergeRuns le ps' qs' ∧
      ps'.length + qs'.length + 1 = ps.length + qs.length := by
  cases ps with
  | nil =>
    cases qs with
    | nil => simp at more
    | cons y qs =>
      obtain ⟨m', take, next⟩ := h.takeQ
      have none : m.psize = 0 := h.psize
      exact ⟨y, [], qs, m', by rw [Merging.turn, if_pos none, take], next, by simp [mergeRuns], rfl⟩
  | cons x ps =>
    obtain ⟨m', takeP, next⟩ := h.takeP
    have some_p : ¬m.psize = 0 := by rw [h.psize]; exact Nat.succ_ne_zero _
    obtain ⟨_, p, _⟩ := h.fromP
    rw [Merging.turn, if_neg some_p]
    cases qs with
    | nil =>
      have done : m.qsize = 0 ∨ m.q = none := by
        rcases Nat.eq_zero_or_pos m.qsize with zero | pos
        · exact .inl zero
        · right
          rw [h.fromQ.head?_eq, h.short pos]
          rfl
      refine ⟨x, ps, [], m', by rw [if_pos done, takeP], next, ?_, rfl⟩
      cases ps <;> simp [mergeRuns]
    | cons y qs =>
      obtain ⟨m'', takeQ, next'⟩ := h.takeQ
      obtain ⟨q, _⟩ := h.fromQ
      have some_q : ¬(m.qsize = 0 ∨ m.q = none) := by
        rw [q, not_or]
        exact ⟨(Nat.succ_pos _ |>.trans_le h.qsize).ne', by simp⟩
      rw [if_neg some_q, p, q]
      dsimp only
      by_cases first : le x y = true
      · refine ⟨x, ps, y :: qs, m', by rw [if_pos first, takeP], next, by rw [mergeRuns, if_pos first], ?_⟩
        simp only [List.length_cons]
        omega
      · refine ⟨y, x :: ps, qs, m'', by rw [if_neg first, takeQ], next', by rw [mergeRuns, if_neg first], ?_⟩
        simp only [List.length_cons]
        omega

/-- The inner loop merges the two lists behind what there is, and leaves `q` behind them. -/
theorem merge (h : Poised base m out ps qs later) (enough : ps.length + qs.length ≤ turns) :
    ∃ m', m.merge le turns = some m' ∧ Poised base m' (out ++ mergeRuns le ps qs) [] [] later := by
  induction turns generalizing m out ps qs with
  | zero =>
    obtain rfl : ps = [] := List.eq_nil_of_length_eq_zero (by omega)
    obtain rfl : qs = [] := List.eq_nil_of_length_eq_zero (by omega)
    have done : ¬m.goesOn = true := fun more => by simpa using h.goesOn_iff.mp more
    exact ⟨m, by rw [Merging.merge, if_neg done], by simpa [mergeRuns] using h⟩
  | succ turns ih =>
    by_cases more : m.goesOn = true
    · obtain ⟨e, ps', qs', m', turn, next, begins, fewer⟩ := @Poised.turn le _ _ _ _ _ _ h (h.goesOn_iff.mp more)
      obtain ⟨m'', rest, last⟩ := ih next (by omega)
      rw [List.append_assoc, List.singleton_append, ← begins] at last
      exact ⟨m'', by rw [Merging.merge, if_pos more, turn]; exact rest, last⟩
    · have none := mt h.goesOn_iff.mpr more
      rw [not_or, not_not, not_not] at none
      obtain ⟨rfl, rfl⟩ := none
      exact ⟨m, by rw [Merging.merge, if_neg more], by simpa [mergeRuns] using h⟩

end Poised

theorem mergePass_cons : mergePass le insize (n + 1) (x :: l) =
    (mergeRuns le ((x :: l).take insize) (((x :: l).drop insize).take insize) ++
      (mergePass le insize n (((x :: l).drop insize).drop insize)).1,
      (mergePass le insize n (((x :: l).drop insize).drop insize)).2 + 1) := rfl

/-- One pass merges neighbouring lists of `insize`, for as long as the number of merges is an `int`. -/
theorem pass_spec (grown : Grown base head tail out) (rest : Seg base p l none) (nodup : (out ++ l).Nodup)
    (pos : 0 < insize) (whole : l.length ≤ n) :
    ∃ head' tail', Grown base head' tail' (out ++ (mergePass le insize n l).1) ∧ ∀ fuel nmerges, nmerges ≤ intMax →
      pass le insize fuel head tail p nmerges =
        if (mergePass le insize n l).2 ≤ fuel ∧ nmerges + (mergePass le insize n l).2 ≤ intMax then
          some (head', tail', nmerges + (mergePass le insize n l).2) else none := by
  induction n generalizing head tail p out l with
  | zero =>
    obtain rfl : l = [] := List.eq_nil_of_length_eq_zero (Nat.le_zero.mp whole)
    obtain rfl := rest
    exact ⟨head, tail, by simpa [mergePass] using grown, fun fuel nmerges int => by simp [mergePass, pass, int]⟩
  | succ n ih =>
    cases l with
    | nil =>
      obtain rfl := rest
      exact ⟨head, tail, by simpa [mergePass] using grown, fun fuel nmerges int => by simp [mergePass, pass, int]⟩
    | cons x l =>
      obtain rfl := rest.1
      have same : ∀ y ∈ x :: l, head.sleNext y = base y :=
        fun y mem => grown.frame y fun out => (List.nodup_append.mp nodup).2.2 y out y mem rfl
      obtain ⟨count, front, back⟩ := @stepAlong_spec _ _ _ insize (rest.congr same)
      have poised : Poised base ⟨head, tail, some x, (stepAlong head.sleNext insize x).2,
          (stepAlong head.sleNext insize x).1, insize⟩ out ((x :: l).take insize)
          (((x :: l).drop insize).take insize) (((x :: l).drop insize).drop insize) := {
        grown := grown
        fromP := ⟨_, front.congr fun y mem => (same y (List.mem_of_mem_take mem)).symm⟩
        fromQ := by
          rw [List.take_append_drop]
          exact back.congr fun y mem => (same y (List.mem_of_mem_drop mem)).symm
        psize := count
        qsize := List.length_take_le ..
        short := fun less => by
          have short : min insize ((x :: l).drop insize).length < insize := List.length_take ▸ less
          exact List.drop_eq_nil_of_le (by omega)
        nodup := by rwa [List.take_append_drop, List.append_assoc, List.take_append_drop] }
      obtain ⟨m', run, done⟩ := @Poised.merge le _ _ _ _ _ _ ((stepAlong head.sleNext insize x).1 + insize) poised
        (by rw [count]; exact Nat.add_le_add_left (List.length_take_le ..) _)
      have later := done.nodup
      rw [List.append_nil] at later
      have shorter : (((x :: l).drop insize).drop insize).length ≤ n := by
        simp only [List.length_drop, List.length_cons] at whole ⊢
        omega
      obtain ⟨head', tail', grown', go⟩ := ih (l := ((x :: l).drop insize).drop insize) done.grown done.fromQ later shorter
      rw [List.append_assoc] at grown'
      refine ⟨head', tail', grown', fun fuel nmerges int => ?_⟩
      rw [mergePass_cons]
      cases fuel with
      | zero => rw [pass, if_neg (by omega)]
      | succ fuel =>
        rw [pass]
        by_cases most : nmerges = intMax
        · rw [if_pos most, if_neg (by omega)]
        · rw [if_neg most]
          dsimp only
          rw [run, Option.bind_some, go fuel (nmerges + 1) (by omega), Nat.add_right_comm, Nat.add_assoc nmerges]
          simp only [Nat.add_le_add_iff_right]

theorem merges_le (pos : 0 < insize) (whole : l.length ≤ n) :
    2 * (mergePass le insize n l).2 ≤ l.length + 1 := by
  induction n generalizing l with
  | zero => exact Nat.zero_le _
  | succ n ih =>
    cases l with
    | nil => exact Nat.zero_le _
    | cons x l =>
      have rest := ih (l := ((x :: l).drop insize).drop insize) (by
        simp only [List.length_drop, List.length_cons] at whole ⊢
        omega)
      rw [mergePass_cons]
      simp only [List.length_drop, List.length_cons] at rest ⊢
      omega

theorem merges_le_one (pos : 0 < insize) (whole : l.length ≤ n) :
    (mergePass le insize n l).2 ≤ 1 ↔ l.length ≤ insize * 2 := by
  cases n with
  | zero => exact iff_of_true (Nat.zero_le _) (whole.trans (Nat.zero_le _))
  | succ n =>
    cases l with
    | nil => exact iff_of_true (Nat.zero_le _) (Nat.zero_le _)
    | cons x l =>
      have length : (((x :: l).drop insize).drop insize).length = (x :: l).length - insize - insize := by
        rw [List.length_drop, List.length_drop]
      rw [mergePass_cons]
      constructor
      · intro one
        by_contra long
        -- a list that is left has a merge of its own
        obtain ⟨y, rest, more⟩ : ∃ y rest, ((x :: l).drop insize).drop insize = y :: rest :=
          List.exists_cons_of_length_pos (by omega)
        cases n with
        | zero =>
          simp only [List.length_cons] at whole long
          omega
        | succ n =>
          rw [more, mergePass_cons] at one
          omega
      · intro short
        have done : ((x :: l).drop insize).drop insize = [] := List.eq_nil_of_length_eq_zero (by omega)
        rw [done]
        cases n <;> exact le_rfl

/-- The entries are `l`, and the last one points nowhere. -/
def Holds (head : Slist) (l : List Nat) : Prop := Seg head.sleNext head.slhFirst l none

theorem passes_turn (h : head.Holds l) (some_left : l ≠ []) (pos : 0 < insize) :
    ∃ head', head'.Holds (mergePass le insize l.length l).1 ∧ (∀ y, y ∉ l → head'.sleNext y = head.sleNext y) ∧
      ∀ turns fuel, passes le turns (fuel + 1) insize head =
        if (mergePass le insize l.length l).2 ≤ turns ∧ (mergePass le insize l.length l).2 ≤ intMax then
          if l.length ≤ insize * 2 then some head'
          else if intMax < insize * 2 then none
          else passes le turns fuel (insize * 2) head'
        else none := by
  have grown : Grown head.sleNext { head with slhFirst := none } none [] :=
    ⟨rfl, ⟨none, rfl⟩, fun y out => rfl⟩
  obtain ⟨head₁, tail₁, ⟨last, ⟨r, linked⟩, frame⟩, go⟩ :=
    @pass_spec le _ _ _ _ _ _ _ _ grown (show Seg head.sleNext head.slhFirst l none from h) h.nodup pos le_rfl
  rw [List.nil_append] at last linked frame
  have perm := @Pagepool.mergePass_perm le _ pos l.length l le_rfl
  obtain ⟨init, e, eq⟩ := (List.eq_nil_or_concat (mergePass le insize l.length l).1).resolve_left
    fun none => some_left (List.nil_perm.mp (none ▸ perm))
  have nodup := perm.nodup_iff.mpr h.nodup
  rw [List.concat_eq_append] at eq
  rw [eq] at nodup linked last frame ⊢
  have mem : ∀ y, y ∈ init ++ [e] ↔ y ∈ l := fun y => eq ▸ perm.mem_iff
  obtain rfl : tail₁ = some e := last.trans (by simp)
  obtain ⟨q, front, here, _⟩ := Seg.append_iff.mp linked
  refine ⟨head₁.nullNext e, ?_, fun y other => ?_, fun turns fuel => ?_⟩
  · refine Seg.append_iff.mpr ⟨q, front.congr fun x memx => ?_, here, Function.update_self ..⟩
    exact Function.update_of_ne ((List.nodup_append.mp nodup).2.2 x memx e List.mem_cons_self) ..
  · have out : y ∉ init ++ [e] := mt (mem y).mp other
    have ne : y ≠ e := fun same => out (by simp [same])
    exact (Function.update_of_ne ne ..).trans (frame y out)
  · rw [passes, go turns 0 (Nat.zero_le _), Nat.zero_add]
    split
    · rw [Option.bind_some]
      dsimp only
      rw [Option.bind_some]
      simp only [merges_le_one pos le_rfl]
    · rfl

/-- Up to `2 ^ 31` entries the passes come to an end, with what the merges of lists leave. -/
theorem passes_returns (h : head.Holds l) (some_left : l ≠ []) (pos : 0 < insize) (few : l.length ≤ 0x80000000)
    (enough : l.length ≤ insize * 2 * 2 ^ fuel) (room : l.length ≤ turns) :
    ∃ head', passes le turns (fuel + 1) insize head = some head' ∧
      head'.Holds (Pagepool.mergeLoop le (fuel + 1) insize l) ∧ ∀ y, y ∉ l → head'.sleNext y = head.sleNext y := by
  induction fuel generalizing head l insize with
  | zero =>
    obtain ⟨head', holds, frame, eq⟩ := @passes_turn le _ _ _ h some_left pos
    have merges := @merges_le le _ _ _ pos (le_refl l.length)
    rw [pow_zero, Nat.mul_one] at enough
    refine ⟨head', ?_, ?_, frame⟩
    · have least := List.length_pos_iff.mpr some_left
      rw [eq, if_pos ⟨by omega, by simp only [intMax]; omega⟩, if_pos enough]
    · rw [Pagepool.mergeLoop, if_pos ((merges_le_one pos le_rfl).mpr enough)]
      exact holds
  | succ fuel ih =>
    obtain ⟨head', holds, frame, eq⟩ := @passes_turn le _ _ _ h some_left pos
    have merges := @merges_le le _ _ _ pos (le_refl l.length)
    have perm := @Pagepool.mergePass_perm le _ pos l.length l le_rfl
    have least := List.length_pos_iff.mpr some_left
    rw [eq, if_pos ⟨by omega, by simp only [intMax]; omega⟩, Pagepool.mergeLoop]
    by_cases one : l.length ≤ insize * 2
    · rw [if_pos one, if_pos ((merges_le_one pos le_rfl).mpr one)]
      exact ⟨head', rfl, holds, frame⟩
    · have int : ¬intMax < insize * 2 := by
        simp only [intMax]
        omega
      rw [if_neg one, if_neg int, if_neg (mt (merges_le_one pos le_rfl).mp one)]
      have some' : (mergePass le insize l.length l).1 ≠ [] := fun none => some_left (List.nil_perm.mp (none ▸ perm))
      rw [pow_succ', ← Nat.mul_assoc] at enough
      obtain ⟨head'', run, holds', frame'⟩ := @ih _ _ (insize * 2) holds some' (by omega) (by rwa [perm.length_eq])
        (by rwa [perm.length_eq]) (by rwa [perm.length_eq])
      exact ⟨head'', run, holds', fun y out => (frame' y (mt perm.mem_iff.mp out)).trans (frame y out)⟩

/-- With more entries `insize` overflows before the list is one run. -/
theorem passes_never (h : head.Holds l) (long : 0x80000000 < l.length) {j : Nat} (small : j ≤ 30) :
    passes le turns fuel (2 ^ j) head = none := by
  induction fuel generalizing head l j with
  | zero => rfl
  | succ fuel ih =>
    have some_left : l ≠ [] := by
      rintro rfl
      simp at long
    have power : 2 ^ j ≤ 2 ^ 30 := Nat.pow_le_pow_right (by decide) small
    obtain ⟨head', holds, _, eq⟩ := @passes_turn le _ _ _ h some_left (Nat.two_pow_pos j)
    have perm := @Pagepool.mergePass_perm le _ (Nat.two_pow_pos j) l.length l le_rfl
    rw [eq]
    split
    · rw [if_neg (by omega)]
      split
      · rfl
      · rename_i int
        have less : j < 30 := by
          refine lt_of_le_of_ne small ?_
          rintro rfl
          exact int (by decide)
        rw [← pow_succ]
        exact ih holds (by rwa [perm.length_eq]) less
    · rfl

theorem pass_mono {more : Nat} {r : Slist × Option Nat × Nat} (le_more : fuel ≤ more)
    (h : pass le insize fuel head tail p nmerges = some r) : pass le insize more head tail p nmerges = some r := by
  induction fuel generalizing head tail p nmerges more with
  | zero =>
    cases p with
    | none => cases more <;> exact h
    | some p => cases h
  | succ fuel ih =>
    cases p with
    | none => cases more <;> exact h
    | some p =>
      obtain ⟨more, rfl⟩ : ∃ k, more = k + 1 := Nat.exists_eq_succ_of_ne_zero (by omega)
      rw [pass] at h ⊢
      split at h
      · cases h
      · rename_i int
        rw [if_neg int]
        obtain ⟨m, run, rest⟩ := Option.bind_eq_some_iff.mp h
        exact Option.bind_eq_some_iff.mpr ⟨m, run, ih (by omega) rest⟩

theorem passes_mono {turns' more : Nat} {head' : Slist} (le_turns : turns ≤ turns') (le_more : fuel ≤ more)
    (h : passes le turns fuel insize head = some head') : passes le turns' more insize head = some head' := by
  induction fuel generalizing head insize more with
  | zero => cases h
  | succ fuel ih =>
    obtain ⟨more, rfl⟩ : ∃ k, more = k + 1 := Nat.exists_eq_succ_of_ne_zero (by omega)
    rw [passes] at h ⊢
    obtain ⟨r, run, h⟩ := Option.bind_eq_some_iff.mp h
    refine Option.bind_eq_some_iff.mpr ⟨r, pass_mono le_turns run, ?_⟩
    obtain ⟨tail, last, h⟩ := Option.bind_eq_some_iff.mp h
    refine Option.bind_eq_some_iff.mpr ⟨tail, last, ?_⟩
    dsimp only at h ⊢
    split at h
    · rename_i one
      rwa [if_pos one]
    · rename_i one
      split at h
      · cases h
      · rename_i int
        rw [if_neg one, if_neg int]
        exact ih (by omega) h

theorem mergeSort_unique {fuel' : Nat} {a b : Slist} (h : mergeSort le fuel head = some a)
    (h' : mergeSort le fuel' head = some b) : a = b := by
  unfold mergeSort at h h'
  split at h
  · rename_i none
    rw [if_pos none] at h'
    exact Option.some.inj (h.symm.trans h')
  · rename_i some_left
    rw [if_neg some_left] at h'
    have one := passes_mono (le_max_left fuel fuel') (le_max_left fuel fuel') h
    have other := passes_mono (le_max_right fuel fuel') (le_max_right fuel fuel') h'
    exact Option.some.inj (one.symm.trans other)

theorem mergeSort_returns (h : head.Holds l) (few : l.length ≤ 0x80000000) :
    ∃ fuel head', mergeSort le fuel head = some head' ∧ head'.Holds (Pagepool.slistMergeSort le l) ∧
      ∀ y, y ∉ l → head'.sleNext y = head.sleNext y := by
  unfold Pagepool.slistMergeSort
  cases l with
  | nil => exact ⟨0, head, if_pos h, h, fun y out => rfl⟩
  | cons x l =>
    have some_left : ¬head.slhFirst = none := by
      rw [h.1]
      exact Option.some_ne_none x
    have long : (x :: l).length ≤ 1 * 2 * 2 ^ l.length := by
      rw [List.length_cons, Nat.one_mul, ← pow_succ']
      exact Nat.lt_two_pow_self.le
    obtain ⟨head', run, holds, frame⟩ := @passes_returns le _ _ _ _ _ h
      (List.cons_ne_nil x l) Nat.one_pos few long le_rfl
    exact ⟨(x :: l).length, head', by rw [mergeSort, if_neg some_left]; exact run, holds, frame⟩

theorem mergeSort_never (h : head.Holds l) (long : 0x80000000 < l.length) : mergeSort le fuel head = none := by
  have some_left : ¬head.slhFirst = none := by
    intro none
    have nil : l.head? = Option.none := h.head?_eq.symm.trans none
    rw [List.head?_eq_none_iff.mp nil] at long
    simp at long
  rw [mergeSort, if_neg some_left]
  exact passes_never (j := 0) h long (Nat.zero_le _)

end Slist
end FileHash
