import FileHash.SlistSort
import FileHash.PoolEvolve
import FileHash.Lib.Chunks

/-! In which order the pages of a flush come out of the merge sort. `_ffdb_sbkt_cmp` takes the signed
difference of two page numbers, which is right for numbers that are not too far apart only. -/
namespace FileHash.Pagepool

open Lib (portion portion_succ portion_beyond portion_whole portion_double)

def Ordered (num : Nat → Nat) (l : List Nat) : Prop := l.Pairwise fun a b => num a ≤ num b

/-- From an entry of one list to the entry of the other that has the next page number, the difference
is one that `_ffdb_sbkt_cmp` gets right. -/
structure Close (num : Nat → Nat) (ps qs : List Nat) : Prop where
  up : ∀ p ∈ ps, ∀ q ∈ qs, num p ≤ num q → (∀ q' ∈ qs, num p ≤ num q' → num q ≤ num q') →
    num q - num p ≤ 0x80000000
  down : ∀ q ∈ qs, ∀ p ∈ ps, num q < num p → (∀ p' ∈ ps, num q < num p' → num p ≤ num p') →
    num p - num q < 0x80000000

def CloseBlocks (num : Nat → Nat) (l : List Nat) : Prop :=
  ∀ j i, Close num (portion (2 ^ j) (2 * i) l) (portion (2 ^ j) (2 * i + 1) l)

def byNumber (num : Nat → Nat) (a b : Nat) : Bool := sbktLe (num a) (num b)

variable {num : Nat → Nat} {le : Nat → Nat → Bool} {p q m n i fuel : Nat} {l cur ps qs ps' qs' : List Nat}

theorem sbktLe_iff {a b : Nat} (worda : a < 0x100000000) (wordb : b < 0x100000000) :
    sbktLe a b = true ↔ (a ≤ b ∧ b - a ≤ 0x80000000) ∨ (b < a ∧ 0x80000000 ≤ a - b) := by
  simp only [sbktLe, Bool.or_eq_true, beq_iff_eq, decide_eq_true_eq]
  omega

theorem Close.congr (h : Close num ps qs) (same : ∀ x, x ∈ ps' ↔ x ∈ ps) (same' : ∀ x, x ∈ qs' ↔ x ∈ qs) :
    Close num ps' qs' where
  up p mem q mem' less least := h.up p ((same p).mp mem) q ((same' q).mp mem') less
    fun q' memq => least q' ((same' q').mpr memq)
  down q mem' p mem less least := h.down q ((same' q).mp mem') p ((same p).mp mem) less
    fun p' memp => least p' ((same p').mpr memp)

theorem close_nil_left : Close num [] qs :=
  ⟨fun _ mem => absurd mem List.not_mem_nil, fun _ _ _ mem => absurd mem List.not_mem_nil⟩

theorem close_nil_right : Close num ps [] :=
  ⟨fun _ _ _ mem => absurd mem List.not_mem_nil, fun _ mem => absurd mem List.not_mem_nil⟩

theorem mergeRuns_nil_right : mergeRuns le ps [] = ps := by
  cases ps <;> simp [mergeRuns]

theorem sublist_mergeRuns_left : List.Sublist ps (mergeRuns le ps qs) := by
  induction ps, qs using mergeRuns.induct le with
  | case1 qs => exact List.nil_sublist _
  | case2 ps _ => rw [mergeRuns_nil_right]
  | case3 p ps q qs takes ih =>
    rw [mergeRuns, if_pos takes]
    exact ih.cons_cons p
  | case4 p ps q qs takes ih =>
    rw [mergeRuns, if_neg takes]
    exact ih.cons q

theorem sublist_mergeRuns_right : List.Sublist qs (mergeRuns le ps qs) := by
  induction ps, qs using mergeRuns.induct le with
  | case1 qs => rw [mergeRuns]
  | case2 ps _ => exact List.nil_sublist _
  | case3 p ps q qs takes ih =>
    rw [mergeRuns, if_pos takes]
    exact ih.cons p
  | case4 p ps q qs takes ih =>
    rw [mergeRuns, if_neg takes]
    exact ih.cons_cons q

section Merge

variable (word : ∀ e, num e < 0x100000000)
include word

theorem close_takes_left (orderp : Ordered num (p :: ps)) (orderq : Ordered num (q :: qs))
    (takes : byNumber num p q = true) :
    Close num (p :: ps) (q :: qs) ↔ num p ≤ num q ∧ Close num ps (q :: qs) := by
  have cmp := (sbktLe_iff (word p) (word q)).mp takes
  have behind := (List.pairwise_cons.mp orderp).1
  have leastq : ∀ q' ∈ q :: qs, num q ≤ num q' := by
    intro q' mem
    rcases List.mem_cons.mp mem with rfl | later
    · exact le_rfl
    · exact (List.pairwise_cons.mp orderq).1 q' later
  constructor
  · intro h
    have right : num p ≤ num q := by
      by_contra wrong
      have near := h.down q List.mem_cons_self p List.mem_cons_self (not_le.mp wrong) fun p' mem _ => by
        rcases List.mem_cons.mp mem with rfl | later
        · exact le_rfl
        · exact behind p' later
      omega
    refine ⟨right, fun p' mem => h.up p' (List.mem_cons_of_mem _ mem), fun q' memq p' mem less least => ?_⟩
    refine h.down q' memq p' (List.mem_cons_of_mem _ mem) less fun p'' mem' more => ?_
    rcases List.mem_cons.mp mem' with rfl | later
    · have := leastq q' memq
      omega
    · exact least p'' later more
  · rintro ⟨right, h⟩
    refine ⟨fun p' mem q' memq less least => ?_, fun q' memq p' mem less least => ?_⟩
    · rcases List.mem_cons.mp mem with rfl | later
      · have := least q List.mem_cons_self right
        omega
      · exact h.up p' later q' memq less least
    · rcases List.mem_cons.mp mem with rfl | later
      · have := leastq q' memq
        omega
      · exact h.down q' memq p' later less fun p'' mem' => least p'' (List.mem_cons_of_mem _ mem')

theorem close_takes_right (orderp : Ordered num (p :: ps)) (orderq : Ordered num (q :: qs))
    (takes : ¬byNumber num p q = true) :
    Close num (p :: ps) (q :: qs) ↔ num q ≤ num p ∧ Close num (p :: ps) qs := by
  have cmp := mt (sbktLe_iff (word p) (word q)).mpr takes
  have behind := (List.pairwise_cons.mp orderq).1
  have leastp : ∀ p' ∈ p :: ps, num p ≤ num p' := by
    intro p' mem
    rcases List.mem_cons.mp mem with rfl | later
    · exact le_rfl
    · exact (List.pairwise_cons.mp orderp).1 p' later
  constructor
  · intro h
    have right : num q < num p := by
      by_contra wrong
      have near := h.up p List.mem_cons_self q List.mem_cons_self (not_lt.mp wrong) fun q' mem _ => by
        rcases List.mem_cons.mp mem with rfl | later
        · exact le_rfl
        · exact behind q' later
      omega
    refine ⟨right.le, fun p' mem q' memq less least => ?_, fun q' memq => h.down q' (List.mem_cons_of_mem _ memq)⟩
    refine h.up p' mem q' (List.mem_cons_of_mem _ memq) less fun q'' mem' more => ?_
    rcases List.mem_cons.mp mem' with rfl | later
    · have := leastp p' mem
      omega
    · exact least q'' later more
  · rintro ⟨right, h⟩
    refine ⟨fun p' mem q' memq less least => ?_, fun q' memq p' mem less least => ?_⟩
    · rcases List.mem_cons.mp memq with rfl | later
      · have := leastp p' mem
        omega
      · exact h.up p' mem q' later less fun q'' mem' => least q'' (List.mem_cons_of_mem _ mem')
    · rcases List.mem_cons.mp memq with rfl | later
      · have := least p List.mem_cons_self (by omega)
        omega
      · exact h.down q' later p' mem less least

theorem ordered_merge_iff (orderp : Ordered num ps) (orderq : Ordered num qs) :
    Ordered num (mergeRuns (byNumber num) ps qs) ↔ Close num ps qs := by
  induction ps, qs using mergeRuns.induct (byNumber num) with
  | case1 qs =>
    rw [mergeRuns]
    exact iff_of_true orderq close_nil_left
  | case2 ps _ =>
    rw [mergeRuns_nil_right]
    exact iff_of_true orderp close_nil_right
  | case3 p ps q qs takes ih =>
    have behind := List.pairwise_cons.mp orderp
    rw [mergeRuns, if_pos takes, close_takes_left word orderp orderq takes, ← ih behind.2 orderq, Ordered,
      List.pairwise_cons]
    refine and_congr_left fun _ => ⟨fun least => ?_, fun less x mem => ?_⟩
    · exact least q ((mergeRuns_perm _ _).mem_iff.mpr (by simp))
    · rcases List.mem_append.mp ((mergeRuns_perm _ _).mem_iff.mp mem) with first | second
      · exact behind.1 x first
      · rcases List.mem_cons.mp second with rfl | later
        · exact less
        · exact less.trans ((List.pairwise_cons.mp orderq).1 x later)
  | case4 p ps q qs takes ih =>
    have behind := List.pairwise_cons.mp orderq
    rw [mergeRuns, if_neg takes, close_takes_right word orderp orderq takes, ← ih orderp behind.2, Ordered,
      List.pairwise_cons]
    refine and_congr_left fun _ => ⟨fun least => ?_, fun less x mem => ?_⟩
    · exact least p ((mergeRuns_perm _ _).mem_iff.mpr (by simp))
    · rcases List.mem_append.mp ((mergeRuns_perm _ _).mem_iff.mp mem) with first | second
      · rcases List.mem_cons.mp first with rfl | later
        · exact less
        · exact less.trans ((List.pairwise_cons.mp orderp).1 x later)
      · exact behind.1 x second

theorem ordered_mergeRuns : Ordered num (mergeRuns (byNumber num) ps qs) ↔
    Ordered num ps ∧ Ordered num qs ∧ Close num ps qs := by
  constructor
  · intro h
    have orderp : Ordered num ps := h.sublist sublist_mergeRuns_left
    have orderq : Ordered num qs := h.sublist sublist_mergeRuns_right
    exact ⟨orderp, orderq, (ordered_merge_iff word orderp orderq).mp h⟩
  · rintro ⟨orderp, orderq, close⟩
    exact (ordered_merge_iff word orderp orderq).mpr close

end Merge

theorem portion_mergePass (pos : 0 < m) (whole : l.length ≤ n) :
    portion (m * 2) i (mergePass le m n l).1 = mergeRuns le (portion m (2 * i) l) (portion m (2 * i + 1) l) := by
  induction n generalizing l i with
  | zero =>
    obtain rfl : l = [] := List.eq_nil_of_length_eq_zero (Nat.le_zero.mp whole)
    simp [mergePass, portion, mergeRuns]
  | succ n ih =>
    cases l with
    | nil => simp [mergePass, portion, mergeRuns]
    | cons x l =>
      obtain ⟨first, eq⟩ : ∃ first, mergeRuns le ((x :: l).take m) (((x :: l).drop m).take m) = first := ⟨_, rfl⟩
      have length : first.length = min m (x :: l).length + min m ((x :: l).length - m) := by
        rw [← eq, (mergeRuns_perm _ _).length_eq, List.length_append, List.length_take, List.length_take,
          List.length_drop]
      have shorter : (((x :: l).drop m).drop m).length ≤ n := by
        simp only [List.length_drop, List.length_cons] at whole ⊢
        omega
      have rest := (@mergePass_perm le _ pos n _ shorter).length_eq
      rw [List.length_drop, List.length_drop] at rest
      rw [Slist.mergePass_cons, eq]
      dsimp only
      -- the merge fills its portion, or nothing is behind it
      have split : first.length = m * 2 ∨
          (first.length ≤ m * 2 ∧ (mergePass le m n (((x :: l).drop m).drop m)).1 = []) := by
        rcases Nat.lt_or_ge (x :: l).length (m * 2) with short | long
        · exact .inr ⟨by omega, List.eq_nil_of_length_eq_zero (by omega)⟩
        · exact .inl (by omega)
      cases i with
      | zero =>
        have here : portion (m * 2) 0 (first ++ (mergePass le m n (((x :: l).drop m).drop m)).1) = first := by
          rw [portion, Nat.zero_mul, List.drop_zero]
          rcases split with full | ⟨part, none⟩
          · exact List.take_left' full
          · rw [none, List.append_nil, List.take_of_length_le part]
        rw [here, ← eq, portion, portion, Nat.mul_zero, Nat.zero_mul, List.drop_zero, Nat.zero_add, Nat.one_mul]
      | succ i =>
        have behind : (first ++ (mergePass le m n (((x :: l).drop m).drop m)).1).drop (m * 2) =
            (mergePass le m n (((x :: l).drop m).drop m)).1 := by
          rcases split with full | ⟨part, none⟩
          · exact List.drop_left' full
          · rw [none, List.append_nil, List.drop_eq_nil_of_le part]
        have later : ∀ k, portion m (k + 2) (x :: l) = portion m k (((x :: l).drop m).drop m) :=
          fun k => portion_succ.trans portion_succ
        rw [portion_succ, behind, ih shorter, Nat.mul_succ, later, Nat.add_right_comm, later]

theorem ordered_pass (word : ∀ e, num e < 0x100000000) (pos : 0 < m)
    (perm : ∀ i, (portion m i cur).Perm (portion m i l)) :
    (∀ i, Ordered num (portion (m * 2) i (mergePass (byNumber num) m cur.length cur).1)) ↔
      (∀ i, Ordered num (portion m i cur)) ∧ ∀ i, Close num (portion m (2 * i) l) (portion m (2 * i + 1) l) := by
  simp only [portion_mergePass pos le_rfl, ordered_mergeRuns word]
  constructor
  · intro h
    refine ⟨fun i => ?_, fun i => (h i).2.2.congr (fun x => (perm _).symm.mem_iff) fun x => (perm _).symm.mem_iff⟩
    rcases Nat.even_or_odd' i with ⟨k, rfl | rfl⟩
    · exact (h k).1
    · exact (h k).2.1
  · rintro ⟨order, close⟩ i
    exact ⟨order _, order _, (close i).congr (fun x => (perm _).mem_iff) fun x => (perm _).mem_iff⟩

theorem perm_pass (pos : 0 < m) (perm : ∀ i, (portion m i cur).Perm (portion m i l)) (i : Nat) :
    (portion (m * 2) i (mergePass le m cur.length cur).1).Perm (portion (m * 2) i l) := by
  rw [portion_mergePass pos le_rfl, portion_double]
  exact (mergeRuns_perm _ _).trans ((perm _).append (perm _))

theorem forall_portion (fits : l.length ≤ m) : (∀ i, Ordered num (portion m i l)) ↔ Ordered num l := by
  constructor
  · exact fun h => portion_whole fits ▸ h 0
  · intro h i
    exact h.sublist ((List.take_sublist _ _).trans (List.drop_sublist _ _))

theorem ordered_last (word : ∀ e, num e < 0x100000000) (pos : 0 < m)
    (perm : ∀ i, (portion m i cur).Perm (portion m i l)) (length : cur.length = l.length) (short : l.length ≤ m * 2) :
    Ordered num (mergeLoop (byNumber num) (fuel + 1) m cur) ↔ (∀ i, Ordered num (portion m i cur)) ∧
      ∀ j i, Close num (portion (m * 2 ^ j) (2 * i) l) (portion (m * 2 ^ j) (2 * i + 1) l) := by
  have all := (@mergePass_perm (byNumber num) _ pos cur.length cur le_rfl).length_eq
  rw [mergeLoop, if_pos ((Slist.merges_le_one pos le_rfl).mpr (by rwa [length])),
    ← forall_portion (m := m * 2) (by rw [all, length]; exact short), ordered_pass word pos perm]
  refine and_congr_right fun _ => ⟨fun here j i => ?_, fun h i => by simpa using h 0 i⟩
  cases j with
  | zero => simpa using here i
  | succ j =>
    -- the second portion would begin behind the end
    have past : l.length ≤ (2 * i + 1) * (m * 2 ^ (j + 1)) := by
      have power : m * 2 ≤ m * 2 ^ (j + 1) := Nat.mul_le_mul_left m (by rw [pow_succ]; have := Nat.two_pow_pos j; omega)
      exact short.trans (power.trans (Nat.le_mul_of_pos_left _ (Nat.succ_pos _)))
    rw [portion_beyond past]
    exact close_nil_right

theorem ordered_mergeLoop (word : ∀ e, num e < 0x100000000) (pos : 0 < m)
    (perm : ∀ i, (portion m i cur).Perm (portion m i l)) (length : cur.length = l.length)
    (enough : l.length ≤ m * 2 * 2 ^ fuel) :
    Ordered num (mergeLoop (byNumber num) (fuel + 1) m cur) ↔ (∀ i, Ordered num (portion m i cur)) ∧
      ∀ j i, Close num (portion (m * 2 ^ j) (2 * i) l) (portion (m * 2 ^ j) (2 * i + 1) l) := by
  induction fuel generalizing m cur with
  | zero =>
    rw [pow_zero, Nat.mul_one] at enough
    exact ordered_last word pos perm length enough
  | succ fuel ih =>
    by_cases one : l.length ≤ m * 2
    · exact ordered_last word pos perm length one
    · have all := (@mergePass_perm (byNumber num) _ pos cur.length cur le_rfl).length_eq
      rw [pow_succ', ← Nat.mul_assoc] at enough
      rw [mergeLoop, if_neg (mt (Slist.merges_le_one pos le_rfl).mp (by rwa [length])),
        ih (by omega) (perm_pass pos perm) (all.trans length) enough, ordered_pass word pos perm, and_assoc]
      refine and_congr_right fun _ => ⟨fun both j => ?_, fun h => ⟨fun i => ?_, fun j i => ?_⟩⟩
      · cases j with
        | zero => simpa using both.1
        | succ j =>
          rw [pow_succ', ← Nat.mul_assoc]
          exact both.2 j
      · simpa using h 0 i
      · have next := h (j + 1) i
        rwa [pow_succ', ← Nat.mul_assoc] at next

theorem ordered_slistMergeSort (word : ∀ e, num e < 0x100000000) :
    Ordered num (slistMergeSort (byNumber num) l) ↔ CloseBlocks num l := by
  unfold slistMergeSort CloseBlocks
  cases l with
  | nil =>
    refine iff_of_true List.Pairwise.nil fun j i => ?_
    rw [portion_beyond (Nat.zero_le _)]
    exact close_nil_left
  | cons x l =>
    have enough : (x :: l).length ≤ 1 * 2 * 2 ^ l.length := by
      rw [List.length_cons, Nat.one_mul, ← pow_succ']
      exact Nat.lt_two_pow_self.le
    have single : ∀ i, Ordered num (portion 1 i (x :: l)) := by
      intro i
      rw [portion]
      cases (x :: l).drop (i * 1) with
      | nil => exact List.Pairwise.nil
      | cons y rest => exact List.pairwise_singleton _ y
    have sorted := ordered_mergeLoop word Nat.one_pos (fun i => .refl _) rfl enough
    simp only [single, Nat.one_mul, implies_true, true_and] at sorted
    exact sorted

/-- Numbers that are all less than `2 ^ 31` apart are close wherever they stand. -/
theorem closeBlocks_of_spread (near : ∀ a ∈ l, ∀ b ∈ l, num a - num b < 0x80000000) : CloseBlocks num l := by
  intro j i
  have sub : ∀ k, ∀ x ∈ portion (2 ^ j) k l, x ∈ l := fun k x mem => List.mem_of_mem_drop (List.mem_of_mem_take mem)
  refine ⟨fun p memp q memq _ _ => ?_, fun q memq p memp _ _ => ?_⟩
  · exact (near q (sub _ q memq) p (sub _ p memp)).le
  · exact near p (sub _ p memp) q (sub _ q memq)

theorem syncList_ordered {pgp : Pagepool} {numpages : Nat} (word : ∀ e, (pgp.bkt e).pgno < 0x100000000)
    (near : ∀ a ∈ pgp.lqh, ∀ b ∈ pgp.lqh, (pgp.bkt a).pgno - (pgp.bkt b).pgno < 0x80000000) :
    Ordered (fun e => (pgp.bkt e).pgno) (pgp.syncList numpages) := by
  refine (ordered_slistMergeSort word).mpr (closeBlocks_of_spread fun a mema b memb => near a ?_ b ?_)
  · exact (mem_syncList ((slistMergeSort_perm _).mem_iff.mpr mema)).1
  · exact (mem_syncList ((slistMergeSort_perm _).mem_iff.mpr memb)).1

/-- The merge sort comes to an end with the same entries in the order of their page numbers, and behind
them nothing, exactly if there are no more than `2 ^ 31` of them and neighbours are close. -/
theorem flush_order {head : Slist} (word : ∀ e, num e < 0x100000000) (h : head.Holds l) :
    (∃ fuel head' l', head.mergeSort (byNumber num) fuel = some head' ∧ head'.Holds l' ∧ l'.Perm l ∧ Ordered num l') ↔
      l.length ≤ 0x80000000 ∧ CloseBlocks num l := by
  constructor
  · rintro ⟨fuel, head', l', run, holds, _, order⟩
    have few : l.length ≤ 0x80000000 := by
      by_contra many
      rw [Slist.mergeSort_never h (not_le.mp many)] at run
      cases run
    obtain ⟨fuel', again, run', sorted, _⟩ := @Slist.mergeSort_returns (byNumber num) _ _ h few
    obtain rfl := Slist.mergeSort_unique run run'
    obtain rfl := Lib.Seg.unique holds sorted
    exact ⟨few, (ordered_slistMergeSort word).mp order⟩
  · rintro ⟨few, close⟩
    obtain ⟨fuel, head', run, sorted, _⟩ := @Slist.mergeSort_returns (byNumber num) _ _ h few
    exact ⟨fuel, head', _, run, sorted, slistMergeSort_perm l, (ordered_slistMergeSort word).mpr close⟩

def twoEntries : Slist := ⟨some 0, fun e => if e = 0 then some 1 else none⟩

/-- The second has a page number `2 ^ 31 + 1` above that of the first. -/
def farNumber (e : Nat) : Nat := if e = 0 then 0 else 0x80000001

theorem holds_twoEntries : twoEntries.Holds [0, 1] := ⟨rfl, rfl, rfl⟩

theorem flush_order_near : ∃ fuel head' l',
    twoEntries.mergeSort (byNumber fun e => if e = 0 then 7 else 3) fuel = some head' ∧ head'.Holds l' ∧
      l'.Perm [0, 1] ∧ Ordered (fun e => if e = 0 then 7 else 3) l' := by
  refine (flush_order (fun e => ?_) holds_twoEntries).mpr ⟨by decide, closeBlocks_of_spread (by decide)⟩
  split <;> decide

/-- With these numbers they come in order, and are put out of it. -/
theorem flush_order_fails : twoEntries.Holds [0, 1] ∧ (∀ e, farNumber e < 0x100000000) ∧
    ¬∃ fuel head' l', twoEntries.mergeSort (byNumber farNumber) fuel = some head' ∧ head'.Holds l' ∧
      l'.Perm [0, 1] ∧ Ordered farNumber l' := by
  refine ⟨holds_twoEntries, fun e => ?_, ?_⟩
  · unfold farNumber
    split <;> decide
  · rintro ⟨fuel, head', l', run, holds, _, order⟩
    obtain ⟨fuel', again, run', sorted, _⟩ :=
      @Slist.mergeSort_returns (byNumber farNumber) _ _ holds_twoEntries (by decide)
    obtain rfl := Slist.mergeSort_unique run run'
    obtain rfl := Lib.Seg.unique holds sorted
    have swapped : slistMergeSort (byNumber farNumber) [0, 1] = [1, 0] := by
      simp [slistMergeSort, mergeLoop, mergePass, mergeRuns, byNumber, sbktLe, farNumber]
    rw [swapped] at order
    exact absurd ((List.pairwise_cons.mp order).1 0 List.mem_cons_self) (by decide)

end FileHash.Pagepool
