import FileHash.PageInvariants

/-! Where the pages of the buckets begin, and which pages come after. Pages for data and for chains are
given out behind the buckets of the level in use, so what gives them out and fills them leaves the first pages of
the levels that have buckets as they are. While no page is free each data page has the next number. -/
namespace FileHash.Htab

open Lib (Prog)
open Lib.Prog (Stays Triple stays_pure stays_read stays_reads stays_mark stays_modify stays_bind stays_ite
  triple_bind triple_ite triple_modify triple_pure triple_read_bind triple_mono triple_halt)

variable {adm : Event → Prop} {P : Htab → Prop} {level : Nat} {first : Nat → Nat}

/-- `P` is not about the pages. -/
structure Unpaged (adm : Event → Prop) (P : Htab → Prop) : Prop where
  pool : ∀ {α : Type} (m : Prog Pagepool Event α), Stays adm P (pool m)
  note : ∀ hashp fetches held, P hashp → P { hashp with fetches := fetches, held := held }

structure Giving (adm : Event → Prop) (P : Htab → Prop) : Prop extends Unpaged adm P where
  dataPage : ∀ new, Stays adm P (dataPage new)

theorem unpaged_congr (same : ∀ hashp hashp' : Htab, hashp'.hdr = hashp.hdr → hashp'.currDpage = hashp.currDpage →
    P hashp → P hashp') : Unpaged adm P where
  pool m hashp a hashp' pre _ run := by
    obtain ⟨_, _, rfl⟩ := Prog.returns_zoom.mp run
    exact same hashp _ rfl rfl pre
  note hashp _ _ := same hashp _ rfl rfl

section Pages

variable (h : Unpaged adm P)
include h

theorem Unpaged.getPage (addr ty : Nat) (flags : PageFlags) : Stays adm P (getPage addr ty flags) := by
  refine stays_bind (Mild.address addr ty) fun p => stays_bind ?_ fun failed => ?_
  · refine stays_bind stays_read fun _ => stays_bind (stays_modify fun hashp => h.note hashp _ _) fun _ => ?_
    exact stays_ite (stays_bind (stays_mark _) fun _ => stays_pure _) (stays_pure _)
  refine stays_ite (stays_pure _) (stays_bind ?_ fun r => ?_)
  · refine stays_bind (Mild.noteAgain p) fun _ => stays_bind (h.pool _) fun r => ?_
    cases r with
    | page mem => exact stays_bind (stays_modify fun hashp => h.note hashp _ _) fun _ => stays_pure _
    | wait mem => exact triple_halt _
    | error => exact stays_pure _
  cases r with
  | none => exact stays_pure _
  | some mem =>
    refine stays_bind (stays_reads _) fun _ => stays_ite ?_ (stays_pure _)
    refine stays_bind (stays_bind stays_read fun _ => h.pool _) fun _ => ?_
    exact stays_bind (Mild.noteSlip mem _) fun _ => stays_pure _

theorem Unpaged.initPage (mem n ty : Nat) : Stays adm P (initPage mem n ty) :=
  stays_bind stays_read fun _ => h.pool _

theorem Unpaged.putPage (mem : Nat) (dirty : Bool) : Stays adm P (putPage mem dirty) :=
  stays_bind (h.pool _) fun _ => stays_modify fun hashp => h.note hashp _ _

end Pages

section Pairs

variable (h : Giving adm P)
include h

theorem Giving.addTail (bsize : Nat) (val : Dbt) (fuel currp : Nat) (reuse : Bool) (prevp rlen : Nat) :
    Stays adm P (addTail bsize val fuel currp reuse prevp rlen) := by
  induction fuel generalizing currp reuse prevp rlen with
  | zero => exact triple_halt _
  | succ fuel ih =>
    refine stays_ite (stays_pure _) (stays_bind (h.getPage _ _ _) fun r => ?_)
    split
    · exact stays_pure _
    · have rest : ∀ mem, Stays adm P (do
          Htab.store mem (tailPage bsize val rlen prevp)
          let rest := rlen - tailLen bsize rlen
          if rest = 0 then
            Htab.putPage mem true
            pure 0
          else
            let r ← Htab.dataPage true
            Htab.store mem fun p => p.setNextPgno r.1
            Htab.putPage mem true
            Htab.addTail bsize val fuel r.1 r.2 currp rest) := by
        intro mem
        refine stays_bind (h.pool _) fun _ => stays_ite ?_ ?_
        · exact stays_bind (h.putPage _ _) fun _ => stays_pure _
        · refine stays_bind (h.dataPage _) fun r => stays_bind (h.pool _) fun _ => ?_
          exact stays_bind (h.putPage _ _) fun _ => ih _ _ _ _
      exact stays_ite (stays_bind (h.initPage _ _ _) fun _ => rest _) (rest _)

theorem Giving.openDataPage (mem pnum : Nat) : Stays adm P (openDataPage mem pnum) := by
  refine stays_bind (stays_reads _) fun p => stays_ite ?_ (stays_pure _)
  refine stays_bind (h.dataPage _) fun r => stays_bind (h.getPage _ _ _) fun got => ?_
  split
  · exact stays_bind (h.putPage _ _) fun _ => stays_pure _
  · refine stays_ite (stays_bind (h.initPage _ _ _) fun _ => ?_) ?_
    all_goals
      refine stays_bind (h.pool _) fun _ => stays_bind (h.pool _) fun _ => ?_
      refine stays_bind (Mild.noteSlip _ _) fun _ => stays_bind (h.putPage _ _) fun _ => ?_
      exact stays_bind (stays_reads _) fun _ => stays_pure _

theorem Giving.addData (keyPage keyIdx : Nat) (val : Dbt) (mem pnum : Nat) (datap : Datap) :
    Stays adm P (addData keyPage keyIdx val mem pnum datap) := by
  refine stays_bind (h.openDataPage _ _) fun opened => ?_
  split
  · exact stays_pure _
  · refine stays_bind stays_read fun hashp => stays_ite (triple_halt _) (stays_ite ?_ ?_)
    · exact stays_bind (h.pool _) fun _ => stays_bind (h.putPage _ _) fun _ => stays_pure _
    · refine stays_bind (h.pool _) fun _ => stays_bind (h.dataPage _) fun r => ?_
      refine stays_bind (h.addTail _ _ _ _ _ _ _) fun status => stays_ite (stays_pure _) ?_
      exact stays_bind (h.pool _) fun _ => stays_bind (h.putPage _ _) fun _ => stays_pure _

theorem Giving.addItemOnPage (pagep pgno : Nat) (key val : Dbt) (chksum : Nat) :
    Stays adm P (addItemOnPage pagep pgno key val chksum) := by
  refine stays_bind (stays_reads _) fun p => stays_bind (h.pool _) fun _ => ?_
  refine stays_bind (h.dataPage _) fun fpage => stays_bind (h.getPage _ _ _) fun r => ?_
  split
  · exact stays_pure _
  · refine stays_bind (h.addData _ _ _ _ _ _) fun r => stays_ite (stays_pure _) ?_
    exact stays_bind (h.pool _) fun _ => stays_pure _

theorem Giving.addNewPair (key val : Dbt) (item : Hent) : Stays adm P (addPair key val item false) :=
  stays_bind (h.addItemOnPage _ _ _ _ _) fun _ => stays_bind (h.putPage _ _) fun _ => stays_pure _

theorem Giving.chainPage (ovfl : Stays adm P ovflPage) (prevp pagep : Nat) : Stays adm P (chainPage prevp pagep) := by
  refine stays_bind ovfl fun r => stays_bind (h.getPage _ _ _) fun got => ?_
  split
  · exact stays_pure _
  · refine stays_ite (stays_bind (h.initPage _ _ _) fun _ => ?_) ?_
    all_goals exact stays_bind (h.pool _) fun _ => stays_bind (h.pool _) fun _ => stays_pure _

theorem Giving.addOvflpage (ovfl : Stays adm P ovflPage) (key val : Dbt) (item : Hent) :
    Stays adm P (addOvflpage key val item) := by
  refine stays_bind (h.chainPage ovfl _ _) fun r => ?_
  split
  · exact stays_bind (h.putPage _ _) fun _ => stays_pure _
  · refine stays_bind (h.addItemOnPage _ _ _ _ _) fun status => ?_
    exact stays_bind (h.putPage _ _) fun _ => stays_bind (h.putPage _ _) fun _ => stays_pure _

end Pairs

theorem Giving.imp {A : Prop} (h : A → Giving adm P) : Giving adm fun hashp => A → P hashp := by
  have all : ∀ {α : Type} {m : Run α}, (A → Stays adm P m) → Stays adm (fun hashp => A → P hashp) m :=
    fun stays hashp a hashp' pre good run holds => stays holds hashp a hashp' (pre holds) good run
  exact ⟨⟨fun m => all fun holds => (h holds).pool m, fun hashp fetches held pre holds =>
    (h holds).note hashp fetches held
    (pre holds)⟩, fun new => all fun holds => (h holds).dataPage new⟩

section Levels

def Begins (level : Nat) (first : Nat → Nat) (hashp : Htab) : Prop :=
  hashp.hdr.ovflPoint = level ∧ ∀ l ≤ level, hashp.hdr.spares l = first l

theorem Begins.bucketToPage {hashp hashp' : Htab} (h : Begins level first hashp) (h' : Begins level first hashp')
    {b : Nat} (low : ffdbLog2 (u32 (b + 1)) ≤ level) : hashp'.hdr.bucketToPage b = hashp.hdr.bucketToPage b := by
  unfold Hashhdr.bucketToPage
  dsimp only
  rw [h.2 _ low, h'.2 _ low]

theorem unpaged_begins : Unpaged adm (Begins level first) :=
  unpaged_congr fun hashp hashp' same _ pre => by rwa [Begins, same]

theorem begins_reuse : Stays adm (Begins level first) reuseFreeOvflpage := by
  have h : Unpaged adm (Begins level first) := unpaged_begins
  refine stays_bind stays_read fun hashp => stays_ite (stays_pure _) (stays_bind (h.getPage _ _ _) fun r => ?_)
  split
  · exact triple_halt _
  · refine stays_bind (stays_reads _) fun p => stays_ite ?_ ?_
    · exact stays_bind (h.pool _) fun _ => stays_bind (h.putPage _ _) fun _ => stays_pure _
    · refine stays_bind (h.putPage _ _) fun _ => ?_
      exact stays_bind (stays_modify fun _ pre => pre) fun _ => stays_pure _

theorem begins_setSpares (v : Nat) {hashp : Htab} (pre : Begins level first hashp) :
    Begins level first (setSpares (level + 1) v hashp) :=
  ⟨pre.1, fun l low => (Function.update_of_ne (Nat.lt_succ_of_le low).ne ..).trans (pre.2 l low)⟩

theorem begins_startLevel : Stays adm (Begins level first) (startLevel (level + 1)) := by
  refine stays_bind (stays_modify fun hashp pre => ?_) fun _ => stays_modify fun hashp pre => ?_
  · split
    · exact pre
    · exact pre
  · split
    · exact begins_setSpares _ pre
    · exact pre

theorem begins_nextPage : Stays adm (Begins level first) (nextPage (level + 1)) := by
  refine stays_bind begins_reuse fun num => stays_ite (stays_pure _) (stays_bind stays_read fun hashp => ?_)
  exact stays_bind (stays_modify fun hashp pre => begins_setSpares _ pre) fun _ => stays_pure _

theorem begins_level {α : Type} {m : Nat → Run α} (h : Stays adm (Begins level first) (m (level + 1))) :
    Stays adm (Begins level first) (do
      let hashp ← Prog.read
      m (hashp.hdr.ovflPoint + 1)) := by
  refine triple_read_bind fun hashp pre => ?_
  rw [pre.1]
  exact triple_mono h (fun _ pre => pre.2) fun _ _ post => post

theorem begins_ovflPage : Stays adm (Begins level first) ovflPage :=
  begins_level (m := fun level => do startLevel level; nextPage level)
    (stays_bind begins_startLevel fun _ => begins_nextPage)

theorem begins_dataPage (new : Bool) : Stays adm (Begins level first) (dataPage new) := by
  refine begins_level (m := fun level => do
    startLevel level
    if new then
      let r ← nextPage level
      Prog.modify fun hashp => { hashp with currDpage := r.1 }
      pure r
    else
      let hashp ← Prog.read
      pure (hashp.currDpage, false)) (stays_bind begins_startLevel fun _ => stays_ite ?_ ?_)
  · refine stays_bind begins_nextPage fun r => ?_
    exact stays_bind (stays_modify fun _ pre => pre) fun _ => stays_pure _
  · exact stays_bind stays_read fun _ => stays_pure _

theorem giving_begins : Giving adm (Begins level first) := ⟨unpaged_begins, begins_dataPage⟩

end Levels

section Fresh

variable {hdr : Hashhdr} {hashp : Htab}

def withNext (hdr : Hashhdr) (n : Nat) : Hashhdr :=
  { hdr with spares := Function.update hdr.spares (hdr.ovflPoint + 1) n }

/-- Of the header only the number of the next page is another, and it follows the current data page. -/
structure NumbersOn (hdr : Hashhdr) (hashp : Htab) : Prop where
  header : ∃ n, hashp.hdr = withNext hdr n
  newest : (hashp.currDpage = invalidPgno ∧ hashp.hdr.spares (hdr.ovflPoint + 1) = 0) ∨
    hashp.hdr.spares (hdr.ovflPoint + 1) = u32 (hashp.currDpage + 1)

theorem NumbersOn.point (h : NumbersOn hdr hashp) : hashp.hdr.ovflPoint = hdr.ovflPoint := by
  obtain ⟨n, header⟩ := h.header
  rw [header]
  rfl

theorem unpaged_numbersOn : Unpaged adm (NumbersOn hdr) :=
  unpaged_congr fun hashp hashp' same current pre => ⟨by rw [same]; exact pre.header, by rw [same, current]; exact pre.newest⟩

theorem spares_withNext {n : Nat} (header : hashp.hdr = withNext hdr n) : hashp.hdr.spares (hdr.ovflPoint + 1) = n := by
  rw [header]
  exact Function.update_self ..

theorem header_setSpares (header : ∃ n, hashp.hdr = withNext hdr n) (n : Nat) :
    (setSpares (hdr.ovflPoint + 1) n hashp).hdr = withNext hdr n := by
  obtain ⟨m, header⟩ := header
  simp only [setSpares, setHdr, header, withNext, Function.update_idem]

def Starting (hdr : Hashhdr) (hashp : Htab) : Prop :=
  (∃ n, hashp.hdr = withNext hdr n) ∧
    (hashp.hdr.spares (hdr.ovflPoint + 1) = 0 ∨ hashp.hdr.spares (hdr.ovflPoint + 1) = u32 (hashp.currDpage + 1))

theorem numbersOn_startLevel : Triple adm (NumbersOn hdr) (startLevel (hdr.ovflPoint + 1)) fun _ hashp =>
    NumbersOn hdr hashp ∧ hashp.hdr.spares (hdr.ovflPoint + 1) = u32 (hashp.currDpage + 1) := by
  refine triple_bind (Q := fun _ => Starting hdr) (triple_modify fun hashp pre => ?_) fun _ => triple_modify
    fun hashp mid => ?_
  · split
    · rename_i unused
      refine ⟨pre.header, .inl (pre.newest.elim And.right fun next => next.trans ?_)⟩
      rw [unused]
      rfl
    · exact ⟨pre.header, pre.newest.imp And.right id⟩
  · split
    · have header := header_setSpares mid.1 (u32 (hashp.currDpage + 1))
      exact ⟨⟨⟨_, header⟩, .inr (spares_withNext header)⟩, spares_withNext header⟩
    · have newest := mid.2.resolve_left ‹_›
      exact ⟨⟨mid.1, .inr newest⟩, newest⟩

theorem numbersOn_reuse (free : hdr.freePages hdr.ovflPoint = invalidPgno) :
    Triple adm (NumbersOn hdr) reuseFreeOvflpage fun num hashp => num = 0 ∧ NumbersOn hdr hashp := by
  refine triple_read_bind fun hashp pre => ?_
  obtain ⟨n, header⟩ := pre.header
  dsimp only
  rw [header, if_pos (show (withNext hdr n).freePages (withNext hdr n).ovflPoint = invalidPgno from free)]
  exact triple_pure fun _ both => ⟨rfl, both.2⟩

theorem numbersOn_nextPage (free : hdr.freePages hdr.ovflPoint = invalidPgno) :
    Triple adm (NumbersOn hdr) (nextPage (hdr.ovflPoint + 1)) fun r hashp => hashp.hdr = withNext hdr
      (u32 (r.1 + 1)) := by
  refine triple_bind (numbersOn_reuse free) fun num => triple_ite (fun some => ?_) fun _ => triple_read_bind
    fun hashp _ => ?_
  · refine triple_pure fun _ pre => absurd some ?_
    rw [pre.1]
    exact lt_irrefl 0
  · exact triple_bind (Q := fun _ t => t.hdr = withNext hdr (u32 (hashp.hdr.spares (hdr.ovflPoint + 1) + 1)))
      (triple_modify fun t same => header_setSpares same.2.2.header _) fun _ => triple_pure fun _ post => post

theorem numbersOn_dataPage (free : hdr.freePages hdr.ovflPoint = invalidPgno) (new : Bool) :
    Stays adm (NumbersOn hdr) (dataPage new) := by
  refine triple_read_bind fun hashp pre => ?_
  dsimp only
  rw [pre.point]
  refine triple_bind (triple_mono numbersOn_startLevel (fun _ both => both.2) fun _ _ post => post) fun _ => ?_
  refine triple_ite (fun _ => ?_) fun _ => ?_
  · refine triple_bind (triple_mono (numbersOn_nextPage free) (fun _ both => both.1) fun _ _ post => post) fun r => ?_
    refine triple_bind (Q := fun _ => NumbersOn hdr) (triple_modify fun t header => ?_) fun _ => triple_pure
      fun _ post => post
    exact ⟨⟨_, header⟩, .inr (spares_withNext header)⟩
  · exact triple_read_bind fun t _ => triple_pure fun _ both => both.2.1

theorem giving_numbersOn (free : hdr.freePages hdr.ovflPoint = invalidPgno) : Giving adm (NumbersOn hdr) :=
  ⟨unpaged_numbersOn, numbersOn_dataPage free⟩

end Fresh

end FileHash.Htab
