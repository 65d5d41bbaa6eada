import FileHash.CustodyRoutines

/-! The account of pages in hand over searches, cursors and the moving of pages. A cursor keeps
the page it is positioned on from one call to the next. -/
namespace FileHash.Htab

open Lib (Prog)
open Lib.Prog (guarded_mono guarded_bind guarded_read_bind guarded_reads_bind guarded_pure guarded_modify
  guarded_ite guarded_mark)

variable {careful : Bool} {H : List Hold} {mem pagep : Nat} {t : Bool}

theorem agree_of_resets {bsize pgno : Nat} {p : Page} (same : resets bsize pgno p = false) :
    Agree (FileHash.initPage bsize p pgno hashBucketPage) p := by
  have header : sameImage pageOverhead p (FileHash.initPage bsize p pgno hashBucketPage) = true := by
    simpa [resets] using same
  intro i hi
  by_cases low : i < pageOverhead
  · have byte := List.all_eq_true.mp header i (List.mem_range.mpr low)
    rw [Bool.or_eq_true, Bool.and_eq_true, decide_eq_true_eq, decide_eq_true_eq, beq_iff_eq] at byte
    refine (byte.resolve_left fun word => ?_).symm
    omega
  · rw [pageOverhead] at low
    simp only [FileHash.initPage, true_or, if_true, Page.setCurrPgno, Page.setPrevPgno, Page.setNextPgno,
      Page.setPageSign, Page.setNumEnt, Page.setType, Page.setChksum, Page.setOffset]
    simp (disch := omega) only [Lib.Mem.write16_outside, Lib.Mem.write32_outside]

namespace Keeping

section Searches

theorem findChain (key : Dbt) (chksum fuel pgno : Nat) :
    Keeping careful (⟨pagep, false⟩ :: H) (findChain key chksum fuel pagep pgno) fun r hashp =>
      ∃ item, r = some item ∧ Custody careful (⟨item.pagep, false⟩ :: H) hashp := by
  induction fuel generalizing pagep pgno with
  | zero => exact halt _
  | succ fuel ih =>
    refine read fun hashp => reads fun p => ?_
    split
    · exact pure fun _ pre => ⟨_, rfl, pre⟩
    · refine ite (fun _ => pure fun _ pre => ⟨_, rfl, pre⟩) fun _ => put (fetch rfl rfl fun pagep pgno => ?_)
      exact ih _

theorem resetting {pgno : Nat} {hashp : Htab} {P : Htab → Prop}
    (known : ∀ s, P s → s = hashp ∧ Custody careful (⟨pagep, false⟩ :: H) s)
    (same : resets hashp.hdr.bsize pgno (hashp.mp.bkt pagep).page = false) :
    Lib.Prog.Guarded (Orderly careful) (Sparing careful) P (initPage pagep pgno hashBucketPage) fun _ =>
      Custody careful (⟨pagep, false⟩ :: H) := by
  refine guarded_read_bind fun s pre => guarded_pool fun s pre => ?_
  obtain ⟨rfl, pre⟩ := pre
  obtain ⟨rfl, pre⟩ := known s pre
  obtain ⟨mp', run, changes⟩ := @Pagepool.store_spec _ pagep _ Event pre.tidy pre.counted
    fun p => FileHash.initPage s.hdr.bsize p pgno hashBucketPage
  refine .inl ⟨(), mp', run,
    (pre.write (f := fun p => FileHash.initPage s.hdr.bsize p pgno hashBucketPage) changes).settle fun look => ?_⟩
  subst look
  rw [Pagepool.Saved, show (setMp mp' s).mp.bkt pagep = _ from changes.entry,
    show (setMp mp' s).mp.file = _ from changes.file]
  exact pre.saved_untouched.imp_right fun image sign => (agree_of_resets same).trans (image sign)

theorem findItem (bucket : Nat) (key : Dbt) (val : Option Dbt) :
    Keeping careful H (findItem bucket key val) fun r hashp => ∃ item t, r = some item ∧
      (t = true → val.isSome = true ∧ item.status = .noMore) ∧ Custody careful (⟨item.pagep, t⟩ :: H) hashp := by
  refine fetch rfl rfl fun pagep pgno => guarded_read_bind fun hashp _ => guarded_reads_bind fun s pre => ?_
  obtain ⟨rfl, _⟩ := pre
  have reset : ∀ chksum, Lib.Prog.Guarded (Orderly careful) (Sparing careful)
      (fun r => r = s ∧ Custody careful (⟨pagep, false⟩ :: H) r) (do
        initPage pagep pgno hashBucketPage
        if val.isNone ∧ resets s.hdr.bsize pgno (s.mp.bkt pagep).page then noteSlip pagep .emptied
        Pure.pure (some ⟨pagep, pgno, 0, .noMore, chksum⟩) : Run (Option Hent)) fun r hashp => ∃ item t, r = some item ∧
          (t = true → val.isSome = true ∧ item.status = .noMore) ∧ Custody careful (⟨item.pagep, t⟩ :: H) hashp := by
    intro chksum
    cases val with
    | some val =>
      refine guarded_mono (P := Custody careful (⟨pagep, false⟩ :: H)) ?_ (fun _ pre => pre.2) fun _ _ post => post
      exact init (ite (fun no => absurd no.1 (by simp)) fun _ => pure fun _ pre =>
        ⟨_, true, rfl, fun _ => ⟨rfl, rfl⟩, pre⟩)
    | none =>
      by_cases changes : resets s.hdr.bsize pgno (s.mp.bkt pagep).page = true
      · refine guarded_mono (P := Custody careful (⟨pagep, false⟩ :: H)) ?_ (fun _ pre => pre.2) fun _ _ post => post
        refine init (ite (fun _ => settle ?_) fun no => absurd ⟨rfl, changes⟩ no)
        exact pure fun _ pre => ⟨_, false, rfl, fun t => absurd t (by simp), pre⟩
      · refine guarded_bind (resetting (fun _ pre => pre) (by simpa using changes)) fun _ => ?_
        refine ite (fun yes => absurd yes.2 changes) fun _ => ?_
        exact pure fun _ pre => ⟨_, false, rfl, fun t => absurd t (by simp), pre⟩
  refine guarded_ite (fun _ => guarded_ite (fun _ => ?_) fun _ => ?_) fun _ => ?_
  · exact guarded_bind (Q := fun _ r => r = s ∧ Custody careful (⟨pagep, false⟩ :: H) r)
      (guarded_mark fun _ _ pre => ⟨trivial, pre.1, pre.2.2⟩) fun _ => reset _
  · exact guarded_mono (reset _) (fun _ pre => ⟨pre.1, pre.2.2⟩) fun _ _ post => post
  · refine guarded_mono (findChain key _ _ _) (fun _ pre => pre.2.2) fun r hashp post => ?_
    obtain ⟨item, found, custody⟩ := post
    exact ⟨item, false, found, fun t => absurd t (by simp), custody⟩

theorem found {α : Type} {Q : α → Htab → Prop} {bucket : Nat} {key : Dbt} {val : Option Dbt}
    {k : Option Hent → Run α} (rest : ∀ item t, (t = true → val.isSome = true ∧ item.status = .noMore) →
      Keeping careful (⟨item.pagep, t⟩ :: H) (k (some item)) Q) :
    Keeping careful H (Htab.findItem bucket key val >>= k) Q := by
  refine guarded_bind (findItem bucket key val) fun r => ?_
  rintro hashp ⟨item, t, rfl, quiet, pre⟩ good
  exact rest item t quiet hashp pre good

theorem getItem (pgno pgndx room : Nat) : Keeping careful H (getItem pagep pgno pgndx room false) fun _ =>
    Custody careful H := by
  refine reads fun p => next (getData _ _ _ _) fun r => ite (fun _ => ?_) fun _ => ?_
  · exact ite (fun yes => absurd yes (by simp)) fun _ => pure fun _ pre => pre
  · exact ite (fun yes => absurd yes (by simp)) fun _ => pure fun _ pre => pre

theorem getItemFree (pgno pgndx room : Nat) :
    Keeping careful (⟨pagep, false⟩ :: H) (Htab.getItem pagep pgno pgndx room true) fun _ => Custody careful H := by
  refine reads fun p => next (getData _ _ _ _) fun r => ite (fun _ => ?_) fun _ => ?_
  · exact ite (fun _ => leak) fun no => absurd rfl no
  · exact ite (fun _ => put (pure fun _ pre => pre)) fun no => absurd rfl no

end Searches

end Keeping

def Crs.holds (crs : Crs) : List Hold := crs.pagep.toList.map fun pagep => ⟨pagep, false⟩

def Place.holds : Place → List Hold
  | .at crs => crs.holds
  | .notFound crs => crs.holds
  | .failed crs => crs.holds

@[simp] theorem Place.holds_settle (old : Crs) (own : Bool) (place : Place) :
    (place.settle old own).holds = place.holds := by cases place <;> rfl

namespace Keeping

section Cursors

variable {crs : Crs}

theorem releaseCursor (crs : Crs) : Keeping careful (crs.holds ++ H) (releaseCursor crs) fun _ =>
    Custody careful H := by
  unfold Htab.releaseCursor Crs.holds
  cases crs.pagep with
  | none => exact pure fun _ pre => pre
  | some pagep => exact putting fun touched => absurd touched Bool.false_ne_true

theorem noteBeyond (bucket : Nat) : Keeping careful H (noteBeyond bucket) fun _ => Custody careful H := by
  refine read fun _ => ite (fun _ => ?_) fun _ => pure fun _ pre => pre
  exact guarded_mark fun _ _ pre => ⟨trivial, pre⟩

theorem cursorBucket (crs : Crs) (bucket : Nat) : Keeping careful H (cursorBucket crs bucket) fun crs =>
    Custody careful (crs.holds ++ H) :=
  next (noteBeyond _) fun _ => fetch rfl rfl fun _ _ => pure fun _ pre => pre

theorem looking {careful : Bool} {crs : Crs} {k : Nat → Run Place} (rest : ∀ pagep, crs.pagep = some pagep →
      Keeping careful (⟨pagep, false⟩ :: H) (k pagep) fun place => Custody careful (place.holds ++ H)) :
    Keeping careful (crs.holds ++ H) (match crs.pagep with
      | none => Pure.pure (.failed crs)
      | some pagep => k pagep) fun place => Custody careful (place.holds ++ H) := by
  cases at_page : crs.pagep with
  | none => exact pure fun _ pre => pre
  | some pagep =>
    refine guarded_mono (rest pagep at_page) (fun _ pre => ?_) fun _ _ post => post
    rw [Crs.holds, at_page] at pre
    exact pre

theorem staying {place : Place} (same : place.holds = [⟨pagep, false⟩]) :
    Keeping careful (⟨pagep, false⟩ :: H) (Pure.pure place : Run Place) fun place =>
      Custody careful (place.holds ++ H) := pure fun _ pre => by rw [same]; exact pre

theorem skipEmpty (last : Nat → Bool) (step : Nat → Nat) (fuel : Nat) (crs : Crs) :
    Keeping careful (crs.holds ++ H) (skipEmpty last step fuel crs) fun place =>
      Custody careful (place.holds ++ H) := by
  induction fuel generalizing crs with
  | zero => exact halt _
  | succ fuel ih =>
    refine looking fun pagep at_page => reads fun p => ite (fun _ => put ?_) fun _ => staying ?_
    · exact ite (fun _ => pure fun _ pre => pre) fun _ => guarded_bind (cursorBucket _ _) ih
    · simp only [Place.holds, Crs.holds, at_page, Option.toList_some, List.map_cons, List.map_nil]

theorem skipFirst (maxBucket fuel : Nat) (crs : Crs) :
    Keeping careful (crs.holds ++ H) (skipFirst maxBucket fuel crs) fun place =>
      Custody careful (place.holds ++ H) := by
  induction fuel generalizing crs with
  | zero => exact halt _
  | succ fuel ih =>
    refine looking fun pagep at_page => reads fun p => ite (fun _ => put ?_) fun _ => ite (fun _ => put ?_) fun _ =>
      staying ?_
    · exact guarded_bind (cursorBucket _ _) ih
    · exact pure fun _ pre => pre
    · simp only [Place.holds, Crs.holds, at_page, Option.toList_some, List.map_cons, List.map_nil]

theorem skipLast (fuel : Nat) (crs : Crs) :
    Keeping careful (crs.holds ++ H) (skipLast fuel crs) fun place => Custody careful (place.holds ++ H) := by
  induction fuel generalizing crs with
  | zero => exact halt _
  | succ fuel ih =>
    refine looking fun pagep at_page => reads fun p => ite (fun _ => put ?_) fun _ => staying ?_
    · refine guarded_bind (cursorBucket _ _) fun crs => looking fun pagep at_page => reads fun p => ?_
      refine ite (fun _ => put (pure fun _ pre => pre)) fun _ => guarded_mono (ih crs) (fun _ pre => ?_)
        fun _ _ post => post
      rw [Crs.holds, at_page]
      exact pre
    · simp only [Place.holds, Crs.holds, at_page, Option.toList_some, List.map_cons, List.map_nil]

theorem cursorFirst (crs : Crs) : Keeping careful (crs.holds ++ H) (cursorFirst crs) fun place =>
    Custody careful (place.holds ++ H) := by
  refine next (releaseCursor crs) fun _ => read fun hashp => guarded_bind (cursorBucket _ _) fun start => ?_
  exact guarded_bind (skipFirst _ _ _) fun place => guarded_pure fun _ pre => by rw [Place.holds_settle]; exact pre

theorem cursorLast (crs : Crs) : Keeping careful (crs.holds ++ H) (cursorLast crs) fun place =>
    Custody careful (place.holds ++ H) := by
  refine next (releaseCursor crs) fun _ => read fun hashp => guarded_bind (cursorBucket _ _) fun start => ?_
  exact guarded_bind (skipLast _ _) fun place => guarded_pure fun _ pre => by rw [Place.holds_settle]; exact pre

theorem cursorOvfl (crs : Crs) (nextp : Nat) : Keeping careful H (cursorOvfl crs nextp) fun place =>
    Custody careful (place.holds ++ H) := fetch rfl rfl fun _ _ => pure fun _ pre => pre

theorem onPage {α : Type} {Q : α → Htab → Prop} {why : Lib.Halt} {k : Nat → Run α} {L : List Hold}
    (rest : ∀ pagep, crs.pagep = some pagep → Keeping careful (⟨pagep, false⟩ :: H) (k pagep) Q)
    (same : L = crs.holds ++ H) : Keeping careful L (match crs.pagep with
      | none => Prog.halt why
      | some pagep => k pagep) Q := by
  subst same
  cases at_page : crs.pagep with
  | none => exact halt _
  | some pagep =>
    refine guarded_mono (rest pagep at_page) (fun _ pre => ?_) fun _ _ post => post
    rw [Crs.holds, at_page] at pre
    exact pre

theorem places {α : Type} {k : Place → Run α} {Q : α → Htab → Prop}
    (at_slot : ∀ crs : Crs, Keeping careful (crs.holds ++ H) (k (.at crs)) Q)
    (notFound : ∀ crs : Crs, Keeping careful (crs.holds ++ H) (k (.notFound crs)) Q)
    (failed : ∀ crs : Crs, Keeping careful (crs.holds ++ H) (k (.failed crs)) Q) (place : Place) :
    Keeping careful (place.holds ++ H) (k place) Q := by
  cases place with
  | «at» crs => exact at_slot crs
  | notFound crs => exact notFound crs
  | failed crs => exact failed crs

theorem cursorNext (crs : Crs) : Keeping careful (crs.holds ++ H) (cursorNext crs) fun place =>
    Custody careful (place.holds ++ H) := by
  refine onPage (fun pagep at_page => read fun hashp => reads fun p => ?_) rfl
  refine ite (fun _ => put (ite (fun _ => pure fun _ pre => pre) fun _ => ite (fun _ => ?_) fun _ => ?_)) fun _ =>
    staying ?_
  · refine guarded_bind (cursorBucket _ _) fun crs => guarded_bind (skipEmpty _ _ _ _) (places ?_ ?_ ?_)
    all_goals exact fun _ => pure fun _ pre => pre
  · refine guarded_bind (cursorOvfl _ _) (places ?_ ?_ ?_)
    all_goals exact fun _ => pure fun _ pre => pre
  · simp only [Place.holds, Crs.holds, at_page, Option.toList_some, List.map_cons, List.map_nil]

theorem cursorPrev (crs : Crs) : Keeping careful (crs.holds ++ H) (cursorPrev crs) fun place =>
    Custody careful (place.holds ++ H) := by
  refine onPage (fun pagep at_page => reads fun p => ?_) rfl
  refine ite (fun _ => put (ite (fun _ => pure fun _ pre => pre) fun _ => ite (fun _ => ?_) fun _ => ?_)) fun _ =>
    staying ?_
  · refine guarded_bind (cursorBucket _ _) fun crs => ite (fun _ => ?_) fun _ => ?_
    · exact guarded_bind (Q := fun _ _ => False) (halt _) fun _ _ pre => pre.elim
    · refine guarded_bind (skipEmpty _ _ _ _) (places (fun crs => ?_) (fun _ => pure fun _ pre => pre) fun _ =>
        pure fun _ pre => pre)
      refine onPage (fun pagep at_page => reads fun p => staying ?_) rfl
      simp only [Place.holds, Crs.holds, at_page, Option.toList_some, List.map_cons, List.map_nil]
  · refine guarded_bind (cursorOvfl _ _) (places (fun crs => ?_) (fun _ => pure fun _ pre => pre) fun _ =>
      pure fun _ pre => pre)
    refine onPage (fun pagep at_page => reads fun p => staying ?_) rfl
    simp only [Place.holds, Crs.holds, at_page, Option.toList_some, List.map_cons, List.map_nil]
  · simp only [Place.holds, Crs.holds, at_page, Option.toList_some, List.map_cons, List.map_nil]

theorem cursorRead (crs : Crs) (keyRoom : Nat) (dataRoom : Option Nat) :
    Keeping careful (crs.holds ++ H) (cursorRead crs keyRoom dataRoom) fun _ =>
      Custody careful (crs.holds ++ H) := by
  unfold Htab.cursorRead
  split
  · exact halt _
  · refine reads fun p => ite (fun _ => pure fun _ pre => pre) fun _ => ?_
    split
    · exact pure fun _ pre => pre
    · exact next (getItem _ _ _) fun _ => pure fun _ pre => pre

theorem cursorFindByKey (crs : Crs) (keyRoom : Nat) (dataRoom : Option Nat) (flags : Nat) :
    Keeping careful (crs.holds ++ H) (cursorFindByKey crs keyRoom dataRoom flags) fun r =>
      Custody careful (r.2.1.holds ++ H) := by
  refine ite (fun _ => guarded_bind (cursorFirst _) ?_) fun _ => ite (fun _ => guarded_bind (cursorLast _) ?_) fun _ =>
    ite (fun _ => guarded_bind (cursorNext _) ?_) fun _ => guarded_bind (cursorPrev _) ?_
  all_goals
    refine places (fun crs => ?_) (fun _ => pure fun _ pre => pre) fun _ => pure fun _ pre => pre
    exact next (cursorRead _ _ _) fun _ => pure fun _ pre => pre

theorem cursorGet (crs : Crs) (keyRoom : Nat) (dataRoom : Option Nat) (flags : Nat) :
    Keeping careful (crs.holds ++ H) (cursorGet crs keyRoom dataRoom flags) fun r =>
      Custody careful (r.2.1.holds ++ H) :=
  ite (fun _ => pure fun _ pre => pre) fun _ => ite (fun _ => cursorFindByKey _ _ _ _) fun _ => pure fun _ pre => pre

end Cursors

end Keeping
end FileHash.Htab
