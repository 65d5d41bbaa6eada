import FileHash.Custody

/-! The account of pages in hand, routine by routine: what each is given in hand and what it
leaves there. As no fetch fails, each of them comes to the end of its work. -/
namespace FileHash.Htab

open Lib (Prog)
open Lib.Prog (guarded_mono guarded_bind guarded_read_bind guarded_pure guarded_modify)

variable {careful : Bool} {H : List Hold} {mem pagep : Nat} {t : Bool}

/-- What a routine with status `0` leaves in hand. -/
abbrev Done (careful : Bool) (H : List Hold) (status : Int) (hashp : Htab) : Prop :=
  status = 0 ∧ Custody careful H hashp

namespace Keeping

theorem noting {f : Htab → Htab} (mp : ∀ hashp, (f hashp).mp = hashp.mp)
    (proper : ∀ hashp, hashp.hdr.Proper → (f hashp).hdr.Proper) :
    Keeping careful H (Prog.modify f) fun _ => Custody careful H :=
  guarded_modify fun hashp pre => pre.congr (mp hashp) (proper hashp pre.proper)

theorem touched {α : Type} {m : Run α} {Q : α → Htab → Prop} (h : Keeping careful (⟨mem, true⟩ :: H) m Q) :
    Keeping careful (⟨mem, t⟩ :: H) m Q := guarded_mono h (fun _ pre => pre.touch) fun _ _ post => post

theorem done {status : Int} (zero : status = 0) :
    Keeping careful H (Pure.pure status : Run Int) (Done careful H) := pure fun _ pre => ⟨zero, pre⟩

section Numbers

theorem reuseFreeOvflpage : Keeping careful H reuseFreeOvflpage fun _ => Custody careful H := by
  refine read fun hashp => ite (fun _ => pure fun _ pre => pre) fun _ => fetch rfl rfl fun mem p => ?_
  refine reads fun c => ite (fun _ => store (putDirty (pure fun _ pre => pre))) fun _ => put ?_
  exact note (fun _ => rfl) (fun _ h => h.setFreePages _ Lib.Mem.read32_lt) (pure fun _ pre => pre)

theorem startLevel (level : Nat) : Keeping careful H (startLevel level) fun _ => Custody careful H := by
  refine note (fun hashp => ?_) (fun hashp h => ?_) (noting (fun hashp => ?_) fun hashp h => ?_)
  · split <;> rfl
  · split <;> exact h
  · split <;> rfl
  · split
    · exact h.setSpares _ _
    · exact h

theorem nextPage (level : Nat) : Keeping careful H (nextPage level) fun _ => Custody careful H := by
  refine next reuseFreeOvflpage fun num => ite (fun _ => pure fun _ pre => pre) fun _ => read fun hashp => ?_
  exact note (fun _ => rfl) (fun _ h => h.setSpares _ _) (pure fun _ pre => pre)

theorem dataPage (newPage : Bool) : Keeping careful H (dataPage newPage) fun _ => Custody careful H := by
  refine read fun hashp => next (startLevel _) fun _ => ite (fun _ => next (nextPage _) fun r => ?_) fun _ => ?_
  · exact note (fun _ => rfl) (fun _ h => h) (pure fun _ pre => pre)
  · exact read fun _ => pure fun _ pre => pre

theorem ovflPage : Keeping careful H ovflPage fun _ => Custody careful H :=
  read fun _ => next (startLevel _) fun _ => nextPage _

theorem lastDataPage (fuel p : Nat) : Keeping careful H (lastDataPage fuel p) fun _ => Custody careful H := by
  induction fuel generalizing p with
  | zero => exact halt _
  | succ fuel ih =>
    refine fetch rfl rfl fun mem n => reads fun c => put ?_
    exact ite (fun _ => pure fun _ pre => pre) fun _ => ih _

end Numbers

section Data

theorem copyData (bsize fuel start rlen : Nat) (sofar : List UInt8) :
    Keeping careful (⟨pagep, false⟩ :: H) (copyData bsize fuel pagep start rlen sofar) fun _ =>
      Custody careful H := by
  induction fuel generalizing pagep start rlen sofar with
  | zero => exact halt _
  | succ fuel ih =>
    refine reads fun p => ite (fun _ => halt _) fun _ => put (ite (fun _ => pure fun _ pre => pre) fun _ => ?_)
    exact fetch rfl rfl fun mem n => ih _ _ _

theorem getData (keyPage keyIdx room : Nat) (datap : Datap) :
    Keeping careful H (getData keyPage keyIdx room datap) fun _ => Custody careful H := by
  refine read fun hashp => fetch rfl rfl fun mem n => reads fun p => ite (fun _ => halt _) fun _ => ?_
  refine ite (fun _ => leak) fun _ => ite (fun _ => leak) fun _ => next (copyData _ _ _ _ _) fun r => ?_
  cases r with
  | none => exact pure fun _ pre => pre
  | some bytes => exact ite (fun _ => pure fun _ pre => pre) fun _ => pure fun _ pre => pre

theorem addTail (bsize : Nat) (val : Dbt) (fuel currp : Nat) (reuse : Bool) (prevp rlen : Nat) :
    Keeping careful H (addTail bsize val fuel currp reuse prevp rlen) (Done careful H) := by
  induction fuel generalizing currp reuse prevp rlen with
  | zero => exact halt _
  | succ fuel ih =>
    refine ite (fun _ => done rfl) fun _ => fetch rfl rfl fun mem n => ?_
    refine ite (fun _ => init (store ?_)) fun _ => store ?_
    all_goals
      refine ite (fun _ => putDirty (done rfl)) fun _ => next (dataPage _) fun r => ?_
      exact store (putDirty (ih _ _ _ _))

theorem openDataPage (pnum : Nat) : Keeping careful (⟨mem, false⟩ :: H) (openDataPage mem pnum)
    fun r hashp => ∃ o, r = some o ∧ Custody careful (⟨o.1, true⟩ :: H) hashp := by
  refine reads fun p => ite (fun _ => next (dataPage _) fun r => fetch rfl rfl fun cpagep n => ?_) fun _ => ?_
  · refine ite (fun _ => init (swap (store ?_))) fun _ => swap (store ?_)
    all_goals exact swap (store (swap (settle (put (reads fun c => pure fun _ pre => ⟨_, rfl, pre⟩)))))
  · exact pure fun _ pre => ⟨_, rfl, pre.touch⟩

theorem opened {α : Type} {Q : α → Htab → Prop} {pnum : Nat} {k : Option (Nat × Nat × Nat) → Run α}
    (rest : ∀ cpagep cpage start, Keeping careful (⟨cpagep, true⟩ :: H) (k (some (cpagep, cpage, start))) Q) :
    Keeping careful (⟨mem, false⟩ :: H) (Htab.openDataPage mem pnum >>= k) Q := by
  refine guarded_bind (openDataPage pnum) fun r => ?_
  rintro hashp ⟨⟨cpagep, cpage, start⟩, rfl, pre⟩ good
  exact rest cpagep cpage start hashp pre good

theorem addData (keyPage keyIdx : Nat) (val : Dbt) (pnum : Nat) (datap : Datap) :
    Keeping careful (⟨mem, false⟩ :: H) (addData keyPage keyIdx val mem pnum datap) fun r =>
      Done careful H r.1 := by
  refine opened fun cpagep cpage start => read fun hashp => ite (fun _ => halt _) fun _ => ite (fun _ => ?_) fun _ => ?_
  · exact store (putDirty (pure fun _ pre => ⟨rfl, pre⟩))
  · refine store (next (dataPage true) fun r => bind (addTail _ _ _ _ _ _ _) fun status zero => ?_)
    exact ite (fun bad => absurd zero bad) fun _ => store (putDirty (pure fun _ pre => ⟨rfl, pre⟩))

theorem replaceTail (bsize : Nat) (val : Dbt) (fuel currp rlen : Nat) :
    Keeping careful H (replaceTail bsize val fuel currp rlen) (Done careful H) := by
  induction fuel generalizing currp rlen with
  | zero => exact halt _
  | succ fuel ih =>
    refine ite (fun _ => done rfl) fun _ => fetch rfl rfl fun mem n => store (reads fun p => ?_)
    exact putDirty (ih _ _)

theorem replaceData (val : Dbt) (datap : Datap) :
    Keeping careful (⟨mem, t⟩ :: H) (replaceData val mem datap) (Done careful H) := by
  refine read fun hashp => store (ite (fun _ => halt _) fun _ => ite (fun _ => store (putDirty (done rfl))) fun _ => ?_)
  refine store (reads fun p => bind (replaceTail _ _ _ _ _) fun status zero => ?_)
  exact ite (fun bad => absurd zero bad) fun _ => putDirty (done rfl)

theorem updateDataInfo (datap : Datap) (kpage kpgindx : Nat) :
    Keeping careful H (updateDataInfo datap kpage kpgindx) (Done careful H) :=
  read fun _ => fetch rfl rfl fun _ _ => store (putDirty (done rfl))

end Data

section Pairs

theorem addItemOnPage (pgno : Nat) (key val : Dbt) (chksum : Nat) :
    Keeping careful (⟨pagep, t⟩ :: H) (addItemOnPage pagep pgno key val chksum)
      (Done careful (⟨pagep, true⟩ :: H)) := by
  refine reads fun p => store (next (dataPage _) fun fpage => fetch rfl rfl fun memp dpage => ?_)
  refine bind (addData _ _ _ _ _) fun r zero => ite (fun bad => absurd zero bad) fun _ => ?_
  exact store (done rfl)

theorem replaceItemOnPage (pgndx : Nat) (val : Dbt) (chksum : Nat) :
    Keeping careful (⟨pagep, false⟩ :: H) (replaceItemOnPage pagep pgndx val chksum) fun status =>
      Custody careful (⟨pagep, status == 0⟩ :: H) := by
  refine read fun hashp => reads fun p => ite (fun _ => pure fun _ pre => pre) fun _ => fetch rfl rfl fun memp n => ?_
  have rest : ∀ f new, Keeping careful (⟨memp, false⟩ :: ⟨pagep, false⟩ :: H) (do
      Htab.store pagep f
      let status ← Htab.replaceData val memp new
      if status ≠ 0 then Pure.pure (-1) else Pure.pure 0) fun status =>
        Custody careful (⟨pagep, status == 0⟩ :: H) := fun f new =>
    swap (store (swap (bind (replaceData val new) fun status zero =>
      ite (fun bad => absurd zero bad) fun _ => pure fun _ pre => pre)))
  exact ite (fun _ => mark trivial (rest _ _)) fun _ => rest _ _

theorem putStatus {α : Type} {Q : α → Htab → Prop} {status : Int} {k : Unit → Run α}
    (rest : Keeping careful H (k ()) Q) :
    Keeping careful (⟨mem, status == 0⟩ :: H) (Htab.putPage mem (status == 0) >>= k) Q :=
  next (putting fun touched => touched) fun _ => rest

theorem addPair (key val : Dbt) (item : Hent) :
    Keeping careful (⟨item.pagep, t⟩ :: H) (addPair key val item false) fun _ => Custody careful H := by
  refine bind (addItemOnPage _ _ _ _) fun status zero => ?_
  subst zero
  exact putDirty (pure fun _ pre => pre)

theorem replacePair (key val : Dbt) (item : Hent) :
    Keeping careful (⟨item.pagep, false⟩ :: H) (Htab.addPair key val item true) fun _ => Custody careful H :=
  guarded_bind (replaceItemOnPage _ _ _) fun _ => putStatus (pure fun _ pre => pre)

theorem chainPage (prevp : Nat) : Keeping careful (⟨pagep, t⟩ :: H) (chainPage prevp pagep) fun r hashp =>
    ∃ opagep, r.1 = some opagep ∧ Custody careful (⟨opagep, true⟩ :: ⟨pagep, true⟩ :: H) hashp := by
  refine next ovflPage fun r => fetch rfl rfl fun opagep n => ?_
  refine ite (fun _ => init (swap (store (swap (store ?_))))) fun _ => swap (store (swap (store ?_)))
  all_goals exact pure fun _ pre => ⟨opagep, rfl, pre⟩

theorem chained {α : Type} {Q : α → Htab → Prop} {prevp : Nat} {k : Option Nat × Nat → Run α}
    (rest : ∀ opagep p, Keeping careful (⟨opagep, true⟩ :: ⟨pagep, true⟩ :: H) (k (some opagep, p)) Q) :
    Keeping careful (⟨pagep, t⟩ :: H) (Htab.chainPage prevp pagep >>= k) Q := by
  refine guarded_bind (chainPage prevp) ?_
  rintro ⟨r, p⟩ hashp ⟨opagep, rfl, pre⟩ good
  exact rest opagep p hashp pre good

theorem addOvflpage (key val : Dbt) (item : Hent) :
    Keeping careful (⟨item.pagep, t⟩ :: H) (addOvflpage key val item) fun _ => Custody careful H := by
  refine chained fun opagep p => bind (addItemOnPage _ _ _ _) fun status zero => ?_
  subst zero
  exact putDirty (putDirty (pure fun _ pre => pre))

theorem writeKeyDatapToPage (key : Dbt) (datap : Datap) (pgno : Nat) :
    Keeping careful (⟨pagep, t⟩ :: H) (writeKeyDatapToPage key datap pagep pgno) fun _ =>
      Custody careful (⟨pagep, true⟩ :: H) := by
  refine reads fun p => store (store (next (mono (updateDataInfo _ _ _) fun _ _ post => post.2) fun status => ?_))
  exact store (pure fun _ pre => pre)

def roomHolds : Room → List Hold
  | .full pagep _ => [⟨pagep, false⟩]
  | _ => []

theorem addToChain (key : Dbt) (datap : Datap) (fuel pgno : Nat) :
    Keeping careful (⟨pagep, false⟩ :: H) (addToChain key datap fuel pagep pgno) fun room =>
      Custody careful (roomHolds room ++ H) := by
  induction fuel generalizing pagep pgno with
  | zero => exact halt _
  | succ fuel ih =>
    refine reads fun p => ite (fun _ => ?_) fun _ => ite (fun _ => pure fun _ pre => pre) fun _ => ?_
    · exact next (writeKeyDatapToPage _ _ _) fun _ => putDirty (pure fun _ pre => pre)
    · exact fetch rfl rfl fun npagep n => swap (put (ih _))

theorem addKeyDatapToBucket (key : Dbt) (datap : Datap) (bucket : Nat) :
    Keeping careful H (addKeyDatapToBucket key datap bucket) fun _ => Custody careful H := by
  refine fetch rfl rfl fun pagep pgno => guarded_bind (addToChain _ _ _ _) fun room => ?_
  cases room with
  | added => exact pure fun _ pre => pre
  | error => exact pure fun _ pre => pre
  | full pagep pgno =>
    refine chained fun opagep p => swap (putDirty (next (writeKeyDatapToPage _ _ _) fun _ => ?_))
    exact putDirty (pure fun _ pre => pre)

def mapHolds (last : Option (Nat × Nat)) : List Hold := last.toList.map fun l => ⟨l.1, false⟩

theorem mapChain (bsize opage fuel fpage : Nat) :
    Keeping careful (⟨pagep, false⟩ :: H) (mapChain bsize opage fuel pagep fpage) fun last =>
      Custody careful (mapHolds last ++ H) := by
  induction fuel generalizing pagep fpage with
  | zero => exact halt _
  | succ fuel ih =>
    refine reads fun p => ite (fun _ => ?_) fun _ => ite (fun _ => pure fun _ pre => pre) fun _ => ?_
    · exact store (putDirty (pure fun _ pre => pre))
    · exact fetch rfl rfl fun fnext n => swap (put (ih _))

theorem freeOvflpage : Keeping careful (⟨mem, false⟩ :: H) (freeOvflpage mem) fun _ =>
    Custody careful (⟨mem, true⟩ :: H) := by
  refine read fun hashp => reads fun p => ite (fun _ => halt _) fun _ => ite (fun _ => ?_) fun _ => ?_
  · exact note (fun _ => rfl) (fun _ h => h.setFreePages _ Lib.Mem.read32_lt) (init (pure fun _ pre => pre))
  · refine fetch rfl rfl fun fpagep n => guarded_bind (mapChain _ _ _ _) fun last => ?_
    rcases last with _ | ⟨fpagep, fpage⟩
    · exact pure fun _ pre => pre.touch
    · refine swap (init (swap (store (swap (store (swap (settle ?_)))))))
      exact put (pure fun _ pre => pre)

theorem deleteOvflPage : Keeping careful (⟨mem, false⟩ :: H) (deleteOvflPage mem) fun _ => Custody careful H := by
  refine next freeOvflpage fun gone => ite (fun _ => reads fun p => init (settle deleting)) fun _ => ?_
  exact putting fun _ => rfl

def splitHolds (temp : Option Nat) : List Hold := temp.toList.map fun pagep => ⟨pagep, false⟩

theorem splitPage {α : Type} {Q : α → Htab → Prop} {temp : Option Nat} {k : Page → Run α}
    (rest : ∀ p, Keeping careful H (k p) Q) : Keeping careful H (splitPage temp >>= k) Q := by
  cases temp with
  | none => exact reads rest
  | some pagep => exact reads rest

theorem splitSlots (oldbucket newbucket : Nat) (temp : Option Nat) (fuel i : Nat) :
    Keeping careful H (splitSlots oldbucket newbucket temp fuel i) fun _ => Custody careful H := by
  induction fuel generalizing i with
  | zero => exact halt _
  | succ fuel ih =>
    refine splitPage fun p => ite (fun _ => reads fun bucket => ?_) fun _ => pure fun _ pre => pre
    exact next (addKeyDatapToBucket _ _ _) fun _ => ih _

theorem splitChain (oldbucket newbucket fuel : Nat) (temp : Option Nat) :
    Keeping careful (splitHolds temp ++ H) (splitChain oldbucket newbucket fuel temp) fun _ =>
      Custody careful H := by
  induction fuel generalizing temp with
  | zero => exact halt _
  | succ fuel ih =>
    refine next (splitSlots _ _ _ _ _) fun _ => splitPage fun p => ?_
    cases temp with
    | none => exact ite (fun _ => pure fun _ pre => pre) fun _ => fetch rfl rfl fun pagep n => ih (some pagep)
    | some pagep =>
      refine next deleteOvflPage fun _ => ite (fun _ => pure fun _ pre => pre) fun _ => ?_
      exact fetch rfl rfl fun pagep n => ih (some pagep)

theorem splitBucket (oldbucket newbucket : Nat) :
    Keeping careful H (splitBucket oldbucket newbucket) fun _ => Custody careful H := by
  refine fetch rfl rfl fun oldpagep oldpage => reads fun p => note (fun _ => rfl) (fun _ h => h) (init (putDirty ?_))
  exact splitChain _ _ _ none

end Pairs

end Keeping
end FileHash.Htab
