import FileHash.Hash

/-! Programs on a table reach its pages through few calls. What these calls keep is kept by the
routines made of them, up to those that delete pages, rename them or make them on request. -/
namespace FileHash

def PageFlags.Plain (flags : PageFlags) : Prop := flags.new = false ∧ flags.dirty = false ∧ flags.edit = false

namespace Htab

open Lib (Prog)
open Lib.Prog (Stays stays_pure stays_read stays_reads stays_mark stays_modify stays_bind stays_ite
  triple_halt)

/-- The calls of a reader keep `P`: pages are asked for in the ways `asks` allows and put back
unmarked. -/
structure Mild (adm : Event → Prop) (asks : PageFlags → Prop) (P : Htab → Prop) : Prop where
  note : ∀ hashp fetches held, P hashp → P { hashp with fetches := fetches, held := held }
  store : ∀ mem f, Stays adm P (store mem f)
  bare : asks {}
  get : ∀ p flags, asks flags → Stays adm P (pool (Pagepool.getPage self p flags))
  put : ∀ mem, Stays adm P (pool (Pagepool.putPage mem false))

namespace Mild

variable {adm : Event → Prop} {asks : PageFlags → Prop} {P : Htab → Prop} (h : Mild adm asks P)
include h

section Pages

theorem fails : Stays adm P fails := by
  refine stays_bind stays_read fun _ => stays_bind (stays_modify fun hashp => h.note hashp _ _) fun _ => ?_
  exact stays_ite (stays_bind (stays_mark _) fun _ => stays_pure _) (stays_pure _)

omit h in
theorem address (addr ty : Nat) : Stays adm P (address addr ty) :=
  stays_bind stays_read fun _ => stays_ite (stays_ite (triple_halt _) (stays_pure _)) (stays_pure _)

omit h in
theorem noteAgain (p : Nat) : Stays adm P (noteAgain p) := by
  refine stays_bind stays_read fun _ => ?_
  split
  · exact stays_ite (stays_mark _) (stays_pure _)
  · exact stays_pure _

omit h in
theorem noteSlip (mem : Nat) (why : Slip) : Stays adm P (noteSlip mem why) :=
  stays_bind stays_read fun _ => stays_ite (stays_mark _) (stays_pure _)

theorem leak (mem : Nat) (why : Leak) : Stays adm P (leak mem why) :=
  stays_bind (stays_mark _) fun _ => stays_modify fun hashp => h.note hashp _ _

theorem initPage (mem n ty : Nat) : Stays adm P (initPage mem n ty) :=
  stays_bind stays_read fun _ => h.store mem _

theorem fetch (p : Nat) {flags : PageFlags} (fine : asks flags) : Stays adm P (fetch p flags) := by
  refine stays_bind (noteAgain p) fun _ => stays_bind (h.get p flags fine) fun r => ?_
  cases r with
  | page mem => exact stays_bind (stays_modify fun hashp => h.note hashp _ _) fun _ => stays_pure _
  | wait mem => exact triple_halt _
  | error => exact stays_pure _

theorem getPage (addr ty : Nat) {flags : PageFlags} (fine : asks flags) :
    Stays adm P (getPage addr ty flags) := by
  refine stays_bind (address addr ty) fun p => stays_bind h.fails fun failed => ?_
  refine stays_ite (stays_pure _) (stays_bind (h.fetch p fine) fun r => ?_)
  cases r with
  | none => exact stays_pure _
  | some mem =>
    refine stays_bind (stays_reads _) fun _ => stays_ite ?_ (stays_pure _)
    exact stays_bind (h.initPage mem p ty) fun _ => stays_bind (noteSlip mem _) fun _ => stays_pure _

theorem putPage (mem : Nat) : Stays adm P (putPage mem false) :=
  stays_bind (h.put mem) fun _ => stays_modify fun hashp => h.note hashp _ _

theorem lastDataPage (fuel p : Nat) : Stays adm P (lastDataPage fuel p) := by
  induction fuel generalizing p with
  | zero => exact triple_halt _
  | succ fuel ih =>
    refine stays_bind (h.getPage _ _ h.bare) fun r => ?_
    split
    · exact triple_halt _
    · refine stays_bind (stays_reads _) fun _ => stays_bind (h.putPage _) fun _ => ?_
      exact stays_ite (stays_pure _) (ih _)

end Pages

section Searches

theorem copyData (bsize fuel pagep start rlen : Nat) (sofar : List UInt8) :
    Stays adm P (copyData bsize fuel pagep start rlen sofar) := by
  induction fuel generalizing pagep start rlen sofar with
  | zero => exact triple_halt _
  | succ fuel ih =>
    refine stays_bind (stays_reads _) fun p => stays_ite (triple_halt _) ?_
    refine stays_bind (h.putPage _) fun _ => stays_ite (stays_pure _) ?_
    refine stays_bind (h.getPage _ _ h.bare) fun r => ?_
    split
    · exact stays_pure _
    · exact ih _ _ _ _

theorem getData (keyPage keyIdx room : Nat) (datap : Datap) :
    Stays adm P (getData keyPage keyIdx room datap) := by
  refine stays_bind stays_read fun hashp => stays_bind (h.getPage _ _ h.bare) fun r => ?_
  split
  · exact stays_pure _
  · refine stays_bind (stays_reads _) fun p => stays_ite (triple_halt _) (stays_ite ?_ (stays_ite ?_ ?_))
    · exact stays_bind (h.leak _ _) fun _ => stays_pure _
    · exact stays_bind (h.leak _ _) fun _ => stays_pure _
    · refine stays_bind (h.copyData _ _ _ _ _ _) fun r => ?_
      split
      · exact stays_pure _
      · exact stays_ite (stays_pure _) (stays_pure _)

theorem findChain (key : Dbt) (chksum fuel pagep pgno : Nat) :
    Stays adm P (findChain key chksum fuel pagep pgno) := by
  induction fuel generalizing pagep pgno with
  | zero => exact triple_halt _
  | succ fuel ih =>
    refine stays_bind stays_read fun hashp => stays_bind (stays_reads _) fun p => ?_
    split
    · exact stays_pure _
    · refine stays_ite (stays_pure _) (stays_bind (h.putPage _) fun _ => ?_)
      refine stays_bind (h.getPage _ _ h.bare) fun r => ?_
      split
      · exact stays_pure _
      · exact ih _ _

theorem findItem (create : asks { create := true }) (bucket : Nat) (key : Dbt) (val : Option Dbt) :
    Stays adm P (findItem bucket key val) := by
  refine stays_bind (h.getPage _ _ create) fun r => ?_
  split
  · exact stays_pure _
  · refine stays_bind stays_read fun hashp => stays_bind (stays_reads _) fun p => ?_
    refine stays_ite ?_ (h.findChain _ _ _ _ _)
    refine stays_ite (stays_bind (stays_mark _) fun _ => ?_) ?_
    all_goals
      refine stays_bind (h.initPage _ _ _) fun _ => ?_
      exact stays_ite (stays_bind (noteSlip _ _) fun _ => stays_pure _) (stays_pure _)

theorem getItem (pagep pgno pgndx room : Nat) (freepage : Bool) :
    Stays adm P (getItem pagep pgno pgndx room freepage) := by
  refine stays_bind (stays_reads _) fun p => stays_bind (h.getData _ _ _ _) fun r => stays_ite ?_ ?_
  · exact stays_ite (stays_bind (h.leak _ _) fun _ => stays_pure _) (stays_pure _)
  · exact stays_ite (stays_bind (h.putPage _) fun _ => stays_pure _) (stays_pure _)

end Searches

section Cursors

omit h in
theorem noteBeyond (bucket : Nat) : Stays adm P (noteBeyond bucket) :=
  stays_bind stays_read fun _ => stays_ite (stays_mark _) (stays_pure _)

theorem releaseCursor (crs : Crs) : Stays adm P (releaseCursor crs) := by
  unfold Htab.releaseCursor
  split
  · exact stays_pure _
  · exact h.putPage _

theorem cursorBucket (crs : Crs) (bucket : Nat) : Stays adm P (cursorBucket crs bucket) := by
  refine stays_bind (noteBeyond _) fun _ => stays_bind (h.getPage _ _ h.bare) fun r => ?_
  split
  · exact stays_pure _
  · exact stays_pure _

theorem skipEmpty (last : Nat → Bool) (step : Nat → Nat) (fuel : Nat) (crs : Crs) :
    Stays adm P (skipEmpty last step fuel crs) := by
  induction fuel generalizing crs with
  | zero => exact triple_halt _
  | succ fuel ih =>
    unfold Htab.skipEmpty
    split
    · exact stays_pure _
    · refine stays_bind (stays_reads _) fun p => stays_ite ?_ (stays_pure _)
      refine stays_bind (h.putPage _) fun _ => stays_ite (stays_pure _) ?_
      exact stays_bind (h.cursorBucket _ _) fun _ => ih _

theorem skipFirst (maxBucket fuel : Nat) (crs : Crs) : Stays adm P (skipFirst maxBucket fuel crs) := by
  induction fuel generalizing crs with
  | zero => exact triple_halt _
  | succ fuel ih =>
    unfold Htab.skipFirst
    split
    · exact stays_pure _
    · refine stays_bind (stays_reads _) fun p => stays_ite ?_ (stays_ite ?_ (stays_pure _))
      · refine stays_bind (h.putPage _) fun _ => ?_
        exact stays_bind (h.cursorBucket _ _) fun _ => ih _
      · exact stays_bind (h.putPage _) fun _ => stays_pure _

theorem skipLast (fuel : Nat) (crs : Crs) : Stays adm P (skipLast fuel crs) := by
  induction fuel generalizing crs with
  | zero => exact triple_halt _
  | succ fuel ih =>
    unfold Htab.skipLast
    split
    · exact stays_pure _
    · refine stays_bind (stays_reads _) fun p => stays_ite ?_ (stays_pure _)
      refine stays_bind (h.putPage _) fun _ => stays_bind (h.cursorBucket _ _) fun crs => ?_
      split
      · exact stays_pure _
      · refine stays_bind (stays_reads _) fun p => stays_ite ?_ (ih _)
        exact stays_bind (h.putPage _) fun _ => stays_pure _

theorem cursorFirst (crs : Crs) : Stays adm P (cursorFirst crs) := by
  refine stays_bind (h.releaseCursor _) fun _ => stays_bind stays_read fun hashp => ?_
  refine stays_bind (h.cursorBucket _ _) fun start => ?_
  exact stays_bind (h.skipFirst _ _ _) fun _ => stays_pure _

theorem cursorLast (crs : Crs) : Stays adm P (cursorLast crs) := by
  refine stays_bind (h.releaseCursor _) fun _ => stays_bind stays_read fun hashp => ?_
  refine stays_bind (h.cursorBucket _ _) fun start => ?_
  exact stays_bind (h.skipLast _ _) fun _ => stays_pure _

theorem cursorOvfl (crs : Crs) (nextp : Nat) : Stays adm P (cursorOvfl crs nextp) := by
  refine stays_bind (h.getPage _ _ h.bare) fun r => ?_
  split
  · exact stays_pure _
  · exact stays_pure _

omit h in
theorem settledNext (crs : Crs) (place : Place) : Stays adm P (match place with
    | .at crs => pure (.at { crs with pgndx := 0 })
    | place => pure (place.settle crs false) : Run Place) := by
  split
  · exact stays_pure _
  · exact stays_pure _

theorem cursorNext (crs : Crs) : Stays adm P (cursorNext crs) := by
  unfold Htab.cursorNext
  split
  · exact triple_halt _
  · refine stays_bind stays_read fun hashp => stays_bind (stays_reads _) fun p => ?_
    refine stays_ite (stays_bind (h.putPage _) fun _ => ?_) (stays_pure _)
    refine stays_ite (stays_pure _) (stays_ite ?_ ?_)
    · exact stays_bind (h.cursorBucket _ _) fun _ => stays_bind (h.skipEmpty _ _ _ _) (settledNext _)
    · exact stays_bind (h.cursorOvfl _ _) (settledNext _)

omit h in
theorem settledPrev (crs : Crs) (place : Place) : Stays adm P (match place with
    | .at crs =>
      match crs.pagep with
      | none => Prog.halt .segv
      | some pagep => do
        let p ← Htab.page pagep
        pure (.at { crs with pgndx := (p.numEnt + 65535) % 65536 })
    | place => pure (place.settle crs false) : Run Place) := by
  split
  · split
    · exact triple_halt _
    · exact stays_bind (stays_reads _) fun _ => stays_pure _
  · exact stays_pure _

theorem cursorPrev (crs : Crs) : Stays adm P (cursorPrev crs) := by
  unfold Htab.cursorPrev
  split
  · exact triple_halt _
  · refine stays_bind (stays_reads _) fun p => stays_ite ?_ (stays_pure _)
    refine stays_bind (h.putPage _) fun _ => stays_ite (stays_pure _) (stays_ite ?_ ?_)
    · refine stays_bind (h.cursorBucket _ _) fun crs => stays_ite ?_ ?_
      · exact stays_bind (triple_halt _) (settledPrev _)
      · exact stays_bind (h.skipEmpty _ _ _ _) (settledPrev _)
    · exact stays_bind (h.cursorOvfl _ _) (settledPrev _)

theorem cursorRead (crs : Crs) (keyRoom : Nat) (dataRoom : Option Nat) :
    Stays adm P (cursorRead crs keyRoom dataRoom) := by
  unfold Htab.cursorRead
  split
  · exact triple_halt _
  · refine stays_bind (stays_reads _) fun p => stays_ite (stays_pure _) ?_
    split
    · exact stays_pure _
    · exact stays_bind (h.getItem _ _ _ _ _) fun _ => stays_pure _

theorem delivered (keyRoom : Nat) (dataRoom : Option Nat) (place : Place) : Stays adm P (match place with
    | .failed crs => pure (-1, crs, [], [])
    | .notFound crs => pure (ffdbNotFound, crs, [], [])
    | .at crs => do
      let r ← Htab.cursorRead crs keyRoom dataRoom
      pure (r.1, crs, r.2.1, r.2.2) : Run (Int × Crs × List UInt8 × List UInt8)) := by
  split
  · exact stays_pure _
  · exact stays_pure _
  · exact stays_bind (h.cursorRead _ _ _) fun _ => stays_pure _

theorem cursorFindByKey (crs : Crs) (keyRoom : Nat) (dataRoom : Option Nat) (flags : Nat) :
    Stays adm P (cursorFindByKey crs keyRoom dataRoom flags) := by
  have finish := h.delivered keyRoom dataRoom
  refine stays_ite (stays_bind (h.cursorFirst _) finish) (stays_ite ?_ (stays_ite ?_ ?_))
  · exact stays_bind (h.cursorLast _) finish
  · exact stays_bind (h.cursorNext _) finish
  · exact stays_bind (h.cursorPrev _) finish

theorem cursorGet (crs : Crs) (keyRoom : Nat) (dataRoom : Option Nat) (flags : Nat) :
    Stays adm P (cursorGet crs keyRoom dataRoom flags) :=
  stays_ite (stays_pure _) (stays_ite (h.cursorFindByKey _ _ _ _) (stays_pure _))

end Cursors

end Mild

/-- The calls on pages keep `P`, and so do the changes to fields that go with them. -/
structure Tame (adm : Event → Prop) (P : Htab → Prop) : Prop where
  note : ∀ hashp fetches held, P hashp → P { hashp with fetches := fetches, held := held }
  splitBuf : ∀ hashp buf, P hashp → P { hashp with splitBuf := buf }
  currDpage : ∀ hashp p, P hashp → P { hashp with currDpage := p }
  spares : ∀ hashp level p, P hashp → P (setSpares level p hashp)
  freePages : ∀ hashp level p, P hashp → P (setFreePages level p hashp)
  store : ∀ mem f, Stays adm P (store mem f)
  get : ∀ p flags, flags.new = false → Stays adm P (pool (Pagepool.getPage self p flags))
  put : ∀ mem dirty, Stays adm P (pool (Pagepool.putPage mem dirty))

namespace Tame

variable {adm : Event → Prop} {P : Htab → Prop} (h : Tame adm P)
include h

theorem mild : Mild adm PageFlags.Plain P :=
  ⟨h.note, h.store, ⟨rfl, rfl, rfl⟩, fun p flags plain => h.get p flags plain.1, fun mem => h.put mem false⟩

section Pages

theorem fails : Stays adm P fails := h.mild.fails

theorem leak (mem : Nat) (why : Leak) : Stays adm P (leak mem why) := h.mild.leak mem why

theorem initPage (mem n ty : Nat) : Stays adm P (initPage mem n ty) := h.mild.initPage mem n ty

theorem fetch (p : Nat) {flags : PageFlags} (old : flags.new = false) : Stays adm P (fetch p flags) := by
  refine stays_bind (Mild.noteAgain p) fun _ => stays_bind (h.get p flags old) fun r => ?_
  cases r with
  | page mem => exact stays_bind (stays_modify fun hashp => h.note hashp _ _) fun _ => stays_pure _
  | wait mem => exact triple_halt _
  | error => exact stays_pure _

theorem getPage (addr ty : Nat) {flags : PageFlags} (old : flags.new = false) :
    Stays adm P (getPage addr ty flags) := by
  refine stays_bind (Mild.address addr ty) fun p => stays_bind h.fails fun failed => ?_
  refine stays_ite (stays_pure _) (stays_bind (h.fetch p old) fun r => ?_)
  cases r with
  | none => exact stays_pure _
  | some mem =>
    refine stays_bind (stays_reads _) fun _ => stays_ite ?_ (stays_pure _)
    exact stays_bind (h.initPage mem p ty) fun _ => stays_bind (Mild.noteSlip mem _) fun _ => stays_pure _

theorem putPage (mem : Nat) (dirty : Bool) : Stays adm P (putPage mem dirty) :=
  stays_bind (h.put mem dirty) fun _ => stays_modify fun hashp => h.note hashp _ _

end Pages

section Numbers

theorem reuseFreeOvflpage : Stays adm P reuseFreeOvflpage := by
  refine stays_bind stays_read fun hashp => ?_
  refine stays_ite (stays_pure _) (stays_bind (h.getPage _ _ rfl) fun r => ?_)
  split
  · exact triple_halt _
  · refine stays_bind (stays_reads _) fun p => stays_ite ?_ ?_
    · exact stays_bind (h.store _ _) fun _ => stays_bind (h.putPage _ _) fun _ => stays_pure _
    · refine stays_bind (h.putPage _ _) fun _ => ?_
      exact stays_bind (stays_modify fun hashp => h.freePages hashp _ _) fun _ => stays_pure _

theorem startLevel (level : Nat) : Stays adm P (startLevel level) := by
  refine stays_bind (stays_modify fun hashp pre => ?_) fun _ => stays_modify fun hashp pre => ?_
  · split
    · exact h.currDpage hashp _ pre
    · exact pre
  · split
    · exact h.spares hashp _ _ pre
    · exact pre

theorem nextPage (level : Nat) : Stays adm P (nextPage level) := by
  refine stays_bind h.reuseFreeOvflpage fun num => ?_
  refine stays_ite (stays_pure _) (stays_bind stays_read fun hashp => ?_)
  exact stays_bind (stays_modify fun hashp => h.spares hashp _ _) fun _ => stays_pure _

theorem dataPage (newPage : Bool) : Stays adm P (dataPage newPage) := by
  refine stays_bind stays_read fun hashp => stays_bind (h.startLevel _) fun _ => ?_
  refine stays_ite ?_ (stays_bind stays_read fun _ => stays_pure _)
  refine stays_bind (h.nextPage _) fun r => ?_
  exact stays_bind (stays_modify fun hashp => h.currDpage hashp _) fun _ => stays_pure _

theorem ovflPage : Stays adm P ovflPage :=
  stays_bind stays_read fun _ => stays_bind (h.startLevel _) fun _ => h.nextPage _

theorem lastDataPage (fuel p : Nat) : Stays adm P (lastDataPage fuel p) := h.mild.lastDataPage fuel p

end Numbers

section Data

theorem addTail (bsize : Nat) (val : Dbt) (fuel currp : Nat) (reuse : Bool) (prevp rlen : Nat) :
    Stays adm P (addTail bsize val fuel currp reuse prevp rlen) := by
  induction fuel generalizing currp reuse prevp rlen with
  | zero => exact triple_halt _
  | succ fuel ih =>
    refine stays_ite (stays_pure _) (stays_bind (h.getPage _ _ rfl) fun r => ?_)
    split
    · exact stays_pure _
    · have rest : ∀ mem, Stays adm P (do
          Htab.store mem (tailPage bsize val rlen prevp)
          let rest := rlen - tailLen bsize rlen
          if rest = 0 then
            Htab.putPage mem true
            pure 0
          else
            let r ← Htab.dataPage true
            Htab.store mem fun p => p.setNextPgno r.1
            Htab.putPage mem true
            Htab.addTail bsize val fuel r.1 r.2 currp rest) := by
        intro mem
        refine stays_bind (h.store _ _) fun _ => stays_ite ?_ ?_
        · exact stays_bind (h.putPage _ _) fun _ => stays_pure _
        · refine stays_bind (h.dataPage _) fun r => stays_bind (h.store _ _) fun _ => ?_
          exact stays_bind (h.putPage _ _) fun _ => ih _ _ _ _
      exact stays_ite (stays_bind (h.initPage _ _ _) fun _ => rest _) (rest _)

theorem openDataPage (mem pnum : Nat) : Stays adm P (openDataPage mem pnum) := by
  refine stays_bind (stays_reads _) fun p => stays_ite ?_ (stays_pure _)
  refine stays_bind (h.dataPage _) fun r => stays_bind (h.getPage _ _ rfl) fun got => ?_
  split
  · exact stays_bind (h.putPage _ _) fun _ => stays_pure _
  · refine stays_ite (stays_bind (h.initPage _ _ _) fun _ => ?_) ?_
    all_goals
      refine stays_bind (h.store _ _) fun _ => stays_bind (h.store _ _) fun _ => ?_
      refine stays_bind (Mild.noteSlip _ _) fun _ => stays_bind (h.putPage _ _) fun _ => ?_
      exact stays_bind (stays_reads _) fun _ => stays_pure _

theorem addData (keyPage keyIdx : Nat) (val : Dbt) (mem pnum : Nat) (datap : Datap) :
    Stays adm P (addData keyPage keyIdx val mem pnum datap) := by
  refine stays_bind (h.openDataPage _ _) fun opened => ?_
  split
  · exact stays_pure _
  · refine stays_bind stays_read fun hashp => stays_ite (triple_halt _) (stays_ite ?_ ?_)
    · exact stays_bind (h.store _ _) fun _ => stays_bind (h.putPage _ _) fun _ => stays_pure _
    · refine stays_bind (h.store _ _) fun _ => stays_bind (h.dataPage _) fun r => ?_
      refine stays_bind (h.addTail _ _ _ _ _ _ _) fun status => stays_ite (stays_pure _) ?_
      exact stays_bind (h.store _ _) fun _ => stays_bind (h.putPage _ _) fun _ => stays_pure _

theorem replaceTail (bsize : Nat) (val : Dbt) (fuel currp rlen : Nat) :
    Stays adm P (replaceTail bsize val fuel currp rlen) := by
  induction fuel generalizing currp rlen with
  | zero => exact triple_halt _
  | succ fuel ih =>
    refine stays_ite (stays_pure _) (stays_bind (h.getPage _ _ rfl) fun r => ?_)
    split
    · exact stays_pure _
    · refine stays_bind (h.store _ _) fun _ => stays_bind (stays_reads _) fun _ => ?_
      exact stays_bind (h.putPage _ _) fun _ => ih _ _

theorem replaceData (val : Dbt) (mem : Nat) (datap : Datap) : Stays adm P (replaceData val mem datap) := by
  refine stays_bind stays_read fun hashp => stays_bind (h.store _ _) fun _ => ?_
  refine stays_ite (triple_halt _) (stays_ite ?_ ?_)
  · exact stays_bind (h.store _ _) fun _ => stays_bind (h.putPage _ _) fun _ => stays_pure _
  · refine stays_bind (h.store _ _) fun _ => stays_bind (stays_reads _) fun _ => ?_
    refine stays_bind (h.replaceTail _ _ _ _ _) fun status => stays_ite (stays_pure _) ?_
    exact stays_bind (h.putPage _ _) fun _ => stays_pure _

theorem updateDataInfo (datap : Datap) (kpage kpgindx : Nat) :
    Stays adm P (updateDataInfo datap kpage kpgindx) := by
  refine stays_bind stays_read fun hashp => stays_bind (h.getPage _ _ rfl) fun r => ?_
  split
  · exact stays_pure _
  · exact stays_bind (h.store _ _) fun _ => stays_bind (h.putPage _ _) fun _ => stays_pure _

end Data

section Pairs

theorem addItemOnPage (pagep pgno : Nat) (key val : Dbt) (chksum : Nat) :
    Stays adm P (addItemOnPage pagep pgno key val chksum) := by
  refine stays_bind (stays_reads _) fun p => stays_bind (h.store _ _) fun _ => ?_
  refine stays_bind (h.dataPage _) fun fpage => stays_bind (h.getPage _ _ rfl) fun r => ?_
  split
  · exact stays_pure _
  · refine stays_bind (h.addData _ _ _ _ _ _) fun r => stays_ite (stays_pure _) ?_
    exact stays_bind (h.store _ _) fun _ => stays_pure _

theorem replaceItemOnPage (pagep pgndx : Nat) (val : Dbt) (chksum : Nat) :
    Stays adm P (replaceItemOnPage pagep pgndx val chksum) := by
  refine stays_bind stays_read fun hashp => stays_bind (stays_reads _) fun p => ?_
  refine stays_ite (stays_pure _) (stays_bind (h.getPage _ _ rfl) fun r => ?_)
  split
  · exact stays_pure _
  · refine stays_ite (stays_bind (stays_mark _) fun _ => ?_) ?_
    all_goals
      refine stays_bind (h.store _ _) fun _ => stays_bind (h.replaceData _ _ _) fun status => ?_
      exact stays_ite (stays_pure _) (stays_pure _)

theorem addPair (key val : Dbt) (item : Hent) (replace : Bool) :
    Stays adm P (addPair key val item replace) := by
  refine stays_ite (stays_bind (h.replaceItemOnPage _ _ _ _) fun status => ?_)
    (stays_bind (h.addItemOnPage _ _ _ _ _) fun status => ?_)
  all_goals exact stays_bind (h.putPage _ _) fun _ => stays_pure _

theorem chainPage (prevp pagep : Nat) : Stays adm P (chainPage prevp pagep) := by
  refine stays_bind h.ovflPage fun r => stays_bind (h.getPage _ _ rfl) fun got => ?_
  split
  · exact stays_pure _
  · refine stays_ite (stays_bind (h.initPage _ _ _) fun _ => ?_) ?_
    all_goals exact stays_bind (h.store _ _) fun _ => stays_bind (h.store _ _) fun _ => stays_pure _

theorem addOvflpage (key val : Dbt) (item : Hent) : Stays adm P (addOvflpage key val item) := by
  refine stays_bind (h.chainPage _ _) fun r => ?_
  split
  · exact stays_bind (h.putPage _ _) fun _ => stays_pure _
  · refine stays_bind (h.addItemOnPage _ _ _ _ _) fun status => ?_
    exact stays_bind (h.putPage _ _) fun _ => stays_bind (h.putPage _ _) fun _ => stays_pure _

theorem writeKeyDatapToPage (key : Dbt) (datap : Datap) (pagep pgno : Nat) :
    Stays adm P (writeKeyDatapToPage key datap pagep pgno) := by
  refine stays_bind (stays_reads _) fun p => stays_bind (h.store _ _) fun _ => ?_
  refine stays_bind (h.store _ _) fun _ => stays_bind (h.updateDataInfo _ _ _) fun _ => ?_
  exact stays_bind (h.store _ _) fun _ => stays_pure _

theorem addToChain (key : Dbt) (datap : Datap) (fuel pagep pgno : Nat) :
    Stays adm P (addToChain key datap fuel pagep pgno) := by
  induction fuel generalizing pagep pgno with
  | zero => exact triple_halt _
  | succ fuel ih =>
    refine stays_bind (stays_reads _) fun p => stays_ite ?_ (stays_ite (stays_pure _) ?_)
    · refine stays_bind (h.writeKeyDatapToPage _ _ _ _) fun _ => ?_
      exact stays_bind (h.putPage _ _) fun _ => stays_pure _
    · refine stays_bind (h.getPage _ _ rfl) fun r => ?_
      split
      · exact stays_bind (h.putPage _ _) fun _ => stays_pure _
      · exact stays_bind (h.putPage _ _) fun _ => ih _ _

theorem addKeyDatapToBucket (key : Dbt) (datap : Datap) (bucket : Nat) :
    Stays adm P (addKeyDatapToBucket key datap bucket) := by
  refine stays_bind (h.getPage _ _ rfl) fun r => ?_
  split
  · exact stays_pure _
  · refine stays_bind (h.addToChain _ _ _ _ _) fun room => ?_
    cases room with
    | added => exact stays_pure _
    | error => exact stays_pure _
    | full pagep pgno =>
      refine stays_bind (h.chainPage _ _) fun r => ?_
      split
      · exact stays_bind (h.putPage _ _) fun _ => stays_pure _
      · refine stays_bind (h.putPage _ _) fun _ => ?_
        refine stays_bind (h.writeKeyDatapToPage _ _ _ _) fun _ => ?_
        exact stays_bind (h.putPage _ _) fun _ => stays_pure _

theorem mapChain (bsize opage fuel fpagep fpage : Nat) :
    Stays adm P (mapChain bsize opage fuel fpagep fpage) := by
  induction fuel generalizing fpagep fpage with
  | zero => exact triple_halt _
  | succ fuel ih =>
    refine stays_bind (stays_reads _) fun p => stays_ite ?_ (stays_ite (stays_pure _) ?_)
    · exact stays_bind (h.store _ _) fun _ => stays_bind (h.putPage _ _) fun _ => stays_pure _
    · refine stays_bind (h.getPage _ _ rfl) fun r => ?_
      split
      · exact stays_bind (h.putPage _ _) fun _ => stays_pure _
      · exact stays_bind (h.putPage _ _) fun _ => ih _ _

theorem freeOvflpage (memp : Nat) : Stays adm P (freeOvflpage memp) := by
  refine stays_bind stays_read fun hashp => stays_bind (stays_reads _) fun p => ?_
  refine stays_ite (triple_halt _) (stays_ite ?_ ?_)
  · refine stays_bind (stays_modify fun hashp => h.freePages hashp _ _) fun _ => ?_
    exact stays_bind (h.initPage _ _ _) fun _ => stays_pure _
  · refine stays_bind (h.getPage _ _ rfl) fun r => ?_
    split
    · exact triple_halt _
    · refine stays_bind (h.mapChain _ _ _ _ _) fun last => ?_
      split
      · exact stays_pure _
      · refine stays_bind (h.initPage _ _ _) fun _ => stays_bind (h.store _ _) fun _ => ?_
        refine stays_bind (h.store _ _) fun _ => stays_bind (Mild.noteSlip _ _) fun _ => ?_
        exact stays_bind (h.putPage _ _) fun _ => stays_pure _

omit h in
theorem splitPage (temp : Option Nat) : Stays adm P (splitPage temp) := by
  cases temp with
  | none => exact stays_reads _
  | some pagep => exact stays_reads _

theorem splitSlots (oldbucket newbucket : Nat) (temp : Option Nat) (fuel i : Nat) :
    Stays adm P (splitSlots oldbucket newbucket temp fuel i) := by
  induction fuel generalizing i with
  | zero => exact triple_halt _
  | succ fuel ih =>
    refine stays_bind (splitPage _) fun p => stays_ite ?_ (stays_pure _)
    refine stays_bind (stays_reads _) fun bucket => ?_
    exact stays_bind (h.addKeyDatapToBucket _ _ _) fun _ => ih _

end Pairs

section Searches

theorem findItem (bucket : Nat) (key : Dbt) (val : Option Dbt) : Stays adm P (findItem bucket key val) :=
  h.mild.findItem ⟨rfl, rfl, rfl⟩ bucket key val

theorem getItem (pagep pgno pgndx room : Nat) (freepage : Bool) :
    Stays adm P (getItem pagep pgno pgndx room freepage) := h.mild.getItem pagep pgno pgndx room freepage

end Searches

section Cursors

theorem releaseCursor (crs : Crs) : Stays adm P (releaseCursor crs) := h.mild.releaseCursor crs

theorem cursorGet (crs : Crs) (keyRoom : Nat) (dataRoom : Option Nat) (flags : Nat) :
    Stays adm P (cursorGet crs keyRoom dataRoom flags) := h.mild.cursorGet crs keyRoom dataRoom flags

end Cursors

section Moves

theorem updateDataPagesContent (pagep oldpage newpage : Nat) (m : Move) (fuel i : Nat) :
    Stays adm P (updateDataPagesContent pagep oldpage newpage m fuel i) := by
  induction fuel generalizing i with
  | zero => exact triple_halt _
  | succ fuel ih =>
    refine stays_bind stays_read fun hashp => stays_bind (stays_reads _) fun p => ?_
    refine stays_ite (stays_ite (ih _) (stays_bind (h.getPage _ _ rfl) fun r => ?_)) (stays_pure _)
    split
    · exact stays_pure _
    · refine stays_bind (stays_reads _) fun d => stays_ite (triple_halt _) ?_
      exact stays_bind (h.store _ _) fun _ => stays_bind (h.putPage _ _) fun _ => ih _

theorem updateKeyPagesContent (pagep oldpage newpage : Nat) (m : Move) (fuel i next : Nat) :
    Stays adm P (updateKeyPagesContent pagep oldpage newpage m fuel i next) := by
  induction fuel generalizing i next with
  | zero => exact triple_halt _
  | succ fuel ih =>
    refine stays_bind (stays_reads _) fun p => stays_ite ?_ (stays_pure _)
    refine stays_bind (h.getPage _ _ rfl) fun r => ?_
    split
    · exact stays_pure _
    · refine stays_bind (stays_reads _) fun k => stays_ite (triple_halt _) ?_
      refine stays_bind (h.store _ _) fun _ => stays_ite (stays_bind (h.store _ _) fun _ => ?_) ?_
      all_goals exact stays_bind (h.putPage _ _) fun _ => ih _ _

theorem relink (pagep neighbour rpage : Nat) (m : Move) (tell link : Nat → Page → Page) :
    Stays adm P (relink pagep neighbour rpage m tell link) := by
  refine stays_ite (stays_bind (h.store _ _) fun _ => stays_pure _) ?_
  refine stays_bind (h.getPage _ _ rfl) fun r => ?_
  split
  · exact stays_bind (h.putPage _ _) fun _ => stays_pure _
  · exact stays_bind (h.store _ _) fun _ => stays_bind (h.putPage _ _) fun _ => stays_pure _

theorem updateContent (type pagep pgno rpage : Nat) (m : Move) :
    Stays adm P (updateContent type pagep pgno rpage m) := by
  refine stays_ite (stays_bind (stays_reads _) fun p => ?_) (stays_ite ?_ (stays_pure _))
  · exact h.updateKeyPagesContent _ _ _ _ _ _ _
  · exact h.updateDataPagesContent _ _ _ _ _ _

end Moves

section Opens

theorem lockPages (addrtype npages p : Nat) : Stays adm P (lockPages addrtype npages p) := by
  induction npages generalizing p with
  | zero => exact stays_pure _
  | succ npages ih =>
    refine stays_bind stays_read fun hashp => stays_bind (h.getPage _ _ rfl) fun r => ?_
    split
    · exact triple_halt _
    · exact stays_bind (h.putPage _ _) fun _ => ih _

end Opens

end Tame
end Htab
end FileHash
