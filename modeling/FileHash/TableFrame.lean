import FileHash.PageInvariants

/-! What the routines below the public calls leave alone: they allocate and free pages,
and so change `spares` and `free_pages`, but the masks, the page size, the hash function
and the rest of the table stay as they are. -/
namespace FileHash.Htab

open Lib (Prog)
open Lib.Prog (Keeps Stays keeps_pure keeps_halt keeps_read keeps_reads keeps_mark keeps_modify keeps_zoom
  keeps_bind keeps_ite keeps_of_stays stays_of_keeps)

def fixed (hashp : Htab) :
    Hashhdr × (List UInt8 → Nat) × (Dbt → Dbt → Int) × Bool × Nat × (Nat → Bool) :=
  ({ hashp.hdr with spares := fun _ => 0, freePages := fun _ => 0, hCharkey := 0 },
    hashp.hash, hashp.hCompare, hashp.rdonly, hashp.dataValidFlag, hashp.fault)

theorem keeps_pool {α : Type} (m : Prog Pagepool Event α) : Keeps fixed (pool m) :=
  keeps_zoom m fun _ _ => rfl

theorem tame_fixed (x : Hashhdr × (List UInt8 → Nat) × (Dbt → Dbt → Int) × Bool × Nat × (Nat → Bool)) :
    Tame (fun _ => True) fun hashp => fixed hashp = x where
  note _ _ _ eq := eq
  splitBuf _ _ eq := eq
  currDpage _ _ eq := eq
  spares _ _ _ eq := eq
  freePages _ _ _ eq := eq
  store _ _ := stays_of_keeps (keeps_pool _) x
  get _ _ _ := stays_of_keeps (keeps_pool _) x
  put _ _ := stays_of_keeps (keeps_pool _) x

theorem keeps_getPage (addr ty : Nat) {flags : PageFlags} (old : flags.new = false) :
    Keeps fixed (getPage addr ty flags) := keeps_of_stays fun x => (tame_fixed x).getPage addr ty old

theorem keeps_putPage (mem : Nat) (dirty : Bool) : Keeps fixed (putPage mem dirty) :=
  keeps_of_stays fun x => (tame_fixed x).putPage mem dirty

theorem keeps_newPage (addr ty : Nat) : Keeps fixed (newPage addr ty) := by
  refine keeps_bind (keeps_of_stays fun x => Mild.address addr ty) fun p => ?_
  refine keeps_bind (keeps_of_stays fun x => (tame_fixed x).fails) fun failed => ?_
  refine keeps_ite (keeps_pure _) (keeps_bind ?_ fun _ => ?_)
  · exact keeps_bind keeps_read fun _ => keeps_ite (keeps_mark _) (keeps_pure _)
  refine keeps_bind (keeps_pool _) fun r => keeps_bind (keeps_modify fun _ => rfl) fun _ => ?_
  refine keeps_bind (keeps_of_stays fun x => (tame_fixed x).initPage _ _ _) fun _ => ?_
  exact keeps_bind (keeps_putPage _ _) fun _ => keeps_pure _

theorem keeps_flushMeta : Keeps fixed flushMeta := by
  intro hashp u hashp' run
  simp only [flushMeta, Prog.returns_read_bind] at run
  split at run
  · rw [(Prog.returns_pure.mp run).2]
  · rw [← Prog.returns_modify.mp run]
    rfl

theorem keeps_syncPool : Keeps fixed syncPool := keeps_pool _

theorem keeps_poolDelete (mem : Nat) : Keeps fixed (poolDelete mem) := by
  refine keeps_bind keeps_read fun _ => keeps_bind (keeps_pool _) fun gone => ?_
  refine keeps_ite ?_ (keeps_of_stays fun x => (tame_fixed x).leak mem _)
  exact keeps_bind keeps_read fun _ => keeps_bind (keeps_mark _) fun _ => keeps_modify fun _ => rfl

theorem keeps_deleteOvflPage (pagep : Nat) : Keeps fixed (deleteOvflPage pagep) := by
  refine keeps_bind (keeps_of_stays fun x => (tame_fixed x).freeOvflpage pagep) fun gone => ?_
  refine keeps_ite (keeps_bind (keeps_reads _) fun p => ?_) (keeps_putPage _ _)
  refine keeps_bind (keeps_of_stays fun x => (tame_fixed x).initPage _ _ _) fun _ => ?_
  exact keeps_bind (keeps_of_stays fun x => Mild.noteSlip _ _) fun _ => keeps_poolDelete _

theorem keeps_splitChain (oldbucket newbucket fuel : Nat) (temp : Option Nat) :
    Keeps fixed (splitChain oldbucket newbucket fuel temp) := by
  induction fuel generalizing temp with
  | zero => exact keeps_halt _
  | succ fuel ih =>
    refine keeps_bind (keeps_of_stays fun x => (tame_fixed x).splitSlots _ _ _ _ _) fun _ => ?_
    refine keeps_bind (keeps_of_stays fun x => Tame.splitPage _) fun p => ?_
    cases temp with
    | none =>
      refine keeps_ite (keeps_pure _) (keeps_bind (keeps_getPage _ _ rfl) fun r => ?_)
      split
      · exact keeps_pure _
      · exact ih _
    | some pagep =>
      refine keeps_bind (keeps_deleteOvflPage pagep) fun _ => ?_
      refine keeps_ite (keeps_pure _) (keeps_bind (keeps_getPage _ _ rfl) fun r => ?_)
      split
      · exact keeps_pure _
      · exact ih _

theorem keeps_splitBucket (oldbucket newbucket : Nat) : Keeps fixed (splitBucket oldbucket newbucket) := by
  refine keeps_bind (keeps_getPage _ _ rfl) fun r => ?_
  split
  · exact keeps_pure _
  · refine keeps_bind (keeps_reads _) fun p => keeps_bind (keeps_modify fun _ => rfl) fun _ => ?_
    refine keeps_bind (keeps_of_stays fun x => (tame_fixed x).initPage _ _ _) fun _ => ?_
    exact keeps_bind (keeps_putPage _ _) fun _ => keeps_splitChain _ _ _ _

end FileHash.Htab
