import FileHash.DBFunc
import FileHash.Lib.Counted

/-! `DBCursor.h` and `DBCursor.cpp`: cursors shared by counting, and the iterator over keys. A
`DBCursorRep` is named by its place among those made so far, and a `DBCursor` is such a name. -/
namespace FileHash

open Lib (Prog)
open Htab (Crs)

/-- `count_`, and `cursor_` where there is one. -/
abbrev DBCursorRep := Lib.Cell (Option Crs)

abbrev DBCursorReps := Lib.Cells (Option Crs)

namespace DBCursor

variable {κ : Type}

/-- To use a `DBCursorRep` that was deleted is not defined. -/
def alive {α : Type} : Option α → Run α
  | none => Prog.halt .segv
  | some a => pure a

def copy (reps : DBCursorReps) (c : Nat) : Run DBCursorReps := alive (reps.share c)

/-- `~DBCursorRep`. -/
def deleteRep : Option (Option Crs) → Run Unit
  | some (some crs) => Htab.cursorCloseCall crs
  | _ => pure ()

def destroy (reps : DBCursorReps) (c : Nat) : Run DBCursorReps := do
  let r ← alive (reps.release c)
  deleteRep r.1
  pure r.2

/-- `operator =` to another `DBCursor`: its count goes up before the old one goes down. -/
def assign (reps : DBCursorReps) (own c : Nat) : Run DBCursorReps := do
  let reps ← copy reps c
  destroy reps own

/-- `cursor ()`. -/
def cursor (reps : DBCursorReps) (c : Nat) : Run (Option Crs) := do
  let rep ← alive (reps.cell c)
  pure rep.item

end DBCursor

/-- `DBKeyIterator`; the cursor is shared between an iterator and its copies. -/
structure DBKeyIterator (κ : Type) where
  cursor_ : Nat
  keyvalue_ : κ
  endflag_ : Int

namespace DBKeyIterator

variable {κ : Type}

/-- An iterator made from a temporary `DBCursor`, which is destroyed afterwards. -/
def new (reps : DBCursorReps) (cursor : Option Crs) (arg : κ) (endflag : Int) :
    Run (DBCursorReps × DBKeyIterator κ) := do
  let temp := reps.make cursor
  let reps ← DBCursor.copy temp.2 temp.1
  let reps ← DBCursor.destroy reps temp.1
  pure (reps, ⟨temp.1, arg, endflag⟩)

/-- `get_next_key`. A key that cannot be read ends the process, and so does any other error. -/
def getNextKey (ck : Serializable κ) (reps : DBCursorReps) (x : DBKeyIterator κ) (crs : Crs) :
    Run (DBCursorReps × DBKeyIterator κ) := do
  let r ← Htab.cursorCall crs 0 (some 0) ffdbNext
  if r.1 = 0 then
    match ck.readObject r.2.2.1 with
    | none =>
      Htab.cursorCloseCall r.2.1
      Prog.halt .exit
    | some mykey =>
      let reps ← DBCursor.alive (reps.put x.cursor_ (some r.2.1))
      pure (reps, { x with keyvalue_ := mykey })
  else if r.1 = ffdbNotFound then
    let reps ← DBCursor.alive (reps.put x.cursor_ (some r.2.1))
    pure (reps, { x with endflag_ := 1 })
  else
    Htab.cursorCloseCall r.2.1
    Prog.halt .exit

/-- `++`, in both its forms. -/
def increment (ck : Serializable κ) (reps : DBCursorReps) (x : DBKeyIterator κ) :
    Run (DBCursorReps × DBKeyIterator κ) := do
  match ← DBCursor.cursor reps x.cursor_ with
  | none => pure (reps, x)
  | some crs => getNextKey ck reps x crs

/-- `==`. -/
def equal [BEq κ] (reps : DBCursorReps) (x y : DBKeyIterator κ) : Run Bool := do
  let c1 ← DBCursor.cursor reps x.cursor_
  let c2 ← DBCursor.cursor reps y.cursor_
  if (c1.isSome ∧ c2.isSome) ∧ x.endflag_ = y.endflag_ then pure (x.keyvalue_ == y.keyvalue_)
  else pure (decide (x.endflag_ = 1 ∧ y.endflag_ = 1))

/-- `init`, and the cursor it lost: an exception leaves it open. `mykey` is the default key. -/
def init (ck : Serializable κ) (mykey : κ) (reps : DBCursorReps) :
    Run (DBCursorReps × DBKeyIterator κ × Option Crs) := do
  let r ← Htab.cursorCall (Htab.hashCursor true) 0 (some 0) ffdbNext
  if r.1 = 0 then
    match ck.readObject r.2.2.1 with
    | none =>
      let made ← new reps none mykey 1
      pure (made.1, made.2, some r.2.1)
    | some key =>
      let made ← new reps (some r.2.1) key 0
      pure (made.1, made.2, none)
  else if r.1 = ffdbNotFound then
    let made ← new reps (some r.2.1) mykey 1
    pure (made.1, made.2, none)
  else Prog.halt .exit

/-- `AllConfStoreDB::end`. -/
def end_ (tmp : κ) (reps : DBCursorReps) : Run (DBCursorReps × DBKeyIterator κ) := new reps none tmp 1

def assign (reps : DBCursorReps) (x y : DBKeyIterator κ) : Run (DBCursorReps × DBKeyIterator κ) := do
  let reps ← DBCursor.assign reps x.cursor_ y.cursor_
  pure (reps, y)

/-- The test `it == end ()`. The end is a temporary. -/
def atEnd [BEq κ] (tmp : κ) (reps : DBCursorReps) (it : DBKeyIterator κ) : Run (Bool × DBCursorReps) := do
  let made ← end_ tmp reps
  let ended ← equal made.1 it made.2
  let reps ← DBCursor.destroy made.1 made.2.cursor_
  pure (ended, reps)

/-- The keys that come by in `for (it = begin (); it != end (); ++it)`, from the test on. -/
def loop [BEq κ] (ck : Serializable κ) (tmp : κ) : Nat → DBCursorReps → DBKeyIterator κ →
    Run (List κ × DBCursorReps × DBKeyIterator κ)
  | 0, _, _ => Prog.halt .diverge
  | fuel + 1, reps, it => do
    let test ← atEnd tmp reps it
    if test.1 then pure ([], test.2, it)
    else
      let next ← increment ck test.2 it
      let rest ← loop ck tmp fuel next.1 next.2
      pure (it.keyvalue_ :: rest.1, rest.2)

/-- The whole loop, and the cursor that `begin` lost. -/
def forEach [BEq κ] (ck : Serializable κ) (tmp : κ) (fuel : Nat) : Run (List κ × Option Crs) := do
  let start ← init ck tmp []
  let r ← loop ck tmp fuel start.1 start.2.1
  let _ ← DBCursor.destroy r.2.1 r.2.2.cursor_
  pure (r.1, start.2.2)

end DBKeyIterator
end FileHash
