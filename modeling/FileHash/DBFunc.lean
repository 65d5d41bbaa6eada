import FileHash.Ensemble
import FileHash.Hash

/-! `DBFunc.h` and `DBFunc.cpp`: what the classes do on an open database. Keys and data go in and
out as strings of bytes. A `noexcept (false)` function comes to a value or to an exception. -/
namespace FileHash.DBFunc

open Lib (Prog)
open Htab (Crs)

inductive Thrown where
  | serialize
  | fileHashDB (cls reason : String)
  deriving DecidableEq

structure Scanned (α : Type) where
  pushed : List α
  thrown : Option Thrown
  left : Option Crs

abbrev BinaryPair := List UInt8 × List UInt8

variable {κ α : Type}

def insertBinaryData (key data : List UInt8) : Run Int := Htab.hashPut (Dbt.ofBytes key) (Dbt.ofBytes data) 0

def getBinaryData (key : List UInt8) : Run (Except Int (List UInt8)) := do
  let r ← Htab.hashGet (Dbt.ofBytes key) 0
  if r.1 = 0 then pure (.ok r.2) else pure (.error r.1)

def insertData (ck : Serializable κ) (cd : Serializable α) (key : κ) (data : α) : Run (Except Thrown Int) :=
  match ck.writeObject key, cd.writeObject data with
  | some keyObj, some dataObj => do
    let ret ← insertBinaryData keyObj dataObj
    pure (.ok ret)
  | _, _ => pure (.error .serialize)

def getData (ck : Serializable κ) (cd : Serializable α) (key : κ) : Run (Except Thrown (Except Int α)) :=
  match ck.writeObject key with
  | none => pure (.error .serialize)
  | some keyObj => do
    match ← getBinaryData keyObj with
    | .error ret => pure (.ok (.error ret))
    | .ok dataObj =>
      match cd.readObject dataObj with
      | none => pure (.error .serialize)
      | some data => pure (.ok (.ok data))

def keyExist (ck : Serializable κ) (arg : κ) : Run (Except Thrown Bool) :=
  match ck.writeObject arg with
  | none => pure (.error .serialize)
  | some keyObj => do
    match ← getBinaryData keyObj with
    | .error _ => pure (.ok false)
    | .ok _ => pure (.ok true)

/-- The loop over `FFDB_NEXT`: each pair is made an object, which may throw, and is appended. -/
def scanLoop (error : Thrown) (dataRoom : Option Nat) (convert : BinaryPair → Option α) (onlyOne : Bool) :
    Nat → Crs → Run (Scanned α × Crs)
  | 0, _ => Prog.halt .diverge
  | fuel + 1, crs => do
    let r ← Htab.cursorCall crs 0 dataRoom ffdbNext
    if r.1 = 0 then
      match convert r.2.2 with
      | none => pure (⟨[], some .serialize, none⟩, r.2.1)
      | some object =>
        if onlyOne then pure (⟨[object], none, none⟩, r.2.1)
        else
          let rest ← scanLoop error dataRoom convert onlyOne fuel r.2.1
          pure ({ rest.1 with pushed := object :: rest.1.pushed }, rest.2)
    else if r.1 = ffdbNotFound then pure (⟨[], none, none⟩, r.2.1)
    else pure (⟨[], some error, none⟩, r.2.1)

def scan (error : Thrown) (dataRoom : Option Nat) (convert : BinaryPair → Option α) (onlyOne : Bool)
    (fuel : Nat) : Run (Scanned α) := do
  let r ← scanLoop error dataRoom convert onlyOne fuel (Htab.hashCursor true)
  match r.1.thrown with
  | some thrown => pure ⟨r.1.pushed, some thrown, some r.2⟩
  | none =>
    Htab.cursorCloseCall r.2
    pure r.1

def binaryAllKeys : Nat → Run (Scanned (List UInt8)) :=
  scan (.fileHashDB "DBFunc binaryAllKeys" "Cursor Next Error") (some 0) (fun x => some x.1) false

def binaryAllPairs : Nat → Run (Scanned BinaryPair) :=
  scan (.fileHashDB "DBFunc binaryAllPairs" "Cursor Next Error") (some 0) some false

def allKeys (ck : Serializable κ) : Nat → Run (Scanned κ) :=
  scan (.fileHashDB "DBFunc AllKeys" "Cursor next error") none (fun x => ck.readObject x.1) false

def readPair (ck : Serializable κ) (cd : Serializable α) (x : BinaryPair) : Option (κ × α) := do
  let arg ← ck.readObject x.1
  let d ← cd.readObject x.2
  pure (arg, d)

def allPairs (ck : Serializable κ) (cd : Serializable α) (onlyOne : Bool) : Nat → Run (Scanned (κ × α)) :=
  scan (.fileHashDB "DBFunc AllPairs" "Cursor Next Error") (some 0) (readPair ck cd) onlyOne

def allPairsWithBinaryKeys (cd : Serializable α) : Nat → Run (Scanned (List UInt8 × α)) :=
  scan (.fileHashDB "DBFunc AllPairs" "Cursor Next Error") (some 0) (readPair binaryForm cd) false

def isDatabaseEmpty : Run (Except Thrown Bool × Option Crs) := do
  let r ← Htab.cursorCall (Htab.hashCursor true) 0 (some 0) ffdbNext
  if r.1 = 0 then
    Htab.cursorCloseCall r.2.1
    pure (.ok false, none)
  else if r.1 = ffdbNotFound then
    Htab.cursorCloseCall r.2.1
    pure (.ok true, none)
  else pure (.error (.fileHashDB "DBFunc isDatabaseEmpty" "cursor first error"), some r.2.1)

def flushDatabase : Run Unit := Htab.hashSync

end FileHash.DBFunc
