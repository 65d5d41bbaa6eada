import FileHash.CustodyRuns
import FileHash.DBCursor

/-! Whole uses of a database through its classes: any sequence of stores, reads, scans and moves of
iterators, with the exceptions they end in. The pages that stay pinned are those of the cursors
that iterators share, and of the cursors that an exception has kept from being closed. -/
namespace FileHash

open Lib (Prog)
open Lib.Prog (guarded_mono guarded_bind guarded_pure)
open Htab (Crs Custody Keeping Orderly SetUp openHolds)
open DBFunc (Thrown Scanned BinaryPair)

variable {careful : Bool} {H : List Hold} {κ α : Type} {crs : Crs}

structure Objects (κ : Type) where
  lost : List Crs
  reps : DBCursorReps
  iters : List (DBKeyIterator κ)

/-- What it may do with an open database. Iterators are named by their place. -/
inductive Call (κ : Type) : Type 1 where
  | insertData {α β : Type} (ck : Serializable α) (cd : Serializable β) (key : α) (data : β)
  | getData {α β : Type} (ck : Serializable α) (cd : Serializable β) (key : α)
  | keyExist {α : Type} (ck : Serializable α) (arg : α)
  | scan {α : Type} (error : Thrown) (dataRoom : Option Nat) (convert : BinaryPair → Option α) (onlyOne : Bool)
      (fuel : Nat)
  | isDatabaseEmpty
  | flushDatabase
  | begin_ (ck : Serializable κ) (mykey : κ)
  | end_ (tmp : κ)
  | copy (place : Nat)
  | assign (place source : Nat)
  | increment (ck : Serializable κ) (place : Nat)
  | destroy (place : Nat)

namespace Objects

def cursors (o : Objects κ) : List Crs := o.reps.items.reduceOption ++ o.lost

def lose (o : Objects κ) (left : Option Crs) : Objects κ := { o with lost := left.toList ++ o.lost }

/-- Every iterator has its cursor, and every cursor counts its iterators. -/
def Counted (o : Objects κ) : Prop := o.reps.Exact (o.iters.map DBKeyIterator.cursor_)

def After (o : Objects κ) (r : Option Thrown × Objects κ) : Prop :=
  r.2.Counted ∧ r.2.lost.length ≤ o.lost.length + r.1.toList.length

end Objects

def thrownOf : Except Thrown α → Option Thrown
  | .error thrown => some thrown
  | .ok _ => none

/-- The call itself, with its exception instead of its answer. `begin_` catches its own. -/
def Call.run : Call κ → Objects κ → Run (Option Thrown × Objects κ)
  | insertData ck cd key data, o => do
    let r ← DBFunc.insertData ck cd key data
    pure (thrownOf r, o)
  | getData ck cd key, o => do
    let r ← DBFunc.getData ck cd key
    pure (thrownOf r, o)
  | keyExist ck arg, o => do
    let r ← DBFunc.keyExist ck arg
    pure (thrownOf r, o)
  | scan error dataRoom convert onlyOne fuel, o => do
    let r ← DBFunc.scan error dataRoom convert onlyOne fuel
    pure (r.thrown, o.lose r.left)
  | isDatabaseEmpty, o => do
    let r ← DBFunc.isDatabaseEmpty
    pure (thrownOf r.1, o.lose r.2)
  | flushDatabase, o => do
    DBFunc.flushDatabase
    pure (none, o)
  | begin_ ck mykey, o => do
    let r ← DBKeyIterator.init ck mykey o.reps
    pure (r.2.2.map fun _ => .serialize, { o with reps := r.1, iters := r.2.1 :: o.iters }.lose r.2.2)
  | end_ tmp, o => do
    let r ← DBKeyIterator.end_ tmp o.reps
    pure (none, { o with reps := r.1, iters := r.2 :: o.iters })
  | copy place, o =>
    match o.iters[place]? with
    | none => pure (none, o)
    | some x => do
      let reps ← DBCursor.copy o.reps x.cursor_
      pure (none, { o with reps := reps, iters := x :: o.iters })
  | assign place source, o =>
    if place = source then pure (none, o)
    else
      match o.iters[place]?, o.iters[source]? with
      | some x, some y => do
        let r ← DBKeyIterator.assign o.reps x y
        pure (none, { o with reps := r.1, iters := o.iters.set place r.2 })
      | _, _ => pure (none, o)
  | increment ck place, o =>
    match o.iters[place]? with
    | none => pure (none, o)
    | some x => do
      let r ← DBKeyIterator.increment ck o.reps x
      pure (none, { o with reps := r.1, iters := o.iters.set place r.2 })
  | destroy place, o =>
    match o.iters[place]? with
    | none => pure (none, o)
    | some x => do
      let reps ← DBCursor.destroy o.reps x.cursor_
      pure (none, { o with reps := reps, iters := o.iters.eraseIdx place })

/-- The states of a database in use, with the objects of the program, the number of exceptions and
the events so far. -/
inductive ClassUsage (κ : Type) (start : Htab) : Htab → Objects κ → Nat → List Event → Prop
  | opened {hashp : Htab} {t : List Event} (ran : Htab.openPages.run start = (.ok () hashp, t)) :
      ClassUsage κ start hashp ⟨[], [], []⟩ 0 t
  | call {hashp hashp' : Htab} {o : Objects κ} {n : Nat} {t t' : List Event} {r : Option Thrown × Objects κ}
      (before : ClassUsage κ start hashp o n t) (call : Call κ) (ran : (call.run o).run hashp = (.ok r hashp', t')) :
      ClassUsage κ start hashp' r.2 (n + r.1.toList.length) (t ++ t')

namespace Htab.Keeping

theorem after {β : Type} {φ : β → Prop} {K : β → List Hold} {Q : α → Htab → Prop} {m : Run β} {k : β → Run α}
    (first : Keeping careful H m fun b hashp => φ b ∧ Custody careful (K b) hashp)
    (rest : ∀ b, φ b → Keeping careful (K b) (k b) Q) : Keeping careful H (m >>= k) Q := by
  refine guarded_bind first fun b hashp pre good => ?_
  exact rest b pre.1 hashp pre.2 good

section Database

theorem scanLoop (error : Thrown) (dataRoom : Option Nat) (convert : BinaryPair → Option α) (onlyOne : Bool)
    (fuel : Nat) (crs : Crs) : Keeping careful (crs.holds ++ H)
      (DBFunc.scanLoop error dataRoom convert onlyOne fuel crs) fun r hashp =>
        r.1.left = none ∧ Custody careful (r.2.holds ++ H) hashp := by
  induction fuel generalizing crs with
  | zero => exact halt _
  | succ fuel ih =>
    have stop : ∀ (s : Scanned α) (crs : Crs), s.left = none → Keeping careful (crs.holds ++ H) (Pure.pure (s, crs))
        fun r hashp => r.1.left = none ∧ Custody careful (r.2.holds ++ H) hashp := fun s crs none =>
      pure fun _ pre => ⟨none, pre⟩
    refine guarded_bind (cursorCall crs 0 dataRoom ffdbNext) fun r => ite (fun _ => ?_) fun _ => ?_
    · split
      · exact stop _ _ rfl
      · refine ite (fun _ => stop _ _ rfl) fun _ => guarded_bind (ih _) fun rest => ?_
        exact guarded_pure fun _ pre => pre
    · exact ite (fun _ => stop _ _ rfl) fun _ => stop _ _ rfl

theorem scan (error : Thrown) (dataRoom : Option Nat) (convert : BinaryPair → Option α) (onlyOne : Bool)
    (fuel : Nat) : Keeping careful H (DBFunc.scan error dataRoom convert onlyOne fuel) fun r hashp =>
      r.left.toList.length ≤ r.thrown.toList.length ∧ Custody careful (openHolds r.left.toList ++ H) hashp := by
  refine after (scanLoop error dataRoom convert onlyOne fuel (hashCursor true) :
    Keeping careful ((hashCursor true).holds ++ H) _ _) fun r none => ?_
  split
  · exact pure fun _ pre => ⟨Nat.le_refl 1, by simpa [openHolds] using pre⟩
  · refine next (cursorCloseCall _) fun _ => pure fun _ pre => ?_
    rw [none]
    exact ⟨Nat.zero_le _, pre⟩

theorem isDatabaseEmpty : Keeping careful H DBFunc.isDatabaseEmpty fun r hashp =>
    r.2.toList.length ≤ (thrownOf r.1).toList.length ∧ Custody careful (openHolds r.2.toList ++ H) hashp := by
  refine guarded_bind (cursorCall (hashCursor true) 0 (some 0) ffdbNext :
    Keeping careful ((hashCursor true).holds ++ H) _ _) fun r =>
      ite (fun _ => ?_) fun _ => ite (fun _ => ?_) fun _ => ?_
  · exact next (cursorCloseCall _) fun _ => pure fun _ pre => ⟨Nat.le_refl 0, pre⟩
  · exact next (cursorCloseCall _) fun _ => pure fun _ pre => ⟨Nat.le_refl 0, pre⟩
  · exact pure fun _ pre => ⟨Nat.le_refl 1, by simpa [openHolds] using pre⟩

theorem getBinaryData (key : List UInt8) : Keeping careful H (DBFunc.getBinaryData key) fun _ =>
    Custody careful H :=
  next (hashGet _ _) fun _ => ite (fun _ => pure fun _ pre => pre) fun _ => pure fun _ pre => pre

theorem insertDataCall {β : Type} (ck : Serializable α) (cd : Serializable β) (key : α) (data : β) :
    Keeping careful H (DBFunc.insertData ck cd key data) fun _ => Custody careful H := by
  unfold DBFunc.insertData
  split
  · exact next (hashPut _ _ _) fun _ => pure fun _ pre => pre
  · exact pure fun _ pre => pre

theorem getDataCall {β : Type} (ck : Serializable α) (cd : Serializable β) (key : α) :
    Keeping careful H (DBFunc.getData ck cd key) fun _ => Custody careful H := by
  unfold DBFunc.getData
  split
  · exact pure fun _ pre => pre
  · refine next (getBinaryData _) fun r => ?_
    split
    · exact pure fun _ pre => pre
    · split
      · exact pure fun _ pre => pre
      · exact pure fun _ pre => pre

theorem keyExist (ck : Serializable α) (arg : α) : Keeping careful H (DBFunc.keyExist ck arg) fun _ =>
    Custody careful H := by
  unfold DBFunc.keyExist
  split
  · exact pure fun _ pre => pre
  · refine next (getBinaryData _) fun r => ?_
    split
    · exact pure fun _ pre => pre
    · exact pure fun _ pre => pre

end Database

end Htab.Keeping

section Iterators

variable {reps : DBCursorReps} {handles : List Nat} {c own : Nat}

def holdsOf (l : List (Option Crs)) : List Hold := openHolds l.reduceOption

theorem holdsOf_perm {l l' : List (Option Crs)} (same : l.Perm l') : (holdsOf l).Perm (holdsOf l') :=
  (same.filterMap id).flatMap_right _

theorem holdsOf_cons (cursor : Option Crs) (l : List (Option Crs)) :
    holdsOf (cursor :: l) = openHolds cursor.toList ++ holdsOf l := by
  cases cursor <;> simp [holdsOf, openHolds]

theorem holdsOf_append (l l' : List (Option Crs)) : holdsOf (l ++ l') = holdsOf l ++ holdsOf l' := by
  rw [holdsOf, holdsOf, holdsOf, List.reduceOption_append, openHolds, openHolds, openHolds, List.flatMap_append]

theorem alive_bind {β : Type} (a : β) (k : β → Run α) : (DBCursor.alive (some a) >>= k) = k a :=
  (@Prog.lawful Htab Event).pure_bind a k

namespace Htab.Keeping

theorem copy (exact_ : reps.Exact handles) (mem : c ∈ handles) :
    Keeping careful (holdsOf reps.items ++ H) (DBCursor.copy reps c) fun reps' hashp =>
      reps'.Exact (c :: handles) ∧ Custody careful (holdsOf reps'.items ++ H) hashp := by
  obtain ⟨reps', shared, exact', same⟩ := exact_.share mem
  rw [DBCursor.copy, shared]
  exact pure fun _ pre => ⟨exact', pre.perm ((holdsOf_perm same.symm).append_right _)⟩

theorem destroy (exact_ : reps.Exact (c :: handles)) :
    Keeping careful (holdsOf reps.items ++ H) (DBCursor.destroy reps c) fun reps' hashp =>
      reps'.Exact handles ∧ Custody careful (holdsOf reps'.items ++ H) hashp := by
  obtain ⟨gone, reps', released, exact', same, _⟩ := exact_.release
  have pages : (holdsOf reps.items ++ H).Perm (holdsOf gone.toList ++ (holdsOf reps'.items ++ H)) := by
    rw [← List.append_assoc, ← holdsOf_append]
    exact (holdsOf_perm same).append_right _
  have deleted : Keeping careful (holdsOf gone.toList ++ (holdsOf reps'.items ++ H)) (DBCursor.deleteRep gone)
      fun _ => Custody careful (holdsOf reps'.items ++ H) := by
    rcases gone with _ | _ | crs
    · exact pure fun _ pre => pre
    · exact pure fun _ pre => pre
    · refine perm (.of_eq ?_) (cursorCloseCall crs)
      simp [holdsOf, openHolds]
  rw [DBCursor.destroy, released, alive_bind]
  exact perm pages (next deleted fun _ => pure fun _ pre => ⟨exact', pre⟩)

theorem assign (exact_ : reps.Exact (own :: handles)) (mem : c ∈ own :: handles) :
    Keeping careful (holdsOf reps.items ++ H) (DBCursor.assign reps own c) fun reps' hashp =>
      reps'.Exact (c :: handles) ∧ Custody careful (holdsOf reps'.items ++ H) hashp :=
  after (copy exact_ mem) fun _ shared => destroy (shared.perm (.swap _ _ _))

theorem assignIterator {κ : Type} {x y : DBKeyIterator κ} (exact_ : reps.Exact (x.cursor_ :: handles))
    (mem : y.cursor_ ∈ x.cursor_ :: handles) :
    Keeping careful (holdsOf reps.items ++ H) (DBKeyIterator.assign reps x y) fun r hashp =>
      (r.2 = y ∧ r.1.Exact (y.cursor_ :: handles)) ∧ Custody careful (holdsOf r.1.items ++ H) hashp :=
  after (assign exact_ mem) fun _ counted => pure fun _ pre => ⟨⟨rfl, counted⟩, pre⟩

theorem new {κ : Type} (exact_ : reps.Exact handles) (cursor : Option Crs) (arg : κ) (endflag : Int) :
    Keeping careful (openHolds cursor.toList ++ (holdsOf reps.items ++ H)) (DBKeyIterator.new reps cursor arg endflag)
      fun r hashp => r.1.Exact (r.2.cursor_ :: handles) ∧ Custody careful (holdsOf r.1.items ++ H) hashp := by
  obtain ⟨made, items⟩ := exact_.make cursor
  have pages : (openHolds cursor.toList ++ (holdsOf reps.items ++ H)).Perm
      (holdsOf (reps.make cursor).2.items ++ H) := by
    rw [items, holdsOf_append, ← List.append_assoc, holdsOf_cons]
    refine List.Perm.append_right _ (List.perm_append_comm.trans (.of_eq ?_))
    simp [holdsOf, openHolds]
  refine perm pages (after (copy made List.mem_cons_self) fun reps' shared => ?_)
  exact after (destroy shared) fun reps'' left => pure fun _ pre => ⟨left, pre⟩

theorem end_ {κ : Type} (exact_ : reps.Exact handles) (tmp : κ) :
    Keeping careful (holdsOf reps.items ++ H) (DBKeyIterator.end_ tmp reps) fun r hashp =>
      r.1.Exact (r.2.cursor_ :: handles) ∧ Custody careful (holdsOf r.1.items ++ H) hashp :=
  new exact_ none tmp 1

theorem beginning {κ : Type} (ck : Serializable κ) (mykey : κ) (exact_ : reps.Exact handles) :
    Keeping careful (holdsOf reps.items ++ H) (DBKeyIterator.init ck mykey reps) fun r hashp =>
      r.1.Exact (r.2.1.cursor_ :: handles) ∧
        Custody careful (openHolds r.2.2.toList ++ (holdsOf r.1.items ++ H)) hashp := by
  have found : ∀ (crs : Crs) (key : κ) (endflag : Int), Keeping careful (crs.holds ++ (holdsOf reps.items ++ H)) (do
      let made ← DBKeyIterator.new reps (some crs) key endflag
      Pure.pure (made.1, made.2, none) : Run (DBCursorReps × DBKeyIterator κ × Option Crs)) fun r hashp =>
        r.1.Exact (r.2.1.cursor_ :: handles) ∧
          Custody careful (openHolds r.2.2.toList ++ (holdsOf r.1.items ++ H)) hashp := by
    intro crs key endflag
    have pages : crs.holds ++ (holdsOf reps.items ++ H) =
        openHolds (some crs).toList ++ (holdsOf reps.items ++ H) := by
      simp [openHolds]
    rw [pages]
    refine after (new exact_ (some crs) key endflag) fun made counted => ?_
    exact pure fun _ pre => ⟨counted, pre⟩
  refine guarded_bind (cursorCall (hashCursor true) 0 (some 0) ffdbNext :
    Keeping careful ((hashCursor true).holds ++ (holdsOf reps.items ++ H)) _ _) fun r => ite (fun _ => ?_) fun _ => ?_
  · split
    · -- the exception leaves the cursor open, and the iterator has none
      have rest : Keeping careful (holdsOf reps.items ++ (r.2.1.holds ++ H)) (do
          let made ← DBKeyIterator.new reps none mykey 1
          Pure.pure (made.1, made.2, some r.2.1) : Run (DBCursorReps × DBKeyIterator κ × Option Crs)) fun r hashp =>
            r.1.Exact (r.2.1.cursor_ :: handles) ∧
              Custody careful (openHolds r.2.2.toList ++ (holdsOf r.1.items ++ H)) hashp := by
        refine after (new exact_ none mykey 1) fun made counted => pure fun _ pre => ⟨counted, pre.perm ?_⟩
        simpa [openHolds] using List.perm_append_comm_assoc _ _ _
      exact perm (List.perm_append_comm_assoc _ _ _) rest
    · exact found _ _ _
  · exact ite (fun _ => found _ _ _) fun _ => halt _

theorem getNextKey {κ : Type} (ck : Serializable κ) (exact_ : reps.Exact handles) (x : DBKeyIterator κ)
    (mem : x.cursor_ ∈ handles) (open_ : (reps.cell x.cursor_).map Lib.Cell.item = some (some crs)) :
    Keeping careful (holdsOf reps.items ++ H) (DBKeyIterator.getNextKey ck reps x crs) fun r hashp =>
      (r.2.cursor_ = x.cursor_ ∧ r.1.Exact handles) ∧ Custody careful (holdsOf r.1.items ++ H) hashp := by
  obtain ⟨old, rest, there, before, puts⟩ := exact_.put mem
  have pages : (holdsOf reps.items ++ H).Perm (crs.holds ++ (holdsOf rest ++ H)) := by
    rw [there] at open_
    refine ((holdsOf_perm before).append_right H).trans (.of_eq ?_)
    rw [Option.some.inj open_, holdsOf_cons]
    simp [openHolds]
  have moved : ∀ (crs' : Crs) (y : DBKeyIterator κ), y.cursor_ = x.cursor_ →
      Keeping careful (crs'.holds ++ (holdsOf rest ++ H)) (do
        let reps ← DBCursor.alive (reps.put x.cursor_ (some crs'))
        Pure.pure (reps, y) : Run (DBCursorReps × DBKeyIterator κ)) fun r hashp =>
          (r.2.cursor_ = x.cursor_ ∧ r.1.Exact handles) ∧ Custody careful (holdsOf r.1.items ++ H) hashp := by
    intro crs' y same
    obtain ⟨reps', put, counted, after⟩ := puts (some crs')
    rw [put, alive_bind]
    refine pure fun _ pre => ⟨⟨same, counted⟩, pre.perm ?_⟩
    refine (List.Perm.of_eq ?_).trans ((holdsOf_perm after).symm.append_right H)
    rw [holdsOf_cons]
    simp [openHolds]
  refine perm pages (guarded_bind (cursorCall crs 0 (some 0) ffdbNext) fun r => ite (fun _ => ?_) fun _ => ?_)
  · split
    · exact next (cursorCloseCall _) fun _ => halt _
    · exact moved _ _ rfl
  · exact ite (fun _ => moved _ _ rfl) fun _ => next (cursorCloseCall _) fun _ => halt _

theorem increment {κ : Type} (ck : Serializable κ) (exact_ : reps.Exact handles) (x : DBKeyIterator κ)
    (mem : x.cursor_ ∈ handles) :
    Keeping careful (holdsOf reps.items ++ H) (DBKeyIterator.increment ck reps x) fun r hashp =>
      (r.2.cursor_ = x.cursor_ ∧ r.1.Exact handles) ∧ Custody careful (holdsOf r.1.items ++ H) hashp := by
  obtain ⟨entry, there, _⟩ := exact_.there mem
  have deref : DBCursor.cursor reps x.cursor_ = Pure.pure entry.item := by
    rw [DBCursor.cursor, there, alive_bind]
  rw [DBKeyIterator.increment, deref, (@Prog.lawful Htab Event).pure_bind]
  cases item : entry.item with
  | none => exact pure fun _ pre => ⟨⟨rfl, exact_⟩, pre⟩
  | some crs => exact getNextKey ck exact_ x mem (by rw [there, Option.map_some, item])

end Htab.Keeping

end Iterators

section Runs

variable {o : Objects κ} {place source : Nat} {x y : DBKeyIterator κ} {start hashp : Htab} {t : List Event}

namespace Objects

theorem openHolds_cursors (o : Objects κ) : openHolds o.cursors = holdsOf o.reps.items ++ openHolds o.lost := by
  rw [cursors, holdsOf, openHolds, openHolds, openHolds, List.flatMap_append]

theorem openHolds_lose (o : Objects κ) (left : Option Crs) :
    (openHolds left.toList ++ (holdsOf o.reps.items ++ openHolds o.lost)).Perm (openHolds (o.lose left).cursors) := by
  refine (List.perm_append_comm_assoc _ _ _).trans (.of_eq ?_)
  rw [openHolds_cursors]
  simp [lose, openHolds]

theorem handles_perm (at_place : o.iters[place]? = some x) : (o.iters.map DBKeyIterator.cursor_).Perm
    (x.cursor_ :: (o.iters.eraseIdx place).map DBKeyIterator.cursor_) := by
  obtain ⟨low, rfl⟩ := List.getElem?_eq_some_iff.mp at_place
  exact (List.getElem_cons_eraseIdx_perm low).symm.map _

theorem handles_set (at_place : o.iters[place]? = some x) : ((o.iters.set place y).map DBKeyIterator.cursor_).Perm
    (y.cursor_ :: (o.iters.eraseIdx place).map DBKeyIterator.cursor_) :=
  (List.set_perm_cons_eraseIdx (List.getElem?_eq_some_iff.mp at_place).1 y).map _

theorem mem_handles (at_place : o.iters[place]? = some x) : x.cursor_ ∈ o.iters.map DBKeyIterator.cursor_ :=
  List.mem_map_of_mem (List.mem_of_getElem? at_place)

theorem Counted.none_left (h : o.Counted) (none : o.iters = []) : o.cursors = o.lost := by
  rw [Counted, none] at h
  rw [cursors, h.items_nil]
  rfl

end Objects

namespace Htab.Keeping

open Objects in
theorem call (counted : o.Counted) (call : Call κ) :
    Keeping careful (openHolds o.cursors) (call.run o) fun r hashp =>
      o.After r ∧ Custody careful (openHolds r.2.cursors) hashp := by
  have same : ∀ thrown, Keeping careful (openHolds o.cursors) (Pure.pure (thrown, o)) fun r hashp =>
      o.After r ∧ Custody careful (openHolds r.2.cursors) hashp :=
    fun thrown => pure fun _ pre => ⟨⟨counted, Nat.le_add_right _ _⟩, pre⟩
  have grows : ∀ {left : Option Crs} {thrown : Option Thrown}, left.toList.length ≤ thrown.toList.length →
      (left.toList ++ o.lost).length ≤ o.lost.length + thrown.toList.length := by
    intro left thrown few
    rw [List.length_append]
    omega
  cases call with
  | insertData ck cd key data => exact next (insertDataCall _ _ _ _) fun r => same _
  | getData ck cd key => exact next (getDataCall _ _ _) fun r => same _
  | keyExist ck arg => exact next (keyExist _ _) fun r => same _
  | flushDatabase => exact next hashSync fun _ => same _
  | scan error dataRoom convert onlyOne fuel =>
    rw [openHolds_cursors]
    refine after (scan error dataRoom convert onlyOne fuel) fun r few => pure fun _ pre => ?_
    exact ⟨⟨counted, grows few⟩, pre.perm (openHolds_lose o r.left)⟩
  | isDatabaseEmpty =>
    rw [openHolds_cursors]
    refine after isDatabaseEmpty fun r few => pure fun _ pre => ?_
    exact ⟨⟨counted, grows few⟩, pre.perm (openHolds_lose o r.2)⟩
  | begin_ ck mykey =>
    rw [openHolds_cursors]
    refine after (beginning ck mykey counted) fun r counted' => pure fun _ pre => ⟨⟨counted', ?_⟩, ?_⟩
    · exact grows (by cases r.2.2 <;> exact Nat.le_refl _)
    · exact pre.perm (openHolds_lose ⟨o.lost, r.1, r.2.1 :: o.iters⟩ r.2.2)
  | end_ tmp =>
    rw [openHolds_cursors]
    refine after (end_ counted tmp) fun r counted' => pure fun _ pre => ⟨⟨counted', Nat.le_refl _⟩, ?_⟩
    rw [openHolds_cursors]
    exact pre
  | copy place =>
    cases at_place : o.iters[place]? with
    | none =>
      simp only [Call.run, at_place]
      exact same _
    | some x =>
      simp only [Call.run, at_place, openHolds_cursors]
      refine after (copy counted (mem_handles at_place)) fun reps counted' => ?_
      exact pure fun _ pre => ⟨⟨counted', Nat.le_refl _⟩, pre⟩
  | assign place source =>
    by_cases self : place = source
    · simp only [Call.run, if_pos self]
      exact same _
    · cases at_place : o.iters[place]? with
      | none =>
        simp only [Call.run, if_neg self, at_place]
        exact same _
      | some x =>
        cases at_source : o.iters[source]? with
        | none =>
          simp only [Call.run, if_neg self, at_place, at_source]
          exact same _
        | some y =>
          simp only [Call.run, if_neg self, at_place, at_source, openHolds_cursors]
          have perm := handles_perm at_place
          have mem := perm.subset (mem_handles at_source)
          refine after (assignIterator (Lib.Cells.Exact.perm counted perm) mem) fun r counted' =>
            pure fun _ pre => ⟨⟨?_, Nat.le_refl _⟩, pre⟩
          rw [counted'.1]
          exact counted'.2.perm (handles_set at_place).symm
  | increment ck place =>
    cases at_place : o.iters[place]? with
    | none =>
      simp only [Call.run, at_place]
      exact same _
    | some x =>
      simp only [Call.run, at_place, openHolds_cursors]
      refine after (increment ck counted x (mem_handles at_place)) fun r counted' =>
        pure fun _ pre => ⟨⟨?_, Nat.le_refl _⟩, pre⟩
      refine counted'.2.perm ((handles_perm at_place).trans ?_)
      rw [← counted'.1]
      exact (handles_set at_place).symm
  | destroy place =>
    cases at_place : o.iters[place]? with
    | none =>
      simp only [Call.run, at_place]
      exact same _
    | some x =>
      simp only [Call.run, at_place, openHolds_cursors]
      refine after (destroy (Lib.Cells.Exact.perm counted (handles_perm at_place))) fun reps counted' => ?_
      exact pure fun _ pre => ⟨⟨counted', Nat.le_refl _⟩, pre⟩

end Htab.Keeping

theorem ClassUsage.account {n : Nat} (usage : ClassUsage κ start hashp o n t) (fine : Custody careful [] start)
    (orderly : ∀ e ∈ t, Orderly careful e) :
    (o.Counted ∧ o.lost.length ≤ n) ∧ Custody careful (openHolds o.cursors) hashp := by
  induction usage with
  | opened ran => exact ⟨⟨.nil, Nat.le_refl 0⟩, (Keeping.openPages.comes fine ran orderly).1⟩
  | call before call ran ih =>
    obtain ⟨⟨counted, few⟩, pre⟩ := ih fun e mem => orderly e (List.mem_append_left _ mem)
    obtain ⟨⟨⟨counted', more⟩, post⟩, _⟩ :=
      (Keeping.call counted call).comes pre ran fun e mem => orderly e (List.mem_append_right _ mem)
    exact ⟨⟨counted', Nat.le_trans more (Nat.add_le_add_right few _)⟩, post⟩

/-- Between two calls of a program every iterator has its cursor, every cursor counts the iterators
that share it, and the pages that are pinned are those of these cursors and of the lost ones. Each
exception loses one cursor at most: without one, nothing is pinned when no iterator is left. -/
theorem classes_pin {n : Nat} {opening : Htab.Opening} (made : SetUp opening start) (proper : start.hdr.Proper)
    (usage : ClassUsage κ start hashp o n t) (orderly : ∀ e ∈ t, Orderly false e) :
    o.Counted ∧ o.lost.length ≤ n ∧ (o.iters = [] → o.cursors = o.lost) ∧
      (∀ id ∈ hashp.mp.lqh, ((hashp.mp.bkt id).pinned = true ↔ id ∈ o.cursors.filterMap Crs.pagep) ∧
        (hashp.mp.bkt id).ref = (o.cursors.filterMap Crs.pagep).count id) ∧
      ∀ id ∈ o.cursors.filterMap Crs.pagep, id ∈ hashp.mp.lqh := by
  obtain ⟨⟨counted, few⟩, account⟩ := usage.account (made.custody proper) orderly
  exact ⟨counted, few, counted.none_left, account.pins⟩

end Runs

section Examples

open Htab

attribute [local semireducible] hashKey

deriving instance DecidableEq for DBKeyIterator, Objects

def untouched : Objects (List UInt8) := ⟨[], [], []⟩

def filledTable : Htab :=
  endOf ((Call.insertData binaryForm binaryForm [7] [42]).run untouched) smallOpened
def begunTable : Htab := endOf ((Call.begin_ binaryForm []).run untouched) filledTable

def begun (n : Int) (iters : List (DBKeyIterator (List UInt8))) : Objects (List UInt8) :=
  ⟨[], [some ⟨n, some ⟨true, some 2, 4, 1, 0, .ok⟩⟩], iters⟩

theorem begunTable_usage :
    ClassUsage (List UInt8) smallStart begunTable (begun 2 [⟨0, [7], 0⟩, ⟨0, [7], 0⟩]) 0 [] := by
  have opened : ClassUsage (List UInt8) smallStart smallOpened untouched 0 [] :=
    .opened (run_of_answer (a := ()) (t := []) (by decide +kernel))
  have filled : ClassUsage (List UInt8) smallStart filledTable untouched 0 [] :=
    opened.call (.insertData binaryForm binaryForm [7] [42])
      (run_of_answer (a := (none, untouched)) (t := []) (by decide +kernel))
  have one : ClassUsage (List UInt8) smallStart begunTable (begun 1 [⟨0, [7], 0⟩]) 0 [] :=
    filled.call (.begin_ binaryForm [])
      (run_of_answer (a := (none, begun 1 [⟨0, [7], 0⟩])) (t := []) (by decide +kernel))
  exact one.call (.copy 0) rfl

theorem classes_pin_begun : (∀ id ∈ begunTable.mp.lqh, (begunTable.mp.bkt id).pinned = true ↔ id = 2) ∧
    2 ∈ begunTable.mp.lqh := by
  obtain ⟨_, _, _, pins, listed⟩ := classes_pin smallStart_setUp smallStart_proper begunTable_usage fun _ mem =>
    absurd mem List.not_mem_nil
  exact ⟨fun id mem => (pins id mem).1.trans List.mem_singleton, listed 2 List.mem_cons_self⟩

end Examples
end FileHash
