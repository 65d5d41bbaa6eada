import FileHash.Lib.Chunks
import FileHash.Lib.KeyStore

/-! `AllConfStoreDB.h`: ensembles, one datum for each configuration under one key, over the
database of `DBFunc.h`. The database is a parameter, with what the class relies on as laws about the calls
that are made; a datum is known by its `writeObject` and `readObject`, which may throw. -/
namespace FileHash

open Lib (Prog KeyStore pieces)

/-- The calls of `ffdb_db.h` and `DBFunc.h` that the class makes on an open database.
`reopen` closes it and opens the same file again. -/
structure Database (σ ε : Type) extends KeyStore σ ε (List UInt8) (List UInt8) where
  isDatabaseEmpty : Prog σ ε Bool
  getAllConfigs : Prog σ ε Nat
  setAllConfigs : Nat → Prog σ ε Int
  reopen : Prog σ ε Unit

structure Holding where
  contents : List UInt8 → Option (List UInt8)
  numConfigs : Nat

/-- What is told of a database beside its calls: what its states hold, which of them it keeps to, and
which of these it can be closed in; the new pairs that it admits, and the puts that it is told of. -/
structure Ledger (σ : Type) where
  holding : σ → Holding
  sound : σ → Prop
  rests : σ → Prop
  admits : List UInt8 → List UInt8 → Prop
  covers : σ → List UInt8 → List UInt8 → Prop

/-- The calls keep to what is told. A value is replaced by one that is no longer. -/
structure Database.Lawful {σ ε : Type} (db : Database σ ε) (book : Ledger σ) : Prop where
  keyed : db.toKeyStore.Lawful (fun s => (book.holding s).contents) book.sound book.covers book.admits
  get_numConfigs : ∀ {s s' k r}, book.sound s → (db.get k).Returns s r s' →
    (book.holding s').numConfigs = (book.holding s).numConfigs
  put_numConfigs : ∀ {s s' k v st}, book.sound s → book.covers s k v → (db.put k v).Returns s st s' →
    (book.holding s').numConfigs = (book.holding s).numConfigs
  replaces : ∀ {s k v w}, book.sound s → (book.holding s).contents k = some w → v.length ≤ w.length →
    book.covers s k v ∧ ∀ st s', (db.put k v).Returns s st s' → st = 0

/-- A put leaves a database that can be closed, and what is closed is there when it is opened again. -/
structure Database.Durable {σ ε : Type} (db : Database σ ε) (book : Ledger σ) : Prop where
  put_rests : ∀ {s s' k v st}, book.sound s → book.rests s → book.covers s k v → (db.put k v).Returns s st s' →
    book.rests s'
  reopens : ∀ {s k v}, book.sound s → book.rests s → (book.holding s).contents k = some v → v ≠ [] →
    ∃ s₁ s₂ s₃ s₄, db.reopen.Returns s () s₁ ∧ db.isDatabaseEmpty.Returns s₁ false s₂ ∧
      db.getAllConfigs.Returns s₂ (book.holding s).numConfigs s₃ ∧ (db.get k).Returns s₃ (.ok v) s₄

inductive Database.Puts {σ ε : Type} (db : Database σ ε) (calls : List UInt8 → List UInt8 → Prop) (s : σ) : σ → Prop
  | none : Puts db calls s s
  | put {t t' : σ} {k v : List UInt8} {st : Int} (before : Puts db calls s t) (call : calls k v)
    (run : (db.put k v).Returns t st t') : Puts db calls s t'

/-- The database is told of each of these puts, whichever of them come first. -/
def Database.Covered {σ ε : Type} (db : Database σ ε) (book : Ledger σ) (calls : List UInt8 → List UInt8 → Prop)
    (s : σ) : Prop :=
  ∀ t k v, db.Puts calls s t → calls k v → book.covers t k v

theorem Database.Puts.rests {σ ε : Type} {db : Database σ ε} {book : Ledger σ} {calls : List UInt8 → List UInt8 → Prop}
    {s s' : σ} (puts : db.Puts calls s s') (law : db.Lawful book) (durable : db.Durable book) (sound : book.sound s)
    (rests : book.rests s) (covered : db.Covered book calls s) : book.sound s' ∧ book.rests s' := by
  induction puts with
  | none => exact ⟨sound, rests⟩
  | put before call run ih =>
    have told := covered _ _ _ before call
    exact ⟨law.keyed.put_sound ih.1 told run, durable.put_rests ih.1 ih.2 told run⟩

/-- `Serializable`; `none` is an exception. -/
structure Serializable (α : Type) where
  writeObject : α → Option (List UInt8)
  readObject : List UInt8 → Option α

/-- `readObject` gives back what `writeObject` was given. -/
def Serializable.Inverts {α : Type} (c : Serializable α) : Prop :=
  ∀ a b, c.writeObject a = some b → c.readObject b = some a

def binaryForm : Serializable (List UInt8) := ⟨some, some⟩

/-- The members of `AllConfStoreDB`, the configuration table apart; `bytesize` is `0` as
long as no call has set it. -/
structure AllConfStoreDB where
  nbin : Nat
  bytesize : Nat
  empty : Bool
  nbin_pos : 0 < nbin

namespace AllConfStoreDB

/-- `bytesize_` is set by the first call that knows the size of an element. -/
def noteSize (store : AllConfStoreDB) (size : Nat) : AllConfStoreDB :=
  if store.bytesize = 0 then { store with bytesize := size } else store

def split (store : AllConfStoreDB) (cdata : List UInt8) :
    AllConfStoreDB × Option (List (List UInt8)) :=
  if cdata.length % store.nbin ≠ 0 then (store, none)
  else
    let store := store.noteSize (cdata.length / store.nbin)
    if store.bytesize ≠ cdata.length / store.nbin then (store, none)
    else (store, some (pieces store.bytesize cdata))

end AllConfStoreDB

/-- An open `AllConfStoreDB`. -/
structure Session (σ : Type) where
  store : AllConfStoreDB
  dbh : σ

namespace AllConfStoreDB

variable {σ ε κ α : Type} (db : Database σ ε)

def onDb {β : Type} (m : Prog σ ε β) : Prog (Session σ) ε β :=
  Prog.zoom Session.dbh (fun s h => { h with dbh := s }) m

/-- `AllConfStoreDB::open` on an open database, for a handle constructed for `nbin`
configurations; `none` when it fails. What `ffdb_set_all_configs` returns is not looked at. -/
def openHandle (nbin : Nat) : Prog σ ε (Option AllConfStoreDB) := do
  if ← db.isDatabaseEmpty then
    if pos : 0 < nbin then
      let _ ← db.setAllConfigs nbin
      pure (some ⟨nbin, 0, true, pos⟩)
    else pure none
  else
    let numconfigs ← db.getAllConfigs
    if pos : 0 < numconfigs then pure (some ⟨numconfigs, 0, false, pos⟩)
    else pure none

/-- The size of the first element is noted; `false` when it cannot be written. -/
def measure (first : Option (List UInt8)) : Prog (Session σ) ε Bool := do
  let h ← Prog.read
  if h.store.bytesize = 0 then
    match first with
    | none => pure false
    | some tmpstr =>
      Prog.modify fun h => { h with store := h.store.noteSize tmpstr.length }
      pure true
  else pure true

def combine (cd : Serializable α) (v : List α) : Option (List UInt8) :=
  (v.mapM cd.writeObject).map List.flatten

/-- `AllConfStoreDB::insert`. -/
def insert (ck : Serializable κ) (cd : Serializable α) (key : κ) (v : List α) :
    Prog (Session σ) ε Int := do
  let h ← Prog.read
  if v.length ≠ h.store.nbin then Prog.halt .exit
  else if ← measure (v.head?.bind cd.writeObject) then
    match combine cd v with
    | none => pure (-1)
    | some dstr =>
      match ck.writeObject key with
      | none => Prog.halt .exit
      | some keyObj => onDb (db.put keyObj dstr)
  else pure (-1)

def splitData (cdata : List UInt8) : Prog (Session σ) ε (Option (List (List UInt8))) := do
  let h ← Prog.read
  Prog.modify fun h => { h with store := (h.store.split cdata).1 }
  pure (h.store.split cdata).2

/-- `AllConfStoreDB::getBinaryData`. -/
def getBinaryData (key : List UInt8) : Prog (Session σ) ε (Except Int (List (List UInt8))) := do
  match ← onDb (db.get key) with
  | .error ret => pure (.error ret)
  | .ok cdata =>
    match ← splitData cdata with
    | none => pure (.error (-1))
    | some vs => pure (.ok vs)

/-- `AllConfStoreDB::get`. -/
def get (ck : Serializable κ) (cd : Serializable α) (key : κ) :
    Prog (Session σ) ε (Except Int (List α)) := do
  match ck.writeObject key with
  | none => pure (.error (-1))
  | some keyObj =>
    match ← getBinaryData db keyObj with
    | .error ret => pure (.error ret)
    | .ok parts =>
      match parts.mapM cd.readObject with
      | none => pure (.error (-1))
      | some vs => pure (.ok vs)

/-- `AllConfStoreDB::insertBinaryData`. -/
def insertBinaryData (key : List UInt8) (v : List (List UInt8)) : Prog (Session σ) ε Int := do
  let h ← Prog.read
  if v.length ≠ h.store.nbin then Prog.halt .exit
  else
    let _ ← measure (v.head?)
    onDb (db.put key v.flatten)

section Split

variable {store : AllConfStoreDB} {parts : List (List UInt8)} {size : Nat}

@[simp] theorem noteSize_nbin : (store.noteSize size).nbin = store.nbin := by
  unfold noteSize
  split <;> rfl

@[simp] theorem split_nbin {cdata : List UInt8} : (store.split cdata).1.nbin = store.nbin := by
  unfold split
  split
  · rfl
  · dsimp only
    split <;> exact noteSize_nbin

def Agrees (store : AllConfStoreDB) (size : Nat) : Prop :=
  store.bytesize = 0 ∨ store.bytesize = size

theorem noteSize_of_agrees (agrees : store.Agrees size) :
    (store.noteSize size).bytesize = size := by
  unfold noteSize
  rcases agrees with unset | same
  · rw [if_pos unset]
  · split
    · rfl
    · exact same

theorem agrees_of_noteSize (noted : (store.noteSize size).bytesize = size) :
    store.Agrees size := by
  unfold noteSize at noted
  split at noted
  · exact .inl ‹_›
  · exact .inr noted

theorem agrees_of_noted {other : Nat} (agrees : (store.noteSize other).Agrees size) :
    store.Agrees size := by
  unfold noteSize at agrees
  split at agrees
  · exact .inl ‹_›
  · exact agrees

theorem split_some {cdata : List UInt8} (cut : (store.split cdata).2 = some parts) :
    cdata.length = store.nbin * (cdata.length / store.nbin) ∧
      store.Agrees (cdata.length / store.nbin) ∧
      pieces (cdata.length / store.nbin) cdata = parts := by
  unfold split at cut
  split at cut
  · cases cut
  · rename_i divides
    simp only [noteSize_nbin] at cut
    split at cut
    · cases cut
    · rename_i noted
      push Not at divides noted
      rw [noted, Option.some.injEq] at cut
      exact ⟨(Nat.mul_div_cancel' (Nat.dvd_of_mod_eq_zero divides)).symm,
        agrees_of_noteSize noted, cut⟩

theorem length_of_split {cdata part : List UInt8} (cut : (store.split cdata).2 = some parts)
    (mem : part ∈ parts) : part.length = cdata.length / store.nbin := by
  obtain ⟨whole, -, rfl⟩ := split_some cut
  exact Lib.length_of_mem_pieces whole mem

theorem split_flatten_iff (count : parts.length = store.nbin) :
    (store.split parts.flatten).2 = some parts ↔
      ∃ size, 0 < size ∧ (∀ part ∈ parts, part.length = size) ∧ store.Agrees size := by
  constructor
  · intro cut
    obtain ⟨whole, agrees, same⟩ := split_some cut
    refine ⟨_, Nat.pos_of_ne_zero fun none_left => ?_, fun part => length_of_split cut, agrees⟩
    -- no bytes would be cut into no pieces at all
    have empty : parts.flatten = [] := by
      rw [none_left, Nat.mul_zero] at whole
      exact List.length_eq_zero_iff.mp whole
    rw [empty, Lib.pieces_nil] at same
    have pos := store.nbin_pos
    rw [← count, ← same] at pos
    exact absurd pos (Nat.lt_irrefl 0)
  · rintro ⟨size, pos, each, agrees⟩
    have length := Lib.length_flatten_of_uniform each
    have quotient : parts.flatten.length / store.nbin = size := by
      rw [length, count]
      exact Nat.mul_div_cancel_left size store.nbin_pos
    have divides : ¬parts.flatten.length % store.nbin ≠ 0 := by
      rw [length, count]
      simp
    unfold split
    rw [if_neg divides]
    simp only [noteSize_nbin]
    rw [quotient, noteSize_of_agrees agrees, if_neg (not_not_intro rfl),
      Lib.pieces_flatten pos each]

end Split

theorem mapM_eq_some_iff {f : α → Option κ} {v : List α} {parts : List κ} :
    v.mapM f = some parts ↔ v.map f = parts.map some := by
  induction v generalizing parts with
  | nil => cases parts <;> simp
  | cons a v ih =>
    rw [List.mapM_cons, List.map_cons]
    constructor
    · intro whole
      cases head : f a with
      | none => simp [head] at whole
      | some b =>
        cases tail : v.mapM f with
        | none => simp [head, tail] at whole
        | some bs =>
          simp only [head, tail, Option.bind_eq_bind, Option.bind_some, Option.pure_def,
            Option.some.injEq] at whole
          rw [← whole, ih.mp tail, List.map_cons]
    · intro each
      cases parts with
      | nil => cases each
      | cons b bs =>
        rw [List.map_cons, List.cons.injEq] at each
        rw [each.1, ih.mpr each.2]
        rfl

section Runs

variable {db} {h h' : Session σ}

theorem returns_onDb {β : Type} {m : Prog σ ε β} {b : β} :
    (onDb m).Returns h b h' ↔ ∃ s', m.Returns h.dbh b s' ∧ (⟨h.store, s'⟩ : Session σ) = h' :=
  Prog.returns_zoom

theorem returns_splitData {cdata : List UInt8} {r : Option (List (List UInt8))} :
    (splitData cdata : Prog (Session σ) ε _).Returns h r h' ↔
      (h.store.split cdata).2 = r ∧ (⟨(h.store.split cdata).1, h.dbh⟩ : Session σ) = h' := by
  simp only [splitData, Prog.returns_bind, Prog.returns_read, Prog.returns_modify,
    Prog.returns_pure]
  constructor
  · rintro ⟨_, _, ⟨rfl, rfl⟩, _, _, rfl, rfl, rfl⟩
    exact ⟨rfl, rfl⟩
  · rintro ⟨rfl, rfl⟩
    exact ⟨h, h, ⟨rfl, rfl⟩, (), _, rfl, rfl, rfl⟩

theorem returns_measure {first : List UInt8} {b : Bool} :
    (measure (some first) : Prog (Session σ) ε Bool).Returns h b h' ↔
      b = true ∧ (⟨h.store.noteSize first.length, h.dbh⟩ : Session σ) = h' := by
  unfold measure
  simp only [Prog.returns_bind, Prog.returns_read]
  by_cases unset : h.store.bytesize = 0
  · constructor
    · rintro ⟨_, _, ⟨rfl, rfl⟩, rest⟩
      simp only [if_pos unset, Prog.returns_bind, Prog.returns_modify, Prog.returns_pure] at rest
      obtain ⟨_, _, rfl, rfl, rfl⟩ := rest
      exact ⟨rfl, rfl⟩
    · rintro ⟨rfl, rfl⟩
      refine ⟨h, h, ⟨rfl, rfl⟩, ?_⟩
      simp only [if_pos unset, Prog.returns_bind, Prog.returns_modify, Prog.returns_pure]
      exact ⟨(), _, rfl, trivial, rfl⟩
  · have kept : h.store.noteSize first.length = h.store := if_neg unset
    rw [kept]
    constructor
    · rintro ⟨_, _, ⟨rfl, rfl⟩, rest⟩
      simp only [if_neg unset, Prog.returns_pure] at rest
      exact ⟨rest.1.symm, rest.2⟩
    · rintro ⟨rfl, rfl⟩
      refine ⟨h, h, ⟨rfl, rfl⟩, ?_⟩
      simp [if_neg unset]

variable {book : Ledger σ}

theorem returns_insert {ck : Serializable κ} {cd : Serializable α} {key : κ} {v : List α}
    {keyObj : List UInt8} {parts : List (List UInt8)} {st : Int}
    (count : parts.length = h.store.nbin) (named : ck.writeObject key = some keyObj)
    (written : v.map cd.writeObject = parts.map some) :
    (insert db ck cd key v).Returns h st h' ↔
      ∃ s', (db.put keyObj parts.flatten).Returns h.dbh st s' ∧
        (⟨h.store.noteSize (parts.headD []).length, s'⟩ : Session σ) = h' := by
  have size : ¬v.length ≠ h.store.nbin := by
    have := congrArg List.length written
    simp only [List.length_map] at this
    omega
  have first : v.head?.bind cd.writeObject = some (parts.headD []) := by
    have := h.store.nbin_pos
    cases v with
    | nil => simp at size; omega
    | cons a v =>
      cases parts with
      | nil => cases written
      | cons b parts =>
        rw [List.map_cons, List.map_cons, List.cons.injEq] at written
        exact written.1
  have whole : combine cd v = some parts.flatten := by
    rw [combine, mapM_eq_some_iff.mpr written]
    rfl
  unfold insert
  simp only [Prog.returns_bind, Prog.returns_read]
  constructor
  · rintro ⟨_, _, ⟨rfl, rfl⟩, rest⟩
    rw [if_neg size, first, Prog.returns_bind] at rest
    obtain ⟨_, _, noted, rest⟩ := rest
    obtain ⟨rfl, rfl⟩ := returns_measure.mp noted
    simp only [if_true, whole, named] at rest
    exact returns_onDb.mp rest
  · rintro ⟨s', put, rfl⟩
    refine ⟨h, h, ⟨rfl, rfl⟩, ?_⟩
    rw [if_neg size, first, Prog.returns_bind]
    refine ⟨true, _, returns_measure.mpr ⟨rfl, rfl⟩, ?_⟩
    simp only [if_true, whole, named]
    exact returns_onDb.mpr ⟨s', put, rfl⟩

theorem getBinaryData_read {key cdata : List UInt8} {parts : List (List UInt8)} {s' : σ}
    (read : (db.get key).Returns h.dbh (.ok cdata) s') :
    (∃ h', (getBinaryData db key).Returns h (.ok parts) h') ↔
      (h.store.split cdata).2 = some parts := by
  unfold getBinaryData
  simp only [Prog.returns_bind]
  constructor
  · rintro ⟨h', _, _, first, rest⟩
    obtain ⟨s'', read', rfl⟩ := returns_onDb.mp first
    obtain ⟨rfl, rfl⟩ := read.unique read'
    obtain ⟨_, _, cutting, rest⟩ := Prog.returns_bind.mp rest
    obtain ⟨rfl, rfl⟩ := returns_splitData.mp cutting
    cases cut : (h.store.split cdata).2 with
    | none => simp [cut] at rest
    | some vs =>
      simp only [cut, Prog.returns_pure, Except.ok.injEq] at rest
      rw [rest.1]
  · intro cut
    refine ⟨⟨(h.store.split cdata).1, s'⟩, .ok cdata, _, returns_onDb.mpr ⟨s', read, rfl⟩, ?_⟩
    refine Prog.returns_bind.mpr ⟨_, _, returns_splitData.mpr ⟨rfl, rfl⟩, ?_⟩
    rw [cut]
    exact Prog.returns_pure.mpr ⟨rfl, rfl⟩

theorem getBinaryData_ok_iff (law : db.Lawful book) (sound : book.sound h.dbh) {key cdata : List UInt8}
    {parts : List (List UInt8)} (found : (book.holding h.dbh).contents key = some cdata) :
    (∃ h', (getBinaryData db key).Returns h (.ok parts) h') ↔
      (h.store.split cdata).2 = some parts := by
  obtain ⟨s', read, -⟩ := law.keyed.get_found sound found
  exact getBinaryData_read read

theorem get_read {ck : Serializable κ} {cd : Serializable α} {key : κ} {keyObj cdata : List UInt8}
    {v : List α} {s' : σ} (named : ck.writeObject key = some keyObj)
    (read : (db.get keyObj).Returns h.dbh (.ok cdata) s') :
    (∃ h', (get db ck cd key).Returns h (.ok v) h') ↔
      ∃ parts, (h.store.split cdata).2 = some parts ∧ parts.mapM cd.readObject = some v := by
  unfold get
  simp only [named, Prog.returns_bind]
  constructor
  · rintro ⟨h', _, _, first, rest⟩
    split at rest
    · simp at rest
    · rename_i parts
      refine ⟨parts, (getBinaryData_read read).mp ⟨_, first⟩, ?_⟩
      split at rest
      · simp at rest
      · rename_i vs objects
        simp only [Prog.returns_pure, Except.ok.injEq] at rest
        rw [objects, rest.1]
  · rintro ⟨parts, cut, objects⟩
    obtain ⟨h', first⟩ := (getBinaryData_read read).mpr cut
    refine ⟨h', .ok parts, h', first, ?_⟩
    simp only [objects, Prog.returns_pure, and_self]

theorem get_ok_iff (law : db.Lawful book) (sound : book.sound h.dbh) {ck : Serializable κ}
    {cd : Serializable α} {key : κ} {keyObj cdata : List UInt8} {v : List α}
    (named : ck.writeObject key = some keyObj) (found : (book.holding h.dbh).contents keyObj = some cdata) :
    (∃ h', (get db ck cd key).Returns h (.ok v) h') ↔
      ∃ parts, (h.store.split cdata).2 = some parts ∧ parts.mapM cd.readObject = some v := by
  obtain ⟨s', read, -⟩ := law.keyed.get_found sound found
  exact get_read named read

end Runs

theorem binaryForm_inverts : binaryForm.Inverts := by
  intro a b same
  cases same
  rfl

theorem mapM_readObject {cd : Serializable α} {v : List α} {parts : List (List UInt8)}
    (inverts : cd.Inverts) (written : v.map cd.writeObject = parts.map some) :
    parts.mapM cd.readObject = some v := by
  rw [mapM_eq_some_iff]
  induction v generalizing parts with
  | nil =>
    cases parts with
    | nil => rfl
    | cons b parts => cases written
  | cons a v ih =>
    cases parts with
    | nil => cases written
    | cons b parts =>
      rw [List.map_cons, List.map_cons, List.cons.injEq] at written
      rw [List.map_cons, List.map_cons, inverts a b written.1, ih written.2]

theorem get_binaryForm_iff {db : Database σ ε} {h : Session σ} {ck : Serializable κ} {key : κ}
    {keyObj cdata : List UInt8} {parts : List (List UInt8)} {s' : σ}
    (named : ck.writeObject key = some keyObj) (read : (db.get keyObj).Returns h.dbh (.ok cdata) s') :
    (∃ h', (get db ck binaryForm key).Returns h (.ok parts) h') ↔
      (h.store.split cdata).2 = some parts := by
  rw [get_read named read]
  have itself : ∀ ps : List (List UInt8), ps.mapM binaryForm.readObject = some ps := fun ps =>
    mapM_readObject binaryForm_inverts rfl
  constructor
  · rintro ⟨ps, cut, same⟩
    rw [itself ps, Option.some.injEq] at same
    rwa [← same]
  · intro cut
    exact ⟨parts, cut, itself parts⟩

def reopened (nbin : Nat) : Prog σ ε (Option AllConfStoreDB) := do
  db.reopen
  openHandle db nbin

theorem returns_reopened {db : Database σ ε} {book : Ledger σ} (durable : db.Durable book) {s : σ}
    (sound : book.sound s) (rests : book.rests s) {keyObj cdata : List UInt8}
    (found : (book.holding s).contents keyObj = some cdata) (full : cdata ≠ []) (nbin : Nat) :
    ∃ s' s'', (reopened db nbin).Returns s
        (if pos : 0 < (book.holding s).numConfigs then some ⟨(book.holding s).numConfigs, 0, false, pos⟩
          else none) s' ∧
      (db.get keyObj).Returns s' (.ok cdata) s'' := by
  obtain ⟨s₁, s₂, s₃, s₄, reopen, some_there, configs, read⟩ := durable.reopens sound rests found full
  refine ⟨s₃, s₄, ?_, read⟩
  unfold reopened openHandle
  refine Prog.returns_bind.mpr ⟨(), s₁, reopen, ?_⟩
  refine Prog.returns_bind.mpr ⟨false, s₂, some_there, ?_⟩
  refine Prog.returns_bind.mpr ⟨_, s₃, configs, ?_⟩
  split <;> simp

/-- The key gives exactly the vector, through the handle and through one opened afterwards. -/
def ReadsBack (ck : Serializable κ) (cd : Serializable α) (key : κ) (v : List α)
    (h : Session σ) : Prop :=
  (∃ h', (get db ck cd key).Returns h (.ok v) h') ∧
    ∀ nbin, ∃ store s h', (reopened db nbin).Returns h.dbh (some store) s ∧
      (get db ck cd key).Returns ⟨store, s⟩ (.ok v) h'

/-- What an ensemble has to be for the equal cut to recover it: all elements have one
positive size, which the handle does not contradict, and the file was created for as many
configurations as the handle inserts. -/
def Recoverable (store : AllConfStoreDB) (numConfigs : Nat) (parts : List (List UInt8)) : Prop :=
  numConfigs = store.nbin ∧
    ∃ size, 0 < size ∧ (∀ part ∈ parts, part.length = size) ∧ store.Agrees size

variable {db}

/-- An accepted ensemble is read back, whatever the type of its objects, exactly when it is
recoverable. -/
theorem ensemble_round_trip {book : Ledger σ} (law : db.Lawful book) (durable : db.Durable book) {h : Session σ}
    (sound : book.sound h.dbh) (rests : book.rests h.dbh) {ck : Serializable κ} {key : κ}
    {keyObj : List UInt8} (named : ck.writeObject key = some keyObj)
    {parts : List (List UInt8)} (count : parts.length = h.store.nbin)
    (covered : book.covers h.dbh keyObj parts.flatten) {s : σ}
    (accepted : (db.put keyObj parts.flatten).Returns h.dbh 0 s) :
    (∀ (D : Type) (cd : Serializable D) (v : List D), cd.Inverts →
        v.map cd.writeObject = parts.map some →
        ∀ h', (insert db ck cd key v).Returns h 0 h' → ReadsBack db ck cd key v h') ↔
      Recoverable h.store (book.holding h.dbh).numConfigs parts := by
  have found : (book.holding s).contents keyObj = some parts.flatten := by
    rw [law.keyed.put_stored sound covered accepted]
    exact Function.update_self ..
  have sound' := law.keyed.put_sound sound covered accepted
  have rests' := durable.put_rests sound rests covered accepted
  have numConfigs := law.put_numConfigs sound covered accepted
  obtain ⟨s₀, read, -⟩ := law.keyed.get_found sound' found
  -- what is read back has bytes
  have full : ∀ size, 0 < size → (∀ part ∈ parts, part.length = size) → parts.flatten ≠ [] := by
    intro size pos each none_there
    have length := Lib.length_flatten_of_uniform each
    rw [none_there, count, List.length_nil] at length
    exact absurd length (Nat.ne_of_lt (Nat.mul_pos h.store.nbin_pos pos))
  constructor
  · intro all
    -- a string is its own binary form, so its ensemble shows how the bytes are cut
    have inserted : (insert db ck binaryForm key parts).Returns h 0
        ⟨h.store.noteSize (parts.headD []).length, s⟩ :=
      (returns_insert count named rfl).mpr ⟨s, accepted, rfl⟩
    obtain ⟨own, other⟩ := all _ binaryForm parts binaryForm_inverts rfl _ inserted
    obtain ⟨size, pos, each, agrees⟩ := (split_flatten_iff (by simpa using count)).mp
      ((get_binaryForm_iff named read).mp own)
    refine ⟨?_, size, pos, each, agrees_of_noted agrees⟩
    obtain ⟨store, s', h', opened, got⟩ := other 0
    obtain ⟨s'', s₁, opened', read'⟩ := returns_reopened durable sound' rests' found (full size pos each) 0
    obtain ⟨known, rfl⟩ := opened.unique opened'
    split at known
    · cases known
      have cut := (get_binaryForm_iff named read').mp ⟨h', got⟩
      -- as many parts as configurations: all have the same length, by either count
      have nonempty : parts ≠ [] := by
        intro none_there
        have := h.store.nbin_pos
        simp [none_there] at count
        omega
      obtain ⟨part, mem⟩ := List.exists_mem_of_ne_nil parts nonempty
      have whole := (split_some cut).1
      have quotient := length_of_split cut mem
      rw [each part mem] at quotient
      rw [← quotient, Lib.length_flatten_of_uniform each, count] at whole
      rw [← numConfigs]
      exact (Nat.eq_of_mul_eq_mul_right pos whole).symm
    · cases known
  · rintro ⟨same, size, pos, each, agrees⟩ D cd v inverts written h' inserted
    obtain ⟨s', put, rfl⟩ := (returns_insert count named written).mp inserted
    obtain ⟨-, rfl⟩ := put.unique accepted
    have first : (parts.headD []).length = size := by
      cases parts with
      | nil =>
        have := h.store.nbin_pos
        simp at count
        omega
      | cons part parts => exact each part List.mem_cons_self
    have objects := mapM_readObject inverts written
    constructor
    · refine (get_read named read).mpr ⟨parts, (split_flatten_iff ?_).mpr
        ⟨size, pos, each, .inr ?_⟩, objects⟩
      · simpa using count
      · rw [first]
        exact noteSize_of_agrees agrees
    · intro nbin
      obtain ⟨s'', s₁, opened, read'⟩ := returns_reopened durable sound' rests' found (full size pos each) nbin
      have some_configs : 0 < (book.holding s').numConfigs := by
        rw [numConfigs, same]
        exact h.store.nbin_pos
      rw [dif_pos some_configs] at opened
      have cut : (split ⟨(book.holding s').numConfigs, 0, false, some_configs⟩ parts.flatten).2 =
          some parts :=
        (split_flatten_iff (by rw [count, ← same, ← numConfigs])).mpr ⟨size, pos, each, .inl rfl⟩
      obtain ⟨h', got⟩ := (get_read (h := ⟨_, s''⟩) named read').mpr ⟨parts, cut, objects⟩
      exact ⟨_, s'', h', opened, got⟩

/-- A database kept as a list of pairs, which refuses a value above a bound. -/
structure Listing where
  pairs : List (List UInt8 × List UInt8)
  numConfigs : Nat

def Listing.setPairs (pairs : List (List UInt8 × List UInt8)) (l : Listing) : Listing :=
  { l with pairs := pairs }

theorem Listing.pairs_setPairs (pairs : List (List UInt8 × List UInt8)) (l : Listing) :
    (l.setPairs pairs).pairs = pairs := rfl

def Listing.holding (l : Listing) : Holding := ⟨KeyStore.listContents l.pairs, l.numConfigs⟩

def listDatabase (bound : Nat) : Database Listing ε where
  toKeyStore := (KeyStore.ofList fun _ v => decide (v.length ≤ bound)).inside Listing.pairs
    Listing.setPairs
  isDatabaseEmpty := Prog.reads fun l => l.pairs.isEmpty
  getAllConfigs := Prog.reads Listing.numConfigs
  setAllConfigs n := Prog.reads fun l => if n = l.numConfigs then 0 else -1
  reopen := pure ()

def listLedger (bound : Nat) : Ledger Listing where
  holding := Listing.holding
  sound l := KeyStore.Admitted (fun _ v => decide (v.length ≤ bound)) l.pairs
  rests _ := True
  admits _ v := decide (v.length ≤ bound) = true
  covers _ _ _ := True

theorem listDatabase_lawful (bound : Nat) :
    (listDatabase bound : Database Listing ε).Lawful (listLedger bound) where
  keyed := (KeyStore.ofList_lawful _).inside Listing.pairs_setPairs
  get_numConfigs _ run := by
    obtain ⟨_, -, rfl⟩ := Prog.returns_zoom.mp run
    rfl
  put_numConfigs _ _ run := by
    obtain ⟨_, -, rfl⟩ := Prog.returns_zoom.mp run
    rfl
  replaces {l k v w} sound found shorter := by
    refine ⟨trivial, fun st l' run => ?_⟩
    obtain ⟨_, put, -⟩ := Prog.returns_zoom.mp run
    have most := of_decide_eq_true (sound k w found)
    have fits : decide (v.length ≤ bound) = true := decide_eq_true (Nat.le_trans shorter most)
    simp only [KeyStore.ofList, fits, if_true, Prog.returns_modify_bind, Prog.returns_pure] at put
    exact put.1.symm

theorem listDatabase_durable (bound : Nat) :
    (listDatabase bound : Database Listing ε).Durable (listLedger bound) where
  put_rests _ _ _ _ := trivial
  reopens {l k v} sound _ found _ := by
    obtain ⟨_, read, -⟩ := ((KeyStore.ofList_lawful (ε := ε) (fun (_ : List UInt8) (v : List UInt8) =>
      decide (v.length ≤ bound))).inside Listing.pairs_setPairs).get_found sound found
    refine ⟨l, l, l, _, rfl, ?_, rfl, read⟩
    have some_pairs : l.pairs.isEmpty = false := by
      cases pairs : l.pairs with
      | nil => simp [listLedger, Listing.holding, KeyStore.listContents, pairs] at found
      | cons _ _ => rfl
    rw [← some_pairs]
    rfl

def newSession : Session Listing := ⟨⟨2, 0, true, by decide⟩, ⟨[], 2⟩⟩

theorem newSession_sound : (listLedger 8).sound newSession.dbh := fun _ _ there =>
  absurd there (by simp [newSession, KeyStore.listContents])

theorem ensemble_round_trip_pair :
    ReadsBack (listDatabase 8 : Database Listing Empty) binaryForm binaryForm [7] [[1], [2]]
      ⟨⟨2, 1, true, by decide⟩, ⟨[([7], [1, 2])], 2⟩⟩ := by
  have accepted : ((listDatabase 8 : Database Listing Empty).put [7] [1, 2]).Returns
      newSession.dbh 0 ⟨[([7], [1, 2])], 2⟩ := rfl
  have named : binaryForm.writeObject [7] = some [7] := rfl
  have count : ([[1], [2]] : List (List UInt8)).length = newSession.store.nbin := rfl
  exact (ensemble_round_trip (listDatabase_lawful 8) (listDatabase_durable 8) newSession_sound trivial named count trivial accepted).mpr
    ⟨rfl, 1, by decide, by decide, .inl rfl⟩ _ binaryForm [[1], [2]] binaryForm_inverts rfl _ rfl

/-- Elements of one and of two bytes are accepted, and cannot be read back. -/
theorem ragged_ensemble_lost :
    ∃ h', (insert (listDatabase 8 : Database Listing Empty) binaryForm binaryForm [7]
        [[1], [2, 3]]).Returns newSession 0 h' ∧
      ¬ReadsBack (listDatabase 8 : Database Listing Empty) binaryForm binaryForm [7]
        [[1], [2, 3]] h' := by
  refine ⟨⟨⟨2, 1, true, by decide⟩, ⟨[([7], [1, 2, 3])], 2⟩⟩, rfl, ?_⟩
  rintro ⟨⟨h', read⟩, -⟩
  have failed : (get (listDatabase 8 : Database Listing Empty) binaryForm binaryForm [7]).Returns
      ⟨⟨2, 1, true, by decide⟩, ⟨[([7], [1, 2, 3])], 2⟩⟩ (.error (-1))
      ⟨⟨2, 1, true, by decide⟩, ⟨[([7], [1, 2, 3])], 2⟩⟩ := rfl
  cases (read.unique failed).1

end AllConfStoreDB
end FileHash
