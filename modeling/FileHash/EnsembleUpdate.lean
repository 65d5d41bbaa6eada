import FileHash.Ensemble
import Mathlib.Algebra.Order.Ring.Int
import Mathlib.Tactic.Linarith

/-! `AllConfStoreDB::update`: one configuration of an ensemble is replaced. In the first
pass over a new database the ensemble is made of default objects; in the passes after it
the stored string is cut and patched. `updateDone` goes from the one to the other. -/
namespace FileHash

open Lib (Prog KeyStore pieces overwrite)

namespace AllConfStoreDB

variable {σ ε κ α : Type} (db : Database σ ε)

def padded (nbin : Nat) (dflt v : α) (index : Nat) : List α := (List.replicate nbin dflt).set index v

/-- The checks `update` makes of the string it has got and of the new element: the members
afterwards, and the bytes of the element, if they are of the right number. -/
def checked (store : AllConfStoreDB) (tmp : Option (List UInt8)) (cdata : List UInt8) :
    AllConfStoreDB × Option (List UInt8) :=
  if cdata.length % store.nbin ≠ 0 then (store, none)
  else
    let store := store.noteSize (cdata.length / store.nbin)
    if store.bytesize ≠ cdata.length / store.nbin then (store, none)
    else (store, tmp.filter fun tmp => tmp.length = store.bytesize)

def Within (index : Int) (t cdata : List UInt8) : Prop :=
  0 ≤ index * t.length ∧ index * t.length + t.length ≤ cdata.length

instance (index : Int) (t cdata : List UInt8) : Decidable (Within index t cdata) :=
  inferInstanceAs (Decidable (_ ∧ _))

/-- `AllConfStoreDB::update`; `dflt` is what the default constructor makes. An index out of
range is not looked at: the memory behind the vector or the string is written to, unless
there are no bytes to write. -/
def update (ck : Serializable κ) (cd : Serializable α) (dflt : α) (key : κ) (v : α) (index : Int) :
    Prog (Session σ) ε Int := do
  let h ← Prog.read
  if h.store.empty then
    if 0 ≤ index ∧ index < h.store.nbin then
      insert db ck cd key (padded h.store.nbin dflt v index.toNat)
    else Prog.halt .segv
  else
    match ck.writeObject key with
    | none => pure (-1)
    | some keyObj =>
      match ← onDb (db.get keyObj) with
      | .error _ => pure (-1)
      | .ok cdata =>
        let r := h.store.checked (cd.writeObject v) cdata
        Prog.modify fun h => { h with store := r.1 }
        match r.2 with
        | none => pure (-1)
        | some tmp =>
          if Within index tmp cdata then
            onDb (db.put keyObj (overwrite cdata (index * tmp.length).toNat tmp))
          else Prog.halt .segv

/-- `AllConfStoreDB::updateDone`. -/
def updateDone : Prog (Session σ) ε Unit :=
  Prog.modify fun h => { h with store := { h.store with empty := false } }

section Checks

variable {db} {holding : σ → Holding} {book : Ledger σ}
variable {h h' : Session σ} {ck : Serializable κ} {cd : Serializable α} {dflt v : α} {key : κ}
variable {index : Int} {st : Int} {keyObj cdata t : List UInt8}

theorem checked_eq_some {store : AllConfStoreDB} {tmp : Option (List UInt8)} :
    (store.checked tmp cdata).2 = some t ↔
      tmp = some t ∧ cdata.length = store.nbin * t.length ∧ store.Agrees t.length := by
  unfold checked
  constructor
  · intro passed
    split at passed
    · cases passed
    · rename_i divides
      simp only [noteSize_nbin] at passed
      split at passed
      · cases passed
      · rename_i noted
        push Not at divides noted
        rw [Option.filter_eq_some_iff, decide_eq_true_eq, noted] at passed
        obtain ⟨written, length⟩ := passed
        rw [← length] at noted
        refine ⟨written, ?_, agrees_of_noteSize noted⟩
        rw [length]
        exact (Nat.mul_div_cancel' (Nat.dvd_of_mod_eq_zero divides)).symm
  · rintro ⟨rfl, whole, agrees⟩
    have quotient : cdata.length / store.nbin = t.length := by
      rw [whole]
      exact Nat.mul_div_cancel_left _ store.nbin_pos
    have divides : ¬cdata.length % store.nbin ≠ 0 := by
      rw [whole]
      simp
    rw [if_neg divides]
    simp only [noteSize_nbin]
    rw [quotient, noteSize_of_agrees agrees, if_neg (not_not_intro rfl)]
    simp

theorem checked_store {store : AllConfStoreDB} {tmp : Option (List UInt8)}
    (passed : (store.checked tmp cdata).2 = some t) :
    (store.checked tmp cdata).1 = store.noteSize t.length := by
  obtain ⟨-, whole, -⟩ := checked_eq_some.mp passed
  have quotient : cdata.length / store.nbin = t.length := by
    rw [whole]
    exact Nat.mul_div_cancel_left _ store.nbin_pos
  unfold checked at passed ⊢
  split at passed
  · cases passed
  · rw [if_neg ‹_›, quotient]
    dsimp only
    split
    · rfl
    · rfl

structure Checks (holding : σ → Holding) (h : Session σ) (keyObj : Option (List UInt8))
    (tmp : Option (List UInt8)) (k cdata t : List UInt8) : Prop where
  named : keyObj = some k
  found : (holding h.dbh).contents k = some cdata
  written : tmp = some t
  whole : cdata.length = h.store.nbin * t.length
  agrees : h.store.Agrees t.length

theorem noteSize_empty {store : AllConfStoreDB} {size : Nat} :
    (store.noteSize size).empty = store.empty := by
  unfold noteSize
  split <;> rfl

theorem checked_keeps {store : AllConfStoreDB} {tmp : Option (List UInt8)} :
    (store.checked tmp cdata).1.nbin = store.nbin ∧ (store.checked tmp cdata).1.empty = store.empty := by
  unfold checked
  split
  · exact ⟨rfl, rfl⟩
  · dsimp only
    split
    · exact ⟨noteSize_nbin, noteSize_empty⟩
    · exact ⟨noteSize_nbin, noteSize_empty⟩

def Alike (h h' : Session σ) : Prop :=
  h'.store.nbin = h.store.nbin ∧ h'.store.empty = h.store.empty

theorem update_refused (law : db.Lawful book) (sound : book.sound h.dbh) (later : h.store.empty = false)
    (no : ∀ k cdata t, ¬Checks book.holding h (ck.writeObject key) (cd.writeObject v) k cdata t) :
    ∃ h', (update db ck cd dflt key v index).Returns h (-1) h' ∧ Alike h h' ∧
      (book.holding h'.dbh).contents = (book.holding h.dbh).contents ∧ book.sound h'.dbh := by
  unfold update
  simp only [Prog.returns_read_bind, later, Bool.false_eq_true, if_false]
  cases named : ck.writeObject key with
  | none => exact ⟨h, Prog.returns_pure.mpr ⟨rfl, rfl⟩, ⟨rfl, rfl⟩, rfl, sound⟩
  | some k =>
    obtain ⟨r, s', read, found, same⟩ := law.keyed.get_returns k sound
    cases r with
    | error ret =>
      refine ⟨⟨h.store, s'⟩, Prog.returns_bind.mpr ⟨.error ret, _, returns_onDb.mpr ⟨s', read, rfl⟩, ?_⟩,
        ⟨rfl, rfl⟩, same⟩
      exact Prog.returns_pure.mpr ⟨rfl, rfl⟩
    | ok cdata =>
      refine ⟨⟨(h.store.checked (cd.writeObject v) cdata).1, s'⟩,
        Prog.returns_bind.mpr ⟨.ok cdata, _, returns_onDb.mpr ⟨s', read, rfl⟩, ?_⟩,
        checked_keeps, same⟩
      dsimp only
      rw [Prog.returns_modify_bind]
      cases passed : (h.store.checked (cd.writeObject v) cdata).2 with
      | none => exact Prog.returns_pure.mpr ⟨rfl, rfl⟩
      | some t =>
        obtain ⟨written, whole, agrees⟩ := checked_eq_some.mp passed
        exact absurd ⟨named, found.symm, written, whole, agrees⟩ (no k cdata t)

theorem returns_update (law : db.Lawful book) (sound : book.sound h.dbh) (later : h.store.empty = false)
    (checks : Checks book.holding h (ck.writeObject key) (cd.writeObject v) keyObj cdata t) :
    (update db ck cd dflt key v index).Returns h st h' ↔
      Within index t cdata ∧ ∃ s s', (db.get keyObj).Returns h.dbh (.ok cdata) s ∧
        (db.put keyObj (overwrite cdata (index * t.length).toNat t)).Returns s st s' ∧
        (⟨h.store.noteSize t.length, s'⟩ : Session σ) = h' := by
  obtain ⟨named, found, written, whole, agrees⟩ := checks
  obtain ⟨s, read, -⟩ := law.keyed.get_found sound found
  have passed := checked_eq_some.mpr ⟨written, whole, agrees⟩
  have store := checked_store passed
  unfold update
  simp only [Prog.returns_read_bind, later, Bool.false_eq_true, if_false, named]
  have got : (onDb (db.get keyObj)).Returns h (.ok cdata) ⟨h.store, s⟩ :=
    returns_onDb.mpr ⟨s, read, rfl⟩
  rw [got.bind]
  dsimp only
  rw [Prog.returns_modify_bind, passed, store]
  dsimp only
  constructor
  · intro run
    split at run
    · obtain ⟨s', put, rfl⟩ := returns_onDb.mp run
      exact ⟨‹_›, s, s', read, put, rfl⟩
    · exact absurd run Prog.returns_halt
  · rintro ⟨range, s₁, s', read', put, rfl⟩
    obtain ⟨-, rfl⟩ := read.unique read'
    rw [if_pos range]
    exact returns_onDb.mpr ⟨s', put, rfl⟩

theorem Checks.covered (law : db.Lawful book) (checks : Checks book.holding h (ck.writeObject key)
    (cd.writeObject v) keyObj cdata t)
    (within : Within index t cdata) {s : σ} (sound : book.sound h.dbh)
    (read : (db.get keyObj).Returns h.dbh (.ok cdata) s) :
    book.covers s keyObj (overwrite cdata (index * t.length).toNat t) ∧ ∀ st s',
      (db.put keyObj (overwrite cdata (index * t.length).toNat t)).Returns s st s' → st = 0 := by
  obtain ⟨-, same, there⟩ := law.keyed.get_keeps sound read
  refine law.replaces (w := cdata) there ?_ (le_of_eq ?_)
  · rw [same]
    exact checks.found
  · refine Lib.length_overwrite ?_
    have := within.1
    have := within.2
    omega

end Checks

section OneCall

variable {db} {holding : σ → Holding} {book : Ledger σ}
variable {h h' : Session σ} {ck : Serializable κ} {cd : Serializable α} {dflt v : α} {key : κ}
variable {index : Int} {st : Int} {keyObj cdata t : List UInt8} {b₀ tmp : Option (List UInt8)}

/-- What one update promises, made in the session `h`. -/
structure Updates (db : Database σ ε) (holding : σ → Holding) (ck : Serializable κ)
    (cd : Serializable α) (dflt : α) (key : κ) (v : α) (index : Int) (h : Session σ) : Prop where
  replaced : ∀ h', (update db ck cd dflt key v index).Returns h 0 h' →
    ∀ old h₁, (get db ck cd key).Returns h (.ok old) h₁ → 0 ≤ index ∧ index < old.length ∧
      ∃ h₂, (get db ck cd key).Returns h' (.ok (old.set index.toNat v)) h₂
  unchanged : ∀ st h', (update db ck cd dflt key v index).Returns h st h' → st ≠ 0 →
    (holding h'.dbh).contents = (holding h.dbh).contents
  refused : ¬(0 ≤ index ∧ index < h.store.nbin) →
    ∃ st h', (update db ck cd dflt key v index).Returns h st h' ∧ st ≠ 0

theorem within_of_range (whole : cdata.length = h.store.nbin * t.length)
    (range : 0 ≤ index ∧ index < h.store.nbin) :
    (index * t.length).toNat = index.toNat * t.length ∧ Within index t cdata := by
  obtain ⟨i, rfl⟩ := Int.eq_ofNat_of_zero_le range.1
  have small : i < h.store.nbin := by exact_mod_cast range.2
  have turn : i * t.length + t.length ≤ h.store.nbin * t.length := by
    rw [← Nat.succ_mul]
    exact Nat.mul_le_mul_right _ small
  refine ⟨by rw [← Int.natCast_mul, Int.toNat_natCast, Int.toNat_natCast], ?_, ?_⟩
  · exact_mod_cast Nat.zero_le _
  · rw [whole]
    exact_mod_cast turn

theorem range_of_within (whole : cdata.length = h.store.nbin * t.length) (pos : t ≠ [])
    (within : Within index t cdata) : 0 ≤ index ∧ index < h.store.nbin := by
  have length : (0 : Int) < t.length := by exact_mod_cast List.length_pos_of_ne_nil pos
  obtain ⟨low, high⟩ := within
  have low' : 0 ≤ index := by
    by_contra neg
    have := Int.mul_neg_of_neg_of_pos (not_le.mp neg) length
    omega
  refine ⟨low', ?_⟩
  by_contra big
  rw [whole] at high
  have := Int.mul_le_mul_of_nonneg_right (not_lt.mp big) length.le
  push_cast at high
  omega

theorem split_whole {store : AllConfStoreDB} {size : Nat} (whole : cdata.length = store.nbin * size)
    (pos : 0 < size) (agrees : store.Agrees size) : ∃ parts, (store.split cdata).2 = some parts ∧
      cdata = parts.flatten ∧ parts.length = store.nbin ∧ ∀ part ∈ parts, part.length = size := by
  have divides : ¬cdata.length % store.nbin ≠ 0 := by
    rw [whole]
    simp
  have quotient : cdata.length / store.nbin = size := by
    rw [whole]
    exact Nat.mul_div_cancel_left size store.nbin_pos
  obtain ⟨flatten, count⟩ := Lib.pieces_whole pos whole
  refine ⟨pieces size cdata, ?_, flatten.symm, count, fun part mem =>
    Lib.length_of_mem_pieces whole mem⟩
  unfold split
  rw [if_neg divides]
  simp only [noteSize_nbin]
  rw [quotient, noteSize_of_agrees agrees, if_neg (not_not_intro rfl)]

theorem mapM_set {f : List UInt8 → Option α} {parts : List (List UInt8)} {old : List α} {b : List UInt8}
    {a : α} (read : parts.mapM f = some old) (new : f b = some a) (i : Nat) :
    (parts.set i b).mapM f = some (old.set i a) := by
  rw [mapM_eq_some_iff] at read ⊢
  rw [List.map_set, List.map_set, read, new]

theorem updates_refused (law : db.Lawful book) (sound : book.sound h.dbh) (later : h.store.empty = false)
    (no : ∀ k cdata t, ¬Checks book.holding h (ck.writeObject key) (cd.writeObject v) k cdata t) :
    Updates db book.holding ck cd dflt key v index h := by
  obtain ⟨h', run, -, same, -⟩ : ∃ h', (update db ck cd dflt key v index).Returns h (-1) h' ∧ Alike h h' ∧
      (book.holding h'.dbh).contents = (book.holding h.dbh).contents ∧ book.sound h'.dbh :=
    update_refused law sound later no
  constructor
  · intro h'' run' old h₁ read
    cases (run.unique run').1
  · intro st h'' run' no
    obtain ⟨rfl, rfl⟩ := run.unique run'
    exact same
  · exact fun _ => ⟨-1, h', run, by decide⟩

theorem updates_later (law : db.Lawful book) (sound : book.sound h.dbh) (inverts : cd.Inverts)
    (later : h.store.empty = false) (range : 0 ≤ index ∧ index < h.store.nbin)
    (pos : cd.writeObject v ≠ some []) : Updates db book.holding ck cd dflt key v index h := by
  by_cases passes : ∃ k cdata t, Checks book.holding h (ck.writeObject key) (cd.writeObject v) k cdata t
  · obtain ⟨k, cdata, t, checks⟩ := passes
    have size : 0 < t.length := by
      rw [checks.written] at pos
      exact List.length_pos_of_ne_nil fun none_there => pos (by rw [none_there])
    obtain ⟨place, -⟩ := within_of_range checks.whole range
    obtain ⟨parts, cut, rfl, count, each⟩ := split_whole checks.whole size checks.agrees
    have small : index.toNat < parts.length := by omega
    have patched := Lib.overwrite_flatten each rfl small
    constructor
    · intro h' run old h₁ read
      obtain ⟨within, s, s', got, put, rfl⟩ := (returns_update law sound later checks).mp run
      obtain ⟨covered, -⟩ := checks.covered law within sound got
      have there := (law.keyed.get_keeps sound got).2.2
      have sound' := law.keyed.put_sound there covered put
      have stored := law.keyed.put_stored there covered put
      obtain ⟨parts', cut', objects⟩ := (get_ok_iff law sound checks.named checks.found).mp ⟨h₁, read⟩
      rw [cut, Option.some.injEq] at cut'
      subst cut'
      have length : old.length = parts.length := by
        have := congrArg List.length (mapM_eq_some_iff.mp objects)
        simpa using this.symm
      refine ⟨range.1, by omega, ?_⟩
      have found' : (book.holding s').contents k = some (parts.set index.toNat t).flatten := by
        rw [stored, place, patched]
        exact Function.update_self ..
      refine (get_ok_iff law sound' checks.named found').mpr ⟨_, (split_flatten_iff ?_).mpr
        ⟨t.length, size, fun part mem => ?_, .inr (noteSize_of_agrees checks.agrees)⟩,
        mapM_set objects (inverts v t checks.written) _⟩
      · rw [List.length_set, noteSize_nbin, count]
      · exact (List.mem_or_eq_of_mem_set mem).elim (each part) fun same => by rw [same]
    · intro st h' run no
      obtain ⟨within, s, s', got, put, rfl⟩ := (returns_update law sound later checks).mp run
      exact absurd ((checks.covered law within sound got).2 st s' put) no
    · exact fun out => absurd range out
  · push Not at passes
    exact updates_refused law sound later passes

theorem measure_dbh {first : Option (List UInt8)} {b : Bool}
    (run : (measure first : Prog (Session σ) ε Bool).Returns h b h') : h'.dbh = h.dbh := by
  unfold measure at run
  rw [Prog.returns_read_bind] at run
  split at run
  · split at run
    · rw [← (Prog.returns_pure.mp run).2]
    · rw [Prog.returns_modify_bind] at run
      rw [← (Prog.returns_pure.mp run).2]
  · rw [← (Prog.returns_pure.mp run).2]

theorem insert_cases {vs : List α} (count : vs.length = h.store.nbin)
    (run : (insert db ck cd key vs).Returns h st h') :
    (st = -1 ∧ h'.dbh = h.dbh) ∨ ∃ (k : List UInt8) (parts : List (List UInt8)), ck.writeObject key = some k ∧
      vs.map cd.writeObject = parts.map some ∧ ∃ s', (db.put k parts.flatten).Returns h.dbh st s' ∧
        (⟨h.store.noteSize (parts.headD []).length, s'⟩ : Session σ) = h' := by
  have whole := run
  unfold insert at run
  rw [Prog.returns_read_bind, if_neg (not_not_intro count)] at run
  obtain ⟨b, mid, noted, run⟩ := Prog.returns_bind.mp run
  have same := measure_dbh noted
  split at run
  · unfold combine at run
    cases written : vs.mapM cd.writeObject with
    | none =>
      rw [written] at run
      obtain ⟨rfl, rfl⟩ := Prog.returns_pure.mp run
      exact .inl ⟨rfl, same⟩
    | some parts =>
      have each := mapM_eq_some_iff.mp written
      cases named : ck.writeObject key with
      | none =>
        rw [written, named] at run
        exact absurd run Prog.returns_halt
      | some k =>
        have length : parts.length = h.store.nbin := by
          have := congrArg List.length each
          simpa [count] using this.symm
        exact .inr ⟨k, parts, rfl, each, (returns_insert length named each).mp whole⟩
  · obtain ⟨rfl, rfl⟩ := Prog.returns_pure.mp run
    exact .inl ⟨rfl, same⟩

theorem get_ok_found (law : db.Lawful book) (sound : book.sound h.dbh) {vs : List α}
    (run : (get db ck cd key).Returns h (.ok vs) h') :
    ∃ k cdata, ck.writeObject key = some k ∧ (book.holding h.dbh).contents k = some cdata := by
  unfold get at run
  cases named : ck.writeObject key with
  | none =>
    rw [named] at run
    cases (Prog.returns_pure.mp run).1
  | some k =>
    rw [named] at run
    obtain ⟨r, mid, first, rest⟩ := Prog.returns_bind.mp run
    cases r with
    | error ret => cases (Prog.returns_pure.mp rest).1
    | ok parts =>
      unfold getBinaryData at first
      obtain ⟨r, mid', read, cutting⟩ := Prog.returns_bind.mp first
      obtain ⟨s', got, rfl⟩ := returns_onDb.mp read
      cases r with
      | error ret => cases (Prog.returns_pure.mp cutting).1
      | ok cdata => exact ⟨k, cdata, rfl, (law.keyed.get_keeps sound got).1.symm⟩

theorem map_padded {β : Type} (f : α → β) (nbin i : Nat) :
    (padded nbin dflt v i).map f = padded nbin (f dflt) (f v) i := by
  rw [padded, List.map_set, List.map_replicate, padded]

@[simp] theorem length_padded (nbin i : Nat) : (padded nbin dflt v i).length = nbin := by
  simp [padded]

theorem padded_parts {nbin i : Nat} {parts : List (List UInt8)} (small : i < nbin)
    (written : padded nbin b₀ tmp i = parts.map some) : ∃ t, tmp = some t ∧ parts[i]? = some t ∧
      ((nbin = 1 ∧ parts = [t]) ∨ (nbin ≠ 1 ∧ ∃ b, b₀ = some b ∧ parts = padded nbin b t i)) := by
  have length : parts.length = nbin := by
    have := congrArg List.length written
    simpa using this.symm
  have here : parts[i]?.map some = some tmp := by
    rw [← List.getElem?_map, ← written, padded, List.getElem?_set_self (by simpa)]
  obtain ⟨t, found, same⟩ := Option.map_eq_some_iff.mp here
  refine ⟨t, same.symm, found, ?_⟩
  by_cases one : nbin = 1
  · left
    obtain ⟨part, rfl⟩ := List.length_eq_one_iff.mp (length.trans one)
    have first : i = 0 := by omega
    subst first
    simp only [List.getElem?_cons_zero, Option.some.injEq] at found
    exact ⟨one, by rw [found]⟩
  · right
    -- another place, which has the default object
    obtain ⟨j, other, small'⟩ : ∃ j, j ≠ i ∧ j < nbin := by
      by_cases first : i = 0
      · exact ⟨1, by omega, by omega⟩
      · exact ⟨0, by omega, by omega⟩
    have there : parts[j]?.map some = some b₀ := by
      rw [← List.getElem?_map, ← written, padded, List.getElem?_set_ne (Ne.symm other)]
      simp [small']
    obtain ⟨b, -, default⟩ := Option.map_eq_some_iff.mp there
    refine ⟨one, b, default.symm, ?_⟩
    have again : (padded nbin b t i).map some = parts.map some := by
      rw [map_padded, ← written, ← default, ← same]
    exact (List.map_injective_iff.mpr (Option.some_injective _) again).symm

theorem length_flatten_padded {nbin i : Nat} {b t : List UInt8} (small : i < nbin) :
    (padded nbin b t i).flatten.length + b.length = nbin * b.length + t.length := by
  induction nbin generalizing i with
  | zero => omega
  | succ nbin ih =>
    rw [padded, List.replicate_succ]
    cases i with
    | zero =>
      have each : ∀ p ∈ List.replicate nbin b, p.length = b.length := fun p mem => by
        rw [List.eq_of_mem_replicate mem]
      rw [List.set_cons_zero, List.flatten_cons, List.length_append,
        Lib.length_flatten_of_uniform each, List.length_replicate, Nat.succ_mul]
      omega
    | succ i =>
      have rest := ih (Nat.lt_of_succ_lt_succ small)
      rw [padded] at rest
      rw [List.set_cons_succ, List.flatten_cons, List.length_append, Nat.succ_mul]
      omega

def Preserves (db : Database σ ε) (holding : σ → Holding) (h : Session σ)
    (keyObj b₀ tmp : Option (List UInt8)) (index : Nat) : Prop :=
  ∀ k parts s old q, keyObj = some k → padded h.store.nbin b₀ tmp index = parts.map some →
    (db.put k parts.flatten).Returns h.dbh 0 s → (holding h.dbh).contents k = some old →
    (h.store.split old).2 = some q →
      (∃ t, tmp = some t ∧ parts = q.set index t) ∧
      ∃ size, 0 < size ∧ (∀ part ∈ parts, part.length = size) ∧ h.store.Agrees size

/-- When one update does what it promises. -/
def Harmless (db : Database σ ε) (holding : σ → Holding) (h : Session σ)
    (keyObj b₀ tmp : Option (List UInt8)) (index : Int) : Prop :=
  if h.store.empty then
    (0 ≤ index ∧ index < h.store.nbin) ∧ Preserves db holding h keyObj b₀ tmp index.toNat
  else (∀ k cdata t, ¬Checks holding h keyObj tmp k cdata t) ∨
    ((0 ≤ index ∧ index < h.store.nbin) ∧ tmp ≠ some [])

theorem update_first (first : h.store.empty = true) :
    (update db ck cd dflt key v index).Returns h st h' ↔ (0 ≤ index ∧ index < h.store.nbin) ∧
      (insert db ck cd key (padded h.store.nbin dflt v index.toNat)).Returns h st h' := by
  unfold update
  rw [Prog.returns_read_bind, if_pos first]
  constructor
  · intro run
    split at run
    · exact ⟨‹_›, run⟩
    · exact absurd run Prog.returns_halt
  · rintro ⟨range, run⟩
    rw [if_pos range]
    exact run

/-- The database is told of what an update of the first pass puts. -/
def Told (book : Ledger σ) (h : Session σ) (keyObj b₀ tmp : Option (List UInt8)) (index : Nat) : Prop :=
  ∀ (k : List UInt8) (parts : List (List UInt8)), keyObj = some k →
    padded h.store.nbin b₀ tmp index = parts.map some → book.covers h.dbh k parts.flatten

theorem updates_first (law : db.Lawful book) (sound : book.sound h.dbh) (inverts : cd.Inverts)
    (first : h.store.empty = true) (range : 0 ≤ index ∧ index < h.store.nbin)
    (told : Told book h (ck.writeObject key) (cd.writeObject dflt) (cd.writeObject v) index.toNat)
    (preserves : Preserves db book.holding h (ck.writeObject key) (cd.writeObject dflt) (cd.writeObject v)
      index.toNat) : Updates db book.holding ck cd dflt key v index h := by
  have count : (padded h.store.nbin dflt v index.toNat).length = h.store.nbin := length_padded _ _
  constructor
  · intro h' run old h₁ read
    rcases insert_cases count ((update_first first).mp run).2 with ⟨no, -⟩ |
      ⟨k, parts, named, written, s', put, rfl⟩
    · cases no
    · rw [map_padded] at written
      have covered := told k parts named written
      have sound' := law.keyed.put_sound sound covered put
      have stored := law.keyed.put_stored sound covered put
      obtain ⟨k', cdata, named', found⟩ := get_ok_found law sound read
      rw [named, Option.some.injEq] at named'
      subst named'
      obtain ⟨q, cut, objects⟩ := (get_ok_iff law sound named found).mp ⟨h₁, read⟩
      obtain ⟨⟨t, new, rfl⟩, size, pos, each, agrees⟩ :=
        preserves k parts s' cdata q named written put found cut
      have length := congrArg List.length written
      rw [length_padded, List.length_map] at length
      have length' := congrArg List.length (mapM_eq_some_iff.mp objects)
      simp only [List.length_map, List.length_set] at length length'
      refine ⟨range.1, by omega, ?_⟩
      have found' : (book.holding s').contents k = some (q.set index.toNat t).flatten := by
        rw [stored]
        exact Function.update_self ..
      have head : ((q.set index.toNat t).headD []).length = size := by
        cases parts : q.set index.toNat t with
        | nil =>
          have := congrArg List.length parts
          rw [List.length_set, List.length_nil] at this
          have := h.store.nbin_pos
          omega
        | cons part parts' => exact each part (by rw [parts]; exact List.mem_cons_self)
      refine (get_ok_iff law sound' named found').mpr ⟨_, (split_flatten_iff ?_).mpr
        ⟨size, pos, each, .inr ?_⟩, mapM_set objects (inverts v t new) _⟩
      · rw [List.length_set, noteSize_nbin, length]
      · rw [head]
        exact noteSize_of_agrees agrees
  · intro st h' run no
    rcases insert_cases count ((update_first first).mp run).2 with ⟨-, same⟩ |
      ⟨k, parts, named, written, s', put, rfl⟩
    · rw [same]
    · rw [map_padded] at written
      exact law.keyed.put_refused sound (told k parts named written) put no
  · exact fun out => absurd range out

def optionalForm : Serializable (Option (List UInt8)) := ⟨fun a => a, fun b => some (some b)⟩

theorem optionalForm_inverts : optionalForm.Inverts := by
  rintro a b same
  cases same
  rfl

theorem mapM_optionalForm {q : List (List UInt8)} {w : List (Option (List UInt8))} :
    q.mapM optionalForm.readObject = some w ↔ w = q.map some := by
  rw [mapM_eq_some_iff]
  have inj : Function.Injective (List.map (some : Option (List UInt8) → _)) :=
    List.map_injective_iff.mpr (Option.some_injective _)
  constructor
  · intro same
    refine inj ?_
    rw [← same, List.map_map]
    rfl
  · rintro rfl
    rw [List.map_map]
    rfl

theorem preserves_of_updates (law : db.Lawful book) (sound : book.sound h.dbh) (first : h.store.empty = true)
    (range : 0 ≤ index ∧ index < h.store.nbin) (told : Told book h (ck.writeObject key) b₀ tmp index.toNat)
    (updates : Updates db book.holding ck optionalForm b₀ key tmp index h) :
    Preserves db book.holding h (ck.writeObject key) b₀ tmp index.toNat := by
  intro k parts s old q named written put found cut
  have covered := told k parts named written
  have small : index.toNat < h.store.nbin := by omega
  have length : parts.length = h.store.nbin := by
    have := congrArg List.length written
    simpa using this.symm
  obtain ⟨t, rfl, there, shape⟩ := padded_parts small written
  have inserted : (update db ck optionalForm b₀ key (some t) index).Returns h 0
      ⟨h.store.noteSize (parts.headD []).length, s⟩ := by
    refine (update_first first).mpr ⟨range, (returns_insert length named ?_).mpr ⟨s, put, rfl⟩⟩
    rw [← written]
    exact List.map_id _
  obtain ⟨h₁, read⟩ := (get_ok_iff law sound named found).mpr ⟨q, cut, mapM_optionalForm.mpr rfl⟩
  obtain ⟨-, low, h₂, again⟩ := updates.replaced _ inserted _ h₁ read
  rw [List.length_map] at low
  have found' : (book.holding s).contents k = some parts.flatten := by
    rw [law.keyed.put_stored sound covered put]
    exact Function.update_self ..
  obtain ⟨q', cut', objects⟩ :=
    (get_ok_iff law (law.keyed.put_sound sound covered put) named found').mp ⟨h₂, again⟩
  -- what is cut out of the new string is the old ensemble with the element replaced
  have same : q' = q.set index.toNat t := by
    have := mapM_optionalForm.mp objects
    rw [← List.map_set] at this
    exact (List.map_injective_iff.mpr (Option.some_injective _) this).symm
  subst same
  obtain ⟨whole, agrees, cutting⟩ := split_some cut'
  have mem : t ∈ q.set index.toNat t := List.mem_set (l := q) (by omega) t
  have element := length_of_split cut' mem
  simp only [noteSize_nbin] at element whole agrees
  have pos : 0 < t.length := by
    refine Nat.pos_of_ne_zero fun none_there => ?_
    rw [← element, none_there, Nat.mul_zero] at whole
    rw [List.length_eq_zero_iff.mp whole, Lib.pieces_nil] at cutting
    rw [← cutting] at mem
    cases mem
  have uniform : ∀ part ∈ parts, part.length = t.length := by
    rcases shape with ⟨-, rfl⟩ | ⟨one, b, -, rfl⟩
    · intro part mem
      rw [List.mem_singleton.mp mem]
    · have total := length_flatten_padded (b := b) (t := t) small
      rw [← element] at whole
      have size : b.length = t.length := by
        obtain ⟨n, eq⟩ : ∃ n, h.store.nbin = n + 2 := ⟨h.store.nbin - 2, by omega⟩
        rw [eq] at total whole
        have : (n + 1) * b.length = (n + 1) * t.length := by nlinarith
        exact Nat.eq_of_mul_eq_mul_left (Nat.succ_pos n) this
      intro part mem
      rcases List.mem_or_eq_of_mem_set mem with default | rfl
      · rw [List.eq_of_mem_replicate default, size]
      · rfl
  have agrees' : h.store.Agrees t.length := by
    rw [← element] at agrees
    exact agrees_of_noted agrees
  have itself : ((h.store.noteSize (parts.headD []).length).split parts.flatten).2 = some parts :=
    (split_flatten_iff (length.trans noteSize_nbin.symm)).mpr ⟨t.length, pos, uniform, by rwa [← element] at agrees⟩
  rw [itself, Option.some.injEq] at cut'
  exact ⟨⟨t, rfl, cut'⟩, t.length, pos, uniform, agrees'⟩

theorem split_nil {store : AllConfStoreDB} (agrees : store.Agrees 0) : (store.split []).2 = some [] := by
  unfold split
  simp only [List.length_nil, Nat.zero_mod, ne_eq, not_true, if_false, Nat.zero_div]
  rw [noteSize_of_agrees agrees, if_neg (not_not_intro rfl), Lib.pieces_nil]

theorem update_nothing (law : db.Lawful book) (sound : book.sound h.dbh) (later : h.store.empty = false)
    (checks : Checks book.holding h (ck.writeObject key) (cd.writeObject v) keyObj [] []) :
    ∃ h', (update db ck cd dflt key v index).Returns h 0 h' := by
  obtain ⟨s, read, same, there⟩ := law.keyed.get_found sound checks.found
  have within : Within index [] [] := by simp [Within]
  obtain ⟨covered, accepted⟩ := checks.covered law within sound read
  obtain ⟨st, s', put, -⟩ := law.keyed.put_returns there covered
  obtain rfl := accepted st s' put
  exact ⟨_, (returns_update law sound later checks).mpr ⟨within, s, s', read, put, rfl⟩⟩

theorem updates_iff (law : db.Lawful book) (sound : book.sound h.dbh)
    (told : h.store.empty = true → Told book h (ck.writeObject key) b₀ tmp index.toNat) :
    (∀ (D : Type) (cd : Serializable D) (dflt v : D), cd.Inverts → cd.writeObject dflt = b₀ →
      cd.writeObject v = tmp → Updates db book.holding ck cd dflt key v index h) ↔
      Harmless db book.holding h (ck.writeObject key) b₀ tmp index := by
  unfold Harmless
  constructor
  · intro all
    have updates := all _ optionalForm b₀ tmp optionalForm_inverts rfl rfl
    split
    · have range : 0 ≤ index ∧ index < h.store.nbin := by
        by_contra out
        obtain ⟨st, h', run, -⟩ := updates.refused out
        exact out ((update_first ‹_›).mp run).1
      exact ⟨range, preserves_of_updates law sound ‹_› range (told ‹_›) updates⟩
    · have later : h.store.empty = false := by simpa using ‹¬h.store.empty = true›
      by_contra harm
      push Not at harm
      obtain ⟨⟨k, cdata, t, checks⟩, harm⟩ := harm
      by_cases bytes : t = []
      · subst bytes
        obtain rfl : cdata = [] := List.length_eq_zero_iff.mp (by rw [checks.whole]; rfl)
        obtain ⟨h', run⟩ := update_nothing law sound later
          (show Checks book.holding h (ck.writeObject key) (optionalForm.writeObject tmp) k [] [] from checks)
        by_cases range : 0 ≤ index ∧ index < h.store.nbin
        · obtain ⟨h₁, read⟩ := (get_ok_iff law sound checks.named checks.found).mpr
            ⟨[], split_nil checks.agrees, mapM_optionalForm.mpr rfl⟩
          obtain ⟨low, high, -⟩ := updates.replaced h' run _ h₁ read
          simp only [List.map_nil, List.length_nil] at high
          omega
        · obtain ⟨st, h'', run', no⟩ := updates.refused range
          exact no (run'.unique run).1
      · have out : ¬(0 ≤ index ∧ index < h.store.nbin) := by
          intro range
          have empty := harm range
          rw [checks.written, Option.some.injEq] at empty
          exact bytes empty
        obtain ⟨st, h', run, -⟩ := updates.refused out
        exact out (range_of_within checks.whole bytes ((returns_update law sound later checks).mp run).1)
  · rintro safe D cd dflt v inverts rfl rfl
    split at safe
    · exact updates_first law sound inverts ‹_› safe.1 (told ‹_›) safe.2
    · have later : h.store.empty = false := by simpa using ‹¬h.store.empty = true›
      rcases safe with refused | ⟨range, pos⟩
      · exact updates_refused law sound later refused
      · exact updates_later law sound inverts later range pos

end OneCall

section Passes

/-- Every key is updated once, for configuration `i`; `true` when no update was refused. -/
def updateKeys (ck : Serializable κ) (cd : Serializable α) (dflt : α) (value : κ → Nat → α) (i : Nat) :
    List κ → Prog (Session σ) ε Bool
  | [] => pure true
  | key :: keys => do
    let st ← update db ck cd dflt key (value key i) i
    let rest ← updateKeys ck cd dflt value i keys
    pure (decide (st = 0) && rest)

/-- One pass for each configuration from `i` on, with `updateDone` at its end. -/
def updatePasses (ck : Serializable κ) (cd : Serializable α) (dflt : α) (value : κ → Nat → α)
    (keys : List κ) : Nat → Nat → Prog (Session σ) ε Bool
  | 0, _ => pure true
  | n + 1, i => do
    let ok ← updateKeys db ck cd dflt value i keys
    updateDone
    let rest ← updatePasses ck cd dflt value keys n (i + 1)
    pure (ok && rest)

variable {db} {holding : σ → Holding} {book : Ledger σ}
variable {h h' : Session σ} {ck : Serializable κ} {cd : Serializable α} {dflt : α} {key : κ} {v : α}
variable {value : κ → Nat → α} {keys : List κ} {i n size : Nat} {index st : Int}

theorem returns_updateKeys :
    (updateKeys db ck cd dflt value i (key :: keys)).Returns h true h' ↔
      ∃ mid, (update db ck cd dflt key (value key i) i).Returns h 0 mid ∧
        (updateKeys db ck cd dflt value i keys).Returns mid true h' := by
  rw [updateKeys]
  constructor
  · intro run
    obtain ⟨st, mid, first, run⟩ := Prog.returns_bind.mp run
    obtain ⟨ok, mid', rest, run⟩ := Prog.returns_bind.mp run
    obtain ⟨both, rfl⟩ := Prog.returns_pure.mp run
    rw [Bool.and_eq_true, decide_eq_true_eq] at both
    obtain ⟨rfl, rfl⟩ := both
    exact ⟨mid, first, rest⟩
  · rintro ⟨mid, first, rest⟩
    refine Prog.returns_bind.mpr ⟨0, mid, first, Prog.returns_bind.mpr ⟨true, h', rest, ?_⟩⟩
    exact Prog.returns_pure.mpr ⟨rfl, rfl⟩

/-- The session after `updateDone`. -/
def Session.done (h : Session σ) : Session σ := { h with store := { h.store with empty := false } }

theorem returns_updatePasses :
    (updatePasses db ck cd dflt value keys (n + 1) i).Returns h true h' ↔
      ∃ mid, (updateKeys db ck cd dflt value i keys).Returns h true mid ∧
        (updatePasses db ck cd dflt value keys n (i + 1)).Returns (Session.done mid) true h' := by
  rw [updatePasses]
  constructor
  · intro run
    obtain ⟨ok, mid, first, run⟩ := Prog.returns_bind.mp run
    obtain ⟨_, _, done, run⟩ := Prog.returns_bind.mp run
    rw [updateDone, Prog.returns_modify] at done
    obtain ⟨rest, mid', passes, run⟩ := Prog.returns_bind.mp run
    obtain ⟨both, rfl⟩ := Prog.returns_pure.mp run
    rw [Bool.and_eq_true] at both
    obtain ⟨rfl, rfl⟩ := both
    rw [← done] at passes
    exact ⟨mid, first, passes⟩
  · rintro ⟨mid, first, passes⟩
    refine Prog.returns_bind.mpr ⟨true, mid, first, Prog.returns_bind.mpr ⟨(), Session.done mid, rfl, ?_⟩⟩
    refine Prog.returns_bind.mpr ⟨true, h', passes, Prog.returns_pure.mpr ⟨rfl, rfl⟩⟩

/-- What the passes are to come to: no update is refused, and then every key gives the vector
of its values. -/
def Fills (db : Database σ ε) (ck : Serializable κ) (cd : Serializable α) (dflt : α)
    (value : κ → Nat → α) (keys : List κ) (h : Session σ) : Prop :=
  ∃ h', (updatePasses db ck cd dflt value keys h.store.nbin 0).Returns h true h' ∧
    ∀ key ∈ keys, ∃ h'', (get db ck cd key).Returns h'
      (.ok ((List.range h.store.nbin).map (value key))) h''

/-- What a schedule of updates is about: distinct keys, and values of one size. -/
structure Schedule (ck : Serializable κ) (cd : Serializable α) (value : κ → Nat → α) (keys : List κ)
    (nbin size : Nat) (name : κ → List UInt8) (part : κ → Nat → List UInt8) : Prop where
  named : ∀ key ∈ keys, ck.writeObject key = some (name key)
  distinct : (keys.map name).Nodup
  written : ∀ key ∈ keys, ∀ i < nbin, cd.writeObject (value key i) = some (part key i)
  sized : ∀ key ∈ keys, ∀ i < nbin, (part key i).length = size

variable {nbin : Nat} {name : κ → List UInt8} {part : κ → Nat → List UInt8} {b : List UInt8}

/-- The ensemble of a key when its first `i` configurations have been updated. -/
def row (part : κ → Nat → List UInt8) (b : List UInt8) (nbin : Nat) (key : κ) (i : Nat) : List (List UInt8) :=
  (List.range nbin).map fun j => if j < i then part key j else b

@[simp] theorem length_row : (row part b nbin key i).length = nbin := by simp [row]

theorem row_set : (row part b nbin key i).set i (part key i) = row part b nbin key (i + 1) := by
  refine List.ext_getElem (by simp) fun j low high => ?_
  simp only [row, List.getElem_set, List.getElem_map, List.getElem_range]
  by_cases here : i = j
  · subst here
    rw [if_pos rfl, if_pos (Nat.lt_succ_self i)]
  · rw [if_neg here]
    by_cases before : j < i
    · rw [if_pos before, if_pos (Nat.lt_succ_of_lt before)]
    · rw [if_neg before, if_neg (by omega)]

theorem row_sized (sched : Schedule ck cd value keys nbin size name part) (default : b.length = size)
    (mem : key ∈ keys) : ∀ p ∈ row part b nbin key i, p.length = size := by
  intro p there
  obtain ⟨j, small, rfl⟩ := List.mem_map.mp there
  split
  · exact sched.sized key mem j (List.mem_range.mp small)
  · exact default

theorem padded_row (sched : Schedule ck cd value keys nbin size name part) (pos : 0 < nbin)
    (default : nbin = 1 ∨ cd.writeObject dflt = some b) (mem : key ∈ keys) :
    (padded nbin dflt (value key 0) 0).map cd.writeObject = (row part b nbin key 1).map some := by
  rw [map_padded, sched.written key mem 0 pos]
  refine List.ext_getElem (by simp) fun j low high => ?_
  simp only [padded, row, List.getElem_set, List.getElem_replicate, List.getElem_map, List.getElem_range]
  rw [length_padded] at low
  by_cases here : 0 = j
  · subst here
    rfl
  · rw [if_neg here, if_neg (by omega)]
    exact default.resolve_left (by omega)

/-- What the first pass puts. -/
def FirstPuts (ck : Serializable κ) (cd : Serializable α) (dflt : α) (value : κ → Nat → α) (keys : List κ)
    (nbin : Nat) (k v : List UInt8) : Prop :=
  ∃ key ∈ keys, ck.writeObject key = some k ∧ ∃ parts : List (List UInt8),
    padded nbin (cd.writeObject dflt) (cd.writeObject (value key 0)) 0 = parts.map some ∧ v = parts.flatten

variable {s₀ : σ} {calls : List UInt8 → List UInt8 → Prop}

/-- A session between two updates for configuration `i`; the database has come from `s₀` by `calls`. -/
structure Ready (db : Database σ ε) (book : Ledger σ) (calls : List UInt8 → List UInt8 → Prop) (s₀ : σ)
    (nbin size i : Nat) (h : Session σ) : Prop where
  nbin : h.store.nbin = nbin
  agrees : h.store.Agrees size
  empty : h.store.empty = decide (i = 0)
  sound : book.sound h.dbh
  comes : i = 0 → db.Puts calls s₀ h.dbh

/-- What the file has for a key before its update for configuration `i`. -/
def before (part : κ → Nat → List UInt8) (b : List UInt8) (nbin : Nat) (key : κ) (i : Nat) : Option (List UInt8) :=
  if i = 0 then none else some (row part b nbin key i).flatten

theorem update_step (law : db.Lawful book) (told : db.Covered book (FirstPuts ck cd dflt value keys nbin) s₀)
    (sched : Schedule ck cd value keys nbin size name part)
    (room : ∀ key ∈ keys, ∀ w : List UInt8, w.length = nbin * size → book.admits (name key) w)
    (default : nbin = 1 ∨ cd.writeObject dflt = some b) (length : b.length = size)
    (ready : Ready db book (FirstPuts ck cd dflt value keys nbin) s₀ nbin size i h) (small : i < nbin)
    (mem : key ∈ keys)
    (there : (book.holding h.dbh).contents (name key) = before part b nbin key i) :
    ∃ h', (update db ck cd dflt key (value key i) i).Returns h 0 h' ∧ Ready db book
      (FirstPuts ck cd dflt value keys nbin) s₀ nbin size i h' ∧
      (book.holding h'.dbh).contents = Function.update (book.holding h.dbh).contents (name key)
        (some (row part b nbin key (i + 1)).flatten) := by
  have sized := row_sized (b := b) (i := i + 1) sched length mem
  have total : (row part b nbin key (i + 1)).flatten.length = nbin * size := by
    rw [Lib.length_flatten_of_uniform sized, length_row]
  cases i with
  | zero =>
    have first : h.store.empty = true := ready.empty
    have call : FirstPuts ck cd dflt value keys nbin (name key) (row part b nbin key 1).flatten := by
      refine ⟨key, mem, sched.named key mem, row part b nbin key 1, ?_, rfl⟩
      rw [← map_padded]
      exact padded_row sched small default mem
    have covered := told _ _ _ (ready.comes rfl) call
    obtain ⟨st, s', put, fresh, -, sound'⟩ := law.keyed.put_returns ready.sound covered
    obtain rfl : st = 0 := (fresh there).mpr (room key mem _ total)
    have head : ((row part b nbin key 1).headD []).length = size := by
      cases eq : row part b nbin key 1 with
      | nil =>
        have := congrArg List.length eq
        rw [length_row, List.length_nil] at this
        omega
      | cons p ps => exact sized p (by rw [Nat.zero_add, eq]; exact List.mem_cons_self)
    refine ⟨⟨h.store.noteSize ((row part b nbin key 1).headD []).length, s'⟩, ?_, ?_, ?_⟩
    · refine (update_first first).mpr ⟨⟨le_rfl, ?_⟩, ?_⟩
      · exact_mod_cast h.store.nbin_pos
      · rw [ready.nbin]
        exact (returns_insert (by rw [length_row, ready.nbin]) (sched.named key mem)
          (padded_row sched small default mem)).mpr ⟨s', put, rfl⟩
    · refine ⟨noteSize_nbin.trans ready.nbin, .inr ?_, noteSize_empty.trans ready.empty, sound',
        fun _ => (ready.comes rfl).put call put⟩
      rw [head]
      exact noteSize_of_agrees ready.agrees
    · exact law.keyed.put_stored ready.sound covered put
  | succ i =>
    have later : h.store.empty = false := ready.empty
    have sized' := row_sized (b := b) (i := i + 1) sched length mem
    have total' : (row part b nbin key (i + 1)).flatten.length = nbin * size := by
      rw [Lib.length_flatten_of_uniform sized', length_row]
    have element := sched.sized key mem (i + 1) small
    have checks : Checks book.holding h (ck.writeObject key) (cd.writeObject (value key (i + 1))) (name key)
        (row part b nbin key (i + 1)).flatten (part key (i + 1)) := by
      refine ⟨sched.named key mem, there, sched.written key mem _ small, ?_, ?_⟩
      · rw [total', element, ready.nbin]
      · rw [element]
        exact ready.agrees
    have range : 0 ≤ ((i + 1 : Nat) : Int) ∧ ((i + 1 : Nat) : Int) < h.store.nbin := by
      rw [ready.nbin]
      exact ⟨Int.natCast_nonneg _, by exact_mod_cast small⟩
    obtain ⟨place, within⟩ := within_of_range checks.whole range
    obtain ⟨s, read, same, there'⟩ := law.keyed.get_found ready.sound checks.found
    have patched : Lib.overwrite (row part b nbin key (i + 1)).flatten
        (((i + 1 : Nat) : Int) * (part key (i + 1)).length).toNat (part key (i + 1)) =
        (row part b nbin key (i + 1 + 1)).flatten := by
      rw [place, Int.toNat_natCast, element, Lib.overwrite_flatten sized' element (by rw [length_row]; exact small),
        row_set]
    obtain ⟨covered, accepted⟩ := checks.covered law within ready.sound read
    rw [patched] at covered accepted
    obtain ⟨st, s', put, -, -, sound'⟩ := law.keyed.put_returns there' covered
    obtain rfl : st = 0 := accepted st s' put
    refine ⟨⟨h.store.noteSize (part key (i + 1)).length, s'⟩, ?_, ?_, ?_⟩
    · refine (returns_update law ready.sound later checks).mpr ⟨within, s, s', read, ?_, rfl⟩
      rw [patched]
      exact put
    · refine ⟨noteSize_nbin.trans ready.nbin, .inr ?_, noteSize_empty.trans ready.empty, sound',
        fun first => absurd first (Nat.succ_ne_zero i)⟩
      rw [element]
      exact noteSize_of_agrees ready.agrees
    · rw [law.keyed.put_stored there' covered put, same]

theorem updateKeys_step (law : db.Lawful book) (told : db.Covered book (FirstPuts ck cd dflt value keys nbin) s₀)
    (sched : Schedule ck cd value keys nbin size name part)
    (room : ∀ key ∈ keys, ∀ w : List UInt8, w.length = nbin * size → book.admits (name key) w)
    (default : nbin = 1 ∨ cd.writeObject dflt = some b) (length : b.length = size) (small : i < nbin)
    {todo : List κ} (sub : ∀ key ∈ todo, key ∈ keys) (distinct : (todo.map name).Nodup)
    (ready : Ready db book (FirstPuts ck cd dflt value keys nbin) s₀ nbin size i h)
    (there : ∀ key ∈ todo, (book.holding h.dbh).contents (name key) = before part b nbin key i) :
    ∃ h', (updateKeys db ck cd dflt value i todo).Returns h true h' ∧ Ready db book
      (FirstPuts ck cd dflt value keys nbin) s₀ nbin size i h' ∧
      (∀ key ∈ todo, (book.holding h'.dbh).contents (name key) = some (row part b nbin key (i + 1)).flatten) ∧
      ∀ k, k ∉ todo.map name → (book.holding h'.dbh).contents k = (book.holding h.dbh).contents k := by
  induction todo generalizing h with
  | nil =>
    exact ⟨h, Prog.returns_pure.mpr ⟨rfl, rfl⟩, ready, fun _ mem => absurd mem List.not_mem_nil,
      fun _ _ => rfl⟩
  | cons key todo ih =>
    rw [List.map_cons, List.nodup_cons] at distinct
    obtain ⟨mid, first, ready', change⟩ := update_step law told sched room default length ready small
      (sub key List.mem_cons_self) (there key List.mem_cons_self)
    obtain ⟨h', rest, ready'', stored, others⟩ := ih (fun k mem => sub k (List.mem_cons_of_mem _ mem))
      distinct.2 ready' fun k mem => by
        have other : name k ≠ name key := fun same => distinct.1 (same ▸ List.mem_map_of_mem mem)
        rw [change, Function.update_of_ne other]
        exact there k (List.mem_cons_of_mem _ mem)
    refine ⟨h', returns_updateKeys.mpr ⟨mid, first, rest⟩, ready'', fun k mem => ?_, fun k out => ?_⟩
    · rcases List.mem_cons.mp mem with rfl | later
      · rw [others _ distinct.1, change, Function.update_self]
      · exact stored k later
    · rw [List.map_cons, List.mem_cons, not_or] at out
      rw [others k out.2, change, Function.update_of_ne out.1]

theorem updatePasses_step (law : db.Lawful book) (told : db.Covered book (FirstPuts ck cd dflt value keys nbin) s₀)
    (sched : Schedule ck cd value keys nbin size name part)
    (room : ∀ key ∈ keys, ∀ w : List UInt8, w.length = nbin * size → book.admits (name key) w)
    (default : nbin = 1 ∨ cd.writeObject dflt = some b) (length : b.length = size)
    (whole : i + n = nbin) (ready : Ready db book (FirstPuts ck cd dflt value keys nbin) s₀ nbin size i h)
    (there : ∀ key ∈ keys, (book.holding h.dbh).contents (name key) = before part b nbin key i) :
    ∃ h', (updatePasses db ck cd dflt value keys n i).Returns h true h' ∧ h'.store.nbin = nbin ∧
      h'.store.Agrees size ∧ book.sound h'.dbh ∧
      ∀ key ∈ keys, (book.holding h'.dbh).contents (name key) = before part b nbin key nbin := by
  induction n generalizing h i with
  | zero =>
    obtain rfl : i = nbin := whole
    exact ⟨h, Prog.returns_pure.mpr ⟨rfl, rfl⟩, ready.nbin, ready.agrees, ready.sound, there⟩
  | succ n ih =>
    obtain ⟨mid, pass, ready', stored, -⟩ := updateKeys_step law told sched room default length
      (by omega) (fun _ mem => mem) sched.distinct ready there
    obtain ⟨h', passes, done⟩ := ih (i := i + 1) (h := Session.done mid) (by omega)
      ⟨ready'.nbin, ready'.agrees, rfl, ready'.sound, fun first => absurd first (Nat.succ_ne_zero i)⟩ stored
    exact ⟨h', returns_updatePasses.mpr ⟨mid, pass, passes⟩, done⟩

theorem fills_of_sizes (law : db.Lawful book) (sound : book.sound h.dbh)
    (told : db.Covered book (FirstPuts ck cd dflt value keys h.store.nbin) h.dbh) (inverts : cd.Inverts)
    (sched : Schedule ck cd value keys h.store.nbin size name part)
    (room : ∀ key ∈ keys, ∀ w : List UInt8, w.length = h.store.nbin * size → book.admits (name key) w)
    (empty : h.store.empty = true) (unset : h.store.bytesize = 0)
    (none_there : (book.holding h.dbh).contents = fun _ => none) (pos : 0 < size)
    (default : h.store.nbin = 1 ∨ ∃ b, cd.writeObject dflt = some b ∧ b.length = size) :
    Fills db ck cd dflt value keys h := by
  obtain ⟨b, default, length⟩ : ∃ b, (h.store.nbin = 1 ∨ cd.writeObject dflt = some b) ∧ b.length = size := by
    rcases default with one | ⟨b, written, length⟩
    · exact ⟨List.replicate size 0, .inl one, List.length_replicate⟩
    · exact ⟨b, .inr written, length⟩
  obtain ⟨h', passes, nbin, agrees, sound', stored⟩ := updatePasses_step law told sched room default length
    (Nat.zero_add _) ⟨rfl, .inl unset, empty, sound, fun _ => .none⟩ fun key _ => by rw [none_there]; rfl
  refine ⟨h', passes, fun key mem => ?_⟩
  have found : (book.holding h'.dbh).contents (name key) =
      some (row part b h.store.nbin key h.store.nbin).flatten := by
    rw [stored key mem]
    exact if_neg h.store.nbin_pos.ne'
  refine (get_ok_iff law sound' (sched.named key mem) found).mpr ⟨_, (split_flatten_iff ?_).mpr
    ⟨size, pos, row_sized sched length mem, agrees⟩, ?_⟩
  · rw [length_row, nbin]
  · refine mapM_readObject inverts ?_
    simp only [row, List.map_map]
    refine List.map_congr_left fun j small => ?_
    rw [List.mem_range] at small
    simp only [Function.comp_apply, if_pos small]
    exact sched.written key mem j small

theorem update_lengths (law : db.Lawful book) (sound : book.sound h.dbh) (later : h.store.empty = false)
    (run : (update db ck cd dflt key v index).Returns h st h') : Alike h h' ∧ book.sound h'.dbh ∧
      ∀ k, ((book.holding h'.dbh).contents k).map List.length = ((book.holding h.dbh).contents k).map List.length := by
  by_cases passes : ∃ k cdata t, Checks book.holding h (ck.writeObject key) (cd.writeObject v) k cdata t
  · obtain ⟨keyObj, cdata, t, checks⟩ := passes
    obtain ⟨within, s, s', read, put, rfl⟩ := (returns_update law sound later checks).mp run
    obtain ⟨-, same, there⟩ := law.keyed.get_keeps sound read
    obtain ⟨covered, accepted⟩ := checks.covered law within sound read
    obtain rfl := accepted st s' put
    refine ⟨⟨noteSize_nbin, noteSize_empty⟩, law.keyed.put_sound there covered put, fun k => ?_⟩
    rw [law.keyed.put_stored there covered put]
    by_cases this_one : k = keyObj
    · subst this_one
      rw [Function.update_self, checks.found, Option.map_some, Option.map_some,
        Lib.length_overwrite (by have := within.1; have := within.2; omega)]
    · rw [Function.update_of_ne this_one, same]
  · push Not at passes
    obtain ⟨h'', run', alike, same, sound'⟩ : ∃ h'', (update db ck cd dflt key v index).Returns h (-1) h'' ∧
      Alike h h'' ∧ (book.holding h''.dbh).contents = (book.holding h.dbh).contents ∧ book.sound h''.dbh :=
      update_refused law sound later passes
    obtain ⟨-, rfl⟩ := run.unique run'
    exact ⟨alike, sound', fun k => by rw [same]⟩

theorem updateKeys_lengths (law : db.Lawful book) (sound : book.sound h.dbh) (later : h.store.empty = false)
    (run : (updateKeys db ck cd dflt value i keys).Returns h true h') : Alike h h' ∧ book.sound h'.dbh ∧
      ∀ k, ((book.holding h'.dbh).contents k).map List.length = ((book.holding h.dbh).contents k).map List.length := by
  induction keys generalizing h with
  | nil =>
    obtain ⟨-, rfl⟩ := Prog.returns_pure.mp run
    exact ⟨⟨rfl, rfl⟩, sound, fun _ => rfl⟩
  | cons key keys ih =>
    obtain ⟨mid, first, rest⟩ := returns_updateKeys.mp run
    obtain ⟨alike, sound₁, lengths⟩ := update_lengths law sound later first
    obtain ⟨alike', sound', lengths'⟩ := ih sound₁ (alike.2.trans later) rest
    exact ⟨⟨alike'.1.trans alike.1, alike'.2.trans alike.2⟩, sound', fun k => (lengths' k).trans (lengths k)⟩

theorem updatePasses_lengths (law : db.Lawful book) (sound : book.sound h.dbh) (later : h.store.empty = false)
    (run : (updatePasses db ck cd dflt value keys n i).Returns h true h') : h'.store.nbin = h.store.nbin ∧
      book.sound h'.dbh ∧
      ∀ k, ((book.holding h'.dbh).contents k).map List.length = ((book.holding h.dbh).contents k).map List.length := by
  induction n generalizing h i with
  | zero =>
    obtain ⟨-, rfl⟩ := Prog.returns_pure.mp run
    exact ⟨rfl, sound, fun _ => rfl⟩
  | succ n ih =>
    obtain ⟨mid, pass, passes⟩ := returns_updatePasses.mp run
    obtain ⟨alike, sound₁, lengths⟩ := updateKeys_lengths law sound later pass
    obtain ⟨nbin, sound', lengths'⟩ := ih (h := Session.done mid) sound₁ rfl passes
    exact ⟨nbin.trans alike.1, sound', fun k => (lengths' k).trans (lengths k)⟩

theorem update_first_stored (law : db.Lawful book) (sound : book.sound h.dbh) (first : h.store.empty = true)
    (told : Told book h (ck.writeObject key) (cd.writeObject dflt) (cd.writeObject v) index.toNat)
    (run : (update db ck cd dflt key v index).Returns h 0 h') : Alike h h' ∧ book.sound h'.dbh ∧
      ∃ (k : List UInt8) (parts : List (List UInt8)), ck.writeObject key = some k ∧
        padded h.store.nbin (cd.writeObject dflt) (cd.writeObject v) index.toNat = parts.map some ∧
        (db.put k parts.flatten).Returns h.dbh 0 h'.dbh ∧
        (book.holding h'.dbh).contents = Function.update (book.holding h.dbh).contents k (some parts.flatten) := by
  have count : (padded h.store.nbin dflt v index.toNat).length = h.store.nbin := length_padded _ _
  rcases insert_cases count ((update_first first).mp run).2 with ⟨no, -⟩ |
    ⟨k, parts, named, written, s', put, rfl⟩
  · cases no
  · rw [map_padded] at written
    have covered := told k parts named written
    exact ⟨⟨noteSize_nbin, noteSize_empty⟩, law.keyed.put_sound sound covered put, k, parts, named, written, put,
      law.keyed.put_stored sound covered put⟩

theorem told_first (told : db.Covered book (FirstPuts ck cd dflt value keys nbin) s₀)
    (comes : db.Puts (FirstPuts ck cd dflt value keys nbin) s₀ h.dbh) (count : h.store.nbin = nbin) (mem : key ∈ keys) :
    Told book h (ck.writeObject key) (cd.writeObject dflt) (cd.writeObject (value key 0)) ((0 : Nat) : Int).toNat :=
  fun k parts named written => told _ k _ comes ⟨key, mem, named, parts, count ▸ written, rfl⟩

theorem updateKeys_others (law : db.Lawful book) {todo : List κ} {k : List UInt8} (sound : book.sound h.dbh)
    (told : db.Covered book (FirstPuts ck cd dflt value keys nbin) s₀)
    (comes : db.Puts (FirstPuts ck cd dflt value keys nbin) s₀ h.dbh) (count : h.store.nbin = nbin)
    (sub : ∀ key ∈ todo, key ∈ keys)
    (named : ∀ key ∈ todo, ck.writeObject key = some (name key)) (first : h.store.empty = true)
    (out : k ∉ todo.map name) (run : (updateKeys db ck cd dflt value 0 todo).Returns h true h') :
    Alike h h' ∧ book.sound h'.dbh ∧ (book.holding h'.dbh).contents k = (book.holding h.dbh).contents k := by
  induction todo generalizing h with
  | nil =>
    obtain ⟨-, rfl⟩ := Prog.returns_pure.mp run
    exact ⟨⟨rfl, rfl⟩, sound, rfl⟩
  | cons key todo ih =>
    obtain ⟨mid, once, rest⟩ := returns_updateKeys.mp run
    have mine := told_first told comes count (sub key List.mem_cons_self)
    obtain ⟨alike, sound₁, k', parts, name', written, put, change⟩ := update_first_stored law sound first mine once
    have call : FirstPuts ck cd dflt value keys nbin k' parts.flatten :=
      ⟨key, sub key List.mem_cons_self, name', parts, count ▸ written, rfl⟩
    rw [named key List.mem_cons_self, Option.some.injEq] at name'
    subst name'
    rw [List.map_cons, List.mem_cons, not_or] at out
    obtain ⟨alike', sound', same⟩ := ih sound₁ (comes.put call put) (alike.1.trans count)
      (fun key mem => sub key (List.mem_cons_of_mem _ mem)) (fun key mem => named key (List.mem_cons_of_mem _ mem))
      (alike.2.trans first) out.2 rest
    refine ⟨⟨alike'.1.trans alike.1, alike'.2.trans alike.2⟩, sound', ?_⟩
    rw [same, change, Function.update_of_ne out.1]

theorem get_ok_pos (law : db.Lawful book) (sound : book.sound h.dbh) {vs : List α} {k cdata : List UInt8}
    (named : ck.writeObject key = some k) (found : (book.holding h.dbh).contents k = some cdata)
    (read : (get db ck cd key).Returns h (.ok vs) h') (some_there : vs ≠ []) : 0 < cdata.length := by
  refine Nat.pos_of_ne_zero fun none_there => some_there ?_
  obtain rfl := List.length_eq_zero_iff.mp none_there
  obtain ⟨parts, cut, objects⟩ := (get_ok_iff law sound named found).mp ⟨h', read⟩
  obtain ⟨-, -, rfl⟩ := split_some cut
  rw [Lib.pieces_nil, List.mapM_nil] at objects
  cases objects
  rfl

theorem sizes_of_fills (law : db.Lawful book) (sound : book.sound h.dbh)
    (told : db.Covered book (FirstPuts ck cd dflt value (key :: keys) h.store.nbin) h.dbh)
    (sched : Schedule ck cd value (key :: keys) h.store.nbin size name part)
    (empty : h.store.empty = true) (fills : Fills db ck cd dflt value (key :: keys) h) :
    0 < size ∧ (h.store.nbin = 1 ∨ ∃ b, cd.writeObject dflt = some b ∧ b.length = size) := by
  obtain ⟨h', run, read⟩ := fills
  obtain ⟨h'', read⟩ := read key List.mem_cons_self
  have named := sched.named key List.mem_cons_self
  have pos := h.store.nbin_pos
  obtain ⟨n, count⟩ : ∃ n, h.store.nbin = n + 1 := ⟨h.store.nbin - 1, by omega⟩
  rw [count] at run
  obtain ⟨mid, pass, passes⟩ := returns_updatePasses.mp run
  obtain ⟨mid₁, once, rest⟩ := returns_updateKeys.mp pass
  have mine := told_first told .none rfl List.mem_cons_self
  obtain ⟨alike, sound₁, k, parts, named', written, put, change⟩ := update_first_stored law sound empty mine once
  have call : FirstPuts ck cd dflt value (key :: keys) h.store.nbin k parts.flatten :=
    ⟨key, List.mem_cons_self, named', parts, written, rfl⟩
  rw [named, Option.some.injEq] at named'
  subst named'
  have distinct := sched.distinct
  rw [List.map_cons, List.nodup_cons] at distinct
  obtain ⟨alike', sound₂, same⟩ := updateKeys_others law sound₁ told (.put .none call put) alike.1
    (fun key mem => List.mem_cons_of_mem _ mem) (fun key mem => sched.named key (List.mem_cons_of_mem _ mem))
    (alike.2.trans empty) distinct.1 rest
  have found : (book.holding (Session.done mid).dbh).contents (name key) = some parts.flatten := by
    change (book.holding mid.dbh).contents (name key) = _
    rw [same, change, Function.update_self]
  have later : (Session.done mid).store.empty = false := rfl
  have sound₃ : book.sound (Session.done mid).dbh := sound₂
  obtain ⟨-, sound', lengths⟩ := updatePasses_lengths law sound₃ later passes
  have some_bytes : 0 < parts.flatten.length := by
    have length := lengths (name key)
    rw [found, Option.map_some] at length
    obtain ⟨cdata, found', same'⟩ := Option.map_eq_some_iff.mp length
    rw [← same']
    refine get_ok_pos law sound' named found' read fun none_there => ?_
    have := congrArg List.length none_there
    simp only [List.length_map, List.length_range, List.length_nil] at this
    omega
  obtain ⟨t, element, -, shape⟩ := padded_parts (by simpa using pos) written
  rw [sched.written key List.mem_cons_self 0 pos, Option.some.injEq] at element
  have length := sched.sized key List.mem_cons_self 0 pos
  rcases shape with ⟨one, rfl⟩ | ⟨more, b, default, rfl⟩
  · rw [List.flatten_singleton, ← element, length] at some_bytes
    exact ⟨some_bytes, .inl one⟩
  · -- the second pass has found the string it was to cut
    obtain ⟨m, rfl⟩ : ∃ m, n = m + 1 := ⟨n - 1, by omega⟩
    obtain ⟨mid₂, pass₂, -⟩ := returns_updatePasses.mp passes
    obtain ⟨mid₃, twice, -⟩ := returns_updateKeys.mp pass₂
    have small : 0 + 1 < h.store.nbin := by omega
    have nbin : (Session.done mid).store.nbin = h.store.nbin := alike'.1.trans alike.1
    by_cases passed : ∃ k cdata t, Checks book.holding (Session.done mid) (ck.writeObject key)
        (cd.writeObject (value key (0 + 1))) k cdata t
    · obtain ⟨k, cdata, t', named', found', written', whole, -⟩ := passed
      rw [named, Option.some.injEq] at named'
      subst named'
      rw [found, Option.some.injEq] at found'
      subst found'
      rw [sched.written key List.mem_cons_self _ small, Option.some.injEq] at written'
      rw [← written', sched.sized key List.mem_cons_self _ small, nbin] at whole
      have total := length_flatten_padded (b := b) (t := t) (i := Int.toNat ((0 : Nat) : Int)) pos
      rw [whole, ← element, length] at total
      rw [whole] at some_bytes
      have same_size : b.length = size := by
        rw [count] at total
        have : (m + 1) * b.length = (m + 1) * size := by nlinarith
        exact Nat.eq_of_mul_eq_mul_left (Nat.succ_pos m) this
      exact ⟨Nat.pos_of_mul_pos_left some_bytes, .inr ⟨b, default, same_size⟩⟩
    · push Not at passed
      obtain ⟨_, refused, -⟩ : ∃ h'', (update db ck cd dflt key (value key (0 + 1)) ((0 + 1 : Nat) : Int)).Returns
          (Session.done mid) (-1) h'' ∧ Alike (Session.done mid) h'' ∧ _ := update_refused law sound₃ later passed
      cases (refused.unique twice).1

end Passes

/-- Updates of an ensemble. One update does what it promises exactly when it is harmless; and
the passes over a new database, for values of one size, leave every key with its vector
exactly when that size is positive and the default objects have it, if there is more than
one configuration. -/
theorem update_promises {db : Database σ ε} {book : Ledger σ} (law : db.Lawful book) :
    (∀ (h : Session σ) (ck : Serializable κ) (key : κ) (b₀ tmp : Option (List UInt8)) (index : Int),
      book.sound h.dbh → (h.store.empty = true → Told book h (ck.writeObject key) b₀ tmp index.toNat) →
      ((∀ (D : Type) (cd : Serializable D) (dflt v : D), cd.Inverts → cd.writeObject dflt = b₀ →
        cd.writeObject v = tmp → Updates db book.holding ck cd dflt key v index h) ↔
      Harmless db book.holding h (ck.writeObject key) b₀ tmp index)) ∧
    ∀ (h : Session σ) (ck : Serializable κ) (cd : Serializable α) (dflt : α) (value : κ → Nat → α)
      (keys : List κ) (size : Nat) (name : κ → List UInt8) (part : κ → Nat → List UInt8), cd.Inverts →
      Schedule ck cd value keys h.store.nbin size name part →
      (∀ key ∈ keys, ∀ w : List UInt8, w.length = h.store.nbin * size → book.admits (name key) w) →
      book.sound h.dbh → db.Covered book (FirstPuts ck cd dflt value keys h.store.nbin) h.dbh →
      h.store.empty = true → h.store.bytesize = 0 → ((book.holding h.dbh).contents = fun _ => none) →
      (Fills db ck cd dflt value keys h ↔ keys = [] ∨ (0 < size ∧
        (h.store.nbin = 1 ∨ ∃ b, cd.writeObject dflt = some b ∧ b.length = size))) := by
  refine ⟨fun h ck key b₀ tmp index => updates_iff law, ?_⟩
  intro h ck cd dflt value keys size name part inverts sched room sound told empty unset none_there
  constructor
  · intro fills
    cases keys with
    | nil => exact .inl rfl
    | cons key keys => exact .inr (sizes_of_fills law sound told sched empty fills)
  · rintro (rfl | ⟨pos, default⟩)
    · have passes : ∀ (n i : Nat) (h : Session σ), ∃ h',
          (updatePasses db ck cd dflt value [] n i).Returns h true h' := by
        intro n
        induction n with
        | zero => exact fun i h => ⟨h, Prog.returns_pure.mpr ⟨rfl, rfl⟩⟩
        | succ n ih =>
          intro i h
          obtain ⟨h', rest⟩ := ih (i + 1) (Session.done h)
          exact ⟨h', returns_updatePasses.mpr ⟨h, Prog.returns_pure.mpr ⟨rfl, rfl⟩, rest⟩⟩
      obtain ⟨h', run⟩ := passes h.store.nbin 0 h
      exact ⟨h', run, fun _ mem => absurd mem List.not_mem_nil⟩
    · exact fills_of_sizes law sound told inverts sched room empty unset none_there pos default

theorem update_promises_two : Fills (listDatabase 8 : Database Listing Empty) binaryForm binaryForm [0]
    (fun key i => [key.headD 0 + UInt8.ofNat i]) [[7], [8]] newSession := by
  refine ((update_promises (listDatabase_lawful 8)).2 newSession binaryForm binaryForm
    [0] _ _ 1 id (fun key i => [key.headD 0 + UInt8.ofNat i]) binaryForm_inverts
    ⟨fun _ _ => rfl, by decide, fun _ _ _ _ => rfl, fun _ _ _ _ => rfl⟩ (fun _ _ w length => ?_)
    newSession_sound (fun _ _ _ _ _ => trivial) rfl rfl rfl).mpr (.inr ⟨by decide, .inr ⟨[0], rfl, rfl⟩⟩)
  change decide (w.length ≤ 8) = true
  rw [length]
  decide

/-- With default objects of no bytes the second pass is refused; and an index behind the last
configuration is not refused. -/
theorem update_breaks :
    ¬Fills (listDatabase 8 : Database Listing Empty) binaryForm binaryForm []
      (fun _ i => [UInt8.ofNat i]) [[7]] newSession ∧
    ¬Updates (listDatabase 8 : Database Listing Empty) Listing.holding binaryForm binaryForm [0] [7] [1] 2
      newSession := by
  constructor
  · rintro ⟨h', run, -⟩
    have refused : (updatePasses (listDatabase 8 : Database Listing Empty) binaryForm binaryForm []
        (fun _ i => [UInt8.ofNat i]) [[7]] 2 0).Returns newSession false
        ⟨⟨2, 1, false, by decide⟩, ⟨[([7], [0])], 2⟩⟩ := rfl
    cases (run.unique refused).1
  · intro updates
    obtain ⟨st, h', run, -⟩ := updates.refused (by decide)
    cases run

end AllConfStoreDB
end FileHash
