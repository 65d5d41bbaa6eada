import FileHash.StoredPairs

/-! The database of `ffdb_db.h` as what `AllConfStoreDB.h` runs on: the calls of `DBFunc.h` on a hash table, and a
close and an open of its file. Its puts and gets are lawful as long as the pairs have room in their buckets. -/
namespace FileHash

open Lib (Prog KeyStore)
open Lib.Prog (Wp)
open Htab (Shelves Under RoomFor Numbered Opening)

def reopenFile (o : Opening) : Run Unit := do
  Htab.hdestroy
  let hashp ← Prog.read
  match Htab.knownTable o (Htab.closedFile hashp) with
  | none => Prog.halt .exit
  | some table =>
    Prog.modify fun _ => table
    Htab.openPages

def fileDatabase (o : Opening) (configs : Nat → Htab.ConfigInfo) : Database Htab Event where
  put := DBFunc.insertBinaryData
  get := DBFunc.getBinaryData
  isDatabaseEmpty := do
    match (← DBFunc.isDatabaseEmpty).1 with
    | .ok empty => pure empty
    | .error _ => Prog.halt .abort
  getAllConfigs := do
    let _ ← Htab.getAllConfigs
    Prog.reads fun hashp => hashp.hdr.numCfigs
  setAllConfigs numconfigs := Htab.setAllConfigs numconfigs configs
  reopen := reopenFile o

/-- The opening has the functions of the table and its option for moving pages, can write, and no fetch will fail. -/
structure Htab.Opening.Suits (o : Opening) (hashp : Htab) : Prop where
  hash : o.hash = hashp.hash
  compare : o.cmp = hashp.hCompare
  writable : o.rdonly = false
  faultless : ∀ n, o.fault n = false
  rearrange : (o.info.map Htab.Hashinfo.rearrangepages).getD true = hashp.rearrangePages

def Htab.found (hashp : Htab) (k : List UInt8) : Option (List UInt8) :=
  match (DBFunc.getBinaryData k).run hashp with
  | (.ok (.ok v) _, _) => some v
  | _ => none

/-- What is told of tables with pages of `bsize` bytes, each bucket of which has one page. A put is covered if the
length of the value fits in a word and, when the key is new and not refused, the pair has room in its bucket
and its value has page numbers left. -/
def fileLedger (o : Opening) (bsize : Nat) : Ledger Htab where
  holding hashp := ⟨hashp.found, hashp.hdr.numCfigs⟩
  sound hashp := hashp.hdr.bsize = bsize ∧ ∃ shelf, Shelves False shelf hashp
  rests hashp := o.Suits hashp ∧ ∃ shelf, Shelves True shelf hashp
  admits k _ := k.length ≤ maxKeysize bsize
  covers hashp k v := v.length ≤ 0xffffffff ∧
    (hashp.found k = none → k.length ≤ maxKeysize bsize → RoomFor hashp k ∧ Numbered hashp v.length)

namespace Htab

variable {shelf : Nat → List Entry} {rest : Prop} {hashp t : Htab} {k v : List UInt8}

theorem Shelves.get (there : Shelves rest shelf hashp) (k : List UInt8) : ∃ r t,
    (DBFunc.getBinaryData k).Returns hashp r t ∧ Shelves False shelf t ∧ t.hdr = hashp.hdr ∧
      (∀ key, t.addressOf key = hashp.addressOf key) ∧ ∀ v, r = .ok v ↔ Under shelf hashp k v := by
  obtain ⟨h₀, s, acc, maps, ds, known, file, -⟩ := there
  obtain ⟨r, t, run, ⟨acc', known', file'⟩, answer⟩ := file.loosen.wp_get not_idle_loosened known.loosen k
    fun _ _ => trivial
  exact ⟨r, t, run, ⟨_, s, acc', maps, ds, known', file', False.elim⟩, known'.hdr.trans known.hdr.symm,
    fun key => (known'.addressOf key).trans (known.addressOf key).symm, answer⟩

theorem Shelves.sound (there : Shelves rest shelf hashp) : Shelves False shelf hashp := by
  obtain ⟨h₀, s, acc, maps, ds, known, file, -⟩ := there
  exact ⟨h₀, s, acc, maps, ds, known, file, False.elim⟩

theorem found_of_returns {r : Except Int (List UInt8)} (run : (DBFunc.getBinaryData k).Returns hashp r t) :
    hashp.found k = r.toOption := by
  obtain ⟨trace, run⟩ : ∃ trace, (DBFunc.getBinaryData k).run hashp = (.ok r t, trace) :=
    ⟨((DBFunc.getBinaryData k).run hashp).2, Prod.ext run rfl⟩
  cases r <;> simp [found, run, Except.toOption]

theorem Shelves.found_iff (there : Shelves rest shelf hashp) : hashp.found k = some v ↔ Under shelf hashp k v := by
  obtain ⟨r, t, run, -, -, -, answer⟩ := there.get k
  rw [found_of_returns run, ← answer]
  cases r <;> simp [Except.toOption]

theorem Shelves.put (there : Shelves rest shelf hashp) (small : v.length ≤ 0xffffffff)
    (room : (∀ w, ¬Under shelf hashp k w) → k.length ≤ maxKeysize hashp.hdr.bsize →
      RoomFor hashp k ∧ Numbered hashp v.length) :
    ∃ r t, (DBFunc.insertBinaryData k v).Returns hashp r t ∧ Kept rest shelf hashp k v r t := by
  obtain ⟨h₀, s, acc, maps, ds, known, file, rests⟩ := there
  exact file.wp_put known rests small room fun _ _ => trivial

theorem Shelves.small_of_found (there : Shelves rest shelf hashp) (here : hashp.found k = some v) :
    v.length ≤ 0xffffffff := by
  obtain ⟨e, mem, -, rfl⟩ := there.found_iff.mp here
  obtain ⟨h₀, s, acc, maps, ds, known, file, -⟩ := there
  rw [known.addressOf] at mem
  exact ((file.pages _ (file.address_le _)).small e mem).2

theorem found_congr {rest' : Prop} {shelf' : Nat → List Entry} (there : Shelves rest shelf hashp)
    (there' : Shelves rest' shelf' t)
    (same : ∀ k v, Under shelf' t k v ↔ Under shelf hashp k v) : t.found = hashp.found :=
  funext fun k => Option.ext fun v => (there'.found_iff.trans (same k v)).trans there.found_iff.symm

end Htab

section Laws

variable {bsize : Nat} {hashp : Htab} {k v : List UInt8} {o : Opening} {configs : Nat → Htab.ConfigInfo}

theorem fileLedger_nowhere {rest : Prop} {shelf : Nat → List Htab.Entry} (there : Shelves rest shelf hashp) :
    hashp.found k = none ↔ ∀ w, ¬Under shelf hashp k w := by
  rw [Option.eq_none_iff_forall_not_mem]
  exact forall_congr' fun w => not_congr there.found_iff

theorem fileLedger_put (sound : (fileLedger o bsize).sound hashp) (covers : (fileLedger o bsize).covers hashp k v) :
    ∃ r t, (DBFunc.insertBinaryData k v).Returns hashp r t ∧ (fileLedger o bsize).sound t ∧
      (hashp.found k = none → (r = 0 ↔ k.length ≤ maxKeysize bsize)) ∧
      (∀ w, hashp.found k = some w → (r = 0 ↔ v.length ≤ w.length)) ∧
      t.found = (if r = 0 then Function.update hashp.found k (some v) else hashp.found) ∧
      t.hdr.numCfigs = hashp.hdr.numCfigs := by
  obtain ⟨rfl, shelf, there⟩ := sound
  obtain ⟨small, room⟩ := covers
  obtain ⟨r, t, run, new, old, ⟨shelf', there', stored⟩, same⟩ :=
    there.put small fun nowhere => room ((fileLedger_nowhere there).mpr nowhere)
  refine ⟨r, t, run, ⟨same.size, shelf', there'⟩, fun none => new ((fileLedger_nowhere there).mp none),
    fun w here => old w (there.found_iff.mp here), ?_, same.configs⟩
  funext k'
  refine Option.ext fun w => ?_
  rw [there'.found_iff, stored]
  by_cases zero : r = 0
  · rw [if_pos zero]
    by_cases same : k' = k
    · rw [if_pos ⟨zero, same⟩, same, Function.update_self, Option.some.injEq]
      exact eq_comm
    · rw [if_neg fun both => same both.2, Function.update_of_ne same]
      exact there.found_iff.symm
  · rw [if_neg fun both => zero both.1, if_neg zero]
    exact there.found_iff.symm

theorem fileDatabase_lawful : (fileDatabase o configs).Lawful (fileLedger o bsize) where
  keyed :=
    { get_returns := by
        rintro hashp k ⟨rfl, shelf, there⟩
        obtain ⟨r, t, run, there', hdr, address, answer⟩ := there.get k
        refine ⟨r, t, run, (Htab.found_of_returns run).symm, ?_, congrArg Hashhdr.bsize hdr, shelf, there'⟩
        exact Htab.found_congr there there' fun k v => by unfold Under; rw [address]
      put_returns := by
        intro hashp k v sound covers
        obtain ⟨r, t, run, sound', new, -, change, -⟩ := fileLedger_put sound covers
        exact ⟨r, t, run, new, change, sound'⟩ }
  get_numConfigs := by
    rintro hashp t k r ⟨-, shelf, there⟩ run
    obtain ⟨r', t', run', -, hdr, -⟩ := there.get k
    obtain ⟨-, rfl⟩ := run.unique run'
    exact congrArg Hashhdr.numCfigs hdr
  put_numConfigs := by
    intro hashp t k v st sound covers run
    obtain ⟨r, t', run', -, -, -, -, configs⟩ := fileLedger_put sound covers
    obtain ⟨-, rfl⟩ := run.unique run'
    exact configs
  replaces := by
    intro hashp k v w sound here shorter
    obtain ⟨rfl, shelf, there⟩ := sound
    have small : v.length ≤ 0xffffffff := shorter.trans (there.small_of_found here)
    have covers : (fileLedger o hashp.hdr.bsize).covers hashp k v :=
      ⟨small, fun none => absurd (none.symm.trans here) (by simp)⟩
    refine ⟨covers, fun st t run => ?_⟩
    obtain ⟨r, t', run', -, -, old, -⟩ := fileLedger_put ⟨rfl, shelf, there⟩ covers
    obtain ⟨rfl, rfl⟩ := run.unique run'
    exact (old w here).mpr shorter

end Laws
end FileHash
