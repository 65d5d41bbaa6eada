import Mathlib.Algebra.Order.BigOperators.Group.List
import Mathlib.Data.List.Induction
import Mathlib.Data.List.Nodup
import Mathlib.Data.List.Perm.Basic
import FileHash.Ensemble
import FileHash.Table

/-! `ConfDataDBMerger.h`: databases of one configuration each are merged, chunk by chunk of
their keys, into an `AllConfStoreDB`. A database that is read is its pairs in the order of
its cursor. The map in memory keeps its entries in the order they came in, and is walked in
an order the caller of the model chooses. Sizes in bytes and loop bounds are 32 bit words
where the code has them so. -/
namespace FileHash.ConfDataDBMerger

open Lib (Prog)
open AllConfStoreDB (insertBinaryData getBinaryData Listing listDatabase listLedger listDatabase_lawful
  listDatabase_durable newSession_sound)

/-- `ConfDataStoreDB`, open for reading. -/
structure ConfDataStoreDB where
  pairs : List (List UInt8 × List UInt8)
  nodup : (pairs.map Prod.fst).Nodup

namespace ConfDataStoreDB

def keys (sdb : ConfDataStoreDB) : List (List UInt8) := sdb.pairs.map Prod.fst

def getBinary (sdb : ConfDataStoreDB) (key : List UInt8) : Option (List UInt8) :=
  sdb.pairs.lookup key

end ConfDataStoreDB

/-- The members of the class `ConfigInfo` that a merge looks at. -/
structure ConfigInfo where
  config : Int
  index : Nat
  urlname : String
  deriving DecidableEq, Repr

/-- The loop of the constructor. One `info` serves all turns. -/
def configInfos (info : ConfigInfo) : Nat → List Int → List String → List ConfigInfo
  | i, config :: configs, name :: names =>
    let info := { info with config := config, index := i }
    let info := if name ≠ "N/A" then { info with urlname := name } else info
    info :: configInfos info (i + 1) configs names
  | _, _, _ => []

/-- The constructor from configuration numbers and database names; `none` ends the process. -/
def construct (config_numbers : List Int) (dbase_names : List String) :
    Option (List ConfigInfo) :=
  if dbase_names.length = config_numbers.length then
    some (configInfos ⟨0, 0, ""⟩ 0 config_numbers dbase_names)
  else none

/-- `MemMap_t`. -/
abbrev MemMap := List (List UInt8 × List (List UInt8))

namespace MemMap

def has (bag : MemMap) (key : List UInt8) : Bool := bag.any fun e => e.1 == key

/-- `bag.insert`, which leaves an entry that is there. -/
def insertNew (bag : MemMap) (key : List UInt8) (thr : List (List UInt8)) : MemMap :=
  if bag.has key then bag else bag ++ [(key, thr)]

/-- `bag.find (key)->second[index] = data`. -/
def assign (bag : MemMap) (key : List UInt8) (index : Nat) (data : List UInt8) : MemMap :=
  bag.map fun e => if e.1 = key then (e.1, e.2.set index data) else e

end MemMap

/-- The elements of a chunk, from `ielem` up to `felem`. -/
def chunkElems (numkeys chunksize chunkloop : Nat) : List Nat :=
  let ielem := u32 (chunkloop * chunksize)
  let felem := min (u32 ((chunkloop + 1) * chunksize)) numkeys
  List.range' ielem (felem - ielem)

/-- `initBag`, on the elements of the chunk. -/
def initBag (info : ConfigInfo) (keys data : List (List UInt8)) (numconfigs : Nat)
    (elems : List Nat) (bag : MemMap) : MemMap :=
  elems.foldl (fun bag i => (bag.insertNew (keys.getD i []) (List.replicate numconfigs [])).assign
    (keys.getD i []) info.index (data.getD i [])) bag

/-- The turn of `populateBag` for one key; `none` ends the process. -/
def populateKey (sdb : ConfDataStoreDB) (info : ConfigInfo) (bag : MemMap) (key : List UInt8) :
    Option MemMap :=
  match sdb.getBinary key with
  | none => none
  | some tdata => if bag.has key then some (bag.assign key info.index tdata) else none

/-- `populateBag`, on the elements of the chunk; `none` ends the process. -/
def populateBag (files : String → Option ConfDataStoreDB) (info : ConfigInfo)
    (keys : List (List UInt8)) (elems : List Nat) (bag : MemMap) : Option MemMap :=
  if info.urlname.length > 0 then
    match files info.urlname with
    | none => none
    | some sdb => (elems.map fun i => keys.getD i []).foldlM (populateKey sdb info) bag
  else some bag

/-- The bag of one turn of the loop of `merge`: the first valid configuration, and then all
the others in their order. -/
def loadBag (files : String → Option ConfDataStoreDB) (first : ConfigInfo)
    (others : List ConfigInfo) (keys data : List (List UInt8)) (numconfigs : Nat)
    (elems : List Nat) : Option MemMap :=
  others.foldlM (fun bag info => populateBag files info keys elems bag)
    (initBag first keys data numconfigs elems [])

variable {σ ε : Type} (db : Database σ ε)

/-- `insertBag`, on the entries in the order of the walk. -/
def insertBag : MemMap → Prog (Session σ) ε Unit
  | [] => pure ()
  | e :: bag => do
    let _ ← insertBinaryData db e.1 e.2
    insertBag bag

/-- `iterateSize`: the number of keys of a chunk, an `int`; `none` is a division by zero. -/
def iterateSize (key data : List UInt8) (numelems numconfs max_memory : Nat) : Option Nat :=
  let asize := u32 ((key.length + data.length) * numconfs)
  if asize = 0 then none
  else some (if max_memory / asize > numelems then numelems else max_memory / asize)

/-- An `int` in a `size_t` computation. -/
def toSizeT (v : Nat) : Nat := if v < 0x80000000 then v else v + 0xffffffff00000000

/-- How many loops are run; `none` is a division by zero. -/
def numLoops (numkeys chunk : Nat) : Option Nat :=
  if chunk = 0 then none
  else
    let whole := numkeys / toSizeT chunk
    some (u32 (if numkeys = whole * toSizeT chunk then whole else whole + 1))

/-- The loop of `merge`, from turn `loop` on. -/
def mergeLoop (walk : MemMap → MemMap) (bagOf : Nat → Option MemMap) :
    Nat → Nat → Prog (Session σ) ε Unit
  | 0, _ => pure ()
  | rest + 1, loop =>
    match bagOf loop with
    | none => Prog.halt .exit
    | some bag => do
      insertBag db (walk bag)
      mergeLoop walk bagOf rest (loop + 1)

/-- `merge`. -/
def merge (walk : MemMap → MemMap) (files : String → Option ConfDataStoreDB)
    (configs : List ConfigInfo) (max_memory : Nat) : Prog (Session σ) ε Unit :=
  let i := configs.findIdx fun info => info.urlname.length ≠ 0
  match configs[i]? with
  | none => Prog.halt .exit
  | some first =>
    match files first.urlname with
    | none => Prog.halt .exit
    | some fsconfdb =>
      match fsconfdb.pairs with
      | [] => Prog.halt .exit
      | (key, data) :: _ =>
        let allkeys := fsconfdb.keys
        let data0 := fsconfdb.pairs.map Prod.snd
        match iterateSize key data (u32 allkeys.length) configs.length max_memory with
        | none => Prog.halt .abort
        | some chunk =>
          match numLoops allkeys.length chunk with
          | none => Prog.halt .abort
          | some numloops =>
            mergeLoop db walk (fun loop => loadBag files first (configs.eraseIdx i) allkeys data0
              configs.length (chunkElems allkeys.length chunk loop)) numloops 0

/-- The constructor, `setDatabaseHandle` and `merge`. -/
def mergeAll (walk : MemMap → MemMap) (files : String → Option ConfDataStoreDB)
    (config_numbers : List Int) (dbase_names : List String) (max_memory : Nat) :
    Prog (Session σ) ε Unit :=
  match construct config_numbers dbase_names with
  | none => Prog.halt .exit
  | some configs => merge db walk files configs max_memory

/-! ### The names the configurations end up with -/

def urlnames : String → List String → List String
  | _, [] => []
  | last, name :: names =>
    let last := if name ≠ "N/A" then name else last
    last :: urlnames last names

@[simp] theorem length_urlnames {last : String} {names : List String} :
    (urlnames last names).length = names.length := by
  induction names generalizing last with
  | nil => rfl
  | cons name names ih => rw [urlnames, List.length_cons, ih, List.length_cons]

theorem map_urlname_configInfos {info : ConfigInfo} {i : Nat} {configs : List Int}
    {names : List String} (lengths : names.length = configs.length) :
    (configInfos info i configs names).map ConfigInfo.urlname = urlnames info.urlname names := by
  induction names generalizing info i configs with
  | nil => cases configs <;> rfl
  | cons name names ih =>
    cases configs with
    | nil => cases lengths
    | cons config configs =>
      rw [configInfos, urlnames, List.map_cons, ih (Nat.succ.inj lengths)]
      split <;> rfl

theorem map_index_configInfos {info : ConfigInfo} {i : Nat} {configs : List Int}
    {names : List String} (lengths : names.length = configs.length) :
    (configInfos info i configs names).map ConfigInfo.index = List.range' i names.length := by
  induction names generalizing info i configs with
  | nil => cases configs <;> rfl
  | cons name names ih =>
    cases configs with
    | nil => cases lengths
    | cons config configs =>
      rw [configInfos, List.map_cons, ih (Nat.succ.inj lengths), List.length_cons,
        List.range'_succ]
      split <;> rfl

theorem of_mem_urlnames {last url : String} {names : List String} (mem : url ∈ urlnames last names) :
    url = last ∨ url ∈ names ∧ url ≠ "N/A" := by
  induction names generalizing last with
  | nil => cases mem
  | cons name names ih =>
    rw [urlnames] at mem
    by_cases named : name ≠ "N/A"
    · rw [if_pos named] at mem
      rcases List.mem_cons.mp mem with rfl | later
      · exact .inr ⟨List.mem_cons_self, named⟩
      · rcases ih later with rfl | ⟨there, proper⟩
        · exact .inr ⟨List.mem_cons_self, named⟩
        · exact .inr ⟨List.mem_cons_of_mem _ there, proper⟩
    · rw [if_neg named] at mem
      rcases List.mem_cons.mp mem with rfl | later
      · exact .inl rfl
      · rcases ih later with rfl | ⟨there, proper⟩
        · exact .inl rfl
        · exact .inr ⟨List.mem_cons_of_mem _ there, proper⟩

theorem urlnames_eq {last : String} {names : List String} (whole : "N/A" ∉ names) :
    urlnames last names = names := by
  induction names generalizing last with
  | nil => rfl
  | cons name names ih =>
    rw [List.mem_cons, not_or] at whole
    rw [urlnames, if_pos fun same => whole.1 same.symm, ih whole.2]

/-! ### The bag of one chunk -/

section Bags

variable {bag : MemMap} {ks : List (List UInt8)} {index : Nat} {f : List UInt8 → List UInt8}

def rowsOf (ks : List (List UInt8)) (row : List UInt8 → List (List UInt8)) : MemMap :=
  ks.map fun k => (k, row k)

theorem has_iff {key : List UInt8} : bag.has key = true ↔ key ∈ bag.map Prod.fst := by
  simp [MemMap.has]

theorem keys_rowsOf {row : List UInt8 → List (List UInt8)} :
    (rowsOf ks row).map Prod.fst = ks := by
  simp [rowsOf, Function.comp_def]

theorem keys_assign {key data : List UInt8} :
    (bag.assign key index data).map Prod.fst = bag.map Prod.fst := by
  unfold MemMap.assign
  rw [List.map_map]
  refine List.map_congr_left fun e _ => ?_
  simp only [Function.comp_apply]
  split <;> rfl

theorem foldl_assign : ks.foldl (fun bag k => bag.assign k index (f k)) bag =
    bag.map fun e => if e.1 ∈ ks then (e.1, e.2.set index (f e.1)) else e := by
  induction ks generalizing bag with
  | nil => simp
  | cons k ks ih =>
    rw [List.foldl_cons, ih, MemMap.assign, List.map_map]
    refine List.map_congr_left fun e _ => ?_
    by_cases this_one : e.1 = k
    · subst this_one
      simp
    · simp [this_one]

theorem assign_rowsOf {row : List UInt8 → List (List UInt8)} :
    ks.foldl (fun bag k => bag.assign k index (f k)) (rowsOf ks row) =
      rowsOf ks fun k => (row k).set index (f k) := by
  rw [foldl_assign, rowsOf, rowsOf, List.map_map]
  refine List.map_congr_left fun k mem => ?_
  simp [mem]

theorem foldlM_populateKey {sdb : ConfDataStoreDB} {info : ConfigInfo}
    (present : ∀ k ∈ ks, k ∈ bag.map Prod.fst)
    (there : ∀ k ∈ ks, sdb.getBinary k = some (f k)) :
    ks.foldlM (populateKey sdb info) bag =
      some (ks.foldl (fun bag k => bag.assign k info.index (f k)) bag) := by
  induction ks generalizing bag with
  | nil => rfl
  | cons k ks ih =>
    have first : populateKey sdb info bag k = some (bag.assign k info.index (f k)) := by
      rw [populateKey, there k List.mem_cons_self]
      exact if_pos (has_iff.mpr (present k List.mem_cons_self))
    rw [List.foldlM_cons, first, List.foldl_cons]
    refine ih (fun k' mem => ?_) fun k' mem => there k' (List.mem_cons_of_mem _ mem)
    rw [keys_assign]
    exact present k' (List.mem_cons_of_mem _ mem)

def setCell (value : String → List UInt8 → List UInt8) (key : List UInt8)
    (row : List (List UInt8)) (info : ConfigInfo) : List (List UInt8) :=
  if info.urlname.length > 0 then row.set info.index (value info.urlname key) else row

variable {files : String → Option ConfDataStoreDB} {value : String → List UInt8 → List UInt8}
  {keys data : List (List UInt8)} {elems : List Nat} {info : ConfigInfo} {n : Nat}

def Knows (files : String → Option ConfDataStoreDB) (value : String → List UInt8 → List UInt8)
    (ks : List (List UInt8)) (url : String) : Prop :=
  url.length > 0 → ∃ sdb, files url = some sdb ∧ ∀ k ∈ ks, sdb.getBinary k = some (value url k)

theorem populateBag_rows {row : List UInt8 → List (List UInt8)}
    (some_keys : elems.map (fun i => keys.getD i []) = ks)
    (knows : Knows files value ks info.urlname) :
    populateBag files info keys elems (rowsOf ks row) =
      some (rowsOf ks fun k => setCell value k (row k) info) := by
  unfold populateBag setCell
  by_cases named : info.urlname.length > 0
  · obtain ⟨sdb, opened, there⟩ := knows named
    have present : ∀ k ∈ ks, k ∈ (rowsOf ks row).map Prod.fst := fun k mem => by
      rwa [keys_rowsOf]
    simp only [if_pos named, opened, some_keys]
    rw [foldlM_populateKey present there, assign_rowsOf]
  · simp only [if_neg named]

theorem insertNew_rows {row : List UInt8 → List (List UInt8)} {key : List UInt8}
    (absent : key ∉ ks) (thr : List (List UInt8)) :
    (rowsOf ks row).insertNew key thr = rowsOf ks row ++ [(key, thr)] := by
  rw [MemMap.insertNew, if_neg]
  rw [has_iff, keys_rowsOf]
  exact absent

theorem initBag_rows (some_keys : elems.map (fun i => keys.getD i []) = ks) (nodup : ks.Nodup)
    (some_data : ∀ i ∈ elems, data.getD i [] = f (keys.getD i [])) :
    initBag info keys data n elems [] =
      rowsOf ks fun k => (List.replicate n []).set info.index (f k) := by
  subst some_keys
  induction elems using List.reverseRecOn with
  | nil => rfl
  | append_singleton elems i ih =>
    rw [List.map_append, List.map_singleton, List.nodup_append] at nodup
    have earlier := ih (fun j mem => some_data j (List.mem_append_left _ mem)) nodup.1
    have absent : keys.getD i [] ∉ elems.map fun i => keys.getD i [] := fun mem =>
      nodup.2.2 _ mem _ (List.mem_singleton.mpr rfl) rfl
    unfold initBag at earlier ⊢
    rw [List.foldl_append, earlier, List.foldl_cons, List.foldl_nil, insertNew_rows absent,
      some_data i (List.mem_append_right _ (List.mem_singleton.mpr rfl)), MemMap.assign,
      List.map_append]
    simp only [rowsOf, List.map_map, List.map_append, List.map_singleton, if_true,
      List.append_cancel_right_eq]
    refine List.map_congr_left fun j mem => ?_
    have other : keys.getD j [] ≠ keys.getD i [] := fun same => absent (by
      rw [← same]
      exact List.mem_map_of_mem mem)
    simp only [Function.comp_apply, if_neg other]

theorem loadBag_rows {first : ConfigInfo} {others : List ConfigInfo}
    (some_keys : elems.map (fun i => keys.getD i []) = ks) (nodup : ks.Nodup)
    (named : first.urlname.length > 0)
    (some_data : ∀ i ∈ elems, data.getD i [] = value first.urlname (keys.getD i []))
    (knows : ∀ info ∈ others, Knows files value ks info.urlname) :
    loadBag files first others keys data n elems = some (rowsOf ks fun k =>
      (first :: others).foldl (setCell value k) (List.replicate n [])) := by
  unfold loadBag
  rw [initBag_rows some_keys nodup some_data]
  have each : ∀ row : List UInt8 → List (List UInt8),
      others.foldlM (fun bag info => populateBag files info keys elems bag) (rowsOf ks row) =
        some (rowsOf ks fun k => others.foldl (setCell value k) (row k)) := by
    intro row
    induction others generalizing row with
    | nil => rfl
    | cons info others ih =>
      rw [List.foldlM_cons, populateBag_rows some_keys (knows info List.mem_cons_self)]
      exact ih (fun info mem => knows info (List.mem_cons_of_mem _ mem)) _
  rw [each]
  simp only [List.foldl_cons, setCell, if_pos named]

def cell (value : String → List UInt8 → List UInt8) (key : List UInt8) (url : String) :
    List UInt8 :=
  if url.length > 0 then value url key else []

theorem length_foldl_setCell {key : List UInt8} {infos : List ConfigInfo}
    {row : List (List UInt8)} : (infos.foldl (setCell value key) row).length = row.length := by
  induction infos generalizing row with
  | nil => rfl
  | cons info infos ih =>
    rw [List.foldl_cons, ih, setCell]
    split
    · exact List.length_set
    · rfl

theorem foldl_setCell_other {key : List UInt8} {infos : List ConfigInfo} {row : List (List UInt8)}
    {c : Nat} (other : c ∉ infos.map ConfigInfo.index) :
    (infos.foldl (setCell value key) row)[c]? = row[c]? := by
  induction infos generalizing row with
  | nil => rfl
  | cons info infos ih =>
    rw [List.map_cons, List.mem_cons, not_or] at other
    rw [List.foldl_cons, ih other.2, setCell]
    split
    · exact List.getElem?_set_ne fun same => other.1 same.symm
    · rfl

theorem foldl_setCell_mem {key : List UInt8} {infos : List ConfigInfo} {row : List (List UInt8)}
    (nodup : (infos.map ConfigInfo.index).Nodup) (mem : info ∈ infos)
    (clear : row[info.index]? = some []) :
    (infos.foldl (setCell value key) row)[info.index]? = some (cell value key info.urlname) := by
  induction infos generalizing row with
  | nil => cases mem
  | cons a infos ih =>
    rw [List.map_cons, List.nodup_cons] at nodup
    rw [List.foldl_cons]
    rcases List.mem_cons.mp mem with rfl | later
    · rw [foldl_setCell_other nodup.1, setCell, cell]
      split
      · have inside := (List.getElem?_eq_some_iff.mp clear).1
        rw [List.getElem?_set_self inside]
      · exact clear
    · have apart : a.index ≠ info.index := fun same => nodup.1 (same ▸ List.mem_map_of_mem later)
      refine ih nodup.2 later ?_
      rw [setCell]
      split
      · rw [List.getElem?_set_ne apart]
        exact clear
      · exact clear

theorem row_eq {key : List UInt8} {configs : List ConfigInfo} {first : ConfigInfo} {i : Nat}
    (indices : configs.map ConfigInfo.index = List.range' 0 configs.length)
    (here : configs[i]? = some first) :
    (first :: configs.eraseIdx i).foldl (setCell value key)
        (List.replicate configs.length []) =
      configs.map fun info => cell value key info.urlname := by
  obtain ⟨inside, rfl⟩ := List.getElem?_eq_some_iff.mp here
  have perm := List.getElem_cons_eraseIdx_perm inside
  have nodup : ((configs[i] :: configs.eraseIdx i).map ConfigInfo.index).Nodup := by
    rw [(perm.map ConfigInfo.index).nodup_iff, indices]
    exact List.nodup_range'
  refine List.ext_getElem? fun c => ?_
  by_cases bound : c < configs.length
  · have index : configs[c].index = c := by
      have := congrArg (fun l => l[c]?) indices
      simp only [List.getElem?_map, List.getElem?_eq_getElem bound, List.getElem?_range' bound,
        Option.map_some, Option.some.injEq] at this
      omega
    have clear : (List.replicate configs.length ([] : List UInt8))[configs[c].index]? = some [] := by
      simp [index, bound]
    have cells : ((configs[i] :: configs.eraseIdx i).foldl (setCell value key)
        (List.replicate configs.length []))[configs[c].index]? =
          some (cell value key configs[c].urlname) :=
      foldl_setCell_mem nodup (perm.mem_iff.mpr (List.getElem_mem bound)) clear
    rw [index] at cells
    rw [cells, List.getElem?_map, List.getElem?_eq_getElem bound]
    rfl
  · rw [List.getElem?_eq_none, List.getElem?_eq_none]
    · rw [List.length_map]
      omega
    · rw [length_foldl_setCell, List.length_replicate]
      omega

end Bags

/-! ### What the combined database holds -/

section Runs

variable {db} {book : Ledger σ}
  {row : List UInt8 → List (List UInt8)} {size : Nat} {keys done done' : List UInt8 → Prop} {s₀ : σ}
  {h : Session σ}

/-- The keys that are `done` are there with their rows, as far as the database admits them. It has come
from `s₀` by puts of the rows of `keys`, and is told of each of them. -/
structure Filled (db : Database σ ε) (book : Ledger σ) (row : List UInt8 → List (List UInt8)) (size n : Nat)
    (keys : List UInt8 → Prop) (s₀ : σ) (done : List UInt8 → Prop) (h : Session σ) : Prop where
  nbin : h.store.nbin = n
  agrees : h.store.Agrees size
  numConfigs : (book.holding h.dbh).numConfigs = n
  sound : book.sound h.dbh
  told : db.Covered book (fun k v => keys k ∧ v = (row k).flatten) s₀
  comes : db.Puts (fun k v => keys k ∧ v = (row k).flatten) s₀ h.dbh
  contents : ∀ k v, (book.holding h.dbh).contents k = some v ↔
    done k ∧ book.admits k (row k).flatten ∧ v = (row k).flatten

theorem Filled.congr {n : Nat} (filled : Filled db book row size n keys s₀ done h)
    (same : ∀ k, done k ↔ done' k) : Filled db book row size n keys s₀ done' h :=
  { filled with contents := fun k v => by rw [filled.contents, same] }

structure GoodRow (size n : Nat) (cells : List (List UInt8)) : Prop where
  length : cells.length = n
  head : ∀ first ∈ cells.head?, first.length = 0 ∨ first.length = size

theorem noteSize_agrees {store : AllConfStoreDB} {other : Nat} (agrees : store.Agrees size)
    (fits : other = 0 ∨ other = size) : (store.noteSize other).Agrees size := by
  unfold AllConfStoreDB.noteSize
  split
  · exact fits
  · exact agrees

/-- One turn of `insertBag`: a key that is there already keeps its row, whether the
database replaces it or not. -/
theorem insertBinaryData_filled (law : db.Lawful book) {n : Nat} {key : List UInt8} (mem : keys key)
    (filled : Filled db book row size n keys s₀ done h) (good : GoodRow size n (row key)) :
    ∃ st h', (insertBinaryData db key (row key)).Returns h st h' ∧
      Filled db book row size n keys s₀ (fun k => done k ∨ k = key) h' := by
  have covered := filled.told _ _ _ filled.comes ⟨mem, rfl⟩
  obtain ⟨st, s', put, fresh, change, sound⟩ := law.keyed.put_returns filled.sound covered
  have size_ok : ¬(row key).length ≠ h.store.nbin := by
    rw [good.length, filled.nbin]
    exact not_not_intro rfl
  obtain ⟨first, head⟩ : ∃ first, (row key).head? = some first := by
    have pos := h.store.nbin_pos
    cases cells : row key with
    | nil =>
      rw [cells] at size_ok
      exact absurd (Nat.ne_of_lt pos) size_ok
    | cons first rest => exact ⟨first, rfl⟩
  refine ⟨st, ⟨h.store.noteSize first.length, s'⟩, ?_, ?_, ?_, ?_, sound, filled.told,
    filled.comes.put ⟨mem, rfl⟩ put, ?_⟩
  · unfold insertBinaryData
    refine Prog.returns_bind.mpr ⟨h, h, Prog.returns_read.mpr ⟨rfl, rfl⟩, ?_⟩
    rw [if_neg size_ok, head]
    refine Prog.returns_bind.mpr ⟨true, _, AllConfStoreDB.returns_measure.mpr ⟨rfl, rfl⟩, ?_⟩
    exact AllConfStoreDB.returns_onDb.mpr ⟨s', put, rfl⟩
  · rw [AllConfStoreDB.noteSize_nbin, filled.nbin]
  · exact noteSize_agrees filled.agrees (good.head first (by rw [head]; rfl))
  · exact (law.put_numConfigs filled.sound covered put).trans filled.numConfigs
  · intro k v
    have before := filled.contents k v
    rw [change]
    by_cases this_one : k = key
    · subst this_one
      by_cases stored : st = 0
      · have admitted : book.admits k (row k).flatten := by
          cases there : (book.holding h.dbh).contents k with
          | none => exact (fresh there).mp stored
          | some w => exact ((filled.contents k w).mp there).2.1
        rw [if_pos stored, Function.update_self, Option.some.injEq]
        exact ⟨fun same => ⟨.inr rfl, admitted, same.symm⟩, fun all => all.2.2.symm⟩
      · rw [if_neg stored, before]
        constructor
        · exact fun all => ⟨.inl all.1, all.2⟩
        · rintro ⟨-, admitted, rfl⟩
          refine ⟨?_, admitted, rfl⟩
          -- a key that is admitted is refused only where it is there already
          cases there : (book.holding h.dbh).contents k with
          | none => exact absurd ((fresh there).mpr admitted) stored
          | some w => exact ((filled.contents k w).mp there).1
    · have kept : (if st = 0 then Function.update (book.holding h.dbh).contents key
          (some (row key).flatten) else (book.holding h.dbh).contents) k =
            (book.holding h.dbh).contents k := by
        split
        · exact Function.update_of_ne this_one ..
        · rfl
      rw [kept, before]
      simp [this_one]

theorem insertBag_filled (law : db.Lawful book) {n : Nat} {bag : MemMap}
    (filled : Filled db book row size n keys s₀ done h)
    (rows : ∀ e ∈ bag, e.2 = row e.1 ∧ GoodRow size n (row e.1) ∧ keys e.1) :
    ∃ h', (insertBag db bag).Returns h () h' ∧
      Filled db book row size n keys s₀ (fun k => done k ∨ k ∈ bag.map Prod.fst) h' := by
  induction bag generalizing h done with
  | nil => exact ⟨h, by simp [insertBag], filled.congr (by simp)⟩
  | cons e bag ih =>
    obtain ⟨same, good, mem⟩ := rows e List.mem_cons_self
    obtain ⟨st, h₁, one, filled₁⟩ := insertBinaryData_filled law mem filled good
    obtain ⟨h₂, rest, filled₂⟩ := ih filled₁ fun e' mem => rows e' (List.mem_cons_of_mem _ mem)
    refine ⟨h₂, ?_, filled₂.congr fun k => ?_⟩
    · rw [insertBag, same]
      exact Prog.returns_bind.mpr ⟨st, h₁, one, rest⟩
    · rw [List.map_cons, List.mem_cons, or_assoc]

theorem mergeLoop_filled (law : db.Lawful book) {n : Nat} {walk : MemMap → MemMap}
    (order : ∀ bag, (walk bag).Perm bag) {bagOf : Nat → Option MemMap}
    {ks : Nat → List (List UInt8)} (bags : ∀ loop, bagOf loop = some (rowsOf (ks loop) row))
    (good : ∀ loop, ∀ k ∈ ks loop, GoodRow size n (row k) ∧ keys k) {rest loop : Nat}
    (filled : Filled db book row size n keys s₀ done h) :
    ∃ h', (mergeLoop db walk bagOf rest loop).Returns h () h' ∧
      Filled db book row size n keys s₀
        (fun k => done k ∨ ∃ l, loop ≤ l ∧ l < loop + rest ∧ k ∈ ks l) h' := by
  induction rest generalizing loop h done with
  | zero =>
    refine ⟨h, by simp [mergeLoop], filled.congr fun k => ?_⟩
    constructor
    · exact .inl
    · rintro (there | ⟨l, low, high, -⟩)
      · exact there
      · omega
  | succ rest ih =>
    have perm := order (rowsOf (ks loop) row)
    have rows : ∀ e ∈ walk (rowsOf (ks loop) row), e.2 = row e.1 ∧ GoodRow size n (row e.1) ∧ keys e.1 := by
      intro e mem
      obtain ⟨k, key, rfl⟩ := List.mem_map.mp (perm.mem_iff.mp mem)
      exact ⟨rfl, good loop k key⟩
    obtain ⟨h₁, bag, filled₁⟩ := insertBag_filled law filled rows
    obtain ⟨h₂, run, filled₂⟩ : ∃ h₂, (mergeLoop db walk bagOf rest (loop + 1)).Returns h₁ () h₂ ∧
      _ := ih filled₁
    refine ⟨h₂, ?_, filled₂.congr fun k => ?_⟩
    · rw [mergeLoop, bags loop]
      exact Prog.returns_bind.mpr ⟨(), h₁, bag, run⟩
    · rw [(perm.map Prod.fst).mem_iff, keys_rowsOf]
      constructor
      · rintro ((before | here) | ⟨l, low, high, there⟩)
        · exact .inl before
        · exact .inr ⟨loop, le_rfl, by omega, here⟩
        · exact .inr ⟨l, by omega, by omega, there⟩
      · rintro (before | ⟨l, low, high, there⟩)
        · exact .inl (.inl before)
        · rcases Nat.eq_or_lt_of_le low with rfl | later
          · exact .inl (.inr there)
          · exact .inr ⟨l, later, by omega, there⟩

end Runs

/-! ### Merges -/

theorem ConfDataStoreDB.getBinary_of_mem {sdb : ConfDataStoreDB} {key data : List UInt8}
    (mem : (key, data) ∈ sdb.pairs) : sdb.getBinary key = some data := by
  obtain ⟨before, behind, split⟩ := List.append_of_mem mem
  refine List.lookup_eq_some_iff.mpr ⟨before, behind, split, fun p earlier => ?_⟩
  have nodup := sdb.nodup
  rw [split, List.map_append, List.nodup_append] at nodup
  have apart := nodup.2.2 p.1 (List.mem_map_of_mem earlier) key List.mem_cons_self
  simpa using fun same : key = p.1 => apart same.symm

/-- What a merge is started with. The values are of one size. -/
structure Task where
  files : String → Option ConfDataStoreDB
  config_numbers : List Int
  dbase_names : List String
  max_memory : Nat
  size : Nat

namespace Task

variable (t : Task)

def Named (name : String) : Prop := name ∈ t.dbase_names ∧ name ≠ "N/A"

def IsKey (key : List UInt8) : Prop :=
  ∃ name sdb, t.Named name ∧ t.files name = some sdb ∧ key ∈ sdb.keys

def value (name : String) (key : List UInt8) : List UInt8 :=
  ((t.files name).bind fun sdb => sdb.getBinary key).getD []

def firstName : Option String := t.dbase_names.find? fun name => name ≠ "N/A"

/-- Two lists of one length, with a name among the holes; databases with the same keys, at
least one, and values of one size; and memory for one key with its data over all
configurations, as the code counts it from the first pair it reads. -/
structure Valid : Prop where
  lengths : t.dbase_names.length = t.config_numbers.length
  some_named : ∃ name, t.Named name
  opens : ∀ name, t.Named name → name ≠ "" ∧ ∃ sdb, t.files name = some sdb ∧ sdb.pairs ≠ [] ∧
    ∀ p ∈ sdb.pairs, p.2.length = t.size
  same_keys : ∀ name sdb name' sdb', t.Named name → t.files name = some sdb → t.Named name' →
    t.files name' = some sdb' → ∀ key ∈ sdb.keys, key ∈ sdb'.keys
  memory_word : t.max_memory < 0x100000000
  memory : ∀ name sdb key data rest, t.firstName = some name → t.files name = some sdb →
    sdb.pairs = (key, data) :: rest →
    (key.length + data.length) * t.dbase_names.length ≤ t.max_memory

def urls : List String := urlnames "" t.dbase_names

def row (key : List UInt8) : List (List UInt8) := t.urls.map fun url => cell t.value key url

variable {t} (valid : t.Valid)
include valid

theorem value_spec {name : String} (named : t.Named name) :
    ∃ sdb, t.files name = some sdb ∧ ∀ key, t.IsKey key →
      sdb.getBinary key = some (t.value name key) ∧ (t.value name key).length = t.size := by
  obtain ⟨-, sdb, opened, -, sizes⟩ := valid.opens name named
  refine ⟨sdb, opened, fun key isKey => ?_⟩
  obtain ⟨name', sdb', named', opened', there⟩ := isKey
  have here := valid.same_keys name' sdb' name sdb named' opened' named opened key there
  obtain ⟨⟨k, data⟩, mem, rfl⟩ := List.mem_map.mp here
  have found := ConfDataStoreDB.getBinary_of_mem mem
  have same : t.value name k = data := by
    rw [value, opened, Option.bind_some, found]
    rfl
  rw [same]
  exact ⟨found, sizes _ mem⟩

omit valid in
theorem named_of_url {url : String} (mem : url ∈ t.urls) (proper : url.length > 0) :
    t.Named url := by
  rcases of_mem_urlnames mem with rfl | named
  · exact absurd proper (by decide)
  · exact named

theorem knows_url {ks : List (List UInt8)} (keys : ∀ k ∈ ks, t.IsKey k) {url : String}
    (mem : url ∈ t.urls) : Knows t.files t.value ks url := by
  intro proper
  obtain ⟨sdb, opened, there⟩ := value_spec valid (named_of_url mem proper)
  exact ⟨sdb, opened, fun k key => (there k (keys k key)).1⟩

theorem length_cell {key : List UInt8} (isKey : t.IsKey key) {url : String} (mem : url ∈ t.urls) :
    (cell t.value key url).length = if url.length > 0 then t.size else 0 := by
  unfold cell
  split
  · rename_i proper
    obtain ⟨sdb, -, there⟩ := value_spec valid (named_of_url mem proper)
    exact (there key isKey).2
  · rfl

theorem goodRow {key : List UInt8} (isKey : t.IsKey key) :
    GoodRow t.size t.dbase_names.length (t.row key) where
  length := by rw [row, List.length_map, urls, length_urlnames]
  head first mem := by
    obtain ⟨url, there, rfl⟩ := List.mem_map.mp (List.mem_of_mem_head? mem)
    rw [length_cell valid isKey there]
    split
    · exact .inr rfl
    · exact .inl rfl

omit valid in
theorem urlnames_find {names : List String}
    (proper : ∀ name ∈ names, name ≠ "N/A" → name ≠ "") :
    (urlnames "" names).find? (fun url => url.length ≠ 0) =
      names.find? fun name => name ≠ "N/A" := by
  induction names with
  | nil => rfl
  | cons name names ih =>
    have later := ih fun other mem => proper other (List.mem_cons_of_mem _ mem)
    rw [urlnames]
    by_cases named : name ≠ "N/A"
    · have long : name.length ≠ 0 := fun none_there =>
        proper name List.mem_cons_self named (String.length_eq_zero_iff.mp none_there)
      rw [if_pos named, List.find?_cons_of_pos (by simpa using long),
        List.find?_cons_of_pos (by simpa using named)]
    · rw [if_neg named, List.find?_cons_of_neg (by simp), later,
        List.find?_cons_of_neg (by simpa using named)]

def configs (t : Task) : List ConfigInfo := configInfos ⟨0, 0, ""⟩ 0 t.config_numbers t.dbase_names

theorem map_urlname_configs : t.configs.map ConfigInfo.urlname = t.urls :=
  map_urlname_configInfos valid.lengths

theorem length_configs : t.configs.length = t.dbase_names.length := by
  rw [← List.length_map (f := ConfigInfo.urlname), map_urlname_configs valid, urls,
    length_urlnames]

/-- Where the loop of `merge` for the first valid configuration ends. -/
def firstIndex (t : Task) : Nat := t.configs.findIdx fun info => info.urlname.length ≠ 0

structure Start (t : Task) where
  first : ConfigInfo
  sdb : ConfDataStoreDB
  key : List UInt8
  data : List UInt8
  rest : List (List UInt8 × List UInt8)
  here : t.configs[t.firstIndex]? = some first
  firstName : t.firstName = some first.urlname
  named : t.Named first.urlname
  opened : t.files first.urlname = some sdb
  pairs : sdb.pairs = (key, data) :: rest

theorem exists_start : Nonempty t.Start := by
  obtain ⟨name, mem, named⟩ := valid.some_named
  have found : t.configs[t.firstIndex]? =
      t.configs.find? fun info => info.urlname.length ≠ 0 := List.find?_eq_getElem?_findIdx.symm
  have names : (t.configs.find? fun info => info.urlname.length ≠ 0).map ConfigInfo.urlname =
      t.firstName := by
    rw [firstName, ← urlnames_find fun other there proper => (valid.opens other ⟨there, proper⟩).1,
      ← urls, ← map_urlname_configs valid, List.find?_map]
    rfl
  cases first : t.configs[t.firstIndex]? with
  | none =>
    rw [found] at first
    rw [first, firstName, Option.map_none, eq_comm, List.find?_eq_none] at names
    exact absurd named (by simpa using names name mem)
  | some info =>
    rw [← found, first, Option.map_some, firstName] at names
    have here : t.Named info.urlname :=
      ⟨List.mem_of_find?_eq_some names.symm, by simpa using List.find?_some names.symm⟩
    obtain ⟨-, sdb, opened, some_pairs, -⟩ := valid.opens _ here
    cases pairs : sdb.pairs with
    | nil => exact absurd pairs some_pairs
    | cons p rest => exact ⟨⟨info, sdb, p.1, p.2, rest, first, names.symm, here, opened, pairs⟩⟩

def Start.chunkKeys (start : t.Start) (chunk loop : Nat) : List (List UInt8) :=
  (chunkElems start.sdb.keys.length chunk loop).map fun i => start.sdb.keys.getD i []

theorem mergeAll_eq (start : t.Start) {walk : MemMap → MemMap} :
    mergeAll db walk t.files t.config_numbers t.dbase_names t.max_memory =
      match iterateSize start.key start.data (u32 start.sdb.keys.length) t.dbase_names.length
        t.max_memory with
      | none => Prog.halt .abort
      | some chunk =>
        match numLoops start.sdb.keys.length chunk with
        | none => Prog.halt .abort
        | some numloops =>
          mergeLoop db walk (fun loop => loadBag t.files start.first
            (t.configs.eraseIdx t.firstIndex) start.sdb.keys (start.sdb.pairs.map Prod.snd)
            t.dbase_names.length (chunkElems start.sdb.keys.length chunk loop)) numloops 0 := by
  have here := start.here
  have length := length_configs valid
  unfold firstIndex configs at here
  unfold configs at length
  unfold mergeAll construct merge
  simp only [if_pos valid.lengths, here, start.opened, start.pairs, length]
  rfl

theorem isKey_of_mem (start : t.Start) {key : List UInt8} :
    key ∈ start.sdb.keys ↔ t.IsKey key := by
  constructor
  · exact fun mem => ⟨_, _, start.named, start.opened, mem⟩
  · rintro ⟨name, sdb, named, opened, mem⟩
    exact valid.same_keys name sdb _ start.sdb named opened start.named start.opened key mem

omit valid in
theorem chunkElems_lt {numkeys chunk loop i : Nat} (mem : i ∈ chunkElems numkeys chunk loop) :
    i < numkeys := by
  rw [chunkElems, List.mem_range'_1] at mem
  omega

omit valid in
theorem getD_pairs {β : Type} {pairs : List β} {f : β → List UInt8} {i : Nat}
    (bound : i < pairs.length) : (pairs.map f).getD i [] = f pairs[i] := by
  rw [List.getD_eq_getElem?_getD, List.getElem?_map, List.getElem?_eq_getElem bound]
  rfl

omit valid in
theorem elems_lt_pairs (start : t.Start) {chunk loop i : Nat}
    (mem : i ∈ chunkElems start.sdb.keys.length chunk loop) : i < start.sdb.pairs.length := by
  have bound := chunkElems_lt mem
  rwa [ConfDataStoreDB.keys, List.length_map] at bound

omit valid in
theorem chunkKeys_nodup (start : t.Start) {chunk loop : Nat} :
    (start.chunkKeys chunk loop).Nodup := by
  unfold Start.chunkKeys
  refine List.Nodup.map_on ?_ List.nodup_range'
  intro i left j right same
  have inside := chunkElems_lt left
  have inside' := chunkElems_lt right
  simp only [List.getD_eq_getElem?_getD, List.getElem?_eq_getElem inside,
    List.getElem?_eq_getElem inside', Option.getD_some] at same
  exact (List.Nodup.getElem_inj_iff start.sdb.nodup).mp same

omit valid in
theorem mem_chunkKeys (start : t.Start) {chunk loop : Nat} {key : List UInt8}
    (mem : key ∈ start.chunkKeys chunk loop) : key ∈ start.sdb.keys := by
  obtain ⟨i, inside, rfl⟩ := List.mem_map.mp mem
  have bound := elems_lt_pairs start inside
  rw [ConfDataStoreDB.keys, getD_pairs bound]
  exact List.mem_map_of_mem (List.getElem_mem bound)

theorem loadBag_eq (start : t.Start) {chunk loop : Nat} :
    loadBag t.files start.first (t.configs.eraseIdx t.firstIndex) start.sdb.keys
        (start.sdb.pairs.map Prod.snd) t.dbase_names.length
        (chunkElems start.sdb.keys.length chunk loop) =
      some (rowsOf (start.chunkKeys chunk loop) t.row) := by
  have keys : ∀ k ∈ start.chunkKeys chunk loop, t.IsKey k := fun k mem =>
    (isKey_of_mem valid start).mp (mem_chunkKeys start mem)
  have some_data : ∀ i ∈ chunkElems start.sdb.keys.length chunk loop,
      (start.sdb.pairs.map Prod.snd).getD i [] =
        t.value start.first.urlname (start.sdb.keys.getD i []) := by
    intro i mem
    have bound := elems_lt_pairs start mem
    have found : start.sdb.getBinary start.sdb.pairs[i].1 = some start.sdb.pairs[i].2 :=
      ConfDataStoreDB.getBinary_of_mem (List.getElem_mem bound)
    rw [ConfDataStoreDB.keys, getD_pairs bound, getD_pairs bound, value, start.opened,
      Option.bind_some, found]
    rfl
  have knows : ∀ info ∈ t.configs.eraseIdx t.firstIndex,
      Knows t.files t.value (start.chunkKeys chunk loop) info.urlname := by
    intro info mem
    refine knows_url valid keys ?_
    rw [← map_urlname_configs valid]
    exact List.mem_map_of_mem (List.mem_of_mem_eraseIdx mem)
  have proper : start.first.urlname.length > 0 := by
    refine Nat.pos_of_ne_zero fun none_there => ?_
    exact (valid.opens _ start.named).1 (String.length_eq_zero_iff.mp none_there)
  rw [loadBag_rows rfl (chunkKeys_nodup start) proper some_data knows]
  have indices : t.configs.map ConfigInfo.index = List.range' 0 t.configs.length := by
    rw [length_configs valid]
    exact map_index_configInfos valid.lengths
  have rows : ∀ k, (start.first :: t.configs.eraseIdx t.firstIndex).foldl (setCell t.value k)
      (List.replicate t.configs.length []) =
        t.configs.map fun info => cell t.value k info.urlname := fun k =>
    row_eq indices start.here
  rw [length_configs valid] at rows
  congr 1
  refine List.map_congr_left fun k _ => ?_
  simp only [rows, row, ← map_urlname_configs valid, List.map_map]
  rfl

omit valid

def Covers (numkeys chunk : Nat) : Prop :=
  ∃ numloops, numLoops numkeys chunk = some numloops ∧
    ∀ i < numkeys, ∃ loop < numloops, i ∈ chunkElems numkeys chunk loop

theorem covers_of_small {numkeys chunk : Nat} (pos : 0 < chunk) (le : chunk ≤ numkeys)
    (few : numkeys < 0x80000000) : Covers numkeys chunk := by
  have step : toSizeT chunk = chunk := if_pos (by omega)
  have floor := Nat.div_mul_le_self numkeys chunk
  have short : numkeys / chunk ≤ numkeys := Nat.div_le_self ..
  refine ⟨if numkeys = numkeys / chunk * chunk then numkeys / chunk else numkeys / chunk + 1,
    ?_, fun i bound => ⟨i / chunk, ?_, ?_⟩⟩
  · unfold numLoops
    simp only [if_neg (Nat.ne_of_gt pos), step, Option.some.injEq]
    split <;> exact Nat.mod_eq_of_lt (by omega)
  · split
    · rename_i whole
      rw [Nat.div_lt_iff_lt_mul pos, ← whole]
      exact bound
    · exact Nat.lt_succ_of_le (Nat.div_le_div_right (Nat.le_of_lt bound))
  · have low := Nat.div_mul_le_self i chunk
    have high : i < (i / chunk + 1) * chunk := by
      rw [Nat.mul_comm]
      exact Nat.lt_mul_div_succ i pos
    have next : (i / chunk + 1) * chunk = i / chunk * chunk + chunk := Nat.succ_mul ..
    unfold chunkElems
    have ielem : u32 (i / chunk * chunk) = i / chunk * chunk := Nat.mod_eq_of_lt (by omega)
    have felem : u32 ((i / chunk + 1) * chunk) = (i / chunk + 1) * chunk :=
      Nat.mod_eq_of_lt (by omega)
    simp only [ielem, felem, List.mem_range'_1]
    omega

/-- The chunks of this merge reach every key of the first database. -/
def ChunksCover (t : Task) : Prop :=
  ∀ start : t.Start, ∃ chunk, iterateSize start.key start.data (u32 start.sdb.keys.length)
    t.dbase_names.length t.max_memory = some chunk ∧ Covers start.sdb.keys.length chunk

def ensemble (t : Task) (key : List UInt8) : List UInt8 :=
  (t.dbase_names.map fun name => t.value name key).flatten

/-- A vector with the value of every named database at its place, and of none at a hole. -/
def Shows (t : Task) (key : List UInt8) (vs : List (List UInt8)) : Prop :=
  (∀ (c : Nat) name, t.dbase_names[c]? = some name → name ≠ "N/A" → vs[c]? = some (t.value name key)) ∧
    ∀ c : Nat, t.dbase_names[c]? = some "N/A" → ∀ name, t.Named name →
      vs[c]? ≠ some (t.value name key)

/-- Exactly the common keys are there, and each shows its values, through the handle the
merge ran into and through one opened afterwards. -/
def Merged (db : Database σ ε) (holding : σ → Holding) (t : Task) (h : Session σ) : Prop :=
  (∀ key, (∃ v, (holding h.dbh).contents key = some v) ↔ t.IsKey key) ∧
    ∀ key, t.IsKey key →
      (∃ vs h', (getBinaryData db key).Returns h (.ok vs) h' ∧ t.Shows key vs) ∧
        ∀ nbin, ∃ store s vs h',
          (AllConfStoreDB.reopened db nbin).Returns h.dbh (some store) s ∧
            (getBinaryData db key).Returns ⟨store, s⟩ (.ok vs) h' ∧ t.Shows key vs

variable {db} {book : Ledger σ}
  {walk : MemMap → MemMap} {s₀ : σ} {h h' : Session σ}

include valid in
theorem mergeAll_filled (law : db.Lawful book)
    (order : ∀ bag, (walk bag).Perm bag) (start : t.Start) {chunk numloops : Nat}
    (size : iterateSize start.key start.data (u32 start.sdb.keys.length) t.dbase_names.length
      t.max_memory = some chunk)
    (loops : numLoops start.sdb.keys.length chunk = some numloops)
    (filled : Filled db book t.row t.size t.dbase_names.length t.IsKey s₀ (fun _ => False) h) :
    ∃ h', (mergeAll db walk t.files t.config_numbers t.dbase_names t.max_memory).Returns h () h' ∧
      Filled db book t.row t.size t.dbase_names.length t.IsKey s₀
        (fun key => ∃ loop < numloops, key ∈ start.chunkKeys chunk loop) h' := by
  have good : ∀ loop, ∀ k ∈ start.chunkKeys chunk loop,
      GoodRow t.size t.dbase_names.length (t.row k) ∧ t.IsKey k := fun loop k mem =>
    have isKey := (isKey_of_mem valid start).mp (mem_chunkKeys start mem)
    ⟨goodRow valid isKey, isKey⟩
  obtain ⟨h', run, filled'⟩ : ∃ h', (mergeLoop db walk _ numloops 0).Returns h () h' ∧ _ :=
    mergeLoop_filled law order (fun loop => loadBag_eq valid start) good filled
  refine ⟨h', ?_, filled'.congr fun key => ?_⟩
  · rw [mergeAll_eq db valid start, size]
    simp only [loops]
    exact run
  · simp

/-! ### When a merge is right -/

include valid in
theorem divisions_of_returns (start : t.Start)
    (run : (mergeAll db walk t.files t.config_numbers t.dbase_names t.max_memory).Returns h () h') :
    ∃ chunk numloops, iterateSize start.key start.data (u32 start.sdb.keys.length)
        t.dbase_names.length t.max_memory = some chunk ∧
      numLoops start.sdb.keys.length chunk = some numloops := by
  rw [mergeAll_eq db valid start] at run
  split at run
  · exact absurd run Prog.returns_halt
  · rename_i chunk size
    split at run
    · exact absurd run Prog.returns_halt
    · rename_i numloops loops
      exact ⟨chunk, numloops, size, loops⟩

theorem eq_of_sum_eq {l : List Nat} {size : Nat} (le : ∀ x ∈ l, x ≤ size)
    (sum : l.sum = l.length * size) : ∀ x ∈ l, x = size := by
  induction l with
  | nil => simp
  | cons a l ih =>
    have head := le a List.mem_cons_self
    have tail : l.sum ≤ l.length * size := by
      simpa using List.sum_le_card_nsmul l size fun x mem => le x (List.mem_cons_of_mem _ mem)
    rw [List.sum_cons, List.length_cons, Nat.succ_mul] at sum
    intro x mem
    rcases List.mem_cons.mp mem with rfl | later
    · omega
    · exact ih (fun y there => le y (List.mem_cons_of_mem _ there)) (by omega) x later

include valid in
theorem urls_full {key : List UInt8} (isKey : t.IsKey key) (pos : 0 < t.size)
    (full : (t.row key).flatten.length = t.dbase_names.length * t.size) :
    ∀ url ∈ t.urls, url.length > 0 := by
  have lengths : (t.row key).map List.length =
      t.urls.map fun url => if url.length > 0 then t.size else 0 := by
    rw [row, List.map_map]
    exact List.map_congr_left fun url mem => length_cell valid isKey mem
  rw [List.length_flatten, lengths] at full
  intro url mem
  have le : ∀ x ∈ t.urls.map fun url => if url.length > 0 then t.size else 0, x ≤ t.size := by
    intro x there
    obtain ⟨other, -, rfl⟩ := List.mem_map.mp there
    split
    · exact le_rfl
    · exact Nat.zero_le _
  have here := eq_of_sum_eq le (by rw [full, List.length_map, urls, length_urlnames]) _
    (List.mem_map_of_mem mem)
  by_contra empty
  rw [if_neg empty] at here
  omega

include valid in
theorem uniform_row {key : List UInt8} (isKey : t.IsKey key)
    (full : ∀ url ∈ t.urls, url.length > 0) : ∀ part ∈ t.row key, part.length = t.size := by
  intro part mem
  obtain ⟨url, there, rfl⟩ := List.mem_map.mp mem
  rw [length_cell valid isKey there, if_pos (full url there)]

include valid in
theorem split_row {key : List UInt8} (isKey : t.IsKey key) (pos : 0 < t.size)
    (full : ∀ url ∈ t.urls, url.length > 0) {store : AllConfStoreDB}
    (nbin : store.nbin = t.dbase_names.length) (agrees : store.Agrees t.size) :
    (store.split (t.row key).flatten).2 = some (t.row key) := by
  refine (AllConfStoreDB.split_flatten_iff ?_).mpr ⟨_, pos, uniform_row valid isKey full, agrees⟩
  rw [nbin]
  exact (goodRow valid isKey).length

include valid in
theorem full_of_whole (whole : "N/A" ∉ t.dbase_names) : ∀ url ∈ t.urls, url.length > 0 := by
  intro url mem
  rw [urls, urlnames_eq whole] at mem
  have named : t.Named url := ⟨mem, fun hole => whole (hole ▸ mem)⟩
  refine Nat.pos_of_ne_zero fun empty => ?_
  exact (valid.opens url named).1 (String.length_eq_zero_iff.mp empty)

include valid in
theorem row_of_whole (whole : "N/A" ∉ t.dbase_names) {key : List UInt8} :
    t.row key = t.dbase_names.map fun name => t.value name key := by
  have full := full_of_whole valid whole
  rw [row]
  rw [urls, urlnames_eq whole] at full ⊢
  exact List.map_congr_left fun name mem => if_pos (full name mem)

include valid in
theorem shows_row (whole : "N/A" ∉ t.dbase_names) {key : List UInt8} : t.Shows key (t.row key) := by
  constructor
  · intro c name here _
    rw [row_of_whole valid whole, List.getElem?_map, here]
    rfl
  · intro c here
    exact absurd (List.mem_of_getElem? here) whole

include valid in
/-- With fewer than `2 ^ 31` keys no bound of a chunk wraps around. -/
theorem chunksCover_of_few (pos : 0 < t.size)
    (few : ∀ start : t.Start, start.sdb.keys.length < 0x80000000) : t.ChunksCover := by
  intro start
  have few := few start
  have word := valid.memory_word
  have memory := valid.memory _ _ _ _ _ start.firstName start.opened start.pairs
  have configs : 0 < t.dbase_names.length := List.length_pos_of_mem start.named.1
  have datum : start.data.length = t.size := by
    obtain ⟨-, sdb, opened, -, sizes⟩ := valid.opens _ start.named
    rw [start.opened, Option.some.injEq] at opened
    exact sizes (start.key, start.data) (by rw [← opened, start.pairs]; exact List.mem_cons_self)
  have some_keys : 0 < start.sdb.keys.length := by
    rw [ConfDataStoreDB.keys, start.pairs]
    exact Nat.succ_pos _
  have asize_pos : 0 < (start.key.length + start.data.length) * t.dbase_names.length :=
    Nat.mul_pos (by omega) configs
  have exact_size : u32 ((start.key.length + start.data.length) * t.dbase_names.length) =
      (start.key.length + start.data.length) * t.dbase_names.length :=
    Nat.mod_eq_of_lt (by omega)
  have exact_keys : u32 start.sdb.keys.length = start.sdb.keys.length :=
    Nat.mod_eq_of_lt (by omega)
  unfold iterateSize
  simp only [exact_size, exact_keys, if_neg (Nat.ne_of_gt asize_pos)]
  refine ⟨_, rfl, covers_of_small ?_ ?_ few⟩
  · have := Nat.div_pos memory asize_pos
    split <;> omega
  · split <;> omega

theorem row_of_shows {t : Task} (valid : t.Valid) {key : List UInt8} (isKey : t.IsKey key)
    {store : AllConfStoreDB} (nbin : store.nbin = t.dbase_names.length)
    (agrees : store.Agrees t.size) {vs : List (List UInt8)}
    (cut : (store.split (t.row key).flatten).2 = some vs) (shows_it : t.Shows key vs) :
    0 < t.size ∧ (∀ url ∈ t.urls, url.length > 0) ∧ vs = t.row key := by
  obtain ⟨name, mem, named⟩ := valid.some_named
  obtain ⟨c, inside, here⟩ := List.getElem_of_mem mem
  have shown := shows_it.1 c name (by rw [List.getElem?_eq_getElem inside, here]) named
  obtain ⟨sdb, -, there⟩ := value_spec valid ⟨mem, named⟩
  have quotient := AllConfStoreDB.length_of_split cut (List.mem_of_getElem? shown)
  rw [(there key isKey).2] at quotient
  obtain ⟨whole, -, pieces⟩ := AllConfStoreDB.split_some cut
  rw [← quotient, nbin] at whole
  have pos : 0 < t.size := by
    refine Nat.pos_of_ne_zero fun none_left => ?_
    rw [none_left, Nat.mul_zero] at whole
    rw [List.length_eq_zero_iff.mp whole, Lib.pieces_nil] at pieces
    rw [← pieces] at shown
    cases shown
  have full := urls_full valid isKey pos whole
  rw [split_row valid isKey pos full nbin agrees, Option.some.injEq] at cut
  exact ⟨pos, full, cut.symm⟩

/-- What holds of a merge into an empty database of as many configurations, which is told of the rows. -/
structure Fresh (db : Database σ ε) (book : Ledger σ) (t : Task) (h : Session σ) : Prop where
  nbin : h.store.nbin = t.dbase_names.length
  unset : h.store.bytesize = 0
  empty : (book.holding h.dbh).contents = fun _ => none
  numConfigs : (book.holding h.dbh).numConfigs = t.dbase_names.length
  sound : book.sound h.dbh
  rests : book.rests h.dbh
  told : db.Covered book (fun k v => t.IsKey k ∧ v = (t.row k).flatten) h.dbh

theorem Fresh.filled {t : Task} (fresh : Fresh db book t h) :
    Filled db book t.row t.size t.dbase_names.length t.IsKey h.dbh (fun _ => False) h where
  nbin := fresh.nbin
  agrees := .inl fresh.unset
  numConfigs := fresh.numConfigs
  sound := fresh.sound
  told := fresh.told
  comes := .none
  contents k v := by simp [fresh.empty]

theorem filled_of_returns {t : Task} (valid : t.Valid) (law : db.Lawful book)
    (order : ∀ bag, (walk bag).Perm bag) (fresh : Fresh db book t h)
    (run : (mergeAll db walk t.files t.config_numbers t.dbase_names t.max_memory).Returns h () h')
    (start : t.Start) :
    ∃ chunk numloops, iterateSize start.key start.data (u32 start.sdb.keys.length)
        t.dbase_names.length t.max_memory = some chunk ∧
      numLoops start.sdb.keys.length chunk = some numloops ∧
      Filled db book t.row t.size t.dbase_names.length t.IsKey h.dbh
        (fun key => ∃ loop < numloops, key ∈ start.chunkKeys chunk loop) h' := by
  obtain ⟨chunk, numloops, size, loops⟩ := divisions_of_returns valid start run
  obtain ⟨h'', run', filled'⟩ := mergeAll_filled valid law order start size loops fresh.filled
  obtain ⟨-, rfl⟩ := run.unique run'
  exact ⟨chunk, numloops, size, loops, filled'⟩

theorem whole_of_shows {t : Task} {key : List UInt8}
    (full : ∀ url ∈ t.urls, url.length > 0) (shows_it : t.Shows key (t.row key)) :
    "N/A" ∉ t.dbase_names := by
  intro hole
  obtain ⟨c, inside, here⟩ := List.getElem_of_mem hole
  have bound : c < t.urls.length := by rwa [urls, length_urlnames]
  have proper := full _ (List.getElem_mem bound)
  -- the hole shows the database its configuration has taken over
  refine shows_it.2 c (by rw [List.getElem?_eq_getElem inside, here]) _
    (named_of_url (List.getElem_mem bound) proper) ?_
  rw [row, List.getElem?_map, List.getElem?_eq_getElem bound, Option.map_some, cell,
    if_pos proper]

theorem covers_of_filled {t : Task} (valid : t.Valid) (start : t.Start) {chunk numloops : Nat}
    (loops : numLoops start.sdb.keys.length chunk = some numloops)
    (filled : Filled db book t.row t.size t.dbase_names.length t.IsKey s₀
      (fun key => ∃ loop < numloops, key ∈ start.chunkKeys chunk loop) h)
    (keys : ∀ key, t.IsKey key → ∃ v, (book.holding h.dbh).contents key = some v) :
    Covers start.sdb.keys.length chunk := by
  refine ⟨numloops, loops, fun i bound => ?_⟩
  have mem : start.sdb.keys[i] ∈ start.sdb.keys := List.getElem_mem bound
  obtain ⟨v, there⟩ := keys _ ((isKey_of_mem valid start).mp mem)
  obtain ⟨loop, within, reached⟩ := ((filled.contents _ _).mp there).1
  obtain ⟨j, chosen, same⟩ := List.mem_map.mp reached
  have inside := chunkElems_lt chosen
  rw [List.getD_eq_getElem?_getD, List.getElem?_eq_getElem inside, Option.getD_some] at same
  obtain rfl := (List.Nodup.getElem_inj_iff start.sdb.nodup).mp same
  exact ⟨loop, within, chosen⟩

theorem reads_row {t : Task} (valid : t.Valid) (whole : "N/A" ∉ t.dbase_names) (pos : 0 < t.size)
    {key : List UInt8} (isKey : t.IsKey key) (nbin : h.store.nbin = t.dbase_names.length)
    (agrees : h.store.Agrees t.size) {s : σ} (got : (db.get key).Returns h.dbh (.ok (t.row key).flatten) s) :
    ∃ vs h', (getBinaryData db key).Returns h (.ok vs) h' ∧ t.Shows key vs := by
  have cut := split_row valid isKey pos (full_of_whole valid whole) nbin agrees
  obtain ⟨h', read⟩ := (AllConfStoreDB.getBinaryData_read got).mpr cut
  exact ⟨_, h', read, shows_row valid whole⟩

/-- A merge into an empty database of as many configurations comes out right exactly when
the list has no hole, the values are not empty, the chunks reach every key and the
database admits them all. -/
theorem merge_correct {t : Task} (valid : t.Valid) (law : db.Lawful book) (durable : db.Durable book)
    (order : ∀ bag, (walk bag).Perm bag) (fresh : Fresh db book t h) :
    (∃ h', (mergeAll db walk t.files t.config_numbers t.dbase_names t.max_memory).Returns h () h' ∧
        t.Merged db book.holding h') ↔
      "N/A" ∉ t.dbase_names ∧ 0 < t.size ∧ t.ChunksCover ∧
        ∀ key, t.IsKey key → book.admits key (t.ensemble key) := by
  obtain ⟨start⟩ := exists_start valid
  constructor
  · rintro ⟨h', run, keys, reads⟩
    obtain ⟨chunk, numloops, -, -, filled⟩ := filled_of_returns valid law order fresh run start
    have isKey : t.IsKey start.key := (isKey_of_mem valid start).mp (by
      rw [ConfDataStoreDB.keys, start.pairs]
      exact List.mem_cons_self)
    have found : (book.holding h'.dbh).contents start.key = some (t.row start.key).flatten := by
      obtain ⟨v, there⟩ := (keys start.key).mpr isKey
      rw [there, ((filled.contents _ _).mp there).2.2]
    obtain ⟨⟨vs, h'', read, shows_it⟩, -⟩ := reads start.key isKey
    have cut := (AllConfStoreDB.getBinaryData_ok_iff law filled.sound found).mp ⟨h'', read⟩
    obtain ⟨pos, full, rfl⟩ := row_of_shows valid isKey filled.nbin filled.agrees cut shows_it
    have whole := whole_of_shows full shows_it
    refine ⟨whole, pos, fun start => ?_, fun key isKey => ?_⟩
    · obtain ⟨chunk, numloops, size, loops, filled⟩ :=
        filled_of_returns valid law order fresh run start
      exact ⟨chunk, size, covers_of_filled valid start loops filled fun key => (keys key).mpr⟩
    · obtain ⟨v, there⟩ := (keys key).mpr isKey
      have admitted := ((filled.contents _ _).mp there).2.1
      rwa [row_of_whole valid whole] at admitted
  · rintro ⟨whole, pos, cover, admitted⟩
    obtain ⟨chunk, size, numloops, loops, reached⟩ := cover start
    obtain ⟨h', run, filled⟩ := mergeAll_filled valid law order start size loops fresh.filled
    have rests := (filled.comes.rests law durable fresh.sound fresh.rests fresh.told).2
    have found : ∀ key, t.IsKey key →
        (book.holding h'.dbh).contents key = some (t.row key).flatten := by
      intro key isKey
      refine (filled.contents _ _).mpr ⟨?_, ?_, rfl⟩
      · obtain ⟨i, bound, here⟩ := List.getElem_of_mem ((isKey_of_mem valid start).mpr isKey)
        obtain ⟨loop, within, chosen⟩ := reached i bound
        refine ⟨loop, within, List.mem_map.mpr ⟨i, chosen, ?_⟩⟩
        rw [List.getD_eq_getElem?_getD, List.getElem?_eq_getElem bound, Option.getD_some, here]
      · rw [row_of_whole valid whole]
        exact admitted key isKey
    refine ⟨h', run, fun key => ⟨fun ⟨v, there⟩ => ?_, fun isKey => ⟨_, found key isKey⟩⟩,
      fun key isKey => ⟨?_, fun nbin => ?_⟩⟩
    · obtain ⟨loop, -, mem⟩ := ((filled.contents _ _).mp there).1
      exact (isKey_of_mem valid start).mp (mem_chunkKeys start mem)
    · obtain ⟨_, got, -⟩ := law.keyed.get_found filled.sound (found key isKey)
      exact reads_row valid whole pos isKey filled.nbin filled.agrees got
    · have full : (t.row key).flatten ≠ [] := by
        intro none_there
        have length := Lib.length_flatten_of_uniform (uniform_row valid isKey (full_of_whole valid whole))
        rw [none_there, (goodRow valid isKey).length, List.length_nil] at length
        exact absurd length (Nat.ne_of_lt (Nat.mul_pos (List.length_pos_of_mem start.named.1) pos))
      obtain ⟨s, _, opened, got⟩ :=
        AllConfStoreDB.returns_reopened durable filled.sound rests (found key isKey) full nbin
      have some_configs : 0 < (book.holding h'.dbh).numConfigs := by
        rw [filled.numConfigs]
        exact List.length_pos_of_mem start.named.1
      rw [dif_pos some_configs] at opened
      obtain ⟨vs, h'', read, shows_it⟩ : ∃ vs h'', (getBinaryData db key).Returns
          ⟨⟨(book.holding h'.dbh).numConfigs, 0, false, some_configs⟩, s⟩ (.ok vs) h'' ∧
          t.Shows key vs :=
        reads_row (h := ⟨_, s⟩) valid whole pos isKey filled.numConfigs (.inl rfl) got
      exact ⟨_, s, vs, h'', opened, read, shows_it⟩

end Task

/-! ### Two databases of two keys, merged one key at a time -/

def twoFiles (name : String) : Option ConfDataStoreDB :=
  if name = "a" then some ⟨[([1], [5]), ([2], [6])], by decide⟩
  else if name = "b" then some ⟨[([2], [8]), ([1], [7])], by decide⟩
  else none

def twoTask (name : String) : Task := ⟨twoFiles, [10, 20], ["a", name], 4, 1⟩

theorem twoTask_valid {name : String} (known : name = "b" ∨ name = "N/A") :
    (twoTask name).Valid := by
  have named : ∀ other, (twoTask name).Named other → other = "a" ∨ other = "b" := by
    rintro other ⟨mem, proper⟩
    rcases List.mem_cons.mp mem with rfl | mem
    · exact .inl rfl
    · rw [List.mem_singleton.mp mem] at proper ⊢
      exact .inr (known.resolve_right proper)
  refine ⟨rfl, ⟨"a", List.mem_cons_self, by decide⟩, ?_, ?_, ?_, ?_⟩
  · intro other there
    rcases named other there with rfl | rfl
    · refine ⟨by decide, _, rfl, by decide, ?_⟩
      show ∀ p ∈ [(([1] : List UInt8), ([5] : List UInt8)), ([2], [6])], p.2.length = 1
      decide
    · refine ⟨by decide, _, rfl, by decide, ?_⟩
      show ∀ p ∈ [(([2] : List UInt8), ([8] : List UInt8)), ([1], [7])], p.2.length = 1
      decide
  · intro left sdb right sdb' there opened there' opened' key mem
    rcases named left there with rfl | rfl <;> rcases named right there' with rfl | rfl <;>
      cases opened <;> cases opened' <;> revert key <;> decide
  · show 4 < 0x100000000
    decide
  · intro other sdb key data rest first opened pairs
    cases first
    cases opened
    cases pairs
    show 2 * 2 ≤ 4
    decide

def combined : Session Listing := AllConfStoreDB.newSession

theorem merge_correct_two :
    ∃ h', (mergeAll (listDatabase 8 : Database Listing Empty) id twoFiles [10, 20] ["a", "b"]
        4).Returns combined () h' ∧
      (twoTask "b").Merged (listDatabase 8 : Database Listing Empty) Listing.holding h' := by
  have valid := twoTask_valid (.inl rfl)
  have few : ∀ start : (twoTask "b").Start, start.sdb.keys.length < 0x80000000 := by
    intro start
    have name : some "a" = some start.first.urlname := start.firstName
    have opened : some (ConfDataStoreDB.mk [([1], [5]), ([2], [6])] (by decide)) =
        some start.sdb := by
      rw [← start.opened, ← Option.some.inj name]
      rfl
    rw [← Option.some.inj opened]
    decide
  refine (Task.merge_correct valid (listDatabase_lawful 8) (listDatabase_durable 8) (fun _ => .refl _)
    ⟨rfl, rfl, rfl, rfl, newSession_sound, trivial, fun _ _ _ _ _ => trivial⟩).mpr
      ⟨by decide, by decide, Task.chunksCover_of_few valid (by decide) few, ?_⟩
  rintro key ⟨name, sdb, ⟨mem, -⟩, opened, there⟩
  change decide (((twoTask "b").ensemble key).length ≤ 8) = true
  have known : name = "a" ∨ name = "b" := by simpa [twoTask] using mem
  rcases known with rfl | rfl <;> cases opened <;> revert key <;> decide

/-- A configuration without a database shows the values of the one before it. -/
theorem hole_shows_neighbour :
    (twoTask "N/A").Valid ∧
      ∃ h', (mergeAll (listDatabase 8 : Database Listing Empty) id twoFiles [10, 20] ["a", "N/A"]
          4).Returns combined () h' ∧
        ¬(twoTask "N/A").Merged (listDatabase 8 : Database Listing Empty) Listing.holding h' := by
  refine ⟨twoTask_valid (.inr rfl),
    ⟨⟨2, 1, true, by decide⟩, ⟨[([2], [6, 6]), ([1], [5, 5])], 2⟩⟩, rfl, fun merged => ?_⟩
  have named : (twoTask "N/A").Named "a" := ⟨List.mem_cons_self, by decide⟩
  have isKey : (twoTask "N/A").IsKey [1] := ⟨"a", _, named, rfl, List.mem_cons_self⟩
  obtain ⟨⟨vs, h', read, -, hole⟩, -⟩ := merged.2 [1] isKey
  have shown : (getBinaryData (listDatabase 8 : Database Listing Empty) [1]).Returns
      ⟨⟨2, 1, true, by decide⟩, ⟨[([2], [6, 6]), ([1], [5, 5])], 2⟩⟩ (.ok [[5], [5]])
      ⟨⟨2, 1, true, by decide⟩, ⟨[([2], [6, 6]), ([1], [5, 5])], 2⟩⟩ := rfl
  cases (read.unique shown).1
  exact hole 1 rfl "a" named rfl

end FileHash.ConfDataDBMerger
