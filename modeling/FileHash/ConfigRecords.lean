import Mathlib.Data.List.TakeWhile
import FileHash.ConfigTable
import FileHash.Ensemble

/-! `AllConfStoreDB.h`: the calls on configuration records, which go from the class `ConfigInfo`
to the records of the file and back. When the configurations of a database come back as they
were set. -/
namespace FileHash.AllConfStoreDB

open Lib (Prog)
open Htab (HasArea HasConfigs validIndex)

/-- The class `ConfigInfo`; its numbers are the words they are kept in. -/
structure ConfigInfo where
  configNumber : UInt32
  index : UInt32
  inserted : UInt32
  type : UInt32
  modifiedTime : UInt32
  urlname : List UInt8
  deriving DecidableEq

/-- Where the name is in a record, and its bytes: `_FFDB_MAX_FNAME`. -/
def fnameAt : Nat := 20
def maxFname : Nat := 128

/-- `strncpy` of a string to `n` bytes at `a`. -/
def strncpy (m : Lib.Mem) (a : Nat) (src : List UInt8) (n : Nat) : Lib.Mem :=
  m.copy a (fun i => (src.takeWhile (· ≠ 0)).getD i 0) n

/-- The record that `setConfigInfo` fills in, on what the stack has where it is. -/
def ConfigInfo.info (config : ConfigInfo) (stack : Htab.ConfigInfo) : Htab.ConfigInfo :=
  let info := stack.write32 0 config.configNumber.toNat
  let info := info.write32 4 config.index.toNat
  let info := info.write32 8 config.inserted.toNat
  let info := info.write32 16 config.modifiedTime.toNat
  strncpy info fnameAt config.urlname maxFname

/-- The string at the name of a record; `none` if it goes on behind the record. -/
def urlOf (cf : Htab.ConfigInfo) : Option (List UInt8) :=
  let name := (Lib.Mem.drop cf fnameAt).bytes maxFname
  if 0 ∈ name then some (name.takeWhile (· ≠ 0)) else none

def ofInfo (cf : Htab.ConfigInfo) : Option ConfigInfo :=
  (urlOf cf).map fun url =>
    ⟨UInt32.ofNat (cf.read32 0), UInt32.ofNat (cf.read32 4), UInt32.ofNat (cf.read32 8),
      UInt32.ofNat (cf.read32 12), UInt32.ofNat (cf.read32 16), url⟩

/-- `setConfigInfo`. -/
def setConfigInfo (stack : Htab.ConfigInfo) (config : ConfigInfo) : Run Int :=
  Htab.setConfig (config.info stack)

/-- `getConfigInfo`; what the stack has is the record that is passed on. -/
def getConfigInfo (stack : Htab.ConfigInfo) (confignum : UInt32) : Run (Int × Option ConfigInfo) := do
  let r ← Htab.getConfig confignum.toNat stack.index
  match r.2 with
  | none => pure (r.1, none)
  | some cf => pure (r.1, (ofInfo cf).map fun info => { info with configNumber := confignum })

/-- The loop of `getAllConfigInfo`; `none` if it comes to a record that was never written. -/
def readInfos : Nat → List Htab.ConfigInfo → Option (List ConfigInfo)
  | 0, _ => some []
  | _ + 1, [] => none
  | n + 1, cf :: cfs => do
    let info ← ofInfo cf
    let infos ← readInfos n cfs
    pure (info :: infos)

/-- `getAllConfigInfo`. -/
def getAllConfigInfo : Run (Int × Option (List ConfigInfo)) := do
  let hashp ← Prog.read
  let r ← Htab.getAllConfigs
  if r.1 = 0 then pure (0, readInfos hashp.hdr.numCfigs r.2) else pure (r.1, some [])

section Fields

variable {cf : Htab.ConfigInfo} {config c : ConfigInfo} {stack : Htab.ConfigInfo} {a : Nat}

theorem ofInfo_own : ofInfo cf.own = ofInfo cf := by
  have name : (Lib.Mem.drop cf.own fnameAt).bytes maxFname = (Lib.Mem.drop cf fnameAt).bytes maxFname := by
    refine Lib.Mem.bytes_congr fun i low => ?_
    exact if_pos (by simp only [fnameAt, maxFname, configInfoSize] at *; omega)
  simp only [ofInfo, urlOf, name]
  rw [Htab.own_read32 (by decide), Htab.own_read32 (by decide), Htab.own_read32 (by decide),
    Htab.own_read32 (by decide), Htab.own_read32 (by decide)]

theorem toNat_word (m : Lib.Mem) : (UInt32.ofNat (m.read32 a)).toNat = m.read32 a := by
  rw [UInt32.toNat_ofNat']
  exact Nat.mod_eq_of_lt Lib.Mem.read32_lt

theorem info_words (config : ConfigInfo) (stack : Htab.ConfigInfo) :
    (config.info stack).read32 0 = config.configNumber.toNat ∧
    (config.info stack).read32 4 = config.index.toNat ∧
    (config.info stack).read32 8 = config.inserted.toNat ∧
    (config.info stack).read32 12 = stack.read32 12 ∧
    (config.info stack).read32 16 = config.modifiedTime.toNat := by
  have front : ∀ a, a + 4 ≤ fnameAt → (config.info stack).read32 a =
      ((((stack.write32 0 config.configNumber.toNat).write32 4 config.index.toNat).write32 8
        config.inserted.toNat).write32 16 config.modifiedTime.toNat).read32 a :=
    fun a low => Lib.Mem.read32_copy (.inr low)
  have word : ∀ (m : Lib.Mem) (a : Nat) (v : UInt32), (m.write32 a v.toNat).read32 a = v.toNat :=
    fun m a v => Lib.Mem.read32_write32_same.trans (Nat.mod_eq_of_lt v.toNat_lt)
  refine ⟨?_, ?_, ?_, ?_, ?_⟩
  · rw [front 0 (by decide), Lib.Mem.read32_write32 (by omega), Lib.Mem.read32_write32 (by omega),
      Lib.Mem.read32_write32 (by omega), word]
  · rw [front 4 (by decide), Lib.Mem.read32_write32 (by omega), Lib.Mem.read32_write32 (by omega), word]
  · rw [front 8 (by decide), Lib.Mem.read32_write32 (by omega), word]
  · rw [front 12 (by decide), Lib.Mem.read32_write32 (by omega), Lib.Mem.read32_write32 (by omega),
      Lib.Mem.read32_write32 (by omega), Lib.Mem.read32_write32 (by omega)]
  · rw [front 16 (by decide), word]

theorem info_name : (Lib.Mem.drop (config.info stack) fnameAt).bytes maxFname =
    (config.urlname.takeWhile (· ≠ 0) ++ List.replicate maxFname 0).take maxFname := by
  refine List.ext_getElem (by simp) fun i low low' => ?_
  rw [Lib.Mem.getElem_bytes, List.getElem_take]
  rw [Lib.Mem.length_bytes] at low
  have here : Lib.Mem.drop (config.info stack) fnameAt i = (config.urlname.takeWhile (· ≠ 0)).getD i 0 := by
    unfold Lib.Mem.drop ConfigInfo.info strncpy
    rw [Lib.Mem.copy_inside ⟨Nat.le_add_right _ _, Nat.add_lt_add_left low _⟩, Nat.add_sub_cancel_left]
  rw [here, List.getElem_append]
  split
  · rename_i inside
    rw [List.getD_eq_getElem _ _ inside]
  · rename_i outside
    rw [List.getD_eq_default _ _ (not_lt.mp outside), List.getElem_replicate]

theorem ne_zero_of_mem_takeWhile {l : List UInt8} {b : UInt8} (mem : b ∈ l.takeWhile (· ≠ 0)) : b ≠ 0 := by
  simpa using List.mem_takeWhile_imp mem

theorem urlOf_info : urlOf (config.info stack) =
    if (config.urlname.takeWhile (· ≠ 0)).length < maxFname then some (config.urlname.takeWhile (· ≠ 0))
    else none := by
  rw [urlOf, info_name]
  by_cases short : (config.urlname.takeWhile (· ≠ 0)).length < maxFname
  · obtain ⟨n, eq⟩ := Nat.exists_eq_add_of_lt short
    have padded : (config.urlname.takeWhile (· ≠ 0) ++ List.replicate maxFname 0).take maxFname =
        config.urlname.takeWhile (· ≠ 0) ++ 0 :: List.replicate n 0 := by
      rw [List.take_append, List.take_of_length_le short.le, List.take_replicate, ← List.replicate_succ]
      congr 2
      omega
    rw [if_pos short, padded, if_pos (by simp), List.takeWhile_append_of_pos fun b mem => by
      simpa using ne_zero_of_mem_takeWhile mem]
    simp
  · rw [if_neg short, if_neg]
    rw [List.take_append_of_le_length (not_lt.mp short)]
    exact fun mem => ne_zero_of_mem_takeWhile (List.mem_of_mem_take mem) rfl

/-- The record that is filled in is the one meant: the word no one wrote has the type, and the name has
room for the string and its end. -/
structure ConfigInfo.Kept (config : ConfigInfo) (stack : Htab.ConfigInfo) : Prop where
  type : stack.read32 12 = config.type.toNat
  short : config.urlname.length < maxFname
  plain : 0 ∉ config.urlname

theorem takeWhile_plain {l : List UInt8} : l.takeWhile (· ≠ 0) = l ↔ 0 ∉ l := by
  rw [List.takeWhile_eq_self_iff]
  constructor
  · intro all mem
    simpa using all 0 mem
  · intro plain b mem
    simpa using fun zero : b = 0 => plain (zero ▸ mem)

theorem ofInfo_info : ofInfo (config.info stack) = some config ↔ config.Kept stack := by
  obtain ⟨number, index, inserted, type, modified⟩ := info_words config stack
  have word : UInt32.ofNat (stack.read32 12) = config.type ↔ stack.read32 12 = config.type.toNat := by
    rw [← UInt32.toNat_inj, toNat_word]
  rw [ofInfo, urlOf_info, number, index, inserted, type, modified]
  simp only [UInt32.ofNat_toNat]
  constructor
  · intro same
    split at same
    · rename_i short
      have eq := Option.some.inj same
      have url : config.urlname.takeWhile (· ≠ 0) = config.urlname := congrArg ConfigInfo.urlname eq
      refine ⟨word.mp (congrArg ConfigInfo.type eq), ?_, takeWhile_plain.mp url⟩
      rwa [url] at short
    · cases same
  · intro kept
    rw [takeWhile_plain.mpr kept.plain, if_pos kept.short, word.mpr kept.type]
    rfl

theorem ofInfo_words (read : ofInfo cf = some c) :
    cf.config = c.configNumber.toNat ∧ cf.index = c.index.toNat := by
  obtain ⟨url, _, rfl⟩ := Option.map_eq_some_iff.mp read
  exact ⟨(toNat_word cf).symm, (toNat_word cf).symm⟩

end Fields

section Lists

variable {l : List Htab.ConfigInfo} {infos : List ConfigInfo} {f : Htab.ConfigInfo → Bool}
  {g : ConfigInfo → Bool}

theorem findIdx?_infos (all : l.map ofInfo = infos.map some)
    (alike : ∀ cf c, ofInfo cf = some c → f cf = g c) : l.findIdx? f = infos.findIdx? g := by
  induction l generalizing infos with
  | nil =>
    cases infos with
    | nil => rfl
    | cons => cases all
  | cons cf l ih =>
    cases infos with
    | nil => cases all
    | cons c infos =>
      obtain ⟨head, tail⟩ := List.cons.inj all
      rw [List.findIdx?_cons, List.findIdx?_cons, alike cf c head, ih tail]

theorem find?_infos {c : ConfigInfo} (all : l.map ofInfo = infos.map some)
    (alike : ∀ cf c, ofInfo cf = some c → f cf = g c) (found : infos.find? g = some c) :
    ∃ cf, l.find? f = some cf ∧ ofInfo cf = some c := by
  induction l generalizing infos with
  | nil =>
    cases infos with
    | nil => cases found
    | cons => cases all
  | cons cf l ih =>
    cases infos with
    | nil => cases all
    | cons d infos =>
      obtain ⟨head, tail⟩ := List.cons.inj all
      rw [List.find?_cons] at found ⊢
      rw [alike cf d head]
      cases here : g d with
      | true =>
        rw [here] at found
        cases found
        exact ⟨cf, rfl, head⟩
      | false =>
        rw [here] at found
        exact ih tail found

theorem readInfos_iff : readInfos l.length l = some infos ↔ l.map ofInfo = infos.map some := by
  induction l generalizing infos with
  | nil => cases infos <;> simp [readInfos]
  | cons cf l ih =>
    rw [List.length_cons, readInfos]
    constructor
    · intro read
      obtain ⟨c, here, read⟩ := Option.bind_eq_some_iff.mp read
      obtain ⟨rest, behind, same⟩ := Option.bind_eq_some_iff.mp read
      cases same
      rw [List.map_cons, List.map_cons, here, ih.mp behind]
    · intro all
      cases infos with
      | nil => cases all
      | cons c infos =>
        obtain ⟨head, tail⟩ := List.cons.inj all
        rw [head, ih.mpr tail]
        rfl

theorem readInfos_short {n : Nat} (short : l.length < n) : readInfos n l = none := by
  induction l generalizing n with
  | nil =>
    cases n with
    | zero => cases short
    | succ n => rfl
  | cons cf l ih =>
    cases n with
    | zero => cases short
    | succ n =>
      rw [readInfos, ih (Nat.lt_of_succ_lt_succ short)]
      cases ofInfo cf <;> rfl

theorem readInfos_own (n : Nat) : readInfos n (l.map Htab.ConfigInfo.own) = readInfos n l := by
  induction l generalizing n with
  | nil => rfl
  | cons cf l ih =>
    cases n with
    | zero => rfl
    | succ n => rw [List.map_cons, readInfos, readInfos, ofInfo_own, ih]

end Lists

section Tables

variable {hashp hashp' : Htab} {l : List Htab.ConfigInfo} {infos : List ConfigInfo} {config c : ConfigInfo}
  {stack : Htab.ConfigInfo}

def ConfigInfo.names (config c : ConfigInfo) : Bool :=
  c.index == config.index && c.configNumber == config.configNumber

def updated (config : ConfigInfo) (infos : List ConfigInfo) : List ConfigInfo :=
  match infos.findIdx? config.names with
  | some k => infos.set k config
  | none => infos

theorem names_info (config : ConfigInfo) (stack cf : Htab.ConfigInfo) (c : ConfigInfo) (read : ofInfo cf = some c) :
    (config.info stack).names cf = config.names c := by
  obtain ⟨number, index⟩ := ofInfo_words read
  obtain ⟨number', index', _⟩ := info_words config stack
  have config' : (config.info stack).config = config.configNumber.toNat := number'
  have idx : (config.info stack).index = config.index.toNat := index'
  rw [Htab.ConfigInfo.names, ConfigInfo.names, number, index, config', idx, Bool.eq_iff_iff]
  simp [UInt32.toNat_inj]

def HasTable (hashp : Htab) (infos : List ConfigInfo) : Prop :=
  infos.length = hashp.hdr.numCfigs ∧ ∃ l, HasConfigs hashp l ∧ l.map ofInfo = infos.map some

def AllRead (hashp : Htab) (infos : List ConfigInfo) : Prop :=
  ∃ hashp', getAllConfigInfo.Returns hashp (0, some infos) hashp'

theorem allRead_iff (has : HasConfigs hashp l) :
    AllRead hashp infos ↔ readInfos hashp.hdr.numCfigs l = some infos := by
  obtain ⟨l', hashp', run, rfl⟩ := Htab.getAllConfigs_returns has
  have whole : getAllConfigInfo.Returns hashp (0, readInfos hashp.hdr.numCfigs l') hashp' := by
    refine Prog.returns_read_bind.mpr (run.bind.mpr ?_)
    rw [if_pos rfl]
    exact Prog.returns_pure.mpr ⟨rfl, rfl⟩
  rw [readInfos_own]
  constructor
  · rintro ⟨_, run'⟩
    obtain ⟨same, _⟩ := whole.unique run'
    exact congrArg Prod.snd same
  · intro same
    rw [same] at whole
    exact ⟨hashp', whole⟩

theorem HasTable.allRead (has : HasTable hashp infos) : AllRead hashp infos := by
  obtain ⟨count, l, has, all⟩ := has
  have length : l.length = hashp.hdr.numCfigs := by
    rw [← count]
    simpa using congrArg List.length all
  rw [allRead_iff has, ← length]
  exact readInfos_iff.mpr all

theorem setAllConfigs_reads (area : HasArea hashp) (configs : Nat → Htab.ConfigInfo)
    (records : (List.range hashp.hdr.numCfigs).map (fun k => ofInfo (configs k)) = infos.map some) :
    ∃ hashp', (Htab.setAllConfigs hashp.hdr.numCfigs configs).Returns hashp 0 hashp' ∧
      (hashp.hdr.numCfigs ≤ hashp.hdr.cfigNpages * hashp.hdr.infosPerPage → HasTable hashp' infos) ∧
      (AllRead hashp' infos ↔ hashp.hdr.numCfigs ≤ hashp.hdr.cfigNpages * hashp.hdr.infosPerPage) := by
  obtain ⟨hashp', run, hdr, has⟩ := Htab.setAllConfigs_returns area configs
  have count : infos.length = hashp'.hdr.numCfigs := by
    rw [hdr]
    simpa using (congrArg List.length records).symm
  have room : hashp.hdr.numCfigs ≤ hashp.hdr.cfigNpages * hashp.hdr.infosPerPage → HasTable hashp' infos := by
    intro room
    rw [List.take_of_length_le (by simpa using room)] at has
    refine ⟨count, _, has, ?_⟩
    rw [← records, List.map_map]
    exact List.map_congr_left fun k _ => ofInfo_own
  refine ⟨hashp', run, room, fun all => ?_, fun enough => (room enough).allRead⟩
  by_contra short
  rw [allRead_iff has, hdr, readInfos_short] at all
  · cases all
  · rw [List.length_take, List.length_map, List.length_range]
    omega

theorem map_updated {k : Nat} (stack : Htab.ConfigInfo) (all : l.map ofInfo = infos.map some)
    (found : infos.findIdx? config.names = some k) :
    (Htab.updated (config.info stack) l).map ofInfo = (infos.map some).set k (ofInfo (config.info stack)) := by
  have same := findIdx?_infos all (names_info config stack)
  rw [Htab.updated, same, found]
  dsimp only
  rw [List.map_set, all, ofInfo_own]

theorem setConfigInfo_reads (has : HasTable hashp infos) (present : ∃ c ∈ infos, config.names c = true)
    (stack : Htab.ConfigInfo) : ∃ r hashp', (setConfigInfo stack config).Returns hashp r hashp' ∧
      (r = 0 ∧ AllRead hashp' (updated config infos) ↔
        validIndex config.index.toNat hashp.hdr.numCfigs = true ∧ config.Kept stack) ∧
      (validIndex config.index.toNat hashp.hdr.numCfigs = true → config.Kept stack →
        HasTable hashp' (updated config infos) ∧ hashp'.hdr = hashp.hdr) := by
  have word : (config.info stack).index = config.index.toNat := (info_words config stack).2.1
  cases valid : validIndex config.index.toNat hashp.hdr.numCfigs with
  | false =>
    rw [← word] at valid
    refine ⟨-1, _, Htab.setConfig_refused valid, ⟨fun both => ?_, fun both => ?_⟩, fun no => ?_⟩
    · cases both.1
    · cases both.1
    · cases no
  | true =>
    obtain ⟨count, l, has, all⟩ := has
    obtain ⟨k, found⟩ : ∃ k, infos.findIdx? config.names = some k := by
      rw [← Option.ne_none_iff_exists']
      intro none
      obtain ⟨c, mem, same⟩ := present
      rw [List.findIdx?_eq_none_iff.mp none c mem] at same
      cases same
    have same := findIdx?_infos all (names_info config stack)
    rw [← word] at valid
    obtain ⟨hashp', run, hdr, has'⟩ := Htab.setConfig_returns has (by rw [same, found]; simp) valid
    have said := map_updated stack all found
    have now : updated config infos = infos.set k config := by rw [updated, found]
    have low : k < infos.length := (List.findIdx?_eq_some_iff_getElem.mp found).1
    have length : (Htab.updated (config.info stack) l).length = hashp'.hdr.numCfigs := by
      rw [hdr, ← count]
      simpa using congrArg List.length said
    have kept : (Htab.updated (config.info stack) l).map ofInfo = (updated config infos).map some ↔
        config.Kept stack := by
      rw [said, now, List.map_set, ← ofInfo_info]
      constructor
      · intro eq
        have here := congrArg (fun l => l[k]?) eq
        simpa [low] using here
      · intro eq
        rw [eq]
    refine ⟨0, hashp', run, ?_, fun _ holds => ⟨⟨?_, _, has', kept.mpr holds⟩, hdr⟩⟩
    · rw [allRead_iff has', ← length, readInfos_iff, kept]
      exact ⟨fun both => ⟨rfl, both.2⟩, fun both => ⟨rfl, both.2⟩⟩
    · rw [now, List.length_set, count, hdr]

theorem getConfigInfo_reads {n : UInt32} (has : HasTable hashp infos)
    (first : infos.find? (fun c => c.configNumber == n) = some c) (stack : Htab.ConfigInfo) :
    (∃ hashp', (getConfigInfo stack n).Returns hashp (0, some c) hashp') ↔
      validIndex stack.index hashp.hdr.cfigNpages = true := by
  obtain ⟨_, l, has, all⟩ := has
  have alike : ∀ cf d, ofInfo cf = some d → (cf.config == n.toNat) = (d.configNumber == n) := by
    intro cf d read
    rw [(ofInfo_words read).1, Bool.eq_iff_iff]
    simp [UInt32.toNat_inj]
  obtain ⟨cf, found, read⟩ := find?_infos all alike first
  have number : c.configNumber = n := by simpa using List.find?_some first
  cases valid : validIndex stack.index hashp.hdr.cfigNpages with
  | false =>
    have refused := Htab.getConfig_refused n.toNat valid
    constructor
    · rintro ⟨hashp', run⟩
      rw [getConfigInfo, refused.bind] at run
      cases (Prog.returns_pure.mp run).1
    · exact fun no => by cases no
  | true =>
    obtain ⟨d, hashp', run, own⟩ := Htab.getConfig_returns has found valid
    refine ⟨fun _ => rfl, fun _ => ⟨hashp', ?_⟩⟩
    rw [getConfigInfo, run.bind]
    dsimp only
    rw [← ofInfo_own, own, read]
    exact Prog.returns_pure.mpr ⟨by rw [Option.map_some, ← number], rfl⟩

/-- Databases whose configurations were set, and then some of them again, one at a time. -/
inductive Configured : Htab → List ConfigInfo → Prop
  | setAll {hashp hashp' : Htab} {infos : List ConfigInfo} {configs : Nat → Htab.ConfigInfo} {r : Int}
      (area : HasArea hashp)
      (records : (List.range hashp.hdr.numCfigs).map (fun k => ofInfo (configs k)) = infos.map some)
      (room : hashp.hdr.numCfigs ≤ hashp.hdr.cfigNpages * hashp.hdr.infosPerPage)
      (run : (Htab.setAllConfigs hashp.hdr.numCfigs configs).Returns hashp r hashp') :
      Configured hashp' infos
  | set {hashp hashp' : Htab} {infos : List ConfigInfo} {config : ConfigInfo} {stack : Htab.ConfigInfo}
      {r : Int} (before : Configured hashp infos) (present : ∃ c ∈ infos, config.names c = true)
      (valid : validIndex config.index.toNat hashp.hdr.numCfigs = true) (kept : config.Kept stack)
      (run : (setConfigInfo stack config).Returns hashp r hashp') :
      Configured hashp' (updated config infos)

theorem Configured.hasTable (run : Configured hashp infos) : HasTable hashp infos := by
  induction run with
  | setAll area records room run =>
    obtain ⟨hashp', run', has, _⟩ := setAllConfigs_reads area _ records
    obtain ⟨_, rfl⟩ := run.unique run'
    exact has room
  | @set hashp hashp' infos config stack r before present valid kept run ih =>
    obtain ⟨r', mid, run', _, has⟩ := setConfigInfo_reads ih present stack
    obtain ⟨_, rfl⟩ := run.unique run'
    exact (has valid kept).1

/-- The configurations are read as they were set when there were pages for all of them and each that was set
again was kept; one more is set as it is meant exactly when it is kept, and one is read exactly when
the record handed in has the index of a page. -/
theorem config_table (run : Configured hashp infos) : AllRead hashp infos ∧
    (∀ config : ConfigInfo, (∃ c ∈ infos, config.names c = true) → ∀ stack,
      ((∃ hashp', (setConfigInfo stack config).Returns hashp 0 hashp' ∧
        AllRead hashp' (updated config infos)) ↔
          validIndex config.index.toNat hashp.hdr.numCfigs = true ∧ config.Kept stack)) ∧
    ∀ (n : UInt32) (c : ConfigInfo), infos.find? (fun c => c.configNumber == n) = some c → ∀ stack,
      ((∃ hashp', (getConfigInfo stack n).Returns hashp (0, some c) hashp') ↔
        validIndex stack.index hashp.hdr.cfigNpages = true) := by
  have has := run.hasTable
  refine ⟨has.allRead, fun config present stack => ?_, fun n c first stack => getConfigInfo_reads has first stack⟩
  obtain ⟨r, hashp', sets, reads, _⟩ := setConfigInfo_reads has present stack
  rw [← reads]
  constructor
  · rintro ⟨mid, sets', all⟩
    obtain ⟨rfl, rfl⟩ := sets.unique sets'
    exact ⟨rfl, all⟩
  · rintro ⟨rfl, all⟩
    exact ⟨hashp', sets, all⟩

end Tables

section OneConfig

open Htab (tableOn defaults defaultHdr)

def blankPage (p : Nat) : Page := FileHash.initPage 4096 (fun _ => 0) p hashConfigPage

def blankTable (hdr : Hashhdr) : Htab := tableOn defaults hdr 5 blankPage

theorem blank_area {hdr : Hashhdr} (native : hdr.lorder = littleEndian) (size : hdr.bsize = 4096)
    (inside : hdr.cfigPage + hdr.cfigNpages ≤ 5) : HasArea (blankTable hdr) := by
  have known : Htab.Knows (blankTable hdr) 5 .any [] (blankTable hdr) := by
    have read := Htab.read_tableOn defaults 5 blankPage native
    refine Htab.knows_tableOf (fun _ => rfl) native (fun n => ?_) (le_refl 5) (by decide)
    obtain ⟨d, read, _⟩ := read n
    have unswapped : (hdr.lorder != littleEndian) = false := by rw [native, bne_self_eq_false]
    change pginRoutine hdr.bsize (hdr.lorder != littleEndian) n _ = some d at read
    rw [unswapped] at read
    exact ⟨d, read⟩
  refine ⟨blankTable hdr, 5, _, known.observe, ⟨inside, ?_⟩, ?_⟩
  · have few : (4096 - pageOverhead) / configInfoSize < 65536 := by decide
    rwa [← size] at few
  · intro q c low high holds
    have low : q < 5 := lt_of_lt_of_le high inside
    have signed : (blankPage q).pageSign = pageMagic := signed_initPage
    have looks : (blankTable hdr).mp.Looks q c := holds.2
    have agree := Htab.looks_tableOn native looks
    rw [if_pos ⟨low, signed⟩] at agree
    exact agree.pageSign.trans signed

def seven : ConfigInfo := ⟨7, 0, 0, 0, 0, []⟩
def eight : ConfigInfo := ⟨8, 1, 1, 0, 100, [97]⟩
def nine : ConfigInfo := ⟨9, 2, 0, 0, 0, []⟩

def eightAgain : ConfigInfo := ⟨8, 1, 1, 0, 200, [98, 99]⟩

def threeHdr : Hashhdr := { defaultHdr with numCfigs := 3 }

theorem config_table_three : ∃ hashp hashp' t, Configured hashp [seven, eight, nine] ∧
    (setConfigInfo (fun _ => 0) eightAgain).Returns hashp 0 hashp' ∧ AllRead hashp' [seven, eightAgain, nine] ∧
    (getConfigInfo (fun _ => 0) 8).Returns hashp' (0, some eightAgain) t := by
  have kept : ∀ c ∈ [seven, eight, nine, eightAgain], c.Kept fun _ => 0 := by
    intro c mem
    fin_cases mem <;> exact ⟨by decide, by decide, by decide⟩
  have area : HasArea (blankTable threeHdr) := blank_area rfl rfl (by decide)
  have records : (List.range (blankTable threeHdr).hdr.numCfigs).map
      (fun k => ofInfo (([seven, eight, nine].getD k nine).info fun _ => 0)) = [seven, eight, nine].map some := by
    change [ofInfo (seven.info _), ofInfo (eight.info _), ofInfo (nine.info _)] = _
    rw [ofInfo_info.mpr (kept seven (by decide)), ofInfo_info.mpr (kept eight (by decide)),
      ofInfo_info.mpr (kept nine (by decide))]
    rfl
  obtain ⟨hashp, run, hdr, _⟩ := Htab.setAllConfigs_returns area
    fun k => ([seven, eight, nine].getD k nine).info fun _ => 0
  have configured : Configured hashp [seven, eight, nine] :=
    .setAll area records (by decide : threeHdr.numCfigs ≤ threeHdr.cfigNpages * threeHdr.infosPerPage) run
  have present : ∃ c ∈ [seven, eight, nine], eightAgain.names c = true := ⟨eight, by decide, by decide⟩
  have valid : validIndex eightAgain.index.toNat hashp.hdr.numCfigs = true := by
    rw [hdr]
    decide
  obtain ⟨hashp', sets, all⟩ := ((config_table configured).2.1 eightAgain present fun _ => 0).mpr
    ⟨valid, kept eightAgain (by decide)⟩
  have again : Configured hashp' [seven, eightAgain, nine] :=
    configured.set present valid (kept eightAgain (by decide)) sets
  have same : hashp'.hdr = threeHdr := by
    obtain ⟨_, _, run', _, has⟩ := setConfigInfo_reads configured.hasTable present fun _ => 0
    obtain ⟨_, rfl⟩ := sets.unique run'
    exact (has valid (kept eightAgain (by decide))).2.trans hdr
  obtain ⟨t, gets⟩ := ((config_table again).2.2 8 eightAgain (by decide) fun _ => 0).mpr (by
    rw [same]
    decide)
  exact ⟨hashp, hashp', t, configured, sets, all, gets⟩

theorem seven_configured : ∃ hashp, Configured hashp [seven] ∧ hashp.hdr = defaultHdr := by
  have kept : seven.Kept fun _ => 0 := ⟨by decide, by decide, by decide⟩
  have area : HasArea (blankTable defaultHdr) := blank_area rfl rfl (by decide)
  have records : (List.range (blankTable defaultHdr).hdr.numCfigs).map (fun _ => ofInfo (seven.info fun _ => 0)) =
      [seven].map some := by
    rw [ofInfo_info.mpr kept]
    rfl
  obtain ⟨hashp, run, hdr, _⟩ := Htab.setAllConfigs_returns area fun _ => seven.info fun _ => 0
  exact ⟨hashp, .setAll area records (by decide : defaultHdr.numCfigs ≤
    defaultHdr.cfigNpages * defaultHdr.infosPerPage) run, hdr⟩

/-- A configuration is not set again as it is meant when its type is not the word on the stack, and is
not read when the record handed in has a one for its index. -/
theorem seven_lost : ∃ hashp, Configured hashp [seven] ∧
    (¬∃ hashp', (setConfigInfo (fun _ => 1) seven).Returns hashp 0 hashp' ∧
      AllRead hashp' (updated seven [seven])) ∧
    ¬∃ hashp', (getConfigInfo (fun _ => 1) 7).Returns hashp (0, some seven) hashp' := by
  obtain ⟨hashp, run, hdr⟩ := seven_configured
  refine ⟨hashp, run, fun sets => ?_, fun reads => ?_⟩
  · have has := run.hasTable
    obtain ⟨r, mid, run', reads, _⟩ := setConfigInfo_reads has
      ⟨seven, List.mem_singleton_self _, (by decide : seven.names seven = true)⟩
      fun _ => 1
    obtain ⟨hashp', sets, all⟩ := sets
    obtain ⟨rfl, rfl⟩ := run'.unique sets
    exact absurd (reads.mp ⟨rfl, all⟩).2.type (by decide)
  · have valid := (getConfigInfo_reads (n := 7) (c := seven) run.hasTable (by decide) fun _ => 1).mp reads
    rw [hdr] at valid
    exact absurd valid (by decide)

end OneConfig
end FileHash.AllConfStoreDB
