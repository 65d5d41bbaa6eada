import FileHash.Hash
import FileHash.Lib.Chunks
import FileHash.ReplacementFrame

/-! The configuration table: what its pages hold once all records are set, what one record
that is set changes, and what the two ways to read it give back. -/
namespace FileHash

def Hashhdr.infosPerPage (hdr : Hashhdr) : Nat := (hdr.bsize - pageOverhead) / configInfoSize

namespace Htab

open Lib (Prog deal)
open Lib.Prog (Wp wp_bind wp_pure wp_mono)
open Page

def ConfigInfo.own (c : ConfigInfo) : ConfigInfo := fun i => if i < configInfoSize then c i else 0

def infos (p : Page) : List ConfigInfo := (List.range p.numEnt).map fun k => (configInfo p k).own

section Records

variable {c d : ConfigInfo} {p q : Page} {a i k n : Nat}

theorem own_read32 (fits : a + 4 ≤ configInfoSize) : c.own.read32 a = c.read32 a := by
  refine Lib.Mem.read32_congr fun i _ high => ?_
  rw [ConfigInfo.own, if_pos (by omega)]

@[simp] theorem own_config : c.own.config = c.config := own_read32 (by decide)

@[simp] theorem own_index : c.own.index = c.index := own_read32 (by decide)

@[simp] theorem length_infos : (infos p).length = p.numEnt := by simp [infos]

theorem getElem_infos (low : k < (infos p).length) : (infos p)[k] = (configInfo p k).own := by
  simp [infos]

theorem infos_agree (same : Agree p q) : infos p = infos q := by
  refine List.ext_getElem (by simp [same.numEnt]) fun k low low' => ?_
  rw [getElem_infos, getElem_infos]
  funext i
  have here : p (configInfoAt k + i) = q (configInfoAt k + i) :=
    same _ (.inr (by simp only [configInfoAt, pageOverhead, chksumOffset]; omega))
  simp only [ConfigInfo.own, configInfo, Lib.Mem.drop, here]

theorem setConfigInfo_front (low : i < pageOverhead) : setConfigInfo k c p i = p i :=
  Lib.Mem.copy_outside (.inl (by simp only [configInfoAt]; omega))

theorem numEnt_setConfigInfo : (setConfigInfo k c p).numEnt = p.numEnt :=
  Lib.Mem.read16_congr fun i _ high => setConfigInfo_front (by simp only [pageOverhead]; omega)

theorem signed_setConfigInfo : Pagepool.Signed (setConfigInfo k c p) ↔ Pagepool.Signed p := by
  unfold Pagepool.Signed
  rw [show (setConfigInfo k c p).pageSign = p.pageSign from
    Lib.Mem.read32_congr fun i _ high => setConfigInfo_front (by simp only [pageOverhead]; omega)]

theorem infos_setConfigInfo : infos (setConfigInfo k c p) = (infos p).set k c.own := by
  refine List.ext_getElem (by simp [numEnt_setConfigInfo]) fun j low low' => ?_
  rw [getElem_infos, List.getElem_set]
  by_cases same : k = j
  · subst same
    rw [if_pos rfl]
    funext i
    simp only [ConfigInfo.own, configInfo, Lib.Mem.drop, setConfigInfo]
    split
    · rw [Lib.Mem.copy_inside (by omega), Nat.add_sub_cancel_left]
    · rfl
  · rw [if_neg same, getElem_infos]
    funext i
    simp only [ConfigInfo.own, configInfo, Lib.Mem.drop, setConfigInfo]
    split
    · refine Lib.Mem.copy_outside ?_
      rcases Nat.lt_or_gt_of_ne same with above | below
      · have := Nat.mul_le_mul_right configInfoSize (Nat.succ_le_of_lt above)
        rw [Nat.succ_mul] at this
        simp only [configInfoAt]
        omega
      · have := Nat.mul_le_mul_right configInfoSize (Nat.succ_le_of_lt below)
        rw [Nat.succ_mul] at this
        simp only [configInfoAt]
        omega
    · rfl

theorem infos_foldl (configs : Nat → ConfigInfo) (n : Nat) (low : n ≤ p.numEnt) :
    infos ((List.range n).foldl (fun q k => setConfigInfo k (configs k) q) p) =
        (List.range n).map (fun k => (configs k).own) ++ (infos p).drop n ∧
      (Pagepool.Signed ((List.range n).foldl (fun q k => setConfigInfo k (configs k) q) p) ↔
        Pagepool.Signed p) := by
  induction n with
  | zero => simp
  | succ n ih =>
    obtain ⟨written, signed⟩ := ih (Nat.le_of_succ_le low)
    have more : n < (infos p).length := by
      rw [length_infos]
      exact low
    rw [List.range_succ, List.foldl_append, List.foldl_cons, List.foldl_nil, signed_setConfigInfo,
      infos_setConfigInfo, written, List.set_append_right _ _ (by simp), List.length_map, List.length_range,
      Nat.sub_self, List.drop_eq_getElem_cons more, List.set_cons_zero, List.map_append, List.append_assoc]
    exact ⟨rfl, signed⟩

theorem fillConfigs_eq {bsize : Nat} (p : Page) (cnum tnums : Nat) (configs : Nat → ConfigInfo)
    (few : (bsize - pageOverhead) / configInfoSize < 65536) :
    infos (fillConfigs bsize cnum tnums configs p) =
        ((List.range tnums).map fun k => (configs (cnum + k)).own).take
          ((bsize - pageOverhead) / configInfoSize) ∧
      (Pagepool.Signed (fillConfigs bsize cnum tnums configs p) ↔ Pagepool.Signed p) := by
  have count : (p.setNumEnt (min ((bsize - pageOverhead) / configInfoSize) tnums)).numEnt =
      min ((bsize - pageOverhead) / configInfoSize) tnums :=
    Lib.Mem.read16_write16_same.trans (Nat.mod_eq_of_lt (by omega))
  have written := infos_foldl (p := p.setNumEnt (min ((bsize - pageOverhead) / configInfoSize) tnums))
    (fun k => configs (cnum + k)) (min ((bsize - pageOverhead) / configInfoSize) tnums) count.ge
  have sign : Pagepool.Signed (p.setNumEnt (min ((bsize - pageOverhead) / configInfoSize) tnums)) ↔
      Pagepool.Signed p := by
    unfold Pagepool.Signed
    rw [show (p.setNumEnt (min ((bsize - pageOverhead) / configInfoSize) tnums)).pageSign = p.pageSign from
      Lib.Mem.read32_write16 (by omega)]
  have none : (infos (p.setNumEnt (min ((bsize - pageOverhead) / configInfoSize) tnums))).drop
      (min ((bsize - pageOverhead) / configInfoSize) tnums) = [] := by
    rw [List.drop_eq_nil_iff, length_infos, count]
  rw [none, List.append_nil, sign] at written
  rw [fillConfigs, count]
  refine ⟨?_, written.2⟩
  rw [written.1, ← List.map_take, List.take_range]

theorem findIdx?_range (n : Nat) (f : Nat → Bool) : (List.range n).findIdx? f = (List.range n).find? f := by
  cases found : (List.range n).find? f with
  | none => exact List.findIdx?_eq_none_iff.mpr fun k mem => by simpa using List.find?_eq_none.mp found k mem
  | some k =>
    obtain ⟨here, low, before⟩ := List.find?_range_eq_some.mp found
    rw [List.findIdx?_eq_some_iff_getElem]
    refine ⟨by simpa using low, by simpa using here, fun j below => ?_⟩
    simpa using before j below

theorem find_infos {f : ConfigInfo → Bool} (own : ∀ c, f c.own = f c) :
    (List.range p.numEnt).find? (fun k => f (configInfo p k)) = (infos p).findIdx? f := by
  rw [infos, List.findIdx?_map, ← findIdx?_range]
  refine congrArg (fun g => (List.range p.numEnt).findIdx? g) (funext fun k => ?_)
  exact (own _).symm

def ConfigInfo.names (config c : ConfigInfo) : Bool := c.index == config.index && c.config == config.config

def updated (config : ConfigInfo) (l : List ConfigInfo) : List ConfigInfo :=
  match l.findIdx? config.names with
  | some k => l.set k config.own
  | none => l

theorem names_own (config c : ConfigInfo) : config.names c.own = config.names c := by
  simp only [ConfigInfo.names, own_config, own_index]

theorem updated_append_some {config : ConfigInfo} {l m : List ConfigInfo}
    (found : l.findIdx? config.names = some k) : updated config (l ++ m) = l.set k config.own ++ m := by
  obtain ⟨low, _⟩ := List.findIdx?_eq_some_iff_getElem.mp found
  rw [updated, List.findIdx?_append, found, Option.some_or]
  exact List.set_append_left _ _ low

theorem updated_append_none {config : ConfigInfo} {l m : List ConfigInfo}
    (none : l.findIdx? config.names = none) : updated config (l ++ m) = l ++ updated config m := by
  rw [updated, List.findIdx?_append, none, Option.none_or, updated]
  cases m.findIdx? config.names with
  | none => rfl
  | some k =>
    dsimp only [Option.map_some]
    rw [List.set_append_right _ _ (Nat.le_add_left _ _), Nat.add_sub_cancel]

theorem drop_range_map {α : Type} (f : Nat → α) (each n : Nat) : ((List.range n).map f).drop each =
    (List.range (n - min each n)).map fun k => f (min each n + k) := by
  refine List.ext_getElem (by simp; omega) fun k low low' => ?_
  simp only [List.length_drop, List.length_map, List.length_range] at low
  simp only [List.getElem_drop, List.getElem_map, List.getElem_range]
  rw [min_eq_left (by omega)]

end Records

section Rules

variable {h₀ hashp : Htab} {top p n : Nat} {acc acc' : Account} {adm : Event → Prop}
  {ls : List (List ConfigInfo)} {config : ConfigInfo}

/-- The account has the records of these pages, from page `p` on. -/
def InfosOn (acc : Account) : Nat → List (List ConfigInfo) → Prop
  | _, [] => True
  | p, l :: ls => (∀ c, acc.holds p c → Pagepool.Signed c ∧ infos c = l) ∧ InfosOn acc (p + 1) ls

theorem InfosOn.congr (h : InfosOn acc p ls)
    (same : ∀ q c, p ≤ q → q < p + ls.length → acc'.holds q c → acc.holds q c) : InfosOn acc' p ls := by
  induction ls generalizing p with
  | nil => trivial
  | cons l ls ih =>
    rw [List.length_cons] at same
    refine ⟨fun c holds => h.1 c (same p c le_rfl (by omega) holds), ih h.2 fun q c low high => ?_⟩
    exact same q c (by omega) (by omega)

theorem infosOn_set {mem : Page} {l : List ConfigInfo} (signed : Pagepool.Signed mem) (eq : infos mem = l)
    (h : InfosOn acc (p + 1) ls) : InfosOn (acc.set p mem) p (l :: ls) := by
  refine ⟨fun c holds => ?_, h.congr fun q c low _ => (Account.set_other (by omega)).mp⟩
  have same := Account.set_same.mp holds
  exact ⟨same.pageSign.trans signed, (infos_agree same).trans eq⟩

theorem wp_setConfigsLoop (h : Knows h₀ top acc [] hashp)
    (few : (h₀.hdr.bsize - pageOverhead) / configInfoSize < 65536) (configs : Nat → ConfigInfo)
    (cnum tnums : Nat) (pos : h₀.Idle → 0 < p) (below : p + n ≤ top)
    (signed : ∀ q c, p ≤ q → q < p + n → acc.holds q c → Pagepool.Signed c) {Q : Int → Htab → Prop}
    (next : ∀ acc' hashp', InfosOn acc' p (deal ((h₀.hdr.bsize - pageOverhead) / configInfoSize) n
        ((List.range tnums).map fun k => (configs (cnum + k)).own)) →
      (∀ q c, q < p ∨ p + n ≤ q → (acc'.holds q c ↔ acc.holds q c)) →
      Knows h₀ top acc' [] hashp' → Q 0 hashp') :
    Wp adm (setConfigsLoop configs n p cnum tnums) hashp Q := by
  induction n generalizing p acc hashp cnum tnums with
  | zero => exact wp_pure (next acc hashp trivial (fun _ _ _ => Iff.rfl) h)
  | succ n ih =>
    have high := h.few
    have word : u32 (p + 1) = p + 1 := Nat.mod_eq_of_lt (by simp only [maxPageNumber] at high; omega)
    refine wp_bind (Prog.wp_read ?_)
    rw [h.hdr]
    refine wp_bind (wp_get h List.not_mem_nil pos (by omega) (by decide) fun id mem hashp' h' holds => ?_)
    have filled := fillConfigs_eq mem cnum tnums configs few
    have sign := filled.2.mpr (signed p mem le_rfl (by omega) holds)
    dsimp only
    refine wp_bind (wp_store h' _ fun mid stored => wp_bind (wp_page stored List.mem_cons_self ?_))
    refine wp_bind (wp_putDirty stored sign fun mid' put => ?_)
    have count : (fillConfigs h₀.hdr.bsize cnum tnums configs mem).numEnt =
        min ((h₀.hdr.bsize - pageOverhead) / configInfoSize) tnums := by
      rw [← length_infos, filled.1, List.length_take, List.length_map, List.length_range]
    dsimp only
    rw [count, word]
    have now : Knows h₀ top (acc.set p (fillConfigs h₀.hdr.bsize cnum tnums configs mem)) [] mid' := put
    refine ih now _ _ (fun _ => Nat.succ_pos p) (by omega) (fun q c low high holds => ?_)
      fun acc' hashp'' on same known => ?_
    · exact signed q c (by omega) (by omega) ((Account.set_other (by omega)).mp holds)
    · refine next acc' hashp'' ⟨fun c holds => ?_, ?_⟩ (fun q c out => ?_) known
      · have agree := Account.set_same.mp ((same p c (.inl (Nat.lt_succ_self p))).mp holds)
        exact ⟨agree.pageSign.trans sign, (infos_agree agree).trans filled.1⟩
      · rw [drop_range_map]
        simpa only [Nat.add_assoc] using on
      · rw [same q c (by omega)]
        exact Account.set_other (by omega)

theorem wp_getConfigsLoop (h : Knows h₀ top acc [] hashp) (on : InfosOn acc p ls)
    (pos : h₀.Idle → 0 < p) (below : p + ls.length ≤ top) (sofar : List ConfigInfo)
    {Q : Int × List ConfigInfo → Htab → Prop}
    (next : ∀ l hashp', l.map ConfigInfo.own = ls.flatten → Knows h₀ top acc [] hashp' →
      Q (0, sofar ++ l) hashp') : Wp adm (getConfigsLoop ls.length p sofar) hashp Q := by
  induction ls generalizing p hashp sofar with
  | nil => exact wp_pure (by simpa using next [] hashp rfl h)
  | cons l ls ih =>
    rw [List.length_cons] at below ⊢
    have high := h.few
    have word : u32 (p + 1) = p + 1 := Nat.mod_eq_of_lt (by simp only [maxPageNumber] at high; omega)
    refine wp_bind (wp_get h List.not_mem_nil pos (by omega) (by decide) fun id mem hashp' h' holds => ?_)
    obtain ⟨sign, here⟩ := on.1 mem holds
    dsimp only
    refine wp_bind (wp_page h' List.mem_cons_self (wp_bind (wp_putClean h' sign holds fun mid put => ?_)))
    dsimp only
    rw [word]
    refine ih put on.2 (fun _ => Nat.succ_pos p) (by omega) _ fun m hashp'' rest known => ?_
    rw [List.append_assoc]
    refine next _ hashp'' ?_ known
    rw [List.map_append, rest, List.flatten_cons, List.map_map, ← here]
    rfl

theorem wp_setConfigInfoLoop (h : Knows h₀ top acc [] hashp) (on : InfosOn acc p ls)
    (pos : h₀.Idle → 0 < p) (below : p + ls.length ≤ top) {Q : Int → Htab → Prop}
    (found : ∀ acc' ls' hashp', ls'.length = ls.length → ls'.flatten = updated config ls.flatten →
      InfosOn acc' p ls' → (∀ q c, q < p → (acc'.holds q c ↔ acc.holds q c)) →
      Knows h₀ top acc' [] hashp' → Q 0 hashp')
    (missing : ls.flatten.findIdx? config.names = none → ∀ hashp', Knows h₀ top acc [] hashp' →
      Q (-1) hashp') : Wp adm (setConfigInfoLoop config ls.length p) hashp Q := by
  induction ls generalizing p hashp with
  | nil => exact wp_pure (missing rfl hashp h)
  | cons l ls ih =>
    rw [List.length_cons] at below found ⊢
    have high := h.few
    have word : u32 (p + 1) = p + 1 := Nat.mod_eq_of_lt (by simp only [maxPageNumber] at high; omega)
    refine wp_bind (wp_get h List.not_mem_nil pos (by omega) (by decide) fun id mem hashp' h' holds => ?_)
    obtain ⟨sign, here⟩ := on.1 mem holds
    have search : (List.range mem.numEnt).find? (fun k => (configInfo mem k).index == config.index &&
        (configInfo mem k).config == config.config) = l.findIdx? config.names := by
      rw [← here]
      exact find_infos (names_own config)
    dsimp only
    refine wp_bind (wp_page h' List.mem_cons_self ?_)
    dsimp only
    rw [search]
    cases first : l.findIdx? config.names with
    | some k =>
      refine wp_bind (wp_store h' _ fun mid stored => ?_)
      have sign' := (signed_setConfigInfo (k := k) (c := config)).mpr sign
      refine wp_bind (wp_putDirty stored sign' fun mid' put => wp_pure ?_)
      refine found _ (l.set k config.own :: ls) mid' rfl ?_ ?_ ?_ put
      · rw [List.flatten_cons, List.flatten_cons, updated_append_some first]
      · exact infosOn_set sign' (by rw [infos_setConfigInfo, here]) on.2
      · exact fun q c low => Account.set_other low.ne
    | none =>
      refine wp_bind (wp_putClean h' sign holds fun mid put => ?_)
      rw [word]
      refine ih put on.2 (fun _ => Nat.succ_pos p) (by omega) (fun acc' ls' hashp'' length all on' same known => ?_)
        fun none => ?_
      · refine found acc' (l :: ls') hashp'' (by rw [List.length_cons, length]) ?_ ⟨fun c told => ?_, on'⟩
          (fun q c low => same q c (by omega)) known
        · rw [List.flatten_cons, List.flatten_cons, updated_append_none first, all]
        · exact on.1 c ((same p c (Nat.lt_succ_self p)).mp told)
      · refine missing ?_
        rw [List.flatten_cons, List.findIdx?_append, first, none]
        rfl

theorem wp_getConfigInfoLoop (h : Knows h₀ top acc [] hashp) (on : InfosOn acc p ls)
    (pos : h₀.Idle → 0 < p) (below : p + ls.length ≤ top) (confignum : Nat) {Q : Int × Option ConfigInfo → Htab → Prop}
    (found : ∀ c hashp', ls.flatten.find? (fun c => c.config == confignum) = some (ConfigInfo.own c) →
      Knows h₀ top acc [] hashp' → Q (0, some c) hashp')
    (missing : ls.flatten.find? (fun c => ConfigInfo.config c == confignum) = none →
      ∀ hashp', Knows h₀ top acc [] hashp' → Q (-1, none) hashp') :
    Wp adm (getConfigInfoLoop confignum ls.length p) hashp Q := by
  induction ls generalizing p hashp with
  | nil => exact wp_pure (missing rfl hashp h)
  | cons l ls ih =>
    rw [List.length_cons] at below ⊢
    have high := h.few
    have word : u32 (p + 1) = p + 1 := Nat.mod_eq_of_lt (by simp only [maxPageNumber] at high; omega)
    refine wp_bind (wp_get h List.not_mem_nil pos (by omega) (by decide) fun id mem hashp' h' holds => ?_)
    obtain ⟨sign, here⟩ := on.1 mem holds
    have search : l.find? (fun c => ConfigInfo.config c == confignum) =
        ((List.range mem.numEnt).find? fun k => (configInfo mem k).config == confignum).map
          fun k => (configInfo mem k).own := by
      rw [← here, infos, List.find?_map]
      refine congrArg (fun g => ((List.range mem.numEnt).find? g).map fun k => (configInfo mem k).own)
        (funext fun k => ?_)
      simp
    rw [List.flatten_cons, List.find?_append, search] at found missing
    dsimp only
    refine wp_bind (wp_page h' List.mem_cons_self ?_)
    dsimp only
    cases first : (List.range mem.numEnt).find? fun k => (configInfo mem k).config == confignum with
    | some k =>
      rw [first] at found
      exact wp_bind (wp_putClean h' sign holds fun mid put => wp_pure (found _ mid rfl put))
    | none =>
      rw [first] at found missing
      refine wp_bind (wp_putClean h' sign holds fun mid put => ?_)
      rw [word]
      exact ih put on.2 (fun _ => Nat.succ_pos p) (by omega) found missing

end Rules

section Calls

variable {hashp : Htab} {l : List ConfigInfo} {config : ConfigInfo}

structure ConfigArea (hdr : Hashhdr) (top : Nat) : Prop where
  below : hdr.cfigPage + hdr.cfigNpages ≤ top
  few : hdr.infosPerPage < 65536

def HasArea (hashp : Htab) : Prop :=
  ∃ h₀ top acc, Knows h₀ top acc [] hashp ∧ ConfigArea h₀.hdr top ∧
    ∀ q c, h₀.hdr.cfigPage ≤ q → q < h₀.hdr.cfigPage + h₀.hdr.cfigNpages → acc.holds q c → Pagepool.Signed c

def HasConfigs (hashp : Htab) (l : List ConfigInfo) : Prop :=
  ∃ h₀ top acc ls, Knows h₀ top acc [] hashp ∧ ConfigArea h₀.hdr top ∧ ls.length = h₀.hdr.cfigNpages ∧
    InfosOn acc h₀.hdr.cfigPage ls ∧ ls.flatten = l

theorem wp_enter {h₀ : Htab} {top : Nat} {acc : Account} {adm : Event → Prop}
    (h : Knows h₀ top acc [] hashp) {Q : Unit → Htab → Prop}
    (next : ∀ mid, Knows h₀ top acc [] mid → Q () mid) : Wp adm enter hashp Q :=
  Prog.wp_modify (next _ (h.note hashp.fetches []))

theorem HasArea.loose (area : HasArea hashp) : ∃ h₀ top acc, ¬h₀.Idle ∧ Knows h₀ top acc [] hashp ∧
    ConfigArea h₀.hdr top ∧
    ∀ q c, h₀.hdr.cfigPage ≤ q → q < h₀.hdr.cfigPage + h₀.hdr.cfigNpages → acc.holds q c → Pagepool.Signed c := by
  obtain ⟨h₀, top, acc, known, area, signed⟩ := area
  exact ⟨h₀.loosened, top, acc, not_idle_loosened, known.loosen, area, signed⟩

theorem HasConfigs.loose (has : HasConfigs hashp l) : ∃ h₀ top acc ls, ¬h₀.Idle ∧ Knows h₀ top acc [] hashp ∧
    ConfigArea h₀.hdr top ∧ ls.length = h₀.hdr.cfigNpages ∧ InfosOn acc h₀.hdr.cfigPage ls ∧ ls.flatten = l := by
  obtain ⟨h₀, top, acc, ls, known, area, rest⟩ := has
  exact ⟨h₀.loosened, top, acc, ls, not_idle_loosened, known.loosen, area, rest⟩

theorem setAllConfigs_returns (area : HasArea hashp) (configs : Nat → ConfigInfo) : ∃ hashp',
    (setAllConfigs hashp.hdr.numCfigs configs).Returns hashp 0 hashp' ∧ hashp'.hdr = hashp.hdr ∧
      HasConfigs hashp' (((List.range hashp.hdr.numCfigs).map fun k => (configs k).own).take
        (hashp.hdr.cfigNpages * hashp.hdr.infosPerPage)) := by
  obtain ⟨h₀, top, acc, loose, known, area, signed⟩ := area.loose
  have hdr := known.hdr
  have sets : Wp (fun _ => True) (setAllConfigs hashp.hdr.numCfigs configs) hashp fun r hashp' =>
      r = 0 ∧ hashp'.hdr = hashp.hdr ∧
        HasConfigs hashp' (((List.range hashp.hdr.numCfigs).map fun k => (configs k).own).take
          (hashp.hdr.cfigNpages * hashp.hdr.infosPerPage)) := by
    refine wp_bind (wp_enter known fun mid entered => wp_bind (Prog.wp_read ?_))
    rw [if_neg (not_not.mpr (by rw [hdr, entered.hdr]))]
    refine wp_bind (Prog.wp_read ?_)
    rw [entered.hdr]
    refine wp_setConfigsLoop entered area.few configs 0 _ (fun idle => absurd idle loose) area.below signed
      fun acc' hashp' on _ known' => ⟨rfl, known'.hdr.trans hdr.symm, ?_⟩
    refine ⟨h₀, top, acc', _, known', area, Lib.length_deal _ _, on, ?_⟩
    rw [Lib.flatten_deal, hdr]
    simp only [Nat.zero_add, Hashhdr.infosPerPage]
  obtain ⟨r, hashp', run, rfl, hdr', has⟩ := sets fun _ _ => trivial
  exact ⟨hashp', run, hdr', has⟩

theorem getAllConfigs_returns (has : HasConfigs hashp l) : ∃ l' hashp',
    getAllConfigs.Returns hashp (0, l') hashp' ∧ l'.map ConfigInfo.own = l := by
  obtain ⟨h₀, top, acc, ls, loose, known, area, length, on, rfl⟩ := has.loose
  have gets : Wp (fun _ => True) getAllConfigs hashp fun r _ =>
      r.1 = 0 ∧ r.2.map ConfigInfo.own = ls.flatten := by
    refine wp_bind (wp_enter known fun mid entered => wp_bind (Prog.wp_read ?_))
    rw [entered.hdr, ← length]
    refine wp_getConfigsLoop entered on (fun idle => absurd idle loose) (length ▸ area.below) []
      fun l' hashp' all _ => ⟨rfl, all⟩
  obtain ⟨⟨_, l'⟩, hashp', run, rfl, all⟩ := gets fun _ _ => trivial
  exact ⟨l', hashp', run, all⟩

theorem setConfig_returns (has : HasConfigs hashp l) (present : l.findIdx? config.names ≠ none)
    (valid : validIndex config.index hashp.hdr.numCfigs = true) : ∃ hashp',
    (setConfig config).Returns hashp 0 hashp' ∧ hashp'.hdr = hashp.hdr ∧
      HasConfigs hashp' (updated config l) := by
  obtain ⟨h₀, top, acc, ls, loose, known, area, length, on, rfl⟩ := has.loose
  have hdr := known.hdr
  have sets : Wp (fun _ => True) (setConfig config) hashp fun r hashp' =>
      r = 0 ∧ hashp'.hdr = hashp.hdr ∧ HasConfigs hashp' (updated config ls.flatten) := by
    rw [hdr] at valid
    refine wp_bind (wp_enter known fun mid entered => wp_bind (Prog.wp_read ?_))
    rw [entered.hdr, if_pos valid, ← length]
    refine wp_setConfigInfoLoop entered on (fun idle => absurd idle loose) (length ▸ area.below) ?_ fun none =>
      absurd none present
    intro acc' ls' hashp' length' all on' _ known'
    exact ⟨rfl, known'.hdr.trans hdr.symm, h₀, top, acc', ls', known', area, length'.trans length, on', all⟩
  obtain ⟨r, hashp', run, rfl, hdr', has⟩ := sets fun _ _ => trivial
  exact ⟨hashp', run, hdr', has⟩

theorem setConfig_refused (invalid : validIndex config.index hashp.hdr.numCfigs = false) :
    (setConfig config).Returns hashp (-1) { hashp with held := [] } := by
  simp [setConfig, enter, Prog.Returns, invalid]

theorem getConfig_returns {confignum index : Nat} {d : ConfigInfo} (has : HasConfigs hashp l)
    (first : l.find? (fun c => c.config == confignum) = some d)
    (valid : validIndex index hashp.hdr.cfigNpages = true) : ∃ c hashp',
    (getConfig confignum index).Returns hashp (0, some c) hashp' ∧ c.own = d := by
  obtain ⟨h₀, top, acc, ls, loose, known, area, length, on, rfl⟩ := has.loose
  have gets : Wp (fun _ => True) (getConfig confignum index) hashp fun r _ =>
      ∃ c, r = (0, some c) ∧ c.own = d := by
    rw [known.hdr] at valid
    refine wp_bind (wp_enter known fun mid entered => wp_bind (Prog.wp_read ?_))
    rw [entered.hdr, if_pos valid, ← length]
    refine wp_getConfigInfoLoop entered on (fun idle => absurd idle loose)
      (length ▸ area.below) confignum ?_ fun none => ?_
    · intro c hashp' found _
      rw [first] at found
      exact ⟨c, rfl, (Option.some.inj found).symm⟩
    · rw [first] at none
      cases none
  obtain ⟨_, hashp', run, c, rfl, same⟩ := gets fun _ _ => trivial
  exact ⟨c, hashp', run, same⟩

theorem getConfig_refused {index : Nat} (confignum : Nat)
    (invalid : validIndex index hashp.hdr.cfigNpages = false) :
    (getConfig confignum index).Returns hashp (-1, none) { hashp with held := [] } := by
  simp [getConfig, enter, Prog.Returns, invalid]

end Calls

end Htab
end FileHash
