import FileHash.OpenedTable
import FileHash.ReplacementFrame
import FileHash.ValueRoundTrip

/-! User information: the pages it is cut over, and that both calls cut it alike. The first
page has the length in front of its piece. -/
namespace FileHash.Htab

open Lib (Prog)
open Lib.Prog (Wp wp_bind wp_pure)
open Page

section Pieces

variable {bsize n : Nat} {first : Bool} {data : Dbt} {p q : Page} {rest : List UInt8}

structure Piece (bsize : Nat) (first : Bool) (rest : List UInt8) (p : Page) : Prop where
  signed : Pagepool.Signed p
  bytes : (Lib.Mem.drop p (uinfoOffset first)).bytes (uinfoLen bsize first rest.length) =
    rest.take (uinfoLen bsize first rest.length)
  length : first = true → p.userDataLen = rest.length

theorem pageOverhead_le_uinfoOffset (first : Bool) : pageOverhead ≤ uinfoOffset first := by
  cases first <;> decide

theorem Piece.agree (h : Piece bsize first rest p) (same : Agree q p) : Piece bsize first rest q := by
  refine ⟨same.pageSign.trans h.signed, ?_, fun start => ?_⟩
  · rw [← h.bytes]
    refine Lib.Mem.bytes_congr fun i _ => same _ (.inr ?_)
    exact (show chksumOffset ≤ pageOverhead by decide).trans
      ((pageOverhead_le_uinfoOffset first).trans (Nat.le_add_right _ _))
  · rw [← h.length start]
    exact same.read32 (by omega)

/-- What is to be copied when `rlen` bytes are left. -/
def remaining (data : Dbt) (rlen : Nat) : List UInt8 := (Lib.Mem.drop data.data (data.size - rlen)).bytes rlen

theorem remaining_all (data : Dbt) : remaining data data.size = data.bytes := by
  rw [remaining, Nat.sub_self]
  exact Lib.Mem.bytes_congr fun i _ => congrArg data.data (Nat.zero_add i)

@[simp] theorem length_remaining (data : Dbt) (rlen : Nat) : (remaining data rlen).length = rlen :=
  Lib.Mem.length_bytes

theorem getElem_remaining {i rlen : Nat} (low : i < (remaining data rlen).length) :
    (remaining data rlen)[i] = data.data (data.size - rlen + i) :=
  Lib.Mem.getElem_bytes i low

theorem drop_remaining {rlen k : Nat} (part : rlen ≤ data.size) (fits : k ≤ rlen) :
    (remaining data rlen).drop k = remaining data (rlen - k) := by
  refine List.ext_getElem (by simp) fun i low low' => ?_
  rw [List.getElem_drop, getElem_remaining, getElem_remaining]
  congr 1
  omega

theorem uinfoLen_le (bsize : Nat) (first : Bool) (rlen : Nat) : uinfoLen bsize first rlen ≤ rlen := min_le_left _ _

theorem fillUinfo_front {i rlen : Nat} (low : i < uinfoOffset first) : fillUinfo bsize data first rlen p i =
    (if first then (p.setNumEnt 1).setUserDataLen rlen else p.setNumEnt 0) i :=
  Lib.Mem.copy_outside (.inl low)

theorem piece_fillUinfo {rlen : Nat} (signed : Pagepool.Signed p) (word : rlen < 2 ^ 32) :
    Piece bsize first (remaining data rlen) (fillUinfo bsize data first rlen p) := by
  have low := pageOverhead_le_uinfoOffset first
  refine ⟨?_, ?_, fun start => ?_⟩
  · have front : (fillUinfo bsize data first rlen p).pageSign = p.pageSign := by
      refine (Lib.Mem.read32_congr fun i _ high => ?_ : _)
      have inside : i < pageOverhead := by
        simp only [pageOverhead]
        omega
      rw [fillUinfo_front (inside.trans_le low)]
      cases first
      · exact Lib.Mem.write16_outside (by omega)
      · exact (Lib.Mem.write32_outside (by omega)).trans (Lib.Mem.write16_outside (by omega))
    exact front.trans signed
  · rw [length_remaining, remaining, ← Lib.Mem.bytes_take (uinfoLen_le ..)]
    exact Lib.Mem.bytes_drop_copy
  · subst start
    have here : (fillUinfo bsize data true rlen p).userDataLen = ((p.setNumEnt 1).setUserDataLen rlen).userDataLen :=
      Lib.Mem.read32_congr fun i _ high => fillUinfo_front (by
        simp only [uinfoOffset, pageOverhead, if_true]
        omega)
    rw [here, length_remaining]
    exact Lib.Mem.read32_write32_same.trans (Nat.mod_eq_of_lt word)

end Pieces

section Rules

variable {h₀ hashp : Htab} {top p n : Nat} {acc acc' : Account} {adm : Event → Prop} {first : Bool}
  {data : Dbt} {rest : List UInt8}

/-- The account has these bytes on `n` pages from page `p` on, and no more. -/
def UinfoOn (bsize : Nat) (acc : Account) : Nat → Nat → Bool → List UInt8 → Prop
  | 0, _, _, rest => rest = []
  | n + 1, p, first, rest => (∀ c, acc.holds p c → Piece bsize first rest c) ∧
    UinfoOn bsize acc n (p + 1) false (rest.drop (uinfoLen bsize first rest.length))

theorem UinfoOn.congr {bsize : Nat} (h : UinfoOn bsize acc n p first rest)
    (same : ∀ q c, p ≤ q → q < p + n → acc'.holds q c → acc.holds q c) : UinfoOn bsize acc' n p first rest := by
  induction n generalizing p first rest with
  | zero => exact h
  | succ n ih =>
    refine ⟨fun c holds => h.1 c (same p c le_rfl (by omega) holds), ih h.2 fun q c low high => ?_⟩
    exact same q c (by omega) (by omega)

theorem room_behind {bsize len : Nat} (page : uinfoOffset first ≤ bsize)
    (room : len + uinfoOffset first ≤ (n + 1) * (bsize - pageOverhead) + pageOverhead) :
    len - uinfoLen bsize first len + uinfoOffset false ≤ n * (bsize - pageOverhead) + pageOverhead := by
  have low := pageOverhead_le_uinfoOffset first
  rw [Nat.succ_mul] at room
  rw [show uinfoOffset false = pageOverhead from rfl, uinfoLen]
  omega

theorem wp_setUinfoLoop (h : Knows h₀ top acc [] hashp) (page : uinfoOffset true ≤ h₀.hdr.bsize) {rlen : Nat}
    (part : rlen ≤ data.size) (word : data.size < 2 ^ 32) (pos : h₀.Idle → 0 < p) (below : p + n ≤ top)
    (room : rlen + uinfoOffset first ≤ n * (h₀.hdr.bsize - pageOverhead) + pageOverhead)
    (signed : ∀ q c, p ≤ q → q < p + n → acc.holds q c → Pagepool.Signed c) {Q : Int → Htab → Prop}
    (next : ∀ acc' hashp', UinfoOn h₀.hdr.bsize acc' n p first (remaining data rlen) →
      (∀ q c, q < p ∨ p + n ≤ q → (acc'.holds q c ↔ acc.holds q c)) → Knows h₀ top acc' [] hashp' → Q 0 hashp') :
    Wp adm (setUinfoLoop data n p first rlen) hashp Q := by
  induction n generalizing p acc hashp first rlen with
  | zero =>
    have low := pageOverhead_le_uinfoOffset first
    obtain rfl : rlen = 0 := by omega
    exact wp_pure (next acc hashp rfl (fun _ _ _ => Iff.rfl) h)
  | succ n ih =>
    have high := h.few
    have next_page : u32 (p + 1) = p + 1 := Nat.mod_eq_of_lt (by simp only [maxPageNumber] at high; omega)
    refine wp_bind (Prog.wp_read ?_)
    rw [h.hdr]
    refine wp_bind (wp_get h List.not_mem_nil pos (by omega) (by decide) fun id mem hashp' h' holds => ?_)
    have piece : Piece h₀.hdr.bsize first (remaining data rlen) (fillUinfo h₀.hdr.bsize data first rlen mem) :=
      piece_fillUinfo (signed p mem le_rfl (by omega) holds) (part.trans_lt word)
    refine wp_bind (wp_store h' _ fun mid stored => wp_bind (wp_putDirty stored piece.signed fun mid' put => ?_))
    have here : uinfoOffset first ≤ h₀.hdr.bsize := by
      cases first
      · exact (show uinfoOffset false ≤ uinfoOffset true by decide).trans page
      · exact page
    have now : Knows h₀ top (acc.set p (fillUinfo h₀.hdr.bsize data first rlen mem)) [] mid' := put
    rw [next_page]
    refine ih now ((Nat.sub_le _ _).trans part) (fun _ => Nat.succ_pos p) (by omega) (room_behind here room)
      (fun q c low high holds => ?_)
      fun acc' hashp'' on same known => ?_
    · exact signed q c (by omega) (by omega) ((Account.set_other (by omega)).mp holds)
    · refine next acc' hashp'' ⟨fun c holds => ?_, ?_⟩ (fun q c out => ?_) known
      · have agree := Account.set_same.mp ((same p c (.inl (Nat.lt_succ_self p))).mp holds)
        exact piece.agree agree
      · rwa [length_remaining, drop_remaining part (uinfoLen_le ..)]
      · rw [same q c (by omega)]
        exact Account.set_other (by omega)

theorem wp_getUinfoLoop (h : Knows h₀ top acc [] hashp) (on : UinfoOn h₀.hdr.bsize acc n p false rest)
    (pos : h₀.Idle → 0 < p) (below : p + n ≤ top) (sofar : List UInt8) {Q : Int × List UInt8 → Htab → Prop}
    (next : ∀ hashp', Knows h₀ top acc [] hashp' → Q (0, sofar ++ rest) hashp') :
    Wp adm (getUinfoLoop n p rest.length sofar) hashp Q := by
  induction n generalizing p hashp rest sofar with
  | zero =>
    obtain rfl : rest = [] := on
    exact wp_pure (by simpa using next hashp h)
  | succ n ih =>
    have high := h.few
    have next_page : u32 (p + 1) = p + 1 := Nat.mod_eq_of_lt (by simp only [maxPageNumber] at high; omega)
    refine wp_bind (Prog.wp_read ?_)
    rw [h.hdr]
    refine wp_bind (wp_get h List.not_mem_nil pos (by omega) (by decide) fun id mem hashp' h' holds => ?_)
    have piece := on.1 mem holds
    refine wp_bind (wp_page h' List.mem_cons_self (wp_bind (wp_putClean h' piece.signed holds fun mid put => ?_)))
    rw [next_page, piece.bytes, ← List.length_drop]
    refine ih put on.2 (fun _ => Nat.succ_pos p) (by omega) _ fun hashp'' known => ?_
    rw [List.append_assoc, List.take_append_drop]
    exact next hashp'' known

end Rules

section Calls

variable {hashp hashp' : Htab} {data : Dbt} {bytes : List UInt8}

structure UinfoArea (hdr : Hashhdr) (top : Nat) : Prop where
  below : hdr.uinfoPage + hdr.uinfoNpages ≤ top
  page : uinfoOffset true ≤ hdr.bsize

def HasUinfoArea (hashp : Htab) : Prop :=
  ∃ h₀ top acc, Knows h₀ top acc [] hashp ∧ UinfoArea h₀.hdr top ∧
    ∀ q c, h₀.hdr.uinfoPage ≤ q → q < h₀.hdr.uinfoPage + h₀.hdr.uinfoNpages → acc.holds q c → Pagepool.Signed c

def HasUinfo (hashp : Htab) (bytes : List UInt8) : Prop :=
  ∃ h₀ top acc, Knows h₀ top acc [] hashp ∧ UinfoArea h₀.hdr top ∧ 0 < h₀.hdr.uinfoNpages ∧
    UinfoOn h₀.hdr.bsize acc h₀.hdr.uinfoNpages h₀.hdr.uinfoPage true bytes

theorem signed_uinfoOn {acc : Account} {bsize n p : Nat} {first : Bool} (on : UinfoOn bsize acc n p first bytes)
    (q : Nat) (c : Page) (low : p ≤ q) (high : q < p + n) (holds : acc.holds q c) : Pagepool.Signed c := by
  induction n generalizing p first bytes with
  | zero => omega
  | succ n ih =>
    by_cases here : q = p
    · subst here
      exact (on.1 c holds).signed
    · exact ih on.2 (by omega) (by omega)

theorem HasUinfo.area (has : HasUinfo hashp bytes) : HasUinfoArea hashp := by
  obtain ⟨h₀, top, acc, known, area, -, on⟩ := has
  exact ⟨h₀, top, acc, known, area, signed_uinfoOn on⟩

/-- The pages have room for the bytes and their length, which is a word. -/
structure Fits (hdr : Hashhdr) (len : Nat) : Prop where
  room : len + 4 ≤ hdr.uinfoNpages * (hdr.bsize - pageOverhead)
  word : len < 2 ^ 32

theorem HasUinfoArea.loose (area : HasUinfoArea hashp) : ∃ h₀ top acc, ¬h₀.Idle ∧ Knows h₀ top acc [] hashp ∧
    UinfoArea h₀.hdr top ∧
    ∀ q c, h₀.hdr.uinfoPage ≤ q → q < h₀.hdr.uinfoPage + h₀.hdr.uinfoNpages → acc.holds q c → Pagepool.Signed c := by
  obtain ⟨h₀, top, acc, known, area, signed⟩ := area
  exact ⟨h₀.loosened, top, acc, not_idle_loosened, known.loosen, area, signed⟩

theorem setUinfo_returns (area : HasUinfoArea hashp) (fits : Fits hashp.hdr data.size) : ∃ hashp',
    (setUinfo data).Returns hashp 0 hashp' ∧ hashp'.hdr = hashp.hdr ∧ HasUinfo hashp' data.bytes := by
  obtain ⟨h₀, top, acc, loose, known, area, signed⟩ := area.loose
  have hdr := known.hdr
  rw [hdr] at fits
  have some : 0 < h₀.hdr.uinfoNpages := by
    refine Nat.pos_of_ne_zero fun none => ?_
    have room := fits.room
    rw [none, Nat.zero_mul] at room
    omega
  have sets : Wp (fun _ => True) (setUinfo data) hashp fun r hashp' =>
      r = 0 ∧ hashp'.hdr = hashp.hdr ∧ HasUinfo hashp' data.bytes := by
    refine wp_bind (Prog.wp_read ?_)
    rw [hdr]
    refine wp_setUinfoLoop known area.page le_rfl fits.word (fun idle => absurd idle loose) area.below ?_ signed
      fun acc' hashp' on _ known' => ⟨rfl, known'.hdr, h₀, top, acc', known', area, some, ?_⟩
    · have room := fits.room
      simp only [uinfoOffset, if_true]
      omega
    · rwa [remaining_all] at on
  obtain ⟨r, hashp', run, rfl, hdr', has⟩ := sets fun _ _ => trivial
  exact ⟨hashp', run, hdr', has⟩

theorem getUinfo_returns (has : HasUinfo hashp bytes) (len : Nat) : ∃ hashp',
    (getUinfo len).Returns hashp (if len < bytes.length then (-1, len, []) else (0, bytes.length, bytes)) hashp' ∧
      hashp'.hdr = hashp.hdr ∧ HasUinfo hashp' bytes := by
  obtain ⟨h₀, top, acc, known, area, pos, on⟩ := has
  have hdr := known.hdr
  have below := area.below
  obtain ⟨n, pages⟩ := Nat.exists_eq_succ_of_ne_zero pos.ne'
  have gets : Wp (fun _ => True) (getUinfo len) hashp fun r hashp' =>
      r = (if len < bytes.length then (-1, len, []) else (0, bytes.length, bytes)) ∧
        hashp'.hdr = hashp.hdr ∧ HasUinfo hashp' bytes := by
    have keeps : ∀ hashp', Knows h₀.loosened top acc [] hashp' → hashp'.hdr = h₀.hdr ∧ HasUinfo hashp' bytes :=
      fun hashp' known' => ⟨known'.hdr, h₀.loosened, top, acc, known', area, pos, on⟩
    have high := known.few
    have word : u32 (h₀.hdr.uinfoPage + 1) = h₀.hdr.uinfoPage + 1 :=
      Nat.mod_eq_of_lt (by simp only [maxPageNumber] at high; omega)
    refine wp_bind (Prog.wp_read ?_)
    rw [hdr, pages]
    rw [pages] at on below
    refine wp_bind (wp_get known.loosen List.not_mem_nil (fun idle => absurd idle not_idle_loosened) (by omega)
      (by decide) fun id mem hashp' h' holds => ?_)
    have piece := on.1 mem holds
    refine wp_bind (wp_page h' List.mem_cons_self ?_)
    dsimp only
    rw [piece.length rfl]
    by_cases short : len < bytes.length
    · rw [if_pos short, if_pos short]
      exact wp_bind (wp_leak h' holds not_idle_loosened .shortUinfo fun _ mid left => wp_pure ⟨rfl, keeps mid left⟩)
    · rw [if_neg short, if_neg short]
      refine wp_bind (wp_putClean h' piece.signed holds fun mid put => ?_)
      rw [word, piece.bytes, ← List.length_drop]
      refine wp_bind (wp_getUinfoLoop put on.2 (fun _ => Nat.succ_pos _) (by omega) _ fun last known' => wp_pure ?_)
      rw [List.take_append_drop]
      exact ⟨rfl, keeps last known'⟩
  obtain ⟨r, hashp', run, rfl, rest⟩ := gets fun _ _ => trivial
  exact ⟨hashp', run, rest⟩

/-- Tables whose user information was set, again and again, and asked for in between. -/
inductive Informed : Htab → List UInt8 → Prop
  | set {hashp hashp' : Htab} {data : Dbt} {r : Int} (area : HasUinfoArea hashp)
      (fits : Fits hashp.hdr data.size) (run : (setUinfo data).Returns hashp r hashp') : Informed hashp' data.bytes
  | again {hashp hashp' : Htab} {data : Dbt} {bytes : List UInt8} {r : Int} (before : Informed hashp bytes)
      (fits : Fits hashp.hdr data.size) (run : (setUinfo data).Returns hashp r hashp') : Informed hashp' data.bytes
  | get {hashp hashp' : Htab} {bytes : List UInt8} {len : Nat} {r : Int × Nat × List UInt8}
      (before : Informed hashp bytes) (run : (getUinfo len).Returns hashp r hashp') : Informed hashp' bytes

theorem Informed.hasUinfo (informed : Informed hashp bytes) : HasUinfo hashp bytes := by
  induction informed with
  | set area fits run =>
    obtain ⟨hashp', run', -, has⟩ := setUinfo_returns area fits
    obtain ⟨_, rfl⟩ := run.unique run'
    exact has
  | again before fits run ih =>
    obtain ⟨hashp', run', -, has⟩ := setUinfo_returns ih.area fits
    obtain ⟨_, rfl⟩ := run.unique run'
    exact has
  | @get hashp hashp' bytes len r before run ih =>
    obtain ⟨hashp', run', -, has⟩ := getUinfo_returns ih len
    obtain ⟨_, rfl⟩ := run.unique run'
    exact has

/-- What was set last is what is read, whatever there was before; a buffer that is too short is
refused and not written. -/
theorem user_info (informed : Informed hashp bytes) :
    (∀ len, bytes.length ≤ len → ∃ hashp', (getUinfo len).Returns hashp (0, bytes.length, bytes) hashp' ∧
      Informed hashp' bytes) ∧
    (∀ len < bytes.length, ∃ hashp', (getUinfo len).Returns hashp (-1, len, []) hashp' ∧ Informed hashp' bytes) ∧
    ∀ data : Dbt, Fits hashp.hdr data.size → ∃ hashp', (setUinfo data).Returns hashp 0 hashp' ∧
      Informed hashp' data.bytes := by
  refine ⟨fun len enough => ?_, fun len short => ?_, fun data fits => ?_⟩
  · obtain ⟨hashp', run, -⟩ := getUinfo_returns informed.hasUinfo len
    rw [if_neg (not_lt.mpr enough)] at run
    exact ⟨hashp', run, .get informed run⟩
  · obtain ⟨hashp', run, -⟩ := getUinfo_returns informed.hasUinfo len
    rw [if_pos short] at run
    exact ⟨hashp', run, .get informed run⟩
  · obtain ⟨hashp', run, -⟩ := setUinfo_returns informed.hasUinfo.area fits
    exact ⟨hashp', run, .again informed fits run⟩

end Calls

theorem hasUinfoArea_tableOn {o : Opening} {hdr : Hashhdr} {n : Nat} {pages : Nat → Page}
    (noFault : ∀ m, o.fault m = false) (native : hdr.lorder = littleEndian) (few : n < maxPageNumber)
    (area : UinfoArea hdr n)
    (signed : ∀ q, hdr.uinfoPage ≤ q → q < hdr.uinfoPage + hdr.uinfoNpages → (pages q).pageSign = pageMagic) :
    HasUinfoArea (tableOn o hdr n pages) := by
  have known : Knows (tableOn o hdr n pages) n .any [] (tableOn o hdr n pages) := by
    refine knows_tableOf noFault native (fun q => ?_) le_rfl few
    obtain ⟨d, read, -⟩ := read_tableOn o n pages native q
    have native' : (hdr.lorder != littleEndian) = false := by simp [native]
    have pgin : (tableOn o hdr n pages).mp.pgin = pginRoutine hdr.bsize (hdr.lorder != littleEndian) := rfl
    rw [pgin, native'] at read
    exact ⟨d, read⟩
  refine ⟨_, n, _, known.observe, area, fun q c low high holds => ?_⟩
  have looks : (tableOn o hdr n pages).mp.Looks q c := holds.2
  have agree := looks_tableOn native looks
  rw [if_pos ⟨high.trans_le area.below, signed q low high⟩] at agree
  exact agree.pageSign.trans (signed q low high)

section Examples

def blankInfo : Htab :=
  tableOn defaults defaultHdr 5 fun p => FileHash.initPage 4096 (fun _ => 0) p hashUinfoPage

theorem user_info_short : ∃ hashp, (∃ hashp', (getUinfo 3).Returns hashp (0, 3, [7, 8, 9]) hashp') ∧
    ∃ hashp', (getUinfo 2).Returns hashp (-1, 2, []) hashp' := by
  have area : HasUinfoArea blankInfo :=
    hasUinfoArea_tableOn (fun _ => rfl) rfl (by decide) ⟨by decide, by decide⟩ fun _ _ _ => signed_initPage
  have fits : Fits blankInfo.hdr (Dbt.ofBytes [7, 8, 9]).size :=
    ⟨(by decide : 3 + 4 ≤ defaultHdr.uinfoNpages * (defaultHdr.bsize - pageOverhead)), by decide⟩
  obtain ⟨hashp, run, -⟩ := setUinfo_returns area fits
  have spelled : (Dbt.ofBytes [7, 8, 9]).bytes = [7, 8, 9] := by decide
  have informed : Informed hashp [7, 8, 9] := spelled ▸ Informed.set area fits run
  obtain ⟨reads, refuses, -⟩ := user_info informed
  obtain ⟨hashp', run', -⟩ := reads 3 le_rfl
  obtain ⟨hashp'', run'', -⟩ := refuses 2 (by decide)
  exact ⟨hashp, ⟨hashp', run'⟩, hashp'', run''⟩

end Examples

end FileHash.Htab
