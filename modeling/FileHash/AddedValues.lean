import FileHash.StoredValues

/-! Adding a value to the data pages, from any state of the current one. `DataLaid` is
the invariant: where the data lie, that no two own a byte or a link in common, and from where on the
current page is nobody's. -/
namespace FileHash.Htab

open Lib (Prog)
open Lib.Prog (Wp wp_bind wp_pure wp_mono)
open Page

structure Datum.Apart (bsize : Nat) (d d' : Datum) : Prop where
  bytes : ∀ p i, d.owns bsize p i → ¬d'.owns bsize p i
  links : ∀ p, d.links p → ¬d'.links p

/-- Page `c` as the current data page: full, or nobody's from its offset on. -/
structure Opens (bsize : Nat) (ds : List Datum) (p : Nat) (c : Page) : Prop where
  signed : Pagepool.Signed c
  number : c.currPgno = p
  offset : c.offset = 0 ∨ (bigPageOverhead + bigDataOverhead * c.numEnt ≤ c.offset ∧
    c.offset + bigDataOverhead ≤ bsize ∧ c.offset % 4 = 0 ∧
      ∀ d ∈ ds, ∀ i, c.offset ≤ i → ¬d.owns bsize p i)

/-- Every datum that has to do with page `p` is on `c`. -/
def Bears (h₀ : Htab) (ds : List Datum) (p : Nat) (c : Page) : Prop :=
  ∀ d ∈ ds, p ∈ d.all → d.On h₀.hdr.version h₀.dataValidFlag h₀.hdr.bsize p c

structure Filed (h₀ : Htab) (s : Nat) (acc : Account) (maps : FreeMap) (ds : List Datum) : Prop where
  page : PageSize h₀.hdr.bsize
  pos : 0 < s
  stock : Stock h₀ s acc maps
  placed : ∀ d ∈ ds, d.Placed h₀.hdr.bsize
  on : ∀ d ∈ ds, d.OnPages h₀ acc
  used : ∀ d ∈ ds, ∀ p ∈ d.all, (0 < p ∧ p < s) ∧ p ∉ maps.pages
  apart : ds.Pairwise (Datum.Apart h₀.hdr.bsize)

def Unmade (c : Page) : Prop := ∃ d, Clear d ∧ Agree c d

structure Current (h₀ : Htab) (s : Nat) (acc : Account) (maps : FreeMap) (ds : List Datum) : Prop where
  started : Started h₀ s s
  some : 0 < h₀.currDpage
  free : h₀.currDpage ∉ maps.pages
  unlinked : ∀ d ∈ ds, ¬d.links h₀.currDpage
  opens : ∀ c, acc.holds h₀.currDpage c →
    Opens h₀.hdr.bsize ds h₀.currDpage c ∨ (Unmade c ∧ ∀ d ∈ ds, h₀.currDpage ∉ d.all)

structure DataLaid (h₀ : Htab) (s : Nat) (acc : Account) (maps : FreeMap) (ds : List Datum) : Prop
    extends Filed h₀ s acc maps ds where
  current : Unstarted h₀ s ∨ Current h₀ s acc maps ds

/-- The data pages with the current one, `p`, in hand. -/
structure Working (h₀ : Htab) (s : Nat) (acc : Account) (maps : FreeMap) (ds : List Datum) (p : Nat) (c : Page) :
    Prop extends Filed h₀ s acc maps ds where
  started : Started h₀ s s
  cur : h₀.currDpage = p
  some : 0 < p
  free : p ∉ maps.pages
  unlinked : ∀ d ∈ ds, ¬d.links p
  opens : Opens h₀.hdr.bsize ds p c
  bears : Bears h₀ ds p c

variable {h₀ h₁ hashp : Htab} {top s s' p id bsize : Nat} {acc acc' : Account} {hand : List Taken}
  {maps maps' : FreeMap} {mem c c' : Page} {adm : Event → Prop} {α : Type} {ds : List Datum}

def beginning (ds : List Datum) (p : Nat) : List Nat := ((ds.filter fun d => d.first = p).map Datum.roff).reverse

theorem beginning_self {d : Datum} : beginning (d :: ds) d.first = beginning ds d.first ++ [d.roff] := by
  rw [beginning, List.filter_cons_of_pos (by simp), List.map_cons, List.reverse_cons]
  rfl

theorem beginning_other {d : Datum} (ne : d.first ≠ p) : beginning (d :: ds) p = beginning ds p := by
  rw [beginning, List.filter_cons_of_neg (by simp [ne])]
  rfl

theorem beginning_unused (out : ∀ d ∈ ds, p ∉ d.all) : beginning ds p = [] := by
  have none : (ds.filter fun d => d.first = p) = [] := by
    refine List.filter_eq_nil_iff.mpr fun d mem here => out d mem ?_
    rw [← of_decide_eq_true here]
    exact List.mem_cons_self
  rw [beginning, none]
  rfl

def AllChained (bsize : Nat) (acc : Account) (ds : List Datum) : Prop :=
  ∀ q, (∃ d ∈ ds, q ∈ d.all) → ∀ c, acc.holds q c → Chained bsize (beginning ds q) c

def ChainsLaid (h₀ : Htab) (acc : Account) (ds : List Datum) : Prop :=
  AllChained h₀.hdr.bsize acc ds ∧ (h₀.currDpage ≠ invalidPgno → ∀ c, acc.holds h₀.currDpage c →
    Unmade c ∨ Chained h₀.hdr.bsize (beginning ds h₀.currDpage) c)

/-- The current data page is the last of its chain. -/
structure Tip (h₀ : Htab) (acc : Account) : Prop where
  made : h₀.currDpage ≠ invalidPgno
  ended : ∀ c, acc.holds h₀.currDpage c → Ended c

def ChainsHeld (bsize : Nat) (acc : Account) (ds : List Datum) (p : Nat) (c : Page) : Prop :=
  AllChained bsize acc ds ∧ Chained bsize (beginning ds p) c

theorem Renumbered.facts (h : Renumbered h₀ h₁) : h₁.hdr.bsize = h₀.hdr.bsize ∧
    h₁.hdr.version = h₀.hdr.version ∧ h₁.dataValidFlag = h₀.dataValidFlag := by
  rw [h]
  exact ⟨rfl, rfl, rfl⟩

theorem Bears.congr (h : Bears h₀ ds p c) (unlinked : ∀ d ∈ ds, ¬d.links p) (signed : Pagepool.Signed c')
    (number : c'.currPgno = c.currPgno) (count : 1 ≤ c.numEnt → 1 ≤ c'.numEnt)
    (same : ∀ d ∈ ds, ∀ i, d.owns h₀.hdr.bsize p i → c' i = c i) : Bears h₀ ds p c' := by
  intro d mem on
  have was := h d mem on
  exact was.congr signed (fun here => ⟨number, count (was.head here).2.1⟩) (same d mem)
    fun link => absurd link (unlinked d mem)

theorem Bears.renumbered (h : Bears h₀ ds p c) (same : Renumbered h₀ h₁) : Bears h₁ ds p c := by
  obtain ⟨bsize, version, flag⟩ := same.facts
  unfold Bears
  rw [bsize, version, flag]
  exact h

theorem bears_blank (out : ∀ d ∈ ds, p ∉ d.all) : Bears h₀ ds p c :=
  fun d mem on => absurd on (out d mem)

theorem opens_initPage {raw : Page} (word : p < 0x100000000) (page : PageSize bsize)
    (out : ∀ d ∈ ds, p ∉ d.all) : Opens bsize ds p (FileHash.initPage bsize raw p hashDataPage) where
  signed := signed_initPage
  number := currPgno_initPage word
  offset := by
    rw [offset_initPage_data, numEnt_initPage]
    exact .inr ⟨le_rfl, page.room.le, rfl, fun d mem i _ owns => out d mem (Datum.owns_page owns)⟩

theorem Opens.agree (h : Opens bsize ds p c) (same : Agree c' c) : Opens bsize ds p c' where
  signed := same.pageSign.trans h.signed
  number := same.currPgno.trans h.number
  offset := by
    have offset : c'.offset = c.offset := same.read32 (.inr (by omega))
    rw [offset, same.numEnt]
    exact h.offset

theorem Datum.OnPages.set {d : Datum} (h : d.OnPages h₀ acc) (place : d.Placed h₀.hdr.bsize)
    (mine : p ∈ d.all → d.On h₀.hdr.version h₀.dataValidFlag h₀.hdr.bsize p mem) : d.OnPages h₀ (acc.set p mem) := by
  intro q memq c holds
  by_cases same : q = p
  · subst same
    exact (mine memq).agree place (Account.set_same.mp holds)
  · exact h q memq c ((Account.set_other same).mp holds)

theorem Datum.OnPages.renumbered {d : Datum} (h : d.OnPages h₀ acc) (same : Renumbered h₀ h₁) :
    d.OnPages h₁ acc := by
  obtain ⟨bsize, version, flag⟩ := same.facts
  intro p mem c holds
  rw [bsize, version, flag]
  exact h p mem c holds

theorem Filed.set (f : Filed h₀ s acc maps ds) (out : p ∉ maps.pages) (bears : Bears h₀ ds p c) :
    Filed h₀ s (acc.set p c) maps ds where
  page := f.page
  pos := f.pos
  stock := f.stock.set out
  placed := f.placed
  on d mem := (f.on d mem).set (f.placed d mem) (bears d mem)
  used := f.used
  apart := f.apart

theorem Filed.cons {d : Datum} (f : Filed h₀ s acc maps ds) (place : d.Placed h₀.hdr.bsize)
    (on : d.OnPages h₀ acc) (used : ∀ q ∈ d.all, (0 < q ∧ q < s) ∧ q ∉ maps.pages)
    (apart : ∀ d' ∈ ds, d.Apart h₀.hdr.bsize d') : Filed h₀ s acc maps (d :: ds) where
  page := f.page
  pos := f.pos
  stock := f.stock
  placed := List.forall_mem_cons.mpr ⟨place, f.placed⟩
  on := List.forall_mem_cons.mpr ⟨on, f.on⟩
  used := List.forall_mem_cons.mpr ⟨used, f.used⟩
  apart := List.pairwise_cons.mpr ⟨apart, f.apart⟩

theorem Working.laid (w : Working h₀ s acc maps ds p c) : DataLaid h₀ s (acc.set p c) maps ds where
  toFiled := w.toFiled.set w.free w.bears
  current := .inr {
    started := w.started
    some := w.cur ▸ w.some
    free := w.cur ▸ w.free
    unlinked := w.cur ▸ w.unlinked
    opens := by
      rw [w.cur]
      exact fun c holds => .inl (w.opens.agree (Account.set_same.mp holds)) }

theorem Filed.unused {n : Nat} {reuse : Bool} (f : Filed h₀ s acc maps ds)
    (given : Given h₀ s s acc maps n reuse h₁ acc' maps' s') {d : Datum} (mem : d ∈ ds) : n ∉ d.all := by
  intro on
  obtain ⟨low, out⟩ := f.used d mem n on
  cases reuse with
  | true => exact out (given.reused rfl).1
  | false => exact absurd (given.fresh rfl).1 low.2.ne

theorem Filed.given {n : Nat} {reuse : Bool} (f : Filed h₀ s acc maps ds)
    (given : Given h₀ s s acc maps n reuse h₁ acc' maps' s') : Filed h₁ s' acc' maps' ds := by
  obtain ⟨size, _, _⟩ := given.renumbered.facts
  have grows : s ≤ s' := given.started.le
  exact {
    page := size ▸ f.page
    pos := f.pos.trans_le grows
    stock := ⟨given.stock.head, given.stock.onPages, given.stock.nodup, fun p mem =>
      ⟨(given.stock.bound p mem).1, (given.stock.bound p mem).2.trans_le grows⟩⟩
    placed := size ▸ f.placed
    on := fun d mem => by
      refine Datum.OnPages.renumbered (fun p memp c holds => ?_) given.renumbered
      exact f.on d mem p memp c ((given.same p c (f.used d mem p memp).2).mp holds)
    used := fun d mem p memp => by
      obtain ⟨low, out⟩ := f.used d mem p memp
      exact ⟨⟨low.1, low.2.trans_le grows⟩, fun listed => out (given.sub p listed)⟩
    apart := size ▸ f.apart }

def Touches (maps : FreeMap) (s cur p : Nat) : Prop := p = cur ∨ p ∈ maps.pages ∨ s ≤ p

theorem Touches.trans {cur cur' : Nat} (h : Touches maps' s' cur' p) (sub : ∀ q ∈ maps'.pages, q ∈ maps.pages)
    (grows : s ≤ s') (next : Touches maps s cur cur') : Touches maps s cur p := by
  rcases h with rfl | listed | high
  · exact next
  · exact .inr (.inl (sub p listed))
  · exact .inr (.inr (grows.trans high))

structure Onward (h₀ : Htab) (s : Nat) (acc : Account) (maps : FreeMap) (cur : Nat) (h₁ : Htab) (s' : Nat)
    (acc' : Account) (maps' : FreeMap) : Prop where
  renumbered : Renumbered h₀ h₁
  grows : s ≤ s'
  sub : ∀ p ∈ maps'.pages, p ∈ maps.pages
  same : ∀ p c, ¬Touches maps s cur p → (acc'.holds p c ↔ acc.holds p c)
  cur : Touches maps s cur h₁.currDpage

theorem Onward.refl {cur : Nat} (same : h₀.currDpage = cur) : Onward h₀ s acc maps cur h₀ s acc maps :=
  ⟨.refl h₀, le_rfl, fun _ => id, fun _ _ _ => Iff.rfl, .inl same⟩

theorem Onward.trans {h₂ : Htab} {cur cur' s₁ s₂ : Nat} {acc₁ acc₂ : Account} {maps₁ maps₂ : FreeMap}
    (a : Onward h₀ s acc maps cur h₁ s₁ acc₁ maps₁) (b : Onward h₁ s₁ acc₁ maps₁ cur' h₂ s₂ acc₂ maps₂)
    (next : Touches maps s cur cur') : Onward h₀ s acc maps cur h₂ s₂ acc₂ maps₂ where
  renumbered := a.renumbered.trans b.renumbered
  grows := a.grows.trans b.grows
  sub p mem := a.sub p (b.sub p mem)
  same p c out := (b.same p c fun h => out (h.trans a.sub a.grows next)).trans (a.same p c out)
  cur := b.cur.trans a.sub a.grows next

theorem Onward.set {cur : Nat} (a : Onward h₀ s acc maps cur h₁ s' acc' maps') (place : Touches maps s cur p) :
    Onward h₀ s acc maps cur h₁ s' (acc'.set p c) maps' :=
  { a with same := fun q d out => (Account.set_other fun same => out ((show q = p from same) ▸ place)).trans
               (a.same q d out) }

theorem Given.touches {n cur : Nat} {reuse : Bool} (given : Given h₀ s s acc maps n reuse h₁ acc' maps' s') :
    Touches maps s cur n := by
  cases reuse with
  | true => exact .inr (.inl (given.reused rfl).1)
  | false => exact .inr (.inr (given.fresh rfl).1.ge)

theorem Unmade.currPgno (unmade : Unmade c) : c.currPgno = 0 := by
  obtain ⟨d, clear, same⟩ := unmade
  exact same.currPgno.trans (currPgno_clear clear)

theorem Unmade.not_signed (unmade : Unmade c) : ¬Pagepool.Signed c := by
  obtain ⟨d, clear, same⟩ := unmade
  unfold Pagepool.Signed
  rw [same.pageSign]
  simp only [pageSign, Lib.Mem.read32, clear 12 (by decide), clear 13 (by decide), clear 14 (by decide),
    clear 15 (by decide)]
  decide

theorem wp_currentPage (h : Knows h₀ s acc hand hashp) (laid : DataLaid h₀ s acc maps ds)
    (apart : h₀.currDpage ∉ numbers hand) (few : s + 2 < maxPageNumber)
    {Q : Nat × Bool → Option Nat × Nat → Htab → Prop}
    (next : ∀ h₁ s' id p c hashp', Renumbered h₀ h₁ → s ≤ s' → s' ≤ s + 1 → Touches maps s h₀.currDpage p →
      Working h₁ s' acc maps ds p c → (ChainsLaid h₀ acc ds → ChainsHeld h₀.hdr.bsize acc ds p c) →
      ((h₀.currDpage ≠ invalidPgno → Tip h₀ acc) → Ended c) → Knows h₁ s' acc (⟨id, p, c⟩ :: hand) hashp' →
      Q (p, false) (some id, p) hashp') :
    Wp adm (dataPage false) hashp fun fpage mid =>
      Wp adm (getPage fpage.1 hashDataPage { create := true }) mid (Q fpage) := by
  rcases laid.current with unstarted | current
  · refine wp_dataPage_first h unstarted (by omega) fun mid known => ?_
    refine wp_getNew known (fun _ => laid.pos) le_rfl (by omega) (by decide) fun id raw hashp' known => ?_
    have word : s < 0x100000000 := by simp only [maxPageNumber] at few; omega
    have out : ∀ d ∈ ds, s ∉ d.all := fun d mem on => lt_irrefl s (laid.used d mem s on).1.2
    refine next (setSpares (h₀.hdr.ovflPoint + 1) (s + 1) { h₀ with currDpage := s }) (s + 1) id s _ hashp' rfl
      (Nat.le_succ s) le_rfl (.inr (.inr le_rfl)) ?_
      (fun chains => ⟨chains.1, beginning_unused out ▸ chained_initPage laid.page⟩) (fun _ => ended_initPage) known
    exact {
      page := laid.page
      pos := Nat.succ_pos s
      stock := ⟨laid.stock.head, laid.stock.onPages, laid.stock.nodup, fun p mem =>
        ⟨(laid.stock.bound p mem).1, (laid.stock.bound p mem).2.trans (Nat.lt_succ_self s)⟩⟩
      placed := laid.placed
      on := laid.on
      used := fun d mem p on => (laid.used d mem p on).imp_left fun both => ⟨both.1, both.2.trans (Nat.lt_succ_self s)⟩
      apart := laid.apart
      started := ⟨Function.update_self .., Nat.lt_succ_self s, le_rfl, by omega⟩
      cur := rfl
      some := laid.pos
      free := fun listed => lt_irrefl s (laid.stock.bound s listed).2
      unlinked := fun d mem link => out d mem (Datum.links_page link)
      opens := opens_initPage word laid.page out
      bears := bears_blank out }
  · refine wp_dataPage_current h current.started ?_
    refine wp_getPage h apart (fun _ => current.some) current.started.cur rfl (.inl rfl)
      (fun q => wp_address_other (by decide) q)
      fun id mem hashp' known holds => ?_
    have made : h₀.currDpage ≠ invalidPgno := by
      have := current.started.cur
      simp only [maxPageNumber, invalidPgno] at few ⊢
      omega
    refine next h₀ s id h₀.currDpage _ hashp' (.refl h₀) le_rfl (Nat.le_succ s) (.inl rfl) ?_ (fun chains => ?_)
      (fun tip => ?_) known
    have word : h₀.currDpage < 0x100000000 := by
      have := current.started.cur
      simp only [maxPageNumber] at few
      omega
    refine { toFiled := laid.toFiled, started := current.started, cur := rfl, some := current.some,
             free := current.free, unlinked := current.unlinked, opens := ?_, bears := ?_ }
    · rcases current.opens mem holds with opens | ⟨unmade, out⟩
      · rw [opened, if_neg (by rw [opens.number]; exact fun none => current.some.ne' none.2)]
        exact opens
      · rw [opened, if_pos ⟨rfl, unmade.currPgno⟩]
        exact opens_initPage word laid.page out
    · rcases current.opens mem holds with opens | ⟨_, out⟩
      · rw [opened, if_neg (by rw [opens.number]; exact fun none => current.some.ne' none.2)]
        exact fun d memd on => laid.on d memd _ on mem holds
      · exact bears_blank out
    · refine ⟨chains.1, ?_⟩
      rcases current.opens mem holds with opens | ⟨unmade, out⟩
      · rw [opened, if_neg (by rw [opens.number]; exact fun none => current.some.ne' none.2)]
        exact (chains.2 made mem holds).resolve_left fun unmade => unmade.not_signed opens.signed
      · rw [opened, if_pos ⟨rfl, unmade.currPgno⟩, beginning_unused out]
        exact chained_initPage laid.page
    · unfold opened
      split
      · exact ended_initPage
      · exact (tip made).ended mem holds

def Account.also (acc : Account) (p : Nat) (mem : Page) : Account where
  holds q c := acc.holds q c ∨ (q = p ∧ Agree c mem)
  agree holds agree := by
    rcases holds with holds | ⟨same, agree'⟩
    · exact .inl (acc.agree holds agree)
    · exact .inr ⟨same, agree.trans agree'⟩

theorem Filed.also (f : Filed h₀ s acc maps ds) (out : p ∉ maps.pages) (bears : Bears h₀ ds p c) :
    Filed h₀ s (acc.also p c) maps ds where
  page := f.page
  pos := f.pos
  stock := ⟨f.stock.head, f.stock.onPages.congr fun q d mem holds => holds.resolve_right fun both =>
    out (both.1 ▸ mem), f.stock.nodup, f.stock.bound⟩
  placed := f.placed
  on d mem q memq x holds := by
    rcases holds with holds | ⟨rfl, agree⟩
    · exact f.on d mem q memq x holds
    · exact (bears d mem memq).agree (f.placed d mem) agree
  used := f.used
  apart := f.apart

theorem Working.link (w : Working h₀ s acc maps ds p c) {a : Nat} (place : 4 ≤ a) (head : a ≤ 8) (v : Nat) :
    Working h₀ s acc maps ds p (c.write32 a v) := by
  have signed : Pagepool.Signed (c.write32 a v) := (Lib.Mem.read32_write32 (by omega)).trans w.opens.signed
  have number : Page.currPgno (c.write32 a v) = c.currPgno := Lib.Mem.read32_write32 (by omega)
  have count : Page.numEnt (c.write32 a v) = c.numEnt := Lib.Mem.read16_write32 (by omega)
  have offset : Page.offset (c.write32 a v) = c.offset := Lib.Mem.read32_write32 (by omega)
  exact { w with
    opens := ⟨signed, number.trans w.opens.number, by rw [offset, count]; exact w.opens.offset⟩
    bears := w.bears.congr w.unlinked signed number (fun pos => count ▸ pos) fun d mem i owns => by
      have high := (w.placed d mem).owns_high owns
      exact Lib.Mem.write32_outside (by simp only [bigPageOverhead] at high; omega) }

theorem wp_openDataPage (h : Knows h₀ s acc (⟨id, p, c⟩ :: hand) hashp) (w : Working h₀ s acc maps ds p c)
    (few : s + 1 < maxPageNumber) (apart : ∀ q ∈ maps.pages, q ∉ numbers hand)
    {Q : Option (Nat × Nat × Nat) → Htab → Prop}
    (next : ∀ h₁ s' acc' maps' id' p' c' hashp', Onward h₀ s acc maps p h₁ s' acc' maps' → s' ≤ s + 1 →
      Touches maps s p p' → Working h₁ s' acc' maps' ds p' c' → c'.offset ≠ 0 →
      (ChainsHeld h₀.hdr.bsize acc ds p c → ChainsHeld h₀.hdr.bsize acc' ds p' c') → (Ended c → Ended c') →
      Knows h₁ s' acc' (⟨id', p', c'⟩ :: hand) hashp' → Q (some (id', p', c'.offset)) hashp') :
    Wp adm (openDataPage id p) hashp Q := by
  refine wp_bind (wp_page h List.mem_cons_self ?_)
  dsimp only
  by_cases full : c.offset = 0
  · rw [if_pos full]
    have apart' : ∀ q ∈ maps.pages, q ∉ numbers (⟨id, p, c⟩ :: hand) := by
      intro q mem both
      rcases List.mem_cons.mp both with same | held
      · exact w.free ((show q = p from same) ▸ mem)
      · exact apart q mem held
    refine wp_bind (wp_dataPage h w.stock w.started few apart' fun n reuse h₁ acc₁ maps₁ s₁ mid given cur known => ?_)
    have new : n ≠ p := by
      rintro rfl
      cases reuse with
      | true => exact w.free (given.reused rfl).1
      | false =>
        have := (given.fresh rfl).1
        have := w.started.cur
        have := w.cur
        omega
    have limit : max s (n + 1) = s₁ ∧ s₁ ≤ s + 1 := by
      cases reuse with
      | true =>
        obtain ⟨mem, rfl⟩ := given.reused rfl
        exact ⟨max_eq_left (w.stock.bound n mem).2, Nat.le_succ _⟩
      | false =>
        obtain ⟨rfl, rfl⟩ := given.fresh rfl
        exact ⟨max_eq_right (Nat.le_succ _), le_rfl⟩
    refine wp_bind (wp_getGiven known (fun _ => (given.low w.stock w.started).1)
      (fun yes => ⟨(w.stock.bound n (given.reused yes).1).2, apart' n (given.reused yes).1⟩)
      (fun no => ?_) (by decide) fun id' mem mid known blank => ?_)
    · obtain ⟨rfl, _⟩ := given.fresh no
      exact ⟨le_rfl, few⟩
    rw [limit.1] at known
    refine wp_initGiven known blank fun raw mid known => ?_
    refine wp_bind (wp_store known.swap _ fun mid known => wp_bind (wp_store known.swap _ fun mid known => ?_))
    refine wp_bind (wp_noteSlip ?_)
    have outMap : p ∉ maps₁.pages := fun listed => w.free (given.sub p listed)
    have linked := w.link (a := 8) (by omega) le_rfl n
    have first : Working h₁ s₁ (acc₁.also p (c.setNextPgno n)) maps₁ ds n
        ((FileHash.initPage h₁.hdr.bsize raw n hashDataPage).setPrevPgno p) := by
      have word : n < 0x100000000 := by
        have := (given.low w.stock w.started).2
        simp only [maxPageNumber] at few
        omega
      have out : ∀ d ∈ ds, n ∉ d.all := fun d mem => w.toFiled.unused given mem
      exact Working.link {
        toFiled := (w.toFiled.given given).also outMap (linked.bears.renumbered given.renumbered)
        started := ⟨given.started.spares, given.started.cur, le_rfl, given.started.few⟩
        cur := cur
        some := (given.low w.stock w.started).1
        free := given.out
        unlinked := fun d mem link => out d mem (Datum.links_page link)
        opens := opens_initPage word (given.renumbered.facts.1 ▸ w.page) out
        bears := bears_blank out } le_rfl (by omega) p
    have others : ∀ q x, q ≠ p → acc₁.holds q x → (acc₁.also p (c.setNextPgno n)).holds q x := fun q x _ => .inl
    refine wp_bind (wp_putPage known.swap linked.opens.signed others (.inr ⟨rfl, .refl _⟩) (fun _ x => .inl)
      fun mid known => ?_)
    refine wp_bind (wp_page known List.mem_cons_self (wp_pure ?_))
    refine next h₁ s₁ _ maps₁ id' n _ mid ?_ limit.2 ?_ first ?_ (fun chains => ⟨?_, ?_⟩)
      (fun _ => Ended.setPrev (c := FileHash.initPage h₁.hdr.bsize raw n hashDataPage) ended_initPage p) known
    · refine ⟨given.renumbered, given.started.le, given.sub, fun q x out => ?_, cur ▸ given.touches⟩
      rw [Touches, not_or, not_or] at out
      refine Iff.trans ⟨fun holds => holds.resolve_right fun both => out.1 both.1, .inl⟩ (given.same q x out.2.1)
    · exact given.touches
    · have none : Page.offset ((FileHash.initPage h₁.hdr.bsize raw n hashDataPage).setPrevPgno p) = bigPageOverhead :=
        (Lib.Mem.read32_write32 (by omega)).trans offset_initPage_data
      rw [none]
      decide
    · intro q used x holds
      rcases holds with was | ⟨rfl, same⟩
      · obtain ⟨d, mem, on⟩ := used
        exact chains.1 q ⟨d, mem, on⟩ x ((given.same q x (w.used d mem q on).2).mp was)
      · exact (chains.2.link (by omega) le_rfl).agree same
    · rw [beginning_unused fun d mem => w.toFiled.unused given mem, given.renumbered.facts.1]
      exact (chained_initPage w.page).link le_rfl (by omega)
  · rw [if_neg full]
    exact wp_pure (next h₀ s acc maps id p c hashp (.refl w.cur) (Nat.le_succ s)
      (.inl rfl) w full (fun chains => chains)
      (fun ended => ended) h)

def Format (version flag : Nat) : Prop :=
  (version = ffdbVersion5 ∧ flag = dataValid5) ∨ (version = ffdbVersion ∧ flag = dataValid)

/-- Lengths a version has words for. -/
def Storable (version size : Nat) : Prop :=
  size ≤ 0xffffffff ∨ (ffdbVersion5 < version ∧ size ≤ ffdbMaxDatasize)

theorem Storable.le {version size : Nat} (h : Storable version size) : size ≤ ffdbMaxDatasize :=
  h.elim (fun small => small.trans (by decide)) And.right

theorem Storable.word {size : Nat} (h : Storable ffdbVersion5 size) : u32 size = size := by
  refine Nat.mod_eq_of_lt (Nat.lt_succ_of_le (h.resolve_right fun new => ?_))
  exact absurd new.1 (by decide)

section NewDatum

variable {version flag size start kp ki : Nat} {val : Dbt}

theorem realDataLen_insert (small : size ≤ ffdbMaxDatasize) (o : Nat) :
    realDataLen (u32 size) (insertLenToPgoffset size o) = size := by
  simp only [realDataLen, u32, getLenFromPgoffset, insertLenToPgoffset, dlenHighBits, ffdbMaxDatasize] at *
  omega

theorem getPgoffset_insert {o : Nat} : getPgoffset (insertLenToPgoffset size o) = getPgoffset o := by
  simp only [getPgoffset, insertLenToPgoffset]
  omega

theorem getPgoffset_low (low : start < 0x100000) : getPgoffset start = start := Nat.mod_eq_of_lt low

theorem heads_dataHeader (format : Format version flag) (storable : Storable version val.size) {d : Datum}
    (same : d.bytes = val.bytes) : d.Heads version flag (dataHeader version flag val d.keyPage d.keyIdx) := by
  have length : d.bytes.length = val.size := by rw [same, Dbt.bytes, Lib.Mem.length_bytes]
  refine ⟨?_, ?_, rfl, rfl⟩
  · rw [length]
    rcases format with ⟨rfl, rfl⟩ | ⟨rfl, rfl⟩
    · rw [Datum.headerLen, if_neg (by decide)]
      exact storable.word
    · rw [Datum.headerLen, if_pos (by decide)]
      by_cases huge : isHugeData val.size = true
      · rw [dataHeader, if_pos ⟨by decide, huge⟩]
        exact realDataLen_insert storable.le dataValid
      · rw [dataHeader, if_neg fun both => huge both.2]
        simp only [isHugeData, decide_eq_true_eq] at huge
        simp only [realDataLen, u32, getLenFromPgoffset, dataValid]
        omega
  · rcases format with ⟨rfl, rfl⟩ | ⟨rfl, rfl⟩
    · rw [Datum.headerStatus, if_neg (by decide), dataHeader, if_neg fun both => absurd both.1 (by decide)]
    · rw [Datum.headerStatus, if_pos (by decide)]
      simp only [dataHeader]
      split_ifs
      · exact getPgoffset_insert
      · rfl

theorem Datum.Heads.next {d : Datum} {h : DataHeader} (heads : d.Heads version flag h) (n : Nat) :
    d.Heads version flag { h with next := n } := ⟨heads.len, heads.status, heads.keyPage, heads.keyIdx⟩

def Datum.pointer (version : Nat) (d : Datum) : Datap where
  first := d.first
  offset := if ffdbVersion5 < version then insertLenToPgoffset d.bytes.length d.roff else d.roff
  len := u32 d.bytes.length
  chksum := Checksum.crc32Checksum 0 d.bytes

theorem Datum.points_pointer {d : Datum} (format : Format version flag) (storable : Storable version d.bytes.length)
    (low : d.roff < 0x100000) : d.Points version (d.pointer version) := by
  refine ⟨rfl, ?_, ?_, rfl⟩
  · rw [dataOffset, pointer]
    split_ifs
    · exact getPgoffset_insert.trans (getPgoffset_low low)
    · rfl
  · rw [dataLen, pointer]
    rcases format with ⟨rfl, rfl⟩ | ⟨rfl, rfl⟩
    · rw [if_neg (by decide)]
      exact storable.word
    · rw [if_pos (by decide), if_pos (by decide)]
      exact realDataLen_insert storable.le d.roff

structure Wrote (start : Nat) (h : DataHeader) (val : Dbt) (len next : Nat) (c c' : Page) : Prop where
  sign : c'.pageSign = c.pageSign
  number : c'.currPgno = c.currPgno
  count : c'.numEnt = (c.numEnt + 1) % 65536
  offset : c'.offset = next
  first : c'.firstDataPos = c.firstDataPos
  header : c'.readHeader start = h
  bytes : (Lib.Mem.drop c' (start + bigDataOverhead)).bytes len = val.data.bytes len
  same : ∀ i, bigPageOverhead ≤ i → i < start ∨ start + bigDataOverhead + len ≤ i → c' i = c i

theorem count_offset_outside {off n i : Nat} (high : bigPageOverhead ≤ i) :
    ((c.setOffset off).setNumEnt n) i = c i := by
  simp only [bigPageOverhead] at high
  exact (Lib.Mem.write16_outside (by omega)).trans (Lib.Mem.write32_outside (by omega))

theorem wrote_wholeDatum {h : DataHeader} (low : bigPageOverhead ≤ start) (words : h.Words)
    (next : headerNext bsize start val < 0x100000000) :
    Wrote start { h with next := headerNext bsize start val } val val.size (headerNext bsize start val) c
      (wholeDatum bsize start h val c) := by
  have words' : DataHeader.Words { h with next := headerNext bsize start val } :=
    ⟨words.1, words.2.1, next, words.2.2.2.1, words.2.2.2.2⟩
  simp only [bigPageOverhead] at low
  constructor
  · simp only [wholeDatum, pageSign, setNumEnt, setOffset, writeHeader]
    rw [Lib.Mem.read32_write16 (by omega), Lib.Mem.read32_write32 (by omega), Lib.Mem.read32_copy (.inr (by omega))]
    simp (disch := omega) only [Lib.Mem.read32_write32]
  · simp only [wholeDatum, currPgno, setNumEnt, setOffset, writeHeader]
    rw [Lib.Mem.read32_write16 (by omega), Lib.Mem.read32_write32 (by omega), Lib.Mem.read32_copy (.inr (by omega))]
    simp (disch := omega) only [Lib.Mem.read32_write32]
  · simp only [wholeDatum, numEnt, setNumEnt, setOffset, writeHeader]
    rw [Lib.Mem.read16_write16_same, Lib.Mem.read16_copy (.inr (by omega))]
    simp (disch := omega) only [Lib.Mem.read16_write32]
  · simp only [wholeDatum, Page.offset, setNumEnt, setOffset]
    rw [Lib.Mem.read32_write16 (by omega), Lib.Mem.read32_write32_same, Nat.mod_eq_of_lt next]
  · simp only [wholeDatum, firstDataPos, setNumEnt, setOffset, writeHeader]
    rw [Lib.Mem.read32_write16 (by omega), Lib.Mem.read32_write32 (by omega), Lib.Mem.read32_copy (.inr (by omega))]
    simp (disch := omega) only [Lib.Mem.read32_write32]
  · refine (readHeader_congr fun i begins ends => ?_).trans (readHeader_writeHeader (c := c) (a := start) words')
    rw [wholeDatum, count_offset_outside (by simp only [bigPageOverhead]; omega)]
    exact Lib.Mem.copy_outside (.inl ends)
  · refine (Lib.Mem.bytes_congr fun i _ => ?_).trans (Lib.Mem.bytes_drop_copy
      (m := c.writeHeader start { h with next := headerNext bsize start val }) (a := start + bigDataOverhead))
    simp only [wholeDatum, Lib.Mem.drop]
    exact count_offset_outside (by simp only [bigPageOverhead]; omega)
  · intro i high out
    rw [wholeDatum, count_offset_outside high, Lib.Mem.copy_outside (by omega)]
    exact writeHeader_outside (by omega)

theorem wrote_headHeader {h : DataHeader} {fp fspace : Nat} (low : bigPageOverhead ≤ start) (words : h.Words) :
    Wrote start h val (fspace - bigDataOverhead) 0 c (headHeader start fp h (headBytes start fspace val c)) := by
  simp only [bigPageOverhead] at low
  have behind : ∀ i, 12 ≤ i → ((Page.writeHeader (headBytes start fspace val c) start h).setNextPgno fp) i =
      (Page.writeHeader (headBytes start fspace val c) start h) i :=
    fun i high => Lib.Mem.write32_outside (by omega)
  constructor
  · simp only [headHeader, headBytes, pageSign, setNumEnt, setOffset, setNextPgno, writeHeader]
    rw [Lib.Mem.read32_write16 (by omega)]
    simp (disch := omega) only [Lib.Mem.read32_write32]
    exact Lib.Mem.read32_copy (.inr (by omega))
  · simp only [headHeader, headBytes, currPgno, setNumEnt, setOffset, setNextPgno, writeHeader]
    rw [Lib.Mem.read32_write16 (by omega)]
    simp (disch := omega) only [Lib.Mem.read32_write32]
    exact Lib.Mem.read32_copy (.inr (by omega))
  · simp only [headHeader, headBytes, numEnt, setNumEnt, setOffset, setNextPgno, writeHeader]
    rw [Lib.Mem.read16_write16_same]
    simp (disch := omega) only [Lib.Mem.read16_write32]
    rw [Lib.Mem.read16_copy (.inr (by omega))]
  · simp only [headHeader, Page.offset, setNumEnt, setOffset]
    rw [Lib.Mem.read32_write16 (by omega), Lib.Mem.read32_write32_same]
  · simp only [headHeader, headBytes, firstDataPos, setNumEnt, setOffset, setNextPgno, writeHeader]
    rw [Lib.Mem.read32_write16 (by omega)]
    simp (disch := omega) only [Lib.Mem.read32_write32]
    exact Lib.Mem.read32_copy (.inr (by omega))
  · refine (readHeader_congr fun i begins ends => ?_).trans
      (readHeader_writeHeader (c := headBytes start fspace val c) (a := start) words)
    rw [headHeader, count_offset_outside (by simp only [bigPageOverhead]; omega)]
    exact behind i (by omega)
  · refine (Lib.Mem.bytes_congr fun i _ => ?_).trans
      (Lib.Mem.bytes_drop_copy (m := c) (a := start + bigDataOverhead))
    simp only [Lib.Mem.drop, headHeader]
    rw [count_offset_outside (by simp only [bigPageOverhead]; omega), behind _ (by omega)]
    exact writeHeader_outside (.inr (by omega))
  · intro i high out
    simp only [bigPageOverhead] at high
    rw [headHeader, count_offset_outside high, behind i (by omega), writeHeader_outside (by omega)]
    exact Lib.Mem.copy_outside (by omega)

theorem nextPgno_headHeader {h : DataHeader} {fp : Nat} (word : fp < 0x100000000) :
    Page.nextPgno (headHeader start fp h c) = fp := by
  simp only [headHeader, nextPgno, setNumEnt, setOffset, setNextPgno]
  rw [Lib.Mem.read32_write16 (by omega), Lib.Mem.read32_write32 (by omega), Lib.Mem.read32_write32_same]
  exact Nat.mod_eq_of_lt word

theorem dataHeader_words (format : Format version flag) (word : kp < 0x100000000 ∧ ki < 0x100000000) :
    (dataHeader version flag val kp ki).Words := by
  refine ⟨Nat.mod_lt _ (by decide), ?_, show (0 : Nat) < 0x100000000 by decide, word⟩
  simp only [dataHeader]
  split_ifs
  · simp only [insertLenToPgoffset, dlenHighBits]
    omega
  · rcases format with ⟨_, rfl⟩ | ⟨_, rfl⟩ <;> decide

end NewDatum

section Adding

variable {h : DataHeader} {val : Dbt} {start len next : Nat} {d : Datum}

theorem Working.wrote (w : Working h₀ s acc maps ds p c) (room : c.offset ≠ 0)
    (wrote : Wrote c.offset h val len next c c') :
    Pagepool.Signed c' ∧ c'.currPgno = p ∧ c'.numEnt = c.numEnt + 1 ∧ Bears h₀ ds p c' := by
  obtain ⟨full, fits, words, behind⟩ := w.opens.offset.resolve_left room
  have most := w.page.most
  have count : c'.numEnt = c.numEnt + 1 := by
    rw [wrote.count]
    refine Nat.mod_eq_of_lt ?_
    simp only [bigPageOverhead, bigDataOverhead, maxBsize] at *
    omega
  have signed : Pagepool.Signed c' := wrote.sign.trans w.opens.signed
  refine ⟨signed, wrote.number.trans w.opens.number, count, ?_⟩
  refine w.bears.congr w.unlinked signed wrote.number (fun _ => by omega) fun d mem i owns => ?_
  refine wrote.same i ((w.placed d mem).owns_high owns) (.inl ?_)
  by_contra far
  exact behind d mem i (not_lt.mp far) owns

theorem Working.apart_new (w : Working h₀ s acc maps ds p c) (room : c.offset ≠ 0) (first : d.first = p)
    (roff : d.roff = c.offset) (out : ∀ d' ∈ ds, ∀ q ∈ d.pages, q ∉ d'.all) :
    ∀ d' ∈ ds, d.Apart h₀.hdr.bsize d' := by
  intro d' mem
  have behind := (w.opens.offset.resolve_left room).2.2.2 d' mem
  constructor
  · rintro q i (⟨rfl, low, _⟩ | ⟨part, memp, rfl, low, _⟩) owns
    · exact behind i (roff ▸ low) (first ▸ owns)
    · rcases List.mem_cons.mp memp with rfl | later
      · exact behind i (by simp only at low; omega) (first ▸ owns)
      · have page : part.page ∈ d.pages := by
          have pages := List.mem_map_of_mem later (f := Part.page)
          rwa [tailParts_pages] at pages
        exact out d' mem _ page (Datum.owns_page owns)
  · intro q link link'
    rcases List.mem_cons.mp (Datum.links_page link) with rfl | later
    · exact w.unlinked d' mem (first ▸ link')
    · exact out d' mem q later (Datum.links_page link')

theorem headerNext_room (bsize start : Nat) (val : Dbt) : headerNext bsize start val = 0 ∨
    (start + bigDataOverhead + val.size ≤ headerNext bsize start val ∧
      headerNext bsize start val + bigDataOverhead ≤ bsize ∧ headerNext bsize start val % 4 = 0) := by
  unfold headerNext
  dsimp only
  split_ifs with full
  · exact .inl rfl
  · simp only [alignAddr, bigDataTotalSize, bigDataOverhead] at *
    omega

theorem Working.chain {offs : List Nat} (w : Working h₀ s acc maps ds p c) (room : c.offset ≠ 0)
    (wrote : Wrote c.offset h val len next c c') (follows : h.next = next)
    (free : next = 0 ∨ (next % 4 = 0 ∧ next + bigDataOverhead ≤ h₀.hdr.bsize ∧ c.offset + bigDataOverhead ≤ next))
    (chain : Chained h₀.hdr.bsize offs c) : Chained h₀.hdr.bsize (offs ++ [c.offset]) c' := by
  refine chain.snoc room wrote.first (w.wrote room wrote).2.2.1 ?_ (fun i low less => wrote.same i low (.inl less)) ?_
  · rw [wrote.header, wrote.offset, follows]
  · rw [wrote.offset]
    exact free

/-- The place and the bytes of a datum that fits the rest of the page. -/
structure Whole (p start : Nat) (val : Dbt) (d : Datum) : Prop where
  first : d.first = p
  roff : d.roff = start
  pages : d.pages = []
  size : d.size = val.size
  bytes : d.bytes = val.bytes

theorem Whole.length (whole : Whole p start val d) : d.bytes.length = val.size := by
  rw [whole.bytes, Dbt.bytes, Lib.Mem.length_bytes]

theorem Whole.all (whole : Whole p start val d) : d.all = [p] := by
  rw [Datum.all, whole.first, whole.pages]

theorem Whole.placed (whole : Whole p start val d) (low : bigPageOverhead ≤ start)
    (fits : start + bigDataOverhead + val.size ≤ bsize) : d.Placed bsize where
  low := whole.roff ▸ low
  high := by
    rw [whole.roff]
    omega
  reaches := by
    rw [whole.pages, whole.size, Datum.headRoom, whole.roff]
    change _ = 0
    omega
  nodup := by
    rw [whole.all]
    exact List.nodup_singleton p
  fits := (whole.length.trans whole.size.symm).le

theorem Whole.parts (whole : Whole p start val d) (fits : start + bigDataOverhead + val.size ≤ bsize) :
    d.parts bsize = [⟨p, start + bigDataOverhead, val.size⟩] := by
  have least : min val.size (bsize - start - bigDataOverhead) = val.size := min_eq_left (by omega)
  rw [Datum.parts, whole.pages, whole.size, Datum.headRoom, whole.first, whole.roff, least]
  rfl

theorem Working.whole (w : Working h₀ s acc maps ds p c) (room : c.offset ≠ 0)
    (fits : c.offset + bigDataOverhead + val.size ≤ h₀.hdr.bsize) (whole : Whole p c.offset val d)
    (heads : d.Heads h₀.hdr.version h₀.dataValidFlag h)
    (wrote : Wrote c.offset h val val.size (headerNext h₀.hdr.bsize c.offset val) c c') :
    DataLaid h₀ s (acc.set p c') maps (d :: ds) := by
  obtain ⟨signed, number, count, bears⟩ := w.wrote room wrote
  obtain ⟨full, high, words, behind⟩ := w.opens.offset.resolve_left room
  have low : bigPageOverhead ≤ c.offset := (Nat.le_add_right _ _).trans full
  have place := whole.placed low fits
  have parts := whole.parts fits
  have here : d.On h₀.hdr.version h₀.dataValidFlag h₀.hdr.bsize p c' := by
    refine ⟨signed, fun _ => ⟨number, by omega, ?_⟩, ?_⟩
    · rw [whole.roff, wrote.header]
      exact heads
    · rw [parts]
      refine ⟨fun _ => ⟨?_, fun next head => by cases head⟩, trivial⟩
      dsimp only
      rw [whole.length, min_self, List.take_of_length_le whole.length.le, whole.bytes]
      exact wrote.bytes
  have owned : ∀ i, d.owns h₀.hdr.bsize p i → i < c.offset + bigDataOverhead + val.size := by
    rintro i (⟨_, _, header⟩ | ⟨part, mem, _, _, ends⟩)
    · rw [whole.roff] at header
      omega
    · rw [parts, List.mem_singleton] at mem
      rw [mem] at ends
      exact ends
  refine ⟨(w.toFiled.set w.free bears).cons place ?_ ?_ (w.apart_new room whole.first whole.roff ?_), .inr ?_⟩
  · intro q mem x holds
    rw [whole.all, List.mem_singleton] at mem
    subst mem
    exact here.agree place (Account.set_same.mp holds)
  · intro q mem
    rw [whole.all, List.mem_singleton] at mem
    subst mem
    exact ⟨⟨w.some, w.cur ▸ w.started.cur⟩, w.free⟩
  · intro d' _ q mem
    rw [whole.pages] at mem
    cases mem
  · refine ⟨w.started, w.cur ▸ w.some, w.cur ▸ w.free, ?_, ?_⟩
    · rw [w.cur]
      refine List.forall_mem_cons.mpr ⟨fun link => ?_, w.unlinked⟩
      rw [Datum.links, whole.all] at link
      cases link
    · rw [w.cur]
      intro x holds
      refine .inl (Opens.agree ⟨signed, number, ?_⟩ (Account.set_same.mp holds))
      rw [wrote.offset, count]
      refine (headerNext_room h₀.hdr.bsize c.offset val).imp_right fun ⟨beyond, header, words⟩ => ?_
      refine ⟨by simp only [bigDataOverhead] at *; omega, header, words, ?_⟩
      refine List.forall_mem_cons.mpr ⟨fun i far owns => ?_, fun d' mem i far => behind d' mem i (by omega)⟩
      have := owned i owns
      omega

theorem Working.made (w : Working h₀ s acc maps ds p c) : h₀.currDpage ≠ invalidPgno := by
  have cur := w.started.cur
  have few := w.started.few
  simp only [maxPageNumber, invalidPgno] at few ⊢
  omega

theorem Working.tip (w : Working h₀ s acc maps ds p c) (ended : Ended c') : Tip h₀ (acc.set p c') := by
  refine ⟨w.made, fun x holds => ?_⟩
  rw [w.cur] at holds
  exact ended.agree (Account.set_same.mp holds)

theorem Working.whole_chains (w : Working h₀ s acc maps ds p c) (room : c.offset ≠ 0) (whole : Whole p c.offset val d)
    (follows : h.next = headerNext h₀.hdr.bsize c.offset val)
    (wrote : Wrote c.offset h val val.size (headerNext h₀.hdr.bsize c.offset val) c c')
    (chains : ChainsHeld h₀.hdr.bsize acc ds p c) : ChainsLaid h₀ (acc.set p c') (d :: ds) := by
  have here : Chained h₀.hdr.bsize (beginning (d :: ds) p) c' := by
    rw [← whole.first, beginning_self, whole.first, whole.roff]
    refine w.chain room wrote follows ?_ chains.2
    refine (headerNext_room h₀.hdr.bsize c.offset val).imp_right fun ⟨beyond, header, words⟩ => ⟨words, header, ?_⟩
    omega
  refine ⟨fun q used x holds => ?_, fun _ x holds => .inr ?_⟩
  · by_cases same : q = p
    · subst same
      exact here.agree (Account.set_same.mp holds)
    · rw [beginning_other fun first => same (first.symm.trans whole.first)]
      obtain ⟨e, mem, on⟩ := used
      rcases List.mem_cons.mp mem with rfl | old
      · rw [whole.all, List.mem_singleton] at on
        exact absurd on same
      · exact chains.1 q ⟨e, old, on⟩ x ((Account.set_other same).mp holds)
  · rw [w.cur] at holds ⊢
    exact here.agree (Account.set_same.mp holds)

section Split

variable {h₂ : Htab} {s₁ s₂ n : Nat} {acc₁ acc₂ : Account} {maps₁ maps₂ : FreeMap} {ps : List Nat} {reuse : Bool}
  {bytes : List UInt8}

theorem Tail.from_free (given : Given h₀ s s acc maps n reuse h₁ acc₁ maps₁ s₁)
    (tail : Tail h₁ h₂ s₁ s₂ acc₁ acc₂ maps₁ maps₂ bytes n ps) : ∀ q ∈ ps, q ∈ maps.pages ∨ s ≤ q := by
  intro q mem
  rcases (tail.place q mem).2.2 with rfl | free | high
  · cases reuse with
    | true => exact .inl (given.reused rfl).1
    | false => exact .inr (given.fresh rfl).1.ge
  · exact .inl (given.sub q free)
  · exact .inr (given.started.le.trans high)

theorem Filed.tail (f : Filed h₁ s₁ acc₁ maps₁ ds) (tail : Tail h₁ h₂ s₁ s₂ acc₁ acc₂ maps₁ maps₂ bytes n ps)
    (out : ∀ d ∈ ds, ∀ q ∈ ps, q ∉ d.all) : Filed h₂ s₂ acc₂ maps₂ ds := by
  obtain ⟨size, _, _⟩ := tail.renumbered.facts
  exact {
    page := size ▸ f.page
    pos := f.pos.trans_le tail.grows
    stock := tail.stock
    placed := size ▸ f.placed
    on := fun d mem => by
      refine Datum.OnPages.renumbered (fun q memq x holds => f.on d mem q memq x ?_) tail.renumbered
      exact (tail.same q x (fun listed => out d mem q listed memq) (f.used d mem q memq).2).mp holds
    used := fun d mem q memq => by
      obtain ⟨low, free⟩ := f.used d mem q memq
      exact ⟨⟨low.1, low.2.trans_le tail.grows⟩, fun listed => free (tail.sub q listed)⟩
    apart := size ▸ f.apart }

structure Parted (bsize p start : Nat) (val : Dbt) (ps : List Nat) (d : Datum) : Prop where
  first : d.first = p
  roff : d.roff = start
  pages : d.pages = ps
  size : d.size = val.size
  bytes : d.bytes = val.bytes
  header : start + bigDataOverhead ≤ bsize
  more : bsize ≤ start + bigDataOverhead + val.size

variable {start : Nat}

theorem Parted.length (parted : Parted bsize p start val ps d) : d.bytes.length = val.size := by
  rw [parted.bytes, Dbt.bytes, Lib.Mem.length_bytes]

theorem Parted.all (parted : Parted bsize p start val ps d) : d.all = p :: ps := by
  rw [Datum.all, parted.first, parted.pages]

theorem Parted.headRoom (parted : Parted bsize p start val ps d) :
    d.headRoom bsize = bsize - start - bigDataOverhead ∧ d.headRoom bsize ≤ val.size := by
  have := parted.more
  rw [Datum.headRoom, parted.roff]
  exact ⟨rfl, by omega⟩

theorem Parted.parts (parted : Parted bsize p start val ps d) :
    d.parts bsize = ⟨p, start + bigDataOverhead, d.headRoom bsize⟩ :: tailParts bsize ps
      (val.size - d.headRoom bsize) := by
  rw [Datum.parts, parted.pages, parted.size, parted.first, parted.roff, min_eq_right parted.headRoom.2]

theorem Working.split (w : Working h₀ s acc maps ds p c) (room : c.offset ≠ 0)
    (parted : Parted h₀.hdr.bsize p c.offset val ps d)
    (given : Given h₀ s s acc maps n reuse h₁ acc₁ maps₁ s₁)
    (tail : Tail h₁ h₂ s₁ s₂ acc₁ acc₂ maps₁ maps₂ (val.bytes.drop (d.headRoom h₀.hdr.bsize)) n ps)
    (heads : d.Heads h₀.hdr.version h₀.dataValidFlag h)
    (wrote : Wrote c.offset h val (d.headRoom h₀.hdr.bsize) 0 c c') (link : c'.nextPgno = n) :
    DataLaid h₂ s₂ (acc₂.set p c') maps₂ (d :: ds) ∧ Onward h₀ s acc maps p h₂ s₂ (acc₂.set p c') maps₂ := by
  obtain ⟨signed, number, count, bears⟩ := w.wrote room wrote
  obtain ⟨full, high, words, behind⟩ := w.opens.offset.resolve_left room
  have low : bigPageOverhead ≤ c.offset := (Nat.le_add_right _ _).trans full
  have below : p < s := w.cur ▸ w.started.cur
  have fresh := tail.from_free given
  have outP : p ∉ ps := fun mem => (fresh p mem).elim w.free fun far => absurd below (not_lt.mpr far)
  have out : ∀ d' ∈ ds, ∀ q ∈ ps, q ∉ d'.all := fun d' mem q memq on => by
    obtain ⟨low', free⟩ := w.used d' mem q on
    exact (fresh q memq).elim free fun far => absurd low'.2 (not_lt.mpr far)
  have outMap : p ∉ maps₂.pages := fun mem => w.free (given.sub p (tail.sub p mem))
  have renumbered := given.renumbered.trans tail.renumbered
  obtain ⟨size, _, _⟩ := renumbered.facts
  obtain ⟨size₁, _, _⟩ := given.renumbered.facts
  have tailLength : (val.bytes.drop (d.headRoom h₀.hdr.bsize)).length = val.size - d.headRoom h₀.hdr.bsize := by
    rw [List.length_drop, Dbt.bytes, Lib.Mem.length_bytes]
  have place : d.Placed h₀.hdr.bsize := by
    refine ⟨parted.roff ▸ low, parted.roff ▸ high, ?_, ?_, (parted.length.trans parted.size.symm).le⟩
    · rw [parted.pages, parted.size, ← tailLength]
      exact size₁ ▸ tail.reaches
    · rw [parted.all]
      exact List.nodup_cons.mpr ⟨outP, tail.nodup⟩
  have filed : Filed h₂ s₂ (acc₂.set p c') maps₂ ds :=
    ((w.toFiled.given given).tail tail out).set outMap (bears.renumbered renumbered)
  have on : d.OnPages h₀ (acc₂.set p c') := by
    intro q mem x holds
    rw [parted.all] at mem
    by_cases here : q = p
    · subst here
      refine Datum.On.agree ⟨signed, fun _ => ⟨number, by omega, ?_⟩, ?_⟩ place (Account.set_same.mp holds)
      · rw [parted.roff, wrote.header]
        exact heads
      · rw [parted.parts]
        refine ⟨fun _ => ⟨?_, fun next head => ?_⟩, Part.spelled_elsewhere (by rw [tailParts_pages]; exact outP)⟩
        · dsimp only
          rw [parted.length, min_eq_left parted.headRoom.2, parted.bytes]
          exact wrote.bytes.trans (Lib.Mem.bytes_take parted.headRoom.2)
        · rw [link]
          have first := tail.head
          cases ps with
          | nil => cases first
          | cons r rs =>
            cases first
            cases head
            rfl
    · have later := (List.mem_cons.mp mem).resolve_left here
      obtain ⟨signed, spelled⟩ := tail.lies q later x ((Account.set_other here).mp holds)
      refine ⟨signed, fun first => absurd (first.trans parted.first) here, ?_⟩
      rw [tailLength, size₁] at spelled
      rw [parted.parts, parted.bytes]
      exact ⟨fun first => absurd first here, spelled⟩
  have cur : h₂.currDpage ∈ ps := List.mem_of_getLast? tail.cur
  have ne : h₂.currDpage ≠ p := fun same => outP (same ▸ cur)
  have started := tail.started
  refine ⟨⟨filed.cons (size ▸ place) (on.renumbered renumbered) ?_ ?_, .inr ?_⟩, ?_⟩
  · intro q mem
    rw [parted.all] at mem
    rcases List.mem_cons.mp mem with rfl | later
    · exact ⟨⟨w.some, below.trans_le (given.started.le.trans tail.grows)⟩, outMap⟩
    · have some : 0 < q := (fresh q later).elim (fun free => (w.stock.bound q free).1) w.pos.trans_le
      exact ⟨⟨some, (tail.place q later).1⟩, (tail.place q later).2.1⟩
  · rw [size]
    exact w.apart_new room parted.first parted.roff (parted.pages ▸ out)
  · refine ⟨started, ?_, (tail.place _ cur).2.1, ?_, fun x holds => .inl ?_⟩
    · rcases fresh _ cur with free | far
      · exact (w.stock.bound _ free).1
      · exact w.pos.trans_le far
    · refine List.forall_mem_cons.mpr ⟨fun link => ?_, fun d' mem link => out d' mem _ cur (Datum.links_page link)⟩
      have whole : (p :: ps).dropLast ++ [h₂.currDpage] = p :: ps :=
        List.dropLast_append_getLast? _ (by rw [List.getLast?_cons, tail.cur]; rfl)
      have nodup : (p :: ps).Nodup := List.nodup_cons.mpr ⟨outP, tail.nodup⟩
      rw [← whole] at nodup
      rw [Datum.links, parted.all] at link
      exact (List.nodup_append.mp nodup).2.2 _ link _ (List.mem_singleton_self _) rfl
    · obtain ⟨signed, number, count, room⟩ := tail.opens x ((Account.set_other ne).mp holds)
      refine ⟨signed, number, ?_⟩
      rw [count, size, ← size₁]
      refine room.imp_right (And.imp_right (And.imp_right (And.imp_right fun ends => ?_)))
      refine List.forall_mem_cons.mpr ⟨?_, fun d' mem i _ owns => out d' mem _ cur (Datum.owns_page owns)⟩
      rintro i far (⟨first, _⟩ | ⟨part, mem, page, _, last⟩)
      · exact ne (first.trans parted.first)
      · rw [size₁, parted.parts] at mem
        rcases List.mem_cons.mp mem with rfl | later
        · exact ne page
        · rw [size₁, tailLength] at ends
          have := ends part later page.symm
          omega
  · refine ⟨renumbered, given.started.le.trans tail.grows, fun q mem => given.sub q (tail.sub q mem), ?_,
      .inr (fresh _ cur)⟩
    intro q x out
    rw [Touches, not_or] at out
    rw [Account.set_other out.1, tail.same q x (fun mem => out.2 (fresh q mem)) fun mem =>
      out.2 (.inl (given.sub q mem))]
    exact given.same q x fun mem => out.2 (.inl mem)

theorem Working.split_chains (w : Working h₀ s acc maps ds p c) (room : c.offset ≠ 0)
    (parted : Parted h₀.hdr.bsize p c.offset val ps d)
    (given : Given h₀ s s acc maps n reuse h₁ acc₁ maps₁ s₁)
    (tail : Tail h₁ h₂ s₁ s₂ acc₁ acc₂ maps₁ maps₂ bytes n ps) (follows : h.next = 0)
    (wrote : Wrote c.offset h val len 0 c c') (chains : ChainsHeld h₀.hdr.bsize acc ds p c) :
    ChainsLaid h₂ (acc₂.set p c') (d :: ds) := by
  have below : p < s := w.cur ▸ w.started.cur
  have fresh := tail.from_free given
  have outP : p ∉ ps := fun mem => (fresh p mem).elim w.free fun far => absurd below (not_lt.mpr far)
  have out : ∀ q ∈ ps, ∀ e ∈ ds, q ∉ e.all := fun q memq e mem on => by
    obtain ⟨low, free⟩ := w.used e mem q on
    exact (fresh q memq).elim free fun far => absurd low.2 (not_lt.mpr far)
  have size : h₂.hdr.bsize = h₀.hdr.bsize := (given.renumbered.trans tail.renumbered).facts.1
  have size₁ : h₁.hdr.bsize = h₀.hdr.bsize := given.renumbered.facts.1
  have later : ∀ q ∈ ps, ∀ x, (acc₂.set p c').holds q x → Chained h₀.hdr.bsize (beginning (d :: ds) q) x := by
    intro q mem x holds
    have ne : q ≠ p := fun same => outP (same ▸ mem)
    rw [beginning_other fun first => ne (first.symm.trans parted.first), beginning_unused (out q mem), ← size₁]
    exact tail.chained q mem x ((Account.set_other ne).mp holds)
  refine ⟨fun q used x holds => ?_, fun _ x holds => .inr ?_⟩
  · rw [size]
    by_cases same : q = p
    · subst same
      rw [← parted.first, beginning_self, parted.first, parted.roff]
      exact (w.chain room wrote follows (.inl rfl) chains.2).agree (Account.set_same.mp holds)
    · by_cases mine : q ∈ ps
      · exact later q mine x holds
      · obtain ⟨e, mem, on⟩ := used
        rcases List.mem_cons.mp mem with rfl | old
        · rw [parted.all] at on
          exact absurd ((List.mem_cons.mp on).resolve_left same) mine
        · rw [beginning_other fun first => same (first.symm.trans parted.first)]
          have free := (w.used e old q on).2
          have was := (tail.same q x mine fun listed => free (given.sub q listed)).mp
            ((Account.set_other same).mp holds)
          exact chains.1 q ⟨e, old, on⟩ x ((given.same q x free).mp was)
  · rw [size]
    exact later _ (List.mem_of_getLast? tail.cur) x holds

theorem Working.split_tip (w : Working h₀ s acc maps ds p c) (given : Given h₀ s s acc maps n reuse h₁ acc₁ maps₁ s₁)
    (tail : Tail h₁ h₂ s₁ s₂ acc₁ acc₂ maps₁ maps₂ bytes n ps) : Tip h₂ (acc₂.set p c') := by
  have below : p < s := w.cur ▸ w.started.cur
  have mine : h₂.currDpage ∈ ps := List.mem_of_getLast? tail.cur
  have ne : h₂.currDpage ≠ p := by
    rintro rfl
    exact (tail.from_free given _ mine).elim w.free fun far => absurd below (not_lt.mpr far)
  refine ⟨?_, fun x holds => tail.ended x ((Account.set_other ne).mp holds)⟩
  have cur := tail.started.cur
  have few := tail.started.few
  simp only [maxPageNumber, invalidPgno] at few ⊢
  omega

end Split

end Adding

end FileHash.Htab
