import FileHash.DataPages
import FileHash.Contents
import FileHash.HeldPages
import Mathlib.Data.List.Nodup

/-! How page numbers are given out. The free map of a level is a chain of pages that list
free pages; when there is none, the next number of the level is taken. What is given out is
never a page in use. -/
namespace FileHash.Htab

open Lib (Prog)
open Lib.Prog (Wp wp_bind wp_pure wp_mono)
open Page

abbrev FreeMap := List (Nat × List Nat)

namespace FreeMap

def head : FreeMap → Nat
  | [] => invalidPgno
  | e :: _ => e.1

def pages (maps : FreeMap) : List Nat := maps.flatMap fun e => e.1 :: e.2

structure Lists (nums : List Nat) (next : Nat) (c : Page) : Prop where
  signed : Pagepool.Signed c
  count : c.numEnt = nums.length
  entry : ∀ i (h : i < nums.length), c.freePage i = nums[i]
  link : c.nextPgno = next ∨ c.nextPgno = invalidPgno

def OnPages (acc : Account) : FreeMap → Prop
  | [] => True
  | e :: rest => (∀ c, acc.holds e.1 c → Lists e.2 (head rest) c) ∧ OnPages acc rest

variable {acc acc' : Account} {maps : FreeMap} {nums : List Nat} {n : Nat} {c : Page}

theorem OnPages.congr (h : OnPages acc maps) (same : ∀ p c, p ∈ pages maps → acc'.holds p c → acc.holds p c) :
    OnPages acc' maps := by
  induction maps with
  | nil => trivial
  | cons e rest ih =>
    refine ⟨fun c holds => h.1 c (same _ c (by simp [pages]) holds), ih h.2 fun p c mem => same p c ?_⟩
    exact List.mem_append_right _ mem

theorem Lists.agree {next : Nat} {d : Page} (h : Lists nums next d) (same : Agree c d) :
    Lists nums next c where
  signed := same.pageSign.trans h.signed
  count := same.numEnt.trans h.count
  entry i low := (same.read32 (by simp only [freePageStart]; omega)).trans (h.entry i low)
  link := by
    rw [same.nextPgno]
    exact h.link

theorem Lists.pop {next : Nat} (h : Lists (nums ++ [n]) next c) :
    c.freePage (c.numEnt - 1) = n ∧ 0 < c.numEnt ∧ Lists nums next (c.setNumEnt (c.numEnt - 1)) := by
  have count : c.numEnt = nums.length + 1 := by rw [h.count, List.length_append, List.length_singleton]
  have word : nums.length < 65536 := by
    have : c.numEnt < 65536 := Lib.Mem.read16_lt
    omega
  have last := h.entry nums.length (by simp)
  rw [List.getElem_append_right le_rfl] at last
  simp only [Nat.sub_self, List.getElem_cons_zero] at last
  refine ⟨?_, by omega, ?_, ?_, fun i low => ?_, ?_⟩
  · rw [count, Nat.add_sub_cancel]
    exact last
  · exact (Lib.Mem.read32_write16 (by omega)).trans h.signed
  · rw [count, Nat.add_sub_cancel]
    exact Lib.Mem.read16_write16_same.trans (Nat.mod_eq_of_lt word)
  · have same : (c.setNumEnt (c.numEnt - 1)).freePage i = c.freePage i :=
      Lib.Mem.read32_write16 (by simp only [freePageStart]; omega)
    rw [same, h.entry i (by rw [List.length_append]; omega), List.getElem_append_left low]
  · have same : (c.setNumEnt (c.numEnt - 1)).nextPgno = c.nextPgno := Lib.Mem.read32_write16 (by omega)
    rw [same]
    exact h.link

end FreeMap

structure Stock (h₀ : Htab) (top : Nat) (acc : Account) (maps : FreeMap) : Prop where
  head : h₀.hdr.freePages h₀.hdr.ovflPoint = maps.head
  onPages : maps.OnPages acc
  nodup : maps.pages.Nodup
  bound : ∀ p ∈ maps.pages, 0 < p ∧ p < top

theorem Stock.set {h₀ : Htab} {top p : Nat} {acc : Account} {maps : FreeMap} {mem : Page}
    (h : Stock h₀ top acc maps) (out : p ∉ maps.pages) : Stock h₀ top (acc.set p mem) maps := by
  refine ⟨h.head, h.onPages.congr fun q c memq holds => (Account.set_other ?_).mp holds, h.nodup, h.bound⟩
  rintro rfl
  exact out memq

/-- The level has its current data page, and `s` is the next number nobody has had. -/
structure Started (h₀ : Htab) (top s : Nat) : Prop where
  spares : h₀.hdr.spares (h₀.hdr.ovflPoint + 1) = s
  cur : h₀.currDpage < s
  le : top ≤ s
  few : s < maxPageNumber

/-- Nobody has used the level: its first page will be `top`. -/
structure Unstarted (h₀ : Htab) (top : Nat) : Prop where
  spares : h₀.hdr.spares (h₀.hdr.ovflPoint + 1) = 0
  cur : h₀.currDpage = invalidPgno
  first : u32 (h₀.hdr.bucketToPage h₀.hdr.highMask + 1) = top

def Renumbered (h₀ h₁ : Htab) : Prop :=
  h₁ = { h₀ with
    hdr := { h₀.hdr with spares := h₁.hdr.spares, freePages := h₁.hdr.freePages }
    currDpage := h₁.currDpage }

theorem Renumbered.refl (h₀ : Htab) : Renumbered h₀ h₀ := rfl

theorem Renumbered.trans {h₀ h₁ h₂ : Htab} (h : Renumbered h₀ h₁) (h' : Renumbered h₁ h₂) :
    Renumbered h₀ h₂ := by
  unfold Renumbered at *
  conv_lhs => rw [h', h]

variable {h₀ h₁ hashp : Htab} {top s p id : Nat} {acc acc' : Account} {hand : List Taken} {g : Taken}
  {maps maps' : FreeMap} {mem : Page} {adm : Event → Prop} {α : Type}

theorem setFreePages_self {level v : Nat} (same : h₀.hdr.freePages level = v) : setFreePages level v h₀ = h₀ := by
  subst same
  simp only [setFreePages, setHdr, Function.update_eq_self]

/-- Page `n` is taken from the free map; nothing else changes on the pages of the account. -/
structure Dispensed (acc : Account) (maps : FreeMap) (n : Nat) (acc' : Account) (maps' : FreeMap) : Prop where
  mem : n ∈ maps.pages
  out : n ∉ maps'.pages
  sub : ∀ p ∈ maps'.pages, p ∈ maps.pages
  same : ∀ p c, p ∉ maps.pages → (acc'.holds p c ↔ acc.holds p c)
  heads : ∀ e ∈ maps', ∃ e' ∈ maps, e'.1 = e.1
  number : ∀ p c, acc'.holds p c → ∃ d, acc.holds p d ∧ c.currPgno = d.currPgno
  one : maps.tail = [] → maps'.tail = [] ∧ maps.pages.Perm (n :: maps'.pages)

/-- The page that `_ffdb_reuse_free_ovflpage` has for the taking. -/
theorem wp_reuse (h : Knows h₀ top acc hand hashp) (stock : Stock h₀ top acc maps)
    (apart : ∀ p ∈ maps.pages, p ∉ numbers hand) {Q : Nat → Htab → Prop}
    (none : maps = [] → Q 0 hashp)
    (some : ∀ n acc' maps' hashp', Dispensed acc maps n acc' maps' →
      Stock (setFreePages h₀.hdr.ovflPoint (FreeMap.head maps') h₀) top acc' maps' →
      Knows (setFreePages h₀.hdr.ovflPoint (FreeMap.head maps') h₀) top acc' hand hashp' → Q n hashp') :
    Wp adm reuseFreeOvflpage hashp Q := by
  refine wp_bind (Prog.wp_read ?_)
  rw [h.hdr]
  dsimp only
  cases maps with
  | nil =>
    rw [if_pos (show h₀.hdr.freePages h₀.hdr.ovflPoint = invalidPgno from stock.head)]
    exact wp_pure (none rfl)
  | cons e rest =>
    obtain ⟨m, nums⟩ := e
    have head : h₀.hdr.freePages h₀.hdr.ovflPoint = m := stock.head
    have first : m ∈ FreeMap.pages ((m, nums) :: rest) := by simp [FreeMap.pages]
    have bound := stock.bound m first
    have few := h.few
    rw [head, if_neg (by simp only [invalidPgno, maxPageNumber] at *; omega)]
    refine wp_bind (wp_get h (apart m first) (fun _ => bound.1) bound.2 (by decide) fun id mem hashp' h' holds => ?_)
    have lists := stock.onPages.1 mem holds
    refine wp_bind (wp_page h' List.mem_cons_self ?_)
    dsimp only
    obtain ⟨out, nodup⟩ : m ∉ nums ++ FreeMap.pages rest ∧ (nums ++ FreeMap.pages rest).Nodup :=
      List.nodup_cons.mp (show (m :: (nums ++ FreeMap.pages rest)).Nodup from stock.nodup)
    have others : ∀ (d : Page) p c, p ∉ FreeMap.pages ((m, nums) :: rest) →
        ((acc.set m d).holds p c ↔ acc.holds p c) :=
      fun d p c out => Account.set_other fun same => out (same ▸ first)
    -- what is written to the map page is not its number
    have number : ∀ d : Page, d.currPgno = mem.currPgno → ∀ p c, (acc.set m d).holds p c →
        ∃ d', acc.holds p d' ∧ c.currPgno = d'.currPgno := by
      intro d same p c told
      by_cases mine : p = m
      · subst mine
        exact ⟨mem, holds, (Account.set_same.mp told).currPgno.trans same⟩
      · exact ⟨c, (Account.set_other mine).mp told, rfl⟩
    have behind : ∀ d : Page, FreeMap.OnPages (acc.set m d) rest := by
      refine fun d => stock.onPages.2.congr fun p c memp => (Account.set_other ?_).mp
      rintro rfl
      exact out (List.mem_append_right _ memp)
    have sub : ∀ p ∈ FreeMap.pages rest, p ∈ FreeMap.pages ((m, nums) :: rest) :=
      fun p memp => List.mem_cons_of_mem _ (List.mem_append_right _ memp)
    rcases nums.eq_nil_or_concat with rfl | ⟨nums, n, rfl⟩
    · rw [if_neg (by rw [lists.count]; exact lt_irrefl 0)]
      refine wp_bind (wp_putDirty h' lists.signed fun hashp'' h'' => ?_)
      refine wp_bind (Prog.wp_modify (wp_pure ?_))
      have now := h''.setHdr fun hdr =>
        { hdr with freePages := Function.update hdr.freePages h₀.hdr.ovflPoint mem.nextPgno }
      rcases lists.link with link | lost
      · refine some m _ rest _ ⟨first, fun memp => out (List.mem_append_right _ memp), sub, others mem,
          fun e meme => ⟨e, List.mem_cons_of_mem _ meme, rfl⟩, number mem rfl, ?_⟩ ?_ ?_
        · rintro rfl
          exact ⟨rfl, .refl _⟩
        · exact ⟨Function.update_self .., behind mem, (List.nodup_append.mp nodup).2.1,
            fun p memp => stock.bound p (sub p memp)⟩
        · rw [← link]
          exact now
      · refine some m _ [] _ ⟨first, List.not_mem_nil, fun p memp => absurd memp List.not_mem_nil, others mem,
          fun e meme => absurd meme List.not_mem_nil, number mem rfl, ?_⟩ ?_ ?_
        · rintro rfl
          exact ⟨rfl, .refl _⟩
        · exact ⟨Function.update_self .., trivial, List.nodup_nil, fun p memp => absurd memp List.not_mem_nil⟩
        · rw [show FreeMap.head [] = mem.nextPgno from lost.symm]
          exact now
    · rw [List.concat_eq_append] at *
      obtain ⟨entry, pos, popped⟩ := lists.pop
      rw [if_pos pos, entry]
      refine wp_bind (wp_store h' _ fun mid h' => wp_bind (wp_putDirty h' popped.signed fun hashp'' h'' => wp_pure ?_))
      have self : setFreePages h₀.hdr.ovflPoint (FreeMap.head ((m, nums) :: rest)) h₀ = h₀ := setFreePages_self head
      have fewer : FreeMap.pages ((m, nums ++ [n]) :: rest) =
          m :: (nums ++ n :: FreeMap.pages rest) := by simp [FreeMap.pages]
      have left : FreeMap.pages ((m, nums) :: rest) = m :: (nums ++ FreeMap.pages rest) := by
        simp [FreeMap.pages]
      have part : ∀ p ∈ FreeMap.pages ((m, nums) :: rest), p ∈ FreeMap.pages ((m, nums ++ [n]) :: rest) := by
        intro p memp
        rw [left] at memp
        rw [fewer]
        simp only [List.mem_cons, List.mem_append] at memp ⊢
        tauto
      have once := stock.nodup
      rw [fewer, List.nodup_cons, List.nodup_middle, List.nodup_cons] at once
      have kept : (mem.setNumEnt (mem.numEnt - 1)).currPgno = mem.currPgno := Lib.Mem.read32_write16 (by omega)
      refine some n (acc.set m (mem.setNumEnt (mem.numEnt - 1))) ((m, nums) :: rest) _
        ⟨by simp [FreeMap.pages], ?_, part, others _, List.forall_mem_cons.mpr ⟨⟨_, List.mem_cons_self, rfl⟩,
          fun e meme => ⟨e, List.mem_cons_of_mem _ meme, rfl⟩⟩, number _ kept, fun one => ⟨one, ?_⟩⟩ ?_ ?_
      · rw [left, List.mem_cons, not_or]
        refine ⟨fun same => once.1 ?_, once.2.1⟩
        simp [same]
      · rw [left, fewer]
        exact (List.perm_middle.cons m).trans (.swap ..)
      · rw [self]
        refine ⟨head, ⟨fun c holds => popped.agree (Account.set_same.mp holds), behind _⟩, ?_,
          fun p memp => stock.bound p (part p memp)⟩
        rw [left, List.nodup_cons]
        refine ⟨fun memp => once.1 ?_, once.2.2⟩
        simp only [List.mem_append, List.mem_cons] at memp ⊢
        tauto
      · rw [self]
        exact h''

theorem wp_startLevel_started (h : Knows h₀ top acc hand hashp) (started : Started h₀ top s)
    {Q : Unit → Htab → Prop} (next : Q () hashp) :
    Wp adm (startLevel (h₀.hdr.ovflPoint + 1)) hashp Q := by
  have cur : hashp.currDpage ≠ invalidPgno := by
    have := started.cur
    have := started.few
    rw [h.frame]
    simp only [invalidPgno, maxPageNumber] at *
    omega
  have spares : hashp.hdr.spares (h₀.hdr.ovflPoint + 1) ≠ 0 := by
    have := started.cur
    rw [h.hdr, started.spares]
    omega
  refine wp_bind (Prog.wp_modify ?_)
  rw [if_neg cur]
  refine Prog.wp_modify ?_
  rw [if_neg spares]
  exact next

theorem wp_startLevel (h : Knows h₀ top acc hand hashp) (unstarted : Unstarted h₀ top)
    (few : top + 1 < maxPageNumber) {Q : Unit → Htab → Prop}
    (next : ∀ hashp', Knows (setSpares (h₀.hdr.ovflPoint + 1) (top + 1) { h₀ with currDpage := top }) top
      acc hand hashp' → Q () hashp') : Wp adm (startLevel (h₀.hdr.ovflPoint + 1)) hashp Q := by
  have cur : hashp.currDpage = invalidPgno := by
    rw [h.frame]
    exact unstarted.cur
  have first : u32 (hashp.hdr.bucketToPage hashp.hdr.highMask + 1) = top := by
    rw [h.hdr]
    exact unstarted.first
  have spares : hashp.hdr.spares (h₀.hdr.ovflPoint + 1) = 0 := by
    rw [h.hdr]
    exact unstarted.spares
  have word : u32 (top + 1) = top + 1 := Nat.mod_eq_of_lt (by simp only [maxPageNumber] at few; omega)
  refine wp_bind (Prog.wp_modify ?_)
  rw [if_pos cur, first]
  refine Prog.wp_modify ?_
  rw [if_pos spares]
  dsimp only
  rw [word]
  exact next _ ((h.setCurrDpage top).setHdr _)

/-- What is given out: `n` is a free page, or a number nobody has had. -/
structure Given (h₀ : Htab) (top s : Nat) (acc : Account) (maps : FreeMap) (n : Nat) (reuse : Bool)
    (h₁ : Htab) (acc' : Account) (maps' : FreeMap) (s' : Nat) : Prop where
  renumbered : Renumbered h₀ h₁
  stock : Stock h₁ top acc' maps'
  started : Started h₁ top s'
  reused : reuse = true → n ∈ maps.pages ∧ s' = s
  fresh : reuse = false → n = s ∧ s' = s + 1
  out : n ∉ maps'.pages
  sub : ∀ p ∈ maps'.pages, p ∈ maps.pages
  same : ∀ p c, p ∉ maps.pages → (acc'.holds p c ↔ acc.holds p c)

theorem Given.low {n : Nat} {reuse : Bool} {s' : Nat}
    (given : Given h₀ top s acc maps n reuse h₁ acc' maps' s') (stock : Stock h₀ top acc maps)
    (started : Started h₀ top s) : 0 < n ∧ n < s' := by
  have cur := started.cur
  have le := started.le
  cases reuse with
  | true =>
    obtain ⟨mem, rfl⟩ := given.reused rfl
    have := stock.bound n mem
    omega
  | false =>
    obtain ⟨rfl, rfl⟩ := given.fresh rfl
    omega

theorem wp_nextPage (h : Knows h₀ top acc hand hashp) (stock : Stock h₀ top acc maps)
    (started : Started h₀ top s) (few : s + 1 < maxPageNumber)
    (apart : ∀ p ∈ maps.pages, p ∉ numbers hand) {Q : Nat × Bool → Htab → Prop}
    (next : ∀ n reuse h₁ acc' maps' s' hashp', Given h₀ top s acc maps n reuse h₁ acc' maps' s' →
      h₁.currDpage = h₀.currDpage → Knows h₁ top acc' hand hashp' → Q (n, reuse) hashp') :
    Wp adm (nextPage (h₀.hdr.ovflPoint + 1)) hashp Q := by
  refine wp_bind (wp_reuse h stock apart (fun none => ?_) fun n acc' maps' hashp' taken stock' h' => ?_)
  · rw [if_neg (lt_irrefl 0)]
    refine wp_bind (Prog.wp_read ?_)
    have spares : hashp.hdr.spares (h₀.hdr.ovflPoint + 1) = s := by
      rw [h.hdr]
      exact started.spares
    have word : u32 (s + 1) = s + 1 := Nat.mod_eq_of_lt (by simp only [maxPageNumber] at few; omega)
    dsimp only
    rw [spares, word]
    refine wp_bind (Prog.wp_modify (wp_pure ?_))
    have now := h.setHdr fun hdr =>
      { hdr with spares := Function.update hdr.spares (h₀.hdr.ovflPoint + 1) (s + 1) }
    have cur := started.cur
    have le := started.le
    subst none
    refine next s false (setSpares (h₀.hdr.ovflPoint + 1) (s + 1) h₀) acc [] (s + 1) _ ?_ rfl now
    exact {
      renumbered := rfl
      stock := ⟨stock.head, trivial, List.nodup_nil, fun p memp => absurd memp List.not_mem_nil⟩
      started := ⟨Function.update_self .., by change h₀.currDpage < s + 1; omega, by omega, few⟩
      reused := fun reuse => by cases reuse
      fresh := fun _ => ⟨rfl, rfl⟩
      out := List.not_mem_nil
      sub := fun p memp => absurd memp List.not_mem_nil
      same := fun _ _ _ => Iff.rfl }
  · rw [if_pos (stock.bound n taken.mem).1]
    refine wp_pure (next n true (setFreePages h₀.hdr.ovflPoint (FreeMap.head maps') h₀) acc' maps' s hashp' ?_ rfl h')
    exact {
      renumbered := rfl
      stock := stock'
      started := ⟨started.spares, started.cur, started.le, started.few⟩
      reused := fun _ => ⟨taken.mem, rfl⟩
      fresh := fun reuse => by cases reuse
      out := taken.out
      sub := taken.sub
      same := taken.same }

theorem wp_dataPage_current (h : Knows h₀ top acc hand hashp) (started : Started h₀ top s)
    {Q : Nat × Bool → Htab → Prop} (next : Q (h₀.currDpage, false) hashp) : Wp adm (dataPage false) hashp Q := by
  refine wp_bind (Prog.wp_read ?_)
  dsimp only
  rw [h.hdr]
  refine wp_bind (wp_startLevel_started h started ?_)
  rw [if_neg Bool.false_ne_true]
  refine wp_bind (Prog.wp_read (wp_pure ?_))
  rw [h.frame]
  rw [h.frame] at next
  exact next

theorem wp_dataPage (h : Knows h₀ top acc hand hashp) (stock : Stock h₀ top acc maps)
    (started : Started h₀ top s) (few : s + 1 < maxPageNumber)
    (apart : ∀ p ∈ maps.pages, p ∉ numbers hand) {Q : Nat × Bool → Htab → Prop}
    (next : ∀ n reuse h₁ acc' maps' s' hashp', Given h₀ top s acc maps n reuse h₁ acc' maps' s' →
      h₁.currDpage = n → Knows h₁ top acc' hand hashp' → Q (n, reuse) hashp') :
    Wp adm (dataPage true) hashp Q := by
  refine wp_bind (Prog.wp_read ?_)
  dsimp only
  rw [h.hdr]
  refine wp_bind (wp_startLevel_started h started ?_)
  rw [if_pos rfl]
  refine wp_bind (wp_nextPage h stock started few apart fun n reuse h₁ acc' maps' s' hashp' given _ h' => ?_)
  refine wp_bind (Prog.wp_modify (wp_pure ?_))
  refine next n reuse { h₁ with currDpage := n } acc' maps' s' _ ?_ rfl (h'.setCurrDpage n)
  exact {
    renumbered := given.renumbered.trans rfl
    stock := ⟨given.stock.head, given.stock.onPages, given.stock.nodup, given.stock.bound⟩
    started := ⟨given.started.spares, (given.low stock started).2, given.started.le, given.started.few⟩
    reused := given.reused
    fresh := given.fresh
    out := given.out
    sub := given.sub
    same := given.same }

theorem wp_dataPage_first (h : Knows h₀ top acc hand hashp) (unstarted : Unstarted h₀ top)
    (few : top + 1 < maxPageNumber) {Q : Nat × Bool → Htab → Prop}
    (next : ∀ hashp', Knows (setSpares (h₀.hdr.ovflPoint + 1) (top + 1) { h₀ with currDpage := top }) top
      acc hand hashp' → Q (top, false) hashp') : Wp adm (dataPage false) hashp Q := by
  refine wp_bind (Prog.wp_read ?_)
  dsimp only
  rw [h.hdr]
  refine wp_bind (wp_startLevel h unstarted few fun hashp' h' => ?_)
  rw [if_neg Bool.false_ne_true]
  refine wp_bind (Prog.wp_read (wp_pure ?_))
  rw [h'.frame]
  have same := next hashp' h'
  rw [h'.frame] at same
  exact same

theorem wp_getGiven {n ty : Nat} {reuse : Bool} (h : Knows h₀ top acc hand hashp) (pos : h₀.Idle → 0 < n)
    (free : reuse = true → n < top ∧ n ∉ numbers hand)
    (fresh : reuse = false → top ≤ n ∧ n + 1 < maxPageNumber) (other : ty ≠ hashBucketPage)
    {Q : Option Nat × Nat → Htab → Prop}
    (next : ∀ id mem hashp', Knows h₀ (max top (n + 1)) acc (⟨id, n, mem⟩ :: hand) hashp' →
      (reuse = false → ∃ raw, mem = FileHash.initPage h₀.hdr.bsize raw n ty) → Q (some id, n) hashp') :
    Wp adm (getPage n ty { create := true }) hashp Q := by
  cases reuse with
  | true =>
    obtain ⟨low, out⟩ := free rfl
    refine wp_getPage h out pos low rfl (.inl rfl) (fun q => wp_address_other other q) fun id mem hashp' h' _ => ?_
    refine next id (opened h₀.hdr.bsize { create := true } n ty mem) hashp' ?_ fun reuse => by cases reuse
    rwa [max_eq_left (Nat.succ_le_of_lt low)]
  | false =>
    obtain ⟨high, few⟩ := fresh rfl
    refine wp_getNew h pos high few other fun id mem hashp' h' => next id _ hashp' ?_ fun _ => ⟨mem, rfl⟩
    rwa [max_eq_right (high.trans (Nat.le_succ n))]

theorem wp_initGiven {n ty : Nat} {reuse : Bool} {k : Unit → Run α}
    (h : Knows h₀ top acc (⟨id, n, mem⟩ :: hand) hashp)
    (blank : reuse = false → ∃ raw, mem = FileHash.initPage h₀.hdr.bsize raw n ty) {Q : α → Htab → Prop}
    (next : ∀ raw hashp', Knows h₀ top acc
      (⟨id, n, FileHash.initPage h₀.hdr.bsize raw n ty⟩ :: hand) hashp' → Wp adm (k ()) hashp' Q) :
    Wp adm (if reuse = true then initPage id n ty >>= k else k ()) hashp Q := by
  cases reuse with
  | true =>
    rw [if_pos rfl]
    exact wp_bind (wp_initPage h n ty fun hashp' h' => next mem hashp' h')
  | false =>
    obtain ⟨raw, rfl⟩ := blank rfl
    rw [if_neg Bool.false_ne_true]
    exact next raw hashp h

end FileHash.Htab
