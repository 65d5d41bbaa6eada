import FileHash.ReplacementFrame

/-! The free list of a split level over whole runs of `_ffdb_free_ovflpage` and
`_ffdb_reuse_free_ovflpage`. The first page freed becomes the map page that counts the others, in 16
bits. The list is faithful as long as one map page holds all of it. -/
namespace FileHash.Htab

open Lib (Prog)
open Lib.Prog (Wp wp_bind wp_pure wp_mono)
open Page

variable {h₀ h₁ hashp hashp' t : Htab} {top p m n id : Nat} {acc acc' : Account} {hand hand' : List Taken} {g : Taken}
  {maps maps' : FreeMap} {nums freed : List Nat} {mem c raw : Page} {adm : Event → Prop}

section MapPages

theorem updateFreePage_words : (updateFreePage p c).currPgno = c.currPgno ∧
    (updateFreePage p c).nextPgno = c.nextPgno ∧ (updateFreePage p c).pageSign = c.pageSign := by
  simp only [updateFreePage, currPgno, nextPgno, pageSign, setNumEnt, setFreePage, freePageStart]
  refine ⟨?_, ?_, ?_⟩ <;> rw [Lib.Mem.read32_write16 (by omega), Lib.Mem.read32_write32 (by omega)]

theorem numEnt_updateFreePage : (updateFreePage p c).numEnt = (c.numEnt + 1) % 65536 :=
  Lib.Mem.read16_write16_same

def listed (nums : List Nat) (p : Nat) : List Nat := if nums.length = 65535 then [] else nums ++ [p]

theorem FreeMap.Lists.push {next : Nat} (h : FreeMap.Lists nums next c) (word : p < 0x100000000) :
    FreeMap.Lists (listed nums p) next (updateFreePage p c) := by
  obtain ⟨_, link, sign⟩ := updateFreePage_words (p := p) (c := c)
  have small : nums.length < 65536 := h.count ▸ Lib.Mem.read16_lt
  have count := numEnt_updateFreePage (p := p) (c := c)
  rw [h.count] at count
  refine ⟨sign.trans h.signed, ?_, ?_, ?_⟩
  · rw [count, listed]
    split_ifs with last
    · rw [last]
      rfl
    · rw [List.length_append, List.length_singleton, Nat.mod_eq_of_lt (by omega)]
  · rw [listed]
    split_ifs with last
    · exact fun i low => absurd low (Nat.not_lt_zero i)
    · intro i low
      have same : (updateFreePage p c).freePage i = (c.setFreePage c.numEnt p).freePage i :=
        Lib.Mem.read32_write16 (by simp only [freePageStart]; omega)
      rw [same, h.count]
      rw [List.length_append, List.length_singleton] at low
      by_cases before : i < nums.length
      · rw [List.getElem_append_left before, ← h.entry i before]
        exact Lib.Mem.read32_write32 (by simp only [freePageStart]; omega)
      · obtain rfl : i = nums.length := by omega
        rw [List.getElem_append_right le_rfl]
        simp only [Nat.sub_self, List.getElem_cons_zero]
        exact Lib.Mem.read32_write32_same.trans (Nat.mod_eq_of_lt word)
  · rw [link]
    exact h.link

theorem lists_initPage {bsize ty next : Nat} : FreeMap.Lists [] next (FileHash.initPage bsize raw p ty) :=
  ⟨signed_initPage, numEnt_initPage .., fun i low => absurd low (Nat.not_lt_zero i), .inr nextPgno_initPage⟩

end MapPages

section Deleted

/-- Nothing more is said of page `p`. -/
def Account.without (acc : Account) (p : Nat) : Account where
  holds q c := q = p ∨ acc.holds q c
  agree holds same := holds.imp_right fun told => acc.agree told same

theorem Knows.drop (h : Knows h₀ top acc (g :: hand) hashp) {mp : Pagepool}
    (drops : Pagepool.Drops self g.id hashp.mp mp) (signed : Pagepool.Signed g.mem)
    (unknown : ∀ c, acc.holds g.pgno c) : Knows h₀ top acc hand (unhold g.id (setMp mp hashp)) := by
  obtain ⟨cached, number, _, page⟩ := h.hands g List.mem_cons_self
  have tidy := h.sound.toTidy
  refine ⟨?_, h.noFault, drops.sound h.sound fun _ => ?_, drops.counted, ?_, drops.below tidy cached h.below,
    h.few, (List.nodup_cons.mp h.distinct).2, fun g' memg => ?_, fun q c outq shows => ?_,
    fun g' memg c clean stored => ?_, fun idle => ?_,
    ⟨drops.pgin.trans h.fixed.1, drops.pgout.trans h.fixed.2.1, drops.rdonly.trans h.fixed.2.2⟩,
    fun r => drops.reached (h.reached r)⟩
  · conv_lhs => rw [h.frame]
    rfl
  · rw [page]
    exact h.inverse.inverse _ _ signed
  · change Pagepool.Inverse Pagepool.Signed mp.pgin mp.pgout
    rw [drops.pgin, drops.pgout]
    exact h.inverse
  · obtain ⟨cached', same⟩ := h.hands g' (List.mem_cons_of_mem _ memg)
    change g'.id ∈ mp.lqh ∧ (mp.bkt g'.id).pgno = _ ∧ (mp.bkt g'.id).pinned = true ∧ (mp.bkt g'.id).page = _
    rw [drops.others g'.id (h.id_ne memg).1]
    exact ⟨(drops.mem tidy).mpr ⟨(h.id_ne memg).1, cached'⟩, same⟩
  · by_cases mine : q = g.pgno
    · rw [mine]
      exact unknown c
    · refine h.holds q c ?_ (drops.shows tidy (by rw [number]; exact mine) shows)
      rw [numbers, List.map_cons, List.mem_cons, not_or]
      exact ⟨mine, outq⟩
  · have other : g'.pgno ≠ (hashp.mp.bkt g.id).pgno := by rw [number]; exact (h.id_ne memg).2
    refine h.behind g' (List.mem_cons_of_mem _ memg) c (fun j memj eq => ?_)
      (stored.congr drops.pgin (drops.image _ other) drops.npages_le)
    have ne : j ≠ g.id := fun same => other (by rw [← eq, same])
    have unmarked := clean j ((drops.mem tidy).mpr ⟨ne, memj⟩) (by
      change (mp.bkt j).pgno = _
      rw [drops.others j ne]
      exact eq)
    change (mp.bkt j).dirty = false at unmarked
    rwa [drops.others j ne] at unmarked
  · obtain ⟨once, only⟩ := h.pins idle
    refine ⟨drops.once tidy once, fun j memj => ?_⟩
    obtain ⟨ne, memj⟩ := (drops.mem tidy).mp memj
    change 0 < (mp.bkt j).pgno ∧ ((mp.bkt j).pinned = true → _)
    rw [drops.others j ne]
    refine (only j memj).imp_right fun mine pin => ?_
    obtain ⟨g', memg, same⟩ := mine pin
    rcases List.mem_cons.mp memg with rfl | later
    · exact absurd same.symm ne
    · exact ⟨g', later, same⟩

theorem wp_poolDelete (h : Knows h₀ top acc (g :: hand) hashp) (signed : Pagepool.Signed g.mem)
    (unknown : ∀ c, acc.holds g.pgno c) {Q : Unit → Htab → Prop}
    (next : ∀ hashp', Knows h₀ top acc hand hashp' → Q () hashp') : Wp adm (poolDelete g.id) hashp Q := by
  obtain ⟨cached, _, pinned, _⟩ := h.hands g List.mem_cons_self
  refine wp_bind (Prog.wp_read ?_)
  by_cases ref : (hashp.mp.bkt g.id).ref = 1
  · obtain ⟨mp, run, drops⟩ := Pagepool.delete_spec (ε := Event) h.sound.toTidy h.counted cached pinned ref
    refine wp_bind (Prog.wp_zoom (Prog.wp_of_run (by rw [run]) ?_))
    rw [if_pos rfl]
    refine wp_bind (Prog.wp_read (wp_bind (Prog.wp_mark fun _ => Prog.wp_modify (next _ ?_))))
    exact h.drop drops signed unknown
  · refine wp_bind (Prog.wp_zoom (Prog.wp_of_run (by rw [Pagepool.delete_refused ref]) ?_))
    rw [if_neg Bool.false_ne_true]
    have loose : ¬h₀.Idle := fun idle => ref (by rw [(h.pins idle).1 g.id cached, if_pos pinned])
    exact wp_leak (show Knows h₀ top acc (g :: hand) (setMp hashp.mp hashp) from h) (unknown _) loose _ fun _ => next

end Deleted

section Frees

/-- The free map after page `p` was freed, where its first page has room. -/
def FreeMap.push (maps : FreeMap) (p : Nat) : FreeMap :=
  match maps with
  | [] => [(p, [])]
  | e :: rest => (e.1, listed e.2 p) :: rest

structure OnePage (h₀ : Htab) (top : Nat) (acc : Account) (maps : FreeMap) : Prop where
  stock : Stock h₀ top acc maps
  one : maps.tail = []
  number : ∀ e ∈ maps, ∀ c, acc.holds e.1 c → c.currPgno = e.1

theorem OnePage.congr (h : OnePage h₀ top acc maps)
    (same : ∀ p c, p ∈ maps.pages → acc'.holds p c → acc.holds p c) : OnePage h₀ top acc' maps where
  stock := ⟨h.stock.head, h.stock.onPages.congr same, h.stock.nodup, h.stock.bound⟩
  one := h.one
  number e mem c told := h.number e mem c (same _ c (by
    obtain ⟨pre, post, rfl⟩ := List.append_of_mem mem
    simp [FreeMap.pages]) told)

theorem OnePage.first (level : (setFreePages h₀.hdr.ovflPoint p h₀).hdr.freePages h₀.hdr.ovflPoint = p)
    (bound : 0 < p ∧ p < top) (word : p < 0x100000000) {bsize ty : Nat} :
    OnePage (setFreePages h₀.hdr.ovflPoint p h₀) top (acc.set p (FileHash.initPage bsize raw p ty)) [(p, [])] where
  stock := ⟨level, ⟨fun _ holds => lists_initPage.agree (Account.set_same.mp holds), trivial⟩,
    List.nodup_singleton p, by simpa [FreeMap.pages] using bound⟩
  one := rfl
  number := by
    refine List.forall_mem_singleton.mpr fun c holds => ?_
    rw [(Account.set_same.mp holds).currPgno]
    exact currPgno_initPage word

theorem pages_pair : FreeMap.pages [(m, nums)] = m :: nums := by simp [FreeMap.pages]

theorem listed_sub {q : Nat} (mem : q ∈ listed nums p) : q = p ∨ q ∈ nums := by
  unfold listed at mem
  split_ifs at mem
  · exact absurd mem List.not_mem_nil
  · simpa [or_comm] using mem

theorem nodup_listed (nodup : nums.Nodup) (out : p ∉ nums) : (listed nums p).Nodup := by
  unfold listed
  split_ifs
  · exact List.nodup_nil
  · exact List.nodup_append.mpr ⟨nodup, List.nodup_singleton p, by
      rintro a mem b single rfl
      exact out (List.mem_singleton.mp single ▸ mem)⟩

theorem OnePage.push (h : OnePage h₀ top acc [(m, nums)]) (holds : acc.holds m c) (bound : 0 < p ∧ p < top)
    (word : p < 0x100000000) (out : p ∉ FreeMap.pages [(m, nums)]) :
    OnePage h₀ top ((acc.set m (updateFreePage p c)).without p) [(m, listed nums p)] := by
  rw [pages_pair, List.mem_cons, not_or] at out
  have told : ∀ d, ((acc.set m (updateFreePage p c)).without p).holds m d → Agree d (updateFreePage p c) := by
    intro d holds
    exact Account.set_same.mp (holds.resolve_left fun same => out.1 same.symm)
  have nodup := h.stock.nodup
  have low := h.stock.bound
  rw [pages_pair] at nodup low
  obtain ⟨first, rest⟩ := List.nodup_cons.mp nodup
  refine ⟨⟨h.stock.head, ⟨fun d holds' => ((h.stock.onPages.1 c holds).push word).agree (told d holds'), trivial⟩,
    ?_, ?_⟩, rfl, List.forall_mem_singleton.mpr fun d holds' => ?_⟩
  · rw [pages_pair, List.nodup_cons]
    refine ⟨fun mem => ?_, nodup_listed rest out.2⟩
    rcases listed_sub mem with same | mem
    · exact out.1 same.symm
    · exact first mem
  · rw [pages_pair]
    refine List.forall_mem_cons.mpr ⟨low m List.mem_cons_self, fun q mem => ?_⟩
    rcases listed_sub mem with rfl | mem
    · exact bound
    · exact low q (List.mem_cons_of_mem _ mem)
  · rw [(told d holds').currPgno, updateFreePage_words.1]
    exact h.number _ List.mem_cons_self c holds

theorem wp_mapChain (h : Knows h₀ top acc (g :: hand) hashp) (signed : Pagepool.Signed g.mem) {bsize fpage fuel : Nat}
    (room : g.mem.numEnt < maxNumFreePages bsize - 1) {Q : Option (Nat × Nat) → Htab → Prop}
    (next : ∀ hashp', Knows h₀ top (acc.set g.pgno (updateFreePage p g.mem)) hand hashp' → Q none hashp') :
    Wp adm (mapChain bsize p (fuel + 1) g.id fpage) hashp Q := by
  refine wp_bind (wp_page h List.mem_cons_self ?_)
  rw [if_pos room]
  refine wp_bind (wp_store h _ fun mid h' => wp_bind (wp_putDirty h' ?_ fun mid' h'' => wp_pure (next mid' h'')))
  exact updateFreePage_words.2.2.trans signed

structure OfLevel (hdr : Hashhdr) (g : Taken) : Prop where
  own : g.mem.currPgno = g.pgno
  pos : 0 < g.pgno
  level : freeLevel hdr g.pgno = hdr.ovflPoint + 1

theorem wp_deleteOvflPage (h : Knows h₀ top acc (g :: hand) hashp) (map : OnePage h₀ top acc maps)
    (of : OfLevel h₀.hdr g) (apart : ∀ p ∈ maps.pages, p ∉ numbers (g :: hand))
    (room : ∀ e ∈ maps, e.2.length < maxNumFreePages h₀.hdr.bsize - 1) {Q : Unit → Htab → Prop}
    (next : ∀ h₁ acc' hashp', h₁ = setFreePages h₀.hdr.ovflPoint (FreeMap.head (maps.push g.pgno)) h₀ →
      OnePage h₁ top acc' (maps.push g.pgno) →
      (∀ q c, q ≠ g.pgno → q ∉ maps.pages → (acc'.holds q c ↔ acc.holds q c)) → Knows h₁ top acc' hand hashp' →
      Q () hashp') : Wp adm (deleteOvflPage g.id) hashp Q := by
  have low : g.pgno < top := h.hand_lt List.mem_cons_self
  have few := h.few
  have word : g.pgno < 0x100000000 := by simp only [maxPageNumber] at few; omega
  have level : ¬freeLevel h₀.hdr g.pgno = 0 := by rw [of.level]; exact Nat.succ_ne_zero _
  have point : freeLevel h₀.hdr g.pgno - 1 = h₀.hdr.ovflPoint := by rw [of.level]; rfl
  refine wp_bind (wp_bind (Prog.wp_read (wp_bind (wp_page h List.mem_cons_self ?_))))
  dsimp only
  rw [of.own, h.hdr, if_neg level, point]
  cases maps with
  | nil =>
    rw [if_pos (show h₀.hdr.freePages h₀.hdr.ovflPoint = invalidPgno from map.stock.head)]
    have h' := h.setHdr fun hdr => { hdr with freePages := Function.update hdr.freePages h₀.hdr.ovflPoint g.pgno }
    refine wp_bind (Prog.wp_modify (wp_bind (wp_initPage h' g.pgno hashFreePage fun mid h' => wp_pure ?_)))
    rw [if_neg Bool.false_ne_true]
    have first : OnePage (setFreePages h₀.hdr.ovflPoint g.pgno h₀) top
        (acc.set g.pgno (FileHash.initPage h₀.hdr.bsize g.mem g.pgno hashFreePage)) [(g.pgno, [])] :=
      .first (Function.update_self ..) ⟨of.pos, low⟩ word
    exact wp_putDirty h' signed_initPage fun t h' => next _ _ t rfl first (fun q c ne _ => Account.set_other ne) h'
  | cons e rest =>
    obtain ⟨m, nums⟩ := e
    obtain rfl : rest = [] := map.one
    have first : m ∈ FreeMap.pages [(m, nums)] := by simp [FreeMap.pages]
    have bound := map.stock.bound m first
    have head : h₀.hdr.freePages h₀.hdr.ovflPoint = m := map.stock.head
    rw [head, if_neg (by simp only [invalidPgno, maxPageNumber] at *; omega)]
    refine wp_bind (wp_getPage h (apart m first) (fun _ => bound.1) bound.2 rfl (.inl rfl)
      (fun next => wp_address_other (by decide) next)
      fun id mem mid h' holds => ?_)
    have lists := map.stock.onPages.1 mem holds
    have number := map.number _ List.mem_cons_self mem holds
    have kept : opened h₀.hdr.bsize { create := true } m hashFreePage mem = mem :=
      if_neg fun blank => by rw [number] at blank; exact bound.1.ne' blank.2
    rw [kept] at h'
    have out : g.pgno ∉ FreeMap.pages [(m, nums)] := fun memp => apart _ memp List.mem_cons_self
    rw [show pageFuel = (pageFuel - 1) + 1 from rfl]
    refine wp_bind (wp_mapChain h' lists.signed (by rw [lists.count]; exact room _ List.mem_cons_self) fun mid h' => ?_)
    refine wp_pure ?_
    rw [if_pos rfl]
    refine wp_bind (wp_page h' List.mem_cons_self (wp_bind (wp_initPage h' _ _ fun mid h' => ?_)))
    refine wp_bind (wp_noteSlip ?_)
    have fewer := h'.mono (show ∀ q c, (acc.set m (updateFreePage g.pgno mem)).holds q c →
      ((acc.set m (updateFreePage g.pgno mem)).without g.pgno).holds q c from fun q c told => .inr told)
    refine wp_poolDelete fewer signed_initPage (fun c => .inl rfl) fun t h' => next h₀ _ t ?_ ?_ ?_ h'
    · exact (setFreePages_self head).symm
    · exact map.push holds ⟨of.pos, low⟩ word out
    · intro q c ne outq
      have other : q ≠ m := fun same => outq (same ▸ first)
      exact ⟨fun told => (Account.set_other other).mp (told.resolve_left ne), fun told =>
        .inr ((Account.set_other other).mpr told)⟩

end Frees

section Runs

/-- A table in use by a thread that has `hand` in hand: no fetch fails, and there are page numbers left. -/
def InUse (hand : List Taken) (hashp : Htab) : Prop := ∃ top, Knows hashp top (.shown hashp.mp) hand hashp

theorem Knows.shown (h : Knows h₀ top acc hand hashp) : Knows hashp top (.shown hashp.mp) hand hashp where
  frame := rfl
  noFault n := by
    rw [h.frame]
    exact h.noFault n
  sound := h.sound
  counted := h.counted
  inverse := h.inverse
  below := h.below
  few := h.few
  distinct := h.distinct
  hands := h.hands
  holds _ _ _ shows := shows.looks
  behind _ _ _ clean stored := Pagepool.Shows.looks (.inr ⟨clean, stored⟩)
  pins idle := by
    refine ⟨fun id mem => ?_, fun id mem => ⟨(idle id mem).2.2, fun pin => ?_⟩⟩
    · rw [(idle id mem).1, (idle id mem).2.1]
      rfl
    · rw [(idle id mem).1] at pin
      cases pin
  fixed := ⟨rfl, rfl, rfl⟩
  reached r := r

structure Elsewhere (freed : List Nat) (hashp : Htab) (hand' : List Taken) (hashp' : Htab) : Prop where
  use : InUse hand' hashp'
  size : hashp'.hdr.bsize = hashp.hdr.bsize
  point : hashp'.hdr.ovflPoint = hashp.hdr.ovflPoint
  first : hashp'.hdr.freePages hashp.hdr.ovflPoint = hashp.hdr.freePages hashp.hdr.ovflPoint
  apart : ∀ p ∈ freed, p ∉ numbers hand'
  same : ∀ p ∈ freed, ∀ c, hashp'.mp.Shows p c → hashp.mp.Looks p c

/-- Runs of frees and reuses at one split level, where a page is freed only in states that `may` allows: the pages
in hand, those freed and not given out since, and the table. -/
inductive FreeRun (may : List Nat → Htab → Prop) : List Taken → List Nat → Htab → Prop
  | start {hand : List Taken} {hashp : Htab} (use : InUse hand hashp)
      (none : hashp.hdr.freePages hashp.hdr.ovflPoint = invalidPgno) : FreeRun may hand [] hashp
  | elsewhere {hand hand' : List Taken} {freed : List Nat} {hashp hashp' : Htab} (run : FreeRun may hand freed hashp)
      (other : Elsewhere freed hashp hand' hashp') : FreeRun may hand' freed hashp'
  | free {hand : List Taken} {g : Taken} {freed : List Nat} {hashp t : Htab} (run : FreeRun may (g :: hand) freed hashp)
      (of : OfLevel hashp.hdr g) (able : may freed hashp) (frees : (deleteOvflPage g.id).Returns hashp () t) :
      FreeRun may hand (g.pgno :: freed) t
  | reuse {hand : List Taken} {freed : List Nat} {hashp t : Htab} {n : Nat} (run : FreeRun may hand freed hashp)
      (gives : reuseFreeOvflpage.Returns hashp n t) : FreeRun may hand (freed.erase n) t

def HasRoom (freed : List Nat) (hashp : Htab) : Prop :=
  freed.length < maxNumFreePages hashp.hdr.bsize ∧ freed.length < 65536

structure Faithful (hand : List Taken) (freed : List Nat) (hashp : Htab) (top : Nat) (maps : FreeMap) : Prop where
  known : Knows hashp top (.shown hashp.mp) hand hashp
  map : OnePage hashp top (.shown hashp.mp) maps
  pages : maps.pages.Perm freed
  apart : ∀ p ∈ freed, p ∉ numbers hand

theorem OnePage.shown (h : OnePage h₀ top acc maps) (known : Knows h₀ top acc hand hashp)
    (apart : ∀ p ∈ maps.pages, p ∉ numbers hand) : OnePage hashp top (.shown hashp.mp) maps :=
  have same : OnePage h₀ top (.shown hashp.mp) maps := h.congr fun p _ mem told => by
    obtain ⟨d, shows, agree⟩ := told
    exact acc.agree (known.holds p d (apart p mem) shows) agree
  { stock := ⟨by rw [known.hdr]; exact same.stock.head, same.stock.onPages, same.stock.nodup, same.stock.bound⟩
    one := same.one
    number := same.number }

theorem OnePage.reuse (h : OnePage h₀ top acc maps) (known : Knows h₀ top acc hand hashp)
    (apart : ∀ p ∈ maps.pages, p ∉ numbers hand) : ∃ n t, reuseFreeOvflpage.Returns hashp n t ∧
      (n = 0 ∧ maps = [] ∧ t = hashp ∨ n ≠ 0 ∧ ∃ h₁ acc' maps', maps.pages.Perm (n :: FreeMap.pages maps') ∧
        OnePage h₁ top acc' maps' ∧ Knows h₁ top acc' hand t ∧
        h₁ = setFreePages h₀.hdr.ovflPoint (FreeMap.head maps') h₀) := by
  have wp : Wp (fun _ => True) reuseFreeOvflpage hashp fun n t => n = 0 ∧ maps = [] ∧ t = hashp ∨ n ≠ 0 ∧
      ∃ h₁ acc' maps', maps.pages.Perm (n :: FreeMap.pages maps') ∧ OnePage h₁ top acc' maps' ∧
        Knows h₁ top acc' hand t ∧ h₁ = setFreePages h₀.hdr.ovflPoint (FreeMap.head maps') h₀ := by
    refine wp_reuse known h.stock apart (fun none => .inl ⟨rfl, none, rfl⟩) fun n acc' maps' t taken stock known' => ?_
    obtain ⟨one, perm⟩ := taken.one h.one
    refine .inr ⟨(h.stock.bound n taken.mem).1.ne', _, acc', maps', perm, ⟨stock, one, fun e mem c told => ?_⟩, known',
      rfl⟩
    obtain ⟨e', mem', same⟩ := taken.heads e mem
    obtain ⟨d, told', number⟩ := taken.number _ c told
    rw [number, ← same]
    exact h.number e' mem' d (same ▸ told')
  obtain ⟨n, t, run, post⟩ := wp fun _ _ => trivial
  exact ⟨n, t, run, post⟩

theorem Faithful.start (use : InUse hand hashp) (none : hashp.hdr.freePages hashp.hdr.ovflPoint = invalidPgno) :
    ∃ top, Faithful hand [] hashp top [] := by
  obtain ⟨top, known⟩ := use
  exact ⟨top, known, ⟨⟨none, trivial, List.nodup_nil, fun _ mem => absurd mem List.not_mem_nil⟩, rfl,
    fun _ mem => absurd mem List.not_mem_nil⟩, .refl _, fun _ mem => absurd mem List.not_mem_nil⟩

theorem Faithful.elsewhere (h : Faithful hand freed hashp top maps) (other : Elsewhere freed hashp hand' hashp') :
    ∃ top', Faithful hand' freed hashp' top' maps := by
  obtain ⟨top', known⟩ := other.use
  have few : max top top' < maxPageNumber := max_lt h.known.few known.few
  have map : OnePage hashp (max top top') (.shown hashp'.mp) maps := by
    have same : OnePage hashp top (.shown hashp'.mp) maps := h.map.congr fun p c mem told => by
      obtain ⟨d, shows, agree⟩ := told
      exact (other.same p (h.pages.mem_iff.mp mem) d shows).agree agree
    exact ⟨⟨same.stock.head, same.stock.onPages, same.stock.nodup, fun p mem =>
      ⟨(same.stock.bound p mem).1, lt_max_of_lt_left (same.stock.bound p mem).2⟩⟩, same.one, same.number⟩
  refine ⟨max top top', known.raise (le_max_right _ _) few, ?_, h.pages, other.apart⟩
  exact ⟨⟨by rw [other.point, other.first]; exact map.stock.head, map.stock.onPages, map.stock.nodup,
    map.stock.bound⟩, map.one, map.number⟩

theorem OnePage.free (h : OnePage h₀ top acc maps) (known : Knows h₀ top acc (g :: hand) hashp) (of : OfLevel h₀.hdr g)
    (apart : ∀ p ∈ maps.pages, p ∉ numbers (g :: hand))
    (room : ∀ e ∈ maps, e.2.length < maxNumFreePages h₀.hdr.bsize - 1) : ∃ t h₁ acc',
      (deleteOvflPage g.id).Returns hashp () t ∧ Knows h₁ top acc' hand t ∧ OnePage h₁ top acc' (maps.push g.pgno) ∧
      h₁ = setFreePages h₀.hdr.ovflPoint (FreeMap.head (maps.push g.pgno)) h₀ ∧
      ∀ q c, q ≠ g.pgno → q ∉ maps.pages → (acc'.holds q c ↔ acc.holds q c) := by
  have wp : Wp (fun _ => True) (deleteOvflPage g.id) hashp fun _ t => ∃ h₁ acc', Knows h₁ top acc' hand t ∧
      OnePage h₁ top acc' (maps.push g.pgno) ∧
      h₁ = setFreePages h₀.hdr.ovflPoint (FreeMap.head (maps.push g.pgno)) h₀ ∧
      ∀ q c, q ≠ g.pgno → q ∉ maps.pages → (acc'.holds q c ↔ acc.holds q c) :=
    wp_deleteOvflPage known h of apart room fun h₁ acc' t same map others known' =>
      ⟨h₁, acc', known', map, same, others⟩
  obtain ⟨_, t, run, h₁, acc', post⟩ := wp fun _ _ => trivial
  exact ⟨t, h₁, acc', run, post⟩

theorem Faithful.length (h : Faithful hand freed hashp top maps) {e : Nat × List Nat} (mem : e ∈ maps) :
    maps = [e] ∧ e.2.length + 1 = freed.length := by
  have length := h.pages.length_eq
  obtain ⟨m, nums⟩ := e
  cases maps with
  | nil => exact absurd mem List.not_mem_nil
  | cons e rest =>
    obtain rfl : rest = [] := h.map.one
    obtain rfl := List.mem_singleton.mp mem
    rw [pages_pair, List.length_cons] at length
    exact ⟨rfl, length⟩

theorem Faithful.push (h : Faithful hand freed hashp top maps) (room : freed.length < 65536) (p : Nat) :
    (FreeMap.pages (maps.push p)).Perm (p :: freed) := by
  cases maps with
  | nil =>
    rw [List.nil_perm.mp h.pages]
    exact .refl _
  | cons e rest =>
    obtain ⟨m, nums⟩ := e
    obtain ⟨one, length⟩ := h.length List.mem_cons_self
    obtain rfl : rest = [] := (List.cons.inj one).2
    have short : nums.length ≠ 65535 := by
      dsimp only at length
      omega
    have pages := h.pages
    rw [pages_pair] at pages
    change (FreeMap.pages [(m, listed nums p)]).Perm (p :: freed)
    rw [pages_pair, listed, if_neg short]
    exact (((List.perm_append_singleton p nums).cons m).trans (.swap ..)).trans (pages.cons p)

theorem Faithful.add (h : Faithful (g :: hand) freed hashp top maps) (of : OfLevel hashp.hdr g)
    (room : HasRoom freed hashp) : ∃ t, (deleteOvflPage g.id).Returns hashp () t ∧
      (∃ maps', Faithful hand (g.pgno :: freed) t top maps') ∧
      ∃ v, t.hdr = (setFreePages hashp.hdr.ovflPoint v hashp).hdr ∧
      ∀ p c, p ∉ g.pgno :: freed → p ∉ numbers hand → t.mp.Shows p c → hashp.mp.Looks p c := by
  have apart : ∀ p ∈ maps.pages, p ∉ numbers (g :: hand) := fun p mem => h.apart p (h.pages.mem_iff.mp mem)
  obtain ⟨t, h₁, acc', run, known, map, rfl, others⟩ := h.map.free h.known of apart fun e mem => by
    have := (h.length mem).2
    have := room.1
    omega
  have pages := h.push room.2 g.pgno
  have apart' : ∀ p ∈ g.pgno :: freed, p ∉ numbers hand := List.forall_mem_cons.mpr
    ⟨(List.nodup_cons.mp h.known.distinct).1, fun p mem memh => h.apart p mem (List.mem_cons_of_mem _ memh)⟩
  refine ⟨t, run, ⟨_, known.shown, map.shown known fun p mem => apart' p (pages.mem_iff.mp mem), pages, apart'⟩,
    _, known.hdr, fun p c out outh shows => ?_⟩
  rw [List.mem_cons, not_or] at out
  exact (others p c out.1 fun mem => out.2 (h.pages.mem_iff.mp mem)).mp (known.holds p c outh shows)

theorem Faithful.take (h : Faithful hand freed hashp top maps) : ∃ n t, reuseFreeOvflpage.Returns hashp n t ∧
    (n = 0 ∧ freed = [] ∧ t = hashp ∨ n ≠ 0 ∧ n ∈ freed ∧ ∃ maps', Faithful hand (freed.erase n) t top maps') := by
  obtain ⟨n, t, run, post⟩ := h.map.reuse h.known fun p mem => h.apart p (h.pages.mem_iff.mp mem)
  refine ⟨n, t, run, ?_⟩
  rcases post with ⟨rfl, rfl, rfl⟩ | ⟨some, h₁, acc', maps', perm, map, known, _⟩
  · exact .inl ⟨rfl, List.nil_perm.mp h.pages, rfl⟩
  · have left := (perm.symm.trans h.pages).erase n
    rw [List.erase_cons_head] at left
    have apart : ∀ p ∈ freed.erase n, p ∉ numbers hand := fun p mem => h.apart p (List.mem_of_mem_erase mem)
    refine .inr ⟨some, (perm.symm.trans h.pages).mem_iff.mp List.mem_cons_self, maps', known.shown, ?_, left, apart⟩
    exact map.shown known fun p mem => apart p (left.mem_iff.mp mem)

theorem FreeRun.faithful (run : FreeRun HasRoom hand freed hashp) : ∃ top maps, Faithful hand freed hashp top maps := by
  induction run with
  | start use none =>
    obtain ⟨top, h⟩ := Faithful.start use none
    exact ⟨top, [], h⟩
  | elsewhere run other ih =>
    obtain ⟨top, maps, h⟩ := ih
    obtain ⟨top', h'⟩ := h.elsewhere other
    exact ⟨top', maps, h'⟩
  | free run of able frees ih =>
    obtain ⟨top, maps, h⟩ := ih
    obtain ⟨t, again, ⟨maps', h'⟩, _⟩ := h.add of able
    obtain ⟨_, rfl⟩ := again.unique frees
    exact ⟨top, maps', h'⟩
  | reuse run gives ih =>
    obtain ⟨top, maps, h⟩ := ih
    obtain ⟨n, t, again, post⟩ := h.take
    obtain ⟨rfl, rfl⟩ := again.unique gives
    rcases post with ⟨rfl, rfl, rfl⟩ | ⟨_, _, maps', h'⟩
    · exact ⟨top, maps, h⟩
    · exact ⟨top, maps', h'⟩

theorem FreeRun.mono {may may' : List Nat → Htab → Prop} (run : FreeRun may hand freed hashp)
    (weaker : ∀ freed hashp, may freed hashp → may' freed hashp) : FreeRun may' hand freed hashp := by
  induction run with
  | start use none => exact .start use none
  | elsewhere _ other ih => exact .elsewhere ih other
  | free _ of able frees ih => exact .free ih of (weaker _ _ able) frees
  | reuse _ gives ih => exact .reuse ih gives

theorem Faithful.fetch (h : Faithful [] freed hashp top maps) {p : Nat} (some : 0 < p) (low : p < top)
    (out : p ∉ freed) :
    ∃ id mem t, Elsewhere freed hashp [⟨id, p, mem⟩] t ∧ t.hdr = hashp.hdr ∧ hashp.mp.Looks p mem ∧
      Faithful [⟨id, p, mem⟩] freed t top maps ∧
      ∀ q c, q ≠ p → t.mp.Shows q c → hashp.mp.Looks q c := by
  have wp : Wp (fun _ => True) (getPage p hashOvflPage {}) hashp fun _ t => ∃ id mem,
      Knows hashp top (.shown hashp.mp) [⟨id, p, mem⟩] t ∧ hashp.mp.Looks p mem :=
    wp_get h.known List.not_mem_nil (fun _ => some) low (by decide) fun id mem t known looks => ⟨id, mem, known, looks⟩
  obtain ⟨_, t, _, id, mem, known, looks⟩ := wp fun _ _ => trivial
  have apart : ∀ q ∈ freed, q ∉ numbers [⟨id, p, mem⟩] := fun q memq same => by
    obtain rfl : q = p := List.mem_singleton.mp same
    exact out memq
  have shows : ∀ q c, q ≠ p → t.mp.Shows q c → hashp.mp.Looks q c := fun q c ne =>
    known.holds q c fun same => ne (List.mem_singleton.mp same)
  refine ⟨id, mem, t, ⟨⟨top, known.shown⟩, by rw [known.hdr], by rw [known.hdr], by rw [known.hdr], apart,
    fun q memq c => shows q c fun same => out (same ▸ memq)⟩, known.hdr, looks, ?_, shows⟩
  exact ⟨known.shown, h.map.shown known fun q memq => apart q (h.pages.mem_iff.mp memq), h.pages, apart⟩

end Runs

section Example

/-- A table just opened on a file that has overflow pages from page 5 on, of `2 ^ 19` bytes each. -/
def wideTable : Htab :=
  tableOf { twoBuckets with info := some ⟨524288, 2, 0, false, 0, 0, none, none⟩ }
    (initHdr twoBuckets 524288 19) false
    ⟨65542, fun n => pgoutRoutine 524288 false n (FileHash.initPage 524288 (fun _ => 0) n hashOvflPage)⟩

theorem freeLevel_wideTable {hdr : Hashhdr} (point : hdr.ovflPoint = wideTable.hdr.ovflPoint)
    (spares : hdr.spares = wideTable.hdr.spares) (low : 5 ≤ p) : freeLevel hdr p = hdr.ovflPoint + 1 := by
  have top : ∀ l ∈ List.range (wideTable.hdr.ovflPoint + 1), wideTable.hdr.spares l ≤ 5 := by decide +kernel
  rw [freeLevel, List.find?_eq_none.mpr, Option.getD_none]
  intro l mem
  rw [point] at mem
  have := top l mem
  rw [spares]
  simp only [decide_eq_true_eq]
  omega

structure WideRun (k : Nat) (hashp : Htab) : Prop where
  run : FreeRun HasRoom [] (List.range' 5 k).reverse hashp
  list : ∃ maps, Faithful [] (List.range' 5 k).reverse hashp 65542 maps
  size : hashp.hdr.bsize = 524288
  point : hashp.hdr.ovflPoint = wideTable.hdr.ovflPoint
  spares : hashp.hdr.spares = wideTable.hdr.spares
  number : ∀ p, 5 + k ≤ p → p < 65542 → ∀ c, hashp.mp.Shows p c → c.currPgno = p

theorem wideRun_start : WideRun 0 wideTable := by
  have readable : ∀ n, ∃ c, pginRoutine 524288 false n (Pagefile.read ⟨65542, fun n =>
      pgoutRoutine 524288 false n (FileHash.initPage 524288 (fun _ => 0) n hashOvflPage)⟩ n) = some c := by
    intro n
    rw [Pagefile.read]
    split_ifs
    · obtain ⟨d, run, _⟩ := Pagepool.inverse_native.inverse n _ signed_initPage
      exact ⟨d, run⟩
    · exact filters_native.in_zero n
  have known : Knows wideTable 65542 .any [] wideTable := knows_tableOf (fun _ => rfl) rfl readable le_rfl (by decide)
  refine ⟨.start ⟨65542, known.shown⟩ rfl, ?_, rfl, rfl, rfl, fun p high low c shows => ?_⟩
  · exact ⟨[], known.shown, ⟨⟨rfl, trivial, List.nodup_nil, fun _ mem => absurd mem List.not_mem_nil⟩, rfl,
      fun _ mem => absurd mem List.not_mem_nil⟩, .refl _, fun _ mem => absurd mem List.not_mem_nil⟩
  · obtain ⟨_, mem, _⟩ | ⟨_, ⟨d, run, agree⟩ | ⟨beyond, _⟩⟩ := shows
    · exact absurd mem List.not_mem_nil
    · obtain ⟨d', run', agree'⟩ := Pagepool.inverse_native.inverse p
        (FileHash.initPage 524288 (fun _ => 0) p hashOvflPage) signed_initPage
      have same : wideTable.mp.file.read p = pgoutRoutine 524288 false p
          (FileHash.initPage 524288 (fun _ => 0) p hashOvflPage) := if_pos low
      have filter : wideTable.mp.pgin = pginRoutine 524288 false := rfl
      rw [same, filter, run'] at run
      obtain rfl := Option.some.inj run
      rw [agree.currPgno, agree'.currPgno]
      exact currPgno_initPage (by omega)
    · exact absurd low (not_lt.mpr beyond)

theorem WideRun.fetch {k : Nat} (h : WideRun k hashp) (few : k ≤ 65536) : ∃ g t maps, g.pgno = 5 + k ∧
    FreeRun HasRoom [g] (List.range' 5 k).reverse t ∧ Faithful [g] (List.range' 5 k).reverse t 65542 maps ∧
    OfLevel t.hdr g ∧ t.hdr = hashp.hdr ∧ ∀ p c, p ≠ 5 + k → t.mp.Shows p c → hashp.mp.Looks p c := by
  obtain ⟨maps, list⟩ := h.list
  have out : 5 + k ∉ (List.range' 5 k).reverse := by simp
  obtain ⟨id, mem, t, other, hdr, looks, list', shows⟩ := list.fetch (by omega) (show 5 + k < 65542 by omega) out
  obtain ⟨d, told, agree⟩ := looks
  have own : mem.currPgno = 5 + k := agree.currPgno.trans (h.number _ le_rfl (by omega) d told)
  refine ⟨⟨id, 5 + k, mem⟩, t, maps, rfl, .elsewhere h.run other, list', ⟨own, Nat.add_pos_left (by decide) k, ?_⟩,
    hdr, shows⟩
  exact freeLevel_wideTable (by rw [hdr, h.point]) (by rw [hdr, h.spares]) (Nat.le_add_right 5 k)

theorem WideRun.next {k : Nat} (h : WideRun k hashp) (few : k < 65536) : ∃ t, WideRun (k + 1) t := by
  obtain ⟨g, mid, maps, page, run, list, of, hdr, shows⟩ := h.fetch few.le
  have room : HasRoom (List.range' 5 k).reverse mid := by
    rw [HasRoom, hdr, h.size, List.length_reverse, List.length_range']
    have wide : maxNumFreePages 524288 = 131065 := by decide
    omega
  obtain ⟨t, frees, list', v, hdr', shows'⟩ := list.add of room
  have grown : g.pgno :: (List.range' 5 k).reverse = (List.range' 5 (k + 1)).reverse := by
    rw [page, List.range'_1_concat, List.reverse_append, List.reverse_singleton, List.singleton_append]
  have header : t.hdr = (setFreePages mid.hdr.ovflPoint v hashp).hdr := by
    rw [hdr']
    simp only [setFreePages, setHdr, hdr]
  refine ⟨t, grown ▸ .free run of room frees, grown ▸ list', ?_, ?_, ?_, fun p high low c told => ?_⟩
  · rw [header]
    exact h.size
  · rw [header]
    exact h.point
  · rw [header]
    exact h.spares
  · obtain ⟨d, told, agree⟩ := shows' p c (by
      rw [grown]
      simp
      omega) List.not_mem_nil told
    obtain ⟨d', told', agree'⟩ := shows p d (by omega) told
    rw [agree.currPgno, agree'.currPgno]
    exact h.number p (by omega) low d' told'

theorem wideRun {k : Nat} (few : k ≤ 65536) : ∃ hashp, WideRun k hashp := by
  induction k with
  | zero => exact ⟨wideTable, wideRun_start⟩
  | succ k ih =>
    obtain ⟨hashp, h⟩ := ih (by omega)
    exact h.next few

/-- As long as one map page holds it, the free list is faithful: a reuse gives out a page that was freed and has not
been given out since, and none only when there is no such page. -/
theorem free_list (run : FreeRun HasRoom hand freed hashp) : ∃ n t, reuseFreeOvflpage.Returns hashp n t ∧
    (n ≠ 0 → n ∈ freed) ∧ (n = 0 → freed = []) := by
  obtain ⟨top, maps, h⟩ := run.faithful
  obtain ⟨n, t, gives, ⟨rfl, none, _⟩ | ⟨some, mem, _⟩⟩ := h.take
  · exact ⟨0, t, gives, fun some => absurd rfl some, fun _ => none⟩
  · exact ⟨n, t, gives, fun _ => mem, fun none => absurd none some⟩

theorem free_list_three : ∃ hashp t u n m, FreeRun HasRoom [] [7, 6, 5] hashp ∧
    reuseFreeOvflpage.Returns hashp n t ∧ reuseFreeOvflpage.Returns t m u ∧
    n ∈ [7, 6, 5] ∧ m ∈ [7, 6, 5].erase n := by
  obtain ⟨hashp, h⟩ := wideRun (show 3 ≤ 65536 by decide)
  have run : FreeRun HasRoom [] [7, 6, 5] hashp := h.run
  obtain ⟨n, t, gives, mem, none⟩ := free_list run
  have one : n ∈ [7, 6, 5] := mem fun zero => List.cons_ne_nil _ _ (none zero)
  obtain ⟨m, u, again, mem', none'⟩ := free_list (run.reuse gives)
  have left : ([7, 6, 5].erase n).length = 2 := List.length_erase_of_mem one
  refine ⟨hashp, t, u, n, m, run, gives, again, one, mem' fun zero => ?_⟩
  rw [none' zero] at left
  cases left

/-- Of 65537 pages that are freed one after the other, a first reuse gives out the map page, since its count is 0 again,
and a second one none. -/
theorem free_list_fails : ∃ freed hashp t, FreeRun (fun _ _ => True) [] freed hashp ∧ hashp.hdr.bsize = 524288 ∧
    freed ≠ [] ∧ reuseFreeOvflpage.Returns hashp 0 t := by
  obtain ⟨hashp, h⟩ := wideRun le_rfl
  obtain ⟨g, mid, maps, page, run, list, of, hdr, _⟩ := h.fetch le_rfl
  have apart : ∀ p ∈ maps.pages, p ∉ numbers [g] := fun p mem => list.apart p (list.pages.mem_iff.mp mem)
  have wide : maxNumFreePages mid.hdr.bsize = 131065 := by rw [hdr, h.size]; decide
  have full : ∀ e ∈ maps, e.2.length = 65535 := by
    intro e mem
    have length := (list.length mem).2
    rw [List.length_reverse, List.length_range'] at length
    omega
  obtain ⟨t, h₁, acc, frees, known, map, rfl, _⟩ := list.map.free list.known of apart fun e mem => by
    rw [full e mem, wide]
    decide
  have after : FreeRun (fun _ _ => True) [] (g.pgno :: (List.range' 5 65536).reverse) t :=
    .free (run.mono fun _ _ _ => trivial) of trivial frees
  -- the count of the map page has gone back to 0
  obtain ⟨m, lost⟩ : ∃ m, maps.push g.pgno = [(m, [])] := by
    cases maps with
    | nil => exact absurd list.pages.length_eq (by rw [List.length_reverse, List.length_range']; decide)
    | cons e rest =>
      obtain rfl : rest = [] := list.map.one
      exact ⟨e.1, by rw [FreeMap.push, listed, if_pos (full e List.mem_cons_self)]⟩
  obtain ⟨n, u, gives, first⟩ := map.reuse known fun _ _ => List.not_mem_nil
  rw [lost] at first
  obtain ⟨_, none, _⟩ | ⟨_, h₂, acc', maps', perm, map', known', rfl⟩ := first
  · cases none
  obtain rfl : maps' = [] := by
    have length := perm.length_eq
    cases maps' with
    | nil => rfl
    | cons e rest => simp [FreeMap.pages] at length
  obtain ⟨n', v, gives', ⟨rfl, _⟩ | ⟨_, h₃, acc'', maps'', perm', _⟩⟩ := map'.reuse known' fun _ _ => List.not_mem_nil
  · refine ⟨_, u, v, .reuse after gives, ?_, fun none => ?_, gives'⟩
    · rw [known'.hdr]
      exact (congrArg Hashhdr.bsize hdr).trans h.size
    · have least := List.le_length_erase (a := n) (l := g.pgno :: (List.range' 5 65536).reverse)
      rw [none, List.length_cons, List.length_reverse, List.length_range'] at least
      exact absurd least (by decide)
  · cases List.nil_perm.mp perm'

end Example

end FileHash.Htab
