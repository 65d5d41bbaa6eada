import FileHash.PoolRefinement
import FileHash.Table

/-! Programs on the pages of a table, for one thread that keeps account of them. `Knows`
holds of a table which pages the thread holds, with the bytes each of them has, and what a
fetch of any other page finds. Each operation on a page has one rule; the rules hold for
every account, so what is said of the pages a program does not touch goes through it. -/
namespace FileHash.Htab

open Lib (Prog)
open Lib.Prog (Wp wp_bind wp_pure wp_mono)
open Page

structure Taken where
  id : Nat
  pgno : Nat
  mem : Page

structure Account where
  holds : Nat → Page → Prop
  agree : ∀ {p c d}, holds p d → Agree c d → holds p c

namespace Account

/-- Page `p` has just these bytes, and of the others the same holds as before. -/
def set (acc : Account) (p : Nat) (mem : Page) : Account where
  holds q c := if q = p then Agree c mem else acc.holds q c
  agree {q c d} holds agree := by
    split_ifs at holds ⊢
    · exact agree.trans holds
    · exact acc.agree holds agree

variable {acc : Account} {p q : Nat} {c mem : Page}

@[simp] theorem set_same : (acc.set p mem).holds p c ↔ Agree c mem := by simp [set]

@[simp] theorem set_other (ne : q ≠ p) : (acc.set p mem).holds q c ↔ acc.holds q c := by simp [set, ne]

end Account

def numbers (hand : List Taken) : List Nat := hand.map Taken.pgno

/-- No page is pinned, and the header is not in the cache. -/
def Idle (hashp : Htab) : Prop :=
  ∀ id ∈ hashp.mp.lqh, (hashp.mp.bkt id).pinned = false ∧ (hashp.mp.bkt id).ref = 0 ∧ 0 < (hashp.mp.bkt id).pgno

/-- What the thread knows of the table `hashp`, which is `h₀` with another pool: no fetch fails,
all page numbers in use are below `top` and there are more, `hand` is in hand, and what `acc` has of the
other pages is true. A page in hand that is not marked may be lost to its image in the file. If `h₀` is
idle, nothing is pinned but the pages in hand, each once. -/
structure Knows (h₀ : Htab) (top : Nat) (acc : Account) (hand : List Taken) (hashp : Htab) : Prop where
  frame : hashp = { h₀ with mp := hashp.mp, fetches := hashp.fetches, held := hashp.held }
  noFault : ∀ n, h₀.fault n = false
  sound : Pagepool.Sound self hashp.mp
  counted : hashp.mp.Counted
  inverse : Pagepool.Inverse Pagepool.Signed hashp.mp.pgin hashp.mp.pgout
  below : hashp.mp.Below top
  few : top < maxPageNumber
  distinct : (numbers hand).Nodup
  hands : ∀ g ∈ hand, g.id ∈ hashp.mp.lqh ∧ (hashp.mp.bkt g.id).pgno = g.pgno ∧
    (hashp.mp.bkt g.id).pinned = true ∧ (hashp.mp.bkt g.id).page = g.mem
  holds : ∀ p c, p ∉ numbers hand → hashp.mp.Shows p c → acc.holds p c
  behind : ∀ g ∈ hand, ∀ c, hashp.mp.CleanAt g.pgno → hashp.mp.Stored g.pgno c → acc.holds g.pgno c
  pins : h₀.Idle → hashp.mp.Once ∧ ∀ id ∈ hashp.mp.lqh, 0 < (hashp.mp.bkt id).pgno ∧
    ((hashp.mp.bkt id).pinned = true → ∃ g ∈ hand, g.id = id)
  fixed : hashp.mp.pgin = h₀.mp.pgin ∧ hashp.mp.pgout = h₀.mp.pgout ∧ hashp.mp.rdonly = h₀.mp.rdonly
  reached : h₀.mp.Reached → hashp.mp.Reached

variable {h₀ hashp : Htab} {top p id : Nat} {acc acc' : Account} {hand hand' : List Taken} {g : Taken}
  {mem : Page} {adm : Event → Prop} {α : Type}

namespace Knows

theorem mono (h : Knows h₀ top acc hand hashp) (weaker : ∀ p c, acc.holds p c → acc'.holds p c) :
    Knows h₀ top acc' hand hashp :=
  { h with
    holds := fun p c out shows => weaker p c (h.holds p c out shows)
    behind := fun g memg c clean stored => weaker g.pgno c (h.behind g memg c clean stored) }

theorem perm (h : Knows h₀ top acc hand hashp) (same : hand.Perm hand') :
    Knows h₀ top acc hand' hashp := by
  have numbers : (numbers hand).Perm (numbers hand') := same.map _
  exact { h with
    distinct := numbers.nodup_iff.mp h.distinct
    hands := fun g memg => h.hands g (same.mem_iff.mpr memg)
    holds := fun p c out => h.holds p c fun memp => out (numbers.mem_iff.mp memp)
    behind := fun g memg => h.behind g (same.mem_iff.mpr memg)
    pins := fun idle => (h.pins idle).imp_right fun only id mem =>
      (only id mem).imp_right fun mine pin => (mine pin).imp fun _ => And.imp_left same.mem_iff.mp }

theorem swap {a b : Taken} (h : Knows h₀ top acc (a :: b :: hand) hashp) :
    Knows h₀ top acc (b :: a :: hand) hashp := h.perm (List.Perm.swap b a hand)

theorem hdr (h : Knows h₀ top acc hand hashp) : hashp.hdr = h₀.hdr := by rw [h.frame]

theorem raise (h : Knows h₀ top acc hand hashp) {top' : Nat} (le : top ≤ top')
    (few : top' < maxPageNumber) : Knows h₀ top' acc hand hashp :=
  { h with few := few, below := ⟨h.below.file.trans le, h.below.top.trans le,
      fun id mem => (h.below.cache id mem).trans_le le⟩ }

theorem base (h : Knows h₀ top acc hand hashp) (h₁ : Htab) (fault : h₁.fault = h₀.fault)
    (idle : h₁.Idle → h₀.Idle)
    (fixed : h₁.mp.pgin = h₀.mp.pgin ∧ h₁.mp.pgout = h₀.mp.pgout ∧ h₁.mp.rdonly = h₀.mp.rdonly)
    (reached : h₁.mp.Reached → h₀.mp.Reached) :
    Knows h₁ top acc hand { h₁ with mp := hashp.mp, fetches := hashp.fetches, held := hashp.held } :=
  { frame := rfl
    noFault := by rw [fault]; exact h.noFault
    sound := h.sound
    counted := h.counted
    inverse := h.inverse
    below := h.below
    few := h.few
    distinct := h.distinct
    hands := h.hands
    holds := h.holds
    behind := h.behind
    pins := fun still => h.pins (idle still)
    fixed := ⟨h.fixed.1.trans fixed.1.symm, h.fixed.2.1.trans fixed.2.1.symm, h.fixed.2.2.trans fixed.2.2.symm⟩
    reached := fun r => h.reached (reached r) }

theorem setHdr (h : Knows h₀ top acc hand hashp) (f : Hashhdr → Hashhdr) :
    Knows (Htab.setHdr f h₀) top acc hand (Htab.setHdr f hashp) := by
  have moved := h.base (Htab.setHdr f h₀) rfl id ⟨rfl, rfl, rfl⟩ id
  rw [h.frame]
  exact moved

theorem setCurrDpage (h : Knows h₀ top acc hand hashp) (p : Nat) :
    Knows { h₀ with currDpage := p } top acc hand { hashp with currDpage := p } := by
  have moved := h.base { h₀ with currDpage := p } rfl id ⟨rfl, rfl, rfl⟩ id
  rw [h.frame]
  exact moved

theorem note (h : Knows h₀ top acc hand hashp) (fetches : Nat) (held : List Nat) :
    Knows h₀ top acc hand { hashp with fetches := fetches, held := held } :=
  { h with frame := by conv_lhs => rw [h.frame] }

theorem id_ne (h : Knows h₀ top acc (g :: hand) hashp) {g' : Taken} (mem : g' ∈ hand) :
    g'.id ≠ g.id ∧ g'.pgno ≠ g.pgno := by
  have out : g.pgno ∉ numbers hand := (List.nodup_cons.mp h.distinct).1
  have ne : g'.pgno ≠ g.pgno := fun same => out (same ▸ List.mem_map_of_mem mem)
  refine ⟨fun same => ne ?_, ne⟩
  rw [← (h.hands g' (List.mem_cons_of_mem _ mem)).2.1, same]
  exact (h.hands g List.mem_cons_self).2.1

theorem hand_lt (h : Knows h₀ top acc hand hashp) (mem : p ∈ numbers hand) : p < top := by
  obtain ⟨g, memg, rfl⟩ := List.mem_map.mp mem
  obtain ⟨cached, number, _⟩ := h.hands g memg
  exact number ▸ h.below.cache g.id cached

/-- The page pool takes page `p` into the hands of the thread. -/
theorem take (h : Knows h₀ top acc hand hashp) (out : p ∉ numbers hand) (pos : h₀.Idle → 0 < p) {mp : Pagepool}
    (takes : Pagepool.Takes self p hashp.mp id mp) {top' : Nat} (le : top ≤ top') (low : p < top')
    (few : top' < maxPageNumber) : Knows h₀ top' acc (⟨id, p, (mp.bkt id).page⟩ :: hand)
    (hold id (setMp mp hashp)) := by
  have held : ∀ g ∈ hand, g.id ≠ id ∧ g.id ∈ mp.lqh ∧ mp.bkt g.id = hashp.mp.bkt g.id := by
    intro g memg
    obtain ⟨cached, number, pinned, _⟩ := h.hands g memg
    exact takes.held g.id cached pinned fun same => out (same ▸ number ▸ List.mem_map_of_mem memg)
  have below := takes.below top' low (h.raise le few).below
  refine ⟨?_, h.noFault, takes.sound h.sound, takes.counted, ?_, below, few, ?_, ?_, ?_, ?_, fun idle => ?_,
    ⟨takes.pgin.trans h.fixed.1, takes.pgout.trans h.fixed.2.1, takes.rdonly.trans h.fixed.2.2⟩,
    fun r => takes.reached (h.reached r)⟩
  · conv_lhs => rw [h.frame]
    rfl
  · change Pagepool.Inverse Pagepool.Signed mp.pgin mp.pgout
    rw [takes.pgin, takes.pgout]
    exact h.inverse
  · exact List.nodup_cons.mpr ⟨out, h.distinct⟩
  · refine List.forall_mem_cons.mpr ⟨⟨takes.mem, takes.number, takes.pinned, rfl⟩, fun g memg => ?_⟩
    obtain ⟨_, cached, same⟩ := held g memg
    change g.id ∈ mp.lqh ∧ (mp.bkt g.id).pgno = _ ∧ (mp.bkt g.id).pinned = true ∧ (mp.bkt g.id).page = _
    rw [same]
    exact ⟨cached, (h.hands g memg).2⟩
  · intro q c outq shows
    have ne : q ≠ p := fun same => outq (same ▸ List.mem_cons_self)
    exact h.holds q c (fun memq => outq (List.mem_cons_of_mem _ memq)) (takes.shows h.sound q c ne shows)
  · refine List.forall_mem_cons.mpr ⟨fun c clean stored => ?_, fun g memg c clean stored => ?_⟩
    · exact h.holds p c out (takes.stored c clean stored)
    · obtain ⟨_, cached, same⟩ := held g memg
      obtain ⟨cached₀, number, pinned, _⟩ := h.hands g memg
      have only : ∀ j ∈ hashp.mp.lqh, (hashp.mp.bkt j).pgno = g.pgno → j = g.id := fun j memj eq =>
        h.sound.linked.unique j memj g.id cached₀ (eq.trans number.symm)
      refine h.behind g memg c (fun j memj eq => ?_) (stored.congr takes.pgin ?_ takes.npages)
      · rw [only j memj eq, ← same]
        exact clean g.id cached (by
          change (mp.bkt g.id).pgno = _
          rw [same, number])
      · refine takes.image g.pgno fun j memj eq => ?_
        rw [only j memj eq]
        exact pinned
  · obtain ⟨once, only⟩ := h.pins idle
    -- nobody else has the page
    have free : ∀ j ∈ hashp.mp.lqh, (hashp.mp.bkt j).pgno = p → (hashp.mp.bkt j).pinned = false := by
      intro j memj number
      by_contra pin
      obtain ⟨g, memg, rfl⟩ := (only j memj).2 (by simpa using pin)
      rw [(h.hands g memg).2.1] at number
      exact out (number ▸ List.mem_map_of_mem memg)
    refine ⟨takes.once once free, fun j memj => ?_⟩
    by_cases same : j = id
    · refine ⟨?_, fun _ => ⟨_, List.mem_cons_self, same.symm⟩⟩
      change 0 < (mp.bkt j).pgno
      rw [same, takes.number]
      exact pos idle
    · obtain ⟨old, flushed⟩ := takes.others j memj same
      have number : (mp.bkt j).pgno = (hashp.mp.bkt j).pgno := flushed.same.1
      refine ⟨number ▸ (only j old).1, fun pin => ?_⟩
      have was : (hashp.mp.bkt j).pinned = true := flushed.same.2.1.symm.trans pin
      obtain ⟨g, memg, eq⟩ := (only j old).2 was
      exact ⟨g, List.mem_cons_of_mem _ memg, eq⟩

theorem change (h : Knows h₀ top acc (g :: hand) hashp) {mp : Pagepool} {b : Bkt}
    (changes : Pagepool.Changes self g.id b hashp.mp mp) (number : b.pgno = g.pgno)
    (pinned : b.pinned = true) (dirty : b.dirty = (hashp.mp.bkt g.id).dirty) (ref : b.ref = (hashp.mp.bkt g.id).ref) :
    Knows h₀ top acc (⟨g.id, g.pgno, b.page⟩ :: hand) (setMp mp hashp) := by
  obtain ⟨cached, number₀, held, _⟩ := h.hands g List.mem_cons_self
  have keep : b.pgno = (hashp.mp.bkt g.id).pgno := number.trans number₀.symm
  refine ⟨?_, h.noFault, changes.sound h.sound fun _ free => ?_, changes.counted, ?_,
    changes.below keep h.below, h.few, h.distinct, ?_, ?_, ?_, fun idle => ?_,
    ⟨changes.pgin.trans h.fixed.1, changes.pgout.trans h.fixed.2.1, changes.rdonly.trans h.fixed.2.2⟩,
    fun r => changes.reached (h.reached r)⟩
  · conv_lhs => rw [h.frame]
    rfl
  · rw [pinned] at free
    cases free
  · change Pagepool.Inverse Pagepool.Signed mp.pgin mp.pgout
    rw [changes.pgin, changes.pgout]
    exact h.inverse
  · refine List.forall_mem_cons.mpr ⟨?_, fun g' memg => ?_⟩
    · change g.id ∈ mp.lqh ∧ (mp.bkt g.id).pgno = g.pgno ∧ (mp.bkt g.id).pinned = true ∧
        (mp.bkt g.id).page = b.page
      rw [changes.lqh, changes.entry]
      exact ⟨cached, number, pinned, rfl⟩
    · have := h.hands g' (List.mem_cons_of_mem _ memg)
      change g'.id ∈ mp.lqh ∧ (mp.bkt g'.id).pgno = _ ∧ (mp.bkt g'.id).pinned = true ∧
        (mp.bkt g'.id).page = _
      rw [changes.lqh, changes.others g'.id (h.id_ne memg).1]
      exact this
  · intro q c outq shows
    have ne : q ≠ b.pgno := fun same => outq (by rw [same, number]; exact List.mem_cons_self)
    exact h.holds q c outq ((changes.shows keep ne).mp shows)
  · have clean_iff : ∀ q, mp.CleanAt q → hashp.mp.CleanAt q := by
      intro q clean
      by_cases same : q = b.pgno
      · subst same
        have none := changes.cleanAt_same cached clean
        intro j memj eq
        rw [h.sound.linked.unique j memj g.id cached (eq.trans keep), ← dirty]
        exact none
      · exact (changes.cleanAt keep same).mp clean
    refine List.forall_mem_cons.mpr ⟨fun c clean stored => ?_, fun g' memg c clean stored => ?_⟩
    · exact h.behind g List.mem_cons_self c (clean_iff _ clean) (changes.stored.mp stored)
    · exact h.behind g' (List.mem_cons_of_mem _ memg) c (clean_iff _ clean) (changes.stored.mp stored)
  · obtain ⟨once, only⟩ := h.pins idle
    have entries : ∀ j ∈ mp.lqh, (mp.bkt j).pinned = (hashp.mp.bkt j).pinned ∧
        (mp.bkt j).ref = (hashp.mp.bkt j).ref ∧ (mp.bkt j).pgno = (hashp.mp.bkt j).pgno := by
      intro j _
      by_cases same : j = g.id
      · rw [same, changes.entry, pinned, held]
        exact ⟨rfl, ref, keep⟩
      · rw [changes.others j same]
        exact ⟨rfl, rfl, rfl⟩
    refine ⟨fun j memj => ?_, fun j memj => ⟨?_, fun pin => ?_⟩⟩
    · change (mp.bkt j).ref = if (mp.bkt j).pinned then 1 else 0
      rw [(entries j memj).1, (entries j memj).2.1]
      exact once j (changes.lqh ▸ memj)
    · change 0 < (mp.bkt j).pgno
      rw [(entries j memj).2.2]
      exact (only j (changes.lqh ▸ memj)).1
    · rw [show ((setMp mp hashp).mp.bkt j).pinned = _ from (entries j memj).1] at pin
      obtain ⟨g', memg, eq⟩ := (only j (changes.lqh ▸ memj)).2 pin
      rcases List.mem_cons.mp memg with rfl | later
      · exact ⟨_, List.mem_cons_self, eq⟩
      · exact ⟨g', List.mem_cons_of_mem _ later, eq⟩

theorem release (h : Knows h₀ top acc (g :: hand) hashp) {mp : Pagepool} {dirty : Bool}
    (changes : Pagepool.Changes self g.id (Pagepool.release dirty (hashp.mp.bkt g.id)) hashp.mp mp)
    (signed : Pagepool.Signed g.mem) (others : ∀ q c, q ≠ g.pgno → acc.holds q c → acc'.holds q c)
    (mine : acc'.holds g.pgno g.mem) (lost : dirty = false → ∀ c, acc.holds g.pgno c → acc'.holds g.pgno c) :
    Knows h₀ top acc' hand (unhold g.id (setMp mp hashp)) := by
  obtain ⟨cached, number, held, page⟩ := h.hands g List.mem_cons_self
  have out : g.pgno ∉ numbers hand := (List.nodup_cons.mp h.distinct).1
  have keep : (Pagepool.release dirty (hashp.mp.bkt g.id)).pgno = (hashp.mp.bkt g.id).pgno := rfl
  refine ⟨?_, h.noFault, changes.sound h.sound fun _ _ => ?_, changes.counted, ?_,
    changes.below keep h.below, h.few, (List.nodup_cons.mp h.distinct).2, ?_, ?_, ?_, fun idle => ?_,
    ⟨changes.pgin.trans h.fixed.1, changes.pgout.trans h.fixed.2.1, changes.rdonly.trans h.fixed.2.2⟩,
    fun r => changes.reached (h.reached r)⟩
  · conv_lhs => rw [h.frame]
    rfl
  · change hashp.mp.RoundTrip (hashp.mp.bkt g.id).pgno (hashp.mp.bkt g.id).page
    rw [page]
    exact h.inverse.inverse _ _ signed
  · change Pagepool.Inverse Pagepool.Signed mp.pgin mp.pgout
    rw [changes.pgin, changes.pgout]
    exact h.inverse
  · intro g' memg
    have := h.hands g' (List.mem_cons_of_mem _ memg)
    change g'.id ∈ mp.lqh ∧ (mp.bkt g'.id).pgno = _ ∧ (mp.bkt g'.id).pinned = true ∧
      (mp.bkt g'.id).page = _
    rw [changes.lqh, changes.others g'.id (h.id_ne memg).1]
    exact this
  · intro q c outq shows
    by_cases same : q = g.pgno
    · subst same
      have told : mp.Shows (Pagepool.release dirty (hashp.mp.bkt g.id)).pgno c := by
        change mp.Shows (hashp.mp.bkt g.id).pgno c
        rw [number]
        exact shows
      rcases (changes.shows_same cached).mp told with agree | ⟨unmarked, stored⟩
      · refine acc'.agree mine ?_
        rw [← page]
        exact agree
      · simp only [Pagepool.release, Bool.or_eq_false_iff] at unmarked
        refine lost unmarked.2 c (h.behind g List.mem_cons_self c (fun j memj eq => ?_) ?_)
        · rw [h.sound.linked.unique j memj g.id cached (eq.trans number.symm)]
          exact unmarked.1
        · rw [← number]
          exact stored
    · have ne : q ≠ (hashp.mp.bkt g.id).pgno := by rw [number]; exact same
      refine others q c same (h.holds q c ?_ ((changes.shows keep ne).mp shows))
      rw [numbers, List.map_cons, List.mem_cons, not_or]
      exact ⟨same, outq⟩
  · intro g' memg c clean stored
    have ne : g'.pgno ≠ (hashp.mp.bkt g.id).pgno := by rw [number]; exact (h.id_ne memg).2
    exact others _ c (h.id_ne memg).2 (h.behind g' (List.mem_cons_of_mem _ memg) c
      ((changes.cleanAt keep ne).mp clean) (changes.stored.mp stored))
  · obtain ⟨once, only⟩ := h.pins idle
    have one := once g.id cached
    rw [held, if_pos rfl] at one
    have free : (Pagepool.release dirty (hashp.mp.bkt g.id)).ref = 0 ∧
        (Pagepool.release dirty (hashp.mp.bkt g.id)).pinned = false := by
      simp [Pagepool.release, one]
    refine ⟨fun j memj => ?_, fun j memj => ⟨?_, fun pin => ?_⟩⟩
    · change (mp.bkt j).ref = if (mp.bkt j).pinned then 1 else 0
      by_cases same : j = g.id
      · rw [same, changes.entry, free.1, free.2]
        rfl
      · rw [changes.others j same]
        exact once j (changes.lqh ▸ memj)
    · change 0 < (mp.bkt j).pgno
      have number : (mp.bkt j).pgno = (hashp.mp.bkt j).pgno := by
        by_cases same : j = g.id
        · rw [same, changes.entry]
          rfl
        · rw [changes.others j same]
      rw [number]
      exact (only j (changes.lqh ▸ memj)).1
    · change (mp.bkt j).pinned = true at pin
      by_cases same : j = g.id
      · rw [same, changes.entry, free.2] at pin
        cases pin
      · rw [changes.others j same] at pin
        obtain ⟨g', memg, eq⟩ := (only j (changes.lqh ▸ memj)).2 pin
        rcases List.mem_cons.mp memg with rfl | later
        · exact absurd eq.symm same
        · exact ⟨g', later, eq⟩

end Knows

section Rules

variable {Q : α → Htab → Prop} {addr ty : Nat} {flags : PageFlags}

theorem wp_fails (h : Knows h₀ top acc hand hashp) {Q : Bool → Htab → Prop}
    (next : Q false { hashp with fetches := hashp.fetches + 1 }) : Wp adm fails hashp Q := by
  have fine : hashp.fault hashp.fetches = false := by
    rw [h.frame]
    exact h.noFault _
  refine wp_bind (Prog.wp_read (wp_bind (Prog.wp_modify ?_)))
  simp only [fine, Bool.false_eq_true, if_false]
  exact wp_pure next

theorem wp_address_other {Q : Nat → Htab → Prop} (other : ty ≠ hashBucketPage) (next : Q addr hashp) :
    Wp adm (address addr ty) hashp Q := by
  refine wp_bind (Prog.wp_read ?_)
  rw [if_neg other]
  exact wp_pure next

theorem wp_address_bucket {Q : Nat → Htab → Prop} (low : addr < 0x80000000)
    (next : Q (hashp.hdr.bucketToPage addr) hashp) : Wp adm (address addr hashBucketPage) hashp Q := by
  refine wp_bind (Prog.wp_read ?_)
  rw [if_pos rfl, if_neg (not_le.mpr low)]
  exact wp_pure next

theorem wp_page (h : Knows h₀ top acc hand hashp) (mem : g ∈ hand) {Q : Page → Htab → Prop}
    (next : Q g.mem hashp) : Wp adm (page g.id) hashp Q := by
  refine Prog.wp_reads ?_
  rw [(h.hands g mem).2.2.2]
  exact next

theorem sameRun_page (h : Knows h₀ top acc hand hashp) (mem : g ∈ hand) {k : Page → Run α} {m : Run α}
    (same : Prog.SameRun (k g.mem) m hashp) : Prog.SameRun (page g.id >>= k) m hashp := by
  refine Prog.sameRun_reads ?_
  rw [(h.hands g mem).2.2.2]
  exact same

theorem wp_store (h : Knows h₀ top acc (g :: hand) hashp) (f : Page → Page) {Q : Unit → Htab → Prop}
    (next : ∀ hashp', Knows h₀ top acc (⟨g.id, g.pgno, f g.mem⟩ :: hand) hashp' → Q () hashp') :
    Wp adm (store g.id f) hashp Q := by
  obtain ⟨_, number, pinned, page⟩ := h.hands g List.mem_cons_self
  obtain ⟨mp, run, changes⟩ : ∃ mp, (Pagepool.store (ε := Event) g.id f).run hashp.mp = (.ok () mp, []) ∧
      Pagepool.Changes self g.id _ hashp.mp mp := Pagepool.store_spec h.sound.toTidy h.counted f
  refine Prog.wp_zoom (Prog.wp_of_run (by rw [run]) (next _ ?_))
  have changed := h.change changes number pinned rfl rfl
  rw [page] at changed
  exact changed

theorem wp_initPage (h : Knows h₀ top acc (g :: hand) hashp) (n ty : Nat) {Q : Unit → Htab → Prop}
    (next : ∀ hashp', Knows h₀ top acc
      (⟨g.id, g.pgno, FileHash.initPage h₀.hdr.bsize g.mem n ty⟩ :: hand) hashp' → Q () hashp') :
    Wp adm (initPage g.id n ty) hashp Q := by
  refine wp_bind (Prog.wp_read (wp_store h _ ?_))
  rw [h.hdr]
  exact next

theorem wp_noteSlip {why : Slip} {Q : Unit → Htab → Prop} (next : Q () hashp) :
    Wp adm (noteSlip id why) hashp Q := by
  refine wp_bind (Prog.wp_read (Prog.wp_ite (fun _ => Prog.wp_mark fun _ => next) fun _ => wp_pure next))

theorem wp_noteAgain {Q : Unit → Htab → Prop} (next : Q () hashp) : Wp adm (noteAgain p) hashp Q := by
  refine wp_bind (Prog.wp_read ?_)
  split
  · exact Prog.wp_ite (fun _ => Prog.wp_mark fun _ => next) fun _ => wp_pure next
  · exact wp_pure next

theorem wp_putPage (h : Knows h₀ top acc (g :: hand) hashp) {dirty : Bool}
    (signed : Pagepool.Signed g.mem) (others : ∀ q c, q ≠ g.pgno → acc.holds q c → acc'.holds q c)
    (mine : acc'.holds g.pgno g.mem) (lost : dirty = false → ∀ c, acc.holds g.pgno c → acc'.holds g.pgno c)
    {Q : Unit → Htab → Prop} (next : ∀ hashp', Knows h₀ top acc' hand hashp' → Q () hashp') :
    Wp adm (putPage g.id dirty) hashp Q := by
  obtain ⟨_, _, pinned, _⟩ := h.hands g List.mem_cons_self
  obtain ⟨mp, run, changes⟩ := Pagepool.putPage_spec (ε := Event) h.sound.toTidy h.counted pinned dirty
  refine wp_bind (Prog.wp_zoom (Prog.wp_of_run (by rw [run]) (Prog.wp_modify (next _ ?_))))
  exact h.release changes signed others mine lost

theorem wp_putDirty (h : Knows h₀ top acc (g :: hand) hashp) (signed : Pagepool.Signed g.mem)
    {Q : Unit → Htab → Prop} (next : ∀ hashp', Knows h₀ top (acc.set g.pgno g.mem) hand hashp' → Q () hashp') :
    Wp adm (putPage g.id true) hashp Q :=
  wp_putPage h signed (fun _ _ ne => (Account.set_other ne).mpr) (Account.set_same.mpr (.refl _))
    (fun clean => by cases clean) next

theorem wp_putClean (h : Knows h₀ top acc (g :: hand) hashp) (signed : Pagepool.Signed g.mem)
    (same : acc.holds g.pgno g.mem) {Q : Unit → Htab → Prop}
    (next : ∀ hashp', Knows h₀ top acc hand hashp' → Q () hashp') :
    Wp adm (putPage g.id false) hashp Q :=
  wp_putPage h signed (fun _ _ _ => id) same (fun _ _ => id) next

theorem Knows.numbered (h : Knows h₀ top acc hand hashp) : hashp.mp.maxpgno ≠ maxPageNumber :=
  (h.below.top.trans_lt h.few).ne

theorem wp_fetch (h : Knows h₀ top acc hand hashp) (out : p ∉ numbers hand) (pos : h₀.Idle → 0 < p) (low : p < top)
    (plain : flags.new = false) (may : flags.dirty = false ∨ h₀.mp.rdonly = false) {Q : Option Nat → Htab → Prop}
    (next : ∀ id mem hashp', Knows h₀ top acc (⟨id, p, mem⟩ :: hand) hashp' → acc.holds p mem →
      Q (some id) hashp') : Wp adm (fetch p flags) hashp Q := by
  obtain ⟨id, mp, run, takes, fetched⟩ := Pagepool.getPage_spec (ε := Event) (p := p) h.sound h.counted
    plain (fun dirty => h.fixed.2.2.trans (may.resolve_left (by simp [dirty]))) fun _ _ _ => h.numbered
  refine wp_bind (wp_noteAgain (wp_bind (Prog.wp_zoom (Prog.wp_of_run (by rw [run]) ?_))))
  refine wp_bind (Prog.wp_modify (wp_pure ?_))
  exact next id _ _ (h.take out pos takes le_rfl low h.few) (h.holds p _ out fetched.content)

theorem wp_fetchNew (h : Knows h₀ top acc hand hashp) (pos : h₀.Idle → 0 < p) (high : top ≤ p)
    (few : p + 1 < maxPageNumber)
    (plain : flags.new = false) (clean : flags.dirty = false) (make : flags.create = true)
    {Q : Option Nat → Htab → Prop}
    (next : ∀ id mem hashp', Knows h₀ (p + 1) acc (⟨id, p, mem⟩ :: hand) hashp' → Clear mem →
      Q (some id) hashp') : Wp adm (fetch p flags) hashp Q := by
  have fresh : ¬hashp.mp.Cached p := by
    rintro ⟨j, mem, number⟩
    have := h.below.cache j mem
    omega
  obtain ⟨id, mp, run, takes, fetched, clear⟩ := Pagepool.getPage_created (ε := Event) h.sound.toTidy
    h.counted plain (fun dirty => by rw [clean] at dirty; cases dirty) make fresh
    (h.below.file.trans high) h.numbered
  refine wp_bind (wp_noteAgain (wp_bind (Prog.wp_zoom (Prog.wp_of_run (by rw [run]) ?_))))
  refine wp_bind (Prog.wp_modify (wp_pure ?_))
  have out : p ∉ numbers hand := fun mem => absurd (h.hand_lt mem) (not_lt.mpr high)
  exact next id _ _ (h.take out pos takes (high.trans (Nat.le_succ p)) (Nat.lt_succ_self p) few) clear

/-- What `ffdb_get_page` makes of a page it has fetched. -/
def opened (bsize : Nat) (flags : PageFlags) (p ty : Nat) (c : Page) : Page :=
  if flags.create ∧ c.currPgno = 0 then FileHash.initPage bsize c p ty else c

theorem opened_plain {bsize : Nat} {c : Page} : opened bsize {} p ty c = c := if_neg (by simp)

/-- What follows the fetch in `ffdb_get_page`. -/
theorem wp_opened (h : Knows h₀ top acc (⟨id, p, mem⟩ :: hand) hashp) {Q : Option Nat × Nat → Htab → Prop}
    (next : ∀ hashp', Knows h₀ top acc (⟨id, p, opened h₀.hdr.bsize flags p ty mem⟩ :: hand) hashp' →
      Q (some id, p) hashp') :
    Wp adm (do
      let c ← page id
      if flags.create ∧ c.currPgno = 0 then
        initPage id p ty
        noteSlip id .unnumbered
      pure (some id, p)) hashp Q := by
  refine wp_bind (wp_page h List.mem_cons_self ?_)
  unfold opened at next
  by_cases blank : flags.create ∧ mem.currPgno = 0
  · rw [if_pos blank] at next ⊢
    exact wp_bind (wp_initPage h p ty fun hashp' h' => wp_bind (wp_noteSlip (wp_pure (next hashp' h'))))
  · rw [if_neg blank] at next ⊢
    exact wp_bind (wp_pure (wp_pure (next hashp h)))

theorem wp_getPage (h : Knows h₀ top acc hand hashp) (out : p ∉ numbers hand) (pos : h₀.Idle → 0 < p) (low : p < top)
    (plain : flags.new = false) (may : flags.dirty = false ∨ h₀.mp.rdonly = false)
    (address : ∀ {Q : Nat → Htab → Prop}, Q p hashp → Wp adm (address addr ty) hashp Q)
    {Q : Option Nat × Nat → Htab → Prop}
    (next : ∀ id mem hashp', Knows h₀ top acc
      (⟨id, p, opened h₀.hdr.bsize flags p ty mem⟩ :: hand) hashp' → acc.holds p mem →
      Q (some id, p) hashp') : Wp adm (getPage addr ty flags) hashp Q := by
  refine wp_bind (address (wp_bind (wp_fails h ?_)))
  rw [if_neg Bool.false_ne_true]
  refine wp_bind (wp_fetch (h.note _ _) out pos low plain may fun id mem hashp' h' holds => ?_)
  exact wp_opened h' fun hashp'' h'' => next id mem hashp'' h'' holds

theorem wp_get (h : Knows h₀ top acc hand hashp) (out : p ∉ numbers hand) (pos : h₀.Idle → 0 < p) (low : p < top)
    (other : ty ≠ hashBucketPage) {Q : Option Nat × Nat → Htab → Prop}
    (next : ∀ id mem hashp', Knows h₀ top acc (⟨id, p, mem⟩ :: hand) hashp' → acc.holds p mem →
      Q (some id, p) hashp') : Wp adm (getPage p ty {}) hashp Q := by
  refine wp_getPage h out pos low rfl (.inl rfl) (fun next => wp_address_other other next) fun id mem hashp' h' => ?_
  rw [opened_plain] at h'
  exact next id mem hashp' h'

theorem currPgno_clear {c : Page} (clear : Clear c) : c.currPgno = 0 := by
  simp only [currPgno, Lib.Mem.read32, clear 0 (by decide), clear 1 (by decide), clear 2 (by decide),
    clear 3 (by decide)]
  rfl

theorem wp_getNew (h : Knows h₀ top acc hand hashp) (pos : h₀.Idle → 0 < p) (high : top ≤ p)
    (few : p + 1 < maxPageNumber)
    (other : ty ≠ hashBucketPage) {Q : Option Nat × Nat → Htab → Prop}
    (next : ∀ id mem hashp', Knows h₀ (p + 1) acc
      (⟨id, p, FileHash.initPage h₀.hdr.bsize mem p ty⟩ :: hand) hashp' → Q (some id, p) hashp') :
    Wp adm (getPage p ty { create := true }) hashp Q := by
  refine wp_bind (wp_address_other other (wp_bind (wp_fails h ?_)))
  rw [if_neg Bool.false_ne_true]
  refine wp_bind (wp_fetchNew (h.note _ _) pos high few rfl rfl rfl fun id mem hashp' h' clear => ?_)
  refine wp_opened h' fun hashp'' h'' => next id mem hashp'' ?_
  rwa [opened, if_pos ⟨rfl, currPgno_clear clear⟩] at h''

theorem Knows.shown_cons (h : Knows h₀ top acc (g :: hand) hashp) (same : acc.holds g.pgno g.mem) {q : Nat} {c : Page}
    (out : q ∉ numbers hand) (shows : hashp.mp.Shows q c) : acc.holds q c := by
  obtain ⟨cached, number, _, page⟩ := h.hands g List.mem_cons_self
  by_cases mine : q = g.pgno
  · subst mine
    rcases shows with ⟨j, memj, eq, agree⟩ | ⟨clean, stored⟩
    · rw [h.sound.linked.unique j memj g.id cached (eq.trans number.symm), page] at agree
      exact acc.agree same agree
    · exact h.behind g List.mem_cons_self c clean stored
  · refine h.holds q c ?_ shows
    rw [numbers, List.map_cons, List.mem_cons, not_or]
    exact ⟨mine, out⟩

/-- A hold that is given up without a release: the page stays as it is, and stays pinned. -/
theorem Knows.forget (h : Knows h₀ top acc (g :: hand) hashp) (same : acc.holds g.pgno g.mem) (loose : ¬h₀.Idle) :
    Knows h₀ top acc hand hashp :=
  { h with
    distinct := (List.nodup_cons.mp h.distinct).2
    hands := fun g' memg => h.hands g' (List.mem_cons_of_mem _ memg)
    holds := fun _ _ out shows => h.shown_cons same out shows
    behind := fun g' memg => h.behind g' (List.mem_cons_of_mem _ memg)
    pins := fun idle => absurd idle loose }

theorem wp_leak (h : Knows h₀ top acc (g :: hand) hashp) (same : acc.holds g.pgno g.mem) (loose : ¬h₀.Idle) (why : Leak)
    {Q : Unit → Htab → Prop} (admitted : adm (.leak why) → ∀ hashp', Knows h₀ top acc hand hashp' → Q () hashp') :
    Wp adm (leak g.id why) hashp Q :=
  wp_bind (Prog.wp_mark fun ok => Prog.wp_modify (admitted ok _ ((h.forget same loose).note _ _)))

/-- The table with another pool, in which a page is pinned. -/
def loosened (hashp : Htab) : Htab :=
  setMp { hashp.mp with lqh := [0], bkt := fun id => { hashp.mp.bkt id with pinned := true } } hashp

theorem not_idle_loosened : ¬hashp.loosened.Idle := fun idle => by cases (idle 0 List.mem_cons_self).1

/-- Less is known with a page pinned. -/
theorem Knows.loosen (h : Knows h₀ top acc hand hashp) : Knows h₀.loosened top acc hand hashp := by
  have moved := h.base h₀.loosened rfl (fun idle => absurd idle not_idle_loosened) ⟨rfl, rfl, rfl⟩ fun r => r
  have same : hashp = { h₀.loosened with mp := hashp.mp, fetches := hashp.fetches, held := hashp.held } := by
    conv_lhs => rw [h.frame]
    rfl
  rwa [← same] at moved

end Rules
end FileHash.Htab
