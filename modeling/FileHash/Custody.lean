import FileHash.Lib.Guard
import FileHash.PoolLaws
import FileHash.ProperHeader

/-! Pages in hand. A routine that fetches a page is to give it back, and to mark it if it has
written to it. `Custody` is the account of that: which entries are pinned and for whom, and
which of them hold bytes the pool does not know to be new. -/
namespace FileHash

open Lib (Prog)
open Lib.Prog (Guarded guarded_mono guarded_pure guarded_halt guarded_read_bind guarded_reads_bind
  guarded_modify guarded_mark guarded_bind guarded_ite guarded_quiet guarded_zoom)

namespace Hashhdr

theorem unsigned_put (hdr : Hashhdr) (file : Pagefile) (small : hdr.bsize ≤ maxBsize) :
    Page.pageSign ((hdr.put file).read 0) ≠ pageMagic := by
  have byte : (hdr.put file).read 0 12 = 0 := by
    rw [put, Pagefile.read_write_same, Lib.Mem.copy_inside (by decide)]
    change UInt8.ofNat (hdr.bsize / 0x1000000) = 0
    have high : hdr.bsize / 0x1000000 = 0 := Nat.div_eq_of_lt (lt_of_le_of_lt small (by decide))
    rw [high]
    rfl
  intro sign
  simp only [Page.pageSign, Lib.Mem.read32, byte, pageMagic] at sign
  have zero : (0 : UInt8).toNat = 0 := rfl
  omega

end Hashhdr

namespace Pagepool

variable {pgp pgp' : Pagepool} {tid id n p : Nat}

theorem Moves.saved (h : Moves tid id n pgp pgp') (tidy : Tidy tid pgp) (mem : id ∈ pgp.lqh) {j : Nat}
    (memj : j ∈ pgp.lqh) (saved : pgp.Saved j) : pgp'.Saved j := by
  by_cases same : j = id
  · exact .inl (by rw [same, h.dirty])
  · have other : (pgp.bkt j).pgno ≠ (pgp.bkt id).pgno := fun eq => same (tidy.linked.unique j memj id mem eq)
    simp only [Saved, h.others j same, h.image _ other]
    exact saved

theorem saved_header {file : Pagefile} (other : ∀ q, q ≠ 0 → file.read q = pgp.file.read q)
    (unsigned : Page.pageSign (file.read 0) ≠ pageMagic) {j : Nat} (saved : pgp.Saved j) :
    Saved { pgp with file := file } j := by
  rcases saved with dirty | image
  · exact .inl dirty
  · refine .inr fun sign => ?_
    by_cases zero : (pgp.bkt j).pgno = 0
    · exact absurd (by rw [← zero]; exact sign) unsigned
    · have same : file.read (pgp.bkt j).pgno = pgp.file.read (pgp.bkt j).pgno := other _ zero
      change Agree (pgp.bkt j).page (file.read (pgp.bkt j).pgno)
      rw [same]
      exact image (by rw [← same]; exact sign)

theorem tidy_header {file : Pagefile} (tidy : Tidy tid pgp) (other : ∀ q, q ≠ 0 → file.read q = pgp.file.read q)
    (unsigned : Page.pageSign (file.read 0) ≠ pageMagic) : Tidy tid { pgp with file := file } := by
  refine ⟨tidy.linked.congr rfl rfl rfl fun _ _ => rfl, tidy.filters, tidy.alone, fun q high => ?_⟩
  by_cases zero : q = 0
  · rw [zero]
    exact unsigned
  · change Page.pageSign (file.read q) ≠ pageMagic
    rw [other q zero]
    exact tidy.tail q high

end Pagepool

/-- A page in hand; `touched` if it has been written to since the pool last knew its bytes. -/
structure Hold where
  id : Nat
  touched : Bool
  deriving DecidableEq

namespace Htab

variable {careful : Bool} {H H' : List Hold} {hashp : Htab} {id mem : Nat} {t : Bool}

structure Custody (careful : Bool) (H : List Hold) (hashp : Htab) : Prop where
  tidy : hashp.mp.Tidy self
  counted : hashp.mp.Counted
  once : hashp.mp.Once
  nodup : (H.map Hold.id).Nodup
  held : ∀ id, id ∈ H.map Hold.id ↔ id ∈ hashp.mp.lqh ∧ (hashp.mp.bkt id).pinned = true
  saved : careful = true → ∀ id ∈ hashp.mp.lqh, hashp.mp.Saved id ∨ ⟨id, true⟩ ∈ H
  proper : hashp.hdr.Proper

/-- Events that keep the account: no fetch fails or is of a page in hand, no number is given
twice, no hold is given up, and, if changes are looked after, no changed page is released clean. -/
def Orderly (careful : Bool) : Event → Prop
  | .fault => False
  | .again _ => False
  | .duplicate => False
  | .leak _ => False
  | .slip _ => careful = false
  | _ => True

instance (careful : Bool) : DecidablePred (Orderly careful) := fun e => by
  cases e <;> unfold Orderly <;> infer_instance

def Sparing (careful : Bool) : Event → Prop
  | .removed saved => careful = true → saved = true
  | _ => True

/-- A routine keeps the account: it starts with `H` in hand. -/
def Keeping {α : Type} (careful : Bool) (H : List Hold) (m : Run α) (Q : α → Htab → Prop) : Prop :=
  Guarded (Orderly careful) (Sparing careful) (Custody careful H) m Q

namespace Custody

theorem congr {hashp' : Htab} (h : Custody careful H hashp) (mp : hashp'.mp = hashp.mp)
    (proper : hashp'.hdr.Proper) : Custody careful H hashp' :=
  ⟨mp ▸ h.tidy, mp ▸ h.counted, mp ▸ h.once, h.nodup, mp ▸ h.held, mp ▸ h.saved, proper⟩

theorem perm (h : Custody careful H hashp) (same : H.Perm H') : Custody careful H' hashp where
  tidy := h.tidy
  counted := h.counted
  once := h.once
  nodup := (same.map _).nodup_iff.mp h.nodup
  held id := by rw [← (same.map Hold.id).mem_iff, h.held]
  saved look id mem := by rw [← same.mem_iff]; exact h.saved look id mem
  proper := h.proper

theorem touch (h : Custody careful (⟨id, t⟩ :: H) hashp) : Custody careful (⟨id, true⟩ :: H) hashp where
  tidy := h.tidy
  counted := h.counted
  once := h.once
  nodup := h.nodup
  held := h.held
  saved look j mem := by
    rcases h.saved look j mem with saved | touched
    · exact .inl saved
    · rcases List.mem_cons.mp touched with same | touched
      · cases same
        exact .inr List.mem_cons_self
      · exact .inr (List.mem_cons_of_mem _ touched)
  proper := h.proper

theorem cached (h : Custody careful (⟨id, t⟩ :: H) hashp) : id ∈ hashp.mp.lqh :=
  ((h.held id).mp List.mem_cons_self).1

theorem pinned (h : Custody careful (⟨id, t⟩ :: H) hashp) : (hashp.mp.bkt id).pinned = true :=
  ((h.held id).mp List.mem_cons_self).2

theorem ref (h : Custody careful (⟨id, t⟩ :: H) hashp) : (hashp.mp.bkt id).ref = 1 := by
  rw [h.once id h.cached, h.pinned]
  rfl

theorem not_mem (h : Custody careful (⟨id, t⟩ :: H) hashp) : id ∉ H.map Hold.id :=
  (List.nodup_cons.mp h.nodup).1

theorem ne (h : Custody careful (⟨id, t⟩ :: H) hashp) {j : Nat} (memj : j ∈ H.map Hold.id) : j ≠ id :=
  fun same => h.not_mem (same ▸ memj)

theorem saved_untouched (h : Custody true (⟨id, false⟩ :: H) hashp) : hashp.mp.Saved id := by
  rcases h.saved rfl id h.cached with saved | touched
  · exact saved
  · rcases List.mem_cons.mp touched with same | touched
    · cases same
    · exact absurd (List.mem_map_of_mem touched) h.not_mem

theorem take (h : Custody careful H hashp) {mp' : Pagepool} {p : Nat}
    (takes : Pagepool.Takes self p hashp.mp id mp')
    (free : ∀ j ∈ hashp.mp.lqh, (hashp.mp.bkt j).pgno = p → (hashp.mp.bkt j).pinned = false)
    (saved : careful = true → mp'.Saved id ∨ t = true) :
    Custody careful (⟨id, t⟩ :: H) (setMp mp' hashp) := by
  have keep := takes.held_free free
  refine ⟨takes.tidy, takes.counted, takes.once h.once free, ?_, fun j => ?_, fun look j memj => ?_, h.proper⟩
  · refine List.nodup_cons.mpr ⟨fun memH => ?_, h.nodup⟩
    obtain ⟨mem, pin⟩ := (h.held id).mp memH
    exact (keep id mem pin).1 rfl
  · rw [List.map_cons, List.mem_cons]
    constructor
    · rintro (rfl | memH)
      · exact ⟨takes.mem, takes.pinned⟩
      · obtain ⟨mem, pin⟩ := (h.held j).mp memH
        obtain ⟨_, mem', same⟩ := keep j mem pin
        exact ⟨mem', by rw [show (setMp mp' hashp).mp.bkt j = _ from same]; exact pin⟩
    · rintro ⟨mem', pin⟩
      by_cases same : j = id
      · exact .inl same
      · obtain ⟨mem, flush⟩ := takes.others j mem' same
        exact .inr ((h.held j).mpr ⟨mem, by rw [← flush.same.2.1]; exact pin⟩)
  · by_cases same : j = id
    · rw [same]
      rcases saved look with saved | rfl
      · exact .inl saved
      · exact .inr List.mem_cons_self
    · obtain ⟨mem, _⟩ := takes.others j memj same
      rcases h.saved look j mem with saved | touched
      · exact .inl (takes.saved j memj same saved)
      · exact .inr (List.mem_cons_of_mem _ touched)

theorem write (h : Custody careful (⟨id, t⟩ :: H) hashp) {mp' : Pagepool} {f : Page → Page}
    (changes : Pagepool.Changes self id { hashp.mp.bkt id with page := f (hashp.mp.bkt id).page } hashp.mp mp') :
    Custody careful (⟨id, true⟩ :: H) (setMp mp' hashp) := by
  have pins : ∀ j, (mp'.bkt j).pinned = (hashp.mp.bkt j).pinned := fun j => by
    by_cases same : j = id
    · rw [same, changes.entry]
    · rw [changes.others j same]
  refine ⟨changes.tidy, changes.counted, changes.once h.once (h.once id h.cached), h.nodup, fun j => ?_,
    fun look j memj => ?_, h.proper⟩
  · rw [show (setMp mp' hashp).mp.lqh = _ from changes.lqh, show ((setMp mp' hashp).mp.bkt j).pinned = _ from pins j]
    exact h.held j
  · by_cases same : j = id
    · exact .inr (same ▸ List.mem_cons_self)
    · rcases h.touch.saved look j (changes.lqh ▸ memj) with saved | touched
      · exact .inl ((changes.saved same).mpr saved)
      · exact .inr touched

theorem giveBack (h : Custody careful (⟨id, t⟩ :: H) hashp) {mp' : Pagepool} {dirty : Bool}
    (marked : t = true → dirty = true)
    (changes : Pagepool.Changes self id (Pagepool.release dirty (hashp.mp.bkt id)) hashp.mp mp') :
    Custody careful H (setMp mp' hashp) := by
  refine ⟨changes.tidy, changes.counted, changes.once h.once ?_, (List.nodup_cons.mp h.nodup).2, fun j => ?_,
    fun look j memj => ?_, h.proper⟩
  · change (hashp.mp.bkt id).ref - 1 = 0
    rw [h.ref]
  · have mem : (setMp mp' hashp).mp.lqh = _ := changes.lqh
    rw [mem]
    by_cases same : j = id
    · subst same
      refine ⟨fun memH => absurd memH h.not_mem, fun pin => ?_⟩
      have pin := pin.2
      rw [show (setMp mp' hashp).mp.bkt j = _ from changes.entry] at pin
      cases pin
    · rw [show (setMp mp' hashp).mp.bkt j = _ from changes.others j same, ← h.held j, List.map_cons,
        List.mem_cons, or_iff_right same]
  · by_cases same : j = id
    · subst same
      refine .inl ?_
      rw [Pagepool.Saved, show (setMp mp' hashp).mp.bkt j = _ from changes.entry,
        show (setMp mp' hashp).mp.file = _ from changes.file]
      cases t with
      | true =>
        refine .inl ?_
        rw [marked rfl]
        exact Bool.or_true _
      | false =>
        subst look
        rcases h.saved_untouched with mark | image
        · exact .inl (by rw [Pagepool.release, mark]; rfl)
        · exact .inr image
    · rcases h.saved look j (changes.lqh ▸ memj) with saved | touched
      · exact .inl ((changes.saved same).mpr saved)
      · rcases List.mem_cons.mp touched with eq | touched
        · cases eq
          exact absurd rfl same
        · exact .inr touched

theorem drop (h : Custody careful (⟨id, false⟩ :: H) hashp) {mp' : Pagepool}
    (drops : Pagepool.Drops self id hashp.mp mp') : Custody careful H (setMp mp' hashp) := by
  refine ⟨drops.tidy, drops.counted, drops.once h.tidy h.once, (List.nodup_cons.mp h.nodup).2, fun j => ?_,
    fun look j memj => ?_, h.proper⟩
  · rw [show j ∈ (setMp mp' hashp).mp.lqh ↔ _ from drops.mem h.tidy]
    constructor
    · intro memH
      rw [show (setMp mp' hashp).mp.bkt j = _ from drops.others j (h.ne memH)]
      obtain ⟨mem, pin⟩ := (h.held j).mp (List.mem_cons_of_mem _ memH)
      exact ⟨⟨h.ne memH, mem⟩, pin⟩
    · rintro ⟨⟨other, mem⟩, pin⟩
      rw [show (setMp mp' hashp).mp.bkt j = _ from drops.others j other] at pin
      exact (List.mem_cons.mp ((h.held j).mpr ⟨mem, pin⟩)).resolve_left other
  · obtain ⟨other, mem⟩ := (drops.mem h.tidy).mp memj
    rcases h.saved look j mem with saved | touched
    · exact .inl (drops.saved h.tidy h.cached memj saved)
    · rcases List.mem_cons.mp touched with eq | touched
      · cases eq
      · exact .inr touched

theorem move (h : Custody careful (⟨id, t⟩ :: H) hashp) {mp' : Pagepool} {n : Nat}
    (moves : Pagepool.Moves self id n hashp.mp mp') : Custody careful H (setMp mp' hashp) := by
  refine ⟨moves.tidy, moves.counted, moves.once h.once h.cached h.pinned, (List.nodup_cons.mp h.nodup).2,
    fun j => ?_, fun look j memj => ?_, h.proper⟩
  · rw [show j ∈ (setMp mp' hashp).mp.lqh ↔ _ from moves.mem j]
    by_cases same : j = id
    · subst same
      refine ⟨fun memH => absurd memH h.not_mem, fun pin => ?_⟩
      have pin := pin.2
      rw [show ((setMp mp' hashp).mp.bkt j).pinned = _ from moves.free] at pin
      cases pin
    · rw [show (setMp mp' hashp).mp.bkt j = _ from moves.others j same, ← h.held j, List.map_cons,
        List.mem_cons, or_iff_right same]
  · have mem := (moves.mem j).mp memj
    rcases h.saved look j mem with saved | touched
    · exact .inl (moves.saved h.tidy h.cached mem saved)
    · rcases List.mem_cons.mp touched with eq | touched
      · cases eq
        exact .inl (.inl moves.dirty)
      · exact .inr touched

theorem evolve (h : Custody careful H hashp) {mp' : Pagepool} (evolves : Pagepool.Evolves self hashp.mp mp')
    (lqh : mp'.lqh = hashp.mp.lqh) (curcache : mp'.curcache = hashp.mp.curcache) :
    Custody careful H (setMp mp' hashp) := by
  refine ⟨evolves.tidy, ?_, evolves.once h.once, h.nodup, fun j => ?_, fun look j memj => ?_, h.proper⟩
  · change mp'.curcache = mp'.lqh.length
    rw [curcache, lqh]
    exact h.counted
  · rw [h.held j]
    constructor
    · rintro ⟨mem, pin⟩
      obtain ⟨mem', same⟩ := evolves.held j mem pin
      exact ⟨mem', by rw [show (setMp mp' hashp).mp.bkt j = _ from same]; exact pin⟩
    · rintro ⟨mem', pin⟩
      obtain ⟨mem, flush⟩ := evolves.sub j mem'
      exact ⟨mem, by rw [← flush.same.2.1]; exact pin⟩
  · rcases h.saved look j (lqh ▸ memj) with saved | touched
    · exact .inl (evolves.saved j memj saved)
    · exact .inr touched

theorem settle (h : Custody careful (⟨id, true⟩ :: H) hashp)
    (saved : careful = true → hashp.mp.Saved id) : Custody careful (⟨id, false⟩ :: H) hashp where
  tidy := h.tidy
  counted := h.counted
  once := h.once
  nodup := h.nodup
  held := h.held
  saved look j mem := by
    rcases h.saved look j mem with fine | touched
    · exact .inl fine
    · rcases List.mem_cons.mp touched with same | touched
      · cases same
        exact .inl (saved look)
      · exact .inr (List.mem_cons_of_mem _ touched)
  proper := h.proper

theorem free_of_find (h : Custody careful H hashp) {p : Nat}
    (free : ∀ j, hashp.mp.find p = some j → (hashp.mp.bkt j).pinned = false) :
    ∀ j ∈ hashp.mp.lqh, (hashp.mp.bkt j).pgno = p → (hashp.mp.bkt j).pinned = false :=
  fun j mem number => free j (h.tidy.linked.find_eq_some.mpr ⟨mem, number⟩)

end Custody

/-! The calls that everything else is made of. -/

variable {α β : Type} {Q : α → Htab → Prop} {addr ty n : Nat} {flags : PageFlags}

theorem sameImage_of_agree (bsize : Nat) {a b : Page} (agree : Agree a b) : sameImage bsize a b = true := by
  refine List.all_eq_true.mpr fun i _ => ?_
  by_cases word : chksumPos ≤ i ∧ i < chksumOffset
  · simp [word]
  · have same : a i = b i := agree i (by simp only [chksumPos, chksumOffset] at *; omega)
    simp [same]

theorem guarded_pool {adm safe : Event → Prop} {P : Htab → Prop} {m : Prog Pagepool Event α}
    (h : ∀ hashp, P hashp → (∃ a mp', m.run hashp.mp = (.ok a mp', []) ∧ Q a (setMp mp' hashp)) ∨
      ∃ why, m.run hashp.mp = (.halt why, [])) : Guarded adm safe P (pool m) Q := by
  refine guarded_zoom fun hashp pre => guarded_quiet fun mp same => ?_
  subst same
  exact h hashp pre

namespace Keeping

theorem pure {a : α} (h : ∀ hashp, Custody careful H hashp → Q a hashp) :
    Keeping careful H (pure a) Q := guarded_pure h

theorem halt (why : Lib.Halt) : Keeping careful H (Prog.halt why) Q := guarded_halt why

theorem ite {p : Prop} [Decidable p] {m m' : Run α} (yes : p → Keeping careful H m Q)
    (no : ¬p → Keeping careful H m' Q) : Keeping careful H (if p then m else m') Q := guarded_ite yes no

theorem perm {m : Run α} (same : H.Perm H') (h : Keeping careful H' m Q) : Keeping careful H m Q :=
  guarded_mono h (fun _ pre => pre.perm same) fun _ _ post => post

theorem swap {a b : Hold} {m : Run α} (h : Keeping careful (b :: a :: H) m Q) :
    Keeping careful (a :: b :: H) m Q := perm (.swap b a H) h

theorem mono {Q' : α → Htab → Prop} {m : Run α} (h : Keeping careful H m Q')
    (after : ∀ a hashp, Q' a hashp → Q a hashp) : Keeping careful H m Q := guarded_mono h (fun _ pre => pre) after

/-- One routine after the other; `φ` is what is known of the answer of the first. -/
theorem bind {φ : β → Prop} {m : Run β} {k : β → Run α}
    (first : Keeping careful H m fun b hashp => φ b ∧ Custody careful H' hashp)
    (rest : ∀ b, φ b → Keeping careful H' (k b) Q) : Keeping careful H (m >>= k) Q := by
  refine guarded_bind first fun b hashp pre good => ?_
  exact rest b pre.1 hashp pre.2 good

theorem next {m : Run β} {k : β → Run α} (first : Keeping careful H m fun _ => Custody careful H')
    (rest : ∀ b, Keeping careful H' (k b) Q) : Keeping careful H (m >>= k) Q := guarded_bind first rest

theorem read {k : Htab → Run α} (rest : ∀ hashp, Keeping careful H (k hashp) Q) :
    Keeping careful H (Prog.read >>= k) Q :=
  guarded_read_bind fun hashp _ => guarded_mono (rest hashp) (fun _ pre => pre.2) fun _ _ post => post

theorem reads {f : Htab → β} {k : β → Run α} (rest : ∀ b, Keeping careful H (k b) Q) :
    Keeping careful H (Prog.reads f >>= k) Q :=
  guarded_reads_bind fun hashp _ => guarded_mono (rest (f hashp)) (fun _ pre => pre.2) fun _ _ post => post

theorem note {f : Htab → Htab} {k : Unit → Run α} (mp : ∀ hashp, (f hashp).mp = hashp.mp)
    (proper : ∀ hashp, hashp.hdr.Proper → (f hashp).hdr.Proper) (rest : Keeping careful H (k ()) Q) :
    Keeping careful H (Prog.modify f >>= k) Q :=
  guarded_bind (guarded_modify fun hashp pre => pre.congr (mp hashp) (proper hashp pre.proper)) fun _ => rest

theorem mark {e : Event} {k : Unit → Run α} (safe : Sparing careful e) (rest : Keeping careful H (k ()) Q) :
    Keeping careful H (Prog.mark e >>= k) Q :=
  guarded_bind (guarded_mark fun _ _ pre => ⟨safe, pre⟩) fun _ => rest

theorem leak {why : Leak} {k : Unit → Run α} : Keeping careful H (Htab.leak mem why >>= k) Q := by
  refine guarded_bind (Q := fun _ _ => False) (guarded_bind (Q := fun _ _ => False) ?_ fun _ _ pre => pre.elim)
    fun _ _ pre => pre.elim
  exact guarded_mark fun given => given.elim

theorem storing (f : Page → Page) : Keeping careful (⟨mem, t⟩ :: H) (Htab.store mem f) fun _ =>
    Custody careful (⟨mem, true⟩ :: H) := by
  refine guarded_pool fun hashp pre => ?_
  obtain ⟨mp', run, changes⟩ := @Pagepool.store_spec _ mem _ Event pre.tidy pre.counted f
  exact .inl ⟨(), mp', run, pre.write changes⟩

theorem store {f : Page → Page} {k : Unit → Run α} (rest : Keeping careful (⟨mem, true⟩ :: H) (k ()) Q) :
    Keeping careful (⟨mem, t⟩ :: H) (Htab.store mem f >>= k) Q := next (storing f) fun _ => rest

theorem init {k : Unit → Run α} (rest : Keeping careful (⟨mem, true⟩ :: H) (k ()) Q) :
    Keeping careful (⟨mem, t⟩ :: H) (initPage mem n ty >>= k) Q :=
  next (read fun _ => storing _) fun _ => rest

theorem settle {why : Slip} {k : Unit → Run α} (rest : Keeping careful (⟨mem, false⟩ :: H) (k ()) Q) :
    Keeping careful (⟨mem, true⟩ :: H) (noteSlip mem why >>= k) Q := by
  refine next (guarded_read_bind fun hashp _ => guarded_ite (fun _ => ?_) fun fine => ?_) fun _ => rest
  · refine guarded_mark fun given hashp pre => ⟨trivial, pre.2.settle fun look => ?_⟩
    rw [look] at given
    cases given
  · refine guarded_pure ?_
    rintro hashp ⟨rfl, pre⟩
    refine pre.settle fun _ => ?_
    rw [unmarked, Bool.and_eq_true, Bool.not_eq_true', beq_iff_eq] at fine
    by_cases dirty : (hashp.mp.bkt mem).dirty = true
    · exact .inl dirty
    · exact .inr fun sign => absurd ⟨by simpa using dirty, sign⟩ fine

theorem putting {dirty : Bool} (marked : t = true → dirty = true) :
    Keeping careful (⟨mem, t⟩ :: H) (putPage mem dirty) fun _ => Custody careful H := by
  refine guarded_bind (Q := fun _ => Custody careful H) (guarded_pool fun hashp pre => ?_) fun _ =>
    guarded_modify fun hashp pre => pre.congr rfl pre.proper
  obtain ⟨mp', run, changes⟩ := Pagepool.putPage_spec (ε := Event) pre.tidy pre.counted pre.pinned dirty
  exact .inl ⟨(), mp', run, pre.giveBack marked changes⟩

theorem put {dirty : Bool} {k : Unit → Run α} (rest : Keeping careful H (k ()) Q) :
    Keeping careful (⟨mem, false⟩ :: H) (putPage mem dirty >>= k) Q :=
  next (putting fun touched => absurd touched Bool.false_ne_true) fun _ => rest

theorem putDirty {k : Unit → Run α} (rest : Keeping careful H (k ()) Q) :
    Keeping careful (⟨mem, t⟩ :: H) (putPage mem true >>= k) Q := next (putting fun _ => rfl) fun _ => rest

theorem fails : Keeping careful H fails fun failed hashp => failed = false ∧ Custody careful H hashp := by
  refine read fun _ => note (fun _ => rfl) (fun _ h => h) (ite (fun _ => ?_) fun _ => ?_)
  · exact guarded_bind (Q := fun _ _ => False) (guarded_mark fun given => given.elim) fun _ _ pre => pre.elim
  · exact pure fun _ pre => ⟨rfl, pre⟩

theorem address (addr ty : Nat) : Keeping careful H (address addr ty) fun _ => Custody careful H :=
  read fun _ => ite (fun _ => ite (fun _ => halt _) fun _ => pure fun _ pre => pre) fun _ => pure fun _ pre => pre

theorem noteAgain (p : Nat) : Keeping careful H (noteAgain p) fun _ hashp => Custody careful H hashp ∧
    ∀ j, hashp.mp.find p = some j → (hashp.mp.bkt j).pinned = false := by
  refine guarded_read_bind fun hashp _ => ?_
  split
  · rename_i id found
    refine guarded_ite (fun _ => guarded_mark fun given => given.elim) fun free => guarded_pure ?_
    rintro _ ⟨rfl, pre⟩
    refine ⟨pre, fun j found' => ?_⟩
    rw [found] at found'
    cases found'
    simpa using free
  · rename_i missing
    refine guarded_pure ?_
    rintro _ ⟨rfl, pre⟩
    refine ⟨pre, fun j found => ?_⟩
    rw [missing] at found
    cases found

theorem fetching (p : Nat) (old : flags.new = false) : Keeping careful H (Htab.fetch p flags) fun r hashp =>
    (∃ mem, r = some mem ∧ Custody careful (⟨mem, false⟩ :: H) hashp) ∨
      (r = none ∧ flags.dirty = true ∧ Custody careful H hashp) := by
  refine guarded_bind (noteAgain p) fun _ => guarded_bind (Q := fun r hashp =>
    (∃ mem, r = .page mem ∧ Custody careful (⟨mem, false⟩ :: H) hashp) ∨
      (r = .error ∧ flags.dirty = true ∧ Custody careful H hashp)) (guarded_pool fun hashp pre => ?_) fun r => ?_
  · obtain ⟨pre, free⟩ := pre
    by_cases refused : flags.dirty = true ∧ hashp.mp.rdonly = true
    · refine .inl ⟨.error, hashp.mp, ?_, .inr ⟨rfl, refused.1, pre⟩⟩
      simp only [Pagepool.getPage, Prog.run_read_bind, if_pos refused, Prog.run_pure]
    · have may : flags.dirty → hashp.mp.rdonly = false := fun dirty => by
        by_contra ro
        exact refused ⟨dirty, by simpa using ro⟩
      rcases Pagepool.getPage_granted (ε := Event) (p := p) pre.tidy pre.counted old may with
        ⟨id, mp', run, takes, fetched⟩ | ⟨why, run, _⟩
      · refine .inl ⟨.page id, mp', run, .inl ⟨id, rfl, pre.take takes (pre.free_of_find free) fun look => .inl ?_⟩⟩
        refine fetched.saved fun j mem number => ?_
        have out : (⟨j, true⟩ : Hold) ∉ H := fun memH => by
          have pin := ((pre.held j).mp (List.mem_map_of_mem memH)).2
          rw [pre.free_of_find free j mem number] at pin
          cases pin
        exact (pre.saved look j mem).resolve_right out
      · exact .inr ⟨why, run⟩
  · cases r with
    | page mem =>
      refine guarded_bind (Q := fun _ => Custody careful (⟨mem, false⟩ :: H)) (guarded_modify fun hashp pre => ?_)
        fun _ => guarded_pure fun hashp pre => .inl ⟨mem, rfl, pre⟩
      rcases pre with ⟨_, same, pre⟩ | ⟨same, _⟩
      · cases same
        exact pre.congr rfl pre.proper
      · cases same
    | wait mem => exact guarded_halt _
    | error =>
      refine guarded_pure fun hashp pre => .inr ?_
      rcases pre with ⟨_, same, _⟩ | ⟨_, pre⟩
      · cases same
      · exact ⟨rfl, pre⟩

theorem getting (old : flags.new = false) : Keeping careful H (getPage addr ty flags) fun r hashp =>
    (∃ mem, r.1 = some mem ∧ Custody careful (⟨mem, false⟩ :: H) hashp) ∨
      (r.1 = none ∧ flags.dirty = true ∧ Custody careful H hashp) := by
  refine next (address addr ty) fun p => bind fails fun failed none => ?_
  rw [if_neg (by rw [none]; exact Bool.false_ne_true)]
  refine guarded_bind (fetching p old) fun r => ?_
  cases r with
  | none =>
    refine guarded_pure fun hashp pre => .inr ?_
    rcases pre with ⟨_, same, _⟩ | ⟨_, pre⟩
    · cases same
    · exact ⟨rfl, pre⟩
  | some mem =>
    refine guarded_mono (P := Custody careful (⟨mem, false⟩ :: H)) (Q := fun r hashp =>
        r.1 = some mem ∧ Custody careful (⟨mem, false⟩ :: H) hashp) ?_ (fun hashp pre => ?_)
      fun r hashp post => .inl ⟨mem, post⟩
    · exact reads fun c => ite (fun _ => init (settle (pure fun _ pre => ⟨rfl, pre⟩))) fun _ =>
        pure fun _ pre => ⟨rfl, pre⟩
    · rcases pre with ⟨_, same, pre⟩ | ⟨same, _⟩
      · cases same
        exact pre
      · cases same

theorem fetch {k : Option Nat × Nat → Run α} (old : flags.new = false) (plain : flags.dirty = false)
    (rest : ∀ mem p, Keeping careful (⟨mem, false⟩ :: H) (k (some mem, p)) Q) :
    Keeping careful H (getPage addr ty flags >>= k) Q := by
  refine guarded_bind (getting old) ?_
  rintro ⟨_ | mem, p⟩ hashp pre good
  · rcases pre with ⟨_, same, _⟩ | ⟨_, dirty, _⟩
    · cases same
    · rw [plain] at dirty
      cases dirty
  · rcases pre with ⟨_, same, pre⟩ | ⟨same, _⟩
    · cases same
      exact rest mem p hashp pre good
    · cases same

theorem deleting : Keeping careful (⟨mem, false⟩ :: H) (poolDelete mem) fun _ => Custody careful H := by
  refine guarded_read_bind fun before start => ?_
  refine guarded_bind (Q := fun gone hashp => gone = true ∧ Custody careful H hashp ∧ (careful = true →
      (!(before.mp.bkt mem).dirty && (hashp.mp.file.read (before.mp.bkt mem).pgno).pageSign != pageMagic ||
        sameImage before.hdr.bsize (before.mp.bkt mem).page (hashp.mp.file.read (before.mp.bkt mem).pgno)) =
          true)) (guarded_pool ?_) fun gone => ?_
  · rintro before ⟨rfl, pre⟩
    obtain ⟨mp', run, drops⟩ := Pagepool.delete_spec (ε := Event) pre.tidy pre.counted pre.cached pre.pinned pre.ref
    refine .inl ⟨true, mp', run, rfl, pre.drop drops, fun look => ?_⟩
    subst look
    have gone := drops.gone
    change _ = true
    rw [Bool.or_eq_true, show (setMp mp' before).mp.file.read _ = _ from gone]
    by_cases dirty : (before.mp.bkt mem).dirty = true
    · rw [if_pos dirty]
      exact .inr (sameImage_of_agree _ (pre.tidy.filters.out_agree _ _).symm)
    · rw [if_neg dirty]
      rcases pre.saved_untouched with mark | image
      · exact absurd mark dirty
      · by_cases sign : (before.mp.file.read (before.mp.bkt mem).pgno).pageSign = pageMagic
        · exact .inr (sameImage_of_agree _ (image sign))
        · exact .inl (by simp [dirty, sign])
  · refine guarded_ite (fun _ => ?_) fun stays => ?_
    · refine guarded_read_bind fun after post => ?_
      refine guarded_bind (Q := fun _ => Custody careful H) (guarded_mark fun _ hashp pre => ?_) fun _ =>
        guarded_modify fun hashp pre => pre.congr rfl pre.proper
      obtain ⟨rfl, _, pre, saved⟩ := pre
      exact ⟨saved, pre⟩
    · exact fun hashp pre _ => absurd pre.1 stays

theorem changing : Keeping careful (⟨mem, t⟩ :: H) (changePage mem n) fun _ => Custody careful H := by
  refine guarded_bind (Q := fun _ hashp => Custody careful (⟨mem, t⟩ :: H) hashp ∧ ¬hashp.mp.Cached n)
    (guarded_read_bind fun hashp _ => guarded_ite (fun _ => guarded_mark fun given => given.elim) fun none =>
      guarded_pure ?_) fun _ => ?_
  · rintro hashp ⟨rfl, pre⟩
    exact ⟨pre, pre.tidy.linked.find_eq_none.mp (by simpa using none)⟩
  · refine guarded_bind (Q := fun _ => Custody careful H) (guarded_pool fun hashp pre => ?_) fun _ =>
      guarded_modify fun hashp pre => pre.congr rfl pre.proper
    obtain ⟨mp', run, moves⟩ := Pagepool.changePage_spec (ε := Event) pre.1.tidy pre.1.counted pre.1.cached
      pre.1.pinned pre.2
    exact .inl ⟨false, mp', run, pre.1.move moves⟩

theorem making (addr ty : Nat) : Keeping careful H (newPage addr ty) fun made hashp =>
    made = true ∧ Custody careful H hashp := by
  refine next (address addr ty) fun p => bind fails fun failed none => ?_
  rw [if_neg (by rw [none]; exact Bool.false_ne_true)]
  refine guarded_bind (Q := fun _ hashp => Custody careful H hashp ∧ ¬hashp.mp.Cached p)
    (guarded_read_bind fun hashp _ => guarded_ite (fun _ => guarded_mark fun given => given.elim) fun none =>
      guarded_pure ?_) fun _ => ?_
  · rintro hashp ⟨rfl, pre⟩
    exact ⟨pre, pre.tidy.linked.find_eq_none.mp (by simpa using none)⟩
  · refine guarded_bind (Q := fun r => Custody careful (⟨r.1, true⟩ :: H)) (guarded_pool fun hashp pre => ?_)
      fun r => ?_
    · obtain ⟨pre, fresh⟩ := pre
      by_cases room : hashp.mp.maxpgno = maxPageNumber
      · refine .inr ⟨.abort, ?_⟩
        simp only [Pagepool.newPage, Pagepool.newPageI, Prog.run_read_bind, if_pos room, Prog.run_halt]
      · obtain ⟨id, mp', run, takes, _⟩ := @Pagepool.newPage_spec _ p _ Event pre.tidy pre.counted room
          { request := true } fresh
        refine .inl ⟨_, mp', run, pre.take takes (fun j mem number => absurd ⟨j, mem, number⟩ fresh) fun _ => .inr rfl⟩
    · refine note (fun _ => rfl) (fun _ h => h) (init (putDirty (pure fun _ pre => ⟨rfl, pre⟩)))

theorem flushMeta : Keeping careful H flushMeta fun _ => Custody careful H := by
  refine guarded_read_bind fun hashp _ => guarded_ite (fun _ => guarded_pure fun _ pre => pre.2) fun _ =>
    guarded_modify ?_
  rintro hashp ⟨rfl, pre⟩
  have unsigned := Hashhdr.unsigned_put { hashp.hdr with hCharkey := u32 (hashp.hash charkey) } hashp.mp.file
    pre.proper.small
  have other : ∀ q, q ≠ 0 → (Hashhdr.put { hashp.hdr with hCharkey := u32 (hashp.hash charkey) } hashp.mp.file).read q =
      hashp.mp.file.read q := fun q ne => Pagefile.read_write_other ne
  refine ⟨Pagepool.tidy_header pre.tidy other unsigned, pre.counted, pre.once, pre.nodup, pre.held,
    fun look j memj => ?_,
    pre.proper.setCharkey _⟩
  exact (pre.saved look j memj).imp_left (Pagepool.saved_header other unsigned)

theorem syncPool : Keeping careful H syncPool fun _ => Custody careful H := by
  refine guarded_pool fun hashp pre => .inl ⟨(), hashp.mp.sync, rfl, ?_⟩
  exact pre.evolve (Pagepool.evolves_syncI pre.tidy 0) (Pagepool.writeList_lqh _) (Pagepool.writeList_curcache _)

end Keeping
end Htab
end FileHash
