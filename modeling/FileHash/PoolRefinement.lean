import FileHash.PageFilters
import FileHash.PoolLaws

/-! The page pool refines a map from page numbers to pages. `Flat` is that map, with
the pages in the caller's hands; it knows nothing of entries, eviction or the cache
limit. A run is any sequence of calls by one thread that fetches no page it holds,
releases dirty what it changed, and creates or renames onto uncached numbers only. -/
namespace FileHash.Pagepool

open Lib (Prog)

inductive Call where
  | newPage (pageno : Nat) (flags : PageFlags)
  | getPage (pageno : Nat) (flags : PageFlags)
  | store (mem : Nat) (f : Page → Page)
  | putPage (mem : Nat) (dirty : Bool)
  | changePage (mem newpagenum : Nat)
  | delete (mem : Nat)
  | sync

inductive Reply where
  | mem (id : Nat)
  | done
  | refused

def Call.prog (tid : Nat) : Call → Prog Pagepool Empty Reply
  | .newPage pageno flags => do
    let r ← Pagepool.newPage tid pageno flags
    pure (.mem r.1)
  | .getPage pageno flags => do
    match ← Pagepool.getPage tid pageno flags with
    | .page id => pure (.mem id)
    | _ => pure .refused
  | .store mem f => do
    Pagepool.store mem f
    pure .done
  | .putPage mem dirty => do
    Pagepool.putPage mem dirty
    pure .done
  | .changePage mem n => do
    let again ← Pagepool.changePage mem n
    pure (if again then .refused else .done)
  | .delete mem => do
    let gone ← Pagepool.delete mem
    pure (if gone then .done else .refused)
  | .sync => do
    Prog.modify Pagepool.sync
    pure .done

/-- `content` has the bytes last released dirty under a number, and none for an empty
page; `held` has the pages handed out, each with whether it was fetched for editing. -/
structure Flat where
  content : Nat → Option Page
  held : Nat → Option Bool

namespace Flat

/-- What page `p` may read as. -/
def Reads (pgin : Nat → Page → Option Page) (flat : Flat) (p : Nat) (c : Page) : Prop :=
  match flat.content p with
  | some d => Agree c d
  | none => (∃ d, Clear d ∧ Agree c d) ∨ ∃ d, pgin p (fun _ => 0) = some d ∧ Agree c d

def take (flat : Flat) (id : Nat) (edit : Bool) : Flat :=
  { flat with held := Function.update flat.held id (some edit) }

def drop (flat : Flat) (id : Nat) : Flat :=
  { flat with held := Function.update flat.held id none }

def write (flat : Flat) (p : Nat) (c : Option Page) : Flat :=
  { flat with content := Function.update flat.content p c }

/-- Was the page released dirty, by its fetch or by its release? -/
def edited (flat : Flat) (id : Nat) : Bool := flat.held id == some true

/-- The map after a call; `pgp` is the pool the call was made on. -/
def after (flat : Flat) (pgp : Pagepool) : Call → Reply → Flat
  | .newPage _ flags, .mem id => flat.take id (flags.dirty || flags.edit)
  | .getPage _ flags, .mem id => flat.take id (flags.dirty || flags.edit)
  | .putPage mem dirty, .done =>
    if flat.edited mem || dirty then
      (flat.write (pgp.bkt mem).pgno (some (pgp.bkt mem).page)).drop mem
    else flat.drop mem
  | .changePage mem n, .done =>
    ((flat.write (pgp.bkt mem).pgno none).write n (some (pgp.bkt mem).page)).drop mem
  | .delete mem, .done =>
    if flat.edited mem then
      (flat.write (pgp.bkt mem).pgno (some (pgp.bkt mem).page)).drop mem
    else flat.drop mem
  | _, _ => flat

end Flat

def created (pgp : Pagepool) (pageno : Nat) (flags : PageFlags) : Nat :=
  if flags.request then pageno else pgp.maxpgno + 1

/-- On the pages in `good` the filters are inverse to each other, the checksum apart. -/
structure Inverse (good : Page → Prop) (pgin : Nat → Page → Option Page)
    (pgout : Nat → Page → Page) : Prop where
  filters : Filters pgin pgout
  closed : ∀ c d, Agree c d → good d → good c
  inverse : ∀ n c, good c → ∃ d, pgin n (pgout n c) = some d ∧ Agree d c

def Releases (good : Page → Prop) (pgp : Pagepool) (flat : Flat) (mem : Nat) (dirty : Bool) :
    Prop :=
  if dirty then good (pgp.bkt mem).page
  else flat.Reads pgp.pgin (pgp.bkt mem).pgno (pgp.bkt mem).page

/-- The discipline of the callers. -/
def Allowed (good : Page → Prop) (pgp : Pagepool) (flat : Flat) : Call → Prop
  | .newPage pageno flags => ¬pgp.Cached (pgp.created pageno flags)
  | .getPage pageno flags =>
    if flags.new then ¬pgp.Cached (pgp.created pageno flags)
    else ∀ id, flat.held id ≠ none → (pgp.bkt id).pgno ≠ pageno
  | .store mem _ => flat.held mem ≠ none
  | .putPage mem dirty =>
    flat.held mem ≠ none ∧ Releases good pgp flat mem (flat.edited mem || dirty)
  | .changePage mem n =>
    flat.held mem ≠ none ∧ ¬pgp.Cached n ∧ good (pgp.bkt mem).page
  | .delete mem => flat.held mem ≠ none ∧ Releases good pgp flat mem (flat.edited mem)
  | .sync => True

def flatOf (pgin : Nat → Page → Option Page) (file : Pagefile) : Flat where
  content p := if p < file.length then pgin p (file.read p) else none
  held _ := none

/-- Runs of allowed calls, each of which returned. -/
inductive Runs (tid : Nat) (good : Page → Prop) (pgp₀ : Pagepool) (flat₀ : Flat) :
    Pagepool → Flat → Prop
  | start : Runs tid good pgp₀ flat₀ pgp₀ flat₀
  | step {pgp pgp' : Pagepool} {flat : Flat} {call : Call} {reply : Reply}
      (run : Runs tid good pgp₀ flat₀ pgp flat) (allowed : Allowed good pgp flat call)
      (returned : ((call.prog tid).run pgp).1 = .ok reply pgp') :
      Runs tid good pgp₀ flat₀ pgp' (flat.after pgp call reply)

structure Refines (tid : Nat) (good : Page → Prop) (pgp : Pagepool) (flat : Flat) : Prop where
  sound : Sound tid pgp
  once : Once pgp
  counted : Counted pgp
  inverse : Inverse good pgp.pgin pgp.pgout
  held : ∀ id edit, flat.held id = some edit →
    id ∈ pgp.lqh ∧ (pgp.bkt id).pinned = true ∧ (edit = true → (pgp.bkt id).dirty = true)
  pinned : ∀ id ∈ pgp.lqh, (pgp.bkt id).pinned = true → flat.held id ≠ none
  entry : ∀ id ∈ pgp.lqh, (pgp.bkt id).pinned = false →
    flat.Reads pgp.pgin (pgp.bkt id).pgno (pgp.bkt id).page
  stored : ∀ p c, pgp.CleanAt p → pgp.Stored p c → flat.Reads pgp.pgin p c
  dirty : ∀ id ∈ pgp.lqh, (pgp.bkt id).dirty = true → flat.edited id = false →
    ∃ d, flat.content (pgp.bkt id).pgno = some d ∧ good d

variable {tid p id n : Nat} {good : Page → Prop} {pgp pgp' : Pagepool} {flat : Flat} {c d : Page}

namespace Flat

variable {pgin : Nat → Page → Option Page}

theorem Reads.agree (h : flat.Reads pgin p d) (same : Agree c d) : flat.Reads pgin p c := by
  simp only [Reads] at h ⊢
  split at h
  · exact same.trans h
  · rcases h with ⟨e, clear, agree⟩ | ⟨e, run, agree⟩
    · exact .inl ⟨e, clear, same.trans agree⟩
    · exact .inr ⟨e, run, same.trans agree⟩

theorem Reads.congr {flat' : Flat} (same : flat'.content p = flat.content p) :
    flat'.Reads pgin p c ↔ flat.Reads pgin p c := by
  simp only [Reads, same]

theorem reads_write_same : (flat.write p (some d)).Reads pgin p c ↔ Agree c d := by
  simp [Reads, write]

theorem reads_write_other {q : Nat} {o : Option Page} (ne : q ≠ p) :
    (flat.write p o).Reads pgin q c ↔ flat.Reads pgin q c :=
  Reads.congr (by simp [write, ne])

end Flat

namespace Refines

theorem not_held (h : Refines tid good pgp flat)
    (free : ∀ id, flat.held id ≠ none → (pgp.bkt id).pgno ≠ p) :
    ∀ j ∈ pgp.lqh, (pgp.bkt j).pgno = p → (pgp.bkt j).pinned = false := by
  intro j mem eq
  by_contra pin
  exact free j (h.pinned j mem (by simpa using pin)) eq

theorem unedited (h : Refines tid good pgp flat) (free : (pgp.bkt id).pinned = false) : flat.edited id = false := by
  cases isHeld : flat.held id with
  | none => simp [Flat.edited, isHeld]
  | some edit =>
    rw [(h.held id edit isHeld).2.1] at free
    cases free

theorem reads (h : Refines tid good pgp flat)
    (free : ∀ j ∈ pgp.lqh, (pgp.bkt j).pgno = p → (pgp.bkt j).pinned = false)
    (shows : pgp.Shows p c) : flat.Reads pgp.pgin p c := by
  rcases shows with ⟨j, mem, eq, agree⟩ | ⟨clean, stored⟩
  · have := h.entry j mem (free j mem eq)
    rw [eq] at this
    exact this.agree agree
  · exact h.stored p c clean stored

theorem evolve (h : Refines tid good pgp flat) (e : Evolves tid pgp pgp') (counted : Counted pgp') :
    Refines tid good pgp' flat where
  sound := e.sound h.sound
  once := e.once h.once
  counted := counted
  inverse := by
    rw [e.pgin, e.pgout]
    exact h.inverse
  held id edit isHeld := by
    obtain ⟨mem, pin, mark⟩ := h.held id edit isHeld
    obtain ⟨mem', same⟩ := e.held id mem pin
    rw [same]
    exact ⟨mem', pin, mark⟩
  pinned id mem pin := by
    obtain ⟨mem', flush⟩ := e.sub id mem
    exact h.pinned id mem' (by rw [← flush.same.2.1]; exact pin)
  entry id mem free := by
    obtain ⟨mem', flush⟩ := e.sub id mem
    rw [flush.pgno, e.pgin]
    exact (h.entry id mem' (by rw [← flush.same.2.1]; exact free)).agree flush.agree
  stored p c clean stored := by
    rw [e.pgin]
    by_cases isHeld : ∃ j ∈ pgp.lqh, (pgp.bkt j).pgno = p ∧ (pgp.bkt j).pinned = true
    · obtain ⟨j, mem, rfl, pin⟩ := isHeld
      obtain ⟨clean', stored'⟩ :=
        stored_held h.sound.linked mem pin e.held e.pgin e.npages e.image clean stored
      exact h.stored _ c clean' stored'
    · refine h.reads (fun j mem eq => ?_) (e.shows h.sound p c (.inr ⟨clean, stored⟩))
      by_contra pin
      exact isHeld ⟨j, mem, eq, by simpa using pin⟩
  dirty id mem mark unedited := by
    obtain ⟨mem', flush⟩ := e.sub id mem
    rw [flush.pgno]
    exact h.dirty id mem' (flush.dirty mark) unedited

theorem take (h : Refines tid good pgp flat) (t : Takes tid p pgp id pgp') {edit : Bool}
    (marked : edit = true → (pgp'.bkt id).dirty = true)
    (only : (pgp'.bkt id).dirty = true → edit = true ∨
      ∃ j ∈ pgp.lqh, (pgp.bkt j).pgno = p ∧ (pgp.bkt j).dirty = true)
    (free : ∀ j ∈ pgp.lqh, (pgp.bkt j).pgno = p → (pgp.bkt j).pinned = false) :
    Refines tid good pgp' (flat.take id edit) where
  sound := t.sound h.sound
  once := t.once h.once free
  counted := t.counted
  inverse := by
    rw [t.pgin, t.pgout]
    exact h.inverse
  held j mark isHeld := by
    by_cases same : j = id
    · simp only [Flat.take, same, Function.update_self, Option.some.injEq] at isHeld
      rw [same]
      exact ⟨t.mem, t.pinned, fun e => marked (isHeld.trans e)⟩
    · simp only [Flat.take, Function.update_of_ne same] at isHeld
      obtain ⟨mem, pin, dirty⟩ := h.held j mark isHeld
      obtain ⟨_, mem', eq⟩ := t.held_free free j mem pin
      rw [eq]
      exact ⟨mem', pin, dirty⟩
  pinned j mem pin := by
    by_cases same : j = id
    · simp [Flat.take, same]
    · obtain ⟨mem', flush⟩ := t.others j mem same
      simp only [Flat.take, Function.update_of_ne same]
      exact h.pinned j mem' (by rw [← flush.same.2.1]; exact pin)
  entry j mem free := by
    have ne : j ≠ id := by
      rintro rfl
      rw [t.pinned] at free
      cases free
    obtain ⟨mem', flush⟩ := t.others j mem ne
    rw [flush.pgno, t.pgin]
    exact (h.entry j mem' (by rw [← flush.same.2.1]; exact free)).agree flush.agree
  stored q c clean stored := by
    rw [t.pgin]
    change flat.Reads pgp.pgin q c
    by_cases isHeld : ∃ j ∈ pgp.lqh, (pgp.bkt j).pgno = q ∧ (pgp.bkt j).pinned = true
    · obtain ⟨j, mem, rfl, pin⟩ := isHeld
      obtain ⟨clean', stored'⟩ := stored_held h.sound.linked mem pin
        (fun j mem pin => (t.held_free free j mem pin).2) t.pgin t.npages t.image clean stored
      exact h.stored _ c clean' stored'
    · refine h.reads (fun j mem eq => ?_) ?_
      · by_contra pin
        exact isHeld ⟨j, mem, eq, by simpa using pin⟩
      · by_cases target : q = p
        · subst target
          exact t.stored c clean stored
        · exact t.shows h.sound q c target (.inr ⟨clean, stored⟩)
  dirty j mem mark unedited := by
    by_cases same : j = id
    · rw [same] at mark unedited ⊢
      rcases only mark with e | ⟨k, memk, eq, markk⟩
      · simp [Flat.edited, Flat.take, e] at unedited
      · rw [t.number, ← eq]
        exact h.dirty k memk markk (h.unedited (free k memk eq))
    · obtain ⟨mem', flush⟩ := t.others j mem same
      rw [flush.pgno]
      refine h.dirty j mem' (flush.dirty mark) ?_
      simpa [Flat.edited, Flat.take, same] using unedited

theorem change (h : Refines tid good pgp flat) {b : Bkt} (s : Changes tid id b pgp pgp')
    (isHeld : flat.held id ≠ none) (number : b.pgno = (pgp.bkt id).pgno)
    (pin : b.pinned = true) (dirty : b.dirty = (pgp.bkt id).dirty)
    (ref : b.ref = (pgp.bkt id).ref) : Refines tid good pgp' flat where
  sound := s.sound h.sound fun _ free => absurd (pin.symm.trans free) (by decide)
  once := s.once h.once (by
    obtain ⟨edit, eq⟩ := Option.ne_none_iff_exists'.mp isHeld
    obtain ⟨mem, pinned, _⟩ := h.held id edit eq
    rw [ref, pin, h.once id mem, pinned])
  counted := s.counted
  inverse := by
    rw [s.pgin, s.pgout]
    exact h.inverse
  held j edit heldj := by
    obtain ⟨mem, pinj, mark⟩ := h.held j edit heldj
    by_cases same : j = id
    · rw [s.lqh, same, s.entry, dirty, ← same]
      exact ⟨mem, pin, mark⟩
    · rw [s.lqh, s.others j same]
      exact ⟨mem, pinj, mark⟩
  pinned j mem pinj := by
    by_cases same : j = id
    · rw [same]
      exact isHeld
    · rw [s.lqh] at mem
      rw [s.others j same] at pinj
      exact h.pinned j mem pinj
  entry j mem free := by
    have ne : j ≠ id := by
      rintro rfl
      rw [s.entry, pin] at free
      cases free
    rw [s.lqh] at mem
    rw [s.others j ne] at free ⊢
    rw [s.pgin]
    exact h.entry j mem free
  stored q c clean stored := by
    rw [s.pgin]
    by_cases same : q = b.pgno
    · refine h.stored q c (fun j mem eq => ?_) (s.stored.mp stored)
      by_cases sameId : j = id
      · subst same
        rw [sameId, ← dirty]
        exact s.cleanAt_same (by rw [← sameId]; exact mem) clean
      · rw [← s.others j sameId] at eq ⊢
        exact clean j (by rw [s.lqh]; exact mem) eq
    · exact h.stored q c ((s.cleanAt number same).mp clean) (s.stored.mp stored)
  dirty j mem mark unedited := by
    rw [s.lqh] at mem
    by_cases same : j = id
    · rw [same, s.entry] at mark ⊢
      rw [number]
      rw [same] at mem unedited
      exact h.dirty id mem (dirty.symm.trans mark) unedited
    · rw [s.others j same] at mark ⊢
      exact h.dirty j mem mark unedited

theorem good_of_dirty (h : Refines tid good pgp flat) (mem : id ∈ pgp.lqh) {marked : Bool}
    (releases : Releases good pgp flat id marked) (edits : flat.edited id = true → marked = true)
    (dirty : (pgp.bkt id).dirty = true) : good (pgp.bkt id).page := by
  simp only [Releases] at releases
  split at releases
  · exact releases
  · rename_i unmarked
    have unedited : flat.edited id = false := by
      by_contra e
      exact unmarked (edits (by simpa using e))
    obtain ⟨d, content, isGood⟩ := h.dirty id mem dirty unedited
    simp only [Flat.Reads, content] at releases
    exact h.inverse.closed _ _ releases isGood

theorem put (h : Refines tid good pgp flat) {dirty : Bool}
    (s : Changes tid id (release dirty (pgp.bkt id)) pgp pgp') (isHeld : flat.held id ≠ none)
    (releases : Releases good pgp flat id (flat.edited id || dirty)) :
    Refines tid good pgp' (flat.after pgp (.putPage id dirty) .done) := by
  obtain ⟨edit, eq⟩ := Option.ne_none_iff_exists'.mp isHeld
  obtain ⟨mem, pin, mark⟩ := h.held id edit eq
  have isGood : ((pgp.bkt id).dirty || dirty) = true → good (pgp.bkt id).page := by
    intro d
    rcases (Bool.or_eq_true _ _).mp d with d | d
    · exact h.good_of_dirty mem releases (fun e => by simp [e]) d
    · simp only [Releases, d, Bool.or_true, if_true] at releases
      exact releases
  have other : ∀ j ∈ pgp.lqh, j ≠ id → (pgp.bkt j).pgno ≠ (pgp.bkt id).pgno :=
    fun j memj ne same => ne (h.sound.linked.unique j memj id mem same)
  have elsewhere : ∀ q c, q ≠ (pgp.bkt id).pgno →
      ((flat.after pgp (.putPage id dirty) .done).Reads pgp'.pgin q c ↔
        flat.Reads pgp.pgin q c) := by
    intro q c ne
    rw [s.pgin]
    simp only [Flat.after]
    split
    · exact Flat.reads_write_other ne
    · exact Iff.rfl
  have heldAfter : ∀ j, j ≠ id →
      (flat.after pgp (.putPage id dirty) .done).held j = flat.held j := by
    intro j ne
    simp only [Flat.after]
    split <;> simp [Flat.drop, Flat.write, ne]
  refine { sound := s.sound h.sound fun d _ => h.inverse.inverse _ _ (isGood d),
           once := s.once h.once ?_, counted := s.counted, inverse := ?_, held := ?_, pinned := ?_,
           entry := ?_, stored := ?_, dirty := ?_ }
  · simp [release, h.once id mem, pin]
  · rw [s.pgin, s.pgout]
    exact h.inverse
  · intro j e heldj
    have ne : j ≠ id := by
      rintro rfl
      simp only [Flat.after] at heldj
      split at heldj <;> simp [Flat.drop] at heldj
    rw [heldAfter j ne] at heldj
    rw [s.lqh, s.others j ne]
    exact h.held j e heldj
  · intro j memj pinj
    have ne : j ≠ id := by
      rintro rfl
      rw [s.entry] at pinj
      cases pinj
    rw [heldAfter j ne]
    rw [s.lqh] at memj
    rw [s.others j ne] at pinj
    exact h.pinned j memj pinj
  · intro j memj free
    rw [s.lqh] at memj
    by_cases same : j = id
    · rw [same, s.entry, s.pgin]
      change (flat.after pgp (.putPage id dirty) .done).Reads pgp.pgin (pgp.bkt id).pgno
        (pgp.bkt id).page
      simp only [Flat.after, Releases] at releases ⊢
      split at releases <;> rename_i marked
      · rw [if_pos marked]
        exact Flat.reads_write_same.mpr (Agree.refl _)
      · rw [if_neg marked]
        exact releases
    · rw [s.others j same] at free ⊢
      rw [elsewhere _ _ (other j memj same)]
      exact h.entry j memj free
  · intro q c clean stored
    by_cases same : q = (pgp.bkt id).pgno
    · subst same
      have unmarked := s.cleanAt_same mem clean
      simp only [release, Bool.or_eq_false_iff] at unmarked
      have notEdited : (flat.edited id || dirty) = false := by
        have : edit = false := by
          by_contra e
          rw [mark (by simpa using e)] at unmarked
          cases unmarked.1
        simp [Flat.edited, eq, this, unmarked.2]
      simp only [Flat.after, notEdited, s.pgin]
      refine h.stored _ c (fun j memj eqj => ?_) (s.stored.mp stored)
      by_cases sameId : j = id
      · rw [sameId]
        exact unmarked.1
      · exact absurd eqj (other j memj sameId)
    · rw [elsewhere q c same]
      exact h.stored q c ((s.cleanAt (b := release dirty (pgp.bkt id)) rfl same).mp clean)
        (s.stored.mp stored)
  · intro j memj markj uneditedj
    rw [s.lqh] at memj
    by_cases same : j = id
    · rw [same, s.entry]
      change ∃ d, (flat.after pgp (.putPage id dirty) .done).content (pgp.bkt id).pgno = some d ∧
        good d
      rw [same, s.entry] at markj
      simp only [Flat.after, Releases] at releases ⊢
      split at releases <;> rename_i marked
      · rw [if_pos marked]
        exact ⟨_, by simp [Flat.drop, Flat.write], releases⟩
      · rw [if_neg marked]
        simp only [Bool.not_eq_true, Bool.or_eq_false_iff] at marked
        simp only [release, marked.2, Bool.or_false] at markj
        exact h.dirty id mem markj marked.1
    · rw [s.others j same] at markj ⊢
      have content : (flat.after pgp (.putPage id dirty) .done).content (pgp.bkt j).pgno =
          flat.content (pgp.bkt j).pgno := by
        have := other j memj same
        simp only [Flat.after]
        split <;> simp [Flat.drop, Flat.write, this]
      rw [content]
      simp only [Flat.edited, heldAfter j same] at uneditedj
      exact h.dirty j memj markj uneditedj

theorem remove (h : Refines tid good pgp flat) (s : Drops tid id pgp pgp') (isHeld : flat.held id ≠ none)
    (releases : Releases good pgp flat id (flat.edited id)) :
    Refines tid good pgp' (flat.after pgp (.delete id) .done) := by
  obtain ⟨edit, eq⟩ := Option.ne_none_iff_exists'.mp isHeld
  obtain ⟨mem, pin, mark⟩ := h.held id edit eq
  have other : ∀ j ∈ pgp.lqh, j ≠ id → (pgp.bkt j).pgno ≠ (pgp.bkt id).pgno :=
    fun j memj ne same => ne (h.sound.linked.unique j memj id mem same)
  have elsewhere : ∀ q c, q ≠ (pgp.bkt id).pgno →
      ((flat.after pgp (.delete id) .done).Reads pgp'.pgin q c ↔ flat.Reads pgp.pgin q c) := by
    intro q c ne
    rw [s.pgin]
    simp only [Flat.after]
    split
    · exact Flat.reads_write_other ne
    · exact Iff.rfl
  have heldAfter : ∀ j, j ≠ id → (flat.after pgp (.delete id) .done).held j = flat.held j := by
    intro j ne
    simp only [Flat.after]
    split <;> simp [Flat.drop, Flat.write, ne]
  have trip := fun dirty =>
    h.inverse.inverse (pgp.bkt id).pgno _ (h.good_of_dirty mem releases (fun e => e) dirty)
  refine { sound := s.sound h.sound trip, once := s.once h.sound.toTidy h.once,
           counted := s.counted, inverse := ?_, held := ?_, pinned := ?_,
           entry := ?_, stored := ?_, dirty := ?_ }
  · rw [s.pgin, s.pgout]
    exact h.inverse
  · intro j e heldj
    have ne : j ≠ id := by
      rintro rfl
      simp only [Flat.after] at heldj
      split at heldj <;> simp [Flat.drop] at heldj
    rw [heldAfter j ne] at heldj
    obtain ⟨memj, pinj, markj⟩ := h.held j e heldj
    rw [s.mem h.sound.toTidy, s.others j ne]
    exact ⟨⟨ne, memj⟩, pinj, markj⟩
  · intro j memj pinj
    obtain ⟨ne, memj⟩ := (s.mem h.sound.toTidy).mp memj
    rw [heldAfter j ne]
    rw [s.others j ne] at pinj
    exact h.pinned j memj pinj
  · intro j memj free
    obtain ⟨ne, memj⟩ := (s.mem h.sound.toTidy).mp memj
    rw [s.others j ne] at free ⊢
    rw [elsewhere _ _ (other j memj ne)]
    exact h.entry j memj free
  · intro q c clean stored
    by_cases same : q = (pgp.bkt id).pgno
    · subst same
      rw [s.pgin]
      rcases s.shows_same h.sound.toTidy mem trip (.inr ⟨clean, stored⟩) with
        ⟨dirty, agree⟩ | ⟨undirty, old⟩
      · cases edited : flat.edited id with
        | true =>
          simp only [Flat.after, edited]
          exact Flat.reads_write_same.mpr agree
        | false =>
          simp only [Releases, edited] at releases
          simp only [Flat.after, edited]
          exact releases.agree agree
      · have notEdited : flat.edited id = false := by
          have : edit = false := by
            by_contra e
            rw [mark (by simpa using e)] at undirty
            cases undirty
          simp [Flat.edited, eq, this]
        simp only [Flat.after, notEdited]
        refine h.stored _ c (fun j memj eqj => ?_) old
        by_cases sameId : j = id
        · rw [sameId]
          exact undirty
        · exact absurd eqj (other j memj sameId)
    · have grown := s.npages_le
      rw [elsewhere q c same]
      refine h.stored q c (fun j memj eqj => ?_) (stored.congr s.pgin (s.image q same) grown)
      have ne : j ≠ id := fun e => same (by rw [← eqj, e])
      have := clean j ((s.mem h.sound.toTidy).mpr ⟨ne, memj⟩) (by rw [s.others j ne]; exact eqj)
      rwa [s.others j ne] at this
  · intro j memj markj uneditedj
    obtain ⟨ne, memj⟩ := (s.mem h.sound.toTidy).mp memj
    rw [s.others j ne] at markj ⊢
    have content : (flat.after pgp (.delete id) .done).content (pgp.bkt j).pgno =
        flat.content (pgp.bkt j).pgno := by
      have := other j memj ne
      simp only [Flat.after]
      split <;> simp [Flat.drop, Flat.write, this]
    rw [content]
    simp only [Flat.edited, heldAfter j ne] at uneditedj
    exact h.dirty j memj markj uneditedj

theorem rename (h : Refines tid good pgp flat) (s : Moves tid id n pgp pgp') (isHeld : flat.held id ≠ none)
    (fresh : ¬pgp.Cached n) (isGood : good (pgp.bkt id).page) : Refines tid good pgp'
      (flat.after pgp (.changePage id n) .done) := by
  obtain ⟨edit, eq⟩ := Option.ne_none_iff_exists'.mp isHeld
  obtain ⟨mem, pin, _⟩ := h.held id edit eq
  have moved : n ≠ (pgp.bkt id).pgno := fun e => fresh ⟨id, mem, e.symm⟩
  have other : ∀ j ∈ pgp.lqh, j ≠ id → (pgp.bkt j).pgno ≠ (pgp.bkt id).pgno :=
    fun j memj ne same => ne (h.sound.linked.unique j memj id mem same)
  have elsewhere : ∀ q c, q ≠ (pgp.bkt id).pgno → q ≠ n →
      ((flat.after pgp (.changePage id n) .done).Reads pgp'.pgin q c ↔
        flat.Reads pgp.pgin q c) := by
    intro q c old new
    rw [s.pgin]
    exact (Flat.reads_write_other (p := n) new).trans (Flat.reads_write_other old)
  have heldAfter : ∀ j, j ≠ id →
      (flat.after pgp (.changePage id n) .done).held j = flat.held j := fun j ne => by
    simp [Flat.after, Flat.drop, Flat.write, ne]
  have newReads : ∀ c, Agree c (pgp.bkt id).page →
      (flat.after pgp (.changePage id n) .done).Reads pgp'.pgin n c := fun c agree =>
    (Flat.reads_write_same (p := n)).mpr agree
  refine { sound := s.sound h.sound (h.inverse.inverse _ _ isGood), once := s.once h.once mem pin,
           counted := s.counted, inverse := ?_, held := ?_, pinned := ?_,
           entry := ?_, stored := ?_, dirty := ?_ }
  · rw [s.pgin, s.pgout]
    exact h.inverse
  · intro j e heldj
    have ne : j ≠ id := by
      rintro rfl
      simp [Flat.after, Flat.drop] at heldj
    rw [heldAfter j ne] at heldj
    obtain ⟨memj, pinj, markj⟩ := h.held j e heldj
    rw [s.mem, s.others j ne]
    exact ⟨memj, pinj, markj⟩
  · intro j memj pinj
    have ne : j ≠ id := by
      rintro rfl
      rw [s.free] at pinj
      cases pinj
    rw [heldAfter j ne]
    rw [s.others j ne] at pinj
    exact h.pinned j ((s.mem j).mp memj) pinj
  · intro j memj free
    by_cases same : j = id
    · rw [same, s.number, s.page]
      exact newReads _ (Agree.refl _)
    · have memj' := (s.mem j).mp memj
      rw [s.others j same] at free ⊢
      rw [elsewhere _ _ (other j memj' same) fun e => fresh ⟨j, memj', e⟩]
      exact h.entry j memj' free
  · intro q c clean stored
    by_cases new : q = n
    · subst new
      exact newReads c (s.shows_new mem (.inr ⟨clean, stored⟩))
    · by_cases old : q = (pgp.bkt id).pgno
      · subst old
        have empty := s.shows_old h.sound.toTidy mem moved (.inr ⟨clean, stored⟩)
        have vacated : (flat.after pgp (.changePage id n) .done).content (pgp.bkt id).pgno =
            none := by simp [Flat.after, Flat.drop, Flat.write, new]
        simp only [Flat.Reads, vacated, s.pgin]
        exact empty.imp_left fun clear => ⟨c, clear, Agree.refl _⟩
      · rw [elsewhere q c old new]
        have grown : pgp.npages ≤ pgp'.npages := by
          rw [s.npages]
          split <;> omega
        refine h.stored q c (fun j memj eqj => ?_) (stored.congr s.pgin (s.image q old) grown)
        have ne : j ≠ id := fun e => old (by rw [← eqj, e])
        have := clean j ((s.mem j).mpr memj) (by rw [s.others j ne]; exact eqj)
        rwa [s.others j ne] at this
  · intro j memj markj uneditedj
    by_cases same : j = id
    · rw [same, s.number]
      exact ⟨_, by simp [Flat.after, Flat.drop, Flat.write], isGood⟩
    · have memj' := (s.mem j).mp memj
      have old := other j memj' same
      have new : (pgp.bkt j).pgno ≠ n := fun e => fresh ⟨j, memj', e⟩
      rw [s.others j same] at markj ⊢
      simp only [Flat.edited, heldAfter j same] at uneditedj
      obtain ⟨d, content, goodd⟩ := h.dirty j memj' markj uneditedj
      exact ⟨d, by simp [Flat.after, Flat.drop, Flat.write, old, new, content], goodd⟩

structure Stepped (tid : Nat) (good : Page → Prop) (pgp : Pagepool) (flat : Flat) (call : Call)
    (reply : Reply) (pgp' : Pagepool) : Prop where
  refines : Refines tid good pgp' (flat.after pgp call reply)
  pgin : pgp'.pgin = pgp.pgin
  kept : ∀ j ∈ pgp.lqh, (pgp.bkt j).locked = true ∨ (pgp.bkt j).pinned = true →
    call ≠ .delete j → j ∈ pgp'.lqh
  fetched : ∀ p flags id, call = .getPage p flags → flags.new = false → reply = .mem id →
    flat.Reads pgp.pgin p (pgp'.bkt id).page
  fresh : ∀ p flags id, call = .newPage p flags ∨ (call = .getPage p flags ∧ flags.new = true) →
    reply = .mem id → Clear (pgp'.bkt id).page

theorem create (h : Refines tid good pgp flat) {flags : PageFlags}
    (fresh : ¬pgp.Cached (pgp.created p flags)) (room : pgp.maxpgno ≠ maxPageNumber) :
    ∃ id pgp', (Pagepool.newPage (ε := Empty) tid p flags).run pgp =
        (.ok (id, pgp.created p flags) pgp', []) ∧
      Takes tid (pgp.created p flags) pgp id pgp' ∧ Clear (pgp'.bkt id).page ∧
      Refines tid good pgp' (flat.take id (flags.dirty || flags.edit)) := by
  obtain ⟨id, pgp', run, t, clear, dirty⟩ := newPage_spec (ε := Empty) h.sound.toTidy h.counted room fresh
  refine ⟨id, pgp', run, t, clear, h.take t (fun e => dirty.trans e) (fun e => ?_) ?_⟩
  · exact .inl (dirty.symm.trans e)
  · exact fun j mem eq => absurd ⟨j, mem, eq⟩ fresh

theorem step_newPage (h : Refines tid good pgp flat) {flags : PageFlags}
    (allowed : Allowed good pgp flat (.newPage p flags)) (room : pgp.maxpgno ≠ maxPageNumber) :
    ∃ reply pgp', (((Call.newPage p flags).prog tid).run pgp).1 = .ok reply pgp' ∧
      Stepped tid good pgp flat (.newPage p flags) reply pgp' := by
  obtain ⟨id, pgp', run, t, clear, refines⟩ := h.create allowed room
  have free : ∀ j ∈ pgp.lqh, (pgp.bkt j).pgno = _ → (pgp.bkt j).pinned = false :=
    fun j mem eq => absurd ⟨j, mem, eq⟩ allowed
  refine ⟨.mem id, pgp', ?_, refines, t.pgin, ?_, ?_, ?_⟩
  · simp only [Call.prog, Prog.run_bind run, Prog.run_pure]
  · exact fun j mem pin _ => pin.elim (t.locked j mem) fun pin => (t.held_free free j mem pin).2.1
  · rintro _ _ _ ⟨⟩
  · rintro _ _ _ _ ⟨⟩
    exact clear

theorem step_fetch (h : Refines tid good pgp flat) {flags : PageFlags} (old : flags.new = false)
    (allowed : Allowed good pgp flat (.getPage p flags))
    (may : flags.dirty = true → pgp.rdonly = false)
    (room : flags.create → ¬pgp.Cached p → pgp.npages ≤ p → pgp.maxpgno ≠ maxPageNumber) :
    ∃ reply pgp', (((Call.getPage p flags).prog tid).run pgp).1 = .ok reply pgp' ∧
      Stepped tid good pgp flat (.getPage p flags) reply pgp' := by
  simp only [Allowed, old, Bool.false_eq_true, if_false] at allowed
  have free := h.not_held allowed
  obtain ⟨id, pgp', got, t, f⟩ :=
    getPage_spec (ε := Empty) h.sound h.counted old may room
  refine ⟨.mem id, pgp', ?_, h.take t ?_ ?_ free, t.pgin, ?_, ?_, ?_⟩
  · simp only [Call.prog, Prog.run_bind got, Prog.run_pure]
  · exact fun e => f.marked (by simpa using e)
  · intro e
    rcases f.dirty e with d | d | prior
    · exact .inl (by simp [d])
    · exact .inl (by simp [d])
    · exact .inr prior
  · exact fun j mem pin _ => pin.elim (t.locked j mem) fun pin => (t.held_free free j mem pin).2.1
  · rintro _ _ _ ⟨⟩ _ ⟨⟩
    exact h.reads free f.content
  · rintro _ _ _ (⟨⟨⟩⟩ | ⟨⟨⟩, new⟩)
    rw [old] at new
    cases new

theorem step_fetchNew (h : Refines tid good pgp flat) {flags : PageFlags} (new : flags.new = true)
    (allowed : Allowed good pgp flat (.getPage p flags))
    (denied : ¬(flags.dirty = true ∧ pgp.rdonly = true)) (make : flags.create = false)
    (room : pgp.maxpgno ≠ maxPageNumber) :
    ∃ reply pgp', (((Call.getPage p flags).prog tid).run pgp).1 = .ok reply pgp' ∧
      Stepped tid good pgp flat (.getPage p flags) reply pgp' := by
  simp only [Allowed, new, if_true] at allowed
  obtain ⟨id, pgp', run, t, clear, refines⟩ := h.create allowed room
  have free : ∀ j ∈ pgp.lqh, (pgp.bkt j).pgno = _ → (pgp.bkt j).pinned = false :=
    fun j mem eq => absurd ⟨j, mem, eq⟩ allowed
  have got : (Pagepool.getPage (ε := Empty) tid p flags).run pgp =
      (.ok (.page id) pgp', []) := by
    simp only [Pagepool.getPage, Prog.run_read_bind, if_neg denied, new, make, if_true,
      Bool.false_eq_true, if_false]
    exact Prog.run_bind run
  refine ⟨.mem id, pgp', ?_, refines, t.pgin, ?_, ?_, ?_⟩
  · simp only [Call.prog, Prog.run_bind got, Prog.run_pure]
  · exact fun j mem pin _ => pin.elim (t.locked j mem) fun pin => (t.held_free free j mem pin).2.1
  · rintro _ _ _ ⟨⟩ old
    rw [new] at old
    cases old
  · rintro _ _ _ _ ⟨⟩
    exact clear

theorem step_refused (h : Refines tid good pgp flat) {flags : PageFlags}
    (run : (Pagepool.getPage (ε := Empty) tid p flags).run pgp = (.ok .error pgp, [])) :
    ∃ reply pgp', (((Call.getPage p flags).prog tid).run pgp).1 = .ok reply pgp' ∧
      Stepped tid good pgp flat (.getPage p flags) reply pgp' := by
  refine ⟨.refused, pgp, by simp only [Call.prog, Prog.run_bind run, Prog.run_pure], h, rfl, ?_,
    ?_, ?_⟩
  · exact fun j mem _ _ => mem
  · rintro _ _ _ _ _ ⟨⟩
  · rintro _ _ _ _ ⟨⟩

theorem newPageI_full (full : pgp.maxpgno = maxPageNumber) (flags : PageFlags) :
    (newPageI (ε := Empty) tid p flags).run pgp = (.halt .abort, []) := by
  simp only [newPageI, Prog.run_read_bind, if_pos full, Prog.run_halt]

theorem step_getPage (h : Refines tid good pgp flat) {flags : PageFlags}
    (allowed : Allowed good pgp flat (.getPage p flags)) :
    (∃ reply pgp', (((Call.getPage p flags).prog tid).run pgp).1 = .ok reply pgp' ∧
      Stepped tid good pgp flat (.getPage p flags) reply pgp') ∨
    (pgp.maxpgno = maxPageNumber ∧
      (((Call.getPage p flags).prog tid).run pgp).1 = .halt .abort) := by
  by_cases denied : flags.dirty = true ∧ pgp.rdonly = true
  · refine .inl (h.step_refused ?_)
    simp only [Pagepool.getPage, Prog.run_read_bind, if_pos denied, Prog.run_pure]
  cases new : flags.new with
  | true =>
    cases make : flags.create with
    | true =>
      refine .inl (h.step_refused ?_)
      simp only [Pagepool.getPage, Prog.run_read_bind, if_neg denied, new, make, if_true,
        Prog.run_pure]
    | false =>
      by_cases full : pgp.maxpgno = maxPageNumber
      · refine .inr ⟨full, ?_⟩
        have got : (Pagepool.getPage (ε := Empty) tid p flags).run pgp = (.halt .abort, []) := by
          simp only [Pagepool.getPage, Prog.run_read_bind, if_neg denied, new, make, if_true,
            Bool.false_eq_true, if_false]
          exact Prog.run_bind_halt (newPageI_full full flags)
        simp only [Call.prog, Prog.run_bind_halt got]
      · exact .inl (h.step_fetchNew new allowed denied make full)
  | false =>
    have may : flags.dirty = true → pgp.rdonly = false := fun d => by simpa [d] using denied
    by_cases full : flags.create = true ∧ ¬pgp.Cached p ∧ pgp.npages ≤ p ∧
        pgp.maxpgno = maxPageNumber
    · obtain ⟨make, fresh, high, full⟩ := full
      refine .inr ⟨full, ?_⟩
      have got : (Pagepool.getPage (ε := Empty) tid p flags).run pgp = (.halt .abort, []) := by
        simp only [Pagepool.getPage, Prog.run_read_bind, if_neg denied, new, Bool.false_eq_true,
          if_false, h.sound.linked.find_eq_none.mpr fresh, make, high, and_self, if_true]
        exact Prog.run_bind_halt (newPageI_full full _)
      simp only [Call.prog, Prog.run_bind_halt got]
    · exact .inl (h.step_fetch new allowed may fun make fresh high eq =>
        full ⟨make, fresh, high, eq⟩)

theorem step_put (h : Refines tid good pgp flat) {dirty : Bool}
    (allowed : Allowed good pgp flat (.putPage id dirty)) :
    ∃ reply pgp', (((Call.putPage id dirty).prog tid).run pgp).1 = .ok reply pgp' ∧
      Stepped tid good pgp flat (.putPage id dirty) reply pgp' := by
  obtain ⟨isHeld, releases⟩ := allowed
  obtain ⟨edit, eq⟩ := Option.ne_none_iff_exists'.mp isHeld
  obtain ⟨mem, pin, _⟩ := h.held id edit eq
  obtain ⟨pgp', run, s⟩ := putPage_spec (ε := Empty) h.sound.toTidy h.counted pin dirty
  refine ⟨.done, pgp', ?_, h.put s isHeld releases, s.pgin, ?_, ?_, ?_⟩
  · simp only [Call.prog, Prog.run_bind run, Prog.run_pure]
  · intro j memj _ _
    rw [s.lqh]
    exact memj
  · rintro _ _ _ ⟨⟩
  · rintro _ _ _ (⟨⟨⟩⟩ | ⟨⟨⟩, _⟩)

theorem step_store (h : Refines tid good pgp flat) {f : Page → Page}
    (allowed : Allowed good pgp flat (.store id f)) :
    ∃ reply pgp', (((Call.store id f).prog tid).run pgp).1 = .ok reply pgp' ∧
      Stepped tid good pgp flat (.store id f) reply pgp' := by
  obtain ⟨edit, eq⟩ := Option.ne_none_iff_exists'.mp allowed
  obtain ⟨mem, pin, _⟩ := h.held id edit eq
  obtain ⟨pgp', run, s⟩ := store_spec (ε := Empty) h.sound.toTidy h.counted f
  refine ⟨.done, pgp', ?_, h.change s allowed rfl pin rfl rfl, s.pgin, ?_, ?_, ?_⟩
  · simp only [Call.prog, Prog.run_bind run, Prog.run_pure]
  · intro j memj _ _
    rw [s.lqh]
    exact memj
  · rintro _ _ _ ⟨⟩
  · rintro _ _ _ (⟨⟨⟩⟩ | ⟨⟨⟩, _⟩)

theorem step_changePage (h : Refines tid good pgp flat)
    (allowed : Allowed good pgp flat (.changePage id n)) :
    ∃ reply pgp', (((Call.changePage id n).prog tid).run pgp).1 = .ok reply pgp' ∧
      Stepped tid good pgp flat (.changePage id n) reply pgp' := by
  obtain ⟨isHeld, fresh, isGood⟩ := allowed
  obtain ⟨edit, eq⟩ := Option.ne_none_iff_exists'.mp isHeld
  obtain ⟨mem, pin, _⟩ := h.held id edit eq
  obtain ⟨pgp', run, s⟩ := changePage_spec (ε := Empty) h.sound.toTidy h.counted mem pin fresh
  refine ⟨.done, pgp', ?_, h.rename s isHeld fresh isGood, s.pgin, ?_, ?_, ?_⟩
  · simp only [Call.prog, Prog.run_bind run, Bool.false_eq_true, if_false, Prog.run_pure]
  · exact fun j memj _ _ => (s.mem j).mpr memj
  · rintro _ _ _ ⟨⟩
  · rintro _ _ _ (⟨⟨⟩⟩ | ⟨⟨⟩, _⟩)

theorem step_delete (h : Refines tid good pgp flat)
    (allowed : Allowed good pgp flat (.delete id)) :
    ∃ reply pgp', (((Call.delete id).prog tid).run pgp).1 = .ok reply pgp' ∧
      Stepped tid good pgp flat (.delete id) reply pgp' := by
  obtain ⟨isHeld, releases⟩ := allowed
  obtain ⟨edit, eq⟩ := Option.ne_none_iff_exists'.mp isHeld
  obtain ⟨mem, pin, _⟩ := h.held id edit eq
  obtain ⟨pgp', run, s⟩ := delete_spec (ε := Empty) h.sound.toTidy h.counted mem pin
    (by rw [h.once id mem, pin]; rfl)
  refine ⟨.done, pgp', ?_, h.remove s isHeld releases, s.pgin, ?_, ?_, ?_⟩
  · simp only [Call.prog, Prog.run_bind run, if_true, Prog.run_pure]
  · intro j memj _ other
    refine (s.mem h.sound.toTidy).mpr ⟨?_, memj⟩
    rintro rfl
    exact other rfl
  · rintro _ _ _ ⟨⟩
  · rintro _ _ _ (⟨⟨⟩⟩ | ⟨⟨⟩, _⟩)

theorem step_sync (h : Refines tid good pgp flat) :
    ∃ reply pgp', (((Call.sync).prog tid).run pgp).1 = .ok reply pgp' ∧
      Stepped tid good pgp flat .sync reply pgp' := by
  have e := evolves_syncI h.sound.toTidy 0
  have counted : Counted pgp.sync := by
    simp only [Counted, sync, syncI]
    rw [writeList_curcache, writeList_lqh]
    exact h.counted
  refine ⟨.done, pgp.sync, rfl, h.evolve e counted, e.pgin, ?_, ?_, ?_⟩
  · exact fun j mem pin _ => pin.elim (e.locked j mem) fun pin => (e.held j mem pin).1
  · rintro _ _ _ ⟨⟩
  · rintro _ _ _ (⟨⟨⟩⟩ | ⟨⟨⟩, _⟩)

theorem step (h : Refines tid good pgp flat) {call : Call} (allowed : Allowed good pgp flat call) :
    (∃ reply pgp', ((call.prog tid).run pgp).1 = .ok reply pgp' ∧
      Stepped tid good pgp flat call reply pgp') ∨
    (pgp.maxpgno = maxPageNumber ∧ ((call.prog tid).run pgp).1 = .halt .abort) := by
  cases call with
  | newPage p flags =>
    by_cases full : pgp.maxpgno = maxPageNumber
    · exact .inr ⟨full, by simp only [Call.prog, Prog.run_bind_halt (newPageI_full full flags),
        Pagepool.newPage]⟩
    · exact .inl (h.step_newPage allowed full)
  | getPage p flags => exact h.step_getPage allowed
  | store id f => exact .inl (h.step_store allowed)
  | putPage id dirty => exact .inl (h.step_put allowed)
  | changePage id n => exact .inl (h.step_changePage allowed)
  | delete id => exact .inl (h.step_delete allowed)
  | sync => exact .inl h.step_sync

theorem returned (h : Refines tid good pgp flat) {call : Call} {reply : Reply}
    (allowed : Allowed good pgp flat call)
    (run : ((call.prog tid).run pgp).1 = .ok reply pgp') :
    Stepped tid good pgp flat call reply pgp' := by
  rcases h.step allowed with ⟨reply', pgp'', run', stepped⟩ | ⟨_, halted⟩
  · rw [run] at run'
    cases run'
    exact stepped
  · rw [run] at halted
    cases halted

theorem runs {pgp₀ : Pagepool} {flat₀ : Flat} (start : Refines tid good pgp₀ flat₀)
    (run : Runs tid good pgp₀ flat₀ pgp flat) : Refines tid good pgp flat := by
  induction run with
  | start => exact start
  | step _ allowed returned ih => exact (ih.returned allowed returned).refines

theorem runs_pgin {pgp₀ : Pagepool} {flat₀ : Flat} (start : Refines tid good pgp₀ flat₀)
    (run : Runs tid good pgp₀ flat₀ pgp flat) : pgp.pgin = pgp₀.pgin := by
  induction run with
  | start => rfl
  | step run allowed returned ih =>
    exact ((start.runs run).returned allowed returned).pgin.trans ih

end Refines

def Signed (c : Page) : Prop := Page.pageSign c = pageMagic

theorem inverse_native {bsize : Nat} :
    Inverse Signed (pginRoutine bsize false) (pgoutRoutine bsize false) where
  filters := filters_native
  closed _ _ agree sign := agree.pageSign.trans sign
  inverse _ _ sign := roundTrip_native sign

theorem refines_openFd {file : Pagefile} {mem : Nat → Bkt} {rdonly : Bool} {maxcache : Nat}
    {pgin : Nat → Page → Option Page} {pgout : Nat → Page → Page}
    (inverse : Inverse good pgin pgout) (readable : ∀ n, ∃ c, pgin n (file.read n) = some c) :
    Refines tid good (openFd file mem rdonly maxcache pgin pgout) (flatOf pgin file) where
  sound :=
    { linked := linked_openFd
      filters := inverse.filters
      alone := fun _ mem => absurd mem List.not_mem_nil
      tail := fun n high => by
        have zeros : file.read n = fun _ => 0 := if_neg (Nat.not_lt.mpr high)
        exact zeros ▸ pageSign_zero
      readable := readable
      writable := fun _ mem => absurd mem List.not_mem_nil }
  once _ mem := absurd mem List.not_mem_nil
  counted := rfl
  inverse := inverse
  held _ _ isHeld := by simp [flatOf] at isHeld
  pinned _ mem := absurd mem List.not_mem_nil
  entry _ mem := absurd mem List.not_mem_nil
  stored p c _ stored := by
    change (∃ d, pgin p (file.read p) = some d ∧ Agree c d) ∨ (file.length ≤ p ∧ Clear c) at stored
    change (flatOf pgin file).Reads pgin p c
    by_cases low : p < file.length
    · obtain ⟨d, run⟩ := readable p
      simp only [Flat.Reads, flatOf, if_pos low, run]
      rcases stored with ⟨e, run', agree⟩ | ⟨high, _⟩
      · rw [run] at run'
        cases run'
        exact agree
      · omega
    · simp only [Flat.Reads, flatOf, if_neg low]
      rcases stored with ⟨e, run, agree⟩ | ⟨_, clear⟩
      · have zeros : file.read p = fun _ => 0 := if_neg low
        rw [zeros] at run
        exact .inr ⟨e, run, agree⟩
      · exact .inl ⟨c, clear, Agree.refl c⟩
  dirty _ mem := absurd mem List.not_mem_nil

/-- The page pool refines a map from page numbers to pages. In every run on a file opened
with any cache limit: a fetch hands out what the map has, that is the bytes last released
dirty or renamed under the number, else the file's, else an empty page; a creation hands out
a clear header; no locked or pinned entry is evicted; a call fails to return only when the
page numbers have run out. Two pools whose callers released the same bytes hand out the same
bytes for every number that has any, whatever their cache limits. -/
theorem pool_refines_map {tid : Nat} {good : Page → Prop} {file : Pagefile} {mem : Nat → Bkt}
    {rdonly : Bool} {pgin : Nat → Page → Option Page} {pgout : Nat → Page → Page}
    (inverse : Inverse good pgin pgout) (readable : ∀ n, ∃ c, pgin n (file.read n) = some c)
    {maxcache : Nat} {pgp : Pagepool} {flat : Flat}
    (run : Runs tid good (openFd file mem rdonly maxcache pgin pgout) (flatOf pgin file) pgp flat) :
    (∀ call, Allowed good pgp flat call →
      (∃ reply pgp', ((call.prog tid).run pgp).1 = .ok reply pgp' ∧
        (∀ p flags id, call = .getPage p flags → flags.new = false → reply = .mem id →
          flat.Reads pgin p (pgp'.bkt id).page) ∧
        (∀ p flags id, call = .newPage p flags ∨ (call = .getPage p flags ∧ flags.new = true) →
          reply = .mem id → Clear (pgp'.bkt id).page) ∧
        ∀ j ∈ pgp.lqh, (pgp.bkt j).locked = true ∨ (pgp.bkt j).pinned = true →
          call ≠ .delete j → j ∈ pgp'.lqh) ∨
      (pgp.maxpgno = maxPageNumber ∧ ((call.prog tid).run pgp).1 = .halt .abort)) ∧
    ∀ (maxcache' : Nat) (other : Pagepool) (flat' : Flat) (p : Nat) (d : Page),
      Runs tid good (openFd file mem rdonly maxcache' pgin pgout) (flatOf pgin file) other flat' →
      flat.content p = some d → (∃ d', flat'.content p = some d' ∧ Agree d' d) →
      ∀ (flags flags' : PageFlags) (id id' : Nat) (pgp' other' : Pagepool),
        flags.new = false → flags'.new = false →
        Allowed good pgp flat (.getPage p flags) → Allowed good other flat' (.getPage p flags') →
        (((Call.getPage p flags).prog tid).run pgp).1 = .ok (.mem id) pgp' →
        (((Call.getPage p flags').prog tid).run other).1 = .ok (.mem id') other' →
        Agree (pgp'.bkt id).page (other'.bkt id').page := by
  have start : ∀ limit, Refines tid good (openFd file mem rdonly limit pgin pgout)
      (flatOf pgin file) := fun _ => refines_openFd inverse readable
  have filter : ∀ {limit pgp flat}, Runs tid good (openFd file mem rdonly limit pgin pgout)
      (flatOf pgin file) pgp flat → pgp.pgin = pgin := fun run => (start _).runs_pgin run
  constructor
  · intro call allowed
    refine ((start maxcache).runs run).step allowed |>.imp_left ?_
    rintro ⟨reply, pgp', returned, stepped⟩
    have := stepped.fetched
    rw [filter run] at this
    exact ⟨reply, pgp', returned, this, stepped.fresh, stepped.kept⟩
  · rintro maxcache' other flat' p d run' content ⟨d', content', same⟩ flags flags' id id' pgp'
      other' old old' allowed allowed' returned returned'
    have one := (((start _).runs run).returned allowed returned).fetched p flags id rfl old rfl
    have two := (((start _).runs run').returned allowed' returned').fetched p flags' id' rfl old' rfl
    simp only [Flat.Reads, content] at one
    simp only [Flat.Reads, content'] at two
    exact one.trans (two.trans same).symm

def play (tid : Nat) : List Call → Pagepool × Flat → Pagepool × Flat
  | [], s => s
  | call :: calls, s =>
    match ((call.prog tid).run s.1).1 with
    | .ok reply pgp => play tid calls (pgp, s.2.after s.1 call reply)
    | .halt _ => s

theorem Runs.play {tid : Nat} {good : Page → Prop} {pgp : Pagepool} {flat : Flat}
    {s : Pagepool × Flat} (run : Runs tid good pgp flat s.1 s.2) {call : Call}
    (allowed : Allowed good s.1 s.2 call) :
    Runs tid good pgp flat (play tid [call] s).1 (play tid [call] s).2 := by
  simp only [Pagepool.play]
  split
  · exact run.step allowed ‹_›
  · exact run

section EmptyPages

attribute [local semireducible] hashKey

def blankBkt : Bkt := ⟨fun _ => 0, 0, 0, 0, false, false, false, false, 0, []⟩

def blankFile : Pagefile := ⟨0, fun _ _ => 0⟩

def poolOn (maxcache : Nat) : Pagepool :=
  openFd blankFile (fun _ => blankBkt) false maxcache (pginRoutine 512 false)
    (pgoutRoutine 512 false)

def blankFlat : Flat := flatOf (pginRoutine 512 false) blankFile

/-- Page 5 is fetched for editing and released, page 3 is created and kept. -/
def edited (maxcache : Nat) : Pagepool × Flat :=
  play 1 [.getPage 3 { create := true }]
    (play 1 [.putPage 0 false] (play 1 [.getPage 5 { edit := true }] (poolOn maxcache, blankFlat)))

def reread (maxcache : Nat) : Pagepool × Flat :=
  play 1 [.getPage 4 { create := true }] (edited maxcache)

private theorem held_after (i : Nat) (o : Option Bool) {id : Nat} (ne : id ≠ i) :
    Function.update (Function.update (Function.update (fun _ : Nat => (none : Option Bool)) 0
      (some true)) 0 none) i o id = none := by
  rw [Function.update_of_ne ne]
  simp

theorem runs_edited {maxcache : Nat} (h : maxcache = 0 ∨ maxcache = 100) :
    Runs 1 Signed (poolOn maxcache) blankFlat (edited maxcache).1 (edited maxcache).2 := by
  have fresh : Runs 1 Signed (poolOn maxcache) blankFlat (poolOn maxcache, blankFlat).1
      (poolOn maxcache, blankFlat).2 := .start
  refine .play (.play (.play fresh ?_) ?_) ?_
  · simp [Allowed, blankFlat, flatOf]
  · rcases h with rfl | rfl
    · exact ⟨Option.some_ne_none true, rfl⟩
    · exact ⟨Option.some_ne_none true, rfl⟩
  · have none : ∀ id, Function.update (Function.update (fun _ : Nat => (none : Option Bool)) 0
        (some true)) 0 none id = none := by simp
    rcases h with rfl | rfl
    · exact fun id isHeld => absurd (none id) isHeld
    · exact fun id isHeld => absurd (none id) isHeld

theorem allowed_reread {maxcache : Nat} (h : maxcache = 0 ∨ maxcache = 100) :
    Allowed Signed (edited maxcache).1 (edited maxcache).2 (.getPage 4 { create := true }) := by
  have other : (3 : Nat) ≠ 4 := by decide
  rcases h with rfl | rfl
  · intro id isHeld
    by_cases same : id = 0
    · rw [same]
      exact other
    · exact absurd (held_after 0 (some false) same) isHeld
  · intro id isHeld
    by_cases same : id = 1
    · rw [same]
      exact other
    · exact absurd (held_after 1 (some false) same) isHeld

theorem readable_blank (n : Nat) : ∃ c, pginRoutine 512 false n (blankFile.read n) = some c :=
  filters_native.in_zero n

theorem pool_refines_map_edited : ∃ reply pgp',
    (((Call.getPage 5 {}).prog 1).run (edited 100).1).1 = .ok reply pgp' ∧
      ∀ j ∈ (edited 100).1.lqh, ((edited 100).1.bkt j).locked = true ∨
        ((edited 100).1.bkt j).pinned = true → j ∈ pgp'.lqh := by
  have allowed : Allowed Signed (edited 100).1 (edited 100).2 (.getPage 5 {}) := by
    have other : (3 : Nat) ≠ 5 := by decide
    intro id isHeld
    by_cases same : id = 1
    · rw [same]
      exact other
    · exact absurd (held_after 1 (some false) same) isHeld
  rcases (pool_refines_map inverse_native readable_blank (runs_edited (.inr rfl))).1 _ allowed with
    ⟨reply, pgp', returned, _, _, kept⟩ | ⟨full, _⟩
  · exact ⟨reply, pgp', returned, fun j mem pin => kept j mem pin (by simp)⟩
  · exact absurd full (by decide)

/-- Which empty page a number reads as that was never written does depend on the cache limit. -/
theorem empty_page_depends_on_maxcache :
    (Runs 1 Signed (poolOn 0) blankFlat (edited 0).1 (edited 0).2 ∧
      Runs 1 Signed (poolOn 100) blankFlat (edited 100).1 (edited 100).2 ∧
      (edited 0).2.content = (edited 100).2.content) ∧
    (Allowed Signed (edited 0).1 (edited 0).2 (.getPage 4 { create := true }) ∧
      (((Call.getPage 4 { create := true }).prog 1).run (edited 0).1).1 =
        .ok (.mem 1) (reread 0).1 ∧
      Page.pageSign ((reread 0).1.bkt 1).page = pageMagic) ∧
    (Allowed Signed (edited 100).1 (edited 100).2 (.getPage 4 { create := true }) ∧
      (((Call.getPage 4 { create := true }).prog 1).run (edited 100).1).1 =
        .ok (.mem 2) (reread 100).1 ∧
      Page.pageSign ((reread 100).1.bkt 2).page = 0) :=
  ⟨⟨runs_edited (.inl rfl), runs_edited (.inr rfl), rfl⟩,
    ⟨allowed_reread (.inl rfl), rfl, rfl⟩, ⟨allowed_reread (.inr rfl), rfl, rfl⟩⟩

end EmptyPages
end FileHash.Pagepool
