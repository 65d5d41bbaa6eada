import FileHash.PoolLaws

/-! Threads that share the page pool. A thread gets a page, or waits for the thread that
has it and is woken by its release; each release matches an earlier get of the same
thread. The owner's branch of the get counts nested holds while release, eviction and
hand-over look at the pin alone, so the two agree as long as that branch is not taken. -/
namespace FileHash.Pagepool

open Lib (Prog)

/-- The pool, what each blocked thread waits for, and who holds each entry how often. -/
structure Threads where
  pool : Pagepool
  waiting : Nat → Option (Nat × PageFlags)
  holds : Nat → List Nat

inductive Event where
  | get (tid pageno : Nat) (flags : PageFlags)
  | wake (tid : Nat)
  | put (tid mem : Nat) (dirty : Bool)

def Event.tid : Event → Nat
  | .get tid _ _ => tid
  | .wake tid => tid
  | .put tid _ _ => tid

namespace Threads

def next (s : Threads) : Event → Option Threads
  | .get tid pageno flags =>
    if tid = 0 ∨ (s.waiting tid).isSome then none
    else
      match ((getPage (ε := Empty) tid pageno flags).run s.pool).1 with
      | .ok (.page id) pgp =>
        some { s with pool := pgp, holds := Function.update s.holds id (tid :: s.holds id) }
      | .ok (.wait id) pgp =>
        some { s with
          pool := pgp.beginWait tid id
          waiting := Function.update s.waiting tid (some (id, flags)) }
      | .ok .error pgp => some { s with pool := pgp }
      | .halt _ => none
  | .wake tid =>
    match s.waiting tid with
    | none => none
    | some (mem, flags) =>
      if (s.pool.bkt mem).wqh.any fun w => w.tid == tid && w.wakeup then
        match ((endWait (ε := Empty) tid mem flags).run s.pool).1 with
        | .ok id pgp =>
          some { pool := pgp
                 waiting := Function.update s.waiting tid none
                 holds := Function.update s.holds id (tid :: s.holds id) }
        | .halt _ => none
      else none
  | .put tid mem dirty =>
    if tid ∈ s.holds mem ∧ s.waiting tid = none then
      match ((putPage (ε := Empty) mem dirty).run s.pool).1 with
      | .ok _ pgp =>
        some { s with pool := pgp, holds := Function.update s.holds mem ((s.holds mem).erase tid) }
      | .halt _ => none
    else none

def NotNested (s : Threads) : Event → Prop
  | .get tid pageno flags =>
    flags.new = false → ∀ id, s.pool.find pageno = some id → tid ∉ s.holds id
  | _ => True

/-- Runs without nested gets. -/
inductive Reaches (s₀ : Threads) : Threads → Prop
  | start : Reaches s₀ s₀
  | step {s s' : Threads} {e : Event} (run : Reaches s₀ s) (flat : s.NotNested e)
      (happens : s.next e = some s') : Reaches s₀ s'

end Threads

structure Served (waiting : Nat → Option (Nat × PageFlags)) (held : List Nat) (id : Nat)
    (b : Bkt) : Prop where
  count : b.waiters = b.wqh.length
  queued : ∀ tid flags, waiting tid = some (id, flags) → ∃ w ∈ b.wqh, w.tid = tid
  asleep : ∀ w ∈ b.wqh, ∃ flags, waiting w.tid = some (id, flags)
  distinct : (b.wqh.map Waiter.tid).Nodup
  woken : ∀ w ∈ b.wqh, w.wakeup = true → b.pinned = false ∧ b.wqh.getLast? = some w
  alert : b.pinned = false → ∀ w, b.wqh.getLast? = some w → w.wakeup = true
  pin : (b.pinned = true ∧ b.ref = 1 ∧ b.owner ≠ 0 ∧ held = [b.owner]) ∨
    (b.pinned = false ∧ b.ref = 0 ∧ b.owner = 0 ∧ held = [])

structure Queued (waiting : Nat → Option (Nat × PageFlags)) (id : Nat) (b : Bkt) : Prop where
  count : b.waiters = b.wqh.length
  asleep : ∀ w ∈ b.wqh, ∃ flags, waiting w.tid = some (id, flags)
  distinct : (b.wqh.map Waiter.tid).Nodup
  woken : ∀ w ∈ b.wqh, w.wakeup = true → b.pinned = false ∧ b.wqh.getLast? = some w
  owned : b.owner ≠ 0 → b.pinned = true

structure Protocol (s : Threads) : Prop where
  chained : s.pool.Chained
  served : ∀ id ∈ s.pool.lqh, Served s.waiting (s.holds id) id (s.pool.bkt id)
  holds : ∀ id, id ∉ s.pool.lqh → s.holds id = []
  waits : ∀ tid id flags, s.waiting tid = some (id, flags) → id ∈ s.pool.lqh
  null : s.waiting 0 = none

/-- `b` after it was possibly written to the file. -/
def Written (b b' : Bkt) : Prop :=
  b' = b ∨ (b.pinned = false ∧ b' = { b with page := b'.page, dirty := false })

variable {tid p id : Nat} {pgp pgp' mid : Pagepool} {b b' : Bkt} {s s' : Threads}

theorem Written.trans {b'' : Bkt} (h : Written b b') (h' : Written b' b'') : Written b b'' := by
  rcases h with rfl | ⟨free, eq⟩
  · exact h'
  · rcases h' with rfl | ⟨_, eq'⟩
    · exact .inr ⟨free, eq⟩
    · refine .inr ⟨free, ?_⟩
      rw [eq', eq]

theorem Served.written {waiting : Nat → Option (Nat × PageFlags)} {held : List Nat}
    (h : Served waiting held id b) (w : Written b b') : Served waiting held id b' := by
  rcases w with rfl | ⟨_, eq⟩
  · exact h
  · rw [eq]
    exact ⟨h.count, h.queued, h.asleep, h.distinct, h.woken, h.alert, h.pin⟩

theorem Written.pgno (h : Written b b') : b'.pgno = b.pgno := by
  rcases h with rfl | ⟨_, eq⟩
  · rfl
  · rw [eq]

theorem written_writeList {l : List Nat} (free : ∀ i ∈ l, (pgp.bkt i).pinned = false) (j : Nat) :
    Written (pgp.bkt j) ((pgp.writeList l).bkt j) := by
  induction l generalizing pgp with
  | nil => exact .inl rfl
  | cons i l ih =>
    simp only [writeList, List.foldl_cons]
    have rest := fun k (mem : k ∈ l) => free k (List.mem_cons_of_mem _ mem)
    split
    · have one : ∀ k, Written (pgp.bkt k) ((pgp.write i).bkt k) := by
        intro k
        by_cases same : k = i
        · rw [same, write_bkt_same]
          exact .inr ⟨free i List.mem_cons_self, rfl⟩
        · exact .inl (write_bkt_other same)
      refine (one j).trans (ih fun k mem => ?_)
      rcases one k with eq | ⟨_, eq⟩
      · rw [eq]
        exact rest k mem
      · rw [eq]
        exact rest k mem
    · exact ih rest

theorem writeList_hqh (l : List Nat) : (pgp.writeList l).hqh = pgp.hqh := by
  induction l generalizing pgp with
  | nil => rfl
  | cons i l ih =>
    simp only [writeList, List.foldl_cons]
    split
    · exact @ih (pgp.write i)
    · exact ih

theorem writeList_brk (l : List Nat) : (pgp.writeList l).brk = pgp.brk := by
  induction l generalizing pgp with
  | nil => rfl
  | cons i l ih =>
    simp only [writeList, List.foldl_cons]
    split
    · exact @ih (pgp.write i)
    · exact ih

theorem syncI_free {n : Nat} (i : Nat) (mem : i ∈ pgp.syncList n) :
    (pgp.bkt i).pinned = false := by
  have := (mem_syncList mem).2
  simp only [flushable, Bool.and_eq_true, Bool.not_eq_true'] at this
  exact this.1.1

theorem Chained.syncI (h : Chained pgp) (n : Nat) : Chained (pgp.syncI n) :=
  h.congr (writeList_lqh _) (writeList_hqh _) (writeList_brk _)
    fun i _ => (written_writeList syncI_free i).pgno

/-- Entry `id` has been taken off the lists, or was never on them, and is ready for a page. -/
structure Recycled (pgp : Pagepool) (id : Nat) (mid : Pagepool) : Prop where
  chained : mid.Chained
  out : id ∉ mid.lqh
  low : id < mid.brk
  mem : ∀ j, j ∈ mid.lqh ↔ j ∈ pgp.lqh ∧ j ≠ id
  others : ∀ j ∈ mid.lqh, Written (pgp.bkt j) (mid.bkt j)
  idle : id ∈ pgp.lqh → evictable (pgp.bkt id) = true
  pinned : (mid.bkt id).pinned = true
  waiters : (mid.bkt id).waiters = 0
  wqh : (mid.bkt id).wqh = [] ∨ (id ∈ pgp.lqh ∧ (mid.bkt id).wqh = (pgp.bkt id).wqh)

theorem recycled_drop (h : Chained pgp) (mem : id ∈ pgp.lqh) (idle : evictable (pgp.bkt id) = true) :
    Recycled pgp id ((pgp.unlink id).setBkt id (freshBkt tid)) where
  chained := (h.unlink id).setBkt_of_not_mem h.not_mem_unlink
  out := h.not_mem_unlink
  low := h.below id mem
  mem j := by
    simp only [setBkt_lqh, unlink_lqh, h.nodup.mem_erase_iff]
    tauto
  others j memj := by
    have ne : j ≠ id := fun same => h.not_mem_unlink (same ▸ memj)
    rw [setBkt_other ne]
    exact .inl rfl
  idle _ := idle
  pinned := by rw [setBkt_same]; rfl
  waiters := by rw [setBkt_same]; rfl
  wqh := .inr ⟨mem, by rw [setBkt_same]; rfl⟩

theorem Recycled.written (h : Recycled pgp' id mid) (lqh : pgp'.lqh = pgp.lqh)
    (written : ∀ j, Written (pgp.bkt j) (pgp'.bkt j)) : Recycled pgp id mid where
  chained := h.chained
  out := h.out
  low := h.low
  mem j := by rw [h.mem, lqh]
  others j mem := (written j).trans (h.others j mem)
  idle mem := by
    have := h.idle (by rw [lqh]; exact mem)
    rcases written id with eq | ⟨_, eq⟩
    · rwa [eq] at this
    · rw [eq] at this
      exact this
  pinned := h.pinned
  waiters := h.waiters
  wqh := by
    rcases h.wqh with empty | ⟨mem, same⟩
    · exact .inl empty
    · refine .inr ⟨by rw [← lqh]; exact mem, ?_⟩
      rcases written id with eq | ⟨_, eq⟩
      · rw [same, eq]
      · rw [same, eq]

theorem Recycled.syncI (h : Recycled pgp id mid) (n : Nat) : Recycled pgp id (mid.syncI n) where
  chained := h.chained.syncI n
  out := by
    rw [Pagepool.syncI, writeList_lqh]
    exact h.out
  low := by
    rw [Pagepool.syncI, writeList_brk]
    exact h.low
  mem j := by
    rw [Pagepool.syncI, writeList_lqh]
    exact h.mem j
  others j mem := by
    rw [Pagepool.syncI, writeList_lqh] at mem
    exact (h.others j mem).trans (written_writeList syncI_free j)
  idle := h.idle
  pinned := by rw [syncI_bkt h.out]; exact h.pinned
  waiters := by rw [syncI_bkt h.out]; exact h.waiters
  wqh := by rw [syncI_bkt h.out]; exact h.wqh

theorem recycled_evict (h : Chained pgp) (mem : id ∈ pgp.lqh) (idle : evictable (pgp.bkt id) = true) :
    Recycled pgp id (evict tid pgp id) := by
  have free : (pgp.bkt id).pinned = false := by
    simp only [evictable, Bool.and_eq_true, Bool.not_eq_true'] at idle
    exact idle.1.2
  by_cases dirty : (pgp.bkt id).dirty
  · have written : ∀ j, Written (pgp.bkt j) ((pgp.write id).bkt j) := by
      intro j
      by_cases same : j = id
      · rw [same, write_bkt_same]
        exact .inr ⟨free, rfl⟩
      · exact .inl (write_bkt_other same)
    have chained : (pgp.write id).Chained := h.congr rfl rfl rfl fun j _ => (written j).pgno
    have idle' : evictable ((pgp.write id).bkt id) = true := by
      rw [write_bkt_same]
      exact idle
    simp only [evict, if_pos dirty]
    have drop : Recycled (pgp.write id) id (((pgp.write id).unlink id).setBkt id (freshBkt tid)) :=
      recycled_drop chained mem idle'
    have all : Recycled pgp id (((pgp.write id).unlink id).setBkt id (freshBkt tid)) :=
      drop.written rfl written
    exact all.syncI _
  · simp only [evict, if_neg dirty]
    exact recycled_drop h mem idle

theorem newBkt_bkt_other {j : Nat} (ne : j ≠ pgp.brk) :
    (newBkt tid pgp).2.bkt j = pgp.bkt j := by
  simp [newBkt, setBkt, ne]

theorem recycled_newBkt (h : Chained pgp) : Recycled pgp pgp.brk (newBkt tid pgp).2 := by
  have out : pgp.brk ∉ pgp.lqh := fun mem => absurd (h.below _ mem) (lt_irrefl _)
  have grown : Chained { pgp with brk := pgp.brk + 1, curcache := pgp.curcache + 1 } :=
    ⟨h.nodup, h.chain, h.chainNodup, fun j mem => (h.below j mem).trans (Nat.lt_succ_self _)⟩
  have other : ∀ j ∈ pgp.lqh, (newBkt tid pgp).2.bkt j = pgp.bkt j := by
    intro j mem
    exact newBkt_bkt_other fun same => out (same ▸ mem)
  have chained : Chained (newBkt tid pgp).2 := grown.congr rfl rfl rfl fun j mem => by
    rw [other j mem]
  refine { chained := chained, out := out, low := Nat.lt_succ_self _,
           mem := ?_, others := ?_, idle := fun mem => absurd mem out, pinned := ?_,
           waiters := ?_, wqh := ?_ }
  · intro j
    exact ⟨fun mem => ⟨mem, fun same => out (same ▸ mem)⟩, fun mem => mem.1⟩
  · intro j mem
    exact .inl (other j mem)
  · simp [newBkt, freshBkt]
  · simp [newBkt, freshBkt]
  · simp [newBkt]

theorem recycled_obtainBkt (h : Chained pgp)
    (run : ((obtainBkt (ε := Empty) tid).run pgp).1 = .ok id mid) : Recycled pgp id mid := by
  simp only [obtainBkt, Prog.run_read_bind] at run
  split at run
  · split at run
    · cases run
    · split at run
      · rename_i i found
        cases run
        exact recycled_evict h (List.mem_of_find?_eq_some found)
          (by simpa using List.find?_some found)
      · cases run
        exact recycled_newBkt h
  · cases run
    exact recycled_newBkt h

structure Entered (tid : Nat) (pgp : Pagepool) (id : Nat) (pgp' : Pagepool) : Prop where
  recycled : ∃ mid b top, Recycled pgp id mid ∧ pgp' = mid.enter id b top ∧ b.pinned = true ∧
    b.ref = 1 ∧ b.owner = tid ∧ b.waiters = 0 ∧ b.wqh = (mid.bkt id).wqh

theorem entered_loadNewPage (h : Chained pgp) {flags : PageFlags}
    (run : ((loadNewPage (ε := Empty) tid p flags).run pgp).1 = .ok id pgp') :
    Entered tid pgp id pgp' := by
  rcases first : (obtainBkt (ε := Empty) tid).run pgp with ⟨_ | _, t⟩
  case halt why =>
    simp only [loadNewPage, Prog.run_bind_halt first] at run
    cases run
  case ok i mid =>
    have r := recycled_obtainBkt h (by rw [first])
    simp only [loadNewPage, Prog.run_bind first, Prog.run_read_bind, Prog.run_modify_bind] at run
    split at run
    · cases run
    · rename_i page read
      simp only [Prog.run_modify_bind, Prog.run_pure, Lib.Outcome.ok.injEq] at run
      obtain ⟨rfl, rfl⟩ := run
      refine ⟨mid, loadedBkt tid p flags page (mid.bkt i), mid.maxpgno, r, ?_, r.pinned, rfl, rfl,
        rfl, rfl⟩
      rw [setBkt_link (by simp [applyFlags]), setBkt_setBkt]
      rfl

theorem entered_newPageI (h : Chained pgp) {flags : PageFlags} {r : Nat × Nat}
    (run : ((newPageI (ε := Empty) tid p flags).run pgp).1 = .ok r pgp') :
    Entered tid pgp r.1 pgp' := by
  simp only [newPageI, Prog.run_read_bind] at run
  split at run
  · cases run
  · rcases first : (obtainBkt (ε := Empty) tid).run pgp with ⟨_ | _, t⟩
    case halt why =>
      simp only [Prog.run_bind_halt first] at run
      cases run
    case ok i mid =>
      have got := recycled_obtainBkt h (by rw [first])
      simp only [Prog.run_bind first, Prog.run_modify_bind, Prog.run_pure,
        Lib.Outcome.ok.injEq] at run
      obtain ⟨rfl, rfl⟩ := run
      refine ⟨mid, createdBkt tid (if flags.request then p else pgp.maxpgno + 1) flags (mid.bkt i),
        max mid.maxpgno (if flags.request then p else pgp.maxpgno + 1), got, ?_, got.pinned, rfl,
        rfl, got.waiters, rfl⟩
      rw [setBkt_link (by simp [applyFlags]), setBkt_setBkt]
      simp [enter, createdBkt, setBkt, link, applyFlags]

theorem getPage_cases (h : Chained pgp) {flags : PageFlags} {r : GetResult}
    (run : ((getPage (ε := Empty) tid p flags).run pgp).1 = .ok r pgp') :
    (r = .error ∧ pgp' = pgp) ∨
    (∃ id, pgp.find p = some id ∧ flags.new = false ∧ mustWait tid (pgp.bkt id) = true ∧
      r = .wait id ∧ pgp' = pgp) ∨
    (∃ id, pgp.find p = some id ∧ flags.new = false ∧ mustWait tid (pgp.bkt id) = false ∧
      r = .page id ∧ pgp' = grab tid flags pgp id) ∨
    (∃ id, Entered tid pgp id pgp' ∧ r = .page id) := by
  simp only [getPage, Prog.run_read_bind] at run
  split at run
  · cases run
    exact .inl ⟨rfl, rfl⟩
  split at run
  · split at run
    · cases run
      exact .inl ⟨rfl, rfl⟩
    · rcases first : (newPageI (ε := Empty) tid p flags).run pgp with ⟨_ | _, t⟩
      case halt why =>
        rw [Prog.run_bind_halt first] at run
        cases run
      case ok i mid =>
        rw [Prog.run_bind first] at run
        cases run
        exact .inr (.inr (.inr ⟨i.1, entered_newPageI h (by rw [first]), rfl⟩))
  · rename_i old
    have old : flags.new = false := by simpa using old
    split at run
    · rename_i id found
      split at run
      · rename_i wait
        cases run
        exact .inr (.inl ⟨id, found, old, wait, rfl, rfl⟩)
      · rename_i go
        cases run
        exact .inr (.inr (.inl ⟨id, found, old, by simpa using go, rfl, rfl⟩))
    · split at run
      · rcases first : (newPageI (ε := Empty) tid p { flags with request := true }).run pgp with
          ⟨_ | _, t⟩
        case halt why =>
          rw [Prog.run_bind_halt first] at run
          cases run
        case ok i mid =>
          rw [Prog.run_bind first] at run
          cases run
          exact .inr (.inr (.inr ⟨i.1, entered_newPageI h (by rw [first]), rfl⟩))
      · rcases first : (loadNewPage (ε := Empty) tid p flags).run pgp with ⟨_ | _, t⟩
        case halt why =>
          rw [Prog.run_bind_halt first] at run
          cases run
        case ok i mid =>
          rw [Prog.run_bind first] at run
          cases run
          exact .inr (.inr (.inr ⟨i, entered_loadNewPage h (by rw [first]), rfl⟩))

section Queued

variable {waiting : Nat → Option (Nat × PageFlags)} {held : List Nat} {flags : PageFlags}

theorem Served.toQueued (h : Served waiting held id b) : Queued waiting id b := by
  refine ⟨h.count, h.asleep, h.distinct, h.woken, fun owned => ?_⟩
  rcases h.pin with ⟨pinned, _⟩ | ⟨_, _, null, _⟩
  · exact pinned
  · exact absurd null owned

theorem Queued.written (h : Queued waiting id b) (w : Written b b') : Queued waiting id b' := by
  rcases w with rfl | ⟨_, eq⟩
  · exact h
  · rw [eq]
    exact ⟨h.count, h.asleep, h.distinct, h.woken, h.owned⟩

theorem Queued.elsewhere (h : Queued waiting id b) {o : Option (Nat × PageFlags)}
    (before : ∀ flags, waiting tid ≠ some (id, flags)) :
    Queued (Function.update waiting tid o) id b := by
  refine { h with asleep := fun w mem => ?_ }
  obtain ⟨f, eq⟩ := h.asleep w mem
  have ne : w.tid ≠ tid := fun same => before f (same ▸ eq)
  exact ⟨f, by rw [Function.update_of_ne ne]; exact eq⟩

theorem Queued.hit (h : Queued waiting id b) (alive : tid ≠ 0) (go : mustWait tid b = false) :
    Queued waiting id (applyFlags flags (hold tid b)) := by
  have queue : (hold tid b).wqh = b.wqh := by
    simp only [hold]
    split <;> rfl
  have count : (hold tid b).waiters = b.waiters := by
    simp only [hold]
    split <;> rfl
  have asleep : ∀ w ∈ b.wqh, w.wakeup = false := by
    intro w mem
    by_cases stranger : b.owner = tid
    · by_contra wake
      have free := (h.woken w mem (by simpa using wake)).1
      rw [h.owned (stranger ▸ alive)] at free
      cases free
    · simp only [mustWait, Bool.and_eq_false_iff, Bool.or_eq_false_iff, bne_eq_false_iff_eq,
        decide_eq_false_iff_not, Nat.not_lt, Nat.le_zero_eq] at go
      have some := List.length_pos_of_mem mem
      have none := (go.resolve_left stranger).1
      rw [h.count] at none
      omega
  refine { count := ?_, asleep := ?_, distinct := ?_, woken := ?_, owned := fun _ => ?_ }
  · simp only [applyFlags, queue, count]
    exact h.count
  · simp only [applyFlags, queue]
    exact h.asleep
  · simp only [applyFlags, queue]
    exact h.distinct
  · intro w mem wake
    simp only [applyFlags, queue] at mem
    rw [asleep w mem] at wake
    cases wake
  · simp only [applyFlags, hold]
    split <;> rfl

theorem Queued.begin (h : Queued waiting id b) (free : waiting tid = none) :
    Queued (Function.update waiting tid (some (id, flags))) id
      { b with waiters := b.waiters + 1, wqh := ⟨tid, false⟩ :: b.wqh } := by
  have absent : ∀ w ∈ b.wqh, w.tid ≠ tid := by
    intro w mem same
    obtain ⟨f, eq⟩ := h.asleep w mem
    rw [same, free] at eq
    cases eq
  refine { count := ?_, asleep := ?_, distinct := ?_, woken := ?_, owned := h.owned }
  · simp [h.count]
  · intro w mem
    rcases List.mem_cons.mp mem with rfl | mem
    · exact ⟨flags, by simp⟩
    · obtain ⟨f, eq⟩ := h.asleep w mem
      exact ⟨f, by rw [Function.update_of_ne (absent w mem)]; exact eq⟩
  · simp only [List.map_cons, List.nodup_cons, List.mem_map, not_exists, not_and]
    exact ⟨absent, h.distinct⟩
  · intro w mem wake
    rcases List.mem_cons.mp mem with rfl | mem
    · cases wake
    · obtain ⟨unpinned, last⟩ := h.woken w mem wake
      refine ⟨unpinned, ?_⟩
      rw [List.getLast?_cons, last]
      rfl

theorem Queued.finish (h : Queued waiting id b) {w : Waiter} (mem : w ∈ b.wqh)
    (wake : w.wakeup = true) :
    b.wqh = b.wqh.dropLast ++ [w] ∧
    Queued (Function.update waiting w.tid none) id (unqueue w.tid flags b) := by
  obtain ⟨_, last⟩ := h.woken w mem wake
  have split : b.wqh = b.wqh.dropLast ++ [w] := by
    have := List.dropLast_append_getLast? w last
    exact this.symm
  have apart : ∀ v ∈ b.wqh.dropLast, v.tid ≠ w.tid := by
    have distinct := h.distinct
    rw [split, List.map_append, List.nodup_append] at distinct
    intro v memv
    exact distinct.2.2 _ (List.mem_map_of_mem memv) _ (by simp)
  refine ⟨split, ?_⟩
  refine { count := ?_, asleep := ?_, distinct := ?_, woken := ?_, owned := fun _ => rfl }
  · simp [unqueue, applyFlags, h.count]
  · intro v memv
    obtain ⟨f, eq⟩ := h.asleep v (List.dropLast_subset _ memv)
    exact ⟨f, by rw [Function.update_of_ne (apart v memv)]; exact eq⟩
  · exact h.distinct.sublist ((List.dropLast_sublist _).map _)
  · intro v memv wakev
    obtain ⟨_, lastv⟩ := h.woken v (List.dropLast_subset _ memv) wakev
    rw [last] at lastv
    cases lastv
    exact absurd rfl (apart w memv)

theorem map_wakeLast (l : List Waiter) : (wakeLast l).map Waiter.tid = l.map Waiter.tid := by
  induction l with
  | nil => rfl
  | cons w l ih =>
    cases l with
    | nil => rfl
    | cons v l =>
      simp only [wakeLast, List.map_cons] at ih ⊢
      rw [ih]

theorem woken_wakeLast {l : List Waiter} (none : ∀ w ∈ l, w.wakeup = false) {w : Waiter}
    (mem : w ∈ wakeLast l) (wake : w.wakeup = true) : (wakeLast l).getLast? = some w := by
  induction l with
  | nil => cases mem
  | cons v l ih =>
    cases l with
    | nil =>
      simp only [wakeLast, List.mem_singleton] at mem
      simp [wakeLast, mem]
    | cons u l =>
      simp only [wakeLast, List.mem_cons] at mem
      rcases mem with rfl | mem
      · rw [none w List.mem_cons_self] at wake
        cases wake
      · have rest := ih (fun x memx => none x (List.mem_cons_of_mem _ memx)) mem
        simp only [wakeLast, List.getLast?_cons, rest]
        rfl

theorem getLast?_wakeLast (l : List Waiter) :
    (wakeLast l).getLast? = l.getLast?.map fun w => { w with wakeup := true } := by
  induction l with
  | nil => rfl
  | cons v l ih =>
    cases l with
    | nil => rfl
    | cons u l =>
      simp only [wakeLast, List.getLast?_cons_cons] at ih ⊢
      cases rest : wakeLast (u :: l) with
      | nil =>
        have := congrArg List.length (map_wakeLast (u :: l))
        rw [rest] at this
        cases this
      | cons x xs =>
        rw [List.getLast?_cons_cons, ← rest]
        exact ih

theorem Queued.release_wqh (h : Queued waiting id b) (dirty : Bool) :
    (Pagepool.release dirty b).wqh = wakeLast b.wqh := by
  simp only [Pagepool.release]
  split
  · rfl
  · have none : b.wqh = [] := by
      rw [← List.length_eq_zero_iff, ← h.count]
      omega
    rw [none]
    rfl

theorem Queued.release (h : Queued waiting id b) (pinned : b.pinned = true) (dirty : Bool) :
    Queued waiting id (release dirty b) := by
  have asleep : ∀ w ∈ b.wqh, w.wakeup = false := by
    intro w memw
    by_contra wake
    have := (h.woken w memw (by simpa using wake)).1
    rw [pinned] at this
    cases this
  have queue := h.release_wqh dirty
  have tids := map_wakeLast b.wqh
  refine { count := ?_, asleep := ?_, distinct := ?_, woken := ?_, owned := absurd rfl }
  · rw [queue, ← List.length_map Waiter.tid, tids, List.length_map]
    exact h.count
  · intro w memw
    rw [queue] at memw
    have : w.tid ∈ b.wqh.map Waiter.tid := by
      rw [← tids]
      exact List.mem_map_of_mem memw
    obtain ⟨v, memv, eqv⟩ := List.mem_map.mp this
    rw [← eqv]
    exact h.asleep v memv
  · rw [queue, tids]
    exact h.distinct
  · rw [queue]
    exact fun w memw wake => ⟨rfl, woken_wakeLast asleep memw wake⟩

theorem Served.elsewhere (h : Served waiting held id b) {o : Option (Nat × PageFlags)}
    (before : ∀ flags, waiting tid ≠ some (id, flags)) (after : ∀ flags, o ≠ some (id, flags)) :
    Served (Function.update waiting tid o) held id b := by
  refine { h with queued := fun t f eq => ?_, asleep := (h.toQueued.elsewhere before).asleep }
  by_cases same : t = tid
  · rw [same, Function.update_self] at eq
    exact absurd eq (after f)
  · rw [Function.update_of_ne same] at eq
    exact h.queued t f eq

theorem Served.unqueued (h : Served waiting held id b) (alive : tid ≠ 0) (fresh : tid ∉ held)
    (go : mustWait tid b = false) : b.owner ≠ tid ∧ b.pinned = false ∧ b.wqh = [] := by
  have stranger : b.owner ≠ tid := by
    rintro rfl
    rcases h.pin with ⟨_, _, _, eq⟩ | ⟨_, _, null, _⟩
    · rw [eq] at fresh
      exact fresh List.mem_cons_self
    · exact alive null
  have empty : b.waiters = 0 ∧ b.pinned = false := by
    simp only [mustWait, Bool.and_eq_false_iff, Bool.or_eq_false_iff, bne_eq_false_iff_eq,
      decide_eq_false_iff_not, Nat.not_lt, Nat.le_zero_eq] at go
    exact go.resolve_left stranger
  refine ⟨stranger, empty.2, ?_⟩
  rw [← List.length_eq_zero_iff, ← h.count]
  exact empty.1

theorem Served.hit (h : Served waiting held id b) (alive : tid ≠ 0) (fresh : tid ∉ held)
    (go : mustWait tid b = false) :
    Served waiting (tid :: held) id (applyFlags flags (hold tid b)) := by
  have queued : Queued waiting id (applyFlags flags (hold tid b)) := h.toQueued.hit alive go
  obtain ⟨stranger, free, queue⟩ := h.unqueued alive fresh go
  obtain ⟨pinned, _⟩ | ⟨_, ref, _, none⟩ := h.pin
  · rw [free] at pinned
    cases pinned
  refine { queued with queued := ?_, alert := ?_, pin := .inl ?_ }
  · simp only [applyFlags, hold, if_neg stranger]
    exact h.queued
  · simp [applyFlags, hold, if_neg stranger, queue]
  · simp [applyFlags, hold, if_neg stranger, ref, alive, none]

theorem Served.begin (h : Served waiting held id b) (free : waiting tid = none)
    (wait : mustWait tid b = true) :
    Served (Function.update waiting tid (some (id, flags))) held id
      { b with waiters := b.waiters + 1, wqh := ⟨tid, false⟩ :: b.wqh } := by
  have queued : Queued (Function.update waiting tid (some (id, flags))) id
      { b with waiters := b.waiters + 1, wqh := ⟨tid, false⟩ :: b.wqh } := h.toQueued.begin free
  refine { queued with queued := ?_, alert := ?_, pin := h.pin }
  · intro t f eq
    by_cases same : t = tid
    · exact ⟨_, List.mem_cons_self, same.symm⟩
    · rw [Function.update_of_ne same] at eq
      obtain ⟨w, mem, eqw⟩ := h.queued t f eq
      exact ⟨w, List.mem_cons_of_mem _ mem, eqw⟩
  · intro unpinned w last
    cases old : b.wqh.getLast? with
    | none =>
      -- nobody is in line, so the page would have been handed out at once
      have none : b.waiters = 0 := by rw [h.count, List.getLast?_eq_none_iff.mp old]; rfl
      simp only at unpinned
      simp [mustWait, none, unpinned] at wait
    | some v =>
      rw [List.getLast?_cons, old] at last
      cases last
      exact h.alert unpinned _ old

theorem Served.finish (h : Served waiting held id b) {w : Waiter} (alive : w.tid ≠ 0)
    (mem : w ∈ b.wqh) (wake : w.wakeup = true) :
    b.wqh.getLast?.map Waiter.tid = some w.tid ∧
    Served (Function.update waiting w.tid none) (w.tid :: held) id (unqueue w.tid flags b) := by
  obtain ⟨unpinned, last⟩ := h.woken w mem wake
  have queued : b.wqh = b.wqh.dropLast ++ [w] ∧
      Queued (Function.update waiting w.tid none) id (unqueue w.tid flags b) :=
    h.toQueued.finish mem wake
  obtain ⟨split, queued⟩ := queued
  obtain ⟨pinned, _⟩ | ⟨_, ref, _, none⟩ := h.pin
  · rw [unpinned] at pinned
    cases pinned
  refine ⟨by rw [last]; rfl, ?_⟩
  refine { queued with
           queued := ?_, alert := fun free => by simp [unqueue, applyFlags] at free,
           pin := .inl ?_ }
  · intro t f eq
    by_cases same : t = w.tid
    · rw [same, Function.update_self] at eq
      cases eq
    · rw [Function.update_of_ne same] at eq
      obtain ⟨v, memv, eqv⟩ := h.queued t f eq
      rw [split, List.mem_append, List.mem_singleton] at memv
      rcases memv with memv | rfl
      · exact ⟨v, memv, eqv⟩
      · exact absurd eqv.symm same
  · simp [unqueue, applyFlags, ref, alive, none]

theorem Served.release (h : Served waiting held id b) (mem : tid ∈ held) (dirty : Bool) :
    b.pinned = true ∧ Served waiting (held.erase tid) id (release dirty b) := by
  obtain ⟨pinned, ref, owner, eq⟩ | ⟨_, _, _, eq⟩ := h.pin
  · have queue := h.toQueued.release_wqh dirty
    rw [eq, List.mem_singleton] at mem
    refine ⟨pinned, { h.toQueued.release pinned dirty with queued := ?_, alert := ?_, pin := .inr ?_ }⟩
    · intro t f waits
      obtain ⟨w, memw, eqw⟩ := h.queued t f waits
      have : t ∈ (wakeLast b.wqh).map Waiter.tid := by
        rw [map_wakeLast, ← eqw]
        exact List.mem_map_of_mem memw
      rw [queue]
      exact List.mem_map.mp this
    · rw [queue, getLast?_wakeLast]
      intro _ w last
      obtain ⟨v, _, rfl⟩ := Option.map_eq_some_iff.mp last
      rfl
    · simp [Pagepool.release, ref, eq, mem]
  · rw [eq] at mem
    cases mem

end Queued

namespace Protocol

theorem each_setBkt {P : Nat → Bkt → Prop} (f : Bkt → Bkt) (here : P id (f (pgp.bkt id)))
    (there : ∀ j ∈ pgp.lqh, j ≠ id → P j (pgp.bkt j)) :
    ∀ j ∈ pgp.lqh, P j ((pgp.setBkt id f).bkt j) := by
  intro j mem
  by_cases same : j = id
  · rw [same, setBkt_same]
    exact here
  · rw [setBkt_other same]
    exact there j mem same

theorem hit (h : Protocol s) (alive : tid ≠ 0) (mem : id ∈ s.pool.lqh) (fresh : tid ∉ s.holds id)
    (go : mustWait tid (s.pool.bkt id) = false) (flags : PageFlags) :
    Protocol { s with
      pool := grab tid flags s.pool id
      holds := Function.update s.holds id (tid :: s.holds id) } := by
  have kept : (applyFlags flags (hold tid (s.pool.bkt id))).pgno = (s.pool.bkt id).pgno := by
    simp only [applyFlags, hold]
    split <;> rfl
  have chained := h.chained.setBkt (f := fun b => applyFlags flags (hold tid b)) kept
  have same : ∀ j, j ∈ (grab tid flags s.pool id).lqh ↔ j ∈ s.pool.lqh := fun j =>
    mem_requeue chained mem
  refine { chained := chained.requeue mem, served := fun j memj => ?_, holds := fun j out => ?_,
           waits := fun t j f eq => (same j).mpr (h.waits t j f eq), null := h.null }
  · refine each_setBkt (P := fun i => Served s.waiting
      (Function.update s.holds id (tid :: s.holds id) i) i)
      (fun b => applyFlags flags (hold tid b)) ?_ ?_ j ((same j).mp memj)
    · rw [Function.update_self]
      exact (h.served id mem).hit alive fresh go
    · intro i memi ne
      rw [Function.update_of_ne ne]
      exact h.served i memi
  · rw [same] at out
    have ne : j ≠ id := fun e => out (e ▸ mem)
    simp only [Function.update_of_ne ne]
    exact h.holds j out

theorem begin (h : Protocol s) (alive : tid ≠ 0) (free : s.waiting tid = none)
    (mem : id ∈ s.pool.lqh) (wait : mustWait tid (s.pool.bkt id) = true) (flags : PageFlags) :
    Protocol { s with
      pool := s.pool.beginWait tid id
      waiting := Function.update s.waiting tid (some (id, flags)) } := by
  have chained : Chained (s.pool.beginWait tid id) :=
    h.chained.congr rfl rfl rfl fun i _ => setBkt_pgno rfl i
  refine { chained := chained, served := ?_, holds := h.holds, waits := fun t j f eq => ?_,
           null := ?_ }
  · refine each_setBkt
      (P := fun i => Served (Function.update s.waiting tid (some (id, flags))) (s.holds i) i)
      (fun b => { b with waiters := b.waiters + 1, wqh := ⟨tid, false⟩ :: b.wqh })
      ((h.served id mem).begin free wait) fun j memj ne => ?_
    refine (h.served j memj).elsewhere (fun f eq => ?_) fun f eq => ?_
    · rw [free] at eq
      cases eq
    · cases eq
      exact ne rfl
  · by_cases same : t = tid
    · simp only [same, Function.update_self, Option.some.injEq, Prod.mk.injEq] at eq
      rw [← eq.1]
      exact mem
    · simp only [Function.update_of_ne same] at eq
      exact h.waits t j f eq
  · simp only [Function.update_of_ne (Ne.symm alive)]
    exact h.null

theorem finish (h : Protocol s) {w : Waiter} {flags : PageFlags}
    (waits : s.waiting w.tid = some (id, flags)) (mem : w ∈ (s.pool.bkt id).wqh)
    (wake : w.wakeup = true) :
    (s.pool.bkt id).wqh.getLast?.map Waiter.tid = some w.tid ∧
    Protocol {
      pool := ((s.pool.setBkt id (unqueue w.tid flags)).unlink id).link id
      waiting := Function.update s.waiting w.tid none
      holds := Function.update s.holds id (w.tid :: s.holds id) } := by
  have cached := h.waits _ _ _ waits
  have alive : w.tid ≠ 0 := by
    intro null
    rw [null, h.null] at waits
    cases waits
  obtain ⟨last, served⟩ := (h.served id cached).finish alive mem wake
  have chained : Chained (s.pool.setBkt id (unqueue w.tid flags)) := h.chained.setBkt rfl
  have same : ∀ j, j ∈ (((s.pool.setBkt id (unqueue w.tid flags)).unlink id).link id).lqh ↔
      j ∈ s.pool.lqh := fun j => mem_requeue chained cached
  refine ⟨last, { chained := chained.requeue cached, served := fun j memj => ?_,
                  holds := fun j out => ?_, waits := fun t j f eq => ?_, null := ?_ }⟩
  · refine each_setBkt (P := fun i => Served (Function.update s.waiting w.tid none)
      (Function.update s.holds id (w.tid :: s.holds id) i) i)
      (unqueue w.tid flags) ?_ ?_ j ((same j).mp memj)
    · rw [Function.update_self]
      exact served
    · intro i memi ne
      rw [Function.update_of_ne ne]
      refine (h.served i memi).elsewhere (fun f eq => ?_) fun f eq => by cases eq
      rw [waits] at eq
      cases eq
      exact ne rfl
  · rw [same] at out
    have ne : j ≠ id := fun e => out (e ▸ cached)
    simp only [Function.update_of_ne ne]
    exact h.holds j out
  · rw [same]
    by_cases eqt : t = w.tid
    · simp only [eqt, Function.update_self] at eq
      cases eq
    · simp only [Function.update_of_ne eqt] at eq
      exact h.waits t j f eq
  · simp only [Function.update_of_ne (Ne.symm alive)]
    exact h.null

theorem put (h : Protocol s) (held : tid ∈ s.holds id) (dirty : Bool) :
    (s.pool.bkt id).pinned = true ∧
    Protocol { s with
      pool := s.pool.setBkt id (release dirty)
      holds := Function.update s.holds id ((s.holds id).erase tid) } := by
  have mem : id ∈ s.pool.lqh := by
    by_contra out
    rw [h.holds id out] at held
    cases held
  obtain ⟨pinned, served⟩ := (h.served id mem).release held dirty
  refine ⟨pinned, { chained := h.chained.setBkt rfl, served := ?_, holds := fun j out => ?_,
                    waits := h.waits, null := h.null }⟩
  · intro j memj
    refine each_setBkt (P := fun i => Served s.waiting
      (Function.update s.holds id ((s.holds id).erase tid) i) i)
      (Pagepool.release dirty) ?_ ?_ j memj
    · rw [Function.update_self]
      exact served
    · intro i memi ne
      rw [Function.update_of_ne ne]
      exact h.served i memi
  · have ne : j ≠ id := fun e => out (e ▸ mem)
    simp only [Function.update_of_ne ne]
    exact h.holds j out

theorem idle (h : Protocol s) (r : Recycled s.pool id mid) :
    s.holds id = [] ∧ (∀ t f, s.waiting t ≠ some (id, f)) ∧ (mid.bkt id).wqh = [] := by
  by_cases mem : id ∈ s.pool.lqh
  · have idle := r.idle mem
    simp only [evictable, Bool.and_eq_true, Bool.not_eq_true', beq_iff_eq] at idle
    have served := h.served id mem
    have queue : (s.pool.bkt id).wqh = [] := by
      rw [← List.length_eq_zero_iff, ← served.count]
      exact idle.2
    refine ⟨?_, fun t f eq => ?_, ?_⟩
    · rcases served.pin with ⟨pinned, _⟩ | ⟨_, _, _, none⟩
      · rw [idle.1.2] at pinned
        cases pinned
      · exact none
    · obtain ⟨w, memw, _⟩ := served.queued t f eq
      rw [queue] at memw
      cases memw
    · rcases r.wqh with empty | ⟨_, same⟩
      · exact empty
      · rw [same, queue]
  · refine ⟨h.holds id mem, fun t f eq => mem (h.waits t id f eq), ?_⟩
    exact r.wqh.resolve_right fun old => mem old.1

theorem enter (h : Protocol s) (alive : tid ≠ 0) (e : Entered tid s.pool id pgp') :
    Protocol { s with
      pool := pgp'
      holds := Function.update s.holds id (tid :: s.holds id) } := by
  obtain ⟨mid, b, top, r, rfl, pinned, ref, owner, waiters, wqh⟩ := e.recycled
  obtain ⟨none, nobody, queue⟩ := h.idle r
  have elsewhere : ∀ j ∈ (mid.enter id b top).lqh, j ≠ id → j ∈ mid.lqh := fun j mem ne =>
    (mem_enter.mp mem).resolve_right ne
  refine { chained := ?_, served := fun j mem => ?_, holds := fun j out => ?_,
           waits := fun t j f eq => ?_, null := h.null }
  · have reset := r.chained.setBkt_of_not_mem (f := fun _ => b) r.out
    exact (reset.link r.out r.low).congr rfl rfl rfl fun _ _ => rfl
  · by_cases same : j = id
    · rw [same]
      simp only [Function.update_self, enter_bkt_same]
      refine { count := ?_, queued := fun t f eq => absurd eq (nobody t f), asleep := ?_,
               distinct := ?_, woken := ?_, alert := fun free => ?_,
               pin := .inl ⟨pinned, ref, ?_, ?_⟩ }
      · rw [waiters, wqh, queue]
        rfl
      · rw [wqh, queue]
        exact fun w mem => absurd mem List.not_mem_nil
      · rw [wqh, queue]
        exact List.nodup_nil
      · rw [wqh, queue]
        exact fun w mem => absurd mem List.not_mem_nil
      · rw [pinned] at free
        cases free
      · rw [owner]
        exact alive
      · rw [owner, none]
    · simp only [Function.update_of_ne same, enter_bkt_other same]
      have memMid := elsewhere j mem same
      exact (h.served j ((r.mem j).mp memMid).1).written (r.others j memMid)
  · have ne : j ≠ id := fun e => out (mem_enter.mpr (.inr e))
    simp only [Function.update_of_ne ne]
    refine h.holds j fun mem => out (mem_enter.mpr (.inl ((r.mem j).mpr ⟨mem, ne⟩)))
  · have ne : j ≠ id := fun e => nobody t f (e ▸ eq)
    exact mem_enter.mpr (.inl ((r.mem j).mpr ⟨h.waits t j f eq, ne⟩))

inductive Happens (s : Threads) : Event → Threads → Prop
  | refused {tid p : Nat} {flags : PageFlags}
      (run : ((getPage (ε := Empty) tid p flags).run s.pool).1 = .ok .error s.pool) :
      Happens s (.get tid p flags) s
  | begin {tid p id : Nat} {flags : PageFlags}
      (run : ((getPage (ε := Empty) tid p flags).run s.pool).1 = .ok (.wait id) s.pool)
      (alive : tid ≠ 0) (free : s.waiting tid = none) (mem : id ∈ s.pool.lqh)
      (wait : mustWait tid (s.pool.bkt id) = true) :
      Happens s (.get tid p flags) { s with
        pool := s.pool.beginWait tid id
        waiting := Function.update s.waiting tid (some (id, flags)) }
  | hit {tid p id : Nat} {flags : PageFlags}
      (run : ((getPage (ε := Empty) tid p flags).run s.pool).1 =
        .ok (.page id) (grab tid flags s.pool id))
      (alive : tid ≠ 0) (free : s.waiting tid = none) (old : flags.new = false)
      (found : s.pool.find p = some id) (mem : id ∈ s.pool.lqh)
      (go : mustWait tid (s.pool.bkt id) = false) :
      Happens s (.get tid p flags) { s with
        pool := grab tid flags s.pool id
        holds := Function.update s.holds id (tid :: s.holds id) }
  | enter {tid p id : Nat} {flags : PageFlags} {pgp : Pagepool}
      (run : ((getPage (ε := Empty) tid p flags).run s.pool).1 = .ok (.page id) pgp)
      (alive : tid ≠ 0) (free : s.waiting tid = none) (entered : Entered tid s.pool id pgp) :
      Happens s (.get tid p flags) { s with
        pool := pgp
        holds := Function.update s.holds id (tid :: s.holds id) }
  | wake {w : Waiter} {id : Nat} {flags : PageFlags} (waits : s.waiting w.tid = some (id, flags))
      (mem : w ∈ (s.pool.bkt id).wqh) (woken : w.wakeup = true) :
      Happens s (.wake w.tid) {
        pool := ((s.pool.setBkt id (unqueue w.tid flags)).unlink id).link id
        waiting := Function.update s.waiting w.tid none
        holds := Function.update s.holds id (w.tid :: s.holds id) }
  | put {tid id : Nat} {dirty : Bool} (held : tid ∈ s.holds id) (free : s.waiting tid = none) :
      Happens s (.put tid id dirty) { s with
        pool := s.pool.setBkt id (release dirty)
        holds := Function.update s.holds id ((s.holds id).erase tid) }

theorem happens_of_next (h : Chained s.pool) {e : Event} (happens : s.next e = some s') :
    Happens s e s' := by
  cases e with
  | get tid p flags =>
    simp only [Threads.next] at happens
    split at happens
    · cases happens
    rename_i able
    have alive : tid ≠ 0 := fun null => able (.inl null)
    have free : s.waiting tid = none := by
      cases w : s.waiting tid with
      | none => rfl
      | some _ => exact absurd (.inr (by rw [w]; rfl)) able
    cases run : ((getPage (ε := Empty) tid p flags).run s.pool).1 with
    | halt why =>
      rw [run] at happens
      cases happens
    | ok r pgp =>
      rw [run] at happens
      rcases getPage_cases h run with ⟨rfl, rfl⟩ | ⟨id, found, _, wait, rfl, rfl⟩ |
        ⟨id, found, old, go, rfl, rfl⟩ | ⟨id, entered, rfl⟩
      · cases happens
        exact .refused run
      · cases happens
        exact .begin run alive free (h.of_find found).1 wait
      · cases happens
        exact .hit run alive free old found (h.of_find found).1 go
      · cases happens
        exact .enter run alive free entered
  | wake tid =>
    simp only [Threads.next] at happens
    cases waits : s.waiting tid with
    | none =>
      rw [waits] at happens
      cases happens
    | some target =>
      obtain ⟨id, flags⟩ := target
      simp only [waits] at happens
      split at happens
      · rename_i woken
        obtain ⟨w, mem, match'⟩ := List.any_eq_true.mp woken
        simp only [Bool.and_eq_true, beq_iff_eq] at match'
        obtain ⟨rfl, wake⟩ := match'
        simp only [endWait, Prog.run_read_bind] at happens
        -- a waiter that is not the last in line aborts
        split_ifs at happens
        · simp only [Prog.run_modify_bind, Prog.run_pure] at happens
          cases happens
          exact .wake waits mem wake
        · cases happens
      · cases happens
  | put tid id dirty =>
    simp only [Threads.next] at happens
    split at happens
    · rename_i able
      simp only [putPage, Prog.run_read_bind] at happens
      split_ifs at happens
      · simp only [Prog.run_modify] at happens
        cases happens
        exact .put able.1 able.2
      · cases happens
    · cases happens

theorem next_cases (h : Protocol s) {e : Event} (happens : s.next e = some s') : Happens s e s' :=
  happens_of_next h.chained happens

theorem next (h : Protocol s) {e : Event} (flat : s.NotNested e) (happens : s.next e = some s') :
    Protocol s' ∧ ∀ id, s.holds id ≠ [] → s'.holds id ≠ [] →
      (s'.pool.bkt id).page = (s.pool.bkt id).page ∧
        (s'.pool.bkt id).pgno = (s.pool.bkt id).pgno := by
  cases h.next_cases happens with
  | refused => exact ⟨h, fun _ _ _ => ⟨rfl, rfl⟩⟩
  | @begin tid p id flags run alive free mem wait =>
    refine ⟨h.begin alive free mem wait flags, fun j _ _ => ?_⟩
    by_cases same : j = id
    · simp [beginWait, same]
    · simp [beginWait, setBkt_other same]
  | @hit tid p id flags run alive free old found mem go =>
    refine ⟨h.hit alive mem (flat old id found) go flags, fun j _ _ => ?_⟩
    by_cases same : j = id
    · simp only [same, grab, link_bkt, unlink_bkt, setBkt_same, applyFlags, hold]
      split <;> exact ⟨rfl, rfl⟩
    · simp [grab, setBkt_other same]
  | @enter tid p id flags pgp run alive free entered =>
    refine ⟨h.enter alive entered, fun j held _ => ?_⟩
    obtain ⟨mid, b, top, r, rfl, _⟩ := entered.recycled
    have ne : j ≠ id := fun same => held (by rw [same]; exact (h.idle r).1)
    have mem : j ∈ s.pool.lqh := by
      by_contra out
      exact held (h.holds j out)
    have pinned : (s.pool.bkt j).pinned = true := by
      rcases (h.served j mem).pin with ⟨pinned, _⟩ | ⟨_, _, _, none⟩
      · exact pinned
      · exact absurd none held
    simp only [enter_bkt_other ne]
    rcases r.others j ((r.mem j).mpr ⟨mem, ne⟩) with eq | ⟨unpinned, _⟩
    · rw [eq]
      exact ⟨rfl, rfl⟩
    · rw [pinned] at unpinned
      cases unpinned
  | @wake w id flags waits mem woken =>
    refine ⟨(h.finish waits mem woken).2, fun j _ _ => ?_⟩
    by_cases same : j = id
    · simp [same, unqueue, applyFlags]
    · simp [setBkt_other same]
  | @put tid id dirty held free =>
    refine ⟨(h.put held dirty).2, fun j _ _ => ?_⟩
    by_cases same : j = id
    · simp [same, Pagepool.release]
    · simp [setBkt_other same]

theorem still_held (h : Protocol s) {e : Event} (happens : s.next e = some s')
    (held : tid ∈ s.holds id) (other : ∀ dirty, e ≠ .put tid id dirty) : tid ∈ s'.holds id := by
  have more : ∀ i t, tid ∈ Function.update s.holds i (t :: s.holds i) id := by
    intro i t
    by_cases same : id = i
    · subst same
      rw [Function.update_self]
      exact List.mem_cons_of_mem _ held
    · rw [Function.update_of_ne same]
      exact held
  cases h.next_cases happens with
  | refused => exact held
  | begin => exact held
  | hit => exact more _ _
  | enter => exact more _ _
  | wake => exact more _ _
  | @put t i dirty both free =>
    by_cases same : id = i
    · subst same
      have mem : id ∈ s.pool.lqh := by
        by_contra out
        rw [h.holds id out] at held
        cases held
      rcases (h.served id mem).pin with ⟨_, _, _, one⟩ | ⟨_, _, _, none⟩
      · rw [one, List.mem_singleton] at held both
        exact absurd (by rw [held, both]) (other dirty)
      · rw [none] at held
        cases held
    · simp only [Function.update_of_ne same]
      exact held

theorem of_held (h : Protocol s) (held : tid ∈ s.holds id) :
    id ∈ s.pool.lqh ∧ (s.pool.bkt id).pinned = true ∧ s.holds id = [tid] := by
  have mem : id ∈ s.pool.lqh := by
    by_contra out
    rw [h.holds id out] at held
    cases held
  rcases (h.served id mem).pin with ⟨pinned, _, _, one⟩ | ⟨_, _, _, none⟩
  · rw [one, List.mem_singleton] at held
    exact ⟨mem, pinned, by rw [one, held]⟩
  · rw [none] at held
    cases held

theorem in_use (h : Protocol s) (used : s.holds id ≠ [] ∨ ∃ t flags, s.waiting t = some (id, flags)) :
    id ∈ s.pool.lqh ∧ evictable (s.pool.bkt id) = false := by
  rcases used with held | ⟨t, flags, waits⟩
  · obtain ⟨t, held⟩ := List.exists_mem_of_ne_nil _ held
    obtain ⟨mem, pinned, _⟩ := h.of_held held
    exact ⟨mem, by simp [evictable, pinned]⟩
  · have mem := h.waits t id flags waits
    obtain ⟨w, queued, _⟩ := (h.served id mem).queued t flags waits
    have count := (h.served id mem).count
    have some := List.length_pos_of_mem queued
    refine ⟨mem, ?_⟩
    have waiters : (s.pool.bkt id).waiters ≠ 0 := by omega
    simp [evictable, waiters]

theorem pgno_steady (id : Nat) (h : Protocol s) {e : Event} (happens : s.next e = some s')
    (used : s.holds id ≠ [] ∨ ∃ t flags, s.waiting t = some (id, flags)) :
    (s'.pool.bkt id).pgno = (s.pool.bkt id).pgno := by
  cases h.next_cases happens with
  | refused => rfl
  | @begin t p i =>
    by_cases same : id = i
    · simp [beginWait, same]
    · simp [beginWait, setBkt_other same]
  | @hit t p i flags =>
    by_cases same : id = i
    · simp only [same, grab, link_bkt, unlink_bkt, setBkt_same, applyFlags, hold]
      split <;> rfl
    · simp [grab, setBkt_other same]
  | @enter t p i flags pgp run alive free entered =>
    obtain ⟨mid, b, top, r, rfl, _⟩ := entered.recycled
    obtain ⟨mem, kept⟩ := h.in_use used
    have ne : id ≠ i := by
      rintro rfl
      rw [r.idle mem] at kept
      cases kept
    rw [enter_bkt_other ne]
    exact (r.others id ((r.mem id).mpr ⟨mem, ne⟩)).pgno
  | @wake w i flags =>
    by_cases same : id = i
    · simp [same, unqueue, applyFlags]
    · simp [setBkt_other same]
  | @put t i dirty =>
    by_cases same : id = i
    · simp [same, Pagepool.release]
    · simp [setBkt_other same]

theorem store (h : Protocol s) (mem : Nat) (f : Page → Page) :
    Protocol { s with pool := s.pool.setBkt mem fun b => { b with page := f b.page } } where
  chained := h.chained.setBkt (f := fun b => { b with page := f b.page }) rfl
  served := by
    intro id cached
    have old := h.served id cached
    by_cases same : id = mem
    · subst same
      simp only [setBkt_same]
      exact ⟨old.count, old.queued, old.asleep, old.distinct, old.woken, old.alert, old.pin⟩
    · simp only [setBkt_other same]
      exact old
  holds := h.holds
  waits := h.waits
  null := h.null

theorem some_woken (h : Protocol s) {flags : PageFlags} (waits : s.waiting tid = some (id, flags))
    (free : (s.pool.bkt id).pinned = false) : ∃ w flags', w ∈ (s.pool.bkt id).wqh ∧
      w.wakeup = true ∧ s.waiting w.tid = some (id, flags') := by
  have served := h.served id (h.waits _ _ _ waits)
  obtain ⟨v, queued, _⟩ := served.queued tid flags waits
  cases last : (s.pool.bkt id).wqh.getLast? with
  | none =>
    rw [List.getLast?_eq_none_iff.mp last] at queued
    exact absurd queued List.not_mem_nil
  | some w =>
    have mem := List.mem_of_getLast? last
    obtain ⟨flags', waits'⟩ := served.asleep w mem
    exact ⟨w, flags', mem, served.alert free w last, waits'⟩

theorem wake_next (h : Protocol s) {w : Waiter} {flags : PageFlags}
    (waits : s.waiting w.tid = some (id, flags)) (mem : w ∈ (s.pool.bkt id).wqh)
    (woken : w.wakeup = true) : s.next (.wake w.tid) = some {
      pool := ((s.pool.setBkt id (unqueue w.tid flags)).unlink id).link id
      waiting := Function.update s.waiting w.tid none
      holds := Function.update s.holds id (w.tid :: s.holds id) } := by
  have last := (h.finish waits mem woken).1
  have called : ((s.pool.bkt id).wqh.any fun v => v.tid == w.tid && v.wakeup) = true :=
    List.any_eq_true.mpr ⟨w, mem, by simp [woken]⟩
  simp only [Threads.next, waits, called, if_true, endWait, Prog.run_read_bind, if_pos last,
    Prog.run_modify_bind, Prog.run_pure]

theorem put_next (h : Protocol s) (held : tid ∈ s.holds id) (free : s.waiting tid = none)
    (dirty : Bool) : s.next (.put tid id dirty) = some { s with
      pool := s.pool.setBkt id (Pagepool.release dirty)
      holds := Function.update s.holds id ((s.holds id).erase tid) } := by
  have pinned := (h.of_held held).2.1
  simp only [Threads.next, held, free, and_self, if_true, putPage, Prog.run_read_bind, if_pos pinned,
    Prog.run_modify]

theorem reaches {s₀ : Threads} (start : Protocol s₀) (run : s₀.Reaches s) : Protocol s := by
  induction run with
  | start => exact start
  | step _ flat happens ih => exact (ih.next flat happens).1

end Protocol

def Threads.open (pgp : Pagepool) : Threads := ⟨pgp, fun _ => none, fun _ => []⟩

theorem protocol_open {file : Pagefile} {mem : Nat → Bkt} {rdonly : Bool} {maxcache : Nat}
    {pgin : Nat → Page → Option Page} {pgout : Nat → Page → Page} :
    Protocol (Threads.open (openFd file mem rdonly maxcache pgin pgout)) where
  chained := linked_openFd.toChained
  served _ mem := absurd mem List.not_mem_nil
  holds _ _ := rfl
  waits _ _ _ eq := by cases eq
  null := rfl

/-- Without nested gets the pin agrees with the count: in every state a run reaches, a cached
page is pinned exactly while somebody holds it. A held page is cached, is not up for
eviction, is held once, and its release does not abort; and no event changes its bytes or
its number while it stays held. -/
theorem pinned_iff_held {file : Pagefile} {mem : Nat → Bkt} {rdonly : Bool} {maxcache : Nat}
    {pgin : Nat → Page → Option Page} {pgout : Nat → Page → Page} {s : Threads}
    (run : (Threads.open (openFd file mem rdonly maxcache pgin pgout)).Reaches s) :
    (∀ id ∈ s.pool.lqh, (s.pool.bkt id).pinned = true ↔ 0 < (s.pool.bkt id).ref) ∧
    (∀ tid id, tid ∈ s.holds id →
      id ∈ s.pool.lqh ∧ evictable (s.pool.bkt id) = false ∧ s.holds id = [tid] ∧
        ∀ dirty, ∃ pgp', ((putPage (ε := Empty) id dirty).run s.pool).1 = .ok () pgp') ∧
    ∀ e s', s.NotNested e → s.next e = some s' →
      ∀ tid id, tid ∈ s.holds id → (∀ dirty, e ≠ .put tid id dirty) →
        s'.holds id = [tid] ∧ (s'.pool.bkt id).page = (s.pool.bkt id).page ∧
          (s'.pool.bkt id).pgno = (s.pool.bkt id).pgno := by
  have h := protocol_open.reaches run
  refine ⟨fun id mem => ?_, fun tid id held => ?_, fun e s' flat happens tid id held other => ?_⟩
  · rcases (h.served id mem).pin with ⟨pinned, ref, _⟩ | ⟨pinned, ref, _⟩
    · simp [pinned, ref]
    · simp [pinned, ref]
  · obtain ⟨mem, pinned, one⟩ := h.of_held held
    refine ⟨mem, by simp [evictable, pinned], one, fun dirty => ?_⟩
    exact ⟨s.pool.setBkt id (release dirty), by simp [putPage, pinned]⟩
  · have held' := h.still_held happens held other
    obtain ⟨h', same⟩ := h.next flat happens
    exact ⟨(h'.of_held held').2.2, same id (List.ne_nil_of_mem held) (List.ne_nil_of_mem held')⟩

section Nested

attribute [local semireducible] hashKey

def noPages : Threads :=
  .open (openFd ⟨0, fun _ _ => 0⟩ (fun _ => ⟨fun _ => 0, 0, 0, 0, false, false, false, false, 0, []⟩)
    false 0 (fun _ c => some c) (fun _ c => c))

theorem pinned_iff_held_three : ∃ s₁ s₂ s₃ s₄ s₅, noPages.next (.get 1 5 {}) = some s₁ ∧
    s₁.next (.get 2 5 {}) = some s₂ ∧ s₂.next (.get 3 6 {}) = some s₃ ∧ s₃.next (.put 1 0 true) = some s₄ ∧
    s₄.next (.wake 2) = some s₅ ∧ s₅.pool.lqh = [1, 0] ∧ s₅.holds 0 = [2] ∧ s₅.holds 1 = [3] ∧
    ∀ id ∈ s₅.pool.lqh, (s₅.pool.bkt id).pinned = true ∧ 0 < (s₅.pool.bkt id).ref := by
  refine ⟨_, _, _, _, _, rfl, rfl, rfl, rfl, rfl, rfl, rfl, rfl, ?_⟩
  have first : noPages.Reaches _ := .step .start (e := .get 1 5 {}) (fun _ _ found => by cases found) rfl
  have second : noPages.Reaches _ := .step first (e := .get 2 5 {})
    (fun _ id found => by cases found; exact (by decide : 2 ∉ [1])) rfl
  have third : noPages.Reaches _ := .step second (e := .get 3 6 {}) (fun _ _ found => by cases found) rfl
  have fourth : noPages.Reaches _ := .step third (e := .put 1 0 true) trivial rfl
  have run : noPages.Reaches _ := .step fourth (e := .wake 2) trivial rfl
  intro id mem
  have pinned := (pinned_iff_held run).1 id mem
  have two : id = 1 ∨ id = 0 := by simpa using (show id ∈ [1, 0] from mem)
  rcases two with rfl | rfl
  · exact ⟨rfl, pinned.mp rfl⟩
  · exact ⟨rfl, pinned.mp rfl⟩

/-- A thread gets a page it holds and releases it once: the page is no longer pinned and up
for eviction while the thread still holds it, and its second release aborts. -/
theorem nested_get_unpins : ∃ s₁ s₂ s₃,
    noPages.next (.get 1 5 {}) = some s₁ ∧ s₁.next (.get 1 5 {}) = some s₂ ∧
    s₂.next (.put 1 0 false) = some s₃ ∧ s₃.holds 0 = [1] ∧ 0 ∈ s₃.pool.lqh ∧
    (s₃.pool.bkt 0).ref = 1 ∧ (s₃.pool.bkt 0).pinned = false ∧
    evictable (s₃.pool.bkt 0) = true ∧
    ((putPage (ε := Empty) 0 false).run s₃.pool).1 = .halt .abort :=
  ⟨_, _, _, rfl, rfl, rfl, rfl, List.mem_singleton.mpr rfl, rfl, rfl, rfl, rfl⟩

end Nested

end FileHash.Pagepool
