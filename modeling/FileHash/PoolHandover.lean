import FileHash.PoolThreads

/-! How a page goes from one thread to the next. To the gets, releases and wake-ups of the
threads come returns from the wait without a wake-up, flushing by whoever syncs, and the
deletion of a page by the thread that holds it. Two logs keep, for each cache entry, who
asked for it and who was given it. -/
namespace FileHash.Pagepool

open Lib (Prog)

structure Handover where
  threads : Threads
  asked : Nat → List Nat
  given : Nat → List Nat

inductive Step where
  | call (e : Event)
  | spurious (tid : Nat)
  | sync
  | delete (tid mem : Nat)

namespace Handover

def log (l : Nat → List Nat) (id tid : Nat) : Nat → List Nat := Function.update l id (l id ++ [tid])

def note (q : Handover) (s' : Threads) : Event → Handover
  | .get tid pageno flags =>
    match ((getPage (ε := Empty) tid pageno flags).run q.threads.pool).1 with
    | .ok (.page id) _ => ⟨s', log q.asked id tid, log q.given id tid⟩
    | .ok (.wait id) _ => ⟨s', log q.asked id tid, q.given⟩
    | _ => { q with threads := s' }
  | .wake tid =>
    match q.threads.waiting tid with
    | some (id, _) => ⟨s', q.asked, log q.given id tid⟩
    | none => { q with threads := s' }
  | .put _ _ _ => { q with threads := s' }

def next (q : Handover) : Step → Option Handover
  | .call e => (q.threads.next e).map fun s' => q.note s' e
  | .spurious tid =>
    match q.threads.waiting tid with
    | none => none
    | some (mem, _) =>
      -- the loop around the wait looks at the flag and goes back to wait
      if (q.threads.pool.bkt mem).wqh.any fun w => w.tid == tid && w.wakeup then none else some q
  | .sync => some { q with threads := { q.threads with pool := q.threads.pool.sync } }
  | .delete tid mem =>
    if tid ∈ q.threads.holds mem ∧ q.threads.waiting tid = none then
      match ((Pagepool.delete (ε := Empty) mem).run q.threads.pool).1 with
      | .ok true pgp => some { q with threads := { q.threads with
          pool := pgp
          holds := Function.update q.threads.holds mem ((q.threads.holds mem).erase tid) } }
      | .ok false _ => some q
      | .halt _ => none
    else none

def NotNested (q : Handover) : Step → Prop
  | .call e => q.threads.NotNested e
  | _ => True

/-- Runs in which no thread gets a page it holds. -/
inductive Reaches (q₀ : Handover) : Handover → Prop
  | start : Reaches q₀ q₀
  | step {q q' : Handover} {e : Step} (run : Reaches q₀ q) (flat : q.NotNested e)
      (happens : q.next e = some q') : Reaches q₀ q'

/-- Somebody holds the entry or is in line for it. -/
def SpokenFor (q : Handover) (id : Nat) : Prop :=
  q.threads.holds id ≠ [] ∨ ∃ tid flags, q.threads.waiting tid = some (id, flags)

end Handover

def Handover.open (pgp : Pagepool) : Handover := ⟨Threads.open pgp, fun _ => [], fun _ => []⟩

/-- The protocol, and that the page is given in the order it was asked for: who has asked and
was not given it stands in the queue. -/
structure Fair (q : Handover) : Prop where
  protocol : Protocol q.threads
  order : ∀ id ∈ q.threads.pool.lqh, q.asked id =
    q.given id ++ ((q.threads.pool.bkt id).wqh.map Waiter.tid).reverse
  gone : ∀ id, id ∉ q.threads.pool.lqh → q.asked id = q.given id

variable {tid p id : Nat} {pgp pgp' mid : Pagepool} {s s' : Threads} {q q' : Handover}

theorem delete_cases (run : ((delete (ε := Empty) id).run pgp).1 = .ok true pgp') :
    (pgp.bkt id).waiters = 0 ∧
      pgp' = (if (pgp.bkt id).dirty then pgp.write id else pgp).leave id := by
  simp only [delete, Prog.run_read_bind] at run
  split at run
  · split at run
    · split at run
      · cases run
      · rename_i none
        refine ⟨by omega, ?_⟩
        by_cases dirty : (pgp.bkt id).dirty
        · simp only [if_pos dirty, Prog.run_modify_bind, Prog.run_pure, Lib.Outcome.ok.injEq,
            true_and] at run ⊢
          exact run.symm
        · simp only [if_neg dirty, Prog.run_modify_bind, Prog.run_pure,
            Lib.Outcome.ok.injEq, true_and] at run ⊢
          exact run.symm
    · cases run
  · cases run

theorem Chained.write (h : Chained pgp) (id : Nat) : Chained (pgp.write id) :=
  h.congr rfl rfl rfl fun i _ => by
    by_cases same : i = id
    · rw [same, write_bkt_same]
    · rw [write_bkt_other same]

theorem Chained.leave (h : Chained pgp) (id : Nat) : Chained (pgp.leave id) :=
  have gone := h.unlink id
  ⟨gone.nodup, gone.chain, gone.chainNodup, gone.below⟩

namespace Protocol

theorem sync (h : Protocol s) : Protocol { s with pool := s.pool.sync } where
  chained := h.chained.syncI 0
  served id mem := by
    have old : id ∈ s.pool.lqh := by rwa [Pagepool.sync, syncI, writeList_lqh] at mem
    exact (h.served id old).written (written_writeList syncI_free id)
  holds id out := h.holds id (by rwa [Pagepool.sync, syncI, writeList_lqh] at out)
  waits tid id flags eq := by
    rw [Pagepool.sync, syncI, writeList_lqh]
    exact h.waits tid id flags eq
  null := h.null

theorem mem_deleted (h : Chained pgp) {j : Nat} :
    j ∈ ((if (pgp.bkt id).dirty then pgp.write id else pgp).leave id).lqh ↔ j ∈ pgp.lqh ∧ j ≠ id := by
  have lqh : ((if (pgp.bkt id).dirty then pgp.write id else pgp).leave id).lqh = pgp.lqh.erase id := by
    split <;> rfl
  rw [lqh, h.nodup.mem_erase_iff, and_comm]

theorem bkt_deleted {j : Nat} (ne : j ≠ id) :
    ((if (pgp.bkt id).dirty then pgp.write id else pgp).leave id).bkt j = pgp.bkt j := by
  split
  · exact write_bkt_other ne
  · rfl

theorem delete (h : Protocol s) (held : tid ∈ s.holds id) (none : (s.pool.bkt id).waiters = 0) :
    (s.holds id = [tid] ∧ ∀ t f, s.waiting t ≠ some (id, f)) ∧
    Protocol { s with
      pool := (if (s.pool.bkt id).dirty then s.pool.write id else s.pool).leave id
      holds := Function.update s.holds id ((s.holds id).erase tid) } := by
  obtain ⟨mem, _, one⟩ := h.of_held held
  have queue : (s.pool.bkt id).wqh = [] := by
    rw [← List.length_eq_zero_iff, ← (h.served id mem).count]
    exact none
  have nobody : ∀ t f, s.waiting t ≠ some (id, f) := fun t f eq => by
    obtain ⟨w, memw, _⟩ := (h.served id mem).queued t f eq
    rw [queue] at memw
    cases memw
  refine ⟨⟨one, nobody⟩, ?_⟩
  refine { chained := ?_, served := fun j memj => ?_, holds := fun j out => ?_,
           waits := fun t j f eq => ?_, null := h.null }
  · simp only
    split
    · exact (h.chained.write id).leave id
    · exact h.chained.leave id
  · obtain ⟨memj, ne⟩ := (mem_deleted h.chained).mp memj
    simp only [bkt_deleted ne, Function.update_of_ne ne]
    exact h.served j memj
  · by_cases same : j = id
    · simp only [same, Function.update_self, one, List.erase_cons_head]
    · simp only [Function.update_of_ne same]
      exact h.holds j fun memj => out ((mem_deleted h.chained).mpr ⟨memj, same⟩)
  · have ne : j ≠ id := fun e => nobody t f (e ▸ eq)
    exact (mem_deleted h.chained).mpr ⟨h.waits t j f eq, ne⟩

end Protocol

namespace Fair

theorem elsewhere (h : Fair q) (asked given : Nat → List Nat) (id : Nat) (pool : Pagepool)
    (asks : ∀ j, j ≠ id → asked j = q.asked j) (gives : ∀ j, j ≠ id → given j = q.given j)
    (same : ∀ j, j ∈ pool.lqh ↔ j ∈ q.threads.pool.lqh)
    (queue : ∀ j, j ≠ id → (pool.bkt j).wqh.map Waiter.tid = (q.threads.pool.bkt j).wqh.map Waiter.tid)
    (here : id ∈ q.threads.pool.lqh)
    (order : asked id = given id ++ ((pool.bkt id).wqh.map Waiter.tid).reverse) :
    (∀ j ∈ pool.lqh, asked j = given j ++ ((pool.bkt j).wqh.map Waiter.tid).reverse) ∧
      ∀ j, j ∉ pool.lqh → asked j = given j := by
  refine ⟨fun j mem => ?_, fun j out => ?_⟩
  · by_cases eq : j = id
    · rw [eq, order]
    · rw [asks j eq, gives j eq, queue j eq]
      exact h.order j ((same j).mp mem)
  · have ne : j ≠ id := fun eq => out ((same j).mpr (eq ▸ here))
    rw [asks j ne, gives j ne]
    exact h.gone j fun mem => out ((same j).mpr mem)

theorem call (h : Fair q) {e : Event} (flat : q.threads.NotNested e)
    (happens : q.threads.next e = some s') : Fair (q.note s' e) := by
  have protocol := (h.protocol.next flat happens).1
  have unlogged : ∀ l : Nat → List Nat, ∀ i t j, j ≠ i → Handover.log l i t j = l j := fun l i t j ne =>
    Function.update_of_ne ne _ _
  cases h.protocol.next_cases happens with
  | refused run =>
    simp only [Handover.note, run]
    exact ⟨protocol, h.order, h.gone⟩
  | @begin tid p id flags run alive free mem wait =>
    simp only [Handover.note, run]
    obtain ⟨order, gone⟩ := h.elsewhere (Handover.log q.asked id tid) q.given id
      (q.threads.pool.beginWait tid id) (unlogged _ _ _) (fun _ _ => rfl) (fun _ => Iff.rfl)
      (fun j ne => by simp [beginWait, setBkt_other ne]) mem (by
        simp only [Handover.log, Function.update_self, beginWait, setBkt_same, List.map_cons,
          List.reverse_cons, ← List.append_assoc]
        rw [h.order id mem])
    exact ⟨protocol, order, gone⟩
  | @hit tid p id flags run alive free old found mem go =>
    simp only [Handover.note, run]
    have queue := ((h.protocol.served id mem).unqueued alive (flat old id found) go).2.2
    have links : (grab tid flags q.threads.pool id).bkt id =
        applyFlags flags (hold tid (q.threads.pool.bkt id)) := by simp [grab]
    have kept : (applyFlags flags (hold tid (q.threads.pool.bkt id))).wqh =
        (q.threads.pool.bkt id).wqh := by
      simp only [applyFlags, hold]
      split <;> rfl
    have number : (applyFlags flags (hold tid (q.threads.pool.bkt id))).pgno =
        (q.threads.pool.bkt id).pgno := by
      simp only [applyFlags, hold]
      split <;> rfl
    have same : ∀ j, j ∈ (grab tid flags q.threads.pool id).lqh ↔ j ∈ q.threads.pool.lqh := fun j =>
      mem_requeue (h.protocol.chained.setBkt (f := fun b => applyFlags flags (hold tid b)) number) mem
    obtain ⟨order, gone⟩ := h.elsewhere (Handover.log q.asked id tid)
      (Handover.log q.given id tid) id (grab tid flags q.threads.pool id)
      (unlogged _ _ _) (unlogged _ _ _) same
      (fun j ne => by simp [grab, setBkt_other ne]) mem (by
        have before := h.order id mem
        rw [queue] at before
        simp only [Handover.log, Function.update_self, links, kept, queue, before]
        simp)
    exact ⟨protocol, order, gone⟩
  | @enter tid p id flags pgp run alive free entered =>
    simp only [Handover.note, run]
    obtain ⟨mid, b, top, r, rfl, _, _, _, _, wqh⟩ := entered.recycled
    obtain ⟨_, _, queue⟩ := h.protocol.idle r
    have before : q.asked id = q.given id := by
      by_cases mem : id ∈ q.threads.pool.lqh
      · have idle := r.idle mem
        simp only [evictable, Bool.and_eq_true, beq_iff_eq] at idle
        have empty : (q.threads.pool.bkt id).wqh = [] := by
          rw [← List.length_eq_zero_iff, ← (h.protocol.served id mem).count]
          exact idle.2
        have := h.order id mem
        rwa [empty, List.map_nil, List.reverse_nil, List.append_nil] at this
      · exact h.gone id mem
    refine ⟨protocol, fun j mem => ?_, fun j out => ?_⟩
    · by_cases eq : j = id
      · simp only [eq, Handover.log, Function.update_self, before, enter_bkt_same, wqh, queue]
        simp
      · have memMid := (mem_enter.mp mem).resolve_right eq
        simp only [unlogged _ _ _ _ eq, enter_bkt_other eq]
        have same : (mid.bkt j).wqh = (q.threads.pool.bkt j).wqh := by
          rcases r.others j memMid with eq | ⟨_, eq⟩
          · rw [eq]
          · rw [eq]
        rw [same]
        exact h.order j ((r.mem j).mp memMid).1
    · have ne : j ≠ id := fun eq => out (mem_enter.mpr (.inr eq))
      simp only [unlogged _ _ _ _ ne]
      exact h.gone j fun mem => out (mem_enter.mpr (.inl ((r.mem j).mpr ⟨mem, ne⟩)))
  | @wake w id flags waits mem woken =>
    simp only [Handover.note, waits]
    have cached := h.protocol.waits _ _ _ waits
    have last := ((h.protocol.served id cached).woken w mem woken).2
    have split : (q.threads.pool.bkt id).wqh = (q.threads.pool.bkt id).wqh.dropLast ++ [w] :=
      (List.dropLast_append_getLast? w last).symm
    have same : ∀ j, j ∈ (((q.threads.pool.setBkt id (unqueue w.tid flags)).unlink id).link id).lqh ↔
        j ∈ q.threads.pool.lqh := fun j => mem_requeue (h.protocol.chained.setBkt rfl) cached
    obtain ⟨order, gone⟩ := h.elsewhere q.asked (Handover.log q.given id w.tid) id
      (((q.threads.pool.setBkt id (unqueue w.tid flags)).unlink id).link id)
      (fun _ _ => rfl) (unlogged _ _ _) same (fun j ne => by simp [setBkt_other ne]) cached (by
        have before := h.order id cached
        rw [split, List.map_append, List.reverse_append] at before
        simp only [Handover.log, Function.update_self, link_bkt, unlink_bkt, setBkt_same, unqueue,
          applyFlags, before]
        simp)
    exact ⟨protocol, order, gone⟩
  | @put tid id dirty held free =>
    simp only [Handover.note]
    have mem := (h.protocol.of_held held).1
    have tids : (Pagepool.release dirty (q.threads.pool.bkt id)).wqh.map Waiter.tid =
        (q.threads.pool.bkt id).wqh.map Waiter.tid := by
      simp only [Pagepool.release]
      split
      · exact map_wakeLast _
      · rfl
    obtain ⟨order, gone⟩ := h.elsewhere q.asked q.given id
      (q.threads.pool.setBkt id (Pagepool.release dirty)) (fun _ _ => rfl) (fun _ _ => rfl)
      (fun _ => Iff.rfl) (fun j ne => by simp [setBkt_other ne]) mem (by
        rw [setBkt_same, tids]
        exact h.order id mem)
    exact ⟨protocol, order, gone⟩

theorem sync (h : Fair q) :
    Fair { q with threads := { q.threads with pool := q.threads.pool.sync } } := by
  have lqh : q.threads.pool.sync.lqh = q.threads.pool.lqh := writeList_lqh _
  refine ⟨h.protocol.sync, fun j mem => ?_, fun j out => h.gone j (by rwa [lqh] at out)⟩
  rw [lqh] at mem
  have same : (q.threads.pool.sync.bkt j).wqh = (q.threads.pool.bkt j).wqh := by
    have written : Written (q.threads.pool.bkt j) (q.threads.pool.sync.bkt j) :=
      written_writeList syncI_free j
    rcases written with eq | ⟨_, eq⟩
    · rw [eq]
    · rw [eq]
  simp only [same]
  exact h.order j mem

theorem delete (h : Fair q) (held : tid ∈ q.threads.holds id)
    (none : (q.threads.pool.bkt id).waiters = 0) :
    Fair { q with threads := { q.threads with
      pool := (if (q.threads.pool.bkt id).dirty then q.threads.pool.write id else q.threads.pool).leave id
      holds := Function.update q.threads.holds id ((q.threads.holds id).erase tid) } } := by
  have mem := (h.protocol.of_held held).1
  have queue : (q.threads.pool.bkt id).wqh = [] := by
    rw [← List.length_eq_zero_iff, ← (h.protocol.served id mem).count]
    exact none
  refine ⟨(h.protocol.delete held none).2, fun j memj => ?_, fun j out => ?_⟩
  · obtain ⟨memj, ne⟩ := (Protocol.mem_deleted h.protocol.chained).mp memj
    simp only [Protocol.bkt_deleted ne]
    exact h.order j memj
  · by_cases same : j = id
    · have := h.order id mem
      rw [queue, List.map_nil, List.reverse_nil, List.append_nil] at this
      rw [same]
      exact this
    · exact h.gone j fun memj => out ((Protocol.mem_deleted h.protocol.chained).mpr ⟨memj, same⟩)

theorem next (h : Fair q) {e : Step} (flat : q.NotNested e) (happens : q.next e = some q') : Fair q' := by
  cases e with
  | call e =>
    simp only [Handover.next, Option.map_eq_some_iff] at happens
    obtain ⟨s', happens, rfl⟩ := happens
    exact h.call flat happens
  | spurious tid =>
    simp only [Handover.next] at happens
    split at happens
    · cases happens
    · split at happens
      · cases happens
      · cases happens
        exact h
  | sync =>
    cases happens
    exact h.sync
  | delete tid mem =>
    simp only [Handover.next] at happens
    split at happens
    · rename_i able
      split at happens
      · rename_i pgp run
        cases happens
        obtain ⟨none, rfl⟩ := delete_cases run
        exact h.delete able.1 none
      · cases happens
        exact h
      · cases happens
    · cases happens

theorem reaches {q₀ : Handover} (start : Fair q₀) (run : q₀.Reaches q) : Fair q := by
  induction run with
  | start => exact start
  | step _ flat happens ih => exact ih.next flat happens

end Fair

theorem fair_open {file : Pagefile} {mem : Nat → Bkt} {rdonly : Bool} {maxcache : Nat}
    {pgin : Nat → Page → Option Page} {pgout : Nat → Page → Page} :
    Fair (Handover.open (openFd file mem rdonly maxcache pgin pgout)) where
  protocol := protocol_open
  order _ mem := absurd mem List.not_mem_nil
  gone _ _ := rfl

theorem Fair.stays (h : Fair q) {e : Step} (happens : q.next e = some q') (spoken : q.SpokenFor id)
    (other : ∀ tid, e ≠ .delete tid id) :
    id ∈ q'.threads.pool.lqh ∧ (q'.threads.pool.bkt id).pgno = (q.threads.pool.bkt id).pgno := by
  have cached : id ∈ q.threads.pool.lqh := by
    rcases spoken with held | ⟨tid, flags, waits⟩
    · by_contra out
      exact held (h.protocol.holds id out)
    · exact h.protocol.waits tid id flags waits
  have requeued : ∀ (i : Nat) (f : Bkt → Bkt), (f (q.threads.pool.bkt i)).pgno = (q.threads.pool.bkt i).pgno →
      i ∈ q.threads.pool.lqh → id ∈ (((q.threads.pool.setBkt i f).unlink i).link i).lqh ∧
        ((((q.threads.pool.setBkt i f).unlink i).link i).bkt id).pgno = (q.threads.pool.bkt id).pgno :=
    fun i f keep mem => by
      refine ⟨(mem_requeue (h.protocol.chained.setBkt keep) mem).mpr cached, ?_⟩
      rw [link_bkt, unlink_bkt]
      exact setBkt_pgno keep id
  cases e with
  | call e =>
    simp only [Handover.next, Option.map_eq_some_iff] at happens
    obtain ⟨s', happens, rfl⟩ := happens
    have threads : (q.note s' e).threads = s' := by
      cases e <;> simp only [Handover.note] <;> (try split) <;> rfl
    rw [threads]
    cases h.protocol.next_cases happens with
    | refused => exact ⟨cached, rfl⟩
    | begin =>
      refine ⟨cached, ?_⟩
      simp only [beginWait]
      exact setBkt_pgno rfl id
    | @hit tid p i flags run alive free old found mem go =>
      refine requeued i (fun b => applyFlags flags (hold tid b)) ?_ mem
      simp only [applyFlags, hold]
      split <;> rfl
    | @enter tid p i flags pgp run alive free entered =>
      obtain ⟨mid, b, top, r, rfl, _⟩ := entered.recycled
      obtain ⟨unheld, nobody, _⟩ := h.protocol.idle r
      have ne : id ≠ i := by
        rintro rfl
        rcases spoken with held | ⟨t, f, waits⟩
        · exact held unheld
        · exact nobody t f waits
      have mem : id ∈ mid.lqh := (r.mem id).mpr ⟨cached, ne⟩
      refine ⟨mem_enter.mpr (.inl mem), ?_⟩
      simp only [enter_bkt_other ne]
      exact (r.others id mem).pgno
    | @wake w i flags waits mem woken =>
      exact requeued i (unqueue w.tid flags) rfl (h.protocol.waits _ _ _ waits)
    | put => exact ⟨cached, setBkt_pgno rfl id⟩
  | spurious tid =>
    simp only [Handover.next] at happens
    split at happens
    · cases happens
    · split at happens
      · cases happens
      · cases happens
        exact ⟨cached, rfl⟩
  | sync =>
    cases happens
    refine ⟨by simpa only [Pagepool.sync, syncI, writeList_lqh] using cached, ?_⟩
    exact (written_writeList syncI_free id).pgno
  | delete tid mem =>
    simp only [Handover.next] at happens
    split at happens
    · split at happens
      · rename_i pgp run
        cases happens
        obtain ⟨_, rfl⟩ := delete_cases run
        have ne : id ≠ mem := fun same => other tid (same ▸ rfl)
        refine ⟨(Protocol.mem_deleted h.protocol.chained).mpr ⟨cached, ne⟩, ?_⟩
        simp only [Protocol.bkt_deleted ne]
      · cases happens
        exact ⟨cached, rfl⟩
      · cases happens
    · cases happens

theorem Fair.deleted (h : Fair q) (happens : q.next (.delete tid id) = some q')
    (out : id ∉ q'.threads.pool.lqh) :
    q.threads.holds id = [tid] ∧ ∀ t f, q.threads.waiting t ≠ some (id, f) := by
  simp only [Handover.next] at happens
  split at happens
  · rename_i able
    split at happens
    · rename_i pgp run
      cases happens
      exact (h.protocol.delete able.1 (delete_cases run).1).1
    · cases happens
      exact absurd (h.protocol.of_held able.1).1 out
    · cases happens
  · cases happens

/-- The hand-over of pages, in every state a run reaches. A cached page has at most one holder,
its count of waiters is the length of its queue, and its logs say that it is given in the
order it was asked for. While it is held nobody in line has been woken; when it is free the
last in line has, and nobody else. A woken thread finds itself last in line and gets the
page. A page somebody holds or awaits stays in the cache. -/
theorem page_handover {file : Pagefile} {mem : Nat → Bkt} {rdonly : Bool} {maxcache : Nat}
    {pgin : Nat → Page → Option Page} {pgout : Nat → Page → Page} {q : Handover}
    (run : (Handover.open (openFd file mem rdonly maxcache pgin pgout)).Reaches q) :
    (∀ id ∈ q.threads.pool.lqh,
      (q.threads.holds id).length ≤ 1 ∧
      (q.threads.pool.bkt id).waiters = (q.threads.pool.bkt id).wqh.length ∧
      (q.threads.holds id = [] → ∀ w ∈ (q.threads.pool.bkt id).wqh,
        w.wakeup = true ↔ (q.threads.pool.bkt id).wqh.getLast? = some w) ∧
      (q.threads.holds id ≠ [] → ∀ w ∈ (q.threads.pool.bkt id).wqh, w.wakeup = false) ∧
      q.asked id = q.given id ++ ((q.threads.pool.bkt id).wqh.map Waiter.tid).reverse) ∧
    (∀ w id flags, q.threads.waiting w.tid = some (id, flags) → w ∈ (q.threads.pool.bkt id).wqh →
      w.wakeup = true → (q.threads.pool.bkt id).wqh.getLast? = some w ∧
        ∃ pgp', ((endWait (ε := Empty) w.tid id flags).run q.threads.pool).1 = .ok id pgp') ∧
    ∀ e q', q.next e = some q' → ∀ id,
      (q.SpokenFor id → (∀ tid, e ≠ .delete tid id) → id ∈ q'.threads.pool.lqh ∧
        (q'.threads.pool.bkt id).pgno = (q.threads.pool.bkt id).pgno) ∧
      (∀ tid, e = .delete tid id → id ∉ q'.threads.pool.lqh →
        q.threads.holds id = [tid] ∧ ∀ t f, q.threads.waiting t ≠ some (id, f)) := by
  have h := fair_open.reaches run
  refine ⟨fun id mem => ?_, fun w id flags waits mem woken => ?_, fun e q' happens id => ⟨?_, ?_⟩⟩
  · have served := h.protocol.served id mem
    refine ⟨?_, served.count, fun free w memw => ?_, fun held w memw => ?_, h.order id mem⟩
    · rcases served.pin with ⟨_, _, _, one⟩ | ⟨_, _, _, none⟩
      · rw [one, List.length_singleton]
      · rw [none]
        exact Nat.zero_le 1
    · have unpinned : (q.threads.pool.bkt id).pinned = false := by
        rcases served.pin with ⟨_, _, _, one⟩ | ⟨unpinned, _⟩
        · rw [free] at one
          cases one
        · exact unpinned
      exact ⟨fun woken => (served.woken w memw woken).2, served.alert unpinned w⟩
    · have pinned : (q.threads.pool.bkt id).pinned = true := by
        rcases served.pin with ⟨pinned, _⟩ | ⟨_, _, _, none⟩
        · exact pinned
        · exact absurd none held
      by_contra woken
      have := (served.woken w memw (by simpa using woken)).1
      rw [pinned] at this
      cases this
  · have last := ((h.protocol.served id (h.protocol.waits _ _ _ waits)).woken w mem woken).2
    refine ⟨last, ((q.threads.pool.setBkt id (unqueue w.tid flags)).unlink id).link id, ?_⟩
    have own : (q.threads.pool.bkt id).wqh.getLast?.map Waiter.tid = some w.tid := by
      rw [last]
      rfl
    simp only [endWait, Prog.run_read_bind, if_pos own, Prog.run_modify_bind, Prog.run_pure]
  · exact h.stays happens
  · rintro tid rfl out
    exact h.deleted happens out

section Handed

attribute [local semireducible] hashKey

theorem page_handover_waiting : ∃ q : Handover, q.asked 0 = [1, 2] ∧ q.given 0 = [1] ∧
    (q.threads.pool.bkt 0).waiters = 1 ∧
    q.asked 0 = q.given 0 ++ ((q.threads.pool.bkt 0).wqh.map Waiter.tid).reverse := by
  have flat : (Handover.open noPages.pool).NotNested (.call (.get 1 5 {})) := fun _ _ found => by
    cases found
  have one : (Handover.open noPages.pool).Reaches _ := .step .start flat rfl
  have two : (Handover.open noPages.pool).Reaches _ :=
    .step (e := .call (.get 2 5 {})) one (fun _ id found held => by
      cases found
      exact absurd held (by decide)) rfl
  refine ⟨_, ?_, ?_, ?_, ((page_handover two).1 0 (List.mem_singleton.mpr rfl)).2.2.2.2⟩
  · rfl
  · rfl
  · rfl

end Handed

end FileHash.Pagepool
