import Mathlib.Data.List.Nodup
import FileHash.PoolThreads

/-! The signal of a release is sent once the lock of the pool has been given up. Meanwhile
the woken thread may come back from its wait by itself, see that it may go, and leave with
its record in the queue freed. -/
namespace FileHash.Pagepool

open Lib (Prog)

/-- A waiter's record: the entry it waits for, its thread, and the how many'th wait of that
thread it was made for. -/
structure Sleeper where
  mem : Nat
  tid : Nat
  serial : Nat

/-- The threads, the signals that releases have yet to send, how many waits each thread has
begun, and whether the last of them was signalled. -/
structure Signals where
  threads : Threads
  serial : Nat → Nat
  signalled : Nat → Bool
  pending : Nat → Option Sleeper

namespace Signals

inductive Step where
  | critical (e : Event)
  | signal (tid : Nat)

def sleeper (s : Signals) (mem : Nat) : Option Sleeper :=
  let b := s.threads.pool.bkt mem
  if 0 < b.waiters then b.wqh.getLast?.map fun w => ⟨mem, w.tid, s.serial w.tid⟩ else none

def next (s : Signals) : Step → Option Signals
  | .critical e =>
    if (s.pending e.tid).isSome then none
    else
      match s.threads.next e with
      | none => none
      | some t =>
        match e with
        | .get tid _ _ =>
          if (t.waiting tid).isSome then
            some { s with
              threads := t
              serial := Function.update s.serial tid (s.serial tid + 1)
              signalled := Function.update s.signalled tid false }
          else some { s with threads := t }
        | .wake _ => some { s with threads := t }
        | .put tid mem _ =>
          some { s with threads := t, pending := Function.update s.pending tid (s.sleeper mem) }
  | .signal tid =>
    match s.pending tid with
    | none => none
    | some r =>
      some { s with
        signalled :=
          if s.serial r.tid = r.serial then Function.update s.signalled r.tid true else s.signalled
        pending := Function.update s.pending tid none }

def NotSpurious (s : Signals) : Step → Prop
  | .critical (.wake tid) => s.signalled tid = true
  | _ => True

/-- Runs in which no wait comes to its end by itself. -/
inductive Reaches (s₀ : Signals) : Signals → Prop
  | start : Reaches s₀ s₀
  | step {s s' : Signals} {e : Step} (run : Reaches s₀ s) (awaited : s.NotSpurious e)
      (happens : s.next e = some s') : Reaches s₀ s'

def Present (s : Signals) (r : Sleeper) : Prop :=
  s.serial r.tid = r.serial ∧ ∃ w ∈ (s.threads.pool.bkt r.mem).wqh, w.tid = r.tid

end Signals

def Signals.open (pgp : Pagepool) : Signals :=
  ⟨.open pgp, fun _ => 0, fun _ => false, fun _ => none⟩

def Threads.InLine (s : Threads) (id : Nat) (w : Waiter) : Prop :=
  id ∈ s.pool.lqh ∧ w ∈ (s.pool.bkt id).wqh

structure Queues (s : Threads) : Prop where
  chained : s.pool.Chained
  queued : ∀ id ∈ s.pool.lqh, Queued s.waiting id (s.pool.bkt id)
  waits : ∀ tid id flags, s.waiting tid = some (id, flags) → id ∈ s.pool.lqh
  holds : ∀ tid id, tid ∈ s.holds id → id ∈ s.pool.lqh

namespace Queues

variable {tid p id : Nat} {pgp : Pagepool} {s s' : Threads} {flags : PageFlags}

theorem unique (h : Queues s) {i j : Nat} {v w : Waiter} (first : s.InLine i v)
    (second : s.InLine j w) (same : v.tid = w.tid) : i = j ∧ v = w := by
  obtain ⟨f, waits⟩ := (h.queued i first.1).asleep v first.2
  obtain ⟨g, waits'⟩ := (h.queued j second.1).asleep w second.2
  rw [same, waits'] at waits
  cases waits
  exact ⟨rfl, List.inj_on_of_nodup_map (h.queued i first.1).distinct first.2 second.2 same⟩

theorem hit (h : Queues s) (alive : tid ≠ 0) (mem : id ∈ s.pool.lqh)
    (go : mustWait tid (s.pool.bkt id) = false) {t : Threads} (eq : t = { s with
      pool := grab tid flags s.pool id
      holds := Function.update s.holds id (tid :: s.holds id) }) :
    Queues t ∧ ∀ j w, t.InLine j w ↔ s.InLine j w := by
  subst eq
  have kept : (applyFlags flags (hold tid (s.pool.bkt id))).pgno = (s.pool.bkt id).pgno := by
    simp only [applyFlags, hold]
    split <;> rfl
  have chained := h.chained.setBkt (f := fun b => applyFlags flags (hold tid b)) kept
  have same : ∀ j, j ∈ (grab tid flags s.pool id).lqh ↔ j ∈ s.pool.lqh := fun j =>
    mem_requeue chained mem
  have line : ∀ j, ((grab tid flags s.pool id).bkt j).wqh = (s.pool.bkt j).wqh := by
    intro j
    by_cases here : j = id
    · simp only [here, grab, link_bkt, unlink_bkt, setBkt_same, applyFlags, hold]
      split <;> rfl
    · simp [grab, setBkt_other here]
  refine ⟨{ chained := chained.requeue mem, queued := fun j memj => ?_,
            waits := fun t j f eq => (same j).mpr (h.waits t j f eq),
            holds := fun t j held => ?_ }, fun j w => ?_⟩
  · exact Protocol.each_setBkt (fun b => applyFlags flags (hold tid b))
      ((h.queued id mem).hit alive go) (fun i memi _ => h.queued i memi) j ((same j).mp memj)
  · refine (same j).mpr ?_
    by_cases here : j = id
    · exact here ▸ mem
    · simp only [Function.update_of_ne here] at held
      exact h.holds t j held
  · simp only [Threads.InLine, same, line]

theorem begin (h : Queues s) (free : s.waiting tid = none) (mem : id ∈ s.pool.lqh) {t : Threads}
    (eq : t = { s with
      pool := s.pool.beginWait tid id
      waiting := Function.update s.waiting tid (some (id, flags)) }) :
    Queues t ∧ ∀ j w, t.InLine j w ↔ s.InLine j w ∨ (j = id ∧ w = ⟨tid, false⟩) := by
  subst eq
  have chained : Chained (s.pool.beginWait tid id) :=
    h.chained.congr rfl rfl rfl fun i _ => setBkt_pgno rfl i
  refine ⟨{ chained := chained, queued := ?_, waits := fun t j f eq => ?_, holds := h.holds },
    fun j w => ?_⟩
  · refine Protocol.each_setBkt
      (fun b => { b with waiters := b.waiters + 1, wqh := ⟨tid, false⟩ :: b.wqh })
      ((h.queued id mem).begin free) fun j memj ne => (h.queued j memj).elsewhere fun f eq => ?_
    rw [free] at eq
    cases eq
  · by_cases same : t = tid
    · simp only [same, Function.update_self, Option.some.injEq, Prod.mk.injEq] at eq
      rw [← eq.1]
      exact mem
    · simp only [Function.update_of_ne same] at eq
      exact h.waits t j f eq
  · by_cases here : j = id
    · subst here
      simp only [Threads.InLine, beginWait, setBkt_lqh, setBkt_same, List.mem_cons, mem, true_and]
      tauto
    · simp [Threads.InLine, beginWait, setBkt_other here, here]

theorem finish (h : Queues s) {w : Waiter} (waits : s.waiting w.tid = some (id, flags))
    (mem : w ∈ (s.pool.bkt id).wqh) (wake : w.wakeup = true) {t : Threads} (eq : t = {
      pool := ((s.pool.setBkt id (unqueue w.tid flags)).unlink id).link id
      waiting := Function.update s.waiting w.tid none
      holds := Function.update s.holds id (w.tid :: s.holds id) }) :
    Queues t ∧ ∀ j v, t.InLine j v ↔ s.InLine j v ∧ v.tid ≠ w.tid := by
  subst eq
  have cached := h.waits _ _ _ waits
  have chained : Chained (s.pool.setBkt id (unqueue w.tid flags)) := h.chained.setBkt rfl
  have same : ∀ j, j ∈ (((s.pool.setBkt id (unqueue w.tid flags)).unlink id).link id).lqh ↔
      j ∈ s.pool.lqh := fun j => mem_requeue chained cached
  obtain ⟨split, queued⟩ : (s.pool.bkt id).wqh = (s.pool.bkt id).wqh.dropLast ++ [w] ∧
      Queued (Function.update s.waiting w.tid none) id (unqueue w.tid flags (s.pool.bkt id)) :=
    (h.queued id cached).finish mem wake
  refine ⟨{ chained := chained.requeue cached, queued := fun j memj => ?_,
            waits := fun t j f eq => ?_, holds := fun t j held => ?_ }, fun j v => ?_⟩
  · refine Protocol.each_setBkt (unqueue w.tid flags) queued
      (fun i memi ne => (h.queued i memi).elsewhere fun f eq => ?_) j ((same j).mp memj)
    rw [waits] at eq
    cases eq
    exact ne rfl
  · rw [same]
    by_cases eqt : t = w.tid
    · simp only [eqt, Function.update_self] at eq
      cases eq
    · simp only [Function.update_of_ne eqt] at eq
      exact h.waits t j f eq
  · rw [same]
    by_cases here : j = id
    · exact here ▸ cached
    · simp only [Function.update_of_ne here] at held
      exact h.holds t j held
  · have elsewhere : j ≠ id → s.InLine j v → v.tid ≠ w.tid := fun ne line same =>
      ne (h.unique line ⟨cached, mem⟩ same).1
    by_cases here : j = id
    · subst here
      have distinct := (h.queued j cached).distinct
      rw [split, List.map_append, List.nodup_append] at distinct
      have last : v ∈ (s.pool.bkt j).wqh ↔ v ∈ (s.pool.bkt j).wqh.dropLast ∨ v = w := by
        conv_lhs => rw [split]
        simp
      simp only [Threads.InLine, same, cached, true_and, link_bkt, unlink_bkt, setBkt_same, unqueue,
        applyFlags, last]
      refine ⟨fun rest => ⟨.inl rest, ?_⟩, fun both => ?_⟩
      · exact distinct.2.2 _ (List.mem_map_of_mem rest) _ (by simp)
      · exact both.1.resolve_right fun eq => both.2 (by rw [eq])
    · simp only [Threads.InLine, same, link_bkt, unlink_bkt, setBkt_other here] at elsewhere ⊢
      exact ⟨fun line => ⟨line, elsewhere here line⟩, fun both => both.1⟩

theorem put (h : Queues s) (held : tid ∈ s.holds id) (pinned : (s.pool.bkt id).pinned = true)
    {dirty : Bool} {t : Threads} (eq : t = { s with
      pool := s.pool.setBkt id (release dirty)
      holds := Function.update s.holds id ((s.holds id).erase tid) }) :
    Queues t ∧ (∀ w, s.InLine id w → w.wakeup = false) ∧
      ∀ j w, t.InLine j w ↔ j ≠ id ∧ s.InLine j w ∨ j = id ∧ w ∈ wakeLast (s.pool.bkt id).wqh := by
  subst eq
  have cached := h.holds tid id held
  refine ⟨{ chained := h.chained.setBkt rfl, queued := ?_, waits := h.waits,
            holds := fun t j held' => ?_ }, fun w line => ?_, fun j w => ?_⟩
  · exact Protocol.each_setBkt (Pagepool.release dirty) ((h.queued id cached).release pinned dirty)
      fun j memj _ => h.queued j memj
  · by_cases here : j = id
    · exact here ▸ cached
    · simp only [Function.update_of_ne here] at held'
      exact h.holds t j held'
  · by_contra wake
    have free := ((h.queued id cached).woken w line.2 (by simpa using wake)).1
    rw [pinned] at free
    cases free
  · by_cases here : j = id
    · subst here
      simp [Threads.InLine, cached, (h.queued j cached).release_wqh]
    · simp [Threads.InLine, here, setBkt_other here]

theorem enter (h : Queues s) (e : Entered tid s.pool id pgp) {t : Threads} (eq : t = { s with
      pool := pgp
      holds := Function.update s.holds id (tid :: s.holds id) }) :
    Queues t ∧ ∀ j w, t.InLine j w ↔ s.InLine j w := by
  subst eq
  obtain ⟨mid, b, top, r, rfl, pinned, _, _, waiters, wqh⟩ := e.recycled
  have idle : id ∈ s.pool.lqh → (s.pool.bkt id).wqh = [] := by
    intro mem
    have idle := r.idle mem
    simp only [evictable, Bool.and_eq_true, Bool.not_eq_true', beq_iff_eq] at idle
    rw [← List.length_eq_zero_iff, ← (h.queued id mem).count]
    exact idle.2
  have queue : b.wqh = [] := by
    rw [wqh]
    rcases r.wqh with empty | ⟨mem, same⟩
    · exact empty
    · rw [same, idle mem]
  have stays : ∀ j ∈ s.pool.lqh, j ∈ (mid.enter id b top).lqh := by
    intro j mem
    by_cases here : j = id
    · exact mem_enter.mpr (.inr here)
    · exact mem_enter.mpr (.inl ((r.mem j).mpr ⟨mem, here⟩))
  refine ⟨{ chained := ?_, queued := fun j mem => ?_,
            waits := fun t j f eq => stays j (h.waits t j f eq),
            holds := fun t j held => ?_ }, fun j w => ?_⟩
  · have reset := r.chained.setBkt_of_not_mem (f := fun _ => b) r.out
    exact (reset.link r.out r.low).congr rfl rfl rfl fun _ _ => rfl
  · by_cases same : j = id
    · rw [same, enter_bkt_same]
      refine { count := ?_, asleep := ?_, distinct := ?_, woken := ?_, owned := fun _ => pinned }
      · rw [waiters, queue]
        rfl
      · rw [queue]
        exact fun w mem => absurd mem List.not_mem_nil
      · rw [queue]
        exact List.nodup_nil
      · rw [queue]
        exact fun w mem => absurd mem List.not_mem_nil
    · rw [enter_bkt_other same]
      have memMid := (mem_enter.mp mem).resolve_right same
      exact (h.queued j ((r.mem j).mp memMid).1).written (r.others j memMid)
  · by_cases here : j = id
    · exact mem_enter.mpr (.inr here)
    · simp only [Function.update_of_ne here] at held
      exact stays j (h.holds t j held)
  · by_cases here : j = id
    · subst here
      simp only [Threads.InLine, enter_bkt_same, queue, List.not_mem_nil, and_false, false_iff,
        not_and]
      intro mem
      rw [idle mem]
      exact List.not_mem_nil
    · have cached : j ∈ (mid.enter id b top).lqh ↔ j ∈ s.pool.lqh := by
        refine ⟨fun mem => ?_, stays j⟩
        exact ((r.mem j).mp ((mem_enter.mp mem).resolve_right here)).1
      simp only [Threads.InLine, enter_bkt_other here, cached]
      refine and_congr_right fun mem => ?_
      rcases r.others j ((r.mem j).mpr ⟨mem, here⟩) with eq | ⟨_, eq⟩
      · rw [eq]
      · rw [eq]

end Queues

structure Signalling (s : Signals) : Prop where
  queues : Queues s.threads
  pending : ∀ t r, s.pending t = some r → s.serial r.tid = r.serial ∧ s.signalled r.tid = false ∧
    ∃ w, s.threads.InLine r.mem w ∧ w.tid = r.tid ∧ w.wakeup = true
  silent : ∀ id w, s.threads.InLine id w → w.wakeup = false → s.signalled w.tid = false
  apart : ∀ t t' r r', s.pending t = some r → s.pending t' = some r' → r.tid = r'.tid → t = t'

namespace Signalling

variable {tid id : Nat} {s s' : Signals} {t : Threads}

theorem keep (h : Signalling s)
    (after : Queues t ∧ ∀ j w, t.InLine j w ↔ s.threads.InLine j w) :
    Signalling { s with threads := t } where
  queues := after.1
  pending u r eq := by
    obtain ⟨serial, quiet, w, line, rest⟩ := h.pending u r eq
    exact ⟨serial, quiet, w, (after.2 _ _).mpr line, rest⟩
  silent j w line := h.silent j w ((after.2 j w).mp line)
  apart := h.apart

theorem begin (h : Signalling s) (free : s.threads.waiting tid = none)
    (after : Queues t ∧
      ∀ j w, t.InLine j w ↔ s.threads.InLine j w ∨ (j = id ∧ w = ⟨tid, false⟩)) :
    Signalling { s with
      threads := t
      serial := Function.update s.serial tid (s.serial tid + 1)
      signalled := Function.update s.signalled tid false } where
  queues := after.1
  pending u r eq := by
    obtain ⟨serial, quiet, w, line, same, woken⟩ := h.pending u r eq
    have ne : r.tid ≠ tid := by
      intro eq
      obtain ⟨f, waits⟩ := (h.queues.queued _ line.1).asleep w line.2
      rw [same, eq, free] at waits
      cases waits
    simp only [Function.update_of_ne ne]
    exact ⟨serial, quiet, w, (after.2 _ _).mpr (.inl line), same, woken⟩
  silent j w line asleep := by
    by_cases same : w.tid = tid
    · rw [same]
      exact Function.update_self _ _ _
    · simp only [Function.update_of_ne same]
      rcases (after.2 j w).mp line with old | ⟨_, rfl⟩
      · exact h.silent j w old asleep
      · exact absurd rfl same
  apart := h.apart

theorem finish (h : Signalling s) (heard : s.signalled tid = true)
    (after : Queues t ∧ ∀ j w, t.InLine j w ↔ s.threads.InLine j w ∧ w.tid ≠ tid) :
    Signalling { s with threads := t } where
  queues := after.1
  pending u r eq := by
    obtain ⟨serial, quiet, w, line, same, woken⟩ := h.pending u r eq
    have ne : w.tid ≠ tid := by
      intro eq
      rw [← same, eq, heard] at quiet
      cases quiet
    exact ⟨serial, quiet, w, (after.2 _ _).mpr ⟨line, ne⟩, same, woken⟩
  silent j w line := h.silent j w ((after.2 j w).mp line).1
  apart := h.apart

theorem of_sleeper {r : Sleeper} (cached : id ∈ s.threads.pool.lqh)
    (found : s.sleeper id = some r) : ∃ w, (s.threads.pool.bkt id).wqh.getLast? = some w ∧
      s.threads.InLine id w ∧ r = ⟨id, w.tid, s.serial w.tid⟩ := by
  simp only [Signals.sleeper] at found
  split at found
  · obtain ⟨w, last, rfl⟩ := Option.map_eq_some_iff.mp found
    exact ⟨w, last, ⟨cached, List.mem_of_getLast? last⟩, rfl⟩
  · cases found

theorem put (h : Signalling s) (cached : id ∈ s.threads.pool.lqh)
    (asleep : ∀ w, s.threads.InLine id w → w.wakeup = false)
    (after : Queues t ∧ ∀ j w, t.InLine j w ↔
      j ≠ id ∧ s.threads.InLine j w ∨ j = id ∧ w ∈ wakeLast (s.threads.pool.bkt id).wqh) :
    Signalling { s with
      threads := t
      pending := Function.update s.pending tid (s.sleeper id) } where
  queues := after.1
  pending u r eq := by
    by_cases same : u = tid
    · simp only [same, Function.update_self] at eq
      obtain ⟨w, last, line, rfl⟩ := of_sleeper cached eq
      refine ⟨rfl, h.silent id w line (asleep w line), ⟨w.tid, true⟩, ?_, rfl, rfl⟩
      refine (after.2 _ _).mpr (.inr ⟨rfl, List.mem_of_getLast? ?_⟩)
      rw [getLast?_wakeLast, last]
      rfl
    · simp only [Function.update_of_ne same] at eq
      obtain ⟨serial, quiet, w, line, rest, woken⟩ := h.pending u r eq
      have ne : r.mem ≠ id := by
        intro here
        rw [asleep w (here ▸ line)] at woken
        cases woken
      exact ⟨serial, quiet, w, (after.2 _ _).mpr (.inl ⟨ne, line⟩), rest, woken⟩
  silent j w line unwoken := by
    rcases (after.2 j w).mp line with ⟨_, old⟩ | ⟨rfl, mem⟩
    · exact h.silent j w old unwoken
    · have tid : w.tid ∈ (s.threads.pool.bkt j).wqh.map Waiter.tid := by
        rw [← map_wakeLast]
        exact List.mem_map_of_mem mem
      obtain ⟨v, memv, eq⟩ := List.mem_map.mp tid
      rw [← eq]
      exact h.silent j v ⟨cached, memv⟩ (asleep v ⟨cached, memv⟩)
  apart u u' r r' eq eq' same := by
    -- whom an older signal is for has been woken, whom the release wakes had not been
    have older : ∀ v q q', s.sleeper id = some q → s.pending v = some q' → q.tid ≠ q'.tid := by
      intro v q q' found old both
      obtain ⟨w, _, line, rfl⟩ := of_sleeper cached found
      obtain ⟨_, _, x, line', same', woken⟩ := h.pending v q' old
      obtain ⟨_, rfl⟩ := h.queues.unique line line' (by rw [same']; exact both)
      rw [asleep w line] at woken
      cases woken
    by_cases here : u = tid
    · by_cases here' : u' = tid
      · rw [here, here']
      · simp only [here, Function.update_self] at eq
        simp only [Function.update_of_ne here'] at eq'
        exact absurd same (older u' r r' eq eq')
    · simp only [Function.update_of_ne here] at eq
      by_cases here' : u' = tid
      · simp only [here', Function.update_self] at eq'
        exact absurd same.symm (older u r' r eq' eq)
      · simp only [Function.update_of_ne here'] at eq'
        exact h.apart u u' r r' eq eq' same

theorem signal {r : Sleeper} (h : Signalling s) (pending : s.pending tid = some r) :
    Signalling { s with
      signalled :=
        if s.serial r.tid = r.serial then Function.update s.signalled r.tid true else s.signalled
      pending := Function.update s.pending tid none } := by
  obtain ⟨serial, _, w, line, same, woken⟩ := h.pending tid r pending
  rw [if_pos serial]
  refine ⟨h.queues, fun u q eq => ?_, fun j v line' asleep => ?_, fun u u' q q' eq eq' => ?_⟩
  · have ne : u ≠ tid := by
      rintro rfl
      simp at eq
    simp only [Function.update_of_ne ne] at eq
    obtain ⟨serial', quiet, rest⟩ := h.pending u q eq
    have other : q.tid ≠ r.tid := fun both => ne (h.apart u tid q r eq pending both)
    refine ⟨serial', ?_, rest⟩
    simp only [Function.update_of_ne other]
    exact quiet
  · have other : v.tid ≠ r.tid := by
      intro both
      obtain ⟨_, rfl⟩ := h.queues.unique line' line (by rw [both, same])
      rw [asleep] at woken
      cases woken
    simp only [Function.update_of_ne other]
    exact h.silent j v line' asleep
  · have ne : u ≠ tid := by
      rintro rfl
      simp at eq
    have ne' : u' ≠ tid := by
      rintro rfl
      simp at eq'
    simp only [Function.update_of_ne ne] at eq
    simp only [Function.update_of_ne ne'] at eq'
    exact h.apart u u' q q' eq eq'

theorem free_of_get {s s' : Threads} {p : Nat} {flags : PageFlags}
    (happens : s.next (.get tid p flags) = some s') : s.waiting tid = none := by
  simp only [Threads.next] at happens
  split at happens
  · cases happens
  · rename_i able
    cases waits : s.waiting tid with
    | none => rfl
    | some _ => exact absurd (.inr (by rw [waits]; rfl)) able

theorem pinned_of_put {s s' : Threads} {dirty : Bool}
    (happens : s.next (.put tid id dirty) = some s') : (s.pool.bkt id).pinned = true := by
  by_contra loose
  simp [Threads.next, putPage, loose] at happens

theorem next (h : Signalling s) {e : Signals.Step} (awaited : s.NotSpurious e)
    (happens : s.next e = some s') : Signalling s' := by
  cases e with
  | signal tid =>
    simp only [Signals.next] at happens
    split at happens
    · cases happens
    · rename_i r pending
      cases happens
      exact h.signal pending
  | critical e =>
    simp only [Signals.next] at happens
    split at happens
    · cases happens
    cases crossed : s.threads.next e with
    | none =>
      rw [crossed] at happens
      cases happens
    | some t =>
      simp only [crossed] at happens
      have event := Protocol.happens_of_next h.queues.chained crossed
      cases event with
      | refused =>
        have free := free_of_get crossed
        simp only [free, Option.isSome_none, Bool.false_eq_true, if_false] at happens
        cases happens
        exact h
      | begin _ _ free mem _ =>
        simp only [Function.update_self, Option.isSome_some, if_true] at happens
        cases happens
        exact h.begin free (h.queues.begin free mem rfl)
      | hit _ alive free _ _ mem go =>
        simp only [free, Option.isSome_none, Bool.false_eq_true, if_false] at happens
        cases happens
        exact h.keep (h.queues.hit alive mem go rfl)
      | enter _ _ free entered =>
        simp only [free, Option.isSome_none, Bool.false_eq_true, if_false] at happens
        cases happens
        exact h.keep (h.queues.enter entered rfl)
      | wake waits mem woken =>
        cases happens
        exact h.finish awaited (h.queues.finish waits mem woken rfl)
      | put held _ =>
        cases happens
        obtain ⟨queues, asleep, lines⟩ := h.queues.put held (pinned_of_put crossed) rfl
        exact h.put (h.queues.holds _ _ held) asleep ⟨queues, lines⟩

theorem reaches {s₀ : Signals} (start : Signalling s₀) (run : s₀.Reaches s) : Signalling s := by
  induction run with
  | start => exact start
  | step _ awaited happens ih => exact ih.next awaited happens

end Signalling

theorem signalling_open {file : Pagefile} {mem : Nat → Bkt} {rdonly : Bool} {maxcache : Nat}
    {pgin : Nat → Page → Option Page} {pgout : Nat → Page → Page} :
    Signalling (Signals.open (openFd file mem rdonly maxcache pgin pgout)) where
  queues :=
    { chained := linked_openFd.toChained
      queued := fun _ mem => absurd mem List.not_mem_nil
      waits := fun _ _ _ eq => by cases eq
      holds := fun _ _ held => absurd held List.not_mem_nil }
  pending _ _ eq := by cases eq
  silent _ _ line := absurd line.1 List.not_mem_nil
  apart _ _ _ _ eq := by cases eq

/-- As long as a wait ends only when it was signalled, each signal finds the record it is for
in the queue, still of the wait it was made for. -/
theorem signal_finds_waiter {file : Pagefile} {mem : Nat → Bkt} {rdonly : Bool} {maxcache : Nat}
    {pgin : Nat → Page → Option Page} {pgout : Nat → Page → Page} {s : Signals}
    (run : (Signals.open (openFd file mem rdonly maxcache pgin pgout)).Reaches s) :
    ∀ tid r, s.pending tid = some r → s.Present r := by
  intro tid r pending
  obtain ⟨serial, _, w, line, same, _⟩ := (signalling_open.reaches run).pending tid r pending
  exact ⟨serial, w, line.2, same⟩

section Spurious

attribute [local semireducible] hashKey

def noSignals : Signals :=
  .open (openFd ⟨0, fun _ _ => 0⟩ (fun _ => ⟨fun _ => 0, 0, 0, 0, false, false, false, false, 0, []⟩)
    false 0 (fun _ c => some c) (fun _ c => c))

theorem signal_finds_waiter_once : ∃ (s : Signals) (r : Sleeper), s.pending 1 = some r ∧ s.Present r := by
  have run : noSignals.Reaches _ :=
    .step (.step (.step .start (e := .critical (.get 1 5 {})) trivial rfl)
      (e := .critical (.get 2 5 {})) trivial rfl)
      (e := .critical (.put 1 0 false)) trivial rfl
  exact ⟨_, _, rfl, signal_finds_waiter run 1 _ rfl⟩

/-- A thread holds a page another waits for and releases it. Before it sends the signal the
other comes back from its wait by itself, takes the page and frees its record. -/
theorem signal_after_departure : ∃ (s₁ s₂ s₃ s₄ : Signals) (r : Sleeper),
    noSignals.next (.critical (.get 1 5 {})) = some s₁ ∧
    s₁.next (.critical (.get 2 5 {})) = some s₂ ∧
    s₂.next (.critical (.put 1 0 false)) = some s₃ ∧
    s₃.next (.critical (.wake 2)) = some s₄ ∧
    s₄.pending 1 = some r ∧ ¬ s₄.Present r := by
  refine ⟨_, _, _, _, _, rfl, rfl, rfl, rfl, rfl, fun present => ?_⟩
  obtain ⟨w, mem, _⟩ := present.2
  exact absurd mem List.not_mem_nil

end Spurious

end FileHash.Pagepool
