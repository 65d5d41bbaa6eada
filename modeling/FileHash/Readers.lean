import FileHash.LookupAlone
import FileHash.OpenedTable
import FileHash.Lib.LockOrder

/-! Threads that look keys up in one database, with no writer. A step of a thread is one call
on the page pool, or one access to a page it has in hand. While every get is fair the pages
of finished gets are all put back, so that whoever waits, waits for a get that goes on. A
get that comes to an empty value, or to one its buffer is too small for, keeps a page
pinned for good, and the next get of that key waits for it. -/
namespace FileHash.Htab

open Lib (Prog Script)
open Page
open Pagepool (Threads)

/-- A get that is not finished: what was asked, and what is left to be done. -/
structure Call where
  key : Dbt
  room : Nat
  rest : Job (Int × List UInt8)

structure Return where
  tid : Nat
  key : Dbt
  room : Nat
  result : Int × List UInt8

/-- The threads, the get each is in, and what the gets before that returned. -/
structure Readers where
  threads : Threads
  calls : Nat → Option Call
  returned : List Return

namespace Readers

def goes (s : Readers) (tid : Nat) (call : Call) (threads : Threads) (rest : Job (Int × List UInt8)) :
    Readers :=
  { s with
    threads := threads
    calls := Function.update s.calls tid (some { call with rest := rest }) }

def step (s : Readers) (tid : Nat) : Option Readers :=
  match s.calls tid with
  | none => none
  | some call =>
    match call.rest with
    | .done r => some { s with
        calls := Function.update s.calls tid none
        returned := ⟨tid, call.key, call.room, r⟩ :: s.returned }
    | .ask (.get p flags) next =>
      match s.threads.waiting tid with
      | some (mem, _) => (s.threads.next (.wake tid)).map fun t => s.goes tid call t (next (some mem))
      | none => (s.threads.next (.get tid p flags)).map fun t =>
          match ((Pagepool.getPage (ε := Empty) tid p flags).run s.threads.pool).1 with
          | .ok (.page mem) _ => s.goes tid call t (next (some mem))
          | .ok .error _ => s.goes tid call t (next none)
          | .ok (.wait _) _ => { s with threads := t }
          | .halt _ => s
    | .ask (.page mem) next => some (s.goes tid call s.threads (next (s.threads.pool.bkt mem).page))
    | .ask (.store mem f) next =>
      some (s.goes tid call { s.threads with
        pool := s.threads.pool.setBkt mem fun b => { b with page := f b.page } } (next ()))
    | .ask (.put mem dirty) next =>
      (s.threads.next (.put tid mem dirty)).map fun t => s.goes tid call t (next ())
    | .ask (.stop _) _ => none

def begin (hashp : Htab) (s : Readers) (tid : Nat) (key : Dbt) (room : Nat) : Option Readers :=
  if tid = 0 ∨ (s.calls tid).isSome then none
  else some { s with
    calls := Function.update s.calls tid (some ⟨key, room, Job.hashGet hashp key room⟩) }

def init (hashp : Htab) : Readers := ⟨.open hashp.mp, fun _ => none, []⟩

/-- The runs on an opened table, in which gets are as `asks` has them. -/
inductive Reaches (hashp : Htab) (asks : Dbt → Nat → Prop) : Readers → Prop
  | start : Reaches hashp asks (init hashp)
  | begin {s s' : Readers} {tid : Nat} {key : Dbt} {room : Nat} (run : Reaches hashp asks s)
      (asked : asks key room) (begins : s.begin hashp tid key room = some s') : Reaches hashp asks s'
  | step {s s' : Readers} {tid : Nat} (run : Reaches hashp asks s) (goes : s.step tid = some s') :
      Reaches hashp asks s'

/-- While a get is not finished, some get that is not can take its next step. -/
def GoesOn (s : Readers) : Prop :=
  (∃ tid, (s.calls tid).isSome) → ∃ tid, (s.calls tid).isSome ∧ (s.step tid).isSome

def Agrees (hashp : Htab) (s : Readers) : Prop :=
  ∀ r ∈ s.returned, ∃ hashp', (hashGet r.key r.room).Returns hashp r.result hashp'

def Back (s : Readers) : Prop := ∀ tid, s.calls tid = none → ∀ id, tid ∉ s.threads.holds id

def On (s : Readers) (tid : Nat) (call : Call) : Prop :=
  ∃ rest, call.rest.After rest ∧ s.calls tid = some { call with rest := rest } ∧
    s.threads.waiting tid = none

end Readers

abbrev Ending := Dbt → Nat → Int × List UInt8 → Hand → Prop

def Image.fairly {h₀ : Htab} (img : Image h₀) : Ending := fun key room r hand =>
  (r = img.answer key ∧ hand = noPage) ∧ img.Fair key room

/-- A get ends with page `d` in hand. -/
def keeping (d : Nat) : Ending := fun _ _ _ hand => ∃ id, hand id = some d

variable {h₀ : Htab} {img : Image h₀} {ends : Ending} {s s' s'' : Readers} {tid : Nat} {call : Call}
  {hand : Hand} {asks : Dbt → Nat → Prop}

def Holding (threads : Threads) (tid : Nat) (hand : Hand) : Prop :=
  ∀ id p, hand id = some p ↔ tid ∈ threads.holds id ∧ (threads.pool.bkt id).pgno = p

structure Busy (img : Image h₀) (ends : Ending) (threads : Threads) (tid : Nat) (call : Call)
    (hand : Hand) : Prop where
  alive : tid ≠ 0
  obeys : Script.Obeys (readerRules img) (ends call.key call.room) hand call.rest
  inHand : Holding threads tid hand
  waits : ∀ id flags, threads.waiting tid = some (id, flags) →
    ∃ p next, call.rest = .ask (.get p flags) next ∧ (threads.pool.bkt id).pgno = p

structure Reading (img : Image h₀) (ends : Ending) (s : Readers) : Prop where
  protocol : Pagepool.Protocol s.threads
  pooled : img.Pooled s.threads.pool
  busy : ∀ tid call, s.calls tid = some call → ∃ hand, Busy img ends s.threads tid call hand
  idle : ∀ tid, s.calls tid = none → s.threads.waiting tid = none
  returned : ∀ r ∈ s.returned, ∃ hand, ends r.key r.room r.result hand

structure Steady (threads threads' : Threads) (tid : Nat) : Prop where
  holds : ∀ u, u ≠ tid → ∀ id, u ∈ threads'.holds id ↔ u ∈ threads.holds id
  waiting : ∀ u, u ≠ tid → threads'.waiting u = threads.waiting u
  pgno : ∀ u, u ≠ tid → ∀ id,
    (u ∈ threads.holds id ∨ ∃ flags, threads.waiting u = some (id, flags)) →
      (threads'.pool.bkt id).pgno = (threads.pool.bkt id).pgno

/-- A step of thread `tid`, by what it keeps and what the thread ends with. -/
structure Moves (img : Image h₀) (ends : Ending) (s : Readers) (tid : Nat) (s' : Readers) : Prop where
  goes : s.step tid = some s'
  reading : Reading img ends s'
  steady : Steady s.threads s'.threads tid
  calls : ∀ u, u ≠ tid → s'.calls u = s.calls u
  ended : s'.calls tid = none →
    ∃ key room r hand, ends key room r hand ∧ Holding s'.threads tid hand

theorem Call.after {op : PageOp} {next : op.Ans → Job (Int × List UInt8)}
    (rest : call.rest = .ask op next) (ans : op.Ans) : call.rest.After (next ans) :=
  rest ▸ .ask op next ans

theorem steady_refl {threads : Threads} : Steady threads threads tid :=
  ⟨fun _ _ _ => Iff.rfl, fun _ _ => rfl, fun _ _ _ _ => rfl⟩

theorem Steady.trans {threads threads' threads'' : Threads} (h : Steady threads threads' tid)
    (h' : Steady threads' threads'' tid) : Steady threads threads'' tid where
  holds u other id := (h'.holds u other id).trans (h.holds u other id)
  waiting u other := (h'.waiting u other).trans (h.waiting u other)
  pgno u other id used := by
    refine (h'.pgno u other id ?_).trans (h.pgno u other id used)
    rwa [h.holds u other, h.waiting u other]

theorem Busy.steady {threads threads' : Threads} {u : Nat} (h : Busy img ends threads u call hand)
    (steady : Steady threads threads' tid) (other : u ≠ tid) : Busy img ends threads' u call hand := by
  refine ⟨h.alive, h.obeys, fun id p => ?_, fun id flags waits => ?_⟩
  · rw [h.inHand, steady.holds u other]
    refine and_congr_right fun held => ?_
    rw [steady.pgno u other id (.inl held)]
  · rw [steady.waiting u other] at waits
    rw [steady.pgno u other id (.inr ⟨flags, waits⟩)]
    exact h.waits id flags waits

/-- A step of thread `tid` in its get, by what becomes of the pool and of the rest. -/
theorem Reading.goes (h : Reading img ends s) {threads : Threads} (rest : Job (Int × List UInt8))
    (goes : s.step tid = some (s.goes tid call threads rest))
    (protocol : Pagepool.Protocol threads) (pooled : img.Pooled threads.pool)
    (steady : Steady s.threads threads tid)
    (busy : Busy img ends threads tid { call with rest := rest } hand) :
    Moves img ends s tid (s.goes tid call threads rest) := by
  refine ⟨goes, ⟨protocol, pooled, fun u c eq => ?_, fun u eq => ?_, h.returned⟩, steady,
    fun u other => Function.update_of_ne other .., fun eq => ?_⟩
  · by_cases same : u = tid
    · subst same
      simp only [Readers.goes, Function.update_self] at eq
      cases eq
      exact ⟨hand, busy⟩
    · simp only [Readers.goes, Function.update_of_ne same] at eq
      obtain ⟨hand', old⟩ := h.busy u c eq
      exact ⟨hand', old.steady steady same⟩
  · by_cases same : u = tid
    · subst same
      simp only [Readers.goes, Function.update_self] at eq
      cases eq
    · simp only [Readers.goes, Function.update_of_ne same] at eq
      exact (steady.waiting u same).trans (h.idle u eq)
  · simp only [Readers.goes, Function.update_self] at eq
    cases eq

theorem steady_next {threads threads' : Threads} (h : Pagepool.Protocol threads)
    {e : Pagepool.Event} (happens : threads.next e = some threads') : Steady threads threads' e.tid := by
  have pgno : ∀ u, u ≠ e.tid → ∀ id,
      (u ∈ threads.holds id ∨ ∃ flags, threads.waiting u = some (id, flags)) →
        (threads'.pool.bkt id).pgno = (threads.pool.bkt id).pgno := by
    rintro u _ id (held | ⟨flags, waits⟩)
    · exact h.pgno_steady id happens (.inl (List.ne_nil_of_mem held))
    · exact h.pgno_steady id happens (.inr ⟨u, flags, waits⟩)
  have more : ∀ (t i u : Nat), u ≠ t → ∀ id,
      u ∈ Function.update threads.holds i (t :: threads.holds i) id ↔ u ∈ threads.holds id := by
    intro t i u other id
    by_cases same : id = i
    · subst same
      rw [Function.update_self, List.mem_cons]
      exact or_iff_right other
    · rw [Function.update_of_ne same]
  cases h.next_cases happens with
  | refused => exact ⟨fun _ _ _ => Iff.rfl, fun _ _ => rfl, pgno⟩
  | begin => exact ⟨fun _ _ _ => Iff.rfl, fun u other => Function.update_of_ne other .., pgno⟩
  | hit => exact ⟨fun u other => more _ _ u other, fun _ _ => rfl, pgno⟩
  | enter => exact ⟨fun u other => more _ _ u other, fun _ _ => rfl, pgno⟩
  | wake => exact ⟨fun u other => more _ _ u other, fun u other => Function.update_of_ne other .., pgno⟩
  | @put t i dirty held free =>
    refine ⟨fun u other id => ?_, fun _ _ => rfl, pgno⟩
    by_cases same : id = i
    · subst same
      simp only [Function.update_self]
      exact List.mem_erase_of_ne other
    · simp only [Function.update_of_ne same]

theorem Busy.takes {threads threads' : Threads} (h : Busy img ends threads tid call hand)
    (protocol' : Pagepool.Protocol threads')
    (pgno : ∀ id, threads.holds id ≠ [] → (threads'.pool.bkt id).pgno = (threads.pool.bkt id).pgno)
    {id p : Nat} {flags : PageFlags} {next : Option Nat → Job (Int × List UInt8)}
    (rest : call.rest = .ask (.get p flags) next)
    (holds : threads'.holds = Function.update threads.holds id (tid :: threads.holds id))
    (number : (threads'.pool.bkt id).pgno = p) (free : threads'.waiting tid = none) :
    Busy img ends threads' tid { call with rest := next (some id) }
      (Function.update hand id (some p)) := by
  have mine : tid ∈ threads'.holds id := by
    rw [holds, Function.update_self]
    exact List.mem_cons_self
  have fresh : tid ∉ threads.holds id := by
    have only := (protocol'.of_held mine).2.2
    rw [holds, Function.update_self, List.cons.injEq] at only
    rw [only.2]
    exact List.not_mem_nil
  have none : hand id = none := by
    by_contra some
    obtain ⟨q, inHand⟩ := Option.ne_none_iff_exists'.mp some
    exact fresh ((h.inHand id q).mp inHand).1
  have obeys := h.obeys
  rw [rest] at obeys
  refine ⟨h.alive, obeys.2 (some id) _ ⟨id, rfl, none, rfl⟩, fun j q => ?_, fun j f waits => ?_⟩
  · by_cases same : j = id
    · subst same
      rw [Function.update_self, Option.some.injEq, number]
      exact (and_iff_right mine).symm
    · rw [Function.update_of_ne same, h.inHand, holds, Function.update_of_ne same]
      refine and_congr_right fun held => ?_
      rw [pgno j (List.ne_nil_of_mem held)]
  · rw [free] at waits
    cases waits

theorem Reading.wakes (h : Reading img ends s) {w : Waiter} {id : Nat} {flags : PageFlags}
    (calls : s.calls w.tid = some call) (waits : s.threads.waiting w.tid = some (id, flags))
    (mem : w ∈ (s.threads.pool.bkt id).wqh) (woken : w.wakeup = true) :
    ∃ s', Moves img ends s w.tid s' ∧ s'.On w.tid call := by
  obtain ⟨hand, busy⟩ := h.busy w.tid call calls
  obtain ⟨p, next, rest, number⟩ := busy.waits id flags waits
  have obeys := busy.obeys
  rw [rest] at obeys
  obtain ⟨⟨⟨create, rfl, _⟩, _⟩, _⟩ := obeys
  have happens := h.protocol.wake_next waits mem woken
  have protocol' := (h.protocol.next (e := .wake w.tid) trivial happens).1
  have pgno := fun j used => h.protocol.pgno_steady j happens used
  have cached := h.protocol.waits _ _ _ waits
  refine ⟨_, h.goes (next (some id)) ?_ protocol' ?_ (steady_next h.protocol happens)
    (busy.takes protocol' (fun j held => pgno j (.inl held)) rest rfl ?_ ?_), next (some id),
    Call.after rest (some id), Function.update_self .., Function.update_self ..⟩
  · simp only [Readers.step, calls, rest, waits, happens]
    rfl
  · refine h.pooled.keeps (Pagepool.keeps_unqueue h.pooled.readable cached create) ?_ h.pooled.room
    exact Pagepool.counted_requeue (show (s.threads.pool.setBkt id _).Counted from h.pooled.counted) cached
  · exact (pgno id (.inr ⟨w.tid, _, waits⟩)).trans number
  · exact Function.update_self ..

def Readers.Proceeds (s' : Readers) (tid : Nat) (call : Call) : Prop :=
  s'.On tid call ∨ (s'.calls tid = some call ∧ s'.threads.waiting tid ≠ none)

theorem Reading.runs_get (h : Reading img ends s) (calls : s.calls tid = some call)
    (busy : Busy img ends s.threads tid call hand) (free : s.threads.waiting tid = none) {p : Nat}
    {flags : PageFlags} {next : Option Nat → Job (Int × List UInt8)}
    (rest : call.rest = .ask (.get p flags) next) :
    ∃ s', Moves img ends s tid s' ∧ s'.Proceeds tid call := by
  have obeys := busy.obeys
  rw [rest] at obeys
  obtain ⟨⟨⟨create, rfl, low⟩, order⟩, _⟩ := obeys
  have able : ¬(tid = 0 ∨ (s.threads.waiting tid).isSome) := by simp [busy.alive, free]
  -- a page of this number is not in hand
  have flat : s.threads.NotNested (.get tid p { create := create }) := by
    intro _ id found held
    have number := (h.pooled.readable.linked.find_eq_some.mp found).2
    have inHand := (busy.inHand id p).mpr ⟨held, number⟩
    exact (order id p inHand).1 (order id p inHand).2
  rcases Pagepool.getPage_fetches (ε := Empty) tid p h.pooled.readable h.pooled.counted create with
    ⟨id, found, wait, run⟩ | ⟨id, pgp', run, f, top, _⟩ | ⟨_, _, _, full, _⟩
  · have happens : s.threads.next (.get tid p { create := create }) = some { s.threads with
        pool := s.threads.pool.beginWait tid id
        waiting := Function.update s.threads.waiting tid (some (id, { create := create })) } := by
      simp only [Threads.next, if_neg able, run]
    have protocol' := (h.protocol.next flat happens).1
    have steady := steady_next h.protocol happens
    have number := (h.pooled.readable.linked.find_eq_some.mp found).2
    have pooled : img.Pooled (s.threads.pool.beginWait tid id) :=
      h.pooled.keeps (Pagepool.keeps_beginWait h.pooled.readable) h.pooled.counted h.pooled.room
    have kept : ∀ j, ((s.threads.pool.beginWait tid id).bkt j).pgno = (s.threads.pool.bkt j).pgno := by
      intro j
      by_cases same : j = id
      · simp [Pagepool.beginWait, same]
      · simp [Pagepool.beginWait, Pagepool.setBkt_other same]
    have waiting : Busy img ends { s.threads with
        pool := s.threads.pool.beginWait tid id
        waiting := Function.update s.threads.waiting tid (some (id, { create := create })) } tid
          { call with rest := call.rest } hand := by
      refine ⟨busy.alive, busy.obeys, fun j q => ?_, fun j flags waits => ?_⟩
      · rw [busy.inHand, kept]
      · simp only [Function.update_self, Option.some.injEq, Prod.mk.injEq] at waits
        obtain ⟨rfl, rfl⟩ := waits
        exact ⟨p, next, rest, (kept id).trans number⟩
    have same : Function.update s.calls tid (some call) = s.calls := by
      rw [← calls, Function.update_eq_self]
    refine ⟨_, h.goes call.rest ?_ protocol' pooled steady waiting, .inr ⟨?_, ?_⟩⟩
    · simp only [Readers.step, calls, rest, free, happens, run, Option.map_some, Readers.goes]
      rw [← rest]
      exact congrArg (fun c => some (Readers.mk _ c s.returned)) same.symm
    · exact Function.update_self ..
    · simp only [Readers.goes, Function.update_self]
      exact Option.some_ne_none _
  · have happens : s.threads.next (.get tid p { create := create }) = some { s.threads with
        pool := pgp'
        holds := Function.update s.threads.holds id (tid :: s.threads.holds id) } := by
      simp only [Threads.next, if_neg able, run]
    have protocol' := (h.protocol.next flat happens).1
    have pgno := fun j held => h.protocol.pgno_steady j happens (.inl held)
    have room : pgp'.maxpgno < maxPageNumber := by
      cases create with
      | false => exact (top rfl).trans_lt h.pooled.room
      | true => exact f.top.trans_lt (max_lt h.pooled.room (low rfl))
    refine ⟨_, h.goes (next (some id)) ?_ protocol' (h.pooled.keeps f.keeps f.counted room)
      (steady_next h.protocol happens) (busy.takes protocol' pgno rest rfl f.number free),
      .inl ⟨next (some id), Call.after rest (some id), Function.update_self .., free⟩⟩
    simp only [Readers.step, calls, rest, free, happens, run]
    rfl
  · exact absurd full h.pooled.room.ne

theorem Busy.runs {threads : Threads} (h : Busy img ends threads tid call hand)
    (other : ∀ p flags next, call.rest ≠ .ask (.get p flags) next) : threads.waiting tid = none := by
  cases waits : threads.waiting tid with
  | none => rfl
  | some target =>
    obtain ⟨p, next, eq, _⟩ := h.waits target.1 target.2 waits
    exact absurd eq (other p target.2 next)

theorem Reading.runs_page (h : Reading img ends s) (calls : s.calls tid = some call)
    (busy : Busy img ends s.threads tid call hand) {mem : Nat} {next : Page → Job (Int × List UInt8)}
    (rest : call.rest = .ask (.page mem) next) :
    ∃ s', Moves img ends s tid s' ∧ s'.Proceeds tid call := by
  have obeys := busy.obeys
  rw [rest] at obeys
  have free := busy.runs fun p flags next' eq => by rw [rest] at eq; cases eq
  have goesOn := obeys.2 (s.threads.pool.bkt mem).page hand ⟨fun p inHand => by
    obtain ⟨held, number⟩ := (busy.inHand mem p).mp inHand
    exact h.pooled.tells p _ (number ▸ Pagepool.looks_cached (h.protocol.of_held held).1), rfl⟩
  refine ⟨_, h.goes (next (s.threads.pool.bkt mem).page) ?_ h.protocol h.pooled steady_refl
    ⟨busy.alive, goesOn, busy.inHand, fun id flags waits => ?_⟩,
    .inl ⟨_, Call.after rest _, Function.update_self .., free⟩⟩
  · simp only [Readers.step, calls, rest]
  · rw [free] at waits
    cases waits

theorem Reading.runs_store (h : Reading img ends s) (calls : s.calls tid = some call)
    (busy : Busy img ends s.threads tid call hand) {mem : Nat} {f : Page → Page}
    {next : Unit → Job (Int × List UInt8)} (rest : call.rest = .ask (.store mem f) next) :
    ∃ s', Moves img ends s tid s' ∧ s'.Proceeds tid call := by
  have obeys := busy.obeys
  rw [rest] at obeys
  obtain ⟨⟨p, inHand, blank, rfl⟩, goesOn⟩ := obeys
  have free := busy.runs fun p flags next' eq => by rw [rest] at eq; cases eq
  obtain ⟨held, number⟩ := (busy.inHand mem p).mp inHand
  have pooled := h.pooled.reset (h.protocol.of_held held).1 number blank
  have kept : ∀ j, ((s.threads.pool.setBkt mem fun b =>
      { b with page := FileHash.initPage h₀.hdr.bsize b.page p hashBucketPage }).bkt j).pgno =
        (s.threads.pool.bkt j).pgno := fun j => Pagepool.setBkt_pgno rfl j
  refine ⟨_, h.goes (next ()) (by simp only [Readers.step, calls, rest])
    (h.protocol.store mem fun c => FileHash.initPage h₀.hdr.bsize c p hashBucketPage) pooled
    ⟨fun _ _ _ => Iff.rfl, fun _ _ => rfl, fun _ _ j _ => kept j⟩
    ⟨busy.alive, goesOn () hand rfl, fun j q => ?_, fun j flags waits => ?_⟩,
    .inl ⟨next (), ?_, Function.update_self .., free⟩⟩
  · rw [busy.inHand, kept]
  · rw [free] at waits
    cases waits
  · exact Call.after rest ()

theorem Reading.runs_put (h : Reading img ends s) (calls : s.calls tid = some call)
    (busy : Busy img ends s.threads tid call hand) {mem : Nat} {dirty : Bool}
    {next : Unit → Job (Int × List UInt8)} (rest : call.rest = .ask (.put mem dirty) next) :
    ∃ s', Moves img ends s tid s' ∧ s'.Proceeds tid call := by
  have obeys := busy.obeys
  rw [rest] at obeys
  obtain ⟨⟨some, rfl⟩, goesOn⟩ := obeys
  have free := busy.runs fun p flags next' eq => by rw [rest] at eq; cases eq
  obtain ⟨p, inHand⟩ := Option.isSome_iff_exists.mp some
  have held := ((busy.inHand mem p).mp inHand).1
  have happens := h.protocol.put_next held free false
  have protocol' := (h.protocol.next (e := .put tid mem false) trivial happens).1
  have pooled := h.pooled.keeps (Pagepool.keeps_release mem h.pooled.readable) h.pooled.counted
    h.pooled.room
  refine ⟨_, h.goes (next ()) (by simp only [Readers.step, calls, rest, happens]; rfl)
    protocol' pooled (steady_next h.protocol happens)
    ⟨busy.alive, goesOn () _ rfl, fun j q => ?_, fun j flags waits => ?_⟩,
    .inl ⟨_, Call.after rest (), Function.update_self .., free⟩⟩
  · by_cases same : j = mem
    · subst same
      simp [(h.protocol.of_held held).2.2]
    · simp only [Function.update_of_ne same, Pagepool.setBkt_other same]
      exact busy.inHand j q
  · rw [free] at waits
    cases waits

theorem Reading.runs_on (h : Reading img ends s) (calls : s.calls tid = some call)
    (free : s.threads.waiting tid = none) {op : PageOp} {next : op.Ans → Job (Int × List UInt8)}
    (rest : call.rest = .ask op next) : ∃ s', Moves img ends s tid s' ∧ s'.Proceeds tid call := by
  obtain ⟨hand, busy⟩ := h.busy tid call calls
  cases op with
  | get p flags => exact h.runs_get calls busy free rest
  | page mem => exact h.runs_page calls busy rest
  | store mem f => exact h.runs_store calls busy rest
  | put mem dirty => exact h.runs_put calls busy rest
  | stop why =>
    have obeys := busy.obeys
    rw [rest] at obeys
    exact obeys.1.elim

theorem Reading.runs_done (h : Reading img ends s) (calls : s.calls tid = some call)
    {r : Int × List UInt8} (rest : call.rest = .done r) :
    ∃ s', Moves img ends s tid s' ∧ s'.calls tid = none := by
  obtain ⟨hand, busy⟩ := h.busy tid call calls
  have obeys := busy.obeys
  rw [rest] at obeys
  have free := busy.runs fun p flags next' eq => by rw [rest] at eq; cases eq
  refine ⟨{ s with
    calls := Function.update s.calls tid none
    returned := ⟨tid, call.key, call.room, r⟩ :: s.returned }, ⟨?_, ⟨h.protocol, h.pooled,
    fun u c eq => ?_, fun u eq => ?_, List.forall_mem_cons.mpr ⟨⟨hand, obeys⟩, h.returned⟩⟩,
    steady_refl, fun u other => Function.update_of_ne other .., fun _ => ?_⟩, Function.update_self ..⟩
  · simp only [Readers.step, calls, rest]
  · by_cases same : u = tid
    · subst same
      simp only [Function.update_self] at eq
      cases eq
    · simp only [Function.update_of_ne same] at eq
      exact h.busy u c eq
  · by_cases same : u = tid
    · exact same ▸ free
    · simp only [Function.update_of_ne same] at eq
      exact h.idle u eq
  · exact ⟨call.key, call.room, r, hand, obeys, busy.inHand⟩

theorem Reading.runs (h : Reading img ends s) (calls : s.calls tid = some call)
    (free : s.threads.waiting tid = none) : ∃ s', Moves img ends s tid s' := by
  cases rest : call.rest with
  | done r =>
    obtain ⟨s', moves, _⟩ := h.runs_done calls rest
    exact ⟨s', moves⟩
  | ask op next =>
    obtain ⟨s', moves, _⟩ := h.runs_on calls free rest
    exact ⟨s', moves⟩

theorem Reading.step_waiting (h : Reading img ends s) (calls : s.calls tid = some call)
    (waits : s.threads.waiting tid ≠ none) (goes : s.step tid = some s') :
    Moves img ends s tid s' ∧ s'.On tid call := by
  obtain ⟨⟨id, flags⟩, waits⟩ := Option.ne_none_iff_exists'.mp waits
  obtain ⟨hand, busy⟩ := h.busy tid call calls
  obtain ⟨p, next, rest, _⟩ := busy.waits id flags waits
  have woken : ∃ threads, s.threads.next (.wake tid) = some threads := by
    cases happens : s.threads.next (.wake tid) with
    | none =>
      simp only [Readers.step, calls, rest, waits, happens] at goes
      cases goes
    | some threads => exact ⟨threads, rfl⟩
  obtain ⟨threads, happens⟩ := woken
  cases h.protocol.next_cases happens with
  | wake waits' mem woken =>
    obtain ⟨s'', moves, on⟩ := h.wakes calls waits' mem woken
    have same := moves.goes
    rw [goes] at same
    cases same
    exact ⟨moves, on⟩

theorem Reading.step (h : Reading img ends s) (goes : s.step tid = some s') : Moves img ends s tid s' := by
  cases calls : s.calls tid with
  | none =>
    simp only [Readers.step, calls] at goes
    cases goes
  | some call =>
    by_cases free : s.threads.waiting tid = none
    · obtain ⟨s'', moves⟩ := h.runs calls free
      have same := moves.goes
      rw [goes] at same
      cases same
      exact moves
    · exact (h.step_waiting calls free goes).1

theorem Reading.begin (h : Reading img ends s) {key : Dbt} {room : Nat}
    (obeys : Script.Obeys (readerRules img) (ends key room) noPage (Job.hashGet h₀ key room))
    (bare : ∀ id, tid ∉ s.threads.holds id) (begins : s.begin h₀ tid key room = some s') :
    Reading img ends s' ∧ s' = { s with
      calls := Function.update s.calls tid (some ⟨key, room, Job.hashGet h₀ key room⟩) } := by
  simp only [Readers.begin] at begins
  split at begins
  · cases begins
  rename_i able
  cases begins
  have alive : tid ≠ 0 := fun null => able (.inl null)
  have idle : s.calls tid = none := by
    cases calls : s.calls tid with
    | none => rfl
    | some call => exact absurd (.inr (by rw [calls]; rfl)) able
  have free := h.idle tid idle
  refine ⟨⟨h.protocol, h.pooled, fun u c eq => ?_, fun u eq => ?_, h.returned⟩, rfl⟩
  · by_cases same : u = tid
    · subst same
      simp only [Function.update_self, Option.some.injEq] at eq
      subst eq
      refine ⟨noPage, alive, obeys, fun id p => ?_, fun id flags waits => ?_⟩
      · exact ⟨fun eq => (by cases eq), fun held => absurd held.1 (bare id)⟩
      · rw [free] at waits
        cases waits
    · simp only [Function.update_of_ne same] at eq
      exact h.busy u c eq
  · by_cases same : u = tid
    · subst same
      simp only [Function.update_self] at eq
      cases eq
    · simp only [Function.update_of_ne same] at eq
      exact h.idle u eq

theorem Reading.ordered (h : Reading img ends s) (back : s.Back) {id id' : Nat} {flags : PageFlags}
    (waits : s.threads.waiting tid = some (id, flags)) (held : tid ∈ s.threads.holds id') :
    ¬img.data (s.threads.pool.bkt id').pgno ∧ img.data (s.threads.pool.bkt id).pgno := by
  cases calls : s.calls tid with
  | none => exact absurd held (back tid calls id')
  | some call =>
    obtain ⟨hand, busy⟩ := h.busy tid call calls
    obtain ⟨p, next, rest, number⟩ := busy.waits id flags waits
    have obeys := busy.obeys
    rw [rest] at obeys
    rw [number]
    exact obeys.1.2 id' _ ((busy.inHand id' _).mpr ⟨held, rfl⟩)

theorem Reading.goesOn (h : Reading img ends s) (back : s.Back) : s.GoesOn := by
  classical
  rintro ⟨tid, unfinished⟩
  obtain ⟨call, calls⟩ := Option.isSome_iff_exists.mp unfinished
  have moves : ∀ {u c}, s.calls u = some c → (∃ s', Moves img ends s u s') →
      ∃ u, (s.calls u).isSome ∧ (s.step u).isSome := by
    rintro u c calls ⟨s', moves⟩
    exact ⟨u, by rw [calls]; rfl, by rw [moves.goes]; rfl⟩
  cases waits : s.threads.waiting tid with
  | none => exact moves calls (h.runs calls waits)
  | some target =>
    -- bucket pages come first, pages of data after them
    obtain ⟨t, id, wait, ends⟩ := Lib.wait_ends (fun t => (s.threads.waiting t).map Prod.fst)
      (fun t id => t ∈ s.threads.holds id)
      (fun id => if img.data (s.threads.pool.bkt id).pgno then 1 else 0) 1 (fun id => by split <;> omega)
      (fun t id id' wait held => by
        obtain ⟨⟨id, flags⟩, waits', rfl⟩ := Option.map_eq_some_iff.mp wait
        obtain ⟨key, data⟩ := h.ordered back waits' held
        rw [if_neg key, if_pos data]
        exact Nat.one_pos)
      (show (s.threads.waiting tid).map Prod.fst = some target.1 by rw [waits]; rfl)
    obtain ⟨⟨id, flags⟩, waits', rfl⟩ := Option.map_eq_some_iff.mp wait
    rcases ends with free | ⟨u, held, goes⟩
    · have served := h.protocol.served id (h.protocol.waits _ _ _ waits')
      have unpinned : (s.threads.pool.bkt id).pinned = false := by
        rcases served.pin with ⟨_, _, _, one⟩ | ⟨unpinned, _⟩
        · exact absurd (one ▸ List.mem_cons_self) (free (s.threads.pool.bkt id).owner)
        · exact unpinned
      obtain ⟨w, flags', mem, woken, waits''⟩ := h.protocol.some_woken waits' unpinned
      cases calls' : s.calls w.tid with
      | none =>
        rw [h.idle w.tid calls'] at waits''
        cases waits''
      | some c =>
        obtain ⟨s', step, _⟩ := h.wakes calls' waits'' mem woken
        exact moves calls' ⟨s', step⟩
    · cases calls' : s.calls u with
      | none => exact absurd held (back u calls' id)
      | some c => exact moves calls' (h.runs calls' (Option.map_eq_none_iff.mp goes))

/-- The table is at rest: nobody has a page of it or waits for one. -/
structure Rested (img : Image h₀) : Prop where
  serves : img.Serves h₀
  pooled : img.Pooled h₀.mp
  searchable : img.Searchable
  protocol : Pagepool.Protocol (Threads.open h₀.mp)

theorem Reading.start (h : Rested img) (ends : Ending) : Reading img ends (Readers.init h₀) where
  protocol := h.protocol
  pooled := h.pooled
  busy _ _ eq := by cases eq
  idle _ _ := rfl
  returned _ mem := absurd mem List.not_mem_nil

theorem reaches_fairly (h : Rested img) (run : Readers.Reaches h₀ img.Fair s) :
    Reading img img.fairly s ∧ s.Back := by
  induction run with
  | start => exact ⟨.start h _, fun _ _ _ => List.not_mem_nil⟩
  | @begin s s' tid key room _ fair begins ih =>
    obtain ⟨reading, back⟩ := ih
    have idle : s.calls tid = none := by
      cases calls : s.calls tid with
      | none => rfl
      | some call => simp [Readers.begin, calls] at begins
    have obeys := Script.obeys_mono (Q := img.fairly key room) (hashGet_obeys h.searchable fair)
      fun _ _ post => ⟨post, fair⟩
    obtain ⟨reading', rfl⟩ := reading.begin obeys (back tid idle) begins
    refine ⟨reading', fun u eq => ?_⟩
    by_cases same : u = tid
    · subst same
      exact back u idle
    · simp only [Function.update_of_ne same] at eq
      exact back u eq
  | @step s s' tid _ goes ih =>
    obtain ⟨reading, back⟩ := ih
    have moves := reading.step goes
    refine ⟨moves.reading, fun u eq id held => ?_⟩
    by_cases same : u = tid
    · subst same
      obtain ⟨_, _, _, _, ⟨⟨_, rfl⟩, _⟩, inHand⟩ := moves.ended eq
      cases (inHand id _).mpr ⟨held, rfl⟩
    · rw [moves.calls u same] at eq
      exact back u eq id ((moves.steady.holds u same id).mp held)

end FileHash.Htab
