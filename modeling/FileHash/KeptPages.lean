import FileHash.Readers

/-! A get that keeps a page pinned blocks the next get of its key, so that fair gets are
exactly those that any number of threads can run without coming to a stop. -/
namespace FileHash.Htab

open Lib (Prog Script)
open Page

variable {h₀ : Htab} {img : Image h₀} {ends : Ending} {s s₀ s' : Readers} {tid : Nat} {call : Call}
  {asks : Dbt → Nat → Prop}

structure Alone (asks : Dbt → Nat → Prop) (img : Image h₀) (ends : Ending) (s : Readers) (tid : Nat)
    (s' : Readers) (call : Call) : Prop where
  run : Readers.Reaches h₀ asks s'
  reading : Reading img ends s'
  steady : Steady s.threads s'.threads tid
  others : ∀ u, u ≠ tid → s'.calls u = s.calls u
  calls : s'.calls tid = some call
  stops : (∃ r, call.rest = .done r) ∨ s'.step tid = none

theorem Alone.after {call' : Call} (h : Alone asks img ends s' tid s call')
    (steady : Steady s₀.threads s'.threads tid) (others : ∀ u, u ≠ tid → s'.calls u = s₀.calls u) :
    Alone asks img ends s₀ tid s call' :=
  ⟨h.run, h.reading, steady.trans h.steady, fun u other => (h.others u other).trans (others u other),
    h.calls, h.stops⟩

theorem Reading.alone {m : Job (Int × List UInt8)} (h : Reading img ends s)
    (run : Readers.Reaches h₀ asks s) (calls : s.calls tid = some call) (left : call.rest = m)
    (free : s.threads.waiting tid = none) : ∃ s' call', Alone asks img ends s tid s' call' := by
  induction m generalizing s call with
  | done r => exact ⟨s, call, run, h, steady_refl, fun _ _ => rfl, calls, .inl ⟨r, left⟩⟩
  | ask op next ih =>
    -- one operation further, it goes on alone by induction
    have further : ∀ s₁, Readers.Reaches h₀ asks s₁ → Reading img ends s₁ →
        Steady s.threads s₁.threads tid → (∀ u, u ≠ tid → s₁.calls u = s.calls u) →
        s₁.On tid call → ∃ s' call', Alone asks img ends s tid s' call' := by
      rintro s₁ run₁ reading₁ steady₁ others₁ ⟨rest, after, calls₁, free₁⟩
      rw [left] at after
      cases after with
      | ask _ _ ans =>
        obtain ⟨s', call', alone⟩ := ih ans reading₁ run₁ calls₁ rfl free₁
        exact ⟨s', call', alone.after steady₁ others₁⟩
    obtain ⟨s₁, moves, on | ⟨calls₁, waits⟩⟩ := h.runs_on calls free left
    · exact further s₁ (.step run moves.goes) moves.reading moves.steady moves.calls on
    · have run₁ := Readers.Reaches.step run moves.goes
      cases woken : s₁.step tid with
      | none => exact ⟨s₁, call, run₁, moves.reading, moves.steady, moves.calls, calls₁, .inr woken⟩
      | some s₂ =>
        obtain ⟨moves₂, on⟩ := moves.reading.step_waiting calls₁ waits woken
        exact further s₂ (.step run₁ woken) moves₂.reading (moves.steady.trans moves₂.steady)
          (fun u other => (moves₂.calls u other).trans (moves.calls u other)) on

theorem Readers.begin_idle {key : Dbt} {room : Nat} (alive : tid ≠ 0) (idle : s.calls tid = none) :
    s.begin h₀ tid key room = some { s with
      calls := Function.update s.calls tid (some ⟨key, room, Job.hashGet h₀ key room⟩) } := by
  have able : ¬(tid = 0 ∨ (s.calls tid).isSome) := by simp [alive, idle]
  rw [Readers.begin, if_neg able]

theorem Reading.getAlone (tid : Nat) (h : Reading img ends s) (run : Readers.Reaches h₀ asks s) {key : Dbt}
    {room : Nat} (asked : asks key room)
    (obeys : Script.Obeys (readerRules img) (ends key room) noPage (Job.hashGet h₀ key room))
    (alive : tid ≠ 0) (idle : s.calls tid = none) (bare : ∀ id, tid ∉ s.threads.holds id) :
    ∃ s' call, Alone asks img ends s tid s' call := by
  have begins : s.begin h₀ tid key room = _ := Readers.begin_idle alive idle
  obtain ⟨s', call, alone⟩ := (h.begin obeys bare begins).1.alone (.begin run asked begins)
    (Function.update_self ..) rfl (h.idle tid idle)
  exact ⟨s', call, alone.after steady_refl fun u other => Function.update_of_ne other ..⟩

theorem unfair_blocks (h : Rested img) {key : Dbt} {room : Nat} (asked : asks key room)
    (unfair : ¬img.Fair key room) :
    ∃ s, Readers.Reaches h₀ asks s ∧ (∃ tid, (s.calls tid).isSome) ∧ ∀ tid, s.step tid = none := by
  obtain ⟨d, obeys⟩ := hashGet_keeps h.searchable unfair
  -- the first comes to its end, and keeps page `d`
  obtain ⟨s₁, call, first⟩ := (Reading.start h (keeping d)).getAlone 1 .start asked obeys
    Nat.one_ne_zero rfl fun _ => List.not_mem_nil
  have bare₁ : ∀ u, u ≠ 1 → ∀ id, u ∉ s₁.threads.holds id := fun u other id held =>
    List.not_mem_nil ((first.steady.holds u other id).mp held)
  have ended : ∃ r, call.rest = .done r := by
    refine first.stops.resolve_right fun stuck => ?_
    have back : s₁.Back := fun u idle => by
      refine bare₁ u ?_
      rintro rfl
      rw [first.calls] at idle
      cases idle
    obtain ⟨u, busy, goes⟩ := first.reading.goesOn back ⟨1, by rw [first.calls]; rfl⟩
    by_cases same : u = 1
    · rw [same, stuck] at goes
      cases goes
    · rw [first.others u same] at busy
      cases busy
  obtain ⟨r, rest⟩ := ended
  obtain ⟨s₂, moves, idle⟩ := first.reading.runs_done first.calls rest
  obtain ⟨_, _, _, hand, ⟨id, inHand⟩, holding⟩ := moves.ended idle
  obtain ⟨held, number⟩ := (holding id d).mp inHand
  have none₂ : ∀ u, s₂.calls u = none := by
    intro u
    by_cases same : u = 1
    · rw [same]
      exact idle
    · exact (moves.calls u same).trans (first.others u same)
  -- the second comes to the same page, and waits for it
  obtain ⟨s₃, call', second⟩ := moves.reading.getAlone 2 (.step first.run moves.goes) asked obeys
    (by decide) (none₂ 2) fun id held => bare₁ 2 (by decide) id
      ((moves.steady.holds 2 (by decide) id).mp held)
  have stuck : s₃.step 2 = none := by
    refine second.stops.resolve_left fun ⟨r, rest⟩ => ?_
    obtain ⟨hand', busy⟩ := second.reading.busy 2 call' second.calls
    have obeys' := busy.obeys
    rw [rest] at obeys'
    obtain ⟨id', inHand'⟩ := obeys'
    obtain ⟨held', number'⟩ := (busy.inHand id' d).mp inHand'
    have held₃ := (second.steady.holds 1 (by decide) id).mpr held
    have number₃ := (second.steady.pgno 1 (by decide) id (.inl held)).trans number
    have here := (second.reading.protocol.of_held held₃).1
    have there := (second.reading.protocol.of_held held').1
    have linked := second.reading.pooled.readable.linked
    have same := (linked.find_eq_some.mpr ⟨here, number₃⟩).symm.trans
      (linked.find_eq_some.mpr ⟨there, number'⟩)
    cases same
    have one := (second.reading.protocol.of_held held₃).2.2
    rw [(second.reading.protocol.of_held held').2.2] at one
    cases one
  refine ⟨s₃, second.run, ⟨2, by rw [second.calls]; rfl⟩, fun u => ?_⟩
  by_cases same : u = 2
  · rw [same]
    exact stuck
  · have idle₃ := (second.others u same).trans (none₂ u)
    simp only [Readers.step, idle₃]

/-- Threads that look keys up in one database do not deadlock, and each get returns what it
returns run alone, in every state of every run: exactly if no get comes to an empty value,
or to one that its buffer is too small for. -/
theorem readers_progress (h : Rested img) (asks : Dbt → Nat → Prop) :
    (∀ s, Readers.Reaches h₀ asks s → s.GoesOn ∧ s.Agrees h₀) ↔
      ∀ key room, asks key room → img.Fair key room := by
  constructor
  · intro all key room asked
    by_contra unfair
    obtain ⟨s, run, busy, stuck⟩ := unfair_blocks h asked unfair
    obtain ⟨u, _, goes⟩ := (all s run).1 busy
    rw [stuck u] at goes
    cases goes
  · intro fair s run
    have fairly : Readers.Reaches h₀ img.Fair s := by
      induction run with
      | start => exact .start
      | begin _ asked begins ih => exact .begin ih (fair _ _ asked) begins
      | step _ goes ih => exact .step ih goes
    obtain ⟨reading, back⟩ := reaches_fairly h fairly
    refine ⟨reading.goesOn back, fun r mem => ?_⟩
    obtain ⟨_, ⟨same, _⟩, fair'⟩ := reading.returned r mem
    rw [same]
    exact hashGet_returns h.searchable ⟨h.serves, h.pooled, fun id p eq => by cases eq⟩ fair'


section OnePair

variable {key bytes : List UInt8}

theorem onePair_bucketOf (h : ReadsBack key bytes) (k : Dbt) : (onePairImage h).bucketOf k = 0 := by
  have mask : defaultHdr.highMask = 0 := by decide +kernel
  change defaultHdr.bucketOf _ = 0
  rw [Hashhdr.bucketOf, mask, Nat.and_zero]
  rfl

theorem onePair_rested (h : ReadsBack key bytes) (number : (onePair key bytes 3).currPgno = 3) :
    Rested (onePairImage h) where
  serves := onePair_serves h
  pooled :=
    { readable := (onePair_serves h).readable
      counted := rfl
      tells := (onePair_serves h).tells
      room := (by decide : 5 < maxPageNumber)
      resets := .inr fun id mem => absurd mem List.not_mem_nil }
  searchable :=
    { masks := fun n => by
        have mask : defaultHdr.highMask = 0 := by decide +kernel
        change defaultHdr.bucketOf n ≤ defaultHdr.maxBucket
        rw [Hashhdr.bucketOf, mask, Nat.and_zero]
        exact Nat.zero_le _
      numbered := by
        intro b low p l eq
        obtain rfl : b = 0 := Nat.le_zero.mp low
        cases eq
        exact ⟨number, by decide⟩
      room := by
        intro b low
        obtain rfl : b = 0 := Nat.le_zero.mp low
        exact (by decide +kernel : defaultHdr.bucketToPage 0 < maxPageNumber) }
  protocol := Pagepool.protocol_open

theorem onePair_find (h : ReadsBack key bytes)
    (found : findKey defaults.cmp (Dbt.ofBytes key) (onePair key bytes 3) = some 0) :
    (onePairImage h).find (Dbt.ofBytes key) = some (3, 0) := by
  have here : findKey (tableOn defaults defaultHdr 5 (onePair key bytes)).hCompare (Dbt.ofBytes key)
      ((onePairImage h).view 3) = some 0 := found
  rw [Image.find, onePair_bucketOf]
  exact search_here here

theorem readsBack_empty : ReadsBack [7] [] := by
  constructor <;> decide +kernel

/-- A value of length 0: two threads get its key, and no get can be finished. -/
theorem empty_value_blocks : ∃ img : Image (tableOn defaults defaultHdr 5 (onePair [7] [])),
    Rested img ∧ ∃ s, Readers.Reaches (tableOn defaults defaultHdr 5 (onePair [7] []))
      (fun key room => key = Dbt.ofBytes [7] ∧ room = 0) s ∧
        (∃ tid, (s.calls tid).isSome) ∧ ∀ tid, s.step tid = none := by
  have rested := onePair_rested readsBack_empty (by decide +kernel)
  refine ⟨onePairImage readsBack_empty, rested, unfair_blocks rested ⟨rfl, rfl⟩ fun fair => ?_⟩
  have place := onePair_find readsBack_empty (by decide +kernel)
  exact (fair 3 0 place).1 rfl

theorem one_byte_goes_on : ∃ s s' : Readers,
    (Readers.init (tableOn defaults defaultHdr 5 (onePair [7] [42]))).begin
      (tableOn defaults defaultHdr 5 (onePair [7] [42])) 1 (Dbt.ofBytes [7]) 0 = some s ∧
    s.begin (tableOn defaults defaultHdr 5 (onePair [7] [42])) 2 (Dbt.ofBytes [7]) 8 = some s' ∧
    s'.GoesOn ∧ s'.Agrees (tableOn defaults defaultHdr 5 (onePair [7] [42])) := by
  have rested := onePair_rested readsBack_seven (by decide +kernel)
  have place := onePair_find readsBack_seven (by decide +kernel)
  have fair : ∀ key room, key = Dbt.ofBytes [7] ∧ room ∈ [0, 8] →
      (onePairImage readsBack_seven).Fair key room := by
    rintro _ room ⟨rfl, size⟩ p i found
    rw [place] at found
    cases found
    refine ⟨List.cons_ne_nil _ _, ?_⟩
    rcases List.mem_pair.mp size with rfl | rfl
    · exact .inl rfl
    · exact .inr (by decide)
  have all := (readers_progress rested fun key room => key = Dbt.ofBytes [7] ∧ room ∈ [0, 8]).mpr fair
  refine ⟨_, _, Readers.begin_idle Nat.one_ne_zero rfl, Readers.begin_idle (by decide) rfl, all _ ?_⟩
  refine .begin (.begin .start ⟨rfl, ?_⟩ (Readers.begin_idle Nat.one_ne_zero rfl)) ⟨rfl, ?_⟩
    (Readers.begin_idle (by decide) rfl)
  · exact List.mem_cons_self
  · exact List.mem_cons_of_mem _ List.mem_cons_self

end OnePair

end FileHash.Htab
