import FileHash.DBCursor
import FileHash.Scans

/-! Going through the keys with the iterators of `DBCursor.h`. A `for` loop over them sees the keys
that a cursor comes by, each once; a first key that cannot be read is taken for the end. -/
namespace FileHash.DBKeyIterator

open Lib (Prog)
open Htab (Crs CursorReply Image Loose Pair Poised Position StandsAt hashCursor cursorCall_steps
  cursorCloseCall_returns)

variable {h₀ hashp hashp' : Htab} {img : Image h₀} {crs : Crs} {pos : Position} {κ : Type}
  {reps : DBCursorReps} {handles : List Nat} {c : Nat}

section Objects

theorem alive_returns {α β : Type} {a : α} {b : β} {k : α → Run β} (rest : (k a).Returns hashp b hashp') :
    (DBCursor.alive (some a) >>= k).Returns hashp b hashp' :=
  (Prog.returns_pure.mpr ⟨rfl, rfl⟩ : (DBCursor.alive (some a)).Returns hashp a hashp).bind.mpr rest

theorem cursor_returns {cursor : Option Crs} (here : reps.within c = some cursor) :
    (DBCursor.cursor reps c).Returns hashp cursor hashp := by
  obtain ⟨rep, there, rfl⟩ := Option.map_eq_some_iff.mp here
  rw [DBCursor.cursor, there]
  exact alive_returns (Prog.returns_pure.mpr ⟨rfl, rfl⟩)

/-- A `DBCursor` that shares its cursor, or has none, goes without a call. -/
theorem destroy_returns (exact_ : reps.Exact (c :: handles)) (quiet : c ∈ handles ∨ reps.within c = some none) :
    ∃ reps', (DBCursor.destroy reps c).Returns hashp reps' hashp ∧ reps'.Exact handles ∧
      ∀ d ∈ handles, reps'.within d = reps.within d := by
  obtain ⟨gone, reps', released, exact', _, last⟩ := exact_.release
  obtain ⟨was, frame⟩ := Lib.Cells.within_release released
  refine ⟨reps', ?_, exact', fun d mem => frame d ?_⟩
  · rw [DBCursor.destroy, released]
    refine alive_returns ?_
    rcases gone with _ | _ | crs
    · exact Prog.returns_pure.mpr ⟨rfl, rfl⟩
    · exact Prog.returns_pure.mpr ⟨rfl, rfl⟩
    · have empty := quiet.resolve_left (last.mp rfl)
      rw [was (some crs) rfl] at empty
      cases empty
  · cases gone with
    | none => exact .inl rfl
    | some cursor => exact .inr fun same => last.mp rfl (same ▸ mem)

/-- The last `DBCursor` closes the cursor. -/
theorem destroy_closes (exact_ : reps.Exact [c]) (here : reps.within c = some (some crs))
    (close : (Htab.cursorCloseCall crs).Returns hashp () hashp') :
    ∃ reps', (DBCursor.destroy reps c).Returns hashp reps' hashp' := by
  obtain ⟨gone, reps', released, _, _, last⟩ := exact_.release
  obtain ⟨cursor, rfl⟩ := Option.isSome_iff_exists.mp (last.mpr List.not_mem_nil)
  rw [(Lib.Cells.within_release released).1 cursor rfl] at here
  cases here
  refine ⟨reps', ?_⟩
  rw [DBCursor.destroy, released]
  exact alive_returns (close.bind.mpr (Prog.returns_pure.mpr ⟨rfl, rfl⟩))

theorem new_returns (exact_ : reps.Exact handles) (cursor : Option Crs) (arg : κ) (endflag : Int) :
    ∃ reps' it, (new reps cursor arg endflag).Returns hashp (reps', it) hashp ∧ it.keyvalue_ = arg ∧
      it.endflag_ = endflag ∧ reps'.Exact (it.cursor_ :: handles) ∧ reps'.within it.cursor_ = some cursor ∧
      ∀ d ∈ handles, reps'.within d = reps.within d := by
  have made := (exact_.make cursor).1
  obtain ⟨shared, share, exact', _⟩ := made.share List.mem_cons_self
  obtain ⟨reps', drop, exact'', same⟩ := @destroy_returns hashp _ _ _ exact' (.inl List.mem_cons_self)
  have within := Lib.Cells.within_share share
  refine ⟨reps', ⟨(reps.make cursor).1, arg, endflag⟩, ?_, rfl, rfl, exact'', ?_, fun d mem => ?_⟩
  · change (DBCursor.copy _ _ >>= _).Returns _ _ _
    rw [DBCursor.copy, share]
    exact alive_returns (drop.bind.mpr (Prog.returns_pure.mpr ⟨rfl, rfl⟩))
  · rw [same _ List.mem_cons_self, within, Lib.Cells.within_made]
  · obtain ⟨entry, there, _⟩ := exact_.there mem
    rw [same d (List.mem_cons_of_mem _ mem), within, Lib.Cells.within_make _ (Lib.Cells.lt_of_cell there)]

theorem atEnd_returns [BEq κ] (tmp : κ) (it : DBKeyIterator κ) (exact_ : reps.Exact [it.cursor_]) :
    ∃ reps', (atEnd tmp reps it).Returns hashp (decide (it.endflag_ = 1), reps') hashp ∧
      reps'.Exact [it.cursor_] ∧ reps'.within it.cursor_ = reps.within it.cursor_ := by
  obtain ⟨made, last, run, _, flag, exact', none, same⟩ := @new_returns hashp _ _ _ exact_ Option.none tmp 1
  obtain ⟨reps', drop, exact'', same'⟩ := @destroy_returns hashp _ _ _ exact' (.inr none)
  have kept := same _ List.mem_cons_self
  obtain ⟨entry, there, _⟩ := exact_.there List.mem_cons_self
  have here : made.within it.cursor_ = some entry.item := by
    rw [kept, Lib.Cells.within, there]
    rfl
  refine ⟨reps', ?_, exact'', (same' _ List.mem_cons_self).trans kept⟩
  refine (run : (end_ tmp reps).Returns hashp (made, last) hashp).bind.mpr ?_
  have compare : (equal made it last).Returns hashp (decide (it.endflag_ = 1)) hashp := by
    refine (cursor_returns here).bind.mpr ((cursor_returns none).bind.mpr ?_)
    rw [if_neg (by simp)]
    exact Prog.returns_pure.mpr ⟨by simp [flag], rfl⟩
  exact compare.bind.mpr (drop.bind.mpr (Prog.returns_pure.mpr ⟨rfl, rfl⟩))

end Objects

section Loops

def keysOf (ck : Serializable κ) : List Pair → Option (List κ)
  | [] => some []
  | x :: l => do
    let k ← ck.readObject x.1
    let keys ← keysOf ck l
    pure (k :: keys)

structure Alone (reps : DBCursorReps) (it : DBKeyIterator κ) (crs : Crs) : Prop where
  counted : reps.Exact [it.cursor_]
  here : reps.within it.cursor_ = some (some crs)

/-- What `++` makes of an iterator: it is on the next key, or at the end. -/
inductive Stepped (img : Image h₀) (ck : Serializable κ) (it : DBKeyIterator κ) (hashp : Htab) :
    List Pair → DBCursorReps × DBKeyIterator κ → Prop
  | key {reps : DBCursorReps} {crs : Crs} {y : Htab.Spot} {k : κ} (alone : Alone reps { it with keyvalue_ := k } crs)
      (stands : StandsAt img hashp crs y) (read : ck.readObject (img.pair y.page y.slot).1 = some k) :
      Stepped img ck it hashp (img.pair y.page y.slot :: img.left (.on y)) (reps, { it with keyvalue_ := k })
  | last {reps : DBCursorReps} {crs : Crs} (alone : Alone reps { it with endflag_ := 1 } crs)
      (loose : Loose img hashp crs) :
      Stepped img ck it hashp [] (reps, { it with endflag_ := 1 })

theorem Alone.move {it : DBKeyIterator κ} (alone : Alone reps it crs) (crs' : Crs) (y : DBKeyIterator κ)
    (same : y.cursor_ = it.cursor_) : ∃ reps', (do
      let reps ← DBCursor.alive (reps.put it.cursor_ (some crs'))
      pure (reps, y) : Run (DBCursorReps × DBKeyIterator κ)).Returns hashp (reps', y) hashp ∧ Alone reps' y crs' := by
  obtain ⟨_, _, _, _, puts⟩ := alone.counted.put List.mem_cons_self
  obtain ⟨reps', put, counted, _⟩ := puts (some crs')
  refine ⟨reps', ?_, by rw [same]; exact counted, ?_⟩
  · rw [put]
    exact alive_returns (Prog.returns_pure.mpr ⟨rfl, rfl⟩)
  · rw [Lib.Cells.within_put put, if_pos same]

theorem increment_steps (whole : img.Whole) (searches : img.Searches) (ck : Serializable κ) {it : DBKeyIterator κ}
    (alone : Alone reps it crs) (h : Poised img hashp crs pos) (live : pos ≠ .ended) :
    (∃ r hashp', (increment ck reps it).Returns hashp r hashp' ∧ Stepped img ck it hashp' (img.left pos) r) ∨
      ∃ x l, img.left pos = x :: l ∧ ck.readObject x.1 = none ∧ (increment ck reps it).Halts hashp .exit := by
  have ours : ∀ room, some 0 = some room → room = 0 := fun room same => (Option.some.inj same).symm
  obtain ⟨r, mid, call, reply⟩ := cursorCall_steps whole searches h live ours
  have enters : ∀ {r hashp'}, (getNextKey ck reps it crs).Returns hashp r hashp' →
      (increment ck reps it).Returns hashp r hashp' := fun run => (cursor_returns alone.here).bind.mpr run
  generalize img.left pos = l at reply
  cases reply with
  | @pair crs' y stands =>
    cases read : ck.readObject (img.pair y.page y.slot).1 with
    | none =>
      refine .inr ⟨_, _, rfl, read, (cursor_returns alone.here).halts (call.halts ?_)⟩
      obtain ⟨hashp', close, _⟩ := cursorCloseCall_returns stands.loose
      rw [if_pos rfl, show ck.readObject (img.given y.page y.slot (some 0)).1 = none from read]
      exact close.halts rfl
    | some k =>
      obtain ⟨reps', run, alone'⟩ := @Alone.move mid _ _ _ _ alone crs' { it with keyvalue_ := k } rfl
      refine .inl ⟨_, mid, enters (call.bind.mpr ?_), .key alone' stands read⟩
      rw [if_pos rfl, show ck.readObject (img.given y.page y.slot (some 0)).1 = some k from read]
      exact run
  | @done crs' ended serves =>
    obtain ⟨reps', run, alone'⟩ := @Alone.move mid _ _ _ _ alone crs' { it with endflag_ := 1 } rfl
    refine .inl ⟨_, mid, enters (call.bind.mpr ?_), .last alone' (ended.loose serves)⟩
    rw [if_neg (show ¬ffdbNotFound = (0 : Int) by decide), if_pos rfl]
    exact run

theorem keysOf_cons {ck : Serializable κ} {x : Pair} {k : κ} (read : ck.readObject x.1 = some k) (l : List Pair) :
    keysOf ck (x :: l) = (keysOf ck l).map (k :: ·) := by
  rw [keysOf, read]
  cases keysOf ck l <;> rfl

theorem loop_over [BEq κ] (ck : Serializable κ) (tmp : κ) {it : DBKeyIterator κ} (counted : reps.Exact [it.cursor_])
    (flag : it.endflag_ = 1) (fuel : Nat) : ∃ reps',
      (loop ck tmp (fuel + 1) reps it).Returns hashp ([], reps', it) hashp ∧ reps'.Exact [it.cursor_] ∧
        reps'.within it.cursor_ = reps.within it.cursor_ := by
  obtain ⟨reps', test, counted', here⟩ := @atEnd_returns hashp _ _ _ tmp it counted
  refine ⟨reps', test.bind.mpr ?_, counted', here⟩
  rw [flag]
  exact Prog.returns_pure.mpr ⟨rfl, rfl⟩

/-- The loop from an iterator that is on a key, with the pairs in `l` still to come. -/
theorem loop_runs [BEq κ] (whole : img.Whole) (searches : img.Searches) (ck : Serializable κ) (tmp : κ)
    {it : DBKeyIterator κ} (alone : Alone reps it crs) (flag : it.endflag_ = 0) (l : List Pair)
    (h : Poised img hashp crs pos) (live : pos ≠ .ended) (left : img.left pos = l) (fuel : Nat)
    (enough : l.length + 1 < fuel) :
    (∀ keys, keysOf ck l = some keys → ∃ reps' it' crs' hashp',
      (loop ck tmp fuel reps it).Returns hashp (it.keyvalue_ :: keys, reps', it') hashp' ∧
        Alone reps' it' crs' ∧ Loose img hashp' crs') ∧
      (keysOf ck l = none → (loop ck tmp fuel reps it).Halts hashp .exit) := by
  induction l generalizing hashp reps it crs pos fuel with
  | nil =>
    obtain ⟨fuel, rfl⟩ : ∃ n, fuel = n + 2 := Nat.exists_eq_add_of_le' enough
    obtain ⟨reps₁, test, counted, here⟩ := @atEnd_returns hashp _ _ _ tmp it alone.counted
    refine ⟨fun keys none => ?_, fun none => absurd none (by simp [keysOf])⟩
    cases none
    rcases increment_steps whole searches ck ⟨counted, here.trans alone.here⟩ h live with
      ⟨r, mid, next, stepped⟩ | ⟨x, l, more, _⟩
    · rw [left] at stepped
      cases stepped with
      | last alone' loose =>
        obtain ⟨reps', rest, counted', here'⟩ := @loop_over mid _ _ _ ck tmp _ alone'.counted rfl fuel
        refine ⟨reps', _, _, mid, test.bind.mpr ?_, ⟨counted', here'.trans alone'.here⟩, loose⟩
        rw [flag]
        exact next.bind.mpr (rest.bind.mpr (Prog.returns_pure.mpr ⟨rfl, rfl⟩))
    · rw [left] at more
      cases more
  | cons x l ih =>
    obtain ⟨fuel, rfl⟩ := Nat.exists_eq_succ_of_ne_zero (Nat.ne_zero_of_lt enough)
    obtain ⟨reps₁, test, counted, here⟩ := @atEnd_returns hashp _ _ _ tmp it alone.counted
    rcases increment_steps whole searches ck ⟨counted, here.trans alone.here⟩ h live with
      ⟨r, mid, next, stepped⟩ | ⟨z, l', more, bad, stops⟩
    · rw [left] at stepped
      cases stepped with
      | @key reps₂ crs₂ y k alone' stands read =>
        obtain ⟨comes, stops⟩ := @ih mid crs₂ (.on y) reps₂ { it with keyvalue_ := k } alone' flag stands (by simp) rfl
          fuel (Nat.lt_of_succ_lt_succ enough)
        refine ⟨fun keys all => ?_, fun bad => test.halts ?_⟩
        · rw [keysOf_cons read] at all
          obtain ⟨rest, more, rfl⟩ := Option.map_eq_some_iff.mp all
          obtain ⟨reps', it', crs', hashp', run, alone'', loose⟩ := comes rest more
          refine ⟨reps', it', crs', hashp', test.bind.mpr ?_, alone'', loose⟩
          rw [flag]
          exact next.bind.mpr (run.bind.mpr (Prog.returns_pure.mpr ⟨rfl, rfl⟩))
        · rw [keysOf_cons read, Option.map_eq_none_iff] at bad
          rw [flag]
          exact next.halts (stops bad).bind
    · rw [left] at more
      cases more
      refine ⟨fun keys all => ?_, fun _ => test.halts ?_⟩
      · simp [keysOf, bad] at all
      · rw [flag]
        exact stops.bind

theorem Alone.close {it : DBKeyIterator κ} (alone : Alone reps it crs) (loose : Loose img hashp crs) :
    ∃ reps' hashp', (DBCursor.destroy reps it.cursor_).Returns hashp reps' hashp' ∧ img.Serves hashp' := by
  obtain ⟨hashp', close, serves⟩ := cursorCloseCall_returns loose
  obtain ⟨reps', run⟩ := destroy_closes alone.counted alone.here close
  exact ⟨reps', hashp', run, serves⟩

/-- A `for` loop sees the keys of all pairs, in the order of the buckets, and closes its cursor. If
the first key cannot be read it sees none, and its cursor stays open on that pair; if another cannot,
the process ends. -/
theorem forEach_sees [BEq κ] (whole : img.Whole) (searches : img.Searches) (ck : Serializable κ) (tmp : κ)
    (h : img.Serves hashp) (fuel : Nat) (enough : img.pairs.length < fuel) :
    (∀ keys, keysOf ck img.pairs = some keys → ∃ hashp',
      (forEach ck tmp fuel).Returns hashp (keys, none) hashp' ∧ img.Serves hashp') ∧
    ∀ x l, img.pairs = x :: l → keysOf ck img.pairs = none →
      (ck.readObject x.1 = none → ∃ crs y hashp', (forEach ck tmp fuel).Returns hashp ([], some crs) hashp' ∧
        StandsAt img hashp' crs y ∧ img.pair y.page y.slot = x) ∧
      ((ck.readObject x.1).isSome → (forEach ck tmp fuel).Halts hashp .exit) := by
  have ours : ∀ room, some 0 = some room → room = 0 := fun room same => (Option.some.inj same).symm
  have fresh : Poised img hashp (hashCursor true) .fresh := ⟨rfl, h⟩
  obtain ⟨r, mid, call, reply⟩ := cursorCall_steps whole searches fresh (by simp) ours
  obtain ⟨fuel, rfl⟩ := Nat.exists_eq_succ_of_ne_zero (Nat.ne_zero_of_lt enough)
  change CursorReply img (some 0) mid img.pairs r at reply
  generalize img.pairs = l at reply enough
  cases reply with
  | @pair crs y stands =>
    cases read : ck.readObject (img.pair y.page y.slot).1 with
    | none =>
      have none_ : keysOf ck (img.pair y.page y.slot :: img.left (.on y)) = none := by simp [keysOf, read]
      refine ⟨fun keys all => absurd (none_.symm.trans all) (by simp), ?_⟩
      rintro x l ⟨⟩ _
      refine ⟨fun _ => ?_, fun some => absurd some (by simp [read])⟩
      obtain ⟨reps₁, it, made, _, flag, counted, empty, _⟩ :=
        @new_returns mid _ _ _ (Lib.Cells.Exact.nil : Lib.Cells.Exact ([] : DBCursorReps) []) none tmp 1
      obtain ⟨reps₂, past, counted', same⟩ := @loop_over mid _ _ _ ck tmp it counted flag fuel
      obtain ⟨reps₃, drop, _⟩ := @destroy_returns mid _ _ _ counted' (.inr (same.trans empty))
      have begins : (init ck tmp []).Returns hashp (reps₁, it, some crs) mid := by
        refine call.bind.mpr ?_
        rw [if_pos rfl, show ck.readObject (img.given y.page y.slot (some 0)).1 = none from read]
        exact made.bind.mpr (Prog.returns_pure.mpr ⟨rfl, rfl⟩)
      refine ⟨crs, y, mid, begins.bind.mpr (past.bind.mpr (drop.bind.mpr ?_)), stands, rfl⟩
      exact Prog.returns_pure.mpr ⟨rfl, rfl⟩
    | some k =>
      obtain ⟨reps₁, it, made, key, flag, counted, here, _⟩ :=
        @new_returns mid _ _ _ (Lib.Cells.Exact.nil : Lib.Cells.Exact ([] : DBCursorReps) []) (some crs) k 0
      have begins : (init ck tmp []).Returns hashp (reps₁, it, none) mid := by
        refine call.bind.mpr ?_
        rw [if_pos rfl, show ck.readObject (img.given y.page y.slot (some 0)).1 = some k from read]
        exact made.bind.mpr (Prog.returns_pure.mpr ⟨rfl, rfl⟩)
      obtain ⟨comes, stops⟩ := @loop_runs _ mid _ _ (.on y) _ _ _ whole searches ck tmp it ⟨counted, here⟩ flag
        (img.left (.on y)) stands (by simp) rfl (fuel + 1) enough
      rw [keysOf_cons read]
      refine ⟨fun keys all => ?_, ?_⟩
      · obtain ⟨rest, more, rfl⟩ := Option.map_eq_some_iff.mp all
        obtain ⟨reps₂, it', crs', last, run, alone, loose⟩ := comes rest more
        obtain ⟨reps₃, hashp', close, serves⟩ := alone.close loose
        refine ⟨hashp', begins.bind.mpr (run.bind.mpr (close.bind.mpr (Prog.returns_pure.mpr ⟨?_, rfl⟩))), serves⟩
        rw [key]
      · rintro x l ⟨⟩ bad
        refine ⟨fun none => absurd (read.symm.trans none) (by simp), fun _ => begins.halts (stops ?_).bind⟩
        exact Option.map_eq_none_iff.mp bad
  | @done crs ended serves =>
    refine ⟨fun keys none_ => ?_, fun x l more => absurd more (by simp)⟩
    cases none_
    obtain ⟨reps₁, it, made, _, flag, counted, here, _⟩ :=
      @new_returns mid _ _ _ (Lib.Cells.Exact.nil : Lib.Cells.Exact ([] : DBCursorReps) []) (some crs) tmp 1
    have begins : (init ck tmp []).Returns hashp (reps₁, it, none) mid := by
      refine call.bind.mpr ?_
      rw [if_neg (show ¬ffdbNotFound = (0 : Int) by decide), if_pos rfl]
      exact made.bind.mpr (Prog.returns_pure.mpr ⟨rfl, rfl⟩)
    obtain ⟨reps₂, past, counted', same⟩ := @loop_over mid _ _ _ ck tmp it counted flag fuel
    have alone : Alone reps₂ it crs := ⟨counted', same.trans here⟩
    obtain ⟨reps₃, hashp', close, serves'⟩ := alone.close (ended.loose serves)
    exact ⟨hashp', begins.bind.mpr (past.bind.mpr (close.bind.mpr (Prog.returns_pure.mpr ⟨rfl, rfl⟩))), serves'⟩

end Loops

section Examples

theorem forEach_sees_three : ∃ hashp', (forEach binaryForm [] 4).Returns
    (Htab.tableOn Htab.oneBucket Htab.smallHdr 6 Htab.threePairs) ([[7], [8, 9], [1]], none) hashp' := by
  have order := Htab.threePairs_inOrder
  have keys : keysOf binaryForm Htab.threePairsImage.pairs = some [[7], [8, 9], [1]] := by
    rw [Htab.threePairs_pairs]
    rfl
  obtain ⟨hashp', run, _⟩ := (forEach_sees order.whole order.searches binaryForm [] Htab.threePairs_serves 4
    (by rw [Htab.threePairs_pairs]; decide)).1 [[7], [8, 9], [1]] keys
  exact ⟨hashp', run⟩

end Examples

end FileHash.DBKeyIterator
