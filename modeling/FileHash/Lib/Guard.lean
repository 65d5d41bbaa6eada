import FileHash.Lib.Prog

/-! Guards: what the trace of a run shows, beside where the run ends. A guarded program shows
safe events alone as long as its run is described by admitted ones, so that a call which ends
the process half way through is covered as well. -/
namespace FileHash.Lib.Prog

variable {σ τ ε α β : Type} {adm safe : ε → Prop} {P P' : σ → Prop}
  {Q Q' : α → σ → Prop}

/-- From `P`, a run through admitted events passes through safe ones alone, whether it returns
or not, and if it returns it ends in `Q`. -/
def Guarded (adm safe : ε → Prop) (P : σ → Prop) (m : Prog σ ε α) (Q : α → σ → Prop) : Prop :=
  ∀ s, P s → Passes adm m s → Passes safe m s ∧ ∀ a s', m.Returns s a s' → Q a s'

theorem guarded_mono {m : Prog σ ε α} (h : Guarded adm safe P m Q) (before : ∀ s, P' s → P s)
    (after : ∀ a s, Q a s → Q' a s) : Guarded adm safe P' m Q' := by
  intro s pre good
  obtain ⟨passes, post⟩ := h s (before s pre) good
  exact ⟨passes, fun a s' run => after a s' (post a s' run)⟩

theorem guarded_pure {a : α} (h : ∀ s, P s → Q a s) : Guarded adm safe P (pure a : Prog σ ε α) Q := by
  intro s pre _
  refine ⟨passes_pure a, fun b s' run => ?_⟩
  obtain ⟨rfl, rfl⟩ := returns_pure.mp run
  exact h s pre

theorem guarded_halt (why : Halt) : Guarded adm safe P (halt why : Prog σ ε α) Q :=
  fun _ _ _ => ⟨passes_halt why, fun _ _ run => absurd run returns_halt⟩

theorem guarded_read_bind {k : σ → Prog σ ε α}
    (rest : ∀ s, P s → Guarded adm safe (fun t => t = s ∧ P t) (k s) Q) :
    Guarded adm safe P (read >>= k) Q :=
  fun s pre good => rest s pre s ⟨rfl, pre⟩ good

theorem guarded_reads_bind {f : σ → β} {k : β → Prog σ ε α}
    (rest : ∀ s, P s → Guarded adm safe (fun t => t = s ∧ P t) (k (f s)) Q) :
    Guarded adm safe P (reads f >>= k) Q :=
  fun s pre good => rest s pre s ⟨rfl, pre⟩ good

theorem guarded_modify {f : σ → σ} {Q : Unit → σ → Prop} (h : ∀ s, P s → Q () (f s)) :
    Guarded adm safe P (modify f : Prog σ ε Unit) Q := by
  intro s pre _
  refine ⟨passes_modify f, fun u s' run => ?_⟩
  rw [← returns_modify.mp run]
  exact h s pre

theorem guarded_mark {e : ε} {Q : Unit → σ → Prop} (h : adm e → ∀ s, P s → safe e ∧ Q () s) :
    Guarded adm safe P (mark e : Prog σ ε Unit) Q := by
  intro s pre good
  obtain ⟨fine, post⟩ := h (good e List.mem_cons_self) s pre
  refine ⟨passes_mark fine, fun u s' run => ?_⟩
  cases run
  exact post

theorem guarded_quiet {m : Prog σ ε α}
    (h : ∀ s, P s → (∃ a s', m.run s = (.ok a s', []) ∧ Q a s') ∨ ∃ why, m.run s = (.halt why, [])) :
    Guarded adm safe P m Q := by
  intro s pre _
  rcases h s pre with ⟨a, s', run, post⟩ | ⟨why, run⟩
  · refine ⟨fun e mem => ?_, fun b t run' => ?_⟩
    · rw [run] at mem
      exact absurd mem List.not_mem_nil
    · rw [Returns, run] at run'
      cases run'
      exact post
  · refine ⟨fun e mem => ?_, fun b t run' => ?_⟩
    · rw [run] at mem
      exact absurd mem List.not_mem_nil
    · rw [Returns, run] at run'
      cases run'

theorem guarded_bind {m : Prog σ ε α} {k : α → Prog σ ε β} {R : β → σ → Prop}
    (first : Guarded adm safe P m Q) (rest : ∀ a, Guarded adm safe (Q a) (k a) R) :
    Guarded adm safe P (m >>= k) R := by
  intro s pre good
  obtain ⟨passes, post⟩ := first s pre good.first
  refine ⟨passes_bind passes fun a s' run => (rest a s' (post a s' run) (good.rest run)).1, ?_⟩
  intro b s'' run
  obtain ⟨a, s', run, run'⟩ := returns_bind.mp run
  exact (rest a s' (post a s' run) (good.rest run)).2 b s'' run'

theorem guarded_ite {p : Prop} [Decidable p] {m n : Prog σ ε α} (yes : p → Guarded adm safe P m Q)
    (no : ¬p → Guarded adm safe P n Q) : Guarded adm safe P (if p then m else n) Q := by
  split
  · exact yes ‹_›
  · exact no ‹_›

theorem guarded_and {m : Prog σ ε α} {R : α → σ → Prop} (h : Guarded adm safe P m Q)
    (also : ∀ s a s', P s → m.Returns s a s' → R a s') : Guarded adm safe P m fun a s => Q a s ∧ R a s := by
  intro s pre good
  obtain ⟨passes, post⟩ := h s pre good
  exact ⟨passes, fun a s' run => ⟨post a s' run, also s a s' pre run⟩⟩

theorem passes_of_zoom {get : τ → σ} {set : σ → τ → τ} {m : Prog σ ε α} {t : τ}
    (h : Passes adm (zoom get set m) t) : Passes adm m (get t) := by
  intro e mem
  refine h e ?_
  rcases run : m.run (get t) with ⟨_ | _, tr⟩
  all_goals
    rw [run] at mem
    simp only [zoom, run]
    exact mem

theorem guarded_zoom {get : τ → σ} {set : σ → τ → τ} {m : Prog σ ε α} {P : τ → Prop} {Q : α → τ → Prop}
    (h : ∀ t, P t → Guarded adm safe (fun s => s = get t) m fun a s => Q a (set s t)) :
    Guarded adm safe P (zoom get set m) Q := by
  intro t pre good
  obtain ⟨passes, post⟩ := h t pre (get t) rfl (passes_of_zoom good)
  refine ⟨passes_zoom passes, fun a t' run => ?_⟩
  obtain ⟨s', run', rfl⟩ := returns_zoom.mp run
  exact post a s' run'

end FileHash.Lib.Prog
