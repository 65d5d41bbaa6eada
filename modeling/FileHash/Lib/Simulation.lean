import FileHash.Lib.Prog

/-! One program in step with another. The second runs on a state that stands for the first's in
some other form; they pass through the same events, and end with the same value or in the same way. -/
namespace FileHash.Lib.Prog

variable {σ τ ε α β : Type} {R : σ → τ → Prop} {P P' : σ → Prop} {Q Q' : α → σ → Prop}

/-- From states in `R` of which `P` holds, `n` does what `m` does, and afterwards `Q` holds. -/
def Simulates (R : σ → τ → Prop) (P : σ → Prop) (m : Prog σ ε α) (n : Prog τ ε α) (Q : α → σ → Prop) : Prop :=
  ∀ s t, R s t → P s →
    match m.run s with
    | (.ok a s', e) => ∃ t', n.run t = (.ok a t', e) ∧ R s' t' ∧ Q a s'
    | (.halt why, e) => n.run t = (.halt why, e)

theorem Simulates.returns {m : Prog σ ε α} {n : Prog τ ε α} (h : Simulates R P m n Q) {s s' : σ} {t : τ} {a : α}
    {e : List ε} (rel : R s t) (pre : P s) (run : m.run s = (.ok a s', e)) :
    ∃ t', n.run t = (.ok a t', e) ∧ R s' t' ∧ Q a s' := by
  have step := h s t rel pre
  rwa [run] at step

theorem Simulates.halts {m : Prog σ ε α} {n : Prog τ ε α} (h : Simulates R P m n Q) {s : σ} {t : τ} {why : Halt}
    {e : List ε} (rel : R s t) (pre : P s) (run : m.run s = (.halt why, e)) : n.run t = (.halt why, e) := by
  have step := h s t rel pre
  rwa [run] at step

theorem simulates_mono {m : Prog σ ε α} {n : Prog τ ε α} (h : Simulates R P m n Q) (before : ∀ s, P' s → P s)
    (after : ∀ a s, Q a s → Q' a s) : Simulates R P' m n Q' := by
  intro s t rel pre
  have step := h s t rel (before s pre)
  rcases run : m.run s with ⟨_ | _, e⟩
  · rw [run] at step
    obtain ⟨t', run', rel', post⟩ := step
    exact ⟨t', run', rel', after _ _ post⟩
  · rw [run] at step
    exact step

theorem simulates_pure {a : α} (h : ∀ s, P s → Q a s) :
    Simulates R P (pure a : Prog σ ε α) (pure a : Prog τ ε α) Q :=
  fun s t rel pre => ⟨t, rfl, rel, h s pre⟩

theorem simulates_halt (why : Halt) : Simulates R P (halt why : Prog σ ε α) (halt why : Prog τ ε α) Q :=
  fun _ _ _ _ => rfl

theorem simulates_modify {f : σ → σ} {g : τ → τ} {Q : Unit → σ → Prop}
    (h : ∀ s t, R s t → P s → R (f s) (g t) ∧ Q () (f s)) :
    Simulates R P (modify f : Prog σ ε Unit) (modify g : Prog τ ε Unit) Q :=
  fun s t rel pre => ⟨g t, rfl, h s t rel pre⟩

theorem simulates_read_bind {k : σ → Prog σ ε α} {l : τ → Prog τ ε α}
    (rest : ∀ s t, R s t → P s → Simulates R (fun u => u = s ∧ P u) (k s) (l t) Q) :
    Simulates R P (read >>= k) (read >>= l) Q :=
  fun s t rel pre => rest s t rel pre s t rel ⟨rfl, pre⟩

theorem simulates_bind {m : Prog σ ε β} {n : Prog τ ε β} {k : β → Prog σ ε α} {l : β → Prog τ ε α}
    {M : β → σ → Prop} (first : Simulates R P m n M) (rest : ∀ b, Simulates R (M b) (k b) (l b) Q) :
    Simulates R P (m >>= k) (n >>= l) Q := by
  intro s t rel pre
  rcases run : m.run s with ⟨⟨b, s'⟩ | why, e⟩
  · obtain ⟨t', run', rel', mid⟩ := first.returns rel pre run
    have step := rest b s' t' rel' mid
    rw [run_bind run, run_bind run']
    rcases next : (k b).run s' with ⟨⟨a, s''⟩ | why, e'⟩
    · rw [next] at step
      obtain ⟨t'', run'', rel'', post⟩ := step
      rw [run'']
      exact ⟨t'', rfl, rel'', post⟩
    · rw [next] at step
      rw [step]
  · have run' := first.halts rel pre run
    rw [run_bind_halt run, run_bind_halt run']

theorem simulates_ite {p q : Prop} [Decidable p] [Decidable q] {m m' : Prog σ ε α} {n n' : Prog τ ε α} (same : p ↔ q)
    (yes : p → Simulates R P m n Q) (no : ¬p → Simulates R P m' n' Q) :
    Simulates R P (if p then m else m') (if q then n else n') Q := by
  by_cases h : p
  · rw [if_pos h, if_pos (same.mp h)]
    exact yes h
  · rw [if_neg h, if_neg (mt same.mpr h)]
    exact no h

end FileHash.Lib.Prog
