import Mathlib.Logic.Function.Basic
import Mathlib.Tactic.TypeStar

/-! Sequential programs over an explicit state, with process death and a trace.
A program maps a state to an outcome and the list of events it passed through.
Events are output only: nothing a program does depends on them. `Wp` is the
weakest precondition relative to a set of admitted events, so one specification
serves every set of runs that is described by the branches it avoids. -/
namespace FileHash.Lib

inductive Halt where
  | abort
  | exit
  | assertion
  | segv
  | blocked
  | diverge
  deriving DecidableEq, Repr

inductive Outcome (σ α : Type) where
  | ok (value : α) (state : σ)
  | halt (why : Halt)

structure Prog (σ ε α : Type) where
  run : σ → Outcome σ α × List ε

namespace Prog

variable {σ τ ε α β : Type}

protected def pure (a : α) : Prog σ ε α where
  run s := (.ok a s, [])

protected def bind (m : Prog σ ε α) (k : α → Prog σ ε β) : Prog σ ε β where
  run s :=
    match m.run s with
    | (.ok a s', t) =>
      match (k a).run s' with
      | (r, t') => (r, t ++ t')
    | (.halt h, t) => (.halt h, t)

instance : Monad (Prog σ ε) where
  pure := Prog.pure
  bind := Prog.bind

def read : Prog σ ε σ where
  run s := (.ok s s, [])

def reads (f : σ → α) : Prog σ ε α where
  run s := (.ok (f s) s, [])

def modify (f : σ → σ) : Prog σ ε Unit where
  run s := (.ok () (f s), [])

def mark (e : ε) : Prog σ ε Unit where
  run s := (.ok () s, [e])

def halt (h : Halt) : Prog σ ε α where
  run _ := (.halt h, [])

def zoom (get : τ → σ) (set : σ → τ → τ) (m : Prog σ ε α) : Prog τ ε α where
  run s :=
    match m.run (get s) with
    | (.ok a s', t) => (.ok a (set s' s), t)
    | (.halt h, t) => (.halt h, t)

@[simp] theorem run_pure (a : α) (s : σ) : (pure a : Prog σ ε α).run s = (.ok a s, []) := rfl

@[simp] theorem run_halt (h : Halt) (s : σ) :
    (Prog.halt h : Prog σ ε α).run s = (.halt h, []) := rfl

@[simp] theorem run_modify (f : σ → σ) (s : σ) :
    (modify f : Prog σ ε Unit).run s = (.ok () (f s), []) := rfl

@[simp] theorem run_mark (e : ε) (s : σ) :
    (mark e : Prog σ ε Unit).run s = (.ok () s, [e]) := rfl

theorem run_bind {m : Prog σ ε α} {k : α → Prog σ ε β} {s s' : σ} {a : α} {t : List ε}
    (first : m.run s = (.ok a s', t)) :
    (m >>= k).run s = (((k a).run s').1, t ++ ((k a).run s').2) := by
  change (Prog.bind m k).run s = _
  simp only [Prog.bind, first]

theorem run_bind_halt {m : Prog σ ε α} {k : α → Prog σ ε β} {s : σ} {h : Halt} {t : List ε}
    (first : m.run s = (.halt h, t)) : (m >>= k).run s = (.halt h, t) := by
  change (Prog.bind m k).run s = _
  simp only [Prog.bind, first]

@[simp] theorem run_read_bind (k : σ → Prog σ ε β) (s : σ) :
    (read >>= k).run s = (k s).run s := rfl

@[simp] theorem run_reads_bind (f : σ → α) (k : α → Prog σ ε β) (s : σ) :
    (reads f >>= k).run s = (k (f s)).run s := rfl

@[simp] theorem run_modify_bind (f : σ → σ) (k : Unit → Prog σ ε β) (s : σ) :
    (modify f >>= k).run s = (k ()).run (f s) := rfl

@[simp] theorem run_pure_bind (a : α) (k : α → Prog σ ε β) (s : σ) :
    ((pure a : Prog σ ε α) >>= k).run s = (k a).run s := rfl

@[simp] theorem run_halt_bind (h : Halt) (k : α → Prog σ ε β) (s : σ) :
    ((Prog.halt h : Prog σ ε α) >>= k).run s = (.halt h, []) := rfl

theorem lawful : LawfulMonad (Prog σ ε) := by
  refine .mk' _ (fun m => ?_) (fun a k => ?_) fun m k l => ?_
  · refine congrArg Prog.mk (funext fun s => ?_)
    change (Prog.bind m fun a => Prog.pure a).run s = m.run s
    rcases first : m.run s with ⟨_ | _, t⟩ <;> simp [Prog.bind, Prog.pure, first]
  · refine congrArg Prog.mk (funext fun s => ?_)
    change (Prog.bind (Prog.pure a) k).run s = (k a).run s
    simp [Prog.bind, Prog.pure]
  · refine congrArg Prog.mk (funext fun s => ?_)
    change (Prog.bind (Prog.bind m k) l).run s = (Prog.bind m fun a => Prog.bind (k a) l).run s
    rcases first : m.run s with ⟨⟨a, s'⟩ | _, t⟩
    · rcases next : (k a).run s' with ⟨_ | _, t'⟩ <;> simp [Prog.bind, first, next]
    · simp [Prog.bind, first]

/-- A run that passes only through admitted events returns, and returns in `Q`. -/
def Wp (adm : ε → Prop) (m : Prog σ ε α) (s : σ) (Q : α → σ → Prop) : Prop :=
  (∀ e ∈ (m.run s).2, adm e) → ∃ a s', (m.run s).1 = .ok a s' ∧ Q a s'

variable {adm : ε → Prop} {s : σ}

theorem wp_mono {m : Prog σ ε α} {Q R : α → σ → Prop}
    (h : Wp adm m s Q) (imp : ∀ a s', Q a s' → R a s') : Wp adm m s R := by
  intro good
  obtain ⟨a, s', run, post⟩ := h good
  exact ⟨a, s', run, imp a s' post⟩

theorem wp_pure {a : α} {Q : α → σ → Prop} (h : Q a s) :
    Wp adm (pure a : Prog σ ε α) s Q :=
  fun _ => ⟨a, s, rfl, h⟩

theorem wp_bind {m : Prog σ ε α} {k : α → Prog σ ε β} {Q : β → σ → Prop}
    (h : Wp adm m s (fun a s' => Wp adm (k a) s' Q)) : Wp adm (m >>= k) s Q := by
  intro good
  rcases first : m.run s with ⟨_ | _, t⟩
  case ok a s' =>
    rw [run_bind first] at good ⊢
    obtain ⟨b, s'', run, post⟩ := h (by
      rw [first]
      exact fun e he => good e (List.mem_append_left _ he))
    rw [first] at run
    cases run
    exact post fun e he => good e (List.mem_append_right _ he)
  case halt why =>
    rw [run_bind_halt first] at good
    obtain ⟨a, s', run, _⟩ := h (by rw [first]; exact good)
    rw [first] at run
    cases run

theorem wp_read {Q : σ → σ → Prop} (h : Q s s) : Wp adm (read : Prog σ ε σ) s Q :=
  fun _ => ⟨s, s, rfl, h⟩

theorem wp_reads {f : σ → α} {Q : α → σ → Prop} (h : Q (f s) s) :
    Wp adm (reads f : Prog σ ε α) s Q :=
  fun _ => ⟨f s, s, rfl, h⟩

theorem wp_modify {f : σ → σ} {Q : Unit → σ → Prop} (h : Q () (f s)) :
    Wp adm (modify f : Prog σ ε Unit) s Q :=
  fun _ => ⟨(), f s, rfl, h⟩

theorem wp_mark {e : ε} {Q : Unit → σ → Prop} (h : adm e → Q () s) :
    Wp adm (mark e : Prog σ ε Unit) s Q :=
  fun good => ⟨(), s, rfl, h (good e (List.mem_singleton.mpr rfl))⟩

theorem wp_ite {p : Prop} [Decidable p] {m n : Prog σ ε α} {Q : α → σ → Prop}
    (yes : p → Wp adm m s Q) (no : ¬p → Wp adm n s Q) :
    Wp adm (if p then m else n) s Q := by
  split
  · exact yes ‹_›
  · exact no ‹_›

theorem wp_zoom {get : τ → σ} {set : σ → τ → τ} {m : Prog σ ε α} {t : τ}
    {Q : α → τ → Prop} (h : Wp adm m (get t) (fun a s' => Q a (set s' t))) :
    Wp adm (zoom get set m) t Q := by
  intro good
  rcases first : m.run (get t) with ⟨_ | _, tr⟩
  case ok b s' =>
    simp only [zoom, first] at good ⊢
    obtain ⟨a, s', run, post⟩ := h (by rw [first]; exact good)
    rw [first] at run
    cases run
    exact ⟨_, _, rfl, post⟩
  case halt why =>
    simp only [zoom, first] at good
    obtain ⟨a, s', run, _⟩ := h (by rw [first]; exact good)
    rw [first] at run
    cases run

theorem wp_of_run {m : Prog σ ε α} {Q : α → σ → Prop} {a : α} {s' : σ}
    (run : (m.run s).1 = .ok a s') (post : Q a s') : Wp adm m s Q :=
  fun _ => ⟨a, s', run, post⟩

def SameRun (m m' : Prog σ ε α) (s : σ) : Prop := m.run s = m'.run s

theorem SameRun.refl (m : Prog σ ε α) : SameRun m m s := rfl

theorem sameRun_bind {m : Prog σ ε α} {k k' : α → Prog σ ε β}
    (h : Wp (fun _ => True) m s fun a s' => SameRun (k a) (k' a) s') : SameRun (m >>= k) (m >>= k') s := by
  obtain ⟨a, s', run, same⟩ := h fun _ _ => trivial
  rw [SameRun, run_bind (Prod.ext run rfl), run_bind (Prod.ext run rfl), show (k a).run s' = _ from same]

theorem SameRun.bind {m m' : Prog σ ε α} {k : α → Prog σ ε β} (h : SameRun m m' s) :
    SameRun (m >>= k) (m' >>= k) s := by
  change (Prog.bind m k).run s = (Prog.bind m' k).run s
  simp only [Prog.bind, show m.run s = m'.run s from h]

theorem sameRun_reads {f : σ → α} {k : α → Prog σ ε β} {m : Prog σ ε β} (h : SameRun (k (f s)) m s) :
    SameRun (reads f >>= k) m s := h

def Returns (m : Prog σ ε α) (s : σ) (a : α) (s' : σ) : Prop := (m.run s).1 = .ok a s'

theorem Returns.unique {m : Prog σ ε α} {a b : α} {s' s'' : σ} (h : m.Returns s a s')
    (h' : m.Returns s b s'') : a = b ∧ s' = s'' := by
  unfold Returns at h h'
  rw [h] at h'
  cases h'
  exact ⟨rfl, rfl⟩

theorem returns_bind {m : Prog σ ε α} {k : α → Prog σ ε β} {b : β} {s'' : σ} :
    (m >>= k).Returns s b s'' ↔ ∃ a s', m.Returns s a s' ∧ (k a).Returns s' b s'' := by
  unfold Returns
  constructor
  · intro h
    rcases first : m.run s with ⟨_ | _, t⟩
    case ok a s' =>
      rw [run_bind first] at h
      exact ⟨a, s', rfl, h⟩
    case halt why =>
      rw [run_bind_halt first] at h
      cases h
  · rintro ⟨a, s', first, rest⟩
    rw [run_bind (Prod.ext first rfl)]
    exact rest

theorem Returns.bind {m : Prog σ ε α} {k : α → Prog σ ε β} {a : α} {b : β} {s' s'' : σ}
    (first : m.Returns s a s') : (m >>= k).Returns s b s'' ↔ (k a).Returns s' b s'' := by
  rw [returns_bind]
  constructor
  · rintro ⟨c, t, run, rest⟩
    obtain ⟨rfl, rfl⟩ := run.unique first
    exact rest
  · exact fun rest => ⟨a, s', first, rest⟩

def Halts (m : Prog σ ε α) (s : σ) (why : Halt) : Prop := (m.run s).1 = .halt why

theorem Halts.bind {m : Prog σ ε α} {k : α → Prog σ ε β} {why : Halt} (first : m.Halts s why) :
    (m >>= k).Halts s why := by
  rw [Halts, run_bind_halt (Prod.ext first rfl)]

theorem Returns.halts {m : Prog σ ε α} {k : α → Prog σ ε β} {a : α} {s' : σ} {why : Halt}
    (first : m.Returns s a s') (rest : (k a).Halts s' why) : (m >>= k).Halts s why := by
  rw [Halts, run_bind (Prod.ext first rfl)]
  exact rest

@[simp] theorem returns_pure {a b : α} {s' : σ} :
    (pure a : Prog σ ε α).Returns s b s' ↔ a = b ∧ s = s' := by
  simp [Returns]

@[simp] theorem returns_halt {why : Halt} {a : α} {s' : σ} :
    ¬(Prog.halt why : Prog σ ε α).Returns s a s' := by
  simp [Returns]

@[simp] theorem returns_read {s' s'' : σ} :
    (read : Prog σ ε σ).Returns s s' s'' ↔ s = s' ∧ s = s'' := by
  simp [Returns, read]

@[simp] theorem returns_modify {f : σ → σ} {u : Unit} {s' : σ} :
    (modify f : Prog σ ε Unit).Returns s u s' ↔ f s = s' := by
  simp [Returns, modify]

@[simp] theorem returns_read_bind {k : σ → Prog σ ε β} {b : β} {s' : σ} :
    (read >>= k).Returns s b s' ↔ (k s).Returns s b s' := Iff.rfl

theorem returns_mark_bind {e : ε} {k : Unit → Prog σ ε β} {b : β} {s' : σ} :
    (mark e >>= k).Returns s b s' ↔ (k ()).Returns s b s' :=
  Returns.bind (show (mark e : Prog σ ε Unit).Returns s () s from rfl)

@[simp] theorem returns_modify_bind {f : σ → σ} {k : Unit → Prog σ ε β} {b : β} {s' : σ} :
    (modify f >>= k).Returns s b s' ↔ (k ()).Returns (f s) b s' := Iff.rfl

theorem returns_zoom {get : τ → σ} {set : σ → τ → τ} {m : Prog σ ε α} {t t' : τ} {a : α} :
    (zoom get set m).Returns t a t' ↔ ∃ s', m.Returns (get t) a s' ∧ set s' t = t' := by
  unfold Returns
  rcases first : m.run (get t) with ⟨_ | _, tr⟩
  case ok b s' =>
    simp only [zoom, first, Outcome.ok.injEq]
    constructor
    · rintro ⟨rfl, rfl⟩
      exact ⟨s', ⟨rfl, rfl⟩, rfl⟩
    · rintro ⟨_, ⟨rfl, rfl⟩, rfl⟩
      exact ⟨rfl, rfl⟩
  case halt why => simp [zoom, first]

section Keeps

variable {φ : Type*} {f : σ → φ}

/-- Every run that comes back leaves `f` of the state as it was. -/
def Keeps (f : σ → φ) (m : Prog σ ε α) : Prop := ∀ s a s', m.Returns s a s' → f s' = f s

theorem keeps_pure (a : α) : Keeps f (pure a : Prog σ ε α) := by
  intro s b s' run
  rw [(returns_pure.mp run).2]

theorem keeps_halt (why : Halt) : Keeps f (halt why : Prog σ ε α) :=
  fun _ _ _ run => absurd run returns_halt

theorem keeps_read : Keeps f (read : Prog σ ε σ) := by
  intro s b s' run
  rw [(returns_read.mp run).2]

theorem keeps_reads (g : σ → α) : Keeps f (reads g : Prog σ ε α) := by
  intro s b s' run
  cases run
  rfl

theorem keeps_mark (e : ε) : Keeps f (mark e : Prog σ ε Unit) := by
  intro s b s' run
  cases run
  rfl

theorem keeps_modify {g : σ → σ} (same : ∀ s, f (g s) = f s) :
    Keeps f (modify g : Prog σ ε Unit) := by
  intro s b s' run
  rw [← returns_modify.mp run, same]

theorem keeps_zoom {get : τ → σ} {set : σ → τ → τ} {f : τ → φ} (m : Prog σ ε α)
    (apart : ∀ s t, f (set s t) = f t) : Keeps f (zoom get set m) := by
  intro t a t' run
  obtain ⟨s', _, rfl⟩ := returns_zoom.mp run
  exact apart s' t

theorem keeps_bind {m : Prog σ ε α} {k : α → Prog σ ε β} (first : Keeps f m)
    (rest : ∀ a, Keeps f (k a)) : Keeps f (m >>= k) := by
  intro s b s'' run
  obtain ⟨a, s', run, run'⟩ := returns_bind.mp run
  rw [rest a s' b s'' run', first s a s' run]

theorem keeps_ite {p : Prop} [Decidable p] {m n : Prog σ ε α} (yes : Keeps f m) (no : Keeps f n) :
    Keeps f (if p then m else n) := by
  split
  · exact yes
  · exact no

end Keeps

section Passes

variable {s : σ}

/-- A run from `s` passes through admitted events alone, whether it returns or not. -/
def Passes (adm : ε → Prop) (m : Prog σ ε α) (s : σ) : Prop := ∀ e ∈ (m.run s).2, adm e

theorem passes_pure (a : α) : Passes adm (pure a : Prog σ ε α) s := fun _ mem => absurd mem List.not_mem_nil

theorem passes_halt (why : Halt) : Passes adm (halt why : Prog σ ε α) s :=
  fun _ mem => absurd mem List.not_mem_nil

theorem passes_reads (f : σ → α) : Passes adm (reads f : Prog σ ε α) s :=
  fun _ mem => absurd mem List.not_mem_nil

theorem passes_modify (f : σ → σ) : Passes adm (modify f : Prog σ ε Unit) s :=
  fun _ mem => absurd mem List.not_mem_nil

theorem passes_mark {e : ε} (h : adm e) : Passes adm (mark e : Prog σ ε Unit) s :=
  fun e' mem => by rw [List.mem_singleton.mp mem]; exact h

theorem passes_bind {m : Prog σ ε α} {k : α → Prog σ ε β} (first : Passes adm m s)
    (rest : ∀ a s', m.Returns s a s' → Passes adm (k a) s') : Passes adm (m >>= k) s := by
  intro e mem
  rcases run : m.run s with ⟨⟨a, s'⟩ | why, t⟩
  · rw [run_bind run] at mem
    rcases List.mem_append.mp mem with before | after
    · exact first e (by rw [run]; exact before)
    · exact rest a s' (by rw [Returns, run]) e after
  · rw [run_bind_halt run] at mem
    exact first e (by rw [run]; exact mem)

theorem passes_read_bind {k : σ → Prog σ ε α} (rest : Passes adm (k s) s) :
    Passes adm (read >>= k) s := rest

theorem passes_zoom {get : τ → σ} {set : σ → τ → τ} {m : Prog σ ε α} {t : τ}
    (h : Passes adm m (get t)) : Passes adm (zoom get set m) t := by
  intro e mem
  rcases run : m.run (get t) with ⟨_ | _, tr⟩
  · simp only [zoom, run] at mem
    exact h e (by rw [run]; exact mem)
  · simp only [zoom, run] at mem
    exact h e (by rw [run]; exact mem)

theorem passes_ite {p : Prop} [Decidable p] {m n : Prog σ ε α} (yes : Passes adm m s)
    (no : Passes adm n s) : Passes adm (if p then m else n) s := by
  split
  · exact yes
  · exact no

theorem Passes.first {m : Prog σ ε α} {k : α → Prog σ ε β} (h : Passes adm (m >>= k) s) :
    Passes adm m s := by
  intro e mem
  rcases run : m.run s with ⟨⟨a, s'⟩ | why, t⟩
  · rw [run] at mem
    exact h e (by rw [run_bind run]; exact List.mem_append_left _ mem)
  · rw [run] at mem
    exact h e (by rw [run_bind_halt run]; exact mem)

theorem Passes.rest {m : Prog σ ε α} {k : α → Prog σ ε β} {a : α} {s' : σ}
    (h : Passes adm (m >>= k) s) (run : m.Returns s a s') : Passes adm (k a) s' := by
  intro e mem
  rcases eq : m.run s with ⟨r, t⟩
  obtain rfl : r = .ok a s' := by rw [Returns, eq] at run; exact run
  exact h e (by rw [run_bind eq]; exact List.mem_append_right _ mem)

theorem Returns.passes {m : Prog σ ε α} {k : α → Prog σ ε β} {a : α} {s' : σ}
    (run : m.Returns s a s') (first : Passes adm m s) (rest : Passes adm (k a) s') :
    Passes adm (m >>= k) s := by
  refine passes_bind first fun b t run' => ?_
  obtain ⟨rfl, rfl⟩ := run.unique run'
  exact rest

end Passes

section Triples

/-- Partial correctness: from `P`, a run through admitted events that comes back ends in `Q`. -/
def Triple (adm : ε → Prop) (P : σ → Prop) (m : Prog σ ε α) (Q : α → σ → Prop) : Prop :=
  ∀ s a s', P s → Passes adm m s → m.Returns s a s' → Q a s'

variable {P P' : σ → Prop} {Q Q' : α → σ → Prop}

theorem wp_triple {m : Prog σ ε α} {s : σ} (h : Wp adm m s Q) (triple : Triple adm P m Q') (pre : P s) :
    Wp adm m s fun a s' => Q a s' ∧ Q' a s' := by
  intro good
  obtain ⟨a, s', run, post⟩ := h good
  exact ⟨a, s', run, post, triple s a s' pre good run⟩

theorem triple_mono {m : Prog σ ε α} (h : Triple adm P m Q) (before : ∀ s, P' s → P s)
    (after : ∀ a s, Q a s → Q' a s) : Triple adm P' m Q' :=
  fun s a s' pre passes run => after a s' (h s a s' (before s pre) passes run)

theorem triple_pure {a : α} (h : ∀ s, P s → Q a s) : Triple adm P (pure a : Prog σ ε α) Q := by
  intro s b s' pre _ run
  obtain ⟨rfl, rfl⟩ := returns_pure.mp run
  exact h s pre

theorem triple_halt (why : Halt) : Triple adm P (halt why : Prog σ ε α) Q :=
  fun _ _ _ _ _ run => absurd run returns_halt

theorem triple_read : Triple adm P (read : Prog σ ε σ) fun a s => a = s ∧ P s := by
  intro s a s' pre _ run
  obtain ⟨rfl, rfl⟩ := returns_read.mp run
  exact ⟨rfl, pre⟩

theorem triple_reads (f : σ → α) : Triple adm P (reads f : Prog σ ε α) fun _ => P := by
  intro s a s' pre _ run
  cases run
  exact pre

theorem triple_modify {f : σ → σ} {Q : Unit → σ → Prop} (h : ∀ s, P s → Q () (f s)) :
    Triple adm P (modify f : Prog σ ε Unit) Q := by
  intro s a s' pre _ run
  rw [← returns_modify.mp run]
  exact h s pre

theorem triple_mark {e : ε} {Q : Unit → σ → Prop} (h : adm e → ∀ s, P s → Q () s) :
    Triple adm P (mark e : Prog σ ε Unit) Q := by
  intro s a s' pre passes run
  cases run
  exact h (passes e List.mem_cons_self) s pre

theorem triple_bind {m : Prog σ ε α} {k : α → Prog σ ε β} {R : β → σ → Prop}
    (first : Triple adm P m Q) (rest : ∀ a, Triple adm (Q a) (k a) R) : Triple adm P (m >>= k) R := by
  intro s b s'' pre passes run
  obtain ⟨a, s', run, run'⟩ := returns_bind.mp run
  exact rest a s' b s'' (first s a s' pre passes.first run) (passes.rest run) run'

theorem triple_read_bind {k : σ → Prog σ ε α}
    (rest : ∀ s, P s → Triple adm (fun t => t = s ∧ P t) (k s) Q) : Triple adm P (read >>= k) Q :=
  fun s a s' pre passes run => rest s pre s a s' ⟨rfl, pre⟩ passes run

theorem triple_ite {p : Prop} [Decidable p] {m n : Prog σ ε α} (yes : p → Triple adm P m Q)
    (no : ¬p → Triple adm P n Q) : Triple adm P (if p then m else n) Q := by
  split
  · exact yes ‹_›
  · exact no ‹_›

theorem triple_zoom {get : τ → σ} {set : σ → τ → τ} {m : Prog σ ε α} {P : τ → Prop}
    {Q : α → τ → Prop} (h : ∀ t, P t → Triple adm (fun s => s = get t) m fun a s => Q a (set s t)) :
    Triple adm P (zoom get set m) Q := by
  intro t a t' pre passes run
  obtain ⟨s', run', rfl⟩ := returns_zoom.mp run
  refine h t pre (get t) a s' rfl (fun e mem => passes e ?_) run'
  rcases eq : m.run (get t) with ⟨_ | _, tr⟩
  · rw [eq] at mem
    simp only [zoom, eq]
    exact mem
  · rw [eq] at mem
    simp only [zoom, eq]
    exact mem

/-- The program keeps `P`. -/
def Stays (adm : ε → Prop) (P : σ → Prop) (m : Prog σ ε α) : Prop := Triple adm P m fun _ => P

theorem stays_pure (a : α) : Stays adm P (pure a : Prog σ ε α) := triple_pure fun _ pre => pre

theorem stays_read : Stays adm P (read : Prog σ ε σ) := triple_mono triple_read (fun _ pre => pre) fun _ _ h => h.2

theorem stays_reads (f : σ → α) : Stays adm P (reads f : Prog σ ε α) := triple_reads f

theorem stays_mark (e : ε) : Stays adm P (mark e : Prog σ ε Unit) := triple_mark fun _ _ pre => pre

theorem stays_modify {f : σ → σ} (h : ∀ s, P s → P (f s)) : Stays adm P (modify f : Prog σ ε Unit) :=
  triple_modify h

theorem stays_bind {m : Prog σ ε α} {k : α → Prog σ ε β} (first : Stays adm P m)
    (rest : ∀ a, Stays adm P (k a)) : Stays adm P (m >>= k) := triple_bind first rest

theorem stays_ite {p : Prop} [Decidable p] {m n : Prog σ ε α} (yes : Stays adm P m)
    (no : Stays adm P n) : Stays adm P (if p then m else n) := triple_ite (fun _ => yes) fun _ => no

theorem keeps_of_stays {φ : Type*} {f : σ → φ} {m : Prog σ ε α}
    (h : ∀ x, Stays (fun _ => True) (fun s => f s = x) m) : Keeps f m :=
  fun s a s' run => h (f s) s a s' rfl (fun _ _ => trivial) run

theorem stays_of_keeps {φ : Type*} {f : σ → φ} {m : Prog σ ε α} (h : Keeps f m) (x : φ) :
    Stays adm (fun s => f s = x) m :=
  fun s a s' eq _ run => (h s a s' run).trans eq

end Triples

/-- Two ends of runs, in states that differ as `R` allows. -/
inductive EndsAlike (R : σ → σ → Prop) : Outcome σ α → Outcome σ α → Prop
  | ok {a : α} {s s' : σ} (same : R s s') : EndsAlike R (.ok a s) (.ok a s')
  | halt {why : Halt} : EndsAlike R (.halt why) (.halt why)

/-- From states related by `R` two programs come to the same, their traces apart. -/
def Alike (R : σ → σ → Prop) (m m' : Prog σ ε α) : Prop :=
  ∀ s s', R s s' → EndsAlike R (m.run s).1 (m'.run s').1

variable {R : σ → σ → Prop}

theorem Alike.returns {m m' : Prog σ ε α} (h : Alike R m m') {s s' t' : σ} (same : R s s') {a : α}
    (run : m'.Returns s' a t') : ∃ t, m.Returns s a t ∧ R t t' := by
  have both := h s s' same
  rw [run] at both
  generalize first : (m.run s).1 = r at both
  cases both with
  | ok same' => exact ⟨_, first, same'⟩

theorem alike_pure (a : α) : Alike R (pure a : Prog σ ε α) (pure a) := fun _ _ same => .ok same

theorem alike_halt (why : Halt) : Alike R (halt why : Prog σ ε α) (halt why) := fun _ _ _ => .halt

theorem alike_reads {f : σ → α} (same : ∀ s s', R s s' → f s = f s') :
    Alike R (reads f : Prog σ ε α) (reads f) := by
  intro s s' related
  change EndsAlike R (.ok (f s) s) (.ok (f s') s')
  rw [same s s' related]
  exact .ok related

theorem alike_modify {f : σ → σ} (keep : ∀ s s', R s s' → R (f s) (f s')) :
    Alike R (modify f : Prog σ ε Unit) (modify f) := fun s s' same => .ok (keep s s' same)

theorem alike_bind {m m' : Prog σ ε α} {k k' : α → Prog σ ε β} (first : Alike R m m')
    (rest : ∀ a, Alike R (k a) (k' a)) : Alike R (m >>= k) (m' >>= k') := by
  intro s s' same
  have both := first s s' same
  rcases run : m.run s with ⟨⟨a, t⟩ | why, tr⟩
  · rcases run' : m'.run s' with ⟨⟨a', t'⟩ | why', tr'⟩
    · rw [run, run'] at both
      cases both with
      | ok same' =>
        rw [run_bind run, run_bind run']
        exact rest a t t' same'
    · rw [run, run'] at both
      cases both
  · rcases run' : m'.run s' with ⟨⟨a', t'⟩ | why', tr'⟩
    · rw [run, run'] at both
      cases both
    · rw [run, run'] at both
      cases both
      rw [run_bind_halt run, run_bind_halt run']
      exact .halt

theorem alike_read_bind {k : σ → Prog σ ε α} {m' : Prog σ ε α}
    (rest : ∀ t, (∃ t', R t t') → Alike R (k t) m') : Alike R (read >>= k) m' :=
  fun s s' same => rest s ⟨s', same⟩ s s' same

/-- A step that changes nothing `R` sees. -/
theorem alike_skip {m : Prog σ ε Unit} {k : Unit → Prog σ ε α} {m' : Prog σ ε α}
    (skip : ∀ s s', R s s' → ∃ t, (m.run s).1 = .ok () t ∧ R t s') (rest : Alike R (k ()) m') :
    Alike R (m >>= k) m' := by
  intro s s' same
  obtain ⟨t, run, same'⟩ := skip s s' same
  rw [run_bind (Prod.ext run rfl)]
  exact rest t s' same'

end Prog
end FileHash.Lib
