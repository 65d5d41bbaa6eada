import Mathlib.Logic.Function.Basic

/-! Programs cut at the operations they ask of their surroundings, so that several can take
turns. `Obeys` follows one of them alone: under rules that say what may be asked in a
situation and what may come back, every path through the script ends as promised. -/
namespace FileHash.Lib

inductive Script (Op : Type) (Ans : Op → Type) (α : Type) where
  | done (a : α)
  | ask (op : Op) (next : Ans op → Script Op Ans α)

/-- What may be asked in situation `s`, and which answers lead to which situations. -/
structure Rules (Op : Type) (Ans : Op → Type) (S : Type) where
  may : S → Op → Prop
  gives : S → (op : Op) → Ans op → S → Prop

namespace Script

variable {Op S α β : Type} {Ans : Op → Type}

protected def bind : Script Op Ans α → (α → Script Op Ans β) → Script Op Ans β
  | .done a, f => f a
  | .ask op next, f => .ask op fun ans => (next ans).bind f

instance : Monad (Script Op Ans) where
  pure := .done
  bind := Script.bind

def act (op : Op) : Script Op Ans (Ans op) := .ask op .done

inductive After : Script Op Ans α → Script Op Ans α → Prop
  | ask (op : Op) (next : Ans op → Script Op Ans α) (ans : Ans op) : After (.ask op next) (next ans)

section Exec

variable {M : Type → Type} [Monad M]

def exec (serve : (op : Op) → M (Ans op)) : Script Op Ans α → M α
  | .done a => pure a
  | .ask op next => serve op >>= fun ans => (next ans).exec serve

theorem exec_bind [LawfulMonad M] (serve : (op : Op) → M (Ans op)) (m : Script Op Ans α)
    (f : α → Script Op Ans β) : (m >>= f).exec serve = m.exec serve >>= fun a => (f a).exec serve := by
  induction m with
  | done a => exact (pure_bind a fun a => (f a).exec serve).symm
  | ask op next ih =>
    calc (serve op >>= fun ans => (next ans >>= f).exec serve)
        = serve op >>= fun ans => (next ans).exec serve >>= fun a => (f a).exec serve :=
          bind_congr ih
      _ = (serve op >>= fun ans => (next ans).exec serve) >>= fun a => (f a).exec serve :=
          (bind_assoc _ _ _).symm

end Exec

/-- Every path from situation `s` asks what it may and ends in `Q`. -/
def Obeys (rules : Rules Op Ans S) (Q : α → S → Prop) : S → Script Op Ans α → Prop
  | s, .done a => Q a s
  | s, .ask op next => rules.may s op ∧ ∀ ans s', rules.gives s op ans s' → Obeys rules Q s' (next ans)

variable {rules : Rules Op Ans S} {s : S} {Q R : α → S → Prop} {P : β → S → Prop}

@[simp] theorem obeys_pure {a : α} : Obeys rules Q s (pure a) ↔ Q a s := Iff.rfl

theorem obeys_mono {m : Script Op Ans α} (h : Obeys rules R s m) (imp : ∀ a s', R a s' → Q a s') :
    Obeys rules Q s m := by
  induction m generalizing s with
  | done a => exact imp a s h
  | ask op next ih => exact ⟨h.1, fun ans s' given => ih ans (h.2 ans s' given)⟩

theorem obeys_bind {m : Script Op Ans α} {f : α → Script Op Ans β}
    (h : Obeys rules (fun a s' => Obeys rules P s' (f a)) s m) : Obeys rules P s (m >>= f) := by
  induction m generalizing s with
  | done a => exact h
  | ask op next ih => exact ⟨h.1, fun ans s' given => ih ans (h.2 ans s' given)⟩

theorem obeys_act {op : Op} {f : Ans op → Script Op Ans β} (may : rules.may s op)
    (rest : ∀ ans s', rules.gives s op ans s' → Obeys rules P s' (f ans)) :
    Obeys rules P s (act op >>= f) := ⟨may, rest⟩

end Script
end FileHash.Lib
