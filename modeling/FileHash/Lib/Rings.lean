import Mathlib.Data.List.Basic
import Mathlib.Data.List.Nodup
import Mathlib.Logic.Function.Basic

/-! Circular queues in memory. The nodes of all queues have one pair of link fields, and the last
link of a queue points back to its head, which is no node. -/
namespace FileHash.Lib

/-- A pointer in a queue is to a head or to a node. -/
inductive Ptr (κ α : Type) where
  | head (k : κ)
  | node (a : α)
  deriving DecidableEq

variable {κ α : Type}

structure Rings (κ α : Type) where
  first : κ → Ptr κ α
  last : κ → Ptr κ α
  next : α → Ptr κ α
  prev : α → Ptr κ α

/-- Following `next` from `p` one comes to the nodes `xs` and then to `q`. -/
def Path (next : α → Ptr κ α) : Ptr κ α → List α → Ptr κ α → Prop
  | p, [], q => p = q
  | p, x :: xs, q => p = .node x ∧ Path next (next x) xs q

namespace Path

variable {next next' : α → Ptr κ α} {p q : Ptr κ α} {xs ys : List α} {e : α} {k : κ}

theorem append_iff : Path next p (xs ++ ys) q ↔ ∃ r, Path next p xs r ∧ Path next r ys q := by
  induction xs generalizing p with
  | nil =>
    constructor
    · exact fun h => ⟨p, rfl, h⟩
    · rintro ⟨r, rfl, h⟩
      exact h
  | cons x xs ih =>
    rw [List.cons_append, Path, ih]
    constructor
    · rintro ⟨rfl, r, front, back⟩
      exact ⟨r, ⟨rfl, front⟩, back⟩
    · rintro ⟨r, ⟨rfl, front⟩, back⟩
      exact ⟨rfl, r, front, back⟩

theorem congr (h : Path next p xs q) (same : ∀ x ∈ xs, next' x = next x) : Path next' p xs q := by
  induction xs generalizing p with
  | nil => exact h
  | cons x xs ih =>
    refine ⟨h.1, ?_⟩
    rw [same x List.mem_cons_self]
    exact ih h.2 fun y mem => same y (List.mem_cons_of_mem _ mem)

theorem update [DecidableEq α] (h : Path next p xs q) (out : e ∉ xs) (v : Ptr κ α) :
    Path (Function.update next e v) p xs q :=
  h.congr fun _ mem => Function.update_of_ne (ne_of_mem_of_not_mem mem out) _ _

theorem start {x : α} (h : Path next p (x :: xs) q) : p = .node x := h.1

theorem start_snoc {x : α} (h : Path next p (xs ++ [x]) q) : ∃ y, p = .node y := by
  cases xs with
  | nil => exact ⟨x, h.1⟩
  | cons y xs => exact ⟨y, h.1⟩

theorem turn [DecidableEq α] {x : α} (h : Path next p (xs ++ [x]) q) (once : x ∉ xs) (v : Ptr κ α) :
    Path (Function.update next x v) p (xs ++ [x]) v := by
  obtain ⟨r, front, at_x, _⟩ := append_iff.mp h
  refine append_iff.mpr ⟨r, front.update once v, at_x, ?_⟩
  rw [Function.update_self]
  rfl

end Path

def Around (first : κ → Ptr κ α) (next : α → Ptr κ α) (l : κ → List α) : Prop :=
  ∀ k, Path next (first k) (l k) (.head k)

structure Apart (l : κ → List α) : Prop where
  nodup : ∀ k, (l k).Nodup
  one : ∀ j k a, a ∈ l j → a ∈ l k → j = k

namespace Around

variable {first : κ → Ptr κ α} {next : α → Ptr κ α} {l : κ → List α} {k : κ} {e : α}

theorem next_eq (h : Around first next l) {before after : List α} (at_e : l k = before ++ e :: after) :
    Path next (first k) before (.node e) ∧ Path next (next e) after (.head k) := by
  have path := h k
  rw [at_e] at path
  obtain ⟨r, front, rfl, rest⟩ := Path.append_iff.mp path
  exact ⟨front, rest⟩

theorem change [DecidableEq κ] (h : Around first next l) {first' : κ → Ptr κ α} {next' : α → Ptr κ α} {xs : List α}
    (here : Path next' (first' k) xs (.head k)) (heads : ∀ j, j ≠ k → first' j = first j)
    (links : ∀ j, j ≠ k → ∀ x ∈ l j, next' x = next x) : Around first' next' (Function.update l k xs) := by
  intro j
  by_cases same : j = k
  · subst same
    rw [Function.update_self]
    exact here
  · rw [Function.update_of_ne same, heads j same]
    exact (h j).congr (links j same)

variable [DecidableEq κ] [DecidableEq α]

theorem front (h : Around first next l) (out : ∀ j, e ∉ l j) :
    Around (Function.update first k (.node e)) (Function.update next e (first k)) (Function.update l k (e :: l k)) := by
  refine h.change ?_ (fun j ne => Function.update_of_ne ne _ _) fun j _ x mem =>
    Function.update_of_ne (ne_of_mem_of_not_mem mem (out j)) _ _
  rw [Function.update_self]
  refine ⟨rfl, ?_⟩
  rw [Function.update_self]
  exact (h k).update (out k) _

theorem back_nil (h : Around first next l) (out : ∀ j, e ∉ l j) (empty : l k = []) :
    Around (Function.update first k (.node e)) (Function.update next e (.head k)) (Function.update l k [e]) := by
  have points : first k = .head k := by
    have path := h k
    rw [empty] at path
    exact path
  have pushed := h.front (k := k) out
  rwa [points, empty] at pushed

/-- A node comes to the back of a queue whose last node is `x`. -/
theorem back_snoc (h : Around first next l) (apart : Apart l) (out : ∀ j, e ∉ l j) {xs : List α} {x : α}
    (ends : l k = xs ++ [x]) :
    Around first (Function.update (Function.update next e (.head k)) x (.node e))
      (Function.update l k (xs ++ [x] ++ [e])) := by
  have mem : x ∈ l k := by rw [ends]; simp
  have ne : e ≠ x := fun same => out k (same ▸ mem)
  have once : x ∉ xs := by
    have nodup := apart.nodup k
    rw [ends] at nodup
    exact fun mem => (List.nodup_append.mp nodup).2.2 x mem x List.mem_cons_self rfl
  refine h.change ?_ (fun _ _ => rfl) fun j differ y memy => ?_
  · have path := ((h k).update (out k) (.head k))
    rw [ends] at path
    refine Path.append_iff.mpr ⟨_, path.turn once (.node e), rfl, ?_⟩
    rw [Function.update_of_ne ne, Function.update_self]
    rfl
  · have other : y ≠ x := fun same => differ (apart.one j k y memy (same ▸ mem))
    rw [Function.update_of_ne other, Function.update_of_ne (ne_of_mem_of_not_mem memy (out j))]

omit [DecidableEq α] in
theorem drop_head (h : Around first next l) {after : List α} (at_e : l k = e :: after) :
    Around (Function.update first k (next e)) next (Function.update l k after) := by
  refine h.change ?_ (fun j ne => Function.update_of_ne ne _ _) fun _ _ _ _ => rfl
  rw [Function.update_self]
  have at_front : l k = [] ++ e :: after := at_e
  exact (h.next_eq at_front).2

/-- A node behind `x` leaves. -/
theorem drop_next (h : Around first next l) (apart : Apart l) {before after : List α} {x : α}
    (at_e : l k = before ++ [x] ++ e :: after) :
    Around first (Function.update next x (next e)) (Function.update l k (before ++ [x] ++ after)) := by
  have nodup := apart.nodup k
  rw [at_e, List.nodup_append] at nodup
  have mem : x ∈ l k := by rw [at_e]; simp
  have once : x ∉ before := fun inside =>
    (List.nodup_append.mp nodup.1).2.2 x inside x List.mem_cons_self rfl
  have behind : x ∉ after := fun inside =>
    nodup.2.2 x (by simp) x (List.mem_cons_of_mem _ inside) rfl
  obtain ⟨front, rest⟩ := h.next_eq at_e
  refine h.change ?_ (fun _ _ => rfl) fun j differ y memy => ?_
  · exact Path.append_iff.mpr ⟨_, front.turn once _, rest.update behind _⟩
  · have other : y ≠ x := fun same => differ (apart.one j k y memy (same ▸ mem))
    exact Function.update_of_ne other _ _

end Around

namespace Apart

variable {l : κ → List α} {k : κ} {e : α}

theorem update [DecidableEq κ] (h : Apart l) {xs : List α} (nodup : xs.Nodup) (sub : ∀ a ∈ xs, a ∈ l k ∨ ∀ j, a ∉ l j) :
    Apart (Function.update l k xs) := by
  have at_other : ∀ {j a}, a ∈ Function.update l k xs j → j ≠ k → a ∈ l j := by
    intro j a mem ne
    rwa [Function.update_of_ne ne] at mem
  have at_self : ∀ {a}, a ∈ Function.update l k xs k → a ∈ xs := by
    intro a mem
    rwa [Function.update_self] at mem
  refine ⟨fun j => ?_, fun i j a memi memj => ?_⟩
  · by_cases same : j = k
    · rw [same, Function.update_self]
      exact nodup
    · rw [Function.update_of_ne same]
      exact h.nodup j
  · by_cases i_k : i = k
    · by_cases j_k : j = k
      · rw [i_k, j_k]
      · rcases sub a (at_self (i_k ▸ memi)) with mem | out
        · exact i_k.trans (h.one k j a mem (at_other memj j_k))
        · exact absurd (at_other memj j_k) (out j)
    · by_cases j_k : j = k
      · rcases sub a (at_self (j_k ▸ memj)) with mem | out
        · exact (h.one i k a (at_other memi i_k) mem).trans j_k.symm
        · exact absurd (at_other memi i_k) (out i)
      · exact h.one i j a (at_other memi i_k) (at_other memj j_k)

theorem reverse (h : Apart l) : Apart fun k => (l k).reverse :=
  ⟨fun k => List.nodup_reverse.mpr (h.nodup k), fun j k a memj memk =>
    h.one j k a (List.mem_reverse.mp memj) (List.mem_reverse.mp memk)⟩

end Apart

namespace Rings

variable [DecidableEq κ] [DecidableEq α] {s : Rings κ α} {l : κ → List α} {k : κ} {e : α}

def setNext (s : Rings κ α) : Ptr κ α → Ptr κ α → Option (Rings κ α)
  | .node a, p => some { s with next := Function.update s.next a p }
  | .head _, _ => none

def setPrev (s : Rings κ α) : Ptr κ α → Ptr κ α → Option (Rings κ α)
  | .node a, p => some { s with prev := Function.update s.prev a p }
  | .head _, _ => none

def init (next prev : α → Ptr κ α) : Rings κ α := ⟨.head, .head, next, prev⟩

def insertHead (k : κ) (e : α) (s : Rings κ α) : Option (Rings κ α) := do
  let s := { s with next := Function.update s.next e (s.first k) }
  let s := { s with prev := Function.update s.prev e (.head k) }
  let s ← if s.last k = .head k then some { s with last := Function.update s.last k (.node e) }
    else s.setPrev (s.first k) (.node e)
  some { s with first := Function.update s.first k (.node e) }

def insertTail (k : κ) (e : α) (s : Rings κ α) : Option (Rings κ α) := do
  let s := { s with next := Function.update s.next e (.head k) }
  let s := { s with prev := Function.update s.prev e (s.last k) }
  let s ← if s.first k = .head k then some { s with first := Function.update s.first k (.node e) }
    else s.setNext (s.last k) (.node e)
  some { s with last := Function.update s.last k (.node e) }

def passBack (k : κ) (e : α) (s : Rings κ α) : Option (Rings κ α) :=
  if s.next e = .head k then some { s with last := Function.update s.last k (s.prev e) }
  else s.setPrev (s.next e) (s.prev e)

def passFront (k : κ) (e : α) (s : Rings κ α) : Option (Rings κ α) :=
  if s.prev e = .head k then some { s with first := Function.update s.first k (s.next e) }
  else s.setNext (s.prev e) (s.next e)

def remove (k : κ) (e : α) (s : Rings κ α) : Option (Rings κ α) := do
  let s ← s.passBack k e
  s.passFront k e

/-- The nodes a loop from `p` comes to before it is at head `k`; `none` if it does not come
there within `fuel` steps, or is at another head. -/
def visits (next : α → Ptr κ α) (k : κ) : Nat → Ptr κ α → Option (List α)
  | _, .head j => if j = k then some [] else none
  | 0, .node _ => none
  | fuel + 1, .node a => (visits next k fuel (next a)).map (a :: ·)

/-- The queues have the nodes `l`, in both directions. -/
structure Holds (s : Rings κ α) (l : κ → List α) : Prop where
  forward : Around s.first s.next l
  backward : Around s.last s.prev fun k => (l k).reverse
  apart : Apart l

def flip (s : Rings κ α) : Rings κ α := ⟨s.last, s.first, s.prev, s.next⟩

theorem insertTail_eq (k : κ) (e : α) (s : Rings κ α) : s.insertTail k e = (s.flip.insertHead k e).map flip := by
  unfold insertTail insertHead flip
  dsimp only
  split
  · rfl
  · cases s.last k <;> rfl

end Rings

section Reverse

variable [DecidableEq κ] {l : κ → List α} {e : α}

theorem reverse_update (l : κ → List α) (k : κ) (xs : List α) :
    (fun j => (Function.update l k xs j).reverse) = Function.update (fun j => (l j).reverse) k xs.reverse :=
  Function.comp_update List.reverse l k xs

omit [DecidableEq κ] in
theorem out_reverse (out : ∀ j, e ∉ l j) (j : κ) : e ∉ (l j).reverse := fun mem => out j (List.mem_reverse.mp mem)

end Reverse

namespace Rings.Holds

variable {s : Rings κ α} {l : κ → List α} {k : κ} {e : α}

theorem init (next prev : α → Ptr κ α) : (Rings.init next prev).Holds fun _ => [] :=
  ⟨fun _ => rfl, fun _ => rfl, fun _ => List.nodup_nil, fun _ _ _ mem => absurd mem List.not_mem_nil⟩

theorem flip (h : s.Holds l) : s.flip.Holds fun k => (l k).reverse :=
  by
  refine ⟨h.backward, ?_, h.apart.reverse⟩
  have forward := h.forward
  simp only [List.reverse_reverse]
  exact forward

variable [DecidableEq κ] [DecidableEq α]

theorem insertHead (h : s.Holds l) (out : ∀ j, e ∉ l j) :
    ∃ s', s.insertHead k e = some s' ∧ s'.Holds (Function.update l k (e :: l k)) := by
  have apart : Apart (Function.update l k (e :: l k)) := by
    refine h.apart.update (List.nodup_cons.mpr ⟨out k, h.apart.nodup k⟩) fun a mem => ?_
    rcases List.mem_cons.mp mem with rfl | mem
    · exact .inr out
    · exact .inl mem
  have path : Path s.prev (s.last k) (l k).reverse (.head k) := h.backward k
  have forward := h.forward.front (k := k) out
  cases at_k : l k with
  | nil =>
    have empty : (l k).reverse = [] := by rw [at_k]; rfl
    have points : s.last k = .head k := by rwa [empty] at path
    have backward := h.backward.back_nil (out_reverse out) empty
    rw [show [e] = [e].reverse from rfl, ← reverse_update] at backward
    rw [at_k] at forward apart
    refine ⟨{ first := Function.update s.first k (.node e), last := Function.update s.last k (.node e)
              next := Function.update s.next e (s.first k), prev := Function.update s.prev e (.head k) },
      ?_, forward, backward, apart⟩
    simp only [Rings.insertHead, points, if_true, Option.bind_eq_bind, Option.bind_some]
  | cons x xs =>
    have ends : (l k).reverse = xs.reverse ++ [x] := by rw [at_k, List.reverse_cons]
    obtain ⟨y, behind⟩ : ∃ y, s.last k = .node y := by
      rw [ends] at path
      exact path.start_snoc
    have points : s.first k = .node x := by
      have path := h.forward k
      rw [at_k] at path
      exact path.start
    have backward := h.backward.back_snoc h.apart.reverse (out_reverse out) ends
    rw [← List.reverse_cons, ← List.reverse_cons, ← reverse_update] at backward
    rw [at_k] at forward apart
    refine ⟨{ first := Function.update s.first k (.node e), last := s.last
              next := Function.update s.next e (s.first k)
              prev := Function.update (Function.update s.prev e (.head k)) x (.node e) },
      ?_, forward, backward, apart⟩
    simp only [Rings.insertHead, behind, points, reduceCtorEq, if_false, setPrev, Option.bind_eq_bind,
      Option.bind_some]

theorem insertTail (h : s.Holds l) (out : ∀ j, e ∉ l j) :
    ∃ s', s.insertTail k e = some s' ∧ s'.Holds (Function.update l k (l k ++ [e])) := by
  obtain ⟨s', pushed, holds⟩ := h.flip.insertHead (k := k) (out_reverse out)
  refine ⟨s'.flip, by rw [insertTail_eq, pushed]; rfl, ?_⟩
  have back := holds.flip
  rw [reverse_update] at back
  simpa only [List.reverse_cons, List.reverse_reverse] using back

omit [DecidableEq κ] in
theorem split (h : s.Holds l) (mem : e ∈ l k) : ∃ before after, l k = before ++ e :: after ∧
    (l k).erase e = before ++ after ∧ e ∉ before ∧ e ∉ after := by
  obtain ⟨before, after, at_e⟩ := List.append_of_mem mem
  have nodup := h.apart.nodup k
  rw [at_e, List.nodup_append, List.nodup_cons] at nodup
  have out : e ∉ before := fun inside => nodup.2.2 e inside e List.mem_cons_self rfl
  refine ⟨before, after, at_e, ?_, out, nodup.2.1.1⟩
  rw [at_e, List.erase_append_right _ out, List.erase_cons_head]

theorem passFront {before after : List α} (forward : Around s.first s.next l) (apart : Apart l)
    (points : Path s.prev (s.prev e) before.reverse (.head k)) (at_e : l k = before ++ e :: after) :
    ∃ s', s.passFront k e = some s' ∧ s'.last = s.last ∧ s'.prev = s.prev ∧
      Path s'.next (s'.next e) after (.head k) ∧ Around s'.first s'.next (Function.update l k (before ++ after)) := by
  have rest := (forward.next_eq at_e).2
  rcases List.eq_nil_or_concat' before with rfl | ⟨xs, x, rfl⟩
  · have head : s.prev e = .head k := points
    refine ⟨{ s with first := Function.update s.first k (s.next e) }, by rw [Rings.passFront, if_pos head], rfl, rfl,
      rest, ?_⟩
    exact forward.drop_head at_e
  · rw [List.reverse_append] at points
    have node : s.prev e = .node x := points.start
    have nodup := apart.nodup k
    rw [at_e, List.nodup_append] at nodup
    have ne : e ≠ x := fun same => nodup.2.2 x (by simp) e List.mem_cons_self same.symm
    have behind : x ∉ after := fun inside => nodup.2.2 x (by simp) x (List.mem_cons_of_mem _ inside) rfl
    refine ⟨{ s with next := Function.update s.next x (s.next e) }, ?_, rfl, rfl, ?_, forward.drop_next apart at_e⟩
    · rw [Rings.passFront, if_neg (by rw [node]; exact nofun), node]
      rfl
    · change Path (Function.update s.next x (s.next e)) (Function.update s.next x (s.next e) e) after (.head k)
      rw [Function.update_of_ne ne]
      exact rest.update behind _

theorem passBack_eq (k : κ) (e : α) (s : Rings κ α) : s.passBack k e = (s.flip.passFront k e).map Rings.flip := by
  unfold Rings.passBack Rings.passFront Rings.flip
  dsimp only
  split
  · rfl
  · cases s.next e <;> rfl

theorem remove (h : s.Holds l) (mem : e ∈ l k) :
    ∃ s', s.remove k e = some s' ∧ s'.Holds (Function.update l k ((l k).erase e)) := by
  obtain ⟨before, after, at_e, gone, front, behind⟩ := h.split mem
  have at_e' : (l k).reverse = after.reverse ++ e :: before.reverse := by
    rw [at_e, List.reverse_append, List.reverse_cons, List.append_assoc]
    rfl
  have ahead : Path s.flip.prev (s.flip.prev e) after.reverse.reverse (.head k) := by
    rw [List.reverse_reverse]
    exact (h.forward.next_eq at_e).2
  obtain ⟨t, passed, last, prev, back, backward⟩ := passFront h.flip.forward h.flip.apart ahead at_e'
  -- the second half finds the links forward as they were
  have forward : Around t.flip.first t.flip.next l := by
    change Around t.last t.prev l
    rw [last, prev]
    exact h.forward
  obtain ⟨s', passed', last', prev', _, forward'⟩ := passFront forward h.apart back at_e
  refine ⟨s', ?_, ?_, ?_, ?_⟩
  · rw [Rings.remove, passBack_eq, passed]
    exact passed'
  · rw [gone]
    exact forward'
  · rw [gone, reverse_update, List.reverse_append, last', prev']
    exact backward
  · refine h.apart.update ?_ fun a mem => .inl (List.mem_of_mem_erase mem)
    exact (h.apart.nodup k).erase e

omit [DecidableEq α] in
theorem visits_eq {next : α → Ptr κ α} {p : Ptr κ α} {xs : List α} (path : Path next p xs (.head k)) {fuel : Nat}
    (enough : xs.length ≤ fuel) : visits next k fuel p = some xs := by
  induction xs generalizing p fuel with
  | nil =>
    rw [show p = .head k from path]
    cases fuel <;> exact if_pos rfl
  | cons x xs ih =>
    obtain ⟨fuel, rfl⟩ := Nat.exists_eq_add_one_of_ne_zero (Nat.ne_of_gt (Nat.lt_of_lt_of_le (Nat.succ_pos _) enough))
    rw [path.start, visits, ih path.2 (Nat.le_of_succ_le_succ enough)]
    rfl

omit [DecidableEq α] in
theorem foreach (h : s.Holds l) {fuel : Nat} (enough : (l k).length ≤ fuel) :
    visits s.next k fuel (s.first k) = some (l k) := visits_eq (h.forward k) enough

end Rings.Holds
end FileHash.Lib
