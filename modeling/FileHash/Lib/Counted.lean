import Mathlib.Data.List.Perm.Basic
import Mathlib.Data.List.Count
import Mathlib.Order.Basic

/-! Cells that are shared by counting. Each handle names a cell, a cell counts its handles, and
it is deleted, and what is in it released, with the last of them. -/
namespace FileHash.Lib

structure Cell (ρ : Type) where
  count : Int
  item : ρ
  deriving DecidableEq

abbrev Cells (ρ : Type) := List (Option (Cell ρ))

namespace Cells

variable {ρ : Type} {s s' : Cells ρ} {handles handles' : List Nat} {c : Nat} {entry : Cell ρ}

def cell (s : Cells ρ) (c : Nat) : Option (Cell ρ) := s[c]?.join

def make (s : Cells ρ) (item : ρ) : Nat × Cells ρ := (s.length, s ++ [some ⟨1, item⟩])

def put (s : Cells ρ) (c : Nat) (item : ρ) : Option (Cells ρ) :=
  (s.cell c).map fun cell => s.set c (some { cell with item := item })

/-- `none`: there is no such cell any more. -/
def share (s : Cells ρ) (c : Nat) : Option (Cells ρ) :=
  (s.cell c).map fun cell => s.set c (some { cell with count := cell.count + 1 })

def release (s : Cells ρ) (c : Nat) : Option (Option ρ × Cells ρ) :=
  (s.cell c).map fun cell =>
    if cell.count - 1 ≤ 0 then (some cell.item, s.set c none)
    else (none, s.set c (some { cell with count := cell.count - 1 }))

def within (s : Cells ρ) (c : Nat) : Option ρ := (s.cell c).map Cell.item

def items (s : Cells ρ) : List ρ := s.filterMap fun slot => slot.map Cell.item

def Exact (s : Cells ρ) (handles : List Nat) : Prop :=
  ∀ c, (s.cell c).map Cell.count = if c ∈ handles then some (handles.count c : Int) else none

theorem lt_of_cell (there : s.cell c = some entry) : c < s.length := by
  by_contra high
  rw [Cells.cell, List.getElem?_eq_none (Nat.le_of_not_lt high)] at there
  cases there

theorem getElem?_of_cell (there : s.cell c = some entry) : s[c]? = some (some entry) := by
  rw [List.getElem?_eq_getElem (lt_of_cell there)]
  rw [Cells.cell, List.getElem?_eq_getElem (lt_of_cell there)] at there
  exact congrArg some there

theorem cell_set (low : c < s.length) (slot : Option (Cell ρ)) (d : Nat) :
    Cells.cell (s.set c slot) d = if d = c then slot else s.cell d := by
  rw [Cells.cell, Cells.cell, List.getElem?_set]
  by_cases same : d = c
  · rw [if_pos same.symm, if_pos same, if_pos low]
    rfl
  · rw [if_neg (Ne.symm same), if_neg same]

theorem within_set (there : s.cell c = some entry) (slot : Option (Cell ρ)) (d : Nat) :
    Cells.within (s.set c slot) d = if d = c then slot.map Cell.item else s.within d := by
  rw [within, cell_set (lt_of_cell there), apply_ite (Option.map Cell.item), within]

theorem within_make (item : ρ) (low : c < s.length) : within (s.make item).2 c = s.within c := by
  rw [within, cell, make, List.getElem?_append_left low, within, cell]

theorem within_made (item : ρ) : within (s.make item).2 (s.make item).1 = some item := by
  simp [within, cell, make]

theorem within_put {item : ρ} (put : s.put c item = some s') (d : Nat) :
    s'.within d = if d = c then some item else s.within d := by
  obtain ⟨entry, there, rfl⟩ := Option.map_eq_some_iff.mp put
  exact within_set there _ d

theorem within_share (shared : s.share c = some s') (d : Nat) : s'.within d = s.within d := by
  obtain ⟨entry, there, rfl⟩ := Option.map_eq_some_iff.mp shared
  rw [within_set there]
  split
  case isTrue same =>
    rw [same, within, there]
    rfl
  case isFalse => rfl

theorem within_release {gone : Option ρ} (released : s.release c = some (gone, s')) :
    (∀ item, gone = some item → s.within c = some item) ∧ ∀ d, gone = none ∨ d ≠ c → s'.within d = s.within d := by
  obtain ⟨entry, there, same⟩ := Option.map_eq_some_iff.mp released
  have here : s.within c = some entry.item := by rw [within, there, Option.map_some]
  split at same
  case isTrue =>
    cases same
    refine ⟨fun item same => here.trans same, fun d kept => ?_⟩
    rw [within_set there, if_neg (kept.resolve_left (by simp))]
  case isFalse =>
    cases same
    refine ⟨fun item same => absurd same (by simp), fun d _ => ?_⟩
    rw [within_set there]
    split
    case isTrue same => rw [same, here, Option.map_some]
    case isFalse => rfl

theorem items_perm (there : s.cell c = some entry) : ∃ rest : List ρ, s.items.Perm (entry.item :: rest) ∧
    ∀ slot : Option (Cell ρ), (Cells.items (s.set c slot)).Perm ((slot.map Cell.item).toList ++ rest) := by
  have low := lt_of_cell there
  have here : s[c] = some entry := by
    have at_ := getElem?_of_cell there
    rw [List.getElem?_eq_getElem low] at at_
    exact Option.some.inj at_
  refine ⟨Cells.items (s.eraseIdx c), ?_, fun slot => ?_⟩
  · refine ((List.getElem_cons_eraseIdx_perm low).symm.filterMap _).trans ?_
    rw [here]
    exact List.Perm.refl _
  · refine ((List.set_perm_cons_eraseIdx low slot).filterMap _).trans ?_
    cases slot <;> exact List.Perm.refl _

namespace Exact

theorem nil : Exact ([] : Cells ρ) [] := fun _ => rfl

theorem perm (h : s.Exact handles) (same : handles.Perm handles') : s.Exact handles' := fun c => by
  rw [h c, same.count_eq]
  exact if_congr same.mem_iff rfl rfl

theorem there (h : s.Exact handles) (mem : c ∈ handles) :
    ∃ cell, s.cell c = some cell ∧ cell.count = (handles.count c : Int) := by
  have counts := h c
  rw [if_pos mem] at counts
  exact Option.map_eq_some_iff.mp counts

theorem items_nil (h : s.Exact []) : s.items = [] := by
  refine List.filterMap_eq_nil_iff.mpr fun slot mem => ?_
  obtain ⟨c, low, rfl⟩ := List.mem_iff_getElem.mp mem
  have none := h c
  rw [Cells.cell, List.getElem?_eq_getElem low, if_neg List.not_mem_nil] at none
  cases here : s[c] with
  | none => rfl
  | some cell => simp [here] at none

theorem make (h : s.Exact handles) (item : ρ) :
    Exact (s.make item).2 ((s.make item).1 :: handles) ∧ (s.make item).2.items = s.items ++ [item] := by
  refine ⟨fun c => ?_, by simp [Cells.make, items]⟩
  have fresh : s.length ∉ handles := by
    intro mem
    obtain ⟨cell, here, _⟩ := h.there mem
    exact Nat.lt_irrefl _ (lt_of_cell here)
  rcases Nat.lt_trichotomy c s.length with low | rfl | high
  · have old : Cells.cell (s.make item).2 c = s.cell c := by
      rw [Cells.cell, Cells.make, List.getElem?_append_left low, Cells.cell]
    rw [old, h c]
    simp [Cells.make, List.count_cons_of_ne (Nat.ne_of_gt low), Nat.ne_of_lt low]
  · simp [Cells.cell, Cells.make, List.count_eq_zero_of_not_mem fresh]
  · have none : Cells.cell (s.make item).2 c = none := by
      rw [Cells.cell, Cells.make, List.getElem?_eq_none (by simpa [Nat.succ_le_iff] using high)]
      rfl
    have away : c ∉ handles := by
      intro mem
      obtain ⟨cell, here, _⟩ := h.there mem
      exact absurd (lt_of_cell here) (by omega)
    rw [none, if_neg (by simp [Cells.make, away, Nat.ne_of_gt high])]
    rfl

theorem put (h : s.Exact handles) (mem : c ∈ handles) : ∃ old rest, s.cell c = some old ∧
    s.items.Perm (old.item :: rest) ∧ ∀ item, ∃ s', s.put c item = some s' ∧ s'.Exact handles ∧
      s'.items.Perm (item :: rest) := by
  obtain ⟨cell, here, counted⟩ := h.there mem
  obtain ⟨rest, before, after⟩ := items_perm here
  refine ⟨cell, rest, here, before, fun item => ⟨s.set c (some { cell with item := item }), ?_, fun d => ?_, after _⟩⟩
  · rw [Cells.put, here, Option.map_some]
  · rw [cell_set (lt_of_cell here)]
    by_cases same : d = c
    · subst same
      rw [if_pos rfl, if_pos mem]
      exact congrArg some counted
    · rw [if_neg same, h d]

theorem share (h : s.Exact handles) (mem : c ∈ handles) : ∃ s', s.share c = some s' ∧
    s'.Exact (c :: handles) ∧ s'.items.Perm s.items := by
  obtain ⟨cell, here, counted⟩ := h.there mem
  obtain ⟨rest, before, after⟩ := items_perm here
  refine ⟨s.set c (some { cell with count := cell.count + 1 }), by rw [Cells.share, here]; rfl, fun d => ?_,
    (after (some _)).trans before.symm⟩
  rw [cell_set (lt_of_cell here)]
  by_cases same : d = c
  · subst same
    rw [if_pos rfl, if_pos List.mem_cons_self, List.count_cons_self, Option.map_some, counted]
    simp
  · rw [if_neg same, h d, List.count_cons_of_ne (Ne.symm same)]
    exact if_congr (by simp [same]) rfl rfl

theorem release (h : s.Exact (c :: handles)) : ∃ gone s', s.release c = some (gone, s') ∧ s'.Exact handles ∧
    s.items.Perm (gone.toList ++ s'.items) ∧ (gone.isSome ↔ c ∉ handles) := by
  obtain ⟨cell, here, counted⟩ := h.there List.mem_cons_self
  obtain ⟨rest, before, after⟩ := items_perm here
  rw [List.count_cons_self] at counted
  by_cases mem : c ∈ handles
  · have more := List.count_pos_iff.mpr mem
    have still := after (some { cell with count := cell.count - 1 })
    refine ⟨none, s.set c (some { cell with count := cell.count - 1 }), ?_, fun d => ?_,
      before.trans still.symm, by simp [mem]⟩
    · rw [Cells.release, here, Option.map_some, if_neg (by omega)]
    · rw [cell_set (lt_of_cell here)]
      by_cases same : d = c
      · subst same
        rw [if_pos rfl, if_pos mem, Option.map_some]
        exact congrArg some (by dsimp only; omega)
      · rw [if_neg same, h d, List.count_cons_of_ne (Ne.symm same)]
        exact if_congr (by simp [same]) rfl rfl
  · have last := List.count_eq_zero_of_not_mem mem
    refine ⟨some cell.item, s.set c none, ?_, fun d => ?_, before.trans ((after none).symm.cons _), by simp [mem]⟩
    · rw [Cells.release, here, Option.map_some, if_pos (by omega)]
    · rw [cell_set (lt_of_cell here)]
      by_cases same : d = c
      · subst same
        rw [if_pos rfl, if_neg mem]
        rfl
      · rw [if_neg same, h d, List.count_cons_of_ne (Ne.symm same)]
        exact if_congr (by simp [same]) rfl rfl

end Exact

end Cells
end FileHash.Lib
