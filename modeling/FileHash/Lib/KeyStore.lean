import FileHash.Lib.Prog

/-! A store of values under keys, known by its operations. `contents` is what a state of
the store holds; a store is lawful when its operations read and change that and nothing
else. A put may be refused: of a key that is not there exactly when it is not admitted. The laws
are about the states a store keeps to and the puts that it is told of, not about all. -/
namespace FileHash.Lib

structure KeyStore (σ ε κ υ : Type) where
  put : κ → υ → Prog σ ε Int
  /-- The value, or the status that says why there is none. -/
  get : κ → Prog σ ε (Except Int υ)

namespace KeyStore

variable {σ ε κ υ : Type} [DecidableEq κ]

/-- `sound` are the states that the store keeps to, and `covers` the puts it is told of. -/
structure Lawful (db : KeyStore σ ε κ υ) (contents : σ → κ → Option υ) (sound : σ → Prop)
    (covers : σ → κ → υ → Prop) (admits : κ → υ → Prop) : Prop where
  get_returns : ∀ {s} k, sound s → ∃ r s', (db.get k).Returns s r s' ∧ r.toOption = contents s k ∧
    contents s' = contents s ∧ sound s'
  put_returns : ∀ {s k v}, sound s → covers s k v → ∃ st s', (db.put k v).Returns s st s' ∧
    (contents s k = none → (st = 0 ↔ admits k v)) ∧
    contents s' = (if st = 0 then Function.update (contents s) k (some v) else contents s) ∧ sound s'

variable {db : KeyStore σ ε κ υ} {contents : σ → κ → Option υ} {sound : σ → Prop} {covers : σ → κ → υ → Prop}
  {admits : κ → υ → Prop}

namespace Lawful

variable (law : db.Lawful contents sound covers admits) {s s' : σ} {k : κ} {v : υ}
include law

theorem get_keeps {r : Except Int υ} (here : sound s) (h : (db.get k).Returns s r s') :
    r.toOption = contents s k ∧ contents s' = contents s ∧ sound s' := by
  obtain ⟨r', s'', run, found, same, there⟩ := law.get_returns k here
  obtain ⟨rfl, rfl⟩ := h.unique run
  exact ⟨found, same, there⟩

theorem get_found (here : sound s) (h : contents s k = some v) :
    ∃ s', (db.get k).Returns s (.ok v) s' ∧ contents s' = contents s ∧ sound s' := by
  obtain ⟨r, s', run, found, same, there⟩ := law.get_returns k here
  rw [h] at found
  cases r with
  | error st => cases found
  | ok w =>
    cases found
    exact ⟨s', run, same, there⟩

theorem put_stored (here : sound s) (told : covers s k v) (h : (db.put k v).Returns s 0 s') :
    contents s' = Function.update (contents s) k (some v) := by
  obtain ⟨st, s'', run, _, change, _⟩ := law.put_returns here told
  obtain ⟨rfl, rfl⟩ := h.unique run
  simpa using change

theorem put_refused {st : Int} (here : sound s) (told : covers s k v) (h : (db.put k v).Returns s st s')
    (no : st ≠ 0) : contents s' = contents s := by
  obtain ⟨st', s'', run, _, change, _⟩ := law.put_returns here told
  obtain ⟨rfl, rfl⟩ := h.unique run
  rwa [if_neg no] at change

theorem put_sound {st : Int} (here : sound s) (told : covers s k v) (h : (db.put k v).Returns s st s') :
    sound s' := by
  obtain ⟨st', s'', run, _, _, there⟩ := law.put_returns here told
  obtain ⟨rfl, rfl⟩ := h.unique run
  exact there

end Lawful

def listContents (l : List (κ × υ)) (k : κ) : Option υ := l.lookup k

def ofList (admits : κ → υ → Bool) : KeyStore (List (κ × υ)) ε κ υ where
  put k v := do
    if admits k v then
      Prog.modify fun l => (k, v) :: l.filter fun p => p.1 != k
      pure 0
    else pure (-1)
  get k := do
    let l ← Prog.read
    match listContents l k with
    | some v => pure (.ok v)
    | none => pure (.error 1)

theorem lookup_cons_ne {l : List (κ × υ)} {p : κ × υ} {k : κ} (ne : k ≠ p.1) :
    (p :: l).lookup k = l.lookup k := by
  rw [List.lookup_cons, beq_eq_false_iff_ne.mpr ne]

theorem lookup_of_mem {κ : Type} [BEq κ] [LawfulBEq κ] {l : List (κ × υ)} {k : κ} {v : υ}
    (once : (l.map Prod.fst).Nodup) (mem : (k, v) ∈ l) : l.lookup k = some v := by
  induction l with
  | nil => exact absurd mem List.not_mem_nil
  | cons p l ih =>
    rw [List.map_cons, List.nodup_cons] at once
    rcases List.mem_cons.mp mem with rfl | mem
    · simp
    · have ne : k ≠ p.1 := fun same => once.1 (List.mem_map.mpr ⟨(k, v), mem, same⟩)
      rw [List.lookup_cons, beq_eq_false_iff_ne.mpr ne]
      exact ih once.2 mem

theorem lookup_filter_ne {l : List (κ × υ)} {k k' : κ} (ne : k' ≠ k) :
    (l.filter fun p => p.1 != k).lookup k' = l.lookup k' := by
  induction l with
  | nil => rfl
  | cons p l ih =>
    by_cases this_one : p.1 = k
    · rw [List.filter_cons_of_neg (by simp [this_one]), ih,
        lookup_cons_ne fun same => ne (same.trans this_one)]
    · rw [List.filter_cons_of_pos (by simp [this_one]), List.lookup_cons, List.lookup_cons, ih]

def Admitted (admits : κ → υ → Bool) (l : List (κ × υ)) : Prop := ∀ k v, listContents l k = some v → admits k v = true

theorem ofList_lawful (admits : κ → υ → Bool) :
    (ofList admits : KeyStore (List (κ × υ)) ε κ υ).Lawful listContents (Admitted admits)
      (fun _ _ _ => True) (fun k v => admits k v = true) where
  get_returns {l} k sound := by
    cases here : listContents l k with
    | none => exact ⟨.error 1, l, by simp [ofList, Prog.Returns, here], rfl, rfl, sound⟩
    | some v => exact ⟨.ok v, l, by simp [ofList, Prog.Returns, here], rfl, rfl, sound⟩
  put_returns {l k v} sound _ := by
    cases yes : admits k v with
    | false => exact ⟨-1, l, by simp [ofList, Prog.Returns, yes], by simp, by simp, sound⟩
    | true =>
      have change : listContents ((k, v) :: l.filter fun p => p.1 != k) =
          Function.update (listContents l) k (some v) := by
        funext k'
        by_cases same : k' = k
        · simp [listContents, same, Function.update_self]
        · rw [Function.update_of_ne same]
          exact (lookup_cons_ne same).trans (lookup_filter_ne same)
      refine ⟨0, (k, v) :: l.filter fun p => p.1 != k, by simp [ofList, Prog.Returns, yes], by simp,
        by rw [if_pos rfl, change], fun k' v' there => ?_⟩
      rw [change] at there
      by_cases same : k' = k
      · subst same
        rw [Function.update_self, Option.some.injEq] at there
        rwa [← there]
      · rw [Function.update_of_ne same] at there
        exact sound k' v' there

def inside {τ : Type} (get : τ → σ) (set : σ → τ → τ) (db : KeyStore σ ε κ υ) :
    KeyStore τ ε κ υ where
  put k v := Prog.zoom get set (db.put k v)
  get k := Prog.zoom get set (db.get k)

theorem Lawful.inside {τ : Type} {get : τ → σ} {set : σ → τ → τ}
    (law : db.Lawful contents sound covers admits) (get_set : ∀ s t, get (set s t) = s) :
    (db.inside get set).Lawful (fun t => contents (get t)) (fun t => sound (get t))
      (fun t => covers (get t)) admits where
  get_returns {t} k here := by
    obtain ⟨r, s', run, found, same, there⟩ := law.get_returns k here
    refine ⟨r, set s' t, Prog.returns_zoom.mpr ⟨s', run, rfl⟩, found, ?_⟩
    rw [get_set]
    exact ⟨same, there⟩
  put_returns {t k v} here told := by
    obtain ⟨st, s', run, fresh, change, there⟩ := law.put_returns here told
    refine ⟨st, set s' t, Prog.returns_zoom.mpr ⟨s', run, rfl⟩, fresh, ?_⟩
    rw [get_set]
    exact ⟨change, there⟩

end KeyStore
end FileHash.Lib
