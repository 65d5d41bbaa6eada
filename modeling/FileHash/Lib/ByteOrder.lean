import FileHash.Lib.Bytes
import Mathlib.Data.List.Pairwise
import Mathlib.Logic.Function.Basic

/-! Words of memory in either byte order, and the reversal of the fields of a record in
place. Fields that lie apart are reversed independently of each other: the words read in
the one order before are read in the other order after, and nothing else moves. -/
namespace FileHash.Lib

inductive ByteOrder where
  | little
  | big
  deriving DecidableEq, Repr

def ByteOrder.other : ByteOrder → ByteOrder
  | .little => .big
  | .big => .little

@[simp] theorem ByteOrder.other_other (o : ByteOrder) : o.other.other = o := by
  cases o <;> rfl

namespace Mem

def word16 : ByteOrder → Mem → Nat → Nat
  | .little, m, a => read16 m a
  | .big, m, a => (m (a + 1)).toNat + 256 * (m a).toNat

def word32 : ByteOrder → Mem → Nat → Nat
  | .little, m, a => read32 m a
  | .big, m, a => (m (a + 3)).toNat + 256 * (m (a + 2)).toNat + 65536 * (m (a + 1)).toNat +
      16777216 * (m a).toNat

def put32 : ByteOrder → Mem → Nat → Nat → Mem
  | .little, m, a, v => write32 m a v
  | .big, m, a, v => copy m a (fun i => byteOf v (3 - i)) 4

/-- The `w` bytes from `a` on, in reverse. -/
def mirror (m : Mem) (a w : Nat) : Mem := copy m a (fun i => m (a + w - 1 - i)) w

def mirrors (m : Mem) (l : List (Nat × Nat)) : Mem := l.foldl (fun m r => mirror m r.1 r.2) m

def Covers (r : Nat × Nat) (i : Nat) : Prop := r.1 ≤ i ∧ i < r.1 + r.2

instance (r : Nat × Nat) (i : Nat) : Decidable (Covers r i) := by unfold Covers; infer_instance

def Apart (r s : Nat × Nat) : Prop := r.1 + r.2 ≤ s.1 ∨ s.1 + s.2 ≤ r.1

instance (r s : Nat × Nat) : Decidable (Apart r s) := by unfold Apart; infer_instance

theorem Apart.symm {r s : Nat × Nat} (h : Apart r s) : Apart s r := Or.symm h

instance : Std.Symm Apart := ⟨fun _ _ h => h.symm⟩

variable {m m' : Mem} {o : ByteOrder} {a w i v : Nat} {r s : Nat × Nat} {l l' : List (Nat × Nat)}

theorem word16_congr (h : ∀ i, a ≤ i → i < a + 2 → m i = m' i) : word16 o m a = word16 o m' a := by
  cases o with
  | little => exact read16_congr h
  | big =>
    simp only [word16]
    rw [h a (by omega) (by omega), h (a + 1) (by omega) (by omega)]

theorem word32_congr (h : ∀ i, a ≤ i → i < a + 4 → m i = m' i) : word32 o m a = word32 o m' a := by
  cases o with
  | little => exact read32_congr h
  | big =>
    simp only [word32]
    rw [h a (by omega) (by omega), h (a + 1) (by omega) (by omega),
      h (a + 2) (by omega) (by omega), h (a + 3) (by omega) (by omega)]

theorem word32_put32_same : word32 o (put32 o m a v) a = v % 4294967296 := by
  cases o with
  | little => exact read32_write32_same
  | big =>
    simp only [word32, put32]
    rw [copy_inside (by omega), copy_inside (by omega), copy_inside (by omega),
      copy_inside (by omega)]
    simp only [Nat.sub_self, Nat.add_sub_cancel_left, byteOf, UInt8.toNat_ofNat', Nat.sub_zero]
    omega

theorem word32_update {b : UInt8} (low : a ≤ i) (high : i < a + 4) (ne : b ≠ m i) :
    word32 o (Function.update m i b) a ≠ word32 o m a := by
  intro same
  refine ne (UInt8.toNat_inj.mp ?_)
  have bound : ∀ (m : Mem) j, (m j).toNat < 256 := fun m j => (m j).toNat_lt
  have value : ∀ j, j ≠ i → (Function.update m i b) j = m j := fun j h => Function.update_of_ne h _ _
  have here : (Function.update m i b) i = b := Function.update_self _ _ _
  obtain rfl | rfl | rfl | rfl : i = a ∨ i = a + 1 ∨ i = a + 2 ∨ i = a + 3 := by omega
  all_goals
    cases o
    all_goals
      simp only [word32, read32] at same
      rw [here, value _ (by omega), value _ (by omega), value _ (by omega)] at same
      omega

theorem word32_update_outside {b : UInt8} (out : i < a ∨ a + 4 ≤ i) :
    word32 o (Function.update m i b) a = word32 o m a :=
  word32_congr fun _ _ _ => Function.update_of_ne (by omega) _ _

theorem put32_outside (h : i < a ∨ a + 4 ≤ i) : put32 o m a v i = m i := by
  cases o with
  | little => exact write32_outside h
  | big =>
    simp only [put32]
    exact copy_outside h

theorem mirror_inside (h : a ≤ i ∧ i < a + w) : mirror m a w i = m (a + (a + w - 1 - i)) := by
  rw [mirror, copy_inside h]
  congr 1
  omega

theorem mirror_outside (h : i < a ∨ a + w ≤ i) : mirror m a w i = m i := copy_outside h

theorem mirrors_cons : mirrors m (r :: l) = mirrors (mirror m r.1 r.2) l := rfl

theorem mirrors_append : mirrors m (l ++ l') = mirrors (mirrors m l) l' := List.foldl_append

theorem mirrors_outside (out : ∀ r ∈ l, ¬Covers r i) : mirrors m l i = m i := by
  induction l generalizing m with
  | nil => rfl
  | cons r l ih =>
    rw [mirrors_cons, ih fun s mem => out s (List.mem_cons_of_mem _ mem)]
    have here := out r List.mem_cons_self
    simp only [Covers] at here
    exact mirror_outside (by omega)

theorem mirrors_inside (apart : l.Pairwise Apart) (mem : r ∈ l) (cover : Covers r i) :
    mirrors m l i = m (r.1 + (r.1 + r.2 - 1 - i)) := by
  induction l generalizing m with
  | nil => cases mem
  | cons s l ih =>
    obtain ⟨first, rest⟩ := List.pairwise_cons.mp apart
    rw [mirrors_cons]
    simp only [Covers] at cover
    rcases List.mem_cons.mp mem with rfl | mem
    · rw [mirrors_outside, mirror_inside cover]
      intro t memt
      have := first t memt
      simp only [Apart] at this
      simp only [Covers]
      omega
    · rw [ih rest mem]
      have := first r mem
      simp only [Apart] at this
      exact mirror_outside (by omega)

theorem mirrors_congr (apart : l.Pairwise Apart) (apart' : l'.Pairwise Apart)
    (same : ∀ r, r ∈ l ↔ r ∈ l') : mirrors m l = mirrors m l' := by
  funext i
  by_cases covered : ∃ r ∈ l, Covers r i
  · obtain ⟨r, mem, cover⟩ := covered
    rw [mirrors_inside apart mem cover, mirrors_inside apart' ((same r).mp mem) cover]
  · have out : ∀ r ∈ l, ¬Covers r i := fun r mem cover => covered ⟨r, mem, cover⟩
    rw [mirrors_outside out, mirrors_outside fun r mem => out r ((same r).mpr mem)]

theorem mirrors_mirrors (apart : l.Pairwise Apart) : mirrors (mirrors m l) l = m := by
  funext i
  by_cases covered : ∃ r ∈ l, Covers r i
  · obtain ⟨r, mem, cover⟩ := covered
    simp only [Covers] at cover
    have back : Covers r (r.1 + (r.1 + r.2 - 1 - i)) := by simp only [Covers]; omega
    rw [mirrors_inside apart mem cover, mirrors_inside apart mem back]
    congr 1
    omega
  · have out : ∀ r ∈ l, ¬Covers r i := fun r mem cover => covered ⟨r, mem, cover⟩
    rw [mirrors_outside out, mirrors_outside out]

theorem mirrors_apart (out : ∀ s ∈ l, Apart (a, w) s) (inside : a ≤ i ∧ i < a + w) :
    mirrors m l i = m i := by
  refine mirrors_outside fun s mem => ?_
  have := out s mem
  simp only [Apart] at this
  simp only [Covers]
  omega

theorem word32_mirrors (apart : l.Pairwise Apart) (mem : (a, 4) ∈ l) :
    word32 o.other (mirrors m l) a = word32 o m a := by
  have at_ : ∀ j, j < 4 → mirrors m l (a + j) = m (a + (3 - j)) := fun j hj => by
    rw [mirrors_inside (r := (a, 4)) apart mem (by simp only [Covers]; omega)]
    congr 1
    simp only
    omega
  have zero := at_ 0 (by omega)
  rw [Nat.add_zero] at zero
  cases o with
  | little =>
    simp only [ByteOrder.other, word32, read32]
    rw [zero, at_ 1 (by omega), at_ 2 (by omega), at_ 3 (by omega)]
    rfl
  | big =>
    simp only [ByteOrder.other, word32, read32]
    rw [zero, at_ 1 (by omega), at_ 2 (by omega), at_ 3 (by omega)]
    rfl

theorem word16_mirrors (apart : l.Pairwise Apart) (mem : (a, 2) ∈ l) :
    word16 o.other (mirrors m l) a = word16 o m a := by
  have at_ : ∀ j, j < 2 → mirrors m l (a + j) = m (a + (1 - j)) := fun j hj => by
    rw [mirrors_inside (r := (a, 2)) apart mem (by simp only [Covers]; omega)]
    congr 1
    simp only
    omega
  have zero := at_ 0 (by omega)
  rw [Nat.add_zero] at zero
  cases o with
  | little =>
    simp only [ByteOrder.other, word16, read16]
    rw [zero, at_ 1 (by omega)]
    rfl
  | big =>
    simp only [ByteOrder.other, word16, read16]
    rw [zero, at_ 1 (by omega)]
    rfl

end Mem
end FileHash.Lib
