import Mathlib.Data.List.Basic
import Mathlib.Tactic.Ring
import Mathlib.Tactic.NormNum

/-! Byte-addressed memory with little-endian 16 and 32 bit words.
A store is a function of its address; each write is one closure over the store
it changes, so a read costs one comparison for each write since. -/
namespace FileHash.Lib

abbrev Mem := Nat → UInt8

namespace Mem

def read16 (m : Mem) (a : Nat) : Nat := (m a).toNat + 256 * (m (a + 1)).toNat

def read32 (m : Mem) (a : Nat) : Nat :=
  (m a).toNat + 256 * (m (a + 1)).toNat + 65536 * (m (a + 2)).toNat +
    16777216 * (m (a + 3)).toNat

/-- `n` bytes of `src` are stored from address `a` on. -/
def copy (m : Mem) (a : Nat) (src : Mem) (n : Nat) : Mem := fun i =>
  if a ≤ i ∧ i < a + n then src (i - a) else m i

def byteOf (v i : Nat) : UInt8 := UInt8.ofNat (v / 256 ^ i)

def write16 (m : Mem) (a v : Nat) : Mem := copy m a (byteOf v) 2

def write32 (m : Mem) (a v : Nat) : Mem := copy m a (byteOf v) 4

def fill (m : Mem) (a n : Nat) (b : UInt8) : Mem := copy m a (fun _ => b) n

/-- The bytes from `a` on, as the memory a pointer to `a` sees. -/
def drop (m : Mem) (a : Nat) : Mem := fun i => m (a + i)

def bytes (m : Mem) (n : Nat) : List UInt8 := (List.range n).map m

variable {m m' src : Mem} {a b n v : Nat}

theorem copy_inside (h : a ≤ b ∧ b < a + n) : copy m a src n b = src (b - a) := if_pos h

theorem copy_outside (h : b < a ∨ a + n ≤ b) : copy m a src n b = m b :=
  if_neg (by omega)

theorem read16_congr (h : ∀ i, a ≤ i → i < a + 2 → m i = m' i) :
    read16 m a = read16 m' a := by
  simp only [read16]
  rw [h a (by omega) (by omega), h (a + 1) (by omega) (by omega)]

theorem read32_congr (h : ∀ i, a ≤ i → i < a + 4 → m i = m' i) :
    read32 m a = read32 m' a := by
  simp only [read32]
  rw [h a (by omega) (by omega), h (a + 1) (by omega) (by omega),
    h (a + 2) (by omega) (by omega), h (a + 3) (by omega) (by omega)]

theorem read16_copy (h : a + n ≤ b ∨ b + 2 ≤ a) :
    read16 (copy m a src n) b = read16 m b :=
  read16_congr fun _ _ _ => copy_outside (by omega)

theorem read32_copy (h : a + n ≤ b ∨ b + 4 ≤ a) :
    read32 (copy m a src n) b = read32 m b :=
  read32_congr fun _ _ _ => copy_outside (by omega)

@[simp] theorem read16_write16_same : read16 (write16 m a v) a = v % 65536 := by
  simp only [read16, write16]
  rw [copy_inside (by omega), copy_inside (by omega)]
  simp only [Nat.sub_self, Nat.add_sub_cancel_left, byteOf, UInt8.toNat_ofNat']
  omega

@[simp] theorem read32_write32_same : read32 (write32 m a v) a = v % 4294967296 := by
  simp only [read32, write32]
  rw [copy_inside (by omega), copy_inside (by omega), copy_inside (by omega),
    copy_inside (by omega)]
  simp only [Nat.sub_self, Nat.add_sub_cancel_left, byteOf, UInt8.toNat_ofNat']
  omega

theorem read32_write32 (h : a + 4 ≤ b ∨ b + 4 ≤ a) :
    read32 (write32 m a v) b = read32 m b := read32_copy h

theorem read16_write32 (h : a + 4 ≤ b ∨ b + 2 ≤ a) :
    read16 (write32 m a v) b = read16 m b := read16_copy h

theorem read32_write16 (h : a + 2 ≤ b ∨ b + 4 ≤ a) :
    read32 (write16 m a v) b = read32 m b := read32_copy h

theorem read16_write16 (h : a + 2 ≤ b ∨ b + 2 ≤ a) :
    read16 (write16 m a v) b = read16 m b := read16_copy h

theorem write32_outside (h : b < a ∨ a + 4 ≤ b) : write32 m a v b = m b := copy_outside h

theorem write16_outside (h : b < a ∨ a + 2 ≤ b) : write16 m a v b = m b := copy_outside h

theorem write32_read32 : write32 m a (read32 m a) = m := by
  funext i
  by_cases inside : a ≤ i ∧ i < a + 4
  · rw [write32, copy_inside inside]
    have b0 := (m a).toNat_lt
    have b1 := (m (a + 1)).toNat_lt
    have b2 := (m (a + 2)).toNat_lt
    have b3 := (m (a + 3)).toNat_lt
    obtain ⟨k, rfl⟩ := Nat.exists_eq_add_of_le inside.1
    have low : k < 4 := by omega
    rw [Nat.add_sub_cancel_left]
    apply UInt8.toNat_inj.mp
    simp only [byteOf, read32, UInt8.toNat_ofNat']
    obtain rfl | rfl | rfl | rfl : k = 0 ∨ k = 1 ∨ k = 2 ∨ k = 3 := by omega
    · rw [pow_zero, Nat.div_one, show a + 0 = a from rfl]
      omega
    all_goals omega
  · exact write32_outside (by omega)

theorem read16_lt : read16 m a < 65536 := by
  have := (m a).toNat_lt
  have := (m (a + 1)).toNat_lt
  simp only [read16]
  omega

theorem read32_lt : read32 m a < 4294967296 := by
  have := (m a).toNat_lt
  have := (m (a + 1)).toNat_lt
  have := (m (a + 2)).toNat_lt
  have := (m (a + 3)).toNat_lt
  simp only [read32]
  omega

@[simp] theorem length_bytes : (bytes m n).length = n := by simp [bytes]

theorem getElem_bytes (i : Nat) (h : i < (bytes m n).length) : (bytes m n)[i] = m i := by
  simp [bytes]

theorem bytes_congr (h : ∀ i, i < n → m i = m' i) : bytes m n = bytes m' n := by
  simp only [bytes]
  exact List.map_congr_left fun i hi => h i (List.mem_range.mp hi)

theorem bytes_inj (h : bytes m n = bytes m' n) (i : Nat) (hi : i < n) : m i = m' i := by
  have e := congrArg (fun l => l[i]?) h
  simpa [bytes, hi] using e

theorem bytes_add (k : Nat) : bytes m (k + n) = bytes m k ++ bytes (drop m k) n := by
  simp only [bytes, List.range_add, List.map_append, List.map_map]
  rfl

@[simp] theorem bytes_zero : bytes m 0 = [] := rfl

theorem bytes_drop_eq {k : Nat} (fits : a + k ≤ n) : bytes (drop m a) k = ((bytes m n).drop a).take k := by
  refine List.ext_getElem ?_ fun i low low' => ?_
  · simp only [length_bytes, List.length_take, List.length_drop]
    omega
  · rw [getElem_bytes, List.getElem_take, List.getElem_drop, getElem_bytes]
    rfl

theorem bytes_take {k : Nat} (fits : k ≤ n) : bytes m k = (bytes m n).take k := by
  have whole := bytes_drop_eq (m := m) (a := 0) (k := k) (n := n) (by omega)
  rw [List.drop_zero] at whole
  rw [← whole]
  exact bytes_congr fun i _ => by simp [drop]

theorem bytes_drop_copy_le {k : Nat} (fits : k ≤ n) : bytes (drop (copy m a src n) a) k = bytes src k := by
  apply bytes_congr
  intro i hi
  simp only [drop]
  rw [copy_inside (by omega), Nat.add_sub_cancel_left]

theorem bytes_drop_copy : bytes (drop (copy m a src n) a) n = bytes src n := by
  apply bytes_congr
  intro i hi
  simp only [drop]
  rw [copy_inside (by omega), Nat.add_sub_cancel_left]

end Mem
end FileHash.Lib
