import FileHash.HashHeader
import FileHash.Lib.ByteOrder
import FileHash.PageIntegrity

/-! The header record on machines of either byte order: how `_ffdb_hput_header` writes it
and `_ffdb_hget_header` reads it. A machine that keeps its words little-endian reverses the
fields on the way. Both orders write the one record of `Hashhdr.encode`. -/
namespace FileHash

open Lib (ByteOrder)
open Lib.Mem

def bytes32 : ByteOrder → Nat → List UInt8
  | .little, v => (beBytes32 v).reverse
  | .big, v => beBytes32 v

def bytes16 : ByteOrder → Nat → List UInt8
  | .little, v => (beBytes16 v).reverse
  | .big, v => beBytes16 v

def memOf (l : List UInt8) : Lib.Mem := (Dbt.ofBytes l).data

namespace Hashhdr

/-- `ffdb_hashhdr_t` as it lies in the memory of a machine, the checksum apart. -/
def memory (mborder : ByteOrder) (hdr : Hashhdr) : List UInt8 :=
  hdr.frontWords.flatMap (bytes32 mborder) ++ hdr.halfWords.flatMap (bytes16 mborder) ++
    hdr.backWords.flatMap (bytes32 mborder)

def ofMemory (mborder : ByteOrder) (m : Lib.Mem) : Hashhdr where
  magic := word32 mborder m 0
  version := word32 mborder m 4
  lorder := word32 mborder m 8
  bsize := word32 mborder m 12
  bshift := word32 mborder m 16
  ovflPoint := word32 mborder m 20
  maxBucket := word32 mborder m 24
  highMask := word32 mborder m 28
  lowMask := word32 mborder m 32
  ffactor := word32 mborder m 36
  nkeys := word32 mborder m 40
  hdrpages := word32 mborder m 44
  uinfolen := word32 mborder m 48
  uinfoPage := word16 mborder m 52
  uinfoNpages := word16 mborder m 54
  cfigPage := word16 mborder m 56
  cfigNpages := word16 mborder m 58
  numCfigs := word32 mborder m 60
  hCharkey := word32 mborder m 64
  numMovedPages := word32 mborder m 68
  spares i := if i < ncached then word32 mborder m (72 + 4 * i) else 0
  freePages i := if i < ncached then word32 mborder m (200 + 4 * i) else 0

end Hashhdr

/-- The fields `_ffdb_swap_header` and `_ffdb_swap_header_copy` go through: thirteen words,
four half words, three words, the two tables and the checksum. -/
def swappedFields : List (Nat × Nat) :=
  (List.range 13).map (fun k => (4 * k, 4)) ++ (List.range 4).map (fun k => (52 + 2 * k, 2)) ++
    (List.range (3 + ncached + ncached)).map (fun k => (60 + 4 * k, 4)) ++ [(328, 4)]

/-- `_ffdb_swap_header`. -/
def swapHeader (hdr : Lib.Mem) : Lib.Mem := mirrors hdr swappedFields

/-- `P_32_COPY` and `P_16_COPY`. -/
def swapCopy (src dest : Lib.Mem) (r : Nat × Nat) : Lib.Mem :=
  dest.copy r.1 (fun i => src (r.1 + (r.2 - 1 - i))) r.2

/-- `_ffdb_swap_header_copy`. -/
def swapHeaderCopy (src dest : Lib.Mem) : Lib.Mem := swappedFields.foldl (swapCopy src) dest

/-- `_ffdb_hput_header`: the bytes it writes. `stack` is what was in the local copy before. -/
def hputHeader (mborder : ByteOrder) (hdr : Hashhdr) (stack : Lib.Mem) : List UInt8 :=
  let whdr := match mborder with
    | .little => swapHeaderCopy (memOf (hdr.memory .little)) stack
    | .big => memOf (hdr.memory .big)
  let chksum := Checksum.crc32Checksum 0 (whdr.bytes (hashhdrSize - 4))
  let chksum := match mborder with
    | .little => bswap32 chksum
    | .big => chksum
  (put32 mborder whdr (hashhdrSize - 4) chksum).bytes hashhdrSize

/-- What `_ffdb_hget_header` comes to: the file is too short, the checksum is wrong and the
process ends, or there is a header. -/
inductive HeaderRead where
  | short
  | checksum
  | ok (hdr : Hashhdr)

/-- `_ffdb_hget_header` on the bytes at the start of the file. -/
def hgetHeader (mborder : ByteOrder) (file : List UInt8) : HeaderRead :=
  if file.length < hashhdrSize then .short
  else
    let dest := memOf file
    let newchksum := Checksum.crc32Checksum 0 (dest.bytes (hashhdrSize - 4))
    let hdr := match mborder with
      | .little => swapHeader dest
      | .big => dest
    if newchksum ≠ word32 mborder hdr (hashhdrSize - 4) then .checksum
    else .ok (Hashhdr.ofMemory mborder hdr)

variable {o : ByteOrder} {hdr : Hashhdr} {l pre post : List UInt8} {ws : List Nat} {k v : Nat}

theorem memOf_apply (i : Nat) : memOf l i = l.getD i 0 := rfl

theorem bytes_memOf : (memOf l).bytes l.length = l := by
  apply List.ext_getElem
  · simp
  · intro i h h'
    rw [getElem_bytes, memOf_apply, List.getD_eq_getElem _ _ h']

theorem memOf_append_left {i : Nat} (h : i < pre.length) : memOf (pre ++ post) i = memOf pre i := by
  simp only [memOf_apply, List.getD_append _ _ _ _ h]

theorem memOf_append_right (i : Nat) : memOf (pre ++ post) (pre.length + i) = memOf post i := by
  simp only [memOf_apply]
  rw [List.getD_append_right _ _ _ _ (Nat.le_add_right _ _), Nat.add_sub_cancel_left]

/-- A table of words of one width, met at its `k`th word. -/
theorem memOf_flatMap {f : Nat → List UInt8} {w : Nat} (each : ∀ v, (f v).length = w)
    (hk : k < ws.length) {j : Nat} (hj : j < w) :
    memOf (ws.flatMap f) (w * k + j) = memOf (f ws[k]) j := by
  induction ws generalizing k with
  | nil => exact absurd hk (Nat.not_lt_zero k)
  | cons v ws ih =>
    rw [List.flatMap_cons]
    cases k with
    | zero =>
      rw [Nat.mul_zero, Nat.zero_add, memOf_append_left (by rw [each]; exact hj)]
      rfl
    | succ k =>
      rw [show w * (k + 1) + j = (f v).length + (w * k + j) by rw [each]; ring, memOf_append_right,
        ih (Nat.lt_of_succ_lt_succ hk)]
      rfl

theorem length_bytes32 (o : ByteOrder) (v : Nat) : (bytes32 o v).length = 4 := by
  cases o <;> rfl

theorem length_bytes16 (o : ByteOrder) (v : Nat) : (bytes16 o v).length = 2 := by
  cases o <;> rfl

theorem memOf_bytes32_little {j : Nat} (hj : j < 4) :
    memOf (bytes32 .little v) (3 - j) = memOf (bytes32 .big v) j := by
  obtain rfl | rfl | rfl | rfl : j = 0 ∨ j = 1 ∨ j = 2 ∨ j = 3 := by omega
  all_goals rfl

theorem memOf_bytes16_little {j : Nat} (hj : j < 2) :
    memOf (bytes16 .little v) (1 - j) = memOf (bytes16 .big v) j := by
  obtain rfl | rfl : j = 0 ∨ j = 1 := by omega
  all_goals rfl

theorem word32_memOf (hv : v < 4294967296) : word32 o (memOf (bytes32 o v)) 0 = v := by
  have byte : ∀ n : Nat, (UInt8.ofNat n).toNat = n % 256 := fun n => UInt8.toNat_ofNat'
  cases o with
  | little =>
    change (UInt8.ofNat v).toNat + 256 * (UInt8.ofNat (v / 0x100)).toNat +
      65536 * (UInt8.ofNat (v / 0x10000)).toNat + 16777216 * (UInt8.ofNat (v / 0x1000000)).toNat = v
    simp only [byte]
    omega
  | big =>
    change (UInt8.ofNat v).toNat + 256 * (UInt8.ofNat (v / 0x100)).toNat +
      65536 * (UInt8.ofNat (v / 0x10000)).toNat + 16777216 * (UInt8.ofNat (v / 0x1000000)).toNat = v
    simp only [byte]
    omega

theorem word16_memOf (hv : v < 65536) : word16 o (memOf (bytes16 o v)) 0 = v := by
  have byte : ∀ n : Nat, (UInt8.ofNat n).toNat = n % 256 := fun n => UInt8.toNat_ofNat'
  cases o with
  | little =>
    change (UInt8.ofNat v).toNat + 256 * (UInt8.ofNat (v / 0x100)).toNat = v
    simp only [byte]
    omega
  | big =>
    change (UInt8.ofNat v).toNat + 256 * (UInt8.ofNat (v / 0x100)).toNat = v
    simp only [byte]
    omega

theorem word32_flatMap (o : ByteOrder) (pre post : List UInt8) {ws : List Nat} (hk : k < ws.length)
    (hv : ws[k] < 4294967296) :
    word32 o (memOf (pre ++ ws.flatMap (bytes32 o) ++ post)) (pre.length + 4 * k) = ws[k] := by
  have size := length_flatMap_const (length_bytes32 o) ws
  refine Eq.trans ?_ (word32_memOf (o := o) hv)
  have at_ : ∀ j, j < 4 → memOf (pre ++ ws.flatMap (bytes32 o) ++ post) (pre.length + 4 * k + j) =
      memOf (bytes32 o ws[k]) j := fun j hj => by
    rw [List.append_assoc, Nat.add_assoc, memOf_append_right, memOf_append_left (by omega),
      memOf_flatMap (length_bytes32 o) hk hj]
  have zero := at_ 0 (by omega)
  rw [Nat.add_zero] at zero
  cases o with
  | little =>
    simp only [word32, read32]
    rw [zero, at_ 1 (by omega), at_ 2 (by omega), at_ 3 (by omega)]
  | big =>
    simp only [word32]
    rw [zero, at_ 1 (by omega), at_ 2 (by omega), at_ 3 (by omega)]

theorem word16_flatMap (o : ByteOrder) (pre post : List UInt8) {ws : List Nat} (hk : k < ws.length)
    (hv : ws[k] < 65536) :
    word16 o (memOf (pre ++ ws.flatMap (bytes16 o) ++ post)) (pre.length + 2 * k) = ws[k] := by
  have size := length_flatMap_const (length_bytes16 o) ws
  refine Eq.trans ?_ (word16_memOf (o := o) hv)
  have at_ : ∀ j, j < 2 → memOf (pre ++ ws.flatMap (bytes16 o) ++ post) (pre.length + 2 * k + j) =
      memOf (bytes16 o ws[k]) j := fun j hj => by
    rw [List.append_assoc, Nat.add_assoc, memOf_append_right, memOf_append_left (by omega),
      memOf_flatMap (length_bytes16 o) hk hj]
  have zero := at_ 0 (by omega)
  rw [Nat.add_zero] at zero
  cases o with
  | little =>
    simp only [word16, read16]
    rw [zero, at_ 1 (by omega)]
  | big =>
    simp only [word16]
    rw [zero, at_ 1 (by omega)]

theorem swappedFields_apart : swappedFields.Pairwise Apart := by decide +kernel

theorem front_mem (hk : k < 13) : (4 * k, 4) ∈ swappedFields := by
  simp only [swappedFields, List.mem_append, List.mem_map, List.mem_range]
  exact .inl (.inl (.inl ⟨k, hk, rfl⟩))

theorem half_mem (hk : k < 4) : (52 + 2 * k, 2) ∈ swappedFields := by
  simp only [swappedFields, List.mem_append, List.mem_map, List.mem_range]
  exact .inl (.inl (.inr ⟨k, hk, rfl⟩))

theorem back_mem (hk : k < 67) : (60 + 4 * k, 4) ∈ swappedFields := by
  simp only [swappedFields, List.mem_append, List.mem_map, List.mem_range]
  exact .inl (.inr ⟨k, hk, rfl⟩)

theorem swapCopies_inside {src dest : Lib.Mem} {l : List (Nat × Nat)} (apart : l.Pairwise Apart)
    {r : Nat × Nat} (mem : r ∈ l) {i : Nat} (cover : Covers r i) :
    l.foldl (swapCopy src) dest i = src (r.1 + (r.1 + r.2 - 1 - i)) := by
  induction l generalizing dest with
  | nil => cases mem
  | cons s l ih =>
    obtain ⟨first, rest⟩ := List.pairwise_cons.mp apart
    simp only [Covers] at cover
    rcases List.mem_cons.mp mem with rfl | mem
    · have later : ∀ (l : List (Nat × Nat)) (dest : Lib.Mem), (∀ t ∈ l, Apart r t) →
          l.foldl (swapCopy src) dest i = dest i := by
        intro l
        induction l with
        | nil => exact fun _ _ => rfl
        | cons t l ih =>
          intro dest out
          rw [List.foldl_cons, ih _ fun u mem => out u (List.mem_cons_of_mem _ mem)]
          have := out t List.mem_cons_self
          simp only [Apart] at this
          exact copy_outside (by omega)
      rw [List.foldl_cons, later l _ first, swapCopy, copy_inside cover]
      congr 1
      omega
    · rw [List.foldl_cons, ih rest mem]

theorem flatMap_mirror32 (pre post pre' post' : List UInt8) {ws : List Nat} (same : pre.length = pre'.length)
    (hk : k < ws.length) {j : Nat} (hj : j < 4) :
    memOf (pre ++ ws.flatMap (bytes32 .little) ++ post) (pre.length + (4 * k + (3 - j))) =
      memOf (pre' ++ ws.flatMap (bytes32 .big) ++ post') (pre.length + (4 * k + j)) := by
  have little := length_flatMap_const (length_bytes32 .little) ws
  have big := length_flatMap_const (length_bytes32 .big) ws
  rw [List.append_assoc, memOf_append_right, memOf_append_left (by omega),
    memOf_flatMap (length_bytes32 .little) hk (by omega), same, List.append_assoc,
    memOf_append_right, memOf_append_left (by omega), memOf_flatMap (length_bytes32 .big) hk hj]
  exact memOf_bytes32_little hj

theorem flatMap_mirror16 (pre post pre' post' : List UInt8) {ws : List Nat} (same : pre.length = pre'.length)
    (hk : k < ws.length) {j : Nat} (hj : j < 2) :
    memOf (pre ++ ws.flatMap (bytes16 .little) ++ post) (pre.length + (2 * k + (1 - j))) =
      memOf (pre' ++ ws.flatMap (bytes16 .big) ++ post') (pre.length + (2 * k + j)) := by
  have little := length_flatMap_const (length_bytes16 .little) ws
  have big := length_flatMap_const (length_bytes16 .big) ws
  rw [List.append_assoc, memOf_append_right, memOf_append_left (by omega),
    memOf_flatMap (length_bytes16 .little) hk (by omega), same, List.append_assoc,
    memOf_append_right, memOf_append_left (by omega), memOf_flatMap (length_bytes16 .big) hk hj]
  exact memOf_bytes16_little hj

theorem byteOf_bswap32 (v : Nat) {j : Nat} (hj : j < 4) : byteOf (bswap32 v) j = byteOf v (3 - j) := by
  have ext : ∀ x y : Nat, x % 256 = y % 256 → UInt8.ofNat x = UInt8.ofNat y := fun x y h =>
    UInt8.toNat_inj.mp (by rw [UInt8.toNat_ofNat', UInt8.toNat_ofNat']; exact h)
  have first := Nat.mod_lt v (show 0 < 256 by decide)
  have second := Nat.mod_lt (v / 256) (show 0 < 256 by decide)
  have third := Nat.mod_lt (v / 65536) (show 0 < 256 by decide)
  have fourth := Nat.mod_lt (v / 16777216) (show 0 < 256 by decide)
  have digits : bswap32 v / 256 ^ j % 256 = v / 256 ^ (3 - j) % 256 := by
    have one : v / 1 % 256 = v % 256 := by rw [Nat.div_one]
    rw [bswap32]
    obtain rfl | rfl | rfl | rfl : j = 0 ∨ j = 1 ∨ j = 2 ∨ j = 3 := by omega
    · change _ = v / 16777216 % 256
      generalize v % 256 = a, v / 256 % 256 = b, v / 65536 % 256 = c, v / 16777216 % 256 = d at *
      omega
    · change _ = v / 65536 % 256
      generalize v % 256 = a, v / 256 % 256 = b, v / 65536 % 256 = c, v / 16777216 % 256 = d at *
      omega
    · change _ = v / 256 % 256
      generalize v % 256 = a, v / 256 % 256 = b, v / 65536 % 256 = c, v / 16777216 % 256 = d at *
      omega
    · change _ = v / 1 % 256
      rw [one]
      generalize v % 256 = a, v / 256 % 256 = b, v / 65536 % 256 = c, v / 16777216 % 256 = d at *
      omega
  exact ext _ _ digits

theorem put32_bswap32 (o : ByteOrder) (m : Lib.Mem) (a v : Nat) :
    put32 o m a (bswap32 v) = put32 o.other m a v := by
  funext i
  by_cases inside : a ≤ i ∧ i < a + 4
  · cases o with
    | little =>
      simp only [put32, write32, ByteOrder.other]
      rw [copy_inside inside, copy_inside inside, byteOf_bswap32 v (by omega)]
    | big =>
      simp only [put32, write32, ByteOrder.other]
      rw [copy_inside inside, copy_inside inside, byteOf_bswap32 v (by omega)]
      congr 1
      omega
  · rw [put32_outside (by omega), put32_outside (by omega)]

namespace Hashhdr

theorem length_front (hdr : Hashhdr) : (hdr.frontWords.flatMap (bytes32 o)).length = 52 :=
  length_flatMap_const (length_bytes32 o) _

theorem length_half (hdr : Hashhdr) : (hdr.halfWords.flatMap (bytes16 o)).length = 8 :=
  length_flatMap_const (length_bytes16 o) _

theorem length_back (hdr : Hashhdr) : hdr.backWords.length = 67 := by
  simp [backWords, ncached]

theorem length_body (hdr : Hashhdr) : hdr.body.length = 328 := by
  have size := hdr.length_encode
  rw [encode, List.length_append] at size
  change _ + 4 = 332 at size
  omega

theorem memory_big (hdr : Hashhdr) : hdr.memory .big = hdr.body := rfl

theorem swapHeaderCopy_memory (hdr : Hashhdr) (stack : Lib.Mem) {i : Nat} (hi : i < 328) :
    swapHeaderCopy (memOf (hdr.memory .little)) stack i = memOf hdr.body i := by
  have front := hdr.length_front (o := .little)
  have front' := hdr.length_front (o := .big)
  have half := hdr.length_half (o := .little)
  have half' := hdr.length_half (o := .big)
  rw [← memory_big, swapHeaderCopy]
  by_cases first : i < 52
  · have hk : i / 4 < 13 := by omega
    rw [swapCopies_inside swappedFields_apart (front_mem hk) (by simp only [Covers]; omega)]
    have inside : i / 4 < hdr.frontWords.length := hk
    have at_ := flatMap_mirror32 []
      (hdr.halfWords.flatMap (bytes16 .little) ++ hdr.backWords.flatMap (bytes32 .little)) []
      (hdr.halfWords.flatMap (bytes16 .big) ++ hdr.backWords.flatMap (bytes32 .big))
      rfl inside (Nat.mod_lt i (by omega))
    simp only [List.nil_append, ← List.append_assoc, List.length_nil, Nat.zero_add] at at_
    rw [Nat.div_add_mod] at at_
    exact Eq.trans (congrArg (memOf (hdr.memory .little)) (by simp only; omega)) at_
  by_cases second : i < 60
  · have hk : (i - 52) / 2 < 4 := by omega
    rw [swapCopies_inside swappedFields_apart (half_mem hk) (by simp only [Covers]; omega)]
    have inside : (i - 52) / 2 < hdr.halfWords.length := hk
    have at_ := flatMap_mirror16 (hdr.frontWords.flatMap (bytes32 .little))
      (hdr.backWords.flatMap (bytes32 .little)) (hdr.frontWords.flatMap (bytes32 .big))
      (hdr.backWords.flatMap (bytes32 .big)) (front.trans front'.symm) inside
      (Nat.mod_lt (i - 52) (by omega))
    rw [front, Nat.div_add_mod, show 52 + (i - 52) = i by omega] at at_
    exact Eq.trans (congrArg (memOf (hdr.memory .little)) (by simp only; omega)) at_
  · have hk : (i - 60) / 4 < 67 := by omega
    rw [swapCopies_inside swappedFields_apart (back_mem hk) (by simp only [Covers]; omega)]
    have inside : (i - 60) / 4 < hdr.backWords.length := by rwa [length_back]
    have at_ := flatMap_mirror32
      (hdr.frontWords.flatMap (bytes32 .little) ++ hdr.halfWords.flatMap (bytes16 .little)) []
      (hdr.frontWords.flatMap (bytes32 .big) ++ hdr.halfWords.flatMap (bytes16 .big)) []
      (by rw [List.length_append, List.length_append]; omega) inside
      (Nat.mod_lt (i - 60) (by omega))
    rw [List.length_append, front, half, Nat.div_add_mod, show 52 + 8 + (i - 60) = i by omega,
      List.append_nil, List.append_nil] at at_
    exact Eq.trans (congrArg (memOf (hdr.memory .little)) (by simp only; omega)) at_

theorem bytes_put32 (m : Lib.Mem) (a v : Nat) (o : ByteOrder) :
    (Lib.Mem.drop (put32 o m a v) a).bytes 4 = match o with
      | .little => [byteOf v 0, byteOf v 1, byteOf v 2, byteOf v 3]
      | .big => [byteOf v 3, byteOf v 2, byteOf v 1, byteOf v 0] := by
  have four : ∀ m : Lib.Mem, m.bytes 4 = [m 0, m 1, m 2, m 3] := fun _ => rfl
  rw [four]
  simp only [Lib.Mem.drop, Nat.add_zero]
  cases o with
  | little =>
    simp only [put32, write32]
    rw [copy_inside (by omega), copy_inside (by omega), copy_inside (by omega),
      copy_inside (by omega)]
    simp only [Nat.sub_self, Nat.add_sub_cancel_left]
  | big =>
    simp only [put32]
    rw [copy_inside (by omega), copy_inside (by omega), copy_inside (by omega),
      copy_inside (by omega)]
    simp only [Nat.sub_self, Nat.add_sub_cancel_left]

theorem bytes_put32_chksum (m : Lib.Mem) (a c : Nat) (o : ByteOrder) :
    (Lib.Mem.drop (put32 o m a (match o with | .little => bswap32 c | .big => c)) a).bytes 4 =
      beBytes32 c := by
  have big : beBytes32 c = [byteOf c 3, byteOf c 2, byteOf c 1, byteOf c 0] := by
    simp only [beBytes32, byteOf, List.map_cons, List.map_nil]
    norm_num
  rw [bytes_put32, big]
  cases o with
  | little =>
    simp only
    rw [byteOf_bswap32 c (by omega), byteOf_bswap32 c (by omega), byteOf_bswap32 c (by omega),
      byteOf_bswap32 c (by omega)]
  | big => rfl

theorem hputHeader_eq (o : ByteOrder) (hdr : Hashhdr) (stack : Lib.Mem) :
    hputHeader o hdr stack = hdr.encode := by
  have body : (match o with
      | .little => swapHeaderCopy (memOf (hdr.memory .little)) stack
      | .big => memOf (hdr.memory .big)).bytes 328 = hdr.body := by
    have whole := bytes_memOf (l := hdr.body)
    rw [length_body] at whole
    cases o with
    | little =>
      refine Eq.trans (bytes_congr fun i hi => ?_) whole
      exact swapHeaderCopy_memory hdr stack hi
    | big => exact whole
  have split : ∀ m : Lib.Mem, m.bytes hashhdrSize = m.bytes 328 ++ (m.drop 328).bytes 4 :=
    fun _ => bytes_add (n := 4) 328
  simp only [hputHeader, encode, show hashhdrSize - 4 = 328 by rfl, body, split]
  rw [← bytes_put32_chksum _ 328 _ o]
  congr 1
  refine Eq.trans (bytes_congr fun i hi => ?_) body
  exact put32_outside (.inl hi)

theorem word16_big (m : Lib.Mem) (a : Nat) : word16 .big m a = readBe16 m a := by
  simp only [word16, readBe16]
  ring

theorem word32_big (m : Lib.Mem) (a : Nat) : word32 .big m a = readBe32 m a := by
  have b0 := (m a).toNat_lt
  have b1 := (m (a + 1)).toNat_lt
  have b2 := (m (a + 2)).toNat_lt
  have b3 := (m (a + 3)).toNat_lt
  simp only [word32, readBe32, bswap32, read32]
  generalize (m a).toNat = w, (m (a + 1)).toNat = x, (m (a + 2)).toNat = y,
    (m (a + 3)).toNat = z at *
  have first : (w + 256 * x + 65536 * y + 16777216 * z) % 256 = w := by omega
  have second : (w + 256 * x + 65536 * y + 16777216 * z) / 256 % 256 = x := by omega
  have third : (w + 256 * x + 65536 * y + 16777216 * z) / 65536 % 256 = y := by omega
  have fourth : (w + 256 * x + 65536 * y + 16777216 * z) / 16777216 % 256 = z := by omega
  rw [first, second, third, fourth]
  ring

theorem ofMemory_big (m : Lib.Mem) : ofMemory .big m = decode m := by
  simp only [ofMemory, decode, word32_big, word16_big]

theorem ofMemory_swapHeader (o : ByteOrder) (m : Lib.Mem) :
    ofMemory o.other (swapHeader m) = ofMemory o m := by
  have front : ∀ k, k < 13 → word32 o.other (swapHeader m) (4 * k) = word32 o m (4 * k) :=
    fun k hk => word32_mirrors swappedFields_apart (front_mem hk)
  have half : ∀ k, k < 4 → word16 o.other (swapHeader m) (52 + 2 * k) = word16 o m (52 + 2 * k) :=
    fun k hk => word16_mirrors swappedFields_apart (half_mem hk)
  have back : ∀ k, k < 67 → word32 o.other (swapHeader m) (60 + 4 * k) = word32 o m (60 + 4 * k) :=
    fun k hk => word32_mirrors swappedFields_apart (back_mem hk)
  have spare : ∀ i, i < ncached → word32 o.other (swapHeader m) (72 + 4 * i) = word32 o m (72 + 4 * i) :=
    fun i hi => by
      have at_ := back (3 + i) (by simp only [ncached] at hi; omega)
      rwa [show 60 + 4 * (3 + i) = 72 + 4 * i by omega] at at_
  have free : ∀ i, i < ncached → word32 o.other (swapHeader m) (200 + 4 * i) = word32 o m (200 + 4 * i) :=
    fun i hi => by
      have at_ := back (35 + i) (by simp only [ncached] at hi; omega)
      rwa [show 60 + 4 * (35 + i) = 200 + 4 * i by omega] at at_
  simp only [ofMemory]
  rw [front 0 (by omega), front 1 (by omega), front 2 (by omega), front 3 (by omega),
    front 4 (by omega), front 5 (by omega), front 6 (by omega), front 7 (by omega),
    front 8 (by omega), front 9 (by omega), front 10 (by omega), front 11 (by omega),
    front 12 (by omega), half 0 (by omega), half 1 (by omega), half 2 (by omega),
    half 3 (by omega), back 0 (by omega), back 1 (by omega), back 2 (by omega)]
  congr 1
  · funext i
    split
    · exact spare i ‹_›
    · rfl
  · funext i
    split
    · exact free i ‹_›
    · rfl

theorem hgetHeader_eq (o : ByteOrder) (len : l.length = hashhdrSize) :
    hgetHeader o l = if checks (memOf l) then .ok (decode (memOf l)) else .checksum := by
  have sum : ∀ m : Lib.Mem, word32 .little (swapHeader m) (hashhdrSize - 4) =
      readBe32 m (hashhdrSize - 4) := fun m => by
    rw [← word32_big]
    exact word32_mirrors (o := .big) swappedFields_apart (by decide)
  have fields : ∀ m : Lib.Mem, ofMemory .little (swapHeader m) = decode m := fun m => by
    rw [← ofMemory_big]
    exact ofMemory_swapHeader .big m
  have long : ¬l.length < hashhdrSize := by omega
  rw [hgetHeader, if_neg long]
  cases o with
  | little =>
    simp only [sum, fields, checks, beq_iff_eq, ne_eq, ite_not]
  | big =>
    simp only [word32_big, ofMemory_big, checks, beq_iff_eq, ne_eq, ite_not]

/-- Values of the widths the record's fields have. -/
structure InRange (hdr : Hashhdr) : Prop where
  words : ∀ v ∈ hdr.frontWords ++ hdr.backWords, v < 4294967296
  halves : ∀ v ∈ hdr.halfWords, v < 65536

/-- The records agree in every field apart from the checksum. -/
structure SameFields (a b : Hashhdr) : Prop where
  front : a.frontWords = b.frontWords
  half : a.halfWords = b.halfWords
  back : a.backWords = b.backWords

theorem decode_encode (h : hdr.InRange) : (decode (memOf hdr.encode)).SameFields hdr := by
  have front := hdr.length_front (o := .big)
  have half := hdr.length_half (o := .big)
  have byteFront : hdr.encode = [] ++ hdr.frontWords.flatMap (bytes32 .big) ++
      (hdr.halfWords.flatMap (bytes16 .big) ++ (hdr.backWords.flatMap (bytes32 .big) ++
        beBytes32 (Checksum.crc32Checksum 0 hdr.body))) := by
    simp only [List.nil_append, encode, body, List.append_assoc]
    rfl
  have byteHalf : hdr.encode = hdr.frontWords.flatMap (bytes32 .big) ++
      hdr.halfWords.flatMap (bytes16 .big) ++ (hdr.backWords.flatMap (bytes32 .big) ++
        beBytes32 (Checksum.crc32Checksum 0 hdr.body)) := by
    simp only [encode, body, List.append_assoc]
    rfl
  have byteBack : hdr.encode = (hdr.frontWords.flatMap (bytes32 .big) ++
      hdr.halfWords.flatMap (bytes16 .big)) ++ hdr.backWords.flatMap (bytes32 .big) ++
        beBytes32 (Checksum.crc32Checksum 0 hdr.body) := rfl
  rw [← ofMemory_big]
  refine ⟨?_, ?_, ?_⟩
  · have table : (ofMemory .big (memOf hdr.encode)).frontWords =
        (List.range 13).map fun k => word32 .big (memOf hdr.encode) (4 * k) := rfl
    rw [table]
    apply List.ext_getElem
    · simp [frontWords]
    · intro k hk hk'
      rw [List.getElem_map, List.getElem_range, byteFront]
      have at_ := word32_flatMap .big [] (hdr.halfWords.flatMap (bytes16 .big) ++
        (hdr.backWords.flatMap (bytes32 .big) ++ beBytes32 (Checksum.crc32Checksum 0 hdr.body))) hk'
        (h.words _ (List.mem_append_left _ (List.getElem_mem hk')))
      rwa [List.length_nil, Nat.zero_add] at at_
  · have table : (ofMemory .big (memOf hdr.encode)).halfWords =
        (List.range 4).map fun k => word16 .big (memOf hdr.encode) (52 + 2 * k) := rfl
    rw [table]
    apply List.ext_getElem
    · simp [halfWords]
    · intro k hk hk'
      rw [List.getElem_map, List.getElem_range, byteHalf]
      have at_ := word16_flatMap .big (hdr.frontWords.flatMap (bytes32 .big))
        (hdr.backWords.flatMap (bytes32 .big) ++ beBytes32 (Checksum.crc32Checksum 0 hdr.body))
        hk' (h.halves _ (List.getElem_mem hk'))
      rwa [front] at at_
  · have table : (ofMemory .big (memOf hdr.encode)).backWords =
        (List.range 67).map fun k => word32 .big (memOf hdr.encode) (60 + 4 * k) := by rfl
    rw [table]
    apply List.ext_getElem
    · rw [length_back]
      simp
    · intro k hk hk'
      rw [List.getElem_map, List.getElem_range, byteBack]
      have at_ := word32_flatMap .big (hdr.frontWords.flatMap (bytes32 .big) ++
        hdr.halfWords.flatMap (bytes16 .big)) (beBytes32 (Checksum.crc32Checksum 0 hdr.body))
        hk' (h.words _ (List.mem_append_right _ (List.getElem_mem hk')))
      rwa [List.length_append, front, half] at at_

theorem bytes_encode (hdr : Hashhdr) : (memOf hdr.encode).bytes (hashhdrSize - 4) = hdr.body := by
  have whole := bytes_memOf (l := hdr.body)
  rw [length_body] at whole
  refine Eq.trans (bytes_congr fun i hi => ?_) whole
  exact memOf_append_left (by rw [length_body]; exact hi)

theorem stored_encode (hdr : Hashhdr) :
    readBe32 (memOf hdr.encode) (hashhdrSize - 4) = Checksum.crc32Checksum 0 hdr.body := by
  have low : Checksum.crc32Checksum 0 hdr.body < 2 ^ 32 := Checksum.crc32Checksum_lt (by decide) _
  have size := hdr.length_body
  rw [← word32_big]
  have inside : 0 < [Checksum.crc32Checksum 0 hdr.body].length := Nat.one_pos
  have at_ := word32_flatMap .big hdr.body [] inside low
  rw [size] at at_
  simpa [encode, bytes32, hashhdrSize] using at_

theorem checks_encode (hdr : Hashhdr) : checks (memOf hdr.encode) = true := by
  rw [checks, bytes_encode, stored_encode, beq_self_eq_true]

theorem memOf_set {i : Nat} (hi : i < l.length) (v : UInt8) :
    memOf (l.set i v) = Function.update (memOf l) i v := by
  funext j
  by_cases same : j = i
  · rw [same, Function.update_self, memOf_apply, List.getD_eq_getElem _ _ (by simpa using hi)]
    simp
  · rw [Function.update_of_ne same, memOf_apply, memOf_apply, List.getD_eq_getElem?_getD,
      List.getElem?_set_ne (Ne.symm same), List.getD_eq_getElem?_getD]

theorem checks_set (hdr : Hashhdr) {i : Nat} (hi : i < hashhdrSize) {v : UInt8}
    (ne : v ≠ memOf hdr.encode i) : checks (memOf (hdr.encode.set i v)) = false := by
  have size := hdr.length_encode
  rw [memOf_set (by omega), checks]
  refine beq_false_of_ne ?_
  by_cases body : i < hashhdrSize - 4
  · have kept : readBe32 (Function.update (memOf hdr.encode) i v) (hashhdrSize - 4) =
        readBe32 (memOf hdr.encode) (hashhdrSize - 4) := by
      rw [← word32_big, ← word32_big]
      exact word32_update_outside (.inl body)
    rw [kept, stored_encode, ← bytes_encode, bytes_update]
    refine Checksum.crc32Checksum_set (by decide) (by rw [length_bytes]; exact body) ?_
    rw [getElem_bytes]
    exact ne
  · rw [bytes_update_outside _ (by omega), bytes_encode, ← stored_encode, ← word32_big, ← word32_big]
    have field : i < hashhdrSize - 4 + 4 := by simp only [hashhdrSize] at hi ⊢; omega
    exact (word32_update (by omega) field ne).symm

end Hashhdr

/-- The header written by a machine of either byte order is accepted by a machine of either
byte order with every field as it was, the checksum apart; a change of one byte of it is
found out. -/
theorem header_codec (writer reader : ByteOrder) (hdr : Hashhdr) (range : hdr.InRange)
    (stack : Lib.Mem) :
    (∃ hdr', hgetHeader reader (hputHeader writer hdr stack) = .ok hdr' ∧ hdr'.SameFields hdr) ∧
    ∀ i < hashhdrSize, ∀ v, v ≠ memOf (hputHeader writer hdr stack) i →
      hgetHeader reader ((hputHeader writer hdr stack).set i v) = .checksum := by
  have size := hdr.length_encode
  rw [Hashhdr.hputHeader_eq]
  refine ⟨⟨Hashhdr.decode (memOf hdr.encode), ?_, Hashhdr.decode_encode range⟩, fun i hi v ne => ?_⟩
  · rw [Hashhdr.hgetHeader_eq reader size, if_pos hdr.checks_encode]
  · rw [Hashhdr.hgetHeader_eq reader (by rw [List.length_set, size]), hdr.checks_set hi ne]
    rfl

def plainHeader : Hashhdr where
  magic := ffdbHashmagic
  version := ffdbVersion
  lorder := littleEndian
  bsize := 512
  bshift := 9
  ovflPoint := 0
  maxBucket := 0
  highMask := 0
  lowMask := 0xffffffff
  ffactor := defFfactor
  nkeys := 0
  hdrpages := 3
  uinfolen := 100
  uinfoPage := 1
  uinfoNpages := 1
  cfigPage := 2
  cfigNpages := 1
  numCfigs := 1
  hCharkey := 0
  numMovedPages := 0
  spares i := if i = 0 then 3 else 0
  freePages _ := invalidPgno

theorem header_codec_plain :
    ∃ hdr', hgetHeader .big (hputHeader .little plainHeader fun _ => 0) = .ok hdr' ∧
      hdr'.SameFields plainHeader :=
  (header_codec .little .big plainHeader ⟨by decide, by decide⟩ fun _ => 0).1

end FileHash
