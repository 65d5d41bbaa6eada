import FileHash.InitialLayout
import FileHash.Lib.LinearAddress
import FileHash.TableFrame

/-! Expansion by one bucket. The masks keep their shape, and a hash value goes to the
bucket it went to before, those of the split bucket apart. -/
namespace FileHash

open Lib (Prog)

/-- The masks of a table with `2 ^ (j - 1)` to `2 ^ j` buckets. -/
structure Hashhdr.Shape (hdr : Hashhdr) (j : Nat) : Prop where
  pos : 1 ≤ j
  word : j ≤ 31
  highMask : hdr.highMask = 2 ^ j - 1
  lowMask : hdr.lowMask = 2 ^ (j - 1) - 1
  low : hdr.lowMask ≤ hdr.maxBucket
  high : hdr.maxBucket ≤ hdr.highMask

def Hashhdr.oldBucket (hdr : Hashhdr) : Nat := u32 (hdr.maxBucket + 1) &&& hdr.lowMask

def Hashhdr.masks (hdr : Hashhdr) : Nat × Nat × Nat × Nat :=
  (hdr.maxBucket, hdr.highMask, hdr.lowMask, hdr.ovflPoint)

namespace Hashhdr

variable {hdr hdr' : Hashhdr} {j : Nat}

theorem masks_eq (same : hdr'.masks = hdr.masks) :
    hdr'.maxBucket = hdr.maxBucket ∧ hdr'.highMask = hdr.highMask ∧ hdr'.lowMask = hdr.lowMask ∧
      hdr'.ovflPoint = hdr.ovflPoint := by
  simpa [masks] using same

theorem bucketOf_congr (same : hdr'.masks = hdr.masks) (n : Nat) : hdr'.bucketOf n = hdr.bucketOf n := by
  obtain ⟨maxBucket, highMask, lowMask, _⟩ := masks_eq same
  rw [bucketOf, bucketOf, maxBucket, highMask, lowMask]

theorem Shape.congr (h : hdr.Shape j) (same : hdr'.masks = hdr.masks) : hdr'.Shape j := by
  obtain ⟨maxBucket, highMask, lowMask, _⟩ := masks_eq same
  constructor
  · exact h.pos
  · exact h.word
  · rw [highMask, h.highMask]
  · rw [lowMask, h.lowMask]
  · rw [lowMask, maxBucket]
    exact h.low
  · rw [maxBucket, highMask]
    exact h.high

theorem Shape.bucketOf_eq (h : hdr.Shape j) (n : Nat) :
    hdr.bucketOf n = Lib.address (j - 1) (hdr.maxBucket + 1) n := by
  have level : j - 1 + 1 = j := Nat.sub_add_cancel h.pos
  unfold bucketOf Lib.address
  rw [h.highMask, h.lowMask, Nat.and_two_pow_sub_one_eq_mod, Nat.and_two_pow_sub_one_eq_mod, level]
  by_cases there : n % 2 ^ j < hdr.maxBucket + 1
  · rw [if_pos there, if_neg (by omega)]
  · rw [if_neg there, if_pos (by omega)]

theorem Shape.size (h : hdr.Shape j) : 2 ^ (j - 1) ≤ hdr.maxBucket + 1 ∧ hdr.maxBucket + 1 ≤ 2 ^ j := by
  have low := h.low
  have high := h.high
  rw [h.lowMask] at low
  rw [h.highMask] at high
  have := Nat.two_pow_pos j
  omega

theorem Shape.bucketOf_le (h : hdr.Shape j) (n : Nat) : hdr.bucketOf n ≤ hdr.maxBucket := by
  rw [h.bucketOf_eq n]
  exact Nat.le_of_lt_succ (Lib.address_lt h.size.1 n)

theorem Shape.grow (h : hdr.Shape j) (room : hdr.maxBucket + 1 < 2 ^ 31) :
    (Htab.growMasks hdr).maxBucket = hdr.maxBucket + 1 ∧
      (Htab.growMasks hdr).ovflPoint = hdr.ovflPoint ∧
      ((hdr.maxBucket + 1 < 2 ^ j ∧ (Htab.growMasks hdr).Shape j) ∨
        (hdr.maxBucket + 1 = 2 ^ j ∧ (Htab.growMasks hdr).Shape (j + 1))) := by
  have word : u32 (hdr.maxBucket + 1) = hdr.maxBucket + 1 := Nat.mod_eq_of_lt (by omega)
  have size := h.size
  have pos := Nat.two_pow_pos j
  unfold Htab.growMasks
  rw [word]
  by_cases full : hdr.highMask < hdr.maxBucket + 1
  · have top : hdr.maxBucket + 1 = 2 ^ j := by
      rw [h.highMask] at full
      omega
    have short : j < 31 := by
      rw [top] at room
      exact (Nat.pow_lt_pow_iff_right (by decide)).mp room
    rw [if_pos full]
    refine ⟨rfl, rfl, .inr ⟨top, ?_⟩⟩
    constructor
    · exact Nat.succ_pos j
    · exact short
    · change (hdr.maxBucket + 1) ||| hdr.highMask = 2 ^ (j + 1) - 1
      rw [top, h.highMask, pow_succ]
      have parts := Nat.two_pow_add_eq_or_of_lt (show 2 ^ j - 1 < 2 ^ j by omega) 1
      rw [mul_one] at parts
      rw [← parts]
      omega
    · exact h.highMask
    · change hdr.highMask ≤ hdr.maxBucket + 1
      exact full.le
    · change hdr.maxBucket + 1 ≤ (hdr.maxBucket + 1) ||| hdr.highMask
      exact Nat.left_le_or
  · rw [if_neg full]
    refine ⟨rfl, rfl, .inl ⟨?_, h.pos, h.word, h.highMask, h.lowMask, ?_, not_lt.mp full⟩⟩
    · rw [h.highMask] at full
      omega
    · exact h.low.trans (Nat.le_succ _)

theorem Shape.oldBucket_eq (h : hdr.Shape j) (room : hdr.maxBucket + 1 < 2 ^ 31) :
    hdr.oldBucket = (hdr.maxBucket + 1) % 2 ^ (j - 1) := by
  have word : u32 (hdr.maxBucket + 1) = hdr.maxBucket + 1 := Nat.mod_eq_of_lt (by omega)
  rw [oldBucket, word, h.lowMask, Nat.and_two_pow_sub_one_eq_mod]

theorem Shape.bucketOf_grow (h : hdr.Shape j) (room : hdr.maxBucket + 1 < 2 ^ 31) (n : Nat) :
    (hdr.bucketOf n = hdr.oldBucket ∧ (Htab.growMasks hdr).bucketOf n = hdr.maxBucket + 1) ∨
      (Htab.growMasks hdr).bucketOf n = hdr.bucketOf n := by
  obtain ⟨maxBucket, _, grown⟩ := h.grow room
  have size := h.size
  have level : j - 1 + 1 = j := Nat.sub_add_cancel h.pos
  rw [h.oldBucket_eq room, h.bucketOf_eq]
  rcases grown with ⟨short, shape⟩ | ⟨full, shape⟩
  · rw [shape.bucketOf_eq, maxBucket]
    have step := Lib.address_grow size.1 (by rwa [level]) n
    rwa [Nat.mod_eq_sub_mod size.1, Nat.mod_eq_of_lt]
    have : 2 ^ j = 2 ^ (j - 1) * 2 := by rw [← pow_succ, level]
    omega
  · rw [shape.bucketOf_eq, maxBucket, Nat.add_sub_cancel, full]
    have below : Lib.address (j - 1) (2 ^ j) n = Lib.address j (2 ^ j) n := by
      have same := Lib.address_full (k := j - 1) n
      rw [level] at same
      exact same.symm
    have zero : 2 ^ j % 2 ^ (j - 1) = 2 ^ j - 2 ^ j := by
      rw [Nat.sub_self]
      exact Nat.mod_eq_zero_of_dvd (pow_dvd_pow 2 (Nat.sub_le j 1))
    rw [below, zero]
    exact Lib.address_grow le_rfl (by rw [pow_succ]; have := Nat.two_pow_pos j; omega) n

end Hashhdr

namespace Htab

open Lib.Prog (Keeps keeps_pure keeps_halt keeps_read keeps_mark keeps_modify keeps_bind keeps_ite)

variable {hashp hashp' hashp₀ : Htab} {r : Int} {j : Nat}

theorem keeps_masks {α : Type} {m : Run α} (keeps : Keeps fixed m) :
    Keeps (fun hashp => hashp.hdr.masks) m :=
  fun s a s' run => congrArg (fun q => Hashhdr.masks q.1) (keeps s a s' run)

theorem growMasks_ovflPoint (hdr : Hashhdr) : (growMasks hdr).ovflPoint = hdr.ovflPoint := by
  unfold growMasks
  dsimp only
  split
  · rfl
  · rfl

theorem expandTable_masks (run : expandTable.Returns hashp r hashp') :
    hashp'.hdr.masks = ((growMasks hashp.hdr).maxBucket, (growMasks hashp.hdr).highMask,
      (growMasks hashp.hdr).lowMask, max hashp.hdr.ovflPoint
        (ffdbLog2 (u32 (u32 (hashp.hdr.maxBucket + 1) + 1)))) := by
  have tail := fun (old new : Nat) (doubling : Bool) =>
    keeps_bind keeps_read fun hashp : Htab =>
      keeps_ite (p := hashp.hdr.bucketToPage new = maxPages) (keeps_halt .exit)
        (keeps_bind (keeps_newPage new hashBucketPage) fun ok =>
          keeps_ite (p := ok = true)
            (keeps_ite (p := doubling = true)
              (keeps_bind keeps_flushMeta fun _ => keeps_bind keeps_syncPool fun _ =>
                keeps_splitBucket old new)
              (keeps_splitBucket old new))
            (keeps_pure (-1)))
  have masks := fun old new doubling => keeps_masks (tail old new doubling)
  unfold expandTable at run
  replace run := Prog.returns_read_bind.mp run
  dsimp only at run
  have grown : ∀ hashp : Htab, (setHdr growMasks hashp).hdr.masks = ((growMasks hashp.hdr).maxBucket,
      (growMasks hashp.hdr).highMask, (growMasks hashp.hdr).lowMask, hashp.hdr.ovflPoint) := by
    intro hashp
    simp only [setHdr, Hashhdr.masks, growMasks_ovflPoint]
  by_cases doubling : hashp.hdr.ovflPoint < ffdbLog2 (u32 (u32 (hashp.hdr.maxBucket + 1) + 1))
  · rw [max_eq_right doubling.le]
    split at run
    on_goal 1 => replace run := Prog.returns_mark_bind.mp run
    all_goals
      replace run := Prog.returns_modify_bind.mp run
      rw [if_pos (decide_eq_true doubling)] at run
      exact masks _ _ _ _ _ _ (Prog.returns_modify_bind.mp run)
  · rw [max_eq_left (not_lt.mp doubling)]
    split at run
    on_goal 1 => replace run := Prog.returns_mark_bind.mp run
    all_goals
      replace run := Prog.returns_modify_bind.mp run
      rw [if_neg (by simpa using doubling)] at run
      exact (masks _ _ _ _ _ _ run).trans (grown hashp)

theorem keeps_hash {α : Type} {m : Run α} (keeps : Keeps fixed m) : Keeps Htab.hash m :=
  fun s a s' run => congrArg (fun q => q.2.1) (keeps s a s' run)

theorem keeps_expandTable_hash : Keeps Htab.hash expandTable := by
  refine keeps_bind keeps_read fun hashp => ?_
  refine keeps_ite (keeps_bind (keeps_mark _) fun _ => ?_) ?_
  all_goals
    refine keeps_bind (keeps_modify fun _ => rfl) fun _ => ?_
    refine keeps_ite (keeps_bind (keeps_modify fun _ => rfl) fun _ => ?_) ?_
  all_goals
    refine keeps_bind keeps_read fun _ => keeps_ite (keeps_halt _) ?_
    refine keeps_bind (keeps_hash (keeps_newPage _ _)) fun _ => keeps_ite (keeps_ite ?_ ?_) (keeps_pure _)
    · refine keeps_bind (keeps_hash keeps_flushMeta) fun _ => ?_
      exact keeps_bind (keeps_hash keeps_syncPool) fun _ => keeps_hash (keeps_splitBucket _ _)
    · exact keeps_hash (keeps_splitBucket _ _)

/-- The bucket `_ffdb_call_hash` finds for a key. -/
def addressOf (hashp : Htab) (key : Dbt) : Nat :=
  hashp.hdr.bucketOf (u32 (hashp.hash (key.data.bytes (u32 key.size))))

theorem callHash_eq (key : Dbt) : callHash key = Prog.reads fun hashp => hashp.addressOf key := rfl

/-- What an expansion does to the addresses of a table. -/
structure Expands (hashp hashp' : Htab) : Prop where
  shape : ∃ j, hashp'.hdr.Shape j
  maxBucket : hashp'.hdr.maxBucket = hashp.hdr.maxBucket + 1
  ovflPoint : hashp.hdr.ovflPoint = Nat.clog 2 (hashp.hdr.maxBucket + 1) →
    hashp'.hdr.ovflPoint = Nat.clog 2 (hashp'.hdr.maxBucket + 1)
  hash : hashp'.hash = hashp.hash
  stays : ∀ n, hashp.hdr.bucketOf n ≠ hashp.hdr.oldBucket → hashp'.hdr.bucketOf n = hashp.hdr.bucketOf n
  splits : ∀ n, hashp.hdr.bucketOf n = hashp.hdr.oldBucket →
    hashp'.hdr.bucketOf n = hashp.hdr.oldBucket ∨ hashp'.hdr.bucketOf n = hashp'.hdr.maxBucket

theorem expandTable_expands (shape : hashp.hdr.Shape j) (room : hashp.hdr.maxBucket + 1 < 2 ^ 31)
    (run : expandTable.Returns hashp r hashp') : Expands hashp hashp' := by
  have masks := expandTable_masks run
  have word : u32 (hashp.hdr.maxBucket + 1) = hashp.hdr.maxBucket + 1 := Nat.mod_eq_of_lt (by omega)
  have word' : u32 (hashp.hdr.maxBucket + 1 + 1) = hashp.hdr.maxBucket + 1 + 1 :=
    Nat.mod_eq_of_lt (by omega)
  rw [word, word', ffdbLog2_eq (by omega)] at masks
  obtain ⟨maxBucket, _, grown⟩ := shape.grow room
  simp only [Hashhdr.masks, Prod.mk.injEq] at masks
  obtain ⟨masksMax, masksHigh, masksLow, masksOvfl⟩ := masks
  have same : ∀ n, hashp'.hdr.bucketOf n = (growMasks hashp.hdr).bucketOf n := by
    intro n
    rw [Hashhdr.bucketOf, Hashhdr.bucketOf, masksMax, masksHigh, masksLow]
  have keep : ∀ {i}, (growMasks hashp.hdr).Shape i → hashp'.hdr.Shape i := by
    rintro i ⟨pos, small, highMask, lowMask, low, high⟩
    rw [← masksHigh] at highMask high
    rw [← masksLow] at lowMask low
    rw [← masksMax] at low high
    exact ⟨pos, small, highMask, lowMask, low, high⟩
  constructor
  · exact grown.elim (fun g => ⟨j, keep g.2⟩) fun g => ⟨j + 1, keep g.2⟩
  · exact masksMax.trans maxBucket
  · intro before
    rw [masksOvfl, masksMax, maxBucket, before]
    exact max_eq_right (Nat.clog_mono_right 2 (Nat.le_succ _))
  · exact keeps_expandTable_hash _ _ _ run
  · intro n other
    rw [same]
    exact (shape.bucketOf_grow room n).resolve_left fun h => other h.1
  · intro n old
    rw [same, masksMax, maxBucket, ← old]
    exact (shape.bucketOf_grow room n).symm.imp_right And.right

/-- A table in use, and the buckets its pairs are in: an expansion redistributes those of the
old bucket by their address, and nothing else moves a pair or changes the masks. -/
inductive Grows (hashp₀ : Htab) : Htab → (Dbt → Nat) → Prop
  | start : Grows hashp₀ hashp₀ hashp₀.addressOf
  | expand {hashp hashp' : Htab} {place : Dbt → Nat} {r : Int} (run : Grows hashp₀ hashp place)
      (room : hashp.hdr.maxBucket + 1 < 2 ^ 31) (grown : expandTable.Returns hashp r hashp') :
      Grows hashp₀ hashp' fun key =>
        if place key = hashp.hdr.oldBucket then hashp'.addressOf key else place key
  | other {hashp hashp' : Htab} {place : Dbt → Nat} (run : Grows hashp₀ hashp place)
      (masks : hashp'.hdr.masks = hashp.hdr.masks) (hash : hashp'.hash = hashp.hash) :
      Grows hashp₀ hashp' place

theorem Grows.placed {place : Dbt → Nat} (shape : hashp₀.hdr.Shape j) (run : Grows hashp₀ hashp place) :
    (∃ i, hashp.hdr.Shape i) ∧ ∀ key, place key = hashp.addressOf key := by
  induction run with
  | start => exact ⟨⟨j, shape⟩, fun _ => rfl⟩
  | @expand hashp hashp' place r run room grown ih =>
    obtain ⟨⟨i, shape⟩, placed⟩ := ih
    have expands := expandTable_expands shape room grown
    refine ⟨expands.shape, fun key => ?_⟩
    dsimp only
    split
    · rfl
    · rename_i other
      rw [placed key] at other ⊢
      unfold addressOf at other ⊢
      rw [expands.hash, expands.stays _ other]
  | @other hashp hashp' place run masks hash ih =>
    obtain ⟨⟨i, shape⟩, placed⟩ := ih
    refine ⟨⟨i, shape.congr masks⟩, fun key => ?_⟩
    rw [placed key, addressOf, addressOf, hash, Hashhdr.bucketOf_congr masks]

/-- Linear hashing. On a table whose masks have their shape every address is a bucket, an
expansion gives the masks their shape again and moves no value but from the old bucket to
the new, and so pairs stay where their address is through any number of expansions. -/
theorem expand_places (shape : hashp.hdr.Shape j) :
    (∀ n, hashp.hdr.bucketOf n ≤ hashp.hdr.maxBucket) ∧
    (hashp.hdr.maxBucket + 1 < 2 ^ 31 → ∀ r hashp', expandTable.Returns hashp r hashp' →
      Expands hashp hashp' ∧ ∀ n, hashp'.hdr.bucketOf n ≤ hashp'.hdr.maxBucket) ∧
    ∀ hashp' place, Grows hashp hashp' place → ∀ key, place key = hashp'.addressOf key := by
  refine ⟨shape.bucketOf_le, fun room r hashp' run => ?_, fun hashp' place run => ?_⟩
  · have expands := expandTable_expands shape room run
    obtain ⟨i, shape'⟩ := expands.shape
    exact ⟨expands, shape'.bucketOf_le⟩
  · exact (run.placed shape).2

def fullDisk : Htab :=
  tableOf { twoBuckets with fault := fun _ => true } (initHdr twoBuckets 4096 12) true ⟨0, fun _ _ => 0⟩

theorem fullDisk_shape : fullDisk.hdr.Shape 1 :=
  ⟨by decide, by decide, by decide, by decide, by decide, by decide⟩

theorem fullDisk_expands : ∃ hashp', expandTable.Returns fullDisk (-1) hashp' ∧
    Expands fullDisk hashp' ∧ hashp'.hdr.maxBucket = 2 := by
  refine ⟨_, rfl, ?_, rfl⟩
  exact ((expand_places fullDisk_shape).2.1 (by decide) _ _ rfl).1

end Htab
end FileHash
