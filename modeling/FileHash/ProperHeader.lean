import FileHash.Hash
import FileHash.HeaderCodec
import FileHash.InitialLayout

/-! The header of a table in use. Every field keeps to its word, whatever calls change it, so that
the record that a close writes is read back as it was. -/
namespace FileHash

namespace Hashhdr

/-- A header in use: the machine's own byte order, a page size the code admits, and fields that
fit their words. -/
structure Proper (hdr : Hashhdr) : Prop where
  magic : hdr.magic = ffdbHashmagic
  version : hdr.version = ffdbVersion ∨ hdr.version = ffdbVersion5
  native : hdr.lorder = littleEndian
  small : hdr.bsize ≤ maxBsize
  range : hdr.InRange

variable {hdr : Hashhdr}

theorem inRange_iff : hdr.InRange ↔
    (∀ v ∈ hdr.frontWords, v < 4294967296) ∧ (∀ v ∈ hdr.halfWords, v < 65536) ∧
      (∀ v ∈ [hdr.numCfigs, hdr.hCharkey, hdr.numMovedPages], v < 4294967296) ∧
      (∀ i < ncached, hdr.spares i < 4294967296) ∧ ∀ i < ncached, hdr.freePages i < 4294967296 := by
  constructor
  · rintro ⟨words, halves⟩
    simp only [backWords, List.mem_append, List.mem_map, List.mem_range, or_imp, forall_and] at words
    obtain ⟨front, ⟨scalars, spares⟩, free⟩ := words
    exact ⟨front, halves, scalars, fun i low => spares _ ⟨i, low, rfl⟩, fun i low => free _ ⟨i, low, rfl⟩⟩
  · rintro ⟨front, halves, scalars, spares, free⟩
    refine ⟨fun v mem => ?_, halves⟩
    simp only [backWords, List.mem_append, List.mem_map, List.mem_range] at mem
    rcases mem with mem | (mem | ⟨i, low, rfl⟩) | ⟨i, low, rfl⟩
    · exact front v mem
    · exact scalars v mem
    · exact spares i low
    · exact free i low

theorem update_lt {f : Nat → Nat} {level v : Nat} (below : ∀ i < ncached, f i < 4294967296) (word : v < 4294967296) :
    ∀ i < ncached, Function.update f level v i < 4294967296 := by
  intro i low
  rw [Function.update_apply]
  split
  · exact word
  · exact below i low

theorem u32_lt (v : Nat) : u32 v < 4294967296 := Nat.mod_lt _ (by decide)

theorem log2_lt (v : Nat) : ffdbLog2 (u32 v) < 4294967296 := by
  have word : u32 v ≤ 2 ^ 32 := (u32_lt v).le
  rw [ffdbLog2_eq word]
  exact lt_of_le_of_lt (Nat.clog_le_of_le_pow word) (by decide)

namespace Proper

theorem setSpares (h : hdr.Proper) (level v : Nat) :
    Proper { hdr with spares := Function.update hdr.spares level (u32 v) } := by
  obtain ⟨front, halves, scalars, spares, free⟩ := inRange_iff.mp h.range
  exact ⟨h.magic, h.version, h.native, h.small,
    inRange_iff.mpr ⟨front, halves, scalars, update_lt spares (u32_lt v), free⟩⟩

theorem setFreePages (h : hdr.Proper) (level : Nat) {v : Nat} (word : v < 4294967296) :
    Proper { hdr with freePages := Function.update hdr.freePages level v } := by
  obtain ⟨front, halves, scalars, spares, free⟩ := inRange_iff.mp h.range
  exact ⟨h.magic, h.version, h.native, h.small,
    inRange_iff.mpr ⟨front, halves, scalars, spares, update_lt free word⟩⟩

theorem setCharkey (h : hdr.Proper) (v : Nat) : Proper { hdr with hCharkey := u32 v } := by
  obtain ⟨front, halves, scalars, spares, free⟩ := inRange_iff.mp h.range
  simp only [List.forall_mem_cons] at scalars
  refine ⟨h.magic, h.version, h.native, h.small, inRange_iff.mpr ⟨front, halves, ?_, spares, free⟩⟩
  exact List.forall_mem_cons.mpr ⟨scalars.1, List.forall_mem_cons.mpr ⟨u32_lt v, List.forall_mem_cons.mpr
    ⟨scalars.2.2.1, fun _ mem => absurd mem List.not_mem_nil⟩⟩⟩

theorem setMoved (h : hdr.Proper) {v : Nat} (word : v < 4294967296) : Proper { hdr with numMovedPages := v } := by
  obtain ⟨front, halves, scalars, spares, free⟩ := inRange_iff.mp h.range
  simp only [List.forall_mem_cons] at scalars
  refine ⟨h.magic, h.version, h.native, h.small, inRange_iff.mpr ⟨front, halves, ?_, spares, free⟩⟩
  exact List.forall_mem_cons.mpr ⟨scalars.1, List.forall_mem_cons.mpr ⟨scalars.2.1, List.forall_mem_cons.mpr
    ⟨word, fun _ mem => absurd mem List.not_mem_nil⟩⟩⟩

theorem front (h : hdr.Proper) {hdr' : Hashhdr} (half : hdr'.halfWords = hdr.halfWords)
    (back : hdr'.backWords = hdr.backWords)
    (same : [hdr'.magic, hdr'.version, hdr'.lorder, hdr'.bsize] = [hdr.magic, hdr.version, hdr.lorder, hdr.bsize])
    (words : ∀ v ∈ hdr'.frontWords, v < 4294967296) : Proper hdr' := by
  simp only [List.cons.injEq, and_true] at same
  obtain ⟨magic, version, native, bsize⟩ := same
  refine ⟨magic ▸ h.magic, version ▸ h.version, native ▸ h.native, bsize ▸ h.small, fun v mem => ?_,
    half ▸ h.range.halves⟩
  rcases List.mem_append.mp mem with mem | mem
  · exact words v mem
  · exact h.range.words v (List.mem_append_right _ (back ▸ mem))

theorem frontWords_lt (h : hdr.Proper) : ∀ v ∈ hdr.frontWords, v < 4294967296 :=
  fun v mem => h.range.words v (List.mem_append_left _ mem)

theorem countKey (h : hdr.Proper) : Proper { hdr with nkeys := u32 (hdr.nkeys + 1) } := by
  have words := h.frontWords_lt
  refine h.front rfl rfl rfl ?_
  simp only [frontWords, List.forall_mem_cons] at words ⊢
  have := u32_lt (hdr.nkeys + 1)
  tauto

theorem setPoint (h : hdr.Proper) {v : Nat} (word : v < 4294967296) : Proper { hdr with ovflPoint := v } := by
  have words := h.frontWords_lt
  refine h.front rfl rfl rfl ?_
  simp only [frontWords, List.forall_mem_cons] at words ⊢
  tauto

theorem growMasks (h : hdr.Proper) : Proper (Htab.growMasks hdr) := by
  have words := h.frontWords_lt
  simp only [frontWords, List.forall_mem_cons] at words
  have bucket := u32_lt (hdr.maxBucket + 1)
  have high : u32 (hdr.maxBucket + 1) ||| hdr.highMask < 4294967296 :=
    Nat.or_lt_two_pow (n := 32) bucket words.2.2.2.2.2.2.2.1
  unfold Htab.growMasks
  dsimp only
  split
  all_goals
    refine h.front rfl rfl rfl ?_
    simp only [frontWords, List.forall_mem_cons]
    tauto

end Proper
end Hashhdr
end FileHash
