import FileHash.Merger

/-! How `merge` cuts the keys into chunks: `iterateSize` gives the length of a chunk, `merge` the number of
rounds, and `initBag` and `populateBag` the indices of a round. -/
namespace FileHash.ConfDataDBMerger

variable {key data : List UInt8} {n chunk rounds numconfs max_memory : Nat}

/-- A chunk of some keys, products that fit their words, and rounds in which every index comes once. -/
def ChunksWell (key data : List UInt8) (n numconfs max_memory : Nat) : Prop :=
  (key.length + data.length) * numconfs < 0x100000000 ∧
    ∃ chunk, iterateSize key data (u32 n) numconfs max_memory = some chunk ∧ 1 ≤ chunk ∧ chunk ≤ n ∧
      chunk < 0x80000000 ∧ chunk * (key.length + data.length) < 0x100000000 ∧
      ∃ rounds, numLoops n chunk = some rounds ∧ (List.range rounds).flatMap (chunkElems n chunk) = List.range n

/-- The keys of a chunk when `asize` bytes are taken for each. -/
def chunkOf (asize n max_memory : Nat) : Nat := min n (max_memory / asize)

/-- One key with all its data fits the memory, the chunk is an `int`, and the number of keys can be rounded up to
whole chunks. -/
structure Affords (asize n max_memory : Nat) : Prop where
  pos : 0 < asize
  fits : asize ≤ max_memory
  int : chunkOf asize n max_memory < 0x80000000
  word : (n + chunkOf asize n max_memory - 1) / chunkOf asize n max_memory * chunkOf asize n max_memory < 0x100000000

theorem numLoops_eq (pos : 0 < chunk) (int : chunk < 0x80000000) (few : n < 0x100000000) :
    numLoops n chunk = some ((n + chunk - 1) / chunk) := by
  have step : toSizeT chunk = chunk := if_pos int
  have short : n / chunk ≤ n := Nat.div_le_self ..
  have part := Nat.div_add_mod n chunk
  have less := Nat.mod_lt n pos
  have rounded : (n + chunk - 1) / chunk = if n = n / chunk * chunk then n / chunk else n / chunk + 1 := by
    rw [Nat.mul_comm] at part
    split_ifs with whole
    · refine Nat.div_eq_of_lt_le (by omega) ?_
      rw [Nat.succ_mul]
      omega
    · refine Nat.div_eq_of_lt_le ?_ ?_
      · rw [Nat.succ_mul]
        omega
      · rw [Nat.succ_mul, Nat.succ_mul]
        omega
  have few' : (if n = n / chunk * chunk then n / chunk else n / chunk + 1) < 0x100000000 := by
    split_ifs with whole
    · omega
    · have ne : n / chunk ≠ n := by
        intro same
        have floor := Nat.div_mul_le_self n chunk
        rw [same] at whole floor
        exact whole (Nat.le_antisymm (Nat.le_mul_of_pos_right n pos) floor)
      omega
  rw [numLoops, if_neg (Nat.ne_of_gt pos), step, rounded]
  exact congrArg some (Nat.mod_eq_of_lt few')

theorem flatMap_chunkElems (word : rounds * chunk < 0x100000000) :
    (List.range rounds).flatMap (chunkElems n chunk) = List.range (min (rounds * chunk) n) := by
  induction rounds with
  | zero => simp
  | succ rounds ih =>
    rw [Nat.succ_mul] at word
    have ielem : u32 (rounds * chunk) = rounds * chunk := Nat.mod_eq_of_lt (by omega)
    have felem : u32 ((rounds + 1) * chunk) = rounds * chunk + chunk := by
      rw [Nat.succ_mul]
      exact Nat.mod_eq_of_lt word
    rw [List.range_succ, List.flatMap_append, ih (by omega), List.flatMap_singleton, chunkElems, ielem, felem,
      Nat.succ_mul]
    rcases Nat.le_total (rounds * chunk) n with before | past
    · rw [min_eq_left before, List.range_eq_range', List.range_eq_range']
      have joined := @List.range'_append_1 0 (rounds * chunk) (min (rounds * chunk + chunk) n - rounds * chunk)
      rw [Nat.zero_add] at joined
      rw [joined]
      congr 1
      omega
    · rw [min_eq_right past, min_eq_right (past.trans (Nat.le_add_right _ _)), Nat.sub_eq_zero_of_le past]
      exact List.append_nil _

theorem le_rounded (pos : 0 < chunk) : n ≤ (n + chunk - 1) / chunk * chunk := by
  have part := Nat.div_add_mod (n + chunk - 1) chunk
  have less := Nat.mod_lt (n + chunk - 1) pos
  rw [Nat.mul_comm] at part
  omega

theorem rounds_partition (pos : 0 < chunk) (int : chunk < 0x80000000)
    (word : (n + chunk - 1) / chunk * chunk < 0x100000000) :
    ∃ rounds, numLoops n chunk = some rounds ∧ (List.range rounds).flatMap (chunkElems n chunk) = List.range n := by
  have up : n ≤ (n + chunk - 1) / chunk * chunk := le_rounded pos
  refine ⟨_, numLoops_eq pos int (by omega), ?_⟩
  rw [flatMap_chunkElems word, min_eq_right up]

theorem word_of_reached {loop : Nat} (pos : 0 < chunk) (le : chunk ≤ n) (less : loop < (n + chunk - 1) / chunk)
    (few : n < 0x100000000) (last : n - 1 ∈ chunkElems n chunk loop) :
    (n + chunk - 1) / chunk * chunk < 0x100000000 := by
  simp only [chunkElems, List.mem_range'_1] at last
  obtain ⟨rounds, eq⟩ : ∃ rounds, (n + chunk - 1) / chunk = rounds + 1 := Nat.exists_eq_succ_of_ne_zero (by omega)
  have part := Nat.div_add_mod (n + chunk - 1) chunk
  rw [eq, Nat.mul_comm, Nat.succ_mul] at part
  rw [eq] at less ⊢
  have steps : loop * chunk ≤ rounds * chunk := Nat.mul_le_mul_right _ (Nat.le_of_lt_succ less)
  rw [Nat.succ_mul] at last ⊢
  by_contra high
  rcases Nat.lt_or_eq_of_le (Nat.le_of_lt_succ less) with early | rfl
  · have early' : (loop + 1) * chunk ≤ rounds * chunk := Nat.mul_le_mul_right _ early
    rw [Nat.succ_mul] at early'
    have felem : u32 (loop * chunk + chunk) = loop * chunk + chunk := Nat.mod_eq_of_lt (by omega)
    omega
  · have felem : u32 (loop * chunk + chunk) = loop * chunk + chunk - 0x100000000 := by
      rw [u32, Nat.mod_eq_sub_mod (by omega), Nat.mod_eq_of_lt (by omega)]
    have ielem : u32 (loop * chunk) = loop * chunk := Nat.mod_eq_of_lt (by omega)
    omega

theorem chunkOf_eq {asize : Nat} (few : n < 0x100000000) :
    (if max_memory / asize > u32 n then u32 n else max_memory / asize) = chunkOf asize n max_memory := by
  rw [u32, Nat.mod_eq_of_lt few, chunkOf]
  split_ifs with high
  · rw [min_eq_left high.le]
  · rw [min_eq_right (not_lt.mp high)]

/-- The chunks are as they should be exactly where the memory affords them. -/
theorem chunks_well (some_keys : 0 < n) (memory : max_memory < 0x100000000) :
    ChunksWell key data n numconfs max_memory ↔ Affords ((key.length + data.length) * numconfs) n max_memory := by
  obtain ⟨asize, eq⟩ : ∃ asize, (key.length + data.length) * numconfs = asize := ⟨_, rfl⟩
  constructor
  · rintro ⟨product, chunk, size, least, most, int, _, rounds, loops, all⟩
    rw [eq] at product ⊢
    have word : u32 asize = asize := Nat.mod_eq_of_lt product
    rw [iterateSize, eq, word] at size
    have zero : asize ≠ 0 := fun zero => by
      rw [if_pos zero] at size
      cases size
    rw [if_neg zero] at size
    have size := Option.some.inj size
    have last : n - 1 ∈ List.range n := List.mem_range.mpr (Nat.sub_lt some_keys Nat.one_pos)
    rw [← all, List.mem_flatMap] at last
    obtain ⟨loop, below, reached⟩ := last
    have few : n < 0x100000000 := by
      simp only [chunkElems, List.mem_range'_1] at reached
      have bound : u32 ((loop + 1) * chunk) < 0x100000000 := Nat.mod_lt _ (by decide)
      omega
    rw [← size, chunkOf_eq few] at least most int loops reached
    have pos := Nat.pos_of_ne_zero zero
    rw [numLoops_eq least int few] at loops
    obtain rfl := Option.some.inj loops
    refine ⟨pos, ?_, int, word_of_reached least most (List.mem_range.mp below) few reached⟩
    by_contra small
    rw [chunkOf, Nat.div_eq_of_lt (not_le.mp small), min_eq_right (Nat.zero_le _)] at least
    cases least
  · rw [eq]
    rintro ⟨pos, fits, int, word⟩
    have least : 1 ≤ chunkOf asize n max_memory := le_min some_keys (Nat.div_pos fits pos)
    have few : n < 0x100000000 := (le_rounded least).trans_lt word
    have product : u32 asize = asize := Nat.mod_eq_of_lt (by omega)
    have cache : chunkOf asize n max_memory * (key.length + data.length) ≤ max_memory := by
      have confs : 0 < numconfs := Nat.pos_of_mul_pos_left (eq ▸ pos)
      calc chunkOf asize n max_memory * (key.length + data.length)
          ≤ max_memory / asize * asize := Nat.mul_le_mul (min_le_right _ _) (eq ▸ Nat.le_mul_of_pos_right _ confs)
        _ ≤ max_memory := Nat.div_mul_le_self _ _
    refine ⟨by omega, _, ?_, least, min_le_left _ _, int, by omega, rounds_partition least int word⟩
    rw [iterateSize, eq, product, if_neg (Nat.ne_of_gt pos), chunkOf_eq few]

theorem chunks_well_ten : ChunksWell [1] [2, 3] 10 2 13 ↔ Affords (([1].length + [2, 3].length) * 2) 10 13 :=
  chunks_well (by decide) (by decide)

/-- Memory for less than one key: the chunk is empty, and `merge` divides by it. -/
theorem chunk_of_none : ¬ChunksWell [1] [2] 1 3 5 ∧ iterateSize [1] [2] 1 3 5 = some 0 ∧ numLoops 1 0 = none := by
  refine ⟨fun well => ?_, by decide, by decide⟩
  have fits := ((chunks_well (by decide) (by decide)).mp well).fits
  exact absurd fits (by decide)

end FileHash.ConfDataDBMerger
