import FileHash.DataLayout

/-! The headers of a data page: each tells where the next one is. A walk over them starts at the
first position of the page and takes as many steps as the page counts entries. -/
namespace FileHash.Htab

open Page

/-- Where a walk of `n` steps from `pos` on finds headers. -/
def visited (c : Page) : Nat → Nat → List Nat
  | _, 0 => []
  | pos, n + 1 => pos :: visited c (c.readHeader pos).next n

def walkEnd (c : Page) : Nat → Nat → Nat
  | pos, 0 => pos
  | pos, n + 1 => walkEnd c (c.readHeader pos).next n

variable {bsize pos n start : Nat} {offs : List Nat} {c c' : Page}

@[simp] theorem length_visited : (visited c pos n).length = n := by
  induction n generalizing pos with
  | zero => rfl
  | succ n ih => rw [visited, List.length_cons, ih]

theorem visited_succ : visited c pos (n + 1) = visited c pos n ++ [walkEnd c pos n] := by
  induction n generalizing pos with
  | zero => rfl
  | succ n ih => rw [visited, ih, visited, walkEnd, List.cons_append]

theorem walkEnd_succ : walkEnd c pos (n + 1) = (c.readHeader (walkEnd c pos n)).next := by
  induction n generalizing pos with
  | zero => rfl
  | succ n ih => rw [walkEnd, ih, walkEnd]

theorem walk_congr (same : ∀ a ∈ visited c pos n, c'.readHeader a = c.readHeader a) :
    visited c' pos n = visited c pos n ∧ walkEnd c' pos n = walkEnd c pos n := by
  induction n generalizing pos with
  | zero => exact ⟨rfl, rfl⟩
  | succ n ih =>
    rw [visited] at same
    have here := same pos List.mem_cons_self
    obtain ⟨walk, stop⟩ := @ih (c.readHeader pos).next fun a mem => same a (List.mem_cons_of_mem _ mem)
    rw [visited, visited, walkEnd, walkEnd, here, walk, stop]
    exact ⟨rfl, rfl⟩

structure Chained (bsize : Nat) (offs : List Nat) (c : Page) : Prop where
  walk : visited c c.firstDataPos c.numEnt = offs
  stop : walkEnd c c.firstDataPos c.numEnt = c.offset
  order : offs.Pairwise fun a b => a + bigDataOverhead ≤ b
  inside : ∀ a ∈ offs, bigPageOverhead ≤ a ∧ a + bigDataOverhead ≤ bsize
  free : c.offset = 0 ∨ (bigPageOverhead ≤ c.offset ∧ c.offset % 4 = 0 ∧ c.offset + bigDataOverhead ≤ bsize ∧
    ∀ a ∈ offs, a + bigDataOverhead ≤ c.offset)

namespace Chained

variable (h : Chained bsize offs c)
include h

theorem count : c.numEnt = offs.length := by
  rw [← h.walk, length_visited]

theorem congr (first : c'.firstDataPos = c.firstDataPos) (count : c'.numEnt = c.numEnt) (offset : c'.offset = c.offset)
    (same : ∀ a ∈ offs, c'.readHeader a = c.readHeader a) : Chained bsize offs c' := by
  obtain ⟨walk, stop⟩ := @walk_congr c.firstDataPos c.numEnt c c'
    fun a mem => same a (h.walk ▸ mem)
  refine ⟨?_, ?_, h.order, h.inside, offset ▸ h.free⟩
  · rw [first, count, walk, h.walk]
  · rw [first, count, stop, h.stop, offset]

theorem agree (same : Agree c' c) : Chained bsize offs c' := by
  refine h.congr (same.read32 (.inr (by decide))) same.numEnt (same.read32 (.inr (by decide))) fun a mem => ?_
  have low := (h.inside a mem).1
  simp only [bigPageOverhead] at low
  exact readHeader_congr fun i begins _ => same i (.inr (by simp only [chksumOffset]; omega))

theorem link {a v : Nat} (place : 4 ≤ a) (head : a ≤ 8) : Chained bsize offs (c.write32 a v) := by
  refine h.congr (Lib.Mem.read32_write32 (by omega)) (Lib.Mem.read16_write32 (by omega))
    (Lib.Mem.read32_write32 (by omega)) fun b mem => ?_
  have low := (h.inside b mem).1
  simp only [bigPageOverhead] at low
  exact readHeader_congr fun i begins _ => Lib.Mem.write32_outside (by omega)

theorem snoc (room : c.offset ≠ 0) (first : c'.firstDataPos = c.firstDataPos) (count : c'.numEnt = c.numEnt + 1)
    (next : (c'.readHeader c.offset).next = c'.offset)
    (same : ∀ i, bigPageOverhead ≤ i → i < c.offset → c' i = c i)
    (free : c'.offset = 0 ∨ (c'.offset % 4 = 0 ∧ c'.offset + bigDataOverhead ≤ bsize ∧
      c.offset + bigDataOverhead ≤ c'.offset)) : Chained bsize (offs ++ [c.offset]) c' := by
  obtain ⟨low, _, high, behind⟩ := h.free.resolve_left room
  obtain ⟨walk, stop⟩ := @walk_congr c.firstDataPos c.numEnt c c' fun a mem => by
    rw [h.walk] at mem
    have least := (h.inside a mem).1
    have below := behind a mem
    exact readHeader_congr fun i begins ends => same i (by omega) (by omega)
  refine ⟨?_, ?_, ?_, ?_, ?_⟩
  · rw [first, count, visited_succ, walk, stop, h.walk, h.stop]
  · rw [first, count, walkEnd_succ, stop, h.stop, next]
  · refine List.pairwise_append.mpr ⟨h.order, List.pairwise_singleton _ _, fun a mem b last => ?_⟩
    rw [List.mem_singleton.mp last]
    exact behind a mem
  · intro a mem
    rcases List.mem_append.mp mem with old | last
    · exact h.inside a old
    · rw [List.mem_singleton.mp last]
      exact ⟨low, high⟩
  · refine free.imp_right fun ⟨words, header, beyond⟩ => ⟨by omega, words, header, fun a mem => ?_⟩
    rcases List.mem_append.mp mem with old | last
    · have below := behind a old
      omega
    · rw [List.mem_singleton.mp last]
      exact beyond

end Chained

theorem chained_blank (count : c.numEnt = 0) (first : c.firstDataPos = c.offset)
    (free : c.offset = 0 ∨ (bigPageOverhead ≤ c.offset ∧ c.offset % 4 = 0 ∧ c.offset + bigDataOverhead ≤ bsize)) :
    Chained bsize [] c where
  walk := by rw [count]; rfl
  stop := by rw [count]; exact first
  order := List.Pairwise.nil
  inside a mem := absurd mem List.not_mem_nil
  free := free.imp_right fun ⟨low, words, room⟩ => ⟨low, words, room, fun a mem => absurd mem List.not_mem_nil⟩

theorem firstDataPos_initPage {p : Nat} : (FileHash.initPage bsize c p hashDataPage).firstDataPos =
    bigPageOverhead := by
  simp only [FileHash.initPage]
  rw [if_neg (by decide), if_pos trivial]
  exact Lib.Mem.read32_write32_same

theorem chained_initPage {p : Nat} (page : PageSize bsize) :
    Chained bsize [] (FileHash.initPage bsize c p hashDataPage) := by
  refine chained_blank (numEnt_initPage _ _ _ _) ?_ (.inr ?_)
  · rw [firstDataPos_initPage, offset_initPage_data]
  · rw [offset_initPage_data]
    exact ⟨le_rfl, rfl, page.room.le⟩

theorem Continues.chained {rlen : Nat} {val : Dbt} (h : Continues bsize n rlen val c) (page : PageSize bsize) :
    Chained bsize [] c := by
  refine chained_blank h.count h.first ?_
  rw [h.offset]
  split
  · rename_i fits
    obtain ⟨behind, room, words⟩ := alignAddr_tail page fits
    exact .inr ⟨by omega, words, room⟩
  · exact .inl rfl

end FileHash.Htab
