import FileHash.FileDatabase
import Mathlib.Algebra.BigOperators.Group.Finset.Basic
import Mathlib.Algebra.Order.BigOperators.Group.Finset

/-! Whether a table has room for puts, from the sizes of their keys and values: the pairs of a bucket take no more
of its page than their sizes say, and a value takes page numbers once only. -/
namespace FileHash

namespace Htab

open Page

variable {rest : Prop} {hashp t : Htab} {k v : List UInt8} {keys : Finset (List UInt8)} {r : Int} {most : Nat}

/-- What the pairs with these keys can take of the page of bucket `b`. -/
def roomTaken (hashp : Htab) (keys : Finset (List UInt8)) (b : Nat) : Nat :=
  ∑ k ∈ keys with hashp.addressOf (Dbt.ofBytes k) = b, pairsize k.length

theorem roomTaken_congr (same : ∀ key, t.addressOf key = hashp.addressOf key) (b : Nat) :
    roomTaken t keys b = roomTaken hashp keys b := by
  simp only [roomTaken, same]

theorem pairsizes_le {b : Nat} {list : List (List UInt8)} (nodup : list.Nodup)
    (sub : ∀ k ∈ list, k ∈ keys ∧ hashp.addressOf (Dbt.ofBytes k) = b) : pairsizes list ≤ roomTaken hashp keys b := by
  rw [pairsizes, ← List.sum_toFinset _ nodup]
  refine Finset.sum_le_sum_of_subset fun k mem => ?_
  exact Finset.mem_filter.mpr (sub k (List.mem_toFinset.mp mem))

/-- A key that is not there has room when its bucket has it for all of `keys`. -/
theorem Shelves.roomFor {shelf : Nat → List Entry} (there : Shelves rest shelf hashp)
    (keyed : ∀ k v, hashp.found k = some v → k ∈ keys) (mem : k ∈ keys) (none : hashp.found k = none)
    (room : roomTaken hashp keys (hashp.addressOf (Dbt.ofBytes k)) ≤
      hashp.hdr.bsize - pageOverhead) : RoomFor hashp k := by
  have found := fun k v => there.found_iff (k := k) (v := v)
  obtain ⟨h₀, s, acc, maps, ds, known, file, -⟩ := there
  have address := known.addressOf (Dbt.ofBytes k)
  have low := file.address_le (Dbt.ofBytes k)
  have mine := file.pages _ low
  have home := file.home _ low
  have size : hashp.hdr.bsize = h₀.hdr.bsize := congrArg Hashhdr.bsize known.hdr
  rw [← address] at low mine home
  have listed : ∀ e ∈ shelf (hashp.addressOf (Dbt.ofBytes k)), e.key ∈ keys ∧
      hashp.addressOf (Dbt.ofBytes e.key) = hashp.addressOf (Dbt.ofBytes k) := by
    intro e on
    have same : hashp.addressOf (Dbt.ofBytes e.key) = hashp.addressOf (Dbt.ofBytes k) :=
      (known.addressOf _).trans (home e on)
    exact ⟨keyed e.key e.datum.bytes ((found _ _).mpr ⟨e, same.symm ▸ on, rfl, rfl⟩), same⟩
  have fits : pairsizes ((shelf (hashp.addressOf (Dbt.ofBytes k))).map Entry.key ++ [k]) ≤
      roomTaken hashp keys (hashp.addressOf (Dbt.ofBytes k)) := by
    refine pairsizes_le (List.Nodup.append mine.once (List.nodup_singleton k) fun k' old here => ?_) fun k' mem' => ?_
    · obtain ⟨e, on, rfl⟩ := List.mem_map.mp old
      obtain rfl := List.mem_singleton.mp here
      rw [(found _ e.datum.bytes).mpr ⟨e, on, rfl, rfl⟩] at none
      cases none
    · rcases List.mem_append.mp mem' with old | here
      · obtain ⟨e, on, rfl⟩ := List.mem_map.mp old
        exact listed e on
      · obtain rfl := List.mem_singleton.mp here
        exact ⟨mem, rfl⟩
  rw [pairsizes_append] at fits
  intro c shows
  rw [known.hdr] at shows
  have entries := mine.told c (known.holds _ c List.not_mem_nil shows)
  split
  · exact (Nat.le_add_left ..).trans (fits.trans room)
  · rename_i some_pairs
    have spent := entries.spent fun nil => some_pairs (entries.none nil)
    refine decide_eq_true ?_
    omega

/-- The table has none but `keys`, its buckets have room for all of them, and there are page numbers left for values
of up to `most` bytes under those that are not there. -/
structure Spacious (keys : Finset (List UInt8)) (most : Nat) (hashp : Htab) : Prop where
  keyed : ∀ k v, hashp.found k = some v → k ∈ keys
  room : ∀ b, roomTaken hashp keys b ≤ hashp.hdr.bsize - pageOverhead
  numbers : nextNumber hashp + (keys.filter fun k => hashp.found k = none).card *
    (most / (hashp.hdr.bsize - bigPageOverhead) + 3) + 1 < maxPageNumber

theorem Spacious.numbered (spacious : Spacious keys most hashp) (mem : k ∈ keys) (absent : hashp.found k = none)
    (short : v.length ≤ most) : Numbered hashp v.length := by
  have left : 0 < (keys.filter fun k => hashp.found k = none).card :=
    Finset.card_pos.mpr ⟨k, Finset.mem_filter.mpr ⟨mem, absent⟩⟩
  have taken := Nat.le_mul_of_pos_left (most / (hashp.hdr.bsize - bigPageOverhead) + 3) left
  have less := Nat.div_le_div_right (c := hashp.hdr.bsize - bigPageOverhead) short
  have numbers := spacious.numbers
  unfold Numbered
  omega

/-- A put of one of the keys leaves room for the others: it takes page numbers only if the key is new. -/
theorem Spacious.put {shelf : Nat → List Entry} (spacious : Spacious keys most hashp) (there : Shelves rest shelf hashp)
    (kept : Kept rest shelf hashp k v r t) (mem : k ∈ keys) (short : v.length ≤ most) : Spacious keys most t := by
  obtain ⟨shelf', there', stored⟩ := kept.stored
  have found : ∀ k' w, t.found k' = some w ↔ if r = 0 ∧ k' = k then w = v else hashp.found k' = some w := fun k' w => by
    rw [there'.found_iff, stored, there.found_iff]
  have missing : ∀ k', t.found k' = none → hashp.found k' = none ∧ ¬(r = 0 ∧ k' = k) := by
    intro k' none
    have no : ∀ w, ¬(if r = 0 ∧ k' = k then w = v else hashp.found k' = some w) := fun w here => by
      rw [(found k' w).mpr here] at none
      cases none
    by_cases new : r = 0 ∧ k' = k
    · exact absurd (by rw [if_pos new]) (no v)
    · exact ⟨Option.eq_none_iff_forall_ne_some.mpr fun w here => no w (by rwa [if_neg new]), new⟩
  refine ⟨fun k' w here => ?_, fun b => ?_, ?_⟩
  · have here := (found k' w).mp here
    split at here
    · rename_i new
      exact new.2 ▸ mem
    · exact spacious.keyed k' w here
  · rw [roomTaken_congr kept.same.addressOf, kept.same.size]
    exact spacious.room b
  · have numbers := spacious.numbers
    rw [kept.same.size]
    by_cases new : r = 0 ∧ hashp.found k = none
    · have sub : (keys.filter fun k => t.found k = none) ⊆ (keys.filter fun k => hashp.found k = none).erase k :=
        fun k' here => by
        obtain ⟨mem', none⟩ := Finset.mem_filter.mp here
        obtain ⟨none, other⟩ := missing k' none
        exact Finset.mem_erase.mpr ⟨fun same => other ⟨new.1, same⟩, Finset.mem_filter.mpr ⟨mem', none⟩⟩
      have fewer := Finset.card_le_card sub
      have listed : k ∈ keys.filter fun k => hashp.found k = none := Finset.mem_filter.mpr ⟨mem, new.2⟩
      have some_left := Finset.card_pos.mpr ⟨k, listed⟩
      rw [Finset.card_erase_of_mem listed] at fewer
      have less := Nat.div_le_div_right (c := hashp.hdr.bsize - bigPageOverhead) short
      have grown := kept.grown
      have turns := Nat.mul_le_mul_right (most / (hashp.hdr.bsize - bigPageOverhead) + 3)
        (show (keys.filter fun k => t.found k = none).card + 1 ≤
          (keys.filter fun k => hashp.found k = none).card by omega)
      rw [Nat.succ_mul] at turns
      omega
    · have again : nextNumber t = nextNumber hashp := by
        refine kept.again ?_
        by_cases zero : r = 0
        · obtain ⟨w, here⟩ := Option.ne_none_iff_exists'.mp fun none => new ⟨zero, none⟩
          exact .inr ⟨w, there.found_iff.mp here⟩
        · exact .inl zero
      have fewer : (keys.filter fun k => t.found k = none).card ≤ (keys.filter fun k => hashp.found k = none).card :=
        Finset.card_le_card (Finset.monotone_filter_right keys fun k' _ none => (missing k' none).1)
      have turns := Nat.mul_le_mul_right (most / (hashp.hdr.bsize - bigPageOverhead) + 3) fewer
      omega

end Htab

open Htab

variable {o : Opening} {configs : Nat → ConfigInfo} {bsize most : Nat} {hashp t : Htab} {keys : Finset (List UInt8)}
  {calls : List UInt8 → List UInt8 → Prop}

theorem Htab.Spacious.covers {k v : List UInt8} (spacious : Spacious keys most hashp)
    (sound : (fileLedger o bsize).sound hashp)
    (word : most ≤ 0xffffffff) (mem : k ∈ keys) (short : v.length ≤ most) : (fileLedger o bsize).covers hashp k v := by
  obtain ⟨-, shelf, there⟩ := sound
  refine ⟨short.trans word, fun none _ => ⟨?_, spacious.numbered mem none short⟩⟩
  exact there.roomFor spacious.keyed mem none (spacious.room _)

theorem spacious_puts (word : most ≤ 0xffffffff) (called : ∀ k v, calls k v → k ∈ keys ∧ v.length ≤ most)
    (puts : (fileDatabase o configs).Puts calls hashp t) (sound : (fileLedger o bsize).sound hashp)
    (spacious : Spacious keys most hashp) : (fileLedger o bsize).sound t ∧ Spacious keys most t := by
  induction puts with
  | none => exact ⟨sound, spacious⟩
  | put before call run ih =>
    obtain ⟨sound, spacious⟩ := ih
    obtain ⟨mem, short⟩ := called _ _ call
    obtain ⟨small, room⟩ := spacious.covers sound word mem short
    obtain ⟨rfl, shelf, there⟩ := sound
    obtain ⟨r, t', run', kept⟩ := there.put small fun nowhere => room ((fileLedger_nowhere there).mpr nowhere)
    obtain ⟨-, rfl⟩ := run.unique run'
    obtain ⟨shelf', there', -⟩ := kept.stored
    exact ⟨⟨kept.same.size, shelf', there'⟩, spacious.put there kept mem short⟩

/-- A table that has room for the keys is told of all puts of such values under them, in whichever order. -/
theorem fileLedger_covered (sound : (fileLedger o bsize).sound hashp) (spacious : Spacious keys most hashp)
    (word : most ≤ 0xffffffff) (called : ∀ k v, calls k v → k ∈ keys ∧ v.length ≤ most) :
    (fileDatabase o configs).Covered (fileLedger o bsize) calls hashp := by
  intro t k v puts call
  obtain ⟨sound, spacious⟩ := spacious_puts word called puts sound spacious
  obtain ⟨mem, short⟩ := called k v call
  exact spacious.covers sound word mem short

end FileHash
