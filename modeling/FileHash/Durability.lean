import FileHash.ConfigTable
import FileHash.Reopening

/-! What is put into a database of files is there when the file was closed and opened again. A cursor on the
opened file comes to the first bucket that has a pair, so the database is not taken for an empty one. -/
namespace FileHash

open Lib (Prog)
open Lib.Prog (Wp wp_bind wp_pure wp_mono)

namespace Htab

open Page

variable {h₀ hashp : Htab} {s b id fuel : Nat} {acc : Account} {maps : FreeMap} {ds : List Datum} {c : Page}
  {shelf : Nat → List Entry} {adm : Event → Prop} {crs : Crs}

section First

theorem wp_noteBeyond {Q : Unit → Htab → Prop} (next : Q () hashp) : Wp adm (noteBeyond b) hashp Q :=
  wp_bind (Prog.wp_read (Prog.wp_ite (fun _ => Prog.wp_mark fun _ => next) fun _ => wp_pure next))

theorem wp_cursorBucket (file : Arranged shelf h₀ s acc maps ds) (low : b ≤ h₀.hdr.maxBucket)
    (known : Knows h₀ s acc [] hashp)
    {Q : Crs → Htab → Prop}
    (next : ∀ id c t, Knows h₀ s acc [⟨id, h₀.hdr.bucketToPage b, c⟩] t → acc.holds (h₀.hdr.bucketToPage b) c →
      Q { crs with pagep := some id, pgno := h₀.hdr.bucketToPage b, bucket := b } t) :
    Wp adm (cursorBucket crs b) hashp Q := by
  have mine := (file.pages b low).reserved
  refine wp_bind (wp_noteBeyond (wp_bind (wp_getPage known List.not_mem_nil (fun _ => mine.pos) mine.low rfl (.inl rfl)
    (fun q => wp_address_bucket (low.trans_lt file.buckets) (known.hdr ▸ q)) fun id c t known told => ?_)))
  rw [opened_plain] at known
  exact wp_pure (next id c t known told)

/-- The page a cursor has come to: that of a bucket with pairs. -/
structure Comes (shelf : Nat → List Entry) (h₀ : Htab) (s : Nat) (acc : Account) (crs : Crs) (t : Htab) : Prop where
  slot : crs.pgndx = 0
  page : ∃ b ≤ h₀.hdr.maxBucket, shelf b ≠ [] ∧ crs.pgno = h₀.hdr.bucketToPage b ∧ ∃ id c, crs.pagep = some id ∧
    Knows h₀ s acc [⟨id, h₀.hdr.bucketToPage b, c⟩] t ∧ acc.holds (h₀.hdr.bucketToPage b) c

theorem wp_skipFirst (file : Arranged shelf h₀ s acc maps ds) (signed : AllSigned acc s) {last : Nat}
    (low : last ≤ h₀.hdr.maxBucket) (some_ : shelf last ≠ []) (upto : b ≤ last) (enough : last - b < fuel)
    (known : Knows h₀ s acc [⟨id, h₀.hdr.bucketToPage b, c⟩] hashp) (told : acc.holds (h₀.hdr.bucketToPage b) c)
    (here : crs.pagep = some id ∧ crs.pgno = h₀.hdr.bucketToPage b ∧ crs.bucket = b) {Q : Place → Htab → Prop}
    (next : ∀ crs t, Comes shelf h₀ s acc crs t → Q (.at crs) t) :
    Wp adm (skipFirst h₀.hdr.maxBucket fuel crs) hashp Q := by
  induction fuel generalizing b id c crs hashp with
  | zero => omega
  | succ fuel ih =>
    obtain ⟨pagep, pgno, bucket⟩ := here
    have mine := file.pages b (upto.trans low)
    have entries := mine.told c told
    rw [skipFirst, pagep]
    refine wp_bind (wp_page known List.mem_cons_self ?_)
    by_cases nil : shelf b = []
    · have ne : b ≠ last := fun same => some_ (same ▸ nil)
      have most := file.buckets
      have word : u32 (b + 1) = b + 1 := Nat.mod_eq_of_lt (by omega)
      rw [if_pos ⟨entries.none nil, bucket ▸ upto.trans low⟩, bucket, word]
      refine wp_bind (wp_putClean known (signed _ mine.reserved.pos mine.reserved.low c told) told fun mid known => ?_)
      refine wp_bind (wp_cursorBucket file (show b + 1 ≤ h₀.hdr.maxBucket by omega) known fun id c t known told => ?_)
      exact ih (by omega) (by omega) known told ⟨rfl, rfl, rfl⟩
    · have pairs : c.numEnt ≠ 0 := by
        rw [(entries.stacked nil).count, List.length_map]
        exact fun zero => nil (List.length_eq_zero_iff.mp zero)
      rw [if_neg fun both => pairs both.1, if_neg (by rw [bucket]; omega)]
      exact wp_pure (next _ hashp ⟨rfl, b, upto.trans low, nil, pgno, id, c, rfl, known, told⟩)

theorem wp_cursorFirst (file : Arranged shelf h₀ s acc maps ds) (signed : AllSigned acc s)
    (some_ : ∃ b ≤ h₀.hdr.maxBucket, shelf b ≠ []) (known : Knows h₀ s acc [] hashp) (free : crs.pagep = none)
    {Q : Place → Htab → Prop} (next : ∀ crs t, Comes shelf h₀ s acc crs t → Q (.at crs) t) :
    Wp adm (cursorFirst crs) hashp Q := by
  obtain ⟨last, low, some_⟩ := some_
  have most := file.buckets
  unfold cursorFirst releaseCursor
  rw [free]
  refine wp_bind (wp_pure (wp_bind (Prog.wp_read ?_)))
  rw [known.hdr]
  refine wp_bind (wp_cursorBucket file (Nat.zero_le _) known fun id c t known told => ?_)
  refine wp_bind (wp_skipFirst file signed low some_ (Nat.zero_le _) ?_ known told ⟨rfl, rfl, rfl⟩
    fun crs t comes => ?_)
  · simp only [pageFuel]
    omega
  · exact wp_pure (next crs t comes)

theorem Comes.wp_cursorRead {t : Htab} (comes : Comes shelf h₀ s acc crs t) (file : Arranged shelf h₀ s acc maps ds)
    (loose : ¬h₀.Idle) : Wp (fun _ => True) (cursorRead crs 0 (some 0)) t fun r t => r.1 = 0 ∧
      Comes shelf h₀ s acc crs t := by
  obtain ⟨slot, b, low, nil, pgno, id, c, pagep, known, told⟩ := comes
  have opens := ((file.pages b low).told c told).opened nil told
  obtain ⟨e, there⟩ : ∃ e, (shelf b)[0]? = some e := ⟨_, List.getElem?_eq_getElem (List.length_pos_iff.mpr nil)⟩
  unfold cursorRead
  rw [pagep]
  refine wp_bind (wp_page known List.mem_cons_self ?_)
  dsimp only
  rw [if_neg (by simp), slot, pgno]
  refine wp_bind (wp_mono (file.wp_getItem loose low there opens told known false) ?_)
  rintro _ t ⟨rfl, known⟩
  exact wp_pure ⟨rfl, slot, b, low, nil, pgno, id, c, pagep, known, told⟩

/-- A cursor on a table that has pairs comes to the first. -/
theorem wp_isDatabaseEmpty (file : Arranged shelf h₀ s acc maps ds) (signed : AllSigned acc s) (loose : ¬h₀.Idle)
    (some_ : ∃ b ≤ h₀.hdr.maxBucket, shelf b ≠ []) (known : Knows h₀ s acc [] hashp) :
    Wp (fun _ => True) DBFunc.isDatabaseEmpty hashp fun r t => r.1 = .ok false ∧ Knows h₀ s acc [] t := by
  have reads : Wp (fun _ => True) (cursorCall (hashCursor true) 0 (some 0) ffdbNext) hashp fun r t =>
      r.1 = 0 ∧ Comes shelf h₀ s acc r.2.1 t := by
    refine wp_bind (wp_enter known fun mid known => wp_bind (Prog.wp_modify ?_))
    refine wp_bind (wp_cursorFirst file signed some_ (known.note _ _) rfl fun crs t comes => ?_)
    refine wp_bind (wp_mono (comes.wp_cursorRead file loose) fun r t post => wp_pure post)
  refine wp_bind (wp_mono reads ?_)
  rintro ⟨r, crs, pair⟩ t ⟨rfl, comes⟩
  obtain ⟨slot, b, low, nil, pgno, id, c, pagep, known, told⟩ := comes
  have mine := file.pages b low
  rw [if_pos rfl]
  refine wp_bind (wp_bind (Prog.wp_modify (wp_bind (Prog.wp_modify ?_))))
  dsimp only
  unfold cursorClose releaseCursor
  rw [pagep]
  exact wp_putClean ((known.note _ _).note _ _) (signed _ mine.reserved.pos mine.reserved.low c told) told
    fun t known => wp_pure ⟨rfl, known⟩

end First

theorem wp_getConfigs_signed {n p : Nat} (signed : AllSigned acc s) (pos : 0 < p) (below : p + n ≤ s)
    (known : Knows h₀ s acc [] hashp) (sofar : List ConfigInfo) :
    Wp adm (getConfigsLoop n p sofar) hashp fun _ t => Knows h₀ s acc [] t := by
  induction n generalizing p hashp sofar with
  | zero => exact wp_pure known
  | succ n ih =>
    have few := known.few
    have word : u32 (p + 1) = p + 1 := Nat.mod_eq_of_lt (by simp only [maxPageNumber] at few; omega)
    refine wp_bind (wp_get known List.not_mem_nil (fun _ => pos) (by omega) (by decide) fun id c mid known told => ?_)
    refine wp_bind (wp_page known List.mem_cons_self (wp_bind ?_))
    refine wp_putClean known (signed p pos (by omega) c told) told fun mid known => ?_
    rw [word]
    exact ih (Nat.succ_pos p) (by omega) known _

end Htab

open Htab

variable {o : Opening} {configs : Nat → ConfigInfo} {bsize : Nat} {hashp : Htab} {k v : List UInt8}

theorem Htab.Opening.Suits.congr {t : Htab} (suits : o.Suits hashp) (same : SameTable hashp t) : o.Suits t where
  hash := suits.hash.trans same.hash.symm
  compare := suits.compare.trans same.compare.symm
  writable := suits.writable
  faultless := suits.faultless
  rearrange := suits.rearrange.trans same.rearrange.symm

theorem fileLedger_reopens (rests : (fileLedger o bsize).rests hashp) (here : hashp.found k = some v) :
    ∃ t₁ t₂ t₃ t₄, (reopenFile o).Returns hashp () t₁ ∧ (fileDatabase o configs).isDatabaseEmpty.Returns t₁ false t₂ ∧
      (fileDatabase o configs).getAllConfigs.Returns t₂ hashp.hdr.numCfigs t₃ ∧
      (DBFunc.getBinaryData k).Returns t₃ (.ok v) t₄ := by
  obtain ⟨suits, shelf, there⟩ := rests
  have under := there.found_iff.mp here
  obtain ⟨h₀, s, acc, maps, ds, known, file, rest⟩ := there
  have rest := rest trivial
  have address := known.addressOf (Dbt.ofBytes k)
  obtain ⟨e, mem, key, rfl⟩ := under
  have low := file.address_le (Dbt.ofBytes k)
  have tip : Tip h₀ acc := by
    refine rest.tip.resolve_left fun none => ?_
    obtain ⟨i, inside, at_i⟩ := List.mem_iff_getElem.mp (address ▸ mem)
    have on := ((file.pages _ low).on i e (by rw [List.getElem?_eq_getElem inside, at_i])).1
    rw [none.2] at on
    exact absurd on List.not_mem_nil
  have comes : Wp (fun _ => True) (reopenFile o) hashp _ := file.wp_reopenFile rest tip
    (suits.congr known.same.symm) known
  obtain ⟨_, t₁, reopens, h₁, known₁, file₁, same, hash⟩ := comes fun _ _ => trivial
  obtain ⟨-, -, -, masks⟩ := sameFields_words same
  obtain ⟨-, -, cfig, cfigs⟩ := sameFields_infos same
  have count : h₁.hdr.numCfigs = hashp.hdr.numCfigs := (sameFields_counts same).1.trans known.same.configs.symm
  have home : h₁.addressOf (Dbt.ofBytes k) = hashp.addressOf (Dbt.ofBytes k) :=
    (addressOf_congr hash masks _).trans address.symm
  have file₂ := file₁.loosen
  have looks : Wp (fun _ => True) (fileDatabase o configs).isDatabaseEmpty t₁ fun r t => r = false ∧
      Knows h₁.loosened s (acc.read s) [] t := by
    refine wp_bind (wp_mono (wp_isDatabaseEmpty file₂ allSigned_read not_idle_loosened
      ⟨_, file₂.address_le (Dbt.ofBytes k), ?_⟩ known₁.loosen) ?_)
    · exact fun nil => List.ne_nil_of_mem mem (home ▸ nil)
    · rintro ⟨r, crs⟩ t ⟨rfl, known⟩
      exact wp_pure ⟨rfl, known⟩
  obtain ⟨_, t₂, empty, rfl, known₂⟩ := looks fun _ _ => trivial
  have asks : Wp (fun _ => True) (fileDatabase o configs).getAllConfigs t₂ fun r t => r = hashp.hdr.numCfigs ∧
      Knows h₁.loosened s (acc.read s) [] t := by
    refine wp_bind (wp_bind (wp_enter known₂ fun mid known => wp_bind (Prog.wp_read ?_)))
    rw [known.hdr]
    refine wp_mono (wp_getConfigs_signed allSigned_read ?_ ?_ known []) fun _ t known => Prog.wp_reads ⟨?_, known⟩
    · exact cfig ▸ rest.cfig.1
    · exact cfig ▸ cfigs ▸ rest.cfig.2
    · rw [known.hdr]
      exact count
  obtain ⟨_, t₃, counts, rfl, known₃⟩ := asks fun _ _ => trivial
  obtain ⟨r, t₄, gets, -, answer⟩ := (file₂.wp_get not_idle_loosened known₃ k) fun _ _ => trivial
  have found : r = .ok e.datum.bytes := (answer _).mpr ⟨e, ((known₃.addressOf _).trans home).symm ▸ mem, key, rfl⟩
  exact ⟨t₁, t₂, t₃, t₄, reopens, empty, counts, found ▸ gets⟩

theorem fileDatabase_durable : (fileDatabase o configs).Durable (fileLedger o bsize) where
  put_rests := by
    rintro hashp t k v st ⟨rfl, -⟩ ⟨suits, shelf, there⟩ ⟨small, room⟩ run
    obtain ⟨r, t', run', kept⟩ := there.put small fun nowhere => room ((fileLedger_nowhere there).mpr nowhere)
    obtain ⟨-, rfl⟩ := run.unique run'
    obtain ⟨shelf', there', -⟩ := kept.stored
    exact ⟨suits.congr kept.same, shelf', there'⟩
  reopens := by
    intro hashp k v _ rests here _
    exact fileLedger_reopens rests here

end FileHash
