import FileHash.ValueRoundTrip

/-! The shape of the data pages that storing values leaves. `Accounted` says where the data lie and
`ChainsLaid` how the headers of a page are linked; no store breaks either. -/
namespace FileHash.Htab

open Lib (Prog)
open Page

variable {h₀ hashp : Htab} {s p version flag bsize : Nat} {acc : Account} {hand : List Taken} {maps : FreeMap}
  {c : Page} {ds : List Datum} {d d' : Datum} {vals : List Stored}

def Datum.piece (bsize : Nat) (d : Datum) : Nat := min d.bytes.length (d.headRoom bsize)

/-- A data page with as many headers as it counts, and what a walk over them finds. -/
structure DataPageShape (version flag bsize : Nat) (ds : List Datum) (p : Nat) (c : Page) : Prop where
  free : c.offset = 0 ∨ (c.offset % 4 = 0 ∧ c.offset + bigDataOverhead ≤ bsize)
  walk : visited c c.firstDataPos c.numEnt = beginning ds p
  order : (visited c c.firstDataPos c.numEnt).Pairwise (· < ·)
  inside : ∀ a ∈ visited c c.firstDataPos c.numEnt, bigPageOverhead ≤ a ∧ a + bigDataOverhead ≤ bsize
  count : c.numEnt = ds.countP fun d => d.first = p
  begins : ∀ d ∈ ds, p = d.first → d.Heads version flag (c.readHeader d.roff) ∧
    (Lib.Mem.drop c (d.roff + bigDataOverhead)).bytes (d.piece bsize) = d.bytes.take (d.piece bsize) ∧
    d.roff + bigDataOverhead + d.piece bsize ≤ bsize ∧
    ∀ a ∈ visited c c.firstDataPos c.numEnt, d.roff < a → d.roff + bigDataOverhead + d.piece bsize ≤ a
  goesOn : ∀ d ∈ ds, p ∈ d.pages → ∃ part ∈ tailParts bsize d.pages (d.size - d.headRoom bsize),
    part.page = p ∧ bigPageOverhead + part.room ≤ bsize ∧
    ∀ a ∈ visited c c.firstDataPos c.numEnt, bigPageOverhead + part.room ≤ a
  spelled : ∀ d ∈ ds, Part.Spelled (d.parts bsize) d.bytes p c

theorem mem_beginning {a : Nat} (mem : a ∈ beginning ds p) : ∃ d ∈ ds, d.first = p ∧ d.roff = a := by
  rw [beginning, List.mem_reverse, List.mem_map] at mem
  obtain ⟨d, kept, rfl⟩ := mem
  obtain ⟨memd, first⟩ := List.mem_filter.mp kept
  exact ⟨d, memd, of_decide_eq_true first, rfl⟩

theorem length_beginning : (beginning ds p).length = ds.countP fun d => d.first = p := by
  rw [beginning, List.length_reverse, List.length_map, List.countP_eq_length_filter]

theorem tailParts_fits (room : bigPageOverhead + bigDataOverhead ≤ bsize) {pages : List Nat} {rest : Nat} {part : Part}
    (mem : part ∈ tailParts bsize pages rest) : bigPageOverhead + part.room ≤ bsize := by
  induction pages generalizing rest with
  | nil => cases mem
  | cons q qs ih =>
    rcases List.mem_cons.mp mem with rfl | later
    · exact tailLen_le room
    · exact ih later

instance : Std.Symm (Datum.Apart bsize) :=
  ⟨fun _ _ h => ⟨fun p i owns' owns => h.bytes p i owns owns', fun p links' links => h.links p links links'⟩⟩

theorem Filed.roff_out (f : Filed h₀ s acc maps ds) (mem : d ∈ ds) (mem' : d' ∈ ds) (ne : d ≠ d') :
    ¬d.owns h₀.hdr.bsize d'.first d'.roff := by
  intro owns
  have apart := f.apart.forall mem mem' ne
  refine apart.bytes _ _ owns (.inl ⟨rfl, le_rfl, ?_⟩)
  simp only [bigDataOverhead]
  omega

theorem Filed.part_before (f : Filed h₀ s acc maps ds) (mem : d ∈ ds) (mem' : d' ∈ ds) {part : Part}
    (mine : part ∈ d.parts h₀.hdr.bsize) (here : part.page = d'.first) (ne : d ≠ d') (behind : part.start ≤ d'.roff) :
    part.start + part.room ≤ d'.roff := by
  by_contra within
  exact f.roff_out mem mem' ne (.inr ⟨part, mine, here.symm, behind, not_le.mp within⟩)

theorem Datum.On.piece (on : d.On version flag bsize d.first c) (place : d.Placed bsize) :
    (Lib.Mem.drop c (d.roff + bigDataOverhead)).bytes (d.piece bsize) = d.bytes.take (d.piece bsize) := by
  have fits := place.fits
  have within : d.piece bsize ≤ min (min d.size (d.headRoom bsize)) d.bytes.length := by
    simp only [Datum.piece]
    omega
  have spelled := (on.spelled.1 rfl).1
  rw [Lib.Mem.bytes_take within, spelled, List.take_take, min_eq_left (within.trans (min_le_left _ _))]

theorem Filed.shape (f : Filed h₀ s acc maps ds) (chained : Chained h₀.hdr.bsize (beginning ds p) c)
    (bears : ∀ d ∈ ds, p ∈ d.all → d.On h₀.hdr.version h₀.dataValidFlag h₀.hdr.bsize p c) :
    DataPageShape h₀.hdr.version h₀.dataValidFlag h₀.hdr.bsize ds p c where
  free := chained.free.imp_right fun ⟨_, words, room, _⟩ => ⟨words, room⟩
  walk := chained.walk
  order := by
    rw [chained.walk]
    refine chained.order.imp fun {a b} behind => ?_
    simp only [bigDataOverhead] at behind
    omega
  inside := chained.walk ▸ chained.inside
  count := chained.count.trans length_beginning
  begins d mem first := by
    subst first
    have on := bears d mem List.mem_cons_self
    have place := f.placed d mem
    have fits := place.fits
    have high := place.high
    refine ⟨(on.head rfl).2.2, on.piece place, ?_, fun a visit behind => ?_⟩
    · simp only [Datum.piece, Datum.headRoom]
      omega
    · rw [chained.walk] at visit
      obtain ⟨d', mem', here, rfl⟩ := mem_beginning visit
      have ne : d ≠ d' := by
        rintro rfl
        exact lt_irrefl _ behind
      have header : d.roff + bigDataOverhead ≤ d'.roff := by
        by_contra within
        exact f.roff_out mem mem' ne (.inl ⟨here, behind.le, not_le.mp within⟩)
      have front : ⟨d.first, d.roff + bigDataOverhead, min d.size (d.headRoom h₀.hdr.bsize)⟩ ∈ d.parts h₀.hdr.bsize :=
        List.mem_cons_self
      have room := f.part_before mem mem' front here.symm ne header
      simp only [Datum.piece] at room ⊢
      omega
  goesOn d mem later := by
    have pages : p ∈ (tailParts h₀.hdr.bsize d.pages (d.size - d.headRoom h₀.hdr.bsize)).map Part.page := by
      rwa [tailParts_pages]
    obtain ⟨part, mine, rfl⟩ := List.mem_map.mp pages
    have start := tailParts_start mine
    refine ⟨part, mine, rfl, ?_, fun a visit => ?_⟩
    · exact tailParts_fits f.page.room.le mine
    · have low := (chained.inside a (chained.walk ▸ visit)).1
      rw [chained.walk] at visit
      obtain ⟨d', mem', here, rfl⟩ := mem_beginning visit
      have ne : d ≠ d' := by
        rintro rfl
        exact (List.nodup_cons.mp (f.placed d mem).nodup).1 (here ▸ later)
      rw [← start] at low ⊢
      exact f.part_before mem mem' (List.mem_cons_of_mem _ mine) here.symm ne low
  spelled d mem := by
    by_cases here : p ∈ d.all
    · exact (bears d mem here).spelled
    · exact Part.spelled_elsewhere (by rwa [Datum.parts_pages])

/-- The table has the data `ds`, and a walk over the headers of a page finds the data that begin there. -/
def HasChains (hand : List Taken) (hashp : Htab) (ds : List Datum) : Prop :=
  ∃ h₀ s acc maps, Accounted h₀ s acc maps hand hashp ds ∧ ChainsLaid h₀ acc ds

theorem HasData.chains (has : HasData hand hashp []) (none : hashp.currDpage = invalidPgno) :
    HasChains hand hashp [] := by
  obtain ⟨h₀, s, acc, maps, known, format, laid, aside⟩ := has
  refine ⟨h₀, s, acc, maps, ⟨known, format, laid, aside⟩, fun q used => ?_, fun made => ?_⟩
  · obtain ⟨d, mem, _⟩ := used
    exact absurd mem List.not_mem_nil
  · have cur : h₀.currDpage = hashp.currDpage := by rw [known.frame]
    exact absurd (cur.trans none) made

namespace HasChains

variable (has : HasChains hand hashp ds)
include has

theorem shape (mem : d ∈ ds) (here : p ∈ d.all) (shows : hashp.mp.Shows p c) :
    DataPageShape hashp.hdr.version hashp.dataValidFlag hashp.hdr.bsize ds p c := by
  obtain ⟨h₀, s, acc, maps, ⟨known, _, laid, aside⟩, chains⟩ := has
  have told := known.holds p c (aside.data d mem p here) shows
  rw [known.hdr, show hashp.dataValidFlag = h₀.dataValidFlag by rw [known.frame]]
  exact laid.shape (chains.1 p ⟨d, mem, here⟩ c told) fun d' mem' here' => laid.on d' mem' p here' c told

theorem store {kp ki : Nat} {val : Dbt} (storable : Storable hashp.hdr.version val.size)
    (slot : kp < 0x100000000 ∧ ki < 0x100000000) (few : Numbered hashp val.size) :
    ∃ d datap hashp', (storeValue kp ki val (Checksum.crc32Checksum 0 val.bytes)).Returns hashp (0, datap) hashp' ∧
      HasChains hand hashp' (d :: ds) ∧ d.Keeps hashp'.hdr.version ⟨kp, ki, datap, val.bytes⟩ ∧
      hashp'.hdr.version = hashp.hdr.version := by
  obtain ⟨h₀, s, acc, maps, accounted, chains⟩ := has
  obtain ⟨d, datap, hashp', h₁, s', acc', maps', run, accounted, next, added, points, version, _⟩ :=
    accounted.store storable slot few
  exact ⟨d, datap, hashp', run, ⟨h₁, s', acc', maps', accounted, next chains⟩,
    ⟨added.keyPage, added.keyIdx, added.bytes, points⟩, version⟩

theorem read {v : Stored} (mem : d ∈ ds) (keeps : d.Keeps hashp.hdr.version v) {room : Nat}
    (roomy : room = 0 ∨ v.bytes.length ≤ room) :
    ∃ hashp', (getData v.keyPage v.keyIdx room v.datap).Returns hashp (0, v.bytes) hashp' ∧
      HasChains hand hashp' ds ∧ hashp'.hdr.version = hashp.hdr.version := by
  obtain ⟨h₀, s, acc, maps, accounted, chains⟩ := has
  obtain ⟨hashp', run, accounted, version⟩ :=
    accounted.loosen.read not_idle_loosened mem keeps.points (keeps.bytes ▸ roomy)
  rw [keeps.keyPage, keeps.keyIdx, keeps.bytes] at run
  exact ⟨hashp', run, ⟨_, s, acc, maps, accounted, chains⟩, version⟩

end HasChains

theorem exists_keeps (kept : List.Forall₂ (Datum.Keeps version) ds vals) {v : Stored} (mem : v ∈ vals) :
    ∃ d ∈ ds, d.Keeps version v := by
  induction kept with
  | nil => exact absurd mem List.not_mem_nil
  | cons keeps _ ih =>
    rcases List.mem_cons.mp mem with rfl | older
    · exact ⟨_, List.mem_cons_self, keeps⟩
    · obtain ⟨d, memd, keeps⟩ := ih older
      exact ⟨d, List.mem_cons_of_mem _ memd, keeps⟩

theorem ValueRun.chains {table : Htab} (run : ValueRun table [] hashp vals) (start : HasChains hand table []) :
    ∃ ds, HasChains hand hashp ds ∧ List.Forall₂ (Datum.Keeps hashp.hdr.version) ds vals := by
  induction run with
  | refl => exact ⟨[], start, .nil⟩
  | store run storable slot few stores ih =>
    obtain ⟨ds, has, kept⟩ := ih
    obtain ⟨d, datap, hashp'', again, has, keeps, version⟩ := has.store storable slot few
    obtain ⟨same, rfl⟩ := again.unique stores
    cases same
    exact ⟨d :: ds, has, .cons keeps (version ▸ kept)⟩
  | read run mem roomy reads ih =>
    obtain ⟨ds, has, kept⟩ := ih
    obtain ⟨d, memd, keeps⟩ := exists_keeps kept mem
    obtain ⟨hashp'', again, has, version⟩ := has.read memd keeps roomy
    obtain ⟨_, rfl⟩ := again.unique reads
    exact ⟨ds, has, version ▸ kept⟩

/-- Whatever values are stored, one behind the other, on the pages of a table that had none, their data pages
are in shape, and each further value that is accepted finds room. -/
theorem data_page_shape {table : Htab} (start : HasData hand table []) (none : table.currDpage = invalidPgno)
    (run : ValueRun table [] hashp vals) :
    (∃ ds, List.Forall₂ (Datum.Keeps hashp.hdr.version) ds vals ∧ ∀ d ∈ ds, ∀ p ∈ d.all, ∀ c,
      hashp.mp.Shows p c → DataPageShape hashp.hdr.version hashp.dataValidFlag hashp.hdr.bsize ds p c) ∧
    ∀ val kp ki, Storable hashp.hdr.version val.size → kp < 0x100000000 ∧ ki < 0x100000000 →
      Numbered hashp val.size → ∃ datap t,
        (storeValue kp ki val (Checksum.crc32Checksum 0 val.bytes)).Returns hashp (0, datap) t ∧
        ValueRun table [] t (⟨kp, ki, datap, val.bytes⟩ :: vals) := by
  obtain ⟨ds, has, kept⟩ := run.chains (start.chains none)
  refine ⟨⟨ds, kept, fun d mem p here c shows => has.shape mem here shows⟩, fun val kp ki storable slot few => ?_⟩
  obtain ⟨d, datap, t, stores, _⟩ := has.store storable slot few
  exact ⟨datap, t, stores, .store run storable slot few stores⟩

theorem data_page_shape_three : ∃ datap t ds,
    (storeValue 3 0 (.ofBytes [7, 8, 9]) (Checksum.crc32Checksum 0 (Dbt.bytes (.ofBytes [7, 8, 9])))).Returns
      newTable (0, datap) t ∧
    List.Forall₂ (Datum.Keeps t.hdr.version) ds [⟨3, 0, datap, Dbt.bytes (.ofBytes [7, 8, 9])⟩] ∧
    ∀ d ∈ ds, ∀ p ∈ d.all, ∀ c, t.mp.Shows p c →
      DataPageShape t.hdr.version t.dataValidFlag t.hdr.bsize ds p c := by
  obtain ⟨datap, t, stores, run⟩ := (data_page_shape hasData_newTable rfl .refl).2 (.ofBytes [7, 8, 9]) 3 0
    (.inl (by decide)) (by decide) (by unfold Numbered; decide +kernel)
  obtain ⟨ds, kept, shaped⟩ := (data_page_shape hasData_newTable rfl run).1
  exact ⟨datap, t, ds, stores, kept, shaped⟩

end FileHash.Htab
