import FileHash.KeyPages
import FileHash.PageFilters
import FileHash.ReplacementFrame

/-! Pairs and their data: a pair that is added to a key page in hand, and one of which the value is
replaced. The page of the key is none of the pages that hold data. -/
namespace FileHash.Htab

open Lib (Prog)
open Lib.Prog (Wp wp_bind wp_pure wp_mono)
open Page

variable {h₀ h₁ hashp : Htab} {s p q id bsize n chksum : Nat} {acc acc' : Account} {hand : List Taken}
  {maps maps' : FreeMap} {mem c c' : Page} {adm : Event → Prop} {ds : List Datum} {val key : Dbt}
  {pairs : List KeyDatap}

theorem DataLaid.words {d : Datum} {version : Nat} (laid : DataLaid h₀ s acc maps ds) (on : d ∈ ds)
    (few : s < maxPageNumber) : (d.pointer version).Words := by
  have page := (laid.used d on d.first List.mem_cons_self).1
  have high := (laid.placed d on).high
  have most := laid.page.most
  have bits : dlenHighBits d.bytes.length < 256 := Nat.mod_lt _ (by decide)
  have sum : Checksum.crc32Checksum 0 d.bytes < 2 ^ 32 := Checksum.crc32Checksum_lt (by decide) _
  refine ⟨?_, ?_, Nat.mod_lt _ (by decide), sum⟩
  · simp only [Datum.pointer, maxPageNumber] at *
    omega
  · simp only [Datum.pointer, insertLenToPgoffset, maxBsize] at *
    split_ifs <;> omega

theorem Aside.page (aside : Aside h₀ maps ds (⟨id, p, c⟩ :: hand)) (c' : Page) :
    Aside h₀ maps ds (⟨id, p, c'⟩ :: hand) :=
  ⟨aside.cur, aside.free, aside.data⟩

theorem wp_addItemOnPage (h : Knows h₀ s acc (⟨id, p, c⟩ :: hand) hashp) (laid : DataLaid h₀ s acc maps ds)
    (format : Format h₀.hdr.version h₀.dataValidFlag) (storable : Storable h₀.hdr.version val.size)
    (aside : Aside h₀ maps ds (⟨id, p, c⟩ :: hand))
    (few : s + val.size / (h₀.hdr.bsize - bigPageOverhead) + 4 < maxPageNumber) {Q : Int → Htab → Prop}
    (next : ∀ h₁ s' acc' maps' d hashp', Onward h₀ s acc maps h₀.currDpage h₁ s' acc' maps' →
      s' ≤ s + val.size / (h₀.hdr.bsize - bigPageOverhead) + 3 → DataLaid h₁ s' acc' maps' (d :: ds) →
        Added p c.numEnt val d → (∀ q ∈ d.all, Touches maps s h₀.currDpage q) →
      (d.pointer h₀.hdr.version).Words → ((h₀.currDpage ≠ invalidPgno → Tip h₀ acc) → Tip h₁ acc') →
      Knows h₁ s' acc' (⟨id, p, putDatap c.numEnt (slotOff c key) (d.pointer h₀.hdr.version) (putKey key c)⟩ :: hand)
        hashp' → Q 0 hashp') :
    Wp adm (addItemOnPage id p key val (Checksum.crc32Checksum 0 val.bytes)) hashp Q := by
  have number : p < s := h.hand_lt List.mem_cons_self
  have bound := h.few
  have count : c.numEnt < 65536 := Lib.Mem.read16_lt
  have word : p < 0x100000000 ∧ c.numEnt < 0x100000000 := by
    simp only [maxPageNumber] at bound
    omega
  rw [addItemOnPage_eq]
  refine wp_bind (wp_page h List.mem_cons_self (wp_bind (wp_store h _ fun mid known => wp_bind ?_)))
  have aside' := aside.page (putKey key c)
  refine wp_storeValue known laid format storable word aside'.cur aside'.free few
    fun h₁ s' acc' maps' d datap mid' onward most laid' added pages pointer _ tip known' => ?_
  have data : datap.Words := pointer ▸ laid'.words List.mem_cons_self known'.few
  refine Prog.wp_ite (fun failed => absurd rfl failed) fun _ => ?_
  refine wp_bind (wp_store known' _ fun hashp' known'' => wp_pure ?_)
  rw [pointer] at known'' data
  exact next h₁ s' acc' maps' d hashp' onward most laid' added pages data tip known''

def renewedDatap (version : Nat) (val : Dbt) (chksum : Nat) (datap : Datap) : Datap :=
  { datap with
    offset := if decide (ffdbVersion5 < version) && isHugeData val.size then insertLenToPgoffset val.size datap.offset
      else datap.offset
    len := u32 val.size
    chksum := chksum }

theorem dataOffset_renewed {version : Nat} {datap : Datap} :
    dataOffset version (renewedDatap version val chksum datap) = dataOffset version datap := by
  simp only [dataOffset, renewedDatap]
  by_cases new : ffdbVersion5 < version
  · rw [if_pos new, if_pos new]
    split_ifs
    · exact getPgoffset_insert
    · rfl
  · simp [new]

theorem words_renewed {version : Nat} {datap : Datap} (words : datap.Words) (sum : chksum < 0x100000000) :
    (renewedDatap version val chksum datap).Words := by
  refine ⟨words.1, ?_, Nat.mod_lt _ (by decide), sum⟩
  have bits : dlenHighBits val.size < 256 := Nat.mod_lt _ (by decide)
  have offset := words.2.1
  simp only [renewedDatap, insertLenToPgoffset]
  split_ifs <;> omega

theorem wp_replaceItemOnPage {pair : KeyDatap} {d : Datum} (h : Knows h₀ s acc (⟨id, p, c⟩ :: hand) hashp)
    (laid : DataLaid h₀ s acc maps ds) (format : Format h₀.hdr.version h₀.dataValidFlag)
    (storable : Storable h₀.hdr.version val.size) (aside : Aside h₀ maps ds (⟨id, p, c⟩ :: hand))
    (keyed : Keyed h₀.hdr.bsize pairs c) (slot : pairs[n]? = some pair) (on : d ∈ ds)
    (first : pair.datap.first = d.first) (offset : dataOffset h₀.hdr.version pair.datap = d.roff)
    (shorter : val.size ≤ d.bytes.length) (accepted : val.size ≤ dataLen h₀.hdr.version pair.datap)
    (sum : chksum < 0x100000000) {Q : Int → Htab → Prop}
    (next : ∀ acc' c' hashp', Replaced h₀ d val acc acc' →
      Keyed h₀.hdr.bsize (pairs.set n ⟨pair.key, renewedDatap h₀.hdr.version val chksum pair.datap⟩) c' →
      (∀ i < pageOverhead + pairs.length * pairOverhead, c' i = c i) → Knows h₀ s acc' (⟨id, p, c'⟩ :: hand) hashp' →
        Q 0 hashp') :
    Wp (fun _ => True) (replaceItemOnPage id n val chksum) hashp Q := by
  have place := laid.placed d on
  have here := keyed.on n pair slot
  have behind : n < pairs.length := (List.getElem?_eq_some_iff.mp slot).1
  have used : ∀ q ∈ d.all, (0 < q ∧ q < s) ∧ q ∉ numbers (⟨id, p, c⟩ :: hand) := fun q mem =>
    ⟨(laid.used d on q mem).1, aside.data d on q mem⟩
  have low := used d.first List.mem_cons_self
  refine wp_bind (Prog.wp_read (wp_bind (wp_page h List.mem_cons_self ?_)))
  dsimp only
  rw [h.hdr, here.datap, if_neg (not_lt.mpr accepted)]
  refine wp_bind (wp_get h (first ▸ low.2) (fun _ => first ▸ low.1.1) (first ▸ low.1.2) (by decide)
    fun memp m mid known told => ?_)
  rw [first] at known told
  have words : (renewedDatap h₀.hdr.version val chksum pair.datap).Words :=
    words_renewed (here.datap ▸ readDatap_words) sum
  have key : (pairs.get ⟨n, behind⟩).key = pair.key := congrArg KeyDatap.key (List.getElem?_eq_some_iff.mp slot).2
  have renewed := key ▸ keyed.renew behind words
  have head : ∀ i < pageOverhead + pairs.length * pairOverhead,
      c.writeDatap (c.datapOff n) (renewedDatap h₀.hdr.version val chksum pair.datap) i = c i := fun i low =>
    writeDatap_outside (.inl (low.trans_le (keyed.room.trans (keyed.behind behind))))
  generalize written : c.writeDatap (c.datapOff n) (renewedDatap h₀.hdr.version val chksum pair.datap) =
    c' at renewed head
  have rest : Wp (fun _ => True) (do
      store id fun p => p.writeDatap (p.datapOff n) (renewedDatap h₀.hdr.version val chksum pair.datap)
      let status ← replaceData val memp (renewedDatap h₀.hdr.version val chksum pair.datap)
      if status ≠ 0 then pure (-1) else pure 0) mid Q := by
    refine wp_bind (wp_store known.swap _ fun mid known' => ?_)
    dsimp only at known'
    rw [written] at known'
    have replaceable : Replaceable h₀ s acc (⟨id, p, c'⟩ :: hand) d val
        (renewedDatap h₀.hdr.version val chksum pair.datap) m :=
      { page := laid.page, format := format, storable := storable, fits := shorter.trans place.fits, place := place
        on := laid.on d on, used := used, here := told, offset := dataOffset_renewed.trans offset, len := rfl }
    refine wp_bind (wp_replaceData known'.swap replaceable fun acc' hashp' replaced known'' => ?_)
    exact Prog.wp_ite (fun failed => absurd rfl failed) fun _ => wp_pure
      (next acc' c' hashp' replaced renewed head known'')
  exact Prog.wp_ite (fun _ => wp_bind (Prog.wp_mark fun _ => rest)) fun _ => rest

end FileHash.Htab
