import FileHash.LengthFields

/-! A datum whose key is put elsewhere: its header is told so, and nothing else of the data is new. -/
namespace FileHash.Htab

open Lib (Prog)
open Lib.Prog (Wp wp_bind wp_pure)
open Page

variable {h₀ hashp : Htab} {s p kp ki : Nat} {acc : Account} {hand : List Taken} {maps : FreeMap} {mem c c' : Page}
  {adm : Event → Prop} {d : Datum} {left right : List Datum} {datap : Datap}

def Datum.rekeyed (d : Datum) (kp ki : Nat) : Datum := { d with keyPage := kp, keyIdx := ki }

def rekeyPage (roff kp ki : Nat) (c : Page) : Page :=
  c.writeHeader roff { c.readHeader roff with keyPage := kp, keyIdx := ki }

section Page

variable {bsize version flag : Nat}

theorem placed_rekeyed (place : d.Placed bsize) : (d.rekeyed kp ki).Placed bsize :=
  ⟨place.low, place.high, place.reaches, place.nodup, place.fits⟩

theorem rekeyPage_head (place : d.Placed bsize) {i : Nat} (low : i < bigPageOverhead) :
    rekeyPage d.roff kp ki c i = c i := by
  have least := place.low
  exact writeHeader_slot (.inl (by omega))

theorem rekeyPage_outside {i : Nat} (out : ¬d.owns bsize d.first i) : rekeyPage d.roff kp ki c i = c i := by
  refine writeHeader_slot ?_
  by_contra inside
  refine out (.inl ⟨rfl, ?_, ?_⟩)
  · omega
  · omega

theorem numEnt_rekeyPage (place : d.Placed bsize) : (rekeyPage d.roff kp ki c).numEnt = c.numEnt :=
  Lib.Mem.read16_congr fun i _ high => rekeyPage_head place (by simp only [bigPageOverhead]; omega)

theorem currPgno_rekeyPage (place : d.Placed bsize) : (rekeyPage d.roff kp ki c).currPgno = c.currPgno :=
  Lib.Mem.read32_congr fun i _ high => rekeyPage_head place (by simp only [bigPageOverhead]; omega)

theorem nextPgno_rekeyPage (place : d.Placed bsize) : (rekeyPage d.roff kp ki c).nextPgno = c.nextPgno :=
  Lib.Mem.read32_congr fun i _ high => rekeyPage_head place (by simp only [bigPageOverhead]; omega)

theorem offset_rekeyPage (place : d.Placed bsize) : (rekeyPage d.roff kp ki c).offset = c.offset :=
  Lib.Mem.read32_congr fun i _ high => rekeyPage_head place (by simp only [bigPageOverhead]; omega)

theorem signed_rekeyPage (place : d.Placed bsize) (signed : Pagepool.Signed c) :
    Pagepool.Signed (rekeyPage d.roff kp ki c) :=
  (Lib.Mem.read32_congr fun i _ high => rekeyPage_head place (by simp only [bigPageOverhead]; omega)).trans signed

theorem part_rekeyPage (place : d.Placed bsize) {part : Part} (mem : part ∈ d.parts bsize) {i : Nat}
    (covers : part.covers d.first i) : rekeyPage d.roff kp ki c i = c i := by
  obtain ⟨here, start, _⟩ := covers
  refine writeHeader_slot (.inr ?_)
  rcases List.mem_cons.mp mem with rfl | later
  · exact start
  · have pages := List.mem_map_of_mem later (f := Part.page)
    rw [tailParts_pages, ← here] at pages
    exact absurd pages (List.nodup_cons.mp place.nodup).1

theorem on_rekeyPage (on : d.On version flag bsize d.first c) (place : d.Placed bsize)
    (word : kp < 0x100000000 ∧ ki < 0x100000000) :
    (d.rekeyed kp ki).On version flag bsize d.first (rekeyPage d.roff kp ki c) where
  signed := signed_rekeyPage place on.signed
  head here := by
    obtain ⟨number, some, heads⟩ := on.head here
    obtain ⟨len, status, next, _⟩ := readHeader_words (c := c) (a := d.roff)
    have header : (rekeyPage d.roff kp ki c).readHeader d.roff =
        { c.readHeader d.roff with keyPage := kp, keyIdx := ki } :=
      readHeader_writeHeader ⟨len, status, next, word⟩
    refine ⟨(currPgno_rekeyPage place).trans number, (numEnt_rekeyPage place).symm ▸ some, ?_⟩
    change Datum.Heads version flag (d.rekeyed kp ki) ((rekeyPage d.roff kp ki c).readHeader d.roff)
    rw [header]
    exact ⟨heads.len, heads.status, rfl, rfl⟩
  spelled := on.spelled.congr (fun part mem i covers => part_rekeyPage place mem covers)
    fun _ => nextPgno_rekeyPage place

end Page

theorem DataLaid.rekey (laid : DataLaid h₀ s acc maps (left ++ d :: right))
    (word : kp < 0x100000000 ∧ ki < 0x100000000) (told : acc.holds d.first mem) :
    DataLaid h₀ s (acc.set d.first (rekeyPage d.roff kp ki mem)) maps (left ++ d.rekeyed kp ki :: right) := by
  have mine : d ∈ left ++ d :: right := by simp
  have place := laid.placed d mine
  have apart := apart_others laid.apart
  refine { page := laid.page, pos := laid.pos, stock := laid.stock.set fun listed => ?_, placed := ?_, on := ?_
           used := ?_, apart := pairwise_renewed laid.apart rfl rfl, current := laid.current.imp_right
             fun current => ?_ }
  · exact (laid.used d mine d.first List.mem_cons_self).2 listed
  · exact forall_mem_renewed (fun e mem => laid.placed e (mem_others mem)) (placed_rekeyed place)
  · refine forall_mem_renewed (fun e memE => ?_) ?_
    · refine (laid.on e (mem_others memE)).set (laid.placed e (mem_others memE)) fun here => ?_
      refine (laid.on e (mem_others memE) d.first here mem told).congr
        (signed_rekeyPage place (laid.on d mine d.first List.mem_cons_self mem told).signed)
        (fun same => ⟨currPgno_rekeyPage place, ?_⟩) (fun i owns => ?_) fun _ => nextPgno_rekeyPage place
      · rw [numEnt_rekeyPage place]
        exact ((laid.on e (mem_others memE) d.first here mem told).head same).2.1
      · exact rekeyPage_outside (apart e memE d.first i owns)
    · intro q memq c holds
      by_cases here : q = d.first
      · subst here
        have on := laid.on d mine d.first List.mem_cons_self mem told
        exact (on_rekeyPage on place word).agree (placed_rekeyed place) (Account.set_same.mp holds)
      · have on := laid.on d mine q memq c ((Account.set_other here).mp holds)
        exact ⟨on.signed, fun same => absurd same here, on.spelled⟩
  · exact forall_mem_renewed (fun e mem => laid.used e (mem_others mem)) (laid.used d mine)
  · refine ⟨current.started, current.some, current.free, ?_, fun c holds => ?_⟩
    · exact forall_mem_renewed (fun e mem => current.unlinked e (mem_others mem)) (current.unlinked d mine)
    · by_cases here : h₀.currDpage = d.first
      · rw [here] at holds ⊢
        have opens := current.opens
        rw [here] at opens
        rcases opens mem told with opens | ⟨_, out⟩
        · have now : Opens h₀.hdr.bsize (left ++ d :: right) d.first (rekeyPage d.roff kp ki mem) := by
            refine ⟨signed_rekeyPage place opens.signed, (currPgno_rekeyPage place).trans opens.number, ?_⟩
            rw [offset_rekeyPage place, numEnt_rekeyPage place]
            exact opens.offset
          have renewed : Opens h₀.hdr.bsize (left ++ d.rekeyed kp ki :: right) d.first (rekeyPage d.roff kp ki mem) :=
            now.renewed rfl
          exact .inl (renewed.agree (Account.set_same.mp holds))
        · exact absurd List.mem_cons_self (out d mine)
      · refine (current.opens c ((Account.set_other here).mp holds)).imp (fun opens => opens.renewed rfl)
          fun blank => ⟨blank.1, ?_⟩
        exact forall_mem_renewed (fun e mem => blank.2 e (mem_others mem)) (blank.2 d mine)

theorem wp_updateDataInfo (h : Knows h₀ s acc hand hashp) (laid : DataLaid h₀ s acc maps (left ++ d :: right))
    (out : d.first ∉ numbers hand) (first : datap.first = d.first) (offset : dataOffset h₀.hdr.version datap = d.roff)
    (word : kp < 0x100000000 ∧ ki < 0x100000000) {Q : Int → Htab → Prop}
    (next : ∀ acc' hashp', DataLaid h₀ s acc' maps (left ++ d.rekeyed kp ki :: right) → Knows h₀ s acc' hand hashp' →
      Q 0 hashp') : Wp adm (updateDataInfo datap kp ki) hashp Q := by
  have mine : d ∈ left ++ d :: right := by simp
  have low := (laid.used d mine d.first List.mem_cons_self).1
  refine wp_bind (Prog.wp_read ?_)
  rw [h.hdr]
  refine wp_bind (wp_get h (first ▸ out) (fun _ => first ▸ low.1) (first ▸ low.2) (by decide)
    fun id mem mid known told => ?_)
  rw [first] at known told
  have signed := (laid.on d mine d.first List.mem_cons_self mem told).signed
  dsimp only
  rw [offset]
  refine wp_bind (wp_store known (rekeyPage d.roff kp ki) fun mid' stored => ?_)
  refine wp_bind (wp_putDirty stored (signed_rekeyPage (laid.placed d mine) signed) fun hashp' put => wp_pure ?_)
  exact next _ hashp' (laid.rekey word told) put

end FileHash.Htab
