import FileHash.ReplacedValues

/-! Runs that add data and replace them. In every state such a run comes to, one more
replacement changes no byte of another datum, of a header or of a link, and goes over no page
but those its datum had when it was added. -/
namespace FileHash.Htab

open Lib (Prog)
open Lib.Prog (Wp wp_bind wp_pure wp_mono)
open Page

variable {h₀ h₁ hashp : Htab} {top s p id bsize kp ki : Nat} {acc acc' : Account} {hand : List Taken}
  {maps maps' : FreeMap} {mem c c' c₀ : Page} {adm : Event → Prop} {α : Type} {ds : List Datum} {val : Dbt}

section Observed

def Account.shown (mp : Pagepool) : Account where
  holds p c := ∃ d, mp.Shows p d ∧ Agree c d
  agree := fun ⟨d, shows, same⟩ same' => ⟨d, shows, same'.trans same⟩

def Account.both (acc acc' : Account) : Account where
  holds p c := acc.holds p c ∧ acc'.holds p c
  agree := fun ⟨h, h'⟩ same => ⟨acc.agree h same, acc'.agree h' same⟩

theorem Knows.observe (h : Knows h₀ top acc hand hashp) : Knows h₀ top (acc.both (.shown hashp.mp)) hand hashp :=
  { h with
    holds := fun p c out shows => ⟨h.holds p c out shows, c, shows, .refl c⟩
    behind := fun g memg c clean stored => ⟨h.behind g memg c clean stored, c, .inr ⟨clean, stored⟩, .refl c⟩ }

theorem DataLaid.inside (laid : DataLaid h₀ s acc maps ds)
    (sub : ∀ p, 0 < p → p < s → ∀ c, acc'.holds p c → acc.holds p c) : DataLaid h₀ s acc' maps ds where
  page := laid.page
  pos := laid.pos
  stock := ⟨laid.stock.head, laid.stock.onPages.congr fun p c mem => sub p (laid.stock.bound p mem).1
    (laid.stock.bound p mem).2 c,
    laid.stock.nodup, laid.stock.bound⟩
  placed := laid.placed
  on d mem p memp c told := by
    have place := (laid.used d mem p memp).1
    exact laid.on d mem p memp c (sub p place.1 place.2 c told)
  used := laid.used
  apart := laid.apart
  current := laid.current.imp_right fun current =>
    { current with opens := fun c told => current.opens c (sub _ current.some current.started.cur c told) }

theorem DataLaid.mono (laid : DataLaid h₀ s acc maps ds) (sub : ∀ p c, acc'.holds p c → acc.holds p c) :
    DataLaid h₀ s acc' maps ds := laid.inside fun p _ _ => sub p

theorem shows_some (sound : Pagepool.Sound self hashp.mp) (p : Nat) : ∃ c, hashp.mp.Shows p c := by
  by_cases cached : ∃ id ∈ hashp.mp.lqh, (hashp.mp.bkt id).pgno = p
  · obtain ⟨id, mem, number⟩ := cached
    exact ⟨_, .inl ⟨id, mem, number, .refl _⟩⟩
  · obtain ⟨c, read⟩ := sound.readable p
    exact ⟨c, .inr ⟨fun id mem number => absurd ⟨id, mem, number⟩ cached, .inl ⟨c, read, .refl c⟩⟩⟩

end Observed

section Layout

variable {rest : Nat} {qs qs' : List Nat} {bytes : List UInt8}

theorem head_unique {link : Nat} (reaches : Reaches bsize qs rest) (reaches' : Reaches bsize qs' rest)
    (leads : ∀ part ∈ (tailParts bsize qs rest).head?, link = part.page)
    (leads' : ∀ part ∈ (tailParts bsize qs' rest).head?, link = part.page) : qs.head? = qs'.head? := by
  cases qs with
  | nil =>
    cases qs' with
    | nil => rfl
    | cons q' _ => exact absurd reaches reaches'.1
  | cons q _ =>
    cases qs' with
    | nil => exact absurd reaches' reaches.1
    | cons q' _ => exact congrArg some ((leads _ rfl).symm.trans (leads' _ rfl))

theorem pages_unique (reaches : Reaches bsize qs rest) (reaches' : Reaches bsize qs' rest)
    (first : qs.head? = qs'.head?)
    (lies : ∀ q ∈ qs, q ∈ qs' → ∃ c, Part.Spelled (tailParts bsize qs rest) bytes q c ∧
      Part.Spelled (tailParts bsize qs' rest) bytes q c) : qs = qs' := by
  induction qs generalizing qs' rest bytes with
  | nil =>
    cases qs' with
    | nil => rfl
    | cons q' later' => cases first
  | cons q later ih =>
    cases qs' with
    | nil => cases first
    | cons q' later' =>
      cases first
      obtain ⟨c, spelled, spelled'⟩ := lies q List.mem_cons_self List.mem_cons_self
      have lies' : ∀ x ∈ later, x ∈ later' → ∃ c,
          Part.Spelled (tailParts bsize later (rest - tailLen bsize rest)) (bytes.drop (tailLen bsize rest)) x c ∧
            Part.Spelled (tailParts bsize later' (rest - tailLen bsize rest))
              (bytes.drop (tailLen bsize rest)) x c := by
        intro x mem mem'
        obtain ⟨c, spelled, spelled'⟩ := lies x (List.mem_cons_of_mem _ mem) (List.mem_cons_of_mem _ mem')
        exact ⟨c, spelled.2, spelled'.2⟩
      exact congrArg (q :: ·) (ih reaches.2 reaches'.2
        (head_unique reaches.2 reaches'.2 (spelled.1 rfl).2 (spelled'.1 rfl).2) lies')

def Lies (hashp : Htab) (d : Datum) : Prop :=
  d.Placed hashp.hdr.bsize ∧ ∀ q ∈ d.all, ∀ c, hashp.mp.Shows q c →
    d.On hashp.hdr.version hashp.dataValidFlag hashp.hdr.bsize q c

end Layout

section Renewed

variable {d d' : Datum} {left right : List Datum}

/-- Nobody's bytes but the datum's own are written, and none of the page's own words. -/
structure Spared (bsize : Nat) (d : Datum) (others : List Datum) (q : Nat) (c c₀ : Page) : Prop where
  words : ∀ i < bigPageOverhead, i < chksumPos ∨ chksumOffset ≤ i → c i = c₀ i
  others : ∀ e ∈ others, ∀ i, e.owns bsize q i → c i = c₀ i
  header : q = d.first → ∀ i, d.roff + 8 ≤ i → i < d.roff + bigDataOverhead → c i = c₀ i
  rest : ∀ i, chksumOffset ≤ i → ¬d.owns bsize q i → c i = c₀ i

theorem Datum.Rewrites.owns {q i : Nat} (h : d.Rewrites bsize q i) : d.owns bsize q i := by
  rcases h with ⟨first, low, high⟩ | part
  · exact .inl ⟨first, low, by simp only [bigDataOverhead]; omega⟩
  · exact .inr part

theorem Outside.spared {q : Nat} (h : Outside (d.Rewrites bsize q) c c₀) (place : d.Placed bsize)
    (laid : ∀ e ∈ left ++ right, e.Placed bsize ∧ ∀ i, e.owns bsize q i → ¬d.owns bsize q i) :
    Spared bsize d (left ++ right) q c c₀ where
  words i low head := h i head fun mine => absurd (place.owns_high mine.owns) (not_le.mpr low)
  others e mem i owns := by
    obtain ⟨placed, apart⟩ := laid e mem
    have high := placed.owns_high owns
    refine h i (.inr ?_) fun mine => apart i owns mine.owns
    simp only [bigPageOverhead, chksumOffset] at *
    omega
  header first i low high := by
    have least := place.low
    refine h i (.inr (by simp only [bigPageOverhead, chksumOffset] at *; omega)) ?_
    rintro (⟨_, _, ends⟩ | ⟨part, mem, page, begins, _⟩)
    · omega
    · rcases List.mem_cons.mp mem with rfl | later
      · dsimp only at begins
        omega
      · have pages := List.mem_map_of_mem later (f := Part.page)
        rw [tailParts_pages, ← page, first] at pages
        exact (List.nodup_cons.mp place.nodup).1 pages
  rest i high out := h i (.inr high) fun mine => out mine.owns

theorem Datum.OnPages.spared {e : Datum} (on : e.OnPages h₀ acc)
    (spared : ∀ q c, acc'.holds q c → ∃ c₀, acc.holds q c₀ ∧ (∀ i < bigPageOverhead,
      i < chksumPos ∨ chksumOffset ≤ i → c i = c₀ i) ∧ ∀ i, e.owns h₀.hdr.bsize q i → c i = c₀ i) :
    e.OnPages h₀ acc' := by
  intro q mem c told
  obtain ⟨c₀, was, words, bytes⟩ := spared q c told
  have there := on q mem c₀ was
  simp only [bigPageOverhead, chksumPos, chksumOffset] at words
  have number : c.currPgno = c₀.currPgno := Lib.Mem.read32_congr fun i _ high => words i (by omega) (by omega)
  have count : c.numEnt = c₀.numEnt := Lib.Mem.read16_congr fun i _ high => words i (by omega) (by omega)
  have next : c.nextPgno = c₀.nextPgno := Lib.Mem.read32_congr fun i _ high => words i (by omega) (by omega)
  have sign : c.pageSign = c₀.pageSign := Lib.Mem.read32_congr fun i _ high => words i (by omega) (by omega)
  exact there.congr (sign.trans there.signed) (fun here => ⟨number, count ▸ (there.head here).2.1⟩) bytes fun _ => next

theorem apart_others (apart : (left ++ d :: right).Pairwise (Datum.Apart bsize)) :
    ∀ e ∈ left ++ right, ∀ q i, e.owns bsize q i → ¬d.owns bsize q i := by
  obtain ⟨_, behind, front⟩ := List.pairwise_append.mp apart
  intro e mem q i owns owns'
  rcases List.mem_append.mp mem with before | after
  · exact (front e before d List.mem_cons_self).bytes q i owns owns'
  · exact ((List.pairwise_cons.mp behind).1 e after).bytes q i owns' owns

theorem pairwise_renewed (apart : (left ++ d :: right).Pairwise (Datum.Apart bsize))
    (owns : d'.owns bsize = d.owns bsize) (links : d'.links = d.links) :
    (left ++ d' :: right).Pairwise (Datum.Apart bsize) := by
  obtain ⟨before, behind, front⟩ := List.pairwise_append.mp apart
  obtain ⟨mine, after⟩ := List.pairwise_cons.mp behind
  refine List.pairwise_append.mpr ⟨before, List.pairwise_cons.mpr ⟨fun e mem => ?_, after⟩, fun e mem e' mem' => ?_⟩
  · exact ⟨owns ▸ (mine e mem).bytes, links ▸ (mine e mem).links⟩
  · rcases List.mem_cons.mp mem' with rfl | later
    · exact ⟨owns ▸ (front e mem d List.mem_cons_self).bytes, links ▸ (front e mem d List.mem_cons_self).links⟩
    · exact front e mem e' (List.mem_cons_of_mem _ later)

theorem forall_mem_renewed {P : Datum → Prop} (all : ∀ e ∈ left ++ right, P e) (mine : P d') :
    ∀ e ∈ left ++ d' :: right, P e := by
  intro e mem
  rcases List.mem_append.mp mem with before | behind
  · exact all e (List.mem_append_left _ before)
  · rcases List.mem_cons.mp behind with rfl | after
    · exact mine
    · exact all e (List.mem_append_right _ after)

theorem mem_others {e : Datum} (mem : e ∈ left ++ right) : e ∈ left ++ d :: right := by
  rw [List.mem_append] at mem ⊢
  exact mem.imp_right (List.mem_cons_of_mem _)

theorem Opens.renewed (opens : Opens bsize (left ++ d :: right) p c) (owns : d'.owns bsize = d.owns bsize) :
    Opens bsize (left ++ d' :: right) p c where
  signed := opens.signed
  number := opens.number
  offset := opens.offset.imp_right fun ⟨full, room, aligned, behind⟩ => ⟨full, room, aligned,
    forall_mem_renewed (fun e mem => behind e (mem_others mem)) (owns ▸ behind d (by simp))⟩

theorem Replaced.spared (laid : DataLaid h₀ s acc maps (left ++ d :: right)) (replaced : Replaced h₀ d val acc acc')
    {q : Nat} (told : acc'.holds q c) :
    ∃ c₀, acc.holds q c₀ ∧ Spared h₀.hdr.bsize d (left ++ right) q c c₀ := by
  obtain ⟨c₀, was, same⟩ := replaced.patched q c told
  refine ⟨c₀, was, same.spared (laid.placed d (by simp)) fun e mem => ⟨laid.placed e (mem_others mem), fun i => ?_⟩⟩
  exact apart_others laid.apart e mem q i

theorem DataLaid.renew (laid : DataLaid h₀ s acc maps (left ++ d :: right)) (fits : val.size ≤ d.size)
    (replaced : Replaced h₀ d val acc acc') : DataLaid h₀ s acc' maps (left ++ d.renewed val :: right) := by
  have mine : d ∈ left ++ d :: right := by simp
  have place := laid.placed d mine
  have elsewhere : ∀ p ∈ maps.pages, p ∉ d.all := fun p listed on => (laid.used d mine p on).2 listed
  refine { page := laid.page, pos := laid.pos, stock := ?_, placed := ?_, on := ?_, used := ?_,
           apart := pairwise_renewed laid.apart rfl rfl, current := laid.current.imp_right fun current => ?_ }
  · exact ⟨laid.stock.head, laid.stock.onPages.congr fun p c listed => (replaced.same p c (elsewhere p listed)).mp,
      laid.stock.nodup, laid.stock.bound⟩
  · exact forall_mem_renewed (fun e mem => laid.placed e (mem_others mem))
      ⟨place.low, place.high, place.reaches, place.nodup, val.length_bytes.le.trans fits⟩
  · refine forall_mem_renewed (fun e mem => (laid.on e (mem_others mem)).spared fun q c told => ?_) replaced.on
    obtain ⟨c₀, was, spared⟩ := replaced.spared laid told
    exact ⟨c₀, was, spared.words, spared.others e mem⟩
  · exact forall_mem_renewed (fun e mem => laid.used e (mem_others mem)) (laid.used d mine)
  · refine ⟨current.started, current.some, current.free, ?_, fun c told => ?_⟩
    · exact forall_mem_renewed (fun e mem => current.unlinked e (mem_others mem)) (current.unlinked d mine)
    · obtain ⟨c₀, was, spared⟩ := replaced.spared laid told
      have words := spared.words
      simp only [bigPageOverhead, chksumPos, chksumOffset] at words
      rcases current.opens c₀ was with opens | ⟨clear, out⟩
      · refine .inl ?_
        have number : c.currPgno = c₀.currPgno := Lib.Mem.read32_congr fun i _ high => words i (by omega) (by omega)
        have count : c.numEnt = c₀.numEnt := Lib.Mem.read16_congr fun i _ high => words i (by omega) (by omega)
        have sign : c.pageSign = c₀.pageSign := Lib.Mem.read32_congr fun i _ high => words i (by omega) (by omega)
        have offset : c.offset = c₀.offset := Lib.Mem.read32_congr fun i _ high => words i (by omega) (by omega)
        have now : Opens h₀.hdr.bsize (left ++ d :: right) h₀.currDpage c := by
          refine ⟨sign.trans opens.signed, number.trans opens.number, ?_⟩
          rw [offset, count]
          exact opens.offset
        exact now.renewed rfl
      · have same := (replaced.same h₀.currDpage c (out d mine)).mp told
        refine (current.opens c same).imp (fun opens => opens.renewed rfl) fun blank => ⟨blank.1, ?_⟩
        exact forall_mem_renewed (fun e mem => out e (mem_others mem)) (out d mine)

end Renewed

section Runs

variable {d : Datum} {left right : List Datum} {datap : Datap}

/-- A replacement from the state `hashp` to `hashp'`, by the caller's fetch of the first page and
`_ffdb_replace_data`, which runs as if it were told the pages `d.pages` and followed no link. -/
def Replaces (hashp : Htab) (d : Datum) (val : Dbt) (datap : Datap) (hashp' : Htab) : Prop :=
  ∃ memp mid, (getPage datap.first hashDataPage {}).Returns hashp (some memp, datap.first) mid ∧
    (replaceData val memp datap).Returns mid 0 hashp' ∧
    Prog.SameRun (replaceData val memp datap) (replaceDataAlong d.pages val memp datap) mid

/-- A pointer that leads to the datum, with the length of the new value. -/
structure Datum.Renews (version : Nat) (d : Datum) (val : Dbt) (datap : Datap) : Prop where
  storable : Storable version val.size
  shorter : val.size ≤ d.bytes.length
  first : datap.first = d.first
  offset : dataOffset version datap = d.roff
  len : datap.len = u32 val.size

theorem Replaces.unique {hashp' hashp'' : Htab} (h : Replaces hashp d val datap hashp')
    (h' : Replaces hashp d val datap hashp'') : hashp' = hashp'' := by
  obtain ⟨memp, mid, fetched, run, _⟩ := h
  obtain ⟨memp', mid', fetched', run', _⟩ := h'
  obtain ⟨same, rfl⟩ := fetched.unique fetched'
  cases same
  exact (run.unique run').2

theorem HasData.replace (has : HasData hand hashp (left ++ d :: right))
    (renews : d.Renews hashp.hdr.version val datap) : ∃ hashp', Replaces hashp d val datap hashp' ∧
      HasData hand hashp' (left ++ d.renewed val :: right) ∧ hashp'.hdr = hashp.hdr ∧
      (∀ g ∈ hand, (hashp'.mp.bkt g.id).page = (hashp.mp.bkt g.id).page) ∧
      ∀ q c, q ∉ numbers hand → hashp'.mp.Shows q c →
        ∃ c₀, hashp.mp.Shows q c₀ ∧ Spared hashp.hdr.bsize d (left ++ right) q c c₀ := by
  obtain ⟨h₀, s, acc, maps, known, format, laid, aside⟩ := has
  have laid : DataLaid h₀ s (acc.both (.shown hashp.mp)) maps (left ++ d :: right) :=
    laid.mono fun p c told => told.1
  have mine : d ∈ left ++ d :: right := by simp
  have place := laid.placed d mine
  have used : ∀ q ∈ d.all, (0 < q ∧ q < s) ∧ q ∉ numbers hand :=
    fun q on => ⟨(laid.used d mine q on).1, aside.data d mine q on⟩
  have first := used d.first List.mem_cons_self
  rw [known.hdr] at renews ⊢
  have fetches : Wp (fun _ => True) (getPage datap.first hashDataPage {}) hashp fun r mid =>
      r.2 = datap.first ∧ ∃ memp c, r.1 = some memp ∧ (acc.both (.shown hashp.mp)).holds d.first c ∧
        Knows h₀ s (acc.both (.shown hashp.mp)) (⟨memp, d.first, c⟩ :: hand) mid := by
    rw [renews.first]
    exact wp_get known.observe first.2 (fun _ => first.1.1) first.1.2 (by decide) fun memp c mid known' here =>
      ⟨rfl, memp, c, rfl, here, known'⟩
  obtain ⟨⟨_, _⟩, mid, fetched, rfl, memp, c, rfl, here, held⟩ := fetches fun _ _ => trivial
  have replaceable : Replaceable h₀ s (acc.both (.shown hashp.mp)) hand d val datap c :=
    { page := laid.page, format := format, storable := renews.storable
      fits := renews.shorter.trans place.fits, place := place, on := laid.on d mine, used := used, here := here
      offset := renews.offset, len := renews.len }
  have replaces : Wp (fun _ => True) (replaceData val memp datap) mid fun r hashp' => r = 0 ∧
      ∃ acc', Replaced h₀ d val (acc.both (.shown hashp.mp)) acc' ∧ Knows h₀ s acc' hand hashp' :=
    wp_replaceData held replaceable fun acc' hashp' replaced known' => ⟨rfl, acc', replaced, known'⟩
  obtain ⟨_, hashp', run, rfl, acc', replaced, known'⟩ := replaces fun _ _ => trivial
  refine ⟨hashp', ⟨memp, mid, fetched, run, replaceData_along held replaceable⟩, ?_, known'.hdr, fun g mem => ?_,
    fun q c out shows => ?_⟩
  · refine ⟨h₀, s, acc', maps, known', format, laid.renew replaceable.fits replaced, aside.cur, aside.free, ?_⟩
    exact forall_mem_renewed (fun e mem => aside.data e (mem_others mem)) (aside.data d mine)
  · exact (known'.hands g mem).2.2.2.trans (known.hands g mem).2.2.2.symm
  · obtain ⟨c₀, ⟨_, was, shown, same⟩, patched⟩ := replaced.patched q c (known'.holds q c out shows)
    refine ⟨was, shown, (patched.trans (.of_agree same)).spared place fun e mem => ⟨laid.placed e (mem_others mem), ?_⟩⟩
    exact apart_others laid.apart e mem q

theorem HasData.lies (has : HasData hand hashp ds) (mem : d ∈ ds) : Lies hashp d := by
  obtain ⟨h₀, s, acc, maps, known, format, laid, aside⟩ := has
  have flag : hashp.dataValidFlag = h₀.dataValidFlag := by rw [known.frame]
  rw [Lies, known.hdr, flag]
  exact ⟨laid.placed d mem, fun q on c shows =>
    laid.on d mem q on c (known.holds q c (aside.data d mem q on) shows)⟩

theorem Lies.unique {e : Datum} {version : Nat} (sound : Pagepool.Sound self hashp.mp) (lies : Lies hashp d)
    (lies' : Lies hashp e) (added : Added kp ki val d) (added' : Added kp ki val e) (points : d.Points version datap)
    (points' : e.Points version datap) : d = e := by
  obtain ⟨keyPage, keyIdx, first, roff, size, pages, bytes⟩ := d
  obtain ⟨keyPage', keyIdx', first', roff', size', pages', bytes'⟩ := e
  obtain ⟨rfl, rfl, rfl, rfl⟩ := added
  obtain ⟨rfl, rfl, rfl, rfl⟩ := added'
  obtain rfl : datap.first = first := points.first
  obtain rfl : datap.first = first' := points'.first
  obtain rfl : _ = roff := points.offset
  obtain rfl : _ = roff' := points'.offset
  have spelled := fun q mem c shows => (lies.2 q mem c shows).spelled
  have spelled' := fun q mem c shows => (lies'.2 q mem c shows).spelled
  obtain ⟨c, shows⟩ := shows_some sound datap.first
  have leads := ((spelled _ List.mem_cons_self c shows).1 rfl).2
  have leads' := ((spelled' _ List.mem_cons_self c shows).1 rfl).2
  have first := head_unique lies.1.reaches lies'.1.reaches leads leads'
  have same : pages = pages' := pages_unique lies.1.reaches lies'.1.reaches first fun q mem mem' =>
    (shows_some sound q).imp fun c shows =>
      ⟨(spelled q (List.mem_cons_of_mem _ mem) c shows).2, (spelled' q (List.mem_cons_of_mem _ mem') c shows).2⟩
  rw [same]

/-- From one table to another by adding data and by replacing some of them, in any order. A datum
has the pages it was given when it was added. -/
inductive DataRun (start : Htab) (ds : List Datum) : Htab → List Datum → Prop
  | refl : DataRun start ds start ds
  | store {hashp hashp' : Htab} {now : List Datum} {kp ki : Nat} {val : Dbt} {datap : Datap} {d : Datum}
    (run : DataRun start ds hashp now) (storable : Storable hashp.hdr.version val.size)
    (slot : kp < 0x100000000 ∧ ki < 0x100000000) (few : Numbered hashp val.size)
    (stores : (storeValue kp ki val (Checksum.crc32Checksum 0 val.bytes)).Returns hashp (0, datap) hashp')
    (added : Added kp ki val d) (points : d.Points hashp'.hdr.version datap) (lies : Lies hashp' d) :
    DataRun start ds hashp' (d :: now)
  | replace {hashp hashp' : Htab} {left right : List Datum} {val : Dbt} {datap : Datap} {d : Datum}
    (run : DataRun start ds hashp (left ++ d :: right)) (renews : d.Renews hashp.hdr.version val datap)
    (replaces : Replaces hashp d val datap hashp') : DataRun start ds hashp' (left ++ d.renewed val :: right)

theorem DataRun.holds {hashp' : Htab} {ds' : List Datum} (run : DataRun hashp ds hashp' ds')
    (start : HasData hand hashp ds) : HasData hand hashp' ds' := by
  induction run with
  | refl => exact start
  | store run storable slot few stores added points lies ih =>
    obtain ⟨d', datap', hashp'', again, has, added', points', _⟩ := ih.store storable slot few
    obtain ⟨same, rfl⟩ := again.unique stores
    cases same
    obtain ⟨_, _, _, _, known, _⟩ := id has
    rwa [lies.unique known.sound (has.lies List.mem_cons_self) added added' points points']
  | replace run renews replaces ih =>
    obtain ⟨hashp'', again, has, _⟩ := ih.replace renews
    rwa [replaces.unique again]

/-- After any run of additions and replacements, one more replacement goes through; it changes no
byte of another datum, none of a header but the words of its own length, and no word of a page's
own header, the checksum apart; and it follows the links of the pages its datum was given. -/
theorem replacement_frame {hashp' : Htab} (start : HasData hand hashp ds)
    (run : DataRun hashp ds hashp' (left ++ d :: right)) (renews : d.Renews hashp'.hdr.version val datap) :
    ∃ hashp'', Replaces hashp' d val datap hashp'' ∧ hashp''.hdr = hashp'.hdr ∧
      (∀ g ∈ hand, (hashp''.mp.bkt g.id).page = (hashp'.mp.bkt g.id).page) ∧
      ∀ q c, q ∉ numbers hand → hashp''.mp.Shows q c →
        ∃ c₀, hashp'.mp.Shows q c₀ ∧ Spared hashp'.hdr.bsize d (left ++ right) q c c₀ := by
  obtain ⟨hashp'', replaces, _, same⟩ := (run.holds start).replace renews
  exact ⟨hashp'', replaces, same⟩

theorem replacement_frame_two : ∃ d e datap t u, DataRun newTable [] t [e, d] ∧ d.bytes = [7, 8, 9] ∧
    e.bytes.length = 5000 ∧ Replaces t d (.ofBytes [5]) datap u ∧ u.hdr = t.hdr ∧
    ∀ q c, q ∉ numbers [] → u.mp.Shows q c → ∃ c₀, t.mp.Shows q c₀ ∧ Spared t.hdr.bsize d ([e] ++ []) q c c₀ := by
  have long : (⟨fun _ => 1, 5000⟩ : Dbt).size = 5000 := rfl
  have storable : ∀ n : Nat, n ≤ 5000 → Storable newTable.hdr.version n := fun n small => .inl (by omega)
  have slot : ∀ i : Nat, i ≤ 1 → 3 < 0x100000000 ∧ i < 0x100000000 := fun i small => by omega
  have numbered : Numbered newTable (Dbt.ofBytes [7, 8, 9]).size := by
    unfold Numbered
    decide +kernel
  obtain ⟨d, datap, mid, stores, has, added, points, version, _⟩ :=
    hasData_newTable.store (storable 3 (by decide)) (slot 0 (by decide)) numbered
  -- the table after the first value
  have ends : mid = endOf (storeValue 3 0 (.ofBytes [7, 8, 9]) (Checksum.crc32Checksum 0 (Dbt.ofBytes [7, 8, 9]).bytes))
      newTable := by rw [endOf, stores]
  have numbered' : Numbered mid (⟨fun _ => 1, 5000⟩ : Dbt).size := by
    rw [ends]
    unfold Numbered
    decide +kernel
  obtain ⟨e, datap', t, stores', has', added', points', version', _⟩ :=
    has.store (version ▸ storable 5000 le_rfl) (slot 1 le_rfl) numbered'
  have run : DataRun newTable [] t ([e] ++ d :: []) :=
    .store (.store .refl (storable 3 (by decide)) (slot 0 (by decide)) numbered stores added points
      (has.lies List.mem_cons_self)) (version ▸ storable 5000 le_rfl) (slot 1 le_rfl) numbered' stores' added' points'
      (has'.lies List.mem_cons_self)
  have renews : d.Renews t.hdr.version (.ofBytes [5]) { datap with len := 1 } :=
    ⟨.inl (by decide), added.bytes ▸ (by decide), points.first, version' ▸ points.offset, rfl⟩
  obtain ⟨u, replaces, hdr, _, frame⟩ := replacement_frame hasData_newTable run renews
  exact ⟨d, e, _, t, u, run, added.bytes, by rw [added'.bytes, Dbt.length_bytes], replaces, hdr, frame⟩

end Runs

end FileHash.Htab
