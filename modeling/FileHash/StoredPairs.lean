import FileHash.ChainSearch
import FileHash.DBFunc
import FileHash.LinearHashing
import FileHash.Scans

/-! Pairs as gets and puts find and leave them, while each bucket has room on its one page. A key is in the
bucket of its hash value, beside the pointer to its datum. A put of a new key puts one entry more on the page, a
put of a known one writes the datum anew, and a get goes from the key to the datum. -/
namespace FileHash.Htab

open Lib (Prog)
open Lib.Prog (Wp wp_bind wp_pure wp_mono)
open Page

structure Entry where
  key : List UInt8
  datum : Datum

def Entry.pair (version : Nat) (e : Entry) : KeyDatap := ⟨e.key, e.datum.pointer version⟩

variable {h₀ h₁ hashp : Htab} {s s' p q id b bsize n : Nat} {acc acc' acc'' : Account} {maps maps' : FreeMap}
  {c c' : Page} {ds : List Datum} {key val : Dbt} {es : List Entry} {e : Entry} {k v : List UInt8}

/-- The room that the pairs with these keys can take on a page. -/
def pairsizes (keys : List (List UInt8)) : Nat := (keys.map fun k => pairsize k.length).sum

/-- Page `c`, as page `p`, is that of a bucket with these entries. A bucket without entries may have a page that
was never made. -/
structure EntriesOn (h₀ : Htab) (p : Nat) (es : List Entry) (c : Page) : Prop where
  none : es = [] → c.numEnt = 0
  stacked : es ≠ [] → Stacked h₀.hdr.bsize (es.map (Entry.pair h₀.hdr.version)) c
  number : es ≠ [] → c.currPgno = p
  last : es ≠ [] → c.nextPgno = invalidPgno
  spent : es ≠ [] → h₀.hdr.bsize ≤ pageOverhead + freespace c + pairsizes (es.map Entry.key)

structure Shelf (h₀ : Htab) (s : Nat) (acc : Account) (maps : FreeMap) (ds : List Datum) (p : Nat) (es : List Entry) :
    Prop where
  reserved : Reserved h₀ s maps ds p
  told : ∀ c, acc.holds p c → EntriesOn h₀ p es c
  on : ∀ i (e : Entry), es[i]? = some e → e.datum ∈ ds ∧ e.datum.keyPage = p ∧ e.datum.keyIdx = i
  small : ∀ e ∈ es, e.key.length ≤ maxKeysize h₀.hdr.bsize ∧ e.datum.bytes.length ≤ 0xffffffff
  once : (es.map Entry.key).Nodup

structure Ordinary (hashp : Htab) : Prop where
  compare : hashp.hCompare = hamDefcmp
  writable : hashp.rdonly = false
  shape : ∃ j, hashp.hdr.Shape j
  buckets : hashp.hdr.maxBucket < 0x80000000
  levels : ∀ b ≤ hashp.hdr.maxBucket, ffdbLog2 (u32 (b + 1)) ≤ hashp.hdr.ovflPoint
  apart : ∀ a ≤ hashp.hdr.maxBucket, ∀ b ≤ hashp.hdr.maxBucket,
    hashp.hdr.bucketToPage a = hashp.hdr.bucketToPage b → a = b

/-- Each bucket has one page, with the entries `shelf` has for it, and these have their values in `ds`. -/
structure Arranged (shelf : Nat → List Entry) (h₀ : Htab) (s : Nat) (acc : Account) (maps : FreeMap) (ds : List Datum) :
    Prop extends Ordinary h₀ where
  format : Format h₀.hdr.version h₀.dataValidFlag
  laid : DataLaid h₀ s acc maps ds
  pages : ∀ b ≤ h₀.hdr.maxBucket, Shelf h₀ s acc maps ds (h₀.hdr.bucketToPage b) (shelf b)
  home : ∀ b ≤ h₀.hdr.maxBucket, ∀ e ∈ shelf b, h₀.addressOf (Dbt.ofBytes e.key) = b

/-- What it takes to close the table and to open it again: no page is pinned, none was freed, the current data page
is the newest page and the last of its chain, and no pages are to be moved. -/
structure AtRest (h₀ : Htab) (s : Nat) (acc : Account) (maps : FreeMap) (ds : List Datum) : Prop where
  idle : h₀.Idle
  none : maps = []
  tip : (h₀.currDpage = invalidPgno ∧ ds = []) ∨ Tip h₀ acc
  numbers : NumbersOn h₀.hdr h₀
  proper : h₀.hdr.Proper
  levels : h₀.hdr.ovflPoint + 1 < ncached
  unmoved : h₀.hdr.numMovedPages = 0 ∧ (h₀.rearrangePages = true → h₀.hdr.highMask = h₀.hdr.maxBucket)
  filters : h₀.mp.pgin = pginRoutine h₀.hdr.bsize false ∧ h₀.mp.pgout = pgoutRoutine h₀.hdr.bsize false
  reached : h₀.mp.Reached
  uinfo : 0 < h₀.hdr.uinfoPage ∧ h₀.hdr.uinfoPage + h₀.hdr.uinfoNpages ≤ s
  cfig : 0 < h₀.hdr.cfigPage ∧ h₀.hdr.cfigPage + h₀.hdr.cfigNpages ≤ s

/-- Each bucket has the entries `shelf` has for it. If `rest`, the table can be closed. -/
def Shelves (rest : Prop) (shelf : Nat → List Entry) (hashp : Htab) : Prop :=
  ∃ h₀ s acc maps ds, Knows h₀ s acc [] hashp ∧ Arranged shelf h₀ s acc maps ds ∧ (rest → AtRest h₀ s acc maps ds)

/-- The table has value `v` under key `k`. -/
def Under (shelf : Nat → List Entry) (hashp : Htab) (k v : List UInt8) : Prop :=
  ∃ e ∈ shelf (hashp.addressOf (Dbt.ofBytes k)), e.key = k ∧ e.datum.bytes = v

section Tables

theorem addressOf_congr {t : Htab} (hash : t.hash = hashp.hash) (masks : t.hdr.masks = hashp.hdr.masks) (key : Dbt) :
    t.addressOf key = hashp.addressOf key := by
  rw [addressOf, addressOf, hash, Hashhdr.bucketOf_congr masks]

theorem Arranged.alike {shelf : Nat → List Entry} (file : Arranged shelf h₀ s acc maps ds) (alike : Alike h₀ h₁)
    (masks : h₁.hdr.masks = h₀.hdr.masks) (hash : h₁.hash = h₀.hash) (compare : h₁.hCompare = h₀.hCompare)
    (rdonly : h₁.rdonly = h₀.rdonly) : Arranged shelf h₁ s acc maps ds := by
  obtain ⟨maxBucket, -⟩ := Hashhdr.masks_eq masks
  have page : ∀ b ≤ h₀.hdr.maxBucket, h₁.hdr.bucketToPage b = h₀.hdr.bucketToPage b := fun b low => by
    unfold Hashhdr.bucketToPage
    dsimp only
    rw [alike.spares _ ((file.levels b low).trans (Nat.le_succ _))]
  refine {
    compare := compare.trans file.compare
    writable := rdonly.trans file.writable
    shape := file.shape.imp fun _ shape => shape.congr masks
    buckets := maxBucket ▸ file.buckets
    levels := by rw [maxBucket, alike.point]; exact file.levels
    apart := fun a most b most' same => ?_
    format := Format.alike file.format alike
    laid := file.laid.alike alike
    pages := fun b low => ?_
    home := fun b low e mem => ?_ }
  all_goals rw [maxBucket] at *
  · rw [page a most, page b most'] at same
    exact file.apart a most b most' same
  · have shelf' := file.pages b low
    rw [page b low]
    refine ⟨⟨shelf'.reserved.pos, shelf'.reserved.low, alike.current ▸ shelf'.reserved.cur, shelf'.reserved.free,
      shelf'.reserved.data⟩, fun c told => ?_, shelf'.on, alike.size ▸ shelf'.small, shelf'.once⟩
    have here := shelf'.told c told
    refine ⟨here.none, fun some => ?_, here.number, here.last, alike.size ▸ here.spent⟩
    rw [alike.size, alike.version]
    exact here.stacked some
  · refine Eq.trans ?_ (file.home b low e mem)
    exact addressOf_congr hash masks _

theorem Arranged.loosen {shelf : Nat → List Entry} (file : Arranged shelf h₀ s acc maps ds) :
    Arranged shelf h₀.loosened s acc maps ds := file.alike alike_loosened rfl rfl rfl rfl

theorem AtRest.mono (rest : AtRest h₀ s acc maps ds) (less : ∀ p c, acc'.holds p c → acc.holds p c) :
    AtRest h₀ s acc' maps ds :=
  { rest with tip := rest.tip.imp_right fun tip => ⟨tip.made, fun c holds => tip.ended c (less _ c holds)⟩ }

theorem AtRest.tipped (rest : AtRest h₀ s acc maps ds) (made : h₀.currDpage ≠ invalidPgno) : Tip h₀ acc :=
  rest.tip.resolve_left fun both => made both.1

theorem Tip.set (tip : Tip h₀ acc) (ne : h₀.currDpage ≠ p) (c : Page) : Tip h₀ (acc.set p c) :=
  ⟨tip.made, fun x holds => tip.ended x ((Account.set_other ne).mp holds)⟩

theorem NumbersOn.knows {hdr : Hashhdr} {hand : List Taken} (numbers : NumbersOn hdr h₀)
    (known : Knows h₀ s acc hand hashp) :
    NumbersOn hdr hashp := by
  rw [known.frame]
  exact ⟨numbers.header, numbers.newest⟩

theorem NumbersOn.known {hdr : Hashhdr} {hand : List Taken} (numbers : NumbersOn hdr hashp)
    (known : Knows h₀ s acc hand hashp) :
    NumbersOn hdr h₀ := by
  rw [known.frame] at numbers
  exact ⟨numbers.header, numbers.newest⟩

theorem numbersOn_self (newest : (h₀.currDpage = invalidPgno ∧ h₀.hdr.spares (h₀.hdr.ovflPoint + 1) = 0) ∨
    h₀.hdr.spares (h₀.hdr.ovflPoint + 1) = u32 (h₀.currDpage + 1)) : NumbersOn h₀.hdr h₀ :=
  ⟨⟨h₀.hdr.spares (h₀.hdr.ovflPoint + 1), by simp only [withNext, Function.update_eq_self]⟩, newest⟩

theorem NumbersOn.here {hdr : Hashhdr} (numbers : NumbersOn hdr h₀) : NumbersOn h₀.hdr h₀ := by
  refine numbersOn_self ?_
  rw [numbers.point]
  exact numbers.newest

theorem NumbersOn.next_lt {hdr : Hashhdr} {n : Nat} (numbers : NumbersOn hdr h₀) (header : h₀.hdr = withNext hdr n) :
    n < 0x100000000 := by
  rw [← spares_withNext header]
  rcases numbers.newest with ⟨_, zero⟩ | next
  · rw [zero]
    decide
  · rw [next]
    exact Nat.mod_lt _ (by decide)

theorem AtRest.onward {d : Datum} (rest : AtRest h₀ s acc maps ds)
    (onward : Onward h₀ s acc maps h₀.currDpage h₁ s' acc' maps')
    (numbers : NumbersOn h₀.hdr h₁) (tip : Tip h₁ acc'') : AtRest h₁ s' acc'' maps' (d :: ds) := by
  obtain ⟨n, header⟩ := numbers.header
  have same : h₁.mp = h₀.mp ∧ h₁.rearrangePages = h₀.rearrangePages := by
    rw [onward.renumbered]
    exact ⟨rfl, rfl⟩
  refine {
    idle := by rw [Idle, same.1]; exact rest.idle
    none := ?_
    tip := .inr tip
    numbers := numbers.here
    proper := ?_
    levels := by rw [header]; exact rest.levels
    unmoved := by rw [header, same.2]; exact rest.unmoved
    filters := by rw [header, same.1]; exact rest.filters
    reached := by rw [same.1]; exact rest.reached
    uinfo := by rw [header]; exact rest.uinfo.imp_right (·.trans onward.grows)
    cfig := by rw [header]; exact rest.cfig.imp_right (·.trans onward.grows) }
  · have none : maps'.pages = [] := List.eq_nil_iff_forall_not_mem.mpr fun p mem => by
      have listed := onward.sub p mem
      rw [rest.none] at listed
      cases listed
    cases maps' with
    | nil => rfl
    | cons e _ => cases none
  · have proper := rest.proper.setSpares (h₀.hdr.ovflPoint + 1) n
    rw [show u32 n = n from Nat.mod_eq_of_lt (numbers.next_lt header)] at proper
    rw [header]
    exact proper

theorem AtRest.retip {ds' : List Datum} (rest : AtRest h₀ s acc maps ds) (tip : Tip h₀ acc') :
    AtRest h₀ s acc' maps ds' :=
  { rest with tip := .inr tip }

theorem AtRest.count (rest : AtRest h₀ s acc maps ds) :
    AtRest (setHdr (fun hdr => { hdr with nkeys := u32 (hdr.nkeys + 1) }) h₀) s acc maps ds where
  idle := rest.idle
  none := rest.none
  tip := rest.tip.imp_right fun tip => ⟨tip.made, tip.ended⟩
  numbers := numbersOn_self rest.numbers.newest
  proper := rest.proper.countKey
  levels := rest.levels
  unmoved := rest.unmoved
  filters := rest.filters
  reached := rest.reached
  uinfo := rest.uinfo
  cfig := rest.cfig

end Tables

section Pages

theorem pairsizes_append (keys : List (List UInt8)) : pairsizes (keys ++ [k]) = pairsizes keys + pairsize k.length := by
  rw [pairsizes, List.map_append, List.sum_append, List.map_singleton, List.sum_singleton, ← pairsizes]

theorem keys_set {i : Nat} (there : es[i]? = some e) (d : Datum) :
    (es.set i ⟨e.key, d⟩).map Entry.key = es.map Entry.key := by
  obtain ⟨inside, here⟩ := List.getElem?_eq_some_iff.mp there
  rw [List.map_set, ← here, ← List.getElem_map (h := by rwa [List.length_map]) Entry.key]
  exact List.set_getElem_self _

theorem freespace_congr (head : ∀ i < pageOverhead, c' i = c i) : freespace c' = freespace c := by
  have offset : c'.offset = c.offset := Lib.Mem.read32_congr fun i _ less => head i less
  have count : c'.numEnt = c.numEnt := Lib.Mem.read16_congr fun i _ less => head i (less.trans (by decide))
  unfold freespace
  rw [offset, count]

theorem Stacked.spent_nil (h : Stacked bsize [] c) (page : PageSize bsize) : bsize ≤ pageOverhead + freespace c := by
  have room := h.freespace_eq page.most
  have tight := h.tight
  have none : c.numEnt = 0 := h.count
  rw [none] at room
  rw [List.length_nil, roof] at tight
  omega

theorem Stacked.spent_put {pairs : List KeyDatap} {datap : Datap} (h : Stacked bsize pairs c) (page : PageSize bsize)
    (placeable : Placeable bsize c key.size) (words : datap.Words) :
    freespace c ≤ freespace (putDatap c.numEnt (slotOff c key) datap (putKey key c)) + pairsize key.size := by
  have roomy := h.roomy page placeable
  have before := h.freespace_eq page.most
  have after := (h.put page placeable words).freespace_eq page.most
  have count := (h.put page placeable words).count
  obtain ⟨a, k, p⟩ := places page.most h.offset_lt roomy
  have offset : (putDatap c.numEnt (slotOff c key) datap (putKey key c)).offset + 1 = a := by
    rw [p.off]
    exact p.pair_offset
  have ends := p.ends
  have near := p.near
  rw [offset, count, List.length_append, List.length_singleton, ← h.count] at after
  simp only [pairsize, pairOverhead, datapSize] at *
  omega

theorem EntriesOn.agree (h : EntriesOn h₀ p es c) (same : Agree c' c) : EntriesOn h₀ p es c' where
  none nil := same.numEnt.trans (h.none nil)
  stacked some := (h.stacked some).agree same
  number some := same.currPgno.trans (h.number some)
  last some := same.nextPgno.trans (h.last some)
  spent some := by
    rw [freespace_agree same]
    exact h.spent some

theorem findKey_entries {version : Nat} (keyed : Keyed bsize (es.map (Entry.pair version)) c) (key : Dbt) :
    (∃ i e, findKey hamDefcmp key c = some i ∧ es[i]? = some e ∧ e.key = key.bytes) ∨
      (findKey hamDefcmp key c = none ∧ ∀ e ∈ es, e.key ≠ key.bytes) := by
  have slot : ∀ i (e : Entry), es[i]? = some e → (c.key i).bytes = e.key := fun i e there =>
    (keyed.on i (e.pair version) (by rw [List.getElem?_map, there]; rfl)).key
  have count : c.numEnt = es.length := keyed.count.trans (List.length_map _)
  cases found : findKey hamDefcmp key c with
  | some i =>
    obtain ⟨low, equal⟩ := findKey_some found
    rw [count] at low
    have there := List.getElem?_eq_getElem low
    exact .inl ⟨i, _, rfl, there, (slot i _ there).symm.trans (hamDefcmp_eq_zero.mp equal).symm⟩
  | none =>
    refine .inr ⟨rfl, fun e mem same => ?_⟩
    obtain ⟨i, low, rfl⟩ := List.mem_iff_getElem.mp mem
    refine findKey_none found i (count ▸ low) (hamDefcmp_eq_zero.mpr ?_)
    rw [slot i _ (List.getElem?_eq_getElem low), same]

structure Opened (h₀ : Htab) (acc : Account) (p : Nat) (es : List Entry) (c : Page) : Prop where
  stacked : Stacked h₀.hdr.bsize (es.map (Entry.pair h₀.hdr.version)) c
  number : c.currPgno = p
  last : c.nextPgno = invalidPgno
  spent : h₀.hdr.bsize ≤ pageOverhead + freespace c + pairsizes (es.map Entry.key)
  told : es ≠ [] → acc.holds p c

theorem EntriesOn.opened (here : EntriesOn h₀ p es c) (some : es ≠ []) (told : acc.holds p c) : Opened h₀ acc p es c :=
  ⟨here.stacked some, here.number some, here.last some, here.spent some, fun _ => told⟩

theorem numEnt_opened {flags : PageFlags} {ty : Nat} (none : c.numEnt = 0) :
    (opened bsize flags p ty c).numEnt = 0 := by
  unfold opened
  split
  · exact numEnt_initPage ..
  · exact none

theorem word_of_reserved {hand : List Taken} (known : Knows h₀ s acc hand hashp) (reserved : Reserved h₀ s maps ds p) :
    p < 0x100000000 := by
  have low := reserved.low
  have few := known.few
  simp only [maxPageNumber] at few
  omega

def valueSum : Option Dbt → Nat
  | some val => Checksum.crc32Checksum 0 val.bytes
  | none => 0

theorem Shelf.wp_findItem (shelf : Shelf h₀ s acc maps ds p es) (known : Knows h₀ s acc [] hashp)
    (page : PageSize h₀.hdr.bsize) (compare : h₀.hCompare = hamDefcmp) (first : hashp.hdr.bucketToPage b = p)
    (bucket : b < 0x80000000)
    (val : Option Dbt) {Q : Option Hent → Htab → Prop}
    (found : ∀ id i e c t, es[i]? = some e → e.key = key.bytes → Opened h₀ acc p es c → acc.holds p c →
      Knows h₀ s acc [⟨id, p, c⟩] t → Q (some ⟨id, p, i, .ok, valueSum val⟩) t)
    (missing : ∀ id n c t, (∀ e ∈ es, e.key ≠ key.bytes) → Opened h₀ acc p es c →
      Knows h₀ s acc [⟨id, p, c⟩] t → Q (some ⟨id, p, n, .noMore, valueSum val⟩) t) :
    Wp (fun _ => True) (findItem b key val) hashp Q := by
  have word := word_of_reserved known shelf.reserved
  refine wp_bind (wp_getPage known List.not_mem_nil (fun _ => shelf.reserved.pos) shelf.reserved.low rfl (.inl rfl)
    (fun q => wp_address_bucket bucket (first.symm ▸ q)) fun id c mid known told => ?_)
  have here := shelf.told c told
  refine wp_bind (Prog.wp_read (wp_bind (wp_page known List.mem_cons_self ?_)))
  dsimp only
  by_cases nil : es = []
  · rw [if_pos (numEnt_opened (here.none nil))]
    have rest : Wp (fun _ => True) (do
        initPage id p hashBucketPage
        if val.isNone ∧ resets mid.hdr.bsize p (opened h₀.hdr.bsize { create := true } p hashBucketPage c) then
          noteSlip id .emptied
        pure (some (⟨id, p, 0, .noMore, valueSum val⟩ : Hent))) mid Q := by
      refine wp_bind (wp_initPage known p hashBucketPage fun t known' => ?_)
      have reset : Opened h₀ acc p es (FileHash.initPage h₀.hdr.bsize
          (opened h₀.hdr.bsize { create := true } p hashBucketPage c) p hashBucketPage) := by
        subst nil
        have blank : Stacked h₀.hdr.bsize [] (FileHash.initPage h₀.hdr.bsize
            (opened h₀.hdr.bsize { create := true } p hashBucketPage c) p hashBucketPage) :=
          stacked_initPage page (.inl rfl)
        exact ⟨blank, currPgno_initPage word, nextPgno_initPage, (blank.spent_nil page).trans (Nat.le_add_right ..),
          fun some => absurd rfl some⟩
      have past : Q (some ⟨id, p, 0, .noMore, valueSum val⟩) t :=
        missing id 0 _ t (fun e mem => absurd (nil ▸ mem) List.not_mem_nil) reset known'
      exact Prog.wp_ite (fun _ => wp_bind (wp_noteSlip (wp_pure past))) fun _ => wp_pure past
    cases val <;> exact Prog.wp_ite (fun _ => wp_bind (Prog.wp_mark fun _ => rest)) fun _ => rest
  · have stacked := here.stacked nil
    have plain : opened h₀.hdr.bsize { create := true } p hashBucketPage c = c :=
      if_neg fun both => shelf.reserved.pos.ne' ((here.number nil).symm.trans both.2)
    rw [plain] at known ⊢
    have some_pairs : c.numEnt ≠ 0 := by
      rw [stacked.count, List.length_map]
      exact fun zero => nil (List.length_eq_zero_iff.mp zero)
    have opens := here.opened nil told
    rw [if_neg some_pairs]
    have chain : ∀ fuel, Wp (fun _ => True) (findChain key (valueSum val) (fuel + 1) id c.currPgno) mid Q := by
      intro fuel
      refine wp_bind (Prog.wp_read (wp_bind (wp_page known List.mem_cons_self ?_)))
      rw [known.hCompare, compare, here.number nil]
      rcases findKey_entries stacked.toKeyed key with ⟨i, e, slot, there, same⟩ | ⟨slot, absent⟩
      · rw [slot]
        exact wp_pure (found id i e c mid there same opens told known)
      · rw [slot]
        dsimp only
        rw [if_pos (here.last nil)]
        exact wp_pure (missing id _ c mid absent opens known)
    cases val <;> exact chain _

end Pages

section Gets

variable {shelf : Nat → List Entry} {t : Htab}

theorem Opened.lists (opens : Opened h₀ acc p es c) : EntriesOn h₀ p es c where
  none nil := by rw [opens.stacked.count, nil, List.map_nil, List.length_nil]
  stacked _ := opens.stacked
  number _ := opens.number
  last _ := opens.last
  spent _ := opens.spent

theorem Arranged.wp_release (file : Arranged shelf h₀ s acc maps ds) (low : b ≤ h₀.hdr.maxBucket)
    (opens : Opened h₀ acc (h₀.hdr.bucketToPage b) (shelf b) c)
    (known : Knows h₀ s acc [⟨id, h₀.hdr.bucketToPage b, c⟩] hashp) :
    Wp (fun _ => True) (putPage id false) hashp fun _ t =>
      ∃ acc', Knows h₀ s acc' [] t ∧ Arranged shelf h₀ s acc' maps ds := by
  have mine := file.pages b low
  have told : (acc.also (h₀.hdr.bucketToPage b) c).holds (h₀.hdr.bucketToPage b) c := .inr ⟨rfl, .refl c⟩
  have more : ∀ q d, acc.holds q d → (acc.also (h₀.hdr.bucketToPage b) c).holds q d := fun _ _ => .inl
  refine wp_putPage known opens.stacked.signed (fun q d _ => more q d) told (fun _ => more _)
    fun t known' => ⟨_, known', ?_⟩
  have elsewhere : ∀ q d, q ≠ h₀.hdr.bucketToPage b → (acc.also (h₀.hdr.bucketToPage b) c).holds q d → acc.holds q d :=
    fun q d ne told => told.resolve_right fun both => ne both.1
  refine { file with laid := file.laid.elsewhere elsewhere mine.reserved.cur mine.reserved.free mine.reserved.data
                     pages := fun a most => ?_ }
  have shelf' := file.pages a most
  refine { shelf' with told := fun d told => ?_ }
  rcases told with told | ⟨same, agree⟩
  · exact shelf'.told d told
  · obtain rfl := file.apart a most b low same
    exact opens.lists.agree agree

theorem Arranged.address_le (file : Arranged shelf h₀ s acc maps ds) (key : Dbt) :
    h₀.addressOf key ≤ h₀.hdr.maxBucket := by
  obtain ⟨j, shape⟩ := file.shape
  exact shape.bucketOf_le _

theorem Knows.addressOf {hand : List Taken} (known : Knows h₀ s acc hand hashp) (key : Dbt) :
    hashp.addressOf key = h₀.addressOf key := by
  rw [known.frame]
  rfl

theorem Arranged.points (file : Arranged shelf h₀ s acc maps ds) (low : b ≤ h₀.hdr.maxBucket) (mem : e ∈ shelf b)
    (on : e.datum ∈ ds) : e.datum.Points h₀.hdr.version (e.datum.pointer h₀.hdr.version) :=
  file.laid.points on file.format (.inl ((file.pages b low).small e mem).2)

theorem Arranged.wp_getItem (file : Arranged shelf h₀ s acc maps ds) (loose : ¬h₀.Idle) (low : b ≤ h₀.hdr.maxBucket)
    {i : Nat} (there : (shelf b)[i]? = some e) (opens : Opened h₀ acc (h₀.hdr.bucketToPage b) (shelf b) c)
    (told : acc.holds (h₀.hdr.bucketToPage b) c)
    (known : Knows h₀ s acc [⟨id, h₀.hdr.bucketToPage b, c⟩] hashp) (freepage : Bool) :
    Wp (fun _ => True) (getItem id (h₀.hdr.bucketToPage b) i 0 freepage) hashp fun r t =>
      r = (0, e.datum.bytes) ∧ Knows h₀ s acc (if freepage then [] else [⟨id, h₀.hdr.bucketToPage b, c⟩]) t := by
  have mine := file.pages b low
  obtain ⟨on, page, idx⟩ := mine.on i e there
  have datap : c.datap i = e.datum.pointer h₀.hdr.version :=
    (opens.stacked.toKeyed.on i (e.pair h₀.hdr.version) (by rw [List.getElem?_map, there]; rfl)).datap
  have points := file.points low (List.mem_of_getElem? there) on
  refine wp_bind (wp_page known List.mem_cons_self ?_)
  dsimp only
  rw [datap, ← page, ← idx]
  refine wp_bind (wp_getData known file.laid.page.room (file.laid.placed _ on) (file.laid.on _ on) points
    (fun q mem => ⟨(file.laid.used _ on q mem).1, ?_⟩) (.inl rfl) (fun _ => loose) fun mid known' => ?_)
  · intro held
    rw [List.mem_singleton.mp held] at mem
    exact mine.reserved.data _ on mem
  · rw [if_neg (by simp)]
    cases freepage with
    | true => exact wp_bind (wp_putClean known' opens.stacked.signed told fun t known'' => wp_pure ⟨rfl, known''⟩)
    | false =>
      rw [page]
      exact wp_pure ⟨rfl, known'⟩

theorem Shelf.unique {e' : Entry} (shelf : Shelf h₀ s acc maps ds p es) (mem : e ∈ es) (mem' : e' ∈ es)
    (same : e'.key = e.key) : e' = e :=
  List.inj_on_of_nodup_map shelf.once mem' mem same

theorem Arranged.wp_get (file : Arranged shelf h₀ s acc maps ds) (loose : ¬h₀.Idle) (known : Knows h₀ s acc [] hashp)
    (k : List UInt8) :
    Wp (fun _ => True) (DBFunc.getBinaryData k) hashp fun r t =>
      (∃ acc', Knows h₀ s acc' [] t ∧ Arranged shelf h₀ s acc' maps ds) ∧ ∀ v, r = .ok v ↔ Under shelf hashp k v := by
  have low := file.address_le (Dbt.ofBytes k)
  have bucket : hashp.addressOf (Dbt.ofBytes k) = h₀.addressOf (Dbt.ofBytes k) := known.addressOf _
  refine wp_bind (wp_bind (Prog.wp_modify (wp_bind (Prog.wp_reads (wp_bind ?_)))))
  have known₁ : Knows h₀ s acc [] { hashp with held := [] } := known.note hashp.fetches []
  have mine := file.pages _ low
  rw [show Hashhdr.bucketOf _ _ = h₀.addressOf (Dbt.ofBytes k) from known₁.addressOf _]
  refine mine.wp_findItem known₁ file.laid.page file.compare (known₁.hdr ▸ rfl) (low.trans_lt file.buckets) none
    (fun id i e c mid there same opens told known₂ => ?_) (fun id n c mid absent opens known₂ => ?_)
  · dsimp only
    rw [if_neg (by decide)]
    refine wp_mono (file.wp_getItem loose low there opens told known₂ true) ?_
    rintro _ t ⟨rfl, known₃⟩
    refine wp_pure ⟨⟨acc, known₃, file⟩, fun v => ?_⟩
    have mem := List.mem_of_getElem? there
    rw [Dbt.bytes_ofBytes] at same
    constructor
    · intro answer
      cases answer
      exact ⟨e, bucket ▸ mem, same, rfl⟩
    · rintro ⟨e', mem', same', rfl⟩
      rw [mine.unique mem (bucket ▸ mem') (same'.trans same.symm)]
  · dsimp only
    rw [if_pos rfl]
    refine wp_bind (wp_mono (file.wp_release low opens known₂) fun _ t kept => wp_pure ?_)
    refine wp_pure ⟨kept, fun v => ⟨fun answer => ?_, ?_⟩⟩
    · cases answer
    · rintro ⟨e, mem, same, rfl⟩
      exact absurd (by rw [same, Dbt.bytes_ofBytes]) (absent e (bucket ▸ mem))

end Gets

section Renumbering

variable {shelf : Nat → List Entry}

theorem Ordinary.renumbered (h : Ordinary h₀) (same : Renumbered h₀ h₁)
    (pages : ∀ b ≤ h₀.hdr.maxBucket, h₁.hdr.bucketToPage b = h₀.hdr.bucketToPage b) : Ordinary h₁ := by
  rw [same] at pages ⊢
  obtain ⟨compare, writable, ⟨j, shape⟩, buckets, levels, apart⟩ := h
  refine ⟨compare, writable, ⟨j, shape.congr rfl⟩, buckets, levels, fun a most b most' here => ?_⟩
  exact apart a most b most' ((pages a most).symm.trans (here.trans (pages b most')))

theorem EntriesOn.renumbered (h : EntriesOn h₀ p es c) (same : Renumbered h₀ h₁) : EntriesOn h₁ p es c := by
  obtain ⟨size, version, _⟩ := same.facts
  refine ⟨h.none, fun some => ?_, h.number, h.last, size ▸ h.spent⟩
  rw [size, version]
  exact h.stacked some

/-- A value is stored elsewhere, and page `p` is another. -/
theorem Shelf.onward {d : Datum} (shelf : Shelf h₀ s acc maps ds q es)
    (onward : Onward h₀ s acc maps h₀.currDpage h₁ s' acc' maps') (pages : ∀ q ∈ d.all, Touches maps s h₀.currDpage q)
    (ne : q ≠ p) : Shelf h₁ s' (acc'.set p c) maps' (d :: ds) q es where
  reserved := (shelf.reserved.onward onward).cons fun on => shelf.reserved.untouched (pages q on)
  told x told := (shelf.told x ((onward.same q x shelf.reserved.untouched).mp
    ((Account.set_other ne).mp told))).renumbered
    onward.renumbered
  on i e there := ⟨List.mem_cons_of_mem _ (shelf.on i e there).1, (shelf.on i e there).2⟩
  small := by
    rw [onward.renumbered.facts.1]
    exact shelf.small
  once := shelf.once

theorem Shelf.put {d : Datum} (shelf : Shelf h₀ s acc maps ds p es) (opens : Opened h₀ acc p es c)
    (onward : Onward h₀ s acc maps h₀.currDpage h₁ s' acc' maps') (pages : ∀ q ∈ d.all, Touches maps s h₀.currDpage q)
    (page : PageSize h₀.hdr.bsize) (fits : pairfits c key.size = true) (words : (d.pointer h₀.hdr.version).Words)
    (added : Added p c.numEnt val d) (short : key.size ≤ maxKeysize h₀.hdr.bsize) (small : val.size ≤ 0xffffffff)
    (new : ∀ e ∈ es, e.key ≠ key.bytes) :
    Shelf h₁ s' (acc'.set p (putDatap c.numEnt (slotOff c key) (d.pointer h₀.hdr.version) (putKey key c))) maps'
      (d :: ds) p
      (es ++ [⟨key.bytes, d⟩]) := by
  obtain ⟨size, version, _⟩ := onward.renumbered.facts
  have filling := opens.stacked.filling page (.inl fits) words
  have filled := opens.stacked.put page (.inl fits) words
  have spent := opens.stacked.spent_put page (.inl fits) words
  have before := opens.spent
  have count : c.numEnt = es.length := opens.stacked.count.trans (List.length_map _)
  generalize putDatap c.numEnt (slotOff c key) (d.pointer h₀.hdr.version) (putKey key c) = c' at *
  refine ⟨(shelf.reserved.onward onward).cons fun on => shelf.reserved.untouched (pages p on), fun x told => ?_,
    fun i e there => ?_, fun e mem => ?_, ?_⟩
  · refine EntriesOn.agree ?_ (Account.set_same.mp told)
    refine ⟨fun nil => absurd nil (by simp), fun _ => ?_, fun _ => filling.number.trans opens.number,
      fun _ => filling.link.trans opens.last, fun _ => ?_⟩
    · rw [size, version, List.map_append]
      exact filled
    · rw [size, List.map_append, List.map_singleton, pairsizes_append, key.length_bytes]
      omega
  · by_cases old : i < es.length
    · rw [List.getElem?_append_left old] at there
      exact ⟨List.mem_cons_of_mem _ (shelf.on i e there).1, (shelf.on i e there).2⟩
    · have most := (List.getElem?_eq_some_iff.mp there).1
      rw [List.length_append, List.length_singleton] at most
      obtain rfl : i = es.length := by omega
      rw [List.getElem?_concat_length] at there
      obtain rfl := Option.some.inj there
      exact ⟨List.mem_cons_self, added.keyPage, added.keyIdx.trans count⟩
  · rw [size]
    rcases List.mem_append.mp mem with old | here
    · exact shelf.small e old
    · rw [List.mem_singleton.mp here, added.bytes, val.length_bytes, key.length_bytes]
      exact ⟨short, small⟩
  · rw [List.map_append, List.map_singleton]
    refine List.Nodup.append shelf.once (List.nodup_singleton _) fun k old here => ?_
    obtain ⟨e, mem, rfl⟩ := List.mem_map.mp old
    exact new e mem (List.mem_singleton.mp here)

end Renumbering

section Puts

variable {shelf : Nat → List Entry}

theorem Arranged.wp_addPair (file : Arranged shelf h₀ s acc maps ds) (low : b ≤ h₀.hdr.maxBucket)
    (opens : Opened h₀ acc (h₀.hdr.bucketToPage b) (shelf b) c)
    (known : Knows h₀ s acc [⟨id, h₀.hdr.bucketToPage b, c⟩] hashp) (new : ∀ e ∈ shelf b, e.key ≠ key.bytes)
    (home : h₀.addressOf (Dbt.ofBytes key.bytes) = b) (fits : pairfits c key.size = true)
    (short : key.size ≤ maxKeysize h₀.hdr.bsize) (small : val.size ≤ 0xffffffff)
    (few : s + val.size / (h₀.hdr.bsize - bigPageOverhead) + 4 < maxPageNumber) :
    Wp (fun _ => True) (addPair key val ⟨id, h₀.hdr.bucketToPage b, n, .noMore,
      Checksum.crc32Checksum 0 val.bytes⟩ false)
      hashp fun r t => r = 0 ∧ ∃ h₁ s' acc' maps' d, Knows h₁ s' acc' [] t ∧ Renumbered h₀ h₁ ∧
        s' ≤ s + val.size / (h₀.hdr.bsize - bigPageOverhead) + 3 ∧ d.bytes = val.bytes ∧
        Arranged (Function.update shelf b (shelf b ++ [⟨key.bytes, d⟩])) h₁ s' acc' maps' (d :: ds) ∧
        (AtRest h₀ s acc maps ds → AtRest h₁ s' acc' maps' (d :: ds)) := by
  have mine := file.pages b low
  have begins : Begins h₀.hdr.ovflPoint h₀.hdr.spares hashp := by
    rw [Begins, known.hdr]
    exact ⟨rfl, fun _ _ => rfl⟩
  have aside : Aside h₀ maps ds [⟨id, h₀.hdr.bucketToPage b, c⟩] :=
    aside_reserved (List.forall_mem_singleton.mpr mine.reserved)
  have adds : Wp (fun _ => True)
      (addPair key val ⟨id, h₀.hdr.bucketToPage b, n, .noMore, Checksum.crc32Checksum 0 val.bytes⟩ false) hashp
      fun r t => r = 0 ∧ ∃ h₁ s' acc' maps' d, Onward h₀ s acc maps h₀.currDpage h₁ s' acc' maps' ∧
        s' ≤ s + val.size / (h₀.hdr.bsize - bigPageOverhead) + 3 ∧ DataLaid h₁ s' acc' maps' (d :: ds) ∧
          Added (h₀.hdr.bucketToPage b) c.numEnt val d ∧
        (∀ q ∈ d.all, Touches maps s h₀.currDpage q) ∧ (d.pointer h₀.hdr.version).Words ∧
        ((h₀.currDpage ≠ invalidPgno → Tip h₀ acc) → Tip h₁ acc') ∧ Knows h₁ s' (acc'.set (h₀.hdr.bucketToPage b)
          (putDatap c.numEnt (slotOff c key) (d.pointer h₀.hdr.version) (putKey key c))) [] t := by
    refine wp_bind (wp_addItemOnPage known file.laid file.format (.inl small) aside few
      fun h₁ s' acc' maps' d mid onward most laid added pages words tip known' => ?_)
    have filled := opens.stacked.put file.laid.page (.inl fits) words
    refine wp_bind (wp_putDirty known' filled.signed fun t known'' => wp_pure ⟨rfl, ?_⟩)
    exact ⟨h₁, s', acc', maps', d, onward, most, laid, added, pages, words, tip, known''⟩
  have numbers : AtRest h₀ s acc maps ds → NumbersOn h₀.hdr hashp := fun rest => rest.numbers.knows known
  have giving : Giving (fun _ => True) fun t => AtRest h₀ s acc maps ds → NumbersOn h₀.hdr t := .imp fun rest =>
    giving_numbersOn (file.laid.stock.head.trans (rest.none ▸ rfl))
  refine wp_mono (Prog.wp_triple (Prog.wp_triple adds (giving_begins.addNewPair key val _) begins)
    (giving.addNewPair key val _) numbers) ?_
  rintro _ t ⟨⟨⟨rfl, h₁, s', acc', maps', d, onward, most, laid, added, pages, words, tip, known'⟩, begins'⟩, numbers'⟩
  have same := onward.renumbered
  have level : ∀ a ≤ h₀.hdr.maxBucket, h₁.hdr.bucketToPage a = h₀.hdr.bucketToPage a := fun a most => by
    have page := begins.bucketToPage begins' (file.levels a most)
    rwa [known'.hdr, known.hdr] at page
  have most_same : h₁.hdr.maxBucket = h₀.hdr.maxBucket := by rw [same]
  have address : ∀ k, h₁.addressOf k = h₀.addressOf k := fun k => by
    rw [same]
    rfl
  have reserved := (mine.reserved.onward onward).cons (d := d) fun on => mine.reserved.untouched (pages _ on)
  refine ⟨rfl, h₁, s', _, maps', d, known', same, most, added.bytes, ?_, fun rest => ?_⟩
  rotate_left
  · exact rest.onward onward ((numbers' rest).known known') ((tip rest.tipped).set reserved.cur.symm _)
  refine { file.toOrdinary.renumbered same level with
    format := onward.format file.format
    laid := reserved.set laid _
    pages := fun a most => ?_
    home := fun a most e mem => ?_ }
  · rw [most_same] at most
    rw [level a most]
    by_cases here : a = b
    · subst here
      rw [Function.update_self]
      exact mine.put opens onward pages file.laid.page fits words added short small new
    · rw [Function.update_of_ne here]
      exact (file.pages a most).onward onward pages fun there => here (file.apart a most b low there)
  · rw [most_same] at most
    rw [address]
    by_cases here : a = b
    · subst here
      rw [Function.update_self] at mem
      rcases List.mem_append.mp mem with old | new
      · exact file.home a most e old
      · rw [List.mem_singleton.mp new]
        exact home
    · rw [Function.update_of_ne here] at mem
      exact file.home a most e mem

theorem Stacked.renew {pairs pairs' : List KeyDatap} (h : Stacked bsize pairs c) (keyed : Keyed bsize pairs' c')
    (count : pairs'.length = pairs.length) (head : ∀ i < pageOverhead + pairs.length * pairOverhead, c' i = c i) :
    Stacked bsize pairs' c' := by
  have offset : c'.offset = c.offset := Lib.Mem.read32_congr fun i _ less => head i (by
    simp only [pageOverhead]
    omega)
  refine ⟨keyed, ?_, fun n low => ?_⟩
  · rw [count, offset, h.tight, roof_congr fun i _ => head i]
  · rw [count] at low
    have word : c'.datapOff n = c.datapOff n := Lib.Mem.read32_congr fun i _ less => head i (by
      have := Nat.mul_le_mul_right pairOverhead (Nat.succ_le_of_lt low)
      simp only [pageOverhead, pairOverhead] at *
      omega)
    rw [word]
    exact h.aligned n low

theorem renewedDatap_pointer {version : Nat} {d : Datum} (old : d.bytes.length ≤ 0xffffffff)
    (new : val.size ≤ 0xffffffff) :
    renewedDatap version val (Checksum.crc32Checksum 0 val.bytes) (d.pointer version) =
      (d.renewed val).pointer version := by
  have huge : ∀ n, n ≤ 0xffffffff → isHugeData n = false := fun n low => decide_eq_false (not_lt.mpr low)
  simp only [renewedDatap, Datum.pointer, Datum.renewed, huge _ new, Bool.and_false, Bool.false_eq_true, if_false,
    val.length_bytes, insertLenToPgoffset, dlenHighBits_small (huge _ old), dlenHighBits_small (huge _ new)]

theorem Replaced.lists {d : Datum} (replaced : Replaced h₀ d val acc acc') (shelf : Shelf h₀ s acc maps ds p es)
    (on : d ∈ ds) : ∀ c, acc'.holds p c → EntriesOn h₀ p es c := fun c told =>
  shelf.told c ((replaced.same p c (shelf.reserved.data d on)).mp told)

theorem Replaced.tip {d : Datum} (replaced : Replaced h₀ d val acc acc') (place : d.Placed h₀.hdr.bsize)
    (tip : Tip h₀ acc) :
    Tip h₀ acc' := by
  refine ⟨tip.made, fun c holds => ?_⟩
  obtain ⟨c₀, holds₀, same⟩ := replaced.patched _ c holds
  obtain ⟨type, last⟩ := tip.ended c₀ holds₀
  have head : ∀ i < chksumPos, c i = c₀ i := fun i low => same i (.inl low) fun part => by
    have high := place.owns_high part.owns
    simp only [bigPageOverhead, chksumPos] at *
    omega
  exact ⟨(Lib.Mem.read16_congr fun i _ low => head i (by simp only [chksumPos]; omega)).trans type,
    (Lib.Mem.read32_congr fun i _ low => head i (by simp only [chksumPos]; omega)).trans last⟩

section Renewed

variable {left right : List Datum} {i : Nat}

theorem mem_renewed {d d' x : Datum} (mem : x ∈ left ++ d :: right) (ne : x ≠ d) : x ∈ left ++ d' :: right := by
  simp only [List.mem_append, List.mem_cons] at mem ⊢
  exact mem.imp_right fun rest => .inr (rest.resolve_left ne)

theorem Reserved.renew {d : Datum} (reserved : Reserved h₀ s maps (left ++ d :: right) q) :
    Reserved h₀ s maps (left ++ d.renewed val :: right) q :=
  { reserved with
    data := forall_mem_renewed (fun x mem => reserved.data x (mem_others mem)) (reserved.data d (by simp)) }

/-- Another slot, or another page, is that of another datum. -/
theorem Shelf.on_renewed {d : Datum} {j : Nat} {x : Entry} (shelf : Shelf h₀ s acc maps (left ++ d :: right) q es)
    (there : es[j]? = some x) (ne : q = d.keyPage → j ≠ d.keyIdx) : x.datum ∈ left ++ d.renewed val :: right := by
  obtain ⟨on, page, idx⟩ := shelf.on j x there
  refine mem_renewed on fun same => ?_
  rw [same] at page idx
  exact ne page.symm idx.symm

theorem Shelf.renew_apart {d : Datum} (shelf : Shelf h₀ s acc maps (left ++ d :: right) q es)
    (replaced : Replaced h₀ d val acc acc') (apart : q ≠ p) (page : d.keyPage = p) :
    Shelf h₀ s (acc'.set p c') maps (left ++ d.renewed val :: right) q es where
  reserved := shelf.reserved.renew
  told x told := replaced.lists shelf (by simp) x ((Account.set_other apart).mp told)
  on j x there := ⟨shelf.on_renewed there fun same => absurd (same.trans page) apart, (shelf.on j x there).2⟩
  small := shelf.small
  once := shelf.once

theorem Opened.renew (opens : Opened h₀ acc p es c) (there : es[i]? = some e) (old : e.datum.bytes.length ≤ 0xffffffff)
    (new : val.size ≤ 0xffffffff) (keyed : Keyed h₀.hdr.bsize ((es.map (Entry.pair h₀.hdr.version)).set i ⟨e.key,
      renewedDatap h₀.hdr.version val (Checksum.crc32Checksum 0 val.bytes) (e.datum.pointer h₀.hdr.version)⟩) c')
    (head : ∀ j < pageOverhead + (es.map (Entry.pair h₀.hdr.version)).length * pairOverhead, c' j = c j) :
    EntriesOn h₀ p (es.set i ⟨e.key, e.datum.renewed val⟩) c' := by
  have inside := (List.getElem?_eq_some_iff.mp there).1
  have low : ∀ j < pageOverhead, c' j = c j := fun j less => head j (less.trans_le (Nat.le_add_right ..))
  refine ⟨fun nil => ?_, fun _ => ?_, fun _ => ?_, fun _ => ?_, fun _ => ?_⟩
  · have none := congrArg List.length nil
    rw [List.length_set, List.length_nil] at none
    omega
  · rw [List.map_set, Entry.pair, ← renewedDatap_pointer old new]
    exact opens.stacked.renew keyed (List.length_set ..) head
  · exact (Lib.Mem.read32_congr fun k _ less => low k (less.trans (by decide))).trans opens.number
  · exact (Lib.Mem.read32_congr fun k _ less => low k (less.trans (by decide))).trans opens.last
  · rw [freespace_congr low, keys_set there]
    exact opens.spent

theorem Shelf.renew (shelf : Shelf h₀ s acc maps (left ++ e.datum :: right) p es) (there : es[i]? = some e)
    (new : val.size ≤ 0xffffffff) (entries : EntriesOn h₀ p (es.set i ⟨e.key, e.datum.renewed val⟩) c') :
    Shelf h₀ s (acc'.set p c') maps (left ++ e.datum.renewed val :: right) p
      (es.set i ⟨e.key, e.datum.renewed val⟩) where
  reserved := shelf.reserved.renew
  told x told := entries.agree (Account.set_same.mp told)
  on j x at_j := by
    obtain ⟨-, page, idx⟩ := shelf.on i e there
    by_cases same : j = i
    · subst same
      rw [List.getElem?_set_self (List.getElem?_eq_some_iff.mp there).1] at at_j
      obtain rfl := Option.some.inj at_j
      exact ⟨by simp, page, idx⟩
    · rw [List.getElem?_set_ne (Ne.symm same)] at at_j
      exact ⟨shelf.on_renewed at_j fun _ => idx ▸ same, (shelf.on j x at_j).2⟩
  small x mem := by
    rcases List.mem_or_eq_of_mem_set mem with old | rfl
    · exact shelf.small x old
    · exact ⟨(shelf.small e (List.mem_of_getElem? there)).1, val.length_bytes.trans_le new⟩
  once := by
    rw [keys_set there]
    exact shelf.once

end Renewed

theorem Arranged.wp_replace (file : Arranged shelf h₀ s acc maps ds) (low : b ≤ h₀.hdr.maxBucket) {i : Nat}
    (there : (shelf b)[i]? = some e) (opens : Opened h₀ acc (h₀.hdr.bucketToPage b) (shelf b) c)
    (known : Knows h₀ s acc [⟨id, h₀.hdr.bucketToPage b, c⟩] hashp) (shorter : val.size ≤ e.datum.bytes.length) :
    Wp (fun _ => True) (addPair key val ⟨id, h₀.hdr.bucketToPage b, i, .ok, Checksum.crc32Checksum 0 val.bytes⟩ true)
      hashp fun r t => r = 0 ∧ ∃ acc' ds', Knows h₀ s acc' [] t ∧
        Arranged (Function.update shelf b ((shelf b).set i ⟨e.key, e.datum.renewed val⟩)) h₀ s acc' maps ds' ∧
        (AtRest h₀ s acc maps ds → AtRest h₀ s acc' maps ds') := by
  have mine := file.pages b low
  have mem := List.mem_of_getElem? there
  obtain ⟨on, page, -⟩ := mine.on i e there
  have old := (mine.small e mem).2
  have new : val.size ≤ 0xffffffff := shorter.trans old
  have points := file.points low mem on
  have slot : ((shelf b).map (Entry.pair h₀.hdr.version))[i]? = some (e.pair h₀.hdr.version) := by
    rw [List.getElem?_map, there]
    rfl
  have aside : Aside h₀ maps ds [⟨id, h₀.hdr.bucketToPage b, c⟩] :=
    aside_reserved (List.forall_mem_singleton.mpr mine.reserved)
  have laid := file.laid
  refine wp_bind (wp_replaceItemOnPage known laid file.format (.inl new) aside opens.stacked.toKeyed slot on
    points.first points.offset shorter (points.len ▸ shorter) (Checksum.crc32Checksum_lt (by decide) _)
    fun acc' c' mid replaced keyed head known' => ?_)
  obtain ⟨left, right, rfl⟩ := List.append_of_mem on
  refine wp_bind (wp_putDirty known' keyed.signed fun t known'' =>
    wp_pure ⟨rfl, _, left ++ e.datum.renewed val :: right, known'', ?_, fun rest => rest.retip ?_⟩)
  · have laid' : DataLaid h₀ s acc' maps (left ++ e.datum.renewed val :: right) :=
      laid.renew (shorter.trans (laid.placed _ on).fits) replaced
    refine { file with laid := mine.reserved.renew.set laid' c', pages := fun a most => ?_,
                       home := fun a most x mem' => ?_ }
    · by_cases here : a = b
      · subst here
        rw [Function.update_self]
        exact mine.renew there new (opens.renew there old new keyed head)
      · rw [Function.update_of_ne here]
        exact (file.pages a most).renew_apart replaced (fun same => here (file.apart a most b low same)) page
    · by_cases here : a = b
      · subst here
        rw [Function.update_self] at mem'
        rcases List.mem_or_eq_of_mem_set mem' with old' | rfl
        · exact file.home a most x old'
        · exact file.home a most e mem
      · rw [Function.update_of_ne here] at mem'
        exact file.home a most x mem'
  · refine (replaced.tip (laid.placed _ on) (rest.tip.resolve_left fun both => ?_)).set mine.reserved.cur.symm c'
    rw [both.2] at on
    cases on

theorem Arranged.wp_tooLong (file : Arranged shelf h₀ s acc maps ds) (low : b ≤ h₀.hdr.maxBucket) {i chksum : Nat}
    (there : (shelf b)[i]? = some e) (opens : Opened h₀ acc (h₀.hdr.bucketToPage b) (shelf b) c)
    (told : acc.holds (h₀.hdr.bucketToPage b) c) (known : Knows h₀ s acc [⟨id, h₀.hdr.bucketToPage b, c⟩] hashp)
    (longer : e.datum.bytes.length < val.size) :
    Wp (fun _ => True) (addPair key val ⟨id, h₀.hdr.bucketToPage b, i, .ok, chksum⟩ true) hashp fun r t =>
      r = -1 ∧ Knows h₀ s acc [] t := by
  have datap : c.datap i = e.datum.pointer h₀.hdr.version :=
    (opens.stacked.toKeyed.on i (e.pair h₀.hdr.version) (by rw [List.getElem?_map, there]; rfl)).datap
  have points := file.points low (List.mem_of_getElem? there) ((file.pages b low).on i e there).1
  refine wp_bind (wp_bind (Prog.wp_read (wp_bind (wp_page known List.mem_cons_self ?_))))
  dsimp only
  rw [known.hdr, datap, if_pos (points.len ▸ longer)]
  exact wp_pure (wp_bind (wp_putClean known opens.stacked.signed told fun t known' => wp_pure ⟨rfl, known'⟩))

theorem Arranged.count (file : Arranged shelf h₀ s acc maps ds) :
    Arranged shelf (setHdr (fun hdr => { hdr with nkeys := u32 (hdr.nkeys + 1) }) h₀) s acc maps ds :=
  file.alike ⟨rfl, rfl, rfl, rfl, rfl, fun _ _ => rfl, rfl, fun _ => rfl⟩ rfl rfl rfl rfl

/-- The page of the key's bucket has room for a pair with it. -/
def RoomFor (hashp : Htab) (k : List UInt8) : Prop :=
  ∀ c, hashp.mp.Shows (hashp.hdr.bucketToPage (hashp.addressOf (Dbt.ofBytes k))) c →
    if c.numEnt = 0 then FitsEmpty hashp.hdr.bsize k.length else pairfits c k.length = true

/-- What stays of a table while pairs are put. -/
structure SameTable (hashp t : Htab) : Prop where
  size : t.hdr.bsize = hashp.hdr.bsize
  configs : t.hdr.numCfigs = hashp.hdr.numCfigs
  hash : t.hash = hashp.hash
  compare : t.hCompare = hashp.hCompare
  rdonly : t.rdonly = hashp.rdonly
  rearrange : t.rearrangePages = hashp.rearrangePages
  masks : t.hdr.masks = hashp.hdr.masks

theorem SameTable.refl (hashp : Htab) : SameTable hashp hashp := ⟨rfl, rfl, rfl, rfl, rfl, rfl, rfl⟩

theorem SameTable.symm {t : Htab} (h : SameTable hashp t) : SameTable t hashp :=
  ⟨h.size.symm, h.configs.symm, h.hash.symm, h.compare.symm, h.rdonly.symm, h.rearrange.symm, h.masks.symm⟩

theorem SameTable.trans {t t' : Htab} (h : SameTable hashp t) (h' : SameTable t t') : SameTable hashp t' :=
  ⟨h'.size.trans h.size, h'.configs.trans h.configs, h'.hash.trans h.hash, h'.compare.trans h.compare,
    h'.rdonly.trans h.rdonly, h'.rearrange.trans h.rearrange, h'.masks.trans h.masks⟩

theorem SameTable.addressOf {t : Htab} (h : SameTable hashp t) (key : Dbt) : t.addressOf key = hashp.addressOf key :=
  addressOf_congr h.hash h.masks key

theorem Knows.same {hand : List Taken} (known : Knows h₀ s acc hand hashp) : SameTable h₀ hashp := by
  rw [known.frame]
  exact ⟨rfl, rfl, rfl, rfl, rfl, rfl, rfl⟩

theorem sameTable_count : SameTable h₁ (setHdr (fun hdr => { hdr with nkeys := u32 (hdr.nkeys + 1) }) h₁) :=
  ⟨rfl, rfl, rfl, rfl, rfl, rfl, rfl⟩

theorem Renumbered.same (h : Renumbered h₀ h₁) : SameTable h₀ h₁ := by
  rw [h]
  exact ⟨rfl, rfl, rfl, rfl, rfl, rfl, rfl⟩

/-- What a put comes to. -/
structure Kept (rest : Prop) (shelf : Nat → List Entry) (hashp : Htab) (k v : List UInt8) (r : Int)
    (t : Htab) : Prop where
  new : (∀ w, ¬Under shelf hashp k w) → (r = 0 ↔ k.length ≤ maxKeysize hashp.hdr.bsize)
  old : ∀ w, Under shelf hashp k w → (r = 0 ↔ v.length ≤ w.length)
  stored : ∃ shelf', Shelves rest shelf' t ∧
    ∀ k' w, Under shelf' t k' w ↔ if r = 0 ∧ k' = k then w = v else Under shelf hashp k' w
  same : SameTable hashp t
  grown : nextNumber t ≤ nextNumber hashp + (v.length / (hashp.hdr.bsize - bigPageOverhead) + 3)
  again : r ≠ 0 ∨ (∃ w, Under shelf hashp k w) → nextNumber t = nextNumber hashp

theorem putRefused_eq {key val : Dbt} (writable : hashp.rdonly = false) (small : val.size ≤ 0xffffffff) :
    putRefused hashp key val 0 = decide (maxKeysize hashp.hdr.bsize < key.size) := by
  have most : val.size ≤ ffdbMaxDatasize := small.trans (by decide)
  unfold putRefused
  split_ifs <;> simp [writable, small, most]

theorem Arranged.observe (file : Arranged shelf h₀ s acc maps ds) (mp : Pagepool) :
    Arranged shelf h₀ s (acc.both (.shown mp)) maps ds :=
  { file with
    laid := file.laid.mono fun _ _ => And.left
    pages := fun b low => { file.pages b low with told := fun c told => (file.pages b low).told c told.1 } }

theorem Opened.roomy (opens : Opened h₀ (acc.both (.shown hashp.mp)) p es c) (shelf : Shelf h₀ s acc maps ds p es)
    (page : PageSize h₀.hdr.bsize) (known : Knows h₀ s acc [] hashp) {ksize : Nat}
    (room : ∀ d, hashp.mp.Shows p d →
      if d.numEnt = 0 then FitsEmpty h₀.hdr.bsize ksize else pairfits d ksize = true) : pairfits c ksize = true := by
  by_cases nil : es = []
  · obtain ⟨d, shows⟩ := shows_some known.sound p
    have fits := room d shows
    rw [if_pos ((shelf.told d (known.holds p d List.not_mem_nil shows)).none nil)] at fits
    exact (opens.stacked.fits_empty page (opens.lists.none nil) ksize).mpr fits
  · obtain ⟨_, d, shows, same⟩ := opens.told nil
    have fits := room d shows
    rw [if_neg, ← pairfits_agree same] at fits
    · exact fits
    · rw [← same.numEnt, opens.stacked.count, List.length_map]
      exact fun zero => nil (List.length_eq_zero_iff.mp zero)

theorem under_self {w : List UInt8} {b : Nat} (mine : Shelf h₀ s acc maps ds p (shelf b))
    (home : hashp.addressOf (Dbt.ofBytes k) = b) (mem : e ∈ shelf b) (key : e.key = k) :
    Under shelf hashp k w ↔ w = e.datum.bytes := by
  constructor
  · rintro ⟨x, mem', key', rfl⟩
    rw [mine.unique mem (home ▸ mem') (key'.trans key.symm)]
  · rintro rfl
    exact ⟨e, home.symm ▸ mem, key, rfl⟩

theorem under_put {t : Htab} {d : Datum} {b : Nat} (home : hashp.addressOf (Dbt.ofBytes k) = b)
    (same : ∀ key, t.addressOf key = hashp.addressOf key) (new : ∀ e ∈ shelf b, e.key ≠ k) (k' w : List UInt8) :
    Under (Function.update shelf b (shelf b ++ [⟨k, d⟩])) t k' w ↔
      if k' = k then w = d.bytes else Under shelf hashp k' w := by
  unfold Under
  rw [same]
  split
  · rename_i here
    subst here
    rw [home, Function.update_self]
    constructor
    · rintro ⟨e, mem, key, rfl⟩
      rcases List.mem_append.mp mem with old | last
      · exact absurd key (new e old)
      · rw [List.mem_singleton.mp last]
    · rintro rfl
      exact ⟨_, List.mem_append_right _ List.mem_cons_self, rfl, rfl⟩
  · rename_i other
    by_cases bucket : hashp.addressOf (Dbt.ofBytes k') = b
    · rw [bucket, Function.update_self]
      constructor
      · rintro ⟨e, mem, key, rfl⟩
        rcases List.mem_append.mp mem with old | last
        · exact ⟨e, old, key, rfl⟩
        · rw [List.mem_singleton.mp last] at key
          exact absurd key.symm other
      · rintro ⟨e, mem, found⟩
        exact ⟨e, List.mem_append_left _ mem, found⟩
    · rw [Function.update_of_ne bucket]

theorem under_replace {t : Htab} {d : Datum} {b i : Nat} (home : hashp.addressOf (Dbt.ofBytes k) = b)
    (same : ∀ key, t.addressOf key = hashp.addressOf key) (there : (shelf b)[i]? = some e) (key : e.key = k)
    (once : (((shelf b).set i ⟨k, d⟩).map Entry.key).Nodup) (k' w : List UInt8) :
    Under (Function.update shelf b ((shelf b).set i ⟨k, d⟩)) t k' w ↔
      if k' = k then w = d.bytes else Under shelf hashp k' w := by
  have inside := (List.getElem?_eq_some_iff.mp there).1
  have mine : (⟨k, d⟩ : Entry) ∈ (shelf b).set i ⟨k, d⟩ := List.mem_set inside _
  unfold Under
  rw [same]
  split
  · rename_i here
    subst here
    rw [home, Function.update_self]
    constructor
    · rintro ⟨x, mem, found, rfl⟩
      rw [List.inj_on_of_nodup_map once mem mine found]
    · rintro rfl
      exact ⟨_, mine, rfl, rfl⟩
  · rename_i other
    by_cases bucket : hashp.addressOf (Dbt.ofBytes k') = b
    · rw [bucket, Function.update_self]
      constructor
      · rintro ⟨x, mem, found, rfl⟩
        rcases List.mem_or_eq_of_mem_set mem with old | rfl
        · exact ⟨x, old, found, rfl⟩
        · exact absurd found.symm other
      · rintro ⟨x, mem, found, rfl⟩
        obtain ⟨j, at_j⟩ := List.mem_iff_getElem?.mp mem
        refine ⟨x, List.mem_iff_getElem?.mpr ⟨j, ?_⟩, found, rfl⟩
        rwa [List.getElem?_set_ne]
        rintro rfl
        rw [there] at at_j
        obtain rfl := Option.some.inj at_j
        exact other (found.symm.trans key)
    · rw [Function.update_of_ne bucket]

/-- What `_ffdb_hash_put` does when the key is there. -/
theorem Arranged.wp_putOld (file : Arranged shelf h₀ s acc maps ds) (low : b ≤ h₀.hdr.maxBucket) {i : Nat}
    (there : (shelf b)[i]? = some e) (opens : Opened h₀ acc (h₀.hdr.bucketToPage b) (shelf b) c)
    (told : acc.holds (h₀.hdr.bucketToPage b) c) (known : Knows h₀ s acc [⟨id, h₀.hdr.bucketToPage b, c⟩] hashp) :
    Wp (fun _ => True) (putOld key val ⟨id, h₀.hdr.bucketToPage b, i, .ok, Checksum.crc32Checksum 0 val.bytes⟩ 0) hashp
      fun r t => (r = 0 ↔ val.size ≤ e.datum.bytes.length) ∧ ∃ acc' ds', Knows h₀ s acc' [] t ∧
        Arranged (if r = 0 then Function.update shelf b ((shelf b).set i ⟨e.key, e.datum.renewed val⟩) else shelf)
          h₀ s acc' maps ds' ∧ (AtRest h₀ s acc maps ds → AtRest h₀ s acc' maps ds') := by
  unfold putOld
  rw [if_neg (by decide)]
  by_cases shorter : val.size ≤ e.datum.bytes.length
  · refine wp_bind (wp_mono (file.wp_replace low there opens known shorter) ?_)
    rintro _ t ⟨rfl, acc', ds', known', file', rests⟩
    rw [if_neg (by decide)]
    refine wp_pure ⟨⟨fun _ => shorter, fun _ => rfl⟩, acc', ds', known', ?_, rests⟩
    rw [if_pos rfl]
    exact file'
  · refine wp_bind (wp_mono (file.wp_tooLong low there opens told known (not_le.mp shorter)) ?_)
    rintro _ t ⟨rfl, known'⟩
    rw [if_pos (by decide)]
    refine wp_pure ⟨⟨fun zero => absurd zero (by decide), fun le => absurd le shorter⟩, acc, ds, known', ?_,
      fun rest => rest⟩
    rw [if_neg (by decide)]
    exact file

theorem Arranged.wp_putNew (file : Arranged shelf h₀ s acc maps ds) (low : b ≤ h₀.hdr.maxBucket)
    (opens : Opened h₀ acc (h₀.hdr.bucketToPage b) (shelf b) c)
    (known : Knows h₀ s acc [⟨id, h₀.hdr.bucketToPage b, c⟩] hashp) (new : ∀ e ∈ shelf b, e.key ≠ key.bytes)
    (home : h₀.addressOf (Dbt.ofBytes key.bytes) = b) (fits : pairfits c key.size = true)
    (short : key.size ≤ maxKeysize h₀.hdr.bsize) (small : val.size ≤ 0xffffffff)
    (few : s + val.size / (h₀.hdr.bsize - bigPageOverhead) + 4 < maxPageNumber) :
    Wp (fun _ => True) (putNew key val ⟨id, h₀.hdr.bucketToPage b, n, .noMore, Checksum.crc32Checksum 0 val.bytes⟩)
      hashp fun r t => r = 0 ∧ ∃ h₁ h₂ s' acc' maps' d, Renumbered h₀ h₁ ∧
        s' ≤ s + val.size / (h₀.hdr.bsize - bigPageOverhead) + 3 ∧ h₂ = setHdr
          (fun hdr => { hdr with nkeys := u32 (hdr.nkeys + 1) }) h₁ ∧ Knows h₂ s' acc' [] t ∧ d.bytes = val.bytes ∧
        Arranged (Function.update shelf b (shelf b ++ [⟨key.bytes, d⟩])) h₂ s' acc' maps' (d :: ds) ∧
        (AtRest h₀ s acc maps ds → AtRest h₂ s' acc' maps' (d :: ds)) := by
  refine wp_bind (wp_page known List.mem_cons_self ?_)
  dsimp only
  rw [if_pos fits]
  refine wp_bind (wp_mono (file.wp_addPair low opens known new home fits short small few) ?_)
  rintro _ t ⟨rfl, h₁, s', acc', maps', d, known', same, most, bytes, file', rests⟩
  rw [if_pos rfl]
  exact wp_bind (Prog.wp_modify (wp_pure ⟨rfl, h₁, _, s', acc', maps', d, same, most, rfl, known'.setHdr _, bytes,
    file'.count, fun rest => (rests rest).count⟩))

section Outcomes

variable {rest : Prop} {t : Htab} {r : Int} {ds' : List Datum} {b : Nat}

theorem nextNumber_still (known : Knows h₀ s acc [] hashp) (laid : DataLaid h₀ s acc maps ds)
    (known' : Knows h₀ s acc' [] t) (laid' : DataLaid h₀ s acc' maps' ds') : nextNumber t = nextNumber hashp :=
  (nextNumber_eq known' laid').trans (nextNumber_eq known laid).symm

/-- A key that is too long leaves all as it was. -/
theorem Arranged.kept_refused (file : Arranged shelf h₀ s acc maps ds) (known : Knows h₀ s acc [] hashp)
    (rests : rest → AtRest h₀ s acc maps ds) (long : maxKeysize hashp.hdr.bsize < k.length) :
    Kept rest shelf hashp k v (-1) { hashp with held := [] } := by
  have size : hashp.hdr.bsize = h₀.hdr.bsize := congrArg Hashhdr.bsize known.hdr
  have nowhere : ∀ w, ¬Under shelf hashp k w := by
    rintro w ⟨e, mem, key, -⟩
    rw [known.addressOf] at mem
    have most := ((file.pages _ (file.address_le _)).small e mem).1
    rw [key, ← size] at most
    omega
  refine ⟨fun _ => ⟨fun zero => absurd zero (by decide), fun short => absurd long (not_lt.mpr short)⟩,
    fun w there => absurd there (nowhere w), ⟨shelf, ⟨h₀, s, acc, maps, ds, known.note hashp.fetches [], file, rests⟩,
      fun k' w => ?_⟩, ⟨rfl, rfl, rfl, rfl, rfl, rfl, rfl⟩, Nat.le_add_right .., fun _ => rfl⟩
  rw [if_neg fun both => absurd both.1 (by decide)]
  rfl

/-- A value is replaced by one that is no longer. -/
theorem Arranged.kept_old {i : Nat} (file : Arranged shelf h₀ s acc maps ds) (known : Knows h₀ s acc [] hashp)
    (home : h₀.addressOf (Dbt.ofBytes k) = b) (there : (shelf b)[i]? = some e) (key : e.key = k)
    (done : r = 0 ↔ v.length ≤ e.datum.bytes.length) (known' : Knows h₀ s acc' [] t)
    (file' : Arranged (if r = 0 then Function.update shelf b ((shelf b).set i ⟨e.key, e.datum.renewed (Dbt.ofBytes v)⟩)
      else shelf) h₀ s acc' maps ds') (rests : rest → AtRest h₀ s acc' maps ds') : Kept rest shelf hashp k v r t := by
  have low : b ≤ h₀.hdr.maxBucket := home ▸ file.address_le (Dbt.ofBytes k)
  have home' : hashp.addressOf (Dbt.ofBytes k) = b := (known.addressOf _).trans home
  have under : ∀ w, Under shelf hashp k w ↔ w = e.datum.bytes := fun w =>
    under_self (file.pages b low) home' (List.mem_of_getElem? there) key
  have same : SameTable hashp t := known.same.symm.trans known'.same
  have number := nextNumber_still known file.laid known' file'.laid
  refine ⟨fun none => absurd ((under _).mpr rfl) (none _), fun w there => (under w).mp there ▸ done,
    ⟨_, ⟨h₀, s, acc', maps, ds', known', file', rests⟩, fun k' w => ?_⟩, same,
    number.trans_le (Nat.le_add_right ..), fun _ => number⟩
  by_cases zero : r = 0
  · subst zero
    rw [if_pos rfl] at file' ⊢
    have once := (file'.pages b low).once
    rw [Function.update_self, key] at once
    rw [key, under_replace home' same.addressOf there key once]
    simp only [true_and, Datum.renewed, Dbt.bytes_ofBytes]
  · rw [if_neg zero, if_neg fun both => zero both.1, Under, same.addressOf]
    rfl

/-- A new key gets its pair. -/
theorem Arranged.kept_new {d : Datum} (file : Arranged shelf h₀ s acc maps ds) (known : Knows h₀ s acc [] hashp)
    (home : h₀.addressOf (Dbt.ofBytes k) = b) (none : ∀ e ∈ shelf b, e.key ≠ k) (short : k.length ≤ maxKeysize h₀.hdr.bsize)
    (bytes : d.bytes = v) (same : SameTable h₀ h₁) (known' : Knows h₁ s' acc' [] t)
    (file' : Arranged (Function.update shelf b (shelf b ++ [⟨k, d⟩])) h₁ s' acc' maps' ds')
    (most : s' ≤ s + v.length / (h₀.hdr.bsize - bigPageOverhead) + 3) (rests : rest → AtRest h₁ s' acc' maps' ds') :
    Kept rest shelf hashp k v 0 t := by
  have size : hashp.hdr.bsize = h₀.hdr.bsize := congrArg Hashhdr.bsize known.hdr
  have home' : hashp.addressOf (Dbt.ofBytes k) = b := (known.addressOf _).trans home
  have absent : ∀ w, ¬Under shelf hashp k w := by
    rintro w ⟨e, mem, key, -⟩
    exact none e (home' ▸ mem) key
  have same : SameTable hashp t := known.same.symm.trans (same.trans known'.same)
  refine ⟨fun _ => ⟨fun _ => size ▸ short, fun _ => rfl⟩, fun w there => absurd there (absent w),
    ⟨_, ⟨h₁, s', acc', maps', ds', known', file', rests⟩, fun k' w => ?_⟩, same, ?_,
    fun old => (old.resolve_left fun no => no rfl).elim fun w there => absurd there (absent w)⟩
  · rw [under_put home' same.addressOf none, bytes]
    simp only [true_and]
  · rw [nextNumber_eq known' file'.laid, nextNumber_eq known file.laid, size]
    exact most

end Outcomes

theorem Arranged.wp_put {rest : Prop} (file : Arranged shelf h₀ s acc maps ds) (known : Knows h₀ s acc [] hashp)
    (rests : rest → AtRest h₀ s acc maps ds) (small : v.length ≤ 0xffffffff)
    (room : (∀ w, ¬Under shelf hashp k w) → k.length ≤ maxKeysize hashp.hdr.bsize →
      RoomFor hashp k ∧ Numbered hashp v.length) :
    Wp (fun _ => True) (DBFunc.insertBinaryData k v) hashp (Kept rest shelf hashp k v) := by
  have low := file.address_le (Dbt.ofBytes k)
  have address := known.addressOf (Dbt.ofBytes k)
  have fixed : hashp.hdr = h₀.hdr := known.hdr
  -- the page that is found is one that the pool showed
  have file' := file.observe hashp.mp
  have rests' : rest → AtRest h₀ s (acc.both (.shown hashp.mp)) maps ds := fun yes =>
    (rests yes).mono fun _ _ => And.left
  have writable : hashp.rdonly = false := by
    rw [known.frame]
    exact file.writable
  refine wp_bind (Prog.wp_modify (wp_bind (Prog.wp_read ?_)))
  have known₁ : Knows h₀ s acc [] { hashp with held := [] } := known.note hashp.fetches []
  have refused : putRefused { hashp with held := [] } (Dbt.ofBytes k) (Dbt.ofBytes v) 0 =
      decide (maxKeysize hashp.hdr.bsize < k.length) := putRefused_eq writable small
  rw [refused]
  by_cases long : maxKeysize hashp.hdr.bsize < k.length
  · rw [if_pos (decide_eq_true long)]
    exact wp_pure (file.kept_refused known rests long)
  have short : k.length ≤ maxKeysize hashp.hdr.bsize := not_lt.mp long
  rw [if_neg (by simpa using short)]
  refine wp_bind (Prog.wp_reads (wp_bind ?_))
  rw [show Hashhdr.bucketOf _ _ = h₀.addressOf (Dbt.ofBytes k) from known₁.addressOf _]
  refine (file'.pages _ low).wp_findItem (known.observe.note hashp.fetches []) file.laid.page file.compare
    (fixed ▸ rfl) (low.trans_lt file.buckets) (some (Dbt.ofBytes v))
    (fun id i e c mid there key opens told known₂ => ?_) (fun id n c mid none opens known₂ => ?_)
  · rw [Dbt.bytes_ofBytes] at key
    dsimp only
    rw [if_neg (by decide)]
    refine wp_mono (file'.wp_putOld low there opens told known₂) ?_
    rintro r t ⟨done, acc', ds', known₃, file₃, rests₃⟩
    exact file.kept_old known rfl there key done known₃ file₃ fun yes => rests₃ (rests' yes)
  · rw [Dbt.bytes_ofBytes] at none
    have absent : ∀ w, ¬Under shelf hashp k w := by
      rintro w ⟨e, mem, key, -⟩
      exact none e (address ▸ mem) key
    obtain ⟨roomy, few⟩ := room absent short
    rw [RoomFor, address, fixed] at roomy
    rw [Numbered, nextNumber_eq known file.laid, fixed] at few
    have fits := opens.roomy (file.pages _ low) file.laid.page known roomy
    dsimp only
    rw [if_pos rfl]
    refine wp_mono (file'.wp_putNew low opens known₂ (by simpa using none) (by simp) fits (fixed ▸ short) small few) ?_
    rintro _ t ⟨rfl, h₁, _, s', acc', maps', d, same, most, rfl, known₃, bytes, file₃, rests₃⟩
    rw [Dbt.bytes_ofBytes] at file₃ bytes
    exact file.kept_new known rfl none (fixed ▸ short) bytes (same.same.trans sameTable_count) known₃ file₃ most
      fun yes => rests₃ (rests' yes)

end Puts
end FileHash.Htab
