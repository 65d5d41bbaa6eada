import FileHash.PageChain

/-! Values come back as they were stored. The account of a run keeps where each datum lies;
reading follows its parts, and adding one more leaves those of the others alone. -/
namespace FileHash.Htab

open Lib (Prog)
open Lib.Prog (Wp wp_bind wp_pure wp_mono)
open Page

variable {h₀ h₁ hashp : Htab} {top s p id bsize : Nat} {acc acc' : Account} {hand : List Taken}
  {maps maps' : FreeMap} {mem : Page} {adm : Event → Prop} {α : Type}

theorem wp_copyData {part : Part} {parts : List Part} {bytes : List UInt8}
    (cut : Part.Cut bsize (part :: parts)) (page : bigPageOverhead < bsize)
    (fits : bytes.length ≤ Part.roomOf (part :: parts))
    (h : Knows h₀ top acc (⟨id, part.page, mem⟩ :: hand) hashp)
    (spelled : Part.Spelled (part :: parts) bytes part.page mem) (signed : Pagepool.Signed mem)
    (same : acc.holds part.page mem)
    (others : ∀ p ∈ parts.map Part.page, (0 < p ∧ p < top) ∧ p ∉ numbers hand ∧
      ∀ c, acc.holds p c → Pagepool.Signed c ∧ Part.Spelled parts (bytes.drop part.room) p c)
    (fuel : Nat) (sofar : List UInt8) (pos : 0 < fuel)
    (enough : bytes.length + (if part.start < bsize then 0 else 1) ≤ fuel)
    {Q : Option (List UInt8) → Htab → Prop}
    (next : ∀ hashp', Knows h₀ top acc hand hashp' → Q (some (sofar ++ bytes)) hashp') :
    Wp adm (copyData bsize fuel id part.start bytes.length sofar) hashp Q := by
  induction parts generalizing part bytes hashp id mem fuel sofar with
  | nil =>
    obtain ⟨fuel, rfl⟩ := Nat.exists_eq_succ_of_ne_zero pos.ne'
    have ends : part.start + part.room ≤ bsize := cut
    have whole : bytes.length ≤ part.room := by simpa [Part.roomOf] using fits
    obtain ⟨read, _⟩ := spelled.1 rfl
    rw [min_eq_right whole, List.take_of_length_le whole] at read
    refine wp_bind (wp_page h List.mem_cons_self ?_)
    dsimp only
    rw [if_neg (by omega), if_pos (show part.start + bytes.length ≤ bsize by omega), read]
    refine wp_bind (wp_putClean h signed same fun hashp' h' => ?_)
    rw [if_pos (Nat.sub_self _)]
    exact wp_pure (next hashp' h')
  | cons after parts ih =>
    obtain ⟨fuel, rfl⟩ := Nat.exists_eq_succ_of_ne_zero pos.ne'
    obtain ⟨ends, top, cut⟩ := cut
    obtain ⟨read, link⟩ := spelled.1 rfl
    refine wp_bind (wp_page h List.mem_cons_self ?_)
    dsimp only
    rw [if_neg (by omega)]
    by_cases last : bytes.length ≤ part.room
    · rw [min_eq_right last, List.take_of_length_le last] at read
      rw [if_pos (show part.start + bytes.length ≤ bsize by omega), read]
      refine wp_bind (wp_putClean h signed same fun hashp' h' => ?_)
      rw [if_pos (Nat.sub_self _)]
      exact wp_pure (next hashp' h')
    · have full : bsize - part.start = part.room := by omega
      rw [min_eq_left (by omega)] at read
      rw [if_neg (show ¬part.start + bytes.length ≤ bsize by omega), full, read]
      refine wp_bind (wp_putClean h signed same fun mid h' => ?_)
      rw [if_neg (by omega), link after rfl]
      obtain ⟨low, out, lies⟩ := others after.page List.mem_cons_self
      refine wp_bind (wp_get h' out (fun _ => low.1) low.2 (by decide) fun id' mem' mid' h'' holds => ?_)
      have length : (bytes.drop part.room).length = bytes.length - part.room := List.length_drop
      dsimp only
      rw [← length, ← top]
      refine ih cut ?_ h'' (lies mem' holds).2 (lies mem' holds).1 holds (fun p memp => ?_) fuel _ ?_ ?_ ?_
      · rw [length]
        simp only [Part.roomOf, List.map_cons, List.sum_cons] at fits ⊢
        omega
      · obtain ⟨low', out', lies'⟩ := others p (List.mem_cons_of_mem _ memp)
        exact ⟨low', out', fun c holds => ⟨(lies' c holds).1, (lies' c holds).2.2⟩⟩
      · split at enough <;> omega
      · rw [length, top, if_pos page]
        split at enough <;> omega
      · intro hashp' h'
        rw [List.append_assoc, List.take_append_drop]
        exact next hashp' h'

def Datum.OnPages (h₀ : Htab) (acc : Account) (d : Datum) : Prop :=
  ∀ p ∈ d.all, ∀ c, acc.holds p c → d.On h₀.hdr.version h₀.dataValidFlag h₀.hdr.bsize p c

theorem Datum.headerMatches {d : Datum} {version flag : Nat} {datap : Datap} {c : Page}
    (heads : d.Heads version flag (c.readHeader d.roff)) (points : d.Points version datap) :
    headerMatches version flag c datap d.keyPage d.keyIdx = true := by
  obtain ⟨len, status, keyPage, keyIdx⟩ := heads
  have length := points.len
  unfold Htab.headerMatches
  simp only [headerLen, headerStatus, dataLen] at len status length
  rw [points.offset]
  dsimp only
  rw [keyPage, keyIdx]
  by_cases new : ffdbVersion5 < version
  · simp only [if_pos new, dataLen] at len status length ⊢
    simp [len, status, length]
  · simp only [if_neg new] at len status length ⊢
    simp [len, status, length]

theorem wp_getData {d : Datum} {datap : Datap} {room : Nat} (h : Knows h₀ top acc hand hashp)
    (page : bigPageOverhead + bigDataOverhead < h₀.hdr.bsize) (place : d.Placed h₀.hdr.bsize)
    (on : d.OnPages h₀ acc) (points : d.Points h₀.hdr.version datap)
    (used : ∀ p ∈ d.all, (0 < p ∧ p < top) ∧ p ∉ numbers hand) (roomy : room = 0 ∨ d.bytes.length ≤ room)
    (loose : d.bytes = [] → ¬h₀.Idle) {Q : Int × List UInt8 → Htab → Prop}
    (next : ∀ hashp', Knows h₀ top acc hand hashp' → Q (0, d.bytes) hashp') :
    Wp adm (getData d.keyPage d.keyIdx room datap) hashp Q := by
  have first := used d.first List.mem_cons_self
  have flag : hashp.dataValidFlag = h₀.dataValidFlag := by rw [h.frame]
  refine wp_bind (Prog.wp_read ?_)
  dsimp only
  rw [h.hdr, flag, points.first]
  refine wp_bind (wp_get h first.2 (fun _ => first.1.1) first.1.2 (by decide) fun id mem mid h' holds => ?_)
  have here := on d.first List.mem_cons_self mem holds
  obtain ⟨number, some, heads⟩ := here.head rfl
  refine wp_bind (wp_page h' List.mem_cons_self ?_)
  dsimp only
  rw [if_neg ?_, points.len, points.offset, if_neg (by omega)]
  · by_cases empty : d.bytes.length = 0
    · have none : d.bytes = [] := List.length_eq_zero_iff.mp empty
      rw [if_pos empty]
      refine wp_bind (wp_leak h' holds (loose none) _ fun _ hashp' known => wp_pure ?_)
      rw [← points.chksum, none, if_pos rfl]
      exact none ▸ next hashp' known
    · rw [if_neg empty]
      refine wp_bind (wp_copyData (place.cut page.le) (by omega) place.room h' here.spelled here.signed holds
        (fun p memp => ?_) _ [] (Nat.succ_pos _) (by dsimp only; split <;> omega) fun hashp' known => ?_)
      · rw [tailParts_pages] at memp
        have inside : p ∈ d.all := List.mem_cons_of_mem _ memp
        refine ⟨(used p inside).1, (used p inside).2, fun c holds => ?_⟩
        have there := on p inside c holds
        exact ⟨there.signed, there.spelled.2⟩
      · dsimp only
        rw [List.nil_append, if_pos points.chksum]
        exact wp_pure (next hashp' known)
  · rw [number, Datum.headerMatches heads points]
    simp only [ne_eq, not_true, false_or, Bool.true_eq_false, or_false]
    omega

theorem turns_tail {rlen : Nat} (page : PageSize bsize) (more : rlen - tailLen bsize rlen ≠ 0) :
    rlen / (bsize - bigPageOverhead) = (rlen - tailLen bsize rlen) / (bsize - bigPageOverhead) + 1 := by
  obtain ⟨full, long⟩ := tailLen_full page.room.le more
  have room := page.room
  rw [show tailLen bsize rlen = bsize - bigPageOverhead by omega]
  exact Nat.div_eq_sub_div (by omega) long.le

/-- What the pages `ps`, of which the first was given out before, have of the last bytes of a value. -/
structure Tail (h₀ h₁ : Htab) (s s' : Nat) (acc acc' : Account) (maps maps' : FreeMap) (bytes : List UInt8)
    (first : Nat) (ps : List Nat) : Prop where
  renumbered : Renumbered h₀ h₁
  stock : Stock h₁ s' acc' maps'
  started : Started h₁ s' s'
  grows : s ≤ s'
  most : s' ≤ s + bytes.length / (h₀.hdr.bsize - bigPageOverhead)
  sub : ∀ p ∈ maps'.pages, p ∈ maps.pages
  head : ps.head? = some first
  nodup : ps.Nodup
  place : ∀ p ∈ ps, p < s' ∧ p ∉ maps'.pages ∧ (p = first ∨ p ∈ maps.pages ∨ s ≤ p)
  reaches : Reaches h₀.hdr.bsize ps bytes.length
  lies : ∀ p ∈ ps, ∀ c, acc'.holds p c →
    Pagepool.Signed c ∧ Part.Spelled (tailParts h₀.hdr.bsize ps bytes.length) bytes p c
  chained : ∀ p ∈ ps, ∀ c, acc'.holds p c → Chained h₀.hdr.bsize [] c
  same : ∀ p c, p ∉ ps → p ∉ maps.pages → (acc'.holds p c ↔ acc.holds p c)
  cur : ps.getLast? = some h₁.currDpage
  opens : ∀ c, acc'.holds h₁.currDpage c → Pagepool.Signed c ∧ c.currPgno = h₁.currDpage ∧ c.numEnt = 0 ∧
    (c.offset = 0 ∨ (bigPageOverhead ≤ c.offset ∧ c.offset + bigDataOverhead ≤ h₀.hdr.bsize ∧
      c.offset % 4 = 0 ∧ ∀ part ∈ tailParts h₀.hdr.bsize ps bytes.length,
        part.page = h₁.currDpage → part.start + part.room ≤ c.offset))
  ended : ∀ c, acc'.holds h₁.currDpage c → Ended c

theorem tail_last {rlen currp : Nat} {val : Dbt} {d : Page} (page : PageSize h₀.hdr.bsize)
    (pos : rlen ≠ 0) (within : rlen ≤ val.size) (last : rlen - tailLen h₀.hdr.bsize rlen = 0)
    (stock : Stock h₀ s acc maps) (started : Started h₀ s s) (cur : h₀.currDpage = currp)
    (out : currp ∉ maps.pages) (continues : Continues h₀.hdr.bsize currp rlen val d) (ended : Ended d) :
    Tail h₀ h₀ s s acc (acc.set currp d) maps maps (val.bytes.drop (val.size - rlen)) currp [currp] := by
  have length : (val.bytes.drop (val.size - rlen)).length = rlen := by
    simp only [Dbt.bytes, List.length_drop, Lib.Mem.length_bytes]
    omega
  have most : rlen ≤ tailLen h₀.hdr.bsize rlen := by omega
  exact {
    renumbered := .refl h₀
    stock := stock.set out
    started := started
    grows := le_rfl
    most := Nat.le_add_right ..
    sub := fun _ mem => mem
    head := rfl
    nodup := List.nodup_singleton _
    place := by
      intro p mem
      rw [List.mem_singleton.mp mem]
      exact ⟨cur ▸ started.cur, out, .inl rfl⟩
    reaches := by
      rw [length]
      exact ⟨pos, last⟩
    lies := by
      intro p mem c holds
      rw [List.mem_singleton.mp mem] at holds
      have now := continues.agree (Account.set_same.mp holds)
      refine ⟨now.signed, fun _ => ⟨?_, fun next head => by cases head⟩, trivial⟩
      dsimp only
      have all := List.take_of_length_le (l := val.bytes.drop (val.size - rlen)) length.le
      rw [length, min_eq_right most, List.take_of_length_le (length.le.trans most), ← all]
      exact now.read rlen most le_rfl
    chained := by
      intro p mem c holds
      rw [List.mem_singleton.mp mem] at holds
      exact (continues.agree (Account.set_same.mp holds)).chained page
    same := fun p c other _ => Account.set_other fun same => other (List.mem_singleton.mpr same)
    cur := by rw [cur]; rfl
    opens := by
      intro c holds
      rw [cur] at holds ⊢
      have now := continues.agree (Account.set_same.mp holds)
      refine ⟨now.signed, now.number, now.count, ?_⟩
      rw [now.offset]
      split
      · rename_i fits
        obtain ⟨behind, room, words⟩ := alignAddr_tail page fits
        refine .inr ⟨by omega, room, words, fun part mem _ => ?_⟩
        rw [length, tailParts, List.mem_cons] at mem
        rcases mem with rfl | mem
        · rw [tailLen, if_pos fits]
          exact behind
        · cases mem
      · exact .inl rfl
    ended := by
      intro c holds
      rw [cur] at holds
      exact ended.agree (Account.set_same.mp holds) }

theorem tail_more {h₂ : Htab} {s₁ s₂ rlen currp n : Nat} {reuse : Bool} {acc₁ acc₂ : Account}
    {maps₁ maps₂ : FreeMap} {val : Dbt} {d : Page} {ps : List Nat} (page : PageSize h₀.hdr.bsize)
    (pos : rlen ≠ 0) (within : rlen ≤ val.size) (more : rlen - tailLen h₀.hdr.bsize rlen ≠ 0)
    (started : Started h₀ s s) (cur : h₀.currDpage = currp) (out : currp ∉ maps.pages)
    (given : Given h₀ s s acc maps n reuse h₁ acc₁ maps₁ s₁)
    (continues : Continues h₀.hdr.bsize currp rlen val d) (link : d.nextPgno = n)
    (tail : Tail h₁ h₂ s₁ s₂ (acc₁.set currp d) acc₂ maps₁ maps₂
      (val.bytes.drop (val.size - (rlen - tailLen h₀.hdr.bsize rlen))) n ps) :
    Tail h₀ h₂ s s₂ acc acc₂ maps maps₂ (val.bytes.drop (val.size - rlen)) currp (currp :: ps) := by
  obtain ⟨full, long⟩ := tailLen_full page.room.le more
  have size : h₁.hdr.bsize = h₀.hdr.bsize := by rw [given.renumbered]
  have length : (val.bytes.drop (val.size - rlen)).length = rlen := by
    simp only [Dbt.bytes, List.length_drop, Lib.Mem.length_bytes]
    omega
  have less : val.size - (rlen - tailLen h₀.hdr.bsize rlen) = val.size - rlen + tailLen h₀.hdr.bsize rlen := by
    omega
  have rest : val.bytes.drop (val.size - (rlen - tailLen h₀.hdr.bsize rlen)) =
      (val.bytes.drop (val.size - rlen)).drop (tailLen h₀.hdr.bsize rlen) := by
    rw [List.drop_drop, less]
  have restLength : (val.bytes.drop (val.size - (rlen - tailLen h₀.hdr.bsize rlen))).length =
      rlen - tailLen h₀.hdr.bsize rlen := by
    simp only [Dbt.bytes, List.length_drop, Lib.Mem.length_bytes]
    omega
  have low := started.cur
  have later : s ≤ s₁ ∧ s₁ ≤ s + 1 ∧ n ≠ currp := by
    cases reuse with
    | true =>
      obtain ⟨mem, rfl⟩ := given.reused rfl
      exact ⟨le_rfl, Nat.le_succ _, fun same => out (same ▸ mem)⟩
    | false =>
      obtain ⟨rfl, rfl⟩ := given.fresh rfl
      omega
  have mine : currp ∉ ps := by
    intro mem
    rcases (tail.place currp mem).2.2 with same | free | high
    · exact later.2.2 same.symm
    · exact out (given.sub _ free)
    · omega
  have kept : ∀ c, acc₂.holds currp c → Agree c d := fun c holds =>
    Account.set_same.mp ((tail.same currp c mine fun free => out (given.sub _ free)).mp holds)
  have different : h₂.currDpage ≠ currp := by
    rintro same
    exact mine (same ▸ List.mem_of_getLast? tail.cur)
  exact {
    renumbered := given.renumbered.trans tail.renumbered
    stock := tail.stock
    started := tail.started
    grows := later.1.trans tail.grows
    most := by
      have after := tail.most
      rw [restLength, size] at after
      rw [length, turns_tail page more]
      omega
    sub := fun p mem => given.sub p (tail.sub p mem)
    head := rfl
    nodup := List.nodup_cons.mpr ⟨mine, tail.nodup⟩
    place := by
      refine List.forall_mem_cons.mpr ⟨⟨?_, fun free => out (given.sub _ (tail.sub _ free)), .inl rfl⟩, fun p mem => ?_⟩
      · have := tail.grows
        omega
      · obtain ⟨below, free, from'⟩ := tail.place p mem
        refine ⟨below, free, .inr ?_⟩
        rcases from' with rfl | listed | high
        · cases reuse with
          | true => exact .inl (given.reused rfl).1
          | false => exact .inr (given.fresh rfl).1.ge
        · exact .inl (given.sub p listed)
        · exact .inr (later.1.trans high)
    reaches := by
      have after := tail.reaches
      rw [restLength, size] at after
      rw [length]
      exact ⟨pos, after⟩
    lies := by
      have after := tail.lies
      rw [restLength, size, rest] at after
      rw [length]
      refine List.forall_mem_cons.mpr ⟨fun c holds => ?_, fun p mem c holds => ?_⟩
      · have now := continues.agree (kept c holds)
        refine ⟨now.signed, fun _ => ⟨?_, fun next head => ?_⟩, Part.spelled_elsewhere ?_⟩
        · dsimp only
          rw [length, min_eq_left (by omega)]
          exact now.read _ le_rfl (by omega)
        · rw [(kept c holds).nextPgno, link]
          have first := tail.head
          cases ps with
          | nil => cases first
          | cons q qs =>
            cases first
            cases head
            rfl
        · rw [tailParts_pages]
          exact mine
      · obtain ⟨signed, spelled⟩ := after p mem c holds
        exact ⟨signed, fun here => absurd ((show p = currp from here) ▸ mem) mine, spelled⟩
    chained := by
      have after := tail.chained
      rw [size] at after
      exact List.forall_mem_cons.mpr ⟨fun c holds => (continues.agree (kept c holds)).chained page, after⟩
    same := by
      intro p c other free
      rw [List.mem_cons, not_or] at other
      rw [tail.same p c other.2 fun listed => free (given.sub p listed), Account.set_other other.1]
      exact given.same p c free
    cur := by
      rw [List.getLast?_cons, tail.cur]
      rfl
    opens := by
      intro c holds
      have after := tail.opens c holds
      rw [restLength, size] at after
      obtain ⟨signed, number, count, offset⟩ := after
      refine ⟨signed, number, count, offset.imp_right (And.imp_right (And.imp_right (And.imp_right fun ends => ?_)))⟩
      rw [length]
      intro part mem here
      rcases List.mem_cons.mp mem with rfl | mem
      · exact absurd here.symm different
      · exact ends part mem here
    ended := tail.ended }

/-- The loop of `_ffdb_add_data` stores the last `rlen` bytes of the value on the page given out and on
more pages. -/
theorem wp_addTail {val : Dbt} {fuel currp prevp rlen : Nat} {reuse : Bool} (page : PageSize h₀.hdr.bsize)
    (pos : rlen ≠ 0) (within : rlen ≤ val.size) (enough : rlen < fuel)
    (h : Knows h₀ top acc hand hashp) (stock : Stock h₀ top acc maps) (started : Started h₀ top s)
    (cur : h₀.currDpage = currp) (some : 0 < currp) (free : reuse = true → currp < top ∧ top = s)
    (fresh : reuse = false → currp = top ∧ s = top + 1) (out : currp ∉ maps.pages)
    (apart : ∀ p ∈ currp :: maps.pages, p ∉ numbers hand)
    (room : s + rlen / (h₀.hdr.bsize - bigPageOverhead) + 1 < maxPageNumber) {Q : Int → Htab → Prop}
    (next : ∀ h₁ acc' maps' s' ps hashp', Tail h₀ h₁ s s' acc acc' maps maps'
      (val.bytes.drop (val.size - rlen)) currp ps → Knows h₁ s' acc' hand hashp' → Q 0 hashp') :
    Wp adm (addTail h₀.hdr.bsize val fuel currp reuse prevp rlen) hashp Q := by
  induction fuel generalizing h₀ hashp acc maps currp reuse prevp rlen top s with
  | zero => omega
  | succ fuel ih =>
    have few := started.few
    have low := started.cur
    have outHand := apart currp List.mem_cons_self
    have reached : max top (currp + 1) = s := by
      cases reuse with
      | true =>
        obtain ⟨below, rfl⟩ := free rfl
        exact max_eq_left below
      | false =>
        obtain ⟨rfl, rfl⟩ := fresh rfl
        exact max_eq_right (Nat.le_succ _)
    rw [addTail, if_neg pos]
    refine wp_bind (wp_getGiven h (fun _ => some) (fun yes => ⟨(free yes).1, outHand⟩) (fun no => ?_) (by decide)
      fun id mem mid h' blank => ?_)
    · obtain ⟨rfl, rfl⟩ := fresh no
      exact ⟨le_rfl, few⟩
    rw [reached] at h'
    refine wp_initGiven h' blank fun raw mid h' => wp_bind (wp_store h' _ fun mid h' => ?_)
    have word : currp < 0x100000000 := by simp only [maxPageNumber] at few; omega
    have continues := continues_tailPage raw prevp page word within
    have stock' : Stock h₀ s acc maps := ⟨stock.head, stock.onPages, stock.nodup, fun p mem =>
      ⟨(stock.bound p mem).1, (stock.bound p mem).2.trans_le started.le⟩⟩
    have started' : Started h₀ s s := ⟨started.spares, started.cur, le_rfl, few⟩
    dsimp only
    by_cases last : rlen - tailLen h₀.hdr.bsize rlen = 0
    · rw [if_pos last]
      refine wp_bind (wp_putDirty h' continues.signed fun hashp' known => wp_pure ?_)
      exact next h₀ _ maps s _ hashp' (tail_last page pos within last stock' started' cur out continues
        (ended_initPage.tail prevp)) known
    · rw [if_neg last]
      obtain ⟨full, long⟩ := tailLen_full page.room.le last
      have room' := page.room
      have quotient := turns_tail page last
      have turns := Nat.zero_le ((rlen - tailLen h₀.hdr.bsize rlen) / (h₀.hdr.bsize - bigPageOverhead))
      have apart' : ∀ p ∈ maps.pages, p ∉ numbers (⟨id, currp, tailPage h₀.hdr.bsize val rlen prevp
          (FileHash.initPage h₀.hdr.bsize raw currp hashDataPage)⟩ :: hand) := by
        intro p mem both
        rcases List.mem_cons.mp both with same | held
        · exact out ((show p = currp from same) ▸ mem)
        · exact apart p (List.mem_cons_of_mem _ mem) held
      refine wp_bind (wp_dataPage h' stock' started' (by omega) apart'
        fun n reuse' h₁ acc₁ maps₁ s₁ mid given cur₁ known => ?_)
      have size : h₁.hdr.bsize = h₀.hdr.bsize := by rw [given.renumbered]
      refine wp_bind (wp_store known _ fun mid known => ?_)
      dsimp only at known ⊢
      have moved := continues.setNext n
      refine wp_bind (wp_putDirty known moved.signed fun mid known => ?_)
      have step : s₁ ≤ s + 1 ∧ (reuse' = true → n ∈ maps.pages ∧ s₁ = s) ∧ (reuse' = false → n = s ∧ s₁ = s + 1) := by
        cases reuse' with
        | true => exact ⟨by have := (given.reused rfl).2; omega, given.reused, fun no => absurd no (by decide)⟩
        | false => exact ⟨by have := (given.fresh rfl).2; omega, fun yes => absurd yes (by decide), given.fresh⟩
      obtain ⟨grown, reused, first⟩ := step
      have outMap : currp ∉ maps₁.pages := fun listed => out (given.sub _ listed)
      rw [← size]
      refine ih (size ▸ page) (by rw [size]; exact last) (by rw [size]; omega) (by rw [size]; omega) known
        (given.stock.set outMap) given.started cur₁ (given.low stock' started').1 (fun yes => ?_)
          (fun no => ?_) given.out
        ?_ ?_ ?_
      · obtain ⟨mem, rfl⟩ := reused yes
        exact ⟨(stock'.bound n mem).2, rfl⟩
      · exact first no
      · refine List.forall_mem_cons.mpr ⟨?_, fun p mem => apart p (List.mem_cons_of_mem _ (given.sub p mem))⟩
        cases reuse' with
        | true => exact apart n (List.mem_cons_of_mem _ (reused rfl).1)
        | false =>
          obtain ⟨rfl, -⟩ := first rfl
          exact fun held => absurd (known.hand_lt held) (lt_irrefl _)
      · rw [size]
        omega
      · rw [size]
        intro h₂ acc₂ maps₂ s₂ ps hashp' tail known
        refine next h₂ acc₂ maps₂ s₂ (currp :: ps) hashp' ?_ known
        refine tail_more page pos within last started' cur out given moved ?_ tail
        refine Lib.Mem.read32_write32_same.trans (Nat.mod_eq_of_lt ?_)
        have := (given.low stock' started').2
        have := given.started.few
        simp only [maxPageNumber] at this
        omega

end FileHash.Htab
