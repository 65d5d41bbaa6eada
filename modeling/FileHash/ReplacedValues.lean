import FileHash.ValueRoundTrip

/-! A value is replaced where it lies. The cuts are made anew from the length of the new value
alone; the copies stay within what the datum was given when it was added, and the links that are
followed lead to its own pages. -/
namespace FileHash.Htab

open Lib (Prog)
open Lib.Prog (Wp wp_bind wp_pure wp_mono)
open Page

variable {h₀ h₁ hashp : Htab} {top s p id bsize : Nat} {acc acc' : Account} {hand : List Taken}
  {maps maps' : FreeMap} {mem c c' c₀ : Page} {adm : Event → Prop} {α : Type} {ds : List Datum} {val : Dbt}

def Outside (part : Nat → Prop) (c c₀ : Page) : Prop :=
  ∀ i, i < chksumPos ∨ chksumOffset ≤ i → ¬part i → c i = c₀ i

theorem Outside.of_agree {part : Nat → Prop} (same : Agree c c₀) : Outside part c c₀ := fun i head _ => same i head

theorem Outside.mono {part part' : Nat → Prop} (h : Outside part c c₀) (more : ∀ i, part i → part' i) :
    Outside part' c c₀ := fun i head out => h i head fun mine => out (more i mine)

theorem Outside.trans {part : Nat → Prop} {b : Page} (h : Outside part c b) (h' : Outside part b c₀) :
    Outside part c c₀ := fun i head out => (h i head out).trans (h' i head out)

section Cuts

variable {r rest : Nat}

theorem tailLen_mono (room : bigPageOverhead + bigDataOverhead ≤ bsize) (less : r ≤ rest) :
    tailLen bsize r ≤ tailLen bsize rest := by
  unfold tailLen fitsTail
  simp only [decide_eq_true_eq]
  split_ifs <;> omega

theorem tailLen_eq (room : bigPageOverhead + bigDataOverhead ≤ bsize) (less : r ≤ rest)
    (more : r - tailLen bsize r ≠ 0) : tailLen bsize r = tailLen bsize rest ∧
      r - tailLen bsize r ≤ rest - tailLen bsize rest := by
  obtain ⟨full, long⟩ := tailLen_full room more
  have most := tailLen_mono room less
  have top : bigPageOverhead + tailLen bsize rest ≤ bsize := tailLen_le room
  omega

theorem drop_tailLen (room : bigPageOverhead + bigDataOverhead ≤ bsize) (less : r ≤ rest) (within : r ≤ val.size) :
    (val.bytes.drop (val.size - r)).drop (tailLen bsize rest) = val.bytes.drop (val.size - (r - tailLen bsize r)) := by
  have length := val.length_bytes
  rw [List.drop_drop]
  by_cases last : r - tailLen bsize r = 0
  · have most := tailLen_mono room less
    rw [List.drop_eq_nil_of_le (by omega), List.drop_eq_nil_of_le (by omega)]
  · rw [← (tailLen_eq room less last).1]
    congr 1
    omega

end Cuts

theorem Part.Spelled.none {parts : List Part} {bytes : List UInt8} (h : Part.Spelled parts bytes p c) :
    Part.Spelled parts [] p c := by
  induction parts generalizing bytes with
  | nil => trivial
  | cons part rest ih =>
    refine ⟨fun here => ⟨?_, (h.1 here).2⟩, ?_⟩
    · simp
    · rw [List.drop_nil]
      exact ih h.2

def TailOf (bsize : Nat) (qs : List Nat) (rest q i : Nat) : Prop := ∃ part ∈ tailParts bsize qs rest, part.covers q i

structure Retold (bsize : Nat) (acc acc' : Account) (qs : List Nat) (rest : Nat) (bytes : List UInt8) : Prop where
  same : ∀ q c, q ∉ qs → (acc'.holds q c ↔ acc.holds q c)
  patched : ∀ q c, acc'.holds q c → ∃ c₀, acc.holds q c₀ ∧ Outside (TailOf bsize qs rest q) c c₀
  spelled : ∀ q ∈ qs, ∀ c, acc'.holds q c → Pagepool.Signed c ∧ Part.Spelled (tailParts bsize qs rest) bytes q c

def retailPage (bsize : Nat) (val : Dbt) (r : Nat) (c : Page) : Page :=
  c.copy bigPageOverhead (Lib.Mem.drop val.data (val.size - r)) (tailLen bsize r)

section Retail

variable {r rest currp : Nat} {qs : List Nat} {bytes : List UInt8}

theorem retailPage_low {i : Nat} (low : i < bigPageOverhead) : (retailPage bsize val r c) i = c i :=
  Lib.Mem.copy_outside (.inl low)

theorem nextPgno_retailPage : Page.nextPgno (retailPage bsize val r c) = Page.nextPgno c :=
  Lib.Mem.read32_congr fun i _ high => retailPage_low (by simp only [bigPageOverhead]; omega)

theorem signed_retailPage (signed : Pagepool.Signed c) : Pagepool.Signed (retailPage bsize val r c) :=
  (Lib.Mem.read32_congr fun i _ high => retailPage_low (by simp only [bigPageOverhead]; omega)).trans signed

theorem outside_retailPage (room : bigPageOverhead + bigDataOverhead ≤ bsize) (less : r ≤ rest) :
    Outside (TailOf bsize (currp :: qs) rest currp) (retailPage bsize val r c) c := by
  intro i _ out
  refine Lib.Mem.copy_outside ?_
  by_contra inside
  refine out ⟨_, List.mem_cons_self, rfl, ?_⟩
  have := tailLen_mono room less
  dsimp only
  omega

theorem spelled_retailPage (room : bigPageOverhead + bigDataOverhead ≤ bsize) (less : r ≤ rest)
    (within : r ≤ val.size) (out : currp ∉ qs) (was : Part.Spelled (tailParts bsize (currp :: qs) rest) bytes currp c)
    (same : Agree c' (retailPage bsize val r c)) :
    Part.Spelled (tailParts bsize (currp :: qs) rest) (val.bytes.drop (val.size - r)) currp c' := by
  have length : (val.bytes.drop (val.size - r)).length = r := by
    rw [List.length_drop, val.length_bytes]
    omega
  refine ⟨fun _ => ⟨?_, fun next head => ?_⟩, Part.spelled_elsewhere (by rw [tailParts_pages]; exact out)⟩
  · dsimp only
    have enough : min (tailLen bsize rest) r ≤ tailLen bsize r := by
      have : bigPageOverhead + tailLen bsize rest ≤ bsize := tailLen_le room
      by_cases last : r - tailLen bsize r = 0
      · omega
      · rw [← (tailLen_eq room less last).1]
        exact min_le_left _ _
    rw [length, same.drop_bytes (by decide), retailPage, Lib.Mem.bytes_drop_copy_le enough,
      Lib.Mem.bytes_drop_eq (n := val.size) (by omega)]
    change (val.bytes.drop (val.size - r)).take _ = _
    rw [List.take_eq_take_iff, length]
    omega
  · rw [same.nextPgno, nextPgno_retailPage]
    exact (was.1 rfl).2 next head

theorem retold_cons (room : bigPageOverhead + bigDataOverhead ≤ bsize) (less : r ≤ rest) (within : r ≤ val.size)
    (out : currp ∉ qs) (was : Part.Spelled (tailParts bsize (currp :: qs) rest) bytes currp c)
    (signed : Pagepool.Signed c) (holds : acc.holds currp c)
    (tail : Retold bsize (acc.set currp (retailPage bsize val r c)) acc' qs (rest - tailLen bsize rest)
      (val.bytes.drop (val.size - (r - tailLen bsize r)))) :
    Retold bsize acc acc' (currp :: qs) rest (val.bytes.drop (val.size - r)) where
  same q x other := by
    rw [List.mem_cons, not_or] at other
    exact (tail.same q x other.2).trans (Account.set_other other.1)
  patched q x told := by
    by_cases here : q = currp
    · subst here
      have agree := Account.set_same.mp ((tail.same q x out).mp told)
      exact ⟨c, holds, (Outside.of_agree agree).trans (outside_retailPage room less)⟩
    · obtain ⟨d, was, same⟩ := tail.patched q x told
      refine ⟨d, (Account.set_other here).mp was, same.mono fun i tails => ?_⟩
      obtain ⟨part, mem, covers⟩ := tails
      exact ⟨part, List.mem_cons_of_mem _ mem, covers⟩
  spelled q mem x told := by
    by_cases here : q = currp
    · subst here
      have agree := Account.set_same.mp ((tail.same q x out).mp told)
      exact ⟨agree.pageSign.trans (signed_retailPage signed), spelled_retailPage room less within out was agree⟩
    · obtain ⟨sign, spelled⟩ := tail.spelled q ((List.mem_cons.mp mem).resolve_left here) x told
      refine ⟨sign, fun first => absurd first here, ?_⟩
      rw [drop_tailLen room less within]
      exact spelled

theorem retold_done (lies : ∀ q ∈ qs, ∀ c, acc.holds q c →
    Pagepool.Signed c ∧ Part.Spelled (tailParts bsize qs rest) bytes q c) : Retold bsize acc acc qs rest [] where
  same _ _ _ := Iff.rfl
  patched _ c told := ⟨c, told, .of_agree (.refl c)⟩
  spelled q mem c told := ⟨(lies q mem c told).1, (lies q mem c told).2.none⟩

/-- What the loop of `_ffdb_replace_data` has in front of it: `r` bytes are to come, on pages that were
given `rest` bytes. -/
structure Before (bsize top : Nat) (acc : Account) (hand : List Taken) (val : Dbt) (currp : Nat) (qs : List Nat)
    (r rest : Nat) (bytes : List UInt8) : Prop where
  less : r ≤ rest
  within : r ≤ val.size
  reaches : Reaches bsize qs rest
  nodup : qs.Nodup
  first : r ≠ 0 → qs.head? = some currp
  used : ∀ q ∈ qs, (0 < q ∧ q < top) ∧ q ∉ numbers hand
  lies : ∀ q ∈ qs, ∀ c, acc.holds q c → Pagepool.Signed c ∧ Part.Spelled (tailParts bsize qs rest) bytes q c

theorem Before.pages (b : Before bsize top acc hand val currp qs r rest bytes) (more : r ≠ 0) :
    ∃ later, qs = currp :: later := by
  have first := b.first more
  cases qs with
  | nil => cases first
  | cons q later =>
    cases first
    exact ⟨later, rfl⟩

theorem Before.step (room : bigPageOverhead + bigDataOverhead ≤ bsize)
    (b : Before bsize top acc hand val currp (currp :: qs) r rest bytes) (holds : acc.holds currp c) :
    Before bsize top (acc.set currp (retailPage bsize val r c)) hand val (Page.nextPgno (retailPage bsize val r c)) qs
      (r - tailLen bsize r) (rest - tailLen bsize rest) (bytes.drop (tailLen bsize rest)) := by
  have out : currp ∉ qs := (List.nodup_cons.mp b.nodup).1
  have most := tailLen_mono room b.less
  have less : r - tailLen bsize r ≤ rest - tailLen bsize rest := by
    by_cases last : r - tailLen bsize r = 0
    · omega
    · exact (tailLen_eq room b.less last).2
  refine ⟨less, (Nat.sub_le _ _).trans b.within, b.reaches.2, (List.nodup_cons.mp b.nodup).2, fun more => ?_,
    fun q mem => b.used q (List.mem_cons_of_mem _ mem), fun q mem d told => ?_⟩
  · have reaches := b.reaches.2
    obtain ⟨_, spelled⟩ := b.lies currp List.mem_cons_self c holds
    rw [nextPgno_retailPage]
    cases qs with
    | nil =>
      have none : rest - tailLen bsize rest = 0 := reaches
      omega
    | cons q later => exact congrArg some ((spelled.1 rfl).2 _ rfl).symm
  · have ne : q ≠ currp := fun same => out (same ▸ mem)
    obtain ⟨sign, spelled⟩ := b.lies q (List.mem_cons_of_mem _ mem) d ((Account.set_other ne).mp told)
    exact ⟨sign, spelled.2⟩

/-- The loop of `_ffdb_replace_data` over the pages the datum was given. -/
theorem wp_replaceTail {fuel : Nat} (room : bigPageOverhead + bigDataOverhead < bsize)
    (h : Knows h₀ top acc hand hashp) (b : Before bsize top acc hand val currp qs r rest bytes) (enough : r < fuel)
    {Q : Int → Htab → Prop}
    (next : ∀ acc' hashp', Retold bsize acc acc' qs rest (val.bytes.drop (val.size - r)) →
      Knows h₀ top acc' hand hashp' → Q 0 hashp') : Wp adm (replaceTail bsize val fuel currp r) hashp Q := by
  induction fuel generalizing acc hashp currp qs r rest bytes with
  | zero => omega
  | succ fuel ih =>
    rw [replaceTail]
    by_cases done : r = 0
    · rw [if_pos done]
      refine wp_pure (next acc hashp ?_ h)
      rw [done, Nat.sub_zero, List.drop_eq_nil_of_le val.length_bytes.le]
      exact retold_done b.lies
    · obtain ⟨later, rfl⟩ := b.pages done
      have used := b.used currp List.mem_cons_self
      rw [if_neg done]
      refine wp_bind (wp_get h used.2 (fun _ => used.1.1) used.1.2 (by decide) fun id c mid known holds => ?_)
      have step := b.step room.le holds
      obtain ⟨signed, was⟩ := b.lies currp List.mem_cons_self c holds
      refine wp_bind (wp_store known _ fun mid known => wp_bind (wp_page known List.mem_cons_self ?_))
      refine wp_bind (wp_putDirty known (signed_retailPage signed) fun mid known => ?_)
      have turn := tailLen_pos room done
      refine ih known step (by omega) fun acc' hashp' tail known => next acc' hashp' ?_ known
      exact retold_cons room.le b.less b.within (List.nodup_cons.mp b.nodup).1 was signed holds tail

def replaceTailAlong (bsize : Nat) (val : Dbt) : List Nat → Nat → Run Int
  | [], rlen => if rlen = 0 then pure 0 else Prog.halt .segv
  | currp :: rest, rlen =>
    if rlen = 0 then pure 0
    else do
      match (← getPage currp hashDataPage {}).1 with
      | none => pure (-1)
      | some currpagep =>
        store currpagep (retailPage bsize val rlen)
        putPage currpagep true
        replaceTailAlong bsize val rest (rlen - tailLen bsize rlen)

theorem replaceTail_along {fuel : Nat} (room : bigPageOverhead + bigDataOverhead < bsize)
    (h : Knows h₀ top acc hand hashp) (b : Before bsize top acc hand val currp qs r rest bytes) (enough : r < fuel) :
    Prog.SameRun (replaceTail bsize val fuel currp r) (replaceTailAlong bsize val qs r) hashp := by
  induction qs generalizing acc hashp currp r rest bytes fuel with
  | nil =>
    have none : rest = 0 := b.reaches
    have done : r = 0 := Nat.le_zero.mp (none ▸ b.less)
    obtain ⟨fuel, rfl⟩ := Nat.exists_eq_succ_of_ne_zero (Nat.ne_of_gt (Nat.zero_lt_of_lt enough))
    rw [replaceTail, replaceTailAlong, if_pos done, if_pos done]
    exact .refl _
  | cons q qs ih =>
    obtain ⟨fuel, rfl⟩ := Nat.exists_eq_succ_of_ne_zero (Nat.ne_of_gt (Nat.zero_lt_of_lt enough))
    rw [replaceTail, replaceTailAlong]
    by_cases done : r = 0
    · rw [if_pos done, if_pos done]
      exact .refl _
    · obtain ⟨later, same⟩ := b.pages done
      cases same
      have used := b.used q List.mem_cons_self
      rw [if_neg done, if_neg done]
      refine Prog.sameRun_bind (wp_get h used.2 (fun _ => used.1.1) used.1.2 (by decide) fun id c mid known holds => ?_)
      have signed := (b.lies q List.mem_cons_self c holds).1
      have turn := tailLen_pos room done
      refine Prog.sameRun_bind (wp_store known _ fun mid known => ?_)
      refine sameRun_page known List.mem_cons_self ?_
      exact Prog.sameRun_bind (wp_putDirty known (signed_retailPage signed) fun mid known =>
        ih known (b.step room.le holds) (by omega))

end Retail

def Datum.renewed (d : Datum) (val : Dbt) : Datum := { d with bytes := val.bytes }

def Datum.Rewrites (d : Datum) (bsize q i : Nat) : Prop :=
  (q = d.first ∧ d.roff ≤ i ∧ i < d.roff + 8) ∨ ∃ part ∈ d.parts bsize, part.covers q i

structure Replaced (h₀ : Htab) (d : Datum) (val : Dbt) (acc acc' : Account) : Prop where
  same : ∀ q c, q ∉ d.all → (acc'.holds q c ↔ acc.holds q c)
  patched : ∀ q c, acc'.holds q c → ∃ c₀, acc.holds q c₀ ∧ Outside (d.Rewrites h₀.hdr.bsize q) c c₀
  on : (d.renewed val).OnPages h₀ acc'

/-- The first page of a datum with `n` bytes of the new value behind its header. -/
def rehead (version roff : Nat) (val : Dbt) (datap : Datap) (n : Nat) (c : Page) : Page :=
  Lib.Mem.copy (replaceHeader version roff val datap c) (roff + bigDataOverhead) val.data n

section Head

variable {d : Datum} {version flag n roff : Nat} {datap : Datap}

theorem rehead_outside {i : Nat} (out : i < roff ∨ (roff + 8 ≤ i ∧ i < roff + bigDataOverhead) ∨
    roff + bigDataOverhead + n ≤ i) : (rehead version roff val datap n c) i = c i := by
  simp only [bigDataOverhead] at out
  rw [rehead, Lib.Mem.copy_outside (by simp only [bigDataOverhead]; omega)]
  exact writeHeader_lengths (by omega)

theorem rehead_agree_low (version : Nat) (val : Dbt) (datap : Datap) (n : Nat) (c : Page)
    (low : bigPageOverhead ≤ roff) :
    (rehead version roff val datap n c).pageSign = c.pageSign ∧
      (rehead version roff val datap n c).currPgno = c.currPgno ∧
      (rehead version roff val datap n c).nextPgno = c.nextPgno ∧
        (rehead version roff val datap n c).numEnt = c.numEnt := by
  have same : ∀ i < bigPageOverhead, (rehead version roff val datap n c) i = c i :=
    fun i head => rehead_outside (.inl (head.trans_le low))
  simp only [bigPageOverhead] at same
  exact ⟨Lib.Mem.read32_congr fun i _ high => same i (by omega), Lib.Mem.read32_congr fun i _ high => same i (by omega),
    Lib.Mem.read32_congr fun i _ high => same i (by omega), Lib.Mem.read16_congr fun i _ high => same i (by omega)⟩

theorem heads_rehead (format : Format version flag) (storable : Storable version val.size)
    (len : datap.len = u32 val.size) (heads : d.Heads version flag (c.readHeader roff)) :
    (d.renewed val).Heads version flag ((rehead version roff val datap n c).readHeader roff) := by
  have words : DataHeader.Words { c.readHeader roff with
      len := datap.len
      status := if ffdbVersion5 < version then insertLenToPgoffset val.size (c.readHeader roff).status
        else (c.readHeader roff).status } := by
    obtain ⟨_, status, rest⟩ := readHeader_words (c := c) (a := roff)
    refine ⟨len ▸ Nat.mod_lt _ (by decide), ?_, rest⟩
    dsimp only
    split_ifs
    · simp only [insertLenToPgoffset, dlenHighBits]
      omega
    · exact status
  have header : (rehead version roff val datap n c).readHeader roff = _ :=
    (readHeader_congr fun i _ ends => Lib.Mem.copy_outside (.inl ends)).trans (readHeader_writeHeader (c := c) words)
  rw [header]
  have length : (d.renewed val).bytes.length = val.size := val.length_bytes
  refine ⟨?_, ?_, heads.keyPage, heads.keyIdx⟩
  · rw [length, Datum.headerLen]
    dsimp only
    rw [len]
    rcases format with ⟨rfl, rfl⟩ | ⟨rfl, rfl⟩
    · rw [if_neg (by decide)]
      exact storable.word
    · rw [if_pos (by decide), if_pos (by decide)]
      exact realDataLen_insert storable.le _
  · have status := heads.status
    rw [Datum.headerStatus] at status ⊢
    dsimp only
    rcases format with ⟨rfl, rfl⟩ | ⟨rfl, rfl⟩
    · rw [if_neg (by decide)] at status ⊢
      rw [if_neg (by decide)]
      exact status
    · rw [if_pos (by decide)] at status ⊢
      rw [if_pos (by decide), getPgoffset_insert]
      exact status

theorem head_bytes (place : d.Placed bsize) (fits : val.size ≤ d.size) :
    min (min d.size (d.headRoom bsize)) val.size = min val.size (d.headRoom bsize) ∧
      d.roff + bigDataOverhead + min d.size (d.headRoom bsize) ≤ bsize := by
  have high := place.high
  simp only [Datum.headRoom, bigDataOverhead] at *
  omega

theorem outside_rehead (fits : val.size ≤ d.size) :
    Outside (d.Rewrites bsize d.first) (rehead version d.roff val datap (min val.size (d.headRoom bsize)) c) c := by
  intro i _ out
  refine rehead_outside ?_
  by_contra inside
  refine out (.inr ⟨_, List.mem_cons_self, rfl, ?_⟩)
  have header : ¬(d.roff ≤ i ∧ i < d.roff + 8) := fun both => out (.inl ⟨rfl, both⟩)
  dsimp only
  simp only [bigDataOverhead] at *
  omega

theorem on_rehead (format : Format version flag) (storable : Storable version val.size)
    (len : datap.len = u32 val.size) (place : d.Placed bsize) (fits : val.size ≤ d.size)
    (on : d.On version flag bsize d.first c) :
    (d.renewed val).On version flag bsize d.first
      (rehead version d.roff val datap (min val.size (d.headRoom bsize)) c) := by
  obtain ⟨sign, number, next, count⟩ := rehead_agree_low version val datap
    (min val.size (d.headRoom bsize)) c place.low
  obtain ⟨current, some, heads⟩ := on.head rfl
  refine ⟨sign.trans on.signed, fun _ => ⟨number.trans current, count ▸ some, heads_rehead format storable len heads⟩,
    ?_⟩
  refine ⟨fun _ => ⟨?_, fun part head => ?_⟩, Part.spelled_elsewhere ?_⟩
  · change Lib.Mem.bytes _ (min (min d.size (d.headRoom bsize)) val.bytes.length) = val.bytes.take
      (min d.size (d.headRoom bsize))
    rw [val.length_bytes, (head_bytes place fits).1]
    refine Lib.Mem.bytes_drop_copy.trans ((Lib.Mem.bytes_take (min_le_left _ _)).trans ?_)
    change val.bytes.take _ = _
    rw [List.take_eq_take_iff, val.length_bytes]
    omega
  · rw [next]
    exact (on.spelled.1 rfl).2 part head
  · rw [tailParts_pages]
    exact (List.nodup_cons.mp place.nodup).1

theorem replaced (format : Format h₀.hdr.version h₀.dataValidFlag) (storable : Storable h₀.hdr.version val.size)
    (len : datap.len = u32 val.size) (place : d.Placed h₀.hdr.bsize) (fits : val.size ≤ d.size)
    (on : d.OnPages h₀ acc) (here : acc.holds d.first c)
    (tail : Retold h₀.hdr.bsize acc acc' d.pages (d.size - d.headRoom h₀.hdr.bsize)
      (val.bytes.drop (d.headRoom h₀.hdr.bsize))) :
    Replaced h₀ d val acc (acc'.set d.first
      (rehead h₀.hdr.version d.roff val datap (min val.size (d.headRoom h₀.hdr.bsize)) c)) where
  same q x out := by
    rw [Datum.all, List.mem_cons, not_or] at out
    exact (Account.set_other out.1).trans (tail.same q x out.2)
  patched q x told := by
    by_cases first : q = d.first
    · subst first
      exact ⟨c, here, (Outside.of_agree (Account.set_same.mp told)).trans (outside_rehead fits)⟩
    · obtain ⟨c₀, was, same⟩ := tail.patched q x ((Account.set_other first).mp told)
      refine ⟨c₀, was, same.mono fun i tails => ?_⟩
      obtain ⟨part, mem, covers⟩ := tails
      exact .inr ⟨part, List.mem_cons_of_mem _ mem, covers⟩
  on q mem x told := by
    by_cases first : q = d.first
    · subst first
      have there := on_rehead format storable len place fits (on d.first List.mem_cons_self c here)
      have place' : (d.renewed val).Placed h₀.hdr.bsize :=
        ⟨place.low, place.high, place.reaches, place.nodup, val.length_bytes.le.trans fits⟩
      exact there.agree place' (Account.set_same.mp told)
    · obtain ⟨sign, spelled⟩ := tail.spelled q ((List.mem_cons.mp mem).resolve_left first) x
        ((Account.set_other first).mp told)
      refine ⟨sign, fun here => absurd here first, fun here => absurd here first, ?_⟩
      change Part.Spelled (tailParts h₀.hdr.bsize d.pages (d.size - d.headRoom h₀.hdr.bsize))
        (val.bytes.drop (min d.size (d.headRoom h₀.hdr.bsize))) q x
      have same : val.bytes.drop (min d.size (d.headRoom h₀.hdr.bsize)) = val.bytes.drop (d.headRoom h₀.hdr.bsize) := by
        by_cases short : d.size ≤ d.headRoom h₀.hdr.bsize
        · have length := val.length_bytes
          rw [List.drop_eq_nil_of_le (by omega), List.drop_eq_nil_of_le (by omega)]
        · rw [min_eq_right (not_le.mp short).le]
      rw [same]
      exact spelled

end Head

/-- `_ffdb_replace_data` told the pages of the datum beforehand: it follows no link. -/
def replaceDataAlong (pages : List Nat) (val : Dbt) (mem : Nat) (datap : Datap) : Run Int := do
  let hashp ← Prog.read
  let bsize := hashp.hdr.bsize
  let version := hashp.hdr.version
  let roffset := dataOffset version datap
  store mem (replaceHeader version roffset val datap)
  let fspace := u32 (bsize + 0x100000000 - roffset)
  if fspace < bigDataOverhead then Prog.halt .assertion
  else if bigDataTotalSize val ≤ fspace then
    store mem fun p => p.copy (roffset + bigDataOverhead) val.data val.size
    putPage mem true
    pure 0
  else
    store mem (headBytes roffset fspace val)
    let status ← replaceTailAlong bsize val pages (val.size - (fspace - bigDataOverhead))
    if status ≠ 0 then pure (-1)
    else
      putPage mem true
      pure 0

section ReplaceData

variable {d : Datum} {datap : Datap}

structure Replaceable (h₀ : Htab) (top : Nat) (acc : Account) (hand : List Taken) (d : Datum) (val : Dbt)
    (datap : Datap) (c : Page) : Prop where
  page : PageSize h₀.hdr.bsize
  format : Format h₀.hdr.version h₀.dataValidFlag
  storable : Storable h₀.hdr.version val.size
  fits : val.size ≤ d.size
  place : d.Placed h₀.hdr.bsize
  on : d.OnPages h₀ acc
  used : ∀ q ∈ d.all, (0 < q ∧ q < top) ∧ q ∉ numbers hand
  here : acc.holds d.first c
  offset : dataOffset h₀.hdr.version datap = d.roff
  len : datap.len = u32 val.size

theorem Replaceable.before (r : Replaceable h₀ top acc hand d val datap c)
    (long : d.headRoom h₀.hdr.bsize < val.size) {g : Taken} (first : g.pgno = d.first)
    (next : g.mem.nextPgno = c.nextPgno) :
    Before h₀.hdr.bsize top acc (g :: hand) val g.mem.nextPgno d.pages (val.size - d.headRoom h₀.hdr.bsize)
      (d.size - d.headRoom h₀.hdr.bsize) (d.bytes.drop (min d.size (d.headRoom h₀.hdr.bsize))) := by
  have nodup := List.nodup_cons.mp r.place.nodup
  refine ⟨Nat.sub_le_sub_right r.fits _, Nat.sub_le _ _, r.place.reaches, nodup.2, fun more => ?_, fun q mem => ?_,
    fun q mem x told => ?_⟩
  · have spelled := (r.on d.first List.mem_cons_self c r.here).spelled
    have reaches := r.place.reaches
    have fits := r.fits
    rw [next]
    cases pages : d.pages with
    | nil =>
      rw [pages] at reaches
      have none : d.size - d.headRoom h₀.hdr.bsize = 0 := reaches
      omega
    | cons q later =>
      refine congrArg some ((spelled.1 rfl).2
        ⟨q, bigPageOverhead, tailLen h₀.hdr.bsize (d.size - d.headRoom h₀.hdr.bsize)⟩ ?_).symm
      rw [pages]
      rfl
  · obtain ⟨low, out⟩ := r.used q (List.mem_cons_of_mem _ mem)
    refine ⟨low, fun both => ?_⟩
    rcases List.mem_cons.mp both with same | held
    · exact nodup.1 (first ▸ (show q = g.pgno from same) ▸ mem)
    · exact out held
  · have there := r.on q (List.mem_cons_of_mem _ mem) x told
    exact ⟨there.signed, there.spelled.2⟩

theorem wp_replaceData (h : Knows h₀ top acc (⟨id, d.first, c⟩ :: hand) hashp)
    (r : Replaceable h₀ top acc hand d val datap c) {Q : Int → Htab → Prop}
    (next : ∀ acc' hashp', Replaced h₀ d val acc acc' → Knows h₀ top acc' hand hashp' → Q 0 hashp') :
    Wp adm (replaceData val id datap) hashp Q := by
  have high := r.place.high
  have room := r.page.room
  have signed := (on_rehead r.format r.storable r.len r.place r.fits
    (r.on d.first List.mem_cons_self c r.here)).signed
  refine wp_bind (Prog.wp_read ?_)
  dsimp only
  rw [h.hdr, r.offset, room_eq (by omega) r.page.most]
  refine wp_bind (wp_store h _ fun mid known => ?_)
  rw [if_neg (by omega)]
  refine Prog.wp_ite (fun short => ?_) fun long => ?_
  · have least : min val.size (d.headRoom h₀.hdr.bsize) = val.size := by
      simp only [bigDataTotalSize, Datum.headRoom] at *
      omega
    refine wp_bind (wp_store known _ fun mid known => ?_)
    have tail : Retold h₀.hdr.bsize acc acc d.pages (d.size - d.headRoom h₀.hdr.bsize)
        (val.bytes.drop (d.headRoom h₀.hdr.bsize)) := by
      rw [List.drop_eq_nil_of_le (by rw [val.length_bytes]; omega)]
      exact retold_done fun q mem x told =>
        ⟨(r.on q (List.mem_cons_of_mem _ mem) x told).signed, (r.on q (List.mem_cons_of_mem _ mem) x told).spelled.2⟩
    have lies := replaced r.format r.storable r.len r.place r.fits r.on r.here tail
    rw [least] at lies signed
    refine wp_bind (wp_putDirty known signed fun hashp' known => wp_pure ?_)
    exact next _ hashp' lies known
  · have most : min val.size (d.headRoom h₀.hdr.bsize) = d.headRoom h₀.hdr.bsize := by
      simp only [bigDataTotalSize, Datum.headRoom] at *
      omega
    have more : d.headRoom h₀.hdr.bsize < val.size := by
      simp only [bigDataTotalSize, Datum.headRoom] at *
      omega
    have within : val.size - (val.size - d.headRoom h₀.hdr.bsize) = d.headRoom h₀.hdr.bsize := by omega
    rw [most] at signed
    refine wp_bind (wp_store known _ fun mid known => wp_bind (wp_page known List.mem_cons_self ?_))
    have link := (rehead_agree_low h₀.hdr.version val datap (d.headRoom h₀.hdr.bsize) c r.place.low).2.2.1
    refine wp_bind (wp_replaceTail room known (r.before more rfl link) (Nat.lt_succ_self _)
      fun acc' mid tail known => ?_)
    rw [if_neg (by decide)]
    rw [within] at tail
    have lies := replaced r.format r.storable r.len r.place r.fits r.on r.here tail
    rw [most] at lies
    exact wp_bind (wp_putDirty known signed fun hashp' known => wp_pure (next _ hashp' lies known))

theorem replaceData_along (h : Knows h₀ top acc (⟨id, d.first, c⟩ :: hand) hashp)
    (r : Replaceable h₀ top acc hand d val datap c) :
    Prog.SameRun (replaceData val id datap) (replaceDataAlong d.pages val id datap) hashp := by
  have high := r.place.high
  have room := r.page.room
  refine Prog.sameRun_bind (Prog.wp_read ?_)
  dsimp only
  rw [h.hdr, r.offset, room_eq (by omega) r.page.most]
  refine Prog.sameRun_bind (wp_store h _ fun mid known => ?_)
  have header : ¬h₀.hdr.bsize - d.roff < bigDataOverhead := by omega
  rw [if_neg header, if_neg header]
  by_cases short : bigDataTotalSize val ≤ h₀.hdr.bsize - d.roff
  · rw [if_pos short, if_pos short]
    exact .refl _
  · have more : d.headRoom h₀.hdr.bsize < val.size := by
      simp only [bigDataTotalSize, Datum.headRoom] at *
      omega
    rw [if_neg short, if_neg short]
    refine Prog.sameRun_bind (wp_store known _ fun mid known => ?_)
    have link := (rehead_agree_low h₀.hdr.version val datap (d.headRoom h₀.hdr.bsize) c r.place.low).2.2.1
    refine sameRun_page known List.mem_cons_self ?_
    exact (replaceTail_along room known (r.before more rfl link) (Nat.lt_succ_self _)).bind

end ReplaceData

end FileHash.Htab
