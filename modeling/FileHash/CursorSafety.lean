import FileHash.CursorSteps
import FileHash.TableFrame

/-! Cursor calls in any order. A call shows in the trace when it asks for a bucket that there
is not; nothing else that a cursor does shows there. -/
namespace FileHash

open Lib (Prog)
open Lib.Prog (Passes passes_pure passes_halt passes_reads passes_modify passes_mark passes_bind
  passes_read_bind passes_zoom passes_ite)

namespace Pagepool

variable {ε : Type} {adm : ε → Prop} {pgp : Pagepool}

theorem passes_obtainBkt (self : Nat) : Passes adm (obtainBkt (ε := ε) self) pgp := by
  have done : ∀ (f : Pagepool → Pagepool) (id : Nat),
      Passes adm (Prog.modify f >>= fun _ => pure id : Prog Pagepool ε Nat) pgp :=
    fun f id => passes_bind (passes_modify f) fun _ _ _ => passes_pure id
  refine passes_read_bind (passes_ite (passes_ite (passes_halt _) ?_) (done _ _))
  split
  · exact done _ _
  · exact done _ _

theorem passes_newPageI (self pageno : Nat) (flags : PageFlags) :
    Passes adm (newPageI (ε := ε) self pageno flags) pgp := by
  refine passes_read_bind (passes_ite (passes_halt _) ?_)
  refine passes_bind (passes_obtainBkt self) fun _ _ _ => ?_
  refine passes_bind (passes_modify _) fun _ _ _ => passes_bind (passes_modify _) fun _ _ _ => ?_
  refine passes_bind (passes_modify _) fun _ _ _ => passes_bind (passes_modify _) fun _ _ _ => ?_
  exact passes_pure _

theorem passes_loadNewPage (self pageno : Nat) (flags : PageFlags) :
    Passes adm (loadNewPage (ε := ε) self pageno flags) pgp := by
  refine passes_bind (passes_obtainBkt self) fun _ _ _ => passes_read_bind ?_
  refine passes_bind (passes_modify _) fun _ _ _ => passes_bind (passes_modify _) fun _ _ _ => ?_
  split
  · exact passes_halt _
  · exact passes_bind (passes_modify _) fun _ _ _ => passes_pure _

theorem passes_getPage (self pageno : Nat) (flags : PageFlags) :
    Passes adm (getPage (ε := ε) self pageno flags) pgp := by
  refine passes_read_bind (passes_ite (passes_pure _) (passes_ite (passes_ite (passes_pure _) ?_) ?_))
  · exact passes_bind (passes_newPageI self pageno flags) fun _ _ _ => passes_pure _
  · split
    · exact passes_ite (passes_pure _) (passes_bind (passes_modify _) fun _ _ _ => passes_pure _)
    · refine passes_ite ?_ ?_
      · exact passes_bind (passes_newPageI self pageno _) fun _ _ _ => passes_pure _
      · exact passes_bind (passes_loadNewPage self pageno flags) fun _ _ _ => passes_pure _

theorem passes_putPage (mem : Nat) (dirty : Bool) : Passes adm (putPage (ε := ε) mem dirty) pgp :=
  passes_read_bind (passes_ite (passes_modify _) (passes_halt _))

end Pagepool

namespace Htab

open Page

abbrev Inside {α : Type} (m : Run α) (hashp : Htab) : Prop := Passes (· ≠ .beyond) m hashp

section Calls

variable {hashp : Htab}

theorem inside_address (addr ty : Nat) : Inside (address addr ty) hashp :=
  passes_read_bind (passes_ite (passes_ite (passes_halt _) (passes_pure _)) (passes_pure _))

theorem inside_fails : Inside fails hashp := by
  refine passes_read_bind (passes_bind (passes_modify _) fun _ _ _ => passes_ite ?_ (passes_pure _))
  exact passes_bind (passes_mark (by decide)) fun _ _ _ => passes_pure _

theorem inside_noteAgain (p : Nat) : Inside (noteAgain p) hashp := by
  refine passes_read_bind ?_
  split
  · exact passes_ite (passes_mark (by simp)) (passes_pure _)
  · exact passes_pure _

theorem inside_noteSlip (mem : Nat) (why : Slip) : Inside (noteSlip mem why) hashp :=
  passes_read_bind (passes_ite (passes_mark (by simp)) (passes_pure _))

theorem inside_initPage (mem p ty : Nat) : Inside (initPage mem p ty) hashp := by
  refine passes_read_bind ?_
  unfold Htab.store pool
  exact passes_zoom (passes_modify _)

theorem inside_fetch (p : Nat) (flags : PageFlags) : Inside (fetch p flags) hashp := by
  refine passes_bind (inside_noteAgain p) fun _ _ _ => ?_
  refine passes_bind (passes_zoom (Pagepool.passes_getPage _ _ _)) fun r _ _ => ?_
  cases r with
  | page mem => exact passes_bind (passes_modify _) fun _ _ _ => passes_pure _
  | wait mem => exact passes_halt _
  | error => exact passes_pure _

theorem inside_getPage (addr ty : Nat) (flags : PageFlags) : Inside (getPage addr ty flags) hashp := by
  refine passes_bind (inside_address addr ty) fun p _ _ => passes_bind inside_fails fun failed _ _ => ?_
  refine passes_ite (passes_pure _) (passes_bind (inside_fetch p flags) fun r _ _ => ?_)
  cases r with
  | none => exact passes_pure _
  | some mem =>
    refine passes_bind (passes_reads _) fun c _ _ => passes_ite ?_ (passes_pure _)
    refine passes_bind (inside_initPage mem p ty) fun _ _ _ => ?_
    exact passes_bind (inside_noteSlip mem _) fun _ _ _ => passes_pure _

theorem inside_putPage (mem : Nat) (dirty : Bool) : Inside (putPage mem dirty) hashp :=
  passes_bind (passes_zoom (Pagepool.passes_putPage mem dirty)) fun _ _ _ => passes_modify _

theorem inside_leak (mem : Nat) (why : Leak) : Inside (leak mem why) hashp :=
  passes_bind (passes_mark (by simp)) fun _ _ _ => passes_modify _

theorem inside_copyData (bsize fuel pagep start rlen : Nat) (sofar : List UInt8) :
    Inside (copyData bsize fuel pagep start rlen sofar) hashp := by
  induction fuel generalizing hashp pagep start rlen sofar with
  | zero => exact passes_halt _
  | succ fuel ih =>
    refine passes_bind (passes_reads _) fun p _ _ => passes_ite (passes_halt _) ?_
    refine passes_bind (inside_putPage pagep false) fun _ _ _ => passes_ite (passes_pure _) ?_
    refine passes_bind (inside_getPage _ _ _) fun r _ _ => ?_
    split
    · exact passes_pure _
    · exact ih _ _ _ _

theorem inside_getData (keyPage keyIdx room : Nat) (datap : Datap) :
    Inside (getData keyPage keyIdx room datap) hashp := by
  refine passes_read_bind (passes_bind (inside_getPage _ _ _) fun r _ _ => ?_)
  split
  · exact passes_pure _
  · refine passes_bind (passes_reads _) fun p _ _ => passes_ite (passes_halt _) (passes_ite ?_ ?_)
    · exact passes_bind (inside_leak _ _) fun _ _ _ => passes_pure _
    · refine passes_ite (passes_bind (inside_leak _ _) fun _ _ _ => passes_pure _) ?_
      refine passes_bind (inside_copyData _ _ _ _ _ _) fun r _ _ => ?_
      split
      · exact passes_pure _
      · exact passes_ite (passes_pure _) (passes_pure _)

theorem inside_getItem (pagep pgno pgndx room : Nat) (freepage : Bool) :
    Inside (getItem pagep pgno pgndx room freepage) hashp := by
  refine passes_bind (passes_reads _) fun p _ _ => passes_bind (inside_getData _ _ _ _) fun r _ _ => ?_
  refine passes_ite ?_ ?_
  · exact passes_ite (passes_bind (inside_leak _ _) fun _ _ _ => passes_pure _) (passes_pure _)
  · exact passes_ite (passes_bind (inside_putPage _ _) fun _ _ _ => passes_pure _) (passes_pure _)

theorem inside_cursorRead (crs : Crs) (keyRoom : Nat) (dataRoom : Option Nat) :
    Inside (cursorRead crs keyRoom dataRoom) hashp := by
  unfold cursorRead
  split
  · exact passes_halt _
  · refine passes_bind (passes_reads _) fun p _ _ => passes_ite (passes_pure _) ?_
    split
    · exact passes_pure _
    · exact passes_bind (inside_getItem _ _ _ _ _) fun _ _ _ => passes_pure _

theorem inside_deliver (keyRoom : Nat) (dataRoom : Option Nat) (place : Place) :
    Inside (deliver keyRoom dataRoom place) hashp := by
  cases place with
  | «at» crs => exact passes_bind (inside_cursorRead _ _ _) fun _ _ _ => passes_pure _
  | notFound crs => exact passes_pure _
  | failed crs => exact passes_pure _

theorem inside_releaseCursor (crs : Crs) : Inside (releaseCursor crs) hashp := by
  unfold releaseCursor
  split
  · exact passes_pure _
  · exact inside_putPage _ _

theorem inside_cursorOvfl (crs : Crs) (nextp : Nat) : Inside (cursorOvfl crs nextp) hashp := by
  refine passes_bind (inside_getPage _ _ _) fun r _ _ => ?_
  split
  · exact passes_pure _
  · exact passes_pure _

theorem inside_cursorBucket {b : Nat} (crs : Crs) (low : b ≤ hashp.hdr.maxBucket) :
    Inside (cursorBucket crs b) hashp := by
  refine passes_bind (passes_read_bind ?_) fun _ _ _ => passes_bind (inside_getPage _ _ _) fun r _ _ => ?_
  · rw [if_neg (not_lt.mpr low)]
    exact passes_pure _
  · split
    · exact passes_pure _
    · exact passes_pure _

end Calls

theorem maxBucket_kept {α : Type} {m : Run α} (keeps : Prog.Keeps fixed m) {hashp hashp' : Htab} {a : α}
    (run : m.Returns hashp a hashp') : hashp'.hdr.maxBucket = hashp.hdr.maxBucket :=
  congrArg (fun f => Hashhdr.maxBucket f.1) (keeps hashp a hashp' run)

theorem keeps_noteBeyond (b : Nat) : Prog.Keeps fixed (noteBeyond b) :=
  Prog.keeps_bind Prog.keeps_read fun _ => Prog.keeps_ite (Prog.keeps_mark _) (Prog.keeps_pure _)

theorem keeps_cursorBucket (crs : Crs) (b : Nat) : Prog.Keeps fixed (cursorBucket crs b) := by
  refine Prog.keeps_bind (keeps_noteBeyond b) fun _ => Prog.keeps_bind (keeps_getPage _ _ rfl) fun r => ?_
  split
  · exact Prog.keeps_pure _
  · exact Prog.keeps_pure _

theorem cursorBucket_bucket {crs crs' : Crs} {b : Nat} {hashp hashp' : Htab}
    (run : (cursorBucket crs b).Returns hashp crs' hashp') : crs'.bucket = b := by
  rw [cursorBucket, noteBeyond_returns.bind] at run
  obtain ⟨r, mid, _, rest⟩ := Prog.returns_bind.mp run
  split at rest
  · obtain ⟨rfl, _⟩ := Prog.returns_pure.mp rest
    rfl
  · obtain ⟨rfl, _⟩ := Prog.returns_pure.mp rest
    rfl

section Loops

variable {hashp : Htab} {crs : Crs}

theorem inside_skipEmpty {last : Nat → Bool} {step : Nat → Nat} {max : Nat}
    (stays : ∀ b ≤ max, last b = false → step b ≤ max) (fuel : Nat)
    (top : hashp.hdr.maxBucket = max) (low : crs.bucket ≤ max) :
    Inside (skipEmpty last step fuel crs) hashp := by
  induction fuel generalizing hashp crs with
  | zero => exact passes_halt _
  | succ fuel ih =>
    unfold skipEmpty
    split
    · exact passes_pure _
    · refine passes_bind (passes_reads _) fun p s run => passes_ite ?_ (passes_pure _)
      obtain rfl : hashp = s := by cases run; rfl
      refine passes_bind (inside_putPage _ _) fun _ mid put => ?_
      have top' := (maxBucket_kept (keeps_putPage _ _) put).trans top
      by_cases done : last crs.bucket = true
      · rw [if_pos done]
        exact passes_pure _
      · rw [if_neg done]
        have next := stays crs.bucket low (by simpa using done)
        refine passes_bind (inside_cursorBucket _ (by rw [top']; exact next)) fun crs' mid' get => ?_
        refine ih ((maxBucket_kept (keeps_cursorBucket _ _) get).trans top') ?_
        rw [cursorBucket_bucket get]
        exact next

theorem stays_up {max : Nat} (b : Nat) (low : b ≤ max) (on : (b == max) = false) : u32 (b + 1) ≤ max := by
  have ne : b ≠ max := by simpa using on
  simp only [u32]
  omega

theorem stays_down {max : Nat} (b : Nat) (low : b ≤ max) (on : (b == 0) = false) :
    u32 (b + 0xffffffff) ≤ max := by
  have ne : b ≠ 0 := by simpa using on
  simp only [u32]
  omega

theorem inside_settledNext (place : Place) : Inside (match place with
    | .at crs => pure (.at { crs with pgndx := 0 })
    | place => pure (place.settle crs false)) hashp := by
  cases place with
  | «at» crs => exact passes_pure _
  | notFound crs => exact passes_pure _
  | failed crs => exact passes_pure _

theorem inside_settledPrev (place : Place) : Inside (match place with
    | .at crs =>
      match crs.pagep with
      | none => Prog.halt .segv
      | some pagep => do
        let p ← page pagep
        pure (.at { crs with pgndx := (p.numEnt + 65535) % 65536 })
    | place => pure (place.settle crs false)) hashp := by
  cases place with
  | «at» crs =>
    dsimp only
    split
    · exact passes_halt _
    · exact passes_bind (passes_reads _) fun _ _ _ => passes_pure _
  | notFound crs => exact passes_pure _
  | failed crs => exact passes_pure _

theorem inside_cursorNext : Inside (cursorNext crs) hashp := by
  unfold cursorNext
  split
  · exact passes_halt _
  · refine passes_read_bind (passes_bind (passes_reads _) fun p s run => passes_ite ?_ (passes_pure _))
    obtain rfl : hashp = s := by cases run; rfl
    refine passes_bind (inside_putPage _ _) fun _ mid put => ?_
    have top := maxBucket_kept (keeps_putPage _ _) put
    by_cases final : hashp.hdr.maxBucket ≤ crs.bucket ∧ p.nextPgno = invalidPgno
    · rw [if_pos final]
      exact passes_pure _
    · rw [if_neg final]
      by_cases none : p.nextPgno = invalidPgno
      · have more : crs.bucket < hashp.hdr.maxBucket := by
          by_contra full
          exact final ⟨not_lt.mp full, none⟩
        have next : u32 (crs.bucket + 1) ≤ hashp.hdr.maxBucket := by
          simp only [u32]
          omega
        rw [if_pos none]
        refine passes_bind (inside_cursorBucket _ (by rw [top]; exact next)) fun crs' s get => ?_
        have top' := (maxBucket_kept (keeps_cursorBucket _ _) get).trans top
        rw [← cursorBucket_bucket get] at next
        exact passes_bind (inside_skipEmpty stays_up _ top' next) fun place _ _ => inside_settledNext place
      · rw [if_neg none]
        exact passes_bind (inside_cursorOvfl _ _) fun place _ _ => inside_settledNext place

theorem inside_cursorPrev (low : crs.bucket ≤ hashp.hdr.maxBucket) : Inside (cursorPrev crs) hashp := by
  unfold cursorPrev
  split
  · exact passes_halt _
  · refine passes_bind (passes_reads _) fun p s run => passes_ite ?_ (passes_pure _)
    obtain rfl : hashp = s := by cases run; rfl
    refine passes_bind (inside_putPage _ _) fun _ mid put => ?_
    have top := maxBucket_kept (keeps_putPage _ _) put
    by_cases final : crs.bucket = 0 ∧ p.nextPgno = invalidPgno
    · rw [if_pos final]
      exact passes_pure _
    · rw [if_neg final]
      by_cases none : p.nextPgno = invalidPgno
      · have next : u32 (crs.bucket + 0xffffffff) ≤ hashp.hdr.maxBucket := by
          refine stays_down crs.bucket low ?_
          simpa using fun zero => final ⟨zero, none⟩
        rw [if_pos none]
        refine passes_bind (inside_cursorBucket _ (by rw [top]; exact next)) fun crs' s get => ?_
        by_cases lost : crs'.pagep.isNone = true
        · rw [if_pos lost]
          exact passes_halt _
        · rw [if_neg lost]
          have top' := (maxBucket_kept (keeps_cursorBucket _ _) get).trans top
          rw [← cursorBucket_bucket get] at next
          exact passes_bind (inside_skipEmpty stays_down _ top' next) fun place _ _ => inside_settledPrev place
      · rw [if_neg none]
        exact passes_bind (inside_cursorOvfl _ _) fun place _ _ => inside_settledPrev place

theorem inside_skipLast {max : Nat} (fuel : Nat) (top : hashp.hdr.maxBucket = max)
    (low : crs.bucket ≤ max)
    (some : crs.bucket = 0 → ∀ id, crs.pagep = some id → (hashp.mp.bkt id).page.numEnt ≠ 0) :
    Inside (skipLast fuel crs) hashp := by
  induction fuel generalizing hashp crs with
  | zero => exact passes_halt _
  | succ fuel ih =>
    unfold skipLast
    split
    · exact passes_pure _
    · rename_i id eq
      refine passes_bind (passes_reads _) fun p s run => ?_
      obtain ⟨rfl, rfl⟩ : (hashp.mp.bkt id).page = p ∧ hashp = s := by cases run; exact ⟨rfl, rfl⟩
      by_cases empty : (hashp.mp.bkt id).page.numEnt = 0
      · rw [if_pos empty]
        refine passes_bind (inside_putPage _ _) fun _ mid put => ?_
        have top' := (maxBucket_kept (keeps_putPage _ _) put).trans top
        have next := stays_down crs.bucket low (by simpa using fun zero => some zero id eq empty)
        refine passes_bind (inside_cursorBucket _ (by rw [top']; exact next)) fun crs' mid' get => ?_
        have top'' := (maxBucket_kept (keeps_cursorBucket _ _) get).trans top'
        split
        · exact passes_pure _
        · rename_i id' eq'
          refine passes_bind (passes_reads _) fun p' s' run' => ?_
          obtain ⟨rfl, rfl⟩ : (mid'.mp.bkt id').page = p' ∧ mid' = s' := by
            cases run'
            exact ⟨rfl, rfl⟩
          by_cases first : crs'.bucket = 0 ∧ (mid'.mp.bkt id').page.numEnt = 0
          · rw [if_pos first]
            exact passes_bind (inside_putPage _ _) fun _ _ _ => passes_pure _
          · rw [if_neg first]
            refine ih top'' ?_ fun zero j same none => ?_
            · rw [cursorBucket_bucket get]
              exact next
            · rw [eq'] at same
              cases same
              exact first ⟨zero, none⟩
      · rw [if_neg empty]
        exact passes_pure _

end Loops

section Ends

variable {h₀ hashp : Htab} {img : Image h₀} {crs : Crs} {b : Nat}

theorem inside_skipFirst (h : Holds img hashp crs b) (low : b ≤ h₀.hdr.maxBucket)
    (ends : ∃ a, b ≤ a ∧ a ≤ h₀.hdr.maxBucket ∧ img.chain a ≠ []) (fuel : Nat) :
    Inside (skipFirst h₀.hdr.maxBucket fuel crs) hashp := by
  have bound := img.buckets
  induction fuel generalizing hashp crs b with
  | zero => exact passes_halt _
  | succ fuel ih =>
    obtain ⟨id, eq, hand⟩ := h.hand
    have empty := h.serves.empty_iff low hand
    simp only [skipFirst, eq]
    refine page_returns.passes (passes_reads _) ?_
    by_cases none : img.chain b = []
    · obtain ⟨a, above, below, some⟩ := ends
      have ne : a ≠ b := fun same => some (same ▸ none)
      have number : u32 (crs.bucket + 1) = b + 1 := by
        rw [h.bucket]
        exact u32_succ (by omega)
      obtain ⟨mid, put, serves, _⟩ := putPage_returns h.serves hand
      obtain ⟨id', mid', get, holds⟩ := cursorBucket_returns serves { crs with pagep := .none } h.key
        (show b + 1 < 0x80000000 by omega)
      have next : b + 1 ≤ h₀.hdr.maxBucket := by omega
      rw [if_pos ⟨empty.mpr none, by rw [h.bucket]; exact low⟩]
      refine put.passes (inside_putPage _ _) ?_
      rw [number]
      refine get.passes (inside_cursorBucket _ (by rw [serves.hdr]; exact next)) ?_
      exact ih holds next ⟨a, by omega, below, some⟩
    · rw [if_neg fun both => none (empty.mp both.1), h.bucket, if_neg (not_lt.mpr low)]
      exact passes_pure _

theorem inside_cursorFirst (h : Loose img hashp crs)
    (ends : ∃ a ≤ h₀.hdr.maxBucket, img.chain a ≠ []) : Inside (cursorFirst crs) hashp := by
  obtain ⟨start, release, serves⟩ := releaseCursor_returns h
  obtain ⟨id', mid, get, holds⟩ := cursorBucket_returns serves { crs with pagep := none } h.key
    (show 0 < 0x80000000 by decide)
  obtain ⟨a, low, some⟩ := ends
  refine release.passes (inside_releaseCursor crs) (passes_read_bind ?_)
  refine get.passes (inside_cursorBucket _ (Nat.zero_le _)) ?_
  rw [serves.hdr]
  exact passes_bind (inside_skipFirst holds (Nat.zero_le _) ⟨a, Nat.zero_le a, low, some⟩ _)
    fun _ _ _ => passes_pure _

theorem inside_cursorLast (h : Loose img hashp crs)
    (ends : 0 < h₀.hdr.maxBucket ∨ img.chain 0 ≠ []) : Inside (cursorLast crs) hashp := by
  obtain ⟨start, release, serves⟩ := releaseCursor_returns h
  obtain ⟨id', mid, get, holds⟩ := cursorBucket_returns serves { crs with pagep := none } h.key
    img.buckets
  refine release.passes (inside_releaseCursor crs) (passes_read_bind ?_)
  rw [serves.hdr]
  refine get.passes (inside_cursorBucket _ (by rw [serves.hdr])) ?_
  refine passes_bind (inside_skipLast _ (congrArg Hashhdr.maxBucket holds.serves.hdr) le_rfl ?_)
    fun _ _ _ => passes_pure _
  intro zero id same none
  have one : h₀.hdr.maxBucket = 0 := zero
  obtain ⟨id'', eq, hand⟩ := holds.hand
  rw [eq] at same
  cases same
  rw [one] at hand
  exact ends.resolve_left (by omega) ((holds.serves.empty_iff (Nat.zero_le _) hand).mp none)

theorem skipFirst_asks (h : Holds img hashp crs b) (low : b ≤ h₀.hdr.maxBucket)
    (none : img.chain b = []) (fuel : Nat)
    (inside : Inside (skipFirst h₀.hdr.maxBucket (fuel + 1) crs) hashp) : ∃ mid, img.Serves mid ∧
      Inside (cursorBucket { crs with pagep := .none } (b + 1) >>= skipFirst h₀.hdr.maxBucket fuel) mid := by
  have bound := img.buckets
  obtain ⟨id, eq, hand⟩ := h.hand
  have empty := (h.serves.empty_iff low hand).mpr none
  obtain ⟨mid, put, serves, _⟩ := putPage_returns h.serves hand
  have number : u32 (crs.bucket + 1) = b + 1 := by
    rw [h.bucket]
    exact u32_succ (by omega)
  simp only [skipFirst, eq] at inside
  have turn := inside.rest page_returns
  rw [if_pos ⟨empty, by rw [h.bucket]; exact low⟩, number] at turn
  exact ⟨mid, serves, turn.rest put⟩

theorem skipFirst_beyond {n : Nat} (h : Holds img hashp crs b) (last : b + n = h₀.hdr.maxBucket)
    (none : ∀ a, b ≤ a → a ≤ h₀.hdr.maxBucket → img.chain a = []) (fuel : Nat)
    (enough : n + 1 ≤ fuel) : ¬Inside (skipFirst h₀.hdr.maxBucket fuel crs) hashp := by
  have bound := img.buckets
  intro inside
  induction n generalizing hashp crs b fuel with
  | zero =>
    obtain ⟨fuel, rfl⟩ := Nat.exists_eq_add_of_le' enough
    obtain ⟨mid, serves, asks⟩ := skipFirst_asks h (by omega) (none b le_rfl (by omega)) _ inside
    refine asks.first.first .beyond ?_ rfl
    have past : mid.hdr.maxBucket < b + 1 := by
      rw [serves.hdr]
      omega
    rw [noteBeyond, Prog.run_read_bind, if_pos past]
    exact List.mem_singleton_self _
  | succ n ih =>
    obtain ⟨fuel, rfl⟩ := Nat.exists_eq_add_of_le' enough
    obtain ⟨mid, serves, asks⟩ := skipFirst_asks h (by omega) (none b le_rfl (by omega)) (fuel + (n + 1)) inside
    obtain ⟨id', mid', get, holds⟩ := cursorBucket_returns serves { crs with pagep := .none } h.key
      (show b + 1 < 0x80000000 by omega)
    exact ih holds (by omega) (fun a above => none a (by omega)) (fuel + (n + 1)) (by omega)
      (asks.rest get)

theorem cursorFirst_beyond (h : Loose img hashp crs)
    (none : ∀ a ≤ h₀.hdr.maxBucket, img.chain a = []) : ¬Inside (cursorFirst crs) hashp := by
  have bound := img.buckets
  obtain ⟨start, release, serves⟩ := releaseCursor_returns h
  obtain ⟨id', mid, get, holds⟩ := cursorBucket_returns serves { crs with pagep := .none } h.key
    (show 0 < 0x80000000 by decide)
  intro inside
  have skip := ((inside.rest release).rest (Prog.returns_read.mpr ⟨rfl, rfl⟩)).rest get
  rw [serves.hdr] at skip
  refine skipFirst_beyond holds (Nat.zero_add _) (fun a _ => none a) _ ?_ skip.first
  simp only [pageFuel]
  omega

end Ends

section Sessions

variable {h₀ hashp : Htab} {img : Image h₀} {crs : Crs} {pos : Position} {flags keyRoom : Nat}
  {dataRoom : Option Nat}

/-- The calls for which the cursor has something to begin with: the first pair is asked for of a
database that has one, the last of one that has a pair or more than one bucket, and a step is
made from a page in hand. -/
def Crs.Sound (crs : Crs) (img : Image h₀) (flags : Nat) : Prop :=
  if crs.flag flags = ffdbFirst then img.pairs ≠ []
  else if crs.flag flags = ffdbLast then img.pairs ≠ [] ∨ 0 < h₀.hdr.maxBucket
  else crs.pagep ≠ none

/-- The cursor calls made so far, each with something to begin with. -/
inductive Session (img : Image h₀) : Htab → Crs → Prop
  | start {hashp : Htab} (serves : img.Serves hashp) : Session img hashp (hashCursor true)
  | call {hashp hashp' : Htab} {crs : Crs} {flags keyRoom : Nat} {dataRoom : Option Nat}
      {r : Int × Crs × List UInt8 × List UInt8} (before : Session img hashp crs)
      (known : CursorFlag flags) (sound : crs.Sound img flags)
      (run : (cursorGet crs keyRoom dataRoom flags).Returns hashp r hashp') :
      Session img hashp' r.2.1

/-- The call asks for no bucket after the last, and comes back from an end or from a slot of
the database, with success if the buffers have room for its pair. -/
structure Safe (img : Image h₀) (hashp : Htab) (crs : Crs) (keyRoom : Nat) (dataRoom : Option Nat)
    (flags : Nat) : Prop where
  inside : Inside (cursorGet crs keyRoom dataRoom flags) hashp
  answer : ∃ r hashp', (cursorGet crs keyRoom dataRoom flags).Returns hashp r hashp' ∧
    (r.1 = ffdbNotFound ∨ ∃ y, StandsAt img hashp' r.2.1 y ∧
      (img.Fits y.page y.slot keyRoom dataRoom → r.1 = 0))

theorem Poised.sound_iff (h : Poised img hashp crs pos) (known : CursorFlag flags) :
    crs.Sound img flags ↔ img.Sound pos flags := by
  unfold Crs.Sound Image.Sound
  rw [h.flag flags]
  by_cases first : pos.flag flags = ffdbFirst
  · simp only [if_pos first]
  · by_cases last : pos.flag flags = ffdbLast
    · simp only [if_neg first, if_pos last]
    · simp only [if_neg first, if_neg last]
      cases pos with
      | fresh =>
        rcases known with rfl | rfl | rfl | rfl
        · exact absurd rfl first
        · exact absurd rfl last
        · exact absurd rfl first
        · exact absurd rfl last
      | on x =>
        obtain ⟨id, eq, _⟩ := h.hand
        simp [eq]
      | ended => simp [h.1.pagep]

theorem cursorGet_poises (whole : img.Whole) (h : Poised img hashp crs pos) (known : CursorFlag flags)
    (sound : img.Sound pos flags) (keyRoom : Nat) (dataRoom : Option Nat) : ∃ r hashp' pos',
      (cursorGet crs keyRoom dataRoom flags).Returns hashp r hashp' ∧ Poised img hashp' r.2.1 pos' := by
  obtain ⟨r, hashp', run, answers⟩ := cursorGet_answers whole h known sound keyRoom dataRoom
  cases answers with
  | @pair crs' y _ _ stands => exact ⟨_, hashp', .on y, run, stands⟩
  | @refused crs' y _ _ _ stands => exact ⟨_, hashp', .on y, run, stands⟩
  | nothing _ ended serves => exact ⟨_, hashp', .ended, run, ended, serves⟩

theorem Session.poised (whole : img.Whole) (session : Session img hashp crs) :
    ∃ pos, Poised img hashp crs pos := by
  induction session with
  | start serves => exact ⟨.fresh, rfl, serves⟩
  | @call hashp hashp' crs flags keyRoom dataRoom r before known sound run ih =>
    obtain ⟨pos, poised⟩ := ih
    obtain ⟨r', mid, pos', run', poised'⟩ :=
      cursorGet_poises whole poised known ((poised.sound_iff known).mp sound) keyRoom dataRoom
    obtain ⟨rfl, rfl⟩ := run.unique run'
    exact ⟨pos', poised'⟩

theorem Poised.low (h : Poised img hashp crs pos) :
    crs.pagep ≠ none → crs.bucket ≤ hashp.hdr.maxBucket := by
  intro hand
  cases pos with
  | fresh =>
    rw [h.1] at hand
    exact absurd rfl hand
  | on x =>
    rw [h.bucket, h.serves.hdr]
    exact h.low
  | ended => exact absurd h.1.pagep hand

theorem inside_cursorMove (h : Poised img hashp crs pos) (sound : crs.Sound img flags) :
    Inside (cursorMove crs (pos.flag flags)) hashp := by
  unfold Crs.Sound at sound
  rw [h.flag flags] at sound
  unfold cursorMove
  by_cases first : pos.flag flags = ffdbFirst
  · simp only [if_pos first] at sound ⊢
    exact inside_cursorFirst h.loose (pairs_ne_nil.mp sound)
  · by_cases last : pos.flag flags = ffdbLast
    · simp only [if_neg first, if_pos last] at sound ⊢
      refine inside_cursorLast h.loose ?_
      rw [pairs_ne_nil] at sound
      rcases sound with ⟨a, low, some⟩ | more
      · by_cases zero : a = 0
        · exact .inr (zero ▸ some)
        · exact .inl (by omega)
      · exact .inl more
    · simp only [if_neg first, if_neg last] at sound ⊢
      split_ifs
      · exact inside_cursorNext
      · exact inside_cursorPrev (h.low sound)

theorem safe_of_sound (whole : img.Whole) (h : Poised img hashp crs pos) (known : CursorFlag flags)
    (sound : crs.Sound img flags) : Safe img hashp crs keyRoom dataRoom flags := by
  constructor
  · rw [cursorGet_poised h known]
    exact passes_bind (inside_cursorMove h sound) fun place _ _ => inside_deliver _ _ place
  · obtain ⟨r, hashp', run, answers⟩ :=
      cursorGet_answers whole h known ((h.sound_iff known).mp sound) keyRoom dataRoom
    refine ⟨r, hashp', run, ?_⟩
    cases answers with
    | @pair crs' y _ _ stands => exact .inr ⟨y, stands, fun _ => rfl⟩
    | @refused crs' y _ _ short stands => exact .inr ⟨y, stands, fun fits => absurd fits short⟩
    | nothing => exact .inl rfl

theorem sound_of_safe (h : Poised img hashp crs pos) (known : CursorFlag flags)
    (safe : Safe img hashp crs keyRoom dataRoom flags) : crs.Sound img flags := by
  obtain ⟨inside, r, hashp', run, _⟩ := safe
  rw [cursorGet_poised h known] at inside run
  have move := inside.first
  obtain ⟨place, mid, moved, _⟩ := Prog.returns_bind.mp run
  unfold Crs.Sound
  rw [h.flag flags]
  unfold cursorMove at move moved
  by_cases first : pos.flag flags = ffdbFirst
  · simp only [if_pos first] at move ⊢
    intro empty
    refine cursorFirst_beyond h.loose (fun a low => ?_) move
    by_contra some
    exact pairs_ne_nil.mpr ⟨a, low, some⟩ empty
  · by_cases last : pos.flag flags = ffdbLast
    · simp only [if_neg first, if_pos last] at moved ⊢
      by_contra none
      rw [not_or, not_not] at none
      refine cursorLast_stuck h.loose (by omega) ?_ moved
      by_contra some
      exact pairs_ne_nil.mpr ⟨0, Nat.zero_le _, some⟩ none.1
    · simp only [if_neg first, if_neg last] at moved ⊢
      intro lost
      split_ifs at moved
      · simp [cursorNext, lost] at moved
      · simp [cursorPrev, lost] at moved

/-- In every session whose calls had something to begin with, the next call is safe exactly
when it has, too. -/
theorem cursor_safe (whole : img.Whole) (session : Session img hashp crs) (known : CursorFlag flags)
    (keyRoom : Nat) (dataRoom : Option Nat) :
    Safe img hashp crs keyRoom dataRoom flags ↔ crs.Sound img flags := by
  obtain ⟨pos, poised⟩ := session.poised whole
  exact ⟨sound_of_safe poised known, safe_of_sound whole poised known⟩

theorem cursor_safe_three : ∃ (crs : Crs) (mid : Htab), Session threePairsImage mid crs ∧
    Poised threePairsImage mid crs (.on ⟨0, 3, 0, [5]⟩) ∧
    Safe threePairsImage mid crs 0 none ffdbNext ∧ Safe threePairsImage mid crs 1 (some 1) ffdbPrev := by
  have some : threePairsImage.pairs ≠ [] := by
    rw [threePairs_pairs]
    exact List.cons_ne_nil _ _
  have fresh : Poised threePairsImage (tableOn oneBucket smallHdr 6 threePairs) (hashCursor true) .fresh :=
    ⟨rfl, threePairs_serves⟩
  have first : threePairsImage.Goal .fresh ffdbNext ⟨0, 3, 0, [5]⟩ :=
    (⟨Nat.le_refl 0, fun a below => absurd below (Nat.not_lt_zero a), rfl, rfl⟩ : Image.First _ _)
  obtain ⟨crs, mid, run, stands⟩ :=
    yields_goal threePairs_whole fresh (.inr (.inr (.inl rfl))) some first 0 none ⟨.inl rfl, fun _ no => by cases no⟩
  have session : Session threePairsImage mid crs :=
    Session.call (.start threePairs_serves) (.inr (.inr (.inl rfl))) some run
  have on : Poised threePairsImage mid crs (.on ⟨0, 3, 0, [5]⟩) := stands
  have next : CursorFlag ffdbNext := .inr (.inr (.inl rfl))
  have prev : CursorFlag ffdbPrev := .inr (.inr (.inr rfl))
  exact ⟨crs, mid, session, on,
    (cursor_safe threePairs_whole session next 0 none).mpr ((on.sound_iff next).mpr (stands.sound ffdbNext)),
    (cursor_safe threePairs_whole session prev 1 (Option.some 1)).mpr ((on.sound_iff prev).mpr (stands.sound ffdbPrev))⟩

/-- `FFDB_NEXT` is given the only pair, then finds no more, and then reads through the page the
cursor no longer has. -/
theorem next_after_notFound : ∃ (crs crs' : Crs) (mid hashp' : Htab),
    Session (onePairImage readsBack_seven) mid crs ∧
      (cursorGet crs 0 none ffdbNext).Returns mid (ffdbNotFound, crs', [], []) hashp' ∧
      ((cursorGet crs' 0 none ffdbNext).run hashp').1 = .halt .segv := by
  have whole := onePair_whole readsBack_seven
  have some : (onePairImage readsBack_seven).pairs ≠ [] := by
    rw [(by decide +kernel : (onePairImage readsBack_seven).pairs = [([7], [42])])]
    exact List.cons_ne_nil _ _
  have known : CursorFlag ffdbNext := .inr (.inr (.inl rfl))
  have fresh : Poised (onePairImage readsBack_seven)
    (tableOn defaults defaultHdr 5 (onePair [7] [42])) (hashCursor true) .fresh :=
    ⟨rfl, onePair_serves readsBack_seven⟩
  have first : (onePairImage readsBack_seven).Goal .fresh ffdbNext ⟨0, 3, 0, []⟩ :=
    (⟨Nat.le_refl 0, fun a below => absurd below (Nat.not_lt_zero a), rfl, rfl⟩ : Image.First _ _)
  obtain ⟨crs, mid, run, stands⟩ :=
    yields_goal whole fresh known some first 0 none ⟨.inl rfl, fun _ no => by cases no⟩
  have session : Session (onePairImage readsBack_seven) mid crs :=
    Session.call (.start (onePair_serves readsBack_seven)) known some run
  have on : Poised (onePairImage readsBack_seven) mid crs (.on ⟨0, 3, 0, []⟩) := stands
  obtain ⟨r, hashp', run', answers⟩ := cursorGet_answers whole on known (stands.sound ffdbNext) 0 none
  have alone : ∀ y, ¬(onePairImage readsBack_seven).Next ⟨0, 3, 0, []⟩ y := by
    intro y next
    cases next with
    | slot inside =>
      rw [show ((onePairImage readsBack_seven).view 3).numEnt = 1 from readsBack_seven.slots] at inside
      exact absurd rfl inside.ne
    | bucket _ up low => exact absurd (up.trans_le low) (Nat.lt_irrefl 0)
  cases answers with
  | @nothing crs' _ ended serves =>
    have past : Poised (onePairImage readsBack_seven) hashp' crs' .ended := ⟨ended, serves⟩
    refine ⟨crs, crs', mid, hashp', session, run', ?_⟩
    rw [cursorGet_poised past known]
    have lost : cursorMove crs' (Position.ended.flag ffdbNext) = Prog.halt .segv := by
      rw [cursorMove, if_neg (by decide), if_neg (by decide), if_pos (by decide), cursorNext,
        ended.pagep]
    rw [lost]
    rfl
  | pair next => exact absurd next (alone _)
  | refused next => exact absurd next (alone _)

end Sessions

end Htab
end FileHash
