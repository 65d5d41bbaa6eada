import FileHash.OpenedTable
import FileHash.PageInvariants
import FileHash.PoolThreads

/-! One cache entry for a page. Each call keeps the links of the pool exact as long as no page
is made or renamed under a number that has an entry: the request for a page does not look. -/
namespace FileHash

open Lib (Prog)
open Lib.Prog (Triple Stays triple_mono triple_pure triple_halt triple_read_bind triple_modify triple_bind
  triple_mark triple_zoom triple_ite stays_pure stays_read stays_reads stays_mark stays_modify stays_bind
  stays_ite)

namespace Pagepool

variable {pgp : Pagepool} {l : List Nat} {tid p id n : Nat} {ε : Type} {adm : ε → Prop}

/-- At most one entry for a page number, each on the chain of its number and once on the list,
and all of them counted. -/
structure Exact (pgp : Pagepool) : Prop extends Linked pgp where
  counted : pgp.Counted

structure Has (l : List Nat) (pgp : Pagepool) : Prop extends Exact pgp where
  known : ∀ id ∈ l, id ∈ pgp.lqh

/-- The same but for entry `id`, which is off the lists and ready to take a page. -/
structure Lacks (l : List Nat) (id : Nat) (pgp : Pagepool) : Prop extends Linked pgp where
  out : id ∉ pgp.lqh
  low : id < pgp.brk
  counted : pgp.curcache = pgp.lqh.length + 1
  known : ∀ j ∈ l, j = id ∨ j ∈ pgp.lqh

structure SameLinks (pgp pgp' : Pagepool) : Prop where
  lqh : pgp'.lqh = pgp.lqh
  hqh : pgp'.hqh = pgp.hqh
  brk : pgp'.brk = pgp.brk
  curcache : pgp'.curcache = pgp.curcache
  pgno : ∀ j, (pgp'.bkt j).pgno = (pgp.bkt j).pgno

theorem Exact.same {pgp' : Pagepool} (h : Exact pgp) (same : SameLinks pgp pgp') : Exact pgp' where
  toLinked := h.toLinked.congr same.lqh same.hqh same.brk fun j _ => same.pgno j
  counted := by
    unfold Counted
    rw [same.curcache, same.lqh]
    exact h.counted

theorem Has.same {pgp' : Pagepool} (h : Has l pgp) (same : SameLinks pgp pgp') : Has l pgp' where
  toExact := h.toExact.same same
  known j mem := by
    rw [same.lqh]
    exact h.known j mem

theorem Lacks.same {pgp' : Pagepool} (h : Lacks l id pgp) (same : SameLinks pgp pgp') : Lacks l id pgp' where
  toLinked := h.toLinked.congr same.lqh same.hqh same.brk fun j _ => same.pgno j
  out := by rw [same.lqh]; exact h.out
  low := by rw [same.brk]; exact h.low
  counted := by rw [same.curcache, same.lqh]; exact h.counted
  known j mem := by rw [same.lqh]; exact h.known j mem

theorem SameLinks.cached {pgp' : Pagepool} (same : SameLinks pgp pgp') : pgp'.Cached p ↔ pgp.Cached p := by
  unfold Cached
  rw [same.lqh]
  simp only [same.pgno]

theorem sameLinks_setBkt {f : Bkt → Bkt} (keep : ∀ b, (f b).pgno = b.pgno) :
    SameLinks pgp (pgp.setBkt id f) := ⟨rfl, rfl, rfl, rfl, setBkt_pgno (keep _)⟩

theorem sameLinks_write (id : Nat) : SameLinks pgp (pgp.write id) where
  lqh := rfl
  hqh := rfl
  brk := rfl
  curcache := rfl
  pgno j := by
    by_cases same : j = id
    · rw [same, write_bkt_same]
    · rw [write_bkt_other same]

theorem sameLinks_syncI (n : Nat) : SameLinks pgp (pgp.syncI n) where
  lqh := writeList_lqh _
  hqh := writeList_hqh _
  brk := writeList_brk _
  curcache := writeList_curcache _
  pgno j := (written_writeList syncI_free j).pgno

theorem Has.unlink (h : Has l pgp) (mem : id ∈ pgp.lqh) : Lacks l id (pgp.unlink id) where
  toLinked := h.toLinked.unlink id
  out := h.toLinked.not_mem_unlink
  low := h.below id mem
  counted := by
    rw [unlink_curcache, h.counted, unlink_lqh, List.length_erase_of_mem mem]
    have := List.length_pos_of_mem mem
    omega
  known j mem := by
    rw [unlink_lqh, h.nodup.mem_erase_iff]
    by_cases same : j = id
    · exact .inl same
    · exact .inr ⟨same, h.known j mem⟩

theorem not_cached_unlink (free : ¬pgp.Cached p) : ¬(pgp.unlink id).Cached p := by
  rintro ⟨j, mem, number⟩
  exact free ⟨j, List.mem_of_mem_erase mem, number⟩

theorem Lacks.setBkt (h : Lacks l id pgp) (f : Bkt → Bkt) : Lacks l id (pgp.setBkt id f) where
  toLinked := h.toLinked.setBkt_of_not_mem h.out
  out := h.out
  low := h.low
  counted := h.counted
  known := h.known

theorem Lacks.not_cached_setBkt (h : Lacks l id pgp) (f : Bkt → Bkt) (free : ¬pgp.Cached p) :
    ¬(pgp.setBkt id f).Cached p := by
  rintro ⟨j, mem, number⟩
  rw [setBkt_pgno_of_not_mem h.out j mem] at number
  exact free ⟨j, mem, number⟩

theorem Lacks.link (h : Lacks l id pgp) (free : ¬pgp.Cached (pgp.bkt id).pgno) :
    Has (id :: l) (pgp.link id) where
  toLinked := h.toLinked.link h.out free h.low
  counted := by
    simp only [Counted, link_curcache, link_lqh, List.length_append, List.length_singleton]
    exact h.counted
  known j mem := by
    rw [link_lqh, List.mem_append, List.mem_singleton]
    rcases List.mem_cons.mp mem with same | mem
    · exact .inr same
    · exact (h.known j mem).symm

theorem Has.weaken (h : Has (id :: l) pgp) : Has l pgp :=
  { h with known := fun j mem => h.known j (List.mem_cons_of_mem _ mem) }

theorem has_evict (h : Has l pgp) (mem : id ∈ pgp.lqh) (free : ¬pgp.Cached p) :
    Lacks l id (evict tid pgp id) ∧ ¬(evict tid pgp id).Cached p := by
  have drop : ∀ {pgp'}, SameLinks pgp pgp' → Lacks l id ((pgp'.unlink id).setBkt id (freshBkt tid)) ∧
      ¬((pgp'.unlink id).setBkt id (freshBkt tid)).Cached p := by
    intro pgp' same
    have lacks : Lacks l id (pgp'.unlink id) := (h.same same).unlink (by rw [same.lqh]; exact mem)
    exact ⟨lacks.setBkt _, lacks.not_cached_setBkt _ (not_cached_unlink (mt same.cached.mp free))⟩
  unfold evict
  dsimp only
  by_cases dirty : (pgp.bkt id).dirty
  · rw [if_pos dirty, if_pos dirty]
    have out := drop (sameLinks_write id)
    exact ⟨out.1.same (sameLinks_syncI _), mt (sameLinks_syncI _).cached.mp out.2⟩
  · rw [if_neg dirty, if_neg dirty]
    exact drop ⟨rfl, rfl, rfl, rfl, fun _ => rfl⟩

theorem has_newBkt (h : Has l pgp) (free : ¬pgp.Cached p) :
    Lacks l pgp.brk (newBkt tid pgp).2 ∧ ¬(newBkt tid pgp).2.Cached p := by
  have out : pgp.brk ∉ pgp.lqh := fun mem => absurd (h.below _ mem) (lt_irrefl _)
  have grown : Lacks l pgp.brk { pgp with brk := pgp.brk + 1, curcache := pgp.curcache + 1 } :=
    { h.toLinked with
      below := fun j mem => (h.below j mem).trans (Nat.lt_succ_self _)
      out := out
      low := Nat.lt_succ_self _
      counted := congrArg (· + 1) h.counted
      known := fun j mem => .inr (h.known j mem) }
  exact ⟨grown.setBkt fun b => { freshBkt tid b with wqh := [] },
    grown.not_cached_setBkt (fun b => { freshBkt tid b with wqh := [] }) free⟩

theorem triple_obtainBkt : Triple adm (fun pgp => Has l pgp ∧ ¬pgp.Cached p) (obtainBkt tid)
    fun id pgp => Lacks l id pgp ∧ ¬pgp.Cached p := by
  refine triple_read_bind fun pgp start => ?_
  have fresh : Triple adm (fun t => t = pgp ∧ Has l t ∧ ¬t.Cached p)
      (do Prog.modify fun p => (newBkt tid p).2; pure pgp.brk)
      fun id pgp => Lacks l id pgp ∧ ¬pgp.Cached p := by
    refine triple_bind (triple_modify (Q := fun _ t => Lacks l pgp.brk t ∧ ¬t.Cached p) ?_) fun _ =>
      triple_pure fun _ done => done
    rintro _ ⟨rfl, has, free⟩
    exact has_newBkt has free
  refine triple_ite (fun _ => triple_ite (fun _ => triple_halt _) fun _ => ?_) fun _ => fresh
  split
  · rename_i victim found
    refine triple_bind (triple_modify (Q := fun _ t => Lacks l victim t ∧ ¬t.Cached p) ?_) fun _ =>
      triple_pure fun _ done => done
    rintro _ ⟨rfl, has, free⟩
    exact has_evict has (List.mem_of_find?_eq_some found) free
  · exact fresh

theorem Lacks.enter (h : Lacks l id pgp) (free : ¬pgp.Cached p) {f : Bkt → Bkt}
    (number : (f (pgp.bkt id)).pgno = p) : Has (id :: l) ((pgp.setBkt id f).link id) := by
  refine (h.setBkt f).link ?_
  rw [setBkt_same, number]
  exact h.not_cached_setBkt f free

theorem triple_loadNewPage (flags : PageFlags) :
    Triple adm (fun pgp => Has l pgp ∧ ¬pgp.Cached p) (loadNewPage tid p flags) fun id => Has (id :: l) := by
  refine triple_bind triple_obtainBkt fun id => triple_read_bind fun pgp start => ?_
  refine triple_bind (triple_modify (Q := fun _ t => Lacks l id t ∧ ¬t.Cached p ∧ (t.bkt id).pgno = p) ?_)
    fun _ => ?_
  · rintro _ ⟨rfl, lacks, free⟩
    refine ⟨lacks.setBkt _, lacks.not_cached_setBkt _ free, ?_⟩
    rw [setBkt_same]
    rfl
  refine triple_bind (triple_modify (Q := fun _ => Has (id :: l)) ?_) fun _ => ?_
  · rintro t ⟨lacks, free, rfl⟩
    exact lacks.link free
  split
  · exact triple_halt _
  · refine triple_bind (triple_modify (Q := fun _ => Has (id :: l)) fun t has => ?_) fun _ =>
      triple_pure fun _ has => has
    exact has.same (sameLinks_setBkt fun _ => rfl)

theorem triple_newPageI {flags : PageFlags} (request : flags.request = true) :
    Triple adm (fun pgp => Has l pgp ∧ ¬pgp.Cached p) (newPageI tid p flags) fun r => Has (r.1 :: l) := by
  refine triple_read_bind fun pgp start => triple_ite (fun _ => triple_halt _) fun _ => ?_
  refine triple_bind (triple_mono triple_obtainBkt (fun _ pre => pre.2) fun _ _ post => post) fun id => ?_
  rw [if_pos request]
  refine triple_bind (triple_modify (Q := fun _ t => Lacks l id t ∧ ¬t.Cached p) ?_) fun _ => ?_
  · rintro t ⟨lacks, free⟩
    exact ⟨lacks.same ⟨rfl, rfl, rfl, rfl, fun _ => rfl⟩, free⟩
  refine triple_bind (triple_modify (Q := fun _ t => Lacks l id t ∧ ¬t.Cached p ∧ (t.bkt id).pgno = p) ?_)
    fun _ => ?_
  · rintro t ⟨lacks, free⟩
    refine ⟨lacks.setBkt _, lacks.not_cached_setBkt _ free, ?_⟩
    rw [setBkt_same]
    rfl
  refine triple_bind (triple_modify (Q := fun _ => Has (id :: l)) ?_) fun _ => ?_
  · rintro t ⟨lacks, free, rfl⟩
    exact lacks.link free
  refine triple_bind (triple_modify (Q := fun _ => Has (id :: l)) fun t has => ?_) fun _ =>
    triple_pure fun _ has => has
  exact has.same (sameLinks_setBkt fun _ => rfl)

theorem Has.requeue (h : Has l pgp) (mem : id ∈ pgp.lqh) : Has (id :: l) ((pgp.unlink id).link id) := by
  refine (h.unlink mem).link ?_
  rintro ⟨j, memj, number⟩
  rw [unlink_lqh, h.nodup.mem_erase_iff] at memj
  exact memj.1 (h.unique j memj.2 id mem number)

def GetResult.got : GetResult → List Nat
  | .page mem => [mem]
  | _ => []

theorem hold_pgno (tid : Nat) (flags : PageFlags) (b : Bkt) : (applyFlags flags (hold tid b)).pgno = b.pgno := by
  unfold applyFlags hold
  split
  · rfl
  · rfl

theorem triple_getPage {flags : PageFlags} (old : flags.new = false) :
    Triple adm (Has l) (getPage tid p flags) fun r => Has (r.got ++ l) := by
  refine triple_read_bind fun pgp start => ?_
  refine triple_ite (fun _ => triple_pure fun _ pre => pre.2) fun _ => ?_
  rw [if_neg (by rw [old]; exact Bool.false_ne_true)]
  split
  · rename_i id found
    refine triple_ite (fun _ => triple_pure fun _ pre => pre.2) fun _ => ?_
    refine triple_bind (triple_modify (Q := fun _ => Has (id :: l)) ?_) fun _ => triple_pure fun _ has => has
    rintro _ ⟨rfl, has⟩
    have mem := (has.toLinked.find_eq_some.mp found).1
    exact (has.same (sameLinks_setBkt (hold_pgno tid flags))).requeue mem
  · rename_i missing
    have free : ∀ t, t = pgp ∧ Has l t → Has l t ∧ ¬t.Cached p := by
      rintro _ ⟨rfl, has⟩
      exact ⟨has, has.toLinked.find_eq_none.mp missing⟩
    refine triple_ite (fun _ => ?_) fun _ => ?_
    · refine triple_bind (triple_mono (triple_newPageI rfl) free fun _ _ post => post) fun r => ?_
      exact triple_pure fun _ has => has
    · refine triple_bind (triple_mono (triple_loadNewPage flags) free fun _ _ post => post) fun id => ?_
      exact triple_pure fun _ has => has

theorem stays_store (mem : Nat) (f : Page → Page) : Stays adm (Has l) (store mem f) :=
  stays_modify fun _ has => has.same (sameLinks_setBkt fun _ => rfl)

theorem stays_putPage (mem : Nat) (dirty : Bool) : Stays adm (Has l) (putPage mem dirty) :=
  stays_bind stays_read fun _ =>
    stays_ite (stays_modify fun _ has => has.same (sameLinks_setBkt fun _ => rfl)) (triple_halt _)

theorem Has.renumber (h : Has l pgp) {mem : Nat} (mine : mem ∈ pgp.lqh) (free : ¬pgp.Cached n) :
    Has l (pgp.renumber mem n) := by
  have linked := ((h.unlink mine).enter (f := fun b =>
    { b with dirty := true, ref := b.ref - 1, pgno := n, owner := 0, pinned := false })
    (not_cached_unlink free) rfl).weaken
  exact linked.same ⟨rfl, rfl, rfl, rfl, fun _ => rfl⟩

theorem triple_changePage {mem : Nat} (mine : mem ∈ l) :
    Triple adm (fun pgp => Has l pgp ∧ ¬pgp.Cached n) (changePage mem n) fun _ => Has l := by
  refine triple_read_bind fun pgp start => triple_ite (fun _ => triple_ite (fun _ => ?_) fun _ => ?_)
    fun _ => triple_halt _
  · refine triple_bind (triple_mono (stays_putPage mem false) (fun _ pre => pre.2.1) fun _ _ post => post)
      fun _ => triple_pure fun _ has => has
  · refine triple_bind (triple_modify (Q := fun _ => Has l) ?_) fun _ => triple_pure fun _ has => has
    rintro _ ⟨rfl, has, free⟩
    exact has.renumber (has.known mem mine) free

theorem triple_delete {mem : Nat} (mine : mem ∈ l) :
    Triple adm (Has l) (delete mem) fun _ => Has [] := by
  have none : ∀ {t : Pagepool}, Has l t → Has [] t := fun has =>
    ⟨has.toExact, fun _ mem => absurd mem List.not_mem_nil⟩
  have leave : Triple adm (Has l) (do
      Prog.modify fun p => p.unlink mem
      Prog.modify fun p => { p with curcache := p.curcache - 1 }
      pure true) fun _ => Has [] := by
    refine triple_bind (triple_modify (Q := fun _ => Lacks l mem) fun t has => ?_) fun _ => ?_
    · exact has.unlink (has.known mem mine)
    refine triple_bind (triple_modify (Q := fun _ => Has []) fun t lacks => ?_) fun _ =>
      triple_pure fun _ has => has
    refine ⟨⟨lacks.toLinked.congr rfl rfl rfl fun _ _ => rfl, ?_⟩, fun _ mem => absurd mem List.not_mem_nil⟩
    exact congrArg (· - 1) lacks.counted
  refine triple_read_bind fun pgp start => triple_mono (P := Has l) ?_ (fun _ pre => pre.2) fun _ _ post => post
  refine triple_ite (fun _ => triple_ite (fun _ => triple_ite (fun _ => ?_) fun _ => ?_) fun _ => triple_halt _)
    fun _ => triple_pure fun _ => none
  · exact triple_pure fun _ => none
  · refine triple_ite (fun _ => triple_bind (triple_modify (Q := fun _ => Has l) fun t has => ?_) fun _ => leave)
      fun _ => leave
    exact has.same (sameLinks_write mem)

end Pagepool

namespace Htab

open Pagepool (Has)

variable {l : List Nat} {adm : Event → Prop} {hashp : Htab}

def Sees (l : List Nat) (hashp : Htab) : Prop := Has l hashp.mp

theorem Sees.weaken {id : Nat} (h : Sees (id :: l) hashp) : Sees l hashp := Has.weaken h

theorem Sees.none (h : Sees l hashp) : Sees [] hashp := ⟨h.toExact, fun _ mem => absurd mem List.not_mem_nil⟩

theorem triple_pool {α : Type} {m : Prog Pagepool Event α} {P : Pagepool → Prop} {Q : α → Pagepool → Prop}
    (h : Triple adm P m Q) :
    Triple adm (fun hashp : Htab => P hashp.mp) (pool m) fun a hashp => Q a hashp.mp :=
  triple_zoom fun _ pre => triple_mono h (fun _ eq => eq ▸ pre) fun _ _ post => post

theorem tame_sees (l : List Nat) : Tame adm (Sees l) where
  note _ _ _ has := has
  splitBuf _ _ has := has
  currDpage _ _ has := has
  spares _ _ _ has := has
  freePages _ _ _ has := has
  store mem f := triple_pool (Pagepool.stays_store mem f)
  get p flags old := by
    refine triple_mono (triple_pool (Pagepool.triple_getPage old)) (fun _ pre => pre) fun r hashp has => ?_
    exact ⟨has.toExact, fun id mem => has.known id (List.mem_append_right _ mem)⟩
  put mem dirty := triple_pool (Pagepool.stays_putPage mem dirty)

theorem triple_fetch (p : Nat) {flags : PageFlags} (old : flags.new = false) :
    Triple adm (Sees l) (fetch p flags) fun r => Sees (r.toList ++ l) := by
  refine triple_bind (Mild.noteAgain p) fun _ => ?_
  refine triple_bind (triple_pool (Pagepool.triple_getPage old)) fun r => ?_
  cases r with
  | page mem =>
    exact triple_bind (triple_modify (Q := fun _ => Sees (mem :: l)) fun _ has => has) fun _ =>
      triple_pure fun _ has => has
  | wait mem => exact triple_halt _
  | error => exact triple_pure fun _ has => has

theorem triple_getPage (addr ty : Nat) {flags : PageFlags} (old : flags.new = false) :
    Triple adm (Sees l) (getPage addr ty flags) fun r => Sees (r.1.toList ++ l) := by
  refine triple_bind (Mild.address addr ty) fun p => triple_bind (tame_sees l).fails fun failed => ?_
  refine triple_ite (fun _ => triple_pure fun _ has => has) fun _ => ?_
  refine triple_bind (triple_fetch p old) fun r => ?_
  cases r with
  | none => exact triple_pure fun _ has => has
  | some mem =>
    have tame := @tame_sees adm (mem :: l)
    refine triple_bind (stays_reads _) fun _ => triple_ite (fun _ => ?_) fun _ => triple_pure fun _ has => has
    refine triple_bind (tame.initPage mem p ty) fun _ => triple_bind (Mild.noteSlip mem _) fun _ => ?_
    exact triple_pure fun _ has => has

theorem triple_noteDuplicate (never : ¬adm .duplicate) (p : Nat) :
    Triple adm (Sees l) (noteDuplicate p) fun _ hashp => Sees l hashp ∧ ¬hashp.mp.Cached p := by
  refine triple_read_bind fun hashp start => triple_ite (fun _ => ?_) fun missing => triple_pure ?_
  · exact triple_mark fun bad => absurd bad never
  · rintro _ ⟨rfl, has⟩
    rw [Option.isSome_iff_ne_none, ne_eq, not_not] at missing
    exact ⟨has, has.toLinked.find_eq_none.mp missing⟩

theorem stays_newPage (never : ¬adm .duplicate) (addr ty : Nat) : Stays adm (Sees l) (newPage addr ty) := by
  refine stays_bind (Mild.address addr ty) fun p => stays_bind (tame_sees l).fails fun failed => ?_
  refine stays_ite (stays_pure _) (triple_bind (triple_noteDuplicate never p) fun _ => ?_)
  refine triple_bind (triple_pool (Pagepool.triple_newPageI rfl)) fun r => ?_
  have tame := @tame_sees adm (r.1 :: l)
  refine triple_mono (Q := fun _ => Sees (r.1 :: l)) ?_ (fun _ has => has) fun _ _ => Sees.weaken
  refine stays_bind (stays_modify fun hashp => tame.note hashp _ _) fun _ => ?_
  exact stays_bind (tame.initPage _ _ _) fun _ => stays_bind (tame.putPage _ _) fun _ => stays_pure _

section Splits

theorem triple_poolDelete {mem : Nat} (mine : mem ∈ l) :
    Triple adm (Sees l) (poolDelete mem) fun _ => Sees [] := by
  refine triple_bind stays_read fun _ => triple_bind (triple_pool (Pagepool.triple_delete mine)) fun gone => ?_
  refine stays_ite (P := Sees []) ?_ ((tame_sees []).leak mem _)
  refine stays_bind stays_read fun _ => stays_bind (stays_mark _) fun _ => ?_
  exact stays_modify fun hashp => (@tame_sees adm []).note hashp _ _

theorem triple_deleteOvflPage {pagep : Nat} (mine : pagep ∈ l) :
    Triple adm (Sees l) (deleteOvflPage pagep) fun _ => Sees [] := by
  have tame := @tame_sees adm l
  refine triple_bind (tame.freeOvflpage pagep) fun gone => triple_ite (fun _ => ?_) fun _ => ?_
  · refine triple_bind (stays_reads _) fun p => triple_bind (tame.initPage _ _ _) fun _ => ?_
    exact triple_bind (Mild.noteSlip _ _) fun _ => triple_poolDelete mine
  · exact triple_mono (tame.putPage _ _) (fun _ has => has) fun _ _ => Sees.none

theorem triple_splitNext {oldbucket newbucket fuel : Nat}
    (rest : ∀ pagep, Triple adm (Sees [pagep]) (splitChain oldbucket newbucket fuel (some pagep)) fun _ => Sees [])
    (n : Nat) :
    Triple adm (Sees []) (do
      match (← getPage n hashOvflPage {}).1 with
      | none => pure 0
      | some pagep => splitChain oldbucket newbucket fuel (some pagep) : Run Int) fun _ => Sees [] := by
  refine triple_bind (triple_getPage _ _ rfl) fun r => ?_
  rcases r with ⟨_ | pagep, n'⟩
  · exact triple_pure fun _ has => has
  · exact rest pagep

theorem triple_splitChain (oldbucket newbucket fuel : Nat) (temp : Option Nat) :
    Triple adm (Sees temp.toList) (splitChain oldbucket newbucket fuel temp) fun _ => Sees [] := by
  induction fuel generalizing temp with
  | zero => exact triple_halt _
  | succ fuel ih =>
    have next := @triple_splitNext adm oldbucket newbucket fuel (fun pagep => ih (some pagep))
    refine triple_bind ((tame_sees _).splitSlots _ _ _ _ _) fun _ => triple_bind (Tame.splitPage _) fun p => ?_
    cases temp with
    | none => exact triple_ite (fun _ => triple_pure fun _ has => has) fun _ => next _
    | some pagep =>
      refine triple_bind (triple_deleteOvflPage List.mem_cons_self) fun _ => ?_
      exact triple_ite (fun _ => triple_pure fun _ has => has) fun _ => next _

theorem stays_splitBucket (oldbucket newbucket : Nat) :
    Stays adm (Sees []) (splitBucket oldbucket newbucket) := by
  have tame := @tame_sees adm []
  refine stays_bind (tame.getPage _ _ rfl) fun r => ?_
  split
  · exact stays_pure _
  · refine stays_bind (stays_reads _) fun p => stays_bind (stays_modify fun hashp => tame.splitBuf hashp _) fun _ => ?_
    refine stays_bind (tame.initPage _ _ _) fun _ => stays_bind (tame.putPage _ _) fun _ => ?_
    exact triple_splitChain _ _ _ none

end Splits

section Calls

theorem stays_flushMeta : Stays adm (Sees l) flushMeta := by
  refine stays_bind stays_read fun hashp => stays_ite (stays_pure _) ?_
  exact stays_modify fun t has => Has.same has ⟨rfl, rfl, rfl, rfl, fun _ => rfl⟩

theorem stays_syncPool : Stays adm (Sees l) syncPool := by
  refine triple_pool (P := Has l) (Q := fun _ => Has l) (stays_modify fun pgp has => ?_)
  exact has.same (Pagepool.sameLinks_syncI 0)

theorem stays_setHdr (f : Hashhdr → Hashhdr) : Stays adm (Sees l) (Prog.modify (setHdr f)) :=
  stays_modify fun _ has => has

theorem stays_expandTable (never : ¬adm .duplicate) : Stays adm (Sees []) expandTable := by
  have rest : ∀ old new doubling, Stays adm (Sees []) (do
      let hashp ← Prog.read
      if hashp.hdr.bucketToPage new = maxPages then Prog.halt .exit
      else if ← newPage new hashBucketPage then
        if doubling = true then
          flushMeta
          syncPool
        splitBucket old new
      else pure (-1) : Run Int) := by
    intro old new doubling
    refine stays_bind stays_read fun hashp => stays_ite (triple_halt _) ?_
    refine stays_bind (stays_newPage never _ _) fun ok => stays_ite (stays_ite ?_ ?_) (stays_pure _)
    · refine stays_bind stays_flushMeta fun _ => stays_bind stays_syncPool fun _ => ?_
      exact stays_splitBucket _ _
    · exact stays_splitBucket _ _
  refine stays_bind stays_read fun hashp => ?_
  refine stays_ite (stays_bind (stays_mark _) fun _ => ?_) ?_
  all_goals
    refine stays_bind (stays_setHdr _) fun _ => stays_ite (stays_bind ?_ fun _ => rest _ _ _) (rest _ _ _)
    exact stays_modify fun _ has => has

theorem stays_enter : Stays adm (Sees l) enter := stays_modify fun _ has => has

theorem stays_hashGet (key : Dbt) (room : Nat) : Stays adm (Sees l) (hashGet key room) := by
  have tame := @tame_sees adm l
  refine stays_bind stays_enter fun _ => stays_bind (stays_reads _) fun bucket => ?_
  refine stays_bind (tame.findItem _ _ _) fun r => ?_
  split
  · exact stays_pure _
  · refine stays_ite (stays_bind (tame.putPage _ _) fun _ => stays_pure _) ?_
    exact tame.getItem _ _ _ _ _

theorem stays_putNew (never : ¬adm .duplicate) (key data : Dbt) (item : Hent) :
    Stays adm (Sees []) (putNew key data item) := by
  have tame := @tame_sees adm []
  refine stays_bind (stays_reads _) fun p => stays_ite ?_ ?_
  · refine stays_bind (tame.addPair _ _ _ _) fun status => stays_ite ?_ (stays_pure _)
    exact stays_bind (stays_setHdr _) fun _ => stays_pure _
  · refine stays_bind (tame.addOvflpage _ _ _) fun status => stays_ite (stays_pure _) ?_
    refine stays_bind (stays_expandTable never) fun status => ?_
    exact stays_bind (stays_setHdr _) fun _ => stays_pure _

theorem stays_putOld (key data : Dbt) (item : Hent) (flag : Nat) :
    Stays adm (Sees l) (putOld key data item flag) := by
  have tame := @tame_sees adm l
  refine stays_ite (stays_bind (tame.leak _ _) fun _ => stays_pure _) ?_
  exact stays_bind (tame.addPair _ _ _ _) fun status => stays_ite (stays_pure _) (stays_pure _)

theorem stays_hashPut (never : ¬adm .duplicate) (key data : Dbt) (flag : Nat) :
    Stays adm (Sees []) (hashPut key data flag) := by
  refine stays_bind stays_enter fun _ => stays_bind stays_read fun hashp => stays_ite (stays_pure _) ?_
  refine stays_bind (stays_reads _) fun bucket => stays_bind ((tame_sees []).findItem _ _ _) fun r => ?_
  split
  · exact stays_pure _
  · exact stays_ite (stays_putNew never _ _ _) (stays_putOld _ _ _ _)

theorem stays_hashSync : Stays adm (Sees l) hashSync :=
  stays_bind stays_enter fun _ => stays_bind stays_flushMeta fun _ => stays_syncPool

theorem stays_cursorCall (crs : Crs) (keyRoom : Nat) (dataRoom : Option Nat) (flags : Nat) :
    Stays adm (Sees l) (cursorCall crs keyRoom dataRoom flags) :=
  stays_bind stays_enter fun _ => stays_bind (stays_modify fun _ has => has) fun _ =>
    (tame_sees l).cursorGet _ _ _ _

theorem stays_cursorCloseCall (crs : Crs) : Stays adm (Sees l) (cursorCloseCall crs) :=
  stays_bind stays_enter fun _ => stays_bind (stays_modify fun _ has => has) fun _ =>
    (tame_sees l).releaseCursor _

end Calls

section Opens

theorem triple_changePage (never : ¬adm .duplicate) {pagep : Nat} (mine : pagep ∈ l) (n : Nat) :
    Triple adm (Sees l) (changePage pagep n) fun _ => Sees l := by
  refine triple_bind (triple_noteDuplicate never n) fun _ => ?_
  refine triple_bind (triple_pool (Pagepool.triple_changePage mine)) fun _ => ?_
  exact stays_modify fun hashp => (@tame_sees adm l).note hashp _ _

theorem triple_moveOne (never : ¬adm .duplicate) {pagep : Nat} (mine : pagep ∈ l) (type pgno rpage : Nat)
    (m : Move) : Triple adm (Sees l) (moveOne type pagep pgno rpage m) fun _ => Sees l := by
  have tame := @tame_sees adm l
  have last : Stays adm (Sees l) (do
      store pagep fun q => q.setCurrPgno rpage
      let status ← updateContent type pagep pgno rpage m
      if status ≠ 0 then
        putPage pagep false
        pure false
      else
        let q ← page pagep
        changePage pagep q.currPgno
        pure true) := by
    refine stays_bind (tame.store _ _) fun _ => stays_bind (tame.updateContent _ _ _ _ _) fun status => ?_
    refine stays_ite (stays_bind (tame.putPage _ _) fun _ => stays_pure _) ?_
    refine stays_bind (stays_reads _) fun q => ?_
    exact stays_bind (triple_changePage never mine _) fun _ => stays_pure _
  have behind : ∀ (p : Page) (ahead : Bool), Stays adm (Sees l) (do
      if !ahead then pure false
      else
        let behind ← if p.prevPgno ≠ invalidPgno then
            relink pagep p.prevPgno rpage m (fun v q => q.setNextPgno v) (fun v q => q.setPrevPgno v)
          else pure true
        if !behind then pure false
        else
          store pagep fun q => q.setCurrPgno rpage
          let status ← updateContent type pagep pgno rpage m
          if status ≠ 0 then
            putPage pagep false
            pure false
          else
            let q ← page pagep
            changePage pagep q.currPgno
            pure true) := by
    intro p ahead
    refine stays_ite (stays_pure _) (stays_ite ?_ ?_)
    · exact stays_bind (tame.relink _ _ _ _ _ _) fun behind => stays_ite (stays_pure _) last
    · exact stays_bind (stays_pure _) fun behind => stays_ite (stays_pure _) last
  refine stays_bind (stays_reads _) fun p => stays_ite ?_ ?_
  · exact stays_bind (tame.relink _ _ _ _ _ _) (behind p)
  · exact stays_bind (stays_pure _) (behind p)

theorem stays_movePages (never : ¬adm .duplicate) (type : Nat) (m : Move) :
    Stays adm (Sees []) (movePages type m) := by
  have loop : ∀ n pgno rpage dlast, Stays adm (Sees []) (movePagesLoop type m n pgno rpage dlast) := by
    intro n
    induction n with
    | zero => exact fun _ _ _ => stays_pure _
    | succ n ih =>
      intro pgno rpage dlast
      refine triple_bind (triple_getPage _ _ rfl) fun r => ?_
      rcases r with ⟨_ | pagep, p⟩
      · exact triple_pure fun _ has => has
      · refine triple_mono (P := Sees [pagep]) (Q := fun _ => Sees []) ?_ (fun _ has => has) fun _ _ has => has
        have tame := @tame_sees adm [pagep]
        have rest := fun dlast => triple_mono (ih (u32 (pgno + 1)) (u32 (rpage + 1)) dlast)
          (fun hashp (has : Sees [pagep] hashp) => has.weaken) fun _ _ has => has
        refine triple_bind (stays_reads _) fun p => triple_ite (fun _ => ?_) fun _ => ?_
        · exact triple_bind (tame.putPage _ _) fun _ => rest _
        · refine triple_bind (triple_moveOne never List.mem_cons_self _ _ _ _) fun more => ?_
          exact triple_ite (fun _ => rest _) fun _ => triple_pure fun _ => Sees.weaken
  exact loop _ _ _ _

theorem stays_removePages (npages p : Nat) : Stays adm (Sees []) (removePages npages p) := by
  induction npages generalizing p with
  | zero => exact stays_pure _
  | succ npages ih =>
    refine triple_bind (triple_getPage _ _ rfl) fun r => ?_
    rcases r with ⟨_ | pagep, n⟩
    · exact ih _
    · exact triple_bind (triple_poolDelete (l := [pagep]) List.mem_cons_self) fun _ => ih _

theorem stays_rearragePagesOnOpen (never : ¬adm .duplicate) : Stays adm (Sees []) rearragePagesOnOpen := by
  have tame := @tame_sees adm []
  refine stays_bind stays_read fun hashp => stays_ite (stays_pure _) ?_
  refine stays_bind (stays_movePages never _ _) fun lastdpage => ?_
  refine stays_bind (stays_movePages never _ _) fun _ => stays_bind (stays_movePages never _ _) fun _ => ?_
  refine stays_ite (stays_bind (tame.lastDataPage _ _) fun last => ?_) ?_
  · refine stays_bind (stays_modify fun hashp => tame.currDpage hashp _) fun _ => ?_
    exact stays_bind (stays_setHdr _) fun _ => stays_removePages _ _
  · exact stays_bind (stays_setHdr _) fun _ => stays_removePages _ _

theorem stays_makePages (never : ¬adm .duplicate) (addrtype npages p : Nat) :
    Stays adm (Sees l) (makePages addrtype npages p) := by
  induction npages generalizing p with
  | zero => exact stays_pure _
  | succ npages ih => exact stays_bind (stays_newPage never _ _) fun _ => ih _

theorem stays_readInfo (never : ¬adm .duplicate) (addrtype start npages : Nat) :
    Stays adm (Sees l) (readInfo addrtype start npages) := by
  have lock := (@tame_sees adm l).lockPages addrtype npages start
  refine stays_bind stays_read fun hashp => stays_ite ?_ lock
  exact stays_bind (stays_makePages never _ _ _) fun _ => lock

theorem stays_openPages (never : ¬adm .duplicate) : Stays adm (Sees []) openPages := by
  have tame := @tame_sees adm []
  have resume : Stays adm (Sees []) (do
      let hashp ← Prog.read
      let spare := hashp.hdr.spares (hashp.hdr.ovflPoint + 1)
      if 0 < spare then
        let last ← lastDataPage pageFuel (u32 (spare + 0xffffffff))
        Prog.modify fun hashp => { hashp with currDpage := last } : Run Unit) := by
    refine stays_bind stays_read fun hashp => stays_ite ?_ (stays_pure _)
    exact stays_bind (tame.lastDataPage _ _) fun _ => stays_modify fun hashp => tame.currDpage hashp _
  refine stays_bind (stays_bind stays_read fun _ => stays_readInfo never _ _ _) fun _ => ?_
  refine stays_bind (stays_bind stays_read fun _ => stays_readInfo never _ _ _) fun _ => ?_
  refine stays_bind stays_read fun hashp => stays_ite ?_ resume
  exact stays_bind (stays_rearragePagesOnOpen never) fun _ => resume

end Opens

inductive Request where
  | put (key data : Dbt) (flag : Nat)
  | get (key : Dbt) (room : Nat)
  | cursor (crs : Crs) (keyRoom : Nat) (dataRoom : Option Nat) (flags : Nat)
  | cursorClose (crs : Crs)
  | sync

def Request.call : Request → Run Unit
  | put key data flag => do let _ ← hashPut key data flag
  | get key room => do let _ ← hashGet key room
  | cursor crs keyRoom dataRoom flags => do let _ ← cursorCall crs keyRoom dataRoom flags
  | cursorClose crs => cursorCloseCall crs
  | sync => hashSync

/-- The states of an open database, each with the events passed through since it was opened. -/
inductive Reached (o : Opening) : Htab → List Event → Prop
  | fresh {start hashp : Htab} {t : List Event} (made : freshTable o = some start)
      (opened : openPages.run start = (.ok () hashp, t)) : Reached o hashp t
  | known {start hashp : Htab} {t : List Event} (file : Pagefile) (read : knownTable o file = some start)
      (opened : openPages.run start = (.ok () hashp, t)) : Reached o hashp t
  | call {hashp hashp' : Htab} {t t' : List Event} (before : Reached o hashp t) (request : Request)
      (ran : request.call.run hashp = (.ok () hashp', t')) : Reached o hashp' (t ++ t')

theorem Reached.goes {o : Opening} {hashp' : Htab} {t : List Event} {request : Request}
    (before : Reached o hashp t) (ran : request.call.Returns hashp () hashp') : ∃ t', Reached o hashp' t' :=
  ⟨_, before.call request (Prod.ext ran rfl)⟩

theorem stays_request (never : ¬adm .duplicate) (request : Request) : Stays adm (Sees []) request.call := by
  cases request with
  | put key data flag => exact stays_bind (stays_hashPut never _ _ _) fun _ => stays_pure _
  | get key room => exact stays_bind (stays_hashGet _ _) fun _ => stays_pure _
  | cursor crs keyRoom dataRoom flags =>
    exact stays_bind (stays_cursorCall _ _ _ _) fun _ => stays_pure _
  | cursorClose crs => exact stays_cursorCloseCall crs
  | sync => exact stays_hashSync

theorem sees_tableOf (o : Opening) (hdr : Hashhdr) (newFile : Bool) (file : Pagefile) :
    Sees [] (tableOf o hdr newFile file) :=
  ⟨⟨Pagepool.linked_openFd, rfl⟩, fun _ mem => absurd mem List.not_mem_nil⟩

theorem sees_freshTable {o : Opening} {start : Htab} (made : freshTable o = some start) : Sees [] start := by
  obtain ⟨sizes, _, made⟩ := Option.bind_eq_some_iff.mp made
  obtain ⟨hdr, _, made⟩ := Option.bind_eq_some_iff.mp made
  cases made
  exact sees_tableOf o hdr true _

theorem sees_knownTable {o : Opening} {file : Pagefile} {start : Htab}
    (read : knownTable o file = some start) : Sees [] start := by
  unfold knownTable at read
  dsimp only at read
  split at read
  · cases read
    exact sees_tableOf o _ false file
  · cases read

/-- The pool holds one entry for a page in every state, as long as no page has been made or
renamed under a number that had an entry. -/
theorem one_entry {o : Opening} {t : List Event} (reached : Reached o hashp t)
    (never : Event.duplicate ∉ t) : hashp.mp.Exact := by
  have opens : Stays (· ≠ Event.duplicate) (Sees []) openPages := stays_openPages fun ne => ne rfl
  have calls : ∀ request : Request, Stays (· ≠ Event.duplicate) (Sees []) request.call :=
    stays_request fun ne => ne rfl
  have avoids : ∀ {α : Type} {m : Run α} {s : Htab} {r : Lib.Outcome Htab α} {t : List Event},
      m.run s = (r, t) → Event.duplicate ∉ t → Prog.Passes (· ≠ Event.duplicate) m s := by
    intro α m s r t run out e mem same
    rw [run] at mem
    exact out (same ▸ mem)
  suffices sees : Sees [] hashp from sees.toExact
  induction reached with
  | fresh made opened =>
    exact opens _ _ _ (sees_freshTable made) (avoids opened never) (by rw [Prog.Returns, opened])
  | known file read opened =>
    exact opens _ _ _ (sees_knownTable read) (avoids opened never) (by rw [Prog.Returns, opened])
  | call before request ran ih =>
    rw [List.mem_append, not_or] at never
    exact calls request _ _ _ (ih never.1) (avoids ran never.2) (by rw [Prog.Returns, ran])

section Examples

attribute [local semireducible] hashKey

deriving instance DecidableEq for Hent

def smallTable : Opening :=
  { defaults with info := some ⟨512, 2, 0, false, 1, 1, some fun _ => 1, none⟩ }

def smallStart : Htab := tableOf smallTable (initHdr smallTable 512 9) true ⟨0, fun _ _ => 0⟩

def smallOpened : Htab := endOf openPages smallStart

theorem smallOpened_reached : Reached smallTable smallOpened [] :=
  @Reached.fresh smallTable smallStart _ _ rfl (run_of_answer (by decide +kernel))

def smallKey : Dbt := Dbt.ofBytes [7]

def otherKey : Dbt := Dbt.ofBytes [8, 9]

def smallOne : Htab := endOf (Request.put smallKey (Dbt.ofBytes [42]) 0).call smallOpened
def smallTwo : Htab := endOf (Request.put otherKey (Dbt.ofBytes [1, 2, 3]) 0).call smallOne
def smallAsked : Htab := endOf (Request.get otherKey 0).call smallTwo
def smallWalked : Htab := endOf (Request.cursor (hashCursor true) 0 none ffdbFirst).call smallAsked

theorem smallWalked_reached : Reached smallTable smallWalked [] := by
  have one : Reached smallTable smallOne [] :=
    smallOpened_reached.call _ (run_of_answer (t := []) (by decide +kernel))
  have two : Reached smallTable smallTwo [] := one.call _ (run_of_answer (t := []) (by decide +kernel))
  have asked : Reached smallTable smallAsked [] := two.call _ (run_of_answer (t := []) (by decide +kernel))
  exact asked.call _ (run_of_answer (t := []) (by decide +kernel))

theorem one_entry_walked : Reached smallTable smallWalked [] ∧ 4 < smallWalked.mp.lqh.length ∧
    smallWalked.mp.Exact :=
  ⟨smallWalked_reached, by decide +kernel, one_entry smallWalked_reached List.not_mem_nil⟩

def longKey : Dbt := Dbt.ofBytes (List.replicate 454 7)

def oneByte : Dbt := Dbt.ofBytes [42]

def longItem : Hent := ⟨2, 4, 0, .noMore, Checksum.crc32Checksum 0 oneByte.bytes⟩

def smallFound : Htab := endOf (findItem 1 longKey (some oneByte)) (endOf enter smallOpened)
def smallChained : Htab := endOf (addOvflpage longKey oneByte longItem) smallFound
def smallGrown : Htab :=
  { setHdr (fun hdr => { hdr with ovflPoint := 2 }) (setHdr growMasks smallChained) with
    currDpage := invalidPgno }
def smallNewPage : Htab := endOf (newPage 2 hashBucketPage) smallGrown
def smallMade : Htab := endOf flushMeta smallNewPage
def smallFlushed : Htab := setMp (smallMade.mp.writeList [0, 1, 2, 4, 3, 5]) smallMade
def smallSplit : Htab := endOf (splitBucket 0 2) smallFlushed

theorem smallMade_sync : smallMade.mp.sync = smallMade.mp.writeList [0, 1, 2, 4, 3, 5] := by
  have dirty : smallMade.mp.lqh.filter (fun id => Pagepool.flushable (smallMade.mp.bkt id)) = [0, 1, 2, 3, 4, 5] := by
    decide +kernel
  have numbers : [0, 1, 2, 3, 4, 5].map (fun id => (smallMade.mp.bkt id).pgno) = [1, 2, 4, 6, 5, 7] := by
    decide +kernel
  simp only [List.map_cons, List.map_nil, List.cons.injEq, and_true] at numbers
  obtain ⟨n₀, n₁, n₂, n₃, n₄, n₅⟩ := numbers
  refine congrArg smallMade.mp.writeList ?_
  simp only [Pagepool.syncList, dirty, Pagepool.slistMergeSort, List.reverse_cons, List.reverse_nil,
    List.nil_append, List.cons_append, if_true, List.length_cons, List.length_nil]
  simp [Pagepool.mergeLoop, Pagepool.mergePass, Pagepool.mergeRuns, Pagepool.sbktLe, n₀, n₁, n₂, n₃, n₄, n₅]

theorem returns_smallExpand : expandTable.Returns smallChained 0 smallSplit := by
  have max : smallChained.hdr.maxBucket = 1 := by decide +kernel
  have low : smallChained.hdr.lowMask = 0 := by decide +kernel
  have point : smallChained.hdr.ovflPoint = 1 := by decide +kernel
  have flushed : syncPool.Returns smallMade () smallFlushed := by
    rw [smallFlushed, ← smallMade_sync]
    rfl
  have new : (newPage 2 hashBucketPage).Returns smallGrown true smallNewPage :=
    returns_of_answer (t := []) (by decide +kernel)
  have kept : flushMeta.Returns smallNewPage () smallMade := returns_of_answer (t := []) (by decide +kernel)
  have split : (splitBucket 0 2).Returns smallFlushed 0 smallSplit :=
    returns_of_answer (t := []) (by decide +kernel)
  have word : u32 (1 + 1) = 2 := rfl
  have two : ffdbLog2 (u32 (2 + 1)) = 2 := by decide
  have page : smallGrown.hdr.bucketToPage 2 ≠ maxPages := by decide +kernel
  unfold expandTable
  rw [Prog.returns_read_bind, max, low]
  dsimp only
  rw [word, two, Nat.and_zero, if_neg (by decide), Prog.returns_modify_bind, if_pos (by rw [point]; decide),
    Prog.returns_modify_bind]
  change Prog.Returns _ smallGrown 0 smallSplit
  rw [Prog.returns_read_bind, if_neg page, new.bind, if_pos rfl, if_pos (by rw [point]; decide), kept.bind,
    flushed.bind]
  exact split

def smallPut : Htab := endOf countKey smallSplit

theorem returns_smallPut : (hashPut longKey oneByte 0).Returns smallOpened 0 smallPut := by
  have bucket : (callHash longKey).Returns (endOf enter smallOpened) 1 (endOf enter smallOpened) :=
    returns_of_answer (t := []) (by decide +kernel)
  have item : (findItem 1 longKey (some oneByte)).Returns (endOf enter smallOpened) (some longItem) smallFound :=
    returns_of_answer (t := []) (by decide +kernel)
  have chained : (addOvflpage longKey oneByte longItem).Returns smallFound 0 smallChained :=
    returns_of_answer (t := []) (by decide +kernel)
  have counted : countKey.Returns smallSplit () smallPut := returns_of_answer (t := []) (by decide +kernel)
  unfold hashPut
  rw [Prog.Returns.bind (show enter.Returns smallOpened () (endOf enter smallOpened) from rfl),
    Prog.returns_read_bind, if_neg (by decide +kernel), bucket.bind, item.bind]
  dsimp only
  rw [if_pos (by rfl)]
  unfold putNew
  rw [Prog.Returns.bind (show (page longItem.pagep).Returns smallFound _ smallFound from rfl),
    if_neg (by decide +kernel), chained.bind, if_neg (by decide), returns_smallExpand.bind, counted.bind]
  exact Prog.returns_pure.mpr ⟨rfl, rfl⟩

def smallLook : Htab := endOf (Request.cursor (hashCursor true) 0 none ffdbFirst).call smallPut
def smallTwice : Htab := endOf (Request.put longKey oneByte 0).call smallLook

/-- The cursor has brought the page of the bucket after the last into the cache, and the put that
makes this bucket makes the page again. -/
theorem page_made_twice : ∃ hashp t, Reached smallTable hashp t ∧ ∃ i ∈ hashp.mp.lqh, ∃ j ∈ hashp.mp.lqh,
    i ≠ j ∧ (hashp.mp.bkt i).pgno = (hashp.mp.bkt j).pgno := by
  have put : (Request.put longKey oneByte 0).call.Returns smallOpened () smallPut :=
    returns_smallPut.bind.mpr (Prog.returns_pure.mpr ⟨rfl, rfl⟩)
  obtain ⟨t, first⟩ := smallOpened_reached.goes put
  have look : (Request.cursor (hashCursor true) 0 none ffdbFirst).call.run smallPut =
      (.ok () smallLook, [.beyond]) := run_of_answer (by decide +kernel)
  have again : (Request.put longKey oneByte 0).call.run smallLook =
      (.ok () smallTwice, [.unchained, .duplicate]) := run_of_answer (by decide +kernel)
  refine ⟨smallTwice, _, (first.call _ look).call _ again, 7, ?_, 10, ?_, by decide, ?_⟩
  · decide +kernel
  · decide +kernel
  · decide +kernel

end Examples

end Htab
end FileHash
