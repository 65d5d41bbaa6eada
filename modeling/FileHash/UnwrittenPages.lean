import FileHash.PageEntries

/-! Pages nobody has written. What lies behind the pages of the file reads as zeros, and a page of
zeros comes through the filter as a page that is full and has no links. -/
namespace FileHash

open Lib (Prog)
open Lib.Prog (Stays stays_pure stays_read stays_modify stays_bind stays_ite triple_halt)

namespace Pagepool

variable {bsize tid p : Nat} {pgp pgp' : Pagepool} {ε : Type} {adm : ε → Prop}

structure Unwritten (bsize : Nat) (pgp : Pagepool) : Prop where
  filter : ∀ p, 0 < p → pgp.pgin p (fun _ => 0) = some (initPage bsize (fun _ => 0) p hashDeletedPage)
  zeros : ∀ p, pgp.npages ≤ p → 0 < p → pgp.file.read p = fun _ => 0

theorem Unwritten.congr (h : Unwritten bsize pgp) (pgin : pgp'.pgin = pgp.pgin) (npages : pgp'.npages = pgp.npages)
    (file : pgp'.file = pgp.file) : Unwritten bsize pgp' where
  filter := pgin ▸ h.filter
  zeros p high pos := by
    rw [file]
    exact h.zeros p (npages ▸ high) pos

theorem Unwritten.write (h : Unwritten bsize pgp) (id : Nat) : Unwritten bsize (pgp.write id) where
  filter := h.filter
  zeros p high pos := by
    rw [write_npages] at high
    rw [write_read_other (by omega)]
    exact h.zeros p (by omega) pos

theorem Unwritten.writeList (h : Unwritten bsize pgp) (l : List Nat) : Unwritten bsize (pgp.writeList l) := by
  induction l generalizing pgp with
  | nil => exact h
  | cons id l ih =>
    simp only [Pagepool.writeList, List.foldl_cons]
    split
    · exact ih (h.write id)
    · exact ih h

theorem Unwritten.evict (h : Unwritten bsize pgp) (id : Nat) : Unwritten bsize (evict tid pgp id) := by
  unfold Pagepool.evict
  by_cases dirty : (pgp.bkt id).dirty
  · simp only [if_pos dirty]
    have free : Unwritten bsize (((pgp.write id).unlink id).setBkt id (freshBkt tid)) := (h.write id).congr rfl rfl rfl
    exact free.writeList _
  · simp only [if_neg dirty]
    exact h.congr rfl rfl rfl

theorem stays_obtain_unwritten : Stays adm (Unwritten bsize) (obtainBkt tid) := by
  have fresh : ∀ id : Nat, Stays adm (Unwritten bsize)
      (do Prog.modify fun p => (newBkt tid p).2; pure id) := fun id =>
    stays_bind (stays_modify fun _ pre => pre.congr rfl rfl rfl) fun _ => stays_pure id
  refine stays_bind stays_read fun pgp => stays_ite (stays_ite (triple_halt _) ?_) (fresh _)
  split
  · exact stays_bind (stays_modify fun _ pre => pre.evict _) fun _ => stays_pure _
  · exact fresh _

theorem stays_get_unwritten (p : Nat) (flags : PageFlags) : Stays adm (Unwritten bsize) (getPage tid p flags) := by
  have create : ∀ flags, Stays adm (Unwritten bsize) (newPageI tid p flags) := by
    intro flags
    refine stays_bind stays_read fun pgp => stays_ite (triple_halt _) ?_
    refine stays_bind stays_obtain_unwritten fun id => ?_
    refine stays_bind (stays_modify fun _ pre => pre.congr rfl rfl rfl) fun _ => ?_
    refine stays_bind (stays_modify fun _ pre => pre.congr rfl rfl rfl) fun _ => ?_
    refine stays_bind (stays_modify fun _ pre => pre.congr rfl rfl rfl) fun _ => ?_
    exact stays_bind (stays_modify fun _ pre => pre.congr rfl rfl rfl) fun _ => stays_pure _
  have load : Stays adm (Unwritten bsize) (loadNewPage tid p flags) := by
    refine stays_bind stays_obtain_unwritten fun id => stays_bind stays_read fun pgp => ?_
    refine stays_bind (stays_modify fun _ pre => pre.congr rfl rfl rfl) fun _ => ?_
    refine stays_bind (stays_modify fun _ pre => pre.congr rfl rfl rfl) fun _ => ?_
    split
    · exact triple_halt _
    · exact stays_bind (stays_modify fun _ pre => pre.congr rfl rfl rfl) fun _ => stays_pure _
  refine stays_bind stays_read fun pgp => stays_ite (stays_pure _) (stays_ite ?_ ?_)
  · exact stays_ite (stays_pure _) (stays_bind (create _) fun _ => stays_pure _)
  split
  · refine stays_ite (stays_pure _) (stays_bind (stays_modify fun _ pre => ?_) fun _ => stays_pure _)
    exact pre.congr rfl rfl rfl
  · refine stays_ite ?_ ?_
    · exact stays_bind (create _) fun _ => stays_pure _
    · exact stays_bind load fun _ => stays_pure _

theorem stays_put_unwritten (mem : Nat) (dirty : Bool) : Stays adm (Unwritten bsize) (putPage mem dirty) :=
  stays_bind stays_read fun _ => stays_ite (stays_modify fun _ pre => pre.congr rfl rfl rfl) (triple_halt _)

theorem Unwritten.shows (h : Unwritten bsize pgp) (high : pgp.npages ≤ p) (pos : 0 < p) (free : ¬pgp.Cached p)
    {c : Page} (shows : pgp.Shows p c) : Agree c (initPage bsize (fun _ => 0) p hashDeletedPage) ∨ Clear c := by
  rcases shows with ⟨id, mem, number, _⟩ | ⟨_, ⟨d, read, same⟩ | ⟨_, clear⟩⟩
  · exact absurd ⟨id, mem, number⟩ free
  · rw [h.zeros p high pos, h.filter p pos] at read
    cases read
    exact .inl same
  · exact .inr clear

end Pagepool

namespace Htab

theorem tame_unwritten (adm : Event → Prop) (bsize : Nat) :
    Tame adm fun hashp => Pagepool.Unwritten bsize hashp.mp where
  note _ _ _ pre := pre
  splitBuf _ _ pre := pre
  currDpage _ _ pre := pre
  spares _ _ _ pre := pre
  freePages _ _ _ pre := pre
  store _ _ := triple_pool (stays_modify fun _ pre => pre.congr rfl rfl rfl)
  get p flags _ := triple_pool (Pagepool.stays_get_unwritten p flags)
  put mem dirty := triple_pool (Pagepool.stays_put_unwritten mem dirty)

end Htab
end FileHash
