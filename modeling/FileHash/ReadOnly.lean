import FileHash.CustodyRuns

/-! A database opened for reading. No page of it is ever marked, so nothing is written when a page
leaves the cache, at a sync or at the close, whatever was looked up and whichever fetches failed. -/
namespace FileHash

namespace Pagepool

open Lib (Prog)
open Lib.Prog (Triple Stays triple_mono triple_bind triple_pure triple_modify triple_halt triple_ite triple_read_bind
  stays_pure)

variable {ε : Type} {adm : ε → Prop} {f : Pagefile} {pgp : Pagepool} {self id pageno : Nat} {flags : PageFlags}

def Listed (pgp : Pagepool) (id : Nat) : Prop := id ∈ pgp.lqh ∨ ∃ k, id ∈ pgp.hqh k

/-- No page of the cache is marked, and the file is `f`. -/
structure Clean (f : Pagefile) (pgp : Pagepool) : Prop where
  file : pgp.file = f
  clean : ∀ id, pgp.Listed id → (pgp.bkt id).dirty = false

def CleanWith (f : Pagefile) (id : Nat) (pgp : Pagepool) : Prop := Clean f pgp ∧ (pgp.bkt id).dirty = false

theorem Clean.setBkt (h : Clean f pgp) {g : Bkt → Bkt} (kept : (g (pgp.bkt id)).dirty = (pgp.bkt id).dirty) :
    Clean f (pgp.setBkt id g) := by
  refine ⟨h.file, fun j mem => ?_⟩
  by_cases same : j = id
  · rw [same] at mem ⊢
    rw [setBkt_same, kept]
    exact h.clean id mem
  · rw [setBkt_other same]
    exact h.clean j mem

theorem Clean.fresh (h : Clean f pgp) {g : Bkt → Bkt} (clear : (g (pgp.bkt id)).dirty = false) :
    CleanWith f id (pgp.setBkt id g) := by
  refine ⟨⟨h.file, fun j mem => ?_⟩, by rw [setBkt_same]; exact clear⟩
  by_cases same : j = id
  · rw [same, setBkt_same]
    exact clear
  · rw [setBkt_other same]
    exact h.clean j mem

theorem Listed.of_unlink {j : Nat} (h : (pgp.unlink id).Listed j) : pgp.Listed j := by
  rcases h with mem | ⟨k, mem⟩
  · exact .inl (List.mem_of_mem_erase mem)
  · simp only [Pagepool.unlink, Function.update_apply] at mem
    split at mem
    next same => exact .inr ⟨k, same ▸ List.mem_of_mem_erase mem⟩
    next => exact .inr ⟨k, mem⟩

theorem Listed.of_link {j : Nat} (h : (pgp.link id).Listed j) : pgp.Listed j ∨ j = id := by
  rcases h with mem | ⟨k, mem⟩
  · rcases List.mem_append.mp mem with old | new
    · exact .inl (.inl old)
    · exact .inr (List.mem_singleton.mp new)
  · simp only [Pagepool.link, Function.update_apply] at mem
    split at mem
    next same =>
      rcases List.mem_cons.mp mem with new | old
      · exact .inr new
      · exact .inl (.inr ⟨k, same ▸ old⟩)
    next => exact .inl (.inr ⟨k, mem⟩)

theorem Clean.unlink (h : Clean f pgp) : Clean f (pgp.unlink id) := ⟨h.file, fun j mem => h.clean j mem.of_unlink⟩

theorem CleanWith.link (h : CleanWith f id pgp) : CleanWith f id (pgp.link id) := by
  refine ⟨⟨h.1.file, fun j mem => ?_⟩, h.2⟩
  rcases mem.of_link with old | rfl
  · exact h.1.clean j old
  · exact h.2

theorem Clean.sync (h : Clean f pgp) (numpages : Nat) : pgp.syncI numpages = pgp := by
  have none : (pgp.lqh.filter fun id => flushable (pgp.bkt id)) = [] := by
    rw [List.filter_eq_nil_iff]
    intro id mem
    simp [flushable, h.clean id (.inl mem)]
  simp [syncI, syncList, none, slistMergeSort, mergeLoop, writeList]

theorem Clean.evict (h : Clean f pgp) (mem : id ∈ pgp.lqh) : CleanWith f id (evict self pgp id) := by
  simp only [Pagepool.evict, h.clean id (.inl mem), Bool.false_eq_true, if_false]
  exact h.unlink.fresh rfl

theorem Clean.newBkt (h : Clean f pgp) : CleanWith f pgp.brk (newBkt self pgp).2 := by
  have grown : Clean f { pgp with brk := pgp.brk + 1, curcache := pgp.curcache + 1 } := ⟨h.file, h.clean⟩
  exact @Clean.fresh f _ pgp.brk grown (fun b => { freshBkt self b with wqh := [] }) rfl

theorem clean_obtainBkt : Triple adm (Clean f) (obtainBkt self) fun id => CleanWith f id := by
  refine triple_read_bind fun pgp pre => ?_
  have grown : Triple adm (fun p => p = pgp ∧ Clean f p) (do
      Prog.modify fun p => (newBkt self p).2
      pure pgp.brk) fun id => CleanWith f id := by
    refine triple_bind (triple_modify fun p now => ?_) fun _ => triple_pure fun _ post => post
    rw [now.1]
    exact pre.newBkt
  refine triple_ite (fun _ => triple_ite (fun _ => triple_halt _) fun _ => ?_) fun _ => grown
  split
  next id found =>
    refine triple_bind (triple_modify fun p now => ?_) fun _ => triple_pure fun _ post => post
    rw [now.1]
    exact pre.evict (List.mem_of_find?_eq_some found)
  next => exact grown

theorem CleanWith.apply (h : CleanWith f id pgp) (plain : flags.Plain) {g : Bkt → Bkt}
    (kept : (g (pgp.bkt id)).dirty = (pgp.bkt id).dirty) :
    CleanWith f id (pgp.setBkt id fun b => applyFlags flags (g b)) := by
  refine h.1.fresh ?_
  simp only [applyFlags, kept, h.2, plain.2.1, plain.2.2, Bool.or_false]

theorem clean_loadNewPage (plain : flags.Plain) : Stays adm (Clean f) (loadNewPage self pageno flags) := by
  refine triple_bind clean_obtainBkt fun id => triple_read_bind fun pgp pre => ?_
  refine triple_bind (Q := fun _ => CleanWith f id) (triple_modify fun p now => now.2.apply plain rfl) fun _ => ?_
  refine triple_bind (Q := fun _ => CleanWith f id) (triple_modify fun p now => now.link) fun _ => ?_
  split
  · exact triple_halt _
  · refine triple_bind (triple_modify fun p now => ?_) fun _ => triple_pure fun _ post => post
    exact now.1.setBkt rfl

theorem clean_newPageI (plain : flags.Plain) : Stays adm (Clean f) (newPageI self pageno flags) := by
  refine triple_read_bind fun pgp pre => triple_ite (fun _ => triple_halt _) fun _ => ?_
  refine triple_bind (triple_mono clean_obtainBkt (fun _ now => now.2) fun _ _ post => post) fun id => ?_
  refine triple_bind (Q := fun _ => CleanWith f id) (triple_modify fun p now => ?_) fun _ => ?_
  · exact ⟨⟨now.1.file, now.1.clean⟩, now.2⟩
  refine triple_bind (Q := fun _ => CleanWith f id) (triple_modify fun p now => now.apply plain rfl) fun _ => ?_
  refine triple_bind (Q := fun _ => CleanWith f id) (triple_modify fun p now => now.link) fun _ => ?_
  exact triple_bind (triple_modify fun p now => now.1.setBkt rfl) fun _ => triple_pure fun _ post => post

theorem clean_getPage (plain : flags.Plain) : Stays adm (Clean f) (getPage self pageno flags) := by
  have old : ¬flags.new = true := by simp [plain.1]
  refine triple_read_bind fun pgp pre => triple_ite (fun _ => triple_pure fun _ now => now.2) fun _ => ?_
  refine triple_ite (fun new => absurd new old) fun _ => ?_
  split
  next id found =>
    refine triple_ite (fun _ => triple_pure fun _ now => now.2) fun _ => ?_
    refine triple_bind (triple_modify fun p now => ?_) fun _ => triple_pure fun _ post => post
    have listed : pgp.Listed id := .inr ⟨_, List.mem_of_find?_eq_some found⟩
    have marked : CleanWith f id pgp := ⟨pre, pre.clean id listed⟩
    have held : CleanWith f id (pgp.setBkt id fun b => applyFlags flags (hold self b)) := by
      refine marked.apply plain ?_
      unfold hold
      split <;> rfl
    rw [now.1]
    have moved : CleanWith f id ((pgp.setBkt id fun b => applyFlags flags (hold self b)).unlink id) :=
      ⟨held.1.unlink, held.2⟩
    exact moved.link.1
  next =>
    refine triple_ite (fun _ => ?_) fun _ => ?_
    · refine triple_bind (triple_mono (clean_newPageI ?_) (fun _ now => now.2) fun _ _ post => post) fun _ =>
        triple_pure fun _ post => post
      exact plain
    · exact triple_bind (triple_mono (clean_loadNewPage plain) (fun _ now => now.2) fun _ _ post => post) fun _ =>
        triple_pure fun _ post => post

theorem clean_putPage (mem : Nat) : Stays adm (Clean f) (putPage mem false) := by
  refine triple_read_bind fun pgp pre => triple_ite (fun _ => triple_modify fun p now => ?_) fun _ => triple_halt _
  exact now.2.setBkt (Bool.or_false _)

end Pagepool
namespace Htab

open Lib (Prog)
open Lib.Prog (Stays Triple triple_zoom triple_mono triple_bind triple_read_bind triple_ite triple_pure triple_halt
  triple_modify stays_pure stays_read stays_reads stays_modify stays_bind stays_ite)

variable {adm : Event → Prop} {h₀ hashp : Htab} {o : Opening}

structure Untouched (h₀ hashp : Htab) : Prop where
  hdr : hashp.hdr = h₀.hdr
  rdonly : hashp.rdonly = true
  old : hashp.newFile = false
  pool : hashp.mp.Clean h₀.mp.file

def Act.reads : Act → Bool
  | setAllConfigs _ _ | setConfig _ | setUserInfo _ => false
  | _ => true

namespace Mild

variable {asks : PageFlags → Prop} {P : Htab → Prop} (h : Mild adm asks P)
include h

theorem enter : Stays adm P enter := stays_modify fun hashp => h.note hashp hashp.fetches []

section Information

theorem getConfigsLoop (npages pgno : Nat) (sofar : List ConfigInfo) :
    Stays adm P (getConfigsLoop npages pgno sofar) := by
  induction npages generalizing pgno sofar with
  | zero => exact stays_pure _
  | succ npages ih =>
    refine stays_bind (h.getPage _ _ h.bare) fun r => ?_
    split
    · exact stays_pure _
    · exact stays_bind (stays_reads _) fun p => stays_bind (h.putPage _) fun _ => ih _ _

theorem getAllConfigs : Stays adm P getAllConfigs :=
  stays_bind h.enter fun _ => stays_bind stays_read fun _ => h.getConfigsLoop _ _ _

theorem getConfigInfoLoop (confignum npages pgno : Nat) : Stays adm P (getConfigInfoLoop confignum npages pgno) := by
  induction npages generalizing pgno with
  | zero => exact stays_pure _
  | succ npages ih =>
    refine stays_bind (h.getPage _ _ h.bare) fun r => ?_
    split
    · exact stays_pure _
    · refine stays_bind (stays_reads _) fun p => ?_
      split
      · exact stays_bind (h.putPage _) fun _ => stays_pure _
      · exact stays_bind (h.putPage _) fun _ => ih _

theorem getConfig (confignum index : Nat) : Stays adm P (getConfig confignum index) := by
  refine stays_bind h.enter fun _ => stays_bind stays_read fun hashp => ?_
  exact stays_ite (h.getConfigInfoLoop _ _ _) (stays_pure _)

theorem getUinfoLoop (npages pgno rlen : Nat) (sofar : List UInt8) :
    Stays adm P (getUinfoLoop npages pgno rlen sofar) := by
  induction npages generalizing pgno rlen sofar with
  | zero => exact stays_pure _
  | succ npages ih =>
    refine stays_bind stays_read fun hashp => stays_bind (h.getPage _ _ h.bare) fun r => ?_
    split
    · exact stays_pure _
    · exact stays_bind (stays_reads _) fun p => stays_bind (h.putPage _) fun _ => ih _ _ _

theorem getUserInfo (len : Nat) : Stays adm P (getUserInfo len) := by
  refine stays_bind h.enter fun _ => stays_bind stays_read fun hashp => ?_
  split
  · exact stays_pure _
  · refine stays_bind (h.getPage _ _ h.bare) fun r => ?_
    split
    · exact stays_pure _
    · refine stays_bind (stays_reads _) fun p => stays_ite (stays_bind (h.leak _ _) fun _ => stays_pure _) ?_
      exact stays_bind (h.putPage _) fun _ => stays_bind (h.getUinfoLoop _ _ _ _) fun _ => stays_pure _

end Information

section Reads

theorem hashGet (create : asks { create := true }) (key : Dbt) (room : Nat) : Stays adm P (hashGet key room) := by
  refine stays_bind h.enter fun _ => stays_bind (stays_reads _) fun bucket => ?_
  refine stays_bind (h.findItem create _ _ _) fun r => ?_
  split
  · exact stays_pure _
  · exact stays_ite (stays_bind (h.putPage _) fun _ => stays_pure _) (h.getItem _ _ _ _ _)

theorem cursorCall (crs : Crs) (keyRoom : Nat) (dataRoom : Option Nat) (flags : Nat) :
    Stays adm P (cursorCall crs keyRoom dataRoom flags) := by
  refine stays_bind h.enter fun _ => stays_bind (stays_modify fun hashp => ?_) fun _ => h.cursorGet _ _ _ _
  exact h.note hashp hashp.fetches _

theorem cursorCloseCall (crs : Crs) : Stays adm P (cursorCloseCall crs) := by
  refine stays_bind h.enter fun _ => stays_bind (stays_modify fun hashp => ?_) fun _ => h.releaseCursor _
  exact h.note hashp hashp.fetches _

theorem act (create : asks { create := true }) (put : ∀ key data flag, Stays adm P (hashPut key data flag))
    (sync : Stays adm P hashSync) (act : Act) (reads : act.reads = true) (open_ : List Crs) :
    Stays adm P (act.run open_) := by
  cases act with
  | put key data flag => exact stays_bind (put _ _ _) fun _ => stays_pure _
  | get key room => exact stays_bind (h.hashGet create _ _) fun _ => stays_pure _
  | sync => exact stays_bind sync fun _ => stays_pure _
  | cursorOpen keyCursor => exact stays_pure _
  | cursorGet place keyRoom dataRoom flags =>
    cases at_place : open_[place]? with
    | none =>
      simp only [Act.run, at_place]
      exact stays_pure _
    | some crs =>
      simp only [Act.run, at_place]
      exact stays_bind (h.cursorCall _ _ _ _) fun _ => stays_pure _
  | cursorClose place =>
    cases at_place : open_[place]? with
    | none =>
      simp only [Act.run, at_place]
      exact stays_pure _
    | some crs =>
      simp only [Act.run, at_place]
      exact stays_bind (h.cursorCloseCall _) fun _ => stays_pure _
  | getAllConfigs => exact stays_bind h.getAllConfigs fun _ => stays_pure _
  | getConfig confignum index => exact stays_bind (h.getConfig _ _) fun _ => stays_pure _
  | getUserInfo len => exact stays_bind (h.getUserInfo _) fun _ => stays_pure _
  | setAllConfigs numconfigs configs => cases reads
  | setConfig config => cases reads
  | setUserInfo data => cases reads

end Reads

end Mild

namespace Untouched

theorem passes {α : Type} {m : Prog Pagepool Event α} (h : Stays adm (Pagepool.Clean h₀.mp.file) m) :
    Stays adm (Untouched h₀) (Htab.pool m) :=
  triple_zoom fun _ pre => triple_mono h (fun _ same => same ▸ pre.pool) fun _ _ post => { pre with pool := post }

theorem mild : Mild adm PageFlags.Plain (Untouched h₀) where
  note _ _ _ pre := { pre with }
  store _ _ := passes (triple_modify fun _ clean => clean.setBkt rfl)
  bare := ⟨rfl, rfl, rfl⟩
  get _ _ plain := passes (Pagepool.clean_getPage plain)
  put mem := passes (Pagepool.clean_putPage mem)

theorem lockPages (addrtype npages p : Nat) : Stays adm (Untouched h₀) (lockPages addrtype npages p) := by
  induction npages generalizing p with
  | zero => exact stays_pure _
  | succ npages ih =>
    refine triple_read_bind fun hashp pre => ?_
    have plain : PageFlags.Plain { dirty := !hashp.rdonly, locked := !hashp.rdonly } := by
      simp [PageFlags.Plain, pre.rdonly]
    refine triple_bind (triple_mono (mild.getPage _ _ plain) (fun _ now => now.2) fun _ _ post => post) fun r => ?_
    split
    · exact triple_halt _
    · rw [pre.rdonly]
      exact stays_bind (mild.putPage _) fun _ => ih _

theorem readInfo (addrtype start npages : Nat) : Stays adm (Untouched h₀) (readInfo addrtype start npages) := by
  refine triple_read_bind fun hashp pre => ?_
  have old : ¬hashp.newFile = true := by simp [pre.old]
  refine triple_ite (fun new => absurd new old) fun _ => ?_
  exact triple_mono (lockPages _ _ _) (fun _ now => now.2) fun _ _ post => post

theorem openPages : Stays adm (Untouched h₀) openPages := by
  refine stays_bind (stays_bind stays_read fun _ => readInfo _ _ _) fun _ => ?_
  refine stays_bind (stays_bind stays_read fun _ => readInfo _ _ _) fun _ => triple_read_bind fun hashp pre => ?_
  refine triple_ite (fun more => ?_) fun _ => ?_
  · simp [pre.rdonly] at more
  · refine triple_mono (P := Untouched h₀) ?_ (fun _ now => now.2) fun _ _ post => post
    refine stays_bind stays_read fun _ => stays_ite ?_ (stays_pure _)
    exact stays_bind (mild.lastDataPage _ _) fun _ => stays_modify fun _ pre => { pre with }

theorem flushMeta : Stays adm (Untouched h₀) flushMeta := by
  refine triple_read_bind fun hashp pre => triple_ite (fun _ => triple_pure fun _ now => now.2) fun no => ?_
  exact absurd pre.rdonly no

theorem syncPool : Stays adm (Untouched h₀) syncPool :=
  passes (triple_modify fun mp clean => by rw [Pagepool.sync, clean.sync]; exact clean)

theorem hashSync : Stays adm (Untouched h₀) hashSync :=
  stays_bind mild.enter fun _ => stays_bind flushMeta fun _ => syncPool

theorem hashPut (key data : Dbt) (flag : Nat) :
    Triple adm (Untouched h₀) (hashPut key data flag) fun status hashp => status = -1 ∧ Untouched h₀ hashp := by
  refine triple_bind mild.enter fun _ => triple_read_bind fun hashp pre => ?_
  refine triple_ite (fun _ => triple_pure fun _ now => ⟨rfl, now.2⟩) fun no => ?_
  exact absurd (by simp [putRefused, pre.rdonly]) no

theorem act (act : Act) (reads : act.reads = true) (open_ : List Crs) : Stays adm (Untouched h₀) (act.run open_) :=
  mild.act ⟨rfl, rfl, rfl⟩ (fun key data flag => triple_mono (hashPut key data flag) (fun _ pre => pre)
    fun _ _ post => post.2)
    hashSync act reads open_

theorem hdestroy : Stays adm (Untouched h₀) hdestroy := by
  refine stays_bind mild.enter fun _ => triple_read_bind fun hashp pre => ?_
  have closing : Stays adm (Untouched h₀) (do Htab.flushMeta; Htab.syncPool : Run Unit) :=
    stays_bind flushMeta fun _ => syncPool
  refine triple_ite (fun more => ?_) fun _ => triple_mono closing (fun _ now => now.2) fun _ _ post => post
  simp [pre.rdonly] at more

end Untouched

/-- The states of a database that was opened and has been read since, each with the open cursors. -/
inductive ReadUsage (start : Htab) : Htab → List Crs → Prop
  | opened {hashp : Htab} {t : List Event} (ran : openPages.run start = (.ok () hashp, t)) : ReadUsage start hashp []
  | act {hashp hashp' : Htab} {open_ open' : List Crs} {t : List Event} (before : ReadUsage start hashp open_)
      (act : Act) (reads : act.reads = true) (ran : (act.run open_).run hashp = (.ok open' hashp', t)) :
      ReadUsage start hashp' open'

variable {start : Htab} {file : Pagefile} {open_ : List Crs}

theorem untouched_known (known : knownTable o file = some start) (rdonly : o.rdonly = true) :
    Untouched start start ∧ start.mp.file = file := by
  unfold knownTable at known
  dsimp only at known
  split at known
  · cases known
    refine ⟨⟨rfl, rdonly, rfl, rfl, fun id mem => ?_⟩, rfl⟩
    rcases mem with mem | ⟨_, mem⟩
    all_goals exact absurd mem List.not_mem_nil
  · cases known

theorem Untouched.comes {α : Type} {m : Run α} {Q : α → Htab → Prop} {hashp' : Htab} {a : α} {t : List Event}
    (pre : Untouched h₀ hashp) (ran : m.run hashp = (.ok a hashp', t))
    (h : Triple (fun _ => True) (Untouched h₀) m Q) : Q a hashp' :=
  h hashp a hashp' pre (fun _ _ => trivial) (by rw [Prog.Returns, ran])

theorem ReadUsage.untouched (usage : ReadUsage start hashp open_) (fine : Untouched start start) :
    Untouched start hashp := by
  induction usage with
  | opened ran => exact fine.comes (Q := fun _ => Untouched start) ran Untouched.openPages
  | act before act reads ran ih => exact ih.comes (Q := fun _ => Untouched start) ran (Untouched.act act reads _)

/-- However a database that was opened for reading is read, with whatever fetches failing, its file
and its header stay as they were, no page is marked, every put is refused, and the close leaves the
file it found. -/
theorem read_only_writes_nothing (known : knownTable o file = some start) (rdonly : o.rdonly = true)
    (usage : ReadUsage start hashp open_) :
    hashp.mp.file = file ∧ hashp.hdr = start.hdr ∧ (∀ id, hashp.mp.Listed id → (hashp.mp.bkt id).dirty = false) ∧
      (∀ (key data : Dbt) flag status hashp' t, (hashPut key data flag).run hashp = (.ok status hashp', t) →
        status = -1 ∧ hashp'.mp.file = file) ∧
      ∀ last t, hdestroy.run hashp = (.ok () last, t) → closedFile last = file := by
  obtain ⟨fine, same⟩ := untouched_known known rdonly
  have now := usage.untouched fine
  refine ⟨now.pool.file.trans same, now.hdr, now.pool.clean, ?_, fun last t ran => ?_⟩
  · intro key data flag status hashp' t ran
    obtain ⟨refused, after⟩ := now.comes ran (Untouched.hashPut key data flag)
    exact ⟨refused, after.pool.file.trans same⟩
  · have last := now.comes ran Untouched.hdestroy
    rw [closedFile, last.rdonly, Bool.not_true, Bool.and_false, if_neg Bool.false_ne_true, Pagepool.close,
      Pagepool.sync, last.pool.sync]
    exact last.pool.file.trans same

section Examples

attribute [local semireducible] hashKey

def threeFile : Pagefile := (endOf flushMeta (tableOn oneBucket smallHdr 6 threePairs)).mp.file
def threeOpening : Opening := { oneBucket with rdonly := true }
def threeTable : Htab := tableOf threeOpening (Hashhdr.decode (threeFile.read 0)) false threeFile
def threeOpened : Htab := endOf openPages threeTable
def threeAsked : Htab := endOf ((Act.get (.ofBytes [1]) 0).run []) threeOpened

theorem threeTable_known : knownTable threeOpening threeFile = some threeTable := by
  unfold knownTable
  exact if_pos (by decide +kernel)

theorem threeAsked_usage : ReadUsage threeTable threeAsked [] := by
  have opened : ReadUsage threeTable threeOpened [] := .opened (run_of_answer (a := ()) (t := []) (by decide +kernel))
  exact opened.act (.get (.ofBytes [1]) 0) rfl (run_of_answer (a := []) (t := []) (by decide +kernel))

theorem read_only_three : threeAsked.mp.file = threeFile ∧
    ∀ last t, hdestroy.run threeAsked = (.ok () last, t) → closedFile last = threeFile := by
  obtain ⟨same, _, _, _, closes⟩ := read_only_writes_nothing threeTable_known rfl threeAsked_usage
  exact ⟨same, closes⟩

end Examples

end Htab
end FileHash
