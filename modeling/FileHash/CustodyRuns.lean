import FileHash.CustodyCalls
import FileHash.PageEntries

/-! Whole uses of a database: it is opened, called any number of times with any number of cursors,
and closed. In a run whose events are orderly the pages pinned between two calls are those the
cursors are on, and, if no change slips by, the cache and the file agree but for marked pages. -/
namespace FileHash.Htab

open Lib (Prog)
open Lib.Prog (Guarded guarded_mono guarded_bind guarded_read_bind guarded_pure guarded_modify)

variable {careful : Bool} {H : List Hold} {mem pagep : Nat} {t : Bool}

namespace Keeping

section Moves

theorem updateDataPagesContent (oldpage newpage : Nat) (m : Move) (fuel i : Nat) :
    Keeping careful (⟨pagep, true⟩ :: H) (updateDataPagesContent pagep oldpage newpage m fuel i)
      (Done careful (⟨pagep, true⟩ :: H)) := by
  induction fuel generalizing i with
  | zero => exact halt _
  | succ fuel ih =>
    refine read fun hashp => reads fun p => ite (fun _ => ite (fun _ => ih _) fun _ => ?_) fun _ => done rfl
    refine fetch rfl rfl fun dpagep n => reads fun d => ite (fun _ => halt _) fun _ => ?_
    exact store (putDirty (ih _))

theorem updateKeyPagesContent (oldpage newpage : Nat) (m : Move) (fuel i next : Nat) :
    Keeping careful (⟨pagep, true⟩ :: H) (updateKeyPagesContent pagep oldpage newpage m fuel i next)
      (Done careful (⟨pagep, true⟩ :: H)) := by
  induction fuel generalizing i next with
  | zero => exact halt _
  | succ fuel ih =>
    refine reads fun p => ite (fun _ => fetch rfl rfl fun kpagep n => reads fun k => ?_) fun _ => done rfl
    refine ite (fun _ => halt _) fun _ => store (ite (fun _ => ?_) fun _ => putDirty (ih _ _))
    exact swap (store (swap (putDirty (ih _ _))))

theorem relink (neighbour rpage : Nat) (m : Move) (tell link : Nat → Page → Page) :
    Keeping careful (⟨pagep, t⟩ :: H) (relink pagep neighbour rpage m tell link) fun went hashp =>
      went = true ∧ Custody careful (⟨pagep, true⟩ :: H) hashp := by
  refine ite (fun _ => store (pure fun _ pre => ⟨rfl, pre⟩)) fun _ => fetch rfl rfl fun other n => ?_
  exact store (putDirty (pure fun _ pre => ⟨rfl, pre.touch⟩))

theorem updateContent (type pgno rpage : Nat) (m : Move) :
    Keeping careful (⟨pagep, true⟩ :: H) (updateContent type pagep pgno rpage m)
      (Done careful (⟨pagep, true⟩ :: H)) :=
  ite (fun _ => reads fun _ => updateKeyPagesContent _ _ _ _ _ _) fun _ =>
    ite (fun _ => updateDataPagesContent _ _ _ _ _) fun _ => done rfl

theorem moveOne (type pgno rpage : Nat) (m : Move) :
    Keeping careful (⟨pagep, false⟩ :: H) (moveOne type pagep pgno rpage m) fun went hashp =>
      went = true ∧ Custody careful H hashp := by
  have still : ∀ t, Keeping careful (⟨pagep, t⟩ :: H) (Pure.pure true : Run Bool) fun went hashp =>
      went = true ∧ Custody careful (⟨pagep, true⟩ :: H) hashp := fun t => pure fun _ pre => ⟨rfl, pre.touch⟩
  refine reads fun p => ?_
  have behind : Keeping careful (⟨pagep, true⟩ :: H) (do
      let behind ← if p.prevPgno ≠ invalidPgno then
          Htab.relink pagep p.prevPgno rpage m (fun v q => q.setNextPgno v) (fun v q => q.setPrevPgno v)
        else Pure.pure true
      if !behind then Pure.pure false
      else
        Htab.store pagep fun q => q.setCurrPgno rpage
        let status ← Htab.updateContent type pagep pgno rpage m
        if status ≠ 0 then
          Htab.putPage pagep false
          Pure.pure false
        else
          let q ← Htab.page pagep
          Htab.changePage pagep q.currPgno
          Pure.pure true : Run Bool) fun went hashp => went = true ∧ Custody careful H hashp := by
    refine ite (fun _ => bind (relink _ _ _ _ _) fun behind went => ?_) fun _ => bind (still _) fun behind went => ?_
    all_goals
      refine ite (fun no => absurd no (by simp [went])) fun _ => store ?_
      refine bind (updateContent type pgno rpage m) fun status zero => ite (fun bad => absurd zero bad) fun _ => ?_
      exact reads fun q => next changing fun _ => pure fun _ pre => ⟨rfl, pre⟩
  refine ite (fun _ => bind (relink _ _ _ _ _) fun ahead went => ?_) fun _ => bind (still _) fun ahead went => ?_
  all_goals exact ite (fun no => absurd no (by simp [went])) fun _ => behind

theorem movePagesLoop (type : Nat) (m : Move) (numpages pgno rpage dlast : Nat) :
    Keeping careful H (movePagesLoop type m numpages pgno rpage dlast) fun _ => Custody careful H := by
  induction numpages generalizing pgno rpage dlast with
  | zero => exact pure fun _ pre => pre
  | succ numpages ih =>
    refine fetch rfl rfl fun pagep n => reads fun p => ite (fun _ => put (ih _ _ _)) fun _ => ?_
    refine bind (moveOne _ _ _ _) fun went yes => ite (fun _ => ih _ _ _) fun no => absurd yes no

theorem movePages (type : Nat) (m : Move) : Keeping careful H (movePages type m) fun _ => Custody careful H :=
  movePagesLoop _ _ _ _ _ _

theorem removePages (npages p : Nat) : Keeping careful H (removePages npages p) fun _ => Custody careful H := by
  induction npages generalizing p with
  | zero => exact pure fun _ pre => pre
  | succ npages ih => exact fetch rfl rfl fun pagep n => next deleting fun _ => ih _

theorem setting {f : Hashhdr → Hashhdr} (proper : ∀ hdr : Hashhdr, hdr.Proper → (f hdr).Proper) :
    Keeping careful H (Prog.modify (setHdr f)) fun _ => Custody careful H :=
  noting (fun _ => rfl) fun _ => proper _

theorem rearragePagesOnClose : Keeping careful H rearragePagesOnClose fun _ => Custody careful H := by
  refine read fun hashp => ite (fun _ => pure fun _ pre => pre) fun _ => ite (fun _ => halt _) fun _ => ?_
  refine next (movePages _ _) fun _ => next (movePages _ _) fun _ => next (movePages _ _) fun _ => ?_
  exact setting fun _ h => h.setMoved (lt_of_le_of_lt (min_le_right _ _) (Hashhdr.u32_lt _))

theorem rearragePagesOnOpen : Keeping careful H rearragePagesOnOpen fun _ => Custody careful H := by
  refine read fun hashp => ite (fun _ => pure fun _ pre => pre) fun _ => next (movePages _ _) fun last => ?_
  refine next (movePages _ _) fun _ => next (movePages _ _) fun _ => ite (fun _ => ?_) fun _ => ?_
  · refine next (lastDataPage _ _) fun last => note (fun _ => rfl) (fun _ h => h) ?_
    exact next (setting fun _ h => h.setMoved (by decide)) fun _ => removePages _ _
  · exact next (setting fun _ h => h.setMoved (by decide)) fun _ => removePages _ _

end Moves

section Opens

theorem makePages (addrtype npages p : Nat) : Keeping careful H (makePages addrtype npages p) fun _ =>
    Custody careful H := by
  induction npages generalizing p with
  | zero => exact pure fun _ pre => pre
  | succ npages ih => exact bind (making _ _) fun _ _ => ih _

theorem lockPages (addrtype npages p : Nat) : Keeping careful H (lockPages addrtype npages p) fun _ =>
    Custody careful H := by
  induction npages generalizing p with
  | zero => exact pure fun _ pre => pre
  | succ npages ih =>
    refine read fun hashp => guarded_bind (getting rfl) ?_
    rintro ⟨_ | mem, n⟩ s pre good
    · exact (Lib.Prog.guarded_halt _ : Keeping careful H _ _) s
        (by rcases pre with ⟨_, same, _⟩ | ⟨_, _, pre⟩; cases same; exact pre) good
    · rcases pre with ⟨_, same, pre⟩ | ⟨same, _⟩
      · cases same
        exact (put (ih _) : Keeping careful (⟨mem, false⟩ :: H) _ _) s pre good
      · cases same

theorem readInfo (addrtype start npages : Nat) : Keeping careful H (readInfo addrtype start npages) fun _ =>
    Custody careful H :=
  read fun _ => ite (fun _ => next (makePages _ _ _) fun _ => lockPages _ _ _) fun _ => lockPages _ _ _

theorem openPages : Keeping careful H openPages fun _ => Custody careful H := by
  have resume : Keeping careful H (do
      let hashp ← Prog.read
      let spare := hashp.hdr.spares (hashp.hdr.ovflPoint + 1)
      if 0 < spare then
        let last ← Htab.lastDataPage pageFuel (u32 (spare + 0xffffffff))
        Prog.modify fun hashp => { hashp with currDpage := last } : Run Unit) fun _ => Custody careful H :=
    read fun _ => ite (fun _ => next (lastDataPage _ _) fun _ => noting (fun _ => rfl) fun _ h => h) fun _ =>
      pure fun _ pre => pre
  refine next (read fun _ => readInfo _ _ _) fun _ => next (read fun _ => readInfo _ _ _) fun _ => read fun hashp => ?_
  exact ite (fun _ => next rearragePagesOnOpen fun _ => resume) fun _ => resume

end Opens

section Calls

theorem releasing : Keeping careful (⟨mem, false⟩ :: H) (releaseItem mem) fun _ => Custody careful H :=
  putting fun touched => absurd touched Bool.false_ne_true

theorem enter : Keeping careful H enter fun _ => Custody careful H := noting (fun _ => rfl) fun _ h => h

theorem expandTable : Keeping careful H expandTable fun _ => Custody careful H := by
  have rest : ∀ (old new : Nat) (doubling : Bool), Keeping careful H (do
      let hashp ← Prog.read
      if hashp.hdr.bucketToPage new = maxPages then Prog.halt .exit
      else if ← Htab.newPage new hashBucketPage then
        if doubling = true then
          Htab.flushMeta
          Htab.syncPool
        Htab.splitBucket old new
      else Pure.pure (-1) : Run Int) fun _ => Custody careful H := by
    intro old new doubling
    refine read fun hashp => ite (fun _ => halt _) fun _ => bind (making _ _) fun made yes => ?_
    refine ite (fun _ => ite (fun _ => ?_) fun _ => splitBucket _ _) fun no => absurd yes no
    exact next flushMeta fun _ => next syncPool fun _ => splitBucket _ _
  refine read fun hashp => ite (fun _ => mark trivial ?_) fun _ => ?_
  all_goals
    refine next (setting fun _ h => h.growMasks) fun _ => ite (fun _ => ?_) fun _ => rest _ _ _
    exact note (fun _ => rfl) (fun _ h => h.setPoint (Hashhdr.log2_lt _)) (rest _ _ _)

theorem hashGet (key : Dbt) (room : Nat) : Keeping careful H (hashGet key room) fun _ => Custody careful H := by
  refine next enter fun _ => reads fun bucket => found fun item t quiet => ?_
  cases t with
  | true => exact absurd (quiet rfl).1 (by simp)
  | false => exact ite (fun _ => next releasing fun _ => pure fun _ pre => pre) fun _ => getItemFree _ _ _

theorem putNew (key data : Dbt) (item : Hent) :
    Keeping careful (⟨item.pagep, t⟩ :: H) (putNew key data item) fun _ => Custody careful H := by
  have counting : Keeping careful H countKey fun _ => Custody careful H := setting fun _ h => h.countKey
  refine reads fun p => ite (fun _ => next (addPair _ _ _) fun status => ?_) fun _ => next (addOvflpage _ _ _)
    fun status => ?_
  · exact ite (fun _ => next counting fun _ => pure fun _ pre => pre) fun _ => pure fun _ pre => pre
  · refine ite (fun _ => pure fun _ pre => pre) fun _ => next expandTable fun status => ?_
    exact next counting fun _ => pure fun _ pre => pre

theorem putOld (key data : Dbt) (item : Hent) (flag : Nat) :
    Keeping careful (⟨item.pagep, false⟩ :: H) (putOld key data item flag) fun _ => Custody careful H := by
  refine ite (fun _ => leak) fun _ => next (replacePair _ _ _) fun status => ?_
  exact ite (fun _ => pure fun _ pre => pre) fun _ => pure fun _ pre => pre

theorem hashPut (key data : Dbt) (flag : Nat) : Keeping careful H (hashPut key data flag) fun _ =>
    Custody careful H := by
  refine next enter fun _ => read fun hashp => ite (fun _ => pure fun _ pre => pre) fun _ => reads fun bucket => ?_
  refine found fun item t quiet => ite (fun _ => putNew _ _ _) fun more => ?_
  cases t with
  | true => exact absurd (quiet rfl).2 more
  | false => exact putOld _ _ _ _

theorem hashSync : Keeping careful H hashSync fun _ => Custody careful H :=
  next enter fun _ => next flushMeta fun _ => syncPool

end Calls

section Metadata

theorem setConfigsLoop (configs : Nat → ConfigInfo) (npages pgno cnum tnums : Nat) :
    Keeping careful H (setConfigsLoop configs npages pgno cnum tnums) fun _ => Custody careful H := by
  induction npages generalizing pgno cnum tnums with
  | zero => exact pure fun _ pre => pre
  | succ npages ih =>
    exact read fun hashp => fetch rfl rfl fun pagep n => store (reads fun p => putDirty (ih _ _ _))

theorem setAllConfigs (numconfigs : Nat) (configs : Nat → ConfigInfo) :
    Keeping careful H (setAllConfigs numconfigs configs) fun _ => Custody careful H :=
  next enter fun _ => read fun _ => ite (fun _ => pure fun _ pre => pre) fun _ => read fun _ => setConfigsLoop _ _ _ _ _

theorem getConfigsLoop (npages pgno : Nat) (sofar : List ConfigInfo) :
    Keeping careful H (getConfigsLoop npages pgno sofar) fun _ => Custody careful H := by
  induction npages generalizing pgno sofar with
  | zero => exact pure fun _ pre => pre
  | succ npages ih => exact fetch rfl rfl fun pagep n => reads fun p => put (ih _ _)

theorem getAllConfigs : Keeping careful H getAllConfigs fun _ => Custody careful H :=
  next enter fun _ => read fun _ => getConfigsLoop _ _ _

theorem setConfigInfoLoop (config : ConfigInfo) (npages pgno : Nat) :
    Keeping careful H (setConfigInfoLoop config npages pgno) fun _ => Custody careful H := by
  induction npages generalizing pgno with
  | zero => exact pure fun _ pre => pre
  | succ npages ih =>
    refine fetch rfl rfl fun pagep n => reads fun p => ?_
    split
    · exact store (putDirty (pure fun _ pre => pre))
    · exact put (ih _)

theorem setConfig (config : ConfigInfo) : Keeping careful H (setConfig config) fun _ => Custody careful H :=
  next enter fun _ => read fun _ => ite (fun _ => setConfigInfoLoop _ _ _) fun _ => pure fun _ pre => pre

theorem getConfigInfoLoop (confignum npages pgno : Nat) :
    Keeping careful H (getConfigInfoLoop confignum npages pgno) fun _ => Custody careful H := by
  induction npages generalizing pgno with
  | zero => exact pure fun _ pre => pre
  | succ npages ih =>
    refine fetch rfl rfl fun pagep n => reads fun p => ?_
    split
    · exact put (pure fun _ pre => pre)
    · exact put (ih _)

theorem getConfig (confignum index : Nat) : Keeping careful H (getConfig confignum index) fun _ =>
    Custody careful H :=
  next enter fun _ => read fun _ => ite (fun _ => getConfigInfoLoop _ _ _) fun _ => pure fun _ pre => pre

theorem setUinfoLoop (data : Dbt) (npages pgno : Nat) (first : Bool) (rlen : Nat) :
    Keeping careful H (setUinfoLoop data npages pgno first rlen) fun _ => Custody careful H := by
  induction npages generalizing pgno first rlen with
  | zero => exact pure fun _ pre => pre
  | succ npages ih => exact read fun hashp => fetch rfl rfl fun pagep n => store (putDirty (ih _ _ _))

theorem setUserInfo (data : Dbt) : Keeping careful H (setUserInfo data) fun _ => Custody careful H :=
  next enter fun _ => read fun _ => ite (fun _ => pure fun _ pre => pre) fun _ => read fun _ => setUinfoLoop _ _ _ _ _

theorem getUinfoLoop (npages pgno rlen : Nat) (sofar : List UInt8) :
    Keeping careful H (getUinfoLoop npages pgno rlen sofar) fun _ => Custody careful H := by
  induction npages generalizing pgno rlen sofar with
  | zero => exact pure fun _ pre => pre
  | succ npages ih => exact read fun hashp => fetch rfl rfl fun pagep n => reads fun p => put (ih _ _ _)

theorem getUserInfo (len : Nat) : Keeping careful H (getUserInfo len) fun _ => Custody careful H := by
  refine next enter fun _ => read fun hashp => ?_
  split
  · exact pure fun _ pre => pre
  · refine fetch rfl rfl fun pagep n => reads fun p => ite (fun _ => leak) fun _ => put ?_
    exact next (getUinfoLoop _ _ _ _) fun r => pure fun _ pre => pre

end Metadata

section CursorCalls

theorem cursorCall (crs : Crs) (keyRoom : Nat) (dataRoom : Option Nat) (flags : Nat) :
    Keeping careful (crs.holds ++ H) (cursorCall crs keyRoom dataRoom flags) fun r =>
      Custody careful (r.2.1.holds ++ H) :=
  next enter fun _ => note (fun _ => rfl) (fun _ h => h) (cursorGet _ _ _ _)

theorem cursorCloseCall (crs : Crs) : Keeping careful (crs.holds ++ H) (cursorCloseCall crs) fun _ =>
    Custody careful H :=
  next enter fun _ => note (fun _ => rfl) (fun _ h => h) (releaseCursor _)

end CursorCalls

theorem hdestroy : Keeping careful H hdestroy fun _ => Custody careful H := by
  refine next enter fun _ => read fun hashp => ite (fun _ => next rearragePagesOnClose fun _ => ?_) fun _ => ?_
  all_goals exact next flushMeta fun _ => syncPool

end Keeping

inductive Act where
  | put (key data : Dbt) (flag : Nat)
  | get (key : Dbt) (room : Nat)
  | sync
  | cursorOpen (keyCursor : Bool)
  | cursorGet (place keyRoom : Nat) (dataRoom : Option Nat) (flags : Nat)
  | cursorClose (place : Nat)
  | setAllConfigs (numconfigs : Nat) (configs : Nat → ConfigInfo)
  | getAllConfigs
  | setConfig (config : ConfigInfo)
  | getConfig (confignum index : Nat)
  | setUserInfo (data : Dbt)
  | getUserInfo (len : Nat)

def Act.run : Act → List Crs → Run (List Crs)
  | put key data flag, open_ => do let _ ← hashPut key data flag; pure open_
  | get key room, open_ => do let _ ← hashGet key room; pure open_
  | sync, open_ => do hashSync; pure open_
  | cursorOpen keyCursor, open_ => pure (hashCursor keyCursor :: open_)
  | cursorGet place keyRoom dataRoom flags, open_ =>
    match open_[place]? with
    | none => pure open_
    | some crs => do
      let r ← cursorCall crs keyRoom dataRoom flags
      pure (open_.set place r.2.1)
  | cursorClose place, open_ =>
    match open_[place]? with
    | none => pure open_
    | some crs => do
      cursorCloseCall crs
      pure (open_.eraseIdx place)
  | setAllConfigs numconfigs configs, open_ => do let _ ← Htab.setAllConfigs numconfigs configs; pure open_
  | getAllConfigs, open_ => do let _ ← Htab.getAllConfigs; pure open_
  | setConfig config, open_ => do let _ ← Htab.setConfig config; pure open_
  | getConfig confignum index, open_ => do let _ ← Htab.getConfig confignum index; pure open_
  | setUserInfo data, open_ => do let _ ← Htab.setUserInfo data; pure open_
  | getUserInfo len, open_ => do let _ ← Htab.getUserInfo len; pure open_

/-- The states of a database in use, each with the open cursors and the events since it was opened. -/
inductive Usage (start : Htab) : Htab → List Crs → List Event → Prop
  | opened {hashp : Htab} {t : List Event} (ran : openPages.run start = (.ok () hashp, t)) :
      Usage start hashp [] t
  | act {hashp hashp' : Htab} {open_ open' : List Crs} {t t' : List Event} (before : Usage start hashp open_ t)
      (act : Act) (ran : (act.run open_).run hashp = (.ok open' hashp', t')) : Usage start hashp' open' (t ++ t')

def openHolds (open_ : List Crs) : List Hold := open_.flatMap Crs.holds

theorem openHolds_perm {open_ : List Crs} {place : Nat} {crs : Crs} (at_place : open_[place]? = some crs) :
    (openHolds open_).Perm (crs.holds ++ openHolds (open_.eraseIdx place)) := by
  obtain ⟨low, rfl⟩ := List.getElem?_eq_some_iff.mp at_place
  exact (List.getElem_cons_eraseIdx_perm low).symm.flatMap_right _

theorem openHolds_set {open_ : List Crs} {place : Nat} {crs : Crs} (low : place < open_.length) :
    (crs.holds ++ openHolds (open_.eraseIdx place)).Perm (openHolds (open_.set place crs)) :=
  (List.set_perm_cons_eraseIdx low crs).symm.flatMap_right _

namespace Keeping

theorem act (act : Act) (open_ : List Crs) :
    Keeping careful (openHolds open_) (act.run open_) fun open' => Custody careful (openHolds open') := by
  cases act with
  | put key data flag => exact next (hashPut _ _ _) fun _ => pure fun _ pre => pre
  | get key room => exact next (hashGet _ _) fun _ => pure fun _ pre => pre
  | sync => exact next hashSync fun _ => pure fun _ pre => pre
  | cursorOpen keyCursor => exact pure fun _ pre => pre
  | cursorGet place keyRoom dataRoom flags =>
    cases at_place : open_[place]? with
    | none =>
      simp only [Act.run, at_place]
      exact pure fun _ pre => pre
    | some crs =>
      simp only [Act.run, at_place]
      have low := (List.getElem?_eq_some_iff.mp at_place).1
      refine perm (openHolds_perm at_place) (guarded_bind (cursorCall _ _ _ _) fun r => ?_)
      exact pure fun _ pre => pre.perm (openHolds_set low)
  | cursorClose place =>
    cases at_place : open_[place]? with
    | none =>
      simp only [Act.run, at_place]
      exact pure fun _ pre => pre
    | some crs =>
      simp only [Act.run, at_place]
      exact perm (openHolds_perm at_place) (next (cursorCloseCall _) fun _ => pure fun _ pre => pre)
  | setAllConfigs numconfigs configs => exact next (setAllConfigs _ _) fun _ => pure fun _ pre => pre
  | getAllConfigs => exact next getAllConfigs fun _ => pure fun _ pre => pre
  | setConfig config => exact next (setConfig _) fun _ => pure fun _ pre => pre
  | getConfig confignum index => exact next (getConfig _ _) fun _ => pure fun _ pre => pre
  | setUserInfo data => exact next (setUserInfo _) fun _ => pure fun _ pre => pre
  | getUserInfo len => exact next (getUserInfo _) fun _ => pure fun _ pre => pre

theorem comes {α : Type} {m : Run α} {Q : α → Htab → Prop} {hashp hashp' : Htab} {a : α} {t : List Event}
    (h : Keeping careful H m Q) (pre : Custody careful H hashp) (ran : m.run hashp = (.ok a hashp', t))
    (orderly : ∀ e ∈ t, Orderly careful e) : Q a hashp' ∧ ∀ e ∈ t, Sparing careful e := by
  obtain ⟨spares, post⟩ := h hashp pre (by rw [Prog.Passes, ran]; exact orderly)
  refine ⟨post a hashp' (by rw [Prog.Returns, ran]), ?_⟩
  rw [Prog.Passes, ran] at spares
  exact spares

end Keeping

variable {o : Opening} {start hashp : Htab} {open_ : List Crs} {t : List Event}

def SetUp (o : Opening) (start : Htab) : Prop :=
  freshTable o = some start ∨ ∃ file, knownTable o file = some start

theorem custody_tableOf {hdr : Hashhdr} (newFile : Bool) (file : Pagefile) (proper : hdr.Proper) :
    Custody careful [] (tableOf o hdr newFile file) where
  tidy := by
    refine ⟨Pagepool.linked_openFd, ?_, fun id mem => absurd mem List.not_mem_nil, fun n high => ?_⟩
    · have same : (hdr.lorder != littleEndian) = false := by simp [proper.native]
      change Pagepool.Filters (pginRoutine hdr.bsize (hdr.lorder != littleEndian))
        (pgoutRoutine hdr.bsize (hdr.lorder != littleEndian))
      rw [same]
      exact filters_native
    · change Page.pageSign (file.read n) ≠ pageMagic
      rw [Pagefile.read, if_neg (not_lt.mpr (show file.length ≤ n from high))]
      exact Pagepool.pageSign_zero
  counted := rfl
  once id mem := absurd mem List.not_mem_nil
  nodup := List.nodup_nil
  held id := ⟨fun mem => absurd mem List.not_mem_nil, fun mem => absurd mem.1 List.not_mem_nil⟩
  saved _ id mem := absurd mem List.not_mem_nil
  proper := proper

theorem SetUp.custody (made : SetUp o start) (proper : start.hdr.Proper) : Custody careful [] start := by
  rcases made with made | ⟨file, read⟩
  · obtain ⟨sizes, _, made⟩ := Option.bind_eq_some_iff.mp made
    obtain ⟨hdr, _, made⟩ := Option.bind_eq_some_iff.mp made
    cases made
    exact custody_tableOf true _ proper
  · unfold knownTable at read
    dsimp only at read
    split at read
    · cases read
      exact custody_tableOf false file proper
    · cases read

theorem Usage.custody (usage : Usage start hashp open_ t) (fine : Custody careful [] start)
    (orderly : ∀ e ∈ t, Orderly careful e) :
    Custody careful (openHolds open_) hashp ∧ ∀ e ∈ t, Sparing careful e := by
  induction usage with
  | opened ran => exact Keeping.openPages.comes fine ran orderly
  | act before act ran ih =>
    obtain ⟨pre, spares⟩ := ih fun e mem => orderly e (List.mem_append_left _ mem)
    obtain ⟨post, spares'⟩ := (Keeping.act act _).comes pre ran fun e mem => orderly e (List.mem_append_right _ mem)
    exact ⟨post, fun e mem => (List.mem_append.mp mem).elim (spares e) (spares' e)⟩

theorem map_openHolds (open_ : List Crs) : (openHolds open_).map Hold.id = open_.filterMap Crs.pagep := by
  induction open_ with
  | nil => rfl
  | cons crs open_ ih =>
    rw [openHolds, List.flatMap_cons, List.map_append, show open_.flatMap Crs.holds = openHolds open_ from rfl, ih]
    cases on : crs.pagep with
    | none => simp [Crs.holds, on]
    | some pagep => simp [Crs.holds, on]

theorem untouched_openHolds (id : Nat) : (⟨id, true⟩ : Hold) ∉ openHolds open_ := by
  intro mem
  obtain ⟨crs, _, mem⟩ := List.mem_flatMap.mp mem
  obtain ⟨pagep, _, same⟩ := List.mem_map.mp mem
  cases same

theorem Custody.pins (account : Custody careful (openHolds open_) hashp) :
    (∀ id ∈ hashp.mp.lqh, ((hashp.mp.bkt id).pinned = true ↔ id ∈ open_.filterMap Crs.pagep) ∧
      (hashp.mp.bkt id).ref = (open_.filterMap Crs.pagep).count id) ∧
      ∀ id ∈ open_.filterMap Crs.pagep, id ∈ hashp.mp.lqh := by
  have held := account.held
  have nodup := account.nodup
  rw [map_openHolds] at held nodup
  refine ⟨fun id mem => ⟨?_, ?_⟩, fun id on => ((held id).mp on).1⟩
  · exact ⟨fun pin => (held id).mpr ⟨mem, pin⟩, fun on => ((held id).mp on).2⟩
  · rw [account.once id mem]
    by_cases on : id ∈ open_.filterMap Crs.pagep
    · rw [if_pos ((held id).mp on).2, List.count_eq_one_of_mem nodup on]
    · rw [if_neg fun pin => on ((held id).mpr ⟨mem, pin⟩), List.count_eq_zero_of_not_mem on]

/-- Between two calls the pinned pages are those that cursors are positioned on, and a page is
counted as often as there are cursors on it: no call leaves a page behind. -/
theorem pins_exact (made : SetUp o start) (proper : start.hdr.Proper) (usage : Usage start hashp open_ t)
    (orderly : ∀ e ∈ t, Orderly false e) :
    (∀ id ∈ hashp.mp.lqh, ((hashp.mp.bkt id).pinned = true ↔ id ∈ open_.filterMap Crs.pagep) ∧
      (hashp.mp.bkt id).ref = (open_.filterMap Crs.pagep).count id) ∧
      ∀ id ∈ open_.filterMap Crs.pagep, id ∈ hashp.mp.lqh :=
  (usage.custody (made.custody proper) orderly).1.pins

/-- Between two calls every page of the cache is marked or is as its image in the file, and a
page that was deleted from the cache left its bytes in the file. -/
theorem changes_known (made : SetUp o start) (proper : start.hdr.Proper) (usage : Usage start hashp open_ t)
    (orderly : ∀ e ∈ t, Orderly true e) :
    (∀ id ∈ hashp.mp.lqh, hashp.mp.Saved id) ∧ Event.removed false ∉ t := by
  obtain ⟨account, spares⟩ := usage.custody (made.custody proper) orderly
  refine ⟨fun id mem => (account.saved rfl id mem).resolve_right (untouched_openHolds id), fun mem => ?_⟩
  exact Bool.false_ne_true (spares _ mem rfl)

section Examples

attribute [local semireducible] hashKey

deriving instance DecidableEq for Crs

def shortKey : Dbt := Dbt.ofBytes [7]

def usedTable : Htab := endOf ((Act.put shortKey oneByte 0).run []) smallOpened
def walkedTable : Htab := endOf ((Act.cursorGet 0 1 (some 1) ffdbFirst).run [hashCursor true]) usedTable

theorem smallStart_setUp : SetUp smallTable smallStart := .inl rfl

theorem smallStart_proper : smallStart.hdr.Proper :=
  ⟨rfl, .inl rfl, rfl, by decide, ⟨by decide +kernel, by decide +kernel⟩⟩

theorem usedTable_usage : Usage smallStart usedTable [] [] :=
  (Usage.opened (run_of_answer (a := ()) (t := []) (by decide +kernel)) : Usage smallStart smallOpened [] []).act
    (.put shortKey oneByte 0) (run_of_answer (a := []) (t := []) (by decide +kernel))

theorem walkedTable_usage : Usage smallStart walkedTable [⟨true, some 2, 4, 1, 0, .ok⟩] [] := by
  have opened : Usage smallStart usedTable [hashCursor true] [] := usedTable_usage.act (.cursorOpen true) rfl
  exact opened.act (.cursorGet 0 1 (some 1) ffdbFirst) (run_of_answer (t := []) (by decide +kernel))

theorem pins_exact_walked : (∀ id ∈ walkedTable.mp.lqh, (walkedTable.mp.bkt id).pinned = true ↔ id = 2) ∧
    2 ∈ walkedTable.mp.lqh := by
  obtain ⟨pins, listed⟩ := pins_exact smallStart_setUp smallStart_proper walkedTable_usage fun _ mem =>
    absurd mem List.not_mem_nil
  exact ⟨fun id mem => (pins id mem).1.trans List.mem_singleton, listed 2 List.mem_cons_self⟩

theorem changes_known_walked : (∀ id ∈ walkedTable.mp.lqh, walkedTable.mp.Saved id) ∧ 2 ∈ walkedTable.mp.lqh :=
  ⟨(changes_known smallStart_setUp smallStart_proper walkedTable_usage fun _ mem => absurd mem List.not_mem_nil).1,
    by decide +kernel⟩

end Examples

end FileHash.Htab
