import FileHash.Lookups

/-! A lookup run alone. What a job does on the pool of an image it does on the table of the
sequential model, and there the job of `_ffdb_hash_get` comes to what `hashGet` comes to. -/
namespace FileHash.Htab

open Lib (Prog Script)
open Page

structure Image.Pooled {h₀ : Htab} (img : Image h₀) (pgp : Pagepool) : Prop where
  readable : pgp.Readable
  counted : pgp.Counted
  tells : ∀ p c, pgp.Looks p c → img.Tells p c
  room : pgp.maxpgno < maxPageNumber
  resets : (∀ n c, pgp.Survives n (FileHash.initPage h₀.hdr.bsize c n hashBucketPage)) ∨ pgp.Unmarked

section Pool

variable {h₀ : Htab} {img : Image h₀} {pgp pgp' : Pagepool} {id p : Nat}

theorem Image.Pooled.keeps (h : img.Pooled pgp) (keeps : Pagepool.Keeps pgp pgp')
    (counted : pgp'.Counted) (room : pgp'.maxpgno < maxPageNumber) : img.Pooled pgp' where
  readable := keeps.readable
  counted := counted
  tells q c looks := h.tells q c (keeps.looks q c looks)
  room := room
  resets := by
    refine h.resets.imp (fun survives n c => ?_) keeps.unmarked
    rw [Pagepool.Survives, Pagepool.RoundTrip, keeps.pgin, keeps.pgout]
    exact survives n c

theorem Image.Blank.tells (blank : img.Blank p) {e : Page} (empty : e.numEnt = 0) : img.Tells p e := by
  refine ⟨fun on => ?_, fun _ _ _ _ => empty⟩
  obtain ⟨b, low, nil, number⟩ := blank
  rcases on with data | ⟨b', low', on⟩
  · exact absurd data (number ▸ (img.apart b low).1)
  · exact absurd on (number ▸ img.own b low nil b' low')

theorem Image.Pooled.rewrite (h : img.Pooled pgp) (mem : id ∈ pgp.lqh)
    (number : (pgp.bkt id).pgno = p) (blank : img.Blank p) {f : Page → Page}
    (empty : (f (pgp.bkt id).page).numEnt = 0)
    (survives : (pgp.bkt id).dirty = true → pgp.Survives p (f (pgp.bkt id).page)) :
    img.Pooled (pgp.setBkt id fun b => { b with page := f b.page }) := by
  have other : ∀ j, j ≠ id →
      (pgp.setBkt id fun b => { b with page := f b.page }).bkt j = pgp.bkt j :=
    fun j ne => Pagepool.setBkt_other ne
  have kept : ∀ j, ((pgp.setBkt id fun b => { b with page := f b.page }).bkt j).pgno =
      (pgp.bkt j).pgno ∧
      ((pgp.setBkt id fun b => { b with page := f b.page }).bkt j).dirty = (pgp.bkt j).dirty := by
    intro j
    by_cases same : j = id
    · rw [same, Pagepool.setBkt_same]
      exact ⟨rfl, rfl⟩
    · rw [other j same]
      exact ⟨rfl, rfl⟩
  have clean : ∀ q, (pgp.setBkt id fun b => { b with page := f b.page }).CleanAt q → pgp.CleanAt q :=
    fun q cleanq j memj eq => by
      rw [← (kept j).2]
      exact cleanq j memj ((kept j).1.trans eq)
  refine ⟨⟨h.readable.linked.setBkt rfl, fun q cleanq => h.readable.whole q (clean q cleanq),
    fun j memj dirty => ?_⟩, h.counted, ?_, h.room, h.resets.imp (fun all => all) fun u j memj => ?_⟩
  · rw [(kept j).2] at dirty
    by_cases same : j = id
    · subst same
      rw [Pagepool.setBkt_same, number]
      exact survives dirty
    · rw [other j same]
      exact h.readable.survives j memj dirty
  · rintro q c ⟨d, shows, agree⟩
    rcases shows with ⟨j, memj, eq, same⟩ | ⟨cleanq, stored⟩
    · by_cases here : j = id
      · subst here
        rw [(kept j).1, number] at eq
        subst eq
        rw [Pagepool.setBkt_same] at same
        exact blank.tells ((agree.trans same).numEnt.trans empty)
      · rw [other j here] at eq same
        exact h.tells q c ⟨d, .inl ⟨j, memj, eq, same⟩, agree⟩
    · exact h.tells q c ⟨d, .inr ⟨clean q cleanq, stored⟩, agree⟩
  · rw [(kept j).2]
    exact u j memj

theorem Image.Pooled.reset (h : img.Pooled pgp) (mem : id ∈ pgp.lqh)
    (number : (pgp.bkt id).pgno = p) (blank : img.Blank p) : img.Pooled (pgp.setBkt id fun b =>
      { b with page := FileHash.initPage h₀.hdr.bsize b.page p hashBucketPage }) := by
  refine h.rewrite mem number blank (f := fun c => FileHash.initPage h₀.hdr.bsize c p hashBucketPage)
    (numEnt_initPage ..) fun dirty => ?_
  rcases h.resets with survives | unmarked
  · exact survives p _
  · rw [unmarked id mem] at dirty
    cases dirty

end Pool

def PageOp.serve : (op : PageOp) → Run op.Ans
  | .get pageno flags => do
    if ← fails then pure none else fetch pageno flags
  | .page mem => Htab.page mem
  | .store mem f => Htab.store mem f
  | .put mem dirty => putPage mem dirty
  | .stop why => Prog.halt why

section Serving

variable {h₀ hashp : Htab} {img : Image h₀} {hand : Hand} {id p : Nat} {α : Type}

/-- The table serves the image, and the thread has these pages in hand. -/
structure Serving (img : Image h₀) (hashp : Htab) (hand : Hand) : Prop where
  serves : img.Serves hashp
  pooled : img.Pooled hashp.mp
  inHand : ∀ id p, hand id = some p → InHand hashp id p

theorem Serving.get (h : Serving img hashp hand) (create : Bool)
    (low : create = true → p < maxPageNumber) (other : ∀ id q, hand id = some q → q ≠ p) :
    ∃ id hashp', (PageOp.serve (.get p { create := create })).Returns hashp (some id) hashp' ∧
      hand id = none ∧ Serving img hashp' (Function.update hand id (some p)) := by
  have counted : Serving img { hashp with fetches := hashp.fetches + 1 } hand :=
    ⟨h.serves.note _ _, h.pooled, fun id p inHand => ⟨(h.inHand id p inHand).mem,
      (h.inHand id p inHand).number, (h.inHand id p inHand).pinned⟩⟩
  have ready : ∀ {r : Option Nat} {hashp'}, (fetch p { create := create }).Returns
      { hashp with fetches := hashp.fetches + 1 } r hashp' →
      (PageOp.serve (.get p { create := create })).Returns hashp r hashp' := fun run =>
    Prog.returns_bind.mpr ⟨false, _, fails_returns h.serves, run⟩
  revert ready counted
  generalize { hashp with fetches := hashp.fetches + 1 } = start
  intro counted ready
  have pooled := counted.pooled
  rcases Pagepool.getPage_fetches (ε := Event) self p pooled.readable pooled.counted
    create with ⟨id, found, wait, _⟩ | ⟨id, pgp', run, f, top, _⟩ | ⟨_, _, _, full, _⟩
  · have alone := counted.serves.alone id (pooled.readable.linked.find_eq_some.mp found).1
    by_cases pin : (start.mp.bkt id).pinned
    · simp [Pagepool.mustWait, alone.owner pin] at wait
    · simp [Pagepool.mustWait, pin, alone.waiters] at wait
  · have still : ∀ j q, hand j = some q → InHand (hold id (setMp pgp' start)) j q := by
      intro j q inHand
      obtain ⟨mem, number, pinned⟩ := counted.inHand j q inHand
      obtain ⟨mem', same⟩ := f.held j mem pinned (by rw [number]; exact other j q inHand)
      exact ⟨mem', (congrArg Bkt.pgno same).trans number, (congrArg Bkt.pinned same).trans pinned⟩
    have got : (pool (Pagepool.getPage self p { create := create })).Returns start (.page id)
        (setMp pgp' start) := Prog.returns_zoom.mpr ⟨pgp', by rw [Prog.Returns, run], rfl⟩
    refine ⟨id, hold id (setMp pgp' start), ready ?_, ?_, ?_, ?_, ?_⟩
    · rw [fetch, noteAgain_returns.bind, got.bind, Prog.returns_modify_bind, Prog.returns_pure]
      exact ⟨rfl, rfl⟩
    · by_contra some
      obtain ⟨q, inHand⟩ := Option.ne_none_iff_exists'.mp some
      exact other id q inHand ((still id q inHand).number.symm.trans f.number)
    · refine ⟨?_, counted.serves.fault, f.keeps.readable, f.counted, f.alone counted.serves.alone,
        fun q c l => counted.serves.tells q c (f.keeps.looks q c l)⟩
      conv_lhs => rw [counted.serves.frame]
      rfl
    · refine pooled.keeps f.keeps f.counted ?_
      have room := pooled.room
      have most := f.top
      cases create with
      | false => exact (top rfl).trans_lt room
      | true => exact most.trans_lt (max_lt room (low rfl))
    · intro j q inHand
      by_cases same : j = id
      · rw [same, Function.update_self, Option.some.injEq] at inHand
        rw [same, ← inHand]
        exact ⟨f.mem, f.number, f.pinned⟩
      · rw [Function.update_of_ne same] at inHand
        exact still j q inHand
  · exact absurd full pooled.room.ne

theorem Serving.put (h : Serving img hashp hand) (inHand : hand id = some p) : ∃ hashp',
    (putPage id false).Returns hashp () hashp' ∧ Serving img hashp' (Function.update hand id none) := by
  have pinned := (h.inHand id p inHand).pinned
  have keeps := Pagepool.keeps_release id h.pooled.readable
  obtain ⟨hashp', run, serves, _⟩ := putPage_returns h.serves (h.inHand id p inHand)
  have put : (pool (Pagepool.putPage id false)).Returns hashp ()
      (setMp (hashp.mp.setBkt id (Pagepool.release false)) hashp) :=
    Prog.returns_zoom.mpr ⟨_, by simp [Prog.Returns, Pagepool.putPage, pinned], rfl⟩
  have state : unhold id (setMp (hashp.mp.setBkt id (Pagepool.release false)) hashp) = hashp' := by
    rw [putPage, put.bind, Prog.returns_modify] at run
    exact run
  refine ⟨hashp', run, serves, ?_, fun j q other => ?_⟩
  · rw [← state]
    exact h.pooled.keeps keeps h.pooled.counted h.pooled.room
  · by_cases same : j = id
    · rw [same, Function.update_self] at other
      cases other
    · rw [Function.update_of_ne same] at other
      have entry : (hashp.mp.setBkt id (Pagepool.release false)).bkt j = hashp.mp.bkt j :=
        Pagepool.setBkt_other same
      have hand' := h.inHand j q other
      rw [← state]
      exact ⟨hand'.mem, (congrArg Bkt.pgno entry).trans hand'.number,
        (congrArg Bkt.pinned entry).trans hand'.pinned⟩

theorem Serving.reset (h : Serving img hashp hand) (inHand : hand id = some p) (blank : img.Blank p) :
    ∃ hashp', (Htab.store id fun c => FileHash.initPage h₀.hdr.bsize c p hashBucketPage).Returns
      hashp () hashp' ∧ Serving img hashp' hand := by
  have pooled := h.pooled.reset (h.inHand id p inHand).mem (h.inHand id p inHand).number blank
  refine ⟨setMp (hashp.mp.setBkt id fun b =>
    { b with page := FileHash.initPage h₀.hdr.bsize b.page p hashBucketPage }) hashp,
    rfl, ⟨?_, h.serves.fault, pooled.readable, pooled.counted,
      fun j mem => ?_, pooled.tells⟩, pooled, fun j q other => ?_⟩
  · conv_lhs => rw [h.serves.frame]
    rfl
  · have alone := h.serves.alone j mem
    by_cases same : j = id
    · subst same
      simp only [setMp, Pagepool.setBkt_same]
      exact ⟨alone.waiters, alone.wqh, alone.owner⟩
    · simp only [setMp, Pagepool.setBkt_other same]
      exact alone
  · have hand' := h.inHand j q other
    by_cases same : j = id
    · subst same
      refine ⟨hand'.mem, ?_, ?_⟩
      · simp only [setMp, Pagepool.setBkt_same]
        exact hand'.number
      · simp only [setMp, Pagepool.setBkt_same]
        exact hand'.pinned
    · refine ⟨hand'.mem, ?_, ?_⟩
      · simp only [setMp, Pagepool.setBkt_other same]
        exact hand'.number
      · simp only [setMp, Pagepool.setBkt_other same]
        exact hand'.pinned

theorem exec_returns {Q : α → Hand → Prop} {m : Job α} (obeys : Script.Obeys (readerRules img) Q hand m)
    (h : Serving img hashp hand) : ∃ a hashp' hand', (m.exec PageOp.serve).Returns hashp a hashp' ∧
      Q a hand' ∧ Serving img hashp' hand' := by
  induction m generalizing hashp hand with
  | done a => exact ⟨a, hashp, hand, Prog.returns_pure.mpr ⟨rfl, rfl⟩, obeys, h⟩
  | ask op next ih =>
    obtain ⟨may, rest⟩ := obeys
    -- one operation, and the rest by induction
    have served : ∃ ans mid hand', op.serve.Returns hashp ans mid ∧
        (readerRules img).gives hand op ans hand' ∧ Serving img mid hand' := by
      cases op with
      | get q flags =>
        obtain ⟨⟨create, rfl, low⟩, order⟩ := may
        have other : ∀ id r, hand id = some r → r ≠ q := by
          rintro id r inHand rfl
          exact (order id r inHand).1 (order id r inHand).2
        obtain ⟨id, mid, run, free, serving⟩ := h.get create low other
        exact ⟨some id, mid, _, run, ⟨id, rfl, free, rfl⟩, serving⟩
      | page mem =>
        obtain ⟨q, inHand⟩ := Option.isSome_iff_exists.mp may
        refine ⟨_, hashp, hand, page_returns, ⟨fun r same => ?_, rfl⟩, h⟩
        exact h.serves.page (h.inHand mem r same)
      | store mem f =>
        obtain ⟨q, inHand, blank, rfl⟩ := may
        obtain ⟨mid, run, serving⟩ := h.reset inHand blank
        exact ⟨(), mid, hand, run, rfl, serving⟩
      | put mem dirty =>
        obtain ⟨some, rfl⟩ := may
        obtain ⟨q, inHand⟩ := Option.isSome_iff_exists.mp some
        obtain ⟨mid, run, serving⟩ := h.put inHand
        exact ⟨(), mid, _, run, rfl, serving⟩
      | stop why => exact may.elim
    obtain ⟨ans, mid, hand', run, gives, serving⟩ := served
    obtain ⟨a, hashp', hand'', run', post, serving'⟩ := ih ans (rest ans hand' gives) serving
    exact ⟨a, hashp', hand'', run.bind.mpr run', post, serving'⟩

end Serving

structure Apart (h₀ hashp hashp' : Htab) : Prop where
  hdr : hashp.hdr = h₀.hdr
  hash : hashp.hash = h₀.hash
  hCompare : hashp.hCompare = h₀.hCompare
  flag : hashp.dataValidFlag = h₀.dataValidFlag
  same : hashp' = { hashp with held := hashp'.held }

section Alike

variable {h₀ : Htab} {α β : Type}

theorem Apart.skip {m : Run Unit} {k : Unit → Run α} {m' : Run α}
    (skip : ∀ s : Htab, ∃ held, (m.run s).1 = .ok () { s with held := held })
    (rest : Prog.Alike (Apart h₀) (k ()) m') : Prog.Alike (Apart h₀) (m >>= k) m' := by
  refine Prog.alike_skip (fun s s' apart => ?_) rest
  obtain ⟨held, run⟩ := skip s
  exact ⟨_, run, apart.hdr, apart.hash, apart.hCompare, apart.flag, apart.same⟩

theorem skip_noteSlip (mem : Nat) (why : Slip) (s : Htab) :
    ∃ held, ((noteSlip mem why).run s).1 = .ok () { s with held := held } := by
  refine ⟨s.held, ?_⟩
  simp only [noteSlip, Prog.run_read_bind]
  split <;> rfl

theorem pool_alike (m : Prog Pagepool Event α) :
    Prog.Alike (Apart h₀) (pool m) (pool m) := by
  intro s s' apart
  have mp : s'.mp = s.mp := by rw [apart.same]
  simp only [pool, Prog.zoom, mp]
  rcases m.run s.mp with ⟨⟨a, mp'⟩ | why, t⟩
  · refine .ok ⟨apart.hdr, apart.hash, apart.hCompare, apart.flag, ?_⟩
    conv_lhs => rw [apart.same]
    rfl
  · exact .halt

theorem hold_alike (mem : Nat) :
    Prog.Alike (Apart h₀) (Prog.modify (hold mem) : Run Unit) (Prog.modify (hold mem)) := by
  refine Prog.alike_modify fun s s' apart => ⟨apart.hdr, apart.hash, apart.hCompare, apart.flag, ?_⟩
  conv_lhs => rw [apart.same]
  rfl

theorem unhold_alike (mem : Nat) :
    Prog.Alike (Apart h₀) (Prog.modify (unhold mem) : Run Unit) (Prog.modify (unhold mem)) := by
  refine Prog.alike_modify fun s s' apart => ⟨apart.hdr, apart.hash, apart.hCompare, apart.flag, ?_⟩
  conv_lhs => rw [apart.same]
  rfl

theorem noteAgain_alike (p : Nat) : Prog.Alike (Apart h₀) (noteAgain p) (noteAgain p) := by
  intro s s' apart
  have stays : ∀ t : Htab, ((noteAgain p).run t).1 = .ok () t := fun t => noteAgain_returns
  rw [stays, stays]
  exact .ok apart

theorem fails_alike : Prog.Alike (Apart h₀) fails fails := by
  intro s s' apart
  have fault : s'.fault = s.fault := by rw [apart.same]
  have fetches : s'.fetches = s.fetches := by rw [apart.same]
  have counted : Apart h₀ { s with fetches := s.fetches + 1 } { s' with fetches := s'.fetches + 1 } := by
    refine ⟨apart.hdr, apart.hash, apart.hCompare, apart.flag, ?_⟩
    conv_lhs => rw [apart.same]
  have run : ∀ t : Htab, (fails.run t).1 =
      .ok (t.fault t.fetches) { t with fetches := t.fetches + 1 } := by
    intro t
    simp only [fails, Prog.run_read_bind, Prog.run_modify_bind]
    cases t.fault t.fetches <;> rfl
  have same : s'.fault s'.fetches = s.fault s.fetches := by rw [fault, fetches]
  rw [run, run, same]
  exact .ok counted

theorem fetch_alike (p : Nat) (flags : PageFlags) :
    Prog.Alike (Apart h₀) (fetch p flags) (fetch p flags) := by
  refine Prog.alike_bind (noteAgain_alike p) fun _ => Prog.alike_bind (pool_alike _) fun r => ?_
  cases r with
  | page mem => exact Prog.alike_bind (hold_alike mem) fun _ => Prog.alike_pure _
  | wait mem => exact Prog.alike_halt _
  | error => exact Prog.alike_pure _

theorem putPage_alike (mem : Nat) (dirty : Bool) :
    Prog.Alike (Apart h₀) (putPage mem dirty) (putPage mem dirty) :=
  Prog.alike_bind (pool_alike _) fun _ => unhold_alike mem

theorem page_alike (mem : Nat) : Prog.Alike (Apart h₀) (page mem) (page mem) :=
  Prog.alike_reads fun s s' apart => by rw [apart.same]

theorem act_alike (op : PageOp) {m : Run op.Ans} {k : op.Ans → Run α} {f : op.Ans → Job α}
    (first : Prog.Alike (Apart h₀) m op.serve)
    (rest : ∀ ans, Prog.Alike (Apart h₀) (k ans) ((f ans).exec PageOp.serve)) :
    Prog.Alike (Apart h₀) (m >>= k) (((Script.act op : Job op.Ans) >>= f).exec PageOp.serve) :=
  Prog.alike_bind first rest

theorem bind_alike {m : Run α} {k : α → Run β} {j : Job α} {f : α → Job β}
    (first : Prog.Alike (Apart h₀) m (j.exec PageOp.serve))
    (rest : ∀ a, Prog.Alike (Apart h₀) (k a) ((f a).exec PageOp.serve)) :
    Prog.Alike (Apart h₀) (m >>= k) ((j >>= f).exec PageOp.serve) := by
  have := Prog.lawful (σ := Htab) (ε := Event)
  rw [Script.exec_bind]
  exact Prog.alike_bind first rest

theorem address_alike (addr ty : Nat) :
    Prog.Alike (Apart h₀) (address addr ty) ((Job.address h₀ addr ty).exec PageOp.serve) := by
  refine Prog.alike_read_bind fun hashp ⟨_, apart⟩ => ?_
  unfold Job.address
  rw [apart.hdr]
  split_ifs
  · exact fun _ _ _ => .halt
  · exact Prog.alike_pure _
  · exact Prog.alike_pure _

theorem initPage_alike (mem p ty : Nat) :
    Prog.Alike (Apart h₀) (initPage mem p ty)
      (PageOp.serve (.store mem fun c => FileHash.initPage h₀.hdr.bsize c p ty)) := by
  refine Prog.alike_read_bind fun hashp ⟨_, apart⟩ => ?_
  rw [apart.hdr]
  exact pool_alike _

theorem getPage_alike (addr ty : Nat) (flags : PageFlags) :
    Prog.Alike (Apart h₀) (getPage addr ty flags) ((Job.getPage h₀ addr ty flags).exec PageOp.serve) := by
  have := Prog.lawful (σ := Htab) (ε := Event)
  refine bind_alike (address_alike addr ty) fun p => ?_
  change Prog.Alike (Apart h₀) _ ((fails >>= fun b => if b = true then pure none else fetch p flags) >>=
    fun r => _)
  rw [bind_assoc]
  refine Prog.alike_bind fails_alike fun b => ?_
  cases b with
  | true => exact Prog.alike_pure _
  | false =>
    refine Prog.alike_bind (fetch_alike p flags) fun r => ?_
    cases r with
    | none => exact Prog.alike_pure _
    | some mem =>
      refine act_alike (.page mem) (page_alike mem) fun c => ?_
      by_cases init : flags.create = true ∧ c.currPgno = 0
      · rw [if_pos init, if_pos init]
        refine act_alike (.store mem _) (initPage_alike mem p ty) fun _ => ?_
        exact Apart.skip (skip_noteSlip mem .unnumbered) (Prog.alike_pure _)
      · rw [if_neg init, if_neg init]
        exact Prog.alike_pure _

theorem findChain_alike (key : Dbt) (chksum fuel pagep pgno : Nat) :
    Prog.Alike (Apart h₀) (findChain key chksum fuel pagep pgno)
      ((Job.findChain h₀ key chksum fuel pagep pgno).exec PageOp.serve) := by
  induction fuel generalizing pagep pgno with
  | zero => exact fun _ _ _ => .halt
  | succ fuel ih =>
    refine Prog.alike_read_bind fun hashp ⟨_, apart⟩ => act_alike (.page pagep) (page_alike pagep) fun c => ?_
    rw [apart.hCompare]
    cases findKey h₀.hCompare key c with
    | some i => exact Prog.alike_pure _
    | none =>
      by_cases last : c.nextPgno = invalidPgno
      · simp only [if_pos last]
        exact Prog.alike_pure _
      · simp only [if_neg last]
        refine act_alike (.put pagep false) (putPage_alike pagep false) fun _ => ?_
        refine bind_alike (getPage_alike _ _ _) fun r => ?_
        obtain ⟨_ | mem, p⟩ := r
        · exact Prog.alike_pure _
        · exact ih mem p

theorem findItem_alike (bucket : Nat) (key : Dbt) :
    Prog.Alike (Apart h₀) (findItem bucket key none)
      ((Job.findItem h₀ bucket key).exec PageOp.serve) := by
  refine bind_alike (getPage_alike _ _ _) fun r => ?_
  obtain ⟨_ | mem, p⟩ := r
  · exact Prog.alike_pure _
  · refine Prog.alike_read_bind fun hashp _ => act_alike (.page mem) (page_alike mem) fun c => ?_
    by_cases empty : c.numEnt = 0
    · have reset : Prog.Alike (Apart h₀)
          (do
            initPage mem p hashBucketPage
            if (none : Option Dbt).isNone ∧ resets hashp.hdr.bsize p c then noteSlip mem .emptied
            pure (some ⟨mem, p, 0, .noMore, 0⟩))
          ((do
            Job.initPage h₀ mem p hashBucketPage
            pure (some ⟨mem, p, 0, .noMore, 0⟩) : Job (Option Hent)).exec PageOp.serve) := by
        refine act_alike (.store mem _) (initPage_alike mem p hashBucketPage) fun _ => ?_
        split_ifs
        · exact Apart.skip (skip_noteSlip mem .emptied) (Prog.alike_pure _)
        · exact Prog.alike_pure _
      simp only [if_pos empty]
      by_cases chained : c.nextPgno ≠ invalidPgno
      · rw [if_pos chained]
        exact Apart.skip (fun s => ⟨s.held, rfl⟩) reset
      · rw [if_neg chained]
        exact reset
    · simp only [if_neg empty]
      exact findChain_alike key 0 pageFuel mem c.currPgno

theorem copyData_alike (fuel pagep start rlen : Nat) (sofar : List UInt8) :
    Prog.Alike (Apart h₀) (copyData h₀.hdr.bsize fuel pagep start rlen sofar)
      ((Job.copyData h₀ fuel pagep start rlen sofar).exec PageOp.serve) := by
  induction fuel generalizing pagep start rlen sofar with
  | zero => exact fun _ _ _ => .halt
  | succ fuel ih =>
    refine act_alike (.page pagep) (page_alike pagep) fun c => ?_
    by_cases past : h₀.hdr.bsize < start
    · rw [if_pos past, if_pos past]
      exact fun _ _ _ => .halt
    · rw [if_neg past, if_neg past]
      refine act_alike (.put pagep false) (putPage_alike pagep false) fun _ => ?_
      generalize (if start + rlen ≤ h₀.hdr.bsize then rlen else h₀.hdr.bsize - start) = copylen
      by_cases all : rlen - copylen = 0
      · simp only [if_pos all]
        exact Prog.alike_pure _
      · simp only [if_neg all]
        refine bind_alike (getPage_alike _ _ _) fun r => ?_
        obtain ⟨_ | mem, p⟩ := r
        · exact Prog.alike_pure _
        · exact ih mem _ _ _

theorem getData_alike (keyPage keyIdx room : Nat) (datap : Datap) :
    Prog.Alike (Apart h₀) (getData keyPage keyIdx room datap)
      ((Job.getData h₀ keyPage keyIdx room datap).exec PageOp.serve) := by
  refine Prog.alike_read_bind fun hashp ⟨_, apart⟩ => bind_alike (getPage_alike _ _ _) fun r => ?_
  rw [apart.hdr, apart.flag]
  obtain ⟨_ | mem, p⟩ := r
  · exact Prog.alike_pure _
  · refine act_alike (.page mem) (page_alike mem) fun c => ?_
    have unheld : ∀ (why : Leak) (s : Htab), ∃ held,
        ((leak mem why).run s).1 = .ok () { s with held := held } := fun _ s => ⟨_, rfl⟩
    by_cases wrong : datap.first ≠ c.currPgno ∨ c.numEnt < 1 ∨
        headerMatches h₀.hdr.version h₀.dataValidFlag c datap keyPage keyIdx = false
    · simp only [if_pos wrong]
      exact fun _ _ _ => .halt
    · simp only [if_neg wrong]
      by_cases short : 0 < room ∧ room < dataLen h₀.hdr.version datap
      · simp only [if_pos short]
        exact Apart.skip (unheld .shortValue) (Prog.alike_pure _)
      · simp only [if_neg short]
        by_cases empty : dataLen h₀.hdr.version datap = 0
        · simp only [if_pos empty]
          exact Apart.skip (unheld .emptyValue) (Prog.alike_pure _)
        · simp only [if_neg empty]
          refine bind_alike (copyData_alike _ _ _ _ _) fun bytes => ?_
          cases bytes with
          | none => exact Prog.alike_pure _
          | some bytes =>
            by_cases same : Checksum.crc32Checksum 0 bytes = datap.chksum
            · simp only [if_pos same]
              exact Prog.alike_pure _
            · simp only [if_neg same]
              exact Prog.alike_pure _

theorem getItem_alike (pagep pgno pgndx room : Nat) :
    Prog.Alike (Apart h₀) (getItem pagep pgno pgndx room true)
      ((Job.getItem h₀ pagep pgno pgndx room).exec PageOp.serve) := by
  refine act_alike (.page pagep) (page_alike pagep) fun c => ?_
  refine bind_alike (getData_alike _ _ _ _) fun r => ?_
  by_cases failed : r.1 ≠ 0
  · simp only [if_pos failed, if_true]
    exact Apart.skip (fun s => ⟨_, rfl⟩) (Prog.alike_pure _)
  · simp only [if_neg failed, if_true]
    exact act_alike (.put pagep false) (putPage_alike pagep false) fun _ => Prog.alike_pure _

/-- The job of `_ffdb_hash_get`, run by one thread, is `hashGet`. -/
theorem hashGet_alike (key : Dbt) (room : Nat) :
    Prog.Alike (Apart h₀) (hashGet key room) ((Job.hashGet h₀ key room).exec PageOp.serve) := by
  refine Apart.skip (fun s => ⟨[], rfl⟩) ?_
  intro s s' apart
  have bucket : (callHash key).run s =
      (.ok (h₀.hdr.bucketOf (u32 (h₀.hash (key.data.bytes (u32 key.size))))) s, []) := by
    rw [← apart.hdr, ← apart.hash]
    rfl
  rw [Prog.run_bind bucket]
  refine bind_alike (findItem_alike _ key) (fun r => ?_) s s' apart
  cases r with
  | none => exact Prog.alike_pure _
  | some item =>
    by_cases none : item.status = .noMore
    · simp only [if_pos none]
      exact act_alike (.put item.pagep false) (putPage_alike item.pagep false) fun _ => Prog.alike_pure _
    · simp only [if_neg none]
      exact getItem_alike item.pagep item.pgno item.pgndx room

end Alike

theorem hashGet_returns {h₀ hashp : Htab} {img : Image h₀} (searchable : img.Searchable)
    (h : Serving img hashp noPage) {key : Dbt} {room : Nat} (fair : img.Fair key room) :
    ∃ hashp', (hashGet key room).Returns hashp (img.answer key) hashp' := by
  have apart : Apart h₀ hashp hashp := by
    rw [h.serves.frame]
    exact ⟨rfl, rfl, rfl, rfl, rfl⟩
  obtain ⟨a, end', _, run, ⟨rfl, _⟩, _⟩ := exec_returns (hashGet_obeys searchable fair) h
  obtain ⟨hashp', run', _⟩ := (hashGet_alike key room).returns apart run
  exact ⟨hashp', run'⟩

end FileHash.Htab
