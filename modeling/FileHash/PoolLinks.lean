import FileHash.Pool

/-! The links of the page pool: every entry on the LRU list is on exactly the hash
chain of its page number, and no two entries carry one number. Each primitive
change of the pool keeps this, and a chain search then finds the one entry there is. -/
namespace FileHash.Pagepool

variable {pgp : Pagepool} {id j : Nat} {f : Bkt → Bkt}

@[simp] theorem setBkt_lqh : (pgp.setBkt id f).lqh = pgp.lqh := rfl
@[simp] theorem setBkt_hqh : (pgp.setBkt id f).hqh = pgp.hqh := rfl
@[simp] theorem setBkt_brk : (pgp.setBkt id f).brk = pgp.brk := rfl
@[simp] theorem setBkt_curcache : (pgp.setBkt id f).curcache = pgp.curcache := rfl
@[simp] theorem setBkt_maxcache : (pgp.setBkt id f).maxcache = pgp.maxcache := rfl
@[simp] theorem setBkt_npages : (pgp.setBkt id f).npages = pgp.npages := rfl
@[simp] theorem setBkt_maxpgno : (pgp.setBkt id f).maxpgno = pgp.maxpgno := rfl
@[simp] theorem setBkt_rdonly : (pgp.setBkt id f).rdonly = pgp.rdonly := rfl
@[simp] theorem setBkt_pgin : (pgp.setBkt id f).pgin = pgp.pgin := rfl
@[simp] theorem setBkt_pgout : (pgp.setBkt id f).pgout = pgp.pgout := rfl
@[simp] theorem setBkt_file : (pgp.setBkt id f).file = pgp.file := rfl

@[simp] theorem setBkt_same : (pgp.setBkt id f).bkt id = f (pgp.bkt id) := by simp [setBkt]

theorem setBkt_other (h : j ≠ id) : (pgp.setBkt id f).bkt j = pgp.bkt j := by
  simp [setBkt, h]

@[simp] theorem unlink_bkt : (pgp.unlink id).bkt = pgp.bkt := rfl
@[simp] theorem unlink_lqh : (pgp.unlink id).lqh = pgp.lqh.erase id := rfl
@[simp] theorem unlink_brk : (pgp.unlink id).brk = pgp.brk := rfl
@[simp] theorem unlink_curcache : (pgp.unlink id).curcache = pgp.curcache := rfl
@[simp] theorem unlink_maxcache : (pgp.unlink id).maxcache = pgp.maxcache := rfl
@[simp] theorem unlink_npages : (pgp.unlink id).npages = pgp.npages := rfl
@[simp] theorem unlink_maxpgno : (pgp.unlink id).maxpgno = pgp.maxpgno := rfl
@[simp] theorem unlink_rdonly : (pgp.unlink id).rdonly = pgp.rdonly := rfl
@[simp] theorem unlink_pgin : (pgp.unlink id).pgin = pgp.pgin := rfl
@[simp] theorem unlink_pgout : (pgp.unlink id).pgout = pgp.pgout := rfl
@[simp] theorem unlink_file : (pgp.unlink id).file = pgp.file := rfl

@[simp] theorem link_bkt : (pgp.link id).bkt = pgp.bkt := rfl
@[simp] theorem link_lqh : (pgp.link id).lqh = pgp.lqh ++ [id] := rfl
@[simp] theorem link_brk : (pgp.link id).brk = pgp.brk := rfl
@[simp] theorem link_curcache : (pgp.link id).curcache = pgp.curcache := rfl
@[simp] theorem link_maxcache : (pgp.link id).maxcache = pgp.maxcache := rfl
@[simp] theorem link_npages : (pgp.link id).npages = pgp.npages := rfl
@[simp] theorem link_maxpgno : (pgp.link id).maxpgno = pgp.maxpgno := rfl
@[simp] theorem link_rdonly : (pgp.link id).rdonly = pgp.rdonly := rfl
@[simp] theorem link_pgin : (pgp.link id).pgin = pgp.pgin := rfl
@[simp] theorem link_pgout : (pgp.link id).pgout = pgp.pgout := rfl
@[simp] theorem link_file : (pgp.link id).file = pgp.file := rfl

structure Chained (pgp : Pagepool) : Prop where
  nodup : pgp.lqh.Nodup
  chain : ∀ id k, id ∈ pgp.hqh k ↔ id ∈ pgp.lqh ∧ k = hashKey (pgp.bkt id).pgno
  chainNodup : ∀ k, (pgp.hqh k).Nodup
  below : ∀ id ∈ pgp.lqh, id < pgp.brk

structure Linked (pgp : Pagepool) : Prop extends Chained pgp where
  unique : ∀ i ∈ pgp.lqh, ∀ j ∈ pgp.lqh, (pgp.bkt i).pgno = (pgp.bkt j).pgno → i = j

/-- Page number `p` is in the cache. -/
def Cached (pgp : Pagepool) (p : Nat) : Prop := ∃ id ∈ pgp.lqh, (pgp.bkt id).pgno = p

theorem Chained.of_find (h : Chained pgp) {p : Nat} (found : pgp.find p = some id) :
    id ∈ pgp.lqh ∧ (pgp.bkt id).pgno = p := by
  have mem := List.mem_of_find?_eq_some found
  have number := List.find?_some found
  exact ⟨((h.chain _ _).mp mem).1, by simpa using number⟩

theorem Linked.find_eq_some (h : Linked pgp) {p : Nat} :
    pgp.find p = some id ↔ id ∈ pgp.lqh ∧ (pgp.bkt id).pgno = p := by
  constructor
  · exact h.of_find
  · rintro ⟨mem, number⟩
    cases found : pgp.find p with
    | none =>
      have absent := List.find?_eq_none.mp found id
        ((h.chain _ _).mpr ⟨mem, by rw [number]⟩)
      simp [number] at absent
    | some i =>
      obtain ⟨memi, numberi⟩ := h.of_find found
      rw [h.unique i memi id mem (by rw [number, numberi])]

theorem Linked.find_eq_none (h : Linked pgp) {p : Nat} :
    pgp.find p = none ↔ ¬pgp.Cached p := by
  rw [← not_iff_not, not_not, ← ne_eq, Option.ne_none_iff_exists']
  constructor
  · rintro ⟨id, found⟩
    exact ⟨id, h.find_eq_some.mp found⟩
  · rintro ⟨id, mem, number⟩
    exact ⟨id, h.find_eq_some.mpr ⟨mem, number⟩⟩

theorem Chained.congr {pgp' : Pagepool} (h : Chained pgp) (lqh : pgp'.lqh = pgp.lqh)
    (hqh : pgp'.hqh = pgp.hqh) (brk : pgp'.brk = pgp.brk)
    (number : ∀ i ∈ pgp.lqh, (pgp'.bkt i).pgno = (pgp.bkt i).pgno) : Chained pgp' where
  nodup := by rw [lqh]; exact h.nodup
  chain i k := by
    rw [lqh, hqh, h.chain]
    constructor
    · rintro ⟨mem, key⟩
      exact ⟨mem, by rw [number i mem, key]⟩
    · rintro ⟨mem, key⟩
      exact ⟨mem, by rw [key, number i mem]⟩
  chainNodup k := by rw [hqh]; exact h.chainNodup k
  below i mem := by
    rw [lqh] at mem
    rw [brk]
    exact h.below i mem

theorem Linked.congr {pgp' : Pagepool} (h : Linked pgp) (lqh : pgp'.lqh = pgp.lqh)
    (hqh : pgp'.hqh = pgp.hqh) (brk : pgp'.brk = pgp.brk)
    (number : ∀ i ∈ pgp.lqh, (pgp'.bkt i).pgno = (pgp.bkt i).pgno) : Linked pgp' where
  toChained := h.toChained.congr lqh hqh brk number
  unique i memi j memj same := by
    rw [lqh] at memi memj
    rw [number i memi, number j memj] at same
    exact h.unique i memi j memj same

theorem setBkt_pgno (keep : (f (pgp.bkt id)).pgno = (pgp.bkt id).pgno) (i : Nat) :
    ((pgp.setBkt id f).bkt i).pgno = (pgp.bkt i).pgno := by
  by_cases same : i = id
  · rw [same, setBkt_same, keep]
  · rw [setBkt_other same]

theorem Chained.setBkt (h : Chained pgp) (keep : (f (pgp.bkt id)).pgno = (pgp.bkt id).pgno) :
    Chained (pgp.setBkt id f) := h.congr rfl rfl rfl fun i _ => setBkt_pgno keep i

theorem Linked.setBkt (h : Linked pgp) (keep : (f (pgp.bkt id)).pgno = (pgp.bkt id).pgno) :
    Linked (pgp.setBkt id f) := h.congr rfl rfl rfl fun i _ => setBkt_pgno keep i

theorem setBkt_pgno_of_not_mem (out : id ∉ pgp.lqh) (i : Nat) (mem : i ∈ pgp.lqh) :
    ((pgp.setBkt id f).bkt i).pgno = (pgp.bkt i).pgno := by
  rw [setBkt_other]
  rintro rfl
  exact out mem

theorem Chained.setBkt_of_not_mem (h : Chained pgp) (out : id ∉ pgp.lqh) :
    Chained (pgp.setBkt id f) := h.congr rfl rfl rfl (setBkt_pgno_of_not_mem out)

theorem Linked.setBkt_of_not_mem (h : Linked pgp) (out : id ∉ pgp.lqh) :
    Linked (pgp.setBkt id f) := h.congr rfl rfl rfl (setBkt_pgno_of_not_mem out)

theorem Chained.unlink (h : Chained pgp) (id : Nat) : Chained (pgp.unlink id) where
  nodup := h.nodup.erase id
  chain i k := by
    simp only [Pagepool.unlink]
    rw [h.nodup.mem_erase_iff]
    by_cases key : k = hashKey (pgp.bkt id).pgno
    · subst key
      rw [Function.update_self, (h.chainNodup _).mem_erase_iff, h.chain]
      tauto
    · rw [Function.update_of_ne key, h.chain]
      constructor
      · rintro ⟨mem, eq⟩
        exact ⟨⟨fun same => key (by rw [eq, same]), mem⟩, eq⟩
      · rintro ⟨⟨_, mem⟩, eq⟩
        exact ⟨mem, eq⟩
  chainNodup k := by
    simp only [Pagepool.unlink]
    by_cases key : k = hashKey (pgp.bkt id).pgno
    · subst key
      rw [Function.update_self]
      exact (h.chainNodup _).erase id
    · rw [Function.update_of_ne key]
      exact h.chainNodup k
  below i mem := h.below i (List.mem_of_mem_erase mem)

theorem Linked.unlink (h : Linked pgp) (id : Nat) : Linked (pgp.unlink id) where
  toChained := h.toChained.unlink id
  unique i memi j memj := h.unique i (List.mem_of_mem_erase memi) j (List.mem_of_mem_erase memj)

theorem Chained.not_mem_unlink (h : Chained pgp) : id ∉ (pgp.unlink id).lqh := by
  simp only [unlink_lqh]
  exact h.nodup.not_mem_erase

theorem Chained.link (h : Chained pgp) (out : id ∉ pgp.lqh) (low : id < pgp.brk) :
    Chained (pgp.link id) where
  nodup := by
    rw [link_lqh, List.nodup_append]
    refine ⟨h.nodup, List.pairwise_singleton _ _, fun i mem j single => ?_⟩
    rw [List.mem_singleton] at single
    subst single
    rintro rfl
    exact out mem
  chain i k := by
    simp only [Pagepool.link, List.mem_append, List.mem_singleton]
    by_cases key : k = hashKey (pgp.bkt id).pgno
    · subst key
      rw [Function.update_self, List.mem_cons, h.chain]
      constructor
      · rintro (rfl | ⟨mem, eq⟩)
        · exact ⟨.inr rfl, rfl⟩
        · exact ⟨.inl mem, eq⟩
      · rintro ⟨mem | same, eq⟩
        · exact .inr ⟨mem, eq⟩
        · exact .inl same
    · rw [Function.update_of_ne key, h.chain]
      constructor
      · rintro ⟨mem, eq⟩
        exact ⟨.inl mem, eq⟩
      · rintro ⟨mem | same, eq⟩
        · exact ⟨mem, eq⟩
        · exact absurd (by rw [eq, same]) key
  chainNodup k := by
    simp only [Pagepool.link]
    by_cases key : k = hashKey (pgp.bkt id).pgno
    · subst key
      rw [Function.update_self, List.nodup_cons]
      exact ⟨fun mem => out ((h.chain _ _).mp mem).1, h.chainNodup _⟩
    · rw [Function.update_of_ne key]
      exact h.chainNodup k
  below i mem := by
    rw [link_lqh, List.mem_append, List.mem_singleton] at mem
    rcases mem with mem | rfl
    · exact h.below i mem
    · exact low

theorem Linked.link (h : Linked pgp) (out : id ∉ pgp.lqh)
    (fresh : ¬pgp.Cached (pgp.bkt id).pgno) (low : id < pgp.brk) : Linked (pgp.link id) where
  toChained := h.toChained.link out low
  unique i memi j memj same := by
    simp only [link_lqh, link_bkt, List.mem_append, List.mem_singleton] at memi memj same
    rcases memi with memi | rfl <;> rcases memj with memj | rfl
    · exact h.unique i memi j memj same
    · exact absurd ⟨i, memi, same⟩ fresh
    · exact absurd ⟨j, memj, same.symm⟩ fresh
    · rfl

theorem Chained.requeue (h : Chained pgp) (mem : id ∈ pgp.lqh) :
    Chained ((pgp.unlink id).link id) :=
  (h.unlink id).link h.not_mem_unlink (h.below id mem)

theorem Linked.requeue (h : Linked pgp) (mem : id ∈ pgp.lqh) :
    Linked ((pgp.unlink id).link id) := by
  refine (h.unlink id).link h.not_mem_unlink ?_ (h.below id mem)
  rintro ⟨i, memi, same⟩
  rw [unlink_lqh, h.nodup.mem_erase_iff] at memi
  exact memi.1 (h.unique i memi.2 id mem same)

theorem mem_requeue (h : Chained pgp) (mem : id ∈ pgp.lqh) :
    j ∈ ((pgp.unlink id).link id).lqh ↔ j ∈ pgp.lqh := by
  rw [link_lqh, unlink_lqh, List.mem_append, List.mem_singleton, h.nodup.mem_erase_iff]
  constructor
  · rintro (⟨_, m⟩ | rfl)
    · exact m
    · exact mem
  · intro m
    by_cases same : j = id
    · exact .inr same
    · exact .inl ⟨same, m⟩

theorem linked_openFd {file : Pagefile} {mem : Nat → Bkt} {rdonly : Bool} {maxcache : Nat}
    {pgin : Nat → Page → Option Page} {pgout : Nat → Page → Page} :
    Linked (openFd file mem rdonly maxcache pgin pgout) where
  nodup := List.nodup_nil
  chain _ _ := by simp [openFd]
  chainNodup _ := List.nodup_nil
  unique _ mem := absurd mem List.not_mem_nil
  below _ mem := absurd mem List.not_mem_nil

section MergeSort

variable {le : Nat → Nat → Bool}

theorem mergeRuns_perm : ∀ ps qs : List Nat, (mergeRuns le ps qs).Perm (ps ++ qs)
  | [], qs => by simp [mergeRuns]
  | p :: ps, [] => by simp [mergeRuns]
  | p :: ps, q :: qs => by
    rw [mergeRuns]
    split
    · exact (mergeRuns_perm ps (q :: qs)).cons p
    · exact ((mergeRuns_perm (p :: ps) qs).cons q).trans List.perm_middle.symm

theorem mergePass_perm {insize : Nat} (pos : 0 < insize) (fuel : Nat) (l : List Nat)
    (enough : l.length ≤ fuel) : (mergePass le insize fuel l).1.Perm l := by
  induction fuel generalizing l with
  | zero => simp [mergePass]
  | succ fuel ih =>
    cases l with
    | nil => simp [mergePass]
    | cons x xs =>
      simp only [mergePass]
      have rest := ih (((x :: xs).drop insize).drop insize) (by
        simp only [List.length_drop, List.length_cons] at enough ⊢
        omega)
      refine ((mergeRuns_perm _ _).append rest).trans (.of_eq ?_)
      rw [List.append_assoc, List.take_append_drop, List.take_append_drop]

theorem mergeLoop_perm {insize : Nat} (pos : 0 < insize) (fuel : Nat) (l : List Nat) :
    (mergeLoop le fuel insize l).Perm l := by
  induction fuel generalizing insize l with
  | zero => exact .refl l
  | succ fuel ih =>
    have pass : (mergePass le insize l.length l).1.Perm l := mergePass_perm pos l.length l le_rfl
    simp only [mergeLoop]
    split
    · exact pass
    · exact (ih (by omega) _).trans pass

theorem slistMergeSort_perm (l : List Nat) : (slistMergeSort le l).Perm l :=
  mergeLoop_perm Nat.one_pos _ l

end MergeSort
end FileHash.Pagepool
