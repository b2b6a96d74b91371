import ByteOS.Fs.InodeCache

/-! What holds of the inode cache after any gets and puts. -/

set_option autoImplicit false

namespace ByteOS.Fs

open Lib Mm
open Function (update update_self update_of_ne)
open InodeCache (krefDec krefInc setRc_rc setInode setInode_mem_other)

def InodeCache.key (dev : Ptr → BitVec 32) (c : InodeCache) (p : Ptr) : BitVec 64 × BitVec 32 :=
  ((c.mem p).ino, dev (c.mem p).sb)

def bucketOf (key : BitVec 64 × BitVec 32) : Nat := (hashInode key.1 key.2).toNat

/-- The buckets hold the inodes of `lists`, in both directions, each in the bucket of its
key and with the references to it as its count; keys are not shared. Only these inodes
have references. -/
structure Cached (dev : Ptr → BitVec 32) (r : Counted) (lists : Nat → List Ptr) : Prop where
  linked : ∀ hash, DList (fun p => (r.cache.mem p).next) (fun p => (r.cache.mem p).prev)
    (r.cache.buckets hash) (lists hash)
  hashed : ∀ hash, ∀ p ∈ lists hash, bucketOf (r.cache.key dev p) = hash
  unique : ∀ hash, ∀ p ∈ lists hash, ∀ q ∈ lists hash, r.cache.key dev p = r.cache.key dev q → p = q
  counted : ∀ hash, ∀ p ∈ lists hash, (r.cache.mem p).rc.toNat = r.refs p ∧ 0 < r.refs p
  listed : ∀ p, 0 < r.refs p → ∃ hash, p ∈ lists hash

variable {dev : Ptr → BitVec 32} {c : InodeCache} {r : Counted} {lists : Nat → List Ptr}
  {p q fresh sb : Ptr} {ino : BitVec 64} {hash other n : Nat} {rc : BitVec 32}

theorem cached_initial (mem : Ptr → Inode) : Cached dev (Counted.initial mem) fun _ => [] where
  linked _ := .nil
  hashed _ _ inside := by cases inside
  unique _ _ inside := by cases inside
  counted _ _ inside := by cases inside
  listed _ some := absurd some (Nat.lt_irrefl 0)

theorem key_of_data {c' : InodeCache} (same : (c'.mem p).data = (c.mem p).data) :
    c'.key dev p = c.key dev p := by
  simp only [Inode.data, Prod.mk.injEq] at same
  rw [InodeCache.key, InodeCache.key, same.1, same.2.2]

@[simp] theorem key_setRc (c : InodeCache) (p q : Ptr) (rc : BitVec 32) :
    (c.setRc p rc).key dev q = c.key dev q := by
  simp [InodeCache.key]

namespace Cached

section

variable (good : Cached dev r lists)
include good

theorem inBucket_iff : InBucket r.cache hash p ↔ p ∈ lists hash := by
  constructor
  · rintro ⟨l, chain, inside⟩
    rwa [(good.linked hash).forward.functional chain]
  · exact fun inside => ⟨lists hash, (good.linked hash).forward, inside⟩

theorem mem_bucketOf (some : 0 < r.refs p) : p ∈ lists (bucketOf (r.cache.key dev p)) := by
  obtain ⟨hash, inside⟩ := good.listed p some
  rwa [good.hashed hash p inside]

theorem bucket_eq (inside : p ∈ lists hash) (also : p ∈ lists other) : hash = other :=
  (good.hashed hash p inside).symm.trans (good.hashed other p also)

theorem refs_eq_zero (uncached : ∀ hash, p ∉ lists hash) : r.refs p = 0 := by
  by_contra some
  obtain ⟨hash, inside⟩ := good.listed p (Nat.pos_of_ne_zero some)
  exact uncached hash inside

theorem same_of_key (some : 0 < r.refs p) (some' : 0 < r.refs q)
    (same : r.cache.key dev p = r.cache.key dev q) : p = q := by
  have inside := good.mem_bucketOf some'
  rw [← same] at inside
  exact good.unique _ p (good.mem_bucketOf some) q inside same

theorem recount (inside : p ∈ lists hash) (same : rc.toNat = n) (some : 0 < n) :
    Cached dev ⟨r.cache.setRc p rc, update r.refs p n⟩ lists where
  linked hash := (good.linked hash).frame (fun q _ => r.cache.setRc_next p q rc) fun q _ =>
    r.cache.setRc_prev p q rc
  hashed hash q inside := by
    rw [key_setRc]
    exact good.hashed hash q inside
  unique hash q inside q' inside' := by
    rw [key_setRc, key_setRc]
    exact good.unique hash q inside q' inside'
  counted hash q inside := by
    dsimp only
    rw [setRc_rc]
    by_cases here : q = p
    · rw [if_pos here, here, update_self]
      exact ⟨same, some⟩
    · rw [if_neg here, update_of_ne here]
      exact good.counted hash q inside
  listed q some := by
    by_cases here : q = p
    · exact ⟨hash, here ▸ inside⟩
    · dsimp only at some
      rw [update_of_ne here] at some
      exact good.listed q some

end

end Cached

/-! ## Gets -/

theorem findInode_chain {mem : Ptr → Inode} {d : BitVec 32} {fuel : Nat} {start : Option Ptr}
    {l : List Ptr} (chain : Chain (fun p => (mem p).next) start l) (short : l.length < fuel) :
    findInode dev mem ino d fuel start = .ok (l.find? fun p => (mem p).ino = ino ∧ dev (mem p).sb = d) := by
  induction l generalizing start fuel with
  | nil =>
    obtain ⟨fuel, rfl⟩ := exists_succ_of_lt short
    obtain rfl : start = none := chain
    rfl
  | cons a rest ih =>
    obtain ⟨fuel, rfl⟩ := exists_succ_of_lt short
    obtain ⟨rfl, chain⟩ := chain
    rw [findInode, List.find?_cons]
    by_cases here : (mem a).ino = ino ∧ dev (mem a).sb = d
    · rw [if_pos here, decide_eq_true here]
    · rw [if_neg here, decide_eq_false here]
      exact ih chain (Nat.lt_of_succ_lt_succ short)

namespace Cached

theorem find_eq (good : Cached dev r lists) (sb : Ptr) (ino : BitVec 64) :
    findInode dev r.cache.mem ino (dev sb) passes (r.cache.buckets (hashInode ino (dev sb)).toNat) =
      .ok ((lists (bucketOf (ino, dev sb))).find? fun p => (r.cache.mem p).ino = ino ∧
        dev (r.cache.mem p).sb = dev sb) :=
  findInode_chain (good.linked _).forward (length_lt_passes (good.linked _).forward.nodup)

theorem get_cached (good : Cached dev r lists) (some : 0 < r.refs p)
    (same : r.cache.key dev p = (ino, dev sb)) (alloc : Option Ptr) (readOk : Bool) :
    inodeGet dev r.cache sb ino alloc readOk = .ok (r.cache.krefInc p, p) := by
  have inside := good.mem_bucketOf some
  rw [same] at inside
  have found : (lists (bucketOf (ino, dev sb))).find? (fun p => (r.cache.mem p).ino = ino ∧
      dev (r.cache.mem p).sb = dev sb) = Option.some p := by
    cases first : (lists (bucketOf (ino, dev sb))).find? fun p => (r.cache.mem p).ino = ino ∧
        dev (r.cache.mem p).sb = dev sb with
    | none =>
      have other := List.find?_eq_none.mp first p inside
      exact absurd (Prod.mk.inj same) (by simpa using other)
    | some q =>
      have agrees := List.find?_some first
      have keys : r.cache.key dev q = r.cache.key dev p := by
        rw [same]
        exact Prod.ext (of_decide_eq_true agrees).1 (of_decide_eq_true agrees).2
      rw [good.unique _ q (List.mem_of_find?_eq_some first) p inside keys]
  unfold inodeGet
  dsimp only
  rw [good.find_eq, found]
  rfl

end Cached

def InodeCache.added (dev : Ptr → BitVec 32) (c : InodeCache) (sb : Ptr) (ino : BitVec 64)
    (fresh : Ptr) : InodeCache :=
  (hlistAdd (c.setInode fresh ⟨ino, 0#32, sb, none, none⟩) (bucketOf (ino, dev sb)) fresh).setRc fresh 1#32

section Added

theorem added_next (p : Ptr) : ((c.added dev sb ino fresh).mem p).next =
    if p = fresh then c.buckets (bucketOf (ino, dev sb)) else (c.mem p).next := by
  rw [InodeCache.added, InodeCache.setRc_next, hlistAdd_next]
  by_cases here : p = fresh
  · rw [if_pos here, if_pos here]
    rfl
  · rw [if_neg here, if_neg here, setInode_mem_other _ _ here]

theorem added_prev (p : Ptr) : ((c.added dev sb ino fresh).mem p).prev =
    if c.buckets (bucketOf (ino, dev sb)) = some p then some fresh
    else if p = fresh then none else (c.mem p).prev := by
  rw [InodeCache.added, InodeCache.setRc_prev, hlistAdd_prev, InodeCache.setInode_buckets]
  by_cases here : p = fresh
  · rw [if_pos here, if_pos here]
  · rw [if_neg here, if_neg here, setInode_mem_other _ _ here]

theorem added_buckets : (c.added dev sb ino fresh).buckets =
    update c.buckets (bucketOf (ino, dev sb)) (some fresh) := by
  rw [InodeCache.added, InodeCache.setRc_buckets, hlistAdd_buckets]
  rfl

theorem added_key_self : (c.added dev sb ino fresh).key dev fresh = (ino, dev sb) := by
  rw [InodeCache.added, key_setRc, key_of_data (hlistAdd_data _ _ _ _)]
  simp [InodeCache.key, setInode]

theorem added_key_other (different : p ≠ fresh) : (c.added dev sb ino fresh).key dev p = c.key dev p := by
  rw [InodeCache.added, key_setRc, key_of_data (hlistAdd_data _ _ _ _)]
  simp [InodeCache.key, setInode, different]

theorem added_rc_self : ((c.added dev sb ino fresh).mem fresh).rc = 1#32 := by
  rw [InodeCache.added, setRc_rc, if_pos rfl]

theorem added_rc_other (different : p ≠ fresh) : ((c.added dev sb ino fresh).mem p).rc = (c.mem p).rc := by
  rw [InodeCache.added, setRc_rc, if_neg different]
  have data := hlistAdd_data (c.setInode fresh ⟨ino, 0#32, sb, none, none⟩) (bucketOf (ino, dev sb)) fresh p
  simp only [Inode.data, Prod.mk.injEq] at data
  rw [data.2.1, setInode_mem_other _ _ different]

theorem added_dealloced : (c.added dev sb ino fresh).dealloced = c.dealloced := by
  rw [InodeCache.added, InodeCache.setRc_dealloced, hlistAdd_dealloced]
  rfl

end Added

namespace Cached

theorem get_uncached (good : Cached dev r lists)
    (absent : ∀ q, 0 < r.refs q → r.cache.key dev q ≠ (ino, dev sb)) (fresh : Ptr) :
    inodeGet dev r.cache sb ino (some fresh) true = .ok (r.cache.added dev sb ino fresh, fresh) := by
  have missing : (lists (bucketOf (ino, dev sb))).find? (fun p => (r.cache.mem p).ino = ino ∧
      dev (r.cache.mem p).sb = dev sb) = none := by
    refine List.find?_eq_none.mpr fun q inside agrees => ?_
    have agrees := of_decide_eq_true agrees
    exact absent q (good.counted _ q inside).2 (Prod.ext agrees.1 agrees.2)
  have twice : (r.cache.allocInode sb fresh).setInode fresh
      { (r.cache.allocInode sb fresh).mem fresh with ino := ino } =
      r.cache.setInode fresh ⟨ino, 0#32, sb, none, none⟩ := by
    simp [InodeCache.allocInode, setInode]
  have zero : ((r.cache.setInode fresh ⟨ino, 0#32, sb, none, none⟩).mem fresh).rc = 0#32 := by
    simp [setInode]
  have data :=
    hlistAdd_data (r.cache.setInode fresh ⟨ino, 0#32, sb, none, none⟩) (bucketOf (ino, dev sb)) fresh fresh
  simp only [Inode.data, Prod.mk.injEq, zero] at data
  unfold inodeGet
  dsimp only
  rw [good.find_eq, missing]
  simp only [ok_bind, twice, if_true, kassert, zero]
  change Except.ok ((hlistAdd _ (bucketOf (ino, dev sb)) fresh).krefInc fresh, fresh) = _
  rw [krefInc, data.2.1]
  rfl

theorem insert (good : Cached dev r lists) (uncached : ∀ hash, fresh ∉ lists hash)
    (absent : ∀ q, 0 < r.refs q → r.cache.key dev q ≠ (ino, dev sb)) :
    Cached dev ⟨r.cache.added dev sb ino fresh, update r.refs fresh 1⟩
      (update lists (bucketOf (ino, dev sb)) (fresh :: lists (bucketOf (ino, dev sb)))) := by
  have apart : ∀ {hash q}, q ∈ lists hash → q ≠ fresh := fun inside same => uncached _ (same ▸ inside)
  -- the inodes of a bucket are the old ones, and the new one in its own
  have members : ∀ {hash q}, q ∈ update lists (bucketOf (ino, dev sb))
      (fresh :: lists (bucketOf (ino, dev sb))) hash ↔
      q = fresh ∧ hash = bucketOf (ino, dev sb) ∨ q ∈ lists hash := by
    intro hash q
    by_cases here : hash = bucketOf (ino, dev sb)
    · subst here
      simp
    · simp [here]
  refine ⟨fun hash => ?_, fun hash q inside => ?_, fun hash q inside q' inside' => ?_,
    fun hash q inside => ?_, fun q some => ?_⟩
  · dsimp only
    rw [added_buckets]
    by_cases here : hash = bucketOf (ino, dev sb)
    · subst here
      rw [update_self, update_self]
      have list := good.linked (bucketOf (ino, dev sb))
      have start := list.forward.start_eq
      have distinct := list.forward.nodup
      refine list.push ?_ ?_ ?_ ?_ ?_
      · rw [added_next, if_pos rfl]
      · rw [added_prev, if_neg, if_pos rfl]
        rw [start]
        exact fun first => apart (List.mem_of_head? first) rfl
      · intro b first
        rw [added_prev, if_pos first]
      · intro q inside
        rw [added_next, if_neg (apart inside)]
      · intro q inside
        rw [added_prev, if_neg, if_neg (apart (List.mem_of_mem_tail inside))]
        rw [start]
        intro first
        obtain ⟨rest, line⟩ := List.head?_eq_some_iff.mp first
        rw [line] at inside distinct
        exact (List.nodup_cons.mp distinct).1 inside
    · rw [update_of_ne here, update_of_ne here]
      refine (good.linked hash).frame (fun q inside => ?_) fun q inside => ?_
      · rw [added_next, if_neg (apart inside)]
      · rw [added_prev, if_neg, if_neg (apart inside)]
        rw [(good.linked _).forward.start_eq]
        exact fun first => here (good.bucket_eq inside (List.mem_of_head? first))
  · obtain ⟨rfl, rfl⟩ | inside := members.mp inside
    · rw [added_key_self]
    · rw [added_key_other (apart inside)]
      exact good.hashed hash q inside
  · intro same
    obtain ⟨rfl, -⟩ | old := members.mp inside <;> obtain ⟨rfl, -⟩ | old' := members.mp inside'
    · rfl
    · rw [added_key_self, added_key_other (apart old')] at same
      exact absurd same.symm (absent q' (good.counted _ q' old').2)
    · rw [added_key_self, added_key_other (apart old)] at same
      exact absurd same (absent q (good.counted _ q old).2)
    · rw [added_key_other (apart old), added_key_other (apart old')] at same
      exact good.unique hash q old q' old' same
  · dsimp only
    obtain ⟨rfl, -⟩ | inside := members.mp inside
    · rw [added_rc_self, update_self]
      decide
    · rw [added_rc_other (apart inside), update_of_ne (apart inside)]
      exact good.counted hash q inside
  · by_cases here : q = fresh
    · exact ⟨bucketOf (ino, dev sb), members.mpr (.inl ⟨here, rfl⟩)⟩
    · dsimp only at some
      rw [update_of_ne here] at some
      obtain ⟨hash, inside⟩ := good.listed q some
      exact ⟨hash, members.mpr (.inr inside)⟩

theorem get (good : Cached dev r lists) (sb : Ptr) (ino : BitVec 64)
    (uncached : ∀ hash, fresh ∉ lists hash) :
    ∃ c p lists', inodeGet dev r.cache sb ino (some fresh) true = .ok (c, p) ∧
      (r.refs p + 1 < 2 ^ 32 → Cached dev ⟨c, update r.refs p (r.refs p + 1)⟩ lists') ∧
      c.dealloced = r.cache.dealloced ∧ c.key dev p = (ino, dev sb) ∧
      (∀ q, 0 < r.refs q → r.cache.key dev q = (ino, dev sb) → p = q) ∧
      ∀ q, 0 < r.refs q → c.key dev q = r.cache.key dev q := by
  -- an inode is in its bucket as long as there are references to it, so the search finds these
  by_cases present : ∃ p, 0 < r.refs p ∧ r.cache.key dev p = (ino, dev sb)
  · obtain ⟨p, some, same⟩ := present
    have inside := good.mem_bucketOf some
    have count := (good.counted _ p inside).1
    refine ⟨r.cache.krefInc p, p, lists, good.get_cached some same _ _, fun room => ?_, rfl, ?_, ?_, ?_⟩
    · exact good.recount inside (by bv_omega) (Nat.succ_pos _)
    · rw [krefInc, key_setRc, same]
    · exact fun q some' same' => good.same_of_key some some' (same.trans same'.symm)
    · intro q _
      rw [krefInc, key_setRc]
  · have absent : ∀ q, 0 < r.refs q → r.cache.key dev q ≠ (ino, dev sb) :=
      fun q some same => present ⟨q, some, same⟩
    have none : r.refs fresh = 0 := good.refs_eq_zero uncached
    have inserted := good.insert uncached absent
    refine ⟨_, fresh, update lists (bucketOf (ino, dev sb)) (fresh :: lists (bucketOf (ino, dev sb))),
      good.get_uncached absent fresh, fun _ => ?_, added_dealloced, added_key_self,
      fun q some same => absurd same (absent q some), ?_⟩
    · rwa [none]
    · rintro q some
      refine added_key_other ?_
      rintro rfl
      omega

end Cached

/-! ## Puts -/

theorem inodePut_more (more : (c.mem p).rc - 1#32 ≠ 0#32) : inodePut dev c p = c.krefDec p := by
  have count : ((c.krefDec p).mem p).rc ≠ 0#32 := by
    rwa [krefDec, setRc_rc, if_pos rfl]
  simp only [inodePut, if_neg count]

theorem inodePut_last (last : (c.mem p).rc - 1#32 = 0#32) :
    inodePut dev c p = (hlistRemove (c.krefDec p) (bucketOf (c.key dev p)) p).deallocInode p := by
  have count : ((c.krefDec p).mem p).rc = 0#32 := by
    rwa [krefDec, setRc_rc, if_pos rfl]
  simp only [inodePut, if_pos count]
  rfl

def InodeCache.removed (dev : Ptr → BitVec 32) (c : InodeCache) (p : Ptr) : InodeCache :=
  (hlistRemove (c.krefDec p) (bucketOf (c.key dev p)) p).deallocInode p

theorem removed_key (q : Ptr) : (c.removed dev p).key dev q = c.key dev q := by
  have data : ((c.removed dev p).mem q).data = ((c.krefDec p).mem q).data := hlistRemove_data _ _ _ _
  rw [key_of_data data, krefDec, key_setRc]

theorem removed_rc (different : q ≠ p) : ((c.removed dev p).mem q).rc = (c.mem q).rc := by
  have data : ((c.removed dev p).mem q).data = ((c.krefDec p).mem q).data := hlistRemove_data _ _ _ _
  simp only [Inode.data, Prod.mk.injEq] at data
  rw [data.2.1, krefDec, setRc_rc, if_neg different]

theorem removed_next (q : Ptr) : ((c.removed dev p).mem q).next =
    if (c.mem p).prev = some q then (c.mem p).next else (c.mem q).next := by
  change ((hlistRemove (c.krefDec p) (bucketOf (c.key dev p)) p).mem q).next = _
  rw [hlistRemove_next]
  simp [krefDec]

theorem removed_prev (q : Ptr) : ((c.removed dev p).mem q).prev =
    if (c.mem p).next = some q then (c.mem p).prev else (c.mem q).prev := by
  change ((hlistRemove (c.krefDec p) (bucketOf (c.key dev p)) p).mem q).prev = _
  rw [hlistRemove_prev]
  simp [krefDec]

theorem removed_buckets : (c.removed dev p).buckets (bucketOf (c.key dev p)) =
    if (c.mem p).prev = none then (c.mem p).next else c.buckets (bucketOf (c.key dev p)) := by
  change (hlistRemove (c.krefDec p) (bucketOf (c.key dev p)) p).buckets _ = _
  rw [hlistRemove_buckets]
  simp [krefDec]

theorem removed_buckets_other (different : other ≠ bucketOf (c.key dev p)) :
    (c.removed dev p).buckets other = c.buckets other :=
  hlistRemove_buckets_other (c.krefDec p) (bucketOf (c.key dev p)) p different

namespace Cached

theorem erase (good : Cached dev r lists) (inside : p ∈ lists hash) :
    Cached dev ⟨r.cache.removed dev p, update r.refs p 0⟩ (update lists hash ((lists hash).erase p)) := by
  have distinct := (good.linked hash).forward.nodup
  have home := good.hashed hash p inside
  have members : ∀ {other q}, q ∈ update lists hash ((lists hash).erase p) other ↔ q ∈ lists other ∧
      q ≠ p := by
    intro other q
    by_cases here : other = hash
    · subst here
      rw [update_self, distinct.mem_erase_iff, and_comm]
    · rw [update_of_ne here]
      refine ⟨fun inside' => ⟨inside', ?_⟩, And.left⟩
      rintro rfl
      exact here (good.bucket_eq inside' inside)
  refine ⟨fun other => ?_, fun other q inside' => ?_, fun other q inside' q' inside'' same => ?_,
    fun other q inside' => ?_, fun q some => ?_⟩
  · have list := good.linked hash
    obtain ⟨before, after, line⟩ := List.append_of_mem inside
    rw [line] at list distinct
    by_cases here : other = hash
    · subst here
      have outside : p ∉ before :=
        fun again => (List.nodup_append.mp distinct).2.2 p again p List.mem_cons_self rfl
      rw [update_self, line, List.erase_append_right _ outside, List.erase_cons_head]
      refine list.remove ?_ (fun q _ => removed_next q) fun q _ => removed_prev q
      rw [← home]
      exact removed_buckets
    · dsimp only
      rw [update_of_ne here, removed_buckets_other (home ▸ here)]
      -- the neighbours of the inode are in its own bucket
      refine (good.linked other).frame (fun q inside' => ?_) fun q inside' => ?_
      · rw [removed_next q, if_neg]
        rw [list.prev_eq]
        intro last
        have also : q ∈ lists hash := by simp [line, List.mem_of_getLast? last]
        exact here (good.bucket_eq inside' also)
      · rw [removed_prev q, if_neg]
        rw [list.next_eq]
        intro first
        have also : q ∈ lists hash := by simp [line, List.mem_of_head? first]
        exact here (good.bucket_eq inside' also)
  · rw [removed_key]
    exact good.hashed other q (members.mp inside').1
  · rw [removed_key, removed_key] at same
    exact good.unique other q (members.mp inside').1 q' (members.mp inside'').1 same
  · obtain ⟨old, different⟩ := members.mp inside'
    dsimp only
    rw [removed_rc different, update_of_ne different]
    exact good.counted other q old
  · by_cases here : q = p
    · rw [here] at some
      simp at some
    · dsimp only at some
      rw [update_of_ne here] at some
      obtain ⟨other, old⟩ := good.listed q some
      exact ⟨other, members.mpr ⟨old, here⟩⟩

theorem put (good : Cached dev r lists) (some : 0 < r.refs p) :
    ∃ lists', Cached dev ⟨inodePut dev r.cache p, update r.refs p (r.refs p - 1)⟩ lists' ∧
      (inodePut dev r.cache p).dealloced =
      (if r.refs p = 1 then p :: r.cache.dealloced else r.cache.dealloced) ∧
      ∀ q, (inodePut dev r.cache p).key dev q = r.cache.key dev q := by
  have inside := good.mem_bucketOf some
  have count := (good.counted _ p inside).1
  by_cases last : r.refs p = 1
  · have zero : (r.cache.mem p).rc - 1#32 = 0#32 := by bv_omega
    rw [inodePut_last zero, last, if_pos rfl]
    exact ⟨_, good.erase inside, congrArg (p :: ·) (hlistRemove_dealloced _ _ _), removed_key⟩
  · have more : (r.cache.mem p).rc - 1#32 ≠ 0#32 := by bv_omega
    rw [inodePut_more more, if_neg last]
    refine ⟨lists, good.recount inside (by bv_omega) (by omega), rfl, fun q => ?_⟩
    rw [krefDec, key_setRc]

end Cached

/-! ## Runs -/

theorem Cached.step {r' : Counted} (good : Cached dev r lists) (step : Step dev (· < 2 ^ 32) r r') :
    (∃ lists', Cached dev r' lists') ∧ ∀ q, 0 < r.refs q → r'.cache.key dev q = r.cache.key dev q := by
  cases step with
  | get sb ino fresh inode uncached ran within =>
    have outside : ∀ hash, fresh ∉ lists hash :=
      fun hash inside => uncached hash (good.inBucket_iff.mpr inside)
    obtain ⟨c, p, lists', got, after, -, -, -, keys⟩ := good.get sb ino outside
    obtain ⟨rfl, rfl⟩ := Prod.mk.inj (Except.ok.inj (got.symm.trans ran))
    exact ⟨⟨lists', after within⟩, keys⟩
  | put inode outstanding =>
    obtain ⟨lists', after, -, keys⟩ := good.put outstanding
    exact ⟨⟨lists', after⟩, fun q _ => keys q⟩

theorem cached_of_run {start : Counted} (good : Cached dev start lists)
    (run : Reaches (Step dev (· < 2 ^ 32)) start r) : ∃ lists, Cached dev r lists := by
  refine run.invariant (fun r => ∃ lists, Cached dev r lists) ⟨lists, good⟩ ?_
  rintro r r' - step ⟨lists, good⟩
  exact (good.step step).1

/-- A step after which there are references to `p`. -/
def Holding (dev : Ptr → BitVec 32) (p : Ptr) (r r' : Counted) : Prop :=
  Step dev (· < 2 ^ 32) r r' ∧ 0 < r'.refs p

theorem Cached.hold {start : Counted} (good : Cached dev start lists) (some : 0 < start.refs p)
    (run : Reaches (Holding dev p) start r) :
    (∃ lists, Cached dev r lists) ∧ 0 < r.refs p ∧ r.cache.key dev p = start.cache.key dev p := by
  refine run.invariant
    (fun r => (∃ lists, Cached dev r lists) ∧ 0 < r.refs p ∧ r.cache.key dev p = start.cache.key dev p)
    ⟨⟨lists, good⟩, some, rfl⟩ ?_
  rintro r r' - ⟨step, held⟩ ⟨⟨lists, good⟩, some, same⟩
  obtain ⟨after, keys⟩ := good.step step
  exact ⟨after, held, (keys p some).trans same⟩

structure Coherent (dev : Ptr → BitVec 32) (r : Counted) : Prop where
  linked : ∀ hash, ∃ l, DList (fun p => (r.cache.mem p).next) (fun p => (r.cache.mem p).prev)
    (r.cache.buckets hash) l
  hashed : ∀ hash p, InBucket r.cache hash p → hash = bucketOf (r.cache.key dev p) ∧ hash < tabSize
  unique : ∀ hash hash' p q, InBucket r.cache hash p → InBucket r.cache hash' q →
    r.cache.key dev p = r.cache.key dev q → p = q
  counted : ∀ hash p, InBucket r.cache hash p → (r.cache.mem p).rc.toNat = r.refs p ∧ 1 ≤ r.refs p
  cached : ∀ p, 0 < r.refs p → ∃ hash, InBucket r.cache hash p

theorem Cached.coherent (good : Cached dev r lists) : Coherent dev r where
  linked hash := ⟨lists hash, good.linked hash⟩
  hashed hash p there := by
    obtain rfl := good.hashed hash p (good.inBucket_iff.mp there)
    exact ⟨rfl, hashInode_lt _ _⟩
  unique hash hash' p q there there' same :=
    good.same_of_key (good.counted hash p (good.inBucket_iff.mp there)).2
      (good.counted hash' q (good.inBucket_iff.mp there')).2 same
  counted hash p there := good.counted hash p (good.inBucket_iff.mp there)
  cached p some := by
    obtain ⟨hash, inside⟩ := good.listed p some
    exact ⟨hash, good.inBucket_iff.mpr inside⟩

theorem Cached.absent (good : Cached dev r lists) (last : r.refs p = 1)
    (there : InBucket (inodePut dev r.cache p) hash q) :
    (inodePut dev r.cache p).key dev q ≠ r.cache.key dev p := by
  intro same
  have some : 0 < r.refs p := by omega
  obtain ⟨lists', after, -, keys⟩ := good.put some
  have inside : q ∈ lists' hash := after.inBucket_iff.mp there
  have held := (after.counted hash q inside).2
  dsimp only at held
  by_cases here : q = p
  · rw [here, update_self, last] at held
    exact Nat.lt_irrefl 0 held
  · rw [update_of_ne here] at held
    rw [keys] at same
    exact here (good.same_of_key held some same)

/-- After any gets and puts with fewer than `2 ^ 32` references to each inode, the cache is
consistent. A get returns an inode with the key, and as long as there are references to
that inode all gets of the key return it. `dealloc_inode` is called for an inode when its
last reference is put and at no other time, and then the key is not in the cache. -/
theorem inode_cache_counts {mem : Ptr → Inode}
    (run : Reaches (Step dev (· < 2 ^ 32)) (Counted.initial mem) r) : Coherent dev r ∧
    (∀ sb ino fresh, (∀ hash, ¬ InBucket r.cache hash fresh) → ∃ c p,
      inodeGet dev r.cache sb ino (some fresh) true = .ok (c, p) ∧ c.key dev p = (ino, dev sb) ∧
      c.dealloced = r.cache.dealloced ∧
      (r.refs p + 1 < 2 ^ 32 → ∀ r', Reaches (Holding dev p) ⟨c, update r.refs p (r.refs p + 1)⟩ r' →
        ∀ sb' alloc readOk, dev sb' = dev sb → ∃ c', inodeGet dev r'.cache sb' ino alloc readOk =
        .ok (c', p))) ∧
    ∀ p, 0 < r.refs p →
      (inodePut dev r.cache p).dealloced =
      (if r.refs p = 1 then p :: r.cache.dealloced else r.cache.dealloced) ∧
      (r.refs p = 1 → ∀ hash q, InBucket (inodePut dev r.cache p) hash q →
        (inodePut dev r.cache p).key dev q ≠ r.cache.key dev p) := by
  obtain ⟨lists, good⟩ := cached_of_run (cached_initial mem) run
  refine ⟨good.coherent, ?_, ?_⟩
  · intro sb ino fresh uncached
    have outside : ∀ hash, fresh ∉ lists hash :=
      fun hash inside => uncached hash (good.inBucket_iff.mpr inside)
    obtain ⟨c, p, lists', got, after, kept, key, -, -⟩ := good.get sb ino outside
    refine ⟨c, p, got, key, kept, fun room r' held sb' alloc readOk device => ?_⟩
    obtain ⟨⟨lists, good'⟩, some, same⟩ := (after room).hold (p := p) (by simp) held
    exact ⟨_, good'.get_cached some (by rw [same, device]; exact key) alloc readOk⟩
  · intro p some
    obtain ⟨-, -, log, -⟩ := good.put some
    exact ⟨log, fun last hash q there => good.absent last there⟩

/-! ## One inode -/

/-- Nothing is cached but `p`, with `n` references. -/
structure Alone (dev : Ptr → BitVec 32) (p : Ptr) (key : BitVec 64 × BitVec 32) (n : Nat)
    (r : Counted) : Prop where
  buckets : r.cache.buckets = update (fun _ => none) (bucketOf key) (some p)
  next : (r.cache.mem p).next = none
  key : r.cache.key dev p = key
  count : (r.cache.mem p).rc = BitVec.ofNat 32 n
  refs : r.refs p = n

namespace Alone

variable {key : BitVec 64 × BitVec 32}

theorem inBucket (alone : Alone dev p key n r) (there : InBucket r.cache hash q) : q = p := by
  obtain ⟨l, chain, inside⟩ := there
  rw [alone.buckets] at chain
  by_cases here : hash = bucketOf key
  · rw [here, update_self] at chain
    have single : Chain (fun q => (r.cache.mem q).next) (some p) [p] := ⟨rfl, alone.next⟩
    rw [chain.functional single] at inside
    exact List.mem_singleton.mp inside
  · rw [update_of_ne here] at chain
    have nothing : Chain (fun q => (r.cache.mem q).next) none [] := rfl
    rw [chain.functional nothing] at inside
    cases inside

theorem get (alone : Alone dev p (ino, dev sb) n r) (alloc : Option Ptr) :
    inodeGet dev r.cache sb ino alloc true = .ok (r.cache.krefInc p, p) := by
  have first : r.cache.buckets (hashInode ino (dev sb)).toNat = some p := by
    rw [alone.buckets]
    exact update_self _ _ _
  have agrees : (r.cache.mem p).ino = ino ∧ dev (r.cache.mem p).sb = dev sb := Prod.mk.inj alone.key
  have found : findInode dev r.cache.mem ino (dev sb) passes (some p) = .ok (some p) := by
    obtain ⟨fuel, more⟩ : ∃ fuel, passes = fuel + 1 := ⟨2 ^ 65 - 1, by decide⟩
    rw [more, findInode, if_pos agrees]
  unfold inodeGet
  dsimp only
  rw [first, found]
  rfl

theorem krefInc (alone : Alone dev p key n r) :
    Alone dev p key (n + 1) ⟨r.cache.krefInc p, update r.refs p (r.refs p + 1)⟩ where
  buckets := alone.buckets
  next := (r.cache.setRc_next p p _).trans alone.next
  key := (key_setRc _ _ _ _).trans alone.key
  count := by
    dsimp only
    rw [InodeCache.krefInc, setRc_rc, if_pos rfl, alone.count, BitVec.ofNat_add]
  refs := by
    dsimp only
    rw [update_self, alone.refs]

end Alone

theorem alone_of_gets (limit : Nat → Prop) (mem : Ptr → Inode) (dev : Ptr → BitVec 32)
    (sb p fresh : Ptr) (ino : BitVec 64) (different : fresh ≠ p) (n : Nat) (within : ∀ k ≤ n + 1, limit k) :
    ∃ r, Reaches (Step dev limit) (Counted.initial mem) r ∧ Alone dev p (ino, dev sb) (n + 1) r := by
  induction n with
  | zero =>
    have empty : Cached dev (Counted.initial mem) fun _ => [] := cached_initial mem
    have got : inodeGet dev (Counted.initial mem).cache sb ino (some p) true = .ok (_, p) :=
      empty.get_uncached (fun q some => absurd some (Nat.lt_irrefl 0)) p
    have uncached : ∀ hash, ¬ InBucket (Counted.initial mem).cache hash p := fun hash there =>
      List.not_mem_nil (empty.inBucket_iff.mp there)
    refine ⟨_, .single (.get sb ino p p uncached got (within 1 le_rfl)), ?_⟩
    refine ⟨added_buckets, ?_, added_key_self, added_rc_self, update_self _ _ _⟩
    dsimp only
    rw [added_next, if_pos rfl]
    rfl
  | succ n ih =>
    obtain ⟨r, run, alone⟩ := ih fun k le => within k (Nat.le_succ_of_le le)
    have uncached : ∀ hash, ¬ InBucket r.cache hash fresh :=
      fun hash there => different (alone.inBucket there)
    refine ⟨_, run.tail (.get sb ino fresh p uncached (alone.get _) ?_), alone.krefInc⟩
    rw [alone.refs]
    exact within _ le_rfl

/-- Two gets of an inode. -/
theorem inode_cache_counts_two : ∃ r : Counted,
    Reaches (Step (fun _ => 7#32) (· < 2 ^ 32))
      (Counted.initial fun _ => ⟨0#64, 0#32, 0#64, none, none⟩) r ∧
    Coherent (fun _ => 7#32) r ∧ r.refs 16#64 = 2 ∧
      (inodePut (fun _ => 7#32) r.cache 16#64).dealloced = r.cache.dealloced := by
  obtain ⟨r, run, alone⟩ :=
    alone_of_gets (· < 2 ^ 32) (fun _ => ⟨0#64, 0#32, 0#64, none, none⟩) (fun _ => 7#32) 8#64
    16#64 24#64 1#64 (by decide) 1 (fun k le => by omega)
  obtain ⟨coherent, -, puts⟩ := inode_cache_counts run
  have refs := alone.refs
  obtain ⟨log, -⟩ := puts 16#64 (by omega)
  rw [if_neg (by omega)] at log
  exact ⟨r, run, coherent, refs, log⟩

/-- After `2 ^ 32` gets the count is zero again, and the inode is still in the cache. -/
theorem inode_count_wraps : ∃ r : Counted,
    Reaches (Step (fun _ => 7#32) fun _ => True)
      (Counted.initial fun _ => ⟨0#64, 0#32, 0#64, none, none⟩) r ∧
    InBucket r.cache (bucketOf (1#64, 7#32)) 16#64 ∧ r.refs 16#64 = 2 ^ 32 ∧
      (r.cache.mem 16#64).rc = 0#32 := by
  obtain ⟨r, run, alone⟩ :=
    alone_of_gets (fun _ => True) (fun _ => ⟨0#64, 0#32, 0#64, none, none⟩) (fun _ => 7#32) 8#64
    16#64 24#64 1#64 (by decide) (2 ^ 32 - 1) (fun _ _ => trivial)
  refine ⟨r, run, ⟨[16#64], ?_, List.mem_singleton_self _⟩, alone.refs, alone.count.trans (by decide)⟩
  rw [alone.buckets, update_self]
  exact ⟨rfl, alone.next⟩

end ByteOS.Fs
