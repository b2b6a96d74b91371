import ByteOS.Fs.InodeRefs
import ByteOS.Fs.Ustar

/-! What `inode_get` leaves behind when `read_inode` fails.

The state is kept where a call stops, together with the mutex of the cache, so that one can
say what has been given back by then. The operations of a super block are arbitrary; those
of the initial ram disk (`kernel/fs/initrd/super.c`) are an instance.
-/

set_option autoImplicit false

namespace ByteOS.Fs

open Lib Libk Mm

structure LockedCache where
  cache : InodeCache
  mutex : Bool

/-- Code that works on the cache. A fault leaves the state as it was when it happened. -/
abbrev CacheM := ExceptT Fault (StateM LockedCache)

/-- The calls of `inode_get` through `sb->ops`; a null pointer in the table is `none`. -/
structure SuperOps where
  /-- The object that is returned has its `sb` and is zero otherwise. -/
  allocInode : Option (Ptr → Option Ptr)
  /-- The error and the inode as it is left behind. -/
  readInode : Option (Ptr → Inode → Except Fault (BitVec 64 × Inode))
  /-- Its calls are listed in the cache. -/
  deallocInode : Option Unit

def nonnull {A : Type} (pointer : Option A) (text : String) : Except Fault A :=
  match pointer with
  | some a => .ok a
  | none => .error (.kassert text)

@[simp] theorem nonnull_some {A : Type} (a : A) (text : String) : nonnull (some a) text = .ok a := rfl

namespace CacheM

def check {A : Type} (result : Except Fault A) : CacheM A := MonadExcept.ofExcept result

def update (f : InodeCache → InodeCache) : CacheM Unit := modify fun s => { s with cache := f s.cache }

/-- `mutex_lock`; the mutex is free. -/
def lock : CacheM Unit := modify fun s => { s with mutex := true }

def unlock : CacheM Unit := modify fun s => { s with mutex := false }

def exec {A : Type} (x : CacheM A) (s : LockedCache) : Except Fault A × LockedCache := x.run.run s

section Exec
variable {A B : Type} {s : LockedCache} {a : A} {fault : Fault}

@[simp] theorem exec_pure : exec (pure a : CacheM A) s = (.ok a, s) := rfl

@[simp] theorem exec_get : exec (get : CacheM LockedCache) s = (.ok s, s) := rfl

@[simp] theorem exec_check_ok : exec (check (.ok a)) s = (.ok a, s) := rfl

@[simp] theorem exec_update (f : InodeCache → InodeCache) :
    exec (update f) s = (.ok (), ⟨f s.cache, s.mutex⟩) := rfl

@[simp] theorem exec_lock : exec lock s = (.ok (), ⟨s.cache, true⟩) := rfl

@[simp] theorem exec_bind (x : CacheM A) (f : A → CacheM B) (s : LockedCache) : exec (x >>= f) s =
    match exec x s with
    | (.ok a, s') => exec (f a) s'
    | (.error fault, s') => (.error fault, s') := by
  have unfolded : exec (x >>= f) s = exec (ExceptT.mk (ExceptT.bindCont f (exec x s).1)) (exec x s).2 := rfl
  rw [unfolded]
  split <;> simp only [*] <;> rfl

end Exec

end CacheM

open CacheM

section Get
variable (dev : Ptr → BitVec 32) (ops : SuperOps) (sb : Ptr) (ino : BitVec 64)

/-- The branch of `inode_get` for an inode that is not cached. The result is null if the
inode cannot be read. -/
def readNew : CacheM (Option Ptr) := do
  let alloc ← check (nonnull ops.allocInode "HASOP(sb, alloc_inode)")
  let inode ← check (nonnull (alloc sb) "inode != NULL")
  update fun c => c.allocInode sb inode
  update fun c => c.setInode inode { c.mem inode with ino := ino }
  let read ← check (nonnull ops.readInode "HASOP(sb, read_inode)")
  let (rv, contents) ← check (read sb ((← get).cache.mem inode))
  update fun c => c.setInode inode contents
  if rv ≠ 0#64 then
    let _ ← check (nonnull ops.deallocInode "HASOP(sb, dealloc_inode)")
    update fun c => c.deallocInode inode
    return none
  else
    check (kassert (((← get).cache.mem inode).rc = 0#32) "kref_read(&inode->rc) == 0")
    update fun c => hlistAdd c (hashInode ino (dev sb)).toNat inode
    return some inode

/-- `inode_get` -/
def inodeGetLocked : CacheM (Option Ptr) := do
  lock
  let c := (← get).cache
  let cached ← check (findInode dev c.mem ino (dev sb) passes (c.buckets (hashInode ino (dev sb)).toNat))
  let inode ← match cached with
    | some inode => pure (some inode)
    | none => readNew dev ops sb ino
  -- both branches meet here, and the second one may come with the null pointer
  let counted ← check (deref inode)
  update fun c => c.krefInc counted
  unlock
  return inode

end Get

/-! ## The initial ram disk -/

def initrdRootIno : BitVec 64 := 1#64

def enoent : BitVec 64 := BitVec.ofInt 64 (-5)

/-- `mode_table` of `initrd_read_inode`, by the type of a header from `'0'` on. -/
def modeTable : List (BitVec 32) := [1#32, 0#32, 3#32, 0#32, 0#32, 2#32, 0#32]

/-- `initrd_read_inode` for the archive at `rootHdr`. The `mode` and the `ops` that it writes are
not kept. -/
def initrdReadInode (mem : Nat → Byte) (rootHdr : Nat) (sb : Ptr) (inode : Inode) :
    Except Fault (BitVec 64 × Inode) := do
  if inode.ino < initrdRootIno then return (enoent, inode)
  else if inode.ino = initrdRootIno then return (0#64, { inode with sb := sb })
  else
    kassert (inode.sb = sb) "inode->sb == &fs->super"
    let n := (inode.ino - initrdRootIno).toNat % 2 ^ 32
    -- a null archive is read at its first header already
    if rootHdr = 0 ∧ n ≠ 0 then .error .nullDeref
    let hdr := ustarNthFromEntry mem rootHdr n
    if hdr = 0 then return (enoent, inode)
    let type := (mem (hdr + typeOffset)).toNat
    kassert (48 ≤ type ∧ type ≤ 54) "hdr->type >= '0' && hdr->type <= '6'"
    kassert (modeTable.getD (type - 48) 0#32 ≠ 0#32) "mode != 0"
    return (0#64, inode)

def initrdSuperOps (mem : Nat → Byte) (rootHdr : Nat) (kmalloc : Ptr → Option Ptr) : SuperOps where
  allocInode := some kmalloc
  readInode := some (initrdReadInode mem rootHdr)
  deallocInode := some ()

/-! ## A call that fails -/

section Failure

variable {dev : Ptr → BitVec 32} {ops : SuperOps} {c : InodeCache} {sb inode : Ptr}
  {ino rv : BitVec 64} {l : List Ptr} {alloc : Ptr → Option Ptr}
  {read : Ptr → Inode → Except Fault (BitVec 64 × Inode)} {contents : Inode}

/-- The new object as `read_inode` gets it. -/
def newInode (sb : Ptr) (ino : BitVec 64) : Inode := ⟨ino, 0#32, sb, none, none⟩

def discarded (c : InodeCache) (inode : Ptr) (contents : Inode) : InodeCache :=
  { c with mem := Function.update c.mem inode contents, dealloced := inode :: c.dealloced }

theorem readNew_fails (hasAlloc : ops.allocInode = some alloc) (allocated : alloc sb = some inode)
    (hasRead : ops.readInode = some read) (failed : read sb (newInode sb ino) = .ok (rv, contents))
    (error : rv ≠ 0#64) (hasDealloc : ops.deallocInode = some ()) (mutex : Bool) :
    exec (readNew dev ops sb ino) ⟨c, mutex⟩ = (.ok none, ⟨discarded c inode contents, mutex⟩) := by
  have received : newInode sb ino = { (c.allocInode sb inode).mem inode with ino := ino } := by
    simp [newInode, InodeCache.allocInode]
  simp only [readNew, hasAlloc, hasRead, hasDealloc, exec_bind, nonnull_some, exec_check_ok,
    allocated, exec_update, exec_get, InodeCache.setInode_mem_self]
  rw [← received, failed]
  simp only [exec_check_ok, exec_bind, exec_update, if_pos error, exec_pure]
  simp [discarded, InodeCache.deallocInode, InodeCache.setInode, InodeCache.allocInode]

theorem readNew_reads (hasAlloc : ops.allocInode = some alloc) (allocated : alloc sb = some inode)
    (hasRead : ops.readInode = some read)
    (reads : read sb (newInode sb ino) = .ok (0#64, newInode sb ino)) (mutex : Bool) :
    exec (readNew dev ops sb ino) ⟨c, mutex⟩ = (.ok (some inode),
      ⟨hlistAdd (c.setInode inode (newInode sb ino)) (hashInode ino (dev sb)).toNat inode, mutex⟩) := by
  have received : { (c.allocInode sb inode).mem inode with ino := ino } = newInode sb ino := by
    simp [newInode, InodeCache.allocInode]
  simp only [readNew, hasAlloc, hasRead, exec_bind, nonnull_some, exec_check_ok, allocated,
    exec_update, exec_get, InodeCache.setInode_mem_self]
  rw [received, reads]
  simp only [exec_check_ok, exec_bind, exec_update, exec_get, if_neg (not_not.mpr rfl : ¬ (0#64 ≠ 0#64))]
  simp [InodeCache.setInode, InodeCache.allocInode, newInode, kassert]

/-- An inode that is cached is counted and returned, whatever `read_inode` would say. -/
theorem inodeGetLocked_cached {p : Ptr} (found : findInode dev c.mem ino (dev sb) passes
    (c.buckets (hashInode ino (dev sb)).toNat) = .ok (some p)) :
    exec (inodeGetLocked dev ops sb ino) ⟨c, false⟩ = (.ok (some p), ⟨c.krefInc p, false⟩) := by
  simp only [inodeGetLocked, exec_bind, exec_lock, exec_get, found, exec_check_ok, exec_pure]
  rfl

/-- Once `read_inode` has failed, `inode_get` counts a reference to the null pointer. By then
it has changed nothing in the cache and has given the new object back once, but it still
holds the mutex. Only an inode that is cached is returned. -/
theorem inode_get_failure
    (listed : Chain (fun p => (c.mem p).next) (c.buckets (hashInode ino (dev sb)).toNat) l)
    (hasAlloc : ops.allocInode = some alloc) (allocated : alloc sb = some inode)
    (fresh : ∀ hash, ¬ InBucket c hash inode) (hasRead : ops.readInode = some read)
    (failed : read sb (newInode sb ino) = .ok (rv, contents)) (error : rv ≠ 0#64)
    (hasDealloc : ops.deallocInode = some ()) :
    (∀ p, (l.find? fun p => (c.mem p).ino = ino ∧ dev (c.mem p).sb = dev sb) = some p →
      exec (inodeGetLocked dev ops sb ino) ⟨c, false⟩ = (.ok (some p), ⟨c.krefInc p, false⟩)) ∧
    ((l.find? fun p => (c.mem p).ino = ino ∧ dev (c.mem p).sb = dev sb) = none →
      ∃ c', exec (inodeGetLocked dev ops sb ino) ⟨c, false⟩ = (.error .nullDeref, ⟨c', true⟩) ∧
        c'.buckets = c.buckets ∧ (∀ hash p, InBucket c hash p → c'.mem p = c.mem p) ∧
        c'.dealloced = inode :: c.dealloced) := by
  have search : findInode dev c.mem ino (dev sb) passes
      (c.buckets (hashInode ino (dev sb)).toNat) = .ok _ :=
    findInode_chain listed (length_lt_passes listed.nodup)
  constructor
  · intro p found
    exact inodeGetLocked_cached (search.trans (by rw [found]))
  · intro missing
    rw [missing] at search
    refine ⟨discarded c inode contents, ?_, rfl, fun hash p inside => ?_, rfl⟩
    · have discards : exec (readNew dev ops sb ino) ⟨c, true⟩ = _ :=
        readNew_fails hasAlloc allocated hasRead failed error hasDealloc true
      simp only [inodeGetLocked, exec_bind, exec_lock, exec_get, search, exec_check_ok, discards]
      rfl
    · apply Function.update_of_ne
      rintro rfl
      exact fresh hash inside

/-- What a call should do that cannot read its inode: it returns null, the cache is as it was, the
new object `inode` has been given back once, and the mutex is released. -/
structure CleanFailure (c : InodeCache) (inode : Ptr)
    (outcome : Except Fault (Option Ptr) × LockedCache) : Prop where
  null : outcome.1 = .ok none
  buckets : outcome.2.cache.buckets = c.buckets
  counts : ∀ hash p, InBucket c hash p → (outcome.2.cache.mem p).rc = (c.mem p).rc
  released : outcome.2.cache.dealloced = inode :: c.dealloced
  unlocked : outcome.2.mutex = false

/-- No failure of `read_inode` is clean. If the inode is cached it is returned instead, and if it
is not, the call stops at the null pointer. -/
theorem inode_get_never_clean (dev : Ptr → BitVec 32) (ops : SuperOps) (c : InodeCache)
    (sb inode : Ptr) (ino : BitVec 64) (l : List Ptr) (alloc : Ptr → Option Ptr)
    (read : Ptr → Inode → Except Fault (BitVec 64 × Inode)) (rv : BitVec 64) (contents : Inode)
    (listed : Chain (fun p => (c.mem p).next) (c.buckets (hashInode ino (dev sb)).toNat) l)
    (hasAlloc : ops.allocInode = some alloc) (allocated : alloc sb = some inode)
    (fresh : ∀ hash, ¬ InBucket c hash inode) (hasRead : ops.readInode = some read)
    (failed : read sb (newInode sb ino) = .ok (rv, contents)) (error : rv ≠ 0#64)
    (hasDealloc : ops.deallocInode = some ()) :
    ¬ CleanFailure c inode (exec (inodeGetLocked dev ops sb ino) ⟨c, false⟩) := by
  intro clean
  obtain ⟨cached, missing⟩ :=
    inode_get_failure listed hasAlloc allocated fresh hasRead failed error hasDealloc
  have null := clean.null
  cases found : l.find? fun p => (c.mem p).ino = ino ∧ dev (c.mem p).sb = dev sb with
  | some p =>
    rw [cached p found] at null
    cases null
  | none =>
    obtain ⟨c', stopped, -⟩ := missing found
    rw [stopped] at null
    cases null

theorem inodeGet_reads (found : findInode dev c.mem ino (dev sb) passes
      (c.buckets (hashInode ino (dev sb)).toNat) = .ok none) :
    inodeGet dev c sb ino (some inode) true = .ok ((hlistAdd (c.setInode inode (newInode sb ino))
      (hashInode ino (dev sb)).toNat inode).krefInc inode, inode) := by
  have twice : (c.allocInode sb inode).setInode inode
      { (c.allocInode sb inode).mem inode with ino := ino } = c.setInode inode (newInode sb ino) := by
    simp [InodeCache.allocInode, InodeCache.setInode, newInode]
  have unused : ((c.setInode inode (newInode sb ino)).mem inode).rc = 0#32 := by
    simp [InodeCache.setInode, newInode]
  simp only [inodeGet, found, twice, kassert, unused]
  rfl

/-- `inodeGet` is this call where `read_inode` leaves the object as it gets it. -/
theorem inodeGet_refines (hasAlloc : ops.allocInode = some alloc)
    (hasRead : ops.readInode = some read)
    (reads : read sb (newInode sb ino) = .ok (rv, newInode sb ino))
    (hasDealloc : ops.deallocInode = some ()) :
    match inodeGet dev c sb ino (alloc sb) (rv = 0#64) with
    | .ok (c', p) =>
      exec (inodeGetLocked dev ops sb ino) ⟨c, false⟩ = (.ok (some p), ⟨c', false⟩)
    | .error fault =>
      (exec (inodeGetLocked dev ops sb ino) ⟨c, false⟩).1 = .error fault := by
  cases found : findInode dev c.mem ino (dev sb) passes (c.buckets (hashInode ino (dev sb)).toNat) with
  | error fault =>
    simp only [inodeGet, found]
    simp only [inodeGetLocked, exec_bind, exec_lock, exec_get, found]
    rfl
  | ok cached =>
    cases cached with
    | some p =>
      simp only [inodeGet, found]
      exact inodeGetLocked_cached found
    | none =>
      cases allocated : alloc sb with
      | none =>
        simp only [inodeGet, inodeGetLocked, readNew, exec_bind, exec_lock, exec_get, found,
          hasAlloc, nonnull_some, exec_check_ok, allocated]
        rfl
      | some inode =>
        by_cases error : rv = 0#64
        · have added : exec (readNew dev ops sb ino) ⟨c, true⟩ = _ :=
            readNew_reads hasAlloc allocated hasRead (error ▸ reads) true
          rw [decide_eq_true error, inodeGet_reads found]
          simp only [inodeGetLocked, exec_bind, exec_lock, exec_get, found, exec_check_ok, added]
          rfl
        · have discards : exec (readNew dev ops sb ino) ⟨c, true⟩ = _ :=
            readNew_fails hasAlloc allocated hasRead reads error hasDealloc true
          simp only [inodeGet, inodeGetLocked, exec_bind, exec_lock, exec_get, found, exec_check_ok,
            discards, error]
          rfl

end Failure

def emptyCache : InodeCache := ⟨fun _ => ⟨0#64, 0#32, 0#64, none, none⟩, fun _ => none, []⟩

def emptyArchive : SuperOps := initrdSuperOps (fun _ => 0#8) 512 fun _ => some 16#64

/-- The second inode of an archive without files. -/
theorem inode_get_never_clean_second : ¬ CleanFailure emptyCache 16#64
    (exec (inodeGetLocked (fun _ => 1#32) emptyArchive 8#64 2#64) ⟨emptyCache, false⟩) := by
  have unlisted : ∀ hash, ¬ InBucket emptyCache hash 16#64 := by
    rintro hash ⟨l, listed, inside⟩
    have empty : Chain (fun q => (emptyCache.mem q).next) (emptyCache.buckets hash) [] := rfl
    rw [listed.functional empty] at inside
    cases inside
  exact inode_get_never_clean (fun _ => 1#32) emptyArchive emptyCache 8#64 16#64 2#64 [] _ _ enoent
    _ rfl rfl rfl unlisted rfl rfl (by decide) rfl

/-- The inode of number zero, which no archive has: the null pointer is counted, and the mutex
is not released. -/
theorem missing_inode_dereferenced :
    ∃ c', exec (inodeGetLocked (fun _ => 1#32) emptyArchive 8#64 0#64) ⟨emptyCache, false⟩ =
      (.error .nullDeref, ⟨c', true⟩) := by
  exact ⟨_, rfl⟩

end ByteOS.Fs
