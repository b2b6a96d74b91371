import ByteOS.Lib.DList
import ByteOS.Lib.Transition
import ByteOS.Mm.Addr

/-! The inode cache of `kernel/fs/inode_cache.c` over the bucket lists of `include/ds/hash.h`.

An inode is represented by its address, and its list node by the same address; the null
pointer is `none`. Each function holds the mutex of the cache while it reads and writes
it, so a call is one step. The operations of a super block are those of an initial ram
disk: `alloc_inode` returns a zeroed object with its `sb`, and a `read_inode` that
succeeds leaves the fields that are kept here as they are. `dealloced` is the list of
the calls of `dealloc_inode`, the last one first.
-/

set_option autoImplicit false

namespace ByteOS.Fs

open Lib Mm
open Function (update update_apply)

structure Inode where
  ino : BitVec 64
  rc : BitVec 32
  sb : Ptr
  next : Option Ptr
  prev : Option Ptr
  deriving DecidableEq, Repr

structure InodeCache where
  mem : Ptr → Inode
  buckets : Nat → Option Ptr
  dealloced : List Ptr

def tabSize : Nat := 2 ^ 8

def hashInode (ino : BitVec 64) (dev : BitVec 32) : BitVec 32 :=
  let mask := 255#32
  let key := (ino + dev.setWidth 64).setWidth 32
  let key := (~~~key + (key <<< 21)) &&& mask
  let key := key ^^^ (key >>> 24)
  let key := ((key + (key <<< 3)) + (key <<< 8)) &&& mask
  let key := key ^^^ (key >>> 14)
  let key := ((key + (key <<< 2)) + (key <<< 4)) &&& mask
  let key := key ^^^ (key >>> 28)
  (key + (key <<< 31)) &&& mask

namespace InodeCache

def setInode (c : InodeCache) (p : Ptr) (inode : Inode) : InodeCache :=
  { c with mem := update c.mem p inode }

def setBucket (c : InodeCache) (hash : Nat) (head : Option Ptr) : InodeCache :=
  { c with buckets := update c.buckets hash head }

def setRc (c : InodeCache) (p : Ptr) (rc : BitVec 32) : InodeCache := c.setInode p { c.mem p with rc := rc }

def krefInc (c : InodeCache) (p : Ptr) : InodeCache := c.setRc p ((c.mem p).rc + 1#32)

def krefDec (c : InodeCache) (p : Ptr) : InodeCache := c.setRc p ((c.mem p).rc - 1#32)

def allocInode (c : InodeCache) (sb p : Ptr) : InodeCache := c.setInode p ⟨0#64, 0#32, sb, none, none⟩

def deallocInode (c : InodeCache) (p : Ptr) : InodeCache := { c with dealloced := p :: c.dealloced }

end InodeCache

open InodeCache (setInode setBucket)

def hlistAdd (c : InodeCache) (hash : Nat) (node : Ptr) : InodeCache :=
  let head := c.buckets hash
  let c := c.setInode node { c.mem node with prev := none, next := head }
  let c := match head with
    | none => c
    | some first => c.setInode first { c.mem first with prev := some node }
  c.setBucket hash (some node)

/-- The first half of `hlist_remove`: what leads to the node leads past it. -/
def bypassNext (c : InodeCache) (hash : Nat) (node : Ptr) : InodeCache :=
  match (c.mem node).prev with
  | none => c.setBucket hash (c.mem node).next
  | some before => c.setInode before { c.mem before with next := (c.mem node).next }

def bypassPrev (c : InodeCache) (node : Ptr) : InodeCache :=
  match (c.mem node).next with
  | none => c
  | some after => c.setInode after { c.mem after with prev := (c.mem node).prev }

def hlistRemove (c : InodeCache) (hash : Nat) (node : Ptr) : InodeCache :=
  bypassPrev (bypassNext c hash node) node

section Operations
variable (dev : Ptr → BitVec 32)

/-- The search of `inode_get` in one bucket. -/
def findInode (mem : Ptr → Inode) (ino : BitVec 64) (d : BitVec 32) :
    Nat → Option Ptr → Except Fault (Option Ptr)
  | 0, _ => .error .unfinished
  | _ + 1, none => .ok none
  | fuel + 1, some cur =>
    if (mem cur).ino = ino ∧ dev (mem cur).sb = d then .ok (some cur)
    else findInode mem ino d fuel (mem cur).next

/-- `inode_get`, with what `alloc_inode` returns and whether `read_inode` succeeds. -/
def inodeGet (c : InodeCache) (sb : Ptr) (ino : BitVec 64) (fresh : Option Ptr) (readOk : Bool) :
    Except Fault (InodeCache × Ptr) := do
  let hash := (hashInode ino (dev sb)).toNat
  match ← findInode dev c.mem ino (dev sb) passes (c.buckets hash) with
  | some inode => return (c.krefInc inode, inode)
  | none =>
    match fresh with
    | none => .error (.kassert "inode != NULL")
    | some inode =>
      let c := c.allocInode sb inode
      let c := c.setInode inode { c.mem inode with ino := ino }
      if readOk then
        kassert ((c.mem inode).rc = 0#32) "kref_read(&inode->rc) == 0"
        return ((hlistAdd c hash inode).krefInc inode, inode)
      -- the object is given back, and its count is taken from the null pointer
      else .error .nullDeref

def inodePut (c : InodeCache) (inode : Ptr) : InodeCache :=
  let hash := (hashInode (c.mem inode).ino (dev (c.mem inode).sb)).toNat
  let c := c.krefDec inode
  if (c.mem inode).rc = 0#32 then (hlistRemove c hash inode).deallocInode inode else c

end Operations

structure Counted where
  cache : InodeCache
  refs : Ptr → Nat

def InBucket (c : InodeCache) (hash : Nat) (p : Ptr) : Prop :=
  ∃ l, Chain (fun q => (c.mem q).next) (c.buckets hash) l ∧ p ∈ l

/-- A get for which `read_inode` succeeds, or a put of an inode that has been got. The
references to an inode stay within `limit`. -/
inductive Step (dev : Ptr → BitVec 32) (limit : Nat → Prop) : Counted → Counted → Prop where
  | get {r : Counted} {c : InodeCache} (sb : Ptr) (ino : BitVec 64) (fresh inode : Ptr)
      (uncached : ∀ hash, ¬ InBucket r.cache hash fresh)
      (ran : inodeGet dev r.cache sb ino (some fresh) true = .ok (c, inode))
      (within : limit (r.refs inode + 1)) :
      Step dev limit r ⟨c, update r.refs inode (r.refs inode + 1)⟩
  | put {r : Counted} (inode : Ptr) (outstanding : 0 < r.refs inode) :
      Step dev limit r ⟨inodePut dev r.cache inode, update r.refs inode (r.refs inode - 1)⟩

def Counted.initial (mem : Ptr → Inode) : Counted := ⟨⟨mem, fun _ => none, []⟩, fun _ => 0⟩

/-! ## The lists -/

theorem hashInode_lt (ino : BitVec 64) (dev : BitVec 32) : (hashInode ino dev).toNat < tabSize := by
  rw [hashInode, BitVec.toNat_and]
  exact Nat.and_lt_two_pow _ (by decide)

namespace InodeCache

section

variable (c : InodeCache)

@[simp] theorem setInode_mem_self (p : Ptr) (inode : Inode) : (c.setInode p inode).mem p = inode := by
  simp [setInode]

theorem setInode_mem_other {p q : Ptr} (inode : Inode) (different : q ≠ p) :
    (c.setInode p inode).mem q = c.mem q := by
  simp [setInode, different]

@[simp] theorem setInode_buckets (p : Ptr) (inode : Inode) : (c.setInode p inode).buckets = c.buckets := rfl

section

variable (p q : Ptr) (rc : BitVec 32)

@[simp] theorem setRc_next : ((c.setRc p rc).mem q).next = (c.mem q).next := by
  by_cases same : q = p <;> simp [setRc, setInode, same]

@[simp] theorem setRc_prev : ((c.setRc p rc).mem q).prev = (c.mem q).prev := by
  by_cases same : q = p <;> simp [setRc, setInode, same]

@[simp] theorem setRc_ino : ((c.setRc p rc).mem q).ino = (c.mem q).ino := by
  by_cases same : q = p <;> simp [setRc, setInode, same]

@[simp] theorem setRc_sb : ((c.setRc p rc).mem q).sb = (c.mem q).sb := by
  by_cases same : q = p <;> simp [setRc, setInode, same]

theorem setRc_rc : ((c.setRc p rc).mem q).rc = if q = p then rc else (c.mem q).rc := by
  by_cases same : q = p <;> simp [setRc, setInode, same]

end

@[simp] theorem setRc_buckets (p : Ptr) (rc : BitVec 32) : (c.setRc p rc).buckets = c.buckets := rfl

@[simp] theorem setRc_dealloced (p : Ptr) (rc : BitVec 32) : (c.setRc p rc).dealloced = c.dealloced := rfl

end

end InodeCache

def Inode.data (inode : Inode) : BitVec 64 × BitVec 32 × Ptr := (inode.ino, inode.rc, inode.sb)

section Links
variable (c : InodeCache) (hash : Nat) (node p : Ptr)

theorem hlistAdd_next :
    ((hlistAdd c hash node).mem p).next = if p = node then c.buckets hash else (c.mem p).next := by
  cases first : c.buckets hash <;>
    simp only [hlistAdd, first, setInode, setBucket, update_apply] <;> grind

theorem hlistAdd_prev : ((hlistAdd c hash node).mem p).prev =
    if c.buckets hash = some p then some node else if p = node then none else (c.mem p).prev := by
  cases first : c.buckets hash <;>
    simp only [hlistAdd, first, setInode, setBucket, update_apply] <;> grind

theorem hlistAdd_data : ((hlistAdd c hash node).mem p).data = (c.mem p).data := by
  cases first : c.buckets hash <;>
    simp only [hlistAdd, first, setInode, setBucket, update_apply, Inode.data] <;> grind

@[simp] theorem hlistAdd_buckets : (hlistAdd c hash node).buckets = update c.buckets hash (some node) := by
  cases first : c.buckets hash <;> simp [hlistAdd, first, setInode, setBucket]

@[simp] theorem hlistAdd_dealloced : (hlistAdd c hash node).dealloced = c.dealloced := by
  cases first : c.buckets hash <;> simp [hlistAdd, first, setInode, setBucket]

theorem bypassNext_next : ((bypassNext c hash node).mem p).next =
    if (c.mem node).prev = some p then (c.mem node).next else (c.mem p).next := by
  cases before : (c.mem node).prev <;>
    simp only [bypassNext, before, setInode, setBucket, update_apply] <;> grind

theorem bypassNext_prev : ((bypassNext c hash node).mem p).prev = (c.mem p).prev := by
  cases before : (c.mem node).prev <;>
    simp only [bypassNext, before, setInode, setBucket, update_apply]
  grind

theorem bypassNext_data : ((bypassNext c hash node).mem p).data = (c.mem p).data := by
  cases before : (c.mem node).prev <;>
    simp only [bypassNext, before, setInode, setBucket, update_apply, Inode.data]
  grind

theorem bypassPrev_next : ((bypassPrev c node).mem p).next = (c.mem p).next := by
  cases after : (c.mem node).next <;>
    simp only [bypassPrev, after, setInode, update_apply]
  grind

theorem bypassPrev_prev : ((bypassPrev c node).mem p).prev =
    if (c.mem node).next = some p then (c.mem node).prev else (c.mem p).prev := by
  cases after : (c.mem node).next <;>
    simp only [bypassPrev, after, setInode, update_apply] <;> grind

theorem bypassPrev_data : ((bypassPrev c node).mem p).data = (c.mem p).data := by
  cases after : (c.mem node).next <;>
    simp only [bypassPrev, after, setInode, update_apply, Inode.data]
  grind

theorem hlistRemove_next : ((hlistRemove c hash node).mem p).next =
    if (c.mem node).prev = some p then (c.mem node).next else (c.mem p).next := by
  rw [hlistRemove, bypassPrev_next, bypassNext_next]

theorem hlistRemove_prev : ((hlistRemove c hash node).mem p).prev =
    if (c.mem node).next = some p then (c.mem node).prev else (c.mem p).prev := by
  rw [hlistRemove, bypassPrev_prev, bypassNext_prev, bypassNext_prev, bypassNext_next, ite_self]

theorem hlistRemove_data : ((hlistRemove c hash node).mem p).data = (c.mem p).data := by
  rw [hlistRemove, bypassPrev_data, bypassNext_data]

theorem hlistRemove_buckets : (hlistRemove c hash node).buckets hash =
    if (c.mem node).prev = none then (c.mem node).next else c.buckets hash := by
  rw [hlistRemove, bypassPrev]
  cases before : (c.mem node).prev <;> split <;> simp [bypassNext, before, setInode, setBucket]

theorem hlistRemove_buckets_other {other : Nat} (different : other ≠ hash) :
    (hlistRemove c hash node).buckets other = c.buckets other := by
  rw [hlistRemove, bypassPrev]
  cases before : (c.mem node).prev <;> split <;>
    simp [bypassNext, before, setInode, setBucket, different]

@[simp] theorem hlistRemove_dealloced : (hlistRemove c hash node).dealloced = c.dealloced := by
  rw [hlistRemove, bypassPrev]
  cases before : (c.mem node).prev <;> split <;> simp [bypassNext, before, setInode, setBucket]

end Links

end ByteOS.Fs
