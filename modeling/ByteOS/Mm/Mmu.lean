import ByteOS.Mm.Vmm

/-! Address spaces: `kernel/mm/mmu.c` and `kernel/mm/cow.c`.

An address space is named by the physical address of its top-level table. A
`pte_t *` is a slot, the pair of a last-level table and an index. Giving a page
back that is not handed out is a fault of the model: it is where the free lists
of the allocator would be corrupted.
-/

set_option autoImplicit false

namespace ByteOS.Mm

/-- What the kernel image fixes: `_kernel_end_phys` and the top-level table of `kernel_mmu`. -/
structure Kernel where
  endPhys : PhysAddr
  p4 : PhysAddr

/-- `pmm_free_order(page, 0)`, which fills the page with `0xBB`. -/
def pmmFreePage (s : State) (p : PhysAddr) : Except Fault State :=
  if p = 0#64 then .error (.kassert "page != NULL")
  else if s.inUse p then
    .ok ({ s with inUse := Function.update s.inUse p false }.setPage p fun _ => 0xBBBBBBBBBBBBBBBB#64)
  else .error .doubleFree

def krefIncRead (s : State) (page : PhysAddr) : Except Fault (BitVec 32 × State) :=
  if page = 0#64 then .error .nullDeref
  else .ok (s.refcount page + 1#32,
    { s with refcount := Function.update s.refcount page (s.refcount page + 1#32) })

def krefDecRead (s : State) (page : PhysAddr) : Except Fault (BitVec 32 × State) :=
  if page = 0#64 then .error .nullDeref
  else .ok (s.refcount page - 1#32,
    { s with refcount := Function.update s.refcount page (s.refcount page - 1#32) })

/-! ## Copy on write -/

/-- The first part of `cow_copy_pte`: make the source read-only and shared if it is not. -/
def cowMarkSource (s : State) (table : PhysAddr) (index : Fin 512) : Except Fault State :=
  let src := s.mem table index
  if src &&& pageCow = 0#64 then do
    let s := s.setEntry table index ((src &&& ~~~pageWritable) ||| pageCow)
    let (_, s) ← krefIncRead s (src &&& pteAddrMask)
    return s
  else do
    kassert (src &&& pageWritable = 0#64) "!(*src & PAGE_WRITABLE)"
    return s

/-- `cow_copy_pte` on the slot of a table; the result is what it stores in `*dest`. -/
def cowCopyPte (s : State) (table : PhysAddr) (index : Fin 512) : Except Fault (Pte × State) := do
  let page := s.mem table index &&& pteAddrMask
  let s ← cowMarkSource s table index
  let (count, s) ← krefIncRead s page
  if count = 0#32 then .error (.panic "Tried to copy free'd page")
  else return (s.mem table index, s)

/-- The branch of `cow_handle_write` that copies the page and repoints the slot. -/
def cowReplacePage (s : State) (table : PhysAddr) (index : Fin 512) (src : PhysAddr) :
    Except Fault State := do
  let (dest, s) ← pmmAllocPage s
  let s := s.setPage dest (s.mem src)
  let entry := s.mem table index &&& ~~~pteAddrMask
  return s.setEntry table index (entry ||| (dest &&& pteAddrMask))

def cowHandleWrite (s : State) (pte : Option (PhysAddr × Fin 512)) : Except Fault (Bool × State) :=
  match pte with
  | none => .ok (false, s)
  | some (table, index) =>
      if s.mem table index &&& pageCow = 0#64 then .ok (false, s)
      else do
        let src := s.mem table index &&& pteAddrMask
        let (nextCount, s) ← krefDecRead s src
        -- without other sharers the memory is reused
        let s ← (if nextCount > 0#32 then cowReplacePage s table index src else .ok s : Except Fault State)
        return (true, s.setEntry table index ((s.mem table index &&& ~~~pageCow) ||| pageWritable))

def cowHandleFree (kernel : Kernel) (s : State) (table : PhysAddr) (index : Fin 512) :
    Except Fault State := do
  kassert (s.mem table index &&& pageCow ≠ 0#64) "*pte & PAGE_COW"
  let phys := s.mem table index &&& pteAddrMask
  if phys < kernel.endPhys then return s
  else
    let (nextCount, s) ← krefDecRead s phys
    if nextCount = 0#32 then pmmFreePage s phys else return s

/-! ## Creating and cloning -/

/-- `mmu_init`: a copy of the top-level table of the kernel. -/
def mmuInit (kernel : Kernel) (s : State) : Except Fault (PhysAddr × State) := do
  let (p4, s) ← pmmAllocPage s
  return (p4, s.setPage p4 (s.mem kernel.p4))

/-- The number of entries that `clone_pgtab` looks at, `below` levels above the last. -/
def cloneLimit (below : Nat) : Nat := if below = 3 then 128 else 512

def indices (limit : Nat) : List (Fin 512) := (List.finRange 512).filter fun i => i.val < limit

/-- The body of the loop of `clone_pgtab` for one entry. `child` clones a table of
the next level; there is none at the last level. -/
def cloneEntry (child : Option (State → PhysAddr → Except Fault (PhysAddr × State)))
    (pgtab rv : PhysAddr) (s : State) (i : Fin 512) : Except Fault State :=
  if s.mem pgtab i &&& pagePresent = 0#64 then .ok s
  else
    match child with
    | none => do
        let (dest, s) ← cowCopyPte s pgtab i
        return s.setEntry rv i dest
    | some clone => do
        let flags := s.mem pgtab i &&& ~~~pteAddrMask
        let next := s.mem pgtab i &&& pteAddrMask
        kassert (next &&& 0xFFF#64 = 0#64) "ISALIGN_POW2((uintptr_t)pgtab_virt, PAGE_SIZE)"
        if next = 0#64 then .error .nullDeref
        else
          let (copy, s) ← clone s next
          return s.setEntry rv i (copy ||| flags)

/-- The new table of `clone_pgtab` before its loop: empty, or the kernel's at the top level. -/
def cloneRoot (kernel : Kernel) (below : Nat) (s : State) : Except Fault (PhysAddr × State) := do
  let (rv, s) ← pmmAllocPage s
  let s := s.setPage rv fun _ => 0#64
  return (rv, if below = 3 then s.setPage rv (s.mem kernel.p4) else s)

/-- The body of `clone_pgtab`, given what clones the tables of the next level. -/
def cloneTable (kernel : Kernel) (below : Nat)
    (child : Option (State → PhysAddr → Except Fault (PhysAddr × State))) (s : State)
    (pgtab : PhysAddr) : Except Fault (PhysAddr × State) := do
  let (rv, s) ← cloneRoot kernel below s
  let s ← (indices (cloneLimit below)).foldlM (cloneEntry child pgtab rv) s
  return (rv, s)

/-- `clone_pgtab`, where `below` is `level - 1`. -/
def clonePgtab (kernel : Kernel) : Nat → State → PhysAddr → Except Fault (PhysAddr × State)
  | 0 => cloneTable kernel 0 none
  | lower + 1 => cloneTable kernel (lower + 1) (some (clonePgtab kernel lower))

/-- `mmu_clone_cow`: the new address space. -/
def mmuCloneCow (kernel : Kernel) (s : State) (p4 : PhysAddr) : Except Fault (PhysAddr × State) :=
  clonePgtab kernel 3 s p4

/-! ## Reaping -/

/-- The part of `free_single_page` that gives the page back. -/
def releasePage (kernel : Kernel) (s : State) (table : PhysAddr) (index : Fin 512) : Except Fault State :=
  let phys := s.mem table index &&& pteAddrMask
  if s.mem table index &&& pageCow ≠ 0#64 then cowHandleFree kernel s table index
  else if phys > kernel.endPhys then pmmFreePage s phys
  else .ok s

def freeSinglePage (kernel : Kernel) (s : State) (table : PhysAddr) (index : Fin 512) :
    Except Fault State := do
  let s ← releasePage kernel s table index
  return s.setEntry table index 0#64

/-- The innermost loop of `mmu_reap`, over the entries of a last-level table. -/
def reapPages (kernel : Kernel) (s : State) (p1 : PhysAddr) : Except Fault State :=
  (indices 512).foldlM (fun s i =>
    if s.mem p1 i &&& pagePresent ≠ 0#64 then freeSinglePage kernel s p1 i else .ok s) s

/-- One of the outer loops of `mmu_reap`: reap, free and unlink every table below. -/
def reapTables (inner : State → PhysAddr → Except Fault State) (limit : Nat) (s : State)
    (table : PhysAddr) : Except Fault State :=
  (indices limit).foldlM (fun s i =>
    match pgtabExtract s.mem table i with
    | none => .ok s
    | some next => do
        let s ← inner s next
        let s ← pmmFreePage s next
        return s.setEntry table i 0#64) s

def mmuReap (kernel : Kernel) (s : State) (p4 : PhysAddr) : Except Fault State := do
  let reapP2 := reapTables (reapPages kernel) 512
  let reapP3 := reapTables reapP2 512
  let s ← reapTables reapP3 128 s p4
  pmmFreePage s p4

end ByteOS.Mm
