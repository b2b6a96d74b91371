import ByteOS.Lib.Radix
import ByteOS.Mm.Addr
import Mathlib.Tactic.Simps.Basic

/-! Page tables and `kernel/mm/vmm.c`.

Physical memory is read by page: `mem p` holds the 512 words of the page at
physical address `p`, whether it is a table or user data. A `struct page_table *`
and a `struct page *` are both named by the physical address of their page, and
null is address zero, as in `phys_to_virt` and `phys_to_page`. Locks and the TLB
are not modelled. `supply` lists the pages that the allocators will return.
-/

set_option autoImplicit false

namespace ByteOS.Mm

open ByteOS.Lib

abbrev PhysAddr := BitVec 64
abbrev Pte := BitVec 64
abbrev PhysMem := PhysAddr → Fin 512 → BitVec 64

def pagePresent : BitVec 64 := 1#64 <<< 0
def pageWritable : BitVec 64 := 1#64 <<< 1
def pageUserAccessible : BitVec 64 := 1#64 <<< 2
def pageGlobal : BitVec 64 := 1#64 <<< 8
def pageCow : BitVec 64 := 1#64 <<< 9
def pageExecutable : BitVec 64 := 1#64 <<< 63

def vmmAllocMmap : BitVec 64 := 1#64 <<< 15
def vmmUnmap : BitVec 64 := 1#64 <<< 16

def pteAddrMask : BitVec 64 := ~~~0xFFF0000000000FFF#64

def kernelLogicalBase : BitVec 64 := 0xFFFF800000000000#64

structure State where
  mem : PhysMem
  /-- `refcount` of the `struct page` of each page. -/
  refcount : PhysAddr → BitVec 32
  /-- The pages handed out by the allocators and not given back. -/
  inUse : PhysAddr → Bool
  supply : List PhysAddr

@[simps -fullyApplied] def State.setPage (s : State) (p : PhysAddr) (words : Fin 512 → BitVec 64) : State :=
  { s with mem := Function.update s.mem p words }

@[simps -fullyApplied] def State.setEntry (s : State) (table : PhysAddr) (index : Fin 512)
    (entry : Pte) : State :=
  { s with mem := writeEntry s.mem table index entry }

def State.takePage (s : State) (exhausted : String) : Except Fault (PhysAddr × State) :=
  match s.supply with
  | [] => .error (.panic exhausted)
  | p :: rest => .ok (p, { s with supply := rest, inUse := Function.update s.inUse p true })

/-- `pmm_alloc_order(0, GFP_NONE)`, which fills the page with `0xBB`. -/
def pmmAllocPage (s : State) : Except Fault (PhysAddr × State) := do
  let (p, s) ← s.takePage "PMM out of memory at 0"
  return (p, s.setPage p fun _ => 0xBBBBBBBBBBBBBBBB#64)

/-- `mmap_alloc_low(PAGE_SIZE, MMAP_ALLOC_PA)` -/
def mmapAllocLow (s : State) : Except Fault (PhysAddr × State) :=
  s.takePage "Cannot satisfy mmap allocation of size 4096"

def entryTable (entry : Pte) : Option PhysAddr :=
  if entry &&& pagePresent = 0#64 then none
  else if entry &&& pteAddrMask = 0#64 then none
  else some (entry &&& pteAddrMask)

def pgtabExtract (mem : PhysMem) (table : PhysAddr) (index : Fin 512) : Option PhysAddr :=
  entryTable (mem table index)

theorem tableIndex_lt (va : BitVec 64) (shift : Nat) :
    ((va &&& (0x1FF#64 <<< shift)) >>> shift).toNat < 512 := by
  rw [BitVec.toNat_ushiftRight, BitVec.toNat_and, Nat.shiftRight_and_distrib]
  refine lt_of_le_of_lt Nat.and_le_right ?_
  rw [BitVec.toNat_shiftLeft, Nat.shiftRight_eq_div_pow]
  have bound : (0x1FF#64).toNat <<< shift % 2 ^ 64 ≤ 0x1FF * 2 ^ shift := by
    rw [Nat.shiftLeft_eq]
    exact Nat.mod_le _ _
  exact lt_of_le_of_lt (Nat.div_le_of_le_mul (by rw [Nat.mul_comm]; exact bound)) (by decide)

/-- `(va & (0x1FF << shift)) >> shift`, the index of an address in a table. -/
def tableIndex (va : BitVec 64) (shift : Nat) : Fin 512 :=
  ⟨((va &&& (0x1FF#64 <<< shift)) >>> shift).toNat, tableIndex_lt va shift⟩

def p4Index (va : BitVec 64) : Fin 512 := tableIndex va 39
def p3Index (va : BitVec 64) : Fin 512 := tableIndex va 30
def p2Index (va : BitVec 64) : Fin 512 := tableIndex va 21
def p1Index (va : BitVec 64) : Fin 512 := tableIndex va 12

/-- The slot of the last-level table that maps `addr`. -/
def vmmGetPte (mem : PhysMem) (p4 : PhysAddr) (addr : BitVec 64) : Option (PhysAddr × Fin 512) := do
  let p3 ← pgtabExtract mem p4 (p4Index addr)
  let p2 ← pgtabExtract mem p3 (p3Index addr)
  let p1 ← pgtabExtract mem p2 (p2Index addr)
  return (p1, p1Index addr)

def allocPgtab (s : State) (allocFlags : BitVec 32) : Except Fault (Pte × State) := do
  let flags := pagePresent ||| pageWritable ||| (allocFlags.zeroExtend 64 &&& pageUserAccessible)
  if allocFlags.zeroExtend 64 &&& vmmAllocMmap ≠ 0#64 then
    let (pgtab, s) ← mmapAllocLow s
    kassert (pgtab &&& 0xFFF#64 = 0#64) "(pgtab_phys & 0xFFF) == 0"
    return ((pgtab &&& pteAddrMask) ||| flags, s)
  else
    let (p, s) ← pmmAllocPage s
    kassert (p ≠ 0#64) "p != NULL"
    return ((p &&& pteAddrMask) ||| flags, s)

/-- One level of `vmm_map_page`: the next table, allocated and cleared if there is
none, or nothing when unmapping finds none. -/
def nextTable (s : State) (table : PhysAddr) (index : Fin 512) (unmap : Bool)
    (pgtabFlags : BitVec 32) (text : String) : Except Fault (Option PhysAddr × State) :=
  match pgtabExtract s.mem table index with
  | some next => .ok (some next, s)
  | none =>
      if unmap then .ok (none, s)
      else do
        let (entry, s) ← allocPgtab s pgtabFlags
        let s := s.setEntry table index entry
        match pgtabExtract s.mem table index with
        | none => .error (.kassert text)
        | some next => return (some next, s.setPage next fun _ => 0#64)

/-- The descent of `vmm_map_page` to the last-level table. -/
def lastTable (s : State) (p4 : PhysAddr) (va : BitVec 64) (unmap : Bool) (pgtabFlags : BitVec 32) :
    Except Fault (Option PhysAddr × State) := do
  match ← nextTable s p4 (p4Index va) unmap pgtabFlags "p3_table != NULL" with
  | (none, s) => return (none, s)
  | (some p3, s) =>
      match ← nextTable s p3 (p3Index va) unmap pgtabFlags "p2_table != NULL" with
      | (none, s) => return (none, s)
      | (some p2, s) => nextTable s p2 (p2Index va) unmap pgtabFlags "p1_table != NULL"

/-- The end of `vmm_map_page`, once the last-level table is found. -/
def setLeaf (nrCpus : Nat) (s : State) (p1 : PhysAddr) (index : Fin 512) (unmap : Bool)
    (phys flags : BitVec 64) : Except Fault State := do
  if nrCpus > 1 then
    kassert (s.mem p1 index &&& pageGlobal = 0#64) "(p1_table->pages[p1_index] & PAGE_GLOBAL) == 0"
    kassert (flags &&& pageGlobal = 0#64) "(flags & PAGE_GLOBAL) == 0"
  if unmap then return s.setEntry p1 index 0#64
  else return s.setEntry p1 index ((phys &&& pteAddrMask) ||| pagePresent ||| (flags &&& ~~~vmmAllocMmap))

def vmmMapPage (nrCpus : Nat) (s : State) (p4 : PhysAddr) (phys virt flags : BitVec 64) :
    Except Fault State := do
  let va := virt &&& ~~~0xFFF#64
  let unmap := flags &&& vmmUnmap != 0#64
  let lowmem := virt.ult kernelLogicalBase
  let pgtabFlags := (flags ||| if lowmem then pageUserAccessible else 0#64).truncate 32
  -- when the bit is on, execution is disabled
  let flags := flags ^^^ pageExecutable
  match ← lastTable s p4 va unmap pgtabFlags with
  | (none, s) => return s
  | (some p1, s) => setLeaf nrCpus s p1 (p1Index va) unmap phys flags

/-! ## Indices and virtual page numbers -/

def vpn (va : BitVec 64) : Nat := va.toNat / 2 ^ 12 % 2 ^ 36

theorem tableIndex_val {va : BitVec 64} {shift : Nat} (small : shift ≤ 55) :
    (tableIndex va shift).val = va.toNat / 2 ^ shift % 512 := by
  have mask : (0x1FF#64 <<< shift).toNat >>> shift = 2 ^ 9 - 1 := by
    have fits : 0x1FF * 2 ^ shift < 2 ^ 64 := by
      calc 0x1FF * 2 ^ shift ≤ 0x1FF * 2 ^ 55 :=
            Nat.mul_le_mul_left _ (Nat.pow_le_pow_right (by decide) small)
        _ < 2 ^ 64 := by decide
    rw [BitVec.toNat_shiftLeft, Nat.shiftLeft_eq, Nat.mod_eq_of_lt (by simpa using fits),
      Nat.shiftRight_eq_div_pow]
    simp
  simp only [tableIndex]
  rw [BitVec.toNat_ushiftRight, BitVec.toNat_and, Nat.shiftRight_and_distrib, mask,
    Nat.and_two_pow_sub_one_eq_mod, Nat.shiftRight_eq_div_pow]

def tablePath (va : BitVec 64) : List (Fin 512) := [p4Index va, p3Index va, p2Index va]

theorem index_aligned (virt : BitVec 64) :
    p4Index (virt &&& ~~~0xFFF#64) = p4Index virt ∧ p3Index (virt &&& ~~~0xFFF#64) = p3Index virt ∧
      p2Index (virt &&& ~~~0xFFF#64) = p2Index virt ∧ p1Index (virt &&& ~~~0xFFF#64) = p1Index virt := by
  have absorbed : ∀ mask, ~~~0xFFF#64 &&& mask = mask → virt &&& ~~~0xFFF#64 &&& mask = virt &&& mask := by
    intro mask covered
    rw [BitVec.and_assoc, covered]
  refine ⟨?_, ?_, ?_, ?_⟩
  · simp only [p4Index, tableIndex, absorbed (0x1FF#64 <<< 39) (by decide)]
  · simp only [p3Index, tableIndex, absorbed (0x1FF#64 <<< 30) (by decide)]
  · simp only [p2Index, tableIndex, absorbed (0x1FF#64 <<< 21) (by decide)]
  · simp only [p1Index, tableIndex, absorbed (0x1FF#64 <<< 12) (by decide)]

theorem vpn_eq_iff (va vb : BitVec 64) : vpn va = vpn vb ↔
    p4Index va = p4Index vb ∧ p3Index va = p3Index vb ∧ p2Index va = p2Index vb ∧
      p1Index va = p1Index vb := by
  simp only [Fin.ext_iff, p4Index, p3Index, p2Index, p1Index, tableIndex_val (show 39 ≤ 55 by decide),
    tableIndex_val (show 30 ≤ 55 by decide), tableIndex_val (show 21 ≤ 55 by decide),
    tableIndex_val (show 12 ≤ 55 by decide), vpn]
  omega

end ByteOS.Mm
