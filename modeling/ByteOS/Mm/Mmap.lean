import ByteOS.Lib.Spans
import ByteOS.Mm.Addr

/-! The boot memory map of `kernel/mm/mmap.c`.

A `struct mmap_type` is an array of regions with a counter. `regions` gives the
contents of every slot, also of those above the counter, which keep what was last
written there; the regions of the map are the first `count` of them. Sums of addresses
and lengths are reduced modulo `2 ^ 64`.
-/

set_option autoImplicit false

namespace ByteOS.Mm.Mmap

open Lib

inductive RegionFlags where
  | none
  | nomap
  deriving DecidableEq, Repr

structure Region where
  base : Nat
  len : Nat
  flags : RegionFlags
  deriving DecidableEq, Repr

structure MmapType where
  count : Nat
  regions : Nat → Region

structure MemMap where
  highestMapped : Nat
  available : MmapType
  reserved : MmapType

def maxRegions : Nat := 128

def mmapAllocPa : Nat := 1

/-- `WITHIN`: the range of `len` bytes at `x` contains `y`. -/
def within (x y len : Nat) : Prop := x ≤ y ∧ (x + len) % wordMod > y

instance (x y len : Nat) : Decidable (within x y len) := inferInstanceAs (Decidable (_ ∧ _))

namespace MmapType

def set (t : MmapType) (i : Nat) (rg : Region) : MmapType :=
  { t with regions := Function.update t.regions i rg }

/-- `memmove` by one slot to the right from slot `i` on, and `rg` in the slot that becomes free. -/
def insertAt (t : MmapType) (i : Nat) (rg : Region) : MmapType where
  count := t.count + 1
  regions j := if j = i then rg else if i < j ∧ j ≤ t.count then t.regions (j - 1) else t.regions j

/-- `memmove` by one slot to the left onto slot `i`. -/
def removeAt (t : MmapType) (i : Nat) : MmapType where
  count := t.count - 1
  regions j := if i ≤ j ∧ j + 1 < t.count then t.regions (j + 1) else t.regions j

end MmapType

def mmapDeleteRegion (t : MmapType) (i : Nat) : Except Fault MmapType := do
  kassert (i < t.count) "i < type->count"
  return t.removeAt i

/-- A region below slot `i`, or above all others if `i` is the counter. -/
def insertNew (t : MmapType) (i addr len : Nat) (flags : RegionFlags) : Except Fault MmapType :=
  if t.count = maxRegions then .error (.panic "No space left in mmap")
  else .ok (t.insertAt i ⟨addr, len, flags⟩)

/-- The region directly above that of slot `i`, which grows, and may then reach the next. -/
def mergeAbove (t : MmapType) (i addr len : Nat) : Except Fault MmapType :=
  let rg := t.regions i
  let t := t.set i { rg with len := (rg.len + len) % wordMod }
  if i < t.count - 1 ∧ (addr + len) % wordMod = (t.regions (i + 1)).base then
    let rg := t.regions i
    mmapDeleteRegion (t.set i { rg with len := (rg.len + (t.regions (i + 1)).len) % wordMod }) (i + 1)
  else .ok t

/-- The loop of `mmap_insert_region` from slot `i` on, with `left` slots to go. A region
directly below another one extends it, and the loop goes on. -/
def insertScan (addr len : Nat) (flags : RegionFlags) : Nat → MmapType → Nat → Except Fault MmapType
  | 0, t, i => insertNew t i addr len flags
  | left + 1, t, i =>
    let rg := t.regions i
    let overlap := within addr rg.base len ∨ within rg.base addr rg.len
    if (addr + len) % wordMod = rg.base then do
      let t := t.set i { rg with base := addr, len := (rg.len + len) % wordMod }
      kassert (¬ overlap) "!WITHIN(addr, rg_addr, len) && !WITHIN(rg_addr, addr, rg_len)"
      insertScan addr len flags left t (i + 1)
    else if (addr + len) % wordMod < rg.base then insertNew t i addr len flags
    else if (rg.base + rg.len) % wordMod = addr then mergeAbove t i addr len
    else do
      kassert (¬ overlap) "!WITHIN(addr, rg_addr, len) && !WITHIN(rg_addr, addr, rg_len)"
      insertScan addr len flags left t (i + 1)

def mmapInsertRegion (t : MmapType) (addr len : Nat) (flags : RegionFlags) : Except Fault MmapType := do
  kassert (t.count ≤ maxRegions) "type->count <= MMAP_MAX_REGIONS"
  if len = 0 then return t
  insertScan addr len flags t.count t 0

section Alloc

def effectiveBase (rg : Region) (allocFlags : Nat) : Nat :=
  if allocFlags &&& mmapAllocPa ≠ 0 then alignUp rg.base else rg.base

def wordSub (a b : Nat) : Nat := (a + (wordMod - b % wordMod)) % wordMod

def effectiveLen (rg : Region) (allocFlags : Nat) : Nat :=
  if allocFlags &&& mmapAllocPa ≠ 0 then
    wordSub rg.len (wordSub (effectiveBase rg allocFlags) rg.base)
  else rg.len

def availableBytes (m : MemMap) (rg : Region) (allocFlags : Nat) : Nat :=
  min (wordSub m.highestMapped (effectiveBase rg allocFlags)) (effectiveLen rg allocFlags)

/-- The slot at which the loop of `mmap_alloc_low` stops, with `left` slots to go. -/
def findRegion (m : MemMap) (n allocFlags : Nat) : Nat → Nat → Option Nat
  | 0, _ => none
  | left + 1, i =>
    let rg := m.available.regions i
    if rg.base ≥ m.highestMapped then none
    else if n ≤ availableBytes m rg allocFlags then some i
    else findRegion m n allocFlags left (i + 1)

/-- Replace the region of slot `i` by the padding below an aligned allocation. The flags
are read from the slot after the deletion. -/
def cutPadding (m : MemMap) (i allocFlags : Nat) : Except Fault MmapType := do
  let rg := m.available.regions i
  let available ← mmapDeleteRegion m.available i
  if allocFlags &&& mmapAllocPa ≠ 0 then
    mmapInsertRegion available rg.base (wordSub (effectiveBase rg allocFlags) rg.base)
      (available.regions i).flags
  else return available

/-- The allocation of `n` bytes from the region of slot `i`. -/
def allocFrom (m : MemMap) (n allocFlags i : Nat) : Except Fault (MemMap × Region) := do
  let rg := m.available.regions i
  let remaining := availableBytes m rg allocFlags - n
  let newBase := (effectiveBase rg allocFlags + n) % wordMod
  let old : Region := ⟨effectiveBase rg allocFlags, n, rg.flags⟩
  let available ← cutPadding m i allocFlags
  let reserved ← mmapInsertRegion m.reserved old.base old.len old.flags
  let available ← (if remaining > 0 then
      mmapInsertRegion available newBase remaining (available.regions i).flags
    else .ok available)
  kassert (old.base > 0 ∧ old.len > 0) "old_rg.base > 0 && old_rg.len > 0"
  return ({ m with available := available, reserved := reserved }, old)

def mmapAllocLow (m : MemMap) (n allocFlags : Nat) : Except Fault (MemMap × Region) :=
  match findRegion m n allocFlags m.available.count 0 with
  | some i => allocFrom m n allocFlags i
  | none => .error (.panic "Cannot satisfy mmap allocation of size %zu")

end Alloc

end ByteOS.Mm.Mmap
