import Mathlib.Data.BitVec
import Mathlib.Data.Set.Card
import ByteOS.Mm.Reap

/-! How address spaces share pages.

`Consistent` ties together the entries of all live address spaces, the counts of
the pages and the allocator. Two entries that map one page are at the same
virtual address, so an address space maps a page at most once (`Trees`); an entry
that is not marked for copying is the only one that maps its page; and the count of
a page is the number of marked entries that map it. Pages of the kernel image,
below `_kernel_end_phys`, are never given back and are not counted on. Where the
kernel's top-level table has a user entry, as `smp_init` leaves one, every live
address space has one there too, its own or the one that `mmu_init` took over.
-/

set_option autoImplicit false

namespace ByteOS.Mm

open ByteOS.Lib

/-! ## Pages and mappings -/

/-- The number of `struct page`, 40 bytes each, from `KERNEL_PAGE_DATA` to the end of the address space. -/
def pageDataLen : Nat := (2 ^ 64 - 0xFFFFFFFF81000000) / 40

/-- The pages that the allocator can hand out: they lie above the kernel and have a `struct page`. -/
structure Allocatable (kernel : Kernel) (p : PhysAddr) : Prop where
  usable : Usable p
  described : p.toNat / 4096 < pageDataLen
  above : kernel.endPhys ≤ p

instance (kernel : Kernel) (p : PhysAddr) : Decidable (Allocatable kernel p) :=
  decidable_of_iff ((p &&& pteAddrMask = p ∧ p ≠ 0#64) ∧ p.toNat / 4096 < pageDataLen ∧ kernel.endPhys ≤ p)
    ⟨fun ⟨usable, described, above⟩ => ⟨usable, described, above⟩,
      fun ⟨usable, described, above⟩ => ⟨usable, described, above⟩⟩

structure FreeSupply (kernel : Kernel) (s : State) : Prop where
  distinct : s.supply.Nodup
  free : ∀ p ∈ s.supply, Allocatable kernel p ∧ s.inUse p = false

theorem freeSupply_single {kernel : Kernel} {s : State} {p : PhysAddr}
    (allocatable : Allocatable kernel p) (free : s.inUse p = false) :
    FreeSupply kernel { s with supply := [p] } :=
  ⟨List.nodup_singleton p, List.forall_mem_singleton.mpr ⟨allocatable, free⟩⟩

def UserDom (live : List PhysAddr) (r : PhysAddr) (path : List (Fin 512)) : Prop :=
  r ∈ live ∧ path.length ≤ 3 ∧ ∀ i, path.head? = some i → i.val < 128

/-- Entry `i` of the last-level table `t` of `r` maps `page`. -/
structure MapsAt (live : List PhysAddr) (mem : PhysMem) (r : PhysAddr) (path : List (Fin 512))
    (t : PhysAddr) (i : Fin 512) (page : PhysAddr) : Prop where
  dom : UserDom live r path
  leaf : path.length = 3
  table : tableAt mem r path = some t
  present : Present (mem t i)
  page : mem t i &&& pteAddrMask = page

/-- The entries in live address spaces that map a page and are marked for copying. -/
def sharers (live : List PhysAddr) (mem : PhysMem) (page : PhysAddr) : Set (PhysAddr × Fin 512) :=
  { slot | ∃ r path, MapsAt live mem r path slot.1 slot.2 page ∧ Cow (mem slot.1 slot.2) }

/-- The tables of the address spaces are different pages, none of them one that is mapped. -/
structure Trees (kernel : Kernel) (s : State) (live : List PhysAddr) : Prop where
  distinct : live.Nodup
  separate : Separate entryTable s.mem (UserDom live)
  tables : ∀ r path a, UserDom live r path → tableAt s.mem r path = some a →
    Allocatable kernel a ∧ s.inUse a = true
  kernelLow : kernel.p4 < kernel.endPhys
  inherited : ∀ i : Fin 512, i.val < 128 → tableAt s.mem kernel.p4 [i] ≠ none →
    ∀ r ∈ live, tableAt s.mem r [i] ≠ none
  marked : ∀ r path t i, UserDom live r path → path.length = 3 → tableAt s.mem r path = some t →
    Cow (s.mem t i) → Present (s.mem t i) ∧ ¬ Writable (s.mem t i)
  pages : ∀ r path t i g, MapsAt live s.mem r path t i g → kernel.endPhys ≤ g →
    s.inUse g = true ∧ ∀ r' path', UserDom live r' path' → tableAt s.mem r' path' ≠ some g
  same : ∀ r path t i r' path' t' i' g, MapsAt live s.mem r path t i g →
    MapsAt live s.mem r' path' t' i' g → kernel.endPhys ≤ g → path = path' ∧ i = i'

structure Consistent (kernel : Kernel) (s : State) (live : List PhysAddr) :
    Prop extends Trees kernel s live where
  exclusive : ∀ r path t i r' path' t' i' g, MapsAt live s.mem r path t i g →
    MapsAt live s.mem r' path' t' i' g → kernel.endPhys ≤ g → ¬ Cow (s.mem t i) → r = r'
  counts : ∀ g, kernel.endPhys ≤ g → s.refcount g = BitVec.ofNat 32 (sharers live s.mem g).ncard

/-! ## Bits of entries -/

variable {entry keep add mask : BitVec 64} {path : List (Fin 512)} {i : Fin 512}

theorem masked_update (kept : keep &&& mask = mask) (clear : add &&& mask = 0#64) :
    (entry &&& keep ||| add) &&& mask = entry &&& mask := by
  rw [BitVec.and_or_distrib_right, BitVec.and_assoc, kept, clear, BitVec.or_zero]

theorem masked_set (set : add &&& mask = mask) (nonzero : mask ≠ 0#64) :
    (entry ||| add) &&& mask ≠ 0#64 := by
  rw [BitVec.and_or_distrib_right, set]
  intro zero
  exact nonzero (BitVec.or_eq_zero_iff.mp zero).2

theorem masked_clear (dropped : keep &&& mask = 0#64) (clear : add &&& mask = 0#64) :
    (entry &&& keep ||| add) &&& mask = 0#64 := by
  rw [BitVec.and_or_distrib_right, BitVec.and_assoc, dropped, clear, BitVec.and_zero, BitVec.or_zero]

theorem markCow_present {entry : Pte} : Present (markCow entry) ↔ Present entry := by
  unfold markCow Present
  split
  · rw [masked_update (by decide) (by decide)]
  · rfl

theorem markCow_page (entry : Pte) : markCow entry &&& pteAddrMask = entry &&& pteAddrMask := by
  unfold markCow
  split
  · rw [masked_update (by decide) (by decide)]
  · rfl

theorem markCow_cow (entry : Pte) : Cow (markCow entry) := by
  unfold markCow
  split
  case isTrue => exact masked_set (by decide) (by decide)
  case isFalse marked => exact marked

theorem markCow_writable {entry : Pte} (marked : Cow entry → ¬ Writable entry) :
    ¬ Writable (markCow entry) := by
  unfold markCow
  split
  case isTrue => exact not_not.mpr (masked_clear (by decide) (by decide))
  case isFalse cow => exact marked cow

theorem nonzero_of_present (present : Present entry) : entry ≠ 0#64 := by
  rintro rfl
  exact present (by decide)

theorem nonzero_of_cow (cow : Cow entry) : entry ≠ 0#64 := by
  rintro rfl
  exact cow (by decide)

variable {g a t r' b : PhysAddr} {mem mem' : PhysMem}

/-! ## Counting -/

section
variable {kernel : Kernel} {s s' : State} {live : List PhysAddr}

theorem usable_aligned {p : PhysAddr} (usable : Usable p) : p.toNat % 4096 = 0 := by
  have low : p &&& 0xFFF#64 = 0#64 := by
    rw [← usable.1, BitVec.and_assoc]
    exact BitVec.and_zero
  have value := congrArg BitVec.toNat low
  rw [BitVec.toNat_and] at value
  exact (Nat.and_two_pow_sub_one_eq_mod p.toNat 12).symm.trans value

theorem sharers_finite (live : List PhysAddr) (mem : PhysMem) (g : PhysAddr) :
    (sharers live mem g).Finite := by
  have : Finite PhysAddr := Finite.of_equiv _ BitVec.equivFin.symm.toEquiv
  exact Set.toFinite _

theorem Consistent.sharers_le (consistent : Consistent kernel s live) (high : kernel.endPhys ≤ g) :
    (sharers live s.mem g).ncard ≤ pageDataLen := by
  have bound := Set.ncard_le_ncard_of_injOn (s := sharers live s.mem g) (t := ↑(Finset.range pageDataLen))
    (fun slot => slot.1.toNat / 4096) ?_ ?_ (Finset.finite_toSet _)
  · rwa [Set.ncard_coe_finset, Finset.card_range] at bound
  · rintro slot ⟨r, path, maps, -⟩
    simpa using (consistent.tables r path slot.1 maps.dom maps.table).1.described
  · rintro slot ⟨r, path, maps, -⟩ slot' ⟨r', path', maps', -⟩ frame
    have aligned := usable_aligned (consistent.tables r path slot.1 maps.dom maps.table).1.usable
    have aligned' := usable_aligned (consistent.tables r' path' slot'.1 maps'.dom maps'.table).1.usable
    have frame : slot.1.toNat / 4096 = slot'.1.toNat / 4096 := frame
    refine Prod.ext (BitVec.eq_of_toNat_eq (by omega)) ?_
    exact (consistent.same r path _ _ r' path' _ _ g maps maps' high).2

theorem Consistent.count_eq (consistent : Consistent kernel s live) (high : kernel.endPhys ≤ g) :
    (s.refcount g).toNat = (sharers live s.mem g).ncard := by
  have bound := consistent.sharers_le high
  rw [consistent.counts g high, BitVec.toNat_ofNat, Nat.mod_eq_of_lt]
  exact lt_of_le_of_lt bound (by decide)

/-! ## Forking -/

section Fork
variable {r p : PhysAddr}

/-- User tables found in an address space are those that the loops of `clone_pgtab` and `mmu_reap` visit. -/
theorem userDom_copied (dom : UserDom live r path) (found : tableAt s.mem r path = some a) :
    Copied (indices 128) s.mem r path := by
  cases path with
  | nil => trivial
  | cons i rest =>
    rw [tableAt, walk_cons] at found
    cases first : entryTable (s.mem r i) with
    | none => simp [first] at found
    | some t => exact ⟨mem_indices.mpr (dom.2.2 i rfl), (entryTable_eq_some.mp first).1⟩

theorem copied_userDom (root : r ∈ live) (short : path.length ≤ 3)
    (copied : Copied (indices 128) s.mem r path) : UserDom live r path := by
  refine ⟨root, short, fun i first => ?_⟩
  cases path with
  | nil => simp at first
  | cons j rest =>
    obtain rfl : j = i := by simpa using first
    exact mem_indices.mp copied.1

theorem mapsAt_iff (root : r ∈ live) : MapsAt live s.mem r path t i g ↔
    CopyAt (indices 128) 3 s.mem r path t i g := by
  constructor
  · intro maps
    exact ⟨userDom_copied maps.dom maps.table, maps.leaf, maps.table, by simp, maps.present, maps.page⟩
  · intro copy
    exact ⟨copied_userDom root copy.leaf.le copy.copied, copy.leaf, copy.table, copy.present, copy.page⟩

theorem tableAt_single (mem : PhysMem) (r : PhysAddr) (i : Fin 512) :
    tableAt mem r [i] = entryTable (mem r i) := by
  rw [tableAt, walk_cons]
  cases entryTable (mem r i) <;> rfl

theorem userDom_single (root : r ∈ live) (user : i.val < 128) : UserDom live r [i] :=
  ⟨root, by simp, fun j first => by simp at first; exact first ▸ user⟩

theorem userDom_region (live : List PhysAddr) : Region (UserDom live) where
  closed r before path front inside := by
    refine ⟨inside.1, front.length_le.trans inside.2.1, fun i first => inside.2.2 i ?_⟩
    obtain ⟨rest, rfl⟩ := front
    simp [first]
  bounded r path inside := inside.2.1

section

variable (agree : ∀ r path a, UserDom live r path → tableAt mem r path = some a → mem' a = mem a)
include agree

theorem tableAt_agree (dom : UserDom live r path) : tableAt mem' r path = tableAt mem r path := by
  apply walk_frame
  intro before j b front found
  have shorter : before <+: path := (List.prefix_append _ _).trans front
  rw [agree r before b ((userDom_region live).closed r before path shorter dom) found]

theorem mapsAt_agree : MapsAt live mem' r path t i g ↔ MapsAt live mem r path t i g := by
  constructor
  · intro maps
    have found := (tableAt_agree agree maps.dom).symm.trans maps.table
    have same := agree r path t maps.dom found
    exact ⟨maps.dom, maps.leaf, found, same ▸ maps.present, same ▸ maps.page⟩
  · intro maps
    have same := agree r path t maps.dom maps.table
    exact ⟨maps.dom, maps.leaf, (tableAt_agree agree maps.dom).trans maps.table,
      same.symm ▸ maps.present, same.symm ▸ maps.page⟩

theorem sharers_agree : sharers live mem' g = sharers live mem g := by
  ext slot
  refine exists_congr fun r => exists_congr fun path => ?_
  rw [mapsAt_agree agree]
  refine and_congr_right fun maps => ?_
  rw [agree r path slot.1 maps.dom maps.table]

end

variable {live' : List PhysAddr}

theorem MapsAt.mono (sub : live' ⊆ live) (maps : MapsAt live' mem r path t i g) :
    MapsAt live mem r path t i g :=
  ⟨⟨sub maps.dom.1, maps.dom.2⟩, maps.leaf, maps.table, maps.present, maps.page⟩

theorem tableAt_empty (empty : ∀ i : Fin 512, i.val < 128 → ¬ Present (mem r i))
    (user : ∀ i, path.head? = some i → i.val < 128) (found : tableAt mem r path = some a) :
    path = [] ∧ a = r := by
  cases path with
  | nil => exact ⟨rfl, (Option.some.inj found).symm⟩
  | cons i rest =>
    rw [tableAt, walk_cons, entryTable_absent (empty i (user i rfl))] at found
    cases found

theorem Trees.kernel_not_allocatable (trees : Trees kernel s live) : ¬ Allocatable kernel kernel.p4 :=
  fun allocatable => absurd trees.kernelLow (BitVec.not_lt.mpr allocatable.above)

/-- Address spaces whose tables and pages are left alone stay consistent. -/
theorem Consistent.restrict (consistent : Consistent kernel s live) (sub : live' ⊆ live)
    (distinct : live'.Nodup)
    (agree : ∀ r path a, UserDom live' r path → tableAt s.mem r path = some a → s'.mem a = s.mem a)
    (kernelSame : s'.mem kernel.p4 = s.mem kernel.p4)
    (tables : ∀ r path a, UserDom live' r path → tableAt s.mem r path = some a → s'.inUse a = true)
    (pages : ∀ r path t i g, MapsAt live' s.mem r path t i g → kernel.endPhys ≤ g → s'.inUse g = true)
    (counts : ∀ g, kernel.endPhys ≤ g → s'.refcount g = BitVec.ofNat 32 (sharers live' s'.mem g).ncard) :
    Consistent kernel s' live' := by
  have inside := fun {r path} (dom : UserDom live' r path) => (⟨sub dom.1, dom.2⟩ : UserDom live r path)
  have walk := fun {r path a} (dom : UserDom live' r path) (found : tableAt s'.mem r path = some a) =>
    (tableAt_agree agree dom).symm.trans found
  have old := fun {r path t i g} (maps : MapsAt live' s'.mem r path t i g) =>
    ((mapsAt_agree agree).mp maps).mono sub
  refine ⟨⟨distinct, ?_, ?_, consistent.kernelLow, ?_, ?_, ?_, ?_⟩, ?_, counts⟩
  · intro r₁ path₁ r₂ path₂ a dom₁ dom₂ found₁ found₂
    exact consistent.separate r₁ path₁ r₂ path₂ a (inside dom₁) (inside dom₂) (walk dom₁ found₁)
      (walk dom₂ found₂)
  · intro r path a dom found
    exact ⟨(consistent.tables r path a (inside dom) (walk dom found)).1,
      tables r path a dom (walk dom found)⟩
  · intro i user linked r member
    rw [tableAt_agree agree (userDom_single member user)]
    rw [tableAt_single, kernelSame, ← tableAt_single] at linked
    exact consistent.inherited i user linked r (sub member)
  · intro r path t i dom leaf found
    rw [agree r path t dom (walk dom found)]
    exact consistent.marked r path t i (inside dom) leaf (walk dom found)
  · intro r path t i g maps high
    refine ⟨pages r path t i g ((mapsAt_agree agree).mp maps) high, fun r' path' dom' found' => ?_⟩
    exact (consistent.pages _ _ _ _ _ (old maps) high).2 r' path' (inside dom') (walk dom' found')
  · exact fun r path t i r' path' t' i' g maps maps' =>
      consistent.same _ _ _ _ _ _ _ _ g (old maps) (old maps')
  · intro r path t i r' path' t' i' g maps maps' high owned
    rw [agree r path t maps.dom (old maps).table] at owned
    exact consistent.exclusive _ _ _ _ _ _ _ _ g (old maps) (old maps') high owned

theorem Consistent.frame (consistent : Consistent kernel s live)
    (agree : ∀ r path a, UserDom live r path → tableAt s.mem r path = some a → s'.mem a = s.mem a)
    (kernelSame : s'.mem kernel.p4 = s.mem kernel.p4) (inUse : ∀ q, s.inUse q = true → s'.inUse q = true)
    (refcount : s'.refcount = s.refcount) : Consistent kernel s' live := by
  refine consistent.restrict (List.Subset.refl live) consistent.distinct agree kernelSame
    (fun r path a dom found => inUse a (consistent.tables r path a dom found).2)
    (fun r path t i g maps high => inUse g (consistent.pages r path t i g maps high).1) fun g high => ?_
  rw [refcount, sharers_agree agree]
  exact consistent.counts g high

/-- Where all mappings but that of one entry were there before, and none of them is of the page
that the entry maps now, no page is mapped twice in a way that it was not before. -/
theorem Consistent.after_slot {path₀ : List (Fin 512)} {i₀ : Fin 512} {r₀ g₀ : PhysAddr}
    (consistent : Consistent kernel s live)
    (cases : ∀ {r path t i g}, MapsAt live s'.mem r path t i g → kernel.endPhys ≤ g →
      (r = r₀ ∧ path = path₀ ∧ i = i₀ ∧ g = g₀) ∨
        MapsAt live s.mem r path t i g ∧ s'.mem t i = s.mem t i ∧ g ≠ g₀)
    {r path t i r' path' t' i' g} (maps : MapsAt live s'.mem r path t i g)
    (maps' : MapsAt live s'.mem r' path' t' i' g) (high : kernel.endPhys ≤ g) :
    (path = path' ∧ i = i') ∧ (¬ Cow (s'.mem t i) → r = r') := by
  rcases cases maps high with ⟨rfl, rfl, rfl, rfl⟩ | ⟨old, entry, other⟩ <;>
    rcases cases maps' high with ⟨rfl, rfl, rfl, same⟩ | ⟨old', -, other'⟩
  · exact ⟨⟨rfl, rfl⟩, fun _ => rfl⟩
  · exact absurd rfl other'
  · exact absurd same other
  · refine ⟨consistent.same _ _ _ _ _ _ _ _ g old old' high, fun owned => ?_⟩
    exact consistent.exclusive _ _ _ _ _ _ _ _ g old old' high (entry ▸ owned)

/-- What `mmu_clone_cow` does to the live address spaces, of which `p` is the new one. -/
structure Forked (kernel : Kernel) (s : State) (live : List PhysAddr) (r p : PhysAddr)
    (s' : State) : Prop where
  inUse : ∀ q, s.inUse q = true → s'.inUse q = true
  walk : ∀ r' path, UserDom live r' path → tableAt s'.mem r' path = tableAt s.mem r' path
  source : ∀ path t i, UserDom live r path → path.length = 3 → tableAt s.mem r path = some t →
    s'.mem t i = if Present (s.mem t i) then markCow (s.mem t i) else s.mem t i
  others : ∀ r' path t, UserDom live r' path → path.length = 3 → r' ≠ r →
    tableAt s.mem r' path = some t → s'.mem t = s.mem t
  frame : ∀ q, s.inUse q = true ∨ ¬ Allocatable kernel q →
    (∀ path, UserDom live r path → path.length = 3 → tableAt s.mem r path ≠ some q) → s'.mem q = s.mem q
  kernelSame : s'.mem kernel.p4 = s.mem kernel.p4
  root : s.inUse p = false
  upper : ∀ i : Fin 512, 128 ≤ i.val → s'.mem p i = s.mem kernel.p4 i
  tight : ∀ q, s'.inUse q = true →
    s.inUse q = true ∨ ∃ path, UserDom [p] p path ∧ tableAt s'.mem p path = some q
  fresh : ∀ path b, UserDom [p] p path → tableAt s'.mem p path = some b →
    Allocatable kernel b ∧ s.inUse b = false ∧ s'.inUse b = true
  unique : ∀ path path' b, UserDom [p] p path → UserDom [p] p path' →
    tableAt s'.mem p path = some b → tableAt s'.mem p path' = some b → path = path'
  copies : ∀ path b, UserDom [p] p path → path.length = 3 → tableAt s'.mem p path = some b →
    ∃ t, tableAt s.mem r path = some t ∧
      ∀ i, s'.mem b i = if Present (s.mem t i) then markCow (s.mem t i) else 0#64
  copied : ∀ path t, UserDom live r path → tableAt s.mem r path = some t →
    ∃ b, tableAt s'.mem p path = some b
  countSame : ∀ g, kernel.endPhys ≤ g → (∀ path t i, ¬ MapsAt live s.mem r path t i g) →
    s'.refcount g = s.refcount g
  countMore : ∀ g path t i, kernel.endPhys ≤ g → MapsAt live s.mem r path t i g →
    s'.refcount g = s.refcount g + sharesAdded (s.mem t i)

section

variable (trees : Trees kernel s live)
include trees

theorem Trees.resupply (supply : List PhysAddr) : Trees kernel { s with supply := supply } live :=
  ⟨trees.distinct, trees.separate, trees.tables, trees.kernelLow, trees.inherited, trees.marked,
    trees.pages, trees.same⟩

theorem Trees.clonable (supply : FreeSupply kernel s) (root : r ∈ live) : Clonable kernel 3 s r := by
  constructor
  · intro path path' a copied copied' short short' found found'
    exact (trees.separate r path r path' a (copied_userDom root short copied)
      (copied_userDom root short' copied') found found').2
  · exact fun q member => (supply.free q member).1.usable
  · exact supply.distinct
  · intro q member path copied short found
    have inUse := (trees.tables r path q (copied_userDom root short copied) found).2
    simp [(supply.free q member).2] at inUse
  · intro _ member
    exact trees.kernel_not_allocatable (supply.free kernel.p4 member).1

/-- What the new address space reaches was copied: where the source has no table, the kernel
has none either. -/
theorem Trees.copied_of_reached {used : List PhysAddr} {b : PhysAddr} (root : r ∈ live)
    (cloned : Cloned kernel 3 s r (indices (cloneLimit 3)) p s' used) (dom : UserDom [p] p path)
    (found : tableAt s'.mem p path = some b) : Copied (indices (cloneLimit 3)) s.mem r path := by
  cases path with
  | nil => trivial
  | cons i rest =>
    by_contra other
    have user := dom.2.2 i rfl
    have base := cloned.base i other
    simp only [cloneBase, if_true] at base
    have missing : tableAt s.mem r [i] = none := by
      rw [tableAt_single]
      exact entryTable_absent fun present => other ⟨mem_indices.mpr user, present⟩
    have absent : tableAt s.mem kernel.p4 [i] = none :=
      not_not.mp fun linked => trees.inherited i user linked r root missing
    rw [tableAt_single] at absent
    rw [tableAt, walk_cons, base, absent] at found
    simp at found

theorem mmuCloneCow_forked (supply : FreeSupply kernel s) (root : r ∈ live)
    (ran : mmuCloneCow kernel s r = .ok (p, s')) : Forked kernel s live r p s' := by
  have clonable := trees.clonable supply root
  obtain ⟨⟨used, cloned⟩, counted⟩ := clonePgtab_spec (le_refl 3) clonable ran
  have unused : ∀ q ∈ used, Allocatable kernel q ∧ s.inUse q = false := fun q member =>
    supply.free q (cloned.used_subset member)
  have notUsed : ∀ q, s.inUse q = true → q ∉ used := fun q inUse member => by
    simp [(unused q member).2] at inUse
  -- a live table is changed only if it is a last-level table of the source
  have kept : ∀ r' path t, UserDom live r' path → tableAt s.mem r' path = some t →
      (path.length < 3 ∨ r' ≠ r) → s'.mem t = s.mem t := by
    intro r' path t dom found other
    refine cloned.frame t (notUsed t (trees.tables r' path t dom found).2)
      fun path' copied leaf found' => ?_
    obtain ⟨rfl, rfl⟩ :=
      trees.separate r' path r path' t dom (copied_userDom root leaf.le copied) found found'
    rcases other with short | other
    · omega
    · exact other rfl
  have kernelKept : s'.mem kernel.p4 = s.mem kernel.p4 := by
    have low := trees.kernel_not_allocatable
    refine cloned.frame _ (fun member => low (unused _ member).1) fun path copied leaf found => ?_
    exact low (trees.tables r path _ (copied_userDom root leaf.le copied) found).1
  have once : ∀ {g path t i}, kernel.endPhys ≤ g → MapsAt live s.mem r path t i g → ∀ path' t' i',
      CopyAt (indices (cloneLimit 3)) 3 s.mem r path' t' i' g → path' = path ∧ i' = i := by
    intro g path t i high maps path' t' i' copy
    exact trees.same r path' t' i' r path t i g ((mapsAt_iff root).mpr copy) maps high
  constructor
  · intro q inUse
    rw [cloned.inUse, inUse, Bool.true_or]
  · intro r' path dom
    apply walk_frame
    intro before j b front found
    have shorter : before <+: path := (List.prefix_append _ _).trans front
    have length := front.length_le
    simp only [List.length_append, List.length_singleton] at length
    rw [kept r' before b ((userDom_region live).closed r' before path shorter dom) found
      (.inl (by have := dom.2.1; omega))]
  · intro path t i dom leaf found
    rw [cloned.source path t i (userDom_copied dom found) leaf found]
    simp
  · exact fun r' path t dom leaf other found => kept r' path t dom found (.inr other)
  · intro q old notTable
    refine cloned.frame q (fun member => ?_) fun path copied leaf =>
      notTable path (copied_userDom root leaf.le copied) leaf
    exact old.elim (notUsed q · member) (absurd (unused q member).1)
  · exact kernelKept
  · exact (unused p cloned.root).2
  · exact fun i high => cloned.base i fun copied =>
      absurd (mem_indices.mp copied.1) (Nat.not_lt.mpr high)
  · intro q inUse
    rw [cloned.inUse, Bool.or_eq_true, decide_eq_true_eq] at inUse
    refine inUse.imp_right fun member => ?_
    obtain ⟨path, copied, short, found⟩ := cloned.tight q member
    exact ⟨path, ⟨by simp, (copied_userDom root short copied).2⟩, found⟩
  · intro path b dom found
    have member := cloned.table_mem (trees.copied_of_reached root cloned dom found) dom.2.1 found
    exact ⟨(unused b member).1, (unused b member).2, by rw [cloned.inUse]; simp [member]⟩
  · intro path path' b dom dom' found found'
    have reached := trees.copied_of_reached root cloned dom found
    have reached' := trees.copied_of_reached root cloned dom' found'
    exact cloned.unique path path' b reached reached' dom.2.1 dom'.2.1 found found'
  · intro path b dom leaf found
    have copied := trees.copied_of_reached root cloned dom found
    cases old : tableAt s.mem r path with
    | none => simp [cloned.missing path copied leaf.le old] at found
    | some t =>
      obtain ⟨b', -, found', content⟩ := cloned.copies path t copied leaf.le old
      obtain rfl : b = b' := Option.some.inj (found.symm.trans found')
      exact ⟨t, rfl, fun i => by simpa using content leaf i⟩
  · intro path t dom found
    obtain ⟨b, -, link, -⟩ := cloned.copies path t (userDom_copied dom found) dom.2.1 found
    exact ⟨b, link⟩
  · exact fun g high unmapped => counted.none g fun path t i copy =>
      unmapped path t i ((mapsAt_iff root).mpr copy)
  · exact fun g path t i high maps => counted.once g path t i ((mapsAt_iff root).mp maps) (once high maps)

end

section

variable (forked : Forked kernel s live r p s')
include forked

theorem Forked.old_entry (i : Fin 512) (dom : UserDom live r' path) (leaf : path.length = 3)
    (found : tableAt s.mem r' path = some t) :
    s'.mem t i = if r' = r ∧ Present (s.mem t i) then markCow (s.mem t i) else s.mem t i := by
  by_cases here : r' = r
  · subst here
    rw [forked.source path t i dom leaf found]
    simp
  · rw [forked.others r' path t dom leaf here found]
    simp [here]

theorem Forked.maps_old (maps : MapsAt live s.mem r' path t i g) :
    MapsAt (p :: live) s'.mem r' path t i g := by
  have entry := forked.old_entry i maps.dom maps.leaf maps.table
  have found : tableAt s'.mem r' path = some t := (forked.walk r' path maps.dom).trans maps.table
  refine ⟨⟨List.mem_cons_of_mem _ maps.dom.1, maps.dom.2⟩, maps.leaf, found, ?_, ?_⟩ <;> rw [entry]
    <;> split
  · exact markCow_present.mpr maps.present
  · exact maps.present
  · rw [markCow_page, maps.page]
  · exact maps.page

theorem Forked.maps_new (maps : MapsAt live s.mem r path t i g) :
    ∃ b, MapsAt (p :: live) s'.mem p path b i g ∧ s'.mem b i = markCow (s.mem t i) := by
  obtain ⟨b, found⟩ := forked.copied path t maps.dom maps.table
  have dom : UserDom [p] p path := ⟨by simp, maps.dom.2⟩
  obtain ⟨t₀, found₀, content⟩ := forked.copies path b dom maps.leaf found
  obtain rfl : t = t₀ := Option.some.inj (maps.table.symm.trans found₀)
  have entry := content i
  rw [if_pos maps.present] at entry
  refine ⟨b, ⟨⟨by simp, maps.dom.2⟩, maps.leaf, found, ?_, ?_⟩, entry⟩
  · rw [entry]
    exact markCow_present.mpr maps.present
  · rw [entry, markCow_page, maps.page]

theorem Forked.maps_cases (root : r ∈ live) (maps : MapsAt (p :: live) s'.mem r' path t i g) :
    r' ∈ live ∧ MapsAt live s.mem r' path t i g ∧
        s'.mem t i = (if r' = r then markCow (s.mem t i) else s.mem t i) ∨
      r' = p ∧ ∃ t₀, MapsAt live s.mem r path t₀ i g ∧ s'.mem t i = markCow (s.mem t₀ i) := by
  rcases List.mem_cons.mp maps.dom.1 with rfl | member
  · have dom : UserDom [r'] r' path := ⟨by simp, maps.dom.2⟩
    obtain ⟨t₀, found, content⟩ := forked.copies path t dom maps.leaf maps.table
    have entry := content i
    have present := maps.present
    have page := maps.page
    split at entry
    case isTrue before =>
      rw [entry] at page
      exact .inr ⟨rfl, t₀, ⟨⟨root, maps.dom.2⟩, maps.leaf, found,
        before, by rw [← page, markCow_page]⟩, entry⟩
    case isFalse =>
      rw [entry] at present
      exact absurd present (by decide)
  · have dom : UserDom live r' path := ⟨member, maps.dom.2⟩
    have found : tableAt s.mem r' path = some t := (forked.walk r' path dom).symm.trans maps.table
    have entry := forked.old_entry i dom maps.leaf found
    have present := maps.present
    have page := maps.page
    rw [entry] at present page
    by_cases marked : r' = r ∧ Present (s.mem t i)
    · rw [if_pos marked] at page entry
      rw [markCow_page] at page
      exact .inl ⟨member, ⟨dom, maps.leaf, found, marked.2, page⟩, by rw [if_pos marked.1, entry]⟩
    · rw [if_neg marked] at present page entry
      refine .inl ⟨member, ⟨dom, maps.leaf, found, present, page⟩, ?_⟩
      rw [if_neg fun same => marked ⟨same, present⟩, entry]

theorem Forked.sharers_same (root : r ∈ live) (unmapped : ∀ path t i, ¬ MapsAt live s.mem r path t i g) :
    sharers (p :: live) s'.mem g = sharers live s.mem g := by
  ext slot
  constructor
  · rintro ⟨r', path, maps, cow⟩
    rcases forked.maps_cases root maps with ⟨-, old, entry⟩ | ⟨-, t₀, old, -⟩
    · have other : r' ≠ r := by
        rintro rfl
        exact unmapped _ _ _ old
      rw [entry, if_neg other] at cow
      exact ⟨r', path, old, cow⟩
    · exact absurd old (unmapped _ _ _)
  · rintro ⟨r', path, old, cow⟩
    have other : r' ≠ r := by
      rintro rfl
      exact unmapped _ _ _ old
    have entry := forked.old_entry slot.2 old.dom old.leaf old.table
    rw [if_neg fun both => other both.1] at entry
    exact ⟨r', path, forked.maps_old old, by rw [entry]; exact cow⟩

end

section
variable (consistent : Consistent kernel s live) (forked : Forked kernel s live r p s') (root : r ∈ live)
include consistent forked

theorem Forked.new_root : p ∉ live := by
  intro member
  have inUse := (consistent.tables p [] p ⟨member, by simp, by simp⟩ rfl).2
  simp [forked.root] at inUse

theorem Forked.copy_apart {path' : List (Fin 512)} (dom : UserDom live r' path)
    (found : tableAt s.mem r' path = some t) (dom' : UserDom [p] p path')
    (found' : tableAt s'.mem p path' = some b) : b ≠ t := by
  rintro rfl
  have inUse := (consistent.tables r' path b dom found).2
  simp [(forked.fresh path' b dom' found').2.1] at inUse

include root

theorem Forked.sharers_more (high : kernel.endPhys ≤ g) (maps : MapsAt live s.mem r path t i g)
    (copy : MapsAt (p :: live) s'.mem p path b i g) :
    sharers (p :: live) s'.mem g = insert (b, i) (insert (t, i) (sharers live s.mem g)) := by
  ext slot
  simp only [Set.mem_insert_iff]
  constructor
  · rintro ⟨r', path', maps', cow⟩
    rcases forked.maps_cases root maps' with ⟨-, old, entry⟩ | ⟨rfl, t₀, old, entry⟩
    · obtain ⟨rfl, index⟩ := consistent.same _ _ _ _ _ _ _ _ g old maps high
      by_cases source : r' = r
      · subst source
        have table : slot.1 = t := Option.some.inj (old.table.symm.trans maps.table)
        exact .inr (.inl (Prod.ext table index))
      · rw [entry, if_neg source] at cow
        exact .inr (.inr ⟨r', path', old, cow⟩)
    · obtain ⟨rfl, index⟩ := consistent.same _ _ _ _ _ _ _ _ g old maps high
      exact .inl (Prod.ext (Option.some.inj (maps'.table.symm.trans copy.table)) index)
  · rintro (rfl | rfl | ⟨r', path', old, cow⟩)
    · obtain ⟨b', copy', entry⟩ := forked.maps_new maps
      obtain rfl : b = b' := Option.some.inj (copy.table.symm.trans copy'.table)
      exact ⟨p, path, copy, by rw [entry]; exact markCow_cow _⟩
    · refine ⟨r, path, forked.maps_old maps, ?_⟩
      rw [forked.old_entry i maps.dom maps.leaf maps.table, if_pos ⟨rfl, maps.present⟩]
      exact markCow_cow _
    · refine ⟨r', path', forked.maps_old old, ?_⟩
      rw [forked.old_entry slot.2 old.dom old.leaf old.table]
      split
      · exact markCow_cow _
      · exact cow

theorem Forked.counts (high : kernel.endPhys ≤ g) :
    s'.refcount g = BitVec.ofNat 32 (sharers (p :: live) s'.mem g).ncard := by
  by_cases mapped : ∃ path t i, MapsAt live s.mem r path t i g
  · obtain ⟨path, t, i, maps⟩ := mapped
    obtain ⟨b, copy, -⟩ := forked.maps_new maps
    have apart : b ≠ t := forked.copy_apart consistent maps.dom maps.table ⟨by simp, copy.dom.2⟩ copy.table
    have fresh : (b, i) ∉ sharers live s.mem g := by
      rintro ⟨r', path', old, -⟩
      exact forked.copy_apart consistent old.dom old.table ⟨by simp, copy.dom.2⟩ copy.table rfl
    rw [forked.countMore g path t i high maps, forked.sharers_more consistent root high maps copy,
      consistent.counts g high, sharesAdded]
    split
    case isTrue owned =>
      -- the only entry that maps the page is not marked
      have none : sharers live s.mem g = ∅ := by
        refine Set.eq_empty_iff_forall_notMem.mpr ?_
        rintro slot ⟨r', path', maps', cow⟩
        obtain rfl := consistent.exclusive _ _ _ _ _ _ _ _ g maps maps' high (not_not.mpr owned)
        obtain ⟨rfl, index⟩ := consistent.same _ _ _ _ _ _ _ _ g maps maps' high
        obtain table : t = slot.1 := Option.some.inj (maps.table.symm.trans maps'.table)
        rw [← table, ← index] at cow
        exact cow owned
      rw [none, insert_empty_eq, Set.ncard_pair (by simp [apart])]
      simp
    case isFalse shared =>
      have member : (t, i) ∈ sharers live s.mem g := ⟨r, path, maps, shared⟩
      rw [Set.insert_eq_of_mem member, Set.ncard_insert_of_notMem fresh (sharers_finite _ _ _),
        BitVec.ofNat_add]
  · have unmapped : ∀ path t i, ¬ MapsAt live s.mem r path t i g :=
      fun path t i maps => mapped ⟨path, t, i, maps⟩
    rw [forked.countSame g high unmapped, forked.sharers_same root unmapped]
    exact consistent.counts g high

theorem Forked.keeps_consistent : Consistent kernel s' (p :: live) := by
  have dom : ∀ {r' path}, UserDom (p :: live) r' path → UserDom live r' path ∨ r' = p ∧
      UserDom [p] p path := by
    rintro r' path ⟨member, short⟩
    rcases List.mem_cons.mp member with rfl | member
    · exact .inr ⟨rfl, by simp, short⟩
    · exact .inl ⟨member, short⟩
  have walk := fun {r' path a} (old : UserDom live r' path) (found : tableAt s'.mem r' path = some a) =>
    (forked.walk r' path old).symm.trans found
  have mapped : ∀ {r' path t i g}, MapsAt (p :: live) s'.mem r' path t i g →
      ∃ r₀ t₀, MapsAt live s.mem r₀ path t₀ i g := by
    intro r' path t i g maps
    rcases forked.maps_cases root maps with ⟨-, old, -⟩ | ⟨-, t₀, old, -⟩
    · exact ⟨r', t, old⟩
    · exact ⟨r, t₀, old⟩
  refine ⟨⟨?_, ?_, ?_, ?_, ?_, ?_, ?_, ?_⟩, ?_, ?_⟩
  · exact List.nodup_cons.mpr ⟨forked.new_root consistent, consistent.distinct⟩
  · intro r₁ path₁ r₂ path₂ a dom₁ dom₂ found₁ found₂
    rcases dom dom₁ with old₁ | ⟨rfl, new₁⟩ <;> rcases dom dom₂ with old₂ | ⟨rfl, new₂⟩
    · exact consistent.separate r₁ path₁ r₂ path₂ a old₁ old₂ (walk old₁ found₁) (walk old₂ found₂)
    · exact absurd rfl (forked.copy_apart consistent old₁ (walk old₁ found₁) new₂ found₂)
    · exact absurd rfl (forked.copy_apart consistent old₂ (walk old₂ found₂) new₁ found₁)
    · exact ⟨rfl, forked.unique path₁ path₂ a new₁ new₂ found₁ found₂⟩
  · intro r' path a inside found
    rcases dom inside with old | ⟨rfl, new⟩
    · obtain ⟨allocatable, inUse⟩ := consistent.tables r' path a old (walk old found)
      exact ⟨allocatable, forked.inUse a inUse⟩
    · obtain ⟨allocatable, -, inUse⟩ := forked.fresh path a new found
      exact ⟨allocatable, inUse⟩
  · exact consistent.kernelLow
  · intro i user linked r' member
    rw [tableAt_single, forked.kernelSame, ← tableAt_single] at linked
    rcases List.mem_cons.mp member with rfl | member
    · obtain ⟨t, found⟩ := Option.ne_none_iff_exists'.mp (consistent.inherited i user linked r root)
      obtain ⟨b, copy⟩ := forked.copied [i] t (userDom_single root user) found
      simp [copy]
    · rw [forked.walk r' _ (userDom_single member user)]
      exact consistent.inherited i user linked r' member
  · intro r' path t i inside leaf found cow
    rcases dom inside with old | ⟨rfl, new⟩
    · have before := consistent.marked r' path t i old leaf (walk old found)
      rw [forked.old_entry i old leaf (walk old found)] at cow ⊢
      by_cases marked : r' = r ∧ Present (s.mem t i)
      · rw [if_pos marked]
        exact ⟨markCow_present.mpr marked.2, markCow_writable fun cow => (before cow).2⟩
      · rw [if_neg marked] at cow ⊢
        exact before cow
    · obtain ⟨t₀, found₀, content⟩ := forked.copies path t new leaf found
      have before := consistent.marked r path t₀ i ⟨root, new.2⟩ leaf found₀
      rw [content i] at cow ⊢
      by_cases present : Present (s.mem t₀ i)
      · rw [if_pos present]
        exact ⟨markCow_present.mpr present, markCow_writable fun cow => (before cow).2⟩
      · rw [if_neg present] at cow
        exact absurd cow (by decide)
  · intro r' path t i g maps high
    obtain ⟨r₀, t₀, old⟩ := mapped maps
    obtain ⟨inUse, notTable⟩ := consistent.pages r₀ path t₀ i g old high
    refine ⟨forked.inUse g inUse, fun r₁ path₁ inside found => ?_⟩
    rcases dom inside with old₁ | ⟨rfl, new⟩
    · exact notTable r₁ path₁ old₁ (walk old₁ found)
    · simp [(forked.fresh path₁ g new found).2.1] at inUse
  · intro r₁ path₁ t₁ i₁ r₂ path₂ t₂ i₂ g maps₁ maps₂ high
    obtain ⟨r₀, t₀, old₁⟩ := mapped maps₁
    obtain ⟨r₀', t₀', old₂⟩ := mapped maps₂
    exact consistent.same _ _ _ _ _ _ _ _ g old₁ old₂ high
  · intro r₁ path₁ t₁ i₁ r₂ path₂ t₂ i₂ g maps₁ maps₂ high owned
    rcases forked.maps_cases root maps₁ with ⟨-, old₁, entry⟩ | ⟨-, t₀, -, entry⟩
    · have other : r₁ ≠ r := by
        rintro rfl
        rw [entry, if_pos rfl] at owned
        exact owned (markCow_cow _)
      rw [entry, if_neg other] at owned
      rcases forked.maps_cases root maps₂ with ⟨-, old₂, -⟩ | ⟨-, t₀, old₂, -⟩
      · exact consistent.exclusive _ _ _ _ _ _ _ _ g old₁ old₂ high owned
      · exact absurd (consistent.exclusive _ _ _ _ _ _ _ _ g old₁ old₂ high owned) other
    · rw [entry] at owned
      exact absurd (markCow_cow _) owned
  · exact fun g high => forked.counts consistent root high

end

end Fork

end

end ByteOS.Mm
