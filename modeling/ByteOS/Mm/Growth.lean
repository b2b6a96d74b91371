import ByteOS.Mm.Lifetime

/-! New address spaces and new mappings.

`mmu_init` adds an address space without user tables, and `vmm_map_page` an entry to one of
them. Both keep `Consistent`, and neither writes to a page that was in use, other than the
tables of the address space itself.
-/

set_option autoImplicit false

namespace ByteOS.Mm

open ByteOS.Lib
open Function (update update_self update_of_ne)

variable {unmap : Bool} {pgtabFlags : BitVec 32} {result : Option PhysAddr} {q t r' g : PhysAddr}
  {path : List (Fin 512)} {mem : PhysMem} {i : Fin 512} {entry : Pte}

/-! ## New pages and address spaces -/

section Create
variable {kernel : Kernel} {s s' : State} {live : List PhysAddr} {p : PhysAddr}

theorem held_of_taken {inUse : PhysAddr → Bool} (held : inUse q = true) : update inUse p true q = true := by
  by_cases same : q = p
  · rw [same, update_self]
  · rwa [update_of_ne same]

theorem Consistent.free_notTable (consistent : Consistent kernel s live) (free : s.inUse p = false)
    {r : PhysAddr} (dom : UserDom live r path) : tableAt s.mem r path ≠ some p := by
  intro found
  have held := (consistent.tables r path p dom found).2
  rw [free] at held
  cases held

theorem Consistent.supplied (consistent : Consistent kernel s live) (supply : FreeSupply kernel s) :
    Supplied (UserDom live) s where
  usable q member := (supply.free q member).1.usable
  distinct := supply.distinct
  fresh q member _ _ dom := consistent.free_notTable (supply.free q member).2 dom

section Fresh
variable (consistent : Consistent kernel s live) (allocatable : Allocatable kernel p)
  (free : s.inUse p = false) (elsewhere : ∀ q, q ≠ p → s'.mem q = s.mem q)
include consistent free elsewhere

theorem Consistent.fresh_agree (r : PhysAddr) (path : List (Fin 512)) (a : PhysAddr)
    (dom : UserDom live r path) (found : tableAt s.mem r path = some a) : s'.mem a = s.mem a := by
  refine elsewhere a ?_
  rintro rfl
  exact consistent.free_notTable free dom found

theorem Consistent.fresh_notTable (r : PhysAddr) (path : List (Fin 512))
    (dom : UserDom live r path) : tableAt s'.mem r path ≠ some p := by
  rw [tableAt_agree (consistent.fresh_agree free elsewhere) dom]
  exact consistent.free_notTable free dom

include allocatable

theorem Consistent.fresh_unmapped (r : PhysAddr) (path : List (Fin 512)) (t : PhysAddr)
    (i : Fin 512) : ¬ MapsAt live s'.mem r path t i p := by
  rw [mapsAt_agree (consistent.fresh_agree free elsewhere)]
  intro maps
  have held := (consistent.pages r path t i p maps allocatable.above).1
  rw [free] at held
  cases held

theorem Consistent.take (inUse : s'.inUse = update s.inUse p true)
    (refcount : s'.refcount = s.refcount) : Consistent kernel s' live := by
  refine consistent.frame (consistent.fresh_agree free elsewhere) (elsewhere _ ?_)
    (fun q held => ?_) refcount
  · rintro rfl
    exact consistent.kernel_not_allocatable allocatable
  · rw [inUse]
    exact held_of_taken held

end Fresh

/-- The kernel's top-level table has no user entry, so that a new address space takes over none. -/
def KernelEmpty (kernel : Kernel) (mem : PhysMem) : Prop :=
  ∀ i : Fin 512, i.val < 128 → ¬ Present (mem kernel.p4 i)

theorem Consistent.add (consistent : Consistent kernel s live) (vacant : KernelEmpty kernel s.mem)
    (allocatable : Allocatable kernel p)
    (held : s.inUse p = true) (notTable : ∀ r path, UserDom live r path → tableAt s.mem r path ≠ some p)
    (notPage : ∀ r path t i, ¬ MapsAt live s.mem r path t i p)
    (empty : ∀ i : Fin 512, i.val < 128 → ¬ Present (s.mem p i)) : Consistent kernel s (p :: live) := by
  have cases : ∀ {r path a}, UserDom (p :: live) r path → tableAt s.mem r path = some a →
      UserDom live r path ∨ r = p ∧ path = [] ∧ a = p := by
    intro r path a dom found
    rcases List.mem_cons.mp dom.1 with rfl | old
    · exact .inr ⟨rfl, tableAt_empty empty dom.2.2 found⟩
    · exact .inl ⟨old, dom.2⟩
  have maps : ∀ {r path t i g}, MapsAt (p :: live) s.mem r path t i g ↔ MapsAt live s.mem r path t i g := by
    intro r path t i g
    constructor
    · intro maps
      rcases cases maps.dom maps.table with dom | ⟨rfl, rfl, rfl⟩
      · exact ⟨dom, maps.leaf, maps.table, maps.present, maps.page⟩
      · simpa using maps.leaf
    · intro maps
      exact ⟨⟨List.mem_cons_of_mem p maps.dom.1, maps.dom.2⟩, maps.leaf, maps.table, maps.present,
        maps.page⟩
  have shared : ∀ g, sharers (p :: live) s.mem g = sharers live s.mem g := by
    intro g
    ext slot
    simp only [sharers, maps]
  refine ⟨⟨?_, ?_, ?_, ?_, ?_, ?_, ?_, ?_⟩, ?_, ?_⟩
  · refine List.nodup_cons.mpr ⟨fun member => ?_, consistent.distinct⟩
    exact notTable p [] ⟨member, by simp, by simp⟩ rfl
  · intro r₁ path₁ r₂ path₂ a dom₁ dom₂ found₁ found₂
    rcases cases dom₁ found₁ with old₁ | ⟨rfl, rfl, rfl⟩ <;> rcases cases dom₂ found₂
      with old₂ | ⟨rfl, rfl, same⟩
    · exact consistent.separate r₁ path₁ r₂ path₂ a old₁ old₂ found₁ found₂
    · exact absurd (same ▸ found₁) (notTable r₁ path₁ old₁)
    · exact absurd found₂ (notTable r₂ path₂ old₂)
    · exact ⟨rfl, rfl⟩
  · intro r path a dom found
    rcases cases dom found with old | ⟨-, -, rfl⟩
    · exact consistent.tables r path a old found
    · exact ⟨allocatable, held⟩
  · exact consistent.kernelLow
  · intro i user linked
    rw [tableAt_single, entryTable_absent (vacant i user)] at linked
    exact absurd rfl linked
  · intro r path t i dom leaf found
    rcases cases dom found with old | ⟨-, rfl, -⟩
    · exact consistent.marked r path t i old leaf found
    · simp at leaf
  · intro r path t i g mapped high
    obtain ⟨inUse, apart⟩ := consistent.pages r path t i g (maps.mp mapped) high
    refine ⟨inUse, fun r' path' dom found => ?_⟩
    rcases cases dom found with old | ⟨-, -, rfl⟩
    · exact apart r' path' old found
    · exact notPage r path t i (maps.mp mapped)
  · intro r path t i r' path' t' i' g first second
    exact consistent.same r path t i r' path' t' i' g (maps.mp first) (maps.mp second)
  · intro r path t i r' path' t' i' g first second
    exact consistent.exclusive r path t i r' path' t' i' g (maps.mp first) (maps.mp second)
  · intro g high
    rw [shared]
    exact consistent.counts g high

theorem FreeSupply.rest (supply : FreeSupply kernel s) (first : s.supply = p :: s'.supply)
    (inUse : s'.inUse = update s.inUse p true) : FreeSupply kernel s' := by
  have distinct := supply.distinct
  rw [first, List.nodup_cons] at distinct
  refine ⟨distinct.2, fun q member => ?_⟩
  have other : q ≠ p := by
    rintro rfl
    exact distinct.1 member
  rw [inUse, update_of_ne other]
  exact supply.free q (by rw [first]; exact List.mem_cons_of_mem p member)

/-- What `mmu_init` does. -/
structure Created (kernel : Kernel) (s : State) (live : List PhysAddr) (p : PhysAddr) (s' : State) :
    Prop where
  consistent : Consistent kernel s' (p :: live)
  vacant : KernelEmpty kernel s'.mem
  supply : FreeSupply kernel s'
  free : s.inUse p = false
  empty : ∀ i : Fin 512, i.val < 128 → ¬ Present (s'.mem p i)
  inUse : s'.inUse = update s.inUse p true
  elsewhere : ∀ q, q ≠ p → s'.mem q = s.mem q

theorem mmuInit_created (consistent : Consistent kernel s live) (vacant : KernelEmpty kernel s.mem)
    (supply : FreeSupply kernel s) (ran : mmuInit kernel s = .ok (p, s')) : Created kernel s live p s' := by
  unfold mmuInit at ran
  obtain ⟨⟨q, s₁⟩, allocated, ran⟩ := bind_eq_ok.mp ran
  obtain ⟨first, refcount, inUse, memory⟩ := pmmAllocPage_cases allocated
  cases ran
  obtain ⟨allocatable, free⟩ := supply.free p (by simp [first])
  have notKernel : kernel.p4 ≠ p := by
    rintro rfl
    exact consistent.kernel_not_allocatable allocatable
  have elsewhere : ∀ b, b ≠ p → (s₁.setPage p (s₁.mem kernel.p4)).mem b = s.mem b := by
    intro b other
    simp [memory, other]
  have root : (s₁.setPage p (s₁.mem kernel.p4)).mem p = s.mem kernel.p4 := by
    simp [memory, notKernel]
  have empty : ∀ i : Fin 512, i.val < 128 → ¬ Present ((s₁.setPage p (s₁.mem kernel.p4)).mem p i) := by
    intro i user
    rw [root]
    exact vacant i user
  have vacant' : KernelEmpty kernel (s₁.setPage p (s₁.mem kernel.p4)).mem := by
    intro i user
    rw [elsewhere _ notKernel]
    exact vacant i user
  have taken : Consistent kernel (s₁.setPage p (s₁.mem kernel.p4)) live :=
    consistent.take allocatable free elsewhere inUse refcount
  refine ⟨taken.add vacant' allocatable ?_ ?_ ?_ empty, vacant', supply.rest first inUse, free,
    empty, inUse, elsewhere⟩
  · rw [State.setPage_inUse, inUse, update_self]
  · exact consistent.fresh_notTable free elsewhere
  · exact consistent.fresh_unmapped allocatable free elsewhere

theorem cloneEntry_idle {child : Option (State → PhysAddr → Except Fault (PhysAddr × State))}
    {pgtab rv : PhysAddr} {l : List (Fin 512)} (absent : ∀ i ∈ l, ¬ Present (s.mem pgtab i)) :
    l.foldlM (cloneEntry child pgtab rv) s = .ok s := by
  induction l with
  | nil => rfl
  | cons i l ih =>
    have skipped : cloneEntry child pgtab rv s i = .ok s :=
      if_pos (not_not.mp (absent i List.mem_cons_self))
    rw [List.foldlM_cons, skipped, ok_bind]
    exact ih fun j later => absent j (List.mem_cons_of_mem i later)

theorem mmuCloneCow_kernel (consistent : Consistent kernel s live)
    (vacant : KernelEmpty kernel s.mem) (supply : FreeSupply kernel s)
    (ran : mmuCloneCow kernel s kernel.p4 = .ok (p, s')) : mmuInit kernel s = .ok (p, s') := by
  simp only [mmuCloneCow, clonePgtab, cloneTable, cloneRoot] at ran
  obtain ⟨⟨q, s₂⟩, allocated, ran⟩ := bind_eq_ok.mp ran
  obtain ⟨⟨q', s₁⟩, taken, allocated⟩ := bind_eq_ok.mp allocated
  obtain ⟨first, -, -, memory⟩ := pmmAllocPage_cases taken
  simp only [pure, Except.pure, Except.ok.injEq, Prod.mk.injEq, if_true] at allocated
  obtain ⟨rfl, rfl⟩ := allocated
  have notKernel : kernel.p4 ≠ q' := by
    rintro rfl
    exact consistent.kernel_not_allocatable (supply.free _ (by simp [first])).1
  have copied : (s₁.setPage q' fun _ => 0#64).setPage q'
      ((s₁.setPage q' fun _ => 0#64).mem kernel.p4) = s₁.setPage q' (s₁.mem kernel.p4) := by
    simp [State.setPage, notKernel]
  rw [copied, cloneEntry_idle, ok_bind] at ran
  · rwa [mmuInit, taken, ok_bind]
  · intro i inside
    have same : (s₁.setPage q' (s₁.mem kernel.p4)).mem kernel.p4 = s.mem kernel.p4 := by
      simp [memory, notKernel]
    rw [same]
    exact vacant i (mem_indices.mp inside)

end Create

/-! ## New mappings -/

section Map
variable {kernel : Kernel} {s s' : State} {live : List PhysAddr} {r : PhysAddr} {nrCpus : Nat}
  {phys virt flags : BitVec 64}

structure Spare (s : State) (live : List PhysAddr) (g : PhysAddr) : Prop where
  held : s.inUse g = true
  notTable : ∀ r path, UserDom live r path → tableAt s.mem r path ≠ some g
  unmapped : ∀ r path t i, ¬ MapsAt live s.mem r path t i g

theorem entryAt_of_table (found : tableAt mem r path = some t) (i : Fin 512) :
    entryAt mem r path i = mem t i := by
  rw [tableAt] at found
  rw [entryAt, lookup, found]

theorem table_of_entryAt (value : entryAt mem r path i = entry) (nonzero : entry ≠ 0#64) :
    ∃ t, tableAt mem r path = some t ∧ mem t i = entry := by
  cases found : tableAt mem r path with
  | none =>
    rw [tableAt] at found
    rw [entryAt, lookup, found] at value
    exact absurd value.symm nonzero
  | some t => exact ⟨t, rfl, (entryAt_of_table found i).symm.trans value⟩

section
variable (consistent : Consistent kernel s live) (supply : FreeSupply kernel s) (root : r ∈ live)
  (user : (p4Index virt).val < 128) (ran : vmmMapPage nrCpus s r phys virt flags = .ok s')
include consistent supply root user ran

theorem Consistent.mapped : Mapped (UserDom live) r phys virt flags s s' :=
  vmmMapPage_spec (userDom_region live) (consistent.supplied supply) consistent.separate
    (userDom_tablePath root user) ran

theorem Consistent.map_held (held : s.inUse q = true) : s'.inUse q = true :=
  ((consistent.mapped supply root user ran).inUse q).mpr (.inl held)

theorem Consistent.map_frame (held : s.inUse q = true ∨ ¬ Allocatable kernel q)
    (notTable : ∀ path, UserDom live r path → tableAt s.mem r path ≠ some q) : s'.mem q = s.mem q := by
  funext j
  refine (consistent.mapped supply root user ran).frame q j (fun member => ?_) fun path dom _ =>
    notTable path dom
  obtain ⟨allocatable, free⟩ := supply.free q member
  rcases held with held | outside
  · rw [free] at held
    cases held
  · exact outside allocatable

theorem Consistent.map_kernelSame : s'.mem kernel.p4 = s.mem kernel.p4 :=
  consistent.map_frame supply root user ran (.inr consistent.kernel_not_allocatable) fun path dom found =>
    consistent.kernel_not_allocatable (consistent.tables r path _ dom found).1

theorem Consistent.map_tables {a : PhysAddr} (dom : UserDom live r' path)
    (found : tableAt s'.mem r' path = some a) :
    tableAt s.mem r' path = some a ∨ Allocatable kernel a ∧ s.inUse a = false ∧ s'.inUse a = true := by
  have mapped := consistent.mapped supply root user ran
  refine (mapped.tables r' path a dom found).imp_right fun member => ?_
  obtain ⟨allocatable, free⟩ := supply.free a member
  refine ⟨allocatable, free, (mapped.inUse a).mpr (.inr ⟨member, fun later => ?_⟩)⟩
  exact mapped.supplied.fresh a later r' path dom found

theorem FreeSupply.map : FreeSupply kernel s' := by
  have mapped := consistent.mapped supply root user ran
  refine ⟨supply.distinct.sublist mapped.suffix.sublist, fun q member => ?_⟩
  obtain ⟨allocatable, free⟩ := supply.free q (mapped.suffix.subset member)
  refine ⟨allocatable, Bool.eq_false_iff.mpr fun held => ?_⟩
  rcases (mapped.inUse q).mp held with before | ⟨-, gone⟩
  · rw [free] at before
    cases before
  · exact gone member

variable (absent : ¬ Present (entryAt s.mem r (tablePath virt) (p1Index virt)))

omit absent in
theorem Consistent.map_cases (maps : MapsAt live s'.mem r' path t i g) :
    (r' = r ∧ path = tablePath virt ∧ i = p1Index virt) ∧ s'.mem t i = leafEntry phys flags ∨
      MapsAt live s.mem r' path t i g ∧ s'.mem t i = s.mem t i := by
  have mapped := consistent.mapped supply root user ran
  have entries := mapped.entries r' path i maps.dom maps.leaf
  rw [entryAt_of_table maps.table] at entries
  split at entries
  case isTrue target => exact .inl ⟨target, entries⟩
  case isFalse =>
    have present := maps.present
    obtain ⟨t₀, found, value⟩ := table_of_entryAt entries.symm (nonzero_of_present present)
    have kept := mapped.kept r' path t₀ maps.dom found
    obtain rfl : t₀ = t := Option.some.inj (kept.symm.trans maps.table)
    exact .inr ⟨⟨maps.dom, maps.leaf, found, value ▸ present, by rw [value]; exact maps.page⟩, value.symm⟩

include absent

theorem Consistent.map_old (maps : MapsAt live s.mem r' path t i g) :
    MapsAt live s'.mem r' path t i g ∧ s'.mem t i = s.mem t i := by
  have mapped := consistent.mapped supply root user ran
  have table := mapped.kept r' path t maps.dom maps.table
  have entries := mapped.entries r' path i maps.dom maps.leaf
  rw [entryAt_of_table table, entryAt_of_table maps.table] at entries
  have same : s'.mem t i = s.mem t i := by
    rw [entries, if_neg]
    rintro ⟨rfl, rfl, rfl⟩
    rw [entryAt_of_table maps.table] at absent
    exact absent maps.present
  exact ⟨⟨maps.dom, maps.leaf, table, same ▸ maps.present, same ▸ maps.page⟩, same⟩

theorem Consistent.map (owned : ¬ Cow (leafEntry phys flags))
    (page : kernel.endPhys ≤ leafEntry phys flags &&& pteAddrMask →
      Spare s live (leafEntry phys flags &&& pteAddrMask)) :
    Consistent kernel s' live := by
  have mapped := consistent.mapped supply root user ran
  have cases := fun {r' path t i g} (maps : MapsAt live s'.mem r' path t i g) =>
    consistent.map_cases supply root user ran maps
  have old := fun {r' path t i g} (maps : MapsAt live s.mem r' path t i g) =>
    consistent.map_old supply root user ran absent maps
  -- the page of the new entry is not that of another one
  have apart : ∀ {r' path t i g}, MapsAt live s'.mem r' path t i g → kernel.endPhys ≤ g →
      (r' = r ∧ path = tablePath virt ∧ i = p1Index virt ∧ g = leafEntry phys flags &&& pteAddrMask) ∨
        MapsAt live s.mem r' path t i g ∧ s'.mem t i = s.mem t i ∧
          g ≠ leafEntry phys flags &&& pteAddrMask := by
    intro r' path t i g maps high
    rcases cases maps with ⟨⟨hr, hpath, hi⟩, new⟩ | ⟨before, value⟩
    · exact .inl ⟨hr, hpath, hi, new ▸ maps.page.symm⟩
    · refine .inr ⟨before, value, ?_⟩
      rintro rfl
      exact (page high).unmapped _ _ _ _ before
  refine ⟨⟨?_, ?_, ?_, ?_, ?_, ?_, ?_, ?_⟩, ?_, ?_⟩
  · exact consistent.distinct
  · exact mapped.separate
  · intro r' path a dom found
    rcases consistent.map_tables supply root user ran dom found with before | ⟨allocatable, -, held⟩
    · exact (consistent.tables r' path a dom before).imp_right (consistent.map_held supply root user ran)
    · exact ⟨allocatable, held⟩
  · exact consistent.kernelLow
  · intro i below linked r' member
    rw [tableAt_single, consistent.map_kernelSame supply root user ran, ← tableAt_single] at linked
    obtain ⟨a, found⟩ := Option.ne_none_iff_exists'.mp (consistent.inherited i below linked r' member)
    simp [(consistent.mapped supply root user ran).kept r' [i] a (userDom_single member below) found]
  · intro r' path t i dom leaf found cow
    have entries := mapped.entries r' path i dom leaf
    rw [entryAt_of_table found] at entries
    split at entries
    · exact absurd (entries ▸ cow) owned
    · obtain ⟨t₀, before, value⟩ := table_of_entryAt entries.symm (nonzero_of_cow cow)
      rw [← value] at cow ⊢
      exact consistent.marked r' path t₀ i dom leaf before cow
  · intro r' path t i g maps high
    have spare : s.inUse g = true ∧ ∀ r₁ path₁, UserDom live r₁ path₁ →
        tableAt s.mem r₁ path₁ ≠ some g := by
      rcases cases maps with ⟨-, new⟩ | ⟨before, -⟩
      · have same : leafEntry phys flags &&& pteAddrMask = g := new ▸ maps.page
        have unused := page (same ▸ high)
        rw [same] at unused
        exact ⟨unused.held, unused.notTable⟩
      · exact consistent.pages r' path t i g before high
    refine ⟨consistent.map_held supply root user ran spare.1, fun r₁ path₁ dom found => ?_⟩
    rcases consistent.map_tables supply root user ran dom found with before | ⟨-, free, -⟩
    · exact spare.2 r₁ path₁ dom before
    · rw [free] at spare
      cases spare.1
  · intro r₁ path₁ t₁ i₁ r₂ path₂ t₂ i₂ g maps₁ maps₂ high
    exact (consistent.after_slot apart maps₁ maps₂ high).1
  · intro r₁ path₁ t₁ i₁ r₂ path₂ t₂ i₂ g maps₁ maps₂ high
    exact (consistent.after_slot apart maps₁ maps₂ high).2
  · intro g high
    have shared : sharers live s'.mem g = sharers live s.mem g := by
      ext slot
      constructor
      · rintro ⟨r', path, maps, cow⟩
        rcases cases maps with ⟨-, new⟩ | ⟨before, value⟩
        · exact absurd (new ▸ cow) owned
        · exact ⟨r', path, before, value ▸ cow⟩
      · rintro ⟨r', path, maps, cow⟩
        obtain ⟨after, value⟩ := old maps
        exact ⟨r', path, after, value.symm ▸ cow⟩
    rw [shared, (consistent.mapped supply root user ran).refcount]
    exact consistent.counts g high

end

end Map

end ByteOS.Mm
