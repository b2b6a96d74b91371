import ByteOS.Mm.Sharing

/-! Reference counts and the lifetime of pages.

Write faults, forks and exits keep `Consistent`. It follows that the count of a
page is the number of entries that share it, that a page is given back exactly
once, when the last address space that maps it is reaped, and that no free page
is ever copied.
-/

set_option autoImplicit false

namespace ByteOS.Mm

open ByteOS.Lib
open Function (update update_self update_of_ne)

variable {kernel : Kernel} {s s' : State} {live : List PhysAddr}

/-! ## Write faults -/

/-- The slot `(t, i)` was marked and has been made writable. It maps `g`, which is
the page that it mapped before or a fresh copy of that page. -/
structure Unshared (kernel : Kernel) (s : State) (t : PhysAddr) (i : Fin 512) (g : PhysAddr)
    (s' : State) : Prop where
  present : Present (s'.mem t i) ↔ Present (s.mem t i)
  writable : Writable (s'.mem t i)
  notCow : ¬ Cow (s'.mem t i)
  page : s'.mem t i &&& pteAddrMask = g
  refcount : s'.refcount = update s.refcount (s.mem t i &&& pteAddrMask)
    (s.refcount (s.mem t i &&& pteAddrMask) - 1#32)
  frame : ∀ q j, ¬ (q = t ∧ j = i) → (q = g → g = s.mem t i &&& pteAddrMask) → s'.mem q j = s.mem q j
  origin : g = s.mem t i &&& pteAddrMask ∧ s.refcount g - 1#32 = 0#32 ∧ s'.inUse = s.inUse ∨
    Allocatable kernel g ∧ s.inUse g = false ∧ s'.inUse = update s.inUse g true ∧
      s'.mem g = s.mem (s.mem t i &&& pteAddrMask)

theorem krefDecRead_cases {page : PhysAddr} {count : BitVec 32}
    (ran : krefDecRead s page = .ok (count, s')) : page ≠ 0#64 ∧ count = s.refcount page - 1#32 ∧
      s' = { s with refcount := update s.refcount page (s.refcount page - 1#32) } := by
  unfold krefDecRead at ran
  split at ran
  case isTrue null => simp at ran
  case isFalse nonzero =>
    cases ran
    exact ⟨nonzero, rfl, rfl⟩

theorem cowReplacePage_cases {t src : PhysAddr} {i : Fin 512} (ran : cowReplacePage s t i src = .ok s') :
    ∃ dest, s.supply = dest :: s'.supply ∧ s'.refcount = s.refcount ∧
      s'.inUse = update s.inUse dest true ∧ (t ≠ dest → src ≠ dest → s'.mem =
        writeEntry (update s.mem dest (s.mem src)) t i
          ((s.mem t i &&& ~~~pteAddrMask) ||| (dest &&& pteAddrMask))) := by
  obtain ⟨⟨dest, s₁⟩, allocated, ran⟩ := bind_eq_ok.mp ran
  obtain ⟨supply, refcount, inUse, memory⟩ := pmmAllocPage_cases allocated
  cases ran
  refine ⟨dest, supply, refcount, inUse, fun apart other => ?_⟩
  simp [State.setPage, State.setEntry, memory, apart, other]

theorem ownEntry_bits (entry : Pte) : let own := (entry &&& ~~~pageCow) ||| pageWritable
    (Present own ↔ Present entry) ∧ Writable own ∧ ¬ Cow own ∧
      own &&& pteAddrMask = entry &&& pteAddrMask := by
  refine ⟨?_, masked_set (by decide) (by decide),
    not_not.mpr (masked_clear (by decide) (by decide)), masked_update (by decide) (by decide)⟩
  rw [Present, Present, masked_update (by decide) (by decide)]

theorem repoint_bits (entry : Pte) {dest : PhysAddr} (usable : Usable dest) :
    let moved := (entry &&& ~~~pteAddrMask) ||| (dest &&& pteAddrMask)
    (Present moved ↔ Present entry) ∧ moved &&& pteAddrMask = dest := by
  have clear : (dest &&& pteAddrMask) &&& pagePresent = 0#64 := by
    rw [BitVec.and_assoc]
    exact BitVec.and_zero
  refine ⟨by rw [Present, Present, masked_update (by decide) clear], ?_⟩
  rw [BitVec.and_or_distrib_right, BitVec.and_assoc, BitVec.and_assoc, BitVec.and_self, usable.1]
  have dropped : ~~~pteAddrMask &&& pteAddrMask = 0#64 := by decide
  rw [dropped, BitVec.and_zero, BitVec.zero_or]

variable {done : Bool} {path' : List (Fin 512)} {j : Fin 512} {va : BitVec 64} {p : PhysAddr}

theorem cowHandleWrite_cases {pte : Option (PhysAddr × Fin 512)} (supply : FreeSupply kernel s)
    (held : ∀ t i, pte = some (t, i) → s.inUse t = true)
    (mapped : ∀ t i, pte = some (t, i) → kernel.endPhys ≤ s.mem t i &&& pteAddrMask → Cow (s.mem t i) →
      s.inUse (s.mem t i &&& pteAddrMask) = true) (ran : cowHandleWrite s pte = .ok (done, s')) :
    done = false ∧ s' = s ∧ (∀ t i, pte = some (t, i) → ¬ Cow (s.mem t i)) ∨
      done = true ∧ ∃ t i g, pte = some (t, i) ∧ Cow (s.mem t i) ∧ Unshared kernel s t i g s' := by
  unfold cowHandleWrite at ran
  split at ran
  case h_1 =>
    cases ran
    exact .inl ⟨rfl, rfl, by simp⟩
  case h_2 t i =>
    split at ran
    case isTrue owned =>
      cases ran
      refine .inl ⟨rfl, rfl, fun t' i' same => ?_⟩
      cases same
      exact not_not.mpr owned
    case isFalse cow =>
      obtain ⟨⟨count, s₁⟩, counted, ran⟩ := bind_eq_ok.mp ran
      obtain ⟨nonzero, rfl, rfl⟩ := krefDecRead_cases counted
      obtain ⟨s₂, replaced, ran⟩ := bind_eq_ok.mp ran
      cases ran
      refine .inr ⟨rfl, t, i, s₂.mem t i &&& pteAddrMask, rfl, cow, ?_⟩
      obtain ⟨ownPresent, ownWritable, ownNotCow, ownPage⟩ := ownEntry_bits (s₂.mem t i)
      split at replaced
      case isTrue more =>
        obtain ⟨dest, taken, refcount, inUse, memory⟩ := cowReplacePage_cases replaced
        obtain ⟨allocatable, free⟩ := supply.free dest (by rw [show s.supply = _ from taken]; simp)
        have apart : t ≠ dest := by
          rintro rfl
          simp [held t i rfl] at free
        have other : s.mem t i &&& pteAddrMask ≠ dest := by
          rintro rfl
          simp [mapped t i rfl allocatable.above cow] at free
        have memory := memory apart other
        obtain ⟨movedPresent, movedPage⟩ := repoint_bits (s.mem t i) allocatable.usable
        have entry : s₂.mem t i = (s.mem t i &&& ~~~pteAddrMask) ||| (dest &&& pteAddrMask) := by
          rw [memory, writeEntry_self]
        have page : s₂.mem t i &&& pteAddrMask = dest := by rw [entry, movedPage]
        rw [page]
        constructor
        · rw [State.setEntry_mem, writeEntry_self, ownPresent, entry, movedPresent]
        · rwa [State.setEntry_mem, writeEntry_self]
        · rwa [State.setEntry_mem, writeEntry_self]
        · rw [State.setEntry_mem, writeEntry_self, ownPage, page]
        · exact refcount
        · intro q j elsewhere notFresh
          have fresh : q ≠ dest := fun same => other (notFresh same).symm
          rw [State.setEntry_mem, writeEntry_of_ne _ _ elsewhere, memory,
            writeEntry_of_ne _ _ elsewhere, update_of_ne fresh]
        · refine .inr ⟨allocatable, free, inUse, ?_⟩
          funext j
          rw [State.setEntry_mem, writeEntry_of_ne _ _ (by simp [apart.symm]), memory,
            writeEntry_of_ne _ _ (by simp [apart.symm]), update_self]
      case isFalse last =>
        cases replaced
        constructor
        · rw [State.setEntry_mem, writeEntry_self, ownPresent]
        · rwa [State.setEntry_mem, writeEntry_self]
        · rwa [State.setEntry_mem, writeEntry_self]
        · rw [State.setEntry_mem, writeEntry_self, ownPage]
        · rfl
        · intro q j elsewhere _
          rw [State.setEntry_mem, writeEntry_of_ne _ _ elsewhere]
        · refine .inl ⟨rfl, ?_, rfl⟩
          exact BitVec.eq_of_toNat_eq (by simpa [BitVec.lt_def] using last)

variable {r' a t' x : PhysAddr}

section Unshare
variable {r t g : PhysAddr} {path : List (Fin 512)} {i : Fin 512} (consistent : Consistent kernel s live)
  (dom : UserDom live r path) (leaf : path.length = 3) (found : tableAt s.mem r path = some t)
  (cow : Cow (s.mem t i)) (unshared : Unshared kernel s t i g s')
include consistent unshared

theorem Unshared.table_frame (dom' : UserDom live r' path')
    (found' : tableAt s.mem r' path' = some a) (other : ¬ (a = t ∧ j = i)) : s'.mem a j = s.mem a j := by
  refine unshared.frame a j other ?_
  rintro rfl
  rcases unshared.origin with ⟨same, -⟩ | ⟨-, free, -⟩
  · exact same
  · simp [(consistent.tables r' path' a dom' found').2] at free

include dom leaf found

theorem Unshared.walk (dom' : UserDom live r' path') :
    tableAt s'.mem r' path' = tableAt s.mem r' path' := by
  apply walk_frame
  intro before j b front reached
  have shorter : before <+: path' := (List.prefix_append _ _).trans front
  have inside := (userDom_region live).closed r' before path' shorter dom'
  rw [unshared.table_frame consistent inside reached]
  rintro ⟨rfl, rfl⟩
  obtain ⟨-, rfl⟩ := consistent.separate r path r' before b dom inside found reached
  have length := front.length_le
  simp only [List.length_append, List.length_singleton] at length
  have := dom'.2.1
  omega

theorem Unshared.maps_cases (maps : MapsAt live s'.mem r' path' t' j x) :
    r' = r ∧ path' = path ∧ t' = t ∧ j = i ∧ x = g ∨
      ¬ (t' = t ∧ j = i) ∧ MapsAt live s.mem r' path' t' j x ∧ s'.mem t' j = s.mem t' j := by
  have found' : tableAt s.mem r' path' = some t' :=
    (unshared.walk consistent dom leaf found maps.dom).symm.trans maps.table
  by_cases here : t' = t ∧ j = i
  · obtain ⟨rfl, rfl⟩ := here
    obtain ⟨rfl, rfl⟩ := consistent.separate r' path' r path t' maps.dom dom found' found
    exact .inl ⟨rfl, rfl, rfl, rfl, by rw [← maps.page, unshared.page]⟩
  · have entry := unshared.table_frame consistent maps.dom found' here
    refine .inr ⟨here, ⟨maps.dom, maps.leaf, found', ?_, ?_⟩, entry⟩ <;> rw [← entry]
    · exact maps.present
    · exact maps.page

theorem Unshared.maps_old (maps : MapsAt live s.mem r' path' t' j x) (other : ¬ (t' = t ∧ j = i)) :
    MapsAt live s'.mem r' path' t' j x ∧ s'.mem t' j = s.mem t' j := by
  have entry := unshared.table_frame consistent maps.dom maps.table other
  have found' := (unshared.walk consistent dom leaf found maps.dom).trans maps.table
  refine ⟨⟨maps.dom, maps.leaf, found', ?_, ?_⟩, entry⟩ <;> rw [entry]
  · exact maps.present
  · exact maps.page

theorem Unshared.sharers_less (x : PhysAddr) : sharers live s'.mem x = sharers live s.mem x \ {(t, i)} := by
  ext ⟨t', j⟩
  simp only [Set.mem_sdiff, Set.mem_singleton_iff, Prod.mk.injEq]
  constructor
  · rintro ⟨r', path', maps, marked⟩
    rcases unshared.maps_cases consistent dom leaf found maps with ⟨-, -, rfl, rfl, -⟩ | ⟨other, old, entry⟩
    · exact absurd marked unshared.notCow
    · exact ⟨⟨r', path', old, entry ▸ marked⟩, other⟩
  · rintro ⟨⟨r', path', old, marked⟩, other⟩
    obtain ⟨maps, entry⟩ := unshared.maps_old consistent dom leaf found old other
    exact ⟨r', path', maps, entry.symm ▸ marked⟩

include cow

theorem Unshared.counts (high : kernel.endPhys ≤ x) :
    s'.refcount x = BitVec.ofNat 32 (sharers live s'.mem x).ncard := by
  have present := (consistent.marked r path t i dom leaf found cow).1
  rw [unshared.sharers_less consistent dom leaf found, unshared.refcount]
  by_cases here : x = s.mem t i &&& pteAddrMask
  · subst here
    have member : (t, i) ∈ sharers live s.mem (s.mem t i &&& pteAddrMask) :=
      ⟨r, path, ⟨dom, leaf, found, present, rfl⟩, cow⟩
    have one := Set.ncard_sdiff_singleton_add_one member (sharers_finite _ _ _)
    rw [update_self, consistent.counts _ high, ← one, BitVec.ofNat_add, BitVec.add_sub_cancel]
  · have other : (t, i) ∉ sharers live s.mem x := by
      rintro ⟨r', path', maps, -⟩
      exact here maps.page.symm
    rw [update_of_ne here, Set.sdiff_singleton_eq_self other]
    exact consistent.counts x high

theorem Unshared.last (high : kernel.endPhys ≤ g) (maps : MapsAt live s.mem r' path' t' j g) :
    t' = t ∧ j = i := by
  have present := (consistent.marked r path t i dom leaf found cow).1
  rcases unshared.origin with ⟨rfl, zero, -⟩ | ⟨-, free, -⟩
  · have self : MapsAt live s.mem r path t i (s.mem t i &&& pteAddrMask) := ⟨dom, leaf, found, present, rfl⟩
    have marked : Cow (s.mem t' j) := by
      by_contra owned
      obtain rfl := consistent.exclusive _ _ _ _ _ _ _ _ _ maps self high owned
      obtain ⟨rfl, rfl⟩ := consistent.same _ _ _ _ _ _ _ _ _ maps self high
      obtain rfl : t' = t := Option.some.inj (maps.table.symm.trans found)
      exact owned cow
    -- a count of one leaves room for one sharer
    have one : (sharers live s.mem (s.mem t i &&& pteAddrMask)).ncard = 1 := by
      rw [← consistent.count_eq high]
      have := congrArg BitVec.toNat (sub_eq_zero.mp zero)
      simpa using this
    obtain ⟨slot, only⟩ := Set.ncard_eq_one.mp one
    have first : (t, i) ∈ sharers live s.mem (s.mem t i &&& pteAddrMask) := ⟨r, path, self, cow⟩
    have second : (t', j) ∈ sharers live s.mem (s.mem t i &&& pteAddrMask) := ⟨r', path', maps, marked⟩
    rw [only, Set.mem_singleton_iff] at first second
    simpa using second.trans first.symm
  · simp [(consistent.pages _ _ _ _ _ maps high).1] at free

omit leaf cow in
theorem Unshared.kernelSame : s'.mem kernel.p4 = s.mem kernel.p4 := by
  have notAllocatable : ∀ q, Allocatable kernel q → kernel.p4 ≠ q := by
    rintro q allocatable rfl
    exact consistent.kernel_not_allocatable allocatable
  funext j
  refine unshared.frame kernel.p4 j (fun same => ?_) fun same => ?_
  · exact notAllocatable t (consistent.tables r path t dom found).1 same.1
  · rcases unshared.origin with ⟨kept, -⟩ | ⟨allocatable, -⟩
    · exact kept
    · exact absurd same (notAllocatable g allocatable)

theorem Unshared.keeps_consistent : Consistent kernel s' live := by
  have more : ∀ q, s.inUse q = true → s'.inUse q = true := by
    intro q inUse
    rcases unshared.origin with ⟨-, -, same⟩ | ⟨-, -, added, -⟩
    · rw [same, inUse]
    · by_cases here : q = g <;> simp [added, here, inUse]
  have walk :=
    fun {r' path' a} (dom' : UserDom live r' path') (found' : tableAt s'.mem r' path' = some a) =>
    (unshared.walk consistent dom leaf found dom').symm.trans found'
  -- a page mapped elsewhere is not the fresh copy
  have slot : ∀ {r' path' t' j x}, MapsAt live s'.mem r' path' t' j x → kernel.endPhys ≤ x →
      (r' = r ∧ path' = path ∧ j = i ∧ x = g) ∨
        MapsAt live s.mem r' path' t' j x ∧ s'.mem t' j = s.mem t' j ∧ x ≠ g := by
    intro r' path' t' j x maps high
    rcases unshared.maps_cases consistent dom leaf found maps with ⟨hr, hpath, -, hj, hx⟩ | ⟨other,
      old, entry⟩
    · exact .inl ⟨hr, hpath, hj, hx⟩
    · refine .inr ⟨old, entry, ?_⟩
      rintro rfl
      exact other (unshared.last consistent dom leaf found cow high old)
  refine ⟨⟨?_, ?_, ?_, ?_, ?_, ?_, ?_, ?_⟩, ?_, ?_⟩
  · exact consistent.distinct
  · intro r₁ path₁ r₂ path₂ a dom₁ dom₂ found₁ found₂
    exact consistent.separate r₁ path₁ r₂ path₂ a dom₁ dom₂ (walk dom₁ found₁) (walk dom₂ found₂)
  · intro r' path' a dom' found'
    obtain ⟨allocatable, inUse⟩ := consistent.tables r' path' a dom' (walk dom' found')
    exact ⟨allocatable, more a inUse⟩
  · exact consistent.kernelLow
  · intro j user linked r' member
    rw [tableAt_single, unshared.kernelSame consistent dom found, ← tableAt_single] at linked
    rw [unshared.walk consistent dom leaf found (userDom_single member user)]
    exact consistent.inherited j user linked r' member
  · intro r' path' t' j dom' leaf' found' marked
    by_cases here : t' = t ∧ j = i
    · obtain ⟨rfl, rfl⟩ := here
      exact absurd marked unshared.notCow
    · have entry := unshared.table_frame consistent dom' (walk dom' found') here
      rw [entry] at marked ⊢
      exact consistent.marked r' path' t' j dom' leaf' (walk dom' found') marked
  · intro r' path' t' j x maps high
    rcases unshared.maps_cases consistent dom leaf found maps with ⟨rfl, rfl, rfl, rfl, rfl⟩ | ⟨-,
      before, -⟩
    · rcases unshared.origin with ⟨kept, -⟩ | ⟨-, free, added, -⟩
      · have present := (consistent.marked _ _ _ _ dom leaf found cow).1
        have self : MapsAt live s.mem r' path' t' j x := ⟨dom, leaf, found, present, kept.symm⟩
        obtain ⟨inUse, notTable⟩ := consistent.pages _ _ _ _ _ self high
        exact ⟨more x inUse, fun r₁ path₁ dom₁ found₁ => notTable r₁ path₁ dom₁ (walk dom₁ found₁)⟩
      · refine ⟨by simp [added], fun r₁ path₁ dom₁ found₁ => ?_⟩
        simp [(consistent.tables r₁ path₁ x dom₁ (walk dom₁ found₁)).2] at free
    · obtain ⟨inUse, notTable⟩ := consistent.pages _ _ _ _ _ before high
      exact ⟨more x inUse, fun r₁ path₁ dom₁ found₁ => notTable r₁ path₁ dom₁ (walk dom₁ found₁)⟩
  · intro r₁ path₁ t₁ i₁ r₂ path₂ t₂ i₂ x maps₁ maps₂ high
    exact (consistent.after_slot slot maps₁ maps₂ high).1
  · intro r₁ path₁ t₁ i₁ r₂ path₂ t₂ i₂ x maps₁ maps₂ high
    exact (consistent.after_slot slot maps₁ maps₂ high).2
  · exact fun x high => unshared.counts consistent dom leaf found cow high

end Unshare

/-! ## Exits -/

section Exit
variable {r : PhysAddr}

/-- What `mmu_reap` does to the pages of the address space `r`. -/
structure Exited (kernel : Kernel) (s : State) (live : List PhysAddr) (r : PhysAddr) (s' : State) :
    Prop where
  fewer : ∀ q, s'.inUse q = true → s.inUse q = true
  frame : ∀ q, s'.inUse q = s.inUse q → s'.mem q = s.mem q
  tables : ∀ path a, UserDom live r path → tableAt s.mem r path = some a → s'.inUse a = false
  shared : ∀ path t i g, MapsAt live s.mem r path t i g → kernel.endPhys ≤ g → Cow (s.mem t i) →
    s'.refcount g = s.refcount g - 1#32 ∧ s'.inUse g = decide (s.refcount g - 1#32 ≠ 0#32)
  owned : ∀ path t i g, MapsAt live s.mem r path t i g → kernel.endPhys ≤ g → ¬ Cow (s.mem t i) →
    s'.refcount g = s.refcount g ∧ s'.inUse g = decide (g = kernel.endPhys)
  other : ∀ q, (∀ path, UserDom live r path → tableAt s.mem r path ≠ some q) →
    (kernel.endPhys ≤ q → ∀ path t i, ¬ MapsAt live s.mem r path t i q) → s'.inUse q = s.inUse q
  uncounted : ∀ q, (kernel.endPhys ≤ q → ∀ path t i, ¬ MapsAt live s.mem r path t i q) →
    s'.refcount q = s.refcount q

variable {g t : PhysAddr} {path : List (Fin 512)} {i : Fin 512}

section

variable (trees : Trees kernel s live)
include trees

theorem Trees.nonzero (high : kernel.endPhys ≤ g) : g ≠ 0#64 := by
  rintro rfl
  have low := trees.kernelLow
  rw [BitVec.lt_def] at low
  rw [BitVec.le_def] at high
  exact absurd (lt_of_lt_of_le low high) (by simp)

theorem Trees.reapable (root : r ∈ live) : Reapable kernel 3 (indices 128) s r := by
  constructor
  · intro path path' a copied copied' short short' found found'
    exact (trees.separate r path r path' a (copied_userDom root short copied)
      (copied_userDom root short' copied') found found').2
  · intro path a copied short found
    obtain ⟨allocatable, inUse⟩ := trees.tables r path a (copied_userDom root short copied) found
    exact ⟨allocatable.usable.2, inUse⟩
  · intro path t i g copy high
    obtain ⟨inUse, notTable⟩ := trees.pages r path t i g ((mapsAt_iff root).mpr copy) high
    exact ⟨trees.nonzero high, inUse, fun path' copied short =>
      notTable r path' (copied_userDom root short copied)⟩
  · intro path t i path' t' i' g copy copy' high
    exact trees.same r path t i r path' t' i' g ((mapsAt_iff root).mpr copy)
      ((mapsAt_iff root).mpr copy') high

theorem mmuReap_exited (root : r ∈ live) : ∃ s', mmuReap kernel s r = .ok s' ∧
    Exited kernel s live r s' := by
  obtain ⟨mid, s', ran, reaped, held, rfl⟩ := mmuReap_spec (trees.reapable root)
  have start := (trees.tables r [] r ⟨root, by simp, by simp⟩ rfl).2
  have page : ∀ {path t i g}, MapsAt live s.mem r path t i g → kernel.endPhys ≤ g → g ≠ r := by
    rintro path t i g maps high rfl
    exact (trees.pages _ _ _ _ _ maps high).2 g [] ⟨root, by simp, by simp⟩ rfl
  refine ⟨_, ran, ?_⟩
  constructor
  · exact fun q after => reaped.fewer q (freed_fewer after)
  · intro q same
    have other : q ≠ r := by
      rintro rfl
      simp [start] at same
    simp only [State.setPage_mem, State.setPage_inUse, update_of_ne other] at same ⊢
    exact reaped.frame q other same
  · intro path a dom found
    by_cases top : path = []
    · subst top
      obtain rfl : r = a := Option.some.inj found
      simp
    · have gone := reaped.tables path a top (userDom_copied dom found) dom.2.1 found
      by_cases same : a = r <;> simp [same, gone]
  · intro path t i g maps high cow
    simpa [page maps high] using reaped.shared path t i g ((mapsAt_iff root).mp maps) high cow
  · intro path t i g maps high owned
    simpa [page maps high] using reaped.owned path t i g ((mapsAt_iff root).mp maps) high owned
  · intro q notTable notPage
    have other : q ≠ r := by
      rintro rfl
      exact notTable [] ⟨root, by simp, by simp⟩ rfl
    simpa [other] using reaped.other q
      (fun path _ copied short => notTable path (copied_userDom root short copied))
      fun high path t i copy => notPage high path t i ((mapsAt_iff root).mpr copy)
  · exact fun q notPage => reaped.uncounted q fun high path t i copy =>
      notPage high path t i ((mapsAt_iff root).mpr copy)

end

theorem erase_userDom (dom : UserDom (live.erase r) r' path) (distinct : live.Nodup) :
    UserDom live r' path ∧ r' ≠ r :=
  ⟨⟨List.mem_of_mem_erase dom.1, dom.2⟩, fun same => distinct.not_mem_erase (same ▸ dom.1)⟩

section
variable (consistent : Consistent kernel s live) (exited : Exited kernel s live r s')
include consistent exited

theorem Exited.table_kept (dom : UserDom (live.erase r) r' path)
    (found : tableAt s.mem r' path = some a) : s'.inUse a = true ∧ s'.mem a = s.mem a := by
  obtain ⟨inside, other⟩ := erase_userDom dom consistent.distinct
  have same := exited.other a (fun path' dom' found' => ?_) fun high path' t i maps => ?_
  · exact ⟨same.trans (consistent.tables r' path a inside found).2, exited.frame a same⟩
  · exact other (consistent.separate r' path r path' a inside dom' found found').1
  · exact (consistent.pages _ _ _ _ _ maps high).2 r' path inside found

theorem Exited.agree : ∀ r' path a, UserDom (live.erase r) r' path → tableAt s.mem r' path = some a →
    s'.mem a = s.mem a := fun _ _ _ dom found => (exited.table_kept consistent dom found).2

theorem Exited.maps_before (maps : MapsAt (live.erase r) s'.mem r' path t i g) :
    MapsAt live s.mem r' path t i g ∧ r' ≠ r ∧ s'.mem t = s.mem t := by
  have before := (mapsAt_agree (exited.agree consistent)).mp maps
  obtain ⟨inside, other⟩ := erase_userDom maps.dom consistent.distinct
  exact ⟨⟨inside, before.leaf, before.table, before.present, before.page⟩, other,
    exited.agree consistent r' path t maps.dom before.table⟩

theorem Exited.maps_after (other : r' ≠ r) (maps : MapsAt live s.mem r' path t i g) :
    MapsAt (live.erase r) s'.mem r' path t i g := by
  refine (mapsAt_agree (exited.agree consistent)).mpr
    ⟨⟨?_, maps.dom.2⟩, maps.leaf, maps.table, maps.present, maps.page⟩
  exact (List.mem_erase_of_ne other).mpr maps.dom.1

theorem Exited.sharers_less :
    sharers (live.erase r) s'.mem g =
      { slot ∈ sharers live s.mem g | ∀ path, ¬ MapsAt live s.mem r path slot.1 slot.2 g } := by
  ext slot
  constructor
  · rintro ⟨r', path, maps, cow⟩
    obtain ⟨before, other, same⟩ := exited.maps_before consistent maps
    refine ⟨⟨r', path, before, same ▸ cow⟩, fun path' maps' => other ?_⟩
    exact (consistent.separate r' path r path' slot.1 before.dom maps'.dom before.table maps'.table).1
  · rintro ⟨⟨r', path, before, cow⟩, apart⟩
    have other : r' ≠ r := by
      rintro rfl
      exact apart path before
    have after := exited.maps_after consistent other before
    exact ⟨r', path, after, (exited.maps_before consistent after).2.2.symm ▸ cow⟩

theorem Exited.counts (high : kernel.endPhys ≤ g) :
    s'.refcount g = BitVec.ofNat 32 (sharers (live.erase r) s'.mem g).ncard := by
  rw [exited.sharers_less consistent]
  by_cases mapped : ∃ path t i, MapsAt live s.mem r path t i g ∧ Cow (s.mem t i)
  · obtain ⟨path, t, i, maps, cow⟩ := mapped
    have only : { slot ∈ sharers live s.mem g | ∀ path,
        ¬ MapsAt live s.mem r path slot.1 slot.2 g } = sharers live s.mem g \ {(t, i)} := by
      ext slot
      refine and_congr_right fun _ =>
        ⟨fun apart same => apart path (same ▸ maps), fun other path' maps' => other ?_⟩
      obtain ⟨rfl, index⟩ := consistent.same _ _ _ _ _ _ _ _ g maps' maps high
      exact Prod.ext (Option.some.inj (maps'.table.symm.trans maps.table)) index
    have member : (t, i) ∈ sharers live s.mem g := ⟨r, path, maps, cow⟩
    have one := Set.ncard_sdiff_singleton_add_one member (sharers_finite _ _ _)
    rw [(exited.shared path t i g maps high cow).1, consistent.counts g high, only, ← one,
      BitVec.ofNat_add, BitVec.add_sub_cancel]
  · have all : { slot ∈ sharers live s.mem g | ∀ path, ¬ MapsAt live s.mem r path slot.1 slot.2 g } =
        sharers live s.mem g := by
      refine Set.sep_eq_self_iff_mem_true.mpr ?_
      rintro slot ⟨r', path, before, cow⟩ path' maps'
      exact mapped ⟨path', slot.1, slot.2, maps', cow⟩
    have same : s'.refcount g = s.refcount g := by
      by_cases owned : ∃ path t i, MapsAt live s.mem r path t i g
      · obtain ⟨path, t, i, maps⟩ := owned
        exact (exited.owned path t i g maps high fun cow => mapped ⟨path, t, i, maps, cow⟩).1
      · exact exited.uncounted g fun _ path t i maps => owned ⟨path, t, i, maps⟩
    rw [same, all]
    exact consistent.counts g high

theorem Exited.page_kept (other : r' ≠ r) (maps : MapsAt live s.mem r' path t i g)
    (high : kernel.endPhys ≤ g) : s'.inUse g = true := by
  obtain ⟨inUse, notTable⟩ := consistent.pages _ _ _ _ _ maps high
  by_cases mapped : ∃ path' t' i', MapsAt live s.mem r path' t' i' g
  · obtain ⟨path', t', i', maps'⟩ := mapped
    -- the page is shared, so both entries are marked and counted
    have cow : Cow (s.mem t i) := by
      by_contra owned
      exact other (consistent.exclusive _ _ _ _ _ _ _ _ g maps maps' high owned)
    have cow' : Cow (s.mem t' i') := by
      by_contra owned
      exact other (consistent.exclusive _ _ _ _ _ _ _ _ g maps' maps high owned).symm
    have apart : (t, i) ≠ (t', i') := by
      intro same
      obtain ⟨rfl, rfl⟩ := Prod.mk.inj same
      exact other (consistent.separate r' path r path' t maps.dom maps'.dom maps.table maps'.table).1
    have two : 1 < (sharers live s.mem g).ncard :=
      (Set.one_lt_ncard (sharers_finite _ _ _)).mpr ⟨(t, i), ⟨r', path, maps, cow⟩, (t', i'),
        ⟨r, path', maps', cow'⟩, apart⟩
    rw [← consistent.count_eq high] at two
    rw [(exited.shared path' t' i' g maps' high cow').2, decide_eq_true_eq]
    intro zero
    have one := congrArg BitVec.toNat (sub_eq_zero.mp zero)
    rw [one] at two
    simp at two
  · rwa [exited.other g (fun path' dom => notTable r path' dom)
      fun _ path' t' i' maps' => mapped ⟨path', t', i', maps'⟩]

theorem Exited.kernelSame : s'.mem kernel.p4 = s.mem kernel.p4 := by
  refine exited.frame _ (exited.other _ (fun path dom found => ?_) fun high => ?_)
  · exact consistent.kernel_not_allocatable (consistent.tables r path _ dom found).1
  · exact absurd consistent.kernelLow (BitVec.not_lt.mpr high)

theorem Exited.keeps_consistent : Consistent kernel s' (live.erase r) := by
  refine consistent.restrict List.erase_subset (consistent.distinct.erase r) (exited.agree consistent)
    (exited.kernelSame consistent) (fun r' path a dom found => (exited.table_kept consistent dom found).1)
    (fun r' path t i g maps high => ?_) fun g high => exited.counts consistent high
  exact exited.page_kept consistent (erase_userDom maps.dom consistent.distinct).2
    (maps.mono List.erase_subset) high

end

end Exit

/-! ## Faults of a fork -/

section

variable {r t : PhysAddr} {i : Fin 512} {cur : State} {fault : Fault}
  (consistent : Consistent kernel s live) (supply : FreeSupply kernel s) (root : r ∈ live)
include consistent supply root

end

/-! ## Runs -/

/-- Forks, exits and accesses of programs, each with the pages that the allocator will return.
`G` is what a model of the programs keeps beside the state. -/
inductive LifeStep (kernel : Kernel) {G : Type} (fork : G → PhysAddr → PhysAddr → G)
    (exit : G → PhysAddr → G) (access : PhysAddr → State → G → State → G → Prop) :
    State × List PhysAddr × G → State × List PhysAddr × G → Prop where
  | clone {s s' : State} {live supply : List PhysAddr} {g : G} {r p : PhysAddr} : r ∈ live →
      FreeSupply kernel { s with supply := supply } →
      mmuCloneCow kernel { s with supply := supply } r = .ok (p, s') →
      LifeStep kernel fork exit access (s, live, g) (s', p :: live, fork g r p)
  | access {s s' : State} {live supply : List PhysAddr} {g g' : G} {r : PhysAddr} : r ∈ live →
      FreeSupply kernel { s with supply := supply } → access r { s with supply := supply } g s' g' →
      LifeStep kernel fork exit access (s, live, g) (s', live, g')
  | reap {s s' : State} {live : List PhysAddr} {g : G} {r : PhysAddr} : r ∈ live →
      mmuReap kernel s r = .ok s' → LifeStep kernel fork exit access (s, live, g)
        (s', live.erase r, exit g r)

/-- A write fault at a user address. -/
def WriteFault (r : PhysAddr) (va : BitVec 64) (s s' : State) : Prop :=
  (p4Index va).val < 128 ∧ ∃ done, cowHandleWrite s (vmmGetPte s.mem r va) = .ok (done, s')

/-- Forks, write faults and exits. -/
def CowStep (kernel : Kernel) (first last : State × List PhysAddr) : Prop :=
  LifeStep kernel (fun _ _ _ => ()) (fun _ _ => ()) (fun r s _ s' _ => ∃ va, WriteFault r va s s')
    (first.1, first.2, ()) (last.1, last.2, ())

/-- User mappings before any fork: not marked, each to a page of its own that is not counted. -/
structure Unforked (kernel : Kernel) (s : State) (live : List PhysAddr) :
    Prop extends Trees kernel s live where
  unmarked : ∀ r path t i, UserDom live r path → path.length = 3 → tableAt s.mem r path = some t →
    ¬ Cow (s.mem t i)
  single : ∀ r path t i r' path' t' i' g, MapsAt live s.mem r path t i g →
    MapsAt live s.mem r' path' t' i' g → kernel.endPhys ≤ g → r = r'
  uncounted : ∀ g, kernel.endPhys ≤ g → s.refcount g = 0#32

theorem Unforked.consistent (unforked : Unforked kernel s live) : Consistent kernel s live := by
  have none : ∀ g, sharers live s.mem g = ∅ := by
    intro g
    refine Set.eq_empty_iff_forall_notMem.mpr ?_
    rintro slot ⟨r, path, maps, cow⟩
    exact unforked.unmarked r path _ _ maps.dom maps.leaf maps.table cow
  refine ⟨unforked.toTrees, fun r path t i r' path' t' i' g maps maps' high _ => ?_, fun g high => ?_⟩
  · exact unforked.single r path t i r' path' t' i' g maps maps' high
  · rw [unforked.uncounted g high, none, Set.ncard_empty]

theorem Consistent.resupply (consistent : Consistent kernel s live) (supply : List PhysAddr) :
    Consistent kernel { s with supply := supply } live :=
  consistent.frame (fun _ _ _ _ _ => rfl) rfl (fun _ => id) rfl

theorem userDom_tablePath {r : PhysAddr} (root : r ∈ live) (user : (p4Index va).val < 128) :
    UserDom live r (tablePath va) := by
  refine ⟨root, by simp [tablePath], fun i first => ?_⟩
  obtain rfl : p4Index va = i := by simpa [tablePath] using first
  exact user

theorem Consistent.write_cases {r : PhysAddr} (consistent : Consistent kernel s live)
    (supply : FreeSupply kernel s) (root : r ∈ live) (user : (p4Index va).val < 128)
    (ran : cowHandleWrite s (vmmGetPte s.mem r va) = .ok (done, s')) :
    done = false ∧ s' = s ∧ ¬ Cow (pteValue s.mem r va) ∨
      done = true ∧ ∃ t g, tableAt s.mem r (tablePath va) = some t ∧ Cow (s.mem t (p1Index va)) ∧
        Unshared kernel s t (p1Index va) g s' := by
  have dom := userDom_tablePath root user
  have slot : ∀ t i, vmmGetPte s.mem r va = some (t, i) →
      tableAt s.mem r (tablePath va) = some t ∧ i = p1Index va := by
    intro t i found
    rw [vmmGetPte_eq] at found
    obtain ⟨t', table, same⟩ := Option.map_eq_some_iff.mp found
    obtain ⟨rfl, rfl⟩ := Prod.mk.inj same
    exact ⟨table, rfl⟩
  have held : ∀ t i, vmmGetPte s.mem r va = some (t, i) → s.inUse t = true := fun t i found =>
    (consistent.tables r _ t dom (slot t i found).1).2
  have mapped : ∀ t i, vmmGetPte s.mem r va = some (t, i) → kernel.endPhys ≤ s.mem t i &&& pteAddrMask →
      Cow (s.mem t i) → s.inUse (s.mem t i &&& pteAddrMask) = true := by
    intro t i found high cow
    obtain ⟨table, rfl⟩ := slot t i found
    have present := (consistent.marked r _ t _ dom (by simp [tablePath]) table cow).1
    exact (consistent.pages r _ t _ _ ⟨dom, by simp [tablePath], table, present, rfl⟩ high).1
  rcases cowHandleWrite_cases supply held mapped ran with ⟨rfl, rfl, owned⟩ | ⟨rfl, t, i, g, found,
    cow, unshared⟩
  · refine .inl ⟨rfl, rfl, ?_⟩
    unfold pteValue
    split
    case h_1 => decide
    case h_2 t i found => exact owned t i found
  · obtain ⟨table, rfl⟩ := slot t i found
    exact .inr ⟨rfl, t, g, table, cow, unshared⟩

section

variable (consistent : Consistent kernel s live) {r : PhysAddr} (root : r ∈ live)
include consistent root

theorem Consistent.clone {supply : List PhysAddr}
    (free : FreeSupply kernel { s with supply := supply })
    (ran : mmuCloneCow kernel { s with supply := supply } r = .ok (p, s')) :
    Consistent kernel s' (p :: live) :=
  (mmuCloneCow_forked (consistent.resupply supply).toTrees free root ran).keeps_consistent
    (consistent.resupply supply) root

theorem Consistent.write (supply : FreeSupply kernel s) (user : (p4Index va).val < 128)
    (ran : cowHandleWrite s (vmmGetPte s.mem r va) = .ok (done, s')) : Consistent kernel s' live := by
  rcases consistent.write_cases supply root user ran with ⟨-, rfl, -⟩ | ⟨-, t, g, table, cow, unshared⟩
  · exact consistent
  · exact unshared.keeps_consistent consistent (userDom_tablePath root user) (by simp [tablePath]) table cow

theorem Consistent.reap (ran : mmuReap kernel s r = .ok s') : Consistent kernel s' (live.erase r) := by
  obtain ⟨s'', ran', exited⟩ := mmuReap_exited consistent.toTrees root
  obtain rfl := Except.ok.inj (ran.symm.trans ran')
  exact exited.keeps_consistent consistent

end

theorem cowStep_consistent {first last : State × List PhysAddr} (step : CowStep kernel first last)
    (consistent : Consistent kernel first.1 first.2) : Consistent kernel last.1 last.2 := by
  obtain ⟨s, live⟩ := first
  obtain ⟨s', live'⟩ := last
  cases step with
  | clone root supply ran => exact consistent.clone root supply ran
  | access root supply fault =>
    obtain ⟨va, user, done, ran⟩ := fault
    exact (consistent.resupply _).write root supply user ran
  | reap root ran => exact consistent.reap root ran

def onePage (top slot : Fin 512) (entry link : Pte) : State where
  mem := fun p i =>
    if p = 0x300000#64 then if i = top then 0x301007#64 else 0#64
    else if p = 0x301000#64 then if i = 0 then 0x302007#64 else 0#64
    else if p = 0x302000#64 then if i = 0 then 0x303007#64 else 0#64
    else if p = 0x303000#64 then if i = slot then entry else 0#64
    else if p = 0x110000#64 then if i = 0 then link else 0#64
    else 0#64
  refcount := fun _ => 0#32
  inUse := fun p => 0x300000#64 ≤ p && p ≤ 0x303000#64 || p == entry &&& pteAddrMask
  supply := [0x305000#64, 0x306000#64, 0x307000#64, 0x308000#64]

/-- The page is mapped at `0x1000`, through tables that the kernel's own top-level table has too. -/
def sharedSlot (entry : Pte) : State := onePage 0 1 entry 0x301007#64

def firstRoot : PhysAddr := 0x300000#64

section

variable {top slot i : Fin 512} {entry link : Pte} {r : PhysAddr} {path : List (Fin 512)}

theorem onePage_entry (nonzero : (onePage top slot entry link).mem p i ≠ 0#64) :
    p = 0x300000#64 ∧ i = top ∨ p = 0x301000#64 ∧ i = 0 ∨ p = 0x302000#64 ∧ i = 0 ∨
      p = 0x303000#64 ∧ i = slot ∨ p = 0x110000#64 ∧ i = 0 := by
  unfold onePage at nonzero
  dsimp only at nonzero
  split_ifs at nonzero <;> simp_all

theorem onePage_walk (short : path.length ≤ 3)
    (found : tableAt (onePage top slot entry link).mem firstRoot path = some a) :
    path = [top, 0, 0].take path.length ∧ a = 0x300000#64 + BitVec.ofNat 64 (0x1000 * path.length) := by
  induction path using List.reverseRecOn generalizing a with
  | nil =>
    obtain rfl : firstRoot = a := Option.some.inj found
    exact ⟨rfl, rfl⟩
  | append_singleton path i ih =>
    rw [List.length_append, List.length_singleton] at short ⊢
    rw [tableAt_snoc] at found
    obtain ⟨b, before, step⟩ := Option.bind_eq_some_iff.mp found
    obtain ⟨front, rfl⟩ := ih (by omega) before
    obtain ⟨present, -, rfl⟩ := entryTable_eq_some.mp step
    have lengths : path.length = 0 ∨ path.length = 1 ∨ path.length = 2 := by omega
    have place := onePage_entry (nonzero_of_present present)
    rcases lengths with length | length | length <;> rw [length] at front place ⊢ <;> simp at place <;>
      simp [front, place, onePage, pteAddrMask]

theorem onePage_table (dom : UserDom [firstRoot] r path)
    (found : tableAt (onePage top slot entry link).mem r path = some a) :
    r = firstRoot ∧ path = [top, 0, 0].take path.length ∧ path.length ≤ 3 ∧
      a = 0x300000#64 + BitVec.ofNat 64 (0x1000 * path.length) := by
  obtain rfl : r = firstRoot := by simpa using dom.1
  obtain ⟨front, address⟩ := onePage_walk dom.2.1 found
  exact ⟨rfl, front, dom.2.1, address⟩

theorem onePage_user (user : top.val < 128) (short : path.length ≤ 3)
    (found : tableAt (onePage top slot entry link).mem firstRoot path = some a) :
    UserDom [firstRoot] firstRoot path := by
  refine ⟨by simp, short, fun i first => ?_⟩
  rw [(onePage_walk short found).1] at first
  cases path with
  | nil => cases first
  | cons j rest =>
    obtain rfl : top = i := by simpa using first
    exact user

theorem onePage_maps {t g : PhysAddr}
    (maps : MapsAt [firstRoot] (onePage top slot entry link).mem r path t i g) :
    r = firstRoot ∧ path = [top, 0, 0] ∧ t = 0x303000#64 ∧ i = slot ∧ g = entry &&& pteAddrMask := by
  obtain ⟨rfl, front, -, rfl⟩ := onePage_table maps.dom maps.table
  have present := maps.present
  have page := maps.page
  rw [maps.leaf] at front present page ⊢
  have place := onePage_entry (nonzero_of_present present)
  obtain rfl : i = slot := by simpa using place
  exact ⟨rfl, front, rfl, rfl, by simpa [onePage] using page.symm⟩

/-- The pages of the tables are different and in use. -/
theorem onePage_address {n n' : Nat} (few : n ≤ 3) (few' : n' ≤ 3)
    (same : 0x300000#64 + BitVec.ofNat 64 (0x1000 * n) =
    0x300000#64 + BitVec.ofNat 64 (0x1000 * n')) : n = n' := by
  have value := congrArg BitVec.toNat same
  simp only [BitVec.toNat_add, BitVec.toNat_ofNat] at value
  omega

theorem onePage_unforked (kernelP4 : kernel.p4 = 0x110000#64)
    (kernelLow : kernel.p4 < kernel.endPhys) (tables : kernel.endPhys ≤ 0x300000#64)
    (owned : ¬ Cow entry) (apart : ∀ n ≤ 3, entry &&& pteAddrMask ≠
      0x300000#64 + BitVec.ofNat 64 (0x1000 * n)) :
    Unforked kernel (onePage 0 slot entry link) [firstRoot] := by
  have unmarked : ∀ r path t i, UserDom [firstRoot] r path → path.length = 3 →
      tableAt (onePage 0 slot entry link).mem r path = some t →
        ¬ Cow ((onePage 0 slot entry link).mem t i) := by
    intro r path t i dom leaf found cow
    obtain ⟨-, -, -, rfl⟩ := onePage_table dom found
    have place := onePage_entry (nonzero_of_cow cow)
    rw [leaf] at place cow
    obtain rfl : i = slot := by simpa using place
    exact owned (by simpa [onePage] using cow)
  refine ⟨⟨?_, ?_, ?_, ?_, ?_, ?_, ?_, ?_⟩, ?_, ?_, fun _ _ => rfl⟩
  · simp
  · intro r path r' path' a dom dom' found found'
    obtain ⟨rfl, front, short, rfl⟩ := onePage_table dom found
    obtain ⟨rfl, front', short', same⟩ := onePage_table dom' found'
    exact ⟨rfl, by rw [front, front', onePage_address short short' same]⟩
  · intro r path a dom found
    obtain ⟨-, -, short, rfl⟩ := onePage_table dom found
    have lengths : path.length = 0 ∨ path.length = 1 ∨ path.length = 2 ∨ path.length = 3 := by omega
    rcases lengths with length | length | length | length <;> rw [length] <;>
      exact ⟨⟨⟨by decide, by decide⟩, by decide, BitVec.le_trans tables (by decide)⟩, rfl⟩
  · exact kernelLow
  · intro i _ linked r' member
    obtain rfl : r' = firstRoot := by simpa using member
    rw [tableAt_single, kernelP4] at linked
    obtain ⟨a, linked⟩ := Option.ne_none_iff_exists'.mp linked
    have place := onePage_entry (nonzero_of_present (entryTable_eq_some.mp linked).1)
    obtain rfl : i = 0 := by simpa using place
    rw [tableAt_single]
    show entryTable 0x301007#64 ≠ none
    decide
  · exact fun r path t i dom leaf found cow => absurd cow (unmarked r path t i dom leaf found)
  · intro r path t i g maps high
    obtain ⟨-, -, -, -, rfl⟩ := onePage_maps maps
    refine ⟨by simp [onePage], fun r' path' dom found => ?_⟩
    obtain ⟨-, -, short, same⟩ := onePage_table dom found
    exact apart _ short same
  · intro r path t i r' path' t' i' g maps maps' _
    obtain ⟨-, rfl, -, rfl, -⟩ := onePage_maps maps
    obtain ⟨-, rfl, -, rfl, -⟩ := onePage_maps maps'
    exact ⟨rfl, rfl⟩
  · exact unmarked
  · intro r path t i r' path' t' i' g maps maps' _
    exact (onePage_maps maps).1.trans (onePage_maps maps').1.symm

def firstKernel : Kernel := ⟨0x200000#64, 0x110000#64⟩

theorem onePage_supply (other : entry &&& pteAddrMask < 0x305000#64) :
    FreeSupply firstKernel (onePage top slot entry link) := by
  refine ⟨by simp [onePage], ?_⟩
  simp only [onePage, List.forall_mem_cons, BitVec.lt_def] at other ⊢
  refine ⟨⟨by decide, ?_⟩, ⟨by decide, ?_⟩, ⟨by decide, ?_⟩, ⟨by decide, ?_⟩, by simp⟩ <;>
    · simp only [Bool.or_eq_false_iff, beq_eq_false_iff_ne]
      exact ⟨by decide, fun same => by simp [← same] at other⟩

end

def firstState : State := onePage 0 0 0x304007#64 0#64

theorem firstState_unforked : Unforked firstKernel firstState [firstRoot] :=
  onePage_unforked rfl (by decide) (by decide) (by decide) (by decide)

theorem firstState_supply : FreeSupply firstKernel firstState := onePage_supply (by decide)

end ByteOS.Mm
