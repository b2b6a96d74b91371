import ByteOS.Mm.Isolation
import ByteOS.Mm.Growth

/-! Which mappings of the lower half a fork copies and an exit releases.

`vmm_map_page` accepts every address, while `clone_pgtab` and `mmu_reap` visit the
entries below 128 of the top-level table. The lower half has 256 of them. A mapping is
copied and released exactly if it is behind one of the first 128; the page at
`_kernel_end_phys` itself is one that `free_single_page` takes for a page of the kernel.
-/

set_option autoImplicit false

namespace ByteOS.Mm

open ByteOS.Lib

variable {kernel : Kernel} {s s' : State} {live : List PhysAddr} {r p : PhysAddr} {va : BitVec 64}

/-! ## The entry of an address -/

variable {mem : PhysMem} {t r' : PhysAddr} {path : List (Fin 512)}

theorem pteValue_of_table (found : tableAt mem r (tablePath va) = some t) :
    pteValue mem r va = mem t (p1Index va) := by
  rw [pteValue_eq]
  exact entryAt_of_table found _

theorem pteValue_of_none (missing : tableAt mem r (tablePath va) = none) : pteValue mem r va = 0#64 := by
  rw [tableAt] at missing
  rw [pteValue_eq, entryAt, lookup, missing]

theorem tablePath_leaf (va : BitVec 64) : (tablePath va).length = 3 := rfl

theorem table_of_present (present : Present (pteValue mem r va)) :
    ∃ t, tableAt mem r (tablePath va) = some t ∧ pteValue mem r va = mem t (p1Index va) := by
  cases found : tableAt mem r (tablePath va) with
  | none =>
    rw [pteValue_of_none found] at present
    exact absurd present (by decide)
  | some t => exact ⟨t, rfl, pteValue_of_table found⟩

theorem mapsAt_of_present (root : r ∈ live) (user : (p4Index va).val < 128)
    (present : Present (pteValue s.mem r va)) : ∃ t, pteValue s.mem r va = s.mem t (p1Index va) ∧
      MapsAt live s.mem r (tablePath va) t (p1Index va) (pteValue s.mem r va &&& pteAddrMask) := by
  obtain ⟨t, found, entry⟩ := table_of_present present
  exact ⟨t, entry, userDom_tablePath root user, tablePath_leaf va, found, entry ▸ present, by rw [entry]⟩

theorem pteValue_of_absent (absent : ¬ Present (mem r (p4Index va))) : pteValue mem r va = 0#64 := by
  apply pteValue_of_none
  rw [tablePath, tableAt, walk_cons, entryTable_absent absent]
  rfl

theorem markCow_eq {entry : Pte} (marked : Cow entry → ¬ Writable entry) :
    markCow entry = (entry &&& ~~~pageWritable) ||| pageCow := by
  unfold markCow
  split
  case isTrue => rfl
  case isFalse cow =>
    -- marked already: the one flag is clear and the other set, so the right side changes nothing
    have clear : entry &&& pageWritable = 0#64 := not_not.mp (marked cow)
    have set : entry &&& pageCow = pageCow := by
      have single := BitVec.and_twoPow entry 9
      rw [show BitVec.twoPow 64 9 = pageCow from by decide] at single
      rw [single, if_pos]
      by_contra off
      rw [if_neg off] at single
      exact cow single
    have keep : entry &&& ~~~pageWritable = entry := by
      have parts : entry &&& ~~~pageWritable ||| entry &&& pageWritable = entry := by
        rw [← BitVec.and_or_distrib_left, show ~~~pageWritable ||| pageWritable =
          BitVec.allOnes 64 from by decide, BitVec.and_allOnes]
      rwa [clear, BitVec.or_zero] at parts
    calc entry = entry &&& (BitVec.allOnes 64 ||| pageCow) := by
          rw [show BitVec.allOnes 64 ||| pageCow = BitVec.allOnes 64 from by decide, BitVec.and_allOnes]
      _ = entry ||| pageCow := by rw [BitVec.and_or_distrib_left, BitVec.and_allOnes, set]
      _ = (entry &&& ~~~pageWritable) ||| pageCow := by rw [keep]

/-! ## Forks -/

section

variable (forked : Forked kernel s live r p s')
include forked

theorem Forked.pte_old (root : r' ∈ live) (user : (p4Index va).val < 128) :
    pteValue s'.mem r' va =
      if r' = r ∧ Present (pteValue s.mem r' va) then markCow (pteValue s.mem r' va)
      else pteValue s.mem r' va := by
  have dom := userDom_tablePath root user
  have walk := forked.walk r' _ dom
  cases found : tableAt s.mem r' (tablePath va) with
  | none =>
    rw [pteValue_of_none found, pteValue_of_none (walk.trans found), if_neg]
    rintro ⟨-, present⟩
    exact absurd present (by decide)
  | some t =>
    rw [pteValue_of_table found, pteValue_of_table (walk.trans found)]
    exact forked.old_entry _ dom (tablePath_leaf va) found

theorem Forked.pte_new (root : r ∈ live) (user : (p4Index va).val < 128) :
    pteValue s'.mem p va =
      if Present (pteValue s.mem r va) then markCow (pteValue s.mem r va) else 0#64 := by
  have dom : UserDom [p] p (tablePath va) := userDom_tablePath (by simp) user
  cases found : tableAt s'.mem p (tablePath va) with
  | some b =>
    obtain ⟨t, source, content⟩ := forked.copies _ b dom (tablePath_leaf va) found
    rw [pteValue_of_table found, pteValue_of_table source]
    exact content _
  | none =>
    have missing : tableAt s.mem r (tablePath va) = none := by
      by_contra some
      obtain ⟨t, source⟩ := Option.ne_none_iff_exists'.mp some
      obtain ⟨b, copied⟩ := forked.copied _ t (userDom_tablePath root user) source
      rw [found] at copied
      cases copied
    rw [pteValue_of_none found, pteValue_of_none missing, if_neg (by decide)]

theorem Forked.pte_shared (trees : Trees kernel s live) (root : r ∈ live)
    (user : (p4Index va).val < 128) (present : Present (pteValue s.mem r va)) :
    pteValue s'.mem p va = (pteValue s.mem r va &&& ~~~pageWritable) ||| pageCow ∧
      pteValue s'.mem r va = (pteValue s.mem r va &&& ~~~pageWritable) ||| pageCow := by
  obtain ⟨t, entry, maps⟩ := mapsAt_of_present root user present
  have marked : Cow (pteValue s.mem r va) → ¬ Writable (pteValue s.mem r va) := by
    rw [entry]
    exact fun cow => (trees.marked r _ t _ maps.dom maps.leaf maps.table cow).2
  rw [← markCow_eq marked]
  constructor
  · rw [forked.pte_new root user, if_pos present]
  · rw [forked.pte_old root user, if_pos ⟨rfl, present⟩]

end

theorem Exited.pte (exited : Exited kernel s live r s') (consistent : Consistent kernel s live)
    (root : r' ∈ live.erase r) (user : (p4Index va).val < 128) :
    pteValue s'.mem r' va = pteValue s.mem r' va := by
  have dom := userDom_tablePath root user
  have walk := tableAt_agree (exited.agree consistent) dom
  cases found : tableAt s.mem r' (tablePath va) with
  | none => rw [pteValue_of_none found, pteValue_of_none (walk.trans found)]
  | some t =>
    rw [pteValue_of_table found, pteValue_of_table (walk.trans found)]
    exact congrFun (exited.table_kept consistent dom found).2 _

/-! ## Both halves of the lower half -/

/-- The tables behind the entries 128 to 255 of `r`, and the pages mapped there, are not those
behind the first 128 entries. -/
structure Beyond (kernel : Kernel) (s : State) (live : List PhysAddr) (r : PhysAddr) : Prop where
  kernelGap : ∀ i : Fin 512, 128 ≤ i.val → i.val < 256 → ¬ Present (s.mem kernel.p4 i)
  tables : ∀ path a, Lower path → ¬ UserDom live r path → tableAt s.mem r path = some a → Spare s live a
  pages : ∀ path t i, Lower path → ¬ UserDom live r path → path.length = 3 → tableAt s.mem r path = some t →
    Present (s.mem t i) → kernel.endPhys ≤ s.mem t i &&& pteAddrMask →
      Spare s live (s.mem t i &&& pteAddrMask)

/-- The page of an entry has lost the share that the entry had in it, or is free. -/
def GivenUp (s : State) (entry : Pte) (s' : State) : Prop :=
  if Cow entry then
    s'.refcount (entry &&& pteAddrMask) = s.refcount (entry &&& pteAddrMask) - 1#32 ∧
      s'.inUse (entry &&& pteAddrMask) = decide (s.refcount (entry &&& pteAddrMask) - 1#32 ≠ 0#32)
  else s'.inUse (entry &&& pteAddrMask) = false

theorem Forked.pte_shared_iff (forked : Forked kernel s live r p s') (trees : Trees kernel s live)
    (root : r ∈ live) (gap : ∀ i : Fin 512, 128 ≤ i.val → i.val < 256 → ¬ Present (s.mem kernel.p4 i))
    (lower : (p4Index va).val < 256) (present : Present (pteValue s.mem r va)) :
    pteValue s'.mem p va = (pteValue s.mem r va &&& ~~~pageWritable) ||| pageCow ∧
      pteValue s'.mem r va = (pteValue s.mem r va &&& ~~~pageWritable) ||| pageCow ↔
      (p4Index va).val < 128 := by
  refine ⟨fun copied => ?_, fun user => forked.pte_shared trees root user present⟩
  by_contra far
  -- the new top-level table has the entry of the kernel there, which is not present
  have absent : ¬ Present (s'.mem p (p4Index va)) := by
    rw [forked.upper _ (Nat.not_lt.mp far)]
    exact gap _ (Nat.not_lt.mp far) lower
  have marked := copied.1
  rw [pteValue_of_absent absent] at marked
  exact absurd (congrArg (· &&& pageCow) marked.symm) (masked_set (by decide) (by decide))

section

variable (exited : Exited kernel s live r s') (beyond : Beyond kernel s live r)
include exited beyond

theorem Exited.table_freed_iff {a : PhysAddr} (root : r ∈ live) (lower : Lower path)
    (found : tableAt s.mem r path = some a) :
    s'.inUse a = false ↔ ∀ i, path.head? = some i → i.val < 128 := by
  refine ⟨fun freed => ?_, fun user => exited.tables path a ⟨root, lower.1, user⟩ found⟩
  by_contra far
  have spare := beyond.tables path a lower (fun dom => far dom.2.2) found
  rw [exited.other a (fun path dom => spare.notTable r path dom)
    fun _ path t i => spare.unmapped r path t i, spare.held] at freed
  cases freed

theorem Exited.givenUp_iff (root : r ∈ live) (lower : (p4Index va).val < 256)
    (present : Present (pteValue s.mem r va))
    (high : kernel.endPhys ≤ pteValue s.mem r va &&& pteAddrMask) :
    GivenUp s (pteValue s.mem r va) s' ↔ (p4Index va).val < 128 ∧
      (pteValue s.mem r va &&& pteAddrMask = kernel.endPhys → Cow (pteValue s.mem r va)) := by
  unfold GivenUp
  by_cases user : (p4Index va).val < 128
  · obtain ⟨t, entry, maps⟩ := mapsAt_of_present root user present
    by_cases cow : Cow (pteValue s.mem r va)
    · simpa [cow, user] using exited.shared _ t _ _ maps high (entry ▸ cow)
    · rw [if_neg cow, (exited.owned _ t _ _ maps high (entry ▸ cow)).2]
      simp [cow, user]
  · obtain ⟨t, found, entry⟩ := table_of_present present
    rw [entry] at present high ⊢
    have spare :=
      beyond.pages _ t _ (lower_tablePath lower) (fun dom => user (dom.2.2 _ rfl)) (tablePath_leaf va)
      found present high
    -- neither the count of the page nor its use changes
    rw [exited.uncounted _ fun _ path t i => spare.unmapped r path t i,
      exited.other _ (fun path dom => spare.notTable r path dom) fun _ path t i =>
        spare.unmapped r path t i, spare.held]
    have other : ∀ count : BitVec 32, count ≠ count - 1#32 := fun count same => by
      have := congrArg BitVec.toNat same
      simp only [BitVec.toNat_sub, BitVec.toNat_ofNat] at this
      omega
    simp [user, other]

end

/-- A fork copies a mapping of the lower half, and both entries are then read-only, marked and
otherwise as before, exactly if the mapping is behind one of the first 128 entries of the
top-level table. An exit returns; it gives back a page outside the kernel image, or the share
that the entry has in it, exactly if in addition the page is not the first one behind the
kernel, or is marked; and it frees exactly the tables behind the first 128 entries. The kernel
may have tables of its own there, which the address space took over. -/
theorem lower_half_cloned_and_reaped (trees : Trees kernel s live) (root : r ∈ live)
    (beyond : Beyond kernel s live r) :
    (∀ supply p s', FreeSupply kernel { s with supply := supply } →
      mmuCloneCow kernel { s with supply := supply } r = .ok (p, s') →
      ∀ va, (p4Index va).val < 256 → Present (pteValue s.mem r va) →
        (pteValue s'.mem p va = (pteValue s.mem r va &&& ~~~pageWritable) ||| pageCow ∧
          pteValue s'.mem r va = (pteValue s.mem r va &&& ~~~pageWritable) ||| pageCow ↔
            (p4Index va).val < 128)) ∧
    ∃ s', mmuReap kernel s r = .ok s' ∧
      (∀ va, (p4Index va).val < 256 → Present (pteValue s.mem r va) →
        kernel.endPhys ≤ pteValue s.mem r va &&& pteAddrMask →
        (GivenUp s (pteValue s.mem r va) s' ↔ (p4Index va).val < 128 ∧
          (pteValue s.mem r va &&& pteAddrMask = kernel.endPhys → Cow (pteValue s.mem r va)))) ∧
      ∀ path a, Lower path → tableAt s.mem r path = some a →
        (s'.inUse a = false ↔ ∀ i, path.head? = some i → i.val < 128) := by
  constructor
  · intro supply p s' free ran va lower present
    have forked := mmuCloneCow_forked (trees.resupply supply) free root ran
    exact forked.pte_shared_iff (trees.resupply supply) root beyond.kernelGap lower present
  · obtain ⟨s', ran, exited⟩ := mmuReap_exited trees root
    exact ⟨s', ran, fun va lower present high => exited.givenUp_iff beyond root lower present high,
      fun path a lower found => exited.table_freed_iff beyond root lower found⟩

def sharedState : State := sharedSlot 0x304007#64

theorem sharedState_beyond : Beyond firstKernel sharedState [firstRoot] firstRoot := by
  refine ⟨fun i high _ present => ?_, fun path a lower far found =>
    absurd (onePage_user (by decide) lower.1 found) far,
    fun path t i lower far _ found => absurd (onePage_user (by decide) lower.1 found) far⟩
  have place := onePage_entry (nonzero_of_present present)
  obtain rfl : i = 0 := by simpa [firstKernel] using place
  exact absurd high (by decide)

theorem lower_half_cloned_and_reaped_shared_slot :
    Trees firstKernel sharedState [firstRoot] ∧ Beyond firstKernel sharedState [firstRoot] firstRoot ∧
    pgtabExtract sharedState.mem firstKernel.p4 0 = pgtabExtract sharedState.mem firstRoot 0 ∧
    ∃ s', mmuReap firstKernel sharedState firstRoot = .ok s' ∧ s'.inUse 0x304000#64 = false ∧
      s'.inUse firstRoot = false := by
  have trees : Trees firstKernel sharedState [firstRoot] :=
    (onePage_unforked rfl (by decide) (by decide) (by decide) (by decide)).toTrees
  obtain ⟨-, s', ran, pages, tables⟩ := lower_half_cloned_and_reaped trees (by simp) sharedState_beyond
  refine ⟨trees, sharedState_beyond, rfl, s', ran, ?_,
    (tables [] firstRoot ⟨by simp, by simp⟩ rfl).mpr (by simp)⟩
  have value : pteValue sharedState.mem firstRoot 0x1000#64 = 0x304007#64 := by decide +kernel
  have page := pages 0x1000#64 (by decide)
  rw [value] at page
  exact (page (by decide) (by decide)).mpr ⟨by decide, by decide⟩

/-! A new address space with one page. -/

def emptyState : State where
  mem := fun _ _ => 0#64
  refcount := fun _ => 0#32
  inUse := fun p => p == 0x300000#64
  supply := [0x301000#64, 0x302000#64, 0x303000#64, 0x304000#64]

def cloneAndReap (va : BitVec 64) : Except Fault (PhysAddr × State × PhysAddr × State × State) := do
  let (r, s) ← mmuInit firstKernel emptyState
  let s ← vmmMapPage 1 s r 0x300000#64 va (pageWritable ||| pageUserAccessible)
  let (p, forked) ← mmuCloneCow firstKernel { s with supply := [0x306000#64] } r
  let reaped ← mmuReap firstKernel s r
  return (r, s, p, forked, reaped)

/-- `vmm_map_page` maps a page at entry 128. A fork neither copies nor marks the mapping,
and an exit keeps the page and the tables that lead to it. -/
theorem upper_slots_left_out : ∃ s₀ s r p forked reaped t,
    mmuInit firstKernel emptyState = .ok (r, s₀) ∧
      vmmMapPage 1 s₀ r 0x300000#64 0x400000000000#64 (pageWritable ||| pageUserAccessible) = .ok s ∧
      pteValue s.mem r 0x400000000000#64 = 0x8000000000300007#64 ∧
      mmuCloneCow firstKernel { s with supply := [0x306000#64] } r = .ok (p, forked) ∧
      pteValue forked.mem p 0x400000000000#64 = 0#64 ∧
      pteValue forked.mem r 0x400000000000#64 = 0x8000000000300007#64 ∧
      mmuReap firstKernel s r = .ok reaped ∧ reaped.inUse 0x300000#64 = true ∧
      pgtabExtract s.mem r 128 = some t ∧ reaped.inUse t = true := by
  have values : (cloneAndReap 0x400000000000#64).toOption.map (fun (r, s, p, forked, reaped) =>
      ((pteValue s.mem r 0x400000000000#64, pteValue forked.mem p 0x400000000000#64,
        pteValue forked.mem r 0x400000000000#64), reaped.inUse 0x300000#64, pgtabExtract s.mem r 128,
          reaped.inUse 0x302000#64)) =
      some ((0x8000000000300007#64, 0#64, 0x8000000000300007#64), true, some 0x302000#64,
        true) := by decide +kernel
  obtain ⟨⟨r, s, p, forked, reaped⟩, ran, values⟩ := toOption_map_eq_some.mp values
  simp only [Prod.mk.injEq] at values
  obtain ⟨⟨mapped, copy, source⟩, page, table, kept⟩ := values
  unfold cloneAndReap at ran
  obtain ⟨⟨r', s₀⟩, created, ran⟩ := bind_eq_ok.mp ran
  obtain ⟨s₁, first, ran⟩ := bind_eq_ok.mp ran
  obtain ⟨⟨p', s₂⟩, cloned, ran⟩ := bind_eq_ok.mp ran
  obtain ⟨s₃, exited, ran⟩ := bind_eq_ok.mp ran
  cases ran
  exact ⟨s₀, s, r, p, forked, reaped, _, created, first, mapped, cloned, copy, source, exited, page,
    table, kept⟩

end ByteOS.Mm
