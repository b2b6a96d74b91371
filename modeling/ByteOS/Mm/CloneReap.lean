import ByteOS.Mm.LowerHalf

/-! A fork that is undone: `mmu_clone_cow` followed by `mmu_reap` of the new address space.

The pages that the fork takes from the allocator are the tables of the new address space, and
the exit gives back exactly these: a page that the copy maps is still mapped by the source, so
its count does not fall to zero.
-/

set_option autoImplicit false

namespace ByteOS.Mm

open ByteOS.Lib

/-- Page `q` is a table of the lower half of an address space, or is mapped there. -/
def Reachable (mem : PhysMem) (root q : PhysAddr) : Prop :=
  ∃ path a, Lower path ∧ tableAt mem root path = some a ∧
    (a = q ∨ path.length = 3 ∧ ∃ i, Present (mem a i) ∧ mem a i &&& pteAddrMask = q)

/-- The lower half is a tree of tables of its own with all mappings below entry 128, the kernel
has nothing there, and no table of the address space is free. -/
structure Forkable (kernel : Kernel) (s : State) (r : PhysAddr) : Prop where
  tree : ∀ path path' a, Lower path → path'.length ≤ 3 → tableAt s.mem r path = some a →
    tableAt s.mem r path' = some a → path = path'
  confined : ∀ path t i, Lower path → path.length = 3 → tableAt s.mem r path = some t →
    Present (s.mem t i) → ∀ j, path.head? = some j → j.val < 128
  kernelEmpty : ∀ i : Fin 512, i.val < 256 → ¬ Present (s.mem kernel.p4 i)
  held : ∀ path a, path.length ≤ 3 → tableAt s.mem r path = some a → s.inUse a = true ∨
    ¬ Allocatable kernel a

variable {kernel : Kernel} {s s₁ s₂ : State} {live : List PhysAddr} {r p q a : PhysAddr}
  {va : BitVec 64} {path : List (Fin 512)}

theorem UserDom.lower (dom : UserDom live r path) : Lower path :=
  ⟨dom.2.1, fun i first => (dom.2.2 i first).trans (by decide)⟩

section

variable (consistent : Consistent kernel s live) (root : r ∈ live) (forked : Forked kernel s live r p s₁)

include forked in
/-- The fork takes pages for the tables of the copy only. -/
theorem Forked.inUse_same (old : s.inUse q = true ∨ ¬ Allocatable kernel q) : s₁.inUse q = s.inUse q := by
  rcases old with held | other
  · rw [held, forked.inUse q held]
  · refine Bool.eq_iff_iff.mpr ⟨fun taken => (forked.tight q taken).resolve_right ?_, forked.inUse q⟩
    rintro ⟨path, dom, found⟩
    exact other (forked.fresh path q dom found).1

include consistent root forked

/-- The pages in use after the exit are those in use before the fork. -/
theorem Forked.undone (exited : Exited kernel s₁ (p :: live) p s₂) : s₂.inUse = s.inUse := by
  have new := forked.new_root consistent
  funext q
  by_cases table : ∃ path, UserDom [p] p path ∧ tableAt s₁.mem p path = some q
  · -- a table of the copy was free before and is free again
    obtain ⟨path, dom, found⟩ := table
    rw [(forked.fresh path q dom found).2.1]
    exact exited.tables path q ⟨by simp, dom.2⟩ found
  have same : s₁.inUse q = s.inUse q :=
    Bool.eq_iff_iff.mpr ⟨fun taken => (forked.tight q taken).resolve_right table, forked.inUse q⟩
  by_cases mapped : kernel.endPhys ≤ q ∧ ∃ path t i, MapsAt (p :: live) s₁.mem p path t i q
  · -- the source maps the page as well
    obtain ⟨high, path, t, i, maps⟩ := mapped
    rcases forked.maps_cases root maps with ⟨inside, -⟩ | ⟨-, t₀, old, -⟩
    · exact absurd inside new
    · rw [(consistent.pages r path t₀ i q old high).1]
      refine exited.page_kept (forked.keeps_consistent consistent root) ?_ (forked.maps_old old) high
      rintro rfl
      exact new root
  · rw [exited.other q (fun path dom found => table ⟨path, ⟨by simp, dom.2⟩, found⟩)
      fun high path t i maps => mapped ⟨high, path, t, i, maps⟩, same]

variable (exited : Exited kernel s₁ (p :: live) p s₂) (forkable : Forkable kernel s r)
include exited forkable

/-- Of the tables of the source, the fork changes those of the last level below entry 128, and
the exit none. -/
theorem Forked.source_kept (short : path.length ≤ 3) (found : tableAt s.mem r path = some a)
    (elsewhere : path.length < 3 ∨ ¬ UserDom live r path) : s₁.mem a = s.mem a ∧ s₂.mem a = s.mem a := by
  have held := forkable.held path a short found
  have first : s₁.mem a = s.mem a := by
    refine forked.frame a held fun path' dom leaf found' => ?_
    obtain rfl := forkable.tree path' path a dom.lower short found' found
    rcases elsewhere with short | far
    · omega
    · exact far dom
  refine ⟨first, (exited.frame a ?_).trans first⟩
  rw [forked.undone consistent root exited, forked.inUse_same held]

theorem Forked.source_walk (short : path.length ≤ 3) :
    tableAt s₁.mem r path = tableAt s.mem r path ∧ tableAt s₂.mem r path = tableAt s.mem r path := by
  have same : ∀ before (i : Fin 512) b, before ++ [i] <+: path → tableAt s.mem r before = some b →
      s₁.mem b = s.mem b ∧ s₂.mem b = s.mem b := by
    intro before i b front found
    have length := front.length_le
    simp only [List.length_append, List.length_singleton] at length
    exact forked.source_kept consistent root exited forkable (by omega) found (.inl (by omega))
  exact ⟨walk_frame fun before i b front found => by rw [(same before i b front found).1],
    walk_frame fun before i b front found => by rw [(same before i b front found).2]⟩

theorem Forked.source_pte (va : BitVec 64) :
    pteValue s₂.mem r va = if (p4Index va).val < 256 ∧ Present (pteValue s.mem r va)
      then (pteValue s.mem r va &&& ~~~pageWritable) ||| pageCow else pteValue s.mem r va := by
  by_cases user : (p4Index va).val < 128
  · have other : r ∈ (p :: live).erase p := by simpa using root
    rw [exited.pte (forked.keeps_consistent consistent root) other user]
    by_cases present : Present (pteValue s.mem r va)
    · rw [if_pos ⟨user.trans (by decide), present⟩]
      exact (forked.pte_shared consistent.toTrees root user present).2
    · rw [if_neg fun both => present both.2, forked.pte_old root user, if_neg fun both => present both.2]
  · have walk := (forked.source_walk consistent root exited forkable (tablePath_leaf va).le).2
    have same : pteValue s₂.mem r va = pteValue s.mem r va := by
      cases found : tableAt s.mem r (tablePath va) with
      | none => rw [pteValue_of_none found, pteValue_of_none (walk.trans found)]
      | some t =>
        rw [pteValue_of_table found, pteValue_of_table (walk.trans found)]
        exact congrFun (forked.source_kept consistent root exited forkable
          (tablePath_leaf va).le found (.inr fun dom => user (dom.2.2 _ rfl))).2 _
    rw [same, if_neg]
    rintro ⟨lower, present⟩
    obtain ⟨t, found, entry⟩ := table_of_present present
    exact user (forkable.confined _ t _ (lower_tablePath lower) (tablePath_leaf va) found
      (entry ▸ present) _ rfl)

theorem Forked.reachable_held (reachable : Reachable s₁.mem r q) :
    s.inUse q = true ∨ ¬ Allocatable kernel q := by
  obtain ⟨path, a, lower, found, place⟩ := reachable
  rw [(forked.source_walk consistent root exited forkable lower.1).1] at found
  rcases place with rfl | ⟨leaf, i, present, page⟩
  · exact forkable.held path a lower.1 found
  have dom : UserDom live r path := by
    by_contra far
    rw [(forked.source_kept consistent root exited forkable lower.1 found (.inr far)).1] at present
    exact far ⟨root, lower.1, forkable.confined path a i lower leaf found present⟩
  have maps : MapsAt live s.mem r path a i q := by
    have entry := forked.source path a i dom leaf found
    split_ifs at entry with before
    · exact ⟨dom, leaf, found, before, by rw [← page, entry, markCow_page]⟩
    · exact absurd (entry ▸ present) before
  exact Decidable.or_iff_not_imp_right.mpr fun allocatable =>
    (consistent.pages r path a i q maps (not_not.mp allocatable).above).1

end

theorem Forkable.kernel_reachable (forkable : Forkable kernel s r)
    (same : s₁.mem kernel.p4 = s.mem kernel.p4) (reachable : Reachable s₁.mem kernel.p4 q) :
    q = kernel.p4 := by
  obtain ⟨path, a, lower, found, place⟩ := reachable
  cases path with
  | nil =>
    rcases place with rfl | ⟨leaf, -⟩
    · exact (Option.some.inj found).symm
    · cases leaf
  | cons i rest =>
    rw [tableAt, walk_cons, same, entryTable_absent (forkable.kernelEmpty i (lower.2 i rfl))] at found
    cases found

/-- A fork whose new address space is reaped at once: the same pages are free as before,
the source has lost write access to what it maps in the lower half, and no page that is
reached from the source or from the kernel has been given back. -/
theorem clone_then_reap (consistent : Consistent kernel s live) (supply : FreeSupply kernel s)
    (root : r ∈ live) (forkable : Forkable kernel s r) (ran : mmuCloneCow kernel s r = .ok (p, s₁)) :
    ∃ s₂, mmuReap kernel s₁ p = .ok s₂ ∧ s₂.inUse = s.inUse ∧
      (∀ va, pteValue s₂.mem r va = if (p4Index va).val < 256 ∧ Present (pteValue s.mem r va)
        then (pteValue s.mem r va &&& ~~~pageWritable) ||| pageCow else pteValue s.mem r va) ∧
      (∀ path a, path.length < 3 → tableAt s.mem r path = some a → s₂.mem a = s.mem a) ∧
      ∀ q, s₁.inUse q = true → s₂.inUse q = false → ¬ Reachable s₁.mem r q ∧
      ¬ Reachable s₁.mem kernel.p4 q := by
  have forked := mmuCloneCow_forked consistent.toTrees supply root ran
  obtain ⟨s₂, reaped, exited⟩ :=
    mmuReap_exited (forked.keeps_consistent consistent root).toTrees (List.mem_cons_self ..)
  have undone := forked.undone consistent root exited
  have freed : ∀ q, s₁.inUse q = true → s₂.inUse q = false →
      ¬ (s.inUse q = true ∨ ¬ Allocatable kernel q) := by
    intro q taken given old
    rw [undone, ← forked.inUse_same old, taken] at given
    cases given
  refine ⟨s₂, reaped, undone, forked.source_pte consistent root exited forkable,
    fun path a short found => ?_, fun q taken given => ⟨fun reachable => ?_, fun reachable => ?_⟩⟩
  · exact (forked.source_kept consistent root exited forkable short.le found (.inl short)).2
  · exact freed q taken given (forked.reachable_held consistent root exited forkable reachable)
  · obtain rfl := forkable.kernel_reachable forked.kernelSame reachable
    exact freed _ taken given (.inr consistent.kernel_not_allocatable)

theorem firstState_forkable : Forkable firstKernel firstState firstRoot := by
  have user : ∀ {path a}, path.length ≤ 3 → tableAt firstState.mem firstRoot path = some a →
      UserDom [firstRoot] firstRoot path := fun short found => onePage_user (by decide) short found
  constructor
  · intro path path' a lower short found found'
    exact (firstState_unforked.separate firstRoot path firstRoot path' a (user lower.1 found)
      (user short found') found found').2
  · exact fun path t i lower _ found _ => (user lower.1 found).2.2
  · intro i _ present
    obtain rfl : i = 0 := by simpa [firstKernel] using onePage_entry (nonzero_of_present present)
    exact present (by decide)
  · exact fun path a short found =>
      .inl (firstState_unforked.tables firstRoot path a (user short found) found).2

theorem clone_then_reap_first_page : ∃ p s₁ s₂, mmuCloneCow firstKernel firstState firstRoot = .ok (p, s₁) ∧
      mmuReap firstKernel s₁ p = .ok s₂ ∧ s₂.inUse = firstState.inUse ∧
        pteValue s₂.mem firstRoot 0x0#64 = 0x304205#64 := by
  have finished : (mmuCloneCow firstKernel firstState firstRoot).toOption.isSome = true := by decide +kernel
  obtain ⟨⟨p, s₁⟩, some⟩ := Option.isSome_iff_exists.mp finished
  have ran := toOption_eq_some.mp some
  obtain ⟨s₂, reaped, inUse, entries, -⟩ := clone_then_reap firstState_unforked.consistent firstState_supply
    (by simp) firstState_forkable ran
  refine ⟨p, s₁, s₂, ran, reaped, inUse, ?_⟩
  have mapped : pteValue firstState.mem firstRoot 0x0#64 = 0x304007#64 := by decide +kernel
  rw [entries, mapped, if_pos ⟨by decide, by decide⟩]
  decide

end ByteOS.Mm
