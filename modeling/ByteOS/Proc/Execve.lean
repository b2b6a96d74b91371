import ByteOS.Proc.MmuUsers

/-! Loading a program: the address space that `task_execve` makes out of new pages. -/

set_option autoImplicit false

namespace ByteOS.Proc.Users

open ByteOS.Mm ByteOS.Lib

variable {kernel : Kernel} {roots : List PhysAddr} {p4 : PhysAddr} {base s s' : State} {nrCpus : Nat}

/-! ## The entries -/

section Entries
variable {phys flags : BitVec 64}

variable (mapping : flags &&& vmmUnmap = 0#64)
include mapping

theorem leafEntry_mapping :
    leafEntry phys flags = (phys &&& pteAddrMask) ||| pagePresent ||| (flags ^^^ pageExecutable) &&&
      ~~~vmmAllocMmap := by
  rw [leafEntry, mapping]
  rfl

theorem leafEntry_page (apart : ((flags ^^^ pageExecutable) &&& ~~~vmmAllocMmap) &&& pteAddrMask = 0#64) :
    leafEntry phys flags &&& pteAddrMask = phys &&& pteAddrMask := by
  have present : pagePresent &&& pteAddrMask = 0#64 := by decide
  rw [leafEntry_mapping mapping, BitVec.and_or_distrib_right, BitVec.and_or_distrib_right, apart,
    present, BitVec.and_assoc, BitVec.and_self, BitVec.or_zero, BitVec.or_zero]

theorem leafEntry_owned (apart : ((flags ^^^ pageExecutable) &&& ~~~vmmAllocMmap) &&& pageCow = 0#64) :
    ¬ Cow (leafEntry phys flags) := by
  have present : pagePresent &&& pageCow = 0#64 := by decide
  have address : pteAddrMask &&& pageCow = 0#64 := by decide
  rw [Cow, not_not, leafEntry_mapping mapping, BitVec.and_or_distrib_right,
    BitVec.and_or_distrib_right, apart, present, BitVec.and_assoc, address, BitVec.and_zero]
  rfl

end Entries

/-! ## Steps of the loading -/

/-- The address space of a program that is being loaded since the state `base`. Its tables
are new, the first `n` slots of its last-level table may be taken, and the pages that were
in use are as before. -/
structure Loading (kernel : Kernel) (roots : List PhysAddr) (p4 : PhysAddr) (base : State) (n : Nat)
    (s : State) : Prop where
  consistent : Consistent kernel s (p4 :: roots)
  supply : FreeSupply kernel s
  held : ∀ q, base.inUse q = true → s.inUse q = true
  own : ∀ path a, UserDom (p4 :: roots) p4 path → tableAt s.mem p4 path = some a → base.inUse a = false
  frame : ∀ q, base.inUse q = true ∨ q = kernel.p4 → s.mem q = base.mem q
  slots : ∀ i : Fin 512, n ≤ i.val → ¬ Present (entryAt s.mem p4 [0, 0, 0] i)

theorem Loading.start (created : Created kernel base roots p4 s) : Loading kernel roots p4 base 0 s where
  consistent := created.consistent
  supply := created.supply
  held q used := by
    rw [created.inUse]
    exact held_of_taken used
  own path a dom found := by
    obtain ⟨-, rfl⟩ := tableAt_empty created.empty dom.2.2 found
    exact created.free
  frame q old := by
    refine created.elsewhere q ?_
    rintro rfl
    rcases old with used | rfl
    · rw [created.free] at used
      cases used
    · exact created.consistent.kernel_not_allocatable
        (created.consistent.tables kernel.p4 [] _ ⟨List.mem_cons_self, by simp, by simp⟩ rfl).1
  slots i _ := by
    have none : tableAt s.mem p4 [0, 0, 0] = none := by
      rw [tableAt, walk_cons, entryTable_absent (created.empty 0 (by decide))]
      rfl
    rw [tableAt] at none
    rw [entryAt, lookup, none]
    exact not_not.mpr BitVec.zero_and

variable {function : BitVec 64}

section

variable {n : Nat} (loading : Loading kernel roots p4 base n s)
include loading

theorem Loading.map {phys virt flags : BitVec 64} (path : tablePath virt = [0, 0, 0])
    (slot : n ≤ (p1Index virt).val) (owned : ¬ Cow (leafEntry phys flags))
    (page : kernel.endPhys ≤ leafEntry phys flags &&& pteAddrMask →
      Spare s (p4 :: roots) (leafEntry phys flags &&& pteAddrMask))
    (ran : vmmMapPage nrCpus s p4 phys virt flags = .ok s') :
    Loading kernel roots p4 base ((p1Index virt).val + 1) s' := by
  obtain ⟨consistent, supply, held, own, frame, slots⟩ := loading
  have root : p4 ∈ p4 :: roots := List.mem_cons_self
  have user : (p4Index virt).val < 128 := by
    have first : p4Index virt = 0 := (List.cons.inj path).1
    rw [first]
    decide
  have absent : ¬ Present (entryAt s.mem p4 (tablePath virt) (p1Index virt)) := by
    rw [path]
    exact slots (p1Index virt) slot
  refine ⟨consistent.map supply root user ran absent owned page,
    FreeSupply.map consistent supply root user ran,
    fun q used => consistent.map_held supply root user ran (held q used), fun path' a dom found =>
      ?_, fun q old => ?_,
    fun i later => ?_⟩
  · rcases consistent.map_tables supply root user ran dom found with before | ⟨-, free, -⟩
    · exact own path' a dom before
    · by_contra used
      rw [held a (Bool.eq_true_of_not_eq_false used)] at free
      cases free
  · have outside := consistent.kernel_not_allocatable
    rw [← frame q old]
    refine consistent.map_frame supply root user ran ?_ fun path' dom found => ?_
    · exact Or.imp (held q) (fun same : q = kernel.p4 => same ▸ outside) old
    · rcases old with used | rfl
      · rw [own path' q dom found] at used
        cases used
      · exact outside (consistent.tables p4 path' _ dom found).1
  · have entries :=
      (consistent.mapped supply root user ran).entries p4 [0, 0, 0] i
        (path ▸ userDom_tablePath root user) rfl
    rw [entries, if_neg]
    · exact slots i (by omega)
    · rintro ⟨-, -, rfl⟩
      omega

theorem Loading.take {page : PhysAddr} (ran : pmmAllocPage s = .ok (page, s')) :
    Loading kernel roots p4 base n s' ∧ Spare s' (p4 :: roots) page ∧
      Allocatable kernel page := by
  obtain ⟨consistent, supply, held, own, frame, slots⟩ := loading
  obtain ⟨first, refcount, inUse, memory⟩ := pmmAllocPage_cases ran
  obtain ⟨allocatable, free⟩ := supply.free page (by simp [first])
  have elsewhere : ∀ q, q ≠ page → s'.mem q = s.mem q :=
    fun q other => by rw [memory, Function.update_of_ne other]
  have agree := consistent.fresh_agree free elsewhere
  have root : p4 ∈ p4 :: roots := List.mem_cons_self
  have taken := consistent.take allocatable free elsewhere inUse refcount
  have later : ∀ q, s.inUse q = true → s'.inUse q = true := by
    intro q used
    rw [inUse]
    exact held_of_taken used
  refine ⟨⟨taken, supply.rest first inUse, fun q used => later q (held q used),
    fun path a dom found => ?_, fun q old => ?_, fun i after => ?_⟩, ⟨?_, ?_, ?_⟩, allocatable⟩
  · exact own path a dom ((tableAt_agree agree dom).symm.trans found)
  · rw [elsewhere q, frame q old]
    rintro rfl
    rcases old with used | rfl
    · rw [held q used] at free
      cases free
    · exact consistent.kernel_not_allocatable allocatable
  · have dom : UserDom (p4 :: roots) p4 [0, 0, 0] := ⟨root, by simp, by simp⟩
    have same : entryAt s'.mem p4 [0, 0, 0] i = entryAt s.mem p4 [0, 0, 0] i := by
      have walk := tableAt_agree agree dom
      cases found : tableAt s.mem p4 [0, 0, 0] with
      | none =>
        rw [found] at walk
        rw [tableAt] at walk found
        rw [entryAt, entryAt, lookup, lookup, walk, found]
      | some t =>
        rw [found] at walk
        rw [entryAt_of_table walk, entryAt_of_table found, agree p4 _ t dom found]
    rw [same]
    exact slots i after
  · rw [inUse, Function.update_self]
  · exact consistent.fresh_notTable free elsewhere
  · exact consistent.fresh_unmapped allocatable free elsewhere

theorem mapCode_loading (low : n ≤ 1) (first : kernToPhys function &&& pteAddrMask < kernel.endPhys)
    (second : (kernToPhys function + 0x1000#64) &&& pteAddrMask < kernel.endPhys)
    (ran : mapCode nrCpus s p4 function = .ok s') : Loading kernel roots p4 base 3 s' := by
  unfold mapCode at ran
  obtain ⟨s₁, ran₁, ran₂⟩ := bind_eq_ok.mp ran
  -- pages of the kernel image belong to nobody
  have image : ∀ {s : State} {phys : PhysAddr}, phys &&& pteAddrMask < kernel.endPhys →
      kernel.endPhys ≤ leafEntry phys (pageExecutable ||| pageUserAccessible) &&& pteAddrMask →
        Spare s (p4 :: roots) (leafEntry phys (pageExecutable ||| pageUserAccessible) &&& pteAddrMask) := by
    intro s phys inside high
    rw [leafEntry_page (by decide) (by decide)] at high
    exact absurd inside (BitVec.not_lt.mpr high)
  have one : Loading kernel roots p4 base 2 s₁ :=
    loading.map (by decide) (low.trans (by decide)) (leafEntry_owned (by decide) (by decide))
      (image first) ran₁
  exact one.map (by decide) (by decide) (leafEntry_owned (by decide) (by decide)) (image second) ran₂

theorem mapStackPage_loading {i : Nat}
    (path : tablePath (utaskStackBottom + BitVec.ofNat 64 (i * 0x1000)) = [0, 0, 0])
    (slot : (p1Index (utaskStackBottom + BitVec.ofNat 64 (i * 0x1000))).val = n)
    (ran : mapStackPage nrCpus p4 s i = .ok s') : Loading kernel roots p4 base (n + 1) s' := by
  unfold mapStackPage at ran
  obtain ⟨⟨page, s₁⟩, allocated, ran⟩ := bind_eq_ok.mp ran
  obtain ⟨taken, spare, allocatable⟩ := loading.take allocated
  have same : leafEntry page (pageWritable ||| pageUserAccessible) &&& pteAddrMask = page := by
    rw [leafEntry_page (by decide) (by decide)]
    exact allocatable.usable.1
  rw [← slot]
  exact taken.map path slot.ge (leafEntry_owned (by decide) (by decide)) (fun _ => same.symm ▸ spare) ran

end

theorem execve_loading {s₁ s₂ : State} (consistent : Consistent kernel base roots)
    (vacant : KernelEmpty kernel base.mem) (supply : FreeSupply kernel base)
    (first : kernToPhys function &&& pteAddrMask < kernel.endPhys)
    (second : (kernToPhys function + 0x1000#64) &&& pteAddrMask < kernel.endPhys)
    (created : Mm.mmuInit kernel base = .ok (p4, s₁))
    (code : mapCode nrCpus s₁ p4 function = .ok s₂)
    (stack : [0, 1].foldlM (mapStackPage nrCpus p4) s₂ = .ok s') : Loading kernel roots p4 base 5 s' := by
  have start := Loading.start (mmuInit_created consistent vacant supply created)
  have loaded := mapCode_loading start (by decide) first second code
  rw [List.foldlM_cons] at stack
  obtain ⟨s₃, ran, stack⟩ := bind_eq_ok.mp stack
  have one := mapStackPage_loading loaded (by decide) (by decide) ran
  rw [List.foldlM_cons] at stack
  obtain ⟨s₄, ran, stack⟩ := bind_eq_ok.mp stack
  have two := mapStackPage_loading one (by decide) (by decide) ran
  rw [List.foldlM_nil] at stack
  exact Except.ok.inj stack ▸ two

end ByteOS.Proc.Users
