import ByteOS.Lib.Census
import ByteOS.Mm.Isolation
import ByteOS.Proc.Execve

/-! `mmu->users` and the tasks that use an address space. -/

set_option autoImplicit false

namespace ByteOS.Proc.Users

open ByteOS.Mm ByteOS.Lib
open ByteOS.Mm.Cpus (MmuPtr ForkKind)
open Function (update update_self update_of_ne)
open Users.Machine (setInfo setTaskMmu)

variable {kernel : Kernel} {m m' : Machine} {mmu new : MmuPtr} {t : Nat}

/-! ## Holders -/

section Holders

theorem holders_join (fresh : t ∉ m.live) (live : m'.live = t :: m.live)
    (taskMmu : m'.taskMmu = update m.taskMmu t new) (mmu : MmuPtr) :
    m'.holders mmu = m.holders mmu + if new = mmu then 1 else 0 := by
  have others : m.live.countP (fun u => update m.taskMmu t new u = mmu) =
      m.live.countP fun u => m.taskMmu u = mmu := by
    refine List.countP_congr fun u inside => ?_
    rw [update_of_ne (ne_of_mem_of_not_mem inside fresh)]
  simp only [Machine.holders, live, taskMmu, List.countP_cons, others, update_self, decide_eq_true_eq]

theorem holders_split (inside : t ∈ m.live) (mmu : MmuPtr) :
    m.holders mmu = (m.live.erase t).countP (fun u => m.taskMmu u = mmu) +
      if m.taskMmu t = mmu then 1 else 0 := by
  rw [Machine.holders, (List.perm_cons_erase inside).countP_eq]
  simp only [List.countP_cons, decide_eq_true_eq]

theorem holders_move (distinct : m.live.Nodup) (inside : t ∈ m.live) (live : m'.live = m.live)
    (taskMmu : m'.taskMmu = update m.taskMmu t new) (mmu : MmuPtr) :
    m'.holders mmu + (if m.taskMmu t = mmu then 1 else 0) = m.holders mmu + if new = mmu then 1 else 0 := by
  have others : (m.live.erase t).countP (fun u => update m.taskMmu t new u = mmu) =
      (m.live.erase t).countP fun u => m.taskMmu u = mmu := by
    refine List.countP_congr fun u later => ?_
    rw [update_of_ne (ne_of_mem_of_not_mem later distinct.not_mem_erase)]
  rw [holders_split inside, holders_split (live.symm ▸ inside), live, taskMmu, others, update_self]
  omega

theorem holders_leave (inside : t ∈ m.live) (live : m'.live = m.live.erase t)
    (taskMmu : m'.taskMmu = m.taskMmu) (mmu : MmuPtr) :
    m'.holders mmu + (if m.taskMmu t = mmu then 1 else 0) = m.holders mmu := by
  rw [holders_split inside, Machine.holders, live, taskMmu]

theorem holders_pos_iff : 0 < m.holders mmu ↔ ∃ t ∈ m.live, m.taskMmu t = mmu := by
  simp only [Machine.holders, List.countP_pos_iff, decide_eq_true_eq]

end Holders

/-! ## Invariants -/

structure Counts (kernel : Kernel) (m : Machine) : Prop where
  distinct : m.live.Nodup
  created : ∀ t ∈ m.live, t ∈ m.tasks
  known : ∀ t ∈ m.live, m.taskMmu t = .kernelMmu ∨ m.taskMmu t ∈ m.mmus
  kernelMmu : MmuPtr.kernelMmu ∉ m.mmus
  kernelP4 : (m.info .kernelMmu).p4 = kernel.p4
  users : ∀ mmu ∈ m.mmus, (m.info mmu).users.toNat = m.holders mmu

structure Spaces (kernel : Kernel) (m : Machine) (roots : List PhysAddr) : Prop where
  consistent : Consistent kernel m.state roots
  vacant : KernelEmpty kernel m.state.mem
  roots : ∀ p, p ∈ roots ↔ ∃ mmu ∈ m.mmus, 0 < m.holders mmu ∧ (m.info mmu).p4 = p
  apart : ∀ mmu ∈ m.mmus, ∀ mmu' ∈ m.mmus, 0 < m.holders mmu → 0 < m.holders mmu' →
    (m.info mmu).p4 = (m.info mmu').p4 → mmu = mmu'

/-- `mmu_reap` runs once for every address space that loses its last holder. -/
def Reaps (m m' : Machine) : Prop :=
  ∀ mmu, mmu ≠ .kernelMmu →
    m'.reaped.count mmu = m.reaped.count mmu + if 0 < m.holders mmu ∧ m'.holders mmu = 0 then 1 else 0

/-- What a call does to the counts, and to the tables as long as the kernel has none in the user part. -/
structure Kept (kernel : Kernel) (m m' : Machine) : Prop where
  counts : Counts kernel m'
  reaps : Reaps m m'
  spaces : ∀ roots, Spaces kernel m roots → ∃ roots', Spaces kernel m' roots'

theorem Reaps.of_le (reaped : m'.reaped = m.reaped)
    (more : ∀ mmu, mmu ≠ .kernelMmu → m.holders mmu ≤ m'.holders mmu) : Reaps m m' := by
  intro mmu user
  have kept := more mmu user
  rw [reaped, if_neg (by omega), Nat.add_zero]

variable {addr : Nat}

section

variable (counts : Counts kernel m)
include counts

theorem Counts.unheld (fresh : mmu ∉ m.mmus) (user : mmu ≠ .kernelMmu) : m.holders mmu = 0 := by
  refine Nat.eq_zero_of_not_pos fun held => ?_
  obtain ⟨t, inside, rfl⟩ := holders_pos_iff.mp held
  exact (counts.known t inside).elim user fresh

theorem Counts.ne_fresh (inside : t ∈ m.live) (fresh : .allocated addr ∉ m.mmus) :
    m.taskMmu t ≠ .allocated addr := by
  intro same
  rcases counts.known t inside with thread | known
  · cases thread.symm.trans same
  · exact fresh (same ▸ known)

theorem Counts.user (inside : mmu ∈ m.mmus) : mmu ≠ .kernelMmu :=
  ne_of_mem_of_not_mem inside counts.kernelMmu

theorem Counts.join (born : t ∉ m.tasks) (live : m'.live = t :: m.live)
    (tasks : m'.tasks = t :: m.tasks) (taskMmu : m'.taskMmu = update m.taskMmu t new)
    (more : ∀ mmu ∈ m.mmus, mmu ∈ m'.mmus) (known : new = .kernelMmu ∨ new ∈ m'.mmus) :
    t ∉ m.live ∧ m'.live.Nodup ∧ (∀ t ∈ m'.live, t ∈ m'.tasks) ∧
      ∀ t ∈ m'.live, m'.taskMmu t = .kernelMmu ∨ m'.taskMmu t ∈ m'.mmus := by
  have later : t ∉ m.live := fun inside => born (counts.created t inside)
  rw [live, tasks, taskMmu]
  refine ⟨later, List.nodup_cons.mpr ⟨later, counts.distinct⟩,
    List.forall_mem_cons.mpr ⟨List.mem_cons_self, fun u inside => ?_⟩,
    List.forall_mem_cons.mpr ⟨by rwa [update_self], fun u inside => ?_⟩⟩
  · exact List.mem_cons_of_mem t (counts.created u inside)
  · rw [update_of_ne (ne_of_mem_of_not_mem inside later)]
    exact (counts.known u inside).imp_right (more _)

end

variable {function : BitVec 64} {roots : List PhysAddr} {s : State}

theorem Spaces.congr (spaces : Spaces kernel m roots) (state : m'.state = m.state)
    (mmus : m'.mmus = m.mmus) (same : ∀ mmu ∈ m.mmus, (0 < m'.holders mmu ↔ 0 < m.holders mmu) ∧
      (m'.info mmu).p4 = (m.info mmu).p4) :
    Spaces kernel m' roots := by
  refine ⟨state ▸ spaces.consistent, state ▸ spaces.vacant, fun p => ?_, ?_⟩
  · rw [spaces.roots, mmus]
    refine exists_congr fun mmu => and_congr_right fun inside => ?_
    rw [(same mmu inside).1, (same mmu inside).2]
  · rw [mmus]
    intro mmu inside mmu' inside' held held' equal
    rw [(same mmu inside).2, (same mmu' inside').2] at equal
    exact spaces.apart mmu inside mmu' inside' ((same mmu inside).1.mp held)
      ((same mmu' inside').1.mp held') equal

theorem Spaces.root_mem (spaces : Spaces kernel m roots) (inside : t ∈ m.live)
    (known : m.taskMmu t ∈ m.mmus) : (m.info (m.taskMmu t)).p4 ∈ roots :=
  (spaces.roots _).mpr ⟨m.taskMmu t, known, holders_pos_iff.mpr ⟨t, inside, rfl⟩, rfl⟩

structure Opens (m : Machine) (new : MmuPtr) (p4 : PhysAddr) (m' : Machine) : Prop where
  fresh : new ∉ m.mmus
  user : new ≠ .kernelMmu
  mmus : m'.mmus = new :: m.mmus
  info : m'.info = update m.info new ⟨p4, 1#32⟩
  reaped : m'.reaped = m.reaped
  distinct : m'.live.Nodup
  created : ∀ t ∈ m'.live, t ∈ m'.tasks
  known : ∀ t ∈ m'.live, m'.taskMmu t = .kernelMmu ∨ m'.taskMmu t ∈ m'.mmus
  holders : ∀ mmu, mmu ≠ .kernelMmu → m'.holders mmu = m.holders mmu + if new = mmu then 1 else 0

namespace Opens
variable {p4 : PhysAddr} (opens : Opens m new p4 m')
include opens

theorem holders_old (counts : Counts kernel m) (old : mmu ∈ m.mmus) :
    m'.info mmu = m.info mmu ∧ m'.holders mmu = m.holders mmu := by
  have other : mmu ≠ new := ne_of_mem_of_not_mem old opens.fresh
  constructor
  · rw [opens.info, update_of_ne other]
  · rw [opens.holders mmu (counts.user old), if_neg other.symm, Nat.add_zero]

theorem holders_new (counts : Counts kernel m) : m'.info new = ⟨p4, 1#32⟩ ∧ m'.holders new = 1 := by
  refine ⟨by rw [opens.info, update_self], ?_⟩
  rw [opens.holders new opens.user, if_pos rfl, counts.unheld opens.fresh opens.user]

theorem counts (counts : Counts kernel m) : Counts kernel m' where
  distinct := opens.distinct
  created := opens.created
  known := opens.known
  kernelMmu := by
    rw [opens.mmus, List.mem_cons, not_or]
    exact ⟨opens.user.symm, counts.kernelMmu⟩
  kernelP4 := by
    rw [opens.info, update_of_ne opens.user.symm]
    exact counts.kernelP4
  users mmu inside := by
    rw [opens.mmus] at inside
    rcases List.mem_cons.mp inside with rfl | old
    · rw [(opens.holders_new counts).1, (opens.holders_new counts).2]
      rfl
    · obtain ⟨info, holders⟩ := opens.holders_old counts old
      rw [info, holders]
      exact counts.users mmu old

theorem spaces (counts : Counts kernel m)
    (spaces : Spaces kernel m roots) (consistent : Consistent kernel m'.state (p4 :: roots))
    (vacant : KernelEmpty kernel m'.state.mem) : Spaces kernel m' (p4 :: roots) := by
  obtain ⟨info, one⟩ := opens.holders_new counts
  have fresh : p4 ∉ roots := (List.nodup_cons.mp consistent.distinct).1
  -- the old address spaces have other top-level tables
  have other : ∀ mmu ∈ m.mmus, 0 < m'.holders mmu → (m'.info mmu).p4 ≠ p4 := by
    intro mmu old held same
    obtain ⟨infoOld, holdersOld⟩ := opens.holders_old counts old
    exact fresh ((spaces.roots _).mpr ⟨mmu, old, holdersOld ▸ held, infoOld ▸ same⟩)
  refine ⟨consistent, vacant, fun p => ?_, ?_⟩
  · rw [List.mem_cons, opens.mmus, List.exists_mem_cons_iff, info, one, spaces.roots]
    refine or_congr ⟨fun same => ⟨Nat.one_pos, same.symm⟩, fun same => same.2.symm⟩ ?_
    refine exists_congr fun mmu => and_congr_right fun old => ?_
    obtain ⟨infoOld, holdersOld⟩ := opens.holders_old counts old
    rw [infoOld, holdersOld]
  · rw [opens.mmus]
    intro mmu inside mmu' inside' held held' same
    rcases List.mem_cons.mp inside with rfl | old <;> rcases List.mem_cons.mp inside' with rfl | old'
    · rfl
    · rw [info] at same
      exact absurd same.symm (other mmu' old' held')
    · rw [info] at same
      exact absurd same (other mmu old held)
    · obtain ⟨infoOld, holdersOld⟩ := opens.holders_old counts old
      obtain ⟨infoOld', holdersOld'⟩ := opens.holders_old counts old'
      rw [infoOld, infoOld'] at same
      exact spaces.apart mmu old mmu' old' (holdersOld ▸ held) (holdersOld' ▸ held') same

theorem reaps : Reaps m m' := by
  refine Reaps.of_le opens.reaped fun mmu user => ?_
  rw [opens.holders mmu user]
  exact Nat.le_add_right _ _

end Opens

/-! ## Forks that share -/

/-- A task is made that uses `new`, an address space in use or `kernel_mmu`. -/
def share (m : Machine) (t : Nat) (new : MmuPtr) : Machine :=
  (mmuIncUsers { m with tasks := t :: m.tasks, live := t :: m.live } new).setTaskMmu t new

theorem share_info (m : Machine) (t : Nat) (new mmu : MmuPtr) : (share m t new).info mmu =
    if mmu = new ∧ new ≠ .kernelMmu then ⟨(m.info new).p4, (m.info new).users + 1#32⟩ else m.info mmu := by
  by_cases kernel : new = .kernelMmu
  · simp [share, mmuIncUsers, setTaskMmu, kernel]
  · by_cases same : mmu = new
    · simp [share, mmuIncUsers, setTaskMmu, setInfo, kernel, same]
    · simp [share, mmuIncUsers, setTaskMmu, setInfo, kernel, same]

theorem share_rest (m : Machine) (t : Nat) (new : MmuPtr) :
    (share m t new).live = t :: m.live ∧ (share m t new).tasks = t :: m.tasks ∧
      (share m t new).mmus = m.mmus ∧ (share m t new).reaped = m.reaped ∧
      (share m t new).state = m.state ∧ (share m t new).taskMmu = update m.taskMmu t new := by
  by_cases kernel : new = .kernelMmu
  · simp [share, mmuIncUsers, setTaskMmu, kernel]
  · simp [share, mmuIncUsers, setTaskMmu, setInfo, kernel]

theorem share_kept (counts : Counts kernel m) (fresh : t ∉ m.tasks)
    (held : new ≠ .kernelMmu → 0 < m.holders new ∧ (m.info new).users + 1#32 ≠ 0#32) :
    Kept kernel m (share m t new) := by
  obtain ⟨live, tasks, mmus, reaped, state, taskMmu⟩ := share_rest m t new
  obtain ⟨later, distinct, created, known⟩ := counts.join fresh live tasks taskMmu (fun _ => mmus ▸ id) (by
    refine or_iff_not_imp_left.mpr fun user => ?_
    obtain ⟨u, inside, rfl⟩ := holders_pos_iff.mp (held user).1
    exact mmus ▸ (counts.known u inside).resolve_left user)
  have holders := holders_join later live taskMmu
  have p4 : ∀ mmu, ((share m t new).info mmu).p4 = (m.info mmu).p4 := by
    intro mmu
    rw [share_info]
    split
    case isTrue same => rw [same.1]
    case isFalse => rfl
  refine ⟨⟨distinct, created, known, ?_, ?_, ?_⟩, Reaps.of_le reaped fun mmu _ => ?_,
    fun roots spaces => ⟨roots, spaces.congr state mmus fun mmu inside => ⟨?_, p4 mmu⟩⟩⟩
  · rw [mmus]
    exact counts.kernelMmu
  · rw [p4]
    exact counts.kernelP4
  · rw [mmus]
    intro mmu inside
    have before := counts.users mmu inside
    rw [share_info, holders mmu]
    by_cases same : new = mmu
    · have user : new ≠ .kernelMmu := same ▸ counts.user inside
      rw [if_pos ⟨same.symm, user⟩, if_pos same, toNat_inc (held user).2, same, before]
    · rw [if_neg fun both => same both.1.symm, if_neg same, before, Nat.add_zero]
  · rw [holders mmu]
    exact Nat.le_add_right _ _
  · rw [holders mmu]
    split
    case isTrue same =>
      have used := (held (same ▸ counts.user inside)).1
      rw [same] at used
      omega
    case isFalse => rw [Nat.add_zero]

/-! ## Exits -/

theorem mmuDecUsers_cases (ran : mmuDecUsers kernel m mmu = .ok m') :
    mmu = .kernelMmu ∧ m' = m ∨
    mmu ≠ .kernelMmu ∧ (m.info mmu).users - 1#32 ≠ 0#32 ∧
      m' = m.setInfo mmu ⟨(m.info mmu).p4, (m.info mmu).users - 1#32⟩ ∨
    mmu ≠ .kernelMmu ∧ (m.info mmu).users - 1#32 = 0#32 ∧
      ∃ s, mmuReap kernel m.state (m.info mmu).p4 = .ok s ∧
      m' = { m with state := s, reaped := mmu :: m.reaped }.setInfo mmu ⟨0#64, 0#32⟩ := by
  unfold mmuDecUsers at ran
  split at ran
  case isTrue user =>
    dsimp only at ran
    split at ran
    case isTrue last =>
      refine .inr (.inr ⟨user, last, ?_⟩)
      unfold mmuFree at ran
      obtain ⟨-, -, ran⟩ := bind_eq_ok.mp ran
      obtain ⟨-, -, ran⟩ := bind_eq_ok.mp ran
      obtain ⟨s, reap, ran⟩ := bind_eq_ok.mp ran
      simp only [setInfo, update_self] at reap
      refine ⟨s, reap, ?_⟩
      simp only [pure, Except.pure, Except.ok.injEq, setInfo, update_self, Function.update_idem] at ran
      rw [← ran, last]
      rfl
    case isFalse more =>
      cases ran
      exact .inr (.inl ⟨user, more, rfl⟩)
  case isFalse shared =>
    cases ran
    exact .inl ⟨not_not.mp shared, rfl⟩

structure Leaves (m : Machine) (t : Nat) (m' : Machine) : Prop where
  inside : t ∈ m.live
  live : m'.live = m.live.erase t
  tasks : m'.tasks = m.tasks
  mmus : m'.mmus = m.mmus
  taskMmu : m'.taskMmu = m.taskMmu
  others : ∀ mmu, mmu ≠ m.taskMmu t ∨ mmu = .kernelMmu → m'.info mmu = m.info mmu
  own : m.taskMmu t ≠ .kernelMmu → (m'.info (m.taskMmu t)).users = (m.info (m.taskMmu t)).users - 1#32

namespace Leaves

section

variable (leaves : Leaves m t m')
include leaves

theorem holders_own : m'.holders (m.taskMmu t) + 1 = m.holders (m.taskMmu t) := by
  have split := holders_leave leaves.inside leaves.live leaves.taskMmu (m.taskMmu t)
  rwa [if_pos rfl] at split

theorem holders_other (other : mmu ≠ m.taskMmu t) : m'.holders mmu = m.holders mmu := by
  have split := holders_leave leaves.inside leaves.live leaves.taskMmu mmu
  rwa [if_neg other.symm, Nat.add_zero] at split

theorem counts (counts : Counts kernel m) : Counts kernel m' where
  distinct := by
    rw [leaves.live]
    exact counts.distinct.erase t
  created u inside := by
    rw [leaves.live] at inside
    rw [leaves.tasks]
    exact counts.created u (List.mem_of_mem_erase inside)
  known u inside := by
    rw [leaves.live] at inside
    rw [leaves.taskMmu, leaves.mmus]
    exact counts.known u (List.mem_of_mem_erase inside)
  kernelMmu := by
    rw [leaves.mmus]
    exact counts.kernelMmu
  kernelP4 := by
    rw [leaves.others _ (.inr rfl)]
    exact counts.kernelP4
  users mmu inside := by
    rw [leaves.mmus] at inside
    have before := counts.users mmu inside
    by_cases same : mmu = m.taskMmu t
    · subst same
      have left := leaves.holders_own
      have small := (m.info (m.taskMmu t)).users.isLt
      rw [leaves.own (counts.user inside), BitVec.toNat_sub, BitVec.toNat_ofNat]
      omega
    · rw [leaves.others mmu (.inl same), leaves.holders_other same, before]

theorem stays (counts : Counts kernel m) (state : m'.state = m.state)
    (reaped : m'.reaped = m.reaped) (used : m.taskMmu t ≠ .kernelMmu → 0 < m'.holders (m.taskMmu t) ∧
      (m'.info (m.taskMmu t)).p4 = (m.info (m.taskMmu t)).p4) : Kept kernel m m' := by
  have kept : ∀ mmu, mmu ≠ .kernelMmu →
      (0 < m'.holders mmu ↔ 0 < m.holders mmu) ∧ (m'.info mmu).p4 = (m.info mmu).p4 := by
    intro mmu user
    by_cases same : mmu = m.taskMmu t
    · subst same
      have left := leaves.holders_own
      obtain ⟨held, p4⟩ := used user
      exact ⟨by omega, p4⟩
    · rw [leaves.holders_other same, leaves.others mmu (.inl same)]
      exact ⟨Iff.rfl, rfl⟩
  refine ⟨leaves.counts counts, fun mmu other => ?_, fun roots spaces =>
    ⟨roots, spaces.congr state leaves.mmus fun mmu inside => kept mmu (counts.user inside)⟩⟩
  have same := (kept mmu other).1
  rw [reaped, if_neg (by omega), Nat.add_zero]

theorem last (counts : Counts kernel m) (user : m.taskMmu t ≠ .kernelMmu)
    (none : m'.holders (m.taskMmu t) = 0)
    (reap : mmuReap kernel m.state (m.info (m.taskMmu t)).p4 = .ok m'.state)
    (reaped : m'.reaped = m.taskMmu t :: m.reaped) : Kept kernel m m' := by
  have inside : m.taskMmu t ∈ m.mmus := (counts.known t leaves.inside).resolve_left user
  have held : 0 < m.holders (m.taskMmu t) := holders_pos_iff.mpr ⟨t, leaves.inside, rfl⟩
  refine ⟨leaves.counts counts, fun mmu notKernel => ?_,
    fun roots spaces => ⟨roots.erase (m.info (m.taskMmu t)).p4, ?_⟩⟩
  · rw [reaped]
    by_cases same : mmu = m.taskMmu t
    · subst same
      rw [List.count_cons_self, if_pos ⟨held, none⟩]
    · rw [List.count_cons_of_ne (Ne.symm same), leaves.holders_other same, if_neg (by omega), Nat.add_zero]
  have root := spaces.root_mem leaves.inside inside
  obtain ⟨s, ran, exited⟩ := mmuReap_exited spaces.consistent.toTrees root
  obtain rfl := Except.ok.inj (reap.symm.trans ran)
  have other : ∀ mmu ∈ m.mmus, 0 < m'.holders mmu → mmu ≠ m.taskMmu t := by
    rintro mmu - used rfl
    rw [none] at used
    exact absurd used (Nat.lt_irrefl 0)
  refine ⟨exited.keeps_consistent spaces.consistent, ?_, fun p => ?_, ?_⟩
  · rw [KernelEmpty, exited.kernelSame spaces.consistent]
    exact spaces.vacant
  · rw [spaces.consistent.distinct.mem_erase_iff, spaces.roots, leaves.mmus]
    constructor
    · rintro ⟨apart, mmu, known, used, rfl⟩
      have different : mmu ≠ m.taskMmu t := by
        rintro rfl
        exact apart rfl
      refine ⟨mmu, known, ?_, by rw [leaves.others mmu (.inl different)]⟩
      rwa [leaves.holders_other different]
    · rintro ⟨mmu, known, used, rfl⟩
      have different := other mmu known used
      rw [leaves.holders_other different] at used
      rw [leaves.others mmu (.inl different)]
      refine ⟨fun same => different ?_, mmu, known, used, rfl⟩
      exact spaces.apart mmu known _ inside used held same
  · rw [leaves.mmus]
    intro mmu known mmu' known' used used' same
    have different := other mmu known used
    have different' := other mmu' known' used'
    rw [leaves.holders_other different] at used
    rw [leaves.holders_other different'] at used'
    rw [leaves.others mmu (.inl different), leaves.others mmu' (.inl different')] at same
    exact spaces.apart mmu known mmu' known' used used' same

end

end Leaves

theorem setInfo_self (m : Machine) (mmu : MmuPtr) (info : MmuInfo) :
    (m.setInfo mmu info).info mmu = info := by
  simp only [setInfo, update_self]

theorem leaves_setInfo {info : MmuInfo} (inside : t ∈ m.live) (user : m.taskMmu t ≠ .kernelMmu)
    (users : info.users = (m.info (m.taskMmu t)).users - 1#32) (live : m'.live = m.live.erase t)
    (same : m'.tasks = m.tasks ∧ m'.mmus = m.mmus ∧ m'.taskMmu = m.taskMmu)
    (stored : m'.info = update m.info (m.taskMmu t) info) : Leaves m t m' := by
  refine ⟨inside, live, same.1, same.2.1, same.2.2, fun mmu other => ?_, fun _ => ?_⟩
  · have different : mmu ≠ m.taskMmu t := other.elim id fun kernel => kernel ▸ user.symm
    rw [stored, update_of_ne different]
  · rwa [stored, update_self]

theorem exit_kept (counts : Counts kernel m) (inside : t ∈ m.live)
    (ran : taskExit kernel m t = .ok m') : Kept kernel m m' := by
  rcases mmuDecUsers_cases ran with ⟨shared, rfl⟩ | ⟨user, more, rfl⟩ | ⟨user, last, s, reap, rfl⟩
  · have leaves : Leaves m t { m with live := m.live.erase t } :=
      ⟨inside, rfl, rfl, rfl, rfl, fun _ _ => rfl, fun user => absurd shared user⟩
    exact leaves.stays counts rfl rfl fun user => absurd shared user
  · have known : m.taskMmu t ∈ m.mmus := (counts.known t inside).resolve_left user
    have leaves : Leaves m t ({ m with live := m.live.erase t }.setInfo (m.taskMmu t)
        ⟨(m.info (m.taskMmu t)).p4, (m.info (m.taskMmu t)).users - 1#32⟩) :=
      leaves_setInfo inside user rfl rfl ⟨rfl, rfl, rfl⟩ rfl
    have counted := (leaves.counts counts).users _ known
    rw [setInfo_self] at counted
    refine leaves.stays counts rfl rfl ?_
    rw [setInfo_self, ← counted]
    exact fun _ => ⟨Nat.pos_of_ne_zero fun zero => more (BitVec.eq_of_toNat_eq zero), rfl⟩
  · have known : m.taskMmu t ∈ m.mmus := (counts.known t inside).resolve_left user
    have leaves : Leaves m t
        ({ m with live := m.live.erase t, state := s, reaped := m.taskMmu t :: m.reaped }.setInfo
        (m.taskMmu t) ⟨0#64, 0#32⟩) :=
      leaves_setInfo inside user last.symm rfl ⟨rfl, rfl, rfl⟩ rfl
    have counted := (leaves.counts counts).users _ known
    rw [setInfo_self] at counted
    exact leaves.last counts user counted.symm reap rfl

/-! ## New address spaces -/

theorem mmuAlloc_info (m : Machine) (addr : Nat) :
    (mmuAlloc m addr).info = update m.info (.allocated addr) ⟨0#64, 1#32⟩ := by
  simp [mmuAlloc, mmuIncUsers, setInfo]

theorem mmuAlloc_rest (m : Machine) (addr : Nat) :
    (mmuAlloc m addr).mmus = .allocated addr :: m.mmus ∧ (mmuAlloc m addr).state = m.state ∧
      (mmuAlloc m addr).taskMmu = m.taskMmu ∧ (mmuAlloc m addr).tasks = m.tasks ∧
      (mmuAlloc m addr).live = m.live ∧ (mmuAlloc m addr).reaped = m.reaped := by
  simp [mmuAlloc, mmuIncUsers, setInfo]

variable {p4 : PhysAddr} {nrCpus self : Nat}

section

variable (counts : Counts kernel m)
include counts

theorem opens_join (fresh : new ∉ m.mmus) (user : new ≠ .kernelMmu)
    (born : t ∉ m.tasks) (mmus : m'.mmus = new :: m.mmus)
    (info : m'.info = update m.info new ⟨p4, 1#32⟩) (reaped : m'.reaped = m.reaped)
    (live : m'.live = t :: m.live) (tasks : m'.tasks = t :: m.tasks)
    (taskMmu : m'.taskMmu = update m.taskMmu t new) : Opens m new p4 m' := by
  have more : ∀ mmu ∈ m.mmus, mmu ∈ m'.mmus := fun mmu inside => mmus ▸ List.mem_cons_of_mem new inside
  obtain ⟨later, distinct, created, known⟩ :=
    counts.join born live tasks taskMmu more (.inr (mmus ▸ List.mem_cons_self))
  exact ⟨fresh, user, mmus, info, reaped, distinct, created, known,
    fun mmu _ => holders_join later live taskMmu mmu⟩

theorem opens_move (fresh : new ∉ m.mmus) (user : new ≠ .kernelMmu)
    (inside : t ∈ m.live) (thread : m.taskMmu t = .kernelMmu) (mmus : m'.mmus = new :: m.mmus)
    (info : m'.info = update m.info new ⟨p4, 1#32⟩) (reaped : m'.reaped = m.reaped)
    (live : m'.live = m.live) (tasks : m'.tasks = m.tasks)
    (taskMmu : m'.taskMmu = update m.taskMmu t new) : Opens m new p4 m' := by
  refine ⟨fresh, user, mmus, info, reaped, live ▸ counts.distinct, ?_, ?_, fun mmu other => ?_⟩
  · rw [live, tasks]
    exact counts.created
  · rw [live, taskMmu, mmus]
    intro u later
    by_cases same : u = t
    · rw [same, update_self]
      exact .inr List.mem_cons_self
    · rw [update_of_ne same]
      exact (counts.known u later).imp_right (List.mem_cons_of_mem new)
  · have moved := holders_move counts.distinct inside live taskMmu mmu
    rwa [thread, if_neg other.symm, Nat.add_zero] at moved

theorem clone_consistent (spaces : Spaces kernel m roots)
    (supply : FreeSupply kernel m.state) (inside : t ∈ m.live)
    (ran : Mm.mmuCloneCow kernel m.state (m.info (m.taskMmu t)).p4 = .ok (p4, s)) :
    Consistent kernel s (p4 :: roots) ∧ KernelEmpty kernel s.mem := by
  rcases counts.known t inside with thread | known
  · rw [thread, counts.kernelP4] at ran
    have created := mmuInit_created spaces.consistent spaces.vacant supply
      (mmuCloneCow_kernel spaces.consistent spaces.vacant supply ran)
    exact ⟨created.consistent, created.vacant⟩
  · have root := spaces.root_mem inside known
    have forked := mmuCloneCow_forked spaces.consistent.toTrees supply root ran
    refine ⟨forked.keeps_consistent spaces.consistent root, ?_⟩
    rw [KernelEmpty, forked.kernelSame]
    exact spaces.vacant

theorem process_kept {parent : Nat} (supply : FreeSupply kernel m.state)
    (inside : parent ∈ m.live) (born : t ∉ m.tasks) (fresh : .allocated addr ∉ m.mmus)
    (ran : taskFork kernel m parent t .process addr = .ok m') : Kept kernel m m' := by
  simp only [taskFork, mmuCloneCow, setTaskMmu, mmuAlloc_info, mmuAlloc_rest] at ran
  obtain ⟨-, -, ran⟩ := bind_eq_ok.mp ran
  obtain ⟨⟨p4, s⟩, cloned, ran⟩ := bind_eq_ok.mp ran
  simp only [pure, Except.pure, Except.ok.injEq] at ran
  rw [update_of_ne (counts.ne_fresh inside fresh)] at cloned
  have opens : Opens m (.allocated addr) p4 m' := by
    refine opens_join counts fresh (by simp) born ?_ ?_ ?_ ?_ ?_ ?_
    all_goals
      subst ran
      simp [setInfo]
  refine ⟨opens.counts counts, opens.reaps, fun roots spaces => ⟨p4 :: roots, ?_⟩⟩
  obtain ⟨consistent, vacant⟩ := clone_consistent counts spaces supply inside cloned
  subst ran
  exact opens.spaces counts spaces consistent vacant

theorem execve_cases (inside : self ∈ m.live)
    (thread : m.taskMmu self = .kernelMmu) (fresh : .allocated addr ∉ m.mmus)
    (ran : taskExecve kernel nrCpus m self function addr = .ok m') :
    ∃ p4 s₁ s₂, Mm.mmuInit kernel m.state = .ok (p4, s₁) ∧ mapCode nrCpus s₁ p4 function = .ok s₂ ∧
      [0, 1].foldlM (mapStackPage nrCpus p4) s₂ = .ok m'.state ∧ Opens m (.allocated addr) p4 m' := by
  unfold taskExecve at ran
  obtain ⟨m₁, readied, ran⟩ := bind_eq_ok.mp ran
  rw [execveMmu, if_pos thread] at readied
  cases readied
  obtain ⟨m₂, opened, ran⟩ := bind_eq_ok.mp ran
  unfold mmuInit at opened
  obtain ⟨⟨p4, s₁⟩, created, stored⟩ := bind_eq_ok.mp opened
  cases stored
  obtain ⟨s₂, code, ran⟩ := bind_eq_ok.mp ran
  obtain ⟨s₃, stack, ran⟩ := bind_eq_ok.mp ran
  cases ran
  simp only [setTaskMmu, setInfo, mmuAlloc_info, mmuAlloc_rest, update_self] at created code stack
  refine ⟨p4, s₁, s₂, created, code, stack, opens_move counts fresh (by simp) inside thread ?_ ?_ ?_ ?_ ?_ ?_⟩
  all_goals simp [setTaskMmu, setInfo, mmuAlloc_info, mmuAlloc_rest]

/-- The page tables of an address space: its top-level table, and all tables of its user part
word for word. -/
structure SameTables (m : Machine) (mmu : MmuPtr) (m' : Machine) : Prop where
  p4 : (m'.info mmu).p4 = (m.info mmu).p4
  tables : ∀ path a, path.length ≤ 3 → (∀ i, path.head? = some i → i.val < 128) →
    tableAt m.state.mem (m.info mmu).p4 path = some a → m'.state.mem a = m.state.mem a

theorem execve_kept (supply : FreeSupply kernel m.state)
    (valid : m.Valid kernel (.execve self function addr)) (thread : m.taskMmu self = .kernelMmu)
    (ran : taskExecve kernel nrCpus m self function addr = .ok m') :
    Kept kernel m m' ∧ ∀ roots, Spaces kernel m roots → ∀ t ∈ m.live, SameTables m (m.taskMmu t) m' := by
  obtain ⟨inside, fresh, first, second⟩ := valid
  obtain ⟨p4, s₁, s₂, created, code, stack, opens⟩ := execve_cases counts inside thread fresh ran
  have loading := fun {roots} (spaces : Spaces kernel m roots) =>
    execve_loading spaces.consistent spaces.vacant supply first second created code stack
  refine ⟨⟨opens.counts counts, opens.reaps, fun roots spaces => ⟨p4 :: roots, ?_⟩⟩,
    fun roots spaces t live => ?_⟩
  · refine opens.spaces counts spaces (loading spaces).consistent ?_
    rw [KernelEmpty, (loading spaces).frame kernel.p4 (.inr rfl)]
    exact spaces.vacant
  refine ⟨by rw [opens.info, update_of_ne (counts.ne_fresh live fresh)],
    fun path a short user found => (loading spaces).frame a ?_⟩
  rcases counts.known t live with kernelThread | known
  · -- the kernel has no tables in the user part but the first one
    rw [kernelThread, counts.kernelP4] at found
    exact .inr (tableAt_empty spaces.vacant user found).2
  · have root := spaces.root_mem live known
    exact .inl (spaces.consistent.tables _ path a ⟨root, short, user⟩ found).2

end

/-! ## Runs -/

/-- Programs are loaded only into new address spaces, by kernel threads, and `users` has room
for another thread. -/
def Fresh (m : Machine) : Call → Prop
  | .execve self _ _ => m.taskMmu self = .kernelMmu
  | .fork parent _ .uthread _ => m.taskMmu parent ≠ .kernelMmu →
      (m.info (m.taskMmu parent)).users + 1#32 ≠ 0#32
  | _ => True

theorem Booted.counts (booted : Booted kernel m) : Counts kernel m := by
  refine ⟨booted.distinct, booted.tasks, fun t live => .inl (booted.threads t live), ?_,
    booted.kernelMmu, ?_⟩
  all_goals simp [booted.mmus]

theorem Booted.spaces (booted : Booted kernel m) (vacant : KernelEmpty kernel m.state.mem) :
    Spaces kernel m [] := by
  have nowhere : ∀ {r path}, ¬ UserDom [] r path := fun dom => nomatch dom.1
  have trees : Trees kernel m.state [] := by
    constructor
    · exact List.nodup_nil
    · exact fun _ _ _ _ _ dom => absurd dom nowhere
    · exact fun _ _ _ dom => absurd dom nowhere
    · exact booted.kernelLow
    · exact fun _ _ _ _ member => absurd member List.not_mem_nil
    · exact fun _ _ _ _ dom => absurd dom nowhere
    · exact fun _ _ _ _ _ maps => absurd maps.dom nowhere
    · exact fun _ _ _ _ _ _ _ _ _ maps => absurd maps.dom nowhere
  have unforked : Unforked kernel m.state [] :=
    ⟨trees, fun _ _ _ _ dom => absurd dom nowhere, fun _ _ _ _ _ _ _ _ _ maps =>
      absurd maps.dom nowhere, booted.uncounted⟩
  refine ⟨unforked.consistent, vacant, fun p => ?_, ?_⟩
  all_goals simp [booted.mmus]

theorem Counts.resupply (counts : Counts kernel m) (supply : List PhysAddr) :
    Counts kernel (m.resupply supply) :=
  ⟨counts.distinct, counts.created, counts.known, counts.kernelMmu, counts.kernelP4, counts.users⟩

theorem Spaces.resupply (spaces : Spaces kernel m roots) (supply : List PhysAddr) :
    Spaces kernel (m.resupply supply) roots :=
  ⟨spaces.consistent.resupply supply, spaces.vacant, spaces.roots, spaces.apart⟩

theorem Kept.of_resupply {supply : List PhysAddr} (kept : Kept kernel (m.resupply supply) m') :
    Kept kernel m m' :=
  ⟨kept.counts, kept.reaps, fun roots spaces => kept.spaces roots (spaces.resupply supply)⟩

theorem call_kept {c : Call} (counts : Counts kernel m) (allowed : Fresh m c)
    (returns : Returns kernel nrCpus m c m') : Kept kernel m m' := by
  obtain ⟨valid, supply, free, ran⟩ := returns
  have stocked := counts.resupply supply
  suffices kept : Kept kernel (m.resupply supply) m' from kept.of_resupply
  cases c with
  | fork parent t kind addr =>
    obtain ⟨inside, born, fresh⟩ := valid
    cases kind with
    | kthread =>
      have shared : share (m.resupply supply) t .kernelMmu = m' := Except.ok.inj ran
      exact shared ▸ share_kept stocked born fun user => absurd rfl user
    | uthread =>
      have shared : share (m.resupply supply) t (m.taskMmu parent) = m' := Except.ok.inj ran
      refine shared ▸ share_kept stocked born fun user =>
        ⟨holders_pos_iff.mpr ⟨parent, inside, rfl⟩, allowed user⟩
    | process => exact process_kept stocked free inside born fresh ran
  | execve self function addr => exact (execve_kept stocked free valid allowed ran).1
  | exit t => exact exit_kept stocked valid ran

theorem execve_tables (counts : Counts kernel m) (spaces : Spaces kernel m roots)
    (thread : m.taskMmu self = .kernelMmu)
    (returns : Returns kernel nrCpus m (.execve self function addr) m') (inside : t ∈ m.live) :
    SameTables m (m.taskMmu t) m' := by
  obtain ⟨valid, supply, free, ran⟩ := returns
  have same :=
    (execve_kept (counts.resupply supply) free valid thread ran).2 roots (spaces.resupply supply) t inside
  exact ⟨same.p4, same.tables⟩

section

variable {nrCpus : Nat} {m₀ : Machine} (booted : Booted kernel m₀)
    (run : Reaches (Step kernel nrCpus Fresh) m₀ m)
include booted run

theorem counts_of_run : Counts kernel m := by
  refine run.invariant (Counts kernel) booted.counts fun m m' _ step counts => ?_
  obtain ⟨c, allowed, returns⟩ := step
  exact (call_kept counts allowed returns).counts

theorem spaces_of_run (vacant : KernelEmpty kernel m₀.state.mem) : ∃ roots, Spaces kernel m roots := by
  have both : Counts kernel m ∧ ∃ roots, Spaces kernel m roots := by
    refine run.invariant (fun m => Counts kernel m ∧ ∃ roots, Spaces kernel m roots)
      ⟨booted.counts, [], booted.spaces vacant⟩ fun m m' _ step held => ?_
    obtain ⟨counts, roots, spaces⟩ := held
    obtain ⟨c, allowed, returns⟩ := step
    have kept := call_kept counts allowed returns
    exact ⟨kept.counts, kept.spaces roots spaces⟩
  exact both.2

end

theorem exit_returns (counts : Counts kernel m) (spaces : Spaces kernel m roots)
    (inside : t ∈ m.live) : ∃ m', taskExit kernel m t = .ok m' := by
  simp only [taskExit, mmuDecUsers]
  by_cases user : m.taskMmu t = .kernelMmu
  · rw [if_neg (not_not.mpr user)]
    exact ⟨_, rfl⟩
  · rw [if_pos user]
    split
    case isTrue last =>
      have known : m.taskMmu t ∈ m.mmus := (counts.known t inside).resolve_left user
      obtain ⟨s, reap, -⟩ := mmuReap_exited spaces.consistent.toTrees (spaces.root_mem inside known)
      simp [mmuFree, setInfo, kassert, user, last, reap, pure, Except.pure]
    case isFalse => exact ⟨_, rfl⟩

/-- In every run in which programs are loaded into new address spaces only: `users` is the
number of live tasks of an address space; and it is reaped when that number drops to zero and
at no other time. If the kernel has no tables in the user part, that never fails, and loading
a program leaves the tables of all address spaces in use as they are. -/
theorem mmu_users_counted {m₀ : Machine} (booted : Booted kernel m₀)
    (run : Reaches (Step kernel nrCpus Fresh) m₀ m) :
    (∀ mmu ∈ m.mmus, (m.info mmu).users.toNat = m.holders mmu) ∧
    (∀ c m', Fresh m c → Returns kernel nrCpus m c m' → ∀ mmu, mmu ≠ .kernelMmu →
      m'.reaped.count mmu = m.reaped.count mmu + if 0 < m.holders mmu ∧ m'.holders mmu = 0 then 1 else 0) ∧
    (KernelEmpty kernel m₀.state.mem →
      (∀ t ∈ m.live, ∃ m', taskExit kernel m t = .ok m') ∧
      ∀ self function addr m', Fresh m (.execve self function addr) →
        Returns kernel nrCpus m (.execve self function addr) m' →
        ∀ t ∈ m.live, SameTables m (m.taskMmu t) m') := by
  have counts := counts_of_run booted run
  refine ⟨counts.users, fun c m' allowed returns => (call_kept counts allowed returns).reaps,
    fun vacant => ?_⟩
  obtain ⟨roots, spaces⟩ := spaces_of_run booted run vacant
  exact ⟨fun t inside => exit_returns counts spaces inside,
    fun self function addr m' allowed returns t inside =>
    execve_tables counts spaces allowed returns inside⟩

/-! ## Runs of given calls -/

section Given
variable {nrCpus : Nat} {guard : Machine → Call → Prop} [∀ m, DecidablePred (guard m)]

def checkSupply (kernel : Kernel) (s : State) : Bool :=
  decide s.supply.Nodup && s.supply.all fun p =>
    decide (p &&& pteAddrMask = p ∧ p ≠ 0#64 ∧ p.toNat / 4096 < pageDataLen ∧
      kernel.endPhys ≤ p) && !s.inUse p

theorem freeSupply_of_check (checked : checkSupply kernel s = true) : FreeSupply kernel s := by
  simp only [checkSupply, Bool.and_eq_true, decide_eq_true_eq, List.all_eq_true, Bool.not_eq_true']
    at checked
  refine ⟨checked.1, fun p member => ?_⟩
  obtain ⟨⟨masked, nonzero, described, above⟩, free⟩ := checked.2 p member
  exact ⟨⟨⟨masked, nonzero⟩, described, above⟩, free⟩

instance (m : Machine) : DecidablePred (m.Valid kernel) := fun c =>
  match c with
  | .fork .. => inferInstanceAs (Decidable (_ ∧ _ ∧ _))
  | .execve .. => inferInstanceAs (Decidable (_ ∧ _ ∧ _ ∧ _))
  | .exit _ => inferInstanceAs (Decidable (_ ∈ _))

instance (m : Machine) : DecidablePred (Fresh m) := fun c =>
  match c with
  | .execve self _ _ => inferInstanceAs (Decidable (m.taskMmu self = .kernelMmu))
  | .fork parent _ .uthread _ =>
    inferInstanceAs
      (Decidable (m.taskMmu parent ≠ .kernelMmu → (m.info (m.taskMmu parent)).users + 1#32 ≠ 0#32))
  | .fork _ _ .kthread _ | .fork _ _ .process _ | .exit _ => .isTrue trivial

def Machine.run (kernel : Kernel) (nrCpus : Nat) (guard : Machine → Call → Prop)
    [∀ m, DecidablePred (guard m)] (m : Machine) (calls : List (List PhysAddr × Call)) : Option Machine :=
  calls.foldlM (fun m call =>
    if m.Valid kernel call.2 ∧ guard m call.2 ∧ checkSupply kernel (m.resupply call.1).state = true
    then ((m.resupply call.1).call kernel nrCpus call.2).toOption
    else none) m

theorem reaches_of_run {calls : List (List PhysAddr × Call)}
    (ran : m.run kernel nrCpus guard calls = some m') :
    Reaches (Step kernel nrCpus guard) m m' := by
  refine Reaches.of_foldlM (fun m call next first => ?_) ran
  split at first
  case isTrue allowed =>
    obtain ⟨valid, allowed, checked⟩ := allowed
    exact .call call.2 allowed ⟨valid, call.1, freeSupply_of_check checked, toOption_eq_some.mp first⟩
  case isFalse => exact nomatch first

def bootMachine : Machine where
  state := bootState
  info _ := ⟨bootKernel.p4, 0#32⟩
  mmus := []
  taskMmu _ := .kernelMmu
  tasks := [0]
  live := [0]
  reaped := []

theorem bootMachine_booted : Booted bootKernel bootMachine where
  distinct := by decide
  tasks t live := live
  threads _ _ := rfl
  mmus := rfl
  kernelMmu := rfl
  kernelLow := by decide
  uncounted _ _ := rfl

def firstProgram : List PhysAddr × Call :=
  ([0x300000#64, 0x301000#64, 0x302000#64, 0x303000#64, 0x304000#64, 0x305000#64],
    .execve 0 0xFFFFFFFF80150000#64 0)

def secondThread : List PhysAddr × Call := ([], .fork 0 1 .uthread 1)

def secondProgram : List PhysAddr × Call :=
  ([0x310000#64, 0x311000#64, 0x312000#64, 0x313000#64, 0x314000#64, 0x315000#64],
    .execve 0 0xFFFFFFFF80150000#64 1)

/-- A program with two threads. -/
theorem mmu_users_counted_threads : ∃ m,
    Reaches (Step bootKernel 2 Fresh) bootMachine m ∧ m.live = [1, 0] ∧ m.mmus = [.allocated 0] ∧
      m.holders (.allocated 0) = 2 ∧ (m.info (.allocated 0)).users.toNat = 2 := by
  have finished : (bootMachine.run bootKernel 2 Fresh [firstProgram, secondThread]).map (fun m =>
      (m.live, m.mmus, m.holders (.allocated 0))) = some ([1, 0], [.allocated 0], 2) := by decide +kernel
  obtain ⟨m, ran, values⟩ := Option.map_eq_some_iff.mp finished
  simp only [Prod.mk.injEq] at values
  obtain ⟨live, mmus, holders⟩ := values
  have run := reaches_of_run ran
  refine ⟨m, run, live, mmus, holders, ?_⟩
  rw [(mmu_users_counted bootMachine_booted run).1 _ (by rw [mmus]; exact List.mem_cons_self), holders]

/-- A thread that calls `task_execve` again takes the address space of the other one: its
top-level table is replaced, one user too few is counted, and the exit of the first thread
reaps it under the second. -/
theorem second_execve_miscounts : ∃ m m' m'',
    Reaches (Step bootKernel 2 fun _ _ => True) bootMachine m ∧
      Reaches (Step bootKernel 2 fun _ _ => True) m m' ∧
      Reaches (Step bootKernel 2 fun _ _ => True) m' m'' ∧
      (m.taskMmu 1 = .allocated 0 ∧ (m.info (.allocated 0)).p4 = 0x300000#64) ∧
      (m'.holders (.allocated 0) = 2 ∧ (m'.info (.allocated 0)).users = 1#32 ∧
        (m'.info (.allocated 0)).p4 = 0x310000#64) ∧
      m''.holders (.allocated 0) = 1 ∧ m''.reaped = [.allocated 0] := by
  have finished :
      ((bootMachine.run bootKernel 2 (fun _ _ => True) [firstProgram, secondThread]).bind fun m =>
      (m.run bootKernel 2 (fun _ _ => True) [secondProgram]).bind fun m' =>
        (m'.run bootKernel 2 (fun _ _ => True) [([], .exit 0)]).map fun m'' =>
          ([m.taskMmu 1] ++ m''.reaped, [m.info (.allocated 0), m'.info (.allocated 0)],
            [m'.holders (.allocated 0), m''.holders (.allocated 0)])) =
      some ([.allocated 0, .allocated 0], [⟨0x300000#64, 2#32⟩, ⟨0x310000#64, 1#32⟩],
        [2, 1]) := by decide +kernel
  obtain ⟨m, first, finished⟩ := Option.bind_eq_some_iff.mp finished
  obtain ⟨m', second, finished⟩ := Option.bind_eq_some_iff.mp finished
  obtain ⟨m'', third, values⟩ := Option.map_eq_some_iff.mp finished
  simp only [Prod.mk.injEq, List.cons_append, List.nil_append, List.cons.injEq, and_true] at values
  obtain ⟨⟨thread, reaped⟩, ⟨before, after⟩, two, one⟩ := values
  exact ⟨m, m', m'', reaches_of_run first, reaches_of_run second, reaches_of_run third,
    ⟨thread, by rw [before]⟩, ⟨two, by rw [after], by rw [after]⟩, one, reaped⟩

end Given

end ByteOS.Proc.Users
