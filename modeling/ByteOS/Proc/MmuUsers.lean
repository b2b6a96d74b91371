import ByteOS.Mm.Growth
import ByteOS.Mm.MmuCpus

/-! Tasks and the address spaces that they use: `task_fork`, `task_execve` and `task_exit` of
`kernel/proc/task.c` with the functions on `users` of `kernel/mm/mmu.c`.

Page tables are those of `Mm`. `reaped` lists the runs of `mmu_reap`, the last one first;
nothing reads it. Kernel stacks, registers, the areas of an address space and the sets of
processors are left out.
-/

set_option autoImplicit false

namespace ByteOS.Proc.Users

open ByteOS.Mm ByteOS.Lib
open ByteOS.Mm.Cpus (MmuPtr ForkKind)

/-- The `struct mmu_info`; `p4` is a physical address, zero for null. -/
structure MmuInfo where
  p4 : PhysAddr
  users : BitVec 32
  deriving DecidableEq

structure Machine where
  state : State
  info : MmuPtr → MmuInfo
  /-- The results of `mmu_alloc`. -/
  mmus : List MmuPtr
  /-- `task->mmu` -/
  taskMmu : Nat → MmuPtr
  tasks : List Nat
  /-- The tasks that have not exited. -/
  live : List Nat
  reaped : List MmuPtr

namespace Machine

def setInfo (m : Machine) (mmu : MmuPtr) (info : MmuInfo) : Machine :=
  { m with info := Function.update m.info mmu info }

def setTaskMmu (m : Machine) (t : Nat) (mmu : MmuPtr) : Machine :=
  { m with taskMmu := Function.update m.taskMmu t mmu }

def holders (m : Machine) (mmu : MmuPtr) : Nat := m.live.countP fun t => m.taskMmu t = mmu

end Machine

/-! ## `mmu.c` -/

def mmuIncUsers (m : Machine) (mmu : MmuPtr) : Machine :=
  if mmu ≠ .kernelMmu then m.setInfo mmu { m.info mmu with users := (m.info mmu).users + 1#32 } else m

/-- `mmu_alloc`, where `addr` is what `kmalloc` returns. -/
def mmuAlloc (m : Machine) (addr : Nat) : Machine :=
  let m := { m with mmus := .allocated addr :: m.mmus }
  mmuIncUsers (m.setInfo (.allocated addr) ⟨0#64, 0#32⟩) (.allocated addr)

/-- `mmu_free` with `mmu_reap`. -/
def mmuFree (kernel : Kernel) (m : Machine) (mmu : MmuPtr) : Except Fault Machine := do
  kassert (mmu ≠ .kernelMmu) "mmu != &kernel_mmu"
  kassert ((m.info mmu).users = 0#32) "kref_read(&mmu->users) == 0"
  let s ← mmuReap kernel m.state (m.info mmu).p4
  let m := { m with state := s, reaped := mmu :: m.reaped }
  return m.setInfo mmu { m.info mmu with p4 := 0#64 }

def mmuDecUsers (kernel : Kernel) (m : Machine) (mmu : MmuPtr) : Except Fault Machine :=
  if mmu ≠ .kernelMmu then
    let num := (m.info mmu).users - 1#32
    let m := m.setInfo mmu { m.info mmu with users := num }
    if num = 0#32 then mmuFree kernel m mmu else .ok m
  else .ok m

def mmuInit (kernel : Kernel) (m : Machine) (mmu : MmuPtr) : Except Fault Machine := do
  let (p4, s) ← Mm.mmuInit kernel m.state
  return { m with state := s }.setInfo mmu { m.info mmu with p4 := p4 }

def mmuCloneCow (kernel : Kernel) (m : Machine) (dest src : MmuPtr) : Except Fault Machine := do
  kassert ((m.info dest).p4 = 0#64) "dest->p4 == NULL"
  let (p4, s) ← Mm.mmuCloneCow kernel m.state (m.info src).p4
  return { m with state := s }.setInfo dest { m.info dest with p4 := p4 }

/-! ## `task.c` -/

def taskFork (kernel : Kernel) (m : Machine) (parent t : Nat) (kind : ForkKind) (addr : Nat) :
    Except Fault Machine :=
  let m := { m with tasks := t :: m.tasks, live := t :: m.live }
  match kind with
  | .kthread => .ok (m.setTaskMmu t .kernelMmu)
  | .uthread => .ok ((mmuIncUsers m (m.taskMmu parent)).setTaskMmu t (m.taskMmu parent))
  | .process =>
    let mmu := .allocated addr
    mmuCloneCow kernel ((mmuAlloc m addr).setTaskMmu t mmu) mmu (m.taskMmu parent)

def kernelTextBase : BitVec 64 := 0xFFFFFFFF80000000#64

def kernToPhys (k : BitVec 64) : PhysAddr := if k = 0#64 then 0#64 else k - kernelTextBase

def utaskEntry : BitVec 64 := 0x1000#64
def utaskStackBottom : BitVec 64 := 0x3000#64

/-- The pages of the program in `task_execve`: two of the kernel image, which hold `function`. -/
def mapCode (nrCpus : Nat) (s : State) (p4 : PhysAddr) (function : BitVec 64) : Except Fault State := do
  let flags := pageExecutable ||| pageUserAccessible
  let s ← vmmMapPage nrCpus s p4 (kernToPhys function) utaskEntry flags
  vmmMapPage nrCpus s p4 (kernToPhys function + 0x1000#64) (utaskEntry + 0x1000#64) flags

/-- The body of the loop of `task_execve` that allocates a page of the stack. -/
def mapStackPage (nrCpus : Nat) (p4 : PhysAddr) (s : State) (i : Nat) : Except Fault State := do
  let off := BitVec.ofNat 64 (i * 0x1000)
  let (page, s) ← pmmAllocPage s
  vmmMapPage nrCpus s p4 page (utaskStackBottom + off) (pageWritable ||| pageUserAccessible)

/-- The address space of `task_execve` up to `mmu_init`. -/
def execveMmu (kernel : Kernel) (m : Machine) (self addr : Nat) : Except Fault Machine :=
  if m.taskMmu self = .kernelMmu then .ok ((mmuAlloc m addr).setTaskMmu self (.allocated addr))
  else mmuDecUsers kernel m (m.taskMmu self)

def taskExecve (kernel : Kernel) (nrCpus : Nat) (m : Machine) (self : Nat) (function : BitVec 64)
    (addr : Nat) : Except Fault Machine := do
  let m ← execveMmu kernel m self addr
  let m ← mmuInit kernel m (m.taskMmu self)
  let p4 := (m.info (m.taskMmu self)).p4
  let s ← mapCode nrCpus m.state p4 function
  let s ← [0, 1].foldlM (mapStackPage nrCpus p4) s
  return { m with state := s }

def taskExit (kernel : Kernel) (m : Machine) (t : Nat) : Except Fault Machine :=
  mmuDecUsers kernel { m with live := m.live.erase t } (m.taskMmu t)

/-! ## Runs -/

/-- A call, with what `kmalloc` returns for a new `struct mmu_info`. -/
inductive Call where
  | fork (parent t : Nat) (kind : ForkKind) (addr : Nat)
  | execve (self : Nat) (function : BitVec 64) (addr : Nat)
  | exit (t : Nat)
  deriving DecidableEq

def Machine.call (kernel : Kernel) (nrCpus : Nat) (m : Machine) : Call → Except Fault Machine
  | .fork parent t kind addr => taskFork kernel m parent t kind addr
  | .execve self function addr => taskExecve kernel nrCpus m self function addr
  | .exit t => taskExit kernel m t

/-- Only live tasks make calls and exit. New tasks and address spaces are new, and the
function of a program is in the kernel image. -/
def Machine.Valid (kernel : Kernel) (m : Machine) : Call → Prop
  | .fork parent t _ addr => parent ∈ m.live ∧ t ∉ m.tasks ∧ .allocated addr ∉ m.mmus
  | .execve self function addr => self ∈ m.live ∧ .allocated addr ∉ m.mmus ∧
      kernToPhys function &&& pteAddrMask < kernel.endPhys ∧
      (kernToPhys function + 0x1000#64) &&& pteAddrMask < kernel.endPhys
  | .exit t => t ∈ m.live

def Machine.resupply (m : Machine) (supply : List PhysAddr) : Machine :=
  { m with state := { m.state with supply := supply } }

/-- A call returns. The allocator has any pages that are not in use. -/
structure Returns (kernel : Kernel) (nrCpus : Nat) (m : Machine) (c : Call) (m' : Machine) : Prop where
  valid : m.Valid kernel c
  ran : ∃ supply, FreeSupply kernel (m.resupply supply).state ∧
    (m.resupply supply).call kernel nrCpus c = .ok m'

inductive Step (kernel : Kernel) (nrCpus : Nat) (guard : Machine → Call → Prop) :
    Machine → Machine → Prop where
  | call {m m' : Machine} (c : Call) (allowed : guard m c)
      (returns : Returns kernel nrCpus m c m') : Step kernel nrCpus guard m m'

structure Booted (kernel : Kernel) (m : Machine) : Prop where
  distinct : m.live.Nodup
  tasks : ∀ t ∈ m.live, t ∈ m.tasks
  threads : ∀ t ∈ m.live, m.taskMmu t = .kernelMmu
  mmus : m.mmus = []
  kernelMmu : (m.info .kernelMmu).p4 = kernel.p4
  kernelLow : kernel.p4 < kernel.endPhys
  uncounted : ∀ g, kernel.endPhys ≤ g → m.state.refcount g = 0#32

/-! ## The view of the processors

`Mm.Cpus` models the same calls with `mmu->cpus` and `cr3`, and of the page tables only the
page of the top level. Both models do the same to what they have in common. -/

section Agree

variable {n : Nat} {c : Cpus.Machine n} {kernel : Kernel} {m m' : Machine} {mmu : MmuPtr}

structure Agree (c : Cpus.Machine n) (m : Machine) : Prop where
  tasks : c.tasks = m.tasks
  mmus : c.mmus = m.mmus
  taskMmu : c.taskMmu = m.taskMmu
  info : ∀ mmu, (c.info mmu).p4 = (m.info mmu).p4.toNat ∧ (c.info mmu).users = (m.info mmu).users

variable (agree : Agree c m)
include agree

theorem Agree.setInfo {info : Cpus.MmuInfo} {info' : MmuInfo} (mmu : MmuPtr)
    (same : info.p4 = info'.p4.toNat ∧ info.users = info'.users) :
    Agree (c.setInfo mmu info) (m.setInfo mmu info') := by
  refine ⟨agree.tasks, agree.mmus, agree.taskMmu, fun other => ?_⟩
  by_cases here : other = mmu
  · subst here
    simpa [Machine.setInfo, Cpus.Machine.setInfo] using same
  · simpa [Machine.setInfo, Cpus.Machine.setInfo, here] using agree.info other

theorem Agree.setTaskMmu (t : Nat) (mmu : MmuPtr) :
    Agree (c.setTaskMmu t mmu) (m.setTaskMmu t mmu) :=
  ⟨agree.tasks, agree.mmus, by rw [Cpus.Machine.setTaskMmu, agree.taskMmu]; rfl, agree.info⟩

theorem Agree.mmuIncUsers (mmu : MmuPtr) :
    Agree (Cpus.mmuIncUsers c mmu) (mmuIncUsers m mmu) := by
  unfold Cpus.mmuIncUsers Users.mmuIncUsers
  split
  case isTrue => exact agree.setInfo mmu ⟨(agree.info mmu).1, by rw [(agree.info mmu).2]⟩
  case isFalse => exact agree

theorem Agree.mmuAlloc (addr : Nat) : Agree (Cpus.mmuAlloc c addr) (mmuAlloc m addr) := by
  have listed : Agree { c with mmus := .allocated addr :: c.mmus }
      { m with mmus := .allocated addr :: m.mmus } :=
    ⟨agree.tasks, congrArg _ agree.mmus, agree.taskMmu, agree.info⟩
  exact (listed.setInfo (.allocated addr) ⟨rfl, rfl⟩).mmuIncUsers _

theorem Agree.mmuFree (i : Fin n) (ran : mmuFree kernel m mmu = .ok m') :
    ∃ c', Cpus.mmuFree c i mmu = .ok c' ∧ (c'.cpu i).current = (c.cpu i).current ∧ Agree c' m' := by
  unfold Users.mmuFree at ran
  obtain ⟨_, user, ran⟩ := bind_eq_ok.mp ran
  obtain ⟨_, last, ran⟩ := bind_eq_ok.mp ran
  obtain ⟨s, -, ran⟩ := bind_eq_ok.mp ran
  cases ran
  have passed : kassert ((c.info mmu).users = 0#32) "kref_read(&mmu->users) == 0" = .ok () :=
    kassert_eq_ok.mpr ((agree.info mmu).2.trans (kassert_eq_ok.mp last))
  unfold Cpus.mmuFree
  rw [user, ok_bind, passed, ok_bind]
  refine ⟨_, rfl, by simp [Cpus.Machine.setInfo, Cpus.Machine.writeCr3], ?_⟩
  have freed : Agree { c.writeCr3 i (c.info .kernelMmu).p4 with pages := c.pages.erase (c.info mmu).p4 }
      { m with state := s, reaped := mmu :: m.reaped } :=
        ⟨agree.tasks, agree.mmus, agree.taskMmu, agree.info⟩
  exact freed.setInfo mmu ⟨rfl, (agree.info mmu).2⟩

theorem Agree.mmuDecUsers (i : Fin n) (ran : mmuDecUsers kernel m mmu = .ok m') :
    ∃ c', Cpus.mmuDecUsers c i mmu = .ok c' ∧ (c'.cpu i).current = (c.cpu i).current ∧ Agree c' m' := by
  have less : Agree (c.setInfo mmu { c.info mmu with users := (m.info mmu).users - 1#32 })
      (m.setInfo mmu { m.info mmu with users := (m.info mmu).users - 1#32 }) :=
    agree.setInfo mmu ⟨(agree.info mmu).1, rfl⟩
  unfold Cpus.mmuDecUsers
  unfold Users.mmuDecUsers at ran
  rw [(agree.info mmu).2]
  dsimp only at ran ⊢
  split_ifs at ran ⊢
  · exact less.mmuFree i ran
  · exact Except.ok.inj ran ▸ ⟨_, rfl, rfl, less⟩
  · exact Except.ok.inj ran ▸ ⟨_, rfl, rfl, agree⟩

theorem Agree.mmuCloneCow {dest src : MmuPtr} (ran : mmuCloneCow kernel m dest src = .ok m') :
    ∃ page c', Cpus.mmuCloneCow c dest page = .ok c' ∧ Agree c' m' := by
  unfold Users.mmuCloneCow at ran
  obtain ⟨_, null, ran⟩ := bind_eq_ok.mp ran
  obtain ⟨⟨p4, s⟩, -, ran⟩ := bind_eq_ok.mp ran
  cases ran
  have passed : kassert ((c.info dest).p4 = 0) "dest->p4 == NULL" = .ok () :=
    kassert_eq_ok.mpr ((agree.info dest).1.trans (congrArg BitVec.toNat (kassert_eq_ok.mp null)))
  unfold Cpus.mmuCloneCow
  rw [passed]
  refine ⟨p4.toNat, _, rfl, Agree.setInfo ?_ dest ⟨rfl, ?_⟩⟩
  · exact ⟨agree.tasks, agree.mmus, agree.taskMmu, agree.info⟩
  · exact (agree.info dest).2

theorem Agree.mmuUpdateCpuset {i : Nat} (few : i < Smp.maxCores) (mmu : MmuPtr)
    (val : Bool) : ∃ c', Cpus.mmuUpdateCpuset c mmu i val = .ok c' ∧ Agree c' m := by
  unfold Cpus.mmuUpdateCpuset
  split
  case isTrue =>
    obtain ⟨cpus, set⟩ : ∃ cpus, Smp.cpusetSetId (c.info mmu).cpus i val = .ok cpus := by
      unfold Smp.cpusetSetId
      rw [show kassert (i < Smp.maxCores) "id < MAX_CORES" = .ok () from kassert_eq_ok.mpr few, ok_bind]
      split <;> exact ⟨_, rfl⟩
    rw [set, ok_bind]
    refine ⟨_, rfl, agree.tasks, agree.mmus, agree.taskMmu, fun other => ?_⟩
    by_cases here : other = mmu
    · subst here
      simpa [Cpus.Machine.setInfo] using agree.info other
    · simpa [Cpus.Machine.setInfo, here] using agree.info other
  case isFalse => exact ⟨c, rfl, agree⟩

variable {self addr : Nat} {i : Fin n}

theorem Agree.execveMmu (current : (c.cpu i).current = self)
    (ran : execveMmu kernel m self addr = .ok m') :
    ∃ c', Cpus.execveMmu c i addr = .ok c' ∧ (c'.cpu i).current = self ∧ Agree c' m' := by
  subst current
  unfold Cpus.execveMmu
  unfold Users.execveMmu at ran
  simp only [agree.taskMmu]
  split_ifs at ran ⊢
  · cases ran
    exact ⟨_, rfl, by simp [Cpus.Machine.setTaskMmu, Cpus.mmuAlloc, Cpus.mmuIncUsers, Cpus.Machine.setInfo],
      (agree.mmuAlloc addr).setTaskMmu _ _⟩
  · exact agree.mmuDecUsers i ran

theorem fork_agrees {parent t : Nat} {kind : ForkKind}
    (ran : taskFork kernel m parent t kind addr = .ok m') :
    ∃ page c', Cpus.taskFork c parent t kind addr page = .ok c' ∧ Agree c' m' := by
  have listed : Agree { c with tasks := t :: c.tasks }
      { m with tasks := t :: m.tasks, live := t :: m.live } :=
    ⟨congrArg _ agree.tasks, agree.mmus, agree.taskMmu, agree.info⟩
  cases kind with
  | kthread =>
    cases ran
    exact ⟨0, _, rfl, listed.setTaskMmu t .kernelMmu⟩
  | uthread =>
    cases ran
    refine ⟨0, _, rfl, ?_⟩
    dsimp only
    rw [congrFun agree.taskMmu parent]
    exact (listed.mmuIncUsers _).setTaskMmu t _
  | process => exact ((listed.mmuAlloc addr).setTaskMmu t (.allocated addr)).mmuCloneCow ran

theorem execve_agrees {nrCpus : Nat} {function : BitVec 64} (few : i.val < Smp.maxCores)
    (current : (c.cpu i).current = self) (ran : taskExecve kernel nrCpus m self function addr = .ok m') :
    ∃ page c', Cpus.taskExecve c i addr page = .ok c' ∧ Agree c' m' := by
  unfold taskExecve at ran
  obtain ⟨m₁, readied, ran⟩ := bind_eq_ok.mp ran
  obtain ⟨c₁, readied', running, agree₁⟩ := agree.execveMmu current readied
  obtain ⟨m₂, opened, ran⟩ := bind_eq_ok.mp ran
  unfold mmuInit at opened
  obtain ⟨⟨p4, s₁⟩, -, stored⟩ := bind_eq_ok.mp opened
  cases stored
  obtain ⟨s₂, -, ran⟩ := bind_eq_ok.mp ran
  obtain ⟨s₃, -, ran⟩ := bind_eq_ok.mp ran
  cases ran
  have given : Agree (Cpus.mmuInit c₁ (c₁.taskMmu self) p4.toNat)
      ({ m₁ with state := s₁ }.setInfo (m₁.taskMmu self) { m₁.info (m₁.taskMmu self) with p4 := p4 }) := by
    rw [agree₁.taskMmu, Cpus.mmuInit]
    refine Agree.setInfo ?_ _ ⟨rfl, ?_⟩
    · exact ⟨agree₁.tasks, agree₁.mmus, agree₁.taskMmu, agree₁.info⟩
    · exact (agree₁.info _).2
  obtain ⟨c₂, updated, agree₂⟩ := given.mmuUpdateCpuset few (c₁.taskMmu self) true
  refine ⟨p4.toNat, c₂.writeCr3 i (c₂.info (c₂.taskMmu self)).p4, ?_, agree₂.tasks, agree₂.mmus,
    agree₂.taskMmu, agree₂.info⟩
  unfold Cpus.taskExecve
  rw [current, readied', ok_bind]
  change (Cpus.mmuUpdateCpuset (Cpus.mmuInit c₁ (c₁.taskMmu self) p4.toNat)
    (c₁.taskMmu self) i true >>= _) = _
  rw [updated, ok_bind]
  rfl

end Agree

end ByteOS.Proc.Users
