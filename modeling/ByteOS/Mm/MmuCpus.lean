import ByteOS.Lib.Transition
import ByteOS.Smp.Cpuset

/-! Which processors use which address space: `mmu_switch` and `mmu_update_cpuset` of
`kernel/mm/mmu.c`, as `switch_to`, `task_fork` and `task_execve` call them.

Of the tables only the page of the top level is modelled, which `cr3` holds. `pages` are
the pages for it that the allocator has handed out and not got back.
-/

set_option autoImplicit false

namespace ByteOS.Mm.Cpus

open ByteOS.Smp ByteOS.Lib

/-- A `struct mmu_info *`: `&kernel_mmu`, or the address of one from `mmu_alloc`. -/
inductive MmuPtr where
  | kernelMmu
  | allocated (addr : Nat)
  deriving DecidableEq, Repr

/-- The `struct mmu_info`; `p4` is a physical address, zero for null. -/
structure MmuInfo where
  p4 : Nat
  users : BitVec 32
  cpus : Cpuset
  deriving DecidableEq, Repr

structure Cpu where
  current : Nat
  cr3 : Nat
  deriving DecidableEq, Repr

structure Machine (n : Nat) where
  info : MmuPtr → MmuInfo
  /-- The results of `mmu_alloc`. -/
  mmus : List MmuPtr
  pages : List Nat
  /-- `task->mmu` -/
  taskMmu : Nat → MmuPtr
  tasks : List Nat
  cpu : Fin n → Cpu

variable {n : Nat}

namespace Machine

def setInfo (m : Machine n) (mmu : MmuPtr) (info : MmuInfo) : Machine n :=
  { m with info := Function.update m.info mmu info }

def setTaskMmu (m : Machine n) (t : Nat) (mmu : MmuPtr) : Machine n :=
  { m with taskMmu := Function.update m.taskMmu t mmu }

def writeCr3 (m : Machine n) (i : Fin n) (p4 : Nat) : Machine n :=
  { m with cpu := Function.update m.cpu i { m.cpu i with cr3 := p4 } }

def setCurrent (m : Machine n) (i : Fin n) (t : Nat) : Machine n :=
  { m with cpu := Function.update m.cpu i { m.cpu i with current := t } }

end Machine

def mmuIncUsers (m : Machine n) (mmu : MmuPtr) : Machine n :=
  if mmu ≠ .kernelMmu then m.setInfo mmu { m.info mmu with users := (m.info mmu).users + 1#32 } else m

/-- `mmu_alloc`, where `addr` is what `kmalloc` returns. -/
def mmuAlloc (m : Machine n) (addr : Nat) : Machine n :=
  let m := { m with mmus := .allocated addr :: m.mmus }
  mmuIncUsers (m.setInfo (.allocated addr) ⟨0, 0#32, 0#32⟩) (.allocated addr)

/-- `mmu_free` with `mmu_reap`, on processor `i`. -/
def mmuFree (m : Machine n) (i : Fin n) (mmu : MmuPtr) : Except Fault (Machine n) := do
  kassert (mmu ≠ .kernelMmu) "mmu != &kernel_mmu"
  kassert ((m.info mmu).users = 0#32) "kref_read(&mmu->users) == 0"
  -- the top-level table must not be freed from underneath us
  let m := m.writeCr3 i (m.info .kernelMmu).p4
  let m := { m with pages := m.pages.erase (m.info mmu).p4 }
  return m.setInfo mmu { m.info mmu with p4 := 0 }

def mmuDecUsers (m : Machine n) (i : Fin n) (mmu : MmuPtr) : Except Fault (Machine n) :=
  if mmu ≠ .kernelMmu then
    let num := (m.info mmu).users - 1#32
    let m := m.setInfo mmu { m.info mmu with users := num }
    if num = 0#32 then mmuFree m i mmu else .ok m
  else .ok m

/-- `mmu_init`, where `page` is what `pmm_alloc_order` returns. -/
def mmuInit (m : Machine n) (mmu : MmuPtr) (page : Nat) : Machine n :=
  { m with pages := page :: m.pages }.setInfo mmu { m.info mmu with cpus := 0#32, p4 := page }

/-- The new top-level table of `mmu_clone_cow`. -/
def mmuCloneCow (m : Machine n) (dest : MmuPtr) (page : Nat) : Except Fault (Machine n) := do
  kassert ((m.info dest).p4 = 0) "dest->p4 == NULL"
  return { m with pages := page :: m.pages }.setInfo dest { m.info dest with p4 := page }

def mmuUpdateCpuset (m : Machine n) (mmu : MmuPtr) (id : Nat) (val : Bool) : Except Fault (Machine n) :=
  if mmu ≠ .kernelMmu then do
    let cpus ← cpusetSetId (m.info mmu).cpus id val
    return m.setInfo mmu { m.info mmu with cpus := cpus }
  else .ok m

def mmuSwitch (m : Machine n) (i : Fin n) (next prev : MmuPtr) : Except Fault (Machine n) :=
  if next ≠ prev then do
    let m ← mmuUpdateCpuset m next i false
    let m ← mmuUpdateCpuset m prev i true
    kassert ((m.info next).p4 ≠ (m.info prev).p4) "next->p4 != prev->p4"
    return m.writeCr3 i (m.info next).p4
  else do
    kassert ((m.info next).p4 = (m.info prev).p4) "next->p4 == prev->p4"
    return m

def switchTo (m : Machine n) (i : Fin n) (next : Nat) : Except Fault (Machine n) :=
  let prev := (m.cpu i).current
  mmuSwitch (m.setCurrent i next) i (m.taskMmu next) (m.taskMmu prev)

inductive ForkKind where
  | kthread
  | uthread
  | process
  deriving DecidableEq, Repr

def taskFork (m : Machine n) (parent t : Nat) (kind : ForkKind) (addr page : Nat) :
    Except Fault (Machine n) :=
  let m := { m with tasks := t :: m.tasks }
  match kind with
  | .kthread => .ok (m.setTaskMmu t .kernelMmu)
  | .uthread => .ok ((mmuIncUsers m (m.taskMmu parent)).setTaskMmu t (m.taskMmu parent))
  | .process => mmuCloneCow ((mmuAlloc m addr).setTaskMmu t (.allocated addr)) (.allocated addr) page

/-- The address space of `task_execve` up to `mmu_init`. -/
def execveMmu (m : Machine n) (i : Fin n) (addr : Nat) : Except Fault (Machine n) :=
  let self := (m.cpu i).current
  if m.taskMmu self = .kernelMmu then .ok ((mmuAlloc m addr).setTaskMmu self (.allocated addr))
  else mmuDecUsers m i (m.taskMmu self)

def taskExecve (m : Machine n) (i : Fin n) (addr page : Nat) : Except Fault (Machine n) := do
  let self := (m.cpu i).current
  let m ← execveMmu m i addr
  let m := mmuInit m (m.taskMmu self) page
  let m ← mmuUpdateCpuset m (m.taskMmu self) i true
  return m.writeCr3 i (m.info (m.taskMmu self)).p4

def Machine.Free (m : Machine n) (page : Nat) : Prop :=
  page ∉ m.pages ∧ page ≠ 0 ∧ page ≠ (m.info .kernelMmu).p4

/-- Context switches that the guard allows, forks and execs. The task `dummy` calls nothing but
`schedule`. -/
inductive Step (dummy : Nat) (guard : Machine n → Fin n → Nat → Prop) : Machine n → Machine n → Prop where
  | switch {m m' : Machine n} (i : Fin n) (next : Nat) (task : next ∈ m.tasks)
      (allowed : guard m i next) (ran : switchTo m i next = .ok m') : Step dummy guard m m'
  | fork {m m' : Machine n} (parent t : Nat) (kind : ForkKind) (addr page : Nat) (task : parent ∈ m.tasks)
      (new : t ∉ m.tasks) (fresh : .allocated addr ∉ m.mmus) (free : m.Free page)
      (ran : taskFork m parent t kind addr page = .ok m') : Step dummy guard m m'
  | execve {m mid m' : Machine n} (i : Fin n) (addr page : Nat) (self : (m.cpu i).current ≠ dummy)
      (fresh : .allocated addr ∉ m.mmus) (readied : execveMmu m i addr = .ok mid) (free : mid.Free page)
      (ran : taskExecve m i addr page = .ok m') : Step dummy guard m m'

/-- The tasks when all processors have run `runq_init`: every one of them still runs the one
static task `dummy`, and has an idle task of its own. -/
structure BootTasks {T : Type} (dummy : T) (idle current : Fin n → T) (tasks : List T) : Prop where
  current : ∀ i, current i = dummy
  tasks : ∀ t, t ∈ tasks ↔ t = dummy ∨ ∃ i, t = idle i

structure Booted (m : Machine n) (dummy : Nat) (idle : Fin n → Nat) : Prop
    extends BootTasks dummy idle (fun i => (m.cpu i).current) m.tasks where
  threads : ∀ t ∈ m.tasks, m.taskMmu t = .kernelMmu
  cr3 : ∀ i, (m.cpu i).cr3 = (m.info .kernelMmu).p4
  mmus : m.mmus = []
  pages : m.pages = []

end ByteOS.Mm.Cpus
