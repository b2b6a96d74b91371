import ByteOS.Smp.Cpuset

/-! TLB shootdowns: `tlb_shootdown` of `kernel/mm/tlb.c` and `ipi_tlb_shootdown` of
`kernel/smp/ipi.c`.

Interrupts between processors are messages. Every message has a handler of its own, which
takes its steps at any time after the message has been sent; the program of the processor
that it interrupts may go on meanwhile. `tlb_op_location` points to a variable on the stack
of a processor, which is there until the call returns.
-/

set_option autoImplicit false

namespace ByteOS.Smp.Tlb

open ByteOS.Mm ByteOS.Smp

abbrev VirtAddr := BitVec 64

structure TlbOp where
  start : VirtAddr
  stop : VirtAddr
  deriving DecidableEq, Repr

/-- Where a processor is in `tlb_shootdown`. -/
inductive Pc (n : Nat) where
  | idle
  | lockShootdown
  | lockCpus
  | publish
  /-- The loop, at the test of a processor. -/
  | send (i : Nat)
  /-- `tlb_remaining_cpus` has been incremented, the IPI is not sent yet. -/
  | sendIpi (target : Fin n)
  | wait
  | unlockCpus
  | unlockShootdown
  deriving DecidableEq, Repr

/-- A processor and its call of `tlb_shootdown`, the last one if it is in none. The number of
its calls tells the variables `op` apart. `taken` and `mark` are the set of the address space
and the length of the log at the time when `cpu_lock` was taken; nothing reads them. -/
structure Cpu (n : Nat) where
  pc : Pc n
  calls : Nat
  mmu : Nat
  op : TlbOp
  taken : Cpuset
  mark : Nat
  deriving DecidableEq, Repr

/-- A `struct tlb_op *`: the variable of a call of a processor. -/
abbrev OpPtr (n : Nat) := Option (Fin n × Nat)

/-- Where the handler of a message is in `ipi_tlb_shootdown`. -/
inductive Stage (n : Nat) where
  | sent
  | entered
  | loaded (op : OpPtr n)
  | looping (op : OpPtr n) (i : VirtAddr)
  | leaving (op : OpPtr n)
  | finished (op : OpPtr n)
  /-- It has followed a pointer to a variable that is gone. -/
  | dangling
  deriving DecidableEq, Repr

/-- An IPI; the call that has sent it is not part of the message. -/
structure Message (n : Nat) where
  target : Fin n
  sender : Fin n
  call : Nat
  stage : Stage n
  deriving DecidableEq, Repr

structure Machine (n : Nat) where
  shootdownLock : Bool
  /-- `mmu->cpu_lock` and `mmu->cpus` -/
  cpuLock : Nat → Bool
  cpus : Nat → Cpuset
  opLocation : OpPtr n
  /-- `tlb_remaining_cpus` -/
  remaining : BitVec 32
  messages : List (Message n)
  /-- The addresses that have been flushed, and by which processor. -/
  log : List (Fin n × VirtAddr)
  cpu : Fin n → Cpu n

variable {n : Nat}

namespace Machine

def setCpu (m : Machine n) (i : Fin n) (c : Cpu n) : Machine n :=
  { m with cpu := Function.update m.cpu i c }

def setPc (m : Machine n) (i : Fin n) (pc : Pc n) : Machine n := m.setCpu i { m.cpu i with pc := pc }

def deref (m : Machine n) : OpPtr n → Option TlbOp
  | none => none
  | some (i, call) => if (m.cpu i).calls = call ∧ (m.cpu i).pc ≠ .idle then some (m.cpu i).op else none

end Machine

/-- One pass of the loop of `tlb_shootdown`, for processor `k`. -/
def sendLoop (m : Machine n) (i k : Fin n) : Except Fault (Machine n) := do
  if k ≠ i then
    if ← cpusetQueryId (m.cpus (m.cpu i).mmu) k then
      return { m with remaining := m.remaining + 1#32 }.setPc i (.sendIpi k)
  return m.setPc i (.send (k + 1))

/-- The next step of a processor in `tlb_shootdown`. -/
def advance (m : Machine n) (i : Fin n) : Except Fault (Machine n) :=
  let c := m.cpu i
  match c.pc with
  | .idle => .ok m
  | .lockShootdown =>
    if m.shootdownLock then .ok m else .ok ({ m with shootdownLock := true }.setPc i .lockCpus)
  | .lockCpus =>
    if m.cpuLock c.mmu then .ok m
    else .ok ({ m with cpuLock := Function.update m.cpuLock c.mmu true }.setCpu i
      { c with pc := .publish, taken := m.cpus c.mmu, mark := m.log.length })
  | .publish => .ok ({ m with opLocation := some (i, c.calls) }.setPc i (.send 0))
  | .send k => if inside : k < n then sendLoop m i ⟨k, inside⟩ else .ok (m.setPc i .wait)
  | .sendIpi target =>
    .ok ({ m with messages := m.messages ++ [Message.mk target i c.calls .sent] }.setPc i
      (.send (target + 1)))
  | .wait => if m.remaining ≠ 0#32 then .ok m else .ok (m.setPc i .unlockCpus)
  | .unlockCpus =>
    .ok ({ m with cpuLock := Function.update m.cpuLock c.mmu false }.setPc i .unlockShootdown)
  | .unlockShootdown => .ok ({ m with shootdownLock := false }.setPc i .idle)

def handle (m : Machine n) (msg : Message n) : Machine n × Message n :=
  match msg.stage with
  | .sent => (m, { msg with stage := .entered })
  | .entered => (m, { msg with stage := .loaded m.opLocation })
  | .loaded ptr =>
    match m.deref ptr with
    | some op => (m, { msg with stage := .looping ptr op.start })
    | none => (m, { msg with stage := .dangling })
  | .looping ptr i =>
    match m.deref ptr with
    | some op =>
      if i < op.stop then
        ({ m with log := m.log ++ [(msg.target, i)] }, { msg with stage := .looping ptr (i + 0x1000#64) })
      else (m, { msg with stage := .leaving ptr })
    | none => (m, { msg with stage := .dangling })
  | .leaving ptr => ({ m with remaining := m.remaining - 1#32 }, { msg with stage := .finished ptr })
  | .finished ptr => (m, { msg with stage := .finished ptr })
  | .dangling => (m, { msg with stage := .dangling })

inductive Step : Machine n → Machine n → Prop where
  /-- `tlb_shootdown` is called. -/
  | call {m : Machine n} (i : Fin n) (mmu : Nat) (op : TlbOp) (idle : (m.cpu i).pc = .idle) :
      Step m (m.setCpu i { m.cpu i with
        pc := .lockShootdown, calls := (m.cpu i).calls + 1, mmu := mmu, op := op })
  | run {m m' : Machine n} (i : Fin n) (ran : advance m i = .ok m') : Step m m'
  /-- The handler of a message takes a step. -/
  | handler {m : Machine n} (before after : List (Message n)) (msg : Message n)
      (split : m.messages = before ++ msg :: after) :
      Step m { (handle m msg).1 with messages := before ++ (handle m msg).2 :: after }
  /-- `mmu_update_cpuset`, which takes and releases `cpu_lock`. -/
  | update {m : Machine n} (mmu id : Nat) (val : Bool) (cpus : Cpuset)
      (free : m.cpuLock mmu = false) (ran : cpusetSetId (m.cpus mmu) id val = .ok cpus) :
      Step m { m with cpus := Function.update m.cpus mmu cpus }

def Machine.initial (cpus : Nat → Cpuset) : Machine n where
  shootdownLock := false
  cpuLock _ := false
  cpus := cpus
  opLocation := none
  remaining := 0#32
  messages := []
  log := []
  cpu _ := ⟨.idle, 0, 0, ⟨0#64, 0#64⟩, 0#32, 0⟩

end ByteOS.Smp.Tlb
