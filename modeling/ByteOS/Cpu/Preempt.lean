import ByteOS.Cpu.Isr

/-! Interrupts and the scheduler on one processor: `isr_global_handler` of `kernel/cpu/isr.c`,
`schedule` and `sched_yield_preempt` of `kernel/proc/sched.c`, `switch_to` and
`lapic_timer_callback` of `kernel/drivers/apic/lapic.c`.

Every task has a stack of the calls that are in progress on it. An interrupt or exception
may come before any step and puts a call of `isr_global_handler` on the stack of the
current task. Locks count as their `preempt_inc` and `preempt_dec`.
-/

set_option autoImplicit false

namespace ByteOS.Cpu.Preempt

/-- The fields of `struct percpu` that decide about preemption. -/
structure Percpu where
  preemptCount : Nat
  intDepth : Nat
  reschedule : Bool
  deriving DecidableEq, Repr

/-- Where a call of `isr_global_handler` is. -/
inductive IsrPc where
  | start
  /-- In `info->handler`, with the locks that it holds. -/
  | handler (held : Nat)
  /-- In `lapic_timer_callback`, at the test of `reschedule` and before the store to it. -/
  | timer
  | timerSet
  | leave
  /-- At the test of the local `int_depth` and of `reschedule`. -/
  | test (intDepth : Nat)
  /-- `sched_yield_preempt` has been called. -/
  | yield
  deriving DecidableEq, Repr

/-- Where a call of `sched_yield_preempt` is. -/
inductive YieldPc where
  | preemptInc
  | preemptDec
  | schedule
  deriving DecidableEq, Repr

/-- Where a call of `schedule` is. -/
inductive SchedulePc where
  | preemptInc
  | clear
  /-- `reschedule` is cleared and the next task is looked for. -/
  | body (held : Nat)
  /-- `switch_to` has left the stack. -/
  | suspended
  /-- `switch_to` is back on the stack; `mmu_switch` may hold locks. -/
  | resumed (held : Nat)
  deriving DecidableEq, Repr

inductive Frame where
  | isr (info : IsrInfo) (pc : IsrPc)
  | yieldPreempt (pc : YieldPc)
  | schedule (pc : SchedulePc)
  deriving DecidableEq, Repr

/-- The stack of a task, the last call first. Below all calls is the code of the task, with
the locks that it holds. -/
structure Task where
  frames : List Frame
  held : Nat
  numSlices : BitVec 32
  deriving DecidableEq, Repr

def maxSlices : BitVec 32 := 5#32

/-! ## Steps of the current task -/

/-- `preempt_inc` by the code of the task, by a handler, by the functions that `schedule`
calls or by `mmu_switch`. -/
def preemptInc (cpu : Percpu) (t : Task) : Option (Percpu × Task) :=
  let cpu := { cpu with preemptCount := cpu.preemptCount + 1 }
  match t.frames with
  | [] => some (cpu, { t with held := t.held + 1 })
  | .isr info (.handler held) :: below =>
    some (cpu, { t with frames := .isr info (.handler (held + 1)) :: below })
  | .schedule (.body held) :: below =>
    some (cpu, { t with frames := .schedule (.body (held + 1)) :: below })
  | .schedule (.resumed held) :: below =>
    some (cpu, { t with frames := .schedule (.resumed (held + 1)) :: below })
  | _ => none

/-- The `preempt_dec` for one of them. -/
def preemptDec (cpu : Percpu) (t : Task) : Option (Percpu × Task) :=
  let cpu := { cpu with preemptCount := cpu.preemptCount - 1 }
  match t.frames, t.held with
  | [], held + 1 => some (cpu, { t with held := held })
  | .isr info (.handler (held + 1)) :: below, _ =>
    some (cpu, { t with frames := .isr info (.handler held) :: below })
  | .schedule (.body (held + 1)) :: below, _ =>
    some (cpu, { t with frames := .schedule (.body held) :: below })
  | .schedule (.resumed (held + 1)) :: below, _ =>
    some (cpu, { t with frames := .schedule (.resumed held) :: below })
  | _, _ => none

/-- Where `isr_global_handler` goes for the handler of a slot. -/
def enterHandler : Option Handler → IsrPc
  | none => .leave
  | some .lapicTimerCallback => .timer
  | some _ => .handler 0

/-- The next step of a call of `isr_global_handler` that is on top of the stack. -/
def isrGlobalHandler (cpu : Percpu) (t : Task) (info : IsrInfo) (below : List Frame) :
    IsrPc → Option (Percpu × Task)
  | .start =>
    let cpu := if info.type = .irq then { cpu with intDepth := cpu.intDepth + 1 } else cpu
    some (cpu, { t with frames := .isr info (enterHandler info.handler) :: below })
  -- the handler returns, and has released its locks
  | .handler 0 => some (cpu, { t with frames := .isr info .leave :: below })
  | .handler (_ + 1) => none
  | .timer =>
    if cpu.reschedule then some (cpu, { t with frames := .isr info .leave :: below })
    else
      let numSlices := t.numSlices + 1#32
      let pc := if maxSlices ≤ numSlices then .timerSet else .leave
      some (cpu, { t with frames := .isr info pc :: below, numSlices := numSlices })
  | .timerSet => some ({ cpu with reschedule := true }, { t with frames := .isr info .leave :: below })
  | .leave =>
    if info.type = .irq then
      let intDepth := cpu.intDepth - 1
      some ({ cpu with intDepth := intDepth }, { t with frames := .isr info (.test intDepth) :: below })
    else some (cpu, { t with frames := .isr info (.test 0) :: below })
  | .test intDepth =>
    if intDepth = 0 ∧ cpu.reschedule then
      some (cpu, { t with frames := .yieldPreempt .preemptInc :: .isr info .yield :: below })
    else some (cpu, { t with frames := below })
  | .yield => some (cpu, { t with frames := below })

def schedYieldPreempt (cpu : Percpu) (t : Task) (below : List Frame) : YieldPc → Option (Percpu × Task)
  | .preemptInc =>
    some ({ cpu with preemptCount := cpu.preemptCount + 1 },
      { t with frames := .yieldPreempt .preemptDec :: below })
  | .preemptDec =>
    some ({ cpu with preemptCount := cpu.preemptCount - 1 },
      { t with frames := .yieldPreempt .schedule :: below })
  -- the call of `schedule` is the last statement
  | .schedule => some (cpu, { t with frames := .schedule .preemptInc :: below })

def schedule (cpu : Percpu) (t : Task) (below : List Frame) : SchedulePc → Option (Percpu × Task)
  | .preemptInc =>
    some ({ cpu with preemptCount := cpu.preemptCount + 1 }, { t with frames := .schedule .clear :: below })
  | .clear => some ({ cpu with reschedule := false }, { t with frames := .schedule (.body 0) :: below })
  | .body _ => none
  | .suspended => none
  -- the decrement at the end of `switch_to`
  | .resumed 0 => some ({ cpu with preemptCount := cpu.preemptCount - 1 }, { t with frames := below })
  | .resumed (_ + 1) => none

def advance (cpu : Percpu) (t : Task) : Option (Percpu × Task) :=
  match t.frames with
  | [] => none
  | .isr info pc :: below => isrGlobalHandler cpu t info below pc
  | .yieldPreempt pc :: below => schedYieldPreempt cpu t below pc
  | .schedule pc :: below => schedule cpu t below pc

/-! ## The processor -/

structure Machine (I : Type) where
  cpu : Percpu
  current : I
  task : I → Task

inductive Action (I : Type) where
  | preemptInc
  | preemptDec
  /-- The code of the current task calls `schedule`. -/
  | yield
  /-- An interrupt or exception comes, with this slot of `isr_table`. -/
  | deliver (info : IsrInfo)
  | advance
  /-- `switch_to` from the current task to a task that waits in it. -/
  | switchTo (next : I)
  deriving DecidableEq, Repr

variable {I : Type} [DecidableEq I]

def Task.act (t : Task) (cpu : Percpu) : Action I → Option (Percpu × Task)
  | .preemptInc => preemptInc cpu t
  | .preemptDec => preemptDec cpu t
  | .yield => if t.frames = [] then some (cpu, { t with frames := [.schedule .preemptInc] }) else none
  | .deliver info => some (cpu, { t with frames := .isr info .start :: t.frames })
  | .advance => advance cpu t
  | .switchTo _ => none

/-- The stacks are exchanged. The next task may be the current one again. -/
def switchTo (m : Machine I) (next : I) : Option (Machine I) := do
  let .schedule (.body 0) :: below := (m.task m.current).frames | none
  let task :=
    Function.update m.task m.current { m.task m.current with frames := .schedule .suspended :: below }
  let .schedule .suspended :: below := (task next).frames | none
  return { m with
    current := next
    task := Function.update task next { task next with frames := .schedule (.resumed 0) :: below } }

def Machine.act (m : Machine I) : Action I → Option (Machine I)
  | .switchTo next => switchTo m next
  | a => do
    let (cpu, t) ← (m.task m.current).act m.cpu a
    return { m with cpu := cpu, task := Function.update m.task m.current t }

/-- The steps of the processor whose actions meet `guard`. -/
inductive Step (guard : Machine I → Action I → Prop) : Machine I → Machine I → Prop where
  | act {m m' : Machine I} (a : Action I) (allowed : guard m a) (ran : m.act a = some m') : Step guard m m'

/-- The first task runs its code, and the other ones start in `switch_to`. -/
def Machine.boot (first : I) : Machine I where
  cpu := ⟨0, 0, false⟩
  current := first
  task i := ⟨if i = first then [] else [.schedule .suspended], 0, 0#32⟩

/-- `isr_global_handler` is about to call `sched_yield_preempt`. -/
def Machine.Yields (m : Machine I) : Prop :=
  ∃ info below, (m.task m.current).frames = .isr info (.test 0) :: below ∧ m.cpu.reschedule = true

def Frame.InProgress : Frame → Prop
  | .isr _ (.test _) | .isr _ .yield => False
  | .isr info _ => info.type = .irq
  | .yieldPreempt _ | .schedule _ => False

end ByteOS.Cpu.Preempt
