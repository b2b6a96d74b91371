import ByteOS.Ds.RbHeap
import ByteOS.Mm.MmuCpus
import ByteOS.Proc.Runq

/-! The scheduler of `kernel/proc/sched.c` on several processors.

Every section of `schedule` that holds a run queue's lock is one step of the machine,
and a processor's program point says which section is next. The dummy task that each
processor starts on and the idle tasks carry the thread id `TID_IDLE`.
-/

set_option autoImplicit false

namespace ByteOS.Proc

open Lib Mm Ds
open Function (update)

/-- The points of `schedule` between its sections. -/
inductive Point where
  /-- Not in `schedule`. -/
  | outside
  /-- Before the first `runq_next`. -/
  | next
  /-- In `runq_balance_pull`, before the pass for processor `i`. -/
  | pull (i : Nat)
  /-- Before the second `runq_next`. -/
  | retry
  /-- Before `switch_to`. -/
  | switch (next : Ptr)
  deriving DecidableEq, Repr

/-- What `struct percpu` holds for the scheduler, and where the processor is. -/
structure Cpu where
  current : Ptr
  rq : Runq
  point : Point
  deriving DecidableEq, Repr

/-- All processors with the tasks they share; `tasks` are those that exist. -/
structure Machine (n : Nat) where
  mem : Ptr → RbNode
  task : Ptr → Task
  tasks : List Ptr
  cpu : Fin n → Cpu

namespace Machine

variable {n : Nat}

/-- The view that the run queue functions have on processor `i`. -/
def queue (m : Machine n) (i : Fin n) : RunqState := ⟨m.mem, m.task, (m.cpu i).rq⟩

def setQueue (m : Machine n) (i : Fin n) (q : RunqState) : Machine n :=
  { m with mem := q.mem, task := q.task, cpu := update m.cpu i { m.cpu i with rq := q.rq } }

def setTask (m : Machine n) (t : Ptr) (task : Task) : Machine n := { m with task := update m.task t task }

def setPoint (m : Machine n) (i : Fin n) (point : Point) : Machine n :=
  { m with cpu := update m.cpu i { m.cpu i with point := point } }

end Machine

variable {n : Nat}

/-- The start of `schedule`, up to the end of `runq_add(current)`. -/
def scheduleAdd (m : Machine n) (i : Fin n) : Except Fault (Machine n) :=
  let current := (m.cpu i).current
  let m := m.setTask current { m.task current with vruntime := ((m.task current).vruntime + 1) % wordMod }
  if (m.task current).tid ≠ tidIdle then do
    let q ← runqAdd (m.queue i) current
    return (m.setQueue i q).setPoint i .next
  else return m.setPoint i .next

def scheduleNext (m : Machine n) (i : Fin n) : Except Fault (Machine n) := do
  let (q, next) ← runqNext (m.queue i)
  let m := m.setQueue i q
  return m.setPoint i (if (m.task next).tid = tidIdle then .pull 0 else .switch next)

/-- One pass of the loop in `runq_balance_pull`. -/
def runqBalancePull (m : Machine n) (i : Fin n) (k : Nat) : Except Fault (Machine n) :=
  if bound : k < n then
    let other : Fin n := ⟨k, bound⟩
    if other ≠ i ∧ (m.cpu other).rq.numThreads > 0 then do
      let pulled := (m.cpu other).rq.tree.mostLeft
      let q ← treeRemove (m.queue other) pulled
      let m := m.setQueue other q
      let q ← treeInsert (m.queue i) pulled
      return (m.setQueue i q).setPoint i .retry
    else return m.setPoint i (.pull (k + 1))
  else return m.setPoint i .retry

def scheduleRetry (m : Machine n) (i : Fin n) : Except Fault (Machine n) := do
  let (q, next) ← runqNext (m.queue i)
  return (m.setQueue i q).setPoint i (.switch next)

/-- The end of `schedule`: the assertion and `switch_to`. -/
def scheduleSwitch (m : Machine n) (i : Fin n) (next : Ptr) : Except Fault (Machine n) :=
  if (m.task next).state = .runnable then
    return { m with cpu := update m.cpu i { m.cpu i with current := next, point := .outside } }
  else .error (.kassert "next->state == TASK_S_RUNNABLE")

/-- The next step of processor `i`; outside `schedule` it is the call. -/
def scheduleStep (m : Machine n) (i : Fin n) : Except Fault (Machine n) :=
  match (m.cpu i).point with
  | .outside => scheduleAdd m i
  | .next => scheduleNext m i
  | .pull k => runqBalancePull m i k
  | .retry => scheduleRetry m i
  | .switch next => scheduleSwitch m i next

/-- The sections of a call that are left, up to the return of `switch_to`. -/
def scheduleRest : Nat → Machine n → Fin n → Except Fault (Machine n)
  | 0, _, _ => .error .unfinished
  | fuel + 1, m, i =>
    if (m.cpu i).point = .outside then return m
    else do
      let m ← scheduleStep m i
      scheduleRest fuel m i

/-- A whole call of `schedule` on processor `i`, without other processors in between. The
balancer makes at most one pass for each processor and one to leave the loop. -/
def schedule (m : Machine n) (i : Fin n) : Except Fault (Machine n) := do
  let m ← scheduleAdd m i
  scheduleRest (n + 5) m i

/-- `task_fork` as far as scheduling is concerned: new memory, cleared, with a thread id. -/
def taskFork (m : Machine n) (t : Ptr) (tid : Nat) : Machine n where
  mem := update m.mem t ⟨0#64, 0#64, 0#64⟩
  task := update m.task t ⟨.notStarted, tid, 0⟩
  tasks := t :: m.tasks
  cpu := m.cpu

/-- The test of `t->state` is made before the lock of the run queue is taken. It is one step
with `runq_add` nevertheless: a new task is known to the task that forked it only, until this
call has put it into a queue, so that nobody else writes its state in between. -/
def taskWakeup (m : Machine n) (i : Fin n) (t : Ptr) : Except Fault (Machine n) :=
  if (m.task t).state ≠ .runnable then do
    let m := m.setTask t { m.task t with state := .runnable }
    let q ← runqAdd (m.queue i) t
    return m.setQueue i q
  else return m

/-- The machine when all processors have run `runq_init` and wait for each other. -/
structure Booted (m : Machine n) (dummy : Ptr) : Prop
    extends Mm.Cpus.BootTasks dummy (fun i => (m.cpu i).rq.idle) (fun i => (m.cpu i).current) m.tasks where
  point : ∀ i, (m.cpu i).point = .outside
  empty : ∀ i, (m.cpu i).rq.tree = ⟨0#64, 0#64⟩ ∧ (m.cpu i).rq.numThreads = 0
  addressed : ∀ t ∈ m.tasks, Address t
  zeroed : ∀ t ∈ m.tasks, m.mem t = ⟨0#64, 0#64, 0#64⟩
  dummyTask : m.task dummy = ⟨.notStarted, tidIdle, 0⟩
  idleTask : ∀ i, m.task (m.cpu i).rq.idle = ⟨.runnable, tidIdle, 0⟩

/-- What can happen next: a processor goes on, if the guard allows it, a task is forked,
a task is woken. -/
inductive SchedStep (guard : Machine n → Fin n → Prop) : Machine n → Machine n → Prop where
  | cpu {m m' : Machine n} (i : Fin n) (allowed : guard m i) (ran : scheduleStep m i = .ok m') :
      SchedStep guard m m'
  | fork {m : Machine n} (t : Ptr) (tid : Nat) (addressed : Address t) (fresh : t ∉ m.tasks)
      (user : tid ≠ tidIdle) : SchedStep guard m (taskFork m t tid)
  | wakeup {m m' : Machine n} (i : Fin n) (t : Ptr) (forked : t ∈ m.tasks)
      (user : (m.task t).tid ≠ tidIdle) (ran : taskWakeup m i t = .ok m') : SchedStep guard m m'

abbrev AnyStep : Machine n → Machine n → Prop := SchedStep fun _ _ => True

end ByteOS.Proc
