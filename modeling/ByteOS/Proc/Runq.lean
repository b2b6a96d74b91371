import ByteOS.Ds.Rbtree

/-! The run queue of `kernel/proc/runq.c`.

A `struct task *` is represented by the address of the tree node inside the task,
`&t->sched.node`, and the null task by zero; `node_to_task` and `container_of` are
then the identity. Of a task the model keeps the fields that scheduling reads and
writes. `vruntime` and `num_threads` are `uint64_t`.
-/

set_option autoImplicit false

namespace ByteOS.Proc

open Lib Mm Ds

inductive TaskState where
  | notStarted
  | runnable
  | waiting
  | sleeping
  | zombie
  | dead
  deriving DecidableEq, Repr

def tidIdle : Nat := 0

structure Task where
  state : TaskState
  tid : Nat
  vruntime : Nat
  deriving DecidableEq, Repr

structure Runq where
  idle : Ptr
  tree : Rbtree
  numThreads : Nat
  deriving DecidableEq, Repr

structure RunqState where
  mem : Ptr → RbNode
  task : Ptr → Task
  rq : Runq

namespace RunqState

def rb (q : RunqState) : RbState := ⟨q.mem, q.rq.tree⟩

def setRb (q : RunqState) (s : RbState) : RunqState := { q with mem := s.mem, rq.tree := s.tree }

def setTask (q : RunqState) (t : Ptr) (task : Task) : RunqState :=
  { q with task := Function.update q.task t task }

end RunqState

def minVruntime (q : RunqState) : Nat :=
  if q.rq.tree.mostLeft = 0#64 then 0 else (q.task q.rq.tree.mostLeft).vruntime

/-- The queue that `runq_init` builds around a new idle task. -/
def runqInit (mem : Ptr → RbNode) (task : Ptr → Task) (idle : Ptr) : RunqState where
  mem := Function.update mem idle ⟨0#64, 0#64, 0#64⟩
  task := Function.update task idle ⟨.runnable, tidIdle, 0⟩
  rq := ⟨idle, ⟨0#64, 0#64⟩, 0⟩

/-- The search for the place of a new node in `tree_insert`. -/
def findLink (s : RbState) (vruntime : Ptr → Nat) (key : Nat) : Nat → Link → Ptr → Except Fault (Link × Ptr)
  | 0, _, _ => .error .unfinished
  | fuel + 1, link, parent => do
    let this ← s.readLink link
    if this = 0#64 then return (link, parent)
    else if key < vruntime this then findLink s vruntime key fuel (.child .left this) this
    else findLink s vruntime key fuel (.child .right this) this

-- The node of a null task is not at address zero, so the null test of `rb_erase`
-- does not protect the next two functions from a null task.

def treeInsert (q : RunqState) (t : Ptr) : Except Fault RunqState :=
  if t = 0#64 then .error .nullDeref
  else do
    let firstNode := q.rq.tree.mostLeft
    let key := (q.task t).vruntime
    let (link, parent) ← findLink q.rb (fun u => (q.task u).vruntime) key passes .root 0#64
    let s ← rbLinkNode q.rb t parent link
    let s ← rbInsert s t (firstNode = 0#64 ∨ key < (q.task firstNode).vruntime)
    return { q.setRb s with rq.numThreads := (q.rq.numThreads + 1) % wordMod }

def treeRemove (q : RunqState) (t : Ptr) : Except Fault RunqState :=
  if t = 0#64 then .error .nullDeref
  else do
    let s ← rbErase q.rb t
    return { q.setRb s with rq.numThreads := (q.rq.numThreads + (wordMod - 1)) % wordMod }

/-- A task that has not run in a while starts at the queue's minimum. -/
def resetVruntime (q : RunqState) (t : Ptr) : RunqState :=
  if (q.task t).state ≠ .runnable then q.setTask t { q.task t with vruntime := minVruntime q } else q

def runqAdd (q : RunqState) (t : Ptr) : Except Fault RunqState := treeInsert (resetVruntime q t) t

def runqNext (q : RunqState) : Except Fault (RunqState × Ptr) :=
  let next := q.rq.tree.mostLeft
  if next ≠ 0#64 then do
    let q ← treeRemove q next
    return (q, next)
  else return (q, q.rq.idle)

def runqRemove (q : RunqState) (t : Ptr) : Except Fault RunqState := treeRemove q t

end ByteOS.Proc
