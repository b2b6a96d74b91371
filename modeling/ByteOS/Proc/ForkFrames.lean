import ByteOS.Mm.Addr
import ByteOS.Proc.ForkCode

/-! The frame that `task_fork` of `kernel/proc/task.c` builds for a new task, and what the task
starts with when `switch_to` comes to it.

The memory is the one that the assembly code works on, so that the structs have their layout.
What `task_fork` calls is in an environment: the addresses that it is given and what happens
to the memory meanwhile. Between the fork and the first switch to the task anything may happen
that leaves its frame and its stack pointer alone.
-/

set_option autoImplicit false

namespace ByteOS.Proc.Fork

open Lib Lib.Amd64
open Mm (Fault kassert)
open Agree (writeWord)

def taskKthread : BitVec 64 := 1#64
def forkKthread : BitVec 64 := 1#64
def forkUthread : BitVec 64 := 2#64

def kstackSize : BitVec 64 := 0x2000#64

/-- `sizeof(struct task)` and offsets in it. -/
def taskSize : Nat := 112
def rspOriginalOffset : BitVec 64 := 8#64
def mmuOffset : BitVec 64 := 0x10#64
def flagsOffset : BitVec 64 := 0x18#64
def stateOffset : BitVec 64 := 0x20#64
def tidOffset : BitVec 64 := 0x24#64
def tgidOffset : BitVec 64 := 0x28#64
def affinityOffset : BitVec 64 := 0x40#64

def taskNotStarted : BitVec 32 := 0#32

def read32 (mem : Memory) (addr : BitVec 64) : BitVec 32 := BitVec.ofNat 32 (readLe mem addr 4)

def write32 (mem : Memory) (addr : BitVec 64) (value : BitVec 32) : Memory :=
  writeBytes mem addr (leBytes 4 value.toNat)

/-- The rest of the kernel as `task_fork` sees it: where its variables are, what it is given by
the allocators, and what the functions that it calls do to memory. -/
structure Env where
  current : BitVec 64
  kernelMmu : BitVec 64
  defaultRegs : BitVec 64
  nextTid : BitVec 64
  rflags : BitVec 64
  task : BitVec 64
  kmalloc : Memory → Memory
  stack : BitVec 64
  pmmAllocOrder : Memory → Memory
  mmu : BitVec 64
  mmuAlloc : Memory → Memory
  mmuIncUsers : BitVec 64 → Memory → Memory
  mmuCloneCow : BitVec 64 → BitVec 64 → Memory → Memory

/-! ## The code -/

/-- What is pushed: a value, or a field of `struct callee_regs`. -/
inductive Item where
  | value (w : BitVec 64)
  | field (offset : Nat)

def Item.word (mem : Memory) (regs : BitVec 64) : Item → BitVec 64
  | value w => w
  | field offset => readWord mem (regs + BitVec.ofNat 64 offset)

/-- `*--stack = item` for each of the items. -/
def pushItems (regs : BitVec 64) : Memory → BitVec 64 → List Item → Memory × BitVec 64
  | mem, stack, [] => (mem, stack)
  | mem, stack, item :: rest =>
    pushItems regs (writeWord mem (stack - 8#64) (item.word mem regs)) (stack - 8#64) rest

def kthreadItems (k : Symbols) (entry : BitVec 64) : List Item :=
  [.value entry, .field 16, .value k.retFromKfork]

def userItems (k : Symbols) (e : Env) (entry : BitVec 64) : List Item :=
  [.value (0x20#64 ||| 3#64), .field 0, .value (e.rflags ||| 0x200#64), .value (0x28#64 ||| 3#64),
    .value entry,
   .value k.retFromUfork]

def savedItems : List Item := [.field 16, .field 8, .field 24, .field 32, .field 40, .field 48]

def newTask (e : Env) (parent : BitVec 64) (mem : Memory) : Memory :=
  let mem := writeBytes (e.kmalloc mem) e.task (List.replicate taskSize 0#8)
  let mem := writeWord mem (e.task + flagsOffset) (readWord mem (parent + flagsOffset))
  -- `atomic_inc_read32`
  let tid := read32 mem e.nextTid + 1#32
  let mem := write32 mem e.nextTid tid
  let mem := write32 mem (e.task + tidOffset) tid
  let mem := write32 mem (e.task + tgidOffset) (read32 mem (e.task + tidOffset))
  writeWord (e.pmmAllocOrder mem) (e.task + rspOriginalOffset) (kstackSize + e.stack)

def kthreadMmu (e : Env) (mem : Memory) : Memory :=
  let mem := writeWord mem (e.task + mmuOffset) e.kernelMmu
  writeWord mem (e.task + flagsOffset) (readWord mem (e.task + flagsOffset) ||| taskKthread)

def userMmu (e : Env) (parent cloneFlags : BitVec 64) (mem : Memory) : Memory :=
  let mem := writeWord mem (e.task + flagsOffset) (readWord mem (e.task + flagsOffset) &&& ~~~taskKthread)
  if cloneFlags &&& forkUthread ≠ 0#64 then
    let mem := e.mmuIncUsers (readWord mem (parent + mmuOffset)) mem
    writeWord mem (e.task + mmuOffset) (readWord mem (parent + mmuOffset))
  else
    let mem := writeWord (e.mmuAlloc mem) (e.task + mmuOffset) e.mmu
    e.mmuCloneCow (readWord mem (e.task + mmuOffset)) (readWord mem (parent + mmuOffset)) mem

def setStack (e : Env) (parent stack : BitVec 64) (mem : Memory) : Memory :=
  let mem := writeWord mem e.task stack
  let mem := write32 mem (e.task + affinityOffset) (read32 mem (parent + affinityOffset))
  write32 mem (e.task + stateOffset) taskNotStarted

def finishTask (e : Env) (parent regs : BitVec 64) (items : List Item) (mem : Memory) : Memory :=
  let (mem, stack) := pushItems regs mem (kstackSize + e.stack) items
  setStack e parent stack mem

def taskFork (k : Symbols) (e : Env) (mem : Memory) (parent entry cloneFlags regs : BitVec 64) :
    Except Fault (BitVec 64 × Memory) := do
  let parent := if parent = 0#64 then e.current else parent
  kassert (¬ (cloneFlags &&& forkKthread ≠ 0#64 ∧ cloneFlags &&& forkUthread ≠ 0#64))
    "!((clone_flags & FORK_KTHREAD) && (clone_flags & FORK_UTHREAD))"
  let mem := newTask e parent mem
  -- in both branches the pushes come last
  let (regs, mem, items) ←
    if cloneFlags &&& forkKthread ≠ 0#64 then
      pure (if regs = 0#64 then e.defaultRegs else regs, kthreadMmu e mem, kthreadItems k entry)
    else do
      kassert (regs ≠ 0#64) "regs != NULL"
      pure (regs, userMmu e parent cloneFlags mem, userItems k e entry)
  return (e.task, finishTask e parent regs (items ++ savedItems) mem)

/-- `syscall_fork` up to where it wakes the child up. There is none where it returns -1. -/
def syscallFork (k : Symbols) (e : Env) (mem : Memory) (flags regs returnAddr : BitVec 64) :
    Except Fault (Option (BitVec 64 × Memory)) := do
  if flags &&& taskKthread ≠ 0#64 then return none
  let child ← taskFork k e mem e.current returnAddr flags regs
  return some child

/-! ## The frame -/

/-- The struct that is passed is not written meanwhile, and the allocators gave places that are
apart from it and from each other. -/
structure Sound (e : Env) (regs : BitVec 64) : Prop where
  kmalloc : ∀ mem, Agree mem (e.kmalloc mem) regs 56
  pmmAllocOrder : ∀ mem, Agree mem (e.pmmAllocOrder mem) regs 56
  mmuAlloc : ∀ mem, Agree mem (e.mmuAlloc mem) regs 56
  mmuIncUsers : ∀ mmu mem, Agree mem (e.mmuIncUsers mmu mem) regs 56
  mmuCloneCow : ∀ child parent mem, Agree mem (e.mmuCloneCow child parent mem) regs 56
  regsTask : Apart regs 56 e.task taskSize
  regsTid : Apart regs 56 e.nextTid 4
  regsStack : Apart regs 56 e.stack 0x2000
  stackTask : Apart e.stack 0x2000 e.task taskSize

def CalleeRegs.read (mem : Memory) (regs : BitVec 64) : CalleeRegs :=
  ⟨readWord mem regs, readWord mem (regs + 8#64), readWord mem (regs + 16#64), readWord mem (regs + 24#64),
   readWord mem (regs + 32#64), readWord mem (regs + 40#64), readWord mem (regs + 48#64)⟩

variable {a stack cloneFlags frame : BitVec 64} {n : Nat} {items : List Item}

section Frame

variable {e : Env} {regs : BitVec 64} {mem : Memory}

theorem write32_keeps {b : BitVec 64} {value : BitVec 32} (apart : Apart a n b 4) :
    Agree mem (write32 mem b value) a n :=
  Agree.write (by rw [leBytes_length]; exact apart)

theorem newTask_keeps (s : Sound e regs) (parent : BitVec 64) (mem : Memory) :
    Agree mem (newTask e parent mem) regs 56 := by
  have zeroed : Apart regs 56 e.task (List.replicate taskSize 0#8).length := s.regsTask
  apply (s.kmalloc mem).trans
  apply (Agree.write zeroed).trans
  apply (writeWord (s.regsTask.part (i := 0x18) (m := 8) (by decide) (by decide))).trans
  apply (write32_keeps s.regsTid).trans
  apply (write32_keeps (s.regsTask.part (i := 0x24) (m := 4) (by decide) (by decide))).trans
  apply (write32_keeps (s.regsTask.part (i := 0x28) (m := 4) (by decide) (by decide))).trans
  apply (s.pmmAllocOrder _).trans
  exact writeWord (s.regsTask.part (i := 8) (m := 8) (by decide) (by decide))

theorem kthreadMmu_keeps (s : Sound e regs) (mem : Memory) : Agree mem (kthreadMmu e mem) regs 56 := by
  apply (writeWord (s.regsTask.part (i := 0x10) (m := 8) (by decide) (by decide))).trans
  exact writeWord (s.regsTask.part (i := 0x18) (m := 8) (by decide) (by decide))

theorem userMmu_keeps (s : Sound e regs) (parent cloneFlags : BitVec 64) (mem : Memory) :
    Agree mem (userMmu e parent cloneFlags mem) regs 56 := by
  have mmuField : Apart regs 56 (e.task + mmuOffset) 8 :=
    s.regsTask.part (i := 0x10) (m := 8) (by decide) (by decide)
  have flagsField : Apart regs 56 (e.task + flagsOffset) 8 :=
    s.regsTask.part (i := 0x18) (m := 8) (by decide) (by decide)
  simp only [userMmu]
  split
  · exact (writeWord flagsField).trans ((s.mmuIncUsers _ _).trans (writeWord mmuField))
  · exact (writeWord flagsField).trans
      ((s.mmuAlloc _).trans ((writeWord mmuField).trans (s.mmuCloneCow _ _ _)))

/-- The fields may be read before anything is pushed. -/
theorem pushItems_eq (fields : ∀ offset, .field offset ∈ items → offset + 8 ≤ 56)
    (apart : Apart regs 56 (stack - BitVec.ofNat 64 (8 * items.length)) (8 * items.length)) :
    pushItems regs mem stack items =
      (pushAll mem stack (items.map (Item.word mem regs)), stack - BitVec.ofNat 64 (8 * items.length)) := by
  induction items generalizing mem stack with
  | nil => simp [pushItems, pushAll]
  | cons item rest ih =>
    obtain ⟨first, others⟩ := apart.push
    let pushed := writeWord mem (stack - 8#64) (item.word mem regs)
    -- the other fields are read from the memory in which the first item is pushed
    have kept : Agree mem pushed regs 56 := writeWord first
    have tail : pushItems regs pushed (stack - 8#64) rest = _ :=
      ih (fun offset inside => fields offset (.tail _ inside)) others
    have same : rest.map (Item.word pushed regs) = rest.map (Item.word mem regs) := by
      apply List.map_congr_left
      intro other inside
      cases other with
      | value w => rfl
      | field offset => exact readWord_agree (kept.part (fields offset (.tail _ inside)))
    rw [same, sub_succ_words] at tail
    exact tail

theorem setStack_keeps (parent : BitVec 64) (apart : Apart a n e.task taskSize) :
    readWord (setStack e parent stack mem) e.task = stack ∧
      Agree mem (setStack e parent stack mem) a n := by
  have affinity : Apart e.task 8 (e.task + affinityOffset) 4 :=
    apart_field e.task (by decide) (by decide) (by decide)
  have state : Apart e.task 8 (e.task + stateOffset) 4 :=
    apart_field e.task (by decide) (by decide) (by decide)
  constructor
  · exact (readWord_agree ((write32_keeps affinity).trans (write32_keeps state))).trans
      (readWord_writeWord mem _ _)
  · apply Agree.trans (writeWord (apart.take (by decide) (by decide)))
    apply Agree.trans (write32_keeps (apart.part (i := 0x40) (m := 4) (by decide) (by decide)))
    exact write32_keeps (apart.part (i := 0x20) (m := 4) (by decide) (by decide))

structure Framed (mem : Memory) (e : Env) (words : List (BitVec 64)) : Prop where
  top : readWord mem e.task = kstackSize + e.stack - BitVec.ofNat 64 (8 * words.length)
  words : WordsAt mem (kstackSize + e.stack - BitVec.ofNat 64 (8 * words.length)) words

theorem finishTask_framed (s : Sound e regs)
    (fields : ∀ offset, .field offset ∈ items → offset + 8 ≤ 56) (some : 0 < items.length)
    (short : 8 * items.length ≤ 0x2000) (parent : BitVec 64) (mem : Memory) :
    Framed (finishTask e parent regs items mem) e (items.map (Item.word mem regs)).reverse := by
  have place : kstackSize + e.stack - BitVec.ofNat 64 (8 * items.length) =
      e.stack + BitVec.ofNat 64 (0x2000 - 8 * items.length) := by
    apply BitVec.eq_of_toNat_eq
    simp only [kstackSize, BitVec.toNat_sub, BitVec.toNat_add, BitVec.toNat_ofNat]
    omega
  have struct : Apart regs 56 (kstackSize + e.stack - BitVec.ofNat 64 (8 * items.length))
      (8 * items.length) := by
    rw [place]
    exact s.regsStack.part (by omega) (by omega)
  have task : Apart (kstackSize + e.stack - BitVec.ofNat 64 (8 * items.length))
      (8 * items.length) e.task taskSize := by
    rw [place]
    exact (s.stackTask.symm.part (by omega) (by omega)).symm
  have words : WordsAt (pushAll mem (kstackSize + e.stack) (items.map (Item.word mem regs))) _ _ :=
    pushAll_top mem (kstackSize + e.stack) (by rw [List.length_map]; omega)
  rw [List.length_map] at words
  rw [finishTask, pushItems_eq fields struct]
  obtain ⟨top, kept⟩ := setStack_keeps parent task
  have size : (items.map (Item.word mem regs)).reverse.length = items.length := by
    rw [List.length_reverse, List.length_map]
  constructor
  · rwa [size]
  · rw [size]
    exact words.agree (size.symm ▸ kept)

theorem CalleeRegs.read_agree {mem' : Memory} (agree : Agree mem mem' regs 56) :
    read mem' regs = read mem regs := by
  have field : ∀ offset, offset + 8 ≤ 56 →
      readWord mem' (regs + BitVec.ofNat 64 offset) = readWord mem (regs + BitVec.ofNat 64 offset) :=
    fun offset inside => readWord_agree (agree.part inside)
  have first : readWord mem' regs = readWord mem regs := readWord_agree (agree.take (by decide))
  rw [read, read, first, field 8 (by decide), field 16 (by decide), field 24 (by decide),
    field 32 (by decide), field 40 (by decide), field 48 (by decide)]

theorem CalleeRegs.read_eq {r : CalleeRegs} (words : WordsAt mem regs r.words) : read mem regs = r := by
  simp only [CalleeRegs.words, WordsAt, BitVec.add_assoc, BitVec.reduceAdd, and_true] at words
  obtain ⟨rsp, rbp, rbx, r12, r13, r14, r15⟩ := words
  rw [read, rsp, rbp, rbx, r12, r13, r14, r15]

def userWords (k : Symbols) (e : Env) (entry : BitVec 64) (r : CalleeRegs) : List (BitVec 64) :=
  r.saved ++ k.retFromUfork :: [entry, 0x2B#64, e.rflags ||| 0x200#64, r.rsp, 0x23#64]

def kthreadWords (k : Symbols) (entry : BitVec 64) (r : CalleeRegs) : List (BitVec 64) :=
  r.saved ++ k.retFromKfork :: [r.rbx, entry]

theorem taskFork_user (k : Symbols) (s : Sound e regs) (user : cloneFlags &&& forkKthread = 0#64)
    (nonnull : regs ≠ 0#64) (parent entry : BitVec 64) :
    ∃ mem', taskFork k e mem parent entry cloneFlags regs = .ok (e.task, mem') ∧
      Framed mem' e (userWords k e entry (CalleeRegs.read mem regs)) := by
  -- the memory that the items are pushed on
  let source := if parent = 0#64 then e.current else parent
  let mem₁ := userMmu e source cloneFlags (newTask e source mem)
  have kept : Agree mem mem₁ regs 56 :=
    (newTask_keeps s source mem).trans (userMmu_keeps s source cloneFlags _)
  have fields : ∀ offset, Item.field offset ∈ userItems k e entry ++ savedItems → offset + 8 ≤ 56 := by
    intro offset inside
    simp [userItems, savedItems] at inside
    omega
  have framed := finishTask_framed s fields Nat.succ_pos' (by simp [userItems, savedItems]) source mem₁
  refine ⟨finishTask e source regs (userItems k e entry ++ savedItems) mem₁, ?_, ?_⟩
  · simp [taskFork, kassert, user, nonnull, mem₁, source]
  · rw [← CalleeRegs.read_agree kept]
    simpa [userWords, userItems, savedItems, CalleeRegs.saved, CalleeRegs.read, Item.word] using framed

theorem taskFork_kthread (k : Symbols) (s : Sound e (if regs = 0#64 then e.defaultRegs else regs))
    (kthread : cloneFlags &&& forkKthread ≠ 0#64) (only : cloneFlags &&& forkUthread = 0#64)
    (parent entry : BitVec 64) :
    ∃ mem', taskFork k e mem parent entry cloneFlags regs = .ok (e.task, mem') ∧
      Framed mem' e
      (kthreadWords k entry (CalleeRegs.read mem (if regs = 0#64 then e.defaultRegs else regs))) := by
  let source := if parent = 0#64 then e.current else parent
  let mem₁ := kthreadMmu e (newTask e source mem)
  have kept : Agree mem mem₁ _ 56 := (newTask_keeps s source mem).trans (kthreadMmu_keeps s _)
  have fields : ∀ offset, Item.field offset ∈ kthreadItems k entry ++ savedItems → offset + 8 ≤ 56 := by
    intro offset inside
    simp [kthreadItems, savedItems] at inside
    omega
  have framed := finishTask_framed s fields Nat.succ_pos' (by simp [kthreadItems, savedItems]) source mem₁
  refine ⟨finishTask e source (if regs = 0#64 then e.defaultRegs else regs)
    (kthreadItems k entry ++ savedItems) mem₁, ?_, ?_⟩
  · simp [taskFork, kassert, kthread, only, mem₁, source]
  · rw [← CalleeRegs.read_agree kept]
    simpa [kthreadWords, kthreadItems, savedItems, CalleeRegs.saved, CalleeRegs.read, Item.word]
      using framed

end Frame

/-! ## The first switch to the task -/

/-- `switch_to` is called for the task when its stack pointer and the `n` bytes of its frame are
still as they were. -/
structure Resumes (k : Kernel) (mem : Memory) (task frame : BitVec 64) (n : Nat) (c : Cpu) : Prop where
  next : c.regs .rdi = task
  stackPointer : Agree mem c.mem task 8
  kept : Agree mem c.mem frame n
  switch : Switch k c frame n

structure Child (parent c : Cpu) : Prop where
  saved : ∀ q ∈ [.rbx, .rbp, .r12, .r13, .r14, .r15], c.regs q = parent.regs q
  rax : c.regs .rax = 0#64
  rsp : c.regs .rsp = if parent.regs .rsi = 0#64 then parent.regs .rsp else parent.regs .rsi
  cs : c.cs = 0x2B#16
  ss : c.ss = 0x23#16

section Start

variable {k : Kernel} {e : Env} {mem : Memory} {entry : BitVec 64} {r : CalleeRegs} {c parent : Cpu}

theorem Framed.switch_runs {back : BitVec 64} {rest : List (BitVec 64)}
    (framed : Framed mem e (r.saved ++ back :: rest))
    (size : n = 8 * (r.saved ++ back :: rest).length)
    (place : frame = kstackSize + e.stack - BitVec.ofNat 64 n) (resumes : Resumes k mem e.task frame n c) :
    ∃ c', k.program.Runs ⟨k.switchTo, c⟩ ⟨back, c'⟩ ∧ c'.Kernel ∧
      c'.regs .rsp = frame + 56#64 ∧ Restored r c' ∧ WordsAt c'.mem (frame + 56#64) rest := by
  subst size place
  have top : readWord c.mem (c.regs .rdi) = readWord mem e.task := by
    rw [resumes.next]
    exact readWord_agree resumes.stackPointer
  exact switchTo_runs resumes.switch (top.trans framed.top) (framed.words.agree resumes.kept)

theorem user_starts
    (framed : Framed mem e (userWords k.toSymbols e entry (CalleeRegs.ofCall parent)))
    (resumes : Resumes k mem e.task (kstackSize + e.stack - 96#64) 96 c) :
    ∃ c', k.program.Runs ⟨k.switchTo, c⟩ ⟨entry, c'⟩ ∧ Child parent c' := by
  obtain ⟨c₁, switched, kernel, stack, restored, words⟩ := framed.switch_runs rfl rfl resumes
  obtain ⟨c₂, returned, rax, rsp, cs, ss, same⟩ := retFromUfork_runs k kernel stack words
  have restored₂ := restored.kept same
  refine ⟨c₂, switched.trans returned, ?_, rax, rsp, cs, ss⟩
  simp [restored₂.rbx, restored₂.rbp, restored₂.r12, restored₂.r13, restored₂.r14, restored₂.r15,
    CalleeRegs.ofCall]

theorem kthread_starts (framed : Framed mem e (kthreadWords k.toSymbols entry r))
    (resumes : Resumes k mem e.task (kstackSize + e.stack - 72#64) 72 c) :
    ∃ c' back, k.program.Runs ⟨k.switchTo, c⟩ ⟨entry, c'⟩ ∧ c'.regs .rdi = r.rbx ∧
      readWord c'.mem (c'.regs .rsp) = back ∧ CodeAt k.program back (threadFinishedCode k.toSymbols) := by
  obtain ⟨c₁, switched, kernel, stack, -, words⟩ := framed.switch_runs rfl rfl resumes
  obtain ⟨c₂, back, called, rest⟩ := retFromKfork_runs k kernel stack words
  exact ⟨c₂, back, switched.trans called, rest⟩

/-- A forked child resumes with the registers of the fork system call, and a kernel thread is
called with the argument that was passed for it. -/
theorem forked_task_resumes (k : Kernel) :
    (∀ c current top, ForkCall c current top → ∃ c₁,
      k.program.Runs ⟨k.syscallEntry, c⟩ ⟨k.syscallFork, c₁⟩ ∧
      c₁.regs .rsi = top - 96#64 ∧ ∀ e mem, Agree c₁.mem mem (c₁.regs .rsi) 56 → Sound e (c₁.regs .rsi) →
      if c.regs .rdi &&& taskKthread ≠ 0#64 then
        syscallFork k.toSymbols e mem (c₁.regs .rdi) (c₁.regs .rsi) (c₁.regs .rdx) = .ok none
      else ∃ mem', syscallFork k.toSymbols e mem (c₁.regs .rdi) (c₁.regs .rsi) (c₁.regs .rdx) =
      .ok (some (e.task, mem')) ∧
        ∀ c₂, Resumes k mem' e.task (kstackSize + e.stack - 96#64) 96 c₂ →
          ∃ c₃, k.program.Runs ⟨k.switchTo, c₂⟩ ⟨c.regs .rcx, c₃⟩ ∧ Child c c₃) ∧
    (∀ e mem parent entry cloneFlags regs, Sound e (if regs = 0#64 then e.defaultRegs else regs) →
      readWord mem (e.defaultRegs + 16#64) = 0#64 →
      cloneFlags &&& forkKthread ≠ 0#64 → cloneFlags &&& forkUthread = 0#64 →
      ∃ mem', taskFork k.toSymbols e mem parent entry cloneFlags regs = .ok (e.task, mem') ∧
        ∀ c₂, Resumes k mem' e.task (kstackSize + e.stack - 72#64) 72 c₂ →
          ∃ c₃ back, k.program.Runs ⟨k.switchTo, c₂⟩ ⟨entry, c₃⟩ ∧
          c₃.regs .rdi = (if regs = 0#64 then 0#64 else readWord mem (regs + 16#64)) ∧
          readWord c₃.mem (c₃.regs .rsp) = back ∧
          CodeAt k.program back (threadFinishedCode k.toSymbols)) := by
  constructor
  · -- the struct on the parent's stack holds what the child is to start with
    intro c current top call
    obtain ⟨c₁, entered, rdi, rdx, rsi, words⟩ := syscallEntry_runs k call
    refine ⟨c₁, entered, rsi, ?_⟩
    intro e mem same sound
    rw [← rdi]
    by_cases user : c₁.regs .rdi &&& taskKthread = 0#64
    · rw [if_neg (not_not.mpr user)]
      have read : CalleeRegs.read mem (c₁.regs .rsi) = CalleeRegs.ofCall c := by
        rw [← rsi] at words
        exact CalleeRegs.read_eq (words.agree same)
      have nonnull : c₁.regs .rsi ≠ 0#64 := rsi ▸ call.nonnull
      obtain ⟨mem', forked, framed⟩ := taskFork_user k.toSymbols sound user nonnull e.current (c₁.regs .rdx)
      rw [read, rdx] at framed
      refine ⟨mem', ?_, fun c₂ resumes => user_starts framed resumes⟩
      simp [syscallFork, user, forked]
    · rw [if_pos user, syscallFork, if_pos user]
      rfl
  · intro e mem parent entry cloneFlags regs sound zero kthread only
    obtain ⟨mem', forked, framed⟩ := taskFork_kthread k.toSymbols sound kthread only parent entry
    refine ⟨mem', forked, ?_⟩
    intro c₂ resumes
    obtain ⟨c₃, back, runs, rdi, rest⟩ := kthread_starts framed resumes
    refine ⟨c₃, back, runs, ?_, rest⟩
    rw [rdi]
    by_cases null : regs = 0#64
    · rw [if_pos null, if_pos null]
      exact zero
    · rw [if_neg null, if_neg null]
      rfl

end Start

/-! A small machine on which a fork is run. -/

section Sample

def sampleSymbols : Symbols where
  syscallEntry := 0#64
  badSyscall := 16#64
  done := 17#64
  forkPath := 20#64
  syscallTable := 0x1000#64
  syscallFork := 0x2000#64
  switchTo := 40#64
  mmuSwitch := 0x3000#64
  retFromUfork := 65#64
  retFromKfork := 67#64
  taskExit := 0x4000#64

def sampleCode : List Instr :=
  syscallEntryCode sampleSymbols ++
    (badSyscallCode ++ (forkPathCode sampleSymbols ++ (switchToCode sampleSymbols ++
    (retFromUforkCode ++ retFromKforkCode sampleSymbols))))

def returnAtOnce (m : Machine) : Machine :=
  ⟨readWord m.cpu.mem (m.cpu.regs .rsp), m.cpu.set .rsp (m.cpu.regs .rsp + 8#64)⟩

def sampleContract (addr : BitVec 64) : Option (Machine → Machine) :=
  if addr = 0x3000#64 then some returnAtOnce else none

theorem returnAtOnce_abi : Abi returnAtOnce where
  rip _ := rfl
  rsp _ := by simp [returnAtOnce, Cpu.set]
  saved _ := by simp [switchSaved, returnAtOnce, Cpu.set]
  cs _ := rfl
  gsBase _ := rfl

def sampleKernel : Kernel where
  toSymbols := sampleSymbols
  program := .ofList sampleCode sampleContract
  syscallEntryAt := codeAt_ofList sampleContract [] (syscallEntryCode sampleSymbols) _ (by decide)
  badSyscallAt := codeAt_ofList sampleContract (syscallEntryCode sampleSymbols) badSyscallCode _ (by decide)
  doneAt := codeAt_ofList sampleContract (sampleCode.take 17) doneCode (sampleCode.drop 20) (by decide)
  forkPathAt :=
    codeAt_ofList sampleContract (sampleCode.take 20) (forkPathCode sampleSymbols)
      (sampleCode.drop 40) (by decide)
  switchToAt :=
    codeAt_ofList sampleContract (sampleCode.take 40) (switchToCode sampleSymbols)
      (sampleCode.drop 65) (by decide)
  retFromUforkAt :=
    codeAt_ofList sampleContract (sampleCode.take 65) retFromUforkCode (sampleCode.drop 67) (by decide)
  retFromKforkAt :=
    codeAt_ofList sampleContract (sampleCode.take 67) (retFromKforkCode sampleSymbols) [] (by decide)
  mmuSwitchFunction := returnAtOnce
  mmuSwitchCode := rfl
  mmuSwitchContract := rfl
  mmuSwitchAbi := returnAtOnce_abi

/-- The registers of a caller that forks without a child stack, at a return address of `0x401000`. -/
def sampleRegs : Reg → BitVec 64
  | .rax => 1#64
  | .rbx => 0xB1#64
  | .rcx => 0x401000#64
  | .rbp => 0x7FF0#64
  | .rsp => 0x7000#64
  | .r11 => 0x202#64
  | .r12 => 0xC2#64
  | .r13 => 0xC3#64
  | .r14 => 0xC4#64
  | .r15 => 0xC5#64
  | _ => 0#64

def sampleCall : Cpu where
  regs := sampleRegs
  mem := writeWord
    (writeWord (writeWord (fun _ => 0#8) 0x10000#64 0x20000#64) 0x20008#64 0x30000#64) 0x10010#64 0x40000#64
  flags := 2#64
  cs := 8#16
  ss := 0x10#16
  gsBase := 0x10000#64

theorem sampleCall_forks : ForkCall sampleCall 0x20000#64 0x30000#64 where
  kernel := rfl
  number := rfl
  isCurrent := by decide +kernel
  isTop := by decide +kernel
  nonnull := by decide
  scratchTask := ⟨by decide, by decide⟩
  scratchStack := ⟨by decide, by decide⟩

def sampleEnv : Env where
  current := 0x20000#64
  kernelMmu := 0x90000#64
  defaultRegs := 0x80000#64
  nextTid := 0x70000#64
  rflags := 2#64
  task := 0x50000#64
  kmalloc := id
  stack := 0x60000#64
  pmmAllocOrder := id
  mmu := 0x91000#64
  mmuAlloc := id
  mmuIncUsers _ := id
  mmuCloneCow _ _ := id

theorem sampleEnv_sound : Sound sampleEnv (0x30000#64 - 96#64) where
  kmalloc mem := .refl mem _ _
  pmmAllocOrder mem := .refl mem _ _
  mmuAlloc mem := .refl mem _ _
  mmuIncUsers _ mem := .refl mem _ _
  mmuCloneCow _ _ mem := .refl mem _ _
  regsTask := ⟨by decide, by decide⟩
  regsTid := ⟨by decide, by decide⟩
  regsStack := ⟨by decide, by decide⟩
  stackTask := ⟨by decide, by decide⟩

def sampleSwitch (mem : Memory) : Cpu := { sampleCall with
  regs := Function.update (Function.update sampleRegs .rdi 0x50000#64) .rsp 0x30000#64
  mem := writeWord (writeWord mem 0x10000#64 0x20000#64) 0x10010#64 0x40000#64 }

theorem sampleSwitch_resumes (mem : Memory) (stack : Apart frame n (0x30000#64 - 48#64) 48)
    (task : Apart frame n 0x20000#64 8) (percpu : Apart frame n 0x10000#64 0x20)
    (tss : Apart frame n 0x40004#64 8) :
    Resumes sampleKernel mem 0x50000#64 frame n (sampleSwitch mem) := by
  have isPrevious : previous (sampleSwitch mem) = 0x20000#64 := by
    have apart : Apart 0x10000#64 8 0x10010#64 8 := ⟨by decide, by decide⟩
    exact (readWord_agree (writeWord apart)).trans (readWord_writeWord mem _ _)
  have isTss : tssOf (sampleSwitch mem) = 0x40000#64 := readWord_writeWord _ _ _
  have currentSlot : Apart frame n 0x10000#64 8 := percpu.take (by decide) (by decide)
  have tssSlot : Apart frame n 0x10010#64 8 := percpu.part (i := 0x10) (by decide) (by decide)
  refine ⟨rfl, ?_, (writeWord currentSlot).trans (writeWord tssSlot), ?_⟩
  · have first : Apart 0x50000#64 8 0x10000#64 8 := ⟨by decide, by decide⟩
    have second : Apart 0x50000#64 8 0x10010#64 8 := ⟨by decide, by decide⟩
    exact (writeWord first).trans (writeWord second)
  · have kernel : Cpu.Kernel sampleCall := rfl
    have percpuStack : Apart 0x10000#64 0x20 (0x30000#64 - 48#64) 48 := ⟨by decide, by decide⟩
    have percpuPrevious : Apart 0x10000#64 0x20 0x20000#64 8 := ⟨by decide, by decide⟩
    have nextStack : Apart 0x50000#64 8 (0x30000#64 - 48#64) 48 := ⟨by decide, by decide⟩
    have nextPrevious : Apart 0x50000#64 8 0x20000#64 8 := ⟨by decide, by decide⟩
    refine ⟨kernel, percpuStack, ?_, nextStack, ?_, stack, ?_, percpu, ?_,
      fun m _ => Agree.refl m.cpu.mem _ _⟩
    · rwa [isPrevious]
    · rwa [isPrevious]
    · rwa [isPrevious]
    · rwa [isTss]

theorem forked_task_resumes_sample :
    (∃ c₁ mem' c₃, sampleKernel.program.Runs ⟨0#64, sampleCall⟩ ⟨0x2000#64, c₁⟩ ∧
      syscallFork sampleSymbols sampleEnv c₁.mem (c₁.regs .rdi) (c₁.regs .rsi) (c₁.regs .rdx) =
      .ok (some (0x50000#64, mem')) ∧
      sampleKernel.program.Runs ⟨40#64, sampleSwitch mem'⟩ ⟨0x401000#64, c₃⟩ ∧ Child sampleCall c₃) ∧
    (∃ mem' c₃, taskFork sampleSymbols sampleEnv
        (writeWord (fun _ => 0#8) (0x30000#64 - 96#64 + 16#64) 7#64) 0#64 0x5000#64
        forkKthread (0x30000#64 - 96#64) = .ok (0x50000#64, mem') ∧
      sampleKernel.program.Runs ⟨40#64, sampleSwitch mem'⟩ ⟨0x5000#64, c₃⟩ ∧ c₃.regs .rdi = 7#64) := by
  obtain ⟨user, kthread⟩ := forked_task_resumes sampleKernel
  constructor
  · obtain ⟨c₁, entered, rsi, forks⟩ := user sampleCall _ _ sampleCall_forks
    have allowed : ¬ sampleCall.regs .rdi &&& taskKthread ≠ 0#64 := by decide
    have forks := forks sampleEnv c₁.mem (.refl _ _ _) (rsi ▸ sampleEnv_sound)
    rw [if_neg allowed] at forks
    obtain ⟨mem', forked, starts⟩ := forks
    have resumes : Resumes sampleKernel mem' _ (kstackSize + sampleEnv.stack - 96#64) 96 _ :=
      sampleSwitch_resumes mem'
      ⟨by decide, by decide⟩ ⟨by decide, by decide⟩ ⟨by decide, by decide⟩ ⟨by decide, by decide⟩
    obtain ⟨c₃, runs, child⟩ := starts _ resumes
    exact ⟨c₁, mem', c₃, entered, forked, runs, child⟩
  · obtain ⟨mem', forked, starts⟩ :=
      kthread sampleEnv (writeWord (fun _ => 0#8) (0x30000#64 - 96#64 + 16#64) 7#64) 0#64 0x5000#64
      forkKthread (0x30000#64 - 96#64) sampleEnv_sound (by decide +kernel) (by decide) (by decide)
    have resumes : Resumes sampleKernel mem' _ (kstackSize + sampleEnv.stack - 72#64) 72 _ :=
      sampleSwitch_resumes mem'
      ⟨by decide, by decide⟩ ⟨by decide, by decide⟩ ⟨by decide, by decide⟩ ⟨by decide, by decide⟩
    obtain ⟨c₃, back, runs, rdi, -⟩ := starts _ resumes
    refine ⟨mem', c₃, forked, runs, rdi.trans ?_⟩
    exact readWord_writeWord _ _ _

end Sample

end ByteOS.Proc.Fork
