import ByteOS.Lib.Amd64

/-! The assembly code that a forked task goes through: `syscall_entry` of
`kernel/syscall/syscall.asm`, `switch_to` of `kernel/proc/switch_to.asm` and the returns of
`kernel/proc/fork.asm`.

The code may be anywhere in memory. Each piece is run once, from its label to the function or
label that it leaves to, for any registers and any memory in which the places that it reads
and writes are apart.
-/

set_option autoImplicit false

namespace ByteOS.Proc.Fork

open Lib Lib.Amd64
open Function (update update_self update_of_ne)

structure Symbols where
  syscallEntry : BitVec 64
  badSyscall : BitVec 64
  done : BitVec 64
  forkPath : BitVec 64
  syscallTable : BitVec 64
  syscallFork : BitVec 64
  switchTo : BitVec 64
  mmuSwitch : BitVec 64
  retFromUfork : BitVec 64
  retFromKfork : BitVec 64
  taskExit : BitVec 64

def numSyscalls : BitVec 64 := 4#64
def syscallForkNumber : BitVec 64 := 1#64
def enosys : BitVec 64 := 0xFFFFFFFFFFFFFFFF#64
def userData : BitVec 64 := 0x20#64 ||| 3#64
def userCode : BitVec 64 := 0x28#64 ||| 3#64

/-- Offsets from the base of `gs`. -/
def percpuCurrent : Ref := .gs 0#64
def percpuRspScratch : Ref := .gs 8#64
def percpuTss : Ref := .gs 0x10#64
def percpuPreemptCount : Ref := .gs 0x18#64

def pushes (rs : List Reg) : List Op := rs.map fun r => .push (.reg r)

def pops (rs : List Reg) : List Op := rs.map .pop

/-! ## The code -/

def toKernelStack : List Op :=
  -- `rsp_original` of the current task
  [.store percpuRspScratch .rsp, .mov .rsp (.mem percpuCurrent), .mov .rsp (.mem (.base .rsp 8#64))]

def simulatedFrame : List Op :=
  -- ss, rsp, rflags, cs and rip, as an interrupt would have left them
  [.push (.imm userData), .push (.mem percpuRspScratch), .push (.reg .r11), .push (.imm userCode),
    .push (.reg .rcx)]

def entryOps : List Op := toKernelStack ++ (simulatedFrame ++ [.sti, .cmp .rax numSyscalls])

def syscallEntryCode (k : Symbols) : List Instr :=
  entryOps.map .op ++
  .jump (.jae k.badSyscall) ::
  .op (.cmp .rax syscallForkNumber) ::
  .jump (.je k.forkPath) ::
  .op (.mov .rax (.mem (.table k.syscallTable .rax))) ::
  .jump (.callReg .rax) ::
  .jump (.jmp k.done) :: []

def doneCode : List Instr := [.op (.xor .rcx .rcx), .op (.xor .r11 .r11), .jump .iretq]

def badSyscallCode : List Instr := .op (.mov .rax (.imm enosys)) :: doneCode

/-- `struct callee_regs` from its last field to its first. -/
def forkSaved : List Reg := [.r15, .r14, .r13, .r12, .rbx, .rbp, .rsi]

def forkOps : List Op :=
  .test .rsi .rsi :: .cmovz .rsi (.base .rsp 24#64) ::
    (pushes forkSaved ++ [.mov .rsi (.reg .rsp), .mov .rdx (.reg .rcx)])

def forkPathCode (k : Symbols) : List Instr :=
  forkOps.map .op ++
  .jump (.call k.syscallFork) ::
  ((.add .rsp 8#64 :: pops [.rbp, .rbx, .r12, .r13, .r14, .r15]).map .op ++
  .jump (.jmp k.done) :: [])

def switchSaved : List Reg := [.rbx, .rbp, .r12, .r13, .r14, .r15]

def toNextTask : List Op :=
  -- `rsp_top` of both tasks
  [.mov .rax (.mem percpuCurrent), .store (.base .rax 0#64) .rsp, .mov .rsp (.mem (.base .rdi 0#64)),
   .mov .rsi (.mem percpuCurrent), .store percpuCurrent .rdi,
   -- the stack for interrupts from user mode
   .mov .rax (.mem percpuTss), .mov .rcx (.mem (.base .rdi 8#64)), .store (.base .rax 4#64) .rcx,
   -- the arguments of `mmu_switch`
   .mov .rdi (.mem (.base .rdi 0x10#64)), .mov .rsi (.mem (.base .rsi 0x10#64))]

def switchToCode (k : Symbols) : List Instr :=
  (pushes switchSaved ++ toNextTask).map .op ++
  .jump (.call k.mmuSwitch) ::
  ((.lockDec percpuPreemptCount :: pops switchSaved.reverse).map .op ++
  .jump .ret :: [])

def retFromUforkCode : List Instr := [.op (.mov .rax (.imm 0#64)), .jump .iretq]

def threadFinishedCode (k : Symbols) : List Instr :=
  [.op (.mov .rdi (.mem percpuCurrent)), .op (.mov .rsi (.imm 0#64)), .jump (.call k.taskExit)]

def retFromKforkCode (k : Symbols) : List Instr :=
  .op (.pop .rdi) :: .op (.pop .rax) :: .jump (.callReg .rax) :: threadFinishedCode k

/-- What a C function keeps for its caller, apart from memory. -/
structure Abi (function : Machine → Machine) : Prop where
  rip : ∀ m, (function m).rip = readWord m.cpu.mem (m.cpu.regs .rsp)
  rsp : ∀ m, (function m).cpu.regs .rsp = m.cpu.regs .rsp + 8#64
  saved : ∀ m, ∀ r ∈ switchSaved, (function m).cpu.regs r = m.cpu.regs r
  cs : ∀ m, (function m).cpu.cs = m.cpu.cs
  gsBase : ∀ m, (function m).cpu.gsBase = m.cpu.gsBase

/-- A kernel with this code, and with some `mmu_switch`. -/
structure Kernel extends Symbols where
  program : Program
  syscallEntryAt : CodeAt program syscallEntry (syscallEntryCode toSymbols)
  badSyscallAt : CodeAt program badSyscall badSyscallCode
  doneAt : CodeAt program done doneCode
  forkPathAt : CodeAt program forkPath (forkPathCode toSymbols)
  switchToAt : CodeAt program switchTo (switchToCode toSymbols)
  retFromUforkAt : CodeAt program retFromUfork retFromUforkCode
  retFromKforkAt : CodeAt program retFromKfork (retFromKforkCode toSymbols)
  mmuSwitchFunction : Machine → Machine
  mmuSwitchCode : program.code mmuSwitch = none
  mmuSwitchContract : program.contract mmuSwitch = some mmuSwitchFunction
  mmuSwitchAbi : Abi mmuSwitchFunction

/-- A called function returns behind its call, with what it keeps and with the bytes above the return address. -/
theorem Abi.call_runs {p : Program} {function : Machine → Machine} {target next : BitVec 64}
    {c : Cpu} {n : Nat} (abi : Abi function) (external : p.code target = none)
    (contract : p.contract target = some function) (kernel : c.Kernel) (short : n + 8 ≤ 2 ^ 64)
    (keeps : Agree (c.push next).mem (function ⟨target, c.push next⟩).cpu.mem (c.regs .rsp) n) :
    ∃ c', c' = (function ⟨target, c.push next⟩).cpu ∧ p.Runs ⟨target, c.push next⟩ ⟨next, c'⟩ ∧ c'.Kernel ∧
      c'.regs .rsp = c.regs .rsp ∧ (∀ q ∈ switchSaved, c'.regs q = c.regs q) ∧ c'.gsBase = c.gsBase ∧
      Agree c.mem c'.mem (c.regs .rsp) n := by
  have back : readWord (c.push next).mem ((c.push next).regs .rsp) = next := by
    simp [Cpu.push, Cpu.set, Cpu.write]
  have below : (c.push next).regs .rsp = c.regs .rsp - 8#64 := by simp [Cpu.push, Cpu.set, Cpu.write]
  have saved : ∀ q ∈ switchSaved, (c.push next).regs q = c.regs q := by
    simp [switchSaved, Cpu.push, Cpu.set, Cpu.write]
  have pushed : Agree c.mem (c.push next).mem (c.regs .rsp) n := Agree.writeWord (apart_below _ short)
  have same : (c.push next).cs = c.cs ∧ (c.push next).gsBase = c.gsBase := ⟨rfl, rfl⟩
  generalize c.push next = h at *
  have kernel' : h.Kernel := by
    rw [Cpu.Kernel, same.1]
    exact kernel
  have returned := runs_contract kernel' external contract
  have rip := abi.rip ⟨target, h⟩
  have rspKept := abi.rsp ⟨target, h⟩
  have savedKept := abi.saved ⟨target, h⟩
  have cs := abi.cs ⟨target, h⟩
  have gsBase := abi.gsBase ⟨target, h⟩
  generalize function ⟨target, h⟩ = r at *
  obtain rfl : r.rip = next := rip.trans back
  refine ⟨r.cpu, rfl, returned, ?_, rspKept.trans (by rw [below, BitVec.sub_add_cancel]), ?_,
    gsBase.trans same.2, pushed.trans keeps⟩
  · rw [Cpu.Kernel, cs]
    exact kernel'
  · intro q member
    rw [savedKept q member, saved q member]

/-! ## From the system call to `syscall_fork` -/

/-- A fork system call: the kernel is entered with the registers of the user. The places that
`syscall_entry` writes are apart from those that it reads. -/
structure ForkCall (c : Cpu) (current top : BitVec 64) : Prop where
  kernel : c.Kernel
  number : c.regs .rax = syscallForkNumber
  isCurrent : readWord c.mem c.gsBase = current
  isTop : readWord c.mem (current + 8#64) = top
  nonnull : top - 96#64 ≠ 0#64
  scratchTask : Apart (current + 8#64) 8 (c.gsBase + 8#64) 8
  scratchStack : Apart (c.gsBase + 8#64) 8 (top - 104#64) 104

def childRsp (c : Cpu) : BitVec 64 := if c.regs .rsi = 0#64 then c.regs .rsp else c.regs .rsi

section Entry

variable {c : Cpu} {current top : BitVec 64}

theorem runAll_append (first second : List Op) (c : Cpu) :
    runAll (first ++ second) c = runAll second (runAll first c) :=
  List.foldl_append

theorem toKernelStack_run (isCurrent : readWord c.mem c.gsBase = current)
    (isTop : readWord c.mem (current + 8#64) = top)
    (scratchTask : Apart (current + 8#64) 8 (c.gsBase + 8#64) 8) : runAll toKernelStack c =
    { c with mem := writeWord c.mem (c.gsBase + 8#64) (c.regs .rsp), regs := update c.regs .rsp top } := by
  have apart : Apart c.gsBase 8 (c.gsBase + 8#64) 8 :=
    apart_field c.gsBase (by decide) (by decide) (by decide)
  have task : readWord (writeWord c.mem (c.gsBase + 8#64) (c.regs .rsp)) c.gsBase = current :=
    (readWord_agree (Agree.writeWord apart)).trans isCurrent
  have stack : readWord (writeWord c.mem (c.gsBase + 8#64) (c.regs .rsp)) (current + 8#64) = top :=
    (readWord_agree (Agree.writeWord scratchTask)).trans isTop
  simp only [runAll, toKernelStack, List.foldl_cons, List.foldl_nil, Op.run, Ref.addr, Src.value,
    percpuRspScratch,
    percpuCurrent, Cpu.set, Cpu.write, BitVec.add_zero, task, update_self, stack, Function.update_idem]

variable {userRsp : BitVec 64}

theorem simulatedFrame_run (stack : c.regs .rsp = top)
    (scratch : readWord c.mem (c.gsBase + 8#64) = userRsp)
    (apart : Apart (c.gsBase + 8#64) 8 (top - 104#64) 104) :
    runAll simulatedFrame c = { c with
      mem := pushAll c.mem top [userData, userRsp, c.regs .r11, userCode, c.regs .rcx]
      regs := update c.regs .rsp (top - 40#64) } := by
  -- the scratch word is read behind the first push
  have below : Apart (c.gsBase + 8#64) 8 (top - 8#64) 8 := by
    have part := apart.part (i := 96) (m := 8) (by decide) (by decide)
    have place : top - 104#64 + BitVec.ofNat 64 96 = top - 8#64 := by bv_omega
    rwa [place] at part
  have kept : readWord (writeWord c.mem (top - 8#64) userData) (c.gsBase + 8#64) = userRsp :=
    (readWord_agree (Agree.writeWord below)).trans scratch
  have place : top - 8#64 - 8#64 - 8#64 - 8#64 - 8#64 = top - 40#64 := by bv_omega
  simp [runAll, simulatedFrame, Op.run, Ref.addr, Src.value, percpuRspScratch, Cpu.push, Cpu.set,
    Cpu.write, stack, kept, pushAll, place, Function.update_idem]

@[simp] theorem zero_setFlags (c : Cpu) (zero carry : Bool) : (c.setFlags zero carry).zero = zero := by
  cases zero <;> cases carry <;> simp [Cpu.zero, Cpu.setFlags]

@[simp] theorem carry_setFlags (c : Cpu) (zero carry : Bool) : (c.setFlags zero carry).carry = carry := by
  cases zero <;> cases carry <;> simp [Cpu.carry, Cpu.setFlags]

theorem childRsp_run (read : readWord c.mem (c.regs .rsp + 24#64) = userRsp) :
    ∃ flags, runAll [.test .rsi .rsi, .cmovz .rsi (.base .rsp 24#64)] c = { c with
      flags := flags, regs :=
  update c.regs .rsi (if c.regs .rsi = 0#64 then userRsp else c.regs .rsi) } := by
  refine ⟨(c.setFlags (c.regs .rsi = 0#64) false).flags, ?_⟩
  simp only [runAll, List.foldl_cons, List.foldl_nil, Op.run, BitVec.and_self, zero_setFlags]
  by_cases none : c.regs .rsi = 0#64
  · rw [if_pos (decide_eq_true none), if_pos none, ← read]
    rfl
  · rw [if_neg (by simpa using none), if_neg none, Function.update_eq_self]
    rfl

/-- The struct that is passed to `syscall_fork`. -/
structure CalleeRegs where
  rsp : BitVec 64
  rbp : BitVec 64
  rbx : BitVec 64
  r12 : BitVec 64
  r13 : BitVec 64
  r14 : BitVec 64
  r15 : BitVec 64

def CalleeRegs.words (r : CalleeRegs) : List (BitVec 64) :=
  [r.rsp, r.rbp, r.rbx, r.r12, r.r13, r.r14, r.r15]

def CalleeRegs.ofCall (c : Cpu) : CalleeRegs :=
  ⟨childRsp c, c.regs .rbp, c.regs .rbx, c.regs .r12, c.regs .r13, c.regs .r14, c.regs .r15⟩

def enteredMem (c : Cpu) (top : BitVec 64) : Memory :=
  pushAll (writeWord c.mem (c.gsBase + 8#64) (c.regs .rsp)) top
    [userData, c.regs .rsp, c.regs .r11, userCode, c.regs .rcx]

theorem syscallEntered_run (isCurrent : readWord c.mem c.gsBase = current)
    (isTop : readWord c.mem (current + 8#64) = top)
    (scratchTask : Apart (current + 8#64) 8 (c.gsBase + 8#64) 8)
    (scratchStack : Apart (c.gsBase + 8#64) 8 (top - 104#64) 104) :
    ∃ flags, runAll entryOps c = Cpu.setFlags { c with
    mem := enteredMem c top, regs := update c.regs .rsp (top - 40#64), flags := flags }
    (c.regs .rax = numSyscalls) (c.regs .rax < numSyscalls) := by
  have frame := simulatedFrame_run (c := { c with
    mem := writeWord c.mem (c.gsBase + 8#64) (c.regs .rsp), regs := update c.regs .rsp top })
    (by simp) (readWord_writeWord _ _ _) scratchStack
  refine ⟨c.flags ||| 0x200#64, ?_⟩
  rw [entryOps, runAll_append, runAll_append, toKernelStack_run isCurrent isTop scratchTask, frame]
  simp [runAll, Op.run, enteredMem, Function.update_idem]

theorem entryOps_run (call : ForkCall c current top) : ∃ flags, runAll entryOps c = Cpu.setFlags { c with
    mem := enteredMem c top, regs := update c.regs .rsp (top - 40#64), flags := flags } false true := by
  obtain ⟨flags, entered⟩ := syscallEntered_run call.isCurrent call.isTop call.scratchTask call.scratchStack
  refine ⟨flags, ?_⟩
  rw [entered, call.number]
  rfl

theorem enteredMem_words (c : Cpu) (top : BitVec 64) :
    WordsAt (enteredMem c top) (top - 40#64) [c.regs .rcx, userCode, c.regs .r11, c.regs .rsp, userData] :=
  pushAll_top _ top (by simp)

theorem forkOps_run {sp : BitVec 64} (stack : c.regs .rsp = sp)
    (read : readWord c.mem (sp + 24#64) = userRsp) : ∃ c', runAll forkOps c = c' ∧
      c'.mem = pushAll c.mem sp [c.regs .r15, c.regs .r14, c.regs .r13, c.regs .r12, c.regs .rbx,
        c.regs .rbp,
        if c.regs .rsi = 0#64 then userRsp else c.regs .rsi] ∧
      c'.regs .rdi = c.regs .rdi ∧ c'.regs .rdx = c.regs .rcx ∧ c'.regs .rsi = sp - 56#64 ∧
      c'.regs .rsp = sp - 56#64 := by
  subst stack
  obtain ⟨flags, chosen⟩ := childRsp_run read
  have others : Reg.rsp ∉ forkSaved := by decide
  have saved := runAll_pushes others (c := { c with
    flags := flags, regs := update c.regs .rsi (if c.regs .rsi = 0#64 then userRsp else c.regs .rsi) })
  have split : forkOps = [.test .rsi .rsi, .cmovz .rsi (.base .rsp 24#64)] ++
      (forkSaved.map (fun r => .push (.reg r)) ++ [.mov .rsi (.reg .rsp), .mov .rdx (.reg .rcx)]) := rfl
  refine ⟨_, rfl, ?_⟩
  rw [split, runAll_append, runAll_append, chosen, saved]
  simp [runAll, Op.run, Src.value, Cpu.set, forkSaved]

theorem forkPath_reached (k : Kernel) (call : ForkCall c current top) : ∃ c',
    k.program.Runs ⟨k.syscallEntry, c⟩ ⟨k.forkPath, c'⟩ ∧ c'.Kernel ∧ c'.mem = enteredMem c top ∧
      c'.regs = update c.regs .rsp (top - 40#64) := by
  obtain ⟨flags, entered⟩ := entryOps_run call
  obtain ⟨next, code, valid⟩ := runs_block call.kernel k.syscallEntryAt
  rw [entered] at valid
  generalize compared : Cpu.mk (update c.regs .rsp (top - 40#64))
    (enteredMem c top) flags c.cs c.ss c.gsBase = c₁ at valid
  have kernel : c₁.Kernel := compared ▸ call.kernel
  -- it is a valid one
  rw [Jump.run, carry_setFlags, if_pos rfl] at valid
  -- it is that of a fork
  have second : CodeAt k.program next
      (List.map .op [.cmp .rax syscallForkNumber] ++ .jump (.je k.forkPath) :: _) := code
  obtain ⟨next', -, isFork⟩ := runs_block (c := c₁.setFlags false true) kernel second
  have number : c₁.regs .rax = syscallForkNumber := by
    rw [← compared]
    simpa using call.number
  have equal : runAll [.cmp .rax syscallForkNumber] (c₁.setFlags false true) =
      (c₁.setFlags false true).setFlags true false := by
    simp [runAll, Op.run, Cpu.setFlags, number]
  rw [equal, Jump.run, zero_setFlags, if_pos rfl] at isFork
  refine ⟨_, valid.trans isFork, kernel, ?_, ?_⟩
  · rw [← compared]
    rfl
  · rw [← compared]
    rfl

theorem forkPath_runs (k : Kernel) {sp : BitVec 64} (kernel : c.Kernel) (stack : c.regs .rsp = sp)
    (read : readWord c.mem (sp + 24#64) = userRsp) : ∃ c',
    k.program.Runs ⟨k.forkPath, c⟩ ⟨k.syscallFork, c'⟩ ∧ c'.regs .rdi = c.regs .rdi ∧
      c'.regs .rdx = c.regs .rcx ∧ c'.regs .rsi = sp - 56#64 ∧ WordsAt c'.mem (sp - 56#64)
        [if c.regs .rsi = 0#64 then userRsp else c.regs .rsi, c.regs .rbp, c.regs .rbx, c.regs .r12,
          c.regs .r13,
          c.regs .r14, c.regs .r15] := by
  obtain ⟨c₁, saved, mem, rdi, rdx, rsi, rsp⟩ := forkOps_run stack read
  obtain ⟨next, -, toCall⟩ := runs_block kernel k.forkPathAt
  rw [saved] at toCall
  have words : WordsAt c₁.mem (sp - 56#64) _ := mem ▸ pushAll_top c.mem sp (by simp)
  refine ⟨c₁.push next, toCall, ?_, ?_, ?_, ?_⟩
  · simpa [Cpu.push, Cpu.set, Cpu.write] using rdi
  · simpa [Cpu.push, Cpu.set, Cpu.write] using rdx
  · simpa [Cpu.push, Cpu.set, Cpu.write] using rsi
  · apply WordsAt.agree words
    apply Agree.writeWord
    rw [rsp]
    exact apart_below _ (by simp)

/-- `syscall_entry` calls `syscall_fork` with the flags and the return address of the user and
with the registers that the child gets. -/
theorem syscallEntry_runs (k : Kernel) (call : ForkCall c current top) : ∃ c',
    k.program.Runs ⟨k.syscallEntry, c⟩ ⟨k.syscallFork, c'⟩ ∧ c'.regs .rdi = c.regs .rdi ∧
      c'.regs .rdx = c.regs .rcx ∧
      c'.regs .rsi = top - 96#64 ∧ WordsAt c'.mem (top - 96#64) (CalleeRegs.ofCall c).words := by
  obtain ⟨c₁, toFork, kernel, mem, regs⟩ := forkPath_reached k call
  have userRsp : readWord c₁.mem (top - 40#64 + 24#64) = c.regs .rsp := by
    have words := enteredMem_words c top
    rw [← mem] at words
    have fourth := words.2.2.2.1
    rwa [BitVec.add_assoc, BitVec.add_assoc] at fourth
  have stack : c₁.regs .rsp = top - 40#64 := by rw [regs, update_self]
  have others : ∀ r, r ≠ .rsp → c₁.regs r = c.regs r := by
    intro r other
    rw [regs, update_of_ne other]
  obtain ⟨c₂, toCall, rdi, rdx, rsi, words⟩ := forkPath_runs k kernel stack userRsp
  have place : top - 40#64 - 56#64 = top - 96#64 := by bv_omega
  rw [place] at rsi words
  refine ⟨c₂, toFork.trans toCall, ?_, ?_, rsi, ?_⟩
  · rw [rdi, others _ (by decide)]
  · rw [rdx, others _ (by decide)]
  · simpa [regs, CalleeRegs.words, CalleeRegs.ofCall, childRsp] using words

end Entry

/-! ## From `switch_to` to the task -/

def previous (c : Cpu) : BitVec 64 := readWord c.mem c.gsBase

def tssOf (c : Cpu) : BitVec 64 := readWord c.mem (c.gsBase + 0x10#64)

/-- `switch_to` is called in kernel mode. The places that it and `mmu_switch` write are apart from
those that are read later, of which the last are the `n` bytes of the frame that it resumes. -/
structure Switch (k : Kernel) (c : Cpu) (frame : BitVec 64) (n : Nat) : Prop where
  kernel : c.Kernel
  percpuStack : Apart c.gsBase 0x20 (c.regs .rsp - 48#64) 48
  percpuPrevious : Apart c.gsBase 0x20 (previous c) 8
  nextStack : Apart (c.regs .rdi) 8 (c.regs .rsp - 48#64) 48
  nextPrevious : Apart (c.regs .rdi) 8 (previous c) 8
  frameStack : Apart frame n (c.regs .rsp - 48#64) 48
  framePrevious : Apart frame n (previous c) 8
  framePercpu : Apart frame n c.gsBase 0x20
  frameTss : Apart frame n (tssOf c + 4#64) 8
  mmuSwitch : ∀ m, m.cpu.regs .rsp = frame - 8#64 → Agree m.cpu.mem (k.mmuSwitchFunction m).cpu.mem frame n

section SwitchTo

variable {k : Kernel} {c : Cpu} {frame : BitVec 64} {n : Nat}

theorem toNextTask_run {prev tss : BitVec 64} (isPrevious : readWord c.mem c.gsBase = prev)
    (next : readWord (writeWord c.mem prev (c.regs .rsp)) (c.regs .rdi) = frame)
    (isTss : readWord (writeWord (writeWord c.mem prev (c.regs .rsp)) c.gsBase (c.regs .rdi))
      (c.gsBase + 0x10#64) = tss) :
    (runAll toNextTask c).regs .rsp = frame ∧ ∃ top, (runAll toNextTask c).mem =
      writeWord (writeWord (writeWord c.mem prev (c.regs .rsp)) c.gsBase (c.regs .rdi))
      (tss + 4#64) top := by
  simp [runAll, toNextTask, Op.run, Ref.addr, Src.value, percpuCurrent, percpuTss, Cpu.set,
    Cpu.write, isPrevious, next, isTss]

/-- The stack of a task that calls `switch_to`, with its registers pushed. -/
def saved (c : Cpu) : Memory := pushAll c.mem (c.regs .rsp) (switchSaved.map c.regs)

/-- Up to the call of `mmu_switch`, the stack pointer is stored to the previous task, the next
task to the CPU, and the top of its stack to the TSS. -/
theorem leave_run (stack : Apart c.gsBase 0x20 (c.regs .rsp - 48#64) 48)
    (task : Apart c.gsBase 0x20 (previous c) 8) :
    (runAll (pushes switchSaved ++ toNextTask) c).regs .rsp =
        readWord (writeWord (saved c) (previous c) (c.regs .rsp - 48#64)) (c.regs .rdi) ∧
      ∃ top, (runAll (pushes switchSaved ++ toNextTask) c).mem =
        writeWord (writeWord (writeWord (saved c) (previous c) (c.regs .rsp - 48#64)) c.gsBase
          (c.regs .rdi))
          (tssOf c + 4#64) top := by
  have others : Reg.rsp ∉ switchSaved := by decide
  have pushed : runAll (pushes switchSaved) c =
      { c with mem := saved c, regs := update c.regs .rsp (c.regs .rsp - 48#64) } := runAll_pushes others
  have percpu : Agree c.mem (saved c) c.gsBase 0x20 := pushAll_agree stack
  have isPrevious : readWord (saved c) c.gsBase = previous c := readWord_agree (percpu.take (by decide))
  have slot : Apart (c.gsBase + 0x10#64) 8 c.gsBase 8 :=
    (apart_field c.gsBase (by decide) (by decide) (by decide)).symm
  have tss : Agree c.mem (writeWord (saved c) (previous c) (c.regs .rsp - 48#64)) (c.gsBase + 0x10#64) 8 :=
    (percpu.trans (Agree.writeWord task)).part (i := 0x10) (m := 8) (by decide)
  have isTss := readWord_agree (tss.trans (Agree.writeWord (w := c.regs .rdi) slot))
  rw [runAll_append, pushed]
  simpa [tssOf] using toNextTask_run
    (c := { c with mem := saved c, regs := update c.regs .rsp (c.regs .rsp - 48#64) })
    isPrevious rfl (by simpa using isTss)

theorem toNextTask_keeps (s : Switch k c frame n) (top : readWord c.mem (c.regs .rdi) = frame) :
    (runAll (pushes switchSaved ++ toNextTask) c).regs .rsp = frame ∧
      Agree c.mem (runAll (pushes switchSaved ++ toNextTask) c).mem frame n := by
  obtain ⟨rsp, tssTop, mem⟩ := leave_run s.percpuStack s.percpuPrevious
  have stacked : ∀ {a m}, Apart a m (c.regs .rsp - 48#64) 48 → Agree c.mem (saved c) a m := fun apart =>
    pushAll_agree apart
  have percpuFrame : Apart frame n c.gsBase 8 := s.framePercpu.take (by decide) (by decide)
  rw [rsp, mem]
  exact ⟨(readWord_agree ((stacked s.nextStack).trans (Agree.writeWord s.nextPrevious))).trans top,
    (stacked s.frameStack).trans ((Agree.writeWord s.framePrevious).trans
      ((Agree.writeWord percpuFrame).trans (Agree.writeWord s.frameTss)))⟩

theorem mmuSwitch_runs (next : BitVec 64) (kernel : c.Kernel) (stack : c.regs .rsp = frame)
    (short : n + 8 ≤ 2 ^ 64) (keeps : ∀ m, m.cpu.regs .rsp = frame - 8#64 →
      Agree m.cpu.mem (k.mmuSwitchFunction m).cpu.mem frame n) :
    ∃ c', k.program.Runs ⟨k.mmuSwitch, c.push next⟩ ⟨next, c'⟩ ∧ c'.Kernel ∧ c'.regs .rsp = frame ∧
      c'.gsBase = c.gsBase ∧ Agree c.mem c'.mem frame n := by
  subst stack
  have rsp : (c.push next).regs .rsp = c.regs .rsp - 8#64 := by simp [Cpu.push, Cpu.set, Cpu.write]
  obtain ⟨c', -, returned, kernel', stack, -, gsBase, kept⟩ :=
    k.mmuSwitchAbi.call_runs k.mmuSwitchCode k.mmuSwitchContract kernel short
      (keeps ⟨k.mmuSwitch, c.push next⟩ rsp)
  exact ⟨c', returned, kernel', stack, gsBase, kept⟩

structure Restored (r : CalleeRegs) (c : Cpu) : Prop where
  rbx : c.regs .rbx = r.rbx
  rbp : c.regs .rbp = r.rbp
  r12 : c.regs .r12 = r.r12
  r13 : c.regs .r13 = r.r13
  r14 : c.regs .r14 = r.r14
  r15 : c.regs .r15 = r.r15

theorem Restored.kept {r : CalleeRegs} {c' : Cpu} (restored : Restored r c)
    (same : ∀ q ∈ switchSaved, c'.regs q = c.regs q) : Restored r c' where
  rbx := (same .rbx (by decide)).trans restored.rbx
  rbp := (same .rbp (by decide)).trans restored.rbp
  r12 := (same .r12 (by decide)).trans restored.r12
  r13 := (same .r13 (by decide)).trans restored.r13
  r14 := (same .r14 (by decide)).trans restored.r14
  r15 := (same .r15 (by decide)).trans restored.r15

/-- The part of a frame that `switch_to` pops. -/
def CalleeRegs.saved (r : CalleeRegs) : List (BitVec 64) := [r.r15, r.r14, r.r13, r.r12, r.rbp, r.rbx]

variable {r : CalleeRegs} {back : BitVec 64} {rest : List (BitVec 64)}

theorem restored_run {rip : BitVec 64}
    (code : CodeAt k.program rip ((pops switchSaved.reverse).map .op ++ [.jump .ret]))
    (kernel : c.Kernel) (stack : c.regs .rsp = frame)
    (words : WordsAt c.mem frame (r.saved ++ back :: rest)) :
    ∃ c', k.program.Runs ⟨rip, c⟩ ⟨back, c'⟩ ∧ c'.Kernel ∧ c'.regs .rsp = frame + 56#64 ∧
      Restored r c' ∧ WordsAt c'.mem (frame + 56#64) rest := by
  subst stack
  have others : Reg.rsp ∉ switchSaved.reverse := by decide
  obtain ⟨saved, first, behind⟩ := wordsAt_append.mp words
  have size : 8 * r.saved.length = 48 := rfl
  rw [size] at first behind
  have popped : runAll (pops switchSaved.reverse) c =
    { c with regs := update (assign c.regs switchSaved.reverse r.saved) .rsp (c.regs .rsp + 48#64) } :=
    runAll_pops others saved rfl
  obtain ⟨next, -, returned⟩ := runs_block kernel code
  have restored : Restored r (runAll (pops switchSaved.reverse) c) := by
    rw [popped]
    constructor <;> simp [assign, switchSaved, CalleeRegs.saved]
  have rsp : (runAll (pops switchSaved.reverse) c).regs .rsp = c.regs .rsp + 48#64 := by simp [popped]
  have mem : (runAll (pops switchSaved.reverse) c).mem = c.mem := by rw [popped]
  have place : c.regs .rsp + 48#64 + 8#64 = c.regs .rsp + 56#64 := BitVec.add_assoc _ _ _
  rw [Jump.run, rsp, mem, first, place] at returned
  refine ⟨_, returned, kernel.runAll _, ?_, restored.kept (by simp [switchSaved, Cpu.set]), ?_⟩
  · simp [Cpu.set]
  · rw [← place]
    exact mem ▸ behind

/-- `switch_to` resumes the task where the word behind the saved registers says. -/
theorem switchTo_runs (s : Switch k c frame (8 * (r.saved ++ back :: rest).length))
    (top : readWord c.mem (c.regs .rdi) = frame) (words : WordsAt c.mem frame (r.saved ++ back :: rest)) :
    ∃ c', k.program.Runs ⟨k.switchTo, c⟩ ⟨back, c'⟩ ∧ c'.Kernel ∧ c'.regs .rsp = frame + 56#64 ∧
      Restored r c' ∧ WordsAt c'.mem (frame + 56#64) rest := by
  obtain ⟨next, code, called⟩ := runs_block s.kernel k.switchToAt
  obtain ⟨stack, kept⟩ := toNextTask_keeps s top
  have short : 8 * (r.saved ++ back :: rest).length + 8 ≤ 2 ^ 64 := by
    have left := s.framePercpu.left
    have right := s.framePercpu.right
    simp only [BitVec.toNat_sub] at left right
    omega
  obtain ⟨c₁, switched, kernel₁, stack₁, gsBase, kept₁⟩ :=
    mmuSwitch_runs next (s.kernel.runAll _) stack short s.mmuSwitch
  rw [runAll_gsBase] at gsBase
  -- the counter of the CPU is not in the frame
  have counter : Apart frame (8 * (r.saved ++ back :: rest).length) (c₁.gsBase + 0x18#64) 8 :=
    gsBase ▸ s.framePercpu.part (i := 0x18) (m := 8) (by decide) (by decide)
  have decreased : CodeAt k.program next (List.map .op [.lockDec percpuPreemptCount] ++ _) := code
  obtain ⟨stop', code', enabled⟩ := runs_ops kernel₁ decreased
  have kernel₂ : (runAll [.lockDec percpuPreemptCount] c₁).Kernel := kernel₁
  obtain ⟨c₂, returned, rest₂⟩ := restored_run code' kernel₂ stack₁
    (words.agree (kept.trans (kept₁.trans (Agree.writeWord counter))))
  exact ⟨c₂, called.trans (switched.trans (enabled.trans returned)), rest₂⟩

end SwitchTo

/-! ## The first return of a task -/

section Return

variable {c : Cpu} {sp : BitVec 64} (k : Kernel)

/-- A user task starts with the registers that it has, with `rax` zero, where its frame says. -/
theorem retFromUfork_runs {rip cs flags rsp ss : BitVec 64} (kernel : c.Kernel)
    (stack : c.regs .rsp = sp) (words : WordsAt c.mem sp [rip, cs, flags, rsp, ss]) :
    ∃ c', k.program.Runs ⟨k.retFromUfork, c⟩ ⟨rip, c'⟩ ∧
      c'.regs .rax = 0#64 ∧ c'.regs .rsp = rsp ∧ c'.cs = cs.setWidth 16 ∧ c'.ss = ss.setWidth 16 ∧
      ∀ q ∈ switchSaved, c'.regs q = c.regs q := by
  have code : CodeAt k.program k.retFromUfork
      (List.map .op [.mov .rax (.imm 0#64)] ++ .jump .iretq :: []) := k.retFromUforkAt
  obtain ⟨next, -, returned⟩ := runs_block kernel code
  have place : (runAll [.mov .rax (.imm 0#64)] c).regs .rsp = sp := by simp [runAll, Op.run, Cpu.set, stack]
  rw [iretq_run (place ▸ words)] at returned
  refine ⟨_, returned, ?_, ?_, rfl, rfl, ?_⟩
  · simp [runAll, Op.run, Src.value, Cpu.set]
  · simp [Cpu.set]
  · simp [runAll, Op.run, switchSaved, Cpu.set]

/-- A kernel thread starts with its argument, and returns to the call of `task_exit`. -/
theorem retFromKfork_runs {arg entry : BitVec 64} (kernel : c.Kernel) (stack : c.regs .rsp = sp)
    (words : WordsAt c.mem sp [arg, entry]) : ∃ c' back, k.program.Runs ⟨k.retFromKfork, c⟩ ⟨entry, c'⟩ ∧
      c'.regs .rdi = arg ∧ readWord c'.mem (c'.regs .rsp) = back ∧
      CodeAt k.program back (threadFinishedCode k.toSymbols) := by
  subst stack
  have others : Reg.rsp ∉ [Reg.rdi, .rax] := by decide
  have popped : runAll (pops [.rdi, .rax]) c = _ := runAll_pops others words rfl
  have code : CodeAt k.program k.retFromKfork
      ((pops [.rdi, .rax]).map .op ++ .jump (.callReg .rax) :: _) := k.retFromKforkAt
  obtain ⟨next, behind, called⟩ := runs_block kernel code
  have target : (runAll (pops [.rdi, .rax]) c).regs .rax = entry := by simp [popped, assign]
  rw [Jump.run, target] at called
  refine ⟨_, next, called, ?_, ?_, behind⟩
  · simp [popped, Cpu.push, Cpu.set, Cpu.write, assign]
  · simp [Cpu.push, Cpu.set, Cpu.write]

end Return

end ByteOS.Proc.Fork
