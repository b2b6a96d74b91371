import ByteOS.Proc.ForkFrames

/-! Entry and return of an interrupt: `isr_common` of `kernel/cpu/isr_stubs.asm`.

The stubs come to `isr_common` with the `info` word (see `Cpu.Isr`) on top of the frame that the processor has pushed.
-/

set_option autoImplicit false

namespace ByteOS.Cpu

open Lib Lib.Amd64
open Proc.Fork (pushes pops Abi runAll_append switchSaved returnAtOnce returnAtOnce_abi sampleCall)
open Function (update)

/-- What C functions do not keep. -/
def isrSaved : List Reg := [.rdi, .rsi, .rdx, .rcx, .rax, .r8, .r9, .r10, .r11]

def isrEnter : List Op := pushes isrSaved ++ [.mov .rdi (.reg .rsp)]

def isrLeave : List Op :=
  -- the `info` word is dropped
  pops isrSaved.reverse ++ [.add .rsp 8#64]

def isrCommonCode (isrGlobalHandler : BitVec 64) : List Instr :=
  isrEnter.map .op ++ .jump (.call isrGlobalHandler) :: (isrLeave.map .op ++ .jump .iretq :: [])

/-- The fields of `struct isr_ctx` behind the registers. -/
structure IntFrame where
  info : BitVec 64
  rip : BitVec 64
  cs : BitVec 64
  rflags : BitVec 64
  rsp : BitVec 64
  ss : BitVec 64

def IntFrame.words (f : IntFrame) : List (BitVec 64) := [f.info, f.rip, f.cs, f.rflags, f.rsp, f.ss]

def isrCtx (c : Cpu) (f : IntFrame) : List (BitVec 64) := isrSaved.reverse.map c.regs ++ f.words

/-- A kernel with this code and some `isr_global_handler`. -/
structure IsrKernel where
  program : Program
  isrCommon : BitVec 64
  isrGlobalHandler : BitVec 64
  code : CodeAt program isrCommon (isrCommonCode isrGlobalHandler)
  function : Machine → Machine
  external : program.code isrGlobalHandler = none
  contract : program.contract isrGlobalHandler = some function
  abi : Abi function

/-- What was interrupted goes on as it was, but for memory. -/
structure Undisturbed (c : Cpu) (f : IntFrame) (c' : Cpu) : Prop where
  regs : ∀ r, r ≠ .rsp → c'.regs r = c.regs r
  rsp : c'.regs .rsp = f.rsp
  flags : c'.flags = f.rflags
  cs : c'.cs = f.cs.setWidth 16
  ss : c'.ss = f.ss.setWidth 16
  gsBase : c'.gsBase = c.gsBase

section Run

variable {k : IsrKernel} {c : Cpu} {f : IntFrame}

theorem isrEnter_run (stacked : WordsAt c.mem (c.regs .rsp) f.words) : ∃ sp mem,
    runAll isrEnter c = { c with mem := mem, regs := update (update c.regs .rsp sp) .rdi sp } ∧
      WordsAt mem sp (isrCtx c f) := by
  have others : Reg.rsp ∉ isrSaved := by decide
  have pushed : runAll (pushes isrSaved) c = _ := runAll_pushes others
  have words : WordsAt (pushAll c.mem (c.regs .rsp) (isrSaved.map c.regs)) _ (isrCtx c f) :=
    pushAll_wordsAt stacked (by simp [isrSaved, IntFrame.words])
  refine ⟨_, _, ?_, words⟩
  rw [isrEnter, runAll_append, pushed]
  simp [runAll, Op.run, Src.value, Cpu.set, isrSaved]

theorem isrLeave_run (before : Cpu) (stacked : WordsAt c.mem (c.regs .rsp) (isrCtx before f))
    (kept : ∀ r ∈ switchSaved, c.regs r = before.regs r) :
    (∀ r, r ≠ .rsp → (runAll isrLeave c).regs r = before.regs r) ∧
    WordsAt (runAll isrLeave c).mem ((runAll isrLeave c).regs .rsp) [f.rip, f.cs, f.rflags, f.rsp,
      f.ss] := by
  have others : Reg.rsp ∉ isrSaved.reverse := by decide
  obtain ⟨saved, behind⟩ := wordsAt_append.mp stacked
  have popped : runAll (pops isrSaved.reverse) c = _ := runAll_pops others saved rfl
  rw [isrLeave, runAll_append, popped]
  simp only [runAll, List.foldl_cons, List.foldl_nil, Op.run]
  refine ⟨?_, ?_⟩
  · intro r other
    cases r <;> simp_all [Cpu.set, Cpu.setFlags, assign, isrSaved, switchSaved]
  · simpa [Cpu.set, Cpu.setFlags] using behind.2

/-- `isr_common` calls `isr_global_handler` with a `struct isr_ctx` of what was interrupted. If the struct is left as it
is, the interrupted code goes on with all of its registers. -/
theorem interrupt_undisturbed (k : IsrKernel) (c : Cpu) (f : IntFrame) (kernel : c.Kernel)
    (stacked : WordsAt c.mem (c.regs .rsp) f.words) :
    ∃ h, k.program.Runs ⟨k.isrCommon, c⟩ ⟨k.isrGlobalHandler, h⟩ ∧
      WordsAt h.mem (h.regs .rdi) (isrCtx c f) ∧
      (Agree h.mem (k.function ⟨k.isrGlobalHandler, h⟩).cpu.mem (h.regs .rdi) (8 * (isrCtx c f).length) →
        ∃ c', k.program.Runs ⟨k.isrCommon, c⟩ ⟨f.rip, c'⟩ ∧ Undisturbed c f c') := by
  obtain ⟨sp, mem, entered, words⟩ := isrEnter_run stacked
  obtain ⟨next, code, called⟩ := runs_block kernel k.code
  generalize runAll isrEnter c = e at entered called
  have saved : ∀ r ∈ switchSaved, e.regs r = c.regs r := by simp [entered, switchSaved]
  have same : e.Kernel ∧ e.gsBase = c.gsBase := by
    rw [entered]
    exact ⟨kernel, rfl⟩
  obtain ⟨rdi, rsp, rfl⟩ : e.regs .rdi = sp ∧ e.regs .rsp = sp ∧ e.mem = mem := by simp [entered]
  have short : 8 * (isrCtx c f).length + 8 ≤ 2 ^ 64 := by simp [isrCtx, isrSaved, IntFrame.words]
  have ctx : WordsAt (e.push next).mem sp (isrCtx c f) :=
    words.agree (Agree.writeWord (rsp ▸ apart_below _ short))
  have argument : (e.push next).regs .rdi = sp := by simp [Cpu.push, Cpu.set, Cpu.write, rdi]
  refine ⟨e.push next, called, argument.symm ▸ ctx, fun kept => ?_⟩
  rw [argument, ← rsp] at kept
  obtain ⟨r, -, returned, kernel', rsp', saved', gsBase, agree⟩ :=
    k.abi.call_runs k.external k.contract same.1 short kept
  obtain ⟨_, _, left⟩ := runs_block kernel' code
  obtain ⟨regs, frame⟩ := isrLeave_run (f := f) c (by rw [rsp']; exact (rsp ▸ words).agree agree)
    fun q member => (saved' q member).trans (saved q member)
  rw [iretq_run frame] at left
  refine ⟨_, called.trans (returned.trans left), ?_, ?_, rfl, rfl, rfl, ?_⟩
  · intro q other
    simpa [Cpu.set, other] using regs q other
  · simp [Cpu.set]
  · simp only [Cpu.set, runAll_gsBase]
    rw [gsBase, same.2]

end Run

/-- A handler that does nothing, for an interrupt of user mode. -/
def idleIsr : IsrKernel where
  program := .ofList (isrCommonCode 100#64 ++ []) fun addr =>
    if addr = 100#64 then some returnAtOnce else none
  isrCommon := 0#64
  isrGlobalHandler := 100#64
  code := codeAt_ofList _ [] (isrCommonCode 100#64) [] (by decide)
  function := returnAtOnce
  external := rfl
  contract := rfl
  abi := returnAtOnce_abi

def userFrame : IntFrame := ⟨48#64, 0x401000#64, 0x2B#64, 0x202#64, 0x7000#64, 0x23#64⟩

def interrupted : Cpu := { sampleCall with
  regs := update sampleCall.regs .rsp (0x30000#64 - 48#64)
  mem := pushAll sampleCall.mem 0x30000#64 userFrame.words.reverse }

theorem interrupt_undisturbed_user : ∃ c', idleIsr.program.Runs ⟨0#64, interrupted⟩ ⟨0x401000#64, c'⟩ ∧
      Undisturbed interrupted userFrame c' := by
  have stacked : WordsAt interrupted.mem (interrupted.regs .rsp) userFrame.words :=
    pushAll_top _ 0x30000#64 (by decide)
  obtain ⟨h, -, -, returns⟩ := interrupt_undisturbed idleIsr interrupted userFrame rfl stacked
  exact returns (Agree.refl h.mem _ _)

end ByteOS.Cpu
