import ByteOS.Proc.ForkFrames

/-! Switches away from a task and back to it.

What `switch_to` saves of the task that calls it is what it restores when another task, perhaps
much later and on another processor, switches back.
-/

set_option autoImplicit false

namespace ByteOS.Proc.Fork

open Lib Lib.Amd64
open Function (update)

/-- A call of `switch_to` in kernel mode. The places that it writes are apart from each other and
from what it reads of the CPU. -/
structure Leaves (c : Cpu) : Prop where
  kernel : c.Kernel
  percpuStack : Apart c.gsBase 0x20 (c.regs .rsp - 48#64) 48
  percpuTask : Apart c.gsBase 0x20 (previous c) 8
  frameTask : Apart (c.regs .rsp - 48#64) 56 (previous c) 8
  framePercpu : Apart (c.regs .rsp - 48#64) 56 c.gsBase 8
  frameTss : Apart (c.regs .rsp - 48#64) 56 (tssOf c + 4#64) 8
  taskTss : Apart (previous c) 8 (tssOf c + 4#64) 8

variable {c : Cpu} {back : BitVec 64}

theorem Leaves.saves (leaves : Leaves c) (called : readWord c.mem (c.regs .rsp) = back) :
    WordsAt (runAll (pushes switchSaved ++ toNextTask) c).mem (c.regs .rsp - 48#64)
      ((CalleeRegs.ofCall c).saved ++ [back]) ∧
    readWord (runAll (pushes switchSaved ++ toNextTask) c).mem (previous c) = c.regs .rsp - 48#64 := by
  have returns : WordsAt c.mem (c.regs .rsp) [back] := ⟨called, trivial⟩
  have words : WordsAt (saved c) (c.regs .rsp - 48#64) ((CalleeRegs.ofCall c).saved ++ [back]) :=
    pushAll_wordsAt returns (by simp [switchSaved])
  obtain ⟨-, top, stored⟩ := leave_run leaves.percpuStack leaves.percpuTask
  rw [stored]
  constructor
  · apply words.agree
    exact (Agree.writeWord leaves.frameTask).trans
      ((Agree.writeWord leaves.framePercpu).trans (Agree.writeWord leaves.frameTss))
  · have apart : Apart (previous c) 8 c.gsBase 8 := leaves.percpuTask.symm.take (by decide) (by decide)
    refine (readWord_agree ((Agree.writeWord apart).trans (Agree.writeWord leaves.taskTss))).trans ?_
    simp [readWord_writeWord]

/-- A task that calls `switch_to` comes to the call of `mmu_switch` with its registers saved on its
stack and its stack pointer in its `struct task`. Whoever switches to the task from then on, with
its frame and its stack pointer as they are, returns to it from the call, with its stack and the
registers that a C function keeps. -/
theorem switched_task_resumes (k : Kernel) (c : Cpu) (back : BitVec 64) (leaves : Leaves c)
    (called : readWord c.mem (c.regs .rsp) = back) :
    ∃ stop next c₁, k.program.code stop = some (.jump (.call k.mmuSwitch), next) ∧
      k.program.Runs ⟨k.switchTo, c⟩ ⟨stop, c₁⟩ ∧
      WordsAt c₁.mem (c.regs .rsp - 48#64) ((CalleeRegs.ofCall c).saved ++ [back]) ∧
      readWord c₁.mem (previous c) = c.regs .rsp - 48#64 ∧
      ∀ c₂, Resumes k c₁.mem (previous c) (c.regs .rsp - 48#64) 56 c₂ →
        ∃ c₃, k.program.Runs ⟨k.switchTo, c₂⟩ ⟨back, c₃⟩ ∧ c₃.regs .rsp = c.regs .rsp + 8#64 ∧
          ∀ r ∈ switchSaved, c₃.regs r = c.regs r := by
  obtain ⟨stop, ⟨next, code, -⟩, runs⟩ := runs_ops leaves.kernel k.switchToAt
  obtain ⟨words, stackPointer⟩ := leaves.saves called
  refine ⟨stop, next, _, code, runs, words, stackPointer, fun c₂ resumes => ?_⟩
  have top : readWord c₂.mem (c₂.regs .rdi) = c.regs .rsp - 48#64 := by
    rw [resumes.next]
    exact (readWord_agree resumes.stackPointer).trans stackPointer
  obtain ⟨c₃, returned, -, rsp, restored, -⟩ := switchTo_runs resumes.switch top (words.agree resumes.kept)
  have place : c.regs .rsp - 48#64 + 56#64 = c.regs .rsp + 8#64 := by bv_omega
  refine ⟨c₃, returned, rsp.trans place, ?_⟩
  simp only [switchSaved, List.forall_mem_cons, List.not_mem_nil, false_implies, implies_true, and_true]
  exact ⟨restored.rbx, restored.rbp, restored.r12, restored.r13, restored.r14, restored.r15⟩

/-- The task at `0x50000` calls `switch_to` in a function that goes on at `0x5000`. -/
def leavingCall : Cpu := { sampleCall with
  regs := update sampleRegs .rsp 0x63000#64
  mem := writeWord (writeWord (writeWord (fun _ => 0#8) 0x10000#64 0x50000#64) 0x10010#64 0x40000#64)
    0x63000#64 0x5000#64 }

theorem switched_task_resumes_sample :
    ∃ stop c₁ c₃, sampleKernel.program.Runs ⟨40#64, leavingCall⟩ ⟨stop, c₁⟩ ∧
      sampleKernel.program.Runs ⟨40#64, sampleSwitch c₁.mem⟩ ⟨0x5000#64, c₃⟩ ∧
      c₃.regs .rsp = 0x63008#64 ∧ c₃.regs .rbx = 0xB1#64 := by
  have task : previous leavingCall = 0x50000#64 := by decide +kernel
  have tss : tssOf leavingCall = 0x40000#64 := by decide +kernel
  have leaves : Leaves leavingCall := by
    refine ⟨rfl, ⟨by decide, by decide⟩, ?_, ?_, ⟨by decide, by decide⟩, ?_, ?_⟩ <;>
      simp only [task, tss] <;>
      exact ⟨by decide, by decide⟩
  obtain ⟨stop, -, c₁, -, left, -, -, returns⟩ :=
    switched_task_resumes sampleKernel leavingCall 0x5000#64 leaves (by decide +kernel)
  have resumes : Resumes sampleKernel c₁.mem 0x50000#64 (0x63000#64 - 48#64) 56 _ :=
    sampleSwitch_resumes c₁.mem
    ⟨by decide, by decide⟩ ⟨by decide, by decide⟩ ⟨by decide, by decide⟩ ⟨by decide, by decide⟩
  obtain ⟨c₃, runs, rsp, kept⟩ := returns _ (task ▸ resumes)
  exact ⟨stop, c₁, c₃, left, runs, rsp, kept .rbx (by decide)⟩

end ByteOS.Proc.Fork
