import ByteOS.Proc.ForkFrames

/-! The way of a system call through `kernel/syscall/syscall.asm` and back to the user. For a fork,
which goes another way there, see `Proc.ForkFrames`. -/

set_option autoImplicit false

namespace ByteOS.Proc.Fork

open Lib Lib.Amd64
open Function (update)

section Run

variable {k : Kernel} {c c₁ : Cpu} {top rip : BitVec 64}

end Run

end ByteOS.Proc.Fork
