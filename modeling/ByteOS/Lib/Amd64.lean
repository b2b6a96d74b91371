import ByteOS.Lib.Bytes
import ByteOS.Lib.Transition

/-! A part of the amd64 instruction set.

Code is what is found at an address, with the address of what follows, so that nothing is said
of the lengths of instructions. Functions that are not given as code are called by their
contract: each is a function on the machine from its first instruction to its return. Of the
flags only zero, carry and interrupt are set by instructions. A machine in user mode takes no
further step, and interrupts are not taken.
-/

set_option autoImplicit false

namespace ByteOS.Lib.Amd64

open Function (update update_of_ne)

inductive Reg where
  | rax | rbx | rcx | rdx | rsi | rdi | rbp | rsp
  | r8 | r9 | r10 | r11 | r12 | r13 | r14 | r15
  deriving DecidableEq, Repr

/-- What instructions work on, apart from the instruction pointer. -/
structure Cpu where
  regs : Reg → BitVec 64
  mem : Memory
  flags : BitVec 64
  cs : BitVec 16
  ss : BitVec 16
  gsBase : BitVec 64

structure Machine where
  rip : BitVec 64
  cpu : Cpu

/-- A memory operand: a register with a displacement, a displacement from the base of `gs`, or
a member of a table of words. -/
inductive Ref where
  | base (reg : Reg) (disp : BitVec 64)
  | gs (disp : BitVec 64)
  | table (start : BitVec 64) (index : Reg)

inductive Src where
  | reg (r : Reg)
  | imm (value : BitVec 64)
  | mem (ref : Ref)

/-- The instructions after which the next one follows. -/
inductive Op where
  | push (src : Src)
  | pop (dst : Reg)
  | mov (dst : Reg) (src : Src)
  | store (ref : Ref) (src : Reg)
  | cmovz (dst : Reg) (ref : Ref)
  | test (first second : Reg)
  | cmp (first : Reg) (value : BitVec 64)
  | add (dst : Reg) (value : BitVec 64)
  | xor (dst src : Reg)
  | lockDec (ref : Ref)
  | sti

inductive Jump where
  | jmp (target : BitVec 64)
  | je (target : BitVec 64)
  | jae (target : BitVec 64)
  | call (target : BitVec 64)
  | callReg (r : Reg)
  | ret
  | iretq

inductive Instr where
  | op (o : Op)
  | jump (j : Jump)

namespace Cpu

variable (c : Cpu)

def set (r : Reg) (value : BitVec 64) : Cpu := { c with regs := update c.regs r value }

def write (addr value : BitVec 64) : Cpu := { c with mem := writeWord c.mem addr value }

def push (value : BitVec 64) : Cpu := (c.set .rsp (c.regs .rsp - 8#64)).write (c.regs .rsp - 8#64) value

def zero : Bool := c.flags.getLsbD 6

def carry : Bool := c.flags.getLsbD 0

def setFlags (zero carry : Bool) : Cpu :=
  { c with flags := (c.flags &&& ~~~0x41#64) ||| (if zero then 0x40#64 else 0#64) |||
    (if carry then 1#64 else 0#64) }

def Kernel : Prop := c.cs &&& 3#16 = 0#16

instance : Decidable c.Kernel := inferInstanceAs (Decidable (_ = _))

end Cpu

def Ref.addr (c : Cpu) : Ref → BitVec 64
  | base reg disp => c.regs reg + disp
  | gs disp => c.gsBase + disp
  | table start index => start + c.regs index * 8#64

def Src.value (c : Cpu) : Src → BitVec 64
  | reg r => c.regs r
  | imm value => value
  | mem ref => readWord c.mem (ref.addr c)

def Op.run (c : Cpu) : Op → Cpu
  | push src => c.push (src.value c)
  | pop dst => (c.set .rsp (c.regs .rsp + 8#64)).set dst (readWord c.mem (c.regs .rsp))
  | mov dst src => c.set dst (src.value c)
  | store ref src => c.write (ref.addr c) (c.regs src)
  | cmovz dst ref => if c.zero then c.set dst (readWord c.mem (ref.addr c)) else c
  | test first second => c.setFlags (c.regs first &&& c.regs second = 0#64) false
  | cmp first value => c.setFlags (c.regs first = value) (c.regs first < value)
  | add dst value =>
    (c.setFlags (c.regs dst + value = 0#64) (2 ^ 64 ≤ (c.regs dst).toNat + value.toNat)).set dst
      (c.regs dst + value)
  | xor dst src => (c.setFlags (c.regs dst ^^^ c.regs src = 0#64) false).set dst (c.regs dst ^^^ c.regs src)
  | lockDec ref =>
    -- carry is left alone
    (c.setFlags (readWord c.mem (ref.addr c) - 1#64 = 0#64) c.carry).write (ref.addr c)
      (readWord c.mem (ref.addr c) - 1#64)
  | sti => { c with flags := c.flags ||| 0x200#64 }

def Jump.run (c : Cpu) (next : BitVec 64) : Jump → Machine
  | jmp target => ⟨target, c⟩
  | je target => ⟨if c.zero then target else next, c⟩
  -- above or equal: no borrow
  | jae target => ⟨if c.carry then next else target, c⟩
  | call target => ⟨target, c.push next⟩
  | callReg r => ⟨c.regs r, c.push next⟩
  | ret => ⟨readWord c.mem (c.regs .rsp), c.set .rsp (c.regs .rsp + 8#64)⟩
  | iretq =>
    -- in 64-bit mode the stack is always popped, whatever the privilege level
    let frame := fun i => readWord c.mem (c.regs .rsp + i)
    ⟨frame 0#64, { c.set .rsp (frame 24#64) with
      cs := (frame 8#64).setWidth 16, flags := frame 16#64, ss := (frame 32#64).setWidth 16 }⟩

structure Program where
  code : BitVec 64 → Option (Instr × BitVec 64)
  contract : BitVec 64 → Option (Machine → Machine)

def Program.step (p : Program) (m : Machine) : Option Machine :=
  if m.cpu.Kernel then
    match p.code m.rip with
    | some (.op o, next) => some ⟨next, o.run m.cpu⟩
    | some (.jump j, next) => some (j.run m.cpu next)
    | none => (p.contract m.rip).map fun function => function m
  -- the code of users is not part of the program
  else none

/-- The instructions stand in the code from `addr` on. -/
def CodeAt (p : Program) : BitVec 64 → List Instr → Prop
  | _, [] => True
  | addr, i :: rest => ∃ next, p.code addr = some (i, next) ∧ CodeAt p next rest

abbrev Program.Runs (p : Program) (m m' : Machine) : Prop := Reaches (fun a b => p.step a = some b) m m'

def runAll (ops : List Op) (c : Cpu) : Cpu := ops.foldl Op.run c

/-! ## Running code -/

section Run

variable {p : Program} {rip : BitVec 64} {c : Cpu} {ops : List Op} {rest : List Instr}

@[simp] theorem run_cs (o : Op) : (o.run c).cs = c.cs := by
  cases o with
  | cmovz dst ref =>
    simp only [Op.run]
    split <;> rfl
  | _ => rfl

@[simp] theorem run_gsBase (o : Op) : (o.run c).gsBase = c.gsBase := by
  cases o with
  | cmovz dst ref =>
    simp only [Op.run]
    split <;> rfl
  | _ => rfl

theorem runAll_keeps {A : Type} (part : Cpu → A) (kept : ∀ o c, part (Op.run c o) = part c)
    (ops : List Op) (c : Cpu) : part (runAll ops c) = part c := by
  induction ops generalizing c with
  | nil => rfl
  | cons o ops ih => exact (ih (o.run c)).trans (kept o c)

@[simp] theorem runAll_cs (ops : List Op) (c : Cpu) : (runAll ops c).cs = c.cs :=
  runAll_keeps Cpu.cs (fun o _ => run_cs o) ops c

@[simp] theorem runAll_gsBase (ops : List Op) (c : Cpu) : (runAll ops c).gsBase = c.gsBase :=
  runAll_keeps Cpu.gsBase (fun o _ => run_gsBase o) ops c

section

variable (kernel : c.Kernel)
include kernel

theorem Cpu.Kernel.runAll (ops : List Op) : (runAll ops c).Kernel := by
  rwa [Cpu.Kernel, runAll_cs]

theorem runs_ops (code : CodeAt p rip (ops.map .op ++ rest)) :
    ∃ stop, CodeAt p stop rest ∧ p.Runs ⟨rip, c⟩ ⟨stop, runAll ops c⟩ := by
  induction ops generalizing rip c with
  | nil => exact ⟨rip, code, .refl⟩
  | cons o ops ih =>
    obtain ⟨next, here, code⟩ := code
    have kernel' : (o.run c).Kernel := by
      rwa [Cpu.Kernel, run_cs]
    obtain ⟨stop, behind, runs⟩ := ih kernel' code
    have step : p.step ⟨rip, c⟩ = some ⟨next, o.run c⟩ := by
      simp only [Program.step, if_pos kernel, here]
    exact ⟨stop, behind, .head step runs⟩

theorem runs_jump {j : Jump} {next : BitVec 64} (code : p.code rip = some (.jump j, next)) :
    p.Runs ⟨rip, c⟩ (j.run c next) := by
  apply Relation.ReflTransGen.single
  simp only [Program.step, if_pos kernel, code]

theorem runs_block {j : Jump} (code : CodeAt p rip (ops.map .op ++ .jump j :: rest)) :
    ∃ next, CodeAt p next rest ∧ p.Runs ⟨rip, c⟩ (j.run (runAll ops c) next) := by
  obtain ⟨stop, ⟨next, here, behind⟩, runs⟩ := runs_ops kernel code
  exact ⟨next, behind, runs.trans (runs_jump (kernel.runAll ops) here)⟩

theorem runs_contract {function : Machine → Machine} (code : p.code rip = none)
    (contract : p.contract rip = some function) : p.Runs ⟨rip, c⟩ (function ⟨rip, c⟩) := by
  apply Relation.ReflTransGen.single
  simp only [Program.step, if_pos kernel, code, contract, Option.map_some]

end

theorem iretq_run {next rip' cs flags rsp ss : BitVec 64}
    (words : WordsAt c.mem (c.regs .rsp) [rip', cs, flags, rsp, ss]) : Jump.run c next .iretq =
      ⟨rip', { c.set .rsp rsp with cs := cs.setWidth 16, flags := flags, ss := ss.setWidth 16 }⟩ := by
  simp only [WordsAt, BitVec.add_assoc, BitVec.reduceAdd, and_true] at words
  obtain ⟨first, second, third, fourth, fifth⟩ := words
  simp only [Jump.run, BitVec.add_zero, first, second, third, fourth, fifth]

end Run

def Program.ofList (code : List Instr) (contract : BitVec 64 → Option (Machine → Machine)) : Program where
  code addr := (code[addr.toNat]?).map fun i => (i, addr + 1#64)
  contract := contract

theorem codeAt_ofList (contract : BitVec 64 → Option (Machine → Machine))
    (before code after : List Instr) (short : (before ++ (code ++ after)).length ≤ 2 ^ 64) :
    CodeAt (.ofList (before ++ (code ++ after)) contract) (BitVec.ofNat 64 before.length) code := by
  induction code generalizing before with
  | nil => trivial
  | cons i code ih =>
    have again : before ++ (i :: code ++ after) = before ++ [i] ++ (code ++ after) := by simp
    have place : BitVec.ofNat 64 before.length + 1#64 = BitVec.ofNat 64 (before ++ [i]).length := by
      rw [List.length_append, BitVec.ofNat_add]
      rfl
    have low : before.length < 2 ^ 64 := by
      simp only [List.length_append, List.length_cons] at short
      omega
    refine ⟨BitVec.ofNat 64 before.length + 1#64, ?_, ?_⟩
    · simp only [Program.ofList, BitVec.toNat_ofNat, Nat.mod_eq_of_lt low]
      simp
    · rw [place, again]
      exact ih _ (again ▸ short)

/-! ## Registers saved on the stack -/

def assign (regs : Reg → BitVec 64) : List Reg → List (BitVec 64) → Reg → BitVec 64
  | [], _ => regs
  | _ :: _, [] => regs
  | r :: rs, w :: ws => assign (update regs r w) rs ws

section Stack

variable {c : Cpu} {rs : List Reg} {ws : List (BitVec 64)}

theorem runAll_pushes (others : .rsp ∉ rs) : runAll (rs.map fun r => .push (.reg r)) c =
    { c with
      regs := update c.regs .rsp (c.regs .rsp - BitVec.ofNat 64 (8 * rs.length))
      mem := pushAll c.mem (c.regs .rsp) (rs.map c.regs) } := by
  induction rs generalizing c with
  | nil => simp [runAll, pushAll]
  | cons r rs ih =>
    simp only [List.mem_cons, not_or] at others
    -- a push changes `rsp` only, which is not among the registers
    have kept : rs.map (c.push (c.regs r)).regs = rs.map c.regs := by
      apply List.map_congr_left
      intro q member
      apply update_of_ne
      rintro rfl
      exact others.2 member
    have top : (c.push (c.regs r)).regs .rsp = c.regs .rsp - 8#64 := by simp [Cpu.push, Cpu.set, Cpu.write]
    have tail : runAll (rs.map fun r => .push (.reg r)) (c.push (c.regs r)) = _ := ih others.2
    rw [kept, top, sub_succ_words] at tail
    rw [List.map_cons, List.map_cons, List.length_cons]
    refine tail.trans ?_
    simp only [Cpu.push, Cpu.set, Cpu.write, Function.update_idem, pushAll]

theorem assign_rsp (regs : Reg → BitVec 64) (others : .rsp ∉ rs) (ws : List (BitVec 64)) (x y : BitVec 64) :
    update (assign (update regs .rsp x) rs ws) .rsp y = update (assign regs rs ws) .rsp y := by
  induction rs generalizing regs ws with
  | nil => rw [assign, assign, Function.update_idem]
  | cons r rs ih =>
    cases ws with
    | nil => rw [assign, assign, Function.update_idem]
    | cons w ws =>
      simp only [List.mem_cons, not_or] at others
      rw [assign, assign, Function.update_comm others.1]
      exact ih _ others.2 ws

theorem runAll_pops (others : .rsp ∉ rs) (words : WordsAt c.mem (c.regs .rsp) ws)
    (same : rs.length = ws.length) : runAll (rs.map .pop) c =
      { c with
        regs := update (assign c.regs rs ws) .rsp (c.regs .rsp + BitVec.ofNat 64 (8 * rs.length)) } := by
  induction rs generalizing c ws with
  | nil => simp [runAll, assign]
  | cons r rs ih =>
    cases ws with
    | nil => cases same
    | cons w ws =>
      simp only [List.mem_cons, not_or] at others
      obtain ⟨first, words⟩ := words
      -- the state behind the first pop, in which the other words are at the top
      let next := (c.set .rsp (c.regs .rsp + 8#64)).set r w
      have top : next.regs .rsp = c.regs .rsp + 8#64 := by
        simp [next, Cpu.set, update_of_ne others.1]
      have tail : runAll (rs.map .pop) next = _ := ih others.2 (top.symm ▸ words) (Nat.succ.inj same)
      have place : c.regs .rsp + 8#64 + BitVec.ofNat 64 (8 * rs.length) =
          c.regs .rsp + BitVec.ofNat 64 (8 * (r :: rs).length) := by
        rw [BitVec.add_assoc, List.length_cons, Nat.mul_succ, Nat.add_comm, BitVec.ofNat_add]
      rw [top, place] at tail
      have step : Op.run c (.pop r) = next := by rw [Op.run, first]
      rw [List.map_cons, runAll, List.foldl_cons, step]
      refine tail.trans ?_
      simp only [next, Cpu.set, assign]
      rw [Function.update_comm others.1, assign_rsp _ others.2]

end Stack

end ByteOS.Lib.Amd64
