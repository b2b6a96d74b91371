import Mathlib.Data.BitVec
import Mathlib.Logic.Function.Basic

/-! Interrupt dispatch: the stubs of `kernel/cpu/isr_stubs.asm`, the table of
`kernel/cpu/isr.c` and its entries from `kernel/cpu/exceptions.c`.

A stub leaves one word on the stack, the `info` field of `struct isr_ctx`, from which
`isr_global_handler` takes the slot of the table.
-/

set_option autoImplicit false

namespace ByteOS.Cpu

abbrev IntVector := BitVec 8

inductive IsrType where
  | irq
  | exception
  | ipi
  | nop
  deriving DecidableEq, Repr

/-- The handlers that are registered with `isr_set_info`. -/
inductive Handler where
  | exceptionHandler
  | pageFaultHandler
  | lapicTimerCallback
  | ps2kbdIrqHandler
  deriving DecidableEq, Repr

structure IsrInfo where
  type : IsrType
  handler : Option Handler
  deriving DecidableEq, Repr

abbrev IsrTable := IntVector → IsrInfo

def isrInit : IsrTable := fun _ => ⟨.irq, none⟩

def isrSetInfo (table : IsrTable) (vec : IntVector) (info : IsrInfo) : IsrTable :=
  Function.update table vec info

def intPageFault : Nat := 14

def irqApicSpurious : IntVector := 0xFF#8
def irqLintBase : IntVector := irqApicSpurious - 3#8
def irqLintTimer : IntVector := irqLintBase + 2#8
def irqNmi : IntVector := irqLintBase - 1#8

/-- The entry that the loop of `exceptions_init` makes for a vector. -/
def exceptionInfo (i : Nat) : IsrInfo :=
  ⟨.exception, some (if i = intPageFault then .exceptionHandler else .pageFaultHandler)⟩

def exceptionsInit (table : IsrTable) : IsrTable :=
  let table :=
    (List.range 32).foldl (fun table i => isrSetInfo table (BitVec.ofNat 8 i) (exceptionInfo i)) table
  isrSetInfo table irqNmi ⟨.exception, some .exceptionHandler⟩

/-! ## Stubs -/

/-- The macros that define the stubs. -/
inductive Stub where
  | err
  | noerr
  | irq
  | nop
  | ipi
  deriving DecidableEq, Repr

def stub (vec : IntVector) : Stub :=
  let v := vec.toNat
  if v < 32 then
    if v ∈ [8, 10, 11, 12, 13, 14, 17, 30] then .err else .noerr
  else if v < 48 then .nop
  else if v < 248 then .irq
  else if v < 251 then .ipi
  else if v = 251 then .noerr
  else if v < 255 then .irq
  else .nop

/-- `mov dword [rsp + 4], vec` on the word at the top of the stack. -/
def setHighDword (word : BitVec 64) (vec : IntVector) : BitVec 64 :=
  (word &&& 0xFFFFFFFF#64) ||| (vec.zeroExtend 64 <<< 32)

/-- The `info` field with which a stub jumps to `isr_common`; `isr_stub_nop` does not. For
some vectors the processor has pushed an error code before. -/
def stubInfo (vec : IntVector) (errCode : BitVec 32) : Option (BitVec 64) :=
  match stub vec with
  | .err => some (setHighDword (errCode.zeroExtend 64) vec)
  | .noerr => some (setHighDword 0#64 vec)
  | .irq | .ipi => some (vec.zeroExtend 64)
  | .nop => none

def intNo (info : BitVec 64) : IntVector := (info &&& 0xFF#64).truncate 8

/-! ## The slot -/

theorem intNo_setHighDword (word : BitVec 64) (vec : IntVector) :
    intNo (setHighDword word vec) = word.truncate 8 := by
  apply BitVec.eq_of_getLsbD_eq
  intro i small
  have ones : ∀ k : Fin 8, (0xFF#8).getLsbD k = true := by decide
  have one := ones ⟨i, small⟩
  simp only [BitVec.getLsbD_eq_getElem small] at one
  simp [intNo, setHighDword, small, one]

theorem intNo_vector (vec : IntVector) : intNo (vec.zeroExtend 64) = vec := by
  revert vec
  decide

/-- Vectors that are exceptions, the one of `IRQ_NMI` included. -/
def IsException (vec : IntVector) : Prop := vec.toNat < 32 ∨ vec = irqNmi

instance (vec : IntVector) : Decidable (IsException vec) := inferInstanceAs (Decidable (_ ∨ _))

variable {vec : IntVector} {errCode : BitVec 32} {info : BitVec 64}

/-- The stubs put the vector of an interrupt where `isr_global_handler` looks for it, and
the error code of an exception. -/
theorem intNo_stubInfo (jumps : stubInfo vec errCode = some info) :
    intNo info = if IsException vec then (if stub vec = .err then errCode.truncate 8 else 0#8)
      else vec := by
  have kinds : ∀ vec : IntVector, (stub vec = .err ∨ stub vec = .noerr ↔ IsException vec) := by decide
  have kind := kinds vec
  unfold stubInfo at jumps
  split at jumps
  case h_1 err =>
    cases jumps
    rw [if_pos (kind.mp (.inl err)), if_pos err, intNo_setHighDword]
    apply BitVec.eq_of_toNat_eq
    simp
  case h_2 noerr =>
    cases jumps
    rw [if_pos (kind.mp (.inr noerr)), if_neg (by rw [noerr]; decide), intNo_setHighDword]
    rfl
  case h_3 irq =>
    cases jumps
    rw [if_neg (by rw [← kind, irq]; decide), intNo_vector]
  case h_4 ipi =>
    cases jumps
    rw [if_neg (by rw [← kind, ipi]; decide), intNo_vector]
  case h_5 => exact nomatch jumps

/-! ## The handler -/

theorem foldl_isrSetInfo (entry : Nat → IsrInfo) (table : IsrTable) (slots : List Nat)
    (small : ∀ i ∈ slots, i < 256) (vec : IntVector) :
    slots.foldl (fun table i => isrSetInfo table (BitVec.ofNat 8 i) (entry i)) table vec =
      if vec.toNat ∈ slots then entry vec.toNat else table vec := by
  induction slots generalizing table with
  | nil => rfl
  | cons i slots ih =>
    rw [List.foldl_cons, ih _ fun j later => small j (List.mem_cons_of_mem i later)]
    have fits : i < 256 := small i List.mem_cons_self
    by_cases later : vec.toNat ∈ slots
    · rw [if_pos later, if_pos (List.mem_cons_of_mem i later)]
    · rw [if_neg later, isrSetInfo]
      by_cases same : vec.toNat = i
      · have slot : vec = BitVec.ofNat 8 i := BitVec.eq_of_toNat_eq (by simp [same, Nat.mod_eq_of_lt fits])
        rw [if_pos (by simp [same]), ← slot, Function.update_self, same]
      · have other : vec ≠ BitVec.ofNat 8 i := by
          rintro rfl
          exact same (by simp [Nat.mod_eq_of_lt fits])
        rw [if_neg (by simp [same, later]), Function.update_of_ne other]

theorem exceptionsInit_exception (table : IsrTable) (low : vec.toNat < 32) :
    exceptionsInit table vec = exceptionInfo vec.toNat := by
  have other : vec ≠ irqNmi := by
    rintro rfl
    exact absurd low (by decide)
  have small : ∀ i ∈ List.range 32, i < 256 := fun i inside => (List.mem_range.mp inside).trans (by decide)
  rw [exceptionsInit, isrSetInfo, Function.update_of_ne other,
    foldl_isrSetInfo exceptionInfo table _ small, if_pos (List.mem_range.mpr low)]

/-- What the dispatch of an interrupt or exception should do: use the slot of its vector, and
run `page_fault_handler` for page faults and `exception_handler` for other exceptions. -/
structure Dispatched (table : IsrTable) (vec : IntVector) (info : BitVec 64) : Prop where
  slot : intNo info = vec
  pageFault : vec.toNat = intPageFault → (table (intNo info)).handler = some .pageFaultHandler
  exception : IsException vec → vec.toNat ≠ intPageFault →
    (table (intNo info)).handler = some .exceptionHandler

/-- Interrupts are dispatched as they should be, and no exception is. -/
theorem dispatched_iff_not_exception (table : IsrTable) (vec : IntVector) (errCode : BitVec 32)
    (info : BitVec 64) (jumps : stubInfo vec errCode = some info) :
    Dispatched (exceptionsInit table) vec info ↔ ¬ IsException vec := by
  have slot := intNo_stubInfo jumps
  constructor
  · rintro ⟨same, pageFault, exception⟩ (low | nmi)
    · -- the slot may be right, but the loop of `exceptions_init` swaps the two handlers
      rw [same, exceptionsInit_exception table low] at pageFault exception
      by_cases fault : vec.toNat = intPageFault
      · have swapped := pageFault fault
        rw [exceptionInfo, if_pos fault] at swapped
        exact nomatch swapped
      · have swapped := exception (.inl low) fault
        rw [exceptionInfo, if_neg fault] at swapped
        exact nomatch swapped
    · rw [slot, nmi, if_pos (.inr rfl), if_neg (by decide)] at same
      exact absurd same (by decide)
  · intro interrupt
    rw [if_neg interrupt] at slot
    refine ⟨slot, fun fault => ?_, fun exception => absurd exception interrupt⟩
    exact absurd (.inl (by rw [fault]; decide)) interrupt

/-- The timer interrupt. -/
theorem dispatched_iff_not_exception_timer :
    Dispatched (exceptionsInit isrInit) irqLintTimer 0xFE#64 ↔ ¬ IsException irqLintTimer :=
  dispatched_iff_not_exception isrInit irqLintTimer 0#32 0xFE#64 (by decide)

/-- A write of a user program to a read-only page takes slot 7 in place of 14, and a general
protection fault with error code 0 runs `page_fault_handler`. -/
theorem exceptions_misdispatched :
    stubInfo 14#8 7#32 = some 0xE00000007#64 ∧ intNo 0xE00000007#64 = 7#8 ∧
    stubInfo 13#8 0#32 = some 0xD00000000#64 ∧
    (exceptionsInit isrInit (intNo 0xD00000000#64)).handler = some .pageFaultHandler ∧
    ¬ Dispatched (exceptionsInit isrInit) 14#8 0xE00000007#64 ∧
    ¬ Dispatched (exceptionsInit isrInit) 13#8 0xD00000000#64 := by
  refine ⟨by decide, by decide, by decide, by decide, fun fault => ?_, fun fault => ?_⟩
  · exact absurd fault.slot (by decide)
  · exact absurd fault.slot (by decide)

/-- The error codes of page faults without protection keys and shadow stacks: a reserved bit is found set only in an
entry that is present. -/
def PageFaultCode (code : BitVec 32) : Prop :=
  code.toNat < 32 ∧ (code.getLsbD 3 = true → code.getLsbD 0 = true)

/-- A page fault reaches `page_fault_handler` all the same, as no such code is the number of its vector. So does every
exception without an error code. -/
theorem exceptions_run_page_fault_handler (table : IsrTable)
    (jumps : stubInfo vec errCode = some info) (exception : IsException vec)
    (code : stub vec = .err → PageFaultCode errCode) :
    (exceptionsInit table (intNo info)).handler = some .pageFaultHandler := by
  rw [intNo_stubInfo jumps, if_pos exception]
  split
  case isTrue pushed =>
    obtain ⟨small, reserved⟩ := code pushed
    have slot : (errCode.truncate 8).toNat = errCode.toNat := by
      rw [BitVec.toNat_setWidth]
      omega
    have other : errCode.toNat ≠ intPageFault := by
      intro same
      have fourteen : errCode = 14#32 := BitVec.eq_of_toNat_eq same
      rw [fourteen] at reserved
      exact absurd (reserved rfl) (by decide)
    rw [exceptionsInit_exception table (slot ▸ small), slot, exceptionInfo, if_neg other]
  case isFalse => rw [exceptionsInit_exception table (by decide)]; rfl

/-- A write of a user program to a read-only page. -/
theorem exceptions_run_page_fault_handler_write :
    (exceptionsInit isrInit (intNo 0xE00000007#64)).handler = some .pageFaultHandler :=
  exceptions_run_page_fault_handler isrInit
    (show stubInfo 14#8 7#32 = some 0xE00000007#64 by decide) (by decide)
    fun _ => ⟨by decide, by decide⟩

end ByteOS.Cpu
