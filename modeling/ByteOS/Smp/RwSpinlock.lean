import Mathlib.Data.BitVec
import Mathlib.Data.Nat.Bits
import Mathlib.Logic.Function.Basic

/-! The reader-writer spinlock of `include/sync.h` over the spinlocks of
`kernel/smp/spin.asm`, for several processors that share one lock.

A step is one access to shared memory or to the processor's own `preempt_count`. A
processor that is not in one of the four functions may call one of them: it may open
read sections inside each other, and it closes only what it has opened. `readers` is a
word of 64 bits and `preempt_count` one of 32.
-/

set_option autoImplicit false

namespace ByteOS.Smp

inductive Lock where
  | rd
  | wr
  deriving DecidableEq, Repr

/-- The calls of `spin_lock`: at the start of `read_spin_lock`, by the first reader, at the
start of `read_spin_unlock`, and in `write_spin_lock`. -/
inductive Acquire where
  | readEnter
  | firstReader
  | readLeave
  | write
  deriving DecidableEq, Repr

/-- The calls of `spin_unlock`: at the end of `read_spin_lock`, by the last reader, at the
end of `read_spin_unlock`, and in `write_spin_unlock`. -/
inductive Release where
  | readEntered
  | lastReader
  | readLeft
  | written
  deriving DecidableEq, Repr

/-- The instructions of `spin_lock`, with the contents of `rax` in the retry loop. -/
inductive Spin where
  | preemptInc
  | exchange
  | test (rax : Nat)
  | exchangeAgain (rax : Nat)
  deriving DecidableEq, Repr

inductive Unspin where
  | store
  | preemptDec
  deriving DecidableEq, Repr

inductive Pc where
  | idle
  | spinLock (site : Acquire) (instr : Spin)
  | spinUnlock (site : Release) (instr : Unspin)
  /-- `atomic_inc_read64(&lock->readers)` and the test of its result. -/
  | incReaders
  /-- `preempt_inc()` in `read_spin_lock`. -/
  | preemptInc
  /-- `atomic_dec_read64(&lock->readers)` and the test of its result. -/
  | decReaders
  /-- `preempt_dec()` in `read_spin_unlock`. -/
  | preemptDec
  deriving DecidableEq, Repr

structure Cpu where
  pc : Pc
  reads : Nat
  writing : Bool
  preemptCount : BitVec 32
  deriving DecidableEq, Repr

/-- The lock and its users. `owner` is the processor that took `wr_lock` as the first
reader, as long as the readers have it; nothing reads it. -/
structure RwMachine (n : Nat) where
  readers : BitVec 64
  rdLock : Nat
  wrLock : Nat
  owner : Option (Fin n)
  cpu : Fin n → Cpu

namespace RwMachine

variable {n : Nat}

def word (m : RwMachine n) : Lock → Nat
  | .rd => m.rdLock
  | .wr => m.wrLock

def setWord (m : RwMachine n) (lock : Lock) (value : Nat) : RwMachine n :=
  match lock with
  | .rd => { m with rdLock := value }
  | .wr => { m with wrLock := value }

@[simp] theorem setWord_cpu (m : RwMachine n) (lock : Lock) (value : Nat) :
    (m.setWord lock value).cpu = m.cpu := by
  cases lock <;> rfl

def setCpu (m : RwMachine n) (i : Fin n) (c : Cpu) : RwMachine n :=
  { m with cpu := Function.update m.cpu i c }

def setPc (m : RwMachine n) (i : Fin n) (pc : Pc) : RwMachine n := m.setCpu i { m.cpu i with pc := pc }

def preemptInc (m : RwMachine n) (i : Fin n) (pc : Pc) : RwMachine n :=
  m.setCpu i { m.cpu i with pc := pc, preemptCount := (m.cpu i).preemptCount + 1#32 }

def preemptDec (m : RwMachine n) (i : Fin n) (pc : Pc) : RwMachine n :=
  m.setCpu i { m.cpu i with pc := pc, preemptCount := (m.cpu i).preemptCount - 1#32 }

end RwMachine

def Acquire.lock : Acquire → Lock
  | .readEnter | .readLeave => .rd
  | .firstReader | .write => .wr

def Release.lock : Release → Lock
  | .readEntered | .readLeft => .rd
  | .lastReader | .written => .wr

variable {n : Nat}

def acquired (m : RwMachine n) (i : Fin n) : Acquire → RwMachine n
  | .readEnter => m.setPc i .incReaders
  | .firstReader => { m.setPc i .preemptInc with owner := some i }
  | .readLeave => m.setPc i .decReaders
  | .write => m.setCpu i { m.cpu i with pc := .idle, writing := true }

/-- `xchg` with the contents of `rax`, and the test of what it returns. -/
def exchange (m : RwMachine n) (i : Fin n) (site : Acquire) (rax : Nat) : RwMachine n :=
  let old := m.word site.lock
  let m := m.setWord site.lock rax
  if old = 0 then acquired m i site else m.setPc i (.spinLock site (.test old))

def advance (m : RwMachine n) (i : Fin n) : RwMachine n :=
  match (m.cpu i).pc with
  | .idle => m
  | .spinLock site .preemptInc => m.preemptInc i (.spinLock site .exchange)
  | .spinLock site .exchange => exchange m i site 1
  | .spinLock site (.test rax) =>
    if (m.word site.lock).testBit 0 then m else m.setPc i (.spinLock site (.exchangeAgain rax))
  | .spinLock site (.exchangeAgain rax) => exchange m i site rax
  | .incReaders =>
    let m := { m with readers := m.readers + 1#64 }
    m.setPc i (if m.readers = 1#64 then .spinLock .firstReader .preemptInc else .preemptInc)
  | .preemptInc => m.preemptInc i (.spinUnlock .readEntered .store)
  | .decReaders =>
    let m := { m with readers := m.readers - 1#64 }
    m.setPc i (if m.readers = 0#64 then .spinUnlock .lastReader .store else .preemptDec)
  | .preemptDec => m.preemptDec i (.spinUnlock .readLeft .store)
  | .spinUnlock site .store =>
    let m := (m.setWord site.lock 0).setPc i (.spinUnlock site .preemptDec)
    if site = .lastReader then { m with owner := none } else m
  | .spinUnlock .readEntered .preemptDec =>
    m.setCpu i { m.cpu i with
      pc := .idle, reads := (m.cpu i).reads + 1, preemptCount := (m.cpu i).preemptCount - 1#32 }
  | .spinUnlock .lastReader .preemptDec => m.preemptDec i .preemptDec
  | .spinUnlock .readLeft .preemptDec => m.preemptDec i .idle
  | .spinUnlock .written .preemptDec => m.preemptDec i .idle

inductive Call where
  | readSpinLock
  | readSpinUnlock
  | writeSpinLock
  | writeSpinUnlock
  deriving DecidableEq, Repr

def Call.Allowed (c : Cpu) : Call → Prop
  | .readSpinUnlock => 0 < c.reads
  | .writeSpinUnlock => c.writing = true
  | _ => True

instance (c : Cpu) : (call : Call) → Decidable (call.Allowed c)
  | .readSpinLock => .isTrue trivial
  | .readSpinUnlock => inferInstanceAs (Decidable (0 < c.reads))
  | .writeSpinLock => .isTrue trivial
  | .writeSpinUnlock => inferInstanceAs (Decidable (c.writing = true))

def beginCall (m : RwMachine n) (i : Fin n) : Call → RwMachine n
  | .readSpinLock => m.setPc i (.spinLock .readEnter .preemptInc)
  | .readSpinUnlock =>
    m.setCpu i { m.cpu i with pc := .spinLock .readLeave .preemptInc, reads := (m.cpu i).reads - 1 }
  | .writeSpinLock => m.setPc i (.spinLock .write .preemptInc)
  | .writeSpinUnlock => m.setCpu i { m.cpu i with pc := .spinUnlock .written .store, writing := false }

inductive RwStep (guard : RwMachine n → Fin n → Prop) : RwMachine n → RwMachine n → Prop where
  | call {m : RwMachine n} (i : Fin n) (call : Call) (idle : (m.cpu i).pc = .idle)
      (allowed : call.Allowed (m.cpu i)) : RwStep guard m (beginCall m i call)
  | run {m : RwMachine n} (i : Fin n) (allowed : guard m i) : RwStep guard m (advance m i)

/-- `readers` has room for another reader. -/
def ReaderRoom (m : RwMachine n) (i : Fin n) : Prop := (m.cpu i).pc = .incReaders → m.readers + 1#64 ≠ 0#64

def RwMachine.initial (start : Fin n → BitVec 32) : RwMachine n :=
  ⟨0#64, 0, 0, none, fun i => ⟨.idle, 0, false, start i⟩⟩

end ByteOS.Smp
