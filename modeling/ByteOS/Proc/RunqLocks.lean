import ByteOS.Lib.LockOrder
import ByteOS.Lib.Transition

/-! The locks that `runq_add`, `runq_next` and `runq_balance_pull` take.

A step acquires one lock, releases one, or does the work between; a processor whose
`spin_lock` finds the lock taken tries again later. Of a queue the model keeps the number
of its threads, which decides how far the loop of `runq_balance_pull` goes. A task may be
moved between the first two lines of `runq_add`; the queue it locks is then that of the
processor it was on, and can be any.

`spin_lock` increments `preempt_count`, but `isr_global_handler` does not look at it: a tick
can call `schedule`, and with it these operations, in the middle of one of them. The
operation that was left goes on later.
-/

set_option autoImplicit false

namespace ByteOS.Proc.RunqLocks

open Lib
open Function (update update_self update_of_ne)

variable {n : Nat}

/-- The processors that the loop on `c` does not skip. -/
abbrev Other (c : Fin n) : Type := { i : Fin n // i ≠ c }

/-- The next instruction of processor `c`. -/
inductive Pc (c : Fin n) where
  | outside
  -- `runq_add` for the queue of `q`
  | addLock (q : Fin n)
  | addInsert (q : Fin n)
  | addUnlock (q : Fin n)
  -- `runq_next`
  | nextLock
  | nextRemove
  | nextUnlock
  -- `runq_balance_pull`, from the test of the loop on
  | loop (i : Nat)
  | lockFirst (i : Other c)
  | lockSecond (i : Other c)
  | pull (i : Other c)
  | unlockSecond (i : Other c) (shouldExit : Bool)
  | unlockFirst (i : Other c) (shouldExit : Bool)
  deriving DecidableEq

/-- `left` are the operations that a processor has left for an interrupt, the last one first. -/
structure Queues (n : Nat) where
  lock : Fin n → Option (Fin n)
  numThreads : Fin n → Nat
  pc : (c : Fin n) → Pc c
  left : (c : Fin n) → List (Pc c)

def Other.first {c : Fin n} (i : Other c) : Fin n := if c < i.val then c else i.val

def Other.second {c : Fin n} (i : Other c) : Fin n := if c < i.val then i.val else c

namespace Queues

def setPc (m : Queues n) (c : Fin n) (pc : Pc c) : Queues n := { m with pc := update m.pc c pc }

def setThreads (m : Queues n) (q : Fin n) (count : Nat) : Queues n :=
  { m with numThreads := update m.numThreads q count }

def acquire (m : Queues n) (c q : Fin n) (pc : Pc c) : Queues n :=
  if m.lock q = none then { m.setPc c pc with lock := update m.lock q (some c) } else m

def release (m : Queues n) (c q : Fin n) (pc : Pc c) : Queues n :=
  { m.setPc c pc with lock := update m.lock q none }

end Queues

def advance (m : Queues n) (c : Fin n) : Queues n :=
  match m.pc c with
  | .outside => m
  | .addLock q => m.acquire c q (.addInsert q)
  | .addInsert q => (m.setThreads q (m.numThreads q + 1)).setPc c (.addUnlock q)
  | .addUnlock q => m.release c q .outside
  | .nextLock => m.acquire c c .nextRemove
  | .nextRemove => (m.setThreads c (m.numThreads c - 1)).setPc c .nextUnlock
  | .nextUnlock => m.release c c .outside
  | .loop i =>
    if inside : i < n then
      if other : ⟨i, inside⟩ ≠ c then m.setPc c (.lockFirst ⟨⟨i, inside⟩, other⟩)
      else m.setPc c (.loop (i + 1))
    else m.setPc c .outside
  | .lockFirst i => m.acquire c i.first (.lockSecond i)
  | .lockSecond i => m.acquire c i.second (.pull i)
  | .pull i =>
    if 0 < m.numThreads i then
      let m := m.setThreads i (m.numThreads i - 1)
      (m.setThreads c (m.numThreads c + 1)).setPc c (.unlockSecond i true)
    else m.setPc c (.unlockSecond i false)
  | .unlockSecond i shouldExit => m.release c i.second (.unlockFirst i shouldExit)
  | .unlockFirst i shouldExit => m.release c i.first (if shouldExit then .outside else .loop (i.val + 1))

inductive Operation (n : Nat) where
  | add (q : Fin n)
  | next
  | balancePull
  deriving DecidableEq, Repr

def Operation.entry (c : Fin n) : Operation n → Pc c
  | .add q => .addLock q
  | .next => .nextLock
  | .balancePull => .loop 0

namespace Queues

def Inside (m : Queues n) (c : Fin n) : Prop := m.pc c ≠ .outside ∨ m.left c ≠ []

instance (m : Queues n) (c : Fin n) : Decidable (m.Inside c) := inferInstanceAs (Decidable (_ ∨ _))

/-- Processor `c` begins an operation, in an interrupt if it is inside one. -/
def call (m : Queues n) (c : Fin n) (op : Operation n) : Queues n :=
  { m.setPc c (op.entry c) with
    left := if m.pc c = .outside then m.left else update m.left c (m.pc c :: m.left c) }

def resume (m : Queues n) (c : Fin n) : Option (Queues n) :=
  match m.pc c, m.left c with
  | .outside, pc :: rest => some { m.setPc c pc with left := update m.left c rest }
  | _, _ => none

def initial (numThreads : Fin n → Nat) : Queues n :=
  ⟨fun _ => none, numThreads, fun _ => .outside, fun _ => []⟩

end Queues

/-- The operations begin only where `allowed` says so. -/
inductive Step (allowed : Queues n → Fin n → Prop) : Queues n → Queues n → Prop where
  | call {m : Queues n} (c : Fin n) (op : Operation n) (begins : allowed m c) : Step allowed m (m.call c op)
  | run {m : Queues n} (c : Fin n) : Step allowed m (advance m c)
  | resume {m m' : Queues n} (c : Fin n) (returns : m.resume c = some m') : Step allowed m m'

/-- No operation begins inside another one of the same processor. -/
def Unnested (m : Queues n) (c : Fin n) : Prop := ¬ m.Inside c

/-! ## Who holds what -/

namespace Pc

variable {c : Fin n}

def awaited : Pc c → Option (Fin n)
  | .addLock q => some q
  | .nextLock => some c
  | .lockFirst i => some i.first
  | .lockSecond i => some i.second
  | _ => none

def held : Pc c → List (Fin n)
  | .addInsert q | .addUnlock q => [q]
  | .nextRemove | .nextUnlock => [c]
  | .lockSecond i | .unlockFirst i _ => [i.first]
  | .pull i | .unlockSecond i _ => [i.first, i.second]
  | _ => []

end Pc

theorem Other.first_lt_second {c : Fin n} (i : Other c) : i.first < i.second := by
  rw [Other.first, Other.second]
  split
  case isTrue lower => exact lower
  case isFalse higher => exact lt_of_le_of_ne (not_lt.mp higher) i.property

/-- Locks are taken in the order of the ids. -/
theorem Pc.held_lt_awaited {c q r : Fin n} {pc : Pc c} (holds : q ∈ pc.held)
    (awaits : pc.awaited = some r) : q < r := by
  cases pc with
  | lockSecond i =>
    obtain rfl := List.mem_singleton.mp holds
    cases awaits
    exact i.first_lt_second
  | addLock | nextLock | lockFirst => cases holds
  | outside | addInsert | addUnlock | nextRemove | nextUnlock | loop | pull | unlockSecond | unlockFirst => cases awaits

/-- The locks are taken by the processors that are between the acquisition and the release. -/
def Accounted (m : Queues n) : Prop := ∀ q c, m.lock q = some c ↔ q ∈ (m.pc c).held

variable {m m' : Queues n} {c q : Fin n} {pc : Pc c}

theorem Accounted.setPc (good : Accounted m) (c : Fin n) (pc : Pc c) (lock : m'.lock = m.lock)
    (moved : m'.pc = update m.pc c pc) (same : pc.held = (m.pc c).held) : Accounted m' := by
  intro r d
  rw [lock, moved, good r d]
  by_cases here : d = c
  · subst here
    rw [update_self, same]
  · rw [update_of_ne here]

theorem Accounted.acquire (good : Accounted m) (taken : pc.held = (m.pc c).held ++ [q]) :
    Accounted (m.acquire c q pc) := by
  rw [Queues.acquire]
  split
  case isFalse => exact good
  case isTrue unlocked =>
    intro r d
    change update m.lock q (some c) r = some d ↔ r ∈ (update m.pc c pc d).held
    by_cases here : d = c
    · subst here
      rw [update_self, taken, List.mem_append, List.mem_singleton, ← good]
      by_cases same : r = q
      · simp [same]
      · simp [same]
    · rw [update_of_ne here, ← good]
      by_cases same : r = q
      · subst same
        simp [unlocked, Ne.symm here]
      · rw [update_of_ne same]

theorem Accounted.release (good : Accounted m) (taken : (m.pc c).held = pc.held ++ [q])
    (once : q ∉ pc.held) : Accounted (m.release c q pc) := by
  intro r d
  change update m.lock q none r = some d ↔ r ∈ (update m.pc c pc d).held
  have mine : m.lock q = some c := (good q c).mpr (by simp [taken])
  by_cases here : d = c
  · subst here
    rw [update_self]
    by_cases same : r = q
    · subst same
      simp [once]
    · rw [update_of_ne same, good, taken, List.mem_append, List.mem_singleton]
      simp [same]
  · rw [update_of_ne here]
    by_cases same : r = q
    · subst same
      rw [update_self, ← good, mine]
      simp [Ne.symm here]
    · rw [update_of_ne same, good]

theorem Accounted.advance (good : Accounted m) (c : Fin n) : Accounted (advance m c) := by
  rw [RunqLocks.advance]
  split
  case h_1 => exact good
  case h_2 q here => exact good.acquire (by rw [here]; rfl)
  case h_3 q here => exact good.setPc c (.addUnlock q) rfl rfl (by rw [here]; rfl)
  case h_4 q here => exact good.release (by rw [here]; rfl) List.not_mem_nil
  case h_5 here => exact good.acquire (by rw [here]; rfl)
  case h_6 here => exact good.setPc c .nextUnlock rfl rfl (by rw [here]; rfl)
  case h_7 here => exact good.release (by rw [here]; rfl) List.not_mem_nil
  case h_8 i here =>
    split
    case isTrue =>
      split
      case isTrue inside other =>
        exact good.setPc c (.lockFirst ⟨⟨i, inside⟩, other⟩) rfl rfl (by rw [here]; rfl)
      case isFalse => exact good.setPc c (.loop (i + 1)) rfl rfl (by rw [here]; rfl)
    case isFalse => exact good.setPc c .outside rfl rfl (by rw [here]; rfl)
  case h_9 i here => exact good.acquire (by rw [here]; rfl)
  case h_10 i here => exact good.acquire (by rw [here]; rfl)
  case h_11 i here =>
    split
    case isTrue => exact good.setPc c (.unlockSecond i true) rfl rfl (by rw [here]; rfl)
    case isFalse => exact good.setPc c (.unlockSecond i false) rfl rfl (by rw [here]; rfl)
  case h_12 i shouldExit here =>
    refine good.release (by rw [here]; rfl) ?_
    exact fun same => i.first_lt_second.ne (List.mem_singleton.mp same).symm
  case h_13 i shouldExit here =>
    have nothing : Pc.held (if shouldExit then .outside else .loop (i.val + 1) : Pc c) = [] := by
      split <;> rfl
    exact good.release (by rw [here, nothing]; rfl) (by rw [nothing]; exact List.not_mem_nil)

theorem advance_left (m : Queues n) (c : Fin n) : (advance m c).left = m.left := by
  have acquired : ∀ q pc, (m.acquire c q pc).left = m.left := by
    intro q pc
    rw [Queues.acquire]
    split <;> rfl
  rw [advance]
  split
  case h_2 | h_5 | h_9 | h_10 => exact acquired _ _
  case h_8 | h_11 => repeat' (first | rfl | split)
  all_goals rfl

/-- Without nesting, no operation is ever left. -/
structure Flat (m : Queues n) : Prop where
  accounted : Accounted m
  left : ∀ c, m.left c = []

variable {numThreads : Fin n → Nat}

theorem flat_of_run (run : Reaches (Step Unnested) (.initial numThreads) m) : Flat m := by
  refine run.invariant Flat ?_ ?_
  · refine ⟨?_, fun _ => rfl⟩
    intro q c
    simp [Queues.initial, Pc.held]
  · intro m m' _ step flat
    cases step with
    | call c op begins =>
      have outside : m.pc c = .outside := not_not.mp (not_or.mp begins).1
      refine ⟨flat.accounted.setPc c (op.entry c) rfl rfl ?_, ?_⟩
      · rw [outside]
        cases op <;> rfl
      · intro d
        rw [Queues.call, if_pos outside]
        exact flat.left d
    | run c =>
      refine ⟨flat.accounted.advance c, fun d => ?_⟩
      rw [advance_left]
      exact flat.left d
    | resume c returns =>
      rw [Queues.resume, flat.left c] at returns
      split at returns <;> simp_all

/-! ## Deadlocks -/

def Spins (m : Queues n) (c q : Fin n) : Prop := (m.pc c).awaited = some q

def Holds (m : Queues n) (c q : Fin n) : Prop := m.lock q = some c

def Blocked (m : Queues n) (c d : Fin n) : Prop := WaitsFor (Spins m) (Holds m) c d

/-- If no operation begins inside another: processors never wait for each other in a cycle, a
processor whose operation has ended holds no lock, and every chain of processors that wait
ends in one that does not. -/
theorem runq_locks_deadlock_free (run : Reaches (Step Unnested) (.initial numThreads) m) :
    (∀ c, ¬ Relation.TransGen (Blocked m) c c) ∧ (∀ c q, ¬ m.Inside c → ¬ Holds m c q) ∧
    ∀ c, ∃ d, Relation.ReflTransGen (Blocked m) c d ∧ ∀ e, ¬ Blocked m d e := by
  have good := (flat_of_run run).accounted
  have ordered : ∀ c held awaited, Holds m c held → Spins m c awaited → held < awaited := by
    intro c held awaited holds spins
    exact Pc.held_lt_awaited ((good held c).mp holds) spins
  refine ⟨WaitsFor.no_cycle ordered, ?_, WaitsFor.exists_last ordered⟩
  intro c q ended holds
  have outside : m.pc c = .outside := not_not.mp (not_or.mp ended).1
  have held := (good q c).mp holds
  rw [outside] at held
  cases held

section Interleave

variable (allowed : Queues n → Fin n → Prop) [∀ m c, Decidable (allowed m c)]

def interleave (m : Queues n) : List (Fin n × Option (Operation n)) → Option (Queues n)
  | [] => some m
  | (c, some op) :: rest => if allowed m c then interleave (m.call c op) rest else none
  | (c, none) :: rest => interleave (advance m c) rest

variable {allowed}

theorem reaches_of_interleave {order : List (Fin n × Option (Operation n))}
    (ran : interleave allowed m order = some m') : Reaches (Step allowed) m m' := by
  induction order generalizing m with
  | nil =>
    cases ran
    exact .refl
  | cons step rest ih =>
    obtain ⟨c, op | op⟩ := step
    · exact .head (.run c) (ih ran)
    · rw [interleave, Option.ite_none_right_eq_some] at ran
      exact .head (.call c op ran.1) (ih ran.2)

end Interleave

instance (m : Queues n) (c : Fin n) : Decidable (Unnested m c) := inferInstanceAs (Decidable (¬ _))

/-- Two processors balance at the same time: one waits for the other, which does not wait. -/
theorem runq_locks_deadlock_free_pair : ∃ m : Queues 2, Blocked m 1 0 ∧
    ¬ Relation.TransGen (Blocked m) 1 1 ∧
    ∃ d, Relation.ReflTransGen (Blocked m) 1 d ∧ ∀ e, ¬ Blocked m d e := by
  have finished : ((interleave Unnested (.initial fun _ : Fin 2 => 0)
      [(0, some .balancePull), (0, none), (0, none), (0, none),
        (1, some .balancePull), (1, none), (1, none)]).map fun m => ((m.pc 1).awaited, m.lock 0)) =
      some (some 0, some 0) := by decide +kernel
  obtain ⟨m, ran, values⟩ := Option.map_eq_some_iff.mp finished
  simp only [Prod.mk.injEq] at values
  obtain ⟨acyclic, _, ends⟩ := runq_locks_deadlock_free (reaches_of_interleave ran)
  exact ⟨m, ⟨0, values.1, values.2⟩, acyclic 1, ends 1⟩

/-- `task_wakeup` of a fork is in `runq_add` with the lock taken when the fifth tick of the task
calls `schedule`, which puts the task back into the same queue: the processor waits for itself. -/
theorem runq_add_interrupted : ∃ m : Queues 1,
    Reaches (Step fun _ _ => True) (.initial fun _ => 1) m ∧ m.Inside 0 ∧
    Relation.TransGen (Blocked m) 0 0 := by
  have finished : ((interleave (fun _ _ => True) (.initial fun _ : Fin 1 => 1)
      [(0, some (.add 0)), (0, none), (0, some (.add 0))]).map fun m =>
        (m.left 0, (m.pc 0).awaited, m.lock 0)) = some ([.addInsert 0], some 0, some 0) := by decide +kernel
  obtain ⟨m, ran, values⟩ := Option.map_eq_some_iff.mp finished
  simp only [Prod.mk.injEq] at values
  refine ⟨m, reaches_of_interleave ran, .inr ?_, .single ⟨0, values.2.1, values.2.2⟩⟩
  rw [values.1]
  exact List.cons_ne_nil _ _

end ByteOS.Proc.RunqLocks
