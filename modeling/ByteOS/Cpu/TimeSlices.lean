import ByteOS.Cpu.PreemptSafety

/-! The time slices that `lapic_timer_callback` counts.

Beside the processor stands an account of the ticks that were charged to every task: those
since it was last preempted, that is since its last call of `sched_yield_preempt`, and
those before. `num_slices` is the sum of both, because nothing sets it back.
-/

set_option autoImplicit false

namespace ByteOS.Cpu.Preempt

open Lib
open Function (update update_self update_of_ne)

/-- The ticks charged to a task before it was last preempted, and since. -/
structure Account where
  before : Nat
  since : Nat
  deriving DecidableEq, Repr

def Account.total (acc : Account) : Nat := acc.before + acc.since

section Task

variable {I : Type}

def Account.advance (acc : Account) (reschedule : Bool) : Frame → Account
  | .isr _ .timer => if reschedule then acc else { acc with since := acc.since + 1 }
  | .yieldPreempt .preemptInc => ⟨acc.total, 0⟩
  | _ => acc

def Account.note (acc : Account) (cpu : Percpu) (t : Task) : Action I → Account
  | .advance => t.frames.head?.elim acc (acc.advance cpu.reschedule)
  | _ => acc

structure Ledger (I : Type) where
  machine : Machine I
  account : I → Account

/-- The callback has counted enough slices and stores to `reschedule` next. -/
def Machine.Flags (m : Machine I) : Prop :=
  ∃ info below, (m.task m.current).frames = .isr info .timerSet :: below

def Machine.Charges (m : Machine I) : Prop :=
  ∃ info below, (m.task m.current).frames = .isr info .timer :: below ∧ m.cpu.reschedule = false

/-! ## What a step does to the count -/

variable {cpu cpu' : Percpu} {t t' : Task} {acc acc' : Account} {f g : Frame} {below : List Frame}

/-- `num_slices` is the number of all ticks charged, and a call that is about to store to
`reschedule` has seen enough of them. -/
structure Audited (acc : Account) (t : Task) : Prop where
  count : t.numSlices = BitVec.ofNat 32 acc.total
  pending : ∀ info, .isr info .timerSet ∈ t.frames → maxSlices.toNat ≤ acc.total

variable (audited : Audited acc t)
include audited

theorem Audited.uncharged (count : t'.numSlices = t.numSlices)
    (pending : ∀ info, .isr info .timerSet ∈ t'.frames → .isr info .timerSet ∈ t.frames) :
    Audited acc t' where
  count := count.trans audited.count
  pending info inside := audited.pending info (pending info inside)

theorem Audited.replace (was : t.frames = f :: below) (now : t'.frames = g :: below)
    (count : t'.numSlices = t.numSlices) (other : ∀ info, g ≠ .isr info .timerSet) : Audited acc t' := by
  apply audited.uncharged count
  intro info inside
  rw [now] at inside
  obtain same | inside := List.mem_cons.mp inside
  · exact absurd same.symm (other info)
  · rw [was]
    exact List.mem_cons_of_mem f inside

theorem Audited.push (now : t'.frames = g :: t.frames) (count : t'.numSlices = t.numSlices)
    (other : ∀ info, g ≠ .isr info .timerSet) : Audited acc t' := by
  apply audited.uncharged count
  intro info inside
  rw [now] at inside
  exact (List.mem_cons.mp inside).resolve_left fun same => other info same.symm

theorem Audited.pop (was : t.frames = f :: below) (now : t'.frames = below)
    (count : t'.numSlices = t.numSlices) : Audited acc t' := by
  apply audited.uncharged count
  intro info inside
  rw [was, ← now]
  exact List.mem_cons_of_mem f inside

theorem Audited.of_total (same : acc'.total = acc.total) : Audited acc' t where
  count := same ▸ audited.count
  pending := same ▸ audited.pending

/-- The charge itself: the store is ahead only if enough slices have been counted. -/
theorem Audited.charge {info : IsrInfo} {pc : IsrPc} (was : t.frames = .isr info .timer :: below)
    (now : t'.frames = .isr info pc :: below) (count : t'.numSlices = t.numSlices + 1#32)
    (enough : pc = .timerSet → maxSlices ≤ t'.numSlices) :
    Audited { acc with since := acc.since + 1 } t' := by
  have total : t'.numSlices = BitVec.ofNat 32 (acc.total + 1) := by
    rw [count, audited.count, BitVec.ofNat_add]
  refine ⟨total, fun other inside => ?_⟩
  rw [now] at inside
  obtain same | inside := List.mem_cons.mp inside
  · -- the count is reduced modulo `2 ^ 32` and so not above the sum
    cases same
    have stored := enough rfl
    rw [total] at stored
    exact le_trans stored (BitVec.toNat_ofNat _ _ ▸ Nat.mod_le _ _)
  · have old : maxSlices.toNat ≤ acc.total := by
      apply audited.pending other
      rw [was]
      exact List.mem_cons_of_mem _ inside
    exact Nat.le_succ_of_le old

theorem isrGlobalHandler_audited {info : IsrInfo} {pc : IsrPc}
    (was : t.frames = .isr info pc :: below)
    (ran : isrGlobalHandler cpu t info below pc = some (cpu', t')) :
    Audited (acc.advance cpu.reschedule (.isr info pc)) t' := by
  cases pc with
  | start =>
    cases ran
    refine audited.replace was rfl rfl fun other same => ?_
    injection same with _ same
    cases handler : info.handler with
    | none => simp [handler, enterHandler] at same
    | some handler' => cases handler' <;> simp [handler, enterHandler] at same
  | handler held =>
    cases held with
    | zero =>
      cases ran
      exact audited.replace was rfl rfl (by simp)
    | succ held => cases ran
  | timer =>
    rw [isrGlobalHandler] at ran
    rw [Account.advance]
    split at ran
    case isTrue set =>
      cases ran
      rw [if_pos set]
      exact audited.replace was rfl rfl (by simp)
    case isFalse clear =>
      cases ran
      rw [if_neg clear]
      apply audited.charge was rfl rfl
      intro stores
      by_contra few
      simp [few] at stores
  | timerSet =>
    cases ran
    exact audited.replace was rfl rfl (by simp)
  | leave =>
    rw [isrGlobalHandler] at ran
    split at ran <;> obtain ⟨-, rfl⟩ := Prod.mk.inj (Option.some.inj ran) <;>
      exact audited.replace was rfl rfl (by simp)
  | test intDepth =>
    rw [isrGlobalHandler] at ran
    split at ran
    case isTrue yields =>
      cases ran
      have waits : Audited acc { t with frames := .isr info .yield :: below } :=
        audited.replace was rfl rfl (by simp)
      exact waits.push rfl rfl (by simp)
    case isFalse =>
      cases ran
      exact audited.pop was rfl rfl
  | yield =>
    cases ran
    exact audited.pop was rfl rfl

theorem schedYieldPreempt_audited {pc : YieldPc} (was : t.frames = .yieldPreempt pc :: below)
    (ran : schedYieldPreempt cpu t below pc = some (cpu', t')) :
    Audited (acc.advance cpu.reschedule (.yieldPreempt pc)) t' := by
  cases pc with
  | preemptInc =>
    cases ran
    have stepped : Audited acc { t with frames := .yieldPreempt .preemptDec :: below } :=
      audited.replace was rfl rfl (by simp)
    exact stepped.of_total rfl
  | preemptDec | schedule =>
    cases ran
    exact audited.replace was rfl rfl (by simp)

theorem schedule_audited {pc : SchedulePc} (was : t.frames = .schedule pc :: below)
    (ran : schedule cpu t below pc = some (cpu', t')) : Audited acc t' := by
  cases pc with
  | preemptInc | clear =>
    cases ran
    exact audited.replace was rfl rfl (by simp)
  | body | suspended => cases ran
  | resumed held =>
    cases held with
    | zero =>
      cases ran
      exact audited.pop was rfl rfl
    | succ held => cases ran

theorem act_audited {a : Action I} (ran : t.act cpu a = some (cpu', t')) :
    Audited (acc.note cpu t a) t' := by
  cases a with
  | preemptInc | preemptDec =>
    simp only [Task.act, preemptInc, preemptDec] at ran
    split at ran
    case h_1 =>
      cases ran
      exact audited.uncharged rfl fun _ inside => inside
    case h_2 info held below was | h_3 held below was | h_4 held below was =>
      cases ran
      exact audited.replace was rfl rfl (by simp)
    case h_5 => cases ran
  | yield =>
    rw [Task.act] at ran
    split at ran
    case isTrue empty =>
      cases ran
      exact audited.push (by rw [empty]) rfl (by simp)
    case isFalse => cases ran
  | deliver info =>
    cases ran
    exact audited.push rfl rfl (by simp)
  | advance =>
    rw [Task.act, Preempt.advance] at ran
    rw [Account.note]
    cases stack : t.frames with
    | nil => simp [stack] at ran
    | cons top below =>
      rw [stack] at ran
      cases top with
      | isr info pc => exact isrGlobalHandler_audited audited stack ran
      | yieldPreempt pc => exact schedYieldPreempt_audited audited stack ran
      | schedule pc => exact schedule_audited audited stack ran
  | switchTo next => cases ran

end Task

/-! ## Runs -/

section Runs

variable {I : Type} [DecidableEq I] {l l' : Ledger I}

def Ledger.boot (first : I) : Ledger I := ⟨Machine.boot first, fun _ => ⟨0, 0⟩⟩

def Ledger.act (l : Ledger I) (a : Action I) : Option (Ledger I) := do
  let m := l.machine
  let acc := (l.account m.current).note m.cpu (m.task m.current) a
  return ⟨← m.act a, update l.account m.current acc⟩

inductive Accounted : Ledger I → Ledger I → Prop where
  | act {l l' : Ledger I} (a : Action I) (ran : l.act a = some l') : Accounted l l'

def Ledger.Right (l : Ledger I) : Prop := ∀ i, Audited (l.account i) (l.machine.task i)

theorem Ledger.boot_right (first : I) : (Ledger.boot first).Right := by
  intro i
  refine ⟨rfl, fun info inside => ?_⟩
  by_cases same : i = first <;> simp [Ledger.boot, Machine.boot, same] at inside

theorem switchTo_audited {m m' : Machine I} {next i : I} {acc : Account}
    (audited : Audited acc (m.task i)) (ran : switchTo m next = some m') : Audited acc (m'.task i) := by
  simp only [switchTo] at ran
  split at ran
  case h_2 => cases ran
  case h_1 below was =>
    split at ran
    case h_2 => cases ran
    case h_1 below' was' =>
      cases ran
      have left : Audited acc (update m.task m.current
          { m.task m.current with frames := .schedule .suspended :: below } i) := by
        by_cases same : i = m.current
        · subst same
          rw [update_self]
          exact audited.replace was rfl rfl (by simp)
        · rwa [update_of_ne same]
      by_cases same : i = next
      · subst same
        dsimp only
        rw [update_self]
        exact left.replace was' rfl rfl (by simp)
      · dsimp only
        rwa [update_of_ne same]

theorem Ledger.Right.act {a : Action I} (right : l.Right) (ran : l.act a = some l') : l'.Right := by
  obtain ⟨m, stepped, result⟩ := Option.bind_eq_some_iff.mp ran
  cases result
  intro i
  unfold Machine.act at stepped
  split at stepped
  case h_1 next =>
    dsimp only [Account.note]
    rw [Function.update_eq_self]
    exact switchTo_audited (right i) stepped
  case h_2 a other =>
    obtain ⟨⟨cpu, t⟩, mine, result⟩ := Option.bind_eq_some_iff.mp stepped
    cases result
    dsimp only
    by_cases same : i = l.machine.current
    · subst same
      rw [update_self, update_self]
      exact act_audited (right _) mine
    · rw [update_of_ne same, update_of_ne same]
      exact right i

theorem right_of_run {first : I} (run : Reaches Accounted (Ledger.boot first) l) : l.Right := by
  apply run.invariant Ledger.Right (Ledger.boot_right first)
  rintro l l' _ ⟨a, ran⟩ right
  exact right.act ran

theorem Ledger.Right.charge (right : l.Right) (charges : l.machine.Charges) :
    ∃ m, l.machine.act .advance = some m ∧
      (m.Flags ↔ maxSlices.toNat ≤ ((l.account l.machine.current).total + 1) % 2 ^ 32) := by
  obtain ⟨info, below, stack, clear⟩ := charges
  have count : (l.machine.task l.machine.current).numSlices + 1#32 =
      BitVec.ofNat 32 ((l.account l.machine.current).total + 1) := by
    rw [(right l.machine.current).count, BitVec.ofNat_add]
  have enough : maxSlices ≤ (l.machine.task l.machine.current).numSlices + 1#32 ↔
      maxSlices.toNat ≤ ((l.account l.machine.current).total + 1) % 2 ^ 32 := by
    rw [count, BitVec.le_def, BitVec.toNat_ofNat]
  refine ⟨_, by simp [Machine.act, Task.act, Preempt.advance, stack, isrGlobalHandler, clear]; rfl, ?_⟩
  rw [← enough, Machine.Flags]
  dsimp only
  rw [update_self]
  by_cases many : maxSlices ≤ (l.machine.task l.machine.current).numSlices + 1#32 <;> simp [many]

/-- In every run `lapic_timer_callback` sets `reschedule` for a task only if `MAX_SLICES` ticks
have been charged to it since it was created, and since it was last preempted if none were
charged before that. The count goes on after a preemption, so that from then on a single
tick is enough. -/
theorem slices_since_created (first : I) (l : Ledger I) (run : Reaches Accounted (Ledger.boot first) l) :
    (l.machine.Flags → maxSlices.toNat ≤ (l.account l.machine.current).total ∧
      ((l.account l.machine.current).before = 0 → maxSlices.toNat ≤ (l.account l.machine.current).since)) ∧
    (l.machine.Charges → ∃ m, l.machine.act .advance = some m ∧
      (m.Flags ↔ maxSlices.toNat ≤ ((l.account l.machine.current).total + 1) % 2 ^ 32)) := by
  have right := right_of_run run
  refine ⟨?_, right.charge⟩
  rintro ⟨info, below, stack⟩
  have enough : maxSlices.toNat ≤ (l.account l.machine.current).total := by
    apply (right l.machine.current).pending info
    rw [stack]
    exact List.mem_cons_self
  refine ⟨enough, fun unpreempted => ?_⟩
  rwa [Account.total, unpreempted, Nat.zero_add] at enough

def Ledger.run (l : Ledger I) (actions : List (Action I)) : Option (Ledger I) := actions.foldlM Ledger.act l

theorem reaches_of_acts {actions : List (Action I)} (ran : l.run actions = some l') :
    Reaches Accounted l l' :=
  Reaches.of_foldlM (fun _ a _ => .act a) ran

def tickUntilStore : List (Action I) := [.deliver timerInfo, .advance, .advance]

def preempted (next : I) : List (Action I) :=
  [.advance, .advance, .advance, .advance, .advance, .advance, .advance, .advance, .switchTo next]

def yieldBack (next : I) : List (Action I) :=
  [.advance, .yield, .advance, .advance, .switchTo next, .advance, .advance]

/-- The first five ticks of a task. -/
theorem slices_since_created_five : ∃ l : Ledger Bool, Reaches Accounted (Ledger.boot false) l ∧
    l.machine.Flags ∧ l.machine.current = false ∧ maxSlices.toNat ≤ (l.account false).since := by
  have finished : ((Ledger.boot false).run (fourTicks ++ tickUntilStore)).map
      (fun l => (l.machine.current, (l.account false).before, (l.machine.task false).frames)) =
      some (false, 0, [.isr timerInfo .timerSet]) := by decide
  obtain ⟨l, ran, values⟩ := Option.map_eq_some_iff.mp finished
  simp only [Prod.mk.injEq] at values
  obtain ⟨current, unpreempted, stack⟩ := values
  have run := reaches_of_acts ran
  have flags : l.machine.Flags := ⟨timerInfo, [], current ▸ stack⟩
  have enough := ((slices_since_created false l run).1 flags).2
  rw [current] at enough
  exact ⟨l, run, flags, current, enough unpreempted⟩

/-- A task that has been preempted once is flagged again after one tick. -/
theorem flagged_after_one_tick : ∃ l : Ledger Bool, Reaches Accounted (Ledger.boot false) l ∧
    l.machine.Flags ∧ l.machine.current = false ∧ (l.account false).since = 1 := by
  have finished : ((Ledger.boot false).run
      (fourTicks ++ tickUntilStore ++ preempted true ++ yieldBack false ++ tickUntilStore)).map
      (fun l => (l.machine.current, (l.account false).since, (l.machine.task false).frames)) =
      some (false, 1, [.isr timerInfo .timerSet]) := by decide
  obtain ⟨l, ran, values⟩ := Option.map_eq_some_iff.mp finished
  simp only [Prod.mk.injEq] at values
  obtain ⟨current, one, stack⟩ := values
  exact ⟨l, reaches_of_acts ran, ⟨timerInfo, [], current ▸ stack⟩, current, one⟩

end Runs

end ByteOS.Cpu.Preempt
