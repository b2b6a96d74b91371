import ByteOS.Lib.Census
import ByteOS.Lib.Transition
import ByteOS.Smp.TlbShootdown

/-! Safety of TLB shootdowns.

One processor at a time is between taking and releasing `shootdown_lock`, and all messages
whose handlers have not finished are from its call. So the handlers find its variable, and
it waits for them all.
-/

set_option autoImplicit false

namespace ByteOS.Smp.Tlb

open ByteOS.Mm ByteOS.Smp ByteOS.Lib
open Function (update update_self update_of_ne)
open List (mem_append append_nil mem_cons)

variable {n : Nat} {m m' : Machine n} {i j : Fin n}
variable {msg : Message n} {stage : Stage n} {pc : Pc n} {c : Cpu n} {s : Machine n} {op : TlbOp}

section Steps

/-- What a step of `tlb_shootdown` can do. -/
inductive Advanced (m : Machine n) (i : Fin n) : Machine n → Prop where
  | stay : Advanced m i m
  | tookShootdown (pc : (m.cpu i).pc = .lockShootdown) (free : m.shootdownLock = false) :
      Advanced m i ({ m with shootdownLock := true }.setPc i .lockCpus)
  | tookCpus (pc : (m.cpu i).pc = .lockCpus) (free : m.cpuLock (m.cpu i).mmu = false) :
      Advanced m i ({ m with cpuLock := update m.cpuLock (m.cpu i).mmu true }.setCpu i
        { m.cpu i with pc := .publish, taken := m.cpus (m.cpu i).mmu, mark := m.log.length })
  | published (pc : (m.cpu i).pc = .publish) :
      Advanced m i ({ m with opLocation := some (i, (m.cpu i).calls) }.setPc i (.send 0))
  | skipped (k : Fin n) (pc : (m.cpu i).pc = .send k)
      (skip : k ≠ i → ¬ cpusetQueryId (m.cpus (m.cpu i).mmu) k = .ok true) :
      Advanced m i (m.setPc i (.send (k + 1)))
  | counted (k : Fin n) (pc : (m.cpu i).pc = .send k) (other : k ≠ i)
      (member : cpusetQueryId (m.cpus (m.cpu i).mmu) k = .ok true) :
      Advanced m i ({ m with remaining := m.remaining + 1#32 }.setPc i (.sendIpi k))
  | sentAll (k : Nat) (pc : (m.cpu i).pc = .send k) (all : n ≤ k) : Advanced m i (m.setPc i .wait)
  | sent (target : Fin n) (pc : (m.cpu i).pc = .sendIpi target) :
      Advanced m i ({ m with messages := m.messages ++ [Message.mk target i (m.cpu i).calls .sent] }.setPc i
        (.send (target + 1)))
  | waited (pc : (m.cpu i).pc = .wait) (none : m.remaining = 0#32) : Advanced m i (m.setPc i .unlockCpus)
  | releasedCpus (pc : (m.cpu i).pc = .unlockCpus) :
      Advanced m i ({ m with cpuLock := update m.cpuLock (m.cpu i).mmu false }.setPc i .unlockShootdown)
  | releasedShootdown (pc : (m.cpu i).pc = .unlockShootdown) :
      Advanced m i ({ m with shootdownLock := false }.setPc i .idle)

theorem sendLoop_cases {k : Fin n} (pc : (m.cpu i).pc = .send k) (ran : sendLoop m i k = .ok m') :
    Advanced m i m' := by
  unfold sendLoop at ran
  split at ran
  case isTrue other =>
    obtain ⟨member, query, ran⟩ := bind_eq_ok.mp ran
    cases member with
    | true =>
      cases ran
      exact .counted k pc other query
    | false =>
      cases ran
      refine .skipped k pc fun _ member => ?_
      rw [query] at member
      exact nomatch member
  case isFalse same =>
    cases ran
    exact .skipped k pc fun other => absurd other same

theorem advance_cases (ran : advance m i = .ok m') : Advanced m i m' := by
  unfold advance at ran
  dsimp only at ran
  split at ran
  case h_1 =>
    cases ran
    exact .stay
  case h_2 pc =>
    split at ran
    · cases ran
      exact .stay
    case isFalse free =>
      cases ran
      exact .tookShootdown pc (Bool.eq_false_iff.mpr free)
  case h_3 pc =>
    split at ran
    · cases ran
      exact .stay
    case isFalse free =>
      cases ran
      exact .tookCpus pc (Bool.eq_false_iff.mpr free)
  case h_4 pc =>
    cases ran
    exact .published pc
  case h_5 k pc =>
    split at ran
    case isTrue inside => exact sendLoop_cases (k := ⟨k, inside⟩) pc ran
    case isFalse all =>
      cases ran
      exact .sentAll k pc (Nat.le_of_not_lt all)
  case h_6 target pc =>
    cases ran
    exact .sent target pc
  case h_7 pc =>
    split at ran
    · cases ran
      exact .stay
    case isFalse none =>
      cases ran
      exact .waited pc (not_not.mp none)
  case h_8 pc =>
    cases ran
    exact .releasedCpus pc
  case h_9 pc =>
    cases ran
    exact .releasedShootdown pc

def Stage.read : Stage n → Option (OpPtr n)
  | .loaded op | .looping op _ | .leaving op | .finished op => some op
  | _ => none

def Stage.pending : Stage n → Bool
  | .finished _ => false
  | _ => true

/-- What a step of a handler can do, with the stage after it. -/
inductive Handled (m : Machine n) (msg : Message n) : Machine n → Stage n → Prop where
  | entered (stage : msg.stage = .sent) : Handled m msg m .entered
  | loaded (stage : msg.stage = .entered) : Handled m msg m (.loaded m.opLocation)
  | started (ptr : OpPtr n) (op : TlbOp) (stage : msg.stage = .loaded ptr)
      (there : m.deref ptr = some op) : Handled m msg m (.looping ptr op.start)
  | flushed (ptr : OpPtr n) (op : TlbOp) (i : VirtAddr) (stage : msg.stage = .looping ptr i)
      (there : m.deref ptr = some op) (below : i < op.stop) :
      Handled m msg { m with log := m.log ++ [(msg.target, i)] } (.looping ptr (i + 0x1000#64))
  | left (ptr : OpPtr n) (op : TlbOp) (i : VirtAddr) (stage : msg.stage = .looping ptr i)
      (there : m.deref ptr = some op) (ended : ¬ i < op.stop) : Handled m msg m (.leaving ptr)
  | finished (ptr : OpPtr n) (stage : msg.stage = .leaving ptr) :
      Handled m msg { m with remaining := m.remaining - 1#32 } (.finished ptr)
  | lost (ptr : OpPtr n) (read : msg.stage.read = some ptr) (pending : msg.stage.pending = true)
      (gone : m.deref ptr = none) : Handled m msg m .dangling
  | ended : Handled m msg m msg.stage

theorem handle_cases (m : Machine n) (msg : Message n) :
    ∃ s stage, handle m msg = (s, { msg with stage := stage }) ∧ Handled m msg s stage := by
  unfold handle
  split
  case h_1 stage => exact ⟨m, _, rfl, .entered stage⟩
  case h_2 stage => exact ⟨m, _, rfl, .loaded stage⟩
  case h_3 ptr stage =>
    split
    case h_1 op there => exact ⟨m, _, rfl, .started ptr op stage there⟩
    case h_2 gone => exact ⟨m, _, rfl, .lost ptr (by rw [stage]; rfl) (by rw [stage]; rfl) gone⟩
  case h_4 ptr i stage =>
    split
    case h_1 op there =>
      split
      case isTrue below => exact ⟨_, _, rfl, .flushed ptr op i stage there below⟩
      case isFalse ended => exact ⟨m, _, rfl, .left ptr op i stage there ended⟩
    case h_2 gone => exact ⟨m, _, rfl, .lost ptr (by rw [stage]; rfl) (by rw [stage]; rfl) gone⟩
  case h_5 ptr stage => exact ⟨_, _, rfl, .finished ptr stage⟩
  case h_6 ptr stage => exact ⟨m, _, rfl, stage ▸ .ended⟩
  case h_7 stage => exact ⟨m, _, rfl, stage ▸ .ended⟩

theorem Handled.frame (handled : Handled m msg m' stage) :
    m'.cpu = m.cpu ∧ m'.shootdownLock = m.shootdownLock ∧ m'.cpuLock = m.cpuLock ∧
      m'.cpus = m.cpus ∧ m'.opLocation = m.opLocation := by
  cases handled <;> exact ⟨rfl, rfl, rfl, rfl, rfl⟩

end Steps

section Locks

def Pc.Holds : Pc n → Prop
  | .idle | .lockShootdown => False
  | _ => True

def Pc.Locks : Pc n → Prop
  | .publish | .send _ | .sendIpi _ | .wait | .unlockCpus => True
  | _ => False

/-- One processor at a time makes a shootdown, and the set of its address space does not
change while it has `cpu_lock`. -/
structure Locked (m : Machine n) : Prop where
  held : ∀ i, (m.cpu i).pc.Holds → m.shootdownLock = true
  one : ∀ i j, (m.cpu i).pc.Holds → (m.cpu j).pc.Holds → i = j
  cpus : ∀ i, (m.cpu i).pc.Locks → m.cpuLock (m.cpu i).mmu = true ∧ m.cpus (m.cpu i).mmu = (m.cpu i).taken

theorem Pc.Locks.holds (locks : pc.Locks) : pc.Holds := by
  cases pc <;> first | exact trivial | exact locks.elim

theorem cpu_updated (cpu : m'.cpu = update m.cpu i c) : m'.cpu i = c ∧ ∀ j, j ≠ i → m'.cpu j = m.cpu j :=
  ⟨by rw [cpu, update_self], fun j other => by rw [cpu, update_of_ne other]⟩

theorem Locked.step (inv : Locked m) (cpu : m'.cpu = update m.cpu i c)
    (holds : c.pc.Holds → (m.cpu i).pc.Holds ∨ m.shootdownLock = false)
    (held : ∀ j, j ≠ i → (m.cpu j).pc.Holds → m'.shootdownLock = true)
    (own : c.pc.Holds → m'.shootdownLock = true) (cpus : c.pc.Locks → m'.cpuLock c.mmu = true ∧
      m'.cpus c.mmu = c.taken)
    (others : ∀ j, j ≠ i → (m.cpu j).pc.Locks →
      m'.cpuLock (m.cpu j).mmu = true ∧ m'.cpus (m.cpu j).mmu = (m.cpu j).taken) : Locked m' := by
  obtain ⟨mine, theirs⟩ := cpu_updated cpu
  -- a processor that begins to hold the lock has found it free
  have alone : ∀ j, j ≠ i → c.pc.Holds → ¬ (m.cpu j).pc.Holds := by
    intro j other now there
    obtain before | free := holds now
    · exact other (inv.one j i there before)
    · rw [inv.held j there] at free
      exact nomatch free
  refine ⟨fun j now => ?_, fun j k now now' => ?_, fun j now => ?_⟩
  · by_cases same : j = i
    · rw [same, mine] at now
      exact own now
    · rw [theirs j same] at now
      exact held j same now
  · by_cases same : j = i
    · by_cases same' : k = i
      · exact same.trans same'.symm
      · rw [same, mine] at now
        rw [theirs k same'] at now'
        exact absurd now' (alone k same' now)
    · by_cases same' : k = i
      · rw [same', mine] at now'
        rw [theirs j same] at now
        exact absurd now (alone j same now')
      · rw [theirs j same] at now
        rw [theirs k same'] at now'
        exact inv.one j k now now'
  · by_cases same : j = i
    · rw [same, mine] at now ⊢
      exact cpus now
    · rw [theirs j same] at now ⊢
      exact others j same now

theorem Locked.holder_step (inv : Locked m) (holder : (m.cpu i).pc.Holds)
    (cpu : m'.cpu = update m.cpu i c) (own : c.pc.Holds → m'.shootdownLock = true)
    (cpus : c.pc.Locks → m'.cpuLock c.mmu = true ∧ m'.cpus c.mmu = c.taken) : Locked m' := by
  refine inv.step cpu (fun _ => .inl holder) (fun j other there => ?_) own cpus fun j other there => ?_
  · exact absurd (inv.one j i there holder) other
  · exact absurd (inv.one j i there.holds holder) other

theorem Advanced.locked (advanced : Advanced m i m') (inv : Locked m) : Locked m' := by
  have holds : ∀ {pc}, (m.cpu i).pc = pc → pc.Holds → (m.cpu i).pc.Holds := fun same holds => same ▸ holds
  have locks : ∀ {pc}, (m.cpu i).pc = pc → pc.Locks →
      m.cpuLock (m.cpu i).mmu = true ∧ m.cpus (m.cpu i).mmu = (m.cpu i).taken := fun same locks =>
    inv.cpus i (same ▸ locks)
  cases advanced with
  | stay => exact inv
  | tookShootdown pc free =>
    exact inv.step rfl (fun _ => .inr free) (fun _ _ _ => rfl) (fun _ => rfl) nofun fun j _ => inv.cpus j
  | tookCpus pc free =>
    have holder := holds pc trivial
    exact inv.holder_step holder rfl (fun _ => inv.held i holder) fun _ => ⟨update_self _ _ _, rfl⟩
  | published pc | skipped _ pc _ | counted _ pc _ _ | sentAll _ pc _ | sent _ pc | waited pc _ =>
    have holder := holds pc trivial
    exact inv.holder_step holder rfl (fun _ => inv.held i holder) fun _ => locks pc trivial
  | releasedCpus pc =>
    have holder := holds pc trivial
    exact inv.holder_step holder rfl (fun _ => inv.held i holder) nofun
  | releasedShootdown pc => exact inv.holder_step (holds pc trivial) rfl nofun nofun

theorem Locked.frame (inv : Locked m) (cpu : m'.cpu = m.cpu)
    (lock : m'.shootdownLock = m.shootdownLock) (cpuLock : m'.cpuLock = m.cpuLock)
    (cpus : m'.cpus = m.cpus) : Locked m' := by
  refine ⟨fun i => ?_, fun i j => ?_, fun i => ?_⟩
  · rw [cpu, lock]
    exact inv.held i
  · rw [cpu]
    exact inv.one i j
  · rw [cpu, cpuLock, cpus]
    exact inv.cpus i

theorem step_locked (step : Step m m') (inv : Locked m) : Locked m' := by
  cases step with
  | call i mmu op idle =>
    exact inv.step rfl nofun (fun j _ => inv.held j) nofun nofun fun j _ => inv.cpus j
  | run i ran => exact (advance_cases ran).locked inv
  | handler before after msg split =>
    obtain ⟨s, stage, ran, handled⟩ := handle_cases m msg
    obtain ⟨cpu, lock, cpuLock, cpus, _⟩ := handled.frame
    rw [ran]
    exact inv.frame cpu lock cpuLock cpus
  | update mmu id val cpus free ran =>
    refine ⟨inv.held, inv.one, fun i locks => ?_⟩
    obtain ⟨taken, same⟩ := inv.cpus i locks
    have other : (m.cpu i).mmu ≠ mmu := by
      intro clash
      rw [clash, free] at taken
      exact nomatch taken
    exact ⟨taken, (update_of_ne other _ _).trans same⟩

end Locks

variable {before after : List (Message n)}

section Messages

def Pc.Active : Pc n → Prop
  | .send _ | .sendIpi _ | .wait => True
  | _ => False

def Pc.Early : Pc n → Prop
  | .lockShootdown | .lockCpus | .publish => True
  | _ => False

def unfinished (messages : List (Message n)) : Nat := messages.countP (·.stage.pending)

/-- A processor that has incremented `tlb_remaining_cpus` and not sent the IPI yet. -/
def sending (c : Cpu n) : Nat :=
  match c.pc with
  | .sendIpi _ => 1
  | _ => 0

def Pc.limit : Pc n → Nat
  | .send k => min k maxCores
  | .sendIpi target => min target maxCores
  | .wait => maxCores
  | _ => 0

def Pc.Past (j : Fin n) : Pc n → Prop
  | .send k => j.val < k
  | .sendIpi target => j < target
  | .wait => True
  | _ => False

structure Matched (m : Machine n) : Prop where
  published : ∀ i, (m.cpu i).pc.Active → m.opLocation = some (i, (m.cpu i).calls)
  sender : ∀ msg ∈ m.messages, msg.stage.pending = true →
    (m.cpu msg.sender).pc.Active ∧ (m.cpu msg.sender).calls = msg.call
  read : ∀ msg ∈ m.messages, msg.stage ≠ .dangling ∧
    ∀ ptr, msg.stage.read = some ptr → ptr = some (msg.sender, msg.call)
  old : ∀ msg ∈ m.messages, msg.call ≤ (m.cpu msg.sender).calls ∧
    (msg.call = (m.cpu msg.sender).calls → ¬ (m.cpu msg.sender).pc.Early)
  count : m.remaining = BitVec.ofNat 32 (unfinished m.messages + census sending m.cpu)
  bound : ∀ i, (m.cpu i).pc.Active → unfinished m.messages ≤ (m.cpu i).pc.limit
  few : ∀ i target, (m.cpu i).pc = .sendIpi target → target.val < maxCores
  targets : ∀ i j, (m.cpu i).pc.Past j → j ≠ i → cpusetQueryId (m.cpu i).taken j = .ok true →
    ∃ msg ∈ m.messages, msg.target = j ∧ msg.sender = i ∧ msg.call = (m.cpu i).calls

theorem Pc.Active.holds (active : pc.Active) : pc.Holds := by
  cases pc <;> first | exact trivial | exact active.elim

theorem Pc.Past.active (past : pc.Past j) : pc.Active := by
  cases pc <;> first | exact trivial | exact past.elim

theorem sending_eq_zero (inactive : ¬ c.pc.Active) : sending c = 0 := by
  unfold sending
  split
  case h_1 pc => exact absurd (by rw [pc]; trivial) inactive
  case h_2 => rfl

theorem Locked.census_sending (locked : Locked m) (holder : (m.cpu i).pc.Holds) :
    census sending m.cpu = sending (m.cpu i) := by
  refine census_eq_single i fun j other => sending_eq_zero fun active => ?_
  exact other (locked.one j i active.holds holder)

section

variable (inv : Matched m)
include inv

theorem Matched.count_eq (locked : Locked m) (holder : (m.cpu i).pc.Holds) :
    m.remaining = BitVec.ofNat 32 (unfinished m.messages + sending (m.cpu i)) :=
  locked.census_sending holder ▸ inv.count

theorem Matched.unfinished_eq_zero (inactive : ∀ i, ¬ (m.cpu i).pc.Active) : unfinished m.messages = 0 := by
  refine List.countP_eq_zero.mpr fun msg member pending => ?_
  exact inactive msg.sender (inv.sender msg member pending).1

theorem Matched.quiet (cpu : m'.cpu = update m.cpu i c) (inactive : ¬ (m.cpu i).pc.Active)
    (still : ¬ c.pc.Active) (op : m'.opLocation = m.opLocation)
    (messages : m'.messages = m.messages) (remaining : m'.remaining = m.remaining)
    (old : ∀ call, call ≤ (m.cpu i).calls → (call = (m.cpu i).calls → ¬ (m.cpu i).pc.Early) →
      call ≤ c.calls ∧ (call = c.calls → ¬ c.pc.Early)) : Matched m' := by
  obtain ⟨mine, theirs⟩ := cpu_updated cpu
  have active : ∀ j, (m'.cpu j).pc.Active → j ≠ i := by
    rintro j there rfl
    exact still (mine ▸ there)
  refine ⟨fun j there => ?_, fun msg member pending => ?_, messages ▸ inv.read,
    fun msg member => ?_, ?_, fun j there => ?_, fun j target there => ?_, fun j k past => ?_⟩
  · rw [op, theirs j (active j there)]
    exact inv.published j (theirs j (active j there) ▸ there)
  · obtain ⟨there, call⟩ := inv.sender msg (messages ▸ member) pending
    have other : msg.sender ≠ i := by
      intro same
      exact inactive (same ▸ there)
    rw [theirs _ other]
    exact ⟨there, call⟩
  · obtain ⟨le, early⟩ := inv.old msg (messages ▸ member)
    by_cases same : msg.sender = i
    · rw [same, mine]
      rw [same] at le early
      exact old msg.call le early
    · rw [theirs _ same]
      exact ⟨le, early⟩
  · have same : census sending m'.cpu = census sending m.cpu := by
      have moved := census_update sending m.cpu i c
      rw [sending_eq_zero inactive, sending_eq_zero still] at moved
      rwa [cpu]
    rw [remaining, messages, same]
    exact inv.count
  · rw [messages, theirs j (active j there)]
    exact inv.bound j (theirs j (active j there) ▸ there)
  · have other := active j (by rw [there]; trivial)
    exact inv.few j target (theirs j other ▸ there)
  · have other := active j past.active
    rw [theirs j other] at past ⊢
    rw [messages]
    exact inv.targets j k past

theorem Matched.move (locked : Locked m) (holder : (m.cpu i).pc.Holds)
    (cpu : m'.cpu = update m.cpu i c) (calls : c.calls = (m.cpu i).calls) (extra : List (Message n))
    (messages : m'.messages = m.messages ++ extra) (new : ∀ msg ∈ extra, msg.stage = .sent ∧
      msg.sender = i ∧ msg.call = c.calls ∧ c.pc.Active)
    (published : c.pc.Active → m'.opLocation = some (i, c.calls))
    (waiting : ∀ msg ∈ m.messages, msg.stage.pending = true → c.pc.Active)
    (early : c.pc.Early → (m.cpu i).pc.Early)
    (count : m'.remaining = BitVec.ofNat 32 (unfinished m'.messages + sending c))
    (bound : c.pc.Active → unfinished m'.messages ≤ c.pc.limit)
    (few : ∀ target, c.pc = .sendIpi target → target.val < maxCores)
    (targets : ∀ j, c.pc.Past j → j ≠ i → cpusetQueryId c.taken j = .ok true →
      ∃ msg ∈ m'.messages, msg.target = j ∧ msg.sender = i ∧ msg.call = c.calls) : Matched m' := by
  obtain ⟨mine, theirs⟩ := cpu_updated cpu
  have only : ∀ j, (m'.cpu j).pc.Active → j = i := by
    intro j there
    by_contra other
    rw [theirs j other] at there
    exact other (locked.one j i there.holds holder)
  have members : ∀ msg ∈ m'.messages, msg ∈ m.messages ∨ msg ∈ extra := fun msg member =>
    mem_append.mp (messages ▸ member)
  refine ⟨fun j there => ?_, fun msg member pending => ?_, fun msg member => ?_,
    fun msg member => ?_, ?_, fun j there => ?_, fun j target there => ?_, fun j k past => ?_⟩
  · obtain rfl := only j there
    rw [mine] at there ⊢
    exact published there
  · obtain member | member := members msg member
    · obtain ⟨there, call⟩ := inv.sender msg member pending
      have same : msg.sender = i := locked.one _ _ there.holds holder
      rw [same] at call ⊢
      rw [mine, calls]
      exact ⟨waiting msg member pending, call⟩
    · obtain ⟨_, same, call, active⟩ := new msg member
      rw [same, mine]
      exact ⟨active, call.symm⟩
  · obtain member | member := members msg member
    · exact inv.read msg member
    · rw [(new msg member).1]
      exact ⟨nofun, nofun⟩
  · obtain member | member := members msg member
    · obtain ⟨le, notEarly⟩ := inv.old msg member
      by_cases same : msg.sender = i
      · rw [same] at le notEarly ⊢
        rw [mine, calls]
        exact ⟨le, fun current now => notEarly current (early now)⟩
      · rw [theirs _ same]
        exact ⟨le, notEarly⟩
    · obtain ⟨_, same, call, active⟩ := new msg member
      rw [same, mine]
      refine ⟨call.le, fun _ now => ?_⟩
      generalize c.pc = pc at active now
      cases pc <;> first | exact active.elim | exact now.elim
  · have single : census sending m'.cpu = sending c := by
      rw [← mine]
      refine census_eq_single i fun j other => sending_eq_zero fun there => ?_
      exact other (only j there)
    rwa [single]
  · obtain rfl := only j there
    rw [mine] at there ⊢
    exact bound there
  · obtain rfl := only j (by rw [there]; trivial)
    exact few target (mine ▸ there)
  · obtain rfl := only j past.active
    rw [mine] at past ⊢
    exact targets k past

theorem Matched.finished_of_zero (locked : Locked m) (pc : (m.cpu i).pc = .wait)
    (none : m.remaining = 0#32) : ∀ msg ∈ m.messages, ¬ msg.stage.pending = true := by
  have active : (m.cpu i).pc.Active := by rw [pc]; trivial
  have count := inv.count_eq locked active.holds
  have bound := inv.bound i active
  rw [sending, pc, none] at count
  rw [pc] at bound
  have zero : unfinished m.messages = 0 := by
    have value := congrArg BitVec.toNat count
    simp only [Pc.limit, maxCores] at bound
    simp only [BitVec.toNat_ofNat] at value
    omega
  exact List.countP_eq_zero.mp zero

end

theorem Advanced.matched (advanced : Advanced m i m') (locked : Locked m) (inv : Matched m) :
    Matched m' := by
  cases advanced with
  | stay => exact inv
  | tookShootdown pc free | tookCpus pc free =>
    refine inv.quiet rfl (by rw [pc]; exact id) id rfl rfl rfl fun call le early => ⟨le, fun same => ?_⟩
    exact absurd (by rw [pc]; trivial) (early same)
  | published pc =>
    have holder : (m.cpu i).pc.Holds := by rw [pc]; trivial
    have inactive : ∀ j, ¬ (m.cpu j).pc.Active := by
      intro j there
      obtain rfl := locked.one j i there.holds holder
      rw [pc] at there
      exact there
    have count := inv.count_eq locked holder
    rw [sending, pc] at count
    exact inv.move locked holder rfl rfl [] (append_nil _).symm nofun (fun _ => rfl)
      (fun _ _ _ => trivial) nofun count (fun _ => (inv.unfinished_eq_zero inactive).le) nofun nofun
  | skipped k pc skip =>
    have active : (m.cpu i).pc.Active := by rw [pc]; trivial
    have count := inv.count_eq locked active.holds
    rw [sending, pc] at count
    refine inv.move locked active.holds rfl rfl [] (append_nil _).symm nofun
      (fun _ => inv.published i active) (fun _ _ _ => trivial) nofun count
      (fun _ => ?_) nofun fun j past other member => ?_
    · have bound := inv.bound i active
      rw [pc] at bound
      exact bound.trans (by simp only [Pc.limit]; omega)
    · have past : j.val < k + 1 := past
      by_cases before : j.val < k
      · exact inv.targets i j (by rw [pc]; exact before) other member
      · obtain rfl : j = k := Fin.ext (by omega)
        rw [(locked.cpus i (by rw [pc]; trivial)).2] at skip
        exact absurd member (skip other)
  | counted k pc other member =>
    have active : (m.cpu i).pc.Active := by rw [pc]; trivial
    have small : k.val < maxCores := (cpusetQueryId_iff.mp member).1
    have count := inv.count_eq locked active.holds
    rw [sending, pc] at count
    refine inv.move locked active.holds rfl rfl [] (append_nil _).symm nofun
      (fun _ => inv.published i active) (fun _ _ _ => trivial) nofun ?_
      (fun _ => ?_) (fun target same => ?_) fun j past other member => ?_
    · change m.remaining + 1#32 = _
      rw [count]
      exact (BitVec.ofNat_add (n := 32) _ 1).symm
    · have bound := inv.bound i active
      rw [pc] at bound
      exact bound
    · obtain rfl := Pc.sendIpi.inj same
      exact small
    · exact inv.targets i j (by rw [pc]; exact past) other member
  | sentAll k pc all =>
    have active : (m.cpu i).pc.Active := by rw [pc]; trivial
    have count := inv.count_eq locked active.holds
    rw [sending, pc] at count
    refine inv.move locked active.holds rfl rfl [] (append_nil _).symm nofun
      (fun _ => inv.published i active) (fun _ _ _ => trivial) nofun count
      (fun _ => ?_) nofun fun j past other member => ?_
    · have bound := inv.bound i active
      rw [pc] at bound
      exact bound.trans (Nat.min_le_right _ _)
    · exact inv.targets i j (by rw [pc]; exact j.isLt.trans_le all) other member
  | sent target pc =>
    have active : (m.cpu i).pc.Active := by rw [pc]; trivial
    have count := inv.count_eq locked active.holds
    rw [sending, pc] at count
    have more : unfinished (m.messages ++ [Message.mk target i (m.cpu i).calls .sent]) =
        unfinished m.messages + 1 := by
      simp [unfinished, Stage.pending]
    refine inv.move locked active.holds rfl rfl [_] rfl (fun msg member => ?_)
      (fun _ => inv.published i active)
      (fun _ _ _ => trivial) nofun ?_ (fun _ => ?_) nofun fun j past other member => ?_
    · obtain rfl := List.mem_singleton.mp member
      exact ⟨rfl, rfl, rfl, trivial⟩
    · change m.remaining = BitVec.ofNat 32 (unfinished (m.messages ++ _) + 0)
      rwa [more]
    · change unfinished (m.messages ++ _) ≤ min (target.val + 1) maxCores
      have bound := inv.bound i active
      have small := inv.few i target pc
      rw [pc] at bound
      simp only [Pc.limit] at bound
      rw [more]
      omega
    · have past : j.val < target + 1 := past
      by_cases before : j.val < target
      · obtain ⟨msg, there, facts⟩ := inv.targets i j (by rw [pc]; exact before) other member
        exact ⟨msg, List.mem_append_left _ there, facts⟩
      · obtain rfl : j = target := Fin.ext (by omega)
        exact ⟨_, List.mem_append_right _ (List.mem_singleton_self _), rfl, rfl, rfl⟩
  | waited pc none =>
    have active : (m.cpu i).pc.Active := by rw [pc]; trivial
    have finished := inv.finished_of_zero locked pc none
    refine inv.move locked active.holds rfl rfl [] (append_nil _).symm nofun nofun
      (fun msg member pending => ?_) nofun ?_ nofun nofun nofun
    · exact absurd pending (finished msg member)
    · have zero : unfinished m.messages = 0 := List.countP_eq_zero.mpr finished
      change m.remaining = BitVec.ofNat 32 (unfinished m.messages + 0)
      rwa [zero]
  | releasedCpus pc | releasedShootdown pc =>
    exact inv.quiet rfl (by rw [pc]; exact id) id rfl rfl rfl fun call le _ => ⟨le, fun _ => id⟩

theorem Matched.deref_sender (inv : Matched m) (member : msg ∈ m.messages)
    (pending : msg.stage.pending = true) {ptr : OpPtr n} (read : msg.stage.read = some ptr) :
    m.deref ptr = some (m.cpu msg.sender).op := by
  obtain ⟨active, call⟩ := inv.sender msg member pending
  obtain rfl := (inv.read msg member).2 ptr read
  refine if_pos ⟨call, fun idle => ?_⟩
  rw [idle] at active
  exact active

theorem unfinished_split (before after : List (Message n)) (msg : Message n) :
    unfinished (before ++ msg :: after) = unfinished (before ++ after) +
      if msg.stage.pending then 1 else 0 := by
  simp only [unfinished, List.countP_append, List.countP_cons]
  omega

theorem Matched.progress (inv : Matched m) (split : m.messages = before ++ msg :: after)
    (cpu : s.cpu = m.cpu) (op : s.opLocation = m.opLocation)
    (pending : stage.pending = true → msg.stage.pending = true)
    (read : stage ≠ .dangling ∧ ∀ ptr, stage.read = some ptr → ptr = some (msg.sender, msg.call))
    (count : s.remaining = BitVec.ofNat 32 (unfinished (before ++ { msg with stage := stage } :: after) +
      census sending m.cpu)) :
    Matched { s with messages := before ++ { msg with stage := stage } :: after } := by
  have here : msg ∈ m.messages := by simp [split]
  have members : ∀ other ∈ before ++ { msg with stage := stage } :: after,
      other ∈ m.messages ∨ other = { msg with stage := stage } := by
    intro other member
    rw [split]
    simp only [mem_append, mem_cons] at member ⊢
    obtain earlier | same | later := member
    · exact .inl (.inl earlier)
    · exact .inr same
    · exact .inl (.inr (.inr later))
  refine ⟨?_, fun other member now => ?_, fun other member => ?_, fun other member => ?_, ?_,
    fun i active => ?_, ?_, fun i j past => ?_⟩
  · simp only [cpu, op]
    exact inv.published
  · simp only [cpu]
    obtain old | rfl := members other member
    · exact inv.sender other old now
    · exact inv.sender msg here (pending now)
  · obtain old | rfl := members other member
    · exact inv.read other old
    · exact read
  · simp only [cpu]
    obtain old | rfl := members other member
    · exact inv.old other old
    · exact inv.old msg here
  · simp only [cpu]
    exact count
  · simp only [cpu] at active ⊢
    have bound := inv.bound i active
    rw [split] at bound
    refine le_trans ?_ bound
    rw [unfinished_split, unfinished_split]
    split
    case isTrue now => rw [if_pos (pending now)]
    case isFalse => exact Nat.le_add_right _ _
  · simp only [cpu]
    exact inv.few
  · simp only [cpu] at past ⊢
    intro other member
    obtain ⟨found, old, facts⟩ := inv.targets i j past other member
    rw [split] at old
    simp only [mem_append, mem_cons] at old
    obtain earlier | rfl | later := old
    · exact ⟨found, List.mem_append_left _ earlier, facts⟩
    · exact ⟨{ found with stage := stage }, by simp, facts⟩
    · exact ⟨found, by simp [later], facts⟩

theorem Handled.matched (handled : Handled m msg s stage)
    (split : m.messages = before ++ msg :: after) (inv : Matched m) :
    Matched { s with messages := before ++ { msg with stage := stage } :: after } := by
  have here : msg ∈ m.messages := by simp [split]
  -- a stage at which the counter stays
  have same : msg.stage.pending = true → stage.pending = true → s.remaining = m.remaining →
      s.remaining = BitVec.ofNat 32 (unfinished (before ++ { msg with stage := stage } :: after) +
        census sending m.cpu) := by
    intro pending still remaining
    rw [remaining, unfinished_split, if_pos still, inv.count, split, unfinished_split, if_pos pending]
  have kept : ∀ ptr, msg.stage.read = some ptr → ptr = some (msg.sender, msg.call) := (inv.read msg here).2
  cases handled with
  | entered was =>
    have pending : msg.stage.pending = true := by rw [was]; rfl
    exact inv.progress split rfl rfl (fun _ => pending) ⟨nofun, nofun⟩ (same pending rfl rfl)
  | loaded was =>
    have pending : msg.stage.pending = true := by rw [was]; rfl
    obtain ⟨active, call⟩ := inv.sender msg here pending
    refine inv.progress split rfl rfl (fun _ => pending) ⟨nofun, fun ptr read => ?_⟩ (same pending rfl rfl)
    rw [← Option.some.inj read, inv.published msg.sender active, call]
  | started _ _ was | flushed _ _ _ was | left _ _ _ was =>
    have pending : msg.stage.pending = true := by rw [was]; rfl
    refine inv.progress split rfl rfl (fun _ => pending) ⟨nofun, fun ptr' read => ?_⟩ (same pending rfl rfl)
    exact kept ptr' (Option.some.inj read ▸ (by rw [was]; rfl))
  | finished ptr was =>
    have pending : msg.stage.pending = true := by rw [was]; rfl
    refine inv.progress split rfl rfl (fun _ => pending) ⟨nofun, fun ptr' read => ?_⟩ ?_
    · exact kept ptr' (Option.some.inj read ▸ (by rw [was]; rfl))
    · change m.remaining - 1#32 = _
      rw [unfinished_split, inv.count, split, unfinished_split, if_pos pending]
      have less : ∀ u c, BitVec.ofNat 32 (u + 1 + c) - 1#32 = BitVec.ofNat 32 (u + c) := fun u c => by
        rw [Nat.add_right_comm, BitVec.ofNat_add (u + c) 1, BitVec.add_sub_cancel]
      exact less _ _
  | lost ptr read pending gone =>
    rw [inv.deref_sender here pending read] at gone
    exact nomatch gone
  | ended =>
    refine inv.progress split rfl rfl id (inv.read msg here) ?_
    rw [← split]
    exact inv.count

theorem step_matched (step : Step m m') (locked : Locked m) (inv : Matched m) : Matched m' := by
  cases step with
  | call i mmu op idle =>
    refine inv.quiet rfl (by rw [idle]; exact id) id rfl rfl rfl fun call le _ => ⟨?_, fun same => ?_⟩
    · exact le.trans (Nat.le_succ _)
    · exact absurd (same ▸ le) (Nat.not_succ_le_self _)
  | run i ran => exact (advance_cases ran).matched locked inv
  | handler before after msg split =>
    obtain ⟨s, stage, ran, handled⟩ := handle_cases m msg
    rw [ran]
    exact handled.matched split inv
  | update mmu id val cpus free ran =>
    exact ⟨inv.published, inv.sender, inv.read, inv.old, inv.count, inv.bound, inv.few, inv.targets⟩

end Messages

variable {log extra : List (Fin n × VirtAddr)}

section Flushes

/-- The address that the loop of a handler flushes in its pass `k`. -/
def flushAddr (op : TlbOp) (k : Nat) : VirtAddr := op.start + BitVec.ofNat 64 (0x1000 * k)

/-- Processor `j` has flushed every address from `start` in steps of a page up to `stop`. -/
def AllFlushed (log : List (Fin n × VirtAddr)) (op : TlbOp) (j : Fin n) : Prop :=
  ∀ k, op.start.toNat + 0x1000 * k < op.stop.toNat → (j, flushAddr op k) ∈ log

def Progress (log : List (Fin n × VirtAddr)) (op : TlbOp) (j : Fin n) : Stage n → Prop
  | .looping _ i => ∃ t, i = flushAddr op t ∧ ∀ k, k < t → (j, flushAddr op k) ∈ log
  | .leaving _ | .finished _ => AllFlushed log op j
  | _ => True

def Pc.Done : Pc n → Prop
  | .idle | .unlockCpus | .unlockShootdown => True
  | _ => False

structure Flushed (m : Machine n) : Prop where
  mark : ∀ i, (m.cpu i).mark ≤ m.log.length
  progress : ∀ msg ∈ m.messages, msg.call = (m.cpu msg.sender).calls →
    Progress (m.log.drop (m.cpu msg.sender).mark) (m.cpu msg.sender).op msg.target msg.stage
  done : ∀ i, (m.cpu i).pc.Done → 0 < (m.cpu i).calls → ∀ j, j ≠ i →
    cpusetQueryId (m.cpu i).taken j = .ok true →
    AllFlushed (m.log.drop (m.cpu i).mark) (m.cpu i).op j

theorem Progress.mono {log' : List (Fin n × VirtAddr)} (more : ∀ entry ∈ log, entry ∈ log')
    (progress : Progress log op j stage) : Progress log' op j stage := by
  cases stage with
  | looping ptr i =>
    obtain ⟨t, here, before⟩ := progress
    exact ⟨t, here, fun k earlier => more _ (before k earlier)⟩
  | leaving | finished => exact fun k inside => more _ (progress k inside)
  | _ => trivial

/-- The loop ends when all addresses are flushed. It does not end by running over the end of
the address space. -/
theorem allFlushed_of_ended {t : Nat} (before : ∀ k, k < t → (j, flushAddr op k) ∈ log)
    (ended : ¬ flushAddr op t < op.stop) : AllFlushed log op j := by
  intro k inside
  refine before k (Nat.lt_of_not_le fun later => ended ?_)
  rw [BitVec.lt_def, flushAddr, BitVec.toNat_add, BitVec.toNat_ofNat]
  have small : op.start.toNat + 0x1000 * t < 2 ^ 64 := by omega
  rw [Nat.mod_eq_of_lt (show 0x1000 * t < 2 ^ 64 by omega), Nat.mod_eq_of_lt small]
  omega

theorem flushAddr_succ (op : TlbOp) (t : Nat) : flushAddr op t + 0x1000#64 = flushAddr op (t + 1) := by
  rw [flushAddr, flushAddr, Nat.mul_succ, BitVec.ofNat_add, BitVec.add_assoc]

theorem Flushed.step (inv : Flushed m) (cpu : m'.cpu = update m.cpu i c) (log : m'.log = m.log)
    (mark : c.mark ≤ m.log.length)
    (messages : ∀ msg ∈ m'.messages, (msg ∈ m.messages ∧ msg.sender ≠ i) ∨ msg.sender = i ∧
      (msg.call = c.calls → Progress (m.log.drop c.mark) c.op msg.target msg.stage))
    (done : c.pc.Done → 0 < c.calls → ∀ j, j ≠ i → cpusetQueryId c.taken j = .ok true →
      AllFlushed (m.log.drop c.mark) c.op j) : Flushed m' := by
  obtain ⟨mine, theirs⟩ := cpu_updated cpu
  refine ⟨fun j => ?_, fun msg member => ?_, fun j => ?_⟩
  · rw [log]
    by_cases same : j = i
    · rwa [same, mine]
    · rw [theirs j same]
      exact inv.mark j
  · rw [log]
    obtain ⟨old, other⟩ | ⟨same, progress⟩ := messages msg member
    · rw [theirs _ other]
      exact inv.progress msg old
    · rwa [same, mine]
  · rw [log]
    by_cases same : j = i
    · rwa [same, mine]
    · rw [theirs j same]
      exact inv.done j

theorem Flushed.progress_or_other (inv : Flushed m) (i : Fin n) (member : msg ∈ m.messages) :
    (msg ∈ m.messages ∧ msg.sender ≠ i) ∨ msg.sender = i ∧ (msg.call = (m.cpu i).calls →
      Progress (m.log.drop (m.cpu i).mark) (m.cpu i).op msg.target msg.stage) := by
  by_cases here : msg.sender = i
  · exact .inr ⟨here, here ▸ inv.progress msg member⟩
  · exact .inl ⟨member, here⟩

theorem Flushed.move (inv : Flushed m) (cpu : m'.cpu = update m.cpu i c) (log : m'.log = m.log)
    (messages : m'.messages = m.messages)
    (same : c.calls = (m.cpu i).calls ∧ c.op = (m.cpu i).op ∧ c.mark = (m.cpu i).mark ∧
      c.taken = (m.cpu i).taken)
    (done : c.pc.Done → (m.cpu i).pc.Done) : Flushed m' := by
  obtain ⟨calls, op, mark, taken⟩ := same
  refine inv.step cpu log (mark ▸ inv.mark i) (fun msg member => ?_) fun now => ?_
  · rw [calls, op, mark]
    exact inv.progress_or_other i (messages ▸ member)
  · rw [calls, op, mark, taken]
    exact inv.done i (done now)

theorem Advanced.flushed (advanced : Advanced m i m') (locked : Locked m) (matched : Matched m)
    (inv : Flushed m) : Flushed m' := by
  cases advanced with
  | stay => exact inv
  | tookShootdown | published | skipped | counted | sentAll =>
    exact inv.move rfl rfl rfl ⟨rfl, rfl, rfl, rfl⟩ nofun
  | tookCpus pc free =>
    refine inv.step rfl rfl le_rfl (fun msg member => ?_) nofun
    by_cases here : msg.sender = i
    · refine .inr ⟨here, fun call => ?_⟩
      -- the call has sent nothing yet
      obtain ⟨_, early⟩ := matched.old msg member
      rw [here] at early
      exact absurd (by rw [pc]; trivial) (early call)
    · exact .inl ⟨member, here⟩
  | sent target pc =>
    refine inv.step rfl rfl (inv.mark i) (fun msg member => ?_) nofun
    obtain old | new := mem_append.mp member
    · exact inv.progress_or_other i old
    · obtain rfl := List.mem_singleton.mp new
      exact .inr ⟨rfl, fun _ => trivial⟩
  | waited pc none =>
    have finished := matched.finished_of_zero locked pc none
    refine inv.step rfl rfl (inv.mark i) (fun msg member => inv.progress_or_other i member)
      fun _ _ j other member => ?_
    · obtain ⟨msg, there, rfl, rfl, call⟩ := matched.targets i j (by rw [pc]; trivial) other member
      have progress := inv.progress msg there call
      have ended := finished msg there
      cases stage : msg.stage with
      | finished ptr =>
        rw [stage] at progress
        exact progress
      | _ => exact absurd (by rw [stage]; rfl) ended
  | releasedCpus pc | releasedShootdown pc =>
    exact inv.move rfl rfl rfl ⟨rfl, rfl, rfl, rfl⟩ fun _ => by rw [pc]; trivial

theorem mem_drop_append {mark : Nat} (short : mark ≤ log.length) (entry : Fin n × VirtAddr) :
    entry ∈ (log ++ extra).drop mark ↔ entry ∈ log.drop mark ∨ entry ∈ extra := by
  rw [List.drop_append_of_le_length short, mem_append]

theorem Flushed.handle (inv : Flushed m) (split : m.messages = before ++ msg :: after)
    (cpu : s.cpu = m.cpu) (log : s.log = m.log ++ extra) (progress : msg.call = (m.cpu msg.sender).calls →
      Progress (s.log.drop (m.cpu msg.sender).mark) (m.cpu msg.sender).op msg.target stage) :
    Flushed { s with messages := before ++ { msg with stage := stage } :: after } := by
  have more : ∀ i, ∀ entry ∈ m.log.drop (m.cpu i).mark, entry ∈ s.log.drop (m.cpu i).mark :=
    fun i entry old =>
    log ▸ (mem_drop_append (inv.mark i) entry).mpr (.inl old)
  refine ⟨fun i => ?_, fun other member => ?_, fun i => ?_⟩
  · simp only [cpu, log, List.length_append]
    exact (inv.mark i).trans (Nat.le_add_right _ _)
  · simp only [cpu]
    have old : other ∈ m.messages → other.call = (m.cpu other.sender).calls →
        Progress (s.log.drop (m.cpu other.sender).mark) (m.cpu other.sender).op other.target other.stage :=
      fun old call => (inv.progress other old call).mono (more _)
    simp only [mem_append, mem_cons] at member
    obtain earlier | rfl | later := member
    · exact old (by simp [split, earlier])
    · exact progress
    · exact old (by simp [split, later])
  · simp only [cpu]
    exact fun done called j other member k inside =>
      more i _ (inv.done i done called j other member k inside)

theorem Handled.flushed_range (handled : Handled m msg s stage)
    (split : m.messages = before ++ msg :: after) (matched : Matched m) (inv : Flushed m) :
    Flushed { s with messages := before ++ { msg with stage := stage } :: after } := by
  have here : msg ∈ m.messages := by simp [split]
  have same : m.log = m.log ++ [] := (append_nil _).symm
  cases handled with
  | entered | loaded => exact inv.handle split rfl same fun _ => trivial
  | started ptr op was there =>
    rw [matched.deref_sender here (by rw [was]; rfl) (by rw [was]; rfl)] at there
    cases there
    refine inv.handle split rfl same fun _ => ⟨0, ?_, nofun⟩
    rw [flushAddr, Nat.mul_zero]
    exact (BitVec.add_zero _).symm
  | flushed ptr op i was there below =>
    refine inv.handle split rfl rfl fun call => ?_
    have progress := inv.progress msg here call
    rw [was] at progress
    obtain ⟨t, rfl, earlier⟩ := progress
    refine ⟨t + 1, flushAddr_succ _ t, fun k inside => ?_⟩
    rw [mem_drop_append (inv.mark msg.sender)]
    obtain before | rfl := Nat.lt_succ_iff_lt_or_eq.mp inside
    · exact .inl (earlier k before)
    · exact .inr (List.mem_singleton_self _)
  | left ptr op i was there ended =>
    rw [matched.deref_sender here (by rw [was]; rfl) (by rw [was]; rfl)] at there
    cases there
    refine inv.handle split rfl same fun call => ?_
    have progress := inv.progress msg here call
    rw [was] at progress
    obtain ⟨t, rfl, earlier⟩ := progress
    exact allFlushed_of_ended earlier ended
  | finished ptr was =>
    refine inv.handle split rfl same fun call => ?_
    have progress := inv.progress msg here call
    rw [was] at progress
    exact progress
  | lost ptr read pending gone =>
    rw [matched.deref_sender here pending read] at gone
    exact nomatch gone
  | ended => exact inv.handle split rfl same (inv.progress msg here)

end Flushes

section Runs

structure Safe (m : Machine n) : Prop where
  locked : Locked m
  matched : Matched m
  flushed : Flushed m

theorem safe_initial (cpus : Nat → Cpuset) : Safe (Machine.initial (n := n) cpus) where
  locked := ⟨nofun, nofun, nofun⟩
  matched := by
    refine ⟨nofun, nofun, nofun, nofun, ?_, nofun, nofun, nofun⟩
    have none : census sending (Machine.initial (n := n) cpus).cpu = 0 := census_eq_zero fun _ => rfl
    rw [none]
    rfl
  flushed := ⟨fun _ => Nat.zero_le _, nofun, fun _ _ called => absurd called (lt_irrefl 0)⟩

theorem step_safe (step : Step m m') (inv : Safe m) : Safe m' where
  locked := step_locked step inv.locked
  matched := step_matched step inv.locked inv.matched
  flushed := by
    obtain ⟨locked, matched, flushed⟩ := inv
    cases step with
    | call i mmu op idle =>
      refine flushed.step rfl rfl (flushed.mark i) (fun msg member => ?_) nofun
      by_cases here : msg.sender = i
      · refine .inr ⟨here, fun call => ?_⟩
        have old := (matched.old msg member).1
        rw [here, call] at old
        exact absurd old (Nat.not_succ_le_self _)
      · exact .inl ⟨member, here⟩
    | run i ran => exact (advance_cases ran).flushed locked matched flushed
    | handler before after msg split =>
      obtain ⟨s, stage, ran, handled⟩ := handle_cases m msg
      rw [ran]
      exact handled.flushed_range split matched flushed
    | update mmu id val cpus free ran => exact ⟨flushed.mark, flushed.progress, flushed.done⟩

variable {cpus : Nat → Cpuset}

theorem safe_of_run (run : Reaches Step (Machine.initial cpus) m) : Safe m :=
  run.invariant Safe (safe_initial cpus) fun _ _ _ step => step_safe step

/-- The counter does not overflow: a call sends one message to each processor at most. -/
theorem Safe.remaining_eq (inv : Safe m) :
    m.remaining.toNat = unfinished m.messages + census sending m.cpu := by
  have small : unfinished m.messages + census sending m.cpu < 2 ^ 32 := by
    by_cases active : ∃ i, (m.cpu i).pc.Active
    · obtain ⟨i, active⟩ := active
      have bound := inv.matched.bound i active
      have limit : (m.cpu i).pc.limit ≤ maxCores := by
        unfold Pc.limit
        split <;> simp
      have one : sending (m.cpu i) ≤ 1 := by
        unfold sending
        split <;> simp
      rw [inv.locked.census_sending active.holds]
      unfold maxCores at limit
      omega
    · have inactive : ∀ i, ¬ (m.cpu i).pc.Active := fun i there => active ⟨i, there⟩
      rw [inv.matched.unfinished_eq_zero inactive, census_eq_zero fun i => sending_eq_zero (inactive i)]
      decide
  rw [inv.matched.count, BitVec.toNat_ofNat, Nat.mod_eq_of_lt small]

/-- From an aligned start the steps of the loop meet every page. -/
theorem AllFlushed.pages (all : AllFlushed log op j) (aligned : op.start.toNat % 0x1000 = 0)
    {page : Nat} (from_start : op.start.toNat < 0x1000 * (page + 1))
    (to_stop : 0x1000 * page < op.stop.toNat) :
    ∃ addr, (j, addr) ∈ log ∧ addr.toNat / 0x1000 = page := by
  have step : op.start.toNat + 0x1000 * (page - op.start.toNat / 0x1000) = 0x1000 * page := by omega
  refine ⟨_, all (page - op.start.toNat / 0x1000) (by omega), ?_⟩
  rw [flushAddr, BitVec.toNat_add, BitVec.toNat_ofNat, Nat.mod_eq_of_lt (by omega),
    Nat.mod_eq_of_lt (by omega), step]
  omega

/-- For every order of calls, sends, deliveries and handler steps: the counter is the number
of handlers that have not decremented it and of increments whose IPI is not sent yet; a
handler reads the variable of the call that has sent its message, which has not returned; and
when a call has returned, the other processors that were in the set when `cpu_lock` was taken
have flushed the address `start` and every page-sized step from it below `end`, which for an
aligned `start` is every page of the range. -/
theorem tlb_shootdown_safe (run : Reaches Step (Machine.initial cpus) m) :
    m.remaining.toNat = unfinished m.messages + census sending m.cpu ∧
    (∀ msg ∈ m.messages, msg.stage ≠ .dangling ∧
      (∀ ptr, msg.stage.read = some ptr → ptr = some (msg.sender, msg.call)) ∧
      (msg.stage.pending = true → (m.cpu msg.sender).calls = msg.call ∧ (m.cpu msg.sender).pc ≠ .idle)) ∧
    ∀ i, (m.cpu i).pc = .idle → 0 < (m.cpu i).calls → ∀ j, j ≠ i →
      cpusetQueryId (m.cpu i).taken j = .ok true →
      AllFlushed (m.log.drop (m.cpu i).mark) (m.cpu i).op j ∧
      ((m.cpu i).op.start.toNat % 0x1000 = 0 → ∀ page, (m.cpu i).op.start.toNat < 0x1000 * (page + 1) →
        0x1000 * page < (m.cpu i).op.stop.toNat →
        ∃ addr, (j, addr) ∈ m.log.drop (m.cpu i).mark ∧ addr.toNat / 0x1000 = page) := by
  have inv := safe_of_run run
  refine ⟨inv.remaining_eq, fun msg member => ?_, fun i idle called j other member => ?_⟩
  · obtain ⟨sound, read⟩ := inv.matched.read msg member
    refine ⟨sound, read, fun pending => ?_⟩
    obtain ⟨active, call⟩ := inv.matched.sender msg member pending
    refine ⟨call, fun idle => ?_⟩
    rw [idle] at active
    exact active
  · have all := inv.flushed.done i (by rw [idle]; trivial) called j other member
    exact ⟨all, fun aligned page => all.pages aligned⟩

def perform : List (Option (Fin n)) → Machine n → Option (Machine n)
  | [], m => some m
  | some i :: rest, m => (advance m i).toOption.bind (perform rest)
  | none :: rest, m =>
    match m.messages with
    | [] => none
    | msg :: after => perform rest { (handle m msg).1 with messages := (handle m msg).2 :: after }

theorem perform_reaches {order : List (Option (Fin n))} (ran : perform order m = some m') :
    Reaches Step m m' := by
  induction order generalizing m with
  | nil =>
    cases ran
    exact .refl
  | cons first rest ih =>
    cases first with
    | some i =>
      obtain ⟨m1, stepped, others⟩ := toOption_bind_eq_some.mp ran
      exact .head (.run i stepped) (ih others)
    | none =>
      rw [perform] at ran
      split at ran
      case h_1 => exact nomatch ran
      case h_2 msg after split => exact .head (.handler [] after msg split) (ih ran)

/-- A processor makes a shootdown for an address space that processor 1 uses, and the handler
makes `passes` passes. -/
def shootdown (i : Fin 2) (op : TlbOp) (passes : Nat) : Option (Machine 2) :=
  let m : Machine 2 := Machine.initial fun _ => 0b100#32
  let m :=
    m.setCpu i { m.cpu i with pc := .lockShootdown, calls := (m.cpu i).calls + 1, mmu := 0, op := op }
  perform (List.replicate 7 (some i) ++ List.replicate (passes + 5) none ++ List.replicate 3 (some i)) m

theorem shootdown_reaches {passes : Nat} {m : Machine 2} (ran : shootdown 0 op passes = some m) :
    Reaches Step (Machine.initial fun _ => 0b100#32) m :=
  .head (.call 0 0 op rfl) (perform_reaches ran)

/-- Two pages are flushed. -/
theorem tlb_shootdown_safe_two_pages : ∃ m : Machine 2, Reaches Step (Machine.initial fun _ => 0b100#32) m ∧
      (m.cpu 0).op = ⟨0x1000#64, 0x3000#64⟩ ∧ ∃ addr, ((1 : Fin 2), addr) ∈ m.log.drop (m.cpu 0).mark ∧
        addr.toNat / 0x1000 = 2 := by
  have finished : ((shootdown 0 ⟨0x1000#64, 0x3000#64⟩ 2).map fun m => m.cpu 0) =
      some ⟨.idle, 1, 0, ⟨0x1000#64, 0x3000#64⟩, 0b100#32, 0⟩ := by decide +kernel
  obtain ⟨m, ran, cpu⟩ := Option.map_eq_some_iff.mp finished
  have run := shootdown_reaches ran
  have safe :=
    (tlb_shootdown_safe run).2.2 0 (by rw [cpu]) (by rw [cpu]; decide) 1 (by decide) (by rw [cpu]; decide)
  rw [cpu] at safe
  exact ⟨m, run, by rw [cpu], by rw [cpu]; exact safe.2 (by decide) 2 (by decide) (by decide)⟩

/-- From a start in the middle of a page, the loop does not come to the last page. -/
theorem tlb_shootdown_misses_page : ∃ m : Machine 2, Reaches Step (Machine.initial fun _ => 0b100#32) m ∧
      m.cpu 0 = ⟨.idle, 1, 0, ⟨0x800#64, 0x1800#64⟩, 0b100#32, 0⟩ ∧
      cpusetQueryId (m.cpu 0).taken (1 : Fin 2) = .ok true ∧
      0x800 < 0x1000 * (1 + 1) ∧ 0x1000 * 1 < 0x1800 ∧ ∀ addr, ((1 : Fin 2), addr) ∈ m.log →
      addr.toNat / 0x1000 ≠ 1 := by
  have finished : ((shootdown 0 ⟨0x800#64, 0x1800#64⟩ 1).map fun m => (m.cpu 0, m.log)) =
      some (⟨.idle, 1, 0, ⟨0x800#64, 0x1800#64⟩, 0b100#32, 0⟩, [(1, 0x800#64)]) := by decide +kernel
  obtain ⟨m, ran, values⟩ := Option.map_eq_some_iff.mp finished
  simp only [Prod.mk.injEq] at values
  obtain ⟨cpu, log⟩ := values
  refine ⟨m, shootdown_reaches ran, cpu, by rw [cpu]; decide, by decide, by decide, fun addr member => ?_⟩
  rw [log] at member
  obtain rfl : addr = 0x800#64 := by simpa using member
  decide

end Runs

end ByteOS.Smp.Tlb
