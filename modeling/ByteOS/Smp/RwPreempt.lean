import ByteOS.Smp.RwExclusion

/-! What the sections of a reader-writer spinlock do to `preempt_count`.

A reader adds one for its section. The reader that takes `wr_lock` for all readers adds
one more, which the reader that gives it back takes away again on its own processor.
-/

set_option autoImplicit false

namespace ByteOS.Smp

open Lib
open Function (update update_self update_of_ne)
open RwMachine (initial)

variable {n : Nat} {m m' : RwMachine n} {i j : Fin n} {start : Fin n → BitVec 32} {c : Cpu}

section Accounts

/-- What a processor has added to its `preempt_count` for its own sections. -/
def load (c : Cpu) : Int :=
  c.reads + (if c.writing then 1 else 0) +
    match c.pc with
    | .idle => 0
    | .spinLock .readEnter .preemptInc | .spinLock .write .preemptInc => 0
    | .spinLock .readEnter _ | .spinLock .write _ => 1
    | .spinLock .firstReader .preemptInc | .spinLock .readLeave .preemptInc => 1
    | .spinLock .firstReader _ | .spinLock .readLeave _ => 2
    | .incReaders | .preemptInc => 1
    | .decReaders | .preemptDec => 2
    | .spinUnlock .readEntered _ => 2
    | .spinUnlock .lastReader .store => 2
    | .spinUnlock .lastReader .preemptDec => 3
    | .spinUnlock .readLeft _ | .spinUnlock .written _ => 1

/-- What it has added by taking `wr_lock` for the readers. -/
def credit (owner : Option (Fin n)) (i : Fin n) : Int := if owner = some i then 1 else 0

/-- The account of one processor. The owner of the readers' `wr_lock` is a reader until it
gives the lock back itself. -/
structure Account (owner : Option (Fin n)) (i : Fin n) (start : BitVec 32) (c : Cpu) : Prop where
  count : (c.preemptCount.toNat : Int) = start.toNat + load c + credit owner i
  opens : 0 < opening c → owner = none
  closes : 0 < closing c → owner = some i
  inside : owner = some i → 0 < c.reads + crossing c + closing c

def Accounts (start : Fin n → BitVec 32) (m : RwMachine n) : Prop :=
  ∀ i, Account m.owner i (start i) (m.cpu i)

theorem Accounts.step (inv : Accounts start m) (i : Fin n) (owner : m'.owner = m.owner)
    (cpu : m'.cpu = update m.cpu i c) (own : Account m.owner i (start i) c) : Accounts start m' := by
  intro j
  rw [owner, cpu]
  by_cases same : j = i
  · rwa [same, update_self]
  · rw [update_of_ne same]
    exact inv j

theorem Accounts.quiet (inv : Accounts start m) (i : Fin n) (owner : m'.owner = m.owner)
    (cpu : m'.cpu = update m.cpu i c)
    (count : (c.preemptCount.toNat : Int) - load c = (m.cpu i).preemptCount.toNat - load (m.cpu i))
    (same : opening c = opening (m.cpu i) ∧ closing c = closing (m.cpu i) ∧
      c.reads + crossing c = (m.cpu i).reads + crossing (m.cpu i)) : Accounts start m' := by
  obtain ⟨before, opens, closes, inside⟩ := inv i
  obtain ⟨opening, closing, crossing⟩ := same
  refine inv.step i owner cpu ⟨by omega, ?_, ?_, ?_⟩
  · rwa [opening]
  · rwa [closing]
  · rwa [closing, crossing]

theorem credit_nonneg (owner : Option (Fin n)) (i : Fin n) : 0 ≤ credit owner i := by
  unfold credit
  split <;> omega

theorem Account.dec {owner : Option (Fin n)} {s : BitVec 32} (account : Account owner i s c)
    (busy : 1 ≤ load c) : ((c.preemptCount - 1#32).toNat : Int) = c.preemptCount.toNat - 1 := by
  have count := account.count
  have extra := credit_nonneg owner i
  rw [toNat_dec (by omega)]
  omega

end Accounts

/-- The next step is `preempt_inc`. -/
def Pc.increments : Pc → Bool
  | .preemptInc | .spinLock _ .preemptInc => true
  | _ => false

/-- Neither counter overflows. -/
def Roomy (m : RwMachine n) (i : Fin n) : Prop :=
  ReaderRoom m i ∧ ((m.cpu i).pc.increments = true → (m.cpu i).preemptCount + 1#32 ≠ 0#32)

instance : DecidableRel (Roomy (n := n)) := fun m i => by
  unfold Roomy ReaderRoom
  infer_instance

/-- The processor that took `wr_lock` as the first reader is the last one to leave: at
`atomic_dec_read64`, the last reader is the owner, and the owner is the last reader or has
another read section. -/
def Fair (m : RwMachine n) (i : Fin n) : Prop :=
  (m.cpu i).pc = .decReaders →
    (m.readers = 1#64 → m.owner = some i) ∧ (m.owner = some i → m.readers = 1#64 ∨ 0 < (m.cpu i).reads)

instance : DecidableRel (Fair (n := n)) := fun m i => by
  unfold Fair
  infer_instance

section Steps

theorem firstReader_accounts (words : Counted m) (inv : Accounts start m) {instr : Spin}
    (pc : (m.cpu i).pc = .spinLock .firstReader instr) (waited : instr ≠ .preemptInc) :
    Accounts start (acquired (m.setWord .wr 1) i .firstReader) := by
  have mine : opening (m.cpu i) = 1 := by rw [opening, pc]
  have free : m.owner = none := (inv i).opens (by rw [mine]; exact Nat.one_pos)
  intro j
  change Account (some i) j (start j) (update m.cpu i { m.cpu i with pc := .preemptInc } j)
  by_cases same : j = i
  · rw [same, update_self]
    have count := (inv i).count
    refine ⟨?_, ?_, ?_, fun _ => ?_⟩
    · cases instr <;> simp_all [load, credit] <;> omega
    · simp [opening]
    · simp [closing]
    · simp [crossing]
  · rw [update_of_ne same]
    obtain ⟨count, opens, closes, inside⟩ := inv j
    rw [free] at count closes
    refine ⟨?_, fun other => ?_, fun last => ?_, fun owner => ?_⟩
    · simpa [credit, Ne.symm same] using count
    · -- two processors would hold `rd_lock`
      have both := add_le_census opening m.cpu same
      have rd := words.balanced.rd
      have rdOne := words.balanced.rdOne
      omega
    · cases closes last
    · exact absurd (Option.some.inj owner).symm same

theorem lastReader_accounts (inv : Accounts start m)
    (pc : (m.cpu i).pc = .spinUnlock .lastReader .store) : Accounts start (advance m i) := by
  have mine : m.owner = some i := (inv i).closes (by rw [closing, pc]; exact Nat.one_pos)
  have result : advance m i =
      { (m.setWord .wr 0).setPc i (.spinUnlock .lastReader .preemptDec) with owner := none } := by
    rw [advance, pc]
    rfl
  rw [result]
  intro j
  change Account none j (start j)
    (update m.cpu i { m.cpu i with pc := .spinUnlock .lastReader .preemptDec } j)
  by_cases same : j = i
  · rw [same, update_self]
    have count := (inv i).count
    refine ⟨?_, ?_, ?_, ?_⟩
    · simp only [load, credit, mine, pc] at count ⊢
      simp only [if_true, reduceCtorEq, if_false] at count ⊢
      omega
    · simp [opening]
    · simp [closing]
    · simp
  · rw [update_of_ne same]
    obtain ⟨count, opens, closes, inside⟩ := inv j
    rw [mine] at count closes
    refine ⟨?_, fun _ => rfl, fun last => ?_, ?_⟩
    · simpa [credit, Ne.symm same] using count
    · exact absurd (Option.some.inj (closes last)).symm same
    · simp

theorem acquired_accounts (words : Counted m) (inv : Accounts start m) {site : Acquire}
    {instr : Spin} (pc : (m.cpu i).pc = .spinLock site instr) (waited : instr ≠ .preemptInc)
    (free : m.word site.lock = 0) : Accounts start (acquired (m.setWord site.lock 1) i site) := by
  cases site with
  | readEnter | readLeave =>
    refine inv.quiet i (c := _) rfl rfl ?_ ?_
    · cases instr <;> simp_all [load]
    · simp [opening, closing, crossing, pc]
  | write =>
    have outside : (m.cpu i).writing = false := by
      cases held : (m.cpu i).writing with
      | false => rfl
      | true =>
        have mine := le_census writers m.cpu i
        have free : m.wrLock = 0 := free
        obtain ⟨rd, rdOne, total, wr, wrOne, first, _⟩ := words.balanced
        simp only [writers, held, if_true] at mine
        omega
    refine inv.quiet i (c := { m.cpu i with pc := .idle, writing := true }) rfl rfl ?_ ?_
    · cases instr <;> simp_all [load]
    · simp [opening, closing, crossing, pc]
  | firstReader => exact firstReader_accounts words inv pc waited

theorem Accounts.respin (inv : Accounts start m) {site : Acquire} {a b : Spin}
    (pc : (m.cpu i).pc = .spinLock site a) (before : a ≠ .preemptInc) (after : b ≠ .preemptInc) :
    Accounts start (m.setPc i (.spinLock site b)) := by
  refine inv.quiet i (c := { m.cpu i with pc := .spinLock site b }) rfl rfl ?_ ?_
  · cases site <;> cases a <;> cases b <;> simp_all [load]
  · cases site <;> simp [opening, closing, crossing, pc]

theorem load_nonneg (c : Cpu) : (c.reads : Int) + (if c.writing then 1 else 0) ≤ load c := by
  refine Int.le_add_of_nonneg_right ?_
  split <;> decide

/-- A processor has added to its `preempt_count` what it is about to take away. -/
theorem le_load (busy : c.pc = .preemptDec ∨ ∃ site, c.pc = .spinUnlock site .preemptDec) : 1 ≤ load c := by
  have least : (0 : Int) ≤ c.reads + (if c.writing then 1 else 0) := by split <;> omega
  obtain pc | ⟨site, pc⟩ := busy
  · simp only [load, pc]
    omega
  · cases site <;> simp only [load, pc] <;> omega

section

variable (words : Counted m) (inv : Accounts start m)
include words inv

/-- The reader is counted. If it is the first, there is no owner yet. -/
theorem incReaders_accounts (room : ReaderRoom m i) (pc : (m.cpu i).pc = .incReaders) :
    Accounts start (advance m i) := by
  have value := toNat_inc (room pc)
  rw [advance, pc]
  obtain ⟨count, opens, closes, inside⟩ := inv i
  refine inv.step i (c := _) rfl rfl ?_
  dsimp only
  split
  case isTrue alone =>
    have none : m.owner = none := by
      cases owner : m.owner with
      | none => rfl
      | some j =>
        -- an owner is a reader that is counted, or closes and has `rd_lock` as this one does
        have involved := (inv j).inside owner
        have reads := le_census Cpu.reads m.cpu j
        have crosses := le_census crossing m.cpu j
        have last := le_census closing m.cpu j
        have mine := le_census steady m.cpu i
        have holds : steady (m.cpu i) = 1 := by rw [steady, pc]
        obtain ⟨rd, rdOne, total, wr, wrOne, _, _⟩ := words.balanced
        have one : (m.readers + 1#64).toNat = 1 := congrArg BitVec.toNat alone
        omega
    refine ⟨?_, fun _ => none, ?_, fun owner => ?_⟩
    · simpa [load, pc] using count
    · simp [closing]
    · rw [none] at owner
      cases owner
  case isFalse more =>
    refine ⟨?_, ?_, ?_, fun _ => ?_⟩
    · simpa [load, pc] using count
    · simp [opening]
    · simp [closing]
    · simp [crossing]

omit words in
/-- The reader is not counted any more. If it was the last, it is the owner. -/
theorem decReaders_accounts (fair : Fair m i) (pc : (m.cpu i).pc = .decReaders) :
    Accounts start (advance m i) := by
  rw [advance, pc]
  obtain ⟨count, opens, closes, inside⟩ := inv i
  obtain ⟨last, owner⟩ := fair pc
  refine inv.step i (c := _) rfl rfl ?_
  dsimp only
  split
  case isTrue alone =>
    refine ⟨?_, ?_, fun _ => last (by bv_omega), fun _ => ?_⟩
    · simpa [load, pc] using count
    · simp [opening]
    · simp [closing]
  case isFalse more =>
    refine ⟨?_, ?_, ?_, fun mine => ?_⟩
    · simpa [load, pc] using count
    · simp [opening]
    · simp [closing]
    · obtain only | again := owner mine
      · exact absurd (by rw [only, BitVec.sub_self]) more
      · exact Nat.lt_add_right _ (Nat.lt_add_right _ again)

theorem advance_accounts (room : Roomy m i) (fair : Fair m i) : Accounts start (advance m i) := by
  cases pc : (m.cpu i).pc with
  | idle =>
    have result : advance m i = m := by rw [advance, pc]
    rwa [result]
  | spinLock site instr =>
    cases instr with
    | preemptInc =>
      have value := toNat_inc (room.2 (by rw [pc]; rfl))
      rw [advance, pc]
      refine inv.quiet i (c := _) rfl rfl ?_ ?_
      · cases site <;> simp only [load, pc, value] <;> omega
      · cases site <;> simp [opening, closing, crossing, pc]
    | exchange | test | exchangeAgain =>
      refine words.spin pc (by simp) inv (fun b begun _ => inv.respin pc (by simp) begun) ?_
      exact acquired_accounts words inv pc (by simp)
  | spinUnlock site instr =>
    cases instr with
    | store =>
      cases site with
      | lastReader => exact lastReader_accounts inv pc
      | readEntered | readLeft | written =>
        rw [advance, pc]
        refine inv.quiet i (c := _) rfl rfl ?_ ?_
        · simp [load, pc]
        · simp [opening, closing, crossing, pc]
    | preemptDec =>
      have value := (inv i).dec (le_load (.inr ⟨site, pc⟩))
      cases site <;>
      · rw [advance, pc]
        refine inv.quiet i (c := _) rfl rfl ?_ ?_
        · simp only [load, pc, value]
          omega
        · simp [opening, closing, crossing, pc]
  | incReaders => exact incReaders_accounts words inv room.1 pc
  | preemptInc =>
    have value := toNat_inc (room.2 (by rw [pc]; rfl))
    rw [advance, pc]
    refine inv.quiet i (c := _) rfl rfl ?_ ?_
    · simp only [load, pc, value]
      omega
    · simp [opening, closing, crossing, pc]
  | preemptDec =>
    have value := (inv i).dec (le_load (.inl pc))
    rw [advance, pc]
    refine inv.quiet i (c := _) rfl rfl ?_ ?_
    · simp only [load, pc, value]
      omega
    · simp [opening, closing, crossing, pc]
  | decReaders => exact decReaders_accounts inv fair pc

end

theorem beginCall_accounts (inv : Accounts start m) (i : Fin n) (call : Call)
    (idle : (m.cpu i).pc = .idle) (allowed : call.Allowed (m.cpu i)) :
    Accounts start (beginCall m i call) := by
  cases call with
  | readSpinLock | writeSpinLock =>
    refine inv.quiet i (c := _) rfl rfl ?_ ?_
    · simp [load, idle]
    · simp [opening, closing, crossing, idle]
  | readSpinUnlock =>
    have some : 0 < (m.cpu i).reads := allowed
    have back : (m.cpu i).reads - 1 + 1 = (m.cpu i).reads := Nat.sub_add_cancel some
    refine inv.quiet i (c := _) rfl rfl ?_ ?_
    · simp [load, idle]
      omega
    · simp [opening, closing, crossing, idle, back]
  | writeSpinUnlock =>
    have held : (m.cpu i).writing = true := allowed
    refine inv.quiet i (c := _) rfl rfl ?_ ?_
    · simp [load, idle, held]
    · simp [opening, closing, crossing, idle]

end Steps

section Runs

theorem accounts_initial (start : Fin n → BitVec 32) : Accounts start (initial start) := fun i =>
  ⟨by simp [initial, load, credit], nofun, nofun, nofun⟩

theorem accounts_of_run (run : Reaches (RwStep fun m i => Roomy m i ∧ Fair m i) (initial start) m) :
    Accounts start m := by
  refine run.invariant (Accounts start) (accounts_initial start) fun m m' before step inv => ?_
  cases step with
  | call i call idle allowed => exact beginCall_accounts inv i call idle allowed
  | run i fair =>
    exact advance_accounts (counted_of_run (fun _ _ guard => guard.1.1) before) inv fair.1 fair.2

/-- As long as the owner of the readers' `wr_lock` is the last to leave, and the words do not
overflow, sections leave `preempt_count` as it was and keep it above that meanwhile. -/
theorem rwspinlock_preempt_balanced
    (run : Reaches (RwStep fun m i => Roomy m i ∧ Fair m i) (initial start) m) (i : Fin n) :
    start i ≤ (m.cpu i).preemptCount ∧
    (0 < (m.cpu i).reads ∨ (m.cpu i).writing = true → start i < (m.cpu i).preemptCount) ∧
    ((m.cpu i).pc = .idle ∧ (m.cpu i).reads = 0 ∧ (m.cpu i).writing = false →
      (m.cpu i).preemptCount = start i) := by
  obtain ⟨count, _, _, inside⟩ := accounts_of_run run i
  have least := load_nonneg (m.cpu i)
  have extra := credit_nonneg m.owner i
  rw [BitVec.le_def, BitVec.lt_def]
  refine ⟨?_, ?_, ?_⟩
  · split at least <;> omega
  · rintro (reading | writing)
    · split at least <;> omega
    · rw [if_pos writing] at least
      omega
  · rintro ⟨idle, reads, writing⟩
    have none : credit m.owner i = 0 := if_neg fun owner => by
      have involved := inside owner
      simp [reads, crossing, closing, idle] at involved
    rw [none, load, reads, writing, idle] at count
    exact BitVec.eq_of_toNat_eq (by simpa using count)

def advanceTimes (guard : RwMachine n → Fin n → Prop) [DecidableRel guard] (i : Fin n) :
    Nat → RwMachine n → Option (RwMachine n)
  | 0, m => some m
  | k + 1, m => if guard m i then advanceTimes guard i k (advance m i) else none

def callAll (guard : RwMachine n → Fin n → Prop) [DecidableRel guard] :
    List (Fin n × Call × Nat) → RwMachine n → Option (RwMachine n)
  | [], m => some m
  | (i, call, k) :: rest, m =>
    if (m.cpu i).pc = .idle ∧ call.Allowed (m.cpu i) then
      (advanceTimes guard i k (beginCall m i call)).bind (callAll guard rest)
    else none

variable {guard : RwMachine n → Fin n → Prop} [DecidableRel guard]

theorem advanceTimes_reaches {k : Nat} (ran : advanceTimes guard i k m = some m') :
    Reaches (RwStep guard) m m' := by
  induction k generalizing m with
  | zero =>
    cases ran
    exact .refl
  | succ k ih =>
    rw [advanceTimes] at ran
    split at ran
    case isTrue allowed => exact .head (.run i allowed) (ih ran)
    case isFalse => exact nomatch ran

theorem callAll_reaches {calls : List (Fin n × Call × Nat)}
    (ran : callAll guard calls m = some m') : Reaches (RwStep guard) m m' := by
  induction calls generalizing m with
  | nil =>
    cases ran
    exact .refl
  | cons first rest ih =>
    obtain ⟨i, call, k⟩ := first
    rw [callAll] at ran
    split at ran
    case isTrue ready =>
      obtain ⟨m1, returned, others⟩ := Option.bind_eq_some_iff.mp ran
      exact .head (.call i call ready.1 ready.2) ((advanceTimes_reaches returned).trans (ih others))
    case isFalse => exact nomatch ran

/-- Two readers, of which the second leaves before the first. -/
theorem rwspinlock_preempt_balanced_nested :
    ∃ m : RwMachine 2, Reaches (RwStep fun m i => Roomy m i ∧ Fair m i) (initial fun _ => 3#32) m ∧
      m.readers = 0#64 ∧ (m.cpu 0).preemptCount = 3#32 ∧ (m.cpu 1).preemptCount = 3#32 := by
  have finished :
      ((callAll (fun m i => Roomy m i ∧ Fair m i) [(0, .readSpinLock, 8), (1, .readSpinLock, 6),
        (1, .readSpinUnlock, 6),
      (0, .readSpinUnlock, 8)] (initial fun _ : Fin 2 => 3#32)).map fun m =>
        (m.readers, m.cpu 0, m.cpu 1)) =
      some (0#64, ⟨.idle, 0, false, 3#32⟩, ⟨.idle, 0, false, 3#32⟩) := by
    decide +kernel
  obtain ⟨m, ran, values⟩ := Option.map_eq_some_iff.mp finished
  simp only [Prod.mk.injEq] at values
  obtain ⟨readers, first, second⟩ := values
  have run := callAll_reaches ran
  refine ⟨m, run, readers, ?_, ?_⟩
  · exact (rwspinlock_preempt_balanced run 0).2.2 (by rw [first]; decide)
  · exact (rwspinlock_preempt_balanced run 1).2.2 (by rw [second]; decide)

/-- The first reader leaves before the second, which gives `wr_lock` back: both have
released everything, one processor cannot be preempted any more and the other is below its
start. -/
theorem rwspinlock_preempt_unbalanced :
    ∃ m : RwMachine 2, Reaches (RwStep Roomy) (initial fun _ => 1#32) m ∧
      m.cpu 0 = ⟨.idle, 0, false, 2#32⟩ ∧ m.cpu 1 = ⟨.idle, 0, false, 0#32⟩ := by
  have finished : ((callAll Roomy [(0, .readSpinLock, 8), (1, .readSpinLock, 6), (0, .readSpinUnlock, 6),
      (1, .readSpinUnlock, 8)] (initial fun _ : Fin 2 => 1#32)).map fun m => (m.cpu 0, m.cpu 1)) =
      some (⟨.idle, 0, false, 2#32⟩, ⟨.idle, 0, false, 0#32⟩) := by
    decide +kernel
  obtain ⟨m, ran, values⟩ := Option.map_eq_some_iff.mp finished
  simp only [Prod.mk.injEq] at values
  exact ⟨m, callAll_reaches ran, values.1, values.2⟩

end Runs

end ByteOS.Smp
