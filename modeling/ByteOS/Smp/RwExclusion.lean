import Mathlib.Tactic.IntervalCases
import ByteOS.Lib.Census
import ByteOS.Lib.Transition
import ByteOS.Smp.RwSpinlock

/-! Readers and writers exclude each other.

Every processor contributes to the lock words by where it is. The invariant says that
the words are the sums of these contributions.
-/

set_option autoImplicit false

namespace ByteOS.Smp

open Lib
open Function (update update_self update_of_ne)
open RwMachine (initial word setPc setCpu setWord)

variable {n : Nat} {m m' : RwMachine n} {i j : Fin n}
variable {c : Cpu} {site : Acquire} {instr : Spin}

section Contributions

/-- The first reader, with `rd_lock`, on the way to `wr_lock`. -/
def opening (c : Cpu) : Nat :=
  match c.pc with
  | .spinLock .firstReader _ => 1
  | _ => 0

/-- The last reader, with `rd_lock`, about to give `wr_lock` back. -/
def closing (c : Cpu) : Nat :=
  match c.pc with
  | .spinUnlock .lastReader .store => 1
  | _ => 0

def steady (c : Cpu) : Nat :=
  match c.pc with
  | .incReaders | .preemptInc | .decReaders | .preemptDec => 1
  | .spinUnlock .readEntered .store | .spinUnlock .lastReader .preemptDec
  | .spinUnlock .readLeft .store => 1
  | _ => 0

def crossing (c : Cpu) : Nat :=
  match c.pc with
  | .preemptInc | .spinUnlock .readEntered _ | .spinLock .readLeave _ | .decReaders => 1
  | _ => 0

def writers (c : Cpu) : Nat :=
  (if c.writing then 1 else 0) +
    match c.pc with
    | .spinUnlock .written .store => 1
    | _ => 0

/-- The lock words as sums: of the processors that open, close and otherwise hold `rd_lock`,
of the read sections, the crossing readers and the writers. The readers together hold
`wr_lock` from the first of them, once it has it, to the last. -/
structure Balanced (readers rdWord wrWord opens closes holds reads cross writes : Nat) : Prop where
  rd : rdWord = opens + closes + holds
  rdOne : rdWord ≤ 1
  count : readers = reads + opens + cross
  wr : wrWord + opens = writes + closes + min readers 1
  wrOne : wrWord ≤ 1
  first : 0 < opens → readers = 1
  last : 0 < closes → readers = 0

structure Counted (m : RwMachine n) : Prop where
  balanced : Balanced m.readers.toNat m.rdLock m.wrLock (census opening m.cpu)
    (census closing m.cpu) (census steady m.cpu)
    (census Cpu.reads m.cpu) (census crossing m.cpu) (census writers m.cpu)
  stale : ∀ i site rax, (m.cpu i).pc = .spinLock site (.test rax) ∨
    (m.cpu i).pc = .spinLock site (.exchangeAgain rax) → rax = 1

theorem exists_others (cpu : m'.cpu = update m.cpu i c) (f : Cpu → Nat) :
    ∃ others, census f m.cpu = others + f (m.cpu i) ∧ census f m'.cpu = others + f c := by
  have mine := le_census f m.cpu i
  have step := census_update f m.cpu i c
  rw [← cpu] at step
  exact ⟨census f m.cpu - f (m.cpu i), by omega, by omega⟩

/-- A step of processor `i` to `c` that leaves these lock words keeps the invariant if it
does so for all contributions of the others. -/
theorem Counted.step (inv : Counted m) (i : Fin n) (c : Cpu) (readers rd wr : Nat)
    (words : m'.readers.toNat = readers ∧ m'.rdLock = rd ∧ m'.wrLock = wr)
    (cpu : m'.cpu = update m.cpu i c) (own : ∀ site rax, c.pc = .spinLock site (.test rax) ∨
      c.pc = .spinLock site (.exchangeAgain rax) → rax = 1)
    (kept : ∀ o cl s r x w, Balanced m.readers.toNat m.rdLock m.wrLock (o + opening (m.cpu i))
        (cl + closing (m.cpu i)) (s + steady (m.cpu i)) (r + (m.cpu i).reads)
        (x + crossing (m.cpu i)) (w + writers (m.cpu i)) →
      Balanced readers rd wr (o + opening c) (cl + closing c) (s + steady c) (r + c.reads) (x + crossing c)
        (w + writers c)) : Counted m' where
  balanced := by
    have before := inv.balanced
    obtain ⟨o, o1, o2⟩ := exists_others cpu opening
    obtain ⟨cl, cl1, cl2⟩ := exists_others cpu closing
    obtain ⟨s, s1, s2⟩ := exists_others cpu steady
    obtain ⟨r, r1, r2⟩ := exists_others cpu Cpu.reads
    obtain ⟨x, x1, x2⟩ := exists_others cpu crossing
    obtain ⟨w, w1, w2⟩ := exists_others cpu writers
    rw [o1, cl1, s1, r1, x1, w1] at before
    rw [o2, cl2, s2, r2, x2, w2, words.1, words.2.1, words.2.2]
    exact kept o cl s r x w before
  stale j site rax here := by
    rw [cpu] at here
    by_cases same : j = i
    · rw [same, update_self] at here
      exact own site rax here
    · rw [update_of_ne same] at here
      exact inv.stale j site rax here

end Contributions

theorem word_eq_iff {x : BitVec 64} {k : Nat} (small : k < 2 ^ 64) :
    x = BitVec.ofNat 64 k ↔ x.toNat = k := by
  rw [← BitVec.toNat_inj, BitVec.toNat_ofNat, Nat.mod_eq_of_lt small]

section Steps

variable (inv : Counted m)
include inv

theorem Counted.word_le (lock : Lock) : m.word lock ≤ 1 := by
  cases lock with
  | rd => exact inv.balanced.rdOne
  | wr => exact inv.balanced.wrOne

theorem Counted.setWord_held {lock : Lock} (held : m.word lock ≠ 0) :
    m.word lock = 1 ∧ m.setWord lock 1 = m := by
  have one : m.word lock = 1 := by
    have le := inv.word_le lock
    omega
  refine ⟨one, ?_⟩
  rw [← one]
  cases lock <;> rfl

theorem acquired_counted (pc : (m.cpu i).pc = .spinLock site instr) (free : m.word site.lock = 0) :
    Counted (acquired (m.setWord site.lock 1) i site) := by
  cases site with
  | readEnter | readLeave =>
    have free : m.rdLock = 0 := free
    refine inv.step i _ m.readers.toNat 1 m.wrLock ⟨rfl, rfl, rfl⟩ rfl nofun fun o cl s r x w before => ?_
    simp only [opening, closing, steady, crossing, writers, pc] at before ⊢
    obtain ⟨rd, _, count, wr, wrOne, first, last⟩ := before
    exact ⟨by omega, le_rfl, count, wr, wrOne, first, last⟩
  | firstReader =>
    have free : m.wrLock = 0 := free
    refine inv.step i _ m.readers.toNat m.rdLock 1 ⟨rfl, rfl, rfl⟩ rfl nofun fun o cl s r x w before => ?_
    simp only [RwMachine.setWord_cpu, opening, closing, steady, crossing, writers, pc] at before ⊢
    obtain ⟨rd, rdOne, count, wr, _, first, last⟩ := before
    exact ⟨by omega, rdOne, by omega, by omega, le_rfl, by omega, last⟩
  | write =>
    have free : m.wrLock = 0 := free
    refine inv.step i _ m.readers.toNat m.rdLock 1 ⟨rfl, rfl, rfl⟩ rfl nofun fun o cl s r x w before => ?_
    simp only [opening, closing, steady, crossing, writers, pc] at before ⊢
    obtain ⟨rd, rdOne, count, wr, _, first, last⟩ := before
    -- a processor that has the lock as a writer would have set the word
    have fresh : (if (m.cpu i).writing = true then 1 else 0) = 0 := by omega
    rw [fresh] at wr
    exact ⟨rd, rdOne, count, by simp only [if_true]; omega, le_rfl, first, last⟩

theorem Counted.respin {a b : Spin} (pc : (m.cpu i).pc = .spinLock site a) (count : BitVec 32)
    (own : ∀ rax, b = .test rax ∨ b = .exchangeAgain rax → rax = 1) :
    Counted (m.setCpu i { m.cpu i with pc := .spinLock site b, preemptCount := count }) := by
  refine inv.step i _ m.readers.toNat m.rdLock m.wrLock ⟨rfl, rfl, rfl⟩ rfl ?_ fun o cl s r x w before => ?_
  · intro site' rax here
    refine own rax (here.imp ?_ ?_)
    · exact fun same => (Pc.spinLock.inj same).2
    · exact fun same => (Pc.spinLock.inj same).2
  · cases site <;> simpa only [opening, closing, steady, crossing, writers, pc] using before

/-- The rest of `spin_lock`: the processor waits, or retries while the lock is as it was, or takes a free lock. -/
theorem Counted.spin {motive : RwMachine n → Prop} (pc : (m.cpu i).pc = .spinLock site instr)
    (begun : instr ≠ .preemptInc) (waits : motive m)
    (retries : ∀ b, b ≠ .preemptInc → (∀ rax, b = .test rax ∨ b = .exchangeAgain rax → rax = 1) →
      motive (m.setPc i (.spinLock site b)))
    (takes : m.word site.lock = 0 → motive (acquired (m.setWord site.lock 1) i site)) :
    motive (advance m i) := by
  have exchanged : motive (exchange m i site 1) := by
    unfold exchange
    dsimp only
    split
    case isTrue free => exact takes free
    case isFalse held =>
      obtain ⟨one, same⟩ := inv.setWord_held held
      rw [one, same]
      exact retries (.test 1) nofun (by simp)
  rw [advance, pc]
  cases instr with
  | preemptInc => exact absurd rfl begun
  | exchange => exact exchanged
  | test rax =>
    obtain rfl := inv.stale i site rax (.inl pc)
    dsimp only
    split
    · exact waits
    · exact retries (.exchangeAgain 1) nofun (by simp)
  | exchangeAgain rax =>
    obtain rfl := inv.stale i site rax (.inr pc)
    exact exchanged

theorem Counted.reader_counted (pc : (m.cpu i).pc = .decReaders) : 1 ≤ m.readers.toNat := by
  have mine := le_census crossing m.cpu i
  have crosses : crossing (m.cpu i) = 1 := by rw [crossing, pc]
  have total := inv.balanced.count
  omega

/-- The reader is counted, and is the first or not; or it is not counted any more, and was the last or not. -/
theorem readers_counted (room : ReaderRoom m i)
    (pc : (m.cpu i).pc = .incReaders ∨ (m.cpu i).pc = .decReaders) : Counted (advance m i) := by
  have words : (m.cpu i).pc = .incReaders ∧ (m.readers + 1#64).toNat = m.readers.toNat + 1 ∨
      (m.cpu i).pc = .decReaders ∧ (m.readers - 1#64).toNat = m.readers.toNat - 1 ∧ 1 ≤ m.readers.toNat :=
    pc.imp (fun here => ⟨here, toNat_inc (room here)⟩)
      fun here => ⟨here, toNat_dec (inv.reader_counted here), inv.reader_counted here⟩
  obtain ⟨pc, value⟩ | ⟨pc, value, some⟩ := words
  all_goals
    rw [advance, pc]
    refine inv.step i _ _ m.rdLock m.wrLock ⟨value, rfl, rfl⟩ rfl ?_ fun o cl s r x w before => ?_
    · dsimp only
      split <;> exact nofun
    · -- whoever holds `rd_lock` is alone with it: no other processor opens or closes
      dsimp only
      simp only [word_eq_iff (by decide : 0 < 2 ^ 64), word_eq_iff (by decide : 1 < 2 ^ 64), value]
      split
      all_goals
        simp only [opening, closing, steady, crossing, writers, pc] at before ⊢
        obtain ⟨rd, rdOne, count, wr, wrOne, first, last⟩ := before
        exact ⟨by omega, rdOne, by omega, by omega, wrOne, by omega, by omega⟩

theorem store_counted {site : Release} (pc : (m.cpu i).pc = .spinUnlock site .store) :
    Counted (advance m i) := by
  cases site with
  | readEntered | readLeft =>
    rw [advance, pc]
    refine inv.step i _ m.readers.toNat 0 m.wrLock ⟨rfl, rfl, rfl⟩ rfl nofun fun o cl s r x w before => ?_
    simp only [opening, closing, steady, crossing, writers, pc] at before ⊢
    obtain ⟨rd, rdOne, count, wr, wrOne, first, last⟩ := before
    exact ⟨by omega, Nat.zero_le 1, count, wr, wrOne, first, last⟩
  | lastReader | written =>
    rw [advance, pc]
    refine inv.step i _ m.readers.toNat m.rdLock 0 ⟨rfl, rfl, rfl⟩ rfl nofun fun o cl s r x w before => ?_
    simp only [RwMachine.setWord_cpu, opening, closing, steady, crossing, writers, pc] at before ⊢
    obtain ⟨rd, rdOne, count, wr, wrOne, first, last⟩ := before
    exact ⟨by omega, rdOne, count, by omega, Nat.zero_le 1, first, by omega⟩

theorem Counted.quiet (i : Fin n)
    (own : ∀ site rax, c.pc = .spinLock site (.test rax) ∨
      c.pc = .spinLock site (.exchangeAgain rax) → rax = 1)
    (same : opening c = opening (m.cpu i) ∧ closing c = closing (m.cpu i) ∧ steady c = steady (m.cpu i) ∧
      c.reads + crossing c = (m.cpu i).reads + crossing (m.cpu i) ∧ writers c = writers (m.cpu i)) :
    Counted (m.setCpu i c) := by
  obtain ⟨opens, closes, holds, reads, writes⟩ := same
  refine inv.step i c m.readers.toNat m.rdLock m.wrLock ⟨rfl, rfl, rfl⟩ rfl own
    fun o cl s r x w before => ?_
  rw [opens, closes, holds, writes]
  obtain ⟨rd, rdOne, count, wr, wrOne, first, last⟩ := before
  exact ⟨rd, rdOne, by omega, wr, wrOne, first, last⟩

theorem advance_counted (room : ReaderRoom m i) : Counted (advance m i) := by
  cases pc : (m.cpu i).pc with
  | idle =>
    have result : advance m i = m := by rw [advance, pc]
    rwa [result]
  | spinLock site instr =>
    cases instr with
    | preemptInc =>
      have result : advance m i = m.preemptInc i (.spinLock site .exchange) := by rw [advance, pc]
      rw [result]
      exact inv.respin pc _ nofun
    | exchange | test | exchangeAgain =>
      exact inv.spin pc nofun inv (fun b _ => inv.respin pc _) (acquired_counted inv pc)
  | spinUnlock site instr =>
    cases instr with
    | store => exact store_counted inv pc
    | preemptDec =>
      cases site <;>
      · rw [advance, pc]
        refine inv.quiet i nofun ?_
        simp [opening, closing, steady, crossing, writers, pc]
  | incReaders => exact readers_counted inv room (.inl pc)
  | preemptInc | preemptDec =>
    rw [advance, pc]
    refine inv.quiet i nofun ?_
    simp [opening, closing, steady, crossing, writers, pc]
  | decReaders => exact readers_counted inv room (.inr pc)

theorem beginCall_counted (i : Fin n) (call : Call) (idle : (m.cpu i).pc = .idle)
    (allowed : call.Allowed (m.cpu i)) : Counted (beginCall m i call) := by
  cases call with
  | readSpinLock | writeSpinLock =>
    refine inv.quiet i nofun ?_
    simp [opening, closing, steady, crossing, writers, idle]
  | readSpinUnlock =>
    have some : 0 < (m.cpu i).reads := allowed
    have back : (m.cpu i).reads - 1 + 1 = (m.cpu i).reads := Nat.sub_add_cancel some
    refine inv.quiet i nofun ?_
    simp [opening, closing, steady, crossing, writers, idle, back]
  | writeSpinUnlock =>
    have held : (m.cpu i).writing = true := allowed
    refine inv.quiet i nofun ?_
    simp [opening, closing, steady, crossing, writers, idle, held]

end Steps

section Runs

variable {guard : RwMachine n → Fin n → Prop}

theorem counted_initial (start : Fin n → BitVec 32) : Counted (initial start) where
  balanced := by
    have none : ∀ f : Cpu → Nat, (∀ count, f ⟨.idle, 0, false, count⟩ = 0) →
        census f (initial start).cpu = 0 :=
      fun f zero => census_eq_zero fun i => zero (start i)
    rw [none opening fun _ => rfl, none closing fun _ => rfl, none steady fun _ => rfl,
      none Cpu.reads fun _ => rfl, none crossing fun _ => rfl, none writers fun _ => rfl]
    exact ⟨rfl, Nat.zero_le 1, rfl, rfl, Nat.zero_le 1, nofun, nofun⟩
  stale := nofun

theorem rwStep_counted (roomy : ∀ m i, guard m i → ReaderRoom m i) (step : RwStep guard m m')
    (inv : Counted m) : Counted m' := by
  cases step with
  | call i call idle allowed => exact beginCall_counted inv i call idle allowed
  | run i allowed => exact advance_counted inv (roomy m i allowed)

theorem counted_of_run {start : Fin n → BitVec 32} (roomy : ∀ m i, guard m i → ReaderRoom m i)
    (run : Reaches (RwStep guard) (initial start) m) : Counted m :=
  run.invariant Counted (counted_initial start) fun _ _ _ step => rwStep_counted roomy step

theorem Counted.excludes (inv : Counted m) (writing : (m.cpu i).writing = true)
    (different : i ≠ j) : (m.cpu j).reads = 0 ∧ (m.cpu j).writing = false := by
  obtain ⟨rd, rdOne, count, wr, wrOne, first, last⟩ := inv.balanced
  have writer : 1 ≤ writers (m.cpu i) := by
    rw [writers, if_pos writing]
    exact Nat.le_add_right 1 _
  have both := add_le_census writers m.cpu different
  have inside := le_census Cpu.reads m.cpu j
  constructor
  · -- with a writer, the only reader that is counted is the one that waits for `wr_lock`
    omega
  · cases other : (m.cpu j).writing with
    | false => rfl
    | true =>
      have another : 1 ≤ writers (m.cpu j) := by
        rw [writers, if_pos other]
        exact Nat.le_add_right 1 _
      omega

def Cpu.Away (c : Cpu) : Prop :=
  c.reads = 0 ∧ c.writing = false ∧
    (c.pc = .idle ∨ c.pc = .spinUnlock .readLeft .preemptDec ∨ c.pc = .spinUnlock .written .preemptDec)

theorem Cpu.Away.contributes_nothing (away : c.Away) :
    opening c = 0 ∧ closing c = 0 ∧ steady c = 0 ∧ crossing c = 0 ∧ writers c = 0 := by
  obtain ⟨_, writing, here | here | here⟩ := away <;>
    simp [opening, closing, steady, crossing, writers, writing, here]

theorem Counted.free (inv : Counted m) (away : ∀ i, (m.cpu i).Away) :
    m.readers = 0#64 ∧ m.rdLock = 0 ∧ m.wrLock = 0 := by
  have opens : census opening m.cpu = 0 := census_eq_zero fun i => (away i).contributes_nothing.1
  have closes : census closing m.cpu = 0 := census_eq_zero fun i => (away i).contributes_nothing.2.1
  have holds : census steady m.cpu = 0 := census_eq_zero fun i => (away i).contributes_nothing.2.2.1
  have cross : census crossing m.cpu = 0 := census_eq_zero fun i => (away i).contributes_nothing.2.2.2.1
  have writes : census writers m.cpu = 0 := census_eq_zero fun i => (away i).contributes_nothing.2.2.2.2
  have reads : census Cpu.reads m.cpu = 0 := census_eq_zero fun i => (away i).1
  obtain ⟨rd, rdOne, count, wr, wrOne, first, last⟩ := inv.balanced
  rw [word_eq_iff (by decide)]
  omega

theorem advances {k : Nat} (room : ∀ j < k, ReaderRoom ((advance · i)^[j] m) i) :
    Reaches (RwStep ReaderRoom) m ((advance · i)^[k] m) := by
  induction k with
  | zero => exact .refl
  | succ k ih =>
    rw [Function.iterate_succ_apply']
    exact (ih fun j less => room j (by omega)).tail (.run i (room k (by omega)))

def Resting (m : RwMachine n) : Prop := ∀ i, (m.cpu i).pc = .idle ∧ (m.cpu i).writing = false

theorem Counted.words_of_resting (inv : Counted m) (rest : Resting m) :
    m.rdLock = 0 ∧ m.wrLock = min m.readers.toNat 1 := by
  have opens : census opening m.cpu = 0 := census_eq_zero fun i => by simp [opening, rest i]
  have closes : census closing m.cpu = 0 := census_eq_zero fun i => by simp [closing, rest i]
  have holds : census steady m.cpu = 0 := census_eq_zero fun i => by simp [steady, rest i]
  have writes : census writers m.cpu = 0 := census_eq_zero fun i => by simp [writers, rest i]
  obtain ⟨rd, rdOne, count, wr, wrOne, first, last⟩ := inv.balanced
  omega

/-- From a rest a processor can open one more read section, whoever else is reading. -/
theorem exists_enter (inv : Counted m) (rest : Resting m) (room : m.readers + 1#64 ≠ 0#64) (i : Fin n) :
    ∃ m' c, Reaches (RwStep ReaderRoom) m m' ∧ m'.readers = m.readers + 1#64 ∧ m'.cpu = update m.cpu i c ∧
      c.pc = .idle ∧ c.writing = false ∧ c.reads = (m.cpu i).reads + 1 := by
  obtain ⟨rd, wr⟩ := inv.words_of_resting rest
  have called : Reaches (RwStep ReaderRoom) m (beginCall m i .readSpinLock) :=
    .single (.call i _ (rest i).1 trivial)
  have alone := (rest i).2
  by_cases first : m.readers = 0#64
  · rw [first] at wr
    refine ⟨_, ⟨.idle, (m.cpu i).reads + 1, false, (m.cpu i).preemptCount + 1#32 + 1#32 + 1#32 - 1#32⟩,
      called.trans (@advances _ _ i 8 fun j less => ?_), ?_, ?_, rfl, rfl, rfl⟩
    · interval_cases j <;> simp [ReaderRoom, beginCall, advance, exchange, acquired, word, setWord,
        setPc, setCpu, RwMachine.preemptInc, Acquire.lock, Release.lock, rd, wr, first]
    all_goals simp [beginCall, advance, exchange, acquired, word, setWord, setPc,
      setCpu, RwMachine.preemptInc, Acquire.lock, Release.lock, rd, wr, first, alone]
  · refine ⟨_, ⟨.idle, (m.cpu i).reads + 1, false, (m.cpu i).preemptCount + 1#32 + 1#32 - 1#32⟩,
      called.trans (@advances _ _ i 6 fun j less => ?_), ?_, ?_, rfl, rfl, rfl⟩
    · interval_cases j <;> simp [ReaderRoom, beginCall, advance, exchange, acquired, word, setWord,
        setPc, setCpu, RwMachine.preemptInc, Acquire.lock, Release.lock, rd, first, room]
    all_goals simp [beginCall, advance, exchange, acquired, word, setWord, setPc,
      setCpu, RwMachine.preemptInc, Acquire.lock, Release.lock, rd, first, alone]

/-- Any processors can be in read sections together, each in as many as it likes. -/
theorem exists_readers (start : Fin n → BitVec 32) (inside : List (Fin n)) (few : inside.length < 2 ^ 64) :
    ∃ m, Reaches (RwStep ReaderRoom) (initial start) m ∧ Resting m ∧
      m.readers.toNat = inside.length ∧ ∀ i, (m.cpu i).reads = inside.count i := by
  induction inside with
  | nil => exact ⟨initial start, .refl, fun _ => ⟨rfl, rfl⟩, rfl, fun _ => rfl⟩
  | cons i inside ih =>
    rw [List.length_cons] at few ⊢
    obtain ⟨m, run, rest, total, reads⟩ := ih (by omega)
    have room : m.readers + 1#64 ≠ 0#64 := by
      rw [Ne, word_eq_iff (by decide), BitVec.toNat_add, BitVec.toNat_ofNat, total]
      omega
    obtain ⟨m', c, entered, readers, cpu, idle, alone, more⟩ :=
      exists_enter (counted_of_run (fun _ _ => id) run) rest room i
    refine ⟨m', run.trans entered, fun j => ?_, by rw [readers, toNat_inc room, total], fun j => ?_⟩
    · rw [cpu]
      by_cases same : j = i
      · rw [same, update_self]
        exact ⟨idle, alone⟩
      · rw [update_of_ne same]
        exact rest j
    · rw [cpu]
      by_cases same : j = i
      · rw [same, update_self, more, reads, List.count_cons_self]
      · rw [update_of_ne same, reads, List.count_cons_of_ne (Ne.symm same)]

/-- As long as the word that counts the read sections does not overflow: while a processor is
in a write section no other processor is in a section; readers may be in theirs together; and
a lock that nobody has or wants is free. -/
theorem rwspinlock_exclusion (start : Fin n → BitVec 32) :
    (∀ m, Reaches (RwStep ReaderRoom) (initial start) m →
      (∀ i j, (m.cpu i).writing = true → i ≠ j → (m.cpu j).reads = 0 ∧ (m.cpu j).writing = false) ∧
      ((∀ i, (m.cpu i).Away) → m.readers = 0#64 ∧ m.rdLock = 0 ∧ m.wrLock = 0)) ∧
    ∀ inside : List (Fin n), inside.length < 2 ^ 64 →
      ∃ m, Reaches (RwStep ReaderRoom) (initial start) m ∧ ∀ i, (m.cpu i).reads = inside.count i := by
  refine ⟨fun m run => ?_, fun inside few => ?_⟩
  · have inv := counted_of_run (fun _ _ => id) run
    exact ⟨fun _ _ => inv.excludes, inv.free⟩
  · obtain ⟨m, run, _, _, reads⟩ := exists_readers start inside few
    exact ⟨m, run, reads⟩

end Runs

end ByteOS.Smp
