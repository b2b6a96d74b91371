import ByteOS.Mm.Addr
import Mathlib.Algebra.BigOperators.Group.List.Basic
import Mathlib.Data.BitVec

/-! Sleeping with the interval timer (`kernel/drivers/pit/pit.c`).

Counter 0 of the timer stands beside the code: it takes the low and then the high byte of a
count, and its status says if the count has expired. The code programs counts of at most
`0xFFFF` ticks until less than `0x10000` are left, and these it forgets: the full delay is
programmed only if one count is enough for it, and not if the delay is zero.
-/

set_option autoImplicit false

namespace ByteOS.Drivers.Pit

open Mm

inductive Access where
  | low
  | high (lo : BitVec 8)
  deriving DecidableEq, Repr

structure Counter where
  access : Access
  counts : List (BitVec 16)
  reads : Nat
  deriving DecidableEq, Repr

/-- `outb` to the timer. The command `0x30` starts a count in mode 0; other commands do not
change the count. -/
def outb (s : Counter) (port : BitVec 16) (val : BitVec 8) : Counter :=
  if port = 0x43#16 then if val = 0x30#8 then { s with access := .low } else s
  else if port = 0x40#16 then
    match s.access with
    | .low => { s with access := .high val }
    | .high lo => { s with access := .low, counts := s.counts ++ [val ++ lo] }
  else s

def ticks (count : BitVec 16) : Nat := if count = 0#16 then 65536 else count.toNat

def Expired (status : BitVec 8) : Prop := status &&& 1#8 <<< 7 ≠ 0#8

instance (status : BitVec 8) : Decidable (Expired status) := inferInstanceAs (Decidable (_ ≠ _))

def Expires (status : Nat → BitVec 8) : Prop := ∀ n, ∃ m ≥ n, Expired (status m)

section Code

variable (changed : Nat → Bool) (status : Nat → BitVec 8)

/-- The inner loop, which reads the status until the count has expired. It is left early if the
watched flag has changed; `false` stands for that. -/
def poll : Nat → Counter → Except Fault (Bool × Counter)
  | 0, _ => .error .unfinished
  | fuel + 1, s =>
    if changed s.reads then .ok (false, s)
    else
      let s := outb s 0x43#16 0xE2#8
      let s' := { s with reads := s.reads + 1 }
      if Expired (status s.reads) then .ok (true, s') else poll fuel s'

/-- `outb(0x43, 0x30)` and the two bytes of the count. -/
def program (s : Counter) (count : BitVec 16) : Counter :=
  outb (outb (outb s 0x43#16 0x30#8) 0x40#16 (count.setWidth 8)) 0x40#16 ((count >>> 8).setWidth 8)

/-- `MIN(total_count, 0xFFFFU)`, stored in 16 bits. -/
def nextCount (total : BitVec 64) : BitVec 16 :=
  (if total > 0xFFFF#64 then 0xFFFF#64 else total).setWidth 16

def sleepLoop (fuel : Nat) : Nat → BitVec 64 → Counter → Except Fault Counter
  | 0, _, _ => .error .unfinished
  | passes + 1, total, s => do
    let count := nextCount total
    let (expired, s) ← poll changed status fuel (program s count)
    if expired = false then return s
    let total := total - count.setWidth 64
    if total &&& ~~~0xFFFF#64 ≠ 0#64 then sleepLoop fuel passes total s else return s

end Code

/-- `pit_sleep_ms`. Both loops make at most `fuel` passes. -/
def pitSleepMs (status : Nat → BitVec 8) (ms : BitVec 64) (s : Counter) (fuel : Nat) :
    Except Fault Counter :=
  sleepLoop (fun _ => false) status fuel fuel (0x4A9#64 * ms) s

/-- `pit_sleep_watch_flag`; `flag n` is what the load before reading `n` of the status finds. -/
def pitSleepWatchFlag (status : Nat → BitVec 8) (flag : Nat → Bool) (original : Bool)
    (ms : BitVec 64) (s : Counter) (fuel : Nat) : Except Fault Counter :=
  sleepLoop (fun n => flag n != original) status fuel fuel (0x4A9#64 * ms) s

/-- With enough passes the call returns, and it has programmed so many ticks. -/
def Sleeps (call : Nat → Except Fault Counter) (s : Counter) (total : Nat) : Prop :=
  ∃ s' enough counts, (∀ fuel ≥ enough, call fuel = .ok s') ∧ s'.counts = s.counts ++ counts ∧
    (counts.map ticks).sum = total

/-! ## The counts that are programmed -/

/-- The counts for a delay, none of them above `longest`. -/
def chunks (longest total : Nat) : List Nat :=
  if 0 < longest ∧ longest < total - longest then longest :: chunks longest (total - longest)
  else [min total longest]
termination_by total
decreasing_by omega

variable {longest total : Nat}

theorem chunks_sum_lt (long : longest < total) : (chunks longest total).sum < total := by
  fun_induction chunks longest total with
  | case1 total more ih =>
    have rest := ih more.2
    rw [List.sum_cons]
    omega
  | case2 total last =>
    rw [List.sum_singleton]
    omega

theorem chunks_bounds (some : 0 < longest) (delay : 0 < total) :
    ∀ count ∈ chunks longest total, 0 < count ∧ count ≤ longest := by
  fun_induction chunks longest total with
  | case1 total more ih =>
    intro count inside
    obtain rfl | inside := List.mem_cons.mp inside
    · exact ⟨some, le_rfl⟩
    · exact ih (by omega) count inside
  | case2 total last =>
    intro count inside
    rw [List.mem_singleton.mp inside]
    omega

theorem ticks_ofNat {count : Nat} (some : 0 < count) (short : count < 2 ^ 16) :
    ticks (BitVec.ofNat 16 count) = count := by
  have value : (BitVec.ofNat 16 count).toNat = count := by rw [BitVec.toNat_ofNat, Nat.mod_eq_of_lt short]
  rw [ticks, if_neg, value]
  intro zero
  rw [zero] at value
  exact some.ne value

/-- The delay is programmed in full exactly if it is one nonzero count. -/
theorem ticks_sum (some : 0 < longest) (short : longest < 2 ^ 16) (total : Nat) :
    (((chunks longest total).map (BitVec.ofNat 16)).map ticks).sum = total ↔ 0 < total ∧
    total ≤ longest := by
  rcases Nat.eq_zero_or_pos total with rfl | delay
  · have zero : chunks longest 0 = [0] := by rw [chunks, if_neg (by omega), Nat.zero_min]
    simp [zero, ticks]
  · have same : ((chunks longest total).map (BitVec.ofNat 16)).map ticks = chunks longest total := by
      rw [List.map_map, List.map_congr_left (g := id), List.map_id]
      intro count inside
      obtain ⟨positive, bound⟩ := chunks_bounds some delay count inside
      exact ticks_ofNat positive (bound.trans_lt short)
    rw [same]
    constructor
    · intro exact
      exact ⟨delay, Nat.le_of_not_lt fun long => (chunks_sum_lt long).ne exact⟩
    · rintro ⟨_, once⟩
      rw [chunks, if_neg (by omega), List.sum_singleton, Nat.min_eq_left once]

/-! ## The loops -/

section Loops

variable {changed : Nat → Bool} {status : Nat → BitVec 8} {s : Counter} {fuel : Nat} {total : BitVec 64}

@[simp] theorem program_counts (s : Counter) (count : BitVec 16) :
    (program s count).counts = s.counts ++ [count] := by
  have whole : (count >>> 8).setWidth 8 ++ count.setWidth 8 = count := by
    ext i bound
    simp
    grind
  simp [program, outb, whole]

theorem poll_expires (quiet : ∀ n, changed n = false) (expires : Expires status) (s : Counter) :
    ∃ s' enough, s'.counts = s.counts ∧ ∀ fuel ≥ enough, poll changed status fuel s = .ok (true, s') := by
  obtain ⟨m, later, expired⟩ := expires s.reads
  obtain ⟨k, rfl⟩ := Nat.exists_eq_add_of_le later
  induction k generalizing s with
  | zero =>
    refine ⟨{ s with reads := s.reads + 1 }, 1, rfl, fun fuel more => ?_⟩
    obtain ⟨fuel, rfl⟩ := Nat.exists_eq_add_of_le' more
    have now : Expired (status s.reads) := expired
    simp [poll, quiet, outb, now]
  | succ k ih =>
    by_cases now : Expired (status s.reads)
    · refine ⟨{ s with reads := s.reads + 1 }, 1, rfl, fun fuel more => ?_⟩
      obtain ⟨fuel, rfl⟩ := Nat.exists_eq_add_of_le' more
      simp [poll, quiet, outb, now]
    · have same : s.reads + (k + 1) = s.reads + 1 + k := by omega
      obtain ⟨s', enough, same, run⟩ :=
        ih { s with reads := s.reads + 1 } (Nat.le_add_right _ _) (same ▸ expired)
      refine ⟨s', enough + 1, same, fun fuel more => ?_⟩
      obtain ⟨fuel, rfl⟩ := Nat.exists_eq_add_of_le' (Nat.le_of_add_left_le more)
      rw [poll, quiet, if_neg Bool.false_ne_true]
      simp [outb, now, run fuel (by omega)]

theorem nextCount_eq (total : BitVec 64) : nextCount total = BitVec.ofNat 16 (min total.toNat 0xFFFF) := by
  unfold nextCount
  split
  case isTrue long =>
    have above : 0xFFFF < total.toNat := long
    rw [Nat.min_eq_right above.le]
    rfl
  case isFalse short =>
    have below : total.toNat ≤ 0xFFFF := Nat.le_of_not_lt short
    rw [Nat.min_eq_left below]
    rfl

theorem rest_toNat (total : BitVec 64) :
    (total - (nextCount total).setWidth 64).toNat = total.toNat - 0xFFFF := by
  have value : ((nextCount total).setWidth 64).toNat = min total.toNat 0xFFFF := by
    rw [nextCount_eq, BitVec.toNat_setWidth, BitVec.toNat_ofNat]
    omega
  have bound := total.isLt
  rw [BitVec.toNat_sub, value]
  omega

/-- `~0xFFFF` is an `int` and extended with its sign. -/
theorem high_bits (rest : BitVec 64) : rest &&& ~~~0xFFFF#64 ≠ 0#64 ↔ 0xFFFF < rest.toNat := by
  have low : rest &&& ~~~0xFFFF#64 = 0#64 ↔ rest &&& 0xFFFF#64 = rest := by
    constructor
    · intro clear
      have split : rest &&& 0xFFFF#64 ||| rest &&& ~~~0xFFFF#64 = rest := by
        rw [← BitVec.and_or_distrib_left, BitVec.or_not_self, BitVec.and_allOnes]
      rwa [clear, BitVec.or_zero] at split
    · intro kept
      rw [← kept, BitVec.and_assoc, BitVec.and_not_self]
      exact BitVec.and_zero
  have masked : (rest &&& 0xFFFF#64).toNat = rest.toNat % 2 ^ 16 := by
    rw [BitVec.toNat_and]
    exact Nat.and_two_pow_sub_one_eq_mod rest.toNat 16
  rw [ne_eq, low, ← BitVec.toNat_inj, masked]
  omega

theorem sleepLoop_counts (quiet : ∀ n, changed n = false) (expires : Expires status)
    (total : BitVec 64) (s : Counter) :
    ∃ s' enough, s'.counts = s.counts ++ (chunks 0xFFFF total.toNat).map (BitVec.ofNat 16) ∧
      ∀ fuel ≥ enough, ∀ passes ≥ enough, sleepLoop changed status fuel passes total s = .ok s' := by
  induction length : total.toNat using Nat.strong_induction_on generalizing total s with
  | h n ih =>
    subst length
    obtain ⟨s1, enough1, same, waited⟩ := poll_expires quiet expires (program s (nextCount total))
    rw [program_counts, nextCount_eq] at same
    have rest := rest_toNat total
    have again := high_bits (total - (nextCount total).setWidth 64)
    rw [chunks]
    by_cases more : 0xFFFF < total.toNat - 0xFFFF
    · obtain ⟨s', enough2, counts, run⟩ := ih _ (by omega) (total - (nextCount total).setWidth 64) s1 rfl
      refine ⟨s', max enough1 enough2 + 1, ?_, fun fuel more1 passes more2 => ?_⟩
      · rw [if_pos ⟨by decide, more⟩, counts, same, rest, Nat.min_eq_right (by omega),
          List.map_cons, List.append_assoc]
        rfl
      · obtain ⟨passes, rfl⟩ := Nat.exists_eq_add_of_le' (Nat.le_of_add_left_le more2)
        rw [sleepLoop, waited fuel (by omega), ok_bind]
        simp only [reduceCtorEq, if_false]
        rw [if_pos (again.mpr (by omega)), run fuel (by omega) passes (by omega)]
    · refine ⟨s1, enough1 + 1, ?_, fun fuel more1 passes more2 => ?_⟩
      · rw [if_neg (by omega), same, List.map_singleton]
      · obtain ⟨passes, rfl⟩ := Nat.exists_eq_add_of_le' (Nat.le_of_add_left_le more2)
        rw [sleepLoop, waited fuel (by omega), ok_bind]
        simp only [reduceCtorEq, if_false]
        rw [if_neg (fun high => more (by rw [← rest]; exact again.mp high))]
        rfl

end Loops

/-- Both calls return, and the ticks they have programmed are the delay exactly if it is
between 1 and 54 milliseconds. -/
theorem pit_sleep_exact (ms : BitVec 64) (fits : 0x4A9 * ms.toNat < 2 ^ 64)
    (status : Nat → BitVec 8) (expires : Expires status) (s : Counter) :
    (∃ total, Sleeps (pitSleepMs status ms s) s total ∧
      (total = 0x4A9 * ms.toNat ↔ 1 ≤ ms.toNat ∧ ms.toNat ≤ 54)) ∧
    ∀ (flag : Nat → Bool) (original : Bool), (∀ n, flag n = original) →
      ∃ total, Sleeps (pitSleepWatchFlag status flag original ms s) s total ∧
        (total = 0x4A9 * ms.toNat ↔ 1 ≤ ms.toNat ∧ ms.toNat ≤ 54) := by
  have delay : (0x4A9#64 * ms).toNat = 0x4A9 * ms.toNat := by
    rw [BitVec.toNat_mul]
    exact Nat.mod_eq_of_lt fits
  have sleep : ∀ changed : Nat → Bool, (∀ n, changed n = false) →
      ∃ total, Sleeps (fun fuel => sleepLoop changed status fuel fuel (0x4A9#64 * ms) s) s total ∧
        (total = 0x4A9 * ms.toNat ↔ 1 ≤ ms.toNat ∧ ms.toNat ≤ 54) := by
    intro changed quiet
    obtain ⟨s', enough, counts, run⟩ := sleepLoop_counts quiet expires (0x4A9#64 * ms) s
    refine ⟨_, ⟨s', enough, _, fun fuel more => run fuel more fuel more, counts, rfl⟩, ?_⟩
    have full := ticks_sum (show 0 < 0xFFFF by decide) (by decide) (0x4A9 * ms.toNat)
    rw [delay, full]
    omega
  exact ⟨sleep _ fun _ => rfl, fun flag original same => sleep _ fun n => by rw [same, bne_self_eq_false]⟩

theorem pit_sleep_exact_ten :
    Sleeps (pitSleepMs (fun _ => 0x80#8) 10#64 ⟨.low, [], 0⟩) ⟨.low, [], 0⟩ 11930 ∧
      Sleeps (pitSleepWatchFlag (fun _ => 0x80#8) (fun _ => false) false 10#64 ⟨.low, [], 0⟩)
      ⟨.low, [], 0⟩ 11930 := by
  have high : Expired 0x80#8 := by decide
  have expires : Expires fun _ => 0x80#8 := fun n => ⟨n, le_rfl, high⟩
  obtain ⟨⟨total, sleeps, whole⟩, watch⟩ :=
    pit_sleep_exact 10#64 (by decide) (fun _ => 0x80#8) expires ⟨.low, [], 0⟩
  obtain ⟨total', sleeps', whole'⟩ := watch (fun _ => false) false fun _ => rfl
  have full : total = 11930 := whole.mpr (by decide)
  have full' : total' = 11930 := whole'.mpr (by decide)
  exact ⟨full ▸ sleeps, full' ▸ sleeps'⟩

/-- A tenth of a second: one count of 65535 ticks instead of 119300 ticks. -/
theorem hundred_ms_cut_short :
    pitSleepMs (fun _ => 0x80#8) 100#64 ⟨.low, [], 0⟩ 2 = .ok ⟨.low, [0xFFFF#16], 1⟩ ∧
      ticks 0xFFFF#16 = 65535 ∧ 0x4A9 * 100 = 119300 := by decide

end ByteOS.Drivers.Pit
