import Mathlib.Data.BitVec
import ByteOS.Mm.Addr

/-! Sets of processors: `kernel/smp/cpuset.c`.

Bit 0 of a `cpuset_t` is the pin flag, and processor `id` has bit `id + 1`.
-/

set_option autoImplicit false

namespace ByteOS.Smp

open ByteOS.Mm

abbrev Cpuset := BitVec 32

def maxCores : Nat := 20

def cpusetQueryId (cpus : Cpuset) (id : Nat) : Except Fault Bool := do
  kassert (id < maxCores) "id < MAX_CORES"
  return cpus &&& (1#32 <<< (id + 1)) ≠ 0#32

def cpusetSetId (cpus : Cpuset) (id : Nat) (val : Bool) : Except Fault Cpuset := do
  kassert (id < maxCores) "id < MAX_CORES"
  if val then return cpus ||| (1#32 <<< (id + 1))
  else return cpus &&& ~~~(1#32 <<< (id + 1))

variable {id : Nat}

theorem cpuMask_bit {j : Nat} (small : id < maxCores) :
    (1#32 <<< (id + 1)).getLsbD j = decide (j = id + 1) := by
  have fits : id + 1 < 32 := by
    unfold maxCores at small
    omega
  have one : ∀ k, (1#32).getLsbD k = decide (k = 0) := by
    intro k
    simp [BitVec.getLsbD_one]
  rw [BitVec.getLsbD_shiftLeft, one]
  by_cases same : j = id + 1
  · simp [same, fits]
  · have shifted : j < id + 1 ∨ j - (id + 1) ≠ 0 := by omega
    obtain below | above := shifted
    · simp [same, below]
    · simp [same, above]

theorem cpusetQueryId_iff {cpus : Cpuset} :
    cpusetQueryId cpus id = .ok true ↔ id < maxCores ∧ cpus.getLsbD (id + 1) = true := by
  have ran : cpusetQueryId cpus id = .ok true ↔ id < maxCores ∧ cpus &&& (1#32 <<< (id + 1)) ≠ 0#32 := by
    unfold cpusetQueryId
    rw [bind_eq_ok]
    simp [pure, Except.pure]
  rw [ran]
  refine and_congr_right fun small => ⟨fun nonzero => ?_, fun set zero => ?_⟩
  · by_contra clear
    refine nonzero (BitVec.eq_of_getLsbD_eq fun j _ => ?_)
    rw [BitVec.getLsbD_and, cpuMask_bit small, BitVec.getLsbD_zero]
    by_cases same : j = id + 1
    · rw [same, Bool.eq_false_iff.mpr clear, Bool.false_and]
    · simp [same]
  · have bit := congrArg (fun word => word.getLsbD (id + 1)) zero
    simp only [BitVec.getLsbD_and, cpuMask_bit small, set, BitVec.getLsbD_zero] at bit
    simp at bit

@[simp] theorem cpusetQueryId_empty (id : Nat) : cpusetQueryId 0#32 id ≠ .ok true := by
  rw [Ne, cpusetQueryId_iff]
  simp

theorem cpusetQueryId_setId {cpus cpus' : Cpuset} {val : Bool}
    (ran : cpusetSetId cpus id val = .ok cpus') (id' : Nat) :
    cpusetQueryId cpus' id' = .ok true ↔
      if id' = id then val = true else cpusetQueryId cpus id' = .ok true := by
  unfold cpusetSetId at ran
  obtain ⟨_, small, ran⟩ := bind_eq_ok.mp ran
  rw [kassert_eq_ok] at small
  rw [cpusetQueryId_iff, cpusetQueryId_iff]
  cases val with
  | true =>
    cases ran
    rw [BitVec.getLsbD_or, cpuMask_bit small]
    by_cases same : id' = id
    · simp [same, small]
    · simp [same]
  | false =>
    cases ran
    rw [BitVec.getLsbD_and, BitVec.getLsbD_not, cpuMask_bit small]
    by_cases same : id' = id
    · simp [same]
    · have fits : id' < maxCores → id' + 1 < 32 := fun small' => by
        unfold maxCores at small'
        omega
      simp only [same, Nat.add_right_cancel_iff, decide_false, Bool.not_false, Bool.and_true,
        Bool.and_eq_true, decide_eq_true_eq, if_false]
      constructor
      · exact fun ⟨small', set, _⟩ => ⟨small', set⟩
      · exact fun ⟨small', set⟩ => ⟨small', set, fits small'⟩

end ByteOS.Smp
