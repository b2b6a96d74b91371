import Mathlib.Algebra.BigOperators.Fin
import Mathlib.Algebra.Order.BigOperators.Group.Finset
import Mathlib.Data.BitVec

/-! Counting over the processes of a concurrent system.

A census adds up what every process contributes. A step of one process changes it by
the difference of the contributions of that process.
-/

set_option autoImplicit false

namespace ByteOS.Lib

open Finset (univ mem_univ sum_congr add_sum_erase single_le_sum)

variable {I S : Type} [Fintype I]

/-- The sum of the contributions `f` of all processes. -/
def census (f : S → Nat) (c : I → S) : Nat := ∑ i, f (c i)

theorem census_update [DecidableEq I] (f : S → Nat) (c : I → S) (i : I) (s : S) :
    census f (Function.update c i s) + f (c i) = census f c + f s := by
  have mine : ∀ c : I → S, census f c = f (c i) + ∑ j ∈ univ.erase i, f (c j) := fun c =>
    (add_sum_erase univ (fun j => f (c j)) (mem_univ i)).symm
  have others : ∑ j ∈ univ.erase i, f (Function.update c i s j) = ∑ j ∈ univ.erase i, f (c j) := by
    refine sum_congr rfl fun j inside => ?_
    rw [Function.update_of_ne (Finset.ne_of_mem_erase inside)]
  rw [mine (Function.update c i s), mine c, others, Function.update_self]
  omega

theorem le_census (f : S → Nat) (c : I → S) (i : I) : f (c i) ≤ census f c :=
  single_le_sum (f := fun j => f (c j)) (fun _ _ => Nat.zero_le _) (mem_univ i)

theorem add_le_census [DecidableEq I] (f : S → Nat) (c : I → S) {i j : I} (different : i ≠ j) :
    f (c i) + f (c j) ≤ census f c := by
  rw [census, ← add_sum_erase univ (fun j => f (c j)) (mem_univ i)]
  have there : j ∈ univ.erase i := Finset.mem_erase.mpr ⟨different.symm, mem_univ j⟩
  exact Nat.add_le_add_left (single_le_sum (f := fun j => f (c j))
    (fun _ _ => Nat.zero_le _) there) _

theorem census_eq_zero {f : S → Nat} {c : I → S} (none : ∀ i, f (c i) = 0) : census f c = 0 :=
  Finset.sum_eq_zero fun i _ => none i

theorem census_eq_single [DecidableEq I] {f : S → Nat} {c : I → S} (i : I)
    (others : ∀ j, j ≠ i → f (c j) = 0) : census f c = f (c i) :=
  Finset.sum_eq_single i (fun j _ other => others j other) fun outside => absurd (mem_univ i) outside

/-! Counters that are machine words. -/

theorem toNat_inc {w : Nat} {x : BitVec w} (room : x + 1#w ≠ 0#w) : (x + 1#w).toNat = x.toNat + 1 := by
  have below := x.isLt
  have fits : x.toNat + 1 ≠ 2 ^ w := by
    intro full
    refine room (BitVec.eq_of_toNat_eq ?_)
    rw [BitVec.toNat_add, BitVec.toNat_ofNat, Nat.add_mod_mod, full, Nat.mod_self,
      BitVec.toNat_ofNat, Nat.zero_mod]
  rw [BitVec.toNat_add, BitVec.toNat_ofNat, Nat.add_mod_mod, Nat.mod_eq_of_lt (by omega)]

theorem toNat_dec {w : Nat} {x : BitVec w} (some : 1 ≤ x.toNat) : (x - 1#w).toNat = x.toNat - 1 := by
  have below := x.isLt
  rw [BitVec.toNat_sub_of_le, BitVec.toNat_ofNat, Nat.mod_eq_of_lt (by omega)]
  rw [BitVec.le_def, BitVec.toNat_ofNat, Nat.mod_eq_of_lt (by omega)]
  exact some

end ByteOS.Lib
