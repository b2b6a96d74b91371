import ByteOS.Mm.Addr
import Mathlib.Order.Bounds.Basic

/-! The search for a hole in a bitmap (`libk/ds/bitmap.c`, `include/ds/bitmap.h`).

The loop counts the clear bits that it has just passed, and looks at the count before it looks
at the next bit. A hole is therefore noticed only if a bit follows it: the search is exact for
holes that end before the last bit, and a hole that ends there is found only behind another one.
-/

set_option autoImplicit false

namespace ByteOS.Libk

open Mm

def bitmapTest (map : List (BitVec 8)) (which : Nat) : Except Fault (BitVec 32) :=
  match map[which >>> 3]? with
  | none => .error .outOfRange
  | some byte => .ok (byte.setWidth 32 &&& 1#32 <<< (which &&& 7))

/-- A `size_t` that is returned as an `int`. -/
def toInt (value : Nat) : Int := (BitVec.ofNat 32 value).toInt

def findHoleLoop (map : List (BitVec 8)) (holeSize : Nat) : Nat → Nat → Nat → Except Fault Int
  | 0, _, _ => .ok (-1)
  | left + 1, i, temp =>
    if temp = holeSize then .ok (toInt (i - temp))
    else do
      if (← bitmapTest map i) = 0#32 then findHoleLoop map holeSize left (i + 1) (temp + 1)
      else findHoleLoop map holeSize left (i + 1) 0

def bitmapFindHole (map : List (BitVec 8)) (size holeSize : Nat) : Except Fault Int :=
  findHoleLoop map holeSize size 0 0

/-! ## What is searched for -/

def bit (map : List (BitVec 8)) (i : Nat) : Bool := (map.getD (i / 8) 0#8).getLsbD (i % 8)

def Hole (map : List (BitVec 8)) (i holeSize : Nat) : Prop := ∀ j < holeSize, bit map (i + j) = false

def holes (map : List (BitVec 8)) (size holeSize : Nat) : Set Nat :=
  { i | i + holeSize ≤ size ∧ Hole map i holeSize }

def FindsHole (map : List (BitVec 8)) (size holeSize : Nat) (result : Int) : Prop :=
  (∃ i : Nat, IsLeast (holes map size holeSize) i ∧ result = i) ∨
    (holes map size holeSize = ∅ ∧ result = -1)

variable {map : List (BitVec 8)} {size holeSize left i temp : Nat}

theorem masked_eq_zero (byte : BitVec 8) (k : Nat) (low : k < 8) :
    byte.setWidth 32 &&& 1#32 <<< k = 0#32 ↔ byte.getLsbD k = false := by
  constructor
  · intro clear
    have same := congrArg (BitVec.getLsbD · k) clear
    simpa [show k < 32 by omega] using same
  · intro clear
    ext j bound
    by_cases here : j = k
    · subst here
      simp [clear]
    · simp
      omega

theorem bitmapTest_inside (inside : i < 8 * map.length) :
    ∃ value, bitmapTest map i = .ok value ∧ (value = 0#32 ↔ bit map i = false) := by
  have bound : i / 8 < map.length := by omega
  have row : i >>> 3 = i / 8 := Nat.shiftRight_eq_div_pow i 3
  have column : i &&& 7 = i % 8 := Nat.and_two_pow_sub_one_eq_mod i 3
  refine ⟨_, by rw [bitmapTest, row, List.getElem?_eq_getElem bound], ?_⟩
  rw [column, masked_eq_zero _ _ (Nat.mod_lt i (by decide)), bit, List.getD_eq_getElem?_getD,
    List.getElem?_eq_getElem bound]
  rfl

/-! ## The loop -/

/-- At bit `i` the last `temp` bits are clear, and no hole starts before them. -/
structure Passed (map : List (BitVec 8)) (holeSize i temp : Nat) : Prop where
  count : temp ≤ i
  short : temp ≤ holeSize
  clear : Hole map (i - temp) temp
  first : ∀ k < i - temp, ¬ Hole map k holeSize

theorem Passed.start (map : List (BitVec 8)) (holeSize : Nat) : Passed map holeSize 0 0 where
  count := le_rfl
  short := Nat.zero_le _
  clear j before := absurd before (Nat.not_lt_zero j)
  first k before := absurd before (Nat.not_lt_zero k)

theorem Passed.longer (passed : Passed map holeSize i temp) (more : temp ≠ holeSize)
    (clear : bit map i = false) : Passed map holeSize (i + 1) (temp + 1) := by
  obtain ⟨count, short, before, first⟩ := passed
  have same : i + 1 - (temp + 1) = i - temp := Nat.add_sub_add_right i 1 temp
  refine ⟨by omega, by omega, ?_, same ▸ first⟩
  intro j inside
  rw [same]
  by_cases last : j = temp
  · rwa [last, Nat.sub_add_cancel count]
  · exact before j (by omega)

theorem Passed.broken (passed : Passed map holeSize i temp) (more : temp ≠ holeSize)
    (set : bit map i ≠ false) : Passed map holeSize (i + 1) 0 := by
  obtain ⟨count, short, before, first⟩ := passed
  refine ⟨Nat.zero_le _, Nat.zero_le _, fun j inside => absurd inside (Nat.not_lt_zero j), ?_⟩
  intro k start hole
  by_cases early : k < i - temp
  · exact first k early hole
  · have here := hole (i - k) (by omega)
    rw [Nat.add_sub_cancel' (by omega)] at here
    exact set here

/-- What the search finds: the first hole that ends before the last bit. -/
structure Found (map : List (BitVec 8)) (size holeSize i : Nat) : Prop where
  inside : i + holeSize < size
  hole : Hole map i holeSize
  first : ∀ k < i, ¬ Hole map k holeSize

theorem findHoleLoop_result (inside : size ≤ 8 * map.length) (passed : Passed map holeSize i temp)
    (rest : i + left = size) :
    (∃ k, findHoleLoop map holeSize left i temp = .ok (toInt k) ∧ Found map size holeSize k) ∨
      findHoleLoop map holeSize left i temp = .ok (-1) ∧ ∀ k, k + holeSize < size →
      ¬ Hole map k holeSize := by
  induction left generalizing i temp with
  | zero =>
    refine .inr ⟨rfl, fun k before => passed.first k ?_⟩
    have short := passed.short
    omega
  | succ left ih =>
    rw [findHoleLoop]
    by_cases full : temp = holeSize
    · rw [if_pos full]
      subst full
      exact .inl ⟨i - temp, rfl, by have count := passed.count; omega, passed.clear, passed.first⟩
    · obtain ⟨value, test, zero⟩ := bitmapTest_inside (show i < 8 * map.length by omega)
      rw [if_neg full, test, ok_bind]
      by_cases clear : bit map i = false
      · rw [if_pos (zero.mpr clear)]
        exact ih (passed.longer full clear) (by omega)
      · rw [if_neg fun isZero => clear (zero.mp isZero)]
        exact ih (passed.broken full clear) (by omega)

theorem toInt_of_lt {value : Nat} (small : value < 2 ^ 31) : toInt value = value := by
  have kept : (BitVec.ofNat 32 value).toNat = value := by
    rw [BitVec.toNat_ofNat, Nat.mod_eq_of_lt (by omega)]
  rw [toInt, BitVec.toInt_eq_toNat_of_lt (by omega), kept]

theorem Found.isLeast (found : Found map size holeSize i) : IsLeast (holes map size holeSize) i :=
  ⟨⟨found.inside.le, found.hole⟩, fun k other => Nat.le_of_not_lt
    fun before => found.first k before other.2⟩

/-- The search is exact unless the first hole ends at the last bit. -/
theorem find_hole_exact (map : List (BitVec 8)) (size holeSize : Nat)
    (inside : size ≤ 8 * map.length) (small : size < 2 ^ 31) (nonempty : 0 < holeSize) :
    ∃ result, bitmapFindHole map size holeSize = .ok result ∧
      (FindsHole map size holeSize result ↔ ∀ i, i + holeSize = size →
        ¬ IsLeast (holes map size holeSize) i) := by
  obtain ⟨k, run, found⟩ | ⟨run, none⟩ :=
    findHoleLoop_result inside (Passed.start map holeSize) (Nat.zero_add size)
  · have value := toInt_of_lt (show k < 2 ^ 31 by have := found.inside; omega)
    refine ⟨toInt k, run, ?_⟩
    constructor
    · intro _ i atEnd least
      have same := least.unique found.isLeast
      have before := found.inside
      omega
    · exact fun _ => .inl ⟨k, found.isLeast, value⟩
  · refine ⟨-1, run, ?_⟩
    constructor
    · rintro (⟨i, _, found⟩ | ⟨empty, _⟩) i atEnd least
      · omega
      · exact Set.notMem_empty i (empty ▸ least.1)
    · intro missed
      right
      refine ⟨Set.eq_empty_iff_forall_notMem.mpr fun i hole => ?_, rfl⟩
      -- a hole can only be the one that ends at the last bit, and then it is the first
      have least : ∀ k ∈ holes map size holeSize, k + holeSize = size := by
        intro k other
        have before : ¬ k + holeSize < size := fun before => none k before other.2
        have within := other.1
        omega
      refine missed i (least i hole) ⟨hole, fun k other => ?_⟩
      have same := (least k other).trans (least i hole).symm
      omega

theorem find_hole_exact_middle : ∃ result, bitmapFindHole [0xC3#8] 8 2 = .ok result ∧
    FindsHole [0xC3#8] 8 2 result := by
  obtain ⟨result, run, finds⟩ := find_hole_exact [0xC3#8] 8 2 (by decide) (by decide) (by decide)
  have hole : 2 ∈ holes [0xC3#8] 8 2 := ⟨by decide, by unfold Hole; decide⟩
  refine ⟨result, run, finds.mpr fun i atEnd least => ?_⟩
  have before := least.2 hole
  omega

/-- A byte without a set bit has a hole of eight bits. -/
theorem last_hole_missed : bitmapFindHole [0#8] 8 8 = .ok (-1) ∧ IsLeast (holes [0#8] 8 8) 0 :=
  ⟨rfl, ⟨by decide, by unfold Hole; decide⟩, fun k _ => Nat.zero_le k⟩

end ByteOS.Libk
