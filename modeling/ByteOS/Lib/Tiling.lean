import Mathlib.Data.Nat.Bitwise
import Mathlib.Tactic.Ring
import Mathlib.Tactic.Tauto

/-! Tilings of a region of the natural numbers by half-open intervals.

A block is a start together with a kind, and `len` gives the length of each
kind, so that one development serves blocks measured in powers of two as well
as blocks with an explicit size. `Tiles` says that the blocks lie inside the
region, cover it and never overlap.
-/

set_option autoImplicit false

namespace ByteOS.Lib

variable {len : Nat → Nat} {region region' : Nat → Prop} {block block' : Nat → Nat → Prop}

/-- The interval of the block of kind `k` that starts at `s`. -/
def Within (len : Nat → Nat) (s k q : Nat) : Prop := s ≤ q ∧ q < s + len k

structure Tiles (len : Nat → Nat) (region : Nat → Prop) (block : Nat → Nat → Prop) : Prop where
  inside : ∀ s k q, block s k → Within len s k q → region q
  cover : ∀ q, region q → ∃ s k, block s k ∧ Within len s k q
  apart : ∀ s k s' k' q, block s k → block s' k' → Within len s k q → Within len s' k' q →
    s = s' ∧ k = k'

theorem Tiles.congr (tiles : Tiles len region block) (same : ∀ s k, block' s k ↔ block s k) :
    Tiles len region block' := by
  have equal : block' = block := by
    funext s k
    exact propext (same s k)
  rwa [equal]

theorem Tiles.congr_region (tiles : Tiles len region block) (same : ∀ q, region' q ↔ region q) :
    Tiles len region' block := by
  have equal : region' = region := funext fun q => propext (same q)
  rwa [equal]

theorem tiles_empty : Tiles len (fun _ => False) (fun _ _ => False) where
  inside _ _ _ none _ := none
  cover _ none := none.elim
  apart _ _ _ _ _ none _ _ _ := none.elim

variable {s k a b p j : Nat}

section

variable (tiles : Tiles len region block)
include tiles

theorem Tiles.start_unique {k' : Nat} (positive : ∀ j, 0 < len j) (first : block s k)
    (second : block s k') : k = k' := by
  refine (tiles.apart s k s k' s first second ?_ ?_).2
  · exact ⟨le_refl s, by have := positive k; omega⟩
  · exact ⟨le_refl s, by have := positive k'; omega⟩

theorem Tiles.split (here : block s k) (sum : len k = len a + len b) :
    Tiles len region fun s' k' => (block s' k' ∧ ¬ (s' = s ∧ k' = k)) ∨
      (s' = s ∧ k' = a) ∨ (s' = s + len a ∧ k' = b) := by
  -- every point of a half is a point of the old block, which `apart` identifies
  have old : ∀ q, Within len s a q ∨ Within len (s + len a) b q → Within len s k q := by
    unfold Within
    intro q
    omega
  constructor
  · rintro s' k' q (⟨other, -⟩ | ⟨rfl, rfl⟩ | ⟨rfl, rfl⟩) within
    · exact tiles.inside s' k' q other within
    · exact tiles.inside s' k q here (old q (.inl within))
    · exact tiles.inside s k q here (old q (.inr within))
  · intro q inside
    obtain ⟨s', k', found, within⟩ := tiles.cover q inside
    by_cases same : s' = s ∧ k' = k
    · obtain ⟨rfl, rfl⟩ := same
      by_cases lower : q < s' + len a
      · exact ⟨s', a, .inr (.inl ⟨rfl, rfl⟩), within.1, lower⟩
      · refine ⟨s' + len a, b, .inr (.inr ⟨rfl, rfl⟩), by omega, ?_⟩
        have := within.2
        omega
    · exact ⟨s', k', .inl ⟨found, same⟩, within⟩
  · have untouched : ∀ s' k' q, block s' k' → ¬ (s' = s ∧ k' = k) → Within len s' k' q →
        ¬ Within len s k q := fun s' k' q found other within both =>
      other (tiles.apart s' k' s k q found here within both)
    have halves : ∀ q, Within len s a q → ¬ Within len (s + len a) b q := by
      unfold Within
      intro q
      omega
    rintro s₁ k₁ s₂ k₂ q (⟨b₁, o₁⟩ | ⟨rfl, rfl⟩ | ⟨rfl, rfl⟩) (⟨b₂, o₂⟩ | ⟨rfl, rfl⟩ | ⟨rfl, rfl⟩) w₁ w₂
    · exact tiles.apart s₁ k₁ s₂ k₂ q b₁ b₂ w₁ w₂
    · exact absurd (old q (.inl w₂)) (untouched s₁ k₁ q b₁ o₁ w₁)
    · exact absurd (old q (.inr w₂)) (untouched s₁ k₁ q b₁ o₁ w₁)
    · exact absurd (old q (.inl w₁)) (untouched s₂ k₂ q b₂ o₂ w₂)
    · exact ⟨rfl, rfl⟩
    · exact absurd w₂ (halves q w₁)
    · exact absurd (old q (.inr w₁)) (untouched s₂ k₂ q b₂ o₂ w₂)
    · exact absurd w₁ (halves q w₂)
    · exact ⟨rfl, rfl⟩

theorem Tiles.merge (lower : block s a) (upper : block (s + len a) b) (sum : len k = len a + len b) :
    Tiles len region fun s' k' => (block s' k' ∧ ¬ (s' = s ∧ k' = a) ∧ ¬ (s' = s + len a ∧ k' = b)) ∨
      (s' = s ∧ k' = k) := by
  have parts : ∀ q, Within len s k q → Within len s a q ∨ Within len (s + len a) b q := by
    unfold Within
    intro q
    omega
  constructor
  · rintro s' k' q (⟨other, -⟩ | ⟨rfl, rfl⟩) within
    · exact tiles.inside s' k' q other within
    · rcases parts q within with within | within
      · exact tiles.inside s' a q lower within
      · exact tiles.inside (s' + len a) b q upper within
  · intro q inside
    obtain ⟨s', k', found, within⟩ := tiles.cover q inside
    by_cases isLower : s' = s ∧ k' = a
    · obtain ⟨rfl, rfl⟩ := isLower
      refine ⟨s', k, .inr ⟨rfl, rfl⟩, within.1, ?_⟩
      have := within.2
      omega
    · by_cases isUpper : s' = s + len a ∧ k' = b
      · obtain ⟨rfl, rfl⟩ := isUpper
        refine ⟨s, k, .inr ⟨rfl, rfl⟩, ?_, ?_⟩ <;> have := within.1 <;> have := within.2 <;> omega
      · exact ⟨s', k', .inl ⟨found, isLower, isUpper⟩, within⟩
  · have untouched : ∀ s' k' q, block s' k' → ¬ (s' = s ∧ k' = a) → ¬ (s' = s + len a ∧ k' = b) →
        Within len s' k' q → ¬ Within len s k q := by
      intro s' k' q found notLower notUpper within both
      rcases parts q both with both | both
      · exact notLower (tiles.apart s' k' s a q found lower within both)
      · exact notUpper (tiles.apart s' k' (s + len a) b q found upper within both)
    rintro s₁ k₁ s₂ k₂ q (⟨b₁, l₁, u₁⟩ | ⟨rfl, rfl⟩) (⟨b₂, l₂, u₂⟩ | ⟨rfl, rfl⟩) w₁ w₂
    · exact tiles.apart s₁ k₁ s₂ k₂ q b₁ b₂ w₁ w₂
    · exact absurd w₂ (untouched s₁ k₁ q b₁ l₁ u₁ w₁)
    · exact absurd w₁ (untouched s₂ k₂ q b₂ l₂ u₂ w₂)
    · exact ⟨rfl, rfl⟩

theorem Tiles.extend (fresh : ∀ q, Within len s k q → ¬ region q) :
    Tiles len (fun q => region q ∨ Within len s k q) fun s' k' => block s' k' ∨ (s' = s ∧ k' = k) := by
  constructor
  · rintro s' k' q (found | ⟨rfl, rfl⟩) within
    · exact .inl (tiles.inside s' k' q found within)
    · exact .inr within
  · rintro q (inside | within)
    · obtain ⟨s', k', found, within⟩ := tiles.cover q inside
      exact ⟨s', k', .inl found, within⟩
    · exact ⟨s, k, .inr ⟨rfl, rfl⟩, within⟩
  · rintro s₁ k₁ s₂ k₂ q (b₁ | ⟨rfl, rfl⟩) (b₂ | ⟨rfl, rfl⟩) w₁ w₂
    · exact tiles.apart s₁ k₁ s₂ k₂ q b₁ b₂ w₁ w₂
    · exact absurd (tiles.inside s₁ k₁ q b₁ w₁) (fresh q w₂)
    · exact absurd (tiles.inside s₂ k₂ q b₂ w₂) (fresh q w₁)
    · exact ⟨rfl, rfl⟩

end

/-! ## Blocks of two-power length -/

/-- The length of a block of order `k`. -/
abbrev pow2 (k : Nat) : Nat := 2 ^ k

theorem pow2_succ_eq (k : Nat) : pow2 (k + 1) = pow2 k + pow2 k := by
  simp only [pow2, pow_succ]
  omega

/-- The other half of the enclosing block of the next order. -/
def buddy (p k : Nat) : Nat := p ^^^ 2 ^ k

theorem buddy_mul (m k : Nat) : buddy (2 ^ k * m) k = 2 ^ k * (m ^^^ 1) := by
  apply Nat.eq_of_testBit_eq
  intro i
  simp only [buddy, Nat.testBit_xor, Nat.testBit_two_pow_mul, Nat.testBit_two_pow]
  by_cases low : i ≥ k
  · by_cases same : k = i
    · subst same
      simp
    · have high : Nat.testBit 1 (i - k) = false :=
        Nat.testBit_lt_two_pow (Nat.one_lt_two_pow (by omega))
      simp [low, same, high]
  · have apart : k ≠ i := by omega
    simp [low, apart]

/-- The buddy of an aligned block is its upper or its lower neighbour,
whichever makes the pair aligned to the next order. -/
theorem buddy_cases (aligned : 2 ^ k ∣ p) :
    (2 ^ (k + 1) ∣ p ∧ buddy p k = p + 2 ^ k) ∨
      (2 ^ k ≤ p ∧ 2 ^ (k + 1) ∣ p - 2 ^ k ∧ buddy p k = p - 2 ^ k) := by
  obtain ⟨m, rfl⟩ := aligned
  rw [buddy_mul]
  rcases Nat.even_or_odd m with even | odd
  · left
    rw [Nat.xor_one_of_even even]
    obtain ⟨half, rfl⟩ := even
    exact ⟨⟨half, by ring⟩, by ring⟩
  · right
    rw [Nat.xor_one_of_odd odd]
    obtain ⟨half, rfl⟩ := odd
    have expand : 2 ^ k * (2 * half + 1) = 2 ^ (k + 1) * half + 2 ^ k := by ring
    refine ⟨by omega, ⟨half, by omega⟩, ?_⟩
    rw [expand, Nat.add_sub_cancel]
    simp only [Nat.add_sub_cancel]
    ring

theorem buddy_of_aligned (aligned : 2 ^ (k + 1) ∣ p) : buddy p k = p + 2 ^ k := by
  obtain ⟨m, rfl⟩ := aligned
  have half : 2 ^ (k + 1) * m = 2 ^ k * (2 * m) := by ring
  have even : Even (2 * m) := ⟨m, by ring⟩
  rw [half, buddy_mul, Nat.xor_one_of_even even]
  ring

theorem buddy_aligned (aligned : 2 ^ k ∣ p) : 2 ^ k ∣ buddy p k := by
  obtain ⟨m, rfl⟩ := aligned
  rw [buddy_mul]
  exact Dvd.intro _ rfl

theorem buddy_ne (aligned : 2 ^ k ∣ p) : buddy p k ≠ p := by
  have positive : 0 < 2 ^ k := Nat.two_pow_pos k
  rcases buddy_cases aligned with ⟨-, same⟩ | ⟨large, -, same⟩ <;> omega

@[simp] theorem buddy_buddy (p k : Nat) : buddy (buddy p k) k = p := by
  simp [buddy]

theorem Within.start_eq (within : Within pow2 s k p) (start : 2 ^ k ∣ s) (aligned : 2 ^ k ∣ p) : s = p := by
  obtain ⟨m, rfl⟩ := start
  obtain ⟨w, rfl⟩ := aligned
  obtain ⟨low, high⟩ := within
  have upper : 2 ^ k * m + pow2 k = 2 ^ k * (m + 1) := by ring
  rw [upper] at high
  have first : m ≤ w := Nat.le_of_mul_le_mul_left low (Nat.two_pow_pos k)
  have second : w < m + 1 := Nat.lt_of_mul_lt_mul_left high
  obtain rfl : m = w := by omega
  rfl

theorem within_of_buddy (aligned : 2 ^ k ∣ p) (start : 2 ^ j ∣ s) (larger : k < j)
    (within : Within pow2 s j (buddy p k)) : Within pow2 s j p := by
  -- both halves lie in one block of order k + 1, and that block lies in the larger one
  obtain ⟨m, rfl⟩ := start
  have step : 2 ^ (k + 1) ∣ 2 ^ j := Nat.pow_dvd_pow 2 larger
  obtain ⟨c, hc⟩ := step
  have positive : 0 < 2 ^ k := Nat.two_pow_pos k
  have double : 2 ^ (k + 1) = 2 ^ k + 2 ^ k := by rw [pow_succ]; omega
  have whole : ∀ u, 2 ^ (k + 1) ∣ u → ∀ v, u ≤ v → v < u + 2 ^ (k + 1) →
      (Within pow2 (2 ^ j * m) j v ↔ 2 ^ j * m ≤ u ∧ u + 2 ^ (k + 1) ≤ 2 ^ j * m + 2 ^ j) := by
    rintro _ ⟨w, rfl⟩ v low high
    simp only [Within, pow2, hc]
    have lower : 2 ^ (k + 1) * c * m = 2 ^ (k + 1) * (c * m) := by ring
    have upper : 2 ^ (k + 1) * c * m + 2 ^ (k + 1) * c = 2 ^ (k + 1) * (c * m + c) := by ring
    have next : 2 ^ (k + 1) * w + 2 ^ (k + 1) = 2 ^ (k + 1) * (w + 1) := by ring
    have big : 0 < 2 ^ (k + 1) := Nat.two_pow_pos _
    rw [upper, lower]
    rw [next] at high ⊢
    constructor
    · rintro ⟨below, above⟩
      have first : c * m < w + 1 := Nat.lt_of_mul_lt_mul_left (lt_of_le_of_lt below high)
      have second : w < c * m + c := Nat.lt_of_mul_lt_mul_left (lt_of_le_of_lt low above)
      exact ⟨Nat.mul_le_mul_left _ (by omega), Nat.mul_le_mul_left _ (by omega)⟩
    · rintro ⟨below, above⟩
      exact ⟨by omega, by omega⟩
  rcases buddy_cases aligned with ⟨pair, same⟩ | ⟨large, pair, same⟩
  · rw [same] at within
    have bounds := (whole p pair (p + 2 ^ k) (by omega) (by omega)).mp within
    exact (whole p pair p (by omega) (by omega)).mpr bounds
  · rw [same] at within
    have bounds := (whole (p - 2 ^ k) pair (p - 2 ^ k) (by omega) (by omega)).mp within
    exact (whole (p - 2 ^ k) pair p (by omega) (by omega)).mpr bounds

section

variable (tiles : Tiles pow2 region block) (aligned : ∀ s k, block s k → 2 ^ k ∣ s)
include tiles aligned

/-- In a tiling by aligned blocks, the block that covers the buddy of a block starts at the buddy. -/
theorem Tiles.covers_buddy (here : block p k) (found : block s j)
    (within : Within pow2 s j (buddy p k)) : s = buddy p k := by
  have small : j ≤ k := by
    by_contra larger
    have contains := within_of_buddy (aligned p k here) (aligned s j found) (by omega) within
    have self : Within pow2 p k p := ⟨le_refl p, Nat.lt_add_of_pos_right (Nat.two_pow_pos k)⟩
    have same := tiles.apart s j p k p found here contains self
    omega
  have multiple := (Nat.pow_dvd_pow 2 small).trans (buddy_aligned (aligned p k here))
  exact within.start_eq (aligned s j found) multiple

/-- If no two blocks below the order `top` are buddies of each other, then every aligned
range of the region lies in one block. -/
theorem Tiles.covers_aligned {top : Nat}
    (merged : ∀ s k, k < top → block s k → ¬ block (buddy s k) k) (small : j ≤ top)
    (start : 2 ^ j ∣ p) (inside : ∀ q, Within pow2 p j q → region q) :
    ∃ s k, block s k ∧ j ≤ k ∧ Within pow2 s k p := by
  induction j generalizing p with
  | zero =>
    obtain ⟨s, k, found, within⟩ := tiles.cover p (inside p ⟨le_refl p, by simp⟩)
    exact ⟨s, k, found, Nat.zero_le k, within⟩
  | succ j ih =>
    have double : pow2 (j + 1) = pow2 j + pow2 j := pow2_succ_eq j
    have half : 2 ^ j ∣ p := (Nat.pow_dvd_pow 2 (Nat.le_succ j)).trans start
    have other : buddy p j = p + pow2 j := buddy_of_aligned start
    obtain ⟨s, k, found, large, within⟩ := ih (by omega) half fun q here =>
      inside q ⟨here.1, by have := here.2; omega⟩
    obtain ⟨s', k', found', large', within'⟩ := ih (by omega) (buddy_aligned half) fun q here => by
      rw [other] at here
      exact inside q ⟨by have := here.1; omega, by have := here.2; omega⟩
    -- if neither half lies in a larger block, both halves are blocks, and buddies
    by_cases larger : j < k
    · exact ⟨s, k, found, larger, within⟩
    · by_cases larger' : j < k'
      · exact ⟨s', k', found', larger', within_of_buddy half (aligned s' k' found') larger' within'⟩
      · obtain rfl : k = j := by omega
        obtain rfl : k' = k := by omega
        obtain rfl := within.start_eq (aligned s k' found) half
        obtain rfl := within'.start_eq (aligned s' k' found') (buddy_aligned half)
        exact absurd found' (merged s k' (by omega) found)

end

end ByteOS.Lib
