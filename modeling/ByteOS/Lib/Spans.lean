import Mathlib.Order.Lattice
import Mathlib.Data.List.Pairwise

/-! Lists of half-open intervals as descriptions of sets.

A list that is sorted and whose members do not touch is determined by the set it
covers: its members are the maximal intervals of the set.
-/

set_option autoImplicit false

namespace ByteOS.Lib

open List (mem_append pairwise_cons pairwise_append mem_cons mem_cons_self)

/-- The interval from `lo` up to, but not including, `hi`. -/
structure Span (A : Type) where
  lo : A
  hi : A
  deriving DecidableEq, Repr

variable {A : Type} [LinearOrder A] {s : Span A} {l l' front rear : List (Span A)} {x : A}

def Span.Covers (s : Span A) (x : A) : Prop := s.lo ≤ x ∧ x < s.hi

def Span.Apart (s s' : Span A) : Prop := s.hi ≤ s'.lo ∨ s'.hi ≤ s.lo

def Covered (l : List (Span A)) (x : A) : Prop := ∃ s ∈ l, s.Covers x

@[simp] theorem covered_nil : ¬ Covered ([] : List (Span A)) x := by
  simp [Covered]

@[simp] theorem covered_cons : Covered (s :: l) x ↔ s.Covers x ∨ Covered l x := by
  simp [Covered]

@[simp] theorem covered_append : Covered (l ++ l') x ↔ Covered l x ∨ Covered l' x := by
  simp only [Covered, mem_append, or_and_right, exists_or]

theorem covered_middle : Covered (front ++ s :: rear) x ↔ s.Covers x ∨ Covered (front ++ rear) x := by
  rw [covered_append, covered_cons, covered_append, or_left_comm]

structure Separated (l : List (Span A)) : Prop where
  proper : ∀ s ∈ l, s.lo < s.hi
  apart : l.Pairwise fun s s' => s.hi < s'.lo

theorem separated_nil : Separated ([] : List (Span A)) := ⟨by simp, List.Pairwise.nil⟩

theorem Separated.tail (sorted : Separated (s :: l)) : Separated l where
  proper s' inside := sorted.proper s' (List.mem_cons_of_mem s inside)
  apart := (pairwise_cons.mp sorted.apart).2

theorem separated_middle : Separated (front ++ s :: rear) ↔
    s.lo < s.hi ∧ Separated (front ++ rear) ∧ (∀ a ∈ front, a.hi < s.lo) ∧ ∀ b ∈ rear, s.hi < b.lo := by
  constructor
  · intro sorted
    obtain ⟨sortedF, rest, across⟩ := pairwise_append.mp sorted.apart
    obtain ⟨above, sortedR⟩ := pairwise_cons.mp rest
    refine ⟨sorted.proper s (by simp), ⟨fun a inside => sorted.proper a ?_, ?_⟩, fun a inside => ?_, above⟩
    · simp only [mem_append, mem_cons] at inside ⊢
      exact inside.imp_right .inr
    · exact pairwise_append.mpr ⟨sortedF, sortedR, fun a inside b there =>
        across a inside b (List.mem_cons_of_mem s there)⟩
    · exact across a inside s mem_cons_self
  · rintro ⟨proper, sorted, below, above⟩
    obtain ⟨sortedF, sortedR, across⟩ := pairwise_append.mp sorted.apart
    refine ⟨fun a inside => ?_, pairwise_append.mpr ⟨sortedF, pairwise_cons.mpr ⟨above, sortedR⟩, ?_⟩⟩
    · simp only [mem_append, mem_cons] at inside
      obtain inside | rfl | inside := inside
      · exact sorted.proper a (List.mem_append_left rear inside)
      · exact proper
      · exact sorted.proper a (List.mem_append_right front inside)
    · intro a inside b there
      obtain rfl | there := mem_cons.mp there
      · exact below a inside
      · exact across a inside b there

section

variable (sorted : Separated (s :: l))
include sorted

theorem Separated.hi_not_covered : ¬ Covered (s :: l) s.hi := by
  rw [covered_cons]
  rintro (⟨_, less⟩ | ⟨s', inside, from_, _⟩)
  · exact lt_irrefl _ less
  · exact absurd ((pairwise_cons.mp sorted.apart).1 s' inside) (not_lt.mpr from_)

theorem Separated.lo_le (inside : Covered (s :: l) x) : s.lo ≤ x := by
  obtain ⟨from_, _⟩ | ⟨s', inside, from_, _⟩ := covered_cons.mp inside
  · exact from_
  · have proper := sorted.proper s mem_cons_self
    exact (proper.trans ((pairwise_cons.mp sorted.apart).1 s' inside)).le.trans from_

theorem Separated.lo_covered : Covered (s :: l) s.lo :=
  covered_cons.mpr (.inl ⟨le_rfl, sorted.proper s mem_cons_self⟩)

theorem Separated.covered_tail : Covered l x ↔ Covered (s :: l) x ∧ s.hi ≤ x := by
  constructor
  · rintro ⟨s', inside, low, high⟩
    refine ⟨covered_cons.mpr (.inr ⟨s', inside, low, high⟩), ?_⟩
    exact ((pairwise_cons.mp sorted.apart).1 s' inside).le.trans low
  · rintro ⟨inside, above⟩
    obtain ⟨_, less⟩ | inside := covered_cons.mp inside
    · exact absurd less (not_lt.mpr above)
    · exact inside

end

theorem Separated.existsUnique (sorted : Separated l) (inside : Covered l x) :
    ∃! s, s ∈ l ∧ s.Covers x := by
  induction l with
  | nil => exact absurd inside covered_nil
  | cons s l ih =>
    have above : ∀ s' ∈ l, s'.Covers x → s.hi ≤ x := fun s' there both =>
      ((pairwise_cons.mp sorted.apart).1 s' there).le.trans both.1
    obtain here | there := covered_cons.mp inside
    · refine ⟨s, ⟨mem_cons_self, here⟩, fun s' both => ?_⟩
      obtain rfl | other := mem_cons.mp both.1
      · rfl
      · exact absurd here.2 (not_lt.mpr (above s' other both.2))
    · obtain ⟨s', ⟨member, covers⟩, only⟩ := ih sorted.tail there
      refine ⟨s', ⟨List.mem_cons_of_mem s member, covers⟩, fun s'' both => ?_⟩
      obtain rfl | other := mem_cons.mp both.1
      · exact absurd both.2.2 (not_lt.mpr (above s' member covers))
      · exact only s'' ⟨other, both.2⟩

theorem Separated.interval {lo hi : A} (sorted : Separated l) (proper : lo < hi)
    (inside : ∀ x, lo ≤ x → x < hi → Covered l x) : ∃ s ∈ l, s.lo ≤ lo ∧ hi ≤ s.hi := by
  obtain ⟨s, member, low, high⟩ := inside lo le_rfl proper
  refine ⟨s, member, low, ?_⟩
  -- else the upper end of the member would be covered by another one
  by_contra short
  obtain ⟨s', member', low', high'⟩ := inside s.hi high.le (not_le.mp short)
  obtain ⟨front, rear, rfl⟩ := List.append_of_mem member
  obtain ⟨_, _, below, above⟩ := separated_middle.mp sorted
  rcases mem_append.mp member' with early | late
  · exact absurd high' (not_lt.mpr ((below s' early).le.trans (low.trans high.le)))
  · rcases mem_cons.mp late with rfl | late
    · exact lt_irrefl _ high'
    · exact absurd low' (not_le.mpr (above s' late))

theorem Separated.hi_le {s' : Span A} (sorted : Separated (s :: l)) (lo : s'.lo = s.lo)
   (same : ∀ x, Covered (s' :: l') x → Covered (s :: l) x) : s'.hi ≤ s.hi := by
  by_contra longer
  have inside : Covered (s' :: l') s.hi :=
    covered_cons.mpr (.inl ⟨lo ▸ (sorted.proper s mem_cons_self).le, not_le.mp longer⟩)
  exact sorted.hi_not_covered (same _ inside)

theorem Separated.unique (sorted : Separated l) (sorted' : Separated l')
    (same : ∀ x, Covered l x ↔ Covered l' x) : l = l' := by
  induction l generalizing l' with
  | nil =>
    cases l' with
    | nil => rfl
    | cons s' l' => exact absurd ((same _).mpr sorted'.lo_covered) covered_nil
  | cons s l ih =>
    cases l' with
    | nil => exact absurd ((same _).mp sorted.lo_covered) covered_nil
    | cons s' l' =>
      have lo : s'.lo = s.lo := le_antisymm (sorted'.lo_le ((same _).mp sorted.lo_covered))
        (sorted.lo_le ((same _).mpr sorted'.lo_covered))
      have hi : s'.hi = s.hi := le_antisymm (sorted.hi_le lo fun x => (same x).mpr)
        (sorted'.hi_le lo.symm fun x => (same x).mp)
      obtain rfl : s = s' := by
        cases s
        cases s'
        simp_all
      rw [ih sorted.tail sorted'.tail fun x => by rw [sorted.covered_tail, sorted'.covered_tail, same x]]

/-- Elements above everything covered so far do not make the list of maximal intervals
shorter. -/
theorem Separated.length_le (sorted : Separated l) (sorted' : Separated l')
    (grown : ∀ x, Covered l x → Covered l' x) (above : ∀ x y, Covered l x → Covered l' y →
      ¬ Covered l y → x < y) : l.length ≤ l'.length := by
  induction l generalizing l' with
  | nil => exact Nat.zero_le _
  | cons s l ih =>
    cases l' with
    | nil => exact absurd (grown _ sorted.lo_covered) covered_nil
    | cons s' l' =>
      have lower : s'.lo ≤ s.lo := sorted'.lo_le (grown _ sorted.lo_covered)
      -- the first intervals have the same upper end, unless the first list has no other
      have beyond : ∀ x, Covered l x → s'.hi ≤ x := by
        intro x inside
        obtain ⟨here, past⟩ := sorted.covered_tail.mp inside
        by_contra short
        have low : s'.lo ≤ s.hi := lower.trans (sorted.proper s mem_cons_self).le
        have between : Covered (s' :: l') s.hi :=
          covered_cons.mpr (.inl ⟨low, past.trans_lt (not_le.mp short)⟩)
        exact absurd (above x s.hi here between sorted.hi_not_covered) (not_lt.mpr past)
      have apart : ∀ y, Covered (s' :: l') y → s'.hi ≤ y → ¬ s.Covers y := by
        rintro y - past ⟨low, high⟩
        by_cases reaches : s.lo ≤ s'.hi
        · exact sorted'.hi_not_covered (grown _ (covered_cons.mpr (.inl ⟨reaches, past.trans_lt high⟩)))
        · have first : s'.lo < s.lo := (sorted'.proper s' mem_cons_self).trans (not_le.mp reaches)
          have missing : ¬ Covered (s :: l) s'.lo :=
            fun inside => absurd (sorted.lo_le inside) (not_le.mpr first)
          exact absurd (above s.lo s'.lo sorted.lo_covered sorted'.lo_covered missing) (not_lt.mpr first.le)
      have rest : l.length ≤ l'.length := by
        refine ih sorted.tail sorted'.tail (fun x inside => ?_) fun x y inside found missing => ?_
        · exact sorted'.covered_tail.mpr ⟨grown x (covered_cons.mpr (.inr inside)), beyond x inside⟩
        · obtain ⟨found, past⟩ := sorted'.covered_tail.mp found
          refine above x y (covered_cons.mpr (.inr inside)) found fun covered => ?_
          exact (covered_cons.mp covered).elim (apart y found past) missing
      simpa using rest

end ByteOS.Lib
