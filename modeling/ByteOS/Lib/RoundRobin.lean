import Mathlib.Data.List.Nodup
import Mathlib.Data.List.Perm.Basic

/-! Turns in a line: who is first has a turn and goes to the end. -/

set_option autoImplicit false

namespace ByteOS.Lib

variable {A : Type}

/-- The first `k` turns. -/
def turns : Nat → List A → List A
  | 0, _ => []
  | _ + 1, [] => []
  | k + 1, x :: line => x :: turns k (line ++ [x])

variable {k : Nat} {line before : List A}

theorem turns_later {rest : List A} (split : turns k line = before ++ rest) :
    ∃ k' line', rest = turns k' line' ∧ line'.Perm line := by
  induction before generalizing k line with
  | nil => exact ⟨k, line, split.symm, .refl line⟩
  | cons y before ih =>
    cases k with
    | zero => cases split
    | succ k =>
      cases line with
      | nil => cases split
      | cons x line =>
        obtain ⟨k', line', later, same⟩ := ih (List.cons.inj split).2
        exact ⟨k', line', later, same.trans (List.perm_append_singleton x line)⟩

theorem turns_before {t : A} {front rear after : List A} (outside : t ∉ front) (absent : t ∉ before)
    (split : turns k (front ++ t :: rear) = before ++ t :: after) : before = front := by
  induction front generalizing k rear before with
  | nil =>
    cases k with
    | zero => simp [turns] at split
    | succ k =>
      cases before with
      | nil => rfl
      | cons y before =>
        obtain rfl : t = y := (List.cons.inj split).1
        exact absurd List.mem_cons_self absent
  | cons x front ih =>
    cases k with
    | zero => simp [turns] at split
    | succ k =>
      cases before with
      | nil =>
        obtain rfl : x = t := (List.cons.inj split).1
        exact absurd List.mem_cons_self outside
      | cons y before =>
        obtain ⟨rfl, next⟩ := List.cons.inj split
        have later : turns k (front ++ t :: (rear ++ [x])) = before ++ t :: after := by
          rwa [← List.cons_append, ← List.append_assoc]
        rw [ih (fun inside => outside (List.mem_cons_of_mem x inside))
          (fun inside => absent (List.mem_cons_of_mem x inside)) later]

/-- Between two turns of a member that follow each other, every other one has exactly one. -/
theorem turns_between [DecidableEq A] {t u : A} {between after : List A} (distinct : line.Nodup)
    (split : turns k line = before ++ t :: (between ++ t :: after)) (absent : t ∉ between)
    (member : u ∈ line) (other : u ≠ t) : between.count u = 1 := by
  obtain ⟨k', line', later, same⟩ := turns_later split
  cases k' with
  | zero => cases later
  | succ k' =>
    cases line' with
    | nil => cases later
    | cons x rest =>
      obtain ⟨rfl, later⟩ := List.cons.inj later
      have apart : t ∉ rest := (List.nodup_cons.mp (same.nodup_iff.mpr distinct)).1
      have all : between = rest := turns_before apart absent later.symm
      have once : (t :: rest).count u = 1 :=
        List.count_eq_one_of_mem (same.nodup_iff.mpr distinct) (same.mem_iff.mpr member)
      rwa [List.count_cons_of_ne other.symm, ← all] at once

end ByteOS.Lib
