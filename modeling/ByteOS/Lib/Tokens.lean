import Mathlib.Logic.ExistsUnique

/-! Tokens that are each in exactly one place, and the moves that keep them so. -/

set_option autoImplicit false

namespace ByteOS.Lib

variable {P T : Type} {here here' : P → T → Prop} {live live' : T → Prop}

structure Placed (here : P → T → Prop) (live : T → Prop) : Prop where
  somewhere : ∀ t, live t → ∃ p, here p t
  once : ∀ p p' t, here p t → here p' t → p = p'
  live : ∀ p t, here p t → live t

/-- The token `x` is put at `dest`, wherever it was, and all others stay. -/
def MovesTo (here here' : P → T → Prop) (x : T) (dest : P) : Prop :=
  ∀ p t, here' p t ↔ t = x ∧ p = dest ∨ t ≠ x ∧ here p t

variable {dest : P} {x : T}

theorem MovesTo.arrived (moves : MovesTo here here' x dest) : here' dest x :=
  (moves dest x).mpr (.inl ⟨rfl, rfl⟩)

theorem MovesTo.stays {t : T} {p : P} (moves : MovesTo here here' x dest) (other : t ≠ x)
    (inside : here p t) : here' p t :=
  (moves p t).mpr (.inr ⟨other, inside⟩)

theorem Placed.existsUnique (placed : Placed here live) {t : T} (alive : live t) : ∃! p, here p t := by
  obtain ⟨p, inside⟩ := placed.somewhere t alive
  exact ⟨p, inside, fun p' other => placed.once p' p t other inside⟩

theorem Placed.move (placed : Placed here live) (moves : MovesTo here here' x dest)
    (alive : ∀ t, live' t ↔ live t ∨ t = x) : Placed here' live' where
  somewhere t living := by
    by_cases same : t = x
    · exact ⟨dest, same ▸ moves.arrived⟩
    · obtain ⟨p, inside⟩ := placed.somewhere t (((alive t).mp living).resolve_right same)
      exact ⟨p, moves.stays same inside⟩
  once p p' t first second := by
    obtain ⟨same, rfl⟩ | ⟨other, first⟩ := (moves p t).mp first
    · obtain ⟨_, rfl⟩ | ⟨other, _⟩ := (moves p' t).mp second
      · rfl
      · exact absurd same other
    · obtain ⟨same, _⟩ | ⟨_, second⟩ := (moves p' t).mp second
      · exact absurd same other
      · exact placed.once p p' t first second
  live p t inside := by
    obtain ⟨same, _⟩ | ⟨_, inside⟩ := (moves p t).mp inside
    · exact (alive t).mpr (.inr same)
    · exact (alive t).mpr (.inl (placed.live p t inside))

theorem Placed.congr (placed : Placed here live) (same : ∀ p t, here' p t ↔ here p t)
    (alive : ∀ t, live' t ↔ live t) : Placed here' live' where
  somewhere t living := by
    obtain ⟨p, inside⟩ := placed.somewhere t ((alive t).mp living)
    exact ⟨p, (same p t).mpr inside⟩
  once p p' t first second := placed.once p p' t ((same p t).mp first) ((same p' t).mp second)
  live p t inside := (alive t).mpr (placed.live p t ((same p t).mp inside))

end ByteOS.Lib
