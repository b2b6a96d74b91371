import Mathlib.Logic.Relation

/-! Runs of a transition system and of a loop, with their induction rules. -/

set_option autoImplicit false

namespace ByteOS.Lib

variable {S : Type}

/-- The states that a run of `step` from `start` can end in. -/
abbrev Reaches (step : S → S → Prop) (start final : S) : Prop := Relation.ReflTransGen step start final

variable {step : S → S → Prop}

/-- What holds at the start and is kept by every step holds after every run. -/
theorem Reaches.invariant {start final : S} (run : Reaches step start final) (holds : S → Prop)
    (initial : holds start) (preserved : ∀ s s', Reaches step start s → step s s' → holds s →
      holds s') : holds final := by
  induction run with
  | refl => exact initial
  | tail before last ih => exact preserved _ _ before last ih

theorem Reaches.of_foldlM {I : Type} {act : S → I → Option S}
    (each : ∀ s i s', act s i = some s' → step s s')
    {l : List I} {s s' : S} (ran : l.foldlM act s = some s') : Reaches step s s' := by
  induction l generalizing s with
  | nil =>
    cases ran
    exact .refl
  | cons i l ih =>
    rw [List.foldlM_cons] at ran
    obtain ⟨next, first, later⟩ := Option.bind_eq_some_iff.mp ran
    exact .head (each s i next first) (ih later)

section Loop
variable {I ε : Type} {body : S → I → Except ε S} {l : List I} {s s' : S}

/-- An invariant of a loop may speak of the elements done so far. -/
theorem loop_invariant (holds : List I → S → Prop) (initial : holds [] s)
    (preserved : ∀ done i rest cur next, l = done ++ i :: rest → holds done cur →
      body cur i = .ok next → holds (done ++ [i]) next) (ran : l.foldlM body s = .ok s') : holds l s' := by
  have general : ∀ rest done cur, l = done ++ rest → holds done cur →
      rest.foldlM body cur = .ok s' → holds l s' := by
    intro rest
    induction rest with
    | nil =>
      intro done cur split before ran
      simp only [List.foldlM_nil, pure, Except.pure, Except.ok.injEq] at ran
      rwa [split, List.append_nil, ← ran]
    | cons i rest ih =>
      intro done cur split before ran
      rw [List.foldlM_cons] at ran
      cases first : body cur i with
      | error fault => simp [first, bind, Except.bind] at ran
      | ok next =>
        simp only [first, bind, Except.bind] at ran
        exact ih (done ++ [i]) next (by simp [split])
          (preserved done i rest cur next split before first) ran
  exact general l [] s rfl initial ran

/-- A loop whose body never fails where the invariant holds finishes. -/
theorem loop_finishes (holds : List I → S → Prop) (initial : holds [] s)
    (preserved : ∀ done i rest cur, l = done ++ i :: rest → holds done cur →
      ∃ next, body cur i = .ok next ∧ holds (done ++ [i]) next) : ∃ s', l.foldlM body s = .ok s' ∧
      holds l s' := by
  have general : ∀ rest done cur, l = done ++ rest → holds done cur →
      ∃ s', rest.foldlM body cur = .ok s' ∧ holds l s' := by
    intro rest
    induction rest with
    | nil =>
      intro done cur split before
      exact ⟨cur, rfl, by rw [split, List.append_nil]; exact before⟩
    | cons i rest ih =>
      intro done cur split before
      obtain ⟨next, first, after⟩ := preserved done i rest cur split before
      obtain ⟨s', ran, final⟩ := ih (done ++ [i]) next (by simp [split]) after
      refine ⟨s', ?_, final⟩
      rwa [List.foldlM_cons, first]
  exact general l [] s rfl initial

/-- The guard holds at every element that the loop comes to. -/
def Along (body : S → I → Except ε S) (guard : S → I → Prop) : S → List I → Prop
  | _, [] => True
  | cur, i :: rest => guard cur i ∧ match body cur i with
    | .ok next => Along body guard next rest
    | .error _ => True

end Loop

end ByteOS.Lib
