import ByteOS.Lib.Chain

/-! Null-terminated lists that are linked in both directions.

The operations are seen through what they leave in the links of the listed nodes, so that
the lemmas do not depend on how a heap is updated.
-/

set_option autoImplicit false

namespace ByteOS.Lib

variable {P : Type} {next next' prev prev' : P → Option P} {head head' : Option P}
    {l before after : List P} {a : P}

/-- From `head` the links lead through `l`, and back to the front. -/
structure DList (next prev : P → Option P) (head : Option P) (l : List P) : Prop where
  forward : Chain next head l
  backward : BackLinked prev l
  front : ∀ a, l.head? = some a → prev a = none

theorem DList.nil : DList next prev none [] := ⟨rfl, .nil, fun _ first => by cases first⟩

theorem DList.frame (list : DList next prev head l) (forward : ∀ p ∈ l, next' p = next p)
    (backward : ∀ p ∈ l, prev' p = prev p) : DList next' prev' head l where
  forward := list.forward.frame forward
  backward := list.backward.frame fun p inside => backward p (List.mem_of_mem_tail inside)
  front a first := (backward a (List.mem_of_head? first)).trans (list.front a first)

theorem DList.push (list : DList next prev head l) (link : next' a = head) (first : prev' a = none)
    (back : ∀ b, head = some b → prev' b = some a) (forward : ∀ p ∈ l, next' p = next p)
    (backward : ∀ p ∈ l.tail, prev' p = prev p) : DList next' prev' (some a) (a :: l) where
  forward := ⟨rfl, link ▸ list.forward.frame forward⟩
  backward := by
    refine (list.backward.frame backward).push fun b leads => back b ?_
    rw [list.forward.start_eq, leads]
  front b leads := by
    cases leads
    exact first

section

variable (list : DList next prev head (before ++ a :: after))
include list

theorem DList.next_eq : next a = after.head? :=
  list.forward.suffix.start_eq

theorem DList.prev_eq : prev a = before.getLast? := by
  rcases List.eq_nil_or_concat' before with rfl | ⟨rest, b, rfl⟩
  · exact list.front a rfl
  · have backward := list.backward
    rw [List.append_assoc, List.singleton_append] at backward
    rw [backward.prev_eq, List.getLast?_concat]

theorem DList.remove [DecidableEq P] (start : head' = if prev a = none then next a else head)
    (forward : ∀ p ∈ before ++ after, next' p = if prev a = some p then next a else next p)
    (backward : ∀ p ∈ before ++ after, prev' p = if next a = some p then prev a else prev p) :
    DList next' prev' head' (before ++ after) := by
  have distinct := list.forward.nodup
  have back := list.prev_eq
  have ahead := list.next_eq
  -- in front of the node only the successor of the node changes
  have keeps : ∀ p ∈ before ++ after.tail, prev' p = prev p := by
    intro p inside
    have listed : p ∈ before ++ after := by
      rw [List.mem_append] at inside ⊢
      exact inside.imp_right List.mem_of_mem_tail
    rw [backward p listed, if_neg]
    rw [ahead]
    intro leads
    obtain ⟨rest, rfl⟩ := List.head?_eq_some_iff.mp leads
    simp only [List.tail_cons, List.mem_append] at inside
    simp only [List.nodup_append, List.nodup_cons] at distinct
    obtain inFront | behind := inside
    · exact distinct.2.2 p inFront p (by simp) rfl
    · exact distinct.2.1.2.1 behind
  rcases List.eq_nil_or_concat' before with rfl | ⟨rest, b, rfl⟩
  · have first : prev a = none := back
    have same : ∀ p ∈ after, next' p = next p := fun p inside => by
      rw [forward p inside, if_neg]
      simp [first]
    refine ⟨?_, ?_, ?_⟩
    · rw [start, if_pos first]
      exact list.forward.2.frame same
    · exact (list.backward.tail).frame fun p inside => keeps p inside
    · intro p leads
      rw [backward p (List.mem_of_head? leads), if_pos (ahead.trans leads), first]
  · have inner : prev a = some b := by rw [back, List.getLast?_concat]
    have chain := list.forward
    have linked := list.backward
    have front := list.front
    simp only [List.append_assoc, List.singleton_append] at chain linked front forward backward keeps ⊢
    refine ⟨?_, ?_, ?_⟩
    · rw [start, if_neg (by simp [inner])]
      refine chain.unlink.frame fun p inside => ?_
      rw [forward p inside, inner]
      by_cases same : p = b
      · rw [same, if_pos rfl, Function.update_self]
      · rw [if_neg (fun other => same (Option.some.inj other).symm), Function.update_of_ne same]
    · refine linked.unlink (fun c leads => ?_) keeps
      have inside : c ∈ after := List.mem_of_head? leads
      rw [backward c (by simp [inside]), if_pos (ahead.trans leads), inner]
    · intro p leads
      have inside : p ∈ rest ++ b :: after.tail := by
        cases rest with
        | nil => simp_all
        | cons c rest => simp_all
      refine (keeps p inside).trans (front p ?_)
      cases rest with
      | nil => exact leads
      | cons c rest => exact leads

end

end ByteOS.Lib
