import ByteOS.Ds.RbBalance

/-! Iteration over a tree with `rb_first_uncached` and `rb_next` (`include/ds/rbtree.h`).

The nodes behind the current one are what is left of the tree's order, and `rb_next` goes to the
first of them. Colours play no part: the tree is any tree whose links are consistent.
-/

set_option autoImplicit false

namespace ByteOS.Ds

open Lib Mm

variable {s : RbState} {tree : ColorTree Ptr} {p : Ptr} {before after : List Ptr}

/-- The nodes that `for (; node; node = rb_next(node))` comes to. -/
def visited (s : RbState) : Nat → Ptr → Except Fault (List Ptr)
  | 0, _ => .error .unfinished
  | fuel + 1, node =>
    if node = 0#64 then .ok []
    else do
      let next ← rbNext s node
      let rest ← visited s fuel next
      return node :: rest

theorem rbNext_behind (rep : Represents s tree) (split : tree.inorder = before ++ p :: after) :
    p ≠ 0#64 ∧ rbNext s p = .ok (after.head?.getD 0#64) := by
  have inside : p ∈ tree.inorder := by simp [split]
  obtain ⟨ctx, color, left, right, rfl⟩ := exists_place inside
  obtain ⟨-, behind⟩ := place_split rep.distinct split
  rw [rbNext_spec rep, behind]
  exact ⟨rep.inside.1.nonnull, rfl⟩

theorem visited_suffix (rep : Represents s tree) {fuel : Nat}
    (split : tree.inorder = before ++ after) (enough : after.length < fuel) :
    visited s fuel (after.head?.getD 0#64) = .ok after := by
  induction after generalizing before fuel with
  | nil =>
    cases fuel with
    | zero => exact absurd enough (Nat.not_lt_zero _)
    | succ fuel => rfl
  | cons p after ih =>
    cases fuel with
    | zero => exact absurd enough (Nat.not_lt_zero _)
    | succ fuel =>
      obtain ⟨nonnull, next⟩ := rbNext_behind rep split
      have later : tree.inorder = (before ++ [p]) ++ after := by simp [split]
      have rest := ih later (Nat.lt_of_succ_lt_succ enough)
      change visited s (fuel + 1) p = _
      rw [visited, if_neg nonnull, next, ok_bind, rest, ok_bind]
      rfl

/-- The loop from the first node on comes to all nodes of the tree, each of them once and in order,
and every call returns. -/
theorem iteration_in_order (s : RbState) (tree : ColorTree Ptr) (rep : Represents s tree) :
    tree.inorder.Nodup ∧ (∀ p, p ∈ tree.inorder ↔ Linked s.mem s.tree.root p) ∧
      (∀ p, Linked s.mem s.tree.root p → ∃ next, rbNext s p = .ok next) ∧
      ∃ first, rbFirstUncached s = .ok first ∧
        ∀ fuel, tree.inorder.length < fuel → visited s fuel first = .ok tree.inorder := by
  refine ⟨rep.distinct, fun p => rep.linked_iff.symm, fun p linked => ?_, first tree,
    rbFirstUncached_spec rep, fun fuel enough => visited_suffix rep (List.nil_append _).symm enough⟩
  obtain ⟨before, after, split⟩ := List.append_of_mem (rep.linked_iff.mp linked)
  exact ⟨_, (rbNext_behind rep split).2⟩

theorem iteration_in_order_three : ∃ first, rbFirstUncached threeNodes = .ok first ∧
    visited threeNodes 4 first = .ok [8#64, 16#64, 24#64] := by
  obtain ⟨-, -, -, first, start, visits⟩ := iteration_in_order threeNodes _ threeNodes_red_black.represents
  exact ⟨first, start, visits 4 (by decide)⟩

end ByteOS.Ds
