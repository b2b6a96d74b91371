import ByteOS.Ds.RbErase

/-! The nodes of a tree in memory: their places, the links that lead to them, and
the first of them. -/

set_option autoImplicit false

namespace ByteOS.Ds

open Lib Mm RedBlack
open ColorTree (inorder)

variable {s : RbState} {tree : ColorTree Ptr} {t : Ptr}

section Places

theorem exists_place (inside : t ∈ tree.inorder) :
    ∃ ctx color left right, tree = plug ctx (.node color left t right) := by
  have general : ∀ (ctx : Context Ptr), ∃ ctx' color left right,
      plug ctx tree = plug ctx' (.node color left t right) := by
    induction tree with
    | leaf => simp [inorder] at inside
    | node color left p right ihl ihr =>
      intro ctx
      simp only [inorder, List.mem_append, List.mem_cons] at inside
      obtain below | rfl | below := inside
      · exact ihl below (⟨.left, color, p, right⟩ :: ctx)
      · exact ⟨ctx, color, left, right, rfl⟩
      · exact ihr below (⟨.right, color, p, left⟩ :: ctx)
  exact general []

theorem place_split {ctx : Context Ptr} {color : Color} {left right : ColorTree Ptr}
    {before after : List Ptr} (distinct : (plug ctx (.node color left t right)).inorder.Nodup)
    (split : (plug ctx (.node color left t right)).inorder = before ++ t :: after) :
    before = ctx.before ++ left.inorder ∧ after = right.inorder ++ ctx.after := by
  rw [inorder_plug_node] at split distinct
  have outside : t ∉ ctx.before ++ left.inorder := fun inside =>
    (List.nodup_append'.mp distinct).2.2 inside List.mem_cons_self
  have beyond : t ∉ right.inorder ++ ctx.after :=
    (List.nodup_cons.mp (List.nodup_append'.mp distinct).2.1).1
  obtain ⟨front, _, rear⟩ := (List.append_cons_inj_of_notMem outside beyond).mp split
  exact ⟨front.symm, rear.symm⟩

theorem left_of_first {rest : List Ptr} (rep : Represents s tree)
    (front : tree.inorder = t :: rest) : (s.mem t).left = 0#64 := by
  obtain ⟨ctx, color, left, right, rfl⟩ := exists_place (front ▸ List.mem_cons_self : t ∈ tree.inorder)
  have split : (plug ctx (.node color left t right)).inorder = [] ++ t :: rest := front
  obtain ⟨start, _⟩ := place_split rep.distinct split
  have empty : left = .leaf := by
    cases left with
    | leaf => rfl
    | node color' left' p right' => simp [inorder] at start
  obtain ⟨_, _, _, leftward, _⟩ := rep.inside
  rw [leftward, empty]
  rfl

theorem readLink_spec {ctx : Context Ptr} (rep : Represents s (plug ctx tree)) :
    s.readLink (linkOf ctx) = .ok (address tree) := by
  cases ctx with
  | nil => exact congrArg _ rep.root
  | cons f up => exact (child_eq f.side rep.parent_nonnull).trans (congrArg _ rep.surrounds.2.2.2.1)

end Places

section Reachability

inductive Linked (mem : Ptr → RbNode) (root : Ptr) : Ptr → Prop where
  | root (nonnull : root ≠ 0#64) : Linked mem root root
  | child {p : Ptr} (side : Side) (above : Linked mem root p) (nonnull : (mem p).child side ≠ 0#64) :
    Linked mem root ((mem p).child side)

theorem linked_of_mem {mem : Ptr → RbNode} {root parent : Ptr} (holds : Holds mem parent tree)
    (top : tree ≠ .leaf → Linked mem root (address tree)) (inside : t ∈ tree.inorder) :
    Linked mem root t := by
  induction tree generalizing parent with
  | leaf => simp [inorder] at inside
  | node color left p right ihl ihr =>
    have here : Linked mem root p := top (by simp)
    obtain ⟨_, _, _, leftward, rightward, below, below'⟩ := holds
    simp only [inorder, List.mem_append, List.mem_cons] at inside
    obtain inside | rfl | inside := inside
    · refine ihl below (fun inhabited => ?_) inside
      have link : (mem p).child .left = address left := leftward
      exact link ▸ here.child .left (link ▸ mt below.address_eq_null.mp inhabited)
    · exact here
    · refine ihr below' (fun inhabited => ?_) inside
      have link : (mem p).child .right = address right := rightward
      exact link ▸ here.child .right (link ▸ mt below'.address_eq_null.mp inhabited)

theorem Represents.linked_iff (rep : Represents s tree) :
    Linked s.mem s.tree.root t ↔ t ∈ tree.inorder := by
  constructor
  · intro linked
    induction linked with
    | root nonnull =>
      rw [rep.root] at nonnull ⊢
      exact address_mem (mt rep.holds.address_eq_null.mpr nonnull)
    | child side above nonnull ih =>
      obtain ⟨ctx, color, left, right, rfl⟩ := exists_place ih
      have link := rep.inside.child side
      rw [child_eq side rep.inside.1.nonnull] at link
      have link := Except.ok.inj link
      rw [link] at nonnull ⊢
      have below := rep.inside.child_holds side
      have inside := address_mem (mt below.address_eq_null.mpr nonnull)
      refine mem_plug.mpr (.inr ?_)
      simp only [inorder, List.mem_append, List.mem_cons]
      cases side with
      | left => exact .inl inside
      | right => exact .inr (.inr inside)
  · intro inside
    refine linked_of_mem rep.holds (fun inhabited => ?_) inside
    rw [rep.root]
    exact .root (mt rep.holds.address_eq_null.mp inhabited)

theorem rbFirstUncached_spec (rep : Represents s tree) : rbFirstUncached s = .ok (first tree) := by
  rw [rbFirstUncached, rep.root]
  cases tree with
  | leaf => rfl
  | node color left p right =>
    have size := rep.size_lt
    simp only [inorder, List.length_append, List.length_cons] at size
    have shape : ColorTree.node color left p right = .join .left color p left right := rfl
    rw [address, if_neg rep.holds.1.nonnull,
      farthest_spec passes (shape ▸ rep.holds) (by unfold passes; omega), first,
      inorder, head_extreme]
    rfl

end Reachability

end ByteOS.Ds
