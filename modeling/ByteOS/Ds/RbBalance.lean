import ByteOS.Ds.RbNodes
import ByteOS.Lib.BlackHeight

/-! Red-black trees in memory, and their deletion. -/

set_option autoImplicit false

namespace ByteOS.Ds

open Lib Mm RedBlack

variable {s : RbState} {tree : ColorTree Ptr} {p : Ptr}

/-- The nodes in memory form a red-black tree: parents, children and colours are those of
`tree`, its root is black, no red node has a red child, all paths have the same number of
black nodes, and the cached pointer is the leftmost node. -/
structure RedBlackTree (s : RbState) (tree : ColorTree Ptr) : Prop where
  represents : Represents s tree
  root : tree.color = .black
  balanced : ∃ n, Balanced n tree
  mostLeft : s.tree.mostLeft = first tree

/-- `rb_erase` of any node ends without a null pointer and leaves a red-black tree of the
other nodes in their order. -/
theorem rbErase_red_black (inv : RedBlackTree s tree) (inside : p ∈ tree.inorder) :
    ∃ s' tree', rbErase s p = .ok s' ∧ RedBlackTree s' tree' ∧
      tree'.inorder = tree.inorder.erase p ∧ Cleared (s'.mem p) := by
  obtain ⟨ctx, color, left, right, rfl⟩ := exists_place inside
  obtain ⟨rep, root, ⟨n, balanced⟩, mostLeft⟩ := inv
  obtain ⟨s', run, erased⟩ := rbErase_spec rep mostLeft
  refine ⟨s', erase ctx color left right, run, ⟨erased.represents, ?_, ?_, erased.leftmost⟩, ?_,
    erased.cleared⟩
  · exact color_erase ctx color left p right root
  · exact erase_balanced balanced
  · have distinct := rep.distinct
    rw [inorder_plug_node] at distinct
    have outside : p ∉ ctx.before ++ left.inorder := fun before =>
      (List.nodup_append'.mp distinct).2.2 before List.mem_cons_self
    rw [inorder_plug_node, List.erase_append_right _ outside, List.erase_cons_head, inorder_erase]
    simp

def threeNodes : RbState where
  mem p :=
    if p = 16#64 then ⟨1#64, 8#64, 24#64⟩
    else ⟨16#64, 0#64, 0#64⟩
  tree := ⟨16#64, 8#64⟩

theorem threeNodes_red_black :
    RedBlackTree threeNodes (.node .black (.node .red .leaf 8#64 .leaf) 16#64
      (.node .red .leaf 24#64 .leaf)) where
  represents := by
    refine ⟨⟨⟨by decide, by decide⟩, by decide, by decide, by decide, by decide, ?_, ?_⟩, rfl, by decide⟩
    · exact ⟨⟨by decide, by decide⟩, by decide, by decide, rfl, rfl, trivial, trivial⟩
    · exact ⟨⟨by decide, by decide⟩, by decide, by decide, rfl, rfl, trivial, trivial⟩
  root := rfl
  balanced := by
    have child : ∀ p : Ptr, Balanced 0 (.join .left .red p .leaf .leaf) := fun p =>
      balanced_red.mpr ⟨⟨rfl, rfl⟩, rfl, rfl⟩
    have whole : Balanced 1 (.join .left .black 16#64 (.join .left .red 8#64 .leaf .leaf)
        (.join .left .red 24#64 .leaf .leaf)) := balanced_black.mpr ⟨child 8#64, child 24#64⟩
    exact ⟨1, whole⟩
  mostLeft := rfl

/-- The root is erased; its predecessor takes its place. -/
theorem rbErase_red_black_root : ∃ s' tree', rbErase threeNodes 16#64 = .ok s' ∧
    RedBlackTree s' tree' ∧ tree'.inorder = [8#64, 24#64] ∧ Cleared (s'.mem 16#64) :=
  rbErase_red_black threeNodes_red_black (by decide)

end ByteOS.Ds
