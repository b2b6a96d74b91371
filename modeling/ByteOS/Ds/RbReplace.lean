import ByteOS.Ds.RbBalance

/-! `rb_replace` of `libk/ds/rbtree.c`.

The new node gets all links of the old one and becomes the parent of its children, and the root
pointer is set if it was the old node. Neither the link in the parent nor the cached leftmost
node is: the old node is out of the tree only if it was the root and had a left child.
-/

set_option autoImplicit false

namespace ByteOS.Ds

open Lib Mm
open ColorTree (inorder)

def rbReplace (s : RbState) (victim target : Ptr) : Except Fault RbState := do
  let node ← s.read victim id
  let s ← s.modify target fun _ => node
  let s ← adopt s (← s.child .left target) target
  let s ← adopt s (← s.child .right target) target
  return if victim = s.tree.root then s.setRoot target else s

def entries : ColorTree Ptr → List (Ptr × Color)
  | .leaf => []
  | .node color left p right => entries left ++ (p, color) :: entries right

def substitute (victim target p : Ptr) : Ptr := if p = victim then target else p

/-- All links are consistent, those to the old node are gone, and the order and the colours are
those of the tree with the new node in the place of the old one. -/
structure Replaced (tree : ColorTree Ptr) (victim target : Ptr) (s : RbState)
    (tree' : ColorTree Ptr) : Prop where
  represents : Represents s tree'
  mostLeft : s.tree.mostLeft = first tree'
  notFromRoot : ¬ Linked s.mem s.tree.root victim
  notFromMostLeft : ¬ Linked s.mem s.tree.mostLeft victim
  order : entries tree' = (entries tree).map fun entry => (substitute victim target entry.1, entry.2)

variable {s s' : RbState} {tree left right : ColorTree Ptr} {ctx : Context Ptr} {color : Color}
    {victim target : Ptr}

theorem entries_nodes (tree : ColorTree Ptr) : (entries tree).map Prod.fst = tree.inorder := by
  induction tree with
  | leaf => rfl
  | node color left p right ihl ihr => simp [entries, inorder, ihl, ihr]

theorem entries_substitute_of_notMem (outside : victim ∉ tree.inorder) :
    (entries tree).map (fun entry => (substitute victim target entry.1, entry.2)) = entries tree := by
  conv_rhs => rw [← List.map_id (entries tree)]
  apply List.map_congr_left
  intro entry inside
  have different : entry.1 ≠ victim := by
    rintro rfl
    exact outside (entries_nodes tree ▸ List.mem_map_of_mem inside)
  rw [substitute, if_neg different]
  rfl

/-- What the call leaves: the new node has the place of the old one below its parent, whose link
is as it was. -/
structure Doubled (s : RbState) (ctx : Context Ptr) (color : Color) (left : ColorTree Ptr)
    (victim target : Ptr) (right : ColorTree Ptr) (s' : RbState) : Prop where
  holds : Holds s'.mem (holder ctx) (.node color left target right)
  root : s'.tree.root = if victim = s.tree.root then target else s.tree.root
  mostLeft : s'.tree.mostLeft = s.tree.mostLeft
  children : ∀ p side, p ≠ target → (s'.mem p).child side = (s.mem p).child side

theorem adopt_children {node parent : Ptr} (run : adopt s node parent = .ok s') (p : Ptr)
    (side : Side) : (s'.mem p).child side = (s.mem p).child side := by
  unfold adopt at run
  split at run
  case isTrue nonnull =>
    rw [rbSetParent_eq nonnull] at run
    cases run
    by_cases here : p = node
    · subst here
      rw [put_same, RbNode.child_setParent]
    · rw [put_other _ here]
  case isFalse null => rw [Except.ok.inj run]

theorem rbReplace_doubled (rep : Represents s (plug ctx (.node color left victim right)))
    (fresh : target ∉ (plug ctx (.node color left victim right)).inorder) (addressed : Address target) :
    ∃ s', rbReplace s victim target = .ok s' ∧ Doubled s ctx color left victim target right s' := by
  obtain ⟨addressV, above, painted, leftward, rightward, below, below'⟩ := rep.inside
  have distinct := (nodup_plug.mp rep.distinct).2.1
  simp only [mem_plug, inorder, List.mem_append, List.mem_cons, not_or] at fresh
  obtain ⟨_, freshL, different, freshR⟩ := fresh
  simp only [inorder, List.nodup_append', List.nodup_cons, List.disjoint_cons_right] at distinct
  obtain ⟨distinctL, ⟨_, distinctR⟩, _, apart⟩ := distinct
  -- the copy, and then the two children
  let s1 := s.put target (s.mem victim)
  have frame1 : ∀ q, q ≠ target → s1.mem q = s.mem q := fun q => put_other _
  have memT : s1.mem target = s.mem victim := put_same _
  obtain ⟨s2, run2, tree2, holdsL2, touches2⟩ :=
    adopt_spec (s := s1) (below.put freshL _) distinctL addressed.aligned
  have memT2 : s2.mem target = s.mem victim := (touches2.elsewhere target freshL).trans memT
  have holdsR2 : Holds s2.mem victim right := below'.congr fun q inside => by
    rw [touches2.elsewhere q fun inside' => apart inside' inside,
      frame1 q fun same => freshR (same ▸ inside)]
  obtain ⟨s3, run3, tree3, holdsR3, touches3⟩ := adopt_spec holdsR2 distinctR addressed.aligned
  have memT3 : s3.mem target = s.mem victim := (touches3.elsewhere target freshR).trans memT2
  have holdsL3 : Holds s3.mem target left :=
    holdsL2.congr fun q inside => touches3.elsewhere q (apart inside)
  have root3 : s3.tree = s.tree := tree3.trans tree2
  have children : ∀ p side, p ≠ target → (s3.mem p).child side = (s.mem p).child side := by
    intro p side other
    rw [adopt_children run3, adopt_children run2, frame1 p other]
  let s4 := if victim = s3.tree.root then s3.setRoot target else s3
  have mem4 : s4.mem = s3.mem := by
    unfold s4
    split <;> rfl
  refine ⟨s4, ?_, ?_, ?_, ?_, fun p side other => by rw [mem4, children p side other]⟩
  · have leftChild : s1.child .left target = .ok (address left) := by
      rw [child_eq _ addressed.nonnull, memT]
      exact congrArg _ leftward
    have rightChild : s2.child .right target = .ok (address right) := by
      rw [child_eq _ addressed.nonnull, memT2]
      exact congrArg _ rightward
    have read : s.read victim id = .ok (s.mem victim) := if_neg addressV.nonnull
    have copied : s.modify target (fun _ => s.mem victim) = .ok s1 := if_neg addressed.nonnull
    rw [rbReplace, read, ok_bind, copied, ok_bind, leftChild, ok_bind, run2, ok_bind, rightChild,
      ok_bind, run3, ok_bind]
    rfl
  · rw [mem4]
    refine ⟨addressed, ?_, ?_, ?_, ?_, holdsL3, holdsR3⟩
    · rw [memT3, above]
    · rw [memT3, painted]
    · rw [memT3, leftward]
    · rw [memT3, rightward]
  · unfold s4
    rw [root3]
    split
    case isTrue => rfl
    case isFalse => rw [root3]
  · unfold s4
    split
    case isTrue => rw [setRoot_mostLeft, root3]
    case isFalse => rw [root3]

theorem Linked.keep (rep : Represents s tree) (outside : target ∉ tree.inorder)
    (children : ∀ p side, p ≠ target → (s'.mem p).child side = (s.mem p).child side) {p : Ptr}
    (linked : Linked s.mem s.tree.root p) : Linked s'.mem s.tree.root p := by
  induction linked with
  | root nonnull => exact .root nonnull
  | @child q side above nonnull ih =>
    have other : q ≠ target := fun same => outside (same ▸ rep.linked_iff.mp above)
    have link := children q side other
    rw [← link] at nonnull ⊢
    exact ih.child side nonnull

theorem Linked.trans {mem : Ptr → RbNode} {root p q : Ptr} (first : Linked mem root p)
    (second : Linked mem p q) : Linked mem root q := by
  induction second with
  | root => exact first
  | child side _ nonnull ih => exact ih.child side nonnull

theorem first_mem (inhabited : tree ≠ .leaf) : first tree ∈ tree.inorder := by
  cases tree with
  | leaf => exact absurd rfl inhabited
  | node color left p right =>
    have head := head_extreme left p right.inorder
    rw [first, inorder, head]
    exact List.mem_of_head? head

theorem first_of_left (inhabited : left ≠ .leaf) (p q : Ptr) :
    first (.node color left p right) = first (.node color left q right) := by
  cases left with
  | leaf => exact absurd rfl inhabited
  | node color' left' r right' => cases front : left'.inorder <;> simp [first, inorder, front]

theorem Doubled.replaced (doubled : Doubled s [] color left victim target right s')
    (rep : Represents s (.node color left victim right))
    (leftmost : s.tree.mostLeft = first (.node color left victim right))
    (fresh : target ∉ (ColorTree.node color left victim right).inorder) (inhabited : left ≠ .leaf) :
    Replaced (.node color left victim right) victim target s' (.node color left target right) := by
  have root : victim = s.tree.root := rep.root.symm
  simp only [inorder, List.mem_append, List.mem_cons, not_or] at fresh
  obtain ⟨freshL, different, freshR⟩ := fresh
  have distinct := rep.distinct
  simp only [inorder, List.nodup_append', List.nodup_cons, List.disjoint_cons_right] at distinct
  obtain ⟨distinctL, ⟨outR, distinctR⟩, outL, apart⟩ := distinct
  have rep' : Represents s' (.node color left target right) := by
    refine ⟨doubled.holds, ?_, ?_⟩
    · rw [doubled.root, if_pos root]
      rfl
    · simp only [inorder, List.nodup_append', List.nodup_cons, List.disjoint_cons_right]
      exact ⟨distinctL, ⟨freshR, distinctR⟩, freshL, apart⟩
  have gone : ¬ Linked s'.mem s'.tree.root victim := by
    rw [rep'.linked_iff]
    simp [inorder, outL, outR, Ne.symm different]
  have mostLeft : s'.tree.mostLeft = first (.node color left target right) := by
    rw [doubled.mostLeft, leftmost, first_of_left inhabited]
  refine ⟨rep', mostLeft, gone, fun linked => gone (.trans ?_ linked), ?_⟩
  · rw [rep'.linked_iff, mostLeft]
    exact first_mem (by simp)
  · rw [entries, entries, List.map_append, List.map_cons, entries_substitute_of_notMem outL,
      entries_substitute_of_notMem outR]
    simp [substitute]

/-- The new node is substituted exactly if the old one was the root and not the leftmost node. -/
theorem rb_replace_substitutes (s : RbState) (tree : ColorTree Ptr) (victim target : Ptr)
    (rep : Represents s tree) (leftmost : s.tree.mostLeft = first tree)
    (inside : victim ∈ tree.inorder) (outside : target ∉ tree.inorder) (addressed : Address target) :
    ∃ s', rbReplace s victim target = .ok s' ∧
      ((∃ tree', Replaced tree victim target s' tree') ↔ victim = s.tree.root ∧
        victim ≠ s.tree.mostLeft) := by
  obtain ⟨ctx, color, left, right, rfl⟩ := exists_place inside
  obtain ⟨s', run, doubled⟩ := rbReplace_doubled rep outside addressed
  refine ⟨s', run, ?_⟩
  constructor
  · rintro ⟨tree', replaced⟩
    constructor
    · by_contra inner
      apply replaced.notFromRoot
      rw [doubled.root, if_neg inner]
      exact Linked.keep rep outside doubled.children (rep.linked_iff.mpr inside)
    · intro same
      apply replaced.notFromMostLeft
      rw [doubled.mostLeft, ← same]
      exact .root rep.inside.1.nonnull
  · rintro ⟨isRoot, notFirst⟩
    obtain rfl : ctx = [] := by
      cases ctx with
      | nil => rfl
      | cons f up =>
        have above := address_plug_mem f up (.node color left victim right)
        rw [← rep.root, ← isRoot] at above
        exact absurd (by simp [inorder]) (rep.apart above)
    refine ⟨_, doubled.replaced rep leftmost outside ?_⟩
    rintro rfl
    exact notFirst leftmost.symm

/-- The root with two children. -/
theorem rb_replace_substitutes_root : ∃ s' tree', rbReplace threeNodes 16#64 32#64 = .ok s' ∧
    Replaced (.node .black (.node .red .leaf 8#64 .leaf) 16#64 (.node .red .leaf 24#64 .leaf)) 16#64
      32#64 s' tree' := by
  obtain ⟨s', run, replaced⟩ :=
    rb_replace_substitutes threeNodes _ 16#64 32#64 threeNodes_red_black.represents
    threeNodes_red_black.mostLeft (by decide) (by decide) ⟨by decide, by decide⟩
  obtain ⟨tree', whole⟩ := replaced.mpr (by decide)
  exact ⟨s', tree', run, whole⟩

/-- A leaf is replaced: both the link in its parent and the cached pointer still lead to it. -/
theorem leaf_still_linked : ∃ s', rbReplace threeNodes 8#64 32#64 = .ok s' ∧
    Linked s'.mem s'.tree.root 8#64 ∧ s'.tree.mostLeft = 8#64 :=
  ⟨_, rfl, .child .left (.root (by decide)) (by decide), rfl⟩

end ByteOS.Ds
