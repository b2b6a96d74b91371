import ByteOS.Ds.RbRebalance

/-! `rb_next` and `rb_erase`: the successor walk, unlinking, replacing a node by
its predecessor, and the rebalancing loop, which computes `Lib.RedBlack.erase`. -/

set_option autoImplicit false

namespace ByteOS.Ds

open Lib Mm RedBlack
open List (length_append length_cons append_assoc nodup_append' nodup_cons disjoint_cons_right
  mem_append mem_cons)
open ColorTree (inorder)

variable {s : RbState} {ctx up : Context Ptr} {f : Frame Ptr} {t : ColorTree Ptr} {p : Ptr}
variable {color' : Color} {p' parent : Ptr} {side : Side} {left right : ColorTree Ptr}

section Successor

/-- The end of the walk from `p` to one side, with `t` below `p` on that side. -/
def extreme (side : Side) (p : Ptr) : ColorTree Ptr → Ptr
  | .leaf => p
  | .node _ left q right => match side with
    | .left => extreme side q left
    | .right => extreme side q right

theorem head_extreme (t : ColorTree Ptr) (p : Ptr) (rest : List Ptr) :
    (t.inorder ++ p :: rest).head? = some (extreme .left p t) := by
  induction t generalizing p rest with
  | leaf => rfl
  | node color left q right ihl _ => simpa [inorder, extreme] using ihl q (right.inorder ++ p :: rest)

theorem farthest_spec {color : Color} {inner outer : ColorTree Ptr} (fuel : Nat)
    (holds : Holds s.mem parent (.join side color p inner outer)) (enough : inner.inorder.length < fuel) :
    farthest side s fuel p = .ok (extreme side p inner) := by
  induction fuel generalizing parent color p inner outer with
  | zero => omega
  | succ fuel ih =>
    obtain ⟨addressed, _, _, inward, _, below, _⟩ := holds_join.mp holds
    rw [farthest, child_eq _ addressed.nonnull, ok_bind, inward]
    cases inner with
    | leaf => exact if_pos rfl
    | node color' left q right =>
      rw [if_neg (mt below.address_eq_null.mp (by simp))]
      rw [ColorTree.node_eq_join side] at below
      simp only [inorder, length_append, length_cons] at enough
      have shorter : ((ColorTree.node color' left q right).child side).inorder.length < fuel := by
        cases side <;> simp only [ColorTree.child] <;> omega
      rw [address, ih below shorter]
      cases side <;> rfl

theorem climb_spec (fuel : Nat) (rep : Represents s (plug ctx t)) (inhabited : t ≠ .leaf)
    (enough : ctx.length < fuel) : climb s fuel (address t) = .ok (ctx.after.head?.getD 0#64) := by
  induction ctx generalizing t fuel with
  | nil =>
    obtain ⟨fuel, rfl⟩ := exists_succ_of_lt enough
    rw [climb, rep.rbParent inhabited, ok_bind]
    rfl
  | cons f up ih =>
    obtain ⟨fuel, rfl⟩ := exists_succ_of_lt enough
    have right := rep.isChild inhabited .right
    rw [climb, rep.rbParent inhabited, ok_bind, holder]
    cases side : f.side with
    | left =>
      rw [if_neg (by simp [right, side]), Context.after, side]
      rfl
    | right =>
      have above := ih (t := f.attach t) fuel rep (attach_ne_leaf f t) (by simpa using enough)
      rw [Frame.attach, address_join] at above
      rw [if_pos (right.mpr side), above, Context.after, side]

theorem rbNext_spec {color : Color} (rep : Represents s (plug ctx (.node color left p right))) :
    rbNext s p = .ok ((right.inorder ++ ctx.after).head?.getD 0#64) := by
  obtain ⟨addressed, _, _, _, _, _, below⟩ := rep.inside
  rw [rbNext, if_neg addressed.nonnull, rep.inside.child, ok_bind, ColorTree.child]
  cases right with
  | leaf =>
    have climbed := climb_spec passes rep (by simp) (Nat.lt_of_add_right_lt rep.depth_lt)
    rwa [if_neg (by simp [address])]
  | node color' left' q right' =>
    have size := rep.size_lt
    rw [inorder_plug] at size
    simp only [inorder, length_append, length_cons] at size
    have shape : ColorTree.node color' left' q right' = .join .left color' q left' right' := rfl
    rw [if_pos (mt below.address_eq_null.mp (by simp)), address,
      farthest_spec passes (shape ▸ below) (by unfold passes; omega)]
    rw [inorder, append_assoc, List.cons_append, head_extreme]
    rfl

end Successor

section Unlinking

def remains : ColorTree Ptr → ColorTree Ptr → ColorTree Ptr
  | .leaf, right => right
  | left, _ => left

theorem mem_remains {q : Ptr} (inside : q ∈ (remains left right).inorder) :
    q ∈ left.inorder ∨ q ∈ right.inorder := by
  cases left with
  | leaf => exact .inr inside
  | node color' left' q right' => exact .inl inside

variable {color : Color} {left right : ColorTree Ptr} {y : Ptr}

theorem eraseUnlink_spec (rep : Represents s (plug ctx (.node color left y right))) :
    ∃ s', eraseUnlink s y = .ok (s', address (remains left right), holder ctx, holeSide ctx) ∧
      Represents s' (plug ctx (remains left right)) ∧ s'.mem y = s.mem y ∧
      Touches s s' (plug ctx (.node color left y right)).inorder := by
  obtain ⟨addressed, above, _, leftward, rightward, below, below'⟩ := rep.inside
  obtain ⟨distinctCtx, distinct, apart⟩ := nodup_plug.mp rep.distinct
  have outside : y ∉ ctx.around := fun inside => apart inside (by simp [inorder])
  let x := remains left right
  have only : onlyChild s y = .ok (address x) := by
    rw [onlyChild, rep.inside.child, ok_bind, rep.inside.child]
    cases left with
    | leaf => exact if_neg (by simp [address, ColorTree.child])
    | node color' left' q right' => exact if_pos (mt below.address_eq_null.mp (by simp))
  have members : ∀ p ∈ x.inorder, p ∈ left.inorder ∨ p ∈ right.inorder := fun p => mem_remains
  have holdsX : Holds s.mem y x := by
    cases left with
    | leaf => exact below'
    | node color' left' q right' => exact below
  simp only [inorder, nodup_append', nodup_cons, disjoint_cons_right] at distinct
  have distinctX : x.inorder.Nodup := by
    cases left with
    | leaf => exact distinct.2.1.2
    | node color' left' q right' => exact distinct.1
  have outsideX : y ∉ x.inorder := fun inside => (members y inside).elim distinct.2.2.1 distinct.2.1.1
  have apartX : ctx.around.Disjoint x.inorder := fun p inside inside' =>
    apart inside (by simpa [inorder] using (members p inside').imp id .inr)
  have aligned := rep.surrounds.holder_aligned
  obtain ⟨s1, adopted, tree1, holds1, touches1⟩ := adopt_spec holdsX distinctX aligned
  have around1 : Surrounds s1.mem s1.tree.root ctx y := by
    rw [tree1]
    exact rep.surrounds.congr fun p inside => touches1.elsewhere p (apartX inside)
  obtain ⟨s2, linked, around2, touches2⟩ := writeLink_spec (y := address x) around1 distinctCtx
  refine ⟨s2, ?_, represents_plug around2 ?_ (nodup_plug.mpr ⟨distinctCtx, distinctX, apartX⟩), ?_, ?_⟩
  · rw [eraseUnlink, only, ok_bind, rbParent_eq addressed.nonnull, ok_bind, above, adopted, ok_bind,
      relink_eq around1 addressed.nonnull outside, linked, ok_bind,
      sideOf_eq around1 addressed.nonnull outside]
    rfl
  · exact holds1.congr fun p inside => touches2.elsewhere p fun outside => apartX outside inside
  · rw [touches2.elsewhere y outside, touches1.elsewhere y outsideX]
  · refine ⟨touches2.mostLeft.trans (congrArg Rbtree.mostLeft tree1), fun p elsewhere => ?_⟩
    simp only [mem_plug, inorder, mem_append, mem_cons, not_or] at elsewhere
    rw [touches2.elsewhere p elsewhere.1, touches1.elsewhere p fun inside =>
      (members p inside).elim elsewhere.2.1 elsewhere.2.2.2]

end Unlinking

section Replacing
variable {color : Color} {left right : ColorTree Ptr} {y : Ptr}

theorem swapLink_eq {x : Ptr} (around : Surrounds s.mem s.tree.root ctx x) (nonnull : x ≠ 0#64)
    (outside : x ∉ ctx.around) : swapLink s x (holder ctx) y = s.writeLink y (linkOf ctx) := by
  rw [← relink_eq around nonnull outside]
  cases ctx with
  | nil => exact if_pos around
  | cons f up => rw [swapLink, relink, holder, if_pos around.1.nonnull, if_neg around.1.nonnull]

structure ChildMoved (side : Side) (s : RbState) (p y : Ptr) (t : ColorTree Ptr) (s' : RbState) : Prop where
  tree : s'.tree = s.tree
  holds : Holds s'.mem y t
  source : s'.mem p = (s.mem p).setChild side 0#64
  target : s'.mem y = (s.mem y).setChild side (address t)
  elsewhere : ∀ q, q ∉ t.inorder → q ≠ p → q ≠ y → s'.mem q = s.mem q

theorem swapChild_spec (side : Side) (holds : Holds s.mem parent t) (distinct : t.inorder.Nodup)
    (nonnull : p ≠ 0#64) (addressed : Address y) (outside : p ∉ t.inorder) (fresh : y ∉ t.inorder)
    (different : p ≠ y) : ∃ s', swapChild side s p y (address t) = .ok s' ∧ ChildMoved side s p y t s' := by
  let s1 := s.put y ((s.mem y).setChild side (address t))
  have holds1 : Holds s1.mem parent t := holds.put fresh _
  obtain ⟨s2, adopted, tree2, holds2, touches2⟩ := adopt_spec holds1 distinct addressed.aligned
  let s3 := s2.put p ((s2.mem p).setChild side 0#64)
  refine ⟨s3, ?_, tree2, ?_, ?_, ?_, ?_⟩
  · rw [swapChild, setChild_eq _ addressed.nonnull, ok_bind, adopted, ok_bind, setChild_eq _ nonnull]
  · exact holds2.put outside _
  · rw [put_same, touches2.elsewhere p outside, put_other _ different]
  · rw [put_other _ different.symm, touches2.elsewhere y fresh, put_same]
  · intro q outside' notP notY
    rw [put_other _ notP, touches2.elsewhere q outside', put_other _ notY]

theorem rbSwap_spec (rep : Represents s (plug ctx (.node color left p right)))
    (fresh : y ∉ (plug ctx (.node color left p right)).inorder) (addressed : Address y) :
    ∃ s', rbSwap s p y = .ok s' ∧ Represents s' (plug ctx (.node color left y right)) ∧
      Touches s s' (y :: (plug ctx (.node color left p right)).inorder) := by
  have around := rep.surrounds
  obtain ⟨addressP, above, painted, leftward, rightward, below, below'⟩ := rep.inside
  obtain ⟨distinctCtx, distinct, apart⟩ := nodup_plug.mp rep.distinct
  have outside : p ∉ ctx.around := fun inside => apart inside (by simp [inorder])
  simp only [mem_plug, inorder, mem_append, mem_cons, not_or] at fresh
  obtain ⟨freshCtx, freshL, different, freshR⟩ := fresh
  simp only [inorder, nodup_append', nodup_cons, disjoint_cons_right] at distinct
  obtain ⟨distinctL, ⟨outR, distinctR⟩, outL, apartLR⟩ := distinct
  have apartL : ∀ q ∈ left.inorder, q ∉ ctx.around := fun q inside outside =>
    apart outside (by simp [inorder, inside])
  have apartR : ∀ q ∈ right.inorder, q ∉ ctx.around := fun q inside outside =>
    apart outside (by simp [inorder, inside])
  have aligned := around.holder_aligned
  -- the link to the node
  let s1 := s.put y ((s.mem y).setParent (holder ctx))
  have frame1 : ∀ q, q ≠ y → s1.mem q = s.mem q := fun q => put_other _
  have around1 : Surrounds s1.mem s1.tree.root ctx p := around.put freshCtx _
  obtain ⟨s2, linked, around2, touches2⟩ := writeLink_spec (y := y) around1 distinctCtx
  have frame2 : ∀ q, q ≠ y → q ∉ ctx.around → s2.mem q = s.mem q := fun q notY elsewhere =>
    (touches2.elsewhere q elsewhere).trans (frame1 q notY)
  -- the two children
  have holdsR2 : Holds s2.mem p right := below'.congr fun q inside =>
    frame2 q (fun same => freshR (same ▸ inside)) (apartR q inside)
  obtain ⟨s3, run3, moved3⟩ :=
    swapChild_spec .right holdsR2 distinctR addressP.nonnull addressed outR freshR
    (Ne.symm different)
  have holdsL3 : Holds s3.mem p left := below.congr fun q inside => by
    rw [moved3.elsewhere q (apartLR inside) (fun same => outL (same ▸ inside))
      fun same => freshL (same ▸ inside)]
    exact frame2 q (fun same => freshL (same ▸ inside)) (apartL q inside)
  obtain ⟨s4, run4, moved4⟩ := swapChild_spec .left holdsL3 distinctL addressP.nonnull addressed outL freshL
    (Ne.symm different)
  have memP : s4.mem p = ((s.mem p).setChild .right 0#64).setChild .left 0#64 := by
    rw [moved4.source, moved3.source, frame2 p (Ne.symm different) outside]
  have memY : s4.mem y =
      (((s.mem y).setParent (holder ctx)).setChild .right (address right)).setChild .left
        (address left) := by
    rw [moved4.target, moved3.target, touches2.elsewhere y freshCtx, put_same]
  -- the colour, and the parent of the node that has left
  let s5 := s4.put y ((s4.mem y).setColor color)
  let s6 := s5.put p ((s5.mem p).setParent 0#64)
  have colorP : rbColor s4 p = color := by
    rw [rbColor_eq addressP.nonnull, memP, RbNode.color_setChild, RbNode.color_setChild, painted]
  have frame6 : ∀ q, q ≠ p → q ≠ y → s6.mem q = s4.mem q := fun q notP notY =>
    (put_other _ notP).trans (put_other _ notY)
  have memY6 : s6.mem y = (s4.mem y).setColor color := (put_other _ different).trans (put_same _)
  have run : rbSwap s p y = .ok s6 := by
    have leftChild : s.child .left p = .ok (address left) := rep.inside.child .left
    have rightChild : s.child .right p = .ok (address right) := rep.inside.child .right
    rw [rbSwap, leftChild, ok_bind, rightChild, ok_bind, rbParent_eq addressP.nonnull, ok_bind, above,
      rbSetParent_eq addressed.nonnull, ok_bind, swapLink_eq around1 addressP.nonnull outside,
      linked, ok_bind,
      run3, ok_bind, run4, ok_bind, colorP, rbSetColor_eq _ addressed.nonnull, ok_bind,
      rbSetParent_eq addressP.nonnull]
  have around6 : Surrounds s6.mem s6.tree.root ctx y := by
    have root : s6.tree.root = s2.tree.root := congrArg Rbtree.root (moved4.tree.trans moved3.tree)
    rw [root]
    refine around2.congr fun q inside => ?_
    have notP : q ≠ p := fun same => outside (same ▸ inside)
    have notY : q ≠ y := fun same => freshCtx (same ▸ inside)
    rw [frame6 q notP notY, moved4.elsewhere q (fun inside' => apartL q inside' inside) notP notY,
      moved3.elsewhere q (fun inside' => apartR q inside' inside) notP notY]
  have placed : Holds s6.mem (holder ctx) (.node color left y right) := by
    refine ⟨addressed, ?_, ?_, ?_, ?_, moved4.holds.congr fun q inside => ?_,
      moved3.holds.congr fun q inside => ?_⟩
    · rw [memY6, memY, RbNode.parent_setColor, RbNode.parent_setChild, RbNode.parent_setChild,
        RbNode.parent_setParent _ aligned]
    · rw [memY6, RbNode.color_setColor]
    · rw [memY6, memY]
      exact RbNode.child_setColor _ .left color
    · rw [memY6, memY]
      exact RbNode.child_setColor _ .right color
    · exact frame6 q (fun same => outL (same ▸ inside)) fun same => freshL (same ▸ inside)
    · have notP : q ≠ p := fun same => outR (same ▸ inside)
      have notY : q ≠ y := fun same => freshR (same ▸ inside)
      rw [frame6 q notP notY, moved4.elsewhere q (fun inside' => apartLR inside' inside) notP notY]
  refine ⟨s6, run, represents_plug around6 placed (nodup_plug.mpr ⟨distinctCtx, ?_, ?_⟩), ?_,
    fun q elsewhere => ?_⟩
  · simp only [inorder, nodup_append', nodup_cons, disjoint_cons_right]
    exact ⟨distinctL, ⟨freshR, distinctR⟩, freshL, apartLR⟩
  · intro q inside inside'
    simp only [inorder, mem_append, mem_cons] at inside'
    obtain inside' | rfl | inside' := inside'
    · exact apartL q inside' inside
    · exact freshCtx inside
    · exact apartR q inside' inside
  · exact (congrArg Rbtree.mostLeft (moved4.tree.trans moved3.tree)).trans touches2.mostLeft
  · simp only [mem_cons, mem_plug, inorder, mem_append, not_or] at elsewhere
    obtain ⟨notY, outCtx, outL', notP, outR'⟩ := elsewhere
    rw [frame6 q notP notY, moved4.elsewhere q outL' notP notY, moved3.elsewhere q outR' notP notY,
      frame2 q notY outCtx]

/-- The predecessor takes the place of the node above it, wherever it was taken from. -/
theorem eraseReplace_spec {spine : Context Ptr} {x : ColorTree Ptr}
    (rep : Represents s (plug (spine ++ ⟨.left, color, p, right⟩ :: ctx) x))
    (fresh : y ∉ (plug (spine ++ ⟨.left, color, p, right⟩ :: ctx) x).inorder)
    (addressed : Address y) (different : y ≠ p) :
    ∃ s', eraseReplace s p y (holder (spine ++ ⟨.left, color, p, right⟩ :: ctx)) =
        .ok (s', holder (spine ++ ⟨.left, color, y, right⟩ :: ctx)) ∧
      Represents s' (plug (spine ++ ⟨.left, color, y, right⟩ :: ctx) x) ∧
      Touches s s' (y :: (plug (spine ++ ⟨.left, color, p, right⟩ :: ctx) x).inorder) := by
  have shape : ∀ q, plug (spine ++ ⟨.left, color, q, right⟩ :: ctx) x =
      plug ctx (.node color (plug spine x) q right) :=
    fun q => plug_append _ _ _
  have parent : (if holder (spine ++ ⟨.left, color, p, right⟩ :: ctx) = p then y
      else holder (spine ++ ⟨.left, color, p, right⟩ :: ctx)) =
        holder (spine ++ ⟨.left, color, y, right⟩ :: ctx) := by
    cases spine with
    | nil => exact if_pos rfl
    | cons g rest =>
      -- further down the parent stays, it is another node
      have whole := shape p ▸ rep.distinct
      rw [nodup_plug] at whole
      have apart := whole.2.1
      simp only [inorder, nodup_append', disjoint_cons_right] at apart
      refine if_neg fun same => apart.2.2.1 ?_
      rw [mem_plug, Context.mem_around_cons]
      exact .inl (.inl same.symm)
  rw [shape] at rep fresh
  obtain ⟨s', run, rep', touches⟩ := rbSwap_spec rep fresh addressed
  refine ⟨s', ?_, by rwa [shape], by rwa [shape]⟩
  rw [eraseReplace, if_pos different, run, ok_bind, parent]
  rfl

end Replacing

variable {left' right' : ColorTree Ptr}

section Erase
variable {color : Color} {left right : ColorTree Ptr}

def first (t : ColorTree Ptr) : Ptr := t.inorder.head?.getD 0#64

structure Cleared (n : RbNode) : Prop where
  parent : n.parent = 0#64
  left : n.left = 0#64
  right : n.right = 0#64

theorem head_take_out {before after : List Ptr} (distinct : (before ++ p :: after).Nodup) :
    (if p = (before ++ p :: after).head?.getD 0#64 then after.head?.getD 0#64
      else (before ++ p :: after).head?.getD 0#64) = (before ++ after).head?.getD 0#64 := by
  cases before with
  | nil => simp
  | cons q before =>
    have different : p ≠ q := by
      rintro rfl
      simp at distinct
    simp [different]

theorem dropMostLeft_spec (rep : Represents s (plug ctx (.node color left p right)))
    (leftmost : s.tree.mostLeft = first (plug ctx (.node color left p right))) :
    dropMostLeft s p = .ok (s.setMostLeft (first (erase ctx color left right))) := by
  have shape := inorder_plug_node ctx color left right p
  have out := head_take_out (shape ▸ rep.distinct)
  have erased : first (erase ctx color left right) =
      ((ctx.before ++ left.inorder) ++ (right.inorder ++ ctx.after)).head?.getD 0#64 := by
    simp [first, inorder_erase]
  rw [first, shape] at leftmost
  rw [dropMostLeft, leftmost, erased, ← out]
  split
  case isTrue =>
    rw [rbNext_spec rep, ok_bind]
    rfl
  case isFalse =>
    rw [← leftmost]
    rfl

theorem extreme_lastNode (up : Context Ptr) (color : Color) (left : ColorTree Ptr) (p : Ptr)
    (right : ColorTree Ptr) : extreme .right p right = (lastNode up color left p right).2.2.2 := by
  induction right generalizing up color left p with
  | leaf => rfl
  | node color' left' p' right' _ ih => exact ih _ _ _ _

theorem eraseVictim_single (rep : Represents s (plug ctx (.node color left p right)))
    (single : left = .leaf ∨ right = .leaf) : eraseVictim s p = .ok p := by
  have childless : ¬ (address left ≠ 0#64 ∧ address right ≠ 0#64) := by
    obtain rfl | rfl := single <;> simp [address]
  have leftChild : s.child .left p = .ok (address left) := rep.inside.child .left
  have rightChild : s.child .right p = .ok (address right) := rep.inside.child .right
  rw [eraseVictim, leftChild, ok_bind, rightChild, ok_bind, if_neg childless]
  rfl

theorem eraseVictim_last
    (rep : Represents s (plug ctx (.node color (.node color' left' p' right') p right)))
    (inhabited : right ≠ .leaf) : eraseVictim s p = .ok (lastNode [] color' left' p' right').2.2.2 := by
  obtain ⟨_, _, _, _, _, below, below'⟩ := rep.inside
  have leftChild : s.child .left p = .ok p' := rep.inside.child .left
  have rightChild : s.child .right p = .ok (address right) := rep.inside.child .right
  have size := rep.size_lt
  rw [inorder_plug] at size
  simp only [inorder, length_append, length_cons] at size
  have shape : ColorTree.node color' left' p' right' = .join .right color' p' right' left' := rfl
  rw [eraseVictim, leftChild, ok_bind, rightChild, ok_bind,
    if_pos ⟨below.1.nonnull, mt below'.address_eq_null.mp inhabited⟩,
    farthest_spec passes (shape ▸ below) (by unfold passes; omega), extreme_lastNode [] color' left']

theorem closeGap_spec {x : ColorTree Ptr} (rep : Represents s (plug ctx x)) (color : Color) :
    ∃ s', (if color = .black then eraseRebalance passes s (address x) (holder ctx) (holeSide ctx)
      else .ok s) = .ok s' ∧
      Rearranged s (plug ctx x) s' (closeGap color ctx x) := by
  unfold closeGap
  split
  · exact eraseRebalance_spec passes rep (Nat.lt_of_succ_lt rep.depth_lt)
  · exact ⟨s, rfl, .refl rep⟩

theorem clearNode_spec (rep : Represents s t) (nonnull : p ≠ 0#64) (outside : p ∉ t.inorder) :
    ∃ s', clearNode s p = .ok s' ∧ Represents s' t ∧ Cleared (s'.mem p) ∧ Touches s s' [p] := by
  let blank := (((s.mem p).setChild .left 0#64).setChild .right 0#64).setParent 0#64
  refine ⟨s.put p blank, ?_, ⟨rep.holds.put outside _, rep.root, rep.distinct⟩, ?_, .put (by simp) _⟩
  · simp only [clearNode, setChild_eq _ nonnull, rbSetParent_eq nonnull, ok_bind, put_put, put_same]
    rfl
  · rw [put_same]
    exact ⟨RbNode.parent_setParent _ rfl, rfl, rfl⟩

/-- What `rb_erase` leaves behind. -/
structure Erased (s : RbState) (ctx : Context Ptr) (color : Color) (left : ColorTree Ptr) (p : Ptr)
    (right : ColorTree Ptr) (s' : RbState) : Prop where
  represents : Represents s' (erase ctx color left right)
  leftmost : s'.tree.mostLeft = first (erase ctx color left right)
  cleared : Cleared (s'.mem p)
  elsewhere : ∀ q, q ∉ (plug ctx (.node color left p right)).inorder → s'.mem q = s.mem q

theorem not_mem_erase (rep : Represents s (plug ctx (.node color left p right))) :
    p ∉ (erase ctx color left right).inorder := by
  have distinct := rep.distinct
  rw [inorder_plug] at distinct
  simp only [inorder_erase, inorder, append_assoc, List.cons_append] at distinct ⊢
  rw [← append_assoc, List.nodup_middle, nodup_cons] at distinct
  simpa using distinct.1

theorem rbErase_finish {s1 s2 s3 s4 : RbState} {x xp : Ptr} {y : Ptr} {x' : Ptr}
    (nonnull : p ≠ 0#64) (run1 : dropMostLeft s p = .ok s1) (run2 : eraseVictim s1 p = .ok y)
    (run3 : eraseUnlink s1 y = .ok (s2, x, xp, side)) (run4 : eraseReplace s2 p y xp = .ok (s3, x'))
    (run5 : (if rbColor s2 y = .black then eraseRebalance passes s3 x x' side else .ok s3) = .ok s4) :
    rbErase s p = clearNode s4 p := by
  rw [rbErase, if_neg nonnull, run1, ok_bind, run2, ok_bind, run3, ok_bind]
  dsimp only
  rw [run4, ok_bind]
  dsimp only
  rw [run5, ok_bind]

theorem rbErase_single (rep : Represents s (plug ctx (.node color left p right)))
    (leftmost : s.tree.mostLeft = first (plug ctx (.node color left p right)))
    (single : left = .leaf ∨ right = .leaf) : ∃ s', rbErase s p = .ok s' ∧
      Erased s ctx color left p right s' := by
  have shape : erase ctx color left right = closeGap color ctx (remains left right) := by
    cases left with
    | leaf => rfl
    | node color' left' p' right' =>
      obtain rfl : right = .leaf := single.resolve_left (by simp)
      rfl
  have nonnull := rep.inside.1.nonnull
  have run1 := dropMostLeft_spec rep leftmost
  let s1 := s.setMostLeft (first (erase ctx color left right))
  have rep1 : Represents s1 (plug ctx (.node color left p right)) := ⟨rep.holds, rep.root, rep.distinct⟩
  have run2 := eraseVictim_single rep1 single
  obtain ⟨s2, run3, rep2, same2, touches2⟩ := eraseUnlink_spec rep1
  have color2 : rbColor s2 p = color := by
    rw [rbColor_eq nonnull, same2]
    exact rep1.inside.2.2.1
  have run4 : eraseReplace s2 p p (holder ctx) = .ok (s2, holder ctx) := if_neg (by simp)
  obtain ⟨s3, run5, done⟩ := closeGap_spec rep2 color
  obtain ⟨s4, run6, rep4, cleared, touches4⟩ :=
    clearNode_spec done.represents nonnull (shape ▸ not_mem_erase rep)
  refine ⟨s4, ?_, ?_⟩
  · rw [rbErase_finish nonnull run1 run2 run3 run4 (color2 ▸ run5), run6]
  · refine ⟨shape ▸ rep4, ?_, cleared, fun q outside => ?_⟩
    · rw [touches4.mostLeft, done.touches.mostLeft, touches2.mostLeft]
      rfl
    · have inside : ∀ r ∈ (plug ctx (remains left right)).inorder,
        r ∈ (plug ctx (.node color left p right)).inorder := by
        intro r inside
        rw [mem_plug] at inside ⊢
        refine inside.imp_right fun below => ?_
        simp only [inorder, mem_append, mem_cons]
        exact (mem_remains below).imp_right .inr
      have notP : q ∉ [p] := fun same => outside (mem_plug.mpr (.inr (by simp_all [inorder])))
      rw [touches4.elsewhere q notP, done.touches.elsewhere q (mt (inside q) outside),
        touches2.elsewhere q outside]
      rfl

theorem rbErase_last
    (rep : Represents s (plug ctx (.node color (.node color' left' p' right') p right)))
    (leftmost : s.tree.mostLeft =
      first (plug ctx (.node color (.node color' left' p' right') p right))) (inhabited : right ≠ .leaf) :
    ∃ s', rbErase s p = .ok s' ∧ Erased s ctx color (.node color' left' p' right') p right s' := by
  obtain ⟨spine, cy, ly, y, last⟩ : ∃ spine cy ly y, lastNode [] color' left' p' right' =
      (spine, cy, ly, y) :=
    ⟨_, _, _, _, rfl⟩
  have shape : erase ctx color (.node color' left' p' right') right =
      closeGap cy (spine ++ ⟨.left, color, y, right⟩ :: ctx) ly := by
    cases right with
    | leaf => exact absurd rfl inhabited
    | node color'' left'' p'' right'' => rw [erase, last]; simp
  have place : plug ctx (.node color (.node color' left' p' right') p right) =
      plug (spine ++ ⟨.left, color, p, right⟩ :: ctx) (.node cy ly y .leaf) := by
    have placed := plug_lastNode [] color' left' p' right'
    rw [last] at placed
    rw [plug_append, placed]
    rfl
  have nonnull := rep.inside.1.nonnull
  have run1 := dropMostLeft_spec rep leftmost
  let s1 := s.setMostLeft (first (erase ctx color (.node color' left' p' right') right))
  have rep1 : Represents s1 (plug ctx (.node color (.node color' left' p' right') p right)) :=
    ⟨rep.holds, rep.root, rep.distinct⟩
  have run2 := eraseVictim_last rep1 inhabited
  rw [last] at run2
  have rep1' := place ▸ rep1
  obtain ⟨addressY, _, colorY, _⟩ := rep1'.inside
  obtain ⟨s2, run3, rep2, same2, touches2⟩ := eraseUnlink_spec rep1'
  have only : remains ly .leaf = ly := by
    cases ly <;> rfl
  rw [only] at run3 rep2
  -- the predecessor is out of the tree, and it is not the node
  obtain ⟨_, distinctY, apartY⟩ := nodup_plug.mp rep1'.distinct
  simp only [inorder, nodup_append', disjoint_cons_right] at distinctY
  have outside : y ∉ Context.around (spine ++ ⟨.left, color, p, right⟩ :: ctx) :=
    fun inside => apartY inside (by simp [inorder])
  have fresh : y ∉ (plug (spine ++ ⟨.left, color, p, right⟩ :: ctx) ly).inorder := fun inside =>
    (mem_plug.mp inside).elim outside distinctY.2.2.1
  have different : y ≠ p := fun same => outside (by simp [same])
  obtain ⟨s3, run4, rep3, touches3⟩ := eraseReplace_spec rep2 fresh addressY different
  have color2 : rbColor s2 y = cy := by rw [rbColor_eq addressY.nonnull, same2, colorY]
  obtain ⟨s4, run5, done⟩ := closeGap_spec rep3 cy
  obtain ⟨s5, run6, rep5, cleared, touches5⟩ :=
    clearNode_spec done.represents nonnull (shape ▸ not_mem_erase rep)
  have side : holeSide (spine ++ ⟨.left, color, y, right⟩ :: ctx) =
      holeSide (spine ++ ⟨.left, color, p, right⟩ :: ctx) := by
    cases spine <;> rfl
  rw [side] at run5
  refine ⟨s5, ?_, shape ▸ rep5, ?_, cleared, fun q outside => ?_⟩
  · rw [rbErase_finish nonnull run1 run2 run3 run4 (color2 ▸ run5), run6]
  · rw [touches5.mostLeft, done.touches.mostLeft, touches3.mostLeft, touches2.mostLeft]
    rfl
  · rw [place] at outside
    have outside' := outside
    simp only [mem_plug, Context.mem_around_append, Context.mem_around_cons, inorder, mem_append,
      List.mem_singleton, not_or] at outside'
    obtain ⟨⟨outSpine, notP, outRight, outCtx⟩, outLy, notY⟩ := outside'
    have out3 : q ∉ (plug (spine ++ ⟨.left, color, y, right⟩ :: ctx) ly).inorder := by
      simp [mem_plug, outSpine, notY, outRight, outCtx, outLy]
    have out2 : q ∉ y :: (plug (spine ++ ⟨.left, color, p, right⟩ :: ctx) ly).inorder := by
      simp [mem_plug, outSpine, notY, notP, outRight, outCtx, outLy]
    rw [touches5.elsewhere q (by simp [notP]), done.touches.elsewhere q out3,
      touches3.elsewhere q out2, touches2.elsewhere q outside]
    rfl

theorem rbErase_spec (rep : Represents s (plug ctx (.node color left p right)))
    (leftmost : s.tree.mostLeft = first (plug ctx (.node color left p right))) :
    ∃ s', rbErase s p = .ok s' ∧ Erased s ctx color left p right s' := by
  cases left with
  | leaf => exact rbErase_single rep leftmost (.inl rfl)
  | node color' left' p' right' =>
    by_cases inhabited : right = .leaf
    · exact rbErase_single rep leftmost (.inr inhabited)
    · exact rbErase_last rep leftmost inhabited

end Erase

end ByteOS.Ds
