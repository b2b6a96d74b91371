import ByteOS.Ds.RbSteps
import ByteOS.Lib.RedBlack

/-! `rb_link_node` and `rb_insert` compute the insertion of `Lib.RedBlack`. -/

set_option autoImplicit false

namespace ByteOS.Ds

open Lib Mm RedBlack

variable {s : RbState} {ctx up : Context Ptr} {f g : Frame Ptr} {t : ColorTree Ptr}

section Linking
variable {n : Ptr}

theorem rbLinkNode_spec (rep : Represents s (plug ctx .leaf)) (fresh : n ∉ (plug ctx .leaf).inorder)
    (addressed : Address n) :
    ∃ s', rbLinkNode s n (holder ctx) (linkOf ctx) = .ok s' ∧
      Represents s' (plug ctx (.join .left .red n .leaf .leaf)) ∧
      Touches s s' (n :: (plug ctx .leaf).inorder) := by
  have around := rep.surrounds
  have outside : n ∉ ctx.around := fun inside => fresh (mem_plug.mpr (.inl inside))
  let blank := ((((s.mem n).setParent (holder ctx)).setColor .red).setChild .right 0#64).setChild .left 0#64
  let linked := s.put n blank
  have prepared : rbLinkNode s n (holder ctx) (linkOf ctx) = linked.writeLink n (linkOf ctx) := by
    simp only [rbLinkNode, rbSetParent_eq addressed.nonnull, rbSetColor_eq _ addressed.nonnull,
      setChild_eq _ addressed.nonnull, ok_bind, put_put, put_same]
    rfl
  have around' : Surrounds linked.mem linked.tree.root ctx 0#64 := around.put outside _
  obtain ⟨distinct, _, _⟩ := nodup_plug.mp rep.distinct
  obtain ⟨s', run, around'', touches⟩ := writeLink_spec (y := n) around' distinct
  refine ⟨s', prepared.trans run, represents_plug (by simpa using around'') (holds_join.mpr ?_) ?_, ?_⟩
  · have memN : s'.mem n = blank := (touches.elsewhere n outside).trans (put_same blank)
    rw [memN]
    refine ⟨addressed, ?_, ?_, rfl, rfl, trivial, trivial⟩
    · simp only [blank, RbNode.parent_setChild, RbNode.parent_setColor]
      exact RbNode.parent_setParent _ around.holder_aligned
    · simp only [blank, RbNode.color_setChild, RbNode.color_setColor]
  · rw [nodup_plug]
    exact ⟨distinct, by simp [ColorTree.join, ColorTree.inorder], by simpa [ColorTree.join, ColorTree.inorder] using outside⟩
  · refine ⟨touches.mostLeft, fun p elsewhere => ?_⟩
    simp only [List.mem_cons, not_or, mem_plug] at elsewhere
    rw [touches.elsewhere p elsewhere.2.1, put_other _ elsewhere.1]

end Linking

section Repair

theorem insertCase1_spec (rep : Represents s t) (inhabited : t ≠ .leaf) :
    ∃ s', insertCase1 s (address t) = .ok s' ∧ Rearranged s t s' (t.paint .black) := by
  have top : Represents s (plug [] t) := rep
  obtain ⟨s', run, done⟩ := paintNonNull_spec top .black
  rw [paintNonNull, if_pos (top.nonnull inhabited)] at run
  -- the root pointer is written with the value it has
  have root : s'.setRoot (address t) = s' := by
    have same := done.represents.root
    rw [plug, address_paint] at same
    rw [RbState.setRoot, ← same]
  refine ⟨s', ?_, done⟩
  rw [insertCase1, run, ok_bind, root]
  rfl

section

variable (rep : Represents s (plug (f :: g :: up) t))
include rep

theorem insertCase3_spec (inhabited : t ≠ .leaf) (uncle : g.sibling.color = .red) :
    ∃ s', insertCase3 s (address t) = .ok (s', g.p) ∧ Rearranged s (plug (f :: g :: up) t) s'
      (plug up (.join g.side .red g.p (.join f.side .black f.p t f.sibling) (g.sibling.paint .black))) := by
  have below : Represents s (plug (g :: up) (.join f.side f.color f.p t f.sibling)) := rep
  obtain ⟨s1, run1, done1⟩ := rbSetColor_spec below .black
  let f' : Frame Ptr := { f with color := .black }
  have rep1 : Represents s1 (plug (f' :: g :: up) t) := done1.represents
  -- the uncle is in the hole on the other side of the grandparent
  have turn : plug (f' :: g :: up) t = plug (g.turn (f'.attach t) :: up) g.sibling :=
    plug_turn g up (f'.attach t)
  obtain ⟨s2, run2, done2⟩ := paintNonNull_spec (turn ▸ rep1) .black
  have present : g.sibling ≠ .leaf := by
    rintro leaf
    simp [leaf, ColorTree.color] at uncle
  rw [paintNonNull, if_pos ((turn ▸ rep1).nonnull present)] at run2
  have turn2 : plug (g.turn (f'.attach t) :: up) (g.sibling.paint .black) =
      plug (f' :: ⟨g.side, g.color, g.p, g.sibling.paint .black⟩ :: up) t :=
    (plug_turn ⟨g.side, g.color, g.p, g.sibling.paint .black⟩ up (f'.attach t)).symm
  have rep2 := turn2 ▸ done2.represents
  have above : Represents s2
      (plug up (.join g.side g.color g.p (f'.attach t) (g.sibling.paint .black))) := rep2
  obtain ⟨s3, run3, done3⟩ := rbSetColor_spec above .red
  have rep3 : Represents s3 (plug (f' :: ⟨g.side, .red, g.p, g.sibling.paint .black⟩ :: up) t) :=
    done3.represents
  refine ⟨s3, ?_, done1.trans ?_⟩
  · rw [insertCase3, rep.rbParent inhabited, ok_bind, holder, run1, ok_bind, rep1.rbUncle inhabited,
      ok_bind, run2,
      ok_bind, rep2.rbGrandparent inhabited, ok_bind, holder, run3, ok_bind, rep3.rbGrandparent inhabited]
    rfl
  · have middle : Rearranged s1 (plug (f' :: g :: up) t) s2
        (plug (f' :: ⟨g.side, g.color, g.p, g.sibling.paint .black⟩ :: up) t) := turn ▸ turn2 ▸ done2
    exact middle.trans done3

theorem insertCase4Outer_spec (inhabited : t ≠ .leaf) (outer : f.side = g.side) :
    ∃ s', insertCase4Outer s (address t) = .ok s' ∧ Rearranged s (plug (f :: g :: up) t) s'
      (plug up (.join g.side .black f.p t (.join g.side .red g.p f.sibling g.sibling))) := by
  have shape : plug (f :: g :: up) t =
      plug up (.join g.side g.color g.p (.join g.side f.color f.p t f.sibling) g.sibling) := by
    simp only [plug, Frame.attach, outer]
  have left := rep.isChild inhabited .left
  rw [isChild_eq .left rep.parent_nonnull, outer] at left
  have turn : rotateTo (if address t = (s.mem f.p).child .left then .right else .left) = rotate g.side := by
    rw [rotateTo_eq]
    cases side : g.side with
    | left => rw [if_pos (left.mpr side), Side.other]
    | right => rw [if_neg (by simp [left, side]), Side.other]
  obtain ⟨s1, run1, done1⟩ := rotate_spec (shape ▸ rep)
  obtain ⟨s2, run2, done2⟩ := rbSetColor_spec done1.represents .black
  -- the grandparent is now below, on the other side
  have below : ∀ color : Color,
      plug up (.join g.side .black f.p t (.join g.side color g.p f.sibling g.sibling)) =
      plug (⟨g.side.other, .black, f.p, t⟩ :: up) (.join g.side color g.p f.sibling g.sibling) :=
    fun color => plug_turn ⟨g.side, .black, f.p, .join g.side color g.p f.sibling g.sibling⟩ up t
  obtain ⟨s3, run3, done3⟩ := rbSetColor_spec (below g.color ▸ done2.represents) .red
  refine ⟨s3, ?_, ?_⟩
  · rw [insertCase4Outer, rep.rbParent inhabited, ok_bind, rep.rbGrandparent inhabited, ok_bind,
      holder, holder,
      child_eq _ rep.parent_nonnull, ok_bind, turn, run1, ok_bind, run2, ok_bind, run3]
  · rw [shape]
    exact (done1.trans done2).trans (below g.color ▸ below .red ▸ done3)

theorem isChild_uncle (inhabited : t ≠ .leaf) (side : Side) :
    s.isChild side (address g.sibling) (address t) = false := by
  obtain ⟨_, _, _, _, _, _, _, _, _, _, _, beside, _⟩ := rep.surrounds
  exact beside.isChild_root (rep.nonnull inhabited)
    (fun inside => rep.apart (by simp [inside]) (address_mem inhabited)) side

theorem grandparent_child : s.child g.side g.p = .ok f.p ∧
    s.child g.side.other g.p = .ok (address g.sibling) := by
  obtain ⟨_, _, _, _, _, _, addressed, _, _, inward, outward, _, _⟩ := rep.surrounds
  rw [child_eq _ addressed.nonnull, child_eq _ addressed.nonnull, inward, outward]
  exact ⟨rfl, rfl⟩

theorem insertCase4Inner_outer (inhabited : t ≠ .leaf) (outer : f.side = g.side) :
    insertCase4Inner s (address t) f.p g.p = .ok (s, address t) := by
  obtain ⟨inward, outward⟩ := grandparent_child rep
  have uncle := isChild_uncle rep inhabited
  have parent := rep.isChild inhabited
  cases side : g.side with
  | left =>
    simp only [side, Side.other] at inward outward outer
    have different : ¬ s.isChild .right f.p (address t) = true := by simp [parent, outer]
    rw [insertCase4Inner, inward, ok_bind, outward, ok_bind, if_neg different, if_neg (by simp [uncle])]
    rfl
  | right =>
    simp only [side, Side.other] at inward outward outer
    have different : ¬ s.isChild .left f.p (address t) = true := by simp [parent, outer]
    rw [insertCase4Inner, outward, ok_bind, inward, ok_bind, if_neg (by simp [uncle]), if_neg different]
    rfl

theorem insertCase4Inner_inner (inhabited : t ≠ .leaf) (inner : f.side ≠ g.side) :
    insertCase4Inner s (address t) f.p g.p = (do
      let s ← rotate f.side s f.p
      let node ← s.child g.side (address t)
      return (s, node)) := by
  obtain ⟨inward, outward⟩ := grandparent_child rep
  have uncle := isChild_uncle rep inhabited
  have parent := rep.isChild inhabited
  have opposite := Side.eq_other_of_ne inner
  cases side : g.side with
  | left =>
    simp only [side, Side.other] at inward outward opposite
    have same : s.isChild .right f.p (address t) = true := (parent .right).mpr opposite
    rw [insertCase4Inner, inward, ok_bind, outward, ok_bind, if_pos same, opposite]
    rfl
  | right =>
    simp only [side, Side.other] at inward outward opposite
    have same : s.isChild .left f.p (address t) = true := (parent .left).mpr opposite
    rw [insertCase4Inner, outward, ok_bind, inward, ok_bind, if_neg (by simp [uncle]), if_pos same,
      opposite]
    rfl

theorem insertCase4_spec (inhabited : t ≠ .leaf) :
    ∃ s', insertCase4 s (address t) = .ok s' ∧
      Rearranged s (plug (f :: g :: up) t) s' (plug up (liftRed f g t)) := by
  have start : insertCase4 s (address t) =
      (insertCase4Inner s (address t) f.p g.p >>= fun r => insertCase4Outer r.1 r.2) := by
    rw [insertCase4, rep.rbParent inhabited, ok_bind, rep.rbGrandparent inhabited, ok_bind]
    rfl
  by_cases outer : f.side = g.side
  · obtain ⟨s', run, done⟩ := insertCase4Outer_spec rep inhabited outer
    refine ⟨s', ?_, ?_⟩
    · rw [start, insertCase4Inner_outer rep inhabited outer, ok_bind, run]
    · rwa [liftRed_outer t outer]
  · cases t with
    | leaf => exact absurd rfl inhabited
    | node color left n right =>
      let a := (ColorTree.node color left n right).child f.side
      let b := (ColorTree.node color left n right).child f.side.other
      have shape : plug (f :: g :: up) (.node color left n right) =
          plug (g :: up) (.join f.side f.color f.p (.join f.side color n a b) f.sibling) := by
        rw [plug, Frame.attach, ColorTree.node_eq_join f.side]
      obtain ⟨s1, run1, done1⟩ := rotate_spec (shape ▸ rep)
      -- the old parent is now the node, below the old node
      let f' : Frame Ptr := ⟨g.side, color, n, a⟩
      let t' : ColorTree Ptr := .join f.side f.color f.p b f.sibling
      have shape' : plug (g :: up) (.join f.side color n a (.join f.side f.color f.p b f.sibling)) =
          plug (f' :: g :: up) t' := by
        have turn : ∀ u : ColorTree Ptr, ColorTree.join f.side color n a u =
            .join g.side color n u a := fun u => by
          rw [Side.eq_other_of_ne outer, ColorTree.join_other]
        rw [turn]
        rfl
      have rep1 : Represents s1 (plug (f' :: g :: up) t') := shape' ▸ done1.represents
      have inhabited' : t' ≠ .leaf := attach_ne_leaf { f with sibling := f.sibling } b
      obtain ⟨s', run, done⟩ := insertCase4Outer_spec rep1 inhabited' rfl
      have node : s1.child g.side n = .ok (address t') := by
        rw [child_eq _ rep1.parent_nonnull]
        exact congrArg _ rep1.surrounds.2.2.2.1
      refine ⟨s', ?_, ?_⟩
      · rwa [start, insertCase4Inner_inner rep inhabited outer, run1, ok_bind, address, node]
      · rw [liftRed_inner color left n right outer, shape]
        exact (shape' ▸ done1).trans done

end

theorem insertLoop_black {fuel : Nat} (rep : Represents s (plug (f :: up) t))
    (inhabited : t ≠ .leaf) (color : f.color = .black) : insertLoop (fuel + 1) s (address t) = .ok s := by
  rw [insertLoop, rep.rbParent inhabited, ok_bind, holder, if_neg rep.parent_nonnull,
    if_pos (rep.parent_color.trans color)]
  rfl

theorem insertLoop_red {fuel : Nat} (rep : Represents s (plug (f :: g :: up) t))
    (inhabited : t ≠ .leaf) (color : f.color ≠ .black) :
    insertLoop (fuel + 1) s (address t) =
      if g.sibling.color = .red then insertCase3 s (address t) >>= fun r => insertLoop fuel r.1 r.2
      else insertCase4 s (address t) := by
  obtain ⟨_, _, _, _, _, _, _, _, _, _, _, beside, _⟩ := rep.surrounds
  rw [insertLoop, rep.rbParent inhabited, ok_bind, holder, if_neg rep.parent_nonnull,
    if_neg (rep.parent_color ▸ color), rep.rbUncle inhabited, ok_bind, rbColor_spec beside]

/-- The loop repairs the tree, given more passes than there are ancestors. -/
theorem insertLoop_spec (fuel : Nat) (rep : Represents s (plug ctx t)) (inhabited : t ≠ .leaf)
    (black : ctx ≠ [] → (plug ctx t).color = .black) (enough : ctx.length < fuel) :
    ∃ s', insertLoop fuel s (address t) = .ok s' ∧ Rearranged s (plug ctx t) s' (insertFix ctx t) := by
  obtain ⟨fuel, rfl⟩ := exists_succ_of_lt enough
  fun_induction insertFix ctx t generalizing s fuel with
  | case1 t =>
    obtain ⟨s', run, done⟩ := insertCase1_spec (t := t) rep inhabited
    refine ⟨s', ?_, done⟩
    rw [insertLoop, rep.rbParent inhabited, ok_bind, holder, if_pos rfl, run]
  | case2 f t =>
    have color : f.color = .black := by simpa [plug, Frame.attach] using black (by simp)
    exact ⟨s, insertLoop_black rep inhabited color, .refl rep⟩
  | case3 f g up t color => exact ⟨s, insertLoop_black rep inhabited color, .refl rep⟩
  | case4 f g up t color uncle ih =>
    obtain ⟨s1, run1, done1⟩ := insertCase3_spec rep inhabited uncle
    simp only [List.length_cons] at enough
    obtain ⟨fuel, rfl⟩ := Nat.exists_eq_add_one_of_ne_zero (by omega : fuel ≠ 0)
    have black' : up ≠ [] → (plug up (.join g.side .red g.p (.join f.side .black f.p t f.sibling)
        (g.sibling.paint .black))).color = .black := by
      intro inside
      obtain ⟨h, rest, rfl⟩ := List.exists_cons_of_ne_nil inside
      exact (color_plug_cons h rest _ _).trans (black (by simp))
    have inhabited' :=
      attach_ne_leaf ⟨g.side, .red, g.p, g.sibling.paint .black⟩ (.join f.side .black f.p t f.sibling)
    obtain ⟨s2, run2, done2⟩ := ih done1.represents inhabited' black' fuel (by omega)
    refine ⟨s2, ?_, done1.trans done2⟩
    rw [insertLoop_red rep inhabited color, if_pos uncle, run1, ok_bind]
    rwa [address_join] at run2
  | case5 f g up t color uncle =>
    obtain ⟨s', run, done⟩ := insertCase4_spec rep inhabited
    refine ⟨s', ?_, done⟩
    rw [insertLoop_red rep inhabited color, if_neg uncle, run]

end Repair

section Insert
variable {n : Ptr}

theorem Represents.size_lt (rep : Represents s t) : t.inorder.length < 2 ^ 64 := by
  have fresh : 0#64 ∉ t.inorder := fun inside => (rep.holds.address_of_mem inside).nonnull rfl
  have distinct : ((0#64 :: t.inorder).map BitVec.toFin).Nodup :=
    (List.nodup_cons.mpr ⟨fresh, rep.distinct⟩).map fun _ _ => BitVec.eq_of_toFin_eq
  have bound := distinct.length_le_card
  simp only [List.map_cons, List.length_cons, List.length_map, Fintype.card_fin] at bound
  exact bound

theorem length_le_around (ctx : Context Ptr) : ctx.length ≤ ctx.around.length := by
  induction ctx with
  | nil => simp
  | cons f up ih =>
    cases side : f.side <;>
      simp only [Context.around, Context.before, Context.after, side, List.length_append,
        List.length_cons] at ih ⊢ <;>
      omega

theorem Represents.depth_lt (rep : Represents s (plug ctx t)) : ctx.length + 2 < passes := by
  have bound := rep.size_lt
  have depth := length_le_around ctx
  rw [inorder_plug] at bound
  simp only [Context.around, List.length_append] at bound depth
  unfold passes
  omega

/-- Inserting a red node that has just been linked. The cached leftmost node is
replaced if the caller says so and the node has no left child in the repaired tree. -/
theorem rbInsert_spec (rep : Represents s (plug ctx (.join .left .red n .leaf .leaf)))
    (black : ctx ≠ [] → (plug ctx (.join .left .red n .leaf .leaf)).color = .black) (mostLeft : Bool) :
    ∃ s', rbInsert s n mostLeft = .ok s' ∧ Represents s' (insertFix ctx (.join .left .red n .leaf .leaf)) ∧
      s'.tree.mostLeft = (if mostLeft ∧ (s'.mem n).left = 0#64 then n else s.tree.mostLeft) ∧
      ∀ p, p ∉ (plug ctx (.join .left .red n .leaf .leaf)).inorder → s'.mem p = s.mem p := by
  have inhabited := attach_ne_leaf ⟨.left, .red, n, .leaf⟩ .leaf
  have nonnull := rep.nonnull inhabited
  obtain ⟨s1, run, done⟩ := insertLoop_spec passes rep inhabited black (Nat.lt_of_add_right_lt rep.depth_lt)
  rw [address_join] at nonnull run
  have kept := done.touches.mostLeft
  cases mostLeft with
  | false =>
    refine ⟨s1, ?_, done.represents, by simp [kept], done.touches.elsewhere⟩
    rw [rbInsert, if_neg nonnull, run]
    rfl
  | true =>
    by_cases left : (s1.mem n).left = 0#64
    · refine ⟨s1.setMostLeft n, ?_,
        ⟨done.represents.holds, done.represents.root, done.represents.distinct⟩, ?_,
        done.touches.elsewhere⟩
      · rw [rbInsert, if_neg nonnull, run]
        simp [child_eq, nonnull, RbNode.child, left]
        rfl
      · simp [RbState.setMostLeft, left]
    · refine ⟨s1, ?_, done.represents, by simp [kept, left], done.touches.elsewhere⟩
      rw [rbInsert, if_neg nonnull, run]
      simp [child_eq, nonnull, RbNode.child, left]
      rfl

end Insert

end ByteOS.Ds
