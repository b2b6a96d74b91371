import ByteOS.Ds.RbHeap

/-! The elementary steps on a represented tree: reading and writing nodes,
relinking a hole, rotating and recolouring. -/

set_option autoImplicit false

namespace ByteOS.Ds

open Lib Mm
open ColorTree (inorder mem_join)

variable {s s' : RbState} {ctx : Context Ptr} {p q parent : Ptr}

section Access

@[simp] theorem put_same (n : RbNode) : (s.put p n).mem p = n := by
  simp [RbState.put]

@[simp] theorem put_put (n n' : RbNode) : (s.put p n).put p n' = s.put p n' := by
  simp [RbState.put]

theorem put_other (n : RbNode) (different : q ≠ p) : (s.put p n).mem q = s.mem q := by
  simp [RbState.put, different]

@[simp] theorem setRoot_root : (s.setRoot p).tree.root = p := rfl

@[simp] theorem setRoot_mostLeft : (s.setRoot p).tree.mostLeft = s.tree.mostLeft := rfl

theorem child_eq (side : Side) (nonnull : p ≠ 0#64) : s.child side p = .ok ((s.mem p).child side) :=
  if_neg nonnull

theorem setChild_eq (side : Side) (nonnull : p ≠ 0#64) :
    s.setChild side p q = .ok (s.put p ((s.mem p).setChild side q)) :=
  if_neg nonnull

theorem rbParent_eq (nonnull : p ≠ 0#64) : rbParent s p = .ok (s.mem p).parent := if_neg nonnull

theorem rbSetParent_eq (nonnull : p ≠ 0#64) : rbSetParent s p q = .ok (s.put p ((s.mem p).setParent q)) :=
  if_neg nonnull

theorem rbSetColor_eq (color : Color) (nonnull : p ≠ 0#64) :
    rbSetColor s p color = .ok (s.put p ((s.mem p).setColor color)) :=
  if_neg nonnull

theorem rbColor_eq (nonnull : p ≠ 0#64) : rbColor s p = (s.mem p).color := if_neg nonnull

theorem isChild_eq (side : Side) (nonnull : p ≠ 0#64) :
    s.isChild side p q = true ↔ q = (s.mem p).child side := by
  simp [RbState.isChild, nonnull]

theorem Touches.put {nodes : List Ptr} (inside : p ∈ nodes) (n : RbNode) : Touches s (s.put p n) nodes where
  mostLeft := rfl
  elsewhere _ outside := put_other n fun same => outside (same ▸ inside)

theorem Holds.put {t : ColorTree Ptr} (holds : Holds s.mem parent t) (outside : p ∉ t.inorder)
    (n : RbNode) : Holds (s.put p n).mem parent t :=
  holds.congr fun _ inside => put_other n fun same => outside (same ▸ inside)

theorem Surrounds.put {root top : Ptr} (around : Surrounds s.mem root ctx top)
    (outside : p ∉ ctx.around) (n : RbNode) : Surrounds (s.put p n).mem root ctx top :=
  around.congr fun _ inside => put_other n fun same => outside (same ▸ inside)

end Access

section Relinking

variable {t : ColorTree Ptr} {parent x y : Ptr}

theorem address_ne (nonnull : p ≠ 0#64) (outside : p ∉ t.inorder) : address t ≠ p := by
  cases t with
  | leaf => exact nonnull.symm
  | node color left q right => exact fun same => outside (by simp [← same, address, inorder])

theorem adopt_spec (holds : Holds s.mem p t) (distinct : t.inorder.Nodup)
    (aligned : parent &&& 1#64 = 0#64) :
    ∃ s', adopt s (address t) parent = .ok s' ∧ s'.tree = s.tree ∧ Holds s'.mem parent t ∧
      Touches s s' t.inorder := by
  cases t with
  | leaf => exact ⟨s, by simp [adopt, address], rfl, trivial, .refl s _⟩
  | node color left q right =>
    obtain ⟨addressed, above, painted, leftward, rightward, below, below'⟩ := holds
    have adopted : adopt s q parent = .ok (s.put q ((s.mem q).setParent parent)) := by
      rw [adopt, if_pos addressed.nonnull, rbSetParent_eq addressed.nonnull]
    refine ⟨_, adopted, rfl, ?_, .put (by simp [inorder]) _⟩
    simp only [inorder, List.nodup_append', List.nodup_cons, List.disjoint_cons_right] at distinct
    refine ⟨addressed, ?_, ?_, ?_, ?_, below.put distinct.2.2.1 _, below'.put distinct.2.1.1 _⟩
    · rw [put_same, RbNode.parent_setParent _ aligned]
    · rw [put_same, RbNode.color_setParent _ aligned, painted]
    · rwa [put_same]
    · rwa [put_same]

def linkOf : Context Ptr → Link
  | [] => .root
  | f :: _ => .child f.side f.p

theorem writeLink_spec (around : Surrounds s.mem s.tree.root ctx x) (distinct : ctx.around.Nodup) :
    ∃ s', s.writeLink y (linkOf ctx) = .ok s' ∧ Surrounds s'.mem s'.tree.root ctx y ∧
      Touches s s' ctx.around := by
  cases ctx with
  | nil => exact ⟨s.setRoot y, rfl, rfl, ⟨rfl, fun _ _ => rfl⟩⟩
  | cons f up =>
    obtain ⟨addressed, above, painted, inward, outward, beside, upward⟩ := around
    obtain ⟨apart, apart'⟩ := Context.nodup_around_cons distinct
    refine ⟨_, setChild_eq f.side addressed.nonnull, ⟨addressed, ?_, ?_, ?_, ?_, beside.put apart _,
      upward.put apart' _⟩, .put (by simp) _⟩
    · simp [above]
    · simp [painted]
    · simp
    · simp [outward]

theorem Holds.isChild_root (holds : Holds s.mem parent t) (nonnull : q ≠ 0#64)
    (outside : q ∉ t.inorder) (side : Side) : s.isChild side (address t) q = false := by
  cases t with
  | leaf => simp [RbState.isChild, address]
  | node color left p right =>
    obtain ⟨addressed, _, _, leftward, rightward, _, _⟩ := holds
    simp only [inorder, List.mem_append, List.mem_cons, not_or] at outside
    have different : q ≠ (s.mem p).child side := by
      cases side with
      | left => exact fun same => address_ne nonnull outside.1 (leftward.symm.trans same.symm)
      | right => exact fun same => address_ne nonnull outside.2.2 (rightward.symm.trans same.symm)
    exact Bool.eq_false_iff.mpr (mt (isChild_eq side addressed.nonnull).mp different)

/-- The link that leads to a hole is found by comparing, since the sibling is another tree. -/
theorem isChild_iff {f : Frame Ptr} {up : Context Ptr}
    (around : Surrounds s.mem s.tree.root (f :: up) x) (nonnull : x ≠ 0#64)
    (outside : x ∉ f.sibling.inorder) (side : Side) : s.isChild side f.p x = true ↔ f.side = side := by
  obtain ⟨addressed, _, _, inward, outward, _, _⟩ := around
  rw [isChild_eq side addressed.nonnull]
  by_cases here : f.side = side
  · simpa [here] using (here ▸ inward).symm
  · have there : side = f.side.other := Side.eq_other_of_ne (Ne.symm here)
    rw [there, outward]
    exact iff_of_false (address_ne nonnull outside).symm (Side.other_ne f.side).symm

theorem relink_eq (around : Surrounds s.mem s.tree.root ctx x) (nonnull : x ≠ 0#64)
    (outside : x ∉ ctx.around) : relink s x (holder ctx) y = s.writeLink y (linkOf ctx) := by
  cases ctx with
  | nil => exact if_pos rfl
  | cons f up =>
    simp only [Context.mem_around_cons, not_or] at outside
    have left := isChild_iff around nonnull outside.2.1 .left
    rw [relink, holder, if_neg around.1.nonnull, linkOf, RbState.writeLink]
    cases side : f.side with
    | left => rw [if_pos (left.mpr side)]
    | right => rw [if_neg (by simp [left, side])]

end Relinking

section Rotation

theorem rotateTo_eq (side : Side) : rotateTo side = rotate side.other := by
  cases side <;> rfl

variable {side : Side} {cx cy : Color} {x y : Ptr} {a b c : ColorTree Ptr}

theorem rotate_spec (rep : Represents s (plug ctx (.join side cx x (.join side cy y a b) c))) :
    ∃ s', rotate side s x = .ok s' ∧ Rearranged s (plug ctx (.join side cx x (.join side cy y a b) c)) s'
      (plug ctx (.join side cy y a (.join side cx x b c))) := by
  have around := rep.surrounds
  rw [address_join] at around
  obtain ⟨addressX, parentX, colorX, childX, otherX, holdsY, holdsC⟩ := holds_join.mp rep.inside
  obtain ⟨addressY, parentY, colorY, childY, otherY, holdsA, holdsB⟩ := holds_join.mp holdsY
  obtain ⟨distinctCtx, distinct, apart⟩ := nodup_plug.mp rep.distinct
  obtain ⟨outY, outC, distinctY, _, apartYC⟩ := ColorTree.nodup_join.mp distinct
  obtain ⟨outA, outB, _, distinctB, apartAB⟩ := ColorTree.nodup_join.mp distinctY
  simp only [mem_join, not_or] at outY
  rw [address_join] at childX
  have outsideX : x ∉ ctx.around := fun inside => apart inside (by simp)
  have outsideY : y ∉ ctx.around := fun inside => apart inside (by simp)
  -- the inner subtree moves to `x`
  let s1 := s.put x ((s.mem x).setChild side (address b))
  have frame1 : ∀ p, p ≠ x → s1.mem p = s.mem p := fun p => put_other _
  obtain ⟨s2, adopted, tree2, holdsB2, touches2⟩ :=
    adopt_spec (s := s1) (holdsB.put outY.2.2 _) distinctB addressX.aligned
  have memX2 : s2.mem x = (s.mem x).setChild side (address b) := by
    rw [touches2.elsewhere x outY.2.2, put_same]
  have memY2 : s2.mem y = s.mem y := by rw [touches2.elsewhere y outB, frame1 y (Ne.symm outY.1)]
  let s3 := s2.put y ((s2.mem y).setParent (holder ctx))
  have frame3 : ∀ p, p ≠ y → s3.mem p = s2.mem p := fun p => put_other _
  have frame : ∀ p, p ≠ x → p ≠ y → p ∉ b.inorder → s3.mem p = s.mem p := fun p notX notY outside => by
    rw [frame3 p notY, touches2.elsewhere p outside, frame1 p notX]
  have around3 : Surrounds s3.mem s3.tree.root ctx x := by
    have root : s3.tree.root = s.tree.root := congrArg Rbtree.root tree2
    rw [root]
    refine around.congr fun p inside => frame p ?_ ?_ ?_
    · exact fun same => outsideX (same ▸ inside)
    · exact fun same => outsideY (same ▸ inside)
    · exact fun inside' => apart inside (by simp [inside'])
  obtain ⟨s4, linked, around4, touches4⟩ := writeLink_spec (y := y) around3 distinctCtx
  rw [← relink_eq around3 addressX.nonnull outsideX] at linked
  let s5 := s4.put y ((s4.mem y).setChild side.other x)
  let s6 := s5.put x ((s5.mem x).setParent y)
  have run : rotate side s x = .ok s6 := by
    rw [rotate, child_eq _ addressX.nonnull, childX, ok_bind, child_eq _ addressY.nonnull, otherY, ok_bind,
      setChild_eq _ addressX.nonnull, ok_bind, adopted, ok_bind, rbParent_eq addressX.nonnull,
      ok_bind, memX2,
      RbNode.parent_setChild, parentX, rbSetParent_eq addressY.nonnull, ok_bind, linked, ok_bind,
      setChild_eq _ addressY.nonnull, ok_bind, rbSetParent_eq addressX.nonnull]
  have frame6 : ∀ p, p ≠ x → p ≠ y → s6.mem p = s4.mem p := fun p notX notY =>
    (put_other _ notX).trans (put_other _ notY)
  have memX : s6.mem x = ((s.mem x).setChild side (address b)).setParent y := by
    rw [put_same, put_other _ outY.1, touches4.elsewhere x outsideX, frame3 x outY.1, memX2]
  have memY : s6.mem y = ((s.mem y).setParent (holder ctx)).setChild side.other x := by
    rw [put_other _ (Ne.symm outY.1), put_same, touches4.elsewhere y outsideY, put_same, memY2]
  have aligned := around.holder_aligned
  have held : ∀ p ∈ (ColorTree.join side cx x (.join side cy y a b) c).inorder, p ∉ ctx.around :=
    fun p inside outside => apart outside inside
  simp only [mem_join] at held
  have newX : Holds s6.mem y (.join side cx x b c) := by
    refine holds_join.mpr ⟨addressX, ?_, ?_, ?_, ?_, ?_, ?_⟩
    · rw [memX, RbNode.parent_setParent _ addressY.aligned]
    · rw [memX, RbNode.color_setParent _ addressY.aligned, RbNode.color_setChild, colorX]
    · simp [memX]
    · simp [memX, otherX]
    · refine holdsB2.congr fun p inside => ?_
      have notX : p ≠ x := fun same => outY.2.2 (same ▸ inside)
      have notY : p ≠ y := fun same => outB (same ▸ inside)
      rw [frame6 p notX notY, touches4.elsewhere p (held p (by simp [inside])), frame3 p notY]
    · refine holdsC.congr fun p inside => ?_
      have notX : p ≠ x := fun same => outC (same ▸ inside)
      have notY : p ≠ y := fun same => apartYC (by simp [same]) inside
      have outside : p ∉ b.inorder := fun inside' => apartYC (by simp [inside']) inside
      rw [frame6 p notX notY, touches4.elsewhere p (held p (by simp [inside])), frame p notX notY outside]
  have newY : Holds s6.mem (holder ctx) (.join side cy y a (.join side cx x b c)) := by
    refine holds_join.mpr ⟨addressY, ?_, ?_, ?_, ?_, ?_, newX⟩
    · rw [memY, RbNode.parent_setChild, RbNode.parent_setParent _ aligned]
    · rw [memY, RbNode.color_setChild, RbNode.color_setParent _ aligned, colorY]
    · simp [memY, childY]
    · simp [memY]
    · refine holdsA.congr fun p inside => ?_
      have notX : p ≠ x := fun same => outY.2.1 (same ▸ inside)
      have notY : p ≠ y := fun same => outA (same ▸ inside)
      rw [frame6 p notX notY, touches4.elsewhere p (held p (by simp [inside])),
        frame p notX notY (apartAB inside)]
  have order := inorder_plug_congr ctx (ColorTree.inorder_rotate side cx cy cx cy x y a b c)
  refine ⟨s6, run, represents_plug ?_ newY (order ▸ rep.distinct), ?_, order⟩
  · rw [address_join]
    refine around4.congr fun p inside => frame6 p ?_ ?_
    · exact fun same => outsideX (same ▸ inside)
    · exact fun same => outsideY (same ▸ inside)
  · have mostLeft : s6.tree.mostLeft = s.tree.mostLeft :=
      touches4.mostLeft.trans (congrArg Rbtree.mostLeft tree2)
    refine ⟨mostLeft, fun p outside => ?_⟩
    simp only [mem_plug, mem_join, not_or] at outside
    rw [frame6 p outside.2.1 outside.2.2.1.1, touches4.elsewhere p outside.1,
      frame p outside.2.1 outside.2.2.1.1 outside.2.2.1.2.2]

end Rotation

section Colour
variable {t : ColorTree Ptr} {parent : Ptr}

theorem rbColor_spec (holds : Holds s.mem parent t) : rbColor s (address t) = t.color := by
  cases t with
  | leaf => rfl
  | node color left p right => exact (rbColor_eq holds.1.nonnull).trans holds.2.2.1

theorem Represents.color (rep : Represents s (plug ctx t)) : rbColor s (address t) = t.color :=
  rbColor_spec rep.inside

theorem paintNonNull_spec (rep : Represents s (plug ctx t)) (color : Color) :
    ∃ s', paintNonNull s (address t) color = .ok s' ∧
      Rearranged s (plug ctx t) s' (plug ctx (t.paint color)) := by
  cases t with
  | leaf => exact ⟨s, by simp [paintNonNull, address], .refl rep⟩
  | node old left p right =>
    have around := rep.surrounds
    obtain ⟨addressed, above, painted, leftward, rightward, below, below'⟩ := rep.inside
    obtain ⟨_, distinct, apart⟩ := nodup_plug.mp rep.distinct
    have inside : p ∈ (ColorTree.node old left p right).inorder := by simp [inorder]
    simp only [inorder, List.nodup_append', List.nodup_cons, List.disjoint_cons_right] at distinct
    have run : paintNonNull s p color = .ok (s.put p ((s.mem p).setColor color)) := by
      rw [paintNonNull, if_pos addressed.nonnull, rbSetColor_eq color addressed.nonnull]
    have order := inorder_plug_congr ctx (ColorTree.inorder_paint color (.node old left p right))
    refine ⟨_, run, represents_plug (around.put (fun outside => apart outside inside) _)
      ⟨addressed, ?_, ?_, ?_, ?_,
      below.put distinct.2.2.1 _, below'.put distinct.2.1.1 _⟩ (order ▸ rep.distinct),
      .put (mem_plug.mpr (.inr inside)) _, order⟩
    · rw [put_same, RbNode.parent_setColor, above]
    · rw [put_same, RbNode.color_setColor]
    · rw [put_same]
      exact (RbNode.child_setColor _ .left color).trans leftward
    · rw [put_same]
      exact (RbNode.child_setColor _ .right color).trans rightward

theorem rbSetColor_spec {side : Side} {old : Color} {inner outer : ColorTree Ptr}
    (rep : Represents s (plug ctx (.join side old p inner outer))) (color : Color) :
    ∃ s', rbSetColor s p color = .ok s' ∧ Rearranged s (plug ctx (.join side old p inner outer)) s'
      (plug ctx (.join side color p inner outer)) := by
  obtain ⟨s', run, done⟩ := paintNonNull_spec rep color
  rw [address_join, paintNonNull, if_pos (holds_join.mp rep.inside).1.nonnull] at run
  rw [ColorTree.paint_join] at done
  exact ⟨s', run, done⟩

end Colour

section Relatives
variable {up : Context Ptr} {f g : Frame Ptr} {t : ColorTree Ptr}

theorem Holds.child {color : Color} {left right : ColorTree Ptr}
    (holds : Holds s.mem parent (.node color left p right)) (side : Side) :
    s.child side p = .ok (address ((ColorTree.node color left p right).child side)) := by
  obtain ⟨addressed, _, _, leftward, rightward, _, _⟩ := holds
  rw [child_eq side addressed.nonnull]
  cases side with
  | left => exact congrArg _ leftward
  | right => exact congrArg _ rightward

theorem address_mem (inhabited : t ≠ .leaf) : address t ∈ t.inorder := by
  cases t with
  | leaf => exact absurd rfl inhabited
  | node color left p right => simp [address, inorder]

theorem Represents.nonnull (rep : Represents s (plug ctx t)) (inhabited : t ≠ .leaf) : address t ≠ 0#64 :=
  mt rep.inside.address_eq_null.mp inhabited

theorem Represents.rbParent (rep : Represents s (plug ctx t)) (inhabited : t ≠ .leaf) :
    rbParent s (address t) = .ok (holder ctx) := by
  rw [rbParent_eq (rep.nonnull inhabited)]
  cases t with
  | leaf => exact absurd rfl inhabited
  | node color left p right => exact congrArg _ rep.inside.2.1

theorem attach_ne_leaf (f : Frame Ptr) (t : ColorTree Ptr) : f.attach t ≠ .leaf := by
  unfold Frame.attach ColorTree.join
  split <;> simp

section

variable (rep : Represents s (plug (f :: up) t))
include rep

theorem Represents.parent_nonnull : f.p ≠ 0#64 := rep.surrounds.1.nonnull

theorem Represents.parent_color : rbColor s f.p = f.color :=
  (rbColor_eq rep.parent_nonnull).trans rep.surrounds.2.2.1

theorem Represents.isChild (inhabited : t ≠ .leaf) (side : Side) :
    s.isChild side f.p (address t) = true ↔ f.side = side :=
  isChild_iff rep.surrounds (rep.nonnull inhabited)
    (fun inside => rep.apart (by simp [inside]) (address_mem inhabited)) side

theorem Represents.rbGrandparent (inhabited : t ≠ .leaf) :
    rbGrandparent s (address t) = .ok (holder up) := by
  have above : Represents s (plug up (f.attach t)) := rep
  have parent := above.rbParent (attach_ne_leaf f t)
  rw [Frame.attach, address_join] at parent
  rw [Ds.rbGrandparent, rep.rbParent inhabited, ok_bind, holder, if_neg rep.parent_nonnull, parent]

theorem Represents.rbSibling (inhabited : t ≠ .leaf) :
    rbSibling s (address t) = .ok (address f.sibling) := by
  have side := rep.isChild inhabited .left
  have outward := rep.surrounds.2.2.2.2.1
  rw [Ds.rbSibling, rep.rbParent inhabited, ok_bind, holder, if_neg rep.parent_nonnull]
  cases where_ : f.side with
  | left =>
    rw [if_pos (side.mpr where_), child_eq _ rep.parent_nonnull]
    rw [where_] at outward
    exact congrArg _ outward
  | right =>
    rw [if_neg (by simp [side, where_]), child_eq _ rep.parent_nonnull]
    rw [where_] at outward
    exact congrArg _ outward

end

theorem Represents.rbUncle (rep : Represents s (plug (f :: g :: up) t)) (inhabited : t ≠ .leaf) :
    rbUncle s (address t) = .ok (address g.sibling) := by
  have above : Represents s (plug (g :: up) (f.attach t)) := rep
  have sibling := above.rbSibling (attach_ne_leaf f t)
  rw [Frame.attach, address_join] at sibling
  rw [Ds.rbUncle, rep.rbParent inhabited, ok_bind, rep.rbGrandparent inhabited, ok_bind, holder,
    if_neg above.parent_nonnull]
  exact sibling

end Relatives

end ByteOS.Ds
