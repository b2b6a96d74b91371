import ByteOS.Lib.Zipper

/-! Red-black insertion and deletion on zippers.

The functions follow the loops of the imperative algorithm: each takes the place
that the loop has climbed to, and works on the whole tree that this place is part
of. They change colours and shape only; the order of the nodes stays.
-/

set_option autoImplicit false

namespace ByteOS.Lib

open ColorTree Context

variable {P : Type}

namespace RedBlack

/-- The two rotations that end an insertion: `t` is red below the red `f.p`, whose
parent `g.p` has a black sibling on the other side. -/
def liftRed (f g : Frame P) (t : ColorTree P) : ColorTree P :=
  if f.side = g.side then
    join g.side .black f.p t (join g.side .red g.p f.sibling g.sibling)
  else match t with
    | leaf => g.attach (f.attach leaf)
    | node color left n right =>
      let inner := (node color left n right).child f.side
      let outer := (node color left n right).child f.side.other
      join g.side .black n (join f.side f.color f.p outer f.sibling) (join g.side .red g.p inner g.sibling)

variable {f g : Frame P}

theorem liftRed_outer (t : ColorTree P) (outer : f.side = g.side) :
    liftRed f g t = join g.side .black f.p t (join g.side .red g.p f.sibling g.sibling) := by
  unfold liftRed
  exact if_pos outer

theorem liftRed_inner (color : Color) (left : ColorTree P) (n : P) (right : ColorTree P)
    (inner : f.side ≠ g.side) :
    liftRed f g (node color left n right) =
      join g.side .black n
      (join f.side f.color f.p ((node color left n right).child f.side.other) f.sibling)
        (join g.side .red g.p ((node color left n right).child f.side) g.sibling) := by
  unfold liftRed
  exact if_neg inner

/-- Repair the tree around a red node `t` that may have a red parent. -/
def insertFix : Context P → ColorTree P → ColorTree P
  | [], t => t.paint .black
  | [f], t => f.attach t
  | f :: g :: up, t =>
    if f.color = .black then plug (f :: g :: up) t
    else if g.sibling.color = .red then
      insertFix up (join g.side .red g.p (join f.side .black f.p t f.sibling) (g.sibling.paint .black))
    else plug up (liftRed f g t)

def BlackChildren (w : ColorTree P) : Prop :=
  (w.child .left).color = .black ∧ (w.child .right).color = .black

instance (w : ColorTree P) : Decidable (BlackChildren w) := inferInstanceAs (Decidable (_ ∧ _))

/-- A sibling whose red child is on the near side: rotate it so that the red one is far. -/
def turnSibling (side : Side) (w : ColorTree P) : ColorTree P :=
  if (w.child side.other).color = .black then
    match w, w.child side with
    | node _ left p right, node color left' n right' =>
      join side .black n ((node color left' n right').child side)
        (join side .red p ((node color left' n right').child side.other)
          ((node .red left p right).child side.other))
    | w, _ => w
  else w

/-- Rotate the sibling over the parent `f.p`, so that the missing black is made up for. -/
def liftSibling (f : Frame P) (x w : ColorTree P) : ColorTree P :=
  match w with
  | leaf => join f.side f.color f.p x leaf
  | node color left p right =>
    join f.side f.color p (join f.side .black f.p x ((node color left p right).child f.side))
      (((node color left p right).child f.side.other).paint .black)

section Shape
variable {side : Side} {cw cn : Color} {w n : P} {near far a b : ColorTree P}

theorem blackChildren_join : BlackChildren (join side cw w near far) ↔ near.color = .black ∧
    far.color = .black := by
  cases side with
  | left => rfl
  | right => exact and_comm

theorem turnSibling_far (red : far.color ≠ .black) :
    turnSibling side (join side cw w near far) = join side cw w near far := by
  unfold turnSibling
  rw [child_other_join, if_neg red]

theorem turnSibling_near (black : far.color = .black) :
    turnSibling side (join side cw w (join side cn n a b) far) =
      join side .black n a (join side .red w b far) := by
  unfold turnSibling
  rw [child_other_join, if_pos black, child_join]
  cases side <;> rfl

theorem liftSibling_join (f : Frame P) (x : ColorTree P) :
    liftSibling f x (join f.side cw w near far) =
      join f.side f.color w (join f.side .black f.p x near) (far.paint .black) := by
  cases side : f.side <;> simp [liftSibling, join, ColorTree.child, Side.other, side]

end Shape

/-- Repair the tree around `x`, whose paths lack one black node. -/
def rebalance : Context P → ColorTree P → ColorTree P
  | [], x => x.paint .black
  | f :: up, x =>
    if x.color = .red then plug (f :: up) (x.paint .black)
    else match f.sibling with
      | node .red left w right =>
        let near := (node .red left w right).child f.side
        let far := (node .red left w right).child f.side.other
        let above : Frame P := ⟨f.side, .black, w, far⟩
        if BlackChildren near then
          plug (above :: up) (join f.side .black f.p x (near.paint .red))
        else
          (plug (above :: up) (liftSibling ⟨f.side, .red, f.p, near⟩ x
            (turnSibling f.side near))).paint .black
      | w =>
        if BlackChildren w then rebalance up (join f.side f.color f.p x (w.paint .red))
        else (plug up (liftSibling f x (turnSibling f.side w))).paint .black

section Cases
variable {f : Frame P} {up : Context P} {x near far : ColorTree P} {w : P}

theorem rebalance_red (red : x.color = .red) : rebalance (f :: up) x = plug (f :: up) (x.paint .black) := by
  rw [rebalance, if_pos red]

theorem rebalance_redSibling (black : x.color ≠ .red)
    (sibling : f.sibling = join f.side .red w near far) : rebalance (f :: up) x =
      if BlackChildren near then plug (⟨f.side, .black, w, far⟩ :: up)
      (join f.side .black f.p x (near.paint .red))
      else (plug (⟨f.side, .black, w, far⟩ :: up)
        (liftSibling ⟨f.side, .red, f.p, near⟩ x (turnSibling f.side near))).paint .black := by
  cases side : f.side <;> simp [rebalance, black, sibling, side, join, ColorTree.child, Side.other]

theorem rebalance_blackSibling (black : x.color ≠ .red) (sibling : f.sibling.color ≠ .red) :
    rebalance (f :: up) x =
      if BlackChildren f.sibling then rebalance up (join f.side f.color f.p x (f.sibling.paint .red))
      else (plug up (liftSibling f x (turnSibling f.side f.sibling))).paint .black := by
  rw [rebalance, if_neg black]
  split
  case h_1 left w right shape => exact absurd (congrArg ColorTree.color shape) sibling
  case h_2 => rfl

end Cases

/-- The place and the parts of the last node of a tree with this root. -/
def lastNode (up : Context P) (color : Color) (left : ColorTree P) (p : P) :
    ColorTree P → Context P × Color × ColorTree P × P
  | leaf => (up, color, left, p)
  | node color' left' p' right' => lastNode (⟨.right, color, p, left⟩ :: up) color' left' p' right'

/-- Close the gap that a node of the given colour leaves, with `x` in its place. -/
def closeGap (color : Color) (ctx : Context P) (x : ColorTree P) : ColorTree P :=
  if color = .black then rebalance ctx x else plug ctx x

/-- Remove the node between `left` and `right`; its predecessor takes its place if
both are inhabited. -/
def erase (ctx : Context P) (color : Color) (left right : ColorTree P) : ColorTree P :=
  match left, right with
  | leaf, right => closeGap color ctx right
  | left, leaf => closeGap color ctx left
  | node color' left' p' right', right =>
    let last := lastNode [] color' left' p' right'
    closeGap last.2.1 (last.1 ++ ⟨.left, color, last.2.2.2, right⟩ :: ctx) last.2.2.1

section Order

theorem inorder_liftRed (f g : Frame P) (t : ColorTree P) :
    (liftRed f g t).inorder = (g.attach (f.attach t)).inorder := by
  unfold liftRed
  split
  case isTrue same => simp only [Frame.attach, same, inorder_rotate g.side g.color f.color]
  case isFalse different =>
    split
    case h_1 => rfl
    case h_2 color left n right =>
      cases first : f.side <;> cases second : g.side <;>
        simp_all [Frame.attach, join, ColorTree.child, Side.other, inorder]

theorem inorder_insertFix (ctx : Context P) (t : ColorTree P) :
    (insertFix ctx t).inorder = (plug ctx t).inorder := by
  fun_induction insertFix ctx t with
  | case1 t => simp [plug]
  | case2 f t => rfl
  | case3 f g up t _ => rfl
  | case4 f g up t _ _ ih =>
    rw [ih]
    exact inorder_plug_congr up (inorder_join_congr _ _ _ _ (inorder_join_congr _ _ _ _ rfl rfl) (by simp))
  | case5 f g up t _ _ => exact inorder_plug_congr up (inorder_liftRed f g t)

theorem inorder_turnSibling (side : Side) (w : ColorTree P) : (turnSibling side w).inorder = w.inorder := by
  unfold turnSibling
  split
  case isTrue =>
    split
    case h_1 w' color left p right color' left' n right' inner =>
      cases side <;> simp_all [join, ColorTree.child, Side.other, inorder]
    case h_2 => rfl
  case isFalse => rfl

theorem inorder_liftSibling (f : Frame P) (x w : ColorTree P) :
    (liftSibling f x w).inorder = (join f.side f.color f.p x w).inorder := by
  cases w with
  | leaf => rfl
  | node color left p right =>
    cases side : f.side <;> simp [liftSibling, join, ColorTree.child, Side.other, inorder, side]

theorem inorder_liftSibling_turn (f : Frame P) (x w : ColorTree P) :
    (liftSibling f x (turnSibling f.side w)).inorder = (join f.side f.color f.p x w).inorder := by
  rw [inorder_liftSibling]
  exact inorder_join_congr _ _ _ _ rfl (inorder_turnSibling f.side w)

theorem inorder_raise (f : Frame P) (x : ColorTree P) {color : Color} {left right : ColorTree P}
    {w : P} (sibling : f.sibling = node color left w right) (color' : Color) :
    (join f.side color' w (join f.side .red f.p x (f.sibling.child f.side))
      (f.sibling.child f.side.other)).inorder =
      (f.attach x).inorder := by
  rw [← inorder_rotate f.side color' .red color f.color, Frame.attach, sibling, ← node_eq_join]

theorem inorder_rebalance (ctx : Context P) (x : ColorTree P) :
    (rebalance ctx x).inorder = (plug ctx x).inorder := by
  fun_induction rebalance ctx x with
  | case1 x => simp [plug]
  | case2 f up x _ => exact inorder_plug_congr (f :: up) (inorder_paint _ _)
  | case3 f up x _ left w right sibling near far above _ =>
    apply inorder_plug_congr up
    rw [← inorder_raise f x sibling .black, sibling]
    exact inorder_join_congr _ _ _ _ (inorder_join_congr _ _ _ _ rfl (inorder_paint _ _)) rfl
  | case4 f up x _ left w right sibling near far above _ =>
    rw [inorder_paint]
    apply inorder_plug_congr up
    rw [← inorder_raise f x sibling .black, sibling]
    exact inorder_join_congr _ _ _ _ (inorder_liftSibling_turn ⟨f.side, .red, f.p, near⟩ x near) rfl
  | case5 f up x _ _ _ ih =>
    rw [ih]
    exact inorder_plug_congr up (inorder_join_congr _ _ _ _ rfl (inorder_paint _ _))
  | case6 f up x _ _ _ =>
    rw [inorder_paint]
    exact inorder_plug_congr up (inorder_liftSibling_turn f x f.sibling)

theorem plug_lastNode (up : Context P) (color : Color) (left : ColorTree P) (p : P)
    (right : ColorTree P) : plug (lastNode up color left p right).1
        (node (lastNode up color left p right).2.1 (lastNode up color left p right).2.2.1
          (lastNode up color left p right).2.2.2 leaf) =
      plug up (node color left p right) := by
  induction right generalizing up color left p with
  | leaf => rfl
  | node color' left' p' right' _ ih => exact ih _ _ _ _

theorem after_lastNode (up : Context P) (color : Color) (left : ColorTree P) (p : P)
    (right : ColorTree P) : (lastNode up color left p right).1.after = up.after := by
  induction right generalizing up color left p with
  | leaf => rfl
  | node color' left' p' right' _ ih => exact ih _ _ _ _

theorem inorder_closeGap (color : Color) (ctx : Context P) (x : ColorTree P) :
    (closeGap color ctx x).inorder = (plug ctx x).inorder := by
  unfold closeGap
  split
  · exact inorder_rebalance ctx x
  · rfl

theorem inorder_erase (ctx : Context P) (color : Color) (left right : ColorTree P) :
    (erase ctx color left right).inorder = ctx.before ++ left.inorder ++ right.inorder ++ ctx.after := by
  cases left with
  | leaf => simp [erase, inorder_closeGap, inorder_plug, inorder]
  | node color' left' p' right' =>
    cases right with
    | leaf => simp [erase, inorder_closeGap, inorder_plug, inorder]
    | node color'' left'' p'' right'' =>
      have place := congrArg inorder (plug_lastNode [] color' left' p' right')
      have last := after_lastNode [] color' left' p' right'
      change (closeGap _ _ _).inorder = _
      rw [inorder_closeGap, plug_append, plug, inorder_plug]
      simp only [Frame.attach, join, inorder_plug, plug, inorder, last, Context.after] at place ⊢
      simp [← place]

end Order

section Root

theorem color_plug_cons (f : Frame P) (up : Context P) (t t' : ColorTree P) :
    (plug (f :: up) t).color = (plug (f :: up) t').color := by
  induction up generalizing f t t' with
  | nil => simp [plug, Frame.attach]
  | cons g up ih => exact ih g _ _

theorem color_plug_congr (ctx : Context P) {t t' : ColorTree P} (same : t.color = t'.color) :
    (plug ctx t).color = (plug ctx t').color := by
  cases ctx with
  | nil => exact same
  | cons f up => exact color_plug_cons f up t t'

theorem color_liftRed (f g : Frame P) (t : ColorTree P) (black : g.color = .black) :
    (liftRed f g t).color = .black := by
  unfold liftRed
  split
  · exact color_join _ _ _ _ _
  · split
    · exact (color_join _ _ _ _ _).trans black
    · exact color_join _ _ _ _ _

theorem color_insertFix (ctx : Context P) (t : ColorTree P)
    (black : ctx ≠ [] → (plug ctx t).color = .black) : (insertFix ctx t).color = .black := by
  fun_induction insertFix ctx t with
  | case1 t => exact color_paint_black t
  | case2 f t | case3 f g up t _ => exact black (by simp)
  | case4 f g up t _ _ ih =>
    apply ih
    intro inside
    obtain ⟨h, rest, rfl⟩ := List.exists_cons_of_ne_nil inside
    exact (color_plug_cons h rest _ _).trans (black (by simp))
  | case5 f g up t _ _ =>
    have before := black (by simp)
    cases up with
    | nil => exact color_liftRed f g t (by simpa [plug, Frame.attach] using before)
    | cons h rest => exact (color_plug_cons h rest _ _).trans before

theorem color_rebalance (ctx : Context P) (x : ColorTree P)
    (black : ctx ≠ [] → (plug ctx x).color = .black) : (rebalance ctx x).color = .black := by
  fun_induction rebalance ctx x with
  | case1 x => exact color_paint_black x
  | case2 f up x _ => exact (color_plug_cons f up _ _).trans (black (by simp))
  | case3 f up x _ left w right sibling near far above _ =>
    cases up with
    | nil => simp [plug, Frame.attach, above]
    | cons g rest => exact (color_plug_cons g rest _ _).trans (black (by simp))
  | case4 | case6 => exact color_paint_black _
  | case5 f up x _ _ _ ih =>
    apply ih
    intro inside
    obtain ⟨g, rest, rfl⟩ := List.exists_cons_of_ne_nil inside
    exact (color_plug_cons g rest _ _).trans (black (by simp))

theorem color_closeGap (color : Color) (ctx : Context P) (x t : ColorTree P)
    (black : (plug ctx t).color = .black) (top : t.color = color) :
    (closeGap color ctx x).color = .black := by
  have inside : ctx ≠ [] → (plug ctx x).color = .black := by
    intro inside
    obtain ⟨f, up, rfl⟩ := List.exists_cons_of_ne_nil inside
    exact (color_plug_cons f up _ _).trans black
  unfold closeGap
  split
  case isTrue => exact color_rebalance ctx x inside
  case isFalse red =>
    apply inside
    rintro rfl
    exact red (top.symm.trans black)

theorem color_erase (ctx : Context P) (color : Color) (left : ColorTree P) (p : P)
    (right : ColorTree P) (black : (plug ctx (node color left p right)).color = .black) :
    (erase ctx color left right).color = .black := by
  cases left with
  | leaf => exact color_closeGap color ctx right (node color leaf p right) black rfl
  | node color' left' p' right' =>
    cases right with
    | leaf => exact color_closeGap color ctx _ (node color (node color' left' p' right') p leaf) black rfl
    | node color'' left'' p'' right'' =>
      refine color_closeGap _ _ _ (node _ (lastNode [] color' left' p' right').2.2.1
        (lastNode [] color' left' p' right').2.2.2 leaf) ?_ rfl
      rw [plug_append, plug_lastNode]
      refine (color_plug_congr ctx ?_).trans black
      exact color_join _ _ _ _ _

end Root

end RedBlack

end ByteOS.Lib
