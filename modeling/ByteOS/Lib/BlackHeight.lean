import ByteOS.Lib.RedBlack

/-! The balance of red-black trees.

`Balanced n t` is the rule for red nodes together with the black height `n` of the paths.
A context accepts trees of one black height; the repairs are for a hole with a red tree
below a red node, and for a hole with a tree that is one black node short.
-/

set_option autoImplicit false

namespace ByteOS.Lib.RedBlack

open ColorTree

variable {P : Type} {k m n : Nat} {side : Side} {color : Color} {p : P}
  {t x inner outer : ColorTree P} {f : Frame P} {up ctx : Context P}

def weight : Color → Nat
  | .red => 0
  | .black => 1

/-- No red node has a red child, and every path down to a leaf has `n` black nodes. -/
def Balanced : Nat → ColorTree P → Prop
  | n, leaf => n = 0
  | n, node color left _ right =>
    (color = .red → left.color = .black ∧ right.color = .black) ∧
      ∃ k, n = k + weight color ∧ Balanced k left ∧ Balanced k right

def top : Context P → Color
  | [] => .black
  | f :: _ => f.color

/-- With a tree of black height `k` in the hole, the black height is `n`. -/
def Accepts : Context P → Nat → Nat → Prop
  | [], k, n => k = n
  | f :: up, k, n =>
    Balanced k f.sibling ∧ (f.color = .red → f.sibling.color = .black ∧ top up = .black) ∧
      Accepts up (k + weight f.color) n

/-- The tree is one black node short of the height `k + 1`, but for a red root that can be
painted. -/
def Short (k : Nat) (x : ColorTree P) : Prop :=
  match x.color with
  | .black => Balanced k x
  | .red => Balanced (k + 1) (x.paint .black)

section Trees

@[simp] theorem balanced_leaf : Balanced n (leaf : ColorTree P) ↔ n = 0 := Iff.rfl

theorem balanced_join : Balanced n (join side color p inner outer) ↔
    (color = .red → inner.color = .black ∧ outer.color = .black) ∧
      ∃ k, n = k + weight color ∧ Balanced k inner ∧ Balanced k outer := by
  cases side with
  | left => rfl
  | right =>
    simp only [join, Balanced]
    refine and_congr (imp_congr_right fun _ => and_comm) (exists_congr fun k => ?_)
    rw [and_comm (a := Balanced k outer)]

theorem balanced_red : Balanced n (join side .red p inner outer) ↔
    (inner.color = .black ∧ outer.color = .black) ∧ Balanced n inner ∧ Balanced n outer := by
  simp [balanced_join, weight]

theorem balanced_black : Balanced (n + 1) (join side .black p inner outer) ↔ Balanced n inner ∧
    Balanced n outer := by
  simp [balanced_join, weight]

theorem Balanced.joined (first : Balanced k inner) (second : Balanced k outer)
    (black : color = .red → inner.color = .black ∧ outer.color = .black) :
    Balanced (k + weight color) (join side color p inner outer) :=
  balanced_join.mpr ⟨black, k, rfl, first, second⟩

theorem Balanced.exists_black (side : Side) (balanced : Balanced (k + 1) t) (black : t.color = .black) :
    ∃ p near far, t = join side .black p near far ∧ Balanced k near ∧ Balanced k far := by
  have inhabited : t ≠ leaf := by
    rintro rfl
    exact absurd (balanced_leaf.mp balanced) (Nat.succ_ne_zero k)
  obtain ⟨color, p, near, far, rfl⟩ := exists_join side inhabited
  obtain rfl : color = .black := (color_join _ _ _ _ _).symm.trans black
  exact ⟨p, near, far, rfl, balanced_black.mp balanced⟩

theorem exists_red (side : Side) (red : t.color = .red) : ∃ p near far, t = join side .red p near far := by
  have inhabited : t ≠ leaf := by
    rintro rfl
    cases red
  obtain ⟨color, p, near, far, rfl⟩ := exists_join side inhabited
  obtain rfl : color = .red := (color_join _ _ _ _ _).symm.trans red
  exact ⟨p, near, far, rfl⟩

theorem Balanced.paint_red_black (balanced : Balanced k t) (red : t.color = .red) :
    Balanced (k + 1) (t.paint .black) := by
  obtain ⟨p, near, far, rfl⟩ := exists_red .left red
  rw [paint_join]
  exact balanced_black.mpr (balanced_red.mp balanced).2

theorem Balanced.paint_red (balanced : Balanced (k + 1) t) (black : t.color = .black)
    (children : BlackChildren t) : Balanced k (t.paint .red) := by
  obtain ⟨p, near, far, rfl, first, second⟩ := balanced.exists_black .left black
  rw [paint_join]
  exact balanced_red.mpr ⟨blackChildren_join.mp children, first, second⟩

theorem Balanced.paint_black (balanced : Balanced n t) : ∃ m, Balanced m (t.paint .black) := by
  cases color : t.color with
  | red => exact ⟨n + 1, balanced.paint_red_black color⟩
  | black =>
    cases t with
    | leaf => exact ⟨n, balanced⟩
    | node color' left p right =>
      obtain rfl : color' = .black := color
      exact ⟨n, balanced⟩

theorem Balanced.short (balanced : Balanced k x) : Short k x := by
  unfold Short
  split
  case h_1 => exact balanced
  case h_2 red => exact balanced.paint_red_black red

end Trees

section Contexts

theorem balanced_plug : Balanced n (plug ctx t) ↔
    ∃ k, Accepts ctx k n ∧ Balanced k t ∧ (t.color = .red → top ctx = .black) := by
  induction ctx generalizing t with
  | nil =>
    constructor
    · intro balanced
      exact ⟨n, rfl, balanced, fun _ => rfl⟩
    · rintro ⟨k, rfl, balanced, _⟩
      exact balanced
  | cons f up ih =>
    rw [plug, ih]
    simp only [Frame.attach, color_join, balanced_join, Accepts, top]
    constructor
    · rintro ⟨_, accepts, ⟨red, k, rfl, inside, beside⟩, above⟩
      refine ⟨k, ⟨beside, fun color => ⟨(red color).2, above color⟩, accepts⟩, inside, fun color => ?_⟩
      cases parent : f.color with
      | black => rfl
      | red => exact absurd ((red parent).1.symm.trans color) (by decide)
    · rintro ⟨k, ⟨beside, red, accepts⟩, inside, above⟩
      refine ⟨k + weight f.color, accepts,
        ⟨fun color => ⟨?_, (red color).1⟩, k, rfl, inside, beside⟩, fun color => (red color).2⟩
      cases child : t.color with
      | black => rfl
      | red => exact absurd ((above child).symm.trans color) (by decide)

end Contexts

section Insertion

theorem liftRed_join {g : Frame P} (inner' : f.side ≠ g.side) :
    liftRed f g (join f.side color p inner outer) =
      join g.side .black p (join f.side f.color f.p outer f.sibling)
      (join g.side .red g.p inner g.sibling) := by
  have shape : join f.side color p inner outer = node color
      ((join f.side color p inner outer).child .left) p
        ((join f.side color p inner outer).child .right) := by
    cases f.side <;> rfl
  rw [shape, liftRed_inner color _ p _ inner', ← shape, child_join, child_other_join]

/-- Repairing a red node below a red one makes up a black node. -/
theorem Balanced.liftRed {g : Frame P} (balanced : Balanced k t) (red : t.color = .red)
    (f_red : f.color = .red) (accepts : Accepts (f :: g :: up) k n) (uncle : g.sibling.color = .black) :
    Balanced (k + 1) (liftRed f g t) ∧ Accepts up (k + 1) n := by
  obtain ⟨beside, below, beside', _, accepts⟩ := accepts
  obtain ⟨sibling, g_black⟩ := below f_red
  have g_black : g.color = .black := g_black
  simp only [f_red, g_black, weight, Nat.add_zero] at beside' accepts
  refine ⟨?_, accepts⟩
  by_cases same : f.side = g.side
  · rw [liftRed_outer t same]
    exact balanced_black.mpr ⟨balanced, balanced_red.mpr ⟨⟨sibling, uncle⟩, beside, beside'⟩⟩
  · obtain ⟨p, near, far, rfl⟩ := exists_red f.side red
    obtain ⟨⟨nearBlack, farBlack⟩, nearBalanced, farBalanced⟩ := balanced_red.mp balanced
    rw [liftRed_join same, f_red]
    exact balanced_black.mpr ⟨balanced_red.mpr ⟨⟨farBlack, sibling⟩, farBalanced, beside⟩,
      balanced_red.mpr ⟨⟨nearBlack, uncle⟩, nearBalanced, beside'⟩⟩

theorem insertFix_balanced (accepts : Accepts ctx k n) (balanced : Balanced k t)
    (red : t.color = .red) (root : ctx ≠ [] → (plug ctx t).color = .black) :
    ∃ m, Balanced m (insertFix ctx t) := by
  fun_induction insertFix ctx t generalizing k with
  | case1 t => exact ⟨k + 1, balanced.paint_red_black red⟩
  | case2 f t =>
    have black : f.color = .black := by simpa [plug, Frame.attach] using root (by simp)
    exact ⟨n, balanced_plug.mpr ⟨k, accepts, balanced, fun _ => black⟩⟩
  | case3 f g up t black => exact ⟨n, balanced_plug.mpr ⟨k, accepts, balanced, fun _ => black⟩⟩
  | case4 f g up t notBlack uncle ih =>
    have f_red := Color.eq_red_of_ne notBlack
    obtain ⟨beside, below, beside', _, accepts⟩ := accepts
    have g_black : g.color = .black := (below f_red).2
    simp only [f_red, g_black, weight, Nat.add_zero] at beside' accepts
    refine ih accepts ?_ (color_join _ _ _ _ _) ?_
    · refine balanced_red.mpr ⟨⟨color_join _ _ _ _ _, color_paint_black _⟩,
        balanced_black.mpr ⟨balanced, beside⟩, ?_⟩
      exact beside'.paint_red_black uncle
    · intro inside
      obtain ⟨h, rest, rfl⟩ := List.exists_cons_of_ne_nil inside
      exact (color_plug_cons h rest _ _).trans (root (by simp))
  | case5 f g up t notBlack uncle =>
    have f_red := Color.eq_red_of_ne notBlack
    obtain ⟨lifted, accepts'⟩ := balanced.liftRed red f_red accepts (Color.eq_black_of_ne uncle)
    have g_black : g.color = .black := (accepts.2.1 f_red).2
    refine ⟨n, balanced_plug.mpr ⟨k + 1, accepts', lifted, fun color => ?_⟩⟩
    exact absurd ((color_liftRed f g t g_black).symm.trans color) (by decide)

end Insertion

section Deletion

/-- Rotating a black sibling with a red child over the parent makes up for the black node. -/
theorem Balanced.liftSibling (balanced : Balanced k x) {w : ColorTree P}
    (sibling : Balanced (k + 1) w) (black : w.color = .black) (red : ¬ BlackChildren w) :
    Balanced (k + 1 + weight f.color) (liftSibling f x (turnSibling f.side w)) ∧
      (liftSibling f x (turnSibling f.side w)).color = f.color := by
  obtain ⟨p, near, far, rfl, nearBalanced, farBalanced⟩ := sibling.exists_black f.side black
  rw [blackChildren_join] at red
  cases farColor : far.color with
  | red =>
    rw [turnSibling_far (by simp [farColor]), liftSibling_join, color_join]
    refine ⟨.joined (balanced_black.mpr ⟨balanced, nearBalanced⟩)
      (farBalanced.paint_red_black farColor) fun _ => ?_, rfl⟩
    exact ⟨color_join _ _ _ _ _, color_paint_black _⟩
  | black =>
    have nearRed : near.color = .red := Color.eq_red_of_ne fun color => red ⟨color, farColor⟩
    obtain ⟨p', a, b, rfl⟩ := exists_red f.side nearRed
    obtain ⟨-, aBalanced, bBalanced⟩ := balanced_red.mp nearBalanced
    rw [turnSibling_near farColor, liftSibling_join, color_join, paint_join]
    refine ⟨.joined (balanced_black.mpr ⟨balanced, aBalanced⟩)
      (balanced_black.mpr ⟨bBalanced, farBalanced⟩) fun _ => ?_, rfl⟩
    exact ⟨color_join _ _ _ _ _, color_join _ _ _ _ _⟩

theorem Short.balanced (short : Short k x) (black : x.color ≠ .red) : Balanced k x := by
  unfold Short at short
  split at short
  case h_1 => exact short
  case h_2 red => exact absurd red black

theorem Short.paint_black (short : Short k x) (red : x.color = .red) :
    Balanced (k + 1) (x.paint .black) := by
  unfold Short at short
  rw [red] at short
  exact short

theorem rebalance_balanced (accepts : Accepts ctx (k + 1) n) (short : Short k x) :
    ∃ m, Balanced m (rebalance ctx x) := by
  induction ctx generalizing k x with
  | nil =>
    rw [rebalance]
    by_cases red : x.color = .red
    · exact ⟨k + 1, short.paint_black red⟩
    · exact (short.balanced red).paint_black
  | cons f up ih =>
    by_cases red : x.color = .red
    · rw [rebalance_red red]
      refine ⟨n, balanced_plug.mpr ⟨k + 1, accepts, short.paint_black red, fun color => ?_⟩⟩
      exact absurd ((color_paint_black x).symm.trans color) (by decide)
    have balanced := short.balanced red
    obtain ⟨beside, below, accepts⟩ := accepts
    cases sibling : f.sibling.color with
    | red =>
      -- the parent is black, and the sibling is rotated over it first
      have f_black : f.color = .black :=
        Color.eq_black_of_ne fun color => absurd ((below color).1.symm.trans sibling) (by decide)
      obtain ⟨w, near, far, shape⟩ := exists_red f.side sibling
      rw [shape] at beside
      obtain ⟨⟨nearBlack, farBlack⟩, nearBalanced, farBalanced⟩ := balanced_red.mp beside
      rw [f_black] at accepts
      have above : Accepts (⟨f.side, .black, w, far⟩ :: up) (k + 1) n :=
        ⟨farBalanced, fun color => absurd color Color.noConfusion, accepts⟩
      rw [rebalance_redSibling red shape]
      split
      case isTrue children =>
        refine ⟨n, balanced_plug.mpr ⟨k + 1, above, ?_, fun _ => rfl⟩⟩
        exact balanced_black.mpr ⟨balanced, nearBalanced.paint_red nearBlack children⟩
      case isFalse children =>
        obtain ⟨lifted, -⟩ :=
          balanced.liftSibling (f := ⟨f.side, .red, f.p, near⟩) nearBalanced nearBlack children
        exact Balanced.paint_black (balanced_plug.mpr ⟨k + 1, above, lifted, fun _ => rfl⟩)
    | black =>
      rw [rebalance_blackSibling red (by simp [sibling])]
      split
      case isTrue children =>
        have painted := beside.paint_red sibling children
        cases color : f.color with
        | black =>
          rw [color] at accepts
          exact ih accepts (Balanced.short (balanced_black.mpr ⟨balanced, painted⟩))
        | red =>
          -- a red parent is painted black in the next pass
          rw [color] at accepts
          refine ih accepts ?_
          rw [Short, color_join, paint_join]
          exact balanced_black.mpr ⟨balanced, painted⟩
      case isFalse children =>
        obtain ⟨lifted, color⟩ := balanced.liftSibling (f := f) beside sibling children
        refine Balanced.paint_black (balanced_plug.mpr ⟨_, accepts, lifted, fun red => ?_⟩)
        exact (below (color.symm.trans red)).2

theorem closeGap_balanced (side : Side) (p : P)
    (balanced : Balanced n (plug ctx (join side color p x leaf))) :
    ∃ m, Balanced m (closeGap color ctx x) := by
  obtain ⟨_, accepts, inside, above⟩ := balanced_plug.mp balanced
  obtain ⟨red, k, rfl, xBalanced, empty⟩ := balanced_join.mp inside
  obtain rfl : k = 0 := empty
  unfold closeGap
  split
  case isTrue black =>
    rw [black] at accepts
    exact rebalance_balanced accepts xBalanced.short
  case isFalse notBlack =>
    obtain rfl := Color.eq_red_of_ne notBlack
    refine ⟨n, balanced_plug.mpr ⟨0, accepts, xBalanced, fun color => ?_⟩⟩
    exact absurd ((red rfl).1.symm.trans color) (by decide)

theorem erase_balanced {left right : ColorTree P}
    (balanced : Balanced n (plug ctx (node color left p right))) :
    ∃ m, Balanced m (erase ctx color left right) := by
  cases left with
  | leaf => exact closeGap_balanced .right p balanced
  | node color' left' p' right' =>
    cases right with
    | leaf => exact closeGap_balanced .left p balanced
    | node color'' left'' p'' right'' =>
      -- the predecessor takes the place of the node, and its colour
      refine closeGap_balanced .left (lastNode [] color' left' p' right').2.2.2 (n := n) ?_
      change Balanced n (plug _ (node _ _ _ leaf))
      rw [plug_append, plug_lastNode]
      change Balanced n
        (plug ctx (node color (node color' left' p' right') _ (node color'' left'' p'' right'')))
      obtain ⟨k, accepts, inside, above⟩ := balanced_plug.mp balanced
      exact balanced_plug.mpr ⟨k, accepts, inside, above⟩

end Deletion

end ByteOS.Lib.RedBlack
