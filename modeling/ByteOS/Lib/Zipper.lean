import Mathlib.Data.List.Basic
import Mathlib.Data.List.Perm.Basic
import Mathlib.Data.List.Nodup

/-! Coloured binary trees and the contexts of their subtrees.

A context is the way from a subtree up to the root, one frame for every
ancestor. Both mirror images of a shape are written with `ColorTree.join`, which takes
the side that the first subtree is on.
-/

set_option autoImplicit false

namespace ByteOS.Lib

inductive Side where
  | left
  | right
  deriving DecidableEq, Repr

def Side.other : Side → Side
  | .left => .right
  | .right => .left

@[simp] theorem Side.other_other (side : Side) : side.other.other = side := by
  cases side <;> rfl

@[simp] theorem Side.other_ne (side : Side) : side.other ≠ side := by
  cases side <;> simp [other]

variable {side : Side}

theorem Side.eq_other_of_ne {side' : Side} (different : side ≠ side') : side = side'.other := by
  cases side <;> cases side' <;> simp_all [other]

inductive Color where
  | red
  | black
  deriving DecidableEq, Repr

theorem Color.eq_red_of_ne {color : Color} (other : color ≠ .black) : color = .red := by
  cases color with
  | red => rfl
  | black => exact absurd rfl other

theorem Color.eq_black_of_ne {color : Color} (other : color ≠ .red) : color = .black := by
  cases color with
  | black => rfl
  | red => exact absurd rfl other

inductive ColorTree (P : Type) where
  | leaf
  | node (color : Color) (left : ColorTree P) (p : P) (right : ColorTree P)
  deriving DecidableEq, Repr

variable {P : Type}
variable {t inner outer : ColorTree P} {p q : P}

namespace ColorTree

/-- A node with `inner` on the given side and `outer` on the other. -/
def join (side : Side) (color : Color) (p : P) (inner outer : ColorTree P) : ColorTree P :=
  match side with
  | .left => .node color inner p outer
  | .right => .node color outer p inner

/-- The subtree on one side, `leaf` for a leaf. -/
def child (side : Side) : ColorTree P → ColorTree P
  | leaf => leaf
  | node _ left _ right => match side with
    | .left => left
    | .right => right

def color : ColorTree P → Color
  | leaf => .black
  | node color _ _ _ => color

def paint (color : Color) : ColorTree P → ColorTree P
  | leaf => leaf
  | node _ left p right => node color left p right

def inorder : ColorTree P → List P
  | leaf => []
  | node _ left p right => left.inorder ++ p :: right.inorder

theorem join_other (side : Side) (color : Color) (p : P) (inner outer : ColorTree P) :
    join side.other color p inner outer = join side color p outer inner := by
  cases side <;> rfl

theorem node_eq_join (side : Side) (color : Color) (left : ColorTree P) (p : P)
    (right : ColorTree P) : node color left p right =
      join side color p ((node color left p right).child side)
      ((node color left p right).child side.other) := by
  cases side <;> rfl

theorem exists_join (side : Side) (inhabited : t ≠ leaf) :
    ∃ color p inner outer, t = join side color p inner outer := by
  cases t with
  | leaf => exact absurd rfl inhabited
  | node color left p right => exact ⟨color, p, _, _, node_eq_join side color left p right⟩

@[simp] theorem child_join (side : Side) (color : Color) (p : P) (inner outer : ColorTree P) :
    (join side color p inner outer).child side = inner := by
  cases side <;> rfl

@[simp] theorem child_other_join (side : Side) (color : Color) (p : P) (inner outer : ColorTree P) :
    (join side color p inner outer).child side.other = outer := by
  cases side <;> rfl

@[simp] theorem color_join (side : Side) (color : Color) (p : P) (inner outer : ColorTree P) :
    (join side color p inner outer).color = color := by
  cases side <;> rfl

@[simp] theorem paint_join (side : Side) (color color' : Color) (p : P) (inner outer : ColorTree P) :
    (join side color p inner outer).paint color' = join side color' p inner outer := by
  cases side <;> rfl

@[simp] theorem inorder_paint (color : Color) (t : ColorTree P) : (t.paint color).inorder = t.inorder := by
  cases t <;> rfl

theorem color_paint_black (t : ColorTree P) : (t.paint .black).color = .black := by
  cases t <;> rfl

@[simp] theorem mem_join {color : Color} :
    q ∈ (join side color p inner outer).inorder ↔ q = p ∨ q ∈ inner.inorder ∨ q ∈ outer.inorder := by
  cases side <;> simp [join, inorder] <;> tauto

theorem nodup_join {color : Color} :
    (join side color p inner outer).inorder.Nodup ↔
      p ∉ inner.inorder ∧ p ∉ outer.inorder ∧ inner.inorder.Nodup ∧ outer.inorder.Nodup ∧
        inner.inorder.Disjoint outer.inorder := by
  cases side with
  | left =>
    simp only [join, inorder, List.nodup_append', List.nodup_cons, List.disjoint_cons_right]
    tauto
  | right =>
    simp only [join, inorder, List.nodup_append', List.nodup_cons, List.disjoint_cons_right]
    have swap : inner.inorder.Disjoint outer.inorder ↔ outer.inorder.Disjoint inner.inorder :=
      List.disjoint_comm
    tauto

theorem inorder_rotate (side : Side) (cx cy cx' cy' : Color) (x y : P) (a b c : ColorTree P) :
    (join side cy' y a (join side cx' x b c)).inorder =
    (join side cx x (join side cy y a b) c).inorder := by
  cases side <;> simp [join, inorder]

theorem inorder_join_congr (side : Side) (color color' : Color) (p : P)
    {inner' outer' : ColorTree P} (first : inner.inorder = inner'.inorder)
    (second : outer.inorder = outer'.inorder) :
    (join side color p inner outer).inorder = (join side color' p inner' outer').inorder := by
  cases side <;> simp [join, inorder, first, second]

end ColorTree

structure Frame (P : Type) where
  side : Side
  color : Color
  p : P
  sibling : ColorTree P
  deriving DecidableEq, Repr

abbrev Context (P : Type) := List (Frame P)

def Frame.attach (f : Frame P) (t : ColorTree P) : ColorTree P :=
  ColorTree.join f.side f.color f.p t f.sibling

def plug : Context P → ColorTree P → ColorTree P
  | [], t => t
  | f :: up, t => plug up (f.attach t)

variable {f : Frame P} {up ctx : Context P}

namespace Context

def before : Context P → List P
  | [] => []
  | f :: up => match f.side with
    | .left => before up
    | .right => before up ++ (f.sibling.inorder ++ [f.p])

def after : Context P → List P
  | [] => []
  | f :: up => match f.side with
    | .left => f.p :: f.sibling.inorder ++ after up
    | .right => after up

def around (ctx : Context P) : List P := ctx.before ++ ctx.after

@[simp] theorem around_nil : around ([] : Context P) = [] := rfl

@[simp] theorem mem_around_cons : q ∈ around (f :: up) ↔ q = f.p ∨ q ∈ f.sibling.inorder ∨
    q ∈ around up := by
  cases side : f.side <;> simp [around, before, after, side] <;> tauto

@[simp] theorem mem_around_append {ctx' : Context P} :
    q ∈ around (ctx ++ ctx') ↔ q ∈ around ctx ∨ q ∈ around ctx' := by
  induction ctx with
  | nil => simp
  | cons f up ih =>
    rw [List.cons_append, mem_around_cons, mem_around_cons, ih]
    tauto

end Context

open Context

theorem inorder_plug (ctx : Context P) (t : ColorTree P) :
    (plug ctx t).inorder = ctx.before ++ t.inorder ++ ctx.after := by
  induction ctx generalizing t with
  | nil => simp [plug, before, after]
  | cons f up ih =>
    rw [plug, ih]
    cases side : f.side <;> simp [Frame.attach, ColorTree.join, ColorTree.inorder, before, after, side]

theorem inorder_plug_node (ctx : Context P) (color : Color) (left right : ColorTree P) (p : P) :
    (plug ctx (.node color left p right)).inorder = (ctx.before ++ left.inorder) ++ p ::
      (right.inorder ++ ctx.after) := by
  simp [inorder_plug, ColorTree.inorder]

theorem plug_append (ctx ctx' : Context P) (t : ColorTree P) :
    plug (ctx ++ ctx') t = plug ctx' (plug ctx t) := by
  induction ctx generalizing t with
  | nil => rfl
  | cons f ctx ih => exact ih (f.attach t)

def Frame.turn (f : Frame P) (t : ColorTree P) : Frame P := ⟨f.side.other, f.color, f.p, t⟩

theorem plug_turn (f : Frame P) (up : Context P) (t : ColorTree P) :
    plug (f :: up) t = plug (f.turn t :: up) f.sibling := by
  simp only [plug, Frame.attach, Frame.turn, ColorTree.join_other]

theorem inorder_plug_congr (ctx : Context P) {t' : ColorTree P} (same : t.inorder = t'.inorder) :
    (plug ctx t).inorder = (plug ctx t').inorder := by
  rw [inorder_plug, inorder_plug, same]

theorem mem_plug : q ∈ (plug ctx t).inorder ↔ q ∈ ctx.around ∨ q ∈ t.inorder := by
  simp only [inorder_plug, around, List.mem_append]
  tauto

theorem nodup_plug : (plug ctx t).inorder.Nodup ↔ ctx.around.Nodup ∧ t.inorder.Nodup ∧
    ctx.around.Disjoint t.inorder := by
  have shuffle : (plug ctx t).inorder.Perm (ctx.around ++ t.inorder) := by
    rw [inorder_plug, around, List.append_assoc, List.append_assoc]
    exact List.perm_append_comm.append_left ctx.before
  rw [shuffle.nodup_iff, List.nodup_append']

theorem Context.nodup_around_cons (distinct : (around (f :: up)).Nodup) :
    f.p ∉ f.sibling.inorder ∧ f.p ∉ up.around := by
  have whole : (plug (f :: up) .leaf).inorder.Nodup :=
    nodup_plug.mpr ⟨distinct, List.nodup_nil, List.disjoint_nil_right _⟩
  rw [plug, nodup_plug, Frame.attach, ColorTree.nodup_join] at whole
  obtain ⟨_, ⟨_, beside, _⟩, apart⟩ := whole
  exact ⟨beside, fun inside => apart inside (by simp)⟩

end ByteOS.Lib
