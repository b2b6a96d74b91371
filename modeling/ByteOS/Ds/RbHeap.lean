import ByteOS.Ds.Rbtree
import Mathlib.Data.BitVec

/-! How nodes in memory represent a tree.

`Holds` describes a subtree below a parent, `Surrounds` the rest of the tree
around it. An operation is specified by the tree it leaves and by `Touches`, the
nodes it may have written; all nodes elsewhere, those of other trees among them,
are unchanged.
-/

set_option autoImplicit false

namespace ByteOS.Ds

open Lib Mm

/-- An address a node can have: bit zero is free for the colour. -/
structure Address (p : Ptr) : Prop where
  nonnull : p ≠ 0#64
  aligned : p &&& 1#64 = 0#64

section Word

theorem low_bit {q : Ptr} (aligned : q &&& 1#64 = 0#64) : q[0] = false := by
  have bit := congrArg (fun word : BitVec 64 => word[0]) aligned
  simpa using bit

theorem or_one_and_one (word : BitVec 64) : (word ||| 1#64) &&& 1#64 = 1#64 := by
  ext i bound
  simp only [BitVec.getElem_and, BitVec.getElem_or, BitVec.getElem_one]
  cases i <;> simp

theorem or_one_and_not_one (word : BitVec 64) : (word ||| 1#64) &&& ~~~1#64 = word &&& ~~~1#64 := by
  ext i bound
  simp only [BitVec.getElem_and, BitVec.getElem_or, BitVec.getElem_not, BitVec.getElem_one]
  cases i <;> simp

theorem and_not_one {q : Ptr} (aligned : q &&& 1#64 = 0#64) : q &&& ~~~1#64 = q := by
  ext i bound
  simp only [BitVec.getElem_and, BitVec.getElem_not, BitVec.getElem_one]
  cases i <;> simp [low_bit aligned]

end Word

namespace RbNode

variable (n : RbNode)

section

variable (side : Side) (q : Ptr)
include side q

@[simp] theorem child_setChild : (n.setChild side q).child side = q := by
  cases side <;> rfl

@[simp] theorem child_other_setChild : (n.setChild side q).child side.other = n.child side.other := by
  cases side <;> rfl

@[simp] theorem child_setChild_other : (n.setChild side.other q).child side = n.child side := by
  cases side <;> rfl

@[simp] theorem parent_setChild : (n.setChild side q).parent = n.parent := by
  cases side <;> rfl

@[simp] theorem color_setChild : (n.setChild side q).color = n.color := by
  cases side <;> rfl

end

@[simp] theorem child_setColor (side : Side) (color : Color) :
    (n.setColor color).child side = n.child side := by
  cases side <;> cases color <;> rfl

@[simp] theorem child_setParent (side : Side) (q : Ptr) : (n.setParent q).child side = n.child side := by
  cases side <;> rfl

@[simp] theorem color_setColor (color : Color) : (n.setColor color).color = color := by
  cases color with
  | red =>
    have bit : n.parentColor &&& ~~~1#64 &&& 1#64 = 0#64 := by
      rw [BitVec.and_assoc, BitVec.not_and_self]
      exact BitVec.and_zero
    simp only [setColor, RbNode.color, rbMaskColor, bit, if_pos]
  | black =>
    simp only [setColor, RbNode.color, rbMaskColor, or_one_and_one]
    rfl

@[simp] theorem parent_setColor (color : Color) : (n.setColor color).parent = n.parent := by
  cases color with
  | red => simp only [setColor, parent, rbMaskParent, BitVec.and_assoc, BitVec.and_self]
  | black => simp only [setColor, parent, rbMaskParent, or_one_and_not_one]

theorem parent_setParent {q : Ptr} (aligned : q &&& 1#64 = 0#64) : (n.setParent q).parent = q := by
  cases color : n.color with
  | red => simp only [setParent, parent, rbMaskParent, color, colorBit, BitVec.or_zero, and_not_one aligned]
  | black => simp only [setParent, parent, rbMaskParent, color, colorBit, or_one_and_not_one,
      and_not_one aligned]

theorem color_setParent {q : Ptr} (aligned : q &&& 1#64 = 0#64) : (n.setParent q).color = n.color := by
  cases color : n.color with
  | red =>
    rw [RbNode.color, setParent, color]
    simp only [rbMaskColor, colorBit, BitVec.or_zero, aligned, if_pos]
  | black =>
    rw [RbNode.color, setParent, color]
    simp only [rbMaskColor, colorBit, or_one_and_one]
    rfl

end RbNode

section Representation

def address : ColorTree Ptr → Ptr
  | .leaf => 0#64
  | .node _ _ p _ => p

def holder : Context Ptr → Ptr
  | [] => 0#64
  | f :: _ => f.p

def Holds (mem : Ptr → RbNode) : Ptr → ColorTree Ptr → Prop
  | _, .leaf => True
  | parent, .node color left p right =>
    Address p ∧ (mem p).parent = parent ∧ (mem p).color = color ∧ (mem p).left = address left ∧
      (mem p).right = address right ∧ Holds mem p left ∧ Holds mem p right

/-- The memory and the root pointer hold the context of a hole that points to `top`. -/
def Surrounds (mem : Ptr → RbNode) (root : Ptr) : Context Ptr → Ptr → Prop
  | [], top => root = top
  | f :: up, top =>
    Address f.p ∧ (mem f.p).parent = holder up ∧ (mem f.p).color = f.color ∧ (mem f.p).child f.side = top ∧
      (mem f.p).child f.side.other = address f.sibling ∧ Holds mem f.p f.sibling ∧ Surrounds mem root up f.p

structure Represents (s : RbState) (t : ColorTree Ptr) : Prop where
  holds : Holds s.mem 0#64 t
  root : s.tree.root = address t
  distinct : t.inorder.Nodup

structure Touches (s s' : RbState) (nodes : List Ptr) : Prop where
  mostLeft : s'.tree.mostLeft = s.tree.mostLeft
  elsewhere : ∀ p, p ∉ nodes → s'.mem p = s.mem p

structure Rearranged (s : RbState) (t : ColorTree Ptr) (s' : RbState) (t' : ColorTree Ptr) : Prop where
  represents : Represents s' t'
  touches : Touches s s' t.inorder
  order : t'.inorder = t.inorder

variable {mem mem' : Ptr → RbNode} {root parent top : Ptr} {s s' s'' : RbState} {t : ColorTree Ptr}
    {ctx : Context Ptr}

theorem Touches.refl (s : RbState) (nodes : List Ptr) : Touches s s nodes := ⟨rfl, fun _ _ => rfl⟩

theorem Touches.trans {nodes : List Ptr} (first : Touches s s' nodes)
    (second : Touches s' s'' nodes) : Touches s s'' nodes where
  mostLeft := second.mostLeft.trans first.mostLeft
  elsewhere p outside := (second.elsewhere p outside).trans (first.elsewhere p outside)

theorem Rearranged.refl (rep : Represents s t) : Rearranged s t s t := ⟨rep, .refl s _, rfl⟩

theorem Rearranged.trans {t' t'' : ColorTree Ptr} (first : Rearranged s t s' t')
    (second : Rearranged s' t' s'' t'') : Rearranged s t s'' t'' where
  represents := second.represents
  touches := first.touches.trans (first.order ▸ second.touches)
  order := second.order.trans first.order

@[simp] theorem address_join (side : Side) (color : Color) (p : Ptr) (inner outer : ColorTree Ptr) :
    address (ColorTree.join side color p inner outer) = p := by
  cases side <;> rfl

@[simp] theorem address_paint (color : Color) (t : ColorTree Ptr) :
    address (t.paint color) = address t := by
  cases t <;> rfl

theorem holds_join {side : Side} {color : Color} {p : Ptr} {inner outer : ColorTree Ptr} :
    Holds mem parent (ColorTree.join side color p inner outer) ↔
      Address p ∧ (mem p).parent = parent ∧ (mem p).color = color ∧ (mem p).child side = address inner ∧
        (mem p).child side.other = address outer ∧ Holds mem p inner ∧ Holds mem p outer := by
  cases side with
  | left => rfl
  | right =>
    simp only [ColorTree.join, Holds, RbNode.child, Side.other]
    tauto

theorem Holds.address_eq_null (holds : Holds mem parent t) : address t = 0#64 ↔ t = .leaf := by
  cases t with
  | leaf => simp [address]
  | node color left p right => simpa [address] using holds.1.nonnull

theorem Holds.congr (holds : Holds mem parent t) (same : ∀ p ∈ t.inorder, mem' p = mem p) :
    Holds mem' parent t := by
  induction t generalizing parent with
  | leaf => trivial
  | node color left p right ihl ihr =>
    simp only [ColorTree.inorder, List.mem_append, List.mem_cons] at same
    obtain ⟨address, above, painted, leftward, rightward, below, below'⟩ := holds
    rw [← same p (.inr (.inl rfl))] at above painted leftward rightward
    exact ⟨address, above, painted, leftward, rightward, ihl below
      fun q inside => same q (.inl inside), ihr below' fun q inside => same q (.inr (.inr inside))⟩

theorem Surrounds.congr (around : Surrounds mem root ctx top)
    (same : ∀ p ∈ ctx.around, mem' p = mem p) : Surrounds mem' root ctx top := by
  induction ctx generalizing top with
  | nil => exact around
  | cons f up ih =>
    simp only [Context.mem_around_cons] at same
    obtain ⟨address, above, painted, inward, outward, beside, upward⟩ := around
    rw [← same f.p (.inl rfl)] at above painted inward outward
    exact ⟨address, above, painted, inward, outward, beside.congr
      fun q inside => same q (.inr (.inl inside)),
      ih upward fun q inside => same q (.inr (.inr inside))⟩

theorem holds_plug : Holds mem 0#64 (plug ctx t) ∧ root = address (plug ctx t) ↔
    Surrounds mem root ctx (address t) ∧ Holds mem (holder ctx) t := by
  induction ctx generalizing t with
  | nil => simp only [plug, Surrounds, holder, and_comm]
  | cons f up ih =>
    rw [plug, ih]
    simp only [Frame.attach, holds_join, address_join, Surrounds, holder]
    tauto

theorem Represents.surrounds (rep : Represents s (plug ctx t)) :
    Surrounds s.mem s.tree.root ctx (address t) :=
  (holds_plug.mp ⟨rep.holds, rep.root⟩).1

theorem Represents.inside (rep : Represents s (plug ctx t)) : Holds s.mem (holder ctx) t :=
  (holds_plug.mp ⟨rep.holds, rep.root⟩).2

theorem Represents.apart (rep : Represents s (plug ctx t)) : ctx.around.Disjoint t.inorder :=
  (nodup_plug.mp rep.distinct).2.2

theorem represents_plug (around : Surrounds s.mem s.tree.root ctx (address t))
    (inside : Holds s.mem (holder ctx) t) (distinct : (plug ctx t).inorder.Nodup) :
    Represents s (plug ctx t) :=
  have whole := holds_plug.mpr ⟨around, inside⟩
  ⟨whole.1, whole.2, distinct⟩

theorem Surrounds.holder_aligned (around : Surrounds mem root ctx top) : holder ctx &&& 1#64 = 0#64 := by
  cases ctx with
  | nil => rfl
  | cons f up => exact around.1.aligned

theorem Holds.address_of_mem (holds : Holds mem parent t) {p : Ptr} (inside : p ∈ t.inorder) :
    Address p := by
  induction t generalizing parent with
  | leaf => simp [ColorTree.inorder] at inside
  | node color left q right ihl ihr =>
    obtain ⟨address, _, _, _, _, below, below'⟩ := holds
    simp only [ColorTree.inorder, List.mem_append, List.mem_cons] at inside
    obtain inside | rfl | inside := inside
    · exact ihl below inside
    · exact address
    · exact ihr below' inside

end Representation

end ByteOS.Ds
