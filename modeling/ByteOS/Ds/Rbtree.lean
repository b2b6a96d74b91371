import ByteOS.Lib.Chain
import ByteOS.Lib.Zipper
import ByteOS.Mm.Addr

/-! The red-black tree of `libk/ds/rbtree.c` and `include/ds/rbtree.h`.

Nodes live in a memory indexed by their addresses, and the null pointer is the
address zero. A node keeps its parent and its colour in one word, as the source
does: `struct rb_node` is aligned, so bit zero of a node's address is free. Where
the source writes out both mirror images of a step, the model has one definition
that takes the side. The mirrored functions of the source keep their names.
-/

set_option autoImplicit false

namespace ByteOS.Ds

open Lib Mm

structure RbNode where
  parentColor : BitVec 64
  left : Ptr
  right : Ptr
  deriving DecidableEq, Repr

structure Rbtree where
  root : Ptr
  mostLeft : Ptr
  deriving DecidableEq, Repr

structure RbState where
  mem : Ptr → RbNode
  tree : Rbtree

def RbNode.child (n : RbNode) : Side → Ptr
  | .left => n.left
  | .right => n.right

def RbNode.setChild (n : RbNode) (side : Side) (q : Ptr) : RbNode :=
  match side with
  | .left => { n with left := q }
  | .right => { n with right := q }

def rbMaskParent (word : BitVec 64) : Ptr := word &&& ~~~1#64

def rbMaskColor (word : BitVec 64) : Color := if word &&& 1#64 = 0#64 then .red else .black

def colorBit : Color → BitVec 64
  | .red => 0#64
  | .black => 1#64

def RbNode.parent (n : RbNode) : Ptr := rbMaskParent n.parentColor

def RbNode.color (n : RbNode) : Color := rbMaskColor n.parentColor

def RbNode.setColor (n : RbNode) (color : Color) : RbNode :=
  match color with
  | .black => { n with parentColor := n.parentColor ||| 1#64 }
  | .red => { n with parentColor := n.parentColor &&& ~~~1#64 }

def RbNode.setParent (n : RbNode) (parent : Ptr) : RbNode :=
  { n with parentColor := parent ||| colorBit n.color }

section Access

def RbState.read {A : Type} (s : RbState) (p : Ptr) (field : RbNode → A) : Except Fault A :=
  if p = 0#64 then .error .nullDeref else .ok (field (s.mem p))

def RbState.put (s : RbState) (p : Ptr) (n : RbNode) : RbState :=
  { s with mem := Function.update s.mem p n }

def RbState.modify (s : RbState) (p : Ptr) (change : RbNode → RbNode) : Except Fault RbState :=
  if p = 0#64 then .error .nullDeref else .ok (s.put p (change (s.mem p)))

def RbState.child (s : RbState) (side : Side) (p : Ptr) : Except Fault Ptr := s.read p (·.child side)

def RbState.setChild (s : RbState) (side : Side) (p q : Ptr) : Except Fault RbState :=
  s.modify p (·.setChild side q)

/-- `p != NULL ? p->left : NULL`, and the same on the right. -/
def RbState.childOrNull (s : RbState) (side : Side) (p : Ptr) : Ptr :=
  if p = 0#64 then 0#64 else (s.mem p).child side

/-- `p && node == p->left`, and the same on the right. -/
def RbState.isChild (s : RbState) (side : Side) (p node : Ptr) : Bool :=
  p ≠ 0#64 ∧ node = (s.mem p).child side

def RbState.setRoot (s : RbState) (p : Ptr) : RbState := { s with tree.root := p }

def RbState.setMostLeft (s : RbState) (p : Ptr) : RbState := { s with tree.mostLeft := p }

def rbParent (s : RbState) (node : Ptr) : Except Fault Ptr := s.read node (·.parent)

def rbColor (s : RbState) (node : Ptr) : Color := if node = 0#64 then .black else (s.mem node).color

def rbSetColor (s : RbState) (node : Ptr) (color : Color) : Except Fault RbState :=
  s.modify node (·.setColor color)

def rbSetParent (s : RbState) (node parent : Ptr) : Except Fault RbState :=
  s.modify node (·.setParent parent)

def rbGrandparent (s : RbState) (node : Ptr) : Except Fault Ptr := do
  let parent ← rbParent s node
  if parent = 0#64 then return 0#64 else rbParent s parent

def rbSibling (s : RbState) (node : Ptr) : Except Fault Ptr := do
  let parent ← rbParent s node
  if parent = 0#64 then return 0#64
  else if s.isChild .left parent node then s.child .right parent
  else s.child .left parent

def rbUncle (s : RbState) (node : Ptr) : Except Fault Ptr := do
  let parent ← rbParent s node
  let grandparent ← rbGrandparent s node
  if grandparent = 0#64 then return 0#64 else rbSibling s parent

def adopt (s : RbState) (node parent : Ptr) : Except Fault RbState :=
  if node ≠ 0#64 then rbSetParent s node parent else .ok s

def paintNonNull (s : RbState) (node : Ptr) (color : Color) : Except Fault RbState :=
  if node ≠ 0#64 then rbSetColor s node color else .ok s

/-- Let the child link of `xp` that is `x`, or else the root pointer, be `y`. -/
def relink (s : RbState) (x xp y : Ptr) : Except Fault RbState :=
  if xp = 0#64 then .ok (s.setRoot y)
  else if s.isChild .left xp x then s.setChild .left xp y
  else s.setChild .right xp y

end Access

section Walks

/-- `while (node->left) node = node->left`, and the same on the right. -/
def farthest (side : Side) (s : RbState) : Nat → Ptr → Except Fault Ptr
  | 0, _ => .error .unfinished
  | fuel + 1, node => do
    let next ← s.child side node
    if next = 0#64 then return node else farthest side s fuel next

/-- `while ((parent = rb_parent(node)) && node == parent->right) node = parent` -/
def climb (s : RbState) : Nat → Ptr → Except Fault Ptr
  | 0, _ => .error .unfinished
  | fuel + 1, node => do
    let parent ← rbParent s node
    if s.isChild .right parent node then climb s fuel parent else return parent

def rbFirstUncached (s : RbState) : Except Fault Ptr :=
  if s.tree.root = 0#64 then .ok 0#64 else farthest .left s passes s.tree.root

def rbNext (s : RbState) (node : Ptr) : Except Fault Ptr :=
  if node = 0#64 then .ok 0#64
  else do
    let right ← s.child .right node
    if right ≠ 0#64 then farthest .left s passes right else climb s passes node

end Walks

section Rotation

/-- Move the child `y` of `x` on the given side up to the place of `x`. -/
def rotate (side : Side) (s : RbState) (x : Ptr) : Except Fault RbState := do
  let y ← s.child side x
  let inner ← s.child side.other y
  let s ← s.setChild side x inner
  let s ← adopt s inner x
  let xp ← rbParent s x
  let s ← rbSetParent s y xp
  let s ← relink s x xp y
  let s ← s.setChild side.other y x
  rbSetParent s x y

def rotateRight : RbState → Ptr → Except Fault RbState := rotate .left

def rotateLeft : RbState → Ptr → Except Fault RbState := rotate .right

def rotateTo : Side → RbState → Ptr → Except Fault RbState
  | .left => rotateLeft
  | .right => rotateRight

end Rotation

section Insertion

/-- A place that holds a link: `&tree->root`, `&p->left` or `&p->right`. -/
inductive Link where
  | root
  | child (side : Side) (p : Ptr)
  deriving DecidableEq, Repr

def RbState.readLink (s : RbState) : Link → Except Fault Ptr
  | .root => .ok s.tree.root
  | .child side p => s.child side p

def RbState.writeLink (s : RbState) (q : Ptr) : Link → Except Fault RbState
  | .root => .ok (s.setRoot q)
  | .child side p => s.setChild side p q

def rbLinkNode (s : RbState) (node parent : Ptr) (link : Link) : Except Fault RbState := do
  let s ← rbSetParent s node parent
  let s ← rbSetColor s node .red
  let s ← s.setChild .right node 0#64
  let s ← s.setChild .left node 0#64
  s.writeLink node link

def insertCase1 (s : RbState) (node : Ptr) : Except Fault RbState := do
  let s ← rbSetColor s node .black
  return s.setRoot node

def insertCase2 (s : RbState) (_node : Ptr) : RbState := s

def insertCase3 (s : RbState) (node : Ptr) : Except Fault (RbState × Ptr) := do
  let parent ← rbParent s node
  let s ← rbSetColor s parent .black
  let uncle ← rbUncle s node
  let s ← rbSetColor s uncle .black
  let grandparent ← rbGrandparent s node
  let s ← rbSetColor s grandparent .red
  let grandparent ← rbGrandparent s node
  return (s, grandparent)

/-- The first half of `insert_case4`: turn an inner grandchild into an outer one. -/
def insertCase4Inner (s : RbState) (node parent grandparent : Ptr) : Except Fault (RbState × Ptr) := do
  let left ← s.child .left grandparent
  let right ← s.child .right grandparent
  if s.isChild .right left node then
    let s ← rotateLeft s parent
    let node ← s.child .left node
    return (s, node)
  else if s.isChild .left right node then
    let s ← rotateRight s parent
    let node ← s.child .right node
    return (s, node)
  else return (s, node)

def insertCase4Outer (s : RbState) (node : Ptr) : Except Fault RbState := do
  let parent ← rbParent s node
  let grandparent ← rbGrandparent s node
  let left ← s.child .left parent
  let s ← rotateTo (if node = left then .right else .left) s grandparent
  let s ← rbSetColor s parent .black
  rbSetColor s grandparent .red

def insertCase4 (s : RbState) (node : Ptr) : Except Fault RbState := do
  let parent ← rbParent s node
  let grandparent ← rbGrandparent s node
  let (s, node) ← insertCase4Inner s node parent grandparent
  insertCase4Outer s node

def insertLoop : Nat → RbState → Ptr → Except Fault RbState
  | 0, _, _ => .error .unfinished
  | fuel + 1, s, node => do
    let parent ← rbParent s node
    if parent = 0#64 then insertCase1 s node
    else if rbColor s parent = .black then return insertCase2 s node
    else
      let uncle ← rbUncle s node
      if rbColor s uncle = .red then
        let (s, node) ← insertCase3 s node
        insertLoop fuel s node
      else insertCase4 s node

def rbInsert (s : RbState) (node : Ptr) (mostLeft : Bool) : Except Fault RbState :=
  if node = 0#64 then .ok s
  else do
    let original := node
    let s ← insertLoop passes s node
    if mostLeft then
      let left ← s.child .left original
      if left = 0#64 then return s.setMostLeft original else return s
    else return s

end Insertion

section Deletion

def swapLink (s : RbState) (x parent y : Ptr) : Except Fault RbState :=
  if parent ≠ 0#64 then
    if s.isChild .left parent x then s.setChild .left parent y else s.setChild .right parent y
  else if s.tree.root = x then .ok (s.setRoot y)
  else .ok s

/-- One child in `rb_swap`: it moves from `x` to `y`. -/
def swapChild (side : Side) (s : RbState) (x y child : Ptr) : Except Fault RbState := do
  let s ← s.setChild side y child
  let s ← adopt s child y
  s.setChild side x 0#64

def rbSwap (s : RbState) (x y : Ptr) : Except Fault RbState := do
  let left ← s.child .left x
  let right ← s.child .right x
  let parent ← rbParent s x
  let s ← rbSetParent s y parent
  let s ← swapLink s x parent y
  let s ← swapChild .right s x y right
  let s ← swapChild .left s x y left
  let s ← rbSetColor s y (rbColor s x)
  rbSetParent s x 0#64

/-- `is_left`, as a side: `xp && x == xp->left`. -/
def sideOf (s : RbState) (x xp : Ptr) : Side := if s.isChild .left xp x then .left else .right

/-- Case 1 of `erase_rebalance`: a red sibling is rotated away. -/
def rebalanceCase1 (s : RbState) (xp w : Ptr) (side : Side) : Except Fault (RbState × Ptr) :=
  if rbColor s w = .red then do
    let s ← rbSetColor s w .black
    let s ← rbSetColor s xp .red
    let s ← rotateTo side s xp
    let w ← s.child side.other xp
    return (s, w)
  else return (s, w)

def rebalanceCase3 (s : RbState) (xp w : Ptr) (side : Side) : Except Fault (RbState × Ptr) :=
  if rbColor s (s.childOrNull side.other w) = .black then do
    let near := s.childOrNull side w
    let s ← rbSetColor s w .red
    let s ← paintNonNull s near .black
    let s ← rotateTo side.other s w
    let w ← s.child side.other xp
    return (s, w)
  else return (s, w)

def rebalanceCase4 (s : RbState) (xp w : Ptr) (side : Side) : Except Fault RbState := do
  let far ← s.child side.other w
  let s ← rbSetColor s w (rbColor s xp)
  let s ← rbSetColor s xp .black
  if far ≠ 0#64 then
    let s ← rbSetColor s far .black
    rotateTo side s xp
  else return s

/-- The rest of a pass, once the sibling is not red: case 2 moves up, cases 3 and 4 end the loop. -/
def rebalancePass (again : RbState → Ptr → Ptr → Side → Except Fault RbState) (s : RbState)
    (xp w : Ptr) (side : Side) : Except Fault RbState :=
  if rbColor s (s.childOrNull .left w) = .black ∧ rbColor s (s.childOrNull .right w) = .black then do
    let s ← paintNonNull s w .red
    let up ← rbParent s xp
    again s xp up (sideOf s xp up)
  else do
    let (s, w) ← rebalanceCase3 s xp w side
    let s ← rebalanceCase4 s xp w side
    again s s.tree.root xp side

/-- `side` is the side of `x` below `xp`, the `is_left` of the source. -/
def eraseRebalance : Nat → RbState → Ptr → Ptr → Side → Except Fault RbState
  | 0, _, _, _, _ => .error .unfinished
  | fuel + 1, s, x, xp, side =>
    if x ≠ s.tree.root ∧ rbColor s x = .black then do
      let w ← s.child side.other xp
      let (s, w) ← rebalanceCase1 s xp w side
      rebalancePass (eraseRebalance fuel) s xp w side
    else paintNonNull s x .black

/-- `if (node == tree->most_left) tree->most_left = rb_next(node)` -/
def dropMostLeft (s : RbState) (node : Ptr) : Except Fault RbState :=
  if node = s.tree.mostLeft then do
    let next ← rbNext s node
    return s.setMostLeft next
  else .ok s

/-- The node that leaves its place: `node` itself, or its predecessor if it has two children. -/
def eraseVictim (s : RbState) (node : Ptr) : Except Fault Ptr := do
  let left ← s.child .left node
  let right ← s.child .right node
  if left ≠ 0#64 ∧ right ≠ 0#64 then farthest .right s passes left else return node

/-- The child that moves up to the place of `y`. -/
def onlyChild (s : RbState) (y : Ptr) : Except Fault Ptr := do
  let left ← s.child .left y
  if left ≠ 0#64 then return left else s.child .right y

/-- Unlink `y` and return its child, that child's new parent and the side it is on. -/
def eraseUnlink (s : RbState) (y : Ptr) : Except Fault (RbState × Ptr × Ptr × Side) := do
  let x ← onlyChild s y
  let yp ← rbParent s y
  let s ← adopt s x yp
  let side := sideOf s y yp
  let s ← relink s y yp x
  return (s, x, yp, side)

/-- Put `y` in the place of `node`, and follow `xp` if it was `node`. -/
def eraseReplace (s : RbState) (node y xp : Ptr) : Except Fault (RbState × Ptr) :=
  if y ≠ node then do
    let s ← rbSwap s node y
    return (s, if xp = node then y else xp)
  else return (s, xp)

/-- The last lines of `rb_erase`. -/
def clearNode (s : RbState) (node : Ptr) : Except Fault RbState := do
  let s ← s.setChild .left node 0#64
  let s ← s.setChild .right node 0#64
  rbSetParent s node 0#64

def rbErase (s : RbState) (node : Ptr) : Except Fault RbState :=
  if node = 0#64 then .ok s
  else do
    let s ← dropMostLeft s node
    let y ← eraseVictim s node
    let (s, x, xp, side) ← eraseUnlink s y
    let color := rbColor s y
    let (s, xp) ← eraseReplace s node y xp
    let s ← (if color = .black then eraseRebalance passes s x xp side else .ok s)
    clearNode s node

end Deletion

end ByteOS.Ds
