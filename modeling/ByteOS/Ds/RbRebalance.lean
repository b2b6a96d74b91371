import ByteOS.Ds.RbInsert

/-! The loop of `erase_rebalance` computes `Lib.RedBlack.rebalance`.

In these lemmas `p` is the parent of the subtree `x` that lacks a black node, `w`
the root of its sibling, and `near` and `far` are the sibling's subtrees as seen
from `x`.
-/

set_option autoImplicit false

namespace ByteOS.Ds

open Lib Mm RedBlack ColorTree

variable {s : RbState} {up : Context Ptr} {side : Side} {cp cw : Color} {p w : Ptr}
    {x near far sibling : ColorTree Ptr}
variable {t : ColorTree Ptr} {fuel : Nat} {q : Ptr}

section Focus

theorem plug_sibling (sibling : ColorTree Ptr) :
    plug up (join side cp p x sibling) = plug (⟨side.other, cp, p, x⟩ :: up) sibling :=
  plug_turn ⟨side, cp, p, sibling⟩ up x

theorem plug_near (near : ColorTree Ptr) : plug up (join side cp p x (join side cw w near far)) =
    plug (⟨side, cw, w, far⟩ :: ⟨side.other, cp, p, x⟩ :: up) near :=
  plug_sibling _

theorem plug_far (far : ColorTree Ptr) : plug up (join side cp p x (join side cw w near far)) =
    plug (⟨side.other, cw, w, near⟩ :: ⟨side.other, cp, p, x⟩ :: up) far := by
  rw [plug_sibling, plug_sibling]

theorem rotateTo_spec (rep : Represents s (plug up (join side cp p x (join side cw w near far)))) :
    ∃ s', rotateTo side s p = .ok s' ∧
      Rearranged s (plug up (join side cp p x (join side cw w near far))) s'
      (plug up (join side cw w (join side cp p x near) far)) := by
  have shape : join side cp p x (join side cw w near far) =
      join side.other cp p (join side.other cw w far near) x := by
    rw [join_other, join_other]
  have shape' : join side cw w (join side cp p x near) far =
      join side.other cw w far (join side.other cp p near x) := by
    rw [join_other, join_other]
  rw [shape, shape', rotateTo_eq]
  exact rotate_spec (shape ▸ rep)

theorem Holds.child_holds {mem : Ptr → RbNode} {parent : Ptr} (holds : Holds mem parent t)
    (side : Side) : Holds mem (address t) (t.child side) := by
  cases t with
  | leaf => cases side <;> trivial
  | node color left q right =>
    obtain ⟨_, _, _, _, _, below, below'⟩ := holds
    cases side with
    | left => exact below
    | right => exact below'

theorem childOrNull_spec {parent : Ptr} (holds : Holds s.mem parent t) (side : Side) :
    s.childOrNull side (address t) = address (t.child side) := by
  cases t with
  | leaf => cases side <;> rfl
  | node color left q right =>
    have child := holds.child side
    rw [child_eq _ holds.1.nonnull] at child
    rw [RbState.childOrNull, address, if_neg holds.1.nonnull, Except.ok.inj child]

theorem color_childOrNull {parent : Ptr} (holds : Holds s.mem parent t) (side : Side) :
    rbColor s (s.childOrNull side (address t)) = (t.child side).color := by
  rw [childOrNull_spec holds side, rbColor_spec (holds.child_holds side)]

variable (rep : Represents s (plug up (join side cp p x sibling)))
include rep

theorem Represents.beside : Holds s.mem p sibling :=
  (holds_join.mp rep.inside).2.2.2.2.2.2

theorem Represents.parent : Address p :=
  (holds_join.mp rep.inside).1

theorem Represents.child_other : s.child side.other p = .ok (address sibling) := by
  rw [child_eq _ rep.parent.nonnull]
  exact congrArg _ (holds_join.mp rep.inside).2.2.2.2.1

end Focus

section Cases

theorem rebalanceCase1_spec (rep : Represents s (plug up (join side cp p x (join side .red w near far)))) :
    ∃ s', rebalanceCase1 s p w side = .ok (s', address near) ∧
      Rearranged s (plug up (join side cp p x (join side .red w near far))) s'
        (plug up (join side .black w (join side .red p x near) far)) := by
  have color : rbColor s w = .red := by
    have color := rbColor_spec rep.beside
    rwa [address_join, color_join] at color
  obtain ⟨s1, run1, done1⟩ := rbSetColor_spec (plug_sibling (join side .red w near far) ▸ rep) .black
  rw [← plug_sibling, ← plug_sibling] at done1
  obtain ⟨s2, run2, done2⟩ := rbSetColor_spec done1.represents .red
  obtain ⟨s3, run3, done3⟩ := rotateTo_spec done2.represents
  -- the new sibling, below `w` now
  have below : Represents s3 (plug (⟨side, .black, w, far⟩ :: up) (join side .red p x near)) :=
    done3.represents
  refine ⟨s3, ?_, (done1.trans done2).trans done3⟩
  rw [rebalanceCase1, if_pos color, run1, ok_bind, run2, ok_bind, run3, ok_bind, below.child_other]
  rfl

theorem rebalanceCase1_black (rep : Represents s (plug up (join side cp p x sibling)))
    (black : sibling.color ≠ .red) :
    rebalanceCase1 s p (address sibling) side = .ok (s, address sibling) := by
  rw [rebalanceCase1, rbColor_spec rep.beside, if_neg black]
  rfl

theorem rebalanceCase3_far
    (rep : Represents s (plug up (join side cp p x (join side cw w near far))))
    (red : far.color ≠ .black) : rebalanceCase3 s p w side = .ok (s, w) := by
  have color := color_childOrNull rep.beside side.other
  rw [address_join, child_other_join] at color
  rw [rebalanceCase3, color, if_neg red]
  rfl

theorem rebalanceCase3_near {cn : Color} {n : Ptr} {a b : ColorTree Ptr}
    (rep : Represents s (plug up (join side cp p x (join side cw w (join side cn n a b) far))))
    (black : far.color = .black) :
    ∃ s', rebalanceCase3 s p w side = .ok (s', n) ∧
      Rearranged s (plug up (join side cp p x (join side cw w (join side cn n a b) far))) s'
        (plug up (join side cp p x (join side .black n a (join side .red w b far)))) := by
  have color := color_childOrNull rep.beside side.other
  have nearer := childOrNull_spec rep.beside side
  rw [address_join, child_other_join] at color
  rw [address_join, child_join, address_join] at nearer
  obtain ⟨s1, run1, done1⟩ :=
    rbSetColor_spec (plug_sibling (join side cw w (join side cn n a b) far) ▸ rep) .red
  rw [← plug_sibling, ← plug_sibling] at done1
  obtain ⟨s2, run2, done2⟩ := paintNonNull_spec (plug_near (join side cn n a b) ▸ done1.represents) .black
  rw [address_join] at run2
  rw [← plug_near, ← plug_near, paint_join] at done2
  obtain ⟨s3, run3, done3⟩ :=
    rotate_spec (plug_sibling (join side .red w (join side .black n a b) far) ▸ done2.represents)
  rw [← plug_sibling, ← plug_sibling] at done3
  have turned : s3.child side.other p = .ok n := by
    have child := done3.represents.child_other
    rwa [address_join] at child
  refine ⟨s3, ?_, (done1.trans done2).trans done3⟩
  rw [rebalanceCase3, color, if_pos black, nearer, run1, ok_bind, run2, ok_bind, rotateTo_eq,
    Side.other_other, run3, ok_bind, turned]
  rfl

theorem rebalanceCase4_spec
    (rep : Represents s (plug up (join side cp p x (join side cw w near far)))) (red : far.color = .red) :
    ∃ s', rebalanceCase4 s p w side = .ok s' ∧
      Rearranged s (plug up (join side cp p x (join side cw w near far))) s'
        (plug up (join side cp w (join side .black p x near) (far.paint .black))) := by
  have present : far ≠ .leaf := by
    rintro rfl
    simp [ColorTree.color] at red
  obtain ⟨s1, run1, done1⟩ := rbSetColor_spec (plug_sibling (join side cw w near far) ▸ rep) cp
  rw [← plug_sibling, ← plug_sibling] at done1
  obtain ⟨s2, run2, done2⟩ := rbSetColor_spec done1.represents .black
  have atFar := plug_far far ▸ done2.represents
  obtain ⟨s3, run3, done3⟩ := paintNonNull_spec atFar .black
  rw [paintNonNull, if_pos (atFar.nonnull present)] at run3
  rw [← plug_far, ← plug_far] at done3
  obtain ⟨s4, run4, done4⟩ := rotateTo_spec done3.represents
  have colorP : rbColor s p = cp := by
    have color := rbColor_spec rep.inside
    rwa [address_join, color_join] at color
  have farther : s.child side.other w = .ok (address far) := (plug_sibling _ ▸ rep).child_other
  refine ⟨s4, ?_, ((done1.trans done2).trans done3).trans done4⟩
  rw [rebalanceCase4, farther, ok_bind, colorP, run1, ok_bind, run2, ok_bind,
    if_pos (atFar.nonnull present), run3, ok_bind, run4]

/-- Cases 3 and 4 together, for a sibling with a red child. -/
theorem rebalanceCases_spec (rep : Represents s (plug up (join side cp p x sibling)))
    (reddish : ¬ BlackChildren sibling) :
    ∃ s', (rebalanceCase3 s p (address sibling) side >>= fun r => rebalanceCase4 r.1 p r.2 side) =
      .ok s' ∧ Rearranged s (plug up (join side cp p x sibling)) s'
        (plug up (liftSibling ⟨side, cp, p, sibling⟩ x (turnSibling side sibling))) := by
  have present : sibling ≠ .leaf := by
    rintro rfl
    exact reddish ⟨rfl, rfl⟩
  obtain ⟨cw, w, near, far, rfl⟩ := exists_join side present
  rw [address_join]
  by_cases black : far.color = .black
  · -- the near child is the red one
    have red : near ≠ .leaf := by
      rintro rfl
      exact reddish (blackChildren_join.mpr ⟨rfl, black⟩)
    obtain ⟨cn, n, a, b, rfl⟩ := exists_join side red
    obtain ⟨s1, run1, done1⟩ := rebalanceCase3_near rep black
    obtain ⟨s2, run2, done2⟩ := rebalanceCase4_spec done1.represents (color_join _ _ _ _ _)
    refine ⟨s2, by rw [run1, ok_bind, run2], ?_⟩
    rw [turnSibling_near black]
    exact done1.trans ((liftSibling_join ⟨side, cp, p, _⟩ x).symm ▸ done2)
  · have red : far.color = .red := by
      by_contra other
      exact black (Color.eq_black_of_ne other)
    obtain ⟨s1, run1, done1⟩ := rebalanceCase4_spec rep red
    refine ⟨s1, by rw [rebalanceCase3_far rep black, ok_bind, run1], ?_⟩
    rw [turnSibling_far black]
    exact (liftSibling_join ⟨side, cp, p, _⟩ x).symm ▸ done1

end Cases

section Loop

variable {ctx : Context Ptr} {f : Frame Ptr}

/-- The side of a hole, as `is_left` is computed: false at the root. -/
def holeSide : Context Ptr → Side
  | [] => .right
  | f :: _ => f.side

theorem sideOf_eq {x : Ptr} (around : Surrounds s.mem s.tree.root ctx x) (nonnull : x ≠ 0#64)
    (outside : x ∉ ctx.around) : sideOf s x (holder ctx) = holeSide ctx := by
  cases ctx with
  | nil => rfl
  | cons f up =>
    simp only [Context.mem_around_cons, not_or] at outside
    have left := isChild_iff around nonnull outside.2.1 .left
    rw [sideOf, holder, holeSide]
    cases side : f.side with
    | left => rw [if_pos (left.mpr side)]
    | right => rw [if_neg (by simp [left, side])]

section

variable (again : RbState → Ptr → Ptr → Side → Except Fault RbState)
    (rep : Represents s (plug up (join side cp p x sibling)))
include again rep

theorem rebalancePass_black (black : BlackChildren sibling) :
    ∃ s', rebalancePass again s p (address sibling) side = again s' p (holder up) (holeSide up) ∧
      Rearranged s (plug up (join side cp p x sibling)) s'
      (plug up (join side cp p x (sibling.paint .red))) := by
  obtain ⟨s1, run1, done1⟩ := paintNonNull_spec (plug_sibling sibling ▸ rep) .red
  rw [← plug_sibling, ← plug_sibling] at done1
  have inhabited := attach_ne_leaf ⟨side, cp, p, sibling.paint .red⟩ x
  have parent := done1.represents.rbParent inhabited
  have around := done1.represents.surrounds
  have outside : p ∉ up.around := fun inside => rep.apart inside (by simp)
  rw [address_join] at parent around
  refine ⟨s1, ?_, done1⟩
  unfold BlackChildren at black
  rw [rebalancePass, color_childOrNull rep.beside, color_childOrNull rep.beside, if_pos black, run1,
    ok_bind, parent, ok_bind, sideOf_eq around rep.parent.nonnull outside]

theorem rebalancePass_red (reddish : ¬ BlackChildren sibling) :
    ∃ s', rebalancePass again s p (address sibling) side = again s' s'.tree.root p side ∧
      Rearranged s (plug up (join side cp p x sibling)) s'
        (plug up (liftSibling ⟨side, cp, p, sibling⟩ x (turnSibling side sibling))) := by
  obtain ⟨s1, run1, done1⟩ := rebalanceCases_spec rep reddish
  obtain ⟨r, run3, run4⟩ := bind_eq_ok.mp run1
  refine ⟨s1, ?_, done1⟩
  unfold BlackChildren at reddish
  rw [rebalancePass, color_childOrNull rep.beside, color_childOrNull rep.beside, if_neg reddish,
    run3, ok_bind]
  exact congrArg (· >>= fun s => again s s.tree.root p side) run4

end

theorem eraseRebalance_red (rep : Represents s (plug ctx x)) (red : x.color = .red) :
    ∃ s', eraseRebalance (fuel + 1) s (address x) q side = .ok s' ∧
      Rearranged s (plug ctx x) s' (plug ctx (x.paint .black)) := by
  obtain ⟨s', run, done⟩ := paintNonNull_spec rep .black
  refine ⟨s', ?_, done⟩
  rw [eraseRebalance, rep.color, red, if_neg (by simp), run]

theorem eraseRebalance_root (rep : Represents s t) :
    ∃ s', eraseRebalance (fuel + 1) s s.tree.root q side = .ok s' ∧ Rearranged s t s' (t.paint .black) := by
  have top : Represents s (plug [] t) := rep
  obtain ⟨s', run, done⟩ := paintNonNull_spec top .black
  refine ⟨s', ?_, done⟩
  rw [eraseRebalance, if_neg (by simp), rep.root, run]

theorem address_plug_mem (f : Frame Ptr) (up : Context Ptr) (t : ColorTree Ptr) :
    address (plug (f :: up) t) ∈ Context.around (f :: up) := by
  induction up generalizing f t with
  | nil => simp [plug, Frame.attach]
  | cons g up ih =>
    have above := ih g (f.attach t)
    rw [Context.mem_around_cons]
    exact .inr (.inr above)

section

variable (rep : Represents s (plug (f :: up) x))
include rep

theorem Represents.ne_root : address x ≠ s.tree.root := by
  rw [rep.root]
  have inside := address_plug_mem f up x
  have nonnull : address (plug (f :: up) x) ≠ 0#64 :=
    (rep.holds.address_of_mem (mem_plug.mpr (.inl inside))).nonnull
  exact address_ne nonnull (rep.apart inside)

theorem eraseRebalance_step (black : x.color = .black) :
    eraseRebalance (fuel + 1) s (address x) f.p f.side =
      (rebalanceCase1 s f.p (address f.sibling) f.side >>= fun r =>
        rebalancePass (eraseRebalance fuel) r.1 f.p r.2 f.side) := by
  have place : Represents s (plug up (join f.side f.color f.p x f.sibling)) := rep
  rw [eraseRebalance, rep.color, if_pos ⟨rep.ne_root, black⟩, place.child_other, ok_bind]

/-- With a red sibling the loop ends in this pass or at the next test. -/
theorem eraseRebalance_redSibling (black : x.color ≠ .red)
    (sibling : f.sibling = join f.side .red w near far) :
    ∃ s', eraseRebalance (fuel + 2) s (address x) f.p f.side = .ok s' ∧
      Rearranged s (plug (f :: up) x) s' (rebalance (f :: up) x) := by
  have shape : plug (f :: up) x = plug up (join f.side f.color f.p x (join f.side .red w near far)) := by
    rw [plug, Frame.attach, sibling]
  obtain ⟨s1, run1, done1⟩ := rebalanceCase1_spec (shape ▸ rep)
  have rep1 : Represents s1 (plug (⟨f.side, .black, w, far⟩ :: up) (join f.side .red f.p x near)) :=
    done1.represents
  rw [eraseRebalance_step rep (Color.eq_black_of_ne black), sibling, address_join, run1, ok_bind,
    rebalance_redSibling black sibling, shape]
  split
  case isTrue blackNear =>
    obtain ⟨s2, run2, done2⟩ := rebalancePass_black (eraseRebalance (fuel + 1)) rep1 blackNear
    obtain ⟨s3, run3, done3⟩ := eraseRebalance_red done2.represents (color_join _ _ _ _ _)
    rw [address_join] at run3
    rw [paint_join] at done3
    exact ⟨s3, by rw [run2, run3], (done1.trans done2).trans done3⟩
  case isFalse reddish =>
    obtain ⟨s2, run2, done2⟩ := rebalancePass_red (eraseRebalance (fuel + 1)) rep1 reddish
    obtain ⟨s3, run3, done3⟩ := eraseRebalance_root done2.represents
    exact ⟨s3, by rw [run2, run3], (done1.trans done2).trans done3⟩

end

/-- The loop restores the balance, given two passes more than there are ancestors. -/
theorem eraseRebalance_spec (fuel : Nat) (rep : Represents s (plug ctx x))
    (enough : ctx.length + 1 < fuel) :
    ∃ s', eraseRebalance fuel s (address x) (holder ctx) (holeSide ctx) = .ok s' ∧
      Rearranged s (plug ctx x) s' (rebalance ctx x) := by
  obtain ⟨fuel, rfl⟩ : ∃ n, fuel = n + 2 := ⟨fuel - 2, by omega⟩
  induction ctx generalizing s x fuel with
  | nil =>
    have top : Represents s x := rep
    obtain ⟨s', run, done⟩ := eraseRebalance_root top
    exact ⟨s', by rwa [top.root] at run, done⟩
  | cons f up ih =>
    by_cases black : x.color = .red
    · rw [rebalance_red black]
      exact eraseRebalance_red rep black
    by_cases red : f.sibling.color = .red
    · have present : f.sibling ≠ .leaf := by
        intro leaf
        simp [leaf, ColorTree.color] at red
      obtain ⟨color, w, near, far, sibling⟩ := exists_join f.side present
      rw [sibling, color_join] at red
      exact eraseRebalance_redSibling rep black (red ▸ sibling)
    · rw [holder, holeSide, eraseRebalance_step rep (Color.eq_black_of_ne black),
        rebalanceCase1_black rep red, ok_bind, rebalance_blackSibling black red]
      split
      case isTrue blackSibling =>
        simp only [List.length_cons] at enough
        obtain ⟨fuel, rfl⟩ : ∃ n, fuel = n + 1 := ⟨fuel - 1, by omega⟩
        obtain ⟨s1, run1, done1⟩ := rebalancePass_black (eraseRebalance (fuel + 2)) rep blackSibling
        obtain ⟨s2, run2, done2⟩ := ih done1.represents fuel (by omega)
        rw [address_join] at run2
        exact ⟨s2, by rw [run1, run2], done1.trans done2⟩
      case isFalse reddish =>
        obtain ⟨s1, run1, done1⟩ := rebalancePass_red (eraseRebalance (fuel + 1)) rep reddish
        obtain ⟨s2, run2, done2⟩ := eraseRebalance_root done1.represents
        exact ⟨s2, by rw [run1, run2], done1.trans done2⟩

end Loop

end ByteOS.Ds
