import ByteOS.Lib.Chain
import ByteOS.Lib.Tiling
import ByteOS.Mm.Pmm

/-! The free lists of the buddy allocator as lists of page numbers.

`Threaded` ties the free lists in memory to lists of page numbers and says that
the free blocks and the held blocks tile a region by aligned blocks. A block
that is being freed is held until the recursion inserts it. Allocation follows
`next` only; freeing needs the back links too, which `Layout` adds. `Quiet` says which
struct pages cannot be mistaken for free ones: those outside the region and the
first pages of allocated blocks have null links. Everything else may be stale.
-/

set_option autoImplicit false

namespace ByteOS.Mm.Pmm

open ByteOS.Lib
open Function (update update_self update_of_ne)
open List (nodup_cons mem_cons mem_append)

def State.next (s : State) (p : Nat) : Option Nat := (s.pageData p).next

def State.prev (s : State) (p : Nat) : Option Nat := (s.pageData p).prev

structure Threaded (s : State) (region : Nat → Prop) (lists : Nat → List Nat)
    (held : List (Nat × Nat)) : Prop where
  chain : ∀ k, k < maxOrder → Chain s.next (s.zone.freeLists k) (lists k)
  order : ∀ k p, p ∈ lists k → (s.pageData p).order = k
  tiles : Tiles pow2 region fun p k => p ∈ lists k ∨ (p, k) ∈ held
  aligned : ∀ p k, p ∈ lists k ∨ (p, k) ∈ held → 2 ^ k ∣ p
  bounded : ∀ p k, p ∈ lists k ∨ (p, k) ∈ held → k < maxOrder
  exclusive : ∀ p k, (p, k) ∈ held → p ∉ lists k
  once : held.Nodup

structure Layout (s : State) (region : Nat → Prop) (lists : Nat → List Nat)
    (held : List (Nat × Nat)) : Prop extends Threaded s region lists held where
  back : ∀ k, BackLinked s.prev (lists k)

/-- Pages whose links must be null: outside the region, or the first page of
an allocated block. -/
def Silent (region : Nat → Prop) (held : List (Nat × Nat)) (p : Nat) : Prop :=
  ¬ region p ∨ ∃ k, (p, k) ∈ held

def Quiet (s : State) (silent : Nat → Prop) : Prop :=
  ∀ p, silent p → s.next p = none ∧ s.prev p = none

variable {p k j page order : Nat}

section
variable {s s' : State} {region : Nat → Prop} {lists : Nat → List Nat} {held : List (Nat × Nat)}

section

variable (layout : Threaded s region lists held)
include layout

theorem Threaded.order_unique (first : p ∈ lists k ∨ (p, k) ∈ held)
    (second : p ∈ lists j ∨ (p, j) ∈ held) : k = j :=
  layout.tiles.start_unique (fun _ => Nat.two_pow_pos _) first second

theorem Threaded.held_not_listed (member : (p, k) ∈ held) : p ∉ lists j := by
  intro listed
  have same := layout.order_unique (.inr member) (.inl listed)
  subst same
  exact layout.exclusive p k member listed

theorem Threaded.start_inside (block : p ∈ lists k ∨ (p, k) ∈ held) : region p :=
  layout.tiles.inside p k p block ⟨le_refl p, Nat.lt_add_of_pos_right (Nat.two_pow_pos k)⟩

theorem Threaded.quiet_not_listed (silent : Silent region held p) : p ∉ lists k := by
  intro listed
  rcases silent with outside | ⟨j, member⟩
  · exact outside (layout.start_inside (.inl listed))
  · exact layout.held_not_listed member listed

theorem Threaded.head_listed (small : k < maxOrder) (head : s.zone.freeLists k = some p) :
    ∃ rest, lists k = p :: rest := by
  have start := (layout.chain k small).start_eq
  rw [head] at start
  exact List.head?_eq_some_iff.mp start.symm

theorem Threaded.head_mem (small : k < maxOrder) (head : s.zone.freeLists k = some p) : p ∈ lists k := by
  obtain ⟨rest, equal⟩ := layout.head_listed small head
  simp [equal]

theorem Threaded.perm {held' : List (Nat × Nat)} (perm : held'.Perm held) :
    Threaded s region lists held' where
  chain := layout.chain
  order := layout.order
  tiles := layout.tiles.congr fun _ _ => or_congr_right perm.mem_iff
  aligned p k block := layout.aligned p k (block.imp_right perm.mem_iff.mp)
  bounded p k block := layout.bounded p k (block.imp_right perm.mem_iff.mp)
  exclusive p k member := layout.exclusive p k (perm.mem_iff.mp member)
  once := perm.nodup_iff.mpr layout.once

end

/-! ## Pushing a held block on its free list -/

/-- The effect of inserting `page` at the head of the list of `order`. -/
structure Pushed (s s' : State) (page order : Nat) : Prop where
  lists : s'.zone.freeLists = update s.zone.freeLists order (some page)
  next : ∀ p, s'.next p = if p = page then s.zone.freeLists order else s.next p
  prev : ∀ p, s'.prev p = if s.zone.freeLists order = some p then some page else s.prev p
  order : ∀ p, (s'.pageData p).order = if p = page then order else (s.pageData p).order

theorem Threaded.push (layout : Threaded s region lists ((page, order) :: held))
    (pushed : Pushed s s' page order) :
    Threaded s' region (update lists order (page :: lists order)) held := by
  have absent : ∀ k, page ∉ lists k := fun _ => layout.held_not_listed (k := order) (by simp)
  have fresh : (page, order) ∉ held := (nodup_cons.mp layout.once).1
  have blocks : ∀ p k, p ∈ update lists order (page :: lists order) k ∨ (p, k) ∈ held ↔
      p ∈ lists k ∨ (p, k) ∈ (page, order) :: held := by
    intro p k
    by_cases same : k = order
    · subst same
      simp only [update_self, mem_cons, Prod.mk.injEq, and_true]
      rw [or_assoc, or_left_comm]
    · simp [same]
  have chains : ∀ k, k < maxOrder → Chain s'.next (s.zone.freeLists k) (lists k) := by
    intro k small
    apply (layout.chain k small).frame
    intro p member
    have apart : p ≠ page := fun same => absent k (same ▸ member)
    simp [pushed.next, apart]
  constructor
  · intro k small
    by_cases same : k = order
    · subst same
      simpa [pushed.lists, pushed.next] using chains k small
    · simpa [pushed.lists, update_of_ne same] using chains k small
  · intro k p member
    by_cases same : k = order
    · subst same
      rw [update_self, mem_cons] at member
      by_cases here : p = page
      · simp [pushed.order, here]
      · simpa [pushed.order, here] using layout.order k p (member.resolve_left here)
    · rw [update_of_ne same] at member
      have apart : p ≠ page := fun equal => absent k (equal ▸ member)
      simpa [pushed.order, apart] using layout.order k p member
  · exact layout.tiles.congr blocks
  · exact fun p k block => layout.aligned p k ((blocks p k).mp block)
  · exact fun p k block => layout.bounded p k ((blocks p k).mp block)
  · intro p k member listed
    by_cases same : k = order
    · subst same
      rw [update_self, mem_cons] at listed
      rcases listed with equal | listed
      · subst equal
        exact fresh member
      · exact layout.exclusive p k (by simp [member]) listed
    · rw [update_of_ne same] at listed
      exact layout.exclusive p k (by simp [member]) listed
  · exact (nodup_cons.mp layout.once).2

theorem Layout.push (layout : Layout s region lists ((page, order) :: held))
    (pushed : Pushed s s' page order) :
    Layout s' region (update lists order (page :: lists order)) held := by
  refine ⟨layout.toThreaded.push pushed, fun k => ?_⟩
  have small : order < maxOrder := layout.bounded page order (.inr (by simp))
  by_cases same : k = order
  · subst same
    rw [update_self]
    apply BackLinked.push
    · apply (layout.back k).frame
      intro p member
      -- only the old head gets a new back link, and it is not in the tail
      have other : s.zone.freeLists k ≠ some p := by
        intro head
        obtain ⟨rest, equal⟩ := layout.head_listed small head
        have distinct := (layout.chain k small).nodup
        rw [equal] at distinct member
        exact (nodup_cons.mp distinct).1 member
      simp [pushed.prev, other]
    · intro b first
      have head : s.zone.freeLists k = some b := (layout.chain k small).start_eq.trans first
      simp [pushed.prev, head]
  · rw [update_of_ne same]
    apply (layout.back k).frame
    intro p member
    have other : s.zone.freeLists order ≠ some p := fun head =>
      same (layout.order_unique (.inl (List.mem_of_mem_tail member)) (.inl (layout.head_mem small head)))
    simp [pushed.prev, other]

theorem Quiet.push {silent : Nat → Prop} (layout : Threaded s region lists ((page, order) :: held))
    (quiet : Quiet s silent) (pushed : Pushed s s' page order)
    (apart : ∀ p, silent p → p ≠ page ∧ p ∉ lists order) : Quiet s' silent := by
  intro p here
  obtain ⟨different, unlisted⟩ := apart p here
  have small : order < maxOrder := layout.bounded page order (.inr (by simp))
  have unheaded : s.zone.freeLists order ≠ some p := fun head => unlisted (layout.head_mem small head)
  simpa [pushed.next, pushed.prev, different, unheaded] using quiet p here

theorem Threaded.silent_apart (layout : Threaded s region lists ((page, order) :: held))
    (silent : Silent region held p) : p ≠ page ∧ ∀ k, p ∉ lists k := by
  have grown : Silent region ((page, order) :: held) p :=
    silent.imp_right fun ⟨j, member⟩ => ⟨j, List.mem_cons_of_mem _ member⟩
  refine ⟨?_, fun k => layout.quiet_not_listed grown⟩
  rintro rfl
  rcases silent with outside | ⟨j, member⟩
  · exact outside (layout.start_inside (k := order) (.inr (by simp)))
  · have same : j = order :=
      layout.order_unique (p := p) (.inr (by simp [member])) (.inr (by simp))
    subst same
    exact (nodup_cons.mp layout.once).1 member

/-! ## Taking a block off its free list -/

/-- The effect of taking `head` off the front of the list of `order`; what
happens to the links of `head` itself is left open. -/
structure Detached (s s' : State) (head order : Nat) : Prop where
  lists : s'.zone.freeLists = update s.zone.freeLists order (s.next head)
  next : ∀ p, p ≠ head → s'.next p = s.next p
  prev : ∀ p, p ≠ head → s'.prev p = s.prev p
  order : ∀ p, p ≠ head → (s'.pageData p).order = (s.pageData p).order

section

variable {head : Nat} {rest : List Nat} (listed : lists order = head :: rest)
include listed

/-- Without its head, a list has the other blocks, and no list has the head. -/
theorem Threaded.without_head (layout : Threaded s region lists held) (p k : Nat)
    (member : p ∈ update lists order rest k) : p ∈ lists k ∧ p ≠ head := by
  have here : head ∈ lists order := by simp [listed]
  have distinct := (layout.chain order (layout.bounded head order (.inl here))).nodup
  rw [listed, nodup_cons] at distinct
  obtain ⟨old, other⟩ := (mem_update_tail listed distinct.1 p k).mp member
  refine ⟨old, fun same => other ⟨same, ?_⟩⟩
  exact layout.order_unique (.inl old) (.inl (same ▸ here))

theorem Threaded.detach (layout : Threaded s region lists held) (detached : Detached s s' head order) :
    Threaded s' region (update lists order rest) ((head, order) :: held) := by
  have without := layout.without_head listed
  have blocks : ∀ p k, p ∈ update lists order rest k ∨ (p, k) ∈ (head, order) :: held ↔
      p ∈ lists k ∨ (p, k) ∈ held := by
    intro p k
    by_cases same : k = order
    · subst same
      simp only [update_self, listed, mem_cons, Prod.mk.injEq, and_true]
      rw [or_left_comm, or_assoc]
    · simp [same]
  have held_apart : ∀ p k, (p, k) ∈ held → p ≠ head := by
    rintro p k member rfl
    exact layout.held_not_listed (j := order) member (by simp [listed])
  constructor
  · intro k small
    rw [detached.lists]
    exact (chain_update_tail listed (layout.chain k small)).frame fun p member =>
      detached.next p (without p k member).2
  · intro k p member
    obtain ⟨old, apart⟩ := without p k member
    rw [detached.order p apart]
    exact layout.order k p old
  · exact layout.tiles.congr blocks
  · exact fun p k block => layout.aligned p k ((blocks p k).mp block)
  · exact fun p k block => layout.bounded p k ((blocks p k).mp block)
  · intro p k member
    rcases mem_cons.mp member with same | member
    · cases same
      exact fun listed => (without head order listed).2 rfl
    · exact fun listed => layout.exclusive p k member (without p k listed).1
  · exact nodup_cons.mpr ⟨fun member => held_apart head order member rfl, layout.once⟩

theorem Layout.detach (layout : Layout s region lists held) (detached : Detached s s' head order) :
    Layout s' region (update lists order rest) ((head, order) :: held) := by
  refine ⟨layout.toThreaded.detach listed detached, fun k => ?_⟩
  have shorter : BackLinked s.prev (update lists order rest k) := by
    by_cases same : k = order
    · subst same
      have back := layout.back k
      rw [listed] at back
      rw [update_self]
      exact BackLinked.tail back
    · rw [update_of_ne same]
      exact layout.back k
  refine shorter.frame fun p member => detached.prev p ?_
  exact (layout.without_head listed p k (List.mem_of_mem_tail member)).2

end

/-- The effect of unlinking `b`, whose predecessor is `a`. -/
structure Unlinked (s s' : State) (a b : Nat) : Prop where
  lists : s'.zone.freeLists = s.zone.freeLists
  next : s'.next = update s.next a (s.next b)
  prev : ∀ p, s'.prev p = if s.next b = some p then some a else s.prev p
  order : ∀ p, (s'.pageData p).order = (s.pageData p).order

theorem Layout.unlink {a b : Nat} {before after : List Nat} (layout : Layout s region lists held)
    (listed : lists order = before ++ a :: b :: after) (unlinked : Unlinked s s' a b) :
    Layout s' region (update lists order (before ++ a :: after)) ((b, order) :: held) := by
  have chain := layout.chain order (layout.bounded a order (.inl (by simp [listed])))
  rw [listed] at chain
  have distinct := chain.nodup
  have following : s.next b = after.head? := by
    have split : before ++ a :: b :: after = (before ++ [a]) ++ b :: after := by simp
    rw [split] at chain
    exact chain.suffix.start_eq
  have smaller : ∀ p k, p ∈ update lists order (before ++ a :: after) k → p ∈ lists k := by
    intro p k member
    by_cases same : k = order
    · subst same
      rw [update_self] at member
      rw [listed]
      simp at member ⊢
      exact member.imp_right (Or.imp_right .inr)
    · rwa [update_of_ne same] at member
  have blocks : ∀ p k, p ∈ update lists order (before ++ a :: after) k ∨
      (p, k) ∈ (b, order) :: held ↔ p ∈ lists k ∨ (p, k) ∈ held := by
    intro p k
    by_cases same : k = order
    · subst same
      simp only [update_self, listed, mem_append, mem_cons, Prod.mk.injEq, and_true]
      grind
    · simp [same]
  -- a page of another list is neither `a` nor the successor of `b`
  have other : ∀ k p, k ≠ order → p ∈ lists k → p ≠ a ∧ s.next b ≠ some p := by
    intro k p different member
    constructor
    · rintro rfl
      exact different (layout.order_unique (.inl member) (.inl (by simp [listed])))
    · intro successor
      have inAfter : p ∈ after := List.mem_of_head? (following.symm.trans successor)
      exact different (layout.order_unique (.inl member) (.inl (by simp [listed, inAfter])))
  refine ⟨⟨fun k small => ?_, fun k p member => ?_, layout.tiles.congr blocks,
    fun p k block => layout.aligned p k ((blocks p k).mp block),
    fun p k block => layout.bounded p k ((blocks p k).mp block), fun p k member => ?_, ?_⟩, fun k => ?_⟩
  · rw [unlinked.lists, unlinked.next]
    by_cases same : k = order
    · subst same
      rw [update_self]
      exact chain.unlink
    · rw [update_of_ne same]
      apply (layout.chain k small).frame
      intro p member
      exact update_of_ne (other k p same member).1 _ _
  · rw [unlinked.order]
    exact layout.order k p (smaller p k member)
  · rcases mem_cons.mp member with same | member
    · cases same
      rw [update_self]
      simp only [List.nodup_append, nodup_cons, mem_cons] at distinct
      simp only [mem_append, mem_cons]
      grind
    · exact fun listed => layout.exclusive p k member (smaller p k listed)
  · refine nodup_cons.mpr ⟨fun member => ?_, layout.once⟩
    exact layout.exclusive b order member (by simp [listed])
  · by_cases same : k = order
    · subst same
      rw [update_self]
      have back := layout.back k
      rw [listed] at back
      apply BackLinked.unlink back
      · intro c first
        simp [unlinked.prev, following, first]
      · intro p member
        have notFirst : s.next b ≠ some p := by
          intro successor
          have first : after.head? = some p := following.symm.trans successor
          cases after with
          | nil => simp at first
          | cons c rest =>
            have equal : c = p := by simpa using first
            subst equal
            simp only [List.nodup_append, nodup_cons, mem_cons, List.tail_cons,
              mem_append] at distinct member
            grind
        simp [unlinked.prev, notFirst]
    · rw [update_of_ne same]
      apply (layout.back k).frame
      intro p member
      simp [unlinked.prev, (other k p same (List.mem_of_mem_tail member)).2]

/-! ## Splitting and merging held blocks -/

theorem Threaded.splitHeld (layout : Threaded s region lists ((page, order + 1) :: held)) :
    Threaded s region lists ((buddy page order, order) :: (page, order) :: held) := by
  have whole : 2 ^ (order + 1) ∣ page := layout.aligned page (order + 1) (.inr (by simp))
  have upper : buddy page order = page + 2 ^ order := buddy_of_aligned whole
  have here : page ∈ lists (order + 1) ∨ (page, order + 1) ∈ (page, order + 1) :: held :=
    .inr (by simp)
  have positive : 0 < 2 ^ order := Nat.two_pow_pos order
  have double : 2 ^ (order + 1) = 2 ^ order + 2 ^ order := pow2_succ_eq order
  -- no other block starts at either half
  have alone : ∀ p k, p ∈ lists k ∨ (p, k) ∈ held → p ≠ page ∧ p ≠ page + 2 ^ order := by
    intro p k block
    have grown : p ∈ lists k ∨ (p, k) ∈ (page, order + 1) :: held :=
      block.imp_right (List.mem_cons_of_mem _)
    have self : Within pow2 p k p := ⟨le_refl p, Nat.lt_add_of_pos_right (Nat.two_pow_pos k)⟩
    have clash : Within pow2 page (order + 1) p → False := by
      intro within
      obtain ⟨rfl, rfl⟩ := layout.tiles.apart p k page (order + 1) p grown here self within
      rcases block with listed | member
      · exact layout.exclusive p (order + 1) (by simp) listed
      · exact (nodup_cons.mp layout.once).1 member
    unfold Within pow2 at clash
    constructor <;> intro same <;> apply clash <;> omega
  have blocks : ∀ p k, p ∈ lists k ∨ (p, k) ∈ (buddy page order, order) :: (page, order) :: held ↔
      ((p ∈ lists k ∨ (p, k) ∈ (page, order + 1) :: held) ∧ ¬ (p = page ∧ k = order + 1)) ∨
        (p = page ∧ k = order) ∨ (p = page + pow2 order ∧ k = order) := by
    intro p k
    have other := alone p k
    simp only [upper, mem_cons, Prod.mk.injEq, pow2]
    grind
  constructor
  · exact layout.chain
  · exact layout.order
  · exact (layout.tiles.split here double).congr blocks
  · intro p k block
    rcases (blocks p k).mp block with ⟨old, -⟩ | ⟨rfl, rfl⟩ | ⟨rfl, rfl⟩
    · exact layout.aligned p k old
    · exact (Nat.pow_dvd_pow 2 (Nat.le_succ k)).trans whole
    · exact Nat.dvd_add ((Nat.pow_dvd_pow 2 (Nat.le_succ k)).trans whole) (dvd_refl _)
  · intro p k block
    have bound := layout.bounded page (order + 1) here
    rcases (blocks p k).mp block with ⟨old, -⟩ | ⟨-, rfl⟩ | ⟨-, rfl⟩
    · exact layout.bounded p k old
    · omega
    · omega
  · intro p k member listed
    have other := alone p k (.inl listed)
    simp only [upper, mem_cons, Prod.mk.injEq] at member
    rcases member with ⟨rfl, -⟩ | ⟨rfl, -⟩ | member
    · exact other.2 rfl
    · exact other.1 rfl
    · exact layout.exclusive p k (by simp [member]) listed
  · have once := (nodup_cons.mp layout.once).2
    simp only [upper, nodup_cons, mem_cons, Prod.mk.injEq, not_or, and_true]
    refine ⟨⟨by omega, fun member => ?_⟩, fun member => ?_, once⟩
    · exact (alone _ _ (.inr member)).2 rfl
    · exact (alone _ _ (.inr member)).1 rfl

theorem Threaded.mergeHeld (room : order + 1 < maxOrder)
    (layout : Threaded s region lists ((buddy page order, order) :: (page, order) :: held)) :
    Threaded s region lists ((min (buddy page order) page, order + 1) :: held) := by
  have aligned : 2 ^ order ∣ page := layout.aligned page order (.inr (by simp))
  -- put the lower half `low` first, so that both orders of the pair look the same
  obtain ⟨low, whole, lowest, perm⟩ : ∃ low, 2 ^ (order + 1) ∣ low ∧ min (buddy page order) page = low ∧
      ((low, order) :: (low + 2 ^ order, order) :: held).Perm
        ((buddy page order, order) :: (page, order) :: held) := by
    rcases buddy_cases aligned with ⟨whole, same⟩ | ⟨large, whole, same⟩
    · refine ⟨page, whole, by omega, ?_⟩
      rw [same]
      exact .swap _ _ _
    · refine ⟨page - 2 ^ order, whole, by omega, ?_⟩
      rw [same, Nat.sub_add_cancel large]
  rw [lowest]
  replace layout := layout.perm perm
  have lower : low ∈ lists order ∨ (low, order) ∈ (low, order) :: (low + 2 ^ order, order) ::
      held := .inr (by simp)
  have upper : low + pow2 order ∈ lists order ∨
      (low + pow2 order, order) ∈ (low, order) :: (low + 2 ^ order, order) :: held := .inr (by simp [pow2])
  have unlisted : ∀ k, low ∉ lists k ∧ low + 2 ^ order ∉ lists k := fun _ =>
    ⟨layout.held_not_listed (k := order) (by simp), layout.held_not_listed (k := order) (by simp)⟩
  have once := layout.once
  simp only [nodup_cons, mem_cons, Prod.mk.injEq, not_or] at once
  have blocks : ∀ p k, p ∈ lists k ∨ (p, k) ∈ (low, order + 1) :: held ↔
      ((p ∈ lists k ∨ (p, k) ∈ (low, order) :: (low + 2 ^ order, order) :: held) ∧
        ¬ (p = low ∧ k = order) ∧ ¬ (p = low + pow2 order ∧ k = order)) ∨ (p = low ∧ k = order + 1) := by
    intro p k
    have other := unlisted k
    simp only [mem_cons, Prod.mk.injEq, pow2]
    grind
  constructor
  · exact layout.chain
  · exact layout.order
  · exact (layout.tiles.merge lower upper (pow2_succ_eq order)).congr blocks
  · intro p k block
    rcases (blocks p k).mp block with ⟨old, -⟩ | ⟨rfl, rfl⟩
    · exact layout.aligned p k old
    · exact whole
  · intro p k block
    rcases (blocks p k).mp block with ⟨old, -⟩ | ⟨-, rfl⟩
    · exact layout.bounded p k old
    · exact room
  · intro p k member
    rcases mem_cons.mp member with same | member
    · cases same
      exact (unlisted (order + 1)).1
    · exact layout.exclusive p k (by simp [member])
  · refine nodup_cons.mpr ⟨fun member => ?_, once.2.2⟩
    have clash := layout.order_unique (p := low) (k := order + 1) (.inr (by simp [member])) lower
    omega

end

end ByteOS.Mm.Pmm
