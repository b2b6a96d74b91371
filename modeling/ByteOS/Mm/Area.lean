import ByteOS.Lib.Chain
import ByteOS.Lib.Spans
import ByteOS.Lib.Transition
import ByteOS.Mm.Addr

/-! The areas of an address space (`kernel/mm/area.c`).

`area_add` links a `struct vm_area` into the list of an mmu behind the areas with a smaller
base. An area is named by its address, and the null pointer is `none`. The `type` and the
`flags` of an area are not read by it.
-/

set_option autoImplicit false

namespace ByteOS.Mm.Area

open Lib
open Function (update update_self update_of_ne)
open List (pairwise_append pairwise_cons mem_cons mem_append append_assoc mem_cons_self mem_cons_of_mem)

structure VmArea where
  next : Option Ptr
  base : BitVec 64
  len : BitVec 64
  deriving DecidableEq, Repr

structure AreaList where
  mem : Ptr → VmArea
  areas : Option Ptr

namespace AreaList

def next (s : AreaList) (p : Ptr) : Option Ptr := (s.mem p).next

def setNext (s : AreaList) (p : Ptr) (next : Option Ptr) : AreaList :=
  { s with mem := update s.mem p { s.mem p with next := next } }

/-- The addresses of an area, as far as they are below `2 ^ 64`. -/
def span (s : AreaList) (p : Ptr) : Span Nat :=
  ⟨(s.mem p).base.toNat, (s.mem p).base.toNat + (s.mem p).len.toNat⟩

end AreaList

/-- The loop of `area_add` at `cur`, with the area before it. -/
def areaScan (s : AreaList) (area : Ptr) : Nat → Option Ptr → Option Ptr → Except Fault AreaList
  | 0, _, _ => .error .unfinished
  | _ + 1, prev, none => do
    let prev ← deref prev
    kassert ((s.mem prev).base + (s.mem prev).len < (s.mem area).base) "prev->base + prev->len < area->base"
    return s.setNext prev (some area)
  | fuel + 1, prev, some cur => do
    kassert ((s.mem cur).base ≠ (s.mem area).base) "cur->base != area->base"
    if (s.mem area).base < (s.mem cur).base then
      -- nothing compares the area with the one before it
      kassert ((s.mem area).base + (s.mem area).len < (s.mem cur).base) "area->base + area->len < cur->base"
      let s := s.setNext area (some cur)
      match prev with
      | some prev => return s.setNext prev (some area)
      | none => return ({ s with areas := some area } : AreaList).setNext area (some cur)
    else areaScan s area fuel (some cur) (s.next cur)

def areaAdd (kernelMmu mmu : Ptr) (s : AreaList) (area : Ptr) : Except Fault AreaList := do
  kassert (mmu ≠ kernelMmu) "mmu != &kernel_mmu"
  match s.areas with
  | none => return { s with areas := some area }
  | some first => areaScan s area passes none (some first)

/-! ## One call -/

section Call

variable {s s' : AreaList} {area p : Ptr} {l front rear rest : List Ptr} {prev cur : Option Ptr}
    {fuel : Nat}

namespace AreaList

@[simp] theorem setNext_next (s : AreaList) (p : Ptr) (n : Option Ptr) :
    (s.setNext p n).next = update s.next p n := by
  funext q
  by_cases same : q = p <;> simp [next, setNext, same]

@[simp] theorem setNext_areas (s : AreaList) (p : Ptr) (n : Option Ptr) :
    (s.setNext p n).areas = s.areas := rfl

@[simp] theorem setNext_base (s : AreaList) (p q : Ptr) (n : Option Ptr) :
    ((s.setNext p n).mem q).base = (s.mem q).base := by
  by_cases same : q = p <;> simp [setNext, same]

@[simp] theorem setNext_len (s : AreaList) (p q : Ptr) (n : Option Ptr) :
    ((s.setNext p n).mem q).len = (s.mem q).len := by
  by_cases same : q = p <;> simp [setNext, same]

structure Sorted (s : AreaList) (l : List Ptr) : Prop where
  listed : Chain s.next s.areas l
  sorted : l.Pairwise fun p q => (s.mem p).base < (s.mem q).base

end AreaList

/-- What a call has done that has found its place between `front` and `rear`. -/
structure Added (s : AreaList) (area : Ptr) (front rear : List Ptr) (s' : AreaList) : Prop where
  listed : Chain s'.next s'.areas (front ++ area :: rear)
  below : ∀ p ∈ front, (s.mem p).base < (s.mem area).base
  above : ∀ p ∈ rear, (s.mem area).base < (s.mem p).base
  base : ∀ p, (s'.mem p).base = (s.mem p).base
  len : ∀ p, (s'.mem p).len = (s.mem p).len
  /-- The check against the area behind it. -/
  checked : ∀ p, rear.head? = some p → (s.mem area).base + (s.mem area).len < (s.mem p).base
  others : ∀ p, p ∉ front → p ≠ area → s'.next p = s.next p

theorem added_after {before after : List Ptr} {q : Ptr}
    (chain : Chain s.next s.areas (before ++ q :: after)) (fresh : area ∉ before ++ q :: after) :
    Chain ((s.setNext area (s.next q)).setNext q (some area)).next s.areas
      (before ++ q :: area :: after) := by
  simp only [AreaList.setNext_next]
  exact chain.insert fresh

theorem Added.spans (added : Added s area front rear s') : s'.span = s.span := by
  funext p
  simp only [AreaList.span, added.base, added.len]

theorem Added.sorted (added : Added s area front rear s') (before : s.Sorted (front ++ rear)) :
    s'.Sorted (front ++ area :: rear) := by
  refine ⟨added.listed, ?_⟩
  obtain ⟨sortedF, sortedR, across⟩ := pairwise_append.mp before.sorted
  simp only [added.base]
  apply pairwise_append.mpr
  refine ⟨sortedF, pairwise_cons.mpr ⟨added.above, sortedR⟩, ?_⟩
  intro p inside q there
  obtain rfl | there := mem_cons.mp there
  · exact added.below p inside
  · exact across p inside q there

/-- The scan stops at the first area with a greater base. The induction is on the areas that
are still ahead of it; those behind it have a smaller base. -/
theorem areaScan_added (before : s.Sorted (front ++ rest)) (here : Chain s.next cur rest)
    (last : prev = front.getLast?) (below : ∀ p ∈ front, (s.mem p).base < (s.mem area).base)
    (unlinked : area ∉ front ++ rest → s.next area = none) (ran : areaScan s area fuel prev cur = .ok s') :
    ∃ front' rear, front ++ rest = front' ++ rear ∧ Added s area front' rear s' := by
  have notBelow : area ∉ front := fun inside => BitVec.lt_irrefl _ (below area inside)
  induction rest generalizing front prev cur fuel with
  | nil =>
    obtain rfl : cur = none := here
    cases fuel with
    | zero => cases ran
    | succ fuel =>
      obtain ⟨q, some, ran⟩ := bind_eq_ok.mp ran
      obtain ⟨_, checked, ran⟩ := bind_eq_ok.mp ran
      cases ran
      rw [deref_eq_ok, last] at some
      obtain ⟨front, rfl⟩ := List.getLast?_eq_some_iff.mp some
      rw [List.append_nil] at unlinked before
      refine ⟨front ++ [q], [], rfl, ?_, below, by simp, by simp, by simp, by simp, ?_⟩
      · -- the last area led nowhere, and so does the new one
        have ends : s.next q = none := before.listed.suffix
        have linked := added_after before.listed notBelow
        simp only [AreaList.setNext_next, ends, ← unlinked notBelow, Function.update_eq_self] at linked
        simpa using linked
      · intro p notFront _
        rw [AreaList.setNext_next]
        apply update_of_ne
        rintro rfl
        simp at notFront
  | cons c rest ih =>
    obtain ⟨rfl, onward⟩ := here
    cases fuel with
    | zero => cases ran
    | succ fuel =>
      obtain ⟨_, different, ran⟩ := bind_eq_ok.mp ran
      rw [kassert_eq_ok] at different
      obtain ⟨-, sortedR, -⟩ := pairwise_append.mp before.sorted
      have ahead := (pairwise_cons.mp sortedR).1
      split at ran
      case isTrue less =>
        -- the area goes in front of `c`
        obtain ⟨_, checked, ran⟩ := bind_eq_ok.mp ran
        rw [kassert_eq_ok] at checked
        have above : ∀ p ∈ c :: rest, (s.mem area).base < (s.mem p).base := by
          intro p inside
          obtain rfl | inside := mem_cons.mp inside
          · exact less
          · exact BitVec.lt_trans less (ahead p inside)
        have fresh : area ∉ front ++ c :: rest := by
          intro inside
          obtain inside | inside := mem_append.mp inside
          · exact notBelow inside
          · exact BitVec.lt_irrefl _ (above area inside)
        have next : ∀ p, (c :: rest).head? = some p → (s.mem area).base + (s.mem area).len <
            (s.mem p).base := by
          rintro p ⟨⟩
          exact checked
        refine ⟨front, c :: rest, rfl, ?_⟩
        cases prev with
        | none =>
          cases ran
          obtain rfl : front = [] := List.getLast?_eq_none_iff.mp last.symm
          have links : (({ s.setNext area (some c) with areas := some area } : AreaList).setNext
              area (some c)).next = update s.next area (some c) := by
            funext p
            by_cases same : p = area <;> simp [AreaList.next, AreaList.setNext, same]
          refine ⟨⟨rfl, ?_⟩, below, above, by simp, by simp, next, ?_⟩
          · rw [links, update_self]
            apply before.listed.start_eq ▸ before.listed.frame
            intro p inside
            apply update_of_ne
            rintro rfl
            exact fresh inside
          · intro p _ notArea
            rw [links, update_of_ne notArea]
        | some q =>
          cases ran
          obtain ⟨front, rfl⟩ := List.getLast?_eq_some_iff.mp last.symm
          rw [append_assoc] at before fresh
          have leads : s.next q = some c := before.listed.suffix.1
          refine ⟨?_, below, above, by simp, by simp, next, ?_⟩
          · have linked := added_after before.listed fresh
            rw [leads] at linked
            simpa using linked
          · intro p notFront notArea
            have notLast : p ≠ q := by
              rintro rfl
              simp at notFront
            rw [AreaList.setNext_next, AreaList.setNext_next, update_of_ne notLast, update_of_ne notArea]
      case isFalse notLess =>
        have less : (s.mem c).base < (s.mem area).base :=
          BitVec.lt_of_le_ne (BitVec.not_lt.mp notLess) different
        have split : front ++ c :: rest = front ++ [c] ++ rest := by simp
        have further : ∀ p ∈ front ++ [c], (s.mem p).base < (s.mem area).base := by
          intro p inside
          obtain inside | inside := mem_append.mp inside
          · exact below p inside
          · exact List.mem_singleton.mp inside ▸ less
        rw [split] at before unlinked ⊢
        exact ih before onward (by simp) further unlinked ran fun inside =>
          BitVec.lt_irrefl _ (further area inside)

theorem areaAdd_added {kernelMmu mmu : Ptr} (before : s.Sorted l)
    (unlinked : area ∉ l → s.next area = none) (ran : areaAdd kernelMmu mmu s area = .ok s') :
    ∃ front rear, l = front ++ rear ∧ Added s area front rear s' := by
  obtain ⟨_, _, ran⟩ := bind_eq_ok.mp ran
  cases l with
  | nil =>
    have empty : s.areas = none := before.listed
    rw [empty] at ran
    cases ran
    refine ⟨[], [], rfl, ⟨rfl, ?_⟩, by simp, by simp, by simp, by simp, by simp, fun p _ _ => rfl⟩
    exact unlinked List.not_mem_nil
  | cons first rest =>
    have head : s.areas = some first := before.listed.1
    rw [head] at ran
    have here : Chain s.next (some first) (first :: rest) := head ▸ before.listed
    have none : ∀ p ∈ ([] : List Ptr), (s.mem p).base < (s.mem area).base := nofun
    exact areaScan_added before here List.getLast?_nil.symm none unlinked ran

/-! ## What the checks leave open -/

/-- No area with a smaller base reaches over the base of the new one, and the new one does not
wrap around if there is an area behind it. -/
def Clears (s : AreaList) (area : Ptr) : Prop :=
  ∀ l, Chain s.next s.areas l →
    (∀ p ∈ l, (s.mem p).base < (s.mem area).base → (s.span p).hi ≤ (s.span area).lo) ∧
    ((∃ p ∈ l, (s.mem area).base < (s.mem p).base) → (s.span area).hi < wordMod)

def AreaList.Disjoint (s : AreaList) (l : List Ptr) : Prop :=
  l.Pairwise fun p q => (s.span p).Apart (s.span q)

theorem apart_iff {q : Ptr} (positive : 0 < (s.mem q).len) (less : (s.mem p).base < (s.mem q).base) :
    (s.span p).Apart (s.span q) ↔ (s.span p).hi ≤ (s.span q).lo := by
  have starts : (s.span p).lo < (s.span q).lo := less
  have inhabited : (s.span q).lo < (s.span q).hi := Nat.lt_add_of_pos_right positive
  unfold Span.Apart
  omega

variable (added : Added s area front rear s') (before : s.Sorted (front ++ rear))
include added before

theorem Added.ends_before (below : (s.span area).hi < wordMod) :
    ∀ q ∈ rear, (s.span area).hi ≤ (s.span q).lo := by
  intro q inside
  cases rear with
  | nil => cases inside
  | cons first rest =>
    have checked := added.checked first rfl
    have sum : ((s.mem area).base + (s.mem area).len).toNat = (s.span area).hi := by
      rw [BitVec.toNat_add]
      exact Nat.mod_eq_of_lt below
    have reach : (s.span area).hi < (s.span first).lo := sum ▸ checked
    obtain rfl | inside := mem_cons.mp inside
    · exact reach.le
    · have sorted := (pairwise_append.mp before.sorted).2.1
      have behind : (s.span first).lo < (s.span q).lo := (pairwise_cons.mp sorted).1 q inside
      exact (reach.trans behind).le

theorem Added.clears_iff (positive : ∀ p ∈ area :: rear, 0 < (s.mem p).len) :
    Clears s area ↔ (∀ p ∈ front, (s.span p).Apart (s.span area)) ∧
      ∀ q ∈ rear, (s.span area).Apart (s.span q) := by
  have room := positive area mem_cons_self
  constructor
  · intro clears
    obtain ⟨behind, wraps⟩ := clears _ before.listed
    constructor
    · intro p inside
      rw [apart_iff room (added.below p inside)]
      exact behind p (List.mem_append_left rear inside) (added.below p inside)
    · intro q inside
      rw [apart_iff (positive q (mem_cons_of_mem area inside)) (added.above q inside)]
      exact added.ends_before before
        (wraps ⟨q, List.mem_append_right front inside, added.above q inside⟩) q inside
  · rintro ⟨apartF, apartR⟩ l listed
    obtain rfl := listed.functional before.listed
    constructor
    · intro p inside less
      have inFront : p ∈ front := by
        apply (mem_append.mp inside).resolve_right
        exact fun above => BitVec.lt_asymm less (added.above p above)
      exact (apart_iff room less).mp (apartF p inFront)
    · rintro ⟨p, inside, less⟩
      have inRear : p ∈ rear := by
        apply (mem_append.mp inside).resolve_left
        exact fun below => BitVec.lt_asymm less (added.below p below)
      have ends := (apart_iff (positive p (mem_cons_of_mem area inRear)) less).mp (apartR p inRear)
      exact ends.trans_lt (s.mem p).base.isLt

theorem Added.disjoint_iff (positive : ∀ p ∈ area :: rear, 0 < (s.mem p).len) :
    s'.Disjoint (front ++ area :: rear) ↔ s.Disjoint (front ++ rear) ∧ Clears s area := by
  rw [added.clears_iff before positive, AreaList.Disjoint, AreaList.Disjoint, added.spans,
    pairwise_append, pairwise_append, pairwise_cons]
  constructor
  · rintro ⟨apartF, ⟨apartA, apartR⟩, across⟩
    refine ⟨⟨apartF, apartR, fun p inside q there => across p inside q
      (mem_cons_of_mem area there)⟩, ?_, apartA⟩
    exact fun p inside => across p inside area mem_cons_self
  · rintro ⟨⟨apartF, apartR, across⟩, behind, ahead⟩
    refine ⟨apartF, ⟨ahead, apartR⟩, fun p inside q there => ?_⟩
    obtain rfl | there := mem_cons.mp there
    · exact behind p inside
    · exact across p inside q there

end Call

/-! ## Runs -/

section Run

variable {kernelMmu mmu : Ptr} {s s' : AreaList} {added l : List Ptr}

/-- A run from a sorted list. What is already in the list may be added again, and then a check
fails. -/
theorem run_sorted (before : s.Sorted l) (unlinked : ∀ p ∈ added, p ∉ l → s.next p = none)
    (positive : ∀ p ∈ l ++ added, 0 < (s.mem p).len)
    (ran : added.foldlM (areaAdd kernelMmu mmu) s = .ok s') :
    ∃ l', s'.Sorted l' ∧ l'.Perm (l ++ added) ∧ s'.span = s.span ∧
      (s'.Disjoint l' ↔ s.Disjoint l ∧ Along (areaAdd kernelMmu mmu) Clears s added) := by
  induction added generalizing s l with
  | nil =>
    cases ran
    exact ⟨l, before, by simp, rfl, by simp [Along]⟩
  | cons area rest ih =>
    obtain ⟨s₁, first, ran⟩ := bind_eq_ok.mp ran
    obtain ⟨front, rear, rfl, added⟩ := areaAdd_added before (unlinked area mem_cons_self) first
    have sorted := added.sorted before
    have spans : s₁.span = s.span := added.spans
    have positive₁ : ∀ p ∈ (front ++ area :: rear) ++ rest, 0 < (s₁.mem p).len := by
      intro p inside
      rw [added.len]
      apply positive p
      simp only [mem_append, mem_cons] at inside ⊢
      tauto
    have unlinked₁ : ∀ p ∈ rest, p ∉ front ++ area :: rear → s₁.next p = none := by
      intro p inside fresh
      simp only [mem_append, mem_cons, not_or] at fresh
      rw [added.others p fresh.1 fresh.2.1]
      apply unlinked p (mem_cons_of_mem area inside)
      simp only [mem_append, not_or]
      exact ⟨fresh.1, fresh.2.2⟩
    obtain ⟨l', after, perm, same, disjoint⟩ := ih sorted unlinked₁ positive₁ ran
    refine ⟨l', after, perm.trans ?_, same.trans spans, ?_⟩
    · rw [append_assoc, append_assoc, List.cons_append]
      apply List.Perm.append_left
      exact List.perm_middle.symm
    · have clears := added.disjoint_iff before fun p inside => positive p (by simp at inside ⊢; tauto)
      rw [disjoint, clears, Along, first, and_assoc]

/-- After any calls of `area_add` that pass its checks the list is sorted by base and has
exactly the areas that were added. They are disjoint exactly if every call has cleared: a
call that links an area in between two others compares it with the second one only. -/
theorem areas_sorted (kernelMmu mmu : Ptr) (s s' : AreaList) (added : List Ptr)
    (empty : s.areas = none) (unlinked : ∀ p ∈ added, (s.mem p).next = none)
    (positive : ∀ p ∈ added, 0 < (s.mem p).len) (ran : added.foldlM (areaAdd kernelMmu mmu) s = .ok s') :
    ∃ l, Chain s'.next s'.areas l ∧ l.Perm added ∧ s'.span = s.span ∧
      (l.Pairwise fun p q => (s'.mem p).base < (s'.mem q).base) ∧
      (s'.Disjoint l ↔ Along (areaAdd kernelMmu mmu) Clears s added) := by
  have before : s.Sorted [] := ⟨empty, List.Pairwise.nil⟩
  obtain ⟨l, after, perm, spans, disjoint⟩ :=
    run_sorted before (fun p inside _ => unlinked p inside) positive ran
  refine ⟨l, after.listed, perm, spans, after.sorted, disjoint.trans ?_⟩
  simp [AreaList.Disjoint]

end Run

def threeAreas (base : BitVec 64) : AreaList where
  mem p := if p = 1#64 then ⟨none, 0x1000#64, 0x4000#64⟩
    else if p = 2#64 then ⟨none, 0x10000#64, 0x1000#64⟩ else ⟨none, base, 0x1000#64⟩
  areas := none

/-- The third area goes between the other two. -/
theorem areas_sorted_three : ∃ s', [1#64, 2#64, 3#64].foldlM (areaAdd 0#64 8#64)
    (threeAreas 0x6000#64) = .ok s' ∧ ∃ l, Chain s'.next s'.areas l ∧ l.Perm [1#64, 2#64, 3#64] ∧
      (s'.Disjoint l ↔ Along (areaAdd 0#64 8#64) Clears (threeAreas 0x6000#64) [1#64, 2#64, 3#64]) := by
  refine ⟨_, rfl, ?_⟩
  obtain ⟨l, listed, perm, -, -, disjoint⟩ :=
    areas_sorted 0#64 8#64 (threeAreas 0x6000#64) _ [1#64, 2#64, 3#64] rfl (by simp [threeAreas])
      (by simp [threeAreas]) rfl
  exact ⟨l, listed, perm, disjoint⟩

/-- The third area lies inside the first one and passes all checks. -/
theorem overlapping_area_added : ∃ s', [1#64, 2#64, 3#64].foldlM (areaAdd 0#64 8#64)
    (threeAreas 0x2000#64) = .ok s' ∧
    Chain s'.next s'.areas [1#64, 3#64, 2#64] ∧ s'.span 1#64 = ⟨0x1000, 0x5000⟩ ∧
      s'.span 3#64 = ⟨0x2000, 0x3000⟩ := by
  exact ⟨_, rfl, ⟨rfl, rfl, rfl, rfl⟩, rfl, rfl⟩

end ByteOS.Mm.Area
