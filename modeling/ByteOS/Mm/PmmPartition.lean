import ByteOS.Lib.Transition
import ByteOS.Mm.PmmLayout

/-! The buddy allocator keeps its zone partitioned over whole runs.

Each function of the allocator is given one specification in terms of `Layout`;
the run theorem follows by induction over the steps.
-/

set_option autoImplicit false

namespace ByteOS.Mm.Pmm

open ByteOS.Lib
open Function (update update_self update_of_ne)
open State (setPages setFreeList)

variable {order head page first avail inserted inserted' : Nat} {zone : Zone} {pages : PageData}
  {rg : MmapRegion} {allocated : List (Nat × Nat)}

section
variable {s s' : State} {region : Nat → Prop} {lists : Nat → List Nat} {held : List (Nat × Nat)}

/-! ## Allocation -/

theorem popHead_detached (s : State) (head order : Nat) : Detached s (popHead s head order) head order where
  lists := rfl
  next p apart := by
    simp [State.next, popHead, setPages, setFreeList, dlistSetPrev_next,
      dlistSetNext_next, apart]
  prev p apart := by
    simp [State.prev, popHead, setPages, setFreeList, dlistSetPrev_prev,
      dlistSetNext_prev, apart]
  order p _ := by simp [popHead, setPages, setFreeList]

theorem popHead_links (s : State) (head order : Nat) :
    (popHead s head order).next head = none ∧ (popHead s head order).prev head = none := by
  simp [State.next, State.prev, popHead, setPages, setFreeList, dlistSetPrev_next,
    dlistSetPrev_prev, dlistSetNext_next]

theorem Quiet.pop (quiet : Quiet s (Silent region held)) :
    Quiet (popHead s head order) (Silent region ((head, order) :: held)) := by
  intro p silent
  by_cases here : p = head
  · subst here
    exact popHead_links s p order
  · have detached := popHead_detached s head order
    have before : Silent region held p :=
      silent.imp_right fun ⟨k, member⟩ => ⟨k, by simpa [here] using member⟩
    rw [detached.next p here, detached.prev p here]
    exact quiet p before

theorem insertFree_pushed (s : State) (page order : Nat) :
    Pushed s (insertFree s page order) page order where
  lists := rfl
  next p := by simp [State.next, insertFree, setPages, setFreeList, dlistSetNext_next]
  prev p := by simp [State.prev, insertFree, setPages, setFreeList, dlistSetNext_prev]
  order p := by simp [insertFree, setPages, setFreeList, setOrder_order]

theorem pageBuddy_eq (page order : Nat) : pageBuddy page order = buddy page order := rfl

theorem splitHead_next (s : State) (removed order p : Nat) :
    (splitHead s removed order).next p = if p = buddy removed order then s.zone.freeLists order
      else if p = removed then some (buddy removed order) else s.next p := by
  simp [splitHead, State.next, setPages, setFreeList, dlistSetNext_next,
    pageBuddy_eq]

theorem splitHead_prev (s : State) (removed order p : Nat) :
    (splitHead s removed order).prev p = if s.zone.freeLists order = some p then some (buddy removed order)
      else if buddy removed order = p then some removed else s.prev p := by
  simp [splitHead, State.prev, setPages, setFreeList, dlistSetNext_prev,
    pageBuddy_eq]

theorem splitHead_order (s : State) (removed order p : Nat) :
    ((splitHead s removed order).pageData p).order =
      if p = removed then order else if p = buddy removed order then order else (s.pageData p).order := by
  simp [splitHead, setPages, setFreeList, setOrder_order, pageBuddy_eq]

def State.behead (s : State) (head order : Nat) : State := s.setFreeList order (s.next head)

theorem behead_detached (s : State) (head order : Nat) : Detached s (s.behead head order) head order :=
  ⟨rfl, fun _ _ => rfl, fun _ _ => rfl, fun _ _ => rfl⟩

section

variable {rest : List Nat} (listed : lists (order + 1) = head :: rest)
include listed

theorem Threaded.halves (layout : Threaded s region lists held) :
    Threaded (s.behead head (order + 1)) region (update lists (order + 1) rest)
      ((buddy head order, order) :: (head, order) :: held) :=
  (layout.detach listed (behead_detached s head (order + 1))).splitHeld

/-- Splitting the head of a list is detaching it, then pushing its upper half
and its lower half on the list below. -/
theorem Threaded.splitHead_pushed (layout : Threaded s region lists held) :
    Pushed (insertFree (s.behead head (order + 1)) (buddy head order) order)
      (splitHead s head order) head order := by
  have halves := layout.halves listed
  have pushed := insertFree_pushed (s.behead head (order + 1)) (buddy head order) order
  have sameHead : (s.behead head (order + 1)).zone.freeLists order = s.zone.freeLists order := by
    simp [State.behead, setFreeList]
  have small : order < maxOrder := halves.bounded head order (.inr (by simp))
  have distinct : head ≠ buddy head order := by
    have once := halves.once
    simp only [List.nodup_cons, List.mem_cons, Prod.mk.injEq, not_or, and_true] at once
    exact Ne.symm once.1.1
  have unheaded : s.zone.freeLists order ≠ some (buddy head order) := fun first =>
    halves.held_not_listed (k := order) (by simp) (halves.head_mem small (sameHead.trans first))
  constructor
  · simp [splitHead, insertFree, State.behead, setPages, setFreeList, State.next]
  · intro p
    rw [splitHead_next, pushed.lists, pushed.next, update_self, sameHead]
    have same : (s.behead head (order + 1)).next p = s.next p := rfl
    grind
  · intro p
    rw [splitHead_prev, pushed.lists, pushed.prev, update_self, sameHead]
    have same : (s.behead head (order + 1)).prev p = s.prev p := rfl
    grind
  · intro p
    rw [splitHead_order, pushed.order]
    rfl

theorem Threaded.split (layout : Threaded s region lists held) :
    Threaded (splitHead s head order) region
      (update (update lists (order + 1) rest) order (head :: buddy head order :: lists order)) held := by
  have upper := (layout.halves listed).push (insertFree_pushed _ _ _)
  simpa using upper.push (layout.splitHead_pushed listed)

theorem Layout.split (layout : Layout s region lists held) (quiet : Quiet s (Silent region held)) :
    Layout (splitHead s head order) region
        (update (update lists (order + 1) rest) order (head :: buddy head order :: lists order)) held ∧
      Quiet (splitHead s head order) (Silent region held) := by
  have halves : Layout (s.behead head (order + 1)) region _ _ :=
    ⟨layout.halves listed, (layout.detach listed (behead_detached s head (order + 1))).back⟩
  have pushedUpper := insertFree_pushed (s.behead head (order + 1)) (buddy head order) order
  have lower := halves.push pushedUpper
  have pushed := layout.splitHead_pushed listed
  have quietUpper : Quiet (insertFree (s.behead head (order + 1)) (buddy head order) order)
      (Silent region held) := by
    apply Quiet.push (s := s.behead head (order + 1)) halves.toThreaded quiet pushedUpper
    intro p silent
    have apart :=
      halves.silent_apart (silent.imp_right fun ⟨j, member⟩ => ⟨j, List.mem_cons_of_mem _ member⟩)
    exact ⟨apart.1, apart.2 order⟩
  refine ⟨by simpa using lower.push pushed, quietUpper.push lower.toThreaded pushed ?_⟩
  intro p silent
  have apart := lower.silent_apart silent
  exact ⟨apart.1, apart.2 order⟩

end

/-- The free lists after the head of the list of `free` has been split down to `order`
and its lowest part taken. -/
def carve (lists : Nat → List Nat) (order free head : Nat) (rest : List Nat) (k : Nat) : List Nat :=
  if k = free then rest else if order ≤ k ∧ k < free then [head + 2 ^ k] else lists k

/-- What an allocation makes of the free lists. The back links and the null links are kept
where they were in order. -/
structure Carved (s s' : State) (region : Nat → Prop) (lists : Nat → List Nat)
    (held : List (Nat × Nat)) (order free head : Nat) (rest : List Nat) : Prop where
  threaded : Threaded s' region (carve lists order free head rest) ((head, order) :: held)
  layout : Layout s region lists held → Quiet s (Silent region held) →
    Layout s' region (carve lists order free head rest) ((head, order) :: held) ∧
      Quiet s' (Silent region ((head, order) :: held))
  frame : ∀ p, ¬ Within pow2 head free p → s'.pageData p = s.pageData p

section

variable {p k free : Nat} {rest : List Nat} {freeLists : Nat → Option Nat}

theorem splitHead_frame (empty : s.zone.freeLists order = none) (notHead : p ≠ head)
    (notUpper : p ≠ buddy head order) : (splitHead s head order).pageData p = s.pageData p := by
  simp [splitHead, setPages, setFreeList, pageBuddy_eq, empty, dlistSetNext, setOrder, notHead, notUpper]

theorem popHead_frame (notHead : p ≠ head) : (popHead s head order).pageData p = s.pageData p := by
  simp [popHead, setPages, setFreeList, dlistSetNext, dlistSetPrev, notHead]

theorem Threaded.empty_iff (layout : Threaded s region lists held) (small : k < maxOrder) :
    lists k = [] ↔ s.zone.freeLists k = none := by
  rw [(layout.chain k small).start_eq, List.head?_eq_none_iff]

theorem Threaded.head_eq (layout : Threaded s region lists held) (listed : lists k = head :: rest) :
    s.zone.freeLists k = some head := by
  rw [(layout.chain k (layout.bounded head k (.inl (by simp [listed])))).start_eq, listed, List.head?_cons]

/-- The splitting loop: every pass splits the head of the list that the pass before has
filled, and the last head is taken. -/
theorem Threaded.carved (passes : Nat) (layout : Threaded s region lists held)
    (listed : lists (order + passes) = head :: rest) (empty : ∀ k, order ≤ k → k < order + passes →
      lists k = []) :
    ∃ s', (splitDown order passes s >>= fun s => takeHead s order) = .ok (some head, s') ∧
      Carved s s' region lists held order (order + passes) head rest := by
  have here : head ∈ lists (order + passes) := by simp [listed]
  have start := layout.head_eq listed
  induction passes generalizing s lists rest with
  | zero =>
    have detached := popHead_detached s head order
    have same : carve lists order (order + 0) head rest = update lists order rest := by
      funext k
      by_cases equal : k = order
      · simp [carve, equal]
      · have outside : ¬ (order ≤ k ∧ k < order) := by omega
        simp [carve, equal, outside]
    refine ⟨popHead s head order, ?_, ?_, fun whole quiet => ⟨?_, quiet.pop⟩,
      fun p outside => popHead_frame ?_⟩
    · simp [splitDown, takeHead, show s.zone.freeLists order = some head from start, deref, kassert,
        layout.order order head here, bind, Except.bind, pure, Except.pure]
    · rw [same]
      exact layout.detach listed detached
    · rw [same]
      exact whole.detach listed detached
    · rintro rfl
      exact outside ⟨le_refl p, Nat.lt_add_of_pos_right (Nat.two_pow_pos _)⟩
  | succ passes ih =>
    have upper : buddy head (order + passes) = head + 2 ^ (order + passes) :=
      buddy_of_aligned (layout.aligned head _ (.inl here))
    have below : lists (order + passes) = [] := empty _ (by omega) (by omega)
    have bound : order + passes + 1 < maxOrder := layout.bounded _ _ (.inl here)
    have pass : splitBlock s (order + passes) = .ok (splitHead s head (order + passes)) := by
      simp [splitBlock, show s.zone.freeLists (order + passes + 1) = some head from start, deref,
        bind, Except.bind, pure, Except.pure]
    have top : lists (order + passes + 1) = head :: rest := listed
    have split := layout.split top
    obtain ⟨s', ran, carved⟩ := ih split (update_self ..) (by
      intro k low high
      rw [update_of_ne (by omega), update_of_ne (by omega)]
      exact empty k low (by omega)) (by simp) (split.head_eq (update_self ..))
    -- the upper half left by this pass is the one block that the later passes find at this order
    have same : carve (update (update lists (order + passes + 1) rest) (order + passes)
        (head :: buddy head (order + passes) :: lists (order + passes))) order (order + passes) head
          (buddy head (order + passes) :: lists (order + passes)) =
        carve lists order (order + (passes + 1)) head rest := by
      funext k
      simp only [carve, Function.update_apply, upper, below]
      grind
    refine ⟨s', by rwa [splitDown, pass, ok_bind], same ▸ carved.threaded, fun whole quiet => ?_,
      fun p outside => ?_⟩
    · obtain ⟨layout', quiet'⟩ := whole.split top quiet
      exact same ▸ carved.layout layout' quiet'
    · have double : pow2 (order + passes + 1) = pow2 (order + passes) + pow2 (order + passes) :=
        pow2_succ_eq _
      have outer : ¬ (head ≤ p ∧ p < head + pow2 (order + passes + 1)) := outside
      have positive : 0 < pow2 (order + passes) := Nat.two_pow_pos _
      rw [carved.frame p (by unfold Within; omega)]
      have notUpper : p ≠ head + pow2 (order + passes) := by omega
      exact splitHead_frame ((layout.empty_iff (by omega)).mp below) (by omega) (upper ▸ notUpper)

theorem nextFreeOrder_none (missing : nextFreeOrder freeLists order = none) (k : Nat)
    (above : order < k) (small : k < maxOrder) : freeLists k = none := by
  have test := List.find?_eq_none.mp missing k (by simp only [List.mem_range'_1]; omega)
  simpa using test

theorem nextFreeOrder_first (found : nextFreeOrder freeLists order = some free) :
    order < free ∧ free < maxOrder ∧ freeLists free ≠ none ∧ ∀ k, order < k → k < free →
      freeLists k = none := by
  obtain ⟨test, listed, before⟩ := List.find?_range'_eq_some.mp found
  rw [List.mem_range'_1] at listed
  refine ⟨by omega, by omega, Option.isSome_iff_ne_none.mp test, fun k above below => ?_⟩
  simpa using before k (by omega) below

/-- Allocation never fails an assertion. It takes the head of the first list from `order`
on that has a block, or returns the null pointer and leaves the state alone. -/
theorem zoneAllocOrder_spec (layout : Threaded s region lists held) (bound : order < maxOrder) :
    (zoneAllocOrder s order = .ok (none, s) ∧ ∀ k, order ≤ k → k < maxOrder → lists k = []) ∨
      ∃ free head rest s', order ≤ free ∧ lists free = head :: rest ∧
      (∀ k, order ≤ k → k < free → lists k = []) ∧
        zoneAllocOrder s order = .ok (some head, s') ∧
        Carved s s' region lists held order free head rest := by
  cases direct : s.zone.freeLists order with
  | some head =>
    obtain ⟨rest, listed⟩ := layout.head_listed bound direct
    obtain ⟨s', ran, carved⟩ := layout.carved 0 listed (by omega)
    refine .inr ⟨order, head, rest, s', le_refl order, listed, by omega, ?_, carved⟩
    simpa [zoneAllocOrder, direct, splitDown] using ran
  | none =>
    have here := (layout.empty_iff bound).mpr direct
    cases found : nextFreeOrder s.zone.freeLists order with
    | none =>
      refine .inl ⟨by simp [zoneAllocOrder, direct, found], fun k above small => ?_⟩
      obtain rfl | above := above.eq_or_lt
      · exact here
      · exact (layout.empty_iff small).mpr (nextFreeOrder_none found k above small)
    | some free =>
      obtain ⟨above, small, nonempty, before⟩ := nextFreeOrder_first found
      obtain ⟨passes, rfl⟩ := Nat.exists_eq_add_of_le above.le
      obtain ⟨head, rest, listed⟩ := List.exists_cons_of_ne_nil (mt (layout.empty_iff small).mp nonempty)
      have empty : ∀ k, order ≤ k → k < order + passes → lists k = [] := by
        intro k low high
        obtain rfl | low := low.eq_or_lt
        · exact here
        · exact (layout.empty_iff (by omega)).mpr (before k low high)
      obtain ⟨s', ran, carved⟩ := layout.carved passes listed empty
      refine .inr ⟨order + passes, head, rest, s', by omega, listed, empty, ?_, carved⟩
      simpa [zoneAllocOrder, direct, found] using ran

end

/-! ## Freeing -/

theorem unlink_unlinked {a b : Nat} (back : s.prev b = some a) :
    Unlinked s (s.setPages (unlink s.pageData b)) a b := by
  have back' : (s.pageData b).prev = some a := back
  constructor
  · rfl
  · funext p
    cases following : (s.pageData b).next <;> by_cases same : p = a <;>
      simp [State.next, setPages, unlink, back', following, dlistSetNext_next, dlistSetPrev_next, same]
    grind
  · intro p
    cases following : (s.pageData b).next <;>
      simp [State.prev, State.next, setPages, unlink, back', following, dlistSetNext_prev,
        dlistSetPrev_prev]
    grind
  · intro p
    cases following : (s.pageData b).next <;> simp [setPages, unlink, back', following]

theorem isPageFree_not_head {p k : Nat} (free : isPageFree s p = true) (bound : k < maxOrder) :
    s.zone.freeLists k ≠ some p := by
  rw [isPageFree] at free
  split at free
  · cases free
  · simp only [Bool.not_eq_true', List.any_eq_false, List.mem_range] at free
    simpa using free k bound

section

variable (layout : Layout s region lists ((page, order) :: held)) (quiet : Quiet s (Silent region held))
include layout quiet

section

variable (free : isPageFree s (buddy page order) = true)
    (same : (s.pageData (buddy page order)).order = order)
include free same

/-- The guess of `is_page_free` is right where it matters: a buddy that passes
the test is an inner node of the free list of its order. -/
theorem Layout.buddy_listed : ∃ before a after, lists order = before ++ a :: buddy page order :: after := by
  have here : page ∈ lists order ∨ (page, order) ∈ (page, order) :: held := .inr (by simp)
  have bound : order < maxOrder := layout.bounded page order here
  -- a page that must look unlinked fails the first test
  have loud : ¬ Silent region held (buddy page order) := by
    intro silent
    have null := quiet _ silent
    simp only [State.next, State.prev] at null
    simp [isPageFree, null.1, null.2] at free
  have inside : region (buddy page order) := by
    by_contra outside
    exact loud (.inl outside)
  obtain ⟨start, j, block, within⟩ := layout.tiles.cover _ inside
  obtain rfl := layout.tiles.covers_buddy layout.aligned here block within
  have listed : buddy page order ∈ lists order := by
    rcases block with listed | member
    · have equal := layout.order j _ listed
      rw [← equal, same] at listed
      exact listed
    · rcases List.mem_cons.mp member with equal | member
      · have clash : buddy page order = page := congrArg Prod.fst equal
        exact absurd clash (buddy_ne (layout.aligned page order here))
      · exact absurd (.inr ⟨j, member⟩) loud
  rcases mem_head_or_inner listed with head | inner
  · have first : s.zone.freeLists order = some (buddy page order) :=
      (layout.chain order bound).start_eq.trans head
    exact absurd first (isPageFree_not_head free bound)
  · exact inner

/-- Unlinking a buddy that passes the test of `is_page_free` makes it a held block. -/
theorem Layout.absorb :
    ∃ before a after, lists order = before ++ a :: buddy page order :: after ∧
      Layout (s.setPages (Pmm.unlink s.pageData (buddy page order))) region
        (update lists order (before ++ a :: after)) ((buddy page order, order) :: (page, order) :: held) ∧
      Quiet (s.setPages (Pmm.unlink s.pageData (buddy page order))) (Silent region held) := by
  obtain ⟨before, a, after, listed⟩ := layout.buddy_listed quiet free same
  have back := layout.back order
  rw [listed] at back
  have unlinked := unlink_unlinked (BackLinked.prev_eq back)
  have following : ∀ p, s.next (buddy page order) = some p → p ∈ lists order := by
    intro p successor
    have chain := layout.chain order (layout.bounded page order (.inr (by simp)))
    have split : lists order = (before ++ [a]) ++ buddy page order :: after := by simp [listed]
    rw [split] at chain
    have first := chain.suffix.start_eq.symm.trans successor
    rw [split]
    simp [List.mem_of_head? first]
  refine ⟨before, a, after, listed, layout.unlink listed unlinked, fun p silent => ?_⟩
  have unlisted := (layout.silent_apart silent).2 order
  have notPred : p ≠ a := by
    rintro rfl
    exact unlisted (by simp [listed])
  have notNext : s.next (buddy page order) ≠ some p := fun next => unlisted (following p next)
  rw [unlinked.next, unlinked.prev, update_of_ne notPred, if_neg notNext]
  exact quiet p silent

end

theorem Layout.insertFree_quiet : Quiet (insertFree s page order) (Silent region held) :=
  quiet.push layout.toThreaded (insertFree_pushed s page order) fun _ silent =>
    ⟨(layout.silent_apart silent).1, (layout.silent_apart silent).2 order⟩

end

def TopRange (region : Nat → Prop) (p : Nat) : Prop :=
  2 ^ (maxOrder - 1) ∣ p ∧ ∀ q, Within pow2 p (maxOrder - 1) q → region q

def FewTops (region : Nat → Prop) : Prop :=
  ∀ a b c, TopRange region a → TopRange region b → TopRange region c → a = b ∨ a = c ∨ b = c

/-- Freeing a block either reaches an order without a list or returns the block
to the free lists, merged with every free buddy it recognises. To leave the orders that
have a list, it needs three blocks of the last order: the block itself, its buddy, and one
before the buddy on the list. -/
theorem freeFrom_spec (levels : Nat) (layout : Layout s region lists ((page, order) :: held))
    (quiet : Quiet s (Silent region held)) (depth : levels + order = maxOrder) :
    (freeFrom levels s page order = .error .outOfRange ∧ ¬ FewTops region) ∨
      ∃ s' lists', freeFrom levels s page order = .ok s' ∧ Layout s' region lists' held ∧
        Quiet s' (Silent region held) := by
  have bound : order < maxOrder := layout.bounded page order (.inr (by simp))
  induction levels generalizing s lists page order with
  | zero => omega
  | succ levels ih =>
    rw [freeFrom]
    split
    case isTrue merge =>
      obtain ⟨before, a, after, listed, pair, quiet'⟩ := layout.absorb quiet merge.1 merge.2
      by_cases room : order + 1 < maxOrder
      · exact ih ⟨pair.mergeHeld room, pair.back⟩ quiet' (by omega) room
      · obtain rfl : levels = 0 := by omega
        obtain rfl : order = maxOrder - 1 := by omega
        have top : ∀ p, p ∈ lists (maxOrder - 1) ∨
            (p, maxOrder - 1) ∈ (page, maxOrder - 1) :: held → TopRange region p := fun p block =>
          ⟨layout.aligned p _ block, fun q within => layout.tiles.inside p _ q block within⟩
        have unlisted : page ∉ lists (maxOrder - 1) := layout.held_not_listed (k := maxOrder - 1) (by simp)
        have distinct := (layout.chain (maxOrder - 1) bound).nodup
        rw [listed] at distinct unlisted
        refine .inl ⟨rfl, fun few => ?_⟩
        have two := few a page (buddy page (maxOrder - 1)) (top _ (by simp [listed])) (top _ (by simp))
          (top _ (by simp [listed]))
        have apart := (List.nodup_cons.mp (List.Nodup.of_append_right distinct)).1
        simp only [List.mem_append, List.mem_cons, not_or] at unlisted apart
        grind
    case isFalse stop =>
      exact .inr ⟨insertFree s page order, _, rfl, layout.push (insertFree_pushed s page order),
        layout.insertFree_quiet quiet⟩

/-! ## Building the zone -/

theorem getMaxOrderFrom_spec (startPfn endPfn rv : Nat) :
    getMaxOrderFrom startPfn endPfn rv ≤ rv ∧
      (getMaxOrderFrom startPfn endPfn rv = 0 ∨
        startPfn + 2 ^ getMaxOrderFrom startPfn endPfn rv ≤ endPfn ∧
          2 ^ getMaxOrderFrom startPfn endPfn rv ∣ startPfn) := by
  induction rv with
  | zero => exact ⟨le_refl 0, .inl rfl⟩
  | succ rv ih =>
    simp only [getMaxOrderFrom]
    split
    · exact ⟨by omega, ih.2⟩
    · split
      · rename_i fits aligned
        exact ⟨le_refl _, .inr ⟨by omega, (isAlignPow2_iff _ _).mp aligned⟩⟩
      · exact ⟨by omega, ih.2⟩

theorem layout_empty (empty : zone.freeLists = fun _ => none) (none : ∀ p, ¬ region p) :
    Layout ⟨zone, pages⟩ region (fun _ => []) [] where
  chain k _ := by simp [empty]
  back _ := .nil
  order _ _ member := by simp at member
  tiles := (tiles_empty.congr (by simp)).congr_region (by simpa using none)
  aligned _ _ block := by simp at block
  bounded _ _ block := by simp at block
  exclusive _ _ member := by simp at member
  once := List.nodup_nil

theorem Threaded.extend (layout : Threaded s region lists held) (aligned : 2 ^ order ∣ page)
    (bounded : order < maxOrder) (fresh : ∀ q, Within pow2 page order q → ¬ region q) :
    Threaded s (fun q => region q ∨ Within pow2 page order q) lists ((page, order) :: held) := by
  have outside : ¬ region page :=
    fresh page ⟨le_refl page, Nat.lt_add_of_pos_right (Nat.two_pow_pos order)⟩
  have blocks : ∀ p k, p ∈ lists k ∨ (p, k) ∈ (page, order) :: held ↔
      (p ∈ lists k ∨ (p, k) ∈ held) ∨ (p = page ∧ k = order) := by
    intro p k
    simp only [List.mem_cons, Prod.mk.injEq]
    tauto
  constructor
  · exact layout.chain
  · exact layout.order
  · exact (layout.tiles.extend fresh).congr blocks
  · intro p k block
    rcases (blocks p k).mp block with old | ⟨rfl, rfl⟩
    · exact layout.aligned p k old
    · exact aligned
  · intro p k block
    rcases (blocks p k).mp block with old | ⟨-, rfl⟩
    · exact layout.bounded p k old
    · exact bounded
  · intro p k member listed
    rcases List.mem_cons.mp member with same | member
    · cases same
      exact outside (layout.start_inside (.inl listed))
    · exact layout.exclusive p k member listed
  · refine List.nodup_cons.mpr ⟨fun member => ?_, layout.once⟩
    exact outside (layout.start_inside (.inr member))

def Frames (first count p : Nat) : Prop := first ≤ p ∧ p < first + count

def chosenOrder (first avail p : Nat) : Nat :=
  getMaxOrderFrom p ((first * pageSize + avail * pageSize) % wordMod / pageSize) (maxOrder - 1)

theorem insertBlock_spec (start : s.zone.paStart = first * pageSize)
    (len : s.zone.len = avail * pageSize) (nonzero : 0 < first)
    (fits : (first + avail) * pageSize ≤ wordMod) (more : inserted < avail)
    (layout : Layout s (Frames first inserted) lists [])
    (quiet : Quiet s fun p => ¬ Frames first avail p)
    (greedy : chosenOrder first avail (first + inserted) = order) :
    ∃ s', insertBlock avail inserted s = .ok (inserted + 2 ^ order, s') ∧
      inserted + 2 ^ order ≤ avail ∧ Layout s' (Frames first (inserted + 2 ^ order))
        (update lists order ((first + inserted) :: lists order)) [] ∧
      Quiet s' (fun p => ¬ Frames first avail p) := by
  have address : (s.zone.paStart + inserted * pageSize) % wordMod = (first + inserted) * pageSize := by
    simp only [start, pageSize, wordMod] at *
    omega
  have nextPfn : (first + inserted) * pageSize / pageSize = first + inserted :=
    Nat.mul_div_cancel _ (by decide)
  -- the end of the zone may be address 2 ^ 64, which wraps to a bound of zero
  have endPfn : (first * pageSize + avail * pageSize) % wordMod / pageSize ≤ first + avail := by
    simp only [pageSize, wordMod] at *
    omega
  have limit : (s.zone.paStart + avail * pageSize) % wordMod / pageSize =
      (first * pageSize + avail * pageSize) % wordMod / pageSize := by rw [start]
  rw [chosenOrder] at greedy
  generalize (first * pageSize + avail * pageSize) % wordMod / pageSize = endPfn' at *
  obtain ⟨small, shape⟩ := getMaxOrderFrom_spec (first + inserted) endPfn' (maxOrder - 1)
  have chosen : getMaxOrder ((s.zone.paStart + inserted * pageSize) % wordMod)
      ((s.zone.paStart + avail * pageSize) % wordMod) = order := by
    simp only [getMaxOrder, address, nextPfn, limit, greedy]
  rw [greedy] at small shape
  have bounded : order < maxOrder := by
    simp only [maxOrder] at *
    omega
  have room : inserted + 2 ^ order ≤ avail := by
    rcases shape with rfl | ⟨fit, -⟩
    · omega
    · omega
  have aligned : 2 ^ order ∣ first + inserted := by
    rcases shape with rfl | ⟨-, aligned⟩
    · exact one_dvd _
    · exact aligned
  have pushed := insertFree_pushed s (first + inserted) order
  have fresh : ∀ q, Within pow2 (first + inserted) order q → ¬ Frames first inserted q := by
    unfold Within Frames
    intro q
    omega
  have extended : Layout s _ lists [(first + inserted, order)] :=
    ⟨layout.extend aligned bounded fresh, layout.back⟩
  have grown : ∀ q, Frames first (inserted + 2 ^ order) q ↔
      Frames first inserted q ∨ Within pow2 (first + inserted) order q := by
    unfold Within Frames pow2
    intro q
    omega
  have same : (fun q => Frames first inserted q ∨ Within pow2 (first + inserted) order q) =
      Frames first (inserted + 2 ^ order) := funext fun q => propext (grown q).symm
  rw [same] at extended
  refine ⟨insertFree s (first + inserted) order, ?_, room, extended.push pushed, ?_⟩
  · have page : physToPage ((first + inserted) * pageSize) = some (first + inserted) := by
      rw [physToPage, if_neg (by simp only [pageSize]; omega), nextPfn]
    have inZone : pageToPhys (first + inserted) + pageSize * 2 ^ order ≤ s.zone.paStart + s.zone.len := by
      simp only [pageToPhys, start, len, pageSize]
      omega
    rw [address] at chosen
    simp [insertBlock, insertFree, setOrder_dlistSetNext, address, chosen, page, deref, kassert,
      inZone, setPages, setFreeList, bind, Except.bind, pure, Except.pure]
  · apply quiet.push extended.toThreaded pushed
    intro p outside
    refine ⟨?_, fun listed => outside ?_⟩
    · rintro rfl
      exact outside ⟨by omega, by omega⟩
    · obtain ⟨low, high⟩ := layout.start_inside (.inl listed)
      exact ⟨low, by omega⟩

theorem insertBlock_zone (run : insertBlock avail inserted s = .ok (inserted', s')) :
    s'.zone.paStart = s.zone.paStart ∧ s'.zone.len = s.zone.len := by
  simp only [insertBlock, bind_eq_ok, pure, Except.pure, Except.ok.injEq, Prod.mk.injEq] at run
  obtain ⟨page, -, -, -, -, rfl⟩ := run
  exact ⟨rfl, rfl⟩

theorem populate_zone {passes : Nat} (run : populate avail passes inserted s = .ok (inserted', s')) :
    s'.zone.paStart = s.zone.paStart ∧ s'.zone.len = s.zone.len := by
  induction passes generalizing s inserted with
  | zero =>
    cases run
    exact ⟨rfl, rfl⟩
  | succ passes ih =>
    simp only [populate] at run
    split at run
    · obtain ⟨⟨between, s₁⟩, pass, rest⟩ := bind_eq_ok.mp run
      have first := insertBlock_zone pass
      have later := ih rest
      exact ⟨later.1.trans first.1, later.2.trans first.2⟩
    · cases run
      exact ⟨rfl, rfl⟩

def Greedy (first avail : Nat) (lists : Nat → List Nat) : Prop :=
  ∀ k p, p ∈ lists k → k = chosenOrder first avail p

theorem populate_spec (passes : Nat) (start : s.zone.paStart = first * pageSize)
    (len : s.zone.len = avail * pageSize) (nonzero : 0 < first)
    (fits : (first + avail) * pageSize ≤ wordMod) (enough : avail ≤ inserted + passes)
    (bound : inserted ≤ avail) (layout : Layout s (Frames first inserted) lists [])
    (quiet : Quiet s fun p => ¬ Frames first avail p) (greedy : Greedy first avail lists) :
    ∃ s' lists', populate avail passes inserted s = .ok (avail, s') ∧
      Layout s' (Frames first avail) lists' [] ∧ Quiet s' (fun p => ¬ Frames first avail p) ∧
      Greedy first avail lists' := by
  induction passes generalizing s lists inserted with
  | zero =>
    have done : inserted = avail := by omega
    subst done
    exact ⟨s, lists, rfl, layout, quiet, greedy⟩
  | succ passes ih =>
    by_cases more : inserted < avail
    · obtain ⟨s₁, run, room, layout₁, quiet₁⟩ :=
        insertBlock_spec start len nonzero fits more layout quiet rfl
      generalize chosen : chosenOrder first avail (first + inserted) = order at *
      obtain ⟨start₁, len₁⟩ := insertBlock_zone run
      have positive : 0 < 2 ^ order := Nat.two_pow_pos order
      have greedy₁ : Greedy first avail (update lists order ((first + inserted) :: lists order)) := by
        intro k p member
        by_cases same : k = order
        · subst same
          rw [update_self, List.mem_cons] at member
          obtain rfl | member := member
          · exact chosen.symm
          · exact greedy k p member
        · rw [update_of_ne same] at member
          exact greedy k p member
      obtain ⟨s', lists', rest, after⟩ :=
        ih (start₁.trans start) (len₁.trans len) (by omega) room layout₁ quiet₁ greedy₁
      refine ⟨s', lists', ?_, after⟩
      simpa only [populate, if_pos more, run, bind, Except.bind] using rest
    · have done : inserted = avail := by omega
      subst done
      refine ⟨s, lists, ?_, layout, quiet, greedy⟩
      simp [populate]

def Zone.Pages (zone : Zone) (p : Nat) : Prop :=
  zone.paStart ≤ p * pageSize ∧ p * pageSize < zone.paStart + zone.len

theorem calcAvailablePages_spec (fits : rg.base + rg.len ≤ wordMod)
    (run : calcAvailablePages rg = .ok avail) (some : avail ≠ 0) :
    ∃ first, alignUp ((rg.base + sizeofZone) % wordMod) = first * pageSize ∧ 0 < first ∧
      (first + avail) * pageSize ≤ wordMod := by
  simp only [calcAvailablePages, bind_eq_ok, kassert_eq_ok, pure, Except.pure, Except.ok.injEq] at run
  obtain ⟨-, checked, rfl⟩ := run
  refine ⟨alignUp ((rg.base + sizeofZone) % wordMod) / pageSize, ?_⟩
  simp only [alignUp, sizeofZone, maxOrder, pageSize, wordMod] at *
  omega

/-- A zone is made exactly if there are pages to put in it, and then it has the place and
the length that the two expressions give. -/
theorem initZone_populates (built : initZone rg pages = .ok (some s)) :
    ∃ avail inserted, calcAvailablePages rg = .ok avail ∧ avail ≠ 0 ∧
      populate avail avail 0
      ⟨⟨alignUp ((rg.base + sizeofZone) % wordMod), avail * pageSize % wordMod, fun _ => none⟩,
        pages⟩ = .ok (inserted, s) := by
  simp only [initZone, bind_eq_ok] at built
  obtain ⟨avail, counted, built⟩ := built
  by_cases nothing : avail = 0
  · simp [nothing, pure, Except.pure] at built
  · rw [if_neg nothing] at built
    simp only [bind_eq_ok] at built
    obtain ⟨⟨inserted, s₁⟩, run, -, -, built⟩ := built
    obtain rfl : s₁ = s := by simpa [pure, Except.pure] using built
    exact ⟨avail, inserted, counted, nothing, run⟩

variable (fits : rg.base + rg.len ≤ wordMod) (built : initZone rg pages = .ok (some s))
    (outside : ∀ p, ¬ s.zone.Pages p → pages p = zeroPage)
include fits built outside

/-- A fresh zone: where it lies, and that its blocks are as large as they can be. -/
theorem initZone_built :
    ∃ first avail lists, s.zone.paStart = first * pageSize ∧ s.zone.len = avail * pageSize ∧
      s.zone.Pages = Frames first avail ∧ Layout s s.zone.Pages lists [] ∧
      Quiet s (Silent s.zone.Pages []) ∧
      Greedy first avail lists := by
  obtain ⟨avail, inserted, counted, nothing, run⟩ := initZone_populates built
  obtain ⟨first, aligned, nonzero, room⟩ := calcAvailablePages_spec fits counted nothing
  have length : avail * pageSize % wordMod = avail * pageSize := by
    simp only [pageSize, wordMod] at *
    omega
  rw [aligned, length] at run
  let zone : Zone := ⟨first * pageSize, avail * pageSize, fun _ => none⟩
  have base : Layout ⟨zone, pages⟩ (Frames first 0) (fun _ => []) [] :=
    layout_empty rfl (by unfold Frames; intro p; omega)
  obtain ⟨start, len⟩ := populate_zone run
  have extent : s.zone.Pages = Frames first avail := by
    funext p
    simp only [Zone.Pages, Frames, start, len, pageSize, eq_iff_iff]
    omega
  -- the zone that results has the frames of the zone it starts from, so they start out zeroed
  rw [extent] at outside ⊢
  have zeroed : Quiet ⟨zone, pages⟩ fun p => ¬ Frames first avail p := fun p out => by
    simp [State.next, State.prev, outside p out, zeroPage]
  obtain ⟨s', lists', ran, layout, quiet, greedy⟩ :=
    populate_spec avail rfl rfl nonzero room (by omega) (by omega) base zeroed (by simp [Greedy])
  cases ran.symm.trans run
  refine ⟨first, avail, lists', start, len, rfl, layout, ?_, greedy⟩
  rintro p (out | ⟨k, member⟩)
  · exact quiet p out
  · simp at member

theorem initZone_spec : ∃ lists, Layout s s.zone.Pages lists [] ∧ Quiet s (Silent s.zone.Pages []) := by
  obtain ⟨_, _, lists, -, -, -, layout, quiet, -⟩ := initZone_built fits built outside
  exact ⟨lists, layout, quiet⟩

end

/-! ## Runs -/

/-- The state of the allocator together with the blocks handed out and not yet
given back. A block may be freed with the order it was allocated for, where `may` says so. -/
inductive StepIf (may : State → Nat → Nat → Prop) :
    State × List (Nat × Nat) → State × List (Nat × Nat) → Prop where
  | alloc {s s' : State} {allocated : List (Nat × Nat)} {order page : Nat} : order < maxOrder →
      zoneAllocOrder s order = .ok (some page, s') →
      StepIf may (s, allocated) (s', (page, order) :: allocated)
  | refuse {s s' : State} {allocated : List (Nat × Nat)} {order : Nat} : order < maxOrder →
      zoneAllocOrder s order = .ok (none, s') → StepIf may (s, allocated) (s', allocated)
  | free {s s' : State} {allocated : List (Nat × Nat)} {order page : Nat} :
      (page, order) ∈ allocated → may s page order → pmmFreeOrder s page order = .ok s' →
      StepIf may (s, allocated) (s', allocated.erase (page, order))

abbrev Step : State × List (Nat × Nat) → State × List (Nat × Nat) → Prop :=
  StepIf fun _ _ _ => True

def Invariant (region : Nat → Prop) (state : State × List (Nat × Nat)) : Prop :=
  ∃ lists, Layout state.1 region lists state.2 ∧ Quiet state.1 (Silent region state.2)

variable {s : State} {region : Nat → Prop} {lists : Nat → List Nat}

/-- An allocated block about to be freed comes first among the held blocks, and need not be
quiet any more. -/
theorem Layout.transit (layout : Layout s region lists allocated)
    (quiet : Quiet s (Silent region allocated)) (member : (page, order) ∈ allocated) :
    Layout s region lists ((page, order) :: allocated.erase (page, order)) ∧
      Quiet s (Silent region (allocated.erase (page, order))) ∧ order < maxOrder := by
  refine ⟨⟨layout.perm (List.perm_cons_erase member).symm, layout.back⟩, fun p silent => ?_,
    layout.bounded page order (.inr member)⟩
  exact quiet p (silent.imp_right fun ⟨k, kept⟩ => ⟨k, List.mem_of_mem_erase kept⟩)

theorem pmmFreeOrder_spec (holds : Invariant region (s, allocated))
    (member : (page, order) ∈ allocated) :
    (pmmFreeOrder s page order = .error .outOfRange ∧ ¬ FewTops region) ∨
      ∃ s', pmmFreeOrder s page order = .ok s' ∧ Invariant region (s', allocated.erase (page, order)) := by
  obtain ⟨lists, layout, quiet⟩ := holds
  obtain ⟨transit, quiet', bound⟩ := layout.transit quiet member
  rcases freeFrom_spec (maxOrder - order) transit quiet' (by omega) with stuck | done
  · exact .inl stuck
  · obtain ⟨s', lists', ran, layout', quiet''⟩ := done
    exact .inr ⟨s', ran, lists', layout', quiet''⟩

theorem step_invariant {may : State → Nat → Nat → Prop} {state state' : State × List (Nat × Nat)}
    (step : StepIf may state state') (holds : Invariant region state) : Invariant region state' := by
  cases step with
  | @alloc s s' allocated order page bound run =>
    obtain ⟨lists, layout, quiet⟩ := holds
    obtain ⟨refused, -⟩ | ⟨_, _, _, s₁, _, _, _, ran, carved⟩ := zoneAllocOrder_spec layout.toThreaded bound
    · simp [refused] at run
    · have same := ran.symm.trans run
      cases same
      exact ⟨_, carved.layout layout quiet⟩
  | @refuse s s' allocated order bound run =>
    obtain ⟨lists, layout, quiet⟩ := holds
    obtain ⟨refused, -⟩ | ⟨_, _, _, s₁, _, _, _, ran, -⟩ := zoneAllocOrder_spec layout.toThreaded bound
    · have same : s = s' := by simpa [refused] using run
      subst same
      exact ⟨lists, layout, quiet⟩
    · simp [ran] at run
  | @free s s' allocated order page member allowed run =>
    rcases pmmFreeOrder_spec holds member with ⟨stuck, -⟩ | ⟨s₁, ran, holds'⟩
    · simp [stuck] at run
    · have same : s₁ = s' := by simpa [ran] using run
      subst same
      exact holds'

/-- The blocks on the free list of order `k`, as a walk along `next` finds them. -/
def FreeBlock (s : State) (p k : Nat) : Prop :=
  k < maxOrder ∧ ∃ l, Chain s.next (s.zone.freeLists k) l ∧ p ∈ l

structure Partition (zone : Zone) (s : State) (allocated : List (Nat × Nat)) : Prop where
  walk : ∀ k, k < maxOrder → ∃ l, Chain s.next (s.zone.freeLists k) l ∧ l.Nodup ∧
    BackLinked s.prev l ∧ ∀ p ∈ l, (s.pageData p).order = k ∧ 2 ^ k ∣ p
  tiles : Tiles pow2 zone.Pages fun p k => FreeBlock s p k ∨ (p, k) ∈ allocated
  exclusive : ∀ p k, (p, k) ∈ allocated → ¬ FreeBlock s p k
  once : allocated.Nodup

theorem Threaded.freeBlock_iff {held : List (Nat × Nat)}
    (layout : Threaded s region lists held) (p k : Nat) : FreeBlock s p k ↔ p ∈ lists k := by
  constructor
  · rintro ⟨small, l, chain, member⟩
    rwa [(layout.chain k small).functional chain]
  · intro member
    have small := layout.bounded p k (.inl member)
    exact ⟨small, lists k, layout.chain k small, member⟩

theorem Layout.partition (layout : Layout s zone.Pages lists allocated) :
    Partition zone s allocated := by
  have free := layout.freeBlock_iff
  constructor
  · intro k small
    exact ⟨lists k, layout.chain k small, (layout.chain k small).nodup, layout.back k, fun p member =>
      ⟨layout.order k p member, layout.aligned p k (.inl member)⟩⟩
  · exact layout.tiles.congr fun p k => or_congr_left (free p k)
  · exact fun p k member listed => layout.exclusive p k member ((free p k).mp listed)
  · exact layout.once

/-- In every state that allocations and frees reach from a fresh zone, the free
and the allocated blocks partition the zone, no assertion of an allocation
fails, and a free stops only for want of a list for a block of order `MAX_ORDER`. -/
theorem zone_partition {s₀ : State} (fits : rg.base + rg.len ≤ wordMod)
    (built : initZone rg pages = .ok (some s₀)) (outside : ∀ p, ¬ s₀.zone.Pages p →
      pages p = zeroPage) (run : Reaches Step (s₀, []) (s, allocated)) :
    Partition s₀.zone s allocated ∧
      (∀ order, order < maxOrder → ∃ result, zoneAllocOrder s order = .ok result) ∧
      ∀ page order, (page, order) ∈ allocated →
        pmmFreeOrder s page order = .error .outOfRange ∨ ∃ s', pmmFreeOrder s page order = .ok s' := by
  have fresh : Invariant s₀.zone.Pages (s₀, []) := initZone_spec fits built outside
  have holds : Invariant s₀.zone.Pages (s, allocated) :=
    run.invariant (Invariant s₀.zone.Pages) fresh fun _ _ _ step holds => step_invariant step holds
  obtain ⟨lists, layout, quiet⟩ := holds
  refine ⟨layout.partition, ?_, ?_⟩
  · intro order bound
    obtain ⟨refused, -⟩ | ⟨_, _, _, s', _, _, _, ran, -⟩ := zoneAllocOrder_spec layout.toThreaded bound
    · exact ⟨_, refused⟩
    · exact ⟨_, ran⟩
  · intro page order member
    rcases pmmFreeOrder_spec ⟨lists, layout, quiet⟩ member with ⟨stuck, -⟩ | ⟨s', ran, -⟩
    · exact .inl stuck
    · exact .inr ⟨s', ran⟩

/-- A region with room for two pages, one of them allocated. -/
theorem zone_partition_two_pages : ∃ s₀ s, initZone ⟨0x100000, 0x3000⟩ (fun _ => zeroPage) = .ok (some s₀) ∧
      zoneAllocOrder s₀ 0 = .ok (some 258, s) ∧ Partition s₀.zone s [(258, 0)] := by
  have evaluated : ((initZone ⟨0x100000, 0x3000⟩ fun _ => zeroPage).toOption.join.bind fun s₀ =>
      (zoneAllocOrder s₀ 0).toOption.bind Prod.fst) = some 258 := by decide +kernel
  obtain ⟨s₀, built, evaluated⟩ := Option.bind_eq_some_iff.mp evaluated
  obtain ⟨⟨page, s⟩, allocated, rfl⟩ := toOption_bind_eq_some.mp evaluated
  replace built := toOption_eq_some.mp (Option.join_eq_some_iff.mp built)
  have run : Reaches Step (s₀, []) (s, [(258, 0)]) := .single (.alloc (by decide) allocated)
  exact ⟨s₀, s, built, allocated, (zone_partition (by decide) built (fun _ _ => rfl) run).1⟩

end ByteOS.Mm.Pmm
