import ByteOS.Mm.PmmZones

/-! Which frees merge a block with its buddy, and how far.

`is_page_free` takes a page for allocated if both its links are null or if one of the
free lists starts with it. So a free block at the head of its list is not merged with its
buddy when that is freed, while one further down always is, even at the last order, for
which there is no list to put the result on.
-/

set_option autoImplicit false

namespace ByteOS.Mm.Pmm

open ByteOS.Lib
open Option (bind_eq_some_iff map_eq_some_iff join_eq_some_iff)
open Function (update update_of_ne update_self)

/-- The first page of the block of order `k` around a page. -/
def blockOf (page k : Nat) : Nat := page / 2 ^ k * 2 ^ k

/-- A free passes over a free buddy: the block of some order below the last has its buddy at
the head of the list, and the buddies of all smaller ones are free behind the heads. -/
def Overlooks (s : State) (page order : Nat) : Prop :=
  ∃ j, order ≤ j ∧ j + 1 < maxOrder ∧
    s.zone.freeLists j = some (pageBuddy (blockOf page j) j) ∧
    ∀ i, order ≤ i → i < j → FreeBlock s (pageBuddy (blockOf page i) i) i ∧
      s.zone.freeLists i ≠ some (pageBuddy (blockOf page i) i)

def Coalesced (s : State) : Prop :=
  ∀ p k, k + 1 < maxOrder → FreeBlock s p k → ¬ FreeBlock s (pageBuddy p k) k

variable {page order p first avail : Nat} {l : List Nat}

section Merge

variable {s s' : State} {region : Nat → Prop} {lists : Nat → List Nat} {held : List (Nat × Nat)} {k : Nat}

theorem Layout.inner_free {before after : List Nat} {a b : Nat}
    (layout : Layout s region lists held) (listed : lists k = before ++ a :: b :: after) :
    isPageFree s b = true ∧ (s.pageData b).order = k := by
  have member : b ∈ lists k := by simp [listed]
  have back := layout.back k
  rw [listed] at back
  have linked : (s.pageData b).prev = some a := BackLinked.prev_eq back
  refine ⟨?_, layout.order k b member⟩
  have unheaded : ∀ j, j < maxOrder → s.zone.freeLists j ≠ some b := by
    intro j small head
    obtain ⟨rest, first⟩ := layout.head_listed small head
    obtain rfl : j = k := layout.order_unique (.inl (by simp [first])) (.inl member)
    have distinct := (layout.chain j small).nodup
    rw [first] at listed
    rw [first] at distinct
    cases before with
    | nil | cons c front =>
      obtain ⟨rfl, rfl⟩ := List.cons.inj listed
      simp at distinct
  simpa [isPageFree, linked] using unheaded

theorem blockOf_self (aligned : 2 ^ k ∣ p) : blockOf p k = p := Nat.div_mul_cancel aligned

/-- A block and the pair that it is merged into lie in the same larger blocks. -/
theorem blockOf_min (aligned : 2 ^ order ∣ page) (above : order < k) :
    blockOf (min (buddy page order) page) k = blockOf page k := by
  have halves : min (buddy page order) page / 2 ^ (order + 1) = page / 2 ^ (order + 1) := by
    have positive : 0 < 2 ^ order := Nat.two_pow_pos order
    obtain ⟨-, same⟩ | ⟨large, ⟨m, whole⟩, same⟩ := buddy_cases aligned
    · rw [min_eq_right (by omega)]
    · rw [min_eq_left (by omega), same, whole, Nat.mul_div_cancel_left _ (Nat.two_pow_pos _)]
      refine (Nat.div_eq_of_lt_le ?_ ?_).symm <;> rw [Nat.pow_succ] at * <;> grind
  have deeper : ∀ p, p / 2 ^ k = p / 2 ^ (order + 1) / 2 ^ (k - (order + 1)) := by
    intro p
    rw [Nat.div_div_eq_div_mul, ← Nat.pow_add, Nat.add_sub_cancel' above]
  rw [blockOf, blockOf, deeper, deeper page, halves]

/-- Where the buddy is merged, what is overlooked is overlooked by the free of the pair. -/
theorem Overlooks.merged_iff (aligned : 2 ^ order ∣ page)
    (free : FreeBlock s (pageBuddy page order) order)
    (behind : s.zone.freeLists order ≠ some (pageBuddy page order)) (zone : s'.zone = s.zone)
    (blocks : ∀ p k, order < k → (FreeBlock s' p k ↔ FreeBlock s p k)) :
    Overlooks s' (min (buddy page order) page) (order + 1) ↔ Overlooks s page order := by
  constructor
  · rintro ⟨j, above, small, head, rest⟩
    rw [zone, blockOf_min aligned above] at head
    refine ⟨j, by omega, small, head, fun i low high => ?_⟩
    obtain rfl | above := low.eq_or_lt
    · rw [blockOf_self aligned]
      exact ⟨free, behind⟩
    · have merged := rest i above high
      rwa [zone, blockOf_min aligned above, blocks _ i above] at merged
  · rintro ⟨j, above, small, head, rest⟩
    obtain rfl | above := above.eq_or_lt
    · rw [blockOf_self aligned] at head
      exact absurd head behind
    · refine ⟨j, above, small, ?_, fun i low high => ?_⟩
      · rw [zone, blockOf_min aligned above, head]
      · rw [zone, blockOf_min aligned low, blocks _ i low]
        exact rest i (by omega) high

/-- Where the recursion stops, the free lists have lost the buddies merged on the way and
gained one block, and `Overlooks` says whether the buddy of that block is free. -/
theorem freeFrom_merges (levels : Nat) (layout : Layout s region lists ((page, order) :: held))
    (quiet : Quiet s (Silent region held)) (depth : levels + order = maxOrder)
    (ran : freeFrom levels s page order = .ok s') :
    ∃ kept p k, (∀ j q, q ∈ kept j → q ∈ lists j) ∧ Layout s' region (update kept k (p :: kept k)) held ∧
      (Overlooks s page order ↔ k + 1 < maxOrder ∧ buddy p k ∈ kept k) := by
  induction levels generalizing s lists page order with
  | zero => simp [freeFrom] at ran
  | succ levels ih =>
    rw [freeFrom] at ran
    have held : page ∈ lists order ∨ (page, order) ∈ (page, order) :: held := .inr List.mem_cons_self
    have aligned := layout.aligned page order held
    have bound := layout.bounded page order held
    split at ran
    case isTrue merge =>
      -- the buddy leaves its list, and the two are one held block of the next order
      obtain ⟨before, a, after, listed, pair, quiet'⟩ := layout.absorb quiet merge.1 merge.2
      have room : order + 1 < maxOrder := by
        by_contra last
        obtain rfl : levels = 0 := by omega
        simp [freeFrom] at ran
      obtain ⟨kept, p, k, smaller, layout', seen⟩ :=
        ih ⟨pair.mergeHeld room, pair.back⟩ quiet' (by omega) ran
      have free : FreeBlock s (pageBuddy page order) order :=
        (layout.freeBlock_iff _ _).mpr (by simp [listed, pageBuddy_eq])
      have behind := isPageFree_not_head merge.1 bound
      have blocks : ∀ q j, order < j → (FreeBlock _ q j ↔ FreeBlock s q j) := fun q j above => by
        rw [pair.freeBlock_iff, update_of_ne above.ne', layout.freeBlock_iff]
      refine ⟨kept, p, k, fun j q member => ?_, layout',
        (Overlooks.merged_iff aligned free behind (by rfl) blocks).symm.trans seen⟩
      have old := smaller j q member
      by_cases same : j = order
      · subst same
        rw [update_self] at old
        rw [listed]
        simp only [List.mem_append, List.mem_cons] at old ⊢
        exact old.imp_right (Or.imp_right .inr)
      · rwa [update_of_ne same] at old
    case isFalse stop =>
      cases ran
      refine ⟨lists, page, order, fun _ _ => id, layout.push (insertFree_pushed s page order), ?_⟩
      constructor
      · rintro ⟨j, above, small, head, rest⟩
        obtain rfl | above := above.eq_or_lt
        · rw [blockOf_self aligned] at head
          exact ⟨small, layout.head_mem bound head⟩
        · -- a free buddy behind the head would have been merged
          obtain ⟨free, behind⟩ := rest order le_rfl above
          rw [blockOf_self aligned] at free behind
          obtain first | ⟨before, a, after, listed⟩ :=
            mem_head_or_inner ((layout.freeBlock_iff _ _).mp free)
          · exact absurd ((layout.chain order bound).start_eq.trans first) behind
          · exact absurd (layout.inner_free listed) stop
      · rintro ⟨small, member⟩
        refine ⟨order, le_rfl, small, ?_, fun i low high => by omega⟩
        rw [blockOf_self aligned]
        obtain first | ⟨before, a, after, listed⟩ := mem_head_or_inner member
        · exact (layout.chain order bound).start_eq.trans first
        · exact absurd (layout.inner_free listed) stop

theorem pmmFreeOrder_coalesced {allocated : List (Nat × Nat)}
    (holds : Invariant region (s, allocated)) (merged : Coalesced s)
    (member : (page, order) ∈ allocated) (ran : pmmFreeOrder s page order = .ok s') :
    Coalesced s' ↔ ¬ Overlooks s page order := by
  obtain ⟨lists, layout, quiet⟩ := holds
  obtain ⟨transit, quiet', bound⟩ := layout.transit quiet member
  obtain ⟨kept, p, k, smaller, layout', seen⟩ :=
    freeFrom_merges (maxOrder - order) transit quiet' (by omega) ran
  have here : p ∈ update kept k (p :: kept k) k := by simp
  have aligned := layout'.aligned p k (.inl here)
  rw [seen]
  constructor
  · rintro merged' ⟨small, found⟩
    refine merged' p k small ((layout'.freeBlock_iff p k).mpr here) ((layout'.freeBlock_iff _ k).mpr ?_)
    rw [update_self]
    exact List.mem_cons_of_mem _ found
  · intro alone q j small first second
    rw [layout'.freeBlock_iff] at first second
    have old : ∀ x, x ∈ kept j → FreeBlock s x j :=
      fun x found => (layout.freeBlock_iff x j).mpr (smaller j x found)
    by_cases same : j = k
    · subst same
      rw [update_self, List.mem_cons] at first second
      obtain rfl | first := first
      · exact alone ⟨small, second.resolve_left (buddy_ne aligned)⟩
      · obtain equal | second := second
        · refine alone ⟨small, ?_⟩
          rwa [← equal, pageBuddy_eq, buddy_buddy]
        · exact merged q j small (old q first) (old _ second)
    · rw [update_of_ne same] at first second
      exact merged q j small (old q first) (old _ second)

theorem Coalesced.alloc (merged : Coalesced s) (layout : Layout s region lists held)
    (bound : order < maxOrder) (ran : zoneAllocOrder s order = .ok (some page, s')) : Coalesced s' := by
  have old : ∀ p k, FreeBlock s p k ↔ p ∈ lists k := layout.freeBlock_iff
  obtain ⟨refused, -⟩ | ⟨free, head, rest, s₁, larger, listed, empty, ran', threaded', -⟩ :=
    zoneAllocOrder_spec layout.toThreaded bound
  · simp [refused] at ran
  · cases ran'.symm.trans ran
    have distinct := (layout.chain free (layout.bounded page free (.inl (by simp [listed])))).nodup
    rw [listed, List.nodup_cons] at distinct
    have blocks : ∀ p k, FreeBlock s' p k ↔
        (p ∈ lists k ∧ ¬ (p = page ∧ k = free)) ∨ (order ≤ k ∧ k < free ∧ p = page + 2 ^ k) := by
      intro p k
      rw [threaded'.freeBlock_iff, carve_mem listed distinct.1 empty]
    -- a half that the split leaves is alone on its list, and its buddy is not on it
    intro p k small first second
    have aligned := threaded'.aligned p k (.inl ((threaded'.freeBlock_iff p k).mp first))
    rw [blocks] at first second
    obtain ⟨inside, -⟩ | ⟨low, high, rfl⟩ := first
    · obtain ⟨inside', -⟩ | ⟨low, high, -⟩ := second
      · exact merged p k small ((old p k).mpr inside) ((old _ k).mpr inside')
      · simp [empty k low high] at inside
    · obtain ⟨inside', -⟩ | ⟨-, -, equal⟩ := second
      · simp [empty k low high] at inside'
      · exact buddy_ne aligned equal

theorem Coalesced.covers (merged : Coalesced s) (layout : Layout s region lists [])
    (bound : order ≤ maxOrder - 1) (aligned : 2 ^ order ∣ p)
    (inside : ∀ q, Within pow2 p order q → region q) :
    ∃ start k, start ∈ lists k ∧ order ≤ k ∧ Within pow2 start k p := by
  have tiles : Tiles pow2 region fun p k => p ∈ lists k := layout.tiles.congr fun p k => by simp
  have apart : ∀ p k, k < maxOrder - 1 → p ∈ lists k → buddy p k ∉ lists k := by
    intro p k small first second
    exact merged p k (by omega) ((layout.freeBlock_iff p k).mpr first)
      ((layout.freeBlock_iff _ k).mpr second)
  exact tiles.covers_aligned (fun p k member => layout.aligned p k (.inl member)) apart bound aligned inside

theorem Coalesced.serves (merged : Coalesced s) (layout : Layout s region lists [])
    (bound : order < maxOrder) (aligned : 2 ^ order ∣ p) (inside : ∀ q, Within pow2 p order q → region q) :
    ∃ page s', zoneAllocOrder s order = .ok (some page, s') := by
  obtain ⟨start, k, listed, larger, -⟩ := merged.covers layout (by omega) aligned inside
  obtain ⟨-, empty⟩ | ⟨-, page, -, s', -, -, -, ran, -⟩ := zoneAllocOrder_spec layout.toThreaded bound
  · rw [empty k larger (layout.bounded start k (.inl listed))] at listed
    exact absurd listed List.not_mem_nil
  · exact ⟨page, s', ran⟩

theorem getMaxOrderFrom_max {startPfn endPfn rv j : Nat} (small : j ≤ rv)
    (aligned : 2 ^ j ∣ startPfn) (room : startPfn + 2 ^ j ≤ endPfn) :
    j ≤ getMaxOrderFrom startPfn endPfn rv := by
  induction rv with
  | zero => exact small
  | succ rv ih =>
    rw [getMaxOrderFrom]
    obtain rfl | lower := small.eq_or_lt
    · rw [if_neg (by omega), if_pos ((isAlignPow2_iff _ _).mpr aligned)]
    · split
      · exact ih (by omega)
      · split
        · exact small
        · exact ih (by omega)

/-- The populating loop never leaves a pair of buddies unmerged, unless the end of the zone
wraps around. -/
theorem Greedy.coalesced (greedy : Greedy first avail lists)
    (layout : Layout s (Frames first avail) lists [])
    (below : (first + avail) * pageSize < wordMod) : Coalesced s := by
  have limit : (first * pageSize + avail * pageSize) % wordMod / pageSize = first + avail := by
    simp only [pageSize, wordMod] at *
    omega
  -- the lower of two buddies would have been made one order larger
  have lower : ∀ low k, k + 1 < maxOrder → 2 ^ (k + 1) ∣ low → low ∈ lists k → low + 2 ^ k ∉ lists k := by
    intro low k small whole listed listed'
    have double : pow2 (k + 1) = pow2 k + pow2 k := pow2_succ_eq k
    have positive : 0 < pow2 k := Nat.two_pow_pos k
    have last : Frames first avail (low + pow2 k + (pow2 k - 1)) :=
      layout.tiles.inside (low + pow2 k) k _ (.inl listed') ⟨by omega, by omega⟩
    have chosen := greedy k low listed
    rw [chosenOrder, limit] at chosen
    have larger : k + 1 ≤ getMaxOrderFrom low (first + avail) (maxOrder - 1) := by
      refine getMaxOrderFrom_max (by omega) whole ?_
      have end_ := last.2
      change low + pow2 (k + 1) ≤ first + avail
      omega
    omega
  intro p k small free free'
  rw [layout.freeBlock_iff] at free free'
  rw [pageBuddy_eq] at free'
  obtain ⟨whole, same⟩ | ⟨large, whole, same⟩ := buddy_cases (layout.aligned p k (.inl free))
  · rw [same] at free'
    exact lower p k small whole free free'
  · rw [same] at free'
    refine lower (p - 2 ^ k) k small whole free' ?_
    rwa [Nat.sub_add_cancel large]

end Merge

/-! ## Runs in which no free overlooks a buddy -/

/-- The steps of the allocator, without the frees that overlook a buddy. -/
abbrev CoalescingStep : State × List (Nat × Nat) → State × List (Nat × Nat) → Prop :=
  StepIf fun s page order => ¬ Overlooks s page order

variable {state state' : State × List (Nat × Nat)}

theorem coalescingStep_coalesced {region : Nat → Prop} (step : CoalescingStep state state')
    (holds : Invariant region state) (merged : Coalesced state.1) : Coalesced state'.1 := by
  cases step with
  | alloc bound ran =>
    obtain ⟨lists, layout, -⟩ := holds
    exact merged.alloc layout bound ran
  | @refuse s s' allocated order bound ran =>
    obtain ⟨lists, layout, quiet⟩ := holds
    obtain ⟨refused, -⟩ | ⟨_, _, _, s₁, _, _, _, ran', -⟩ := zoneAllocOrder_spec layout.toThreaded bound
    · obtain rfl : s = s' := by simpa [refused] using ran
      exact merged
    · simp [ran'] at ran
  | free member seen ran => exact (pmmFreeOrder_coalesced holds merged member ran).mpr seen

section Runs

variable {rg : MmapRegion} {pages : PageData} {s₀ s : State} {allocated : List (Nat × Nat)}

theorem initZone_coalesced (fits : rg.base + rg.len ≤ wordMod)
    (built : initZone rg pages = .ok (some s₀)) (outside : ∀ p, ¬ s₀.zone.Pages p →
      pages p = zeroPage) (below : s₀.zone.paStart + s₀.zone.len < wordMod) :
    Coalesced s₀ := by
  obtain ⟨first, avail, lists₀, start, len, extent, layout₀, -, greedy⟩ := initZone_built fits built outside
  rw [extent] at layout₀
  refine greedy.coalesced layout₀ ?_
  rw [start, len] at below
  rwa [Nat.add_mul]

/-- As long as no free overlooks a buddy, no two free blocks below the last order are
buddies of each other, and when everything has been freed, every request that a fresh zone
serves is served again. A free that does overlook a buddy leaves two such blocks. -/
theorem coalescing_complete (fits : rg.base + rg.len ≤ wordMod)
    (built : initZone rg pages = .ok (some s₀)) (outside : ∀ p, ¬ s₀.zone.Pages p →
      pages p = zeroPage) (below : s₀.zone.paStart + s₀.zone.len < wordMod)
    (run : Reaches CoalescingStep (s₀, []) (s, allocated)) :
    Coalesced s ∧
      (allocated = [] → ∀ order, order < maxOrder →
        (∃ page s', zoneAllocOrder s₀ order = .ok (some page, s')) →
        ∃ page s', zoneAllocOrder s order = .ok (some page, s')) ∧
      ∀ page order s', (page, order) ∈ allocated → pmmFreeOrder s page order = .ok s' →
        (Coalesced s' ↔ ¬ Overlooks s page order) := by
  obtain ⟨-, -, lists₀, -, -, -, layout₀, quiet₀, -⟩ := initZone_built fits built outside
  have fresh := initZone_coalesced fits built outside below
  have holds : Invariant s₀.zone.Pages (s, allocated) ∧ Coalesced s := by
    refine run.invariant (fun state => Invariant s₀.zone.Pages state ∧ Coalesced state.1)
      ⟨⟨lists₀, layout₀, quiet₀⟩, fresh⟩ fun state state' _ step before => ?_
    exact ⟨step_invariant step before.1, coalescingStep_coalesced step before.1 before.2⟩
  obtain ⟨invariant, merged⟩ := holds
  refine ⟨merged, ?_, fun page order s' member ran => pmmFreeOrder_coalesced invariant merged member ran⟩
  rintro rfl order bound ⟨page, s', ran⟩
  obtain ⟨lists, layout, -⟩ := invariant
  obtain ⟨refused, -⟩ | ⟨free, head, rest, s₁, larger, listed, -⟩ :=
    zoneAllocOrder_spec layout₀.toThreaded bound
  · simp [refused] at ran
  · -- the block that served the request when the zone was fresh contains an aligned range of the order
    have here : head ∈ lists₀ free := by simp [listed]
    have aligned := layout₀.aligned head free (.inl here)
    refine merged.serves layout bound ((Nat.pow_dvd_pow 2 larger).trans aligned) fun q within => ?_
    have grows : pow2 order ≤ pow2 free := Nat.pow_le_pow_right (by decide) larger
    exact layout₀.tiles.inside head free q (.inl here) ⟨within.1, by have := within.2; omega⟩

/-- Some block around a page has its buddy at the head of a list. -/
def buddyAtHead (s : State) (page : Nat) : Bool :=
  (List.range maxOrder).any fun j => s.zone.freeLists j == some (pageBuddy (blockOf page j) j)

theorem not_overlooks (unheaded : buddyAtHead s page = false) : ¬ Overlooks s page order := by
  rintro ⟨j, -, small, head, -⟩
  rw [buddyAtHead, List.any_eq_false] at unheaded
  exact unheaded j (List.mem_range.mpr (by omega)) (beq_iff_eq.mpr head)

/-- Four pages, three of them allocated one by one: the fourth is merged with its buddy when
that is freed, because by then another page heads the list. -/
theorem coalescing_complete_four_pages :
    ∃ s₀ s, initZone ⟨0x1FF000, 0x5000⟩ (fun _ => zeroPage) = .ok (some s₀) ∧
      Reaches CoalescingStep (s₀, []) (s, [(512, 0)]) ∧ s.zone.freeLists 1 = some 514 ∧ Coalesced s := by
  have evaluated : ((initZone ⟨0x1FF000, 0x5000⟩ fun _ => zeroPage).toOption.join.bind fun s₀ =>
      (zoneAllocOrder s₀ 0).toOption.bind fun r₁ => (zoneAllocOrder r₁.2 0).toOption.bind fun r₂ =>
        (zoneAllocOrder r₂.2 0).toOption.bind fun r₃ => (pmmFreeOrder r₃.2 513 0).toOption.bind fun s₄ =>
          (pmmFreeOrder s₄ 514 0).toOption.map fun s₅ =>
            ((r₁.1, r₂.1, r₃.1), (buddyAtHead r₃.2 513, buddyAtHead s₄ 514),
              s₀.zone.paStart + s₀.zone.len, s₅.zone.freeLists 1)) =
      some ((some 512, some 513, some 514), (false, false), 0x204000, some 514) := by decide +kernel
  obtain ⟨s₀, built, evaluated⟩ := bind_eq_some_iff.mp evaluated
  obtain ⟨⟨p₁, s₁⟩, first, evaluated⟩ := toOption_bind_eq_some.mp evaluated
  obtain ⟨⟨p₂, s₂⟩, second, evaluated⟩ := toOption_bind_eq_some.mp evaluated
  obtain ⟨⟨p₃, s₃⟩, third, evaluated⟩ := toOption_bind_eq_some.mp evaluated
  obtain ⟨s₄, fourth, evaluated⟩ := toOption_bind_eq_some.mp evaluated
  obtain ⟨s, fifth, evaluated⟩ := toOption_map_eq_some.mp evaluated
  simp only [Prod.mk.injEq] at evaluated
  obtain ⟨⟨rfl, rfl, rfl⟩, ⟨seen, seen'⟩, end_, list⟩ := evaluated
  have built' := toOption_eq_some.mp (join_eq_some_iff.mp built)
  have run : Reaches CoalescingStep (s₀, []) (s, [(512, 0)]) := by
    have allocated : Reaches CoalescingStep (s₀, []) (s₃, [(514, 0), (513, 0), (512, 0)]) :=
      ((Relation.ReflTransGen.single (.alloc (by decide) first)).tail
        (.alloc (by decide) second)).tail (.alloc (by decide) third)
    exact (allocated.tail (@StepIf.free _ _ _ _ 0 513 (by decide) (not_overlooks seen) fourth)).tail
      (@StepIf.free _ _ _ _ 0 514 (by decide) (not_overlooks seen') fifth)
  refine ⟨s₀, s, built', run, list, ?_⟩
  exact (coalescing_complete (by decide) built' (fun _ _ => rfl) (by rw [end_]; decide) run).1

/-- A page is allocated from a block of two and freed at once. Its buddy heads the list, so
the two stay apart, and the block cannot be allocated again. -/
theorem freed_page_stays_split :
    ∃ s₀ s₁ s₂, initZone ⟨0x1FF000, 0x3000⟩ (fun _ => zeroPage) = .ok (some s₀) ∧
      zoneAllocOrder s₀ 0 = .ok (some 512, s₁) ∧ pmmFreeOrder s₁ 512 0 = .ok s₂ ∧
      Reaches Step (s₀, []) (s₂, []) ∧
      FreeBlock s₂ 512 0 ∧ FreeBlock s₂ (pageBuddy 512 0) 0 ∧
      (∃ s', zoneAllocOrder s₀ 1 = .ok (some 512, s')) ∧
      ∃ s', zoneAllocOrder s₂ 1 = .ok (none, s') := by
  have evaluated : ((initZone ⟨0x1FF000, 0x3000⟩ fun _ => zeroPage).toOption.join.bind fun s₀ =>
      (zoneAllocOrder s₀ 0).toOption.bind fun r₁ => (pmmFreeOrder r₁.2 512 0).toOption.bind fun s₂ =>
        (zoneAllocOrder s₀ 1).toOption.bind fun r₃ => (zoneAllocOrder s₂ 1).toOption.map fun r₄ =>
          ((s₂.zone.freeLists 0, s₂.next 512, s₂.next 513), r₁.1, r₃.1, r₄.1)) =
      some ((some 512, some 513, none), some 512, some 512, none) := by decide +kernel
  obtain ⟨s₀, built, evaluated⟩ := bind_eq_some_iff.mp evaluated
  obtain ⟨⟨p₁, s₁⟩, allocated, evaluated⟩ := toOption_bind_eq_some.mp evaluated
  obtain ⟨s₂, freed, evaluated⟩ := toOption_bind_eq_some.mp evaluated
  obtain ⟨⟨p₃, s₃⟩, third, evaluated⟩ := toOption_bind_eq_some.mp evaluated
  obtain ⟨⟨p₄, s₄⟩, fourth, evaluated⟩ := toOption_map_eq_some.mp evaluated
  simp only [Prod.mk.injEq] at evaluated
  obtain ⟨⟨head, next, last⟩, rfl, rfl, rfl⟩ := evaluated
  have chain : Chain s₂.next (s₂.zone.freeLists 0) [512, 513] := ⟨head, next, last⟩
  refine ⟨s₀, s₁, s₂, toOption_eq_some.mp (join_eq_some_iff.mp built), allocated, freed, ?_,
    ⟨by decide, _, chain, by simp⟩, ⟨by decide, _, chain, by decide⟩, ⟨s₃, third⟩, s₄, fourth⟩
  exact (Relation.ReflTransGen.single (.alloc (by decide) allocated)).tail
    (@StepIf.free _ _ _ _ 0 512 (by decide) trivial freed)

end Runs

/-! ## The last order -/

section LastOrder

variable {s s' : State} {region : Nat → Prop} {lists : Nat → List Nat} {held : List (Nat × Nat)}

theorem Coalesced.top_listed (merged : Coalesced s) (layout : Layout s region lists [])
    (top : TopRange region p) : p ∈ lists (maxOrder - 1) := by
  obtain ⟨start, k, listed, larger, within⟩ := merged.covers layout (le_refl _) top.1 top.2
  obtain rfl : k = maxOrder - 1 := by
    have bound := layout.bounded start k (.inl listed)
    omega
  rwa [← within.start_eq (layout.aligned start _ (.inl listed)) top.1]

variable {allocated : List (Nat × Nat)}

section

variable (holds : Invariant region (s, allocated))
include holds

theorem drain_tops (chain : Chain s.next (s.zone.freeLists (maxOrder - 1)) l) :
    ∃ s' allocated', Reaches Step (s, allocated) (s', allocated') ∧
      s'.zone.freeLists (maxOrder - 1) = none ∧
      (∀ p ∈ l, (p, maxOrder - 1) ∈ allocated') ∧ ∀ block ∈ allocated, block ∈ allocated' := by
  induction l generalizing s allocated with
  | nil => exact ⟨s, allocated, .refl, chain, by simp, fun _ => id⟩
  | cons head rest ih =>
    obtain ⟨lists, layout, quiet⟩ := holds
    have bound : maxOrder - 1 < maxOrder := by decide
    have whole : lists (maxOrder - 1) = head :: rest := (layout.chain _ bound).functional chain
    obtain ⟨-, empty⟩ | ⟨free, page, rest', s₁, larger, listed, -, ran, threaded', -⟩ :=
      zoneAllocOrder_spec layout.toThreaded bound
    · simp [empty _ (le_refl _) bound] at whole
    · obtain rfl : free = maxOrder - 1 := by
        have small := layout.bounded page free (.inl (by simp [listed]))
        omega
      obtain ⟨rfl, rfl⟩ := List.cons.inj (whole.symm.trans listed)
      have step : Step (s, allocated) (s₁, (head, maxOrder - 1) :: allocated) := .alloc bound ran
      have chain' : Chain s₁.next (s₁.zone.freeLists (maxOrder - 1)) rest := by
        simpa [carve] using threaded'.chain (maxOrder - 1) bound
      obtain ⟨s', allocated', run, none, all, kept⟩ :=
        ih (step_invariant step ⟨lists, layout, quiet⟩) chain'
      refine ⟨s', allocated', .head step run, none, ?_,
        fun block member => kept block (List.mem_cons_of_mem _ member)⟩
      simpa using ⟨kept _ List.mem_cons_self, all⟩

theorem pmmFreeOrder_short (member : (page, maxOrder - 1) ∈ allocated)
    (chain : Chain s.next (s.zone.freeLists (maxOrder - 1)) l) (short : l.length ≤ 1) :
    ∃ s', pmmFreeOrder s page (maxOrder - 1) = .ok s' ∧
      Chain s'.next (s'.zone.freeLists (maxOrder - 1)) (page :: l) := by
  obtain ⟨lists, layout, quiet⟩ := holds
  have whole : lists (maxOrder - 1) = l := (layout.chain _ (by decide)).functional chain
  obtain ⟨transit, quiet', -⟩ := layout.transit quiet member
  refine ⟨insertFree s page (maxOrder - 1), if_neg fun merge => ?_, ?_⟩
  · obtain ⟨before, a, after, listed⟩ := transit.buddy_listed quiet' merge.1 merge.2
    rw [← whole, listed] at short
    simp only [List.length_append, List.length_cons] at short
    omega
  · have pushed := (transit.push (insertFree_pushed s page (maxOrder - 1))).chain (maxOrder - 1) (by decide)
    rwa [update_self, whole] at pushed

theorem pmmFreeOrder_escapes {x y : Nat} (chain : Chain s.next (s.zone.freeLists (maxOrder - 1)) [y, x]) :
    pmmFreeOrder s (buddy x (maxOrder - 1)) (maxOrder - 1) = .error .outOfRange := by
  obtain ⟨lists, layout, -⟩ := holds
  have whole : lists (maxOrder - 1) = [] ++ y :: x :: [] := (layout.chain _ (by decide)).functional chain
  have merge := layout.inner_free whole
  refine if_pos ?_
  rwa [pageBuddy_eq, buddy_buddy]

end

theorem topRange_frames :
    TopRange (Frames first avail) p ↔ 2048 ∣ p ∧ first ≤ p ∧ p + 2048 ≤ first + avail := by
  simp only [TopRange, Frames, Within, pow2, maxOrder]
  constructor
  · rintro ⟨aligned, inside⟩
    have low := inside p ⟨le_refl p, by omega⟩
    have high := inside (p + 2047) ⟨by omega, by omega⟩
    exact ⟨aligned, by omega, by omega⟩
  · rintro ⟨aligned, low, high⟩
    exact ⟨aligned, fun q within => by omega⟩

/-- Among three ranges of the last order in an interval two are buddies of each other. -/
theorem exists_top_buddies (many : ¬ FewTops (Frames first avail)) :
    ∃ x y, TopRange (Frames first avail) x ∧ TopRange (Frames first avail) (buddy x (maxOrder - 1)) ∧
      TopRange (Frames first avail) y ∧ y ≠ x ∧ y ≠ buddy x (maxOrder - 1) := by
  simp only [FewTops, not_forall, not_or] at many
  obtain ⟨a, b, c, ta, tb, tc, ab, ac, bc⟩ := many
  simp only [topRange_frames] at ta tb tc ⊢
  -- the lowest of the three is followed by two more
  obtain ⟨low, aligned, above, room⟩ : ∃ low, 2048 ∣ low ∧ first ≤ low ∧ low + 3 * 2048 ≤ first + avail :=
    ⟨min a (min b c), by omega, by omega, by omega⟩
  have parity : 2 ^ 11 ∣ low := aligned
  obtain ⟨whole, same⟩ | ⟨large, whole, same⟩ := buddy_cases parity
  · exact ⟨low, low + 2 * 2048, by omega, by simp only [maxOrder, same]; omega, by omega, by omega,
      by simp only [maxOrder, same]; omega⟩
  · have upper : buddy (low + 2048) 11 = low + 2 * 2048 := by
      have even : 2 ^ (11 + 1) ∣ low + 2048 := by omega
      rw [buddy_of_aligned even]
      omega
    exact ⟨low + 2048, low, by omega, by simp only [maxOrder, upper]; omega, by omega, by omega,
      by simp only [maxOrder, upper]; omega⟩

end LastOrder

section Range

variable {rg : MmapRegion} {pages : PageData} {s₀ : State}

/-- No free that a run from `s₀` can come to leaves the orders that have a list. -/
def FreesStayInRange (s₀ : State) : Prop :=
  ∀ s allocated, Reaches Step (s₀, []) (s, allocated) → ∀ page order, (page, order) ∈ allocated →
    ∃ s', pmmFreeOrder s page order = .ok s'

/-- Frees stay within the orders that have a list exactly if the zone contains at most two
aligned ranges of the last order. -/
theorem frees_stay_in_range (fits : rg.base + rg.len ≤ wordMod)
    (built : initZone rg pages = .ok (some s₀)) (outside : ∀ p, ¬ s₀.zone.Pages p → pages p = zeroPage) :
    (FewTops s₀.zone.Pages → FreesStayInRange s₀) ∧
      (s₀.zone.paStart + s₀.zone.len < wordMod → FreesStayInRange s₀ → FewTops s₀.zone.Pages) := by
  obtain ⟨first, avail, lists₀, -, -, extent, layout₀, quiet₀, -⟩ := initZone_built fits built outside
  have fresh : Invariant s₀.zone.Pages (s₀, []) := ⟨lists₀, layout₀, quiet₀⟩
  have reached : ∀ s allocated, Reaches Step (s₀, []) (s, allocated) →
      Invariant s₀.zone.Pages (s, allocated) :=
    fun s allocated run => run.invariant (Invariant s₀.zone.Pages) fresh fun _ _ _ => step_invariant
  constructor
  · intro few s allocated run page order member
    obtain ⟨-, many⟩ | ⟨s', ran, -⟩ := pmmFreeOrder_spec (reached s allocated run) member
    · exact absurd few many
    · exact ⟨s', ran⟩
  · intro below stays
    by_contra many
    rw [extent] at many
    obtain ⟨x, y, topX, topBuddy, topY, notX, notBuddy⟩ := exists_top_buddies many
    rw [← extent] at topX topBuddy topY
    have merged := initZone_coalesced fits built outside below
    obtain ⟨s₁, allocated₁, run₁, none, all, -⟩ :=
      drain_tops fresh (layout₀.chain (maxOrder - 1) (by decide))
    have heldX := all x (merged.top_listed layout₀ topX)
    have heldBuddy := all _ (merged.top_listed layout₀ topBuddy)
    have heldY := all y (merged.top_listed layout₀ topY)
    -- free `x`, then `y`, so that `x` is second on the list, then the buddy of `x`
    obtain ⟨s₂, freed₁, chain₂⟩ :=
      pmmFreeOrder_short (reached _ _ run₁) heldX (chain_nil.mpr none) (by simp)
    have run₂ := run₁.tail (.free heldX trivial freed₁)
    have heldY₂ : (y, maxOrder - 1) ∈ allocated₁.erase (x, maxOrder - 1) :=
      (List.mem_erase_of_ne (by simpa using notX)).mpr heldY
    obtain ⟨s₃, freed₂, chain₃⟩ := pmmFreeOrder_short (reached _ _ run₂) heldY₂ chain₂ (by simp)
    have run₃ := run₂.tail (.free heldY₂ trivial freed₂)
    have heldBuddy₃ : (buddy x (maxOrder - 1), maxOrder - 1) ∈
        (allocated₁.erase (x, maxOrder - 1)).erase (y, maxOrder - 1) := by
      refine (List.mem_erase_of_ne (by simpa using Ne.symm notBuddy)).mpr
        ((List.mem_erase_of_ne ?_).mpr heldBuddy)
      simpa using buddy_ne topX.1
    obtain ⟨s', ran⟩ := stays s₃ _ run₃ _ _ heldBuddy₃
    rw [pmmFreeOrder_escapes (reached _ _ run₃) chain₃] at ran
    exact absurd ran (by simp)

/-- A zone of two blocks of the last order, which are buddies. -/
theorem frees_stay_in_range_two_blocks :
    ∃ s₀, initZone ⟨0xFFF000, 0x1001000⟩ (fun _ => zeroPage) = .ok (some s₀) ∧
      TopRange s₀.zone.Pages 4096 ∧ TopRange s₀.zone.Pages 6144 ∧ FreesStayInRange s₀ := by
  have evaluated : ((initZone ⟨0xFFF000, 0x1001000⟩ fun _ => zeroPage).toOption.join.map fun s₀ =>
      (s₀.zone.paStart, s₀.zone.len)) = some (0x1000000, 0x1000000) := by decide +kernel
  obtain ⟨s₀, built, extent⟩ := map_eq_some_iff.mp evaluated
  obtain ⟨start, len⟩ := Prod.mk.inj extent
  have built' := toOption_eq_some.mp (join_eq_some_iff.mp built)
  have pages : s₀.zone.Pages = Frames 4096 4096 := by
    funext p
    simp only [Zone.Pages, Frames, start, len, pageSize, eq_iff_iff]
    omega
  refine ⟨s₀, built', ?_, ?_, (frees_stay_in_range (by decide) built' fun _ _ => rfl).1 ?_⟩ <;> rw [pages]
  · exact topRange_frames.mpr (by decide)
  · exact topRange_frames.mpr (by decide)
  · intro a b c
    simp only [topRange_frames]
    omega

/-- A zone of three blocks of the last order, the second and third of them buddies. All are
allocated; then the second, the first and the third are freed. -/
theorem last_order_buddies_merge :
    ∃ s₀ s, initZone ⟨0x7FF000, 0x1801000⟩ (fun _ => zeroPage) = .ok (some s₀) ∧
      Reaches Step (s₀, []) (s, [(6144, 11)]) ∧ pmmFreeOrder s 6144 11 = .error .outOfRange := by
  have evaluated : ((initZone ⟨0x7FF000, 0x1801000⟩ fun _ => zeroPage).toOption.join.bind fun s₀ =>
      (zoneAllocOrder s₀ 11).toOption.bind fun r₁ => (zoneAllocOrder r₁.2 11).toOption.bind fun r₂ =>
        (zoneAllocOrder r₂.2 11).toOption.bind fun r₃ => (pmmFreeOrder r₃.2 4096 11).toOption.bind fun s₄ =>
          (pmmFreeOrder s₄ 2048 11).toOption.map fun s₅ =>
            ((r₁.1, r₂.1, r₃.1), (isPageFree s₅ 4096, (s₅.pageData 4096).order))) =
      some ((some 6144, some 4096, some 2048), true, 11) := by decide +kernel
  obtain ⟨s₀, built, evaluated⟩ := bind_eq_some_iff.mp evaluated
  obtain ⟨⟨p₁, s₁⟩, first, evaluated⟩ := toOption_bind_eq_some.mp evaluated
  obtain ⟨⟨p₂, s₂⟩, second, evaluated⟩ := toOption_bind_eq_some.mp evaluated
  obtain ⟨⟨p₃, s₃⟩, third, evaluated⟩ := toOption_bind_eq_some.mp evaluated
  obtain ⟨s₄, fourth, evaluated⟩ := toOption_bind_eq_some.mp evaluated
  obtain ⟨s, fifth, evaluated⟩ := toOption_map_eq_some.mp evaluated
  simp only [Prod.mk.injEq] at evaluated
  obtain ⟨⟨rfl, rfl, rfl⟩, free, order⟩ := evaluated
  have allocated : Reaches Step (s₀, []) (s₃, [(2048, 11), (4096, 11), (6144, 11)]) :=
    ((Relation.ReflTransGen.single (.alloc (by decide) first)).tail
      (.alloc (by decide) second)).tail (.alloc (by decide) third)
  refine ⟨s₀, s, toOption_eq_some.mp (join_eq_some_iff.mp built), ?_, if_pos ⟨free, order⟩⟩
  exact (allocated.tail (@StepIf.free _ _ _ _ 11 4096 (by decide) trivial fourth)).tail
    (@StepIf.free _ _ _ _ 11 2048 (by decide) trivial fifth)

end Range

end ByteOS.Mm.Pmm
