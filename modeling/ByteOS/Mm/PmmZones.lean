import ByteOS.Mm.PmmPartition

/-! Allocation from a list of zones, and exactly what it takes from the free lists.

Allocation follows `next` only, so the zones are not assumed to have the back links that
freeing needs.
-/

set_option autoImplicit false

namespace ByteOS.Mm.Pmm

open ByteOS.Lib
open Function (update update_self update_of_ne)

def gfpCanFail : Nat := 1

/-- The walk of `pmm_alloc_order` along `zone_list`. -/
def allocFromZones (order : Nat) : List Zone → PageData → Except Fault (Option Nat × List Zone × PageData)
  | [], pages => .ok (none, [], pages)
  | zone :: rest, pages => do
      let (rv, s) ← zoneAllocOrder ⟨zone, pages⟩ order
      match rv with
      | some page => return (some page, s.zone :: rest, s.pageData)
      | none =>
        let (rv, zones, pages) ← allocFromZones order rest s.pageData
        return (rv, s.zone :: zones, pages)

def pmmAllocOrder (zones : List Zone) (pages : PageData) (order allocFlags : Nat) :
    Except Fault (Option Nat × List Zone × PageData) := do
  kassert (order < maxOrder) "order < MAX_ORDER"
  let (rv, zones, pages) ← allocFromZones order zones pages
  if rv = none ∧ allocFlags &&& gfpCanFail = 0 then .error (.panic "PMM out of memory at %u")
  else return (rv, zones, pages)

variable {head p k free : Nat} {rest : List Nat}

section Thread

variable {s s' : State} {region : Nat → Prop} {lists : Nat → List Nat} {held : List (Nat × Nat)}

theorem Threaded.frame (threaded : Threaded s region lists held)
    (heads : s'.zone.freeLists = s.zone.freeLists) (agree : ∀ k p, p ∈ lists k →
      s'.pageData p = s.pageData p) : Threaded s' region lists held where
  chain k small := by
    rw [heads]
    refine (threaded.chain k small).frame fun p member => ?_
    simp only [State.next, agree k p member]
  order k p member := by
    rw [agree k p member]
    exact threaded.order k p member
  tiles := threaded.tiles
  aligned := threaded.aligned
  bounded := threaded.bounded
  exclusive := threaded.exclusive
  once := threaded.once

def FreePage (s : State) (q : Nat) : Prop := ∃ p k, FreeBlock s p k ∧ Within pow2 p k q

theorem Threaded.freePage_iff (threaded : Threaded s region lists held) (q : Nat) :
    FreePage s q ↔ region q ∧ ∀ p k, (p, k) ∈ held → ¬ Within pow2 p k q := by
  simp only [FreePage, threaded.freeBlock_iff]
  constructor
  · rintro ⟨p, k, member, within⟩
    refine ⟨threaded.tiles.inside p k q (.inl member) within, fun p' k' member' within' => ?_⟩
    obtain ⟨rfl, rfl⟩ := threaded.tiles.apart p k p' k' q (.inl member) (.inr member') within within'
    exact threaded.exclusive p k member' member
  · rintro ⟨inside, free⟩
    obtain ⟨p, k, listed | member, within⟩ := threaded.tiles.cover q inside
    · exact ⟨p, k, listed, within⟩
    · exact absurd within (free p k member)

end Thread

/-! ## Several zones -/

structure Zone.WellFormed (zone : Zone) (pages : PageData) : Prop where
  ends : ∀ k, k < maxOrder → ∃ l, Chain (State.next ⟨zone, pages⟩) (zone.freeLists k) l
  order : ∀ p k, FreeBlock ⟨zone, pages⟩ p k → (pages p).order = k
  aligned : ∀ p k, FreeBlock ⟨zone, pages⟩ p k → 2 ^ k ∣ p
  apart : ∀ p k p' k' q, FreeBlock ⟨zone, pages⟩ p k → FreeBlock ⟨zone, pages⟩ p' k' →
    Within pow2 p k q → Within pow2 p' k' q → p = p' ∧ k = k'

structure WellFormed (zones : List Zone) (pages : PageData) : Prop where
  zone : ∀ zone ∈ zones, zone.WellFormed pages
  disjoint : zones.Pairwise fun z w => ∀ q, FreePage ⟨z, pages⟩ q → ¬ FreePage ⟨w, pages⟩ q

def Zone.Exhausted (zone : Zone) (order : Nat) : Prop :=
  ∀ j, order ≤ j → j < maxOrder → zone.freeLists j = none

/-- What an allocation takes from its zone: a block of order `free` goes, and one block of
every order from `order` up to `free` is left of it. -/
structure Taken (s s' : State) (page order free : Nat) : Prop where
  found : FreeBlock s page free
  larger : order ≤ free
  blocks : ∀ p k, FreeBlock s' p k ↔ (FreeBlock s p k ∧ ¬ (p = page ∧ k = free)) ∨
    (order ≤ k ∧ k < free ∧ p = page + 2 ^ k)
  pages : ∀ q, FreePage s' q ↔ FreePage s q ∧ ¬ Within pow2 page order q
  inside : ∀ q, Within pow2 page order q → FreePage s q

section Zones

variable {zone : Zone} {zones : List Zone} {pages pages' : PageData} {order : Nat}

theorem Zone.WellFormed.threaded (wf : zone.WellFormed pages) :
    ∃ lists, Threaded ⟨zone, pages⟩ (FreePage ⟨zone, pages⟩) lists [] := by
  have walks : ∀ k, ∃ l, (k < maxOrder → Chain (State.next ⟨zone, pages⟩) (zone.freeLists k) l) ∧
      (¬ k < maxOrder → l = []) := by
    intro k
    by_cases small : k < maxOrder
    · obtain ⟨l, chain⟩ := wf.ends k small
      exact ⟨l, fun _ => chain, fun large => absurd small large⟩
    · exact ⟨[], fun other => absurd other small, fun _ => rfl⟩
  choose lists chain beyond using walks
  have bounded : ∀ k p, p ∈ lists k → k < maxOrder := by
    intro k p member
    by_contra large
    simp [beyond k large] at member
  have free : ∀ p k, p ∈ lists k ↔ FreeBlock ⟨zone, pages⟩ p k := by
    intro p k
    constructor
    · intro member
      exact ⟨bounded k p member, lists k, chain k (bounded k p member), member⟩
    · rintro ⟨small, l, other, member⟩
      rwa [(chain k small).functional other]
  have blocks : ∀ p k, p ∈ lists k ∨ (p, k) ∈ [] ↔ FreeBlock ⟨zone, pages⟩ p k := by simpa using free
  refine ⟨lists, chain, fun k p member => wf.order p k ((free p k).mp member),
    Tiles.congr ⟨?_, ?_, ?_⟩ blocks,
    fun p k block => wf.aligned p k ((blocks p k).mp block), fun p k block =>
      ((blocks p k).mp block).1, by simp, by simp⟩
  · exact fun p k q block within => ⟨p, k, block, within⟩
  · exact fun q page => page
  · exact wf.apart

variable {lists : Nat → List Nat}

theorem Threaded.wellFormed {region : Nat → Prop} {held : List (Nat × Nat)}
    (threaded : Threaded ⟨zone, pages⟩ region lists held) : zone.WellFormed pages := by
  have free := threaded.freeBlock_iff
  refine ⟨fun k small => ⟨lists k, threaded.chain k small⟩, fun p k block => ?_,
    fun p k block => ?_, fun p k p' k' q first second => ?_⟩
  · exact threaded.order k p ((free p k).mp block)
  · exact threaded.aligned p k (.inl ((free p k).mp block))
  · exact threaded.tiles.apart p k p' k' q (.inl ((free p k).mp first)) (.inl ((free p' k').mp second))

theorem carve_mem (listed : lists free = head :: rest) (fresh : head ∉ rest)
    (empty : ∀ k, order ≤ k → k < free → lists k = []) (p k : Nat) :
    p ∈ carve lists order free head rest k ↔ (p ∈ lists k ∧ ¬ (p = head ∧ k = free)) ∨
      (order ≤ k ∧ k < free ∧ p = head + 2 ^ k) := by
  unfold carve
  split
  case isTrue same =>
    subst same
    rw [listed, List.mem_cons]
    grind
  case isFalse other =>
    split
    case isTrue between => simp [empty k between.1 between.2, between]
    case isFalse outside => grind

theorem Zone.WellFormed.alloc (wf : zone.WellFormed pages) (bound : order < maxOrder) :
    (zone.Exhausted order ∧ zoneAllocOrder ⟨zone, pages⟩ order = .ok (none, ⟨zone, pages⟩)) ∨
      ∃ page free s', ¬ zone.Exhausted order ∧ zoneAllocOrder ⟨zone, pages⟩ order = .ok (some page, s') ∧
        2 ^ order ∣ page ∧ Taken ⟨zone, pages⟩ s' page order free ∧ s'.zone.WellFormed s'.pageData ∧
        ∀ p, ¬ FreePage ⟨zone, pages⟩ p → s'.pageData p = pages p := by
  obtain ⟨lists, threaded⟩ := wf.threaded
  obtain ⟨refused, empty⟩ | ⟨free, page, rest, s', larger, listed, empty, ran, threaded', -, frame⟩ :=
    zoneAllocOrder_spec threaded bound
  · exact .inl ⟨fun j above small => (threaded.empty_iff small).mp (empty j above small), refused⟩
  · have here : page ∈ lists free := by simp [listed]
    have inside := threaded.tiles.inside page free
    have small := threaded.bounded page free (.inl here)
    have distinct := (threaded.chain free small).nodup
    rw [listed, List.nodup_cons] at distinct
    have lower : ∀ q, Within pow2 page order q → Within pow2 page free q := by
      rintro q ⟨above, below⟩
      have grows : pow2 order ≤ pow2 free := Nat.pow_le_pow_right (by decide) larger
      exact ⟨above, by omega⟩
    refine .inr ⟨page, free, s', fun exhausted => ?_, ran, ?_, ?_, threaded'.wellFormed,
      fun p outside => ?_⟩
    · have none := (threaded.empty_iff small).mpr (exhausted free larger small)
      simp [listed] at none
    · exact (Nat.pow_dvd_pow 2 larger).trans (threaded.aligned page free (.inl here))
    · refine ⟨(threaded.freeBlock_iff page free).mpr here, larger, fun p k => ?_, fun q => ?_,
        fun q within => ?_⟩
      · rw [threaded'.freeBlock_iff, threaded.freeBlock_iff, carve_mem listed distinct.1 empty]
      · simp [threaded'.freePage_iff]
      · exact inside q (.inl here) (lower q within)
    · exact frame p fun within => outside (inside p (.inl here) within)

theorem Zone.WellFormed.frame (wf : zone.WellFormed pages)
    (agree : ∀ q, FreePage ⟨zone, pages⟩ q → pages' q = pages q) :
    zone.WellFormed pages' ∧ (∀ p k, FreeBlock ⟨zone, pages'⟩ p k ↔ FreeBlock ⟨zone, pages⟩ p k) ∧
      ∀ q, FreePage ⟨zone, pages'⟩ q ↔ FreePage ⟨zone, pages⟩ q := by
  obtain ⟨lists, threaded⟩ := wf.threaded
  have threaded' : Threaded ⟨zone, pages'⟩ (FreePage ⟨zone, pages⟩) lists [] :=
    threaded.frame rfl fun k p member => agree p (threaded.start_inside (.inl member))
  refine ⟨threaded'.wellFormed, fun p k => ?_, fun q => by simp [threaded'.freePage_iff]⟩
  rw [threaded'.freeBlock_iff, threaded.freeBlock_iff]

theorem allocFromZones_spec (wf : ∀ zone ∈ zones, zone.WellFormed pages) (bound : order < maxOrder) :
    ((∀ zone ∈ zones, zone.Exhausted order) ∧ allocFromZones order zones pages = .ok (none, zones, pages)) ∨
      ∃ before zone after page free s', zones = before ++ zone :: after ∧
      (∀ z ∈ before, z.Exhausted order) ∧
        ¬ zone.Exhausted order ∧
        allocFromZones order zones pages = .ok (some page, before ++ s'.zone :: after, s'.pageData) ∧
        2 ^ order ∣ page ∧ Taken ⟨zone, pages⟩ s' page order free ∧ s'.zone.WellFormed s'.pageData ∧
        ∀ p, ¬ FreePage ⟨zone, pages⟩ p → s'.pageData p = pages p := by
  induction zones with
  | nil => exact .inl ⟨by simp, rfl⟩
  | cons zone rest ih =>
    obtain ⟨exhausted, refused⟩ | ⟨page, free, s', nonempty, ran, taken⟩ :=
      (wf zone List.mem_cons_self).alloc bound
    · obtain ⟨others, ran⟩ | ⟨before, z, after, page, free, s', rfl, others, nonempty, ran, taken⟩ :=
        ih fun z member => wf z (List.mem_cons_of_mem _ member)
      · refine .inl ⟨by simpa using ⟨exhausted, others⟩, ?_⟩
        simp [allocFromZones, refused, ran, pure, Except.pure]
      · refine .inr ⟨zone :: before, z, after, page, free, s',
          rfl, by simpa using ⟨exhausted, others⟩, nonempty, ?_, taken⟩
        simp [allocFromZones, refused, ran, pure, Except.pure]
    · refine .inr ⟨[], zone, rest, page, free, s', rfl, by simp, nonempty, ?_, taken⟩
      simp [allocFromZones, ran, pure, Except.pure]

theorem WellFormed.replace {before after : List Zone} {page : Nat} {s' : State}
    (wf : WellFormed (before ++ zone :: after) pages)
    (taken : Taken ⟨zone, pages⟩ s' page order free) (wf' : s'.zone.WellFormed s'.pageData)
    (frame : ∀ p, ¬ FreePage ⟨zone, pages⟩ p → s'.pageData p = pages p) :
    WellFormed (before ++ s'.zone :: after) s'.pageData ∧
      ∀ z ∈ before ++ after, ∀ p k, FreeBlock ⟨z, s'.pageData⟩ p k ↔ FreeBlock ⟨z, pages⟩ p k := by
  have disjoint := wf.disjoint
  rw [List.pairwise_append, List.pairwise_cons] at disjoint
  obtain ⟨inBefore, ⟨fromZone, inAfter⟩, across⟩ := disjoint
  have other : ∀ z ∈ before ++ after, ∀ q, FreePage ⟨z, pages⟩ q → ¬ FreePage ⟨zone, pages⟩ q := by
    intro z member q free free'
    obtain member | member := List.mem_append.mp member
    · exact across z member zone List.mem_cons_self q free free'
    · exact fromZone z member q free' free
  have kept : ∀ z ∈ before ++ after, z.WellFormed s'.pageData ∧
      (∀ p k, FreeBlock ⟨z, s'.pageData⟩ p k ↔ FreeBlock ⟨z, pages⟩ p k) ∧
      ∀ q, FreePage ⟨z, s'.pageData⟩ q ↔ FreePage ⟨z, pages⟩ q := by
    intro z member
    have here : z.WellFormed pages := by
      refine wf.zone z ?_
      obtain member | member := List.mem_append.mp member
      · exact List.mem_append_left _ member
      · exact List.mem_append_right _ (List.mem_cons_of_mem _ member)
    exact here.frame fun q free => frame q (other z member q free)
  have smaller : ∀ q, FreePage ⟨s'.zone, s'.pageData⟩ q → FreePage ⟨zone, pages⟩ q :=
    fun q free => ((taken.pages q).mp free).1
  refine ⟨⟨fun z member => ?_, ?_⟩, fun z member => (kept z member).2.1⟩
  · rw [List.mem_append, List.mem_cons] at member
    obtain member | rfl | member := member
    · exact (kept z (List.mem_append_left _ member)).1
    · exact wf'
    · exact (kept z (List.mem_append_right _ member)).1
  · rw [List.pairwise_append, List.pairwise_cons]
    have same : ∀ z ∈ before ++ after, ∀ q, FreePage ⟨z, s'.pageData⟩ q ↔ FreePage ⟨z, pages⟩ q :=
      fun z member => (kept z member).2.2
    have first : ∀ z ∈ before, ∀ q, FreePage ⟨z, s'.pageData⟩ q ↔ FreePage ⟨z, pages⟩ q :=
      fun z member => same z (List.mem_append_left _ member)
    have later : ∀ z ∈ after, ∀ q, FreePage ⟨z, s'.pageData⟩ q ↔ FreePage ⟨z, pages⟩ q :=
      fun z member => same z (List.mem_append_right _ member)
    refine ⟨inBefore.imp_of_mem fun {z w} hz hw apart q => ?_, ⟨fun w hw q free => ?_, ?_⟩,
      fun z hz w hw q => ?_⟩
    · rw [first z hz, first w hw]
      exact apart q
    · rw [later w hw]
      exact fromZone w hw q (smaller q free)
    · refine inAfter.imp_of_mem fun {z w} hz hw apart q => ?_
      rw [later z hz, later w hw]
      exact apart q
    · rw [first z hz]
      obtain rfl | hw := List.mem_cons.mp hw
      · exact fun free free' => across z hz zone List.mem_cons_self q free (smaller q free')
      · rw [later w hw]
        exact across z hz w (List.mem_cons_of_mem _ hw) q

theorem pmmAllocOrder_can_fail {result : Option Nat × List Zone × PageData}
    (bound : order < maxOrder) (ran : allocFromZones order zones pages = .ok result) :
    pmmAllocOrder zones pages order gfpCanFail = .ok result := by
  obtain ⟨rv, zones', pages'⟩ := result
  have flag : ¬ (rv = none ∧ gfpCanFail &&& gfpCanFail = 0) := by
    rintro ⟨-, zero⟩
    exact absurd zero (by decide)
  rw [pmmAllocOrder, kassert, if_pos bound, ok_bind, ran, ok_bind]
  exact if_neg flag

/-- A request that may fail returns the null pointer exactly if no zone has a block that is
large enough, and then nothing changes. Otherwise it takes an aligned block of the order
asked for from the first zone that has one, and from no other. -/
theorem pmm_alloc_order_exact (wf : WellFormed zones pages) (bound : order < maxOrder) :
    ∃ rv zones' pages', pmmAllocOrder zones pages order gfpCanFail = .ok (rv, zones', pages') ∧
      (rv = none ↔ ∀ zone ∈ zones, zone.Exhausted order) ∧ (rv = none → zones' = zones ∧ pages' = pages) ∧
      WellFormed zones' pages' ∧
      ∀ page, rv = some page → 2 ^ order ∣ page ∧ ∃ before zone after zone' free,
        zones = before ++ zone :: after ∧ zones' = before ++ zone' :: after ∧
        (∀ z ∈ before, z.Exhausted order) ∧ Taken ⟨zone, pages⟩ ⟨zone', pages'⟩ page order free ∧
        ∀ z ∈ before ++ after, ∀ p k, FreeBlock ⟨z, pages'⟩ p k ↔ FreeBlock ⟨z, pages⟩ p k := by
  obtain ⟨exhausted, ran⟩ | ⟨before, zone, after, page, free, s', rfl, others, nonempty, ran,
      aligned, taken, wf', frame⟩ :=
    allocFromZones_spec wf.zone bound
  · exact ⟨none, zones, pages, pmmAllocOrder_can_fail bound ran, by simpa using exhausted,
      fun _ => ⟨rfl, rfl⟩, wf, by simp⟩
  · obtain ⟨wellFormed, same⟩ := wf.replace taken wf' frame
    refine ⟨some page, before ++ s'.zone :: after, s'.pageData, pmmAllocOrder_can_fail bound ran,
      ?_, by simp, wellFormed, ?_⟩
    · refine iff_of_false (by simp) fun all => nonempty (all zone ?_)
      exact List.mem_append_right _ List.mem_cons_self
    · rintro page' equal
      cases equal
      exact ⟨aligned, before, zone, after, s'.zone, free, rfl, rfl, others, taken, same⟩

end Zones

def pairZone : Zone := ⟨0x2000, 0x2000, update (fun _ => none) 1 (some 2)⟩

def pairPages : PageData := setOrder (fun _ => zeroPage) 2 1

theorem emptyZone_threaded (base : Nat) (pages : PageData) :
    Threaded ⟨⟨base, base, fun _ => none⟩, pages⟩ (fun _ => False) (fun _ => []) [] :=
  (layout_empty rfl fun _ => id).toThreaded

theorem pairZone_threaded : Threaded ⟨pairZone, pairPages⟩ (fun q => False ∨ Within pow2 2 1 q)
    (update (fun _ => []) 1 [2]) [] := by
  have pushed : Pushed ⟨⟨0x2000, 0x2000, fun _ => none⟩, fun _ => zeroPage⟩ ⟨pairZone, pairPages⟩ 2 1 := by
    refine ⟨rfl, fun p => ?_, fun p => ?_, fun p => ?_⟩ <;> by_cases same : p = 2 <;>
      simp [State.next, State.prev, pairPages, setOrder, zeroPage, same]
  exact ((emptyZone_threaded 0x2000 _).extend (show 2 ^ 1 ∣ 2 by decide) (by decide)
    fun _ _ => id).push pushed

/-- The first zone is exhausted, so a page is split off the block of the second. -/
theorem pmm_alloc_order_exact_pair : ∃ zones' pages',
    pmmAllocOrder [⟨0x1000, 0x1000, fun _ => none⟩, pairZone] pairPages 0 gfpCanFail =
      .ok (some 2, zones', pages') ∧ WellFormed zones' pages' := by
  have wf : WellFormed [⟨0x1000, 0x1000, fun _ => none⟩, pairZone] pairPages := by
    constructor
    · intro zone member
      simp only [List.mem_cons, List.not_mem_nil, or_false] at member
      obtain rfl | rfl := member
      · exact (emptyZone_threaded 0x1000 pairPages).wellFormed
      · exact pairZone_threaded.wellFormed
    · simp [(emptyZone_threaded 0x1000 pairPages).freePage_iff]
  obtain ⟨rv, zones', pages', ran, -, -, wf', -⟩ := pmm_alloc_order_exact wf (show 0 < maxOrder by decide)
  have value :
      ((pmmAllocOrder [⟨0x1000, 0x1000, fun _ => none⟩, pairZone] pairPages 0 gfpCanFail).toOption.map
      Prod.fst) = some (some 2) := by decide +kernel
  simp only [ran, Except.toOption, Option.map_some, Option.some.injEq] at value
  subst value
  exact ⟨zones', pages', ran, wf'⟩

end ByteOS.Mm.Pmm
