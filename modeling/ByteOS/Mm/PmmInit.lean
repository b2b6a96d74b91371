import ByteOS.Mm.PmmZones

/-! Where `init_zone` puts a zone in its region, and which struct pages `pmm_init` clears.

`calc_available_pages` takes the padding off the length of the region and forgets the
header before it, and `reserve_page_data` starts at the first page boundary of the
region, while the zone starts at the first one after the header.
-/

set_option autoImplicit false

namespace ByteOS.Mm.Pmm

open ByteOS.Lib

section Extent

variable {rg : MmapRegion} {pages : PageData} {s : State}

def MmapRegion.start (rg : MmapRegion) : Nat :=
  (rg.base + sizeofZone + (pageSize - 1)) / pageSize * pageSize

def MmapRegion.padding (rg : MmapRegion) : Nat := rg.start - (rg.base + sizeofZone)

def MmapRegion.wholePages (rg : MmapRegion) : Nat := (rg.base + rg.len - rg.start) / pageSize

theorem MmapRegion.start_eq (rg : MmapRegion) :
    rg.start = rg.base + sizeofZone + rg.padding ∧ rg.padding < pageSize ∧ pageSize ∣ rg.start := by
  simp only [padding, start, pageSize]
  omega

theorem calcAvailablePages_eq (fits : rg.base + rg.len ≤ wordMod) :
    calcAvailablePages rg = if rg.padding ≤ rg.len then .ok ((rg.len - rg.padding) / pageSize)
      else .error (.kassert "effective_len <= available->len") := by
  have shape := rg.start_eq
  have pad : (alignUp ((rg.base + sizeofZone) % wordMod) + wordMod - (rg.base + sizeofZone) %
      wordMod) % wordMod = rg.padding := by
    simp only [alignUp, sizeofZone, maxOrder, pageSize, wordMod] at *
    omega
  have small : rg.padding < wordMod := shape.2.1.trans (by decide)
  -- without padding the header ends at a page boundary, so the region does not start at 0
  have short : rg.len < wordMod + rg.padding := by
    simp only [sizeofZone, maxOrder, pageSize, wordMod] at *
    omega
  simp only [calcAvailablePages, pad, kassert]
  split
  case isTrue checked =>
    have enough : rg.padding ≤ rg.len := by
      simp only [wordMod] at checked small short
      omega
    have same : (rg.len + wordMod - rg.padding) % wordMod = rg.len - rg.padding := by
      simp only [wordMod] at small short ⊢
      omega
    rw [if_pos enough, same]
    rfl
  case isFalse unchecked =>
    have missing : ¬ rg.padding ≤ rg.len := by
      simp only [wordMod] at unchecked small short
      omega
    rw [if_neg missing]
    rfl

/-- The padding fits, and the bytes after the last whole page do not make up another page
together with the header. -/
def MmapRegion.Exact (rg : MmapRegion) : Prop :=
  rg.padding ≤ rg.len ∧ ((rg.base + rg.len) % pageSize + sizeofZone < pageSize ∨
    rg.base + rg.len < rg.start)

theorem calcAvailablePages_exact_iff (fits : rg.base + rg.len ≤ wordMod) :
    calcAvailablePages rg = .ok rg.wholePages ↔ rg.Exact := by
  have shape := rg.start_eq
  rw [calcAvailablePages_eq fits, MmapRegion.Exact]
  split
  case isTrue enough =>
    simp only [Except.ok.injEq, MmapRegion.wholePages, enough, true_and, sizeofZone, maxOrder,
      pageSize] at *
    omega
  case isFalse short => simp [short]

structure MmapRegion.Holds (rg : MmapRegion) (zone : Zone) : Prop where
  header : rg.base + sizeofZone ≤ rg.base + rg.len
  disjoint : rg.base + sizeofZone ≤ zone.paStart
  pages : zone.paStart + zone.len ≤ rg.base + rg.len

/-- The page count is right, and with it every zone lies inside its region, exactly if the
padding fits into the region and the remainder at its end is small enough. -/
theorem zone_inside_region_iff (fits : rg.base + rg.len ≤ wordMod) :
    (calcAvailablePages rg = .ok rg.wholePages ∧
      ∀ pages s, initZone rg pages = .ok (some s) → rg.Holds s.zone) ↔ rg.Exact := by
  rw [calcAvailablePages_exact_iff fits, and_iff_left_iff_imp]
  intro exact pages s built
  obtain ⟨avail, inserted, counted, nonzero, run⟩ := initZone_populates built
  obtain ⟨start, len⟩ := populate_zone run
  dsimp only at start len
  rw [(calcAvailablePages_exact_iff fits).mpr exact] at counted
  cases counted
  have shape := rg.start_eq
  have room : 0 < rg.wholePages := Nat.pos_of_ne_zero nonzero
  have whole : rg.start + rg.wholePages * pageSize ≤ rg.base + rg.len := by
    simp only [MmapRegion.wholePages, pageSize] at *
    omega
  have placed : alignUp ((rg.base + sizeofZone) % wordMod) = rg.start := by
    simp only [alignUp, sizeofZone, maxOrder, pageSize, wordMod] at *
    omega
  have length : rg.wholePages * pageSize % wordMod = rg.wholePages * pageSize := by
    simp only [sizeofZone, maxOrder, pageSize, wordMod] at *
    omega
  constructor
  · omega
  · omega
  · rwa [start, len, placed, length]

theorem zone_inside_region_iff_aligned : calcAvailablePages ⟨0x100000, 0x3000⟩ = .ok 2 ∧
    ∀ pages s, initZone ⟨0x100000, 0x3000⟩ pages = .ok (some s) →
      MmapRegion.Holds ⟨0x100000, 0x3000⟩ s.zone :=
  (zone_inside_region_iff (by decide)).mpr ⟨by decide, .inl (by decide)⟩

/-- A page-aligned region that ends 8 bytes before a page boundary: its zone reaches those
8 bytes beyond it. -/
theorem zone_leaves_region : ∃ s, initZone ⟨0x100000, 0x1FF8⟩ (fun _ => zeroPage) = .ok (some s) ∧
    s.zone.paStart = 0x101000 ∧ s.zone.len = 0x1000 ∧ ¬ MmapRegion.Holds ⟨0x100000, 0x1FF8⟩ s.zone := by
  have evaluated : ((initZone ⟨0x100000, 0x1FF8⟩ fun _ => zeroPage).toOption.join.map fun s =>
      (s.zone.paStart, s.zone.len)) = some (0x101000, 0x1000) := by decide +kernel
  obtain ⟨s, built, extent⟩ := Option.map_eq_some_iff.mp evaluated
  obtain ⟨start, len⟩ := Prod.mk.inj extent
  refine ⟨s, toOption_eq_some.mp (Option.join_eq_some_iff.mp built), start, len, fun holds => ?_⟩
  have inside := holds.pages
  rw [start, len] at inside
  exact absurd inside (by decide)

end Extent

/-! ## The struct pages -/

def sizeofPage : Nat := 40

def kernelPageData : Nat := 0xFFFFFFFF81000000

def arrayPage (pfn offset : Nat) : Nat := (kernelPageData + pfn * sizeofPage + offset) % wordMod / pageSize

/-- The `page_data` array during `pmm_init`: the virtual pages of it that `kernel_mmu` maps,
its contents, and the entries that were cleared. `supply` lists the pages that
`mmap_alloc_low` returns; the tables that `vmm_map_page` allocates from the same memory
are left to the model of `vmm.c`. -/
structure PageArray where
  mapped : Nat → Option Nat
  pageData : PageData
  cleared : Nat → Bool
  supply : List Nat

/-- One pass of the loop of `reserve_page_data_range`. It looks at the page of the first byte
of the entry only. -/
def mapStructPage (a : PageArray) (pfn : Nat) : Except Fault PageArray :=
  if (a.mapped (arrayPage pfn 0)).isSome then .ok a
  else
    match a.supply with
    | [] => .error (.panic "Cannot satisfy mmap allocation of size %zu")
    | page :: rest =>
      .ok { a with mapped := Function.update a.mapped (arrayPage pfn 0) (some page), supply := rest }

/-- The entry of a frame can be written: the pages of its first and its last byte are mapped. -/
def PageArray.Writable (a : PageArray) (pfn : Nat) : Prop :=
  (a.mapped (arrayPage pfn 0)).isSome ∧ (a.mapped (arrayPage pfn (sizeofPage - 1))).isSome

instance (a : PageArray) (pfn : Nat) : Decidable (a.Writable pfn) := inferInstanceAs (Decidable (_ ∧ _))

/-- `memset` over the entries of a range of frames. -/
def clearRange (a : PageArray) (pfnStart numPages : Nat) : Except Fault PageArray :=
  if ∀ pfn ∈ List.range' pfnStart numPages, a.Writable pfn then
    .ok { a with
      pageData := fun p => if pfnStart ≤ p ∧ p < pfnStart + numPages then zeroPage else a.pageData p
      cleared := fun p => decide (pfnStart ≤ p ∧ p < pfnStart + numPages) || a.cleared p }
  else .error (.panic "Page fault:")

def reservePageDataRange (a : PageArray) (start numPages : Nat) : Except Fault PageArray := do
  let pfnStart := start / pageSize
  let a ← (List.range' pfnStart numPages).foldlM mapStructPage a
  clearRange a pfnStart numPages

def reservePageData (regions : List MmapRegion) (a : PageArray) : Except Fault PageArray :=
  regions.foldlM (fun a rg => do
    let numPages ← calcAvailablePages rg
    reservePageDataRange a (alignUp rg.base) numPages) a

/-- The loop of `pmm_init` over the regions; the zones come in the order of `zone_list`. -/
def initZones : List MmapRegion → PageData → Except Fault (List Zone × PageData)
  | [], pages => .ok ([], pages)
  | rg :: rest, pages => do
      match ← initZone rg pages with
      | none => initZones rest pages
      | some s =>
        let (zones, pages) ← initZones rest s.pageData
        return (s.zone :: zones, pages)

def pmmInit (regions : List MmapRegion) (a : PageArray) : Except Fault (List Zone × PageArray) := do
  let a ← reservePageData regions a
  let (zones, pages) ← initZones regions a.pageData
  return (zones, { a with pageData := pages })

section Reserve

variable {regions : List MmapRegion} {rg : MmapRegion} {a a' : PageArray} {pages pages' : PageData}

structure Reserves (a a' : PageArray) (frames : Nat → Prop) : Prop where
  cleared : ∀ p, a'.cleared p = true ↔ frames p ∨ a.cleared p = true
  writable : ∀ p, frames p ∨ a.Writable p → a'.Writable p

theorem mapStructPage_spec {pfn : Nat} (ran : mapStructPage a pfn = .ok a') :
    a'.cleared = a.cleared ∧ ∀ p, a.Writable p → a'.Writable p := by
  rw [mapStructPage] at ran
  split at ran
  · cases ran
    exact ⟨rfl, fun _ => id⟩
  · cases supply : a.supply with
    | nil => simp [supply] at ran
    | cons page rest =>
      simp only [supply] at ran
      cases ran
      have grows : ∀ q, (a.mapped q).isSome →
          (Function.update a.mapped (arrayPage pfn 0) (some page) q).isSome := by
        intro q present
        by_cases here : q = arrayPage pfn 0 <;> simp [here, present]
      exact ⟨rfl, fun p writable => ⟨grows _ writable.1, grows _ writable.2⟩⟩

theorem reservePageDataRange_spec {start numPages : Nat}
    (ran : reservePageDataRange a start numPages = .ok a') :
    Reserves a a' (Frames (start / pageSize) numPages) := by
  rw [reservePageDataRange, bind_eq_ok] at ran
  obtain ⟨b, mapped, ran⟩ := ran
  have loop : b.cleared = a.cleared ∧ ∀ p, a.Writable p → b.Writable p := by
    refine loop_invariant (fun _ cur => cur.cleared = a.cleared ∧ ∀ p, a.Writable p → cur.Writable p)
      ⟨rfl, fun _ => id⟩ (fun _ pfn _ cur next _ before step => ?_) mapped
    obtain ⟨same, grows⟩ := mapStructPage_spec step
    exact ⟨same.trans before.1, fun p writable => grows p (before.2 p writable)⟩
  rw [clearRange] at ran
  split at ran
  case isTrue writable =>
    cases ran
    constructor
    · intro p
      simp [loop.1, Frames]
    · rintro p (inside | before)
      · refine writable p ?_
        rwa [List.mem_range'_1]
      · exact loop.2 p before
  case isFalse => simp at ran

/-- The frames whose struct pages are reserved for a region. -/
def MmapRegion.Reserved (rg : MmapRegion) (p : Nat) : Prop :=
  ∃ numPages, calcAvailablePages rg = .ok numPages ∧ Frames (alignUp rg.base / pageSize) numPages p

theorem reservePageData_spec (ran : reservePageData regions a = .ok a') :
    Reserves a a' fun p => ∃ rg ∈ regions, rg.Reserved p := by
  refine loop_invariant (fun done cur => Reserves a cur fun p => ∃ rg ∈ done, rg.Reserved p)
    ⟨by simp, by simp⟩ (fun done rg rest cur next _ before step => ?_) ran
  rw [bind_eq_ok] at step
  obtain ⟨numPages, counted, step⟩ := step
  have here := reservePageDataRange_spec step
  have same : ∀ p, rg.Reserved p ↔ Frames (alignUp rg.base / pageSize) numPages p := by
    intro p
    simp [MmapRegion.Reserved, counted]
  have split : ∀ p, (∃ rg' ∈ done ++ [rg], rg'.Reserved p) ↔
      Frames (alignUp rg.base / pageSize) numPages p ∨ ∃ rg' ∈ done, rg'.Reserved p := by
    intro p
    simp only [List.mem_append, List.mem_singleton, or_and_right, exists_or, exists_eq_left, same]
    exact or_comm
  constructor
  · intro p
    rw [here.cleared, before.cleared, split, or_assoc]
  · intro p found
    rw [split, or_assoc] at found
    exact here.writable p (found.imp_right (before.writable p))

/-- The region gives a zone of `numPages` pages. -/
structure MmapRegion.Makes (rg : MmapRegion) (zone : Zone) (numPages : Nat) : Prop where
  counted : calcAvailablePages rg = .ok numPages
  nonzero : numPages ≠ 0
  start : zone.paStart = alignUp ((rg.base + sizeofZone) % wordMod)
  len : zone.len = numPages * pageSize % wordMod

theorem initZone_none (built : initZone rg pages = .ok none) : calcAvailablePages rg = .ok 0 := by
  simp only [initZone, bind_eq_ok] at built
  obtain ⟨avail, counted, built⟩ := built
  by_cases nothing : avail = 0
  · rw [counted, nothing]
  · rw [if_neg nothing] at built
    simp only [bind_eq_ok] at built
    obtain ⟨_, _, _, _, built⟩ := built
    simp [pure, Except.pure] at built

/-- Every zone comes from a region, and every region with a page to spare gives one. -/
theorem initZones_spec {zones : List Zone} (ran : initZones regions pages = .ok (zones, pages')) :
    (∀ zone ∈ zones, ∃ rg ∈ regions, ∃ n, rg.Makes zone n) ∧
      ∀ rg ∈ regions, ∀ n, calcAvailablePages rg = .ok n → n ≠ 0 → ∃ zone ∈ zones, rg.Makes zone n := by
  induction regions generalizing pages pages' zones with
  | nil =>
    simp only [initZones, Except.ok.injEq, Prod.mk.injEq] at ran
    simp [← ran.1]
  | cons rg rest ih =>
    rw [initZones, bind_eq_ok] at ran
    obtain ⟨result, built, ran⟩ := ran
    cases result with
    | none =>
      obtain ⟨sources, made⟩ := ih ran
      refine ⟨fun zone member => ?_, ?_⟩
      · obtain ⟨source, found, makes⟩ := sources zone member
        exact ⟨source, List.mem_cons_of_mem _ found, makes⟩
      · rw [List.forall_mem_cons]
        refine ⟨fun n counted nonzero => ?_, made⟩
        rw [initZone_none built] at counted
        exact absurd (Except.ok.inj counted).symm nonzero
    | some s =>
      simp only [bind_eq_ok, pure, Except.pure, Except.ok.injEq, Prod.mk.injEq] at ran
      obtain ⟨⟨others, last⟩, ran, rfl, -⟩ := ran
      obtain ⟨sources, made⟩ := ih ran
      obtain ⟨avail, inserted, counted, nonzero, run⟩ := initZone_populates built
      obtain ⟨start, len⟩ := populate_zone run
      refine ⟨?_, ?_⟩
      · rw [List.forall_mem_cons]
        refine ⟨⟨rg, List.mem_cons_self, avail, counted, nonzero, start, len⟩, fun zone member => ?_⟩
        obtain ⟨source, found, makes⟩ := sources zone member
        exact ⟨source, List.mem_cons_of_mem _ found, makes⟩
      · rw [List.forall_mem_cons]
        refine ⟨fun n counted' nonzero' => ⟨s.zone, List.mem_cons_self, counted', nonzero', start,
          ?_⟩, fun source found n counted' nonzero' => ?_⟩
        · rw [counted] at counted'
          rw [len, Except.ok.inj counted']
        · obtain ⟨zone, member, makes⟩ := made source found n counted' nonzero'
          exact ⟨zone, List.mem_cons_of_mem _ member, makes⟩

theorem MmapRegion.Makes.frames {zone : Zone} {n : Nat} (makes : rg.Makes zone n)
    (fits : rg.base + rg.len ≤ wordMod) : ∃ first, (∀ p, zone.Pages p ↔ Frames first n p) ∧
      (alignUp rg.base = alignUp (rg.base + sizeofZone) ∧ first = alignUp rg.base / pageSize ∨
        alignUp rg.base ≠ alignUp (rg.base + sizeofZone) ∧ first = alignUp rg.base / pageSize + 1) := by
  obtain ⟨first, aligned, nonzero, room⟩ := calcAvailablePages_spec fits makes.counted makes.nonzero
  have positive := Nat.pos_of_ne_zero makes.nonzero
  refine ⟨first, fun p => ?_, ?_⟩
  · simp only [Zone.Pages, Frames, makes.start, makes.len, aligned]
    simp only [pageSize, wordMod] at *
    omega
  · have counted := makes.counted
    rw [calcAvailablePages_eq fits] at counted
    split at counted
    · have shape := rg.start_eq
      have count := Except.ok.inj counted
      simp only [alignUp, sizeofZone, maxOrder, pageSize, wordMod] at *
      omega
    · simp at counted

def Initialised (zones : List Zone) (a : PageArray) : Prop :=
  ∀ zone ∈ zones, ∀ p, zone.Pages p → a.Writable p ∧ a.cleared p = true

/-- Every zone page has a mapped and cleared struct page exactly if, for every region with
pages, the header does not push the zone one page up, or the frame that is then missed is
reserved for another region. -/
theorem zone_pages_initialised_iff {zones : List Zone}
    (fits : ∀ rg ∈ regions, rg.base + rg.len ≤ wordMod) (fresh : ∀ p, a.cleared p = false)
    (ran : pmmInit regions a = .ok (zones, a')) :
    Initialised zones a' ↔ ∀ rg ∈ regions, ∀ n, calcAvailablePages rg = .ok n → n ≠ 0 →
      alignUp rg.base = alignUp (rg.base + sizeofZone) ∨
        ∃ rg' ∈ regions, rg'.Reserved (alignUp rg.base / pageSize + n) := by
  simp only [pmmInit, bind_eq_ok, pure, Except.pure, Except.ok.injEq, Prod.mk.injEq] at ran
  obtain ⟨b, reserved, ⟨zones', pages'⟩, inited, rfl, rfl⟩ := ran
  have reserves := reservePageData_spec reserved
  obtain ⟨sources, made⟩ := initZones_spec inited
  have cleared : ∀ p, b.cleared p = true ↔ ∃ rg ∈ regions, rg.Reserved p := by
    intro p
    simp [reserves.cleared, fresh]
  have initialised : Initialised zones' { b with pageData := pages' } ↔
      ∀ zone ∈ zones', ∀ p, zone.Pages p → ∃ rg ∈ regions, rg.Reserved p := by
    refine forall₂_congr fun zone _ => forall₂_congr fun p _ => ?_
    constructor
    · exact fun both => (cleared p).mp both.2
    · exact fun found => ⟨reserves.writable p (.inl found), (cleared p).mpr found⟩
  rw [initialised]
  constructor
  · intro all rg member n counted nonzero
    obtain ⟨zone, inside, makes⟩ := made rg member n counted nonzero
    obtain ⟨first, extent, ⟨same, -⟩ | ⟨-, rfl⟩⟩ := makes.frames (fits rg member)
    · exact .inl same
    · -- the last frame of the zone is the one after those reserved for its region
      exact .inr (all zone inside _ ((extent _).mpr ⟨by omega, by omega⟩))
  · intro each zone inside p here
    obtain ⟨rg, member, n, makes⟩ := sources zone inside
    obtain ⟨first, extent, place⟩ := makes.frames (fits rg member)
    have frame := (extent p).mp here
    have own : Frames (alignUp rg.base / pageSize) n p → ∃ rg ∈ regions, rg.Reserved p :=
      fun found => ⟨rg, member, n, makes.counted, found⟩
    obtain ⟨-, rfl⟩ | ⟨moved, rfl⟩ := place
    · exact own frame
    · obtain ⟨low, high⟩ := frame
      by_cases last : p = alignUp rg.base / pageSize + n
      · rw [last]
        exact (each rg member n makes.counted makes.nonzero).resolve_left moved
      · exact own ⟨by omega, by omega⟩

def bootArray : PageArray := ⟨fun _ => none, fun _ => zeroPage, fun _ => false, [0x400]⟩

/-- The header of this region fits between its start and the first page boundary. -/
theorem zone_pages_initialised_iff_offset :
    ∃ zones a', pmmInit [⟨0x100100, 0x3000⟩] bootArray = .ok (zones, a') ∧
      zones.length = 1 ∧ Initialised zones a' := by
  have evaluated : ((pmmInit [⟨0x100100, 0x3000⟩] bootArray).toOption.map fun r => r.1.length) =
      some 1 := by
    decide +kernel
  obtain ⟨⟨zones, a'⟩, ran, one⟩ := toOption_map_eq_some.mp evaluated
  refine ⟨zones, a', ran, one, (zone_pages_initialised_iff (by decide) (fun _ => rfl) ran).mpr ?_⟩
  intro rg member n _ _
  obtain rfl := List.mem_singleton.mp member
  exact .inl (by decide)

/-- A page-aligned region of three pages: the zone gets the second and third of them, the
struct pages of the first two are cleared. -/
theorem last_zone_page_uncleared : ∃ zones a', pmmInit [⟨0x100000, 0x3000⟩] bootArray = .ok (zones, a') ∧
      (∃ zone ∈ zones, zone.Pages 0x102) ∧ a'.cleared 0x102 = false := by
  have evaluated : ((pmmInit [⟨0x100000, 0x3000⟩] bootArray).toOption.map fun r =>
      (r.1.map fun zone => (zone.paStart, zone.len), r.2.cleared 0x102)) =
        some ([(0x101000, 0x2000)], false) := by
    decide +kernel
  obtain ⟨⟨zones, a'⟩, ran, values⟩ := toOption_map_eq_some.mp evaluated
  obtain ⟨extents, uncleared⟩ := Prod.mk.inj values
  refine ⟨zones, a', ran, ?_, uncleared⟩
  obtain ⟨zone, rfl, extent⟩ := List.map_eq_singleton_iff.mp extents
  obtain ⟨start, len⟩ := Prod.mk.inj extent
  refine ⟨zone, List.mem_singleton_self zone, ?_⟩
  rw [Zone.Pages, start, len]
  decide

end Reserve

end ByteOS.Mm.Pmm
