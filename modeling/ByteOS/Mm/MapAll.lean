import Mathlib.Data.Finset.Card
import ByteOS.Mm.MmapInit
import ByteOS.Mm.VmmMap

/-! How `vmm_map_all` maps the available memory while its page tables are taken from it.

The loop goes by index over the region list from which `mmap_alloc_low` deletes and
into which it inserts. A state has the page tables and the boot memory map; `p4` and
`zeroPage` are the addresses of the kernel's top-level table and of `zero_page`.
-/

set_option autoImplicit false

namespace ByteOS.Mm.MapAll

open Lib Mmap
open List (length_append length_cons mem_cons prefix_refl map_cons mem_inits range' append_nil
  nil_append cons_append mem_append not_mem_nil)
open Region (span)

structure Boot where
  vm : State
  map : MemMap

def physToVirt (p : Nat) : BitVec 64 := if p = 0 then 0#64 else BitVec.ofNat 64 p + kernelLogicalBase

/-- How many tables `vmm_map_page` does not find on the way to an address. A new table is
empty, so everything below a missing one is missing too. -/
def missingTables (mem : PhysMem) (p4 : PhysAddr) (va : BitVec 64) : Nat :=
  match pgtabExtract mem p4 (p4Index va) with
  | none => 3
  | some p3 =>
    match pgtabExtract mem p3 (p3Index va) with
    | none => 2
    | some p2 =>
      match pgtabExtract mem p2 (p2Index va) with
      | none => 1
      | some _ => 0

/-- As many calls `mmap_alloc_low(PAGE_SIZE, MMAP_ALLOC_PA)`, and the pages they return. -/
def allocTables : Nat → MemMap → Except Fault (List PhysAddr × MemMap)
  | 0, m => .ok ([], m)
  | n + 1, m => do
    let (m, rg) ← Mmap.mmapAllocLow m pageSize mmapAllocPa
    let (tables, m) ← allocTables n m
    return (BitVec.ofNat 64 rg.base :: tables, m)

def mapFlags : BitVec 64 := vmmAllocMmap ||| pageGlobal ||| pageWritable

/-- The body of the inner loop. `vmm_map_page` gets the tables it will ask for. -/
def mapPage (p4 : PhysAddr) (k : Boot) (j : Nat) : Except Fault Boot := do
  let (tables, map) ← allocTables (missingTables k.vm.mem p4 (physToVirt j)) k.map
  let vm ← vmmMapPage 1 { k.vm with supply := tables } p4 (BitVec.ofNat 64 j) (physToVirt j) mapFlags
  return ⟨vm, { map with highestMapped := max j map.highestMapped }⟩

/-- The values of `j` in the inner loop. It does not end if `j` wraps around before it
exceeds the last one. -/
def regionPages (rg : Mmap.Region) : Except Fault (List Nat) :=
  let start := alignUp rg.base
  let last := wordSub ((rg.base + rg.len) % wordMod) pageSize
  if wordMod ≤ last + pageSize then .error .unfinished
  else .ok (range' start ((last + pageSize - start) / pageSize) pageSize)

theorem lt_next_page (x : Nat) : x < x + pageSize := Nat.lt_add_of_pos_right (by decide)

theorem toNat_page {page : Nat} (low : page < 2 ^ 47) : (BitVec.ofNat 64 page).toNat = page := by
  rw [BitVec.toNat_ofNat]
  exact Nat.mod_eq_of_lt (by omega)

structure Sound (m : MemMap) : Prop where
  sorted : m.available.Sorted
  small : m.available.count ≤ maxRegions
  aligned : pageSize ∣ m.highestMapped
  bound : m.highestMapped < wordMod
  range : ∀ x, Covered m.available.spans x → pageSize ≤ x ∧ x < 2 ^ 47

theorem Sound.region_range {m : MemMap} {rg : Mmap.Region} (sound : Sound m)
    (member : rg ∈ m.available.live) : pageSize ≤ rg.base ∧ rg.base + rg.len ≤ 2 ^ 47 := by
  have positive := sound.sorted.positive member
  have first := sound.range rg.base (covers_of_mem member (le_refl _) (by omega))
  have last := sound.range (rg.base + rg.len - 1) (covers_of_mem member (by omega) (by omega))
  exact ⟨first.1, by omega⟩

/-- The next table is a whole page of the region that serves it. As long as the regions `pend`
are ahead of the loop, it comes from below them, and something of the region is left. -/
def Served (pend : List (Span Nat)) (m : MemMap) : Prop :=
  ∀ rg, serving m pageSize mmapAllocPa = some rg →
    alignUp rg.base + pageSize ≤ rg.base + rg.len ∧
    (pend ≠ [] → (∀ s ∈ pend, rg.base < s.lo) ∧
      (rg.base < alignUp rg.base ∨ pageSize < availableBytes m rg mmapAllocPa))

/-- What an allocation of a page does to the memory map, where the regions `pend` stay in their
order at the end of the list and do not move forward. -/
structure Allocated (pend : List (Span Nat)) (m m' : MemMap) (page : Nat) : Prop where
  sound : Sound m'
  aligned : pageSize ∣ page
  inside : ∀ x, page ≤ x → x < page + pageSize → Covered m.available.spans x
  fewer : ∀ x, Covered m'.available.spans x →
    Covered m.available.spans x ∧ ¬ (page ≤ x ∧ x < page + pageSize)
  keeps : ∀ pre, m.available.spans = pre ++ pend →
    ∃ pre', m'.available.spans = pre' ++ pend ∧ (pend = [] ∨ pre.length ≤ pre'.length)

variable {n slots : Nat} {tables : List PhysAddr} {todo : Nat → Prop}

section Supply

variable {m m' : MemMap} {limit a b c : Nat} {pend : List (Span Nat)} {r rg : Mmap.Region}

theorem effectiveBase_page (rg : Mmap.Region) : effectiveBase rg mmapAllocPa = alignUp rg.base :=
  if_pos (by decide)

theorem availableBytes_page (sound : Sound m) (member : rg ∈ m.available.live)
    (below : rg.base < m.highestMapped) (reaches : alignUp rg.base ≤ rg.base + rg.len) :
    availableBytes m rg mmapAllocPa =
      min (m.highestMapped - alignUp rg.base) (rg.base + rg.len - alignUp rg.base) := by
  have bytes := availableBytes_eq sound.aligned sound.bound below
    (show ReachesAligned rg mmapAllocPa by rwa [ReachesAligned, effectiveBase_page])
    (sound.sorted.bounded rg member)
  rwa [effectiveBase_page] at bytes

/-- What is left of a region that reaches its first page boundary is the padding below the
page and the remainder above it. -/
theorem taken (sound : Sound m) (reaches : ∀ rg, serving m pageSize mmapAllocPa = some rg →
      alignUp rg.base ≤ rg.base + rg.len)
    (ran : Mmap.mmapAllocLow m pageSize mmapAllocPa = .ok (m', r)) :
    ∃ rg front rear left, serving m pageSize mmapAllocPa = some rg ∧
      m.available.spans = front ++ rg.span :: rear ∧ r.base = alignUp rg.base ∧
      m'.available.spans = front ++ gap rg.base (r.base - rg.base) ++
        gap (r.base + pageSize) left ++ rear ∧
      m'.available.Sorted ∧ m'.available.count ≤ maxRegions ∧
      m'.highestMapped = m.highestMapped ∧ rg.base ≤ r.base ∧ pageSize ∣ r.base ∧
      availableBytes m rg mmapAllocPa = left + pageSize ∧
      left + pageSize = min (m.highestMapped - r.base) (rg.base + rg.len - r.base) := by
  obtain ⟨rg, front, rear, served, spans, base, spans', sorted', small', high⟩ :=
    mmapAllocLow_spans (by decide) sound.aligned sound.bound sound.sorted sound.small
      (fun rg served => by rw [ReachesAligned, effectiveBase_page]; exact reaches rg served) ran
  obtain ⟨member, below, enough⟩ := serving_spec served
  obtain ⟨above, -, multiple⟩ := alignUp_spec sound.aligned sound.bound below
  have bytes := availableBytes_page sound member below (reaches rg served)
  have whole := (Nat.sub_add_cancel enough).symm
  rw [effectiveBase_page] at base
  rw [← base] at above multiple bytes
  exact ⟨rg, front, rear, _, served, spans, base, spans', sorted', small', high, above, multiple,
    whole, whole.symm.trans bytes⟩

theorem allocated (sound : Sound m) (served : Served pend m)
    (ran : Mmap.mmapAllocLow m pageSize mmapAllocPa = .ok (m', r)) : Allocated pend m m' r.base := by
  obtain ⟨rg, front, rear, left, serves, spans, base, spans', sorted', small', high, above,
      multiple, bytes, least⟩ :=
    taken sound (fun rg serves => (Nat.le_add_right _ _).trans (served rg serves).1) ran
  obtain ⟨whole, remains⟩ := served rg serves
  rw [bytes] at remains
  rw [← base] at whole remains
  have order := sound.sorted.separated
  rw [spans, separated_middle] at order
  obtain ⟨-, -, lower, upper⟩ := order
  simp only [span] at lower upper
  have fewer : ∀ x, Covered m'.available.spans x →
      Covered m.available.spans x ∧ ¬ (r.base ≤ x ∧ x < r.base + pageSize) := by
    intro x covered
    rw [spans', covered_append, covered_append, covered_append, covered_gap, covered_gap] at covered
    rw [spans, covered_middle, covered_append]
    simp only [span, Span.Covers]
    obtain ((⟨s, member, low, high⟩ | padding) | rest) | ⟨s, member, low, high⟩ := covered
    · have less := lower s member
      exact ⟨.inr (.inl ⟨s, member, low, high⟩), by omega⟩
    · exact ⟨.inl (by omega), by omega⟩
    · exact ⟨.inl (by omega), by omega⟩
    · have less := upper s member
      exact ⟨.inr (.inr ⟨s, member, low, high⟩), by omega⟩
  refine ⟨⟨sorted', small', high ▸ sound.aligned, high ▸ sound.bound,
    fun x covered => sound.range x (fewer x covered).1⟩, multiple, fun x low high => ?_, fewer,
    fun pre shape => ?_⟩
  · rw [spans, covered_middle]
    exact .inl ⟨by simp only [span]; omega, by simp only [span]; omega⟩
  · by_cases ended : pend = []
    · exact ⟨_, by rw [ended, append_nil], .inl ended⟩
    -- the region that serves is not among the last ones
    obtain ⟨before, remains⟩ := remains ended
    rw [spans] at shape
    have notLast : rg.span ∉ pend := fun member => lt_irrefl _ (before _ member)
    obtain ⟨middle, rfl, rest⟩ | ⟨middle, rfl, rest⟩ := List.append_eq_append_iff.mp shape
    · cases middle with
      | nil => exact absurd (by rw [← nil_append pend, ← rest]; exact List.mem_cons_self) notLast
      | cons first middle =>
        rw [cons_append] at rest
        obtain ⟨rfl, rfl⟩ := List.cons.inj rest
        refine ⟨front ++ gap rg.base (r.base - rg.base) ++ gap (r.base + pageSize) left ++ middle,
          by simp only [spans', List.append_assoc], .inr ?_⟩
        -- the slot of the region does not go, so the regions behind it do not move forward
        have stays : 1 ≤ (gap rg.base (r.base - rg.base)).length +
            (gap (r.base + pageSize) left).length := by
          simp only [gap_length]
          split_ifs <;> omega
        simp only [length_append, length_cons]
        omega
    · exact absurd (by rw [rest]; simp) notLast

/-- The lowest region with a whole page ends by `limit` and has `c` of them below the mapped
end. -/
def Stock (limit c : Nat) (m : MemMap) : Prop :=
  0 < c → ∃ s ∈ m.available.spans, s.hi ≤ limit ∧ alignUp s.lo + c * pageSize ≤ s.hi ∧
    alignUp s.lo + c * pageSize ≤ m.highestMapped ∧
    ∀ s' ∈ m.available.spans, s'.lo < s.lo → alignUp s'.lo ≤ s'.hi ∧ s'.hi < alignUp s'.lo + pageSize

/-- Every region has a page boundary in it or at its end. -/
def OnBoundary (m : MemMap) : Prop := ∀ s ∈ m.available.spans, alignUp s.lo ≤ s.hi

instance (m : MemMap) : Decidable (OnBoundary m) := inferInstanceAs (Decidable (∀ s ∈ _, _))

theorem Stock.mono (stock : Stock limit b m) (fewer : a ≤ b) : Stock limit a m := by
  intro some
  obtain ⟨s, member, low, whole, mapped, others⟩ := stock (some.trans_le fewer)
  have less := Nat.mul_le_mul_right pageSize fewer
  exact ⟨s, member, low, by omega, by omega, others⟩

/-- The region in stock is the one that serves. -/
theorem Stock.serves (sound : Sound m) (stock : Stock limit (c + 1) m)
    (served : serving m pageSize mmapAllocPa = some rg) :
    rg.base + rg.len ≤ limit ∧ alignUp rg.base + (c + 1) * pageSize ≤ rg.base + rg.len ∧
      alignUp rg.base + (c + 1) * pageSize ≤ m.highestMapped ∧
      ∀ s ∈ m.available.spans, s.lo < rg.base →
        alignUp s.lo ≤ s.hi ∧ s.hi < alignUp s.lo + pageSize := by
  obtain ⟨s, listed, low, whole, mapped, others⟩ := stock (Nat.succ_pos c)
  obtain ⟨own, inside, rfl⟩ := List.mem_map.mp listed
  obtain ⟨member, below, enough⟩ := serving_spec served
  have ordered := ordered_of_separated sound.sorted.separated
  simp only [span] at low whole mapped others
  have one : pageSize ≤ (c + 1) * pageSize := Nat.le_mul_of_pos_left _ (Nat.succ_pos c)
  have first : ¬ rg.base < own.base := by
    intro before
    obtain ⟨reaches, short⟩ := others _ (List.mem_map_of_mem member) before
    rw [availableBytes_page sound member below reaches] at enough
    simp only [span] at reaches short
    omega
  have last : ¬ own.base < rg.base := by
    intro before
    have unused := serving_first served ordered inside before
    rw [availableBytes_page sound inside (before.trans below) (by omega)] at unused
    omega
  have start : own.base = rg.base := by omega
  have same : own.span = rg.span := by
    have covered : Covered m.available.spans own.base :=
      ⟨own.span, listed, le_refl _, Nat.lt_add_of_pos_right (sound.sorted.positive inside)⟩
    exact (sound.sorted.separated.existsUnique covered).unique
      ⟨listed, le_refl _, Nat.lt_add_of_pos_right (sound.sorted.positive inside)⟩
      ⟨List.mem_map_of_mem member, start.ge, start ▸ Nat.lt_add_of_pos_right (sound.sorted.positive member)⟩
  have ends : own.base + own.len = rg.base + rg.len := congrArg Span.hi same
  rw [ends] at low whole
  rw [start] at whole mapped others
  exact ⟨low, whole, mapped, others⟩

theorem alignUp_self {x : Nat} (aligned : pageSize ∣ x) (low : x + pageSize ≤ wordMod) : alignUp x = x := by
  obtain ⟨q, rfl⟩ := aligned
  unfold alignUp pageSize wordMod at *
  dsimp only
  omega

theorem Stock.next (sound : Sound m) (stock : Stock limit (c + 1) m)
    (ran : Mmap.mmapAllocLow m pageSize mmapAllocPa = .ok (m', r)) : Stock limit c m' := by
  intro some
  obtain ⟨rg, front, rear, left, served, spans, base, spans', -, -, high, above, multiple, -, least⟩ :=
    taken sound (fun rg served => (Nat.le_add_right _ _).trans (stock.serves sound served).2.1) ran
  obtain ⟨low, whole, mapped, others⟩ := stock.serves sound served
  have order := sound.sorted.separated
  rw [spans, separated_middle] at order
  have ends := (sound.region_range (serving_spec served).1).2
  have positive : 0 < pageSize := by decide
  have more : pageSize ≤ c * pageSize := Nat.le_mul_of_pos_left _ some
  rw [Nat.succ_mul] at whole mapped
  rw [← base] at whole mapped
  have next :=
    alignUp_self (Nat.dvd_add_right multiple |>.mpr (dvd_refl pageSize)) (by unfold wordMod; omega)
  refine ⟨⟨r.base + pageSize, r.base + pageSize + left⟩, ?_, ?_, ?_, ?_, ?_⟩
  · rw [spans', mem_append, mem_append, mem_gap]
    exact .inl (.inr ⟨by omega, rfl⟩)
  · dsimp only
    omega
  · dsimp only
    omega
  · dsimp only
    omega
  · intro s member before
    rw [spans'] at member
    simp only [mem_append, mem_gap] at member
    rcases member with ((early | ⟨-, rfl⟩) | ⟨-, rfl⟩) | late
    · have less := order.2.2.1 s early
      have proper := sound.sorted.separated.proper s (by simp [spans, early])
      exact others s (by simp [spans, early]) (proper.trans less)
    · dsimp only at before ⊢
      rw [← base]
      omega
    · exact absurd before (lt_irrefl _)
    · have beyond := order.2.2.2 s late
      simp only [span] at beyond
      dsimp only at before
      omega

theorem OnBoundary.reaches (on : OnBoundary m) (member : rg ∈ m.available.live) :
    alignUp rg.base ≤ rg.base + rg.len := by
  have within := on rg.span (List.mem_map_of_mem member)
  exact within

theorem OnBoundary.next (sound : Sound m) (on : OnBoundary m)
    (ran : Mmap.mmapAllocLow m pageSize mmapAllocPa = .ok (m', r)) : OnBoundary m' := by
  obtain ⟨rg, front, rear, left, served, spans, base, spans', -, -, -, above, multiple, -, least⟩ :=
    taken sound (fun rg served => on.reaches (serving_spec served).1) ran
  have ends := (sound.region_range (serving_spec served).1).2
  have small : 2 ^ 47 + pageSize ≤ wordMod ∧ 0 < pageSize := by decide
  intro s member
  rw [spans'] at member
  simp only [mem_append, mem_gap] at member
  rcases member with ((early | ⟨-, rfl⟩) | ⟨-, rfl⟩) | late
  · exact on s (by simp [spans, early])
  · dsimp only
    rw [← base]
    omega
  · dsimp only
    rw [alignUp_self (Nat.dvd_add_right multiple |>.mpr (dvd_refl pageSize)) (by omega)]
    omega
  · exact on s (by simp [spans, late])

/-- The memory map can serve `a` tables while the regions `pend` are ahead of the loop, and
`b` in all. -/
structure Ready (limit : Nat) (pend : List (Span Nat)) (a b : Nat) (m : MemMap) : Prop where
  ahead : pend ≠ [] → 0 < a → Stock limit (a + 1) m
  all : Stock limit b m ∨ OnBoundary m

theorem Ready.mono {pend' : List (Span Nat)} {a' b' : Nat} (ready : Ready limit pend a b m)
    (fewer : pend' ≠ [] → pend ≠ [] ∧ a' ≤ a) (fewer' : b' ≤ b) : Ready limit pend' a' b' m :=
  ⟨fun some positive => (ready.ahead (fewer some).1 (positive.trans_le (fewer some).2)).mono
    (Nat.succ_le_succ (fewer some).2), ready.all.imp_left (·.mono fewer')⟩

theorem Ready.raise (ready : Ready limit pend a b m) {high : Nat}
    (higher : m.highestMapped ≤ high) : Ready limit pend a b { m with highestMapped := high } := by
  have stock : ∀ c, Stock limit c m → Stock limit c { m with highestMapped := high } := by
    intro c stock some
    obtain ⟨s, member, low, whole, mapped, others⟩ := stock some
    exact ⟨s, member, low, whole, mapped.trans higher, others⟩
  exact ⟨fun some positive => stock _ (ready.ahead some positive), ready.all.imp_left (stock _)⟩

theorem Ready.served (sound : Sound m) (ready : Ready limit pend (a + 1) (b + 1) m)
    (later : ∀ s ∈ pend, limit ≤ s.lo) : Served pend m := by
  intro rg served
  have positive : 0 < pageSize := by decide
  obtain ⟨member, below, enough⟩ := serving_spec served
  by_cases ended : pend = []
  · refine ⟨?_, fun some => absurd ended some⟩
    rcases ready.all with stock | on
    · have whole := (stock.serves sound served).2.1
      rw [Nat.succ_mul] at whole
      omega
    · have reaches := on.reaches member
      rw [availableBytes_page sound member below reaches] at enough
      omega
  · -- two pages are left, so that the region does not go
    obtain ⟨low, whole, mapped, -⟩ := (ready.ahead ended (Nat.succ_pos a)).serves sound served
    rw [Nat.succ_mul, Nat.succ_mul] at whole mapped
    refine ⟨by omega, fun _ => ⟨fun s pending => ?_, .inr ?_⟩⟩
    · have first := later s pending
      have proper := sound.sorted.positive member
      omega
    · rw [availableBytes_page sound member below (by omega)]
      omega

theorem Ready.next (sound : Sound m) (ready : Ready limit pend (a + 1) (b + 1) m)
    (ran : Mmap.mmapAllocLow m pageSize mmapAllocPa = .ok (m', r)) : Ready limit pend a b m' :=
  ⟨fun some _ => (ready.ahead some (Nat.succ_pos a)).next sound ran,
    ready.all.imp (·.next sound ran) (·.next sound ran)⟩

structure AllocatedAll (pend : List (Span Nat)) (m m' : MemMap) (tables : List PhysAddr) : Prop where
  sound : Sound m'
  aligned : ∀ t ∈ tables, pageSize ∣ t.toNat
  inside : ∀ t ∈ tables, ∀ x, t.toNat ≤ x → x < t.toNat + pageSize → Covered m.available.spans x
  fewer : ∀ x, Covered m'.available.spans x →
    Covered m.available.spans x ∧ ∀ t ∈ tables, ¬ (t.toNat ≤ x ∧ x < t.toNat + pageSize)
  distinct : tables.Nodup
  keeps : ∀ pre, m.available.spans = pre ++ pend →
    ∃ pre', m'.available.spans = pre' ++ pend ∧ (pend = [] ∨ pre.length ≤ pre'.length)

theorem allocatedAll (sound : Sound m) (later : ∀ s ∈ pend, limit ≤ s.lo)
    (ready : Ready limit pend (a + n) (b + n) m) (ran : allocTables n m = .ok (tables, m')) :
    AllocatedAll pend m m' tables ∧ Ready limit pend a b m' := by
  induction n generalizing m tables with
  | zero =>
    cases ran
    exact ⟨⟨sound, by simp, by simp, fun x covered => ⟨covered, by simp⟩, List.nodup_nil,
      fun pre shape => ⟨pre, shape, .inr (le_refl _)⟩⟩, ready⟩
  | succ n ih =>
    obtain ⟨⟨middle, rg⟩, first, ran⟩ := bind_eq_ok.mp ran
    obtain ⟨⟨rest, last⟩, others, ran⟩ := bind_eq_ok.mp ran
    cases ran
    have one := allocated sound (ready.served sound later) first
    obtain ⟨more, left⟩ := ih one.sound (ready.next sound first) others
    have page := lt_next_page rg.base
    have address : (BitVec.ofNat 64 rg.base).toNat = rg.base :=
      toNat_page (sound.range rg.base (one.inside _ (le_refl _) page)).2
    refine ⟨⟨more.sound, ?_, ?_, ?_, ?_, ?_⟩, left⟩
    · exact List.forall_mem_cons.mpr ⟨address.symm ▸ one.aligned, more.aligned⟩
    · refine List.forall_mem_cons.mpr ⟨address.symm ▸ one.inside, fun t member x low high => ?_⟩
      exact (one.fewer x (more.inside t member x low high)).1
    · intro x covered
      obtain ⟨before, outside⟩ := more.fewer x covered
      obtain ⟨old, apart⟩ := one.fewer x before
      exact ⟨old, List.forall_mem_cons.mpr ⟨address.symm ▸ apart, outside⟩⟩
    · -- the first page is no longer available when the others are taken
      refine List.nodup_cons.mpr ⟨fun member => ?_, more.distinct⟩
      have again := more.inside _ member rg.base address.le (by rw [address]; exact page)
      exact (one.fewer _ again).2 ⟨le_refl _, page⟩
    · intro pre shape
      obtain ⟨pre₁, shape₁, long₁⟩ := one.keeps pre shape
      obtain ⟨pre₂, shape₂, long₂⟩ := more.keeps pre₁ shape₁
      exact ⟨pre₂, shape₂, long₁.elim .inl fun first => long₂.imp_right first.trans⟩

end Supply

/-! ## The logical map -/

/-- The pages of a region that can be mapped. -/
def pagesOf (s : Span Nat) : List Nat :=
  range' (alignUp s.lo) ((s.hi - alignUp s.lo) / pageSize) pageSize

def WholePage (m : MemMap) (page : Nat) : Prop :=
  pageSize ∣ page ∧ ∃ s ∈ m.available.spans, s.lo ≤ page ∧ page + pageSize ≤ s.hi

def Logical (p4 : PhysAddr) (m : MemMap) (r : PhysAddr) (path : List (Fin 512)) : Prop :=
  r = p4 ∧ ∃ page, WholePage m page ∧ path <+: tablePath (physToVirt page)

structure MappedWritable (mem : PhysMem) (p4 : PhysAddr) (page : Nat) : Prop where
  address : pteValue mem p4 (physToVirt page) &&& pteAddrMask = BitVec.ofNat 64 page
  present : pteValue mem p4 (physToVirt page) &&& pagePresent ≠ 0#64
  writable : pteValue mem p4 (physToVirt page) &&& pageWritable ≠ 0#64

section Pages

variable {m : MemMap} {p4 : PhysAddr} {page page' : Nat}

theorem region_logical : Region (Logical p4 m) where
  closed _ _ _ front inside := ⟨inside.1, inside.2.imp fun _ both => ⟨both.1, front.trans both.2⟩⟩
  bounded _ path inside := by
    obtain ⟨-, page, -, front⟩ := inside
    exact front.length_le

theorem Sound.page_range (sound : Sound m) (whole : WholePage m page) :
    pageSize ≤ page ∧ page < 2 ^ 47 := by
  obtain ⟨-, s, member, low, high⟩ := whole
  exact sound.range page ⟨s, member, low, (lt_next_page page).trans_le high⟩

theorem mem_pagesOf {s : Span Nat} (low : s.lo < 2 ^ 47) :
    page ∈ pagesOf s ↔ pageSize ∣ page ∧ s.lo ≤ page ∧ page + pageSize ≤ s.hi := by
  have start : ∃ a, alignUp s.lo = pageSize * a ∧ s.lo ≤ pageSize * a ∧
      pageSize * a < s.lo + pageSize := by
    refine ⟨(s.lo + (pageSize - 1)) / pageSize, ?_, ?_, ?_⟩
    · unfold alignUp
      rw [Nat.mod_eq_of_lt (show s.lo + (pageSize - 1) < wordMod by unfold pageSize wordMod at *; omega)]
      have division := Nat.div_add_mod (s.lo + (pageSize - 1)) pageSize
      dsimp only
      omega
    · unfold pageSize
      omega
    · unfold pageSize
      omega
  obtain ⟨a, base, above, near⟩ := start
  rw [pagesOf, base, List.mem_range']
  unfold pageSize at *
  constructor
  · rintro ⟨n, few, rfl⟩
    exact ⟨⟨a + n, by omega⟩, by omega, by omega⟩
  · rintro ⟨⟨b, rfl⟩, from_, to_⟩
    exact ⟨b - a, by omega, by omega⟩

theorem vpn_physToVirt_inj (aligned : pageSize ∣ page) (aligned' : pageSize ∣ page')
    (positive : 0 < page) (positive' : 0 < page') (low : page < 2 ^ 47) (low' : page' < 2 ^ 47)
    (same : vpn (physToVirt page) = vpn (physToVirt page')) : page = page' := by
  have value : ∀ p, 0 < p → p < 2 ^ 47 → (physToVirt p).toNat = p + 0xFFFF800000000000 := by
    intro p positive low
    rw [physToVirt, if_neg positive.ne', BitVec.toNat_add, BitVec.toNat_ofNat, kernelLogicalBase,
      BitVec.toNat_ofNat]
    omega
  rw [vpn, vpn, value page positive low, value page' positive' low'] at same
  obtain ⟨a, rfl⟩ := aligned
  obtain ⟨b, rfl⟩ := aligned'
  unfold pageSize at *
  omega

theorem usable_page {t : PhysAddr} (aligned : pageSize ∣ t.toNat) (positive : 0 < t.toNat)
    (low : t.toNat < 2 ^ 47) : Usable t := by
  refine ⟨BitVec.eq_of_getLsbD_eq fun i bound => ?_, ?_⟩
  · have mask : ∀ i : Fin 64, pteAddrMask.getLsbD i =
      (decide (12 ≤ i.val) && decide (i.val < 52)) := by decide
    rw [BitVec.getLsbD_and, mask ⟨i, bound⟩, BitVec.getLsbD]
    by_cases small : i < 12
    · obtain ⟨a, value⟩ := aligned
      have shifted : t.toNat = 2 ^ 12 * a := value
      have zero : t.toNat.testBit i = false := by
        rw [shifted, Nat.testBit_two_pow_mul, decide_eq_false (by omega), Bool.false_and]
      simp [zero]
    · by_cases large : 52 ≤ i
      · have zero : t.toNat.testBit i = false :=
          Nat.testBit_lt_two_pow (low.trans (Nat.pow_lt_pow_right (by decide) (by omega)))
        simp [zero]
      · simp only [not_lt, not_le] at small large
        simp [small, large]
  · rintro rfl
    simp at positive

theorem leafEntry_writable (usable : Usable (BitVec.ofNat 64 page)) {mem : PhysMem}
    (stored : pteValue mem p4 (physToVirt page) = leafEntry (BitVec.ofNat 64 page) mapFlags) :
    MappedWritable mem p4 page := by
  have entry : leafEntry (BitVec.ofNat 64 page) mapFlags =
      BitVec.ofNat 64 page ||| 0x8000000000000103#64 := by
    have maps : (mapFlags &&& vmmUnmap != 0#64) = false := by decide
    have flags : (mapFlags ^^^ pageExecutable) &&& ~~~vmmAllocMmap = 0x8000000000000102#64 := by decide
    rw [leafEntry, maps, flags, usable.1, BitVec.or_assoc]
    rfl
  rw [entry] at stored
  have bit : ∀ flag : BitVec 64, 0x8000000000000103#64 &&& flag ≠ 0#64 →
      pteValue mem p4 (physToVirt page) &&& flag ≠ 0#64 := by
    intro flag set zero
    rw [stored, BitVec.and_or_distrib_right] at zero
    exact set (BitVec.or_eq_zero_iff.mp zero).2
  refine ⟨?_, bit _ (by decide), bit _ (by decide)⟩
  have clear : 0x8000000000000103#64 &&& pteAddrMask = 0#64 := by decide
  rw [stored, BitVec.and_or_distrib_right, usable.1, clear, BitVec.or_zero]

end Pages

/-! ## Tables that are missing -/

/-- The tables on the way to the pages that do not exist. -/
def missing (mem : PhysMem) (p4 : PhysAddr) (pages : List Nat) : Finset (List (Fin 512)) :=
  (pages.flatMap fun page => (tablePath (physToVirt page)).inits).toFinset.filter
    fun path => tableAt mem p4 path = none

section Missing

variable {mem mem' : PhysMem} {p4 : PhysAddr} {pages pages' : List Nat} {page : Nat}
  {path : List (Fin 512)}

theorem mem_missing : path ∈ missing mem p4 pages ↔
    (∃ page ∈ pages, path <+: tablePath (physToVirt page)) ∧ tableAt mem p4 path = none := by
  simp [missing]

theorem missing_subset (fewer : pages ⊆ pages') : missing mem p4 pages ⊆ missing mem p4 pages' := by
  intro path member
  rw [mem_missing] at member ⊢
  exact member.imp_left fun ⟨page, listed, front⟩ => ⟨page, fewer listed, front⟩

theorem missingTables_eq (mem : PhysMem) (p4 : PhysAddr) (page : Nat) :
    missingTables mem p4 (physToVirt page) = (missing mem p4 [page]).card := by
  have first := tableAt_snoc mem p4 [] (p4Index (physToVirt page))
  have second := tableAt_snoc mem p4 [p4Index (physToVirt page)] (p3Index (physToVirt page))
  have third := tableAt_snoc mem p4 [p4Index (physToVirt page), p3Index (physToVirt page)]
    (p2Index (physToVirt page))
  have root : tableAt mem p4 [] = some p4 := rfl
  simp only [nil_append, cons_append, root, Option.bind_some] at first second third
  simp only [missing, missingTables, tablePath, List.flatMap_cons, List.flatMap_nil, append_nil,
    List.inits, map_cons, List.map_nil, List.toFinset_cons, List.toFinset_nil]
  cases at4 : pgtabExtract mem p4 (p4Index (physToVirt page)) with
  | none => simp [Finset.filter_insert, Finset.filter_singleton, root, first, second, third, at4]
  | some p3 =>
    cases at3 : pgtabExtract mem p3 (p3Index (physToVirt page)) with
    | none => simp [Finset.filter_insert, Finset.filter_singleton, root, first, second, third, at4, at3]
    | some p2 =>
      cases at2 : pgtabExtract mem p2 (p2Index (physToVirt page)) <;>
        simp [Finset.filter_insert, Finset.filter_singleton, root, first, second, third, at4, at3, at2]

theorem missingTables_le (mem : PhysMem) (p4 : PhysAddr) (listed : page ∈ pages) :
    missingTables mem p4 (physToVirt page) ≤ (missing mem p4 pages).card := by
  rw [missingTables_eq]
  exact Finset.card_le_card (missing_subset (by simpa))

/-- A call that reaches a page and keeps the tables that exist leaves fewer missing ones. -/
theorem missing_step (member : page ∈ pages)
    (reached : tableAt mem' p4 (tablePath (physToVirt page)) ≠ none)
    (kept : ∀ page ∈ pages, ∀ path, path <+: tablePath (physToVirt page) →
      tableAt mem p4 path ≠ none → tableAt mem' p4 path ≠ none) :
    (missing mem' p4 pages).card + missingTables mem p4 (physToVirt page) ≤
    (missing mem p4 pages).card := by
  have apart : Disjoint (missing mem' p4 pages) (missing mem p4 [page]) := by
    refine Finset.disjoint_left.mpr fun path late own => ?_
    obtain ⟨⟨_, listed, rest, whole⟩, -⟩ := mem_missing.mp own
    obtain rfl := List.mem_singleton.mp listed
    exact reached (whole ▸ tableAt_none rest (mem_missing.mp late).2)
  rw [missingTables_eq, ← Finset.card_union_of_disjoint apart]
  refine Finset.card_le_card (Finset.union_subset (fun path late => ?_) (missing_subset (by simpa)))
  obtain ⟨⟨other, listed, front⟩, absent⟩ := mem_missing.mp late
  refine mem_missing.mpr ⟨⟨other, listed, front⟩, ?_⟩
  by_contra present
  exact kept other listed path front present absent

end Missing

/-! ## One page -/

/-- The kernel's tables before the loop: those of the logical map form a tree, they and
those on the way to `zero_page` are not in available memory, a table of both kinds has the
same level in both, and `zero_page` has an entry, which is not that of an available page. -/
structure KernelTables (p4 : PhysAddr) (zeroPage : BitVec 64) (k : Boot) : Prop where
  separate : Separate entryTable k.vm.mem (Logical p4 k.map)
  outside : ∀ path a, Logical p4 k.map p4 path ∨ path <+: tablePath zeroPage →
    tableAt k.vm.mem p4 path = some a →
    ∀ x, Covered k.map.available.spans x → ¬ (a.toNat ≤ x ∧ x < a.toNat + pageSize)
  levels : ∀ path front a, Logical p4 k.map p4 path → front <+: tablePath zeroPage →
    tableAt k.vm.mem p4 path = some a → tableAt k.vm.mem p4 front = some a → path.length = front.length
  zero : tableAt k.vm.mem p4 (tablePath zeroPage) ≠ none
  slot : ∀ page, WholePage k.map page → vmmGetPte k.vm.mem p4 (physToVirt page) ≠
    vmmGetPte k.vm.mem p4 zeroPage

/-- What every pass keeps of the state `k₀` before the loop. -/
structure Steady (p4 : PhysAddr) (zeroPage : BitVec 64) (k₀ k : Boot) : Prop where
  sound : Sound k.map
  fewer : ∀ x, Covered k.map.available.spans x → Covered k₀.map.available.spans x
  separate : Separate entryTable k.vm.mem (Logical p4 k₀.map)
  outside : ∀ path a, Logical p4 k₀.map p4 path → tableAt k.vm.mem p4 path = some a →
    ∀ x, Covered k.map.available.spans x → ¬ (a.toNat ≤ x ∧ x < a.toNat + pageSize)
  origin : ∀ path a, Logical p4 k₀.map p4 path → tableAt k.vm.mem p4 path = some a →
    tableAt k₀.vm.mem p4 path = some a ∨ Covered k₀.map.available.spans a.toNat
  links : ∀ before i b, before ++ [i] <+: tablePath zeroPage →
    tableAt k₀.vm.mem p4 before = some b → k.vm.mem b i = k₀.vm.mem b i

section Page

variable {p4 : PhysAddr} {zeroPage : BitVec 64} {k₀ k k' : Boot} {limit page a b : Nat}
  {pend : List (Span Nat)}

theorem KernelTables.steady (tables : KernelTables p4 zeroPage k₀) (sound : Sound k₀.map) :
    Steady p4 zeroPage k₀ k₀ :=
  ⟨sound, fun _ covered => covered, tables.separate,
    fun path a inside => tables.outside path a (.inl inside),
    fun _ _ _ found => .inl found, fun _ _ _ _ _ => rfl⟩

theorem KernelTables.zero_outside (tables : KernelTables p4 zeroPage k₀) {front : List (Fin 512)}
    {a : PhysAddr} (along : front <+: tablePath zeroPage) (found : tableAt k₀.vm.mem p4 front = some a) :
    ¬ Covered k₀.map.available.spans a.toNat := fun covered =>
  tables.outside front a (.inr along) found _ covered ⟨le_refl _, lt_next_page _⟩

theorem KernelTables.zero_linked (tables : KernelTables p4 zeroPage k₀) {before : List (Fin 512)}
    {i : Fin 512} {b : PhysAddr} (along : before ++ [i] <+: tablePath zeroPage)
    (found : tableAt k₀.vm.mem p4 before = some b) : entryTable (k₀.vm.mem b i) ≠ none := by
  intro missing
  obtain ⟨rest, whole⟩ := along
  refine tables.zero ?_
  rw [← whole]
  apply tableAt_none
  rwa [tableAt_snoc, found]

theorem Steady.supplied (steady : Steady p4 zeroPage k₀ k) {map : MemMap}
    (allocated : AllocatedAll pend k.map map tables) :
    Supplied (Logical p4 k₀.map) { k.vm with supply := tables } := by
  have available : ∀ t ∈ tables, Covered k.map.available.spans t.toNat := fun t member =>
    allocated.inside t member _ (le_refl _) (lt_next_page _)
  refine ⟨fun t member => ?_, allocated.distinct, ?_⟩
  · obtain ⟨high, low⟩ := steady.sound.range _ (available t member)
    exact usable_page (allocated.aligned t member) (lt_of_lt_of_le (by decide) high) low
  · rintro t member r path inside found
    obtain rfl := inside.1
    exact steady.outside path t inside found _ (available t member) ⟨le_refl _, lt_next_page _⟩

structure PageMapped (p4 : PhysAddr) (zeroPage : BitVec 64) (pend : List (Span Nat)) (page : Nat)
    (k₀ k k' : Boot) : Prop where
  steady : Steady p4 zeroPage k₀ k'
  keeps : ∀ pre, k.map.available.spans = pre ++ pend →
    ∃ pre', k'.map.available.spans = pre' ++ pend ∧ (pend = [] ∨ pre.length ≤ pre'.length)
  tables : ∀ path, Logical p4 k₀.map p4 path →
    tableAt k.vm.mem p4 path ≠ none → tableAt k'.vm.mem p4 path ≠ none
  entries : ∀ page', WholePage k₀.map page' → pteValue k'.vm.mem p4 (physToVirt page') =
    if page' = page then leafEntry (BitVec.ofNat 64 page) mapFlags
    else pteValue k.vm.mem p4 (physToVirt page')

theorem mapPage_spec (sound : Sound k₀.map) (tables : KernelTables p4 zeroPage k₀)
    (steady : Steady p4 zeroPage k₀ k) (whole : WholePage k₀.map page)
    (later : ∀ s ∈ pend, limit ≤ s.lo)
    (ready : Ready limit pend (a + missingTables k.vm.mem p4 (physToVirt page))
      (b + missingTables k.vm.mem p4 (physToVirt page)) k.map) (ran : mapPage p4 k page = .ok k') :
    PageMapped p4 zeroPage pend page k₀ k k' ∧ Ready limit pend a b k'.map := by
  obtain ⟨⟨supply, map⟩, took, ran⟩ := bind_eq_ok.mp ran
  obtain ⟨vm, stored, ran⟩ := bind_eq_ok.mp ran
  cases ran
  obtain ⟨allocated, left⟩ := allocatedAll steady.sound later ready took
  have supplied := steady.supplied allocated
  have inside : Logical p4 k₀.map p4 (tablePath (physToVirt page)) := ⟨rfl, page, whole, prefix_refl _⟩
  have mapped := vmmMapPage_spec region_logical supplied steady.separate inside stored
  have taken : ∀ t ∈ supply, Covered k₀.map.available.spans t.toNat := fun t member =>
    steady.fewer _ (allocated.inside t member _ (le_refl _) (lt_next_page _))
  refine ⟨⟨⟨⟨allocated.sound.sorted, allocated.sound.small, ?_, ?_, allocated.sound.range⟩,
    fun x covered => steady.fewer x (allocated.fewer x covered).1, mapped.separate, ?_, ?_, ?_⟩,
    allocated.keeps, ?_, ?_⟩, left.raise (le_max_right _ _)⟩
  · -- `highest_mapped` is a page address before and after
    rw [Nat.max_def]
    split
    · exact allocated.sound.aligned
    · exact whole.1
  · have low := (sound.page_range whole).2
    have bound := allocated.sound.bound
    unfold wordMod at *
    dsimp only
    omega
  · intro path a inside' found x covered
    obtain ⟨before, fresh⟩ := allocated.fewer x covered
    rcases mapped.tables p4 path a inside' found with old | new
    · exact steady.outside path a inside' old x before
    · exact fresh a new
  · intro path a inside' found
    rcases mapped.tables p4 path a inside' found with old | new
    · exact steady.origin path a inside' old
    · exact .inr (taken a new)
  · intro before i b along found
    have front : before <+: tablePath zeroPage := (List.prefix_append _ _).trans along
    have notAvailable := tables.zero_outside front found
    have same := steady.links before i b along found
    rw [← same]
    refine mapped.links b i ?_ ?_ ?_
    · exact fun member => notAvailable (taken b member)
    · -- the last-level tables of the logical map are not on the upper levels
      intro last
      rcases steady.origin _ b inside last with old | new
      · have level := tables.levels _ before b inside front old found
        have short := along.length_le
        simp only [tablePath, length_append, length_cons, List.length_nil] at level short
        omega
      · exact notAvailable new
    · have linked := tables.zero_linked along found
      rw [← same] at linked
      exact linked
  · intro path inside' found
    obtain ⟨a, before⟩ := Option.ne_none_iff_exists'.mp found
    simp [mapped.kept p4 path a inside' before]
  · -- one entry of the logical map is written, and pages have different entries
    intro page' whole'
    obtain ⟨high, low⟩ := sound.page_range whole
    obtain ⟨high', low'⟩ := sound.page_range whole'
    have positive : 0 < pageSize := by decide
    have inside' : Logical p4 k₀.map p4 (tablePath (physToVirt page')) :=
      ⟨rfl, page', whole', prefix_refl _⟩
    rw [pteValue_eq, mapped.entries p4 _ _ inside' rfl, pteValue_eq]
    refine if_congr ?_ rfl rfl
    constructor
    · rintro ⟨-, path, last⟩
      simp only [tablePath, List.cons.injEq, and_true] at path
      exact vpn_physToVirt_inj whole'.1 whole.1 (by omega) (by omega) low' low
        ((vpn_eq_iff _ _).mpr ⟨path.1, path.2.1, path.2.2, last⟩)
    · rintro rfl
      exact ⟨rfl, rfl, rfl⟩

end Page

/-! ## The loops -/

section Loops

variable {p4 : PhysAddr} {zeroPage : BitVec 64} {k₀ k k' : Boot} {limit i : Nat}
  {pend spans : List (Span Nat)} {pages : List Nat}

theorem Sound.mem_pages (sound : Sound k.map) {page : Nat} (part : spans ⊆ k.map.available.spans) :
    page ∈ spans.flatMap pagesOf ↔
      pageSize ∣ page ∧ ∃ s ∈ spans, s.lo ≤ page ∧ page + pageSize ≤ s.hi := by
  have low : ∀ s ∈ spans, s.lo < 2 ^ 47 := fun s member =>
    (sound.range s.lo ⟨s, part member, le_refl _, sound.sorted.separated.proper s (part member)⟩).2
  rw [List.mem_flatMap]
  constructor
  · rintro ⟨s, member, listed⟩
    obtain ⟨aligned, both⟩ := (mem_pagesOf (low s member)).mp listed
    exact ⟨aligned, s, member, both⟩
  · rintro ⟨aligned, s, member, both⟩
    exact ⟨s, member, (mem_pagesOf (low s member)).mpr ⟨aligned, both⟩⟩

theorem Sound.usable (sound : Sound k.map) {page : Nat} (whole : WholePage k.map page) :
    Usable (BitVec.ofNat 64 page) := by
  obtain ⟨high, low⟩ := sound.page_range whole
  have address := toNat_page low
  exact usable_page (address.symm ▸ whole.1) (address.symm ▸ lt_of_lt_of_le (by decide) high)
    (address.symm ▸ low)

/-- How many tables the pages of the regions still need. -/
def needed (p4 : PhysAddr) (k : Boot) (spans : List (Span Nat)) : Nat :=
  (missing k.vm.mem p4 (spans.flatMap pagesOf)).card

theorem PageMapped.needed_le {page : Nat} (sound : Sound k₀.map)
    (mapped : PageMapped p4 zeroPage pend page k₀ k k') (whole : WholePage k₀.map page)
    (part : spans ⊆ k₀.map.available.spans) (listed : page ∈ spans.flatMap pagesOf) :
    needed p4 k' spans + missingTables k.vm.mem p4 (physToVirt page) ≤ needed p4 k spans := by
  refine missing_step listed (fun absent => ?_) fun other member path front =>
    mapped.tables path ⟨rfl, other, ?_, front⟩
  · have stored := leafEntry_writable (sound.usable whole) ((mapped.entries page whole).trans (if_pos rfl))
    refine stored.present ?_
    simp [pteValue, vmmGetPte_eq, absent]
  · obtain ⟨aligned, s, inside, both⟩ := (sound.mem_pages part).mp member
    exact ⟨aligned, s, part inside, both⟩

/-- Every page that was available is mapped, or in one of the regions `pend`, which have not
been reached, or yet to come in this pass. -/
structure Progress (p4 : PhysAddr) (zeroPage : BitVec 64) (k₀ : Boot) (limit slots : Nat)
    (pend : List (Span Nat)) (todo : Nat → Prop) (k : Boot) : Prop where
  steady : Steady p4 zeroPage k₀ k
  behind : pend <:+ k₀.map.available.spans
  shape : ∃ pre, k.map.available.spans = pre ++ pend ∧ (pend = [] ∨ slots ≤ pre.length) ∧
    (pre = [] ∨ ∀ s ∈ pend, limit ≤ s.lo)
  done : ∀ page, WholePage k₀.map page →
    pteValue k.vm.mem p4 (physToVirt page) = leafEntry (BitVec.ofNat 64 page) mapFlags ∨
    (∃ s ∈ pend, s.lo ≤ page ∧ page + pageSize ≤ s.hi) ∨ todo page
  ready : Ready limit pend (needed p4 k k₀.map.available.spans.dropLast)
    (needed p4 k k₀.map.available.spans) k.map

theorem regionPages_eq {rg : Mmap.Region} (high : pageSize ≤ rg.base)
    (low : rg.base + rg.len ≤ 2 ^ 47) : regionPages rg = .ok (pagesOf rg.span) := by
  have noWrap : (rg.base + rg.len) % wordMod = rg.base + rg.len :=
    Nat.mod_eq_of_lt (by unfold wordMod; omega)
  have last : wordSub (rg.base + rg.len) pageSize = rg.base + rg.len - pageSize :=
    wordSub_eq (by omega) (by unfold wordMod; omega)
  rw [regionPages, noWrap, last, Nat.sub_add_cancel (by omega), if_neg (by unfold wordMod; omega)]
  rfl

theorem Progress.enter (limits : ∀ s ∈ k₀.map.available.spans.tail, limit ≤ s.lo)
    (progress : Progress p4 zeroPage k₀ limit i pend (fun _ => False) k)
    (inside : i < k.map.available.count) :
    ∃ pend', (∀ s ∈ pend', limit ≤ s.lo ∧
        (k.map.available.regions i).base + (k.map.available.regions i).len ≤ s.lo) ∧
      Progress p4 zeroPage k₀ limit (i + 1) pend' (fun page => (k.map.available.regions i).base ≤ page ∧
        page + pageSize ≤ (k.map.available.regions i).base + (k.map.available.regions i).len) k := by
  obtain ⟨steady, behind, ⟨pre, shape, reached, later⟩, done, ready⟩ := progress
  obtain ⟨front, rear, split, length⟩ := exists_split inside
  have spans := spans_split split
  have order := steady.sound.sorted.separated
  rw [spans, map_cons, separated_middle] at order
  have above : ∀ s ∈ rear.map span,
      (k.map.available.regions i).base + (k.map.available.regions i).len ≤ s.lo :=
    fun s member => (order.2.2.2 s member).le
  rw [map_cons] at spans
  have first : (front.map span).length = i := by rw [List.length_map, length]
  -- the slots before it have all been reached
  have reached : i ≤ pre.length := by
    rcases reached with rfl | reached
    · have total := congrArg List.length shape
      rw [spans_length, append_nil] at total
      omega
    · exact reached
  obtain ⟨middle, rfl⟩ : front.map span <+: pre :=
    List.prefix_of_prefix_length_le ⟨_, spans.symm⟩ ⟨_, shape.symm⟩ (first.trans_le reached)
  have rest : (k.map.available.regions i).span :: rear.map span = middle ++ pend := by
    rw [spans, List.append_assoc] at shape
    exact List.append_cancel_left shape
  cases middle with
  | nil =>
    -- the first of those not reached: its pages are what the pass has to do
    rw [nil_append] at rest
    subst rest
    have limited : ∀ s ∈ rear.map span, limit ≤ s.lo := by
      obtain ⟨earlier, whole⟩ := behind
      intro s member
      refine limits s ?_
      rw [← whole]
      cases earlier <;> simp [member]
    refine ⟨rear.map span, fun s member => ⟨limited s member, above s member⟩, steady,
      (List.suffix_cons _ _).trans behind, ⟨front.map span ++ [(k.map.available.regions i).span],
        by simp [spans], .inr (by simp [first]), .inr limited⟩, fun page whole => ?_,
      ready.mono (fun _ => ⟨List.cons_ne_nil _ _, le_refl _⟩) (le_refl _)⟩
    rcases done page whole with stored | ⟨s, member, both⟩ | none
    · exact .inl stored
    · rcases mem_cons.mp member with rfl | member
      · exact .inr (.inr both)
      · exact .inr (.inl ⟨s, member, both⟩)
    · exact none.elim
  | cons s middle =>
    -- a part of a region that has been mapped before, and is gone over again
    rw [cons_append] at rest
    obtain ⟨-, rest⟩ := List.cons.inj rest
    have limited := later.resolve_left (by simp)
    refine ⟨pend, fun s member => ⟨limited s member, above s (by simp [rest, member])⟩, steady,
      behind, ⟨_, shape, .inr (by rw [length_append, first, length_cons]; omega), .inr limited⟩,
      fun page whole => (done page whole).imp_right (.imp_right False.elim), ready⟩

theorem Progress.leave (progress : Progress p4 zeroPage k₀ limit slots pend todo k)
    (finished : ∀ page, WholePage k₀.map page → ¬ todo page) :
    Progress p4 zeroPage k₀ limit slots pend (fun _ => False) k :=
  { progress with done := fun page whole =>
      (progress.done page whole).imp_right (.imp_right (finished page whole)) }

theorem Progress.page {page : Nat} (sound : Sound k₀.map) (tables : KernelTables p4 zeroPage k₀)
    (progress : Progress p4 zeroPage k₀ limit slots pend todo k) (whole : WholePage k₀.map page)
    (later : ∀ s ∈ pend, limit ≤ s.lo) (beyond : ∀ s ∈ pend, page + pageSize ≤ s.lo)
    (ran : mapPage p4 k page = .ok k') :
    Progress p4 zeroPage k₀ limit slots pend (fun other => todo other ∧ other ≠ page) k' := by
  obtain ⟨steady, behind, ⟨pre, shape, reached, -⟩, done, ready⟩ := progress
  have listed := (sound.mem_pages (List.Subset.refl _)).mpr whole
  -- while regions are ahead, the page is not in the last one
  have early : pend ≠ [] → page ∈ k₀.map.available.spans.dropLast.flatMap pagesOf := by
    intro some
    obtain ⟨aligned, s, member, low, high⟩ := whole
    obtain ⟨front, split⟩ := behind
    refine (sound.mem_pages (List.dropLast_subset _)).mpr ⟨aligned, s, ?_, low, high⟩
    rw [← split] at member ⊢
    rw [List.dropLast_append_of_ne_nil some]
    refine List.mem_append_left _ ((mem_append.mp member).resolve_right fun pending => ?_)
    have less := beyond s pending
    have page := lt_next_page page
    omega
  have few := missingTables_le k.vm.mem p4 listed
  have few' := fun some => missingTables_le k.vm.mem p4 (early some)
  obtain ⟨mapped, left⟩ := mapPage_spec sound tables steady whole later (ready.mono
    (fun some => ⟨some, (Nat.sub_add_cancel (few' some)).le⟩) (Nat.sub_add_cancel few).le) ran
  obtain ⟨pre', shape', long⟩ := mapped.keeps pre shape
  refine ⟨mapped.steady, behind, ⟨pre', shape', ?_, .inr later⟩, fun other whole' => ?_,
    left.mono (fun some => ⟨some, Nat.le_sub_of_add_le
      (mapped.needed_le sound whole (List.dropLast_subset _) (early some))⟩)
      (Nat.le_sub_of_add_le (mapped.needed_le sound whole (List.Subset.refl _) listed))⟩
  · exact reached.elim .inl fun first => long.imp_right first.trans
  · rw [mapped.entries other whole']
    by_cases same : other = page
    · subst same
      rw [if_pos rfl]
      exact .inl rfl
    · rw [if_neg same]
      rcases done other whole' with stored | waiting | coming
      · exact .inl stored
      · exact .inr (.inl waiting)
      · exact .inr (.inr ⟨coming, same⟩)

theorem Progress.pass (sound : Sound k₀.map) (tables : KernelTables p4 zeroPage k₀)
    (limits : ∀ s ∈ k₀.map.available.spans.tail, limit ≤ s.lo)
    (progress : Progress p4 zeroPage k₀ limit i pend (fun _ => False) k)
    (inside : i < k.map.available.count)
    (found : regionPages (k.map.available.regions i) = .ok pages)
    (ran : pages.foldlM (mapPage p4) k = .ok k') :
    ∃ pend', Progress p4 zeroPage k₀ limit (i + 1) pend' (fun _ => False) k' := by
  obtain ⟨pend', later, entered⟩ := progress.enter limits inside
  have steady := progress.steady
  obtain ⟨front, rear, split, -⟩ := exists_split inside
  have member : k.map.available.regions i ∈ k.map.available.live := by simp [split]
  generalize k.map.available.regions i = rg at *
  obtain ⟨high, low⟩ := steady.sound.region_range member
  rw [regionPages_eq high low] at found
  cases found
  have listed : ∀ page, page ∈ pagesOf rg.span ↔
      pageSize ∣ page ∧ rg.base ≤ page ∧ page + pageSize ≤ rg.base + rg.len := fun page =>
    mem_pagesOf (lt_of_lt_of_le (Nat.lt_add_of_pos_right (steady.sound.sorted.positive member)) low)
  have whole : ∀ page ∈ pagesOf rg.span, WholePage k₀.map page := by
    intro page inside
    obtain ⟨aligned, from_, to_⟩ := (listed page).mp inside
    refine ⟨aligned, sound.sorted.separated.interval (lt_next_page page) fun x above below => ?_⟩
    exact steady.fewer x (covers_of_mem member (by omega) (by omega))
  have finished : Progress p4 zeroPage k₀ limit (i + 1) pend'
      (fun page => (rg.base ≤ page ∧ page + pageSize ≤ rg.base + rg.len) ∧ page ∉ pagesOf rg.span) k' := by
    refine loop_invariant (fun done cur => Progress p4 zeroPage k₀ limit (i + 1) pend'
      (fun page => (rg.base ≤ page ∧ page + pageSize ≤ rg.base + rg.len) ∧ page ∉ done) cur) ?_ ?_ ran
    · simpa using entered
    · intro done page rest cur next split progress step
      have own : page ∈ pagesOf rg.span := by simp [split]
      have advanced := progress.page sound tables (whole page own) (fun s pending => (later s pending).1)
        (fun s pending => ((listed page).mp own).2.2.trans (later s pending).2) step
      simpa [and_assoc, not_or] using advanced
  exact ⟨pend', finished.leave fun page whole' todo => todo.2 ((listed page).mpr ⟨whole'.1, todo.1⟩)⟩

/-- How many whole pages the lowest region has below the mapped end. -/
def lowestPages (m : MemMap) : Nat :=
  match m.available.spans with
  | [] => 0
  | s :: _ => (min s.hi m.highestMapped - alignUp s.lo) / pageSize

/-- The lowest region has a page for every table that all regions but the last need, and one
more. For those of the last region too it has enough, or all regions have a page boundary. -/
structure EnoughTables (p4 : PhysAddr) (k : Boot) : Prop where
  ahead : needed p4 k k.map.available.spans.dropLast = 0 ∨
    needed p4 k k.map.available.spans.dropLast < lowestPages k.map
  all : needed p4 k k.map.available.spans ≤ lowestPages k.map ∨ OnBoundary k.map

instance (p4 : PhysAddr) (k : Boot) : Decidable (EnoughTables p4 k) :=
  decidable_of_iff (_ ∧ _) ⟨fun both => ⟨both.1, both.2⟩, fun enough => ⟨enough.ahead, enough.all⟩⟩

theorem EnoughTables.ready (sound : Sound k.map) (enough : EnoughTables p4 k) :
    ∃ limit, (∀ s ∈ k.map.available.spans.tail, limit ≤ s.lo) ∧
      Ready limit k.map.available.spans (needed p4 k k.map.available.spans.dropLast)
        (needed p4 k k.map.available.spans) k.map := by
  have order := sound.sorted.separated
  obtain ⟨ahead, all⟩ := enough
  cases spans : k.map.available.spans with
  | nil =>
    refine ⟨0, by simp, fun some => absurd rfl some, .inr fun s member => ?_⟩
    rw [spans] at member
    exact absurd member not_mem_nil
  | cons first rest =>
    rw [spans] at order ahead all
    have lowest : ∀ c ≤ lowestPages k.map, Stock first.hi c k.map := by
      intro c few some
      rw [lowestPages, spans] at few
      have pages := (Nat.mul_le_mul_right pageSize few).trans (Nat.div_mul_le_self _ _)
      have positive : 0 < c * pageSize := Nat.mul_pos some (by decide)
      refine ⟨first, by simp [spans], le_refl _, by omega, by omega, fun s member before => ?_⟩
      rw [spans] at member
      have later := order.lo_le ⟨s, member, le_refl _, order.proper s member⟩
      omega
    refine ⟨first.hi, fun s member => ((List.pairwise_cons.mp order.apart).1 s member).le,
      fun _ positive => ?_, all.imp_left (lowest _)⟩
    exact lowest _ (ahead.resolve_left positive.ne')

end Loops

/-! ## The whole call -/

section Whole

variable {p4 : PhysAddr} {zeroPage : BitVec 64} {k₀ k k' : Boot} {kernEnd : Nat}
    {entries : List Entry} {tags : List Tag}

end Whole

end ByteOS.Mm.MapAll
