import ByteOS.Mm.MmapInsert

/-! What `mmap_alloc_low` hands out, and what it leaves in the memory map. -/

set_option autoImplicit false

namespace ByteOS.Mm.Mmap

open Lib
open List (mem_append mem_cons mem_singleton map_cons)
open Region (span)

variable {m m' : MemMap} {n allocFlags i : Nat} {r : Region}

section Scan

theorem wordSub_eq {a b : Nat} (le : b ≤ a) (bound : a < wordMod) : wordSub a b = a - b := by
  have small : b % wordMod = b := Nat.mod_eq_of_lt (by omega)
  rw [wordSub, small]
  unfold wordMod at *
  omega

theorem wordSub_le {a b : Nat} (le : b ≤ a) (bound : b < wordMod) : wordSub a b ≤ a - b := by
  rw [wordSub, Nat.mod_eq_of_lt bound]
  have shift : a + (wordMod - b) = (a - b) + wordMod := by omega
  rw [shift, Nat.add_mod_right]
  exact Nat.mod_le _ _

/-- The first region below the mapped end in which the code finds room for `n` bytes. -/
def serving (m : MemMap) (n allocFlags : Nat) : Option Region :=
  m.available.live.find? fun rg => rg.base < m.highestMapped ∧ n ≤ availableBytes m rg allocFlags

/-- The region reaches the place where the allocation would start. -/
def ReachesAligned (rg : Region) (allocFlags : Nat) : Prop :=
  effectiveBase rg allocFlags ≤ rg.base + rg.len

instance (rg : Region) (allocFlags : Nat) : Decidable (ReachesAligned rg allocFlags) :=
  inferInstanceAs (Decidable (_ ≤ _))

variable {rg : Region}

theorem serving_spec (served : serving m n allocFlags = some rg) :
    rg ∈ m.available.live ∧ rg.base < m.highestMapped ∧ n ≤ availableBytes m rg allocFlags := by
  have passes := List.find?_some served
  exact ⟨List.mem_of_find?_eq_some served, of_decide_eq_true passes⟩

theorem serving_first {other : Region} (served : serving m n allocFlags = some rg)
    (ordered : m.available.live.Pairwise fun a b => a.base ≤ b.base)
    (member : other ∈ m.available.live) (before : other.base < rg.base) :
    ¬ (other.base < m.highestMapped ∧ n ≤ availableBytes m other allocFlags) := by
  obtain ⟨-, front, rear, split, passed⟩ := List.find?_eq_some_iff_append.mp served
  rw [split] at member ordered
  rcases mem_append.mp member with early | late
  · simpa only [Bool.not_eq_true', decide_eq_false_iff_not] using passed other early
  · rcases mem_cons.mp late with rfl | late
    · omega
    · have later := (List.pairwise_cons.mp (List.pairwise_append.mp ordered).2.1).1 other late
      omega

variable {left start : Nat}

/-- In a list that is in order the loop does not miss a region by stopping at the mapped end. -/
theorem findRegion_eq (whole : start + left = m.available.count)
    (ordered : m.available.live.Pairwise fun a b => a.base ≤ b.base) :
    (findRegion m n allocFlags left start).map m.available.regions =
      (m.available.live.drop start).find? fun rg =>
        rg.base < m.highestMapped ∧ n ≤ availableBytes m rg allocFlags := by
  induction left generalizing start with
  | zero =>
    rw [List.drop_of_length_le (by rw [live_length]; omega)]
    rfl
  | succ left ih =>
    obtain ⟨pre, rest, split, rfl⟩ := exists_split (t := m.available) (i := start) (by omega)
    have later : m.available.live.drop (pre.length + 1) = rest := by
      rw [split, List.drop_append, List.drop_of_length_le (Nat.le_succ _)]
      simp
    have here : m.available.live.drop pre.length = m.available.regions pre.length :: rest := by
      rw [split, List.drop_left]
    rw [findRegion, here]
    split
    case isTrue beyond =>
      rw [split, List.pairwise_append, List.pairwise_cons] at ordered
      refine (List.find?_eq_none.mpr fun rg member passes => ?_).symm
      have below := (of_decide_eq_true passes).1
      obtain rfl | member := mem_cons.mp member
      · omega
      · have above := ordered.2.1.1 rg member
        omega
    case isFalse below =>
      have low := not_le.mp below
      split
      case isTrue enough =>
        rw [List.find?_cons_of_pos (by simp [low, enough])]
        rfl
      case isFalse short =>
        rw [List.find?_cons_of_neg (by simp [short]), ih (by omega), later]

theorem serving_eq (n allocFlags : Nat)
    (ordered : m.available.live.Pairwise fun a b => a.base ≤ b.base) : serving m n allocFlags =
      (findRegion m n allocFlags m.available.count 0).map m.available.regions :=
  (findRegion_eq (Nat.zero_add _) ordered).symm

theorem findRegion_lt (found : findRegion m n allocFlags left start = some i) :
    i < start + left := by
  induction left generalizing start with
  | zero => exact nomatch found
  | succ left ih =>
    rw [findRegion] at found
    split at found
    case isTrue => exact nomatch found
    case isFalse =>
      split at found
      case isTrue =>
        cases found
        omega
      case isFalse =>
        have bound := ih found
        omega

theorem alignUp_spec {val h : Nat} (aligned : pageSize ∣ h) (bound : h < wordMod)
    (below : val < h) : val ≤ alignUp val ∧ alignUp val ≤ h ∧ pageSize ∣ alignUp val := by
  obtain ⟨k, rfl⟩ := aligned
  unfold pageSize wordMod at *
  have noWrap : (val + 4095) % 2 ^ 64 = val + 4095 := Nat.mod_eq_of_lt (by omega)
  unfold alignUp pageSize wordMod
  simp only [Nat.reduceSub, noWrap]
  refine ⟨by omega, by omega, ?_⟩
  exact Nat.dvd_sub_mod _

theorem effectiveBase_spec (aligned : pageSize ∣ m.highestMapped)
    (bound : m.highestMapped < wordMod) (below : rg.base < m.highestMapped) (allocFlags : Nat) :
    rg.base ≤ effectiveBase rg allocFlags ∧ effectiveBase rg allocFlags ≤ m.highestMapped ∧
      (allocFlags &&& mmapAllocPa ≠ 0 → pageSize ∣ effectiveBase rg allocFlags) := by
  unfold effectiveBase
  split
  case isTrue =>
    obtain ⟨above, inside, multiple⟩ := alignUp_spec aligned bound below
    exact ⟨above, inside, fun _ => multiple⟩
  case isFalse plain => exact ⟨le_rfl, below.le, fun flagged => absurd flagged plain⟩

end Scan

section Bounds

variable {rg : Region}

section

variable (aligned : pageSize ∣ m.highestMapped) (bound : m.highestMapped < wordMod)
    (below : rg.base < m.highestMapped)
include aligned bound below

theorem padding_eq (allocFlags : Nat) :
    wordSub (effectiveBase rg allocFlags) rg.base = effectiveBase rg allocFlags - rg.base := by
  obtain ⟨above, inside, _⟩ := effectiveBase_spec aligned bound below allocFlags
  exact wordSub_eq above (by omega)

theorem availableBytes_mapped (allocFlags : Nat) :
    availableBytes m rg allocFlags ≤ m.highestMapped - effectiveBase rg allocFlags :=
  (min_le_left _ _).trans
    (wordSub_eq (effectiveBase_spec aligned bound below allocFlags).2.1 bound).le

variable (reaches : ReachesAligned rg allocFlags)
include reaches

/-- What the code takes for the usable length is no more than it, if the region reaches
the effective base, and is all of it where the length does not wrap around. -/
theorem effectiveLen_spec : effectiveLen rg allocFlags ≤ rg.base + rg.len - effectiveBase rg allocFlags ∧
      (rg.base + rg.len < wordMod →
        effectiveLen rg allocFlags = rg.base + rg.len - effectiveBase rg allocFlags) := by
  obtain ⟨above, inside, _⟩ := effectiveBase_spec aligned bound below allocFlags
  unfold ReachesAligned at reaches
  unfold effectiveLen
  split
  case isTrue =>
    rw [padding_eq aligned bound below allocFlags]
    have le := wordSub_le (a := rg.len) (b := effectiveBase rg allocFlags - rg.base) (by omega) (by omega)
    refine ⟨by omega, fun noWrap => ?_⟩
    rw [wordSub_eq (by omega) (by omega)]
    omega
  case isFalse plain =>
    have base : effectiveBase rg allocFlags = rg.base := if_neg plain
    omega

theorem availableBytes_le :
    availableBytes m rg allocFlags ≤ rg.base + rg.len - effectiveBase rg allocFlags :=
  (min_le_right _ _).trans (effectiveLen_spec aligned bound below reaches).1

theorem availableBytes_eq (noWrap : rg.base + rg.len < wordMod) : availableBytes m rg allocFlags =
    min (m.highestMapped - effectiveBase rg allocFlags)
      (rg.base + rg.len - effectiveBase rg allocFlags) := by
  rw [availableBytes, (effectiveLen_spec aligned bound below reaches).2 noWrap,
    wordSub_eq (effectiveBase_spec aligned bound below allocFlags).2.1 bound]

end

/-- What an allocation that returns has done to the region that serves it. -/
theorem mmapAllocLow_cases (ordered : m.available.live.Pairwise fun a b => a.base ≤ b.base)
    (ran : mmapAllocLow m n allocFlags = .ok (m', r)) :
    ∃ rg pre rest available reserved final, serving m n allocFlags = some rg ∧
      m.available.live = pre ++ rg :: rest ∧ r = ⟨effectiveBase rg allocFlags, n, rg.flags⟩ ∧
      0 < r.base ∧ cutPadding m pre.length allocFlags = .ok available ∧
      mmapInsertRegion m.reserved r.base r.len r.flags = .ok reserved ∧
      (if availableBytes m rg allocFlags - n > 0 then
          mmapInsertRegion available ((r.base + n) % wordMod)
            (availableBytes m rg allocFlags - n) (available.regions pre.length).flags
        else .ok available) = .ok final ∧
      m' = { m with available := final, reserved := reserved } := by
  unfold mmapAllocLow at ran
  split at ran
  case h_1 i found =>
    have served := serving_eq n allocFlags ordered
    rw [found] at served
    have inside := findRegion_lt found
    obtain ⟨pre, rest, split, rfl⟩ := exists_split (t := m.available) (i := i) (by omega)
    obtain ⟨available, cut, ran⟩ := bind_eq_ok.mp ran
    obtain ⟨reserved, took, ran⟩ := bind_eq_ok.mp ran
    obtain ⟨final, remained, ran⟩ := bind_eq_ok.mp ran
    obtain ⟨_, asserted, ran⟩ := bind_eq_ok.mp ran
    cases ran
    have positive := (kassert_eq_ok.mp asserted).1
    exact ⟨_, pre, rest, available, reserved, final, served, split, rfl, positive, cut, took, remained, rfl⟩
  case h_2 => exact nomatch ran

/-- An allocation lies in one available region and below the mapped end exactly if the region
that serves it reaches its first aligned address, or another available region happens to hold
the bytes from there on. -/
theorem alloc_inside_available (aligned : pageSize ∣ m.highestMapped)
    (bound : m.highestMapped < wordMod)
    (sorted : m.available.live.Pairwise fun a b => a.base + a.len ≤ b.base)
    (ran : mmapAllocLow m n allocFlags = .ok (m', r)) :
    (r.len = n ∧ (∃ rg ∈ m.available.live, rg.base ≤ r.base ∧ r.base + n ≤ rg.base + rg.len) ∧
      r.base + n ≤ m.highestMapped ∧ (allocFlags &&& mmapAllocPa ≠ 0 → pageSize ∣ r.base)) ↔
    ∀ rg, serving m n allocFlags = some rg → ReachesAligned rg allocFlags ∨
      ∃ other ∈ m.available.live, other.base ≤ effectiveBase rg allocFlags ∧
        effectiveBase rg allocFlags + n ≤ other.base + other.len := by
  have ordered : m.available.live.Pairwise fun a b => a.base ≤ b.base :=
    sorted.imp fun less => (Nat.le_add_right _ _).trans less
  obtain ⟨rg, -, -, -, -, -, served, -, rfl, -⟩ := mmapAllocLow_cases ordered ran
  obtain ⟨member, below, enough⟩ := serving_spec served
  constructor
  · rintro ⟨-, inside, -⟩ other served'
    cases served.symm.trans served'
    exact .inr inside
  · intro reaches
    obtain ⟨above, mapped, multiple⟩ := effectiveBase_spec aligned bound below allocFlags
    have first := availableBytes_mapped aligned bound below allocFlags
    refine ⟨rfl, ?_, by dsimp only; omega, multiple⟩
    obtain reached | inside := reaches rg served
    · have second := availableBytes_le aligned bound below reached
      unfold ReachesAligned at reached
      exact ⟨rg, member, above, by dsimp only; omega⟩
    · exact inside

def onePage : MemMap := ⟨0x200000, ⟨1, fun _ => ⟨0x1000, 0x1000, .none⟩⟩, ⟨0, fun _ => ⟨0, 0, .none⟩⟩⟩

theorem onePage_serves : ∃ m' r, mmapAllocLow onePage 0x800 mmapAllocPa = .ok (m', r) := by
  have finished : ((mmapAllocLow onePage 0x800 mmapAllocPa).toOption.map
      fun result => result.2.base) = some 0x1000 := by
    decide +kernel
  obtain ⟨⟨m', r⟩, ran, _⟩ := toOption_map_eq_some.mp finished
  exact ⟨m', r, ran⟩

theorem alloc_inside_available_onePage : ∃ m' r, mmapAllocLow onePage 0x800 mmapAllocPa = .ok (m', r) ∧
      r.len = 0x800 ∧ r.base + 0x800 ≤ 0x200000 := by
  obtain ⟨m', r, ran⟩ := onePage_serves
  have inside := alloc_inside_available (by decide) (by decide) (List.pairwise_singleton _ _) ran
  obtain ⟨len, -, mapped, -⟩ := inside.mpr fun rg served => by
    obtain rfl := mem_singleton.mp (show rg ∈ [_] from (serving_spec served).1)
    exact .inl (by decide)
  exact ⟨m', r, ran, len, mapped⟩

/-- A region of 16 bytes that does not reach a page boundary: the length wraps around, and
the page above it is handed out. -/
theorem alloc_outside_available :
    ∃ m m' r, pageSize ∣ m.highestMapped ∧ m.available.Sorted ∧
      mmapAllocLow m pageSize mmapAllocPa = .ok (m', r) ∧
      r.base = 0x2000 ∧ ∀ x, r.base ≤ x → ¬ Covered m.available.spans x := by
  let m : MemMap := ⟨0x200000, ⟨1, fun _ => ⟨0x1001, 0x10, .none⟩⟩, ⟨0, fun _ => ⟨0, 0, .none⟩⟩⟩
  have finished : ((mmapAllocLow m pageSize mmapAllocPa).toOption.map fun result => result.2.base) =
      some 0x2000 := by
    decide +kernel
  obtain ⟨⟨m', r⟩, ran, base⟩ := toOption_map_eq_some.mp finished
  have spans : m.available.spans = [⟨0x1001, 0x1011⟩] := rfl
  refine ⟨m, m', r, by decide, ⟨?_, ?_⟩, ran, base, fun x above inside => ?_⟩
  · rw [spans]
    exact ⟨by simp, by simp⟩
  · intro rg inside
    obtain rfl := mem_singleton.mp (show rg ∈ [_] from inside)
    decide
  · rw [spans] at inside
    simp only [covered_cons, covered_nil, or_false, Span.Covers] at inside
    dsimp only at base
    omega

end Bounds

variable {x : Nat}

section Conservation

variable {t : MmapType} {pre rest : List Region} {rg : Region}

section

variable (separated : Separated t.spans) (split : t.live = pre ++ rg :: rest)
include separated split

/-- The bytes of the other regions are not even next to those of a region. -/
theorem others_apart (covered : Covered (pre.map span ++ rest.map span) x) :
    x + 1 < rg.base ∨ rg.base + rg.len < x := by
  rw [spans_split split, map_cons, separated_middle] at separated
  obtain ⟨_, _, below, above⟩ := separated
  obtain ⟨s, inside, from_, to_⟩ := covered
  rcases mem_append.mp inside with front | rear
  · have less := below s front
    simp only [span] at less
    omega
  · have less := above s rear
    simp only [span] at less
    omega

theorem covered_removeAt (x : Nat) : Covered (t.removeAt pre.length).spans x ↔
    Covered t.spans x ∧ ¬ (rg.base ≤ x ∧ x < rg.base + rg.len) := by
  have apart := others_apart separated split (x := x)
  rw [spans_split split, spans_split (live_removeAt split), map_cons, covered_middle]
  constructor
  · exact fun other => ⟨.inr other, by have := apart other; omega⟩
  · rintro ⟨own | other, outside⟩
    · exact absurd own outside
    · exact other

/-- The bytes next to a region are in no other one. -/
theorem not_covered_beside (beside : x + 1 = rg.base ∨ x = rg.base + rg.len) :
    ¬ Covered t.spans x := by
  rw [spans_split split, map_cons, covered_middle]
  rintro (own | other)
  · simp only [span, Span.Covers] at own
    omega
  · have apart := others_apart separated split other
    omega

end

theorem MmapType.Below.removeAt {top : Nat} (low : t.Below top)
    (split : t.live = pre ++ rg :: rest) : (t.removeAt pre.length).Below top := by
  intro other member
  rw [live_removeAt split] at member
  refine low other ?_
  simp only [split, mem_append, mem_cons] at member ⊢
  exact member.imp_right .inr

theorem ordered_of_separated (separated : Separated t.spans) :
    t.live.Pairwise fun a b => a.base ≤ b.base := by
  refine (List.pairwise_map.mp separated.apart).imp fun less => ?_
  simp only [span] at less
  omega

theorem base_pos (positive : 0 < effectiveBase rg allocFlags) : 0 < rg.base := by
  refine Nat.pos_of_ne_zero fun zero => positive.ne' ?_
  unfold effectiveBase
  rw [zero]
  split <;> rfl

section Pieces

variable {available final : MmapType} (split : m.available.live = pre ++ rg :: rest)
    (separated : Separated m.available.spans) (low : m.available.Below wordMod)
    (aligned : pageSize ∣ m.highestMapped) (bound : m.highestMapped < wordMod)
    (below : rg.base < m.highestMapped) (positive : 0 < effectiveBase rg allocFlags)
    (cut : cutPadding m pre.length allocFlags = .ok available)
include split separated low aligned bound below positive cut

theorem cutPadding_adds : Adds (m.available.removeAt pre.length) available rg.base
    (effectiveBase rg allocFlags - rg.base) := by
  obtain ⟨here, inside⟩ := regions_of_split split
  obtain ⟨above, mapped, _⟩ := effectiveBase_spec aligned bound below allocFlags
  have start := base_pos positive
  rw [cutPadding, mmapDeleteRegion, kassert, if_pos inside, here,
    padding_eq aligned bound below allocFlags] at cut
  change (if _ then _ else _) = _ at cut
  split at cut
  case isTrue =>
    -- the byte in front of the region stays free
    have free := not_covered_beside separated split (x := rg.base - 1) (.inl (by omega))
    refine mmapInsertRegion_adds (fun _ => ⟨low.removeAt split, by omega, .inr ⟨start.ne', ?_⟩⟩) cut
    refine ⟨rg.base - 1, by omega, fun inside => free ?_, by omega⟩
    exact ((covered_removeAt separated split _).mp inside).1
  case isFalse plain =>
    cases cut
    have base : effectiveBase rg allocFlags = rg.base := if_neg plain
    rw [base, Nat.sub_self]
    exact adds_nothing _ _

theorem remainder_adds {flags : RegionFlags} (enough : n ≤ availableBytes m rg allocFlags)
    (remained : (if availableBytes m rg allocFlags - n > 0 then
        mmapInsertRegion available ((effectiveBase rg allocFlags + n) % wordMod)
          (availableBytes m rg allocFlags - n) flags
      else .ok available) = .ok final) :
    Adds available final (effectiveBase rg allocFlags + n) (availableBytes m rg allocFlags - n) := by
  have padded := cutPadding_adds split separated low aligned bound below positive cut
  obtain ⟨above, inside, _⟩ := effectiveBase_spec aligned bound below allocFlags
  have mapped := availableBytes_mapped aligned bound below allocFlags
  have start := base_pos positive
  rw [Nat.mod_eq_of_lt (by omega)] at remained
  split at remained
  case isTrue =>
    have free := not_covered_beside separated split (x := rg.base - 1) (.inl (by omega))
    have low' := padded.below _ (low.removeAt split) (by omega)
    refine mmapInsertRegion_adds (fun _ => ⟨low', by omega, .inr ⟨by omega, ?_⟩⟩) remained
    refine ⟨rg.base - 1, by omega, fun covered => ?_, by omega⟩
    rw [padded.covered, covered_removeAt separated split] at covered
    exact covered.elim (fun old => free old.1) fun new => by omega
  case isFalse none =>
    cases remained
    have zero : availableBytes m rg allocFlags - n = 0 := by omega
    rw [zero]
    exact adds_nothing _ _

end Pieces

/-- An allocation takes exactly its own bytes from the available ones and adds them to the
reserved ones exactly if the region that serves it reaches its first aligned address and is
mapped as a whole. Some address has to be in no region: a reserved region of all of them would
have the length 0. -/
theorem alloc_conserves_memory (aligned : pageSize ∣ m.highestMapped)
    (bound : m.highestMapped < wordMod) (separated : Separated m.available.spans)
    (low : m.available.Below wordMod) (low' : m.reserved.Below wordMod)
    (spare : ∃ x < wordMod, ¬ Covered m.available.spans x ∧ ¬ Covered m.reserved.spans x)
    (ran : mmapAllocLow m n allocFlags = .ok (m', r)) :
    ((∀ x, Covered m'.available.spans x ↔
        Covered m.available.spans x ∧ ¬ (r.base ≤ x ∧ x < r.base + r.len)) ∧
      ∀ x, Covered m'.reserved.spans x ↔
        Covered m.reserved.spans x ∨ r.base ≤ x ∧ x < r.base + r.len) ↔
    ∀ rg, serving m n allocFlags = some rg →
      ReachesAligned rg allocFlags ∧ rg.base + rg.len ≤ m.highestMapped := by
  obtain ⟨rg, pre, rest, available, reserved, final, served, split, rfl, positive, cut, took,
      remained, rfl⟩ :=
    mmapAllocLow_cases (ordered_of_separated separated) ran
  obtain ⟨member, below, enough⟩ := serving_spec served
  have padded := cutPadding_adds split separated low aligned bound below positive cut
  have rest := remainder_adds split separated low aligned bound below positive cut enough remained
  obtain ⟨above, inside, _⟩ := effectiveBase_spec aligned bound below allocFlags
  have mapped := availableBytes_mapped aligned bound below allocFlags
  have after : ∀ x, Covered final.spans x ↔
      ((Covered m.available.spans x ∧ ¬ (rg.base ≤ x ∧ x < rg.base + rg.len)) ∨
        rg.base ≤ x ∧ x < rg.base + (effectiveBase rg allocFlags - rg.base)) ∨
      effectiveBase rg allocFlags + n ≤ x ∧
        x < effectiveBase rg allocFlags + n + (availableBytes m rg allocFlags - n) := fun x => by
    rw [rest.covered, padded.covered, covered_removeAt separated split]
  have positiveLen : 0 < rg.len := by
    have proper := separated.proper rg.span (List.mem_map_of_mem member)
    simp only [span] at proper
    omega
  dsimp only at took positive ⊢
  constructor
  · rintro ⟨conserved, -⟩ other served'
    cases served.symm.trans served'
    have reaches : ReachesAligned rg allocFlags := by
      by_contra short
      unfold ReachesAligned at short
      -- the padding covers the byte behind the region
      refine not_covered_beside separated split (.inr rfl) ((conserved _).mp ?_).1
      exact (after _).mpr (.inl (.inr ⟨by omega, by omega⟩))
    refine ⟨reaches, ?_⟩
    by_contra beyond
    have last : Covered m.available.spans (rg.base + rg.len - 1) :=
      covers_of_mem member (by omega) (by omega)
    have kept := (after _).mp ((conserved _).mpr ⟨last, by omega⟩)
    omega
  · intro condition
    obtain ⟨reaches, whole⟩ := condition rg served
    have bytes : availableBytes m rg allocFlags = rg.base + rg.len - effectiveBase rg allocFlags := by
      rw [availableBytes, (effectiveLen_spec aligned bound below reaches).2 (by omega),
        wordSub_eq (by omega) bound]
      omega
    unfold ReachesAligned at reaches
    have own : ∀ x, rg.base ≤ x → x < rg.base + rg.len → Covered m.available.spans x :=
      fun x from_ to_ => covers_of_mem member from_ to_
    refine ⟨fun x => ?_,
      (mmapInsertRegion_adds (fun _ => ⟨low', by omega, .inr ⟨by omega, ?_⟩⟩) took).covered⟩
    · rw [after]
      by_cases here : Covered m.available.spans x
      · simp only [here, true_and]
        omega
      · have outside : ¬ (rg.base ≤ x ∧ x < rg.base + rg.len) := fun both => here (own x both.1 both.2)
        simp only [here, false_and, false_or, iff_false]
        omega
    · obtain ⟨x, small, unavailable, unreserved⟩ := spare
      exact ⟨x, small, unreserved, fun both => unavailable (own x (by omega) (by omega))⟩

theorem alloc_conserves_memory_onePage : ∃ m' r, mmapAllocLow onePage 0x800 mmapAllocPa = .ok (m', r) ∧
      ∀ x, Covered m'.available.spans x ↔ Covered onePage.available.spans x ∧
      ¬ (r.base ≤ x ∧ x < r.base + r.len) := by
  obtain ⟨m', r, ran⟩ := onePage_serves
  have only : ∀ rg ∈ onePage.available.live, rg = ⟨0x1000, 0x1000, .none⟩ :=
    fun rg inside => mem_singleton.mp inside
  have separated : Separated onePage.available.spans := by
    constructor <;> simp [onePage, MmapType.spans, MmapType.live, span]
  have spare : ¬ Covered onePage.available.spans 0 ∧ ¬ Covered onePage.reserved.spans 0 := by
    constructor <;> simp [onePage, MmapType.spans, MmapType.live, span, Span.Covers]
  have conserved := (alloc_conserves_memory (by decide) (by decide) separated
    (fun rg inside => only rg inside ▸ by decide) (fun rg inside => absurd inside List.not_mem_nil)
    ⟨0, by decide, spare⟩ ran).mpr fun rg served => only rg (serving_spec served).1 ▸ by decide
  exact ⟨m', r, ran, conserved.1⟩

/-- A region that extends beyond the mapped memory loses the part that does. -/
theorem alloc_drops_unmapped :
    ∃ m m' r, pageSize ∣ m.highestMapped ∧ m.available.Sorted ∧ mmapAllocLow m 0x1000 0 = .ok (m', r) ∧
      r.base = 0x100000 ∧ r.len = 0x1000 ∧ Covered m.available.spans 0x200000 ∧
      ¬ Covered m'.available.spans 0x200000 := by
  let m : MemMap := ⟨0x200000, ⟨1, fun _ => ⟨0x100000, 0x200000, .none⟩⟩, ⟨0, fun _ => ⟨0, 0, .none⟩⟩⟩
  have finished : ((mmapAllocLow m 0x1000 0).toOption.map fun result =>
      (result.2.base, result.2.len, result.1.available.spans)) =
        some (0x100000, 0x1000, [⟨0x101000, 0x200000⟩]) := by
    decide +kernel
  obtain ⟨⟨m', r⟩, ran, values⟩ := toOption_map_eq_some.mp finished
  simp only [Prod.mk.injEq] at values
  obtain ⟨base, len, after⟩ := values
  have spans : m.available.spans = [⟨0x100000, 0x300000⟩] := by
    simp [m, MmapType.spans, MmapType.live, span]
  refine ⟨m, m', r, by decide, ⟨?_, fun rg inside => ?_⟩, ran, base, len, ?_, ?_⟩
  · rw [spans]
    exact ⟨by simp, by simp⟩
  · obtain rfl := mem_singleton.mp (show rg ∈ [_] from inside)
    decide
  · rw [spans]
    simp [Span.Covers]
  · rw [after]
    simp [Span.Covers]

end Conservation

section Remainder

variable {t t' : MmapType} {front rear : List (Span Nat)} {addr len : Nat} {flags : RegionFlags}

def gap (addr len : Nat) : List (Span Nat) := if len = 0 then [] else [⟨addr, addr + len⟩]

theorem gap_length : (gap addr len).length = if len = 0 then 0 else 1 := by
  unfold gap
  split <;> rfl

theorem mem_gap {s : Span Nat} : s ∈ gap addr len ↔ len ≠ 0 ∧ s = ⟨addr, addr + len⟩ := by
  unfold gap
  split <;> simp [*]

theorem covered_gap : Covered (gap addr len) x ↔ addr ≤ x ∧ x < addr + len := by
  unfold gap
  split
  case isTrue zero => simp [zero]
  case isFalse => simp [Span.Covers]

theorem insert_between (sorted : t.Sorted) (small : t.count ≤ maxRegions)
    (spans : t.spans = front ++ rear) (bound : addr + len < wordMod)
    (below : ∀ s ∈ front, s.hi < addr) (above : ∀ s ∈ rear, addr + len < s.lo)
    (ran : mmapInsertRegion t addr len flags = .ok t') :
    t'.spans = front ++ gap addr len ++ rear ∧ t'.Sorted ∧ t'.count ≤ maxRegions := by
  by_cases empty : len = 0
  · subst empty
    obtain ⟨-, -, ran⟩ := bind_eq_ok.mp ran
    rw [if_pos rfl] at ran
    cases ran
    exact ⟨by simp [gap, spans], sorted, small⟩
  · have place : Separated (front ++ ⟨addr, addr + len⟩ :: rear) := by
      rw [separated_middle]
      exact ⟨by dsimp only; omega, spans ▸ sorted.separated, below, above⟩
    have fits : Fits t addr len := by
      refine ⟨Nat.pos_of_ne_zero empty, bound, ?_⟩
      rintro x low high ⟨s, inside, from_, to_⟩
      rw [spans] at inside
      rcases mem_append.mp inside with member | member
      · have less := below s member
        omega
      · have less := above s member
        omega
    have notBelow : ¬ OnlyBelow t addr len := by
      rintro ⟨⟨rg, member, touches⟩, -⟩
      have inside : rg.span ∈ front ++ rear := spans ▸ List.mem_map_of_mem member
      have positive := sorted.positive member
      rcases mem_append.mp inside with early | late
      · have less := below _ early
        simp only [span] at less
        omega
      · have less := above _ late
        simp only [span] at less
        omega
    obtain ⟨l, separated, covers, ⟨t'', ran', rfl⟩ | ⟨failed, -⟩⟩ :=
      mmapInsertRegion_sorted sorted fits notBelow small flags
    · obtain rfl := Except.ok.inj (ran.symm.trans ran')
      have adds := mmapInsertRegion_adds (fun _ => .of_bounded sorted.bounded bound) ran
      refine ⟨?_, ⟨separated, adds.bounded sorted.bounded bound⟩, mmapInsertRegion_small small ran⟩
      rw [gap, if_neg empty, List.append_assoc, List.singleton_append]
      refine separated.unique place fun x => ?_
      rw [covers, spans, covered_middle, or_comm]
      rfl
    · rw [ran] at failed
      simp at failed

/-- An allocation replaces the region that serves it by what is left below and above it in
the mapped part of the region. -/
theorem mmapAllocLow_spans (positive : 0 < n) (aligned : pageSize ∣ m.highestMapped)
    (bound : m.highestMapped < wordMod) (sorted : m.available.Sorted)
    (small : m.available.count ≤ maxRegions) (reaches : ∀ rg, serving m n allocFlags = some rg →
      ReachesAligned rg allocFlags)
    (ran : mmapAllocLow m n allocFlags = .ok (m', r)) :
    ∃ rg front rear, serving m n allocFlags = some rg ∧
      m.available.spans = front ++ rg.span :: rear ∧ r.base = effectiveBase rg allocFlags ∧
      m'.available.spans = front ++ gap rg.base (r.base - rg.base) ++
        gap (r.base + n) (availableBytes m rg allocFlags - n) ++ rear ∧
      m'.available.Sorted ∧ m'.available.count ≤ maxRegions ∧ m'.highestMapped = m.highestMapped := by
  obtain ⟨rg, pre, rest, available, reserved, final, served, split, rfl, -, cut, -, remained, rfl⟩ :=
    mmapAllocLow_cases (ordered_of_separated sorted.separated) ran
  obtain ⟨member, below, enough⟩ := serving_spec served
  obtain ⟨here, inside⟩ := regions_of_split split
  have reached := reaches _ served
  have noWrap := sorted.bounded _ member
  refine ⟨rg, pre.map span, rest.map span, served, ?_⟩
  rw [cutPadding, mmapDeleteRegion, kassert, if_pos inside, here] at cut
  obtain ⟨above, mapped, -⟩ := effectiveBase_spec aligned bound below allocFlags
  have fits := availableBytes_le aligned bound below reached
  unfold ReachesAligned at reached
  have separated := sorted.separated
  rw [spans_split split, map_cons, separated_middle] at separated
  obtain ⟨-, others, lower, upper⟩ := separated
  have removed : (m.available.removeAt pre.length).Sorted :=
    ⟨by rwa [spans_split (live_removeAt split)],
      MmapType.bounded_iff.mpr ((MmapType.bounded_iff.mp sorted.bounded).removeAt split)⟩
  have padded : available.spans = pre.map span ++ gap rg.base (effectiveBase rg allocFlags - rg.base) ++
      rest.map span ∧ available.Sorted ∧ available.count ≤ maxRegions := by
    change (if _ then _ else _) = _ at cut
    split at cut
    case isTrue =>
      rw [padding_eq aligned bound below allocFlags] at cut
      refine insert_between removed ((Nat.sub_le _ _).trans small)
        (spans_split (live_removeAt split)) (by omega) lower (fun s late => ?_) cut
      have beyond := upper s late
      simp only [span] at beyond
      omega
    case isFalse plain =>
      cases cut
      have base : effectiveBase rg allocFlags = rg.base := if_neg plain
      refine ⟨?_, removed, (Nat.sub_le _ _).trans small⟩
      rw [spans_split (live_removeAt split), base, Nat.sub_self]
      simp [gap]
  obtain ⟨spans, sorted', small'⟩ := padded
  have rest' : final.spans = pre.map span ++ gap rg.base (effectiveBase rg allocFlags - rg.base) ++
      gap (effectiveBase rg allocFlags + n) (availableBytes m rg allocFlags - n) ++ rest.map span ∧
      final.Sorted ∧ final.count ≤ maxRegions := by
    have noWrap' : (effectiveBase rg allocFlags + n) % wordMod = effectiveBase rg allocFlags + n :=
      Nat.mod_eq_of_lt (by omega)
    split at remained
    case isTrue some =>
      dsimp only at remained
      rw [noWrap'] at remained
      refine insert_between sorted' small' spans (by omega) (fun s early => ?_) (fun s late => ?_) remained
      · rcases mem_append.mp early with early | padding
        · have less := lower s early
          simp only [span] at less
          omega
        · unfold gap at padding
          split at padding
          · simp at padding
          · obtain rfl := mem_singleton.mp padding
            dsimp only
            omega
      · have beyond := upper s late
        simp only [span] at beyond
        omega
    case isFalse none =>
      cases remained
      have zero : availableBytes m rg allocFlags - n = 0 := by omega
      rw [zero]
      refine ⟨?_, sorted', small'⟩
      simp [gap, spans]
  exact ⟨by rw [spans_split split, map_cons], rfl, rest'.1, rest'.2.1, rest'.2.2, rfl⟩

end Remainder

end ByteOS.Mm.Mmap
