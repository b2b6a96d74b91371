import ByteOS.Mm.Mmap
import ByteOS.Lib.Transition

/-! What `mmap_insert_region` makes of a list of regions. -/

set_option autoImplicit false

namespace ByteOS.Mm.Mmap

open Lib
open List (getElem?_append_right ext_getElem? getElem?_append_left length_append mem_map_of_mem
  map_append map_cons mem_append mem_cons length_cons length_nil mem_map mem_cons_self map_nil)

section Slots

def MmapType.live (t : MmapType) : List Region := (List.range t.count).map t.regions

variable {t : MmapType} {pre rest : List Region} {rg rg' : Region} {j : Nat}

theorem live_length : t.live.length = t.count := by
  simp [MmapType.live]

theorem live_getElem? : t.live[j]? = if j < t.count then some (t.regions j) else none := by
  by_cases inside : j < t.count
  · simp [MmapType.live, inside]
  · simp [MmapType.live, inside]

theorem regions_of_split (split : t.live = pre ++ rg :: rest) :
    t.regions pre.length = rg ∧ pre.length < t.count := by
  have bound : pre.length < t.count := by
    rw [← live_length, split]
    simp
  have here := live_getElem? (t := t) (j := pre.length)
  rw [split, if_pos bound, getElem?_append_right le_rfl, Nat.sub_self] at here
  exact ⟨(Option.some.inj here).symm, bound⟩

theorem live_set (split : t.live = pre ++ rg :: rest) :
    (t.set pre.length rg').live = pre ++ rg' :: rest := by
  have count : pre.length < t.count := (regions_of_split split).2
  refine ext_getElem? fun j => ?_
  have before := live_getElem? (t := t) (j := j)
  rw [split] at before
  rw [live_getElem?]
  obtain less | rfl | more := Nat.lt_trichotomy j pre.length
  · rw [getElem?_append_left less] at before ⊢
    rw [before]
    simp [MmapType.set, less.ne]
  · simp [MmapType.set, count]
  · have shift : (pre ++ rg' :: rest)[j]? = (pre ++ rg :: rest)[j]? := by
      obtain ⟨k, rfl⟩ := Nat.exists_eq_add_of_lt more
      simp [getElem?_append_right, Nat.add_assoc]
    rw [shift, before]
    simp [MmapType.set, more.ne']

theorem live_insertAt (split : t.live = pre ++ rest) :
    (t.insertAt pre.length rg).live = pre ++ rg :: rest := by
  have count : t.count = pre.length + rest.length := by rw [← live_length, split, length_append]
  refine ext_getElem? fun j => ?_
  rw [live_getElem?]
  obtain less | rfl | more := Nat.lt_trichotomy j pre.length
  · have before := live_getElem? (t := t) (j := j)
    rw [split, getElem?_append_left less] at before
    rw [getElem?_append_left less, before]
    have bound : j < t.count := by omega
    simp [MmapType.insertAt, bound, less.ne, less.le, Nat.lt_succ_of_lt bound]
  · have bound : pre.length < t.count + 1 := by omega
    simp [MmapType.insertAt, bound]
  · obtain ⟨k, rfl⟩ := Nat.exists_eq_add_of_lt more
    have before := live_getElem? (t := t) (j := pre.length + k)
    rw [split, getElem?_append_right (by omega), Nat.add_sub_cancel_left] at before
    have after : (pre ++ rg :: rest)[pre.length + k + 1]? = rest[k]? := by
      rw [getElem?_append_right (by omega)]
      have offset : pre.length + k + 1 - pre.length = k + 1 := by omega
      rw [offset, List.getElem?_cons_succ]
    rw [after, before]
    by_cases bound : pre.length + k < t.count
    · have above : pre.length + k + 1 ≤ t.count := bound
      simp [MmapType.insertAt, bound, above, more, more.ne']
    · simp [MmapType.insertAt, bound]

theorem live_removeAt (split : t.live = pre ++ rg :: rest) :
    (t.removeAt pre.length).live = pre ++ rest := by
  have count : t.count = pre.length + rest.length + 1 := by
    rw [← live_length, split]
    simp [Nat.add_assoc]
  refine ext_getElem? fun j => ?_
  rw [live_getElem?]
  obtain less | more := Nat.lt_or_ge j pre.length
  · have before := live_getElem? (t := t) (j := j)
    rw [split, getElem?_append_left less] at before
    have bound : j < t.count - 1 := by omega
    have wider : j < t.count := by omega
    rw [getElem?_append_left less, before]
    simp [MmapType.removeAt, not_le.mpr less, bound, wider]
  · obtain ⟨k, rfl⟩ := Nat.exists_eq_add_of_le more
    have before := live_getElem? (t := t) (j := pre.length + k + 1)
    rw [split, getElem?_append_right (by omega)] at before
    have offset : pre.length + k + 1 - pre.length = k + 1 := by omega
    rw [offset, List.getElem?_cons_succ] at before
    rw [getElem?_append_right more, Nat.add_sub_cancel_left, before]
    by_cases bound : pre.length + k + 1 < t.count
    · have below : pre.length + k < t.count - 1 := by omega
      simp [MmapType.removeAt, bound, below]
    · have beyond : ¬ pre.length + k < t.count - 1 := by omega
      simp [MmapType.removeAt, bound, beyond]

end Slots

variable {i : Nat} {new : Region}

def Region.span (rg : Region) : Span Nat := ⟨rg.base, rg.base + rg.len⟩

open Region (span)

section Bytes

variable {t t' : MmapType} {pre rest : List Region} {rg next : Region} {addr len : Nat}
    {flags : RegionFlags}

def MmapType.spans (t : MmapType) : List (Span Nat) := t.live.map span

def MmapType.Below (t : MmapType) (top : Nat) : Prop := ∀ rg ∈ t.live, rg.base + rg.len ≤ top

def MmapType.Bounded (t : MmapType) : Prop := ∀ rg ∈ t.live, rg.base + rg.len < wordMod

/-- A range can be added: the end of a region that is reduced to 0 is not taken for its start,
and what it is merged into is not all of the address space. -/
structure Room (t : MmapType) (addr len : Nat) : Prop where
  below : t.Below wordMod
  bound : addr + len < wordMod
  spare : t.Bounded ∨
    addr ≠ 0 ∧ ∃ x < wordMod, ¬ Covered t.spans x ∧ ¬ (addr ≤ x ∧ x < addr + len)

structure Adds (t t' : MmapType) (addr len : Nat) : Prop where
  covered : ∀ x, Covered t'.spans x ↔ Covered t.spans x ∨ addr ≤ x ∧ x < addr + len
  below : ∀ top, t.Below top → addr + len ≤ top → t'.Below top

theorem MmapType.bounded_iff : t.Bounded ↔ t.Below (wordMod - 1) :=
  forall₂_congr fun _ _ => Nat.lt_iff_le_pred (by decide)

theorem MmapType.Bounded.below (bounded : t.Bounded) : t.Below wordMod :=
  fun rg inside => (bounded rg inside).le

theorem Room.of_bounded (bounded : t.Bounded) (bound : addr + len < wordMod) : Room t addr len :=
  ⟨bounded.below, bound, .inl bounded⟩

theorem Adds.bounded (adds : Adds t t' addr len) (bounded : t.Bounded)
    (bound : addr + len < wordMod) : t'.Bounded :=
  MmapType.bounded_iff.mpr (adds.below _ (MmapType.bounded_iff.mp bounded) (Nat.le_pred_of_lt bound))

theorem Adds.room (adds : Adds t t' addr len) (room : Room t addr len) : Room t' addr len := by
  refine ⟨adds.below _ room.below room.bound.le, room.bound, ?_⟩
  obtain bounded | ⟨nonzero, x, low, free, outside⟩ := room.spare
  · exact .inl (adds.bounded bounded room.bound)
  · refine .inr ⟨nonzero, x, low, fun inside => ?_, outside⟩
    exact ((adds.covered x).mp inside).elim free outside

theorem Room.end_eq (room : Room t addr len) (inside : rg ∈ t.live) :
    (rg.base + rg.len) % wordMod = addr ↔ rg.base + rg.len = addr := by
  have bound := room.bound
  obtain less | last := (room.below rg inside).lt_or_eq
  · rw [Nat.mod_eq_of_lt less]
  · obtain bounded | ⟨nonzero, -⟩ := room.spare
    · exact absurd last (bounded rg inside).ne
    · rw [last, Nat.mod_self]
      omega

/-- A region that the range is merged with does not become longer than a word can say. -/
theorem Room.merged_lt (room : Room t addr len) (inside : rg ∈ t.live) {lo : Nat}
    (whole : ∀ x, lo ≤ x → x < rg.base + rg.len → Covered t.spans x ∨ addr ≤ x ∧ x < addr + len) :
    rg.base + rg.len - lo < wordMod := by
  have below := room.below rg inside
  obtain bounded | ⟨-, x, low, free, outside⟩ := room.spare
  · exact (Nat.sub_le _ _).trans_lt (bounded rg inside)
  · by_contra all
    exact (whole x (by omega) (by omega)).elim free outside

theorem covers_of_mem (inside : rg ∈ t.live) {x : Nat} (above : rg.base ≤ x)
    (below : x < rg.base + rg.len) : Covered t.spans x :=
  ⟨rg.span, mem_map_of_mem inside, above, below⟩

theorem spans_split (split : t.live = pre ++ rest) : t.spans = pre.map span ++ rest.map span := by
  rw [MmapType.spans, split, map_append]

theorem exists_split (inside : i < t.count) :
    ∃ pre rest, t.live = pre ++ t.regions i :: rest ∧ pre.length = i := by
  have long : i < t.live.length := by rwa [live_length]
  have here : t.live[i] = t.regions i := by
    have value := live_getElem? (t := t) (j := i)
    rw [if_pos inside, List.getElem?_eq_getElem long] at value
    exact Option.some.inj value
  refine ⟨t.live.take i, t.live.drop (i + 1), ?_, by simp [long.le]⟩
  rw [← here, ← List.drop_eq_getElem_cons long, List.take_append_drop]

theorem adds_replace (split : t.live = pre ++ rg :: rest) (split' : t'.live = pre ++ new :: rest)
    (bound : ∀ top, t.Below top → addr + len ≤ top → new.base + new.len ≤ top)
    (bytes : ∀ x, new.span.Covers x ↔ rg.span.Covers x ∨ addr ≤ x ∧ x < addr + len) :
    Adds t t' addr len where
  covered x := by
    rw [spans_split split, spans_split split', map_cons, map_cons, covered_middle, covered_middle, bytes]
    exact or_right_comm
  below top low fits rg inside := by
    rw [split'] at inside
    simp only [mem_append, mem_cons] at inside
    obtain inside | rfl | inside := inside
    · exact low rg (by simp [split, inside])
    · exact bound top low fits
    · exact low rg (by simp [split, inside])

theorem Adds.again {middle : MmapType} (first : Adds t middle addr len)
    (second : Adds middle t' addr len) : Adds t t' addr len where
  covered x := by
    rw [second.covered, first.covered, or_assoc, or_self]
  below top low fits := second.below top (first.below top low fits) fits

theorem insertNew_adds (inside : i ≤ t.count)
    (ran : insertNew t i addr len flags = .ok t') : Adds t t' addr len := by
  have split : t.live = t.live.take i ++ t.live.drop i := (List.take_append_drop i t.live).symm
  have position : (t.live.take i).length = i := by simp [live_length, inside]
  rw [insertNew] at ran
  split at ran
  case isTrue => exact nomatch ran
  case isFalse =>
    cases ran
    have live : (t.insertAt (t.live.take i).length ⟨addr, len, flags⟩).live = _ := live_insertAt split
    rw [position] at live
    refine ⟨fun x => ?_, fun top low fits rg inside => ?_⟩
    · rw [spans_split live, spans_split split, map_cons, covered_middle]
      exact or_comm
    · rw [live] at inside
      simp only [mem_append, mem_cons] at inside
      obtain inside | rfl | inside := inside
      · exact low rg (List.mem_of_mem_take inside)
      · exact fits
      · exact low rg (List.mem_of_mem_drop inside)

section

variable (split : t.live = pre ++ rg :: rest) (room : Room t addr len)
    (touches : rg.base + rg.len = addr)
include split room touches

theorem mergeAbove_cases :
    ∃ t', mergeAbove t pre.length addr len = .ok t' ∧
      ((∃ next rest', rest = next :: rest' ∧ next.base = addr + len ∧
          t'.live = pre ++ { rg with len := rg.len + len + next.len } :: rest') ∨
        (∀ next ∈ rest.head?, next.base ≠ addr + len) ∧
          t'.live = pre ++ { rg with len := rg.len + len } :: rest) := by
  obtain ⟨here, inside⟩ := regions_of_split split
  have bound := room.bound
  have sum : (rg.len + len) % wordMod = rg.len + len := Nat.mod_eq_of_lt (by omega)
  have sum' : (addr + len) % wordMod = addr + len := Nat.mod_eq_of_lt bound
  let grown := t.set pre.length { rg with len := rg.len + len }
  have live : grown.live = pre ++ { rg with len := rg.len + len } :: rest := live_set split
  have unfolded : mergeAbove t pre.length addr len =
      if pre.length < grown.count - 1 ∧ addr + len = (grown.regions (pre.length + 1)).base then
        mmapDeleteRegion (grown.set pre.length
          { grown.regions pre.length with
            len := ((grown.regions pre.length).len + (grown.regions (pre.length + 1)).len) %
              wordMod }) (pre.length + 1)
      else .ok grown := by
    rw [mergeAbove, here, sum, sum']
  have count : grown.count = pre.length + 1 + rest.length := by
    rw [← live_length, live]
    simp only [length_append, length_cons]
    omega
  rw [unfolded]
  cases rest with
  | nil =>
    refine ⟨grown, if_neg ?_, .inr ⟨by simp, live⟩⟩
    simp only [count, length_nil]
    omega
  | cons next rest =>
    have live' : grown.live = (pre ++ [{ rg with len := rg.len + len }]) ++ next :: rest := by
      rw [live]
      simp
    obtain ⟨above, _⟩ := regions_of_split live'
    obtain ⟨own, _⟩ := regions_of_split live
    simp only [length_append, length_cons, length_nil] at above
    rw [above, own]
    by_cases reaches : next.base = addr + len
    · have member : rg ∈ t.live := by simp [split]
      have member' : next ∈ t.live := by simp [split]
      have wide : next.base + next.len - rg.base < wordMod := by
        refine room.merged_lt member' fun x low high => ?_
        by_cases own : x < addr
        · exact .inl (covers_of_mem member low (by omega))
        · by_cases new : x < addr + len
          · exact .inr ⟨by omega, new⟩
          · exact .inl (covers_of_mem member' (by omega) high)
      have sum : (rg.len + len + next.len) % wordMod = rg.len + len + next.len :=
        Nat.mod_eq_of_lt (by omega)
      let whole := grown.set pre.length { rg with len := rg.len + len + next.len }
      have wholeLive : whole.live = (pre ++ [{ rg with len := rg.len + len + next.len }]) ++ next ::
          rest := by
        have set : whole.live = pre ++ _ := live_set live
        rw [set]
        simp
      have removed := live_removeAt wholeLive
      obtain ⟨_, below⟩ := regions_of_split wholeLive
      simp only [length_append, length_cons, length_nil] at removed below
      refine ⟨whole.removeAt (pre.length + 1), ?_, .inl ⟨next, rest, rfl, reaches, ?_⟩⟩
      · rw [if_pos ⟨by simp only [count, length_cons]; omega, reaches.symm⟩, sum]
        change mmapDeleteRegion whole (pre.length + 1) = _
        rw [mmapDeleteRegion, kassert, if_pos below]
        rfl
      · rw [removed]
        simp
    · refine ⟨grown, if_neg fun both => reaches both.2.symm, .inr ⟨?_, live⟩⟩
      rintro _ ⟨⟩
      exact reaches

theorem mergeAbove_adds (ran : mergeAbove t pre.length addr len = .ok t') : Adds t t' addr len := by
  obtain ⟨t1, run, result⟩ := mergeAbove_cases split room touches
  obtain rfl := Except.ok.inj (run.symm.trans ran)
  obtain ⟨next, rest', rfl, reaches, live⟩ | ⟨_, live⟩ := result
  · refine ⟨fun x => ?_, fun top low fits new inside => ?_⟩
    · have bytes : rg.base ≤ x ∧ x < rg.base + (rg.len + len + next.len) ↔
          ((rg.base ≤ x ∧ x < rg.base + rg.len) ∨ next.base ≤ x ∧ x < next.base + next.len) ∨
            addr ≤ x ∧ x < addr + len := by omega
      rw [spans_split split, spans_split live]
      simp only [map_cons, covered_middle, span, Span.Covers]
      rw [bytes, or_right_comm, or_assoc (c := Covered _ x)]
    · rw [live] at inside
      simp only [mem_append, mem_cons] at inside
      obtain inside | rfl | inside := inside
      · exact low new (by simp [split, inside])
      · have last := low next (by simp [split])
        dsimp only
        omega
      · exact low new (by simp [split, inside])
  · refine adds_replace split live (fun top _ fits => by dsimp only; omega) fun x => ?_
    simp only [span, Span.Covers]
    omega

end

/-- Whatever the order of the regions, an insertion adds the bytes of the range. -/
theorem insertScan_adds (left : Nat) (whole : i + left = t.count) (room : Room t addr len)
    (ran : insertScan addr len flags left t i = .ok t') : Adds t t' addr len := by
  induction left generalizing t i with
  | zero => exact insertNew_adds (by omega) ran
  | succ left ih =>
    obtain ⟨pre, rest, split, rfl⟩ := exists_split (t := t) (i := i) (by omega)
    have member : t.regions pre.length ∈ t.live := by rw [split]; simp
    have sum : (addr + len) % wordMod = addr + len := Nat.mod_eq_of_lt room.bound
    rw [insertScan] at ran
    simp only [sum, room.end_eq member] at ran
    split at ran
    case isTrue below =>
      obtain ⟨_, _, ran⟩ := bind_eq_ok.mp ran
      let new : Region :=
        { t.regions pre.length with base := addr, len := ((t.regions pre.length).len + len) % wordMod }
      have wide : (t.regions pre.length).base + (t.regions pre.length).len - addr < wordMod := by
        refine room.merged_lt member fun x low high => ?_
        by_cases new : x < addr + len
        · exact .inr ⟨low, new⟩
        · exact .inl (covers_of_mem member (by omega) high)
      have length : new.len = (t.regions pre.length).len + len := Nat.mod_eq_of_lt (by omega)
      have first : Adds t (t.set pre.length new) addr len := by
        refine adds_replace split (live_set split) (fun top low _ => ?_) fun x => ?_
        · have last := low _ member
          rw [length]
          dsimp only [new]
          omega
        simp only [span, Span.Covers, length]
        dsimp only [new]
        omega
      refine first.again (ih ?_ (first.room room) ran)
      simpa [MmapType.set, Nat.add_assoc, Nat.add_comm 1] using whole
    case isFalse =>
      split at ran
      case isTrue => exact insertNew_adds (by omega) ran
      case isFalse =>
        split at ran
        case isTrue touches => exact mergeAbove_adds split room touches ran
        case isFalse =>
          obtain ⟨_, _, ran⟩ := bind_eq_ok.mp ran
          exact ih (by omega) room ran

theorem adds_nothing (t : MmapType) (addr : Nat) : Adds t t addr 0 := by
  refine ⟨fun x => ?_, fun _ low _ => low⟩
  have none : ¬ (addr ≤ x ∧ x < addr + 0) := by omega
  simp only [none, or_false]

theorem mmapInsertRegion_adds (room : len ≠ 0 → Room t addr len)
    (ran : mmapInsertRegion t addr len flags = .ok t') : Adds t t' addr len := by
  obtain ⟨_, _, ran⟩ := bind_eq_ok.mp ran
  split at ran
  case isTrue empty =>
    cases ran
    rw [empty]
    exact adds_nothing t addr
  case isFalse some => exact insertScan_adds t.count (by omega) (room some) ran

end Bytes

section Sorted

variable {t t' : MmapType} {pre rest : List Region} {rg : Region} {addr len : Nat} {flags : RegionFlags}

structure MmapType.Sorted (t : MmapType) : Prop where
  separated : Separated t.spans
  bounded : t.Bounded

structure Fits (t : MmapType) (addr len : Nat) : Prop where
  positive : 0 < len
  bound : addr + len < wordMod
  free : ∀ x, addr ≤ x → x < addr + len → ¬ Covered t.spans x

theorem MmapType.Sorted.positive (sorted : t.Sorted) (inside : rg ∈ t.live) : 0 < rg.len := by
  have proper := sorted.separated.proper rg.span (mem_map_of_mem inside)
  simp only [span] at proper
  omega

theorem Fits.apart (fits : Fits t addr len) (sorted : t.Sorted) (inside : rg ∈ t.live) :
    rg.base + rg.len ≤ addr ∨ addr + len ≤ rg.base := by
  have positive := sorted.positive inside
  have positive' := fits.positive
  by_contra overlap
  by_cases order : rg.base ≤ addr
  · exact fits.free addr le_rfl (by omega) (covers_of_mem inside order (by omega))
  · exact fits.free rg.base (by omega) (by omega) (covers_of_mem inside le_rfl (by omega))

theorem not_within {x y n : Nat} (bounded : x + n < wordMod) (outside : x + n ≤ y ∨ y < x) :
    ¬ within x y n := by
  unfold within
  rw [Nat.mod_eq_of_lt bounded]
  omega

theorem Fits.no_overlap (fits : Fits t addr len) (sorted : t.Sorted) (inside : rg ∈ t.live) :
    ¬ (within addr rg.base len ∨ within rg.base addr rg.len) := by
  have apart := fits.apart sorted inside
  have positive := sorted.positive inside
  have positive' := fits.positive
  rintro (overlap | overlap)
  · exact not_within fits.bound (by omega) overlap
  · exact not_within (sorted.bounded rg inside) (by omega) overlap

theorem MmapType.Sorted.around (sorted : t.Sorted) (split : t.live = pre ++ rg :: rest) :
    (∀ a ∈ pre, a.base + a.len < rg.base) ∧ ∀ b ∈ rest, rg.base + rg.len < b.base := by
  have separated := sorted.separated
  rw [spans_split split, map_cons, separated_middle] at separated
  exact ⟨fun a inside => separated.2.2.1 a.span (mem_map_of_mem inside),
    fun b inside => separated.2.2.2 b.span (mem_map_of_mem inside)⟩

/-- The result of an insertion: the sorted list of the regions with the range, or no
room for it. -/
def Outcome (t : MmapType) (addr len : Nat) (result : Except Fault MmapType) : Prop :=
  ∃ l, Separated l ∧ (∀ x, Covered l x ↔ Covered t.spans x ∨ addr ≤ x ∧ x < addr + len) ∧
    ((∃ t', result = .ok t' ∧ t'.spans = l) ∨ result = .error (.panic "No space left in mmap") ∧
      maxRegions < l.length)

theorem insertNew_sorted (split : t.live = pre ++ rest) (sorted : t.Sorted) (fits : Fits t addr len)
    (below : ∀ a ∈ pre, a.base + a.len < addr) (above : ∀ b ∈ rest, addr + len < b.base) :
    Outcome t addr len (insertNew t pre.length addr len flags) := by
  let new : Region := ⟨addr, len, flags⟩
  refine ⟨pre.map span ++ new.span :: rest.map span, ?_, fun x => ?_, ?_⟩
  · have separated := sorted.separated
    have positive := fits.positive
    rw [spans_split split] at separated
    rw [separated_middle]
    refine ⟨by simp only [span, new]; omega, separated, fun s member => ?_, fun s member => ?_⟩
    · obtain ⟨a, inside, rfl⟩ := mem_map.mp member
      exact below a inside
    · obtain ⟨b, inside, rfl⟩ := mem_map.mp member
      exact above b inside
  · rw [spans_split split, covered_middle]
    exact or_comm
  · have length := live_length (t := t)
    rw [split, length_append] at length
    by_cases full : t.count = maxRegions
    · refine .inr ⟨if_pos full, ?_⟩
      simp only [length_append, length_cons, List.length_map]
      omega
    · refine .inl ⟨_, if_neg full, ?_⟩
      rw [spans_split (live_insertAt split), map_cons]

theorem separated_widen (separated : Separated (pre.map span ++ rg.span :: rest.map span))
    (lo : new.base = rg.base) (positive : 0 < new.len) (above : ∀ b ∈ rest, new.base + new.len < b.base) :
    Separated (pre.map span ++ new.span :: rest.map span) := by
  rw [separated_middle] at separated ⊢
  obtain ⟨_, others, below, _⟩ := separated
  refine ⟨by simp only [span]; omega, others, ?_, ?_⟩
  · intro a inside
    have less := below a inside
    simp only [span] at less ⊢
    omega
  · intro s member
    obtain ⟨b, inside, rfl⟩ := mem_map.mp member
    exact above b inside

theorem mergeAbove_sorted (split : t.live = pre ++ rg :: rest) (sorted : t.Sorted)
    (fits : Fits t addr len) (touches : rg.base + rg.len = addr) :
    Outcome t addr len (mergeAbove t pre.length addr len) := by
  have room := Room.of_bounded sorted.bounded fits.bound
  obtain ⟨t', run, result⟩ := mergeAbove_cases split room touches
  have adds := mergeAbove_adds split room touches run
  refine ⟨t'.spans, ?_, adds.covered, .inl ⟨t', run, rfl⟩⟩
  have separated := sorted.separated
  rw [spans_split split, map_cons] at separated
  have positive := fits.positive
  obtain ⟨next, rest', rfl, reaches, live⟩ | ⟨notNext, live⟩ := result
  · have splitNext : t.live = (pre ++ [rg]) ++ next :: rest' := by simp [split]
    obtain ⟨_, above⟩ := sorted.around splitNext
    have positive' := sorted.positive (show next ∈ t.live by simp [split])
    rw [spans_split live, map_cons]
    have without : Separated (pre.map span ++ rg.span :: rest'.map span) := by
      have shape : pre.map span ++ rg.span :: (next :: rest').map span =
          (pre.map span ++ [rg.span]) ++ next.span :: rest'.map span := by simp
      rw [shape, separated_middle] at separated
      simpa using separated.2.1
    refine separated_widen without rfl (by dsimp only; omega) fun b inside => ?_
    have less := above b inside
    dsimp only
    omega
  · rw [spans_split live, map_cons]
    refine separated_widen separated rfl (by dsimp only; omega) fun b inside => ?_
    -- the next region does not overlap the range and does not touch it, the others lie above it
    obtain ⟨next, rest', rfl⟩ := List.exists_cons_of_ne_nil (List.ne_nil_of_mem inside)
    have notReached := notNext next rfl
    have splitNext : t.live = (pre ++ [rg]) ++ next :: rest' := by simp [split]
    have away := (sorted.around split).2 next mem_cons_self
    have apart := fits.apart sorted (show next ∈ t.live by simp [split])
    have positive' := sorted.positive (show next ∈ t.live by simp [split])
    dsimp only
    obtain rfl | inside := mem_cons.mp inside
    · omega
    · have less := (sorted.around splitNext).2 b inside
      omega

def OnlyBelow (t : MmapType) (addr len : Nat) : Prop :=
  (∃ rg ∈ t.live, rg.base = addr + len) ∧ ∀ rg ∈ t.live, rg.base + rg.len ≠ addr

/-- A range that is not only below a region is inserted into a sorted list so that the
list stays sorted. -/
theorem insertScan_sorted (split : t.live = pre ++ rest) (sorted : t.Sorted)
    (fits : Fits t addr len) (passed : ∀ a ∈ pre, a.base + a.len < addr)
    (notBelow : ¬ OnlyBelow t addr len) :
    Outcome t addr len (insertScan addr len flags rest.length t pre.length) := by
  induction rest generalizing pre with
  | nil => exact insertNew_sorted split sorted fits passed (by simp)
  | cons rg rest ih =>
    have inside : rg ∈ t.live := by simp [split]
    obtain ⟨here, _⟩ := regions_of_split split
    have sum : (addr + len) % wordMod = addr + len := Nat.mod_eq_of_lt fits.bound
    have sum' : (rg.base + rg.len) % wordMod = rg.base + rg.len :=
      Nat.mod_eq_of_lt (sorted.bounded rg inside)
    have apart := fits.apart sorted inside
    have positive := sorted.positive inside
    have positive' := fits.positive
    obtain ⟨_, later⟩ := sorted.around split
    rw [length_cons, insertScan]
    simp only [here, sum, sum']
    split
    case isTrue below =>
      -- excluded: a region that ends at the range would come before this one, but those end below it
      refine absurd ⟨⟨rg, inside, below.symm⟩, fun a member touches => ?_⟩ notBelow
      rw [split, mem_append, mem_cons] at member
      obtain before | rfl | member := member
      · exact absurd touches (passed a before).ne
      · omega
      · have above := later a member
        omega
    case isFalse notTouching =>
      split
      case isTrue less =>
        refine insertNew_sorted split sorted fits passed fun b member => ?_
        obtain rfl | member := mem_cons.mp member
        · exact less
        · have beyond := later b member
          omega
      case isFalse notLess =>
        split
        case isTrue touches => exact mergeAbove_sorted split sorted fits touches
        case isFalse notAbove =>
          have step : t.live = (pre ++ [rg]) ++ rest := by simp [split]
          have passed' : ∀ a ∈ pre ++ [rg], a.base + a.len < addr := by
            intro a member
            obtain before | same := mem_append.mp member
            · exact passed a before
            · obtain rfl := List.mem_singleton.mp same
              omega
          have rest := ih step passed'
          rw [length_append, List.length_singleton] at rest
          rwa [kassert, if_pos (fits.no_overlap sorted inside), ok_bind]

theorem mmapInsertRegion_sorted (sorted : t.Sorted) (fits : Fits t addr len)
    (notBelow : ¬ OnlyBelow t addr len) (small : t.count ≤ maxRegions) (flags : RegionFlags) :
    Outcome t addr len (mmapInsertRegion t addr len flags) := by
  have scan : Outcome t addr len (insertScan addr len flags t.live.length t ([] : List Region).length) :=
    insertScan_sorted (List.nil_append t.live).symm sorted fits (by simp) notBelow
  rw [live_length] at scan
  rwa [mmapInsertRegion, kassert, if_pos small, ok_bind, if_neg fits.positive.ne']

variable (small : t.count ≤ maxRegions)
include small

theorem insertNew_small (ran : insertNew t i addr len flags = .ok t') : t'.count ≤ maxRegions := by
  unfold insertNew at ran
  split at ran
  case isTrue => simp at ran
  case isFalse room =>
    cases ran
    exact Nat.lt_of_le_of_ne small room

theorem mergeAbove_small (ran : mergeAbove t i addr len = .ok t') : t'.count ≤ maxRegions := by
  unfold mergeAbove at ran
  dsimp only at ran
  split at ran
  · obtain ⟨-, -, ran⟩ := bind_eq_ok.mp ran
    cases ran
    exact (Nat.sub_le _ _).trans small
  · cases ran
    exact small

theorem insertScan_small {left : Nat} (ran : insertScan addr len flags left t i = .ok t') :
    t'.count ≤ maxRegions := by
  induction left generalizing t i with
  | zero => exact insertNew_small small ran
  | succ left ih =>
    rw [insertScan] at ran
    split at ran
    · obtain ⟨-, -, ran⟩ := bind_eq_ok.mp ran
      exact ih (t := t.set _ _) small ran
    · split at ran
      · exact insertNew_small small ran
      · split at ran
        · exact mergeAbove_small small ran
        · obtain ⟨-, -, ran⟩ := bind_eq_ok.mp ran
          exact ih small ran

theorem mmapInsertRegion_small (ran : mmapInsertRegion t addr len flags = .ok t') :
    t'.count ≤ maxRegions := by
  obtain ⟨-, -, ran⟩ := bind_eq_ok.mp ran
  split at ran
  · cases ran
    exact small
  · exact insertScan_small small ran

end Sorted

section Canonical

variable {t : MmapType} {rg : Region} {ranges done rest : List Region} {slots : Nat → Region}

def insertAll (t : MmapType) (ranges : List Region) : Except Fault MmapType :=
  ranges.foldlM (fun t rg => mmapInsertRegion t rg.base rg.len rg.flags) t

abbrev Bytes (ranges : List Region) (x : Nat) : Prop := Covered (ranges.map span) x

def FillsBelow (done : List Region) (rg : Region) : Prop :=
  Bytes done (rg.base + rg.len) ∧ ¬ (0 < rg.base ∧ Bytes done (rg.base - 1))

/-- The regions are the maximal intervals of the ranges inserted so far. -/
structure Canonical (done : List Region) (t : MmapType) : Prop where
  sorted : t.Sorted
  bytes : ∀ x, Covered t.spans x ↔ Bytes done x
  small : t.count ≤ maxRegions

theorem Canonical.fits (canonical : Canonical done t) (positive : 0 < rg.len)
    (bound : rg.base + rg.len < wordMod) (apart : ∀ a ∈ done, a.span.Apart rg.span) :
    Fits t rg.base rg.len where
  positive := positive
  bound := bound
  free x above below inside := by
    obtain ⟨s, mapped, from_, to_⟩ := (canonical.bytes x).mp inside
    obtain ⟨a, member, rfl⟩ := mem_map.mp mapped
    have disjoint := apart a member
    simp only [Span.Apart, span] at disjoint from_ to_
    omega

theorem Canonical.not_onlyBelow (canonical : Canonical done t) (fits : Fits t rg.base rg.len)
    (order : ¬ FillsBelow done rg) : ¬ OnlyBelow t rg.base rg.len := by
  rintro ⟨⟨above, member, touches⟩, noneBelow⟩
  have positive := canonical.sorted.positive member
  refine order ⟨(canonical.bytes _).mp (covers_of_mem member touches.le (by omega)), ?_⟩
  rintro ⟨nonzero, before⟩
  obtain ⟨s, mapped, from_, to_⟩ := (canonical.bytes _).mpr before
  obtain ⟨below, member, rfl⟩ := mem_map.mp mapped
  have apart := fits.apart canonical.sorted member
  have notTouching := noneBelow below member
  have length := fits.positive
  simp only [span] at from_ to_
  omega

theorem spans_length : t.spans.length = t.count := by
  rw [MmapType.spans, List.length_map, live_length]

section

variable (canonical : Canonical done t)
include canonical

theorem Canonical.bytes_snoc (x : Nat) :
    Covered t.spans x ∨ rg.base ≤ x ∧ x < rg.base + rg.len ↔ Bytes (done ++ [rg]) x := by
  rw [canonical.bytes, Bytes, Bytes, map_append, covered_append]
  simp [span, Span.Covers]

variable (fits : Fits t rg.base rg.len) (order : ¬ FillsBelow done rg)
include fits order

theorem Canonical.insert_ok {t' : MmapType}
    (ran : mmapInsertRegion t rg.base rg.len rg.flags = .ok t') : Canonical (done ++ [rg]) t' := by
  obtain ⟨l, separated, covered, ⟨t'', ran', rfl⟩ | ⟨failed, -⟩⟩ :=
    mmapInsertRegion_sorted canonical.sorted fits (canonical.not_onlyBelow fits order)
      canonical.small rg.flags
  · obtain rfl := Except.ok.inj (ran.symm.trans ran')
    have bounded := canonical.sorted.bounded
    have adds := mmapInsertRegion_adds (fun _ => .of_bounded bounded fits.bound) ran
    exact ⟨⟨separated, adds.bounded bounded fits.bound⟩,
      fun x => (covered x).trans (canonical.bytes_snoc x), mmapInsertRegion_small canonical.small ran⟩
  · rw [ran] at failed
    simp at failed

theorem Canonical.insert
    (few : ∀ l, Separated l → (∀ x, Covered l x ↔ Bytes (done ++ [rg]) x) → l.length ≤ maxRegions) :
    ∃ t', mmapInsertRegion t rg.base rg.len rg.flags = .ok t' ∧ Canonical (done ++ [rg]) t' := by
  obtain ⟨l, separated, covered, ⟨t', ran, -⟩ | ⟨-, long⟩⟩ :=
    mmapInsertRegion_sorted canonical.sorted fits (canonical.not_onlyBelow fits order)
      canonical.small rg.flags
  · exact ⟨t', ran, canonical.insert_ok fits order ran⟩
  · have short := few l separated fun x => (covered x).trans (canonical.bytes_snoc x)
    omega

end

/-- What the ranges of one boot memory map satisfy: none is empty or wraps around, no two
overlap, and at no time they form more intervals than there are slots. A range that ends at
`2 ^ 64` wraps around too: the 64-bit sum of its base and its length is 0. -/
structure Proper (ranges : List Region) : Prop where
  positive : ∀ rg ∈ ranges, 0 < rg.len
  bound : ∀ rg ∈ ranges, rg.base + rg.len < wordMod
  disjoint : ranges.Pairwise fun a b => a.span.Apart b.span
  few : ∀ done rest, ranges = done ++ rest → ∀ l, Separated l → (∀ x, Covered l x ↔ Bytes done x) →
    l.length ≤ maxRegions

/-- If no range is inserted directly below memory that is there already, unless it is also
directly above such memory, then the regions are the sorted list of the maximal intervals
of the union of the ranges, in whatever order they came. -/
theorem insertion_canonical (proper : Proper ranges)
    (order : ∀ done rg rest, ranges = done ++ rg :: rest → ¬ FillsBelow done rg) :
    ∃ t, insertAll ⟨0, slots⟩ ranges = .ok t ∧ Separated t.spans ∧
      (∀ x, Covered t.spans x ↔ Bytes ranges x) ∧ (∀ x, Bytes ranges x → ∃! s, s ∈ t.spans ∧ s.Covers x) ∧
      ∀ l, Separated l → (∀ x, Covered l x ↔ Bytes ranges x) → t.spans = l := by
  have initial : Canonical [] ⟨0, slots⟩ := by
    refine ⟨⟨separated_nil, fun rg inside => ?_⟩, fun x => Iff.rfl, Nat.zero_le _⟩
    exact absurd inside List.not_mem_nil
  have finished : ∃ t, insertAll ⟨0, slots⟩ ranges = .ok t ∧ Canonical ranges t := by
    refine loop_finishes Canonical initial fun done rg rest t split canonical => ?_
    have member : rg ∈ ranges := by simp [split]
    have disjoint := proper.disjoint
    rw [split, List.pairwise_append] at disjoint
    have fits := canonical.fits (proper.positive rg member) (proper.bound rg member)
      fun a inside => disjoint.2.2 a inside rg mem_cons_self
    exact canonical.insert fits (order done rg rest split)
      (proper.few (done ++ [rg]) rest (by simp [split]))
  obtain ⟨t, run, canonical⟩ := finished
  refine ⟨t, run, canonical.sorted.separated, canonical.bytes, fun x inside => ?_,
    fun l separated same => ?_⟩
  · exact canonical.sorted.separated.existsUnique ((canonical.bytes x).mpr inside)
  · exact canonical.sorted.separated.unique separated fun x => (canonical.bytes x).trans (same x).symm

def stackedRanges : List Region := [⟨0x1000, 0x1000, .none⟩, ⟨0x2000, 0x1000, .none⟩]

theorem stackedRanges_prefix (split : stackedRanges = done ++ rest) :
    done = [] ∨ done = [⟨0x1000, 0x1000, .none⟩] ∨ done = stackedRanges := by
  rcases done with _ | ⟨x, _ | ⟨y, done⟩⟩
  · exact .inl rfl
  · obtain ⟨rfl, _⟩ := List.cons.inj split
    exact .inr (.inl rfl)
  · have short := congrArg List.length split
    obtain rfl : done = [] := by
      simp only [stackedRanges, length_append, length_cons, length_nil] at short
      exact List.length_eq_zero_iff.mp (by omega)
    simp_all [stackedRanges]

theorem stackedRanges_proper : Proper stackedRanges where
  positive := by simp [stackedRanges]
  bound := by simp [stackedRanges, wordMod]
  disjoint := by simp [stackedRanges, span, Span.Apart]
  few done rest split l separated same := by
    obtain rfl | rfl | rfl := stackedRanges_prefix split
    · rw [separated.unique separated_nil same]
      decide
    · have whole : l = [⟨0x1000, 0x2000⟩] := separated.unique ⟨by simp, by simp⟩ same
      rw [whole]
      decide
    · have whole : l = [⟨0x1000, 0x3000⟩] := by
        refine separated.unique ⟨by simp, by simp⟩ fun x => (same x).trans ?_
        simp only [Bytes, stackedRanges, map_cons, map_nil, covered_cons, covered_nil, or_false,
          span, Span.Covers]
        omega
      rw [whole]
      decide

theorem insertion_canonical_stacked : ∃ t, insertAll ⟨0, fun _ => ⟨0, 0, .none⟩⟩ stackedRanges = .ok t ∧
      t.spans = [⟨0x1000, 0x3000⟩] := by
  have order : ∀ done rg rest, stackedRanges = done ++ rg :: rest → ¬ FillsBelow done rg := by
    rintro done rg rest split ⟨above, _⟩
    obtain rfl | rfl | rfl := stackedRanges_prefix split
    · exact covered_nil above
    · obtain rfl : rg = ⟨0x2000, 0x1000, .none⟩ := by simp_all [stackedRanges]
      simp [Bytes, span, Span.Covers] at above
    · simp [stackedRanges] at split
  obtain ⟨t, run, _, bytes, _, unique⟩ := insertion_canonical stackedRanges_proper order
  refine ⟨t, run, unique _ ⟨by simp, by simp⟩ fun x => ?_⟩
  simp only [Bytes, stackedRanges, map_cons, map_nil, covered_cons, covered_nil, or_false, span,
    Span.Covers]
  omega

/-- A range directly below the only region is there twice. -/
theorem insertion_below_duplicates :
    ∃ t, insertAll ⟨0, fun _ => ⟨0, 0, .none⟩⟩ [⟨0x2000, 0x1000, .none⟩, ⟨0x1000, 0x1000, .none⟩] =
      .ok t ∧ t.spans = [⟨0x1000, 0x3000⟩, ⟨0x1000, 0x2000⟩] ∧ ¬ Separated t.spans := by
  have finished :
      ((insertAll ⟨0, fun _ => ⟨0, 0, .none⟩⟩ [⟨0x2000, 0x1000, .none⟩,
        ⟨0x1000, 0x1000, .none⟩]).toOption.map
      fun t => t.spans) = some [⟨0x1000, 0x3000⟩, ⟨0x1000, 0x2000⟩] := by
    decide +kernel
  obtain ⟨t, ran, spans⟩ := toOption_map_eq_some.mp finished
  refine ⟨t, ran, spans, fun separated => ?_⟩
  have apart := separated.apart
  rw [spans, List.pairwise_cons] at apart
  exact absurd (apart.1 _ mem_cons_self) (by decide)

end Canonical

end ByteOS.Mm.Mmap
