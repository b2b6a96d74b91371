import ByteOS.Mm.MmapAlloc

/-! How `mmap_init` sorts the entries of the boot memory map into available and reserved
memory.

The multiboot information is a list of tags, of which only the memory map is read; its
entries come in ascending order, so every insertion is at the end of its list.
-/

set_option autoImplicit false

namespace ByteOS.Mm.Mmap

open Lib

/-- `struct multiboot_mmap_entry` -/
structure Entry where
  addr : Nat
  len : Nat
  type : Nat
  deriving DecidableEq, Repr

/-- A multiboot tag; `entries` is what follows the header of a memory map. -/
structure Tag where
  type : Nat
  entries : List Entry

def multibootTagTypeEnd : Nat := 0

def multibootTagTypeMmap : Nat := 6

def multibootMemoryAvailable : Nat := 1

def kernelPhysMapEnd : Nat := 0x1000000

/-- The search for the memory map among the tags, which the end tag or the end of the list
concludes. -/
def findMmap (tags : List Tag) : Option (List Entry) :=
  match tags.find? fun tag => tag.type == multibootTagTypeEnd || tag.type == multibootTagTypeMmap with
  | some tag => if tag.type = multibootTagTypeMmap then some tag.entries else none
  | none => none

def classify (kernEnd : Nat) (m : MemMap) (mmap : Entry) : Except Fault MemMap :=
  if mmap.type = multibootMemoryAvailable then
    if (mmap.addr + mmap.len) % wordMod < kernEnd then do
      let reserved ← mmapInsertRegion m.reserved mmap.addr mmap.len .none
      return { m with reserved := reserved }
    else if mmap.addr < kernEnd then do
      let reserved ← mmapInsertRegion m.reserved mmap.addr (wordSub kernEnd mmap.addr) .none
      let available ← mmapInsertRegion m.available kernEnd
          (wordSub mmap.len (wordSub kernEnd mmap.addr)) .none
      return { m with available := available, reserved := reserved }
    else do
      let available ← mmapInsertRegion m.available mmap.addr mmap.len .none
      return { m with available := available }
  else do
    let reserved ← mmapInsertRegion m.reserved mmap.addr mmap.len .none
    return { m with reserved := reserved }

def emptyMap : MemMap := ⟨0, ⟨0, fun _ => ⟨0, 0, .none⟩⟩, ⟨0, fun _ => ⟨0, 0, .none⟩⟩⟩

/-- `mmap_init`, where `kernEnd` is the address of `_kernel_end_phys`. -/
def mmapInit (kernEnd : Nat) (tags : List Tag) : Except Fault MemMap :=
  match findMmap tags with
  | none => .error (.panic "No multiboot memory map tag found")
  | some entries => do
    let m ← entries.foldlM (classify kernEnd) emptyMap
    return { m with highestMapped := kernelPhysMapEnd }

variable {x : Nat}

/-! ## Parts of entries -/

section Parts

variable {part : Entry → Nat × Nat} {entries done rest : List Entry} {e : Entry} {t : MmapType}

def piece (range : Nat × Nat) : List Region :=
  if range.2 = 0 then [] else [⟨range.1, range.2, .none⟩]

def pieces (part : Entry → Nat × Nat) (entries : List Entry) : List Region :=
  entries.flatMap fun e => piece (part e)

def Inside (part : Entry → Nat × Nat) (e : Entry) : Prop :=
  (part e).2 ≠ 0 → e.addr ≤ (part e).1 ∧ (part e).1 + (part e).2 ≤ e.addr + e.len

/-- The entries come in order, and none is empty or overlaps another. One that ends at `2 ^ 64`
is left out: the 64-bit sum of its base and its length is 0. -/
structure Ascending (entries : List Entry) : Prop where
  positive : ∀ e ∈ entries, 0 < e.len
  bound : ∀ e ∈ entries, e.addr + e.len < wordMod
  order : entries.Pairwise fun a b => a.addr + a.len ≤ b.addr

theorem bytes_piece {range : Nat × Nat} : Bytes (piece range) x ↔ range.1 ≤ x ∧ x < range.1 + range.2 := by
  unfold piece
  split
  case isTrue zero => simp [Bytes, zero]
  case isFalse => simp [Bytes, Region.span, Span.Covers]

theorem bytes_pieces : Bytes (pieces part entries) x ↔ ∃ e ∈ entries, (part e).1 ≤ x ∧
    x < (part e).1 + (part e).2 := by
  induction entries with
  | nil => simp [Bytes, pieces]
  | cons e rest ih =>
    have split : Bytes (pieces part (e :: rest)) x ↔ Bytes (piece (part e)) x ∨
        Bytes (pieces part rest) x := by
      rw [pieces, List.flatMap_cons, Bytes, List.map_append, covered_append]
      rfl
    rw [split, bytes_piece, ih]
    simp

theorem pieces_below (inside : ∀ e ∈ entries, Inside part e) (ascending : Ascending entries)
    (split : entries = done ++ rest) {y : Nat} (early : Bytes (pieces part done) x)
    (late : Bytes (pieces part rest) y) : x < y := by
  obtain ⟨a, memberA, lowA, highA⟩ := bytes_pieces.mp early
  obtain ⟨b, memberB, lowB, highB⟩ := bytes_pieces.mp late
  have order := ascending.order
  rw [split, List.pairwise_append] at order
  have apart := order.2.2 a memberA b memberB
  have first := inside a (by simp [split, memberA]) (by omega)
  have second := inside b (by simp [split, memberB]) (by omega)
  omega

theorem pieces_snoc : pieces part (done ++ [e]) = pieces part done ++ piece (part e) := by
  simp [pieces]

theorem bytes_pieces_append : Bytes (pieces part (done ++ rest)) x ↔
    Bytes (pieces part done) x ∨ Bytes (pieces part rest) x := by
  rw [pieces, List.flatMap_append, Bytes, List.map_append, covered_append]
  rfl

theorem part_fits (inside : ∀ e ∈ entries, Inside part e) (ascending : Ascending entries)
    (split : entries = done ++ e :: rest) (canonical : Canonical (pieces part done) t)
    (some : (part e).2 ≠ 0) :
    Fits t (part e).1 (part e).2 ∧ ¬ FillsBelow (pieces part done) ⟨(part e).1, (part e).2, .none⟩ := by
  have member : e ∈ entries := by simp [split]
  have within := inside e member some
  have bound := ascending.bound e member
  have below : ∀ x, Bytes (pieces part done) x → x < (part e).1 := by
    intro x early
    have first : Bytes (pieces part (e :: rest)) (part e).1 :=
      bytes_pieces.mpr ⟨e, List.mem_cons_self, le_refl _, by omega⟩
    exact pieces_below inside ascending split early first
  refine ⟨⟨Nat.pos_of_ne_zero some, by omega, fun x low _ covered => ?_⟩, ?_⟩
  · have early := below x ((canonical.bytes x).mp covered)
    omega
  · rintro ⟨above, -⟩
    have early := below _ above
    simp only at early
    omega

theorem insert_nothing (small : t.count ≤ maxRegions) (addr : Nat) (flags : RegionFlags) :
    mmapInsertRegion t addr 0 flags = .ok t := by
  rw [mmapInsertRegion, kassert, if_pos small, ok_bind, if_pos rfl]
  rfl

theorem insert_part_ok {t' : MmapType} (inside : ∀ e ∈ entries, Inside part e)
    (ascending : Ascending entries) (split : entries = done ++ e :: rest)
    (canonical : Canonical (pieces part done) t)
    (ran : mmapInsertRegion t (part e).1 (part e).2 .none = .ok t') :
    Canonical (pieces part (done ++ [e])) t' := by
  rw [pieces_snoc, piece]
  split
  case isTrue empty =>
    rw [empty, insert_nothing canonical.small] at ran
    cases ran
    rwa [List.append_nil]
  case isFalse some =>
    obtain ⟨fits, order⟩ := part_fits inside ascending split canonical some
    exact canonical.insert_ok fits order ran

/-- There is a slot for every part if there is one for each interval of all of them. -/
theorem insert_part (inside : ∀ e ∈ entries, Inside part e) (ascending : Ascending entries)
    (few : ∃ l, Separated l ∧ (∀ x, Covered l x ↔ Bytes (pieces part entries) x) ∧ l.length ≤ maxRegions)
    (split : entries = done ++ e :: rest) (canonical : Canonical (pieces part done) t) :
    ∃ t', mmapInsertRegion t (part e).1 (part e).2 .none = .ok t' := by
  by_cases empty : (part e).2 = 0
  · exact ⟨t, empty ▸ insert_nothing canonical.small _ _⟩
  · obtain ⟨fits, order⟩ := part_fits inside ascending split canonical empty
    obtain ⟨whole, sorted, total, short⟩ := few
    have all : ∀ x, Covered whole x ↔ Bytes (pieces part (done ++ [e])) x ∨ Bytes (pieces part rest) x := by
      intro x
      rw [total, split, ← bytes_pieces_append, List.append_assoc, List.singleton_append]
    have enough : ∀ l, Separated l →
        (∀ x, Covered l x ↔ Bytes (pieces part done ++ [⟨(part e).1, (part e).2, .none⟩]) x) →
          l.length ≤ maxRegions := by
      intro l separated covers
      have upTo : ∀ x, Covered l x ↔ Bytes (pieces part (done ++ [e])) x := by
        intro x
        rw [covers, pieces_snoc, piece, if_neg empty]
      -- the intervals so far are no more than those of all entries
      refine (separated.length_le sorted (fun x covered => (all x).mpr (.inl ((upTo x).mp covered)))
        ?_).trans short
      intro x y early late missing
      have later := ((all y).mp late).resolve_left (mt (upTo y).mpr missing)
      exact pieces_below inside ascending (by simp [split]) ((upTo x).mp early) later
    obtain ⟨t', ran, -⟩ := Canonical.insert canonical fits order enough
    exact ⟨t', ran⟩

end Parts

/-! ## The two lists -/

section Classify

variable {kernEnd : Nat} {m : MemMap} {entries : List Entry} {e : Entry}

def availablePart (kernEnd : Nat) (e : Entry) : Nat × Nat :=
  if e.type = multibootMemoryAvailable then (max e.addr kernEnd,
    e.addr + e.len - max e.addr kernEnd) else (e.addr, 0)

def reservedPart (kernEnd : Nat) (e : Entry) : Nat × Nat :=
  if e.type = multibootMemoryAvailable then (e.addr, min (e.addr + e.len) kernEnd - e.addr)
  else (e.addr, e.len)

theorem inside_availablePart : Inside (availablePart kernEnd) e := by
  unfold Inside availablePart
  split
  · intro some
    simp only at some ⊢
    omega
  · intro some
    exact absurd rfl some

theorem inside_reservedPart : Inside (reservedPart kernEnd) e := by
  unfold Inside reservedPart
  split
  · intro some
    simp only at some ⊢
    omega
  · intro some
    exact ⟨le_refl _, le_refl _⟩

/-- Every entry is cut at the end of the kernel; a part that is empty changes nothing. -/
theorem classify_eq (bound : e.addr + e.len < wordMod) (available : m.available.count ≤ maxRegions)
    (reserved : m.reserved.count ≤ maxRegions) : classify kernEnd m e = (do
      let reserved ← mmapInsertRegion m.reserved (reservedPart kernEnd e).1 (reservedPart kernEnd e).2 .none
      let available ← mmapInsertRegion m.available (availablePart kernEnd e).1
        (availablePart kernEnd e).2 .none
      return { m with available := available, reserved := reserved }) := by
  unfold classify availablePart reservedPart
  rw [Nat.mod_eq_of_lt bound]
  split_ifs with usable low straddles
  · -- available, but below the end of the kernel
    have whole : min (e.addr + e.len) kernEnd - e.addr = e.len := by omega
    have nothing : e.addr + e.len - max e.addr kernEnd = 0 := by omega
    simp only [whole, nothing, insert_nothing available, ok_bind]
  · -- across the end of the kernel: two parts
    have cut : wordSub kernEnd e.addr = min (e.addr + e.len) kernEnd - e.addr := by
      rw [wordSub_eq (by omega) (by omega)]
      omega
    have above : wordSub e.len (wordSub kernEnd e.addr) = e.addr + e.len - max e.addr kernEnd := by
      rw [wordSub_eq (by omega) (by omega), cut]
      omega
    have start : max e.addr kernEnd = kernEnd := by omega
    rw [above, cut, start]
  · -- behind the kernel
    have nothing : min (e.addr + e.len) kernEnd - e.addr = 0 := by omega
    have start : max e.addr kernEnd = e.addr := by omega
    have whole : e.addr + e.len - e.addr = e.len := by omega
    simp only [start, whole, nothing, insert_nothing reserved, ok_bind]
  · simp only [insert_nothing available, ok_bind]

def Entry.Covers (e : Entry) (x : Nat) : Prop := e.addr ≤ x ∧ x < e.addr + e.len

def AvailableByte (kernEnd : Nat) (entries : List Entry) (x : Nat) : Prop :=
  kernEnd ≤ x ∧ ∃ e ∈ entries, e.type = multibootMemoryAvailable ∧ e.Covers x

def ReservedByte (kernEnd : Nat) (entries : List Entry) (x : Nat) : Prop :=
  (∃ e ∈ entries, e.Covers x) ∧ ¬ AvailableByte kernEnd entries x

theorem Ascending.unique (ascending : Ascending entries) {a b : Entry} (left : a ∈ entries)
    (right : b ∈ entries) (coversA : a.Covers x) (coversB : b.Covers x) : a = b := by
  have apart : entries.Pairwise fun a b => ¬ (a.Covers x ∧ b.Covers x) := by
    refine ascending.order.imp fun {a b} below => ?_
    unfold Entry.Covers
    omega
  have symmetric : Std.Symm fun a b : Entry => ¬ (a.Covers x ∧ b.Covers x) :=
    ⟨fun _ _ no both => no both.symm⟩
  by_contra different
  exact apart.forall left right different ⟨coversA, coversB⟩

theorem bytes_available : Bytes (pieces (availablePart kernEnd) entries) x ↔
    AvailableByte kernEnd entries x := by
  have each : ∀ e : Entry, ((availablePart kernEnd e).1 ≤ x ∧
      x < (availablePart kernEnd e).1 + (availablePart kernEnd e).2) ↔
        kernEnd ≤ x ∧ e.type = multibootMemoryAvailable ∧ e.Covers x := by
    intro e
    unfold availablePart Entry.Covers
    split
    · simp only
      omega
    · simp only
      omega
  simp only [bytes_pieces, each, AvailableByte]
  grind

theorem bytes_reserved (ascending : Ascending entries) :
    Bytes (pieces (reservedPart kernEnd) entries) x ↔ ReservedByte kernEnd entries x := by
  have each : ∀ e : Entry, ((reservedPart kernEnd e).1 ≤ x ∧
      x < (reservedPart kernEnd e).1 + (reservedPart kernEnd e).2) ↔
        e.Covers x ∧ ¬ (kernEnd ≤ x ∧ e.type = multibootMemoryAvailable) := by
    intro e
    unfold reservedPart Entry.Covers
    split
    · simp only
      omega
    · simp only
      omega
  simp only [bytes_pieces, each]
  constructor
  · rintro ⟨e, member, covers, reserved⟩
    refine ⟨⟨e, member, covers⟩, ?_⟩
    -- only this entry has the byte, so no other one makes it available
    rintro ⟨high, other, member', usable, covers'⟩
    obtain rfl := ascending.unique member member' covers covers'
    exact reserved ⟨high, usable⟩
  · rintro ⟨⟨e, member, covers⟩, other⟩
    exact ⟨e, member, covers, fun both => other ⟨both.1, e, member, both.2, covers⟩⟩

/-- The two lists hold the maximal intervals of what the entries so far have of either kind. -/
structure Classified (kernEnd : Nat) (done : List Entry) (m : MemMap) : Prop where
  available : Canonical (pieces (availablePart kernEnd) done) m.available
  reserved : Canonical (pieces (reservedPart kernEnd) done) m.reserved

theorem classified_nil : Classified kernEnd [] emptyMap := by
  have nothing : ∀ slots, Canonical [] ⟨0, slots⟩ := by
    refine fun slots => ⟨⟨separated_nil, fun rg inside => ?_⟩, fun x => Iff.rfl, Nat.zero_le _⟩
    exact absurd inside List.not_mem_nil
  exact ⟨nothing _, nothing _⟩

theorem Classified.step {done rest : List Entry} {m' : MemMap} (ascending : Ascending entries)
    (split : entries = done ++ e :: rest) (classified : Classified kernEnd done m)
    (ran : classify kernEnd m e = .ok m') : Classified kernEnd (done ++ [e]) m' := by
  rw [classify_eq (ascending.bound e (by simp [split])) classified.available.small
    classified.reserved.small] at ran
  obtain ⟨reserved, inserted, ran⟩ := bind_eq_ok.mp ran
  obtain ⟨available, inserted', ran⟩ := bind_eq_ok.mp ran
  cases ran
  exact ⟨insert_part_ok (fun e _ => inside_availablePart) ascending split classified.available inserted',
    insert_part_ok (fun e _ => inside_reservedPart) ascending split classified.reserved inserted⟩

/-- After the boot memory map has been read, the available list has exactly the available
bytes from the end of the kernel on, the reserved list all others, each as its maximal
intervals in ascending order. -/
theorem mmap_init_classifies {tags : List Tag} (found : findMmap tags = some entries)
    (ascending : Ascending entries) (fewAvailable : ∃ l, Separated l ∧
      (∀ x, Covered l x ↔ AvailableByte kernEnd entries x) ∧ l.length ≤ maxRegions)
    (fewReserved : ∃ l, Separated l ∧ (∀ x, Covered l x ↔ ReservedByte kernEnd entries x) ∧
      l.length ≤ maxRegions) :
    ∃ m, mmapInit kernEnd tags = .ok m ∧ m.highestMapped = kernelPhysMapEnd ∧
      (∀ x, Covered m.available.spans x ↔ AvailableByte kernEnd entries x) ∧
      (∀ x, Covered m.reserved.spans x ↔ ReservedByte kernEnd entries x) ∧
      Separated m.available.spans ∧ Separated m.reserved.spans := by
  simp only [← bytes_available] at fewAvailable
  simp only [← bytes_reserved ascending] at fewReserved
  have finished : ∃ m, entries.foldlM (classify kernEnd) emptyMap = .ok m ∧
      Classified kernEnd entries m := by
    refine loop_finishes (Classified kernEnd) classified_nil fun done e rest m split classified => ?_
    obtain ⟨reserved, inserted⟩ :=
      insert_part (fun e _ => inside_reservedPart) ascending fewReserved split classified.reserved
    obtain ⟨available, inserted'⟩ :=
      insert_part (fun e _ => inside_availablePart) ascending fewAvailable split classified.available
    have ran : classify kernEnd m e = .ok { m with available := available, reserved := reserved } := by
      rw [classify_eq (ascending.bound e (by simp [split])) classified.available.small
        classified.reserved.small, inserted, ok_bind, inserted']
      rfl
    exact ⟨_, ran, classified.step ascending split ran⟩
  obtain ⟨m, ran, classified⟩ := finished
  refine ⟨{ m with highestMapped := kernelPhysMapEnd }, ?_, rfl, fun x => ?_, fun x => ?_,
    classified.available.sorted.separated, classified.reserved.sorted.separated⟩
  · simp only [mmapInit, found, ran, ok_bind]
    rfl
  · exact (classified.available.bytes x).trans bytes_available
  · exact (classified.reserved.bytes x).trans (bytes_reserved ascending)

def splitEntries : List Entry := [⟨0x100000, 0x20000, 1⟩, ⟨0x120000, 0x1000, 2⟩]

theorem splitEntries_ascending : Ascending splitEntries :=
  ⟨by decide, by decide, by decide⟩

theorem splitEntries_available (x : Nat) : Covered [⟨0x110000, 0x120000⟩] x ↔
    AvailableByte 0x110000 splitEntries x := by
  simp only [AvailableByte, splitEntries, Entry.Covers, Covered, Span.Covers, multibootMemoryAvailable]
  simp
  omega

theorem splitEntries_reserved (x : Nat) :
    Covered [⟨0x100000, 0x110000⟩, ⟨0x120000, 0x121000⟩] x ↔ ReservedByte 0x110000 splitEntries x := by
  rw [ReservedByte, ← splitEntries_available]
  simp only [splitEntries, Entry.Covers, Covered, Span.Covers]
  simp
  omega

theorem mmap_init_classifies_split : ∃ m, mmapInit 0x110000 [⟨1, []⟩, ⟨6, splitEntries⟩] = .ok m ∧
    m.highestMapped = kernelPhysMapEnd ∧
    (∀ x, Covered m.available.spans x ↔ AvailableByte 0x110000 splitEntries x) ∧
    (∀ x, Covered m.reserved.spans x ↔ ReservedByte 0x110000 splitEntries x) ∧
    Separated m.available.spans ∧ Separated m.reserved.spans := by
  refine mmap_init_classifies rfl splitEntries_ascending ⟨_, ?_, splitEntries_available, by decide⟩
    ⟨_, ?_, splitEntries_reserved, by decide⟩
  · exact ⟨by decide, by decide⟩
  · exact ⟨by decide, by decide⟩

end Classify

end ByteOS.Mm.Mmap
