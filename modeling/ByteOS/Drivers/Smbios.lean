import ByteOS.Lib.Bytes
import ByteOS.Lib.Chain
import ByteOS.Mm.Addr

/-! The walk over the SMBIOS structures (`kernel/drivers/smbios/smbios.c`, in a build with `VERBOSE`).

A structure ends with its strings, whose end is marked by two zeros. The scan for the two zeros
is followed along the bytes of the strings, and the walk along the list of structures that the
table was made of.
-/

set_option autoImplicit false

namespace ByteOS.Drivers.Smbios

open Lib Mm
open List (mem_cons_self mem_cons_of_mem length_cons length_append flatMap_cons)

def typeProcessor : BitVec 8 := 4#8

def typeEnd : BitVec 8 := 127#8

structure Processor where
  maxSpeed : Nat
  currentSpeed : Nat
  externalClock : Nat
  family : BitVec 8
  manufacturer : Option (BitVec 64)
  deriving DecidableEq

/-- The addresses that `cur` had, `num`, and what was logged. -/
structure Walk where
  visited : List (BitVec 64)
  num : Nat
  processors : List Processor
  deriving DecidableEq

section Code

variable (mem : Memory)

/-- The field `length` of a header. -/
def headerLength (hd : BitVec 64) : Nat := (mem (hd + 1#64)).toNat

/-- The inner loop of `table_get_str`. -/
def skipString : Nat → BitVec 64 → Except Fault (BitVec 64)
  | 0, _ => .error .unfinished
  | fuel + 1, p => if mem p ≠ 0#8 then skipString fuel (p + 1#64) else .ok (p + 1#64)

/-- The outer loop of `table_get_str`, with the number of its passes. -/
def skipStrings : Nat → BitVec 64 → Except Fault (BitVec 64)
  | 0, p => .ok p
  | k + 1, p => do skipStrings k (← skipString mem passes p)

def tableGetStr (hd : BitVec 64) (index : Nat) : Except Fault (Option (BitVec 64)) :=
  if index = 0 then .ok none
  else do return some (← skipStrings mem (index - 1) (hd + BitVec.ofNat 64 (headerLength mem hd)))

def report (cur : BitVec 64) (logged : List Processor) : Except Fault (List Processor) :=
  if mem cur = typeProcessor then do
    let manufacturer ← tableGetStr mem cur (mem (cur + 7#64)).toNat
    return logged ++ [{ maxSpeed := readLe mem (cur + 20#64) 2
                        currentSpeed := readLe mem (cur + 22#64) 2
                        externalClock := readLe mem (cur + 18#64) 2
                        family := mem (cur + 6#64)
                        manufacturer := manufacturer }]
  else .ok logged

def seekEnd (strtab : BitVec 64) : Nat → Nat → Except Fault Nat
  | 0, _ => .error .unfinished
  | fuel + 1, i =>
    if mem (strtab + BitVec.ofNat 64 (i - 1)) ≠ 0#8 ∨
      mem (strtab + BitVec.ofNat 64 i) ≠ 0#8 then seekEnd strtab fuel (i + 1)
    else .ok i

def nextHeader (cur : BitVec 64) : Except Fault (BitVec 64) := do
  let i ← seekEnd mem (cur + BitVec.ofNat 64 (headerLength mem cur)) passes 1
  return cur + BitVec.ofNat 64 (headerLength mem cur + i + 1)

def walk : Nat → BitVec 64 → Walk → Except Fault Walk
  | 0, _, _ => .error .unfinished
  | fuel + 1, cur, w =>
    if mem cur = typeEnd then .ok { w with visited := w.visited ++ [cur] }
    else do
      let processors ← report mem cur w.processors
      let next ← nextHeader mem cur
      walk fuel next ⟨w.visited ++ [cur], w.num + 1, processors⟩

/-- The assertion in front of the walk. -/
def KnownType (type : BitVec 8) : Prop := type < 128#8 ∧ (type = typeEnd ∨ type ≤ 32#8)

instance (type : BitVec 8) : Decidable (KnownType type) := inferInstanceAs (Decidable (_ ∧ _))

/-- `dump_smbios_tables` up to the end of the walk. -/
def scanTables (start : BitVec 64) : Except Fault Walk := do
  kassert (KnownType (mem start))
    "start->type < 128 && (start->type == SMBIOS_TYPE_END || start->type <= 32)"
  walk mem passes start ⟨[], 0, []⟩

def dumpSmbiosTables (start : BitVec 64) (nstructs : Nat) : Except Fault Walk := do
  let w ← scanTables mem start
  kassert (nstructs = 0 ∨ w.num + 1 = nstructs) "nstructs == 0 || num + 1 == nstructs"
  return w

end Code

/-! ## The table that was written -/

/-- A structure of the specification. Its strings are not empty. -/
structure Structure where
  type : BitVec 8
  handle : BitVec 16
  body : List (BitVec 8)
  strings : List (List (BitVec 8))
  short : 4 + body.length < 256
  text : ∀ s ∈ strings, s ≠ [] ∧ 0#8 ∉ s

def terminated (strings : List (List (BitVec 8))) : List (BitVec 8) := strings.flatMap (· ++ [0#8])

namespace Structure

def formatted (st : Structure) : List (BitVec 8) :=
  st.type :: BitVec.ofNat 8 (4 + st.body.length) :: (leBytes 2 st.handle.toNat ++ st.body)

def stringSet (st : Structure) : List (BitVec 8) :=
  if st.strings = [] then [0#8, 0#8] else terminated st.strings ++ [0#8]

def encode (st : Structure) : List (BitVec 8) := st.formatted ++ st.stringSet

end Structure

def encode (structures : List Structure) : List (BitVec 8) := structures.flatMap Structure.encode

def starts (start : BitVec 64) : List Structure → List (BitVec 64)
  | [] => []
  | st :: rest => start :: starts (start + BitVec.ofNat 64 st.encode.length) rest

/-! ## The strings of a structure -/

/-- The first two zeros in a row are the last two bytes. -/
inductive Closes : List (BitVec 8) → Prop where
  | done : Closes [0#8, 0#8]
  | next {b c : BitVec 8} {rest : List (BitVec 8)} :
      b ≠ 0#8 ∨ c ≠ 0#8 → Closes (c :: rest) → Closes (b :: c :: rest)

variable {i k : Nat} {s : List (BitVec 8)} {a : BitVec 64} {w : Walk}

section

variable {mem : Memory} {p strtab cur : BitVec 64} {fuel : Nat} {bytes : List (BitVec 8)}
  {strings : List (List (BitVec 8))} {st : Structure}

theorem ofNat_add_one (i : Nat) : strtab + BitVec.ofNat 64 i + 1#64 = strtab + BitVec.ofNat 64 (i + 1) := by
  rw [BitVec.add_assoc, ← BitVec.ofNat_add]

theorem seekEnd_eq (closes : Closes bytes) (stored : BytesAt mem (strtab + BitVec.ofNat 64 i) bytes)
    (enough : bytes.length ≤ fuel) : seekEnd mem strtab fuel (i + 1) = .ok (i + bytes.length - 1) := by
  induction closes generalizing i fuel with
  | done =>
    obtain ⟨fuel, rfl⟩ := exists_succ_of_lt enough
    obtain ⟨first, second, -⟩ := stored
    rw [ofNat_add_one] at second
    rw [seekEnd, Nat.add_sub_cancel, first, second]
    rfl
  | @next b c rest nonzero closes ih =>
    obtain ⟨fuel, rfl⟩ := exists_succ_of_lt enough
    obtain ⟨first, others⟩ := stored
    rw [ofNat_add_one] at others
    have differs : mem (strtab + BitVec.ofNat 64 i) ≠ 0#8 ∨
        mem (strtab + BitVec.ofNat 64 (i + 1)) ≠ 0#8 := by
      rwa [first, others.1]
    have longer : (b :: c :: rest).length = (c :: rest).length + 1 := rfl
    rw [seekEnd, Nat.add_sub_cancel, if_pos differs, ih others (Nat.le_of_succ_le_succ enough),
      longer, Nat.add_right_comm, Nat.add_assoc]

theorem Closes.two_le (closes : Closes bytes) : 2 ≤ bytes.length := by
  cases closes with
  | done => exact Nat.le_refl 2
  | next nonzero closes => exact Nat.le_add_left 2 _

theorem Closes.zero (closes : Closes bytes) (stored : BytesAt mem p bytes) : ∃ a, mem a = 0#8 := by
  induction closes generalizing p with
  | done => exact ⟨p, stored.1⟩
  | next nonzero closes ih => exact ih stored.2

theorem Closes.text {rest : List (BitVec 8)} (text : 0#8 ∉ s) (closes : Closes (0#8 :: rest)) :
    Closes (s ++ 0#8 :: rest) := by
  induction s with
  | nil => exact closes
  | cons b s ih =>
    have nonzero : b ≠ 0#8 := fun zero => text (zero ▸ mem_cons_self)
    have after := ih fun zero => text (mem_cons_of_mem b zero)
    cases s with
    | nil | cons c s => exact .next (.inl nonzero) after

theorem closes_terminated (some : strings ≠ []) (text : ∀ s ∈ strings, s ≠ [] ∧ 0#8 ∉ s) :
    Closes (terminated strings ++ [0#8]) := by
  induction strings with
  | nil => exact absurd rfl some
  | cons s strings ih =>
    obtain ⟨-, nonzero⟩ := text s mem_cons_self
    have others : ∀ s ∈ strings, s ≠ [] ∧ 0#8 ∉ s := fun s member => text s (mem_cons_of_mem _ member)
    have split : terminated (s :: strings) ++ [0#8] = s ++ 0#8 :: (terminated strings ++ [0#8]) := by
      simp [terminated]
    rw [split]
    refine Closes.text nonzero ?_
    cases strings with
    | nil => exact .done
    | cons t strings =>
      -- the next string begins with a byte that is not zero
      obtain ⟨nonempty, clean⟩ := others t mem_cons_self
      have after := ih (List.cons_ne_nil t strings) others
      cases t with
      | nil => exact absurd rfl nonempty
      | cons c t => exact .next (.inr fun zero => clean (zero ▸ mem_cons_self)) after

theorem Structure.stringSet_closes (st : Structure) : Closes st.stringSet := by
  unfold stringSet
  split
  case isTrue => exact .done
  case isFalse some => exact closes_terminated some st.text

theorem Structure.stringSet_strings (st : Structure) (stored : BytesAt mem p st.stringSet) :
    BytesAt mem p (terminated st.strings) := by
  unfold stringSet at stored
  split at stored
  case isTrue none =>
    rw [none]
    trivial
  case isFalse => exact (bytesAt_append.mp stored).1

theorem Structure.formatted_length (st : Structure) : st.formatted.length = 4 + st.body.length := by
  rw [formatted, length_cons, length_cons, length_append, leBytes_length]
  omega

theorem Structure.headerLength_eq (stored : BytesAt mem cur st.formatted) :
    headerLength mem cur = st.formatted.length := by
  obtain ⟨-, second, -⟩ := stored
  rw [headerLength, second, BitVec.toNat_ofNat, Nat.mod_eq_of_lt st.short, formatted_length]

theorem skipString_eq (text : 0#8 ∉ bytes) (stored : BytesAt mem p (bytes ++ [0#8]))
    (enough : bytes.length < fuel) :
    skipString mem fuel p = .ok (p + BitVec.ofNat 64 (bytes ++ [0#8]).length) := by
  induction bytes generalizing p fuel with
  | nil =>
    obtain ⟨fuel, rfl⟩ := exists_succ_of_lt enough
    rw [skipString, if_neg (not_not_intro stored.1)]
    rfl
  | cons b bytes ih =>
    obtain ⟨fuel, rfl⟩ := exists_succ_of_lt enough
    obtain ⟨first, rest⟩ := stored
    have nonzero : mem p ≠ 0#8 := fun zero => text (by rw [← zero, first]; exact mem_cons_self)
    rw [skipString, if_pos nonzero, ih (fun zero => text (mem_cons_of_mem b zero)) rest
      (Nat.lt_of_succ_lt_succ enough), add_one_add]
    rfl

theorem skipStrings_eq (text : ∀ s ∈ strings, 0#8 ∉ s ∧ s.length < passes)
    (stored : BytesAt mem p (terminated strings)) (member : strings[k]? = some s) :
    ∃ q, skipStrings mem k p = .ok q ∧ BytesAt mem q (s ++ [0#8]) := by
  induction strings generalizing k p with
  | nil => cases member
  | cons first strings ih =>
    obtain ⟨here, further⟩ := bytesAt_append.mp stored
    cases k with
    | zero =>
      cases member
      exact ⟨p, rfl, here⟩
    | succ k =>
      obtain ⟨nonzero, short⟩ := text first mem_cons_self
      have rest := ih (fun s member => text s (mem_cons_of_mem first member)) further member
      rwa [skipStrings, skipString_eq nonzero here short, ok_bind]

theorem skipString_ends (zero : mem (p + BitVec.ofNat 64 k) = 0#8) (enough : k < fuel) :
    ∃ q, skipString mem fuel p = .ok q := by
  induction k generalizing p fuel with
  | zero =>
    obtain ⟨fuel, rfl⟩ := exists_succ_of_lt enough
    rw [BitVec.add_zero] at zero
    exact ⟨_, if_neg (not_not_intro zero)⟩
  | succ k ih =>
    obtain ⟨fuel, rfl⟩ := exists_succ_of_lt enough
    rw [skipString]
    split
    · exact ih (by rw [add_one_add]; exact zero) (Nat.lt_of_succ_lt_succ enough)
    · exact ⟨_, rfl⟩

theorem skipStrings_ends (zero : mem a = 0#8) (k : Nat) (p : BitVec 64) :
    ∃ q, skipStrings mem k p = .ok q := by
  induction k generalizing p with
  | zero => exact ⟨p, rfl⟩
  | succ k ih =>
    have reached : mem (p + BitVec.ofNat 64 (a - p).toNat) = 0#8 := by
      rw [BitVec.ofNat_toNat, BitVec.setWidth_eq, BitVec.add_comm, BitVec.sub_add_cancel, zero]
    obtain ⟨q, run⟩ := skipString_ends reached ((a - p).isLt.trans (by decide : 2 ^ 64 < passes))
    rw [skipStrings, run]
    exact ih q

theorem report_ends (zero : mem a = 0#8) (cur : BitVec 64) (logged : List Processor) :
    ∃ processors, report mem cur logged = .ok processors := by
  unfold report
  split
  · unfold tableGetStr
    split
    · exact ⟨_, rfl⟩
    · obtain ⟨q, run⟩ :=
        skipStrings_ends zero ((mem (cur + 7#64)).toNat - 1) (cur + BitVec.ofNat 64 (headerLength mem cur))
      rw [run]
      exact ⟨_, rfl⟩
  · exact ⟨logged, rfl⟩

/-! ## One structure -/

structure Held (mem : Memory) (cur : BitVec 64) (st : Structure) : Prop where
  formatted : BytesAt mem cur st.formatted
  strings : BytesAt mem (cur + BitVec.ofNat 64 st.formatted.length) st.stringSet
  short : st.encode.length ≤ 2 ^ 64

theorem Held.type (held : Held mem cur st) : mem cur = st.type := held.formatted.1

theorem Held.stringSet_short (held : Held mem cur st) : st.stringSet.length ≤ 2 ^ 64 := by
  have bound := held.short
  rw [Structure.encode, length_append] at bound
  omega

theorem Held.nextHeader (held : Held mem cur st) :
    nextHeader mem cur = .ok (cur + BitVec.ofNat 64 st.encode.length) := by
  have length := Structure.headerLength_eq held.formatted
  have enough : st.stringSet.length ≤ passes := held.stringSet_short.trans (by decide)
  have strings := held.strings
  rw [← BitVec.add_zero (cur + _)] at strings
  have run := seekEnd_eq (i := 0) st.stringSet_closes strings enough
  have some := st.stringSet_closes.two_le
  rw [Smbios.nextHeader, length, run, ok_bind, Structure.encode, length_append]
  congr 3
  omega

theorem mem_terminated_length (member : s ∈ strings) : s.length ≤ (terminated strings).length := by
  induction strings with
  | nil => cases member
  | cons first strings ih =>
    have split : (terminated (first :: strings)).length = first.length + 1 +
        (terminated strings).length := by
      simp only [terminated, flatMap_cons, length_append, List.length_singleton]
    rw [split]
    cases member with
    | head => omega
    | tail _ member =>
      have := ih member
      omega

theorem Structure.terminated_le (st : Structure) :
    (terminated st.strings).length ≤ st.stringSet.length := by
  unfold stringSet
  split
  case isTrue none => simp [none, terminated]
  case isFalse => simp

theorem Held.tableGetStr (held : Held mem cur st) (member : st.strings[k]? = some s) :
    ∃ q, tableGetStr mem cur (k + 1) = .ok (some q) ∧ BytesAt mem q (s ++ [0#8]) := by
  have text : ∀ s ∈ st.strings, 0#8 ∉ s ∧ s.length < passes := by
    intro s member
    have bound := ((mem_terminated_length member).trans st.terminated_le).trans held.stringSet_short
    exact ⟨(st.text s member).2, bound.trans_lt (by decide)⟩
  obtain ⟨q, run, found⟩ := skipStrings_eq text (st.stringSet_strings held.strings) member
  refine ⟨q, ?_, found⟩
  rw [Smbios.tableGetStr, if_neg k.succ_ne_zero, Nat.add_sub_cancel,
    Structure.headerLength_eq held.formatted, run]
  rfl

theorem Held.zero (held : Held mem cur st) : ∃ a, mem a = 0#8 := st.stringSet_closes.zero held.strings

/-! ## The walk -/

theorem held_of_stored {structures : List Structure} {start place : BitVec 64}
    (stored : BytesAt mem start (encode structures)) (fits : (encode structures).length ≤ 2 ^ 64)
    (member : structures[i]? = some st) (there : (starts start structures)[i]? = some place) :
    Held mem place st := by
  induction structures generalizing start i with
  | nil => cases member
  | cons first structures ih =>
    obtain ⟨here, further⟩ := bytesAt_append.mp stored
    rw [encode, flatMap_cons, length_append] at fits
    cases i with
    | zero =>
      cases member
      cases there
      obtain ⟨formatted, strings⟩ := bytesAt_append.mp here
      exact ⟨formatted, strings, (Nat.le_add_right _ _).trans fits⟩
    | succ i => exact ih further ((Nat.le_add_left _ _).trans fits) member there

theorem walk_eq {before : List Structure} {last : Structure}
    (inner : ∀ st ∈ before, st.type ≠ typeEnd) (ends : last.type = typeEnd)
    (stored : BytesAt mem cur (encode (before ++ [last])))
    (fits : (encode (before ++ [last])).length ≤ 2 ^ 64) (enough : before.length < fuel) :
    ∃ processors, walk mem fuel cur w =
      .ok ⟨w.visited ++ starts cur (before ++ [last]), w.num + before.length, processors⟩ := by
  induction before generalizing cur fuel w with
  | nil =>
    obtain ⟨fuel, rfl⟩ := exists_succ_of_lt enough
    have held : Held mem cur last := held_of_stored (i := 0) stored fits rfl rfl
    refine ⟨w.processors, ?_⟩
    rw [walk, if_pos (held.type.trans ends)]
    rfl
  | cons st before ih =>
    obtain ⟨fuel, rfl⟩ := exists_succ_of_lt enough
    have held : Held mem cur st := held_of_stored (i := 0) stored fits rfl rfl
    have other : mem cur ≠ typeEnd := by
      rw [held.type]
      exact inner st mem_cons_self
    obtain ⟨a, zero⟩ := held.zero
    obtain ⟨logged, reported⟩ := report_ends zero cur w.processors
    obtain ⟨-, further⟩ := bytesAt_append.mp stored
    rw [encode, List.cons_append, flatMap_cons, length_append] at fits
    obtain ⟨processors, run⟩ := ih (w := ⟨w.visited ++ [cur], w.num + 1, logged⟩)
      (fun st member => inner st (mem_cons_of_mem _ member)) further ((Nat.le_add_left _ _).trans fits)
      (Nat.lt_of_succ_lt_succ enough)
    refine ⟨processors, ?_⟩
    rw [walk, if_neg other, reported, ok_bind, held.nextHeader, ok_bind, run]
    simp only [List.append_assoc, List.cons_append, List.nil_append, starts, length_cons,
      Nat.add_comm 1, Nat.add_assoc]

end

/-- A table in memory: the structures before the first of type 127, and that one. -/
structure Table (mem : Memory) (start : BitVec 64) (before : List Structure) (last : Structure) : Prop where
  inner : ∀ st ∈ before, st.type ≠ typeEnd
  ends : last.type = typeEnd
  stored : BytesAt mem start (encode (before ++ [last]))
  fits : (encode (before ++ [last])).length ≤ 2 ^ 64

section

variable {mem : Memory} {start : BitVec 64} {before : List Structure} {last : Structure}

section

variable (table : Table mem start before last)
include table

theorem Table.walk : ∃ processors,
    walk mem passes start ⟨[], 0, []⟩ = .ok ⟨starts start (before ++ [last]), before.length,
      processors⟩ := by
  have few : before.length < passes := by
    have bound := (length_le_flatMap Structure.encode (fun _ => Nat.succ_pos _) _).trans table.fits
    rw [length_append] at bound
    rw [passes]
    omega
  obtain ⟨processors, run⟩ := walk_eq (w := ⟨[], 0, []⟩) table.inner table.ends table.stored table.fits few
  rw [List.nil_append, Nat.zero_add] at run
  exact ⟨processors, run⟩

/-- The assertion is about the first structure. -/
theorem Table.first : ∀ st ∈ (before ++ [last]).head?, mem start = st.type := by
  intro st member
  cases before with
  | nil | cons first before =>
    cases member
    exact (held_of_stored (i := 0) table.stored table.fits rfl rfl).type

theorem Table.known_iff : KnownType (mem start) ↔
    ∀ st ∈ (before ++ [last]).head?, st.type.toNat ≤ 32 ∨ st.type = typeEnd := by
  have same : ∀ type : BitVec 8, KnownType type ↔ type.toNat ≤ 32 ∨ type = typeEnd := by decide
  obtain ⟨st, head⟩ : ∃ st, (before ++ [last]).head? = some st := by cases before <;> exact ⟨_, rfl⟩
  rw [same, table.first st head, head]
  exact ⟨fun known other member => Option.some.inj member ▸ known, fun known => known st rfl⟩

end

theorem scanTables_ok_iff (run : walk mem passes start ⟨[], 0, []⟩ = .ok w) :
    scanTables mem start = .ok w ↔ KnownType (mem start) := by
  unfold scanTables kassert
  split
  case isTrue known => exact iff_of_true run known
  case isFalse unknown => exact iff_of_false nofun unknown

end

/-- The walk comes to every structure in order and counts those before the last, exactly if the
type of the first structure is one that is expected there. Every string is found by its number. -/
theorem smbios_walk (mem : Memory) (start : BitVec 64) (before : List Structure) (last : Structure)
    (table : Table mem start before last) :
    ((∃ processors, scanTables mem start = .ok ⟨starts start (before ++ [last]), before.length,
      processors⟩) ↔
      ∀ st ∈ (before ++ [last]).head?, st.type.toNat ≤ 32 ∨ st.type = typeEnd) ∧
    ∀ (i : Nat) (st : Structure) (place : BitVec 64),
      (before ++ [last])[i]? = some st → (starts start (before ++ [last]))[i]? = some place →
      ∀ (k : Nat) (s : List (BitVec 8)), st.strings[k]? = some s →
        ∃ p, tableGetStr mem place (k + 1) = .ok (some p) ∧ BytesAt mem p (s ++ [0#8]) := by
  constructor
  · rw [← table.known_iff]
    constructor
    · rintro ⟨processors, scanned⟩
      by_contra unknown
      rw [scanTables, kassert, if_neg unknown] at scanned
      cases scanned
    · intro known
      obtain ⟨processors, run⟩ := table.walk
      exact ⟨processors, (scanTables_ok_iff run).mpr known⟩
  · intro i st place member there k s string
    exact (held_of_stored table.stored table.fits member there).tableGetStr string

theorem bare_short : 4 + ([] : List (BitVec 8)).length < 256 := by decide

def bare (type : BitVec 8) : Structure := ⟨type, 0#16, [], [], bare_short, nofun⟩

theorem letter_text : ∀ s ∈ [[ascii 'A']], s ≠ [] ∧ 0#8 ∉ s := by decide

def vendor : Structure := ⟨0#8, 0#16, [], [[ascii 'A']], bare_short, letter_text⟩

def tableOf (st : Structure) : Memory := image 0x1000#64 (encode ([st] ++ [bare typeEnd]))

theorem tableOf_table {st : Structure} (inner : st.type ≠ typeEnd)
    (short : (encode ([st] ++ [bare typeEnd])).length ≤ 2 ^ 64) :
    Table (tableOf st) 0x1000#64 [st] (bare typeEnd) where
  inner := by
    intro other member
    rwa [List.mem_singleton.mp member]
  ends := rfl
  stored := image_bytesAt 0x1000#64 short
  fits := short

theorem vendor_inner : vendor.type ≠ typeEnd := by decide

theorem vendor_short : (encode ([vendor] ++ [bare typeEnd])).length ≤ 2 ^ 64 := by decide

theorem smbios_walk_vendor :
    (∃ processors, scanTables (tableOf vendor) 0x1000#64 = .ok ⟨[0x1000#64, 0x1007#64], 1, processors⟩) ∧
    ∃ p, tableGetStr (tableOf vendor) 0x1000#64 1 = .ok (some p) ∧
      BytesAt (tableOf vendor) p [ascii 'A', 0#8] := by
  obtain ⟨scans, strings⟩ := smbios_walk _ _ _ _ (tableOf_table vendor_inner vendor_short)
  exact ⟨scans.mpr (by simp [vendor]), strings 0 vendor 0x1000#64 rfl rfl 0 [ascii 'A'] rfl⟩

/-- A table that starts with a structure of type 34, a management device. -/
theorem management_device_first : Table (tableOf (bare 34#8)) 0x1000#64 [bare 34#8] (bare typeEnd) ∧
    scanTables (tableOf (bare 34#8)) 0x1000#64 =
      .error (.kassert "start->type < 128 && (start->type == SMBIOS_TYPE_END || start->type <= 32)") :=
  ⟨tableOf_table (by decide) (by decide), rfl⟩

end ByteOS.Drivers.Smbios
