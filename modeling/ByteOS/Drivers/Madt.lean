import ByteOS.Drivers.Acpi
import ByteOS.Lib.Bytes
import ByteOS.Lib.Chain
import ByteOS.Mm.MapAll

/-! Reading the MADT (`kernel/drivers/apic/apic.c`).

The loop walks over the entries by the length that each of them records. What it puts into the
lists is compared with the entries that the table was made of, and the addresses that it reads
with the bounds of the table. The lists hold pointers into the table, except for that of the
local APICs, which are copied.
-/

set_option autoImplicit false

namespace ByteOS.Drivers

open Lib Mm
open MapAll (physToVirt)
open List (append_nil length_append length_map length_cons flatMap_cons filterMap_append
  singleton_append mem_cons)
open BitVec (ofNat ofNat_add toNat_ofNat ofNat_toNat setWidth_eq lt_def toNat_add)
open Traced (value_bind value_pure)

def maxLapics : Nat := 20
def maxIoapics : Nat := 16
def maxNmis : Nat := 2 * maxLapics
def maxOverrides : Nat := 48

def pageDisableCache : BitVec 64 := 1#64 <<< 4

def deviceFlags : BitVec 64 := vmmAllocMmap ||| pageGlobal ||| pageDisableCache ||| pageWritable

/-- `struct lapic_info` without the calibration of its timer, which is not set here. -/
structure LapicInfo where
  id : BitVec 8
  acpiId : BitVec 8
  present : Bool
  deriving DecidableEq

/-- The lists, each up to its size, and the calls of `vmm_map_page` with `deviceFlags`. -/
structure Apic where
  lapicList : List LapicInfo
  ioapicList : List (BitVec 64)
  overrideList : List (BitVec 64)
  nmiList : List (BitVec 64)
  calls : List Call
  lapicBase : BitVec 64

def Apic.empty : Apic := ⟨[], [], [], [], [], 0#64⟩

section Code

variable (mem : Memory)

def addLapic (entry : BitVec 64) (k : Apic) : Traced Apic := do
  if k.lapicList.length ≥ maxLapics then return k
  let flags ← load mem (entry + 4#64) 4
  let apicId ← load mem (entry + 3#64) 1
  let acpiId ← load mem (entry + 2#64) 1
  return { k with lapicList := k.lapicList ++ [⟨ofNat 8 apicId, ofNat 8 acpiId, flags ≠ 0⟩] }

def addIoapic (entry : BitVec 64) (k : Apic) : Traced Apic := do
  if k.ioapicList.length ≥ maxIoapics then return k
  let physAddr ← load mem (entry + 4#64) 4
  return { k with
    calls := k.calls ++ [⟨ofNat 64 physAddr, physToVirt physAddr⟩]
    ioapicList := k.ioapicList ++ [entry] }

def addOverride (entry : BitVec 64) (k : Apic) : Traced Apic := do
  if k.overrideList.length ≥ maxOverrides then return k
  return { k with overrideList := k.overrideList ++ [entry] }

def addNmi (entry : BitVec 64) (k : Apic) : Traced Apic := do
  if k.nmiList.length ≥ maxNmis then return k
  let _acpiId ← load mem (entry + 2#64) 1
  return { k with nmiList := k.nmiList ++ [entry] }

/-- Where the loop stands: `hd`, `tmp_lapic_base` and the lists. -/
structure Scan where
  hd : BitVec 64
  base : BitVec 64
  apic : Apic

/-- The `switch` of the loop. -/
def dispatch (type : Nat) (s : Scan) : Traced Scan :=
  match type with
  | 0 => do return { s with apic := ← addLapic mem s.hd s.apic }
  | 1 => do return { s with apic := ← addIoapic mem s.hd s.apic }
  | 2 => do return { s with apic := ← addOverride s.hd s.apic }
  | 4 => do return { s with apic := ← addNmi mem s.hd s.apic }
  | 5 => do return { s with base := physToVirt (← load mem (s.hd + 4#64) 8) }
  | _ => return s

def entryStep (s : Scan) : Traced Scan := do
  let type ← load mem s.hd 1
  let s ← dispatch mem type s
  let length ← load mem (s.hd + 1#64) 1
  return { s with hd := s.hd + ofNat 64 length }

def entriesLoop (endAddr : BitVec 64) : Nat → Scan → Except Fault (Scan × List (BitVec 64))
  | 0, _ => .error .unfinished
  | fuel + 1, s =>
    if s.hd < endAddr then do
      let (last, reads) ← entriesLoop endAddr fuel (entryStep mem s).value
      return (last, (entryStep mem s).reads ++ reads)
    else .ok (s, [])

def madtEnd (madt : BitVec 64) : BitVec 64 := madt + ofNat 64 (readLe mem (madt + 4#64) 4)

def madtStart (madt : BitVec 64) (k : Apic) : Scan :=
  ⟨madt + 44#64, physToVirt (readLe mem (madt + 36#64) 4), k⟩

def parseMadt (madt : BitVec 64) (k : Apic) : Except Fault Apic := do
  let (s, _) ← entriesLoop mem (madtEnd mem madt) passes (madtStart mem madt k)
  return { s.apic with lapicBase := s.base, calls := s.apic.calls ++ [⟨virtToPhys s.base, s.base⟩] }

end Code

/-! ## The table that was written -/

/-- `struct madt_entry_ioapic`, `struct madt_entry_override` and `struct madt_entry_nmi`. -/
structure IoapicEntry where
  apicId : BitVec 8
  physAddr : BitVec 32
  gsiBase : BitVec 32

structure OverrideEntry where
  bus : BitVec 8
  source : BitVec 8
  gsi : BitVec 32
  flags : BitVec 16

structure NmiEntry where
  acpiId : BitVec 8
  flags : BitVec 16
  lintNum : BitVec 8

inductive Body where
  | lapic (acpiId apicId : BitVec 8) (flags : BitVec 32)
  | ioapic (entry : IoapicEntry) (zero : BitVec 8)
  | override (entry : OverrideEntry)
  | nmi (entry : NmiEntry)
  | lapicAddr (zero : BitVec 16) (addr : BitVec 64)
  | other (type : BitVec 8) (unknown : type ∉ [0#8, 1#8, 2#8, 4#8, 5#8])

namespace Body

def type : Body → BitVec 8
  | lapic _ _ _ => 0#8
  | ioapic _ _ => 1#8
  | override _ => 2#8
  | nmi _ => 4#8
  | lapicAddr _ _ => 5#8
  | other type _ => type

def fields : Body → List (BitVec 8)
  | lapic acpiId apicId flags => acpiId :: apicId :: leBytes 4 flags.toNat
  | ioapic entry zero =>
    entry.apicId :: zero :: (leBytes 4 entry.physAddr.toNat ++ leBytes 4 entry.gsiBase.toNat)
  | override entry =>
    entry.bus :: entry.source :: (leBytes 4 entry.gsi.toNat ++ leBytes 2 entry.flags.toNat)
  | nmi entry => entry.acpiId :: (leBytes 2 entry.flags.toNat ++ [entry.lintNum])
  | lapicAddr zero addr => leBytes 2 zero.toNat ++ leBytes 8 addr.toNat
  | other _ _ => []

end Body

structure Entry where
  body : Body
  extra : List (BitVec 8)
  short : 2 + body.fields.length + extra.length < 256

namespace Entry

def size (e : Entry) : Nat := 2 + e.body.fields.length + e.extra.length

def encode (e : Entry) : List (BitVec 8) :=
  e.body.type :: ofNat 8 e.size :: (e.body.fields ++ e.extra)

def lapic? (e : Entry) : Option LapicInfo :=
  match e.body with
  | .lapic acpiId apicId flags => some ⟨apicId, acpiId, flags ≠ 0#32⟩
  | _ => none

def ioapic? (e : Entry) : Option IoapicEntry :=
  match e.body with
  | .ioapic entry _ => some entry
  | _ => none

def override? (e : Entry) : Option OverrideEntry :=
  match e.body with
  | .override entry => some entry
  | _ => none

def nmi? (e : Entry) : Option NmiEntry :=
  match e.body with
  | .nmi entry => some entry
  | _ => none

def lapicAddr? (e : Entry) : Option (BitVec 64) :=
  match e.body with
  | .lapicAddr _ addr => some addr
  | _ => none

end Entry

open Entry (encode)

def lapicAt (mem : Memory) (p : BitVec 64) : LapicInfo where
  id := ofNat 8 (readLe mem (p + 3#64) 1)
  acpiId := ofNat 8 (readLe mem (p + 2#64) 1)
  present := readLe mem (p + 4#64) 4 ≠ 0

def ioapicAt (mem : Memory) (p : BitVec 64) : IoapicEntry where
  apicId := mem (p + 2#64)
  physAddr := ofNat 32 (readLe mem (p + 4#64) 4)
  gsiBase := ofNat 32 (readLe mem (p + 8#64) 4)

def overrideAt (mem : Memory) (p : BitVec 64) : OverrideEntry where
  bus := mem (p + 2#64)
  source := mem (p + 3#64)
  gsi := ofNat 32 (readLe mem (p + 4#64) 4)
  flags := ofNat 16 (readLe mem (p + 8#64) 2)

def nmiAt (mem : Memory) (p : BitVec 64) : NmiEntry where
  acpiId := mem (p + 2#64)
  flags := ofNat 16 (readLe mem (p + 3#64) 2)
  lintNum := mem (p + 5#64)

def ioapicCall (mem : Memory) (p : BitVec 64) : Call :=
  ⟨ofNat 64 (readLe mem (p + 4#64) 4), physToVirt (readLe mem (p + 4#64) 4)⟩

/-! ## Bounded lists -/

def fill {A : Type} (max : Nat) (l new : List A) : List A := (l ++ new).take max

section Fill

variable {A B : Type} {max : Nat} {l : List A}

theorem fill_nil (room : l.length ≤ max) : fill max l [] = l := by
  rw [fill, append_nil, List.take_of_length_le room]

theorem fill_fill (l first second : List A) :
    fill max (fill max l first) second = fill max l (first ++ second) := by
  unfold fill
  rw [← List.append_assoc]
  generalize l ++ first = front
  rw [List.take_append, List.take_append, List.take_take, Nat.min_self, List.length_take]
  congr 2
  omega

theorem fill_singleton (room : l.length ≤ max) (a : A) :
    fill max l [a] = if l.length ≥ max then l else l ++ [a] := by
  split
  case isTrue full => rw [fill, List.take_append_of_le_length full, List.take_of_length_le room]
  case isFalse free =>
    rw [fill, List.take_of_length_le]
    rw [length_append, List.length_singleton]
    omega

theorem fill_length (l new : List A) : (fill max l new).length ≤ max := List.length_take_le _ _

theorem map_fill (f : A → B) (l new : List A) :
    (fill max l new).map f = fill max (l.map f) (new.map f) := by
  rw [fill, fill, List.map_take, List.map_append]

theorem map_fill_singleton {f : A → B} {a : A} {b : B} (read : f a = b) (l : List A) :
    (fill max l [a]).map f = fill max (l.map f) [b] := by
  rw [map_fill, List.map_singleton, read]

end Fill

/-! ## One entry -/

structure Apic.Valid (mem : Memory) (k : Apic) : Prop where
  lapics : k.lapicList.length ≤ maxLapics
  ioapics : k.ioapicList.length ≤ maxIoapics
  overrides : k.overrideList.length ≤ maxOverrides
  nmis : k.nmiList.length ≤ maxNmis
  calls : k.calls = k.ioapicList.map (ioapicCall mem)

section Add

variable {mem : Memory} {entry : BitVec 64} {k : Apic}

theorem addLapic_value (valid : k.Valid mem) : (addLapic mem entry k).value =
    { k with lapicList := fill maxLapics k.lapicList [lapicAt mem entry] } := by
  rw [fill_singleton valid.lapics, addLapic]
  split
  case isTrue => rfl
  case isFalse => rfl

theorem addIoapic_value (valid : k.Valid mem) : (addIoapic mem entry k).value =
    { k with
      ioapicList := fill maxIoapics k.ioapicList [entry]
      calls := fill maxIoapics k.calls [ioapicCall mem entry] } := by
  have room : k.calls.length ≤ maxIoapics := by
    rw [valid.calls, length_map]
    exact valid.ioapics
  have same : k.calls.length = k.ioapicList.length := by rw [valid.calls, length_map]
  rw [fill_singleton valid.ioapics, fill_singleton room, same, addIoapic]
  split
  case isTrue => rfl
  case isFalse => rfl

theorem addOverride_value (valid : k.Valid mem) : (addOverride entry k).value =
    { k with overrideList := fill maxOverrides k.overrideList [entry] } := by
  rw [fill_singleton valid.overrides, addOverride]
  split
  case isTrue => rfl
  case isFalse => rfl

theorem addNmi_value (valid : k.Valid mem) : (addNmi mem entry k).value =
    { k with nmiList := fill maxNmis k.nmiList [entry] } := by
  rw [fill_singleton valid.nmis, addNmi]
  split
  case isTrue => rfl
  case isFalse => rfl

end Add

/-- The effect of entries on the loop: it stands behind them, each list is filled with those of
its kind, and the last address stays. -/
structure Decoded (mem : Memory) (entries : List Entry) (s s' : Scan) : Prop where
  hd : s'.hd = s.hd + ofNat 64 (entries.flatMap encode).length
  lapics : s'.apic.lapicList = fill maxLapics s.apic.lapicList (entries.filterMap Entry.lapic?)
  ioapics : s'.apic.ioapicList.map (ioapicAt mem) =
    fill maxIoapics (s.apic.ioapicList.map (ioapicAt mem)) (entries.filterMap Entry.ioapic?)
  overrides : s'.apic.overrideList.map (overrideAt mem) =
    fill maxOverrides (s.apic.overrideList.map (overrideAt mem)) (entries.filterMap Entry.override?)
  nmis : s'.apic.nmiList.map (nmiAt mem) =
    fill maxNmis (s.apic.nmiList.map (nmiAt mem)) (entries.filterMap Entry.nmi?)
  base : s'.base = (entries.filterMap Entry.lapicAddr?).foldl (fun _ addr => physToVirt addr.toNat) s.base
  valid : s'.apic.Valid mem

variable {p endAddr madt : BitVec 64} {length : Nat}

section Step

variable {mem : Memory} {s s' s'' : Scan} {e : Entry} {entries : List Entry}

theorem Entry.encode_length (e : Entry) : e.encode.length = e.size := by
  rw [encode, size, length_cons, length_cons, length_append]
  omega

theorem Decoded.nil (valid : s.apic.Valid mem) : Decoded mem [] s s where
  hd := (BitVec.add_zero s.hd).symm
  lapics := (fill_nil valid.lapics).symm
  ioapics := (fill_nil (by rw [length_map]; exact valid.ioapics)).symm
  overrides := (fill_nil (by rw [length_map]; exact valid.overrides)).symm
  nmis := (fill_nil (by rw [length_map]; exact valid.nmis)).symm
  base := rfl
  valid := valid

theorem Decoded.cons (first : Decoded mem [e] s s') (rest : Decoded mem entries s' s'') :
    Decoded mem (e :: entries) s s'' where
  hd := by
    rw [rest.hd, first.hd, BitVec.add_assoc, ← ofNat_add]
    simp [flatMap_cons]
  lapics := by rw [rest.lapics, first.lapics, fill_fill, ← filterMap_append, singleton_append]
  ioapics := by rw [rest.ioapics, first.ioapics, fill_fill, ← filterMap_append, singleton_append]
  overrides := by rw [rest.overrides, first.overrides, fill_fill, ← filterMap_append, singleton_append]
  nmis := by rw [rest.nmis, first.nmis, fill_fill, ← filterMap_append, singleton_append]
  base := by rw [rest.base, first.base, ← List.foldl_append, ← filterMap_append, singleton_append]
  valid := rest.valid

theorem dispatch_hd (type : Nat) : (dispatch mem type s).value.hd = s.hd := by
  unfold dispatch
  split <;> rfl

theorem dispatch_lapicAddr :
    (dispatch mem 5 s).value = { s with base := physToVirt (readLe mem (s.hd + 4#64) 8) } := by
  simp only [dispatch, value_bind, value_pure, load_value]

theorem dispatch_other {type : BitVec 8} (unknown : type ∉ [0#8, 1#8, 2#8, 4#8, 5#8]) :
    dispatch mem type.toNat s = pure s := by
  have apart : ∀ known : BitVec 8, known ∈ [0#8, 1#8, 2#8, 4#8, 5#8] → type.toNat ≠ known.toNat :=
    fun known member same => unknown (BitVec.eq_of_toNat_eq same ▸ member)
  unfold dispatch
  split
  case h_1 same => exact absurd same (apart 0#8 (by decide))
  case h_2 same => exact absurd same (apart 1#8 (by decide))
  case h_3 same => exact absurd same (apart 2#8 (by decide))
  case h_4 same => exact absurd same (apart 4#8 (by decide))
  case h_5 same => exact absurd same (apart 5#8 (by decide))
  case h_6 => rfl

theorem entryStep_value : (entryStep mem s).value =
    { (dispatch mem (readLe mem s.hd 1) s).value with
      hd := s.hd + ofNat 64 (readLe mem (s.hd + 1#64) 1) } := by
  simp only [entryStep, value_bind, value_pure, load_value, dispatch_hd]

theorem Entry.head (stored : BytesAt mem s.hd e.encode) : readLe mem s.hd 1 = e.body.type.toNat ∧
    readLe mem (s.hd + 1#64) 1 = e.size ∧ BytesAt mem (s.hd + 2#64) e.body.fields := by
  obtain ⟨type, length, rest⟩ := stored
  have fields := (bytesAt_append.mp rest).1
  have short : e.size < 256 := e.short
  rw [readLe_one, readLe_one, type, length, toNat_ofNat, Nat.mod_eq_of_lt short]
  rw [BitVec.add_assoc] at fields
  exact ⟨rfl, rfl, fields⟩

theorem lapicAt_eq {acpiId apicId : BitVec 8} {flags : BitVec 32}
    (fields : BytesAt mem (p + 2#64) (Body.lapic acpiId apicId flags).fields) :
    lapicAt mem p = ⟨apicId, acpiId, flags ≠ 0#32⟩ := by
  obtain ⟨acpi, apic, rest⟩ := fields
  rw [BitVec.add_assoc] at apic rest
  rw [BitVec.add_assoc] at rest
  have value : readLe mem (p + 4#64) 4 = flags.toNat := readLe_toNat (by decide) rest
  have nonzero : (flags.toNat ≠ 0) ↔ flags ≠ 0#32 := not_congr (BitVec.toNat_inj (y := 0#32))
  simp only [lapicAt, readLe_one, value, acpi, nonzero, ofNat_toNat, setWidth_eq]
  rw [show mem (p + 3#64) = apicId from apic]

theorem ioapicAt_eq {entry : IoapicEntry} {zero : BitVec 8}
    (fields : BytesAt mem (p + 2#64) (Body.ioapic entry zero).fields) : ioapicAt mem p = entry := by
  simp only [Body.fields, bytesAt_cons, bytesAt_append, leBytes_length, BitVec.add_assoc] at fields
  obtain ⟨apicId, -, physAddr, gsiBase⟩ := fields
  have phys : readLe mem (p + 4#64) 4 = entry.physAddr.toNat := readLe_toNat (by decide) physAddr
  have gsi : readLe mem (p + 8#64) 4 = entry.gsiBase.toNat := readLe_toNat (by decide) gsiBase
  simp only [ioapicAt, apicId, phys, gsi, ofNat_toNat, setWidth_eq]

theorem overrideAt_eq {entry : OverrideEntry}
    (fields : BytesAt mem (p + 2#64) (Body.override entry).fields) : overrideAt mem p = entry := by
  simp only [Body.fields, bytesAt_cons, bytesAt_append, leBytes_length, BitVec.add_assoc] at fields
  obtain ⟨bus, source, gsi, flags⟩ := fields
  have third : mem (p + 3#64) = entry.source := source
  have line : readLe mem (p + 4#64) 4 = entry.gsi.toNat := readLe_toNat (by decide) gsi
  have bits : readLe mem (p + 8#64) 2 = entry.flags.toNat := readLe_toNat (by decide) flags
  simp only [overrideAt, bus, third, line, bits, ofNat_toNat, setWidth_eq]

theorem nmiAt_eq {entry : NmiEntry} (fields : BytesAt mem (p + 2#64) (Body.nmi entry).fields) :
    nmiAt mem p = entry := by
  simp only [Body.fields, bytesAt_cons, bytesAt_append, leBytes_length, BitVec.add_assoc] at fields
  obtain ⟨acpiId, flags, lintNum, -⟩ := fields
  have bits : readLe mem (p + 3#64) 2 = entry.flags.toNat := readLe_toNat (by decide) flags
  have last : mem (p + 5#64) = entry.lintNum := lintNum
  simp only [nmiAt, acpiId, bits, last, ofNat_toNat, setWidth_eq]

theorem entryStep_decoded (valid : s.apic.Valid mem) (stored : BytesAt mem s.hd e.encode) :
    Decoded mem [e] s (entryStep mem s).value := by
  obtain ⟨type, length, fields⟩ := e.head stored
  have same := Decoded.nil valid
  have behind : s.hd + ofNat 64 e.size = s.hd + ofNat 64 ([e].flatMap encode).length := by
    rw [List.flatMap_singleton, Entry.encode_length]
  rw [entryStep_value, type, length]
  obtain ⟨body, extra, short⟩ := e
  cases body with
  | lapic acpiId apicId flags =>
    change Decoded mem _ s ⟨_, s.base, (addLapic mem s.hd s.apic).value⟩
    rw [addLapic_value valid, lapicAt_eq fields]
    exact { same with hd := behind, lapics := rfl, valid := { valid with lapics := fill_length _ _ } }
  | ioapic entry zero =>
    change Decoded mem _ s ⟨_, s.base, (addIoapic mem s.hd s.apic).value⟩
    rw [addIoapic_value valid]
    have calls : fill maxIoapics s.apic.calls [ioapicCall mem s.hd] =
        (fill maxIoapics s.apic.ioapicList [s.hd]).map (ioapicCall mem) := by
      rw [map_fill_singleton rfl, valid.calls]
    exact { same with hd := behind, ioapics := map_fill_singleton (ioapicAt_eq fields) _,
                      valid := { valid with ioapics := fill_length _ _, calls := calls } }
  | override entry =>
    change Decoded mem _ s ⟨_, s.base, (addOverride s.hd s.apic).value⟩
    rw [addOverride_value valid]
    exact { same with hd := behind, overrides := map_fill_singleton (overrideAt_eq fields) _,
                      valid := { valid with overrides := fill_length _ _ } }
  | nmi entry =>
    change Decoded mem _ s ⟨_, s.base, (addNmi mem s.hd s.apic).value⟩
    rw [addNmi_value valid]
    exact { same with hd := behind, nmis := map_fill_singleton (nmiAt_eq fields) _,
                      valid := { valid with nmis := fill_length _ _ } }
  | lapicAddr zero addr =>
    simp only [Body.fields, bytesAt_append, leBytes_length, BitVec.add_assoc] at fields
    have value : readLe mem (s.hd + 4#64) 8 = addr.toNat := readLe_toNat (by decide) fields.2
    change Decoded mem _ s { (dispatch mem 5 s).value with hd := _ }
    rw [dispatch_lapicAddr, value]
    exact { same with hd := behind, base := rfl }
  | other kind unknown =>
    change Decoded mem _ s { (dispatch mem kind.toNat s).value with hd := _ }
    rw [dispatch_other unknown]
    exact { same with hd := behind }

/-! ## All entries -/

/-- The loop reads the entries one after the other. The induction is on the entries ahead, which
reach to the end of the table. -/
theorem entriesLoop_decoded {fuel : Nat} (valid : s.apic.Valid mem)
    (stored : BytesAt mem s.hd (entries.flatMap encode))
    (low : s.hd.toNat + (entries.flatMap encode).length = endAddr.toNat) (enough : entries.length < fuel) :
    ∃ last reads, entriesLoop mem endAddr fuel s = .ok (last, reads) ∧ Decoded mem entries s last := by
  induction entries generalizing s fuel with
  | nil =>
    obtain ⟨fuel, rfl⟩ := exists_succ_of_lt enough
    have done : ¬ s.hd < endAddr := by
      rw [lt_def, ← low]
      simp
    exact ⟨s, [], if_neg done, Decoded.nil valid⟩
  | cons e entries ih =>
    obtain ⟨fuel, rfl⟩ := exists_succ_of_lt enough
    rw [flatMap_cons] at stored low
    obtain ⟨here, ahead⟩ := bytesAt_append.mp stored
    rw [length_append, Entry.encode_length] at low
    have size : 0 < e.size := by
      unfold Entry.size
      omega
    have more : s.hd < endAddr := by
      rw [lt_def]
      omega
    have step := entryStep_decoded valid here
    have next : (entryStep mem s).value.hd = s.hd + ofNat 64 e.encode.length := by
      rw [step.hd, List.flatMap_singleton]
    have place : (entryStep mem s).value.hd.toNat = s.hd.toNat + e.size := by
      have top := endAddr.isLt
      rw [next, Entry.encode_length, toNat_add, toNat_ofNat,
        Nat.mod_eq_of_lt (a := e.size) (by omega), Nat.mod_eq_of_lt (by omega)]
    obtain ⟨last, reads, runs, rest⟩ :=
      ih step.valid (next ▸ ahead) (by omega) (Nat.lt_of_succ_lt_succ enough)
    refine ⟨last, (entryStep mem s).reads ++ reads, ?_, step.cons rest⟩
    rw [entriesLoop, if_pos more, runs]
    rfl

theorem foldl_last {A B : Type} (f : A → B) (b : B) (l : List A) :
    l.foldl (fun _ a => f a) b = l.getLast?.elim b f := by
  rcases List.eq_nil_or_concat l with rfl | ⟨front, a, rfl⟩
  · rfl
  · rw [List.concat_eq_append, List.foldl_append, List.getLast?_concat]
    rfl

theorem madtEnd_toNat (low : madt.toNat + readLe mem (madt + 4#64) 4 < 2 ^ 64) :
    (madtEnd mem madt).toNat = madt.toNat + readLe mem (madt + 4#64) 4 := by
  rw [madtEnd, toNat_add, toNat_ofNat, Nat.mod_eq_of_lt (by omega), Nat.mod_eq_of_lt (by omega)]

end Step

/-- A table made of entries is decoded: the lists hold the first entries of their kinds in
order, with their fields, and the address of the local APICs is the last that was given. -/
theorem madt_decoded (mem : Memory) (madt : BitVec 64) (entries : List Entry)
    (stored : BytesAt mem (madt + 44#64) (entries.flatMap encode))
    (length : readLe mem (madt + 4#64) 4 = 44 + (entries.flatMap encode).length)
    (low : madt.toNat + readLe mem (madt + 4#64) 4 < 2 ^ 64) :
    ∃ k, parseMadt mem madt Apic.empty = .ok k ∧
      k.lapicList = (entries.filterMap Entry.lapic?).take maxLapics ∧
      k.ioapicList.map (ioapicAt mem) = (entries.filterMap Entry.ioapic?).take maxIoapics ∧
      k.overrideList.map (overrideAt mem) = (entries.filterMap Entry.override?).take maxOverrides ∧
      k.nmiList.map (nmiAt mem) = (entries.filterMap Entry.nmi?).take maxNmis ∧
      k.lapicBase = ((entries.filterMap Entry.lapicAddr?).getLast?.elim
        (physToVirt (readLe mem (madt + 36#64) 4)) fun addr => physToVirt addr.toNat) ∧
      k.calls = k.ioapicList.map (ioapicCall mem) ++ [⟨virtToPhys k.lapicBase, k.lapicBase⟩] := by
  have valid : Apic.empty.Valid mem := ⟨Nat.zero_le _, Nat.zero_le _, Nat.zero_le _, Nat.zero_le _, rfl⟩
  have places : (madtStart mem madt Apic.empty).hd.toNat + (entries.flatMap encode).length =
      (madtEnd mem madt).toNat := by
    have start : (madt + 44#64).toNat = madt.toNat + 44 := by
      rw [toNat_add, toNat_ofNat]
      exact Nat.mod_eq_of_lt (by omega)
    rw [madtEnd_toNat low, length, madtStart, start, Nat.add_assoc]
  have enough : entries.length < passes := by
    have count := length_le_flatMap encode (fun _ => Nat.succ_pos _) entries
    have top := (madtEnd mem madt).isLt
    simp only [passes]
    omega
  obtain ⟨last, reads, runs, decoded⟩ :=
    entriesLoop_decoded (s := madtStart mem madt Apic.empty) valid stored places enough
  refine ⟨{ last.apic with
      lapicBase := last.base
      calls := last.apic.calls ++ [⟨virtToPhys last.base, last.base⟩] }, ?_,
    decoded.lapics, decoded.ioapics, decoded.overrides, decoded.nmis, ?_, ?_⟩
  · rw [parseMadt, runs]
    rfl
  · exact decoded.base.trans (foldl_last _ _ _)
  · rw [decoded.valid.calls]

/-- The calls of `vmm_map_page` on the page tables of the kernel. -/
def Apic.map (nrCpus : Nat) (p4 : PhysAddr) (k : Apic) (s : State) : Except Fault State :=
  runCalls nrCpus p4 deviceFlags k.calls s

def madtTable (lapicAddress : BitVec 32) (entries : List Entry) : List (BitVec 8) :=
  List.replicate 4 0#8 ++ (leBytes 4 (44 + (entries.flatMap encode).length) ++ (List.replicate 28 0#8 ++
    (leBytes 4 lapicAddress.toNat ++ (List.replicate 4 0#8 ++ entries.flatMap encode))))

theorem madtTable_fields {mem : Memory} {lapicAddress : BitVec 32} {entries : List Entry}
    (stored : BytesAt mem madt (madtTable lapicAddress entries))
    (short : 44 + (entries.flatMap encode).length < 2 ^ 32) :
    readLe mem (madt + 4#64) 4 = 44 + (entries.flatMap encode).length ∧
      readLe mem (madt + 36#64) 4 = lapicAddress.toNat ∧
      BytesAt mem (madt + 44#64) (entries.flatMap encode) := by
  simp only [madtTable, bytesAt_append, List.length_replicate, leBytes_length, BitVec.add_assoc] at stored
  obtain ⟨-, length, -, address, -, rest⟩ := stored
  refine ⟨(readLe_eq length).trans (Nat.mod_eq_of_lt short), readLe_toNat (by decide) address, rest⟩

def threeEntries : List Entry :=
  [⟨.lapic 1#8 2#8 1#32, [], by decide⟩, ⟨.ioapic ⟨3#8, 0xFEC00000#32, 0#32⟩ 0#8, [], by decide⟩,
    ⟨.other 3#8 (by decide), [7#8], by decide⟩]

theorem madt_decoded_three :
    ∃ k, parseMadt (image 0x1000#64 (madtTable 0xFEE00000#32 threeEntries)) 0x1000#64
      Apic.empty = .ok k ∧
      k.lapicList = [⟨2#8, 1#8, true⟩] ∧ k.lapicBase = 0xFFFF8000FEE00000#64 := by
  have short : (madtTable 0xFEE00000#32 threeEntries).length ≤ 2 ^ 64 := by decide
  obtain ⟨length, address, stored⟩ := madtTable_fields (image_bytesAt 0x1000#64 short) (by decide)
  obtain ⟨k, parsed, lapics, -, -, -, base, -⟩ :=
    madt_decoded _ _ threeEntries stored length (by rw [length]; decide)
  refine ⟨k, parsed, lapics, base.trans ?_⟩
  rw [address]
  decide

/-! ## Any bytes -/

/-- Where the entry number `n` is, as the length bytes lead to it. -/
def entryAt (mem : Memory) (madt : BitVec 64) : Nat → BitVec 64
  | 0 => madt + 44#64
  | n + 1 =>
    let hd := entryAt mem madt n
    hd + ofNat 64 (readLe mem (hd + 1#64) 1)

def typeAt (mem : Memory) (madt : BitVec 64) (n : Nat) : Nat := readLe mem (entryAt mem madt n) 1

/-- How many entries before the number `n` have a type. -/
def earlier (mem : Memory) (madt : BitVec 64) (type n : Nat) : Nat :=
  (List.range n).countP fun m => typeAt mem madt m = type

/-- How many bytes of an entry are read: less if its list is full. What `klog_verbose` reads in
a build with `VERBOSE` is left out. -/
def extent (type lapics ioapics nmis : Nat) : Nat :=
  match type with
  | 0 => if lapics ≥ maxLapics then 2 else 8
  | 1 => if ioapics ≥ maxIoapics then 2 else 8
  | 4 => if nmis ≥ maxNmis then 2 else 3
  | 5 => 12
  | _ => 2

def extentAt (mem : Memory) (madt : BitVec 64) (k : Apic) (n : Nat) : Nat :=
  extent (typeAt mem madt n) (k.lapicList.length + earlier mem madt 0 n)
    (k.ioapicList.length + earlier mem madt 1 n) (k.nmiList.length + earlier mem madt 4 n)

/-- The entry number `n` is not empty, and what is read of it is inside the table. -/
structure EntryFits (mem : Memory) (madt : BitVec 64) (k : Apic) (n : Nat) : Prop where
  nonempty : readLe mem (entryAt mem madt n + 1#64) 1 ≠ 0
  above : madt.toNat ≤ (entryAt mem madt n).toNat
  below : (entryAt mem madt n).toNat + extentAt mem madt k n ≤ (madtEnd mem madt).toNat

def nextEntry (mem : Memory) (endAddr : BitVec 64) (s : Scan) : Option Scan :=
  if s.hd < endAddr then some (entryStep mem s).value else none

def Scan.extent (mem : Memory) (s : Scan) : Nat :=
  Drivers.extent (readLe mem s.hd 1) s.apic.lapicList.length s.apic.ioapicList.length
    s.apic.nmiList.length

structure Scan.Fits (mem : Memory) (madt endAddr : BitVec 64) (s : Scan) : Prop where
  nonempty : readLe mem (s.hd + 1#64) 1 ≠ 0
  above : madt.toNat ≤ s.hd.toNat
  below : s.hd.toNat + s.extent mem ≤ endAddr.toNat

/-- The addresses are in the first `n` bytes, and the last of these is among them unless it is
in the header of the entry. -/
structure ReadsOf (hd : BitVec 64) (n : Nat) (reads : List (BitVec 64)) : Prop where
  long : 2 ≤ n
  within : ∀ a ∈ reads, ∃ j < n, a = hd + ofNat 64 j
  last : 2 < n → hd + ofNat 64 (n - 1) ∈ reads

section Reads

variable {mem : Memory} {hd a : BitVec 64} {k : Apic} {s : Scan}

theorem mem_load_reads {offset n : Nat} : a ∈ (load mem (hd + ofNat 64 offset) n).reads ↔
    ∃ j < n, a = hd + ofNat 64 (offset + j) := by
  simp only [load_reads, List.mem_map, List.mem_range, BitVec.add_assoc, ← ofNat_add, eq_comm]

theorem ReadsOf.none : ReadsOf hd 2 [] := ⟨Nat.le_refl 2, nofun, fun more => absurd more (by decide)⟩

theorem ReadsOf.load (offset n : Nat) (inside : 2 < offset + n) (some : 0 < n) :
    ReadsOf hd (offset + n) (load mem (hd + ofNat 64 offset) n).reads where
  long := Nat.le_of_lt inside
  within a member := by
    obtain ⟨j, low, rfl⟩ := mem_load_reads.mp member
    exact ⟨offset + j, by omega, rfl⟩
  last _ := mem_load_reads.mpr ⟨n - 1, by omega, by rw [Nat.add_sub_assoc some]⟩

theorem ReadsOf.append_load {m : Nat} {reads : List (BitVec 64)} (first : ReadsOf hd m reads)
    (offset n : Nat) (inside : offset + n ≤ m) :
    ReadsOf hd m (reads ++ (Lib.load mem (hd + ofNat 64 offset) n).reads) where
  long := first.long
  within a member := by
    obtain member | member := List.mem_append.mp member
    · exact first.within a member
    · obtain ⟨j, low, rfl⟩ := mem_load_reads.mp member
      exact ⟨offset + j, by omega, rfl⟩
  last more := List.mem_append_left _ (first.last more)

theorem addLapic_reads :
    ReadsOf hd (if k.lapicList.length ≥ maxLapics then 2 else 8) (addLapic mem hd k).reads := by
  unfold addLapic
  split
  case isTrue => exact .none
  case isFalse =>
    have flags : ReadsOf hd 8 (Lib.load mem (hd + 4#64) 4).reads := .load 4 4 (by decide) (by decide)
    have apicId : ReadsOf hd 8 (_ ++ (Lib.load mem (hd + 3#64) 1).reads) :=
      flags.append_load 3 1 (by decide)
    have acpiId : ReadsOf hd 8 (_ ++ (Lib.load mem (hd + 2#64) 1).reads) :=
      apicId.append_load 2 1 (by decide)
    rw [List.append_assoc] at acpiId
    exact acpiId

theorem addIoapic_reads :
    ReadsOf hd (if k.ioapicList.length ≥ maxIoapics then 2 else 8) (addIoapic mem hd k).reads := by
  unfold addIoapic
  split
  case isTrue => exact .none
  case isFalse =>
    have physAddr : ReadsOf hd 8 (Lib.load mem (hd + 4#64) 4).reads := .load 4 4 (by decide) (by decide)
    exact physAddr

theorem addNmi_reads :
    ReadsOf hd (if k.nmiList.length ≥ maxNmis then 2 else 3) (addNmi mem hd k).reads := by
  unfold addNmi
  split
  case isTrue => exact .none
  case isFalse =>
    have acpiId : ReadsOf hd 3 (Lib.load mem (hd + 2#64) 1).reads := .load 2 1 (by decide) (by decide)
    exact acpiId

theorem addOverride_reads : ReadsOf hd 2 (addOverride hd k).reads := by
  unfold addOverride
  split
  case isTrue => exact .none
  case isFalse => exact .none

theorem dispatch_reads (type : Nat) : ReadsOf s.hd (extent type s.apic.lapicList.length
    s.apic.ioapicList.length s.apic.nmiList.length) (dispatch mem type s).reads := by
  have lapic : ReadsOf s.hd _ (addLapic mem s.hd s.apic).reads := addLapic_reads
  have ioapic : ReadsOf s.hd _ (addIoapic mem s.hd s.apic).reads := addIoapic_reads
  have override : ReadsOf s.hd _ (addOverride s.hd s.apic).reads := addOverride_reads
  have nmi : ReadsOf s.hd _ (addNmi mem s.hd s.apic).reads := addNmi_reads
  have lapicAddr : ReadsOf s.hd 12 (Lib.load mem (s.hd + 4#64) 8).reads := .load 4 8 (by decide) (by decide)
  match type with
  | 0 | 1 | 2 | 4 | 5 =>
    simp only [dispatch, extent, Traced.reads_bind, Traced.reads_pure, append_nil]
    assumption
  | 3 => exact .none
  | n + 6 => exact .none

theorem entryStep_reads_eq : (entryStep mem s).reads =
    s.hd :: ((dispatch mem (readLe mem s.hd 1) s).reads ++ [s.hd + 1#64]) := by
  simp [entryStep, dispatch_hd]

theorem entryStep_reads : ReadsOf s.hd (s.extent mem) (entryStep mem s).reads := by
  have fields : ReadsOf s.hd (s.extent mem) (dispatch mem (readLe mem s.hd 1) s).reads :=
    dispatch_reads _
  have long := fields.long
  rw [entryStep_reads_eq]
  refine ⟨long, fun a member => ?_, fun more => ?_⟩
  · obtain rfl | member := mem_cons.mp member
    · exact ⟨0, by omega, (BitVec.add_zero _).symm⟩
    · obtain member | member := List.mem_append.mp member
      · exact fields.within a member
      · exact ⟨1, by omega, List.mem_singleton.mp member⟩
  · exact List.mem_cons_of_mem _ (List.mem_append_left _ (fields.last more))

theorem extent_le (type lapics ioapics nmis : Nat) : extent type lapics ioapics nmis ≤ 12 := by
  unfold extent
  split
  case h_4 => exact Nat.le_refl 12
  case h_5 => decide
  all_goals
    split
    case isTrue => decide
    case isFalse => decide

/-- What is read of an entry is inside the table exactly if its extent is. Near the end of the
address space an extent that wraps comes out below the table. -/
theorem reads_inside_iff (short : length < 2 ^ 32) (stop : endAddr.toNat = madt.toNat + length) :
    (∀ a ∈ (entryStep mem s).reads, madt.toNat ≤ a.toNat ∧ a.toNat < endAddr.toNat) ↔
      madt.toNat ≤ s.hd.toNat ∧ s.hd.toNat + s.extent mem ≤ endAddr.toNat := by
  have reads : ReadsOf s.hd _ (entryStep mem s).reads := entryStep_reads
  have small : s.extent mem ≤ 12 := extent_le _ _ _ _
  have top := endAddr.isLt
  have address : ∀ j, j ≤ 12 → (s.hd + ofNat 64 j).toNat = (s.hd.toNat + j) % 2 ^ 64 := by
    intro j low
    rw [toNat_add, toNat_ofNat, Nat.mod_eq_of_lt (a := j) (by omega)]
  generalize s.extent mem = n at *
  constructor
  · intro inside
    have first := inside s.hd (by rw [entryStep_reads_eq]; exact List.mem_cons_self)
    have second := inside (s.hd + ofNat 64 1) (by rw [entryStep_reads_eq]; simp)
    rw [address 1 (by decide)] at second
    by_cases more : 2 < n
    · have last := inside _ (reads.last more)
      rw [address (n - 1) (by omega)] at last
      omega
    · omega
  · rintro ⟨above, below⟩ a member
    obtain ⟨j, low, rfl⟩ := reads.within a member
    rw [address j (by omega), Nat.mod_eq_of_lt (by omega)]
    omega

end Reads

def passReads (mem : Memory) (endAddr : BitVec 64) (s : Scan) : List (BitVec 64) :=
  if s.hd < endAddr then (entryStep mem s).reads else []

section Walk

variable {mem : Memory} {madt endAddr : BitVec 64} {s last : Scan} {fuel : Nat}
    {reads : List (BitVec 64)} {l : List Scan}

theorem entriesLoop_of_chain (chain : Chain (nextEntry mem endAddr) (some s) l) (enough : l.length ≤ fuel) :
    ∃ last, entriesLoop mem endAddr fuel s = .ok (last, l.flatMap (passReads mem endAddr)) := by
  induction l generalizing s fuel with
  | nil => cases chain
  | cons a rest ih =>
    obtain ⟨same, chain⟩ := chain
    cases same
    obtain ⟨fuel, rfl⟩ := exists_succ_of_lt enough
    rw [entriesLoop, flatMap_cons, passReads]
    by_cases more : a.hd < endAddr
    · rw [nextEntry, if_pos more] at chain
      obtain ⟨last, runs⟩ := ih chain (Nat.le_of_succ_le_succ enough)
      rw [if_pos more, if_pos more, runs]
      exact ⟨last, rfl⟩
    · rw [nextEntry, if_neg more] at chain
      cases rest with
      | nil =>
        rw [if_neg more, if_neg more]
        exact ⟨a, rfl⟩
      | cons b rest => cases chain.1

theorem chain_of_entriesLoop (runs : entriesLoop mem endAddr fuel s = .ok (last, reads)) :
    ∃ l, Chain (nextEntry mem endAddr) (some s) l ∧ l.length ≤ fuel := by
  induction fuel generalizing s last reads with
  | zero => cases runs
  | succ fuel ih =>
    rw [entriesLoop] at runs
    by_cases more : s.hd < endAddr
    · rw [if_pos more] at runs
      obtain ⟨⟨last, reads⟩, inner, -⟩ := bind_eq_ok.mp runs
      obtain ⟨l, chain, short⟩ := ih inner
      refine ⟨s :: l, ⟨rfl, ?_⟩, Nat.succ_le_succ short⟩
      rwa [nextEntry, if_pos more]
    · refine ⟨[s], ⟨rfl, ?_⟩, Nat.succ_le_succ (Nat.zero_le fuel)⟩
      rw [nextEntry, if_neg more]
      rfl

/-- An entry of length 0 is read for ever. -/
theorem not_chain_of_empty (visits : Visits (nextEntry mem endAddr) last s) (more : s.hd < endAddr)
    (empty : readLe mem (s.hd + 1#64) 1 = 0) : ¬ Chain (nextEntry mem endAddr) (some last) l := by
  apply not_chain_of_trap (fun p => p.hd = s.hd) visits rfl
  intro p here
  refine ⟨(entryStep mem p).value, if_pos (here ▸ more), ?_⟩
  rw [entryStep_value]
  change p.hd + _ = s.hd
  rw [here, empty, BitVec.add_zero]

theorem Scan.Fits.up (short : length < 2 ^ 32) (stop : endAddr.toNat = madt.toNat + length)
    (fits : s.Fits mem madt endAddr) (more : s.hd < endAddr)
    (ahead : (entryStep mem s).value.hd < endAddr → madt.toNat ≤ (entryStep mem s).value.hd.toNat) :
    s.hd.toNat < (entryStep mem s).value.hd.toNat := by
  have byte := readLe_lt mem (s.hd + 1#64) 1
  have top := endAddr.isLt
  have positive := fits.nonempty
  rw [entryStep_value] at ahead ⊢
  simp only [lt_def, toNat_add, toNat_ofNat] at *
  omega

/-- A walk over entries that fit ends: what is left of the table is its measure. -/
theorem chain_of_fits (short : length < 2 ^ 32) (stop : endAddr.toNat = madt.toNat + length)
    (fits : ∀ p, Visits (nextEntry mem endAddr) s p → p.hd < endAddr → p.Fits mem madt endAddr) :
    ∃ l, Chain (nextEntry mem endAddr) (some s) l ∧ l.length ≤ passes := by
  have shrinks : ∀ p q, Visits (nextEntry mem endAddr) s p → nextEntry mem endAddr p = some q →
      endAddr.toNat - q.hd.toNat < endAddr.toNat - p.hd.toNat := by
    intro p q visits link
    have more : p.hd < endAddr := by
      by_contra done
      rw [nextEntry, if_neg done] at link
      cases link
    have onward := visits.tail link
    rw [nextEntry, if_pos more] at link
    cases link
    have higher := (fits p visits more).up short stop more fun later => (fits _ onward later).above
    rw [lt_def] at more
    omega
  obtain ⟨l, chain⟩ := exists_chain_of_measure (fun p : Scan => endAddr.toNat - p.hd.toNat) shrinks
  have bound := chain.length_le_measure (fun p : Scan => endAddr.toNat - p.hd.toNat) shrinks
  have top := endAddr.isLt
  refine ⟨l, chain, ?_⟩
  simp only [passes]
  omega

theorem chain_of_one (mem : Memory) (endAddr : BitVec 64) (s : Scan) (more : s.hd < endAddr)
    (done : ¬ (entryStep mem s).value.hd < endAddr) :
    Chain (nextEntry mem endAddr) (some s) [s, (entryStep mem s).value] :=
  ⟨rfl, if_pos more, if_neg done⟩

end Walk

/-! ## The entries by number -/

/-- A list that was as long as `full` says, or is full. -/
def Filled (max full size : Nat) : Prop := size = full ∨ max ≤ size ∧ max ≤ full

/-- The loop is at the entry number `n`, and its lists hold the entries before it. -/
structure ScanAt (mem : Memory) (madt : BitVec 64) (k : Apic) (n : Nat) (s : Scan) : Prop where
  hd : s.hd = entryAt mem madt n
  lapics : Filled maxLapics (k.lapicList.length + earlier mem madt 0 n) s.apic.lapicList.length
  ioapics : Filled maxIoapics (k.ioapicList.length + earlier mem madt 1 n) s.apic.ioapicList.length
  nmis : Filled maxNmis (k.nmiList.length + earlier mem madt 4 n) s.apic.nmiList.length

section Number

variable {mem : Memory} {madt endAddr : BitVec 64} {k : Apic} {s : Scan} {n max size : Nat}

theorem Filled.full_iff {full : Nat} (filled : Filled max full size) : size ≥ max ↔ full ≥ max := by
  unfold Filled at filled
  omega

theorem earlier_succ (type : Nat) : earlier mem madt type (n + 1) =
    earlier mem madt type n + if typeAt mem madt n = type then 1 else 0 := by
  rw [earlier, List.range_succ, List.countP_append, List.countP_singleton]
  simp only [decide_eq_true_eq]
  rfl

/-- Only an entry of its own type makes a list longer, by one if it is not full. -/
theorem Filled.step {type kind start size' : Nat}
    (filled : Filled max (start + earlier mem madt kind n) size) (here : typeAt mem madt n = type)
    (grows : size' = if type = kind ∧ ¬ size ≥ max then size + 1 else size) :
    Filled max (start + earlier mem madt kind (n + 1)) size' := by
  rw [earlier_succ, here]
  unfold Filled at *
  split at grows <;> split <;> omega

theorem dispatch_sizes (mem : Memory) (s : Scan) (type : Nat) :
    (dispatch mem type s).value.apic.lapicList.length =
      (if type = 0 ∧ ¬ s.apic.lapicList.length ≥ maxLapics then s.apic.lapicList.length + 1
        else s.apic.lapicList.length) ∧
    (dispatch mem type s).value.apic.ioapicList.length =
      (if type = 1 ∧ ¬ s.apic.ioapicList.length ≥ maxIoapics then s.apic.ioapicList.length + 1
        else s.apic.ioapicList.length) ∧
    (dispatch mem type s).value.apic.nmiList.length =
      (if type = 4 ∧ ¬ s.apic.nmiList.length ≥ maxNmis then s.apic.nmiList.length + 1
        else s.apic.nmiList.length) := by
  match type with
  | 0 =>
    simp only [dispatch, addLapic, value_bind, value_pure]
    split <;> simp [*]
  | 1 =>
    simp only [dispatch, addIoapic, value_bind, value_pure]
    split <;> simp [*]
  | 2 =>
    simp only [dispatch, addOverride, value_bind, value_pure]
    split <;> simp
  | 4 =>
    simp only [dispatch, addNmi, value_bind, value_pure]
    split <;> simp [*]
  | 3 | 5 => simp [dispatch]
  | n + 6 => simp [dispatch]

theorem ScanAt.start (mem : Memory) (madt : BitVec 64) (k : Apic) :
    ScanAt mem madt k 0 (madtStart mem madt k) :=
  ⟨rfl, .inl rfl, .inl rfl, .inl rfl⟩

theorem ScanAt.step (scan : ScanAt mem madt k n s) :
    ScanAt mem madt k (n + 1) (entryStep mem s).value := by
  obtain ⟨lapics, ioapics, nmis⟩ := dispatch_sizes mem s (readLe mem s.hd 1)
  have here : typeAt mem madt n = readLe mem s.hd 1 := by rw [typeAt, scan.hd]
  rw [entryStep_value]
  refine ⟨?_, scan.lapics.step here lapics, scan.ioapics.step here ioapics, scan.nmis.step here nmis⟩
  rw [entryAt, scan.hd]

theorem ScanAt.extent_eq (scan : ScanAt mem madt k n s) : s.extent mem = extentAt mem madt k n := by
  rw [Scan.extent, extentAt, typeAt, ← scan.hd]
  unfold extent
  simp only [scan.lapics.full_iff, scan.ioapics.full_iff, scan.nmis.full_iff]

theorem ScanAt.fits_iff (scan : ScanAt mem madt k n s) :
    s.Fits mem madt (madtEnd mem madt) ↔ EntryFits mem madt k n := by
  have extent := scan.extent_eq
  have hd := scan.hd
  constructor
  · rintro ⟨nonempty, above, below⟩
    exact ⟨hd ▸ nonempty, hd ▸ above, hd ▸ extent ▸ below⟩
  · rintro ⟨nonempty, above, below⟩
    exact ⟨hd ▸ nonempty, hd ▸ above, hd ▸ extent ▸ below⟩

/-- The loop comes to the entries one by one as long as they start before the end. -/
theorem visits_scanAt (visits : Visits (nextEntry mem endAddr) (madtStart mem madt k) s) :
    ∃ n, ScanAt mem madt k n s ∧ ∀ m < n, entryAt mem madt m < endAddr := by
  induction visits with
  | refl => exact ⟨0, .start mem madt k, nofun⟩
  | tail _ link ih =>
    obtain ⟨n, scan, before⟩ := ih
    rw [nextEntry] at link
    split at link
    case isFalse => cases link
    case isTrue more =>
      cases link
      refine ⟨n + 1, scan.step, fun m low => ?_⟩
      obtain less | rfl := Nat.lt_succ_iff_lt_or_eq.mp low
      · exact before m less
      · rwa [← scan.hd]

theorem exists_scanAt (before : ∀ m < n, entryAt mem madt m < endAddr) :
    ∃ s, Visits (nextEntry mem endAddr) (madtStart mem madt k) s ∧ ScanAt mem madt k n s := by
  induction n with
  | zero => exact ⟨_, .refl, .start mem madt k⟩
  | succ n ih =>
    obtain ⟨s, visits, scan⟩ := ih fun m low => before m (Nat.lt_succ_of_lt low)
    have more : s.hd < endAddr := by
      rw [scan.hd]
      exact before n (Nat.lt_succ_self n)
    exact ⟨_, visits.tail (if_pos more), scan.step⟩

end Number

/-- The loop ends and reads entries only inside the table exactly if each entry that the length
bytes lead to from the first one on, as long as they stay before the end, is not empty and is
inside the table with all that is read of it. -/
theorem madt_robust (mem : Memory) (madt : BitVec 64) (k : Apic)
    (low : madt.toNat + readLe mem (madt + 4#64) 4 < 2 ^ 64) :
    (∃ last reads,
      entriesLoop mem (madtEnd mem madt) passes (madtStart mem madt k) = .ok (last, reads) ∧
      ∀ a ∈ reads, madt.toNat ≤ a.toNat ∧ a.toNat < (madtEnd mem madt).toNat) ↔
    ∀ n, (∀ m ≤ n, entryAt mem madt m < madtEnd mem madt) → EntryFits mem madt k n := by
  have short : readLe mem (madt + 4#64) 4 < 2 ^ 32 := readLe_lt mem (madt + 4#64) 4
  have stop := madtEnd_toNat low
  constructor
  · rintro ⟨last, reads, runs, inside⟩ n before
    obtain ⟨s, visits, scan⟩ := exists_scanAt (k := k) fun m less => before m (Nat.le_of_lt less)
    have more : s.hd < madtEnd mem madt := scan.hd ▸ before n (Nat.le_refl n)
    obtain ⟨l, chain, enough⟩ := chain_of_entriesLoop runs
    obtain ⟨last', runs'⟩ := entriesLoop_of_chain chain enough
    cases runs.symm.trans runs'
    obtain ⟨above, below⟩ := (reads_inside_iff short stop).mp fun a member => by
      apply inside
      apply List.mem_flatMap_of_mem (chain.mem_iff.mpr visits)
      rwa [passReads, if_pos more]
    exact scan.fits_iff.mp
      ⟨fun empty => not_chain_of_empty visits more empty chain, above, below⟩
  · intro fits
    have fitting : ∀ s, Visits (nextEntry mem (madtEnd mem madt)) (madtStart mem madt k) s →
        s.hd < madtEnd mem madt → s.Fits mem madt (madtEnd mem madt) := by
      intro s visits more
      obtain ⟨n, scan, before⟩ := visits_scanAt visits
      refine scan.fits_iff.mpr (fits n fun m low => ?_)
      obtain less | rfl := Nat.lt_or_eq_of_le low
      · exact before m less
      · exact scan.hd ▸ more
    obtain ⟨l, chain, enough⟩ := chain_of_fits short stop fitting
    obtain ⟨last, runs⟩ := entriesLoop_of_chain chain enough
    refine ⟨last, _, runs, fun a member => ?_⟩
    obtain ⟨s, visited, read⟩ := List.mem_flatMap.mp member
    by_cases more : s.hd < madtEnd mem madt
    · rw [passReads, if_pos more] at read
      have fits := fitting s (chain.mem_iff.mp visited) more
      exact (reads_inside_iff short stop).mpr ⟨fits.above, fits.below⟩ a read
    · rw [passReads, if_neg more] at read
      cases read

def twoBytes (type length : BitVec 8) : Memory :=
  image 0x1000#64 (List.replicate 4 0#8 ++ leBytes 4 46 ++ List.replicate 36 0#8 ++ [type, length])

/-- One entry of the unknown type 3. -/
theorem madt_robust_unknown : ∃ last reads,
    entriesLoop (twoBytes 3#8 2#8) (madtEnd (twoBytes 3#8 2#8) 0x1000#64) passes
      (madtStart (twoBytes 3#8 2#8) 0x1000#64 Apic.empty) = .ok (last, reads) ∧
    ∀ a ∈ reads, 0x1000 ≤ a.toNat ∧ a.toNat < 0x102E := by
  refine (madt_robust (twoBytes 3#8 2#8) 0x1000#64 Apic.empty (by decide)).mpr fun n before => ?_
  cases n with
  | zero => exact ⟨by decide, by decide, by decide⟩
  | succ n =>
    have past : ¬ entryAt (twoBytes 3#8 2#8) 0x1000#64 1 < madtEnd (twoBytes 3#8 2#8) 0x1000#64 := by
      decide
    exact absurd (before 1 (Nat.succ_pos n)) past

/-- An entry of length 0 is never left, and of a local APIC that is cut off at the end of the
table the fields are read behind it. -/
theorem malformed_entries :
    (∀ fuel last reads, entriesLoop (twoBytes 3#8 0#8) (madtEnd (twoBytes 3#8 0#8) 0x1000#64) fuel
      (madtStart (twoBytes 3#8 0#8) 0x1000#64 Apic.empty) ≠ .ok (last, reads)) ∧
    ∃ last reads, entriesLoop (twoBytes 0#8 8#8) (madtEnd (twoBytes 0#8 8#8) 0x1000#64) passes
      (madtStart (twoBytes 0#8 8#8) 0x1000#64 Apic.empty) = .ok (last, reads) ∧
      0x1030#64 ∈ reads ∧ madtEnd (twoBytes 0#8 8#8) 0x1000#64 = 0x102E#64 := by
  constructor
  · intro fuel last reads runs
    obtain ⟨l, chain, -⟩ := chain_of_entriesLoop runs
    exact not_chain_of_empty .refl (by decide) (by decide) chain
  · have chain := chain_of_one (twoBytes 0#8 8#8) (madtEnd (twoBytes 0#8 8#8) 0x1000#64)
      (madtStart (twoBytes 0#8 8#8) 0x1000#64 Apic.empty) (by decide) (by decide)
    obtain ⟨last, runs⟩ := entriesLoop_of_chain chain (by decide : 2 ≤ passes)
    exact ⟨last, _, runs, by decide, by decide⟩

end ByteOS.Drivers
