import ByteOS.Drivers.Madt

/-! The I/O APICs (`kernel/drivers/apic/ioapic.c`).

An I/O APIC has 256 registers behind a window: a register is selected by its number, and then
read or written. The devices are found at the virtual addresses of their windows. Locks are
not modelled.
-/

set_option autoImplicit false

namespace ByteOS.Drivers

open Lib Mm
open MapAll (physToVirt)
open Function (update update_self update_of_ne)
open BitVec (eq_of_toNat_eq toNat_setWidth toNat_and toNat_add toNat_mul toNat_ofNat)

def apicRegVer : BitVec 8 := 1#8
def apicRegRedtbl : BitVec 32 := 16#32
def apicIrqMask : BitVec 64 := 0x10000#64
def irqApicBase : BitVec 32 := 0x30#32

structure Ioapics where
  select : BitVec 64 → BitVec 32
  regs : BitVec 64 → BitVec 8 → BitVec 32

section Code

variable (m : Ioapics)

def Ioapics.selectReg (base : BitVec 64) (reg : BitVec 8) : Ioapics :=
  { m with select := update m.select base (reg.setWidth 32 &&& 0xFF#32) }

def ioapicRead (base : BitVec 64) (reg : BitVec 8) : BitVec 32 × Ioapics :=
  let m := m.selectReg base reg
  (m.regs base ((m.select base).setWidth 8), m)

def ioapicWrite (base : BitVec 64) (reg : BitVec 8) (data : BitVec 32) : Ioapics :=
  let m := m.selectReg base reg
  { m with regs := update m.regs base (update (m.regs base) ((m.select base).setWidth 8) data) }

def IoapicEntry.base (e : IoapicEntry) : BitVec 64 := physToVirt e.physAddr.toNat

def getMaxRedirs (e : IoapicEntry) : BitVec 32 × Ioapics :=
  let (version, m) := ioapicRead m e.base apicRegVer
  ((version &&& 0xFF0000#32) >>> 16, m)

/-- The loop of `gsi_to_ioapic` over what is left of the list. -/
def gsiToIoapic (gsi : BitVec 32) : List IoapicEntry → Ioapics → Except Fault (IoapicEntry × Ioapics)
  | [], _ => .error (.panic ("I/O APIC not found for GSI " ++ toString gsi.toNat))
  | e :: rest, m =>
    let (maxRedirs, m) := getMaxRedirs m e
    if e.gsiBase ≤ gsi ∧ gsi < e.gsiBase + maxRedirs then .ok (e, m) else gsiToIoapic gsi rest m

def ioredtbl (irqLine : BitVec 8) : BitVec 32 := irqLine.setWidth 32 * 2#32 + apicRegRedtbl

def ioapicRedtblRead (base : BitVec 64) (irqLine : BitVec 8) : BitVec 64 × Ioapics :=
  let (low, m) := ioapicRead m base ((ioredtbl irqLine).setWidth 8)
  let (high, m) := ioapicRead m base ((ioredtbl irqLine + 1#32).setWidth 8)
  (low.setWidth 64 ||| high.setWidth 64 <<< 32, m)

def ioapicRedtblWrite (base : BitVec 64) (irqLine : BitVec 8) (value : BitVec 64) : Ioapics :=
  let m := ioapicWrite m base ((ioredtbl irqLine + 0#32).setWidth 8) (value.setWidth 32)
  ioapicWrite m base ((ioredtbl irqLine + 1#32).setWidth 8) ((value >>> 32).setWidth 32)

/-- `lapic_list[target].id`: the array is zero behind the local APICs that were found. -/
def lapicId (lapics : List LapicInfo) (target : BitVec 8) : Except Fault (BitVec 8) :=
  if target.toNat < maxLapics then .ok ((lapics[target.toNat]?.map LapicInfo.id).getD 0#8)
  else .error .outOfRange

def redirection (gsi : BitVec 32) (flags : BitVec 16) (target : BitVec 8) : BitVec 64 :=
  let value := (gsi + irqApicBase).setWidth 64
  let value := if flags &&& 2#16 ≠ 0#16 then value ||| 1#64 <<< 13 else value
  let value := if flags &&& 8#16 ≠ 0#16 then value ||| 1#64 <<< 15 else value
  value ||| target.setWidth 64 <<< 56

variable (ioapics : List IoapicEntry) (gsi : BitVec 32)

def ioapicRedirect (lapics : List LapicInfo) (flags : BitVec 16) (targetApic : BitVec 8) :
    Except Fault Ioapics := do
  let targetApicId ← lapicId lapics targetApic
  let (ioapic, m) ← gsiToIoapic gsi ioapics m
  return ioapicRedtblWrite m ioapic.base ((gsi - ioapic.gsiBase).setWidth 8)
    (redirection gsi flags targetApicId)

/-- `ioapic_mask` and `ioapic_unmask`, which differ in what they do to the entry. -/
def ioapicUpdate (change : BitVec 64 → BitVec 64) : Except Fault Ioapics := do
  let (ioapic, m) ← gsiToIoapic gsi ioapics m
  let irqLine := (gsi - ioapic.gsiBase).setWidth 8
  let (prev, m) := ioapicRedtblRead m ioapic.base irqLine
  return ioapicRedtblWrite m ioapic.base irqLine (change prev)

def ioapicMask : Except Fault Ioapics := ioapicUpdate m ioapics gsi fun prev => prev ||| apicIrqMask

def ioapicUnmask : Except Fault Ioapics := ioapicUpdate m ioapics gsi fun prev => prev &&& ~~~apicIrqMask

end Code

/-! ## What an I/O APIC is -/

/-- The number of redirection entries: the version register has the index of the last. -/
def numEntries (m : Ioapics) (e : IoapicEntry) : Nat :=
  ((m.regs e.base apicRegVer &&& 0xFF0000#32) >>> 16).toNat + 1

def Wired (m : Ioapics) (e : IoapicEntry) (gsi : BitVec 32) : Prop :=
  e.gsiBase.toNat ≤ gsi.toNat ∧ gsi.toNat < e.gsiBase.toNat + numEntries m e

def DisjointGsis (m : Ioapics) (ioapics : List IoapicEntry) : Prop :=
  ioapics.Pairwise fun a b => ∀ gsi, Wired m a gsi → ¬ Wired m b gsi

def entryValue (m : Ioapics) (base : BitVec 64) (line : Nat) : BitVec 64 :=
  (m.regs base (BitVec.ofNat 8 (2 * line + 16))).setWidth 64 |||
    (m.regs base (BitVec.ofNat 8 (2 * line + 17))).setWidth 64 <<< 32

/-- One entry of one I/O APIC has a new value, and no other register of any has. -/
structure ActsOn (m m' : Ioapics) (base : BitVec 64) (line : Nat) (value : BitVec 64) : Prop where
  entry : entryValue m' base line = value
  others : ∀ b reg, b ≠ base ∨ reg.toNat ≠ 2 * line + 16 ∧ reg.toNat ≠ 2 * line + 17 →
    m'.regs b reg = m.regs b reg

/-- The GSI is not that of the last entry, and the numbers of all entries fit in 32 bits. -/
def Accepted (m : Ioapics) (e : IoapicEntry) (gsi : BitVec 32) : Prop :=
  gsi.toNat + 1 < e.gsiBase.toNat + numEntries m e ∧ e.gsiBase.toNat + numEntries m e ≤ 2 ^ 32

/-! ## Which I/O APIC is found -/

section Lookup

variable {m : Ioapics} {e a : IoapicEntry} {ioapics : List IoapicEntry} {gsi : BitVec 32}

theorem window_reg (reg : BitVec 8) : (reg.setWidth 32 &&& 0xFF#32).setWidth 8 = reg := by
  apply eq_of_toNat_eq
  have low := reg.isLt
  have mask : (0xFF#32).toNat = 2 ^ 8 - 1 := rfl
  rw [toNat_setWidth, toNat_and, toNat_setWidth, mask, Nat.and_two_pow_sub_one_eq_mod]
  omega

theorem ioapicRead_value (m : Ioapics) (base : BitVec 64) (reg : BitVec 8) :
    (ioapicRead m base reg).1 = m.regs base reg := by
  simp only [ioapicRead, Ioapics.selectReg, update_self, window_reg]

theorem getMaxRedirs_toNat (m : Ioapics) (e : IoapicEntry) :
    (getMaxRedirs m e).1.toNat + 1 = numEntries m e := by
  rw [numEntries, ← ioapicRead_value]
  rfl

theorem numEntries_le (m : Ioapics) (e : IoapicEntry) : numEntries m e ≤ 256 := by
  have masked : (m.regs e.base apicRegVer &&& 0xFF0000#32).toNat ≤ 0xFF0000 := by
    rw [toNat_and]
    exact Nat.and_le_right
  rw [numEntries, BitVec.toNat_ushiftRight, Nat.shiftRight_eq_div_pow]
  omega

/-- The test of the loop, which is made in 32 bits. -/
theorem test_iff : (e.gsiBase ≤ gsi ∧ gsi < e.gsiBase + (getMaxRedirs m e).1) ↔ Wired m e gsi ∧
    Accepted m e gsi := by
  have count := getMaxRedirs_toNat m e
  have few := numEntries_le m e
  have first := e.gsiBase.isLt
  have line := gsi.isLt
  rw [BitVec.le_def, BitVec.lt_def, toNat_add, Wired, Accepted]
  omega

theorem gsiToIoapic_panics (none : ∀ e ∈ ioapics, ¬ (Wired m e gsi ∧ Accepted m e gsi)) :
    gsiToIoapic gsi ioapics m = .error (.panic ("I/O APIC not found for GSI " ++ toString gsi.toNat)) := by
  induction ioapics generalizing m with
  | nil => rfl
  | cons a rest ih =>
    have differs := fun test => none a List.mem_cons_self (test_iff.mp test)
    rw [gsiToIoapic]
    dsimp only
    rw [if_neg differs]
    apply ih
    intro e member
    exact none e (List.mem_cons_of_mem a member)

/-- One that is accepted is found: those before it do not have the GSI. The induction is on the
list; reading a version selects a register and changes none. -/
theorem gsiToIoapic_found (disjoint : DisjointGsis m ioapics) (member : e ∈ ioapics)
    (wired : Wired m e gsi) (accepted : Accepted m e gsi) :
    ∃ m', gsiToIoapic gsi ioapics m = .ok (e, m') ∧ m'.regs = m.regs := by
  induction ioapics generalizing m with
  | nil => cases member
  | cons a rest ih =>
    obtain ⟨apart, disjoint⟩ := List.pairwise_cons.mp disjoint
    rw [gsiToIoapic]
    dsimp only
    obtain rfl | member := List.mem_cons.mp member
    · rw [if_pos (test_iff.mpr ⟨wired, accepted⟩)]
      exact ⟨_, rfl, rfl⟩
    · have differs : ¬ (a.gsiBase ≤ gsi ∧ gsi < a.gsiBase + (getMaxRedirs m a).1) :=
        fun test => apart e member gsi (test_iff.mp test).1 wired
      rw [if_neg differs]
      exact ih disjoint member wired accepted

theorem none_accepted (disjoint : DisjointGsis m ioapics) (member : e ∈ ioapics)
    (wired : Wired m e gsi) (refused : ¬ Accepted m e gsi) :
    ∀ a ∈ ioapics, ¬ (Wired m a gsi ∧ Accepted m a gsi) := by
  have symmetric : Std.Symm fun a b => ∀ gsi, Wired m a gsi → ¬ Wired m b gsi :=
    ⟨fun a b apart gsi second first => apart gsi first second⟩
  rintro a among ⟨has, accepted⟩
  by_cases same : a = e
  · exact refused (same ▸ accepted)
  · exact disjoint.forall among member same gsi has wired

end Lookup

/-! ## What is done to it -/

section Entry

variable {m : Ioapics} {base : BitVec 64} {irqLine : BitVec 8} {line : Nat}

/-- For the entries that the window reaches the byte that selects a register does not wrap. -/
theorem ioredtbl_reg (same : irqLine.toNat = line) (reached : line < 120) :
    (ioredtbl irqLine).setWidth 8 = BitVec.ofNat 8 (2 * line + 16) ∧
      (ioredtbl irqLine + 1#32).setWidth 8 = BitVec.ofNat 8 (2 * line + 17) := by
  subst same
  constructor
  · apply eq_of_toNat_eq
    simp only [ioredtbl, apicRegRedtbl, toNat_setWidth, toNat_add, toNat_mul, toNat_ofNat]
    omega
  · apply eq_of_toNat_eq
    simp only [ioredtbl, apicRegRedtbl, toNat_setWidth, toNat_add, toNat_mul, toNat_ofNat]
    omega

theorem ioapicRedtblRead_value (same : irqLine.toNat = line) (reached : line < 120) :
    (ioapicRedtblRead m base irqLine).1 = entryValue m base line := by
  obtain ⟨low, high⟩ := ioredtbl_reg same reached
  simp only [ioapicRedtblRead, ioapicRead_value, entryValue, low, high]
  rfl

theorem ioapicWrite_regs (m : Ioapics) (base : BitVec 64) (reg : BitVec 8) (data : BitVec 32) :
    (ioapicWrite m base reg data).regs = update m.regs base (update (m.regs base) reg data) := by
  simp only [ioapicWrite, Ioapics.selectReg, update_self, window_reg]

theorem halves (value : BitVec 64) :
    (value.setWidth 32).setWidth 64 ||| ((value >>> 32).setWidth 32).setWidth 64 <<< 32 = value := by
  ext i inside
  simp only [BitVec.getElem_or, BitVec.getElem_setWidth, BitVec.getElem_shiftLeft, BitVec.getLsbD_setWidth]
  by_cases low : i < 32
  · simp [low, BitVec.getLsbD_eq_getElem inside]
  · have high : 32 + (i - 32) = i := by omega
    have inner : i - 32 < 32 := by omega
    simp [low, inner, high, BitVec.getLsbD_eq_getElem inside]

theorem ioapicRedtblWrite_acts (same : irqLine.toNat = line) (reached : line < 120)
    (value : BitVec 64) : ActsOn m (ioapicRedtblWrite m base irqLine value) base line value := by
  obtain ⟨low, high⟩ := ioredtbl_reg same reached
  have apart : BitVec.ofNat 8 (2 * line + 16) ≠ BitVec.ofNat 8 (2 * line + 17) := by
    intro equal
    have values := congrArg BitVec.toNat equal
    simp only [toNat_ofNat] at values
    omega
  have regs : (ioapicRedtblWrite m base irqLine value).regs = update m.regs base
      (update (update (m.regs base) (BitVec.ofNat 8 (2 * line + 16)) (value.setWidth 32))
        (BitVec.ofNat 8 (2 * line + 17)) ((value >>> 32).setWidth 32)) := by
    simp only [ioapicRedtblWrite, ioapicWrite_regs, BitVec.add_zero, low, high, update_self,
      Function.update_idem]
  constructor
  · rw [entryValue, regs, update_self, update_self, update_of_ne apart, update_self]
    exact halves value
  · intro b reg other
    rw [regs]
    by_cases here : b = base
    · subst here
      obtain ⟨notLow, notHigh⟩ := other.resolve_left fun differs => differs rfl
      have below := reg.isLt
      rw [update_self, update_of_ne, update_of_ne]
      · rintro rfl
        exact notLow (by rw [toNat_ofNat]; omega)
      · rintro rfl
        exact notHigh (by rw [toNat_ofNat]; omega)
    · rw [update_of_ne here]

theorem ActsOn.of_regs {m₁ m₂ m' : Ioapics} {value : BitVec 64}
    (acts : ActsOn m₂ m' base line value) (same : m₂.regs = m₁.regs) : ActsOn m₁ m' base line value :=
  ⟨acts.entry, fun b reg other => (acts.others b reg other).trans (by rw [same])⟩

end Entry

section Actions

variable {m m' : Ioapics} {e : IoapicEntry} {ioapics : List IoapicEntry} {gsi : BitVec 32}

theorem Wired.line (wired : Wired m e gsi) :
    ((gsi - e.gsiBase).setWidth 8).toNat = gsi.toNat - e.gsiBase.toNat := by
  have few := numEntries_le m e
  have line := gsi.isLt
  obtain ⟨above, below⟩ := wired
  rw [toNat_setWidth, BitVec.toNat_sub]
  omega

theorem ioapicUpdate_acts (change : BitVec 64 → BitVec 64) (wired : Wired m e gsi)
    (found : gsiToIoapic gsi ioapics m = .ok (e, m')) (kept : m'.regs = m.regs)
    (reached : gsi.toNat - e.gsiBase.toNat < 120) :
    ∃ m'', ioapicUpdate m ioapics gsi change = .ok m'' ∧ ActsOn m m'' e.base (gsi.toNat - e.gsiBase.toNat)
      (change (entryValue m e.base (gsi.toNat - e.gsiBase.toNat))) := by
  let irqLine := (gsi - e.gsiBase).setWidth 8
  let read := ioapicRedtblRead m' e.base irqLine
  have value : read.1 = entryValue m e.base (gsi.toNat - e.gsiBase.toNat) := by
    rw [ioapicRedtblRead_value wired.line reached, entryValue, kept, entryValue]
  have runs : ioapicUpdate m ioapics gsi change =
      .ok (ioapicRedtblWrite read.2 e.base irqLine (change read.1)) := by
    rw [ioapicUpdate, found]
    rfl
  have acts : ActsOn read.2 _ e.base _ (change read.1) :=
    ioapicRedtblWrite_acts wired.line reached (change read.1)
  exact ⟨_, runs, value ▸ acts.of_regs kept⟩

theorem ioapicRedirect_acts {lapics : List LapicInfo} {target id : BitVec 8} (flags : BitVec 16)
    (wired : Wired m e gsi) (found : gsiToIoapic gsi ioapics m = .ok (e, m'))
    (kept : m'.regs = m.regs) (reached : gsi.toNat - e.gsiBase.toNat < 120)
    (known : lapicId lapics target = .ok id) :
    ∃ m'', ioapicRedirect m ioapics gsi lapics flags target = .ok m'' ∧
      ActsOn m m'' e.base (gsi.toNat - e.gsiBase.toNat) (redirection gsi flags id) := by
  refine ⟨_, by rw [ioapicRedirect, known, ok_bind, found]; rfl, ?_⟩
  exact (ioapicRedtblWrite_acts wired.line reached _).of_regs kept

end Actions

/-- A GSI of an I/O APIC is resolved to it exactly if it is not that of the last entry, and else
the kernel panics. The functions then act on its entry, where the window reaches it. The window
has no entry from 120 on: the number of its register is cut to 8 bits, and what is written is
one of the first registers or an entry `line - 128`. Nothing is claimed there. -/
theorem gsi_resolved (m : Ioapics) (ioapics : List IoapicEntry) (e : IoapicEntry) (gsi : BitVec 32)
    (disjoint : DisjointGsis m ioapics) (member : e ∈ ioapics) (wired : Wired m e gsi) :
    (Accepted m e gsi → ∃ m', gsiToIoapic gsi ioapics m = .ok (e, m') ∧ m'.regs = m.regs) ∧
    (¬ Accepted m e gsi →
      gsiToIoapic gsi ioapics m = .error (.panic ("I/O APIC not found for GSI " ++ toString gsi.toNat))) ∧
    (Accepted m e gsi → gsi.toNat - e.gsiBase.toNat < 120 →
      (∀ lapics flags target id, lapicId lapics target = .ok id →
        ∃ m', ioapicRedirect m ioapics gsi lapics flags target = .ok m' ∧
          ActsOn m m' e.base (gsi.toNat - e.gsiBase.toNat) (redirection gsi flags id)) ∧
      (∃ m', ioapicMask m ioapics gsi = .ok m' ∧ ActsOn m m' e.base (gsi.toNat - e.gsiBase.toNat)
        (entryValue m e.base (gsi.toNat - e.gsiBase.toNat) ||| apicIrqMask)) ∧
      ∃ m', ioapicUnmask m ioapics gsi = .ok m' ∧ ActsOn m m' e.base (gsi.toNat - e.gsiBase.toNat)
        (entryValue m e.base (gsi.toNat - e.gsiBase.toNat) &&& ~~~apicIrqMask)) := by
  refine ⟨gsiToIoapic_found disjoint member wired, fun refused => ?_, fun accepted reached => ?_⟩
  · exact gsiToIoapic_panics (none_accepted disjoint member wired refused)
  · obtain ⟨m', found, kept⟩ := gsiToIoapic_found disjoint member wired accepted
    refine ⟨fun lapics flags target id known => ?_, ?_, ?_⟩
    · exact ioapicRedirect_acts flags wired found kept reached known
    · exact ioapicUpdate_acts _ wired found kept reached
    · exact ioapicUpdate_acts _ wired found kept reached

def wiredTo24 : Ioapics := ⟨fun _ => 0#32, fun _ reg => if reg = apicRegVer then 0x170020#32 else 0#32⟩

def onlyIoapic : IoapicEntry := ⟨0#8, 0xFEC00000#32, 0#32⟩

theorem gsi_resolved_five : ∃ m', gsiToIoapic 5#32 [onlyIoapic] wiredTo24 = .ok (onlyIoapic, m') ∧
    m'.regs = wiredTo24.regs :=
  (gsi_resolved wiredTo24 [onlyIoapic] onlyIoapic 5#32 (List.pairwise_singleton _ _) List.mem_cons_self
    ⟨by decide, by decide⟩).1 ⟨by decide, by decide⟩

/-- The last of the 24 lines: the kernel panics. -/
theorem last_gsi_panics : DisjointGsis wiredTo24 [onlyIoapic] ∧
    numEntries wiredTo24 onlyIoapic = 24 ∧ Wired wiredTo24 onlyIoapic 23#32 ∧
    gsiToIoapic 23#32 [onlyIoapic] wiredTo24 = .error (.panic "I/O APIC not found for GSI 23") := by
  refine ⟨List.pairwise_singleton _ _, by decide, ⟨by decide, by decide⟩, ?_⟩
  apply gsiToIoapic_panics
  intro e member accepted
  rw [List.mem_singleton.mp member] at accepted
  exact absurd accepted.2.1 (by decide)

end ByteOS.Drivers
