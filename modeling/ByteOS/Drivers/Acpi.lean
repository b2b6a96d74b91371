import ByteOS.Mm.VmmMap

/-! Mapping an ACPI table (`map_table` of `kernel/drivers/acpi/acpi.c`).

The table is mapped one page at a time: the page of its first byte, the page of the byte behind
the header, and every further page by a step from there. Which pages that are depends only on
the address and the length, so the calls are listed first and the page tables are then read
after them.
-/

set_option autoImplicit false

namespace ByteOS.Drivers

open Lib Mm

def headerSize : Nat := 36

def tableFlags : BitVec 64 := vmmAllocMmap ||| pageGlobal

def virtToPhys (v : BitVec 64) : PhysAddr := if v = 0#64 then 0#64 else v - kernelLogicalBase

section Code

variable (nrCpus : Nat) (p4 : PhysAddr) (hd : BitVec 64)

/-- The loop of `map_table`, from the offset `i` on. -/
def mapRest (length i : Nat) (s : State) : Except Fault State :=
  if i < length then do
    let virt := hd + BitVec.ofNat 64 i
    let s ← vmmMapPage nrCpus s p4 (virtToPhys virt) virt tableFlags
    mapRest length (i + pageSize) s
  else .ok s
termination_by length - i
decreasing_by
  simp only [pageSize]
  omega

def mapTable (length : BitVec 32) (s : State) : Except Fault State := do
  let s ← vmmMapPage nrCpus s p4 (virtToPhys hd) hd tableFlags
  let s ← vmmMapPage nrCpus s p4 (virtToPhys hd + BitVec.ofNat 64 headerSize)
      (hd + BitVec.ofNat 64 headerSize) tableFlags
  mapRest nrCpus p4 hd length.toNat (headerSize + pageSize) s

end Code

/-! ## The calls -/

/-- The arguments of a call of `vmm_map_page`. -/
structure Call where
  phys : PhysAddr
  virt : BitVec 64

def restCalls (hd : BitVec 64) (length i : Nat) : List Call :=
  if i < length then
    ⟨virtToPhys (hd + BitVec.ofNat 64 i), hd + BitVec.ofNat 64 i⟩ :: restCalls hd length (i + pageSize)
  else []
termination_by length - i
decreasing_by
  simp only [pageSize]
  omega

def tableCalls (hd : BitVec 64) (length : BitVec 32) : List Call :=
  ⟨virtToPhys hd, hd⟩ ::
  ⟨virtToPhys hd + BitVec.ofNat 64 headerSize, hd + BitVec.ofNat 64 headerSize⟩ ::
  restCalls hd length.toNat (headerSize + pageSize)

def runCalls (nrCpus : Nat) (p4 : PhysAddr) (flags : BitVec 64) (calls : List Call) (s : State) :
    Except Fault State :=
  calls.foldlM (fun s call => vmmMapPage nrCpus s p4 call.phys call.virt flags) s

/-- The page of an address, as `vmm_map_page` rounds it. -/
def pageOf (va : BitVec 64) : BitVec 64 := va &&& ~~~0xFFF#64

section Calls

variable {nrCpus : Nat} {p4 : PhysAddr} {hd va flags : BitVec 64} {length : BitVec 32} {s s' : State}

theorem runCalls_cons (call : Call) (calls : List Call) (s : State) :
    runCalls nrCpus p4 flags (call :: calls) s =
      vmmMapPage nrCpus s p4 call.phys call.virt flags >>= runCalls nrCpus p4 flags calls :=
  List.foldlM_cons

theorem mapRest_eq (length i : Nat) (s : State) :
    mapRest nrCpus p4 hd length i s = runCalls nrCpus p4 tableFlags (restCalls hd length i) s := by
  fun_induction restCalls hd length i generalizing s with
  | case1 i more ih =>
    rw [mapRest, if_pos more, runCalls_cons]
    apply bind_congr
    exact ih
  | case2 i done =>
    rw [mapRest, if_neg done]
    rfl

theorem mapTable_eq (s : State) :
    mapTable nrCpus p4 hd length s = runCalls nrCpus p4 tableFlags (tableCalls hd length) s := by
  rw [mapTable, tableCalls, runCalls_cons]
  apply bind_congr
  intro s
  rw [runCalls_cons]
  apply bind_congr
  intro s
  exact mapRest_eq _ _ s

theorem mem_restCalls {length i : Nat} {call : Call} : call ∈ restCalls hd length i ↔
    ∃ k, i + pageSize * k < length ∧
      call = ⟨virtToPhys (hd + BitVec.ofNat 64 (i + pageSize * k)),
        hd + BitVec.ofNat 64 (i + pageSize * k)⟩ := by
  fun_induction restCalls hd length i with
  | case1 i more ih =>
    rw [List.mem_cons, ih]
    constructor
    · rintro (rfl | ⟨k, inside, rfl⟩)
      · exact ⟨0, more, rfl⟩
      · exact ⟨k + 1, by rwa [Nat.mul_succ, Nat.add_comm (pageSize * k), ← Nat.add_assoc],
          by rw [Nat.mul_succ, Nat.add_comm (pageSize * k), ← Nat.add_assoc]⟩
    · rintro ⟨k, inside, rfl⟩
      cases k with
      | zero => exact .inl rfl
      | succ k =>
        rw [Nat.mul_succ, Nat.add_comm (pageSize * k), ← Nat.add_assoc] at *
        exact .inr ⟨k, inside, rfl⟩
  | case2 i done =>
    simp only [List.not_mem_nil, false_iff, not_exists, not_and]
    omega

def Called (length offset : Nat) : Prop :=
  offset = 0 ∨ ∃ k, offset = headerSize + pageSize * k ∧ (k = 0 ∨ offset < length)

theorem exists_call_iff (property : BitVec 64 → Prop) :
    (∃ call ∈ tableCalls hd length, property call.virt) ↔
      ∃ offset, Called length.toNat offset ∧ property (hd + BitVec.ofNat 64 offset) := by
  simp only [tableCalls, List.mem_cons, exists_eq_or_imp, mem_restCalls]
  constructor
  · rintro (first | second | ⟨call, ⟨k, inside, rfl⟩, holds⟩)
    · exact ⟨0, .inl rfl, by rwa [BitVec.add_zero]⟩
    · exact ⟨headerSize, .inr ⟨0, rfl, .inl rfl⟩, second⟩
    · refine ⟨_, .inr ⟨k + 1, ?_, .inr inside⟩, holds⟩
      rw [Nat.mul_succ, Nat.add_comm (pageSize * k), ← Nat.add_assoc]
  · rintro ⟨offset, rfl | ⟨k, rfl, small⟩, holds⟩
    · exact .inl (by rwa [BitVec.add_zero] at holds)
    · cases k with
      | zero => exact .inr (.inl holds)
      | succ k =>
        have inside := small.resolve_left k.succ_ne_zero
        rw [Nat.mul_succ, Nat.add_comm (pageSize * k), ← Nat.add_assoc] at inside holds
        exact .inr (.inr ⟨_, ⟨k, inside, rfl⟩, holds⟩)

/-! ## Which pages they reach -/

theorem pageOf_toNat (va : BitVec 64) : (pageOf va).toNat = va.toNat / pageSize * pageSize := by
  have mask : ∀ i, i < 64 → (~~~0xFFF#64).getLsbD i = decide (12 ≤ i) := by decide
  have shifts : pageOf va = va >>> 12 <<< 12 := by
    ext i inside
    rw [pageOf, BitVec.getElem_and, ← BitVec.getLsbD_eq_getElem (x := ~~~0xFFF#64), mask i inside,
      BitVec.getElem_shiftLeft]
    by_cases low : i < 12
    · simp [low]
    · have high : 12 ≤ i := Nat.le_of_not_lt low
      simp [low, high, BitVec.getLsbD_eq_getElem inside]
  rw [shifts]
  simp only [BitVec.toNat_shiftLeft, BitVec.toNat_ushiftRight, Nat.shiftRight_eq_div_pow,
    Nat.shiftLeft_eq, pageSize]
  omega

/-- Two bytes of the table are in the same page exactly if they are without the wrap of the
address space, which is longer than any table. -/
theorem pageOf_add_eq_iff {i j : Nat} (low : i < 2 ^ 33) (low' : j < 2 ^ 33) :
    pageOf (hd + BitVec.ofNat 64 i) = pageOf (hd + BitVec.ofNat 64 j) ↔
      (hd.toNat % pageSize + i) / pageSize = (hd.toNat % pageSize + j) / pageSize := by
  have bound := hd.isLt
  rw [← BitVec.toNat_inj, pageOf_toNat, pageOf_toNat, BitVec.toNat_add, BitVec.toNat_add,
    BitVec.toNat_ofNat, BitVec.toNat_ofNat]
  simp only [pageSize]
  omega

theorem called_page_iff {offset page length : Nat} (first : offset < pageSize) :
    (∃ c, Called length c ∧ (offset + c) / pageSize = page) ↔
      page ≤ (offset + headerSize) / pageSize + (length - (headerSize + 1)) / pageSize := by
  simp only [Called, headerSize, pageSize] at *
  constructor
  · rintro ⟨c, rfl | ⟨k, rfl, small⟩, rfl⟩
    · omega
    · omega
  · intro reached
    by_cases inFirst : page < (offset + 36) / 4096
    · exact ⟨0, .inl rfl, by omega⟩
    · refine ⟨36 + 4096 * (page - (offset + 36) / 4096), .inr ⟨_, rfl, ?_⟩, by omega⟩
      by_cases second : page = (offset + 36) / 4096
      · exact .inl (by omega)
      · exact .inr (by omega)

theorem Called.low {offset : Nat} (called : Called length.toNat offset) : offset < 2 ^ 33 := by
  have short := length.isLt
  obtain rfl | ⟨k, rfl, small⟩ := called
  · decide
  · simp only [headerSize, pageSize] at *
    omega

theorem byte_called_iff {j : Nat} (inside : j < length.toNat) :
    (∃ call ∈ tableCalls hd length, pageOf call.virt = pageOf (hd + BitVec.ofNat 64 j)) ↔
      (hd.toNat % pageSize + j) / pageSize ≤
        (hd.toNat % pageSize + headerSize) / pageSize + (length.toNat - (headerSize + 1)) / pageSize := by
  have short := length.isLt
  rw [exists_call_iff fun virt => pageOf virt = pageOf (hd + BitVec.ofNat 64 j),
    ← called_page_iff (Nat.mod_lt _ (by decide))]
  apply exists_congr
  intro offset
  apply and_congr_right
  intro called
  exact pageOf_add_eq_iff called.low (by omega)

theorem bytes_called_iff (long : headerSize ≤ length.toNat) :
    (∀ j < length.toNat, ∃ call ∈ tableCalls hd length,
      pageOf call.virt = pageOf (hd + BitVec.ofNat 64 j)) ↔
      (hd.toNat % pageSize + (length.toNat - 1)) / pageSize ≤
        (hd.toNat % pageSize + headerSize) / pageSize + (length.toNat - (headerSize + 1)) / pageSize := by
  have positive : 0 < length.toNat := Nat.lt_of_lt_of_le (by decide) long
  constructor
  · intro all
    have last : length.toNat - 1 < length.toNat := Nat.sub_lt positive Nat.one_pos
    exact (byte_called_iff last).mp (all _ last)
  · intro reached j inside
    apply (byte_called_iff inside).mpr
    exact (Nat.div_le_div_right (by omega)).trans reached

/-! ## The page tables after the calls -/

theorem leafEntry_present (maps : flags &&& vmmUnmap = 0#64) (phys : PhysAddr) :
    leafEntry phys flags &&& pagePresent ≠ 0#64 := by
  intro zero
  have bit := congrArg (fun entry => entry.getLsbD 0) zero
  simp [leafEntry, maps, vmmAllocMmap, pagePresent] at bit

theorem call_entries {phys : PhysAddr} {virt : BitVec 64} (tree : TableTree s.mem p4)
    (supplied : Supplied (Below p4) s) (ran : vmmMapPage nrCpus s p4 phys virt flags = .ok s') :
    TableTree s'.mem p4 ∧ Supplied (Below p4) s' ∧
      ∀ va, pteValue s'.mem p4 va = if vpn va = vpn virt then leafEntry phys flags
      else pteValue s.mem p4 va := by
  have mapped :=
    vmmMapPage_spec (below_region p4) supplied ((tableTree_iff _ p4).mp tree) ⟨rfl, by simp [tablePath]⟩ ran
  refine ⟨(tableTree_iff _ p4).mpr mapped.separate, mapped.supplied, fun va => ?_⟩
  rw [pteValue_eq, mapped.entries p4 (tablePath va) (p1Index va) ⟨rfl, by simp [tablePath]⟩ rfl,
    pteValue_eq]
  simp only [vpn_eq_iff, tablePath, List.cons.injEq, true_and, and_true, and_assoc]

theorem runCalls_entries {calls : List Call} (maps : flags &&& vmmUnmap = 0#64)
    (tree : TableTree s.mem p4) (supplied : Supplied (Below p4) s)
    (ran : runCalls nrCpus p4 flags calls s = .ok s') (va : BitVec 64) :
    ((∃ call ∈ calls, vpn va = vpn call.virt) → pteValue s'.mem p4 va &&& pagePresent ≠ 0#64) ∧
    ((∀ call ∈ calls, vpn va ≠ vpn call.virt) → pteValue s'.mem p4 va = pteValue s.mem p4 va) := by
  induction calls generalizing s with
  | nil =>
    cases ran
    exact ⟨nofun, fun _ => rfl⟩
  | cons call calls ih =>
    rw [runCalls_cons] at ran
    obtain ⟨mid, here, ran⟩ := bind_eq_ok.mp ran
    obtain ⟨tree, supplied, entries⟩ := call_entries tree supplied here
    obtain ⟨present, kept⟩ := ih tree supplied ran
    constructor
    · intro reached
      by_cases later : ∃ call ∈ calls, vpn va = vpn call.virt
      · exact present later
      · obtain ⟨other, member, same⟩ := reached
        obtain rfl | member := List.mem_cons.mp member
        · rw [kept fun next member equal => later ⟨next, member, equal⟩, entries, if_pos same]
          exact leafEntry_present maps _
        · exact absurd ⟨other, member, same⟩ later
    · intro apart
      rw [kept fun other member => apart other (List.mem_cons_of_mem call member), entries,
        if_neg (apart call List.mem_cons_self)]

theorem vpn_of_pageOf {vb : BitVec 64} (same : pageOf va = pageOf vb) : vpn va = vpn vb := by
  have pages := congrArg BitVec.toNat same
  rw [pageOf_toNat, pageOf_toNat] at pages
  simp only [vpn, pageSize] at *
  omega

end Calls

/-- A table of at least a header has all its pages among the calls exactly if the last one is
not behind the page that the header's end and the further steps come to. After the calls every
page among them is present, and other entries are as they were. -/
theorem acpi_table_mapped (hd : BitVec 64) (length : BitVec 32) (long : headerSize ≤ length.toNat) :
    ((∀ j < length.toNat, ∃ call ∈ tableCalls hd length,
      pageOf call.virt = pageOf (hd + BitVec.ofNat 64 j)) ↔
      (hd.toNat % pageSize + (length.toNat - 1)) / pageSize ≤
        (hd.toNat % pageSize + headerSize) / pageSize + (length.toNat - (headerSize + 1)) / pageSize) ∧
    ∀ (nrCpus : Nat) (p4 : PhysAddr) (s s' : State), TableTree s.mem p4 → Supplied (Below p4) s →
      mapTable nrCpus p4 hd length s = .ok s' → ∀ va,
        ((∃ call ∈ tableCalls hd length, pageOf call.virt = pageOf va) →
          pteValue s'.mem p4 va &&& pagePresent ≠ 0#64) ∧
        ((∀ call ∈ tableCalls hd length, vpn va ≠ vpn call.virt) →
          pteValue s'.mem p4 va = pteValue s.mem p4 va) := by
  refine ⟨bytes_called_iff long, fun nrCpus p4 s s' tree supplied ran va => ?_⟩
  rw [mapTable_eq] at ran
  obtain ⟨present, kept⟩ := runCalls_entries (by decide) tree supplied ran va
  refine ⟨?_, kept⟩
  rintro ⟨call, member, same⟩
  exact present ⟨call, member, (vpn_of_pageOf same).symm⟩

/-- A table of 100 bytes across the end of a page. -/
theorem acpi_table_mapped_across : headerSize ≤ (100#32).toNat ∧
    ∀ j < 100, ∃ call ∈ tableCalls 0xFFFF800000100FE0#64 100#32,
      pageOf call.virt = pageOf (0xFFFF800000100FE0#64 + BitVec.ofNat 64 j) :=
  ⟨by decide, (acpi_table_mapped 0xFFFF800000100FE0#64 100#32 (by decide)).1.mpr (by decide)⟩

/-- At the start of a page, with 36 bytes in the second page: that page is not mapped. -/
theorem last_page_unmapped : headerSize ≤ (4132#32).toNat ∧ 4096 < (4132#32).toNat ∧
    ∀ call ∈ tableCalls 0xFFFF800000100000#64 4132#32,
      pageOf call.virt ≠ pageOf (0xFFFF800000100000#64 + BitVec.ofNat 64 4096) := by
  refine ⟨by decide, by decide, fun call member same => ?_⟩
  have reached := (byte_called_iff (by decide)).mp ⟨call, member, same⟩
  exact absurd reached (by decide)

end ByteOS.Drivers
