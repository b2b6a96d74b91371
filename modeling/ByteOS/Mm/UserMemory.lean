import ByteOS.Mm.Lifetime

/-! User memory under copy on write.

Programs read and write bytes through the tables of their address space; a write
that the entry forbids goes through `page_fault_handler` of `kernel/cpu/exceptions.c`
and is tried again. The reference gives every address space pages of its own and
copies all of them at a fork. The two cannot be told apart.
-/

set_option autoImplicit false

namespace ByteOS.Mm

open ByteOS.Lib
open Function (update update_self update_of_ne)

/-! ## Bytes of a page -/

def wordOf (va : BitVec 64) : Fin 512 := ⟨va.toNat % 4096 / 8, by omega⟩

def byteOf (va : BitVec 64) : Nat := va.toNat % 8

def loadByte (words : Fin 512 → BitVec 64) (va : BitVec 64) : BitVec 8 :=
  (words (wordOf va)).extractLsb' (8 * byteOf va) 8

def storeByte (words : Fin 512 → BitVec 64) (va : BitVec 64) (byte : BitVec 8) : Fin 512 → BitVec 64 :=
  let mask := 0xFF#64 <<< (8 * byteOf va)
  update words (wordOf va)
    ((words (wordOf va) &&& ~~~mask) ||| (byte.zeroExtend 64 <<< (8 * byteOf va)))

theorem byteMask_bit (j : Nat) : (0xFF#64).getLsbD j = decide (j < 8) := by
  by_cases small : j < 64
  · have table : ∀ k : Fin 64, (0xFF#64).getLsbD k.val = decide (k.val < 8) := by decide
    exact table ⟨j, small⟩
  · rw [BitVec.getLsbD_of_ge _ _ (by omega), eq_comm, decide_eq_false_iff_not]
    omega

theorem loadByte_storeByte (words : Fin 512 → BitVec 64) (va va' : BitVec 64) (byte : BitVec 8) :
    loadByte (storeByte words va byte) va' =
      if va'.toNat % 4096 = va.toNat % 4096 then byte else loadByte words va' := by
  unfold loadByte storeByte
  by_cases word : wordOf va' = wordOf va
  · have value := congrArg Fin.val word
    simp only [wordOf] at value
    rw [word, update_self]
    apply BitVec.eq_of_getLsbD_eq
    intro i small
    have wordSmall : ∀ va : BitVec 64, byteOf va < 8 := fun va => Nat.mod_lt _ (by decide)
    have first := wordSmall va
    have second := wordSmall va'
    split
    case isTrue same =>
      have place : byteOf va' = byteOf va := by unfold byteOf; omega
      simp only [BitVec.getLsbD_extractLsb', BitVec.getLsbD_or, BitVec.getLsbD_and,
        BitVec.getLsbD_not, BitVec.getLsbD_shiftLeft, byteMask_bit, place, BitVec.getLsbD_setWidth]
      have inside : 8 * byteOf va + i < 64 := by omega
      have narrow : i < 64 := by omega
      simp [small, inside, narrow]
    case isFalse other =>
      have place : byteOf va' ≠ byteOf va := by unfold byteOf; omega
      simp only [BitVec.getLsbD_extractLsb', BitVec.getLsbD_or, BitVec.getLsbD_and,
        BitVec.getLsbD_not, BitVec.getLsbD_shiftLeft, byteMask_bit, BitVec.getLsbD_setWidth]
      have inside : 8 * byteOf va' + i < 64 := by omega
      by_cases before : 8 * byteOf va' + i < 8 * byteOf va
      · simp [small, inside, before]
      · have past : ¬ 8 * byteOf va' + i - 8 * byteOf va < 8 := by omega
        have beyond : byte.getLsbD (8 * byteOf va' + i - 8 * byteOf va) = false :=
          BitVec.getLsbD_of_ge _ _ (by omega)
        simp [small, inside, past, beyond]
  · have other : ¬ va'.toNat % 4096 = va.toNat % 4096 := fun same => word (by simp [wordOf, same])
    rw [if_neg other, update_of_ne word]

/-! ## Accesses -/

/-- `page_fault_handler` for an address space; `write` is `PAGE_FAULT_RW`. -/
def pageFaultHandler (s : State) (p4 : PhysAddr) (address : BitVec 64) (write : Bool) :
    Except Fault State :=
  if address &&& (1#64 <<< 63) ≠ 0#64 then .error (.panic "Page fault")
  else
    match write with
    | false => .error (.panic "Page fault")
    | true => do
        let (done, s) ← cowHandleWrite s (vmmGetPte s.mem p4 (address &&& ~~~0xFFF#64))
        if done then return s else .error (.panic "Page fault")

def userLoad (s : State) (p4 : PhysAddr) (va : BitVec 64) : Nat → Except Fault (BitVec 8)
  | 0 => .error .unfinished
  | attempts + 1 =>
      if Present (pteValue s.mem p4 va) then
        .ok (loadByte (s.mem (pteValue s.mem p4 va &&& pteAddrMask)) va)
      else do
        let s ← pageFaultHandler s p4 va false
        userLoad s p4 va attempts

def userStore (s : State) (p4 : PhysAddr) (va : BitVec 64) (byte : BitVec 8) : Nat → Except Fault State
  | 0 => .error .unfinished
  | attempts + 1 =>
      if Present (pteValue s.mem p4 va) ∧ Writable (pteValue s.mem p4 va) then
        let page := pteValue s.mem p4 va &&& pteAddrMask
        .ok (s.setPage page (storeByte (s.mem page) va byte))
      else do
        let s ← pageFaultHandler s p4 va true
        userStore s p4 va byte attempts

def UserAddr (va : BitVec 64) : Prop := va.toNat < 2 ^ 46

/-! ## The reference -/

/-- The pages of each address space, by virtual page number; none is shared. -/
abbrev Reference := PhysAddr → Nat → Option (Fin 512 → BitVec 64)

variable {va : BitVec 64} {attempts : Nat} {i : Fin 512} {byte : BitVec 8} {r : PhysAddr}

namespace Reference

def load (ref : Reference) (r : PhysAddr) (va : BitVec 64) : Option (BitVec 8) :=
  (ref r (vpn va)).map fun words => loadByte words va

def store (ref : Reference) (r : PhysAddr) (va : BitVec 64) (byte : BitVec 8) : Reference :=
  update ref r (update (ref r) (vpn va) ((ref r (vpn va)).map fun words => storeByte words va byte))

def fork (ref : Reference) (r p : PhysAddr) : Reference := update ref p (ref r)

def exit (ref : Reference) (r : PhysAddr) : Reference := update ref r fun _ => none

theorem load_store (ref : Reference) {r' : PhysAddr} {va' : BitVec 64} (byte : BitVec 8)
    (user : UserAddr va) (user' : UserAddr va') : (ref.store r va byte).load r' va' =
      if r' = r ∧ va' = va then (ref.load r va).map fun _ => byte else ref.load r' va' := by
  unfold UserAddr at user user'
  by_cases space : r' = r
  · subst space
    by_cases page : vpn va' = vpn va
    · have value := page
      simp only [vpn] at value
      rw [load, store, update_self, page, update_self]
      simp only [load, Option.map_map, Function.comp_def, loadByte_storeByte, true_and]
      have offset : va'.toNat % 4096 = va.toNat % 4096 ↔ va' = va := by
        rw [← BitVec.toNat_inj]
        omega
      split_ifs with same here here
      · rfl
      · exact absurd (offset.mp same) here
      · exact absurd (offset.mpr here) same
      · rw [page]
    · have other : va' ≠ va := fun same => page (by rw [same])
      rw [load, store, update_self, update_of_ne page, if_neg fun both => other both.2, load]
  · rw [load, store, update_of_ne space, if_neg fun both => space both.1, load]

end Reference

def contents (mem : PhysMem) (r : PhysAddr) (va : BitVec 64) : Option (Fin 512 → BitVec 64) :=
  if Present (pteValue mem r va) then some (mem (pteValue mem r va &&& pteAddrMask)) else none

def Reference.ofMemory (mem : PhysMem) : Reference :=
  fun r page => contents mem r (BitVec.ofNat 64 (page * 4096))

open Reference (ofMemory)

variable {g t : PhysAddr}

section
variable {kernel : Kernel} {s s' : State} {live : List PhysAddr} {ref : Reference}

/-- Every user entry leads to a page outside the kernel image that can be written, at
once or after a copy, and the pages are those of the reference. -/
structure Simulates (kernel : Kernel) (s : State) (live : List PhysAddr) (ref : Reference) : Prop where
  consistent : Consistent kernel s live
  writable : ∀ r path t i g, MapsAt live s.mem r path t i g →
    kernel.endPhys ≤ g ∧ (Writable (s.mem t i) ∨ Cow (s.mem t i))
  agrees : ∀ r ∈ live, ∀ va, UserAddr va → contents s.mem r va = ref r (vpn va)

theorem userAddr_p4 (user : UserAddr va) : (p4Index va).val < 128 := by
  unfold UserAddr at user
  rw [p4Index, tableIndex_val (by decide)]
  omega

/-- User addresses are not the upper half, for which the handler gives up. -/
theorem userAddr_positive (user : UserAddr va) : va &&& (1#64 <<< 63) = 0#64 := by
  unfold UserAddr at user
  have small : va.toNat < 2 ^ 63 := by omega
  have bit : (1#64 <<< 63).toNat = 2 ^ 63 := by decide
  apply BitVec.eq_of_toNat_eq
  rw [BitVec.toNat_and, bit, Nat.and_two_pow, Nat.testBit_lt_two_pow small]
  rfl

theorem vmmGetPte_aligned (mem : PhysMem) (r : PhysAddr) (va : BitVec 64) :
    vmmGetPte mem r (va &&& ~~~0xFFF#64) = vmmGetPte mem r va := by
  obtain ⟨i₁, i₂, i₃, i₄⟩ := index_aligned va
  simp only [vmmGetPte, i₁, i₂, i₃, i₄]

theorem mapsAt_address (root : r ∈ live) (user : UserAddr va) :
    (∃ t, MapsAt live s.mem r (tablePath va) t (p1Index va) g) ↔
      Present (pteValue s.mem r va) ∧ pteValue s.mem r va &&& pteAddrMask = g := by
  have dom := userDom_tablePath root (userAddr_p4 user)
  rw [pteValue_eq, entryAt, lookup]
  constructor
  · rintro ⟨t, maps⟩
    rw [show walk entryTable s.mem r (tablePath va) = some t from maps.table]
    exact ⟨maps.present, maps.page⟩
  · cases found : walk entryTable s.mem r (tablePath va) with
    | none =>
      intro absent
      exact absurd (show Present 0#64 from absent.1) (by decide)
    | some t =>
      rintro ⟨present, page⟩
      exact ⟨t, dom, by simp [tablePath], found, present, page⟩

theorem contents_eq_some {words : Fin 512 → BitVec 64} (root : r ∈ live) (user : UserAddr va) :
    contents s.mem r va = some words ↔
      ∃ t g, MapsAt live s.mem r (tablePath va) t (p1Index va) g ∧ s.mem g = words := by
  have found := fun g => mapsAt_address (s := s) (g := g) root user
  unfold contents
  constructor
  · intro some
    split at some
    case isTrue present =>
      obtain ⟨t, maps⟩ := (found _).mpr ⟨present, rfl⟩
      exact ⟨t, _, maps, Option.some.inj some⟩
    case isFalse => simp at some
  · rintro ⟨t, g, maps, rfl⟩
    obtain ⟨present, page⟩ := (found g).mp ⟨t, maps⟩
    rw [if_pos present, page]

theorem userLoad_eq (attempts : Nat) :
    (userLoad s r va (attempts + 1)).toOption = (contents s.mem r va).map fun words =>
    loadByte words va := by
  unfold userLoad contents
  split
  case isTrue present => rfl
  case isFalse absent =>
    -- a read fault is never handled
    have stopped : pageFaultHandler s r va false = .error (.panic "Page fault") := by
      unfold pageFaultHandler
      split <;> rfl
    rw [stopped]
    rfl

theorem Simulates.load (simulates : Simulates kernel s live ref) (root : r ∈ live)
    (user : UserAddr va) : (userLoad s r va (attempts + 1)).toOption = ref.load r va := by
  rw [userLoad_eq, simulates.agrees r root va user, Reference.load]

/-! ## Forks and exits -/

section
variable {r p : PhysAddr}

theorem Simulates.fork (simulates : Simulates kernel s live ref) (root : r ∈ live)
    (forked : Forked kernel s live r p s') : Simulates kernel s' (p :: live) (ref.fork r p) := by
  have consistent := simulates.consistent
  -- pages that are mapped are not tables, so their contents stay
  have page : ∀ {r' path t i g}, MapsAt live s.mem r' path t i g → s'.mem g = s.mem g := by
    intro r' path t i g maps
    obtain ⟨inUse, notTable⟩ := consistent.pages _ _ _ _ _ maps (simulates.writable _ _ _ _ _ maps).1
    exact forked.frame g (.inl inUse) fun path dom _ => notTable r path dom
  refine ⟨forked.keeps_consistent consistent root, ?_, ?_⟩
  · intro r' path t i g maps
    rcases forked.maps_cases root maps with ⟨-, old, entry⟩ | ⟨-, t₀, old, entry⟩
    · refine ⟨(simulates.writable _ _ _ _ _ old).1, ?_⟩
      rw [entry]
      split
      · exact .inr (markCow_cow _)
      · exact (simulates.writable _ _ _ _ _ old).2
    · exact ⟨(simulates.writable _ _ _ _ _ old).1, .inr (entry.symm ▸ markCow_cow _)⟩
  · intro r' root' va user
    rcases List.mem_cons.mp root' with rfl | old
    · rw [Reference.fork, update_self, ← simulates.agrees r root va user]
      refine Option.ext fun words => ?_
      rw [contents_eq_some root' user, contents_eq_some root user]
      constructor
      · rintro ⟨t, g, maps, rfl⟩
        rcases forked.maps_cases root maps with ⟨member, -⟩ | ⟨-, t₀, before, -⟩
        · exact absurd member (forked.new_root consistent)
        · exact ⟨t₀, g, before, (page before).symm⟩
      · rintro ⟨t, g, maps, rfl⟩
        obtain ⟨b, copy, -⟩ := forked.maps_new maps
        exact ⟨b, g, copy, page maps⟩
    · have other : r' ≠ p := fun same => forked.new_root consistent (same ▸ old)
      rw [Reference.fork, update_of_ne other, ← simulates.agrees r' old va user]
      refine Option.ext fun words => ?_
      rw [contents_eq_some root' user, contents_eq_some old user]
      constructor
      · rintro ⟨t, g, maps, rfl⟩
        rcases forked.maps_cases root maps with ⟨-, before, -⟩ | ⟨same, -⟩
        · exact ⟨t, g, before, (page before).symm⟩
        · exact absurd same other
      · rintro ⟨t, g, maps, rfl⟩
        exact ⟨t, g, forked.maps_old maps, page maps⟩

theorem Simulates.exit (simulates : Simulates kernel s live ref)
    (exited : Exited kernel s live r s') : Simulates kernel s' (live.erase r) (ref.exit r) := by
  have consistent := simulates.consistent
  refine ⟨exited.keeps_consistent consistent, ?_, ?_⟩
  · intro r' path t i g maps
    obtain ⟨before, -, same⟩ := exited.maps_before consistent maps
    rw [same]
    exact simulates.writable _ _ _ _ _ before
  · intro r' root' va user
    have other : r' ≠ r := fun same => consistent.distinct.not_mem_erase (same ▸ root')
    have old := List.mem_of_mem_erase root'
    have page : ∀ {path t i g}, MapsAt live s.mem r' path t i g → s'.mem g = s.mem g := by
      intro path t i g maps
      have high := (simulates.writable _ _ _ _ _ maps).1
      refine exited.frame g ?_
      rw [exited.page_kept consistent other maps high, (consistent.pages _ _ _ _ _ maps high).1]
    rw [Reference.exit, update_of_ne other, ← simulates.agrees r' old va user]
    refine Option.ext fun words => ?_
    rw [contents_eq_some root' user, contents_eq_some old user]
    constructor
    · rintro ⟨t, g, maps, rfl⟩
      have before := (exited.maps_before consistent maps).1
      exact ⟨t, g, before, (page before).symm⟩
    · rintro ⟨t, g, maps, rfl⟩
      exact ⟨t, g, exited.maps_after consistent other maps, page maps⟩

end

/-! ## Writes -/

section
variable {r : PhysAddr}

section

variable (simulates : Simulates kernel s live ref)
include simulates

theorem Simulates.unshare {path : List (Fin 512)} (dom : UserDom live r path)
    (leaf : path.length = 3) (found : tableAt s.mem r path = some t) (cow : Cow (s.mem t i))
    (unshared : Unshared kernel s t i g s') : Simulates kernel s' live ref := by
  have consistent := simulates.consistent
  have present := (consistent.marked r path t i dom leaf found cow).1
  have self : MapsAt live s.mem r path t i (s.mem t i &&& pteAddrMask) := ⟨dom, leaf, found, present, rfl⟩
  have high := (simulates.writable _ _ _ _ _ self).1
  -- a mapped page is neither a table nor the fresh copy
  have page : ∀ {r' path' t' j x}, MapsAt live s.mem r' path' t' j x → s'.mem x = s.mem x := by
    intro r' path' t' j x maps
    obtain ⟨inUse, notTable⟩ := consistent.pages _ _ _ _ _ maps (simulates.writable _ _ _ _ _ maps).1
    funext k
    refine unshared.frame x k (fun here => notTable r path dom (here.1 ▸ found)) ?_
    rintro rfl
    rcases unshared.origin with ⟨same, -⟩ | ⟨-, free, -⟩
    · exact same
    · simp [inUse] at free
  have content : s'.mem g = s.mem (s.mem t i &&& pteAddrMask) := by
    rcases unshared.origin with ⟨rfl, -⟩ | ⟨-, -, -, copied⟩
    · exact page self
    · exact copied
  have after : MapsAt live s'.mem r path t i g :=
    ⟨dom, leaf, (unshared.walk consistent dom leaf found dom).trans found,
      unshared.present.mpr present, unshared.page⟩
  refine ⟨unshared.keeps_consistent consistent dom leaf found cow, ?_, ?_⟩
  · intro r' path' t' j x maps
    rcases unshared.maps_cases consistent dom leaf found maps with ⟨rfl, rfl, rfl, rfl, rfl⟩ | ⟨-,
      before, entry⟩
    · refine ⟨?_, .inl unshared.writable⟩
      rcases unshared.origin with ⟨rfl, -⟩ | ⟨allocatable, -⟩
      · exact high
      · exact allocatable.above
    · rw [entry]
      exact simulates.writable _ _ _ _ _ before
  · intro r' root' va user
    rw [← simulates.agrees r' root' va user]
    refine Option.ext fun words => ?_
    rw [contents_eq_some root' user, contents_eq_some root' user]
    constructor
    · rintro ⟨t', x, maps, rfl⟩
      rcases unshared.maps_cases consistent dom leaf found maps with ⟨rfl, same, rfl, index,
        rfl⟩ | ⟨-, before, -⟩
      · subst same index
        exact ⟨t', _, self, content.symm⟩
      · exact ⟨t', x, before, (page before).symm⟩
    · rintro ⟨t', x, maps, rfl⟩
      by_cases here : t' = t ∧ p1Index va = i
      · obtain ⟨rfl, index⟩ := here
        obtain ⟨rfl, rfl⟩ := consistent.separate r' _ r path t' maps.dom dom maps.table found
        subst index
        exact ⟨t', g, after, by rw [content, maps.page]⟩
      · exact ⟨t', x, (unshared.maps_old consistent dom leaf found maps here).1, page maps⟩

theorem Simulates.write (root : r ∈ live) (user : UserAddr va)
    (present : Present (pteValue s.mem r va)) (writable : Writable (pteValue s.mem r va)) :
    Simulates kernel (s.setPage (pteValue s.mem r va &&& pteAddrMask)
      (storeByte (s.mem (pteValue s.mem r va &&& pteAddrMask)) va byte)) live (ref.store r va byte) := by
  have consistent := simulates.consistent
  obtain ⟨t, self⟩ := (mapsAt_address root user).mpr ⟨present, rfl⟩
  have entry : pteValue s.mem r va = s.mem t (p1Index va) := by
    rw [pteValue_eq, entryAt, lookup, show walk entryTable s.mem r (tablePath va) = some t from self.table]
  have high := (simulates.writable _ _ _ _ _ self).1
  obtain ⟨-, notTable⟩ := consistent.pages _ _ _ _ _ self high
  have owned : ¬ Cow (s.mem t (p1Index va)) := fun cow =>
    (consistent.marked r _ t _ self.dom self.leaf self.table cow).2 (entry ▸ writable)
  generalize pteValue s.mem r va &&& pteAddrMask = g at self high notTable ⊢
  have agree : ∀ r path a, UserDom live r path → tableAt s.mem r path = some a →
      (s.setPage g (storeByte (s.mem g) va byte)).mem a = s.mem a := by
    intro r' path a dom found
    have other : a ≠ g := fun same => notTable r' path dom (same ▸ found)
    simp [other]
  have kernelOther : kernel.p4 ≠ g := by
    rintro rfl
    exact absurd consistent.kernelLow (BitVec.not_lt.mpr high)
  refine ⟨consistent.frame agree (by simp [kernelOther]) (fun _ => id) rfl, ?_, ?_⟩
  · intro r' path t' i x maps
    have before := (mapsAt_agree agree).mp maps
    rw [agree r' path t' maps.dom before.table]
    exact simulates.writable _ _ _ _ _ before
  · intro r' root' va' user'
    -- only the slot written through maps the page
    have only : ∀ {t'}, MapsAt live s.mem r' (tablePath va') t' (p1Index va') g → r' = r ∧
        vpn va' = vpn va := by
      intro t' maps
      have space := consistent.exclusive _ _ _ _ _ _ _ _ g self maps high owned
      obtain ⟨path, index⟩ := consistent.same _ _ _ _ _ _ _ _ g maps self high
      simp only [tablePath, List.cons.injEq, and_true] at path
      exact ⟨space.symm, (vpn_eq_iff va' va).mpr ⟨path.1, path.2.1, path.2.2, index⟩⟩
    by_cases here : r' = r ∧ vpn va' = vpn va
    · obtain ⟨rfl, same⟩ := here
      obtain ⟨i₁, i₂, i₃, i₄⟩ := (vpn_eq_iff va' va).mp same
      have maps : MapsAt live s.mem r' (tablePath va') t (p1Index va') g := by
        rwa [tablePath, i₁, i₂, i₃, i₄]
      have before : contents s.mem r' va' = some (s.mem g) :=
        (contents_eq_some root' user').mpr ⟨t, g, maps, rfl⟩
      rw [Reference.store, update_self, same, update_self, ← same,
        ← simulates.agrees r' root' va' user', before]
      refine (contents_eq_some root' user').mpr ⟨t, g, (mapsAt_agree agree).mpr maps, ?_⟩
      simp
    · have unchanged : ref.store r va byte r' (vpn va') = ref r' (vpn va') := by
        by_cases space : r' = r
        · subst space
          have other : vpn va' ≠ vpn va := fun same => here ⟨rfl, same⟩
          rw [Reference.store, update_self, update_of_ne other]
        · rw [Reference.store, update_of_ne space]
      rw [unchanged, ← simulates.agrees r' root' va' user']
      have page : ∀ {t' x}, MapsAt live s.mem r' (tablePath va') t' (p1Index va') x →
          (s.setPage g (storeByte (s.mem g) va byte)).mem x = s.mem x := by
        intro t' x maps
        have other : x ≠ g := by
          rintro rfl
          exact here (only maps)
        simp [other]
      refine Option.ext fun words => ?_
      rw [contents_eq_some root' user', contents_eq_some root' user']
      constructor
      · rintro ⟨t', x, maps, rfl⟩
        have before := (mapsAt_agree agree).mp maps
        exact ⟨t', x, before, (page before).symm⟩
      · rintro ⟨t', x, maps, rfl⟩
        exact ⟨t', x, (mapsAt_agree agree).mpr maps, page maps⟩

theorem Simulates.handled {s₁ : State} (supply : FreeSupply kernel s) (root : r ∈ live)
    (user : UserAddr va) (ran : pageFaultHandler s r va true = .ok s₁) :
    Simulates kernel s₁ live ref ∧ Present (pteValue s₁.mem r va) ∧ Writable (pteValue s₁.mem r va) := by
  have low := userAddr_p4 user
  have consistent := simulates.consistent
  unfold pageFaultHandler at ran
  split at ran
  case isTrue => simp at ran
  case isFalse =>
    rw [vmmGetPte_aligned] at ran
    obtain ⟨⟨done, s₂⟩, handled, ran⟩ := bind_eq_ok.mp ran
    rcases consistent.write_cases supply root low handled with ⟨rfl, -⟩ | ⟨rfl, t, g, found, cow, unshared⟩
    · simp at ran
    · cases ran
      have dom := userDom_tablePath root low
      have leaf : (tablePath va).length = 3 := by simp [tablePath]
      have present := (consistent.marked r _ t _ dom leaf found cow).1
      have entry : pteValue s₁.mem r va = s₁.mem t (p1Index va) := by
        rw [pteValue_eq, entryAt, lookup,
          show walk entryTable s₁.mem r (tablePath va) = some t from
            (unshared.walk consistent dom leaf found dom).trans found]
      rw [entry]
      exact ⟨simulates.unshare dom leaf found cow unshared, unshared.present.mpr present, unshared.writable⟩

theorem Simulates.store (supply : FreeSupply kernel s) (root : r ∈ live) (user : UserAddr va)
    (ran : userStore s r va byte attempts = .ok s') : Simulates kernel s' live (ref.store r va byte) := by
  have direct : ∀ {s₁ attempts}, Simulates kernel s₁ live ref → Present (pteValue s₁.mem r va) ∧
      Writable (pteValue s₁.mem r va) → userStore s₁ r va byte attempts = .ok s' →
      Simulates kernel s' live (ref.store r va byte) := by
    intro s₁ attempts simulates allowed ran
    cases attempts with
    | zero => simp [userStore] at ran
    | succ n =>
      rw [userStore, if_pos allowed, Except.ok.injEq] at ran
      subst ran
      exact simulates.write root user allowed.1 allowed.2
  cases attempts with
  | zero => simp [userStore] at ran
  | succ n =>
    by_cases allowed : Present (pteValue s.mem r va) ∧ Writable (pteValue s.mem r va)
    · exact direct simulates allowed ran
    · rw [userStore, if_neg allowed] at ran
      obtain ⟨s₁, handled, ran⟩ := bind_eq_ok.mp ran
      obtain ⟨after, allowed'⟩ := simulates.handled supply root user handled
      exact direct after allowed' ran

end

theorem cowHandleWrite_returns (cow : Cow (s.mem t i)) (nonzero : s.mem t i &&& pteAddrMask ≠ 0#64)
    (enough : s.supply ≠ []) : ∃ s₁, cowHandleWrite s (some (t, i)) = .ok (true, s₁) := by
  obtain ⟨p, rest, supply⟩ := List.exists_cons_of_ne_nil enough
  simp only [cowHandleWrite, if_neg cow, krefDecRead, if_neg nonzero, bind, Except.bind]
  by_cases more : s.refcount (s.mem t i &&& pteAddrMask) - 1#32 > 0#32
  · simp [more, cowReplacePage, pmmAllocPage, State.takePage, supply, bind, Except.bind, pure, Except.pure]
  · simp [more, pure, Except.pure]

/-- A store to a mapped page is never refused while the allocator has a page left. -/
theorem Simulates.store_returns (byte : BitVec 8) (simulates : Simulates kernel s live ref)
    (supply : FreeSupply kernel s) (enough : s.supply ≠ []) (root : r ∈ live) (user : UserAddr va)
    (mapped : (ref.load r va).isSome) : ∃ s', userStore s r va byte 2 = .ok s' := by
  have present : Present (pteValue s.mem r va) := by
    rw [Reference.load, Option.isSome_map, ← simulates.agrees r root va user, contents] at mapped
    by_contra absent
    simp [absent] at mapped
  by_cases writable : Writable (pteValue s.mem r va)
  · exact ⟨_, by rw [userStore, if_pos ⟨present, writable⟩]⟩
  · obtain ⟨t, maps⟩ := (mapsAt_address root user).mpr ⟨present, rfl⟩
    have pte : vmmGetPte s.mem r va = some (t, p1Index va) := by
      rw [vmmGetPte_eq, maps.table]
      rfl
    have entry : pteValue s.mem r va = s.mem t (p1Index va) := by rw [pteValue, pte]
    obtain ⟨high, allowed⟩ := simulates.writable _ _ _ _ _ maps
    rw [entry] at writable high
    have cow := allowed.resolve_left writable
    obtain ⟨s₁, handled⟩ := cowHandleWrite_returns cow (simulates.consistent.nonzero high) enough
    have answered : pageFaultHandler s r va true = .ok s₁ := by
      rw [pageFaultHandler, if_neg (not_not.mpr (userAddr_positive user)), vmmGetPte_aligned, pte, handled]
      rfl
    obtain ⟨-, allowed'⟩ := simulates.handled supply root user answered
    obtain ⟨s', second⟩ : ∃ s', userStore s₁ r va byte 1 = .ok s' := ⟨_, by rw [userStore, if_pos allowed']⟩
    refine ⟨s', ?_⟩
    rwa [userStore, if_neg fun both => writable (entry ▸ both.2), answered]

end

end

/-! ## Runs -/

/-- A load, or a store that the reference makes too. -/
inductive Access (r : PhysAddr) (s : State) (ref : Reference) : State → Reference → Prop where
  | load {va : BitVec 64} {byte : BitVec 8} {attempts : Nat} : UserAddr va →
      userLoad s r va attempts = .ok byte → Access r s ref s ref
  | store {va : BitVec 64} {byte : BitVec 8} {attempts : Nat} {s' : State} : UserAddr va →
      userStore s r va byte attempts = .ok s' → Access r s ref s' (ref.store r va byte)

/-- Forks, loads, stores and exits, in the kernel and in the reference. -/
abbrev MemoryStep (kernel : Kernel) := LifeStep kernel Reference.fork Reference.exit Access

variable {kernel : Kernel} {s s₀ : State} {live live₀ : List PhysAddr} {ref : Reference}

theorem Simulates.resupply (simulates : Simulates kernel s live ref) (supply : List PhysAddr) :
    Simulates kernel { s with supply := supply } live ref :=
  ⟨simulates.consistent.resupply supply, simulates.writable, simulates.agrees⟩

theorem memoryStep_simulates {first last : State × List PhysAddr × Reference}
    (step : MemoryStep kernel first last)
    (simulates : Simulates kernel first.1 first.2.1 first.2.2) :
    Simulates kernel last.1 last.2.1 last.2.2 := by
  cases step with
  | @clone _ _ _ pages _ _ _ root supply ran =>
    have before := simulates.resupply pages
    exact before.fork root (mmuCloneCow_forked before.consistent.toTrees supply root ran)
  | @access _ _ _ pages _ _ _ root supply access =>
    cases access with
    | load => exact simulates.resupply pages
    | store user ran => exact (simulates.resupply pages).store supply root user ran
  | reap root ran =>
    obtain ⟨s', ran', exited⟩ := mmuReap_exited simulates.consistent.toTrees root
    obtain rfl := Except.ok.inj (ran.symm.trans ran')
    exact simulates.exit exited

theorem contents_ofMemory (mem : PhysMem) (r : PhysAddr) (va : BitVec 64) :
    contents mem r va = ofMemory mem r (vpn va) := by
  have same : vpn va = vpn (BitVec.ofNat 64 (vpn va * 4096)) := by
    simp only [vpn, BitVec.toNat_ofNat]
    omega
  obtain ⟨i₁, i₂, i₃, i₄⟩ := (vpn_eq_iff _ _).mp same
  unfold ofMemory contents
  rw [pteValue_eq, pteValue_eq, tablePath, tablePath, ← i₁, ← i₂, ← i₃, ← i₄]

/-- Forking by copy on write cannot be told from forking by copying: from address
spaces with writable pages of their own, after any run, every load gives the byte
that the reference has, or faults where the reference has none; a store to a
mapped page is refused only for want of memory, and changes no other byte of this
or another address space; and an exit succeeds. -/
theorem fork_refines_eager_copy (unforked : Unforked kernel s₀ live₀)
    (writable : ∀ r path t i g, MapsAt live₀ s₀.mem r path t i g → kernel.endPhys ≤ g ∧
      Writable (s₀.mem t i))
    (run : Reaches (MemoryStep kernel) (s₀, live₀, ofMemory s₀.mem) (s, live, ref)) :
    ∀ r ∈ live, (∃ s', mmuReap kernel s r = .ok s') ∧ ∀ va, UserAddr va →
      (∀ attempts, (userLoad s r va (attempts + 1)).toOption = ref.load r va) ∧
      (∀ byte supply, FreeSupply kernel { s with supply := supply } → supply ≠ [] → (ref.load r va).isSome →
        ∃ s', userStore { s with supply := supply } r va byte 2 = .ok s') ∧
      (∀ byte supply attempts s', FreeSupply kernel { s with supply := supply } →
        userStore { s with supply := supply } r va byte attempts = .ok s' →
          ∀ r' ∈ live, ∀ va', UserAddr va' →
        (r' ≠ r ∨ va' ≠ va) → (userLoad s' r' va' 1).toOption = (userLoad s r' va' 1).toOption) := by
  have simulates : Simulates kernel s live ref := by
    refine run.invariant (fun state => Simulates kernel state.1 state.2.1 state.2.2) ?_
      fun _ _ _ step holds => memoryStep_simulates step holds
    refine ⟨unforked.consistent, fun r path t i g maps => ?_, fun r _ va _ => contents_ofMemory _ r va⟩
    exact ⟨(writable r path t i g maps).1, .inl (writable r path t i g maps).2⟩
  intro r root
  obtain ⟨s', ran, -⟩ := mmuReap_exited simulates.consistent.toTrees root
  refine ⟨⟨s', ran⟩, fun va user => ⟨fun attempts => simulates.load root user, ?_, ?_⟩⟩
  · exact fun byte supply free enough mapped =>
      (simulates.resupply supply).store_returns byte free enough root user mapped
  · intro byte supply attempts s₁ free stored r' root' va' user' other
    have after := (simulates.resupply supply).store free root user stored
    rw [after.load root' user', simulates.load root' user',
      Reference.load_store ref byte user user', if_neg]
    exact fun both => other.elim (fun space => space both.1) fun address => address both.2

def firstStore : Except Fault (PhysAddr × State × State) := do
  let (p, forked) ← mmuCloneCow firstKernel firstState firstRoot
  let stored ← userStore { forked with supply := [0x309000#64] } p 0#64 7#8 2
  return (p, forked, stored)

/-- The parent does not see the byte. -/
theorem fork_refines_eager_copy_first_store : ∃ s p ref,
    Reaches (MemoryStep firstKernel) (firstState, [firstRoot], ofMemory firstState.mem)
      (s, [p, firstRoot], ref) ∧ (userLoad s p 0#64 1).toOption = some 7#8 ∧ ref.load p 0#64 = some 7#8 ∧
      (userLoad s firstRoot 0#64 1).toOption = some 0#8 ∧ ref.load firstRoot 0#64 = some 0#8 := by
  have values : firstStore.toOption.map (fun (p, forked, stored) => (forked.inUse 0x309000#64,
      (userLoad stored p 0#64 1).toOption, (userLoad stored firstRoot 0#64 1).toOption)) =
        some (false, some 7#8, some 0#8) := by decide +kernel
  obtain ⟨⟨p, forked, stored⟩, ran, values⟩ := toOption_map_eq_some.mp values
  simp only [Prod.mk.injEq] at values
  obtain ⟨free, child, parent⟩ := values
  unfold firstStore at ran
  obtain ⟨⟨p', forked'⟩, cloned, ran⟩ := bind_eq_ok.mp ran
  obtain ⟨stored', written, ran⟩ := bind_eq_ok.mp ran
  cases ran
  have zero : UserAddr 0#64 := by unfold UserAddr; decide
  have run : Reaches (MemoryStep firstKernel) (firstState, [firstRoot], ofMemory firstState.mem)
      (stored, [p, firstRoot], ((ofMemory firstState.mem).fork firstRoot p).store p 0#64 7#8) :=
    .tail (.single (.clone (by simp) firstState_supply cloned))
      (.access (by simp) (freeSupply_single (by decide) free) (.store zero written))
  have writable : ∀ r path t i g, MapsAt [firstRoot] firstState.mem r path t i g →
      firstKernel.endPhys ≤ g ∧ Writable (firstState.mem t i) := by
    intro r path t i g maps
    obtain ⟨-, -, rfl, rfl, rfl⟩ := onePage_maps maps
    exact ⟨by decide, by decide⟩
  have agree := fork_refines_eager_copy firstState_unforked writable run
  refine ⟨stored, p, _, run, ?_, ?_, ?_, ?_⟩
  · exact child
  · rw [← ((agree p (by simp)).2 0#64 zero).1 0]
    exact child
  · exact parent
  · rw [← ((agree firstRoot (by simp)).2 0#64 zero).1 0]
    exact parent

end ByteOS.Mm
