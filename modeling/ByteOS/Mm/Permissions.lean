import ByteOS.Mm.LowerHalf

/-! Whether copying on write keeps read-only pages read-only.

`cow_copy_pte` marks every present page, and `cow_handle_write` takes the mark for
the permission to write. A page that was read-only before the fork becomes writable
with the first write to it afterwards; one that is not written to stays as it is.
-/

set_option autoImplicit false

namespace ByteOS.Mm

open ByteOS.Lib

variable {kernel : Kernel} {s s' : State} {live : List PhysAddr} {r p : PhysAddr} {va : BitVec 64}

/-- Mapped without permission to write, and not because of a fork. -/
def ReadOnly (entry : Pte) : Prop := Present entry ∧ ¬ Writable entry ∧ ¬ Cow entry

/-- Forks, write faults and exits, with the address space that each one descends from. A
marked page is written to only if that is allowed in the one its own descends from. -/
abbrev FamilyStep (kernel : Kernel) (allowed : PhysAddr → BitVec 64 → Prop) :=
  LifeStep kernel (fun origin r p => Function.update origin p (origin r)) (fun origin _ => origin)
    fun r s origin s' origin' => ∃ va, (Cow (pteValue s.mem r va) → allowed (origin r) va) ∧
      WriteFault r va s s' ∧ origin' = origin

variable {allowed : PhysAddr → BitVec 64 → Prop}
  {first last : State × List PhysAddr × (PhysAddr → PhysAddr)} {r' : PhysAddr} {va' : BitVec 64}

theorem FamilyStep.cowStep (step : FamilyStep kernel allowed first last) :
    CowStep kernel (first.1, first.2.1) (last.1, last.2.1) := by
  cases step with
  | clone root supply ran => exact LifeStep.clone root supply ran
  | access root supply fault =>
    obtain ⟨va, -, fault, -⟩ := fault
    exact LifeStep.access root supply ⟨va, fault⟩
  | reap root ran => exact LifeStep.reap root ran

/-! ## Entries after a step -/

theorem Unshared.pte {t g : PhysAddr} (unshared : Unshared kernel s t (p1Index va) g s')
    (consistent : Consistent kernel s live) (root : r ∈ live) (user : (p4Index va).val < 128)
    (found : tableAt s.mem r (tablePath va) = some t) (root' : r' ∈ live)
    (user' : (p4Index va').val < 128) :
    (r' = r ∧ tablePath va' = tablePath va ∧ p1Index va' = p1Index va) ∨
      pteValue s'.mem r' va' = pteValue s.mem r' va' := by
  have dom := userDom_tablePath root user
  have dom' := userDom_tablePath root' user'
  have walk := unshared.walk consistent dom (tablePath_leaf va) found dom'
  cases found' : tableAt s.mem r' (tablePath va') with
  | none =>
    rw [pteValue_of_none found', pteValue_of_none (walk.trans found')]
    exact .inr rfl
  | some t' =>
    rw [pteValue_of_table found', pteValue_of_table (walk.trans found')]
    by_cases here : t' = t ∧ p1Index va' = p1Index va
    · obtain ⟨rfl, index⟩ := here
      obtain ⟨space, path⟩ := consistent.separate _ _ _ _ _ dom' dom found' found
      exact .inl ⟨space, path, index⟩
    · exact .inr (unshared.table_frame consistent dom' found' here)

theorem Consistent.pte_marked (consistent : Consistent kernel s live) (root : r ∈ live)
    (user : (p4Index va).val < 128) (cow : Cow (pteValue s.mem r va)) :
    Present (pteValue s.mem r va) ∧ ¬ Writable (pteValue s.mem r va) := by
  obtain ⟨t, found, entry⟩ := table_of_entryAt (pteValue_eq s.mem r va).symm (nonzero_of_cow cow)
  rw [← entry] at cow ⊢
  exact consistent.marked r _ t _ (userDom_tablePath root user) (tablePath_leaf va) found cow

theorem pteValue_congr (mem : PhysMem) (r : PhysAddr) (path : tablePath va' = tablePath va)
    (index : p1Index va' = p1Index va) : pteValue mem r va' = pteValue mem r va := by
  rw [pteValue_eq, pteValue_eq, path, index]

theorem Forked.pte_weaker (forked : Forked kernel s live r p s')
    (consistent : Consistent kernel s live) (root : r ∈ live) (root' : r' ∈ p :: live)
    (user : (p4Index va).val < 128) : let parent := if r' = p then r else r'
    (Present (pteValue s'.mem r' va) → Present (pteValue s.mem parent va)) ∧
      (Writable (pteValue s'.mem r' va) → Writable (pteValue s.mem parent va)) := by
  have locked : ¬ Writable (markCow (pteValue s.mem r va)) :=
    markCow_writable fun cow => (consistent.pte_marked root user cow).2
  by_cases new : r' = p
  · subst new
    rw [forked.pte_new root user, if_pos rfl]
    split
    case isTrue present => exact ⟨fun _ => present, fun write => absurd write locked⟩
    case isFalse => exact ⟨fun present => absurd present (by decide), fun write => absurd write (by decide)⟩
  · rw [forked.pte_old ((List.mem_cons.mp root').resolve_left new) user, if_neg new]
    split
    case isTrue marked =>
      -- the source itself loses the permission, too
      obtain ⟨rfl, present⟩ := marked
      exact ⟨fun _ => present, fun write => absurd write locked⟩
    case isFalse => exact ⟨id, id⟩

/-- What a step gives to an address space, compared with the one whose entries it
has: itself, or the source of the fork. -/
theorem familyStep_entries (step : FamilyStep kernel allowed first last)
    (consistent : Consistent kernel first.1 first.2.1) (root' : r' ∈ last.2.1) :
    ∃ q ∈ first.2.1, last.2.2 r' = first.2.2 q ∧ ∀ va', (p4Index va').val < 128 →
      (Present (pteValue last.1.mem r' va') → Present (pteValue first.1.mem q va')) ∧
      (Writable (pteValue last.1.mem r' va') → Writable (pteValue first.1.mem q va') ∨
        Present (pteValue first.1.mem q va') ∧
          ∃ va, tablePath va' = tablePath va ∧ p1Index va' = p1Index va ∧ allowed (first.2.2 q) va) := by
  cases step with
  | @clone s s' live pages origin r p root supply ran =>
    have before := consistent.resupply pages
    have forked := mmuCloneCow_forked before.toTrees supply root ran
    have weaker := fun (va : BitVec 64) (user : (p4Index va).val < 128) =>
      forked.pte_weaker before root root' user
    refine ⟨if r' = p then r else r', ?_, ?_, fun va user => ?_⟩
    · split
      case isTrue => exact root
      case isFalse other => exact (List.mem_cons.mp root').resolve_left other
    · by_cases new : r' = p
      · simp [new]
      · simp [new]
    · exact ⟨(weaker va user).1, fun write => .inl ((weaker va user).2 write)⟩
  | @access s s' live pages origin _ r root supply fault =>
    obtain ⟨va, permission, ⟨user, done, ran⟩, rfl⟩ := fault
    have before := consistent.resupply pages
    refine ⟨r', root', rfl, fun va' user' => ?_⟩
    rcases before.write_cases supply root user ran with ⟨-, rfl, -⟩ | ⟨-, t, g, table, cow, unshared⟩
    · exact ⟨id, .inl⟩
    · have entry : pteValue s.mem r va = s.mem t (p1Index va) := pteValue_of_table table
      rcases unshared.pte before root user table root' user' with ⟨rfl, path, index⟩ | same
      · -- the only entry that any step makes writable; it was marked, so the guard applies
        rw [← entry] at cow
        have present : Present (pteValue s.mem r' va') := by
          rw [pteValue_congr s.mem r' path index]
          exact (consistent.pte_marked root user cow).1
        exact ⟨fun _ => present, fun _ => .inr ⟨present, va, path, index, permission cow⟩⟩
      · dsimp only at same ⊢
        rw [same]
        exact ⟨id, .inl⟩
  | @reap s s' live origin r root ran =>
    obtain ⟨s'', ran', exited⟩ := mmuReap_exited consistent.toTrees root
    obtain rfl := Except.ok.inj (ran.symm.trans ran')
    refine ⟨r', List.mem_of_mem_erase root', rfl, fun va' user' => ?_⟩
    dsimp only at root' ⊢
    rw [exited.pte consistent root' user']
    exact ⟨id, .inl⟩

/-! ## Runs -/

/-- The family maps what its origins map, and keeps their read-only pages so. -/
structure Permitted (kernel : Kernel) (mem₀ : PhysMem) (s : State) (live : List PhysAddr)
    (origin : PhysAddr → PhysAddr) : Prop where
  consistent : Consistent kernel s live
  present : ∀ r ∈ live, ∀ va, (p4Index va).val < 128 → Present (pteValue s.mem r va) →
    Present (pteValue mem₀ (origin r) va)
  readOnly : ∀ r ∈ live, ∀ va, (p4Index va).val < 128 → ReadOnly (pteValue mem₀ (origin r) va) →
    ¬ Writable (pteValue s.mem r va)

theorem Permitted.start {s₀ : State} (consistent : Consistent kernel s₀ live) :
    Permitted kernel s₀.mem s₀ live id :=
  ⟨consistent, fun _ _ _ _ => id, fun _ _ _ _ fixed => fixed.2.1⟩

theorem familyStep_permitted {mem₀ : PhysMem}
    (step : FamilyStep kernel (fun r va => ¬ ReadOnly (pteValue mem₀ r va)) first last)
    (permitted : Permitted kernel mem₀ first.1 first.2.1 first.2.2) :
    Permitted kernel mem₀ last.1 last.2.1 last.2.2 := by
  refine ⟨cowStep_consistent (FamilyStep.cowStep step) permitted.consistent,
    fun r root va user now => ?_, fun r root va user fixed now => ?_⟩
  · obtain ⟨q, before, same, entries⟩ := familyStep_entries step permitted.consistent root
    rw [same]
    exact permitted.present q before va user ((entries va user).1 now)
  · obtain ⟨q, before, same, entries⟩ := familyStep_entries step permitted.consistent root
    rw [same] at fixed
    rcases (entries va user).2 now with already | ⟨-, va', path, index, allowed⟩
    · exact permitted.readOnly q before va user fixed already
    · rw [pteValue_congr mem₀ _ path index] at fixed
      exact allowed fixed

/-- As long as no marked page is written to that was read-only in the beginning,
such a page is writable in no descendant. The next write fault keeps it so, and is
resolved only on a page that was writable in the beginning, exactly if it is not
one of these either. -/
theorem cow_keeps_permissions {s₀ : State} {live₀ : List PhysAddr} {origin : PhysAddr → PhysAddr}
    (consistent : Consistent kernel s₀ live₀)
    (run : Reaches (FamilyStep kernel fun r va => ¬ ReadOnly (pteValue s₀.mem r va)) (s₀, live₀, id)
      (s, live, origin))
    (root : r ∈ live) (user : (p4Index va).val < 128) (unforked : ¬ Cow (pteValue s₀.mem (origin r) va)) :
    (ReadOnly (pteValue s₀.mem (origin r) va) → ¬ Writable (pteValue s.mem r va)) ∧
    ∀ supply done s', FreeSupply kernel { s with supply := supply } →
      cowHandleWrite { s with supply := supply } (vmmGetPte s.mem r va) = .ok (done, s') →
      ((done = true → Writable (pteValue s₀.mem (origin r) va)) ∧
          (ReadOnly (pteValue s₀.mem (origin r) va) → ¬ Writable (pteValue s'.mem r va)) ↔
        (Cow (pteValue s.mem r va) → ¬ ReadOnly (pteValue s₀.mem (origin r) va))) := by
  have permitted : Permitted kernel s₀.mem s live origin :=
    run.invariant (fun family => Permitted kernel s₀.mem family.1 family.2.1 family.2.2)
      (.start consistent) fun _ _ _ step holds => familyStep_permitted step holds
  have kept := permitted.readOnly r root va user
  refine ⟨kept, fun supply done s' free ran => ?_⟩
  have before := permitted.consistent.resupply supply
  rcases before.write_cases free root user ran with ⟨rfl, rfl, owned⟩ | ⟨rfl, t, g, table, cow, unshared⟩
  · -- nothing happens to a page that is not marked
    exact ⟨fun _ cow => absurd cow owned,
      fun _ => ⟨fun resolved => absurd resolved Bool.false_ne_true, kept⟩⟩
  · rw [← pteValue_of_table table] at cow
    have present := permitted.present r root va user (permitted.consistent.pte_marked root user cow).1
    constructor
    · rintro ⟨writable, -⟩ _ ⟨-, readOnly, -⟩
      exact readOnly (writable rfl)
    · intro allowed
      refine ⟨fun _ => ?_, fun fixed => absurd fixed (allowed cow)⟩
      by_contra readOnly
      exact allowed cow ⟨present, readOnly, unforked⟩

/-! A program whose code is a page of the kernel image, as `task_execve` maps it. -/

def codeState : State := sharedSlot 0x150005#64

theorem codeState_consistent : Consistent firstKernel codeState [firstRoot] :=
  (onePage_unforked rfl (by decide) (by decide) (by decide) (by decide)).consistent

theorem codeState_readOnly : ReadOnly (pteValue codeState.mem firstRoot 0x1000#64) := by
  rw [show pteValue codeState.mem firstRoot 0x1000#64 = 0x150005#64 by decide +kernel]
  exact ⟨by decide, by decide, by decide⟩

theorem codeState_forked (allowed : PhysAddr → BitVec 64 → Prop)
    (ran : mmuCloneCow firstKernel codeState firstRoot = .ok (p, s')) :
    Reaches (FamilyStep firstKernel allowed) (codeState, [firstRoot], id)
      (s', [p, firstRoot], Function.update id p firstRoot) :=
  .single (.clone (List.mem_singleton.mpr rfl) (onePage_supply (by decide)) ran)

def writeCode : Except Fault (PhysAddr × State × Bool × State × Bool × State) := do
  let (p, forked) ← mmuCloneCow firstKernel codeState firstRoot
  let (child, s₁) ← cowHandleWrite { forked with supply := [0x309000#64] }
      (vmmGetPte forked.mem p 0x1000#64)
  let (parent, s₂) ← cowHandleWrite { s₁ with supply := [] } (vmmGetPte s₁.mem firstRoot 0x1000#64)
  return (p, forked, child, s₁, parent, s₂)

theorem writeCode_ran : ∃ p forked s₁ s₂, mmuCloneCow firstKernel codeState firstRoot =
    .ok (p, forked) ∧ forked.inUse 0x309000#64 = false ∧
    cowHandleWrite { forked with supply := [0x309000#64] } (vmmGetPte forked.mem p 0x1000#64) =
      .ok (true, s₁) ∧
    cowHandleWrite { s₁ with supply := [] } (vmmGetPte s₁.mem firstRoot 0x1000#64) = .ok (true, s₂) ∧
    pteValue s₂.mem p 0x1000#64 = 0x309007#64 ∧ pteValue s₂.mem firstRoot 0x1000#64 = 0x150007#64 := by
  have values : writeCode.toOption.map (fun (p, forked, child, _, parent, s₂) =>
      ((forked.inUse 0x309000#64, child, parent), pteValue s₂.mem p 0x1000#64,
        pteValue s₂.mem firstRoot 0x1000#64)) =
      some ((false, true, true), 0x309007#64, 0x150007#64) := by decide +kernel
  obtain ⟨⟨p, forked, child, s₁, parent, s₂⟩, ran, values⟩ := toOption_map_eq_some.mp values
  simp only [Prod.mk.injEq] at values
  obtain ⟨⟨unused, rfl, rfl⟩, entries⟩ := values
  unfold writeCode at ran
  obtain ⟨⟨p', forked'⟩, forking, ran⟩ := bind_eq_ok.mp ran
  obtain ⟨⟨child, s₁'⟩, first, ran⟩ := bind_eq_ok.mp ran
  obtain ⟨⟨parent, s₂'⟩, second, ran⟩ := bind_eq_ok.mp ran
  cases ran
  exact ⟨_, _, _, _, forking, unused, first, second, entries⟩

/-- After the fork the code is still read-only. -/
theorem cow_keeps_permissions_code : ∃ p s',
    Reaches (FamilyStep firstKernel fun r va => ¬ ReadOnly (pteValue codeState.mem r va))
        (codeState, [firstRoot], id) (s', [p, firstRoot], Function.update id p firstRoot) ∧
      ReadOnly (pteValue codeState.mem firstRoot 0x1000#64) ∧ ¬ Writable (pteValue s'.mem p 0x1000#64) := by
  obtain ⟨p, s', -, -, ran, -⟩ := writeCode_ran
  have run := codeState_forked (fun r va => ¬ ReadOnly (pteValue codeState.mem r va)) ran
  refine ⟨p, s', run, codeState_readOnly, ?_⟩
  have origin : Function.update id p firstRoot p = firstRoot := Function.update_self ..
  refine (cow_keeps_permissions codeState_consistent run List.mem_cons_self (by decide) ?_).1 ?_
  · rw [origin]
    exact codeState_readOnly.2.2
  · rw [origin]
    exact codeState_readOnly

/-- Both writes are resolved. The child gets a copy of its code, and the parent the
page of the kernel image itself, both writable. -/
theorem cow_widens_permissions : ∃ p s₁ s',
    Consistent firstKernel codeState [firstRoot] ∧ ReadOnly (pteValue codeState.mem firstRoot 0x1000#64) ∧
      Reaches (FamilyStep firstKernel fun _ _ => True) (codeState, [firstRoot], id)
        (s₁, [p, firstRoot], Function.update id p firstRoot) ∧
      cowHandleWrite { s₁ with supply := [] } (vmmGetPte s₁.mem firstRoot 0x1000#64) = .ok (true, s') ∧
      pteValue s'.mem p 0x1000#64 = 0x309007#64 ∧ pteValue s'.mem firstRoot 0x1000#64 = 0x150007#64 := by
  obtain ⟨p, forked, s₁, s', ran, unused, first, second, entries⟩ := writeCode_ran
  have resolved := (codeState_forked (fun _ _ => True) ran).tail (.access (by simp)
    (freeSupply_single (by decide) unused) ⟨0x1000#64, fun _ => trivial, ⟨by decide, true, first⟩, rfl⟩)
  exact ⟨p, s₁, s', codeState_consistent, codeState_readOnly, resolved, second, entries⟩

end ByteOS.Mm
