import ByteOS.Lib.Transition
import ByteOS.Mm.Vmm

/-! Page tables refine a map from virtual page numbers to entries.

The tables below a root are named by paths of at most three indices. As long as
no table has two names, a missing table reads as a table of zeros, allocating one
changes no entry, and the final store of `vmm_map_page` changes exactly one.
-/

set_option autoImplicit false

namespace ByteOS.Mm

open ByteOS.Lib
open Function (update update_self update_of_ne)

/-! ## Links -/

def Usable (p : PhysAddr) : Prop := p &&& pteAddrMask = p ∧ p ≠ 0#64

theorem entryTable_zero : entryTable 0#64 = none := by decide

variable {p table p1 : PhysAddr} {flags va phys virt : BitVec 64} {rest : List PhysAddr}
  {index i : Fin 512} {unmap : Bool} {pgtabFlags : BitVec 32} {text : String}
  {result : Option PhysAddr} {path : List (Fin 512)} {nrCpus : Nat}

theorem entryTable_link {p : BitVec 64} (usable : Usable p) (clear : flags &&& pteAddrMask = 0#64)
    (present : flags &&& pagePresent ≠ 0#64) : entryTable ((p &&& pteAddrMask) ||| flags) = some p := by
  have address : (p ||| flags) &&& pteAddrMask = p := by
    rw [BitVec.and_or_distrib_right, usable.1, clear, BitVec.or_zero]
  have bit : (p ||| flags) &&& pagePresent ≠ 0#64 := by
    rw [BitVec.and_or_distrib_right]
    intro zero
    exact present (BitVec.or_eq_zero_iff.mp zero).2
  rw [usable.1, entryTable, if_neg bit, address, if_neg usable.2]

theorem pgtabFlags_bits (allocFlags : BitVec 64) :
    (pagePresent ||| pageWritable ||| (allocFlags &&& pageUserAccessible)) &&& pteAddrMask = 0#64 ∧
      (pagePresent ||| pageWritable ||| (allocFlags &&& pageUserAccessible)) &&& pagePresent ≠ 0#64 := by
  constructor
  · rw [BitVec.and_or_distrib_right, BitVec.and_assoc]
    have user : pageUserAccessible &&& pteAddrMask = 0#64 := by decide
    have other : (pagePresent ||| pageWritable) &&& pteAddrMask = 0#64 := by decide
    rw [user, other]
    simp
  · rw [BitVec.and_or_distrib_right]
    intro zero
    exact absurd (BitVec.or_eq_zero_iff.mp zero).1 (by decide)

variable {s s' : State}

theorem allocPgtab_cases {allocFlags : BitVec 32} {entry : Pte}
    (ran : allocPgtab s allocFlags = .ok (entry, s')) :
    ∃ p, s.supply = p :: s'.supply ∧ s'.refcount = s.refcount ∧
      s'.inUse = update s.inUse p true ∧ (∀ q, q ≠ p → s'.mem q = s.mem q) ∧
      (Usable p → entryTable entry = some p) := by
  obtain ⟨clear, present⟩ := pgtabFlags_bits (allocFlags.zeroExtend 64)
  cases supply : s.supply with
  | nil =>
    unfold allocPgtab at ran
    split at ran <;> simp [mmapAllocLow, pmmAllocPage, State.takePage, supply, bind, Except.bind] at ran
  | cons p rest =>
    unfold allocPgtab at ran
    split at ran
    · simp only [mmapAllocLow, State.takePage, supply, bind_eq_ok, kassert_eq_ok, pure, Except.pure,
        Except.ok.injEq, Prod.mk.injEq, Prod.exists] at ran
      obtain ⟨_, _, ⟨rfl, rfl⟩, -, -, rfl, rfl⟩ := ran
      exact ⟨p, rfl, rfl, rfl, fun _ _ => rfl, fun usable => entryTable_link usable clear present⟩
    · simp only [pmmAllocPage, State.takePage, supply, bind_eq_ok, kassert_eq_ok, pure, Except.pure,
        Except.ok.injEq, Prod.mk.injEq, Prod.exists] at ran
      obtain ⟨_, _, ⟨_, _, ⟨rfl, rfl⟩, rfl, rfl⟩, -, -, rfl, rfl⟩ := ran
      refine ⟨p, rfl, rfl, rfl, ?_, fun usable => entryTable_link usable clear present⟩
      intro q other
      simp [State.setPage, other]

theorem allocPgtab_returns (allocFlags : BitVec 32) (supply : s.supply = p :: rest)
    (usable : Usable p) : ∃ entry s', allocPgtab s allocFlags = .ok (entry, s') := by
  have aligned : p &&& 0xFFF#64 = 0#64 := by
    rw [← usable.1, BitVec.and_assoc]
    have disjoint : pteAddrMask &&& 0xFFF#64 = 0#64 := by decide
    rw [disjoint, BitVec.and_zero]
  unfold allocPgtab
  split <;> simp [mmapAllocLow, pmmAllocPage, State.takePage, supply, bind, Except.bind, pure,
    Except.pure, kassert, aligned, usable.2]

/-! ## One level of tables -/

abbrev tableAt (mem : PhysMem) (root : PhysAddr) (path : List (Fin 512)) : Option PhysAddr :=
  walk entryTable mem root path

abbrev entryAt (mem : PhysMem) (root : PhysAddr) (path : List (Fin 512)) (i : Fin 512) : Pte :=
  lookup entryTable mem 0#64 root path i

theorem tableAt_snoc (mem : PhysMem) (root : PhysAddr) (path : List (Fin 512)) (i : Fin 512) :
    tableAt mem root (path ++ [i]) = (tableAt mem root path).bind fun a => pgtabExtract mem a i :=
  walk_snoc entryTable mem root path i

theorem nextTable_cases (ran : nextTable s table index unmap pgtabFlags text = .ok (result, s')) :
    (result = pgtabExtract s.mem table index ∧ s' = s ∧ (result = none → unmap = true)) ∨
    (pgtabExtract s.mem table index = none ∧ unmap = false ∧ ∃ p, s.supply = p :: s'.supply ∧
      s'.refcount = s.refcount ∧ s'.inUse = update s.inUse p true ∧
      (Usable p → table ≠ p → result = some p ∧ ∃ entry, entryTable entry = some p ∧
        s'.mem = update (writeEntry s.mem table index entry) p fun _ => 0#64)) := by
  unfold nextTable at ran
  split at ran
  case h_1 next found =>
    cases ran
    exact .inl ⟨found.symm, rfl, by simp⟩
  case h_2 absent =>
    split at ran
    case isTrue unmapping =>
      cases ran
      exact .inl ⟨absent.symm, rfl, fun _ => unmapping⟩
    case isFalse mapping =>
      refine .inr ⟨absent, by simpa using mapping, ?_⟩
      rw [bind_eq_ok] at ran
      obtain ⟨⟨entry, s₁⟩, allocated, ran⟩ := ran
      obtain ⟨p, supply, refcount, inUse, elsewhere, link⟩ := allocPgtab_cases allocated
      dsimp only at ran
      have here : pgtabExtract (s₁.setEntry table index entry).mem table index = entryTable entry := by
        simp [pgtabExtract, State.setEntry, writeEntry_self]
      rw [here] at ran
      split at ran
      case h_1 null => simp at ran
      case h_2 next linked =>
        cases ran
        refine ⟨p, supply, refcount, inUse, fun usable other => ?_⟩
        obtain rfl : next = p := Option.some.inj (linked.symm.trans (link usable))
        refine ⟨rfl, entry, linked, ?_⟩
        funext q
        by_cases fresh : q = next
        · simp [State.setPage, fresh]
        · simp only [State.setPage, State.setEntry, update_of_ne fresh, writeEntry]
          by_cases same : q = table
          · subst same
            rw [update_self, update_self, elsewhere q fresh]
          · rw [update_of_ne same, update_of_ne same, elsewhere q fresh]

theorem nextTable_returns (supply : s.supply = p :: rest) (usable : Usable p) :
    ∃ result s', nextTable s table index unmap pgtabFlags text = .ok (result, s') := by
  unfold nextTable
  split
  case h_1 next found => exact ⟨_, _, rfl⟩
  case h_2 absent =>
    split
    case isTrue unmapping => exact ⟨_, _, rfl⟩
    case isFalse mapping =>
      obtain ⟨entry, s₁, allocated⟩ := allocPgtab_returns pgtabFlags supply usable
      obtain ⟨q, supply', -, -, -, link⟩ := allocPgtab_cases allocated
      obtain rfl : p = q := by rw [supply] at supply'; exact (List.cons.inj supply').1
      have here : pgtabExtract (writeEntry s₁.mem table index entry) table index = some p := by
        simp [pgtabExtract, writeEntry_self, link usable]
      simp [allocated, bind, Except.bind, here, pure, Except.pure]

/-- The paths in question: closed under going up, and no deeper than the last-level tables. -/
structure Region (dom : PhysAddr → List (Fin 512) → Prop) : Prop where
  closed : PrefixClosed dom
  bounded : ∀ r path, dom r path → path.length ≤ 3

structure Supplied (dom : PhysAddr → List (Fin 512) → Prop) (s : State) : Prop where
  usable : ∀ p ∈ s.supply, Usable p
  distinct : s.supply.Nodup
  fresh : ∀ p ∈ s.supply, ∀ r path, dom r path → tableAt s.mem r path ≠ some p

/-- Tables were added from the supply, and those that there were have stayed. -/
structure Extended (dom : PhysAddr → List (Fin 512) → Prop) (s s' : State) : Prop where
  separate : Separate entryTable s'.mem dom
  supplied : Supplied dom s'
  suffix : s'.supply <:+ s.supply
  refcount : s'.refcount = s.refcount
  inUse : ∀ q, s'.inUse q = true ↔ s.inUse q = true ∨ q ∈ s.supply ∧ q ∉ s'.supply
  tables : ∀ r path a, dom r path → tableAt s'.mem r path = some a →
    tableAt s.mem r path = some a ∨ a ∈ s.supply
  kept : ∀ r path a, dom r path → tableAt s.mem r path = some a → tableAt s'.mem r path = some a

/-- The new tables are along the path `target` from the root `r`, where there were none, and
no entry of a last-level table changed. -/
structure Grown (dom : PhysAddr → List (Fin 512) → Prop) (r : PhysAddr) (target : List (Fin 512))
    (s s' : State) : Prop extends Extended dom s s' where
  entries : ∀ r path i, dom r path → path.length = 3 → entryAt s'.mem r path i = entryAt s.mem r path i
  frame : ∀ q j, q ∉ s.supply →
    (∀ path, dom r path → path ++ [j] <+: target → tableAt s.mem r path ≠ some q) ∨
    entryTable (s.mem q j) ≠ none → s'.mem q j = s.mem q j

section
variable {dom : PhysAddr → List (Fin 512) → Prop} {s s' s'' : State} {r : PhysAddr}
    {target : List (Fin 512)}

theorem Extended.refl (separate : Separate entryTable s.mem dom) (supplied : Supplied dom s) :
    Extended dom s s :=
  ⟨separate, supplied, List.suffix_refl _, rfl, fun q => by simp, fun _ _ _ _ => .inl, fun _ _ _ _ => id⟩

theorem Extended.trans (first : Extended dom s s') (second : Extended dom s' s'') : Extended dom s s'' where
  separate := second.separate
  supplied := second.supplied
  suffix := second.suffix.trans first.suffix
  refcount := second.refcount.trans first.refcount
  inUse q := by
    rw [second.inUse, first.inUse]
    have fewer : q ∈ s'.supply → q ∈ s.supply := fun member => first.suffix.subset member
    have fewer' : q ∈ s''.supply → q ∈ s'.supply := fun member => second.suffix.subset member
    tauto
  tables r path a inside found :=
    (second.tables r path a inside found).elim (first.tables r path a inside)
      (.inr <| first.suffix.subset ·)
  kept r path a inside found := second.kept r path a inside (first.kept r path a inside found)

theorem Grown.refl (separate : Separate entryTable s.mem dom) (supplied : Supplied dom s) :
    Grown dom r target s s :=
  ⟨.refl separate supplied, fun _ _ _ _ _ => rfl, fun _ _ _ _ => rfl⟩

theorem Grown.trans (first : Grown dom r target s s') (second : Grown dom r target s' s'') :
    Grown dom r target s s'' where
  toExtended := first.toExtended.trans second.toExtended
  entries r path i inside leaf :=
    (second.entries r path i inside leaf).trans (first.entries r path i inside leaf)
  frame q j unused reason := by
    have same := first.frame q j unused reason
    rw [second.frame q j (fun member => unused (first.suffix.subset member)) ?_, same]
    refine reason.imp (fun untabled path inside front found => ?_) (by rw [same]; exact id)
    rcases first.tables r path q inside found with found | member
    · exact untabled path inside front found
    · exact unused member

/-- Where the next table is looked for, it is found afterwards, unless it is
missing and the call unmaps. -/
theorem nextTable_spec (path : List (Fin 512)) (region : Region dom)
    (separate : Separate entryTable s.mem dom) (supplied : Supplied dom s)
    (inside : dom r (path ++ [index])) (along : path ++ [index] <+: target)
    (reached : tableAt s.mem r path = some table)
    (ran : nextTable s table index unmap pgtabFlags text = .ok (result, s')) :
    tableAt s'.mem r (path ++ [index]) = result ∧ Grown dom r target s s' ∧
      (result = none → unmap = true) ∧ (unmap = true → s' = s) := by
  have above : dom r path := region.closed r path _ (List.prefix_append _ _) inside
  rcases nextTable_cases ran with ⟨rfl, rfl, unmapping⟩ | ⟨absent, mapping, p, supply, refcount,
    inUse, installed⟩
  · refine ⟨?_, Grown.refl separate supplied, unmapping, fun _ => rfl⟩
    rw [tableAt_snoc, reached, Option.bind_some]
  · have member : p ∈ s.supply := by simp [supply]
    have fresh := supplied.fresh p member
    have other : table ≠ p := by
      rintro rfl
      exact fresh r path above reached
    obtain ⟨rfl, entry, link, memory⟩ := installed (supplied.usable p member) other
    have walks : ∀ r' path', dom r' path' → tableAt s'.mem r' path' =
        if r' = r ∧ path' = path ++ [index] then some p else tableAt s.mem r' path' := by
      intro r' path' inside'
      rw [memory]
      exact separate.walk_install region.closed above reached absent link fresh inside' fun _ =>
        entryTable_zero
    have shorter : s'.supply <:+ s.supply := by
      rw [supply]
      exact List.suffix_cons p s'.supply
    have tables : ∀ r' path' a, dom r' path' → tableAt s'.mem r' path' = some a →
        tableAt s.mem r' path' = some a ∨ a = p := by
      intro r' path' a inside' found
      rw [walks r' path' inside'] at found
      split at found
      · exact .inr (Option.some.inj found).symm
      · exact .inl found
    have distinct := supplied.distinct
    rw [supply, List.nodup_cons] at distinct
    refine ⟨by rw [walks r _ inside, if_pos ⟨rfl, rfl⟩],
      ⟨⟨?_, ⟨?_, ?_, ?_⟩, shorter, refcount, ?_, ?_, ?_⟩, ?_, ?_⟩, by simp, by simp [mapping]⟩
    · rw [memory]
      exact separate.install region.closed above reached absent link fresh fun _ => entryTable_zero
    · exact fun q found => supplied.usable q (shorter.subset found)
    · exact supplied.distinct.sublist shorter.sublist
    · intro q later r' path' inside' found
      rcases tables r' path' q inside' found with found | rfl
      · exact supplied.fresh q (shorter.subset later) r' path' inside' found
      · exact distinct.1 later
    · intro q
      rw [inUse, supply, List.mem_cons]
      by_cases same : q = p
      · simp [same, distinct.1]
      · rw [update_of_ne same]
        tauto
    · intro r' path' a inside' found
      rcases tables r' path' a inside' found with found | rfl
      · exact .inl found
      · exact .inr member
    · intro r' path' a inside' found
      rw [walks r' path' inside', if_neg, found]
      -- there was no table where the new one is
      rintro ⟨rfl, rfl⟩
      rw [tableAt_snoc, reached, Option.bind_some, absent] at found
      cases found
    · intro r' path' i inside' leaf
      rw [memory]
      refine separate.lookup_install region.closed above reached absent link fresh inside'
        entryTable_zero ?_
      rintro ⟨-, rfl, -⟩
      have := region.bounded r _ inside
      simp only [List.length_append, List.length_singleton] at this
      omega
    · intro q j unused reason
      have notNew : q ≠ p := by
        rintro rfl
        exact unused member
      rw [memory, update_of_ne notNew]
      apply writeEntry_of_ne
      rintro ⟨rfl, rfl⟩
      exact reason.elim (· path above along reached) (· absent)

/-! ## The whole call -/

theorem prefix_one (va : BitVec 64) : [p4Index va] <+: tablePath va := ⟨[p3Index va, p2Index va], rfl⟩

theorem prefix_two (va : BitVec 64) : [p4Index va, p3Index va] <+: tablePath va := ⟨[p2Index va], rfl⟩

theorem tableAt_none {mem : PhysMem} (rest : List (Fin 512)) (missing : tableAt mem r path = none) :
    tableAt mem r (path ++ rest) = none := by
  rw [tableAt, walk_append]
  simp [missing]

section

variable (region : Region dom) (separate : Separate entryTable s.mem dom)
  (supplied : Supplied dom s) (inside : dom r (tablePath va))
include region separate supplied inside

theorem lastTable_spec (along : tablePath va <+: target)
    (ran : lastTable s r va unmap pgtabFlags = .ok (result, s')) :
    tableAt s'.mem r (tablePath va) = result ∧ Grown dom r target s s' ∧
      (result = none → unmap = true) ∧ (unmap = true → s' = s) := by
  have two := region.closed r _ _ (prefix_two va) inside
  have one := region.closed r _ _ (prefix_one va) inside
  unfold lastTable at ran
  obtain ⟨⟨p3, s₁⟩, ran₁, ran⟩ := bind_eq_ok.mp ran
  obtain ⟨found₁, grown₁, missing₁, same₁⟩ :=
    nextTable_spec [] region separate supplied one ((prefix_one va).trans along) rfl ran₁
  cases p3 with
  | none =>
    cases ran
    exact ⟨tableAt_none [p3Index va, p2Index va] found₁, grown₁, missing₁, same₁⟩
  | some p3 =>
    obtain ⟨⟨p2, s₂⟩, ran₂, ran⟩ := bind_eq_ok.mp ran
    obtain ⟨found₂, grown₂, missing₂, same₂⟩ := nextTable_spec [p4Index va] region
      grown₁.separate grown₁.supplied two ((prefix_two va).trans along) found₁ ran₂
    have same : unmap = true → s₂ = s := fun unmapping => (same₂ unmapping).trans (same₁ unmapping)
    cases p2 with
    | none =>
      cases ran
      exact ⟨tableAt_none [p2Index va] found₂, grown₁.trans grown₂, missing₂, same⟩
    | some p2 =>
      obtain ⟨found₃, grown₃, missing₃, same₃⟩ := nextTable_spec [p4Index va, p3Index va] region
        grown₂.separate grown₂.supplied inside along found₂ ran
      exact ⟨found₃, (grown₁.trans grown₂).trans grown₃, missing₃,
        fun unmapping => (same₃ unmapping).trans (same unmapping)⟩

end

theorem tablePath_page (virt : BitVec 64) : tablePath (virt &&& ~~~0xFFF#64) = tablePath virt := by
  obtain ⟨same₄, same₃, same₂, -⟩ := index_aligned virt
  simp only [tablePath, same₄, same₃, same₂]

def leafEntry (phys flags : BitVec 64) : Pte :=
  if flags &&& vmmUnmap != 0#64 then 0#64
  else (phys &&& pteAddrMask) ||| pagePresent ||| (flags ^^^ pageExecutable) &&& ~~~vmmAllocMmap

theorem setLeaf_cases (ran : setLeaf nrCpus s p1 i unmap phys flags = .ok s') :
    s' = s.setEntry p1 i
      (if unmap then 0#64 else (phys &&& pteAddrMask) ||| pagePresent ||| flags &&& ~~~vmmAllocMmap) := by
  cases unmap with
  | true | false =>
    by_cases smp : nrCpus > 1 <;> simp [setLeaf, smp, bind_eq_ok, pure, Except.pure] at ran
    · exact ran.2.2.symm
    · exact ran.symm

theorem setLeaf_returns (allowed : nrCpus ≤ 1 ∨ s.mem p1 i &&& pageGlobal = 0#64 ∧
    flags &&& pageGlobal = 0#64) :
    ∃ s', setLeaf nrCpus s p1 i unmap phys flags = .ok s' := by
  rcases allowed with single | ⟨old, new⟩
  · have smp : ¬ nrCpus > 1 := by omega
    cases unmap <;> simp [setLeaf, smp, pure, Except.pure]
  · by_cases smp : nrCpus > 1 <;> cases unmap <;>
      simp [setLeaf, smp, kassert, old, new, bind, Except.bind, pure, Except.pure]

/-- The effect of mapping or unmapping one page: the tables stay apart, exactly
one last-level entry changes, unmapping allocates nothing, and entries that link to a table
stay, as the final store goes to a last-level table. -/
structure Mapped (dom : PhysAddr → List (Fin 512) → Prop) (r : PhysAddr)
    (phys virt flags : BitVec 64) (s s' : State) : Prop extends Extended dom s s' where
  entries : ∀ r' path i, dom r' path → path.length = 3 → entryAt s'.mem r' path i =
    if r' = r ∧ path = tablePath virt ∧ i = p1Index virt then leafEntry phys flags
    else entryAt s.mem r' path i
  unmaps : flags &&& vmmUnmap ≠ 0#64 → s'.supply = s.supply ∧ s'.inUse = s.inUse
  frame : ∀ q j, q ∉ s.supply → (∀ path, dom r path → path ++ [j] <+: tablePath virt ++ [p1Index virt] →
    tableAt s.mem r path ≠ some q) → s'.mem q j = s.mem q j
  links : ∀ q j, q ∉ s.supply → tableAt s.mem r (tablePath virt) ≠ some q →
    entryTable (s.mem q j) ≠ none → s'.mem q j = s.mem q j

theorem vmmMapPage_spec (region : Region dom) (supplied : Supplied dom s)
    (separate : Separate entryTable s.mem dom) (inside : dom r (tablePath virt))
    (ran : vmmMapPage nrCpus s r phys virt flags = .ok s') : Mapped dom r phys virt flags s s' := by
  obtain ⟨-, -, -, same₁⟩ := index_aligned virt
  have samePath := tablePath_page virt
  have along : tablePath (virt &&& ~~~0xFFF#64) <+: tablePath virt ++ [p1Index virt] := by
    rw [samePath]
    exact List.prefix_append _ _
  unfold vmmMapPage at ran
  obtain ⟨⟨result, s₁⟩, descended, ran⟩ := bind_eq_ok.mp ran
  obtain ⟨found, grown, missing, unchanged⟩ :=
    lastTable_spec region separate supplied (samePath ▸ inside) along descended
  rw [samePath] at found
  cases result with
  | none =>
    cases ran
    have unmapping := missing rfl
    obtain rfl := unchanged unmapping
    refine ⟨.refl separate supplied, ?_, fun _ => ⟨rfl, rfl⟩, fun _ _ _ _ => rfl, fun _ _ _ _ _ => rfl⟩
    intro r' path i inside' leaf
    split_ifs with target
    · obtain ⟨rfl, rfl, rfl⟩ := target
      simp [leafEntry, unmapping, entryAt, lookup, found]
    · rfl
  | some p1 =>
    have stored := setLeaf_cases ran
    rw [same₁] at stored
    have value : (if flags &&& vmmUnmap != 0#64 then 0#64
        else (phys &&& pteAddrMask) ||| pagePresent ||| (flags ^^^ pageExecutable) &&& ~~~vmmAllocMmap) =
        leafEntry phys flags := rfl
    rw [value] at stored
    subst stored
    have avoids : ∀ r' path, dom r' path → ¬ (r' = r ∧ tablePath virt ++ [p1Index virt] <+: path) := by
      rintro r' path inside' ⟨-, front⟩
      have long := front.length_le
      have short := region.bounded r' path inside'
      simp only [tablePath, List.length_append, List.length_cons, List.length_nil] at long
      omega
    have walks : ∀ r' path, dom r' path → tableAt (s₁.setEntry p1 (p1Index virt) (leafEntry phys flags)).mem
        r' path = tableAt s₁.mem r' path := fun r' path inside' =>
      grown.separate.walk_write region.closed inside found inside' (avoids r' path inside')
    have stocked := grown.supplied
    refine ⟨⟨grown.separate.write region.closed inside found avoids, ⟨stocked.usable, stocked.distinct,
      fun p member r' path inside' => ?_⟩, grown.suffix, grown.refcount, grown.inUse, ?_, ?_⟩, ?_,
        ?_, ?_, ?_⟩
    · rw [walks r' path inside']
      exact stocked.fresh p member r' path inside'
    · intro r' path a inside' reached
      rw [walks r' path inside'] at reached
      exact grown.tables r' path a inside' reached
    · intro r' path a inside' before
      rw [walks r' path inside']
      exact grown.kept r' path a inside' before
    · intro r' path i inside' leaf
      have written : entryAt (s₁.setEntry p1 (p1Index virt) (leafEntry phys flags)).mem r' path i = _ :=
        grown.separate.lookup_write region.closed inside found inside' (avoids r' path inside')
      rw [written]
      split_ifs with target
      · rfl
      · exact grown.entries r' path i inside' leaf
    · intro unmapping
      have same := unchanged (by simpa using unmapping)
      exact ⟨by rw [← same]; rfl, by rw [← same]; rfl⟩
    · intro q j unused untabled
      rw [← grown.frame q j unused (.inl untabled)]
      apply writeEntry_of_ne
      rintro ⟨rfl, rfl⟩
      rcases grown.tables r (tablePath virt) q inside found with old | new
      · exact untabled (tablePath virt) inside (List.prefix_refl _) old
      · exact unused new
    · intro q j unused upper linked
      rw [← grown.frame q j unused (.inr linked)]
      apply writeEntry_of_ne
      rintro ⟨rfl, -⟩
      rcases grown.tables r (tablePath virt) q inside found with old | new
      · exact upper old
      · exact unused new

/-! ## Calls return -/

theorem nextTable_supply (ran : nextTable s table index unmap pgtabFlags text = .ok (result, s')) :
    s'.supply <:+ s.supply ∧ s.supply.length ≤ s'.supply.length + 1 := by
  rcases nextTable_cases ran with ⟨-, rfl, -⟩ | ⟨-, -, p, supply, -⟩
  · exact ⟨List.suffix_refl _, by omega⟩
  · rw [supply]
    exact ⟨List.suffix_cons _ _, by simp⟩

theorem lastTable_returns (p4 : PhysAddr) (va : BitVec 64) (unmap : Bool) (pgtabFlags : BitVec 32)
    (usable : ∀ p ∈ s.supply, Usable p) (enough : 3 ≤ s.supply.length) :
    ∃ result s', lastTable s p4 va unmap pgtabFlags = .ok (result, s') := by
  have next : ∀ (t : State) (table : PhysAddr) (index : Fin 512) (text : String), t.supply <:+ s.supply →
      0 < t.supply.length → ∃ result t', nextTable t table index unmap pgtabFlags text =
        .ok (result, t') := by
    intro t table index text suffix nonempty
    cases supply : t.supply with
    | nil => simp [supply] at nonempty
    | cons p rest => exact nextTable_returns supply (usable p (suffix.subset (by simp [supply])))
  unfold lastTable
  obtain ⟨p3, s₁, ran₁⟩ := next s p4 (p4Index va) "p3_table != NULL" (List.suffix_refl _) (by omega)
  obtain ⟨suffix₁, left₁⟩ := nextTable_supply ran₁
  rw [ran₁]
  cases p3 with
  | none => exact ⟨_, _, rfl⟩
  | some p3 =>
    obtain ⟨p2, s₂, ran₂⟩ := next s₁ p3 (p3Index va) "p2_table != NULL" suffix₁ (by omega)
    obtain ⟨suffix₂, left₂⟩ := nextTable_supply ran₂
    simp only [bind, Except.bind, ran₂]
    cases p2 with
    | none => exact ⟨_, _, rfl⟩
    | some p2 => exact next s₂ p2 (p2Index va) _ (suffix₂.trans suffix₁) (by omega)

theorem vmmMapPage_returns (phys : BitVec 64) (region : Region dom) (supplied : Supplied dom s)
    (separate : Separate entryTable s.mem dom) (inside : dom r (tablePath virt))
    (enough : 3 ≤ s.supply.length) (allowed : nrCpus ≤ 1 ∨ flags &&& pageGlobal = 0#64 ∧
      entryAt s.mem r (tablePath virt) (p1Index virt) &&& pageGlobal = 0#64) :
    ∃ s', vmmMapPage nrCpus s r phys virt flags = .ok s' := by
  obtain ⟨-, -, -, same₁⟩ := index_aligned virt
  have samePath := tablePath_page virt
  obtain ⟨result, s₁, descended⟩ := lastTable_returns r (virt &&& ~~~0xFFF#64) (flags &&& vmmUnmap != 0#64)
    ((flags ||| if virt.ult kernelLogicalBase then pageUserAccessible else 0#64).truncate 32)
    supplied.usable enough
  obtain ⟨found, grown, -, -⟩ :=
    lastTable_spec region separate supplied (samePath ▸ inside) (List.prefix_refl _) descended
  rw [samePath] at found
  unfold vmmMapPage
  simp only [descended, bind, Except.bind]
  cases result with
  | none => exact ⟨_, rfl⟩
  | some p1 =>
    apply setLeaf_returns
    refine allowed.imp_right fun ⟨plain, old⟩ => ⟨?_, ?_⟩
    · have kept := grown.entries r (tablePath virt) (p1Index virt) inside rfl
      simp only [entryAt, lookup, found] at kept old
      rwa [same₁, kept]
    · have apart : pageExecutable &&& pageGlobal = 0#64 := by decide
      have split : (flags ^^^ pageExecutable) &&& pageGlobal =
          flags &&& pageGlobal ^^^ pageExecutable &&& pageGlobal := by
        ext
        simp [Bool.and_xor_distrib_right]
      rw [split, plain, apart]
      rfl

end

/-! ## Runs of calls -/

/-- The value that `vmm_get_pte` finds, null counted as zero. -/
def pteValue (mem : PhysMem) (p4 : PhysAddr) (va : BitVec 64) : Pte :=
  match vmmGetPte mem p4 va with
  | none => 0#64
  | some (p1, i) => mem p1 i

theorem vmmGetPte_eq (mem : PhysMem) (p4 : PhysAddr) (va : BitVec 64) :
    vmmGetPte mem p4 va = (tableAt mem p4 (tablePath va)).map fun p1 => (p1, p1Index va) := by
  simp [vmmGetPte, tablePath, walk_cons, pgtabExtract, Option.map_eq_bind, Option.bind_assoc]

theorem pteValue_eq (mem : PhysMem) (p4 : PhysAddr) (va : BitVec 64) :
    pteValue mem p4 va = entryAt mem p4 (tablePath va) (p1Index va) := by
  rw [pteValue, vmmGetPte_eq, entryAt, lookup, tableAt]
  cases walk entryTable mem p4 (tablePath va) <;> rfl

def TableTree (mem : PhysMem) (p4 : PhysAddr) : Prop :=
  ∀ path path' a, path.length ≤ 3 → path'.length ≤ 3 → tableAt mem p4 path = some a →
    tableAt mem p4 path' = some a → path = path'

def Below (p4 r : PhysAddr) (path : List (Fin 512)) : Prop := r = p4 ∧ path.length ≤ 3

theorem below_region (p4 : PhysAddr) : Region (Below p4) where
  closed _ _ _ front inside := ⟨inside.1, front.length_le.trans inside.2⟩
  bounded _ _ inside := inside.2

theorem tableTree_iff (mem : PhysMem) (p4 : PhysAddr) :
    TableTree mem p4 ↔ Separate entryTable mem (Below p4) := by
  constructor
  · rintro tree r path r' path' a ⟨rfl, short⟩ ⟨rfl, short'⟩ found found'
    exact ⟨rfl, tree path path' a short short' found found'⟩
  · intro separate path path' a short short' found found'
    exact (separate p4 path p4 path' a ⟨rfl, short⟩ ⟨rfl, short'⟩ found found').2

/-- A call of `vmm_map_page`, and beside it the update of the map it stands for. -/
inductive MapStep (nrCpus : Nat) (p4 : PhysAddr) : State × (Nat → Pte) → State × (Nat → Pte) → Prop where
  | call {s s' : State} {map : Nat → Pte} {supply : List PhysAddr} {phys virt flags : BitVec 64} :
      Supplied (Below p4) { s with supply := supply } →
      vmmMapPage nrCpus { s with supply := supply } p4 phys virt flags = .ok s' →
      MapStep nrCpus p4 (s, map) (s', update map (vpn virt) (leafEntry phys flags))

def Represents (p4 : PhysAddr) : State × (Nat → Pte) → Prop
  | (s, map) => TableTree s.mem p4 ∧ ∀ va, pteValue s.mem p4 va = map (vpn va)

theorem mapStep_represents {p4 : PhysAddr} {first last : State × (Nat → Pte)}
    (step : MapStep nrCpus p4 first last) (holds : Represents p4 first) : Represents p4 last := by
  cases step with
  | call supplied ran =>
    obtain ⟨tree, reads⟩ := holds
    have mapped := vmmMapPage_spec (below_region p4) supplied ((tableTree_iff _ p4).mp tree)
      ⟨rfl, by simp [tablePath]⟩ ran
    refine ⟨(tableTree_iff _ p4).mpr mapped.separate, fun va => ?_⟩
    rw [pteValue_eq, mapped.entries p4 (tablePath va) (p1Index va) ⟨rfl, by simp [tablePath]⟩ rfl]
    simp only [Function.update_apply, vpn_eq_iff, tablePath, List.cons.injEq, true_and, and_true, and_assoc]
    split
    · rfl
    · exact (pteValue_eq _ p4 va).symm.trans (reads va)

/-- Over any run of calls the page tables of one `mmu` stay a tree and read as a
map from virtual page numbers to entries that each call updates at its own page
only. Unmapping allocates no table, and with enough pages a call returns. -/
theorem vmm_refines_page_map {p4 : PhysAddr} {s₀ : State} {map₀ map : Nat → Pte}
    (tree : TableTree s₀.mem p4) (initial : ∀ va, pteValue s₀.mem p4 va = map₀ (vpn va))
    (run : Reaches (MapStep nrCpus p4) (s₀, map₀) (s, map)) :
    TableTree s.mem p4 ∧ (∀ va, pteValue s.mem p4 va = map (vpn va)) ∧
      ∀ supply phys virt flags, Supplied (Below p4) { s with supply := supply } →
        (∀ s', vmmMapPage nrCpus { s with supply := supply } p4 phys virt flags = .ok s' →
          flags &&& vmmUnmap ≠ 0#64 → s'.supply = supply ∧ s'.inUse = s.inUse) ∧
        (3 ≤ supply.length →
          nrCpus ≤ 1 ∨ flags &&& pageGlobal = 0#64 ∧ map (vpn virt) &&& pageGlobal = 0#64 →
          ∃ s', vmmMapPage nrCpus { s with supply := supply } p4 phys virt flags = .ok s') := by
  have holds : Represents p4 (s, map) :=
    run.invariant (Represents p4) ⟨tree, initial⟩ fun _ _ _ step holds => mapStep_represents step holds
  obtain ⟨tree, reads⟩ := holds
  have separate := (tableTree_iff _ p4).mp tree
  refine ⟨tree, reads, fun supply phys virt flags supplied => ⟨?_, ?_⟩⟩
  · intro s' ran
    exact (vmmMapPage_spec (below_region p4) supplied separate ⟨rfl, by simp [tablePath]⟩ ran).unmaps
  · intro enough allowed
    refine vmmMapPage_returns phys (below_region p4) supplied separate ⟨rfl, by simp [tablePath]⟩ enough ?_
    rw [← reads virt, pteValue_eq] at allowed
    exact allowed

def emptyTables : State :=
  ⟨fun _ _ => 0#64, fun _ => 0#32, fun _ => false, [0x2000#64, 0x3000#64, 0x4000#64]⟩

/-- Mapping a writable page at `0x400000` into empty tables. -/
theorem vmm_refines_page_map_first_page : ∃ s,
    vmmMapPage 1 emptyTables 0x1000#64 0x5000#64 0x400000#64 pageWritable = .ok s ∧
      TableTree s.mem 0x1000#64 ∧ pteValue s.mem 0x1000#64 0x400123#64 = 0x8000000000005003#64 ∧
      pteValue s.mem 0x1000#64 0x401000#64 = 0#64 := by
  have nothing : ∀ path a, tableAt emptyTables.mem 0x1000#64 path = some a → path = [] ∧ a = 0x1000#64 := by
    intro path a found
    cases path with
    | nil => exact ⟨rfl, (Option.some.inj found).symm⟩
    | cons i rest =>
      rw [tableAt, walk_cons, emptyTables, entryTable_zero] at found
      simp at found
  have tree : TableTree emptyTables.mem 0x1000#64 := fun path path' a _ _ found found' =>
    (nothing path a found).1.trans (nothing path' a found').1.symm
  have blank : ∀ va, pteValue emptyTables.mem 0x1000#64 va = 0#64 := by
    intro va
    rw [pteValue_eq, entryAt, lookup]
    split <;> rfl
  have supplied : Supplied (Below 0x1000#64) emptyTables := by
    refine ⟨by simp [emptyTables, Usable, pteAddrMask], by decide, ?_⟩
    rintro p member r path ⟨rfl, -⟩ found
    obtain ⟨-, rfl⟩ := nothing path p found
    exact absurd member (by decide)
  obtain ⟨s, ran⟩ : ∃ s, vmmMapPage 1 emptyTables 0x1000#64 0x5000#64 0x400000#64 pageWritable = .ok s :=
    vmmMapPage_returns _ (below_region _) supplied ((tableTree_iff _ _).mp tree) ⟨rfl, by decide⟩
      (by decide) (.inl (by decide))
  have run : Reaches (MapStep 1 0x1000#64) (emptyTables, fun _ => 0#64)
      (s, update (fun _ => 0#64) (vpn 0x400000#64) (leafEntry 0x5000#64 pageWritable)) :=
    .single (.call supplied ran)
  obtain ⟨tree, reads, -⟩ := vmm_refines_page_map tree blank run
  refine ⟨s, ran, tree, ?_, ?_⟩
  · rw [reads]
    decide
  · rw [reads]
    decide

end ByteOS.Mm
