import ByteOS.Mm.CloneSpec

/-! What `mmu_reap` gives back.

`Reaped` relates the state before the loops over a table with one of their
states. Every page that changes, the table itself apart, has been given back to
the allocator: the tables below, and the pages that no other address space maps.
-/

set_option autoImplicit false

namespace ByteOS.Mm

open ByteOS.Lib
open Function (update update_of_ne)
open State (setPage setEntry)

/-- What reaping the tree of a table relies on: its tables and the pages it maps
are handed out, each has one name in the tree, and none is both. -/
structure Reapable (kernel : Kernel) (below : Nat) (all : List (Fin 512)) (s : State)
    (table : PhysAddr) : Prop where
  unique : ∀ path path' a, Copied all s.mem table path → Copied all s.mem table path' →
    path.length ≤ below →
    path'.length ≤ below → tableAt s.mem table path = some a → tableAt s.mem table path' = some a →
      path = path'
  tables : ∀ path a, Copied all s.mem table path → path.length ≤ below →
    tableAt s.mem table path = some a → a ≠ 0#64 ∧ s.inUse a = true
  pages : ∀ path t i g, CopyAt all below s.mem table path t i g → kernel.endPhys ≤ g →
    g ≠ 0#64 ∧ s.inUse g = true ∧
      ∀ path', Copied all s.mem table path' → path'.length ≤ below → tableAt s.mem table path' ≠ some g
  once : ∀ path t i path' t' i' g, CopyAt all below s.mem table path t i g →
    CopyAt all below s.mem table path' t' i' g → kernel.endPhys ≤ g → path = path' ∧ i = i'

/-- The entries `done` of a table have been reaped. -/
structure Reaped (kernel : Kernel) (below : Nat) (s : State) (table : PhysAddr)
    (done : List (Fin 512)) (s' : State) : Prop where
  fewer : ∀ q, s'.inUse q = true → s.inUse q = true
  frame : ∀ q, q ≠ table → s'.inUse q = s.inUse q → s'.mem q = s.mem q
  pending : ∀ i, i ∉ done → s'.mem table i = s.mem table i
  tables : ∀ path a, path ≠ [] → Copied done s.mem table path → path.length ≤ below →
    tableAt s.mem table path = some a → s'.inUse a = false
  shared : ∀ path t i g, CopyAt done below s.mem table path t i g → kernel.endPhys ≤ g → Cow (s.mem t i) →
    s'.refcount g = s.refcount g - 1#32 ∧ s'.inUse g = decide (s.refcount g - 1#32 ≠ 0#32)
  owned : ∀ path t i g, CopyAt done below s.mem table path t i g → kernel.endPhys ≤ g →
    ¬ Cow (s.mem t i) → s'.refcount g = s.refcount g ∧ s'.inUse g = decide (g = kernel.endPhys)
  other : ∀ q, (∀ path, path ≠ [] → Copied done s.mem table path → path.length ≤ below →
      tableAt s.mem table path ≠ some q) →
    (kernel.endPhys ≤ q → ∀ path t i, ¬ CopyAt done below s.mem table path t i q) → s'.inUse q = s.inUse q
  uncounted : ∀ q, (kernel.endPhys ≤ q → ∀ path t i, ¬ CopyAt done below s.mem table path t i q) →
    s'.refcount q = s.refcount q

variable {p q t g a : PhysAddr} {inUse : PhysAddr → Bool} {path rest done' : List (Fin 512)} {j : Fin 512}

section
variable {kernel : Kernel} {below : Nat} {s cur next : State} {table : PhysAddr} {all done : List (Fin 512)}

theorem reaped_start : Reaped kernel below s table [] s := by
  have empty : ∀ {path t i g}, ¬ CopyAt [] below s.mem table path t i g := by
    intro path t i g copy
    have top := copied_nil copy.copied
    have last : below = 0 := by rw [← copy.leaf, top]; rfl
    exact absurd (copy.among last) (by simp)
  constructor
  · exact fun q inUse => inUse
  · exact fun q _ _ => rfl
  · exact fun i _ => rfl
  · exact fun path a nonempty copied => absurd (copied_nil copied) nonempty
  · exact fun path t i g copy => absurd copy empty
  · exact fun path t i g copy => absurd copy empty
  · exact fun q _ _ => rfl
  · exact fun q _ => rfl

variable {i : Fin 512}

theorem Reaped.skip (reaped : Reaped kernel below s table done cur)
    (missing : entryTable (s.mem table i) = none) (absent : below = 0 → ¬ Present (s.mem table i)) :
    Reaped kernel below s table (done ++ [i]) cur := by
  have more := List.subset_append_left done [i]
  constructor
  · exact reaped.fewer
  · exact reaped.frame
  · exact fun j outside => reaped.pending j fun member => outside (more member)
  · exact fun path a nonempty copied short found =>
      reaped.tables path a nonempty (copied.skip missing found) short found
  · exact fun path t j g copy => reaped.shared path t j g (copy.skip missing absent)
  · exact fun path t j g copy => reaped.owned path t j g (copy.skip missing absent)
  · exact fun q notTable notPage => reaped.other q
      (fun path nonempty copied => notTable path nonempty (copied.mono more))
      fun high path t j copy => notPage high path t j (copy.mono more)
  · exact fun q notPage => reaped.uncounted q fun high path t j copy =>
      notPage high path t j (copy.mono more)

/-! ## A page -/

/-- The page of an entry has been given up: its count is lower by one if it was
shared, and it is given back to the allocator by its last user. -/
structure Released (kernel : Kernel) (s : State) (entry : Pte) (s' : State) : Prop where
  fewer : ∀ q, s'.inUse q = true → s.inUse q = true
  frame : ∀ q, s'.inUse q = s.inUse q → s'.mem q = s.mem q
  shared : kernel.endPhys ≤ entry &&& pteAddrMask → Cow entry →
    s'.refcount (entry &&& pteAddrMask) = s.refcount (entry &&& pteAddrMask) - 1#32 ∧
      s'.inUse (entry &&& pteAddrMask) = decide (s.refcount (entry &&& pteAddrMask) - 1#32 ≠ 0#32)
  owned : kernel.endPhys ≤ entry &&& pteAddrMask → ¬ Cow entry →
    s'.refcount (entry &&& pteAddrMask) = s.refcount (entry &&& pteAddrMask) ∧
      s'.inUse (entry &&& pteAddrMask) = decide (entry &&& pteAddrMask = kernel.endPhys)
  other : ∀ q, (kernel.endPhys ≤ q → q ≠ entry &&& pteAddrMask) →
    s'.inUse q = s.inUse q ∧ s'.refcount q = s.refcount q

theorem pmmFreePage_eq (nonzero : p ≠ 0#64) (held : s.inUse p = true) :
    pmmFreePage s p = .ok ({ s with inUse := update s.inUse p false }.setPage p
      fun _ => 0xBBBBBBBBBBBBBBBB#64) := by
  simp [pmmFreePage, nonzero, held]

theorem freed_fewer (after : update inUse p false q = true) : inUse q = true := by
  have other : q ≠ p := by
    rintro rfl
    simp at after
  rwa [update_of_ne other] at after

theorem freed_frame {mem : PhysMem} {words : Fin 512 → BitVec 64} (held : inUse p = true)
    (same : update inUse p false q = inUse q) : update mem p words q = mem q := by
  have other : q ≠ p := by
    rintro rfl
    simp [held] at same
  rw [update_of_ne other]

theorem cowHandleFree_spec (shared : Cow (s.mem table i))
    (held : kernel.endPhys ≤ s.mem table i &&& pteAddrMask → s.mem table i &&& pteAddrMask ≠ 0#64 ∧
      s.inUse (s.mem table i &&& pteAddrMask) = true) :
    ∃ s', cowHandleFree kernel s table i = .ok s' ∧ Released kernel s (s.mem table i) s' := by
  have asserted : kassert (s.mem table i &&& pageCow ≠ 0#64) "*pte & PAGE_COW" = .ok () :=
    kassert_eq_ok.mpr shared
  unfold cowHandleFree
  rw [asserted]
  simp only [bind, Except.bind]
  by_cases low : s.mem table i &&& pteAddrMask < kernel.endPhys
  · rw [if_pos low]
    refine ⟨s, rfl, fun q inUse => inUse, fun q _ => rfl, fun high => ?_, fun high => ?_,
      fun q _ => ⟨rfl, rfl⟩⟩ <;>
      exact absurd low (BitVec.not_lt.mpr high)
  · have high := BitVec.not_lt.mp low
    obtain ⟨nonzero, inUse⟩ := held high
    have different : ∀ q, (kernel.endPhys ≤ q → q ≠ s.mem table i &&& pteAddrMask) →
        q ≠ s.mem table i &&& pteAddrMask := fun q apart same => apart (same ▸ high) same
    rw [if_neg low]
    simp only [krefDecRead, if_neg nonzero]
    split
    case isTrue zero =>
      refine ⟨_, pmmFreePage_eq nonzero inUse, fun q => freed_fewer, fun q => freed_frame inUse,
        fun _ _ => ?_, fun _ owned => absurd shared owned, fun q apart => ?_⟩
      · simp [setPage, zero]
      · simp [setPage, different q apart]
    case isFalse more =>
      refine ⟨_, rfl, fun q inUse => inUse, fun q _ => rfl, fun _ _ => ?_,
        fun _ owned => absurd shared owned, fun q apart => ?_⟩
      · simp [more, inUse]
      · simp [different q apart]

theorem releasePage_spec (held : kernel.endPhys ≤ s.mem table i &&& pteAddrMask →
    s.mem table i &&& pteAddrMask ≠ 0#64 ∧
      s.inUse (s.mem table i &&& pteAddrMask) = true) :
    ∃ s', releasePage kernel s table i = .ok s' ∧ Released kernel s (s.mem table i) s' := by
  dsimp only [releasePage]
  split
  case isTrue shared => exact cowHandleFree_spec shared held
  case isFalse owned =>
    split
    case isTrue above =>
      have high := BitVec.le_of_lt above
      obtain ⟨nonzero, inUse⟩ := held high
      refine ⟨_, pmmFreePage_eq nonzero inUse, fun q => freed_fewer, fun q => freed_frame inUse,
        fun _ shared => absurd shared owned, fun _ _ => ?_, fun q apart => ?_⟩
      · simp [setPage, (BitVec.ne_of_lt above).symm]
      · have different : q ≠ s.mem table i &&& pteAddrMask := fun same => apart (same ▸ high) same
        simp [setPage, different]
    case isFalse notAbove =>
      refine ⟨s, rfl, fun q inUse => inUse, fun q _ => rfl, fun _ shared => absurd shared owned,
        fun high _ => ?_, fun q _ => ⟨rfl, rfl⟩⟩
      have same := BitVec.le_antisymm (BitVec.not_lt.mp notAbove) high
      have inUse := (held high).2
      rw [same] at inUse
      simp [same, inUse]

/-! ## A last-level table -/

theorem inUse_between {before between after : Bool} (fewer : between = true → before = true)
    (later : after = true → between = true) (same : after = before) :
    between = before ∧ after = between := by
  cases before <;> cases between <;> simp_all

theorem Reaped.page_pending (reapable : Reapable kernel below all s table)
    (reaped : Reaped kernel below s table done cur) (range : done ⊆ all)
    (copy : CopyAt all below s.mem table path t i g) (high : kernel.endPhys ≤ g)
    (new : ∀ t' i', ¬ CopyAt done below s.mem table path t' i' g ∨ i' ≠ i) :
    cur.inUse g = true ∧ cur.refcount g = s.refcount g := by
  obtain ⟨-, held, apart⟩ := reapable.pages path t i g copy high
  have pending : kernel.endPhys ≤ g → ∀ path' t' i', ¬ CopyAt done below s.mem table path' t' i' g := by
    intro _ path' t' i' copy'
    obtain ⟨rfl, rfl⟩ := reapable.once path t i path' t' i' g copy (copy'.mono range) high
    rcases new t' i with absent | other
    · exact absent copy'
    · exact other rfl
  have same :=
    reaped.other g (fun path' _ copied short found => apart path' (copied.mono range) short found) pending
  exact ⟨same.trans held, reaped.uncounted g pending⟩

theorem Reaped.leaf (reapable : Reapable kernel 0 all s table)
    (reaped : Reaped kernel 0 s table done cur) (range : done ⊆ all) (here : i ∈ all)
    (new : i ∉ done) (present : Present (s.mem table i)) :
    ∃ next, freeSinglePage kernel cur table i = .ok next ∧ Reaped kernel 0 s table (done ++ [i]) next := by
  have entry := reaped.pending i new
  have copy : CopyAt all 0 s.mem table [] table i (s.mem table i &&& pteAddrMask) :=
    ⟨trivial, rfl, rfl, fun _ => here, present, rfl⟩
  have now : CopyAt (done ++ [i]) 0 s.mem table [] table i (s.mem table i &&& pteAddrMask) :=
    ⟨trivial, rfl, rfl, by simp, present, rfl⟩
  have empty : ∀ {path : List (Fin 512)}, path.length ≤ 0 → path = [] := fun short =>
    List.eq_nil_of_length_eq_zero (by omega)
  have before : kernel.endPhys ≤ s.mem table i &&& pteAddrMask →
      cur.inUse (s.mem table i &&& pteAddrMask) = true ∧
        cur.refcount (s.mem table i &&& pteAddrMask) = s.refcount (s.mem table i &&& pteAddrMask) := by
    refine fun high => reaped.page_pending reapable range copy high fun t' i' => ?_
    rw [or_iff_not_imp_right, not_not]
    rintro rfl copy'
    exact new (copy'.among rfl)
  have held : kernel.endPhys ≤ cur.mem table i &&& pteAddrMask → cur.mem table i &&& pteAddrMask ≠ 0#64 ∧
      cur.inUse (cur.mem table i &&& pteAddrMask) = true := by
    rw [entry]
    exact fun high => ⟨(reapable.pages _ _ _ _ copy high).1, (before high).1⟩
  obtain ⟨mid, ran, released⟩ := releasePage_spec held
  rw [entry] at released
  have tableKept : mid.mem table = cur.mem table := by
    refine released.frame table (released.other table fun high same => ?_).1
    exact (reapable.pages _ _ _ _ copy (same ▸ high)).2.2 [] trivial (by simp) (by rw [← same]; rfl)
  -- an entry reaped before maps another page
  have last_or_earlier : ∀ {path t j g}, CopyAt (done ++ [i]) 0 s.mem table path t j g →
      kernel.endPhys ≤ g → table = t ∧ j = i ∧ s.mem table i &&& pteAddrMask = g ∨
      CopyAt done 0 s.mem table path t j g ∧ mid.inUse g = cur.inUse g ∧
        mid.refcount g = cur.refcount g := by
    intro path t j g found high
    obtain rfl := empty found.leaf.le
    by_cases last : j = i
    · subst last
      obtain rfl : table = t := Option.some.inj found.table
      exact .inl ⟨rfl, rfl, found.page⟩
    · have old : CopyAt done 0 s.mem table [] t j g :=
        ⟨trivial, found.leaf, found.table, fun _ => by simpa [last] using found.among rfl,
          found.present, found.page⟩
      refine .inr ⟨old, released.other g fun _ same => last ?_⟩
      subst same
      exact (reapable.once [] t j [] table i _ (old.mono range) copy high).2
  refine ⟨mid.setEntry table i 0#64, by rw [freeSinglePage, ran]; rfl, ?_⟩
  constructor
  · exact fun q inUse => reaped.fewer q (released.fewer q inUse)
  · intro q other same
    obtain ⟨first, second⟩ := inUse_between (reaped.fewer q) (released.fewer q) same
    rw [← reaped.frame q other first, ← released.frame q second]
    simp [setEntry, writeEntry, other]
  · intro j outside
    rw [List.mem_append, not_or, List.mem_singleton] at outside
    rw [← reaped.pending j outside.1, ← tableKept]
    exact writeEntry_of_ne _ _ (by simp [outside.2])
  · exact fun path a nonempty _ short _ => absurd (empty short) nonempty
  · intro path t j g found high cow
    obtain ⟨rfl, rfl, rfl⟩ | ⟨old, inUse, refcount⟩ := last_or_earlier found high
    · rw [← (before high).2]
      exact released.shared high cow
    · obtain ⟨count, freed⟩ := reaped.shared path t j g old high cow
      exact ⟨refcount.trans count, inUse.trans freed⟩
  · intro path t j g found high owned
    obtain ⟨rfl, rfl, rfl⟩ | ⟨old, inUse, refcount⟩ := last_or_earlier found high
    · rw [← (before high).2]
      exact released.owned high owned
    · obtain ⟨count, freed⟩ := reaped.owned path t j g old high owned
      exact ⟨refcount.trans count, inUse.trans freed⟩
  · intro q _ notPage
    have after := released.other q fun high same => notPage high [] table i (same ▸ now)
    refine after.1.trans (reaped.other q (fun path nonempty _ short _ => nonempty (empty short)) ?_)
    exact fun high path t j copy' => notPage high path t j (copy'.mono (List.subset_append_left _ _))
  · intro q notPage
    have after := released.other q fun high same => notPage high [] table i (same ▸ now)
    refine after.2.trans (reaped.uncounted q ?_)
    exact fun high path t j copy' => notPage high path t j (copy'.mono (List.subset_append_left _ _))

theorem reapPages_spec (reapable : Reapable kernel 0 (indices 512) s table) :
    ∃ s', reapPages kernel s table = .ok s' ∧ Reaped kernel 0 s table (indices 512) s' := by
  unfold reapPages
  refine loop_finishes (fun done cur => Reaped kernel 0 s table done cur) reaped_start ?_
  intro done i rest cur split reaped
  obtain ⟨within, here, new⟩ := loop_element (List.Subset.refl _) (indices_nodup _) split
  have entry := reaped.pending i new
  by_cases present : Present (s.mem table i)
  · rw [if_pos (entry ▸ present)]
    exact reaped.leaf reapable within here new present
  · rw [if_neg (entry ▸ present)]
    exact ⟨cur, rfl, reaped.skip (entryTable_absent present) fun _ => present⟩

/-! ## A table of an upper level -/

section Node
variable {lower : Nat} {i : Fin 512} {child : PhysAddr}

section

variable (reapable : Reapable kernel (lower + 1) all s table)
    (reaped : Reaped kernel (lower + 1) s table done cur) (range : done ⊆ all) (here : i ∈ all)
    (new : i ∉ done) (link : entryTable (s.mem table i) = some child)
include reapable reaped range here new link

theorem Reaped.below_old (short : rest.length ≤ lower) (found : tableAt s.mem table (i :: rest) = some a) :
    a ≠ table ∧ cur.inUse a = true ∧ cur.mem a = s.mem a := by
  have inside : Copied all s.mem table (i :: rest) := ⟨here, (entryTable_eq_some.mp link).1⟩
  have length : (i :: rest).length ≤ lower + 1 := by simpa using short
  have below : a ≠ table := by
    rintro rfl
    simpa using reapable.unique (i :: rest) [] a inside trivial length (by simp) found rfl
  have same := reaped.other a (fun path nonempty copied short' found' => by
      have equal := reapable.unique (i :: rest) path a inside (copied.mono range) length short' found found'
      rw [← equal] at copied
      exact new copied.1) (fun high path t j copy => by
      exact (reapable.pages path t j a (copy.mono range) high).2.2 (i :: rest) inside length found)
  exact ⟨below, same.trans (reapable.tables (i :: rest) a inside length found).2, reaped.frame a below same⟩

theorem Reaped.subtree (short : rest.length ≤ lower) :
    tableAt cur.mem child rest = tableAt s.mem table (i :: rest) :=
  subtree_kept link
    (fun short found => (reaped.below_old reapable range here new link short found).2.2) short

theorem Reaped.copyAt_iff (among : i ∈ done') :
    CopyAt (indices 512) lower cur.mem child rest t j g ↔
      CopyAt done' (lower + 1) s.mem table (i :: rest) t j g :=
  copyAt_child (fun j => mem_indices.mpr j.isLt) link among fun short found =>
    (reaped.below_old reapable range here new link short found).2.2

theorem Reaped.child_reapable : Reapable kernel lower (indices 512) cur child := by
  have inside : ∀ rest, Copied all s.mem table (i :: rest) :=
    fun rest => ⟨here, (entryTable_eq_some.mp link).1⟩
  have subtree : ∀ {rest a}, rest.length ≤ lower → tableAt cur.mem child rest = some a →
      tableAt s.mem table (i :: rest) = some a := fun short found =>
    (reaped.subtree reapable range here new link short).symm.trans found
  have outer : ∀ {rest t j g}, CopyAt (indices 512) lower cur.mem child rest t j g →
      CopyAt all (lower + 1) s.mem table (i :: rest) t j g :=
        (reaped.copyAt_iff reapable range here new link here).mp
  constructor
  · intro path path' a _ _ short short' found found'
    have same :=
      reapable.unique (i :: path) (i :: path') a (inside path) (inside path') (by simpa using short)
      (by simpa using short') (subtree short found) (subtree short' found')
    exact (List.cons.inj same).2
  · intro path a _ short found
    have above := subtree short found
    exact ⟨(reapable.tables (i :: path) a (inside path) (by simpa using short) above).1,
      (reaped.below_old reapable range here new link short above).2.1⟩
  · intro path t j g copy high
    obtain ⟨nonzero, -, apart⟩ := reapable.pages (i :: path) t j g (outer copy) high
    refine ⟨nonzero, (reaped.page_pending reapable range (outer copy) high fun t' j' => .inl ?_).1, ?_⟩
    · exact fun earlier => new earlier.copied.1
    · exact fun path' _ short found => apart (i :: path') (inside path') (by simpa using short)
        (subtree short found)
  · intro path t j path' t' j' g copy copy' high
    obtain ⟨same, index⟩ := reapable.once _ t j _ t' j' g (outer copy) (outer copy') high
    exact ⟨(List.cons.inj same).2, index⟩

end

structure ReapStep (kernel : Kernel) (lower : Nat) (all : List (Fin 512)) (s : State)
    (table : PhysAddr) (done : List (Fin 512)) (cur : State) (i : Fin 512) (child : PhysAddr)
    (mid : State) : Prop where
  reapable : Reapable kernel (lower + 1) all s table
  reaped : Reaped kernel (lower + 1) s table done cur
  range : done ⊆ all
  here : i ∈ all
  new : i ∉ done
  link : entryTable (s.mem table i) = some child
  finished : Reaped kernel lower cur child (indices 512) mid

section Step
variable {mid : State} (step : ReapStep kernel lower all s table done cur i child mid)
include step

theorem ReapStep.copied (among : i ∈ done') (rest : List (Fin 512)) :
    Copied done' s.mem table (i :: rest) :=
  ⟨among, (entryTable_eq_some.mp step.link).1⟩

theorem ReapStep.subtree (short : rest.length ≤ lower) :
    tableAt cur.mem child rest = tableAt s.mem table (i :: rest) :=
  step.reaped.subtree step.reapable step.range step.here step.new step.link short

theorem ReapStep.copyAt_iff (among : i ∈ done') :
    CopyAt (indices 512) lower cur.mem child rest t j g ↔
      CopyAt done' (lower + 1) s.mem table (i :: rest) t j g :=
  step.reaped.copyAt_iff step.reapable step.range step.here step.new step.link among

theorem ReapStep.below_old (short : rest.length ≤ lower)
    (found : tableAt s.mem table (i :: rest) = some a) :
    a ≠ table ∧ cur.inUse a = true ∧ cur.mem a = s.mem a :=
  step.reaped.below_old step.reapable step.range step.here step.new step.link short found

theorem ReapStep.child_found : tableAt s.mem table [i] = some child := by
  rw [tableAt_child step.link]
  rfl

theorem ReapStep.child_held : child ≠ table ∧ mid.inUse child = true := by
  have reapable := step.reaped.child_reapable step.reapable step.range step.here step.new step.link
  obtain ⟨apart, inUse, -⟩ := step.below_old (by simp) step.child_found
  refine ⟨apart, ?_⟩
  rw [step.finished.other child (fun path nonempty copied short found => ?_) fun high path t j copy => ?_]
  · exact inUse
  · exact nonempty (reapable.unique path [] child copied trivial short (by simp) found rfl)
  · exact (reapable.pages path t j child copy high).2.2 [] trivial (by simp) rfl

theorem ReapStep.table_kept : mid.mem table = cur.mem table := by
  refine step.finished.frame table step.child_held.1.symm
    (step.finished.other table (fun path _ _ short found => ?_) fun high path t j copy => ?_)
  · exact (step.below_old short ((step.subtree short).symm.trans found)).1 rfl
  · exact (step.reapable.pages _ t j table ((step.copyAt_iff step.here).mp copy) high).2.2 []
      trivial (by simp) rfl

theorem ReapStep.page (copy : CopyAt (done ++ [i]) (lower + 1) s.mem table path t j g)
    (high : kernel.endPhys ≤ g) :
    g ≠ child ∧ (CopyAt done (lower + 1) s.mem table path t j g ∧ mid.inUse g = cur.inUse g ∧
        mid.refcount g = cur.refcount g ∨
      ∃ rest, CopyAt (indices 512) lower cur.mem child rest t j g ∧ cur.mem t = s.mem t ∧
        cur.refcount g = s.refcount g) := by
  rcases copied_append copy.copied copy.leaf.le with old | ⟨rest, rfl, shorter⟩
  · have earlier : CopyAt done (lower + 1) s.mem table path t j g :=
      ⟨old, copy.leaf, copy.table, by simp, copy.present, copy.page⟩
    obtain ⟨-, -, apart⟩ := step.reapable.pages path t j g (earlier.mono step.range) high
    refine ⟨fun same => apart [i] (step.copied step.here []) (by simp) (same ▸ step.child_found),
      .inl ⟨earlier, ?_⟩⟩
    have elsewhere : kernel.endPhys ≤ g → ∀ path' t' j',
        ¬ CopyAt (indices 512) lower cur.mem child path' t' j' g := by
      intro _ path' t' j' copy'
      have same := (step.reapable.once _ t' j' path t j g ((step.copyAt_iff step.here).mp copy')
        (earlier.mono step.range) high).1
      rw [← same] at old
      exact step.new old.1
    refine ⟨step.finished.other g (fun path' _ _ short found => ?_) elsewhere,
      step.finished.uncounted g elsewhere⟩
    exact apart (i :: path') (step.copied step.here path') (by simpa using short)
      ((step.subtree short).symm.trans found)
  · have below := (step.copyAt_iff (by simp)).mpr copy
    have outer := (step.copyAt_iff step.here).mp below
    obtain ⟨-, -, apart⟩ := step.reapable.pages _ t j g outer high
    refine ⟨fun same => apart [i] (step.copied step.here []) (by simp) (same ▸ step.child_found),
      .inr ⟨rest, below, (step.below_old shorter copy.table).2.2, ?_⟩⟩
    exact (step.reaped.page_pending step.reapable step.range outer high fun t' j' => .inl fun earlier =>
      step.new earlier.copied.1).2

theorem ReapStep.table_gone (nonempty : path ≠ []) (copied : Copied (done ++ [i]) s.mem table path)
    (short : path.length ≤ lower + 1) (found : tableAt s.mem table path = some a) :
    mid.inUse a = false ∨ a = child := by
  rcases copied_append copied short with old | ⟨rest, rfl, shorter⟩
  · have earlier := step.reaped.tables path a nonempty old short found
    refine .inl (Bool.eq_false_iff.mpr fun after => ?_)
    simp [step.finished.fewer a after] at earlier
  · by_cases top : rest = []
    · subst top
      exact .inr (Option.some.inj (found.symm.trans step.child_found))
    · have below := (step.subtree shorter).trans found
      have all : ∀ j, j ∈ indices 512 := fun j => mem_indices.mpr j.isLt
      exact .inl (step.finished.tables rest a top (tableAt_copied all below) shorter below)

theorem ReapStep.reaped_next : ∃ given, pmmFreePage mid child = .ok given ∧
    Reaped kernel (lower + 1) s table (done ++ [i]) (given.setEntry table i 0#64) := by
  have more := List.subset_append_left done [i]
  have reaped := step.reaped
  have finished := step.finished
  obtain ⟨childApart, held⟩ := step.child_held
  refine ⟨_, pmmFreePage_eq (entryTable_eq_some.mp step.link).2.1 held, ?_⟩
  constructor
  · exact fun q after => reaped.fewer q (finished.fewer q (freed_fewer after))
  · intro q other same
    have before : q ≠ child := by
      rintro rfl
      have start := (step.reapable.tables [i] q (step.copied step.here []) (by simp) step.child_found).2
      simp [setPage, setEntry, start] at same
    have same : mid.inUse q = s.inUse q := by simpa [setPage, setEntry, before] using same
    obtain ⟨first, second⟩ := inUse_between (reaped.fewer q) (finished.fewer q) same
    rw [← reaped.frame q other first, ← finished.frame q before second]
    simp [setPage, setEntry, writeEntry, before, other]
  · intro j outside
    rw [List.mem_append, not_or, List.mem_singleton] at outside
    rw [← reaped.pending j outside.1, ← step.table_kept]
    simp [setPage, setEntry, writeEntry, childApart.symm, outside.2]
  · intro path a nonempty copied short found
    rcases step.table_gone nonempty copied short found with gone | rfl
    · by_cases same : a = child <;> simp [setPage, setEntry, gone, same]
    · simp [setPage, setEntry]
  · intro path t j g copy high cow
    obtain ⟨apart, ⟨earlier, inUse, refcount⟩ | ⟨rest, below, same, before⟩⟩ := step.page copy high
    · obtain ⟨count, freed⟩ := reaped.shared path t j g earlier high cow
      simp [setPage, setEntry, apart, inUse, refcount, count, freed]
    · obtain ⟨count, freed⟩ := finished.shared rest t j g below high (same ▸ cow)
      simp [setPage, setEntry, apart, count, freed, before]
  · intro path t j g copy high owned
    obtain ⟨apart, ⟨earlier, inUse, refcount⟩ | ⟨rest, below, same, before⟩⟩ := step.page copy high
    · obtain ⟨count, freed⟩ := reaped.owned path t j g earlier high owned
      simp [setPage, setEntry, apart, inUse, refcount, count, freed]
    · obtain ⟨count, freed⟩ := finished.owned rest t j g below high (same ▸ owned)
      simp [setPage, setEntry, apart, count, freed, before]
  · intro q notTable notPage
    have apart : q ≠ child := by
      rintro rfl
      exact notTable [i] (by simp) (step.copied (by simp) []) (by simp) step.child_found
    have first := reaped.other q (fun path nonempty copied => notTable path nonempty (copied.mono more))
      fun high path t j copy => notPage high path t j (copy.mono more)
    have second := finished.other q (fun path _ _ short found =>
        notTable (i :: path) (by simp) (step.copied (by simp) path) (by simpa using short)
          ((step.subtree short).symm.trans found))
      fun high path t j copy => notPage high _ t j ((step.copyAt_iff (by simp)).mp copy)
    simp [apart, first, second]
  · intro q notPage
    have first := reaped.uncounted q fun high path t j copy => notPage high path t j (copy.mono more)
    have second := finished.uncounted q fun high path t j copy =>
      notPage high _ t j ((step.copyAt_iff (by simp)).mp copy)
    simp [first, second]

end Step

end Node

theorem reapTables_spec {lower limit : Nat} {inner : State → PhysAddr → Except Fault State}
    (below : ∀ {s table}, Reapable kernel lower (indices 512) s table →
      ∃ s', inner s table = .ok s' ∧ Reaped kernel lower s table (indices 512) s')
    (reapable : Reapable kernel (lower + 1) (indices limit) s table) :
    ∃ s', reapTables inner limit s table = .ok s' ∧
      Reaped kernel (lower + 1) s table (indices limit) s' := by
  unfold reapTables
  refine loop_finishes (fun done cur => Reaped kernel (lower + 1) s table done cur) reaped_start ?_
  intro done i rest cur split reaped
  obtain ⟨within, here, new⟩ := loop_element (List.Subset.refl _) (indices_nodup _) split
  have entry : pgtabExtract cur.mem table i = entryTable (s.mem table i) := by
    rw [pgtabExtract, reaped.pending i new]
  cases link : entryTable (s.mem table i) with
  | none =>
    rw [entry, link]
    exact ⟨cur, rfl, reaped.skip link (by simp)⟩
  | some child =>
    obtain ⟨mid, ran, finished⟩ := below (reaped.child_reapable reapable within here new link)
    have step : ReapStep kernel lower (indices limit) s table done cur i child mid :=
      ⟨reapable, reaped, within, here, new, link, finished⟩
    obtain ⟨given, freed, after⟩ := step.reaped_next
    refine ⟨_, ?_, after⟩
    rw [entry, link]
    simp only [ran, freed, bind, Except.bind, pure, Except.pure]

/-- Reaping an address space never fails and ends with its top-level table given back. -/
theorem mmuReap_spec {p4 : PhysAddr} (reapable : Reapable kernel 3 (indices 128) s p4) :
    ∃ mid s', mmuReap kernel s p4 = .ok s' ∧ Reaped kernel 3 s p4 (indices 128) mid ∧ mid.inUse p4 = true ∧
      s' = { mid with inUse := update mid.inUse p4 false }.setPage p4 fun _ => 0xBBBBBBBBBBBBBBBB#64 := by
  obtain ⟨mid, ran, reaped⟩ := reapTables_spec (reapTables_spec (reapTables_spec reapPages_spec)) reapable
  have held : mid.inUse p4 = true := by
    rw [reaped.other p4 (fun path nonempty copied short found => ?_) fun high path t j copy => ?_]
    · exact (reapable.tables [] p4 trivial (by simp) rfl).2
    · exact nonempty (reapable.unique path [] p4 copied trivial short (by simp) found rfl)
    · exact (reapable.pages path t j p4 copy high).2.2 [] trivial (by simp) rfl
  refine ⟨mid, _, ?_, reaped, held, rfl⟩
  simp only [mmuReap, ran, bind, Except.bind]
  exact pmmFreePage_eq (reapable.tables [] p4 trivial (by simp) rfl).1 held

end

end ByteOS.Mm
