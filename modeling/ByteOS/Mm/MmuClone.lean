import ByteOS.Mm.Mmu
import ByteOS.Mm.VmmMap
import Mathlib.Order.Fin.Basic

/-! What `clone_pgtab` builds.

`Cloned` relates the state before a call with a state of its loop, or with the
state after it. The new tables are fresh pages and mirror the old ones path by
path; of the old tables only the entries of the last level change, which lose
write access and are marked for copying.
-/

set_option autoImplicit false

namespace ByteOS.Mm

open ByteOS.Lib
open Function (update)

/-! ## Entries -/

def Present (entry : Pte) : Prop := entry &&& pagePresent ≠ 0#64

instance : DecidablePred Present := fun entry => inferInstanceAs (Decidable (entry &&& pagePresent ≠ 0#64))

def Cow (entry : Pte) : Prop := entry &&& pageCow ≠ 0#64

instance : DecidablePred Cow := fun entry => inferInstanceAs (Decidable (entry &&& pageCow ≠ 0#64))

def Writable (entry : Pte) : Prop := entry &&& pageWritable ≠ 0#64

instance : DecidablePred Writable :=
  fun entry => inferInstanceAs (Decidable (entry &&& pageWritable ≠ 0#64))

/-- What `cow_copy_pte` makes of an entry. -/
def markCow (entry : Pte) : Pte :=
  if entry &&& pageCow = 0#64 then (entry &&& ~~~pageWritable) ||| pageCow else entry

variable {entry : Pte} {a p table b t q : PhysAddr} {index : Fin 512} {mem : PhysMem}

theorem entryTable_eq_some : entryTable entry = some a ↔ Present entry ∧ a ≠ 0#64 ∧
    entry &&& pteAddrMask = a := by
  unfold entryTable Present
  split_ifs with absent null
  · simp [absent]
  · simp only [ne_eq, false_iff, not_and]
    rintro - nonzero rfl
    exact nonzero null
  · simp only [Option.some.injEq]
    constructor
    · rintro rfl
      exact ⟨absent, null, rfl⟩
    · exact fun link => link.2.2

theorem entryTable_absent (absent : ¬ Present entry) : entryTable entry = none := by
  simp only [Present, ne_eq, not_not] at absent
  simp [entryTable, absent]

theorem entryTable_relink {copy : Pte} (present : Present entry) (usable : Usable copy) :
    entryTable (copy ||| (entry &&& ~~~pteAddrMask)) = some copy := by
  have clear : (entry &&& ~~~pteAddrMask) &&& pteAddrMask = 0#64 := by
    rw [BitVec.and_assoc]
    have disjoint : ~~~pteAddrMask &&& pteAddrMask = 0#64 := by decide
    rw [disjoint, BitVec.and_zero]
  have bit : (entry &&& ~~~pteAddrMask) &&& pagePresent ≠ 0#64 := by
    rw [BitVec.and_assoc]
    have kept : ~~~pteAddrMask &&& pagePresent = pagePresent := by decide
    rwa [kept]
  have link := entryTable_link usable clear bit
  rwa [usable.1] at link

/-! ## Allocation and single entries -/

section
variable {kernel : Kernel} {s s' : State}

theorem pmmAllocPage_cases (ran : pmmAllocPage s = .ok (p, s')) :
    s.supply = p :: s'.supply ∧ s'.refcount = s.refcount ∧ s'.inUse = update s.inUse p true ∧
      s'.mem = update s.mem p fun _ => 0xBBBBBBBBBBBBBBBB#64 := by
  cases supply : s.supply with
  | nil => simp [pmmAllocPage, State.takePage, supply, bind, Except.bind] at ran
  | cons q rest =>
    simp only [pmmAllocPage, State.takePage, supply, bind, Except.bind, pure, Except.pure,
      Except.ok.injEq, Prod.mk.injEq] at ran
    obtain ⟨rfl, rfl⟩ := ran
    exact ⟨rfl, rfl, rfl, rfl⟩

def cloneBase (kernel : Kernel) (below : Nat) (s : State) (i : Fin 512) : Pte :=
  if below = 3 then s.mem kernel.p4 i else 0#64

theorem cloneRoot_cases {below : Nat} {rv : PhysAddr} (ran : cloneRoot kernel below s = .ok (rv, s')) :
    s.supply = rv :: s'.supply ∧ s'.refcount = s.refcount ∧ s'.inUse = update s.inUse rv true ∧
      (∀ q, q ≠ rv → s'.mem q = s.mem q) ∧
      ((below = 3 → kernel.p4 ≠ rv) → s'.mem rv = cloneBase kernel below s) := by
  unfold cloneRoot at ran
  obtain ⟨⟨p, s₁⟩, allocated, ran⟩ := bind_eq_ok.mp ran
  obtain ⟨supply, refcount, inUse, memory⟩ := pmmAllocPage_cases allocated
  cases ran
  by_cases top : below = 3
  all_goals
    refine ⟨by simp [top, State.setPage, supply], by simp [top, State.setPage, refcount],
      by simp [top, State.setPage, inUse], ?_, ?_⟩
    · intro q other
      simp [top, State.setPage, memory, other]
    · intro apart
      funext i
      simp [top, State.setPage, memory, cloneBase, apart]

theorem krefIncRead_cases {page : PhysAddr} {count : BitVec 32}
    (ran : krefIncRead s page = .ok (count, s')) : page ≠ 0#64 ∧ count = s.refcount page + 1#32 ∧
      s' = { s with refcount := update s.refcount page (s.refcount page + 1#32) } := by
  unfold krefIncRead at ran
  split at ran
  case isTrue null => simp at ran
  case isFalse nonzero =>
    cases ran
    exact ⟨nonzero, rfl, rfl⟩

theorem cowMarkSource_cases (ran : cowMarkSource s table index = .ok s') :
    s'.supply = s.supply ∧ s'.inUse = s.inUse ∧
      s'.mem = writeEntry s.mem table index (markCow (s.mem table index)) ∧
      s'.refcount = update s.refcount (s.mem table index &&& pteAddrMask)
        (s.refcount (s.mem table index &&& pteAddrMask) +
          if s.mem table index &&& pageCow = 0#64 then 1#32 else 0#32) := by
  dsimp only [cowMarkSource] at ran
  split at ran
  case isTrue fresh =>
    obtain ⟨⟨first, s₁⟩, counted, same⟩ := bind_eq_ok.mp ran
    obtain ⟨-, rfl, rfl⟩ := krefIncRead_cases counted
    cases same
    simp [State.setEntry, markCow, fresh]
  case isFalse shared =>
    obtain ⟨-, -, same⟩ := bind_eq_ok.mp ran
    cases same
    refine ⟨rfl, rfl, ?_, by simp [shared]⟩
    simp [writeEntry, markCow, shared]

/-- The source slot is marked, the copy is the marked entry, and the page has one
sharer more, or two when it had none before. -/
theorem cowCopyPte_cases {dest : Pte} (ran : cowCopyPte s table index = .ok (dest, s')) :
    dest = markCow (s.mem table index) ∧ s'.supply = s.supply ∧ s'.inUse = s.inUse ∧
      s'.mem = writeEntry s.mem table index (markCow (s.mem table index)) ∧
      s'.refcount = update s.refcount (s.mem table index &&& pteAddrMask)
        (s.refcount (s.mem table index &&& pteAddrMask) +
          if s.mem table index &&& pageCow = 0#64 then 2#32 else 1#32) := by
  unfold cowCopyPte at ran
  obtain ⟨s₁, marked, ran⟩ := bind_eq_ok.mp ran
  obtain ⟨⟨count, s₂⟩, counted, ran⟩ := bind_eq_ok.mp ran
  obtain ⟨-, rfl, rfl⟩ := krefIncRead_cases counted
  obtain ⟨supply, inUse, memory, refcount⟩ := cowMarkSource_cases marked
  dsimp only at ran
  split at ran
  case isTrue zero => simp at ran
  case isFalse nonzero =>
    cases ran
    refine ⟨by rw [memory, writeEntry_self], supply, inUse, memory, ?_⟩
    simp only [refcount, Function.update_self, Function.update_idem]
    congr 1
    split <;> rw [BitVec.add_assoc] <;> rfl

end

/-! ## The copy of a tree of tables -/

/-- The paths into a tree whose first entry is present and among those done. -/
def Copied (done : List (Fin 512)) (mem : PhysMem) (pgtab : PhysAddr) : List (Fin 512) → Prop
  | [] => True
  | i :: _ => i ∈ done ∧ Present (mem pgtab i)

/-- What a call of `clone_pgtab` relies on: the tables to be copied are distinct,
and the allocator returns distinct pages that are none of them. -/
structure Clonable (kernel : Kernel) (below : Nat) (s : State) (pgtab : PhysAddr) : Prop where
  unique : ∀ path path' a, Copied (indices (cloneLimit below)) s.mem pgtab path →
    Copied (indices (cloneLimit below)) s.mem pgtab path' → path.length ≤ below → path'.length ≤ below →
    tableAt s.mem pgtab path = some a → tableAt s.mem pgtab path' = some a → path = path'
  usable : ∀ p ∈ s.supply, Usable p
  distinct : s.supply.Nodup
  fresh : ∀ p ∈ s.supply, ∀ path, Copied (indices (cloneLimit below)) s.mem pgtab path →
    path.length ≤ below → tableAt s.mem pgtab path ≠ some p
  kernel : below = 3 → kernel.p4 ∉ s.supply

/-- The entries `done` of the table `pgtab` have been copied to `rv`, with the
tables below them, into the pages `used`. -/
structure Cloned (kernel : Kernel) (below : Nat) (s : State) (pgtab : PhysAddr)
    (done : List (Fin 512)) (rv : PhysAddr) (s' : State) (used : List PhysAddr) : Prop where
  supply : s.supply = used ++ s'.supply
  root : rv ∈ used
  inUse : ∀ p, s'.inUse p = (s.inUse p || decide (p ∈ used))
  frame : ∀ q, q ∉ used → (∀ path, Copied done s.mem pgtab path → path.length = below →
    tableAt s.mem pgtab path ≠ some q) → s'.mem q = s.mem q
  source : ∀ path t i, Copied done s.mem pgtab path → path.length = below →
    tableAt s.mem pgtab path = some t →
    s'.mem t i = if (below = 0 → i ∈ done) ∧ Present (s.mem t i) then markCow (s.mem t i) else s.mem t i
  base : ∀ i, ¬ Copied done s.mem pgtab [i] → s'.mem rv i = cloneBase kernel below s i
  missing : ∀ path, Copied done s.mem pgtab path → path.length ≤ below →
    tableAt s.mem pgtab path = none → tableAt s'.mem rv path = none
  copies : ∀ path t, Copied done s.mem pgtab path → path.length ≤ below →
    tableAt s.mem pgtab path = some t →
    ∃ b ∈ used, tableAt s'.mem rv path = some b ∧ (path.length = below → ∀ i, s'.mem b i =
      if (below = 0 → i ∈ done) ∧ Present (s.mem t i) then markCow (s.mem t i) else 0#64)
  unique : ∀ path path' b, Copied done s.mem pgtab path → Copied done s.mem pgtab path' →
    path.length ≤ below → path'.length ≤ below → tableAt s'.mem rv path = some b →
    tableAt s'.mem rv path' = some b → path = path'
  tight : ∀ q ∈ used, ∃ path, Copied done s.mem pgtab path ∧ path.length ≤ below ∧
    tableAt s'.mem rv path = some q

variable {path rest : List (Fin 512)}

section
variable {kernel : Kernel} {below : Nat} {s cur next : State} {pgtab rv : PhysAddr}
  {done : List (Fin 512)} {used : List PhysAddr}

theorem copied_nil (copied : Copied [] s.mem pgtab path) : path = [] := by
  cases path with
  | nil => rfl
  | cons i rest => simp [Copied] at copied

theorem Copied.mono {done' : List (Fin 512)} (copied : Copied done s.mem pgtab path)
    (more : done ⊆ done') : Copied done' s.mem pgtab path := by
  cases path with
  | nil => trivial
  | cons i rest => exact ⟨more copied.1, copied.2⟩

theorem Copied.shorten {before : List (Fin 512)} (copied : Copied done s.mem pgtab path)
    (front : before <+: path) : Copied done s.mem pgtab before := by
  cases before with
  | nil => trivial
  | cons i rest =>
    obtain ⟨more, rfl⟩ := front
    exact copied

theorem Cloned.table_mem (cloned : Cloned kernel below s pgtab done rv cur used)
    (copied : Copied done s.mem pgtab path) (short : path.length ≤ below)
    (found : tableAt cur.mem rv path = some b) : b ∈ used := by
  cases old : tableAt s.mem pgtab path with
  | none => simp [cloned.missing path copied short old] at found
  | some t =>
    obtain ⟨b', member, found', -⟩ := cloned.copies path t copied short old
    rwa [Option.some.inj (found.symm.trans found')]

theorem Cloned.used_subset (cloned : Cloned kernel below s pgtab done rv cur used)
    (member : p ∈ used) : p ∈ s.supply := by
  rw [cloned.supply]
  exact List.mem_append_left _ member

theorem cloned_start (clonable : Clonable kernel below s pgtab)
    (ran : cloneRoot kernel below s = .ok (rv, cur)) : Cloned kernel below s pgtab [] rv cur [rv] := by
  obtain ⟨supply, -, inUse, elsewhere, root⟩ := cloneRoot_cases ran
  have member : rv ∈ s.supply := by simp [supply]
  have entries : cur.mem rv = cloneBase kernel below s := root fun top same =>
    clonable.kernel top (same ▸ member)
  have apart : pgtab ≠ rv := by
    rintro rfl
    exact clonable.fresh pgtab member [] trivial (by simp) rfl
  constructor
  · simp [supply]
  · simp
  · intro p
    by_cases here : p = rv <;> simp [inUse, here]
  · intro q other _
    exact elsewhere q (by simpa using other)
  · intro path t i copied leaf found
    obtain rfl := copied_nil copied
    obtain rfl : pgtab = t := Option.some.inj found
    rw [elsewhere pgtab apart, if_neg]
    rintro ⟨among, -⟩
    simpa using among leaf.symm
  · intro i _
    rw [entries]
  · intro path copied _ missing
    obtain rfl := copied_nil copied
    simp at missing
  · intro path t copied _ found
    obtain rfl := copied_nil copied
    refine ⟨rv, by simp, rfl, fun leaf i => ?_⟩
    have last : below = 0 := leaf.symm
    rw [entries, if_neg]
    · simp [cloneBase, last]
    · rintro ⟨among, -⟩
      simpa using among last
  · intro path path' b copied copied' _ _ _ _
    rw [copied_nil copied, copied_nil copied']
  · intro q member
    rw [List.mem_singleton.mp member]
    exact ⟨[], trivial, Nat.zero_le _, rfl⟩

variable {i : Fin 512} {lower : Nat}

theorem copied_append (copied : Copied (done ++ [i]) s.mem pgtab path)
    (short : path.length ≤ lower + 1) :
    Copied done s.mem pgtab path ∨ ∃ rest, path = i :: rest ∧ rest.length ≤ lower := by
  cases path with
  | nil => exact .inl trivial
  | cons j rest =>
    rcases List.mem_append.mp copied.1 with member | last
    · exact .inl ⟨member, copied.2⟩
    · obtain rfl : j = i := by simpa using last
      exact .inr ⟨rest, rfl, by simpa using short⟩

theorem Cloned.skip (cloned : Cloned kernel below s pgtab done rv cur used)
    (absent : ¬ Present (s.mem pgtab i)) : Cloned kernel below s pgtab (done ++ [i]) rv cur used := by
  have same : ∀ path, Copied (done ++ [i]) s.mem pgtab path → Copied done s.mem pgtab path := by
    intro path copied
    obtain old | ⟨rest, rfl, -⟩ := copied_append copied (Nat.le_succ _)
    · exact old
    · exact absurd copied.2 absent
  have more : ∀ path, Copied done s.mem pgtab path → Copied (done ++ [i]) s.mem pgtab path :=
    fun path copied => copied.mono (List.subset_append_left _ _)
  -- at the last level the entry itself is the one passed over
  have among : ∀ path t j, path.length = below → tableAt s.mem pgtab path = some t →
      ((below = 0 → j ∈ done ++ [i]) ∧ Present (s.mem t j) ↔ (below = 0 → j ∈ done) ∧
        Present (s.mem t j)) := by
    intro path t j leaf found
    refine and_congr_left fun present => imp_congr_right fun last => ?_
    rw [List.mem_append, List.mem_singleton, or_iff_left]
    rintro rfl
    obtain rfl : path = [] := List.eq_nil_of_length_eq_zero (by omega)
    obtain rfl : pgtab = t := Option.some.inj found
    exact absent present
  constructor
  · exact cloned.supply
  · exact cloned.root
  · exact cloned.inUse
  · exact fun q unused other => cloned.frame q unused fun path copied => other path (more path copied)
  · intro path t j copied leaf found
    rw [cloned.source path t j (same path copied) leaf found]
    simp only [among path t j leaf found]
  · exact fun j other => cloned.base j fun copied => other (more [j] copied)
  · exact fun path copied => cloned.missing path (same path copied)
  · intro path t copied short found
    obtain ⟨b, member, link, content⟩ := cloned.copies path t (same path copied) short found
    refine ⟨b, member, link, fun leaf j => ?_⟩
    rw [content leaf j]
    simp only [among path t j leaf found]
  · exact fun path path' b copied copied' =>
      cloned.unique path path' b (same path copied) (same path' copied')
  · intro q member
    obtain ⟨path, copied, both⟩ := cloned.tight q member
    exact ⟨path, more path copied, both⟩

theorem Cloned.leaf (clonable : Clonable kernel 0 s pgtab)
    (cloned : Cloned kernel 0 s pgtab done rv cur used) (new : i ∉ done)
    (present : Present (s.mem pgtab i)) (supply : next.supply = cur.supply)
    (inUse : next.inUse = cur.inUse)
    (memory : next.mem = writeEntry (writeEntry cur.mem pgtab i (markCow (s.mem pgtab i))) rv i
      (markCow (s.mem pgtab i))) : Cloned kernel 0 s pgtab (done ++ [i]) rv next used := by
  have empty : ∀ path : List (Fin 512), path.length ≤ 0 → path = [] := fun path short =>
    List.eq_nil_of_length_eq_zero (by omega)
  have apart : pgtab ≠ rv := by
    rintro rfl
    exact clonable.fresh pgtab (cloned.used_subset cloned.root) [] trivial (by simp) rfl
  constructor
  · rw [supply]
    exact cloned.supply
  · exact cloned.root
  · rw [inUse]
    exact cloned.inUse
  · intro q unused other
    have notSource : q ≠ pgtab := fun same => other [] trivial rfl (by rw [same]; rfl)
    have notCopy : q ≠ rv := by
      rintro rfl
      exact unused cloned.root
    rw [← cloned.frame q unused fun path copied leaf found => ?_]
    · simp [memory, writeEntry, notSource, notCopy]
    · obtain rfl := empty path (by omega)
      exact notSource (Option.some.inj found).symm
  · intro path t j copied leaf found
    obtain rfl := empty path (by omega)
    obtain rfl : pgtab = t := Option.some.inj found
    have old := cloned.source [] pgtab j trivial rfl rfl
    by_cases here : j = i
    · subst here
      rw [memory, writeEntry_of_ne _ _ (by simp [apart]), writeEntry_self, if_pos]
      exact ⟨fun _ => by simp, present⟩
    · rw [memory, writeEntry_of_ne _ _ (by simp [apart]), writeEntry_of_ne _ _ (by simp [here]), old]
      simp [here]
  · intro j other
    have differs : j ≠ i := by
      rintro rfl
      exact other ⟨by simp, present⟩
    rw [memory, writeEntry_of_ne _ _ (by simp [differs]), writeEntry_of_ne _ _ (by simp [differs])]
    exact cloned.base j fun copied => other (copied.mono (List.subset_append_left _ _))
  · intro path copied short missing
    obtain rfl := empty path short
    simp at missing
  · intro path t copied short found
    obtain rfl := empty path short
    obtain rfl : pgtab = t := Option.some.inj found
    obtain ⟨b, member, link, content⟩ := cloned.copies [] pgtab trivial short found
    obtain rfl : rv = b := Option.some.inj link
    refine ⟨rv, member, rfl, fun leaf j => ?_⟩
    by_cases here : j = i
    · subst here
      rw [memory, writeEntry_self, if_pos]
      exact ⟨fun _ => by simp, present⟩
    · rw [memory, writeEntry_of_ne _ _ (by simp [here]), writeEntry_of_ne _ _ (by simp [here]),
        content leaf j]
      simp [here]
  · intro path path' b copied copied' short short' _ _
    rw [empty path short, empty path' short']
  · intro q member
    obtain ⟨path, -, short, found⟩ := cloned.tight q member
    obtain rfl := empty path short
    exact ⟨[], trivial, short, found⟩

/-! ## One entry of an upper level -/

theorem Cloned.untouched (clonable : Clonable kernel (lower + 1) s pgtab)
    (cloned : Cloned kernel (lower + 1) s pgtab done rv cur used)
    (range : done ⊆ indices (cloneLimit (lower + 1))) (path : List (Fin 512))
    (inside : Copied (indices (cloneLimit (lower + 1))) s.mem pgtab path)
    (short : path.length ≤ lower + 1) (pending : ∀ i, path.head? = some i → i ∉ done)
    (found : tableAt s.mem pgtab path = some b) : cur.mem b = s.mem b := by
  apply cloned.frame
  · intro member
    exact clonable.fresh b (cloned.used_subset member) path inside short found
  · intro path' copied leaf found'
    have same := clonable.unique path path' b inside (copied.mono range) short (by omega) found found'
    subst same
    cases path with
    | nil => simp at leaf
    | cons i rest => exact pending i rfl copied.1

section Node
variable {lower : Nat} {i : Fin 512} {child copy : PhysAddr} {mid : State} {fresh : List PhysAddr}

theorem tableAt_child (link : entryTable (mem pgtab i) = some child) (rest : List (Fin 512)) :
    tableAt mem pgtab (i :: rest) = tableAt mem child rest := by
  rw [tableAt, walk_cons, link]
  rfl

theorem subtree_kept {mem' : PhysMem} (link : entryTable (mem pgtab i) = some child)
    (old : ∀ {rest t}, rest.length ≤ lower → tableAt mem pgtab (i :: rest) = some t → mem' t = mem t)
    (short : rest.length ≤ lower) : tableAt mem' child rest = tableAt mem pgtab (i :: rest) := by
  rw [tableAt_child link]
  apply walk_frame
  intro before j b front found
  have shorter := front.length_le
  simp only [List.length_append, List.length_singleton] at shorter
  rw [← tableAt, ← tableAt_child link] at found
  rw [old (by omega) found]

section

variable (clonable : Clonable kernel (lower + 1) s pgtab)
    (cloned : Cloned kernel (lower + 1) s pgtab done rv cur used)
    (range : done ⊆ indices (cloneLimit (lower + 1))) (here : i ∈ indices (cloneLimit (lower + 1)))
    (new : i ∉ done) (link : entryTable (s.mem pgtab i) = some child)
include clonable cloned range here new link

theorem Cloned.below_old (short : rest.length ≤ lower)
    (found : tableAt s.mem pgtab (i :: rest) = some t) : cur.mem t = s.mem t := by
  refine cloned.untouched clonable range (i :: rest) ⟨here, (entryTable_eq_some.mp link).1⟩
    (by simpa using short) ?_ found
  intro k first
  obtain rfl : i = k := by simpa using first
  exact new

theorem Cloned.subtree (short : rest.length ≤ lower) :
    tableAt cur.mem child rest = tableAt s.mem pgtab (i :: rest) :=
  subtree_kept link (cloned.below_old clonable range here new link) short

theorem Cloned.child_clonable (low : lower < 3) : Clonable kernel lower cur child := by
  have present := (entryTable_eq_some.mp link).1
  have suffix : ∀ p ∈ cur.supply, p ∈ s.supply := by
    intro p member
    rw [cloned.supply]
    exact List.mem_append_right _ member
  constructor
  · intro path path' a _ _ short short' found found'
    rw [cloned.subtree clonable range here new link short] at found
    rw [cloned.subtree clonable range here new link short'] at found'
    have same := clonable.unique (i :: path) (i :: path') a ⟨here, present⟩ ⟨here, present⟩
      (by simpa using short) (by simpa using short') found found'
    exact (List.cons.inj same).2
  · exact fun p member => clonable.usable p (suffix p member)
  · have distinct := clonable.distinct
    rw [cloned.supply] at distinct
    exact (List.nodup_append.mp distinct).2.1
  · intro p member path _ short found
    rw [cloned.subtree clonable range here new link short] at found
    exact clonable.fresh p (suffix p member) (i :: path) ⟨here, present⟩ (by simpa using short) found
  · intro top
    omega

end

/-- Below the top level every table found in a finished copy is a copy. -/
theorem Cloned.followed (inner : lower ≠ 3) (all : ∀ j, j ∈ indices (cloneLimit lower))
    (finished : Cloned kernel lower cur child (indices (cloneLimit lower)) copy mid fresh)
    (found : tableAt mid.mem copy rest = some b) :
    Copied (indices (cloneLimit lower)) cur.mem child rest := by
  cases rest with
  | nil => trivial
  | cons j tail =>
    refine ⟨all j, ?_⟩
    by_contra absent
    have blank := finished.base j fun copied => absent copied.2
    rw [cloneBase, if_neg inner] at blank
    rw [tableAt, walk_cons, blank, entryTable_zero] at found
    simp at found

theorem tableAt_copied (all : ∀ j, j ∈ done) (found : tableAt mem child rest = some a) :
    Copied done mem child rest := by
  cases rest with
  | nil => trivial
  | cons j tail =>
    rw [tableAt, walk_cons] at found
    cases first : entryTable (mem child j) with
    | none => simp [first] at found
    | some t => exact ⟨all j, (entryTable_eq_some.mp first).1⟩

/-- The copy `copy` of the tree below one entry is finished and linked into `rv`. -/
structure NodeStep (kernel : Kernel) (lower : Nat) (s : State) (pgtab : PhysAddr)
    (done : List (Fin 512)) (rv : PhysAddr) (cur : State) (used : List PhysAddr) (i : Fin 512)
    (child copy : PhysAddr) (mid : State) (fresh : List PhysAddr) (next : State) : Prop where
  inner : lower ≠ 3
  all : ∀ j, j ∈ indices (cloneLimit lower)
  clonable : Clonable kernel (lower + 1) s pgtab
  cloned : Cloned kernel (lower + 1) s pgtab done rv cur used
  range : done ⊆ indices (cloneLimit (lower + 1))
  here : i ∈ indices (cloneLimit (lower + 1))
  new : i ∉ done
  link : entryTable (s.mem pgtab i) = some child
  finished : Cloned kernel lower cur child (indices (cloneLimit lower)) copy mid fresh
  linked : next = mid.setEntry rv i (copy ||| (s.mem pgtab i &&& ~~~pteAddrMask))

section
variable (node : NodeStep kernel lower s pgtab done rv cur used i child copy mid fresh next)
include node

theorem NodeStep.inside (rest : List (Fin 512)) :
    Copied (indices (cloneLimit (lower + 1))) s.mem pgtab (i :: rest) :=
  ⟨node.here, (entryTable_eq_some.mp node.link).1⟩

theorem NodeStep.disjoint : ∀ p ∈ used, p ∉ fresh := by
  intro p member later
  have distinct := node.clonable.distinct
  rw [node.cloned.supply, node.finished.supply, ← List.append_assoc] at distinct
  exact (List.nodup_append.mp (List.nodup_append.mp distinct).1).2.2 p member p later rfl

theorem NodeStep.fresh_supply : ∀ p ∈ fresh, p ∈ s.supply := by
  intro p member
  rw [node.cloned.supply, node.finished.supply]
  simp [member]

theorem NodeStep.subtree (short : rest.length ≤ lower) :
    tableAt cur.mem child rest = tableAt s.mem pgtab (i :: rest) :=
  node.cloned.subtree node.clonable node.range node.here node.new node.link short

theorem NodeStep.leaf_old (leaf : rest.length = lower)
    (found : tableAt s.mem pgtab (i :: rest) = some t) : cur.mem t = s.mem t :=
  node.cloned.below_old node.clonable node.range node.here node.new node.link leaf.le found

theorem NodeStep.kept (old : q ∉ fresh)
    (other : ∀ rest, rest.length = lower → tableAt s.mem pgtab (i :: rest) ≠ some q) :
    mid.mem q = cur.mem q := by
  refine node.finished.frame q old fun rest _ leaf found => other rest leaf ?_
  rwa [← node.subtree (by omega)]

theorem NodeStep.used_kept (member : q ∈ used) : mid.mem q = cur.mem q := by
  refine node.kept (node.disjoint q member) fun rest leaf found => ?_
  exact node.clonable.fresh q (node.cloned.used_subset member) (i :: rest) (node.inside rest)
    (by simp [leaf]) found

theorem NodeStep.elsewhere (other : q ≠ rv) : next.mem q = mid.mem q := by
  simp [node.linked, State.setEntry, writeEntry, other]

theorem NodeStep.root_kept {j : Fin 512} (other : j ≠ i) : next.mem rv j = cur.mem rv j := by
  rw [← node.used_kept node.cloned.root, node.linked]
  exact writeEntry_of_ne _ _ (by simp [other])

theorem NodeStep.root_link : entryTable (next.mem rv i) = some copy := by
  have usable := node.clonable.usable copy (node.fresh_supply copy node.finished.root)
  simp only [node.linked, State.setEntry, writeEntry_self]
  exact entryTable_relink (entryTable_eq_some.mp node.link).1 usable

theorem NodeStep.walk_old (copied : Copied done s.mem pgtab path)
    (short : path.length ≤ lower + 1) : tableAt next.mem rv path = tableAt cur.mem rv path := by
  apply walk_frame
  intro before j b front found
  have shorter : before <+: path := (List.prefix_append before [j]).trans front
  have length := shorter.length_le.trans short
  by_cases root : b = rv
  · subst root
    have top : before = [] :=
      node.cloned.unique before [] b (copied.shorten shorter) trivial length (by simp) found rfl
    subst top
    obtain ⟨tail, rfl⟩ := front
    rw [node.root_kept]
    rintro rfl
    exact node.new copied.1
  · rw [node.elsewhere root, node.used_kept (node.cloned.table_mem (copied.shorten shorter) length found)]

theorem NodeStep.walk_new (short : rest.length ≤ lower) :
    tableAt next.mem rv (i :: rest) = tableAt mid.mem copy rest := by
  rw [tableAt_child node.root_link]
  apply walk_frame
  intro before j b front found
  have shorter : before <+: rest := (List.prefix_append before [j]).trans front
  have member := node.finished.table_mem (node.finished.followed node.inner node.all found)
    (shorter.length_le.trans short) found
  rw [node.elsewhere]
  rintro rfl
  exact node.disjoint b node.cloned.root member

/-- The old last-level tables below the entry are marked, those elsewhere are left alone. -/
theorem NodeStep.source_new (leaf : rest.length = lower)
    (found : tableAt s.mem pgtab (i :: rest) = some t) (j : Fin 512) :
    next.mem t j = if Present (s.mem t j) then markCow (s.mem t j) else s.mem t j := by
  have notRoot : t ≠ rv := by
    rintro rfl
    exact node.clonable.fresh t (node.cloned.used_subset node.cloned.root) _ (node.inside rest)
      (by simp [leaf]) found
  have below : tableAt cur.mem child rest = some t := by rw [node.subtree (by omega), found]
  rw [node.elsewhere notRoot, node.finished.source rest t j
    (tableAt_copied node.all below) leaf below, node.leaf_old leaf found]
  simp [node.all]

theorem NodeStep.source_old (copied : Copied done s.mem pgtab path) (leaf : path.length = lower + 1)
    (found : tableAt s.mem pgtab path = some t) : next.mem t = cur.mem t := by
  have unused : t ∉ s.supply := fun member =>
    node.clonable.fresh t member path (copied.mono node.range) (by omega) found
  have notRoot : t ≠ rv := by
    rintro rfl
    exact unused (node.cloned.used_subset node.cloned.root)
  rw [node.elsewhere notRoot, node.kept fun member => unused (node.fresh_supply t member)]
  intro rest last found'
  have same :=
    node.clonable.unique path (i :: rest) t (copied.mono node.range) (node.inside rest) (by omega)
    (by simp [last]) found found'
  subst same
  exact node.new copied.1

theorem NodeStep.new_mem (short : rest.length ≤ lower)
    (found : tableAt next.mem rv (i :: rest) = some b) : b ∈ fresh := by
  rw [node.walk_new short] at found
  exact node.finished.table_mem (node.finished.followed node.inner node.all found) short found

theorem NodeStep.old_mem (copied : Copied done s.mem pgtab path) (short : path.length ≤ lower + 1)
    (found : tableAt next.mem rv path = some b) : b ∈ used := by
  rw [node.walk_old copied short] at found
  exact node.cloned.table_mem copied short found

end

theorem NodeStep.cloned_next
    (node : NodeStep kernel lower s pgtab done rv cur used i child copy mid fresh next) :
    Cloned kernel (lower + 1) s pgtab (done ++ [i]) rv next (used ++ fresh) := by
  have present := (entryTable_eq_some.mp node.link).1
  have more : ∀ {path}, Copied done s.mem pgtab path → Copied (done ++ [i]) s.mem pgtab path :=
    fun copied => copied.mono (List.subset_append_left _ _)
  constructor
  · rw [node.cloned.supply, node.finished.supply, node.linked, List.append_assoc]
    rfl
  · exact List.mem_append_left _ node.cloned.root
  · intro p
    have inUse : next.inUse = mid.inUse := by rw [node.linked]; rfl
    rw [inUse, node.finished.inUse, node.cloned.inUse]
    simp [Bool.or_assoc]
  · intro q unused other
    rw [List.mem_append, not_or] at unused
    have notRoot : q ≠ rv := by
      rintro rfl
      exact unused.1 node.cloned.root
    rw [node.elsewhere notRoot, node.kept unused.2, node.cloned.frame q unused.1]
    · exact fun path copied leaf => other path (more copied) leaf
    · exact fun rest leaf => other (i :: rest) ⟨by simp, present⟩ (by simp [leaf])
  · intro path t j copied leaf found
    rcases copied_append copied leaf.le with old | ⟨rest, rfl, -⟩
    · rw [node.source_old old leaf found, node.cloned.source path t j old leaf found]
      simp
    · rw [node.source_new (by simpa using leaf) found]
      simp
  · intro j other
    have differs : j ≠ i := by
      rintro rfl
      exact other ⟨by simp, present⟩
    rw [node.root_kept differs]
    exact node.cloned.base j fun copied => other (more copied)
  · intro path copied short missing
    rcases copied_append copied short with old | ⟨rest, rfl, shorter⟩
    · rw [node.walk_old old short]
      exact node.cloned.missing path old short missing
    · rw [node.walk_new shorter]
      by_contra found
      obtain ⟨b, found⟩ := Option.ne_none_iff_exists'.mp found
      rw [← node.subtree shorter] at missing
      rw [node.finished.missing rest (node.finished.followed node.inner node.all found) shorter
        missing] at found
      simp at found
  · intro path t copied short found
    rcases copied_append copied short with old | ⟨rest, rfl, shorter⟩
    · obtain ⟨b, member, link, content⟩ := node.cloned.copies path t old short found
      refine ⟨b, List.mem_append_left _ member, by rw [node.walk_old old short, link], fun leaf j => ?_⟩
      have notRoot : b ≠ rv := by
        rintro rfl
        have top := node.cloned.unique path [] b old trivial short (by simp) link rfl
        simp [top] at leaf
      rw [node.elsewhere notRoot, node.used_kept member, content leaf j]
      simp
    · have below : tableAt cur.mem child rest = some t := by rw [node.subtree shorter, found]
      obtain ⟨b, member, link, content⟩ :=
        node.finished.copies rest t (tableAt_copied node.all below) shorter below
      refine ⟨b, List.mem_append_right _ member, by rw [node.walk_new shorter, link], fun leaf j => ?_⟩
      have notRoot : b ≠ rv := by
        rintro rfl
        exact node.disjoint b node.cloned.root member
      have last : rest.length = lower := by simpa using leaf
      rw [node.elsewhere notRoot, content last j, node.leaf_old last found]
      simp [node.all]
  · intro path path' b copied copied' short short' found found'
    rcases copied_append copied short with old | ⟨rest, rfl, shorter⟩ <;>
      rcases copied_append copied' short' with old' | ⟨rest', rfl, shorter'⟩
    · rw [node.walk_old old short] at found
      rw [node.walk_old old' short'] at found'
      exact node.cloned.unique path path' b old old' short short' found found'
    · exact absurd (node.new_mem shorter' found') (node.disjoint b (node.old_mem old short found))
    · exact absurd (node.new_mem shorter found) (node.disjoint b (node.old_mem old' short' found'))
    · rw [node.walk_new shorter] at found
      rw [node.walk_new shorter'] at found'
      rw [node.finished.unique rest rest' b (node.finished.followed node.inner node.all found)
        (node.finished.followed node.inner node.all found') shorter shorter' found found']
  · intro q member
    rcases List.mem_append.mp member with old | new
    · obtain ⟨path, copied, short, found⟩ := node.cloned.tight q old
      exact ⟨path, more copied, short, (node.walk_old copied short).trans found⟩
    · obtain ⟨rest, -, short, found⟩ := node.finished.tight q new
      exact ⟨i :: rest, ⟨by simp, present⟩, by simpa using short, (node.walk_new short).trans found⟩

end Node

end

end ByteOS.Mm
