import ByteOS.Mm.CloneSpec

/-! Which runs keep the lower halves of address spaces apart.

A new address space starts as a copy of the kernel's top-level table, and with
it takes over whatever the kernel has mapped in the lower half. `smp_init` leaves
such tables behind: it maps the trampoline at low addresses and unmaps the pages,
but not the tables. Mapping through a slot taken over writes to the kernel's
tables; mapping through any other slot is private.
-/

set_option autoImplicit false

namespace ByteOS.Mm

open ByteOS.Lib

/-! ## The trampoline -/

def trampolineStart : BitVec 64 := 0x1000#64

def trampolinePage (i : Nat) : BitVec 64 := trampolineStart + BitVec.ofNat 64 (i * 0x1000)

/-- What `smp_init` does to the tables of the kernel: map the pages of the
trampoline before the other processors run, and unmap them when `nrCpus` do. -/
def smpInit (kernel : Kernel) (nrCpus pages : Nat) (s : State) : Except Fault State := do
  let s ← (List.range pages).foldlM (fun s i =>
    vmmMapPage 1 s kernel.p4 (trampolinePage i) (trampolinePage i) (pageWritable ||| pageExecutable)) s
  (List.range pages).foldlM (fun s i => vmmMapPage nrCpus s kernel.p4 0#64 (trampolinePage i) vmmUnmap) s

/-! ## Private tables -/

/-- A slot through which `r` reaches a table of the kernel. -/
def Inherited (kernel : Kernel) (mem : PhysMem) (r : PhysAddr) (i : Fin 512) : Prop :=
  ∃ a, pgtabExtract mem kernel.p4 i = some a ∧ pgtabExtract mem r i = some a

def Lower (path : List (Fin 512)) : Prop := path.length ≤ 3 ∧ ∀ i, path.head? = some i → i.val < 256

/-- The names of the lower-half tables, with those taken over from the kernel under the kernel's name. -/
def Private (kernel : Kernel) (users : List PhysAddr) (mem : PhysMem) (r : PhysAddr)
    (path : List (Fin 512)) : Prop :=
  Lower path ∧ (r = kernel.p4 ∨ r ∈ users ∧ ∀ i, path.head? = some i → ¬ Inherited kernel mem r i)

structure Isolated (kernel : Kernel) (users : List PhysAddr) (mem : PhysMem) : Prop where
  separate : Separate entryTable mem (Private kernel users mem)
  apart : kernel.p4 ∉ users

structure FreshPages (kernel : Kernel) (users : List PhysAddr) (s : State) : Prop where
  usable : ∀ p ∈ s.supply, Usable p
  distinct : s.supply.Nodup
  fresh : ∀ p ∈ s.supply, ∀ r ∈ kernel.p4 :: users, ∀ path, Lower path → tableAt s.mem r path ≠ some p

variable {path rest : List (Fin 512)} {b r' p r : PhysAddr} {i : Fin 512}

section
variable {kernel : Kernel} {users : List PhysAddr} {mem mem' : PhysMem} {s s' : State}

theorem top_lower : Lower [] := ⟨by simp, by simp⟩

theorem Lower.shorten {before : List (Fin 512)} (lower : Lower path) (front : before <+: path) :
    Lower before := by
  refine ⟨front.length_le.trans lower.1, fun i first => lower.2 i ?_⟩
  obtain ⟨rest, rfl⟩ := front
  simp [first]

theorem private_region (kernel : Kernel) (users : List PhysAddr) (mem : PhysMem) :
    Region (Private kernel users mem) where
  closed r before path front inside := by
    refine ⟨inside.1.shorten front, inside.2.imp_right fun ⟨user, own⟩ => ⟨user, fun i first => own i ?_⟩⟩
    obtain ⟨rest, rfl⟩ := front
    simp [first]
  bounded r path inside := inside.1.1

theorem private_kernel (lower : Lower path) : Private kernel users mem kernel.p4 path :=
  ⟨lower, .inl rfl⟩

theorem Private.root (inside : Private kernel users mem r path) : r ∈ kernel.p4 :: users := by
  rcases inside.2 with rfl | ⟨user, -⟩
  · simp
  · simp [user]

theorem private_name (root : r ∈ kernel.p4 :: users) (lower : Lower path)
    (found : tableAt mem r path = some b) :
    ∃ o, (o = r ∨ o = kernel.p4) ∧ Private kernel users mem o path ∧ tableAt mem o path = some b := by
  rcases List.mem_cons.mp root with rfl | user
  · exact ⟨kernel.p4, .inr rfl, private_kernel lower, found⟩
  · cases path with
    | nil => exact ⟨r, .inl rfl, ⟨lower, .inr ⟨user, by simp⟩⟩, found⟩
    | cons i rest =>
      by_cases shared : Inherited kernel mem r i
      · obtain ⟨a, kernelLink, link⟩ := shared
        refine ⟨kernel.p4, .inr rfl, private_kernel lower, ?_⟩
        rwa [tableAt_child kernelLink, ← tableAt_child link]
      · refine ⟨r, .inl rfl, ⟨lower, .inr ⟨user, fun j first => ?_⟩⟩, found⟩
        obtain rfl : i = j := by simpa using first
        exact shared

theorem FreshPages.supplied (fresh : FreshPages kernel users s) :
    Supplied (Private kernel users s.mem) s where
  usable := fresh.usable
  distinct := fresh.distinct
  fresh p member r path inside := fresh.fresh p member r inside.root path inside.1

/-! ## Mapping -/

section Map
variable {nrCpus : Nat} {r : PhysAddr} {phys virt flags : BitVec 64}

theorem lower_tablePath (low : (p4Index virt).val < 256) : Lower (tablePath virt) := by
  refine ⟨by simp [tablePath], fun i first => ?_⟩
  obtain rfl : p4Index virt = i := by simpa [tablePath] using first
  exact low

theorem private_user (user : r ∈ users) (low : (p4Index virt).val < 256)
    (own : ¬ Inherited kernel mem r (p4Index virt)) : Private kernel users mem r (tablePath virt) := by
  refine ⟨lower_tablePath low, .inr ⟨user, fun i first => ?_⟩⟩
  obtain rfl : p4Index virt = i := by simpa [tablePath] using first
  exact own

section

variable (fresh : FreshPages kernel users s) (isolated : Isolated kernel users s.mem)
    (inside : Private kernel users s.mem r (tablePath virt))
    (ran : vmmMapPage nrCpus s r phys virt flags = .ok s') (root : r' ∈ kernel.p4 :: users) (other : r' ≠ r)
include fresh isolated inside ran root other

theorem map_frame (notKernel : r ≠ kernel.p4) (lower : Lower path)
    (found : tableAt s.mem r' path = some b) : s'.mem b = s.mem b := by
  have mapped :=
    vmmMapPage_spec (private_region kernel users s.mem) fresh.supplied isolated.separate inside ran
  funext j
  apply mapped.frame b j
  · intro member
    exact fresh.fresh b member r' root path lower found
  · intro path' inside' _ found'
    obtain ⟨o, owner, named, reached⟩ := private_name root lower found
    obtain ⟨rfl, -⟩ := isolated.separate r path' o path b inside' named found' reached
    rcases owner with same | same
    · exact other same.symm
    · exact notKernel same

theorem map_private (notKernel : r ≠ kernel.p4) {va : BitVec 64} (low : (p4Index va).val < 256) :
    pteValue s'.mem r' va = pteValue s.mem r' va := by
  have lower := lower_tablePath low
  have kept : ∀ path b, Lower path → tableAt s.mem r' path = some b → s'.mem b = s.mem b :=
    fun _ _ => map_frame fresh isolated inside ran root other notKernel
  have walks : tableAt s'.mem r' (tablePath va) = tableAt s.mem r' (tablePath va) := by
    apply walk_frame
    intro before j b front found
    rw [kept before b (lower.shorten ((List.prefix_append _ _).trans front)) found]
  rw [pteValue_eq, pteValue_eq, entryAt, entryAt, lookup, lookup, ← tableAt, ← tableAt, walks]
  cases found : tableAt s.mem r' (tablePath va) with
  | none => rfl
  | some b => simp only [kept _ b lower found]

end

theorem map_isolated (fresh : FreshPages kernel users s) (isolated : Isolated kernel users s.mem)
    (user : r ∈ users) (low : (p4Index virt).val < 256)
    (own : ¬ Inherited kernel s.mem r (p4Index virt))
    (ran : vmmMapPage nrCpus s r phys virt flags = .ok s') : Isolated kernel users s'.mem := by
  have notKernel : r ≠ kernel.p4 := by
    rintro rfl
    exact isolated.apart user
  have inside := private_user user low own
  have rootPrivate : Private kernel users s.mem r [] := ⟨top_lower, .inr ⟨user, by simp⟩⟩
  have mapped :=
    vmmMapPage_spec (private_region kernel users s.mem) fresh.supplied isolated.separate inside ran
  have kernelKept : s'.mem kernel.p4 = s.mem kernel.p4 :=
    map_frame fresh isolated inside ran (by simp) notKernel.symm notKernel top_lower rfl
  have rootKept : ∀ i, i ≠ p4Index virt → s'.mem r i = s.mem r i := by
    intro i other
    apply mapped.frame r i
    · exact fun member => fresh.fresh r member r (by simp [user]) [] top_lower rfl
    · intro path inside' front found
      obtain ⟨-, rfl⟩ := isolated.separate r path r [] r inside' rootPrivate found rfl
      obtain ⟨rest, split⟩ := front
      exact other (List.cons.inj split).1
  refine ⟨mapped.separate.mono fun r' path inside' => ⟨inside'.1, inside'.2.imp_right ?_⟩, isolated.apart⟩
  rintro ⟨user', own'⟩
  refine ⟨user', fun i first shared => own' i first ?_⟩
  obtain ⟨a, kernelLink, link⟩ := shared
  refine ⟨a, by rw [pgtabExtract, kernelKept]; exact kernelLink, ?_⟩
  by_cases same : r' = r
  · subst same
    rw [pgtabExtract, rootKept]
    · exact link
    · rintro rfl
      exact own ⟨a, kernelLink, link⟩
  · rwa [pgtabExtract, map_frame fresh isolated inside ran (by simp [user']) same notKernel top_lower rfl]

theorem map_kernel (fresh : FreshPages kernel [] s) (isolated : Isolated kernel [] s.mem)
    (low : (p4Index virt).val < 256) (ran : vmmMapPage nrCpus s kernel.p4 phys virt flags = .ok s') :
    FreshPages kernel [] s' ∧ Isolated kernel [] s'.mem := by
  have mapped := vmmMapPage_spec (private_region kernel [] s.mem) fresh.supplied isolated.separate
    (private_kernel (lower_tablePath low)) ran
  refine ⟨⟨mapped.supplied.usable, mapped.supplied.distinct, fun p member r root path lower => ?_⟩,
    mapped.separate.mono fun r path inside => ?_, isolated.apart⟩
  · obtain rfl : r = kernel.p4 := by simpa using root
    exact mapped.supplied.fresh p member kernel.p4 path (private_kernel lower)
  · rcases inside with ⟨lower, rfl | ⟨user, -⟩⟩
    · exact private_kernel lower
    · simp at user

end Map

/-! ## New address spaces -/

/-- No lower-half table is `p`. -/
def Unreached (kernel : Kernel) (users : List PhysAddr) (mem : PhysMem) (p : PhysAddr) : Prop :=
  ∀ r ∈ kernel.p4 :: users, ∀ path, Lower path → tableAt mem r path ≠ some p

/-- The lower-half tables above the last level keep their contents. -/
def TablesKept (kernel : Kernel) (users : List PhysAddr) (mem mem' : PhysMem) : Prop :=
  ∀ o before b, Private kernel users mem o before → before.length < 3 →
    tableAt mem o before = some b → mem' b = mem b

theorem tableAt_unchanged (root : r ∈ kernel.p4 :: users) (lower : Lower path)
    (kept : TablesKept kernel users mem mem') : tableAt mem' r path = tableAt mem r path := by
  apply walk_frame
  intro before j b front found
  have shorter : before <+: path := (List.prefix_append _ _).trans front
  obtain ⟨o, -, named, reached⟩ := private_name root (lower.shorten shorter) found
  have length := front.length_le
  simp only [List.length_append, List.length_singleton] at length
  rw [kept o before b named (by have := lower.1; omega) reached]

/-- Adding an address space whose lower half consists of fresh tables and slots
taken over from the kernel. -/
theorem Isolated.add (isolated : Isolated kernel users mem) (unused : Unreached kernel users mem p)
    (kept : TablesKept kernel users mem mem')
    (fresh : ∀ path a, Private kernel (p :: users) mem' p path → tableAt mem' p path = some a →
      Unreached kernel users mem a)
    (unique : ∀ path path' a, Private kernel (p :: users) mem' p path →
      Private kernel (p :: users) mem' p path' →
      tableAt mem' p path = some a → tableAt mem' p path' = some a → path = path') : Isolated kernel
      (p :: users) mem' := by
  have walks : ∀ r ∈ kernel.p4 :: users, ∀ path, Lower path → tableAt mem' r path = tableAt mem r path :=
    fun r root path lower => tableAt_unchanged root lower kept
  have notOld : ∀ r ∈ kernel.p4 :: users, r ≠ p := by
    rintro r root rfl
    exact unused r root [] top_lower rfl
  -- an old root keeps its slots, so its private paths were private before
  have oldPrivate : ∀ r path, r ≠ p → Private kernel (p :: users) mem' r path →
      Private kernel users mem r path := by
    rintro r path other ⟨lower, rfl | ⟨user, own⟩⟩
    · exact private_kernel lower
    · have user : r ∈ users := by simpa [other] using user
      refine ⟨lower, .inr ⟨user, fun i first shared => own i first ?_⟩⟩
      obtain ⟨a, kernelLink, link⟩ := shared
      refine ⟨a, ?_, ?_⟩
      · rwa [pgtabExtract, kept kernel.p4 [] kernel.p4 (private_kernel top_lower) (by simp) rfl]
      · rwa [pgtabExtract, kept r [] r ⟨top_lower, .inr ⟨user, by simp⟩⟩ (by simp) rfl]
  refine ⟨?_, ?_⟩
  · intro r path r' path' a inside inside' found found'
    by_cases new : r = p <;> by_cases new' : r' = p
    · subst new new'
      exact ⟨rfl, unique path path' a inside inside' found found'⟩
    · subst new
      have named := oldPrivate r' path' new' inside'
      replace found' := (walks r' named.root path' named.1).symm.trans found'
      exact absurd found' (fresh path a inside found r' named.root path' named.1)
    · subst new'
      have named := oldPrivate r path new inside
      replace found := (walks r named.root path named.1).symm.trans found
      exact absurd found (fresh path' a inside' found' r named.root path named.1)
    · have named := oldPrivate r path new inside
      have named' := oldPrivate r' path' new' inside'
      replace found := (walks r named.root path named.1).symm.trans found
      replace found' := (walks r' named'.root path' named'.1).symm.trans found'
      exact isolated.separate r path r' path' a named named' found found'
  · rw [List.mem_cons, not_or]
    exact ⟨notOld kernel.p4 (by simp), isolated.apart⟩

theorem inherited_of_base {t : PhysAddr} (base : mem' p i = mem' kernel.p4 i)
    (found : tableAt mem' p (i :: rest) = some t) : Inherited kernel mem' p i := by
  rw [tableAt, walk_cons] at found
  cases link : entryTable (mem' p i) with
  | none => simp [link] at found
  | some a => exact ⟨a, by rw [pgtabExtract, ← base, link], link⟩

theorem Private.own (notKernel : r ≠ kernel.p4) (inside : Private kernel users mem r (i :: rest)) :
    ¬ Inherited kernel mem r i := by
  rcases inside.2 with same | ⟨-, own⟩
  · exact absurd same notKernel
  · exact own i rfl

theorem Unreached.ne_kernel (unused : Unreached kernel users mem p) : p ≠ kernel.p4 :=
  fun same => unused kernel.p4 (by simp) [] top_lower (by rw [same]; rfl)

theorem mmuInit_cases (fresh : FreshPages kernel users s) (ran : mmuInit kernel s = .ok (p, s')) :
    s.supply = p :: s'.supply ∧ Unreached kernel users s.mem p ∧
      TablesKept kernel users s.mem s'.mem ∧ s'.mem p = s'.mem kernel.p4 := by
  unfold mmuInit at ran
  obtain ⟨⟨q, s₁⟩, allocated, ran⟩ := bind_eq_ok.mp ran
  obtain ⟨supply, -, -, memory⟩ := pmmAllocPage_cases allocated
  cases ran
  have unused : Unreached kernel users s.mem p := fresh.fresh p (by simp [supply])
  refine ⟨supply, unused, fun o before b named _ found =>
    ?_, by simp [State.setPage, unused.ne_kernel.symm]⟩
  have other : b ≠ p := by
    rintro rfl
    exact unused o named.root before named.1 found
  simp [State.setPage, memory, other]

theorem mmuInit_isolated (fresh : FreshPages kernel users s)
    (isolated : Isolated kernel users s.mem) (ran : mmuInit kernel s = .ok (p, s')) :
    Isolated kernel (p :: users) s'.mem := by
  obtain ⟨-, unused, kept, root⟩ := mmuInit_cases fresh ran
  -- all that the new address space reaches was taken over
  have alone : ∀ path a, Private kernel (p :: users) s'.mem p path →
      tableAt s'.mem p path = some a → path = [] ∧ a = p := by
    intro path a inside found
    cases path with
    | nil => exact ⟨rfl, (Option.some.inj found).symm⟩
    | cons i rest => exact absurd (inherited_of_base (by rw [root]) found) (inside.own unused.ne_kernel)
  apply isolated.add unused kept
  · intro path a inside found
    rwa [(alone path a inside found).2]
  · intro path path' a inside inside' found found'
    rw [(alone path a inside found).1, (alone path' a inside' found').1]

theorem mmuInit_fresh (fresh : FreshPages kernel users s) (ran : mmuInit kernel s = .ok (p, s')) :
    FreshPages kernel (p :: users) s' := by
  obtain ⟨supply, unused, kept, copied⟩ := mmuInit_cases fresh ran
  have distinct := fresh.distinct
  rw [supply, List.nodup_cons] at distinct
  refine ⟨fun q member => fresh.usable q (by simp [supply, member]), distinct.2, ?_⟩
  intro q member r root path lower
  have old : Unreached kernel users s'.mem q := fun r root path lower => by
    rw [tableAt_unchanged root lower kept]
    exact fresh.fresh q (by simp [supply, member]) r root path lower
  by_cases new : r = p
  · subst new
    cases path with
    | nil =>
      intro found
      obtain rfl : r = q := Option.some.inj found
      exact distinct.1 member
    | cons i rest =>
      have through : tableAt s'.mem r (i :: rest) = tableAt s'.mem kernel.p4 (i :: rest) := by
        rw [tableAt, tableAt, walk_cons, walk_cons, copied]
      rw [through]
      exact old kernel.p4 (by simp) _ lower
  · exact old r (by simpa [new] using root) path lower

theorem lower_of_copied (short : path.length ≤ 3)
    (copied : Copied (indices (cloneLimit 3)) mem r path) : Lower path := by
  refine ⟨short, fun i first => ?_⟩
  cases path with
  | nil => simp at first
  | cons j rest =>
    obtain rfl : j = i := by simpa using first
    have limit := mem_indices.mp copied.1
    simp only [cloneLimit, if_true] at limit
    omega

theorem mmuCloneCow_isolated (fresh : FreshPages kernel users s)
    (isolated : Isolated kernel users s.mem) (root : r ∈ kernel.p4 :: users)
    (ran : mmuCloneCow kernel s r = .ok (p, s')) : Isolated kernel (p :: users) s'.mem := by
  have clonable : Clonable kernel 3 s r := by
    refine ⟨?_, fresh.usable, fresh.distinct, ?_, ?_⟩
    · intro path path' a copied copied' short short' found found'
      obtain ⟨o, -, named, reached⟩ := private_name root (lower_of_copied short copied) found
      obtain ⟨o', -, named', reached'⟩ := private_name root (lower_of_copied short' copied') found'
      exact (isolated.separate o path o' path' a named named' reached reached').2
    · exact fun q member path copied short => fresh.fresh q member r root path
        (lower_of_copied short copied)
    · exact fun _ member => fresh.fresh kernel.p4 member kernel.p4 (by simp) [] top_lower rfl
  obtain ⟨⟨used, cloned⟩, -⟩ := clonePgtab_spec (le_refl 3) clonable ran
  have unused : ∀ q ∈ used, Unreached kernel users s.mem q := fun q member =>
    fresh.fresh q (cloned.used_subset member)
  have kept : TablesKept kernel users s.mem s'.mem := by
    intro o before b named short found
    apply cloned.frame b
    · exact fun member => unused b member o named.root before named.1 found
    · intro path copied leaf found'
      obtain ⟨o', -, named', reached⟩ := private_name root (lower_of_copied leaf.le copied) found'
      have same := (isolated.separate o before o' path b named named' found reached).2
      rw [same] at short
      omega
  have kernelKept := kept kernel.p4 [] kernel.p4 (private_kernel top_lower) (by simp) rfl
  have copied : ∀ path a, Private kernel (p :: users) s'.mem p path →
      tableAt s'.mem p path = some a → Copied (indices (cloneLimit 3)) s.mem r path := by
    intro path a inside found
    cases path with
    | nil => trivial
    | cons i rest =>
      by_contra other
      have base := cloned.base i other
      simp only [cloneBase, if_true] at base
      exact absurd (inherited_of_base (by rw [base, kernelKept]) found)
        (inside.own (unused p cloned.root).ne_kernel)
  apply isolated.add (unused p cloned.root) kept
  · intro path a inside found
    exact unused a (cloned.table_mem (copied path a inside found) inside.1.1 found)
  · intro path path' a inside inside' found found'
    exact cloned.unique path path' a (copied path a inside found)
      (copied path' a inside' found') inside.1.1 inside'.1.1 found found'

end

/-! ## Runs -/

/-- The calls on address spaces, with the list of user address spaces; `allowed`
restricts the mappings made. -/
inductive MmuStep (kernel : Kernel) (nrCpus : Nat) (allowed : State → PhysAddr → BitVec 64 → Prop) :
    State × List PhysAddr → State × List PhysAddr → Prop where
  | init {s s' : State} {users supply : List PhysAddr} {p : PhysAddr} :
      FreshPages kernel users { s with supply := supply } →
        mmuInit kernel { s with supply := supply } = .ok (p, s') →
      MmuStep kernel nrCpus allowed (s, users) (s', p :: users)
  | clone {s s' : State} {users supply : List PhysAddr} {r p : PhysAddr} : r ∈ kernel.p4 :: users →
      FreshPages kernel users { s with supply := supply } →
      mmuCloneCow kernel { s with supply := supply } r = .ok (p, s') →
      MmuStep kernel nrCpus allowed (s, users) (s', p :: users)
  | map {s s' : State} {users supply : List PhysAddr} {r : PhysAddr} {phys virt flags : BitVec 64} :
      r ∈ users → (p4Index virt).val < 256 → allowed s r virt →
      FreshPages kernel users { s with supply := supply } →
      vmmMapPage nrCpus { s with supply := supply } r phys virt flags = .ok s' →
      MmuStep kernel nrCpus allowed (s, users) (s', users)

def OwnSlot (kernel : Kernel) (s : State) (r : PhysAddr) (virt : BitVec 64) : Prop :=
  ¬ Inherited kernel s.mem r (p4Index virt)

variable {kernel : Kernel} {nrCpus : Nat}

theorem mmuStep_isolated {first last : State × List PhysAddr}
    (step : MmuStep kernel nrCpus (OwnSlot kernel) first last)
    (holds : Isolated kernel first.2 first.1.mem) : Isolated kernel last.2 last.1.mem := by
  cases step with
  | init fresh ran => exact mmuInit_isolated fresh holds ran
  | clone root fresh ran => exact mmuCloneCow_isolated fresh holds root ran
  | map user low own fresh ran => exact map_isolated fresh holds user low own ran

/-! ## From the tables that `smp_init` leaves -/

theorem trampolinePage_low {i : Nat} (few : i < 256) : (p4Index (trampolinePage i)).val < 256 := by
  have small : (trampolinePage i).toNat = 0x1000 + i * 0x1000 := by
    simp only [trampolinePage, trampolineStart, BitVec.toNat_add, BitVec.toNat_ofNat]
    omega
  rw [p4Index, tableIndex_val (by decide), small]
  omega

theorem empty_isolated {mem : PhysMem}
    (empty : ∀ i : Fin 512, i.val < 256 → ¬ Present (mem kernel.p4 i)) : Isolated kernel [] mem := by
  refine ⟨?_, by simp⟩
  have alone : ∀ r path a, Private kernel [] mem r path → tableAt mem r path = some a →
      r = kernel.p4 ∧ path = [] := by
    rintro r path a ⟨lower, rfl | ⟨user, -⟩⟩ found
    · cases path with
      | nil => exact ⟨rfl, rfl⟩
      | cons i rest =>
        rw [tableAt, walk_cons, entryTable_absent (empty i (lower.2 i rfl))] at found
        simp at found
    · simp at user
  intro r path r' path' a inside inside' found found'
  obtain ⟨rfl, rfl⟩ := alone r path a inside found
  obtain ⟨rfl, rfl⟩ := alone r' path' a inside' found'
  exact ⟨rfl, rfl⟩

theorem smpInit_isolated {pages : Nat} {boot s : State} (few : pages ≤ 255)
    (empty : ∀ i : Fin 512, i.val < 256 → ¬ Present (boot.mem kernel.p4 i))
    (fresh : FreshPages kernel [] boot) (started : smpInit kernel nrCpus pages boot = .ok s) :
    FreshPages kernel [] s ∧ Isolated kernel [] s.mem := by
  unfold smpInit at started
  obtain ⟨mapped, mapping, unmapping⟩ := bind_eq_ok.mp started
  have early : ∀ front i rest, List.range pages = front ++ i :: rest →
      (p4Index (trampolinePage i)).val < 256 := by
    intro front i rest split
    have member : i ∈ List.range pages := by simp [split]
    exact trampolinePage_low (by have := List.mem_range.mp member; omega)
  have first := loop_invariant (fun _ cur => FreshPages kernel [] cur ∧ Isolated kernel [] cur.mem)
    ⟨fresh, empty_isolated empty⟩ (fun front i rest _ _ split ⟨fresh, isolated⟩ =>
      map_kernel fresh isolated (early front i rest split)) mapping
  exact loop_invariant (fun _ cur => FreshPages kernel [] cur ∧ Isolated kernel [] cur.mem) first
    (fun front i rest _ _ split ⟨fresh, isolated⟩ => map_kernel fresh isolated
      (early front i rest split)) unmapping

/-- From the tables that `smp_init` leaves, in every run that maps lower-half
addresses only through slots not taken over from the kernel, such a mapping in
one address space changes no lower-half entry of another or of the kernel. -/
theorem lower_half_isolation {pages : Nat} {boot s₀ s : State} {users : List PhysAddr}
    (few : pages ≤ 255) (empty : ∀ i : Fin 512, i.val < 256 → ¬ Present (boot.mem kernel.p4 i))
    (fresh : FreshPages kernel [] boot) (started : smpInit kernel nrCpus pages boot = .ok s₀)
    (run : Reaches (MmuStep kernel nrCpus (OwnSlot kernel)) (s₀, []) (s, users))
    {supply : List PhysAddr} {phys virt flags : BitVec 64} {s' : State} (user : r ∈ users)
    (low : (p4Index virt).val < 256) (own : OwnSlot kernel s r virt)
    (supplied : FreshPages kernel users { s with supply := supply })
    (ran : vmmMapPage nrCpus { s with supply := supply } r phys virt flags = .ok s') :
    ∀ r' ∈ kernel.p4 :: users, r' ≠ r → ∀ va : BitVec 64, (p4Index va).val < 256 →
      pteValue s'.mem r' va = pteValue s.mem r' va := by
  have holds : Isolated kernel users s.mem :=
    run.invariant (fun state => Isolated kernel state.2 state.1.mem)
      (smpInit_isolated few empty fresh started).2 fun _ _ _ step holds => mmuStep_isolated step holds
  have notKernel : r ≠ kernel.p4 := by
    rintro rfl
    exact holds.apart user
  intro r' root other va lowVa
  exact map_private supplied holds (private_user user low own) ran root other notKernel lowVa

/-- A kernel whose top-level table has the two upper-half entries of `boot.asm`. -/
def bootKernel : Kernel := ⟨0x200000#64, 0x110000#64⟩

def bootState : State where
  mem := fun p i =>
    if p = 0x110000#64 ∧ i.val = 511 then 0x111003#64
    else if p = 0x110000#64 ∧ i.val = 256 then 0x112003#64 else 0#64
  refcount := fun _ => 0#32
  inUse := fun _ => false
  supply := [0x300000#64, 0x301000#64, 0x302000#64, 0x303000#64, 0x304000#64, 0x305000#64, 0x306000#64]

theorem bootState_empty (i : Fin 512) (low : i.val < 256) : ¬ Present (bootState.mem bootKernel.p4 i) := by
  have first : i.val ≠ 511 := by omega
  have second : i.val ≠ 256 := by omega
  simp [bootState, bootKernel, Present, first, second]

theorem bootState_fresh : FreshPages bootKernel [] bootState := by
  refine ⟨by simp [bootState, Usable, pteAddrMask], by decide, ?_⟩
  intro p member r root path lower found
  obtain rfl : r = bootKernel.p4 := by simpa using root
  cases path with
  | nil =>
    obtain rfl : bootKernel.p4 = p := Option.some.inj found
    exact absurd member (by decide)
  | cons i rest =>
    rw [tableAt, walk_cons, entryTable_absent (bootState_empty i (lower.2 i rfl))] at found
    simp at found

def mapAfterBoot (supply : State → List PhysAddr) (virt : BitVec 64) :
    Except Fault (State × PhysAddr × State × State) := do
  let s₀ ← smpInit bootKernel 2 1 bootState
  let (a, s₁) ← mmuInit bootKernel s₀
  let s₂ ← vmmMapPage 2 { s₁ with supply := supply s₁ } a 0x150000#64 virt
      (pageExecutable ||| pageUserAccessible)
  return (s₀, a, s₁, s₂)

theorem mapAfterBoot_cases {supply : State → List PhysAddr} {virt : BitVec 64} {s₀ s₁ s₂ : State}
    {a : PhysAddr} (ran : mapAfterBoot supply virt = .ok (s₀, a, s₁, s₂)) :
    smpInit bootKernel 2 1 bootState = .ok s₀ ∧ mmuInit bootKernel s₀ = .ok (a, s₁) ∧
      vmmMapPage 2 { s₁ with supply := supply s₁ } a 0x150000#64 virt
      (pageExecutable ||| pageUserAccessible) =
        .ok s₂ := by
  unfold mapAfterBoot at ran
  obtain ⟨t₀, started, ran⟩ := bind_eq_ok.mp ran
  obtain ⟨⟨b, t₁⟩, created, ran⟩ := bind_eq_ok.mp ran
  obtain ⟨t₂, mapped, ran⟩ := bind_eq_ok.mp ran
  cases ran
  exact ⟨started, created, mapped⟩

/-- The first mapping of a new program, at the address of the trampoline, is
entered into the tables of the kernel. -/
theorem execve_maps_into_kernel : ∃ s₀ s₁ s₂ a,
    smpInit bootKernel 2 1 bootState = .ok s₀ ∧
      Reaches (MmuStep bootKernel 2 fun _ _ _ => True) (s₀, []) (s₁, [a]) ∧
      FreshPages bootKernel [a] { s₁ with supply := [] } ∧ a ≠ bootKernel.p4 ∧
      vmmMapPage 2 { s₁ with supply := [] } a 0x150000#64 0x1000#64
        (pageExecutable ||| pageUserAccessible) = .ok s₂ ∧
      pteValue s₁.mem bootKernel.p4 0x1000#64 = 0#64 ∧
      pteValue s₂.mem bootKernel.p4 0x1000#64 = 0x150005#64 := by
  have values : (mapAfterBoot (fun _ => []) 0x1000#64).toOption.map (fun (_, a, s₁, s₂) =>
      (a, pteValue s₁.mem bootKernel.p4 0x1000#64, pteValue s₂.mem bootKernel.p4 0x1000#64)) =
        some (0x303000#64, 0#64, 0x150005#64) := by decide +kernel
  obtain ⟨⟨s₀, a, s₁, s₂⟩, ran, values⟩ := toOption_map_eq_some.mp values
  simp only [Prod.mk.injEq] at values
  obtain ⟨started, created, mapped⟩ := mapAfterBoot_cases ran
  obtain ⟨fresh, -⟩ := smpInit_isolated (by decide) bootState_empty bootState_fresh started
  refine ⟨s₀, s₁, s₂, a, started, .single (.init fresh created), ⟨by simp, by simp, by simp⟩, ?_,
    mapped, values.2⟩
  rw [values.1]
  decide

/-- Mapping the page in the next slot instead leaves the kernel alone. -/
theorem lower_half_isolation_next_slot : ∃ s₁ s₂ a,
    vmmMapPage 2 s₁ a 0x150000#64 0x8000001000#64 (pageExecutable ||| pageUserAccessible) = .ok s₂ ∧
      pteValue s₂.mem a 0x8000001000#64 = 0x150005#64 ∧
      ∀ va : BitVec 64, (p4Index va).val < 256 → pteValue s₂.mem bootKernel.p4 va =
      pteValue s₁.mem bootKernel.p4 va := by
  have values : (mapAfterBoot State.supply 0x8000001000#64).toOption.map (fun (_, a, s₁, s₂) =>
      (a, pgtabExtract s₁.mem a 1, pteValue s₂.mem a 0x8000001000#64)) =
        some (0x303000#64, none, 0x150005#64) := by decide +kernel
  obtain ⟨⟨s₀, a, s₁, s₂⟩, ran, values⟩ := toOption_map_eq_some.mp values
  simp only [Prod.mk.injEq] at values
  obtain ⟨root, slot, value⟩ := values
  obtain ⟨started, created, mapped⟩ := mapAfterBoot_cases ran
  obtain ⟨fresh, -⟩ := smpInit_isolated (by decide) bootState_empty bootState_fresh started
  have own : OwnSlot bootKernel s₁ a 0x8000001000#64 := by
    rintro ⟨b, -, link⟩
    rw [show p4Index 0x8000001000#64 = 1 from by decide, slot] at link
    simp at link
  refine ⟨s₁, s₂, a, mapped, value, lower_half_isolation (by decide) bootState_empty bootState_fresh started
    (.single (.init fresh created)) (by simp) (by decide) own
      (mmuInit_fresh fresh created) mapped bootKernel.p4
    (by simp) ?_⟩
  rw [root]
  decide

end ByteOS.Mm
