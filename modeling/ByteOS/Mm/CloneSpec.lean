import ByteOS.Mm.MmuClone

/-! The whole of `clone_pgtab`: what every state of its loops has copied, how
often each page has been counted, and the faults that it can stop with. -/

set_option autoImplicit false

namespace ByteOS.Mm

open ByteOS.Lib

variable {limit : Nat} {s' start : State} {clone : State → PhysAddr → Except Fault (PhysAddr × State)}
  {rest done' path : List (Fin 512)} {t g table : PhysAddr} {j : Fin 512} {fault : Fault}

section
variable {kernel : Kernel} {below : Nat} {s cur next : State} {pgtab rv : PhysAddr}
  {done : List (Fin 512)} {used : List PhysAddr}

/-! ## The parts of a call -/

variable {i : Fin 512}

theorem mem_indices : i ∈ indices limit ↔ i.val < limit := by
  simp [indices]

theorem indices_nodup (limit : Nat) : (indices limit).Nodup := (List.nodup_finRange 512).filter _

theorem mem_indices_inner {lower : Nat} (inner : lower ≠ 3) (j : Fin 512) :
    j ∈ indices (cloneLimit lower) := by
  rw [mem_indices, cloneLimit, if_neg inner]
  exact j.isLt

def cloneChild (kernel : Kernel) : Nat → Option (State → PhysAddr → Except Fault (PhysAddr × State))
  | 0 => none
  | lower + 1 => some (clonePgtab kernel lower)

theorem clonePgtab_eq : clonePgtab kernel below = cloneTable kernel below (cloneChild kernel below) := by
  cases below <;> rfl

theorem clonePgtab_cases (ran : clonePgtab kernel below s pgtab = .ok (rv, s')) :
    ∃ start, cloneRoot kernel below s = .ok (rv, start) ∧
      (indices (cloneLimit below)).foldlM (cloneEntry (cloneChild kernel below) pgtab rv) start =
      .ok s' := by
  rw [clonePgtab_eq, cloneTable] at ran
  obtain ⟨⟨rv', start⟩, root, ran⟩ := bind_eq_ok.mp ran
  obtain ⟨final, loop, ran⟩ := bind_eq_ok.mp ran
  cases ran
  exact ⟨start, root, loop⟩

theorem cloneEntry_absent {clone : Option (State → PhysAddr → Except Fault (PhysAddr × State))}
    (absent : ¬ Present (cur.mem pgtab i)) : cloneEntry clone pgtab rv cur i = .ok cur := by
  unfold cloneEntry
  exact if_pos (not_not.mp absent)

theorem cloneEntry_leaf_cases (present : Present (cur.mem pgtab i))
    (ran : cloneEntry none pgtab rv cur i = .ok next) :
    ∃ dest mid, cowCopyPte cur pgtab i = .ok (dest, mid) ∧ next = mid.setEntry rv i dest := by
  unfold cloneEntry at ran
  rw [if_neg present] at ran
  obtain ⟨⟨dest, mid⟩, copied, ran⟩ := bind_eq_ok.mp ran
  cases ran
  exact ⟨dest, mid, copied, rfl⟩

theorem cloneEntry_node_cases (present : Present (cur.mem pgtab i))
    (ran : cloneEntry (some clone) pgtab rv cur i = .ok next) :
    ∃ child copy mid, entryTable (cur.mem pgtab i) = some child ∧ clone cur child = .ok (copy, mid) ∧
      next = mid.setEntry rv i (copy ||| (cur.mem pgtab i &&& ~~~pteAddrMask)) := by
  unfold cloneEntry at ran
  rw [if_neg present] at ran
  obtain ⟨-, -, ran⟩ := bind_eq_ok.mp ran
  split at ran
  case isTrue null => simp at ran
  case isFalse nonzero =>
    obtain ⟨⟨copy, mid⟩, cloned, ran⟩ := bind_eq_ok.mp ran
    cases ran
    exact ⟨_, copy, mid, entryTable_eq_some.mpr ⟨present, nonzero, rfl⟩, cloned, rfl⟩

theorem Cloned.source_same (clonable : Clonable kernel below s pgtab)
    (cloned : Cloned kernel below s pgtab done rv cur used)
    (range : done ⊆ indices (cloneLimit below)) (new : i ∉ done) : cur.mem pgtab i = s.mem pgtab i := by
  cases below with
  | zero =>
    rw [cloned.source [] pgtab i trivial rfl rfl, if_neg]
    exact fun among => new (among.1 rfl)
  | succ lower => rw [cloned.untouched clonable range [] trivial (by simp) (by simp) rfl]

theorem loop_element {front : List (Fin 512)} (range : done ⊆ indices limit) (distinct : done.Nodup)
    (split : done = front ++ i :: rest) : front ⊆ indices limit ∧ i ∈ indices limit ∧ i ∉ front := by
  subst split
  refine ⟨fun j member => range (List.mem_append_left _ member), range (by simp), ?_⟩
  intro member
  exact (List.nodup_append.mp distinct).2.2 i member i (by simp) rfl

/-! ## Counting -/

/-- The entry `i` of the last-level table `t` maps `page` and is one of those copied. -/
structure CopyAt (done : List (Fin 512)) (below : Nat) (mem : PhysMem) (pgtab : PhysAddr)
    (path : List (Fin 512)) (t : PhysAddr) (i : Fin 512) (page : PhysAddr) : Prop where
  copied : Copied done mem pgtab path
  leaf : path.length = below
  table : tableAt mem pgtab path = some t
  among : below = 0 → i ∈ done
  present : Present (mem t i)
  page : mem t i &&& pteAddrMask = page

/-- What `cow_copy_pte` adds to the count of the page that an entry maps. -/
def sharesAdded (entry : Pte) : BitVec 32 := if entry &&& pageCow = 0#64 then 2#32 else 1#32

/-- The counts after copying the entries `done`, of the pages that they map at most once. -/
structure Counted (below : Nat) (s : State) (pgtab : PhysAddr) (done : List (Fin 512))
    (cur : State) : Prop where
  none : ∀ g, (∀ path t i, ¬ CopyAt done below s.mem pgtab path t i g) → cur.refcount g = s.refcount g
  once : ∀ g path t i, CopyAt done below s.mem pgtab path t i g →
    (∀ path' t' i', CopyAt done below s.mem pgtab path' t' i' g → path' = path ∧ i' = i) →
    cur.refcount g = s.refcount g + sharesAdded (s.mem t i)

theorem CopyAt.mono (copy : CopyAt done below s.mem pgtab path t j g) (more : done ⊆ done') :
    CopyAt done' below s.mem pgtab path t j g :=
  ⟨copy.copied.mono more, copy.leaf, copy.table, fun last => more (copy.among last), copy.present,
    copy.page⟩

theorem counted_start (root : cloneRoot kernel below s = .ok (rv, cur)) : Counted below s pgtab [] cur := by
  obtain ⟨-, refcount, -⟩ := cloneRoot_cases root
  refine ⟨fun g _ => by rw [refcount], fun g path t i copy _ => ?_⟩
  have top := copied_nil copy.copied
  have last : below = 0 := by rw [← copy.leaf, top]; rfl
  exact absurd (copy.among last) (by simp)

theorem Copied.skip {a : PhysAddr} (copied : Copied (done ++ [i]) s.mem pgtab path)
    (missing : entryTable (s.mem pgtab i) = none) (found : tableAt s.mem pgtab path = some a) :
    Copied done s.mem pgtab path := by
  obtain old | ⟨rest, rfl, -⟩ := copied_append copied (Nat.le_succ _)
  · exact old
  · rw [tableAt, walk_cons, missing] at found
    simp at found

theorem CopyAt.skip (copy : CopyAt (done ++ [i]) below s.mem pgtab path t j g)
    (missing : entryTable (s.mem pgtab i) = none) (absent : below = 0 → ¬ Present (s.mem pgtab i)) :
    CopyAt done below s.mem pgtab path t j g := by
  refine ⟨copy.copied.skip missing copy.table, copy.leaf, copy.table, fun last => ?_, copy.present,
    copy.page⟩
  rcases List.mem_append.mp (copy.among last) with member | here
  · exact member
  · obtain rfl : j = i := by simpa using here
    obtain rfl : path = [] := List.eq_nil_of_length_eq_zero (copy.leaf.trans last)
    obtain rfl : pgtab = t := Option.some.inj copy.table
    exact absurd copy.present (absent last)

theorem Counted.skip (counted : Counted below s pgtab done cur)
    (absent : ¬ Present (s.mem pgtab i)) : Counted below s pgtab (done ++ [i]) cur := by
  have more := List.subset_append_left done [i]
  refine ⟨fun g unmapped => counted.none g fun path t j copy => unmapped path t j (copy.mono more), ?_⟩
  intro g path t j copy unique
  refine counted.once g path t j (copy.skip (entryTable_absent absent) fun _ => absent) ?_
  exact fun path' t' j' copy' => unique path' t' j' (copy'.mono more)

theorem Counted.leaf (counted : Counted 0 s pgtab done cur) (new : i ∉ done)
    (present : Present (s.mem pgtab i))
    (refcount : next.refcount = Function.update cur.refcount (s.mem pgtab i &&& pteAddrMask)
      (cur.refcount (s.mem pgtab i &&& pteAddrMask) + sharesAdded (s.mem pgtab i))) : Counted 0 s
      pgtab (done ++ [i]) next := by
  have here : CopyAt (done ++ [i]) 0 s.mem pgtab [] pgtab i (s.mem pgtab i &&& pteAddrMask) :=
    ⟨trivial, rfl, rfl, by simp, present, rfl⟩
  refine ⟨fun g unmapped => ?_, fun g path t j copy unique => ?_⟩
  · have other : g ≠ s.mem pgtab i &&& pteAddrMask := by
      rintro rfl
      exact unmapped _ _ _ here
    rw [refcount, Function.update_of_ne other]
    exact counted.none g fun path t j copy => unmapped path t j (copy.mono (List.subset_append_left _ _))
  · obtain rfl : path = [] := List.eq_nil_of_length_eq_zero copy.leaf
    obtain rfl : pgtab = t := Option.some.inj copy.table
    by_cases last : j = i
    · subst last
      have before : cur.refcount g = s.refcount g := by
        refine counted.none g fun path' t' j' earlier => ?_
        have same := (unique path' t' j' (earlier.mono (List.subset_append_left _ _))).2
        exact new (same ▸ earlier.among rfl)
      rw [refcount, copy.page, Function.update_self, before]
    · have earlier : CopyAt done 0 s.mem pgtab [] pgtab j g :=
        ⟨trivial, rfl, rfl, fun _ => by simpa [last] using copy.among rfl, copy.present, copy.page⟩
      have other : g ≠ s.mem pgtab i &&& pteAddrMask := by
        rintro rfl
        exact last (unique [] pgtab i here).2.symm
      rw [refcount, Function.update_of_ne other]
      exact counted.once g [] pgtab j earlier fun path' t' j' copy' =>
        unique path' t' j' (copy'.mono (List.subset_append_left _ _))

section Node
variable {lower : Nat} {i : Fin 512} {child copy : PhysAddr} {mid : State} {fresh : List PhysAddr}

theorem copyAt_child {mem mem' : PhysMem} {inner : List (Fin 512)} (all : ∀ j, j ∈ inner)
    (link : entryTable (mem pgtab i) = some child) (among : i ∈ done')
    (old : ∀ {rest t}, rest.length ≤ lower → tableAt mem pgtab (i :: rest) = some t → mem' t = mem t) :
    CopyAt inner lower mem' child rest t j g ↔ CopyAt done' (lower + 1) mem pgtab (i :: rest) t j g := by
  have subtree : rest.length ≤ lower → tableAt mem' child rest = tableAt mem pgtab (i :: rest) :=
    subtree_kept link old
  constructor
  · intro below
    have found : tableAt mem pgtab (i :: rest) = some t := (subtree below.leaf.le).symm.trans below.table
    have same := old below.leaf.le found
    refine ⟨⟨among, (entryTable_eq_some.mp link).1⟩, by simp [below.leaf], found, by simp, ?_, ?_⟩
    · rw [← same]
      exact below.present
    · rw [← same]
      exact below.page
  · intro above
    have leaf : rest.length = lower := by simpa using above.leaf
    have found : tableAt mem' child rest = some t := (subtree leaf.le).trans above.table
    have same := old leaf.le above.table
    refine ⟨tableAt_copied all found, leaf, found, fun _ => all j, ?_, ?_⟩
    · rw [same]
      exact above.present
    · rw [same]
      exact above.page

theorem NodeStep.copyAt_iff
    (node : NodeStep kernel lower s pgtab done rv cur used i child copy mid fresh next) :
    CopyAt (indices (cloneLimit lower)) lower cur.mem child rest t j g ↔
      CopyAt (done ++ [i]) (lower + 1) s.mem pgtab (i :: rest) t j g :=
  copyAt_child node.all node.link (by simp)
    (node.cloned.below_old node.clonable node.range node.here node.new node.link)

theorem Counted.node (counted : Counted (lower + 1) s pgtab done cur)
    (node : NodeStep kernel lower s pgtab done rv cur used i child copy mid fresh next)
    (below : Counted lower cur child (indices (cloneLimit lower)) mid) :
    Counted (lower + 1) s pgtab (done ++ [i]) next := by
  have refcount : next.refcount = mid.refcount := by rw [node.linked]; rfl
  have more := List.subset_append_left done [i]
  refine ⟨fun g unmapped => ?_, fun g path t j found unique => ?_⟩
  · rw [refcount, below.none g fun rest t j copy => unmapped _ t j (node.copyAt_iff.mp copy)]
    exact counted.none g fun path t j copy => unmapped path t j (copy.mono more)
  · rcases copied_append found.copied found.leaf.le with old | ⟨rest, rfl, -⟩
    · -- counted before, and the entry adds nothing
      have earlier : CopyAt done (lower + 1) s.mem pgtab path t j g :=
        ⟨old, found.leaf, found.table, by simp, found.present, found.page⟩
      rw [refcount, below.none g, counted.once g path t j earlier fun path' t' j' copy' =>
        unique path' t' j' (copy'.mono more)]
      intro rest t' j' copy'
      have same := (unique _ t' j' (node.copyAt_iff.mp copy')).1
      rw [← same] at old
      exact node.new old.1
    · have leaf : rest.length = lower := by simpa using found.leaf
      have before : cur.refcount g = s.refcount g := by
        refine counted.none g fun path' t' j' copy' => ?_
        have same := (unique path' t' j' (copy'.mono more)).1
        have first := copy'.copied
        rw [same] at first
        exact node.new first.1
      rw [refcount, below.once g rest t j (node.copyAt_iff.mpr found), before,
        node.leaf_old leaf found.table]
      intro rest' t' j' copy'
      obtain ⟨same, index⟩ := unique _ t' j' (node.copyAt_iff.mp copy')
      exact ⟨(List.cons.inj same).2, index⟩

end Node

/-! ## The whole call -/

/-- To show something of every state of the loops next to the copy that they build, show it
at the start, for an entry passed over, for an entry of the last level and for a table. -/
theorem clonePgtab_rule {Q : Nat → State → PhysAddr → List (Fin 512) → PhysAddr → State →
    List PhysAddr → Prop}
    (first : ∀ {below s pgtab rv cur}, cloneRoot kernel below s = .ok (rv, cur) →
      Q below s pgtab [] rv cur [rv])
    (skip : ∀ {below s pgtab done rv cur used i}, Q below s pgtab done rv cur used →
      ¬ Present (s.mem pgtab i) →
      Q below s pgtab (done ++ [i]) rv cur used)
    (leaf : ∀ {s pgtab done rv cur used i dest mid}, Q 0 s pgtab done rv cur used → i ∉ done →
      Present (s.mem pgtab i) → cur.mem pgtab i = s.mem pgtab i → cowCopyPte cur pgtab i = .ok (dest, mid) →
      Q 0 s pgtab (done ++ [i]) rv (mid.setEntry rv i dest) used)
    (node : ∀ {lower s pgtab done rv cur used i child copy mid fresh next},
      Q (lower + 1) s pgtab done rv cur used →
      NodeStep kernel lower s pgtab done rv cur used i child copy mid fresh next →
      Q lower cur child (indices (cloneLimit lower)) copy mid fresh →
      Q (lower + 1) s pgtab (done ++ [i]) rv next (used ++ fresh)) (low : below ≤ 3)
    (clonable : Clonable kernel below s pgtab) (root : cloneRoot kernel below s = .ok (rv, start))
    (range : done ⊆ indices (cloneLimit below)) (distinct : done.Nodup)
    (ran : done.foldlM (cloneEntry (cloneChild kernel below) pgtab rv) start = .ok cur) :
    ∃ used, Cloned kernel below s pgtab done rv cur used ∧ Q below s pgtab done rv cur used := by
  induction below generalizing s pgtab rv done cur start
  all_goals
    refine loop_invariant (fun done cur => ∃ used, Cloned kernel _ s pgtab done rv cur used ∧
      Q _ s pgtab done rv cur used) ⟨_, cloned_start clonable root, first root⟩ ?_ ran
    rintro front i rest cur next split ⟨used, cloned, holds⟩ ran
    obtain ⟨within, here, new⟩ := loop_element range distinct split
    have same := cloned.source_same clonable within new
    by_cases present : Present (s.mem pgtab i)
    case neg =>
      rw [cloneEntry_absent (same ▸ present), Except.ok.injEq] at ran
      exact ran ▸ ⟨used, cloned.skip present, skip holds present⟩
  · obtain ⟨dest, mid, copied, rfl⟩ := cloneEntry_leaf_cases (same ▸ present) ran
    refine ⟨used, ?_, leaf holds new present same copied⟩
    obtain ⟨rfl, supply, inUse, memory, -⟩ := cowCopyPte_cases copied
    refine cloned.leaf clonable new present supply inUse ?_
    simp only [State.setEntry, memory, same]
  · rename_i lower ih _ _
    have inner : lower ≠ 3 := by omega
    obtain ⟨child, copy, mid, link, copied, linked⟩ := cloneEntry_node_cases (same ▸ present) ran
    rw [same] at link linked
    obtain ⟨start', root', loop'⟩ := clonePgtab_cases copied
    obtain ⟨fresh, finished, below⟩ := ih (by omega)
      (cloned.child_clonable clonable within here new link (by omega)) root' (List.Subset.refl _)
      (indices_nodup _) loop'
    have step : NodeStep kernel lower s pgtab front rv cur used i child copy mid fresh next :=
      ⟨inner, mem_indices_inner inner, clonable, cloned, within, here, new, link, finished, linked⟩
    exact ⟨_, step.cloned_next, node holds step below⟩

/-- Every state of the loop of a call, and so its result, is a copy of the entries done. -/
theorem clonePgtab_loop (low : below ≤ 3) (clonable : Clonable kernel below s pgtab)
    (root : cloneRoot kernel below s = .ok (rv, start)) (range : done ⊆ indices (cloneLimit below))
    (distinct : done.Nodup)
    (ran : done.foldlM (cloneEntry (cloneChild kernel below) pgtab rv) start = .ok cur) :
    (∃ used, Cloned kernel below s pgtab done rv cur used) ∧ Counted below s pgtab done cur := by
  have both : ∃ used, Cloned kernel below s pgtab done rv cur used ∧ Counted below s pgtab done cur := by
    refine clonePgtab_rule (Q := fun below s pgtab done _ cur _ => Counted below s pgtab done cur)
      counted_start
      (fun counted absent => counted.skip absent) (fun counted new present same copied => ?_)
      (fun counted node below => counted.node node below) low clonable root range distinct ran
    obtain ⟨-, -, -, -, refcount⟩ := cowCopyPte_cases copied
    rw [same] at refcount
    exact counted.leaf new present refcount
  obtain ⟨used, cloned, counted⟩ := both
  exact ⟨⟨used, cloned⟩, counted⟩

theorem clonePgtab_spec (low : below ≤ 3) (clonable : Clonable kernel below s pgtab)
    (ran : clonePgtab kernel below s pgtab = .ok (rv, s')) :
    (∃ used, Cloned kernel below s pgtab (indices (cloneLimit below)) rv s' used) ∧
      Counted below s pgtab (indices (cloneLimit below)) s' := by
  obtain ⟨start, root, loop⟩ := clonePgtab_cases ran
  exact clonePgtab_loop low clonable root (List.Subset.refl _) (indices_nodup _) loop

/-! ## Faults -/

/-- A call of `clone_pgtab` stops at entry `i` of the last-level table `t`, where `cow_copy_pte`
fails in the state `cur`. -/
inductive StopsAt (kernel : Kernel) (fault : Fault) :
    Nat → State → PhysAddr → State → PhysAddr → Fin 512 → Prop where
  | leaf {s start cur : State} {pgtab rv : PhysAddr} {done rest : List (Fin 512)} {i : Fin 512} :
      cloneRoot kernel 0 s = .ok (rv, start) → indices (cloneLimit 0) = done ++ i :: rest →
      done.foldlM (cloneEntry (cloneChild kernel 0) pgtab rv) start = .ok cur →
      Present (cur.mem pgtab i) → cowCopyPte cur pgtab i = .error fault →
      StopsAt kernel fault 0 s pgtab cur pgtab i
  | node {lower : Nat} {s start mid cur : State} {pgtab rv child t : PhysAddr}
      {done rest : List (Fin 512)} {i j : Fin 512} :
      cloneRoot kernel (lower + 1) s = .ok (rv, start) →
      indices (cloneLimit (lower + 1)) = done ++ i :: rest →
      done.foldlM (cloneEntry (cloneChild kernel (lower + 1)) pgtab rv) start = .ok mid →
      entryTable (mid.mem pgtab i) = some child → StopsAt kernel fault lower mid child cur t j →
      StopsAt kernel fault (lower + 1) s pgtab cur t j

section Stop

variable {rest' : List (Fin 512)} {i : Fin 512}

/-- What the loop over the entries of a table has done when it comes to entry `i`. -/
theorem cloned_before (low : below ≤ 3) (clonable : Clonable kernel below s pgtab)
    (root : cloneRoot kernel below s = .ok (rv, start))
    (split : indices (cloneLimit below) = done ++ i :: rest')
    (ran : done.foldlM (cloneEntry (cloneChild kernel below) pgtab rv) start = .ok cur) :
    (∃ used, Cloned kernel below s pgtab done rv cur used) ∧ Counted below s pgtab done cur ∧
      done ⊆ indices (cloneLimit below) ∧ i ∈ indices (cloneLimit below) ∧ i ∉ done ∧
      cur.mem pgtab i = s.mem pgtab i := by
  obtain ⟨within, here, new⟩ := loop_element (List.Subset.refl _) (indices_nodup _) split
  have distinct : done.Nodup := (List.nodup_append.mp (split ▸ indices_nodup (cloneLimit _))).1
  obtain ⟨⟨used, cloned⟩, counted⟩ := clonePgtab_loop low clonable root within distinct ran
  exact ⟨⟨used, cloned⟩, counted, within, here, new, cloned.source_same clonable within new⟩

/-- The entry at which a call stops is one of those to be copied and still as it was. Its page,
if it is mapped nowhere else, has not been counted yet. -/
theorem StopsAt.slot (low : below ≤ 3) (clonable : Clonable kernel below s pgtab)
    (stops : StopsAt kernel fault below s pgtab cur t j) :
    ∃ path, CopyAt (indices (cloneLimit below)) below s.mem pgtab path t j
      (s.mem t j &&& pteAddrMask) ∧ cur.mem t j = s.mem t j ∧ cowCopyPte cur t j = .error fault ∧
      ((∀ path' t' j', CopyAt (indices (cloneLimit below)) below s.mem pgtab path' t' j'
          (s.mem t j &&& pteAddrMask) → path' = path ∧ j' = j) →
        cur.refcount (s.mem t j &&& pteAddrMask) = s.refcount (s.mem t j &&& pteAddrMask)) := by
  induction stops with
  | @leaf s start cur pgtab rv done rest i root split ran present failed =>
    obtain ⟨-, counted, within, here, new, same⟩ := cloned_before low clonable root split ran
    refine ⟨[], ⟨trivial, rfl, rfl, fun _ => here, same ▸ present, rfl⟩, same, failed, fun unique => ?_⟩
    refine counted.none _ fun path' t' j' copy' => ?_
    exact new ((unique path' t' j' (copy'.mono within)).2 ▸ copy'.among rfl)
  | @node lower s start mid cur pgtab rv child t done rest i j root split ran link stops ih =>
    obtain ⟨⟨used, cloned⟩, counted, within, here, new, same⟩ := cloned_before low clonable root split ran
    rw [same] at link
    obtain ⟨path, copy, kept, failed, uncounted⟩ :=
      ih (by omega) (cloned.child_clonable clonable within here new link (by omega))
    have outer : ∀ {rest t j g}, CopyAt (indices (cloneLimit lower)) lower mid.mem child rest t j
        g → CopyAt (indices (cloneLimit (lower + 1))) (lower + 1) s.mem pgtab (i :: rest) t j g :=
      (copyAt_child (mem_indices_inner (by omega)) link here
        (cloned.below_old clonable within here new link)).mp
    have old : mid.mem t = s.mem t :=
      cloned.below_old clonable within here new link copy.leaf.le (outer copy).table
    rw [old] at copy kept uncounted
    refine ⟨i :: path, outer copy, kept, failed, fun unique => ?_⟩
    rw [uncounted fun path' t' j' copy' => ?_]
    · refine counted.none _ fun path' t' j' copy' => ?_
      have first := copy'.copied
      rw [(unique path' t' j' (copy'.mono within)).1] at first
      exact new first.1
    · obtain ⟨same, index⟩ := unique _ t' j' (outer copy')
      exact ⟨(List.cons.inj same).2, index⟩

end Stop

end

end ByteOS.Mm
