import ByteOS.Mm.MmuCpus

/-! The processors in `mmu->cpus` are those that run on the address space. -/

set_option autoImplicit false

namespace ByteOS.Mm.Cpus

open ByteOS.Smp ByteOS.Lib
open Function (update update_self update_of_ne)
open Machine (setInfo writeCr3 setCurrent)

variable {n dummy : Nat} {m m' mid : Machine n} {i : Fin n}

structure Tracked (dummy : Nat) (m : Machine n) : Prop where
  mmu : ∀ t ∈ m.tasks, m.taskMmu t ≠ .kernelMmu → m.taskMmu t ∈ m.mmus
  tasks : ∀ i, (m.cpu i).current ∈ m.tasks
  apart : ∀ i j, (m.cpu i).current = (m.cpu j).current → i = j ∨ (m.cpu i).current = dummy
  own : ∀ i j, i ≠ j → m.taskMmu (m.cpu i).current = m.taskMmu (m.cpu j).current →
    m.taskMmu (m.cpu i).current = .kernelMmu
  cr3 : ∀ i, (m.cpu i).cr3 = (m.info (m.taskMmu (m.cpu i).current)).p4
  kernelOut : .kernelMmu ∉ m.mmus
  pages : ∀ mmu ∈ m.mmus, (m.info mmu).p4 ∈ m.pages
  kernelPage : (m.info .kernelMmu).p4 ∉ m.pages
  distinct : ∀ a ∈ m.mmus, ∀ b ∈ m.mmus, (m.info a).p4 = (m.info b).p4 → a = b
  cpus : ∀ mmu ∈ m.mmus, ∀ i : Fin n, cpusetQueryId (m.info mmu).cpus i = .ok true ↔
    m.taskMmu (m.cpu i).current = mmu

variable {mmu ref : MmuPtr} {next page t addr : Nat} {kind : ForkKind}

theorem Tracked.cr3_iff (inv : Tracked dummy m) (known : mmu ∈ m.mmus) (i : Fin n) :
    (m.cpu i).cr3 = (m.info mmu).p4 ↔ m.taskMmu (m.cpu i).current = mmu := by
  rw [inv.cr3 i]
  constructor
  · intro same
    by_cases kernel : m.taskMmu (m.cpu i).current = .kernelMmu
    · rw [kernel] at same
      exact absurd (same ▸ inv.pages mmu known) inv.kernelPage
    · exact inv.distinct _ (inv.mmu _ (inv.tasks i) kernel) mmu known same
  · exact fun same => by rw [same]

variable {idle : Fin n → Nat}

theorem Booted.runs (booted : Booted m dummy idle) (i : Fin n) : (m.cpu i).current ∈ m.tasks :=
  (booted.tasks _).mpr (.inl (booted.current i))

theorem Booted.tracked (booted : Booted m dummy idle) : Tracked dummy m where
  mmu t task user := absurd (booted.threads t task) user
  tasks := booted.runs
  apart i _ _ := .inr (booted.current i)
  own i _ _ _ := booted.threads _ (booted.runs i)
  cr3 i := by rw [booted.threads _ (booted.runs i), booted.cr3 i]
  kernelOut := by simp [booted.mmus]
  pages := by simp [booted.mmus]
  kernelPage := by simp [booted.pages]
  distinct := by simp [booted.mmus]
  cpus := by simp [booted.mmus]

/-- A switch between tasks of one address space, to a task that no processor runs. -/
def SameMmu (m : Machine n) (i : Fin n) (next : Nat) : Prop :=
  m.taskMmu next = m.taskMmu (m.cpu i).current ∧ ∀ j, j ≠ i → (m.cpu j).current ≠ next

theorem switchTo_same (same : m.taskMmu next = m.taskMmu (m.cpu i).current)
    (ran : switchTo m i next = .ok m') : m' = m.setCurrent i next := by
  unfold switchTo mmuSwitch at ran
  rw [if_neg (not_not.mpr same)] at ran
  obtain ⟨_, _, ran⟩ := bind_eq_ok.mp ran
  exact (Except.ok.inj ran).symm

theorem switchTo_tracked (inv : Tracked dummy m) (task : next ∈ m.tasks) (same : SameMmu m i next)
    (ran : switchTo m i next = .ok m') : Tracked dummy m' := by
  obtain ⟨mmu, alone⟩ := same
  obtain rfl := switchTo_same mmu ran
  have current : ∀ j, ((m.setCurrent i next).cpu j).current =
      if j = i then next else (m.cpu j).current := by
    intro j
    by_cases here : j = i
    · simp [setCurrent, here]
    · simp [setCurrent, here]
  have runs : ∀ j, m.taskMmu ((m.setCurrent i next).cpu j).current = m.taskMmu (m.cpu j).current := by
    intro j
    rw [current j]
    split
    case isTrue here => rw [mmu, here]
    case isFalse => rfl
  have cr3 : ∀ j, ((m.setCurrent i next).cpu j).cr3 = (m.cpu j).cr3 := by
    intro j
    by_cases here : j = i
    · simp [setCurrent, here]
    · simp [setCurrent, here]
  refine ⟨inv.mmu, fun j => ?_, fun j k => ?_, fun j k other => ?_, fun j => ?_, inv.kernelOut,
    inv.pages, inv.kernelPage, inv.distinct, fun mmu known j => ?_⟩
  · rw [current j]
    split
    · exact task
    · exact inv.tasks j
  · rw [current j, current k]
    split
    case isTrue here =>
      subst here
      split
      case isTrue also => exact fun _ => .inl also.symm
      case isFalse other => exact fun clash => absurd clash.symm (alone k other)
    case isFalse elsewhere =>
      split
      case isTrue here => exact fun clash => absurd clash (alone j elsewhere)
      case isFalse => exact inv.apart j k
  · change m.taskMmu _ = m.taskMmu _ → m.taskMmu _ = _
    rw [runs j, runs k]
    exact inv.own j k other
  · change _ = (m.info (m.taskMmu _)).p4
    rw [cr3 j, runs j]
    exact inv.cr3 j
  · change _ ↔ m.taskMmu _ = mmu
    rw [runs j]
    exact inv.cpus mmu known j

/-- The address space `ref` has been given the top-level table `page`, the others are as
they were. -/
structure Given (m : Machine n) (ref : MmuPtr) (page : Nat) (m' : Machine n) : Prop where
  user : ref ≠ .kernelMmu
  others : ∀ mmu, mmu ≠ ref → m'.info mmu = m.info mmu
  p4 : (m'.info ref).p4 = page
  mmus : ∀ mmu, mmu ∈ m'.mmus ↔ mmu = ref ∨ mmu ∈ m.mmus
  held : page ∈ m'.pages
  kept : ∀ mmu ∈ m.mmus, mmu ≠ ref → (m.info mmu).p4 ∈ m'.pages ∧ (m.info mmu).p4 ≠ page
  fewer : ∀ p ∈ m'.pages, p = page ∨ p ∈ m.pages
  kernelPage : page ≠ (m.info .kernelMmu).p4

theorem Given.tables (given : Given m ref page m') (inv : Tracked dummy m) :
    .kernelMmu ∉ m'.mmus ∧ (∀ mmu ∈ m'.mmus, (m'.info mmu).p4 ∈ m'.pages) ∧
      (m'.info .kernelMmu).p4 ∉ m'.pages ∧
      ∀ a ∈ m'.mmus, ∀ b ∈ m'.mmus, (m'.info a).p4 = (m'.info b).p4 → a = b := by
  have entry : ∀ mmu ∈ m'.mmus, mmu = ref ∧ (m'.info mmu).p4 = page ∨
      mmu ≠ ref ∧ mmu ∈ m.mmus ∧ m'.info mmu = m.info mmu := by
    intro mmu known
    by_cases same : mmu = ref
    · exact .inl ⟨same, same ▸ given.p4⟩
    · exact .inr ⟨same, ((given.mmus mmu).mp known).resolve_left same, given.others mmu same⟩
  refine ⟨fun kernel => ?_, fun mmu known => ?_, fun held => ?_, fun a knownA b knownB same => ?_⟩
  · obtain same | old := (given.mmus _).mp kernel
    · exact given.user same.symm
    · exact inv.kernelOut old
  · obtain ⟨-, p4⟩ | ⟨other, old, info⟩ := entry mmu known
    · exact p4 ▸ given.held
    · rw [info]
      exact (given.kept mmu old other).1
  · rw [given.others _ (Ne.symm given.user)] at held
    obtain same | old := given.fewer _ held
    · exact given.kernelPage same.symm
    · exact inv.kernelPage old
  · obtain ⟨rfl, p4⟩ | ⟨otherA, oldA, infoA⟩ := entry a knownA
    · obtain ⟨same', -⟩ | ⟨otherB, oldB, infoB⟩ := entry b knownB
      · exact same'.symm
      · rw [p4, infoB] at same
        exact absurd same.symm (given.kept b oldB otherB).2
    · obtain ⟨rfl, p4⟩ | ⟨otherB, oldB, infoB⟩ := entry b knownB
      · rw [p4, infoA] at same
        exact absurd same (given.kept a oldA otherA).2
      · rw [infoA, infoB] at same
        exact inv.distinct a oldA b oldB same

/-- A processor that runs on the new table of `ref`, and ran on `ref` or on the kernel's
tables before, or one that runs on what it ran on before. -/
def Ran (m : Machine n) (ref : MmuPtr) (m' : Machine n) (j : Fin n) : Prop :=
  (m'.taskMmu (m'.cpu j).current = ref ∧ (m'.cpu j).cr3 = (m'.info ref).p4 ∧
      cpusetQueryId (m'.info ref).cpus j = .ok true) ∧
      (m.taskMmu (m.cpu j).current = ref ∨ m.taskMmu (m.cpu j).current = .kernelMmu) ∨
    m'.taskMmu (m'.cpu j).current ≠ ref ∧ ¬ cpusetQueryId (m'.info ref).cpus j = .ok true ∧
      m'.taskMmu (m'.cpu j).current = m.taskMmu (m.cpu j).current ∧ (m'.cpu j).cr3 = (m.cpu j).cr3

theorem Given.tracked (given : Given m ref page m') (inv : Tracked dummy m)
    (mmu : ∀ t ∈ m'.tasks, m'.taskMmu t ≠ .kernelMmu → m'.taskMmu t ∈ m'.mmus)
    (tasks : ∀ j, (m'.cpu j).current ∈ m'.tasks)
    (apart : ∀ j k, (m'.cpu j).current = (m'.cpu k).current → j = k ∨ (m'.cpu j).current = dummy)
    (ran : ∀ j, Ran m ref m' j)
    (one : ∀ j k, m'.taskMmu (m'.cpu j).current = ref → m'.taskMmu (m'.cpu k).current = ref →
      j = k) : Tracked dummy m' := by
  obtain ⟨kernelOut, pages, kernelPage, distinct⟩ := given.tables inv
  refine ⟨mmu, tasks, apart, fun j k other same => ?_, fun j => ?_, kernelOut, pages, kernelPage,
    distinct, fun a known j => ?_⟩
  · obtain ⟨⟨here, -, -⟩, -⟩ | ⟨elsewhere, -, before, -⟩ := ran j
    · exact absurd (one j k here (same ▸ here)) other
    · obtain ⟨⟨here, -, -⟩, -⟩ | ⟨-, -, before', -⟩ := ran k
      · exact absurd (same.trans here) elsewhere
      · rw [before, before'] at same
        rw [before]
        exact inv.own j k other same
  · obtain ⟨⟨here, cr3, -⟩, -⟩ | ⟨elsewhere, -, before, cr3⟩ := ran j
    · rw [here, cr3]
    · rw [given.others _ elsewhere, before, cr3]
      exact inv.cr3 j
  · by_cases same : a = ref
    · rw [same]
      obtain ⟨⟨here, -, set⟩, -⟩ | ⟨elsewhere, clear, -, -⟩ := ran j
      · exact iff_of_true set here
      · exact iff_of_false clear elsewhere
    · have old : a ∈ m.mmus := ((given.mmus a).mp known).resolve_left same
      rw [given.others a same, inv.cpus a old j]
      obtain ⟨⟨here, -, -⟩, source⟩ | ⟨-, -, before, -⟩ := ran j
      · refine iff_of_false (fun there => ?_) fun there => same (there.symm.trans here)
        obtain ref | kernel := source
        · exact same (there.symm.trans ref)
        · exact inv.kernelOut (kernel ▸ there ▸ old)
      · rw [before]

section Fork

theorem Tracked.new_task (inv : Tracked dummy m) (new : t ∉ m.tasks) (mmu : MmuPtr) (i : Fin n) :
    update m.taskMmu t mmu (m.cpu i).current = m.taskMmu (m.cpu i).current := by
  refine update_of_ne ?_ mmu m.taskMmu
  rintro rfl
  exact new (inv.tasks i)

theorem Tracked.add_task (inv : Tracked dummy m) (new : t ∉ m.tasks)
    (known : mmu ≠ .kernelMmu → mmu ∈ m.mmus) {info : MmuPtr → MmuInfo}
    (same : ∀ a, (info a).p4 = (m.info a).p4 ∧ (info a).cpus = (m.info a).cpus) :
    Tracked dummy { m with tasks := t :: m.tasks, taskMmu := update m.taskMmu t mmu, info := info } where
  mmu s task user := by
    by_cases here : s = t
    · rw [here] at user ⊢
      simp only [update_self] at user ⊢
      exact known user
    · simp only [update_of_ne here] at user ⊢
      exact inv.mmu s ((List.mem_cons.mp task).resolve_left here) user
  tasks i := List.mem_cons_of_mem t (inv.tasks i)
  apart := inv.apart
  own i j other := by
    simp only [inv.new_task new]
    exact inv.own i j other
  cr3 i := by
    simp only [inv.new_task new, (same _).1]
    exact inv.cr3 i
  kernelOut := inv.kernelOut
  pages a known := by
    simp only [(same a).1]
    exact inv.pages a known
  kernelPage := by
    simp only [(same _).1]
    exact inv.kernelPage
  distinct a knownA b knownB := by
    simp only [(same _).1]
    exact inv.distinct a knownA b knownB
  cpus a known i := by
    simp only [inv.new_task new, (same a).2]
    exact inv.cpus a known i

theorem mmuIncUsers_cases (m : Machine n) (mmu : MmuPtr) :
    ∃ info, mmuIncUsers m mmu = { m with info := info } ∧
      ∀ a, (info a).p4 = (m.info a).p4 ∧ (info a).cpus = (m.info a).cpus := by
  unfold mmuIncUsers
  split
  · refine ⟨_, rfl, fun a => ?_⟩
    by_cases same : a = mmu
    · rw [same, update_self]
      exact ⟨rfl, rfl⟩
    · rw [update_of_ne same]
      exact ⟨rfl, rfl⟩
  · exact ⟨m.info, rfl, fun _ => ⟨rfl, rfl⟩⟩

theorem mmuAlloc_eq (m : Machine n) (addr : Nat) : mmuAlloc m addr =
    { m with
      mmus := .allocated addr :: m.mmus
      info := update m.info (.allocated addr) ⟨0, 1#32, 0#32⟩ } := by
  simp [mmuAlloc, mmuIncUsers, setInfo]

theorem process_tracked (inv : Tracked dummy m) (new : t ∉ m.tasks)
    (fresh : .allocated addr ∉ m.mmus) (free : m.Free page) : Tracked dummy { m with
      tasks := t :: m.tasks
      mmus := .allocated addr :: m.mmus
      pages := page :: m.pages
      taskMmu := update m.taskMmu t (.allocated addr)
      info := update m.info (.allocated addr) ⟨page, 1#32, 0#32⟩ } := by
  have unused : ∀ j, m.taskMmu (m.cpu j).current ≠ .allocated addr := by
    intro j here
    exact fresh (here ▸ inv.mmu _ (inv.tasks j) (by rw [here]; exact nofun))
  refine Given.tracked (?_ : Given m (.allocated addr) page _) inv (fun s task user => ?_)
    (fun j => List.mem_cons_of_mem t (inv.tasks j)) inv.apart (fun j => .inr ?_) fun j k here => ?_
  · refine ⟨nofun, fun mmu other => update_of_ne other _ _, by simp, fun mmu => List.mem_cons,
      List.mem_cons_self, fun mmu known other => ?_, fun p held => List.mem_cons.mp held, free.2.2⟩
    have page' := inv.pages mmu known
    exact ⟨List.mem_cons_of_mem page page', fun same => free.1 (same ▸ page')⟩
  · by_cases here : s = t
    · rw [here]
      simp
    · simp only [update_of_ne here] at user ⊢
      exact List.mem_cons_of_mem _ (inv.mmu s ((List.mem_cons.mp task).resolve_left here) user)
  · simp only [inv.new_task new, update_self]
    exact ⟨unused j, cpusetQueryId_empty j, trivial, trivial⟩
  · simp only [inv.new_task new] at here
    exact absurd here (unused j)

theorem taskFork_tracked (inv : Tracked dummy m) {parent : Nat} (task : parent ∈ m.tasks)
    (new : t ∉ m.tasks) (fresh : .allocated addr ∉ m.mmus) (free : m.Free page)
    (ran : taskFork m parent t kind addr page = .ok m') : Tracked dummy m' := by
  cases kind with
  | kthread =>
    cases ran
    exact inv.add_task new (fun user => absurd rfl user) fun _ => ⟨rfl, rfl⟩
  | uthread =>
    obtain ⟨info, counted, same⟩ := mmuIncUsers_cases { m with tasks := t :: m.tasks } (m.taskMmu parent)
    cases ran
    simp only [counted]
    exact inv.add_task new (inv.mmu parent task) same
  | process =>
    simp only [taskFork, mmuAlloc_eq] at ran
    obtain ⟨_, _, ran⟩ := bind_eq_ok.mp ran
    cases ran
    simp only [setInfo, Machine.setTaskMmu, update_self, Function.update_idem]
    exact process_tracked inv new fresh free

end Fork

section Execve

/-- What `task_execve` has done when it calls `mmu_init`: the task has the address space
`ref`, which no other processor runs on, and its old table may have been given back. -/
structure Readied (m : Machine n) (i : Fin n) (ref : MmuPtr) (mid : Machine n) : Prop where
  user : ref ≠ .kernelMmu
  mmus : ∀ mmu, mmu ∈ mid.mmus ↔ mmu = ref ∨ mmu ∈ m.mmus
  tasks : mid.tasks = m.tasks
  taskMmu : mid.taskMmu = update m.taskMmu (m.cpu i).current ref
  others : ∀ mmu, mmu ≠ ref → mid.info mmu = m.info mmu
  current : ∀ j, (mid.cpu j).current = (m.cpu j).current
  cr3 : ∀ j, j ≠ i → (mid.cpu j).cr3 = (m.cpu j).cr3
  kept : ∀ mmu ∈ m.mmus, mmu ≠ ref → (m.info mmu).p4 ∈ mid.pages
  fewer : ∀ p ∈ mid.pages, p ∈ m.pages
  alone : ∀ j, j ≠ i → m.taskMmu (m.cpu j).current ≠ ref
  source : m.taskMmu (m.cpu i).current = ref ∨ m.taskMmu (m.cpu i).current = .kernelMmu

theorem mmuDecUsers_readied (inv : Tracked dummy m)
    (user : m.taskMmu (m.cpu i).current ≠ .kernelMmu)
    (ran : mmuDecUsers m i (m.taskMmu (m.cpu i).current) = .ok mid) :
    Readied m i (m.taskMmu (m.cpu i).current) mid := by
  have known := inv.mmu _ (inv.tasks i) user
  have alone : ∀ j, j ≠ i → m.taskMmu (m.cpu j).current ≠ m.taskMmu (m.cpu i).current := fun j other same =>
    user (inv.own i j (Ne.symm other) same.symm)
  have member : ∀ mmu, mmu ∈ m.mmus ↔ mmu = m.taskMmu (m.cpu i).current ∨ mmu ∈ m.mmus := fun mmu =>
    ⟨.inr, fun either => either.elim (fun same => same ▸ known) id⟩
  unfold mmuDecUsers at ran
  rw [if_pos user] at ran
  dsimp only at ran
  split at ran
  case isTrue last =>
    unfold mmuFree at ran
    obtain ⟨_, _, ran⟩ := bind_eq_ok.mp ran
    obtain ⟨_, _, ran⟩ := bind_eq_ok.mp ran
    cases ran
    refine ⟨user, member, rfl, (Function.update_eq_self _ _).symm, fun mmu other => ?_, fun j => ?_,
      fun j other => ?_,
      fun mmu known other => ?_, fun p held => List.mem_of_mem_erase held, alone, .inl rfl⟩
    · simp [setInfo, writeCr3, other]
    · by_cases here : j = i
      · simp [setInfo, writeCr3, here]
      · simp [setInfo, writeCr3, here]
    · simp [setInfo, writeCr3, other]
    · simp only [setInfo, writeCr3, update_self]
      refine (List.mem_erase_of_ne fun same => other ?_).mpr (inv.pages mmu known)
      exact inv.distinct mmu known _ (inv.mmu _ (inv.tasks i) user) same
  case isFalse more =>
    cases ran
    refine ⟨user, member, rfl, ?_, fun mmu other => update_of_ne other _ _, fun _ => rfl,
      fun _ _ => rfl, fun mmu known other => inv.pages mmu known, fun _ => id, alone, .inl rfl⟩
    exact (Function.update_eq_self _ _).symm

theorem execveMmu_readied (inv : Tracked dummy m) (fresh : .allocated addr ∉ m.mmus)
    (ran : execveMmu m i addr = .ok mid) : ∃ ref, Readied m i ref mid := by
  unfold execveMmu at ran
  dsimp only at ran
  split at ran
  case isTrue kernel =>
    cases ran
    rw [mmuAlloc_eq]
    refine ⟨.allocated addr, nofun, fun mmu => List.mem_cons, rfl, rfl,
      fun mmu other => update_of_ne other _ _,
      fun _ => rfl, fun _ _ => rfl, fun mmu known other => inv.pages mmu known, fun _ => id,
        fun j _ here => ?_, .inr kernel⟩
    exact fresh (here ▸ inv.mmu _ (inv.tasks j) (by rw [here]; exact nofun))
  case isFalse user => exact ⟨_, mmuDecUsers_readied inv user ran⟩

theorem taskExecve_cases (ready : Readied m i ref mid) (readied : execveMmu m i addr = .ok mid)
    (ran : taskExecve m i addr page = .ok m') :
    ∃ cpus, cpusetSetId 0#32 i true = .ok cpus ∧ m' = { mid with
      pages := page :: mid.pages
      info := update mid.info ref ⟨page, (mid.info ref).users, cpus⟩
      cpu := update mid.cpu i { mid.cpu i with cr3 := page } } := by
  have self : mid.taskMmu (m.cpu i).current = ref := by rw [ready.taskMmu, update_self]
  unfold taskExecve at ran
  rw [readied, ok_bind] at ran
  simp only [mmuInit, setInfo, self, mmuUpdateCpuset, update_self, if_pos ready.user] at ran
  obtain ⟨set, updated, ran⟩ := bind_eq_ok.mp ran
  obtain ⟨cpus, added, updated⟩ := bind_eq_ok.mp updated
  cases updated
  cases ran
  refine ⟨cpus, added, ?_⟩
  simp [writeCr3, self]

theorem taskExecve_tracked (inv : Tracked dummy m) (self : (m.cpu i).current ≠ dummy)
    (fresh : .allocated addr ∉ m.mmus) (readied : execveMmu m i addr = .ok mid)
    (free : mid.Free page) (ran : taskExecve m i addr page = .ok m') : Tracked dummy m' := by
  obtain ⟨ref, ready⟩ := execveMmu_readied inv fresh readied
  obtain ⟨cpus, added, rfl⟩ := taskExecve_cases ready readied ran
  have current : ∀ j, (update mid.cpu i { mid.cpu i with cr3 := page } j).current = (m.cpu j).current := by
    intro j
    by_cases here : j = i
    · rw [here, update_self]
      exact ready.current i
    · rw [update_of_ne here]
      exact ready.current j
  have given : Given m ref page { mid with
      pages := page :: mid.pages
      info := update mid.info ref ⟨page, (mid.info ref).users, cpus⟩
      cpu := update mid.cpu i { mid.cpu i with cr3 := page } } := by
    refine ⟨ready.user, fun mmu other => ?_, by simp, ready.mmus, List.mem_cons_self,
      fun mmu known other => ?_,
      fun p held => (List.mem_cons.mp held).imp_right (ready.fewer p), ?_⟩
    · exact (update_of_ne other _ _).trans (ready.others mmu other)
    · have page' := ready.kept mmu known other
      exact ⟨List.mem_cons_of_mem page page', fun same => free.1 (same ▸ page')⟩
    · rw [← ready.others _ (Ne.symm ready.user)]
      exact free.2.2
  -- processor `i` runs on the new table, the others on what they ran on before
  have mine : update m.taskMmu (m.cpu i).current ref (m.cpu i).current = ref := update_self _ _ _
  have theirs : ∀ j, j ≠ i → update m.taskMmu (m.cpu i).current ref (m.cpu j).current =
      m.taskMmu (m.cpu j).current := fun j other =>
    update_of_ne (fun same => (inv.apart j i same).elim other fun shared => self (same ▸ shared)) _ _
  refine given.tracked inv (fun t task user => ?_) (fun j => ?_) (fun j k same => ?_) (fun j => ?_)
    fun j k here there => ?_
  · simp only [ready.taskMmu] at user ⊢
    by_cases here : t = (m.cpu i).current
    · rw [here, mine]
      exact (ready.mmus ref).mpr (.inl rfl)
    · rw [update_of_ne here] at user ⊢
      exact (ready.mmus _).mpr (.inr (inv.mmu t (ready.tasks ▸ task) user))
  · simp only [current, ready.tasks]
    exact inv.tasks j
  · simp only [current] at same ⊢
    exact inv.apart j k same
  · by_cases here : j = i
    · refine .inl ⟨⟨?_, by simp [here], ?_⟩, here ▸ ready.source⟩
      · simp only [current, ready.taskMmu, here, mine]
      · simp only [update_self]
        rw [cpusetQueryId_setId added, here, if_pos rfl]
    · have elsewhere := ready.alone j here
      refine .inr ⟨?_, ?_, ?_, ?_⟩
      · simp only [current, ready.taskMmu, theirs j here]
        exact elsewhere
      · simp only [update_self]
        rw [cpusetQueryId_setId added, if_neg fun same => here (Fin.ext same)]
        exact cpusetQueryId_empty j
      · simp only [current, ready.taskMmu, theirs j here]
      · simp only [update_of_ne here]
        exact ready.cr3 j here
  · have only : ∀ j, mid.taskMmu (update mid.cpu i { mid.cpu i with cr3 := page } j).current = ref →
      j = i := by
      intro j here
      by_contra other
      rw [current, ready.taskMmu, theirs j other] at here
      exact ready.alone j other here
    exact (only j here).trans (only k there).symm

end Execve

theorem step_tracked (step : Step dummy SameMmu m m') (inv : Tracked dummy m) : Tracked dummy m' := by
  cases step with
  | switch i next task same ran => exact switchTo_tracked inv task same ran
  | fork parent t kind addr page task new fresh free ran =>
    exact taskFork_tracked inv task new fresh free ran
  | execve i addr page self fresh readied free ran =>
    exact taskExecve_tracked inv self fresh readied free ran

/-- As long as processors switch only between tasks of one address space, a processor is in
`mmu->cpus` if and only if its `cr3` holds the tables of `mmu`. -/
theorem cpus_iff_cr3 {m₀ : Machine n} (booted : Booted m₀ dummy idle)
    (run : Reaches (Step dummy SameMmu) m₀ m) (mmu : MmuPtr) (known : mmu ∈ m.mmus) (i : Fin n) :
    cpusetQueryId (m.info mmu).cpus i = .ok true ↔ (m.cpu i).cr3 = (m.info mmu).p4 := by
  have inv : Tracked dummy m :=
    run.invariant (Tracked dummy) booted.tracked fun _ _ _ step => step_tracked step
  rw [inv.cr3_iff known i]
  exact inv.cpus mmu known i

section Concrete

/-- Two processors on the task `0`, with the idle tasks `1` and `2`. -/
def twoCpus : Machine 2 where
  info _ := ⟨1, 0#32, 0#32⟩
  mmus := []
  pages := []
  taskMmu _ := .kernelMmu
  tasks := [0, 1, 2]
  cpu _ := ⟨0, 1⟩

theorem twoCpus_booted : Booted twoCpus 0 fun i => i.val + 1 where
  current _ := rfl
  tasks t := by
    simp only [twoCpus, Fin.exists_fin_two, List.mem_cons, List.not_mem_nil, or_false]
    rfl
  threads _ _ := rfl
  cr3 _ := rfl
  mmus := rfl
  pages := rfl

/-- A kernel thread is forked, a processor switches to it, and it calls `task_execve` and forks. -/
def execed (i : Fin 2) (kind : ForkKind) : Except Fault (Machine 2) := do
  let m ← taskFork twoCpus 0 3 .kthread 50 15
  let m ← switchTo m i 3
  taskFork (← taskExecve m i 100 16) 3 4 kind 200 17

theorem execed_reaches {guard : Machine 2 → Fin 2 → Nat → Prop}
    (allowed : ∀ m, taskFork twoCpus 0 3 .kthread 50 15 = .ok m → guard m 0 3) {m : Machine 2}
    (ran : execed 0 kind = .ok m) : Reaches (Step 0 guard) twoCpus m := by
  have facts : ((taskFork twoCpus 0 3 .kthread 50 15).toOption.bind
      fun m => (switchTo m 0 3).toOption.bind fun m' =>
      (execveMmu m' 0 100).toOption.bind fun mid => (taskExecve m' 0 100 16).toOption.map fun m'' =>
        ([m.tasks, m''.tasks], [m'.mmus, m''.mmus], [mid.pages, m''.pages],
          [(m'.cpu 0).current, (mid.info .kernelMmu).p4, (m''.info .kernelMmu).p4])) =
      some ([[3, 0, 1, 2], [3, 0, 1, 2]], [[], [.allocated 100]], [[], [16]],
        [3, 1, 1]) := by decide +kernel
  unfold execed at ran
  obtain ⟨first, forked, ran⟩ := bind_eq_ok.mp ran
  obtain ⟨second, switched, ran⟩ := bind_eq_ok.mp ran
  obtain ⟨third, called, ran⟩ := bind_eq_ok.mp ran
  rw [forked, Except.toOption, Option.bind_some, switched, Except.toOption, Option.bind_some] at facts
  obtain ⟨mid, ready, facts⟩ := toOption_bind_eq_some.mp facts
  simp only [called, Except.toOption, Option.map_some, Option.some.injEq, Prod.mk.injEq,
    List.cons.injEq, and_true] at facts
  obtain ⟨⟨tasks, tasks'⟩, ⟨mmus, mmus'⟩, ⟨unused, pages⟩, current, top, kernel⟩ := facts
  have start : Step 0 guard twoCpus first :=
    .fork 0 3 .kthread 50 15 (by decide) (by decide) (by decide) ⟨by decide, by decide, by decide⟩ forked
  have moved : Step 0 guard first second := .switch 0 3 (by simp [tasks]) (allowed first forked) switched
  have execve : Step 0 guard second third := by
    refine .execve 0 100 16 (by rw [current]; decide) (by simp [mmus]) ready ?_ called
    simp [Machine.Free, unused, top]
  have begun : Reaches (Step 0 guard) twoCpus first := .single start
  refine ((begun.tail moved).tail execve).tail (.fork 3 4 kind 200 17 ?_ ?_ ?_ ?_ ran)
  · simp [tasks']
  · simp [tasks']
  · simp [mmus']
  · simp [Machine.Free, pages, kernel]

/-- A switch to another thread of the program. -/
theorem cpus_iff_cr3_thread : ∃ m : Machine 2, Reaches (Step 0 SameMmu) twoCpus m ∧
    (m.cpu 0).current = 4 ∧ (cpusetQueryId (m.info (.allocated 100)).cpus 0 = .ok true ↔
      (m.cpu 0).cr3 = (m.info (.allocated 100)).p4) := by
  have finished : ((execed 0 .uthread).toOption.bind fun m => (switchTo m 0 4).toOption.map fun m' =>
      (m.tasks, [m.taskMmu 4, m.taskMmu (m.cpu 0).current], m'.mmus,
        [(m.cpu 1).current, (m'.cpu 0).current])) =
      some ([4, 3, 0, 1, 2], [.allocated 100, .allocated 100], [.allocated 100],
        [0, 4]) := by decide +kernel
  obtain ⟨m, ran, finished⟩ := toOption_bind_eq_some.mp finished
  obtain ⟨m', switched, values⟩ := toOption_map_eq_some.mp finished
  simp only [Prod.mk.injEq, List.cons.injEq, and_true] at values
  obtain ⟨tasks, ⟨next, prev⟩, mmus, other, current⟩ := values
  have same : SameMmu m 0 4 := by
    refine ⟨next.trans prev.symm, fun j elsewhere => ?_⟩
    obtain rfl : j = 1 := by omega
    rw [other]
    decide
  have before : ∀ m, taskFork twoCpus 0 3 .kthread 50 15 = .ok m → SameMmu m 0 3 := by
    rintro m forked
    cases forked
    exact ⟨rfl, by decide⟩
  have run : Reaches (Step 0 SameMmu) twoCpus m' := (execed_reaches before ran).tail
    (.switch 0 4 (by simp [tasks]) same switched)
  exact ⟨m', run, current, cpus_iff_cr3 twoCpus_booted run (.allocated 100) (by simp [mmus]) 0⟩

/-- A switch to a kernel thread leaves the processor in the set of the program, and the switch
back takes it out. -/
theorem mmu_switch_reversed : ∃ away back : Machine 2, Booted twoCpus 0 (fun i => i.val + 1) ∧
    Reaches (Step 0 fun _ _ _ => True) twoCpus away ∧ Reaches (Step 0 fun _ _ _ => True) twoCpus back ∧
    (cpusetQueryId (away.info (.allocated 100)).cpus 0 = .ok true ∧
      (away.cpu 0).cr3 ≠ (away.info (.allocated 100)).p4) ∧
    (cpusetQueryId (back.info (.allocated 100)).cpus 0 = .ok false ∧
      (back.cpu 0).cr3 = (back.info (.allocated 100)).p4) := by
  have finished : ((execed 0 .kthread).toOption.bind fun m => (switchTo m 0 4).toOption.bind fun away =>
      (switchTo away 0 3).toOption.map fun back => ([m.tasks, away.tasks],
        [(cpusetQueryId (away.info (.allocated 100)).cpus 0).toOption,
          (cpusetQueryId (back.info (.allocated 100)).cpus 0).toOption],
        [(away.cpu 0).cr3, (away.info (.allocated 100)).p4, (back.cpu 0).cr3,
          (back.info (.allocated 100)).p4])) =
      some ([[4, 3, 0, 1, 2], [4, 3, 0, 1, 2]], [some true, some false],
        [1, 16, 16, 16]) := by decide +kernel
  obtain ⟨m, ran, finished⟩ := toOption_bind_eq_some.mp finished
  obtain ⟨away, left, finished⟩ := toOption_bind_eq_some.mp finished
  obtain ⟨back, returned, values⟩ := toOption_map_eq_some.mp finished
  simp only [Prod.mk.injEq, List.cons.injEq, and_true] at values
  obtain ⟨⟨tasks, tasks'⟩, ⟨stays, gone⟩, cr3, p4, cr3', p4'⟩ := values
  have first : Reaches (Step 0 fun _ _ _ => True) twoCpus away :=
    (execed_reaches (fun _ _ => trivial) ran).tail (.switch 0 4 (by simp [tasks]) trivial left)
  refine ⟨away, back, twoCpus_booted, first,
    first.tail (.switch 0 3 (by simp [tasks']) trivial returned), ?_, ?_⟩
  · exact ⟨toOption_eq_some.mp stays, by rw [cr3, p4]; decide⟩
  · exact ⟨toOption_eq_some.mp gone, cr3'.trans p4'.symm⟩

end Concrete

end ByteOS.Mm.Cpus
