import ByteOS.Lib.Census
import ByteOS.Lib.Transition

/-! The boot of the application processors: `smp_init` and `smp_boot_ap` of `kernel/smp/smp.c`,
with what such a processor does in `kernel/smp/trampoline.asm` and in `smp_ap_kmain`.

`smp_init` starts `lapic_list` from index 1 on and takes for granted what the firmware's table
says: that `lapic_list[0]` is the boot processor itself and that the identifiers of the list
are distinct. So does the model: application processor `i` is `lapic_list[i + 1]`, and what is
sent to `lapic->id` reaches that processor, no other one and not the boot processor.

A step is one access to what the processors share. After its startup interrupt an application
processor may go on at any time, or never: the boot processor sleeps for a while and then looks
at a flag.
-/

set_option autoImplicit false

namespace ByteOS.Smp.Boot

open Lib
open Function (update update_self update_of_ne update_apply)

/-- An application processor, with the stack pointer that it has loaded. -/
inductive Ap where
  | off
  | waiting
  | started
  | loaded (rsp : Option Nat)
  /-- Behind `lock inc byte [smp_ap_started_flag]`. -/
  | flagged (rsp : Option Nat)
  /-- Behind the increment of `smp_nr_cpus_ready`. -/
  | ready (rsp : Option Nat)
  deriving DecidableEq, Repr

/-- Where the boot processor is in `smp_boot_ap`, or behind the loop that calls it. -/
inductive Bsp (n : Nat) where
  | stack (i : Fin n)
  | clear (i : Fin n)
  | init (i : Fin n)
  | sipi (i : Fin n)
  | test (i : Fin n)
  | retry (i : Fin n)
  | retest (i : Fin n)
  | forget (i : Fin n)
  | release
  | wait
  | finished
  deriving DecidableEq, Repr

/-- `stack`, `flag` and `nrReady` are `smp_ap_stack`, `smp_ap_started_flag` and `smp_nr_cpus_ready`. A processor has
`failed` once `smp_boot_ap` has given it up; `allocated` are the stacks that have not been freed. -/
structure Machine (n : Nat) where
  pc : Bsp n
  stack : Option Nat
  flag : BitVec 8
  nrReady : Nat
  failed : Fin n → Bool
  ap : Fin n → Ap
  allocated : List Nat

variable {n : Nat}

/-- The next call of `smp_boot_ap`, if there is one. -/
def enter (n i : Nat) : Bsp n := if inside : i < n then .stack ⟨i, inside⟩ else .release

def Machine.initial (n : Nat) : Machine n := ⟨enter n 0, none, 0#8, 1, fun _ => false, fun _ => .off, []⟩

open Machine (initial)

/-- A startup interrupt is ignored by a processor that does not wait for one. -/
def Ap.startUp : Ap → Ap
  | .waiting => .started
  | a => a

/-- The boot processor goes on; `page` is what `pmm_alloc_order` returns if it is called. -/
def advance (m : Machine n) (page : Nat) : Machine n :=
  match m.pc with
  | .stack i =>
    let m := if m.stack = none then { m with stack := some page, allocated := page :: m.allocated } else m
    { m with pc := .clear i }
  | .clear i => { m with flag := 0#8, pc := .init i }
  | .init i => { m with ap := update m.ap i .waiting, pc := .sipi i }
  | .sipi i => { m with ap := update m.ap i (m.ap i).startUp, pc := .test i }
  | .test i => { m with pc := if m.flag = 0#8 then .retry i else .forget i }
  | .retry i => { m with ap := update m.ap i (m.ap i).startUp, pc := .retest i }
  | .retest i =>
    if m.flag = 0#8 then { m with failed := update m.failed i true, pc := enter n (i + 1) }
    else { m with pc := .forget i }
  | .forget i => { m with stack := none, pc := enter n (i + 1) }
  -- `smp_ap_stack` still points to the stack that is freed
  | .release => { m with allocated := m.stack.elim m.allocated m.allocated.erase, pc := .wait }
  | .wait => if m.nrReady < n + 1 then m else { m with pc := .finished }
  | .finished => m

def proceed (m : Machine n) (j : Fin n) : Option (Machine n) :=
  match m.ap j with
  | .started => some { m with ap := update m.ap j (.loaded m.stack) }
  | .loaded rsp => some { m with ap := update m.ap j (.flagged rsp), flag := m.flag + 1#8 }
  | .flagged rsp => some { m with ap := update m.ap j (.ready rsp), nrReady := m.nrReady + 1 }
  | _ => none

inductive Step (guard : Machine n → Fin n → Prop) : Machine n → Machine n → Prop where
  | boot {m : Machine n} (page : Nat) (fresh : page ∉ m.allocated) : Step guard m (advance m page)
  | ap {m m' : Machine n} (j : Fin n) (allowed : guard m j) (goes : proceed m j = some m') : Step guard m m'

/-- Either kind of step, if it is possible and no processor goes on after it has been given up. -/
def act (m : Machine n) : Nat ⊕ Fin n → Option (Machine n)
  | .inl page => if page ∈ m.allocated then none else some (advance m page)
  | .inr j => if m.failed j then none else proceed m j

variable {m m' : Machine n} {j : Fin n}

theorem proceed_cases (goes : proceed m j = some m') :
    (m.ap j = .started ∧ m' = { m with ap := update m.ap j (.loaded m.stack) }) ∨
    (∃ rsp, m.ap j = .loaded rsp ∧
      m' = { m with ap := update m.ap j (.flagged rsp), flag := m.flag + 1#8 }) ∨
    ∃ rsp, m.ap j = .flagged rsp ∧
      m' = { m with ap := update m.ap j (.ready rsp), nrReady := m.nrReady + 1 } := by
  unfold proceed at goes
  split at goes <;> grind

/-- A processor that has been given up does not go on. -/
def OnTime (m : Machine n) (j : Fin n) : Prop := m.failed j = false

theorem act_step {a : Nat ⊕ Fin n} (acts : act m a = some m') : Step OnTime m m' := by
  cases a with
  | inl page =>
    obtain ⟨fresh, same⟩ := Option.ite_none_left_eq_some.mp acts
    cases same
    exact .boot page fresh
  | inr j =>
    obtain ⟨onTime, goes⟩ := Option.ite_none_left_eq_some.mp acts
    exact .ap j (Bool.eq_false_iff.mpr onTime) goes

/-! ## The last wait -/

/-- What a processor has added to `smp_nr_cpus_ready`. -/
@[grind] def Ap.arrived : Ap → Nat
  | .ready _ => 1
  | _ => 0

@[grind] def Bsp.upTo : Bsp n → Nat
  | .stack i | .clear i | .init i => i
  | .sipi i | .test i | .retry i | .retest i | .forget i => i + 1
  | .release | .wait | .finished => n

structure Counted (m : Machine n) : Prop where
  off : ∀ j : Fin n, m.pc.upTo ≤ j → m.ap j = .off
  count : m.nrReady = census Ap.arrived m.ap + 1
  last : m.pc = .finished → n + 1 ≤ m.nrReady

section Count

variable {m m' : Machine n} {guard : Machine n → Fin n → Prop}

@[grind =] theorem arrived_startUp (a : Ap) : a.startUp.arrived = a.arrived := by
  cases a <;> rfl

theorem Counted.boot (inv : Counted m) (page : Nat) : Counted (advance m page) := by
  obtain ⟨pc, stack, flag, nrReady, failed, ap, allocated⟩ := m
  obtain ⟨off, count, last⟩ := inv
  -- a message to a processor, which is not ready by it
  have message : ∀ i a, a.arrived = (ap i).arrived →
      census Ap.arrived (update ap i a) = census Ap.arrived ap := by
    intro i a same
    have sum := census_update Ap.arrived ap i a
    omega
  dsimp only at *
  cases pc with
  | stack i | test i | retest i =>
    dsimp only [advance]
    split <;> constructor <;> grind [enter]
  | clear i | init i | sipi i | retry i | forget i | release =>
    dsimp only [advance]
    constructor <;> grind [update_apply, enter]
  | wait =>
    dsimp only [advance]
    split <;> constructor <;> grind
  | finished => exact ⟨off, count, last⟩

theorem Counted.proceed (inv : Counted m) (goes : proceed m j = some m') : Counted m' := by
  obtain ⟨off, count, last⟩ := inv
  have later : ∀ a k, m.pc.upTo ≤ k.val → update m.ap j a k = .off := by
    intro a k above
    rw [update_of_ne, off k above]
    rintro rfl
    rw [Boot.proceed, off k above] at goes
    exact nomatch goes
  have sum := census_update Ap.arrived m.ap j
  obtain ⟨before, rfl⟩ | ⟨rsp, before, rfl⟩ | ⟨rsp, before, rfl⟩ := proceed_cases goes
  all_goals simp only [before] at sum
  · exact ⟨later _, count.trans (congrArg (· + 1) (sum (.loaded m.stack)).symm), last⟩
  · exact ⟨later _, count.trans (congrArg (· + 1) (sum (.flagged rsp)).symm), last⟩
  · refine ⟨later _, ?_, fun done => (last done).trans (Nat.le_succ _)⟩
    exact congrArg (· + 1) (count.trans (sum (.ready rsp)).symm)

theorem Step.counted (step : Step guard m m') (inv : Counted m) : Counted m' := by
  cases step with
  | boot page _ => exact inv.boot page
  | ap j _ goes => exact inv.proceed goes

theorem counted_initial : Counted (initial n) where
  off _ _ := rfl
  count := by
    have none : census Ap.arrived (initial n).ap = 0 := census_eq_zero fun _ => rfl
    rw [none]
    rfl
  last := by grind [initial, enter]

theorem Counted.all_ready (inv : Counted m) (finished : m.pc = .finished) (j : Fin n) :
    ∃ rsp, m.ap j = .ready rsp := by
  have all := inv.last finished
  rw [inv.count] at all
  by_contra missing
  -- one processor that has not arrived leaves the sum short
  have short : census Ap.arrived m.ap < ∑ _ : Fin n, 1 := by
    refine Finset.sum_lt_sum (fun i _ => ?_) ⟨j, Finset.mem_univ j, ?_⟩
    · cases m.ap i <;> simp [Ap.arrived]
    · cases here : m.ap j with
      | ready rsp => exact absurd ⟨rsp, here⟩ missing
      | _ => simp [Ap.arrived]
  simp only [Finset.sum_const, Finset.card_univ, Fintype.card_fin, smul_eq_mul, mul_one] at short
  omega

end Count

/-- The boot processor and two others, up to the end of `smp_init`. -/
def bootTwo : List (Nat ⊕ Fin 2) :=
  let first : Fin 2 := ⟨0, by decide⟩
  let second : Fin 2 := ⟨1, by decide⟩
  [.inl 7, .inl 0, .inl 0, .inl 0, .inr first, .inr first, .inl 0, .inl 0,
    .inl 8, .inl 0, .inl 0, .inl 0, .inl 0, .inl 0, .inr second, .inr second, .inl 0, .inl 0,
    .inr second, .inl 0,
    .inr first, .inl 0]

/-- `smp_init` returns only when every processor of the list is ready, in whatever order the processors go on. -/
theorem smp_init_waits_for_all {guard : Machine n → Fin n → Prop}
    (run : Reaches (Step guard) (initial n) m) (finished : m.pc = .finished) (j : Fin n) :
    ∃ rsp, m.ap j = .ready rsp :=
  (run.invariant Counted counted_initial fun _ _ _ step => step.counted).all_ready finished j

theorem smp_init_waits_for_all_two : ∃ m : Machine 2, m.pc = .finished ∧ ∃ rsp, m.ap 1 = .ready rsp := by
  obtain ⟨m, ran, finished⟩ : ∃ m, bootTwo.foldlM act (initial 2) = some m ∧ m.pc = .finished :=
    ⟨_, rfl, rfl⟩
  exact ⟨m, finished, smp_init_waits_for_all (Reaches.of_foldlM (fun _ _ _ => act_step) ran) finished 1⟩

/-! ## The stacks -/

@[grind] def Ap.On (rsp : Option Nat) : Ap → Prop
  | .loaded r | .flagged r | .ready r => r = rsp
  | _ => False

@[grind] def Ap.Flagged : Ap → Prop
  | .flagged _ | .ready _ => True
  | _ => False

/-- The processor that has been initialised and not been given up or answered for. -/
@[grind] def Bsp.boots : Bsp n → Option (Fin n)
  | .sipi i | .test i | .retry i | .retest i | .forget i => some i
  | _ => none

@[mk_iff] structure Owned (m : Machine n) : Prop where
  on : ∀ j rsp, m.failed j = false → (m.ap j).On rsp → ∃ p ∈ m.allocated, rsp = some p
  apart : ∀ j k rsp, j ≠ k → m.failed j = false → m.failed k = false → (m.ap j).On rsp → ¬ (m.ap k).On rsp
  offered : ∀ j, m.failed j = false → (m.ap j).On m.stack → m.pc.boots = some j
  early : ∀ j, m.failed j = false → m.ap j ≠ .off → (m.ap j).Flagged ∨ m.pc.boots = some j
  stack : m.pc ≠ .wait → m.pc ≠ .finished → ∀ p, m.stack = some p → p ∈ m.allocated
  given : ∀ i, m.pc = .clear i ∨ m.pc = .init i ∨ m.pc.boots = some i → m.stack ≠ none
  cleared : ∀ i, m.pc = .init i → m.flag = 0#8
  flag : ∀ i, m.pc.boots = some i → (m.flag ≠ 0#8 ↔ (m.ap i).Flagged)
  forget : ∀ i, m.pc = .forget i → m.flag ≠ 0#8
  failed : ∀ j, m.failed j = true → ¬ (m.ap j).Flagged

section Stacks

variable {m m' : Machine n}

@[grind =] theorem on_startUp (rsp : Option Nat) (a : Ap) : a.startUp.On rsp ↔ a.On rsp := by
  cases a <;> rfl

@[grind =] theorem flagged_startUp (a : Ap) : a.startUp.Flagged ↔ a.Flagged := by
  cases a <;> rfl

theorem Owned.boot {page : Nat} (counted : Counted m) (inv : Owned m) (fresh : page ∉ m.allocated) :
    Owned (advance m page) := by
  obtain ⟨pc, stack, flag, nrReady, failed, ap, allocated⟩ := m
  have off := counted.off
  rw [owned_iff] at inv ⊢
  dsimp only at *
  cases pc with
  | stack i | test i | retest i =>
    dsimp only [advance]
    split <;> grind [update_apply, enter]
  | clear i | init i | sipi i | retry i | forget i =>
    dsimp only [advance]
    grind [update_apply, enter]
  | release =>
    -- nobody is on the stack that is freed
    have kept : ∀ p ∈ allocated, stack ≠ some p → p ∈ stack.elim allocated allocated.erase := by
      intro p member other
      cases stack with
      | none => exact member
      | some q => exact (List.mem_erase_of_ne fun same => other (congrArg some same.symm)).mpr member
    dsimp only [advance]
    grind
  | wait =>
    dsimp only [advance]
    split <;> grind
  | finished => exact inv

/-- A processor goes on from a state in which it may load the stack that is offered, if it has not loaded one. -/
theorem Owned.proceed (inv : Owned m) (allowed : OnTime m j) (goes : proceed m j = some m') : Owned m' := by
  obtain ⟨on, apart, offered, early, stacked, given, cleared, flagged, forget, gone⟩ := inv
  unfold OnTime at allowed
  have runs := early j allowed
  obtain ⟨before, rfl⟩ | ⟨rsp, before, rfl⟩ | ⟨rsp, before, rfl⟩ := proceed_cases goes
  · have here : m.pc.boots = some j := by simpa [before, Ap.Flagged] using runs
    obtain ⟨p, some⟩ := Option.ne_none_iff_exists'.mp (given j (.inr (.inr here)))
    have usable : p ∈ m.allocated := by
      refine stacked ?_ ?_ p some <;>
      · intro pc
        rw [pc] at here
        exact nomatch here
    have new : ∀ rsp, (Ap.loaded m.stack).On rsp ↔ m.stack = rsp := fun _ => Iff.rfl
    have early : ¬ (Ap.loaded m.stack).Flagged := id
    rw [owned_iff]
    grind [update_apply]
  · have here : m.pc.boots = some j := by simpa [before, Ap.Flagged] using runs
    have same : ∀ r, (Ap.flagged rsp).On r ↔ (m.ap j).On r := by simp [before, Ap.On]
    have first : m.flag = 0#8 := by simpa [before, Ap.Flagged] using flagged j here
    have late : (Ap.flagged rsp).Flagged := trivial
    rw [owned_iff]
    grind [update_apply]
  · have same : ∀ r, (Ap.ready rsp).On r ↔ (m.ap j).On r := by simp [before, Ap.On]
    have late : (Ap.ready rsp).Flagged ↔ (m.ap j).Flagged := by simp [before, Ap.Flagged]
    rw [owned_iff]
    grind [update_apply]

theorem owned_of_run (run : Reaches (Step OnTime) (initial n) m) : Counted m ∧ Owned m := by
  refine run.invariant (fun m => Counted m ∧ Owned m) ⟨counted_initial, ?_⟩ ?_
  · constructor <;> grind [initial, enter]
  · rintro m m' - step ⟨counted, inv⟩
    refine ⟨step.counted counted, ?_⟩
    cases step with
    | boot page fresh => exact inv.boot counted fresh
    | ap j allowed goes => exact inv.proceed allowed goes

end Stacks

/-- If no processor goes on after it has been given up, the others run on stacks of their own, which have been allocated
and not been freed. -/
theorem booted_stacks_apart (run : Reaches (Step OnTime) (initial n) m) :
    (∀ j rsp, m.failed j = false → (m.ap j).On rsp → ∃ p ∈ m.allocated, rsp = some p) ∧
    ∀ j k rsp, j ≠ k → m.failed j = false → m.failed k = false → (m.ap j).On rsp → ¬ (m.ap k).On rsp :=
  ⟨(owned_of_run run).2.on, (owned_of_run run).2.apart⟩

theorem booted_stacks_apart_two : ∃ m : Machine 2, m.ap 0 = .ready (some 7) ∧ (m.ap 1).On (some 8) ∧
    ¬ (m.ap 1).On (some 7) := by
  obtain ⟨m, ran, first, second⟩ : ∃ m, bootTwo.foldlM act (initial 2) = some m ∧ m.ap 0 = .ready (some 7) ∧
      m.failed 0 = false ∧ m.failed 1 = false ∧ (m.ap 1).On (some 8) := ⟨_, rfl, rfl, rfl, rfl, rfl⟩
  refine ⟨m, first, second.2.2, ?_⟩
  exact (booted_stacks_apart (Reaches.of_foldlM (fun _ _ _ => act_step) ran)).2 0 1 (some 7)
    (by decide) second.1 second.2.1 (by rw [first]; rfl)

/-- Then a processor that is given up keeps `smp_init` waiting for ever. -/
theorem smp_init_waits_for_failed (run : Reaches (Step OnTime) (initial n) m) (j : Fin n)
    (failed : m.failed j = true) : m.pc ≠ .finished := by
  intro finished
  obtain ⟨counted, owned⟩ := owned_of_run run
  obtain ⟨rsp, ready⟩ := counted.all_ready finished j
  exact owned.failed j failed (by simp [ready, Ap.Flagged])

theorem smp_init_waits_for_failed_one : ∃ m : Machine 1, m.failed 0 = true ∧ m.pc ≠ .finished := by
  obtain ⟨m, ran, failed⟩ : ∃ m, (.inl 7 :: List.replicate 6 (.inl 0)).foldlM act (initial 1) =
      some m ∧ m.failed 0 = true := ⟨_, rfl, rfl⟩
  exact ⟨m, failed, smp_init_waits_for_failed (Reaches.of_foldlM (fun _ _ _ => act_step) ran) 0 failed⟩

end ByteOS.Smp.Boot
