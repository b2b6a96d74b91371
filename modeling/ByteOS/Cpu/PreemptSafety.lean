import ByteOS.Cpu.Preempt
import ByteOS.Lib.Census
import ByteOS.Lib.Transition

/-! When `isr_global_handler` enters the scheduler: what the calls on the stacks have added
to `preempt_count` and `int_depth`, and what they may find below them.
-/

set_option autoImplicit false

namespace ByteOS.Cpu.Preempt

open Lib
open Function (update update_self update_of_ne)

section Frames

def Frame.load : Frame → Nat
  | .isr _ (.handler held) => held
  | .isr _ _ => 0
  | .yieldPreempt .preemptDec => 1
  | .yieldPreempt _ => 0
  | .schedule .preemptInc | .schedule .suspended => 0
  | .schedule .clear => 1
  | .schedule (.body held) | .schedule (.resumed held) => held + 1

def Frame.depth : Frame → Nat
  | .isr _ .start | .isr _ (.test _) | .isr _ .yield => 0
  | .isr info _ => if info.type = .irq then 1 else 0
  | .yieldPreempt _ | .schedule _ => 0

def loads (frames : List Frame) : Nat := (frames.map Frame.load).sum

def depths (frames : List Frame) : Nat := (frames.map Frame.depth).sum

@[simp] theorem loads_nil : loads [] = 0 := rfl
@[simp] theorem loads_cons (f : Frame) (below : List Frame) :
    loads (f :: below) = f.load + loads below := rfl
@[simp] theorem depths_nil : depths [] = 0 := rfl
@[simp] theorem depths_cons (f : Frame) (below : List Frame) :
    depths (f :: below) = f.depth + depths below := rfl

def Task.load (t : Task) : Nat := t.held + loads t.frames

def Frame.Starts : Frame → Prop
  | .isr info .start => info.type = .irq
  | _ => False

/-- Calls that are made, or have decided to yield, with no handler of an IRQ below them. -/
def Frame.Outermost : Frame → Prop
  | .isr _ (.test 0) | .isr _ .yield => True
  | .isr info _ => info.type ≠ .irq
  | .yieldPreempt _ | .schedule _ => True

/-- Calls of `isr_global_handler` that may still yield. -/
def Frame.MayYield : Frame → Prop
  | .isr _ .yield => False
  | .isr _ _ => True
  | _ => False

/-- Calls of `schedule` that have cleared `reschedule`. -/
def Frame.Cleared : Frame → Prop
  | .schedule (.body _) | .schedule (.resumed _) => True
  | _ => False

structure Above (reschedule : Bool) (held : Nat) (f : Frame) (below : List Frame) : Prop where
  outermost : f.Outermost → depths below = 0
  cleared : f.Cleared → reschedule = false
  calm : f.MayYield → reschedule = true → depths below = 0 → held + loads below = 0
  started : ∀ g ∈ below, ¬ g.Starts

def Nested (reschedule : Bool) (held : Nat) : List Frame → Prop
  | [] => True
  | f :: below => Above reschedule held f below ∧ Nested reschedule held below

variable {held : Nat} {r : Bool} {frames below : List Frame} {f : Frame}

theorem Frame.inProgress_iff (f : Frame) : f.InProgress ↔ f.Starts ∨ f.depth = 1 := by
  cases f with
  | isr info pc => cases pc <;> simp [InProgress, Starts, depth]
  | yieldPreempt pc | schedule pc => simp [InProgress, Starts, depth]

def IsrPc.Handling : IsrPc → Prop
  | .start | .test _ | .yield => False
  | .handler _ | .timer | .timerSet | .leave => True

namespace IsrPc.Handling
variable {info : IsrInfo} {pc : IsrPc}

theorem depth (handling : pc.Handling) : (Frame.isr info pc).depth = if info.type = .irq then 1 else 0 := by
  cases pc <;> first | rfl | exact handling.elim

theorem outermost (handling : pc.Handling) : (Frame.isr info pc).Outermost ↔ info.type ≠ .irq := by
  cases pc <;> first | exact Iff.rfl | exact handling.elim

theorem mayYield (handling : pc.Handling) : (Frame.isr info pc).MayYield := by
  cases pc <;> trivial

end IsrPc.Handling

theorem enterHandler_handling (handler : Option Handler) : (enterHandler handler).Handling := by
  match handler with
  | none => trivial
  | some .lapicTimerCallback => trivial
  | some .exceptionHandler | some .pageFaultHandler | some .ps2kbdIrqHandler => trivial

theorem enterHandler_load (info : IsrInfo) (handler : Option Handler) :
    (Frame.isr info (enterHandler handler)).load = 0 := by
  match handler with
  | none => rfl
  | some .lapicTimerCallback => rfl
  | some .exceptionHandler | some .pageFaultHandler | some .ps2kbdIrqHandler => rfl

theorem Nested.clear (inv : Nested r held frames) : Nested false held frames := by
  induction frames with
  | nil => trivial
  | cons f below ih =>
    obtain ⟨above, rest⟩ := inv
    exact ⟨⟨above.outermost, fun _ => rfl, fun _ => nofun, above.started⟩, ih rest⟩

theorem Nested.set (inv : Nested r held frames) (free : held + loads frames = 0) :
    Nested true held frames := by
  induction frames with
  | nil => trivial
  | cons f below ih =>
    obtain ⟨above, rest⟩ := inv
    rw [loads_cons] at free
    refine ⟨⟨above.outermost, fun cleared => ?_, fun _ _ _ => by omega, above.started⟩, ih rest (by omega)⟩
    have loaded : f.load ≠ 0 := by
      cases f with
      | isr info pc | yieldPreempt pc => exact cleared.elim
      | schedule pc => cases pc <;> simp_all [Frame.Cleared, Frame.load]
    omega

theorem depths_eq_zero_iff : depths frames = 0 ↔ ∀ f ∈ frames, f.depth = 0 := by
  rw [depths, List.sum_eq_zero_iff]
  simp

end Frames

/-! ## One task -/

section Local

/-- The state of the current task. The code of other tasks and its own hold `rest`. -/
structure Kept (rest : Nat) (cpu : Percpu) (t : Task) : Prop where
  count : cpu.preemptCount = rest + t.load
  depth : cpu.intDepth = depths t.frames
  nested : Nested cpu.reschedule t.held t.frames

def Frame.Sets : Frame → Prop
  | .isr _ .timerSet => True
  | _ => False

/-- An interrupt that may enter the scheduler when it returns comes only while
`preempt_count` is 0, and only then does the timer set `reschedule`. Exceptions do not come
in handlers of IRQs, and nothing comes before an IRQ has incremented `int_depth`. -/
def Masked {I : Type} (cpu : Percpu) (t : Task) : Action I → Prop
  | .deliver info =>
    (info.type ≠ .irq → cpu.intDepth = 0) ∧
    (cpu.intDepth = 0 → cpu.reschedule = true → cpu.preemptCount = 0) ∧
    ∀ f ∈ t.frames.head?, ¬ f.Starts
  | .advance => ∀ f ∈ t.frames.head?, f.Sets → cpu.preemptCount = 0
  | .preemptInc | .preemptDec | .yield | .switchTo _ => True

variable {I : Type} {rest : Nat} {cpu cpu' : Percpu} {t t' : Task} {f g : Frame} {below : List Frame}
  {info : IsrInfo} {pc : IsrPc} {a : Action I}

theorem Above.mono {r : Bool} {held : Nat} (above : Above r held f below)
    (outermost : g.Outermost → f.Outermost) (cleared : g.Cleared → f.Cleared)
    (mayYield : g.MayYield → f.MayYield) : Above r held g below :=
  ⟨fun asks => above.outermost (outermost asks), fun asks => above.cleared (cleared asks),
    fun asks => above.calm (mayYield asks), above.started⟩

theorem kept_cons (was : t.frames = f :: below) :
    Kept rest cpu t ↔ cpu.preemptCount = rest + (t.held + (f.load + loads below)) ∧
      cpu.intDepth = f.depth + depths below ∧ Above cpu.reschedule t.held f below ∧
      Nested cpu.reschedule t.held below := by
  constructor
  · rintro ⟨count, depth, nested⟩
    rw [was] at depth nested
    rw [Task.load, was] at count
    exact ⟨count, depth, nested⟩
  · rintro ⟨count, depth, nested⟩
    exact ⟨by rw [Task.load, was]; exact count, was ▸ depth, was ▸ nested⟩

section

variable (inv : Kept rest cpu t)
include inv

theorem Kept.replace (was : t.frames = f :: below) (now : t'.frames = g :: below)
    (held : t'.held = t.held) (same : cpu'.reschedule = cpu.reschedule)
    (count : cpu'.preemptCount + f.load = cpu.preemptCount + g.load)
    (depth : cpu'.intDepth + f.depth = cpu.intDepth + g.depth)
    (asks : Above cpu.reschedule t.held f below → Above cpu.reschedule t.held g below) :
    Kept rest cpu' t' := by
  obtain ⟨counted, deep, above, nested⟩ := (kept_cons was).mp inv
  rw [kept_cons now, held, same]
  exact ⟨by omega, by omega, asks above, nested⟩

theorem Kept.pop (was : t.frames = f :: below) (now : t'.frames = below)
    (held : t'.held = t.held) (same : cpu'.reschedule = cpu.reschedule)
    (count : cpu'.preemptCount + f.load = cpu.preemptCount)
    (depth : cpu'.intDepth + f.depth = cpu.intDepth) : Kept rest cpu' t' := by
  obtain ⟨counted, deep, -, nested⟩ := (kept_cons was).mp inv
  refine ⟨?_, ?_, ?_⟩
  · rw [Task.load, now, held]
    omega
  · rw [now]
    omega
  · rwa [now, held, same]

theorem Kept.push (now : t'.frames = g :: t.frames) (held : t'.held = t.held)
    (load : g.load = 0) (depth : g.depth = 0) (asks : Above cpu.reschedule t.held g t.frames) :
    Kept rest cpu t' := by
  obtain ⟨counted, deep, nested⟩ := inv
  rw [Task.load] at counted
  rw [kept_cons now, held]
  exact ⟨by omega, by omega, asks, nested⟩

theorem Kept.le_count (was : t.frames = f :: below) : f.load ≤ cpu.preemptCount := by
  have counted := ((kept_cons was).mp inv).1
  omega

theorem Kept.handle {pc' : IsrPc} (was : t.frames = .isr info pc :: below)
    (now : t'.frames = .isr info pc' :: below) (held : t'.held = t.held) (handling : pc.Handling)
    (handling' : pc'.Handling) (same : cpu'.reschedule = cpu.reschedule ∧ cpu'.intDepth = cpu.intDepth)
    (count : cpu'.preemptCount + (Frame.isr info pc).load = cpu.preemptCount + (Frame.isr info pc').load) :
    Kept rest cpu' t' := by
  refine inv.replace was now held same.1 count ?_ fun above => above.mono ?_ nofun ?_
  · rw [handling.depth, handling'.depth, same.2]
  · rw [handling.outermost, handling'.outermost]
    exact id
  · exact fun _ => handling.mayYield

theorem isrGlobalHandler_kept (was : t.frames = .isr info pc :: below)
    (set : pc = .timerSet → cpu.preemptCount = 0)
    (ran : isrGlobalHandler cpu t info below pc = some (cpu', t')) : Kept rest cpu' t' := by
  cases pc with
  | start =>
    cases ran
    have entered := enterHandler_handling info.handler
    refine inv.replace was rfl rfl ?_ ?_ ?_ fun above => above.mono ?_ nofun fun _ => trivial
    · split <;> rfl
    · rw [enterHandler_load]
      split <;> rfl
    · rw [entered.depth]
      split <;> rfl
    · exact entered.outermost.mp
  | handler held =>
    cases held with
    | zero =>
      cases ran
      exact inv.handle was rfl rfl trivial trivial ⟨rfl, rfl⟩ rfl
    | succ held => exact nomatch ran
  | timer =>
    simp only [isrGlobalHandler] at ran
    split at ran
    · cases ran
      exact inv.handle was rfl rfl trivial trivial ⟨rfl, rfl⟩ rfl
    · cases ran
      split <;> exact inv.handle was rfl rfl trivial trivial ⟨rfl, rfl⟩ rfl
  | timerSet =>
    cases ran
    have left : Kept rest cpu { t with frames := .isr info .leave :: below } :=
      inv.handle was rfl rfl trivial trivial ⟨rfl, rfl⟩ rfl
    have free := left.count
    rw [set rfl] at free
    exact ⟨left.count, left.depth, left.nested.set (by rw [← Task.load]; omega)⟩
  | leave =>
    simp only [isrGlobalHandler] at ran
    have deep := ((kept_cons was).mp inv).2.1
    split at ran
    case isTrue irq =>
      cases ran
      have mine : (Frame.isr info .leave).depth = 1 := if_pos irq
      refine inv.replace was rfl rfl rfl rfl ?_ fun above =>
        ⟨fun outermost => ?_, nofun, fun _ => above.calm trivial, above.started⟩
      · rw [mine]
        simp only [Frame.depth]
        omega
      · -- the local `int_depth` is the number of handlers below
        have local' : cpu.intDepth - 1 = depths below := by omega
        rw [local'] at outermost
        cases handlers : depths below with
        | zero => rfl
        | succ k =>
          rw [handlers] at outermost
          exact absurd irq outermost
    case isFalse exception =>
      cases ran
      have mine : (Frame.isr info .leave).depth = 0 := if_neg exception
      refine inv.replace was rfl rfl rfl rfl ?_ fun above => above.mono (fun _ => exception) nofun
        fun _ => trivial
      rw [mine]
      rfl
  | test intDepth =>
    simp only [isrGlobalHandler] at ran
    split at ran
    case isTrue yields =>
      cases ran
      have entered : Kept rest cpu { t with frames := .isr info .yield :: below } := by
        refine inv.replace was rfl rfl rfl rfl rfl fun above => above.mono (fun _ => ?_) nofun nofun
        rw [yields.1]
        trivial
      refine entered.push rfl rfl rfl rfl ⟨fun _ => ?_, nofun, nofun, ?_⟩
      · exact (Nat.zero_add _).trans (entered.nested.1.outermost trivial)
      · exact List.forall_mem_cons.mpr ⟨id, entered.nested.1.started⟩
    case isFalse =>
      cases ran
      exact inv.pop was rfl rfl rfl rfl rfl
  | yield =>
    cases ran
    exact inv.pop was rfl rfl rfl rfl rfl

theorem schedYieldPreempt_kept {pc : YieldPc} (was : t.frames = .yieldPreempt pc :: below)
    (ran : schedYieldPreempt cpu t below pc = some (cpu', t')) : Kept rest cpu' t' := by
  have counted := inv.le_count was
  cases pc with
  | preemptInc | schedule =>
    cases ran
    exact inv.replace was rfl rfl rfl rfl rfl fun above => above.mono (fun _ => trivial) nofun nofun
  | preemptDec =>
    cases ran
    exact inv.replace was rfl rfl rfl (Nat.sub_add_cancel counted) rfl fun above =>
      above.mono (fun _ => trivial) nofun nofun

theorem schedule_kept {pc : SchedulePc} (was : t.frames = .schedule pc :: below)
    (ran : schedule cpu t below pc = some (cpu', t')) : Kept rest cpu' t' := by
  have counted := inv.le_count was
  cases pc with
  | preemptInc =>
    cases ran
    exact inv.replace was rfl rfl rfl rfl rfl fun above => above.mono (fun _ => trivial) nofun nofun
  | clear =>
    cases ran
    have cleared : Kept rest { cpu with reschedule := false } t := ⟨inv.count, inv.depth, inv.nested.clear⟩
    exact cleared.replace was rfl rfl rfl rfl rfl fun above =>
      ⟨fun _ => above.outermost trivial, fun _ => rfl, nofun, above.started⟩
  | body held | suspended => exact nomatch ran
  | resumed held =>
    cases held with
    | zero =>
      cases ran
      exact inv.pop was rfl rfl rfl (Nat.sub_add_cancel counted) rfl
    | succ held => exact nomatch ran

theorem act_kept (masked : Masked cpu t a)
    (ran : t.act cpu a = some (cpu', t')) : Kept rest cpu' t' := by
  cases a with
  | preemptInc | preemptDec =>
    simp only [Task.act, preemptInc, preemptDec] at ran
    split at ran
    case h_1 =>
      have was : t.frames = [] := by assumption
      cases ran
      obtain ⟨count, depth, nested⟩ := inv
      refine ⟨?_, depth, ?_⟩
      · rw [Task.load] at count ⊢
        dsimp only
        omega
      · simp only [was]
        trivial
    case h_2 info held below was =>
      cases ran
      have counted := inv.le_count was
      refine inv.handle was rfl rfl trivial trivial ⟨rfl, rfl⟩ ?_
      simp only [Frame.load] at counted ⊢
      omega
    case h_3 held below was | h_4 held below was =>
      cases ran
      have counted := inv.le_count was
      refine inv.replace was rfl rfl rfl ?_ rfl fun above =>
        above.mono (fun _ => trivial) (fun _ => trivial) nofun
      simp only [Frame.load] at counted ⊢
      omega
    case h_5 => exact nomatch ran
  | yield =>
    simp only [Task.act] at ran
    split at ran
    case isTrue code =>
      cases ran
      refine inv.push (congrArg _ code.symm) rfl rfl rfl ⟨fun _ => ?_, nofun, nofun, ?_⟩
      · rw [code]
        rfl
      · rw [code]
        exact nofun
    case isFalse => exact nomatch ran
  | deliver info =>
    cases ran
    obtain ⟨exception, calm, head⟩ := masked
    refine inv.push rfl rfl rfl rfl ⟨fun outermost => ?_, nofun, fun _ set alone => ?_, ?_⟩
    · rw [← inv.depth]
      exact exception outermost
    · have free := calm (inv.depth.trans alone) set
      have count := inv.count
      rw [Task.load] at count
      omega
    · cases stack : t.frames with
      | nil => exact nofun
      | cons f below =>
        have nested := inv.nested
        rw [stack] at nested head
        exact List.forall_mem_cons.mpr ⟨head f rfl, nested.1.started⟩
  | advance =>
    simp only [Task.act, advance] at ran
    split at ran
    case h_1 => exact nomatch ran
    case h_2 info pc below was =>
      rw [Masked, was] at masked
      refine isrGlobalHandler_kept inv was (fun set => masked _ rfl ?_) ran
      rw [set]
      trivial
    case h_3 pc below was => exact schedYieldPreempt_kept inv was ran
    case h_4 pc below was => exact schedule_kept inv was ran
  | switchTo next => exact nomatch ran

end

theorem isrGlobalHandler_reschedule (set : pc = .timerSet → cpu.preemptCount = 0)
    (ran : isrGlobalHandler cpu t info below pc = some (cpu', t')) :
    cpu'.reschedule = cpu.reschedule ∨ cpu.preemptCount = 0 := by
  cases pc with
  | timerSet => exact .inr (set rfl)
  | handler held => cases held <;> simp_all [isrGlobalHandler]
  | start | timer | leave | test | yield =>
    refine .inl ?_
    simp only [isrGlobalHandler] at ran
    grind

theorem act_reschedule (masked : Masked cpu t a) (ran : t.act cpu a = some (cpu', t'))
    (set : cpu'.reschedule = true) : cpu.reschedule = true ∨ cpu.preemptCount = 0 := by
  cases a with
  | preemptInc | preemptDec | yield | deliver | switchTo =>
    simp only [Task.act, preemptInc, preemptDec] at ran
    grind
  | advance =>
    simp only [Task.act, advance] at ran
    split at ran
    case h_1 => exact nomatch ran
    case h_2 info pc below was =>
      rw [Masked, was] at masked
      have kept := isrGlobalHandler_reschedule (fun timer => masked _ rfl (by rw [timer]; trivial)) ran
      exact kept.imp (fun same => same.symm.trans set) id
    case h_3 pc below was => cases pc <;> simp only [schedYieldPreempt] at ran <;> grind
    case h_4 pc below was =>
      refine .inl ?_
      cases pc with
      | resumed held =>
        cases held with
        | zero =>
          cases ran
          exact set
        | succ held => exact nomatch ran
      | clear =>
        cases ran
        exact nomatch set
      | preemptInc | body | suspended =>
        simp only [schedule] at ran
        grind

end Local

/-! ## All tasks -/

section Global

variable {I : Type} [DecidableEq I] [Fintype I] {m m' : Machine I}

structure Inv (m : Machine I) : Prop where
  count : m.cpu.preemptCount = census Task.load m.task
  depth : m.cpu.intDepth = depths (m.task m.current).frames
  asleep : ∀ i, i ≠ m.current → ∃ below, (m.task i).frames = .schedule .suspended :: below
  nested : ∀ i, Nested m.cpu.reschedule (m.task i).held (m.task i).frames
  calm : m.cpu.reschedule = true → ∀ i, i ≠ m.current → (m.task i).load = 0

theorem Inv.boot (first : I) : Inv (Machine.boot first) where
  count := by
    refine (census_eq_zero fun i => ?_).symm
    by_cases same : i = first <;> simp [Machine.boot, Task.load, Frame.load, same]
  depth := by simp [Machine.boot]
  asleep i other := ⟨[], if_neg other⟩
  nested i := by
    by_cases same : i = first
    · simp only [Machine.boot, same, if_true]
      trivial
    · simp only [Machine.boot, same, if_false]
      exact ⟨⟨fun _ => rfl, fun _ => rfl, nofun, nofun⟩, trivial⟩
  calm := nofun

theorem Inv.act {a : Action I} {cpu : Percpu} {t : Task} (inv : Inv m)
    (masked : Masked m.cpu (m.task m.current) a)
    (ran : (m.task m.current).act m.cpu a = some (cpu, t)) :
    Inv { m with cpu := cpu, task := update m.task m.current t } := by
  have inside := le_census Task.load m.task m.current
  have before : Kept (census Task.load m.task - (m.task m.current).load) m.cpu (m.task m.current) :=
    ⟨by rw [inv.count]; omega, inv.depth, inv.nested m.current⟩
  have after := act_kept before masked ran
  have total := census_update Task.load m.task m.current t
  have set := act_reschedule masked ran
  refine ⟨?_, ?_, fun i other => ?_, fun i => ?_, fun now i other => ?_⟩
  · have count := after.count
    dsimp only
    omega
  · dsimp only
    rw [update_self]
    exact after.depth
  · dsimp only at other ⊢
    rw [update_of_ne other]
    exact inv.asleep i other
  · dsimp only
    by_cases same : i = m.current
    · rw [same, update_self]
      exact after.nested
    · rw [update_of_ne same]
      cases now : cpu.reschedule with
      | false => exact (inv.nested i).clear
      | true =>
        rcases set now with old | free
        · exact old ▸ inv.nested i
        · have mine := le_census Task.load m.task i
          rw [inv.count] at free
          exact (inv.nested i).set (by rw [← Task.load]; omega)
  · dsimp only at other ⊢
    rw [update_of_ne other]
    rcases set now with old | free
    · exact inv.calm old i other
    · have mine := le_census Task.load m.task i
      rw [inv.count] at free
      omega

theorem Inv.switch {next : I} (inv : Inv m) (ran : switchTo m next = some m') : Inv m' := by
  simp only [switchTo] at ran
  split at ran
  case h_2 => exact nomatch ran
  case h_1 below was =>
  split at ran
  case h_2 => exact nomatch ran
  case h_1 below' was' =>
  cases ran
  have top := inv.nested m.current
  rw [was] at top
  have cleared : m.cpu.reschedule = false := top.1.cleared trivial
  have alone : depths below = 0 := top.1.outermost trivial
  -- the stacks when the current task has been suspended
  generalize suspends : update m.task m.current
    { m.task m.current with frames := .schedule .suspended :: below } = task at was'
  have mine : task m.current = { m.task m.current with frames := .schedule .suspended :: below } := by
    rw [← suspends, update_self]
  have others : ∀ i, i ≠ m.current → task i = m.task i := by
    intro i other
    rw [← suspends, update_of_ne other]
  have nested : ∀ i, Nested false (task i).held (task i).frames := by
    intro i
    by_cases same : i = m.current
    · rw [same, mine]
      exact ⟨⟨fun _ => alone, fun _ => rfl, nofun, top.1.started⟩, top.2.clear⟩
    · rw [others i same]
      exact (inv.nested i).clear
  have nextTop := nested next
  rw [was'] at nextTop
  refine ⟨?_, ?_, fun i other => ?_, fun i => ?_, ?_⟩
  · have leaves :=
      census_update Task.load m.task m.current
        { m.task m.current with frames := .schedule .suspended :: below }
    have enters :=
      census_update Task.load task next { task next with frames := .schedule (.resumed 0) :: below' }
    rw [suspends] at leaves
    have count := inv.count
    simp only [Task.load, was, was', loads_cons, Frame.load] at leaves enters
    dsimp only
    omega
  · have depth := inv.depth
    rw [was, depths_cons, alone] at depth
    dsimp only
    rw [update_self, depth, depths_cons, nextTop.1.outermost trivial]
    rfl
  · dsimp only at other ⊢
    rw [update_of_ne other]
    by_cases same : i = m.current
    · exact ⟨below, by rw [same, mine]⟩
    · rw [others i same]
      exact inv.asleep i same
  · dsimp only
    rw [cleared]
    by_cases same : i = next
    · rw [same, update_self]
      exact ⟨⟨nextTop.1.outermost, fun _ => rfl, nofun, nextTop.1.started⟩, nextTop.2⟩
    · rw [update_of_ne same]
      exact nested i
  · intro set
    exact nomatch cleared.symm.trans set

def Machine.Masked (m : Machine I) (a : Action I) : Prop := Preempt.Masked m.cpu (m.task m.current) a

theorem act_inv {a : Action I} (inv : Inv m) (masked : m.Masked a) (ran : m.act a = some m') : Inv m' := by
  unfold Machine.act at ran
  split at ran
  case h_1 next => exact inv.switch ran
  case h_2 a other =>
    obtain ⟨⟨cpu, t⟩, stepped, result⟩ := Option.bind_eq_some_iff.mp ran
    cases result
    exact inv.act masked stepped

theorem inv_of_run {first : I} (run : Reaches (Step Machine.Masked) (Machine.boot first) m) : Inv m := by
  refine run.invariant Inv (Inv.boot first) fun m m' _ step inv => ?_
  obtain ⟨a, masked, ran⟩ := step
  exact act_inv inv masked ran

/-- Below a call of `isr_global_handler` that yields, nothing is held and no handler runs. -/
theorem Inv.unlocked (inv : Inv m) (yields : m.Yields) :
    m.cpu.preemptCount = 0 ∧ ∀ i, ∀ f ∈ (m.task i).frames, ¬ f.InProgress := by
  obtain ⟨info, below, was, set⟩ := yields
  have top := inv.nested m.current
  rw [was] at top
  have alone : depths below = 0 := top.1.outermost trivial
  constructor
  · rw [inv.count]
    refine census_eq_zero fun i => ?_
    by_cases same : i = m.current
    · have free := top.1.calm trivial set alone
      rw [same, Task.load, was, loads_cons]
      simpa [Frame.load] using free
    · exact inv.calm set i same
  · -- on every stack, what is below the last call neither starts nor counts
    have quiet : ∀ i, ∃ f below, (m.task i).frames = f :: below ∧ ¬ f.InProgress ∧
        depths below = 0 ∧ ∀ g ∈ below, ¬ g.Starts := by
      intro i
      by_cases same : i = m.current
      · exact ⟨_, below, same ▸ was, id, alone, top.1.started⟩
      · obtain ⟨below, asleep⟩ := inv.asleep i same
        have nested := inv.nested i
        rw [asleep] at nested
        exact ⟨_, below, asleep, id, nested.1.outermost trivial, nested.1.started⟩
    intro i f inside
    obtain ⟨g, below, stack, last, none, started⟩ := quiet i
    rw [stack, List.mem_cons] at inside
    rcases inside with rfl | inside
    · exact last
    · rw [Frame.inProgress_iff]
      rintro (starts | counts)
      · exact started f inside starts
      · rw [depths_eq_zero_iff.mp none f inside] at counts
        exact nomatch counts

/-- `sched_yield_preempt` is called with no lock held and outside all handlers of IRQs, as
long as interrupts and the timer meet the condition. -/
theorem yields_unlocked (first : I) (m : Machine I)
    (run : Reaches (Step Machine.Masked) (Machine.boot first) m) (yields : m.Yields) :
    m.cpu.preemptCount = 0 ∧ ∀ i, ∀ f ∈ (m.task i).frames, ¬ f.InProgress :=
  (inv_of_run run).unlocked yields

end Global

/-! ## Runs of given actions -/

section Runs

variable {I : Type} [DecidableEq I] {guard : Machine I → Action I → Prop}
    [∀ m, DecidablePred (guard m)] {m m' : Machine I}

def Machine.run (guard : Machine I → Action I → Prop) [∀ m, DecidablePred (guard m)] (m : Machine I)
    (actions : List (Action I)) : Option (Machine I) :=
  actions.foldlM (fun m a => if guard m a then m.act a else none) m

theorem reaches_of_run {actions : List (Action I)} (ran : m.run guard actions = some m') :
    Reaches (Step guard) m m' := by
  refine Reaches.of_foldlM (fun m a next first => ?_) ran
  split at first
  case isTrue allowed => exact .act a allowed first
  case isFalse => exact nomatch first

instance : DecidablePred Frame.Starts := fun f =>
  match f with
  | .isr info .start => inferInstanceAs (Decidable (info.type = .irq))
  | .isr _ (.handler _) | .isr _ .timer | .isr _ .timerSet | .isr _ .leave | .isr _ (.test _)
  | .isr _ .yield
  | .yieldPreempt _ | .schedule _ => .isFalse id

instance : DecidablePred Frame.Sets := fun f =>
  match f with
  | .isr _ .timerSet => .isTrue trivial
  | .isr _ .start | .isr _ (.handler _) | .isr _ .timer | .isr _ .leave | .isr _ (.test _) | .isr _ .yield
  | .yieldPreempt _ | .schedule _ => .isFalse id

instance (m : Machine I) : DecidablePred m.Masked := fun a =>
  match a with
  | .deliver _ => inferInstanceAs (Decidable (_ ∧ _ ∧ _))
  | .advance =>
    inferInstanceAs (Decidable (∀ f ∈ (m.task m.current).frames.head?, f.Sets → m.cpu.preemptCount = 0))
  | .preemptInc | .preemptDec | .yield | .switchTo _ => .isTrue trivial

def timerInfo : IsrInfo := ⟨.irq, some .lapicTimerCallback⟩
def keyboardInfo : IsrInfo := ⟨.irq, some .ps2kbdIrqHandler⟩
def pageFaultInfo : IsrInfo := ⟨.exception, some .pageFaultHandler⟩

def tick : List (Action I) := [.deliver timerInfo, .advance, .advance, .advance, .advance]

def fourTicks : List (Action I) := tick ++ tick ++ tick ++ tick

def keyboardThenYield : List (Action I) :=
  fourTicks ++ [.preemptInc, .preemptDec, .deliver keyboardInfo, .advance, .deliver timerInfo,
    .advance, .advance, .advance, .advance, .advance, .advance, .advance]

theorem yields_unlocked_keyboard :
    ∃ m : Machine (Fin 2), Reaches (Step Machine.Masked) (Machine.boot 0) m ∧ m.Yields ∧
      m.cpu.preemptCount = 0 ∧ ∀ i, ∀ f ∈ (m.task i).frames, ¬ f.InProgress := by
  have finished : ((Machine.boot (0 : Fin 2)).run Machine.Masked keyboardThenYield).map
      (fun m => (m.cpu.reschedule, (m.task m.current).frames)) =
        some (true, [.isr keyboardInfo (.test 0)]) := by decide
  obtain ⟨m, ran, values⟩ := Option.map_eq_some_iff.mp finished
  simp only [Prod.mk.injEq] at values
  have run := reaches_of_run ran
  have yields : m.Yields := ⟨keyboardInfo, [], values.2, values.1⟩
  exact ⟨m, run, yields, yields_unlocked 0 m run yields⟩

def lockThenYield : List (Action I) :=
  fourTicks ++ [.preemptInc, .deliver timerInfo, .advance, .advance, .advance, .advance]

def pageFaultThenYield : List (Action I) :=
  fourTicks ++ [.deliver keyboardInfo, .advance, .deliver timerInfo, .advance, .advance, .advance,
    .advance, .advance, .deliver pageFaultInfo, .advance, .advance, .advance]

/-- `isr_global_handler` yields under a lock, and inside the handler of an IRQ. -/
theorem yields_locked :
    (∃ m : Machine (Fin 2), Reaches (Step fun _ _ => True) (Machine.boot 0) m ∧ m.Yields ∧
      m.cpu.preemptCount = 1) ∧
    ∃ m : Machine (Fin 2), Reaches (Step fun _ _ => True) (Machine.boot 0) m ∧ m.Yields ∧
      ∃ f ∈ (m.task m.current).frames, f.InProgress := by
  constructor
  · have finished : ((Machine.boot (0 : Fin 2)).run (fun _ _ => True) lockThenYield).map
        (fun m => (m.cpu, (m.task m.current).frames)) =
          some (⟨1, 0, true⟩, [.isr timerInfo (.test 0)]) := by decide
    obtain ⟨m, ran, values⟩ := Option.map_eq_some_iff.mp finished
    simp only [Prod.mk.injEq] at values
    obtain ⟨cpu, frames⟩ := values
    exact ⟨m, reaches_of_run ran, ⟨timerInfo, [], frames, by rw [cpu]⟩, by rw [cpu]⟩
  · have finished : ((Machine.boot (0 : Fin 2)).run (fun _ _ => True) pageFaultThenYield).map
        (fun m => (m.cpu.reschedule, (m.task m.current).frames)) =
        some (true, [.isr pageFaultInfo (.test 0), .isr keyboardInfo (.handler 0)]) := by decide
    obtain ⟨m, ran, values⟩ := Option.map_eq_some_iff.mp finished
    simp only [Prod.mk.injEq] at values
    obtain ⟨set, frames⟩ := values
    refine ⟨m, reaches_of_run ran, ⟨pageFaultInfo, _, frames, set⟩, .isr keyboardInfo (.handler 0), ?_, rfl⟩
    rw [frames]
    exact List.mem_cons_of_mem _ List.mem_cons_self

end Runs

end ByteOS.Cpu.Preempt
