import ByteOS.Lib.Tokens
import ByteOS.Proc.RunqOrder
import ByteOS.Proc.Sched

/-! No runnable task is lost or duplicated by scheduling and load balancing.

Woken tasks are tokens. A token is in one of the run queues or with one of the
processors, and every section of `schedule` moves at most one token.
-/

set_option autoImplicit false

namespace ByteOS.Proc

open Lib Mm Ds
open List (mem_cons mem_cons_of_mem mem_cons_self not_mem_nil)
open Function (update_self update_of_ne update)

variable {n : Nat} {m m' : Machine n} {l l' : Fin n → List Ptr} {i j : Fin n} {t : Ptr}

section Fields

variable (m : Machine n) (i j : Fin n) (q : RunqState) (t : Ptr) (task : Task) (point : Point)

@[simp] theorem queue_task : (m.queue i).task = m.task := rfl
@[simp] theorem queue_rq : (m.queue i).rq = (m.cpu i).rq := rfl

@[simp] theorem setQueue_task : (m.setQueue i q).task = q.task := rfl
@[simp] theorem setQueue_point : ((m.setQueue i q).cpu j).point = (m.cpu j).point := by
  by_cases same : j = i <;> simp [Machine.setQueue, same]

@[simp] theorem setQueue_current : ((m.setQueue i q).cpu j).current = (m.cpu j).current := by
  by_cases same : j = i <;> simp [Machine.setQueue, same]

@[simp] theorem setQueue_queue_self : (m.setQueue i q).queue i = q := by
  simp [Machine.queue, Machine.setQueue]

theorem setQueue_rq_other {i j : Fin n} (other : j ≠ i) : ((m.setQueue i q).cpu j).rq = (m.cpu j).rq := by
  simp [Machine.setQueue, other]

@[simp] theorem setPoint_mem : (m.setPoint i point).mem = m.mem := rfl
@[simp] theorem setPoint_task : (m.setPoint i point).task = m.task := rfl
@[simp] theorem setPoint_rq : ((m.setPoint i point).cpu j).rq = (m.cpu j).rq := by
  by_cases same : j = i <;> simp [Machine.setPoint, same]

@[simp] theorem setPoint_current : ((m.setPoint i point).cpu j).current = (m.cpu j).current := by
  by_cases same : j = i <;> simp [Machine.setPoint, same]

@[simp] theorem setPoint_queue : (m.setPoint i point).queue j = m.queue j := by
  simp [Machine.queue]

@[simp] theorem setPoint_point_self : ((m.setPoint i point).cpu i).point = point := by
  simp [Machine.setPoint]

theorem setPoint_point_other {i j : Fin n} (other : j ≠ i) :
    ((m.setPoint i point).cpu j).point = (m.cpu j).point := by
  simp [Machine.setPoint, other]

@[simp] theorem setTask_cpu : (m.setTask t task).cpu = m.cpu := rfl
@[simp] theorem setTask_task_self : (m.setTask t task).task t = task := update_self _ _ _

theorem setTask_task_other {t u : Ptr} (other : u ≠ t) : (m.setTask t task).task u = m.task u :=
  update_of_ne other _ _

end Fields

section Places

def Cpu.Holds (c : Cpu) (t : Ptr) : Prop :=
  match c.point with
  | .outside => c.current = t
  | .switch next => next = t
  | _ => False

def Machine.Woken (m : Machine n) (t : Ptr) : Prop :=
  t ∈ m.tasks ∧ (m.task t).tid ≠ tidIdle ∧ (m.task t).state = .runnable

/-- A place for a task: the run queue of a processor, or the processor itself. -/
inductive Place (n : Nat) where
  | queue (i : Fin n)
  | cpu (i : Fin n)
  deriving DecidableEq

def Here (m : Machine n) (l : Fin n → List Ptr) : Place n → Ptr → Prop
  | .queue i, t => t ∈ l i
  | .cpu i, t => (m.cpu i).Holds t ∧ (m.task t).tid ≠ tidIdle

structure Queues (m : Machine n) (l : Fin n → List Ptr) : Prop where
  queued : ∀ i, Queued (m.queue i) (l i)
  apart : ∀ i j t, t ∈ l i → t ∈ l j → i = j

structure Conserved (m : Machine n) (l : Fin n → List Ptr) : Prop where
  queued : ∀ i, Queued (m.queue i) (l i)
  placed : Placed (Here m l) m.Woken
  exist : ∀ i t, (m.cpu i).Holds t → t ∈ m.tasks
  addressed : ∀ t ∈ m.tasks, Address t
  cleared : ∀ t ∈ m.tasks, (∀ i, t ∉ l i) → Cleared (m.mem t)
  idle : ∀ i, (m.cpu i).rq.idle ∈ m.tasks ∧ (m.task (m.cpu i).rq.idle).tid = tidIdle ∧
    (m.task (m.cpu i).rq.idle).state = .runnable
  chosen : ∀ i t, (m.cpu i).point = .switch t → (m.task t).state = .runnable

namespace Conserved

theorem woken (good : Conserved m l) (inside : t ∈ l i) : m.Woken t := good.placed.live (.queue i) t inside

theorem queues (good : Conserved m l) : Queues m l where
  queued := good.queued
  apart i j t first second := Place.queue.inj (good.placed.once (.queue i) (.queue j) t first second)

theorem not_queued (good : Conserved m l) (held : (m.cpu i).Holds t) (j : Fin n) : t ∉ l j := by
  intro inside
  have user := (good.woken inside).2.1
  exact nomatch good.placed.once (.cpu i) (.queue j) t ⟨held, user⟩ inside

end Conserved

end Places

variable {rest tasks : List Ptr} {x dummy : Ptr} {dest : Place n} {q : RunqState}

section Queues

variable (queues : Queues m l)
include queues

theorem Queues.update {new : List Ptr} (queued : Queued q new) (task : q.task = m.task)
    (elsewhere : ∀ j ≠ i, ∀ p ∈ l j, q.mem p = m.mem p) (apart : ∀ j ≠ i, ∀ p ∈ l j, p ∉ new) :
    Queues (m.setQueue i q) (update l i new) where
  queued j := by
    by_cases same : j = i
    · subst same
      simpa using queued
    · rw [update_of_ne same]
      refine (queues.queued j).congr (setQueue_rq_other m q same) ?_ ?_
      · exact elsewhere j same
      · intro p _
        simp [task]
  apart j k t first second := by
    by_cases here : j = i
    · subst here
      by_contra other
      rw [update_self] at first
      rw [update_of_ne (Ne.symm other)] at second
      exact apart k (Ne.symm other) t second first
    · by_cases there : k = i
      · subst there
        rw [update_self] at second
        rw [update_of_ne here] at first
        exact absurd second (apart j here t first)
      · rw [update_of_ne here] at first
        rw [update_of_ne there] at second
        exact queues.apart j k t first second

/-- What an operation on the queue of processor `i` leaves alone. -/
structure Beyond (m : Machine n) (i : Fin n) (q : RunqState) : Prop where
  task : q.task = m.task
  idle : q.rq.idle = (m.cpu i).rq.idle

theorem Queues.insert (addressed : Address t) (fresh : ∀ j, t ∉ l j) (i : Fin n) :
    ∃ q l', treeInsert (m.queue i) t = .ok q ∧ Queues (m.setQueue i q) l' ∧ Beyond m i q ∧
      (∀ j u, u ∈ l' j ↔ u = t ∧ j = i ∨ u ≠ t ∧ u ∈ l j) ∧
      ∀ p, p ≠ t → (∀ j, p ∉ l j) → q.mem p = m.mem p := by
  obtain ⟨q, front, rear, run, split, queued, _, _, untouched⟩ :=
    treeInsert_spec (queues.queued i) addressed (fresh i)
  have members : ∀ u, u ∈ front ++ t :: rear ↔ u = t ∨ u ∈ l i := by
    intro u
    simp only [split, List.mem_append, mem_cons]
    tauto
  refine ⟨q, Function.update l i (front ++ t :: rear), run,
    queues.update queued untouched.task ?_ ?_, ⟨untouched.task, untouched.idle⟩, ?_, ?_⟩
  · intro j other p inside
    refine untouched.elsewhere p fun touched => ?_
    obtain rfl | here := mem_cons.mp touched
    · exact fresh j inside
    · exact other (queues.apart j i p inside here)
  · intro j other p inside here
    obtain rfl | here := (members p).mp here
    · exact fresh j inside
    · exact other (queues.apart j i p inside here)
  · intro j u
    by_cases here : j = i
    · subst here
      rw [update_self, members]
      by_cases same : u = t
      · simp [same]
      · simp [same]
    · rw [update_of_ne here]
      have different : u ∈ l j → u ≠ t := fun inside same => fresh j (same ▸ inside)
      simp only [here, and_false, false_or]
      exact ⟨fun inside => ⟨different inside, inside⟩, fun both => both.2⟩
  · intro p different outside
    exact untouched.elsewhere p (by simp [different, outside i])

theorem Queues.remove (front : l i = t :: rest) :
    ∃ q l', treeRemove (m.queue i) t = .ok q ∧ Queues (m.setQueue i q) l' ∧ Beyond m i q ∧
      (∀ j u, u ∈ l' j ↔ u ≠ t ∧ u ∈ l j) ∧ Cleared (q.mem t) ∧ ∀ p, (∀ j, p ∉ l j) →
      q.mem p = m.mem p := by
  have here : Queued (m.queue i) ([] ++ t :: rest) := front ▸ queues.queued i
  obtain ⟨q, run, queued, cleared, untouched⟩ := treeRemove_spec here
  have distinct : t ∉ rest := (List.nodup_cons.mp here.nodup).1
  refine ⟨q, Function.update l i rest, run, queues.update queued untouched.task ?_ ?_,
    ⟨untouched.task, untouched.idle⟩, ?_, cleared, ?_⟩
  · intro j other p inside
    refine untouched.elsewhere p fun touched => ?_
    exact other (queues.apart j i p inside (front ▸ touched))
  · intro j other p inside below
    exact other (queues.apart j i p inside (front ▸ mem_cons_of_mem t below))
  · intro j u
    by_cases here : j = i
    · subst here
      rw [update_self, front, mem_cons]
      by_cases same : u = t
      · simp [same, distinct]
      · simp [same]
    · rw [update_of_ne here]
      refine ⟨fun inside => ⟨fun same => ?_, inside⟩, fun both => both.2⟩
      exact here (queues.apart j i u inside (front ▸ same ▸ mem_cons_self))
  · intro p outside
    exact untouched.elsewhere p (front ▸ outside i)

theorem Queues.setTask (fresh : ∀ j, t ∉ l j) (task : Task) : Queues (m.setTask t task) l where
  queued j := by
    refine (queues.queued j).congr rfl (fun _ _ => rfl) fun p inside => ?_
    have different : p ≠ t := fun same => fresh j (same ▸ inside)
    exact congrArg Task.vruntime (setTask_task_other m task different)
  apart := queues.apart

theorem Queues.setPoint (i : Fin n) (point : Point) : Queues (m.setPoint i point) l where
  queued j := by simpa using queues.queued j
  apart := queues.apart

end Queues

section Moves

structure Kept (m m' : Machine n) : Prop where
  tasks : m'.tasks = m.tasks
  tid : ∀ t, (m'.task t).tid = (m.task t).tid
  runnable : ∀ t, (m.task t).state = .runnable → (m'.task t).state = .runnable
  idle : ∀ i, (m'.cpu i).rq.idle = (m.cpu i).rq.idle

theorem Conserved.of_placed (good : Conserved m l) (kept : Kept m m') (queues : Queues m' l')
    (placed : Placed (Here m' l') m'.Woken) (exist : ∀ i t, (m'.cpu i).Holds t → t ∈ m.tasks)
    (cleared : ∀ t ∈ m.tasks, (∀ i, t ∉ l' i) → Cleared (m'.mem t))
    (chosen : ∀ i t, (m'.cpu i).point = .switch t → (m'.task t).state = .runnable) : Conserved m' l' where
  queued := queues.queued
  placed := placed
  exist i t held := kept.tasks ▸ exist i t held
  addressed t inside := good.addressed t (kept.tasks ▸ inside)
  cleared t inside := cleared t (kept.tasks ▸ inside)
  idle i := by
    obtain ⟨inside, tid, state⟩ := good.idle i
    rw [kept.idle i, kept.tasks, kept.tid]
    exact ⟨inside, tid, kept.runnable _ state⟩
  chosen := chosen

theorem holds_congr {c c' : Cpu} (point : c'.point = c.point) (current : c'.current = c.current) :
    c'.Holds t ↔ c.Holds t := by
  unfold Cpu.Holds
  rw [point, current]

theorem here_cpu (kept : Kept m m') (point : (m'.cpu j).point = (m.cpu j).point)
    (current : (m'.cpu j).current = (m.cpu j).current) : Here m' l' (.cpu j) t ↔ Here m l (.cpu j) t := by
  simp only [Here, holds_congr point current, kept.tid]

theorem unmoved_iff {P : Ptr → Prop} {there : Prop} (absent : ¬ P x) (elsewhere : ¬ there)
    (u : Ptr) : P u ↔ u = x ∧ there ∨ u ≠ x ∧ P u := by
  refine ⟨fun inside => .inr ⟨fun same => absent (same ▸ inside), inside⟩, ?_⟩
  rintro (⟨_, here⟩ | ⟨_, inside⟩)
  · exact absurd here elsewhere
  · exact inside

theorem movesTo_of (members : ∀ j u, u ∈ l' j ↔ u = x ∧ .queue j = dest ∨ u ≠ x ∧ u ∈ l j)
    (own : ∀ u, Here m' l' (.cpu i) u ↔ u = x ∧ .cpu i = dest ∨ u ≠ x ∧ Here m l (.cpu i) u)
    (others : ∀ j ≠ i, ∀ u, Here m' l' (.cpu j) u ↔ Here m l (.cpu j) u)
    (away : ∀ j ≠ i, .cpu j ≠ dest ∧ ¬ Here m l (.cpu j) x) : MovesTo (Here m l) (Here m' l') x dest := by
  intro p u
  cases p with
  | queue j => exact members j u
  | cpu j =>
    by_cases here : j = i
    · subst here
      exact own u
    · obtain ⟨notDest, absent⟩ := away j here
      rw [others j here u]
      exact unmoved_iff absent notDest u

/-- What a step of processor `i` does to the tasks' places and to the current tasks. -/
inductive Effect (m : Machine n) (l : Fin n → List Ptr) (i : Fin n) (m' : Machine n)
    (l' : Fin n → List Ptr) : Prop where
  | stay (here : ∀ p t, Here m' l' p t ↔ Here m l p t)
      (current : ∀ j, (m'.cpu j).current = (m.cpu j).current)
  | enqueue {x : Ptr} (source : Here m l (.cpu i) x) (moves : MovesTo (Here m l) (Here m' l') x (.queue i))
      (current : ∀ j, (m'.cpu j).current = (m.cpu j).current)
  | dequeue {x : Ptr} (source : Here m l (.queue i) x) (moves : MovesTo (Here m l) (Here m' l') x (.cpu i))
      (current : ∀ j, (m'.cpu j).current = (m.cpu j).current)
  | pull {k : Fin n} (point : (m.cpu i).point = .pull k) (other : k ≠ i)
      (source : Here m l (.queue k) (m.cpu k).rq.tree.mostLeft)
      (moves : MovesTo (Here m l) (Here m' l') (m.cpu k).rq.tree.mostLeft (.queue i))
      (current : ∀ j, (m'.cpu j).current = (m.cpu j).current)
  | switch {next : Ptr} (held : (m.cpu i).Holds next) (here : ∀ p t, Here m' l' p t ↔ Here m l p t)
      (own : (m'.cpu i).current = next) (current : ∀ j ≠ i, (m'.cpu j).current = (m.cpu j).current)

/-- The outcome of a step: it succeeds, keeps the invariant, and does one of those things. -/
def Progress (m : Machine n) (l : Fin n → List Ptr) (i : Fin n)
    (result : Except Fault (Machine n)) : Prop :=
  ∃ m' l', result = .ok m' ∧ Conserved m' l' ∧ Kept m m' ∧ Effect m l i m' l'

section

variable (good : Conserved m l) (kept : Kept m m')
include good kept

theorem Conserved.placed_move (state : ∀ t ≠ x, (m'.task t).state = (m.task t).state)
    (woken : m'.Woken x) (moves : MovesTo (Here m l) (Here m' l') x dest) :
    Placed (Here m' l') m'.Woken := by
  refine good.placed.move moves fun t => ?_
  by_cases same : t = x
  · subst same
    simp [woken]
  · simp only [Machine.Woken, kept.tasks, kept.tid, state t same, same, or_false]

theorem Conserved.placed_stay (state : ∀ t, (m'.task t).state = (m.task t).state)
    (here : ∀ p t, Here m' l' p t ↔ Here m l p t) : Placed (Here m' l') m'.Woken := by
  refine good.placed.congr here fun t => ?_
  simp only [Machine.Woken, kept.tasks, kept.tid, state]

/-- A processor is where it was, or has at most the task `x` in its hands. -/
def Undisturbed (m m' : Machine n) (x : Ptr) (j : Fin n) : Prop :=
  ((m'.cpu j).point = (m.cpu j).point ∧ (m'.cpu j).current = (m.cpu j).current) ∨
    ∀ u, ((m'.cpu j).Holds u → u = x) ∧ ((m'.cpu j).point = .switch u → u = x)

variable (queues : Queues m' l') (state : ∀ t ≠ x, (m'.task t).state = (m.task t).state)
    (woken : m'.Woken x)
include queues state woken

theorem Conserved.moved (moves : MovesTo (Here m l) (Here m' l') x dest)
    (cpus : ∀ j, Undisturbed m m' x j) (cleared : ∀ t ∈ m.tasks, (∀ i, t ∉ l' i) →
      Cleared (m'.mem t)) : Conserved m' l' := by
  refine good.of_placed kept queues (good.placed_move kept state woken moves) ?_ cleared ?_
  · intro j u held
    obtain ⟨point, current⟩ | own := cpus j
    · exact good.exist j u ((holds_congr point current).mp held)
    · rw [(own u).1 held]
      exact kept.tasks ▸ woken.1
  · intro j u chosen
    obtain ⟨point, _⟩ | own := cpus j
    · exact kept.runnable u (good.chosen j u (point.symm.trans chosen))
    · rw [(own u).2 chosen]
      exact woken.2.2

/-- A task goes to the queue of processor `i`. Every processor is where it was, without the task,
or has nothing in its hands any more. -/
theorem Conserved.joins (members : ∀ j u, u ∈ l' j ↔ u = x ∧ j = i ∨ u ≠ x ∧ u ∈ l j)
    (cpus : ∀ j, ((m'.cpu j).point = (m.cpu j).point ∧ (m'.cpu j).current = (m.cpu j).current ∧
      ¬ Here m l (.cpu j) x) ∨
      (∀ u, ¬ (m'.cpu j).Holds u) ∧ (∀ u, (m'.cpu j).point ≠ .switch u) ∧ ∀ u, Here m l (.cpu j) u → u = x)
    (elsewhere : ∀ u ≠ x, (∀ j, u ∉ l j) → m'.mem u = m.mem u) :
    Conserved m' l' ∧ MovesTo (Here m l) (Here m' l') x (.queue i) := by
  have moves : MovesTo (Here m l) (Here m' l') x (.queue i) := by
    intro p u
    cases p with
    | queue j => rw [Place.queue.injEq]; exact members j u
    | cpu j =>
      obtain ⟨point, current, absent⟩ | ⟨empty, -, only⟩ := cpus j
      · rw [here_cpu kept point current]
        exact unmoved_iff absent nofun u
      · refine iff_of_false (fun inside => empty u inside.1) ?_
        rintro (⟨_, there⟩ | ⟨different, inside⟩)
        · exact nomatch there
        · exact different (only u inside)
  refine ⟨good.moved kept queues state woken moves (fun j => ?_) fun u inside outside => ?_, moves⟩
  · refine (cpus j).imp (fun same => ⟨same.1, same.2.1⟩) ?_
    rintro ⟨empty, idle, -⟩ u
    exact ⟨fun held => absurd held (empty u), fun chosen => absurd chosen (idle u)⟩
  · have different : u ≠ x := fun same => outside i ((members i u).mpr (.inl ⟨same, rfl⟩))
    have absent : ∀ j, u ∉ l j := fun j there => outside j ((members j u).mpr (.inr ⟨different, there⟩))
    rw [elsewhere u different absent]
    exact good.cleared u inside absent

end

theorem Beyond.kept (beyond : Beyond m i q) (point : Point) :
    Kept m ((m.setQueue i q).setPoint i point) where
  tasks := rfl
  tid t := congrArg (fun task => (task t).tid) beyond.task
  runnable t same := (congrArg (fun task => (task t).state) beyond.task).trans same
  idle j := by
    by_cases own : j = i
    · subst own
      simpa [Machine.setQueue] using beyond.idle
    · simp [setQueue_rq_other m q own]

end Moves

section Sections

theorem Conserved.setPoint (good : Conserved m l) {point : Point}
    (before : ∀ t, (m.cpu i).Holds t → (m.task t).tid = tidIdle)
    (after : ∀ t, ((m.setPoint i point).cpu i).Holds t → t ∈ m.tasks ∧ (m.task t).tid = tidIdle)
    (chosen : ∀ t, point = .switch t → (m.task t).state = .runnable) :
    Progress m l i (.ok (m.setPoint i point)) := by
  have kept : Kept m (m.setPoint i point) := ⟨rfl, fun _ => rfl, fun _ same => same, fun j => by simp⟩
  have here : ∀ p t, Here (m.setPoint i point) l p t ↔ Here m l p t := by
    intro p t
    cases p with
    | queue j => exact Iff.rfl
    | cpu j =>
      by_cases own : j = i
      · subst own
        exact iff_of_false (fun inside => inside.2 (after t inside.1).2) fun inside =>
          inside.2 (before t inside.1)
      · exact here_cpu kept (setPoint_point_other m point own) (by simp)
  refine ⟨_, l, rfl, ?_, kept, .stay here fun j => by simp⟩
  refine good.of_placed kept (good.queues.setPoint i point)
    (good.placed_stay kept (fun _ => rfl) here) ?_ good.cleared ?_
  · intro j t held
    by_cases own : j = i
    · subst own
      exact (after t held).1
    · exact good.exist j t ((holds_congr (setPoint_point_other m point own) (by simp)).mp held)
  · intro j t there
    by_cases own : j = i
    · subst own
      rw [setPoint_point_self] at there
      exact chosen t there
    · exact good.chosen j t ((setPoint_point_other m point own).symm.trans there)

theorem Conserved.setTask (good : Conserved m l) (fresh : ∀ j, t ∉ l j) {task : Task}
    (tid : task.tid = (m.task t).tid) (state : task.state = (m.task t).state) :
    Conserved (m.setTask t task) l ∧ Kept m (m.setTask t task) ∧ Here (m.setTask t task) l = Here m l := by
  have tids : ∀ u, ((m.setTask t task).task u).tid = (m.task u).tid := by
    intro u
    by_cases same : u = t
    · rw [same, setTask_task_self, tid]
    · rw [setTask_task_other m task same]
  have states : ∀ u, ((m.setTask t task).task u).state = (m.task u).state := by
    intro u
    by_cases same : u = t
    · rw [same, setTask_task_self, state]
    · rw [setTask_task_other m task same]
  have kept : Kept m (m.setTask t task) :=
    ⟨rfl, tids, fun u runnable => (states u).trans runnable, fun _ => rfl⟩
  have here : ∀ p u, Here (m.setTask t task) l p u ↔ Here m l p u := by
    intro p u
    cases p with
    | queue j => exact Iff.rfl
    | cpu j => exact here_cpu kept rfl rfl
  refine ⟨?_, kept, funext fun p => funext fun u => propext (here p u)⟩
  exact good.of_placed kept (good.queues.setTask fresh task)
    (good.placed_stay kept states here) good.exist good.cleared
    fun j u chosen => kept.runnable u (good.chosen j u chosen)

theorem runqAdd_runnable (runnable : (q.task t).state = .runnable) : runqAdd q t = treeInsert q t := by
  rw [runqAdd, resetVruntime, if_neg (not_not.mpr runnable)]

theorem Conserved.enqueue (good : Conserved m l) (outside : (m.cpu i).point = .outside)
    (user : (m.task (m.cpu i).current).tid ≠ tidIdle) :
    Progress m l i (do
      let q ← runqAdd (m.queue i) (m.cpu i).current
      return (m.setQueue i q).setPoint i .next) := by
  let x := (m.cpu i).current
  have holds : ∀ u, (m.cpu i).Holds u ↔ x = u := by
    intro u
    simp only [Cpu.Holds, outside, x]
  have held : Here m l (.cpu i) x := ⟨(holds x).mpr rfl, user⟩
  have woken := good.placed.live (.cpu i) x held
  obtain ⟨q, l', run, queues, beyond, members, elsewhere⟩ :=
    good.queues.insert (good.addressed x woken.1) (good.not_queued held.1) i
  let m' := (m.setQueue i q).setPoint i .next
  have kept : Kept m m' := beyond.kept .next
  have joins :=
    good.joins kept (queues.setPoint i .next) (fun u _ => congrArg (fun task => (task u).state) beyond.task)
    ⟨woken.1, (kept.tid x).symm ▸ user, kept.runnable x woken.2.2⟩ members
  obtain ⟨good', moves⟩ := joins (fun j => by
    by_cases own : j = i
    · subst own
      exact .inr ⟨by simp [Cpu.Holds, m'], by simp [m'], fun u inside => ((holds u).mp inside.1).symm⟩
    · refine .inl ⟨(setPoint_point_other _ _ own).trans (setQueue_point m i j q), by simp [m'],
        fun there => own ?_⟩
      exact Place.cpu.inj (good.placed.once _ _ x there held)) elsewhere
  refine ⟨m', l', ?_, good', kept, .enqueue held moves fun j => by simp [m']⟩
  rw [runqAdd_runnable woken.2.2, run]
  rfl

theorem Progress.before {before : Machine n} {result : Except Fault (Machine n)}
    (kept : Kept before m) (here : Here m l = Here before l) (cpu : m.cpu = before.cpu)
    (progress : Progress m l i result) : Progress before l i result := by
  obtain ⟨m', l', run, good', kept', effect⟩ := progress
  refine ⟨m', l', run, good', ⟨kept'.tasks.trans kept.tasks, fun t => (kept'.tid t).trans (kept.tid t),
    fun t same => kept'.runnable t (kept.runnable t same), fun j => (kept'.idle j).trans (kept.idle j)⟩, ?_⟩
  cases effect with
  | stay same current => exact .stay (here ▸ same) (cpu ▸ current)
  | enqueue source moves current => exact .enqueue (here ▸ source) (here ▸ moves) (cpu ▸ current)
  | dequeue source moves current => exact .dequeue (here ▸ source) (here ▸ moves) (cpu ▸ current)
  | pull point other source moves current =>
    rw [here, cpu] at source moves
    exact .pull (cpu ▸ point) other source moves (cpu ▸ current)
  | switch held same own current => exact .switch (cpu ▸ held) (here ▸ same) own (cpu ▸ current)

theorem scheduleAdd_spec (good : Conserved m l) (outside : (m.cpu i).point = .outside) :
    Progress m l i (scheduleAdd m i) := by
  let x := (m.cpu i).current
  let ran : Task := { m.task x with vruntime := ((m.task x).vruntime + 1) % wordMod }
  have held : (m.cpu i).Holds x := by simp only [Cpu.Holds, outside, x]
  obtain ⟨good1, kept1, here1⟩ := good.setTask (good.not_queued held) (rfl : ran.tid = _) rfl
  refine .before kept1 here1 rfl ?_
  change Progress (m.setTask x ran) l i (if ((m.setTask x ran).task x).tid ≠ tidIdle then _ else _)
  split
  case isTrue user => exact good1.enqueue outside user
  case isFalse idle =>
    refine good1.setPoint (fun t here => ?_) (by simp [Cpu.Holds]) (by simp)
    have same : (m.cpu i).current = t := by simpa [Cpu.Holds, outside] using here
    exact same ▸ not_not.mp idle

theorem setQueue_queue : m.setQueue i (m.queue i) = m := by
  simp [Machine.setQueue, Machine.queue]

variable (good : Conserved m l)
include good

theorem Conserved.dequeue (empty : ∀ u, ¬ (m.cpu i).Holds u) (front : l i = t :: rest) :
    ∃ q, runqNext (m.queue i) = .ok (q, t) ∧ Beyond m i q ∧
      Progress m l i (.ok ((m.setQueue i q).setPoint i (.switch t))) := by
  obtain ⟨q, l', run, queues, beyond, members, cleared, elsewhere⟩ := good.queues.remove front
  have inside : t ∈ l i := front ▸ mem_cons_self
  have woken := good.woken inside
  have mostLeft : (m.queue i).rq.tree.mostLeft = t := by
    rw [(good.queued i).mostLeft, front]
    rfl
  let m' := (m.setQueue i q).setPoint i (.switch t)
  have kept : Kept m m' := beyond.kept (.switch t)
  have others : ∀ j ≠ i, (m'.cpu j).point = (m.cpu j).point ∧
      (m'.cpu j).current = (m.cpu j).current := fun j other =>
    ⟨(setPoint_point_other _ _ other).trans (setQueue_point m i j q), by simp [m']⟩
  have holds : ∀ u, (m'.cpu i).Holds u ↔ t = u := by
    intro u
    simp [m', Cpu.Holds]
  have moves : MovesTo (Here m l) (Here m' l') t (.cpu i) := by
    refine movesTo_of (fun j u => ?_) (fun u => ?_)
      (fun j other u => here_cpu kept (others j other).1 (others j other).2)
      fun j other => ⟨fun same => other (Place.cpu.inj same), fun there => ?_⟩
    · simp [members]
    · have user := woken.2.1
      simp only [Here, holds, kept.tid, empty, false_and, and_false, or_false, and_true]
      exact ⟨fun both => both.1.symm, fun same => ⟨same.symm, same ▸ user⟩⟩
    · exact nomatch good.placed.once _ _ t there (show Here m l (.queue i) t from inside)
  refine ⟨q, ?_, beyond, m', l', rfl, ?_, kept, .dequeue inside moves fun j => by simp [m']⟩
  · rw [runqNext, mostLeft, if_pos (good.addressed t woken.1).nonnull, run]
    rfl
  · refine good.moved kept (queues.setPoint i (.switch t))
      (fun u _ => congrArg (fun task => (task u).state) beyond.task)
      ⟨woken.1, (kept.tid t).symm ▸ woken.2.1, kept.runnable t woken.2.2⟩ moves (fun j => ?_) ?_
    · by_cases own : j = i
      · subst own
        exact .inr fun u => ⟨fun held => ((holds u).mp held).symm,
          fun chosen => by simpa [m', eq_comm] using chosen⟩
      · exact .inl (others j own)
    · intro u exists_ outside'
      by_cases same : u = t
      · rwa [same]
      · have absent : ∀ j, u ∉ l j := fun j there => outside' j ((members j u).mpr ⟨same, there⟩)
        have kept : m'.mem u = m.mem u := elsewhere u absent
        rw [kept]
        exact good.cleared u exists_ absent

theorem scheduleNext_spec (point : (m.cpu i).point = .next) : Progress m l i (scheduleNext m i) := by
  have empty : ∀ u, ¬ (m.cpu i).Holds u := by simp [Cpu.Holds, point]
  cases front : l i with
  | nil =>
    have run := runqNext_nil (front ▸ good.queued i)
    have idle : (m.task (m.cpu i).rq.idle).tid = tidIdle := (good.idle i).2.1
    have result : scheduleNext m i = .ok (m.setPoint i (.pull 0)) := by
      simp only [scheduleNext, run, ok_bind, setQueue_queue, queue_rq, if_pos idle]
      rfl
    rw [result]
    exact good.setPoint (fun t held => absurd held (empty t)) (by simp [Cpu.Holds]) (by simp)
  | cons t rest =>
    obtain ⟨q, run, beyond, progress⟩ := good.dequeue empty front
    have user : (q.task t).tid ≠ tidIdle := by
      rw [beyond.task]
      exact (good.woken (front ▸ mem_cons_self)).2.1
    have result : scheduleNext m i = .ok ((m.setQueue i q).setPoint i (.switch t)) := by
      rw [scheduleNext, run, ok_bind]
      exact congrArg (fun point => Except.ok ((m.setQueue i q).setPoint i point)) (if_neg user)
    rwa [result]

theorem scheduleRetry_spec (point : (m.cpu i).point = .retry) : Progress m l i (scheduleRetry m i) := by
  have empty : ∀ u, ¬ (m.cpu i).Holds u := by simp [Cpu.Holds, point]
  cases front : l i with
  | nil =>
    have run := runqNext_nil (front ▸ good.queued i)
    obtain ⟨exists_, tid, state⟩ := good.idle i
    have result : scheduleRetry m i = .ok (m.setPoint i (.switch (m.cpu i).rq.idle)) := by
      simp only [scheduleRetry, run, ok_bind, setQueue_queue, queue_rq]
      rfl
    rw [result]
    refine good.setPoint (fun t held => absurd held (empty t)) ?_ ?_
    · intro t held
      obtain rfl : (m.cpu i).rq.idle = t := by simpa [Cpu.Holds] using held
      exact ⟨exists_, tid⟩
    · rintro t ⟨⟩
      exact state
  | cons t rest =>
    obtain ⟨q, run, _, progress⟩ := good.dequeue empty front
    have result : scheduleRetry m i = .ok ((m.setQueue i q).setPoint i (.switch t)) := by
      simp only [scheduleRetry, run, ok_bind]
      rfl
    rwa [result]

theorem Conserved.pull {k : Fin n} (point : (m.cpu i).point = .pull k) (other : k ≠ i)
    (some : (m.cpu k).rq.numThreads > 0) :
    Progress m l i (do
      let q ← treeRemove (m.queue k) (m.cpu k).rq.tree.mostLeft
      let q' ← treeInsert ((m.setQueue k q).queue i) (m.cpu k).rq.tree.mostLeft
      return ((m.setQueue k q).setQueue i q').setPoint i .retry) := by
  let x := (m.cpu k).rq.tree.mostLeft
  have empty : ∀ u, ¬ (m.cpu i).Holds u := by simp [Cpu.Holds, point]
  have mostLeft := (good.queued k).mostLeft
  have count := (good.queued k).count
  cases front : l k with
  | nil =>
    rw [front] at count
    exact absurd count some.ne'
  | cons t rest =>
    have first : x = t := by
      simpa [front] using mostLeft
    rw [← first] at front
    have inside : x ∈ l k := front ▸ mem_cons_self
    have woken := good.woken inside
    have addressed := good.addressed x woken.1
    obtain ⟨q, l1, run, queues1, beyond1, members1, _, elsewhere1⟩ := good.queues.remove front
    obtain ⟨q', l', run', queues, beyond, members, elsewhere⟩ :=
      queues1.insert addressed (fun j inside => ((members1 j x).mp inside).1 rfl) i
    let m' := ((m.setQueue k q).setQueue i q').setPoint i .retry
    have tasks : m'.task = m.task := beyond.task.trans beyond1.task
    have kept : Kept m m' := by
      refine ⟨rfl, fun u => by rw [tasks], fun u => by rw [tasks]; exact id, fun j => ?_⟩
      refine ((beyond.kept .retry).idle j).trans ?_
      have before := (beyond1.kept .retry).idle j
      simpa using before
    have joined : Conserved m' l' ∧ MovesTo (Here m l) (Here m' l') x (.queue i) := by
      refine good.joins kept (queues.setPoint i .retry) (fun u _ => by rw [tasks])
        ⟨woken.1, (kept.tid x).symm ▸ woken.2.1, kept.runnable x woken.2.2⟩ (fun j u => ?_)
        (fun j => ?_) fun u different absent => ?_
      · rw [members, members1]
        tauto
      · by_cases own : j = i
        · subst own
          exact .inr ⟨by simp [Cpu.Holds, m'], by simp [m'], fun u inside => absurd inside.1 (empty u)⟩
        · refine .inl ⟨?_, by simp [m'], fun there => ?_⟩
          · rw [setPoint_point_other _ _ own, setQueue_point, setQueue_point]
          · exact nomatch good.placed.once _ _ x there (show Here m l (.queue k) x from inside)
      · have before : q.mem u = m.mem u := elsewhere1 u absent
        exact (elsewhere u different fun j there => absent j ((members1 j u).mp there).2).trans before
    refine ⟨m', l', ?_, joined.1, kept, .pull point other inside joined.2 fun j => by simp [m']⟩
    change (treeRemove (m.queue k) x >>= _) = _
    rw [run, ok_bind, run', ok_bind]
    rfl

theorem runqBalancePull_spec {k : Nat} (point : (m.cpu i).point = .pull k) :
    Progress m l i (runqBalancePull m i k) := by
  have empty : ∀ u, (m.cpu i).Holds u → (m.task u).tid = tidIdle := by simp [Cpu.Holds, point]
  unfold runqBalancePull
  split
  case isTrue bound =>
    dsimp only
    split
    case isTrue both => exact good.pull (k := ⟨k, bound⟩) point both.1 both.2
    case isFalse => exact good.setPoint empty (by simp [Cpu.Holds]) (by simp)
  case isFalse => exact good.setPoint empty (by simp [Cpu.Holds]) (by simp)

theorem scheduleSwitch_spec {next : Ptr} (point : (m.cpu i).point = .switch next) :
    Progress m l i (scheduleSwitch m i next) := by
  let m' : Machine n := { m with cpu := update m.cpu i { m.cpu i with current := next, point := .outside } }
  have own : m'.cpu i = { m.cpu i with current := next, point := .outside } := update_self _ _ _
  have others : ∀ j ≠ i, m'.cpu j = m.cpu j := fun j other => update_of_ne other _ _
  have kept : Kept m m' := by
    refine ⟨rfl, fun _ => rfl, fun _ same => same, fun j => ?_⟩
    by_cases here : j = i
    · subst here
      rw [own]
    · rw [others j here]
  have holds : ∀ j u, (m'.cpu j).Holds u ↔ (m.cpu j).Holds u := by
    intro j u
    by_cases here : j = i
    · subst here
      simp only [own, Cpu.Holds, point]
    · rw [others j here]
  have here : ∀ p u, Here m' l p u ↔ Here m l p u := by
    intro p u
    cases p with
    | queue j => exact Iff.rfl
    | cpu j => exact and_congr (holds j u) Iff.rfl
  have queues : Queues m' l := by
    refine ⟨fun j => (good.queued j).congr ?_ (fun _ _ => rfl) fun _ _ => rfl, good.queues.apart⟩
    by_cases same : j = i
    · subst same
      simp [own]
    · simp [others j same]
  have held : (m.cpu i).Holds next := by simp only [Cpu.Holds, point]
  refine ⟨m', l, if_pos (good.chosen i next point), ?_, kept, .switch held here ?_ fun j other => ?_⟩
  · refine good.of_placed kept queues (good.placed_stay kept (fun _ => rfl) here) ?_ good.cleared ?_
    · exact fun j u held => good.exist j u ((holds j u).mp held)
    · intro j u chosen
      by_cases same : j = i
      · subst same
        simp [own] at chosen
      · exact good.chosen j u (others j same ▸ chosen)
  · rw [own]
  · rw [others j other]

/-- Every step of a processor succeeds and moves at most one task. -/
theorem scheduleStep_spec (i : Fin n) : Progress m l i (scheduleStep m i) := by
  unfold scheduleStep
  split
  case h_1 point => exact scheduleAdd_spec good point
  case h_2 point => exact scheduleNext_spec good point
  case h_3 k point => exact runqBalancePull_spec good point
  case h_4 point => exact scheduleRetry_spec good point
  case h_5 next point => exact scheduleSwitch_spec good point

end Sections

section Runs

variable {guard : Machine n → Fin n → Prop}

theorem taskFork_spec (good : Conserved m l) (addressed : Address t) (fresh : t ∉ m.tasks)
    (tid : Nat) : Conserved (taskFork m t tid) l ∧ Here (taskFork m t tid) l = Here m l := by
  have different : ∀ u ∈ m.tasks, u ≠ t := fun u inside same => fresh (same ▸ inside)
  have tasks : ∀ u ∈ m.tasks, (taskFork m t tid).task u = m.task u := fun u inside =>
    update_of_ne (different u inside) _ _
  have nodes : ∀ u ∈ m.tasks, (taskFork m t tid).mem u = m.mem u := fun u inside =>
    update_of_ne (different u inside) _ _
  have new : (taskFork m t tid).task t = ⟨.notStarted, tid, 0⟩ := update_self _ _ _
  have here : ∀ p u, Here (taskFork m t tid) l p u ↔ Here m l p u := by
    intro p u
    cases p with
    | queue j => exact Iff.rfl
    | cpu j =>
      refine and_congr_right fun held => ?_
      rw [tasks u (good.exist j u held)]
  have woken : ∀ u, (taskFork m t tid).Woken u ↔ m.Woken u := by
    intro u
    by_cases inside : u ∈ m.tasks
    · have still : u ∈ (taskFork m t tid).tasks := mem_cons_of_mem t inside
      simp only [Machine.Woken, inside, still, tasks u inside]
    · refine iff_of_false (fun both => ?_) fun both => inside both.1
      obtain rfl := (mem_cons.mp both.1).resolve_right inside
      have state := both.2.2
      simp [new] at state
  refine ⟨?_, funext fun p => funext fun u => propext (here p u)⟩
  exact {
    queued := fun j => (good.queued j).congr rfl (fun u inside => nodes u (good.woken inside).1)
      fun u inside => congrArg Task.vruntime (tasks u (good.woken inside).1)
    placed := good.placed.congr here woken
    exist := fun j u held => mem_cons_of_mem t (good.exist j u held)
    addressed := fun u inside => by
      obtain rfl | inside := mem_cons.mp inside
      · exact addressed
      · exact good.addressed u inside
    cleared := fun u inside absent => by
      by_cases same : u = t
      · have zero : (taskFork m t tid).mem u = ⟨0#64, 0#64, 0#64⟩ := by
          rw [same]
          exact update_self _ _ _
        rw [zero]
        exact ⟨by decide, rfl, rfl⟩
      · have inside := (mem_cons.mp inside).resolve_left same
        rw [nodes u inside]
        exact good.cleared u inside absent
    idle := fun j => by
      obtain ⟨inside, idle⟩ := good.idle j
      refine ⟨mem_cons_of_mem t inside, ?_⟩
      change ((taskFork m t tid).task (m.cpu j).rq.idle).tid = _ ∧
        ((taskFork m t tid).task (m.cpu j).rq.idle).state = _
      rwa [tasks _ inside]
    chosen := fun j u chosen => by
      have held : (m.cpu j).Holds u := by
        have there : (m.cpu j).point = .switch u := chosen
        simp only [Cpu.Holds, there]
      rw [tasks u (good.exist j u held)]
      exact good.chosen j u chosen }

/-- A task that is woken goes to a queue; it was nowhere. -/
theorem taskWakeup_spec (good : Conserved m l) (forked : t ∈ m.tasks)
    (user : (m.task t).tid ≠ tidIdle) (asleep : (m.task t).state ≠ .runnable) (i : Fin n) :
    ∃ m' l', taskWakeup m i t = .ok m' ∧ Conserved m' l' ∧ Kept m m' ∧
      MovesTo (Here m l) (Here m' l') t (.queue i) ∧ ∀ j, (m'.cpu j).current = (m.cpu j).current := by
  have nowhere : ∀ p, ¬ Here m l p t := fun p inside => asleep (good.placed.live p t inside).2.2
  let m1 := m.setTask t { m.task t with state := .runnable }
  have queues1 : Queues m1 l := good.queues.setTask (fun j => nowhere (.queue j)) _
  have addressed := good.addressed t forked
  obtain ⟨q, l', run, queues, beyond, members, elsewhere⟩ :=
    queues1.insert addressed (fun j => nowhere (.queue j)) i
  let m' := m1.setQueue i q
  have tasks : m'.task = m1.task := beyond.task
  have own : m'.task t = { m.task t with state := .runnable } := by
    rw [tasks]
    exact setTask_task_self _ _ _
  have others : ∀ u ≠ t, m'.task u = m.task u := by
    intro u different
    rw [tasks]
    exact setTask_task_other m _ different
  have kept : Kept m m' := by
    refine ⟨rfl, fun u => ?_, fun u runnable => ?_, fun j => ?_⟩
    · by_cases same : u = t
      · rw [same, own]
      · rw [others u same]
    · by_cases same : u = t
      · rw [same, own]
      · rw [others u same, runnable]
    · have idle := (beyond.kept .outside).idle j
      simpa [m', m1] using idle
  obtain ⟨good', moves⟩ := good.joins kept queues (fun u different => by rw [others u different])
    ⟨forked, (kept.tid t).symm ▸ user, by rw [own]⟩ members
    (fun j => .inl ⟨setQueue_point m1 i j q, setQueue_current m1 i j q, nowhere (.cpu j)⟩) elsewhere
  refine ⟨m', l', ?_, good', kept, moves, fun j => setQueue_current m1 i j q⟩
  have runnable : ((m1.queue i).task t).state = .runnable := congrArg Task.state (setTask_task_self m t _)
  rw [taskWakeup, if_pos asleep]
  change (runqAdd (m1.queue i) t >>= _) = _
  rw [runqAdd_runnable runnable, run]
  rfl

theorem conserved_booted (booted : Booted m dummy) : Conserved m fun _ => [] := by
  have tids : ∀ t ∈ m.tasks, (m.task t).tid = tidIdle := by
    intro t inside
    obtain rfl | ⟨i, rfl⟩ := (booted.tasks t).mp inside
    · rw [booted.dummyTask]
    · rw [booted.idleTask i]
  have exist : ∀ i t, (m.cpu i).Holds t → t ∈ m.tasks := by
    intro i t held
    simp only [Cpu.Holds, booted.point i, booted.current i] at held
    exact (booted.tasks t).mpr (.inl held.symm)
  exact {
    queued := fun i => by
      obtain ⟨tree, count⟩ := booted.empty i
      refine ⟨⟨.leaf, ⟨trivial, ?_, List.nodup_nil⟩, rfl, rfl⟩, ?_, count, List.Pairwise.nil⟩
      · exact congrArg Rbtree.root tree
      · exact congrArg Rbtree.mostLeft tree
    placed := {
      somewhere := fun t woken => absurd (tids t woken.1) woken.2.1
      once := fun p p' t first => by
        cases p with
        | queue i => exact absurd first not_mem_nil
        | cpu i => exact absurd (tids t (exist i t first.1)) first.2
      live := fun p t first => by
        cases p with
        | queue i => exact absurd first not_mem_nil
        | cpu i => exact absurd (tids t (exist i t first.1)) first.2 }
    exist := exist
    addressed := booted.addressed
    cleared := fun t inside _ => by
      rw [booted.zeroed t inside]
      exact ⟨by decide, rfl, rfl⟩
    idle := fun i => by
      refine ⟨(booted.tasks _).mpr (.inr ⟨i, rfl⟩), ?_⟩
      rw [booted.idleTask i]
      exact ⟨rfl, rfl⟩
    chosen := fun i t chosen => by simp [booted.point i] at chosen }

theorem schedStep_conserved (step : SchedStep guard m m') (good : ∃ l, Conserved m l) :
    ∃ l', Conserved m' l' := by
  obtain ⟨l, good⟩ := good
  cases step with
  | cpu i allowed ran =>
    obtain ⟨m1, l', run, good', _⟩ := scheduleStep_spec good i
    obtain rfl := Except.ok.inj (run.symm.trans ran)
    exact ⟨l', good'⟩
  | fork t tid addressed fresh user => exact ⟨l, (taskFork_spec good addressed fresh tid).1⟩
  | wakeup i t forked user ran =>
    by_cases asleep : (m.task t).state = .runnable
    · rw [taskWakeup, if_neg (not_not.mpr asleep)] at ran
      cases ran
      exact ⟨l, good⟩
    · obtain ⟨m1, l', run, good', _⟩ := taskWakeup_spec good forked user asleep i
      obtain rfl := Except.ok.inj (run.symm.trans ran)
      exact ⟨l', good'⟩

theorem conserved_of_run {start : Machine n} (booted : Booted start dummy)
    (run : Reaches (SchedStep guard) start m) : ∃ l, Conserved m l :=
  run.invariant (fun m => ∃ l, Conserved m l) ⟨_, conserved_booted booted⟩ fun _ _ _ step =>
    schedStep_conserved step

def Located (m : Machine n) : Place n → Ptr → Prop
  | .queue i, t => t ∈ treeNodes (m.queue i)
  | .cpu i, t => (m.cpu i).Holds t

theorem Conserved.located_iff (good : Conserved m l) (user : (m.task t).tid ≠ tidIdle)
    (p : Place n) : Located m p t ↔ Here m l p t := by
  cases p with
  | queue i =>
    simp only [Located, Here, (good.queued i).treeNodes_eq]
    exact Iff.rfl
  | cpu i => exact (and_iff_left user).symm

/-- In every reachable state each woken task is in exactly one place, the counters are
the sizes of the trees, a queue that is not empty has a first task, and every next
section of every processor succeeds. -/
theorem no_task_lost_or_duplicated {start : Machine n} (booted : Booted start dummy)
    (run : Reaches AnyStep start m) :
    (∀ t, m.Woken t → ∃! p, Located m p t) ∧ (∀ i, ∀ t ∈ treeNodes (m.queue i), m.Woken t) ∧
    (∀ i, (m.cpu i).rq.numThreads = (treeNodes (m.queue i)).ncard) ∧
    (∀ i, (m.cpu i).rq.numThreads > 0 → (m.cpu i).rq.tree.mostLeft ≠ 0#64) ∧
    (∀ i, ∃ m', scheduleStep m i = .ok m') ∧
    ∀ i, ∀ t ∈ m.tasks, (m.task t).tid ≠ tidIdle → ∃ m', taskWakeup m i t = .ok m' := by
  obtain ⟨l, good⟩ := conserved_of_run booted run
  refine ⟨fun t woken => ?_, fun i t inside => ?_, fun i => (good.queued i).count_eq,
    fun i some => ?_, fun i => ?_, fun i t forked user => ?_⟩
  · obtain ⟨p, inside, only⟩ := good.placed.existsUnique woken
    refine ⟨p, (good.located_iff woken.2.1 p).mpr inside, fun p' other => only p' ?_⟩
    exact (good.located_iff woken.2.1 p').mp other
  · rw [(good.queued i).treeNodes_eq] at inside
    exact good.woken inside
  · have mostLeft := (good.queued i).mostLeft
    have count := (good.queued i).count
    cases front : l i with
    | nil =>
      rw [front] at count
      exact absurd count some.ne'
    | cons t rest =>
      rw [front] at mostLeft
      have inside : t ∈ l i := front ▸ mem_cons_self
      have address := (good.queued i).address inside
      intro null
      exact address.nonnull (mostLeft.symm.trans null)
  · obtain ⟨m', _, ran, _⟩ := scheduleStep_spec good i
    exact ⟨m', ran⟩
  · by_cases asleep : (m.task t).state = .runnable
    · exact ⟨m, if_neg (not_not.mpr asleep)⟩
    · obtain ⟨m', _, ran, _⟩ := taskWakeup_spec good forked user asleep i
      exact ⟨m', ran⟩

def twoCpus : Machine 2 where
  mem _ := ⟨0#64, 0#64, 0#64⟩
  task t := if t = 8#64 then ⟨.notStarted, tidIdle, 0⟩ else ⟨.runnable, tidIdle, 0⟩
  tasks := [8#64, 16#64, 24#64]
  cpu i := ⟨8#64, ⟨if i = 0 then 16#64 else 24#64, ⟨0#64, 0#64⟩, 0⟩, .outside⟩

theorem twoCpus_booted : Booted twoCpus 8#64 where
  current _ := rfl
  point _ := rfl
  empty _ := ⟨rfl, rfl⟩
  tasks t := by
    simp only [twoCpus, mem_cons, not_mem_nil, or_false, Fin.exists_fin_two]
    simp
  addressed t inside := by
    simp only [twoCpus, mem_cons, not_mem_nil, or_false] at inside
    obtain rfl | rfl | rfl := inside <;> exact ⟨by decide, by decide⟩
  zeroed _ _ := rfl
  dummyTask := rfl
  idleTask := by decide

def interleave (guard : Machine n → Fin n → Prop) [DecidableRel guard] :
    List (Fin n) → Machine n → Option (Machine n)
  | [], m => some m
  | i :: order, m => if guard m i then (scheduleStep m i).toOption.bind (interleave guard order) else none

theorem interleave_reaches [DecidableRel guard] {order : List (Fin n)}
    (ran : interleave guard order m = some m') : Reaches (SchedStep guard) m m' := by
  induction order generalizing m with
  | nil =>
    cases ran
    exact .refl
  | cons i order ih =>
    rw [interleave] at ran
    split at ran
    case isTrue allowed =>
      obtain ⟨m1, first, rest⟩ := toOption_bind_eq_some.mp ran
      exact .head (.cpu i allowed first) (ih rest)
    case isFalse => exact nomatch ran

def wakeAll : List Ptr → Machine 2 → Option (Machine 2)
  | [], m => some m
  | t :: rest, m =>
    if t ≠ 0#64 ∧ t &&& 1#64 = 0#64 ∧ t ∉ m.tasks then
      (taskWakeup (taskFork m t 1) 0 t).toOption.bind (wakeAll rest)
    else none

variable {guard : Machine 2 → Fin 2 → Prop}

theorem wakeAll_reaches {m m' : Machine 2} (ran : wakeAll tasks m = some m') :
    Reaches (SchedStep guard) m m' := by
  induction tasks generalizing m with
  | nil =>
    cases ran
    exact .refl
  | cons t rest ih =>
    rw [wakeAll] at ran
    split at ran
    case isTrue new =>
      obtain ⟨nonnull, aligned, fresh⟩ := new
      obtain ⟨m1, first, rest⟩ := toOption_bind_eq_some.mp ran
      have user : ((taskFork m t 1).task t).tid ≠ tidIdle := by simp [taskFork, tidIdle]
      exact .head (.fork t 1 ⟨nonnull, aligned⟩ fresh (by decide))
        (.head (.wakeup 0 t mem_cons_self user first) (ih rest))
    case isFalse => exact nomatch ran

def wokenRun (guard : Machine 2 → Fin 2 → Prop) [DecidableRel guard] (tasks : List Ptr)
    (order : List (Fin 2)) : Option (Machine 2) :=
  (wakeAll tasks twoCpus).bind (interleave guard order)

theorem wokenRun_reaches [DecidableRel guard] {order : List (Fin 2)} {m : Machine 2}
    (ran : wokenRun guard tasks order = some m) : Reaches (SchedStep guard) twoCpus m := by
  obtain ⟨m1, woken, rest⟩ := Option.bind_eq_some_iff.mp ran
  exact (wakeAll_reaches woken).trans (interleave_reaches rest)

/-- Processor 1 has pulled the task and holds it. -/
theorem no_task_lost_or_duplicated_pulled :
    ∃ m : Machine 2, Reaches AnyStep twoCpus m ∧ (m.cpu 1).point = .switch 32#64 ∧
      ∃! p, Located m p 32#64 := by
  have finished : ((wokenRun (fun _ _ => True) [32#64] [1, 1, 1, 1]).map
      fun m => (m.tasks, m.task 32#64, (m.cpu 1).point)) =
      some ([32#64, 8#64, 16#64, 24#64], ⟨.runnable, 1, 0⟩, .switch 32#64) := by
    decide +kernel
  obtain ⟨m, ran, values⟩ := Option.map_eq_some_iff.mp finished
  simp only [Prod.mk.injEq] at values
  obtain ⟨tasks, task, point⟩ := values
  have run := wokenRun_reaches ran
  have woken : m.Woken 32#64 := ⟨by simp [tasks], by simp [task, tidIdle], by simp [task]⟩
  exact ⟨m, run, point, (no_task_lost_or_duplicated twoCpus_booted run).1 _ woken⟩

end Runs

end ByteOS.Proc
