import ByteOS.Lib.RoundRobin
import ByteOS.Proc.SchedTokens

/-! What the accounting of virtual runtime does to the order of the tasks.

On a processor whose tasks have run equally long, up to one, every call of `schedule`
puts the current task at the end of the queue and takes the first one. A task that is
woken keeps the virtual runtime it has.
-/

set_option autoImplicit false

namespace ByteOS.Proc

open Lib Mm Ds
open List (mem_cons_self mem_cons nodup_cons not_mem_nil)

variable {n : Nat} {m m' : Machine n} {i : Fin n} {c t : Ptr} {l : List Ptr}

/-! ## Round robin -/

section Turns

/-- Processor `i` runs `c` and its queue holds the tasks of `l`. All of them are runnable,
none is an idle task, their virtual runtimes are within one of each other, and that of `c`
is minimal. -/
structure TakesTurns (m : Machine n) (i : Fin n) (c : Ptr) (l : List Ptr) : Prop where
  current : (m.cpu i).current = c
  outside : (m.cpu i).point = .outside
  queued : Queued (m.queue i) l
  addressed : Address c
  apart : c ∉ l
  runnable : ∀ t ∈ c :: l, (m.task t).state = .runnable
  user : ∀ t ∈ c :: l, (m.task t).tid ≠ tidIdle
  close : ∀ t ∈ c :: l, ∀ u ∈ c :: l, (m.task t).vruntime ≤ (m.task u).vruntime + 1
  least : ∀ t ∈ l, (m.task c).vruntime ≤ (m.task t).vruntime

/-- Calls of `schedule` on processor `i` one after the other, with the tasks that they pick.
No call finds the counter of the current task at its end. -/
inductive Calls (i : Fin n) : Machine n → List Ptr → Machine n → Prop where
  | none {m : Machine n} : Calls i m [] m
  | next {m m₁ m' : Machine n} {picked : List Ptr}
      (room : (m.task (m.cpu i).current).vruntime + 1 < wordMod)
      (ran : schedule m i = .ok m₁) (rest : Calls i m₁ picked m') :
        Calls i m ((m₁.cpu i).current :: picked) m'

theorem TakesTurns.add (turn : TakesTurns m i c l) (room : (m.task c).vruntime + 1 < wordMod) :
    ∃ m', scheduleAdd m i = .ok m' ∧ (m'.cpu i).point = .next ∧ Queued (m'.queue i) (l ++ [c]) ∧
      m'.task = Function.update m.task c { m.task c with vruntime := (m.task c).vruntime + 1 } := by
  let ran : Task := { m.task c with vruntime := (m.task c).vruntime + 1 }
  have queued : Queued ((m.setTask c ran).queue i) l := by
    refine turn.queued.congr rfl (fun _ _ => rfl) fun p inside => ?_
    have other : p ≠ c := fun same => turn.apart (same ▸ inside)
    exact congrArg Task.vruntime (setTask_task_other m ran other)
  obtain ⟨q, front, rear, run, split, queued', _, greater, untouched⟩ :=
    treeInsert_spec queued turn.addressed turn.apart
  have last : rear = [] := by
    refine List.eq_nil_iff_forall_not_mem.mpr fun u inside => ?_
    have member : u ∈ l := split ▸ List.mem_append_right front inside
    have other : u ≠ c := fun same => turn.apart (same ▸ member)
    have later := greater u inside
    have close := turn.close u (List.mem_cons_of_mem c member) c mem_cons_self
    simp only [queue_task, setTask_task_self, setTask_task_other m ran other, ran] at later
    omega
  rw [last, List.append_nil] at split
  subst split
  refine ⟨(((m.setTask c ran).setQueue i q).setPoint i .next), ?_, by simp, ?_, ?_⟩
  · have runnable : (((m.setTask c ran).queue i).task c).state = .runnable := by
      simp [ran, turn.runnable c mem_cons_self]
    have user := turn.user c mem_cons_self
    have kept : (m.task c).vruntime + 1 = ((m.task c).vruntime + 1) % wordMod :=
      (Nat.mod_eq_of_lt room).symm
    rw [scheduleAdd, turn.current]
    dsimp only
    rw [← kept, setTask_task_self]
    dsimp only
    rw [if_pos user, runqAdd_runnable runnable, run]
    rfl
  · rw [last] at queued'
    simpa using queued'
  · exact untouched.task

theorem scheduleRest_cons (fuel : Nat) (queued : Queued (m.queue i) (t :: l))
    (point : (m.cpu i).point = .next) (runnable : (m.task t).state = .runnable)
    (user : (m.task t).tid ≠ tidIdle) :
    ∃ m', scheduleRest (fuel + 3) m i = .ok m' ∧ (m'.cpu i).current = t ∧
      (m'.cpu i).point = .outside ∧ Queued (m'.queue i) l ∧ m'.task = m.task := by
  obtain ⟨q, run, queued', untouched⟩ := runqNext_cons queued
  let m₁ := (m.setQueue i q).setPoint i (.switch t)
  let m₂ : Machine n :=
    { m₁ with cpu := Function.update m₁.cpu i { m₁.cpu i with current := t, point := .outside } }
  have task : m₁.task = m.task := untouched.task
  have first : scheduleStep m i = .ok m₁ := by
    have other : ((m.setQueue i q).task t).tid ≠ tidIdle := by
      rwa [setQueue_task, untouched.task]
    rw [scheduleStep, point]
    dsimp only
    rw [scheduleNext, run, ok_bind]
    dsimp only
    rw [if_neg other]
    rfl
  have second : scheduleStep m₁ i = .ok m₂ := by
    have chosen : (m₁.cpu i).point = .switch t := by simp [m₁]
    have runnable : (m₁.task t).state = .runnable := by rwa [task]
    rw [scheduleStep, chosen]
    dsimp only
    rw [scheduleSwitch, if_pos runnable]
    rfl
  refine ⟨m₂, ?_, by simp [m₂], by simp [m₂], ?_, task⟩
  · rw [scheduleRest, if_neg (by simp [point]), first, ok_bind, scheduleRest, if_neg (by simp [m₁]),
      second, ok_bind, scheduleRest, if_pos (by simp [m₂])]
    rfl
  · refine queued'.congr ?_ (fun _ _ => rfl) (fun _ _ => by rw [queue_task, task, untouched.task]; rfl)
    simp [m₂, m₁, Machine.setPoint, Machine.setQueue]

theorem TakesTurns.schedule (turn : TakesTurns m i c l) (room : (m.task c).vruntime + 1 < wordMod) :
    ∃ m' c' l', schedule m i = .ok m' ∧ l ++ [c] = c' :: l' ∧ TakesTurns m' i c' l' := by
  obtain ⟨m₁, added, point, queued, task⟩ := turn.add room
  obtain ⟨c', l', line⟩ := List.exists_cons_of_ne_nil (List.concat_ne_nil c l)
  rw [line] at queued
  have members : ∀ t, t ∈ c' :: l' → t ∈ c :: l := by
    intro t inside
    rw [← line] at inside
    simpa [or_comm] using inside
  -- of the tasks only one counter has changed
  have kept : ∀ t, (m₁.task t).state = (m.task t).state ∧ (m₁.task t).tid = (m.task t).tid := by
    intro t
    rw [task]
    by_cases same : t = c
    · rw [same, Function.update_self]
      exact ⟨rfl, rfl⟩
    · rw [Function.update_of_ne same]
      exact ⟨rfl, rfl⟩
  have counter : ∀ t ∈ c' :: l', (m.task c).vruntime ≤ (m₁.task t).vruntime ∧
      (m₁.task t).vruntime ≤ (m.task c).vruntime + 1 := by
    intro t inside
    rw [task]
    obtain rfl | waiting := mem_cons.mp (members t inside)
    · rw [Function.update_self]
      exact ⟨Nat.le_succ _, le_rfl⟩
    · have other : t ≠ c := fun same => turn.apart (same ▸ waiting)
      rw [Function.update_of_ne other]
      exact ⟨turn.least t waiting, turn.close t (members t inside) c mem_cons_self⟩
  have runnable : ∀ t ∈ c' :: l', (m₁.task t).state = .runnable := fun t inside =>
    (kept t).1.trans (turn.runnable t (members t inside))
  have user : ∀ t ∈ c' :: l', (m₁.task t).tid ≠ tidIdle := fun t inside =>
    (kept t).2 ▸ turn.user t (members t inside)
  obtain ⟨m', rest, current, outside, queued', task'⟩ := scheduleRest_cons (n + 2) queued point
    (runnable c' mem_cons_self) (user c' mem_cons_self)
  refine ⟨m', c', l', ?_, line, current, outside, queued', queued.address mem_cons_self,
    (nodup_cons.mp queued.nodup).1, ?_, ?_, ?_, ?_⟩
  · rwa [Proc.schedule, added, ok_bind]
  · rwa [task']
  · rwa [task']
  · -- all counters lie between that of the old current task and one more
    intro t first u second
    rw [task']
    have upper := (counter t first).2
    have lower := (counter u second).1
    omega
  · intro t inside
    rw [task']
    exact List.rel_of_pairwise_cons queued.sorted inside

variable {picked : List Ptr}

/-- After any calls the tasks still take turns, and they were picked in turns. -/
theorem TakesTurns.calls (turn : TakesTurns m i c l) (calls : Calls i m picked m') :
    picked = turns picked.length (l ++ [c]) ∧ ∃ c' l', TakesTurns m' i c' l' ∧
      (c' :: l').Perm (c :: l) := by
  -- the line is rotated by every call, so the induction is over all lines
  induction calls generalizing c l with
  | none => exact ⟨rfl, c, l, turn, .refl _⟩
  | next room ran rest ih =>
    rw [turn.current] at room
    obtain ⟨m₁, c₁, l₁, ran', line, turn₁⟩ := turn.schedule room
    obtain rfl := Except.ok.inj (ran'.symm.trans ran)
    obtain ⟨later, c', l', turn', same⟩ := ih turn₁
    refine ⟨?_, c', l', turn', same.trans ?_⟩
    · rw [line, turn₁.current, List.length_cons, turns, ← later]
    · rw [← line]
      exact List.perm_append_singleton c l

/-- While tasks take turns, their virtual runtimes stay within one of each other, no call
fails, and between two calls in a row that pick the same task every other one is picked
exactly once. -/
theorem round_robin (turn : TakesTurns m i c l) (calls : Calls i m picked m') :
    (∀ t ∈ c :: l, ∀ u ∈ c :: l, (m'.task t).vruntime ≤ (m'.task u).vruntime + 1) ∧
    ((m'.task (m'.cpu i).current).vruntime + 1 < wordMod → ∃ m'', schedule m' i = .ok m'') ∧
    ∀ before between after t, picked = before ++ t :: (between ++ t :: after) → t ∉ between →
      ∀ u ∈ c :: l, u ≠ t → between.count u = 1 := by
  obtain ⟨inTurn, c', l', turn', same⟩ := turn.calls calls
  refine ⟨?_, ?_, ?_⟩
  · intro t first u second
    exact turn'.close t (same.mem_iff.mpr first) u (same.mem_iff.mpr second)
  · intro room
    rw [turn'.current] at room
    obtain ⟨m'', _, _, ran, _⟩ := turn'.schedule room
    exact ⟨m'', ran⟩
  · intro before between after t split absent u member other
    have distinct : (l ++ [c]).Nodup :=
      (List.perm_append_singleton c l).nodup_iff.mpr (nodup_cons.mpr ⟨turn.apart, turn.queued.nodup⟩)
    refine turns_between distinct (inTurn.symm.trans split) absent ?_ other
    simpa [or_comm] using member

def twoTasks (vruntime : Nat) : Machine 1 where
  mem p := ⟨if p = 16#64 then 1#64 else 0#64, 0#64, 0#64⟩
  task t := if t = 64#64 then ⟨.runnable, tidIdle, 0⟩ else ⟨.runnable, 1, vruntime⟩
  tasks := [8#64, 16#64, 64#64]
  cpu _ := ⟨8#64, ⟨64#64, ⟨16#64, 16#64⟩, 1⟩, .outside⟩

theorem twoTasks_turns (vruntime : Nat) : TakesTurns (twoTasks vruntime) 0 8#64 [16#64] where
  current := rfl
  outside := rfl
  queued := by
    refine ⟨⟨.node .black .leaf 16#64 .leaf,
      ⟨⟨⟨by decide, by decide⟩, ?_, ?_, rfl, rfl, trivial, trivial⟩, rfl, ?_⟩, rfl,
      rfl⟩, rfl, rfl, List.pairwise_singleton _ _⟩
    · change (⟨1#64, 0#64, 0#64⟩ : RbNode).parent = 0#64
      decide
    · change (⟨1#64, 0#64, 0#64⟩ : RbNode).color = .black
      decide
    · exact List.nodup_singleton _
  addressed := ⟨by decide, by decide⟩
  apart := by decide
  runnable t inside := by
    simp only [mem_cons, not_mem_nil, or_false] at inside
    obtain rfl | rfl := inside <;> rfl
  user t inside := by
    simp only [mem_cons, not_mem_nil, or_false] at inside
    obtain rfl | rfl := inside <;> exact (by decide : (1 : Nat) ≠ tidIdle)
  close t first u second := by
    simp only [mem_cons, not_mem_nil, or_false] at first second
    obtain rfl | rfl := first <;> obtain rfl | rfl := second <;> exact Nat.le_succ _
  least t inside := by
    obtain rfl := List.mem_singleton.mp inside
    exact le_rfl

def callTimes (i : Fin n) : Nat → Machine n → Option (List Ptr × Machine n)
  | 0, m => some ([], m)
  | k + 1, m =>
    if (m.task (m.cpu i).current).vruntime + 1 < wordMod then
      (schedule m i).toOption.bind fun m => (callTimes i k m).map fun rest =>
        ((m.cpu i).current :: rest.1, rest.2)
    else none

theorem calls_of_callTimes {k : Nat} (ran : callTimes i k m = some (picked, m')) : Calls i m picked m' := by
  induction k generalizing m picked with
  | zero =>
    cases ran
    exact .none
  | succ k ih =>
    rw [callTimes] at ran
    split at ran
    case isTrue room =>
      obtain ⟨m₁, called, ran⟩ := toOption_bind_eq_some.mp ran
      obtain ⟨rest, later, same⟩ := Option.map_eq_some_iff.mp ran
      obtain ⟨rfl, rfl⟩ := Prod.mk.inj same
      exact .next room called (ih later)
    case isFalse => cases ran

/-- Three calls in which the tasks take turns. -/
theorem round_robin_two_tasks : ∃ m', Calls 0 (twoTasks 5) [16#64, 8#64, 16#64] m' ∧
    (∃ m'', schedule m' 0 = .ok m'') ∧ [8#64].count 8#64 = 1 := by
  have finished : ((callTimes 0 3 (twoTasks 5)).map fun run =>
      (run.1, (run.2.cpu 0).current, (run.2.task 16#64).vruntime)) =
      some ([16#64, 8#64, 16#64], 16#64, 6) := by decide +kernel
  obtain ⟨⟨picked, m'⟩, ran, values⟩ := Option.map_eq_some_iff.mp finished
  simp only [Prod.mk.injEq] at values
  obtain ⟨rfl, current, counter⟩ := values
  have calls := calls_of_callTimes ran
  obtain ⟨-, goesOn, once⟩ := round_robin (twoTasks_turns 5) calls
  refine ⟨m', calls, goesOn ?_, once [] [8#64] [] 16#64 rfl (by decide) 8#64 mem_cons_self (by decide)⟩
  rw [current, counter]
  decide

/-- At its end the counter starts again at zero: task 8 is first in line again and is picked
twice in a row, and the other task has run `2^64 - 1` times more. -/
theorem round_robin_wraps : ∃ m' m'' : Machine 1, TakesTurns (twoTasks (2 ^ 64 - 1)) 0 8#64 [16#64] ∧
      schedule (twoTasks (2 ^ 64 - 1)) 0 = .ok m' ∧ schedule m' 0 = .ok m'' ∧
      (m'.cpu 0).current = 8#64 ∧ (m''.cpu 0).current = 8#64 ∧
      ¬ (m'.task 16#64).vruntime ≤ (m'.task 8#64).vruntime + 1 := by
  have finished : ((schedule (twoTasks (2 ^ 64 - 1)) 0).toOption.bind
      fun m' => (schedule m' 0).toOption.map fun m'' =>
      ((m'.cpu 0).current, (m''.cpu 0).current, (m'.task 16#64).vruntime, (m'.task 8#64).vruntime)) =
      some (8#64, 8#64, 2 ^ 64 - 1, 0) := by decide +kernel
  obtain ⟨m', first, rest⟩ := toOption_bind_eq_some.mp finished
  obtain ⟨m'', second, values⟩ := toOption_map_eq_some.mp rest
  simp only [Prod.mk.injEq] at values
  obtain ⟨current, current', longer, wrapped⟩ := values
  refine ⟨m', m'', twoTasks_turns _, first, second, current, current', ?_⟩
  rw [longer, wrapped]
  decide

end Turns

/-! ## Wakeups -/

section Wakeups

def IsLeast (m : Machine n) (i : Fin n) (u : Ptr) : Prop :=
  u ∈ treeNodes (m.queue i) ∧ ∀ w ∈ treeNodes (m.queue i), (m.task u).vruntime ≤ (m.task w).vruntime

theorem Queued.isLeast (queued : Queued (m.queue i) (t :: l)) : IsLeast m i t := by
  rw [IsLeast, queued.treeNodes_eq]
  refine ⟨mem_cons_self, fun w inside => ?_⟩
  obtain rfl | behind := mem_cons.mp inside
  · exact le_rfl
  · exact List.rel_of_pairwise_cons queued.sorted behind

theorem Queued.minVruntime (queued : Queued (m.queue i) (t :: l)) :
    minVruntime (m.queue i) = (m.task t).vruntime := by
  have front : (m.queue i).rq.tree.mostLeft = t := queued.mostLeft
  rw [Proc.minVruntime, front, if_neg (queued.address mem_cons_self).nonnull]
  rfl

theorem Conserved.least_le_iff {l : Fin n → List Ptr} (good : Conserved m l)
    (some : (treeNodes (m.queue i)).Nonempty) (v : Nat) :
    (∃ u, IsLeast m i u ∧ (m.task u).vruntime ≤ v) ↔ minVruntime (m.queue i) ≤ v := by
  obtain ⟨u, inside⟩ := some
  rw [(good.queued i).treeNodes_eq] at inside
  obtain ⟨first, rest, line⟩ := List.exists_cons_of_ne_nil (List.ne_nil_of_mem inside)
  have queued := good.queued i
  rw [line] at queued
  rw [queued.minVruntime]
  constructor
  · rintro ⟨u, least, le⟩
    exact (queued.isLeast.2 u least.1).trans le
  · intro le
    exact ⟨first, queued.isLeast, le⟩

/-- `task_wakeup` makes the task runnable first, so `runq_add` leaves its virtual runtime as
it is. -/
theorem Conserved.wakeup_keeps {l : Fin n → List Ptr} (good : Conserved m l) (member : t ∈ m.tasks)
    (asleep : (m.task t).state ≠ .runnable) (i : Fin n) :
    ∃ m', taskWakeup m i t = .ok m' ∧ t ∈ treeNodes (m'.queue i) ∧
      (m'.task t).vruntime = (m.task t).vruntime := by
  have fresh : t ∉ l i := fun inside => asleep (good.woken inside).2.2
  let woken : Task := { m.task t with state := .runnable }
  have queued : Queued ((m.setTask t woken).queue i) (l i) := by
    refine (good.queued i).congr rfl (fun _ _ => rfl) fun p inside => ?_
    exact congrArg Task.vruntime (setTask_task_other m woken fun same => fresh (same ▸ inside))
  obtain ⟨q, front, rear, ran, _, queued', _, _, untouched⟩ :=
    treeInsert_spec queued (good.addressed t member) fresh
  refine ⟨(m.setTask t woken).setQueue i q, ?_, ?_, ?_⟩
  · have runnable : (((m.setTask t woken).queue i).task t).state = .runnable := by simp [woken]
    rw [taskWakeup, if_pos asleep]
    dsimp only
    rw [runqAdd_runnable runnable, ran]
    rfl
  · rw [setQueue_queue_self, queued'.treeNodes_eq]
    exact List.mem_append_right front mem_cons_self
  · rw [setQueue_task, untouched.task]
    simp [woken]

/-- A woken task is inserted with at least the smallest virtual runtime of the queue exactly
if it has run that long already. -/
theorem wakeup_vruntime {start : Machine n} {dummy : Ptr} (booted : Booted start dummy)
    (run : Reaches AnyStep start m) (some : (treeNodes (m.queue i)).Nonempty) (member : t ∈ m.tasks)
    (asleep : (m.task t).state ≠ .runnable) :
    ∃ m', taskWakeup m i t = .ok m' ∧ t ∈ treeNodes (m'.queue i) ∧
      ((∃ u, IsLeast m i u ∧ (m.task u).vruntime ≤ (m'.task t).vruntime) ↔
        minVruntime (m.queue i) ≤ (m.task t).vruntime) := by
  obtain ⟨l, good⟩ := conserved_of_run booted run
  obtain ⟨m', ran, inserted, same⟩ := good.wakeup_keeps member asleep i
  refine ⟨m', ran, inserted, ?_⟩
  rw [same]
  exact good.least_le_iff some _

def forkedRun (tasks : List Ptr) (order : List (Fin 2)) (t : Ptr) : Option (Machine 2) :=
  (wokenRun (fun _ _ => True) tasks order).map fun m => taskFork m t 1

theorem forkedRun_reaches {tasks : List Ptr} {order : List (Fin 2)} {m : Machine 2}
    (addressed : Address t) (ran : forkedRun tasks order t = some m) (distinct : m.tasks.Nodup) :
    Reaches AnyStep twoCpus m := by
  obtain ⟨m₁, first, rfl⟩ := Option.map_eq_some_iff.mp ran
  have fresh : t ∉ m₁.tasks := (nodup_cons.mp distinct).1
  exact (wokenRun_reaches first).tail (.fork t 1 addressed fresh (by decide))

theorem Conserved.nonempty {l : Fin n → List Ptr} (good : Conserved m l)
    (count : 0 < (m.cpu i).rq.numThreads) : (treeNodes (m.queue i)).Nonempty := by
  have length : (m.cpu i).rq.numThreads = (l i).length := (good.queued i).count
  rw [length] at count
  obtain ⟨u, inside⟩ := List.exists_mem_of_length_pos count
  exact ⟨u, by rwa [(good.queued i).treeNodes_eq]⟩

/-- A task is woken beside one that has not run either. -/
theorem wakeup_vruntime_new : ∃ m m' : Machine 2, Reaches AnyStep twoCpus m ∧
    taskWakeup m 0 40#64 = .ok m' ∧
    ∃ u, IsLeast m 0 u ∧ (m.task u).vruntime ≤ (m'.task 40#64).vruntime := by
  have finished : ((forkedRun [32#64] [] 40#64).map fun m =>
      (m.tasks, m.task 40#64, (m.cpu 0).rq.numThreads, minVruntime (m.queue 0))) =
      some ([40#64, 32#64, 8#64, 16#64, 24#64], ⟨.notStarted, 1, 0⟩, 1, 0) := by decide +kernel
  obtain ⟨m, ran, values⟩ := Option.map_eq_some_iff.mp finished
  simp only [Prod.mk.injEq] at values
  obtain ⟨tasks, task, count, least⟩ := values
  have run := forkedRun_reaches ⟨by decide, by decide⟩ ran (by rw [tasks]; decide)
  obtain ⟨l, good⟩ := conserved_of_run twoCpus_booted run
  obtain ⟨m', woken, _, iff⟩ :=
    wakeup_vruntime (i := 0) (t := 40#64) twoCpus_booted run (good.nonempty (by rw [count]; decide))
    (by simp [tasks]) (by simp [task])
  exact ⟨m, m', run, woken, iff.mpr (by rw [least]; exact Nat.zero_le _)⟩

/-- Two tasks have run once each when a third is forked: it is inserted in front of them. -/
theorem wakeup_goes_first : ∃ m m' : Machine 2, Reaches AnyStep twoCpus m ∧
    (treeNodes (m.queue 0)).Nonempty ∧
    48#64 ∈ m.tasks ∧ (m.task 48#64).state ≠ .runnable ∧ taskWakeup m 0 48#64 = .ok m' ∧
    (m'.task 48#64).vruntime = 0 ∧ ¬ ∃ u, IsLeast m 0 u ∧
    (m.task u).vruntime ≤ (m'.task 48#64).vruntime := by
  have finished : ((forkedRun [32#64, 40#64] [0, 0, 0, 0, 0, 0, 0, 0, 0] 48#64).map fun m =>
      (m.tasks, m.task 48#64, (m.cpu 0).rq.numThreads, minVruntime (m.queue 0))) =
      some ([48#64, 40#64, 32#64, 8#64, 16#64, 24#64], ⟨.notStarted, 1, 0⟩, 1, 1) := by decide +kernel
  obtain ⟨m, ran, values⟩ := Option.map_eq_some_iff.mp finished
  simp only [Prod.mk.injEq] at values
  obtain ⟨tasks, task, count, least⟩ := values
  have run := forkedRun_reaches ⟨by decide, by decide⟩ ran (by rw [tasks]; decide)
  obtain ⟨l, good⟩ := conserved_of_run twoCpus_booted run
  have some : (treeNodes (m.queue 0)).Nonempty := good.nonempty (by rw [count]; decide)
  have member : 48#64 ∈ m.tasks := by simp [tasks]
  have asleep : (m.task 48#64).state ≠ .runnable := by simp [task]
  obtain ⟨m', woken, _, same⟩ := good.wakeup_keeps member asleep 0
  rw [task] at same
  refine ⟨m, m', run, some, member, asleep, woken, same, ?_⟩
  rw [good.least_le_iff some, least, same]
  decide

end Wakeups

end ByteOS.Proc
