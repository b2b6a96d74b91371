import ByteOS.Proc.SchedTokens

/-! What `task_exit` does to the run queue.

The task that calls `task_exit` is the current one, which is not in the queue.
`rb_erase` of a node that is in no tree takes it for the root.
-/

set_option autoImplicit false

namespace ByteOS.Proc

open Lib Mm Ds

variable {n : Nat} {m m' : Machine n} {t : Ptr}

/-- `task_exit` up to its call of `sched_yield`, for the run queue of processor `i`. -/
def taskExit (m : Machine n) (i : Fin n) (t : Ptr) : Except Fault (Machine n) :=
  if (m.task t).state = .runnable then do
    let q ← runqRemove (m.queue i) t
    let m := m.setQueue i q
    return m.setTask t { m.task t with state := .zombie }
  else return m.setTask t { m.task t with state := .zombie }

structure ExitsAlone (m : Machine n) (i : Fin n) (t : Ptr) (m' : Machine n) : Prop where
  others : ∀ u ∈ treeNodes (m.queue i), u ≠ t → u ∈ treeNodes (m'.queue i)
  count : (m'.cpu i).rq.numThreads = (treeNodes (m'.queue i)).ncard
  gone : ∀ j, t ∉ treeNodes (m'.queue j)
  never : ∀ later, Reaches AnyStep m' later → ∀ j q u, runqNext (later.queue j) = .ok (q, u) → u ≠ t

theorem rbErase_unlinked {s : RbState} (nonnull : t ≠ 0#64) (cleared : Cleared (s.mem t))
    (notFirst : t ≠ s.tree.mostLeft) : ∃ s', rbErase s t = .ok s' ∧ s'.tree.root = 0#64 := by
  have left : s.child .left t = .ok 0#64 := (child_eq .left nonnull).trans (congrArg _ cleared.left)
  have right : s.child .right t = .ok 0#64 := (child_eq .right nonnull).trans (congrArg _ cleared.right)
  have parent : rbParent s t = .ok 0#64 := (rbParent_eq nonnull).trans (congrArg _ cleared.parent)
  have victim : eraseVictim s t = .ok t := by
    rw [eraseVictim, left, ok_bind, right, ok_bind]
    rfl
  have unlinked : eraseUnlink s t = .ok (s.setRoot 0#64, 0#64, 0#64, sideOf s t 0#64) := by
    have child : onlyChild s t = .ok 0#64 := by
      rwa [onlyChild, left, ok_bind]
    rw [eraseUnlink, child, ok_bind, parent, ok_bind]
    rfl
  have balanced : ∀ side, eraseRebalance passes (s.setRoot 0#64) 0#64 0#64 side = .ok (s.setRoot 0#64) := by
    intro side
    have some : passes = (passes - 1) + 1 := by decide
    rw [some, eraseRebalance, if_neg (by simp)]
    rfl
  have empty : Represents (s.setRoot 0#64) .leaf := ⟨trivial, rfl, List.nodup_nil⟩
  have settled : (if rbColor (s.setRoot 0#64) t = .black
      then eraseRebalance passes (s.setRoot 0#64) 0#64 0#64 (sideOf s t 0#64) else .ok (s.setRoot 0#64)) =
      .ok (s.setRoot 0#64) := by
    rw [balanced, ite_self]
  obtain ⟨s', run, rep, _, _⟩ := clearNode_spec empty nonnull List.not_mem_nil
  refine ⟨s', ?_, rep.root⟩
  rw [rbErase_finish nonnull (if_neg notFirst) victim unlinked (if_neg (by simp)) settled, run]

theorem treeNodes_of_null {q : RunqState} (root : q.rq.tree.root = 0#64) : treeNodes q = ∅ := by
  refine Set.eq_empty_iff_forall_notMem.mpr fun u linked => ?_
  induction linked with
  | root nonnull => exact nonnull root
  | child side above nonnull ih => exact ih

variable {l : Fin n → List Ptr} {i : Fin n}

theorem runqRemove_unlinked (good : Conserved m l) (forked : t ∈ m.tasks) (absent : ∀ j, t ∉ l j) :
    ∃ q, runqRemove (m.queue i) t = .ok q ∧ treeNodes q = ∅ ∧
      q.rq.numThreads = ((l i).length + (wordMod - 1)) % wordMod := by
  have nonnull := (good.addressed t forked).nonnull
  have notFirst : t ≠ (m.queue i).rb.tree.mostLeft := by
    have mostLeft : (m.queue i).rb.tree.mostLeft = _ := (good.queued i).mostLeft
    rw [mostLeft]
    cases front : l i with
    | nil => exact nonnull
    | cons u rest =>
      rintro rfl
      exact absent i (front ▸ List.mem_cons_self)
  obtain ⟨s, run, root⟩ := rbErase_unlinked nonnull (good.cleared t forked absent) notFirst
  refine ⟨_, by rw [runqRemove, treeRemove, if_neg nonnull, run, ok_bind]; rfl, treeNodes_of_null root, ?_⟩
  · change ((m.queue i).rq.numThreads + (wordMod - 1)) % wordMod = _
    rw [(good.queued i).count]

/-- Whenever a runnable task exits, the other tasks of its queue are lost or, if there
are none, the counter wraps around. -/
theorem exit_never_alone {start : Machine n} {dummy : Ptr} (booted : Booted start dummy)
    (run : Reaches AnyStep start m) (outside : (m.cpu i).point = .outside)
    (runnable : (m.task (m.cpu i).current).state = .runnable) :
    ∃ m', taskExit m i (m.cpu i).current = .ok m' ∧ ¬ ExitsAlone m i (m.cpu i).current m' := by
  obtain ⟨l, good⟩ := conserved_of_run booted run
  let t := (m.cpu i).current
  have held : (m.cpu i).Holds t := by simp only [Cpu.Holds, outside, t]
  have absent : ∀ j, t ∉ l j := good.not_queued held
  obtain ⟨q, ran, empty, count⟩ := runqRemove_unlinked (i := i) good (good.exist i t held) absent
  let m' := (m.setQueue i q).setTask t { (m.setQueue i q).task t with state := .zombie }
  have nodes : treeNodes (m'.queue i) = ∅ := by
    have same : treeNodes (m'.queue i) = treeNodes ((m.setQueue i q).queue i) := rfl
    rw [same, setQueue_queue_self, empty]
  have threads : (m'.cpu i).rq.numThreads = q.rq.numThreads := by
    have same : (m'.cpu i).rq = ((m.setQueue i q).queue i).rq := rfl
    rw [same, setQueue_queue_self]
  refine ⟨m', ?_, fun alone => ?_⟩
  · rw [taskExit, if_pos runnable, ran]
    rfl
  · cases front : l i with
    | nil =>
      have zero := alone.count
      rw [threads, count, nodes, Set.ncard_empty, front] at zero
      exact absurd zero (by decide)
    | cons u rest =>
      have inside : u ∈ l i := front ▸ List.mem_cons_self
      have queued : u ∈ treeNodes (m.queue i) := by
        rwa [(good.queued i).treeNodes_eq]
      have different : u ≠ t := fun same => absent i (same ▸ inside)
      have kept := alone.others u queued different
      rw [nodes] at kept
      exact kept

def exiting (i : Fin 2) (tasks : List Ptr) : Option (Machine 2) :=
  wokenRun (fun _ _ => True) tasks [i, i, i]

theorem exit_never_alone_last : ∃ m : Machine 2, Reaches AnyStep twoCpus m ∧ (m.cpu 0).current = 32#64 ∧
    ∃ m', taskExit m 0 (m.cpu 0).current = .ok m' ∧ ¬ ExitsAlone m 0 (m.cpu 0).current m' := by
  have finished : ((exiting 0 [32#64]).map fun m =>
      ((m.cpu 0).current, (m.cpu 0).point, (m.task 32#64).state)) =
      some (32#64, .outside, .runnable) := by
    decide +kernel
  obtain ⟨m, ran, values⟩ := Option.map_eq_some_iff.mp finished
  simp only [Prod.mk.injEq] at values
  obtain ⟨current, point, state⟩ := values
  have run := wokenRun_reaches ran
  exact ⟨m, run, current, exit_never_alone twoCpus_booted run point (by rw [current, state])⟩

/-- A task that waits in the queue of the exiting task is not in it afterwards; and with
no other task, the first section of `schedule` queues the zombie and the next returns it. -/
theorem exit_loses_waiting_task :
    (∃ m m' : Machine 2, Reaches AnyStep twoCpus m ∧ (m.cpu 0).current = 32#64 ∧
      (m.task 32#64).state = .runnable ∧
      taskExit m 0 32#64 = .ok m' ∧ 40#64 ∈ treeNodes (m.queue 0) ∧ 40#64 ∉ treeNodes (m'.queue 0)) ∧
    ∃ m m' later : Machine 2, Reaches AnyStep twoCpus m ∧ (m.cpu 0).current = 32#64 ∧
      (m.task 32#64).state = .runnable ∧ taskExit m 0 32#64 = .ok m' ∧ AnyStep m' later ∧
      ∃ q, runqNext (later.queue 0) = .ok (q, 32#64) := by
  constructor
  · have finished : ((exiting 0 [32#64, 40#64]).bind fun m => (taskExit m 0 32#64).toOption.map fun m' =>
        ((m.cpu 0).current, (m.task 32#64).state, (m.cpu 0).rq.tree.root, (m'.cpu 0).rq.tree.root)) =
        some (32#64, .runnable, 40#64, 0#64) := by
      decide +kernel
    obtain ⟨m, ran, rest⟩ := Option.bind_eq_some_iff.mp finished
    obtain ⟨m', exited, values⟩ := toOption_map_eq_some.mp rest
    simp only [Prod.mk.injEq] at values
    obtain ⟨current, state, root, root'⟩ := values
    have waiting : Linked m.mem (m.cpu 0).rq.tree.root 40#64 := by
      have top : Linked m.mem (m.cpu 0).rq.tree.root (m.cpu 0).rq.tree.root := .root (by rw [root]; decide)
      rwa [root] at top ⊢
    refine ⟨m, m', wokenRun_reaches ran, current, state, exited, waiting, fun lost => ?_⟩
    rw [treeNodes_of_null root'] at lost
    exact lost
  · have finished : ((exiting 0 [32#64]).bind fun m => (taskExit m 0 32#64).toOption.bind fun m' =>
        (scheduleStep m' 0).toOption.bind fun later => (runqNext (later.queue 0)).toOption.map fun next =>
        ((m.cpu 0).current, (m.task 32#64).state, next.2)) = some (32#64, .runnable, 32#64) := by
      decide +kernel
    obtain ⟨m, ran, rest⟩ := Option.bind_eq_some_iff.mp finished
    obtain ⟨m', exited, rest⟩ := toOption_bind_eq_some.mp rest
    obtain ⟨later, step, rest⟩ := toOption_bind_eq_some.mp rest
    obtain ⟨⟨q, next⟩, taken, values⟩ := toOption_map_eq_some.mp rest
    simp only [Prod.mk.injEq] at values
    obtain ⟨current, state, rfl⟩ := values
    exact ⟨m, m', later, wokenRun_reaches ran, current, state, exited, .cpu 0 trivial step, q, taken⟩

end ByteOS.Proc
