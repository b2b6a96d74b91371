import ByteOS.Proc.SchedTokens

/-! Which processors run a task.

`schedule` puts the current task back into the queue before the processor leaves it.
Until `switch_to` the task is both current and queued, and the balancer of another
processor may take it and run it.
-/

set_option autoImplicit false

namespace ByteOS.Proc

open Lib Mm Ds

variable {n : Nat} {m m' : Machine n} {l l' : Fin n → List Ptr}

/-- If processor `i` is about to pull a task, its owner does not run it any more. -/
def Careful (m : Machine n) (i : Fin n) : Prop :=
  ∀ k : Fin n, (m.cpu i).point = .pull k → k ≠ i → (m.cpu k).rq.numThreads > 0 →
    (m.cpu k).rq.tree.mostLeft ≠ (m.cpu k).current

instance : DecidableRel (Careful (n := n)) :=
  fun _ _ => inferInstanceAs (Decidable (∀ _ : Fin n, _ → _ → _ → _))

def Place.owner : Place n → Fin n
  | .queue i => i
  | .cpu i => i

structure Attached (m : Machine n) (l : Fin n → List Ptr) : Prop where
  exist : ∀ i, (m.cpu i).current ∈ m.tasks
  near : ∀ i, (m.task (m.cpu i).current).tid ≠ tidIdle → ∃ p, Here m l p (m.cpu i).current ∧ p.owner = i

theorem Attached.moved {x : Ptr} {source dest : Place n} (attached : Attached m l)
    (good : Conserved m l) (kept : Kept m m') (here : Here m l source x)
    (moves : MovesTo (Here m l) (Here m' l') x dest)
    (current : ∀ j, (m'.cpu j).current = (m.cpu j).current) (stays : dest.owner = source.owner ∨
      (m.cpu source.owner).current ≠ x) : Attached m' l' where
  exist j := by
    rw [current, kept.tasks]
    exact attached.exist j
  near j user := by
    rw [current j, kept.tid] at user
    obtain ⟨p, inside, rfl⟩ := attached.near j user
    rw [current p.owner]
    by_cases same : (m.cpu p.owner).current = x
    · have place : p = source := good.placed.once p source x (same ▸ inside) here
      subst place
      obtain owner | other := stays
      · exact ⟨dest, same ▸ moves.arrived, owner⟩
      · exact absurd same other
    · exact ⟨p, moves.stays same inside, rfl⟩

theorem Attached.step {i : Fin n} (attached : Attached m l) (good : Conserved m l)
    (careful : Careful m i) (kept : Kept m m') (effect : Effect m l i m' l') : Attached m' l' := by
  cases effect with
  | stay here current =>
    refine ⟨fun j => ?_, fun j user => ?_⟩
    · rw [current, kept.tasks]
      exact attached.exist j
    · rw [current j, kept.tid] at user
      obtain ⟨p, inside, owner⟩ := attached.near j user
      exact ⟨p, (here p _).mpr (current j ▸ inside), owner⟩
  | enqueue source moves current | dequeue source moves current =>
    exact attached.moved good kept source moves current (.inl rfl)
  | @pull k point other source moves current =>
    have some : (m.cpu k).rq.numThreads > 0 := by
      rw [← queue_rq, (good.queued k).count]
      exact List.length_pos_of_mem source
    exact attached.moved good kept source moves current (.inr (careful k point other some).symm)
  | switch held here own current =>
    refine ⟨fun j => ?_, fun j user => ?_⟩
    · rw [kept.tasks]
      by_cases same : j = i
      · subst same
        rw [own]
        exact good.exist j _ held
      · rw [current j same]
        exact attached.exist j
    · by_cases same : j = i
      · subst same
        rw [own, kept.tid] at user
        rw [own]
        exact ⟨.cpu j, (here (.cpu j) _).mpr ⟨held, user⟩, rfl⟩
      · rw [current j same, kept.tid] at user
        obtain ⟨p, inside, owner⟩ := attached.near j user
        rw [current j same]
        exact ⟨p, (here p _).mpr inside, owner⟩

theorem schedStep_attached (step : SchedStep Careful m m')
    (before : ∃ l, Conserved m l ∧ Attached m l) : ∃ l', Conserved m' l' ∧ Attached m' l' := by
  obtain ⟨l, good, attached⟩ := before
  cases step with
  | cpu i careful ran =>
    obtain ⟨m1, l', run, good', kept, effect⟩ := scheduleStep_spec good i
    obtain rfl := Except.ok.inj (run.symm.trans ran)
    exact ⟨l', good', attached.step good careful kept effect⟩
  | fork t tid addressed fresh user =>
    obtain ⟨good', here⟩ := taskFork_spec good addressed fresh tid
    refine ⟨l, good', fun i => List.mem_cons_of_mem t (attached.exist i), fun i user => ?_⟩
    have different : (m.cpu i).current ≠ t := fun same => fresh (same ▸ attached.exist i)
    have same : (taskFork m t tid).task (m.cpu i).current = m.task (m.cpu i).current :=
      Function.update_of_ne different _ _
    rw [here]
    refine attached.near i ?_
    rwa [← same]
  | wakeup i t forked user ran =>
    by_cases asleep : (m.task t).state = .runnable
    · rw [taskWakeup, if_neg (not_not.mpr asleep)] at ran
      cases ran
      exact ⟨l, good, attached⟩
    · obtain ⟨m1, l', run, good', kept, moves, current⟩ := taskWakeup_spec good forked user asleep i
      obtain rfl := Except.ok.inj (run.symm.trans ran)
      refine ⟨l', good', fun j => ?_, fun j user => ?_⟩
      · rw [current j, kept.tasks]
        exact attached.exist j
      · rw [current j, kept.tid] at user
        rw [current j]
        obtain ⟨p, inside, owner⟩ := attached.near j user
        refine ⟨p, moves.stays ?_ inside, owner⟩
        rintro rfl
        exact asleep (good.placed.live p _ inside).2.2

/-- In every run in which no pulled task is still current on the processor it is pulled
from, no task of the user is current on two processors. -/
theorem current_on_one_cpu {start : Machine n} {dummy : Ptr} (booted : Booted start dummy)
    (run : Reaches (SchedStep Careful) start m) :
    ∀ i j, (m.cpu i).current = (m.cpu j).current → (m.task (m.cpu i).current).tid ≠ tidIdle → i = j := by
  have initial : Attached start fun _ => [] := by
    refine ⟨fun i => ?_, fun i user => absurd ?_ user⟩
    · rw [booted.current i]
      exact (booted.tasks dummy).mpr (.inl rfl)
    · rw [booted.current i, booted.dummyTask]
  obtain ⟨l, good, attached⟩ := run.invariant (fun m => ∃ l, Conserved m l ∧ Attached m l)
    ⟨_, conserved_booted booted, initial⟩ fun _ _ _ step => schedStep_attached step
  intro i j same user
  obtain ⟨p, inside, rfl⟩ := attached.near i user
  obtain ⟨p', inside', rfl⟩ := attached.near j (same ▸ user)
  rw [good.placed.once p p' _ inside (same ▸ inside')]

/-- Processor 1 runs a task that it has pulled from processor 0, which did not run it. -/
theorem current_on_one_cpu_pulled :
    ∃ m : Machine 2, Reaches (SchedStep Careful) twoCpus m ∧ (m.cpu 1).current = 32#64 ∧
      ((m.cpu 0).current = (m.cpu 1).current → (0 : Fin 2) = 1) := by
  have finished : ((wokenRun Careful [32#64] [1, 1, 1, 1, 1]).map
      fun m => ((m.cpu 0).current, (m.cpu 1).current,
      m.task 32#64)) = some (8#64, 32#64, ⟨.runnable, 1, 0⟩) := by
    decide +kernel
  obtain ⟨m, ran, values⟩ := Option.map_eq_some_iff.mp finished
  simp only [Prod.mk.injEq] at values
  obtain ⟨_, second, task⟩ := values
  have run := wokenRun_reaches ran
  refine ⟨m, run, second, fun same => current_on_one_cpu twoCpus_booted run 0 1 same ?_⟩
  rw [same, second, task]
  decide

/-- Processor 0 has put its current task back into the queue and not yet left it when
processor 1 pulls the task and switches to it. -/
theorem current_on_two_cpus :
    ∃ m : Machine 2, Reaches AnyStep twoCpus m ∧ (m.cpu 0).current = (m.cpu 1).current ∧
      (m.task (m.cpu 0).current).tid ≠ tidIdle := by
  have finished : ((wokenRun (fun _ _ => True) [32#64] [0, 0, 0, 0, 1, 1, 1, 1, 1]).map fun m =>
      ((m.cpu 0).current, (m.cpu 1).current, (m.task 32#64).tid)) = some (32#64, 32#64, 1) := by
    decide +kernel
  obtain ⟨m, ran, values⟩ := Option.map_eq_some_iff.mp finished
  simp only [Prod.mk.injEq] at values
  obtain ⟨first, second, tid⟩ := values
  refine ⟨m, wokenRun_reaches ran, first.trans second.symm, ?_⟩
  rw [first, tid]
  decide

end ByteOS.Proc
