import ByteOS.Lib.Transition
import ByteOS.Proc.RunqTree
import Mathlib.Data.Set.Card

/-! The run queue is a stable priority queue.

The abstract queue is the list of its tasks in the order of their arrival. Between
the operations the rest of the kernel may do anything to tasks that are not in the
queue.
-/

set_option autoImplicit false

namespace ByteOS.Proc

open Lib Mm Ds

variable {q q' : RunqState} {queue l : List Ptr} {t : Ptr}

inductive QueueStep : RunqState × List Ptr → RunqState × List Ptr → Prop where
  | add {q q' : RunqState} {queue : List Ptr} {t : Ptr} (addressed : Address t) (fresh : t ∉ queue)
      (ran : runqAdd q t = .ok q') : QueueStep (q, queue) (q', queue ++ [t])
  | next {q q' : RunqState} {queue : List Ptr} {t : Ptr} (ran : runqNext q = .ok (q', t)) :
      QueueStep (q, queue) (q', queue.erase t)
  | remove {q q' : RunqState} {queue : List Ptr} {t : Ptr} (queued : t ∈ queue)
      (ran : runqRemove q t = .ok q') : QueueStep (q, queue) (q', queue.erase t)
  | outside {q q' : RunqState} {queue : List Ptr} (same : q'.rq = q.rq)
      (kept : ∀ t ∈ queue, q'.mem t = q.mem t ∧ q'.task t = q.task t) : QueueStep (q, queue) (q', queue)

/-- The order in which tasks leave: by virtual runtime, and by arrival among equals. -/
def Before (task : Ptr → Task) (queue : List Ptr) (a b : Ptr) : Prop :=
  (task a).vruntime < (task b).vruntime ∨ (task a).vruntime = (task b).vruntime ∧ [a, b].Sublist queue

structure InOrder (q : RunqState) (queue l : List Ptr) : Prop where
  queued : Queued q l
  arrivals : l.Perm queue
  order : l.Pairwise (Before q.task queue)

/-- The task of the queue with the smallest virtual runtime, the earliest of several. -/
def IsEarliest (task : Ptr → Task) (queue : List Ptr) (t : Ptr) : Prop :=
  ∃ before after, queue = before ++ t :: after ∧ (∀ u ∈ before, (task t).vruntime < (task u).vruntime) ∧
    ∀ u ∈ after, (task t).vruntime ≤ (task u).vruntime

theorem InOrder.nodup (ordered : InOrder q queue l) : queue.Nodup :=
  ordered.arrivals.nodup_iff.mp ordered.queued.nodup

theorem inOrder_init (mem : Ptr → RbNode) (task : Ptr → Task) (idle : Ptr) :
    InOrder (runqInit mem task idle) [] [] where
  queued := ⟨⟨.leaf, ⟨trivial, rfl, List.nodup_nil⟩, rfl, rfl⟩, rfl, rfl, List.Pairwise.nil⟩
  arrivals := .nil
  order := List.Pairwise.nil

section Operations

/-- What comes before an element of a list of distinct elements does not come after it. -/
theorem not_sublist_of_before {before after : List Ptr} {u : Ptr}
    (distinct : (before ++ t :: after).Nodup) (inside : u ∈ before) :
    ¬ [t, u].Sublist (before ++ t :: after) := by
  intro late
  have apart := (List.nodup_append'.mp distinct).2.2
  obtain ⟨first, second, split, inFront, behind⟩ := List.sublist_append_iff.mp late
  cases first with
  | nil =>
    obtain rfl : [t, u] = second := split
    exact apart inside (behind.subset (by simp))
  | cons a first =>
    obtain rfl : t = a := (List.cons.inj split).1
    exact apart (inFront.subset List.mem_cons_self) List.mem_cons_self

theorem InOrder.congr (ordered : InOrder q queue l) (same : q'.rq = q.rq)
    (kept : ∀ t ∈ queue, q'.mem t = q.mem t ∧ q'.task t = q.task t) : InOrder q' queue l where
  queued := ordered.queued.congr same (fun t inside => (kept t (ordered.arrivals.mem_iff.mp inside)).1)
    fun t inside => congrArg Task.vruntime (kept t (ordered.arrivals.mem_iff.mp inside)).2
  arrivals := ordered.arrivals
  order := by
    refine ordered.order.imp_of_mem fun {a b} first second earlier => ?_
    unfold Before
    rwa [(kept a (ordered.arrivals.mem_iff.mp first)).2, (kept b (ordered.arrivals.mem_iff.mp second)).2]

theorem InOrder.earliest (ordered : InOrder q queue (t :: l)) : IsEarliest q.task queue t := by
  obtain ⟨before, after, split⟩ := List.append_of_mem (ordered.arrivals.mem_iff.mp List.mem_cons_self)
  have distinct := ordered.nodup
  have rest : ∀ u ∈ queue, u ≠ t → Before q.task queue t u := by
    intro u inside different
    have inside := ordered.arrivals.mem_iff.mpr inside
    exact List.rel_of_pairwise_cons ordered.order ((List.mem_cons.mp inside).resolve_left different)
  rw [split] at distinct
  have apart := List.nodup_append'.mp distinct
  refine ⟨before, after, split, fun u inside => ?_, fun u inside => ?_⟩
  · have different : u ≠ t := fun same => apart.2.2 inside (same ▸ List.mem_cons_self)
    obtain less | ⟨_, late⟩ := rest u (by simp [split, inside]) different
    · exact less
    · exact absurd (split ▸ late) (not_sublist_of_before distinct inside)
  · have different : u ≠ t := fun same => (List.nodup_cons.mp apart.2.1).1 (same ▸ inside)
    obtain less | ⟨equal, _⟩ := rest u (by simp [split, inside]) different
    · exact less.le
    · exact equal.le

theorem InOrder.erase {front rear : List Ptr} (ordered : InOrder q queue (front ++ t :: rear))
    (queued : Queued q' (front ++ rear)) (task : q'.task = q.task) :
    InOrder q' (queue.erase t) (front ++ rear) where
  queued := queued
  arrivals := by
    have distinct := ordered.queued.nodup
    have outside : t ∉ front := fun inside => (List.nodup_append'.mp distinct).2.2 inside List.mem_cons_self
    have erased := ordered.arrivals.erase t
    rwa [List.erase_append_right _ outside, List.erase_cons_head] at erased
  order := by
    have distinct := ordered.queued.nodup
    have outside : t ∉ front ++ rear := by
      rw [List.nodup_middle, List.nodup_cons] at distinct
      exact distinct.1
    rw [task]
    have kept := ordered.order.sublist (List.Sublist.append_left (List.sublist_cons_self t rear) front)
    refine kept.imp_of_mem fun {a b} first second earlier => earlier.imp_right fun both => ⟨both.1, ?_⟩
    have pair := both.2.erase t
    rwa [List.erase_of_not_mem] at pair
    simp only [List.mem_cons, List.not_mem_nil, or_false, not_or]
    exact ⟨fun same => outside (same ▸ first), fun same => outside (same ▸ second)⟩

variable (ordered : InOrder q queue l)
include ordered

theorem InOrder.insert (addressed : Address t) (fresh : t ∉ queue) :
    ∃ q' l', treeInsert q t = .ok q' ∧ q'.task = q.task ∧ InOrder q' (queue ++ [t]) l' := by
  have absent : t ∉ l := mt ordered.arrivals.mem_iff.mp fresh
  obtain ⟨q', front, rear, run, rfl, queued, notGreater, greater, untouched⟩ :=
    treeInsert_spec ordered.queued addressed absent
  refine ⟨q', _, run, untouched.task, queued, ?_, ?_⟩
  · exact List.perm_middle.trans ((ordered.arrivals.cons t).trans (List.perm_append_singleton t queue).symm)
  · rw [untouched.task]
    have later : ∀ a b, Before q.task queue a b → Before q.task (queue ++ [t]) a b := fun a b earlier =>
      earlier.imp_right fun both => ⟨both.1, both.2.trans (List.sublist_append_left queue [t])⟩
    obtain ⟨orderedF, orderedR, across⟩ := List.pairwise_append.mp (ordered.order.imp (later _ _))
    refine List.pairwise_append.mpr
      ⟨orderedF, List.pairwise_cons.mpr ⟨fun u inside => .inl (greater u inside), orderedR⟩, ?_⟩
    intro u inside v inside'
    obtain rfl | inside' := List.mem_cons.mp inside'
    · obtain less | equal := (notGreater u inside).lt_or_eq
      · exact .inl less
      · have queued : u ∈ queue := ordered.arrivals.mem_iff.mp (List.mem_append_left rear inside)
        exact .inr ⟨equal, (List.singleton_sublist.mpr queued).append (List.Sublist.refl [v])⟩
    · exact across u inside v inside'

theorem InOrder.add (addressed : Address t) (fresh : t ∉ queue) :
    ∃ q' l', runqAdd q t = .ok q' ∧ InOrder q' (queue ++ [t]) l' := by
  have reset : InOrder (resetVruntime q t) queue l := by
    refine ordered.congr ?_ fun u inside => ?_
    · unfold resetVruntime
      split <;> rfl
    · have different : u ≠ t := fun same => fresh (same ▸ inside)
      unfold resetVruntime
      split
      · exact ⟨rfl, Function.update_of_ne different _ _⟩
      · exact ⟨rfl, rfl⟩
  obtain ⟨q', l', run, _, ordered'⟩ := reset.insert addressed fresh
  exact ⟨q', l', run, ordered'⟩

theorem InOrder.remove (inside : t ∈ queue) :
    ∃ q' l', runqRemove q t = .ok q' ∧ InOrder q' (queue.erase t) l' := by
  obtain ⟨front, rear, rfl⟩ := List.append_of_mem (ordered.arrivals.mem_iff.mpr inside)
  obtain ⟨q', run, queued, _, untouched⟩ := treeRemove_spec ordered.queued
  exact ⟨q', _, run, ordered.erase queued untouched.task⟩

theorem InOrder.next :
    ∃ q' t l', runqNext q = .ok (q', t) ∧ InOrder q' (queue.erase t) l' ∧
      (queue = [] → t = q.rq.idle ∧ q' = q) ∧ (queue ≠ [] → IsEarliest q.task queue t) := by
  cases l with
  | nil =>
    obtain rfl : queue = [] := ordered.arrivals.nil_eq.symm
    exact ⟨q, q.rq.idle, [], runqNext_nil ordered.queued, ordered, fun _ => ⟨rfl, rfl⟩,
      fun some => absurd rfl some⟩
  | cons t l =>
    have inhabited : queue ≠ [] := by
      rintro rfl
      exact absurd ordered.arrivals.eq_nil (by simp)
    obtain ⟨q', run, queued, untouched⟩ := runqNext_cons ordered.queued
    have split : InOrder q queue ([] ++ t :: l) := ordered
    exact ⟨q', t, l, run, split.erase queued untouched.task, fun none => absurd none inhabited,
      fun _ => ordered.earliest⟩

end Operations

section Runs

theorem queueStep_inOrder {c c' : RunqState × List Ptr} (step : QueueStep c c')
    (ordered : ∃ l, InOrder c.1 c.2 l) : ∃ l, InOrder c'.1 c'.2 l := by
  obtain ⟨l, ordered⟩ := ordered
  cases step with
  | add addressed fresh ran =>
    obtain ⟨q', l', run, ordered'⟩ := ordered.add addressed fresh
    obtain rfl := Except.ok.inj (run.symm.trans ran)
    exact ⟨l', ordered'⟩
  | next ran =>
    obtain ⟨q', t, l', run, ordered', _, _⟩ := ordered.next
    obtain ⟨rfl, rfl⟩ := Prod.mk.inj (Except.ok.inj (run.symm.trans ran))
    exact ⟨l', ordered'⟩
  | remove queued ran =>
    obtain ⟨q', l', run, ordered'⟩ := ordered.remove queued
    obtain rfl := Except.ok.inj (run.symm.trans ran)
    exact ⟨l', ordered'⟩
  | outside same kept => exact ⟨l, ordered.congr same kept⟩

def treeNodes (q : RunqState) : Set Ptr := { p | Linked q.mem q.rq.tree.root p }

theorem Queued.treeNodes_eq (queued : Queued q l) : treeNodes q = { p | p ∈ l } := by
  obtain ⟨tree, rep, _, rfl⟩ := queued.tree
  ext p
  exact rep.linked_iff

theorem Queued.count_eq (queued : Queued q l) : q.rq.numThreads = (treeNodes q).ncard := by
  have finite : { p | p ∈ l } = (l.toFinset : Set Ptr) := by
    ext p
    simp
  rw [queued.treeNodes_eq, finite, Set.ncard_coe_finset, List.toFinset_card_of_nodup queued.nodup,
    queued.count]

theorem InOrder.treeNodes_eq (ordered : InOrder q queue l) : treeNodes q = { p | p ∈ queue } := by
  rw [ordered.queued.treeNodes_eq]
  ext p
  exact ordered.arrivals.mem_iff

theorem InOrder.leftmost (ordered : InOrder q queue l) : rbFirstUncached q.rb = .ok q.rq.tree.mostLeft := by
  obtain ⟨tree, rep, _, order⟩ := ordered.queued.tree
  rw [rbFirstUncached_spec rep, first, order, ordered.queued.mostLeft]

theorem InOrder.mostLeft_null (ordered : InOrder q queue l) : q.rq.tree.mostLeft = 0#64 ↔ queue = [] := by
  rw [ordered.queued.mostLeft]
  cases l with
  | nil => simp [← ordered.arrivals.nil_eq]
  | cons t l =>
    have inhabited : queue ≠ [] := by
      rintro rfl
      exact absurd ordered.arrivals.eq_nil (by simp)
    simpa [inhabited] using (ordered.queued.address List.mem_cons_self).nonnull

theorem IsEarliest.mem {task : Ptr → Task} (earliest : IsEarliest task queue t) : t ∈ queue := by
  obtain ⟨before, after, rfl, _⟩ := earliest
  simp

/-- After any sequence of operations the counter is the number of nodes of the tree,
the cached pointer is the leftmost node, every operation succeeds, and `runq_next`
removes and returns the earliest of the tasks with the smallest virtual runtime. -/
theorem runq_stable_priority_queue {mem : Ptr → RbNode} {task : Ptr → Task} {idle : Ptr}
    (run : Reaches QueueStep (runqInit mem task idle, []) (q, queue)) :
    treeNodes q = { p | p ∈ queue } ∧ queue.Nodup ∧ q.rq.numThreads = (treeNodes q).ncard ∧
    rbFirstUncached q.rb = .ok q.rq.tree.mostLeft ∧ (q.rq.tree.mostLeft = 0#64 ↔ treeNodes q = ∅) ∧
    (∀ t, Address t → t ∉ queue → ∃ q', runqAdd q t = .ok q' ∧ treeNodes q' = { p | p ∈ queue ∨ p = t }) ∧
    (∀ t ∈ queue, ∃ q', runqRemove q t = .ok q' ∧ treeNodes q' = { p | p ∈ queue ∧ p ≠ t }) ∧
    ∃ q' t, runqNext q = .ok (q', t) ∧ treeNodes q' = { p | p ∈ queue ∧ p ≠ t } ∧
      (queue = [] → t = q.rq.idle) ∧ (queue ≠ [] → IsEarliest q.task queue t) ∧
      (q.rq.idle ∉ queue → (t = q.rq.idle ↔ queue = [])) := by
  obtain ⟨l, ordered⟩ := run.invariant (fun c => ∃ l, InOrder c.1 c.2 l) ⟨[], inOrder_init mem task idle⟩
    fun c c' _ step => queueStep_inOrder step
  have erased : ∀ t, { p | p ∈ queue.erase t } = { p | p ∈ queue ∧ p ≠ t } := by
    intro t
    ext p
    simp [ordered.nodup.mem_erase_iff, and_comm]
  refine ⟨ordered.treeNodes_eq, ordered.nodup, ordered.queued.count_eq, ordered.leftmost, ?_, ?_, ?_, ?_⟩
  · rw [ordered.mostLeft_null, ordered.treeNodes_eq, Set.eq_empty_iff_forall_notMem]
    exact List.eq_nil_iff_forall_not_mem
  · intro t addressed fresh
    obtain ⟨q', l', ran, ordered'⟩ := ordered.add addressed fresh
    refine ⟨q', ran, ordered'.treeNodes_eq.trans ?_⟩
    ext p
    simp
  · intro t inside
    obtain ⟨q', l', ran, ordered'⟩ := ordered.remove inside
    exact ⟨q', ran, ordered'.treeNodes_eq.trans (erased t)⟩
  · obtain ⟨q', t, l', ran, ordered', empty, some⟩ := ordered.next
    refine ⟨q', t, ran, ordered'.treeNodes_eq.trans (erased t), fun none => (empty none).1, some,
      fun outside => ?_⟩
    refine ⟨fun same => ?_, fun none => (empty none).1⟩
    by_contra inhabited
    exact outside (same ▸ (some inhabited).mem)

def threeTasks (t : Ptr) : Task := ⟨.runnable, 1, if t = 8#64 then 5 else 3⟩

def threeStart : RunqState := runqInit (fun _ => ⟨0#64, 0#64, 0#64⟩) threeTasks 64#64

/-- A run that queues three tasks, and the task taken next. -/
theorem runq_stable_priority_queue_three :
    ∃ q, Reaches QueueStep (threeStart, []) (q, [8#64, 16#64, 24#64]) ∧
      ∃ q' t, runqNext q = .ok (q', t) ∧ IsEarliest q.task [8#64, 16#64, 24#64] t := by
  have finished : ((do
      let q ← runqAdd threeStart 8#64
      let q ← runqAdd q 16#64
      runqAdd q 24#64).toOption.map fun q : RunqState => q.rq.numThreads) = some 3 := by
    decide +kernel
  obtain ⟨q, ran, finished⟩ := toOption_map_eq_some.mp finished
  obtain ⟨q1, ran1, ran⟩ := bind_eq_ok.mp ran
  obtain ⟨q2, ran2, ran3⟩ := bind_eq_ok.mp ran
  have first : Reaches QueueStep (threeStart, []) (q1, [8#64]) :=
    .single (.add ⟨by decide, by decide⟩ (by simp) ran1)
  have second : Reaches QueueStep (threeStart, []) (q2, [8#64, 16#64]) :=
    first.tail (.add ⟨by decide, by decide⟩ (by decide) ran2)
  have third : Reaches QueueStep (threeStart, []) (q, [8#64, 16#64, 24#64]) :=
    second.tail (.add ⟨by decide, by decide⟩ (by decide) ran3)
  obtain ⟨_, _, _, _, _, _, _, q', t, ran4, _, _, earliest, _⟩ := runq_stable_priority_queue third
  exact ⟨q, third, q', t, ran4, earliest (by simp)⟩

end Runs

end ByteOS.Proc
