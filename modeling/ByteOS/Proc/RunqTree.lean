import ByteOS.Ds.RbBalance
import ByteOS.Proc.Runq

/-! What `tree_insert` and `tree_remove` do to a run queue, seen as the list of its
tasks in tree order. -/

set_option autoImplicit false

namespace ByteOS.Proc

open Lib Mm Ds RedBlack

variable {q q' : RunqState} {l : List Ptr} {t : Ptr}

structure Queued (q : RunqState) (l : List Ptr) : Prop where
  tree : ∃ tree, Represents q.rb tree ∧ tree.color = .black ∧ tree.inorder = l
  mostLeft : q.rq.tree.mostLeft = l.head?.getD 0#64
  count : q.rq.numThreads = l.length
  sorted : l.Pairwise fun a b => (q.task a).vruntime ≤ (q.task b).vruntime

theorem Queued.nodup (queued : Queued q l) : l.Nodup := by
  obtain ⟨tree, rep, _, rfl⟩ := queued.tree
  exact rep.distinct

theorem Queued.address (queued : Queued q l) (inside : t ∈ l) : Address t := by
  obtain ⟨tree, rep, _, rfl⟩ := queued.tree
  exact rep.holds.address_of_mem inside

theorem Queued.length_lt (queued : Queued q l) : l.length < wordMod := by
  obtain ⟨tree, rep, _, rfl⟩ := queued.tree
  exact rep.size_lt

theorem Queued.congr (queued : Queued q l) (queue : q'.rq = q.rq)
    (nodes : ∀ p ∈ l, q'.mem p = q.mem p) (keys : ∀ p ∈ l,
      (q'.task p).vruntime = (q.task p).vruntime) : Queued q' l := by
  obtain ⟨tree, rep, black, order⟩ := queued.tree
  have root : q'.rb.tree = q.rb.tree := congrArg Runq.tree queue
  refine ⟨⟨tree, ⟨rep.holds.congr fun p inside => nodes p (order ▸ inside), ?_, rep.distinct⟩,
    black, order⟩, ?_, ?_, ?_⟩
  · rw [root, rep.root]
  · rw [queue, queued.mostLeft]
  · rw [queue, queued.count]
  · refine queued.sorted.imp_of_mem fun {a b} first second le => ?_
    rwa [keys a first, keys b second]

variable {ctx : Context Ptr} {tree : ColorTree Ptr} {front rear : List Ptr}

section Insertion

structure Found (vruntime : Ptr → Nat) (key : Nat) (ctx : Context Ptr) (tree : ColorTree Ptr)
    (ctx' : Context Ptr) (front rear : List Ptr) : Prop where
  same : plug ctx' .leaf = plug ctx tree
  order : tree.inorder = front ++ rear
  before : ctx'.before = ctx.before ++ front
  after : ctx'.after = rear ++ ctx.after
  notGreater : ∀ u ∈ front, vruntime u ≤ key
  greater : ∀ u ∈ rear, key < vruntime u

theorem findLink_spec {s : RbState} {vruntime : Ptr → Nat} (key fuel : Nat)
    (rep : Represents s (plug ctx tree)) (sorted : tree.inorder.Pairwise
      fun a b => vruntime a ≤ vruntime b) (enough : tree.inorder.length < fuel) :
    ∃ ctx' front rear, findLink s vruntime key fuel (linkOf ctx) (holder ctx) =
      .ok (linkOf ctx', holder ctx') ∧ Found vruntime key ctx tree ctx' front rear := by
  induction tree generalizing ctx fuel with
  | leaf =>
    obtain ⟨fuel, rfl⟩ := exists_succ_of_lt enough
    refine ⟨ctx, [], [], ?_, rfl, rfl, by simp, by simp, by simp, by simp⟩
    rw [findLink, readLink_spec rep, ok_bind]
    rfl
  | node color left p right ihl ihr =>
    obtain ⟨fuel, rfl⟩ := exists_succ_of_lt enough
    have nonnull := rep.inside.1.nonnull
    simp only [ColorTree.inorder, List.length_append, List.length_cons] at enough
    simp only [ColorTree.inorder, List.pairwise_append, List.pairwise_cons, List.mem_cons] at sorted
    obtain ⟨sortedL, ⟨aboveP, sortedR⟩, across⟩ := sorted
    have start : findLink s vruntime key (fuel + 1) (linkOf ctx) (holder ctx) =
        if key < vruntime p then findLink s vruntime key fuel (.child .left p) p
        else findLink s vruntime key fuel (.child .right p) p := by
      rw [findLink, readLink_spec rep, ok_bind, Ds.address, if_neg nonnull]
    rw [start]
    split
    case isTrue smaller =>
      have below : Represents s (plug (⟨.left, color, p, right⟩ :: ctx) left) := rep
      obtain ⟨ctx', front, rear, run, found⟩ := ihl fuel below sortedL (by omega)
      refine ⟨ctx', front, rear ++ p :: right.inorder, run, found.same, ?_, ?_, ?_, found.notGreater, ?_⟩
      · simp [ColorTree.inorder, found.order]
      · rw [found.before, Context.before]
      · simp [found.after, Context.after]
      · intro u inside
        simp only [List.mem_append, List.mem_cons] at inside
        obtain inside | rfl | inside := inside
        · exact found.greater u inside
        · exact smaller
        · exact smaller.trans_le (aboveP u inside)
    case isFalse larger =>
      have below : Represents s (plug (⟨.right, color, p, left⟩ :: ctx) right) := rep
      obtain ⟨ctx', front, rear, run, found⟩ := ihr fuel below sortedR (by omega)
      refine ⟨ctx', left.inorder ++ p :: front, rear, run, found.same, ?_, ?_, ?_, ?_, found.greater⟩
      · simp [ColorTree.inorder, found.order]
      · simp [found.before, Context.before]
      · rw [found.after, Context.after]
      · intro u inside
        simp only [List.mem_append, List.mem_cons] at inside
        obtain inside | rfl | inside := inside
        · exact (across u inside p (.inl rfl)).trans (not_lt.mp larger)
        · exact not_lt.mp larger
        · exact found.notGreater u inside

structure Untouched (q q' : RunqState) (nodes : List Ptr) : Prop where
  task : q'.task = q.task
  idle : q'.rq.idle = q.rq.idle
  elsewhere : ∀ p, p ∉ nodes → q'.mem p = q.mem p

/-- What `tree_insert` does to a tree: the task is linked behind `front`, and the tree is
repaired. -/
structure Inserted (q : RunqState) (tree : ColorTree Ptr) (t : Ptr) (q' : RunqState)
    (ctx : Context Ptr) (front rear : List Ptr) : Prop where
  place : plug ctx .leaf = tree
  split : tree.inorder = front ++ rear
  represents : Represents q'.rb (insertFix ctx (.join .left .red t .leaf .leaf))
  order : (insertFix ctx (.join .left .red t .leaf .leaf)).inorder = front ++ t :: rear
  mostLeft : q'.rq.tree.mostLeft = first (insertFix ctx (.join .left .red t .leaf .leaf))
  count : q'.rq.numThreads = (q.rq.numThreads + 1) % wordMod
  notGreater : ∀ u ∈ front, (q.task u).vruntime ≤ (q.task t).vruntime
  greater : ∀ u ∈ rear, (q.task t).vruntime < (q.task u).vruntime
  untouched : Untouched q q' (t :: tree.inorder)

theorem plug_black (place : plug ctx .leaf = tree) (black : tree.color = .black) (t : ColorTree Ptr)
    (inside : ctx ≠ []) : (plug ctx t).color = .black := by
  obtain ⟨f, up, rfl⟩ := List.exists_cons_of_ne_nil inside
  exact (color_plug_cons f up _ .leaf).trans (place ▸ black)

theorem treeInsert_inserted (rep : Represents q.rb tree) (black : tree.color = .black)
    (leftmost : q.rq.tree.mostLeft = first tree)
    (sorted : tree.inorder.Pairwise fun a b => (q.task a).vruntime ≤ (q.task b).vruntime)
    (addressed : Address t) (fresh : t ∉ tree.inorder) :
    ∃ q' ctx front rear, treeInsert q t = .ok q' ∧ Inserted q tree t q' ctx front rear := by
  have top : Represents q.rb (plug [] tree) := rep
  obtain ⟨ctx, front, rear, run1, found⟩ := findLink_spec (q.task t).vruntime passes top sorted
    (rep.size_lt.trans (by decide))
  have same : plug ctx .leaf = tree := found.same
  have before : ctx.before = front := found.before
  have after : ctx.after = rear := found.after.trans (List.append_nil rear)
  obtain ⟨s1, run2, rep1, touches1⟩ := rbLinkNode_spec (same ▸ rep) (by rwa [same]) addressed
  rw [same] at touches1
  let isFirst : Bool :=
    decide (q.rq.tree.mostLeft = 0#64 ∨ (q.task t).vruntime < (q.task q.rq.tree.mostLeft).vruntime)
  obtain ⟨s2, run3, rep2, mostLeft, elsewhere⟩ := rbInsert_spec rep1 (plug_black same black _) isFirst
  have placed : (plug ctx (.join .left .red t .leaf .leaf)).inorder = front ++ t :: rear := by
    simp [inorder_plug, ColorTree.join, ColorTree.inorder, before, after]
  have order2 : (insertFix ctx (.join .left .red t .leaf .leaf)).inorder = front ++ t :: rear :=
    (inorder_insertFix _ _).trans placed
  let q' : RunqState := { q.setRb s2 with rq.numThreads := (q.rq.numThreads + 1) % wordMod }
  have run : treeInsert q t = .ok q' := by
    have search : findLink q.rb (fun u => (q.task u).vruntime)
        (q.task t).vruntime passes .root 0#64 = .ok (linkOf ctx, holder ctx) := run1
    rw [treeInsert, if_neg addressed.nonnull]
    dsimp only
    rw [search, ok_bind]
    dsimp only
    rw [run2, ok_bind, run3, ok_bind]
    rfl
  refine ⟨q', ctx, front, rear, run, same, found.order, rep2, order2, ?_, rfl, found.notGreater,
    found.greater, rfl, rfl, fun p outside => ?_⟩
  · -- the cached pointer changes exactly if nothing is in front
    have cached : s1.tree.mostLeft = (front ++ rear).head?.getD 0#64 := by
      rwa [touches1.mostLeft, ← found.order]
    change s2.tree.mostLeft = (insertFix _ _).inorder.head?.getD 0#64
    rw [mostLeft, cached, order2]
    have old : q.rq.tree.mostLeft = (front ++ rear).head?.getD 0#64 := by
      rwa [← found.order]
    cases front with
    | nil =>
      have least : isFirst = true := by
        simp only [isFirst, decide_eq_true_eq, old]
        cases rear with
        | nil => exact .inl rfl
        | cons u rear => exact .inr (found.greater u List.mem_cons_self)
      rw [if_pos ⟨least, left_of_first rep2 order2⟩]
      rfl
    | cons u front =>
      have notLeast : ¬ isFirst = true := by
        have inside : u ∈ tree.inorder := by simp [found.order]
        have nonnull := (rep.holds.address_of_mem inside).nonnull
        have notGreater := found.notGreater u List.mem_cons_self
        simp only [isFirst, decide_eq_true_eq, old, List.cons_append, List.head?_cons,
          Option.getD_some, not_or, not_lt]
        exact ⟨nonnull, notGreater⟩
      rw [if_neg fun both => notLeast both.1]
      rfl
  · have members : p ∈ front ++ t :: rear ↔ p ∈ t :: tree.inorder := by
      simp only [found.order, List.mem_append, List.mem_cons]
      tauto
    rw [placed] at elsewhere
    exact (elsewhere p (mt members.mp outside)).trans (touches1.elsewhere p outside)

theorem Inserted.sorted (inserted : Inserted q tree t q' ctx front rear)
    (sorted : tree.inorder.Pairwise fun a b => (q.task a).vruntime ≤ (q.task b).vruntime) :
    (front ++ t :: rear).Pairwise fun a b => (q'.task a).vruntime ≤ (q'.task b).vruntime := by
  rw [inserted.split, List.pairwise_append] at sorted
  rw [inserted.untouched.task]
  refine List.pairwise_append.mpr ⟨sorted.1, List.pairwise_cons.mpr ⟨?_, sorted.2.1⟩, ?_⟩
  · exact fun u inside => (inserted.greater u inside).le
  · intro u inside v inside'
    obtain rfl | inside' := List.mem_cons.mp inside'
    · exact inserted.notGreater u inside
    · exact sorted.2.2 u inside v inside'

theorem treeInsert_spec (queued : Queued q l) (addressed : Address t) (fresh : t ∉ l) :
    ∃ q' front rear, treeInsert q t = .ok q' ∧ l = front ++ rear ∧ Queued q' (front ++ t :: rear) ∧
      (∀ u ∈ front, (q.task u).vruntime ≤ (q.task t).vruntime) ∧
      (∀ u ∈ rear, (q.task t).vruntime < (q.task u).vruntime) ∧ Untouched q q' (t :: l) := by
  obtain ⟨⟨tree, rep, black, rfl⟩, leftmost, counted, sorted⟩ := queued
  obtain ⟨q', ctx, front, rear, run, inserted⟩ :=
    treeInsert_inserted rep black leftmost sorted addressed fresh
  refine ⟨q', front, rear, run, inserted.split, ⟨⟨_, inserted.represents, ?_, inserted.order⟩, ?_, ?_, ?_⟩,
    inserted.notGreater, inserted.greater, inserted.untouched⟩
  · exact color_insertFix _ _ (plug_black inserted.place black _)
  · rw [inserted.mostLeft, first, inserted.order]
  · have bound : (front ++ t :: rear).length < wordMod := inserted.order ▸ inserted.represents.size_lt
    simp only [List.length_append, List.length_cons] at bound ⊢
    have count : q.rq.numThreads = front.length + rear.length := by
      rw [counted, inserted.split, List.length_append]
    rw [inserted.count, count, Nat.mod_eq_of_lt (by omega)]
    omega
  · exact inserted.sorted sorted

/-- `tree_insert` into a red-black tree ordered by virtual runtime leaves such a tree, with
the task directly behind the last one that has not run longer. -/
theorem treeInsert_red_black (inv : RedBlackTree q.rb tree)
    (sorted : tree.inorder.Pairwise fun a b => (q.task a).vruntime ≤ (q.task b).vruntime)
    (addressed : Address t) (fresh : t ∉ tree.inorder) :
    ∃ q' tree' front rear, treeInsert q t = .ok q' ∧ RedBlackTree q'.rb tree' ∧ q'.task = q.task ∧
      (tree'.inorder.Pairwise fun a b => (q'.task a).vruntime ≤ (q'.task b).vruntime) ∧
      tree.inorder = front ++ rear ∧ tree'.inorder = front ++ t :: rear ∧
      (∀ u ∈ front, (q.task u).vruntime ≤ (q.task t).vruntime) ∧
      (∀ u ∈ rear, (q.task t).vruntime < (q.task u).vruntime) := by
  obtain ⟨rep, root, ⟨n, balanced⟩, mostLeft⟩ := inv
  obtain ⟨q', ctx, front, rear, run, inserted⟩ :=
    treeInsert_inserted rep root mostLeft sorted addressed fresh
  have black := plug_black inserted.place root (.join .left .red t .leaf .leaf)
  have repaired : ∃ n, Balanced n (insertFix ctx (.join .left .red t .leaf .leaf)) := by
    rw [← inserted.place] at balanced
    obtain ⟨k, accepts, empty, _⟩ := balanced_plug.mp balanced
    obtain rfl : k = 0 := empty
    exact insertFix_balanced accepts (balanced_red.mpr ⟨⟨rfl, rfl⟩, rfl, rfl⟩) rfl black
  refine ⟨q', _, front, rear, run,
    ⟨inserted.represents, color_insertFix _ _ black, repaired, inserted.mostLeft⟩,
    inserted.untouched.task, ?_, inserted.split, inserted.order, inserted.notGreater, inserted.greater⟩
  rw [inserted.order]
  exact inserted.sorted sorted

/-- A queue of three tasks, and a new one that has run as long as all of them. -/
theorem treeInsert_red_black_equal : ∃ q' tree',
    treeInsert ⟨threeNodes.mem, fun _ => ⟨.runnable, 1, 7⟩, ⟨64#64, threeNodes.tree, 3⟩⟩ 32#64 =
      .ok q' ∧ RedBlackTree q'.rb tree' ∧ tree'.inorder = [8#64, 16#64, 24#64, 32#64] := by
  obtain ⟨q', tree', front, rear, run, inv, -, -, split, order, -, greater⟩ :=
    treeInsert_red_black (q := ⟨threeNodes.mem, fun _ => ⟨.runnable, 1, 7⟩, ⟨64#64, threeNodes.tree, 3⟩⟩)
      (t := 32#64) threeNodes_red_black (by simp [ColorTree.inorder]) ⟨by decide, by decide⟩ (by decide)
  -- nothing is behind a task that has run longest
  have last : rear = [] := List.eq_nil_iff_forall_not_mem.mpr fun u inside =>
    absurd (greater u inside) (by simp)
  rw [last, List.append_nil] at split
  refine ⟨q', tree', run, inv, ?_⟩
  rw [order, last, ← split]
  rfl

end Insertion

section Removal

theorem treeRemove_spec (queued : Queued q (front ++ t :: rear)) :
    ∃ q', treeRemove q t = .ok q' ∧ Queued q' (front ++ rear) ∧ Cleared (q'.mem t) ∧
      Untouched q q' (front ++ t :: rear) := by
  obtain ⟨tree, rep, black, order⟩ := queued.tree
  obtain ⟨ctx, color, left, right, rfl⟩ := exists_place (by simp [order] : t ∈ tree.inorder)
  obtain ⟨before, after⟩ := place_split rep.distinct order
  have leftmost : q.rb.tree.mostLeft = first (plug ctx (.node color left t right)) := by
    rw [first, order]
    exact queued.mostLeft
  obtain ⟨s, run, erased⟩ := rbErase_spec rep leftmost
  have order' : (erase ctx color left right).inorder = front ++ rear := by
    rw [inorder_erase, before, after, List.append_assoc, List.append_assoc]
  let q' : RunqState := { q.setRb s with rq.numThreads := (q.rq.numThreads + (wordMod - 1)) % wordMod }
  refine ⟨q', ?_, ⟨⟨_, erased.represents, color_erase ctx color left t right black, order'⟩, ?_, ?_,
    ?_⟩, erased.cleared, rfl, rfl, order ▸ erased.elsewhere⟩
  · rw [treeRemove, if_neg rep.inside.1.nonnull, run]
    rfl
  · exact erased.leftmost.trans (congrArg (fun l : List Ptr => l.head?.getD 0#64) order')
  · have bound := queued.length_lt
    have count := queued.count
    simp only [List.length_append, List.length_cons] at bound count ⊢
    change (q.rq.numThreads + (wordMod - 1)) % wordMod = _
    have wrapped : q.rq.numThreads + (wordMod - 1) = (front.length + rear.length) + wordMod := by
      unfold wordMod at bound ⊢
      omega
    rw [wrapped, Nat.add_mod_right, Nat.mod_eq_of_lt (by omega)]
  · exact queued.sorted.sublist (List.Sublist.append_left (List.sublist_cons_self t rear) front)

theorem runqNext_nil (queued : Queued q []) : runqNext q = .ok (q, q.rq.idle) := by
  have empty : q.rq.tree.mostLeft = 0#64 := queued.mostLeft
  rw [runqNext]
  exact if_neg (by simp [empty])

theorem runqNext_cons (queued : Queued q (t :: l)) :
    ∃ q', runqNext q = .ok (q', t) ∧ Queued q' l ∧ Untouched q q' (t :: l) := by
  have front : q.rq.tree.mostLeft = t := queued.mostLeft
  have split : Queued q ([] ++ t :: l) := queued
  obtain ⟨q', run, queued', _, untouched⟩ := treeRemove_spec split
  refine ⟨q', ?_, queued', untouched⟩
  rw [runqNext, front, if_pos (queued.address List.mem_cons_self).nonnull, run]
  rfl

end Removal

end ByteOS.Proc
