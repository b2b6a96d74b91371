import ByteOS.Lib.Census
import ByteOS.Lib.Transition
import Mathlib.Tactic.Simps.Basic

/-! `cow_handle_write` and `cow_handle_free` of `kernel/mm/cow.c`, for several address
spaces that share one page.

A step is one access to what they share: the lock and the reference count of the page,
the free lists, and the contents of a page. `pmm_alloc_order` may take any page of the
free lists; a call that finds none does not return. A user may write to the page that
`cow_handle_write` has left it with, and the rest of the kernel may use a free page.
-/

set_option autoImplicit false

namespace ByteOS.Mm.CowRace

open Lib
open Function (update update_self update_of_ne)
open Option (ite_none_right_eq_some bind_eq_some_iff)

inductive Point where
  /-- The page is mapped with `PAGE_COW`, and no call is under way. -/
  | sharing
  /-- `cow_handle_write` has the lock. -/
  | locked
  /-- It has read a count above zero. -/
  | allocating
  /-- It has a page of its own. -/
  | copying (dest : Nat)
  /-- The write will go to this page. -/
  | unlocking (dest : Nat)
  /-- The page is mapped with `PAGE_WRITABLE`. -/
  | writable (dest : Nat)
  /-- `cow_handle_free` has read a count of zero. -/
  | freeing
  | reaped
  deriving DecidableEq, Repr

structure State (n : Nat) (β : Type) where
  refcount : BitVec 32
  lock : Bool
  free : List Nat
  mem : Nat → β
  point : Fin n → Point

inductive Action (n : Nat) (β : Type) where
  /-- `spin_lock(&page->lock)`, once it succeeds. -/
  | lock (i : Fin n)
  /-- `kref_dec_read` in `cow_handle_write`, and the test of its result. -/
  | decrement (i : Fin n)
  | alloc (i : Fin n) (dest : Nat)
  | memcpy (i : Fin n)
  | unlock (i : Fin n)
  /-- `cow_handle_free` up to the test of what `kref_dec_read` returns. -/
  | handleFree (i : Fin n)
  | freeOrder (i : Fin n)
  /-- `free_single_page` for a page without `PAGE_COW`. -/
  | freeOwn (i : Fin n)
  /-- A store of the user to the page that is writable now. -/
  | store (i : Fin n) (v : β)
  /-- The rest of the kernel allocates a page, writes to it and frees it. -/
  | reuse (page : Nat) (v : β)
  deriving DecidableEq, Repr

variable {n : Nat} {β : Type}

namespace State

@[simps -fullyApplied] def setPoint (s : State n β) (i : Fin n) (point : Point) : State n β :=
  { s with point := update s.point i point }

def write (s : State n β) (page : Nat) (v : β) : State n β := { s with mem := update s.mem page v }

@[simps -fullyApplied lock free mem point] def dec (s : State n β) : State n β :=
  { s with refcount := s.refcount - 1#32 }

end State

/-- One step on the shared page `page`, where it is possible. -/
def act (page kernelEnd : Nat) (s : State n β) : Action n β → Option (State n β)
  | .lock i => if s.point i = .sharing ∧
      s.lock = false then some { s.setPoint i .locked with lock := true } else none
  | .decrement i =>
    if s.point i = .locked then
      some (s.dec.setPoint i (if s.dec.refcount ≠ 0#32 then .allocating else .unlocking page))
    else none
  | .alloc i dest =>
    if s.point i = .allocating ∧ dest ∈ s.free then
      some { s.setPoint i (.copying dest) with free := s.free.erase dest }
    else none
  | .memcpy i =>
    match s.point i with
    | .copying dest => some ((s.write dest (s.mem page)).setPoint i (.unlocking dest))
    | _ => none
  | .unlock i =>
    match s.point i with
    | .unlocking dest => some { s.setPoint i (.writable dest) with lock := false }
    | _ => none
  | .handleFree i =>
    if s.point i = .sharing then
      -- a page of the kernel is left alone
      if page < kernelEnd then some (s.setPoint i .reaped)
      else some (s.dec.setPoint i (if s.dec.refcount = 0#32 then .freeing else .reaped))
    else none
  | .freeOrder i =>
    if s.point i = .freeing then some { s.setPoint i .reaped with free := page :: s.free } else none
  | .freeOwn i =>
    match s.point i with
    | .writable dest =>
      if kernelEnd < dest then some { s.setPoint i .reaped with free := dest :: s.free }
      else some (s.setPoint i .reaped)
    | _ => none
  | .store i v =>
    match s.point i with
    | .writable dest => some (s.write dest v)
    | _ => none
  | .reuse other v => if other ∈ s.free then some (s.write other v) else none

def Step (page kernelEnd : Nat) (guard : State n β → Action n β → Prop) (s s' : State n β) : Prop :=
  ∃ a, guard s a ∧ act page kernelEnd s a = some s'

structure Shared (page : Nat) (s : State n β) : Prop where
  counted : s.refcount.toNat = n
  unlocked : s.lock = false
  allocated : page ∉ s.free
  sharing : ∀ i, s.point i = .sharing

def Point.Copies : Point → Prop
  | .allocating | .copying _ => True
  | _ => False

instance : (point : Point) → Decidable point.Copies
  | .allocating | .copying _ => .isTrue trivial
  | .sharing | .locked | .unlocking _ | .writable _ | .freeing | .reaped => .isFalse id

/-- `cow_handle_free` does not drop the last reference during a copy. -/
def Unraced (page kernelEnd : Nat) (s : State n β) : Action n β → Prop
  | .handleFree _ => kernelEnd ≤ page → s.refcount = 1#32 → ∀ j, ¬ (s.point j).Copies
  | _ => True

/-! ## What a run keeps -/

def Point.references : Point → Nat
  | .sharing | .locked => 1
  | _ => 0

def Point.locks : Point → Nat
  | .locked | .allocating | .copying _ | .unlocking _ => 1
  | _ => 0

/-- The address space may write to or free `page` without a test. -/
def Point.Owns (page : Nat) : Point → Prop
  | .copying dest | .unlocking dest | .writable dest => dest = page
  | .freeing => True
  | _ => False

/-- While there are references to the page, it is allocated, has its old contents `v`, and
nobody owns it; and there are some during every copy. -/
structure Live (page : Nat) (v : β) (s : State n β) : Prop where
  counted : census Point.references s.point ≤ s.refcount.toNat
  exclusive : census Point.locks s.point = s.lock.toNat
  copied : ∀ i, (s.point i).Copies → s.refcount ≠ 0#32
  allocated : s.refcount ≠ 0#32 → page ∉ s.free
  kept : s.refcount ≠ 0#32 → s.mem page = v
  unowned : s.refcount ≠ 0#32 → ∀ i, ¬ (s.point i).Owns page

variable {page kernelEnd : Nat} {v : β} {s s' : State n β} {i : Fin n}

theorem Shared.live (shared : Shared page s) : Live page (s.mem page) s where
  counted := by
    have all : s.point = fun _ => .sharing := funext shared.sharing
    rw [all, shared.counted, census]
    simp [Point.references]
  exclusive := by
    rw [shared.unlocked]
    exact census_eq_zero fun i => by rw [shared.sharing i]; rfl
  copied i copies := by
    rw [shared.sharing i] at copies
    exact copies.elim
  allocated _ := shared.allocated
  kept _ := rfl
  unowned _ i owns := by
    rw [shared.sharing i] at owns
    exact owns.elim

theorem Live.referenced (live : Live page v s) (held : (s.point i).references = 1) : s.refcount ≠ 0#32 := by
  intro none
  have some := le_census Point.references s.point i
  have counted := live.counted
  rw [none, BitVec.toNat_zero] at counted
  omega

theorem Live.dec_refcount (live : Live page v s) (held : (s.point i).references = 1) :
    s.dec.refcount.toNat + 1 = s.refcount.toNat := by
  have some := live.referenced held
  rw [State.dec]
  bv_omega

variable {j : Fin n} {point next : Point} {dest : Nat}

theorem Live.alone (live : Live page v s) (inside : (s.point i).locks = 1) (other : j ≠ i) :
    (s.point j).locks = 0 := by
  have both := add_le_census Point.locks s.point other
  have exclusive := live.exclusive
  have bit := Bool.toNat_le s.lock
  omega

theorem Point.Copies.locks (copies : point.Copies) : point.locks = 1 := by
  cases point <;> first | rfl | exact copies.elim

theorem ne_zero_of_le {count count' : BitVec 32} (fewer : count'.toNat ≤ count.toNat)
    (some : count' ≠ 0#32) : count ≠ 0#32 := by
  bv_omega

section

variable (live : Live page v s)
include live

theorem Live.move (moved : s'.point = update s.point i next)
    (fewer : s'.refcount.toNat ≤ s.refcount.toNat)
    (counted : s.refcount.toNat + next.references ≤ s'.refcount.toNat + (s.point i).references)
    (locked : s'.lock.toNat + (s.point i).locks = s.lock.toNat + next.locks)
    (mine : next.Copies → s'.refcount ≠ 0#32) (others : ∀ j, j ≠ i → (s.point j).Copies →
      s'.refcount ≠ 0#32) (allocated : s'.refcount ≠ 0#32 → page ∉ s.free → page ∉ s'.free)
    (kept : s'.refcount ≠ 0#32 → s'.mem page = s.mem page)
    (unowned : s'.refcount ≠ 0#32 → ¬ next.Owns page) :
    Live page v s' where
  counted := by
    have change := census_update Point.references s.point i next
    have before := live.counted
    rw [moved]
    omega
  exclusive := by
    have change := census_update Point.locks s.point i next
    have before := live.exclusive
    rw [moved]
    omega
  copied j copies := by
    rw [moved] at copies
    by_cases same : j = i
    · rw [same, update_self] at copies
      exact mine copies
    · rw [update_of_ne same] at copies
      exact others j same copies
  allocated some := allocated some (live.allocated (ne_zero_of_le fewer some))
  kept some := (kept some).trans (live.kept (ne_zero_of_le fewer some))
  unowned some j owns := by
    rw [moved] at owns
    by_cases same : j = i
    · rw [same, update_self] at owns
      exact unowned some owns
    · rw [update_of_ne same] at owns
      exact live.unowned (ne_zero_of_le fewer some) j owns

theorem Live.move_uncounted (here : s.point i = point) (moved : s'.point = update s.point i next)
    (count : s'.refcount = s.refcount) (references : next.references ≤ point.references)
    (locked : s'.lock.toNat + point.locks = s.lock.toNat + next.locks)
    (mine : next.Copies → s.refcount ≠ 0#32) (allocated : s.refcount ≠ 0#32 → page ∉ s.free →
      page ∉ s'.free) (kept : s'.mem page = s.mem page)
    (unowned : s.refcount ≠ 0#32 → ¬ next.Owns page) : Live page v s' := by
  subst here
  rw [← count] at mine allocated unowned
  refine live.move moved (le_of_eq (congrArg BitVec.toNat count)) ?_ locked mine
    (fun j _ copies => ?_) allocated (fun _ => kept) unowned
  · rw [count]
    exact Nat.add_le_add_left references _
  · rw [count]
    exact live.copied j copies

theorem Live.write (w : β) (elsewhere : s.refcount ≠ 0#32 → dest ≠ page) :
    Live page v (s.write dest w) where
  counted := live.counted
  exclusive := live.exclusive
  copied := live.copied
  allocated := live.allocated
  kept some := (update_of_ne (elsewhere some).symm _ _).trans (live.kept some)
  unowned := live.unowned

theorem Live.drop (held : (s.point i).references = 1) (none : next.references = 0)
    (locks : (s.point i).locks = next.locks) (mine : next.Copies → s.dec.refcount ≠ 0#32)
    (others : ∀ j, j ≠ i → (s.point j).Copies → s.dec.refcount ≠ 0#32)
    (unowned : s.dec.refcount ≠ 0#32 → ¬ next.Owns page) : Live page v (s.dec.setPoint i next) := by
  have some := live.referenced held
  have count := live.dec_refcount held
  refine live.move rfl (by rw [State.setPoint_refcount]; omega) ?_ ?_ mine others
    (fun _ outside => by rwa [State.setPoint_free, State.dec_free])
      (fun _ => by rw [State.setPoint_mem, State.dec_mem]) unowned
  · rw [held, none, State.setPoint_refcount]
    omega
  · rw [locks]
    rfl

/-- The writer that reads zero is the last one that uses the page. -/
theorem Live.decrement (here : s.point i = .locked) :
    Live page v (s.dec.setPoint i (if s.dec.refcount ≠ 0#32 then .allocating else .unlocking page)) := by
  have inside : (s.point i).locks = 1 := by rw [here]; rfl
  refine live.drop (by rw [here]; rfl) (by split <;> rfl) (by rw [inside]; split <;> rfl) ?_ ?_ ?_
  · intro copies
    split at copies
    case isTrue left => exact left
    case isFalse => exact copies.elim
  · intro j other copies
    have outside := live.alone inside other
    rw [copies.locks] at outside
    cases outside
  · intro left owns
    rw [if_pos left] at owns
    exact owns

/-- With the guard, a reference is dropped only while another is left for every copy. -/
theorem Live.handleFree (here : s.point i = .sharing) (user : kernelEnd ≤ page)
    (unraced : Unraced page kernelEnd s (.handleFree i)) :
    Live page v (s.dec.setPoint i (if s.dec.refcount = 0#32 then .freeing else .reaped)) := by
  have held : (s.point i).references = 1 := by rw [here]; rfl
  refine live.drop held (by split <;> rfl) (by rw [here]; split <;> rfl) ?_ ?_ ?_
  · intro copies
    split at copies <;> exact copies.elim
  · intro j _ copies last
    have count := live.dec_refcount held
    rw [last] at count
    exact unraced user (by bv_omega) j copies
  · intro left owns
    rw [if_neg left] at owns
    exact owns

theorem Live.act {a : Action n β} (unraced : Unraced page kernelEnd s a)
    (stepped : act page kernelEnd s a = some s') : Live page v s' := by
  cases a with
  | lock i =>
    rw [CowRace.act, ite_none_right_eq_some] at stepped
    obtain ⟨⟨here, unlocked⟩, same⟩ := stepped
    cases same
    refine live.move_uncounted here rfl rfl le_rfl ?_ (fun copies => copies.elim)
      (fun _ outside => outside) rfl fun _ owns => owns.elim
    rw [unlocked]
    rfl
  | decrement i =>
    rw [CowRace.act, ite_none_right_eq_some] at stepped
    obtain ⟨here, same⟩ := stepped
    cases same
    exact live.decrement here
  | alloc i dest =>
    rw [CowRace.act, ite_none_right_eq_some] at stepped
    obtain ⟨⟨here, inside⟩, same⟩ := stepped
    cases same
    have some : s.refcount ≠ 0#32 := live.copied i (by rw [here]; trivial)
    refine live.move_uncounted here rfl rfl le_rfl rfl (fun _ => some)
      (fun _ outside there => outside (List.mem_of_mem_erase there)) rfl ?_
    rintro - rfl
    exact live.allocated some inside
  | memcpy i =>
    rw [CowRace.act] at stepped
    split at stepped
    case h_1 dest here =>
      cases stepped
      have other : s.refcount ≠ 0#32 → dest ≠ page :=
        fun some same => live.unowned some i (by rw [here]; exact same)
      exact (live.write (s.mem page) other).move_uncounted here rfl rfl le_rfl rfl
        (fun copies => copies.elim) (fun _ outside => outside) rfl other
    case h_2 => cases stepped
  | unlock i =>
    rw [CowRace.act] at stepped
    split at stepped
    case h_1 dest here =>
      cases stepped
      have inside : (s.point i).locks = 1 := by rw [here]; rfl
      refine live.move_uncounted here rfl rfl le_rfl ?_ (fun copies => copies.elim)
        (fun _ outside => outside) rfl
        fun some same => live.unowned some i (by rw [here]; exact same)
      have held := le_census Point.locks s.point i
      have exclusive := live.exclusive
      have bit := Bool.toNat_le s.lock
      change 0 + 1 = s.lock.toNat + 0
      omega
    case h_2 => cases stepped
  | handleFree i =>
    rw [CowRace.act, ite_none_right_eq_some] at stepped
    obtain ⟨here, stepped⟩ := stepped
    split at stepped
    case isTrue =>
      cases stepped
      exact live.move_uncounted here rfl rfl (Nat.le_succ _) rfl (fun copies => copies.elim)
        (fun _ outside => outside) rfl fun _ owns => owns.elim
    case isFalse user =>
      cases stepped
      exact live.handleFree here (Nat.le_of_not_lt user) unraced
  | freeOrder i =>
    rw [CowRace.act, ite_none_right_eq_some] at stepped
    obtain ⟨here, same⟩ := stepped
    cases same
    have none : ¬ s.refcount ≠ 0#32 := fun some => live.unowned some i (by rw [here]; trivial)
    exact live.move_uncounted here rfl rfl le_rfl rfl (fun copies => copies.elim)
      (fun some => absurd some none) rfl fun _ owns => owns.elim
  | freeOwn i =>
    rw [CowRace.act] at stepped
    split at stepped
    case h_1 dest here =>
      have other : s.refcount ≠ 0#32 → dest ≠ page :=
        fun some same => live.unowned some i (by rw [here]; exact same)
      have reaped : Live page v (s.setPoint i .reaped) :=
        live.move_uncounted here rfl rfl le_rfl rfl (fun copies => copies.elim)
          (fun _ outside => outside) rfl fun _ owns => owns.elim
      split at stepped
      case isTrue =>
        cases stepped
        refine { reaped with allocated := fun some inside => ?_ }
        obtain same | inside := List.mem_cons.mp inside
        · exact other some same.symm
        · exact live.allocated some inside
      case isFalse =>
        cases stepped
        exact reaped
    case h_2 => cases stepped
  | store i w =>
    rw [CowRace.act] at stepped
    split at stepped
    case h_1 dest here =>
      cases stepped
      exact live.write w fun some same => live.unowned some i (by rw [here]; exact same)
    case h_2 => cases stepped
  | reuse other w =>
    rw [CowRace.act, ite_none_right_eq_some] at stepped
    obtain ⟨inside, same⟩ := stepped
    cases same
    exact live.write w fun some same => live.allocated some (same ▸ inside)

end

theorem live_of_run {start : State n β} (live : Live page v start)
    (run : Reaches (Step page kernelEnd (Unraced page kernelEnd)) start s) : Live page v s := by
  refine run.invariant (Live page v) live ?_
  rintro s s' - ⟨a, unraced, stepped⟩ live
  exact live.act unraced stepped

/-! ## The copy -/

theorem act_lock_cases (stepped : act page kernelEnd s (.lock i) = some s') : s.point i = .sharing := by
  rw [act, ite_none_right_eq_some] at stepped
  exact stepped.1.1

theorem act_memcpy_cases (stepped : act page kernelEnd s (.memcpy i) = some s') :
    ∃ dest, s.point i = .copying dest ∧ s'.mem dest = s.mem page := by
  rw [act] at stepped
  split at stepped
  case h_1 dest here =>
    cases stepped
    exact ⟨dest, here, update_self dest _ s.mem⟩
  case h_2 => cases stepped

/-- In a run in which no `cow_handle_free` drops the last reference during a copy, the page
is allocated at every `memcpy`, and the copy has the contents from before the fault. -/
theorem cow_copy_reads_live {start fault s₁ s₂ s₃ : State n β} (shared : Shared page start)
    (run : Reaches (Step page kernelEnd (Unraced page kernelEnd)) start fault)
    (locked : act page kernelEnd fault (.lock i) = some s₁)
    (later : Reaches (Step page kernelEnd (Unraced page kernelEnd)) s₁ s₂)
    (copied : act page kernelEnd s₂ (.memcpy i) = some s₃) :
    page ∉ s₂.free ∧ ∃ dest, s₂.point i = .copying dest ∧ s₃.mem dest = fault.mem page := by
  have before := live_of_run shared.live run
  have unraced : Unraced page kernelEnd fault (.lock i) := trivial
  have after := live_of_run (before.act unraced locked) later
  obtain ⟨dest, here, contents⟩ := act_memcpy_cases copied
  have some : s₂.refcount ≠ 0#32 := after.copied i (by rw [here]; trivial)
  have held : fault.refcount ≠ 0#32 := before.referenced (i := i) (by rw [act_lock_cases locked]; rfl)
  exact ⟨after.allocated some, dest, here, by rw [contents, after.kept some, before.kept held]⟩

/-- Whenever the last reference is dropped during a copy, the page can be free at the
`memcpy`. -/
theorem raced_memcpy (user : kernelEnd ≤ page) (last : s.refcount = 1#32)
    (sharing : s.point i = .sharing) (copying : s.point j = .copying dest) :
    ∃ s₁ s₂ s₃, act page kernelEnd s (.handleFree i) = some s₁ ∧
      act page kernelEnd s₁ (.freeOrder i) = some s₂ ∧
      act page kernelEnd s₂ (.memcpy j) = some s₃ ∧ page ∈ s₂.free := by
  have other : j ≠ i := by
    rintro rfl
    rw [sharing] at copying
    cases copying
  have dropped : s.dec.refcount = 0#32 := by rw [State.dec, last]; rfl
  let s₁ := s.dec.setPoint i .freeing
  let s₂ : State n β := { s₁.setPoint i .reaped with free := page :: s₁.free }
  refine ⟨s₁, s₂, (s₂.write dest (s₂.mem page)).setPoint j (.unlocking dest), ?_, ?_, ?_,
    List.mem_cons_self⟩
  · rw [act, if_pos sharing, if_neg (Nat.not_lt.mpr user), if_pos dropped]
  · rw [act, if_pos (by simp [s₁])]
  · have here : s₂.point j = .copying dest := by simp [s₂, s₁, update_of_ne other, copying]
    rw [act, here]

def runActions (page kernelEnd : Nat) (guard : State n β → Action n β → Prop)
    [∀ s a, Decidable (guard s a)] (s : State n β) : List (Action n β) → Option (State n β)
  | [] => some s
  | a :: rest =>
    if guard s a then (act page kernelEnd s a).bind fun s => runActions page kernelEnd guard s rest
    else none

theorem reaches_of_runActions {guard : State n β → Action n β → Prop} [∀ s a, Decidable (guard s a)]
    {actions : List (Action n β)} (ran : runActions page kernelEnd guard s actions = some s') :
    Reaches (Step page kernelEnd guard) s s' := by
  induction actions generalizing s with
  | nil =>
    cases ran
    exact .refl
  | cons a rest ih =>
    rw [runActions, ite_none_right_eq_some] at ran
    obtain ⟨s₁, stepped, later⟩ := bind_eq_some_iff.mp ran.2
    exact .head ⟨a, ran.1, stepped⟩ (ih later)

instance (page kernelEnd : Nat) (s : State n β) : (a : Action n β) → Decidable (Unraced page kernelEnd s a)
  | .handleFree _ =>
    inferInstanceAs (Decidable (kernelEnd ≤ page → s.refcount = 1#32 → ∀ j, ¬ (s.point j).Copies))
  | .lock _ | .decrement _ | .alloc _ _ | .memcpy _ | .unlock _ | .freeOrder _ | .freeOwn _
  | .store _ _ | .reuse _ _ =>
    .isTrue trivial

def sharedPage (n : Nat) : State n Nat :=
  ⟨BitVec.ofNat 32 n, false, [17, 18], fun page => if page = 16 then 7 else 0, fun _ => .sharing⟩

theorem sharedPage_shared (small : n < 2 ^ 32) : Shared 16 (sharedPage n) where
  counted := Nat.mod_eq_of_lt small
  unlocked := rfl
  allocated := (by decide : 16 ∉ [17, 18])
  sharing _ := rfl

/-- One of three address spaces is reaped while another copies the page. -/
theorem cow_copy_reads_live_three : ∃ s₁ s₂ s₃ : State 3 Nat, act 16 4 (sharedPage 3) (.lock 0) = some s₁ ∧
    runActions 16 4 (Unraced 16 4) s₁ [.decrement 0, .handleFree 1, .alloc 0 17] = some s₂ ∧
    act 16 4 s₂ (.memcpy 0) = some s₃ ∧ 16 ∉ s₂.free ∧ ∃ dest, s₃.mem dest = 7 := by
  have finished : ((act 16 4 (sharedPage 3) (.lock 0)).bind fun s₁ =>
      (runActions 16 4 (Unraced 16 4) s₁ [.decrement 0, .handleFree 1, .alloc 0 17]).bind fun s₂ =>
        (act 16 4 s₂ (.memcpy 0)).map fun s₃ => s₃.refcount) = some 1#32 := by decide +kernel
  obtain ⟨s₁, locked, rest⟩ := bind_eq_some_iff.mp finished
  obtain ⟨s₂, later, rest⟩ := bind_eq_some_iff.mp rest
  obtain ⟨s₃, copied, _⟩ := Option.map_eq_some_iff.mp rest
  obtain ⟨allocated, dest, _, contents⟩ :=
    cow_copy_reads_live (sharedPage_shared (by decide)) .refl locked (reaches_of_runActions later) copied
  exact ⟨s₁, s₂, s₃, locked, later, copied, allocated, dest, contents⟩

/-- Address space 0 has given up its reference when address space 1 is reaped and frees the
page: the copy reads a page of the free lists that has been used for something else. -/
theorem cow_copy_reads_free : ∃ s₁ s₂ s₃ : State 2 Nat, Shared 16 (sharedPage 2) ∧
    act 16 4 (sharedPage 2) (.lock 0) = some s₁ ∧
    Reaches (Step 16 4 fun _ _ => True) s₁ s₂ ∧ act 16 4 s₂ (.memcpy 0) = some s₃ ∧
    16 ∈ s₂.free ∧ s₂.point 0 = .copying 17 ∧ s₃.mem 17 = 9 ∧ (sharedPage 2).mem 16 = 7 := by
  have finished : ((act 16 4 (sharedPage 2) (.lock 0)).bind fun s₁ =>
      (runActions 16 4 (fun _ _ => True) s₁
        [.decrement 0, .handleFree 1, .freeOrder 1, .reuse 16 9, .alloc 0 17]).bind fun s₂ =>
        (act 16 4 s₂ (.memcpy 0)).map fun s₃ => (s₂.free, s₂.point 0, s₃.mem 17)) =
      some ([16, 18], .copying 17, 9) := by decide +kernel
  obtain ⟨s₁, locked, rest⟩ := bind_eq_some_iff.mp finished
  obtain ⟨s₂, later, rest⟩ := bind_eq_some_iff.mp rest
  obtain ⟨s₃, copied, values⟩ := Option.map_eq_some_iff.mp rest
  simp only [Prod.mk.injEq] at values
  obtain ⟨free, copying, contents⟩ := values
  exact ⟨s₁, s₂, s₃, sharedPage_shared (by decide), locked, reaches_of_runActions later,
    copied, by simp [free], copying, contents, rfl⟩

end ByteOS.Mm.CowRace
