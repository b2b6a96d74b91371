import Mathlib.Data.BitVec
import Mathlib.Data.Fintype.Card
import Mathlib.Data.List.Chain
import Mathlib.Data.List.Nodup
import Mathlib.Logic.Function.Basic
import Mathlib.Logic.Relation

/-! Null-terminated linked lists over an arbitrary pointer type.

A heap is seen only through its `next` and `prev` functions. `Chain next start l`
says that walking `next` from `start` visits exactly `l` and then reaches the
null pointer; back links are a separate condition, because the head of a list
may keep a stale `prev`. Walks over 64-bit pointers come with a bound on their steps.
-/

set_option autoImplicit false

namespace ByteOS.Lib

open Function (update update_self update_of_ne)

abbrev Ptr := BitVec 64

/-- More steps than there are addresses. -/
def passes : Nat := 2 ^ 65

theorem exists_succ_of_lt {n fuel : Nat} (enough : n < fuel) : ∃ rest, fuel = rest + 1 :=
  Nat.exists_eq_succ_of_ne_zero (Nat.ne_zero_of_lt enough)

theorem length_lt_passes {l : List Ptr} (distinct : l.Nodup) : l.length < passes := by
  have bound := (distinct.map fun _ _ => BitVec.eq_of_toFin_eq).length_le_card
  rw [List.length_map, Fintype.card_fin] at bound
  exact bound.trans_lt (by decide)

variable {P : Type}

/-- Walking `next` from `start` visits the listed nodes in order and ends. -/
def Chain (next : P → Option P) : Option P → List P → Prop
  | start, [] => start = none
  | start, a :: rest => start = some a ∧ Chain next (next a) rest

def BackLinked (prev : P → Option P) (l : List P) : Prop :=
  l.IsChain fun a b => prev b = some a

variable {start : Option P} {a b : P} {l before after : List P} {next : P → Option P}

@[simp] theorem chain_nil : Chain next start [] ↔ start = none := Iff.rfl

@[simp] theorem chain_cons {rest : List P} :
    Chain next start (a :: rest) ↔ start = some a ∧ Chain next (next a) rest := Iff.rfl

theorem Chain.start_eq (chain : Chain next start l) : start = l.head? := by
  cases l with
  | nil => exact chain
  | cons a rest => exact chain.1

theorem Chain.functional {l' : List P} (chain : Chain next start l)
    (other : Chain next start l') : l = l' := by
  induction l generalizing start l' with
  | nil =>
    cases l' with
    | nil => rfl
    | cons b rest => exact absurd (chain.symm.trans other.1) (by simp)
  | cons a rest ih =>
    cases l' with
    | nil => exact absurd (chain.1.symm.trans other) (by simp)
    | cons b rest' =>
      have same : a = b := Option.some.inj (chain.1.symm.trans other.1)
      subst same
      rw [ih chain.2 other.2]

theorem Chain.suffix (chain : Chain next start (before ++ a :: after)) : Chain next (next a) after := by
  induction before generalizing start with
  | nil => exact chain.2
  | cons b rest ih => exact ih chain.2

theorem Chain.nodup (chain : Chain next start l) : l.Nodup := by
  induction l generalizing start with
  | nil => exact List.nodup_nil
  | cons a rest ih =>
    refine List.nodup_cons.mpr ⟨?_, ih chain.2⟩
    intro member
    obtain ⟨before, after, rfl⟩ := List.append_of_mem member
    have again : Chain next (next a) after := chain.2.suffix
    have lengths := congrArg List.length (chain.2.functional again)
    simp only [List.length_append, List.length_cons] at lengths
    omega

theorem Chain.frame {next' : P → Option P} (chain : Chain next start l)
    (agree : ∀ p ∈ l, next' p = next p) : Chain next' start l := by
  induction l generalizing start with
  | nil => exact chain
  | cons a rest ih =>
    refine ⟨chain.1, ?_⟩
    rw [agree a (by simp)]
    exact ih chain.2 fun p member => agree p (by simp [member])

variable {prev prev' : P → Option P}

theorem BackLinked.frame (linked : BackLinked prev l) (agree : ∀ p ∈ l.tail, prev' p = prev p) :
    BackLinked prev' l := by
  induction l with
  | nil => exact .nil
  | cons a rest ih =>
    cases rest with
    | nil => exact .singleton a
    | cons b rest =>
      obtain ⟨link, linked⟩ := List.isChain_cons_cons.mp linked
      refine List.isChain_cons_cons.mpr ⟨(agree b (by simp)).trans link, ?_⟩
      exact ih linked fun p member => agree p (by simp at member ⊢; exact .inr member)

theorem BackLinked.push (linked : BackLinked prev l)
    (first : ∀ b, l.head? = some b → prev b = some a) : BackLinked prev (a :: l) := by
  cases l with
  | nil => exact .singleton a
  | cons b rest => exact List.isChain_cons_cons.mpr ⟨first b rfl, linked⟩

theorem BackLinked.tail (linked : BackLinked prev (a :: l)) : BackLinked prev l := by
  cases l with
  | nil => exact .nil
  | cons b rest => exact (List.isChain_cons_cons.mp linked).2

theorem BackLinked.prev_eq (linked : BackLinked prev (before ++ a :: b :: after)) : prev b = some a := by
  induction before with
  | nil => exact (List.isChain_cons_cons.mp linked).1
  | cons c rest ih => exact ih (BackLinked.tail linked)

theorem mem_head_or_inner (member : b ∈ l) :
    l.head? = some b ∨ ∃ before a after, l = before ++ a :: b :: after := by
  obtain ⟨before, after, rfl⟩ := List.append_of_mem member
  rcases List.eq_nil_or_concat before with rfl | ⟨front, a, rfl⟩
  · exact .inl rfl
  · exact .inr ⟨front, a, after, by simp⟩

/-! ## Where a walk comes to -/

/-- Walking `next` from `start` comes to `p`. -/
abbrev Visits (next : P → Option P) (start p : P) : Prop :=
  Relation.ReflTransGen (fun a b => next a = some b) start p

theorem Chain.mem_iff {start p : P} (chain : Chain next (some start) l) :
    p ∈ l ↔ Visits next start p := by
  constructor
  · intro member
    induction l generalizing start with
    | nil => cases member
    | cons a rest ih =>
      cases chain.1
      obtain rfl | member := List.mem_cons.mp member
      · exact .refl
      · cases rest with
        | nil => cases member
        | cons b rest =>
          have link : next a = some b := chain.2.1
          exact .head link (ih (link ▸ chain.2) member)
  · intro visits
    induction visits with
    | refl =>
      cases l with
      | nil => cases chain
      | cons a rest =>
        cases chain.1
        exact List.mem_cons_self
    | tail _ link ih =>
      obtain ⟨before, after, rfl⟩ := List.append_of_mem ih
      have onward := chain.suffix
      rw [link] at onward
      cases after with
      | nil => cases onward
      | cons b rest =>
        cases onward.1
        simp

theorem exists_chain_of_measure {start : P} (measure : P → Nat)
    (down : ∀ p q, Visits next start p → next p = some q → measure q < measure p) :
    ∃ l, Chain next (some start) l := by
  induction bound : measure start using Nat.strong_induction_on generalizing start with
  | _ bound ih =>
    cases link : next start with
    | none => exact ⟨[start], rfl, link⟩
    | some q =>
      have less := down start q .refl link
      obtain ⟨l, chain⟩ := ih (measure q) (by omega) (fun a b visits => down a b (.head link visits)) rfl
      exact ⟨start :: l, rfl, link ▸ chain⟩

theorem Chain.length_le_measure {start : P} (chain : Chain next (some start) l) (measure : P → Nat)
    (down : ∀ p q, Visits next start p → next p = some q → measure q < measure p) :
    l.length ≤ measure start + 1 := by
  induction l generalizing start with
  | nil => exact Nat.zero_le _
  | cons a rest ih =>
    obtain ⟨same, chain⟩ := chain
    cases same
    cases rest with
    | nil => exact Nat.le_add_left 1 _
    | cons b rest =>
      have link : next a = some b := chain.1
      have less := down a b .refl link
      have tail := ih (link ▸ chain) fun p q visits => down p q (.head link visits)
      rw [List.length_cons]
      omega

theorem not_chain_of_trap {start p : P} (trap : P → Prop) (visits : Visits next start p)
    (caught : trap p) (stays : ∀ q, trap q → ∃ r, next q = some r ∧ trap r) (l : List P) :
    ¬ Chain next (some start) l := by
  -- the last node of the list is in the set and leads on
  have never : ∀ l q, trap q → ¬ Chain next (some q) l := by
    intro l
    induction l with
    | nil => nofun
    | cons a rest ih =>
      rintro q caught ⟨same, chain⟩
      cases same
      obtain ⟨r, link, caught⟩ := stays a caught
      exact ih r caught (link ▸ chain)
  intro chain
  obtain ⟨before, after, rfl⟩ := List.append_of_mem (chain.mem_iff.mpr visits)
  exact never (p :: after) p caught ⟨rfl, chain.suffix⟩

theorem not_chain_of_loop {start p : P} (visits : Visits next start p) (loop : next p = some p)
    (l : List P) : ¬ Chain next (some start) l := by
  apply not_chain_of_trap (fun q => q = p) visits rfl
  intro q same
  exact ⟨p, same ▸ loop, rfl⟩

variable [DecidableEq P]

theorem Chain.unlink (chain : Chain next start (before ++ a :: b :: after)) :
    Chain (update next a (next b)) start (before ++ a :: after) := by
  have distinct := chain.nodup
  induction before generalizing start with
  | nil =>
    obtain ⟨here, -, rest⟩ := chain
    refine ⟨here, ?_⟩
    rw [update_self]
    apply rest.frame
    intro p member
    apply update_of_ne
    rintro rfl
    simp [member] at distinct
  | cons c front ih =>
    obtain ⟨here, rest⟩ := chain
    refine ⟨here, ?_⟩
    have apart : c ≠ a := by
      rintro rfl
      simp at distinct
    rw [update_of_ne apart]
    exact ih rest (List.nodup_cons.mp distinct).2

theorem Chain.insert (chain : Chain next start (before ++ a :: after))
    (fresh : b ∉ before ++ a :: after) :
    Chain (update (update next b (next a)) a (some b)) start (before ++ a :: b :: after) := by
  have distinct := chain.nodup
  simp only [List.mem_append, List.mem_cons, not_or] at fresh
  induction before generalizing start with
  | nil =>
    refine ⟨chain.1, by simp, ?_⟩
    rw [update_of_ne fresh.2.1, update_self]
    apply chain.2.frame
    intro p member
    have notFirst : p ≠ a := by
      rintro rfl
      simp [member] at distinct
    have notNew : p ≠ b := by
      rintro rfl
      exact fresh.2.2 member
    rw [update_of_ne notFirst, update_of_ne notNew]
  | cons c front ih =>
    obtain ⟨here, rest⟩ := chain
    refine ⟨here, ?_⟩
    have notFirst : c ≠ a := by
      rintro rfl
      simp at distinct
    have notNew : c ≠ b := by
      rintro rfl
      simp at fresh
    rw [update_of_ne notFirst, update_of_ne notNew]
    exact ih rest (List.nodup_cons.mp distinct).2 ⟨fun member => fresh.1 (by simp [member]), fresh.2⟩

theorem BackLinked.unlink (linked : BackLinked prev (before ++ a :: b :: after))
    (repaired : ∀ c, after.head? = some c → prev' c = some a)
    (agree : ∀ p ∈ before ++ a :: after.tail, prev' p = prev p) :
    BackLinked prev' (before ++ a :: after) := by
  induction before with
  | nil =>
    have rest : BackLinked prev after := BackLinked.tail (BackLinked.tail linked)
    exact (rest.frame fun p member => agree p (by simp [member])).push repaired
  | cons c front ih =>
    have inner := ih (BackLinked.tail linked) fun p member => agree p (by simp at member ⊢; tauto)
    apply inner.push
    intro d first
    have old : prev d = some c := by
      cases front with
      | nil =>
        have same : a = d := by simpa using first
        subst same
        exact (List.isChain_cons_cons.mp linked).1
      | cons e front =>
        have same : e = d := by simpa using first
        subst same
        exact (List.isChain_cons_cons.mp linked).1
    rw [agree d ?_, old]
    cases front with
    | nil | cons e front => simp at first; simp [first]

/-! ## A family of lists without the head of one of them -/

section Family

omit [DecidableEq P]

variable {K : Type} [DecidableEq K] {next : P → Option P} {starts : K → Option P}
  {lists : K → List P} {place : K} {head : P} {rest : List P}

theorem mem_update_tail (listed : lists place = head :: rest) (fresh : head ∉ rest) (p : P)
    (k : K) : p ∈ update lists place rest k ↔ p ∈ lists k ∧ ¬ (p = head ∧ k = place) := by
  by_cases same : k = place
  · subst same
    rw [update_self, listed, List.mem_cons]
    constructor
    · refine fun member => ⟨.inr member, ?_⟩
      rintro ⟨rfl, -⟩
      exact fresh member
    · exact fun both => both.1.resolve_left fun equal => both.2 ⟨equal, rfl⟩
  · simp [same]

theorem chain_update_tail {k : K} (listed : lists place = head :: rest)
    (chain : Chain next (starts k) (lists k)) :
    Chain next (update starts place (next head) k) (update lists place rest k) := by
  by_cases same : k = place
  · subst same
    rw [listed] at chain
    rw [update_self, update_self]
    exact chain.2
  · rwa [update_of_ne same, update_of_ne same]

end Family

end ByteOS.Lib
