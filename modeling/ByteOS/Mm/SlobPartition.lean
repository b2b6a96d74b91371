import ByteOS.Lib.Chain
import ByteOS.Lib.Tiling
import ByteOS.Lib.Transition
import ByteOS.Mm.Slob

/-! Which runs keep the pages of the slob allocator partitioned into blocks.

`slob_alloc` unlinks an exactly fitting block only when it has a predecessor on
the free list. `ExactAtHead` names the requests for which it has none; all other
requests, and all frees, keep the partition.
-/

set_option autoImplicit false

namespace ByteOS.Mm.Slob

open ByteOS.Lib
open List (mem_append mem_cons map_cons nodup_cons mem_map)

def State.next (s : State) (b : Nat) : Option Nat := (s.mem b).next

def pageUnits : Nat := pageSize / unit

def InPage (page q : Nat) : Prop := page ≤ q ∧ q < page + pageUnits

def Block (s : State) (free : List Nat) (live : List (Nat × Nat)) (b k : Nat) : Prop :=
  (b ∈ free ∨ ∃ n, (b + 1, n) ∈ live) ∧ (s.mem b).units = k

/-- The free list is `free`, and together with the live blocks it tiles the pages. -/
structure Layout (s : State) (free : List Nat) (live : List (Nat × Nat)) : Prop where
  chain : Chain s.next s.head free
  tiles : Tiles Nat.succ (fun q => ∃ page ∈ s.pages, InPage page q) (Block s free live)
  paged : ∀ b k, Block s free live b k → b % pageUnits + k < pageUnits
  aligned : ∀ page ∈ s.pages, pageUnits ∣ page
  sized : ∀ p n, (p, n) ∈ live → ∃ b, p = b + 1 ∧ (b + 1) % pageUnits ≠ 0 ∧ n ≤ (s.mem b).units * unit
  exclusive : ∀ b n, (b + 1, n) ∈ live → b ∉ free
  once : (live.map Prod.fst).Nodup

variable {b n units page passes p : Nat} {mem : Nat → Header} {before after l supply : List Nat}
  {prev start : Option Nat}

section
variable {s s' : State} {free : List Nat} {live : List (Nat × Nat)}

theorem Layout.apart (layout : Layout s free live) {k b' k' : Nat} (here : Block s free live b k)
    (other : Block s free live b' k') (above : b < b') : b + k < b' := by
  by_contra inside
  have first : Within Nat.succ b k b' := ⟨by omega, by simp only [Nat.succ_eq_add_one]; omega⟩
  have second : Within Nat.succ b' k' b' := ⟨le_refl b', by simp only [Nat.succ_eq_add_one]; omega⟩
  have same := layout.tiles.apart b k b' k' b' here other first second
  omega

theorem Layout.frame (layout : Layout s free live) (head : s'.head = s.head)
    (pages : s'.pages = s.pages) (agree : ∀ b k, Block s free live b k → s'.mem b = s.mem b) :
    Layout s' free live := by
  have same : ∀ b k, Block s' free live b k ↔ Block s free live b k := by
    intro b k
    constructor
    · rintro ⟨owned, units⟩
      exact ⟨owned, by rw [← agree b _ ⟨owned, rfl⟩, units]⟩
    · rintro ⟨owned, units⟩
      exact ⟨owned, by rw [agree b _ ⟨owned, rfl⟩, units]⟩
  constructor
  · rw [head]
    apply layout.chain.frame
    intro b member
    simp only [State.next, agree b _ ⟨.inl member, rfl⟩]
  · rw [pages]
    exact layout.tiles.congr same
  · exact fun b k block => layout.paged b k ((same b k).mp block)
  · rw [pages]
    exact layout.aligned
  · intro p n member
    obtain ⟨b, rfl, inner, fits⟩ := layout.sized p n member
    exact ⟨b, rfl, inner, by rw [agree b _ ⟨.inr ⟨n, member⟩, rfl⟩]; exact fits⟩
  · exact layout.exclusive
  · exact layout.once

theorem Layout.write (layout : Layout s free live) (member : (b + 1, n) ∈ live)
    (agree : ∀ q, ¬ (b + 1 ≤ q ∧ q < b + 1 + (s.mem b).units) → mem q = s.mem q) :
    Layout { s with mem := mem } free live := by
  refine layout.frame rfl rfl fun q k block => agree q ?_
  rintro ⟨above, below⟩
  have beyond := layout.apart ⟨.inr ⟨n, member⟩, rfl⟩ block (by omega)
  omega

theorem payload_inside (bound : b % pageUnits + 1 < pageUnits) : (b + 1) % pageUnits ≠ 0 := by
  simp only [pageUnits, pageSize, unit] at *
  omega

section

variable (layout : Layout s free live) (listed : free = before ++ b :: after) (pages : s'.pages = s.pages)
include layout listed pages

/-- A block that is handed out is new among the live ones, and those before keep theirs. -/
theorem Layout.serve {free' : List Nat} (chain : Chain s'.next s'.head free')
    (tiles : Tiles Nat.succ (fun q => ∃ page ∈ s.pages, InPage page q)
      (Block s' free' ((b + 1, n) :: live)))
    (paged : ∀ q k, Block s' free' ((b + 1, n) :: live) q k → q % pageUnits + k < pageUnits)
    (kept : ∀ q m, (q + 1, m) ∈ live → (s'.mem q).units = (s.mem q).units ∧ q ∉ free')
    (taken : b ∉ free') (inner : (b + 1) % pageUnits ≠ 0) (fits : n ≤ (s'.mem b).units * unit) :
    Layout s' free' ((b + 1, n) :: live) := by
  refine ⟨chain, pages ▸ tiles, paged, pages ▸ layout.aligned, ?_, ?_, ?_⟩
  · intro p m member
    rcases mem_cons.mp member with equal | member
    · obtain ⟨rfl, rfl⟩ := Prod.mk.inj equal
      exact ⟨b, rfl, inner, fits⟩
    · obtain ⟨q, rfl, room⟩ := layout.sized p m member
      exact ⟨q, rfl, by rw [(kept q m member).1]; exact room⟩
  · intro q m member
    rcases mem_cons.mp member with equal | member
    · obtain rfl : q = b := Nat.add_right_cancel (Prod.mk.inj equal).1
      exact taken
    · exact (kept q m member).2
  · rw [map_cons, nodup_cons]
    refine ⟨fun member => ?_, layout.once⟩
    obtain ⟨⟨p, m⟩, member, rfl⟩ := mem_map.mp member
    exact layout.exclusive b m member (by simp [listed])

theorem Layout.take (units : ∀ q, (s'.mem q).units = (s.mem q).units)
    (chain : Chain s'.next s'.head (before ++ after)) (inner : (b + 1) % pageUnits ≠ 0)
    (fits : n ≤ (s.mem b).units * unit) : Layout s' (before ++ after) ((b + 1, n) :: live) := by
  subst listed
  have same : ∀ q k, Block s' (before ++ after) ((b + 1, n) :: live) q k ↔
      Block s (before ++ b :: after) live q k := by
    intro q k
    simp only [Block, units, mem_append, mem_cons, Prod.mk.injEq, Nat.add_right_cancel_iff]
    refine and_congr_left fun _ => ?_
    grind
  have single : b ∉ before ++ after := (nodup_cons.mp (List.nodup_middle.mp layout.chain.nodup)).1
  refine layout.serve rfl pages chain (layout.tiles.congr same) ?_ ?_ single inner (by rwa [units])
  · exact fun q k block => layout.paged q k ((same q k).mp block)
  · intro q m member
    have absent := layout.exclusive q m member
    simp only [mem_append, mem_cons, not_or] at absent ⊢
    exact ⟨units q, absent.1, absent.2.2⟩

theorem Layout.takeFront {rest : Nat} (old : (s.mem b).units = units + 1 + rest)
    (cut : ∀ q, (s'.mem q).units = if q = b then units
      else if q = b + units + 1 then rest else (s.mem q).units)
    (chain : Chain s'.next s'.head (before ++ (b + units + 1) :: after)) (fits : n ≤ units * unit) :
    Layout s' (before ++ (b + units + 1) :: after) ((b + 1, n) :: live) := by
  subst listed
  have whole : Block s (before ++ b :: after) live b (units + 1 + rest) := ⟨.inl (by simp), old⟩
  -- the second header is new: it lies inside the block that is cut
  have fresh : ∀ k, ¬ Block s (before ++ b :: after) live (b + units + 1) k := by
    intro k block
    have := layout.apart whole block (by omega)
    omega
  have single : b ∉ before ++ after := (nodup_cons.mp (List.nodup_middle.mp layout.chain.nodup)).1
  have notLive : ∀ m, (b + 1, m) ∉ live := fun m member => layout.exclusive b m member (by simp)
  have unlisted : b + units + 1 ∉ before ++ b :: after := fun member => fresh _ ⟨.inl member, rfl⟩
  have unowned : ∀ m, (b + units + 1 + 1, m) ∉ live := fun m member => fresh _ ⟨.inr ⟨m, member⟩, rfl⟩
  have same : ∀ q k, Block s' (before ++ (b + units + 1) :: after) ((b + 1, n) :: live) q k ↔
      (Block s (before ++ b :: after) live q k ∧ ¬ (q = b ∧ k = units + 1 + rest)) ∨
        (q = b ∧ k = units) ∨ (q = b + Nat.succ units ∧ k = rest) := by
    intro q k
    simp only [Block, cut, mem_append, mem_cons, Prod.mk.injEq, Nat.add_right_cancel_iff,
      Nat.succ_eq_add_one, ← Nat.add_assoc]
    by_cases front : q = b
    · subst front
      simp [notLive, old]
      grind
    · by_cases back : q = b + units + 1
      · subst back
        have outside := fresh k
        simp only [Block, mem_append, mem_cons] at outside
        simp [front]
        grind
      · simp [front, back]
  have bound := layout.paged b _ whole
  have split :=
    layout.tiles.split whole (a := units) (b := rest) (by simp only [Nat.succ_eq_add_one]; omega)
  refine layout.serve rfl pages chain (split.congr same) ?_ ?_ ?_ (payload_inside (by omega))
    (by simpa [cut] using fits)
  · intro q k block
    rcases (same q k).mp block with ⟨block, -⟩ | ⟨rfl, rfl⟩ | ⟨rfl, rfl⟩
    · exact layout.paged q k block
    · omega
    · have split := Nat.add_mod b (Nat.succ units) pageUnits
      have small : b % pageUnits + Nat.succ units % pageUnits < pageUnits := by
        rw [Nat.mod_eq_of_lt (b := pageUnits) (a := Nat.succ units) (by omega)]
        omega
      rw [split, Nat.mod_eq_of_lt small, Nat.mod_eq_of_lt (b := pageUnits) (a := Nat.succ units) (by omega)]
      omega
  · intro q m member
    have absent := layout.exclusive q m member
    have notBack : q ≠ b + units + 1 := by
      rintro rfl
      exact unowned m member
    simp only [mem_append, mem_cons, not_or] at absent ⊢
    exact ⟨by rw [cut, if_neg absent.2.1, if_neg notBack], absent.1, notBack, absent.2.2⟩
  · simp only [mem_append, not_or] at single
    simp [single]
    omega

end

theorem morecore_units (s : State) (page q : Nat) :
    ((morecore s page).mem q).units = if q = page then 255 else (s.mem q).units := by
  simp [morecore, pageSize, unit]

theorem Layout.morecore (layout : Layout s free live) (aligned : pageUnits ∣ page)
    (fresh : page ∉ s.pages) : Layout (morecore s page) (page :: free) live := by
  -- pages are aligned, so a fresh one shares no unit with those before
  have disjoint : ∀ q, InPage page q → ¬ ∃ old ∈ s.pages, InPage old q := by
    rintro q ⟨low, high⟩ ⟨old, member, low', high'⟩
    obtain ⟨i, rfl⟩ := aligned
    obtain ⟨j, rfl⟩ := layout.aligned old member
    have units : pageUnits = 256 := rfl
    rw [units] at low high low' high'
    obtain rfl : i = j := by omega
    exact fresh member
  have outside : ∀ b k, Block s free live b k → ¬ InPage page b := by
    intro b k block inside
    exact disjoint b inside
      (layout.tiles.inside b k b block ⟨le_refl b, by simp only [Nat.succ_eq_add_one]; omega⟩)
  have here : InPage page page := ⟨le_refl page, Nat.lt_add_of_pos_right (by decide)⟩
  have units := morecore_units s page
  have notPage : ∀ b k, Block s free live b k → b ≠ page := by
    rintro b k block rfl
    exact outside b k block here
  have unlisted : page ∉ free := fun member => notPage page _ ⟨.inl member, rfl⟩ rfl
  have unowned : ∀ n, (page + 1, n) ∉ live := fun n member => notPage page _ ⟨.inr ⟨n, member⟩, rfl⟩ rfl
  have same : ∀ b k, Block (Slob.morecore s page) (page :: free) live b k ↔
      Block s free live b k ∨ (b = page ∧ k = 255) := by
    intro b k
    by_cases new : b = page
    · subst new
      simp [Block, units, unlisted, unowned, eq_comm]
    · simp [Block, units, new]
  constructor
  · refine ⟨rfl, ?_⟩
    have link : (Slob.morecore s page).next page = s.head := by simp [State.next, Slob.morecore]
    rw [link]
    apply layout.chain.frame
    intro b member
    simp [State.next, Slob.morecore, notPage b _ ⟨.inl member, rfl⟩]
  · have extended := layout.tiles.extend (s := page) (k := 255) disjoint
    refine (extended.congr same).congr_region fun q => ?_
    have last : InPage page q ↔ Within Nat.succ page 255 q := Iff.rfl
    simp only [Slob.morecore, mem_cons, exists_eq_or_imp, last]
    exact or_comm
  · intro b k block
    rcases (same b k).mp block with block | ⟨rfl, rfl⟩
    · exact layout.paged b k block
    · rw [Nat.mod_eq_zero_of_dvd aligned]
      decide
  · intro old member
    rcases mem_cons.mp member with rfl | member
    · exact aligned
    · exact layout.aligned old member
  · intro p n member
    obtain ⟨b, rfl, inner, fits⟩ := layout.sized p n member
    exact ⟨b, rfl, inner, by rw [units, if_neg (notPage b _ ⟨.inr ⟨n, member⟩, rfl⟩)]; exact fits⟩
  · intro b n member listed
    rcases mem_cons.mp listed with rfl | listed
    · exact unowned n member
    · exact layout.exclusive b n member listed
  · exact layout.once

theorem Layout.release (layout : Layout s free live) (member : (b + 1, n) ∈ live) :
    Layout { s with head := some b, mem := setNext s.mem b s.head } (b :: free)
      (live.erase (b + 1, n)) := by
  have unlisted : b ∉ free := layout.exclusive b n member
  have liveOnce : live.Nodup := List.Nodup.of_map _ layout.once
  -- a live pointer occurs once, so erasing it leaves no entry for its block
  have gone : ∀ q m, (q + 1, m) ∈ live.erase (b + 1, n) ↔ q ≠ b ∧ (q + 1, m) ∈ live := by
    intro q m
    rw [liveOnce.mem_erase_iff]
    constructor
    · rintro ⟨other, found⟩
      refine ⟨?_, found⟩
      rintro rfl
      exact other (List.inj_on_of_nodup_map layout.once found member rfl)
    · rintro ⟨other, found⟩
      exact ⟨by simp [other], found⟩
  have same : ∀ q k, Block { s with head := some b, mem := setNext s.mem b s.head } (b :: free)
      (live.erase (b + 1, n)) q k ↔ Block s free live q k := by
    intro q k
    simp only [Block, setNext_units, mem_cons, gone]
    refine and_congr_left fun _ => ?_
    by_cases here : q = b
    · subst here
      simp only [true_or, true_iff]
      exact .inr ⟨n, member⟩
    · simp [here]
  constructor
  · refine ⟨rfl, ?_⟩
    simp only [State.next, setNext_next, if_true]
    apply layout.chain.frame
    intro q listed
    have apart : q ≠ b := by
      rintro rfl
      exact unlisted listed
    simp [State.next, apart]
  · exact layout.tiles.congr same
  · exact fun q k block => layout.paged q k ((same q k).mp block)
  · exact layout.aligned
  · intro p m found
    obtain ⟨q, rfl, room⟩ := layout.sized p m (List.mem_of_mem_erase found)
    exact ⟨q, rfl, by simpa using room⟩
  · intro q m found listed
    rcases mem_cons.mp listed with rfl | listed
    · exact ((gone q m).mp found).1 rfl
    · exact layout.exclusive q m ((gone q m).mp found).2 listed
  · exact layout.once.sublist (List.erase_sublist.map Prod.fst)

/-! ## The functions of the allocator -/

/-- The search stops at the first block that is large enough, and hands over its
predecessor on the list. -/
theorem findFit_spec {found : Option (Option Nat × Nat)}
    (chain : Chain (fun b => (mem b).next) start l)
    (ran : findFit mem units passes prev start = .ok found) :
    match found with
    | none => ∀ b ∈ l, (mem b).units < units
    | some (prev', b) => units ≤ (mem b).units ∧ ∃ before after, l = before ++ b :: after ∧
        (∀ a ∈ before, (mem a).units < units) ∧
        (before = [] ∧ prev' = prev ∨ ∃ front a, before = front ++ [a] ∧ prev' = some a) := by
  induction passes generalizing prev start l with
  | zero =>
    cases l with
    | nil =>
      rw [chain_nil.mp chain] at ran
      cases ran
      simp
    | cons b rest =>
      rw [chain.1] at ran
      simp [findFit] at ran
  | succ passes ih =>
    cases l with
    | nil =>
      rw [chain_nil.mp chain] at ran
      cases ran
      simp
    | cons b rest =>
      rw [chain.1] at ran
      unfold findFit at ran
      split at ran
      case isTrue large =>
        cases ran
        exact ⟨by omega, [], rest, rfl, by simp, .inl ⟨rfl, rfl⟩⟩
      case isFalse small =>
        have further := ih chain.2 ran
        cases found with
        | none =>
          intro q member
          rcases mem_cons.mp member with rfl | member
          · omega
          · exact further q member
        | some result =>
          obtain ⟨prev', q⟩ := result
          obtain ⟨large, before, after, rfl, skipped, position⟩ := further
          refine ⟨large, b :: before, after, rfl, ?_, .inr ?_⟩
          · rw [List.forall_mem_cons]
            exact ⟨by omega, skipped⟩
          rcases position with ⟨rfl, rfl⟩ | ⟨front, a, rfl, rfl⟩
          · exact ⟨[], b, rfl, rfl⟩
          · exact ⟨b :: front, a, rfl, rfl⟩

theorem findFit_ends (units : Nat) (prev : Option Nat)
    (chain : Chain (fun b => (mem b).next) start l) (enough : l.length ≤ passes) :
    ∃ found, findFit mem units passes prev start = .ok found := by
  induction passes generalizing prev start l with
  | zero =>
    obtain rfl : l = [] := List.eq_nil_of_length_eq_zero (by omega)
    rw [chain_nil.mp chain]
    exact ⟨none, rfl⟩
  | succ passes ih =>
    cases l with
    | nil =>
      rw [chain_nil.mp chain]
      exact ⟨none, rfl⟩
    | cons b rest =>
      rw [chain.1]
      unfold findFit
      split
      · exact ⟨_, rfl⟩
      · exact ih (some b) chain.2 (by simpa using enough)

theorem takeWhole_spec (layout : Layout s free live) {front : List Nat} {a : Nat}
    (listed : free = front ++ a :: b :: after) (positive : 0 < (s.mem b).units)
    (fits : n ≤ (s.mem b).units * unit) :
    Layout (takeWhole s (some a) b) (front ++ a :: after) ((b + 1, n) :: live) := by
  have chain : Chain (takeWhole s (some a) b).next (takeWhole s (some a) b).head (front ++ a :: after) := by
    apply (listed ▸ layout.chain).unlink.frame
    intro q _
    by_cases here : q = a <;> simp [State.next, takeWhole, here]
  have split : free = (front ++ [a]) ++ b :: after := by simp [listed]
  have units : ∀ q, ((takeWhole s (some a) b).mem q).units = (s.mem q).units := by simp [takeWhole]
  have pages : (takeWhole s (some a) b).pages = s.pages := rfl
  have bound := layout.paged b _ ⟨.inl (by simp [listed]), rfl⟩
  have taken := layout.take split pages units (by simpa using chain) (payload_inside (by omega)) fits
  simpa using taken

theorem takeFront_units (s : State) (prev : Option Nat) (b units q : Nat) :
    ((takeFront s prev b units).mem q).units = if q = b then units
      else if q = b + units + 1 then (s.mem b).units - units - 1 else (s.mem q).units := by
  cases prev <;> simp [takeFront]

theorem takeFront_next (s : State) (prev : Option Nat) (b units q : Nat) :
    (takeFront s prev b units).next q = if prev = some q then some (b + units + 1)
      else if q = b + units + 1 then s.next b else s.next q := by
  cases prev with
  | none => simp [takeFront, State.next]
  | some a => simp [takeFront, State.next, eq_comm]

theorem takeFront_spec (layout : Layout s free live) (listed : free = before ++ b :: after)
    (position : before = [] ∧ prev = none ∨ ∃ front a, before = front ++ [a] ∧ prev = some a)
    (larger : units < (s.mem b).units) (fits : n ≤ units * unit) :
    Layout (takeFront s prev b units) (before ++ (b + units + 1) :: after) ((b + 1, n) :: live) := by
  have pages : (takeFront s prev b units).pages = s.pages := by cases prev <;> rfl
  have fresh : b + units + 1 ∉ free := by
    intro member
    have := layout.apart ⟨.inl (by simp [listed]), rfl⟩ ⟨.inl member, rfl⟩
      (show b < b + units + 1 by omega)
    omega
  have old : (s.mem b).units = units + 1 + ((s.mem b).units - units - 1) := by omega
  refine layout.takeFront listed pages old (takeFront_units s prev b units) ?_ fits
  subst listed
  rcases position with ⟨rfl, rfl⟩ | ⟨front, a, rfl, rfl⟩
  · refine ⟨rfl, ?_⟩
    rw [takeFront_next, if_neg (by simp), if_pos rfl]
    apply layout.chain.2.frame
    intro q member
    have apart : q ≠ b + units + 1 := by
      rintro rfl
      exact fresh (by simp [member])
    rw [takeFront_next, if_neg (by simp), if_neg apart]
  · -- the predecessor skips the block and then points to the rest of it
    simp only [List.append_assoc, List.singleton_append] at layout fresh ⊢
    have absent : b + units + 1 ∉ front ++ a :: after := by
      simp only [mem_append, mem_cons, not_or] at fresh ⊢
      exact ⟨fresh.1, fresh.2.1, fresh.2.2.2⟩
    apply (layout.chain.unlink.insert absent).frame
    intro q _
    rw [takeFront_next]
    by_cases first : q = a
    · simp [first]
    · have other : some a ≠ some q := by simpa [eq_comm] using first
      rw [if_neg other, Function.update_of_ne first]
      by_cases rest : q = b + units + 1
      · simp [rest]
      · rw [if_neg rest, Function.update_of_ne rest, Function.update_of_ne first]

/-- Requests for `n` bytes that an exactly fitting block at the head of the free
list would serve: the head fits, or the page that `morecore` is about to put
there does. -/
def ExactAtHead (s : State) (n : Nat) : Prop :=
  (∃ b, s.head = some b ∧ (s.mem b).units = divRoundUp n unit) ∨
    divRoundUp n unit = 255 ∧ ∀ free, Chain s.next s.head free → ∀ b ∈ free, (s.mem b).units < 255

theorem divRoundUp_unit (small : n < bigAlloc) :
    n ≤ divRoundUp n unit * unit ∧ divRoundUp n unit ≤ 255 := by
  simp only [divRoundUp, unit, bigAlloc, pageSize] at *
  omega

theorem place_spec (layout : Layout s free live)
    (ran : findFit s.mem units passes none s.head = .ok (some (prev, b)))
    (notHead : ∀ b, s.head = some b → (s.mem b).units ≠ units) (fits : n ≤ units * unit) :
    ∃ free', Layout (if (s.mem b).units = units then takeWhole s prev b else takeFront s prev b units)
      free' ((b + 1, n) :: live) := by
  obtain ⟨large, before, after, listed, skipped, position⟩ := findFit_spec layout.chain ran
  split
  case isTrue exact =>
    rcases position with ⟨rfl, rfl⟩ | ⟨front, a, rfl, rfl⟩
    · exact absurd exact (notHead b (by simp [layout.chain.start_eq, listed]))
    · -- the block before was too small, so this one is not empty
      have smaller := skipped a (by simp)
      exact ⟨_, takeWhole_spec layout (by simpa using listed) (by omega) (by rw [exact]; exact fits)⟩
  case isFalse other =>
    exact ⟨_, takeFront_spec layout listed position (by omega) fits⟩

theorem allocLoop_cases (ran : allocLoop passes units s supply = .ok (p, s')) :
    (∃ prev b, findFit s.mem units passes none s.head = .ok (some (prev, b)) ∧ p = b + 1 ∧
      s' = if (s.mem b).units = units then takeWhole s prev b else takeFront s prev b units) ∨
    ∃ page rest, supply = page :: rest ∧ findFit s.mem units passes none s.head = .ok none ∧
      allocLoop passes units (morecore s page) rest = .ok (p, s') := by
  unfold allocLoop at ran
  split at ran
  case h_1 fault stopped => simp at ran
  case h_2 prev b found =>
    left
    refine ⟨prev, b, found, ?_⟩
    split at ran
    case isTrue exact =>
      cases ran
      simp [exact]
    case isFalse other =>
      cases ran
      simp [other]
  case h_3 none =>
    cases supply with
    | nil => simp at ran
    | cons page rest => exact .inr ⟨page, rest, rfl, none, ran⟩

/-- A request that no exact fit at the head serves takes one block off the list. -/
theorem kmalloc_spec (layout : Layout s free live) (ran : kmalloc passes s n supply = .ok (p, s'))
    (notHead : ¬ ExactAtHead s n) (aligned : ∀ page ∈ supply, pageUnits ∣ page)
    (fresh : ∀ page ∈ supply, page ∉ s.pages) : ∃ free', Layout s' free' ((p, n) :: live) := by
  simp only [kmalloc, slobAlloc] at ran
  split at ran
  case isFalse large => simp at ran
  case isTrue small =>
    obtain ⟨fits, bound⟩ := divRoundUp_unit small
    obtain ⟨offHead, offPage⟩ := not_or.mp notHead
    rcases allocLoop_cases ran with ⟨prev, b, found, rfl, rfl⟩ | ⟨page, rest, rfl, missed, again⟩
    · exact place_spec layout found (fun q head units => offHead ⟨q, head, units⟩) fits
    · -- nothing fits, so the loop goes round once more with a fresh page at the head
      have tooSmall := findFit_spec layout.chain missed
      have extended := layout.morecore (aligned page (by simp)) (fresh page (by simp))
      have pageSized : ((morecore s page).mem page).units = 255 := by simp [morecore_units]
      have pageLarger : divRoundUp n unit < 255 := by
        refine lt_of_le_of_ne bound fun full => offPage ⟨full, ?_⟩
        intro l chain b member
        rw [← full]
        exact tooSmall b (layout.chain.functional chain ▸ member)
      rcases allocLoop_cases again with ⟨prev, b, found, rfl, rfl⟩ | ⟨_, _, -, missed, -⟩
      · refine place_spec extended found ?_ fits
        intro b head
        obtain rfl : page = b := Option.some.inj head
        omega
      · have := findFit_spec extended.chain missed page (by simp)
        omega

/-- With enough passes and one page to be had, every small request is served. -/
theorem kmalloc_returns (layout : Layout s free live) {rest : List Nat}
    (enough : free.length < passes) (small : n < bigAlloc) (aligned : pageUnits ∣ page)
    (fresh : page ∉ s.pages) : ∃ p s', kmalloc passes s n (page :: rest) = .ok (p, s') := by
  have place : ∀ (t : State) (prev : Option Nat) (b units : Nat),
      ∃ p t', (if (t.mem b).units = units then
        (.ok (b + 1, takeWhole t prev b) : Except Fault (Nat × State))
        else .ok (b + 1, takeFront t prev b units)) = .ok (p, t') := by
    intro t prev b units
    split
    · exact ⟨_, _, rfl⟩
    · exact ⟨_, _, rfl⟩
  simp only [kmalloc, slobAlloc, if_pos small]
  obtain ⟨found, first⟩ := findFit_ends (divRoundUp n unit) none layout.chain (le_of_lt enough)
  unfold allocLoop
  rw [first]
  cases found with
  | some result => exact place s result.1 result.2 _
  | none =>
    have extended := layout.morecore aligned fresh
    obtain ⟨found, second⟩ := findFit_ends (divRoundUp n unit) none extended.chain enough
    simp only
    unfold allocLoop
    rw [second]
    cases found with
    | some result => exact place _ result.1 result.2 _
    | none =>
      have tooSmall := findFit_spec extended.chain second page (by simp)
      have bound := (divRoundUp_unit small).2
      rw [morecore_units, if_pos rfl] at tooSmall
      omega

theorem kfree_spec (layout : Layout s free live) (member : (p, n) ∈ live) :
    ∃ s', kfree s p = .ok s' ∧ ∃ free', Layout s' free' (live.erase (p, n)) := by
  obtain ⟨b, rfl, inner, fits⟩ := layout.sized p n member
  -- the payload starts inside the page, so the pointer is not at a page boundary
  have unaligned : isAlignPow2 ((b + 1) * unit) 12 = false := by
    have units : pageUnits = 256 := rfl
    rw [Bool.eq_false_iff, ne_eq, isAlignPow2_iff]
    rintro ⟨m, page⟩
    simp only [unit] at page
    rw [units] at inner
    omega
  have outside : ∀ q, ¬ (b + 1 ≤ q ∧ q < b + 1 + (s.mem b).units) →
      fill s.mem (b + 1) (s.mem b).units q = s.mem q := fun q outside => if_neg outside
  have filled := layout.write member outside
  refine ⟨_, by simp only [kfree, slobFree, unaligned]; rfl, b :: free, ?_⟩
  have same : fill (setNext s.mem b s.head) (b + 1) (s.mem b).units =
      setNext (fill s.mem (b + 1) (s.mem b).units) b s.head := by
    funext q
    by_cases here : q = b
    · subst here
      simp [fill, setNext]
    · simp [fill, setNext, here]
  simpa [same] using filled.release member

end

/-! ## Runs -/

/-- The calls and writes of the kernel on the allocator and the list of live
allocations; `allowed` restricts the requests that are made. -/
inductive Call (allowed : State → Nat → Prop) :
    State × List (Nat × Nat) → State × List (Nat × Nat) → Prop where
  | kmalloc {s s' : State} {live : List (Nat × Nat)} {passes n p : Nat} {supply : List Nat} :
      n < bigAlloc → (∀ page ∈ supply, pageUnits ∣ page ∧ page ∉ s.pages) → allowed s n →
      kmalloc passes s n supply = .ok (p, s') → Call allowed (s, live) (s', (p, n) :: live)
  | kfree {s s' : State} {live : List (Nat × Nat)} {p n : Nat} :
      (p, n) ∈ live → kfree s p = .ok s' → Call allowed (s, live) (s', live.erase (p, n))
  | write {s : State} {live : List (Nat × Nat)} {p n : Nat} {mem : Nat → Header} :
      (p, n) ∈ live → (∀ q, ¬ (p ≤ q ∧ q < p + divRoundUp n unit) → mem q = s.mem q) →
      Call allowed (s, live) ({ s with mem := mem }, live)

/-- The same without requests for no bytes. -/
abbrev Step (allowed : State → Nat → Prop) := Call fun s n => 0 < n ∧ allowed s n

def State.Fresh (s : State) : Prop := s.head = none ∧ s.pages = []

def Invariant (state : State × List (Nat × Nat)) : Prop := ∃ free, Layout state.1 free state.2

variable {s : State}

theorem State.Fresh.layout (fresh : s.Fresh) : Layout s [] [] where
  chain := fresh.1
  tiles := by
    have blocks : ∀ b k, Block s [] [] b k ↔ False := by simp [Block]
    refine (tiles_empty.congr blocks).congr_region fun q => ?_
    simp [fresh.2]
  paged b k block := by simp [Block] at block
  aligned page member := by simp [fresh.2] at member
  sized p n member := by simp at member
  exclusive b n member := by simp at member
  once := by simp

variable {first last : State × List (Nat × Nat)} {allowed : State → Nat → Prop}

theorem Call.invariant (safe : ∀ s n, allowed s n → ¬ ExactAtHead s n)
    (call : Call allowed first last) (holds : Invariant first) : Invariant last := by
  obtain ⟨free, layout⟩ := holds
  cases call with
  | kmalloc _ supplied permitted ran =>
    exact kmalloc_spec layout ran (safe _ _ permitted) (fun page member => (supplied page member).1)
      fun page member => (supplied page member).2
  | kfree member ran =>
    obtain ⟨s', same, released⟩ := kfree_spec layout member
    rw [same, Except.ok.injEq] at ran
    exact ran ▸ released
  | write member agree =>
    obtain ⟨b, rfl, -, fits⟩ := layout.sized _ _ member
    refine ⟨free, layout.write member fun q outside => agree q ?_⟩
    simp only [divRoundUp, unit] at fits outside ⊢
    omega

theorem step_invariant (step : Step (fun s n => ¬ ExactAtHead s n) first last)
    (holds : Invariant first) : Invariant last :=
  Call.invariant (fun _ _ permitted => permitted.2) step holds

def FreeBlock (s : State) (b : Nat) : Prop := ∃ free, Chain s.next s.head free ∧ b ∈ free

def LiveBlock (live : List (Nat × Nat)) (b : Nat) : Prop := ∃ n, (b + 1, n) ∈ live

/-- Every page is tiled exactly by blocks of one header unit and their payload,
each free or live but not both, and no two live allocations share a byte. -/
structure Partition (s : State) (live : List (Nat × Nat)) : Prop where
  walk : ∃ free, Chain s.next s.head free ∧ free.Nodup
  tiles : ∀ page ∈ s.pages, Tiles Nat.succ (InPage page) fun b k =>
    InPage page b ∧ (FreeBlock s b ∨ LiveBlock live b) ∧ (s.mem b).units = k
  owned : ∀ b, FreeBlock s b ∨ LiveBlock live b → ∃ page ∈ s.pages, InPage page b
  sized : ∀ p n, (p, n) ∈ live → ∃ b, p = b + 1 ∧ n ≤ (s.mem b).units * unit
  exclusive : ∀ b, LiveBlock live b → ¬ FreeBlock s b
  once : (live.map Prod.fst).Nodup
  disjoint : ∀ p n p' n', (p, n) ∈ live → (p', n') ∈ live → p ≠ p' →
    p * unit + n ≤ p' * unit ∨ p' * unit + n' ≤ p * unit

variable {live : List (Nat × Nat)}

theorem Layout.partition {free : List Nat} (layout : Layout s free live) : Partition s live := by
  have listed : ∀ b, FreeBlock s b ↔ b ∈ free := by
    intro b
    constructor
    · rintro ⟨l, chain, member⟩
      rwa [layout.chain.functional chain]
    · exact fun member => ⟨free, layout.chain, member⟩
  have block : ∀ b k, (FreeBlock s b ∨ LiveBlock live b) ∧ (s.mem b).units = k ↔ Block s free live b k :=
    fun b k => and_congr_left fun _ => or_congr_left (listed b)
  have starts : ∀ b k, Within Nat.succ b k b := fun b k =>
    ⟨le_refl b, by simp only [Nat.succ_eq_add_one]; omega⟩
  constructor
  · exact ⟨free, layout.chain, layout.chain.nodup⟩
  · intro page member
    obtain ⟨i, rfl⟩ := layout.aligned page member
    -- a block does not cross the end of its page
    have stays : ∀ b k q, Block s free live b k → Within Nat.succ b k q →
        (InPage (pageUnits * i) b ↔ InPage (pageUnits * i) q) := by
      intro b k q found within
      have bound := layout.paged b k found
      have units : pageUnits = 256 := rfl
      simp only [InPage, Within, units, Nat.succ_eq_add_one] at *
      omega
    simp only [block]
    constructor
    · rintro b k q ⟨inside, found⟩ within
      exact (stays b k q found within).mp inside
    · intro q inside
      obtain ⟨b, k, found, within⟩ := layout.tiles.cover q ⟨_, member, inside⟩
      exact ⟨b, k, ⟨(stays b k q found within).mpr inside, found⟩, within⟩
    · rintro b k b' k' q ⟨-, found⟩ ⟨-, found'⟩
      exact layout.tiles.apart b k b' k' q found found'
  · intro b either
    exact layout.tiles.inside b _ b ((block b _).mp ⟨either, rfl⟩) (starts b _)
  · intro p n member
    obtain ⟨b, same, -, fits⟩ := layout.sized p n member
    exact ⟨b, same, fits⟩
  · rintro b ⟨n, member⟩ found
    exact layout.exclusive b n member ((listed b).mp found)
  · exact layout.once
  · intro p n p' n' member member' different
    obtain ⟨b, rfl, -, fits⟩ := layout.sized p n member
    obtain ⟨b', rfl, -, fits'⟩ := layout.sized p' n' member'
    have here : Block s free live b _ := ⟨.inr ⟨n, member⟩, rfl⟩
    have there : Block s free live b' _ := ⟨.inr ⟨n', member'⟩, rfl⟩
    simp only [unit] at fits fits' ⊢
    rcases Nat.lt_or_ge b b' with below | above
    · have := layout.apart here there below
      omega
    · have := layout.apart there here (by omega)
      omega

/-- Runs in which no request is served by an exact fit at the head of the free
list keep the partition, and in them every small request and every free of a
live pointer returns. -/
theorem slob_partition {s₀ : State} (fresh : s₀.Fresh)
    (run : Reaches (Step fun s n => ¬ ExactAtHead s n) (s₀, []) (s, live)) :
    Partition s live ∧
      (∀ n page, n < bigAlloc → pageUnits ∣ page → page ∉ s.pages →
        ∃ passes p s', kmalloc passes s n [page] = .ok (p, s')) ∧
      ∀ p n, (p, n) ∈ live → ∃ s', kfree s p = .ok s' := by
  have holds : Invariant (s, live) :=
    run.invariant Invariant ⟨[], fresh.layout⟩ fun _ _ _ step holds => step_invariant step holds
  obtain ⟨free, layout⟩ := holds
  refine ⟨layout.partition, ?_, ?_⟩
  · intro n page small aligned unused
    exact ⟨_, kmalloc_returns layout (Nat.lt_succ_self _) small aligned unused⟩
  · intro p n member
    obtain ⟨s', ran, -⟩ := kfree_spec layout member
    exact ⟨s', ran⟩

def blank : State := ⟨none, fun _ => ⟨none, 0⟩, []⟩

theorem blank_request (permitted : allowed blank 16) :
    Step allowed (blank, []) (takeFront (morecore blank 256) none 256 1, [(257, 16)]) := by
  refine @Call.kmalloc _ blank _ [] 1 16 257 [256] (by decide) ?_ ⟨by decide, permitted⟩ rfl
  simp [blank, pageUnits, pageSize, unit]

theorem blank_not_exact : ¬ ExactAtHead blank 16 := by simp [ExactAtHead, blank, divRoundUp, unit]

/-- One request from a blank allocator cuts the fresh page after its first two units. -/
theorem slob_partition_one_request : ∃ s, kmalloc 1 blank 16 [256] = .ok (257, s) ∧
    Partition s [(257, 16)] := by
  refine ⟨takeFront (morecore blank 256) none 256 1, rfl, ?_⟩
  exact (slob_partition ⟨rfl, rfl⟩ (.single (blank_request blank_not_exact))).1

/-- After a request, its free and two more requests of the same size, one block
is live twice. -/
theorem kmalloc_exact_fit_aliases : ∃ s, Reaches (Step fun _ _ => True) (blank, [])
    (s, [(257, 16), (257, 16)]) ∧ ¬ Partition s [(257, 16), (257, 16)] := by
  let first := takeFront (morecore blank 256) none 256 1
  let freed : State :=
    { first with head := some 256, mem := fill (setNext first.mem 256 first.head) 257 1 }
  have request : Step (fun _ _ => True) (blank, []) (first, [(257, 16)]) := blank_request trivial
  have release : Step (fun _ _ => True) (first, [(257, 16)]) (freed, []) :=
    .kfree (p := 257) (n := 16) (by simp) rfl
  -- the block at the head fits exactly, so neither request changes anything
  have again : ∀ live, Step (fun _ _ => True) (freed, live) (freed, (257, 16) :: live) := fun live =>
    @Call.kmalloc _ freed _ live 1 16 257 [] (by decide) (by simp) ⟨by decide, trivial⟩ rfl
  refine ⟨freed, ?_, ?_⟩
  · exact (((Relation.ReflTransGen.single request).tail release).tail (again [])).tail (again _)
  · intro partition
    simpa using partition.once

/-- A request that an exact fit at the head serves always breaks the partition:
the block it returns stays on the free list. -/
theorem exactAtHead_breaks {s' : State} (head : s.head = some b)
    (exact : (s.mem b).units = divRoundUp n unit) (ran : kmalloc passes s n supply = .ok (p, s')) :
    ¬ Partition s' ((p, n) :: live) := by
  have found : s' = s ∧ p = b + 1 := by
    simp only [kmalloc, slobAlloc] at ran
    split at ran
    case isFalse large => simp at ran
    case isTrue small =>
      unfold allocLoop at ran
      cases passes with
      | zero => simp [findFit, head] at ran
      | succ passes =>
        simp only [findFit, head, exact, true_or, if_true, takeWhole, Except.ok.injEq, Prod.mk.injEq] at ran
        obtain ⟨rfl, rfl⟩ := ran
        exact ⟨by rw [← head], rfl⟩
  obtain ⟨rfl, rfl⟩ := found
  intro partition
  obtain ⟨free, chain, -⟩ := partition.walk
  refine partition.exclusive b ⟨n, by simp⟩ ⟨free, chain, ?_⟩
  have first : free.head? = some b := by rw [← chain.start_eq, head]
  exact List.mem_of_mem_head? first

end ByteOS.Mm.Slob
