import ByteOS.Mm.SlobPartition

/-! When the search of the slob allocator ends, and which pointers it hands out.

A block that an exact fit at the head hands out is still on the free list. Freeing it
links it to itself, and the search never ends; and if it is the empty remainder at the
very end of a page, its payload starts at a page boundary, which `slob_free` takes for
the mark of a large allocation.
-/

set_option autoImplicit false

namespace ByteOS.Mm.Slob

open ByteOS.Lib

section Search

variable {s s' : State} {free : List Nat} {live : List (Nat × Nat)}

/-- A search that finds nothing obtains a page, and then that page is large enough. -/
theorem kmalloc_pages (layout : Layout s free live) {passes n p page : Nat} {rest : List Nat}
    (aligned : pageUnits ∣ page) (fresh : page ∉ s.pages)
    (ran : kmalloc passes s n (page :: rest) = .ok (p, s')) :
    s'.pages = s.pages ∨ s'.pages = page :: s.pages := by
  have placed : ∀ (t : State) (prev : Option Nat) (b units : Nat),
      (if (t.mem b).units = units then takeWhole t prev b else takeFront t prev b units).pages =
        t.pages := by
    intro t prev b units
    split
    · cases prev <;> rfl
    · cases prev <;> rfl
  simp only [kmalloc, slobAlloc] at ran
  split at ran
  case isFalse large => simp at ran
  case isTrue small =>
    obtain ⟨prev, b, -, -, rfl⟩ | ⟨_, _, same, -, again⟩ := allocLoop_cases ran
    · exact .inl (placed s prev b _)
    · obtain ⟨rfl, rfl⟩ := List.cons.inj same
      obtain ⟨prev, b, -, -, rfl⟩ | ⟨_, _, -, missed, -⟩ := allocLoop_cases again
      · exact .inr (placed (morecore s page) prev b _)
      · have tooSmall := findFit_spec (layout.morecore aligned fresh).chain missed page (by simp)
        have bound := (divRoundUp_unit small).2
        rw [morecore_units, if_pos rfl] at tooSmall
        omega

/-- As long as no request is served by an exact fit at the head, the free list ends, and so
does every search in it, with at most one fresh page. -/
theorem slob_search_ends {s₀ : State} (fresh : s₀.Fresh)
    (run : Reaches (Step fun s n => ¬ ExactAtHead s n) (s₀, []) (s, live)) :
    (∃ free, Chain s.next s.head free ∧ free.Nodup) ∧
      ∀ n page rest, n < bigAlloc → pageUnits ∣ page → page ∉ s.pages →
        ∃ passes p s', kmalloc passes s n (page :: rest) = .ok (p, s') ∧
          (s'.pages = s.pages ∨ s'.pages = page :: s.pages) := by
  obtain ⟨free, layout⟩ : Invariant (s, live) :=
    run.invariant Invariant ⟨[], fresh.layout⟩ fun _ _ _ step holds => step_invariant step holds
  refine ⟨⟨free, layout.chain, layout.chain.nodup⟩, fun n page rest small aligned unused => ?_⟩
  obtain ⟨p, s', ran⟩ := kmalloc_returns layout (Nat.lt_succ_self _) small aligned unused
  exact ⟨_, p, s', ran, kmalloc_pages layout aligned unused ran⟩

theorem findFit_self {mem : Nat → Header} {b units : Nat} (loop : (mem b).next = some b)
    (smaller : (mem b).units < units) (passes : Nat) (prev : Option Nat) :
    findFit mem units passes prev (some b) = .error .unfinished := by
  induction passes generalizing prev with
  | zero => rfl
  | succ passes ih =>
    rw [findFit, if_neg (by omega), loop]
    exact ih (some b)

end Search

def afterRequest : State := takeFront (morecore blank 256) none 256 1

def afterFree : State :=
  { afterRequest with head := some 256, mem := fill (setNext afterRequest.mem 256 afterRequest.head) 257 1 }

theorem afterFree_reached : Reaches (Step fun _ _ => True) (blank, []) (afterFree, []) := by
  have request : Step (fun _ _ => True) (blank, []) (afterRequest, [(257, 16)]) := blank_request trivial
  have release : Step (fun _ _ => True) (afterRequest, [(257, 16)]) (afterFree, []) :=
    @Call.kfree _ afterRequest afterFree [(257, 16)] 257 16 (by simp) rfl
  exact (Relation.ReflTransGen.single request).tail release

theorem slob_search_ends_one_request :
    ∃ passes p s', kmalloc passes afterRequest 32 [512] = .ok (p, s') := by
  have run : Reaches (Step fun s n => ¬ ExactAtHead s n) (blank, []) (afterRequest, [(257, 16)]) :=
    .single (blank_request blank_not_exact)
  obtain ⟨passes, p, s', ran, -⟩ :=
    (slob_search_ends ⟨rfl, rfl⟩ run).2 32 512 [] (by decide) (by decide) (by decide)
  exact ⟨passes, p, s', ran⟩

/-- The second request for the freed block leaves it on the list, and freeing it again links
it to itself. The search for anything larger then goes round for ever. -/
theorem slob_search_loops : ∃ s, Reaches (Step fun _ _ => True) (blank, []) (s, []) ∧
    (¬ ∃ free, Chain s.next s.head free) ∧
    ∀ passes supply, kmalloc passes s 32 supply = .error .unfinished := by
  let looped : State :=
    { afterFree with head := some 256, mem := fill (setNext afterFree.mem 256 afterFree.head) 257 1 }
  have again : Step (fun _ _ => True) (afterFree, []) (afterFree, [(257, 16)]) :=
    @Call.kmalloc _ afterFree _ [] 1 16 257 [] (by decide) (by simp) ⟨by decide, trivial⟩ rfl
  have release : Step (fun _ _ => True) (afterFree, [(257, 16)]) (looped, []) :=
    @Call.kfree _ afterFree looped [(257, 16)] 257 16 (by simp) rfl
  have loop : looped.next 256 = some 256 := rfl
  refine ⟨looped, (afterFree_reached.tail again).tail release, ?_, fun passes supply => ?_⟩
  · rintro ⟨free, chain⟩
    cases free with
    | nil => simp [looped] at chain
    | cons b rest =>
      obtain rfl : 256 = b := Option.some.inj chain.1
      have tail := chain.2
      rw [loop] at tail
      have lengths := congrArg List.length (Chain.functional chain tail)
      simp at lengths
  · have stuck : findFit looped.mem 2 passes none (some 256) = .error .unfinished :=
      findFit_self loop (by decide) passes none
    have units : divRoundUp 32 unit = 2 := rfl
    have head : looped.head = some 256 := rfl
    rw [kmalloc, slobAlloc, if_pos (by decide), units]
    unfold allocLoop
    rw [head, stuck]

/-! ## Pointers -/

/-- A pointer as `kfree` needs it: in bytes, its allocation is aligned and lies inside one
page of the allocator, and the pointer is not at a page boundary. -/
structure Acceptable (s : State) (p n : Nat) : Prop where
  aligned : unit ∣ p * unit
  inside : ∃ page ∈ s.pages, page * unit ≤ p * unit ∧ p * unit + n ≤ page * unit + pageSize
  boundary : ¬ pageSize ∣ p * unit

variable {live : List (Nat × Nat)} {s : State}

theorem Layout.acceptable {free : List Nat} (layout : Layout s free live)
    {p n : Nat} (member : (p, n) ∈ live) : Acceptable s p n := by
  obtain ⟨b, rfl, inner, fits⟩ := layout.sized p n member
  have here : Block s free live b _ := ⟨.inr ⟨n, member⟩, rfl⟩
  obtain ⟨page, owned, low, high⟩ :=
    layout.tiles.inside b _ b here ⟨le_refl b, by simp only [Nat.succ_eq_add_one]; omega⟩
  obtain ⟨i, rfl⟩ := layout.aligned page owned
  have bound := layout.paged b _ here
  refine ⟨Nat.dvd_mul_left unit (b + 1), ⟨_, owned, ?_, ?_⟩, ?_⟩
  · simp only [pageUnits, pageSize, unit] at *
    omega
  · simp only [pageUnits, pageSize, unit] at *
    omega
  · simp only [pageUnits, pageSize, unit] at *
    omega

/-- As long as no request, for no bytes or more, is served by an exact fit at the head, every
pointer that is handed out is accepted by `kfree`. -/
theorem kmalloc_pointers_accepted {s₀ : State} (fresh : s₀.Fresh)
    (run : Reaches (Call fun s n => ¬ ExactAtHead s n) (s₀, []) (s, live)) :
    (∀ p n, (p, n) ∈ live → Acceptable s p n ∧ ∃ s', kfree s p = .ok s') ∧
      ∀ passes n p s' supply, n < bigAlloc → (∀ page ∈ supply, pageUnits ∣ page ∧ page ∉ s.pages) →
        ¬ ExactAtHead s n → kmalloc passes s n supply = .ok (p, s') →
        Acceptable s' p n ∧ ∃ s'', kfree s' p = .ok s'' := by
  have accepted : ∀ state : State × List (Nat × Nat), Invariant state → ∀ p n, (p, n) ∈ state.2 →
      Acceptable state.1 p n ∧ ∃ s', kfree state.1 p = .ok s' := by
    rintro state ⟨free, layout⟩ p n member
    obtain ⟨s', freed, -⟩ := kfree_spec layout member
    exact ⟨layout.acceptable member, s', freed⟩
  have holds : Invariant (s, live) :=
    run.invariant Invariant ⟨[], fresh.layout⟩ fun _ _ _ call before =>
      call.invariant (fun _ _ => id) before
  refine ⟨accepted _ holds, fun passes n p s' supply small supplied notHead ran => ?_⟩
  have call : Call (fun s n => ¬ ExactAtHead s n) (s, live) (s', (p, n) :: live) :=
    .kmalloc small supplied notHead ran
  exact accepted _ (call.invariant (fun _ _ => id) holds) p n List.mem_cons_self

/-- A request for no bytes from a page of its own. -/
theorem kmalloc_pointers_accepted_empty : ∃ s, kmalloc 1 blank 0 [256] = .ok (257, s) ∧
    Acceptable s 257 0 := by
  refine ⟨takeFront (morecore blank 256) none 256 0, rfl, ?_⟩
  have all := (@kmalloc_pointers_accepted [] blank blank ⟨rfl, rfl⟩ .refl).2
  refine (all 1 0 257 _ [256] (by decide) ?_ ?_ rfl).1
  · simp [blank, pageUnits, pageSize, unit]
  · simp [ExactAtHead, blank, divRoundUp, unit]

/-- A request that leaves the last unit of its page as a header without payload, and a
request for no bytes, which gets the boundary behind it. -/
theorem empty_request_not_accepted : ∃ s₁ s₂, kmalloc 1 blank 4064 [256] = .ok (257, s₁) ∧
    kmalloc 1 s₁ 0 [] = .ok (512, s₂) ∧
      Reaches (Call fun _ _ => True) (blank, []) (s₂, [(512, 0), (257, 4064)]) ∧
    pageSize ∣ 512 * unit ∧ kfree s₂ 512 = .error (.panic "unimplemented") := by
  let s₁ := takeFront (morecore blank 256) none 256 254
  have first : Call (fun _ _ => True) (blank, []) (s₁, [(257, 4064)]) := by
    refine @Call.kmalloc _ blank _ [] 1 4064 257 [256] (by decide) ?_ trivial rfl
    simp [blank, pageUnits, pageSize, unit]
  have second : Call (fun _ _ => True) (s₁, [(257, 4064)]) (s₁, [(512, 0), (257, 4064)]) :=
    @Call.kmalloc _ s₁ _ _ 1 0 512 [] (by decide) (by simp) trivial rfl
  exact ⟨s₁, s₁, rfl, rfl, (Relation.ReflTransGen.single first).tail second, by decide, rfl⟩

end ByteOS.Mm.Slob
