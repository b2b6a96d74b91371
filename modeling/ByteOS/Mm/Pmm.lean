import ByteOS.Mm.Addr

/-! The buddy allocator of `kernel/mm/pmm.c` for one zone.

`pageData` is the `page_data` array restricted to the fields the allocator
uses. Free lists are threaded through the `next` and `prev` fields of the
struct pages themselves, exactly as `dlist_set_next` and `dlist_set_prev`
write them: neither clears a field that an earlier list left behind.
-/

set_option autoImplicit false

namespace ByteOS.Mm.Pmm

open Function (update update_apply)

structure Page where
  next : Option Nat
  prev : Option Nat
  order : Nat
  deriving DecidableEq, Repr

abbrev PageData := Nat → Page

/-- A struct page as `memset` leaves it. -/
def zeroPage : Page := ⟨none, none, 0⟩

structure Zone where
  paStart : Nat
  len : Nat
  freeLists : Nat → Option Nat

structure State where
  zone : Zone
  pageData : PageData

structure MmapRegion where
  base : Nat
  len : Nat

def sizeofZone : Nat := 8 + 8 + 8 + 8 * maxOrder

def dlistSetNext (pages : PageData) (p : Nat) (entry : Option Nat) : PageData :=
  let linked := update pages p { pages p with next := entry }
  match entry with
  | none => linked
  | some q => update linked q { linked q with prev := some p }

def dlistSetPrev (pages : PageData) (p : Nat) (entry : Option Nat) : PageData :=
  let linked := update pages p { pages p with prev := entry }
  match entry with
  | none => linked
  | some q => update linked q { linked q with next := some p }

def setOrder (pages : PageData) (p order : Nat) : PageData :=
  update pages p { pages p with order := order }

def State.setFreeList (s : State) (order : Nat) (head : Option Nat) : State :=
  { s with zone := { s.zone with freeLists := update s.zone.freeLists order head } }

def State.setPages (s : State) (pages : PageData) : State := { s with pageData := pages }

/-! ## What the link updates write

`dlist_set_next` changes the `next` of one page and the `prev` of its new
successor; `dlist_set_prev` is its mirror image. -/

section

variable (pages : PageData) (p q : Nat) (entry : Option Nat)

theorem dlistSetNext_next :
    (dlistSetNext pages p entry q).next = if q = p then entry else (pages q).next := by
  cases entry <;> simp only [dlistSetNext, update_apply] <;> grind

theorem dlistSetNext_prev :
    (dlistSetNext pages p entry q).prev = if entry = some q then some p else (pages q).prev := by
  cases entry <;> simp only [dlistSetNext, update_apply] <;> grind

@[simp] theorem dlistSetNext_order : (dlistSetNext pages p entry q).order = (pages q).order := by
  cases entry <;> simp only [dlistSetNext, update_apply] <;> grind

theorem dlistSetPrev_next :
    (dlistSetPrev pages p entry q).next = if entry = some q then some p else (pages q).next := by
  cases entry <;> simp only [dlistSetPrev, update_apply] <;> grind

theorem dlistSetPrev_prev :
    (dlistSetPrev pages p entry q).prev = if q = p then entry else (pages q).prev := by
  cases entry <;> simp only [dlistSetPrev, update_apply] <;> grind

@[simp] theorem dlistSetPrev_order : (dlistSetPrev pages p entry q).order = (pages q).order := by
  cases entry <;> simp only [dlistSetPrev, update_apply] <;> grind

end

@[simp] theorem setOrder_next (pages : PageData) (p q order : Nat) :
    (setOrder pages p order q).next = (pages q).next := by
  by_cases same : q = p <;> simp [setOrder, same]

@[simp] theorem setOrder_prev (pages : PageData) (p q order : Nat) :
    (setOrder pages p order q).prev = (pages q).prev := by
  by_cases same : q = p <;> simp [setOrder, same]

theorem setOrder_order (pages : PageData) (p q order : Nat) :
    (setOrder pages p order q).order = if q = p then order else (pages q).order := by
  by_cases same : q = p <;> simp [setOrder, same]

theorem setOrder_dlistSetNext (pages : PageData) (p order : Nat) (entry : Option Nat) :
    setOrder (dlistSetNext pages p entry) p order = dlistSetNext (setOrder pages p order) p entry := by
  funext q
  cases entry <;> simp only [dlistSetNext, setOrder, update_apply] <;> grind

/-! ## Building a zone -/

def calcAvailablePages (available : MmapRegion) : Except Fault Nat := do
  let headerEnd := (available.base + sizeofZone) % wordMod
  let effectiveStart := alignUp headerEnd
  let padding := (effectiveStart + wordMod - headerEnd) % wordMod
  let effectiveLen := (available.len + wordMod - padding) % wordMod
  kassert (effectiveLen ≤ available.len) "effective_len <= available->len"
  return effectiveLen / pageSize

def getMaxOrderFrom (startPfn endPfn : Nat) : Nat → Nat
  | 0 => 0
  | rv + 1 =>
      if startPfn + 2 ^ (rv + 1) > endPfn then getMaxOrderFrom startPfn endPfn rv
      else if isAlignPow2 startPfn (rv + 1) then rv + 1
      else getMaxOrderFrom startPfn endPfn rv

def getMaxOrder (start stop : Nat) : Nat :=
  getMaxOrderFrom (start / pageSize) (stop / pageSize) (maxOrder - 1)

def insertBlock (avail inserted : Nat) (s : State) : Except Fault (Nat × State) := do
  let start := (s.zone.paStart + inserted * pageSize) % wordMod
  let stop := (s.zone.paStart + avail * pageSize) % wordMod
  let highestOrder := getMaxOrder start stop
  let page ← deref (physToPage start)
  let pages := setOrder s.pageData page highestOrder
  let pages := dlistSetNext pages page (s.zone.freeLists highestOrder)
  let s := (s.setPages pages).setFreeList highestOrder (some page)
  kassert (pageToPhys page + pageSize * 2 ^ highestOrder ≤ s.zone.paStart + s.zone.len)
    "page_to_phys(inserted) + PAGE_SIZE * (1 << highest_order) <= zone->pa_start + zone->len"
  return (inserted + 2 ^ highestOrder, s)

/-- The populating loop. Every pass inserts at least one page, so `avail`
passes are enough. -/
def populate (avail : Nat) : Nat → Nat → State → Except Fault (Nat × State)
  | 0, inserted, s => .ok (inserted, s)
  | passes + 1, inserted, s =>
      if inserted < avail then do
        let (inserted, s) ← insertBlock avail inserted s
        populate avail passes inserted s
      else .ok (inserted, s)

def initZone (rg : MmapRegion) (pages : PageData) : Except Fault (Option State) := do
  let availPages ← calcAvailablePages rg
  if availPages = 0 then return none
  let zone : Zone :=
    { paStart := alignUp ((rg.base + sizeofZone) % wordMod)
      len := availPages * pageSize % wordMod
      freeLists := fun _ => none }
  let (inserted, s) ← populate availPages availPages 0 ⟨zone, pages⟩
  kassert (inserted = availPages) "pages_inserted == avail_pages"
  return some s

/-! ## Allocation -/

def pageBuddy (page order : Nat) : Nat := page ^^^ 2 ^ order

def nextFreeOrder (freeLists : Nat → Option Nat) (order : Nat) : Option Nat :=
  (List.range' (order + 1) (maxOrder - (order + 1))).find? fun k => (freeLists k).isSome

def splitHead (s : State) (removed order : Nat) : State :=
  let buddy := pageBuddy removed order
  let pages := setOrder (setOrder s.pageData buddy order) removed order
  let s := (s.setPages pages).setFreeList (order + 1) (pages removed).next
  let pages := dlistSetNext s.pageData removed (some buddy)
  let pages := dlistSetNext pages buddy (s.zone.freeLists order)
  (s.setPages pages).setFreeList order (some removed)

/-- One pass of the splitting loop at `free_order = order + 1`. -/
def splitBlock (s : State) (order : Nat) : Except Fault State := do
  let removed ← deref (s.zone.freeLists (order + 1))
  return splitHead s removed order

/-- Split downwards from `order + passes` until `order` is reached. -/
def splitDown (order : Nat) : Nat → State → Except Fault State
  | 0, s => .ok s
  | passes + 1, s => do
      let s ← splitBlock s (order + passes)
      splitDown order passes s

def popHead (s : State) (head order : Nat) : State :=
  let s := s.setFreeList order (s.pageData head).next
  let pages := dlistSetNext s.pageData head none
  s.setPages (dlistSetPrev pages head none)

def takeHead (s : State) (order : Nat) : Except Fault (Option Nat × State) := do
  let head ← deref (s.zone.freeLists order)
  kassert ((s.pageData head).order = order) "head->order == (int8_t)order"
  return (some head, popHead s head order)

def zoneAllocOrder (s : State) (order : Nat) : Except Fault (Option Nat × State) :=
  match s.zone.freeLists order with
  | some _ => takeHead s order
  | none =>
      match nextFreeOrder s.zone.freeLists order with
      | none => .ok (none, s)
      | some freeOrder => do
          let s ← splitDown order (freeOrder - order) s
          takeHead s order

/-! ## Freeing -/

def isPageFree (s : State) (page : Nat) : Bool :=
  if (s.pageData page).next = none ∧ (s.pageData page).prev = none then false
  else !(List.range maxOrder).any fun i => s.zone.freeLists i == some page

def unlink (pages : PageData) (buddy : Nat) : PageData :=
  let prev := (pages buddy).prev
  let next := (pages buddy).next
  let pages := match prev with
    | some p => dlistSetNext pages p next
    | none => pages
  match next with
  | some n => dlistSetPrev pages n prev
  | none => pages

def insertFree (s : State) (page order : Nat) : State :=
  let pages := dlistSetNext s.pageData page (s.zone.freeLists order)
  let s := (s.setPages pages).setFreeList order (some page)
  s.setPages (setOrder s.pageData page order)

/-- The recursion of `__pmm_free_order`; `levels` counts the orders below
`MAX_ORDER`. A block of order `MAX_ORDER` has no free list to go to. -/
def freeFrom : Nat → State → Nat → Nat → Except Fault State
  | 0, _, _, _ => .error .outOfRange
  | levels + 1, s, page, order =>
      let buddy := pageBuddy page order
      let first := min buddy page
      if isPageFree s buddy ∧ (s.pageData buddy).order = order then
        freeFrom levels (s.setPages (unlink s.pageData buddy)) first (order + 1)
      else .ok (insertFree s page order)

def pmmFreeOrder (s : State) (page order : Nat) : Except Fault State :=
  freeFrom (maxOrder - order) s page order

end ByteOS.Mm.Pmm
