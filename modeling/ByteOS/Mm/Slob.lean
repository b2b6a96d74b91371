import ByteOS.Mm.Addr

/-! The first-fit allocator of `kernel/mm/slob.c`.

Memory is counted in units of `sizeof(struct slob_header)` bytes, and `mem`
reads every unit as a header, whatever it holds: the payload of a live block may
contain any value. Pointers are unit indices. `pages` records which pages
`morecore` has obtained; the code itself does not remember them. The debug fill
of a new allocation happens after the lock is released and touches only the
caller's bytes, so it is one of the caller's writes and not part of `kmalloc`.
-/

set_option autoImplicit false

namespace ByteOS.Mm.Slob

/-- `UNIT`, the size of a header in bytes. -/
def unit : Nat := 16

def bigAlloc : Nat := pageSize - unit

structure Header where
  next : Option Nat
  units : Nat
  deriving DecidableEq, Repr

structure State where
  head : Option Nat
  mem : Nat → Header
  pages : List Nat

def setNext (mem : Nat → Header) (block : Nat) (next : Option Nat) : Nat → Header :=
  Function.update mem block { mem block with next := next }

def setUnits (mem : Nat → Header) (block units : Nat) : Nat → Header :=
  Function.update mem block { mem block with units := units }

/-- `morecore`, given the page that `pmm_alloc_order` returns. -/
def morecore (s : State) (page : Nat) : State :=
  let mem := setUnits s.mem page ((pageSize - unit) / unit)
  { head := some page, mem := setNext mem page s.head, pages := page :: s.pages }

def findFit (mem : Nat → Header) (units : Nat) :
    Nat → Option Nat → Option Nat → Except Fault (Option (Option Nat × Nat))
  | _, _, none => .ok none
  | 0, _, some _ => .error .unfinished
  | passes + 1, prev, some block =>
      if (mem block).units = units ∨ (mem block).units > units then .ok (some (prev, block))
      else findFit mem units passes (some block) (mem block).next

/-- The exact-match branch. With no predecessor, `head` is set to the block
itself, as the code does. -/
def takeWhole (s : State) (prev : Option Nat) (block : Nat) : State :=
  match prev with
  | none => { s with head := some block }
  | some p => { s with mem := setNext s.mem p (s.mem block).next }

def takeFront (s : State) (prev : Option Nat) (block units : Nat) : State :=
  let newBlock := block + units + 1
  let mem := setUnits s.mem newBlock ((s.mem block).units - units - 1)
  let mem := setUnits mem block units
  let mem := setNext mem newBlock (mem block).next
  match prev with
  | none => { s with head := some newBlock, mem := mem }
  | some p => { s with mem := setNext mem p (some newBlock) }

/-- The `while (1)` of `slob_alloc`. `supply` lists the pages that successive
calls of `pmm_alloc_order` return; without one left the kernel panics. -/
def allocLoop (passes units : Nat) (s : State) (supply : List Nat) : Except Fault (Nat × State) :=
  match findFit s.mem units passes none s.head with
  | .error fault => .error fault
  | .ok (some (prev, block)) =>
      if (s.mem block).units = units then .ok (block + 1, takeWhole s prev block)
      else .ok (block + 1, takeFront s prev block units)
  | .ok none =>
      match supply with
      | [] => .error (.panic "PMM out of memory at 0")
      | page :: rest => allocLoop passes units (morecore s page) rest

def slobAlloc (passes : Nat) (s : State) (bytes : Nat) (supply : List Nat) : Except Fault (Nat × State) :=
  let units := divRoundUp bytes unit
  if bytes < bigAlloc then allocLoop passes units s supply
  else .error (.panic "unimplemented")

/-- What a unit filled with the byte `0xBB` reads as. -/
def poison : Header := ⟨some (0xBBBBBBBBBBBBBBBB / unit), 0xBBBBBBBBBBBBBBBB⟩

/-- `memset` with `0xBB` over whole units. -/
def fill (mem : Nat → Header) (p units : Nat) : Nat → Header := fun q =>
  if p ≤ q ∧ q < p + units then poison else mem q

def slobFree (s : State) (p : Nat) : Except Fault State :=
  if isAlignPow2 (p * unit) 12 then .error (.panic "unimplemented")
  else
    let header := p - 1
    let mem := setNext s.mem header s.head
    .ok { s with head := some header, mem := fill mem p (mem header).units }

def kmalloc (passes : Nat) (s : State) (n : Nat) (supply : List Nat) : Except Fault (Nat × State) :=
  slobAlloc passes s n supply

def kfree (s : State) (p : Nat) : Except Fault State := slobFree s p

@[simp] theorem setNext_next (mem : Nat → Header) (block q : Nat) (next : Option Nat) :
    (setNext mem block next q).next = if q = block then next else (mem q).next := by
  by_cases same : q = block <;> simp [setNext, same]

@[simp] theorem setNext_units (mem : Nat → Header) (block q : Nat) (next : Option Nat) :
    (setNext mem block next q).units = (mem q).units := by
  by_cases same : q = block <;> simp [setNext, same]

@[simp] theorem setUnits_next (mem : Nat → Header) (block q units : Nat) :
    (setUnits mem block units q).next = (mem q).next := by
  by_cases same : q = block <;> simp [setUnits, same]

@[simp] theorem setUnits_units (mem : Nat → Header) (block q units : Nat) :
    (setUnits mem block units q).units = if q = block then units else (mem q).units := by
  by_cases same : q = block <;> simp [setUnits, same]

end ByteOS.Mm.Slob
