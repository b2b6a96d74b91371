import Mathlib.Data.Nat.Bitwise
import Mathlib.Logic.Function.Basic

/-! Address arithmetic and limits shared by the memory-management modules
(`include/limits.h`, `include/addr.h`, `include/util.h`).

Physical addresses and sizes are natural numbers; where the code computes in
`uintptr_t` or `size_t`, results are reduced modulo `2 ^ 64` explicitly. A
`struct page *` is represented by its index in `page_data`, that is by the page
frame number, and the null pointer by `none`.
-/

set_option autoImplicit false

namespace ByteOS.Mm

/-- The ways in which modelled kernel code stops. Debug assertions are those of
the default build, which defines `DEBUG`; `unfinished` is a loop that the number
of passes it was given does not finish, and `doubleFree` marks a page given back
to the allocator that it has not handed out. -/
inductive Fault where
  | kassert (condition : String)
  | panic (message : String)
  | nullDeref
  | outOfRange
  | unfinished
  | doubleFree
  deriving DecidableEq, Repr

def kassert (condition : Prop) [Decidable condition] (text : String) : Except Fault Unit :=
  if condition then .ok () else .error (.kassert text)

def deref {P : Type} : Option P → Except Fault P
  | some p => .ok p
  | none => .error .nullDeref

def maxOrder : Nat := 12

def pageSize : Nat := 0x1000

def wordMod : Nat := 2 ^ 64

/-- `ALIGNUP` at the page size: `(val + 0xFFF) & -0x1000` in `uintptr_t`. -/
def alignUp (val : Nat) : Nat :=
  let sum := (val + (pageSize - 1)) % wordMod
  sum - sum % pageSize

/-- `ISALIGN_POW2` for an alignment of `2 ^ k`. -/
def isAlignPow2 (val k : Nat) : Bool := val &&& (2 ^ k - 1) == 0

def divRoundUp (val div : Nat) : Nat := (val + div - 1) / div

def physToPage (phys : Nat) : Option Nat :=
  if phys = 0 then none else some (phys / pageSize)

def pageToPhys (page : Nat) : Nat := page * pageSize

theorem isAlignPow2_iff (val k : Nat) : isAlignPow2 val k = true ↔ 2 ^ k ∣ val := by
  simp [isAlignPow2, Nat.and_two_pow_sub_one_eq_mod, Nat.dvd_iff_mod_eq_zero]

@[simp] theorem kassert_eq_ok {condition : Prop} [Decidable condition] {text : String} {u : Unit} :
    kassert condition text = .ok u ↔ condition := by
  unfold kassert
  split <;> simp [*]

@[simp] theorem deref_eq_ok {P : Type} {ptr : Option P} {p : P} : deref ptr = .ok p ↔ ptr = some p := by
  cases ptr <;> simp [deref]

variable {A B : Type} {first : Except Fault A} {rest : A → Except Fault B} {b : B}

theorem bind_eq_ok : (first >>= rest) = .ok b ↔ ∃ a, first = .ok a ∧ rest a = .ok b := by
  cases first with
  | error fault | ok a => simp [bind, Except.bind]

@[simp] theorem ok_bind (a : A) (rest : A → Except Fault B) : (Except.ok a >>= rest) = rest a := rfl

theorem toOption_eq_some {result : Except Fault A} {a : A} : result.toOption = some a ↔ result = .ok a := by
  cases result with
  | error fault | ok value => simp [Except.toOption]

theorem toOption_bind_eq_some {next : A → Option B} :
    first.toOption.bind next = some b ↔ ∃ a, first = .ok a ∧ next a = some b := by
  simp only [Option.bind_eq_some_iff, toOption_eq_some]

theorem toOption_map_eq_some {next : A → B} :
    first.toOption.map next = some b ↔ ∃ a, first = .ok a ∧ next a = b := by
  simp only [Option.map_eq_some_iff, toOption_eq_some]

end ByteOS.Mm
