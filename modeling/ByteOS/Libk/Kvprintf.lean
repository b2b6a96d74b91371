import ByteOS.Libk.Kprintf

/-! Formatted printing (`__kvprintf` of `libk/kprintf.c`).

A format is a list of items: a character that stands for itself, or a conversion with its
argument. One pass of the loop prints one item. The number that is returned is the sum of
what each pass adds to it, which is compared with the number of characters it prints.
-/

set_option autoImplicit false

namespace ByteOS.Libk

open Lib Mm
open List (append_assoc length_append flatMap_cons map_cons sum_cons)
open BitVec (intMin toNat_ofNat ofNat_add)

/-- The state of the loop of `__kvprintf`. An argument takes a slot of eight bytes. -/
structure Kvprintf where
  pfmt : Nat
  params : List (BitVec 64)
  nwritten : BitVec 64
  out : Output

namespace Kvprintf

def vaArg (s : Kvprintf) : Except Fault (BitVec 64 × Kvprintf) :=
  match s.params with
  | [] => .error .outOfRange
  | slot :: params => .ok (slot, { s with params := params })

/-- Characters are written and `count` is added to `nwritten`. -/
def write (s : Kvprintf) (text : List Byte) (count : Nat) : Kvprintf :=
  { s with nwritten := s.nwritten + BitVec.ofNat 64 count, out := s.out ++ text }

/-- A call of `atoi_print` with an argument of the conversion's type. -/
def printNumber (junk : Nat → Byte) (widen : BitVec 64 → BitVec 64) (sign : Bool) (base : Nat)
    (s : Kvprintf) : Except Fault Kvprintf := do
  let (slot, s) ← s.vaArg
  let (out, count) ← atoiPrint junk (widen slot) sign base s.out
  return { s with nwritten := s.nwritten + BitVec.ofNat 64 count, out := out }

def printStr (mem : Nat → Byte) (s : Kvprintf) : Except Fault Kvprintf := do
  let (slot, s) ← s.vaArg
  if slot = 0#64 then return s.write (literal "(null)") (literal "(null)").length
  let out ← kprintfWriteStr wordMod mem passes slot.toNat s.out
  let length ← strlen mem passes slot.toNat
  return { s with nwritten := s.nwritten + BitVec.ofNat 64 length, out := out }

def toHexChar (x : BitVec 64) : Byte :=
  (if x < 10#64 then x + (ascii '0').setWidth 64 else x - 10#64 + (ascii 'A').setWidth 64).setWidth 8

/-- The loop of `case 'p'`, with `p_buf` at the index before `next`. -/
def pointerLoop : Nat → BitVec 64 → (Nat → Byte) → Nat → Byte
  | 0, _, buf => buf
  | p + 1, ptr, buf => pointerLoop p (ptr >>> 4) (Function.update buf p (toHexChar (ptr &&& 0xF#64)))

def printPointer (junk : Nat → Byte) (s : Kvprintf) : Except Fault Kvprintf := do
  let (slot, s) ← s.vaArg
  let buf := pointerLoop 16 slot (Function.update junk 16 0#8)
  let out ← kprintfWriteStr 17 buf passes 0 (s.out ++ literal "0x")
  return { s with nwritten := s.nwritten + 18#64, out := out }

/-- The conversions of a `long`, behind `case 'z'`. -/
def printLong (mem : Nat → Byte) (junk : Nat → Byte) (s : Kvprintf) : Except Fault Kvprintf := do
  let c := mem (s.pfmt + 2)
  let s ←
    if c = ascii 'd' ∨ c = ascii 'i' then printNumber junk id true 10 s
    else if c = ascii 'u' then printNumber junk id false 10 s
    else if c = ascii 'x' then printNumber junk id false 16 s
    else .ok s
  return { s with pfmt := s.pfmt + 1 }

/-- The value of an `int` in its slot, as the parameter of `atoi_print`. -/
def widenInt (slot : BitVec 64) : BitVec 64 := (slot.setWidth 32).signExtend 64

def widenUnsigned (slot : BitVec 64) : BitVec 64 := (slot.setWidth 32).setWidth 64

/-- The `switch` over the character behind a per cent sign. -/
def convert (mem : Nat → Byte) (junk : Nat → Byte) (s : Kvprintf) : Except Fault Kvprintf :=
  let c := mem (s.pfmt + 1)
  if c = ascii '%' then .ok (s.write [ascii '%'] 1)
  else if c = ascii 'c' then do
    let (slot, s) ← s.vaArg
    return s.write [slot.setWidth 8] 1
  else if c = ascii 's' then printStr mem s
  else if c = ascii 'p' then printPointer junk s
  else if c = ascii 'l' then
    if mem (s.pfmt + 2) = ascii 'l' then printLong mem junk { s with pfmt := s.pfmt + 1 }
    else printLong mem junk s
  else if c = ascii 'z' then printLong mem junk s
  else if c = ascii 'i' ∨ c = ascii 'd' then printNumber junk widenInt true 10 s
  else if c = ascii 'u' then printNumber junk widenUnsigned false 10 s
  else if c = ascii 'x' then printNumber junk widenUnsigned false 16 s
  else .error
    (.panic ("kprintf: unknown format string character '" ++ (Char.ofNat c.toNat).toString ++ "'"))

/-- One pass of the loop. The buffers on the stack hold `stack pfmt` before it. -/
def pass (mem : Nat → Byte) (stack : Nat → Nat → Byte) (s : Kvprintf) : Except Fault Kvprintf :=
  if mem s.pfmt = ascii '%' then do
    let s ← convert mem (stack s.pfmt) s
    return { s with pfmt := s.pfmt + 1 + 1, nwritten := s.nwritten + 1#64 }
  else .ok { s with pfmt := s.pfmt + 1, out := s.out ++ [mem s.pfmt] }

/-- The loop, with the conversion of `nwritten` to `int` at its end. -/
def loop (mem : Nat → Byte) (stack : Nat → Nat → Byte) : Nat → Kvprintf → Except Fault (Int × Output)
  | 0, _ => .error .unfinished
  | fuel + 1, s =>
    if mem s.pfmt = 0#8 then .ok ((s.nwritten.setWidth 32).toInt, s.out)
    else do loop mem stack fuel (← pass mem stack s)

end Kvprintf

def kvprintf (mem : Nat → Byte) (stack : Nat → Nat → Byte) (fmt : Nat) (params : List (BitVec 64)) :
    Except Fault (Int × Output) :=
  Kvprintf.loop mem stack passes ⟨fmt, params, 0#64, []⟩

/-! ## Formats -/

inductive Kind where
  | d
  | i
  | u
  | x
  deriving DecidableEq, Repr

namespace Kind

def letter : Kind → Byte
  | .d => ascii 'd'
  | .i => ascii 'i'
  | .u => ascii 'u'
  | .x => ascii 'x'

def signed : Kind → Bool
  | .d | .i => true
  | .u | .x => false

def base : Kind → Nat
  | .d | .i | .u => 10
  | .x => 16

def digits (kind : Kind) (num : BitVec 64) : List Byte := numeral kind.base (valueOf num kind.signed)

/-- An argument of 32 bits as the parameter of `atoi_print`. -/
def widen (kind : Kind) (slot : BitVec 64) : BitVec 64 :=
  if kind.signed then Kvprintf.widenInt slot else Kvprintf.widenUnsigned slot

end Kind

inductive Size where
  | l
  | ll
  | z
  deriving DecidableEq, Repr

def Size.letters : Size → List Byte
  | .l => [ascii 'l']
  | .ll => [ascii 'l', ascii 'l']
  | .z => [ascii 'z']

/-- The last `width` digits to base 16. -/
def hexDigits : Nat → Nat → List Byte
  | 0, _ => []
  | width + 1, n => hexDigits width (n / 16) ++ [digitByte (n % 16)]

/-- An ordinary character, or a conversion with the slot of its argument. A conversion of a string
also has the characters that the argument stands for. -/
inductive Item where
  | text (b : Byte) (nonzero : b ≠ 0#8) (ordinary : b ≠ ascii '%')
  | percent
  | char (slot : BitVec 64)
  | string (slot : BitVec 64) (bytes : List Byte)
  | pointer (slot : BitVec 64)
  | int (kind : Kind) (slot : BitVec 64)
  | long (size : Size) (kind : Kind) (slot : BitVec 64)
      (negates : ¬ (kind.signed = true ∧ slot = intMin 64))

namespace Item

def spelling : Item → List Byte
  | .text b _ _ => [b]
  | .percent => [ascii '%', ascii '%']
  | .char _ => [ascii '%', ascii 'c']
  | .string _ _ => [ascii '%', ascii 's']
  | .pointer _ => [ascii '%', ascii 'p']
  | .int kind _ => [ascii '%', kind.letter]
  | .long size kind _ _ => ascii '%' :: (size.letters ++ [kind.letter])

def args : Item → List (BitVec 64)
  | .text _ _ _ | .percent => []
  | .char slot | .string slot _ | .pointer slot | .int _ slot | .long _ _ slot _ => [slot]

/-- The argument of a string conversion is a null pointer or points to the string. -/
def Matches (mem : Nat → Byte) : Item → Prop
  | .string slot bytes =>
    slot = 0#64 ∧ bytes = literal "(null)" ∨ slot ≠ 0#64 ∧ CString mem slot.toNat bytes ∧
      slot.toNat + bytes.length < wordMod
  | _ => True

def printed : Item → List Byte
  | .text b _ _ => [b]
  | .percent => [ascii '%']
  | .char slot => [slot.setWidth 8]
  | .string _ bytes => bytes
  | .pointer slot => literal "0x" ++ hexDigits 16 slot.toNat
  | .int kind slot => baseMark kind.base ++ kind.digits (kind.widen slot)
  | .long _ kind slot _ => baseMark kind.base ++ kind.digits slot

/-- What an item adds to `nwritten`: an ordinary character nothing, a conversion one more than
the characters it prints, of which the mark of the base is not counted. -/
def counted : Item → Nat
  | .text _ _ _ => 0
  | .percent | .char _ => 2
  | .string _ bytes => bytes.length + 1
  | .pointer _ => 19
  | .int kind slot => (kind.digits (kind.widen slot)).length + 1
  | .long _ kind slot _ => (kind.digits slot).length + 1

def surplus : Item → Int
  | .text _ _ _ | .int .x _ | .long _ .x _ _ => -1
  | _ => 1

end Item

def spell (items : List Item) : List Byte := items.flatMap Item.spelling

/-! ## The passes -/

section

variable {mem junk : Nat → Byte} {stack : Nat → Nat → Byte} {s : Kvprintf} {slot : BitVec 64}
    {rest : List (BitVec 64)}

namespace Kvprintf

def take (s : Kvprintf) (rest : List (BitVec 64)) : Kvprintf := { s with params := rest }

theorem vaArg_cons (params : s.params = slot :: rest) : s.vaArg = .ok (slot, s.take rest) := by
  rw [vaArg, params]
  rfl

theorem printNumber_eq {widen : BitVec 64 → BitVec 64} {sign : Bool} {base : Nat}
    (params : s.params = slot :: rest) (two : 1 < base) (small : base ≤ 16)
    (negates : ¬ (sign = true ∧ widen slot = intMin 64)) :
    printNumber junk widen sign base s =
      .ok ((s.take rest).write (baseMark base ++ numeral base (valueOf (widen slot) sign))
        (numeral base (valueOf (widen slot) sign)).length) := by
  rw [printNumber, vaArg_cons params]
  simp only [ok_bind, atoiPrint_eq junk two small negates]
  rfl

theorem widenInt_ne_intMin (slot : BitVec 64) : widenInt slot ≠ intMin 64 := by
  intro same
  have value : (slot.setWidth 32).toInt = -2 ^ 63 := by
    rw [← BitVec.toInt_signExtend_of_le (by decide : 32 ≤ 64), ← widenInt, same]
    rfl
  have bound := (slot.setWidth 32).le_toInt
  omega

theorem printNumber_int (params : s.params = slot :: rest) (kind : Kind) :
    printNumber junk kind.widen kind.signed kind.base s =
      .ok ((s.take rest).write (Item.int kind slot).printed (kind.digits (kind.widen slot)).length) := by
  refine printNumber_eq params (by cases kind <;> decide) (by cases kind <;> decide) ?_
  rintro ⟨signed, same⟩
  rw [Kind.widen, if_pos signed] at same
  exact widenInt_ne_intMin slot same

theorem printLong_eq {kind : Kind} (letter : mem (s.pfmt + 2) = kind.letter)
    (params : s.params = slot :: rest) (negates : ¬ (kind.signed = true ∧ slot = intMin 64)) :
    printLong mem junk s =
      .ok { (s.take rest).write (baseMark kind.base ++ kind.digits slot) (kind.digits slot).length with
        pfmt := s.pfmt + 1 } := by
  have number : printNumber junk id kind.signed kind.base s = .ok ((s.take rest).write _ _) :=
    printNumber_eq params (by cases kind <;> decide) (by cases kind <;> decide) negates
  have branch : printLong mem junk s =
      printNumber junk id kind.signed kind.base s >>= fun s => .ok { s with pfmt := s.pfmt + 1 } := by
    rw [printLong, letter]
    cases kind <;> rfl
  rw [branch, number]
  rfl

theorem printStr_eq {bytes : List Byte} (params : s.params = slot :: rest)
    (fitting : (Item.string slot bytes).Matches mem) :
    printStr mem s = .ok ((s.take rest).write bytes bytes.length) := by
  rw [printStr, vaArg_cons params]
  rcases fitting with ⟨rfl, rfl⟩ | ⟨nonnull, string, fits⟩
  · rfl
  · have short : bytes.length < passes := by rw [wordMod] at fits; rw [passes]; omega
    simp only [ok_bind, if_neg nonnull, kprintfWriteStr_eq (s.take rest).out string fits short,
      strlen_eq string short]
    rfl

theorem toHexChar_eq (x : BitVec 64) : toHexChar (x &&& 0xF#64) = digitByte (x.toNat % 16) := by
  have checked : ∀ d : Fin 16, toHexChar (BitVec.ofNat 64 d) = digitByte d := by decide
  have low : x &&& 0xF#64 = BitVec.ofNat 64 (x.toNat % 16) := by
    apply BitVec.eq_of_toNat_eq
    rw [BitVec.toNat_and, toNat_ofNat, toNat_ofNat]
    have masked := Nat.and_two_pow_sub_one_eq_mod x.toNat 4
    have bound : x.toNat % 16 < 2 ^ 64 := by omega
    rwa [Nat.mod_eq_of_lt bound]
  rw [low]
  exact checked ⟨x.toNat % 16, Nat.mod_lt _ (by decide)⟩

theorem pointerLoop_string (width : Nat) (ptr : BitVec 64) {buf : Nat → Byte} {bytes : List Byte}
    (string : CString buf width bytes) :
    CString (pointerLoop width ptr buf) 0 (hexDigits width ptr.toNat ++ bytes) := by
  induction width generalizing ptr buf bytes with
  | zero => exact string
  | succ width ih =>
    have nonzero := digitByte_ne_zero (Nat.mod_lt ptr.toNat (by decide : 16 > 0))
    have shifted : (ptr >>> 4).toNat = ptr.toNat / 16 := by
      rw [BitVec.toNat_ushiftRight, Nat.shiftRight_eq_div_pow]
    have after := ih (ptr >>> 4) (CString.push string nonzero)
    rw [shifted] at after
    rwa [pointerLoop, toHexChar_eq, hexDigits, append_assoc]

theorem hexDigits_length (width n : Nat) : (hexDigits width n).length = width := by
  induction width generalizing n with
  | zero => rfl
  | succ width ih => rw [hexDigits, length_append, ih, List.length_singleton]

theorem printPointer_eq (params : s.params = slot :: rest) :
    printPointer junk s = .ok ((s.take rest).write (Item.pointer slot).printed 18) := by
  have empty : CString (Function.update junk 16 0#8) 16 [] :=
    ⟨stored_nil _, Function.update_self .., List.not_mem_nil⟩
  have string := pointerLoop_string 16 slot empty
  rw [List.append_nil] at string
  have length := hexDigits_length 16 slot.toNat
  have written : kprintfWriteStr 17 _ passes 0 (s.out ++ literal "0x") = _ :=
    kprintfWriteStr_eq (s.out ++ literal "0x") string (by rw [length]; decide) (by rw [length]; decide)
  rw [printPointer, vaArg_cons params]
  simp only [ok_bind, take, written, append_assoc]
  rfl

theorem pass_of_convert {s' : Kvprintf} (sign : mem s.pfmt = ascii '%')
    (run : convert mem (stack s.pfmt) s = .ok s') :
    pass mem stack s = .ok { s' with pfmt := s'.pfmt + 1 + 1, nwritten := s'.nwritten + 1#64 } := by
  rw [pass, if_pos sign, run]
  rfl

def behind (s : Kvprintf) (item : Item) (rest : List (BitVec 64)) : Kvprintf where
  pfmt := s.pfmt + item.spelling.length
  params := rest
  nwritten := s.nwritten + BitVec.ofNat 64 item.counted
  out := s.out ++ item.printed

theorem convert_int {kind : Kind} (letter : mem (s.pfmt + 1) = kind.letter)
    (params : s.params = slot :: rest) :
    convert mem junk s =
      .ok ((s.take rest).write (Item.int kind slot).printed (kind.digits (kind.widen slot)).length) := by
  rw [← printNumber_int params, convert, letter]
  cases kind <;> rfl

theorem convert_long {size : Size} {kind : Kind}
    (stored : Stored mem (s.pfmt + 1) (size.letters ++ [kind.letter]))
    (params : s.params = slot :: rest) (negates : ¬ (kind.signed = true ∧ slot = intMin 64)) :
    convert mem junk s = .ok { (s.take rest).write (baseMark kind.base ++ kind.digits slot)
      (kind.digits slot).length with
      pfmt := s.pfmt + size.letters.length } := by
  cases size with
  | l =>
    have first : mem (s.pfmt + 1) = ascii 'l' := stored 0 _ rfl
    have second : mem (s.pfmt + 2) = kind.letter := stored 1 _ rfl
    have other : mem (s.pfmt + 2) ≠ ascii 'l' := by rw [second]; cases kind <;> decide
    have branch : convert mem junk s = printLong mem junk s := by
      rw [convert, first, if_neg other]
      rfl
    exact branch.trans (printLong_eq second params negates)
  | ll =>
    have first : mem (s.pfmt + 1) = ascii 'l' := stored 0 _ rfl
    have second : mem (s.pfmt + 2) = ascii 'l' := stored 1 _ rfl
    have third : mem (s.pfmt + 1 + 2) = kind.letter := stored 2 _ rfl
    have branch : convert mem junk s = printLong mem junk { s with pfmt := s.pfmt + 1 } := by
      rw [convert, first, if_pos second]
      rfl
    exact branch.trans (printLong_eq third params negates)
  | z =>
    have first : mem (s.pfmt + 1) = ascii 'z' := stored 0 _ rfl
    have second : mem (s.pfmt + 2) = kind.letter := stored 1 _ rfl
    have branch : convert mem junk s = printLong mem junk s := by
      rw [convert, first]
      rfl
    exact branch.trans (printLong_eq second params negates)

variable {item : Item}

/-- A conversion whose `switch` prints the text of the item, adds `count` and passes over `back`
characters. -/
theorem pass_conversion (count back : Nat) (sign : mem s.pfmt = ascii '%')
    (run : convert mem (stack s.pfmt) s =
      .ok { (s.take rest).write item.printed count with pfmt := s.pfmt + back })
    (length : item.spelling.length = back + 2) (counted : item.counted = count + 1) :
    pass mem stack s = .ok (s.behind item rest) := by
  rw [pass_of_convert sign run, behind, length, counted]
  simp only [write, take, ofNat_add, Nat.add_assoc, BitVec.add_assoc]

theorem pass_item (stored : Stored mem s.pfmt item.spelling) (params : s.params = item.args ++ rest)
    (fitting : item.Matches mem) : pass mem stack s = .ok (s.behind item rest) := by
  cases item with
  | text b nonzero ordinary =>
    have first : mem s.pfmt = b := stored 0 _ rfl
    have all : s.params = rest := params
    rw [pass, first, if_neg ordinary, all]
    simp only [behind, Item.counted, Item.printed, Item.spelling, List.length_singleton, BitVec.add_zero]
  | percent =>
    have second : mem (s.pfmt + 1) = ascii '%' := stored 1 _ rfl
    have all : s.take rest = s := by rw [take, ← show s.params = rest from params]
    refine pass_conversion 1 0 (stored 0 _ rfl) ?_ rfl rfl
    rw [convert, second, all]
    rfl
  | char slot =>
    have second : mem (s.pfmt + 1) = ascii 'c' := stored 1 _ rfl
    refine pass_conversion 1 0 (stored 0 _ rfl) ?_ rfl rfl
    rw [convert, second, vaArg_cons params]
    rfl
  | string slot bytes =>
    have second : mem (s.pfmt + 1) = ascii 's' := stored 1 _ rfl
    refine pass_conversion bytes.length 0 (stored 0 _ rfl) ?_ rfl rfl
    rw [convert, second]
    exact printStr_eq params fitting
  | pointer slot =>
    have second : mem (s.pfmt + 1) = ascii 'p' := stored 1 _ rfl
    refine pass_conversion 18 0 (stored 0 _ rfl) ?_ rfl rfl
    rw [convert, second]
    exact printPointer_eq params
  | int kind slot =>
    exact pass_conversion _ 0 (stored 0 _ rfl) (convert_int (stored 1 _ rfl) params) rfl rfl
  | long size kind slot negates =>
    obtain ⟨first, others⟩ := stored_cons.mp stored
    refine pass_conversion _ size.letters.length first (convert_long others params negates) ?_ rfl
    rw [Item.spelling, List.length_cons, length_append, List.length_singleton]

theorem spelling_nonzero (stored : Stored mem s.pfmt item.spelling) : mem s.pfmt ≠ 0#8 := by
  cases item with
  | text b nonzero ordinary =>
    rwa [show mem s.pfmt = b from stored 0 _ rfl]
  | _ =>
    rw [show mem s.pfmt = ascii '%' from stored 0 _ rfl]
    decide

theorem loop_items {items : List Item} {more : List (BitVec 64)} {fuel : Nat} (total : Nat)
    (stored : Stored mem s.pfmt (spell items ++ [0#8]))
    (params : s.params = items.flatMap Item.args ++ more)
    (fitting : ∀ item ∈ items, item.Matches mem) (counted : s.nwritten = BitVec.ofNat 64 total)
    (enough : items.length < fuel) :
    loop mem stack fuel s =
      .ok (((BitVec.ofNat 64 (total + (items.map Item.counted).sum)).setWidth 32).toInt,
        s.out ++ items.flatMap Item.printed) := by
  induction items generalizing fuel s total with
  | nil =>
    obtain ⟨fuel, rfl⟩ := exists_succ_of_lt enough
    have ended : mem s.pfmt = 0#8 := stored 0 _ rfl
    rw [loop, if_pos ended, counted]
    simp
  | cons item items ih =>
    obtain ⟨fuel, rfl⟩ := exists_succ_of_lt enough
    rw [spell, flatMap_cons, append_assoc] at stored
    rw [flatMap_cons, append_assoc] at params
    obtain ⟨here, further⟩ := stored.append
    have run : pass mem stack s = _ := pass_item here params (fitting item List.mem_cons_self)
    have next := ih (s := s.behind item _) (total + item.counted) further rfl
      (fun other member => fitting other (List.mem_cons_of_mem item member))
      (by rw [behind, counted, ofNat_add]) (Nat.lt_of_succ_lt_succ enough)
    rw [loop, if_neg (spelling_nonzero here), run, ok_bind, next, map_cons, sum_cons, flatMap_cons,
      Nat.add_assoc, behind, append_assoc]

end Kvprintf

theorem Item.counted_eq (item : Item) : (item.counted : Int) = item.printed.length + item.surplus := by
  cases item with
  | pointer slot =>
    rw [printed, length_append, Kvprintf.hexDigits_length]
    rfl
  | int kind slot =>
    have mark : ((baseMark kind.base).length : Int) =
        1 - (Item.int kind slot).surplus := by cases kind <;> rfl
    rw [counted, printed, length_append]
    omega
  | long size kind slot negates =>
    have mark : ((baseMark kind.base).length : Int) =
        1 - (Item.long size kind slot negates).surplus := by cases kind <;> rfl
    rw [counted, printed, length_append]
    omega
  | _ => simp [counted, printed, surplus]

theorem counted_sum (items : List Item) :
    ((items.map Item.counted).sum : Int) = (items.flatMap Item.printed).length +
    (items.map Item.surplus).sum := by
  induction items with
  | nil => rfl
  | cons item items ih =>
    have one := item.counted_eq
    simp only [map_cons, sum_cons, flatMap_cons, length_append]
    omega

/-- A count that went through `size_t` and `int` is `length` exactly if `length` is an `int` and
the two agree in their last 32 bits. -/
theorem returned_iff {total length : Nat} {surplus : Int} (sum : (total : Int) = length + surplus) :
    ((BitVec.ofNat 64 total).setWidth 32).toInt = length ↔ length < 2 ^ 31 ∧ (2 ^ 32 : Int) ∣ surplus := by
  rw [BitVec.toInt_setWidth, toNat_ofNat, Int.bmod_eq_iff (by decide)]
  omega

end

theorem one_le_spelling (item : Item) : 1 ≤ item.spelling.length := by
  cases item <;> simp [Item.spelling]

/-- What a format prints, and when the value that is returned is the number of characters: the
conversions other than those to base 16 have to make up for the conversions to base 16 and the
ordinary characters. -/
theorem kvprintf_counts (mem : Nat → Byte) (stack : Nat → Nat → Byte) (fmt : Nat)
    (items : List Item) (more : List (BitVec 64)) (stored : Stored mem fmt (spell items ++ [0#8]))
    (fits : fmt + (spell items).length < wordMod) (fitting : ∀ item ∈ items, item.Matches mem) :
    ∃ value, kvprintf mem stack fmt (items.flatMap Item.args ++ more) =
      .ok (value, items.flatMap Item.printed) ∧ (value = (items.flatMap Item.printed).length ↔
        (items.flatMap Item.printed).length < 2 ^ 31 ∧ (2 ^ 32 : Int) ∣ (items.map Item.surplus).sum) := by
  have short : items.length < passes := by
    have bound := length_le_flatMap Item.spelling one_le_spelling items
    rw [← spell] at bound
    rw [wordMod] at fits
    rw [passes]
    omega
  have run : kvprintf mem stack fmt (items.flatMap Item.args ++ more) = _ :=
    Kvprintf.loop_items 0 stored rfl fitting rfl short
  refine ⟨_, run, ?_⟩
  rw [Nat.zero_add]
  exact returned_iff (counted_sum items)

def formatAt (fmt : Nat) (items : List Item) : Nat → Byte :=
  fun a => ((spell items ++ [0#8])[a - fmt]?).getD 0#8

theorem formatAt_stored (fmt : Nat) (items : List Item) :
    Stored (formatAt fmt items) fmt (spell items ++ [0#8]) := by
  intro j b inside
  rw [formatAt, Nat.add_sub_cancel_left, inside]
  rfl

theorem a_ordinary : ascii 'a' ≠ 0#8 ∧ ascii 'a' ≠ ascii '%' := by decide

def letterA : Item := .text (ascii 'a') a_ordinary.1 a_ordinary.2

/-- In `%ca` the conversion makes up for the character. -/
theorem kvprintf_counts_balanced :
    kvprintf (formatAt 16 [.char 0x62#64, letterA]) (fun _ _ => 0#8) 16 [0x62#64] =
      .ok (2, [ascii 'b', ascii 'a']) := by
  obtain ⟨value, run, counts⟩ := kvprintf_counts (formatAt 16 [.char 0x62#64, letterA]) (fun _ _ => 0#8) 16
    [.char 0x62#64, letterA] [] (formatAt_stored 16 _) (by decide) (by simp [letterA, Item.Matches])
  have two : value = 2 := counts.mpr (by decide)
  rw [two] at run
  exact run

/-- A format of one ordinary character. -/
theorem character_not_counted :
    kvprintf (formatAt 16 [letterA]) (fun _ _ => 0#8) 16 [] = .ok (0, [ascii 'a']) := rfl

end ByteOS.Libk
