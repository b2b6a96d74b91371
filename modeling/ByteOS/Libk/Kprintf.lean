import ByteOS.Lib.Chain
import ByteOS.Libk.String
import Mathlib.Data.Nat.Digits.Lemmas

/-! The printing of integers (`libk/kprintf.c`).

The digits are stored backwards from the end of a buffer on the stack, so that the buffer holds
a string at every pass of the loop. The printed characters are compared with the list of digits
of the number.
-/

set_option autoImplicit false

namespace ByteOS.Libk

open Lib Mm

/-- The characters that were passed to `kprintf_write_char`. -/
abbrev Output := List Byte

def atoiBuflen : Nat := 256

def literal (text : String) : List Byte := text.toList.map ascii

/-- The loop of `kprintf_write_str` over an object of `size` bytes. -/
def kprintfWriteStr (size : Nat) (mem : Nat → Byte) : Nat → Nat → Output → Except Fault Output
  | 0, _, _ => .error .unfinished
  | fuel + 1, s, out =>
    if s < size then if mem s = 0#8 then .ok out else kprintfWriteStr size mem fuel (s + 1) (out ++ [mem s])
    else .error .outOfRange

def digitByte (digit : Nat) : Byte := ((literal "0123456789ABCDEF")[digit]?).getD 0#8

def digitToChar (digit : BitVec 32) : Except Fault Byte := do
  kassert (digit.toNat < 16) "digit < 16"
  return digitByte digit.toNat

/-- The loop of both branches of `atoi_print`: `n` is an `int64_t` in the one and a `uint64_t` in
the other. The index `next` is that of `p_buf + 1`. -/
def digitLoop (base : Nat) : Nat → Int → (Nat → Byte) → Nat → Nat → Except Fault ((Nat → Byte) × Nat × Nat)
  | 0, _, _, _, _ => .error .unfinished
  | fuel + 1, n, buf, next, nwritten =>
    if n = 0 then .ok (buf, next, nwritten)
    else do
      let c ← digitToChar (BitVec.ofInt 32 (n.tmod base))
      match next with
      | 0 => .error .outOfRange
      | p + 1 => digitLoop base fuel (n.tdiv base) (Function.update buf p c) p (nwritten + 1)

/-- The loop and the call of `kprintf_write_str` behind it. -/
def printDigits (buf : Nat → Byte) (base : Nat) (n : Int) (nwritten : Nat) (out : Output) :
    Except Fault (Output × Nat) := do
  let (buf, next, nwritten) ← digitLoop base passes n buf (atoiBuflen - 1) nwritten
  return (← kprintfWriteStr atoiBuflen buf passes next out, nwritten)

/-- `atoi_print`. The buffer starts with any contents. The build with assertions also checks
the negation for overflow. -/
def atoiPrint (junk : Nat → Byte) (num : BitVec 64) (sign : Bool) (base : Nat) (out : Output) :
    Except Fault (Output × Nat) :=
  let buf := Function.update junk (atoiBuflen - 1) 0#8
  let out := if base = 16 then out ++ literal "0x" else out
  if num = 0#64 then .ok (out ++ literal "0", 1)
  else if sign then
    if num.toInt < 0 then
      if num = BitVec.intMin 64 then .error (.panic "ubsan fatal error: negation overflow")
      else printDigits buf base (-num.toInt) 1 (out ++ literal "-")
    else printDigits buf base num.toInt 0 out
  else printDigits buf base num.toNat 0 out

def natNumeral (base n : Nat) : List Byte :=
  if n = 0 then literal "0" else (base.digits n).reverse.map digitByte

def numeral (base : Nat) (z : Int) : List Byte :=
  (if z < 0 then literal "-" else []) ++ natNumeral base z.natAbs

def baseMark (base : Nat) : List Byte := if base = 16 then literal "0x" else []

def valueOf (num : BitVec 64) (sign : Bool) : Int := if sign then num.toInt else num.toNat

section

variable {mem buf : Nat → Byte} {size s fuel base n next nwritten : Nat} {bytes : List Byte}
    {out : Output} {c : Byte}

theorem kprintfWriteStr_eq (out : Output) (string : CString mem s bytes)
    (room : s + bytes.length < size) (enough : bytes.length < fuel) :
    kprintfWriteStr size mem fuel s out = .ok (out ++ bytes) := by
  induction bytes generalizing s fuel out with
  | nil =>
    obtain ⟨fuel, rfl⟩ := exists_succ_of_lt enough
    have inside : s < size := room
    have zero : mem s = 0#8 := string.ended
    rw [kprintfWriteStr, if_pos inside, if_pos zero, List.append_nil]
  | cons b bytes ih =>
    obtain ⟨fuel, rfl⟩ := exists_succ_of_lt enough
    rw [List.length_cons] at room enough
    have inside : s < size := by omega
    have first := (stored_cons.mp string.stored).1
    have nonzero : mem s ≠ 0#8 := fun zero => string.text (by rw [← zero, first]; exact List.mem_cons_self)
    rw [kprintfWriteStr, if_pos inside, if_neg nonzero, first,
      ih (out ++ [b]) string.tail (by omega) (Nat.lt_of_succ_lt_succ enough), List.append_assoc,
      List.singleton_append]

theorem CString.push (string : CString buf (next + 1) bytes) (nonzero : c ≠ 0#8) :
    CString (Function.update buf next c) next (c :: bytes) where
  stored := by
    refine stored_cons.mpr ⟨Function.update_self next c buf, fun j b inside => ?_⟩
    rw [Function.update_of_ne (by omega)]
    exact string.stored j b inside
  ended := by
    rw [Function.update_of_ne (by simp), List.length_cons, Nat.add_comm bytes.length, ← Nat.add_assoc]
    exact string.ended
  text := by
    intro zero
    cases zero with
    | head => exact nonzero rfl
    | tail _ zero => exact string.text zero

theorem digitByte_ne_zero {d : Nat} (small : d < 16) : digitByte d ≠ 0#8 := by
  have checked : ∀ d : Fin 16, digitByte d ≠ 0#8 := by decide
  exact checked ⟨d, small⟩

theorem digitToChar_mod (positive : 0 < base) (small : base ≤ 16) :
    digitToChar (BitVec.ofInt 32 ((n : Int).tmod base)) = .ok (digitByte (n % base)) := by
  have below : n % base < 16 := (Nat.mod_lt n positive).trans_le small
  have same : (BitVec.ofInt 32 ((n : Int).tmod base)).toNat = n % base := by
    rw [← Int.ofNat_tmod, BitVec.ofInt_natCast, BitVec.toNat_ofNat, Nat.mod_eq_of_lt (by omega)]
  rw [digitToChar, same, kassert, if_pos below]
  rfl

/-- The loop stores the digits in front of the string that is in the buffer. -/
theorem digitLoop_digits (two : 1 < base) (small : base ≤ 16) (string : CString buf next bytes)
    (room : (base.digits n).length ≤ next) (enough : (base.digits n).length < fuel) (nwritten : Nat) :
    ∃ buf', digitLoop base fuel n buf next nwritten =
        .ok (buf', next - (base.digits n).length, nwritten + (base.digits n).length) ∧
      CString buf' (next - (base.digits n).length) ((base.digits n).reverse.map digitByte ++ bytes) := by
  induction n using Nat.strongRecOn generalizing fuel buf next nwritten bytes with
  | ind n ih =>
    obtain ⟨fuel, rfl⟩ := exists_succ_of_lt enough
    rcases Nat.eq_zero_or_pos n with rfl | positive
    · exact ⟨buf, by simp [digitLoop], by simpa using string⟩
    · have split := Nat.digits_def' two positive
      rw [split, List.length_cons] at room enough
      obtain ⟨p, rfl⟩ : ∃ p, next = p + 1 := Nat.exists_eq_succ_of_ne_zero (Nat.ne_zero_of_lt room)
      have digit := digitToChar_mod (n := n) (Nat.zero_lt_of_lt two) small
      have nonzero := digitByte_ne_zero ((Nat.mod_lt n (Nat.zero_lt_of_lt two)).trans_le small)
      obtain ⟨buf', run, after⟩ := ih (n / base) (Nat.div_lt_self positive two)
        (CString.push string nonzero) (Nat.le_of_succ_le_succ room) (Nat.lt_of_succ_lt_succ enough)
          (nwritten + 1)
      have shorter : p + 1 - ((base.digits (n / base)).length + 1) =
          p - (base.digits (n / base)).length := by omega
      refine ⟨buf', ?_, ?_⟩
      · rw [digitLoop, if_neg (by omega), digit, ok_bind, ← Int.ofNat_tdiv]
        refine run.trans ?_
        rw [split, List.length_cons, shorter, Nat.add_assoc, Nat.add_comm 1]
      · rwa [split, List.length_cons, shorter, List.reverse_cons, List.map_append, List.append_assoc]

theorem digits_length_le (two : 1 < base) (low : n < 2 ^ 64) : (base.digits n).length ≤ 64 :=
  (Nat.digits_length_le_iff two n).mpr (low.trans_le (Nat.pow_le_pow_left two 64))

theorem printDigits_eq (two : 1 < base) (small : base ≤ 16) (ended : buf (atoiBuflen - 1) = 0#8)
    (positive : n ≠ 0) (low : n < 2 ^ 64) :
    printDigits buf base n nwritten out = .ok (out ++ natNumeral base n,
      nwritten + (natNumeral base n).length) := by
  have short := digits_length_le two low
  have empty : CString buf (atoiBuflen - 1) [] := ⟨stored_nil _, ended, List.not_mem_nil⟩
  obtain ⟨buf', run, string⟩ := digitLoop_digits two small empty (short.trans (by decide))
    (short.trans_lt (by decide : 64 < passes)) nwritten
  rw [List.append_nil] at string
  have length : ((base.digits n).reverse.map digitByte).length = (base.digits n).length := by
    rw [List.length_map, List.length_reverse]
  have printed : kprintfWriteStr atoiBuflen buf' passes (atoiBuflen - 1 - (base.digits n).length) out = _ :=
    kprintfWriteStr_eq out string (by rw [length, atoiBuflen]; omega)
      (by rw [length]; exact short.trans_lt (by decide))
  rw [printDigits, run]
  simp only [ok_bind, printed, natNumeral, if_neg positive, length]
  rfl

theorem numeral_natCast (base n : Nat) : numeral base n = natNumeral base n := by
  rw [numeral, if_neg (by omega), List.nil_append, Int.natAbs_natCast]

theorem numeral_neg {z : Int} (negative : z < 0) :
    numeral base z = literal "-" ++ natNumeral base z.natAbs := by
  rw [numeral, if_pos negative]

theorem atoiPrint_eq {num : BitVec 64} {sign : Bool} (junk : Nat → Byte) (two : 1 < base)
    (small : base ≤ 16) (negates : ¬ (sign = true ∧ num = BitVec.intMin 64)) (out : Output) :
    atoiPrint junk num sign base out =
      .ok (out ++ (baseMark base ++ numeral base (valueOf num sign)),
        (numeral base (valueOf num sign)).length) := by
  have front : (if base = 16 then out ++ literal "0x" else out) = out ++ baseMark base := by
    rw [baseMark]
    split
    · rfl
    · rw [List.append_nil]
  have ended : Function.update junk (atoiBuflen - 1) 0#8 (atoiBuflen - 1) = 0#8 := Function.update_self ..
  unfold atoiPrint
  rw [front]
  by_cases zero : num = 0#64
  · subst zero
    have value : valueOf 0#64 sign = (0 : Nat) := by cases sign <;> rfl
    rw [if_pos rfl, value, numeral_natCast, natNumeral, if_pos rfl, List.append_assoc]
    rfl
  · rw [if_neg zero, ← List.append_assoc]
    have positive : num.toNat ≠ 0 := fun same => zero (BitVec.eq_of_toNat_eq same)
    cases sign with
    | false =>
      have value : valueOf num false = num.toNat := rfl
      rw [if_neg Bool.false_ne_true, printDigits_eq two small ended positive num.isLt, value,
        numeral_natCast, Nat.zero_add]
    | true =>
      have value : valueOf num true = num.toInt := rfl
      rw [if_pos rfl, value]
      by_cases negative : num.toInt < 0
      · have opposite : -num.toInt = (num.toInt.natAbs : Nat) := by omega
        have low : num.toInt.natAbs < 2 ^ 64 := by have := num.isLt; have := num.le_toInt; omega
        rw [if_pos negative, if_neg fun same => negates ⟨rfl, same⟩, opposite,
          printDigits_eq two small ended (by omega) low,
          numeral_neg negative, List.append_assoc, List.length_append]
        rfl
      · have same : num.toInt = num.toNat :=
          BitVec.toInt_eq_toNat_of_msb (by rw [BitVec.msb_eq_toInt]; simpa using negative)
        rw [if_neg negative, same, printDigits_eq two small ended positive num.isLt,
          numeral_natCast, Nat.zero_add]

end

/-- The printed characters are the numeral of the number in its base, except for the least signed
number, whose negation overflows. -/
theorem atoi_print_faithful (junk : Nat → Byte) (num : BitVec 64) (sign : Bool) (base : Nat)
    (out : Output) (two : 1 < base) (small : base ≤ 16) :
    (∃ nwritten, atoiPrint junk num sign base out =
      .ok (out ++ (baseMark base ++ numeral base (valueOf num sign)), nwritten)) ↔
    ¬ (sign = true ∧ num = BitVec.intMin 64) := by
  constructor
  · rintro ⟨nwritten, printed⟩ ⟨rfl, rfl⟩
    have stopped : atoiPrint junk (BitVec.intMin 64) true base out =
      .error (.panic "ubsan fatal error: negation overflow") := rfl
    rw [stopped] at printed
    cases printed
  · intro negates
    exact ⟨_, atoiPrint_eq junk two small negates out⟩

theorem atoi_print_minus_one :
    ∃ nwritten, atoiPrint (fun _ => 0#8) (-1#64) true 10 [] = .ok (literal "-1", nwritten) := by
  have text : numeral 10 (valueOf (-1#64) true) = literal "-1" := by
    have value : valueOf (-1#64) true = -1 := by decide
    rw [value, numeral_neg (by decide), natNumeral, if_neg (by decide),
      Nat.digits_of_lt 10 _ (by decide) (by decide)]
    decide
  have printed :=
    (atoi_print_faithful (fun _ => 0#8) (-1#64) true 10 [] (by decide) (by decide)).mpr (by decide)
  rwa [text] at printed

/-- The least signed number. -/
theorem least_number_not_printed :
    atoiPrint (fun _ => 0#8) 0x8000000000000000#64 true 10 [] =
      .error (.panic "ubsan fatal error: negation overflow") := rfl

end ByteOS.Libk
