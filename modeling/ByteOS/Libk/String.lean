import ByteOS.Lib.Bytes
import ByteOS.Mm.Addr

/-! The functions of `libk/string.c`.

`strlen` and `memcmp` are given the strings that stand in memory. `memmove` stores byte by byte into the range it reads from. It is specified by a move that
happens all at once. Each loop is followed with a partial move: a part of the range has its new
bytes, everything else still its old ones, and the next byte to be read is among the latter.
-/

set_option autoImplicit false

namespace ByteOS.Libk

open Lib Mm
open BitVec (ofNat)

/-! ## Strings -/

def strlen (mem : Nat → Byte) : Nat → Nat → Except Fault Nat
  | 0, _ => .error .unfinished
  | fuel + 1, s => if mem s = 0#8 then .ok 0 else do return (← strlen mem fuel (s + 1)) + 1

def memcmp (mem : Nat → Byte) (s1 s2 : Nat) : Nat → Int
  | 0 => 0
  | n + 1 => if mem s1 < mem s2 then -1 else if mem s2 < mem s1 then 1 else memcmp mem (s1 + 1) (s2 + 1) n

/-- The bytes stand in memory from `addr` on. -/
def Stored (mem : Nat → Byte) (addr : Nat) (bytes : List Byte) : Prop :=
  ∀ j b, bytes[j]? = some b → mem (addr + j) = b

structure CString (mem : Nat → Byte) (addr : Nat) (bytes : List Byte) : Prop where
  stored : Stored mem addr bytes
  ended : mem (addr + bytes.length) = 0#8
  text : 0#8 ∉ bytes

section Strings

variable {mem : Nat → Byte} {addr cur k fuel : Nat} {b : Byte} {bytes target : List Byte}

theorem Stored.append {first second : List Byte} (stored : Stored mem addr (first ++ second)) :
    Stored mem addr first ∧ Stored mem (addr + first.length) second := by
  constructor
  · intro j b inside
    exact stored j b (List.getElem?_append_left (List.getElem?_eq_some_iff.mp inside).1 ▸ inside)
  · intro j b inside
    rw [Nat.add_assoc]
    refine stored (first.length + j) b ?_
    rwa [List.getElem?_append_right (Nat.le_add_right _ _), Nat.add_sub_cancel_left]

@[simp] theorem stored_nil (addr : Nat) : Stored mem addr [] := nofun

theorem stored_cons : Stored mem addr (b :: bytes) ↔ mem addr = b ∧ Stored mem (addr + 1) bytes := by
  constructor
  · intro stored
    refine ⟨stored 0 b rfl, fun j c inside => ?_⟩
    rw [Nat.add_assoc, Nat.add_comm 1]
    exact stored (j + 1) c inside
  · rintro ⟨first, rest⟩ j c inside
    cases j with
    | zero => exact first.trans (Option.some.inj inside)
    | succ j =>
      rw [← Nat.add_assoc, Nat.add_right_comm]
      exact rest j c inside

theorem CString.tail (string : CString mem cur (b :: bytes)) : CString mem (cur + 1) bytes where
  stored := (stored_cons.mp string.stored).2
  ended := by
    rw [Nat.add_assoc, Nat.add_comm 1]
    exact string.ended
  text zero := string.text (List.mem_cons_of_mem b zero)

theorem strlen_eq (string : CString mem addr bytes) (enough : bytes.length < fuel) :
    strlen mem fuel addr = .ok bytes.length := by
  induction bytes generalizing addr fuel with
  | nil =>
    obtain ⟨fuel, rfl⟩ := Nat.exists_eq_succ_of_ne_zero enough.ne'
    exact if_pos string.ended
  | cons b bytes ih =>
    obtain ⟨fuel, rfl⟩ := Nat.exists_eq_succ_of_ne_zero (Nat.ne_zero_of_lt enough)
    have first := (stored_cons.mp string.stored).1
    have nonzero : mem addr ≠ 0#8 :=
      fun zero => string.text (by rw [← zero, first]; exact List.mem_cons_self)
    rw [strlen, if_neg nonzero, ih string.tail (Nat.lt_of_succ_lt_succ enough)]
    rfl

theorem strlen_ends (zero : mem (cur + k) = 0#8) (enough : k < fuel) :
    ∃ n, strlen mem fuel cur = .ok n := by
  induction k generalizing cur fuel with
  | zero =>
    obtain ⟨fuel, rfl⟩ := Nat.exists_eq_succ_of_ne_zero enough.ne'
    exact ⟨0, if_pos zero⟩
  | succ k ih =>
    obtain ⟨fuel, rfl⟩ := Nat.exists_eq_succ_of_ne_zero (Nat.ne_zero_of_lt enough)
    rw [strlen]
    split
    case isTrue => exact ⟨0, rfl⟩
    case isFalse =>
      have zero : mem (cur + 1 + k) = 0#8 := by rwa [Nat.add_assoc, Nat.add_comm 1]
      obtain ⟨n, ends⟩ := ih zero (Nat.lt_of_succ_lt_succ enough)
      exact ⟨n + 1, by rw [ends]; rfl⟩

theorem apart (a b : Byte) : (¬ a < b ∧ ¬ b < a) ↔ a = b := by
  simp only [BitVec.lt_def, ← BitVec.toNat_inj]
  omega

theorem memcmp_eq_zero {s1 s2 n : Nat} : memcmp mem s1 s2 n = 0 ↔ ∀ i < n, mem (s1 + i) = mem (s2 + i) := by
  induction n generalizing s1 s2 with
  | zero => simp [memcmp]
  | succ n ih =>
    rw [memcmp, Nat.forall_lt_succ_left, s1.add_zero, s2.add_zero, ← apart (mem s1)]
    split
    case isTrue less => simp [less]
    case isFalse notLess =>
      split
      case isTrue greater => simp [greater]
      case isFalse notGreater =>
        rw [ih]
        simp [notLess, notGreater, Nat.add_assoc, Nat.add_comm 1]

theorem CString.drop (string : CString mem cur target) {n : Nat} (inside : n ≤ target.length) :
    CString mem (cur + n) (target.drop n) := by
  induction n generalizing cur target with
  | zero => exact string
  | succ n ih =>
    cases target with
    | nil => cases inside
    | cons b target =>
      rw [List.drop_succ_cons, Nat.add_comm n, ← Nat.add_assoc]
      exact ih string.tail (Nat.le_of_succ_le_succ inside)

/-- Text without a zero compares equal to the front of a string exactly if it is a prefix of
it: a shorter string differs at its end. -/
theorem CString.memcmp_iff (string : CString mem cur target) (stored : Stored mem addr bytes)
    (text : 0#8 ∉ bytes) : memcmp mem addr cur bytes.length = 0 ↔ bytes <+: target := by
  rw [memcmp_eq_zero]
  induction bytes generalizing addr cur target with
  | nil => simp
  | cons b bytes ih =>
    obtain ⟨first, rest⟩ := stored_cons.mp stored
    rw [List.length_cons, Nat.forall_lt_succ_left, Nat.add_zero, Nat.add_zero, first]
    cases target with
    | nil =>
      have ended : mem cur = 0#8 := string.ended
      have nonzero : b ≠ 0#8 := fun zero => text (zero ▸ List.mem_cons_self)
      simp [ended, nonzero]
    | cons c target =>
      have here : mem cur = c := (stored_cons.mp string.stored).1
      have tail := ih string.tail rest fun zero => text (List.mem_cons_of_mem b zero)
      rw [List.cons_prefix_cons, here, ← tail]
      simp [Nat.add_assoc, Nat.add_comm 1]

end Strings

/-! ## Copying -/

def copyByte (mem : Memory) (dst src : BitVec 64) (i : Nat) : Memory :=
  Function.update mem (dst + ofNat 64 i) (mem (src + ofNat 64 i))

def copyUp (mem : Memory) (dst src : BitVec 64) : Nat → Memory
  | 0 => mem
  | i + 1 => copyByte (copyUp mem dst src i) dst src i

def copyDown (mem : Memory) (dst src : BitVec 64) : Nat → Memory
  | 0 => mem
  | i + 1 => copyDown (copyByte mem dst src i) dst src i

/-- The memory that `memcpy` leaves, and what it returns. -/
def memcpy (mem : Memory) (s1 s2 n : BitVec 64) : Memory × BitVec 64 := (copyUp mem s1 s2 n.toNat, s1)

/-- The memory that `memmove` leaves, and what it returns. -/
def memmove (mem : Memory) (s1 s2 n : BitVec 64) : Memory × BitVec 64 :=
  if s1 < s2 then (copyUp mem s1 s2 n.toNat, s1) else (copyDown mem s1 s2 n.toNat, s1)

/-- The bytes `lo` to `hi` of the destination have been moved, all at once. -/
def moved (mem : Memory) (dst src : BitVec 64) (lo hi : Nat) : Memory := fun a =>
  if lo ≤ (a - dst).toNat ∧ (a - dst).toNat < hi then mem (src + (a - dst)) else mem a

section Move

variable {mem : Memory} {dst src : BitVec 64} {lo hi i n : Nat}

theorem moved_inside (low : lo ≤ i) (high : i < hi) (short : i < 2 ^ 64) :
    moved mem dst src lo hi (dst + ofNat 64 i) = mem (src + ofNat 64 i) := by
  have offset : dst + ofNat 64 i - dst = ofNat 64 i := by
    rw [BitVec.add_comm dst, BitVec.add_sub_cancel]
  rw [moved, offset_toNat dst short, if_pos ⟨low, high⟩, offset]

theorem moved_outside {a : BitVec 64} (outside : (a - dst).toNat < lo ∨ hi ≤ (a - dst).toNat) :
    moved mem dst src lo hi a = mem a := by
  rw [moved, if_neg (by omega)]

theorem moved_none : moved mem dst src i i = mem := by
  funext a
  exact moved_outside (Nat.lt_or_ge _ _)

theorem copyByte_moved (short : i < 2 ^ 64) {lo' hi' : Nat}
    (unread : moved mem dst src lo hi (src + ofNat 64 i) = mem (src + ofNat 64 i))
    (grown : ∀ j, lo' ≤ j ∧ j < hi' ↔ j = i ∨ lo ≤ j ∧ j < hi) :
    copyByte (moved mem dst src lo hi) dst src i = moved mem dst src lo' hi' := by
  funext a
  by_cases here : a = dst + ofNat 64 i
  · subst here
    have inside := (grown i).mpr (.inl rfl)
    rw [copyByte, Function.update_self, unread, moved_inside inside.1 inside.2 short]
  · have other : (a - dst).toNat ≠ i := by
      intro same
      apply here
      rw [← same, BitVec.ofNat_toNat, BitVec.setWidth_eq, BitVec.add_comm, BitVec.sub_add_cancel]
    rw [copyByte, Function.update_of_ne here]
    simp only [moved, grown, other, false_or]

theorem source_above (above : dst < src) (fits : src.toNat + n ≤ 2 ^ 64) (inside : i < n) :
    i < (src + ofNat 64 i - dst).toNat := by
  have order : dst.toNat < src.toNat := above
  simp only [BitVec.toNat_sub, BitVec.toNat_add, BitVec.toNat_ofNat]
  omega

/-- A byte of the source is at the same offset or before it, or wraps around below the
destination, when the source is not above it. -/
theorem source_below (below : ¬ dst < src) (fits : dst.toNat + n ≤ 2 ^ 64) :
    (src + ofNat 64 i - dst).toNat ≤ i ∨ n ≤ (src + ofNat 64 i - dst).toNat := by
  have order : src.toNat ≤ dst.toNat := Nat.le_of_not_lt below
  have bound := dst.isLt
  simp only [BitVec.toNat_sub, BitVec.toNat_add, BitVec.toNat_ofNat]
  omega

/-- The loop that counts up has moved what it has passed. -/
theorem copyUp_moved (above : dst < src) (fits : src.toNat + n ≤ 2 ^ 64) (inside : i ≤ n) :
    copyUp mem dst src i = moved mem dst src 0 i := by
  induction i with
  | zero => exact moved_none.symm
  | succ i ih =>
    have unread : moved mem dst src 0 i (src + ofNat 64 i) = mem (src + ofNat 64 i) :=
      moved_outside (.inr (source_above above fits inside).le)
    rw [copyUp, ih (Nat.le_of_succ_le inside)]
    exact copyByte_moved (by omega) unread (by omega)

/-- The loop that counts down finishes a move of the upper part. -/
theorem copyDown_moved (below : ¬ dst < src) (fits : dst.toNat + n ≤ 2 ^ 64) (inside : i ≤ n) :
    copyDown (moved mem dst src i n) dst src i = moved mem dst src 0 n := by
  induction i with
  | zero => rfl
  | succ i ih =>
    have unread : moved mem dst src (i + 1) n (src + ofNat 64 i) =
        mem (src + ofNat 64 i) := by
      apply moved_outside
      exact (source_below below fits).imp_left Nat.lt_succ_of_le
    have step : copyByte (moved mem dst src (i + 1) n) dst src i = moved mem dst src i n :=
      copyByte_moved (by omega) unread (by omega)
    rw [copyDown, step, ih (Nat.le_of_succ_le inside)]

end Move

theorem memmove_moved {mem : Memory} {dst src n : BitVec 64} (target : dst.toNat + n.toNat ≤ 2 ^ 64)
    (source : src.toNat + n.toNat ≤ 2 ^ 64) :
    memmove mem dst src n = (moved mem dst src 0 n.toNat, dst) := by
  unfold memmove
  split
  case isTrue above => rw [copyUp_moved above source le_rfl]
  case isFalse below =>
    have done : copyDown (moved mem dst src n.toNat n.toNat) dst src n.toNat = _ :=
      copyDown_moved below target le_rfl
    rw [moved_none] at done
    rw [done]

/-- Whatever the overlap, the destination has the bytes that were at the source, and every other
byte is unchanged. -/
theorem memmove_copies (mem : Memory) (dst src n : BitVec 64)
    (target : dst.toNat + n.toNat ≤ 2 ^ 64) (source : src.toNat + n.toNat ≤ 2 ^ 64) :
    ∃ mem', memmove mem dst src n = (mem', dst) ∧
      (∀ i < n.toNat, mem' (dst + ofNat 64 i) = mem (src + ofNat 64 i)) ∧
      ∀ a : BitVec 64, a.toNat < dst.toNat ∨ dst.toNat + n.toNat ≤ a.toNat → mem' a = mem a := by
  refine ⟨_, memmove_moved target source, fun i inside => ?_, fun a outside => ?_⟩
  · exact moved_inside (Nat.zero_le i) inside (inside.trans n.isLt)
  · apply moved_outside
    right
    have bound := a.isLt
    rw [BitVec.toNat_sub]
    omega

theorem memmove_copies_up_two : ∃ mem',
    memmove (image 0x1000#64 [1#8, 2#8, 3#8]) 0x1002#64 0x1000#64 3#64 = (mem', 0x1002#64) ∧
      BytesAt mem' 0x1000#64 [1#8, 2#8, 1#8, 2#8, 3#8] := by
  obtain ⟨mem', run, inside, outside⟩ :=
    memmove_copies (image 0x1000#64 [1#8, 2#8, 3#8]) 0x1002#64 0x1000#64 3#64 (by decide) (by decide)
  refine ⟨mem', run, ?_, ?_, inside 0 (by decide), inside 1 (by decide), inside 2 (by decide), trivial⟩
  · exact outside _ (by decide)
  · exact outside _ (by decide)

end ByteOS.Libk
