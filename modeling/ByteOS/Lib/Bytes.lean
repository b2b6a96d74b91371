import Mathlib.Data.List.Basic
import Mathlib.Logic.Function.Basic
import Mathlib.Tactic.Ring

/-! Memory of bytes at 64-bit addresses, and little-endian numbers in it.

Addresses wrap at the end of the address space. A list of bytes or of words stands at an
address if its members are read there one after the other. Reading can be traced: a traced
computation has the addresses that it read beside its value.
-/

set_option autoImplicit false

namespace ByteOS.Lib

open BitVec (ofNat ofNat_add toNat_ofNat toNat_sub toNat_add)

abbrev Byte : Type := BitVec 8

abbrev Memory := BitVec 64 → BitVec 8

def ascii (c : Char) : BitVec 8 := ofNat 8 c.toNat

/-- The number in the `n` bytes from `addr` on. -/
def readLe (mem : Memory) (addr : BitVec 64) : Nat → Nat
  | 0 => 0
  | n + 1 => (mem addr).toNat + 256 * readLe mem (addr + 1#64) n

def leBytes : Nat → Nat → List (BitVec 8)
  | 0, _ => []
  | n + 1, v => ofNat 8 v :: leBytes n (v / 256)

/-- The bytes stand in memory from `addr` on. -/
def BytesAt (mem : Memory) (addr : BitVec 64) : List (BitVec 8) → Prop
  | [] => True
  | b :: rest => mem addr = b ∧ BytesAt mem (addr + 1#64) rest

variable {mem : Memory} {addr : BitVec 64}

@[simp] theorem bytesAt_nil : BytesAt mem addr [] := trivial

@[simp] theorem bytesAt_cons {b : BitVec 8} {rest : List (BitVec 8)} :
    BytesAt mem addr (b :: rest) ↔ mem addr = b ∧ BytesAt mem (addr + 1#64) rest := Iff.rfl

@[simp] theorem leBytes_length (n v : Nat) : (leBytes n v).length = n := by
  induction n generalizing v with
  | zero => rfl
  | succ n ih => rw [leBytes, List.length_cons, ih]

theorem add_one_add (addr : BitVec 64) (n : Nat) :
    addr + 1#64 + ofNat 64 n = addr + ofNat 64 (n + 1) := by
  rw [BitVec.add_assoc, ofNat_add, BitVec.add_comm 1#64]

theorem bytesAt_append {first second : List (BitVec 8)} : BytesAt mem addr (first ++ second) ↔
    BytesAt mem addr first ∧ BytesAt mem (addr + ofNat 64 first.length) second := by
  induction first generalizing addr with
  | nil => simp
  | cons b rest ih =>
    simp only [List.cons_append, bytesAt_cons, ih, List.length_cons, add_one_add, and_assoc]

theorem readLe_eq {n v : Nat} (stored : BytesAt mem addr (leBytes n v)) :
    readLe mem addr n = v % 256 ^ n := by
  induction n generalizing addr v with
  | zero => rw [readLe, pow_zero, Nat.mod_one]
  | succ n ih =>
    obtain ⟨first, rest⟩ := stored
    have low : (ofNat 8 v).toNat = v % 256 := toNat_ofNat v 8
    rw [readLe, first, ih rest, low, pow_succ', Nat.mod_mul]

theorem readLe_toNat {w n : Nat} {v : BitVec w} (fits : 2 ^ w = 256 ^ n)
    (stored : BytesAt mem addr (leBytes n v.toNat)) : readLe mem addr n = v.toNat := by
  rw [readLe_eq stored, Nat.mod_eq_of_lt (fits ▸ v.isLt)]

theorem readLe_lt (mem : Memory) (addr : BitVec 64) (n : Nat) : readLe mem addr n < 256 ^ n := by
  induction n generalizing addr with
  | zero => exact Nat.one_pos
  | succ n ih =>
    have low := (mem addr).isLt
    have high := ih (addr + 1#64)
    rw [readLe, pow_succ']
    omega

theorem readLe_one (mem : Memory) (addr : BitVec 64) : readLe mem addr 1 = (mem addr).toNat := by
  rw [readLe, readLe, Nat.mul_zero, Nat.add_zero]

/-- What each member is spelled with takes at least a byte, so there are not more members than
bytes. -/
theorem length_le_flatMap {A B : Type} (f : A → List B) (some : ∀ a, 1 ≤ (f a).length)
    (l : List A) : l.length ≤ (l.flatMap f).length := by
  induction l with
  | nil => exact Nat.le_refl 0
  | cons a rest ih =>
    have here := some a
    rw [List.flatMap_cons, List.length_append, List.length_cons]
    omega

variable {bytes : List (BitVec 8)}

theorem bytesAt_iff :
    BytesAt mem addr bytes ↔ ∀ j b, bytes[j]? = some b → mem (addr + ofNat 64 j) = b := by
  induction bytes generalizing addr with
  | nil => simp
  | cons b rest ih =>
    rw [bytesAt_cons, ih]
    constructor
    · rintro ⟨first, others⟩ j c inside
      cases j with
      | zero => rw [BitVec.add_zero, first, Option.some.inj inside]
      | succ j => rw [← add_one_add, others j c inside]
    · intro all
      refine ⟨?_, fun j c inside => ?_⟩
      · rw [← all 0 b rfl, BitVec.add_zero]
      · rw [add_one_add, all (j + 1) c inside]

def image (base : BitVec 64) (bytes : List (BitVec 8)) : Memory :=
  fun addr => bytes.getD (addr - base).toNat 0#8

theorem offset_toNat (base : BitVec 64) {j : Nat} (low : j < 2 ^ 64) :
    (base + ofNat 64 j - base).toNat = j := by
  rw [BitVec.add_comm base, BitVec.add_sub_cancel, toNat_ofNat, Nat.mod_eq_of_lt low]

theorem image_bytesAt (base : BitVec 64) (short : bytes.length ≤ 2 ^ 64) :
    BytesAt (image base bytes) base bytes := by
  apply bytesAt_iff.mpr
  intro j b inside
  have low : j < bytes.length := (List.getElem?_eq_some_iff.mp inside).1
  rw [image, offset_toNat base (low.trans_le short), List.getD_eq_getElem?_getD, inside]
  rfl

/-! ## Traced reading -/

structure Traced (A : Type) where
  value : A
  reads : List (BitVec 64)

namespace Traced

variable {A B : Type}

instance : Monad Traced where
  pure a := ⟨a, []⟩
  bind t f := ⟨(f t.value).value, t.reads ++ (f t.value).reads⟩

@[simp] theorem value_pure (a : A) : (pure a : Traced A).value = a := rfl

@[simp] theorem reads_pure (a : A) : (pure a : Traced A).reads = [] := rfl

@[simp] theorem value_bind (t : Traced A) (f : A → Traced B) : (t >>= f).value = (f t.value).value := rfl

@[simp] theorem reads_bind (t : Traced A) (f : A → Traced B) :
    (t >>= f).reads = t.reads ++ (f t.value).reads := rfl

end Traced

/-- The number in the `n` bytes from `addr` on, each of which is read. -/
def load (mem : Memory) (addr : BitVec 64) (n : Nat) : Traced Nat :=
  ⟨readLe mem addr n, (List.range n).map fun j => addr + ofNat 64 j⟩

@[simp] theorem load_value (n : Nat) : (load mem addr n).value = readLe mem addr n := rfl

@[simp] theorem load_reads (n : Nat) :
    (load mem addr n).reads = (List.range n).map fun j => addr + ofNat 64 j := rfl

/-! ## Writing -/

def writeBytes (mem : Memory) (base : BitVec 64) (bytes : List (BitVec 8)) : Memory :=
  fun addr => if (addr - base).toNat < bytes.length then bytes.getD (addr - base).toNat 0#8 else mem addr

/-- The `n` bytes from `a` on and the `k` bytes from `b` on have none in common. -/
structure Apart (a : BitVec 64) (n : Nat) (b : BitVec 64) (k : Nat) : Prop where
  left : n ≤ (b - a).toNat
  right : k ≤ (a - b).toNat

/-- The two memories have the same `n` bytes from `a` on. -/
def Agree (mem mem' : Memory) (a : BitVec 64) (n : Nat) : Prop :=
  ∀ j < n, mem' (a + ofNat 64 j) = mem (a + ofNat 64 j)

variable {i m : Nat} {sp : BitVec 64}

section Write

variable {mem' mem'' : Memory} {a b : BitVec 64} {n k : Nat} {bytes : List (BitVec 8)}

theorem writeBytes_bytesAt (mem : Memory) (base : BitVec 64) (short : bytes.length ≤ 2 ^ 64) :
    BytesAt (writeBytes mem base bytes) base bytes := by
  apply bytesAt_iff.mpr
  intro j b inside
  have low : j < bytes.length := (List.getElem?_eq_some_iff.mp inside).1
  rw [writeBytes, offset_toNat base (low.trans_le short), if_pos low, List.getD_eq_getElem?_getD, inside]
  rfl

theorem Apart.symm (apart : Apart a n b k) : Apart b k a n := ⟨apart.right, apart.left⟩

theorem Apart.part (apart : Apart a n b k) (some : 0 < m) (inside : i + m ≤ k) :
    Apart a n (b + ofNat 64 i) m := by
  obtain ⟨left, right⟩ := apart
  have bound := (a - b).isLt
  constructor
  · simp only [toNat_sub, toNat_add, toNat_ofNat] at *
    omega
  · simp only [toNat_sub, toNat_add, toNat_ofNat] at *
    omega

theorem Apart.take (apart : Apart a n b k) (some : 0 < m) (inside : m ≤ k) : Apart a n b m := by
  have first := apart.part (i := 0) some (by omega)
  rwa [BitVec.add_zero] at first

theorem apart_field (a : BitVec 64) {j : Nat} (some : 0 < n) (before : n ≤ j)
    (short : j + k < 2 ^ 64) : Apart a n (a + ofNat 64 j) k := by
  constructor
  · simp only [toNat_sub, toNat_add, toNat_ofNat]
    omega
  · simp only [toNat_sub, toNat_add, toNat_ofNat]
    omega

theorem apart_below (sp : BitVec 64) (short : n + 8 ≤ 2 ^ 64) : Apart sp n (sp - 8#64) 8 := by
  constructor
  · simp only [toNat_sub, toNat_ofNat]
    omega
  · simp only [toNat_sub, toNat_ofNat]
    omega

theorem Agree.refl (mem : Memory) (a : BitVec 64) (n : Nat) : Agree mem mem a n := fun _ _ => rfl

theorem Agree.trans (first : Agree mem mem' a n) (second : Agree mem' mem'' a n) : Agree mem mem'' a n :=
  fun j inside => (second j inside).trans (first j inside)

theorem Agree.take (agree : Agree mem mem' a n) (short : m ≤ n) : Agree mem mem' a m :=
  fun j low => agree j (low.trans_le short)

theorem Agree.part (agree : Agree mem mem' a n) (inside : i + m ≤ n) :
    Agree mem mem' (a + ofNat 64 i) m := by
  intro j low
  rw [BitVec.add_assoc, ← ofNat_add]
  exact agree (i + j) (by omega)

theorem Agree.write (apart : Apart a n b bytes.length) : Agree mem (writeBytes mem b bytes) a n := by
  intro j inside
  have outside : ¬ (a + ofNat 64 j - b).toNat < bytes.length := by
    obtain ⟨left, right⟩ := apart
    have low : j < 2 ^ 64 := by
      have bound := (b - a).isLt
      omega
    simp only [toNat_sub, toNat_add, toNat_ofNat] at *
    omega
  rw [writeBytes, if_neg outside]

theorem readLe_agree (agree : Agree mem mem' a n) : readLe mem' a n = readLe mem a n := by
  induction n generalizing a with
  | zero => rfl
  | succ n ih =>
    have first := agree 0 n.succ_pos
    have rest := ih (agree.part (i := 1) (m := n) (by omega))
    rw [BitVec.add_zero] at first
    rw [readLe, readLe, first, rest]

end Write

/-! ## Words -/

def readWord (mem : Memory) (addr : BitVec 64) : BitVec 64 := ofNat 64 (readLe mem addr 8)

def writeWord (mem : Memory) (addr : BitVec 64) (w : BitVec 64) : Memory :=
  writeBytes mem addr (leBytes 8 w.toNat)

/-- The words stand in memory from `addr` on. -/
def WordsAt (mem : Memory) (addr : BitVec 64) : List (BitVec 64) → Prop
  | [] => True
  | w :: rest => readWord mem addr = w ∧ WordsAt mem (addr + 8#64) rest

section Words

variable {mem' : Memory} {a b w : BitVec 64} {n : Nat} {ws : List (BitVec 64)}

@[simp] theorem readWord_writeWord (mem : Memory) (a w : BitVec 64) :
    readWord (writeWord mem a w) a = w := by
  have stored : BytesAt (writeWord mem a w) a (leBytes 8 w.toNat) :=
    writeBytes_bytesAt mem a (by rw [leBytes_length]; decide)
  rw [readWord, readLe_toNat (by decide) stored, BitVec.ofNat_toNat, BitVec.setWidth_eq]

theorem Agree.writeWord (apart : Apart a n b 8) : Agree mem (writeWord mem b w) a n :=
  Agree.write (by rw [leBytes_length]; exact apart)

theorem readWord_agree (agree : Agree mem mem' a 8) : readWord mem' a = readWord mem a := by
  rw [readWord, readLe_agree agree, readWord]

theorem WordsAt.agree (words : WordsAt mem a ws) (agree : Agree mem mem' a (8 * ws.length)) :
    WordsAt mem' a ws := by
  induction ws generalizing a with
  | nil => trivial
  | cons w rest ih =>
    rw [List.length_cons] at agree
    have first : Agree mem mem' a 8 := agree.take (by omega)
    exact ⟨(readWord_agree first).trans words.1, ih words.2 (agree.part (i := 8) (by omega))⟩

theorem wordsAt_append {first second : List (BitVec 64)} : WordsAt mem a (first ++ second) ↔
    WordsAt mem a first ∧ WordsAt mem (a + ofNat 64 (8 * first.length)) second := by
  induction first generalizing a with
  | nil => simp [WordsAt]
  | cons w rest ih =>
    have place : a + 8#64 + ofNat 64 (8 * rest.length) =
        a + ofNat 64 (8 * (w :: rest).length) := by
      rw [BitVec.add_assoc, List.length_cons, Nat.mul_succ, Nat.add_comm, ofNat_add]
    rw [List.cons_append, WordsAt, WordsAt, ih, and_assoc, place]

def pushAll : Memory → BitVec 64 → List (BitVec 64) → Memory
  | mem, _, [] => mem
  | mem, sp, w :: rest => pushAll (writeWord mem (sp - 8#64) w) (sp - 8#64) rest

theorem sub_succ_words (sp : BitVec 64) (n : Nat) :
    sp - 8#64 - ofNat 64 (8 * n) = sp - ofNat 64 (8 * (n + 1)) := by
  rw [Nat.mul_succ, ofNat_add, BitVec.sub_sub, BitVec.add_comm]

theorem Apart.push (apart : Apart a n (sp - ofNat 64 (8 * (m + 1))) (8 * (m + 1))) :
    Apart a n (sp - 8#64) 8 ∧ Apart a n (sp - 8#64 - ofNat 64 (8 * m)) (8 * m) := by
  rw [← sub_succ_words, Nat.mul_succ] at apart
  have top : sp - 8#64 - ofNat 64 (8 * m) + ofNat 64 (8 * m) = sp - 8#64 :=
    BitVec.sub_add_cancel _ _
  have first := apart.part (i := 8 * m) (m := 8) (by decide) (Nat.le_refl _)
  rw [top] at first
  cases m with
  | zero => exact ⟨first, apart.left, Nat.zero_le _⟩
  | succ m =>
    exact ⟨first, apart.take (by omega) (by omega)⟩

theorem pushAll_agree (apart : Apart a n (sp - ofNat 64 (8 * ws.length)) (8 * ws.length)) :
    Agree mem (pushAll mem sp ws) a n := by
  induction ws generalizing mem sp with
  | nil => exact Agree.refl mem a n
  | cons w rest ih =>
    -- the places of all words are apart, so that of the first is, and those of the others
    obtain ⟨first, others⟩ := apart.push
    exact (Agree.writeWord first).trans (ih others)

theorem pushAll_wordsAt {above : List (BitVec 64)} (words : WordsAt mem sp above)
    (short : 8 * (ws.length + above.length) ≤ 2 ^ 64) :
    WordsAt (pushAll mem sp ws) (sp - ofNat 64 (8 * ws.length)) (ws.reverse ++ above) := by
  induction ws generalizing mem sp above with
  | nil =>
    rwa [List.length_nil, Nat.mul_zero, BitVec.sub_zero]
  | cons w rest ih =>
    rw [List.length_cons] at short
    have apart : Apart sp (8 * above.length) (sp - 8#64) 8 := apart_below sp (by omega)
    -- what is above moves into the invariant with the word that is pushed on it
    have pushed : WordsAt (writeWord mem (sp - 8#64) w) (sp - 8#64) (w :: above) := by
      refine ⟨readWord_writeWord mem _ w, ?_⟩
      rw [BitVec.sub_add_cancel]
      exact words.agree (Agree.writeWord apart)
    have all := ih pushed (by rw [List.length_cons]; omega)
    rw [sub_succ_words] at all
    rwa [List.reverse_cons, List.append_assoc, List.singleton_append]

theorem pushAll_top (mem : Memory) (sp : BitVec 64) (short : 8 * ws.length ≤ 2 ^ 64) :
    WordsAt (pushAll mem sp ws) (sp - ofNat 64 (8 * ws.length)) ws.reverse := by
  have nothing : WordsAt mem sp [] := trivial
  have all := pushAll_wordsAt nothing short
  rwa [List.append_nil] at all

end Words

end ByteOS.Lib
