import ByteOS.Libk.String
import Mathlib.Data.List.Induction
import Mathlib.Data.Nat.Digits.Defs
import Mathlib.Tactic.Ring

/-! The initial ram disk as a ustar archive (`kernel/fs/initrd/ustar.c`).

The code reads bytes at addresses below `2 ^ 64`, and zero is the null pointer. Over it
stands the format: what a list of files looks like in memory, and where the header of
each file is.
-/

set_option autoImplicit false

namespace ByteOS.Fs

open Lib Libk Mm

def ustarBlock : Nat := 512

def sizeOffset : Nat := 124

def typeOffset : Nat := 156

def ustarOctToBin (str : List Byte) : BitVec 32 :=
  str.foldl (fun n c => n * 8#32 + (c.setWidth 32 - 48#32)) 0#32

/-- `ALIGNUP` at the block size. -/
def alignBlock (val : Nat) : Nat :=
  let sum := (val + (ustarBlock - 1)) % wordMod
  sum - sum % ustarBlock

def sizeField (mem : Nat → Byte) (cur : Nat) : List Byte :=
  (List.range 11).map fun j => mem ((cur + (sizeOffset + j)) % wordMod)

def ustarNthFromEntry (mem : Nat → Byte) (cur : Nat) : Nat → Nat
  | 0 => cur
  | n + 1 =>
    if mem cur = 0#8 then 0
    else
      let size := ustarOctToBin (sizeField mem cur)
      ustarNthFromEntry mem (alignBlock ((cur + size.toNat) % wordMod)) n

/-! ## The format -/

/-- A file of the archive, with the bytes of its header that nothing reads. -/
structure File where
  name : List Byte
  type : Byte
  contents : List Byte
  other : Nat → Byte
  named : name ≠ []
  short : name.length ≤ 99
  text : 0#8 ∉ name
  known : type = 48#8 ∨ type = 50#8 ∨ type = 53#8
  small : contents.length < 2 ^ 32

def octal : Nat → Nat → List Byte
  | 0, _ => []
  | width + 1, v => octal width (v / 8) ++ [BitVec.ofNat 8 (48 + v % 8)]

def padded (length : Nat) : Nat := (length + (ustarBlock - 1)) / ustarBlock * ustarBlock

namespace File

def headerByte (f : File) (j : Nat) : Byte :=
  if j < 100 then f.name.getD j 0#8
  else if sizeOffset ≤ j ∧ j < sizeOffset + 11 then (octal 11 f.contents.length).getD (j - sizeOffset) 0#8
  else if j = typeOffset then f.type
  else f.other j

def header (f : File) : List Byte := (List.range ustarBlock).map f.headerByte

def blocks (f : File) : List Byte :=
  f.header ++ (f.contents ++ List.replicate (padded f.contents.length - f.contents.length) 0#8)

end File

def encode : List File → List Byte
  | [] => List.replicate (2 * ustarBlock) 0#8
  | f :: rest => f.blocks ++ encode rest

/-- The archive of `files` is in memory at `base`. -/
structure Image (mem : Nat → Byte) (base : Nat) (files : List File) : Prop where
  stored : Stored mem base (encode files)
  aligned : ustarBlock ∣ base
  nonnull : base ≠ 0
  fits : base + (encode files).length ≤ wordMod

/-- The header of a file is behind the blocks of the files before it; null if there are not
as many. -/
def nthHeader (base : Nat) (files : List File) (n : Nat) : Nat :=
  if n < files.length then base + ((files.take n).map fun f => f.blocks.length).sum else 0

/-! ## Reading it -/

variable {mem : Nat → Byte} {base addr : Nat} {f : File} {files rest : List File}

theorem octal_length (width v : Nat) : (octal width v).length = width := by
  induction width generalizing v with
  | zero => rfl
  | succ width ih => rw [octal, List.length_append, ih, List.length_singleton]

theorem ustarOctToBin_concat (str : List Byte) (c : Byte) :
    ustarOctToBin (str ++ [c]) = ustarOctToBin str * 8#32 + (c.setWidth 32 - 48#32) := by
  rw [ustarOctToBin, List.foldl_append]
  rfl

def octalValue (str : List Byte) : Nat := Nat.ofDigits 8 (str.reverse.map fun c => c.toNat - 48)

theorem octalValue_concat (str : List Byte) (c : Byte) :
    octalValue (str ++ [c]) = (c.toNat - 48) + 8 * octalValue str := by
  rw [octalValue, List.reverse_concat, List.map_cons, Nat.ofDigits_cons]
  rfl

theorem ustarOctToBin_digits (str : List Byte) (digits : ∀ c ∈ str, 48 ≤ c.toNat ∧ c.toNat ≤ 55) :
    ustarOctToBin str = BitVec.ofNat 32 (octalValue str) := by
  induction str using List.reverseRecOn with
  | nil => rfl
  | append_singleton str c ih =>
    obtain ⟨before, last⟩ := List.forall_mem_append.mp digits
    have digit : c.setWidth 32 - 48#32 = BitVec.ofNat 32 (c.toNat - 48) := by
      have bounds := last c (List.mem_singleton_self c)
      bv_omega
    rw [ustarOctToBin_concat, octalValue_concat, ih before, digit, BitVec.ofNat_add,
      BitVec.ofNat_mul, BitVec.mul_comm, BitVec.add_comm]

/-- The digits are decoded exactly if the number fits into 32 bits, which eleven digits can exceed. -/
theorem oct_to_bin_exact (str : List Byte) (digits : ∀ c ∈ str, 48 ≤ c.toNat ∧ c.toNat ≤ 55) :
    (ustarOctToBin str).toNat = octalValue str ↔ octalValue str < 2 ^ 32 := by
  rw [ustarOctToBin_digits str digits, BitVec.toNat_ofNat]
  exact Nat.mod_eq_iff_lt (by decide)

theorem oct_to_bin_exact_ten : (ustarOctToBin [49#8, 50#8]).toNat = 10 :=
  (oct_to_bin_exact [49#8, 50#8] (by decide)).mpr (by decide)

/-- Eleven digits, `40000000000`: four gibibytes are decoded as zero. -/
theorem four_gibibytes_lost : ustarOctToBin (52#8 :: List.replicate 10 48#8) = 0#32 ∧
    octalValue (52#8 :: List.replicate 10 48#8) = 2 ^ 32 := by
  decide

theorem ustarOctToBin_octal (width v : Nat) :
    ustarOctToBin (octal width v) = BitVec.ofNat 32 (v % 8 ^ width) := by
  induction width generalizing v with
  | zero => simp [octal, ustarOctToBin, Nat.mod_one]
  | succ width ih =>
    have digit : (BitVec.ofNat 8 (48 + v % 8)).setWidth 32 - 48#32 = BitVec.ofNat 32 (v % 8) := by
      have small : v % 8 < 8 := Nat.mod_lt _ (by decide)
      bv_omega
    have split : v % 8 ^ (width + 1) = v / 8 % 8 ^ width * 8 + v % 8 := by
      rw [pow_succ', Nat.mod_mul]
      ring
    rw [octal, ustarOctToBin_concat, ih, digit, split, BitVec.ofNat_add, BitVec.ofNat_mul]

theorem File.header_length (f : File) : f.header.length = ustarBlock := by
  rw [header, List.length_map, List.length_range]

theorem le_padded (length : Nat) : length ≤ padded length := by
  simp only [padded, ustarBlock]
  omega

theorem File.blocks_length (f : File) : f.blocks.length = ustarBlock + padded f.contents.length := by
  have room := le_padded f.contents.length
  rw [blocks, List.length_append, List.length_append, List.length_replicate, header_length]
  omega

theorem Image.headerByte (image : Image mem base (f :: rest)) {j : Nat} (inside : j < ustarBlock) :
    mem (base + j) = f.headerByte j := by
  refine image.stored.append.1.append.1 j _ ?_
  rw [File.header, List.getElem?_map, List.getElem?_range inside]
  rfl

theorem Image.named (image : Image mem base (f :: rest)) : mem base ≠ 0#8 := by
  have first := image.headerByte (j := 0) (by decide)
  obtain ⟨c, tail, name⟩ := List.exists_cons_of_ne_nil f.named
  have read : f.headerByte 0 = c := by
    rw [File.headerByte, if_pos (by decide), name]
    rfl
  rw [Nat.add_zero, read] at first
  rw [first]
  rintro rfl
  exact f.text (name ▸ List.mem_cons_self)

theorem Image.ended (image : Image mem base []) : mem base = 0#8 := image.stored 0 0#8 rfl

theorem Image.room (image : Image mem base (f :: rest)) :
    base + (ustarBlock + padded f.contents.length) ≤ wordMod := by
  have fits := image.fits
  rw [encode, List.length_append, File.blocks_length] at fits
  omega

theorem Image.size (image : Image mem base (f :: rest)) :
    (ustarOctToBin (sizeField mem base)).toNat = f.contents.length := by
  have field : sizeField mem base = octal 11 f.contents.length := by
    refine List.ext_getElem? fun j => ?_
    -- the twelfth byte of the field is not read
    by_cases inside : j < 11
    · have room := image.room
      have low : base + (sizeOffset + j) < wordMod := by simp only [sizeOffset, ustarBlock] at *; omega
      have byte := image.headerByte (j := sizeOffset + j) (by simp only [sizeOffset, ustarBlock]; omega)
      have long : j < (octal 11 f.contents.length).length := by rwa [octal_length]
      rw [sizeField, List.getElem?_map, List.getElem?_range inside, Option.map_some,
        Nat.mod_eq_of_lt low, byte, File.headerByte, if_neg (by simp only [sizeOffset]; omega),
        if_pos (by omega), Nat.add_sub_cancel_left, List.getD_eq_getElem _ _ long,
        List.getElem?_eq_getElem long]
    · rw [List.getElem?_eq_none (by simp [sizeField]; omega),
        List.getElem?_eq_none (by rw [octal_length]; omega)]
  have small := f.small
  rw [field, ustarOctToBin_octal, BitVec.toNat_ofNat,
    Nat.mod_eq_of_lt (a := f.contents.length) (b := 8 ^ 11) (by omega), Nat.mod_eq_of_lt small]

theorem alignBlock_add {length : Nat} (aligned : ustarBlock ∣ base)
    (room : base + (ustarBlock + padded length) ≤ wordMod) :
    alignBlock (base + length) = base + padded length := by
  obtain ⟨k, rfl⟩ := aligned
  simp only [alignBlock, padded, ustarBlock, wordMod] at *
  omega

/-- The walk goes on at the last block of the contents, not behind it. -/
theorem Image.next (image : Image mem base (f :: rest)) (n : Nat) :
    ustarNthFromEntry mem base (n + 1) = ustarNthFromEntry mem (base + padded f.contents.length) n := by
  have room := image.room
  have below : base + f.contents.length < wordMod := by
    have length := le_padded f.contents.length
    simp only [ustarBlock] at room
    omega
  rw [ustarNthFromEntry, if_neg image.named]
  dsimp only
  rw [image.size, Nat.mod_eq_of_lt below, alignBlock_add image.aligned room]

/-- With an empty file in front the walk does not move. -/
theorem Image.stuck (image : Image mem base (f :: rest)) (empty : f.contents = []) (n : Nat) :
    ustarNthFromEntry mem base n = base := by
  induction n with
  | zero => rfl
  | succ n ih =>
    -- the padded length is zero, so the next header is looked for where this one is
    rwa [image.next, empty]

theorem nthHeader_succ_ne (nonnull : base ≠ 0) (f : File) (rest : List File) (n : Nat) :
    nthHeader base (f :: rest) (n + 1) ≠ base := by
  have long : 0 < f.blocks.length := by
    rw [f.blocks_length]
    exact Nat.add_pos_left (by decide) _
  rw [nthHeader, List.take_succ_cons, List.map_cons, List.sum_cons]
  split
  case isTrue => omega
  case isFalse => exact nonnull.symm

theorem Image.one_wrong (image : Image mem base (f :: rest)) :
    ustarNthFromEntry mem base 1 ≠ nthHeader base (f :: rest) 1 := by
  have nonnull := image.nonnull
  rw [image.next, ustarNthFromEntry, nthHeader, List.take_succ_cons, List.take_zero, List.map_cons,
    List.map_nil, List.sum_singleton, f.blocks_length]
  split
  case isTrue =>
    have block : 0 < ustarBlock := by decide
    omega
  case isFalse => omega

def place (base : Nat) (files : List File) (addr : Nat) : Byte := (encode files).getD (addr - base) 0#8

theorem place_image (aligned : ustarBlock ∣ base) (nonnull : base ≠ 0)
    (fits : base + (encode files).length ≤ wordMod) : Image (place base files) base files where
  stored j b inside := by
    rw [place, Nat.add_sub_cancel_left, List.getD_eq_getElem?_getD, inside]
    rfl
  aligned := aligned
  nonnull := nonnull
  fits := fits

/-- An empty file with the name `a`. -/
def emptyFile : File where
  name := [97#8]
  type := 48#8
  contents := []
  other _ := 0#8
  named := by decide
  short := by decide
  text := by decide
  known := by decide
  small := by decide

theorem encode_replicate_length (k : Nat) :
    (encode (List.replicate k emptyFile)).length = ustarBlock * (k + 2) := by
  induction k with
  | zero =>
    rw [List.replicate_zero, encode, List.length_replicate, Nat.mul_comm]
  | succ k ih =>
    have one : emptyFile.blocks.length = ustarBlock := emptyFile.blocks_length
    rw [List.replicate_succ, encode, List.length_append, ih, one]
    ring

theorem Image.right {n : Nat} (image : Image mem base files) (which : files.length = 0 ↔ n ≠ 0) :
    ustarNthFromEntry mem base n = nthHeader base files n := by
  cases files with
  | nil =>
    obtain ⟨n, rfl⟩ := Nat.exists_eq_succ_of_ne_zero (which.mp rfl)
    rw [ustarNthFromEntry, if_pos image.ended]
    simp [nthHeader]
  | cons f rest =>
    obtain rfl : n = 0 := by
      by_contra positive
      cases which.mpr positive
    simp [ustarNthFromEntry, nthHeader]

theorem replicate_image {k : Nat} (fits : ustarBlock * (k + 3) ≤ wordMod) :
    Image (place ustarBlock (List.replicate k emptyFile)) ustarBlock (List.replicate k emptyFile) := by
  refine place_image dvd_rfl (by decide) ?_
  rw [encode_replicate_length]
  calc ustarBlock + ustarBlock * (k + 2) = ustarBlock * (k + 3) := by ring
    _ ≤ wordMod := fits

theorem replicate_wrong {k n : Nat} (fits : ustarBlock * (k + 3) ≤ wordMod) (which : ¬ (k = 0 ↔ n ≠ 0)) :
    ustarNthFromEntry (place ustarBlock (List.replicate k emptyFile)) ustarBlock n ≠
      nthHeader ustarBlock (List.replicate k emptyFile) n := by
  have image := replicate_image fits
  cases k with
  | zero =>
    obtain rfl : n = 0 := by
      by_contra positive
      exact which ⟨fun _ => positive, fun _ => rfl⟩
    exact image.nonnull
  | succ k =>
    rw [List.replicate_succ] at image ⊢
    have positive : n ≠ 0 :=
      fun zero => which ⟨fun none => absurd none k.succ_ne_zero, fun other => absurd zero other⟩
    obtain ⟨n, rfl⟩ := Nat.exists_eq_succ_of_ne_zero positive
    rw [image.stuck rfl]
    exact (nthHeader_succ_ne image.nonnull _ _ _).symm

/-- What `ustar_nth_from_entry` returns for index `n` is right in all archives of `k` files
exactly if it is the first file that is asked for, or the archive is empty and it is not.
Index 1 is wrong in all archives that have a file. -/
theorem ustar_nth_from_entry_right (k n : Nat) (fits : ustarBlock * (k + 3) ≤ wordMod) :
    ((∀ mem base files, Image mem base files → files.length = k →
      ustarNthFromEntry mem base n = nthHeader base files n) ↔ (k = 0 ↔ n ≠ 0)) ∧
    ∀ mem base files, Image mem base files → files.length = k → 0 < k →
      ustarNthFromEntry mem base 1 ≠ nthHeader base files 1 := by
  constructor
  · constructor
    · intro right
      by_contra which
      exact replicate_wrong fits which (right _ _ _ (replicate_image fits) List.length_replicate)
    · rintro which mem base files image rfl
      exact image.right which
  · rintro mem base files image rfl some
    cases files with
    | nil => cases some
    | cons f rest => exact image.one_wrong

/-- The only file of an archive is found. -/
theorem ustar_nth_from_entry_right_only : Image (place 512 [emptyFile]) 512 [emptyFile] ∧
    ustarNthFromEntry (place 512 [emptyFile]) 512 0 = 512 := by
  have image : Image (place 512 [emptyFile]) 512 [emptyFile] := replicate_image (k := 1) (by decide)
  have right := (ustar_nth_from_entry_right 1 0 (by decide)).1.mpr (by decide) _ _ _ image rfl
  exact ⟨image, by rw [right]; simp [nthHeader]⟩

/-- Two empty files: the header of the first is returned for the second. -/
theorem ustar_nth_from_entry_stuck : ∃ mem, Image mem 512 [emptyFile, emptyFile] ∧
    ustarNthFromEntry mem 512 1 = 512 ∧ nthHeader 512 [emptyFile, emptyFile] 1 = 1024 := by
  have image : Image (place 512 [emptyFile, emptyFile]) 512 [emptyFile, emptyFile] :=
    replicate_image (k := 2) (by decide)
  have one : emptyFile.blocks.length = 512 := emptyFile.blocks_length
  exact ⟨_, image, image.stuck rfl 1, by simp [nthHeader, one]⟩

end ByteOS.Fs
