import ByteOS.Fs.Ustar
import ByteOS.Lib.Chain
import Mathlib.Data.List.Find

/-! The lookup of a name in a directory of the initial ram disk (`kernel/fs/initrd/dir.c`).

The loop compares the name of every header that `ustar_nth_from_entry` leads to with the name
of the directory and the name that is looked up. It is followed as a walk over addresses:
the loop ends exactly if the walk does, and a walk that ends comes to no address twice.
-/

set_option autoImplicit false

namespace ByteOS.Fs

open Lib Libk Mm

def iDirectory : BitVec 32 := 2#32

/-- The fields of `struct initrd_fs` that a lookup reads. -/
structure InitrdFs where
  rootHdr : Nat
  root : Nat

/-- The fields of a `struct initrd_inode` that a lookup reads. -/
structure InitrdInode where
  addr : Nat
  mode : BitVec 32
  sb : Nat
  hdr : Nat

structure Lookup where
  dirName : Nat
  dirLen : Nat
  name : Nat
  len : Nat

namespace Lookup

variable (q : Lookup) (mem : Nat → Byte)

def test (cur : Nat) : Except Fault Bool := do
  let targetLen ← strlen mem passes cur
  if targetLen < q.dirLen ∨ (q.dirLen + q.len + 1) % wordMod < targetLen then return false
  return memcmp mem q.dirName cur q.dirLen = 0 ∧ memcmp mem q.name (cur + q.dirLen) q.len = 0

def scan : Nat → Nat → Except Fault (Option Nat)
  | 0, _ => .error .unfinished
  | fuel + 1, cur =>
    if cur = 0 then .ok none
    else do
      if ← q.test mem cur then return some cur
      else scan fuel (ustarNthFromEntry mem cur 1)

end Lookup

/-- The name of a directory; `slash` is where the string `"/"` is. -/
def dirName (fs : InitrdFs) (slash : Nat) (dir : InitrdInode) : Nat :=
  if dir.addr = fs.root then slash else dir.hdr

/-- `initrd_dir_lookup_inode`, which always returns 0: the header at which it takes the exit
for a match, and what is then in `*out`. -/
def initrdDirLookupInode (mem : Nat → Byte) (fs : InitrdFs) (slash : Nat) (dir : InitrdInode)
    (name len out : Nat) : Except Fault (Option Nat × Nat) := do
  kassert (dir.addr ≠ 0 ∧ dir.mode = iDirectory ∧ dir.sb ≠ 0)
    "dir_inode && I_ISDIR(dir_inode) && dir_inode->sb != NULL"
  if dirName fs slash dir = 0 then .error .nullDeref
  let dirLen ← strlen mem passes (dirName fs slash dir)
  match ← Lookup.scan ⟨dirName fs slash dir, dirLen, name, len⟩ mem passes fs.rootHdr with
  | some cur => return (some cur, out)
  | none => return (none, 0)

/-- `ENOTDIR` and `ENOTSUP`, as `util/err_gen.py` numbers them. -/
def enotdir : Int := -2

def enotsup : Int := -3

/-- `vfs_lookup`: the error and what is then in `*result`. `hasLookup` says if the inode has the
operation, which is that of the initial ram disk. -/
def vfsLookup (mem : Nat → Byte) (fs : InitrdFs) (slash : Nat) (dir : InitrdInode)
    (hasLookup : Bool) (path len : Nat) : Except Fault (Int × Nat) :=
  if dir.mode ≠ iDirectory then .ok (enotdir, 0)
  else if hasLookup = false then .ok (enotsup, 0)
  else do
    let (_, out) ← initrdDirLookupInode mem fs slash dir path len 0
    return (0, out)

def nextHeader (mem : Nat → Byte) (cur : Nat) : Option Nat :=
  if ustarNthFromEntry mem cur 1 = 0 then none else some (ustarNthFromEntry mem cur 1)

def Lookup.next (q : Lookup) (mem : Nat → Byte) (cur : Nat) : Option Nat :=
  match q.test mem cur with
  | .ok false => nextHeader mem cur
  | _ => none

def Lookup.Ends (q : Lookup) (mem : Nat → Byte) (start : Nat) : Prop :=
  ∃ l, Chain (q.next mem) (some start) l ∧ l.Nodup ∧ ∃ result, q.scan mem passes start = .ok result

variable {b : Byte} {rest : List File} {f : File}

/-! ## The loop and the walk -/

section Walk

variable {q : Lookup} {mem : Nat → Byte} {start cur k fuel : Nat} {l : List Nat} {step : Nat → Option Nat}

@[simp] theorem nextHeader_getD : (nextHeader mem cur).getD 0 = ustarNthFromEntry mem cur 1 := by
  unfold nextHeader
  split
  case isTrue last => exact last.symm
  case isFalse => rfl

variable {n addr : Nat} {bytes : List Byte}

theorem nextHeader_eq_some : nextHeader mem cur = some n ↔ ustarNthFromEntry mem cur 1 = n ∧ n ≠ 0 := by
  unfold nextHeader
  split
  case isTrue last => simp [last, eq_comm]
  case isFalse more =>
    simp only [Option.some.injEq, iff_self_and]
    intro same
    exact same ▸ more

theorem nextHeader_end (ended : mem cur = 0#8) : nextHeader mem cur = none := by
  rw [nextHeader, ustarNthFromEntry, if_pos ended, if_pos rfl]

theorem Lookup.next_eq_some : q.next mem cur = some n ↔ q.test mem cur = .ok false ∧
    nextHeader mem cur = some n := by
  unfold Lookup.next
  split
  case h_1 differs => simp [differs]
  case h_2 other => exact ⟨nofun, fun both => (other both.1).elim⟩

/-- The loop follows any walk that agrees with it until a header matches. The induction is on
the headers ahead, and the null pointer behind the last one ends the loop. -/
theorem Lookup.scan_chain {from? : Option Nat}
    (agree : ∀ cur, q.test mem cur = .ok false → step cur = nextHeader mem cur)
    (chain : Chain step from? l) (nonnull : from? ≠ some 0)
    (tested : ∀ cur ∈ l, ∃ b, q.test mem cur = .ok b) (short : l.length < fuel) :
    q.scan mem fuel (from?.getD 0) = .ok (l.find? fun cur => (q.test mem cur).toOption = some true) := by
  induction l generalizing from? fuel with
  | nil =>
    obtain ⟨fuel, rfl⟩ := exists_succ_of_lt short
    rw [chain_nil.mp chain]
    rfl
  | cons a rest ih =>
    obtain ⟨rfl, chain⟩ := chain
    obtain ⟨fuel, rfl⟩ := exists_succ_of_lt short
    obtain ⟨b, here⟩ := tested a List.mem_cons_self
    have live : a ≠ 0 := fun zero => nonnull (congrArg some zero)
    rw [Option.getD_some, scan, if_neg live, here, ok_bind, List.find?_cons, here]
    cases b with
    | true => rfl
    | false =>
      have onward : step a = nextHeader mem a := agree a here
      have tail := ih chain (by rw [onward]; exact fun zero => (nextHeader_eq_some.mp zero).2 rfl)
        (fun cur member => tested cur (List.mem_cons_of_mem a member)) (Nat.lt_of_succ_lt_succ short)
      rw [onward, nextHeader_getD] at tail
      exact tail

/-- Addresses are below `2 ^ 64`, so a walk that ends is short. -/
theorem length_lt_of_below (distinct : l.Nodup) (below : ∀ cur ∈ l, cur < wordMod) : l.length < passes := by
  have bound : (l.map (BitVec.ofNat 64)).length < passes := by
    apply length_lt_passes
    apply distinct.map_on
    intro a first b second same
    have values : a % wordMod = b % wordMod := congrArg BitVec.toNat same
    rwa [Nat.mod_eq_of_lt (below a first), Nat.mod_eq_of_lt (below b second)] at values
  rwa [List.length_map] at bound

theorem ustarNthFromEntry_lt (mem : Nat → Byte) (cur : Nat) : ustarNthFromEntry mem cur 1 < wordMod := by
  rw [ustarNthFromEntry]
  split
  case isTrue => decide
  case isFalse =>
    rw [ustarNthFromEntry, alignBlock]
    exact (Nat.sub_le _ _).trans_lt (Nat.mod_lt _ (by decide))

theorem chain_short (steps : ∀ cur n, step cur = some n → nextHeader mem cur = some n)
    (chain : Chain step (some start) l) (low : start < wordMod) : l.length < passes := by
  apply length_lt_of_below chain.nodup
  intro cur member
  have visits := chain.mem_iff.mp member
  induction visits with
  | refl => exact low
  | tail before link ih =>
    rw [← (nextHeader_eq_some.mp (steps _ _ link)).1]
    exact ustarNthFromEntry_lt mem _

theorem Lookup.ends_of_chain (chain : Chain (q.next mem) (some start) l) (nonnull : start ≠ 0)
    (low : start < wordMod) (tested : ∀ cur, Visits (q.next mem) start cur →
      ∃ b, q.test mem cur = .ok b) : q.Ends mem start := by
  have agree : ∀ cur, q.test mem cur = .ok false → q.next mem cur = nextHeader mem cur := by
    intro cur differs
    rw [Lookup.next, differs]
  have short : l.length < passes :=
    chain_short (fun cur n link => (Lookup.next_eq_some.mp link).2) chain low
  have runs := Lookup.scan_chain agree chain (fun zero => nonnull (Option.some.inj zero))
    (fun cur member => tested cur (chain.mem_iff.mp member)) short
  exact ⟨l, chain, chain.nodup, _, runs⟩

theorem Lookup.test_ends (length : strlen mem passes cur = .ok n) : ∃ b, q.test mem cur = .ok b := by
  rw [Lookup.test, length, ok_bind]
  split
  case isTrue => exact ⟨_, rfl⟩
  case isFalse => exact ⟨_, rfl⟩

end Walk

/-! ## Lookups that end -/

def Inside (base : Nat) (files : List File) (cur : Nat) : Prop :=
  base ≤ cur ∧ cur < base + (encode files).length

/-- The `n`-th header behind `root`, as the size fields lead to it. -/
def headerAt (mem : Nat → Byte) (root : Nat) : Nat → Nat
  | 0 => root
  | n + 1 =>
    let cur := headerAt mem root n
    alignBlock ((cur + (ustarOctToBin (sizeField mem cur)).toNat) % wordMod)

def sizeAt (mem : Nat → Byte) (root n : Nat) : BitVec 32 :=
  ustarOctToBin (sizeField mem (headerAt mem root n))

/-- The header matches, or none is behind it. -/
def Lookup.Stops (q : Lookup) (mem : Nat → Byte) (root n : Nat) : Prop :=
  q.test mem (headerAt mem root n) = .ok true ∨ q.test mem (headerAt mem root n) = .ok false ∧
    (mem (headerAt mem root n) = 0#8 ∨ headerAt mem root (n + 1) = 0)

/-- The header does not match, and another one is behind it. -/
def Lookup.Moves (q : Lookup) (mem : Nat → Byte) (root n : Nat) : Prop :=
  q.test mem (headerAt mem root n) = .ok false ∧
    mem (headerAt mem root n) ≠ 0#8 ∧ headerAt mem root (n + 1) ≠ 0

section Headers

variable {q : Lookup} {mem : Nat → Byte} {root i k n fuel : Nat}

theorem Lookup.stops_or_moves {b : Bool} (tested : q.test mem (headerAt mem root n) = .ok b) :
    q.Stops mem root n ∨ q.Moves mem root n := by
  cases b with
  | true => exact .inl (.inl tested)
  | false =>
    by_cases last : mem (headerAt mem root n) = 0#8 ∨ headerAt mem root (n + 1) = 0
    · exact .inl (.inr ⟨tested, last⟩)
    · exact .inr ⟨tested, not_or.mp last⟩

theorem Lookup.Moves.onward (moves : q.Moves mem root n) :
    ustarNthFromEntry mem (headerAt mem root n) 1 = headerAt mem root (n + 1) := by
  rw [ustarNthFromEntry, if_neg moves.2.1]
  rfl

theorem Lookup.Moves.next_eq (moves : q.Moves mem root n) :
    q.next mem (headerAt mem root n) = some (headerAt mem root (n + 1)) :=
  Lookup.next_eq_some.mpr ⟨moves.1, nextHeader_eq_some.mpr ⟨moves.onward, moves.2.2⟩⟩

theorem Lookup.Stops.next_eq (stops : q.Stops mem root n) :
    q.next mem (headerAt mem root n) = none := by
  unfold Lookup.next
  rcases stops with found | ⟨differs, last⟩
  · rw [found]
  · rw [differs]
    by_cases ended : mem (headerAt mem root n) = 0#8
    · exact nextHeader_end ended
    · have onward : ustarNthFromEntry mem (headerAt mem root n) 1 = 0 := by
        rw [ustarNthFromEntry, if_neg ended]
        exact last.resolve_left ended
      exact if_pos onward

theorem Lookup.headers_chain (stops : q.Stops mem root (i + k))
    (moves : ∀ m < k, q.Moves mem root (i + m)) :
    Chain (q.next mem) (some (headerAt mem root i))
      ((List.range' i (k + 1)).map (headerAt mem root)) := by
  induction k generalizing i with
  | zero => exact ⟨rfl, stops.next_eq⟩
  | succ k ih =>
    have here : q.Moves mem root i := moves 0 (Nat.succ_pos k)
    refine ⟨rfl, ?_⟩
    rw [here.next_eq]
    refine ih (i := i + 1) ?_ fun m low => ?_
    · rwa [Nat.add_assoc, Nat.add_comm 1]
    · rw [Nat.add_assoc, Nat.add_comm 1]
      exact moves (m + 1) (Nat.succ_lt_succ low)

/-- A loop that returns has come over headers that it leaves to one that ends it. -/
theorem Lookup.scan_stops {result : Option Nat} (nonnull : headerAt mem root i ≠ 0)
    (runs : q.scan mem fuel (headerAt mem root i) = .ok result) :
    ∃ k, q.Stops mem root (i + k) ∧ ∀ m < k, q.Moves mem root (i + m) := by
  induction fuel generalizing i with
  | zero => cases runs
  | succ fuel ih =>
    rw [scan, if_neg nonnull] at runs
    obtain ⟨b, tested, rest⟩ := bind_eq_ok.mp runs
    obtain stops | moves := Lookup.stops_or_moves tested
    · exact ⟨0, stops, nofun⟩
    · cases tested.symm.trans moves.1
      rw [moves.onward] at rest
      obtain ⟨k, stops, before⟩ := ih moves.2.2 rest
      refine ⟨k + 1, ?_, fun m low => ?_⟩
      · rwa [Nat.add_right_comm] at stops
      · cases m with
        | zero => exact moves
        | succ m =>
          have later := before m (Nat.lt_of_succ_lt_succ low)
          rwa [Nat.add_right_comm] at later

theorem Lookup.visits_header (moves : ∀ m < n, q.Moves mem root m) :
    Visits (q.next mem) root (headerAt mem root n) := by
  induction n with
  | zero => exact .refl
  | succ n ih => exact (ih fun m low => moves m (by omega)).tail (moves n (by omega)).next_eq

end Headers

section Image

variable {q : Lookup} {mem : Nat → Byte} {base cur n : Nat} {files : List File}

theorem encode_last (files : List File) : (encode files).getLast? = some 0#8 := by
  induction files with
  | nil => rw [encode, List.getLast?_replicate, if_neg (by decide)]
  | cons f rest ih => rw [encode, List.getLast?_append, ih, Option.some_or]

theorem dvd_encode_length (files : List File) : ustarBlock ∣ (encode files).length := by
  induction files with
  | nil =>
    rw [encode, List.length_replicate]
    exact Nat.dvd_mul_left _ _
  | cons f rest ih =>
    rw [encode, List.length_append, f.blocks_length]
    exact Nat.dvd_add (Nat.dvd_add dvd_rfl (Nat.dvd_mul_left _ _)) ih

theorem Inside.block (inside : Inside base files cur) (start : ustarBlock ∣ base)
    (aligned : ustarBlock ∣ cur) : cur + ustarBlock ≤ base + (encode files).length := by
  obtain ⟨i, rfl⟩ := start
  obtain ⟨j, rfl⟩ := aligned
  obtain ⟨k, length⟩ := dvd_encode_length files
  have below := inside.2
  simp only [length, ustarBlock] at *
  omega

theorem Image.test_ends (image : Image mem base files) (inside : Inside base files cur) :
    ∃ b, q.test mem cur = .ok b := by
  obtain ⟨above, below⟩ := inside
  have last : mem (base + ((encode files).length - 1)) = 0#8 :=
    image.stored _ _ (List.getLast?_eq_getElem? ▸ encode_last files)
  have distance : cur + (base + (encode files).length - 1 - cur) =
      base + ((encode files).length - 1) := by omega
  have fits := image.fits
  have enough : base + (encode files).length - 1 - cur < passes := by
    simp only [passes, wordMod] at *
    omega
  obtain ⟨n, length⟩ := strlen_ends (distance ▸ last) enough
  exact Lookup.test_ends length

theorem le_alignBlock {val : Nat} (room : val + ustarBlock ≤ wordMod) : val ≤ alignBlock val := by
  simp only [alignBlock, ustarBlock, wordMod] at *
  omega

theorem dvd_alignBlock (val : Nat) : ustarBlock ∣ alignBlock val := Nat.dvd_sub_mod _

theorem Image.headerAt_aligned (image : Image mem base files) (n : Nat) :
    ustarBlock ∣ headerAt mem base n := by
  cases n with
  | zero => exact image.aligned
  | succ n => exact dvd_alignBlock _

theorem base_inside (base : Nat) (files : List File) : Inside base files base := by
  have some : (encode files).length ≠ 0 := by
    intro empty
    have last := encode_last files
    rw [List.eq_nil_of_length_eq_zero empty] at last
    cases last
  exact ⟨Nat.le_refl base, by omega⟩

theorem Image.headerAt_room (image : Image mem base files) (n : Nat) :
    headerAt mem base n + ustarBlock ≤ wordMod := by
  have aligned := image.headerAt_aligned n
  have small : headerAt mem base n < wordMod := by
    cases n with
    | zero => exact (base_inside base files).2.trans_le image.fits
    | succ n => exact (Nat.sub_le _ _).trans_lt (Nat.mod_lt _ (by decide))
  simp only [ustarBlock, wordMod] at *
  omega

/-- A header that records the size 0 is its own successor. -/
theorem Image.headerAt_stuck (image : Image mem base files) (empty : sizeAt mem base n = 0#32) :
    headerAt mem base (n + 1) = headerAt mem base n := by
  have none : padded 0 = 0 := by decide
  have room := image.headerAt_room n
  have here := @alignBlock_add (headerAt mem base n) 0 (image.headerAt_aligned n) (by rwa [none])
  have small : headerAt mem base n < wordMod := (Nat.lt_add_of_pos_right (by decide)).trans_le room
  unfold sizeAt at empty
  rw [none, Nat.add_zero] at here
  rwa [headerAt, empty, BitVec.toNat_zero, Nat.add_zero, Nat.mod_eq_of_lt small]

theorem lt_headerAt (low : headerAt mem base n + 2 ^ 32 + ustarBlock ≤ wordMod)
    (nonempty : sizeAt mem base n ≠ 0#32) : headerAt mem base n < headerAt mem base (n + 1) := by
  have positive : 0 < (sizeAt mem base n).toNat :=
    Nat.pos_of_ne_zero fun zero => nonempty (BitVec.eq_of_toNat_eq zero)
  have small := (sizeAt mem base n).isLt
  unfold sizeAt at positive small
  rw [headerAt, Nat.mod_eq_of_lt (by omega)]
  exact (Nat.lt_add_of_pos_right positive).trans_le (le_alignBlock (by omega))

/-- A lookup ends exactly if the size fields lead over headers of other sizes than 0 to one that
matches or is the last. -/
theorem Image.ends_iff (image : Image mem base files) : q.Ends mem base ↔
    ∃ n, q.Stops mem base n ∧ ∀ m < n, q.Moves mem base m ∧ sizeAt mem base m ≠ 0#32 := by
  constructor
  · rintro ⟨l, chain, -, result, runs⟩
    obtain ⟨n, stops, moves⟩ := Lookup.scan_stops (i := 0) image.nonnull runs
    simp only [Nat.zero_add] at stops moves
    refine ⟨n, stops, fun m low => ⟨moves m low, fun empty => ?_⟩⟩
    have link := (moves m low).next_eq
    rw [image.headerAt_stuck empty] at link
    have visits : Visits (q.next mem) base (headerAt mem base m) :=
      Lookup.visits_header fun i less => moves i (by omega)
    exact not_chain_of_loop visits link l chain
  · rintro ⟨n, stops, moves⟩
    rw [← Nat.zero_add n] at stops
    have chain := Lookup.headers_chain stops fun m low => (Nat.zero_add m).symm ▸ (moves m low).1
    have first : base < wordMod := (base_inside base files).2.trans_le image.fits
    apply Lookup.ends_of_chain chain image.nonnull first
    intro cur visits
    obtain ⟨m, inside, rfl⟩ := List.mem_map.mp (chain.mem_iff.mpr visits)
    have below := (List.mem_range'_1.mp inside).2
    obtain less | rfl : m < n ∨ m = n := by omega
    · exact ⟨false, (moves m less).1.1⟩
    · rw [Nat.zero_add] at stops
      exact stops.elim (fun found => ⟨true, found⟩) fun last => ⟨false, last.1⟩

/-- Inside the image the walk over headers of other sizes than 0 comes to an end: each one is
above the one before. -/
theorem Image.exists_stops (image : Image mem base files)
    (low : base + (encode files).length + 2 ^ 32 ≤ wordMod)
    (inside : ∀ n, (∀ m < n, ¬ q.Stops mem base m) → Inside base files (headerAt mem base n))
    (nonempty : ∀ n, (∀ m ≤ n, ¬ q.Stops mem base m) → sizeAt mem base n ≠ 0#32) :
    ∃ n, q.Stops mem base n := by
  by_contra never
  have none : ∀ n, ¬ q.Stops mem base n := not_exists.mp never
  have higher : ∀ n, base + n ≤ headerAt mem base n := by
    intro n
    induction n with
    | zero => exact Nat.le_refl base
    | succ n ih =>
      have here := inside n fun m _ => none m
      have block := here.block image.aligned (image.headerAt_aligned n)
      have up := lt_headerAt (by omega) (nonempty n fun m _ => none m)
      omega
  have last := inside (encode files).length fun m _ => none m
  have below := last.2
  have above := higher (encode files).length
  omega

theorem Image.ends_inside (image : Image mem base files)
    (low : base + (encode files).length + 2 ^ 32 ≤ wordMod)
    (inside : ∀ n, (∀ m < n, ¬ q.Stops mem base m) → Inside base files (headerAt mem base n)) :
    q.Ends mem base ↔ ∀ n, (∀ m ≤ n, ¬ q.Stops mem base m) → sizeAt mem base n ≠ 0#32 := by
  rw [image.ends_iff]
  constructor
  · rintro ⟨last, stops, moves⟩ n before
    by_cases less : n < last
    · exact (moves n less).2
    · exact absurd stops (before last (Nat.le_of_not_lt less))
  · intro nonempty
    have ends := image.exists_stops low inside nonempty
    classical
    refine ⟨Nat.find ends, Nat.find_spec ends, fun m less => ?_⟩
    have before : ∀ i ≤ m, ¬ q.Stops mem base i := fun i le => Nat.find_min ends (by omega)
    obtain ⟨b, tested⟩ := image.test_ends (q := q) (inside m fun i low => before i (Nat.le_of_lt low))
    exact ⟨(Lookup.stops_or_moves tested).resolve_left (before m (Nat.le_refl m)), nonempty m before⟩

theorem Image.ends_of_nil (image : Image mem base []) : q.Ends mem base := by
  obtain ⟨b, tested⟩ := image.test_ends (q := q) (base_inside base _)
  refine image.ends_iff.mpr ⟨0, ?_, nofun⟩
  cases b with
  | true => exact .inl tested
  | false => exact .inr ⟨tested, .inl image.ended⟩

/-- The empty file in front is not in the directory `00`, a name that its size field spells:
the loop stays at its header. -/
theorem Image.stuck_lookup (image : Image mem base (emptyFile :: rest)) :
    strlen mem passes (base + 133) = .ok 2 ∧ ¬ Lookup.Ends ⟨base + 133, 2, 0, 0⟩ mem base := by
  have byte : ∀ j, j < ustarBlock → mem (base + j) = emptyFile.headerByte j :=
    fun j inside => image.headerByte inside
  have dir : CString mem (base + 133) [48#8, 48#8] := {
    stored := stored_cons.mpr ⟨byte 133 (by decide), stored_cons.mpr ⟨byte 134 (by decide), stored_nil _⟩⟩
    ended := byte 135 (by decide)
    text := by decide }
  have name : CString mem base [97#8] := {
    stored := stored_cons.mpr ⟨byte 0 (by decide), stored_nil _⟩
    ended := byte 1 (by decide)
    text := by decide }
  refine ⟨strlen_eq dir (by decide), ?_⟩
  rintro ⟨l, chain, -⟩
  have differs : Lookup.test ⟨base + 133, 2, 0, 0⟩ mem base = .ok false := by
    rw [Lookup.test, strlen_eq name (by decide)]
    rfl
  have again : nextHeader mem base = some base := nextHeader_eq_some.mpr ⟨image.stuck rfl 1, image.nonnull⟩
  exact not_chain_of_loop .refl (Lookup.next_eq_some.mpr ⟨differs, again⟩) l chain

end Image

/-- In all archives of `k` files every lookup ends exactly if there is no file. In one archive a
lookup ends exactly if the size fields lead from the first header over headers of other sizes
than 0 to one that matches or is the last. A walk that stays in the image ends exactly if no header
up to there records the size 0. -/
theorem initrd_lookup_ends (k : Nat) (fits : ustarBlock * (k + 3) ≤ wordMod) :
    ((∀ (mem : Nat → Byte) (base : Nat) (files : List File) (q : Lookup), Image mem base files →
        files.length = k → strlen mem passes q.dirName = .ok q.dirLen → q.Ends mem base) ↔ k = 0) ∧
    ∀ (mem : Nat → Byte) (base : Nat) (files : List File) (q : Lookup), Image mem base files →
      files.length = k →
      (q.Ends mem base ↔
        ∃ n, q.Stops mem base n ∧ ∀ m < n, q.Moves mem base m ∧ sizeAt mem base m ≠ 0#32) ∧
      (base + (encode files).length + 2 ^ 32 ≤ wordMod →
        (∀ n, (∀ m < n, ¬ q.Stops mem base m) → Inside base files (headerAt mem base n)) →
        (q.Ends mem base ↔
          ∀ n, (∀ m ≤ n, ¬ q.Stops mem base m) → sizeAt mem base n ≠ 0#32)) := by
  constructor
  · constructor
    · intro ends
      cases k with
      | zero => rfl
      | succ k =>
        have image := replicate_image fits
        rw [List.replicate_succ] at image
        obtain ⟨length, hangs⟩ := image.stuck_lookup
        exact absurd (ends _ _ _ ⟨ustarBlock + 133, 2, 0, 0⟩ image (by simp) length) hangs
    · intro none mem base files q image count _
      cases List.eq_nil_of_length_eq_zero (count.trans none)
      exact image.ends_of_nil
  · intro mem base files q image _
    exact ⟨image.ends_iff, image.ends_inside⟩

/-- The image of no file is left at its zero block. -/
theorem initrd_lookup_ends_empty : ustarBlock * (0 + 3) ≤ wordMod ∧
    Lookup.Ends ⟨512, 0, 512, 0⟩ (place 512 []) 512 := by
  have image : Image (place 512 []) 512 [] := replicate_image (k := 0) (by decide)
  have length : strlen (place 512 []) passes 512 = .ok 0 := if_pos image.ended
  exact ⟨by decide, (initrd_lookup_ends 0 (by decide)).1.mpr rfl _ _ _ ⟨512, 0, 512, 0⟩ image rfl length⟩

/-! ## What matches -/

/-- The name that is looked up with at most one more byte. -/
def Near (dir name target : List Byte) : Prop :=
  dir ++ name <+: target ∧ target.length ≤ (dir ++ name).length + 1

/-- The name that is looked up, or it with a slash. -/
def Exact (dir name target : List Byte) : Prop := target = dir ++ name ∨ target = dir ++ name ++ [47#8]

instance (dir name target : List Byte) : Decidable (Near dir name target) :=
  inferInstanceAs (Decidable (_ ∧ _))

instance (dir name target : List Byte) : Decidable (Exact dir name target) :=
  inferInstanceAs (Decidable (_ ∨ _))

theorem Exact.near {dir name target : List Byte} (exact : Exact dir name target) :
    Near dir name target := by
  cases exact with
  | inl same => exact ⟨same ▸ List.prefix_refl _, same ▸ Nat.le_succ _⟩
  | inr slash => exact ⟨slash ▸ List.prefix_append _ _, slash ▸ Nat.le_of_eq List.length_append⟩

section Match

variable {q : Lookup} {mem : Nat → Byte} {addr cur : Nat} {bytes target dir name : List Byte}

theorem append_prefix_iff : dir ++ name <+: target ↔ dir <+: target ∧ name <+: target.drop dir.length := by
  constructor
  · rintro ⟨rest, rfl⟩
    exact ⟨⟨name ++ rest, by simp⟩, ⟨rest, by simp⟩⟩
  · rintro ⟨⟨rest, rfl⟩, inner⟩
    rw [List.drop_left] at inner
    exact (List.prefix_append_right_inj dir).mpr inner

theorem Lookup.test_eq (string : CString mem cur target) (short : target.length < 100)
    (dirString : CString mem q.dirName dir) (dirLen : q.dirLen = dir.length)
    (stored : Stored mem q.name name) (len : q.len = name.length) (text : 0#8 ∉ name) :
    q.test mem cur = .ok (decide (Near dir name target)) := by
  have length : strlen mem passes cur = .ok target.length := strlen_eq string (short.trans (by decide))
  rw [Lookup.test, length, ok_bind, dirLen, len]
  split
  case isTrue outside =>
    have far : ¬ Near dir name target := by
      rintro ⟨front, close⟩
      have longer := front.length_le
      rw [List.length_append] at longer close
      -- the sum does not wrap: it is not more than the length of the header's name
      rw [Nat.mod_eq_of_lt (by simp only [wordMod]; omega)] at outside
      omega
    rw [decide_eq_false far]
    rfl
  case isFalse inside =>
    have window : dir.length ≤ target.length ∧
        target.length ≤ (dir.length + name.length + 1) % wordMod := by
      push Not at inside
      exact inside
    have close : target.length ≤ (dir ++ name).length + 1 := by
      rw [List.length_append]
      exact window.2.trans (Nat.mod_le _ _)
    have first := string.memcmp_iff dirString.stored dirString.text
    have second := (string.drop window.1).memcmp_iff stored text
    have same : (memcmp mem q.dirName cur dir.length = 0 ∧
        memcmp mem q.name (cur + dir.length) name.length = 0) ↔ Near dir name target := by
      rw [first, second, ← append_prefix_iff, Near, and_iff_left close]
    simp only [same]
    rfl

end Match

/-- The headers that the walk from `root` comes to, each with its name. -/
structure Headers (mem : Nat → Byte) (root : Nat) (headers : List Nat) (names : Nat → List Byte) :
    Prop where
  chain : Chain (nextHeader mem) (some root) headers
  named : ∀ cur ∈ headers, CString mem cur (names cur)
  short : ∀ cur ∈ headers, (names cur).length < 100
  nonnull : root ≠ 0
  low : root < wordMod

structure Asked (mem : Nat → Byte) (fs : InitrdFs) (slash : Nat) (dir : InitrdInode)
    (dirText : List Byte) (name : Nat) (text : List Byte) : Prop where
  isDir : dir.addr ≠ 0 ∧ dir.mode = iDirectory ∧ dir.sb ≠ 0
  nonnull : dirName fs slash dir ≠ 0
  dirString : CString mem (dirName fs slash dir) dirText
  dirLow : dirText.length < wordMod
  stored : Stored mem name text
  noZero : 0#8 ∉ text

section First

variable {mem : Nat → Byte} {fs : InitrdFs} {slash name : Nat} {dir : InitrdInode}
  {headers : List Nat} {names : Nat → List Byte} {dirText text : List Byte}

theorem Headers.scan {root : Nat} (walk : Headers mem root headers names) {q : Lookup}
    (dirString : CString mem q.dirName dirText) (dirLen : q.dirLen = dirText.length)
    (stored : Stored mem q.name text) (len : q.len = text.length) (noZero : 0#8 ∉ text) :
    q.scan mem passes root = .ok (headers.find? fun cur => Near dirText text (names cur)) := by
  have tested : ∀ cur ∈ headers, q.test mem cur = .ok (decide (Near dirText text (names cur))) :=
    fun cur member => Lookup.test_eq (walk.named cur member)
      (walk.short cur member) dirString dirLen stored len noZero
  have short : headers.length < passes := chain_short (fun _ _ link => link) walk.chain walk.low
  have runs :=
    Lookup.scan_chain (fun _ _ => rfl) walk.chain (fun zero => walk.nonnull (Option.some.inj zero))
    (fun cur member => ⟨_, tested cur member⟩) short
  rw [Option.getD_some] at runs
  rw [runs]
  apply congrArg Except.ok
  apply List.find?_congr
  intro cur member
  simp [tested cur member, Except.toOption]

theorem find?_finer {coarse fine : Nat → Bool} (imp : ∀ cur, fine cur = true → coarse cur = true)
    (l : List Nat) :
    l.find? coarse = l.find? fine ↔ ∀ cur, l.find? coarse = some cur → fine cur = true := by
  constructor
  · intro same cur found
    rw [same] at found
    exact List.find?_some found
  · intro right
    induction l with
    | nil => rfl
    | cons a rest ih =>
      rw [List.find?_cons, List.find?_cons]
      rw [List.find?_cons] at right
      cases here : coarse a with
      | true =>
        rw [here] at right
        rw [right a rfl]
      | false =>
        have other : fine a = false := by
          cases kind : fine a with
          | false => rfl
          | true => exact absurd (imp a kind) (by simp [here])
        rw [here] at right
        rw [other]
        exact ih right

theorem Asked.lookup (asked : Asked mem fs slash dir dirText name text) {found : Option Nat}
    (out : Nat) (scans : Lookup.scan ⟨dirName fs slash dir, dirText.length, name, text.length⟩ mem
      passes fs.rootHdr = .ok found) :
    initrdDirLookupInode mem fs slash dir name text.length out =
      .ok (found, found.elim 0 fun _ => out) := by
  have length : strlen mem passes (dirName fs slash dir) = .ok dirText.length :=
    strlen_eq asked.dirString (asked.dirLow.trans (by decide))
  rw [initrdDirLookupInode, kassert, if_pos asked.isDir, ok_bind, if_neg asked.nonnull, length]
  simp only [ok_bind, scans]
  cases found with
  | none => rfl
  | some cur => rfl

/-- A lookup takes its exit at the first header whose name is that of the directory and the name
asked for with at most one more byte, whichever. That is the header asked for exactly if the
byte is a slash or there is none. -/
theorem initrd_lookup_first (walk : Headers mem fs.rootHdr headers names)
    (asked : Asked mem fs slash dir dirText name text) (out : Nat) :
    ∃ found, found = (headers.find? fun cur => Near dirText text (names cur)) ∧
      initrdDirLookupInode mem fs slash dir name text.length out =
        .ok (found, found.elim 0 fun _ => out) ∧
      (found = (headers.find? fun cur => Exact dirText text (names cur)) ↔
        ∀ cur, (headers.find? fun cur => Near dirText text (names cur)) = some cur →
          Exact dirText text (names cur)) := by
  have scans := walk.scan (q := ⟨dirName fs slash dir, dirText.length, name, text.length⟩)
    asked.dirString rfl asked.stored rfl asked.noZero
  have imp : ∀ cur, decide (Exact dirText text (names cur)) = true →
      decide (Near dirText text (names cur)) = true :=
    fun cur exact => decide_eq_true (of_decide_eq_true exact).near
  refine ⟨_, rfl, asked.lookup out scans, ?_⟩
  rw [find?_finer imp headers]
  simp only [decide_eq_true_eq]

end First

/-! ## An archive with one file -/

/-- An archive with the strings `"/"` at 8 and `"ab"` at 16 below it. -/
def shelved (base : Nat) (files : List File) (addr : Nat) : Byte :=
  if addr < base then
    if addr = 8 then 47#8 else if addr = 16 then 97#8 else if addr = 17 then 98#8 else 0#8
  else place base files addr

theorem shelved_image (small : f.contents.length ≤ 1) : Image (shelved 512 [f]) 512 [f] := by
  have fits : 512 + (encode [f]).length ≤ wordMod := by
    have one : padded f.contents.length ≤ 512 := by
      simp only [padded, ustarBlock]
      omega
    rw [encode, List.length_append, f.blocks_length, encode, List.length_replicate]
    simp only [ustarBlock, wordMod]
    omega
  have placed : Image (place 512 [f]) 512 [f] := place_image dvd_rfl (by decide) fits
  refine ⟨fun j b inside => ?_, placed.aligned, placed.nonnull, fits⟩
  rw [shelved, if_neg (Nat.not_lt_of_le (Nat.le_add_right 512 j))]
  exact placed.stored j b inside

theorem Image.name {mem : Nat → Byte} {base : Nat} (image : Image mem base (f :: rest)) :
    CString mem base f.name := by
  have short := f.short
  have byte : ∀ j, j < 100 → mem (base + j) = f.name.getD j 0#8 := by
    intro j inside
    rw [image.headerByte (by simp only [ustarBlock]; omega), File.headerByte, if_pos inside]
  refine ⟨fun j b inside => ?_, ?_, f.text⟩
  · have low := (List.getElem?_eq_some_iff.mp inside).1
    rw [byte j (by omega), List.getD_eq_getElem?_getD, inside]
    rfl
  · rw [byte _ (by omega), List.getD_eq_getElem?_getD, List.getElem?_eq_none (Nat.le_refl _)]
    rfl

theorem regular_known : (48#8 : Byte) = 48#8 ∨ (48#8 : Byte) = 50#8 ∨ (48#8 : Byte) = 53#8 := .inl rfl

def zeroFile (name : List Byte) (named : name ≠ []) (short : name.length ≤ 99) (text : 0#8 ∉ name) :
    File where
  name := name
  type := 48#8
  contents := [0#8]
  other _ := 0#8
  named := named
  short := short
  text := text
  known := regular_known
  small := by decide

theorem Image.headers {mem : Nat → Byte} {base : Nat} (image : Image mem base [f])
    (contents : f.contents = [0#8]) :
    Headers mem base [base, base + ustarBlock] fun cur => if cur = base then f.name else [] := by
  have length : padded 1 = ustarBlock := by decide
  have next : nextHeader mem base = some (base + ustarBlock) := by
    have step := image.next 0
    rw [contents, List.length_singleton, length] at step
    exact nextHeader_eq_some.mpr ⟨step, Nat.ne_of_gt (Nat.add_pos_right base (by decide))⟩
  have zero : mem (base + ustarBlock) = 0#8 := by
    have stored := image.stored.append.1.append.2.append.1
    rw [f.header_length, contents] at stored
    exact (stored_cons.mp stored).1
  have last : nextHeader mem (base + ustarBlock) = none := nextHeader_end zero
  have other : base + ustarBlock ≠ base := Nat.ne_of_gt (Nat.lt_add_of_pos_right (by decide))
  have low : base < wordMod := by
    have room := image.room
    simp only [ustarBlock] at room
    omega
  refine ⟨⟨rfl, next, last⟩, ?_, ?_, image.nonnull, low⟩
  · simp only [List.mem_cons, List.not_mem_nil, or_false, forall_eq_or_imp, forall_eq, if_true,
      if_neg other]
    exact ⟨image.name, stored_nil _, zero, List.not_mem_nil⟩
  · simp only [List.mem_cons, List.not_mem_nil, or_false, forall_eq_or_imp, forall_eq, if_true,
      if_neg other]
    exact ⟨Nat.lt_succ_of_le f.short, by decide⟩

theorem shelved_asked (files : List File) :
    Asked (shelved 512 files) ⟨512, 4⟩ 8 ⟨4, iDirectory, 12, 0⟩ [47#8] 16 [97#8, 98#8] where
  isDir := by decide
  nonnull := by decide
  dirString := ⟨stored_cons.mpr ⟨rfl, stored_nil _⟩, rfl, by decide⟩
  dirLow := by decide
  stored := stored_cons.mpr ⟨rfl, stored_cons.mpr ⟨rfl, stored_nil _⟩⟩
  noZero := by decide

/-- The file `/ab` is found for `ab`. -/
theorem initrd_lookup_first_ab : ∃ mem headers names, Headers mem 512 headers names ∧
    initrdDirLookupInode mem ⟨512, 4⟩ 8 ⟨4, iDirectory, 12, 0⟩ 16 2 0 = .ok (some 512, 0) := by
  let f := zeroFile [47#8, 97#8, 98#8] (by decide) (by decide) (by decide)
  have image : Image (shelved 512 [f]) 512 [f] := shelved_image (by decide)
  have walk := image.headers rfl
  obtain ⟨found, first, looked, -⟩ := initrd_lookup_first walk (shelved_asked [f]) 0
  cases (show found = some 512 from first)
  exact ⟨_, _, _, walk, looked⟩

/-- The file `/abc` is found for `ab`. -/
theorem longer_name_found : ∃ mem headers names, Headers mem 512 headers names ∧
    Asked mem ⟨512, 4⟩ 8 ⟨4, iDirectory, 12, 0⟩ [47#8] 16 [97#8, 98#8] ∧
    initrdDirLookupInode mem ⟨512, 4⟩ 8 ⟨4, iDirectory, 12, 0⟩ 16 2 0 = .ok (some 512, 0) ∧
    names 512 = [47#8, 97#8, 98#8, 99#8] ∧ ¬ Exact [47#8] [97#8, 98#8] (names 512) := by
  let f := zeroFile [47#8, 97#8, 98#8, 99#8] (by decide) (by decide) (by decide)
  have image : Image (shelved 512 [f]) 512 [f] := shelved_image (by decide)
  have walk := image.headers rfl
  have asked := shelved_asked [f]
  have scans := walk.scan (q := ⟨8, 1, 16, 2⟩) asked.dirString rfl asked.stored rfl asked.noZero
  exact ⟨_, _, _, walk, asked, asked.lookup 0 scans, rfl, by decide⟩

/-- One empty file `a`: the lookup of `/ab` stays at its header for ever. -/
theorem lookup_never_ends : ∃ mem, Image mem 512 [emptyFile] ∧ CString mem 8 [47#8] ∧
    CString mem 16 [97#8, 98#8] ∧
    ¬ Lookup.Ends ⟨8, 1, 16, 2⟩ mem 512 ∧ ∀ fuel, Lookup.scan ⟨8, 1, 16, 2⟩ mem fuel 512 =
      .error .unfinished := by
  have image : Image (shelved 512 [emptyFile]) 512 [emptyFile] := shelved_image (by decide)
  have asked := shelved_asked [emptyFile]
  have differs : Lookup.test ⟨8, 1, 16, 2⟩ (shelved 512 [emptyFile]) 512 = .ok false :=
    Lookup.test_eq (q := ⟨8, 1, 16, 2⟩) image.name (by decide) asked.dirString rfl asked.stored rfl
      asked.noZero
  have again : ustarNthFromEntry (shelved 512 [emptyFile]) 512 1 = 512 := image.stuck rfl 1
  have loop := Lookup.next_eq_some.mpr ⟨differs, nextHeader_eq_some.mpr ⟨again, by decide⟩⟩
  refine ⟨_, image, asked.dirString, ⟨asked.stored, rfl, asked.noZero⟩, ?_, fun fuel => ?_⟩
  · rintro ⟨l, chain, -⟩
    exact not_chain_of_loop .refl loop l chain
  · induction fuel with
    | zero => rfl
    | succ fuel ih =>
      rwa [Lookup.scan, if_neg (by decide), differs, ok_bind, again]

end ByteOS.Fs
