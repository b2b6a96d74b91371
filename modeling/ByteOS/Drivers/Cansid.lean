import ByteOS.Lib.Bytes
import Mathlib.Data.BitVec
import Mathlib.Data.Fintype.Basic

/-! The parser for escape sequences of the console (`kernel/drivers/vga_tmode/cansid.c`).

A sequence collects its codes in the pending style, which becomes the style at its end. The
meaning of a sequence is the fold of the meanings of its codes. One code of the source means
something else than what it is for: a background colour leaves bit 4 of the previous background
in place.
-/

set_option autoImplicit false

namespace ByteOS.Drivers

open Lib

/-- The states of the parser, `CANSID_ESC` to `CANSID_ENDVAL`. -/
inductive CansidMode where
  | esc
  | bracket
  | parse
  | bgcolor
  | fgcolor
  | equals
  | endval
  deriving DecidableEq, Repr

@[ext] structure CansidState where
  state : CansidMode
  style : BitVec 8
  nextStyle : BitVec 8
  deriving DecidableEq, Repr

structure ColorChar where
  style : BitVec 8
  ascii : BitVec 8
  deriving DecidableEq, Repr

def escape : BitVec 8 := 0x1B#8

def cansidInit : CansidState := ⟨.esc, 0x0F#8, 0x0F#8⟩

def cansidConvertColor (color : BitVec 8) : BitVec 8 :=
  [0#8, 4#8, 2#8, 6#8, 1#8, 5#8, 3#8, 7#8].getD color.toNat 0#8

/-- `x >= '0' && x <= '7'`, where `char` is signed. -/
def isColor (x : BitVec 8) : Bool := (ascii '0').sle x && x.sle (ascii '7')

namespace CansidState

variable (s : CansidState)

def silent (s' : CansidState) : CansidState × ColorChar := (s', ⟨s.style, 0#8⟩)

def value (nextStyle : BitVec 8) : CansidState × ColorChar :=
  s.silent { s with state := .endval, nextStyle }

def abort (x : BitVec 8) : CansidState × ColorChar :=
  ({ s with state := .esc, nextStyle := s.style }, ⟨s.style, x⟩)

end CansidState

def cansidProcess (s : CansidState) (x : BitVec 8) : CansidState × ColorChar :=
  match s.state with
  | .esc => if x = escape then s.silent { s with state := .bracket } else (s, ⟨s.style, x⟩)
  | .bracket =>
    if x = ascii '[' then s.silent { s with state := .parse } else ({ s with state := .esc }, ⟨s.style, x⟩)
  | .parse =>
    if x = ascii '3' then s.silent { s with state := .fgcolor }
    else if x = ascii '4' then s.silent { s with state := .bgcolor }
    else if x = ascii '0' then s.value 0x0F#8
    else if x = ascii '1' then s.value (s.nextStyle ||| 1#8 <<< 3)
    else if x = ascii '=' then s.silent { s with state := .equals }
    else s.abort x
  | .bgcolor =>
    if isColor x then s.value (s.nextStyle &&& 0x1F#8 ||| cansidConvertColor (x - ascii '0') <<< 4)
    else s.abort x
  | .fgcolor =>
    if isColor x then s.value (s.nextStyle &&& 0xF8#8 ||| cansidConvertColor (x - ascii '0')) else s.abort x
  | .equals => if x = ascii '1' then s.value (s.nextStyle &&& ~~~(1#8 <<< 3)) else s.abort x
  | .endval =>
    if x = ascii ';' then s.silent { s with state := .parse }
    else if x = ascii 'm' then s.silent { s with state := .esc, style := s.nextStyle }
    else s.abort x

def feed (s : CansidState) : List (BitVec 8) → CansidState × List ColorChar
  | [] => (s, [])
  | x :: rest =>
    let (s', ch) := cansidProcess s x
    let (last, out) := feed s' rest
    (last, ch :: out)

def printed (out : List ColorChar) : List ColorChar := out.filter fun ch => ch.ascii ≠ 0#8

section Step

variable (s : CansidState) (x : BitVec 8)

@[simp] theorem process_style : (cansidProcess s x).2.style = s.style := by
  unfold cansidProcess
  repeat' split
  all_goals rfl

/-- A byte is printed only as itself, and then no sequence is open. -/
theorem process_prints : (cansidProcess s x).2.ascii = 0#8 ∨
    (cansidProcess s x).2.ascii = x ∧ (cansidProcess s x).1.state = .esc := by
  unfold cansidProcess
  repeat' split
  all_goals first | exact .inl rfl | exact .inr ⟨rfl, rfl⟩ | exact .inr ⟨rfl, ‹_›⟩

variable {s}

theorem process_text (outside : s.state = .esc) (text : x ≠ escape) :
    cansidProcess s x = (s, ⟨s.style, x⟩) := by
  rw [cansidProcess, outside]
  exact if_neg text

end Step

/-! ## Sequences and their meaning -/

/-- The codes `0`, `1`, `=1`, `30`-`37` and `40`-`47`. -/
inductive Code where
  | reset
  | bright
  | dim
  | fg (n : Fin 8)
  | bg (n : Fin 8)
  deriving DecidableEq, Repr

def digit (n : Fin 8) : BitVec 8 := ascii '0' + BitVec.ofNat 8 n.val

def Code.bytes : Code → List (BitVec 8)
  | .reset => [ascii '0']
  | .bright => [ascii '1']
  | .dim => [ascii '=', ascii '1']
  | .fg n => [ascii '3', digit n]
  | .bg n => [ascii '4', digit n]

/-- Printable text and well-formed sequences. -/
inductive Item where
  | text (b : BitVec 8) (printable : b ≠ 0#8 ∧ b ≠ escape)
  | sequence (first : Code) (rest : List Code)

def Item.bytes : Item → List (BitVec 8)
  | .text b _ => [b]
  | .sequence first rest =>
    escape ::
      ascii '[' :: (first.bytes ++ rest.flatMap (fun code => ascii ';' :: code.bytes) ++ [ascii 'm'])

def Item.codes : Item → List Code
  | .text _ _ => []
  | .sequence first rest => first :: rest

def colorOf (n : Fin 8) : BitVec 8 := cansidConvertColor (BitVec.ofNat 8 n.val)

def specified (style : BitVec 8) : Code → BitVec 8
  | .reset => 0x0F#8
  | .bright => style ||| 0x08#8
  | .dim => style &&& ~~~0x08#8
  | .fg n => style &&& 0xF8#8 ||| colorOf n
  | .bg n => style &&& 0x0F#8 ||| colorOf n <<< 4

def stored (style : BitVec 8) : Code → BitVec 8
  | .bg n => style &&& 0x1F#8 ||| colorOf n <<< 4
  | code => specified style code

def typeset (apply : BitVec 8 → Code → BitVec 8) (style : BitVec 8) : List Item → List ColorChar
  | [] => []
  | .text b _ :: rest => ⟨style, b⟩ :: typeset apply style rest
  | .sequence first codes :: rest => typeset apply ((first :: codes).foldl apply style) rest

def noteBackground (seen : List (Fin 8)) : Code → List (Fin 8)
  | .reset => []
  | .bg n => seen ++ [n]
  | _ => seen

def backgrounds (codes : List Code) : List (Fin 8) := codes.foldl noteBackground []

/-- A background of `44`-`47` has bit 4. -/
def marks (n : Fin 8) : Bool := 4 ≤ n.val

/-- The last background since the last reset has bit 4 if any of them has it. -/
def Clean (codes : List Code) : Prop :=
  (backgrounds codes).any marks → ((backgrounds codes).getLast?).any marks

section Parser

variable {s s' s'' : CansidState} {style next : BitVec 8} {code : Code}

theorem feed_append (s : CansidState) (first second : List (BitVec 8)) :
    feed s (first ++ second) =
      ((feed (feed s first).1 second).1, (feed s first).2 ++ (feed (feed s first).1 second).2) := by
  induction first generalizing s with
  | nil => rfl
  | cons x rest ih => simp only [List.cons_append, feed, ih]

def Silent (s : CansidState) (bytes : List (BitVec 8)) (s' : CansidState) : Prop :=
  (feed s bytes).1 = s' ∧ printed (feed s bytes).2 = []

theorem Silent.append {first second : List (BitVec 8)} (one : Silent s first s')
    (two : Silent s' second s'') : Silent s (first ++ second) s'' := by
  obtain ⟨rfl, quiet⟩ := one
  unfold Silent
  rw [feed_append]
  refine ⟨two.1, ?_⟩
  rw [printed, List.filter_append]
  exact List.append_eq_nil_iff.mpr ⟨quiet, two.2⟩

theorem Silent.cons {x : BitVec 8} {rest : List (BitVec 8)}
    (one : cansidProcess s x = (s', ⟨s.style, 0#8⟩)) (two : Silent s' rest s'') :
    Silent s (x :: rest) s'' := by
  have first : Silent s [x] s' := by
    simp [Silent, feed, one, printed]
  exact first.append two

theorem Silent.nil (s : CansidState) : Silent s [] s := ⟨rfl, rfl⟩

theorem isColor_digit : ∀ n : Fin 8, isColor (digit n) = true := by decide

theorem digit_sub : ∀ n : Fin 8, digit n - ascii '0' = BitVec.ofNat 8 n.val := by decide

theorem silent_code (code : Code) :
    Silent ⟨.parse, style, next⟩ code.bytes ⟨.endval, style, stored next code⟩ := by
  cases code with
  | reset | bright => exact .cons rfl (.nil _)
  | dim => exact .cons rfl (.cons rfl (.nil _))
  | fg n | bg n =>
    refine .cons rfl (.cons ?_ (.nil _))
    simp only [cansidProcess, isColor_digit, if_true, digit_sub]
    rfl

theorem silent_rest (codes : List Code) :
    Silent ⟨.endval, style, next⟩ (codes.flatMap fun code => ascii ';' :: code.bytes)
      ⟨.endval, style, codes.foldl stored next⟩ := by
  induction codes generalizing next with
  | nil => exact .nil _
  | cons code rest ih => exact .cons rfl ((silent_code code).append ih)

theorem silent_sequence (first : Code) (rest : List Code) :
    Silent ⟨.esc, style, style⟩ (Item.sequence first rest).bytes
      ⟨.esc, (first :: rest).foldl stored style, (first :: rest).foldl stored style⟩ :=
  .cons rfl (.cons rfl (((silent_code first).append (silent_rest rest)).append (.cons rfl (.nil _))))

theorem feed_items (style : BitVec 8) (items : List Item) :
    printed (feed ⟨.esc, style, style⟩ (items.flatMap Item.bytes)).2 = typeset stored style items := by
  induction items generalizing style with
  | nil => rfl
  | cons item rest ih =>
    rw [List.flatMap_cons, feed_append]
    cases item with
    | text b printable =>
      have here : feed ⟨.esc, style, style⟩ (Item.text b printable).bytes =
          (⟨.esc, style, style⟩, [⟨style, b⟩]) := by
        rw [Item.bytes, feed, process_text b rfl printable.2]
        rfl
      rw [here, typeset, ← ih, printed, List.filter_append]
      simp [printable.1, printed]
    | sequence first codes =>
      obtain ⟨state, quiet⟩ : Silent ⟨.esc, style, style⟩ _ _ := silent_sequence first codes
      rw [typeset, ← ih, state, printed, List.filter_append]
      exact congrArg (· ++ _) quiet

end Parser

/-! ## Sequences that are broken off -/

section Pending

variable {s : CansidState} {x : BitVec 8} {bytes : List (BitVec 8)}

/-- The byte is the `m` at the end of a sequence. -/
def Completes (s : CansidState) (x : BitVec 8) : Prop := s.state = .endval ∧ x = ascii 'm'

/-- Before the `[` of a sequence no code is pending. -/
def Settled (s : CansidState) : Prop := s.state = .esc ∨ s.state = .bracket → s.nextStyle = s.style

def BrokenOff (s : CansidState) : List (BitVec 8) → Prop
  | [] => True
  | x :: rest => ¬ Completes s x ∧ BrokenOff (cansidProcess s x).1 rest

theorem process_style_of_not (within : ¬ Completes s x) : (cansidProcess s x).1.style = s.style := by
  unfold cansidProcess
  repeat' split
  all_goals first | rfl | exact absurd ⟨‹_›, ‹_›⟩ within

theorem Settled.process (settled : Settled s) (x : BitVec 8) : Settled (cansidProcess s x).1 := by
  unfold cansidProcess
  repeat' split
  all_goals first
    | exact fun _ => rfl
    | exact fun _ => settled (.inl ‹_›)
    | exact fun _ => settled (.inr ‹_›)
    | rintro (outside | outside) <;> cases outside

theorem Settled.feed (settled : Settled s) (bytes : List (BitVec 8)) : Settled (feed s bytes).1 := by
  induction bytes generalizing s with
  | nil => exact settled
  | cons x rest ih => exact ih (settled.process x)

theorem BrokenOff.feed_style (broken : BrokenOff s bytes) :
    (feed s bytes).1.style = s.style ∧ ∀ ch ∈ (feed s bytes).2, ch.style = s.style := by
  induction bytes generalizing s with
  | nil => exact ⟨rfl, nofun⟩
  | cons x rest ih =>
    have same := process_style_of_not broken.1
    obtain ⟨last, later⟩ := ih broken.2
    rw [same] at last later
    exact ⟨last, List.forall_mem_cons.mpr ⟨process_style s x, later⟩⟩

theorem BrokenOff.returns (broken : BrokenOff s bytes) (settled : Settled s)
    (outside : s.state = .esc) (back : (feed s bytes).1.state = .esc) : (feed s bytes).1 = s := by
  have style := broken.feed_style.1
  have pending := settled.feed bytes (.inl back)
  exact CansidState.ext (back.trans outside.symm) style
    (pending.trans (style.trans (settled (.inl outside)).symm))

/-- Outside of a sequence no code is pending, and only the end of a sequence changes the style. So
bytes that begin sequences and end none are printed in the style before them, and what follows is
as if they had not been sent. -/
theorem broken_sequences_ignored (stream : List (BitVec 8)) (reached : (feed cansidInit stream).1 = s) :
    (s.state = .esc ∨ s.state = .bracket → s.nextStyle = s.style) ∧
    (∀ x, (cansidProcess s x).1.style ≠ s.style → Completes s x) ∧
    ∀ broken, s.state = .esc → BrokenOff s broken → (feed s broken).1.state = .esc →
      (∀ ch ∈ (feed s broken).2, ch.style = s.style) ∧
      ∀ after, feed s (broken ++ after) = ((feed s after).1, (feed s broken).2 ++ (feed s after).2) := by
  have settled : Settled s := reached ▸ Settled.feed (fun _ => rfl) stream
  refine ⟨settled, fun x => not_imp_comm.mp process_style_of_not, fun broken outside off back => ?_⟩
  refine ⟨off.feed_style.2, fun after => ?_⟩
  rw [feed_append, off.returns settled outside back]

/-- A background and half of a foreground are dropped at the `x`. -/
theorem broken_sequences_ignored_background :
    feed cansidInit (escape :: ['[', '4', '4', ';', '3', 'x'].map ascii ++ [ascii 'A']) =
      (cansidInit, List.replicate 6 ⟨0x0F#8, 0#8⟩ ++ [⟨0x0F#8, ascii 'x'⟩, ⟨0x0F#8, ascii 'A'⟩]) := by
  obtain ⟨-, -, ignored⟩ := broken_sequences_ignored [] rfl
  have off : BrokenOff cansidInit (escape :: ['[', '4', '4', ';', '3', 'x'].map ascii) := by
    simp only [BrokenOff, Completes, List.map_cons, List.map_nil]
    decide
  exact (ignored _ rfl off rfl).2 [ascii 'A']

end Pending

/-! ## The two meanings compared -/

section Styles

variable {codes : List Code}

/-- A style with bit 4 left over from an earlier background. -/
def smear (style : BitVec 8) (left : Bool) : BitVec 8 := style ||| if left then 0x10#8 else 0#8

def bit4 (style : BitVec 8) : Bool := style.getLsbD 4

variable {style mask : BitVec 8} {left : Bool} {n : Fin 8}

theorem smear_smear (style : BitVec 8) (left left' : Bool) :
    smear (smear style left) left' = smear style (left || left') := by
  cases left <;> cases left' <;> simp [smear, BitVec.or_assoc]

theorem smear_or (style mask : BitVec 8) (left : Bool) :
    smear style left ||| mask = smear (style ||| mask) left := by
  rw [smear, smear, BitVec.or_assoc, BitVec.or_comm _ mask, BitVec.or_assoc]

theorem or_smear (style mask : BitVec 8) (left : Bool) :
    style ||| smear mask left = smear (style ||| mask) left :=
  (BitVec.or_assoc ..).symm

theorem smear_and (keeps : 0x10#8 &&& mask = 0x10#8) :
    smear style left &&& mask = smear (style &&& mask) left := by
  cases left with
  | false => simp [smear]
  | true => simp only [smear, if_true, BitVec.and_or_distrib_right, keeps]

theorem smear_eq_self (style : BitVec 8) (left : Bool) :
    smear style left = style ↔ (left → bit4 style) := by
  have set : ∀ style : BitVec 8, style ||| 0x10#8 = style ↔ bit4 style := by decide
  cases left with
  | false => simp [smear]
  | true => simpa [smear] using set style

/-- The mask of the source keeps bit 4 beside the foreground. -/
theorem kept_background :
    ∀ style : BitVec 8, style &&& 0x1F#8 = smear (style &&& 0x0F#8) (bit4 style) := by decide

theorem smear_color : ∀ n : Fin 8, smear (colorOf n <<< 4) (marks n) = colorOf n <<< 4 := by decide

theorem bit4_color : ∀ n : Fin 8, bit4 (colorOf n <<< 4) = marks n ∧ bit4 (colorOf n) = false := by decide

/-- A background is smeared with bit 4 of every earlier one. -/
theorem stored_bg (kept : bit4 style → left) :
    stored (smear style left) (.bg n) = smear (specified style (.bg n)) (left || marks n) := by
  have absorbed : (bit4 style || left) = left := by
    cases left with
    | false => simpa using kept
    | true => exact Bool.or_true _
  calc stored (smear style left) (.bg n)
      = smear (style &&& 0x1F#8) left ||| colorOf n <<< 4 := by rw [stored, smear_and (by decide)]
    _ = smear (style &&& 0x0F#8) left ||| smear (colorOf n <<< 4) (marks n) := by
        rw [kept_background, smear_smear, absorbed, smear_color]
    _ = smear (specified style (.bg n))
      (left || marks n) := by rw [smear_or, or_smear, smear_smear, Bool.or_comm]; rfl

/-- The other codes leave bit 4 alone, or clear it with all the rest. -/
theorem stored_other (style : BitVec 8) (left : Bool) :
    stored (smear style left) .bright = smear (specified style .bright) left ∧
      stored (smear style left) .dim = smear (specified style .dim) left ∧
      ∀ n, stored (smear style left) (.fg n) = smear (specified style (.fg n)) left := by
  refine ⟨smear_or _ _ _, smear_and (by decide), fun n => ?_⟩
  change smear style left &&& 0xF8#8 ||| colorOf n = _
  rw [smear_and (by decide), smear_or]
  rfl

@[simp] theorem bit4_or (style mask : BitVec 8) :
    bit4 (style ||| mask) = (bit4 style || bit4 mask) := BitVec.getLsbD_or

@[simp] theorem bit4_and (style mask : BitVec 8) :
    bit4 (style &&& mask) = (bit4 style && bit4 mask) := BitVec.getLsbD_and

theorem bit4_bg (style : BitVec 8) (n : Fin 8) : bit4 (specified style (.bg n)) = marks n := by
  have foreground : bit4 0x0F#8 = false := rfl
  simp [specified, (bit4_color n).1, foreground]

theorem bit4_other (style : BitVec 8) : bit4 (specified style .bright) = bit4 style ∧
    bit4 (specified style .dim) = bit4 style ∧ ∀ n, bit4 (specified style (.fg n)) = bit4 style := by
  have masks : bit4 0x08#8 = false ∧ bit4 0xF7#8 = true ∧ bit4 0xF8#8 = true := by decide
  simp [specified, bit4_color, masks]

theorem last_marks_any {seen : List (Fin 8)} (last : (seen.getLast?).any marks) : seen.any marks := by
  cases here : seen.getLast? with
  | none => simp [here] at last
  | some n =>
    rw [here] at last
    exact List.any_eq_true.mpr ⟨n, List.mem_of_getLast? here, last⟩

theorem fold_stored (codes : List Code) :
    codes.foldl stored 0x0F#8 = smear (codes.foldl specified 0x0F#8) ((backgrounds codes).any marks) ∧
      bit4 (codes.foldl specified 0x0F#8) = ((backgrounds codes).getLast?).any marks := by
  induction codes using List.reverseRecOn with
  | nil => decide
  | append_singleton codes code ih =>
    obtain ⟨same, last⟩ := ih
    have seen : backgrounds (codes ++ [code]) = noteBackground (backgrounds codes) code := by
      rw [backgrounds, List.foldl_concat]
      rfl
    rw [List.foldl_concat, List.foldl_concat, seen, same]
    generalize codes.foldl specified 0x0F#8 = style at last ⊢
    have kept : bit4 style → (backgrounds codes).any marks := fun set => last_marks_any (last ▸ set)
    cases code with
    | reset =>
      have start : 0x0F#8 = smear 0x0F#8 false ∧ bit4 0x0F#8 = false := by decide
      exact start
    | bright => exact ⟨(stored_other style _).1, (bit4_other style).1.trans last⟩
    | dim => exact ⟨(stored_other style _).2.1, (bit4_other style).2.1.trans last⟩
    | fg n => exact ⟨(stored_other style _).2.2 n, ((bit4_other style).2.2 n).trans last⟩
    | bg n =>
      rw [stored_bg kept, bit4_bg]
      simp [noteBackground]

theorem fold_eq_iff (codes : List Code) : codes.foldl stored 0x0F#8 = codes.foldl specified 0x0F#8 ↔
    Clean codes := by
  obtain ⟨same, last⟩ := fold_stored codes
  rw [same, smear_eq_self, last]
  rfl

theorem forall_text_cons {P : List Item → Prop} {item : Item} {rest : List Item} :
    (∀ before b printable after, item :: rest = before ++ .text b printable :: after → P before) ↔
      (∀ b printable, item = .text b printable → P []) ∧
        ∀ before b printable after, rest = before ++ .text b printable :: after → P (item :: before) := by
  constructor
  · intro all
    refine ⟨fun b printable here => ?_, fun before b printable after split => ?_⟩
    · exact all [] b printable rest (by rw [here, List.nil_append])
    · exact all (item :: before) b printable after (by rw [split, List.cons_append])
  · rintro ⟨here, later⟩ before b printable after split
    cases before with
    | nil => exact here b printable (List.cons.inj split).1
    | cons first before =>
      obtain ⟨rfl, split'⟩ := List.cons.inj split
      exact later before b printable after split'

theorem typeset_eq_iff {f g : BitVec 8 → Code → BitVec 8} {style' : BitVec 8} {items : List Item} :
    typeset f style items = typeset g style' items ↔ ∀ before b printable after,
      items = before ++ .text b printable :: after →
        (before.flatMap Item.codes).foldl f style = (before.flatMap Item.codes).foldl g style' := by
  induction items generalizing style style' with
  | nil => simp [typeset]
  | cons item rest ih =>
    rw [forall_text_cons]
    cases item with
    | text b printable =>
      have always : (∀ b' printable', Item.text b printable = .text b' printable' →
          style = style') ↔ style = style' :=
        ⟨fun all => all b printable rfl, fun same _ _ _ => same⟩
      simp only [typeset, List.cons.injEq, ColorChar.mk.injEq, and_true, ih, List.flatMap_nil,
        List.foldl_nil, always, List.flatMap_cons, Item.codes, List.nil_append]
    | sequence first codes =>
      simp only [typeset, ih, List.flatMap_cons, Item.codes, List.foldl_append, reduceCtorEq,
        false_implies, implies_true, true_and]

end Styles

/-- Colour sequences compose as they are specified exactly if no character is printed on a
background whose bit 4 is left over from an earlier one. -/
theorem colours_compose (items : List Item) :
    printed (feed cansidInit (items.flatMap Item.bytes)).2 = typeset specified 0x0F#8 items ↔
      ∀ before b printable after, items = before ++ .text b printable :: after →
      Clean (before.flatMap Item.codes) := by
  rw [cansidInit, feed_items, typeset_eq_iff]
  simp only [fold_eq_iff]

theorem letter_printable : ascii 'A' ≠ 0#8 ∧ ascii 'A' ≠ escape := by decide

/-- Black after blue: the background stays blue. -/
theorem black_after_blue :
    printed (feed cansidInit ([.sequence (.bg ⟨4, by decide⟩) [.bg ⟨0, by decide⟩],
      .text (ascii 'A') letter_printable].flatMap Item.bytes)).2 = [⟨0x1F#8, ascii 'A'⟩] ∧
    typeset specified 0x0F#8 [.sequence (.bg ⟨4, by decide⟩) [.bg ⟨0, by decide⟩],
      .text (ascii 'A') letter_printable] = [⟨0x0F#8, ascii 'A'⟩] := by
  decide

end ByteOS.Drivers
