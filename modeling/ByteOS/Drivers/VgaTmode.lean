import ByteOS.Drivers.Cansid
import ByteOS.Mm.Addr

/-! The text console (`kernel/drivers/vga_tmode/vga_tmode.c`).

The console keeps a log of what it does to the screen, so that the cells it touches can be
spoken about, and the order in which it does; the buffer is the replay of the log. A step of the
console is described by the part of the log that it adds.
-/

set_option autoImplicit false

namespace ByteOS.Drivers

open Lib Mm

def vgaWidth : Nat := 80

def vgaHeight : Nat := 25

/-- What the console does: `process` is a return of `cansid_process` with the cursor at a cell,
`cursor` a call of `vga_tmode_setcursor`. -/
inductive Access where
  | process (cell : Nat) (ch : ColorChar)
  | write (cell : Nat) (value : BitVec 16)
  | copy (dst src : Nat)
  | cursor (x y : Nat)
  | outb (port : BitVec 16) (value : BitVec 8)
  deriving DecidableEq, Repr

abbrev Screen := Nat → BitVec 16

def Access.apply (screen : Screen) : Access → Screen
  | .write cell value => Function.update screen cell value
  | .copy dst src => Function.update screen dst (screen src)
  | _ => screen

def replay (screen : Screen) (log : List Access) : Screen := log.foldl Access.apply screen

/-- `VGABUF`, as cells, and the variables of the file. -/
structure Console where
  buf : Screen
  xPos : Nat
  yPos : Nat
  cansid : CansidState
  log : List Access

namespace Console

variable (c : Console)

def cell : Nat := c.yPos * 80 + c.xPos

def perform (accesses : List Access) : Console :=
  { c with buf := replay c.buf accesses, log := c.log ++ accesses }

end Console

def cursorPosition (x y : Nat) : BitVec 16 := BitVec.ofNat 16 (y * 80 + x)

def vgaTmodeSetcursor (c : Console) (x y : Nat) : Console :=
  { c with xPos := x, yPos := y }.perform
    [.cursor x y, .outb 0x3D4#16 0x0F#8, .outb 0x3D5#16 ((cursorPosition x y).setWidth 8),
      .outb 0x3D4#16 0x0E#8, .outb 0x3D5#16 ((cursorPosition x y >>> 8).setWidth 8)]

def copyLine (dst src : Nat) : List Access := (List.range vgaWidth).map fun j => .copy (dst + j) (src + j)

def blank : BitVec 16 := 0x0F20#16

def scroll : List Access :=
  ((List.range' 2 (vgaHeight - 2)).flatMap fun i => copyLine ((i - 1) * vgaWidth) (i * vgaWidth)) ++
    (List.range vgaWidth).map fun i => .write (vgaWidth * (vgaHeight - 1) + i) blank

/-- `vga_tmode_setcursor(x_pos, y_pos)`. -/
def Console.showCursor (c : Console) : Console := vgaTmodeSetcursor c c.xPos c.yPos

def Console.moveTo (c : Console) (x y : Nat) : Console := { c with xPos := x, yPos := y }

def vgaTmodeNewline (c : Console) : Console :=
  (if c.yPos = vgaHeight - 1 then (c.perform scroll).moveTo 0 c.yPos
    else c.moveTo 0 (c.yPos + 1)).showCursor

/-- `(style << 8) | c`, computed in `int` and stored in 16 bits; `c` is a `char`, which is signed. -/
def cellValue (ch style : BitVec 8) : BitVec 16 :=
  (style.setWidth 32 <<< 8 ||| ch.signExtend 32).setWidth 16

def vgaTmodeWriteChar (c : Console) (ch style : BitVec 8) (x y : Nat) : Console :=
  c.perform [.write (y * 80 + x) (cellValue ch style)]

def lineFeed : BitVec 8 := 0x0A#8

def tab : BitVec 8 := 0x09#8

def Console.advance (c : Console) : Console :=
  if c.xPos = vgaWidth - 1 then vgaTmodeNewline c else c.moveTo (c.xPos + 1) c.yPos

/-- The default branch of `vga_tmode_raw_putchar`. -/
def printChar (c : Console) (ch style : BitVec 8) : Console :=
  (vgaTmodeWriteChar c ch style c.xPos c.yPos).advance

/-- `vga_tmode_raw_putchar`, given the function that it calls for the blanks of a tab. -/
def vgaTmodeRawPutchar (putchar : Console → BitVec 8 → Except Fault Console) (c : Console)
    (ch style : BitVec 8) : Except Fault Console := do
  let c ←
    if ch = 0#8 then .ok c
    else if ch = lineFeed then .ok (vgaTmodeNewline c)
    else if ch = tab then do
      let c ← putchar c (ascii ' ')
      let c ← putchar c (ascii ' ')
      let c ← putchar c (ascii ' ')
      putchar c (ascii ' ')
    else .ok (printChar c ch style)
  return c.showCursor

def Console.process (c : Console) (x : BitVec 8) : Console :=
  { c with cansid := (cansidProcess c.cansid x).1 }.perform [.process c.cell (cansidProcess c.cansid x).2]

/-- `vga_tmode_putchar`, with as many calls inside each other as the first argument says. -/
def putcharNested : Nat → Console → BitVec 8 → Except Fault Console
  | 0, _, _ => .error .unfinished
  | depth + 1, c, x =>
    let ch := (cansidProcess c.cansid x).2
    vgaTmodeRawPutchar (putcharNested depth) (c.process x) ch.ascii ch.style

/-- A tab calls the function again, for blanks, and they do not. -/
def vgaTmodePutchar : Console → BitVec 8 → Except Fault Console := putcharNested 2

/-- `vga_tmode_puts`, for the bytes before the NUL. -/
def vgaTmodePuts (c : Console) (bytes : List (BitVec 8)) : Except Fault Console :=
  bytes.foldlM vgaTmodePutchar c

/-- The two strings that `vga_tmode_init` prints. -/
def bannerStart : List (BitVec 8) :=
  escape :: ['[', '=', '1', ';', '3', '0', ';', '4', '7', 'm'].map ascii ++ List.replicate 37
    (ascii ' ') ++ ['B', 'y', 't', 'e', 'O', 'S'].map ascii

def bannerEnd : List (BitVec 8) := List.replicate 37 (ascii ' ') ++ escape :: ['[', '0', 'm'].map ascii

def vgaTmodeInit (c : Console) : Except Fault Console := do
  let c ← vgaTmodePuts { c with cansid := cansidInit } bannerStart
  vgaTmodePuts c bannerEnd

def bootConsole (screen : Screen) : Console := ⟨screen, 0, 0, ⟨.esc, 0#8, 0#8⟩, []⟩

/-! ## Steps of the console -/

structure Dark (s : CansidState) : Prop where
  style : s.style.getLsbD 7 = false
  nextStyle : s.nextStyle.getLsbD 7 = false

/-- The cursor is on the screen, in line `top` or below. -/
structure Good (top : Nat) (c : Console) : Prop where
  column : c.xPos < 80
  line : top ≤ c.yPos
  last : c.yPos < 25
  dark : Dark c.cansid

/-- An access stays in the lines from `top` on. -/
def Access.Within (top : Nat) : Access → Prop
  | .process cell ch => (top * 80 ≤ cell ∧ cell < 2000) ∧ ch.style.getLsbD 7 = false
  | .write cell _ => top * 80 ≤ cell ∧ cell < 2000
  | .copy dst src => (top * 80 ≤ dst ∧ dst < 2000) ∧ top * 80 ≤ src ∧ src < 2000
  | .cursor x y => x < 80 ∧ top ≤ y ∧ y < 25
  | .outb _ _ => True

def Printable (ch : BitVec 8) : Prop := ch ≠ 0#8 ∧ ch ≠ lineFeed ∧ ch ≠ tab

/-- Right after a printable character has been returned it is written, to the cell at the cursor. -/
def Answered : List Access → Prop
  | [] => True
  | .process cell ch :: rest =>
    (Printable ch.ascii → rest.head? = some (.write cell (cellValue ch.ascii ch.style))) ∧ Answered rest
  | .write _ _ :: rest => Answered rest
  | .copy _ _ :: rest => Answered rest
  | .cursor _ _ :: rest => Answered rest
  | .outb _ _ :: rest => Answered rest

structure Acts (top : Nat) (c c' : Console) (events : List Access) : Prop where
  log : c'.log = c.log ++ events
  buf : c'.buf = replay c.buf events
  within : ∀ e ∈ events, e.Within top
  answered : Answered events

variable {top : Nat} {c c' c'' : Console} {events events' : List Access} {x : BitVec 8}

theorem Answered.append (first : Answered events) (second : Answered events') :
    Answered (events ++ events') := by
  induction events with
  | nil => exact second
  | cons e rest ih =>
    cases e with
    | process cell ch =>
      refine ⟨fun printable => ?_, ih first.2⟩
      change (rest ++ events').head? = _
      rw [List.head?_append, first.1 printable]
      rfl
    | write cell value | copy dst src | cursor x y | outb port value => exact ih first

theorem answered_of_no_process (none : ∀ cell ch, .process cell ch ∉ events) : Answered events := by
  induction events with
  | nil => trivial
  | cons e rest ih =>
    have later := ih fun cell ch inside => none cell ch (List.mem_cons_of_mem _ inside)
    cases e with
    | process cell ch => exact absurd List.mem_cons_self (none cell ch)
    | write cell value => exact later
    | copy dst src => exact later
    | cursor x y => exact later
    | outb port value => exact later

theorem Acts.trans (first : Acts top c c' events) (second : Acts top c' c'' events') :
    Acts top c c'' (events ++ events') where
  log := by rw [second.log, first.log, List.append_assoc]
  buf := by rw [second.buf, first.buf, replay, replay, replay, List.foldl_append]
  within e inside := (List.mem_append.mp inside).elim (first.within e) (second.within e)
  answered := first.answered.append second.answered

theorem Acts.none (log : c'.log = c.log) (buf : c'.buf = c.buf) : Acts top c c' [] where
  log := by rw [log, List.append_nil]
  buf := buf
  within e inside := absurd inside List.not_mem_nil
  answered := trivial

theorem Acts.perform (c : Console) (within : ∀ e ∈ events, e.Within top)
    (none : ∀ cell ch, .process cell ch ∉ events) : Acts top c (c.perform events) events :=
  ⟨rfl, rfl, within, answered_of_no_process none⟩

theorem Good.moveTo (good : Good top c) {x y : Nat} (column : x < 80) (line : top ≤ y)
    (last : y < 25) : Good top (c.moveTo x y) :=
  ⟨column, line, last, good.dark⟩

theorem Good.perform (good : Good top c) (accesses : List Access) : Good top (c.perform accesses) :=
  ⟨good.column, good.line, good.last, good.dark⟩

theorem Acts.moveTo (c : Console) (x y : Nat) : Acts top c (c.moveTo x y) [] := .none rfl rfl

theorem showCursor_acts (good : Good top c) :
    ∃ events, Acts top c c.showCursor events ∧ Good top c.showCursor := by
  refine ⟨_, .perform c ?_ ?_, good.column, good.line, good.last, good.dark⟩
  · simp [Access.Within, good.column, good.line, good.last]
  · simp

theorem scroll_within (high : top ≤ 1) : ∀ e ∈ scroll, e.Within top := by
  intro e inside
  simp only [scroll, copyLine, vgaWidth, vgaHeight, List.mem_append, List.mem_flatMap, List.mem_map,
    List.mem_range, List.mem_range'_1] at inside
  obtain ⟨i, rows, j, column, rfl⟩ | ⟨j, column, rfl⟩ := inside
  · simp only [Access.Within]
    omega
  · simp only [Access.Within]
    omega

theorem newline_acts (good : Good top c) (high : top ≤ 1) :
    ∃ events, Acts top c (vgaTmodeNewline c) events ∧ Good top (vgaTmodeNewline c) := by
  have line := good.line
  have last := good.last
  unfold vgaTmodeNewline
  split
  case isTrue bottom =>
    have scrolled : Acts top c (c.perform scroll) scroll :=
      .perform c (scroll_within high) (by simp [scroll, copyLine])
    obtain ⟨events, acts, done⟩ :=
      showCursor_acts ((good.perform scroll).moveTo (by decide : 0 < 80) line last)
    exact ⟨_, (scrolled.trans (.moveTo _ _ _)).trans acts, done⟩
  case isFalse more =>
    have above : c.yPos ≠ 24 := more
    have moved : Good top (c.moveTo 0 (c.yPos + 1)) := good.moveTo (by decide) (by omega) (by omega)
    obtain ⟨events, acts, done⟩ := showCursor_acts moved
    exact ⟨_, (Acts.moveTo _ _ _).trans acts, done⟩

theorem advance_acts (good : Good top c) (high : top ≤ 1) :
    ∃ events, Acts top c c.advance events ∧ Good top c.advance := by
  have column := good.column
  unfold Console.advance
  split
  case isTrue full => exact newline_acts good high
  case isFalse more =>
    have room : c.xPos ≠ 79 := more
    exact ⟨_, .moveTo _ _ _, good.moveTo (by omega) good.line good.last⟩

theorem Good.cell_within (good : Good top c) : top * 80 ≤ c.cell ∧ c.cell < 2000 := by
  obtain ⟨column, line, last, _⟩ := good
  unfold Console.cell
  omega

theorem printChar_acts (good : Good top c) (high : top ≤ 1) (ch style : BitVec 8) :
    ∃ events, Acts top c (printChar c ch style) (.write c.cell (cellValue ch style) :: events) ∧
      Good top (printChar c ch style) := by
  have written : Acts top c (vgaTmodeWriteChar c ch style c.xPos c.yPos)
      [.write c.cell (cellValue ch style)] := by
    refine .perform c ?_ (by simp)
    intro e inside
    rw [List.mem_singleton.mp inside]
    exact good.cell_within
  obtain ⟨events, acts, done⟩ := advance_acts (good.perform [.write c.cell (cellValue ch style)]) high
  exact ⟨_, written.trans acts, done⟩

/-! ## One character -/

theorem color_dark : ∀ color : BitVec 8, (cansidConvertColor color).getLsbD 7 = false ∧
    (cansidConvertColor color <<< 4).getLsbD 7 = false := by decide

theorem Dark.process {s : CansidState} (dark : Dark s) (x : BitVec 8) : Dark (cansidProcess s x).1 := by
  obtain ⟨style, nextStyle⟩ := dark
  have color := color_dark (x - ascii '0')
  have masks : BitVec.getLsbD 0x0F#8 7 = false ∧ BitVec.getLsbD (1#8 <<< 3) 7 = false := by decide
  unfold cansidProcess
  repeat' split
  all_goals
    refine ⟨?_, ?_⟩
    all_goals simp only [CansidState.silent, CansidState.value, CansidState.abort,
      BitVec.getLsbD_or, BitVec.getLsbD_and,
      style, nextStyle, color, masks, Bool.or_false, Bool.false_and]

def follow (ch : BitVec 8) (x y : Nat) : Nat × Nat :=
  if ch = 0#8 then (x, y)
  else if ch = lineFeed ∨ x = 79 then if y = 24 then (0, y) else (0, y + 1)
  else (x + 1, y)

def Console.place (c : Console) : (Nat × Nat) × CansidState := ((c.xPos, c.yPos), c.cansid)

def track (place : (Nat × Nat) × CansidState) (x : BitVec 8) : (Nat × Nat) × CansidState :=
  (follow (cansidProcess place.2 x).2.ascii place.1.1 place.1.2, (cansidProcess place.2 x).1)

@[simp] theorem moveTo_place (c : Console) (x y : Nat) : (c.moveTo x y).place = ((x, y), c.cansid) := rfl

@[simp] theorem showCursor_place (c : Console) : c.showCursor.place = c.place := rfl

@[simp] theorem perform_cansid (c : Console) (accesses : List Access) :
    (c.perform accesses).cansid = c.cansid := rfl

theorem newline_place (c : Console) :
    (vgaTmodeNewline c).place = (if c.yPos = 24 then (0, c.yPos) else (0, c.yPos + 1), c.cansid) := by
  have last : vgaHeight - 1 = 24 := rfl
  rw [vgaTmodeNewline, showCursor_place, last]
  split
  case isTrue => rw [moveTo_place, perform_cansid]
  case isFalse => rw [moveTo_place]

theorem printChar_place (c : Console) {ch : BitVec 8} (style : BitVec 8) (printable : Printable ch) :
    (printChar c ch style).place = (follow ch c.xPos c.yPos, c.cansid) := by
  obtain ⟨notNull, notLine, _⟩ := printable
  have full : (vgaTmodeWriteChar c ch style c.xPos c.yPos).xPos = vgaWidth - 1 ↔ c.xPos = 79 := Iff.rfl
  rw [printChar, Console.advance, follow, if_neg notNull]
  simp only [full, notLine, false_or]
  split
  case isTrue => rw [newline_place]; rfl
  case isFalse => rw [moveTo_place]; rfl

section

variable (good : Good top c)
include good

theorem rawPutchar_plain (high : top ≤ 1) {ch : BitVec 8} (style : BitVec 8) (plain : ch ≠ tab)
    (putchar : Console → BitVec 8 → Except Fault Console) :
    ∃ c' events, vgaTmodeRawPutchar putchar c ch style = .ok c' ∧ Acts top c c' events ∧
      Good top c' ∧ (Printable ch → events.head? = some (.write c.cell (cellValue ch style))) ∧
      c'.place = (follow ch c.xPos c.yPos, c.cansid) := by
  unfold vgaTmodeRawPutchar
  by_cases null : ch = 0#8
  · obtain ⟨events, acts, done⟩ := showCursor_acts good
    refine ⟨c.showCursor, events, by rw [if_pos null]; rfl, acts, done,
      fun printable => absurd null printable.1, ?_⟩
    rw [showCursor_place, follow, if_pos null]
    rfl
  · by_cases line : ch = lineFeed
    · obtain ⟨events, acts, good'⟩ := newline_acts good high
      obtain ⟨events', acts', done⟩ := showCursor_acts good'
      refine ⟨_, _, by rw [if_neg null, if_pos line]; rfl, acts.trans acts', done,
        fun printable => absurd line printable.2.1, ?_⟩
      have down : ch = lineFeed ∨ c.xPos = 79 := .inl line
      rw [showCursor_place, newline_place, follow, if_neg null, if_pos down]
    · obtain ⟨events, acts, good'⟩ := printChar_acts good high ch style
      obtain ⟨events', acts', done⟩ := showCursor_acts good'
      refine ⟨_, _, by rw [if_neg null, if_neg line, if_neg plain]; rfl, acts.trans acts', done,
        fun _ => rfl, ?_⟩
      rw [showCursor_place, printChar_place c style ⟨null, line, plain⟩]

theorem Acts.process (acts : Acts top (c.process x) c' events)
    (written : Printable (cansidProcess c.cansid x).2.ascii → events.head? =
      some (.write c.cell (cellValue (cansidProcess c.cansid x).2.ascii
        (cansidProcess c.cansid x).2.style))) :
    Acts top c c' (.process c.cell (cansidProcess c.cansid x).2 :: events) where
  log := by
    rw [acts.log]
    exact List.append_assoc _ [_] _
  buf := acts.buf
  within e inside := by
    obtain rfl | inside := List.mem_cons.mp inside
    · refine ⟨good.cell_within, ?_⟩
      rw [process_style]
      exact good.dark.style
    · exact acts.within e inside
  answered := ⟨written, acts.answered⟩

theorem Good.process (x : BitVec 8) : Good top (c.process x) :=
  ⟨good.column, good.line, good.last, good.dark.process x⟩

variable (high : top ≤ 1)
include high

theorem putchar_plain (plain : (cansidProcess c.cansid x).2.ascii ≠ tab) (depth : Nat) :
    ∃ c' events, putcharNested (depth + 1) c x = .ok c' ∧ Acts top c c' events ∧ Good top c' ∧
      c'.place = track c.place x := by
  obtain ⟨c', events, run, acts, done, written, place⟩ :=
    rawPutchar_plain (good.process x) high (cansidProcess c.cansid x).2.style plain (putcharNested depth)
  exact ⟨c', _, run, acts.process good written, done, place⟩

theorem putchar_blank (outside : c.cansid.state = .esc) (depth : Nat) :
    ∃ c' events, putcharNested (depth + 1) c (ascii ' ') = .ok c' ∧ Acts top c c' events ∧
      Good top c' ∧ c'.cansid.state = .esc := by
  have text := process_text (ascii ' ') outside (by decide)
  have other : ascii ' ' ≠ tab := by decide
  have plain : (cansidProcess c.cansid (ascii ' ')).2.ascii ≠ tab := by
    rwa [text]
  obtain ⟨c', events, run, acts, done, place⟩ := putchar_plain good high plain depth
  have same : c'.cansid = (cansidProcess c.cansid (ascii ' ')).1 := congrArg Prod.snd place
  rw [text] at same
  exact ⟨c', events, run, acts, done, same ▸ outside⟩

theorem putchar_tab (isTab : (cansidProcess c.cansid x).2.ascii = tab) :
    ∃ c' events, vgaTmodePutchar c x = .ok c' ∧ Acts top c c' events ∧ Good top c' := by
  have outside : (c.process x).cansid.state = .esc := by
    obtain silent | ⟨_, state⟩ := process_prints c.cansid x
    · rw [silent] at isTab
      exact absurd isTab (by decide)
    · exact state
  obtain ⟨c1, events1, run1, acts1, good1, outside1⟩ := putchar_blank (good.process x) high outside 0
  obtain ⟨c2, events2, run2, acts2, good2, outside2⟩ := putchar_blank good1 high outside1 0
  obtain ⟨c3, events3, run3, acts3, good3, outside3⟩ := putchar_blank good2 high outside2 0
  obtain ⟨c4, events4, run4, acts4, good4, _⟩ := putchar_blank good3 high outside3 0
  obtain ⟨events5, acts5, done⟩ := showCursor_acts good4
  have tabs : tab ≠ 0#8 ∧ tab ≠ lineFeed := by decide
  have all := (((acts1.trans acts2).trans acts3).trans acts4).trans acts5
  refine ⟨c4.showCursor, _, ?_, all.process good fun printable => absurd isTab printable.2.2, done⟩
  rw [vgaTmodePutchar, putcharNested, isTab, vgaTmodeRawPutchar, if_neg tabs.1, if_neg tabs.2, if_pos rfl]
  simp only [run1, run2, run3, run4, ok_bind]
  rfl

theorem putchar_acts (x : BitVec 8) : ∃ c' events, vgaTmodePutchar c x = .ok c' ∧
    Acts top c c' events ∧ Good top c' := by
  by_cases isTab : (cansidProcess c.cansid x).2.ascii = tab
  · exact putchar_tab good high isTab
  · obtain ⟨c', events, run, acts, done, _⟩ := putchar_plain good high isTab 1
    exact ⟨c', events, run, acts, done⟩

/-! ## Whole streams -/

theorem puts_acts (bytes : List (BitVec 8)) :
    ∃ c' events, vgaTmodePuts c bytes = .ok c' ∧ Acts top c c' events ∧ Good top c' := by
  induction bytes generalizing c with
  | nil => exact ⟨c, [], rfl, .none rfl rfl, good⟩
  | cons x rest ih =>
    obtain ⟨c1, events1, run1, acts1, good1⟩ := putchar_acts good high x
    obtain ⟨c2, events2, run2, acts2, good2⟩ := ih good1
    refine ⟨c2, _, ?_, acts1.trans acts2, good2⟩
    rwa [vgaTmodePuts, List.foldlM_cons, run1, ok_bind]

theorem puts_place {bytes : List (BitVec 8)} (plain : tab ∉ bytes)
    (run : vgaTmodePuts c bytes = .ok c') : c'.place = bytes.foldl track c.place := by
  induction bytes generalizing c with
  | nil => rw [← Except.ok.inj run]; rfl
  | cons x rest ih =>
    have notTab : (cansidProcess c.cansid x).2.ascii ≠ tab := by
      obtain silent | ⟨itself, _⟩ := process_prints c.cansid x
      · rw [silent]
        decide
      · rw [itself]
        rintro rfl
        exact plain List.mem_cons_self
    obtain ⟨c1, events1, run1, acts1, good1, place⟩ := putchar_plain good high notTab 1
    rw [vgaTmodePuts, List.foldlM_cons, vgaTmodePutchar, run1, ok_bind] at run
    rw [List.foldl_cons, ← place]
    exact ih good1 (fun inside => plain (List.mem_cons_of_mem x inside)) run

end

theorem banner_place : (bannerEnd.foldl track (bannerStart.foldl track ((0, 0), cansidInit))).1 =
    (0, 1) ∧ tab ∉ bannerStart ∧ tab ∉ bannerEnd := by
  decide +kernel

theorem init_acts (screen : Screen) :
    ∃ c events, vgaTmodeInit (bootConsole screen) = .ok c ∧ Acts 0 (bootConsole screen) c events ∧
      Good 1 c := by
  obtain ⟨place, plain1, plain2⟩ := banner_place
  have dark : Dark cansidInit := ⟨by decide, by decide⟩
  have good : Good 0 { bootConsole screen with cansid := cansidInit } :=
    ⟨(by decide : 0 < 80), le_rfl, (by decide : 0 < 25), dark⟩
  obtain ⟨c1, events1, run1, acts1, good1⟩ := puts_acts good (Nat.zero_le 1) bannerStart
  obtain ⟨c2, events2, run2, acts2, good2⟩ := puts_acts good1 (Nat.zero_le 1) bannerEnd
  have place1 := puts_place good (Nat.zero_le 1) plain1 run1
  have place2 := puts_place good1 (Nat.zero_le 1) plain2 run2
  rw [place1] at place2
  have line : c2.yPos = 1 := congrArg Prod.snd ((congrArg Prod.fst place2).trans place)
  refine ⟨c2, events1 ++ events2, ?_, ?_, good2.column, line.ge, good2.last, good2.dark⟩
  · rw [vgaTmodeInit, run1, ok_bind, run2]
  · have whole := acts1.trans acts2
    exact ⟨whole.log, whole.buf, whole.within, whole.answered⟩

theorem replay_first_line (screen : Screen) (within : ∀ e ∈ events, e.Within 1) {cell : Nat}
    (first : cell < 80) : replay screen events cell = screen cell := by
  induction events generalizing screen with
  | nil => rfl
  | cons e rest ih =>
    have here : e.apply screen cell = screen cell := by
      have inside := within e List.mem_cons_self
      cases e with
      | process => rfl
      | write other value | copy dst src =>
        exact Function.update_of_ne (by unfold Access.Within at inside; omega) _ _
      | cursor => rfl
      | outb => rfl
    have later := ih (e.apply screen) fun e' inside => within e' (List.mem_cons_of_mem e inside)
    exact later.trans here

/-- After any stream the cursor is below the banner and on the screen, and so was every cell
that has been written or copied; the banner is as it was. -/
theorem console_keeps_banner (screen : Screen) (stream : List (BitVec 8)) :
    ∃ c0 c events, vgaTmodeInit (bootConsole screen) = .ok c0 ∧ vgaTmodePuts c0 stream = .ok c ∧
      (c.xPos < 80 ∧ 1 ≤ c.yPos ∧ c.yPos < 25) ∧ c.log = c0.log ++ events ∧ (∀ e ∈ events, e.Within 1) ∧
      ∀ cell < 80, c.buf cell = c0.buf cell := by
  obtain ⟨c0, _, run0, _, good0⟩ := init_acts screen
  obtain ⟨c, events, run, acts, good⟩ := puts_acts good0 le_rfl stream
  refine ⟨c0, c, events, run0, run, ⟨good.column, good.line, good.last⟩, acts.log, acts.within,
    fun cell first => ?_⟩
  rw [acts.buf, replay_first_line c0.buf acts.within first]

def styledCell (ch : ColorChar) : BitVec 16 := ch.style.setWidth 16 <<< 8 ||| ch.ascii.setWidth 16

/-- The sign of the character spreads over the style, which has no bit 7 itself. -/
theorem cellValue_eq_iff {ch : ColorChar} (dark : ch.style.getLsbD 7 = false) :
    cellValue ch.ascii ch.style = styledCell ch ↔ ch.ascii.toNat < 0x80 := by
  have small : ch.ascii.toNat < 0x80 ↔ ch.ascii.msb = false := by
    rw [BitVec.msb_eq_false_iff_two_mul_lt]
    omega
  rw [small]
  constructor
  · intro same
    have bit := congrArg (BitVec.getLsbD · 15) same
    simp only [cellValue, styledCell, BitVec.getLsbD_setWidth, BitVec.getLsbD_or,
      BitVec.getLsbD_shiftLeft, BitVec.getLsbD_signExtend, dark] at bit
    simpa using bit
  · intro positive
    rw [cellValue, styledCell, BitVec.signExtend_eq_setWidth_of_msb_false positive]
    ext i bound
    simp

theorem Answered.later {before : List Access} (answered : Answered (before ++ events)) :
    Answered events := by
  induction before with
  | nil => exact answered
  | cons e rest ih =>
    cases e with
    | process cell ch => exact ih answered.2
    | write cell value | copy dst src | cursor x y | outb port value => exact ih answered

/-- Each character that `cansid_process` returns for printing is written to the cell at the cursor,
and the cell gets the byte and the style exactly if the byte is below 0x80. -/
theorem cells_carry_style (screen : Screen) (stream : List (BitVec 8)) :
    ∃ c0 c, vgaTmodeInit (bootConsole screen) = .ok c0 ∧ vgaTmodePuts c0 stream = .ok c ∧
      c.buf = replay screen c.log ∧
      ∀ before cell ch after, c.log = before ++ .process cell ch :: after → Printable ch.ascii →
        ∃ value rest, after = .write cell value :: rest ∧
        (value = styledCell ch ↔ ch.ascii.toNat < 0x80) := by
  obtain ⟨c0, events0, run0, acts0, good0⟩ := init_acts screen
  obtain ⟨c, events, run, acts, good⟩ := puts_acts good0 le_rfl stream
  have log : c.log = events0 ++ events := by
    rw [acts.log, acts0.log]
    rfl
  refine ⟨c0, c, run0, run, ?_, fun before cell ch after split printable => ?_⟩
  · rw [log, acts.buf, acts0.buf, replay, replay, replay, List.foldl_append]
    rfl
  · have inside : .process cell ch ∈ events0 ++ events := by
      rw [← log, split]
      exact List.mem_append_right _ List.mem_cons_self
    have dark : ch.style.getLsbD 7 = false := by
      obtain inside | inside := List.mem_append.mp inside
      · exact (acts0.within _ inside).2
      · exact (acts.within _ inside).2
    have answered : Answered (.process cell ch :: after) := by
      apply Answered.later
      rw [← split, log]
      exact acts0.answered.append acts.answered
    obtain ⟨rest, written⟩ := List.head?_eq_some_iff.mp (answered.1 printable)
    exact ⟨_, rest, written, cellValue_eq_iff dark⟩

/-- The byte 0x80 in the style 0x0F, right after the banner. -/
theorem high_byte_smeared :
    ((vgaTmodeInit (bootConsole fun _ => 0#16) >>= fun c => vgaTmodePuts c [0x80#8]).toOption.map
      fun c => c.buf 80) =
      some 0xFF80#16 ∧
    styledCell ⟨0x0F#8, 0x80#8⟩ = 0x0F80#16 := by
  decide +kernel

end ByteOS.Drivers
