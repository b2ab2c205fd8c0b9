import AliluOS.Kernel.Ports
import AliluOS.Lib.BitFields
import AliluOS.Vga.Terminal

/-! The whole driver: with the cursor that the CRT controller draws at what it was last
told over the ports 0x3D4 and 0x3D5. -/

namespace AliluOS
open Kernel Lib Text Ports BitField

structure Crt where
  index : UInt8
  register : UInt8 → UInt8

namespace Crt

def indexPort : UInt16 := 0x3D4

def dataPort : UInt16 := 0x3D5

def out (c : Crt) (o : Out) : Crt :=
  if o.port = indexPort then { c with index := o.value }
  else if o.port = dataPort then
    { c with register := Function.update c.register c.index o.value }
  else c

def cursor (c : Crt) : Nat := (c.register 0x0F).toNat + 2 ^ 8 * (c.register 0x0E).toNat

/-- Bit 5 of register 0x0A turns the cursor off. -/
def cursorOff (c : Crt) : Bool := (c.register 0x0A).toNat.testBit 5

end Crt

namespace VGA

def clearLine (v : VGA) : VGA := { v.blankRow v.row with column := 0 }

def setCursorPosition (v : VGA) (row col : Nat) : VGA :=
  { v with row := min row (bufferHeight - 1), column := min col (bufferWidth - 1) }

def getCursorPosition (v : VGA) : Nat × Nat := (v.row, v.column)

def cursorOuts (v : VGA) : List Out :=
  let pos := UInt16.ofNat (v.row * bufferWidth + v.column)
  [⟨Crt.indexPort, 0x0F⟩, ⟨Crt.dataPort, (pos &&& 0xFF).toUInt8⟩, ⟨Crt.indexPort, 0x0E⟩,
    ⟨Crt.dataPort, ((pos >>> 8) &&& 0xFF).toUInt8⟩, ⟨Crt.indexPort, 0x0A⟩, ⟨Crt.dataPort, 0⟩]

/-! ## Frames -/

def Untouched (v w : VGA) : Prop := ∀ n, bufferHeight * bufferWidth ≤ n → w.cells n = v.cells n

variable {v w u : VGA}

theorem Untouched.trans (h : Untouched v w) (h' : Untouched w u) : Untouched v u :=
  fun n hn => (h' n hn).trans (h n hn)

theorem untouched_of_store {writes : List (Nat × Cell)} (h : w.cells = store v.cells writes)
    (hinside : Inside writes) : Untouched v w := by
  intro n hn
  rw [h]
  exact store_of_ne fun x hx => ((hinside x hx).trans_le hn).ne

theorem untouched_writeCell {row col : Nat} (hrow : row < bufferHeight) (hcol : col < bufferWidth)
    (byte color : UInt8) : Untouched v (v.writeCell row col byte color) := by
  refine untouched_of_store (by rw [writeCell_eq, cells_stored]) fun x hx => ?_
  obtain rfl := List.mem_singleton.mp hx
  unfold bufferHeight bufferWidth at *
  dsimp only
  omega

theorem untouched_backspace (hv : v.Valid) : Untouched v v.backspace := by
  have hrow := hv.row
  have hcolumn := hv.column
  unfold backspace
  split_ifs with hcol hpos
  · exact untouched_writeCell (v := { v with column := v.column - 1 }) hrow
      (show v.column - 1 < bufferWidth by omega) _ _
  · exact untouched_writeCell (v := { v with row := v.row - 1, column := bufferWidth - 1 })
      (show v.row - 1 < bufferHeight by omega) (Nat.lt_succ_self _) _ _
  · exact fun _ _ => rfl

theorem valid_call (hv : v.Valid) (c : VgaCall) : (v.call c).Valid ∧ Untouched v (v.call c) := by
  cases c with
  | clear =>
    refine ⟨?_, untouched_of_store v.cells_clear_eq v.inside_clear⟩
    show v.clear.Valid
    rw [clear_eq]
    exact ⟨Nat.zero_lt_succ 24, Nat.zero_le _⟩
  | setColor fg bg => exact ⟨⟨hv.row, hv.column⟩, fun _ _ => rfl⟩
  | write text =>
    exact ⟨valid_write hv text, untouched_of_store (v.cells_write text) (v.inside_write text)⟩
  | println text =>
    refine ⟨(v.write text).valid_newline.1, ?_⟩
    exact (untouched_of_store (v.cells_write text) (v.inside_write text)).trans
      (untouched_of_store (v.write text).cells_newline (v.write text).inside_newline)
  | putChar c =>
    exact ⟨valid_putChar hv c, untouched_of_store (v.cells_putChar c) (v.inside_putChar c)⟩
  | putCharAt row col c =>
    refine ⟨⟨by simpa [call] using hv.row, by simpa [call] using hv.column⟩, ?_⟩
    exact untouched_of_store (v.cells_putCharAt row col c) (v.inside_putCharAt row col c)
  | backspace => exact ⟨(valid_backspace hv).1, untouched_backspace hv⟩

theorem valid_clearLine (hv : v.Valid) : v.clearLine.Valid ∧ Untouched v v.clearLine := by
  have hcells : v.clearLine.cells = store v.cells (v.blankRowWrites v.row) := by
    rw [clearLine, blankRow_eq]
    exact v.cells_stored _
  refine ⟨?_, untouched_of_store hcells (v.inside_blankRow hv.row)⟩
  rw [clearLine, blankRow_eq]
  exact ⟨hv.row, Nat.zero_le _⟩

theorem valid_setCursorPosition (v : VGA) (row col : Nat) : (v.setCursorPosition row col).Valid :=
  ⟨(Nat.min_le_right ..).trans_lt (by decide), (Nat.min_le_right ..).trans (by decide)⟩

end VGA

structure Display where
  vga : VGA
  cursorVisible : Bool
  crt : Crt

inductive DisplayCall
  | init
  | vga (c : VgaCall)
  | clearLine
  | setCursorPosition (row col : Nat)
  | showCursor
  | hideCursor

namespace Display

def new (cells : Nat → Cell) (crt : Crt) : Display := ⟨.new cells, true, crt⟩

def updateCursor (d : Display) : Display :=
  if d.cursorVisible then { d with crt := feed Crt.out d.crt d.vga.cursorOuts } else d

def newline (d : Display) : Display := { d with vga := d.vga.newline }.updateCursor

def putChar (d : Display) (c : Char) : Display :=
  if c = '\n' then d.newline
  else
    let d := if d.vga.column ≥ VGA.bufferWidth then d.newline else d
    let d := { d with vga := d.vga.putCharAt d.vga.row d.vga.column c }
    { d with vga := { d.vga with column := d.vga.column + 1 } }.updateCursor

def write (d : Display) (text : Str) : Display := text.foldl putChar d

def println (d : Display) (text : Str) : Display := (d.write text).newline

def clear (d : Display) : Display := { d with vga := d.vga.clear }.updateCursor

def init (d : Display) : Display := d.clear.updateCursor

def hideCursor (d : Display) : Display :=
  { d with
    cursorVisible := false
    crt := feed Crt.out d.crt [⟨Crt.indexPort, 0x0A⟩, ⟨Crt.dataPort, 0x20⟩] }

def showCursor (d : Display) : Display := { d with cursorVisible := true }.updateCursor

def callVga (d : Display) : VgaCall → Display
  | .clear => d.clear
  | .setColor fg bg => { d with vga := d.vga.setColor fg bg }
  | .write text => d.write text
  | .println text => d.println text
  | .putChar c => d.putChar c
  | .putCharAt row col c => { d with vga := d.vga.putCharAt row col c }
  | .backspace => { d with vga := d.vga.backspace }.updateCursor

def call (d : Display) : DisplayCall → Display
  | .init => d.init
  | .vga c => d.callVga c
  | .clearLine => { d with vga := d.vga.clearLine }.updateCursor
  | .setCursorPosition row col => { d with vga := d.vga.setCursorPosition row col }.updateCursor
  | .showCursor => d.showCursor
  | .hideCursor => d.hideCursor

def perform (d : Display) (calls : List DisplayCall) : Display := calls.foldl call d

/-! ## The controller follows the driver -/

variable {d : Display} {c : Char} {text : Str}

@[simp] theorem updateCursor_vga (d : Display) : d.updateCursor.vga = d.vga := by
  unfold updateCursor
  split_ifs <;> rfl

@[simp] theorem updateCursor_cursorVisible (d : Display) :
    d.updateCursor.cursorVisible = d.cursorVisible := by
  unfold updateCursor
  split_ifs <;> rfl

/-- A visible cursor is drawn where the next character goes; a hidden one is not drawn. -/
structure Synced (d : Display) : Prop where
  visible : d.cursorVisible = true → d.crt.cursor = d.vga.position ∧ d.crt.cursorOff = false
  hidden : d.cursorVisible = false → d.crt.cursorOff = true

def HiddenOff (d : Display) : Prop := d.cursorVisible = false → d.crt.cursorOff = true

theorem position_lt {v : VGA} (hv : v.Valid) : v.position < 2 ^ 16 := by
  have hrow := hv.row
  have hcolumn := hv.column
  unfold VGA.position VGA.bufferHeight VGA.bufferWidth at *
  omega

theorem feed_cursorOuts (crt : Crt) {v : VGA} (hv : v.Valid) :
    (feed Crt.out crt v.cursorOuts).cursor = v.position ∧
      (feed Crt.out crt v.cursorOuts).cursorOff = false := by
  set pos := UInt16.ofNat v.position with hpos
  have hlow : (pos &&& 0xFF).toUInt8.toNat = slice 0 8 pos.toNat := by
    have hmask := shiftRight_and_mod pos.toNat 0 8
    rwa [Nat.shiftRight_zero] at hmask
  have hhigh : ((pos >>> 8) &&& 0xFF).toUInt8.toNat = slice 8 8 pos.toNat :=
    shiftRight_and_mod pos.toNat 8 8
  have htoNat : pos.toNat = v.position := UInt16.toNat_ofNat_of_lt' (position_lt hv)
  have hoff : (feed Crt.out crt v.cursorOuts).register 0x0A = 0 := rfl
  refine ⟨?_, by rw [Crt.cursorOff, hoff]; rfl⟩
  show (pos &&& 0xFF).toUInt8.toNat + 2 ^ 8 * ((pos >>> 8) &&& 0xFF).toUInt8.toNat = v.position
  rw [hlow, hhigh, slice_add_slice 0 8 8, slice, pow_zero, Nat.div_one, htoNat]
  exact Nat.mod_eq_of_lt (position_lt hv)

theorem synced_updateCursor (hv : d.vga.Valid) (hoff : d.HiddenOff) : d.updateCursor.Synced := by
  unfold updateCursor
  split_ifs with hvisible
  · exact ⟨fun _ => feed_cursorOuts d.crt hv, fun h => absurd (hvisible.symm.trans h) (by decide)⟩
  · exact ⟨fun h => absurd h hvisible, hoff⟩

/-! ## Each call -/

theorem newline_vga (d : Display) : d.newline.vga = d.vga.newline := updateCursor_vga _

theorem putChar_vga (d : Display) (c : Char) : (d.putChar c).vga = d.vga.putChar c := by
  unfold putChar VGA.putChar
  split_ifs
  · exact d.newline_vga
  · rw [updateCursor_vga, newline_vga]
  · exact updateCursor_vga _

theorem write_vga (d : Display) (text : Str) : (d.write text).vga = d.vga.write text := by
  induction text generalizing d with
  | nil => rfl
  | cons c text ih =>
    have hrest := ih (d.putChar c)
    rw [putChar_vga] at hrest
    exact hrest

theorem callVga_vga (d : Display) (c : VgaCall) : (d.callVga c).vga = d.vga.call c := by
  cases c with
  | clear | backspace => exact updateCursor_vga _
  | setColor | putCharAt => rfl
  | write text => exact d.write_vga text
  | println text =>
    show (d.write text).newline.vga = (d.vga.write text).newline
    rw [newline_vga, write_vga]
  | putChar c => exact d.putChar_vga c

theorem putChar_cursorVisible (d : Display) (c : Char) :
    (d.putChar c).cursorVisible = d.cursorVisible := by
  unfold putChar newline
  split_ifs
  · exact updateCursor_cursorVisible _
  · rw [updateCursor_cursorVisible, updateCursor_cursorVisible]
  · exact updateCursor_cursorVisible _

theorem callVga_cursorVisible (d : Display) (c : VgaCall) :
    (d.callVga c).cursorVisible = d.cursorVisible := by
  have hwrite : ∀ (text : Str) (d : Display), (d.write text).cursorVisible = d.cursorVisible := by
    intro text
    induction text with
    | nil => exact fun _ => rfl
    | cons c text ih => exact fun d => (ih (d.putChar c)).trans (d.putChar_cursorVisible c)
  cases c with
  | clear | backspace => exact updateCursor_cursorVisible _
  | setColor | putCharAt => rfl
  | write text => exact hwrite text d
  | println text => exact (updateCursor_cursorVisible _).trans (hwrite text d)
  | putChar c => exact d.putChar_cursorVisible c

theorem synced_newline (h : d.Synced) : d.newline.Synced :=
  synced_updateCursor d.vga.valid_newline.1 h.hidden

theorem putChar_eq (d : Display) (hc : c ≠ '\n') :
    d.putChar c =
      { (if d.vga.column ≥ VGA.bufferWidth then d.newline else d) with
        vga := d.vga.putChar c }.updateCursor := by
  unfold putChar VGA.putChar
  rw [if_neg hc, if_neg hc]
  split_ifs
  · dsimp only
    rw [newline_vga]
  · rfl

theorem synced_putChar (hv : d.vga.Valid) (h : d.Synced) (c : Char) : (d.putChar c).Synced := by
  by_cases hc : c = '\n'
  · rw [putChar, if_pos hc]
    exact synced_newline h
  · rw [putChar_eq d hc]
    refine synced_updateCursor (VGA.valid_putChar hv c) ?_
    split_ifs
    · exact (synced_newline h).hidden
    · exact h.hidden

theorem synced_write (hv : d.vga.Valid) (h : d.Synced) (text : Str) : (d.write text).Synced := by
  induction text generalizing d with
  | nil => exact h
  | cons c text ih =>
    refine ih ?_ (synced_putChar hv h c)
    rw [putChar_vga]
    exact VGA.valid_putChar hv c

theorem synced_hideCursor (d : Display) : d.hideCursor.Synced := by
  have hregister : d.hideCursor.crt.register 0x0A = 0x20 := rfl
  have hoff : d.hideCursor.crt.cursorOff = true := by
    rw [Crt.cursorOff, hregister]
    decide
  exact ⟨fun hvisible => absurd hvisible Bool.false_ne_true, fun _ => hoff⟩

theorem synced_callVga (hv : d.vga.Valid) (h : d.Synced) (c : VgaCall) : (d.callVga c).Synced := by
  have hcall := (VGA.valid_call hv c).1
  cases c with
  | clear | backspace => exact synced_updateCursor hcall h.hidden
  | setColor fg bg => exact ⟨h.visible, h.hidden⟩
  | write text => exact synced_write hv h text
  | println text => exact synced_newline (synced_write hv h text)
  | putChar c => exact synced_putChar hv h c
  | putCharAt row col c =>
    have hposition : (d.vga.putCharAt row col c).position = d.vga.position := by
      simp [VGA.position]
    refine ⟨fun hvisible => ?_, h.hidden⟩
    rw [callVga, hposition]
    exact h.visible hvisible

structure Good (d : Display) : Prop where
  valid : d.vga.Valid
  synced : d.Synced

theorem good_updateCursor (hv : d.vga.Valid) (hoff : d.HiddenOff) : d.updateCursor.Good :=
  ⟨by rwa [updateCursor_vga], synced_updateCursor hv hoff⟩

theorem good_clear (hoff : d.HiddenOff) :
    d.clear.Good ∧ VGA.Untouched d.vga d.clear.vga := by
  have hvga : d.clear.vga = d.vga.clear := updateCursor_vga _
  have hclear : d.vga.clear.Valid := by
    rw [VGA.clear_eq]
    exact ⟨Nat.zero_lt_succ 24, Nat.zero_le _⟩
  refine ⟨good_updateCursor hclear hoff, ?_⟩
  rw [hvga]
  exact VGA.untouched_of_store d.vga.cells_clear_eq d.vga.inside_clear

theorem good_init (hoff : d.HiddenOff) : d.init.Good ∧ VGA.Untouched d.vga d.init.vga := by
  obtain ⟨hgood, huntouched⟩ := good_clear hoff
  refine ⟨good_updateCursor hgood.valid hgood.synced.hidden, ?_⟩
  rwa [init, updateCursor_vga]

theorem good_call (h : d.Good) (c : DisplayCall) :
    (d.call c).Good ∧ VGA.Untouched d.vga (d.call c).vga := by
  cases c with
  | init => exact good_init h.synced.hidden
  | vga c =>
    have hvga := d.callVga_vga c
    obtain ⟨hvalid, huntouched⟩ := VGA.valid_call h.valid c
    rw [← hvga] at hvalid huntouched
    exact ⟨⟨hvalid, synced_callVga h.valid h.synced c⟩, huntouched⟩
  | clearLine =>
    obtain ⟨hvalid, huntouched⟩ := VGA.valid_clearLine h.valid
    refine ⟨good_updateCursor hvalid h.synced.hidden, ?_⟩
    rwa [call, updateCursor_vga]
  | setCursorPosition row col =>
    refine ⟨good_updateCursor (d.vga.valid_setCursorPosition row col) h.synced.hidden, ?_⟩
    rw [call, updateCursor_vga]
    exact fun _ _ => rfl
  | showCursor =>
    let shown := { d with cursorVisible := true }
    have hgood : shown.updateCursor.Good :=
      good_updateCursor h.valid fun hhidden => absurd hhidden (by simp)
    refine ⟨hgood, ?_⟩
    rw [call, showCursor, updateCursor_vga]
    exact fun _ _ => rfl
  | hideCursor => exact ⟨⟨h.valid, synced_hideCursor d⟩, fun _ _ => rfl⟩

theorem good_perform (h : d.Good) (calls : List DisplayCall) :
    (d.perform calls).Good ∧ VGA.Untouched d.vga (d.perform calls).vga := by
  induction calls generalizing d with
  | nil => exact ⟨h, fun _ _ => rfl⟩
  | cons c calls ih =>
    obtain ⟨hgood, huntouched⟩ := good_call h c
    obtain ⟨hrest, hrest'⟩ := ih hgood
    exact ⟨hrest, huntouched.trans hrest'⟩

theorem perform_vga (d : Display) (calls : List VgaCall) :
    (d.perform (calls.map .vga)).vga = d.vga.perform calls := by
  induction calls generalizing d with
  | nil => rfl
  | cons c calls ih =>
    have hrest := ih (d.callVga c)
    rw [callVga_vga] at hrest
    exact hrest

theorem perform_cursorVisible (d : Display) (calls : List VgaCall) :
    (d.perform (calls.map .vga)).cursorVisible = d.cursorVisible := by
  induction calls generalizing d with
  | nil => rfl
  | cons c calls ih => exact (ih (d.callVga c)).trans (d.callVga_cursorVisible c)

/-- From `init` on, over memory and a controller in any state, and whatever calls follow:
the driver's cursor is on the screen or just behind a row; nothing outside the 25 rows of
80 cells is ever written; the controller draws a visible cursor at the driver's, and a
hidden one not at all. The calls that print do to the screen what they do without a
cursor. -/
theorem display_run (cells : Nat → Cell) (crt : Crt) (calls : List DisplayCall) :
    let d := (new cells crt).init.perform calls
    d.vga.row < 25 ∧ d.vga.column ≤ 80 ∧ (∀ n, 25 * 80 ≤ n → d.vga.cells n = cells n) ∧
      (d.cursorVisible = true →
        d.crt.cursor = d.vga.row * 80 + d.vga.column ∧ d.crt.cursorOff = false) ∧
      (d.cursorVisible = false → d.crt.cursorOff = true) ∧
      ∀ more : List VgaCall, (d.perform (more.map .vga)).vga = d.vga.perform more := by
  intro d
  obtain ⟨hinit, huntouched⟩ := good_init (d := new cells crt) fun h => absurd h (by simp [new])
  obtain ⟨hgood, huntouched'⟩ := good_perform hinit calls
  exact ⟨hgood.valid.row, hgood.valid.column, huntouched.trans huntouched',
    hgood.synced.visible, hgood.synced.hidden, d.perform_vga⟩

end Display

end AliluOS
