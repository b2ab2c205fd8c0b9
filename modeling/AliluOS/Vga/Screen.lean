import AliluOS.Kernel.World
import Mathlib.Logic.Function.Basic

/-! The text-mode driver (`vga.rs`). Video memory holds the rows one after the other, so
a position on the screen is one number. -/

namespace AliluOS.Kernel

def Color.code : Color → UInt8
  | .black => 0 | .blue => 1 | .green => 2 | .cyan => 3
  | .red => 4 | .magenta => 5 | .brown => 6 | .lightGray => 7
  | .darkGray => 8 | .lightBlue => 9 | .lightGreen => 10 | .lightCyan => 11
  | .lightRed => 12 | .pink => 13 | .yellow => 14 | .white => 15

end AliluOS.Kernel

namespace AliluOS
open Text Kernel

structure Cell where
  byte : UInt8
  color : UInt8
deriving DecidableEq

structure VGA where
  row : Nat
  column : Nat
  foreground : Color
  background : Color
  cells : Nat → Cell

namespace VGA

def new (cells : Nat → Cell) : VGA := ⟨0, 0, .white, .black, cells⟩

def bufferWidth : Nat := 80

def bufferHeight : Nat := 25

def colorCode (v : VGA) : UInt8 := (v.background.code <<< 4) ||| v.foreground.code

def blank : UInt8 := 32

def writeCell (v : VGA) (row col : Nat) (byte color : UInt8) : VGA :=
  { v with cells := Function.update v.cells (row * bufferWidth + col) ⟨byte, color⟩ }

def blankRow (v : VGA) (row : Nat) : VGA :=
  (List.range bufferWidth).foldl (fun v col => v.writeCell row col blank v.colorCode) v

def clear (v : VGA) : VGA :=
  { (List.range bufferHeight).foldl blankRow v with row := 0, column := 0 }

def copyUp (v : VGA) (row : Nat) : VGA :=
  (List.range bufferWidth).foldl (fun v col =>
    let value := v.cells (row * bufferWidth + col)
    { v with cells := Function.update v.cells ((row - 1) * bufferWidth + col) value }) v

def scroll (v : VGA) : VGA :=
  let v := (List.range' 1 (bufferHeight - 1)).foldl copyUp v
  { v.blankRow (bufferHeight - 1) with row := bufferHeight - 1, column := 0 }

def newline (v : VGA) : VGA :=
  let v := { v with column := 0 }
  if v.row < bufferHeight - 1 then { v with row := v.row + 1 } else v.scroll

/-- `c as u8` keeps the low byte. -/
def putCharAt (v : VGA) (row col : Nat) (c : Char) : VGA :=
  if row ≥ bufferHeight ∨ col ≥ bufferWidth then v
  else v.writeCell row col (UInt8.ofNat c.toNat) v.colorCode

def putChar (v : VGA) (c : Char) : VGA :=
  if c = '\n' then v.newline
  else
    let v := if v.column ≥ bufferWidth then v.newline else v
    let v := v.putCharAt v.row v.column c
    { v with column := v.column + 1 }

def write (v : VGA) (text : Str) : VGA := text.foldl putChar v

def println (v : VGA) (text : Str) : VGA := (v.write text).newline

def backspace (v : VGA) : VGA :=
  if v.column > 0 then
    let v := { v with column := v.column - 1 }
    v.writeCell v.row v.column blank v.colorCode
  else if v.row > 0 then
    let v := { v with row := v.row - 1, column := bufferWidth - 1 }
    v.writeCell v.row v.column blank v.colorCode
  else v

def setColor (v : VGA) (fg bg : Color) : VGA := { v with foreground := fg, background := bg }

def call (v : VGA) : VgaCall → VGA
  | .clear => v.clear
  | .setColor fg bg => v.setColor fg bg
  | .write text => v.write text
  | .println text => v.println text
  | .putChar c => v.putChar c
  | .putCharAt row col c => v.putCharAt row col c
  | .backspace => v.backspace

def perform (v : VGA) (calls : List VgaCall) : VGA := calls.foldl call v

/-- Where `update_cursor` puts the cursor. Column 80 of a row is column 0 of the next. -/
def position (v : VGA) : Nat := v.row * bufferWidth + v.column

structure Valid (v : VGA) : Prop where
  row : v.row < bufferHeight
  column : v.column ≤ bufferWidth

def HasRoom (v : VGA) (c : Char) : Prop :=
  (c = '\n' ∨ bufferWidth ≤ v.column) → v.row < bufferHeight - 1

instance (v : VGA) (c : Char) : Decidable (v.HasRoom c) :=
  inferInstanceAs (Decidable (_ → _))

def HasRoomFor (v : VGA) : Str → Prop
  | [] => True
  | c :: text => v.HasRoom c ∧ (v.putChar c).HasRoomFor text

/-- All cells from the cursor onward are blank. -/
def BlankAhead (v : VGA) : Prop :=
  ∀ n, v.position ≤ n → n < bufferHeight * bufferWidth → (v.cells n).byte = blank

variable {v : VGA} {c : Char} {text : Str}

theorem write_concat (v : VGA) (text : Str) (c : Char) :
    v.write (text ++ [c]) = (v.write text).putChar c := by
  simp [write]

theorem perform_append (v : VGA) (calls more : List VgaCall) :
    v.perform (calls ++ more) = (v.perform calls).perform more := by
  simp [perform]

theorem hasRoomFor_concat :
    v.HasRoomFor (text ++ [c]) ↔ v.HasRoomFor text ∧ (v.write text).HasRoom c := by
  induction text generalizing v with
  | nil => simp [HasRoomFor, write]
  | cons d text ih => simp [HasRoomFor, ih, write, and_assoc]

theorem newline_of_room (h : v.row < bufferHeight - 1) :
    v.newline = { v with row := v.row + 1, column := 0 } := by
  simp [newline, h]

theorem putCharAt_cursor (hrow : v.row < bufferHeight) (hcol : v.column < bufferWidth) (c : Char) :
    v.putCharAt v.row v.column c = { v with
      cells := Function.update v.cells v.position ⟨UInt8.ofNat c.toNat, v.colorCode⟩ } := by
  unfold putCharAt
  rw [if_neg (by omega)]
  rfl

theorem putChar_of_lt (hv : v.Valid) (hcol : v.column < bufferWidth) (hc : c ≠ '\n') :
    v.putChar c = { v with
      column := v.column + 1
      cells := Function.update v.cells v.position ⟨UInt8.ofNat c.toNat, v.colorCode⟩ } := by
  unfold putChar
  rw [if_neg hc, if_neg hcol.not_ge]
  dsimp only
  rw [putCharAt_cursor hv.row hcol]

theorem putChar_of_wrap (hcol : v.column = bufferWidth) (hrow : v.row < bufferHeight - 1)
    (hc : c ≠ '\n') :
    v.putChar c = { v with
      row := v.row + 1
      column := 1
      cells := Function.update v.cells v.position ⟨UInt8.ofNat c.toNat, v.colorCode⟩ } := by
  have hpos : (v.row + 1) * bufferWidth + 0 = v.position := by
    rw [position, hcol, Nat.add_mul, Nat.one_mul, Nat.add_zero]
  have hnext : v.row + 1 < bufferHeight := Nat.add_lt_of_lt_sub hrow
  unfold putChar
  rw [if_neg hc, if_pos hcol.ge, newline_of_room hrow]
  dsimp only
  rw [putCharAt, if_neg (by rw [bufferWidth]; omega), writeCell, hpos]
  rfl

theorem putChar_text (hv : v.Valid) (hc : c ≠ '\n') (hroom : v.HasRoom c) :
    (v.putChar c).cells =
        Function.update v.cells v.position ⟨UInt8.ofNat c.toNat, v.colorCode⟩ ∧
      (v.putChar c).position = v.position + 1 ∧ v.position < bufferHeight * bufferWidth := by
  -- at column 80 the character goes to column 0 of the next row, which is that position
  rcases Nat.lt_or_eq_of_le hv.column with hcol | hcol
  · have hrow := hv.row
    rw [putChar_of_lt hv hcol hc]
    refine ⟨rfl, rfl, ?_⟩
    unfold position bufferHeight bufferWidth at *
    omega
  · have hrow := hroom (.inr hcol.ge)
    rw [putChar_of_wrap hcol hrow hc]
    refine ⟨rfl, ?_, ?_⟩ <;> unfold position bufferHeight bufferWidth at *
    · dsimp only
      omega
    · omega

@[simp] theorem putCharAt_row (v : VGA) (row col : Nat) (c : Char) :
    (v.putCharAt row col c).row = v.row := by
  unfold putCharAt
  split_ifs <;> rfl

@[simp] theorem putCharAt_column (v : VGA) (row col : Nat) (c : Char) :
    (v.putCharAt row col c).column = v.column := by
  unfold putCharAt
  split_ifs <;> rfl

theorem valid_newline (v : VGA) : v.newline.Valid ∧ v.newline.column = 0 := by
  by_cases hrow : v.row < bufferHeight - 1
  · rw [newline_of_room hrow]
    exact ⟨⟨Nat.add_lt_of_lt_sub hrow, Nat.zero_le _⟩, rfl⟩
  · unfold newline
    rw [if_neg hrow]
    exact ⟨⟨Nat.lt_succ_self _, Nat.zero_le _⟩, rfl⟩

theorem valid_putChar (hv : v.Valid) (c : Char) : (v.putChar c).Valid := by
  unfold putChar
  split_ifs with hc hcol
  · exact v.valid_newline.1
  · obtain ⟨hnext, hzero⟩ := v.valid_newline
    refine ⟨by simpa using hnext.row, ?_⟩
    simp [hzero, bufferWidth]
  · exact ⟨by simpa using hv.row, by simpa using Nat.succ_le_of_lt (Nat.lt_of_not_ge hcol)⟩

theorem column_putChar_pos (hc : c ≠ '\n') : 0 < (v.putChar c).column := by
  unfold putChar
  rw [if_neg hc]
  exact Nat.succ_pos _

theorem valid_write (hv : v.Valid) (text : Str) : (v.write text).Valid := by
  induction text generalizing v with
  | nil => exact hv
  | cons c text ih => exact ih (valid_putChar hv c)

theorem putChar_newline (hroom : v.HasRoom '\n') :
    v.putChar '\n' = { v with row := v.row + 1, column := 0 } :=
  newline_of_room (hroom (.inl rfl))

theorem backspace_of_pos (hv : v.Valid) (hpos : 0 < v.position) :
    v.backspace.cells = Function.update v.cells (v.position - 1) ⟨blank, v.colorCode⟩ ∧
      v.backspace.position + 1 = v.position := by
  have hcolumn := hv.column
  unfold position bufferWidth at *
  by_cases hcol : 0 < v.column
  · have hcell : v.row * 80 + (v.column - 1) = v.row * 80 + v.column - 1 := by omega
    rw [backspace, if_pos hcol]
    refine ⟨?_, ?_⟩
    · rw [← hcell]
      rfl
    · show v.row * 80 + (v.column - 1) + 1 = _
      omega
  · have hcell : (v.row - 1) * 80 + (80 - 1) = v.row * 80 + v.column - 1 := by omega
    rw [backspace, if_neg hcol, if_pos (by omega)]
    refine ⟨?_, ?_⟩
    · rw [← hcell]
      rfl
    · show (v.row - 1) * 80 + (80 - 1) + 1 = _
      omega

theorem valid_backspace (hv : v.Valid) :
    v.backspace.Valid ∧ v.backspace.column < bufferWidth := by
  obtain ⟨hrow, hcolumn⟩ := hv
  unfold backspace
  split_ifs with hcol hpos
  · have hlt : v.column - 1 < bufferWidth := Nat.sub_one_lt_of_le hcol hcolumn
    exact ⟨⟨hrow, hlt.le⟩, hlt⟩
  · exact ⟨⟨(Nat.sub_le _ _).trans_lt hrow, Nat.sub_le _ _⟩, Nat.lt_succ_self _⟩
  · exact ⟨⟨hrow, hcolumn⟩, by rw [bufferWidth]; omega⟩

theorem blankAhead_putChar (hv : v.Valid) (hroom : v.HasRoom c) (hblank : v.BlankAhead) :
    (v.putChar c).BlankAhead := by
  intro n hn hlt
  by_cases hc : c = '\n'
  · subst hc
    rw [putChar_newline hroom] at hn ⊢
    -- a line break moves the cursor forward over cells that are blank
    have hle : v.position ≤ (v.row + 1) * bufferWidth := by
      rw [Nat.add_mul, Nat.one_mul]
      exact Nat.add_le_add_left hv.column _
    exact hblank n (hle.trans hn) hlt
  · obtain ⟨hcells, hpos, -⟩ := putChar_text hv hc hroom
    rw [hpos] at hn
    rw [hcells, Function.update_of_ne (Nat.ne_of_gt hn)]
    exact hblank n (Nat.le_of_succ_le hn) hlt

theorem blankAhead_write (hv : v.Valid) (hroom : v.HasRoomFor text) (hblank : v.BlankAhead) :
    (v.write text).BlankAhead := by
  induction text generalizing v with
  | nil => exact hblank
  | cons c text ih =>
    obtain ⟨hfirst, hrest⟩ := hroom
    exact ih (valid_putChar hv c) hrest (blankAhead_putChar hv hfirst hblank)

structure SameText (v w : VGA) : Prop where
  cells : ∀ n < bufferHeight * bufferWidth, (v.cells n).byte = (w.cells n).byte
  cursor : v.position = w.position

variable {w : VGA}

@[refl] theorem SameText.refl (v : VGA) : v.SameText v := ⟨fun _ _ => rfl, rfl⟩

/-- Column 80 of a row and column 0 of the next are one place. Where that is excluded
the way that tells them apart, the rows compare. -/
theorem SameText.row_le (h : v.SameText w) (hv : v.Valid)
    (hcol : v.column < bufferWidth ∨ 0 < w.column) : w.row ≤ v.row := by
  have hpos := h.cursor
  have hcolumn := hv.column
  unfold position bufferWidth at *
  omega

theorem SameText.hasRoom (h : v.SameText w) (hrow : w.row ≤ v.row)
    (hv : v.Valid) (hroom : v.HasRoom c) : w.HasRoom c := by
  rintro (hc | hcol)
  · exact hrow.trans_lt (hroom (.inl hc))
  -- on the same row the columns agree too, otherwise the row below exists
  · rcases Nat.lt_or_eq_of_le hrow with hlt | heq
    · exact hlt.trans_le (Nat.le_pred_of_lt hv.row)
    · have hpos := h.cursor
      have hcolumn : v.column = w.column := by
        unfold position at hpos
        rw [heq] at hpos
        exact Nat.add_left_cancel hpos
      rw [heq]
      exact hroom (.inr (hcolumn ▸ hcol))

theorem SameText.putChar (h : v.SameText w) (hv : v.Valid) (hw : w.Valid) (hc : c ≠ '\n')
    (hvroom : v.HasRoom c) (hwroom : w.HasRoom c) : (v.putChar c).SameText (w.putChar c) := by
  obtain ⟨hvcells, hvpos, -⟩ := putChar_text hv hc hvroom
  obtain ⟨hwcells, hwpos, -⟩ := putChar_text hw hc hwroom
  constructor
  · intro n hn
    rw [hvcells, hwcells, h.cursor]
    by_cases hat : n = w.position
    · rw [hat, Function.update_self, Function.update_self]
    · rw [Function.update_of_ne hat, Function.update_of_ne hat]
      exact h.cells n hn
  · rw [hvpos, hwpos, h.cursor]

theorem SameText.newline_iff (h : v.SameText w) (hvroom : v.HasRoom '\n')
    (hwroom : w.HasRoom '\n') :
    (v.putChar '\n').SameText (w.putChar '\n') ↔ v.row = w.row := by
  rw [putChar_newline hvroom, putChar_newline hwroom]
  constructor
  · intro hsame
    have hpos : (v.row + 1) * bufferWidth = (w.row + 1) * bufferWidth := hsame.cursor
    exact Nat.succ_injective (Nat.eq_of_mul_eq_mul_right (by decide) hpos)
  · intro hrow
    refine ⟨h.cells, ?_⟩
    show (v.row + 1) * bufferWidth + 0 = (w.row + 1) * bufferWidth + 0
    rw [hrow]

theorem SameText.backspace (h : v.SameText (w.putChar c)) (hv : v.Valid) (hw : w.Valid)
    (hc : c ≠ '\n') (hroom : w.HasRoom c) (hblank : w.BlankAhead) : v.backspace.SameText w := by
  obtain ⟨hwcells, hwpos, hlt⟩ := putChar_text hw hc hroom
  have hpos : v.position = w.position + 1 := h.cursor.trans hwpos
  obtain ⟨hvcells, hvpos⟩ := backspace_of_pos hv (by omega)
  have hback : v.position - 1 = w.position := by omega
  constructor
  · intro n hn
    rw [hvcells, hback]
    by_cases hat : n = w.position
    · rw [hat, Function.update_self]
      exact (hblank _ le_rfl hlt).symm
    · rw [Function.update_of_ne hat, h.cells n hn, hwcells, Function.update_of_ne hat]
  · omega

theorem SameText.backspace_newline_iff (h : v.SameText (w.putChar '\n')) (hv : v.Valid)
    (hw : w.Valid) (hroom : w.HasRoom '\n') (hblank : w.BlankAhead) :
    v.backspace.SameText w ↔ w.column + 1 = bufferWidth := by
  rw [putChar_newline hroom] at h
  have hnext : v.position = (w.row + 1) * bufferWidth := h.cursor
  have hbehind : 0 < v.position := by
    rw [hnext]
    exact Nat.mul_pos w.row.succ_pos (by decide)
  obtain ⟨hvcells, hvpos⟩ := backspace_of_pos hv hbehind
  constructor
  · intro hsame
    have hpos := hsame.cursor
    unfold position bufferWidth at *
    omega
  · intro hcol
    have hpos : v.backspace.position = w.position := by
      unfold position bufferWidth at *
      omega
    have hback : v.position - 1 = w.position := by omega
    have hrow := hw.row
    have hlt : w.position < bufferHeight * bufferWidth := by
      unfold position bufferWidth bufferHeight at *
      omega
    refine ⟨fun n hn => ?_, hpos⟩
    rw [hvcells, hback]
    by_cases hat : n = w.position
    · rw [hat, Function.update_self]
      exact (hblank _ le_rfl hlt).symm
    · rw [Function.update_of_ne hat]
      exact h.cells n hn

end VGA

end AliluOS
