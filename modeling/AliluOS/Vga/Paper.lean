import AliluOS.Vga.Cursor

/-! The screen as a window on a sheet of paper. The driver copies 24 rows to scroll; seen
from the paper it moves the window down by one row, and no row that has left the window
ever changes. -/

namespace AliluOS
open Kernel Lib Text

/-- A sheet without end, and the window of 25 rows on it from `top` on. The cursor's row is
counted from there. -/
structure Paper where
  top : Nat
  row : Nat
  column : Nat
  color : UInt8
  cell : Nat → Nat → Cell

namespace Paper
open VGA (bufferWidth bufferHeight blank)

def blankRow (p : Paper) (row : Nat) : Paper :=
  { p with cell := Function.update p.cell row fun _ => ⟨blank, p.color⟩ }

def put (p : Paper) (row col : Nat) (x : Cell) : Paper :=
  { p with
    cell := Function.update p.cell (p.top + row)
      (Function.update (p.cell (p.top + row)) col x) }

def clear (p : Paper) : Paper where
  top := p.top + bufferHeight
  row := 0
  column := 0
  color := p.color
  cell row := if p.top + bufferHeight ≤ row then fun _ => ⟨blank, p.color⟩ else p.cell row

def newline (p : Paper) : Paper :=
  if p.row < bufferHeight - 1 then { p with row := p.row + 1, column := 0 }
  else { p.blankRow (p.top + bufferHeight) with top := p.top + 1, column := 0 }

def putCharAt (p : Paper) (row col : Nat) (c : Char) : Paper :=
  if row ≥ bufferHeight ∨ col ≥ bufferWidth then p
  else p.put row col ⟨UInt8.ofNat c.toNat, p.color⟩

def putChar (p : Paper) (c : Char) : Paper :=
  if c = '\n' then p.newline
  else
    let p := if p.column ≥ bufferWidth then p.newline else p
    let p := p.putCharAt p.row p.column c
    { p with column := p.column + 1 }

def write (p : Paper) (text : Str) : Paper := text.foldl putChar p

def backspace (p : Paper) : Paper :=
  if p.column > 0 then
    { p.put p.row (p.column - 1) ⟨blank, p.color⟩ with column := p.column - 1 }
  else if p.row > 0 then
    { p.put (p.row - 1) (bufferWidth - 1) ⟨blank, p.color⟩ with
      row := p.row - 1, column := bufferWidth - 1 }
  else p

def colorCode (fg bg : Color) : UInt8 := (bg.code <<< 4) ||| fg.code

def callVga (p : Paper) : VgaCall → Paper
  | .clear => p.clear
  | .setColor fg bg => { p with color := colorCode fg bg }
  | .write text => p.write text
  | .println text => (p.write text).newline
  | .putChar c => p.putChar c
  | .putCharAt row col c => p.putCharAt row col c
  | .backspace => p.backspace

def call (p : Paper) : DisplayCall → Paper
  | .init => p.clear
  | .vga c => p.callVga c
  | .clearLine => { p.blankRow (p.top + p.row) with column := 0 }
  | .setCursorPosition row col =>
    { p with row := min row (bufferHeight - 1), column := min col (bufferWidth - 1) }
  | .showCursor | .hideCursor => p

def perform (p : Paper) (calls : List DisplayCall) : Paper := calls.foldl call p

def of (v : VGA) : Paper :=
  ⟨0, v.row, v.column, v.colorCode, fun row col => v.cells (row * bufferWidth + col)⟩

/-! ## The window -/

/-- The screen is what is seen in the window. -/
structure Window (p : Paper) (v : VGA) : Prop where
  cells : ∀ row < bufferHeight, ∀ col < bufferWidth,
    v.cells (row * bufferWidth + col) = p.cell (p.top + row) col
  row : v.row = p.row
  column : v.column = p.column
  color : v.colorCode = p.color

variable {p : Paper} {v : VGA}

theorem window_of (v : VGA) : (of v).Window v :=
  ⟨fun row _ col _ => by simp [of], rfl, rfl, rfl⟩

theorem put_cell (p : Paper) (row col : Nat) (x : Cell) (r c : Nat) :
    (p.put row col x).cell (p.top + r) c =
      if r = row ∧ c = col then x else p.cell (p.top + r) c := by
  rw [put]
  dsimp only
  by_cases hr : r = row
  · subst hr
    rw [Function.update_self, Function.update_apply]
    simp
  · rw [Function.update_of_ne (by omega), if_neg fun h => hr h.1]

theorem Window.writeCell (h : p.Window v) {row col : Nat} (hcol : col < bufferWidth)
    (byte : UInt8) :
    (p.put row col ⟨byte, p.color⟩).Window (v.writeCell row col byte v.colorCode) := by
  refine ⟨fun r hr c hc => ?_, h.row, h.column, h.color⟩
  have hput := p.put_cell row col ⟨byte, p.color⟩ r c
  refine Eq.trans ?_ hput.symm
  rw [VGA.writeCell]
  dsimp only
  rw [Function.update_apply, h.color, h.cells r hr c hc]
  exact if_congr (VGA.position_inj hc hcol) rfl rfl

theorem Window.clear (h : p.Window v) : p.clear.Window v.clear := by
  refine ⟨fun row hr col hc => ?_, ?_, ?_, ?_⟩
  · rw [VGA.cells_clear v hr hc, h.color, Paper.clear]
    simp
  · rw [VGA.clear_eq]
    rfl
  · rw [VGA.clear_eq]
    rfl
  · rw [VGA.colorCode_clear]
    exact h.color

theorem Window.newline (h : p.Window v) (hv : v.Valid) : p.newline.Window v.newline := by
  have hlast := hv.row
  have hrow' := h.row
  unfold Paper.newline
  rw [← h.row]
  split_ifs with hrow
  · rw [VGA.newline_of_room hrow]
    exact ⟨h.cells, rfl, rfl, h.color⟩
  · rw [VGA.newline_of_full hrow]
    refine ⟨fun row hr col hc => ?_, ?_, rfl, h.color⟩
    · have hscroll := v.cells_scroll hr hc
      unfold bufferHeight at *
      refine hscroll.trans ?_
      dsimp only [blankRow]
      split_ifs with hup
      · rw [Function.update_of_ne (by omega), Nat.add_right_comm, Nat.add_assoc]
        exact h.cells (row + 1) (by rw [bufferHeight]; omega) col hc
      · obtain rfl : row = 24 := by omega
        rw [show p.top + 1 + 24 = p.top + 25 by omega, Function.update_self, h.color]
    · unfold bufferHeight at *
      show 25 - 1 = p.row
      omega

theorem Window.putCharAt (h : p.Window v) (row col : Nat) (c : Char) :
    (p.putCharAt row col c).Window (v.putCharAt row col c) := by
  unfold Paper.putCharAt VGA.putCharAt
  split_ifs with hout
  · exact h
  · exact h.writeCell (by omega) _

theorem Window.advance (h : p.Window v) (c : Char) :
    let q := p.putCharAt p.row p.column c
    let w := v.putCharAt v.row v.column c
    Window { q with column := q.column + 1 } { w with column := w.column + 1 } := by
  have hput := h.putCharAt p.row p.column c
  rw [h.row, h.column]
  exact ⟨hput.cells, hput.row, congrArg (· + 1) hput.column, hput.color⟩

theorem Window.putChar (h : p.Window v) (hv : v.Valid) (c : Char) :
    (p.putChar c).Window (v.putChar c) := by
  unfold Paper.putChar VGA.putChar
  rw [← h.column]
  split_ifs with hbreak hfull
  · exact h.newline hv
  · exact (h.newline hv).advance c
  · exact h.advance c

theorem Window.write (h : p.Window v) (hv : v.Valid) (text : Str) :
    (p.write text).Window (v.write text) := by
  induction text generalizing p v with
  | nil => exact h
  | cons c text ih => exact ih (h.putChar hv c) (VGA.valid_putChar hv c)

theorem Window.backspace (h : p.Window v) (hv : v.Valid) :
    p.backspace.Window v.backspace := by
  have hcolumn := hv.column
  unfold Paper.backspace VGA.backspace
  rw [← h.column, ← h.row]
  split_ifs with hcol hrow
  · have hput : (p.put v.row (v.column - 1) ⟨blank, p.color⟩).Window
        (v.writeCell v.row (v.column - 1) blank v.colorCode) := h.writeCell (by omega) blank
    exact ⟨hput.cells, h.row, rfl, h.color⟩
  · have hput : (p.put (v.row - 1) (bufferWidth - 1) ⟨blank, p.color⟩).Window
        (v.writeCell (v.row - 1) (bufferWidth - 1) blank v.colorCode) :=
      h.writeCell (by decide) blank
    exact ⟨hput.cells, rfl, rfl, h.color⟩
  · exact h

theorem Window.callVga (h : p.Window v) (hv : v.Valid) (c : VgaCall) :
    (p.callVga c).Window (v.call c) := by
  cases c with
  | clear => exact h.clear
  | setColor fg bg => exact ⟨h.cells, h.row, h.column, rfl⟩
  | write text => exact h.write hv text
  | println text => exact (h.write hv text).newline (VGA.valid_write hv text)
  | putChar c => exact h.putChar hv c
  | putCharAt row col c => exact h.putCharAt row col c
  | backspace => exact h.backspace hv

theorem Window.clearLine (h : p.Window v) :
    (p.call .clearLine).Window v.clearLine := by
  have hcells : v.clearLine.cells = store v.cells (v.blankRowWrites v.row) := by
    rw [VGA.clearLine, VGA.blankRow_eq]
    exact v.cells_stored _
  refine ⟨fun row hr col hc => ?_, ?_, ?_, ?_⟩
  · rw [hcells, VGA.blankRowWrites]
    dsimp only [call, blankRow]
    by_cases hrow : row = v.row
    · subst hrow
      rw [store_rowWrites hc, ← h.row, Function.update_self, h.color]
    · rw [store_rowWrites_of_ne hrow hc, ← h.row, Function.update_of_ne (by omega)]
      exact h.cells row hr col hc
  all_goals rw [VGA.clearLine, VGA.blankRow_eq]
  · exact h.row
  · rfl
  · exact h.color

/-! ## Whole runs -/

variable {d : Display}

theorem Window.call (h : p.Window d.vga) (hd : d.Good) (c : DisplayCall) :
    (p.call c).Window (d.call c).vga := by
  cases c with
  | init =>
    have hvga : (d.call .init).vga = d.vga.clear :=
      (Display.updateCursor_vga _).trans (Display.updateCursor_vga _)
    rw [hvga]
    exact h.clear
  | vga c =>
    rw [Display.call, d.callVga_vga]
    exact h.callVga hd.valid c
  | clearLine =>
    rw [Display.call, Display.updateCursor_vga]
    exact h.clearLine
  | setCursorPosition row col =>
    rw [Display.call, Display.updateCursor_vga]
    exact ⟨h.cells, rfl, rfl, h.color⟩
  | showCursor =>
    rw [Display.call, Display.showCursor, Display.updateCursor_vga]
    exact h
  | hideCursor => exact h

theorem Window.perform (h : p.Window d.vga) (hd : d.Good) (calls : List DisplayCall) :
    (p.perform calls).Window (d.perform calls).vga := by
  induction calls generalizing p d with
  | nil => exact h
  | cons c calls ih => exact ih (h.call hd c) (Display.good_call hd c).1

/-- What a call leaves above the window, and that the window only moves down. -/
structure Kept (p q : Paper) : Prop where
  top : p.top ≤ q.top
  cell : ∀ row < p.top, q.cell row = p.cell row

theorem Kept.trans {p q r : Paper} (h : Kept p q) (h' : Kept q r) : Kept p r :=
  ⟨h.top.trans h'.top, fun row hrow => (h'.cell row (hrow.trans_le h.top)).trans (h.cell row hrow)⟩

theorem kept_put (p : Paper) (row col : Nat) (x : Cell) : Kept p (p.put row col x) :=
  ⟨le_rfl, fun _ hr => Function.update_of_ne (by omega) _ _⟩

theorem kept_newline (p : Paper) : Kept p p.newline := by
  unfold newline
  split_ifs
  · exact ⟨le_rfl, fun _ _ => rfl⟩
  · exact ⟨Nat.le_succ _, fun _ hr => Function.update_of_ne (by omega) _ _⟩

theorem kept_putCharAt (p : Paper) (row col : Nat) (c : Char) : Kept p (p.putCharAt row col c) := by
  unfold putCharAt
  split_ifs
  · exact ⟨le_rfl, fun _ _ => rfl⟩
  · exact p.kept_put _ _ _

theorem kept_putChar (p : Paper) (c : Char) : Kept p (p.putChar c) := by
  unfold putChar
  split_ifs
  · exact p.kept_newline
  · obtain ⟨htop, hcell⟩ := p.kept_newline.trans (p.newline.kept_putCharAt _ _ c)
    exact ⟨htop, hcell⟩
  · obtain ⟨htop, hcell⟩ := p.kept_putCharAt p.row p.column c
    exact ⟨htop, hcell⟩

theorem kept_write (p : Paper) (text : Str) : Kept p (p.write text) := by
  induction text generalizing p with
  | nil => exact ⟨le_rfl, fun _ _ => rfl⟩
  | cons c text ih => exact (p.kept_putChar c).trans (ih (p.putChar c))

theorem kept_clear (p : Paper) : Kept p p.clear :=
  ⟨Nat.le_add_right _ _, fun row hr => if_neg (by unfold bufferHeight; omega)⟩

theorem kept_callVga (p : Paper) (c : VgaCall) : Kept p (p.callVga c) := by
  cases c with
  | clear => exact p.kept_clear
  | setColor => exact ⟨le_rfl, fun _ _ => rfl⟩
  | write text => exact p.kept_write text
  | println text => exact (p.kept_write text).trans (p.write text).kept_newline
  | putChar c => exact p.kept_putChar c
  | putCharAt row col c => exact p.kept_putCharAt row col c
  | backspace =>
    unfold callVga backspace
    split_ifs
    · exact ⟨le_rfl, (p.kept_put p.row (p.column - 1) ⟨blank, p.color⟩).cell⟩
    · exact ⟨le_rfl, (p.kept_put (p.row - 1) (bufferWidth - 1) ⟨blank, p.color⟩).cell⟩
    · exact ⟨le_rfl, fun _ _ => rfl⟩

theorem kept_call (p : Paper) (c : DisplayCall) : Kept p (p.call c) := by
  cases c with
  | init => exact p.kept_clear
  | vga c => exact p.kept_callVga c
  | clearLine => exact ⟨le_rfl, fun _ hr => Function.update_of_ne (by omega) _ _⟩
  | setCursorPosition | showCursor | hideCursor => exact ⟨le_rfl, fun _ _ => rfl⟩

theorem kept_perform (p : Paper) (calls : List DisplayCall) : Kept p (p.perform calls) := by
  induction calls generalizing p with
  | nil => exact ⟨le_rfl, fun _ _ => rfl⟩
  | cons c calls ih => exact (p.kept_call c).trans (ih (p.call c))

/-! ## A line of text -/

def line (p : Paper) : Nat := p.top + p.row

theorem row_newline (p : Paper) (hrow : p.row ≤ 24) : p.newline.row = min (p.row + 1) 24 := by
  unfold newline bufferHeight
  split_ifs with hroom
  · dsimp only
    omega
  · dsimp only [blankRow]
    omega

theorem line_newline (p : Paper) : p.newline.line = p.line + 1 := by
  unfold line newline bufferHeight
  split_ifs with hroom
  · rfl
  · dsimp only [blankRow]
    omega

@[simp] theorem column_newline (p : Paper) : p.newline.column = 0 := by
  unfold newline
  split_ifs <;> rfl

theorem cell_newline (p : Paper) {row : Nat} (hrow : row < p.top + 25) :
    p.newline.cell row = p.cell row := by
  unfold newline bufferHeight
  split_ifs
  · rfl
  · exact Function.update_of_ne (by omega) ..

theorem write_concat (p : Paper) (text : Str) (c : Char) :
    p.write (text ++ [c]) = (p.write text).putChar c := List.foldl_concat ..

theorem row_putCharAt (p : Paper) (row col : Nat) (c : Char) :
    (p.putCharAt row col c).row = p.row := by
  unfold putCharAt
  split_ifs <;> rfl

theorem row_putChar_le (hrow : p.row ≤ 24) (c : Char) : (p.putChar c).row ≤ 24 := by
  have hnewline : p.newline.row ≤ 24 := (p.row_newline hrow).trans_le (min_le_right ..)
  unfold putChar
  split_ifs
  · exact hnewline
  · exact (p.newline.row_putCharAt ..).trans_le hnewline
  · exact (p.row_putCharAt ..).trans_le hrow

theorem row_write_le (hrow : p.row ≤ 24) (text : Str) : (p.write text).row ≤ 24 := by
  induction text generalizing p with
  | nil => exact hrow
  | cons c text ih => exact ih (row_putChar_le hrow c)

theorem write_cons (p : Paper) (c : Char) (text : Str) :
    p.write (c :: text) = (p.putChar c).write text := rfl

theorem write_append (p : Paper) (text text' : Str) :
    p.write (text ++ text') = (p.write text).write text' := List.foldl_append

theorem write_fitting (p : Paper) {text : Str} (hbreak : '\n' ∉ text) (hrow : p.row ≤ 24)
    (hfits : p.column + text.length ≤ bufferWidth) :
    (p.write text).top = p.top ∧ (p.write text).row = p.row ∧ (p.write text).color = p.color ∧
      (p.write text).column = p.column + text.length ∧
      ∀ row col, (p.write text).cell row col =
        if row = p.line ∧ p.column ≤ col then
          (text[col - p.column]?.map fun c => ⟨UInt8.ofNat c.toNat, p.color⟩).getD (p.cell row col)
        else p.cell row col := by
  induction text using List.reverseRecOn with
  | nil => exact ⟨rfl, rfl, rfl, rfl, fun row col => by simp [write]⟩
  | append_singleton text c ih =>
    rw [List.length_append, List.length_singleton] at hfits
    obtain ⟨htop, hrow', hcolor, hcolumn, hcell⟩ := ih (fun h => hbreak (by simp [h])) (by omega)
    have hc : c ≠ '\n' := by
      rintro rfl
      exact hbreak (by simp)
    have hroom : ¬ (p.write text).column ≥ bufferWidth := by omega
    have hin : ¬ ((p.write text).row ≥ bufferHeight ∨ (p.write text).column ≥ bufferWidth) := by
      unfold bufferHeight
      omega
    rw [write_concat, putChar, if_neg hc, if_neg hroom]
    dsimp only
    rw [putCharAt, if_neg hin]
    refine ⟨htop, hrow', hcolor, ?_, fun row col => ?_⟩
    · dsimp only [put]
      rw [hcolumn, List.length_append, List.length_singleton, Nat.add_assoc]
    · dsimp only [put]
      have hline : (p.write text).top + (p.write text).row = p.line := by rw [htop, hrow', line]
      rw [hline, hcolumn, hcolor]
      by_cases hr : row = p.line
      · subst hr
        rw [Function.update_self, Function.update_apply, hcell]
        by_cases hcol : p.column ≤ col
        · simp only [true_and, if_pos hcol]
          rcases Nat.lt_trichotomy (col - p.column) text.length with hlt | heq | hgt
          · rw [if_neg (by omega), List.getElem?_append_left hlt]
          · rw [if_pos (by omega), heq, List.getElem?_concat_length]
            rfl
          · rw [if_neg (by omega), List.getElem?_eq_none (by omega), List.getElem?_eq_none
              (by rw [List.length_append, List.length_singleton]; omega)]
        · simp only [true_and, if_neg hcol]
          rw [if_neg (by omega)]
      · rw [Function.update_of_ne hr, hcell, if_neg fun h => hr h.1, if_neg fun h => hr h.1]

/-- After any calls the screen is the window of the paper that the same calls print, with
cursor and colour; and whatever is called then, the window only moves down, and the
rows above it stay as they were when they left it. -/
theorem screen_is_window (cells : Nat → Cell) (crt : Crt) (calls : List DisplayCall) :
    let d := (Display.new cells crt).init
    let p := (Paper.of d.vga).perform calls
    p.Window (d.perform calls).vga ∧ ∀ more, p.top ≤ (p.perform more).top ∧
      ∀ row < p.top, (p.perform more).cell row = p.cell row := by
  intro d p
  have hgood := (Display.good_init (d := Display.new cells crt)
    fun h => absurd h (by simp [Display.new])).1
  refine ⟨(window_of d.vga).perform hgood calls, fun more => ?_⟩
  have hkept := p.kept_perform more
  exact ⟨hkept.top, hkept.cell⟩

end Paper

end AliluOS
