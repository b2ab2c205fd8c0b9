import AliluOS.Vga.Paper

/-! What the calls that print leave on the screen: all their text in rows of 80, each
character in the colour it was printed in, of which the last 25 rows are shown. -/

namespace AliluOS
open Kernel Lib Text

inductive Print
  | setColor (fg bg : Color)
  | write (text : Str)
  | println (text : Str)
  | putChar (c : Char)

def Print.call : Print → VgaCall
  | .setColor fg bg => .setColor fg bg
  | .write text => .write text
  | .println text => .println text
  | .putChar c => .putChar c

abbrev Ink := Char × UInt8

namespace Ink
open VGA (blank)

def cell (i : Ink) : Cell := ⟨UInt8.ofNat i.1.toNat, i.2⟩

/-- What a cell shows: a character, or nothing, in whatever colour. -/
def Seen (x : Cell) : Option Ink → Prop
  | some i => x = i.cell
  | none => x.byte = blank

instance (x : Cell) : (i : Option Ink) → Decidable (Seen x i)
  | some i => inferInstanceAs (Decidable (x = i.cell))
  | none => inferInstanceAs (Decidable (x.byte = blank))

def isBreak (i : Ink) : Prop := i.1 = '\n'

instance : DecidablePred isBreak := fun i => inferInstanceAs (Decidable (i.1 = '\n'))

def layout (inks : List Ink) : Rows Ink := Rows.layout VGA.bufferWidth isBreak inks

def paint (color : UInt8) (text : Str) : List Ink := text.map fun c => (c, color)

end Ink

def inks (color : UInt8) : List Print → List Ink
  | [] => []
  | .setColor fg bg :: prints => inks (Paper.colorCode fg bg) prints
  | .write text :: prints => Ink.paint color text ++ inks color prints
  | .println text :: prints => Ink.paint color (text ++ ['\n']) ++ inks color prints
  | .putChar c :: prints => Ink.paint color [c] ++ inks color prints

namespace Paper
open VGA (bufferWidth bufferHeight blank)

/-- From row `base` on the paper holds the rows of `t`; the window is as low as it has to
be, and the cursor behind the last character. -/
structure Holds (p : Paper) (base : Nat) (t : Rows Ink) : Prop where
  top : p.top = base + t.hidden bufferHeight
  row : p.top + p.row = base + t.above.length
  column : p.column = t.last.length
  cells : ∀ k, ∀ col < bufferWidth, Ink.Seen (p.cell (base + k) col) (t.rowAt k)[col]?

variable {p : Paper} {base : Nat} {t : Rows Ink} {c : Char}

theorem holds_clear (p : Paper) : p.clear.Holds p.clear.top .empty where
  top := rfl
  row := rfl
  column := rfl
  cells k col _ := by
    rw [Rows.rowAt_empty, List.getElem?_nil, clear]
    dsimp only
    rw [if_pos (Nat.le_add_right ..)]
    rfl

theorem Holds.newline (h : p.Holds base t) : p.newline.Holds base t.newRow := by
  have htop := h.top
  have hrow := h.row
  have hheight : bufferHeight = 25 := rfl
  rw [Rows.hidden_eq] at htop
  unfold Paper.newline
  split_ifs with hroom
  · refine ⟨?_, ?_, rfl, fun k col hc => ?_⟩
    · rw [Rows.hidden_eq, Rows.above_newRow]
      dsimp only
      omega
    · rw [Rows.above_newRow]
      dsimp only
      omega
    · rw [Rows.rowAt_newRow]
      exact h.cells k col hc
  · refine ⟨?_, ?_, rfl, fun k col hc => ?_⟩
    · rw [Rows.hidden_eq, Rows.above_newRow]
      dsimp only [blankRow]
      omega
    · rw [Rows.above_newRow]
      dsimp only [blankRow]
      omega
    · rw [Rows.rowAt_newRow]
      dsimp only [blankRow]
      -- the row that comes into the window is one that nothing has been printed in
      by_cases hnew : base + k = p.top + bufferHeight
      · rw [hnew, Function.update_self, Rows.rowAt_of_le (by omega), List.getElem?_nil]
        rfl
      · rw [Function.update_of_ne hnew]
        exact h.cells k col hc

theorem Holds.put (h : p.Holds base t) (hroom : p.column < bufferWidth) :
    let q := p.putCharAt p.row p.column c
    Holds { q with column := q.column + 1 } base (t.put (c, p.color)) := by
  have htop := h.top
  have hrow := h.row
  rw [Rows.hidden_eq] at htop
  have hheight : p.row < bufferHeight := by
    unfold bufferHeight at *
    omega
  rw [putCharAt, if_neg (by omega)]
  refine ⟨by rw [Rows.hidden_put]; exact h.top, h.row, ?_, fun k col hc => ?_⟩
  · change p.column + 1 = (t.last ++ [_]).length
    rw [List.length_append, List.length_singleton, h.column]
  · rw [Rows.rowAt_put]
    dsimp only [Paper.put]
    by_cases hk : k = t.above.length
    · subst hk
      rw [if_pos rfl, ← hrow, Function.update_self]
      have hcells := h.cells t.above.length col hc
      rw [Rows.rowAt_last, ← hrow] at hcells
      by_cases hcol : col = p.column
      · subst hcol
        rw [Function.update_self, h.column, List.getElem?_concat_length]
        rfl
      · have hne : col ≠ t.last.length := h.column ▸ hcol
        rw [Function.update_of_ne hcol, List.getElem?_append]
        split_ifs with hlt
        · exact hcells
        · rw [List.getElem?_eq_none (Nat.le_of_not_lt hlt)] at hcells
          rw [List.getElem?_eq_none (by rw [List.length_singleton]; omega)]
          exact hcells
    · rw [if_neg hk, Function.update_of_ne (by omega)]
      exact h.cells k col hc

theorem color_newline (p : Paper) : p.newline.color = p.color := by
  unfold newline
  split_ifs <;> rfl

theorem color_putCharAt (p : Paper) (row col : Nat) (c : Char) :
    (p.putCharAt row col c).color = p.color := by
  unfold putCharAt
  split_ifs <;> rfl

theorem color_putChar (p : Paper) (c : Char) : (p.putChar c).color = p.color := by
  unfold putChar
  split_ifs
  · exact p.color_newline
  · exact (p.newline.color_putCharAt ..).trans p.color_newline
  · exact p.color_putCharAt ..

theorem Holds.putChar (h : p.Holds base t) (c : Char) :
    (p.putChar c).Holds base (t.push bufferWidth Ink.isBreak (c, p.color)) := by
  have hbreak : Ink.isBreak (c, p.color) ↔ c = '\n' := Iff.rfl
  simp only [Paper.putChar, Rows.push, h.column, hbreak]
  split_ifs with hc hfull
  · exact h.newline
  · have hput := h.newline.put (c := c) (by
      rw [h.newline.column]
      exact Nat.succ_pos 79)
    rwa [color_newline] at hput
  · exact h.put (h.column.trans_lt (Nat.lt_of_not_le hfull))

theorem color_write (p : Paper) (text : Str) : (p.write text).color = p.color := by
  induction text generalizing p with
  | nil => rfl
  | cons c text ih => exact (ih (p.putChar c)).trans (p.color_putChar c)

theorem Holds.write (h : p.Holds base t) (text : Str) : (p.write text).Holds base
    ((Ink.paint p.color text).foldl (Rows.push bufferWidth Ink.isBreak) t) := by
  induction text generalizing p t with
  | nil => exact h
  | cons c text ih =>
    have hrest := ih (h.putChar c)
    rw [color_putChar] at hrest
    exact hrest

theorem Holds.prints (h : p.Holds base t) (prints : List Print) :
    ((prints.map Print.call).foldl callVga p).Holds base
      ((inks p.color prints).foldl (Rows.push bufferWidth Ink.isBreak) t) := by
  induction prints generalizing p t with
  | nil => exact h
  | cons x prints ih =>
    have text : ∀ text : Str, ((prints.map Print.call).foldl callVga (p.write text)).Holds base
        ((Ink.paint p.color text ++ inks p.color prints).foldl
          (Rows.push bufferWidth Ink.isBreak) t) := by
      intro text
      have hrest := ih (h.write text)
      rwa [color_write, ← List.foldl_append] at hrest
    cases x with
    | setColor fg bg => exact ih (p := { p with color := colorCode fg bg }) ⟨h.1, h.2, h.3, h.4⟩
    | write s => exact text s
    | println s =>
      have hbreak := text (s ++ ['\n'])
      rw [write_concat] at hbreak
      exact hbreak
    | putChar c => exact text [c]

theorem Window.performVga {v : VGA} (h : p.Window v) (hv : v.Valid) (calls : List VgaCall) :
    (calls.foldl Paper.callVga p).Window (v.perform calls) := by
  induction calls generalizing p v with
  | nil => exact h
  | cons c calls ih => exact ih (h.callVga hv c) (VGA.valid_call hv c).1

theorem Holds.seen {v : VGA} (h : p.Holds base t) (hwindow : p.Window v) :
    (∀ row < 25, ∀ col < 80, Ink.Seen (v.cells (row * 80 + col))
      ((t.toList.drop (t.toList.length - 25))[row]?.getD [])[col]?) ∧
      v.row = min (t.toList.length - 1) 24 ∧ v.column = t.last.length := by
  have htop := h.top
  refine ⟨fun row hrow col hcol => ?_, ?_, hwindow.column.trans h.column⟩
  · have hcells := h.cells (t.hidden bufferHeight + row) col hcol
    rw [← Nat.add_assoc, ← htop] at hcells
    have hshown : (t.toList.drop (t.hidden 25))[row]?.getD [] = t.rowAt (t.hidden 25 + row) :=
      t.getElem?_shown row
    rw [Rows.hidden] at hshown
    have hcell : v.cells (row * 80 + col) = p.cell (p.top + row) col :=
      hwindow.cells row hrow col hcol
    rw [hshown, hcell]
    exact hcells
  · have hrow := h.row
    rw [htop, Rows.hidden_eq] at hrow
    rw [Rows.length_toList, hwindow.row]
    unfold bufferHeight at hrow
    omega

end Paper

namespace VGA

theorem valid_clear (v : VGA) : v.clear.Valid := by
  rw [clear_eq]
  exact ⟨Nat.zero_lt_succ 24, Nat.zero_le _⟩

theorem holds_prints (v : VGA) (prints : List Print) :
    ∃ p : Paper, p.Window (v.clear.perform (prints.map Print.call)) ∧
      p.Holds (Paper.of v).clear.top (Ink.layout (inks v.colorCode prints)) := by
  have hwindow := (Paper.window_of v).clear.performVga v.valid_clear (prints.map Print.call)
  exact ⟨_, hwindow, (Paper.of v).holds_clear.prints prints⟩

theorem seen_of_fits {v : VGA} {prints : List Print} {rows : List (List Ink)}
    (hrows : (Ink.layout (inks v.colorCode prints)).toList = rows) (hfits : rows.length ≤ 25)
    {row col : Nat} (hrow : row < 25) (hcol : col < 80) :
    Ink.Seen ((v.perform (.clear :: prints.map Print.call)).cells (row * 80 + col))
      (rows[row]?.getD [])[col]? := by
  obtain ⟨p, hwindow, hholds⟩ := v.holds_prints prints
  have hseen := (hholds.seen hwindow).1 row hrow col hcol
  rwa [hrows, Nat.sub_eq_zero_of_le hfits, List.drop_zero] at hseen

/-- After `clear`, whatever is printed, with whatever changes of colour, the screen shows
the last 25 rows of it all laid out in rows of 80, each character in its own colour and
the rest blank, with the cursor behind the last. -/
theorem printed_layout (v : VGA) (prints : List Print) :
    let w := v.clear.perform (prints.map Print.call)
    let rows := (Ink.layout (inks v.colorCode prints)).toList
    let visible := rows.drop (rows.length - 25)
    (∀ row < 25, ∀ col < 80,
      Ink.Seen (w.cells (row * 80 + col)) (visible[row]?.getD [])[col]?) ∧
      w.row = min (rows.length - 1) 24 ∧
      w.column = (Ink.layout (inks v.colorCode prints)).last.length := by
  obtain ⟨p, hwindow, hholds⟩ := v.holds_prints prints
  exact hholds.seen hwindow

end VGA

end AliluOS
