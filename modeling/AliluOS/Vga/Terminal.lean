import AliluOS.Lib.Layout
import AliluOS.Vga.Screen

/-! What `write` shows is the text in rows of 80, of which the last 25 are on the
screen. -/

namespace AliluOS.VGA
open Text Lib

/-! ## Cell writes -/

def stored (v : VGA) (writes : List (Nat × Cell)) : VGA :=
  { v with cells := store v.cells writes }

def blankRowWrites (v : VGA) (row : Nat) : List (Nat × Cell) :=
  rowWrites bufferWidth row fun _ => ⟨blank, v.colorCode⟩

def clearWrites (v : VGA) : List (Nat × Cell) :=
  (List.range bufferHeight).flatMap v.blankRowWrites

def copyUpWrites (v : VGA) (row : Nat) : List (Nat × Cell) :=
  rowWrites bufferWidth (row - 1) fun col => v.cells (row * bufferWidth + col)

def scrollWrites (v : VGA) : List (Nat × Cell) :=
  (List.range' 1 (bufferHeight - 1)).flatMap v.copyUpWrites ++ v.blankRowWrites (bufferHeight - 1)

def newlineWrites (v : VGA) : List (Nat × Cell) :=
  if v.row < bufferHeight - 1 then [] else v.scrollWrites

def putCharAtWrites (v : VGA) (row col : Nat) (c : Char) : List (Nat × Cell) :=
  if row ≥ bufferHeight ∨ col ≥ bufferWidth then []
  else [(row * bufferWidth + col, ⟨UInt8.ofNat c.toNat, v.colorCode⟩)]

def putCharWrites (v : VGA) (c : Char) : List (Nat × Cell) :=
  if c = '\n' then v.newlineWrites
  else if v.column ≥ bufferWidth then
    v.newlineWrites ++ v.newline.putCharAtWrites v.newline.row v.newline.column c
  else v.putCharAtWrites v.row v.column c

def writeWrites : VGA → Str → List (Nat × Cell)
  | _, [] => []
  | v, c :: text => v.putCharWrites c ++ (v.putChar c).writeWrites text

variable {v : VGA} {c : Char} {text : Str}

@[simp] theorem cells_stored (v : VGA) (writes : List (Nat × Cell)) :
    (v.stored writes).cells = store v.cells writes := rfl

theorem blankRowWrites_stored (v : VGA) (writes : List (Nat × Cell)) (row : Nat) :
    (v.stored writes).blankRowWrites row = v.blankRowWrites row := rfl

@[simp] theorem stored_nil (v : VGA) : v.stored [] = v := by
  rw [stored, store_nil]

@[simp] theorem stored_stored (v : VGA) (first second : List (Nat × Cell)) :
    (v.stored first).stored second = v.stored (first ++ second) := by
  simp only [stored, store_append]

theorem writeCell_eq (v : VGA) (row col : Nat) (byte color : UInt8) :
    v.writeCell row col byte color = v.stored [(row * bufferWidth + col, ⟨byte, color⟩)] := by
  rw [stored, store_singleton]
  rfl

theorem foldl_stored {ι : Type} {f : VGA → ι → VGA} {writes : ι → List (Nat × Cell)}
    {items : List ι} (h : ∀ done i rest, items = done ++ i :: rest →
      f (v.stored (done.flatMap writes)) i = (v.stored (done.flatMap writes)).stored (writes i)) :
    items.foldl f v = v.stored (items.flatMap writes) := by
  have hrest : ∀ rest done, items = done ++ rest →
      rest.foldl f (v.stored (done.flatMap writes)) = v.stored (items.flatMap writes) := by
    intro rest
    induction rest with
    | nil =>
      intro done heq
      rw [heq, List.append_nil, List.foldl_nil]
    | cons i rest ih =>
      intro done heq
      have hnext := ih (done ++ [i]) (by simp [heq])
      rw [List.flatMap_append, List.flatMap_singleton] at hnext
      rw [List.foldl_cons, h done i rest heq, stored_stored, hnext]
  have hall := hrest items [] rfl
  rwa [List.flatMap_nil, stored_nil] at hall

theorem blankRow_eq (v : VGA) (row : Nat) : v.blankRow row = v.stored (v.blankRowWrites row) := by
  rw [blankRowWrites, rowWrites_eq_flatMap]
  exact foldl_stored fun done col rest heq => writeCell_eq _ row col blank v.colorCode

theorem clear_eq (v : VGA) :
    v.clear = { v.stored v.clearWrites with row := 0, column := 0 } := by
  have hrows : (List.range bufferHeight).foldl blankRow v = v.stored v.clearWrites :=
    foldl_stored fun done row rest heq => blankRow_eq _ row
  rw [clear, hrows]

theorem copyUp_eq (v : VGA) {row : Nat} (hrow : 0 < row) :
    v.copyUp row = v.stored (v.copyUpWrites row) := by
  rw [copyUpWrites, rowWrites_eq_flatMap]
  refine foldl_stored fun done col rest heq => ?_
  have hcol : col < bufferWidth := List.mem_range.mp (heq ▸ by simp)
  have hread : store v.cells (done.flatMap fun col =>
      [((row - 1) * bufferWidth + col, v.cells (row * bufferWidth + col))])
      (row * bufferWidth + col) = v.cells (row * bufferWidth + col) := by
    refine store_of_ne fun w hw hat => ?_
    obtain ⟨k, hk, hmem⟩ := List.mem_flatMap.mp hw
    obtain rfl := List.mem_singleton.mp hmem
    have hkcol : k < bufferWidth := List.mem_range.mp (heq ▸ List.mem_append_left _ hk)
    have hrows := congrArg (· / bufferWidth) hat
    simp only [row_of_position hkcol, row_of_position hcol] at hrows
    omega
  simp only [stored, store_singleton, hread]

theorem copyUpWrites_congr {w : VGA} {row : Nat}
    (h : ∀ col < bufferWidth,
      w.cells (row * bufferWidth + col) = v.cells (row * bufferWidth + col)) :
    w.copyUpWrites row = v.copyUpWrites row :=
  rowWrites_congr h

theorem scroll_eq (v : VGA) :
    v.scroll = { v.stored v.scrollWrites with row := bufferHeight - 1, column := 0 } := by
  have hcopies : (List.range' 1 (bufferHeight - 1)).foldl copyUp v =
      v.stored ((List.range' 1 (bufferHeight - 1)).flatMap v.copyUpWrites) := by
    refine foldl_stored fun done row rest heq => ?_
    have hmem : row ∈ List.range' 1 (bufferHeight - 1) := heq ▸ by simp
    have hrow : 0 < row := (List.mem_range'_1.mp hmem).1
    have hsorted : (done ++ row :: rest).Pairwise (· < ·) := heq ▸ List.pairwise_lt_range'
    rw [copyUp_eq _ hrow]
    congr 1
    -- the rows above have been written, this one has not
    refine copyUpWrites_congr fun col hcol => store_rows_of_ne (fun k hk => ?_) hcol
    have hlt : k < row := (List.pairwise_append.mp hsorted).2.2 k hk row (by simp)
    omega
  rw [scroll, hcopies, scrollWrites, ← stored_stored, ← blankRowWrites_stored, ← blankRow_eq]

theorem scrollWrites_column (v : VGA) (n : Nat) :
    { v with column := n }.scrollWrites = v.scrollWrites := by
  unfold scrollWrites copyUpWrites blankRowWrites
  rfl

theorem newline_of_full (h : ¬ v.row < bufferHeight - 1) :
    v.newline = { v.stored v.scrollWrites with row := bufferHeight - 1, column := 0 } := by
  unfold newline
  rw [if_neg h, scroll_eq, scrollWrites_column]
  rfl

theorem cells_clear_eq (v : VGA) : v.clear.cells = store v.cells v.clearWrites := by
  rw [clear_eq]
  exact v.cells_stored v.clearWrites

theorem cells_newline (v : VGA) : v.newline.cells = store v.cells v.newlineWrites := by
  unfold newlineWrites
  split_ifs with hrow
  · rw [newline_of_room hrow, store_nil]
  · rw [newline_of_full hrow]
    exact v.cells_stored v.scrollWrites

theorem cells_putCharAt (v : VGA) (row col : Nat) (c : Char) :
    (v.putCharAt row col c).cells = store v.cells (v.putCharAtWrites row col c) := by
  unfold putCharAt putCharAtWrites
  split_ifs
  · rw [store_nil]
  · rw [writeCell_eq, cells_stored]

theorem cells_putChar (v : VGA) (c : Char) :
    (v.putChar c).cells = store v.cells (v.putCharWrites c) := by
  unfold putChar putCharWrites
  split_ifs
  · exact v.cells_newline
  · rw [store_append, ← cells_newline]
    exact v.newline.cells_putCharAt _ _ c
  · exact v.cells_putCharAt _ _ c

theorem cells_write (v : VGA) (text : Str) :
    (v.write text).cells = store v.cells (v.writeWrites text) := by
  induction text generalizing v with
  | nil =>
    rw [writeWrites, store_nil]
    rfl
  | cons c text ih =>
    rw [writeWrites, store_append, ← cells_putChar, ← ih]
    rfl

/-! ## Every write is inside the buffer -/

def Inside (writes : List (Nat × Cell)) : Prop :=
  ∀ w ∈ writes, w.1 < bufferHeight * bufferWidth

theorem inside_append {first second : List (Nat × Cell)} :
    Inside (first ++ second) ↔ Inside first ∧ Inside second := List.forall_mem_append

theorem inside_blankRow (v : VGA) {row : Nat} (hrow : row < bufferHeight) :
    Inside (v.blankRowWrites row) := fun _ hw => lt_of_mem_rowWrites hw hrow

theorem inside_clear (v : VGA) : Inside v.clearWrites := by
  intro w hw
  obtain ⟨row, hrow, hmem⟩ := List.mem_flatMap.mp hw
  exact v.inside_blankRow (List.mem_range.mp hrow) w hmem

theorem inside_scroll (v : VGA) : Inside v.scrollWrites := by
  refine inside_append.mpr ⟨fun w hw => ?_, v.inside_blankRow (by decide)⟩
  obtain ⟨row, hrow, hmem⟩ := List.mem_flatMap.mp hw
  obtain ⟨hpos, hlt⟩ := List.mem_range'_1.mp hrow
  unfold bufferHeight at hlt
  exact lt_of_mem_rowWrites hmem (show row - 1 < 25 by omega)

theorem inside_newline (v : VGA) : Inside v.newlineWrites := by
  unfold newlineWrites
  split_ifs
  · exact List.forall_mem_nil _
  · exact v.inside_scroll

theorem inside_putCharAt (v : VGA) (row col : Nat) (c : Char) :
    Inside (v.putCharAtWrites row col c) := by
  unfold putCharAtWrites
  split_ifs with hout
  · exact List.forall_mem_nil _
  · intro w hw
    obtain rfl := List.mem_singleton.mp hw
    unfold bufferHeight bufferWidth at *
    dsimp only
    omega

theorem inside_putChar (v : VGA) (c : Char) : Inside (v.putCharWrites c) := by
  unfold putCharWrites
  split_ifs
  · exact v.inside_newline
  · exact inside_append.mpr ⟨v.inside_newline, inside_putCharAt _ _ _ _⟩
  · exact inside_putCharAt _ _ _ _

theorem inside_write (v : VGA) (text : Str) : Inside (v.writeWrites text) := by
  induction text generalizing v with
  | nil => exact List.forall_mem_nil _
  | cons c text ih => exact inside_append.mpr ⟨v.inside_putChar c, ih (v.putChar c)⟩

theorem colorCode_newline (v : VGA) : v.newline.colorCode = v.colorCode := by
  by_cases hrow : v.row < bufferHeight - 1
  · rw [newline_of_room hrow]
    rfl
  · rw [newline_of_full hrow]
    rfl

theorem colorCode_putCharAt (v : VGA) (row col : Nat) (c : Char) :
    (v.putCharAt row col c).colorCode = v.colorCode := by
  unfold putCharAt
  split_ifs <;> rfl

theorem colorCode_putChar (v : VGA) (c : Char) : (v.putChar c).colorCode = v.colorCode := by
  unfold putChar
  split_ifs
  · exact v.colorCode_newline
  · exact (v.newline.colorCode_putCharAt _ _ c).trans v.colorCode_newline
  · exact v.colorCode_putCharAt _ _ c

theorem colorCode_write (v : VGA) (text : Str) : (v.write text).colorCode = v.colorCode := by
  induction text generalizing v with
  | nil => rfl
  | cons c text ih => exact (ih (v.putChar c)).trans (v.colorCode_putChar c)

theorem colorCode_clear (v : VGA) : v.clear.colorCode = v.colorCode := by
  rw [clear_eq]
  rfl

/-! ## The screen shows the layout -/

def textLayout (text : Str) : Rows Char := Rows.layout bufferWidth (· = '\n') text

def shown (v : VGA) (row : Str) (col : Nat) : Cell :=
  ⟨(row[col]?.map fun c => UInt8.ofNat c.toNat).getD blank, v.colorCode⟩

/-- The screen shows the last rows of `t`, and the cursor is at their end. -/
structure Shows (v : VGA) (t : Rows Char) : Prop where
  cells : ∀ row < bufferHeight, ∀ col < bufferWidth,
    v.cells (row * bufferWidth + col) = v.shown (t.rowAt (t.hidden bufferHeight + row)) col
  row : v.row = min t.above.length (bufferHeight - 1)
  column : v.column = t.last.length

variable {t : Rows Char}

theorem cells_clear (v : VGA) {row col : Nat} (hrow : row < bufferHeight)
    (hcol : col < bufferWidth) :
    v.clear.cells (row * bufferWidth + col) = ⟨blank, v.colorCode⟩ := by
  rw [cells_clear_eq]
  exact store_rows (fun row => row) (fun _ _ => Cell.mk blank v.colorCode) List.nodup_range
    (List.mem_range.mpr hrow) hcol

theorem cells_scroll (v : VGA) {row col : Nat} (hrow : row < bufferHeight)
    (hcol : col < bufferWidth) :
    store v.cells v.scrollWrites (row * bufferWidth + col) =
      if row < bufferHeight - 1 then v.cells ((row + 1) * bufferWidth + col)
      else ⟨blank, v.colorCode⟩ := by
  rw [scrollWrites, store_append, blankRowWrites]
  split_ifs with hlast
  · have hmem : row + 1 ∈ List.range' 1 (bufferHeight - 1) := List.mem_range'_1.mpr (by omega)
    have hrows : (List.range' 1 (bufferHeight - 1)).Pairwise fun i j => i - 1 ≠ j - 1 := by decide
    rw [store_rowWrites_of_ne hlast.ne hcol]
    have hcopied := store_rows (m := v.cells) (fun row => row - 1)
      (fun row col => v.cells (row * bufferWidth + col)) hrows hmem hcol
    rwa [Nat.add_sub_cancel] at hcopied
  · obtain rfl : row = bufferHeight - 1 := by omega
    exact store_rowWrites hcol

theorem shows_clear (v : VGA) : v.clear.Shows .empty := by
  refine ⟨fun row hrow col hcol => ?_, ?_, ?_⟩
  · rw [cells_clear v hrow hcol, Rows.rowAt_empty, shown, colorCode_clear]
    rfl
  · rw [clear_eq]
    rfl
  · rw [clear_eq]
    rfl

theorem Shows.newline (h : v.Shows t) : v.newline.Shows t.newRow := by
  have hrow := h.row
  by_cases hlast : v.row < bufferHeight - 1
  · have hfew : t.above.length + 1 < bufferHeight := by omega
    rw [newline_of_room hlast]
    refine ⟨fun row hr col hcol => ?_, ?_, rfl⟩
    · rw [Rows.hidden_newRow_of_lt hfew, Rows.rowAt_newRow]
      exact h.cells row hr col hcol
    · rw [Rows.above_newRow]
      dsimp only
      omega
  · have hmany : bufferHeight ≤ t.above.length + 1 := by omega
    rw [newline_of_full hlast]
    refine ⟨fun row hr col hcol => ?_, ?_, rfl⟩
    · rw [Rows.hidden_newRow_of_le hmany, Rows.rowAt_newRow]
      have hscroll := v.cells_scroll hr hcol
      -- a row moves up by one; the row below the text is blank
      split_ifs at hscroll with hup
      · rw [h.cells (row + 1) (by omega) col hcol, ← Nat.add_assoc, Nat.add_right_comm] at hscroll
        exact hscroll
      · have hbelow : t.rowAt (t.hidden bufferHeight + 1 + row) = [] := by
          refine Rows.rowAt_of_le ?_
          rw [Rows.hidden_eq]
          omega
        rw [hbelow]
        exact hscroll
    · rw [Rows.above_newRow]
      dsimp only
      omega

theorem getElem?_concat_ne {row : Str} {col : Nat} (h : col ≠ row.length) :
    (row ++ [c])[col]? = row[col]? := by
  rw [List.getElem?_append]
  split_ifs with hlt
  · rfl
  · rw [List.getElem?_eq_none (Nat.le_of_not_lt hlt), List.getElem?_eq_none]
    rw [List.length_singleton]
    omega

theorem position_inj {row row' col col' : Nat} (hcol : col < bufferWidth)
    (hcol' : col' < bufferWidth) :
    row * bufferWidth + col = row' * bufferWidth + col' ↔ row = row' ∧ col = col' := by
  unfold bufferWidth at *
  omega

theorem Shows.put (h : v.Shows t) (hroom : v.column < bufferWidth) :
    let w := v.putCharAt v.row v.column c
    Shows { w with column := w.column + 1 } (t.put c) := by
  have hrow := h.row
  have hheight : v.row < bufferHeight := by
    rw [bufferHeight] at *
    omega
  have hcursor : ∀ row < bufferHeight,
      t.hidden bufferHeight + row = t.above.length ↔ row = v.row := by
    intro row hr
    rw [Rows.hidden_eq]
    unfold bufferHeight at *
    omega
  rw [putCharAt_cursor hheight hroom]
  dsimp only
  refine ⟨fun row hr col hcol => ?_, hrow, ?_⟩
  · rw [Rows.hidden_put, Rows.rowAt_put, if_congr (hcursor row hr) rfl rfl]
    have hcells := h.cells row hr col hcol
    by_cases hat : row = v.row ∧ col = v.column
    · obtain ⟨rfl, rfl⟩ := hat
      have hlast : (t.last ++ [c])[v.column]? = some c := by
        rw [h.column, List.getElem?_concat_length]
      rw [if_pos rfl, shown, hlast]
      exact Function.update_self v.position _ v.cells
    · have hne : row * bufferWidth + col ≠ v.position :=
        fun heq => hat ((position_inj hcol hroom).mp heq)
      refine (Function.update_of_ne hne _ v.cells).trans (hcells.trans ?_)
      split_ifs with hr'
      · have hcol' : col ≠ t.last.length := fun heq => hat ⟨hr', heq.trans h.column.symm⟩
        rw [(hcursor row hr).mpr hr', Rows.rowAt_last, shown, shown, getElem?_concat_ne hcol']
        rfl
      · rfl
  · change v.column + 1 = (t.last ++ [c]).length
    rw [List.length_append, List.length_singleton, h.column]

theorem Shows.putChar (h : v.Shows t) (c : Char) :
    (v.putChar c).Shows (t.push bufferWidth (· = '\n') c) := by
  unfold VGA.putChar Rows.push
  rw [h.column]
  split_ifs with hbreak hfull
  · exact h.newline
  · refine h.newline.put ?_
    rw [h.newline.column]
    exact Nat.succ_pos 79
  · exact h.put (h.column.trans_lt (Nat.lt_of_not_le hfull))

theorem shows_write (v : VGA) (text : Str) : (v.clear.write text).Shows (textLayout text) := by
  induction text using List.reverseRecOn with
  | nil => exact v.shows_clear
  | append_singleton text c ih =>
    rw [write_concat, textLayout, Rows.layout_concat]
    exact ih.putChar c

/-- After `clear`, `write` shows the last 25 rows of the text laid out in rows of 80, with
the cursor at their end, and touches no byte outside the buffer. -/
theorem write_layout (v : VGA) (text : Str) :
    let w := v.clear.write text
    let rows := (textLayout text).toList
    let visible := rows.drop (rows.length - 25)
    let writes := v.clearWrites ++ v.clear.writeWrites text
    (∀ row < 25, ∀ col < 80, w.cells (row * 80 + col) =
        ⟨((visible[row]?.getD [])[col]?.map fun c => UInt8.ofNat c.toNat).getD blank,
          v.colorCode⟩) ∧
      w.row = min (rows.length - 1) 24 ∧ w.column = (textLayout text).last.length ∧
      w.cells = store v.cells writes ∧ ∀ x ∈ writes, x.1 < 25 * 80 := by
  have hshows := v.shows_write text
  have hcolor := (v.clear.colorCode_write text).trans v.colorCode_clear
  refine ⟨fun row hrow col hcol => ?_, ?_, hshows.column, ?_, ?_⟩
  · have hcells := hshows.cells row hrow col hcol
    rw [← Rows.getElem?_shown, shown, hcolor] at hcells
    exact hcells
  · rw [Rows.length_toList, Nat.add_sub_cancel]
    exact hshows.row
  · rw [store_append, ← cells_clear_eq, cells_write]
  · exact inside_append.mpr ⟨v.inside_clear, v.clear.inside_write text⟩

end AliluOS.VGA
