import AliluOS.Apps.Capture
import AliluOS.Vga.Painting

/-! What the canvas and the chess board show: each frame can be read back from video
memory. -/

namespace AliluOS.Apps
open Text Kernel Lib Thread Painting

/-! ## Texts put in a row -/

theorem putRow_cons (row col : Nat) (c : Char) (text : Str) :
    putRow row col (c :: text) = .putCharAt row col c :: putRow row (col + 1) text := by
  simp [putRow, List.mapIdx_cons, Nat.add_assoc, Nat.add_comm 1]

theorem places_putRow (row col : Nat) (text : Str) :
    places (putRow row col text) = (List.range' col text.length).map fun k => (row, k) := by
  induction text generalizing col with
  | nil => rfl
  | cons c text ih =>
    rw [putRow_cons, List.length_cons, List.range'_succ, List.map_cons, ← ih]
    rfl

theorem mem_dots_putRow {row col i : Nat} {text : Str} {c : Char} (color : UInt8)
    (h : text[i]? = some c) :
    ((row, col + i), ⟨UInt8.ofNat c.toNat, color⟩) ∈ dots color (putRow row col text) := by
  induction text generalizing col i with
  | nil => simp at h
  | cons d text ih =>
    rw [putRow_cons, dots]
    cases i with
    | zero =>
      obtain rfl : d = c := by simpa using h
      exact List.mem_cons_self
    | succ i =>
      have hrest : ((row, col + 1 + i), ⟨UInt8.ofNat c.toNat, color⟩) ∈
          dots color (putRow row (col + 1) text) := ih (by simpa using h)
      rw [Nat.add_right_comm] at hrest
      exact List.mem_cons_of_mem _ hrest

theorem paints_putRow (row col : Nat) (text : Str) : ∀ c ∈ putRow row col text, Paints c := by
  intro c hc
  obtain ⟨i, hi, rfl⟩ := List.mem_mapIdx.mp hc
  trivial

/-! ## Chess -/

namespace Chess

def squareCalls (board : Fin 8 → Fin 8 → ChessPiece) (r c : Fin 8) : List VgaCall :=
  let p := board r c
  .setColor (if p.color = .white then .white else .lightRed)
      (if (r.val + c.val) % 2 = 0 then .darkGray else .black) ::
    putRow (3 + r * 2) (6 + c * 5) (' ' :: p.piece.letters ++ [' '])

def rowCalls (board : Fin 8 → Fin 8 → ChessPiece) (r : Fin 8) : List VgaCall :=
  [.setColor .white .black, .putCharAt (3 + r * 2) 2 (digitChar (8 - r))] ++
    (List.finRange 8).flatMap (squareCalls board r)

def boardCalls (board : Fin 8 → Fin 8 → ChessPiece) : List VgaCall :=
  [.setColor .white .black, .putCharAt 1 8 'A', .putCharAt 1 13 'B', .putCharAt 1 18 'C',
    .putCharAt 1 23 'D', .putCharAt 1 28 'E', .putCharAt 1 33 'F', .putCharAt 1 38 'G',
    .putCharAt 1 43 'H'] ++ (List.finRange 8).flatMap (rowCalls board)

/-- All that is painted between two scancodes. -/
def frame (g : Chess) : List VgaCall := boardCalls g.board ++ g.status

theorem drawBoard_eq (board : Fin 8 → Fin 8 → ChessPiece) :
    drawBoard board = withLock .writer (say (boardCalls board)) := rfl

theorem wp_round {g : Chess} {m : Held Lock World} {P : Post Lock Halt World (Chess ⊕ Unit)}
    (hm : m.locks = []) :
    wp g.round m P ↔ wp (do let scancode ← readScancodeBlocking; g.key scancode)
      ⟨[], { m.state with console := m.state.console ++ .clear :: g.frame }⟩ P := by
  rw [round, wp_say_bind hm, drawBoard_eq, wp_say_bind rfl, wp_say_bind rfl]
  simp [frame]

def framePlaces (n : Nat) : List (Nat × Nat) :=
  [(1, 8), (1, 13), (1, 18), (1, 23), (1, 28), (1, 33), (1, 38), (1, 43)] ++
    ((List.finRange 8).flatMap fun r => (3 + r.val * 2, 2) ::
      (List.finRange 8).flatMap fun c =>
        (List.range' (6 + c.val * 5) 4).map fun k => (3 + r.val * 2, k)) ++
    (List.range' 45 5).map (fun k => (3, k)) ++ (List.range' 51 5).map (fun k => (3, k)) ++
    (List.range' 2 10).map (fun k => (20, k)) ++ [(20, 13)] ++
    (List.range' 14 n).map fun k => (20, k)

theorem places_squareCalls (board : Fin 8 → Fin 8 → ChessPiece) (r c : Fin 8) :
    places (squareCalls board r c) =
      (List.range' (6 + c.val * 5) 4).map fun k => (3 + r.val * 2, k) := by
  have hlength : (' ' :: (board r c).piece.letters ++ [' ']).length = 4 := by
    cases (board r c).piece <;> rfl
  have hrow := places_putRow (3 + r * 2) (6 + c * 5) (' ' :: (board r c).piece.letters ++ [' '])
  rw [hlength] at hrow
  exact hrow

theorem places_boardCalls (board : Fin 8 → Fin 8 → ChessPiece) :
    places (boardCalls board) =
      [(1, 8), (1, 13), (1, 18), (1, 23), (1, 28), (1, 33), (1, 38), (1, 43)] ++
        (List.finRange 8).flatMap fun r => (3 + r.val * 2, 2) ::
          (List.finRange 8).flatMap fun c =>
            (List.range' (6 + c.val * 5) 4).map fun k => (3 + r.val * 2, k) := by
  rw [boardCalls, places_append, places_flatMap]
  refine congrArg (_ ++ ·) (congrArg (List.flatMap · _) (funext fun r => ?_))
  rw [rowCalls, places_append, places_flatMap]
  exact congrArg (_ :: ·) (congrArg (List.flatMap · _) (funext (places_squareCalls board r)))

theorem places_frame (g : Chess) : places g.frame = framePlaces g.inputBuffer.length := by
  have hturn : places (if g.turn = .white then .setColor .white .black :: putRow 3 51 "White"
      else .setColor .lightGray .black :: putRow 3 51 "Black") =
        (List.range' 51 5).map fun k => (3, k) := by
    split_ifs <;> rw [places_setColor, places_putRow] <;> rfl
  rw [frame, places_append, places_boardCalls, framePlaces, status]
  simp only [places_append, places_setColor, places_putRow, places_putCharAt, places_nil, hturn,
    List.cons_append, List.append_assoc]
  rfl

theorem framePlaces_append {n : Nat} (hn : n ≤ 10) : framePlaces 10 =
    framePlaces n ++ (List.range' (14 + n) (10 - n)).map fun k => (20, k) := by
  have hrange : List.range' 14 10 = List.range' 14 n ++ List.range' (14 + n) (10 - n) := by
    rw [List.range'_append_1, Nat.add_sub_cancel' hn]
  rw [framePlaces, framePlaces, hrange, List.map_append, ← List.append_assoc]

/-- No place of a frame is painted twice, and none of the longest one is painted behind a
shorter input. -/
theorem nodup_framePlaces {n : Nat} (hn : n ≤ 10) : (framePlaces n).Nodup ∧
    (framePlaces n).Disjoint ((List.range' (14 + n) (10 - n)).map fun k => (20, k)) := by
  have hfresh : fresh 0 ((framePlaces 10).map fun p => p.1 * VGA.bufferWidth + p.2) = true := by
    decide +kernel
  have hall : (framePlaces 10).Nodup := .of_map _ (nodup_of_fresh hfresh).1
  rw [framePlaces_append hn, List.nodup_append'] at hall
  exact ⟨hall.1, hall.2.2⟩

theorem paints_boardCalls (board : Fin 8 → Fin 8 → ChessPiece) :
    ∀ call ∈ boardCalls board, Paints call := by
  refine List.forall_mem_append.mpr ⟨by decide, fun call hcall => ?_⟩
  obtain ⟨r, -, hr⟩ := List.mem_flatMap.mp hcall
  rcases List.mem_append.mp hr with hlabel | hsquares
  · simp only [List.mem_cons, List.not_mem_nil, or_false] at hlabel
    rcases hlabel with rfl | rfl <;> trivial
  · obtain ⟨c, -, hc⟩ := List.mem_flatMap.mp hsquares
    rcases List.mem_cons.mp hc with rfl | hput
    · trivial
    · exact paints_putRow _ _ _ _ hput

theorem paints_frame (g : Chess) : ∀ call ∈ g.frame, Paints call := by
  refine List.forall_mem_append.mpr ⟨paints_boardCalls g.board, ?_⟩
  have hturn : ∀ call ∈ (if g.turn = .white then .setColor .white .black :: putRow 3 51 "White"
      else .setColor .lightGray .black :: putRow 3 51 "Black"), Paints call := by
    split_ifs <;> exact List.forall_mem_cons.mpr ⟨trivial, paints_putRow _ _ _⟩
  unfold status
  simp only [List.forall_mem_append, List.forall_mem_cons]
  exact ⟨⟨⟨⟨⟨trivial, paints_putRow _ _ _⟩, hturn⟩, trivial, paints_putRow _ _ _⟩, trivial,
    by simp⟩, paints_putRow _ _ _⟩

/-! ### Reading a frame -/

def pieceOf (byte : UInt8) : Piece :=
  if byte = 80 then .pawn else if byte = 78 then .knight else if byte = 66 then .bishop
  else if byte = 82 then .rook else if byte = 81 then .queen else if byte = 75 then .king
  else .empty

/-- The letter of a piece is behind a blank; white pieces are white. -/
def readSquare (v : VGA) (r c : Fin 8) : ChessPiece :=
  let cell := v.cells ((3 + r * 2) * VGA.bufferWidth + (6 + c * 5 + 1))
  ⟨pieceOf cell.byte, if cell.color &&& 0x0F = Color.white.code then .white else .black⟩

def readTurn (v : VGA) : ChessColor :=
  if (v.cells (3 * VGA.bufferWidth + 51)).byte = 87 then .white else .black

def readInput (v : VGA) : Str :=
  (((List.range 10).map fun i => (v.cells (20 * VGA.bufferWidth + (14 + i))).byte).takeWhile
    (· ≠ VGA.blank)).map fun byte => Char.ofNat byte.toNat

def read (v : VGA) : Chess := ⟨readSquare v, readTurn v, readInput v⟩

structure Shows (g : Chess) : Prop where
  typable : ∀ c ∈ g.inputBuffer, Typable c
  length : g.inputBuffer.length ≤ 10

variable {g g' : Chess} {code : UInt8}

theorem cells_frame (hg : g.Shows) (v : VGA) {row col : Nat} {x : Cell}
    (hrow : row < VGA.bufferHeight) (hcol : col < VGA.bufferWidth)
    (hmem : ((row, col), x) ∈ dots v.clear.colorCode g.frame) :
    (v.perform (.clear :: g.frame)).cells (row * VGA.bufferWidth + col) = x := by
  rw [perform_cons]
  refine cells_of_mem g.paints_frame ?_ hmem hrow hcol
  rw [places_frame]
  exact (nodup_framePlaces hg.length).1

theorem mem_dots_board (color : UInt8) (board : Fin 8 → Fin 8 → ChessPiece) (r c : Fin 8)
    {p : (Nat × Nat) × Cell} (h : ∀ color, p ∈ dots color (squareCalls board r c)) :
    p ∈ dots color (boardCalls board) := by
  refine mem_dots_append_right fun color => mem_dots_flatMap (List.mem_finRange r) fun color => ?_
  exact mem_dots_append_right fun color => mem_dots_flatMap (List.mem_finRange c) h

def squareColor (p : ChessPiece) (r c : Fin 8) : UInt8 :=
  recolor 0 (.setColor (if p.color = .white then .white else .lightRed)
    (if (r.val + c.val) % 2 = 0 then .darkGray else .black))

theorem mem_dots_letter (color : UInt8) (board : Fin 8 → Fin 8 → ChessPiece) (r c : Fin 8) :
    ((3 + r.val * 2, 6 + c.val * 5 + 1),
      Cell.mk (UInt8.ofNat ((board r c).piece.letters.headD ' ').toNat)
        (squareColor (board r c) r c)) ∈ dots color (squareCalls board r c) := by
  have hletter : (' ' :: (board r c).piece.letters ++ [' '])[1]? =
      some ((board r c).piece.letters.headD ' ') := by
    cases (board r c).piece <;> rfl
  exact mem_dots_putRow (squareColor (board r c) r c) hletter

theorem pieceOf_letters (p : Piece) :
    pieceOf (UInt8.ofNat (p.letters.headD ' ').toNat) = p := by
  cases p <;> rfl

theorem squareColor_white (p : ChessPiece) (r c : Fin 8) :
    squareColor p r c &&& 0x0F = Color.white.code ↔ p.color = .white := by
  unfold squareColor
  rcases p with ⟨piece, _ | _⟩
  · refine iff_of_true ?_ rfl
    simp only [if_true]
    split_ifs <;> decide
  · refine iff_of_false ?_ (by simp)
    simp only [reduceCtorEq, if_false]
    split_ifs <;> decide

theorem readSquare_frame (hg : g.Shows) (v : VGA) (r c : Fin 8) :
    readSquare (v.perform (.clear :: g.frame)) r c = g.board r c := by
  have hrow : 3 + r.val * 2 < VGA.bufferHeight := by
    unfold VGA.bufferHeight
    omega
  have hcol : 6 + c.val * 5 + 1 < VGA.bufferWidth := by
    unfold VGA.bufferWidth
    omega
  have hcell := cells_frame hg v hrow hcol (mem_dots_append_left
    (mem_dots_board _ g.board r c fun color => mem_dots_letter color g.board r c))
  rw [readSquare, hcell, pieceOf_letters, if_congr (squareColor_white _ r c) rfl rfl]
  obtain ⟨piece, color⟩ := g.board r c
  cases color <;> rfl

theorem mem_dots_turn {fg : Color} {c : Char} {text : Str} (color : UInt8)
    (hc : text[0]? = some c) : ((3, 51), ⟨UInt8.ofNat c.toNat, recolor 0 (.setColor fg .black)⟩) ∈
      dots color (.setColor fg .black :: putRow 3 51 text) := mem_dots_putRow _ hc

theorem readTurn_frame (hg : g.Shows) (v : VGA) :
    readTurn (v.perform (.clear :: g.frame)) = g.turn := by
  obtain ⟨board, turn, input⟩ := g
  have hrow : 3 < VGA.bufferHeight := by decide
  have hcol : 51 < VGA.bufferWidth := by decide
  have hcell : ∀ x, (∀ color, ((3, 51), x) ∈ dots color
      (if turn = .white then .setColor .white .black :: putRow 3 51 "White"
        else .setColor .lightGray .black :: putRow 3 51 "Black")) →
      (v.perform (.clear :: frame ⟨board, turn, input⟩)).cells (3 * VGA.bufferWidth + 51) = x :=
    fun x hx => cells_frame hg v hrow hcol (mem_dots_append_right fun color =>
      mem_dots_append_left <| mem_dots_append_left <| mem_dots_append_left <|
        mem_dots_append_right hx)
  cases turn with
  | white =>
    rw [readTurn, hcell _ fun color => mem_dots_turn (c := 'W') color rfl]
    rfl
  | black =>
    rw [readTurn, hcell _ fun color => mem_dots_turn (c := 'B') color rfl]
    rfl

theorem byte_input (hg : g.Shows) (v : VGA) {i : Nat} (hi : i < 10) :
    ((v.perform (.clear :: g.frame)).cells (20 * VGA.bufferWidth + (14 + i))).byte =
      (g.inputBuffer[i]?.map fun c => UInt8.ofNat c.toNat).getD VGA.blank := by
  have hrow : 20 < VGA.bufferHeight := by decide
  have hcol : 14 + i < VGA.bufferWidth := by
    unfold VGA.bufferWidth
    omega
  cases hc : g.inputBuffer[i]? with
  | some c =>
    have hcell := cells_frame hg v hrow hcol (x := ⟨UInt8.ofNat c.toNat, _⟩) (by
      rw [frame, status, ← List.append_assoc, dots_append]
      exact List.mem_append_right _ (mem_dots_putRow _ hc))
    rw [hcell]
    rfl
  | none =>
    have hlength := List.getElem?_eq_none_iff.mp hc
    have hnot : (20, 14 + i) ∉ places g.frame := by
      rw [places_frame]
      refine fun hin => (nodup_framePlaces hg.length).2 hin (List.mem_map_of_mem ?_)
      exact List.mem_range'_1.mpr (by omega)
    rw [perform_cons, cells_of_notMem g.paints_frame hcol hnot]
    exact congrArg Cell.byte (VGA.cells_clear v hrow hcol)

theorem ofNat_byte {c : Char} (hc : Typable c) :
    Char.ofNat (UInt8.ofNat c.toNat).toNat = c ∧ UInt8.ofNat c.toNat ≠ VGA.blank := by
  have hall : ∀ c ∈ chessKeys.map Prod.snd,
      Char.ofNat (UInt8.ofNat c.toNat).toNat = c ∧ UInt8.ofNat c.toNat ≠ VGA.blank := by decide
  exact hall c hc

theorem readInput_frame (hg : g.Shows) (v : VGA) :
    readInput (v.perform (.clear :: g.frame)) = g.inputBuffer := by
  have hlength := hg.length
  have hbytes : ((List.range 10).map fun i => ((v.perform (.clear :: g.frame)).cells
      (20 * VGA.bufferWidth + (14 + i))).byte) =
        (g.inputBuffer.map fun c => UInt8.ofNat c.toNat) ++
          List.replicate (10 - g.inputBuffer.length) VGA.blank := by
    refine List.ext_getElem (by simp [Nat.add_sub_cancel' hlength]) fun i hi _ => ?_
    rw [List.getElem_map, List.getElem_range, byte_input hg v (by simpa using hi),
      List.getElem_append]
    split_ifs with hlt
    · rw [List.getElem?_eq_getElem (by simpa using hlt), List.getElem_map]
      rfl
    · rw [List.getElem?_eq_none (by simpa using hlt), List.getElem_replicate]
      rfl
  have hblanks : (List.replicate (10 - g.inputBuffer.length) VGA.blank).takeWhile
      (fun byte => decide (byte ≠ VGA.blank)) = [] := by simp
  have htyped : ∀ byte ∈ g.inputBuffer.map (fun c => UInt8.ofNat c.toNat),
      decide (byte ≠ VGA.blank) = true := by
    intro byte hbyte
    obtain ⟨c, hc, rfl⟩ := List.mem_map.mp hbyte
    exact decide_eq_true (ofNat_byte (hg.typable c hc)).2
  rw [readInput, hbytes, List.takeWhile_append_of_pos htyped, hblanks, List.append_nil,
    List.map_map]
  refine (List.map_congr_left fun c hc => ?_).trans (List.map_id _)
  exact (ofNat_byte (hg.typable c hc)).1

theorem read_frame (hg : g.Shows) (v : VGA) : read (v.perform (.clear :: g.frame)) = g := by
  have hboard : readSquare (v.perform (.clear :: g.frame)) = g.board :=
    funext fun r => funext fun c => readSquare_frame hg v r c
  rw [read, hboard, readTurn_frame hg, readInput_frame hg]

/-! ### Games -/

theorem length_typeKey {buffer : Str} (h : ∀ c ∈ buffer, Typable c) (hlength : buffer.length ≤ 10)
    (scancode : UInt8) : (typeKey buffer scancode).length ≤ 10 := by
  unfold typeKey
  by_cases hback : scancode = 0x0E
  · rw [if_pos hback]
    exact (List.dropLast_sublist _).length_le.trans hlength
  rw [if_neg hback, utf8Len_of_typable h]
  rcases scancodeToChar scancode with _ | c
  · exact hlength
  · dsimp only
    split_ifs with hroom
    · rw [List.length_append, List.length_singleton]
      exact hroom
    · exact hlength

theorem shows_next (hg : g.Shows) (h : g.next code = some (.inl g')) : g'.Shows := by
  have hempty : ∀ g'' : Chess, g''.inputBuffer = [] → g''.Shows := fun g'' hnil =>
    ⟨by simp [hnil], by simp [hnil]⟩
  unfold next at h
  split_ifs at h with hescape henter hexit hfour
  · cases h
  · cases h
  · obtain ⟨g'', hmove, heq⟩ := Option.map_eq_some_iff.mp h
    obtain rfl := Sum.inl.inj heq
    obtain ⟨squares, -, hmove⟩ := Option.bind_eq_some_iff.mp hmove
    obtain rfl := Option.some.inj hmove
    exact hempty _ rfl
  · obtain rfl := Sum.inl.inj (Option.some.inj h)
    exact hempty _ rfl
  · obtain rfl := Sum.inl.inj (Option.some.inj h)
    exact ⟨typable_typeKey hg.typable code, length_typeKey hg.typable hg.length code⟩

/-- In every game, whatever was on the screen before: a round paints a frame that the game
can be read back from, board, turn and input, before it reads a scancode. -/
theorem frame_shows_game {tr : List (Chess × UInt8)} (hrun : Run Step Chess.new tr g) (v : VGA) :
    read (v.perform (.clear :: g.frame)) = g ∧
      ∀ (m : Held Lock World) (P : Post Lock Halt World (Chess ⊕ Unit)), m.locks = [] →
        (wp g.round m P ↔ wp (do let scancode ← readScancodeBlocking; g.key scancode)
          ⟨[], { m.state with console := m.state.console ++ .clear :: g.frame }⟩ P) := by
  have hshows : g.Shows :=
    hrun.invariant ⟨by simp [Chess.new], by simp [Chess.new]⟩ fun _ _ _ hg hs => shows_next hg hs
  exact ⟨read_frame hshows v, fun m P hm => wp_round hm⟩

theorem frame_shows_game_pawn : ∃ tr g, Run Step Chess.new tr g ∧ g.turn = .black ∧
    read ((VGA.new fun _ => ⟨0, 0⟩).perform (.clear :: g.frame)) = g := by
  obtain ⟨g, hg, hturn⟩ : ∃ g,
      rounds next Chess.new [0x12, 0x03, 0x12, 0x05, 0x1C] = some (.inl g) ∧ g.turn = .black :=
    ⟨_, rfl, rfl⟩
  obtain ⟨tr, hrun, -⟩ := run_of_rounds .nil hg
  exact ⟨tr, g, hrun, hturn, (frame_shows_game hrun _).1⟩

end Chess

/-! ## Canvas -/

namespace Canvas

def Step (c : Canvas) (scancode : UInt8) (c' : Canvas) : Prop :=
  scancode ≠ 0x01 ∧ c' = c.key scancode

def dotOf (scancode : UInt8) : Option Char :=
  if scancode = 0x39 then some '*'
  else if scancode = 0x0E ∨ scancode = 0x12 then some ' '
  else none

/-- The last character left at a place, the newest scancode first in the list. -/
def lastDot (y : Fin 25) (x : Fin 80) : List (Canvas × UInt8) → Option Char
  | [] => none
  | (c, scancode) :: tr =>
    if x = c.cursorX ∧ y = c.cursorY then (dotOf scancode).or (lastDot y x tr)
    else lastDot y x tr

variable {c c' : Canvas} {tr : List (Canvas × UInt8)} {y : Fin 25} {x : Fin 80}

theorem grid_key_of_none {scancode : UInt8} (h : dotOf scancode = none) :
    (c.key scancode).grid = c.grid := by
  unfold dotOf at h
  split_ifs at h with hspace herase
  unfold key
  rw [if_neg hspace, if_neg herase]
  split_ifs <;> rfl

theorem grid_key (c : Canvas) (scancode : UInt8) : (c.key scancode).grid y x =
    if x = c.cursorX ∧ y = c.cursorY then (dotOf scancode).getD (c.grid y x) else c.grid y x := by
  by_cases hspace : scancode = 0x39
  · subst hspace
    rfl
  by_cases herase : scancode = 0x0E ∨ scancode = 0x12
  · rcases herase with rfl | rfl <;> rfl
  · have hnone : dotOf scancode = none := by rw [dotOf, if_neg hspace, if_neg herase]
    rw [grid_key_of_none hnone, hnone, Option.getD_none, ite_self]

theorem grid_run (hrun : Run Step .new tr c) : c.grid y x = (lastDot y x tr).getD ' ' := by
  induction hrun with
  | nil => rfl
  | @cons tr c c' scancode _ hs ih =>
    obtain ⟨-, rfl⟩ := hs
    rw [grid_key, lastDot, ih]
    split_ifs
    · cases dotOf scancode <;> rfl
    · rfl

theorem puts_render (c : Canvas) : ∀ call ∈ c.render, ∃ r k d, call = .putCharAt r k d := by
  intro call hcall
  obtain ⟨y, -, hy⟩ := List.mem_flatMap.mp hcall
  obtain ⟨x, -, rfl⟩ := List.mem_map.mp hy
  exact ⟨_, _, _, rfl⟩

theorem places_render (c : Canvas) : places c.render =
    (List.finRange 25).flatMap fun y => (List.finRange 80).map fun x => (y.val, x.val) := by
  rw [render, places_flatMap]
  refine congrArg (List.flatMap · _) (funext fun y => ?_)
  rw [places, List.filterMap_map, ← List.filterMap_eq_map]
  rfl

theorem nodup_render (c : Canvas) : (places c.render).Nodup := by
  rw [places_render, List.nodup_flatMap]
  refine ⟨fun y _ => (List.nodup_finRange 80).map fun x x' h => Fin.ext (Prod.mk.inj h).2, ?_⟩
  refine (List.nodup_finRange 25).imp fun {y y'} hne => ?_
  rintro p hp hp'
  obtain ⟨x, -, rfl⟩ := List.mem_map.mp hp
  obtain ⟨x', -, heq⟩ := List.mem_map.mp hp'
  exact hne (Fin.ext (Prod.mk.inj heq).1.symm)

/-- Every frame of the canvas shows, in the colour set before and over all 25 rows of 80, the
cursor, and elsewhere the last dot left at the place and not erased. -/
theorem canvas_shows_dots (hrun : Run Step .new tr c) (v : VGA) (y : Fin 25) (x : Fin 80) :
    (v.perform c.render).cells (y.val * 80 + x.val) =
      ⟨UInt8.ofNat (if x = c.cursorX ∧ y = c.cursorY then '+'
        else (lastDot y x tr).getD ' ').toNat, v.colorCode⟩ := by
  rw [← grid_run hrun]
  have hpaints : ∀ call ∈ c.render, Paints call := by
    intro call hcall
    obtain ⟨r, k, d, rfl⟩ := c.puts_render call hcall
    trivial
  have hput : VgaCall.putCharAt y.val x.val
      (if x = c.cursorX ∧ y = c.cursorY then '+' else c.grid y x) ∈ c.render :=
    List.mem_flatMap.mpr ⟨y, List.mem_finRange y, List.mem_map.mpr ⟨x, List.mem_finRange x, rfl⟩⟩
  have hdot := mem_dots_puts v.colorCode c.puts_render hput
  have hrow : y.val < VGA.bufferHeight := y.isLt
  have hcol : x.val < VGA.bufferWidth := x.isLt
  have hcell := cells_of_mem hpaints c.nodup_render hdot hrow hcol
  rw [VGA.bufferWidth] at hcell
  exact hcell

theorem canvas_shows_dots_one : ∃ tr c, Run Step .new tr c ∧
    ((VGA.new fun _ => ⟨0, 0⟩).perform c.render).cells 1000 = ⟨42, 15⟩ := by
  have hdraw : Step .new 0x39 _ := ⟨by decide, rfl⟩
  have hright : Step (Canvas.new.key 0x39) 0x4D _ := ⟨by decide, rfl⟩
  have hrun := (Run.nil.cons hdraw).cons hright
  have hcell := canvas_shows_dots hrun (VGA.new fun _ => ⟨0, 0⟩) 12 40
  rw [show (12 : Fin 25).val * 80 + (40 : Fin 80).val = 1000 from rfl] at hcell
  exact ⟨_, _, hrun, hcell.trans rfl⟩

end Canvas

end AliluOS.Apps
