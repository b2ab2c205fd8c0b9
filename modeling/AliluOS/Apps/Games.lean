import AliluOS.Kernel.World

/-! The full-screen applications of `game.rs`: the drawing canvas, Breakout, and
two-player chess. -/

namespace AliluOS.Apps
open Text Kernel Lib Thread

def gameFile : Str := "src/game.rs"

def putRow (row col : Nat) (text : Str) : List VgaCall :=
  text.mapIdx fun i c => .putCharAt row (col + i) c

structure Canvas where
  cursorX : Fin 80
  cursorY : Fin 25
  grid : Fin 25 → Fin 80 → Char

def Canvas.new : Canvas := ⟨40, 12, fun _ _ => ' '⟩

def Canvas.render (c : Canvas) : List VgaCall :=
  (List.finRange 25).flatMap fun y : Fin 25 => (List.finRange 80).map fun x : Fin 80 =>
    VgaCall.putCharAt y.val x.val (if x = c.cursorX ∧ y = c.cursorY then '+' else c.grid y x)

def Canvas.plot (c : Canvas) (dot : Char) : Canvas :=
  { c with grid := fun y x => if x = c.cursorX ∧ y = c.cursorY then dot else c.grid y x }

def Canvas.key (c : Canvas) (scancode : UInt8) : Canvas :=
  if scancode = 0x48 then { c with cursorY := if c.cursorY > 0 then c.cursorY - 1 else c.cursorY }
  else if scancode = 0x50 then
    { c with cursorY := if c.cursorY < 24 then c.cursorY + 1 else c.cursorY }
  else if scancode = 0x4B then
    { c with cursorX := if c.cursorX > 0 then c.cursorX - 1 else c.cursorX }
  else if scancode = 0x4D then
    { c with cursorX := if c.cursorX < 79 then c.cursorX + 1 else c.cursorX }
  else if scancode = 0x39 then c.plot '*'
  else if scancode = 0x0E ∨ scancode = 0x12 then c.plot ' '
  else c

def startCanvas : KernelM Unit := do
  withLock .writer <| say [.clear, .setColor .white .black, .println "=== DRAWING CANVAS ===",
    .println "Use Arrow keys to move cursor.",
    .println "Space = Draw White Dot | Backspace/E = Erase | Escape = Exit",
    .println "Press any key to start..."]
  let _ ← readScancodeBlocking
  withLock .writer <| say [.clear]
  pollingLoop (fun canvas : Canvas => do
    withLock .writer <| say canvas.render
    let scancode ← readScancodeBlocking
    if scancode = 0x01 then return .inr () else return .inl (canvas.key scancode)) .new
  withLock .writer <| say [.clear]

structure Atari where
  paddleX : Nat
  ballX : Nat
  ballY : Nat
  ballDx : Int
  ballDy : Int
  score : Nat
  gameOver : Bool
  bricks : Nat → Bool

def Atari.new : Atari := ⟨35, 40, 15, 1, -1, 0, false, fun _ => true⟩

def paddleWidth : Nat := 10

def toUsize (i : Int) : Nat := (i % 2 ^ 64).toNat

def brickColor : Nat → Color
  | 0 => .red
  | 1 => .lightRed
  | 2 => .yellow
  | 3 => .green
  | _ => .cyan

def Atari.render (a : Atari) : List VgaCall :=
  [.clear] ++
    ((List.range 5).flatMap fun r =>
      .setColor (brickColor r) .black :: (List.range 10).flatMap fun c =>
        if a.bricks (r * 10 + c) then putRow (2 + r) (5 + c * 7) "======" else []) ++
    .setColor .lightBlue .black :: putRow 23 a.paddleX "==========" ++
    [.setColor .white .black, .putCharAt a.ballY a.ballX 'O'] ++ putRow 0 2 "SCORE:"

/-- It takes the lock of `WRITER` itself. Its array has room for ten digits. -/
def printNumAt (row col val : Nat) : KernelM Unit :=
  withLock .writer <|
    if 10 ^ 10 ≤ val then kernelPanic gameFile else say (putRow row col (decimal val))

/-- The guard of the frame is still alive when the score is printed. -/
def Atari.frame (a : Atari) : KernelM Unit :=
  withLock .writer do
    say a.render
    printNumAt 0 9 a.score

def Atari.steer (a : Atari) (code : UInt8) : Atari :=
  if code = 0x4B then { a with paddleX := if a.paddleX > 2 then a.paddleX - 3 else a.paddleX }
  else if code = 0x4D then
    { a with paddleX := if a.paddleX + paddleWidth < 78 then a.paddleX + 3 else a.paddleX }
  else a

def Atari.update (a : Atari) : Atari :=
  let nextX := toUsize (a.ballX + a.ballDx)
  let nextY := toUsize (a.ballY + a.ballDy)
  let a := if nextX ≤ 1 ∨ nextX ≥ 78 then { a with ballDx := -a.ballDx } else a
  let a :=
    if nextY ≤ 1 then { a with ballDy := -a.ballDy }
    else if nextY ≥ 23 then
      if nextX ≥ a.paddleX ∧ nextX ≤ a.paddleX + paddleWidth then { a with ballDy := -a.ballDy }
      else { a with gameOver := true }
    else a
  let a :=
    if nextY ≥ 2 ∧ nextY < 7 ∧ nextX ≥ 5 ∧ nextX < 75 then
      let r := nextY - 2
      let c := (nextX - 5) / 7
      if c < 10 ∧ a.bricks (r * 10 + c) then
        { a with
          bricks := Function.update a.bricks (r * 10 + c) false
          ballDy := -a.ballDy
          score := a.score + 10 }
      else a
    else a
  { a with ballX := toUsize (a.ballX + a.ballDx), ballY := toUsize (a.ballY + a.ballDy) }

def startAtari : KernelM Unit := do
  withLock .writer <| say [.clear, .setColor .white .black, .println "=== ATARI BREAKOUT ===",
    .println "Left/Right Arrow keys = Move Paddle", .println "Escape = Exit",
    .println "Press any key to start..."]
  let _ ← readScancodeBlocking
  withLock .writer <| say [.clear]
  pollingLoop (fun atari : Atari => do
    atari.frame
    if atari.gameOver then
      withLock .writer <| say (.setColor .lightRed .black :: putRow 12 33 "GAME OVER")
      return .inr ()
    else
      match ← pollScancode with
      | some code =>
        if code = 0x01 then return .inr () else return .inl (atari.steer code).update
      | none => return .inl atari.update) .new
  withLock .writer <| say [.clear]

inductive Piece
  | pawn | knight | bishop | rook | queen | king | empty
deriving DecidableEq

inductive ChessColor
  | white
  | black
deriving DecidableEq

structure ChessPiece where
  piece : Piece
  color : ChessColor
deriving DecidableEq

def ChessPiece.none : ChessPiece := ⟨.empty, .white⟩

def Piece.letters : Piece → Str
  | .pawn => "P "
  | .knight => "N "
  | .bishop => "B "
  | .rook => "R "
  | .queen => "Q "
  | .king => "K "
  | .empty => "--"

structure Chess where
  board : Fin 8 → Fin 8 → ChessPiece
  turn : ChessColor
  inputBuffer : Str

def backRow (col : Fin 8) : Piece :=
  [Piece.rook, .knight, .bishop, .queen, .king, .bishop, .knight, .rook].get col

def Chess.new : Chess where
  board row col :=
    if row = 0 then ⟨backRow col, .black⟩
    else if row = 1 then ⟨.pawn, .black⟩
    else if row = 6 then ⟨.pawn, .white⟩
    else if row = 7 then ⟨backRow col, .white⟩
    else .none
  turn := .white
  inputBuffer := []

def drawBoard (board : Fin 8 → Fin 8 → ChessPiece) : KernelM Unit :=
  withLock .writer <| say <|
    [.setColor .white .black, .putCharAt 1 8 'A', .putCharAt 1 13 'B', .putCharAt 1 18 'C',
      .putCharAt 1 23 'D', .putCharAt 1 28 'E', .putCharAt 1 33 'F', .putCharAt 1 38 'G',
      .putCharAt 1 43 'H'] ++
    (List.finRange 8).flatMap fun r =>
      [.setColor .white .black, .putCharAt (3 + r * 2) 2 (digitChar (8 - r))] ++
      (List.finRange 8).flatMap fun c =>
        let p := board r c
        .setColor (if p.color = .white then .white else .lightRed)
            (if (r.val + c.val) % 2 = 0 then .darkGray else .black) ::
          putRow (3 + r * 2) (6 + c * 5) (' ' :: p.piece.letters ++ [' '])

def Chess.status (g : Chess) : List VgaCall :=
  .setColor .lightCyan .black :: putRow 3 45 "TURN:" ++
    (if g.turn = .white then .setColor .white .black :: putRow 3 51 "White"
      else .setColor .lightGray .black :: putRow 3 51 "Black") ++
    .setColor .white .black :: putRow 20 2 "Your Move:" ++ [.putCharAt 20 13 ' '] ++
    putRow 20 14 g.inputBuffer

/-- `u8` subtraction, which panics below zero in the dev profile. -/
def subU8 (a b : Nat) : Option Nat := if b ≤ a then some (a - b) else none

def moveSquares : Str → Option (Nat × Nat × Nat × Nat)
  | [c₀, c₁, c₂, c₃] => do
    let startCol ← subU8 (c₀.toNat % 256) 'a'.toNat
    let startRow ← subU8 '8'.toNat (c₁.toNat % 256)
    let endCol ← subU8 (c₂.toNat % 256) 'a'.toNat
    let endRow ← subU8 '8'.toNat (c₃.toNat % 256)
    return (startCol, startRow, endCol, endRow)
  | _ => none

def ChessColor.other : ChessColor → ChessColor
  | .white => .black
  | .black => .white

def Chess.move (g : Chess) (startCol startRow endCol endRow : Nat) : Chess :=
  if h : startCol < 8 ∧ startRow < 8 ∧ endCol < 8 ∧ endRow < 8 then
    let selected := g.board ⟨startRow, h.2.1⟩ ⟨startCol, h.1⟩
    if selected.piece ≠ .empty ∧ selected.color = g.turn then
      let moved := Function.update g.board ⟨endRow, h.2.2.2⟩
        (Function.update (g.board ⟨endRow, h.2.2.2⟩) ⟨endCol, h.2.2.1⟩ selected)
      { g with
        board := Function.update moved ⟨startRow, h.2.1⟩
          (Function.update (moved ⟨startRow, h.2.1⟩) ⟨startCol, h.1⟩ .none)
        turn := g.turn.other }
    else g
  else g

def chessKeys : List (UInt8 × Char) :=
  [(0x1E, 'a'), (0x30, 'b'), (0x2E, 'c'), (0x20, 'd'), (0x12, 'e'), (0x21, 'f'), (0x22, 'g'),
    (0x23, 'h'), (0x02, '1'), (0x03, '2'), (0x04, '3'), (0x05, '4'), (0x06, '5'), (0x07, '6'),
    (0x08, '7'), (0x09, '8'), (0x0A, '9'), (0x0B, '0')]

def scancodeToChar (code : UInt8) : Option Char := chessKeys.lookup code

def Chess.enter (g : Chess) : KernelM (Chess ⊕ Unit) :=
  if g.inputBuffer = "exit".toList then return .inr ()
  else if utf8Len g.inputBuffer = 4 then
    match moveSquares g.inputBuffer with
    | some (startCol, startRow, endCol, endRow) =>
      return .inl { g.move startCol startRow endCol endRow with inputBuffer := [] }
    | none => kernelPanic gameFile
  else return .inl { g with inputBuffer := [] }

def Chess.key (g : Chess) (scancode : UInt8) : KernelM (Chess ⊕ Unit) :=
  if scancode = 0x01 then return .inr ()
  else if scancode = 0x1C then g.enter
  else if scancode = 0x0E then return .inl { g with inputBuffer := g.inputBuffer.dropLast }
  else
    match scancodeToChar scancode with
    | some c =>
      if utf8Len g.inputBuffer < 10 then return .inl { g with inputBuffer := g.inputBuffer ++ [c] }
      else return .inl g
    | none => return .inl g

def startChess : KernelM Unit := do
  withLock .writer <| say [.clear, .setColor .white .black, .println "=== CHESS ===",
    .println "Two-Player mode.",
    .println "Move inputs are algebraic coordinates (e.g., 'e2e4' or 'b1c3').",
    .println "Type 'exit' to quit back to shell.", .println "Press any key to start..."]
  let _ ← readScancodeBlocking
  pollingLoop (fun g : Chess => do
    withLock .writer <| say [.clear]
    drawBoard g.board
    withLock .writer <| say g.status
    let scancode ← readScancodeBlocking
    g.key scancode) .new
  withLock .writer <| say [.clear]

end AliluOS.Apps
