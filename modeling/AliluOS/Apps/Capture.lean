import AliluOS.Apps.Chess
import AliluOS.Lib.Run
import AliluOS.Lib.Tally
import Mathlib.Data.Fintype.Prod

/-! What chess moves do to the pieces of the two colours. -/

namespace AliluOS.Apps
open Text Kernel Lib

abbrev Square := Fin 8 × Fin 8

def ChessPiece.man (p : ChessPiece) (color : ChessColor) : Multiset Piece :=
  if p.piece ≠ .empty ∧ p.color = color then {p.piece} else 0

namespace Chess

variable {g g' : Chess} {code : UInt8} {color : ChessColor} {s e : Square}
  {tr : List (Chess × UInt8)}

def pieces (g : Chess) (color : ChessColor) : Multiset Piece :=
  tally fun sq : Square => (g.board sq.1 sq.2).man color

def accepted (g : Chess) (code : UInt8) : Option (Square × Square) :=
  if code = 0x1C ∧ utf8Len g.inputBuffer = 4 then
    match moveSquares g.inputBuffer with
    | some (startCol, startRow, endCol, endRow) =>
      if h : (startCol < 8 ∧ startRow < 8) ∧ endCol < 8 ∧ endRow < 8 then
        let selected := g.board ⟨startRow, h.1.2⟩ ⟨startCol, h.1.1⟩
        if selected.piece ≠ .empty ∧ selected.color = g.turn then
          some ((⟨startRow, h.1.2⟩, ⟨startCol, h.1.1⟩), ⟨endRow, h.2.2⟩, ⟨endCol, h.2.1⟩)
        else none
      else none
    | none => none
  else none

structure Moved (g : Chess) (s e : Square) (g' : Chess) : Prop where
  piece : (g.board s.1 s.2).piece ≠ .empty
  color : (g.board s.1 s.2).color = g.turn
  turn : g'.turn = g.turn.other
  board : ∀ sq : Square, g'.board sq.1 sq.2 =
    if sq = s then .none else if sq = e then g.board s.1 s.2 else g.board sq.1 sq.2

def Effect (g g' : Chess) : Option (Square × Square) → Prop
  | some (s, e) => g.Moved s e g'
  | none => g'.board = g.board ∧ g'.turn = g.turn

theorem update_square (board : Fin 8 → Fin 8 → ChessPiece) (place : Square) (p : ChessPiece)
    (sq : Square) :
    Function.update board place.1 (Function.update (board place.1) place.2 p) sq.1 sq.2 =
      if sq = place then p else board sq.1 sq.2 := by
  by_cases hrow : sq.1 = place.1
  · rw [hrow, Function.update_self]
    by_cases hcol : sq.2 = place.2
    · rw [hcol, Function.update_self, if_pos (Prod.ext hrow hcol)]
    · rw [Function.update_of_ne hcol, if_neg (fun h => hcol (congrArg Prod.snd h))]
  · rw [Function.update_of_ne hrow, if_neg (fun h => hrow (congrArg Prod.fst h))]

theorem effect_enterMove (hfour : utf8Len g.inputBuffer = 4) (h : g.enterMove = some g') :
    g.Effect g' (g.accepted 0x1C) := by
  rw [enterMove] at h
  rcases hsquares : moveSquares g.inputBuffer with _ | ⟨startCol, startRow, endCol, endRow⟩ <;>
    rw [hsquares] at h
  · cases h
  obtain rfl := Option.some.inj h
  rw [accepted, if_pos ⟨rfl, hfour⟩, hsquares]
  dsimp only
  unfold move
  by_cases hon : startCol < 8 ∧ startRow < 8 ∧ endCol < 8 ∧ endRow < 8
  · rw [dif_pos hon, dif_pos (and_assoc.mpr hon)]
    dsimp only
    split_ifs with hown
    · refine ⟨hown.1, hown.2, rfl, fun sq => ?_⟩
      -- the second assignment decides where both are to the same square
      have hclear := update_square (Function.update g.board ⟨endRow, hon.2.2.2⟩ (Function.update
        (g.board ⟨endRow, hon.2.2.2⟩) ⟨endCol, hon.2.2.1⟩ (g.board ⟨startRow, hon.2.1⟩
          ⟨startCol, hon.1⟩))) (⟨startRow, hon.2.1⟩, ⟨startCol, hon.1⟩) .none sq
      have harrive := update_square g.board (⟨endRow, hon.2.2.2⟩, ⟨endCol, hon.2.2.1⟩)
        (g.board ⟨startRow, hon.2.1⟩ ⟨startCol, hon.1⟩) sq
      exact hclear.trans (if_congr Iff.rfl rfl harrive)
    · exact ⟨rfl, rfl⟩
  · rw [dif_neg hon, dif_neg (mt and_assoc.mp hon)]
    exact ⟨rfl, rfl⟩

theorem effect_next (h : g.next code = some (.inl g')) : g.Effect g' (g.accepted code) := by
  unfold next at h
  split_ifs at h with hescape henter hexit hfour
  · cases h
  · cases h
  · subst henter
    rcases hmove : g.enterMove with _ | g'' <;> rw [hmove] at h
    · cases h
    · obtain rfl := Sum.inl.inj (Option.some.inj h)
      exact effect_enterMove hfour hmove
  · obtain rfl := Sum.inl.inj (Option.some.inj h)
    rw [accepted, if_neg (fun h => hfour h.2)]
    exact ⟨rfl, rfl⟩
  · obtain rfl := Sum.inl.inj (Option.some.inj h)
    rw [accepted, if_neg (fun h => henter h.1)]
    exact ⟨rfl, rfl⟩

/-- What a scancode takes off the board. -/
def destroyed (g : Chess) (code : UInt8) (color : ChessColor) : Multiset Piece :=
  match g.accepted code with
  | some (_, e) => (g.board e.1 e.2).man color
  | none => 0

theorem pieces_moved (h : g.Moved s e g') (color : ChessColor) :
    g'.pieces color + (g.board e.1 e.2).man color = g.pieces color := by
  have hmove := tally_move (fun sq : Square => (g.board sq.1 sq.2).man color) s e
  have hafter : (fun sq : Square => (g'.board sq.1 sq.2).man color) =
      Function.update (Function.update (fun sq : Square => (g.board sq.1 sq.2).man color) e
        ((g.board s.1 s.2).man color)) s 0 := by
    funext sq
    rw [h.board, Function.update_apply, Function.update_apply]
    split_ifs <;> rfl
  rw [pieces, hafter]
  exact hmove

theorem pieces_next (h : g.next code = some (.inl g')) (color : ChessColor) :
    g'.pieces color + g.destroyed code color = g.pieces color := by
  have heffect := effect_next h
  unfold destroyed
  rcases haccepted : g.accepted code with _ | ⟨s, e⟩ <;> rw [haccepted] at heffect
  · obtain ⟨hboard, -⟩ := heffect
    rw [pieces, pieces, hboard]
    exact add_zero _
  · exact pieces_moved heffect color

def Step (g : Chess) (code : UInt8) (g' : Chess) : Prop := g.next code = some (.inl g')

def Captures (g : Chess) (code : UInt8) (g' : Chess) : Prop :=
  g'.turn ≠ g.turn → g'.pieces g.turn = g.pieces g.turn ∧ ∃ s e, g.accepted code = some (s, e) ∧
    g'.pieces g.turn.other + (g.board e.1 e.2).man g.turn.other = g.pieces g.turn.other

/-- The destination of a move holds no piece of the mover. -/
def SparesOwn (g : Chess) (code : UInt8) : Prop :=
  ∀ s e, g.accepted code = some (s, e) →
    ¬ ((g.board e.1 e.2).piece ≠ .empty ∧ (g.board e.1 e.2).color = g.turn)

def taken (g : Chess) (code : UInt8) (color : ChessColor) : Multiset Piece :=
  if g.turn = color then 0 else g.destroyed code color

theorem man_eq_zero {p : ChessPiece} :
    p.man color = 0 ↔ ¬ (p.piece ≠ .empty ∧ p.color = color) := by
  unfold ChessPiece.man
  split_ifs with hown
  · exact iff_of_false (Multiset.singleton_ne_zero _) (not_not_intro hown)
  · exact iff_of_true rfl hown

theorem destroyed_eq_zero : g.destroyed code g.turn = 0 ↔ g.SparesOwn code := by
  unfold destroyed SparesOwn
  rcases g.accepted code with _ | ⟨s, e⟩
  · simp
  · dsimp only
    rw [man_eq_zero]
    constructor
    · rintro hspared s' e' heq
      obtain ⟨rfl, rfl⟩ := Prod.mk.inj (Option.some.inj heq)
      exact hspared
    · exact fun hspared => hspared s e rfl

theorem turn_of_accepted (h : g.Step code g') (haccepted : g.accepted code = some (s, e)) :
    g'.turn ≠ g.turn := by
  have heffect := effect_next h
  rw [haccepted] at heffect
  rw [heffect.turn]
  rcases g.turn <;> decide

theorem accepted_of_turn (h : g.Step code g') (hturn : g'.turn ≠ g.turn) :
    ∃ s e, g.accepted code = some (s, e) := by
  have heffect := effect_next h
  rcases haccepted : g.accepted code with _ | ⟨s, e⟩
  · rw [haccepted] at heffect
    exact absurd heffect.2 hturn
  · exact ⟨s, e, rfl⟩

theorem pieces_mover_iff (h : g.Step code g') :
    g'.pieces g.turn = g.pieces g.turn ↔ g.SparesOwn code := by
  rw [← destroyed_eq_zero, ← pieces_next h g.turn]
  exact left_eq_add

theorem captures_iff (h : g.Step code g') : g.Captures code g' ↔ g.SparesOwn code := by
  constructor
  · intro hcaptures s e haccepted
    have hkept := (hcaptures (turn_of_accepted h haccepted)).1
    exact (pieces_mover_iff h).mp hkept s e haccepted
  · intro hspared hturn
    obtain ⟨s, e, haccepted⟩ := accepted_of_turn h hturn
    have hother := pieces_next h g.turn.other
    rw [destroyed, haccepted] at hother
    exact ⟨(pieces_mover_iff h).mpr hspared, s, e, haccepted, hother⟩

theorem pieces_run (h : Run Step Chess.new tr g) (color : ChessColor) :
    g.pieces color + (tr.map fun x => x.1.destroyed x.2 color).sum = Chess.new.pieces color := by
  induction h with
  | nil => exact add_zero _
  | cons _ hs ih => rw [List.map_cons, List.sum_cons, ← add_assoc, pieces_next hs, ih]

/-- A game in which no move has a piece of the mover on its destination is one where
pieces leave the board by capture alone. -/
theorem conserved_iff (h : Run Step Chess.new tr g) :
    ((∀ x ∈ tr, ∀ g', x.1.Step x.2 g' → x.1.Captures x.2 g') ∧ ∀ color,
        g.pieces color + (tr.map fun x => x.1.taken x.2 color).sum = Chess.new.pieces color) ↔
      Guarded SparesOwn tr := by
  constructor
  · rintro ⟨hcaptures, -⟩ x hx
    obtain ⟨g', hs⟩ := h.exists_step x hx
    exact (captures_iff hs).mp (hcaptures x hx g' hs)
  · intro hspared
    refine ⟨fun x hx g' hs => (captures_iff hs).mpr (hspared x hx), fun color => ?_⟩
    have htaken : ∀ x ∈ tr, x.1.taken x.2 color = x.1.destroyed x.2 color := by
      intro x hx
      unfold taken
      split_ifs with hturn
      · rw [← hturn]
        exact (destroyed_eq_zero.mpr (hspared x hx)).symm
      · rfl
    rw [List.map_congr_left htaken]
    exact pieces_run h color

theorem run_of_rounds {g₀ g₁ : Chess} {codes : List UInt8} (hr : Run Step g₀ tr g₁)
    (h : rounds next g₁ codes = some (.inl g)) :
    ∃ tr', Run Step g₀ tr' g ∧
      tr'.reverse.map Prod.snd = tr.reverse.map Prod.snd ++ codes := by
  induction codes generalizing tr g₁ with
  | nil =>
    obtain rfl := Sum.inl.inj (Option.some.inj h)
    exact ⟨tr, hr, by simp⟩
  | cons code codes ih =>
    rw [rounds] at h
    rcases hnext : g₁.next code with _ | g₂ | _ <;> rw [hnext] at h
    · cases h
    · obtain ⟨tr', hr', hcodes⟩ := ih (hr.cons hnext) h
      exact ⟨tr', hr', by simp [hcodes]⟩
    · cases h

theorem conserved_pawn : ∃ tr g, Run Step Chess.new tr g ∧
    tr.reverse.map Prod.snd = [0x12, 0x03, 0x12, 0x05, 0x1C] ∧
    (((∀ x ∈ tr, ∀ g', x.1.Step x.2 g' → x.1.Captures x.2 g') ∧ ∀ color,
        g.pieces color + (tr.map fun x => x.1.taken x.2 color).sum = Chess.new.pieces color) ↔
      Guarded SparesOwn tr) := by
  have hrounds : ∃ g, rounds next Chess.new [0x12, 0x03, 0x12, 0x05, 0x1C] = some (.inl g) :=
    ⟨_, rfl⟩
  obtain ⟨g, hg⟩ := hrounds
  obtain ⟨tr, hr, hcodes⟩ := run_of_rounds .nil hg
  exact ⟨tr, g, hr, hcodes, conserved_iff hr⟩

/-- `e2e2` passes the turn and takes the pawn off the board. -/
theorem destroys_own : ∃ g g', rounds next Chess.new [0x12, 0x03, 0x12, 0x03] = some (.inl g) ∧
    g.Step 0x1C g' ∧ g'.turn ≠ g.turn ∧ g'.pieces g.turn ≠ g.pieces g.turn := by
  have hstart : ∃ g, rounds next Chess.new [0x12, 0x03, 0x12, 0x03] = some (.inl g) ∧
      (∃ g', g.Step 0x1C g') ∧ g.accepted 0x1C = some ((6, 4), 6, 4) ∧
      (g.board 6 4).piece ≠ .empty ∧ (g.board 6 4).color = g.turn := by
    refine ⟨_, rfl, ⟨_, rfl⟩, rfl, by decide, rfl⟩
  obtain ⟨g, hrounds, ⟨g', hs⟩, haccepted, hown⟩ := hstart
  refine ⟨g, g', hrounds, hs, turn_of_accepted hs haccepted, fun hsame => ?_⟩
  exact (pieces_mover_iff hs).mp hsame _ _ haccepted hown

end Chess

end AliluOS.Apps
