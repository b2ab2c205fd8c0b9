import AliluOS.Apps.Games
import AliluOS.Lib.Run
import Mathlib.Data.Finset.Card

/-! The frames of Breakout: ball and paddle stay in the playfield. -/

namespace AliluOS.Apps.Atari
open Kernel Lib

def polled (a : Atari) : Option UInt8 → Atari
  | some code => a.steer code
  | none => a

/-- A round of the loop of `start_atari`, rendering and locks set aside: the game is not
over, and Escape was not pressed. -/
def Frame (a : Atari) (poll : Option UInt8) (a' : Atari) : Prop :=
  a.gameOver = false ∧ poll ≠ some 0x01 ∧ a' = (a.polled poll).update

def nextX (a : Atari) : Nat := toUsize (a.ballX + a.ballDx)

def nextY (a : Atari) : Nat := toUsize (a.ballY + a.ballDy)

def walls (a : Atari) (nextX : Nat) : Atari :=
  if nextX ≤ 1 ∨ nextX ≥ 78 then { a with ballDx := -a.ballDx } else a

def bounce (a : Atari) (nextX nextY : Nat) : Atari :=
  if nextY ≤ 1 then { a with ballDy := -a.ballDy }
  else if nextY ≥ 23 then
    if nextX ≥ a.paddleX ∧ nextX ≤ a.paddleX + paddleWidth then { a with ballDy := -a.ballDy }
    else { a with gameOver := true }
  else a

def hit (a : Atari) (nextX nextY : Nat) : Atari :=
  if nextY ≥ 2 ∧ nextY < 7 ∧ nextX ≥ 5 ∧ nextX < 75 then
    let r := nextY - 2
    let c := (nextX - 5) / 7
    if c < 10 ∧ a.bricks (r * 10 + c) then
      { a with
        bricks := Function.update a.bricks (r * 10 + c) false
        ballDy := -a.ballDy
        score := a.score + 10 }
    else a
  else a

def brickIndex (nextX nextY : Nat) : Option Nat :=
  if nextY ≥ 2 ∧ nextY < 7 ∧ nextX ≥ 5 ∧ nextX < 75 ∧ (nextX - 5) / 7 < 10 then
    some ((nextY - 2) * 10 + (nextX - 5) / 7)
  else none

def turned (a : Atari) : Atari :=
  ((a.walls a.nextX).bounce a.nextX a.nextY).hit a.nextX a.nextY

theorem update_eq (a : Atari) :
    a.update = { a.turned with
      ballX := toUsize (a.turned.ballX + a.turned.ballDx)
      ballY := toUsize (a.turned.ballY + a.turned.ballDy) } := rfl

/-- The numbers that a frame converts from `isize` to `usize`. -/
def conversions (a : Atari) : List Int :=
  [a.ballX + a.ballDx, a.ballY + a.ballDy, a.turned.ballX + a.turned.ballDx,
    a.turned.ballY + a.turned.ballDy]

def destroyed (a : Atari) : Finset Nat := (Finset.range 50).filter fun i => a.bricks i = false

variable {a a' : Atari} {poll : Option UInt8} {tr : List (Atari × Option UInt8)}

theorem toUsize_of_nonneg {i : Int} (h : 0 ≤ i) (hlt : i < 2 ^ 64) : (toUsize i : Int) = i := by
  unfold toUsize
  rw [Int.emod_eq_of_lt h hlt, Int.toNat_of_nonneg h]

theorem brickIndex_lt {nextX nextY i : Nat} (h : brickIndex nextX nextY = some i) : i < 50 := by
  unfold brickIndex at h
  split_ifs at h
  obtain rfl := Option.some.inj h
  omega

theorem brickIndex_row {nextX nextY i : Nat} (h : brickIndex nextX nextY = some i) :
    2 ≤ nextY ∧ nextY < 7 := by
  unfold brickIndex at h
  split_ifs at h with hrange
  exact ⟨hrange.1, hrange.2.1⟩

theorem hit_eq (a : Atari) (nextX nextY : Nat) :
    a.hit nextX nextY =
      match brickIndex nextX nextY with
      | some i =>
        if a.bricks i then
          { a with
            bricks := Function.update a.bricks i false
            ballDy := -a.ballDy
            score := a.score + 10 }
        else a
      | none => a := by
  unfold hit brickIndex
  by_cases hrange : nextY ≥ 2 ∧ nextY < 7 ∧ nextX ≥ 5 ∧ nextX < 75
  · have hcol : (nextX - 5) / 7 < 10 := by omega
    have hread : nextY ≥ 2 ∧ nextY < 7 ∧ nextX ≥ 5 ∧ nextX < 75 ∧ (nextX - 5) / 7 < 10 :=
      ⟨hrange.1, hrange.2.1, hrange.2.2.1, hrange.2.2.2, hcol⟩
    rw [if_pos hrange, if_pos hread]
    simp only [hcol, true_and]
  · rw [if_neg hrange, if_neg]
    rintro ⟨htop, hbottom, hleft, hright, -⟩
    exact hrange ⟨htop, hbottom, hleft, hright⟩

theorem hit_cases (a : Atari) (nextX nextY : Nat) :
    a.hit nextX nextY = a ∨ ∃ i, brickIndex nextX nextY = some i ∧ a.bricks i = true ∧
      a.hit nextX nextY = { a with
        bricks := Function.update a.bricks i false
        ballDy := -a.ballDy
        score := a.score + 10 } := by
  rw [hit_eq]
  rcases brickIndex nextX nextY with _ | i
  · exact .inl rfl
  · by_cases hbrick : a.bricks i
    · exact .inr ⟨i, rfl, hbrick, if_pos hbrick⟩
    · exact .inl (if_neg hbrick)

theorem destroyed_update {i : Nat} (hi : i < 50) :
    destroyed { a with bricks := Function.update a.bricks i false } = insert i a.destroyed := by
  ext j
  rcases eq_or_ne j i with rfl | hne
  · simp [destroyed, hi]
  · simp [destroyed, hne]

theorem card_destroyed_update {i : Nat} (hi : i < 50) (hbrick : a.bricks i = true) :
    (destroyed { a with bricks := Function.update a.bricks i false }).card =
      a.destroyed.card + 1 := by
  have hnew : i ∉ a.destroyed := by simp [destroyed, hbrick]
  rw [destroyed_update hi, Finset.card_insert_of_notMem hnew]

structure Sound (a : Atari) : Prop where
  dx : a.ballDx = 1 ∨ a.ballDx = -1
  dy : a.ballDy = 1 ∨ a.ballDy = -1
  paddle : 2 ≤ a.paddleX ∧ a.paddleX ≤ 68 ∧ a.paddleX % 3 = 2
  score : a.score = 10 * a.destroyed.card

/-- The ball is between the walls. In the top row it is on its way up: it never turns
round below that row without leaving it. -/
structure InPlay (a : Atari) : Prop where
  x : 2 ≤ a.ballX ∧ a.ballX ≤ 77
  y : 2 ≤ a.ballY ∧ a.ballY ≤ 22
  rising : a.ballY = 2 → a.ballDy = -1

theorem sound_steer (h : a.Sound) (code : UInt8) : (a.steer code).Sound := by
  obtain ⟨hdx, hdy, hpaddle, hscore⟩ := h
  unfold steer paddleWidth
  split_ifs
  · exact ⟨hdx, hdy, by dsimp only; omega, hscore⟩
  · exact ⟨hdx, hdy, hpaddle, hscore⟩
  · exact ⟨hdx, hdy, by dsimp only; omega, hscore⟩
  · exact ⟨hdx, hdy, hpaddle, hscore⟩
  · exact ⟨hdx, hdy, hpaddle, hscore⟩

theorem sound_polled (h : a.Sound) (poll : Option UInt8) : (a.polled poll).Sound := by
  cases poll with
  | none => exact h
  | some code => exact sound_steer h code

theorem sound_flipX (h : a.Sound) : Sound { a with ballDx := -a.ballDx } := by
  have hdx := h.dx
  exact ⟨by dsimp only; omega, h.dy, h.paddle, h.score⟩

theorem sound_flipY (h : a.Sound) : Sound { a with ballDy := -a.ballDy } := by
  have hdy := h.dy
  exact ⟨h.dx, by dsimp only; omega, h.paddle, h.score⟩

theorem sound_walls (h : a.Sound) (nextX : Nat) : (a.walls nextX).Sound := by
  unfold walls
  split_ifs
  · exact sound_flipX h
  · exact h

theorem sound_bounce (h : a.Sound) (nextX nextY : Nat) : (a.bounce nextX nextY).Sound := by
  unfold bounce
  split_ifs
  · exact sound_flipY h
  · exact sound_flipY h
  · exact ⟨h.dx, h.dy, h.paddle, h.score⟩
  · exact h

theorem sound_hit (h : a.Sound) (nextX nextY : Nat) : (a.hit nextX nextY).Sound := by
  rcases a.hit_cases nextX nextY with heq | ⟨i, hi, hbrick, heq⟩ <;> rw [heq]
  · exact h
  · have hflip := sound_flipY h
    refine ⟨hflip.dx, hflip.dy, hflip.paddle, ?_⟩
    change a.score + 10 = 10 * (destroyed { a with bricks := _ }).card
    rw [card_destroyed_update (brickIndex_lt hi) hbrick, h.score, Nat.mul_add]

theorem sound_turned (h : a.Sound) : a.turned.Sound :=
  sound_hit (sound_bounce (sound_walls h _) _ _) _ _

theorem sound_frame (h : a.Sound) (hframe : a.Frame poll a') : a'.Sound := by
  obtain ⟨-, -, rfl⟩ := hframe
  have hturned := sound_turned (sound_polled h poll)
  exact ⟨hturned.dx, hturned.dy, hturned.paddle, hturned.score⟩

theorem inPlay_polled (h : a.InPlay) (poll : Option UInt8) : (a.polled poll).InPlay := by
  cases poll with
  | none => exact h
  | some code =>
    unfold polled steer
    dsimp only
    split_ifs <;> exact ⟨h.x, h.y, h.rising⟩

structure Turns (a b : Atari) (nextY : Nat) : Prop where
  x : b.ballX = a.ballX
  y : b.ballY = a.ballY
  dx : b.ballDx = a.ballDx
  dy : b.ballDy = -a.ballDy ∧ (nextY ≤ 1 ∨ 23 ≤ nextY) ∨
    (b.ballDy = a.ballDy ∨ b.ballDy = -a.ballDy) ∧ 2 ≤ nextY ∧ nextY < 7 ∨
    b.ballDy = a.ballDy ∧ 2 ≤ nextY ∧ (nextY < 23 ∨ b.gameOver = true)

theorem turns_bounce (a : Atari) (nextX nextY : Nat) :
    a.Turns (a.bounce nextX nextY) nextY := by
  unfold bounce
  split_ifs with htop hbottom hpaddle
  · exact ⟨rfl, rfl, rfl, .inl ⟨rfl, .inl htop⟩⟩
  · exact ⟨rfl, rfl, rfl, .inl ⟨rfl, .inr hbottom⟩⟩
  · exact ⟨rfl, rfl, rfl, .inr (.inr ⟨rfl, Nat.lt_of_not_le htop, .inr rfl⟩)⟩
  · exact ⟨rfl, rfl, rfl,
      .inr (.inr ⟨rfl, Nat.lt_of_not_le htop, .inl (Nat.lt_of_not_le hbottom)⟩)⟩

theorem turns_hit (a : Atari) (nextX nextY : Nat) :
    a.Turns ((a.bounce nextX nextY).hit nextX nextY) nextY := by
  have hbounce := a.turns_bounce nextX nextY
  rcases (a.bounce nextX nextY).hit_cases nextX nextY with heq | ⟨i, hi, hbrick, heq⟩ <;> rw [heq]
  · exact hbounce
  · obtain ⟨htop, hbottom⟩ := brickIndex_row hi
    have hdy := hbounce.dy
    refine ⟨hbounce.x, hbounce.y, hbounce.dx, .inr (.inl ⟨?_, htop, hbottom⟩)⟩
    dsimp only
    omega

theorem walls_eq (a : Atari) (nextX : Nat) : a.walls nextX =
    { a with ballDx := if nextX ≤ 1 ∨ nextX ≥ 78 then -a.ballDx else a.ballDx } := by
  unfold walls
  split_ifs <;> rfl

theorem turns_turned (a : Atari) :
    Turns { a with ballDx := if a.nextX ≤ 1 ∨ a.nextX ≥ 78 then -a.ballDx else a.ballDx }
      a.turned a.nextY := by
  rw [← walls_eq]
  exact turns_hit _ _ _

theorem conversions_nonneg (hs : a.Sound) (h : a.InPlay) : ∀ i ∈ a.conversions, 0 ≤ i := by
  have hx : a.turned.ballX = a.ballX := a.turns_turned.x
  have hy : a.turned.ballY = a.ballY := a.turns_turned.y
  obtain ⟨hdx', hdy', -, -⟩ := sound_turned hs
  obtain ⟨hdx, hdy, -, -⟩ := hs
  obtain ⟨⟨hleft, -⟩, ⟨htop, -⟩, -⟩ := h
  unfold conversions
  rw [hx, hy]
  simp only [List.forall_mem_cons]
  exact ⟨by omega, by omega, by omega, by omega, List.forall_mem_nil _⟩

theorem inPlay_update (hs : a.Sound) (h : a.InPlay) (hlive : a.update.gameOver = false) :
    a.update.InPlay := by
  have hx : a.turned.ballX = a.ballX := a.turns_turned.x
  have hy : a.turned.ballY = a.ballY := a.turns_turned.y
  have hdx : a.turned.ballDx =
    if a.nextX ≤ 1 ∨ a.nextX ≥ 78 then -a.ballDx else a.ballDx := a.turns_turned.dx
  have hturn := a.turns_turned.dy
  have hover : a.turned.gameOver = false := hlive
  simp only [hover, Bool.false_eq_true, or_false] at hturn
  obtain ⟨⟨hleft, hright⟩, ⟨htop, hbottom⟩, hrising⟩ := h
  obtain ⟨hdx₁, hdy₁, -, -⟩ := sound_turned hs
  obtain ⟨hdx₀, hdy₀, -, -⟩ := hs
  have hnextX : (a.nextX : Int) = a.ballX + a.ballDx := toUsize_of_nonneg (by omega) (by omega)
  have hnextY : (a.nextY : Int) = a.ballY + a.ballDy := toUsize_of_nonneg (by omega) (by omega)
  have hballX : (a.update.ballX : Int) = a.ballX + a.turned.ballDx := by
    rw [update_eq, hx]
    exact toUsize_of_nonneg (by omega) (by omega)
  have hballY : (a.update.ballY : Int) = a.ballY + a.turned.ballDy := by
    rw [update_eq, hy]
    exact toUsize_of_nonneg (by omega) (by omega)
  refine ⟨?_, ?_, ?_⟩
  · split_ifs at hdx <;> omega
  · omega
  · change _ → a.turned.ballDy = -1
    omega

structure Good (a : Atari) : Prop where
  sound : a.Sound
  inPlay : a.gameOver = false → a.InPlay

theorem good_new : Good .new := by
  refine ⟨⟨.inl rfl, .inr rfl, by decide, rfl⟩, fun _ => ⟨by decide, by decide, by decide⟩⟩

theorem good_frame (h : a.Good) (hframe : a.Frame poll a') : a'.Good := by
  refine ⟨sound_frame h.sound hframe, fun hlive => ?_⟩
  obtain ⟨hplaying, -, rfl⟩ := hframe
  exact inPlay_update (sound_polled h.sound poll) (inPlay_polled (h.inPlay hplaying) poll) hlive

theorem good_run (h : Run Frame Atari.new tr a) : Always Good tr a :=
  h.always_of_guarded (C := fun _ _ => True) good_new (fun _ _ _ hg _ hs => good_frame hg hs)
    fun _ _ => trivial

/-- Ball, paddle and score after any number of frames, and the arithmetic of each frame. -/
theorem playfield (h : Run Frame Atari.new tr a) :
    (a.gameOver = false → (2 ≤ a.ballX ∧ a.ballX ≤ 77) ∧ (1 ≤ a.ballY ∧ a.ballY ≤ 22) ∧
        2 ≤ a.paddleX ∧ a.paddleX ≤ 68) ∧
      (a.ballDx = -1 ∨ a.ballDx = 1) ∧ (a.ballDy = -1 ∨ a.ballDy = 1) ∧
      a.score = 10 * a.destroyed.card ∧
      ∀ x ∈ tr, (∀ i ∈ (x.1.polled x.2).conversions, 0 ≤ i) ∧
        ∀ i, brickIndex (x.1.polled x.2).nextX (x.1.polled x.2).nextY = some i → i < 50 := by
  obtain ⟨hlast, hall⟩ := good_run h
  obtain ⟨hdx, hdy, ⟨hleft, hright, -⟩, hscore⟩ := hlast.sound
  refine ⟨fun hlive => ?_, hdx.symm, hdy.symm, hscore, ?_⟩
  · obtain ⟨hx, hy, -⟩ := hlast.inPlay hlive
    exact ⟨hx, ⟨Nat.le_of_succ_le hy.1, hy.2⟩, hleft, hright⟩
  · intro x hx
    obtain ⟨_, hlive, -, -⟩ := h.exists_step x hx
    have hgood := hall x hx
    have hsound := sound_polled hgood.sound x.2
    have hplay := inPlay_polled (hgood.inPlay hlive) x.2
    exact ⟨conversions_nonneg hsound hplay, fun i hi => brickIndex_lt hi⟩

theorem playfield_two_frames :
    ∃ a, Run Frame Atari.new [(Atari.new.update, some 0x4D), (Atari.new, none)] a ∧
      a.paddleX = 38 ∧ a.ballX = 42 ∧ a.ballY = 13 ∧ a.score = 10 * a.destroyed.card := by
  have hfirst : Frame Atari.new none Atari.new.update := ⟨rfl, by decide, rfl⟩
  have hsecond : Frame Atari.new.update (some 0x4D) (Atari.new.update.steer 0x4D).update :=
    ⟨rfl, by decide, rfl⟩
  have h := (Run.nil.cons hfirst).cons hsecond
  exact ⟨_, h, by decide, by decide, by decide, (playfield h).2.2.2.1⟩

end AliluOS.Apps.Atari
