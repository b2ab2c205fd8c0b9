import AliluOS.Apps.Games
import AliluOS.Kernel.Polling

/-! Chess over every sequence of scancodes: what reaches the input buffer, and when the
arithmetic on it panics. -/

namespace AliluOS.Apps
open Text Fs Kernel Lib Thread

namespace Chess

def typeKey (buffer : Str) (scancode : UInt8) : Str :=
  if scancode = 0x0E then buffer.dropLast
  else
    match scancodeToChar scancode with
    | some c => if utf8Len buffer < 10 then buffer ++ [c] else buffer
    | none => buffer

def enterMove (g : Chess) : Option Chess := do
  let (startCol, startRow, endCol, endRow) ← moveSquares g.inputBuffer
  return { g.move startCol startRow endCol endRow with inputBuffer := [] }

def next (g : Chess) (scancode : UInt8) : Option (Chess ⊕ Unit) :=
  if scancode = 0x01 then some (.inr ())
  else if scancode = 0x1C then
    if g.inputBuffer = "exit".toList then some (.inr ())
    else if utf8Len g.inputBuffer = 4 then g.enterMove.map .inl
    else some (.inl { g with inputBuffer := [] })
  else some (.inl { g with inputBuffer := typeKey g.inputBuffer scancode })

theorem next_enter (g : Chess) :
    g.next 0x1C =
      if g.inputBuffer = "exit".toList then some (.inr ())
      else if utf8Len g.inputBuffer = 4 then g.enterMove.map .inl
      else some (.inl { g with inputBuffer := [] }) := rfl

theorem enter_eq (g : Chess) :
    g.enter = match g.next 0x1C with
      | some r => pure r
      | none => kernelPanic gameFile := by
  rw [enter, next_enter]
  by_cases hexit : g.inputBuffer = "exit".toList
  · rw [if_pos hexit, if_pos hexit]
  rw [if_neg hexit, if_neg hexit]
  by_cases hfour : utf8Len g.inputBuffer = 4
  · rw [if_pos hfour, if_pos hfour, enterMove]
    rcases moveSquares g.inputBuffer with _ | ⟨startCol, startRow, endCol, endRow⟩ <;> rfl
  · rw [if_neg hfour, if_neg hfour]

theorem key_eq (g : Chess) (scancode : UInt8) :
    g.key scancode = match g.next scancode with
      | some r => pure r
      | none => kernelPanic gameFile := by
  by_cases hescape : scancode = 0x01
  · rw [key, next, if_pos hescape, if_pos hescape]
  by_cases henter : scancode = 0x1C
  · rw [key, if_neg hescape, if_pos henter, henter]
    exact g.enter_eq
  rw [key, next, if_neg hescape, if_neg henter, if_neg hescape, if_neg henter, typeKey]
  by_cases hback : scancode = 0x0E
  · rw [if_pos hback, if_pos hback]
  rw [if_neg hback, if_neg hback]
  rcases scancodeToChar scancode with _ | c
  · rfl
  · by_cases hroom : utf8Len g.inputBuffer < 10
    · simp only [if_pos hroom]
    · simp only [if_neg hroom]

def round (g : Chess) : KernelM (Chess ⊕ Unit) := do
  withLock .writer <| say [.clear]
  drawBoard g.board
  withLock .writer <| say g.status
  let scancode ← readScancodeBlocking
  g.key scancode

theorem takesScancode_round : TakesScancode next round := by
  intro g m hm P h
  rw [round, wp_say_bind hm, drawBoard, wp_say_bind rfl, wp_say_bind rfl, wp_bind,
    wp_readScancodeBlocking rfl]
  unfold AfterScancode at h ⊢
  dsimp only
  rcases hpolls : nextScancode m.state.polls with _ | ⟨code, rest⟩ <;> rw [hpolls] at h
  · exact h
  · dsimp only at h ⊢
    rw [key_eq]
    rcases hnext : g.next code with _ | r <;> rw [hnext] at h
    · exact (wp_kernelPanic rfl).mpr h
    · exact (wp_pure r).mpr (h _ rfl rfl)

end Chess

theorem wp_startChess {m : Held Lock World} (hm : m.locks = []) :
    wp startChess m (endsAs (rounds Chess.next Chess.new
      (m.state.polls.filterMap Poll.scancode).tail)) := by
  rw [startChess, wp_say_bind hm, wp_bind, wp_readScancodeBlocking rfl]
  unfold AfterScancode
  dsimp only
  rcases hnext : nextScancode m.state.polls with _ | ⟨code, rest⟩
  · rw [scancodes_of_none hnext]
    exact ⟨Chess.new, rfl⟩
  · rw [(scancodes_of_some hnext).1, List.tail_cons]
    dsimp only
    rw [wp_bind]
    refine wp_mono (wp_scancodeLoop Chess.takesScancode_round rfl Chess.new)
      (fun a m' ⟨hend, hlocks⟩ => ?_) (fun _ => id) fun _ => id
    change wp (withLock .writer (say [.clear])) m' _
    rw [wp_withLock, if_neg (by simp [hlocks]), wp_say]
    exact ⟨hend, by simp [hlocks]⟩

theorem startChess_panicked_iff {m : Held Lock World} (hm : m.locks = []) :
    startChess m = .error (.halt .panicked) ↔
      rounds Chess.next Chess.new (m.state.polls.filterMap Poll.scancode).tail = none := by
  refine halt_iff_of_wp (wp_mono (wp_startChess hm) ?_ ?_ ?_)
  · rintro _ _ ⟨hend, -⟩ hnone
    rw [hnone] at hend
    cases hend
  · exact fun _ => False.elim
  · rintro (_ | _) hend
    · obtain ⟨g, hend⟩ := hend
      simp [hend]
    · simpa [endsAs] using hend

namespace Chess

def Typable (c : Char) : Prop := c ∈ chessKeys.map Prod.snd

instance (c : Char) : Decidable (Typable c) := inferInstanceAs (Decidable (_ ∈ _))

def bufferKey (buffer : Str) (scancode : UInt8) : Str :=
  if scancode = 0x1C then [] else typeKey buffer scancode

def bufferAfter (codes : List UInt8) : Str := codes.foldl bufferKey []

/-- Four characters are two squares, each a letter from `a` to `h` and a digit from `0` to
`8`. Other lengths are no move. -/
def NamesSquares : Str → Prop
  | [c₀, c₁, c₂, c₃] =>
    c₀ ∈ "abcdefgh".toList ∧ c₁ ∈ "012345678".toList ∧ c₂ ∈ "abcdefgh".toList ∧
      c₃ ∈ "012345678".toList
  | _ => True

theorem typable_of_scancodeToChar {scancode : UInt8} {c : Char}
    (h : scancodeToChar scancode = some c) : Typable c := by
  obtain ⟨before, after, hkeys, -⟩ := List.lookup_eq_some_iff.mp h
  exact List.mem_map.mpr ⟨(scancode, c), by simp [hkeys], rfl⟩

theorem typable_typeKey {buffer : Str} (h : ∀ c ∈ buffer, Typable c) (scancode : UInt8) :
    ∀ c ∈ typeKey buffer scancode, Typable c := by
  unfold typeKey
  by_cases hback : scancode = 0x0E
  · rw [if_pos hback]
    exact fun c hc => h c (List.dropLast_subset _ hc)
  rw [if_neg hback]
  rcases hchar : scancodeToChar scancode with _ | c
  · exact h
  · dsimp only
    split_ifs
    · exact List.forall_mem_append.mpr ⟨h, by simpa using typable_of_scancodeToChar hchar⟩
    · exact h

theorem utf8Len_of_typable {buffer : Str} (h : ∀ c ∈ buffer, Typable c) :
    utf8Len buffer = buffer.length := by
  have hone : ∀ c ∈ chessKeys.map Prod.snd, c.utf8Size = 1 := by decide
  unfold utf8Len
  rw [List.map_congr_left fun c hc => hone c (h c hc)]
  simp

/-- The game cannot be left by typing `exit`. -/
theorem ne_exit {buffer : Str} (h : ∀ c ∈ buffer, Typable c) : buffer ≠ "exit".toList := by
  rintro rfl
  exact absurd (h 'x' (by decide)) (by decide)

theorem moveSquares_isSome {buffer : Str} (h : ∀ c ∈ buffer, Typable c)
    (hfour : utf8Len buffer = 4) : (moveSquares buffer).isSome ↔ NamesSquares buffer := by
  have hfile : ∀ c ∈ chessKeys.map Prod.snd,
      (subU8 (c.toNat % 256) 'a'.toNat).isSome ↔ c ∈ "abcdefgh".toList := by decide
  have hrank : ∀ c ∈ chessKeys.map Prod.snd,
      (subU8 '8'.toNat (c.toNat % 256)).isSome ↔ c ∈ "012345678".toList := by decide
  rw [utf8Len_of_typable h] at hfour
  obtain ⟨c₀, c₁, c₂, c₃, rfl⟩ := List.length_eq_four.mp hfour
  simp only [List.forall_mem_cons] at h
  obtain ⟨h₀, h₁, h₂, h₃, -⟩ := h
  rw [NamesSquares, ← hfile c₀ h₀, ← hrank c₁ h₁, ← hfile c₂ h₂, ← hrank c₃ h₃, moveSquares]
  rcases subU8 (c₀.toNat % 256) 'a'.toNat with _ | startCol
  · simp
  rcases subU8 '8'.toNat (c₁.toNat % 256) with _ | startRow
  · simp
  rcases subU8 (c₂.toNat % 256) 'a'.toNat with _ | endCol
  · simp
  rcases subU8 '8'.toNat (c₃.toNat % 256) with _ | endRow
  · simp
  · simp

theorem next_enter_of_names {g : Chess} (h : ∀ c ∈ g.inputBuffer, Typable c)
    (hnames : NamesSquares g.inputBuffer) :
    ∃ g', g.next 0x1C = some (.inl g') ∧ g'.inputBuffer = [] := by
  rw [next_enter, if_neg (ne_exit h)]
  by_cases hfour : utf8Len g.inputBuffer = 4
  · have hsome := (moveSquares_isSome h hfour).mpr hnames
    obtain ⟨squares, hsquares⟩ := Option.isSome_iff_exists.mp hsome
    rw [if_pos hfour, enterMove, hsquares]
    exact ⟨_, rfl, rfl⟩
  · rw [if_neg hfour]
    exact ⟨_, rfl, rfl⟩

theorem next_enter_of_not_names {g : Chess} (h : ∀ c ∈ g.inputBuffer, Typable c)
    (hnames : ¬ NamesSquares g.inputBuffer) : g.next 0x1C = none := by
  have hfour : utf8Len g.inputBuffer = 4 := by
    rw [utf8Len_of_typable h]
    by_contra hlength
    refine hnames ?_
    unfold NamesSquares
    split
    · next hbuffer => exact absurd (by rw [hbuffer]; rfl) hlength
    · trivial
  have hnone : moveSquares g.inputBuffer = none := by
    rw [← Option.not_isSome_iff_eq_none, moveSquares_isSome h hfour]
    exact hnames
  rw [next_enter, if_neg (ne_exit h), if_pos hfour, enterMove, hnone]
  rfl

def EntersAfter (codes before : List UInt8) : Prop :=
  (∃ after, codes = before ++ 0x1C :: after) ∧ 0x01 ∉ before

theorem entersAfter_cons {code : UInt8} {codes : List UInt8} {Q : List UInt8 → Prop} :
    (∃ before, EntersAfter (code :: codes) before ∧ Q before) ↔
      code = 0x1C ∧ Q [] ∨
        code ≠ 0x01 ∧ ∃ before, EntersAfter codes before ∧ Q (code :: before) := by
  constructor
  · rintro ⟨_ | ⟨c, before⟩, ⟨⟨after, heq⟩, hescape⟩, hQ⟩
    · obtain ⟨rfl, -⟩ := List.cons.inj heq
      exact .inl ⟨rfl, hQ⟩
    · obtain ⟨rfl, rfl⟩ := List.cons.inj heq
      obtain ⟨hne, hrest⟩ := not_or.mp (mt List.mem_cons.mpr hescape)
      exact .inr ⟨Ne.symm hne, before, ⟨⟨after, rfl⟩, hrest⟩, hQ⟩
  · rintro (⟨rfl, hQ⟩ | ⟨hne, before, ⟨⟨after, rfl⟩, hescape⟩, hQ⟩)
    · exact ⟨[], ⟨⟨codes, rfl⟩, List.not_mem_nil⟩, hQ⟩
    · have hescape' : 0x01 ∉ code :: before := mt List.mem_cons.mp (not_or.mpr ⟨hne.symm, hescape⟩)
      exact ⟨code :: before, ⟨⟨after, rfl⟩, hescape'⟩, hQ⟩

theorem rounds_eq_none {g : Chess} (h : ∀ c ∈ g.inputBuffer, Typable c) (codes : List UInt8) :
    rounds next g codes = none ↔ ∃ before, EntersAfter codes before ∧
      ¬ NamesSquares (before.foldl bufferKey g.inputBuffer) := by
  induction codes generalizing g with
  | nil => simp [rounds, EntersAfter]
  | cons code codes ih =>
    rw [entersAfter_cons, rounds]
    by_cases hescape : code = 0x01
    · subst hescape
      simp [next]
    by_cases henter : code = 0x1C
    · subst henter
      by_cases hnames : NamesSquares g.inputBuffer
      · obtain ⟨g', hnext, hempty⟩ := next_enter_of_names h hnames
        have hrest := ih (g := g') (by simp [hempty])
        rw [hempty] at hrest
        rw [hnext]
        simpa [hnames, bufferKey] using hrest
      · rw [next_enter_of_not_names h hnames]
        simp [hnames]
    · have hnext : g.next code =
          some (.inl { g with inputBuffer := typeKey g.inputBuffer code }) := by
        rw [next, if_neg hescape, if_neg henter]
      rw [hnext, ih (typable_typeKey h code)]
      simp [henter, hescape, bufferKey]

theorem next_changes {g g' : Chess} {code : UInt8} (h : g.next code = some (.inl g'))
    (hchange : g'.board ≠ g.board ∨ g'.turn ≠ g.turn) :
    code = 0x1C ∧ utf8Len g.inputBuffer = 4 ∧ ∃ startCol startRow endCol endRow,
      moveSquares g.inputBuffer = some (startCol, startRow, endCol, endRow) ∧
        (startCol < 8 ∧ startRow < 8 ∧ endCol < 8 ∧ endRow < 8) ∧
        g' = { g.move startCol startRow endCol endRow with inputBuffer := [] } := by
  have hsame : ∀ buffer : Str, g' ≠ { g with inputBuffer := buffer } := by
    rintro buffer rfl
    simp at hchange
  unfold next at h
  split_ifs at h with hescape henter hexit hfour
  · cases h
  · cases h
  · rw [enterMove] at h
    rcases hsquares : moveSquares g.inputBuffer with _ | ⟨startCol, startRow, endCol, endRow⟩ <;>
      rw [hsquares] at h
    · cases h
    · have hmove : { g.move startCol startRow endCol endRow with inputBuffer := [] } = g' :=
        Sum.inl.inj (Option.some.inj h)
      refine ⟨henter, hfour, startCol, startRow, endCol, endRow, rfl, ?_, hmove.symm⟩
      by_contra hout
      refine hsame [] ?_
      rw [← hmove, move, dif_neg hout]
  · exact absurd (Sum.inl.inj (Option.some.inj h)).symm (hsame _)
  · exact absurd (Sum.inl.inj (Option.some.inj h)).symm (hsame _)

/-- Every Enter that changes board or turn does so for squares on the board. -/
def MovesOnBoard (codes : List UInt8) : Prop :=
  ∀ before g g', EntersAfter codes before → rounds next Chess.new before = some (.inl g) →
    g.next 0x1C = some (.inl g') → g'.board ≠ g.board ∨ g'.turn ≠ g.turn →
    ∃ startCol startRow endCol endRow,
      moveSquares g.inputBuffer = some (startCol, startRow, endCol, endRow) ∧
        startCol < 8 ∧ startRow < 8 ∧ endCol < 8 ∧ endRow < 8

theorem movesOnBoard (codes : List UInt8) : MovesOnBoard codes := by
  intro before g g' _ _ hnext hchange
  obtain ⟨-, -, startCol, startRow, endCol, endRow, hsquares, hon, -⟩ := next_changes hnext hchange
  exact ⟨startCol, startRow, endCol, endRow, hsquares, hon⟩

/-- The subtractions come before the check of the range. None of them panics exactly when
every Enter finds squares in the buffer, or no four characters. -/
theorem startChess_sound_iff {m : Held Lock World} (hm : m.locks = []) :
    let codes := (m.state.polls.filterMap Poll.scancode).tail
    startChess m ≠ .error (.halt .panicked) ∧ MovesOnBoard codes ↔
      ∀ before, EntersAfter codes before → NamesSquares (bufferAfter before) := by
  intro codes
  have hpanic := (startChess_panicked_iff hm).trans
    (rounds_eq_none (g := Chess.new) (List.forall_mem_nil _) codes)
  rw [Ne, hpanic, and_iff_left (movesOnBoard codes)]
  push Not
  rfl

def typing (codes : List UInt8) : Held Lock World :=
  ⟨[], { shell := .new, fs := .new, console := [], ticks := 0,
         polls := codes.map fun code => ⟨some code, none⟩ }⟩

theorem startChess_sound_pawn :
    startChess (typing [0x39, 0x12, 0x03, 0x12, 0x05, 0x1C]) ≠ .error (.halt .panicked) ∧
        MovesOnBoard [0x12, 0x03, 0x12, 0x05, 0x1C] ↔
      ∀ before, EntersAfter [0x12, 0x03, 0x12, 0x05, 0x1C] before →
        NamesSquares (bufferAfter before) :=
  startChess_sound_iff (m := typing [0x39, 0x12, 0x03, 0x12, 0x05, 0x1C]) rfl

/-- `e9e4` stops the machine. -/
theorem startChess_panics :
    startChess (typing [0x39, 0x12, 0x0A, 0x12, 0x05, 0x1C]) = .error (.halt .panicked) :=
  (startChess_panicked_iff rfl).mpr rfl

end Chess

end AliluOS.Apps
