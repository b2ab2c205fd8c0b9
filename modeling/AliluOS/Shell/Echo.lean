import AliluOS.Shell.Session
import AliluOS.Vga.Screen

/-! The text under edit and the screen that shows it. The handlers change the one and
call the VGA driver for the other. -/

namespace AliluOS
open Text Kernel

/-- The text that a shell in this mode edits. -/
def Shell.activeBuffer (shell : Shell) : Str :=
  match shell.mode with
  | .command => shell.buffer
  | .editor => shell.editorBuffer
  | .helpViewer => []

theorem Shell.activeBuffer_editor {shell : Shell} (h : shell.mode = .editor) :
    shell.activeBuffer = shell.editorBuffer := by
  rw [Shell.activeBuffer, h]

end AliluOS

namespace AliluOS.Shell
open Text Kernel Lib Thread

inductive Stroke
  | char (c : Char) (shown : c ≠ '\n')
  | space
  | backspace
  | enter

namespace Stroke

def handler : Stroke → KernelM Unit
  | char c _ => handleChar c
  | space => handleSpace
  | backspace => handleBackspace
  | enter => handleEnter

/-- Enter counts only in the editor, on a line that neither saves nor quits. -/
def Edits (shell : Shell) : Stroke → Prop
  | enter => shell.mode = .editor ∧
      trim shell.lastLine ≠ ":wq".toList ∧ trim shell.lastLine ≠ ":q".toList
  | _ => True

def typed : Stroke → Option Char
  | char c _ => some c
  | space => some ' '
  | enter => some '\n'
  | backspace => none

def edit (k : Stroke) (text : Str) : Str := k.typed.elim text.dropLast fun c => text ++ [c]

def echo (k : Stroke) (text : Str) : List VgaCall :=
  k.typed.elim (if text = [] then [] else [.backspace]) fun c => [.putChar c]

end Stroke

variable {m m' : Held Lock World} {k : Stroke} {c : Char} {v₀ : VGA}

/-! ## The handlers -/

structure Echoes (k : Stroke) (m m' : Held Lock World) : Prop where
  locks : m'.locks = []
  mode : m'.state.shell.mode = m.state.shell.mode
  text : m'.state.shell.activeBuffer = k.edit m.state.shell.activeBuffer
  console : m'.state.console = m.state.console ++ k.echo m.state.shell.activeBuffer

theorem echoes_handleChar (hm : m.locks = []) (hmode : m.state.shell.mode ≠ .helpViewer)
    (hk : k.typed = some c) :
    wp (handleChar c) m (safely False fun _ m' => Echoes k m m') := by
  simp only [handleChar, wp_withLock, hm, wp_bind, wp_getShell]
  rw [if_neg (by simp)]
  cases hshell : m.state.shell.mode with
  | command =>
    simp only [wp_bind, wp_setShell, wp_say]
    constructor <;> simp [Shell.activeBuffer, hshell, Stroke.edit, Stroke.echo, hk]
  | editor =>
    simp only [wp_bind, wp_setShell, wp_say]
    constructor <;> simp [Shell.activeBuffer, hshell, Stroke.edit, Stroke.echo, hk]
  | helpViewer => exact absurd hshell hmode

theorem echoes_handleBackspace (hm : m.locks = []) (hmode : m.state.shell.mode ≠ .helpViewer) :
    wp handleBackspace m (safely False fun _ m' => Echoes .backspace m m') := by
  simp only [handleBackspace, wp_withLock, hm, wp_bind, wp_getShell]
  rw [if_neg (by simp)]
  cases hshell : m.state.shell.mode with
  | command =>
    by_cases hempty : m.state.shell.buffer = []
    · simp only [hempty, List.isEmpty_nil, if_true, wp_pure]
      constructor <;>
        simp [Shell.activeBuffer, hshell, Stroke.edit, Stroke.echo, Stroke.typed, hempty]
    · simp only [List.isEmpty_iff, hempty, if_false, wp_bind, wp_setShell, wp_say]
      constructor <;>
        simp [Shell.activeBuffer, hshell, Stroke.edit, Stroke.echo, Stroke.typed, hempty]
  | editor =>
    by_cases hempty : m.state.shell.editorBuffer = []
    · simp only [hempty, List.isEmpty_nil, if_true, wp_pure]
      constructor <;>
        simp [Shell.activeBuffer, hshell, Stroke.edit, Stroke.echo, Stroke.typed, hempty]
    · simp only [List.isEmpty_iff, hempty, if_false, wp_bind, wp_setShell, wp_say]
      constructor <;>
        simp [Shell.activeBuffer, hshell, Stroke.edit, Stroke.echo, Stroke.typed, hempty]
  | helpViewer => exact absurd hshell hmode

theorem enterInEditor_of_text {shell : Shell} (hwq : trim shell.lastLine ≠ ":wq".toList)
    (hq : trim shell.lastLine ≠ ":q".toList) :
    enterInEditor shell =
      setShell { shell with editorBuffer := shell.editorBuffer ++ ['\n'] } := by
  unfold enterInEditor
  unfold Shell.lastLine at hwq hq
  cases hline : (lines shell.editorBuffer).getLast? with
  | none => rfl
  | some line =>
    rw [hline, Option.getD_some] at hwq hq
    exact (if_neg hwq).trans (if_neg hq)

theorem echoes_handleEnter (hm : m.locks = []) (hk : Stroke.enter.Edits m.state.shell) :
    wp handleEnter m (safely False fun _ m' => Echoes .enter m m') := by
  obtain ⟨hmode, hwq, hq⟩ := hk
  simp only [handleEnter, wp_bind, wp_lock, hm, wp_say, wp_getShell]
  rw [if_neg (by simp), enterInMode, hmode]
  show wp (underGuard (enterInEditor m.state.shell)) _ _
  rw [enterInEditor_of_text hwq hq]
  simp only [underGuard, wp_bind, wp_setShell, wp_unlock]
  constructor <;> simp [Shell.activeBuffer, hmode, Stroke.edit, Stroke.echo, Stroke.typed]

theorem echoes_handler (hm : m.locks = []) (hmode : m.state.shell.mode ≠ .helpViewer)
    (hk : k.Edits m.state.shell) :
    wp k.handler m (safely False fun _ m' => Echoes k m m') := by
  cases k with
  | char c shown => exact echoes_handleChar hm hmode rfl
  | space => exact echoes_handleChar hm hmode rfl
  | backspace => exact echoes_handleBackspace hm hmode
  | enter => exact echoes_handleEnter hm hk

/-! ## Text and screen -/

def screen (v₀ : VGA) (m : Held Lock World) : VGA := v₀.perform m.state.console

def written (v₀ : VGA) (m : Held Lock World) : VGA := v₀.write m.state.shell.activeBuffer

def Shows (v₀ : VGA) (m : Held Lock World) : Prop := (screen v₀ m).SameText (written v₀ m)

/-- A stroke that edits the text and does not scroll the screen. -/
def Step (v₀ : VGA) (m : Held Lock World) (k : Stroke) (m' : Held Lock World) : Prop :=
  k.Edits m.state.shell ∧ (∀ c ∈ k.typed, (screen v₀ m).HasRoom c) ∧ k.handler m = .ok ((), m')

structure Fresh (v₀ : VGA) (m : Held Lock World) : Prop where
  valid : v₀.Valid
  blank : v₀.BlankAhead
  locks : m.locks = []
  console : m.state.console = []
  mode : m.state.shell.mode ≠ .helpViewer
  text : m.state.shell.activeBuffer = []

/-- A line break is deleted only behind a line that ends in column 79, and typed only
on the row that the text ends in. -/
def InStep (v₀ : VGA) (m : Held Lock World) : Stroke → Prop
  | .backspace => ∀ text, m.state.shell.activeBuffer = text ++ ['\n'] →
      (v₀.write text).column + 1 = VGA.bufferWidth
  | .enter => (screen v₀ m).row = (written v₀ m).row
  | _ => True

structure Aligned (v₀ : VGA) (m : Held Lock World) : Prop where
  locks : m.locks = []
  mode : m.state.shell.mode ≠ .helpViewer
  valid : (screen v₀ m).Valid
  row_le : (written v₀ m).row ≤ (screen v₀ m).row
  room : v₀.HasRoomFor m.state.shell.activeBuffer

theorem screen_fresh (h : Fresh v₀ m) : screen v₀ m = v₀ := by
  rw [screen, h.console]
  rfl

theorem written_fresh (h : Fresh v₀ m) : written v₀ m = v₀ := by
  rw [written, h.text]
  rfl

theorem Fresh.aligned (h : Fresh v₀ m) : Aligned v₀ m where
  locks := h.locks
  mode := h.mode
  valid := by
    rw [screen_fresh h]
    exact h.valid
  row_le := by rw [screen_fresh h, written_fresh h]
  room := by
    rw [h.text]
    trivial

theorem Fresh.shows (h : Fresh v₀ m) : Shows v₀ m := by
  rw [Shows, screen_fresh h, written_fresh h]

/-! ## Steps -/

theorem step_cases (hm : m.locks = []) (hmode : m.state.shell.mode ≠ .helpViewer)
    (hstep : Step v₀ m k m') :
    (∃ c, k.typed = some c ∧ (screen v₀ m).HasRoom c ∧
      m'.state.shell.activeBuffer = m.state.shell.activeBuffer ++ [c] ∧
      screen v₀ m' = (screen v₀ m).putChar c) ∨
    (k = .backspace ∧ m.state.shell.activeBuffer = [] ∧ m'.state.shell.activeBuffer = [] ∧
      screen v₀ m' = screen v₀ m) ∨
    (k = .backspace ∧ ∃ c, m.state.shell.activeBuffer = m'.state.shell.activeBuffer ++ [c] ∧
      screen v₀ m' = (screen v₀ m).backspace) := by
  obtain ⟨hedits, hroom, hrun⟩ := hstep
  obtain ⟨-, -, htext, hconsole⟩ : Echoes k m m' := ok_of_wp (echoes_handler hm hmode hedits) hrun
  have hscreen : screen v₀ m' = (screen v₀ m).perform (k.echo m.state.shell.activeBuffer) := by
    rw [screen, hconsole, VGA.perform_append]
    rfl
  cases hk : k.typed with
  | some c =>
    rw [Stroke.edit, hk] at htext
    rw [Stroke.echo, hk] at hscreen
    exact .inl ⟨c, rfl, hroom c hk, htext, hscreen⟩
  | none =>
    obtain rfl : k = .backspace := by cases k <;> simp_all [Stroke.typed]
    rw [Stroke.edit, hk] at htext
    rw [Stroke.echo, hk] at hscreen
    rcases List.eq_nil_or_concat m.state.shell.activeBuffer with hempty | ⟨text, c, htc⟩
    · rw [hempty] at htext hscreen
      exact .inr (.inl ⟨rfl, hempty, htext, hscreen⟩)
    · rw [htc] at htext hscreen
      have hleft : m'.state.shell.activeBuffer = text := by simpa using htext
      rw [List.concat_eq_append, Option.elim_none, if_neg (by simp)] at hscreen
      exact .inr (.inr ⟨rfl, c, by rw [htc, hleft, List.concat_eq_append], hscreen⟩)

theorem Stroke.typed_newline (hk : k.typed = some '\n') : k = .enter := by
  cases k with
  | char c shown => exact absurd (Option.some.inj hk) shown
  | space => simp [typed] at hk
  | backspace => simp [typed] at hk
  | enter => rfl

/-- Only line breaks put the screen out of step. -/
theorem Stroke.inStep_of_typed (hk : k.typed = some c) (hc : c ≠ '\n') : InStep v₀ m k := by
  cases k with
  | enter => exact absurd (Option.some.inj hk).symm hc
  | backspace => simp [typed] at hk
  | _ => trivial

theorem hasRoom_written (h : Aligned v₀ m) (hs : Shows v₀ m) (hroom : (screen v₀ m).HasRoom c) :
    (written v₀ m).HasRoom c :=
  VGA.SameText.hasRoom hs h.row_le h.valid hroom

theorem shows_typed (hv : v₀.Valid) (h : Aligned v₀ m) (hs : Shows v₀ m)
    (hk : k.typed = some c) (hroom : (screen v₀ m).HasRoom c)
    (hscreen : screen v₀ m' = (screen v₀ m).putChar c)
    (hwritten : written v₀ m' = (written v₀ m).putChar c) : Shows v₀ m' ↔ InStep v₀ m k := by
  have hwroom := hasRoom_written h hs hroom
  rw [Shows, hscreen, hwritten]
  -- any other character goes to a place that depends on the position alone
  by_cases hc : c = '\n'
  · subst hc
    obtain rfl := Stroke.typed_newline hk
    exact VGA.SameText.newline_iff hs hroom hwroom
  · have hwvalid := VGA.valid_write hv m.state.shell.activeBuffer
    exact iff_of_true (VGA.SameText.putChar hs h.valid hwvalid hc hroom hwroom)
      (Stroke.inStep_of_typed hk hc)

theorem shows_deleted (hv : v₀.Valid) (hblank : v₀.BlankAhead) (h : Aligned v₀ m)
    (hs : Shows v₀ m)
    (htext : m.state.shell.activeBuffer = m'.state.shell.activeBuffer ++ [c])
    (hscreen : screen v₀ m' = (screen v₀ m).backspace) :
    Shows v₀ m' ↔ InStep v₀ m .backspace := by
  have hroom := h.room
  rw [htext, VGA.hasRoomFor_concat] at hroom
  have hvalid' : (written v₀ m').Valid := VGA.valid_write hv _
  have hblank' : (written v₀ m').BlankAhead := VGA.blankAhead_write hv hroom.1 hblank
  have hsame : (screen v₀ m).SameText ((written v₀ m').putChar c) := by
    rw [written, ← VGA.write_concat, ← htext]
    exact hs
  rw [Shows, hscreen]
  by_cases hc : c = '\n'
  · subst hc
    apply (hsame.backspace_newline_iff h.valid hvalid' hroom.2 hblank').trans
    constructor
    · intro hcol text htc
      obtain rfl : m'.state.shell.activeBuffer = text :=
        List.append_cancel_right (htext.symm.trans htc)
      exact hcol
    · intro hstep
      exact hstep _ htext
  · apply iff_of_true (hsame.backspace h.valid hvalid' hc hroom.2 hblank')
    intro text htc
    have hlast : c = '\n' := by simpa using (List.append_inj_right' (htext.symm.trans htc) rfl)
    exact absurd hlast hc

theorem shows_step (hv : v₀.Valid) (hblank : v₀.BlankAhead) (h : Aligned v₀ m)
    (hs : Shows v₀ m) (hstep : Step v₀ m k m') : Shows v₀ m' ↔ InStep v₀ m k := by
  rcases step_cases h.locks h.mode hstep with
    ⟨c, hk, hroom, htext, hscreen⟩ | ⟨rfl, hempty, htext, hscreen⟩ | ⟨rfl, c, htext, hscreen⟩
  · have hwritten : written v₀ m' = (written v₀ m).putChar c := by
      rw [written, htext, VGA.write_concat]
      rfl
    exact shows_typed hv h hs hk hroom hscreen hwritten
  · refine iff_of_true ?_ fun text htc => absurd (hempty.symm.trans htc) (by simp)
    rw [Shows, hscreen, written, htext, ← hempty]
    exact hs
  · exact shows_deleted hv hblank h hs htext hscreen

theorem Aligned.step (h : Aligned v₀ m) (hs : Shows v₀ m)
    (hstep : Step v₀ m k m') (hs' : Shows v₀ m') : Aligned v₀ m' := by
  obtain ⟨hedits, -, hrun⟩ := id hstep
  have hechoes : Echoes k m m' := ok_of_wp (echoes_handler h.locks h.mode hedits) hrun
  have hmode : m'.state.shell.mode ≠ .helpViewer := hechoes.mode ▸ h.mode
  rcases step_cases h.locks h.mode hstep with
    ⟨c, hk, hroom, htext, hscreen⟩ | ⟨rfl, hempty, htext, hscreen⟩ | ⟨rfl, c, htext, hscreen⟩
  · have hvalid : (screen v₀ m').Valid := hscreen ▸ VGA.valid_putChar h.valid c
    have hwroom := hasRoom_written h hs hroom
    refine ⟨hechoes.locks, hmode, hvalid, VGA.SameText.row_le hs' hvalid ?_, ?_⟩
    -- after either character the two ways to write a position are told apart
    · by_cases hc : c = '\n'
      · subst hc
        rw [hscreen, VGA.putChar_newline hroom]
        exact .inl (Nat.succ_pos _)
      · rw [written, htext, VGA.write_concat]
        exact .inr (VGA.column_putChar_pos hc)
    · rw [htext, VGA.hasRoomFor_concat]
      exact ⟨h.room, hwroom⟩
  · refine ⟨hechoes.locks, hmode, hscreen ▸ h.valid, ?_, ?_⟩
    · rw [written, htext, ← hempty, hscreen]
      exact h.row_le
    · rw [htext, ← hempty]
      exact h.room
  · obtain ⟨hvalid, hcol⟩ := VGA.valid_backspace h.valid
    rw [← hscreen] at hvalid hcol
    have hroom := h.room
    rw [htext, VGA.hasRoomFor_concat] at hroom
    exact ⟨hechoes.locks, hmode, hvalid, VGA.SameText.row_le hs' hvalid (.inl hcol), hroom.1⟩

/-! ## Runs -/

/-- The screen shows the text throughout a run exactly when no line break is typed or
deleted where the screen and the text disagree on the row. -/
theorem shows_iff_inStep {m₀ : Held Lock World} {tr : List (Held Lock World × Stroke)}
    (hfresh : Fresh v₀ m₀) (h : Run (Step v₀) m₀ tr m) :
    Always (Shows v₀) tr m ↔ Guarded (InStep v₀) tr :=
  h.always_iff_guarded_while hfresh.aligned hfresh.shows
    (fun _ _ _ hm hs hstep hs' => hm.step hs hstep hs')
    fun _ _ _ hm hs hstep => shows_step hfresh.valid hfresh.blank hm hs hstep

theorem exists_step (hm : m.locks = []) (hmode : m.state.shell.mode ≠ .helpViewer)
    (hedits : k.Edits m.state.shell) (hroom : ∀ c ∈ k.typed, (screen v₀ m).HasRoom c) :
    ∃ m', Step v₀ m k m' ∧ Echoes k m m' := by
  obtain ⟨_, m', hrun, hechoes⟩ := exists_of_wp (echoes_handler hm hmode hedits) id
  exact ⟨m', ⟨hedits, hroom, hrun⟩, hechoes⟩

def opened : Held Lock World := ⟨[], ⟨{ Shell.new with mode := .editor }, .new, [], [], 0⟩⟩

def emptyScreen : VGA := .new fun _ => ⟨VGA.blank, 15⟩

theorem fresh_opened : Fresh emptyScreen opened :=
  ⟨⟨by decide, by decide⟩, fun _ _ _ => rfl, rfl, rfl, by decide, rfl⟩

structure Edited (text : Str) (calls : List VgaCall) (m : Held Lock World) : Prop where
  locks : m.locks = []
  mode : m.state.shell.mode = .editor
  text : m.state.shell.activeBuffer = text
  console : m.state.console = calls

theorem edited_opened : Edited [] [] opened := ⟨rfl, rfl, rfl, rfl⟩

theorem Edited.lastLine {text : Str} {calls : List VgaCall} (h : Edited text calls m) :
    m.state.shell.lastLine = (lines text).getLast?.getD [] := by
  rw [Shell.lastLine, ← Shell.activeBuffer_editor h.mode, h.text]

theorem Edited.edits {text : Str} {calls : List VgaCall} (h : Edited text calls m)
    (hline : trim ((lines text).getLast?.getD []) ∉ [":wq".toList, ":q".toList]) :
    k.Edits m.state.shell := by
  simp only [List.mem_cons, List.not_mem_nil, or_false, not_or, ← h.lastLine] at hline
  cases k with
  | enter => exact ⟨h.mode, hline⟩
  | _ => trivial

theorem Edited.step {text : Str} {calls : List VgaCall} (h : Edited text calls m) (k : Stroke)
    (hline : trim ((lines text).getLast?.getD []) ∉ [":wq".toList, ":q".toList])
    (hroom : k.typed.elim True (emptyScreen.perform calls).HasRoom) :
    ∃ m', Step emptyScreen m k m' ∧ Edited (k.edit text) (calls ++ k.echo text) m' := by
  have hroom' : ∀ c ∈ k.typed, (screen emptyScreen m).HasRoom c := by
    intro c hc
    rw [Option.mem_def.mp hc] at hroom
    rwa [screen, h.console]
  obtain ⟨m', hstep, hechoes⟩ := exists_step h.locks (by simp [h.mode]) (h.edits hline) hroom'
  exact ⟨m', hstep, hechoes.locks, hechoes.mode.trans h.mode, by rw [hechoes.text, h.text],
    by rw [hechoes.console, h.console, h.text]⟩

theorem Edited.typed {text : Str} {calls : List VgaCall} (h : Edited text calls m) {c : Char}
    (hk : k.typed = some c)
    (hline : trim ((lines text).getLast?.getD []) ∉ [":wq".toList, ":q".toList])
    (hroom : (emptyScreen.perform calls).HasRoom c) :
    ∃ m', Step emptyScreen m k m' ∧ Edited (text ++ [c]) (calls ++ [.putChar c]) m' := by
  have hedited := h.step k hline (by rwa [hk])
  rwa [Stroke.edit, Stroke.echo, hk] at hedited

theorem Edited.row {text : Str} {calls : List VgaCall} (h : Edited text calls m)
    (hrow : (emptyScreen.perform calls).row = (emptyScreen.write text).row) :
    InStep emptyScreen m .enter := by
  rw [InStep, screen, written, h.console, h.text, hrow]

theorem Edited.not_break {text : Str} {calls : List VgaCall} (h : Edited text calls m)
    (hlast : text.getLast? ≠ some '\n') : InStep emptyScreen m .backspace := by
  intro rest hrest
  rw [h.text] at hrest
  exact absurd (by rw [hrest, List.getLast?_concat]) hlast

theorem shows_iff_inStep_lines : ∃ tr m, Run (Step emptyScreen) opened tr m ∧
    m.state.shell.activeBuffer = "a \n".toList ∧ Always (Shows emptyScreen) tr m := by
  obtain ⟨m₁, hstep₁, h₁⟩ := edited_opened.typed (k := .char 'a' (by decide)) rfl (by decide)
    (by decide)
  obtain ⟨m₂, hstep₂, h₂⟩ := h₁.typed (k := .space) rfl (by decide) (by decide)
  obtain ⟨m₃, hstep₃, h₃⟩ := h₂.typed (k := .enter) rfl (by decide) (by decide)
  obtain ⟨m₄, hstep₄, h₄⟩ := h₃.typed (k := .char 'b' (by decide)) rfl (by decide) (by decide)
  obtain ⟨m₅, hstep₅, h₅⟩ := h₄.step .backspace (by decide) trivial
  have hrun := ((((Run.nil.cons hstep₁).cons hstep₂).cons hstep₃).cons hstep₄).cons hstep₅
  have henter : InStep emptyScreen m₂ .enter := h₂.row (by decide)
  have hdelete : InStep emptyScreen m₄ .backspace := h₄.not_break (by decide)
  refine ⟨_, m₅, hrun, h₅.text, (shows_iff_inStep fresh_opened hrun).mpr ?_⟩
  simp only [guarded_cons, guarded_nil, and_true]
  exact ⟨hdelete, trivial, henter, trivial, trivial⟩

theorem exists_run_break : ∃ tr m, Run (Step emptyScreen) opened tr m ∧
    Edited [' '] [.putChar ' ', .putChar '\n', .backspace] m := by
  obtain ⟨m₁, hstep₁, h₁⟩ := edited_opened.typed (k := .space) rfl (by decide) (by decide)
  obtain ⟨m₂, hstep₂, h₂⟩ := h₁.typed (k := .enter) rfl (by decide) (by decide)
  obtain ⟨m₃, hstep₃, h₃⟩ := h₂.step .backspace (by decide) trivial
  exact ⟨_, m₃, ((Run.nil.cons hstep₁).cons hstep₂).cons hstep₃, h₃⟩

/-- A line break is deleted to column 79 of the line above it, wherever that line ends. -/
theorem line_break_deleted : ¬ ∀ (v₀ : VGA) (m₀ m : Held Lock World)
    (tr : List (Held Lock World × Stroke)),
    Fresh v₀ m₀ → Run (Step v₀) m₀ tr m → Shows v₀ m := by
  intro hall
  obtain ⟨tr, m, hrun, hedited⟩ := exists_run_break
  have hcursor := (hall _ _ _ _ fresh_opened hrun).cursor
  rw [screen, written, hedited.console, hedited.text] at hcursor
  exact absurd hcursor (by decide)

end AliluOS.Shell
