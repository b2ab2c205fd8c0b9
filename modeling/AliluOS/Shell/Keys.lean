import AliluOS.Lib.Run
import AliluOS.Shell.Commands

/-! The key handlers of `shell.rs`, the dispatch of `kernel.rs`, and the main loop
as a step relation. -/

namespace AliluOS.Shell
open Text Fs Kernel Lib Thread

inductive Key
  | character (c : Char)
  | enter | backspace | tab | escape | space
  | left | right | up | down
  | home | «end» | insert | delete | pageUp | pageDown
  | function (n : UInt8)
  | shift | ctrl | alt
  | capsLock | numLock | scrollLock
  | unknown
deriving DecidableEq

def closeEditor (shell : Shell) : Shell :=
  { shell with mode := .command, editorBuffer := [], editorFilename := [] }

def handleEscape : KernelM Unit := do
  let shell ← getShell
  match shell.mode with
  | .helpViewer =>
    setShell { shell with mode := .command }
    withLock .writer <| say [.clear, .setColor .lightGreen .black,
      .println "=== AliluOS Interactive Shell ===", .setColor .white .black,
      .println "Type 'help' to reopen help viewer, or enter commands below.\n", .write "> "]
  | .command =>
    if shell.buffer.isEmpty then return
    setShell { shell with buffer := [] }
    withLock .writer <| say [.println "^C", .write "> "]
  | .editor =>
    setShell { closeEditor shell with savePending := false }
    withLock .writer <| say [.setColor .yellow .black, .println "\nExited editor without saving.",
      .setColor .white .black, .write "> "]

/-- What both ways to save do with the target and the buffer, and what they say of
the result. They differ in the text for an empty name. -/
def writeBuffer (invalid : Str) : KernelM Unit := do
  let shell ← getShell
  let (parentSegments, targetName) :=
    splitParentAndName (resolvePath shell.cwd shell.editorFilename)
  if targetName.isEmpty then say [.println invalid]
  else
    let (result, fs) := (← getFs).writeFile parentSegments targetName shell.editorBuffer
    setFs fs
    match result with
    | .ok _ => say [.setColor .lightGreen .black, .println "\nFile saved successfully."]
    | .error e => say [.setColor .lightRed .black, .println e]

def save (invalid : Str) : KernelM Unit := do
  writeBuffer invalid
  say [.setColor .white .black]

def handleCtrlChar (c : Char) : KernelM Unit := do
  let lower := c.toLower
  if (← getShell).mode = .editor then
    withLock .writer do
      if lower = 's' then
        setShell { ← getShell with savePending := true }
        say [.setColor .yellow .black,
          .println "\n[Ctrl+S detected! Press Ctrl+K to save and exit]", .setColor .white .black]
      else if lower = 'k' then
        if (← getShell).savePending then
          withLock .fs do
            save "\nError: Invalid filename"
            setShell { closeEditor (← getShell) with savePending := false }
            say [.write "> "]
        else
          say [.setColor .yellow .black,
            .println "\n[Press Ctrl+S first, then Ctrl+K to save and exit]",
            .setColor .white .black]

def handleChar (c : Char) : KernelM Unit :=
  withLock .writer do
    let shell ← getShell
    match shell.mode with
    | .command =>
      setShell { shell with buffer := shell.buffer ++ [c] }
      say [.putChar c]
    | .editor =>
      setShell { shell with editorBuffer := shell.editorBuffer ++ [c] }
      say [.putChar c]
    | .helpViewer => return

def handleSpace : KernelM Unit := handleChar ' '

def handleBackspace : KernelM Unit :=
  withLock .writer do
    let shell ← getShell
    match shell.mode with
    | .command =>
      if shell.buffer.isEmpty then return
      setShell { shell with buffer := shell.buffer.dropLast }
      say [.backspace]
    | .editor =>
      if shell.editorBuffer.isEmpty then return
      setShell { shell with editorBuffer := shell.editorBuffer.dropLast }
      say [.backspace]
    | .helpViewer => return

/-- Enter in the editor, with the guard of `WRITER` alive. To save, the last line
is taken off the buffer first: as many characters as the line has bytes. -/
def enterInEditor (shell : Shell) : KernelM Unit :=
  match (lines shell.editorBuffer).getLast? with
  | some lastLine =>
    if trim lastLine = ":wq".toList then do
      setShell { shell with editorBuffer := shell.editorBuffer.rdrop (utf8Len lastLine) }
      withLock .fs do
        save "Error: Invalid filename"
        setShell (closeEditor (← getShell))
        say [.write "> "]
    else if trim lastLine = ":q".toList then do
      say [.setColor .yellow .black, .println "\nExited without saving.", .setColor .white .black]
      setShell (closeEditor shell)
      say [.write "> "]
    else setShell { shell with editorBuffer := shell.editorBuffer ++ ['\n'] }
  | none => setShell { shell with editorBuffer := shell.editorBuffer ++ ['\n'] }

def enterInCommand (shell : Shell) : KernelM Unit := do
  setShell { shell with buffer := [] }
  unlock .writer
  executeCommand shell.buffer
  if (← getShell).mode = .command then
    withLock .writer <| say [.write "> "]

def enterInMode (shell : Shell) : KernelM Unit :=
  match shell.mode with
  | .command => enterInCommand shell
  | .editor => underGuard (enterInEditor shell)
  | .helpViewer => unlock .writer

def handleEnter : KernelM Unit := do
  lock .writer
  say [.putChar '\n']
  enterInMode (← getShell)

def handleKeyPress (ctrl : Bool) : Key → KernelM Unit
  | .character c => if ctrl then handleCtrlChar c else handleChar c
  | .space => handleSpace
  | .enter => handleEnter
  | .backspace => handleBackspace
  | .escape => handleEscape
  | _ => return

/-- A key press, the time it comes at, and the polls made while it is handled. -/
structure Press where
  key : Key
  ctrl : Bool
  ticks : Nat
  polls : List Poll

def Press.deliver (p : Press) (m : Held Lock World) : Held Lock World :=
  { m with state := { m.state with ticks := p.ticks, polls := p.polls } }

inductive Machine
  | running (m : Held Lock World)
  | stopped (why : Stop Lock Halt)

def Machine.ofResult : Except (Stop Lock Halt) (Unit × Held Lock World) → Machine
  | .ok (_, m) => running m
  | .error why => stopped why

def Machine.press (p : Press) : Machine → Machine
  | running m => ofResult (handleKeyPress p.ctrl p.key (p.deliver m))
  | stopped why => stopped why

def Machine.Holds (P : Held Lock World → Prop) (s : Machine) : Prop := ∀ m, s = running m → P m

@[simp] theorem Machine.holds_running {P : Held Lock World → Prop} {m : Held Lock World} :
    (running m).Holds P ↔ P m := by simp [Holds]

@[simp] theorem Machine.holds_stopped {P : Held Lock World → Prop} {why : Stop Lock Halt} :
    (stopped why).Holds P := by simp [Holds]

theorem Machine.exists_running {P : Held Lock World → Prop} {s : Machine}
    (h : ¬ s.Holds fun m => ¬ P m) : ∃ m, s = running m ∧ P m := by
  simpa [Holds] using h

instance {P : Held Lock World → Prop} [DecidablePred P] (s : Machine) : Decidable (s.Holds P) :=
  match s with
  | .running m => decidable_of_iff (P m) (by simp)
  | .stopped _ => .isTrue (by simp)

def Machine.Step (s : Machine) (p : Press) (s' : Machine) : Prop := s' = s.press p

def boot : Machine := .running ⟨[], ⟨.new, .new, [], [], 0⟩⟩

def Machine.presses (s : Machine) (ps : List Press) : Machine := ps.foldl (fun s p => s.press p) s

theorem Machine.run_presses_guarded {C : Press → Prop} (s : Machine) {ps : List Press}
    (hps : ∀ p ∈ ps, C p) :
    ∃ tr, Run Machine.Step s tr (s.presses ps) ∧ Guarded (fun _ p => C p) tr := by
  induction ps using List.reverseRecOn with
  | nil => exact ⟨[], .nil, guarded_nil _⟩
  | append_singleton ps p ih =>
    obtain ⟨tr, htr, hC⟩ := ih fun q hq => hps q (List.mem_append_left _ hq)
    refine ⟨_, htr.cons (i := p) ?_, guarded_cons.mpr ⟨hps p (by simp), hC⟩⟩
    simp [presses, Step]

theorem Machine.run_presses (s : Machine) (ps : List Press) :
    ∃ tr, Run Machine.Step s tr (s.presses ps) := by
  have hps : ∀ p ∈ ps, (fun _ : Press => True) p := fun _ _ => trivial
  obtain ⟨tr, htr, -⟩ := s.run_presses_guarded hps
  exact ⟨tr, htr⟩

def Machine.checked (C : Held Lock World → Press → Bool) : Machine → List Press → Bool
  | _, [] => true
  | running m, p :: ps => C m p && ((running m).press p).checked C ps
  | stopped _, _ :: _ => false

theorem Machine.run_checked {C : Held Lock World → Press → Bool} {s : Machine} {ps : List Press}
    (h : s.checked C ps = true) :
    ∃ tr, Run Machine.Step s tr (s.presses ps) ∧
      Guarded (fun s p => s.Holds fun m => C m p = true) tr := by
  induction ps generalizing s with
  | nil => exact ⟨[], .nil, guarded_nil _⟩
  | cons p ps ih =>
    cases s with
    | stopped why => cases h
    | running m =>
      rw [checked, Bool.and_eq_true] at h
      obtain ⟨hp, hps⟩ := h
      obtain ⟨tr, hrun, hC⟩ := ih hps
      have hfirst : Run Machine.Step (running m) [(running m, p)] ((running m).press p) :=
        Run.nil.cons rfl
      refine ⟨tr ++ [(running m, p)], hfirst.trans hrun, fun x hx => ?_⟩
      rcases List.mem_append.mp hx with hx | hx
      · exact hC x hx
      · obtain rfl := List.mem_singleton.mp hx
        exact holds_running.mpr hp

def Key.hit (key : Key) : Press := ⟨key, false, 0, []⟩

def typed (line : Str) : List Press :=
  line.map (fun c => if c = ' ' then Key.space.hit else (Key.character c).hit) ++ [Key.enter.hit]

end AliluOS.Shell
