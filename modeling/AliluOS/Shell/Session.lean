import AliluOS.Kernel.Effect
import AliluOS.Shell.Keys

/-! What key presses mean for shell and filesystem, with screen, locks and
applications left out. -/

namespace AliluOS.Shell
open Text Fs Kernel

/-- What a command line asks for. Neither `app`, an application that reads scancodes
itself, nor `other` concerns shell or filesystem. -/
inductive Request
  | goTo (path : Str)
  | back
  | folder (path : Str)
  | create (path : Str)
  | write (path text : Str)
  | delete (path : Str)
  | edit (path : Str)
  | gitClone (url : Str)
  | atari
  | app
  | other
deriving DecidableEq

def Verb.request (args : List Str) : Verb → Request
  | .enter => match args with
    | path :: _ => .goTo path
    | [] => .other
  | .cd => .goTo (args.headD "..")
  | .back => .back
  | .folder => match args with
    | path :: _ => .folder path
    | [] => .other
  | .create => match args with
    | path :: _ => .create path
    | [] => .other
  | .write => match args with
    | path :: word :: words => .write path (join " " (word :: words))
    | _ => .other
  | .delete => match args with
    | path :: _ => .delete path
    | [] => .other
  | .edit => match args with
    | path :: _ => .edit path
    | [] => .other
  | .play => match args with
    | game :: _ =>
      if game = "atari".toList then .atari else if game = "chess".toList then .app else .other
    | [] => .other
  | .git => match args with
    | subcommand :: url :: _ => if subcommand = "clone".toList then .gitClone url else .other
    | _ => .other
  | .draw | .browse => .app
  | _ => .other

def requestOf (command : Str) (args : List Str) : Request :=
  if wantsHelp command args then .other
  else
    match verbs.lookup command with
    | some verb => verb.request args
    | none => .other

def request (cmdLine : Str) : Request :=
  let parts := splitWhitespace (trim cmdLine)
  requestOf (parts.headD []) parts.tail

end AliluOS.Shell

namespace AliluOS
open Text Fs Shell

namespace Session

def resolve (s : Session) (path : Str) : List Str := resolvePath s.shell.cwd path

def atTarget (s : Session) (path : Str) (op : List Str → Str → Session) : Session :=
  let (parentSegments, name) := splitParentAndName (s.resolve path)
  if name.isEmpty then s else op parentSegments name

def goTo (s : Session) (path : Str) : Session :=
  if (s.fs.findDirectory (s.resolve path)).isSome then
    { s with shell := { s.shell with cwd := s.resolve path } }
  else s

def openEditor (s : Session) (finalPath : Str) (ticks : Nat) : Session :=
  s.atTarget finalPath fun parentSegments name =>
    let (content, fs) := openFile s.fs parentSegments name ticks
    ⟨{ s.shell with
        editorFilename := finalPath, editorBuffer := content, mode := .editor,
        savePending := false }, fs⟩

def execute (s : Session) (ticks : Nat) : Request → Session
  | .goTo path => s.goTo path
  | .back => { s with shell := { s.shell with cwd := s.shell.cwd.dropLast } }
  | .folder path =>
    s.atTarget path fun parent name => { s with fs := (s.fs.createDirectory parent name ticks).2 }
  | .create path =>
    match normalizeAndValidateFilename path with
    | .ok finalPath =>
      s.atTarget finalPath fun parent name =>
        { s with fs := (s.fs.createFile parent name ticks).2 }
    | .error _ => s
  | .write path text =>
    s.atTarget path fun parent name => { s with fs := (s.fs.writeFile parent name text).2 }
  | .delete path =>
    s.atTarget path fun parent name => { s with fs := (s.fs.deleteNode parent name).2 }
  | .edit path =>
    match normalizeAndValidateFilename path with
    | .ok finalPath => s.openEditor finalPath ticks
    | .error _ => s
  | .gitClone _ => { s with fs := (s.fs.createDirectory [] "git" ticks).2 }
  | .atari | .app | .other => s

end Session

def Shell.lastLine (shell : Shell) : Str := (lines shell.editorBuffer).getLast?.getD []

namespace Session

def save (s : Session) : Session :=
  s.atTarget s.shell.editorFilename fun parent name =>
    { s with fs := (s.fs.writeFile parent name s.shell.editorBuffer).2 }

def close (s : Session) : Session := { s with shell := closeEditor s.shell }

def setPending (s : Session) (pending : Bool) : Session :=
  { s with shell := { s.shell with savePending := pending } }

def setBuffer (s : Session) (text : Str) : Session :=
  { s with shell := { s.shell with editorBuffer := text } }

def type (s : Session) (c : Char) : Session :=
  match s.shell.mode with
  | .command => { s with shell := { s.shell with buffer := s.shell.buffer ++ [c] } }
  | .editor => s.setBuffer (s.shell.editorBuffer ++ [c])
  | .helpViewer => s

def erase (s : Session) : Session :=
  match s.shell.mode with
  | .command => { s with shell := { s.shell with buffer := s.shell.buffer.dropLast } }
  | .editor => s.setBuffer s.shell.editorBuffer.dropLast
  | .helpViewer => s

def escape (s : Session) : Session :=
  match s.shell.mode with
  | .command => { s with shell := { s.shell with buffer := [] } }
  | .editor => (s.close).setPending false
  | .helpViewer => { s with shell := { s.shell with mode := .command } }

def ctrlChar (s : Session) (c : Char) : Session :=
  if s.shell.mode = .editor then
    if c.toLower = 's' then s.setPending true
    else if c.toLower = 'k' ∧ s.shell.savePending then (s.save.close).setPending false
    else s
  else s

def submit (s : Session) : Session := { s with shell := { s.shell with buffer := [] } }

def enter (s : Session) (ticks : Nat) : Session :=
  match s.shell.mode with
  | .command => s.submit.execute ticks (request s.shell.buffer)
  | .editor =>
    if trim s.shell.lastLine = ":wq".toList then
      (s.setBuffer (s.shell.editorBuffer.rdrop (utf8Len s.shell.lastLine))).save.close
    else if trim s.shell.lastLine = ":q".toList then s.close
    else s.setBuffer (s.shell.editorBuffer ++ ['\n'])
  | .helpViewer => s

def press (s : Session) (p : Press) : Session :=
  match p.key with
  | .character c => if p.ctrl then s.ctrlChar c else s.type c
  | .space => s.type ' '
  | .enter => s.enter p.ticks
  | .backspace => s.erase
  | .escape => s.escape
  | _ => s

variable {s : Session} {path : Str} {parent : List Str} {name : Str} {op : List Str → Str → Session}

theorem atTarget_root (h : s.resolve path = []) : s.atTarget path op = s := by
  simp [atTarget, h, splitParentAndName]

theorem atTarget_eq (h : s.resolve path = parent ++ [name]) (hname : name ≠ []) :
    s.atTarget path op = op parent name := by
  simp [atTarget, h, splitParentAndName, hname]

theorem atTarget_cases (s : Session) (path : Str) (op : List Str → Str → Session) :
    s.atTarget path op = s ∨ ∃ parent name, s.resolve path = parent ++ [name] ∧
      s.atTarget path op = op parent name := by
  rcases List.eq_nil_or_concat (s.resolve path) with h | ⟨parent, name, h⟩
  · exact .inl (atTarget_root h)
  · rw [List.concat_eq_append] at h
    rcases eq_or_ne name [] with rfl | hname
    · simp [atTarget, h, splitParentAndName]
    · exact .inr ⟨parent, name, h, atTarget_eq h hname⟩

theorem save_shell (s : Session) : s.save.shell = s.shell := by
  unfold save
  rcases s.atTarget_cases s.shell.editorFilename _ with h | ⟨parent, name, -, h⟩ <;> rw [h]

inductive Pressed (s : Session) (p : Press) (s' : Session) : Prop
  | typed : s'.fs = s.fs → s'.shell.cwd = s.shell.cwd →
      (s'.shell.mode = .editor →
        s.shell.mode = .editor ∧ s'.shell.editorFilename = s.shell.editorFilename) →
      Pressed s p s'
  | saved (text : Str) : s.shell.mode = .editor → s'.fs = (s.setBuffer text).save.fs →
      s'.shell.cwd = s.shell.cwd → s'.shell.mode = .command → Pressed s p s'
  | executed : p.key = .enter → s.shell.mode = .command →
      s' = s.submit.execute p.ticks (request s.shell.buffer) → Pressed s p s'

theorem save_close_cwd (s : Session) : s.save.close.shell.cwd = s.shell.cwd := by
  change s.save.shell.cwd = s.shell.cwd
  rw [save_shell]

theorem pressed_type (p : Press) (c : Char) : s.Pressed p (s.type c) := by
  unfold type
  split
  · exact .typed rfl rfl fun h => ⟨h, rfl⟩
  · exact .typed rfl rfl fun h => ⟨h, rfl⟩
  · exact .typed rfl rfl fun h => ⟨h, rfl⟩

theorem pressed_ctrlChar (p : Press) (c : Char) : s.Pressed p (s.ctrlChar c) := by
  unfold ctrlChar
  split_ifs with hmode
  · exact .typed rfl rfl fun h => ⟨h, rfl⟩
  · exact .saved s.shell.editorBuffer hmode rfl s.save_close_cwd rfl
  · exact .typed rfl rfl fun h => ⟨h, rfl⟩
  · exact .typed rfl rfl fun h => ⟨h, rfl⟩

theorem pressed_erase (p : Press) : s.Pressed p s.erase := by
  unfold erase
  split
  · exact .typed rfl rfl fun h => ⟨h, rfl⟩
  · exact .typed rfl rfl fun h => ⟨h, rfl⟩
  · exact .typed rfl rfl fun h => ⟨h, rfl⟩

theorem pressed_escape (p : Press) : s.Pressed p s.escape := by
  unfold escape
  split
  · exact .typed rfl rfl fun h => ⟨h, rfl⟩
  · exact .typed rfl rfl fun h => by simp [close, closeEditor, setPending] at h
  · exact .typed rfl rfl fun h => by simp at h

theorem pressed_enter {p : Press} (hkey : p.key = .enter) : s.Pressed p (s.enter p.ticks) := by
  unfold enter
  split
  · next hmode => exact .executed hkey hmode rfl
  · next hmode =>
    split_ifs
    · exact .saved _ hmode rfl (save_close_cwd _) rfl
    · exact .typed rfl rfl fun h => by simp [close, closeEditor] at h
    · exact .typed rfl rfl fun h => ⟨h, rfl⟩
  · exact .typed rfl rfl fun h => ⟨h, rfl⟩

theorem press_execute {p : Press} (hkey : p.key = .enter) (hmode : s.shell.mode = .command) :
    s.press p = s.submit.execute p.ticks (request s.shell.buffer) := by
  simp [press, enter, hkey, hmode]

theorem pressed (s : Session) (p : Press) : s.Pressed p (s.press p) := by
  unfold press
  cases hkey : p.key with
  | character c =>
    dsimp only
    split_ifs
    · exact pressed_ctrlChar p c
    · exact pressed_type p c
  | space => exact pressed_type p ' '
  | enter => exact pressed_enter hkey
  | backspace => exact pressed_erase p
  | escape => exact pressed_escape p
  | _ => exact .typed rfl rfl fun h => ⟨h, rfl⟩

end Session

end AliluOS
