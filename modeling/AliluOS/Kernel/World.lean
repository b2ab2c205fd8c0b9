import AliluOS.Fs.Operations
import AliluOS.Lib.Thread

/-! What the main thread of the kernel works on: the three spinlocks, the calls
to the VGA writer, the scancodes it polls, the shell and the filesystem. -/

namespace AliluOS
open Text Fs

inductive ShellMode
  | command
  | editor
  | helpViewer
deriving DecidableEq

structure Shell where
  buffer : Str
  mode : ShellMode
  editorFilename : Str
  editorBuffer : Str
  savePending : Bool
  cwd : List Str
deriving DecidableEq

def Shell.new : Shell := ⟨[], .command, [], [], false, []⟩

structure Session where
  shell : Shell
  fs : FileSystem

end AliluOS

namespace AliluOS.Kernel
open Text Fs Lib Thread

inductive Lock
  | writer
  | fs
  | scancodes
deriving DecidableEq

/-- Why a handler does not return: it waits for a scancode, or the panic handler
has stopped the machine. -/
inductive Halt
  | waiting
  | panicked
deriving DecidableEq

inductive Color
  | black | blue | green | cyan | red | magenta | brown | lightGray
  | darkGray | lightBlue | lightGreen | lightCyan | lightRed | pink | yellow | white
deriving DecidableEq

inductive VgaCall
  | clear
  | setColor (fg bg : Color)
  | write (text : Str)
  | println (text : Str)
  | putChar (c : Char)
  | putCharAt (row col : Nat) (c : Char)
  | backspace
deriving DecidableEq

/-- What one poll of the keyboard meets: the front of the ring, and the byte in
the data port when the status bit is set. -/
structure Poll where
  ring : Option UInt8
  port : Option UInt8

def Poll.scancode (p : Poll) : Option UInt8 := p.ring <|> p.port

structure World where
  shell : Shell
  fs : FileSystem
  console : List VgaCall
  polls : List Poll
  ticks : Nat

def World.session (w : World) : Session := ⟨w.shell, w.fs⟩

abbrev KernelM := Thread Lock Halt World

def say (calls : List VgaCall) : KernelM Unit :=
  update fun w => { w with console := w.console ++ calls }

def getShell : KernelM Shell := do return (← read).shell

def setShell (shell : Shell) : KernelM Unit := update fun w => { w with shell := shell }

def getFs : KernelM FileSystem := do return (← read).fs

def setFs (fs : FileSystem) : KernelM Unit := update fun w => { w with fs := fs }

def timerTicks : KernelM Nat := do return (← read).ticks

def kernelPanic {α : Type} (file : Str) : KernelM α := do
  lock .writer
  say [.setColor .lightRed .black, .println "\n--- KERNEL PANIC ---", .write "Location: ",
    .write file, .println "", .setColor .white .black]
  halt .panicked

def nextPoll : KernelM Poll := do
  match (← read).polls with
  | [] => halt .waiting
  | poll :: polls =>
    update fun w => { w with polls := polls }
    return poll

def pollScancode : KernelM (Option UInt8) := do
  let poll ← withLock .scancodes nextPoll
  return poll.scancode

/-- A loop every round of which polls at least once. -/
def pollingLoop {α β : Type} (body : β → KernelM (β ⊕ α)) (b : β) : KernelM α := do
  iterate .waiting body ((← read).polls.length + 1) b

def readScancodeBlocking : KernelM UInt8 :=
  pollingLoop (fun _ : Unit => do
    match ← pollScancode with
    | some code => return .inr code
    | none => return .inl ()) ()

end AliluOS.Kernel
