import AliluOS.Apps.Games
import AliluOS.Network.Browser
import AliluOS.Shell.Filename

/-! `execute_command` of `shell.rs`, one definition for each arm. The arms start
with the guard of `WRITER` alive; it lives to the end of the arm (`underGuard`) unless
the arm drops it. -/

namespace AliluOS.Shell
open Text Fs Kernel Lib Thread

def manual : List VgaCall :=
  [.setColor .lightCyan .black,
    .println "========================================================================",
    .println "                    AliluOS COMMAND MANUAL                              ",
    .println "========================================================================",
    .setColor .white .black,
    .println "  help                       - Display this command manual",
    .println "  clear                      - Clear display screen",
    .println "  system                     - Display system specs, memory & timer stats",
    .println "  tasks                      - List active kernel CPU tasks",
    .println "  list                       - List files/folders (B-Tree sorted)",
    .println "  directory                  - Print current working directory path",
    .println "  enter [path]               - Enter directory folder",
    .println "  back / leave / up / cd ..  - Return back to parent directory",
    .println "  folder [name]              - Create a new directory folder in B-Tree",
    .println "  create [file]              - Create a new file in B-Tree index",
    .println "  write [file] [text]        - Write text content to a file",
    .println "  read [file]                - View file contents from B-Tree index",
    .println "  delete [file/folder]       - Delete a file or folder from B-Tree index",
    .println "  edit [file]                - Open interactive text editor",
    .println "  play [atari / chess]       - Launch built-in text game",
    .println "  browse [query]             - Open DuckDuckGo search browser (Type & Enter to Search)",
    .println "  git clone [url]            - Clone git repository into B-Tree index",
    .println "  git download               - Download git software tool",
    .println "  echo [text]                - Print text back to screen",
    .setColor .white .black]

def cwdPath (cwd : List Str) : List VgaCall :=
  if cwd.isEmpty then [.println "/"]
  else cwd.flatMap (fun segment => [.write "/", .write segment]) ++ [.println ""]

def underGuard (body : KernelM Unit) : KernelM Unit := do
  body
  unlock .writer

def sayError (e : Str) : KernelM Unit :=
  say [.setColor .lightRed .black, .println e, .setColor .white .black]

def withTarget (pathStr invalid : Str) (body : List Str → Str → KernelM Unit) : KernelM Unit :=
  withLock .fs do
    let (parentSegments, name) := splitParentAndName (resolvePath (← getShell).cwd pathStr)
    if name.isEmpty then say [.println invalid] else body parentSegments name

def mutate (op : FileSystem → Except Str Unit × FileSystem) (success : List VgaCall) :
    KernelM Unit := do
  let (result, fs) := op (← getFs)
  setFs fs
  match result with
  | .ok _ => say success
  | .error e => sayError e

def directory : KernelM Unit := do say (cwdPath (← getShell).cwd)

def changeDirectory (path announcement : Str) : KernelM Unit :=
  withLock .fs do
    let shell ← getShell
    let resolved := resolvePath shell.cwd path
    if ((← getFs).findDirectory resolved).isSome then
      setShell { shell with cwd := resolved }
      say (.write announcement :: cwdPath resolved)
    else sayError "Error: Directory not found."

def enter : List Str → KernelM Unit
  | [] => say [.println "Usage: enter [path]"]
  | path :: _ => changeDirectory path "Entered directory: "

def cd (args : List Str) : KernelM Unit :=
  changeDirectory (args.headD "..") "Changed directory to: "

def back : KernelM Unit := do
  let shell ← getShell
  if shell.cwd.isEmpty then say [.println "Already at root directory (/)."]
  else
    setShell { shell with cwd := shell.cwd.dropLast }
    say (.write "Returned to: " :: cwdPath shell.cwd.dropLast)

def folder : List Str → KernelM Unit
  | [] => say [.println "Usage: folder [name]"]
  | pathStr :: _ =>
    withTarget pathStr "Error: Invalid directory name" fun parentSegments dirName => do
      let ticks ← timerTicks
      mutate (·.createDirectory parentSegments dirName ticks)
        [.println "Directory folder created successfully in B-Tree index."]

def listItem (item : Str × Bool) : List VgaCall :=
  let padding := 20 - min (utf8Len item.1) 19
  .write item.1 :: List.replicate padding (.write " ") ++
    if item.2 then [.setColor .lightBlue .black, .println "<DIR>", .setColor .white .black]
    else [.println "File"]

def list : KernelM Unit :=
  withLock .fs do
    match (← getFs).listDirectory (← getShell).cwd with
    | .ok items =>
      if items.isEmpty then say [.println "Directory is empty."]
      else
        say ([.setColor .lightCyan .black, .println "Name                 Type",
          .setColor .white .black] ++ items.flatMap listItem)
    | .error e => sayError e

def withValidFilename (rawPath : Str) (body : Str → KernelM Unit) : KernelM Unit :=
  match normalizeAndValidateFilename rawPath with
  | .ok finalPath => body finalPath
  | .error e => sayError e

def create : List Str → KernelM Unit
  | [] => say [.println "Usage: create [filename]"]
  | rawPath :: _ =>
    withValidFilename rawPath fun finalPath =>
      withTarget finalPath "Error: Invalid filename" fun parentSegments targetName => do
        let ticks ← timerTicks
        mutate (·.createFile parentSegments targetName ticks)
          [.setColor .lightGreen .black, .write "File '", .write targetName,
            .println "' created successfully in B-Tree index.", .setColor .white .black]

def write : List Str → KernelM Unit
  | pathStr :: word :: words =>
    withTarget pathStr "Error: Invalid filename" fun parentSegments targetName =>
      mutate (·.writeFile parentSegments targetName (join " " (word :: words)))
        [.println "Text written to file in B-Tree index."]
  | _ => say [.println "Usage: write [filename] [text]"]

def read : List Str → KernelM Unit
  | [] => say [.println "Usage: read [filename]"]
  | pathStr :: _ =>
    withTarget pathStr "Error: Invalid filename" fun parentSegments targetName => do
      match (← getFs).readFile parentSegments targetName with
      | .ok content =>
        say [.println "--- Content ---", .println content, .println "---------------"]
      | .error e => sayError e

def delete : List Str → KernelM Unit
  | [] => say [.println "Usage: delete [filename/folder]"]
  | pathStr :: _ =>
    withTarget pathStr "Error: Invalid target" fun parentSegments targetName =>
      mutate (·.deleteNode parentSegments targetName)
        [.println "Target deleted successfully from B-Tree index."]

/-- The file that `edit` opens, made first if the directory has no such file. The
results of all three operations are ignored. -/
def openFile (fs : FileSystem) (parentSegments : List Str) (targetName : Str) (ticks : Nat) :
    Str × FileSystem :=
  let dirItems := (fs.listDirectory parentSegments).toOption.getD []
  let fileExists := dirItems.any fun (name, isDir) => name = targetName && !isDir
  let fs := if fileExists then fs else (fs.createFile parentSegments targetName ticks).2
  ((fs.readFile parentSegments targetName).toOption.getD [], fs)

def edit : List Str → KernelM Unit
  | [] => say [.println "Usage: edit [filename]"]
  | rawPath :: _ =>
    withValidFilename rawPath fun finalPath =>
      withTarget finalPath "Error: Invalid filename" fun parentSegments targetName => do
        let (currentContent, fs) := openFile (← getFs) parentSegments targetName (← timerTicks)
        setFs fs
        setShell { ← getShell with
          editorFilename := finalPath
          editorBuffer := currentContent
          mode := .editor
          savePending := false }
        say [.clear, .setColor .lightCyan .black, .write "--- Editing File: ", .write targetName,
          .println " ---",
          .println ("Type your text below. Save & Exit: Ctrl+S + Ctrl+K  | " ++
            "Exit without saving: ESC"),
          .println "------------------------------------------------------------------------",
          .setColor .white .black, .write currentContent]

def clear : KernelM Unit := say [.clear]

def system : KernelM Unit := do
  let ticks ← timerTicks
  say [.setColor .lightGreen .black, .println "--- AliluOS System Info ---",
    .setColor .white .black, .println "OS Name: AliluOS (ಅಳಿಲು)",
    .println "Architecture: x86_64 Bare-Metal", .println "Platform: Standard PC compatible",
    .println "Heap Status: 5 MiB (5120 KiB) initialized",
    .println "Filesystem: B-Tree Indexed Hierarchy", .write "Uptime: ",
    .write (decimal (ticks / 100)), .println " seconds"]

def tasks : KernelM Unit :=
  say [.setColor .lightGreen .black, .println "--- Active Kernel Tasks ---",
    .setColor .white .black, .println "PID   NAME         STATUS",
    .println "0     idle_loop    RUNNING", .println "1     shell_cli    RUNNING"]

def echo (args : List Str) : KernelM Unit := say [.println (join " " args)]

def play : List Str → KernelM Unit
  | [] => underGuard <| say [.println "Usage: play [atari / chess]"]
  | game :: _ => do
    unlock .writer
    if game = "atari".toList then Apps.startAtari
    else if game = "chess".toList then Apps.startChess
    else withLock .writer <| say [.println "Unknown game. Choose 'atari' or 'chess'."]

def draw : KernelM Unit := do
  unlock .writer
  Apps.startCanvas

def browse (args : List Str) : KernelM Unit := do
  unlock .writer
  Network.startBrowser (join " " args)

def gitUsage : List VgaCall := [.println "Usage: git clone [repo_url] | git download"]

def git : List Str → KernelM Unit
  | [] => underGuard <| say gitUsage
  | subcommand :: args => do
    unlock .writer
    if subcommand = "download".toList then Network.downloadGitSoftware
    else
      match args with
      | repoUrl :: _ =>
        if subcommand = "clone".toList then Network.gitClone repoUrl
        else withLock .writer <| say gitUsage
      | [] => withLock .writer <| say gitUsage

def notRecognized (command : Str) : KernelM Unit :=
  say [.setColor .lightRed .black, .write "Command not recognized: ", .println command,
    .setColor .white .black, .println "Type 'help' to view all commands."]

inductive Verb
  | clear | system | tasks | directory | enter | back | cd | folder | list | create | write | read
  | delete | edit | play | draw | browse | git | echo
deriving DecidableEq

def verbs : List (Str × Verb) :=
  [("clear", .clear), ("system", .system), ("tasks", .tasks), ("directory", .directory),
    ("enter", .enter), ("back", .back), ("leave", .back), ("up", .back), ("cd", .cd),
    ("folder", .folder), ("list", .list), ("create", .create), ("write", .write), ("read", .read),
    ("delete", .delete), ("edit", .edit), ("play", .play), ("draw", .draw), ("browse", .browse),
    ("web", .browse), ("git", .git), ("echo", .echo)]

def runVerb (args : List Str) : Verb → KernelM Unit
  | .clear => underGuard clear
  | .system => underGuard system
  | .tasks => underGuard tasks
  | .directory => underGuard directory
  | .enter => underGuard (enter args)
  | .back => underGuard back
  | .cd => underGuard (cd args)
  | .folder => underGuard (folder args)
  | .list => underGuard list
  | .create => underGuard (create args)
  | .write => underGuard (write args)
  | .read => underGuard (read args)
  | .delete => underGuard (delete args)
  | .edit => underGuard (edit args)
  | .play => play args
  | .draw => draw
  | .browse => browse args
  | .git => git args
  | .echo => underGuard (echo args)

def wantsHelp (command : Str) (args : List Str) : Bool :=
  command = "help".toList || args.contains "--help".toList || args.contains "-h".toList

def dispatch (command : Str) (args : List Str) : KernelM Unit :=
  if wantsHelp command args then withLock .writer <| say manual
  else do
    lock .writer
    match verbs.lookup command with
    | some verb => runVerb args verb
    | none => underGuard (notRecognized command)

def executeCommand (cmdLine : Str) : KernelM Unit :=
  let trimmed := trim cmdLine
  if trimmed.isEmpty then return
  else
    let parts := splitWhitespace trimmed
    dispatch (parts.headD []) parts.tail

end AliluOS.Shell
