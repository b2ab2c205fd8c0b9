import AliluOS.Fs.Refinement
import AliluOS.Shell.Editor

/-! The shell over a path map. What the keys do to the shell and to what the filesystem
holds depends neither on the tree and its time stamps nor on when they are pressed. -/

namespace AliluOS
open Text Fs Lib Shell

def contentAt (paths : PathMap Str Str) (q : List Str) : Str :=
  match paths.entry q with
  | some (.file content) => content
  | _ => []

structure Workspace where
  shell : Shell
  paths : PathMap Str Str

namespace Workspace

def start : Workspace := ⟨.new, FileSystem.new.paths⟩

def atTarget (w : Workspace) (path : Str) (op : List Str → Str → Workspace) : Workspace :=
  let (parent, name) := splitParentAndName (resolvePath w.shell.cwd path)
  if name.isEmpty then w else op parent name

def goTo (w : Workspace) (path : Str) : Workspace :=
  if w.paths.entry (resolvePath w.shell.cwd path) = some .dir then
    { w with shell := { w.shell with cwd := resolvePath w.shell.cwd path } }
  else w

def openEditor (w : Workspace) (finalPath : Str) : Workspace :=
  w.atTarget finalPath fun parent name =>
    let paths := w.paths.create parent name (.file [])
    ⟨{ w.shell with
        editorFilename := finalPath, editorBuffer := contentAt paths (parent ++ [name])
        mode := .editor, savePending := false }, paths⟩

def execute (w : Workspace) : Request → Workspace
  | .goTo path => w.goTo path
  | .back => { w with shell := { w.shell with cwd := w.shell.cwd.dropLast } }
  | .folder path =>
    w.atTarget path fun parent name => { w with paths := w.paths.create parent name .dir }
  | .create path =>
    match normalizeAndValidateFilename path with
    | .ok finalPath =>
      w.atTarget finalPath fun parent name =>
        { w with paths := w.paths.create parent name (.file []) }
    | .error _ => w
  | .write path text =>
    w.atTarget path fun parent name => { w with paths := w.paths.write parent name text }
  | .delete path =>
    w.atTarget path fun parent name => { w with paths := w.paths.delete parent name }
  | .edit path =>
    match normalizeAndValidateFilename path with
    | .ok finalPath => w.openEditor finalPath
    | .error _ => w
  | .gitClone _ => { w with paths := w.paths.create [] "git" .dir }
  | .atari | .app | .other => w

def save (w : Workspace) : Workspace :=
  w.atTarget w.shell.editorFilename fun parent name =>
    { w with paths := w.paths.write parent name w.shell.editorBuffer }

def close (w : Workspace) : Workspace := { w with shell := closeEditor w.shell }

def setPending (w : Workspace) (pending : Bool) : Workspace :=
  { w with shell := { w.shell with savePending := pending } }

def setBuffer (w : Workspace) (text : Str) : Workspace :=
  { w with shell := { w.shell with editorBuffer := text } }

def type (w : Workspace) (c : Char) : Workspace :=
  match w.shell.mode with
  | .command => { w with shell := { w.shell with buffer := w.shell.buffer ++ [c] } }
  | .editor => w.setBuffer (w.shell.editorBuffer ++ [c])
  | .helpViewer => w

def erase (w : Workspace) : Workspace :=
  match w.shell.mode with
  | .command => { w with shell := { w.shell with buffer := w.shell.buffer.dropLast } }
  | .editor => w.setBuffer w.shell.editorBuffer.dropLast
  | .helpViewer => w

def escape (w : Workspace) : Workspace :=
  match w.shell.mode with
  | .command => { w with shell := { w.shell with buffer := [] } }
  | .editor => (w.close).setPending false
  | .helpViewer => { w with shell := { w.shell with mode := .command } }

def ctrlChar (w : Workspace) (c : Char) : Workspace :=
  if w.shell.mode = .editor then
    if c.toLower = 's' then w.setPending true
    else if c.toLower = 'k' ∧ w.shell.savePending then (w.save.close).setPending false
    else w
  else w

def submit (w : Workspace) : Workspace := { w with shell := { w.shell with buffer := [] } }

def enter (w : Workspace) : Workspace :=
  match w.shell.mode with
  | .command => w.submit.execute (request w.shell.buffer)
  | .editor =>
    if trim w.shell.lastLine = ":wq".toList then
      (w.setBuffer (w.shell.editorBuffer.rdrop (utf8Len w.shell.lastLine))).save.close
    else if trim w.shell.lastLine = ":q".toList then w.close
    else w.setBuffer (w.shell.editorBuffer ++ ['\n'])
  | .helpViewer => w

/-- A key, and whether Ctrl is held. -/
def press (w : Workspace) (t : Key × Bool) : Workspace :=
  match t.1 with
  | .character c => if t.2 then w.ctrlChar c else w.type c
  | .space => w.type ' '
  | .enter => w.enter
  | .backspace => w.erase
  | .escape => w.escape
  | _ => w

end Workspace

namespace Fs.FileSystem

variable {fs : FileSystem} {parent : List Str} {name : Str}

theorem isDirectory_iff_entry : fs.IsDirectory parent ↔ fs.paths.entry parent = some .dir := by
  rw [isDirectory_iff, fs.entry_eq_dir_iff]

theorem paths_create {e : Entry Str} {r : Except Str Unit × FileSystem}
    (h : Refines fs (fs.IsDirectory parent ∧ fs.paths.entry (parent ++ [name]) = none)
      (fun q => if q = parent ++ [name] then some e else fs.paths.entry q) r) :
    r.2.paths = fs.paths.create parent name e := by
  rw [isDirectory_iff_entry] at h
  rcases h.cases with ⟨hpre, hentry⟩ | ⟨hpre, hsame⟩
  · ext q : 1
    rw [hentry, PathMap.entry_create hpre]
  · rw [hsame, PathMap.create_of_not hpre]

theorem paths_createDirectory (ticks : Nat) :
    (fs.createDirectory parent name ticks).2.paths = fs.paths.create parent name .dir :=
  paths_create refines_createDirectory

theorem paths_createFile (ticks : Nat) :
    (fs.createFile parent name ticks).2.paths = fs.paths.create parent name (.file []) :=
  paths_create refines_createFile

theorem paths_writeFile (content : Str) :
    (fs.writeFile parent name content).2.paths = fs.paths.write parent name content := by
  have h := @refines_writeFile fs parent name content
  rw [isDirectory_iff_entry] at h
  rcases h.cases with ⟨hpre, hentry⟩ | ⟨hpre, hsame⟩
  · ext q : 1
    rw [hentry, PathMap.entry_write hpre]
  · rw [hsame, PathMap.write_of_not hpre]

theorem paths_deleteNode :
    (fs.deleteNode parent name).2.paths = fs.paths.delete parent name := by
  have h := @refines_deleteNode fs parent name
  rw [isDirectory_iff_entry] at h
  rcases h.cases with ⟨-, hentry⟩ | ⟨hpre, hsame⟩
  · ext q : 1
    rw [hentry, PathMap.entry_delete]
  · rw [hsame]
    refine (PathMap.delete_of_none ?_).symm
    by_contra hsome
    have hdir := fs.paths.closed parent name (Option.isSome_iff_ne_none.mpr hsome)
    exact hpre ⟨hdir, hsome⟩

theorem readFile_eq_contentAt :
    (fs.readFile parent name).toOption.getD [] = contentAt fs.paths (parent ++ [name]) := by
  have hread : ∀ c, fs.readFile parent name = .ok c ↔
      fs.paths.entry (parent ++ [name]) = some (.file c) := fun c => readFile_eq_ok
  rw [contentAt]
  rcases hentry : fs.paths.entry (parent ++ [name]) with _ | _ | c
  · cases hr : fs.readFile parent name with
    | error e => rfl
    | ok c => exact nomatch hentry.symm.trans ((hread c).mp hr)
  · cases hr : fs.readFile parent name with
    | error e => rfl
    | ok c => exact nomatch hentry.symm.trans ((hread c).mp hr)
  · rw [(hread c).mpr hentry]
    rfl

theorem openFile_paths (ticks : Nat) :
    (openFile fs parent name ticks).2.paths = fs.paths.create parent name (.file []) ∧
      (openFile fs parent name ticks).1 =
        contentAt (fs.paths.create parent name (.file [])) (parent ++ [name]) := by
  have hpaths : (openFile fs parent name ticks).2.paths =
      fs.paths.create parent name (.file []) := by
    unfold openFile
    dsimp only
    split_ifs with hany
    · by_cases hparent : fs.IsDirectory parent
      · obtain ⟨c, hentry⟩ := (Session.any_listDirectory hparent).mp hany
        refine (PathMap.create_of_not fun h => ?_).symm
        exact nomatch h.2.symm.trans hentry
      · rw [isDirectory_iff_entry] at hparent
        exact (PathMap.create_of_not fun h => hparent h.1).symm
    · exact paths_createFile ticks
  refine ⟨hpaths, ?_⟩
  rw [← hpaths]
  exact readFile_eq_contentAt

end Fs.FileSystem

namespace Session

def workspace (s : Session) : Workspace := ⟨s.shell, s.fs.paths⟩

variable {s : Session}

theorem shell_workspace (s : Session) : s.workspace.shell = s.shell := rfl

theorem workspace_atTarget {path : Str} {op : List Str → Str → Session}
    {op' : List Str → Str → Workspace}
    (h : ∀ parent name, (op parent name).workspace = op' parent name) :
    (s.atTarget path op).workspace = s.workspace.atTarget path op' := by
  unfold atTarget Workspace.atTarget
  change (if _ then s else _).workspace = if _ then s.workspace else _
  rw [apply_ite workspace]
  exact congrArg _ (h _ _)

theorem workspace_goTo (path : Str) : (s.goTo path).workspace = s.workspace.goTo path := by
  have hdir : (s.fs.findDirectory (s.resolve path)).isSome ↔
      s.fs.paths.entry (s.resolve path) = some .dir := by
    rw [FileSystem.findDirectory_eq, FileSystem.entry_eq_dir_iff]
  unfold goTo Workspace.goTo
  rw [apply_ite workspace]
  exact if_congr hdir rfl rfl

theorem workspace_openEditor (finalPath : Str) (ticks : Nat) :
    (s.openEditor finalPath ticks).workspace = s.workspace.openEditor finalPath := by
  refine workspace_atTarget fun parent name => ?_
  obtain ⟨hpaths, hcontent⟩ := @FileSystem.openFile_paths s.fs parent name ticks
  change Workspace.mk { s.shell with
    editorFilename := finalPath, editorBuffer := (openFile s.fs parent name ticks).1
    mode := .editor, savePending := false } (openFile s.fs parent name ticks).2.paths = _
  rw [hpaths, hcontent]
  rfl

theorem workspace_execute (ticks : Nat) (r : Request) :
    (s.execute ticks r).workspace = s.workspace.execute r := by
  cases r with
  | goTo path => exact workspace_goTo path
  | back => rfl
  | folder path =>
    dsimp only [execute, Workspace.execute]
    refine workspace_atTarget fun parent name => ?_
    exact congrArg (Workspace.mk s.shell) (FileSystem.paths_createDirectory ticks)
  | create path =>
    dsimp only [execute, Workspace.execute]
    cases normalizeAndValidateFilename path with
    | ok finalPath =>
      refine workspace_atTarget fun parent name => ?_
      exact congrArg (Workspace.mk s.shell) (FileSystem.paths_createFile ticks)
    | error e => rfl
  | write path text =>
    dsimp only [execute, Workspace.execute]
    refine workspace_atTarget fun parent name => ?_
    exact congrArg (Workspace.mk s.shell) (FileSystem.paths_writeFile text)
  | delete path =>
    dsimp only [execute, Workspace.execute]
    refine workspace_atTarget fun parent name => ?_
    exact congrArg (Workspace.mk s.shell) FileSystem.paths_deleteNode
  | edit path =>
    dsimp only [execute, Workspace.execute]
    cases normalizeAndValidateFilename path with
    | ok finalPath => exact workspace_openEditor finalPath ticks
    | error e => rfl
  | gitClone url => exact congrArg (Workspace.mk s.shell) (FileSystem.paths_createDirectory ticks)
  | atari | app | other => rfl

theorem workspace_save : s.save.workspace = s.workspace.save := by
  refine workspace_atTarget fun parent name => ?_
  exact congrArg (Workspace.mk s.shell) (FileSystem.paths_writeFile _)

theorem workspace_close : s.close.workspace = s.workspace.close := rfl

theorem workspace_setPending (pending : Bool) :
    (s.setPending pending).workspace = s.workspace.setPending pending := rfl

theorem workspace_setBuffer (text : Str) :
    (s.setBuffer text).workspace = s.workspace.setBuffer text := rfl

theorem workspace_type (c : Char) : (s.type c).workspace = s.workspace.type c := by
  unfold type Workspace.type
  rw [shell_workspace]
  cases s.shell.mode <;> rfl

theorem workspace_erase : s.erase.workspace = s.workspace.erase := by
  unfold erase Workspace.erase
  rw [shell_workspace]
  cases s.shell.mode <;> rfl

theorem workspace_escape : s.escape.workspace = s.workspace.escape := by
  unfold escape Workspace.escape
  rw [shell_workspace]
  cases s.shell.mode <;> rfl

theorem workspace_ctrlChar (c : Char) : (s.ctrlChar c).workspace = s.workspace.ctrlChar c := by
  unfold ctrlChar Workspace.ctrlChar
  simp only [apply_ite workspace, workspace_setPending, workspace_close, workspace_save]
  rfl

theorem workspace_enter (ticks : Nat) : (s.enter ticks).workspace = s.workspace.enter := by
  unfold enter Workspace.enter
  rw [shell_workspace]
  cases s.shell.mode with
  | command => exact workspace_execute ticks _
  | editor =>
    dsimp only
    simp only [apply_ite workspace, workspace_setBuffer, workspace_close, workspace_save]
  | helpViewer => rfl

theorem workspace_press (p : Press) :
    (s.press p).workspace = s.workspace.press (p.key, p.ctrl) := by
  unfold press Workspace.press
  cases p.key with
  | character c =>
    dsimp only
    rw [apply_ite workspace, workspace_ctrlChar, workspace_type]
  | space => exact workspace_type ' '
  | enter => exact workspace_enter p.ticks
  | backspace => exact workspace_erase
  | escape => exact workspace_escape
  | _ => rfl

theorem workspace_presses (ps : List Press) :
    (ps.foldl press s).workspace =
      (ps.map fun p => (p.key, p.ctrl)).foldl Workspace.press s.workspace := by
  induction ps generalizing s with
  | nil => rfl
  | cons p ps ih =>
    rw [List.foldl_cons, ih, workspace_press]
    rfl

end Session

end AliluOS
