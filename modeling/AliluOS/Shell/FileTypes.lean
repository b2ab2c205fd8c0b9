import AliluOS.Shell.Directory

/-! Which files can come into being: every one has an allowed type, except for those
that `write` makes. -/

namespace AliluOS
open Text Fs Shell

def AllowedAt (q : List Str) : Prop := ∀ parent name, q = parent ++ [name] → HasAllowedType name

theorem allowedAt_append {parent : List Str} {name : Str} :
    AllowedAt (parent ++ [name]) ↔ HasAllowedType name := by
  constructor
  · exact fun h => h parent name rfl
  · rintro h parent' name' heq
    obtain ⟨-, rfl⟩ := List.append_singleton_inj.mp heq
    exact h

namespace Fs.FileSystem

def AllowedFiles (fs : FileSystem) : Prop :=
  ∀ q c, fs.paths.entry q = some (.file c) → AllowedAt q

variable {fs : FileSystem} {parent : List Str} {name : Str}

theorem allowed_writeFile {content : Str} (hfs : fs.AllowedFiles) :
    (fs.writeFile parent name content).2.AllowedFiles ↔
      (fs.IsDirectory parent → fs.paths.entry (parent ++ [name]) = none → HasAllowedType name) := by
  constructor
  · intro h hparent hnone
    have hpre : fs.IsDirectory parent ∧ fs.paths.entry (parent ++ [name]) ≠ some .dir :=
      ⟨hparent, by simp [hnone]⟩
    refine allowedAt_append.mp (h (parent ++ [name]) content ?_)
    simp [refines_writeFile.ok hpre]
  · intro h
    refine files_of_refines refines_writeFile hfs fun ⟨hparent, hdir⟩ q c hq => ?_
    split_ifs at hq with htarget
    · rw [htarget]
      rcases hentry : fs.paths.entry (parent ++ [name]) with _ | _ | old
      · exact allowedAt_append.mpr (h hparent hentry)
      · exact absurd hentry hdir
      · exact hfs _ old hentry
    · exact hfs q c hq

end Fs.FileSystem

namespace Session

variable {s : Session} {path : Str} {op : List Str → Str → Session}

/-- A file open in the editor has a name that `edit` has accepted. -/
def EditsValid (s : Session) : Prop :=
  s.shell.mode = .editor →
    ∃ rawPath, normalizeAndValidateFilename rawPath = .ok s.shell.editorFilename

theorem allowed_atTarget (hs : s.fs.AllowedFiles)
    (h : ∀ parent name, s.resolve path = parent ++ [name] → (op parent name).fs.AllowedFiles) :
    (s.atTarget path op).fs.AllowedFiles := by
  rcases s.atTarget_cases path op with heq | ⟨parent, name, hresolve, heq⟩ <;> rw [heq]
  · exact hs
  · exact h parent name hresolve

theorem allowed_resolve {rawPath finalPath : Str} {parent : List Str} {name : Str}
    (h : normalizeAndValidateFilename rawPath = .ok finalPath)
    (hresolve : s.resolve finalPath = parent ++ [name]) : HasAllowedType name := by
  obtain ⟨parent', heq⟩ := resolve_normalized h s.shell.cwd
  obtain ⟨-, rfl⟩ := List.append_singleton_inj.mp (hresolve.symm.trans heq)
  exact normalize_ok h

theorem allowed_save (hs : s.fs.AllowedFiles) (hmode : s.shell.mode = .editor)
    (hvalid : s.EditsValid) : s.save.fs.AllowedFiles := by
  obtain ⟨rawPath, hnormal⟩ := hvalid hmode
  apply allowed_atTarget hs
  intro parent name hresolve
  exact (FileSystem.allowed_writeFile hs).mpr fun _ _ => allowed_resolve hnormal hresolve

theorem allowed_openFile {parent : List Str} {name : Str} (hs : s.fs.AllowedFiles)
    (hname : HasAllowedType name) (ticks : Nat) :
    (openFile s.fs parent name ticks).2.AllowedFiles := by
  unfold openFile
  dsimp only
  split_ifs
  · exact hs
  · exact FileSystem.files_createFile hs (allowedAt_append.mpr hname) ticks

theorem allowed_execute {ticks : Nat} {r : Request} (hs : s.fs.AllowedFiles)
    (hr : ∀ path text, r ≠ .write path text) : (s.execute ticks r).fs.AllowedFiles := by
  cases r with
  | goTo path =>
    rw [execute, goTo]
    split_ifs <;> exact hs
  | back => exact hs
  | folder path =>
    exact allowed_atTarget hs fun _ _ _ => FileSystem.files_createDirectory hs _ _ _
  | create path =>
    rw [execute]
    split
    · next hnormal =>
      exact allowed_atTarget hs fun _ _ hresolve =>
        FileSystem.files_createFile hs (allowedAt_append.mpr (allowed_resolve hnormal hresolve)) _
    · exact hs
  | write path text => exact absurd rfl (hr path text)
  | delete path => exact allowed_atTarget hs fun _ _ _ => FileSystem.files_deleteNode hs _ _
  | edit path =>
    rw [execute]
    split
    · next hnormal =>
      exact allowed_atTarget hs fun _ _ hresolve =>
        allowed_openFile hs (allowed_resolve hnormal hresolve) ticks
    · exact hs
  | gitClone url => exact FileSystem.files_createDirectory hs _ _ _
  | atari => exact hs
  | app => exact hs
  | other => exact hs

theorem allowed_write {ticks : Nat} {text : Str} (hs : s.fs.AllowedFiles)
    (hproper : Proper s.shell.cwd) :
    (s.execute ticks (.write path text)).fs.AllowedFiles ↔
      ∀ parent name, s.resolve path = parent ++ [name] → s.fs.IsDirectory parent →
        s.fs.paths.entry (parent ++ [name]) = none → HasAllowedType name := by
  rw [execute]
  rcases List.eq_nil_or_concat (s.resolve path) with hroot | ⟨parent, name, htarget⟩
  · rw [atTarget_root hroot]
    exact iff_of_true hs fun parent name h => by simp [hroot] at h
  rw [List.concat_eq_append] at htarget
  rw [atTarget_eq htarget (proper_target hproper htarget), FileSystem.allowed_writeFile hs]
  constructor
  · intro h parent' name' heq
    obtain ⟨rfl, rfl⟩ := List.append_singleton_inj.mp (htarget.symm.trans heq)
    exact h
  · exact fun h => h parent name htarget

theorem editsValid_execute {ticks : Nat} {r : Request} (hmode : s.shell.mode = .command) :
    (s.execute ticks r).EditsValid := by
  have hcommand : ∀ s' : Session, s'.shell.mode = .command → s'.EditsValid := by
    intro s' hs' heditor
    simp [hs'] at heditor
  have hfs : ∀ path (op : List Str → Str → FileSystem),
      (s.atTarget path fun parent name => { s with fs := op parent name }).EditsValid := by
    intro path op
    apply hcommand _
    rcases s.atTarget_cases path _ with heq | ⟨parent, name, -, heq⟩ <;> rw [heq] <;> exact hmode
  cases r with
  | goTo path =>
    rw [execute, goTo]
    split_ifs <;> exact hcommand _ hmode
  | folder path => exact hfs path _
  | create path =>
    rw [execute]
    split
    · exact hfs _ _
    · exact hcommand _ hmode
  | write path text => exact hfs path _
  | delete path => exact hfs path _
  | edit path =>
    rw [execute]
    split
    · next finalPath hnormal =>
      rcases s.atTarget_cases finalPath _ with heq | ⟨parent, name, -, heq⟩ <;>
        rw [openEditor, heq]
      · exact hcommand _ hmode
      · exact fun _ => ⟨path, hnormal⟩
    · exact hcommand _ hmode
  | _ => exact hcommand _ hmode

theorem editsValid_press {p : Press} (hs : s.EditsValid) : (s.press p).EditsValid := by
  cases s.pressed p with
  | typed _ _ heditor =>
    intro hmode
    obtain ⟨hmode', hfilename⟩ := heditor hmode
    rw [hfilename]
    exact hs hmode'
  | saved _ _ _ _ hcommand => exact fun hmode => by simp [hcommand] at hmode
  | executed _ hmode heq =>
    rw [heq]
    exact editsValid_execute hmode

end Session

namespace Shell
open Kernel Lib

/-- The key press executes a `write` that makes a new file under a name without an
allowed extension. -/
def Press.WritesUnsupported (p : Press) (s : Session) : Prop :=
  ∃ path text parent name, p.Executes s (.write path text) ∧ s.resolve path = parent ++ [name] ∧
    s.fs.IsDirectory parent ∧ s.fs.paths.entry (parent ++ [name]) = none ∧ ¬ HasAllowedType name

theorem allowed_press {p : Press} {s : Session} (hs : s.fs.AllowedFiles)
    (hproper : Proper s.shell.cwd) (hvalid : s.EditsValid) :
    (s.press p).fs.AllowedFiles ↔ ¬ p.WritesUnsupported s := by
  by_cases hwrite : ∃ path text, p.Executes s (.write path text)
  · obtain ⟨path, text, hkey, hmode, hrequest⟩ := hwrite
    rw [Session.press_execute hkey hmode, hrequest,
      Session.allowed_write (s := s.submit) hs hproper]
    constructor
    · rintro h ⟨path', text', parent, name, ⟨-, -, hrequest'⟩, hresolve, hparent, hnone, hname⟩
      obtain ⟨rfl, rfl⟩ := Request.write.inj (hrequest.symm.trans hrequest')
      exact hname (h parent name hresolve hparent hnone)
    · intro h parent name hresolve hparent hnone
      by_contra hname
      exact h ⟨path, text, parent, name, ⟨hkey, hmode, hrequest⟩, hresolve, hparent, hnone, hname⟩
  · have hkeep : (s.press p).fs.AllowedFiles := by
      cases s.pressed p with
      | typed hfs _ _ => rwa [hfs]
      | saved text hmode hfs _ _ =>
        rw [hfs]
        exact Session.allowed_save (s := s.setBuffer text) hs hmode hvalid
      | executed hkey hmode heq =>
        rw [heq]
        exact Session.allowed_execute hs fun path text hrequest =>
          hwrite ⟨path, text, hkey, hmode, hrequest⟩
    exact iff_of_true hkeep fun ⟨path, text, _, _, hexec, _⟩ => hwrite ⟨path, text, hexec⟩

/-- Over every run, all files have allowed types exactly when no executed `write`
makes a file of another type. -/
theorem allowed_files_iff {tr : List (Machine × Press)} {s : Machine}
    (h : Run Machine.Step boot tr s) :
    Always (·.Holds fun m => m.state.fs.AllowedFiles) tr s ↔
      Guarded (fun s p => s.Holds fun m => ¬ p.WritesUnsupported m.state.session) tr := by
  refine Machine.always_iff_guarded (J := fun s => Proper s.shell.cwd ∧ s.EditsValid)
    (Q := fun s => s.fs.AllowedFiles) h ⟨⟨?_, ?_⟩, ?_⟩
    (fun _ _ ⟨hproper, hvalid⟩ => ⟨Session.proper_press hproper, Session.editsValid_press hvalid⟩)
    (fun _ _ ⟨hproper, hvalid⟩ hs => allowed_press hs hproper hvalid) fun _ => id
  · simp [Proper, Shell.new]
  · simp [Session.EditsValid, Shell.new]
  · intro q c hq
    simp [FileSystem.entry_new] at hq

theorem any_allowed_iff (name : Str) :
    (afterLast '.' name).any (allowed.contains <| toLowercase ·) = true ↔ HasAllowedType name := by
  simp [HasAllowedType, Option.any_eq_true]

instance decidableHasAllowedType (name : Str) : Decidable (HasAllowedType name) :=
  decidable_of_iff _ (any_allowed_iff name)

def Press.writesAllowed (p : Press) (s : Session) : Bool :=
  p.key ≠ .enter || match request s.shell.buffer with
    | .write path _ => (s.resolve path).getLast?.all fun name => HasAllowedType name
    | _ => true

theorem Press.not_writesUnsupported {p : Press} {s : Session} (h : p.writesAllowed s = true) :
    ¬ p.WritesUnsupported s := by
  rintro ⟨path, text, parent, name, ⟨hkey, -, hrequest⟩, hresolve, -, -, hname⟩
  simp only [writesAllowed, hkey, hrequest, hresolve] at h
  exact hname (by simpa using h)

def filed : List Press :=
  typed "folder a" ++ typed "write a/x.TXT hi" ++ typed "create y" ++ typed "cd a" ++
    typed "write ../y.txt more" ++ typed "delete x.TXT"

theorem allowed_files_filed : ∃ tr m, Run Machine.Step boot tr (.running m) ∧
    m.state.fs.paths.entry ["y.txt".toList] = some (.file "more".toList) ∧
    Always (·.Holds fun m => m.state.fs.AllowedFiles) tr (.running m) := by
  have hchecked : boot.checked (fun m p => p.writesAllowed m.state.session) filed = true := by
    decide +kernel
  have hfile : ¬ (boot.presses filed).Holds fun m =>
      ¬ m.state.fs.paths.entry ["y.txt".toList] = some (.file "more".toList) := by
    decide +kernel
  obtain ⟨tr, hrun, hguard⟩ := Machine.run_checked hchecked
  obtain ⟨m, hm, hfile⟩ := Machine.exists_running hfile
  rw [hm] at hrun
  refine ⟨tr, m, hrun, hfile, (allowed_files_iff hrun).mpr fun x hx n hn => ?_⟩
  exact Press.not_writesUnsupported (hguard x hx n hn)

def writtenExecutable : List Press := typed "write a.exe hello"

theorem executable_written : (∃ tr, Run Machine.Step boot tr (boot.presses writtenExecutable)) ∧
    ¬ (boot.presses writtenExecutable).Holds fun m => m.state.fs.AllowedFiles := by
  refine ⟨boot.run_presses writtenExecutable, fun hallowed => ?_⟩
  have hfile : ¬ (boot.presses writtenExecutable).Holds fun m =>
      m.state.fs.paths.entry ["a.exe".toList] ≠ some (.file "hello".toList) := by decide +kernel
  apply hfile
  intro m hm hentry
  obtain ⟨ext, hext, htype⟩ : HasAllowedType "a.exe".toList := hallowed m hm _ _ hentry [] _ rfl
  obtain rfl : "exe".toList = ext := Option.some.inj hext
  exact absurd htype (by decide)

end Shell

end AliluOS
