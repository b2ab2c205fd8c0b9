import AliluOS.Shell.Editor
import AliluOS.Text.Tokens

/-! Command lines from a command and its arguments: what they execute, and which node
their path names. -/

namespace AliluOS.Shell
open Text Fs Kernel Lib Thread

/-! ## Lines -/

def line (command : Str) (args : List Str) : Str := join " " (command :: args)

variable {command path : Str} {args : List Str} {verb : Verb} {m : Held Lock World}

theorem splitWhitespace_line (hcommand : Token command) (hargs : ∀ w ∈ args, Token w) :
    splitWhitespace (trim (line command args)) = command :: args := by
  rw [splitWhitespace_trim]
  exact splitWhitespace_join (List.forall_mem_cons.mpr ⟨hcommand, hargs⟩)

theorem request_line (hcommand : Token command) (hargs : ∀ w ∈ args, Token w) :
    request (line command args) = requestOf command args := by
  simp only [request, splitWhitespace_line hcommand hargs, List.headD_cons, List.tail_cons]

theorem requestOf_eq (hhelp : wantsHelp command args = false)
    (hverb : verbs.lookup command = some verb) : requestOf command args = verb.request args := by
  rw [requestOf, if_neg (Bool.eq_false_iff.mp hhelp), hverb]

theorem executeCommand_line (hcommand : Token command) (hargs : ∀ w ∈ args, Token w) :
    executeCommand (line command args) = dispatch command args := by
  have hparts := splitWhitespace_line hcommand hargs
  have htrim : ¬ (trim (line command args)).isEmpty := by
    intro htrim
    rw [List.isEmpty_iff.mp htrim] at hparts
    cases hparts
  rw [executeCommand, if_neg htrim, hparts]
  rfl

theorem executeCommand_returns (hm : Unlocked m) {cmdLine : Str} {r : Request}
    (hr : request cmdLine = r) (hatari : r ≠ .atari) (happ : r ≠ .app) :
    ∃ m', executeCommand cmdLine m = .ok ((), m') ∧ Unlocked m' ∧
      m'.state.session = m.state.session.execute m.state.ticks r := by
  subst hr
  obtain ⟨_, m', hok, hlocks, -, hsession⟩ := exists_of_wp (does_executeCommand _ hatari m hm) happ
  exact ⟨m', hok, hlocks, hsession⟩

/-! ## Write and read -/

theorem noHelp_iff {words : List Str} (hcommand : command ≠ "help".toList) :
    wantsHelp command words = false ↔
      ∀ w ∈ words, w ≠ "--help".toList ∧ w ≠ "-h".toList := by
  rw [wantsHelp_eq_false]
  constructor
  · rintro ⟨-, hlong, hshort⟩ w hw
    exact ⟨fun h => hlong (h ▸ hw), fun h => hshort (h ▸ hw)⟩
  · intro h
    exact ⟨hcommand, fun hmem => (h _ hmem).1 rfl, fun hmem => (h _ hmem).2 rfl⟩

theorem request_write {words : List Str} (hpath : Token path) (hne : words ≠ [])
    (hwords : ∀ w ∈ words, Token w) (hhelp : wantsHelp "write".toList (path :: words) = false) :
    request (line "write" (path :: words)) = .write path (join " " words) := by
  have hverb : verbs.lookup "write".toList = some .write := by decide
  rw [request_line (by decide) (List.forall_mem_cons.mpr ⟨hpath, hwords⟩), requestOf_eq hhelp hverb]
  cases words with
  | nil => exact absurd rfl hne
  | cons word words => rfl

theorem execute_write {words : List Str} {parent : List Str} {name : Str} (hm : Unlocked m)
    (hpath : Token path) (hne : words ≠ []) (hwords : ∀ w ∈ words, Token w)
    (hhelp : wantsHelp "write".toList (path :: words) = false)
    (htarget : m.state.session.resolve path = parent ++ [name]) (hname : name ≠ [])
    (hparent : m.state.fs.IsDirectory parent)
    (hfile : m.state.fs.paths.entry (parent ++ [name]) ≠ some .dir) :
    ∃ m', executeCommand (line "write" (path :: words)) m = .ok ((), m') ∧ Unlocked m' ∧
      m'.state.fs.paths.entry (parent ++ [name]) = some (.file (join " " words)) := by
  have hrequest := request_write hpath hne hwords hhelp
  obtain ⟨m', hok, hm', hsession⟩ := executeCommand_returns hm hrequest (by simp) (by simp)
  refine ⟨m', hok, hm', ?_⟩
  rw [Session.execute, Session.atTarget_eq htarget hname] at hsession
  have hfs : m'.state.fs = (m.state.fs.writeFile parent name (join " " words)).2 :=
    congrArg Session.fs hsession
  rw [hfs, FileSystem.refines_writeFile.ok ⟨hparent, hfile⟩]
  exact if_pos rfl

/-- In every reachable state, `write` followed by a path and by words makes these words
the content of the file, if none of them asks for help. -/
theorem write_then_read {tr : List (Machine × Press)} {words parent : List Str} {name : Str}
    (h : Run Machine.Step boot tr (.running m)) (hpath : Token path) (hne : words ≠ [])
    (hwords : ∀ w ∈ words, Token w)
    (hhelp : ∀ w ∈ path :: words, w ≠ "--help".toList ∧ w ≠ "-h".toList)
    (htarget : splitParentAndName (resolvePath m.state.shell.cwd path) = (parent, name))
    (hname : name ≠ []) (hparent : m.state.fs.IsDirectory parent)
    (hfile : m.state.fs.paths.entry (parent ++ [name]) ≠ some .dir) :
    ∃ m', executeCommand (line "write" (path :: words)) m = .ok ((), m') ∧
      m'.state.fs.readFile parent name = .ok (join " " words) := by
  have hresolve : m.state.session.resolve path = parent ++ [name] :=
    eq_of_splitParentAndName htarget hname
  obtain ⟨m', hok, -, hentry⟩ := execute_write (unlocked_of_run h) hpath hne hwords
    ((noHelp_iff (by decide)).mpr hhelp) hresolve hname hparent hfile
  exact ⟨m', hok, FileSystem.readFile_eq_ok.mpr hentry⟩

theorem write_then_read_boot : ∃ m m' : Held Lock World, boot = .running m ∧
    executeCommand (line "write" ["a.txt".toList, "hi".toList]) m = .ok ((), m') ∧
    m'.state.fs.readFile [] "a.txt".toList = .ok (join " " ["hi".toList]) :=
  ⟨_, (write_then_read .nil (by decide) (by simp) (by decide) (by decide) rfl (by decide)
    (.inl rfl) (by decide)).imp fun _ h => ⟨rfl, h⟩⟩

/-- A line that asks for help writes nothing. -/
theorem help_not_written : ∃ (tr : List (Machine × Press)) (m m' : Held Lock World),
    Run Machine.Step boot tr (.running m) ∧ m.state.shell.mode = .command ∧
    Token "a.txt".toList ∧ Token "--help".toList ∧
    splitParentAndName (resolvePath m.state.shell.cwd "a.txt".toList) = ([], "a.txt".toList) ∧
    m.state.fs.IsDirectory [] ∧ m.state.fs.paths.entry ["a.txt".toList] ≠ some .dir ∧
    executeCommand (line "write" ["a.txt".toList, "--help".toList]) m = .ok ((), m') ∧
    m'.state.fs.readFile [] "a.txt".toList ≠ .ok (join " " ["--help".toList]) := by
  have hrequest : request (line "write" ["a.txt".toList, "--help".toList]) = .other := by decide
  obtain ⟨m', hok, -, hsession⟩ :=
    executeCommand_returns (m := ⟨[], ⟨.new, .new, [], [], 0⟩⟩) rfl hrequest (by simp) (by simp)
  refine ⟨[], _, m', .nil, rfl, by decide, by decide, rfl, .inl rfl, by decide, hok, ?_⟩
  intro hread
  have hfs : m'.state.fs = .new := congrArg Session.fs hsession
  rw [hfs, FileSystem.readFile_eq_ok, FileSystem.entry_new] at hread
  simp at hread

/-! ## The node that a path names -/

/-- What `read` prints of a file. -/
def shown (content : Str) : List VgaCall :=
  [.println "--- Content ---", .println content, .println "---------------"]

theorem tells_read (path : Str) (rest : List Str) : Tells [.writer] [.writer] (fun s out _ =>
    ∀ c, Proper s.shell.cwd →
      (out = shown c ↔ s.fs.paths.entry (s.resolve path) = some (.file c)))
    (read (path :: rest)) := by
  rw [read]
  refine Tells.withLock (by simp) (Tells.getShell fun shell => ?_)
  rcases List.eq_nil_or_concat (resolvePath shell.cwd path) with hroot | ⟨parent, name, htarget⟩
  · rw [hroot]
    refine Tells.say fun s hshell c _ => iff_of_false (by simp [shown]) ?_
    rw [Session.resolve, hshell, hroot, s.fs.paths.root]
    simp
  rw [List.concat_eq_append] at htarget
  have hsplit : splitParentAndName (resolvePath shell.cwd path) = (parent, name) := by
    simp [htarget, splitParentAndName]
  rw [hsplit]
  have hresolve : ∀ s : Session, s.shell = shell → s.resolve path = parent ++ [name] := by
    rintro s rfl
    exact htarget
  refine Tells.ite (fun hname => Tells.say fun s hshell c hproper => ?_) fun hname =>
    Tells.getFs fun fs => ?_
  · exact absurd (List.isEmpty_iff.mp hname) (Session.proper_target hproper (hresolve s hshell))
  · rcases hread : fs.readFile parent name with e | content
    · refine Tells.say fun s hfs hshell c _ => iff_of_false (by simp [shown]) ?_
      rw [hresolve s hshell, ← FileSystem.readFile_eq_ok, hfs, hread]
      simp
    · apply Tells.say
      intro s hfs hshell c _
      rw [hresolve s hshell, ← FileSystem.readFile_eq_ok, hfs, hread]
      simp [shown]

/-- `create path` has made the node at `target`, or `edit path` has opened the file
there. -/
inductive Obtains (path : Str) (target : List Str) (m m' : Held Lock World) : Prop
  | created : executeCommand (line "create" [path]) m = .ok ((), m') →
      m.state.fs.paths.entry target = none → m'.state.fs.paths.entry target ≠ none →
      Obtains path target m m'
  | opened : executeCommand (line "edit" [path]) m = .ok ((), m') →
      m.state.shell.mode = .command → m'.state.shell.mode = .editor →
      m'.state.session.resolve m'.state.shell.editorFilename = target →
      (∃ c, m'.state.fs.paths.entry target = some (.file c)) → Obtains path target m m'

/-- The three other commands find the file at `target` under `path`. -/
structure NamesNode (path : Str) (target : List Str) (m : Held Lock World) : Prop where
  read : ∀ c, m.state.fs.paths.entry target = some (.file c) →
    ∃ m', executeCommand (line "read" [path]) m = .ok ((), m') ∧
      m'.state.console = m.state.console ++ shown c
  write : ∀ words, words ≠ [] →
    (∀ w ∈ words, Token w ∧ w ≠ "--help".toList ∧ w ≠ "-h".toList) →
    ∃ m', executeCommand (line "write" (path :: words)) m = .ok ((), m') ∧
      m'.state.fs.paths.entry target = some (.file (join " " words))
  delete : ∃ m', executeCommand (line "delete" [path]) m = .ok ((), m') ∧
    m'.state.fs.paths.entry target = none

theorem request_one (hcommand : Token command) (hpath : Token path)
    (hverb : verbs.lookup command = some verb) : request (line command [path]) =
      if wantsHelp command [path] then .other else verb.request [path] := by
  rw [request_line hcommand (by simpa using hpath), requestOf, hverb]

structure Obtained (path : Str) (target : List Str) (s s' : Session) (finalPath : Str) : Prop where
  accepted : normalizeAndValidateFilename path = .ok finalPath
  resolves : s.resolve finalPath = target
  cwd : s'.shell.cwd = s.shell.cwd
  file : ∃ c, s'.fs.paths.entry target = some (.file c)

theorem obtained_create {s : Session} {target : List Str} {ticks : Nat}
    (hnone : s.fs.paths.entry target = none)
    (hsome : (s.execute ticks (.create path)).fs.paths.entry target ≠ none) :
    ∃ finalPath, Obtained path target s (s.execute ticks (.create path)) finalPath := by
  rw [Session.execute] at hsome ⊢
  rcases hnormal : normalizeAndValidateFilename path with e | finalPath <;> rw [hnormal] at hsome
  · exact absurd hnone hsome
  refine ⟨finalPath, ?_⟩
  dsimp only at hsome ⊢
  rcases s.atTarget_cases finalPath _ with heq | ⟨parent, name, hresolve, heq⟩ <;>
    rw [heq] at hsome ⊢
  · exact absurd hnone hsome
  have hrefines : s.fs.Refines _ _ (s.fs.createFile parent name ticks) :=
    FileSystem.refines_createFile
  dsimp only at hsome ⊢
  rcases hrefines.cases with ⟨-, hafter⟩ | ⟨-, hsame⟩
  · rw [hafter] at hsome
    dsimp only at hsome
    split_ifs at hsome with htarget
    · refine ⟨hnormal, hresolve.trans htarget.symm, rfl, [], ?_⟩
      rw [hafter]
      exact if_pos htarget
    · exact absurd hnone hsome
  · rw [hsame] at hsome
    exact absurd hnone hsome

theorem obtained_edit {s : Session} {target : List Str} {ticks : Nat}
    (hcommand : s.shell.mode = .command)
    (heditor : (s.execute ticks (.edit path)).shell.mode = .editor)
    (hresolve : (s.execute ticks (.edit path)).resolve
      (s.execute ticks (.edit path)).shell.editorFilename = target)
    (hfile : ∃ c, (s.execute ticks (.edit path)).fs.paths.entry target = some (.file c)) :
    ∃ finalPath, Obtained path target s (s.execute ticks (.edit path)) finalPath := by
  rw [Session.execute] at heditor hresolve hfile ⊢
  rcases hnormal : normalizeAndValidateFilename path with e | finalPath <;>
    rw [hnormal] at heditor hresolve hfile
  · simp [hcommand] at heditor
  refine ⟨finalPath, ?_⟩
  simp only [Session.openEditor] at heditor hresolve hfile ⊢
  rcases s.atTarget_cases finalPath _ with heq | ⟨parent, name, -, heq⟩ <;>
    rw [heq] at heditor hresolve hfile ⊢
  · simp [hcommand] at heditor
  · exact ⟨hnormal, hresolve, rfl, hfile⟩

theorem executeCommand_changed {m' : Held Lock World} {r : Request} (hm : Unlocked m)
    (hcommand : Token command) (hne : command ≠ "help".toList) (hpath : Token path)
    (hverb : verbs.lookup command = some verb) (hr : verb.request [path] = r) (hatari : r ≠ .atari)
    (happ : r ≠ .app) (hok : executeCommand (line command [path]) m = .ok ((), m'))
    (hchanged : m'.state.session ≠ m.state.session) :
    Unlocked m' ∧ (∀ w ∈ [path], w ≠ "--help".toList ∧ w ≠ "-h".toList) ∧
      m'.state.session = m.state.session.execute m.state.ticks r := by
  have hrequest := request_one hcommand hpath hverb
  cases hhelp : wantsHelp command [path] with
  | true =>
    rw [hhelp, if_pos rfl] at hrequest
    obtain ⟨m'', hok', -, hsession⟩ := executeCommand_returns hm hrequest (by simp) (by simp)
    obtain ⟨-, rfl⟩ := Prod.mk.inj (Except.ok.inj (hok.symm.trans hok'))
    exact absurd hsession hchanged
  | false =>
    rw [hhelp, if_neg Bool.false_ne_true, hr] at hrequest
    obtain ⟨m'', hok', hm'', hsession⟩ := executeCommand_returns hm hrequest hatari happ
    obtain ⟨-, rfl⟩ := Prod.mk.inj (Except.ok.inj (hok.symm.trans hok'))
    exact ⟨hm'', (noHelp_iff hne).mp hhelp, hsession⟩

theorem Obtains.obtained {target : List Str} {m' : Held Lock World} (hm : Unlocked m)
    (hpath : Token path) (h : Obtains path target m m') :
    Unlocked m' ∧ (∀ w ∈ [path], w ≠ "--help".toList ∧ w ≠ "-h".toList) ∧
      ∃ finalPath, Obtained path target m.state.session m'.state.session finalPath := by
  cases h with
  | created hok hnone hsome =>
    have hchanged : m'.state.session ≠ m.state.session := by
      intro heq
      have hfs : m'.state.fs = m.state.fs := congrArg Session.fs heq
      exact hsome (hfs ▸ hnone)
    have hverb : verbs.lookup "create".toList = some .create := by decide
    obtain ⟨hm', hhelp, hsession⟩ := executeCommand_changed (r := .create path) hm (by decide)
      (by decide) hpath hverb rfl (by simp) (by simp) hok hchanged
    have hsome : m'.state.session.fs.paths.entry target ≠ none := hsome
    rw [hsession] at hsome ⊢
    exact ⟨hm', hhelp, obtained_create hnone hsome⟩
  | opened hok hcommand heditor hresolve hfile =>
    have hchanged : m'.state.session ≠ m.state.session := by
      intro heq
      have hshell : m'.state.shell = m.state.shell := congrArg Session.shell heq
      simp [hshell, hcommand] at heditor
    have hverb : verbs.lookup "edit".toList = some .edit := by decide
    obtain ⟨hm', hhelp, hsession⟩ := executeCommand_changed (r := .edit path) hm (by decide)
      (by decide) hpath hverb rfl (by simp) (by simp) hok hchanged
    have heditor : m'.state.session.shell.mode = .editor := heditor
    have hresolve : m'.state.session.resolve m'.state.session.shell.editorFilename = target :=
      hresolve
    have hfile : ∃ c, m'.state.session.fs.paths.entry target = some (.file c) := hfile
    rw [hsession] at heditor hresolve hfile ⊢
    exact ⟨hm', hhelp, obtained_edit hcommand heditor hresolve hfile⟩

/-! ## When the commands agree -/

section

variable {target : List Str}

theorem executeCommand_read (hm : Unlocked m) (hproper : Proper m.state.shell.cwd)
    (hpath : Token path) (hhelp : wantsHelp "read".toList [path] = false) :
    ∃ m' out, executeCommand (line "read" [path]) m = .ok ((), m') ∧
      m'.state.console = m.state.console ++ out ∧
      ∀ c, out = shown c ↔
        m.state.fs.paths.entry (m.state.session.resolve path) = some (.file c) := by
  have hverb : verbs.lookup "read".toList = some .read := by decide
  have htells : Tells [] [] _ (lock .writer >>= fun _ => underGuard (read [path])) :=
    Tells.lock (by simp) (tells_underGuard (tells_read path []))
  obtain ⟨_, m', hok, -, out, hout, hshown⟩ := exists_of_wp (htells m hm) id
  refine ⟨m', out, ?_, hout, fun c => hshown c hproper⟩
  rw [executeCommand_line (by decide) (by simpa using hpath), dispatch,
    if_neg (Bool.eq_false_iff.mp hhelp), hverb]
  exact hok

theorem executeCommand_delete (hm : Unlocked m) (hpath : Token path)
    (hhelp : wantsHelp "delete".toList [path] = false) {parent : List Str} {name : Str}
    (hresolve : m.state.session.resolve path = parent ++ [name]) (hname : name ≠ []) :
    ∃ m', executeCommand (line "delete" [path]) m = .ok ((), m') ∧
      m'.state.fs = (m.state.fs.deleteNode parent name).2 := by
  have hverb : verbs.lookup "delete".toList = some .delete := by decide
  have hrequest : request (line "delete" [path]) = .delete path := by
    rw [request_line (by decide) (by simpa using hpath), requestOf_eq hhelp hverb]
    rfl
  obtain ⟨m', hok, -, hsession⟩ := executeCommand_returns hm hrequest (by simp) (by simp)
  rw [Session.execute, Session.atTarget_eq hresolve hname] at hsession
  exact ⟨m', hok, congrArg Session.fs hsession⟩

theorem isDirectory_of_entry {fs : FileSystem} {parent : List Str} {name : Str}
    (h : fs.paths.entry (parent ++ [name]) ≠ none) : fs.IsDirectory parent :=
  .inr (fs.paths.closed parent name (Option.isSome_iff_ne_none.mpr h))

theorem namesNode_of_resolve (hm : Unlocked m) (hproper : Proper m.state.shell.cwd)
    (hpath : Token path) (hhelp : ∀ w ∈ [path], w ≠ "--help".toList ∧ w ≠ "-h".toList)
    (hresolve : m.state.session.resolve path = target)
    (hfile : ∃ c, m.state.fs.paths.entry target = some (.file c)) : NamesNode path target m := by
  obtain ⟨c, hfile⟩ := hfile
  rcases List.eq_nil_or_concat target with rfl | ⟨parent, name, rfl⟩
  · rw [m.state.fs.paths.root] at hfile
    simp at hfile
  rw [List.concat_eq_append] at *
  have hname := Session.proper_target hproper hresolve
  have hne : m.state.fs.paths.entry (parent ++ [name]) ≠ none := by simp [hfile]
  have hparent := isDirectory_of_entry hne
  refine ⟨fun c' hc' => ?_, fun words hwords_ne hwords => ?_, ?_⟩
  · obtain ⟨m', out, hok, hout, hshown⟩ := executeCommand_read hm hproper hpath
      ((noHelp_iff (by decide)).mpr hhelp)
    rw [hresolve] at hshown
    exact ⟨m', hok, by rw [hout, (hshown c').mpr hc']⟩
  · have hflags : wantsHelp "write".toList (path :: words) = false := by
      refine (noHelp_iff (by decide)).mpr (List.forall_mem_cons.mpr ⟨?_, ?_⟩)
      · exact hhelp path (List.mem_singleton_self path)
      · exact fun w hw => (hwords w hw).2
    obtain ⟨m', hok, -, hentry⟩ := execute_write hm hpath hwords_ne (fun w hw => (hwords w hw).1)
      hflags hresolve hname hparent (by simp [hfile])
    exact ⟨m', hok, hentry⟩
  · obtain ⟨m', hok, hfs⟩ := executeCommand_delete hm hpath ((noHelp_iff (by decide)).mpr hhelp)
      hresolve hname
    refine ⟨m', hok, ?_⟩
    rw [hfs, FileSystem.refines_deleteNode.ok ⟨hparent, hne⟩]
    exact if_pos (List.prefix_refl _)

/-- Where `create` and `edit` add `.txt`, the other commands miss the file: `delete` takes
the node without the extension, and a path that ends in a slash reads its directory. -/
theorem not_namesNode_of_suffix (hm : Unlocked m) (hproper : Proper m.state.shell.cwd)
    (hpath : Token path) (hhelp : ∀ w ∈ [path], w ≠ "--help".toList ∧ w ≠ "-h".toList)
    (hdot : '.' ∉ lastPiece path)
    (hresolve : m.state.session.resolve (path ++ ".txt".toList) = target)
    (hfile : ∃ c, m.state.fs.paths.entry target = some (.file c)) :
    ¬ NamesNode path target m := by
  obtain ⟨c, hfile⟩ := hfile
  obtain ⟨segments, hplain, hlong⟩ :=
    resolve_suffix hpath.1 (by decide : '/' ∉ ".txt".toList) m.state.shell.cwd
  have hplain : m.state.session.resolve path = walk segments (lastPiece path) := hplain
  have htarget : target = segments ++ [lastPiece path ++ ".txt".toList] := by
    obtain ⟨hne, hone, htwo⟩ := (hasAllowedType_append (lastPiece path)).ordinary
    rw [← hresolve, ← walk_of_ne hne hone htwo, ← hlong]
    rfl
  intro h
  -- a path that ends in a slash names the directory, which is no file to `read`
  rcases eq_or_ne (lastPiece path) [] with hnil | hne
  · obtain ⟨m', out, hok, hout, hshown⟩ := executeCommand_read hm hproper hpath
      ((noHelp_iff (by decide)).mpr hhelp)
    obtain ⟨m'', hok', hout'⟩ := h.read c hfile
    obtain ⟨-, rfl⟩ := Prod.mk.inj (Except.ok.inj (hok.symm.trans hok'))
    have hcontent := (hshown c).mp (List.append_cancel_left (hout.symm.trans hout'))
    have hdir : m.state.fs.paths.entry segments = some .dir := by
      apply m.state.fs.paths.closed segments (lastPiece path ++ ".txt".toList)
      rw [← htarget, hfile]
      rfl
    rw [hplain, hnil, walk_nil, hdir] at hcontent
    simp at hcontent
  · have hnodot : ∀ name : Str, '.' ∈ name → lastPiece path ≠ name :=
      fun name hmem heq => hdot (heq ▸ hmem)
    rw [walk_of_ne hne (hnodot _ (by decide)) (hnodot _ (by decide))] at hplain
    obtain ⟨m', hok, hfs⟩ := executeCommand_delete hm hpath ((noHelp_iff (by decide)).mpr hhelp)
      hplain hne
    obtain ⟨m'', hok', hnone⟩ := h.delete
    obtain ⟨-, rfl⟩ := Prod.mk.inj (Except.ok.inj (hok.symm.trans hok'))
    have hrefines : m.state.fs.Refines _ _ (m.state.fs.deleteNode segments (lastPiece path)) :=
      FileSystem.refines_deleteNode
    rw [hfs] at hnone
    rcases hrefines.cases with ⟨-, hafter⟩ | ⟨-, hsame⟩
    -- `delete` has taken another node, so the one with the extension is still there
    · have hkeep : ¬ segments ++ [lastPiece path] <+: target := by
        rw [htarget, List.prefix_append_right_inj, List.singleton_prefix_cons_iff]
        intro heq
        have hlen := congrArg List.length heq
        simp at hlen
      have hsame := (congrFun hafter target).trans (if_neg hkeep)
      rw [hsame, hfile] at hnone
      simp at hnone
    · rw [hsame, hfile] at hnone
      simp at hnone

/-- In every reachable state, the path that has made a file with `create`, or opened it with
`edit`, names it for `read`, `write` and `delete` exactly when its last piece has a dot. -/
theorem path_names_node_iff {tr : List (Machine × Press)} {m' : Held Lock World}
    (h : Run Machine.Step boot tr (.running m)) (hpath : Token path)
    (hmade : Obtains path target m m') :
    NamesNode path target m' ↔ '.' ∈ lastPiece path := by
  obtain ⟨hm, hproper⟩ := Machine.reachable (J := fun s => Proper s.shell.cwd) h
    (by simp [Proper, Shell.new]) fun _ _ => Session.proper_press
  obtain ⟨hm', hhelp, finalPath, haccepted, hresolve, hcwd, hfile⟩ := hmade.obtained hm hpath
  have hcwd : m'.state.shell.cwd = m.state.shell.cwd := hcwd
  have hproper' : Proper m'.state.shell.cwd := hcwd ▸ hproper
  have hresolve' : m'.state.session.resolve finalPath = target := by
    rw [← hresolve, Session.resolve, Session.resolve]
    exact congrArg (resolvePath · finalPath) hcwd
  have hfinal := normalize_eq haccepted
  by_cases hdot : '.' ∈ lastPiece path
  · rw [if_pos hdot] at hfinal
    rw [hfinal] at hresolve'
    exact iff_of_true (namesNode_of_resolve hm' hproper' hpath hhelp hresolve' hfile) hdot
  · rw [if_neg hdot] at hfinal
    rw [hfinal] at hresolve'
    exact iff_of_false (not_namesNode_of_suffix hm' hproper' hpath hhelp hdot hresolve' hfile) hdot

theorem obtains_at_boot (path finalPath : Str) {name : Str}
    (hrequest : request (line "create" [path]) = .create path)
    (hnormal : normalizeAndValidateFilename path = .ok finalPath)
    (hresolve : resolvePath [] finalPath = [name]) (hname : name ≠ []) :
    ∃ m m', boot = .running m ∧ Obtains path [name] m m' := by
  obtain ⟨m', hok, -, hsession⟩ :=
    executeCommand_returns (m := ⟨[], ⟨.new, .new, [], [], 0⟩⟩) rfl hrequest (by simp) (by simp)
  have hroot : (⟨.new, .new⟩ : Session).resolve finalPath = [] ++ [name] := hresolve
  refine ⟨_, m', rfl, .created hok (by rw [FileSystem.entry_new]; simp) ?_⟩
  change m'.state.session.fs.paths.entry [name] ≠ none
  rw [hsession, Session.execute, hnormal]
  have hpre : FileSystem.new.IsDirectory [] ∧ FileSystem.new.paths.entry ([] ++ [name]) = none := by
    refine ⟨.inl rfl, ?_⟩
    rw [FileSystem.entry_new]
    simp
  have hafter : (FileSystem.new.createFile [] name 0).2.paths.entry = _ :=
    FileSystem.refines_createFile.ok hpre
  change (Session.atTarget ⟨.new, .new⟩ finalPath fun parent name =>
    ⟨.new, (FileSystem.new.createFile parent name 0).2⟩).fs.paths.entry [name] ≠ none
  rw [Session.atTarget_eq hroot hname, hafter]
  simp

theorem path_names_node_dotted : ∃ m m' : Held Lock World, boot = .running m ∧
    Obtains "a.txt".toList ["a.txt".toList] m m' ∧
    (NamesNode "a.txt".toList ["a.txt".toList] m' ↔ '.' ∈ lastPiece "a.txt".toList) := by
  obtain ⟨m, m', hm, hmade⟩ := obtains_at_boot "a.txt".toList "a.txt".toList
    (by decide) (by decide) (by decide)
    (by decide : "a.txt".toList ≠ [])
  have hrun : Run Machine.Step boot [] (.running m) := hm ▸ .nil
  exact ⟨m, m', hm, hmade, path_names_node_iff hrun (by decide) hmade⟩

/-- `create notes` makes `notes.txt`, and `delete notes` does not remove it. -/
theorem created_not_named : ∃ (tr : List (Machine × Press)) (m m' : Held Lock World),
    Run Machine.Step boot tr (.running m) ∧ m.state.shell.mode = .command ∧
    Obtains "notes".toList ["notes.txt".toList] m m' ∧
    ¬ NamesNode "notes".toList ["notes.txt".toList] m' := by
  obtain ⟨m, m', hm, hmade⟩ := obtains_at_boot "notes".toList "notes.txt".toList
    (by decide) (by decide) (by decide)
    (by decide : "notes.txt".toList ≠ [])
  have hrun : Run Machine.Step boot [] (.running m) := hm ▸ .nil
  obtain rfl := Machine.running.inj hm
  obtain ⟨hm', hhelp, finalPath, -, -, hcwd, hfile⟩ :=
    hmade.obtained (unlocked_of_run hrun) (by decide)
  have hcwd : m'.state.shell.cwd = [] := hcwd
  refine ⟨[], _, m', hrun, rfl, hmade, not_namesNode_of_suffix hm' ?_ (by decide) hhelp
    (by decide) ?_ hfile⟩
  · rw [hcwd]
    simp [Proper]
  · rw [Session.resolve]
    change resolvePath m'.state.shell.cwd _ = _
    rw [hcwd]
    decide

end

end AliluOS.Shell
