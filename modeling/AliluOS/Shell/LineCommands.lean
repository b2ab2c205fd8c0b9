import AliluOS.Keyboard.Translate
import AliluOS.Shell.Editor
import AliluOS.Text.Bytes
import AliluOS.Text.Lines
import AliluOS.Text.Tokens

/-! Lines of the editor that are commands. No text that comes from the keyboard has
such a line above its last one, so `:wq` takes just its own line off the text. -/

namespace AliluOS.Shell
open Text Keyboard

def Press.FromKeyboard (p : Press) : Prop :=
  ∃ (k : Keyboard) (scancode : UInt8), (k.translate scancode).1 = .press p.key

/-- Enter on such a line ends the session of the editor. -/
def IsLineCommand (line : Str) : Prop := trim line = ":wq".toList ∨ trim line = ":q".toList

/-- ASCII text in which no newline ends a line command. -/
structure PlainText (text : Str) : Prop where
  ascii : ∀ c ∈ text, c.toNat < 128
  no_command : ∀ line ∈ endedLines text, ¬ IsLineCommand line

variable {text above line : Str} {c : Char}

namespace PlainText

theorem nil : PlainText [] := ⟨by simp, by simp [endedLines]⟩

theorem of_prefix (h : PlainText text) (hpre : above <+: text) : PlainText above :=
  ⟨fun c hc => h.ascii c (hpre.subset hc),
    fun line hline => h.no_command line (endedLines_mono hpre hline)⟩

theorem of_typeable (h : ∀ c ∈ text, Typeable c) : PlainText text := by
  refine ⟨fun c hc => (h c hc).1, ?_⟩
  rw [endedLines_of_notMem fun hmem => (h _ hmem).2 rfl]
  simp

theorem concat (h : PlainText text) (hc : Typeable c) : PlainText (text ++ [c]) := by
  constructor
  · intro x hx
    rcases List.mem_append.mp hx with hx | hx
    · exact h.ascii x hx
    · rw [List.mem_singleton.mp hx]
      exact hc.1
  · rw [endedLines_concat hc.2]
    exact h.no_command

theorem newline (h : PlainText text) (hlast : ¬ IsLineCommand ((lines text).getLast?.getD [])) :
    PlainText (text ++ ['\n']) := by
  obtain ⟨above, last, -, hpieces, hlines⟩ := getLast?_lines text
  constructor
  · intro x hx
    rcases List.mem_append.mp hx with hx | hx
    · exact h.ascii x hx
    · rw [List.mem_singleton.mp hx]
      decide
  · rw [endedLines_newline, hpieces]
    intro line hline
    rcases List.mem_append.mp hline with hline | hline
    · exact h.no_command line hline
    · obtain rfl := List.mem_singleton.mp hline
      rcases eq_or_ne line [] with rfl | hne
      · simp [IsLineCommand, trim]
      · rwa [hlines, if_neg hne] at hlast

/-- A last line that is a command stands behind the last newline, and its bytes are
its characters. -/
theorem rdrop_append_lastLine (h : PlainText text) (hlast : (lines text).getLast? = some line)
    (hline : IsLineCommand line) : text.rdrop (utf8Len line) ++ line = text := by
  obtain ⟨above, last, htext, -, hlines⟩ := getLast?_lines text
  rw [hlines] at hlast
  split_ifs at hlast with hnone
  · obtain ⟨ended, hended, rfl⟩ := Option.map_eq_some_iff.mp hlast
    refine absurd ?_ (h.no_command ended (List.mem_of_getLast? hended))
    simpa [IsLineCommand] using hline
  · obtain rfl := Option.some.inj hlast
    subst htext
    rw [utf8Len_ascii fun c hc => h.ascii c (List.mem_append_right _ hc),
      List.rdrop_append_length]

end PlainText

theorem trim_subset (s : Str) : trim s ⊆ s :=
  List.Subset.trans (List.rdropWhile_prefix _ _).subset (List.dropWhile_sublist _).subset

theorem Verb.request_eq_write {verb : Verb} {args : List Str} {path text : Str}
    (h : verb.request args = .write path text) :
    ∃ words, words ⊆ args ∧ text = join " " words := by
  cases verb with
  | write =>
    rcases args with _ | ⟨path', _ | ⟨word, words⟩⟩
    · simp [Verb.request] at h
    · simp [Verb.request] at h
    · obtain ⟨-, rfl⟩ := Request.write.inj h
      exact ⟨_, List.subset_cons_self _ _, rfl⟩
  | play =>
    cases args with
    | nil => simp [Verb.request] at h
    | cons game args =>
      rw [Verb.request] at h
      split_ifs at h
  | git =>
    rcases args with _ | ⟨subcommand, _ | ⟨url, args⟩⟩
    · simp [Verb.request] at h
    · simp [Verb.request] at h
    · rw [Verb.request] at h
      split_ifs at h
  | _ => cases args <;> simp [Verb.request] at h

theorem mem_written {cmdLine path text : Str} (h : request cmdLine = .write path text) {c : Char}
    (hc : c ∈ text) : c = ' ' ∨ c ∈ cmdLine := by
  rw [request, requestOf] at h
  split_ifs at h
  rcases hverb : verbs.lookup ((splitWhitespace (trim cmdLine)).headD []) with _ | verb <;>
    rw [hverb] at h
  · simp at h
  · obtain ⟨words, hwords, rfl⟩ := Verb.request_eq_write h
    rcases mem_join hc with hc | ⟨word, hword, hc⟩
    · exact .inl (by simpa using hc)
    · have hsplit := (List.mem_filter.mp (List.mem_of_mem_tail (hwords hword))).1
      exact .inr (trim_subset cmdLine ((spec_of_mem_splitOnP hsplit).1 hc))

end AliluOS.Shell

namespace AliluOS
open Text Fs Shell

namespace Session

theorem exists_editsFile {s : Session} {text : Str} (h : ¬ s.Refuses text) :
    ∃ parent name, (s.setBuffer text).EditsFile parent name := by
  simp only [Refuses, not_or, not_not] at h
  obtain ⟨hname, hok⟩ := h
  rcases hsplit : splitParentAndName (s.resolve s.shell.editorFilename) with ⟨parent, name⟩
  rw [hsplit] at hname hok
  obtain ⟨hparent, hentry⟩ := FileSystem.refines_writeFile.ok_iff.mp hok
  exact ⟨parent, name, eq_of_splitParentAndName hsplit hname, hname, hparent, hentry⟩

structure Plain (s : Session) : Prop where
  typed : ∀ c ∈ s.shell.buffer, Keyboard.Typeable c
  editor : PlainText s.shell.editorBuffer
  files : FileSystem.Files (fun _ c => PlainText c) s.fs

namespace Plain

variable {s : Session} {path text : Str} {op : List Str → Str → Session} {p : Press}

theorem setBuffer (hs : s.Plain) (htext : PlainText text) : (s.setBuffer text).Plain :=
  ⟨hs.typed, htext, hs.files⟩

theorem atTarget (hs : s.Plain) (h : ∀ parent name, (op parent name).Plain) :
    (s.atTarget path op).Plain := by
  rcases s.atTarget_cases path op with heq | ⟨parent, name, -, heq⟩ <;> rw [heq]
  · exact hs
  · exact h parent name

theorem onFiles (hs : s.Plain) {op : List Str → Str → FileSystem}
    (h : ∀ parent name, FileSystem.Files (fun _ c => PlainText c) (op parent name)) :
    (s.atTarget path fun parent name => { s with fs := op parent name }).Plain :=
  hs.atTarget fun parent name => ⟨hs.typed, hs.editor, h parent name⟩

theorem save (hs : s.Plain) : s.save.Plain :=
  hs.onFiles fun _ _ => FileSystem.files_writeFile hs.files hs.editor

theorem close (hs : s.Plain) : s.close.Plain := ⟨hs.typed, .nil, hs.files⟩

theorem setPending (hs : s.Plain) (pending : Bool) : (s.setPending pending).Plain :=
  ⟨hs.typed, hs.editor, hs.files⟩

theorem openEditor (hs : s.Plain) (finalPath : Str) (ticks : Nat) :
    (s.openEditor finalPath ticks).Plain := by
  apply hs.atTarget
  intro parent name
  have hfs : FileSystem.Files (fun _ c => PlainText c) (openFile s.fs parent name ticks).2 := by
    unfold openFile
    dsimp only
    split_ifs
    · exact hs.files
    · exact FileSystem.files_createFile hs.files .nil ticks
  refine ⟨hs.typed, ?_, hfs⟩
  -- the text is a file's content, or empty
  change PlainText (((openFile s.fs parent name ticks).2.readFile parent name).toOption.getD [])
  rcases hread : (openFile s.fs parent name ticks).2.readFile parent name with e | content
  · exact .nil
  · exact hfs _ _ (FileSystem.readFile_eq_ok.mp hread)

theorem execute (hs : s.Plain) {ticks : Nat} {r : Request}
    (hr : ∀ path text, r = .write path text → PlainText text) : (s.execute ticks r).Plain := by
  cases r with
  | goTo path =>
    rw [Session.execute, goTo]
    split_ifs
    · exact ⟨hs.typed, hs.editor, hs.files⟩
    · exact hs
  | back => exact ⟨hs.typed, hs.editor, hs.files⟩
  | folder path => exact hs.onFiles fun _ _ => FileSystem.files_createDirectory hs.files _ _ _
  | create path =>
    rw [Session.execute]
    split
    · exact hs.onFiles fun _ _ => FileSystem.files_createFile hs.files .nil _
    · exact hs
  | write path text =>
    exact hs.onFiles fun _ _ => FileSystem.files_writeFile hs.files (hr path text rfl)
  | delete path => exact hs.onFiles fun _ _ => FileSystem.files_deleteNode hs.files _ _
  | edit path =>
    rw [Session.execute]
    split
    · exact hs.openEditor _ _
    · exact hs
  | gitClone url =>
    exact ⟨hs.typed, hs.editor, FileSystem.files_createDirectory hs.files _ _ _⟩
  | atari => exact hs
  | app => exact hs
  | other => exact hs

theorem type (hs : s.Plain) {c : Char} (hc : Keyboard.Typeable c) : (s.type c).Plain := by
  unfold Session.type
  split
  · refine ⟨fun x hx => ?_, hs.editor, hs.files⟩
    rcases List.mem_append.mp hx with hx | hx
    · exact hs.typed x hx
    · rwa [List.mem_singleton.mp hx]
  · exact hs.setBuffer (hs.editor.concat hc)
  · exact hs

theorem erase (hs : s.Plain) : s.erase.Plain := by
  unfold Session.erase
  split
  · exact ⟨fun x hx => hs.typed x (List.dropLast_subset _ hx), hs.editor, hs.files⟩
  · exact hs.setBuffer (hs.editor.of_prefix (List.dropLast_prefix _))
  · exact hs

theorem ctrlChar (hs : s.Plain) (c : Char) : (s.ctrlChar c).Plain := by
  unfold Session.ctrlChar
  split_ifs
  · exact hs.setPending true
  · exact hs.save.close.setPending false
  · exact hs
  · exact hs

theorem escape (hs : s.Plain) : s.escape.Plain := by
  unfold Session.escape
  split
  · exact ⟨by simp, hs.editor, hs.files⟩
  · exact hs.close.setPending false
  · exact ⟨hs.typed, hs.editor, hs.files⟩

theorem enter (hs : s.Plain) (ticks : Nat) : (s.enter ticks).Plain := by
  unfold Session.enter
  split
  · have hsubmit : s.submit.Plain := ⟨by simp [submit], hs.editor, hs.files⟩
    apply hsubmit.execute
    intro path text hrequest
    apply PlainText.of_typeable
    intro c hc
    rcases mem_written hrequest hc with rfl | hc
    · decide
    · exact hs.typed c hc
  · split_ifs with hwq hq
    · exact (hs.setBuffer (hs.editor.of_prefix (List.take_prefix _ _))).save.close
    · exact hs.close
    · exact hs.setBuffer (hs.editor.newline fun hcommand => hcommand.elim hwq hq)
  · exact hs

theorem press (hs : s.Plain) (hp : p.FromKeyboard) : (s.press p).Plain := by
  obtain ⟨k, scancode, hkey⟩ := hp
  unfold Session.press
  cases hpkey : p.key with
  | character c =>
    rw [hpkey] at hkey
    dsimp only
    split_ifs
    · exact hs.ctrlChar c
    · exact hs.type (Keyboard.typeable_translate hkey)
  | space => exact hs.type (by decide)
  | enter => exact hs.enter _
  | backspace => exact hs.erase
  | escape => exact hs.escape
  | _ => exact hs

end Plain

end Session

namespace Shell
open Kernel Lib

/-- When Enter on a line `:wq` saves the text of an editor, the file gets all of it but
that line. -/
theorem wq_saves_text_above {tr : List (Machine × Press)} {m : Held Lock World} {p : Press}
    (h : Run Machine.Step boot tr (.running m)) (hkeys : Guarded (fun _ p => p.FromKeyboard) tr)
    (hkey : p.key = .enter) (hmode : m.state.shell.mode = .editor)
    (hwq : trim m.state.shell.lastLine = ":wq".toList)
    (hsaved : ¬ m.state.session.Refuses
      (m.state.shell.editorBuffer.rdrop (utf8Len m.state.shell.lastLine))) :
    ∃ m' parent name written, (Machine.running m).press p = .running m' ∧
      m.state.session.resolve m.state.shell.editorFilename = parent ++ [name] ∧
      m'.state.fs.paths.entry (parent ++ [name]) = some (.file written) ∧
      written ++ m.state.shell.lastLine = m.state.shell.editorBuffer := by
  obtain ⟨-, hplain⟩ := Machine.reachable_guarded (J := Session.Plain) h hkeys
    ⟨by simp [Shell.new], .nil, fun q c hq => by simp [FileSystem.entry_new] at hq⟩
    fun _ _ hp hs => hs.press hp
  obtain ⟨m', hpress, -, hsession⟩ := Machine.Step.returns (unlocked_of_run h) rfl
    (Press.not_executes hmode _) (Press.not_executes hmode _)
  have hsaves : p.saves m.state.session = some
      (m.state.shell.editorBuffer.rdrop (utf8Len m.state.shell.lastLine)) := by
    simp only [Press.saves, hkey]
    exact if_pos hwq
  obtain ⟨-, -, -, hfs⟩ := Session.press_of_saves hmode hsaves
  obtain ⟨parent, name, hfile⟩ := Session.exists_editsFile hsaved
  refine ⟨m', parent, name, m.state.shell.editorBuffer.rdrop (utf8Len m.state.shell.lastLine),
    hpress, hfile.resolves, ?_, ?_⟩
  · change m'.state.session.fs.paths.entry _ = _
    rw [hsession, hfs]
    exact Session.entry_save hfile
  · -- an empty text has no last line
    rcases hlast : (lines m.state.shell.editorBuffer).getLast? with _ | line
    · rw [Shell.lastLine, hlast] at hwq
      simp [trim] at hwq
    · rw [Shell.lastLine, hlast, Option.getD_some] at hwq ⊢
      exact hplain.editor.rdrop_append_lastLine hlast (.inl hwq)

def wqTyped : List Press := typed "edit a" ++ typed "h" ++ (typed ":wq").dropLast

theorem wqTyped_fromKeyboard : ∀ p ∈ wqTyped, p.FromKeyboard := by
  have hcodes : ∀ p ∈ wqTyped, ∃ k ∈ [Keyboard.new, { Keyboard.new with shift := true }],
      ∃ code ∈ List.range 128, (k.translate (UInt8.ofNat code)).1 = .press p.key := by
    decide +kernel
  intro p hp
  obtain ⟨k, -, code, -, hkey⟩ := hcodes p hp
  exact ⟨k, _, hkey⟩

theorem wq_saves_letter : ∃ tr m m' parent name written, Run Machine.Step boot tr (.running m) ∧
    (Machine.running m).press Key.enter.hit = .running m' ∧
    m'.state.fs.paths.entry (parent ++ [name]) = some (.file written) ∧
    written ++ ":wq".toList = "h\n:wq".toList := by
  obtain ⟨m, hm, hmode, hline, hbuffer, hsaved⟩ : ∃ m, boot.presses wqTyped = .running m ∧
      m.state.shell.mode = .editor ∧ m.state.shell.lastLine = ":wq".toList ∧
      m.state.shell.editorBuffer = "h\n:wq".toList ∧ ¬ m.state.session.Refuses
        (m.state.shell.editorBuffer.rdrop (utf8Len m.state.shell.lastLine)) :=
    Machine.exists_running (by decide +kernel)
  obtain ⟨tr, hrun, hkeys⟩ := boot.run_presses_guarded wqTyped_fromKeyboard
  rw [hm] at hrun
  have hwq : trim m.state.shell.lastLine = ":wq".toList := by
    rw [hline]
    decide +kernel
  obtain ⟨m', parent, name, written, hpress, -, hentry, htext⟩ :=
    wq_saves_text_above (p := Key.enter.hit) hrun hkeys rfl hmode hwq hsaved
  rw [hline, hbuffer] at htext
  exact ⟨tr, m, m', parent, name, written, hrun, hpress, hentry, htext⟩

end Shell

end AliluOS
