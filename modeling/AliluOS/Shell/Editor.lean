import AliluOS.Shell.FileTypes

/-! Sessions of the editor: what key presses do to the text, how a session ends, and
what becomes of the text when the file cannot be written. -/

namespace AliluOS.Shell
open Text

def Press.CtrlHit (p : Press) (letter : Char) : Prop :=
  ∃ c, p.key = .character c ∧ p.ctrl = true ∧ c.toLower = letter

def Press.edits (p : Press) (text : Str) : Str :=
  match p.key with
  | .character c => if p.ctrl then text else text ++ [c]
  | .space => text ++ [' ']
  | .backspace => text.dropLast
  | .enter => text ++ ['\n']
  | _ => text

/-- A key press in the editor, but not Enter on a line that saves or quits. -/
def Press.KeepsTyping (p : Press) (s : Session) : Prop :=
  s.shell.mode = .editor ∧ (p.key = .enter →
    trim s.shell.lastLine ≠ ":wq".toList ∧ trim s.shell.lastLine ≠ ":q".toList)

def Press.saves (p : Press) (s : Session) : Option Str :=
  match p.key with
  | .character c =>
    if p.ctrl ∧ c.toLower = 'k' ∧ s.shell.savePending then some s.shell.editorBuffer else none
  | .enter =>
    if trim s.shell.lastLine = ":wq".toList then
      some (s.shell.editorBuffer.rdrop (utf8Len s.shell.lastLine))
    else none
  | _ => none

end AliluOS.Shell

namespace AliluOS
open Text Fs Shell

namespace Session

variable {s s₁ : Session} {p : Press} {ps : List Press} {parent : List Str} {name : Str}

/-! ## Saving -/

/-- The open file can be written: its parent directory exists, and it is none itself. -/
structure EditsFile (s : Session) (parent : List Str) (name : Str) : Prop where
  resolves : s.resolve s.shell.editorFilename = parent ++ [name]
  named : name ≠ []
  isDirectory : s.fs.IsDirectory parent
  isFile : s.fs.paths.entry (parent ++ [name]) ≠ some .dir

theorem entry_save (h : s.EditsFile parent name) :
    s.save.fs.paths.entry (parent ++ [name]) = some (.file s.shell.editorBuffer) := by
  rw [save, atTarget_eq h.resolves h.named]
  dsimp only
  rw [FileSystem.refines_writeFile.ok ⟨h.isDirectory, h.isFile⟩]
  exact if_pos rfl

theorem headers_save (h : s.EditsFile parent name) {q : List Str} (hq : q ≠ parent ++ [name]) :
    s.save.fs.headers q = s.fs.headers q := by
  rw [save, atTarget_eq h.resolves h.named]
  exact FileSystem.headers_writeFile hq

/-! ## Typing -/

structure Editing (s₁ : Session) (ps : List Press) (s : Session) : Prop where
  mode : s.shell.mode = .editor
  fs : s.fs = s₁.fs
  cwd : s.shell.cwd = s₁.shell.cwd
  filename : s.shell.editorFilename = s₁.shell.editorFilename
  text : s.shell.editorBuffer = ps.foldr Press.edits s₁.shell.editorBuffer
  pending : s.shell.savePending = true ↔ ∃ p ∈ ps, p.CtrlHit 's'

theorem Editing.refl (hmode : s.shell.mode = .editor) (hpending : s.shell.savePending = false) :
    s.Editing [] s :=
  ⟨hmode, rfl, rfl, rfl, rfl, by simp [hpending]⟩

theorem Editing.editsFile (h : s₁.Editing ps s) (hfile : s₁.EditsFile parent name) :
    s.EditsFile parent name := by
  obtain ⟨hresolve, hname, hparent, hentry⟩ := hfile
  rw [← h.fs] at hparent hentry
  refine ⟨?_, hname, hparent, hentry⟩
  rw [Session.resolve, h.cwd, h.filename]
  exact hresolve

/-- Where a session of the editor can be after the key presses `ps`. -/
inductive Outcome (s₁ : Session) (target : List Str) : List Press → Session → Prop
  | editing {ps : List Press} {s : Session} : s₁.Editing ps s → Outcome s₁ target ps s
  | saved {p : Press} {ps : List Press} {s : Session} : p.CtrlHit 'k' → (∃ q ∈ ps, q.CtrlHit 's') →
      s.shell.mode = .command → s.shell.cwd = s₁.shell.cwd →
      s.fs.paths.entry target = some (.file (ps.foldr Press.edits s₁.shell.editorBuffer)) →
      (∀ q, q ≠ target → s.fs.headers q = s₁.fs.headers q) → Outcome s₁ target (p :: ps) s
  | escaped {p : Press} {ps : List Press} {s : Session} : p.key = .escape →
      s.shell.mode = .command → s.shell.cwd = s₁.shell.cwd → s.fs = s₁.fs →
      Outcome s₁ target (p :: ps) s

theorem Editing.cons (h : s₁.Editing ps s) {text : Str} {pending : Bool}
    (htext : text = p.edits s.shell.editorBuffer)
    (hpending : pending = true ↔ p.CtrlHit 's' ∨ s.shell.savePending = true) :
    s₁.Editing (p :: ps) ((s.setBuffer text).setPending pending) where
  mode := h.mode
  fs := h.fs
  cwd := h.cwd
  filename := h.filename
  text := by
    rw [List.foldr_cons, ← h.text]
    exact htext
  pending := by
    rw [List.exists_mem_cons_iff, ← h.pending]
    exact hpending

theorem Editing.cons_text (h : s₁.Editing ps s) {text : Str}
    (htext : text = p.edits s.shell.editorBuffer) (hp : ¬ p.CtrlHit 's') :
    s₁.Editing (p :: ps) (s.setBuffer text) :=
  h.cons htext (show s.shell.savePending = true ↔ _ by simp [hp])

theorem Editing.ctrlChar (h : s₁.Editing ps s) (hfile : s₁.EditsFile parent name) {c : Char}
    (hkey : p.key = .character c) (hctrl : p.ctrl = true) :
    s₁.Outcome (parent ++ [name]) (p :: ps) (s.ctrlChar c) := by
  have hhit : ∀ letter, p.CtrlHit letter ↔ c.toLower = letter := by
    simp [Press.CtrlHit, hkey, hctrl]
  have hedits : ∀ text, p.edits text = text := by simp [Press.edits, hkey, hctrl]
  rw [Session.ctrlChar, if_pos h.mode]
  split_ifs with hs hk
  · exact .editing (h.cons (hedits _).symm (by simp [hhit, hs]))
  · obtain ⟨hk, hpending⟩ := hk
    have hfile := h.editsFile hfile
    refine .saved ((hhit 'k').mpr hk) (h.pending.mp hpending) rfl ?_ ?_ ?_
    · rw [← h.cwd]
      exact s.save_close_cwd
    · rw [← h.text]
      exact entry_save hfile
    · intro q hq
      rw [← h.fs]
      exact headers_save hfile hq
  · exact .editing (h.cons_text (hedits _).symm (by simp [hhit, hs]))

theorem Editing.press (h : s₁.Editing ps s) (hfile : s₁.EditsFile parent name)
    (hkeep : p.KeepsTyping s) : s₁.Outcome (parent ++ [name]) (p :: ps) (s.press p) := by
  have htyped : ∀ text, text = p.edits s.shell.editorBuffer → ¬ p.CtrlHit 's' →
      s₁.Outcome (parent ++ [name]) (p :: ps) (s.setBuffer text) :=
    fun _ htext hp => .editing (h.cons_text htext hp)
  unfold Session.press
  cases hkey : p.key with
  | character c =>
    dsimp only
    split_ifs with hctrl
    · exact h.ctrlChar hfile hkey hctrl
    · rw [type, h.mode]
      exact htyped _ (by simp [Press.edits, hkey, hctrl]) (by simp [Press.CtrlHit, hctrl])
  | space =>
    dsimp only
    rw [type, h.mode]
    exact htyped _ (by simp [Press.edits, hkey]) (by simp [Press.CtrlHit, hkey])
  | enter =>
    obtain ⟨hwq, hq⟩ := hkeep.2 hkey
    dsimp only
    rw [enter, h.mode]
    dsimp only
    rw [if_neg hwq, if_neg hq]
    exact htyped _ (by simp [Press.edits, hkey]) (by simp [Press.CtrlHit, hkey])
  | backspace =>
    dsimp only
    rw [erase, h.mode]
    exact htyped _ (by simp [Press.edits, hkey]) (by simp [Press.CtrlHit, hkey])
  | escape =>
    dsimp only
    rw [escape, h.mode]
    exact .escaped hkey rfl h.cwd h.fs
  | _ =>
    exact htyped s.shell.editorBuffer (by simp [Press.edits, hkey]) (by simp [Press.CtrlHit, hkey])

/-! ## Opening -/

theorem any_listDirectory {fs : FileSystem} (hparent : fs.IsDirectory parent) :
    (((fs.listDirectory parent).toOption.getD []).any fun (k, isDir) => k = name && !isDir) = true ↔
      ∃ c, fs.paths.entry (parent ++ [name]) = some (.file c) := by
  obtain ⟨items, hitems, -, hmem⟩ := FileSystem.listDirectory_ok hparent
  rw [hitems, List.any_eq_true]
  constructor
  · rintro ⟨⟨k, isDir⟩, hin, htest⟩
    obtain ⟨rfl, rfl⟩ : k = name ∧ isDir = false := by simpa using htest
    obtain ⟨e, hentry, hkind⟩ := (hmem k false).mp hin
    cases e with
    | dir => simp at hkind
    | file c => exact ⟨c, hentry⟩
  · rintro ⟨c, hentry⟩
    exact ⟨(name, false), (hmem name false).mpr ⟨_, hentry, by simp⟩, by simp⟩

theorem openFile_spec {fs : FileSystem} (hparent : fs.IsDirectory parent)
    (hfile : fs.paths.entry (parent ++ [name]) ≠ some .dir) (ticks : Nat) :
    let r := openFile fs parent name ticks
    r.2.IsDirectory parent ∧ r.2.paths.entry (parent ++ [name]) = some (.file r.1) ∧
      (fs.paths.entry (parent ++ [name]) = some (.file r.1) ∨
        fs.paths.entry (parent ++ [name]) = none ∧ r.1 = []) := by
  unfold openFile
  dsimp only
  rcases hentry : fs.paths.entry (parent ++ [name]) with _ | _ | c
  · have hcreate : (fs.createFile parent name ticks).2.paths.entry = _ :=
      FileSystem.refines_createFile.ok ⟨hparent, hentry⟩
    have hnew : (fs.createFile parent name ticks).2.paths.entry (parent ++ [name]) =
        some (.file []) := by
      rw [hcreate]
      exact if_pos rfl
    rw [if_neg fun hany => by simp [any_listDirectory hparent, hentry] at hany,
      FileSystem.readFile_eq_ok.mpr hnew]
    refine ⟨?_, hnew, .inr ⟨rfl, rfl⟩⟩
    rw [FileSystem.IsDirectory, hcreate]
    simpa [FileSystem.IsDirectory] using hparent
  · exact absurd hentry hfile
  · rw [if_pos ((any_listDirectory hparent).mpr ⟨c, hentry⟩), FileSystem.readFile_eq_ok.mpr hentry]
    exact ⟨hparent, hentry, .inl rfl⟩

structure Opened (fs : FileSystem) (parent : List Str) (name : Str) (s₁ : Session) : Prop where
  editsFile : s₁.EditsFile parent name
  mode : s₁.shell.mode = .editor
  pending : s₁.shell.savePending = false
  entry : s₁.fs.paths.entry (parent ++ [name]) = some (.file s₁.shell.editorBuffer)
  content : fs.paths.entry (parent ++ [name]) = some (.file s₁.shell.editorBuffer) ∨
    fs.paths.entry (parent ++ [name]) = none ∧ s₁.shell.editorBuffer = []

theorem opened_openEditor {finalPath : Str} (hresolve : s.resolve finalPath = parent ++ [name])
    (hname : name ≠ []) (hparent : s.fs.IsDirectory parent)
    (hfile : s.fs.paths.entry (parent ++ [name]) ≠ some .dir) (ticks : Nat) :
    Opened s.fs parent name (s.openEditor finalPath ticks) := by
  obtain ⟨hdir, hentry, hcontent⟩ := openFile_spec hparent hfile ticks
  rw [openEditor, atTarget_eq hresolve hname]
  have hnotDir :
      (openFile s.fs parent name ticks).2.paths.entry (parent ++ [name]) ≠ some .dir := by
    rw [hentry]
    simp
  exact ⟨⟨hresolve, hname, hdir, hnotDir⟩, rfl, rfl, hentry, hcontent⟩

end Session

namespace Shell
open Kernel Lib

theorem Press.not_executes {p : Press} {s : Session} (hmode : s.shell.mode = .editor)
    (r : Request) : ¬ p.Executes s r := by
  rintro ⟨-, hcommand, -⟩
  simp [hmode] at hcommand

theorem editor_outcome {tr : List (Machine × Press)} {m₁ : Held Lock World} {s : Machine}
    {parent : List Str} {name : Str} (hm₁ : Unlocked m₁)
    (hfile : m₁.state.session.EditsFile parent name) (hmode : m₁.state.shell.mode = .editor)
    (hpending : m₁.state.shell.savePending = false) (h : Run Machine.Step (.running m₁) tr s)
    (hkeep : Guarded (fun s p => s.Holds fun m => p.KeepsTyping m.state.session) tr) :
    ∃ m, s = .running m ∧ Unlocked m ∧
      m₁.state.session.Outcome (parent ++ [name]) (tr.map Prod.snd) m.state.session := by
  induction h with
  | nil => exact ⟨m₁, rfl, hm₁, .editing (.refl hmode hpending)⟩
  | @cons tr s s' p _ hst ih =>
    obtain ⟨hp, hkeep⟩ := guarded_cons.mp hkeep
    obtain ⟨m, rfl, hm, hout⟩ := ih hkeep
    have hp := Machine.holds_running.mp hp
    obtain ⟨m', rfl, hm', hsession⟩ :=
      hst.returns hm (Press.not_executes hp.1 _) (Press.not_executes hp.1 _)
    refine ⟨m', rfl, hm', ?_⟩
    rw [hsession, List.map_cons]
    generalize tr.map Prod.snd = ps at hout
    cases hout with
    | editing hediting => exact hediting.press hfile hp
    -- a session that has ended takes no more of its key presses
    | saved _ _ hcommand => simp [hp.1] at hcommand
    | escaped _ hcommand => simp [hp.1] at hcommand

theorem unlocked_of_run {tr : List (Machine × Press)} {m : Held Lock World}
    (h : Run Machine.Step boot tr (.running m)) : Unlocked m :=
  h.invariant boot_unlocked (fun _ _ _ hs hst => hst.unlocked hs) m rfl

/-- An editor session changes nothing until it is saved, and then the file it was
opened on alone. -/
theorem editor_session {tr₀ : List (Machine × Press)} {m : Held Lock World} {p : Press}
    {path finalPath : Str} {parent : List Str} {name : Str}
    (h : Run Machine.Step boot tr₀ (.running m)) (hedit : p.Executes m.state.session (.edit path))
    (hnormal : normalizeAndValidateFilename path = .ok finalPath)
    (hresolve : m.state.session.resolve finalPath = parent ++ [name])
    (hparent : m.state.fs.IsDirectory parent)
    (hfile : m.state.fs.paths.entry (parent ++ [name]) ≠ some .dir) :
    ∃ m₁, (Machine.running m).press p = .running m₁ ∧
      Session.Opened m.state.fs parent name m₁.state.session ∧
      ∀ tr s, Run Machine.Step (.running m₁) tr s →
        Guarded (fun s p => s.Holds fun m => p.KeepsTyping m.state.session) tr →
        ∃ m₂, s = .running m₂ ∧
          m₁.state.session.Outcome (parent ++ [name]) (tr.map Prod.snd) m₂.state.session := by
  have hother : ∀ r, r ≠ .edit path → ¬ p.Executes m.state.session r :=
    fun r hr hexec => hr (hexec.2.2.symm.trans hedit.2.2)
  obtain ⟨m₁, hpress, hm₁, hsession⟩ :=
    Machine.Step.returns (unlocked_of_run h) rfl (hother _ (by simp)) (hother _ (by simp))
  obtain ⟨hkey, hmode, hrequest⟩ := hedit
  have hopened : Session.Opened m.state.fs parent name m₁.state.session := by
    obtain ⟨parent', heq⟩ := resolve_normalized hnormal m.state.shell.cwd
    obtain ⟨-, rfl⟩ := List.append_singleton_inj.mp (hresolve.symm.trans heq)
    rw [hsession, Session.press_execute hkey hmode, hrequest, Session.execute, hnormal]
    exact Session.opened_openEditor (s := m.state.session.submit) hresolve
      (normalize_ok hnormal).ordinary.1 hparent hfile _
  refine ⟨m₁, hpress, hopened, fun tr s hrun hkeep => ?_⟩
  obtain ⟨m₂, rfl, -, hout⟩ :=
    editor_outcome hm₁ hopened.editsFile hopened.mode hopened.pending hrun hkeep
  exact ⟨m₂, rfl, hout⟩

def editTyped : List Press := (typed "edit a").dropLast

theorem editor_session_new_file : ∃ tr₀ m m₁, Run Machine.Step boot tr₀ (.running m) ∧
    (Machine.running m).press Key.enter.hit = .running m₁ ∧
    Session.Opened m.state.fs [] "a.txt".toList m₁.state.session ∧
    ∀ tr s, Run Machine.Step (.running m₁) tr s →
      Guarded (fun s p => s.Holds fun m => p.KeepsTyping m.state.session) tr →
      ∃ m₂, s = .running m₂ ∧
        m₁.state.session.Outcome ["a.txt".toList] (tr.map Prod.snd) m₂.state.session := by
  obtain ⟨m, hm, hedit, hresolve, hnone⟩ : ∃ m, boot.presses editTyped = .running m ∧
      Key.enter.hit.Executes m.state.session (.edit "a".toList) ∧
      m.state.session.resolve "a.txt".toList = ["a.txt".toList] ∧
      m.state.fs.paths.entry ["a.txt".toList] = none :=
    Machine.exists_running (by decide +kernel)
  obtain ⟨tr₀, hrun⟩ := boot.run_presses editTyped
  rw [hm] at hrun
  have hfile : m.state.fs.paths.entry ["a.txt".toList] ≠ some .dir := by
    rw [hnone]
    simp
  obtain ⟨m₁, hsession⟩ :=
    editor_session hrun hedit rfl (List.nil_append _ ▸ hresolve) (.inl rfl) hfile
  exact ⟨tr₀, m, m₁, hrun, hsession⟩

/-! ## A save that fails -/

end Shell

namespace Session

variable {s : Session} {p : Press} {text : Str}

def Refuses (s : Session) (text : Str) : Prop :=
  let target := splitParentAndName (s.resolve s.shell.editorFilename)
  target.2 = [] ∨ (s.fs.writeFile target.1 target.2 text).1 ≠ .ok ()

/-- The editor still has the file open, with all the text. -/
def Retains (s : Session) (text : Str) (s' : Session) : Prop :=
  s'.shell.mode = .editor ∧ s'.shell.editorFilename = s.shell.editorFilename ∧
    text <+: s'.shell.editorBuffer

instance : Decidable (s.Refuses text) := inferInstanceAs (Decidable (_ ∨ _))

instance {s' : Session} : Decidable (s.Retains text s') := inferInstanceAs (Decidable (_ ∧ _ ∧ _))

theorem save_of_refuses (h : s.Refuses s.shell.editorBuffer) : s.save = s := by
  unfold Refuses at h
  rw [save, atTarget]
  dsimp only at h ⊢
  split_ifs with hname
  · rfl
  · have herror := h.resolve_left (by simpa using hname)
    rw [FileSystem.refines_writeFile.error fun hpre =>
      herror (FileSystem.refines_writeFile.ok_iff.mpr hpre)]

theorem press_of_saves (hmode : s.shell.mode = .editor) (hsaves : p.saves s = some text) :
    (s.press p).shell.mode = .command ∧ (s.press p).shell.editorFilename = [] ∧
      (s.press p).shell.editorBuffer = [] ∧ (s.press p).fs = (s.setBuffer text).save.fs := by
  unfold Press.saves at hsaves
  cases hkey : p.key with
  | character c =>
    simp only [hkey] at hsaves
    split_ifs at hsaves with hk
    obtain ⟨hctrl, hk⟩ := hk
    obtain rfl := Option.some.inj hsaves
    have hpress : s.press p = (s.save.close).setPending false := by
      simp [press, hkey, hctrl, ctrlChar, hmode, hk]
    rw [hpress]
    exact ⟨rfl, rfl, rfl, rfl⟩
  | enter =>
    simp only [hkey] at hsaves
    split_ifs at hsaves with hwq
    obtain rfl := Option.some.inj hsaves
    have hpress : s.press p =
        (s.setBuffer (s.shell.editorBuffer.rdrop (utf8Len s.shell.lastLine))).save.close := by
      simp [press, hkey, enter, hmode, hwq]
    rw [hpress]
    exact ⟨rfl, rfl, rfl, rfl⟩
  | _ => simp [hkey] at hsaves

end Session

namespace Shell
open Kernel Lib

/-- A save that does not write the file closes the editor all the same: path and
text are gone. -/
theorem failed_save_loses_text {tr : List (Machine × Press)} {m : Held Lock World} {p : Press}
    {text : Str} (h : Run Machine.Step boot tr (.running m)) (hmode : m.state.shell.mode = .editor)
    (hsaves : p.saves m.state.session = some text) (hrefused : m.state.session.Refuses text) :
    ∃ m', (Machine.running m).press p = .running m' ∧
      ¬ m.state.session.Retains text m'.state.session ∧ m'.state.shell.mode = .command ∧
      m'.state.shell.editorFilename = [] ∧ m'.state.shell.editorBuffer = [] ∧
      m'.state.fs = m.state.fs := by
  obtain ⟨m', hpress, -, hsession⟩ := Machine.Step.returns (unlocked_of_run h) rfl
    (Press.not_executes hmode _) (Press.not_executes hmode _)
  obtain ⟨hcommand, hfilename, hbuffer, hfs⟩ := Session.press_of_saves hmode hsaves
  rw [← hsession] at hcommand hfilename hbuffer hfs
  refine ⟨m', hpress, fun hretains => ?_, hcommand, hfilename, hbuffer, ?_⟩
  · exact absurd (hcommand.symm.trans hretains.1) (by decide)
  · rw [Session.save_of_refuses (s := m.state.session.setBuffer text) hrefused] at hfs
    exact hfs

def ctrl (c : Char) : Press := ⟨.character c, true, 0, []⟩

def unsaved : List Press := typed "edit nodir/x.txt" ++ [(Key.character 'a').hit, ctrl 's']

theorem unsaved_running : ∃ m, boot.presses unsaved = .running m ∧
    m.state.shell.mode = .editor ∧ (ctrl 'k').saves m.state.session = some ['a'] ∧
    m.state.session.Refuses ['a'] ∧
    ¬ ((Machine.running m).press (ctrl 'k')).Holds fun m' =>
      m.state.session.Retains ['a'] m'.state.session :=
  Machine.exists_running (by decide +kernel)

theorem failed_save_loses_letter : ∃ m m', boot.presses unsaved = .running m ∧
    (Machine.running m).press (ctrl 'k') = .running m' ∧
    ¬ m.state.session.Retains ['a'] m'.state.session := by
  obtain ⟨m, hm, hmode, hsaves, hrefused, -⟩ := unsaved_running
  obtain ⟨tr, hrun⟩ := boot.run_presses unsaved
  rw [hm] at hrun
  obtain ⟨m', hpress, hlost, -⟩ := failed_save_loses_text hrun hmode hsaves hrefused
  exact ⟨m, m', hm, hpress, hlost⟩

theorem unsaved_text_lost : ∃ tr m, Run Machine.Step boot tr (.running m) ∧
    m.state.shell.mode = .editor ∧ (ctrl 'k').saves m.state.session = some ['a'] ∧
    m.state.session.Refuses ['a'] ∧
    ¬ ((Machine.running m).press (ctrl 'k')).Holds fun m' =>
      m.state.session.Retains ['a'] m'.state.session := by
  obtain ⟨m, hm, hlost⟩ := unsaved_running
  obtain ⟨tr, hrun⟩ := boot.run_presses unsaved
  rw [hm] at hrun
  exact ⟨tr, m, hrun, hlost⟩

end Shell

end AliluOS
