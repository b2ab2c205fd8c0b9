import AliluOS.Apps.Locks
import AliluOS.Shell.Session

/-! The key handlers do to shell and filesystem what the session says, give back
every lock, and lock none twice, unless Breakout is started. -/

namespace AliluOS.Shell
open Text Fs Kernel Lib Thread

variable {stuck : Prop} {ls : List Lock} {f : Nat → Session → Session} {body : KernelM Unit}
  {args : List Str}

theorem does_underGuard (h : Does stuck [.writer] [.writer] f body) :
    Does stuck [.writer] [] f (underGuard body) := by
  intro m hm
  rw [underGuard, wp_bind]
  refine wp_safely_mono (h m hm) fun _ m' ⟨hlocks, hrest⟩ => ?_
  simpa [hlocks] using hrest

theorem tells_underGuard {Q : Session → List VgaCall → Session → Prop} {body : KernelM Unit}
    (h : Tells [.writer] [.writer] Q body) : Tells [.writer] [] Q (underGuard body) := by
  intro m hm
  rw [underGuard, wp_bind]
  refine wp_safely_mono (h m hm) fun _ m' ⟨hlocks, hrest⟩ => ?_
  simpa [hlocks] using hrest

theorem does_dropGuard {t : KernelM Unit} (h : Does stuck [] [] f t) :
    Does stuck [.writer] [] f (unlock .writer >>= fun _ => t) := by
  intro m hm
  rw [wp_bind, wp_unlock]
  exact h _ (by simp [hm])

theorem does_withTarget {path invalid : Str} {body : List Str → Str → KernelM Unit}
    {g : List Str → Str → Nat → Session → Session}
    (h : ∀ parent name,
      Does stuck [.fs, .writer] [.fs, .writer] (g parent name) (body parent name)) :
    Does stuck [.writer] [.writer] (fun n s => s.atTarget path fun parent name => g parent name n s)
      (withTarget path invalid body) := by
  refine Does.withLock (by simp) (Does.getShell_known fun shell => ?_)
  rcases hsplit : splitParentAndName (resolvePath shell.cwd path) with ⟨parent, name⟩
  refine ⟨_, (Does.say _).ite (h parent name), fun n fs => ?_⟩
  simp only [Session.atTarget, Session.resolve, hsplit]

theorem does_mutate (op : FileSystem → Except Str Unit × FileSystem) (success : List VgaCall) :
    Does stuck ls ls (fun _ s => { s with fs := (op s.fs).2 }) (mutate op success) := by
  refine Does.of_eq (Does.getFs fun fs => (Does.setFs _).bind (g := fun _ s => s) fun _ => ?_)
    fun _ _ => rfl
  rcases (op fs).1 with e | _
  · exact Does.say _
  · exact Does.say _

theorem does_changeDirectory (path announcement : Str) :
    Does stuck [.writer] [.writer] (fun _ s => s.goTo path)
      (changeDirectory path announcement) := by
  refine Does.of_eq (Does.withLock (by simp) (Does.getShell fun shell => Does.getFs fun fs =>
    ((Does.setShell _).bind fun _ => Does.say _).ite (Does.say _))) fun _ _ => ?_
  rfl

theorem does_enter :
    Does stuck [.writer] [.writer] (fun n s => s.execute n (Verb.enter.request args))
      (enter args) := by
  cases args with
  | nil => exact Does.say _
  | cons path _ => exact does_changeDirectory path _

theorem does_back : Does stuck [.writer] [.writer] (fun n s => s.execute n .back) back := by
  refine Does.of_eq (Does.getShell fun shell => (Does.say _).ite
    ((Does.setShell _).bind fun _ => Does.say _)) fun _ s => ?_
  obtain ⟨⟨buffer, mode, filename, text, pending, cwd⟩, fs⟩ := s
  cases cwd <;> rfl

theorem does_folder :
    Does stuck [.writer] [.writer] (fun n s => s.execute n (Verb.folder.request args))
      (folder args) := by
  cases args with
  | nil => exact Does.say _
  | cons path _ =>
    rw [folder]
    exact Does.of_eq (does_withTarget fun parent name => Does.timerTicks fun n => does_mutate _ _)
      fun _ _ => rfl

theorem does_list : Does stuck [.writer] [.writer] (fun _ s => s) list := by
  refine Does.of_eq (Does.withLock (by simp) (Does.getFs (f := fun _ _ s => s) fun fs =>
    Does.getShell (f := fun _ _ s => s) fun shell => ?_)) fun _ _ => rfl
  rcases fs.listDirectory shell.cwd with e | items
  · exact Does.say _
  · exact (Does.say _).ite_same (Does.say _)

theorem does_create :
    Does stuck [.writer] [.writer] (fun n s => s.execute n (Verb.create.request args))
      (create args) := by
  cases args with
  | nil => exact Does.say _
  | cons path _ =>
    rw [create, withValidFilename, Verb.request]
    simp only [Session.execute]
    rcases normalizeAndValidateFilename path with e | finalPath
    · exact Does.say _
    · exact Does.of_eq (does_withTarget fun parent name => Does.timerTicks fun n =>
        does_mutate _ _) fun _ _ => rfl

theorem does_write :
    Does stuck [.writer] [.writer] (fun n s => s.execute n (Verb.write.request args))
      (write args) := by
  rcases args with _ | ⟨path, _ | ⟨word, words⟩⟩
  · exact Does.say _
  · exact Does.say _
  · rw [write]
    exact Does.of_eq (does_withTarget fun parent name => does_mutate _ _) fun _ _ => rfl

theorem does_read : Does stuck [.writer] [.writer] (fun _ s => s) (read args) := by
  cases args with
  | nil => exact Does.say _
  | cons path _ =>
    rw [read]
    refine Does.of_eq (does_withTarget (g := fun _ _ _ s => s) fun parent name =>
      Does.getFs (f := fun _ _ s => s) fun fs => ?_) fun _ s => ?_
    · rcases fs.readFile parent name with e | content
      · exact Does.say _
      · exact Does.say _
    · simp [Session.atTarget]

theorem does_delete :
    Does stuck [.writer] [.writer] (fun n s => s.execute n (Verb.delete.request args))
      (delete args) := by
  cases args with
  | nil => exact Does.say _
  | cons path _ =>
    rw [delete]
    exact Does.of_eq (does_withTarget fun parent name => does_mutate _ _) fun _ _ => rfl

theorem does_edit : Does stuck [.writer] [.writer] (fun n s => s.execute n (Verb.edit.request args))
    (edit args) := by
  cases args with
  | nil => exact Does.say _
  | cons path _ =>
    rw [edit, withValidFilename, Verb.request]
    simp only [Session.execute]
    rcases normalizeAndValidateFilename path with e | finalPath
    · exact Does.say _
    · refine Does.of_eq (does_withTarget fun parent name => Does.getFs fun fs =>
        Does.timerTicks fun n => (Does.setFs _).bind fun _ => Does.getShell fun shell =>
          (Does.setShell _).bind fun _ => Does.say _) fun _ _ => rfl

theorem does_system : Does stuck [.writer] [.writer] (fun _ s => s) system :=
  Does.timerTicks fun _ => Does.say _

theorem does_directory : Does stuck [.writer] [.writer] (fun _ s => s) directory :=
  Does.getShell fun _ => Does.say _

theorem does_git :
    Does stuck [.writer] [] (fun n s => s.execute n (Verb.git.request args)) (git args) := by
  rcases args with _ | ⟨subcommand, _ | ⟨url, rest⟩⟩
  · exact does_underGuard (Does.say _)
  · rw [git]
    exact does_dropGuard (Network.does_downloadGitSoftware.ite_same (does_sayLocked _))
  · rw [git]
    refine does_dropGuard (Does.of_eq (Does.ite Network.does_downloadGitSoftware
      ((Network.does_gitClone url).ite (does_sayLocked _))) fun n s => ?_)
    rw [Verb.request]
    split_ifs with hdownload hclone
    · simp [hdownload] at hclone
    all_goals rfl

theorem does_play (hatari : Verb.play.request args ≠ .atari) :
    Does (Verb.play.request args = .app) [.writer] []
      (fun n s => s.execute n (Verb.play.request args)) (play args) := by
  cases args with
  | nil => exact does_underGuard (Does.say _)
  | cons game rest =>
    rw [Verb.request] at hatari ⊢
    rw [play]
    have hgame : game ≠ "atari".toList := fun hgame => hatari (if_pos hgame)
    rw [if_neg hgame, if_neg hgame]
    apply does_dropGuard
    by_cases hchess : game = "chess".toList
    · rw [if_pos hchess, if_pos hchess]
      exact Does.weaken Apps.quiet_startChess fun _ => rfl
    · rw [if_neg hchess, if_neg hchess]
      exact does_sayLocked _

theorem does_runVerb (verb : Verb) (hatari : verb.request args ≠ .atari) :
    Does (verb.request args = .app) [.writer] [] (fun n s => s.execute n (verb.request args))
      (runVerb args verb) := by
  cases verb with
  | clear => exact does_underGuard (Does.say _)
  | system => exact does_underGuard does_system
  | tasks => exact does_underGuard (Does.say _)
  | directory => exact does_underGuard does_directory
  | enter => exact does_underGuard does_enter
  | back => exact does_underGuard does_back
  | cd => exact does_underGuard (does_changeDirectory _ _)
  | folder => exact does_underGuard does_folder
  | list => exact does_underGuard does_list
  | create => exact does_underGuard does_create
  | write => exact does_underGuard does_write
  | read => exact does_underGuard does_read
  | delete => exact does_underGuard does_delete
  | edit => exact does_underGuard does_edit
  | play => exact does_play hatari
  | draw => exact does_dropGuard (Does.weaken Apps.quiet_startCanvas fun _ => rfl)
  | browse => exact does_dropGuard (Does.weaken (Network.quiet_startBrowser _) fun _ => rfl)
  | git => exact does_git
  | echo => exact does_underGuard (Does.say _)

theorem does_lock {l : Lock} {ls' : List Lock} {t : KernelM Unit} (hl : l ∉ ls)
    (h : Does stuck (l :: ls) ls' f t) : Does stuck ls ls' f (lock l >>= fun _ => t) := by
  intro m hm
  rw [wp_bind, wp_lock, if_neg (by rwa [hm])]
  exact h _ (by simp [hm])

theorem does_dispatch (command : Str) (hatari : requestOf command args ≠ .atari) :
    Does (requestOf command args = .app) [] [] (fun n s => s.execute n (requestOf command args))
      (dispatch command args) := by
  rw [dispatch, requestOf] at *
  by_cases hhelp : wantsHelp command args
  · rw [if_pos hhelp, if_pos hhelp]
    exact does_sayLocked _
  · rw [if_neg hhelp] at hatari ⊢
    rw [if_neg hhelp]
    apply does_lock (by simp)
    rcases hverb : verbs.lookup command with _ | verb <;> rw [hverb] at hatari
    · exact does_underGuard (Does.say _)
    · exact does_runVerb verb hatari

theorem does_executeCommand (line : Str) (hatari : request line ≠ .atari) :
    Does (request line = .app) [] [] (fun n s => s.execute n (request line))
      (executeCommand line) := by
  rw [executeCommand]
  by_cases htrim : (trim line).isEmpty
  · have hline : request line = .other := by
      rw [request, List.isEmpty_iff.mp htrim]
      rfl
    rw [if_pos htrim, hline]
    exact Does.pure ()
  · rw [if_neg htrim]
    exact does_dispatch _ hatari

theorem does_save (invalid : Str) : Does stuck ls ls (fun _ s => s.save) (save invalid) := by
  have hwrite : Does stuck ls ls (fun _ s => s.save) (writeBuffer invalid) := by
    refine Does.getShell_known fun shell => ?_
    rcases hsplit : splitParentAndName (resolvePath shell.cwd shell.editorFilename) with
      ⟨parent, name⟩
    refine ⟨_, (Does.say _).ite (Does.getFs fun fs =>
      (Does.setFs _).bind (g := fun _ s => s) fun _ => ?_), fun n fs => ?_⟩
    · split
      · exact Does.say _
      · exact Does.say _
    · simp only [Session.save, Session.atTarget, Session.resolve, hsplit]
      rfl
  exact hwrite.bind fun _ => Does.say _

theorem does_handleEscape : Does stuck [] [] (fun _ s => s.escape) handleEscape := by
  refine Does.getShell_known fun shell => ?_
  obtain ⟨buffer, mode, filename, text, pending, cwd⟩ := shell
  cases mode with
  | command =>
    refine ⟨_, (Does.pure ()).ite ((Does.setShell _).bind fun _ => does_sayLocked _),
      fun n fs => ?_⟩
    cases buffer <;> rfl
  | editor => exact ⟨_, (Does.setShell _).bind fun _ => does_sayLocked _, fun _ _ => rfl⟩
  | helpViewer => exact ⟨_, (Does.setShell _).bind fun _ => does_sayLocked _, fun _ _ => rfl⟩

theorem does_handleBackspace : Does stuck [] [] (fun _ s => s.erase) handleBackspace := by
  refine Does.withLock (by simp) (Does.getShell_known fun shell => ?_)
  obtain ⟨buffer, mode, filename, text, pending, cwd⟩ := shell
  cases mode with
  | command =>
    refine ⟨_, (Does.pure ()).ite ((Does.setShell _).bind fun _ => Does.say _), fun n fs => ?_⟩
    cases buffer <;> rfl
  | editor =>
    refine ⟨_, (Does.pure ()).ite ((Does.setShell _).bind fun _ => Does.say _), fun n fs => ?_⟩
    cases text <;> rfl
  | helpViewer => exact ⟨_, Does.pure (), fun _ _ => rfl⟩

theorem does_handleChar (c : Char) : Does stuck [] [] (fun _ s => s.type c) (handleChar c) := by
  refine Does.withLock (by simp) (Does.getShell_known fun shell => ?_)
  obtain ⟨buffer, mode, filename, text, pending, cwd⟩ := shell
  cases mode with
  | command => exact ⟨_, (Does.setShell _).bind fun _ => Does.say _, fun _ _ => rfl⟩
  | editor => exact ⟨_, (Does.setShell _).bind fun _ => Does.say _, fun _ _ => rfl⟩
  | helpViewer => exact ⟨_, Does.pure (), fun _ _ => rfl⟩

theorem does_handleCtrlChar (c : Char) :
    Does stuck [] [] (fun _ s => s.ctrlChar c) (handleCtrlChar c) := by
  have hclose : Does stuck [.fs, .writer] [.fs, .writer]
      (fun _ s => (s.save.close).setPending false) (do
      save "\nError: Invalid filename"
      setShell { closeEditor (← getShell) with savePending := false }
      say [.write "> "]) :=
    (does_save _).bind fun _ => Does.getShell fun shell =>
      (Does.setShell _).bind fun _ => Does.say _
  refine Does.of_eq (Does.getShell fun shell => (Does.withLock (by simp) (Does.ite
    (Does.getShell fun shell => (Does.setShell _).bind fun _ => Does.say _)
    (Does.ite (Does.getShell fun shell => (Does.withLock (by simp) hclose).ite (Does.say _))
      (Does.pure ())))).ite (Does.pure ())) fun _ s => ?_
  rw [Session.ctrlChar, ite_and]
  rfl

def enterEffect (shell : Shell) (s : Session) : Session :=
  if trim shell.lastLine = ":wq".toList then
    ({ s with shell := { shell with
      editorBuffer := shell.editorBuffer.rdrop (utf8Len shell.lastLine) } } : Session).save.close
  else if trim shell.lastLine = ":q".toList then { s with shell := closeEditor shell }
  else { s with shell := { shell with editorBuffer := shell.editorBuffer ++ ['\n'] } }

theorem does_enterInEditor (shell : Shell) :
    Does stuck [.writer] [.writer] (fun _ s => enterEffect shell s) (enterInEditor shell) := by
  unfold enterInEditor enterEffect Shell.lastLine
  rcases (lines shell.editorBuffer).getLast? with _ | lastLine
  · exact Does.setShell _
  · refine Does.of_eq (Does.ite ((Does.setShell _).bind fun _ => Does.withLock (by simp)
      ((does_save _).bind fun _ => Does.getShell fun shell => (Does.setShell _).bind fun _ =>
        Does.say _)) (Does.ite ((Does.say _).bind fun _ => (Does.setShell _).bind fun _ =>
          Does.say _) (Does.setShell _))) fun _ _ => ?_
    rfl

theorem does_enterInCommand (shell : Shell) (hatari : request shell.buffer ≠ .atari) :
    Does (request shell.buffer = .app) [.writer] []
      (fun n s => ({ s with shell := { shell with buffer := [] } } : Session).execute n
        (request shell.buffer)) (enterInCommand shell) := by
  refine Does.of_eq ((Does.setShell _).bind fun _ => does_dropGuard
    ((does_executeCommand _ hatari).bind fun _ => Does.getShell (f := fun _ _ s => s) fun shell =>
      (does_sayLocked _).ite_same (Does.pure ()))) fun _ _ => rfl

/-- The key press executes a command line that asks for `r`. -/
def Press.Executes (p : Press) (s : Session) (r : Request) : Prop :=
  p.key = .enter ∧ s.shell.mode = .command ∧ request s.shell.buffer = r

instance (p : Press) (s : Session) (r : Request) : Decidable (p.Executes s r) :=
  inferInstanceAs (Decidable (_ ∧ _ ∧ _))

theorem wp_handleEnter_iff {m : Held Lock World} {P : Post Lock Halt World Unit}
    (hm : m.locks = []) :
    wp handleEnter m P ↔ wp (enterInMode m.state.shell)
      ⟨[.writer], { m.state with console := m.state.console ++ [.putChar '\n'] }⟩ P := by
  simp only [handleEnter, wp_bind, wp_lock, wp_say, wp_getShell, hm, List.not_mem_nil, if_false]

theorem wp_handleEnter {m : Held Lock World} (hm : m.locks = [])
    (hatari : m.state.shell.mode = .command → request m.state.shell.buffer ≠ .atari) :
    wp handleEnter m
      (safely (m.state.shell.mode = .command ∧ request m.state.shell.buffer = .app) fun _ m' =>
        m'.locks = [] ∧ m'.state.session = m.state.session.enter m.state.ticks) := by
  rw [wp_handleEnter_iff hm]
  obtain ⟨locks, ⟨buffer, mode, filename, text, pending, cwd⟩, fs, console, polls, ticks⟩ := m
  cases mode with
  | command =>
    refine wp_mono (does_enterInCommand _ (hatari rfl) _ rfl) ?_ (fun _ => id)
      fun _ happ => ⟨rfl, happ⟩
    exact fun _ m' ⟨hlocks, _, hsession⟩ => ⟨hlocks, hsession⟩
  | editor =>
    apply wp_safely_mono (does_underGuard (does_enterInEditor _) _ rfl)
    exact fun _ m' ⟨hlocks, _, hsession⟩ => ⟨hlocks, hsession⟩
  | helpViewer => simp [enterInMode, World.session, Session.enter]

theorem wp_handleKeyPress {p : Press} {m : Held Lock World} (hm : m.locks = [])
    (hatari : ¬ p.Executes m.state.session .atari) :
    wp (handleKeyPress p.ctrl p.key) (p.deliver m)
      (safely (p.Executes m.state.session .app) fun _ m' =>
        m'.locks = [] ∧ m'.state.session = m.state.session.press p) := by
  obtain ⟨key, ctrl, ticks, polls⟩ := p
  have hdeliver : (Press.mk key ctrl ticks polls).deliver m =
      ⟨[], ⟨m.state.shell, m.state.fs, m.state.console, polls, ticks⟩⟩ := by
    simp [Press.deliver, hm]
  rw [hdeliver]
  have of_does : ∀ {f : Nat → Session → Session} {t : KernelM Unit} {stuck : Prop},
      Does stuck [] [] f t →
      wp t ⟨[], ⟨m.state.shell, m.state.fs, m.state.console, polls, ticks⟩⟩ (safely stuck
        fun _ m' => m'.locks = [] ∧ m'.state.session = f ticks m.state.session) := fun h =>
    wp_safely_mono (h _ rfl) fun _ m' ⟨hlocks, _, hsession⟩ => ⟨hlocks, hsession⟩
  cases key with
  | character c =>
    cases ctrl with
    | true => exact of_does (does_handleCtrlChar c)
    | false => exact of_does (does_handleChar c)
  | space => exact of_does (does_handleChar ' ')
  | enter =>
    refine wp_mono (wp_handleEnter rfl fun hmode hreq => hatari ⟨rfl, hmode, hreq⟩)
      (fun _ _ => id) (fun _ => id) ?_
    exact fun _ ⟨hmode, hreq⟩ => ⟨rfl, hmode, hreq⟩
  | backspace => exact of_does does_handleBackspace
  | escape => exact of_does does_handleEscape
  | _ => exact of_does (Does.pure ())

end AliluOS.Shell
