import AliluOS.Shell.Editor

/-! Whether the commands that change the session tell the truth about it: what each of
them prints, and what is so afterwards. -/

namespace AliluOS.Shell
open Text Fs Kernel Lib Thread

variable {ls : List Lock} {r : Request} {s s' : Session} {out : List VgaCall} {args : List Str}

/-! ## Announcements, complaints and promises -/

def announcements : List VgaCall :=
  [.write "Entered directory: ", .write "Changed directory to: ",
    .println "Directory folder created successfully in B-Tree index.",
    .println "' created successfully in B-Tree index.",
    .println "Text written to file in B-Tree index.",
    .println "Target deleted successfully from B-Tree index.",
    .println "Git repository cloned successfully into B-Tree index at /git/."]

def complaints : List Str :=
  ["Usage: enter [path]", "Usage: folder [name]", "Usage: create [filename]",
    "Usage: write [filename] [text]", "Usage: delete [filename/folder]",
    "Usage: git clone [repo_url] | git download", "Error: Directory not found.",
    "Error: Invalid directory name", "Error: Invalid filename", "Error: Invalid target",
    unsupportedFileType, "Parent directory not found", "Name already exists in this folder",
    "Target is a directory", "Target not found", "Directory not found"]

def Complains (out : List VgaCall) : Prop := ∃ text ∈ complaints, .println text ∈ out

/-- What an announcement promises of the session after the command. -/
def Request.Promise (s s' : Session) : Request → Prop
  | .goTo path => s'.shell.cwd = s.resolve path ∧ s'.CwdExists
  | .folder path => s'.fs.paths.entry (s.resolve path) = some .dir
  | .create path => ∃ finalPath, normalizeAndValidateFilename path = .ok finalPath ∧
      s'.fs.paths.entry (s.resolve finalPath) = some (.file [])
  | .write path text => s'.fs.paths.entry (s.resolve path) = some (.file text)
  | .delete path => s'.fs.paths.entry (s.resolve path) = none
  | .gitClone _ => s'.fs.paths.entry ["git".toList] = some .dir
  | .back | .edit _ | .atari | .app | .other => True

/-- An announcement keeps its promise; after a complaint filesystem, working directory and
mode are as before. -/
structure Truthful (r : Request) (s : Session) (out : List VgaCall) (s' : Session) : Prop where
  announced : ∀ call ∈ announcements, call ∈ out → r.Promise s s'
  complained : Complains out →
    s'.fs = s.fs ∧ s'.shell.cwd = s.shell.cwd ∧ s'.shell.mode = s.shell.mode

inductive Answered (r : Request) (s : Session) (out : List VgaCall) (s' : Session) : Prop
  | refused : (∀ call ∈ announcements, call ∉ out) → s' = s → Answered r s out s'
  | done : ¬ Complains out → r.Promise s s' → Answered r s out s'

theorem Answered.truthful (h : Answered r s out s') : Truthful r s out s' := by
  cases h with
  | refused hquiet heq =>
    subst heq
    exact ⟨fun call hcall hout => absurd hout (hquiet call hcall), fun _ => ⟨rfl, rfl, rfl⟩⟩
  | done hquiet hpromise => exact ⟨fun _ _ _ => hpromise, fun h => absurd h hquiet⟩

/-! ## Which texts are printed -/

def printed (out : List VgaCall) : List Str :=
  out.filterMap fun call => match call with
    | .println text => some text
    | _ => none

theorem mem_printed {text : Str} : text ∈ printed out ↔ .println text ∈ out := by
  rw [printed, List.mem_filterMap]
  constructor
  · rintro ⟨call, hmem, hcall⟩
    cases call with
    | println text' =>
      obtain rfl := Option.some.inj hcall
      exact hmem
    | _ => simp at hcall
  · exact fun hmem => ⟨_, hmem, rfl⟩

theorem not_complains (h : ∀ text ∈ printed out, text ∉ complaints) : ¬ Complains out :=
  fun ⟨text, hcomplaint, hmem⟩ => h text (mem_printed.mpr hmem) hcomplaint

theorem announcement_ne_complaint : ∀ call ∈ announcements, ∀ text ∈ complaints,
    call ≠ .println text := by
  decide +kernel

theorem part_ne_complaint : ∀ text ∈ ["/".toList, [], "'...".toList], text ∉ complaints := by
  decide +kernel

theorem not_complains_of_announcements (h : ∀ text ∈ printed out, .println text ∈ announcements) :
    ¬ Complains out :=
  not_complains fun text hmem hcomplaint =>
    announcement_ne_complaint _ (h text hmem) text hcomplaint rfl

theorem setColor_not_mem_announcements (fg bg : Color) : .setColor fg bg ∉ announcements := by
  simp [announcements]

theorem answered_println {text : Str} (h : text ∈ complaints) :
    Answered r s [.println text] s := by
  refine .refused (fun call hcall hout => ?_) rfl
  exact announcement_ne_complaint call hcall text h (List.mem_singleton.mp hout)

theorem answered_error {e : Str} (h : e ∈ complaints) :
    Answered r s [.setColor .lightRed .black, .println e, .setColor .white .black] s := by
  refine .refused (fun call hcall hout => ?_) rfl
  rcases List.mem_cons.mp hout with rfl | hout
  · exact setColor_not_mem_announcements _ _ hcall
  rcases List.mem_cons.mp hout with rfl | hout
  · exact announcement_ne_complaint _ hcall e h rfl
  · obtain rfl := List.mem_singleton.mp hout
    exact setColor_not_mem_announcements _ _ hcall

/-! ## The arms -/

theorem tells_withTarget {path invalid : Str} {body : List Str → Str → KernelM Unit}
    (hinvalid : invalid ∈ complaints)
    (hbody : ∀ parent name, name ≠ [] → Tells [.fs, .writer] [.fs, .writer]
      (fun s out s' => s.resolve path = parent ++ [name] → Answered r s out s')
      (body parent name)) :
    Tells [.writer] [.writer] (Answered r) (withTarget path invalid body) := by
  refine Tells.withLock (by simp) (Tells.getShell fun shell => ?_)
  rcases List.eq_nil_or_concat (resolvePath shell.cwd path) with hroot | ⟨parent, name, htarget⟩
  · rw [hroot]
    exact Tells.say fun s _ => answered_println hinvalid
  · rw [List.concat_eq_append] at htarget
    have hsplit : splitParentAndName (resolvePath shell.cwd path) = (parent, name) := by
      simp [htarget, splitParentAndName]
    rw [hsplit]
    refine Tells.ite (fun _ => Tells.say fun s _ => answered_println hinvalid) fun hname => ?_
    refine (hbody parent name (by simpa using hname)).mono fun s out s' h hshell => h ?_
    rw [Session.resolve, hshell, htarget]

theorem tells_mutate {op : FileSystem → Except Str Unit × FileSystem} {success : List VgaCall}
    {pre : FileSystem → Prop} {after : FileSystem → List Str → Option (Entry Str)}
    {C : Session → Prop} (hrefines : ∀ fs, FileSystem.Refines fs (pre fs) (after fs) (op fs))
    (herror : ∀ fs e, (op fs).1 = .error e → e ∈ complaints) (hquiet : ¬ Complains success)
    (hpromise : ∀ s s' : Session, C s → s'.fs.paths.entry = after s.fs → r.Promise s s') :
    Tells ls ls (fun s out s' => C s → Answered r s out s') (mutate op success) := by
  refine Tells.getFs fun fs => Tells.setFs ?_
  rcases hres : op fs with ⟨e | _, fs'⟩
  · have hfs' : fs' = fs := by
      have hfailed : ¬ pre fs := fun hpre => by
        have hok := (hrefines fs).ok_iff.mpr hpre
        simp [hres] at hok
      simpa [hres] using (hrefines fs).error hfailed
    apply Tells.say
    intro s hs old hold _
    have hold : old = s.fs := by
      rw [hs, hfs']
      exact hold
    rw [hold]
    exact answered_error (herror fs e (by rw [hres]))
  · refine Tells.say fun s hs old hold hC => .done hquiet (hpromise _ _ hC ?_)
    have hpre : pre fs := (hrefines fs).ok_iff.mp (by rw [hres])
    have hafter := (hrefines fs).ok hpre
    rw [hres] at hafter
    have hold : old = fs := hold
    rw [hs, hold, hafter]

theorem error_mem_complaints {fs : FileSystem} {ps : List Str} {missing e : Str}
    {body : DirectoryNode → Except Str DirectoryNode} {hbody}
    (h : (fs.updateDirectory ps missing body hbody).1 = .error e) (hmissing : missing ∈ complaints)
    (hrefused : ∀ parent e, body parent = .error e → e ∈ complaints) : e ∈ complaints := by
  rcases fs.updateDirectory_cases ps missing body hbody with hok | ⟨e', heq, hreason⟩
  · rw [hok] at h
    simp at h
  · rw [heq] at h
    obtain rfl := Except.error.inj h
    rcases hreason with rfl | ⟨parent, hrun⟩
    · exact hmissing
    · exact hrefused parent _ hrun

theorem parentMissing_mem : "Parent directory not found".toList ∈ complaints := by
  simp only [complaints, List.mem_cons, true_or, or_true]

theorem invalidFilename_mem : "Error: Invalid filename".toList ∈ complaints := by
  simp only [complaints, List.mem_cons, true_or, or_true]

theorem createIn_error {name : Str} {node : Node} (parent : DirectoryNode) (e : Str)
    (h : FileSystem.createIn name node parent = .error e) : e ∈ complaints := by
  unfold FileSystem.createIn at h
  split_ifs at h
  rw [← Except.error.inj h]
  simp only [complaints, List.mem_cons, true_or, or_true]

theorem writeIn_error {name content : Str} (parent : DirectoryNode) (e : Str)
    (h : FileSystem.writeIn name content parent = .error e) : e ∈ complaints := by
  unfold FileSystem.writeIn at h
  rcases hold : parent.children[name]? with _ | ⟨f⟩ | ⟨d⟩ <;> rw [hold] at h
  · simp at h
  · simp at h
  · rw [← Except.error.inj h]
    simp only [complaints, List.mem_cons, true_or, or_true]

theorem deleteIn_error {name : Str} (parent : DirectoryNode) (e : Str)
    (h : FileSystem.deleteIn name parent = .error e) : e ∈ complaints := by
  unfold FileSystem.deleteIn at h
  rcases hold : parent.children[name]? with _ | node <;> rw [hold] at h
  · rw [← Except.error.inj h]
    simp only [complaints, List.mem_cons, true_or, or_true]
  · simp at h

theorem printed_cwdPath (segments : List Str) :
    ∀ text ∈ printed (cwdPath segments), text = "/".toList ∨ text = [] := by
  have hsegments : printed (segments.flatMap fun segment => [.write "/", .write segment]) = [] := by
    induction segments with
    | nil => rfl
    | cons segment segments ih => simpa [printed] using ih
  intro text hmem
  unfold cwdPath at hmem
  split_ifs at hmem
  · exact .inl (List.mem_singleton.mp hmem)
  · rw [printed, List.filterMap_append, ← printed, hsegments] at hmem
    exact .inr (List.mem_singleton.mp hmem)

theorem tells_changeDirectory (path announcement : Str) :
    Tells [.writer] [.writer] (Answered (.goTo path)) (changeDirectory path announcement) := by
  have hmissing : "Error: Directory not found.".toList ∈ complaints := by
    simp only [complaints, List.mem_cons, true_or, or_true]
  refine Tells.withLock (by simp) (Tells.getShell fun shell => Tells.getFs fun fs => Tells.ite
    (fun hfound => Tells.setShell (Tells.say fun s hs old hfs hold => ?_)) fun _ =>
      Tells.say fun s _ _ => answered_error hmissing)
  have hresolve : (⟨old, s.fs⟩ : Session).resolve path = s.shell.cwd := by
    rw [hs, Session.resolve, hold]
  refine .done (not_complains fun text hmem => ?_) ⟨hresolve.symm, ?_⟩
  · rcases printed_cwdPath _ text hmem with rfl | rfl <;> exact part_ne_complaint _ (by simp)
  · rw [Session.CwdExists, ← hresolve, Session.resolve, hold, hfs]
    exact hfound

theorem tells_enter : Tells [.writer] [.writer] (Answered (Verb.enter.request args))
    (enter args) := by
  cases args with
  | nil =>
    refine Tells.say fun _ => answered_println ?_
    simp only [complaints, List.mem_cons, true_or]
  | cons path _ => exact tells_changeDirectory path _

theorem tells_folder : Tells [.writer] [.writer] (Answered (Verb.folder.request args))
    (folder args) := by
  cases args with
  | nil =>
    refine Tells.say fun _ => answered_println ?_
    simp only [complaints, List.mem_cons, true_or, or_true]
  | cons path _ =>
    rw [folder]
    refine tells_withTarget ?_ fun parent name _ => Tells.timerTicks fun ticks =>
      tells_mutate (fun _ => FileSystem.refines_createDirectory) (fun _ _ h => ?_)
        (not_complains_of_announcements fun text hmem => ?_) fun s s' hresolve hafter => ?_
    · simp only [complaints, List.mem_cons, true_or, or_true]
    · exact error_mem_complaints h parentMissing_mem createIn_error
    · rw [List.mem_singleton.mp hmem]
      simp only [announcements, List.mem_cons, true_or, or_true]
    · change s'.fs.paths.entry (s.resolve path) = some .dir
      rw [hafter, hresolve]
      exact if_pos rfl

theorem tells_create : Tells [.writer] [.writer] (Answered (Verb.create.request args))
    (create args) := by
  cases args with
  | nil =>
    refine Tells.say fun _ => answered_println ?_
    simp only [complaints, List.mem_cons, true_or, or_true]
  | cons path _ =>
    rw [create, withValidFilename]
    rcases hnormal : normalizeAndValidateFilename path with e | finalPath
    · refine Tells.say fun _ => answered_error ?_
      rw [normalize_error hnormal]
      simp only [complaints, List.mem_cons, true_or, or_true]
    · refine tells_withTarget invalidFilename_mem fun parent name _ => Tells.timerTicks fun ticks =>
        tells_mutate (fun _ => FileSystem.refines_createFile) (fun _ _ h => ?_)
          (not_complains_of_announcements fun text hmem => ?_) fun s s' hresolve hafter => ?_
      · exact error_mem_complaints h parentMissing_mem createIn_error
      · rw [List.mem_singleton.mp hmem]
        simp only [announcements, List.mem_cons, true_or, or_true]
      · refine ⟨finalPath, hnormal, ?_⟩
        rw [hafter, hresolve]
        exact if_pos rfl

theorem tells_write : Tells [.writer] [.writer] (Answered (Verb.write.request args))
    (write args) := by
  have husage : "Usage: write [filename] [text]".toList ∈ complaints := by
    simp only [complaints, List.mem_cons, true_or, or_true]
  rcases args with _ | ⟨path, _ | ⟨word, words⟩⟩
  · exact Tells.say fun _ => answered_println husage
  · exact Tells.say fun _ => answered_println husage
  · rw [write]
    refine tells_withTarget invalidFilename_mem fun parent name _ =>
      tells_mutate (fun _ => FileSystem.refines_writeFile) (fun _ _ h => ?_)
        (not_complains_of_announcements fun text hmem => ?_) fun s s' hresolve hafter => ?_
    · exact error_mem_complaints h parentMissing_mem writeIn_error
    · rw [List.mem_singleton.mp hmem]
      simp only [announcements, List.mem_cons, true_or, or_true]
    · change s'.fs.paths.entry (s.resolve path) = some (.file _)
      rw [hafter, hresolve]
      exact if_pos rfl

theorem tells_delete : Tells [.writer] [.writer] (Answered (Verb.delete.request args))
    (delete args) := by
  have hmissing : "Directory not found".toList ∈ complaints := by
    simp only [complaints, List.mem_cons, true_or, or_true]
  cases args with
  | nil =>
    refine Tells.say fun _ => answered_println ?_
    simp only [complaints, List.mem_cons, true_or, or_true]
  | cons path _ =>
    rw [delete]
    refine tells_withTarget ?_ fun parent name _ =>
      tells_mutate (fun _ => FileSystem.refines_deleteNode) (fun _ _ h => ?_)
        (not_complains_of_announcements fun text hmem => ?_) fun s s' hresolve hafter => ?_
    · simp only [complaints, List.mem_cons, true_or, or_true]
    · exact error_mem_complaints h hmissing deleteIn_error
    · rw [List.mem_singleton.mp hmem]
      simp only [announcements, List.mem_cons, true_or, or_true]
    · change s'.fs.paths.entry (s.resolve path) = none
      rw [hafter, hresolve]
      exact if_pos (List.prefix_refl _)

/-! ## `git clone` -/

/-- A clone into a place where a file stands. -/
def Request.ClonesOverFile (s : Session) (r : Request) : Prop :=
  ∃ url c, r = .gitClone url ∧ s.fs.paths.entry ["git".toList] = some (.file c)

/-- `git clone` prints its announcement whatever comes of it. -/
def clonedInto (url : Str) : List VgaCall :=
  [.setColor .lightCyan .black, .write "Cloning git repository '", .write url, .println "'...",
    .setColor .white .black, .setColor .lightGreen .black,
    .println "Git repository cloned successfully into B-Tree index at /git/.",
    .setColor .white .black]

theorem tells_gitClone (url : Str) : Tells [] [] (fun s out s' => out = clonedInto url ∧
    ∃ ticks, s' = { s with fs := (s.fs.createDirectory [] "git".toList ticks).2 })
    (Network.gitClone url) := by
  intro m hm
  simp only [Network.gitClone, wp_bind, wp_withLock, wp_say, wp_timerTicks, wp_getFs, wp_setFs, hm,
    List.not_mem_nil, if_false, List.erase_cons_head]
  refine ⟨rfl, clonedInto url, ?_, rfl, m.state.ticks, rfl⟩
  simp [clonedInto]

theorem truthful_gitClone {url : Str} {ticks : Nat} :
    Truthful (.gitClone url) s (clonedInto url)
        { s with fs := (s.fs.createDirectory [] "git".toList ticks).2 } ↔
      ¬ (Request.gitClone url).ClonesOverFile s := by
  have hannounced : VgaCall.println "Git repository cloned successfully into B-Tree index at /git/."
      ∈ announcements := by
    simp only [announcements, List.mem_cons, true_or, or_true]
  have hquiet : ¬ Complains (clonedInto url) := by
    refine not_complains fun text hmem hcomplaint => ?_
    rcases List.mem_cons.mp hmem with rfl | hmem
    · exact part_ne_complaint _ (by simp) hcomplaint
    · obtain rfl := List.mem_singleton.mp hmem
      exact announcement_ne_complaint _ hannounced _ hcomplaint rfl
  have hrefines : s.fs.Refines _ _ (s.fs.createDirectory [] "git".toList ticks) :=
    FileSystem.refines_createDirectory
  -- `create_directory` refuses a name that is taken, whatever stands there
  have hkeep : s.fs.paths.entry ["git".toList] ≠ none →
      (s.fs.createDirectory [] "git".toList ticks).2 = s.fs := fun hne =>
    hrefines.error fun hpre => hne hpre.2
  constructor
  · rintro h ⟨url', c, -, hfile⟩
    have hpromise := h.announced _ hannounced (by simp [clonedInto])
    have hdir : (s.fs.createDirectory [] "git".toList ticks).2.paths.entry ["git".toList] =
        some .dir := hpromise
    rw [hkeep (hfile ▸ Option.some_ne_none _), hfile] at hdir
    simp at hdir
  · intro hclone
    refine ⟨fun _ _ _ => ?_, fun h => absurd h hquiet⟩
    change (s.fs.createDirectory [] "git".toList ticks).2.paths.entry ["git".toList] = some .dir
    rcases hentry : s.fs.paths.entry ["git".toList] with _ | _ | c
    · rw [hrefines.ok ⟨.inl rfl, hentry⟩]
      exact if_pos rfl
    · rw [hkeep (hentry ▸ Option.some_ne_none _), hentry]
    · exact absurd ⟨url, c, rfl, hentry⟩ hclone

/-! ## Command lines -/

def Reporting (line : Str) : Prop :=
  ∃ command args, splitWhitespace (trim line) = command :: args ∧
    (command ∈ (["folder", "create", "write", "delete", "enter", "cd"] : List Str) ∨
      command = "git".toList ∧ args.head? = some "clone".toList)

def TellsTruth (r : Request) (s : Session) (out : List VgaCall) (s' : Session) : Prop :=
  Truthful r s out s' ↔ ¬ r.ClonesOverFile s

theorem tellsTruth_of_answered (hr : ∀ url, r ≠ .gitClone url) (h : Answered r s out s') :
    TellsTruth r s out s' :=
  iff_of_true h.truthful fun ⟨url, _, heq, _⟩ => hr url heq

theorem tells_git (hargs : args.head? = some "clone".toList) :
    Tells [.writer] [] (TellsTruth (Verb.git.request args)) (git args) := by
  have hdownload : "clone".toList ≠ "download".toList := by decide
  rcases args with _ | ⟨subcommand, _ | ⟨url, rest⟩⟩
  · simp at hargs
  · obtain rfl : subcommand = "clone".toList := Option.some.inj hargs
    rw [git]
    refine Tells.unlock (Tells.ite (fun h => absurd h hdownload) fun _ =>
      Tells.withLock (by simp) (Tells.say fun s => tellsTruth_of_answered (by simp [Verb.request])
        (answered_println ?_)))
    simp only [complaints, List.mem_cons, true_or, or_true]
  · obtain rfl : subcommand = "clone".toList := Option.some.inj hargs
    rw [git]
    refine Tells.unlock (Tells.ite (fun h => absurd h hdownload) fun _ =>
      Tells.ite (fun _ => (tells_gitClone url).mono fun s out s' h => ?_) fun h => absurd rfl h)
    obtain ⟨rfl, ticks, rfl⟩ := h
    exact truthful_gitClone

theorem Verb.git_of_request {verb : Verb} {url : Str} (h : verb.request args = .gitClone url) :
    verb = .git := by
  rcases args with _ | ⟨first, _ | ⟨word, words⟩⟩ <;> cases verb <;>
    simp only [request, reduceCtorEq] at h <;> split_ifs at h
  rfl

theorem tells_runVerb {command : Str}
    (hcommand : command ∈ (["folder", "create", "write", "delete", "enter", "cd"] : List Str) ∨
      command = "git".toList ∧ args.head? = some "clone".toList) :
    ∃ verb, verbs.lookup command = some verb ∧
      Tells [.writer] [] (TellsTruth (verb.request args)) (runVerb args verb) := by
  have hplain : ∀ verb : Verb, verb ≠ .git → ∀ url, verb.request args ≠ .gitClone url :=
    fun verb hverb url h => hverb (Verb.git_of_request h)
  rcases hcommand with hcommand | ⟨rfl, hargs⟩
  · simp only [List.mem_cons, List.not_mem_nil, or_false] at hcommand
    rcases hcommand with rfl | rfl | rfl | rfl | rfl | rfl
    · exact ⟨.folder, by decide, tells_underGuard <| tells_folder.mono fun _ _ _ =>
        tellsTruth_of_answered (hplain _ (by simp))⟩
    · exact ⟨.create, by decide, tells_underGuard <| tells_create.mono fun _ _ _ =>
        tellsTruth_of_answered (hplain _ (by simp))⟩
    · exact ⟨.write, by decide, tells_underGuard <| tells_write.mono fun _ _ _ =>
        tellsTruth_of_answered (hplain _ (by simp))⟩
    · exact ⟨.delete, by decide, tells_underGuard <| tells_delete.mono fun _ _ _ =>
        tellsTruth_of_answered (hplain _ (by simp))⟩
    · exact ⟨.enter, by decide, tells_underGuard <| tells_enter.mono fun _ _ _ =>
        tellsTruth_of_answered (hplain _ (by simp))⟩
    · exact ⟨.cd, by decide, tells_underGuard <| (tells_changeDirectory _ _).mono fun _ _ _ =>
        tellsTruth_of_answered (hplain .cd (by simp))⟩
  · exact ⟨.git, by decide, tells_git hargs⟩

theorem tells_executeCommand {line : Str} (h : Reporting line) :
    Tells [] [] (TellsTruth (request line)) (executeCommand line) := by
  obtain ⟨command, args, hparts, hcommand⟩ := h
  have htrim : ¬ (trim line).isEmpty := by
    intro htrim
    rw [List.isEmpty_iff.mp htrim] at hparts
    cases hparts
  have hrequest : request line = requestOf command args := by
    simp only [request, hparts, List.headD_cons, List.tail_cons]
  obtain ⟨verb, hlookup, htells⟩ := tells_runVerb hcommand
  rw [executeCommand, if_neg htrim, hparts, hrequest]
  simp only [List.headD_cons, List.tail_cons]
  rw [dispatch, requestOf, hlookup]
  by_cases hhelp : wantsHelp command args
  · -- the manual is shown, and nothing is done
    rw [if_pos hhelp, if_pos hhelp]
    refine Tells.withLock (by simp) (Tells.say fun s => iff_of_true ?_ ?_)
    · exact ⟨fun _ _ _ => trivial, fun _ => ⟨rfl, rfl, rfl⟩⟩
    · rintro ⟨_, _, h, _⟩
      cases h
  · rw [if_neg hhelp, if_neg hhelp]
    exact Tells.lock (by simp) htells

/-- In every reachable state, such a command returns, and what it prints is true of
what it has done exactly when it does not clone over a file. -/
theorem reports_truth_iff {tr : List (Machine × Press)} {m : Held Lock World} {line : Str}
    (h : Run Machine.Step boot tr (.running m)) (hline : Reporting line) :
    ∃ m' out, executeCommand line m = .ok ((), m') ∧
      m'.state.console = m.state.console ++ out ∧
      (Truthful (request line) m.state.session out m'.state.session ↔
        ¬ (request line).ClonesOverFile m.state.session) := by
  have hwp := tells_executeCommand hline m (unlocked_of_run h)
  obtain ⟨_, m', hok, -, out, hout, htruth⟩ := exists_of_wp hwp id
  exact ⟨m', out, hok, hout, htruth⟩

theorem reporting_folder : Reporting "folder a".toList :=
  ⟨"folder".toList, ["a".toList], by decide, .inl (by simp)⟩

theorem reports_truth_folder : ∃ m m' out,
    executeCommand "folder a".toList m = .ok ((), m') ∧
    m'.state.console = m.state.console ++ out ∧
    (Truthful (request "folder a".toList) m.state.session out m'.state.session ↔
      ¬ (request "folder a".toList).ClonesOverFile m.state.session) :=
  ⟨_, reports_truth_iff .nil reporting_folder⟩

/-- A file is written at `/git`, and a repository is cloned. -/
theorem clone_over_file : ∃ (tr : List (Machine × Press)) (m m' : Held Lock World) (out : _),
    Run Machine.Step boot tr (.running m) ∧ Reporting "git clone x".toList ∧
    executeCommand "git clone x".toList m = .ok ((), m') ∧
    m'.state.console = m.state.console ++ out ∧
    ¬ Truthful (request "git clone x".toList) m.state.session out m'.state.session := by
  obtain ⟨m, hm, hfile⟩ : ∃ m, boot.presses (typed "write git hello") = .running m ∧
      m.state.fs.paths.entry ["git".toList] = some (.file "hello".toList) :=
    Machine.exists_running (by decide +kernel)
  obtain ⟨tr, hrun⟩ := boot.run_presses (typed "write git hello")
  rw [hm] at hrun
  have hline : Reporting "git clone x".toList :=
    ⟨"git".toList, ["clone".toList, "x".toList], by decide, .inr ⟨rfl, rfl⟩⟩
  have hrequest : request "git clone x".toList = .gitClone "x".toList := by decide +kernel
  obtain ⟨_, m', hok, -, out, hout, htruth⟩ :=
    exists_of_wp (tells_executeCommand hline m (unlocked_of_run hrun)) id
  refine ⟨tr, m, m', out, hrun, hline, hok, hout, fun htruthful => ?_⟩
  exact htruth.mp htruthful ⟨_, _, hrequest, hfile⟩

end AliluOS.Shell
