import AliluOS.Fs.Names
import AliluOS.Shell.Directory

/-! Every node stays addressable: whatever the command lines and the editor do, a
node can be named on a command line, by its absolute path. -/

namespace AliluOS
open Text Fs Shell

def Shell.Request.path? : Request → Option Str
  | .goTo path | .folder path | .create path | .write path _ | .delete path | .edit path =>
    some path
  | .back | .gitClone _ | .atari | .app | .other => none

theorem ordinary_resolvePath {cwd : List Str} {path : Str} (hcwd : ∀ n ∈ cwd, Ordinary n)
    (hpath : ∀ c ∈ path, isWhitespace c = false) : ∀ n ∈ resolvePath cwd path, Ordinary n := by
  apply forall_resolvePath hcwd
  intro item hitem hne hdot hdots
  have htoken : Token item := ⟨hne, fun c hc => hpath c (subset_of_mem_split hitem hc)⟩
  exact ⟨htoken, sep_notMem_of_mem_split hitem, hdot, hdots⟩

theorem normalized_nonspace {rawPath finalPath : Str}
    (h : normalizeAndValidateFilename rawPath = .ok finalPath)
    (hraw : ∀ c ∈ rawPath, isWhitespace c = false) : ∀ c ∈ finalPath, isWhitespace c = false := by
  unfold normalizeAndValidateFilename at h
  dsimp only at h
  split at h
  · obtain rfl := Except.ok.inj h
    have htxt : Token ".txt".toList := by decide
    intro c hc
    rcases List.mem_append.mp hc with hc | hc
    · exact hraw c hc
    · exact htxt.2 c hc
  · split_ifs at h
    obtain rfl := Except.ok.inj h
    exact hraw

namespace Session

/-- Tree, working directory and the editor's file name hold no name that a command
line could not spell. -/
structure Addressable (s : Session) : Prop where
  tree : s.fs.Named
  cwd : ∀ n ∈ s.shell.cwd, Ordinary n
  filename : s.shell.mode = .editor → ∀ c ∈ s.shell.editorFilename, isWhitespace c = false

variable {s : Session} {path : Str} {op : List Str → Str → Session}

theorem Addressable.withFs {fs : FileSystem} (h : s.Addressable) (hfs : fs.Named) :
    ({ s with fs := fs } : Session).Addressable := ⟨hfs, h.cwd, h.filename⟩

theorem Addressable.atTarget {P : Session → Prop} (h : s.Addressable) (hs : P s)
    (hpath : ∀ c ∈ path, isWhitespace c = false)
    (hop : ∀ parent name, Ordinary name → P (op parent name)) : P (s.atTarget path op) := by
  rcases s.atTarget_cases path op with heq | ⟨parent, name, htarget, heq⟩ <;> rw [heq]
  · exact hs
  · have hname : name ∈ s.resolve path := by simp [htarget]
    exact hop parent name (ordinary_resolvePath h.cwd hpath name hname)

theorem Addressable.goTo (h : s.Addressable) (hpath : ∀ c ∈ path, isWhitespace c = false) :
    (s.goTo path).Addressable := by
  unfold Session.goTo
  split_ifs
  · exact ⟨h.tree, ordinary_resolvePath h.cwd hpath, h.filename⟩
  · exact h

theorem Addressable.openEditor {finalPath : Str} {ticks : Nat} (h : s.Addressable)
    (hpath : ∀ c ∈ finalPath, isWhitespace c = false) :
    (s.openEditor finalPath ticks).Addressable := by
  apply h.atTarget h hpath
  intro parent name hname
  have hopen : (openFile s.fs parent name ticks).2.Named := by
    unfold openFile
    dsimp only
    split_ifs
    · exact h.tree
    · exact FileSystem.named_createFile h.tree hname
  exact ⟨hopen, h.cwd, fun _ => hpath⟩

theorem Addressable.save (h : s.Addressable) (hmode : s.shell.mode = .editor) :
    s.save.fs.Named :=
  h.atTarget (P := fun s => s.fs.Named) h.tree (h.filename hmode)
    fun _ _ hname => FileSystem.named_writeFile h.tree hname

theorem Addressable.execute {ticks : Nat} {r : Request} (h : s.Addressable)
    (hr : ∀ path, r.path? = some path → ∀ c ∈ path, isWhitespace c = false) :
    (s.execute ticks r).Addressable := by
  cases r with
  | goTo path => exact h.goTo (hr path rfl)
  | back =>
    exact ⟨h.tree, fun n hn => h.cwd n (List.mem_of_mem_dropLast hn), h.filename⟩
  | folder path =>
    exact h.atTarget h (hr path rfl) fun _ _ hname =>
      h.withFs (FileSystem.named_createDirectory h.tree hname)
  | create path =>
    rw [Session.execute]
    split
    · next finalPath hok =>
      exact h.atTarget h (normalized_nonspace hok (hr path rfl)) fun _ _ hname =>
        h.withFs (FileSystem.named_createFile h.tree hname)
    · exact h
  | write path text =>
    exact h.atTarget h (hr path rfl) fun _ _ hname =>
      h.withFs (FileSystem.named_writeFile h.tree hname)
  | delete path =>
    exact h.atTarget h (hr path rfl) fun _ _ _ =>
      h.withFs (FileSystem.named_deleteNode h.tree)
  | edit path =>
    rw [Session.execute]
    split
    · next finalPath hok => exact h.openEditor (normalized_nonspace hok (hr path rfl))
    · exact h
  | gitClone url =>
    -- a name that comes from no command line
    have hgit : Ordinary "git".toList := ⟨by decide, by decide, by decide, by decide⟩
    exact h.withFs (FileSystem.named_createDirectory h.tree hgit)
  | atari => exact h
  | app => exact h
  | other => exact h

end Session

namespace Shell
open Kernel Lib

theorem Verb.path_mem {args : List Str} {verb : Verb} {path : Str}
    (h : (verb.request args).path? = some path) : path ∈ args ∨ path = "..".toList := by
  unfold Verb.request at h
  cases verb with
  | enter | folder | create | delete | edit =>
    cases args with
    | nil => simp [Request.path?] at h
    | cons first rest =>
      obtain rfl := Option.some.inj h
      exact .inl (List.mem_cons_self ..)
  | cd =>
    cases args with
    -- `cd` alone goes up
    | nil => exact .inr (Option.some.inj h).symm
    | cons first rest =>
      obtain rfl := Option.some.inj h
      exact .inl (List.mem_cons_self ..)
  | write =>
    rcases args with _ | ⟨first, _ | ⟨word, words⟩⟩
    · simp [Request.path?] at h
    · simp [Request.path?] at h
    · obtain rfl := Option.some.inj h
      exact .inl (List.mem_cons_self ..)
  | play =>
    cases args with
    | nil => simp [Request.path?] at h
    | cons game rest =>
      dsimp only at h
      split_ifs at h <;> simp [Request.path?] at h
  | git =>
    rcases args with _ | ⟨subcommand, _ | ⟨url, rest⟩⟩
    · simp [Request.path?] at h
    · simp [Request.path?] at h
    · dsimp only at h
      split_ifs at h <;> simp [Request.path?] at h
  | _ => simp [Request.path?] at h

theorem request_path_nonspace {line path : Str} (h : (request line).path? = some path) :
    ∀ c ∈ path, isWhitespace c = false := by
  have hdots : Token "..".toList := by decide
  unfold request requestOf at h
  dsimp only at h
  split_ifs at h
  · simp [Request.path?] at h
  split at h
  · rcases Verb.path_mem h with hmem | rfl
    · exact (token_of_mem_splitWhitespace (List.mem_of_mem_tail hmem)).2
    · exact hdots.2
  · simp [Request.path?] at h

theorem addressable_press {s : Session} {p : Press} (h : s.Addressable) :
    (s.press p).Addressable := by
  cases s.pressed p with
  | typed hfs hcwd hfilename =>
    refine ⟨hfs ▸ h.tree, hcwd ▸ h.cwd, fun hmode => ?_⟩
    obtain ⟨hmode, hname⟩ := hfilename hmode
    rw [hname]
    exact h.filename hmode
  | saved text hmode hfs hcwd hmode' =>
    have hbuffer : (s.setBuffer text).Addressable := ⟨h.tree, h.cwd, h.filename⟩
    refine ⟨hfs ▸ hbuffer.save hmode, hcwd ▸ h.cwd, fun heditor => ?_⟩
    rw [hmode'] at heditor
    cases heditor
  | executed hkey hmode heq =>
    have hsubmit : s.submit.Addressable := ⟨h.tree, h.cwd, h.filename⟩
    rw [heq]
    exact hsubmit.execute fun path hpath => request_path_nonspace hpath

theorem boot_addressable : (⟨.new, .new⟩ : Session).Addressable := by
  refine ⟨FileSystem.named_new, ?_, ?_⟩ <;> simp [Shell.new]

theorem addressable_of_run {tr : List (Machine × Press)} {m : Held Lock World}
    (h : Run Machine.Step boot tr (.running m)) : m.state.session.Addressable :=
  (Machine.reachable h boot_addressable fun _ _ => addressable_press).2

/-- After any key presses, each child's key is its name, an ordinary one; so each
node is found, from every working directory, by the path that spells its segments, and
this path is one word of a command line. -/
theorem nodes_addressable {tr : List (Machine × Press)} {m : Held Lock World}
    (h : Run Machine.Step boot tr (.running m)) :
    m.state.fs.Named ∧ ∀ segments node, m.state.fs.root.At segments node →
      segments.getLast? = some node.name ∧
      splitWhitespace (absolute segments) = [absolute segments] ∧
      ∀ cwd, resolvePath cwd (absolute segments) = segments ∧
        m.state.fs.root.findNode (resolvePath cwd (absolute segments)) = some node := by
  have htree := (addressable_of_run h).tree
  refine ⟨htree, fun segments node hat => ?_⟩
  have hordinary := hat.ordinary htree
  have htoken : Token (absolute segments) :=
    token_absolute fun n hn => (hordinary n hn).token.2
  refine ⟨hat.getLast_name htree, splitWhitespace_token htoken, fun cwd => ?_⟩
  have hresolve := resolvePath_absolute hat.ne_nil hordinary cwd
  refine ⟨hresolve, ?_⟩
  rw [hresolve]
  exact hat.findNode

theorem nodes_addressable_folder : ∃ m : Held Lock World,
    m.state.fs.paths.entry ["a".toList] = some .dir ∧
    m.state.fs.Named ∧ ∀ segments node, m.state.fs.root.At segments node →
      segments.getLast? = some node.name ∧
      splitWhitespace (absolute segments) = [absolute segments] ∧
      ∀ cwd, resolvePath cwd (absolute segments) = segments ∧
        m.state.fs.root.findNode (resolvePath cwd (absolute segments)) = some node := by
  obtain ⟨m, hm, hdir⟩ : ∃ m, boot.presses (typed "folder a") = .running m ∧
      m.state.fs.paths.entry ["a".toList] = some .dir :=
    Machine.exists_running (by decide +kernel)
  obtain ⟨tr, hrun⟩ := boot.run_presses (typed "folder a")
  rw [hm] at hrun
  exact ⟨m, hdir, nodes_addressable hrun⟩

end Shell

end AliluOS
