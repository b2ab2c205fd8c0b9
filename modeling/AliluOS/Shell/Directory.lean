import AliluOS.Fs.Refinement
import AliluOS.Shell.Locks

/-! The working directory: which commands keep it, and which delete it. -/

namespace AliluOS
open Text Fs Shell

def Proper (segments : List Str) : Prop := ∀ segment ∈ segments, segment ≠ []

theorem proper_resolvePath {cwd : List Str} (hcwd : Proper cwd) (path : Str) :
    Proper (resolvePath cwd path) :=
  forall_resolvePath hcwd fun _ _ hne _ _ => hne

namespace Session

variable {s s' : Session} {path : Str} {op : List Str → Str → Session}

theorem proper_target {parent : List Str} {name : Str} (hproper : Proper s.shell.cwd)
    (h : s.resolve path = parent ++ [name]) : name ≠ [] := by
  have hmem : name ∈ s.resolve path := by simp [h]
  exact proper_resolvePath hproper path name hmem

/-- `cwd` names an existing directory. -/
def CwdExists (s : Session) : Prop := (s.fs.findDirectory s.shell.cwd).isSome

instance (s : Session) : Decidable s.CwdExists := inferInstanceAs (Decidable (_ = true))

theorem cwdExists_iff : s.CwdExists ↔ s.fs.paths.entry s.shell.cwd = some .dir := by
  rw [CwdExists, FileSystem.findDirectory_eq, FileSystem.entry_eq_dir_iff]

structure Keeps (s s' : Session) : Prop where
  cwd : s'.shell.cwd = s.shell.cwd
  dir : ∀ q, s.fs.paths.entry q = some .dir → s'.fs.paths.entry q = some .dir

theorem Keeps.refl (s : Session) : s.Keeps s := ⟨rfl, fun _ => id⟩

theorem Keeps.cwdExists (h : s.Keeps s') (hs : s.CwdExists) : s'.CwdExists := by
  rw [cwdExists_iff] at hs ⊢
  rw [h.cwd]
  exact h.dir _ hs

theorem keeps_fs {pre : Prop} {after : List Str → Option (Lib.Entry Str)}
    {r : Except Str Unit × FileSystem} (h : FileSystem.Refines s.fs pre after r)
    (hafter : pre → ∀ q, s.fs.paths.entry q = some .dir → after q = some .dir) :
    s.Keeps { s with fs := r.2 } := by
  refine ⟨rfl, fun q hq => ?_⟩
  rcases h.cases with ⟨hpre, heq⟩ | ⟨-, heq⟩
  · rw [heq]
    exact hafter hpre q hq
  · rwa [heq]

theorem keeps_createDirectory (parent : List Str) (name : Str) (ticks : Nat) :
    s.Keeps { s with fs := (s.fs.createDirectory parent name ticks).2 } := by
  apply keeps_fs FileSystem.refines_createDirectory
  intro _ q hq
  split_ifs
  · rfl
  · exact hq

theorem keeps_createFile (parent : List Str) (name : Str) (ticks : Nat) :
    s.Keeps { s with fs := (s.fs.createFile parent name ticks).2 } := by
  refine keeps_fs FileSystem.refines_createFile fun ⟨_, hnone⟩ q hq => ?_
  rwa [if_neg]
  rintro rfl
  simp [hnone] at hq

theorem keeps_writeFile (parent : List Str) (name content : Str) :
    s.Keeps { s with fs := (s.fs.writeFile parent name content).2 } := by
  refine keeps_fs FileSystem.refines_writeFile fun ⟨_, hdir⟩ q hq => ?_
  rwa [if_neg]
  rintro rfl
  exact hdir hq

theorem keeps_atTarget (h : ∀ parent name, s.Keeps (op parent name)) :
    s.Keeps (s.atTarget path op) := by
  rcases s.atTarget_cases path op with heq | ⟨parent, name, -, heq⟩ <;> rw [heq]
  · exact .refl s
  · exact h parent name

theorem keeps_openEditor (finalPath : Str) (ticks : Nat) :
    s.Keeps (s.openEditor finalPath ticks) := by
  apply keeps_atTarget
  intro parent name
  have hopen : s.Keeps { s with fs := (openFile s.fs parent name ticks).2 } := by
    unfold openFile
    dsimp only
    split_ifs
    · exact .refl s
    · exact keeps_createFile parent name ticks
  exact ⟨rfl, hopen.dir⟩

theorem keeps_save : s.Keeps s.save := keeps_atTarget fun _ _ => keeps_writeFile _ _ _

theorem keeps_execute {ticks : Nat} {r : Request} (hgo : ∀ path, r ≠ .goTo path) (hback : r ≠ .back)
    (hdelete : ∀ path, r ≠ .delete path) : s.Keeps (s.execute ticks r) := by
  cases r with
  | goTo path => exact absurd rfl (hgo path)
  | back => exact absurd rfl hback
  | delete path => exact absurd rfl (hdelete path)
  | folder path => exact keeps_atTarget fun _ _ => keeps_createDirectory _ _ _
  | create path =>
    rw [execute]
    split
    · exact keeps_atTarget fun _ _ => keeps_createFile _ _ _
    · exact .refl s
  | write path text => exact keeps_atTarget fun _ _ => keeps_writeFile _ _ _
  | edit path =>
    rw [execute]
    split
    · exact keeps_openEditor _ _
    · exact .refl s
  | gitClone url => exact keeps_createDirectory _ _ _
  | atari => exact .refl s
  | app => exact .refl s
  | other => exact .refl s

theorem cwdExists_delete {ticks : Nat} (hs : s.CwdExists) (hproper : Proper s.shell.cwd) :
    (s.execute ticks (.delete path)).CwdExists ↔
      ¬ (s.resolve path ≠ [] ∧ s.resolve path <+: s.shell.cwd) := by
  rw [execute]
  rcases List.eq_nil_or_concat (s.resolve path) with hroot | ⟨parent, name, htarget⟩
  · rw [atTarget_root hroot]
    exact iff_of_true hs fun h => h.1 hroot
  rw [List.concat_eq_append] at htarget
  rw [atTarget_eq htarget (proper_target hproper htarget), htarget, cwdExists_iff]
  rw [cwdExists_iff] at hs
  have hrefines : s.fs.Refines _ _ (s.fs.deleteNode parent name) := FileSystem.refines_deleteNode
  rcases hrefines.cases with ⟨-, hafter⟩ | ⟨hpre, hsame⟩
  · simp [hafter, hs]
  · rw [hsame]
    apply iff_of_true hs
    rintro ⟨-, hprefix⟩
    refine hpre ⟨.inr ?_, ?_⟩
    · exact s.fs.paths.dir_of_prefix ((List.prefix_append _ _).trans hprefix) hs
    · simp [s.fs.paths.dir_of_prefix hprefix hs]

theorem cwdExists_execute {ticks : Nat} {r : Request} (hs : s.CwdExists)
    (hproper : Proper s.shell.cwd) :
    (s.execute ticks r).CwdExists ↔
      ∀ path, r = .delete path → ¬ (s.resolve path ≠ [] ∧ s.resolve path <+: s.shell.cwd) := by
  by_cases hdelete : ∃ path, r = .delete path
  · obtain ⟨path, rfl⟩ := hdelete
    rw [cwdExists_delete hs hproper]
    simp
  · have hkeep : (s.execute ticks r).CwdExists := by
      by_cases hgo : ∃ path, r = .goTo path
      · obtain ⟨path, rfl⟩ := hgo
        rw [execute, goTo]
        split_ifs with hfound
        · exact hfound
        · exact hs
      by_cases hback : r = .back
      · subst hback
        rw [cwdExists_iff] at hs ⊢
        exact s.fs.paths.dir_of_prefix (List.dropLast_prefix _) hs
      · exact (keeps_execute (fun path h => hgo ⟨path, h⟩) hback
          fun path h => hdelete ⟨path, h⟩).cwdExists hs
    exact iff_of_true hkeep fun path h => absurd ⟨path, h⟩ hdelete

theorem proper_execute {ticks : Nat} {r : Request} (hproper : Proper s.shell.cwd) :
    Proper (s.execute ticks r).shell.cwd := by
  by_cases hgo : ∃ path, r = .goTo path
  · obtain ⟨path, rfl⟩ := hgo
    rw [execute, goTo]
    split_ifs
    · exact proper_resolvePath hproper path
    · exact hproper
  by_cases hback : r = .back
  · subst hback
    exact fun segment hmem => hproper segment (List.mem_of_mem_dropLast hmem)
  have hcwd : (s.execute ticks r).shell.cwd = s.shell.cwd := by
    by_cases hdelete : ∃ path, r = .delete path
    · obtain ⟨path, rfl⟩ := hdelete
      rw [execute]
      rcases s.atTarget_cases path _ with h | ⟨parent, name, -, h⟩ <;> rw [h]
    · exact (keeps_execute (fun path h => hgo ⟨path, h⟩) hback fun path h => hdelete ⟨path, h⟩).cwd
  rwa [hcwd]

theorem proper_press {p : Press} (hproper : Proper s.shell.cwd) :
    Proper (s.press p).shell.cwd := by
  cases s.pressed p with
  | typed _ hcwd _ => rwa [hcwd]
  | saved _ _ _ hcwd _ => rwa [hcwd]
  | executed _ _ heq =>
    rw [heq]
    exact proper_execute hproper

end Session

namespace Shell
open Kernel Lib

/-- The key press executes `delete` on the working directory or on a directory above
it, the root apart. -/
def Press.RemovesCwd (p : Press) (s : Session) : Prop :=
  ∃ path, p.Executes s (.delete path) ∧ s.resolve path ≠ [] ∧ s.resolve path <+: s.shell.cwd

theorem cwdExists_press {p : Press} {s : Session} (hs : s.CwdExists)
    (hproper : Proper s.shell.cwd) : (s.press p).CwdExists ↔ ¬ p.RemovesCwd s := by
  by_cases hcommand : p.key = .enter ∧ s.shell.mode = .command
  · obtain ⟨hkey, hmode⟩ := hcommand
    have hsubmit : s.submit.CwdExists := hs
    rw [Session.press_execute hkey hmode, Session.cwdExists_execute hsubmit hproper]
    simp [Press.RemovesCwd, Press.Executes, hkey, hmode, Session.resolve, Session.submit]
  · have hkeep : s.Keeps (s.press p) := by
      cases s.pressed p with
      | typed hfs hcwd _ => exact ⟨hcwd, by simp [hfs]⟩
      | saved text _ hfs hcwd _ =>
        have hsave := Session.keeps_save (s := s.setBuffer text)
        exact ⟨hcwd, by rw [hfs]; exact hsave.dir⟩
      | executed hkey hmode _ => exact absurd ⟨hkey, hmode⟩ hcommand
    apply iff_of_true (hkeep.cwdExists hs)
    rintro ⟨_, hexec, -⟩
    exact hcommand ⟨hexec.1, hexec.2.1⟩

/-- Over every run, the working directory exists exactly when no executed `delete`
takes it away. -/
theorem cwd_exists_iff {tr : List (Machine × Press)} {s : Machine}
    (h : Run Machine.Step boot tr s) :
    Always (·.Holds fun m => m.state.session.CwdExists) tr s ↔
      Guarded (fun s p => s.Holds fun m => ¬ p.RemovesCwd m.state.session) tr := by
  refine Machine.always_iff_guarded (J := fun s => Proper s.shell.cwd) h ⟨?_, ?_⟩
    (fun _ _ => Session.proper_press) (fun _ _ hproper hs => cwdExists_press hs hproper)
    fun _ => id
  · simp [Proper, Shell.new]
  · simp [Session.CwdExists, FileSystem.findDirectory, Shell.new]

instance (p : Press) (s : Session) : Decidable (p.RemovesCwd s) :=
  match hr : request s.shell.buffer with
  | .delete path =>
    decidable_of_iff ((p.key = .enter ∧ s.shell.mode = .command) ∧
      s.resolve path ≠ [] ∧ s.resolve path <+: s.shell.cwd) <| by
        simp [Press.RemovesCwd, Press.Executes, hr, and_assoc]
  | .goTo _ | .back | .folder _ | .create _ | .write _ _ | .edit _ | .gitClone _ | .atari | .app
  | .other => .isFalse <| by simp [Press.RemovesCwd, Press.Executes, hr]

def strayed : List Press :=
  typed "folder a" ++ typed "cd a" ++ typed "folder b" ++ typed "cd b" ++ typed "back" ++
    typed "delete b" ++ typed "cd b"

theorem cwd_exists_strayed : ∃ tr m, Run Machine.Step boot tr (.running m) ∧
    m.state.shell.cwd = ["a".toList] ∧
    Always (·.Holds fun m => m.state.session.CwdExists) tr (.running m) := by
  have hchecked :
      boot.checked (fun m p => !decide (p.RemovesCwd m.state.session)) strayed = true := by
    decide +kernel
  have hcwd : ¬ (boot.presses strayed).Holds fun m => ¬ m.state.shell.cwd = ["a".toList] := by
    decide +kernel
  obtain ⟨tr, hrun, hguard⟩ := Machine.run_checked hchecked
  obtain ⟨m, hm, hcwd⟩ := Machine.exists_running hcwd
  rw [hm] at hrun
  refine ⟨tr, m, hrun, hcwd, (cwd_exists_iff hrun).mpr fun x hx n hn => ?_⟩
  simpa using hguard x hx n hn

def deletedCwd : List Press := typed "folder a" ++ typed "cd a" ++ typed "delete /a"

theorem cwd_deleted : (∃ tr, Run Machine.Step boot tr (boot.presses deletedCwd)) ∧
    ¬ (boot.presses deletedCwd).Holds fun m => m.state.session.CwdExists :=
  ⟨boot.run_presses deletedCwd, by decide +kernel⟩

end Shell

end AliluOS
