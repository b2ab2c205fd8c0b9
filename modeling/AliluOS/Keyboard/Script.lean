import AliluOS.Keyboard.Computer
import AliluOS.Shell.Workspace

/-! What is typed decides what is kept. The state of the shell and all paths of the
filesystem are a function of the keys pressed, and for lines of commands that do not open
the editor they are what the commands make one after the other. -/

namespace AliluOS
open Kernel Lib Shell Text Fs Thread

namespace Workspace

variable {w : Workspace}

def run (w : Workspace) (script : List Str) : Workspace :=
  script.foldl (fun w line => w.execute (request line)) w

/-- At the prompt, with nothing typed. -/
structure AtPrompt (w : Workspace) : Prop where
  mode : w.shell.mode = .command
  buffer : w.shell.buffer = []

theorem atPrompt_start : start.AtPrompt := ⟨rfl, rfl⟩

theorem AtPrompt.atTarget (h : w.AtPrompt) {path : Str} {op : List Str → Str → Workspace}
    (hop : ∀ parent name, (op parent name).AtPrompt) : (w.atTarget path op).AtPrompt := by
  unfold Workspace.atTarget
  dsimp only
  split_ifs
  · exact h
  · exact hop _ _

theorem AtPrompt.execute (h : w.AtPrompt) {r : Request} (hr : ∀ path, r ≠ .edit path) :
    (w.execute r).AtPrompt := by
  cases r with
  | goTo path =>
    dsimp only [Workspace.execute, Workspace.goTo]
    split_ifs
    · exact ⟨h.mode, h.buffer⟩
    · exact h
  | back => exact ⟨h.mode, h.buffer⟩
  | folder path | write path text | delete path =>
    dsimp only [Workspace.execute]
    refine h.atTarget fun parent name => ?_
    exact ⟨h.mode, h.buffer⟩
  | create path =>
    dsimp only [Workspace.execute]
    cases normalizeAndValidateFilename path with
    | ok finalPath =>
      refine h.atTarget fun parent name => ?_
      exact ⟨h.mode, h.buffer⟩
    | error e => exact h
  | edit path => exact absurd rfl (hr path)
  | gitClone url => exact ⟨h.mode, h.buffer⟩
  | atari | app | other => exact h

theorem press_typing {c : Char} (hc : c ≠ '\n') : w.press (.typing c, false) = w.type c := by
  rcases eq_or_ne c ' ' with rfl | hspace
  · rfl
  · rw [Key.typing, if_neg hspace, if_neg hc]
    rfl

theorem presses_line {line : Str} (hline : '\n' ∉ line) (hmode : w.shell.mode = .command) :
    (line.map fun c => (Key.typing c, false)).foldl press w =
      { w with shell := { w.shell with buffer := w.shell.buffer ++ line } } := by
  induction line generalizing w with
  | nil =>
    rw [List.append_nil]
    rfl
  | cons c line ih =>
    rw [List.mem_cons, not_or] at hline
    have hrest := ih (w := { w with shell := { w.shell with buffer := w.shell.buffer ++ [c] } })
      hline.2 hmode
    rw [List.append_assoc] at hrest
    rw [List.map_cons, List.foldl_cons, press_typing (Ne.symm hline.1), type, hmode]
    exact hrest

theorem presses_command (h : w.AtPrompt) {line : Str} (hline : '\n' ∉ line) :
    ((line ++ ['\n']).map fun c => (Key.typing c, false)).foldl press w =
      w.execute (request line) := by
  have hcleared : { w with shell := { w.shell with buffer := [] } } = w := by
    rw [← h.buffer]
  rw [List.map_append, List.foldl_append, presses_line hline h.mode, h.buffer, List.nil_append]
  change enter _ = _
  rw [enter, h.mode]
  exact congrArg (execute · _) hcleared

theorem presses_script (h : w.AtPrompt) {script : List Str}
    (hscript : ∀ line ∈ script, '\n' ∉ line ∧ ∀ path, request line ≠ .edit path) :
    ((script.flatMap fun line => line ++ ['\n']).map fun c => (Key.typing c, false)).foldl press w =
      w.run script := by
  induction script generalizing w with
  | nil => rfl
  | cons line script ih =>
    obtain ⟨⟨hline, hedit⟩, hscript⟩ := List.forall_mem_cons.mp hscript
    rw [List.flatMap_cons, List.map_append, List.foldl_append, presses_command h hline,
      ih (h.execute hedit) hscript]
    rfl

end Workspace

namespace System

variable {keys : Set PhysicalKey} {s : System} {tr : List (System × Act)}

theorem typed_keys_decide (hone : OnePerModifier keys) (hrun : Run (Step keys) start tr s)
    (hsafe : Guarded Undiverted tr) (hpending : s.pending = []) :
    ∃ m, s.machine = .running m ∧
      m.state.session.workspace = (Desk.start.taps (events tr)).foldl Workspace.press .start := by
  have htaps := (run_follows hone hrun hsafe).taps
  rw [waiting, hpending, Keyboard.taps, List.append_nil] at htaps
  obtain ⟨m, hm, -, hsession⟩ := run_serves hrun
  refine ⟨m, hm, ?_⟩
  rw [hsession, Session.workspace_presses, htaps]
  rfl

/-- A script typed line by line leaves what its commands leave, run one after the other. -/
theorem script_runs (hone : OnePerModifier keys) (hrun : Run (Step keys) start tr s)
    (hsafe : Guarded Undiverted tr) (hpending : s.pending = []) {script : List Str}
    (hscript : ∀ line ∈ script, ('\n' ∉ line ∧ ∀ c ∈ line, OnLayout c) ∧
      ∀ path, request line ≠ .edit path)
    (hevents : events tr = (script.flatMap fun line => line ++ ['\n']).flatMap strokes) :
    ∃ m, s.machine = .running m ∧ m.state.session.workspace = Workspace.start.run script := by
  obtain ⟨m, hm, hworkspace⟩ := typed_keys_decide hone hrun hsafe hpending
  have htext : ∀ c ∈ script.flatMap fun line => line ++ ['\n'], OnLayout c := by
    intro c hc
    obtain ⟨line, hline, hc⟩ := List.mem_flatMap.mp hc
    rcases List.mem_append.mp hc with hc | hc
    · exact (hscript line hline).1.2 c hc
    · exact .inr (List.mem_singleton.mp hc)
  refine ⟨m, hm, ?_⟩
  rw [hworkspace, hevents, strokes_text htext]
  exact Workspace.presses_script Workspace.atPrompt_start fun line hline =>
    ⟨(hscript line hline).1.1, (hscript line hline).2⟩

end System

namespace Computer

variable {keys : Set PhysicalKey} {s : Computer} {tr : List (Computer × Turn)}

/-- However keyboard, port, interrupt handler and main loop take turns, and whenever the timer
ticks: once no scancode is on its way, the shell and the paths of the filesystem are what
the keys make of them. -/
theorem keys_decide_workspace (hone : OnePerModifier keys) (hrun : Run (Step keys) start tr s)
    (horder : Guarded Orderly tr) (hpending : s.pending = []) :
    ∃ m, s.machine = .running m ∧
      m.state.session.workspace = (Desk.start.taps (events tr)).foldl Workspace.press .start := by
  obtain ⟨tr', hrun', hsafe, hevents, -⟩ := run_system hrun horder
  rw [← hevents]
  exact System.typed_keys_decide hone hrun' hsafe hpending

theorem keys_decide_workspace_overlapping : ∃ m : Held Lock World,
    m.state.shell.buffer = [] ∧ m.state.shell.mode = .command := by
  obtain ⟨tr, s, hrun, horder, hevents, hpending⟩ := run_overlapping
  obtain ⟨m, -, hworkspace⟩ :=
    keys_decide_workspace System.onePerModifier_leftKeys hrun horder hpending
  rw [hevents] at hworkspace
  have hends : ((Desk.start.taps overlapping).foldl Workspace.press .start).shell.buffer = [] ∧
      ((Desk.start.taps overlapping).foldl Workspace.press .start).shell.mode = .command := by
    decide +kernel
  rw [← hworkspace] at hends
  exact ⟨m, hends⟩

/-- A script typed line by line leaves what its commands leave, run one after the other. -/
theorem script_leaves (hone : OnePerModifier keys) (hrun : Run (Step keys) start tr s)
    (horder : Guarded Orderly tr) (hpending : s.pending = []) {script : List Str}
    (hscript : ∀ line ∈ script, ('\n' ∉ line ∧ ∀ c ∈ line, OnLayout c) ∧
      ∀ path, request line ≠ .edit path)
    (hevents : events tr = (script.flatMap fun line => line ++ ['\n']).flatMap strokes) :
    ∃ m, s.machine = .running m ∧ m.state.session.workspace = Workspace.start.run script := by
  obtain ⟨tr', hrun', hsafe, hevents', -⟩ := run_system hrun horder
  exact System.script_runs hone hrun' hsafe hpending hscript (hevents'.trans hevents)

theorem script_leaves_folder : ∃ m : Held Lock World,
    m.state.fs.paths.entry ["b".toList] = some .dir ∧
      m.state.fs.paths.entry ["b".toList, "c.txt".toList] = some (.file []) := by
  obtain ⟨tr, s, hrun, horder, hevents, hpending⟩ :=
    run_text "folder b\ncreate b/c\n".toList (by decide +kernel) (by decide +kernel)
  have hrequests : ["folder b".toList, "create b/c".toList].map request =
      [.folder "b".toList, .create "b/c".toList] := by decide +kernel
  have hlines : ∀ line ∈ ["folder b".toList, "create b/c".toList],
      '\n' ∉ line ∧ ∀ c ∈ line, OnLayout c := by decide +kernel
  have hscript : ∀ line ∈ ["folder b".toList, "create b/c".toList],
      ('\n' ∉ line ∧ ∀ c ∈ line, OnLayout c) ∧ ∀ path, request line ≠ .edit path := by
    intro line hline
    refine ⟨hlines line hline, fun path hedit => ?_⟩
    have hmem := List.mem_map_of_mem (f := request) hline
    rw [hrequests, hedit] at hmem
    simp at hmem
  obtain ⟨m, -, hworkspace⟩ :=
    script_leaves System.onePerModifier_leftKeys hrun horder hpending hscript hevents
  have hentries : (Workspace.start.run ["folder b".toList, "create b/c".toList]).paths.entry
      ["b".toList] = some .dir ∧
      (Workspace.start.run ["folder b".toList, "create b/c".toList]).paths.entry
        ["b".toList, "c.txt".toList] = some (.file []) := by
    decide +kernel
  rw [← hworkspace] at hentries
  exact ⟨m, hentries⟩

end Computer

end AliluOS
