import AliluOS.Shell.Refinement

/-! No lock is taken twice by the main thread, except when Breakout is played. -/

namespace AliluOS.Shell
open Text Fs Kernel Lib Thread

/-- `play atari`, with more arguments perhaps, but no request for help. -/
def PlaysAtari (line : Str) : Prop :=
  ∃ rest, splitWhitespace (trim line) = "play".toList :: "atari".toList :: rest ∧
    "--help".toList ∉ rest ∧ "-h".toList ∉ rest

theorem lookup_play {command : Str} :
    verbs.lookup command = some .play ↔ command = "play".toList := by
  constructor
  · intro h
    obtain ⟨l₁, l₂, hverbs, -⟩ := List.lookup_eq_some_iff.mp h
    have hmem : (command, Verb.play) ∈ verbs := by simp [hverbs]
    simpa [verbs] using hmem
  · rintro rfl
    decide

theorem Verb.request_eq_atari {verb : Verb} {args : List Str} :
    verb.request args = .atari ↔ verb = .play ∧ ∃ rest, args = "atari".toList :: rest := by
  constructor
  · intro h
    rcases args with _ | ⟨game, _ | ⟨word, words⟩⟩ <;> cases verb <;>
      simp only [request, reduceCtorEq] at h <;> split_ifs at h with hgame
    all_goals
      rw [hgame]
      exact ⟨rfl, _, rfl⟩
  · rintro ⟨rfl, rest, rfl⟩
    rw [request, if_pos rfl]

theorem wantsHelp_eq_false {command : Str} {args : List Str} :
    wantsHelp command args = false ↔
      command ≠ "help".toList ∧ "--help".toList ∉ args ∧ "-h".toList ∉ args := by
  simp [wantsHelp, and_assoc]

theorem requestOf_eq_atari {command : Str} {args : List Str} :
    requestOf command args = .atari ↔ wantsHelp command args = false ∧
      verbs.lookup command = some .play ∧ ∃ rest, args = "atari".toList :: rest := by
  unfold requestOf
  cases hhelp : wantsHelp command args with
  | true => simp
  | false =>
    rcases verbs.lookup command with _ | verb
    · simp
    · simp [Verb.request_eq_atari]

theorem request_eq_atari {line : Str} : request line = .atari ↔ PlaysAtari line := by
  unfold request PlaysAtari
  rcases splitWhitespace (trim line) with _ | ⟨command, args⟩
  · simp [requestOf_eq_atari]
  · change requestOf command args = .atari ↔ _
    rw [requestOf_eq_atari, lookup_play, wantsHelp_eq_false]
    constructor
    · rintro ⟨⟨-, hlong, hshort⟩, rfl, rest, rfl⟩
      rw [List.mem_cons, not_or] at hlong hshort
      exact ⟨rest, rfl, hlong.2, hshort.2⟩
    · rintro ⟨rest, heq, hlong, hshort⟩
      obtain ⟨rfl, rfl⟩ := List.cons.inj heq
      exact ⟨⟨by decide, by simpa using hlong, by simpa using hshort⟩, rfl, rest, rfl⟩

/-- The key press that starts Breakout and gives it a scancode to begin with. -/
def Press.Hangs (p : Press) (s : Session) : Prop :=
  p.key = .enter ∧ s.shell.mode = .command ∧ PlaysAtari s.shell.buffer ∧
    ∃ poll ∈ p.polls, poll.scancode.isSome

theorem wp_dispatch_atari {command : Str} {args : List Str} {m : Held Lock World}
    (h : requestOf command args = .atari) (hm : m.locks = []) :
    let pressed := ∃ poll ∈ m.state.polls, poll.scancode.isSome
    wp (dispatch command args) m ⟨fun _ _ => False, fun _ => pressed, fun _ => ¬ pressed⟩ := by
  obtain ⟨hhelp, hverb, rest, rfl⟩ := requestOf_eq_atari.mp h
  rw [dispatch, if_neg (Bool.eq_false_iff.mp hhelp), hverb]
  simp only [wp_bind, wp_lock, hm, List.not_mem_nil, if_false, runVerb, play, wp_unlock, if_true]
  exact Apps.wp_startAtari (by simp)

theorem wp_executeCommand_atari {line : Str} {m : Held Lock World} (h : request line = .atari)
    (hm : m.locks = []) :
    let pressed := ∃ poll ∈ m.state.polls, poll.scancode.isSome
    wp (executeCommand line) m ⟨fun _ _ => False, fun _ => pressed, fun _ => ¬ pressed⟩ := by
  have htrim : ¬ (trim line).isEmpty := by
    intro htrim
    rw [request, List.isEmpty_iff.mp htrim] at h
    exact absurd h (by decide)
  rw [executeCommand, if_neg htrim]
  exact wp_dispatch_atari h hm

theorem wp_handleKeyPress_atari {p : Press} {m : Held Lock World} (hm : m.locks = [])
    (hatari : p.Executes m.state.session .atari) :
    let pressed := ∃ poll ∈ p.polls, poll.scancode.isSome
    wp (handleKeyPress p.ctrl p.key) (p.deliver m)
      ⟨fun _ _ => False, fun _ => pressed, fun _ => ¬ pressed⟩ := by
  obtain ⟨hkey, hmode, hrequest⟩ := hatari
  have hmode : m.state.shell.mode = .command := hmode
  intro pressed
  rw [hkey]
  change wp handleEnter (p.deliver m) _
  rw [wp_handleEnter_iff (m := p.deliver m) hm]
  simp only [Press.deliver, enterInMode, hmode, enterInCommand, wp_bind, wp_setShell, wp_unlock]
  exact wp_mono (wp_executeCommand_atari hrequest rfl) (fun _ _ => False.elim) (fun _ => id)
    fun _ => id

theorem handleKeyPress_deadlocks {p : Press} {m : Held Lock World} (hm : m.locks = []) :
    (∃ l, handleKeyPress p.ctrl p.key (p.deliver m) = .error (.deadlock l)) ↔
      p.Hangs m.state.session := by
  by_cases hatari : p.Executes m.state.session .atari
  · have hwp := wp_handleKeyPress_atari hm hatari
    obtain ⟨hkey, hmode, hrequest⟩ := hatari
    rw [deadlock_iff_of_wp (Q := fun _ _ => False)
      (wp_mono hwp (fun _ _ => False.elim) (fun _ => id) fun _ => id)]
    simp [Press.Hangs, hkey, hmode, ← request_eq_atari, hrequest]
  · have hhangs : ¬ p.Hangs m.state.session := fun ⟨hkey, hmode, hline, _⟩ =>
      hatari ⟨hkey, hmode, request_eq_atari.mpr hline⟩
    have hwp := wp_handleKeyPress hm hatari
    rw [deadlock_iff_of_wp (C := False)
      (wp_mono hwp (fun _ _ h => ⟨id, h⟩) (fun _ => id) fun _ _ => id)]
    exact iff_of_false id hhangs

def Unlocked (m : Held Lock World) : Prop := m.locks = []

theorem Machine.Step.returns {m : Held Lock World} {s' : Machine} {p : Press} (hm : Unlocked m)
    (h : Step (.running m) p s') (hatari : ¬ p.Executes m.state.session .atari)
    (happ : ¬ p.Executes m.state.session .app) :
    ∃ m', s' = .running m' ∧ Unlocked m' ∧ m'.state.session = m.state.session.press p := by
  obtain rfl : s' = ofResult (handleKeyPress p.ctrl p.key (p.deliver m)) := h
  obtain ⟨_, m', hok, hlocks, hsession⟩ := exists_of_wp (wp_handleKeyPress hm hatari) happ
  rw [hok]
  exact ⟨m', rfl, hlocks, hsession⟩

theorem Machine.Step.spec {m m' : Held Lock World} {p : Press} (hm : Unlocked m)
    (h : Step (.running m) p (.running m')) :
    Unlocked m' ∧ m'.state.session = m.state.session.press p := by
  have hok : handleKeyPress p.ctrl p.key (p.deliver m) = .ok ((), m') := by
    have h : running m' = ofResult (handleKeyPress p.ctrl p.key (p.deliver m)) := h
    rcases hres : handleKeyPress p.ctrl p.key (p.deliver m) with why | ⟨_, m₁⟩ <;> rw [hres] at h
    · simp [ofResult] at h
    · obtain rfl := Machine.running.inj h
      rfl
  have hatari : ¬ p.Executes m.state.session .atari := fun hatari =>
    ok_of_wp (wp_handleKeyPress_atari hm hatari) hok
  exact ok_of_wp (wp_handleKeyPress hm hatari) hok

theorem Machine.Step.unlocked {s s' : Machine} {p : Press} (hs : s.Holds Unlocked)
    (h : Step s p s') : s'.Holds Unlocked := by
  rintro m' rfl
  cases s with
  | running m => exact (spec (hs m rfl) h).1
  | stopped why => simp [Step, press] at h

theorem boot_unlocked : boot.Holds Unlocked := by simp [boot, Unlocked]

/-- What the key presses that `C` allows keep, as the session has it, holds wherever a run
of them leads. -/
theorem Machine.reachable_guarded {J : Session → Prop} {C : Press → Prop}
    {tr : List (Machine × Press)} {m : Held Lock World} (h : Run Step boot tr (.running m))
    (hC : Guarded (fun _ p => C p) tr) (hboot : J ⟨.new, .new⟩)
    (hkeep : ∀ s p, C p → J s → J (s.press p)) : Unlocked m ∧ J m.state.session := by
  have hinit : boot.Holds fun m => Unlocked m ∧ J m.state.session :=
    holds_running.mpr ⟨rfl, hboot⟩
  refine (h.always_of_guarded (P := (·.Holds fun m => Unlocked m ∧ J m.state.session))
    hinit ?_ hC).1 m rfl
  rintro s p s' hs hp hst m' rfl
  cases s with
  | running m =>
    obtain ⟨hm, hJ⟩ := hs m rfl
    obtain ⟨hm', hsession⟩ := hst.spec hm
    rw [hsession]
    exact ⟨hm', hkeep _ _ hp hJ⟩
  | stopped why => simp [Step, press] at hst

theorem Machine.reachable {J : Session → Prop} {tr : List (Machine × Press)}
    {m : Held Lock World} (h : Run Step boot tr (.running m)) (hboot : J ⟨.new, .new⟩)
    (hkeep : ∀ s p, J s → J (s.press p)) : Unlocked m ∧ J m.state.session :=
  reachable_guarded (C := fun _ => True) h (fun _ _ => trivial) hboot fun s p _ => hkeep s p

theorem Machine.always_iff_guarded {J Q : Session → Prop} {G : Press → Session → Prop}
    {tr : List (Machine × Press)} {s : Machine} (h : Run Step boot tr s)
    (hboot : J ⟨.new, .new⟩ ∧ Q ⟨.new, .new⟩) (hkeep : ∀ s p, J s → J (s.press p))
    (hstep : ∀ s p, J s → Q s → (Q (s.press p) ↔ G p s)) (hsubmit : ∀ s, Q s → Q s.submit) :
    Always (·.Holds fun m => Q m.state.session) tr s ↔
      Guarded (fun s p => s.Holds fun m => G p m.state.session) tr := by
  refine h.always_iff_guarded (I := (·.Holds fun m => Unlocked m ∧ J m.state.session))
    (holds_running.mpr ⟨rfl, hboot.1⟩) (holds_running.mpr hboot.2) ?_ ?_
  · rintro s p s' hs hst m' rfl
    cases s with
    | running m =>
      obtain ⟨hm, hJ⟩ := hs m rfl
      obtain ⟨hm', hsession⟩ := hst.spec hm
      rw [hsession]
      exact ⟨hm', hkeep _ _ hJ⟩
    | stopped why => simp [Step, press] at hst
  · intro s p s' hs hQ hst
    cases s with
    | stopped why =>
      obtain rfl : s' = .stopped why := hst
      exact iff_of_true hQ holds_stopped
    | running m =>
      obtain ⟨hm, hJ⟩ := hs m rfl
      have hQ : Q m.state.session := hQ m rfl
      rw [holds_running, ← hstep _ _ hJ hQ]
      cases s' with
      | running m' => rw [holds_running, (hst.spec hm).2]
      | stopped why =>
        -- only an application fails to return, and it would have changed nothing
        apply iff_of_true holds_stopped
        by_contra hpress
        have hexec : ∀ r, (∀ s ticks, Session.execute s ticks r = s) →
            ¬ p.Executes m.state.session r := by
          rintro r hr ⟨hkey, hmode, rfl⟩
          rw [Session.press_execute hkey hmode, hr] at hpress
          exact hpress (hsubmit _ hQ)
        obtain ⟨m', hrun, -⟩ := hst.returns hm (hexec _ fun _ _ => rfl) (hexec _ fun _ _ => rfl)
        simp at hrun

def Machine.Deadlocked (s : Machine) : Prop := ∃ l, s = .stopped (.deadlock l)

theorem Machine.Step.deadlocked {m : Held Lock World} {s' : Machine} {p : Press} (hm : Unlocked m)
    (h : Step (.running m) p s') : s'.Deadlocked ↔ p.Hangs m.state.session := by
  rw [← handleKeyPress_deadlocks hm]
  obtain rfl : s' = ofResult (handleKeyPress p.ctrl p.key (p.deliver m)) := h
  unfold Deadlocked
  rcases handleKeyPress p.ctrl p.key (p.deliver m) with why | ⟨_, m'⟩ <;> simp [ofResult]

/-- Over every run, no lock is taken twice exactly when no key press hangs in
Breakout. -/
theorem no_deadlock_iff {tr : List (Machine × Press)} {s : Machine}
    (h : Run Machine.Step boot tr s) :
    Always (fun s => ¬ s.Deadlocked) tr s ↔
      Guarded (fun s p => s.Holds fun m => ¬ p.Hangs m.state.session) tr := by
  refine h.always_iff_guarded (I := fun s => s.Holds Unlocked) boot_unlocked
    (by simp [boot, Machine.Deadlocked]) (fun _ _ _ hs hst => hst.unlocked hs) ?_
  intro s p s' hs hP hst
  cases s with
  | running m => rw [hst.deadlocked (hs m rfl), Machine.holds_running]
  | stopped why =>
    obtain rfl : s' = .stopped why := hst
    exact iff_of_true hP Machine.holds_stopped

instance (line : Str) : Decidable (PlaysAtari line) := decidable_of_iff _ request_eq_atari

instance (p : Press) (s : Session) : Decidable (p.Hangs s) :=
  inferInstanceAs (Decidable (_ ∧ _ ∧ _ ∧ _))

def strolled : List Press :=
  typed "folder a" ++ typed "cd a" ++ (typed "draw").dropLast ++
    [⟨.enter, false, 0, [⟨some 0x1E, none⟩, ⟨some 0x01, none⟩]⟩] ++ typed "play atari --help"

theorem no_deadlock_strolled : ∃ tr m, Run Machine.Step boot tr (.running m) ∧
    m.state.shell.cwd = ["a".toList] ∧
    Always (fun s => ¬ s.Deadlocked) tr (.running m) := by
  have hchecked : boot.checked (fun m p => !decide (p.Hangs m.state.session)) strolled = true := by
    decide +kernel
  have hcwd : ¬ (boot.presses strolled).Holds fun m => ¬ m.state.shell.cwd = ["a".toList] := by
    decide +kernel
  obtain ⟨tr, hrun, hguard⟩ := Machine.run_checked hchecked
  obtain ⟨m, hm, hcwd⟩ := Machine.exists_running hcwd
  rw [hm] at hrun
  refine ⟨tr, m, hrun, hcwd, (no_deadlock_iff hrun).mpr fun x hx n hn => ?_⟩
  simpa using hguard x hx n hn

def breakout : List Press :=
  "play atari".toList.map (fun c => (Key.character c).hit) ++
    [⟨.enter, false, 0, [⟨some 0x1E, none⟩]⟩]

instance (s : Machine) : Decidable s.Deadlocked :=
  match s with
  | .running _ => .isFalse (by simp [Machine.Deadlocked])
  | .stopped (.deadlock l) => .isTrue ⟨l, rfl⟩
  | .stopped (.halt _) => .isFalse (by simp [Machine.Deadlocked])

theorem breakout_deadlocks :
    (∃ tr, Run Machine.Step boot tr (boot.presses breakout)) ∧ (boot.presses breakout).Deadlocked :=
  ⟨boot.run_presses breakout, by decide +kernel⟩

end AliluOS.Shell
