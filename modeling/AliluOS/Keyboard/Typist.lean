import AliluOS.Keyboard.Kernel
import AliluOS.Lib.Simulation
import AliluOS.Shell.Locks

/-! From the keys to the shell. The keyboard sends scancodes while earlier ones still wait
to be translated, and what the shell makes of them is what the keys mean with the
modifiers held when they went down. -/

namespace AliluOS
open Fs Kernel Lib Shell Text

abbrev Tap := Key × Bool

def Shell.Key.acts : Key → Bool
  | .character _ | .space | .enter | .backspace | .escape => true
  | _ => false

def KeyEvent.tap (ctrl : Bool) : KeyEvent → Option Tap
  | .press key => if key.acts then some (key, ctrl) else none
  | .release _ => none

/-! ## What scancodes tell the shell -/

namespace Keyboard

def tap (k : Keyboard) (scancode : UInt8) : Option Tap :=
  (k.translate scancode).1.tap (k.after scancode).ctrl

def taps (k : Keyboard) : List UInt8 → List Tap
  | [] => []
  | scancode :: codes => (k.tap scancode).toList ++ (k.after scancode).taps codes

def plainTap (k : Keyboard) (code : UInt8) : Option Tap :=
  if (k.plainKey code).acts then some (k.plainKey code, k.ctrl) else none

theorem taps_append (k : Keyboard) (codes more : List UInt8) :
    k.taps (codes ++ more) = k.taps codes ++ (k.feed codes).taps more := by
  induction codes generalizing k with
  | nil => rfl
  | cons scancode codes ih => simp [taps, feed, ih]

theorem taps_singleton (k : Keyboard) (scancode : UInt8) :
    k.taps [scancode] = (k.tap scancode).toList := List.append_nil _

theorem plainKey_congr {k k' : Keyboard} (hshift : k.shift = k'.shift)
    (hcaps : k.capsLock = k'.capsLock) (code : UInt8) : k.plainKey code = k'.plainKey code := by
  simp only [plainKey, letter, hshift, hcaps]

theorem plainTap_congr {k k' : Keyboard} (hshift : k.shift = k'.shift)
    (hcaps : k.capsLock = k'.capsLock) (hctrl : k.ctrl = k'.ctrl) (code : UInt8) :
    k.plainTap code = k'.plainTap code := by
  rw [plainTap, plainTap, plainKey_congr hshift hcaps, hctrl]

theorem translate_plain (k : Keyboard) {code : Fin 128}
    (hcode : makeCode code ∉ [0x2A, 0x36, 0x1D, 0x38, 0x3A]) :
    k.translate (makeCode code) = (.press (k.plainKey (makeCode code)), k) := by
  obtain ⟨hlow, hhigh⟩ := makeCode_masks code
  simp only [List.mem_cons, List.not_mem_nil, or_false, not_or] at hcode
  obtain ⟨hleft, hright, hctrl, halt, hcaps⟩ := hcode
  simp [translate, hlow, hhigh, hleft, hright, hctrl, halt, hcaps]

theorem tap_make (k : Keyboard) (code : Fin 128) :
    k.tap (makeCode code) = (k.after (makeCode code)).plainTap (makeCode code) := by
  by_cases hcode : makeCode code ∈ [0x2A, 0x36, 0x1D, 0x38, 0x3A]
  · simp only [List.mem_cons, List.not_mem_nil, or_false] at hcode
    rcases hcode with hcode | hcode | hcode | hcode | hcode <;> rw [hcode] <;> rfl
  · simp only [tap, after, k.translate_plain hcode]
    rfl

theorem tap_break (k : Keyboard) (code : Fin 128) : k.tap (breakCode code) = none := by
  obtain ⟨-, hhigh⟩ := breakCode_masks code
  simp [tap, translate, hhigh, KeyEvent.tap]

theorem tap_prefix (k : Keyboard) : k.tap 0xE0 = none := k.tap_break 0x60

theorem taps_prefixed (k : Keyboard) (key : PhysicalKey) (scancode : UInt8) :
    k.taps (key.prefixed scancode) = (k.tap scancode).toList := by
  unfold PhysicalKey.prefixed
  split_ifs
  · simp [taps, tap_prefix, after_prefix]
  · exact k.taps_singleton scancode

theorem taps_event (k : Keyboard) (e : Event) :
    k.taps e.scancodes = match e with
      | .press key | .autoRepeat key =>
        ((k.feed e.scancodes).plainTap (makeCode key.code)).toList
      | .release _ | .fakeShift _ _ | .pause => [] := by
  cases e with
  | press key | autoRepeat key =>
    simp only [Event.scancodes, PhysicalKey.makeCodes, taps_prefixed, feed_prefixed, tap_make]
  | release key =>
    simp only [Event.scancodes, PhysicalKey.breakCodes, taps_prefixed, tap_break,
      Option.toList_none]
  | fakeShift right released => cases right <;> cases released <;> rfl
  | pause => rfl

end Keyboard

/-! ## What the keys mean -/

structure Desk where
  held : HeldKeys
  capsPresses : Nat
deriving DecidableEq

namespace Desk

def start : Desk := ⟨∅, 0⟩

def after (d : Desk) (e : Event) : Desk where
  held := d.held.after e
  capsPresses := if e = .press .caps then d.capsPresses + 1 else d.capsPresses

def driver (d : Desk) : Keyboard :=
  { Keyboard.new with
    shift := decide (d.held.Holds .shift)
    ctrl := decide (d.held.Holds .ctrl)
    capsLock := decide (d.capsPresses % 2 = 1) }

/-- What an event means to the shell: a key that goes down, or repeats, has the meaning
that the modifiers give it then. -/
def tap (d : Desk) (e : Event) : Option Tap :=
  match e with
  | .press key | .autoRepeat key => (d.after e).driver.plainTap (makeCode key.code)
  | .release _ | .fakeShift _ _ | .pause => none

def taps (d : Desk) : List Event → List Tap
  | [] => []
  | e :: es => (d.tap e).toList ++ (d.after e).taps es

theorem taps_append (d : Desk) (es es' : List Event) :
    d.taps (es ++ es') = d.taps es ++ (es.foldl after d).taps es' := by
  induction es generalizing d with
  | nil => rfl
  | cons e es ih => simp [taps, ih]

theorem taps_concat (d : Desk) (es : List Event) (e : Event) :
    d.taps (es ++ [e]) = d.taps es ++ ((es.foldl after d).tap e).toList := by
  rw [taps_append, taps, taps, List.append_nil]

structure Matches (d : Desk) (k : Keyboard) : Prop where
  shift : k.shift = true ↔ d.held.Holds .shift
  ctrl : k.ctrl = true ↔ d.held.Holds .ctrl
  capsLock : k.capsLock = true ↔ d.capsPresses % 2 = 1

theorem Matches.plainTap {d : Desk} {k : Keyboard} (h : d.Matches k) (code : UInt8) :
    k.plainTap code = d.driver.plainTap code :=
  Keyboard.plainTap_congr (Bool.eq_iff_iff.mpr (by simpa [driver] using h.shift))
    (Bool.eq_iff_iff.mpr (by simpa [driver] using h.capsLock))
    (Bool.eq_iff_iff.mpr (by simpa [driver] using h.ctrl)) code

theorem Matches.taps {d : Desk} {k : Keyboard} {e : Event}
    (h : (d.after e).Matches (k.feed e.scancodes)) : k.taps e.scancodes = (d.tap e).toList := by
  rw [Keyboard.taps_event]
  cases e with
  | press key | autoRepeat key => exact congrArg Option.toList (h.plainTap _)
  | release _ | fakeShift _ _ | pause => rfl

end Desk

/-! ## Runs -/

namespace System

variable {keys : Set PhysicalKey} {s s' : System} {a : Act} {tr : List (System × Act)}

def produced (_ : System) : Act → Option Event
  | .produce e => some e
  | .round _ _ => none

def handled (s : System) : Act → Option Press
  | .produce _ => none
  | .round ticks polls =>
    match s.pending with
    | [] => none
    | scancode :: _ => (s.keyboard.tap scancode).map fun t => ⟨t.1, t.2, ticks, polls⟩

def events (tr : List (System × Act)) : List Event := (showing produced tr).reverse

def presses (tr : List (System × Act)) : List Press := (showing handled tr).reverse

@[simp] theorem events_cons :
    events ((s, a) :: tr) = events tr ++ (produced s a).toList := by
  cases h : produced s a <;> simp [events, h]

@[simp] theorem presses_cons :
    presses ((s, a) :: tr) = presses tr ++ (handled s a).toList := by
  cases h : handled s a <;> simp [presses, h]

def waiting (s : System) : List Tap := s.keyboard.taps s.pending

/-- No application takes scancodes, and a code of Shift with no Shift key behind it says
what is so already. -/
def Undiverted (s : System) : Act → Prop
  | .produce (.fakeShift _ released) => s.held.Holds .shift ↔ released = false
  | .produce _ => True
  | .round _ polls => polled polls = []

theorem Undiverted.undisturbed (h : s.Undiverted a) : s.Undisturbed a := by
  cases a with
  | produce e => cases e <;> exact h
  | round ticks polls =>
    intro m _
    rw [show polled polls = [] from h]
    rfl

/-- The shell has been told the taps of the keys so far, but for those that wait. -/
structure Follows (keys : Set PhysicalKey) (d : Desk) (told meant : List Tap) (s : System) :
    Prop where
  held : s.held = d.held
  subset : ∀ key ∈ s.held, key ∈ keys
  current : s.Current
  debounced : Typing.Debounced ⟨s.keyboard.feed s.pending, s.held, d.capsPresses⟩
  taps : told ++ s.waiting = meant

theorem Follows.produce {d : Desk} {told meant : List Tap} {e : Event}
    (hone : OnePerModifier keys) (h : Follows keys d told meant s)
    (hstep : Step keys s (.produce e) s') (hsafe : s.Undiverted (.produce e)) :
    Follows keys (d.after e) told (meant ++ (d.tap e).toList) s' := by
  obtain ⟨held, capsPresses⟩ := d
  obtain rfl : s.held = held := h.held
  have hcurrent := h.current.step hone h.subset hstep hsafe.undisturbed
  have hsubset := held_subset hstep h.subset
  obtain ⟨hcan, rfl⟩ := act_produce hstep.2
  have hdebounced := h.debounced.step (e := e) ⟨hcan, rfl⟩
  have hfeed : s.keyboard.feed (s.pending ++ e.scancodes) =
      (s.keyboard.feed s.pending).feed e.scancodes := Keyboard.feed_append ..
  refine ⟨rfl, hsubset, hcurrent, ?_, ?_⟩
  · rw [hfeed]
    exact hdebounced
  · have hmatches : (Desk.after ⟨s.held, capsPresses⟩ e).Matches
        ((s.keyboard.feed s.pending).feed e.scancodes) := by
      refine ⟨?_, ?_, hdebounced.parity⟩ <;> rw [← hfeed]
      · exact hcurrent .shift (by decide)
      · exact hcurrent .ctrl (by decide)
    rw [waiting, Keyboard.taps_append, hmatches.taps, ← List.append_assoc]
    exact congrArg (· ++ _) h.taps

theorem Follows.round {d : Desk} {told meant : List Tap} {ticks : Nat} {polls : List Poll}
    (hone : OnePerModifier keys) (h : Follows keys d told meant s)
    (hstep : Step keys s (.round ticks polls) s') (hsafe : s.Undiverted (.round ticks polls)) :
    Follows keys d (told ++ ((s.handled (.round ticks polls)).map
      fun p => (p.key, p.ctrl)).toList) meant s' := by
  have hcurrent := h.current.step hone h.subset hstep hsafe.undisturbed
  have hsubset := held_subset hstep h.subset
  obtain ⟨scancode, rest, hpending, hrest, hkeyboard, hheld⟩ := act_round hstep.2
  rw [show polled polls = [] from hsafe, List.nil_append] at hpending
  have hfeed : s'.keyboard.feed s'.pending = s.keyboard.feed s.pending := by
    rw [hkeyboard, hrest, hpending]
    rfl
  refine ⟨hheld.trans h.held, hsubset, hcurrent, ?_, ?_⟩
  · rw [hfeed, hheld]
    exact h.debounced
  · have htaps := h.taps
    rw [waiting, hpending, Keyboard.taps, ← List.append_assoc] at htaps
    have hhandled : (s.handled (.round ticks polls)).map (fun p => (p.key, p.ctrl)) =
        s.keyboard.tap scancode := by
      simp [handled, hpending, Function.comp_def]
    rw [waiting, hkeyboard, hrest, hhandled]
    exact htaps

theorem follows_start : Follows keys .start [] [] start where
  held := rfl
  subset := by simp [start]
  current := current_start
  debounced := Typing.debounced_start
  taps := rfl

theorem run_follows (hone : OnePerModifier keys) (hrun : Run (Step keys) start tr s)
    (hsafe : Guarded Undiverted tr) :
    Follows keys ((events tr).foldl Desk.after .start)
      ((presses tr).map fun p => (p.key, p.ctrl)) (Desk.start.taps (events tr)) s := by
  induction hrun with
  | nil => exact follows_start
  | @cons tr s s' a _ hstep ih =>
    obtain ⟨ha, htr⟩ := guarded_cons.mp hsafe
    cases a with
    | produce e =>
      have hnext := (ih htr).produce hone hstep ha
      simpa [produced, handled, Desk.taps_concat] using hnext
    | round ticks polls =>
      have hnext := (ih htr).round hone hstep ha
      cases hp : s.handled (.round ticks polls) <;> simpa [produced, hp] using hnext

/-! ## The shell -/

def Serves (ps : List Press) (machine : Machine) : Prop :=
  ∃ m, machine = .running m ∧ Unlocked m ∧
    m.state.session = ps.foldl Session.press ⟨.new, .new⟩

theorem press_ignored {p : Press} (h : p.key.acts = false) (s : Session) : s.press p = s := by
  obtain ⟨key, ctrl, ticks, polls⟩ := p
  cases key <;> first | rfl | cases h

theorem Serves.event {ps : List Press} {machine : Machine} (h : Serves ps machine) {ctrl : Bool}
    {e : KeyEvent} {ticks : Nat} {polls : List Poll}
    (hreturned : (machine.event ctrl e ticks polls).Returned) :
    Serves (ps ++ ((e.tap ctrl).map fun t => Press.mk t.1 t.2 ticks polls).toList)
      (machine.event ctrl e ticks polls) := by
  obtain ⟨m, rfl, hlocks, hsession⟩ := h
  cases e with
  | release key => exact ⟨_, rfl, hlocks, hsession.trans (by simp [KeyEvent.tap])⟩
  | press key =>
    cases hnext : (Machine.running m).event ctrl (.press key) ticks polls with
    | stopped why =>
      rw [hnext] at hreturned
      exact hreturned.elim
    | running m' =>
      have hstep : Machine.Step (.running m) ⟨key, ctrl, ticks, polls⟩ (.running m') := hnext.symm
      obtain ⟨hlocks', hsession'⟩ := hstep.spec hlocks
      refine ⟨m', rfl, hlocks', ?_⟩
      rw [hsession', hsession, KeyEvent.tap]
      cases hacts : key.acts with
      | true => simp
      | false => simp [press_ignored (p := ⟨key, ctrl, ticks, polls⟩) hacts]

theorem Serves.step {ps : List Press} (h : Serves ps s.machine) (hact : s.act a = some s') :
    Serves (ps ++ (s.handled a).toList) s'.machine := by
  cases a with
  | produce e =>
    obtain ⟨-, rfl⟩ := act_produce hact
    simpa [handled] using h
  | round ticks polls =>
    simp only [act] at hact
    split at hact
    · cases hact
    · next scancode codes hpending =>
      split_ifs at hact with hreturned
      obtain rfl := Option.some.inj hact
      have hnext := h.event hreturned.2
      simp only [handled, hpending]
      exact hnext

theorem run_serves (hrun : Run (Step keys) start tr s) : Serves (presses tr) s.machine := by
  induction hrun with
  | nil => exact ⟨_, rfl, rfl, rfl⟩
  | cons _ hstep ih =>
    rw [presses_cons]
    exact ih.step hstep.2

theorem keys_reach_session (hone : OnePerModifier keys) (hrun : Run (Step keys) start tr s)
    (hsafe : Guarded Undiverted tr) :
    ((presses tr).map fun p => (p.key, p.ctrl)) ++ s.waiting = Desk.start.taps (events tr) ∧
      Serves (presses tr) s.machine :=
  ⟨(run_follows hone hrun hsafe).taps, run_serves hrun⟩

end System

/-! ## Text -/

def layout : List (Char × Bool × UInt8) :=
  (' ', false, 0x39) :: ('\n', false, 0x1C) ::
    Keyboard.symbols.flatMap (fun e => [(e.2.1, false, e.1), (e.2.2, true, e.1)]) ++
    Keyboard.letters.flatMap fun e => [(e.2, false, e.1), (e.2.toUpper, true, e.1)]

theorem neZero_codes : NeZero 128 := ⟨Nat.succ_ne_zero 127⟩

attribute [local instance] neZero_codes

def strokes (c : Char) : List Event :=
  match layout.lookup c with
  | some (shifted, code) =>
    let key := PhysicalKey.plain (Fin.ofNat 128 code.toNat)
    if shifted then [.press .leftShift, .press key, .release key, .release .leftShift]
    else [.press key, .release key]
  | none => []

def Shell.Key.typing (c : Char) : Key :=
  if c = ' ' then .space else if c = '\n' then .enter else .character c

def OnLayout (c : Char) : Prop := 32 ≤ c.toNat ∧ c.toNat ≤ 126 ∨ c = '\n'

instance (c : Char) : Decidable (OnLayout c) := inferInstanceAs (Decidable (_ ∨ _))

theorem strokes_table : ∀ n : Fin 128, OnLayout (Char.ofNat n) →
    Desk.start.taps (strokes (Char.ofNat n)) = [(.typing (Char.ofNat n), false)] ∧
      (strokes (Char.ofNat n)).foldl Desk.after .start = .start := by
  decide +kernel

theorem strokes_mean {c : Char} (hc : OnLayout c) :
    Desk.start.taps (strokes c) = [(.typing c, false)] ∧
      (strokes c).foldl Desk.after .start = .start := by
  have hlt : c.toNat < 128 := by
    rcases hc with hc | rfl
    · omega
    · decide
  have htable := strokes_table ⟨c.toNat, hlt⟩
  simp only [Char.ofNat_toNat] at htable
  exact htable hc

theorem strokes_text {text : Str} (htext : ∀ c ∈ text, OnLayout c) :
    Desk.start.taps (text.flatMap strokes) = text.map fun c => (.typing c, false) := by
  induction text with
  | nil => rfl
  | cons c text ih =>
    obtain ⟨hc, htext⟩ := List.forall_mem_cons.mp htext
    obtain ⟨htaps, hrest⟩ := strokes_mean hc
    rw [List.flatMap_cons, Desk.taps_append, htaps, hrest, ih htext]
    rfl

theorem Session.type_text (line text : Str) (fs : FileSystem) :
    text.foldl Session.type ⟨{ Shell.new with buffer := line }, fs⟩ =
      ⟨{ Shell.new with buffer := line ++ text }, fs⟩ := by
  induction text generalizing line with
  | nil => rw [List.append_nil, List.foldl_nil]
  | cons c text ih =>
    rw [List.foldl_cons, List.append_cons]
    exact ih (line ++ [c])

theorem Session.press_typing {p : Press} {c : Char} (hkey : p.key = .typing c)
    (hctrl : p.ctrl = false) (hc : c ≠ '\n') (s : Session) : s.press p = s.type c := by
  rcases eq_or_ne c ' ' with rfl | hspace
  · simp [press, hkey, Key.typing]
  · simp [press, hkey, hctrl, Key.typing, hspace, hc]

theorem Session.presses_text {text : Str} {ps : List Press} (s : Session)
    (hps : ps.map (fun p => (p.key, p.ctrl)) = text.map fun c => (.typing c, false))
    (htext : '\n' ∉ text) : ps.foldl Session.press s = text.foldl Session.type s := by
  induction ps generalizing s text with
  | nil =>
    obtain rfl : text = [] := by simpa using hps.symm
    rfl
  | cons p ps ih =>
    obtain _ | ⟨c, text⟩ := text
    · simp at hps
    · simp only [List.map_cons, List.cons.injEq, Prod.mk.injEq] at hps
      obtain ⟨⟨hkey, hctrl⟩, hps⟩ := hps
      rw [List.mem_cons, not_or] at htext
      rw [List.foldl_cons, List.foldl_cons, press_typing hkey hctrl (Ne.symm htext.1),
        ih _ hps htext.2]

namespace System

variable {keys : Set PhysicalKey} {s : System} {tr : List (System × Act)} {text : Str}

/-- A text typed with its strokes, however the main loop's rounds fall between them, is the
text that the shell was told, once no scancode waits; and without line breaks it is
what stands in the command line. -/
theorem text_arrives (hone : OnePerModifier keys) (hrun : Run (Step keys) start tr s)
    (hsafe : Guarded Undiverted tr) (htext : ∀ c ∈ text, OnLayout c)
    (hevents : events tr = text.flatMap strokes) (hpending : s.pending = []) :
    ((presses tr).map fun p => (p.key, p.ctrl)) = text.map (fun c => (.typing c, false)) ∧
      ('\n' ∉ text → ∃ m, s.machine = .running m ∧ m.state.fs = .new ∧
        m.state.shell = { Shell.new with buffer := text }) := by
  have htaps := (run_follows hone hrun hsafe).taps
  rw [waiting, hpending, Keyboard.taps, List.append_nil, hevents, strokes_text htext] at htaps
  refine ⟨htaps, fun hline => ?_⟩
  obtain ⟨m, hm, -, hsession⟩ := run_serves hrun
  rw [Session.presses_text _ htaps hline] at hsession
  replace hsession := hsession.trans (Session.type_text [] text .new)
  exact ⟨m, hm, congrArg Session.fs hsession, congrArg Session.shell hsession⟩

end System

end AliluOS
