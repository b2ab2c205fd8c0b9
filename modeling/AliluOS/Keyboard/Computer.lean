import AliluOS.Interrupts.Irq
import AliluOS.Keyboard.Typist

/-! The way of a scancode from the keyboard to the shell: the data port, the handler of
IRQ 1, the ring behind its lock, and `read_key` in the main loop. Seen from outside, it is
the queue of `System`. -/

namespace AliluOS
open Interrupts Kernel Lib Shell Text

/-- Where the main loop is: before `pop_scancode`, in it, before the test of port 0x64,
before the read of port 0x60, or with the scancode that it translates next. -/
inductive Position
  | popScancode
  | acquired
  | popped (scancode : Option UInt8)
  | outputReady
  | readScancode
  | translate (scancode : UInt8)
deriving DecidableEq

structure Computer where
  keyboard : Keyboard
  machine : Machine
  held : HeldKeys
  sending : List UInt8
  full : Bool
  data : UInt8
  ring : ScancodeBuffer
  locked : Bool
  handler : Handler
  position : Position

/-- What happens next. The interrupt may come at any time, and then the handler runs to its
end before the main loop goes on. -/
inductive Turn
  | produce (e : Event)
  | send
  | irq1
  | handler
  | readKey
  | handleKeyEvent (ticks : Nat) (polls : List Poll)

namespace Computer

def start : Computer :=
  ⟨.new, boot, ∅, [], false, 0, .new, false, .none, .popScancode⟩

def serveIrq1 (s : Computer) : Option Computer :=
  match s.handler with
  | .none => none
  | .locking scancode =>
    -- `compare_exchange` fails as long as the lock is taken
    if s.locked then some s else some { s with locked := true, handler := .acquired scancode }
  | .acquired scancode => some { s with ring := s.ring.push scancode, handler := .pushed }
  | .pushed => some { s with locked := false, handler := .none }

def readKey (s : Computer) : Option Computer :=
  match s.position with
  | .popScancode =>
    if s.locked then some s else some { s with locked := true, position := .acquired }
  | .acquired => some { s with ring := s.ring.pop.2, position := .popped s.ring.pop.1 }
  | .popped (some scancode) => some { s with locked := false, position := .translate scancode }
  | .popped none => some { s with locked := false, position := .outputReady }
  | .outputReady => some { s with position := if s.full then .readScancode else .popScancode }
  | .readScancode => some { s with full := false, position := .translate s.data }
  | .translate _ => none

/-- The polls of `handle_key_event` find no scancode: an application that takes some is not
followed here. -/
def handle (s : Computer) (ticks : Nat) (polls : List Poll) : Option Computer :=
  match s.position with
  | .translate scancode =>
    let (event, keyboard) := s.keyboard.translate scancode
    let machine := s.machine.event keyboard.ctrl event ticks polls
    if polled polls = [] ∧ machine.Returned then
      some { s with keyboard := keyboard, machine := machine, position := .popScancode }
    else none
  | _ => none

def turn (s : Computer) : Turn → Option Computer
  | .produce e =>
    if s.held.CanSend e then
      some { s with held := s.held.after e, sending := s.sending ++ e.scancodes }
    else none
  | .send =>
    match s.sending with
    | [] => none
    | scancode :: rest =>
      if s.full then none else some { s with sending := rest, full := true, data := scancode }
  | .irq1 =>
    if s.handler = .none then some { s with full := false, handler := .locking s.data } else none
  | .handler => s.serveIrq1
  | .readKey => if s.handler = .none then s.readKey else none
  | .handleKeyEvent ticks polls => if s.handler = .none then s.handle ticks polls else none

end Computer

def Interrupts.Handler.Pushes : Handler → Prop
  | .acquired _ => True
  | .none | .locking _ | .pushed => False

def Turn.On (keys : Set PhysicalKey) : Turn → Prop
  | .produce e => (Act.produce e).On keys
  | .send | .irq1 | .handler | .readKey | .handleKeyEvent _ _ => True

namespace Computer

def Step (keys : Set PhysicalKey) (s : Computer) (a : Turn) (s' : Computer) : Prop :=
  a.On keys ∧ s.turn a = some s'

/-- The handler and the fallback do not serve the port against each other, the ring does
not overflow, and a code of Shift with no Shift key behind it says what is so already. -/
def Orderly (s : Computer) : Turn → Prop
  | .produce (.fakeShift _ released) => s.held.Holds .shift ↔ released = false
  | .irq1 => s.full = true
  | .handler => s.handler.Pushes → s.ring.count < 255
  | .readKey => s.position = .readScancode → s.full = true ∧ s.ring.count = 0
  | .produce _ | .send | .handleKeyEvent _ _ => True

end Computer

/-! ## The queue -/

def Position.taken : Position → List UInt8
  | .popped (some scancode) | .translate scancode => [scancode]
  | .popScancode | .acquired | .popped none | .outputReady | .readScancode => []

def Interrupts.Handler.unpushed : Handler → List UInt8
  | .locking scancode | .acquired scancode => [scancode]
  | .none | .pushed => []

namespace Computer

variable {keys : Set PhysicalKey} {s s' : Computer} {a : Turn} {tr : List (Computer × Turn)}

def pending (s : Computer) : List UInt8 :=
  s.position.taken ++ (s.ring.contents ++
    (s.handler.unpushed ++ ((if s.full then [s.data] else []) ++ s.sending)))

def system (s : Computer) : System := ⟨s.keyboard, s.machine, s.held, s.pending⟩

/-- What `System` sees. -/
def shown (_ : Computer) : Turn → Option Act
  | .produce e => some (.produce e)
  | .handleKeyEvent ticks polls => some (.round ticks polls)
  | .send | .irq1 | .handler | .readKey => none

theorem system_produce {e : Event} (h : s.turn (.produce e) = some s') :
    s.system.act (.produce e) = some s'.system := by
  simp only [turn] at h
  split_ifs at h with hcan
  obtain rfl := Option.some.inj h
  refine (if_pos hcan).trans ?_
  simp [system, pending]

theorem system_send (h : s.turn .send = some s') : s'.system = s.system := by
  simp only [turn] at h
  split at h
  · cases h
  · next scancode rest hsending =>
    split_ifs at h with hfull
    obtain rfl := Option.some.inj h
    simp [system, pending, hsending, hfull]

theorem system_irq1 (hfull : s.full = true) (h : s.turn .irq1 = some s') :
    s'.system = s.system := by
  simp only [turn] at h
  split_ifs at h with hnone
  obtain rfl := Option.some.inj h
  simp [system, pending, hnone, hfull, Handler.unpushed]

theorem system_serveIrq1 (hroom : s.handler.Pushes → s.ring.count < 255)
    (h : s.serveIrq1 = some s') : s'.system = s.system := by
  unfold serveIrq1 at h
  cases hhandler : s.handler with
  | none =>
    rw [hhandler] at h
    cases h
  | locking scancode =>
    simp only [hhandler] at h
    split_ifs at h
    · obtain rfl := Option.some.inj h
      rfl
    · obtain rfl := Option.some.inj h
      simp [system, pending, hhandler, Handler.unpushed]
  | acquired scancode =>
    simp only [hhandler] at h
    obtain rfl := Option.some.inj h
    have hpush := s.ring.contents_push scancode
    rw [if_pos (hroom (by rw [hhandler]; trivial))] at hpush
    simp [system, pending, hhandler, Handler.unpushed, hpush]
  | pushed =>
    simp only [hhandler] at h
    obtain rfl := Option.some.inj h
    simp [system, pending, hhandler, Handler.unpushed]

theorem system_readKey (hnone : s.handler = .none)
    (hone : s.position = .readScancode → s.full = true ∧ s.ring.count = 0)
    (h : s.readKey = some s') : s'.system = s.system := by
  unfold readKey at h
  cases hposition : s.position with
  | popScancode =>
    simp only [hposition] at h
    split_ifs at h <;> obtain rfl := Option.some.inj h
    · rfl
    · simp [system, pending, hposition, Position.taken]
  | acquired =>
    simp only [hposition] at h
    obtain rfl := Option.some.inj h
    obtain ⟨hhead, htail⟩ := s.ring.pop_contents
    cases hcontents : s.ring.contents with
    | nil =>
      rw [hcontents] at hhead htail
      simp [system, pending, hposition, Position.taken, hhead, htail, hcontents]
    | cons scancode rest =>
      rw [hcontents] at hhead htail
      simp [system, pending, hposition, Position.taken, hhead, htail, hcontents]
  | popped scancode =>
    cases scancode with
    | none | some scancode =>
      simp only [hposition] at h
      obtain rfl := Option.some.inj h
      simp [system, pending, hposition, Position.taken]
  | outputReady =>
    simp only [hposition] at h
    obtain rfl := Option.some.inj h
    have hbefore : s.position.taken = [] := by
      rw [hposition]
      rfl
    have hafter : (if s.full then Position.readScancode else .popScancode).taken = [] := by
      split_ifs <;> rfl
    simp [system, pending, hbefore, hafter]
  | readScancode =>
    simp only [hposition] at h
    obtain rfl := Option.some.inj h
    obtain ⟨hfull, hcount⟩ := hone hposition
    have hempty : s.ring.contents = [] :=
      List.eq_nil_of_length_eq_zero (s.ring.length_contents.trans hcount)
    simp [system, pending, hposition, Position.taken, hnone, Handler.unpushed, hfull, hempty]
  | translate scancode =>
    rw [hposition] at h
    cases h

theorem system_handle {ticks : Nat} {polls : List Poll} (h : s.handle ticks polls = some s') :
    s.system.act (.round ticks polls) = some s'.system ∧ polled polls = [] := by
  unfold handle at h
  cases hposition : s.position with
  | translate scancode =>
    simp only [hposition] at h
    split_ifs at h with hdone
    obtain ⟨hpolled, hreturned⟩ := hdone
    obtain rfl := Option.some.inj h
    refine ⟨?_, hpolled⟩
    have hpending : s.system.pending = scancode :: (s.ring.contents ++ (s.handler.unpushed ++
        ((if s.full then [s.data] else []) ++ s.sending))) := by
      simp [system, pending, hposition, Position.taken]
    simp only [System.act, hpending, hpolled, List.nil_prefix, true_and]
    exact if_pos hreturned
  | popScancode | acquired | popped _ | outputReady | readScancode =>
    rw [hposition] at h
    cases h

theorem simulation (keys : Set PhysicalKey) :
    Simulation (fun s a s' => Step keys s a s' ∧ Orderly s a)
      (fun t a t' => System.Step keys t a t' ∧ t.Undiverted a) shown fun s t => t = s.system where
  silent := by
    rintro s a s' t rfl ⟨⟨-, hturn⟩, horder⟩ hshown
    cases a with
    | produce e => cases hshown
    | handleKeyEvent ticks polls => cases hshown
    | send => exact (system_send hturn).symm
    | irq1 => exact (system_irq1 horder hturn).symm
    | handler => exact (system_serveIrq1 horder hturn).symm
    | readKey =>
      simp only [turn] at hturn
      split_ifs at hturn with hnone
      exact (system_readKey hnone horder hturn).symm
  visible := by
    rintro s a s' t k rfl ⟨⟨hon, hturn⟩, horder⟩ hshown
    cases a with
    | produce e =>
      obtain rfl := Option.some.inj hshown
      refine ⟨s'.system, ⟨⟨hon, system_produce hturn⟩, ?_⟩, rfl⟩
      cases e <;> exact horder
    | handleKeyEvent ticks polls =>
      obtain rfl := Option.some.inj hshown
      simp only [turn] at hturn
      split_ifs at hturn with hnone
      obtain ⟨hact, hpolled⟩ := system_handle hturn
      exact ⟨s'.system, ⟨⟨trivial, hact⟩, hpolled⟩, rfl⟩
    | send | irq1 | handler | readKey => cases hshown

/-! ## Runs -/

def produced (_ : Computer) : Turn → Option Event
  | .produce e => some e
  | .send | .irq1 | .handler | .readKey | .handleKeyEvent _ _ => none

def handled (s : Computer) : Turn → Option Press
  | .handleKeyEvent ticks polls =>
    match s.position with
    | .translate scancode => (s.keyboard.tap scancode).map fun t => ⟨t.1, t.2, ticks, polls⟩
    | _ => none
  | .produce _ | .send | .irq1 | .handler | .readKey => none

def events (tr : List (Computer × Turn)) : List Event := (showing produced tr).reverse

def presses (tr : List (Computer × Turn)) : List Press := (showing handled tr).reverse

theorem handled_eq (h : s.turn a = some s') : handled s a = (shown s a).bind s.system.handled := by
  cases a with
  | handleKeyEvent ticks polls =>
    simp only [turn] at h
    split_ifs at h
    unfold handle at h
    cases hposition : s.position with
    | translate scancode => simp [handled, shown, System.handled, system, pending, hposition,
        Position.taken]
    | popScancode | acquired | popped _ | outputReady | readScancode =>
      rw [hposition] at h
      cases h
  | produce _ | send | irq1 | handler | readKey => rfl

theorem run_system (hrun : Run (Step keys) start tr s) (horder : Guarded Orderly tr) :
    ∃ tr', Run (System.Step keys) .start tr' s.system ∧ Guarded System.Undiverted tr' ∧
      System.events tr' = events tr ∧ System.presses tr' = presses tr := by
  obtain ⟨tr', t, hrun', rfl, hsame⟩ :=
    (simulation keys).run_showing (rfl : System.start = system start) (hrun.restrict horder)
  obtain ⟨hsystem, hsafe⟩ := hrun'.unrestrict
  refine ⟨tr', hsystem, hsafe, congrArg List.reverse (hsame ?_), congrArg List.reverse (hsame ?_)⟩
  · rintro s t a s' rfl -
    cases a <;> rfl
  · rintro s t a s' rfl ⟨⟨-, hturn⟩, -⟩
    exact handled_eq hturn

/-- However keyboard, port, interrupt handler and main loop take turns, the keys pressed, with
the modifiers held as they went down, are those the shell was told of, followed by those
whose scancodes are on their way; and shell and filesystem are what the former make of
them. -/
theorem keys_reach_shell (hone : OnePerModifier keys) (hrun : Run (Step keys) start tr s)
    (horder : Guarded Orderly tr) :
    ((presses tr).map fun p => (p.key, p.ctrl)) ++ s.keyboard.taps s.pending =
        Desk.start.taps (events tr) ∧ System.Serves (presses tr) s.machine := by
  obtain ⟨tr', hrun', hsafe, hevents, hpresses⟩ := run_system hrun horder
  rw [← hevents, ← hpresses]
  exact System.keys_reach_session hone hrun' hsafe

/-- A text typed with its strokes is what the shell was told, once no scancode is on its
way; and without line breaks it is what stands in the command line. -/
theorem text_reaches_line (hone : OnePerModifier keys) (hrun : Run (Step keys) start tr s)
    (horder : Guarded Orderly tr) {text : Str} (htext : ∀ c ∈ text, OnLayout c)
    (hevents : events tr = text.flatMap strokes) (hpending : s.pending = []) :
    ((presses tr).map fun p => (p.key, p.ctrl)) = text.map (fun c => (.typing c, false)) ∧
      ('\n' ∉ text → ∃ m, s.machine = .running m ∧ m.state.fs = .new ∧
        m.state.shell = { Shell.new with buffer := text }) := by
  obtain ⟨tr', hrun', hsafe, hevents', hpresses⟩ := run_system hrun horder
  rw [← hpresses]
  exact System.text_arrives hone hrun' hsafe htext (hevents'.trans hevents) hpending

/-! ## Typing ahead -/

instance : (h : Handler) → Decidable h.Pushes
  | .acquired _ => .isTrue trivial
  | .none | .locking _ | .pushed => .isFalse id

instance (s : Computer) : (a : Turn) → Decidable (Orderly s a)
  | .produce (.fakeShift _ released) =>
    inferInstanceAs (Decidable (s.held.Holds .shift ↔ released = false))
  | .produce (.press _) | .produce (.release _) | .produce (.autoRepeat _) | .produce .pause
  | .send | .handleKeyEvent _ _ => .isTrue trivial
  | .irq1 => inferInstanceAs (Decidable (s.full = true))
  | .handler => inferInstanceAs (Decidable (s.handler.Pushes → s.ring.count < 255))
  | .readKey =>
    inferInstanceAs (Decidable (s.position = .readScancode → s.full = true ∧ s.ring.count = 0))

def typeAhead (es : List Event) : List Turn :=
  let n := (es.flatMap Event.scancodes).length
  es.map .produce ++
    (List.replicate n [.send, .irq1, .handler, .handler, .handler]).flatten ++
    (List.replicate n [.readKey, .readKey, .readKey, .handleKeyEvent 0 []]).flatten

def orderlyTurn (s : Computer) (a : Turn) : Option Computer :=
  if Orderly s a then s.turn a else none

theorem run_typeAhead {es : List Event} (hon : ∀ e ∈ es, (Act.produce e).On keys)
    (h : (typeAhead es).foldlM orderlyTurn start = some s) :
    ∃ tr, Run (Step keys) start tr s ∧ Guarded Orderly tr ∧ events tr = es := by
  have hstep : ∀ a ∈ typeAhead es, ∀ s s', orderlyTurn s a = some s' →
      Step keys s a s' ∧ Orderly s a := by
    intro a ha s s' hturn
    unfold orderlyTurn at hturn
    split_ifs at hturn with horder
    refine ⟨⟨?_, hturn⟩, horder⟩
    cases a with
    | produce e => exact hon e (by simpa [typeAhead] using ha)
    | send | irq1 | handler | readKey | handleKeyEvent _ _ => trivial
  obtain ⟨tr, hrun, hlabels⟩ := Run.exists_of_foldlM hstep h
  obtain ⟨hrun, horder⟩ := hrun.unrestrict
  refine ⟨tr, hrun, horder, ?_⟩
  have hshowing : events tr = (tr.map Prod.snd).reverse.filterMap (produced start) := by
    rw [List.filterMap_reverse, List.filterMap_map]
    rfl
  have hnone : ∀ (n : Nat) (l : List Turn), l.filterMap (produced start) = [] →
      (List.replicate n l).flatten.filterMap (produced start) = [] := by
    intro n l hl
    induction n with
    | zero => rfl
    | succ n ih => rw [List.replicate_succ, List.flatten_cons, List.filterMap_append, hl, ih]; rfl
  rw [hshowing, hlabels, List.reverse_reverse, typeAhead, List.filterMap_append,
    List.filterMap_append, hnone _ _ rfl, hnone _ _ rfl, List.append_nil, List.append_nil,
    List.filterMap_map]
  exact List.filterMap_some

def OnLeft : Event → Bool
  | .press key => !key.extended && key ≠ .rightShift
  | .release _ => true
  | .autoRepeat _ | .fakeShift _ _ | .pause => false

theorem on_leftKeys {e : Event} (h : OnLeft e = true) : (Act.produce e).On System.leftKeys := by
  cases e with
  | press key => simpa [OnLeft, System.leftKeys, Act.On] using h
  | release _ | autoRepeat _ | fakeShift _ _ | pause => trivial

theorem onLeft_strokes {c : Char} (hc : OnLayout c) : ∀ e ∈ strokes c, OnLeft e = true := by
  have htable : ∀ n : Fin 128, OnLayout (Char.ofNat n) →
      ∀ e ∈ strokes (Char.ofNat n), OnLeft e = true := by decide +kernel
  have hlt : c.toNat < 128 := by
    rcases hc with hc | rfl
    · omega
    · decide
  have hstrokes := htable ⟨c.toNat, hlt⟩
  simp only [Char.ofNat_toNat] at hstrokes
  exact hstrokes hc

attribute [local instance] neZero_codes

def overlapping : List Event :=
  [.press .leftShift, .press (.plain 0x1E), .press (.plain 0x30), .release (.plain 0x1E),
    .release .leftShift, .press (.plain 0x2E), .release (.plain 0x30), .release (.plain 0x2E),
    .press (.plain 0x0E), .release (.plain 0x0E), .press (.plain 0x1C), .release (.plain 0x1C)]

theorem run_overlapping : ∃ tr s, Run (Step System.leftKeys) start tr s ∧ Guarded Orderly tr ∧
    events tr = overlapping ∧ s.pending = [] := by
  have hturns : ((typeAhead overlapping).foldlM orderlyTurn start).map pending = some [] := by
    decide +kernel
  obtain ⟨s, hs, hpending⟩ := Option.map_eq_some_iff.mp hturns
  have hleft : ∀ e ∈ overlapping, OnLeft e = true := by decide
  obtain ⟨tr, hrun, horder, hevents⟩ := run_typeAhead (fun e he => on_leftKeys (hleft e he)) hs
  exact ⟨tr, s, hrun, horder, hevents, hpending⟩

theorem keys_reach_shell_overlapping : ∃ (tr : List (Computer × Turn)) (s : Computer),
    (presses tr).map (fun p => (p.key, p.ctrl)) = [(.character 'A', false),
      (.character 'B', false), (.character 'c', false), (.backspace, false), (.enter, false)] ∧
      System.Serves (presses tr) s.machine := by
  obtain ⟨tr, s, hrun, horder, hevents, hpending⟩ := run_overlapping
  obtain ⟨htaps, hserves⟩ := keys_reach_shell System.onePerModifier_leftKeys hrun horder
  rw [hpending, Keyboard.taps, List.append_nil, hevents] at htaps
  refine ⟨tr, s, htaps.trans ?_, hserves⟩
  decide +kernel

theorem run_text (text : Str) (htext : ∀ c ∈ text, OnLayout c)
    (h : ((typeAhead (text.flatMap strokes)).foldlM orderlyTurn start).map pending = some []) :
    ∃ tr s, Run (Step System.leftKeys) start tr s ∧ Guarded Orderly tr ∧
      events tr = text.flatMap strokes ∧ s.pending = [] := by
  obtain ⟨s, hs, hpending⟩ := Option.map_eq_some_iff.mp h
  have hon : ∀ e ∈ text.flatMap strokes, (Act.produce e).On System.leftKeys := by
    intro e he
    obtain ⟨c, hc, he⟩ := List.mem_flatMap.mp he
    exact on_leftKeys (onLeft_strokes (htext c hc) e he)
  obtain ⟨tr, hrun, horder, hevents⟩ := run_typeAhead hon hs
  exact ⟨tr, s, hrun, horder, hevents, hpending⟩

theorem text_reaches_line_words :
    ∃ m : Held Lock World, m.state.shell = { Shell.new with buffer := "ls My dir".toList } := by
  obtain ⟨tr, s, hrun, horder, hevents, hpending⟩ :=
    run_text "ls My dir".toList (by decide) (by decide +kernel)
  obtain ⟨-, hline⟩ :=
    text_reaches_line System.onePerModifier_leftKeys hrun horder (by decide) hevents hpending
  obtain ⟨m, -, -, hshell⟩ := hline (by decide)
  exact ⟨m, hshell⟩

end Computer

end AliluOS
