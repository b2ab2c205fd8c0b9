import AliluOS.Keyboard.Tracking

/-! The main loop of `kernel.rs` with its keyboard driver. An application polls the
scancodes that the driver would have translated. -/

namespace AliluOS.Shell
open Kernel Lib Thread

def handleKeyEvent (ctrl : Bool) : KeyEvent → KernelM Unit
  | .press key => handleKeyPress ctrl key
  | .release _ => return

def Machine.event (ctrl : Bool) (event : KeyEvent) (ticks : Nat) (polls : List Poll) :
    Machine → Machine
  | running m => ofResult <| handleKeyEvent ctrl event
      { m with state := { m.state with ticks := ticks, polls := polls } }
  | stopped why => stopped why

def Machine.Returned : Machine → Prop
  | running m => m.state.polls = []
  | stopped _ => False

instance : (s : Machine) → Decidable s.Returned
  | .running m => inferInstanceAs (Decidable (m.state.polls = []))
  | .stopped _ => .isFalse id

end AliluOS.Shell

namespace AliluOS
open Kernel Lib Shell

structure System where
  keyboard : Keyboard
  machine : Machine
  held : HeldKeys
  pending : List UInt8

/-- The keyboard sends the scancodes of an event, or the loop of `Kernel::run` translates
one and handles it. -/
inductive Act
  | produce (e : Event)
  | round (ticks : Nat) (polls : List Poll)

def polled (polls : List Poll) : List UInt8 := polls.filterMap Poll.scancode

namespace System

def start : System := ⟨.new, boot, ∅, []⟩

def act (s : System) : Act → Option System
  | .produce e =>
    if s.held.CanSend e then
      some { s with held := s.held.after e, pending := s.pending ++ e.scancodes }
    else none
  | .round ticks polls =>
    match s.pending with
    | [] => none
    | scancode :: codes =>
      let (event, keyboard) := s.keyboard.translate scancode
      let machine := s.machine.event keyboard.ctrl event ticks polls
      if polled polls <+: codes ∧ machine.Returned then
        some ⟨keyboard, machine, s.held, codes.drop (polled polls).length⟩
      else none

end System

def OnePerModifier (keys : Set PhysicalKey) : Prop :=
  ∀ key ∈ keys, ∀ other ∈ keys, ∀ m, key.modifier = some m → other.modifier = some m → other = key

def Act.On (keys : Set PhysicalKey) : Act → Prop
  | .produce (.press key) => key ∈ keys
  | .produce _ | .round _ _ => True

namespace System

def Step (keys : Set PhysicalKey) (s : System) (a : Act) (s' : System) : Prop :=
  a.On keys ∧ s.act a = some s'

/-- All scancodes are consumed, and then the flags of Shift and Ctrl say whether the keys
are held. -/
def Synced (s : System) : Prop :=
  s.pending = [] → ∀ m, m ≠ .alt → (s.keyboard.flag m = true ↔ s.held.Holds m)

def translated (s : System) : Keyboard := s.keyboard.feed (s.pending.take 1)

/-- What an application polls leaves Shift and Ctrl as they were when it was started, and a
code of Shift with no Shift key behind it says what is so already. -/
def Undisturbed (s : System) : Act → Prop
  | .produce (.fakeShift _ released) => s.held.Holds .shift ↔ released = false
  | .produce _ => True
  | .round _ polls =>
    ∀ m, m ≠ .alt → (s.translated.feed (polled polls)).flag m = s.translated.flag m

/-- The keyboard sends no codes of Shift by itself, and an application ends with no
scancode pending. -/
def Prompt (s : System) : Act → Prop
  | .produce (.fakeShift _ _) => False
  | .produce _ => True
  | .round _ polls => polled polls ≠ [] → s.pending.length ≤ (polled polls).length + 1

end System

namespace Keyboard

theorem feed_append (k : Keyboard) (codes more : List UInt8) :
    k.feed (codes ++ more) = (k.feed codes).feed more := List.foldl_append

theorem flag_feed_congr {k k' : Keyboard} {m : Modifier} (codes : List UInt8)
    (h : k.flag m = k'.flag m) : (k.feed codes).flag m = (k'.feed codes).flag m := by
  induction codes generalizing k k' with
  | nil => exact h
  | cons scancode codes ih =>
    have hafter : (k.after scancode).flag m = (k'.after scancode).flag m := by
      rw [flag_after, flag_after, h]
    exact ih hafter

end Keyboard

namespace System

variable {keys : Set PhysicalKey} {s s' : System} {a : Act} {m : Modifier}

theorem act_produce {e : Event} (h : s.act (.produce e) = some s') : s.held.CanSend e ∧
    s' = { s with held := s.held.after e, pending := s.pending ++ e.scancodes } := by
  simp only [act] at h
  split_ifs at h with hcan
  exact ⟨hcan, (Option.some.inj h).symm⟩

theorem act_round {ticks : Nat} {polls : List Poll} (h : s.act (.round ticks polls) = some s') :
    ∃ scancode rest, s.pending = scancode :: (polled polls ++ rest) ∧ s'.pending = rest ∧
      s'.keyboard = s.keyboard.after scancode ∧ s'.held = s.held := by
  simp only [act] at h
  split at h
  · cases h
  · next scancode codes hpending =>
    split_ifs at h with hreturned
    obtain ⟨⟨rest, hcodes⟩, -⟩ := hreturned
    obtain rfl := Option.some.inj h
    refine ⟨scancode, rest, by rw [hpending, hcodes], ?_, rfl, rfl⟩
    simp [← hcodes]

theorem held_subset (hstep : Step keys s a s') (h : ∀ key ∈ s.held, key ∈ keys) :
    ∀ key ∈ s'.held, key ∈ keys := by
  obtain ⟨hon, hact⟩ := hstep
  cases a with
  | produce e =>
    obtain ⟨-, rfl⟩ := act_produce hact
    intro key hkey
    cases e with
    | press new =>
      obtain rfl | hold := Finset.mem_insert.mp hkey
      · exact hon
      · exact h key hold
    | release old => exact h key (Finset.mem_of_mem_erase hkey)
    | autoRepeat _ | fakeShift _ _ | pause => exact h key hkey
  | round ticks polls =>
    obtain ⟨_, _, _, _, _, hheld⟩ := act_round hact
    rwa [hheld]

/-- The flags will say whether the keys are held, once the pending scancodes are
translated. -/
def Current (s : System) : Prop :=
  ∀ m, m ≠ .alt → ((s.keyboard.feed s.pending).flag m = true ↔ s.held.Holds m)

theorem Current.synced (h : s.Current) : s.Synced := by
  intro hpending m hm
  have hflag := h m hm
  rwa [hpending] at hflag

theorem Current.produce {e : Event} (h : s.Current) (hact : s.act (.produce e) = some s') :
    s'.Current ↔ ∀ m, m ≠ .alt → s.held.Harmless m e := by
  obtain ⟨hcan, rfl⟩ := act_produce hact
  apply forall₂_congr
  intro m hm
  dsimp only
  rw [Keyboard.feed_append, Keyboard.flag_feed]
  exact HeldKeys.follows_after (h m hm) hcan

theorem harmless_iff_undisturbed {e : Event} (hone : OnePerModifier keys)
    (hheld : ∀ key ∈ s.held, key ∈ keys) (hcan : s.held.CanSend e) :
    (∀ m, m ≠ .alt → s.held.Harmless m e) ↔ s.Undisturbed (.produce e) := by
  cases e with
  | press _ | autoRepeat _ | pause => exact iff_of_true (fun _ _ => trivial) trivial
  | release key =>
    refine iff_of_true (fun m _ hkey other hother hm => ?_) trivial
    exact hone key (hheld key hcan) other (hheld other hother) m hkey hm
  | fakeShift right released =>
    constructor
    · intro hall
      exact hall .shift (by decide) rfl
    · rintro hshift m - rfl
      exact hshift

theorem translated_eq {scancode : UInt8} {codes : List UInt8}
    (h : s.pending = scancode :: codes) : s.translated = s.keyboard.after scancode := by
  rw [translated, h]
  rfl

theorem feed_pending {scancode : UInt8} {codes rest : List UInt8}
    (h : s.pending = scancode :: (codes ++ rest)) :
    s.keyboard.feed s.pending = (s.translated.feed codes).feed rest := by
  rw [translated_eq h, h, ← Keyboard.feed_append]
  rfl

theorem Current.round {ticks : Nat} {polls : List Poll} (h : s.Current)
    (hact : s.act (.round ticks polls) = some s') (hsafe : s.Undisturbed (.round ticks polls)) :
    s'.Current := by
  obtain ⟨scancode, rest, hpending, hrest, hkeyboard, hheld⟩ := act_round hact
  intro m hm
  have hflag := h m hm
  rw [feed_pending hpending, Keyboard.flag_feed_congr rest (hsafe m hm)] at hflag
  rwa [hkeyboard, hrest, hheld, ← translated_eq hpending]

theorem Current.step (hone : OnePerModifier keys) (hheld : ∀ key ∈ s.held, key ∈ keys)
    (h : s.Current) (hstep : Step keys s a s') (hsafe : s.Undisturbed a) : s'.Current := by
  obtain ⟨-, hact⟩ := hstep
  cases a with
  | produce e =>
    rw [h.produce hact, harmless_iff_undisturbed hone hheld (act_produce hact).1]
    exact hsafe
  | round ticks polls => exact h.round hact hsafe

theorem current_start : start.Current := by
  intro m hm
  cases m <;> simp [start, Keyboard.feed, Keyboard.new, Keyboard.flag, HeldKeys.Holds]

theorem Current.undisturbed (h : s.Current) (hstep : Step keys s a s') (hprompt : s.Prompt a)
    (hsynced : s'.Synced) : s.Undisturbed a := by
  obtain ⟨-, hact⟩ := hstep
  cases a with
  | produce e =>
    cases e with
    | fakeShift _ _ => exact hprompt.elim
    | _ => trivial
  | round ticks polls =>
    obtain ⟨scancode, rest, hpending, hrest, hkeyboard, hheld⟩ := act_round hact
    intro m hm
    -- a round that takes no scancode disturbs nothing
    by_cases hpolled : polled polls = []
    · rw [hpolled]
      rfl
    · have hlength := hprompt hpolled
      simp only [hpending, List.length_cons, List.length_append] at hlength
      obtain rfl : rest = [] := List.eq_nil_of_length_eq_zero (by omega)
      have hbefore := h m hm
      have hafter := hsynced hrest m hm
      rw [feed_pending hpending] at hbefore
      rw [hkeyboard, ← translated_eq hpending, hheld] at hafter
      exact Bool.eq_iff_iff.mpr (hbefore.trans hafter.symm)

/-- The flags of Shift and Ctrl agree with the keys whenever all scancodes are consumed,
if every application leaves both as they were; and only if, where applications leave no
scancode behind. -/
theorem synced_iff_undisturbed (hone : OnePerModifier keys) {tr : List (System × Act)}
    (h : Run (Step keys) start tr s) :
    (Guarded Undisturbed tr → Always Synced tr s) ∧
      (Guarded Prompt tr → Always Synced tr s → Guarded Undisturbed tr) := by
  constructor
  · intro hsafe
    have hcurrent := h.always_of_guarded
      (P := fun s => (∀ key ∈ s.held, key ∈ keys) ∧ s.Current) ⟨by simp [start], current_start⟩
      (fun s a s' hs hsafe hstep =>
        ⟨held_subset hstep hs.1, hs.2.step hone hs.1 hstep hsafe⟩) hsafe
    exact ⟨hcurrent.1.2.synced, fun x hx => (hcurrent.2 x hx).2.synced⟩
  · intro hprompt hsynced
    -- `Current` is rebuilt step by step: pending scancodes hide a disturbed flag from `Synced`
    suffices hboth : Guarded Undisturbed tr ∧ (∀ key ∈ s.held, key ∈ keys) ∧ s.Current from hboth.1
    induction h with
    | nil => exact ⟨guarded_nil _, by simp [start], current_start⟩
    | cons _ hstep ih =>
      obtain ⟨hp, hprompt⟩ := guarded_cons.mp hprompt
      obtain ⟨hlast, hall⟩ := hsynced
      obtain ⟨hs, hall⟩ := List.forall_mem_cons.mp hall
      obtain ⟨hsafe, hheld, hcurrent⟩ := ih hprompt ⟨hs, hall⟩
      have hu := hcurrent.undisturbed hstep hp hlast
      exact ⟨guarded_cons.mpr ⟨hu, hsafe⟩, held_subset hstep hheld,
        hcurrent.step hone hheld hstep hu⟩

def acts (s : System) (as : List Act) : Option System := as.foldlM act s

theorem run_acts {as : List Act} (hon : ∀ a ∈ as, a.On keys) (h : s.acts as = some s') :
    ∃ tr, Run (Step keys) s tr s' := by
  have hstep : ∀ a ∈ as, ∀ s s', act s a = some s' → Step keys s a s' :=
    fun a ha _ _ hact => ⟨hon a ha, hact⟩
  obtain ⟨tr, hrun, -⟩ := Run.exists_of_foldlM hstep h
  exact ⟨tr, hrun⟩

def hits (codes : List (Fin 128)) : List Act :=
  codes.flatMap fun code =>
    [.produce (.press (.plain code)), .round 0 [], .produce (.release (.plain code)), .round 0 []]

def leftKeys : Set PhysicalKey := {key | key.extended = false ∧ key ≠ .rightShift}

theorem onePerModifier_leftKeys : OnePerModifier leftKeys := by
  have hcode : ∀ code other : Fin 128, ∀ m, modifierOf (makeCode code) = some m →
      modifierOf (makeCode other) = some m → code ≠ 0x36 → other ≠ 0x36 → other = code := by
    intro code other m hkey hother
    have hshift : ∀ code, modifierOf (makeCode code) = some .shift →
        code = 0x2A ∨ code = 0x36 := by decide
    have hctrl : ∀ code, modifierOf (makeCode code) = some .ctrl → code = 0x1D := by decide
    have halt : ∀ code, modifierOf (makeCode code) = some .alt → code = 0x38 := by decide
    cases m <;> grind
  rintro ⟨_, code, _⟩ ⟨rfl, hkey⟩ ⟨_, other, _⟩ ⟨rfl, hother⟩ m hm hm'
  have hne : ∀ code : Fin 128, PhysicalKey.plain code ≠ .rightShift → code ≠ 0x36 := by
    rintro code h rfl
    exact h rfl
  exact congrArg PhysicalKey.plain (hcode code other m hm hm' (hne _ hkey) (hne _ hother))

instance (s : System) : (a : Act) → Decidable (s.Undisturbed a)
  | .produce (.fakeShift _ released) =>
    inferInstanceAs (Decidable (s.held.Holds .shift ↔ released = false))
  | .produce (.press _) | .produce (.release _) | .produce (.autoRepeat _) | .produce .pause =>
    .isTrue trivial
  | .round _ polls =>
    decidable_of_iff ((s.translated.feed (polled polls)).flag .shift = s.translated.flag .shift ∧
      (s.translated.feed (polled polls)).flag .ctrl = s.translated.flag .ctrl) <| by
        constructor
        · rintro ⟨hshift, hctrl⟩ m hm
          cases m with
          | shift => exact hshift
          | ctrl => exact hctrl
          | alt => exact absurd rfl hm
        · intro hall
          exact ⟨hall .shift (by decide), hall .ctrl (by decide)⟩

def undisturbedAct (s : System) (a : Act) : Option System :=
  if s.Undisturbed a then s.act a else none

theorem plain_mem_leftKeys {code : Fin 128} (hcode : code ≠ 0x36) :
    PhysicalKey.plain code ∈ leftKeys :=
  ⟨rfl, fun h => hcode (congrArg PhysicalKey.code h)⟩

theorem synced_canvas : ∃ tr s, Run (Step leftKeys) start tr s ∧ s.pending = [] ∧
    s.keyboard.shift = true ∧ Always Synced tr s := by
  let drawn := hits [0x20, 0x13, 0x1E, 0x11] ++
    [.produce (.press (.plain 0x1C)), .produce (.press .leftShift), .produce (.release .leftShift),
      .produce (.press (.plain 0x01)),
      .round 0 [⟨some 0x2A, none⟩, ⟨none, none⟩, ⟨some 0xAA, none⟩, ⟨some 0x01, none⟩],
      .produce (.press .leftShift), .round 0 []]
  have hends : (drawn.foldlM undisturbedAct start).any (fun s =>
      s.pending.isEmpty && s.keyboard.shift) = true := by
    decide +kernel
  obtain ⟨s, hs, hend⟩ := (Option.any_eq_true _ _).mp hends
  have hstep : ∀ a ∈ drawn, ∀ s s', undisturbedAct s a = some s' →
      Step leftKeys s a s' ∧ s.Undisturbed a := by
    intro a ha s s' hact
    unfold undisturbedAct at hact
    split_ifs at hact with hsafe
    refine ⟨⟨?_, hact⟩, hsafe⟩
    revert a
    simp [drawn, hits, Act.On, plain_mem_leftKeys, PhysicalKey.leftShift]
  obtain ⟨tr, hrun, -⟩ := Run.exists_of_foldlM hstep hs
  obtain ⟨hrun, hsafe⟩ := hrun.unrestrict
  rw [Bool.and_eq_true, List.isEmpty_iff] at hend
  exact ⟨tr, s, hrun, hend.1, hend.2,
    (synced_iff_undisturbed onePerModifier_leftKeys hrun).1 hsafe⟩

/-- `draw` is started, Shift goes down, and Escape leaves the canvas: the driver has not
seen the Shift key, which is still held. -/
theorem shift_in_canvas : ¬ ∀ keys, OnePerModifier keys → ∀ (tr : List (System × Act)) s,
    Run (Step keys) start tr s → s.Synced := by
  intro hall
  let drawn := hits [0x20, 0x13, 0x1E, 0x11] ++
    [.produce (.press (.plain 0x1C)), .produce (.press .leftShift),
      .produce (.press (.plain 0x01)), .round 0 [⟨some 0x2A, none⟩, ⟨some 0x01, none⟩]]
  have hends : (start.acts drawn).any (fun s =>
      s.pending.isEmpty && !s.keyboard.shift && decide (s.held.Holds .shift)) = true := by
    decide +kernel
  obtain ⟨s, hs, hend⟩ := (Option.any_eq_true _ _).mp hends
  have hon : ∀ a ∈ drawn, a.On leftKeys := by
    simp [drawn, hits, Act.On, plain_mem_leftKeys, PhysicalKey.leftShift]
  obtain ⟨tr, hrun⟩ := run_acts hon hs
  have hsynced := hall leftKeys onePerModifier_leftKeys tr s hrun
  simp only [Bool.and_eq_true, List.isEmpty_iff, Bool.not_eq_true', decide_eq_true_eq] at hend
  obtain ⟨⟨hpending, hshift⟩, hheld⟩ := hend
  have hflag := (hsynced hpending .shift (by decide)).mpr hheld
  exact absurd hflag (by simp [Keyboard.flag, hshift])

end System

end AliluOS
