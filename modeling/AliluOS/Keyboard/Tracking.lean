import AliluOS.Keyboard.Translate
import AliluOS.Lib.Run
import Mathlib.Data.Finset.Basic

/-! The physical keyboard, and whether the driver's modifier flags follow it. -/

namespace AliluOS
open Lib

/-! ## Keys and their scancodes -/

/-- A key by its Set 1 code. Three codes stand for no key after the prefix 0xE0: the
keyboard itself sends 0x2A and 0x36 there (`Event.fakeShift`), and nothing sends 0x3A. -/
structure PhysicalKey where
  extended : Bool
  code : Fin 128
  real : extended = true → code ≠ 0x2A ∧ code ≠ 0x36 ∧ code ≠ 0x3A
deriving DecidableEq

def makeCode (code : Fin 128) : UInt8 := UInt8.ofNat code

def breakCode (code : Fin 128) : UInt8 := UInt8.ofNat (code + 0x80)

namespace PhysicalKey

def prefixed (key : PhysicalKey) (scancode : UInt8) : List UInt8 :=
  if key.extended then [0xE0, scancode] else [scancode]

def makeCodes (key : PhysicalKey) : List UInt8 := key.prefixed (makeCode key.code)

def breakCodes (key : PhysicalKey) : List UInt8 := key.prefixed (breakCode key.code)

def modifier (key : PhysicalKey) : Option Modifier := modifierOf (makeCode key.code)

def plain (code : Fin 128) : PhysicalKey := ⟨false, code, by simp⟩

def caps : PhysicalKey := plain 0x3A

def leftShift : PhysicalKey := plain 0x2A

def rightShift : PhysicalKey := plain 0x36

end PhysicalKey

/-! ## Typing -/

/-- What the keyboard sends. It puts the codes of a Shift key around some keys by
itself, with the prefix. Pause has no break codes; with Ctrl held it sends a key of
its own instead. -/
inductive Event
  | press (key : PhysicalKey)
  | autoRepeat (key : PhysicalKey)
  | release (key : PhysicalKey)
  | fakeShift (right released : Bool)
  | pause
deriving DecidableEq

def Keyboard.feed (k : Keyboard) (scancodes : List UInt8) : Keyboard :=
  scancodes.foldl Keyboard.after k

def Event.scancodes : Event → List UInt8
  | .press key | .autoRepeat key => key.makeCodes
  | .release key => key.breakCodes
  | .fakeShift right released =>
    let code : Fin 128 := if right then 0x36 else 0x2A
    [0xE0, if released then breakCode code else makeCode code]
  | .pause => [0xE1, 0x1D, 0x45, 0xE1, 0x9D, 0xC5]

abbrev HeldKeys := Finset PhysicalKey

namespace HeldKeys

def Holds (held : HeldKeys) (m : Modifier) : Prop := ∃ key ∈ held, key.modifier = some m

instance (held : HeldKeys) (m : Modifier) : Decidable (held.Holds m) :=
  inferInstanceAs (Decidable (∃ _ ∈ _, _))

/-- Only a key that is up goes down, and only one that is down repeats or goes up. -/
def CanSend (held : HeldKeys) : Event → Prop
  | .press key => key ∉ held
  | .autoRepeat key | .release key => key ∈ held
  | .fakeShift _ _ => True
  | .pause => ¬ held.Holds .ctrl

instance (held : HeldKeys) : (e : Event) → Decidable (held.CanSend e)
  | .press key => inferInstanceAs (Decidable (key ∉ held))
  | .autoRepeat key | .release key => inferInstanceAs (Decidable (key ∈ held))
  | .fakeShift _ _ => inferInstanceAs (Decidable True)
  | .pause => inferInstanceAs (Decidable (¬ held.Holds .ctrl))

def after (held : HeldKeys) : Event → HeldKeys
  | .press key => insert key held
  | .release key => held.erase key
  | .autoRepeat _ | .fakeShift _ _ | .pause => held

/-- A key of the kind that goes up is the only one of its kind that is held, and the codes
of Shift that no Shift key has sent say what is so already. -/
def Harmless (held : HeldKeys) (m : Modifier) : Event → Prop
  | .release key =>
    key.modifier = some m → ∀ other ∈ held, other.modifier = some m → other = key
  | .fakeShift _ released => m = .shift → (held.Holds .shift ↔ released = false)
  | .press _ | .autoRepeat _ | .pause => True

end HeldKeys

structure Typing where
  keyboard : Keyboard
  held : HeldKeys
  capsPresses : Nat

namespace Typing

def start : Typing := ⟨.new, ∅, 0⟩

def send (s : Typing) (e : Event) : Typing where
  keyboard := s.keyboard.feed e.scancodes
  held := s.held.after e
  capsPresses := if e = .press .caps then s.capsPresses + 1 else s.capsPresses

def Step (s : Typing) (e : Event) (s' : Typing) : Prop := s.held.CanSend e ∧ s' = s.send e

structure Tracks (s : Typing) : Prop where
  flag : ∀ m, s.keyboard.flag m = true ↔ s.held.Holds m
  capsLock : s.keyboard.capsLock = true ↔ s.capsPresses % 2 = 1

end Typing

/-! ## The bytes of an event -/

theorem makeCode_masks : ∀ code : Fin 128,
    makeCode code &&& 0x7F = makeCode code ∧ makeCode code &&& 0x80 = 0 := by
  decide

theorem breakCode_masks : ∀ code : Fin 128,
    breakCode code &&& 0x7F = makeCode code ∧ breakCode code &&& 0x80 ≠ 0 := by
  decide

theorem makeCode_eq_caps : ∀ code : Fin 128, makeCode code = 0x3A ↔ code = 0x3A := by
  decide

theorem modifierOf_makeCode_shift (right : Bool) :
    modifierOf (makeCode (if right then 0x36 else 0x2A)) = some .shift := by
  cases right <;> rfl

theorem PhysicalKey.makeCode_eq_caps_iff (key : PhysicalKey) :
    makeCode key.code = 0x3A ↔ key = .caps := by
  rw [makeCode_eq_caps]
  constructor
  · intro hcode
    obtain ⟨extended, code, real⟩ := key
    cases extended with
    | false => exact congrArg plain hcode
    | true => exact absurd hcode (real rfl).2.2
  · rintro rfl
    rfl

namespace Keyboard

theorem after_prefix (k : Keyboard) : k.after 0xE0 = k := by
  have hcode : (0xE0 : UInt8) &&& 0x7F = 0x60 := by decide
  simp [after, translate, hcode]

theorem feed_prefixed (k : Keyboard) (key : PhysicalKey) (scancode : UInt8) :
    k.feed (key.prefixed scancode) = k.after scancode := by
  unfold feed PhysicalKey.prefixed
  split
  · simp only [List.foldl_cons, List.foldl_nil, after_prefix]
  · rfl

theorem flag_make (k : Keyboard) (m : Modifier) (code : Fin 128) :
    (k.after (makeCode code)).flag m =
      if modifierOf (makeCode code) = some m then true else k.flag m := by
  obtain ⟨hlow, hhigh⟩ := makeCode_masks code
  simp only [flag_after, hlow, hhigh, decide_true]

theorem flag_break (k : Keyboard) (m : Modifier) (code : Fin 128) :
    (k.after (breakCode code)).flag m =
      if modifierOf (makeCode code) = some m then false else k.flag m := by
  obtain ⟨hlow, hhigh⟩ := breakCode_masks code
  simp only [flag_after, hlow, hhigh, decide_false]

theorem capsLock_make (k : Keyboard) (key : PhysicalKey) :
    (k.after (makeCode key.code)).capsLock =
        (if key = .caps ∧ k.capsLockPressed = false then !k.capsLock else k.capsLock) ∧
      (k.after (makeCode key.code)).capsLockPressed =
        if key = .caps then true else k.capsLockPressed := by
  obtain ⟨hlow, hhigh⟩ := makeCode_masks key.code
  simp only [capsLock_after, capsLockPressed_after, hlow, hhigh, key.makeCode_eq_caps_iff,
    true_and, decide_true, and_self]

theorem capsLock_break (k : Keyboard) (key : PhysicalKey) :
    (k.after (breakCode key.code)).capsLock = k.capsLock ∧
      (k.after (breakCode key.code)).capsLockPressed =
        if key = .caps then false else k.capsLockPressed := by
  obtain ⟨hlow, hhigh⟩ := breakCode_masks key.code
  simp only [capsLock_after, capsLockPressed_after, hlow, hhigh, key.makeCode_eq_caps_iff,
    false_and, and_false, decide_false, if_false, and_self]

end Keyboard

def Event.sets (m : Modifier) : Event → Option Bool
  | .press key | .autoRepeat key => if key.modifier = some m then some true else none
  | .release key => if key.modifier = some m then some false else none
  | .fakeShift _ released => if m = .shift then some (!released) else none
  | .pause => if m = .ctrl then some false else none

namespace Keyboard

theorem flag_fakeShift (k : Keyboard) (m : Modifier) (right released : Bool) :
    (k.feed (Event.fakeShift right released).scancodes).flag m =
      ((Event.fakeShift right released).sets m).getD (k.flag m) := by
  have hcode := modifierOf_makeCode_shift right
  simp only [Event.scancodes, Event.sets, feed, List.foldl_cons, List.foldl_nil, after_prefix]
  cases released with
  | false =>
    simp only [if_false, flag_make, hcode, Option.some.injEq, eq_comm, Bool.false_eq_true]
    split_ifs <;> rfl
  | true =>
    simp only [if_true, flag_break, hcode, Option.some.injEq, eq_comm]
    split_ifs <;> rfl

theorem flag_feed (k : Keyboard) (e : Event) (m : Modifier) :
    (k.feed e.scancodes).flag m = (e.sets m).getD (k.flag m) := by
  cases e with
  | press key | autoRepeat key =>
    simp only [Event.scancodes, PhysicalKey.makeCodes, feed_prefixed, flag_make, Event.sets,
      PhysicalKey.modifier]
    by_cases hkey : modifierOf (makeCode key.code) = some m <;> simp [hkey]
  | release key =>
    simp only [Event.scancodes, PhysicalKey.breakCodes, feed_prefixed, flag_break, Event.sets,
      PhysicalKey.modifier]
    by_cases hkey : modifierOf (makeCode key.code) = some m <;> simp [hkey]
  | fakeShift right released => exact k.flag_fakeShift m right released
  | pause => cases m <;> rfl

end Keyboard

namespace Typing

variable {s s' : Typing} {e : Event} {m : Modifier}

/-! ## CapsLock -/

/-- The driver knows whether the CapsLock key is held, so it counts each press once. -/
structure Debounced (s : Typing) : Prop where
  pressed : s.keyboard.capsLockPressed = true ↔ .caps ∈ s.held
  parity : s.keyboard.capsLock = true ↔ s.capsPresses % 2 = 1

theorem debounced_start : start.Debounced := ⟨by decide, by decide⟩

theorem Debounced.press {key : PhysicalKey} (h : s.Debounced) (hup : key ∉ s.held) :
    (s.send (.press key)).Debounced := by
  obtain ⟨hlock, hpressed⟩ := s.keyboard.capsLock_make key
  have hfeed : (s.send (.press key)).keyboard = s.keyboard.after (makeCode key.code) :=
    s.keyboard.feed_prefixed key _
  constructor
  · rw [hfeed, hpressed]
    by_cases hcaps : key = .caps
    · simp [hcaps, send, HeldKeys.after]
    · simp [hcaps, send, HeldKeys.after, h.pressed, Ne.symm hcaps]
  · rw [hfeed, hlock]
    by_cases hcaps : key = .caps
    · have hfree : s.keyboard.capsLockPressed = false := by
        rw [← Bool.not_eq_true, h.pressed, ← hcaps]
        exact hup
      have hparity := h.parity
      simp only [hcaps, hfree, and_self, if_true, send]
      cases hold : s.keyboard.capsLock <;> simp only [hold] at hparity ⊢ <;> grind
    · simp [hcaps, send, h.parity]

theorem Debounced.autoRepeat {key : PhysicalKey} (h : s.Debounced) (hdown : key ∈ s.held) :
    (s.send (.autoRepeat key)).Debounced := by
  obtain ⟨hlock, hpressed⟩ := s.keyboard.capsLock_make key
  have hfeed : (s.send (.autoRepeat key)).keyboard = s.keyboard.after (makeCode key.code) :=
    s.keyboard.feed_prefixed key _
  -- a repeated CapsLock finds the flag that its press has set
  have hset : key = .caps → s.keyboard.capsLockPressed = true := by
    rintro rfl
    exact h.pressed.mpr hdown
  constructor
  · rw [hfeed, hpressed]
    by_cases hcaps : key = .caps
    · simpa [hcaps, send, HeldKeys.after] using hcaps ▸ hdown
    · simp [hcaps, send, HeldKeys.after, h.pressed]
  · rw [hfeed, hlock, if_neg (fun hc => by simp [hset hc.1] at hc)]
    simp [send, h.parity]

theorem Debounced.release {key : PhysicalKey} (h : s.Debounced) :
    (s.send (.release key)).Debounced := by
  obtain ⟨hlock, hpressed⟩ := s.keyboard.capsLock_break key
  have hfeed : (s.send (.release key)).keyboard = s.keyboard.after (breakCode key.code) :=
    s.keyboard.feed_prefixed key _
  constructor
  · rw [hfeed, hpressed]
    by_cases hcaps : key = .caps
    · simp [hcaps, send, HeldKeys.after]
    · simp [hcaps, send, HeldKeys.after, h.pressed, Ne.symm hcaps]
  · rw [hfeed, hlock]
    simp [send, h.parity]

theorem Debounced.step (h : s.Debounced) (hstep : Step s e s') : s'.Debounced := by
  obtain ⟨hcan, rfl⟩ := hstep
  cases e with
  | press key => exact h.press hcan
  | autoRepeat key => exact h.autoRepeat hcan
  | release key => exact h.release
  | fakeShift right released => cases right <;> cases released <;> exact ⟨h.pressed, h.parity⟩
  | pause => exact ⟨h.pressed, h.parity⟩

/-! ## Modifier flags -/

end Typing

namespace HeldKeys

variable {held : HeldKeys} {e : Event} {m : Modifier} {b : Bool}

theorem holds_press {key : PhysicalKey} :
    (held.after (.press key)).Holds m ↔ key.modifier = some m ∨ held.Holds m := by
  simp [Holds, after]

theorem holds_release {key : PhysicalKey} :
    (held.after (.release key)).Holds m ↔
      ∃ other ∈ held, other ≠ key ∧ other.modifier = some m := by
  simp only [Holds, after, Finset.mem_erase]
  exact ⟨fun ⟨o, ⟨hne, hmem⟩, hm⟩ => ⟨o, hmem, hne, hm⟩,
    fun ⟨o, hmem, hne, hm⟩ => ⟨o, ⟨hne, hmem⟩, hm⟩⟩

theorem follows_after (h : b = true ↔ held.Holds m) (hcan : held.CanSend e) :
    ((e.sets m).getD b = true ↔ (held.after e).Holds m) ↔ held.Harmless m e := by
  cases e with
  | press key =>
    refine iff_of_true ?_ trivial
    rw [holds_press, ← h]
    by_cases hkey : key.modifier = some m <;> simp [Event.sets, hkey]
  | autoRepeat key =>
    refine iff_of_true ?_ trivial
    show _ ↔ held.Holds m
    by_cases hkey : key.modifier = some m
    · simpa [Event.sets, hkey] using ⟨key, hcan, hkey⟩
    · simpa [Event.sets, hkey] using h
  | release key =>
    show _ ↔ (key.modifier = some m → ∀ other ∈ held, other.modifier = some m → other = key)
    rw [holds_release]
    by_cases hkey : key.modifier = some m
    · simp only [Event.sets, hkey]
      grind
    · simp only [Event.sets, hkey]
      grind [Holds]
  | fakeShift right released =>
    show _ ↔ (m = .shift → (held.Holds .shift ↔ released = false))
    have hheld : (held.after (.fakeShift right released)).Holds m ↔ held.Holds m := Iff.rfl
    rw [hheld]
    by_cases hm : m = .shift
    · subst hm
      simp only [Event.sets, if_true, Option.getD_some, Bool.not_eq_true', true_implies]
      exact Iff.comm
    · simpa [Event.sets, hm] using h
  -- its six bytes press and release Ctrl, which is free
  | pause =>
    refine iff_of_true ?_ trivial
    show _ ↔ held.Holds m
    by_cases hm : m = .ctrl
    · subst hm
      have hfree : ¬ held.Holds .ctrl := hcan
      simpa [Event.sets] using hfree
    · simpa [Event.sets, hm] using h

end HeldKeys

namespace Typing

variable {s s' : Typing} {e : Event}

theorem tracks_send (hcaps : s.Debounced) (h : s.Tracks) (hstep : Step s e s') :
    s'.Tracks ↔ ∀ m, s.held.Harmless m e := by
  have hnext := hcaps.step hstep
  obtain ⟨hcan, rfl⟩ := hstep
  have hflag : ∀ m, ((s.send e).keyboard.flag m = true ↔ (s.send e).held.Holds m) ↔
      s.held.Harmless m e := by
    intro m
    show ((s.keyboard.feed e.scancodes).flag m = true ↔ _) ↔ _
    rw [Keyboard.flag_feed]
    exact HeldKeys.follows_after (h.flag m) hcan
  constructor
  · intro htracks m
    exact (hflag m).mp (htracks.flag m)
  · intro hharmless
    exact ⟨fun m => (hflag m).mpr (hharmless m), hnext.parity⟩

theorem tracks_start : start.Tracks where
  flag m := by cases m <;> simp [start, Keyboard.new, Keyboard.flag, HeldKeys.Holds]
  capsLock := debounced_start.parity

/-! ## Runs -/

/-- The flags follow the keys throughout a run exactly when no modifier key goes up while
another of its kind is held, and no code of Shift without a Shift key behind it changes
the flag. -/
theorem tracks_iff_harmless {tr : List (Typing × Event)} (h : Run Step start tr s) :
    Always Tracks tr s ↔ Guarded (fun s e => ∀ m, s.held.Harmless m e) tr :=
  h.always_iff_guarded (I := Debounced) debounced_start tracks_start
    (fun _ _ _ hs hstep => hs.step hstep) fun _ _ _ hs htracks hstep => tracks_send hs htracks hstep

theorem tracks_iff_harmless_chord : ∃ tr s, Run Step start tr s ∧ tr.length = 7 ∧
    s.keyboard.flag .ctrl = true ∧ s.keyboard.flag .shift = false ∧ s.keyboard.capsLock = true ∧
    Always Tracks tr s := by
  have hnil : Run Step start [] start := .nil
  have hshift := hnil.cons (i := .press .leftShift) ⟨by decide, rfl⟩
  have hletter := hshift.cons (i := .press (.plain 0x1E)) ⟨by decide, rfl⟩
  have hrepeat := hletter.cons (i := .autoRepeat (.plain 0x1E)) ⟨by decide, rfl⟩
  have hctrl := hrepeat.cons (i := .press (.plain 0x1D)) ⟨by decide, rfl⟩
  have hup := hctrl.cons (i := .release .leftShift) ⟨by decide, rfl⟩
  have hcaps := hup.cons (i := .press .caps) ⟨by decide, rfl⟩
  have hrun := hcaps.cons (i := .release .caps) ⟨by decide, rfl⟩
  refine ⟨_, _, hrun, rfl, by decide, by decide, by decide, (tracks_iff_harmless hrun).mpr ?_⟩
  simp only [guarded_cons, guarded_nil, and_true]
  refine ⟨fun m => ?_, fun _ => trivial, fun m => ?_, fun _ => trivial, fun _ => trivial,
    fun _ => trivial, fun _ => trivial⟩ <;> cases m <;> unfold HeldKeys.Harmless <;> decide

/-- The first of two Shift keys to go up clears the flag. -/
theorem both_shifts :
    ¬ ∀ (tr : List (Typing × Event)) (s : Typing), Run Step start tr s → s.Tracks := by
  intro hall
  have hnil : Run Step start [] start := .nil
  have hleft := hnil.cons (i := .press .leftShift) ⟨by decide, rfl⟩
  have hright := hleft.cons (i := .press .rightShift) ⟨by decide, rfl⟩
  have hup := hright.cons (i := .release .leftShift) ⟨by decide, rfl⟩
  have htracks := (hall _ _ hup).flag .shift
  revert htracks
  decide

end Typing

end AliluOS
