import AliluOS.Shell.Keys

/-! The keyboard driver (`keyboard.rs`): scancodes to key events, and what they do to
the flags of the modifier keys. -/

namespace AliluOS
open Shell

inductive KeyEvent
  | press (key : Key)
  | release (key : Key)
deriving DecidableEq

structure Keyboard where
  shift : Bool
  ctrl : Bool
  alt : Bool
  capsLock : Bool
  capsLockPressed : Bool
  numLock : Bool
  scrollLock : Bool
deriving DecidableEq

namespace Keyboard

def new : Keyboard := ⟨false, false, false, false, false, false, false⟩

def letter (k : Keyboard) (c : Char) : Char := if k.capsLock || k.shift then c.toUpper else c

def symbols : List (UInt8 × Char × Char) :=
  [(0x02, '1', '!'), (0x03, '2', '@'), (0x04, '3', '#'), (0x05, '4', '$'), (0x06, '5', '%'),
    (0x07, '6', '^'), (0x08, '7', '&'), (0x09, '8', '*'), (0x0A, '9', '('), (0x0B, '0', ')'),
    (0x0C, '-', '_'), (0x0D, '=', '+'), (0x1A, '[', '{'), (0x1B, ']', '}'), (0x27, ';', ':'),
    (0x28, '\x27', '\x22'), (0x29, '\x60', '~'), (0x2B, '\\', '|'), (0x33, ',', '<'),
    (0x34, '.', '>'), (0x35, '/', '?')]

def letters : List (UInt8 × Char) :=
  [(0x10, 'q'), (0x11, 'w'), (0x12, 'e'), (0x13, 'r'), (0x14, 't'), (0x15, 'y'), (0x16, 'u'),
    (0x17, 'i'), (0x18, 'o'), (0x19, 'p'), (0x1E, 'a'), (0x1F, 's'), (0x20, 'd'), (0x21, 'f'),
    (0x22, 'g'), (0x23, 'h'), (0x24, 'j'), (0x25, 'k'), (0x26, 'l'), (0x2C, 'z'), (0x2D, 'x'),
    (0x2E, 'c'), (0x2F, 'v'), (0x30, 'b'), (0x31, 'n'), (0x32, 'm')]

def plainKey (k : Keyboard) (code : UInt8) : Key :=
  if code = 0x01 then .escape
  else if code = 0x0E then .backspace
  else if code = 0x0F then .tab
  else if code = 0x1C then .enter
  else if code = 0x39 then .space
  else if 0x3B ≤ code ∧ code ≤ 0x44 then .function (code - 0x3A)
  else if code = 0x57 then .function 11
  else if code = 0x58 then .function 12
  else
    match symbols.lookup code, letters.lookup code with
    | some (plain, shifted), _ => .character (if k.shift then shifted else plain)
    | none, some c => .character (k.letter c)
    | none, none => .unknown

def translate (k : Keyboard) (scancode : UInt8) : KeyEvent × Keyboard :=
  let released := scancode &&& 0x80 ≠ 0
  let code := scancode &&& 0x7F
  let (key, k) : Key × Keyboard :=
    if code = 0x2A ∨ code = 0x36 then (.shift, { k with shift := !released })
    else if code = 0x1D then (.ctrl, { k with ctrl := !released })
    else if code = 0x38 then (.alt, { k with alt := !released })
    else if code = 0x3A then
      (.capsLock,
        if !released then
          if !k.capsLockPressed then { k with capsLock := !k.capsLock, capsLockPressed := true }
          else k
        else { k with capsLockPressed := false })
    else (k.plainKey code, k)
  (if released then .release key else .press key, k)

/-- A character that the driver can produce: ASCII, and no newline. -/
def Typeable (c : Char) : Prop := c.toNat < 128 ∧ c ≠ '\n'

instance (c : Char) : Decidable (Typeable c) := inferInstanceAs (Decidable (_ ∧ _))

theorem typeable_symbols : ∀ e ∈ symbols, Typeable e.2.1 ∧ Typeable e.2.2 := by decide

theorem typeable_letters : ∀ e ∈ letters, Typeable e.2 ∧ Typeable e.2.toUpper := by decide

theorem eq_of_ite_eq {c : Prop} [Decidable c] {a b key : Key} (h : (if c then a else b) = key)
    (ha : a ≠ key) : b = key := by
  split_ifs at h
  · exact absurd h ha
  · exact h

theorem typeable_plainKey {k : Keyboard} {code : UInt8} {c : Char}
    (h : k.plainKey code = .character c) : Typeable c := by
  have mem_of_lookup : ∀ {α : Type} {l : List (UInt8 × α)} {a : α},
      l.lookup code = some a → (code, a) ∈ l := by
    intro α l a ha
    obtain ⟨before, after, rfl, -⟩ := List.lookup_eq_some_iff.mp ha
    simp
  unfold plainKey at h
  -- none of the eight keys of their own is a character
  iterate 8 replace h := eq_of_ite_eq h (by simp)
  rcases hsymbol : symbols.lookup code with _ | ⟨plain, shifted⟩ <;> rw [hsymbol] at h
  · rcases hletter : letters.lookup code with _ | lower <;> rw [hletter] at h
    · simp at h
    · obtain ⟨hlower, hupper⟩ := typeable_letters _ (mem_of_lookup hletter)
      obtain rfl : k.letter lower = c := Key.character.inj h
      unfold letter
      split_ifs
      · exact hupper
      · exact hlower
  · obtain ⟨hplain, hshifted⟩ := typeable_symbols _ (mem_of_lookup hsymbol)
    obtain rfl : (if k.shift then shifted else plain) = c := Key.character.inj h
    split_ifs
    · exact hshifted
    · exact hplain

theorem typeable_translate {k : Keyboard} {scancode : UInt8} {c : Char}
    (h : (k.translate scancode).1 = .press (.character c)) : Typeable c := by
  unfold translate at h
  dsimp only at h
  generalize scancode &&& 0x7F = code at h
  split_ifs at h <;> first | exact typeable_plainKey (KeyEvent.press.inj h) | simp at h

end Keyboard

inductive Modifier
  | shift
  | ctrl
  | alt
deriving DecidableEq

def modifierOf (code : UInt8) : Option Modifier :=
  if code = 0x2A ∨ code = 0x36 then some .shift
  else if code = 0x1D then some .ctrl
  else if code = 0x38 then some .alt
  else none

namespace Keyboard

variable {k : Keyboard} {m : Modifier} {scancode : UInt8}

def flag (k : Keyboard) : Modifier → Bool
  | .shift => k.shift
  | .ctrl => k.ctrl
  | .alt => k.alt

def after (k : Keyboard) (scancode : UInt8) : Keyboard := (k.translate scancode).2

theorem flag_after (k : Keyboard) (m : Modifier) (scancode : UInt8) :
    (k.after scancode).flag m =
      if modifierOf (scancode &&& 0x7F) = some m then decide (scancode &&& 0x80 = 0)
      else k.flag m := by
  unfold after translate modifierOf
  dsimp only
  generalize scancode &&& 0x7F = code
  cases m <;> split_ifs <;> simp_all [flag]

theorem capsLock_after (k : Keyboard) (scancode : UInt8) :
    (k.after scancode).capsLock = if scancode &&& 0x7F = 0x3A ∧ scancode &&& 0x80 = 0 ∧
      k.capsLockPressed = false then !k.capsLock else k.capsLock := by
  unfold after translate
  dsimp only
  generalize scancode &&& 0x7F = code
  split_ifs <;> simp_all

theorem capsLockPressed_after (k : Keyboard) (scancode : UInt8) :
    (k.after scancode).capsLockPressed =
      if scancode &&& 0x7F = 0x3A then decide (scancode &&& 0x80 = 0) else k.capsLockPressed := by
  unfold after translate
  dsimp only
  generalize scancode &&& 0x7F = code
  split_ifs <;> simp_all

end Keyboard

end AliluOS
