import AliluOS.Interrupts.Scancodes
import AliluOS.Lib.Run

/-! The two readers of the PS/2 data port: `keyboard_interrupt_inner`, which
pushes to the ring, and the polling fallback of `Keyboard::read_key`. -/

namespace AliluOS.Interrupts
open Lib

/-- Where the main loop is in `read_key`: before `pop_scancode`, before the test
of port 0x64, before the read of port 0x60. -/
inductive ReadKey
  | popScancode
  | outputReady
  | readScancode
deriving DecidableEq

/-- The controller holds one byte in `data`, unread while `full` (bit 0 of port
0x64). `irqs` counts the raised interrupts that have not been served. -/
structure Ps2 where
  full : Bool
  data : UInt8
  irqs : Nat
  ring : ScancodeBuffer
  readKey : ReadKey
  sent : List UInt8
  delivered : List UInt8

namespace Ps2

def new : Ps2 := ⟨false, 0, 0, .new, .popScancode, [], []⟩

inductive Event
  | send (scancode : UInt8)
  | irq1
  | readKey
deriving DecidableEq

def translate (s : Ps2) (scancode : UInt8) : Ps2 :=
  { s with delivered := s.delivered ++ [scancode], readKey := .popScancode }

inductive Step : Ps2 → Event → Ps2 → Prop
  -- the device waits for its last byte to be read, and for a place in the ring
  | send {s : Ps2} {b : UInt8} : s.full = false → s.ring.count < 255 →
      Step s (.send b)
        { s with full := true, data := b, irqs := s.irqs + 1, sent := s.sent ++ [b] }
  -- one run of the handler may serve several raised interrupts
  | irq1 {s : Ps2} {n : Nat} : n < s.irqs →
      Step s .irq1 { s with full := false, irqs := n, ring := s.ring.push s.data }
  | popSome {s : Ps2} {b : UInt8} : s.readKey = .popScancode →
      s.ring.pop.1 = some b →
      Step s .readKey ({ s with ring := s.ring.pop.2 }.translate b)
  | popNone {s : Ps2} : s.readKey = .popScancode → s.ring.pop.1 = none →
      Step s .readKey { s with readKey := .outputReady }
  | ready {s : Ps2} : s.readKey = .outputReady → s.full = true →
      Step s .readKey { s with readKey := .readScancode }
  | notReady {s : Ps2} : s.readKey = .outputReady → s.full = false →
      Step s .readKey { s with readKey := .popScancode }
  | read {s : Ps2} : s.readKey = .readScancode →
      Step s .readKey ({ s with full := false }.translate s.data)

def InOrder (s : Ps2) : Prop := s.delivered <+: s.sent

/-- The handler runs only while a byte waits, and the fallback reads the port
only while a byte waits and the ring is empty. -/
def OneReader (s : Ps2) : Event → Prop
  | .irq1 => s.full = true
  | .readKey => s.readKey = .readScancode → s.full = true ∧ s.ring.count = 0
  | .send _ => True

/-- Every scancode sent was delivered, waits in the ring, or waits in the port. -/
def InFlight (s : Ps2) : Prop :=
  s.sent = s.delivered ++ s.ring.contents ++ (if s.full then [s.data] else []) ∧
    s.ring.count + (if s.full then 1 else 0) ≤ 255

theorem InFlight.inOrder {s : Ps2} (h : InFlight s) : InOrder s := by
  refine ⟨s.ring.contents ++ (if s.full then [s.data] else []), ?_⟩
  rw [← List.append_assoc]
  exact h.1.symm

theorem contents_of_count {b : ScancodeBuffer} (h : b.count = 0) : b.contents = [] :=
  List.length_eq_zero_iff.mp (b.length_contents.trans h)

theorem step_inFlight {s s' : Ps2} {e : Event} (h : InFlight s) (hone : OneReader s e)
    (hs : Step s e s') : InFlight s' := by
  obtain ⟨hsent, hroom⟩ := h
  cases hs with
  | send hfull hcount =>
    simp only [hfull, Bool.false_eq_true, if_false, List.append_nil] at hsent
    refine ⟨?_, ?_⟩
    · simp [hsent]
    · simp only [if_true]
      omega
  | irq1 hirqs =>
    -- a byte in the port has kept its place in the ring free
    have hfull : s.full = true := hone
    simp only [hfull, if_true] at hsent hroom
    have hpush := s.ring.contents_push s.data
    rw [if_pos (by omega)] at hpush
    refine ⟨?_, ?_⟩
    · simp [hsent, hpush]
    · rw [← ScancodeBuffer.length_contents, hpush]
      simp
      omega
  | popSome hk hpop =>
    obtain ⟨hhead, htail⟩ := s.ring.pop_contents
    rw [hpop] at hhead
    obtain ⟨rest, hcontents⟩ := List.head?_eq_some_iff.mp hhead.symm
    have hcount : s.ring.pop.2.count + 1 = s.ring.count := by
      rw [← ScancodeBuffer.length_contents, ← ScancodeBuffer.length_contents, htail, hcontents]
      simp
    refine ⟨?_, ?_⟩
    · simp [translate, hsent, htail, hcontents]
    · change s.ring.pop.2.count + (if s.full then 1 else 0) ≤ 255
      omega
  | popNone hk hpop => exact ⟨hsent, hroom⟩
  | ready hk hfull => exact ⟨hsent, hroom⟩
  | notReady hk hfull => exact ⟨hsent, hroom⟩
  | read hk =>
    -- the fallback overtakes nothing: the ring is empty
    obtain ⟨hfull, hempty⟩ := hone hk
    simp only [hfull, if_true, contents_of_count hempty, List.append_nil] at hsent
    refine ⟨?_, ?_⟩
    · simp [translate, hsent, contents_of_count hempty]
    · simp [translate, hempty]

/-- In a run where the handler and the fallback never serve the port against
each other, the scancodes that reach `translate` are a prefix of those sent. -/
theorem delivery_in_order {tr : List (Ps2 × Event)} {s : Ps2} (hrun : Run Step new tr s)
    (hone : Guarded OneReader tr) : Always InOrder tr s := by
  have hinit : InFlight new :=
    ⟨by simp [new], by simp [new, ScancodeBuffer.count, ScancodeBuffer.new]⟩
  have hall := hrun.always_of_guarded hinit (fun _ _ _ h hc hs => step_inFlight h hc hs) hone
  exact ⟨hall.1.inOrder, fun x hx => (hall.2 x hx).inOrder⟩

theorem delivery_in_order_fallback :
    ∃ tr s, Run Step new tr s ∧ s.delivered = [0x1E, 0x9E, 0x30] ∧ Always InOrder tr s := by
  have hrun := Run.nil.cons (Step.popNone (s := new) rfl (by decide))
  have hrun := hrun.cons (.send (b := 0x1E) rfl (by decide))
  have hrun := hrun.cons (.ready rfl rfl)
  have hrun := hrun.cons (.read rfl)
  have hrun := hrun.cons (.send (b := 0x9E) rfl (by decide))
  have hrun := hrun.cons (.irq1 (n := 1) (by decide))
  have hrun := hrun.cons (.send (b := 0x30) rfl (by decide))
  have hrun := hrun.cons (.irq1 (n := 0) (by decide))
  have hrun := hrun.cons (.popSome (b := 0x9E) rfl (by decide))
  have hrun := hrun.cons (.popSome (b := 0x30) rfl (by decide))
  exact ⟨_, _, hrun, rfl, delivery_in_order hrun (by simp [OneReader, new, translate]; decide)⟩

/-- The fallback sees the byte waiting, the handler takes it to the ring, and the
fallback reads it again: one scancode reaches `translate` twice. -/
theorem delivery_twice :
    ∃ tr s, Run Step new tr s ∧ s.sent = [0x1E] ∧ s.delivered = [0x1E, 0x1E] ∧ ¬ InOrder s := by
  have hrun := Run.nil.cons (Step.popNone (s := new) rfl (by decide))
  have hrun := hrun.cons (.send (b := 0x1E) rfl (by decide))
  have hrun := hrun.cons (.ready rfl rfl)
  have hrun := hrun.cons (.irq1 (n := 0) (by decide))
  have hrun := hrun.cons (.read rfl)
  have hrun := hrun.cons (.popSome (b := 0x1E) rfl (by decide))
  refine ⟨_, _, hrun, rfl, rfl, fun hprefix => ?_⟩
  exact absurd hprefix.length_le (by decide)

end Ps2

end AliluOS.Interrupts
