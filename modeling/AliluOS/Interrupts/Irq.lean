import AliluOS.Interrupts.Scancodes
import AliluOS.Lib.Run

/-! One CPU, the main loop in `pop_scancode`, and `keyboard_interrupt_inner`,
which may start between any two of its steps and runs to its end before the main
loop goes on. Both take the spinlock of `SCANCODES`. -/

namespace AliluOS.Interrupts
open Lib

inductive MainLoop
  | idle
  | acquired
  | popped
deriving DecidableEq

/-- Where the handler is: not running, at `SCANCODES.lock()` with the scancode
it has read, about to push, about to drop the guard. -/
inductive Handler
  | none
  | locking (scancode : UInt8)
  | acquired (scancode : UInt8)
  | pushed
deriving DecidableEq

structure Cpu where
  ring : ScancodeBuffer
  locked : Bool
  mainLoop : MainLoop
  handler : Handler

namespace Cpu

def new : Cpu := ⟨.new, false, .idle, .none⟩

inductive Event
  | mainLoop
  | irq1 (scancode : UInt8)
  | handler
deriving DecidableEq

inductive Step : Cpu → Event → Cpu → Prop
  | acquire {s : Cpu} : s.handler = .none → s.mainLoop = .idle → s.locked = false →
      Step s .mainLoop { s with locked := true, mainLoop := .acquired }
  | pop {s : Cpu} : s.handler = .none → s.mainLoop = .acquired →
      Step s .mainLoop { s with ring := s.ring.pop.2, mainLoop := .popped }
  | release {s : Cpu} : s.handler = .none → s.mainLoop = .popped →
      Step s .mainLoop { s with locked := false, mainLoop := .idle }
  | irq1 {s : Cpu} {b : UInt8} : s.handler = .none →
      Step s (.irq1 b) { s with handler := .locking b }
  -- `compare_exchange` fails as long as the lock is taken
  | spin {s : Cpu} {b : UInt8} : s.handler = .locking b → s.locked = true →
      Step s .handler s
  | lock {s : Cpu} {b : UInt8} : s.handler = .locking b → s.locked = false →
      Step s .handler { s with locked := true, handler := .acquired b }
  | push {s : Cpu} {b : UInt8} : s.handler = .acquired b →
      Step s .handler { s with ring := s.ring.push b, handler := .pushed }
  | unlock {s : Cpu} : s.handler = .pushed →
      Step s .handler { s with locked := false, handler := .none }

def LockFree (s : Cpu) : Prop := ∀ scancode, s.handler = .locking scancode → s.locked = false

/-- The keyboard interrupts the main loop only while it does not hold the lock. -/
def IrqOutsideLock (s : Cpu) : Event → Prop
  | .irq1 _ => s.mainLoop = .idle
  | _ => True

def LockHeld (s : Cpu) : Prop :=
  match s.handler with
  | .none | .locking _ => s.locked = true ↔ s.mainLoop ≠ .idle
  | .acquired _ | .pushed => s.locked = true ∧ s.mainLoop = .idle

theorem step_lockHeld {s s' : Cpu} {e : Event} (h : LockHeld s) (hs : Step s e s') :
    LockHeld s' := by
  unfold LockHeld at *
  cases hs with
  | acquire hh hm hl => simp [hh]
  | pop hh hm => simpa [hh, hm] using h
  | release hh hm => simp [hh]
  | irq1 hh => simpa [hh] using h
  | spin hh hl => exact h
  | lock hh hl => simpa [hh, hl] using h
  | push hh => simpa [hh] using h
  | unlock hh =>
    rw [hh] at h
    simp [h.2]

theorem step_lockFree_iff {s s' : Cpu} {e : Event} (hheld : LockHeld s) (h : LockFree s)
    (hs : Step s e s') : LockFree s' ↔ IrqOutsideLock s e := by
  unfold LockFree IrqOutsideLock LockHeld at *
  cases hs with
  | acquire hh hm hl => simp [hh]
  | pop hh hm => simp [hh]
  | release hh hm => simp
  | irq1 hh =>
    rw [hh] at hheld
    simp only [Handler.locking.injEq, forall_eq'] at hheld ⊢
    rw [← Bool.not_eq_true, hheld, not_not]
  | spin hh hl => exact absurd (h _ hh) (by simp [hl])
  | lock hh hl => simp
  | push hh => simp
  | unlock hh => simp

/-- The handler finds the lock free throughout a run exactly when no keyboard
interrupt arrived between the `lock` of the main loop and its release. -/
theorem irq_finds_lock_free_iff {tr : List (Cpu × Event)} {s : Cpu} (hrun : Run Step new tr s) :
    Always LockFree tr s ↔ Guarded IrqOutsideLock tr :=
  hrun.always_iff_guarded (I := LockHeld) (by simp [LockHeld, new]) (by simp [LockFree, new])
    (fun _ _ _ => step_lockHeld) fun _ _ _ => step_lockFree_iff

theorem irq_finds_lock_free_once :
    ∃ tr s, Run Step new tr s ∧ tr.length = 2 ∧ Always LockFree tr s := by
  have hrun := (Run.nil.cons (Step.irq1 (s := new) (b := 0x1E) rfl)).cons (.lock rfl rfl)
  exact ⟨_, _, hrun, rfl, (irq_finds_lock_free_iff hrun).mpr (by simp [IrqOutsideLock, new])⟩

/-- The main loop takes the lock, the interrupt arrives, and the handler meets
the taken lock. -/
theorem irq_finds_lock_taken :
    ∃ tr s, Run Step new tr s ∧ s.handler = .locking 0x1E ∧ ¬ LockFree s := by
  have hrun := (Run.nil.cons (Step.acquire (s := new) rfl rfl rfl)).cons (.irq1 (b := 0x1E) rfl)
  exact ⟨_, _, hrun, rfl, by simp [LockFree]⟩

theorem spins_forever {tr : List (Cpu × Event)} {s s' : Cpu} {scancode : UInt8}
    (hh : s.handler = .locking scancode) (hl : s.locked = true) (hrun : Run Step s tr s') :
    s' = s := by
  apply hrun.invariant (P := fun t => t = s) rfl
  intro t e t' ht hs
  subst ht
  cases hs with
  | spin => rfl
  | lock _ hfree => simp [hl] at hfree
  | _ hh' => simp [hh] at hh'

end Cpu

end AliluOS.Interrupts
