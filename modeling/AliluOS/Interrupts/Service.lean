import AliluOS.Interrupts.Chips
import AliluOS.Interrupts.Irq
import AliluOS.Interrupts.Vectors
import AliluOS.Lib.Simulation

/-! The processor after `sti`: devices raise lines of the controllers at any time, and
between two steps of the main loop a handler runs from its gate to `iretq`, on a stack that
has room for it. The gates mask interrupts, so no handler interrupts another. -/

namespace AliluOS.Interrupts
open Lib Ports

/-- Where the processor is: in the main loop, at the first instruction of a handler, in
`SCANCODES.lock().push(scancode)` of the keyboard's, before the end of interrupt, before
`iretq`, or for good in the panic handler. -/
inductive Control
  | main
  | entered (h : Routine)
  | pushing
  | acknowledging (h : Routine)
  | returning
  | panicked
deriving DecidableEq

structure Processor where
  pics : Pics
  /-- `TIMER_TICKS`. -/
  ticks : UInt64
  cpu : Cpu
  control : Control

namespace Processor

inductive Event
  | raise (src : Pics.Source)
  | main
  | accept
  | scancode (b : UInt8)
  | handler
deriving DecidableEq

def start (pics : Pics) : Processor := ⟨feed Pics.out pics initOuts, 0, .new, .main⟩

inductive Step : Processor → Event → Processor → Prop
  | raise {p : Processor} {src : Pics.Source} :
      Step p (.raise src) { p with pics := p.pics.raise src }
  | main {p : Processor} {cpu : Cpu} : p.control = .main → p.cpu.Step .mainLoop cpu →
      Step p .main { p with cpu := cpu }
  | accept {p : Processor} {src : Pics.Source} {h : Routine} : p.control = .main →
      p.pics.next = some src → deliver (fun _ => true) handlerOf (p.pics.vector src) = .handler h →
      Step p .accept { p with pics := p.pics.acknowledge src, control := .entered h }
  | count {p : Processor} : p.control = .entered .timer → p.ticks.toNat + 1 < 2 ^ 64 →
      Step p .handler { p with ticks := p.ticks + 1, control := .acknowledging .timer }
  -- `TIMER_TICKS += 1` is checked
  | overflow {p : Processor} : p.control = .entered .timer → ¬ p.ticks.toNat + 1 < 2 ^ 64 →
      Step p .handler { p with control := .panicked }
  | read {p : Processor} {b : UInt8} {cpu : Cpu} : p.control = .entered .keyboard →
      p.cpu.Step (.irq1 b) cpu → Step p (.scancode b) { p with cpu := cpu, control := .pushing }
  | push {p : Processor} {cpu : Cpu} : p.control = .pushing → p.cpu.Step .handler cpu →
      Step p .handler
        { p with
          cpu := cpu
          control := if cpu.handler = .none then .acknowledging .keyboard else .pushing }
  | acknowledge {p : Processor} {h : Routine} : p.control = .acknowledging h →
      Step p .handler
        { p with pics := feed Pics.out p.pics endOfInterrupt, control := .returning }
  | iretq {p : Processor} : p.control = .returning → Step p .handler { p with control := .main }

attribute [local instance] Pics.neZero_lines

def lineOf : Routine → Option (Fin 8)
  | .timer => some 0
  | .keyboard => some 1
  | _ => none

def InService (pics : Pics) : Control → Prop
  | .main | .returning => pics.Idle
  | .entered h | .acknowledging h => ∃ n, lineOf h = some n ∧ pics.Serving n
  | .pushing => pics.Serving 1
  | .panicked => pics.Serving 0

structure Inv (p : Processor) : Prop where
  ready : p.pics.Ready
  inService : InService p.pics p.control
  handler : p.control ≠ .pushing → p.cpu.handler = .none

theorem inv_start (pics : Pics) : (start pics).Inv :=
  ⟨pics.initOuts_ready.1, pics.initOuts_ready.2, fun _ => rfl⟩

variable {p p' : Processor} {e : Event}

theorem Inv.accepted (h : p.Inv) (hmain : p.control = .main) {src : Pics.Source} {f : Routine}
    (hnext : p.pics.next = some src)
    (hf : deliver (fun _ => true) handlerOf (p.pics.vector src) = .handler f) :
    ∃ n, src = .master n ∧ lineOf f = some n ∧ p.pics.pending src = true := by
  have hidle := h.inService
  rw [hmain] at hidle
  rw [h.ready.next hidle] at hnext
  rw [deliver_handlerOf] at hf
  split_ifs at hnext with h0 h1
  · obtain rfl := Option.some.inj hnext
    rw [Pics.vector, h.ready.master_offset] at hf
    obtain rfl : Routine.timer = f := Outcome.handler.inj hf
    exact ⟨0, rfl, rfl, h0⟩
  · obtain rfl := Option.some.inj hnext
    rw [Pics.vector, h.ready.master_offset] at hf
    obtain rfl : Routine.keyboard = f := Outcome.handler.inj hf
    exact ⟨1, rfl, rfl, h1⟩

theorem inService_raise {pics : Pics} {c : Control} (h : InService pics c) (src : Pics.Source) :
    InService (pics.raise src) c := by
  cases src <;> exact h

theorem step_inv (h : p.Inv) (hs : Step p e p') : p'.Inv := by
  obtain ⟨hready, hservice, hhandler⟩ := h
  cases hs with
  | @raise src => exact ⟨hready.raise src, inService_raise hservice src, hhandler⟩
  | main hmain hcpu =>
    refine ⟨hready, hservice, fun hne => ?_⟩
    have hnone := hhandler hne
    cases hcpu with
    | acquire hh | pop hh | release hh => exact hh
  | @accept src f hmain hnext hf =>
    obtain ⟨n, rfl, hline, -⟩ :=
      Inv.accepted ⟨hready, hservice, hhandler⟩ hmain hnext hf
    rw [hmain] at hservice hhandler
    exact ⟨hready.acknowledge n, ⟨n, hline, hservice.acknowledge n⟩, fun _ => hhandler (by simp)⟩
  | count hc =>
    rw [hc] at hservice hhandler
    exact ⟨hready, hservice, fun _ => hhandler (by simp)⟩
  | overflow hc =>
    rw [hc] at hservice hhandler
    obtain ⟨n, hline, hserving⟩ := hservice
    obtain rfl := Option.some.inj hline
    exact ⟨hready, hserving, fun _ => hhandler (by simp)⟩
  | read hc hcpu =>
    rw [hc] at hservice
    obtain ⟨n, hline, hserving⟩ := hservice
    obtain rfl := Option.some.inj hline
    exact ⟨hready, hserving, fun hne => absurd rfl hne⟩
  | @push cpu hc hcpu =>
    rw [hc] at hservice
    by_cases hend : cpu.handler = .none
    · simp only [if_pos hend]
      exact ⟨hready, ⟨1, rfl, hservice⟩, fun _ => hend⟩
    · simp only [if_neg hend]
      exact ⟨hready, hservice, fun hne => absurd rfl hne⟩
  | acknowledge hc =>
    rw [hc] at hservice hhandler
    obtain ⟨n, -, hserving⟩ := hservice
    rw [hserving.endOfInterrupt]
    exact ⟨⟨hready.1, hready.2, hready.3, hready.4, hready.5⟩, ⟨fun _ => rfl, hserving.2⟩,
      fun _ => hhandler (by simp)⟩
  | iretq hc =>
    rw [hc] at hservice hhandler
    exact ⟨hready, hservice, fun _ => hhandler (by simp)⟩

def accepted (p : Processor) : Event → Option Pics.Source
  | .accept => p.pics.next
  | _ => none

def raised (_ : Processor) : Event → Option Pics.Source
  | .raise src => some src
  | _ => none

/-- A request that meets one still waiting on the same line. -/
def merged (p : Processor) : Event → Option Pics.Source
  | .raise src => if p.pics.pending src then some src else none
  | _ => none

def scancodes (_ : Processor) : Event → Option UInt8
  | .scancode b => some b
  | _ => none

/-- The interrupt that a handler was entered for and has done nothing about yet, as the
timer's has not when its count overflows. -/
def entering (p : Processor) (r : Routine) : Nat :=
  if p.control = .entered r ∨ p.control = .panicked ∧ r = .timer then 1 else 0

theorem step_ticks (h : p.Inv) (hs : Step p e p') :
    p'.ticks.toNat + p'.entering .timer =
      (accepted p e).toList.count (.master 0) + (p.ticks.toNat + p.entering .timer) := by
  cases hs with
  | @accept src f hmain hnext hf =>
    obtain ⟨n, rfl, hline, -⟩ := h.accepted hmain hnext hf
    cases f with
    | timer | keyboard =>
      obtain rfl := Option.some.inj hline
      simp [entering, accepted, hmain, hnext, Nat.add_comm]
    | _ => cases hline
  | raise | main => simp [entering, accepted]
  | count hc hbound =>
    have hticks : (p.ticks + 1).toNat = p.ticks.toNat + 1 := by
      rw [UInt64.toNat_add]
      exact Nat.mod_eq_of_lt hbound
    simp [entering, accepted, hc, hticks]
  | overflow hc | read hc | acknowledge hc | iretq hc => simp [entering, accepted, hc]
  | push hc =>
    simp only [entering, accepted, hc]
    split_ifs <;> simp_all

theorem step_scancodes (h : p.Inv) (hs : Step p e p') :
    (scancodes p e).toList.length + p'.entering .keyboard =
      (accepted p e).toList.count (.master 1) + p.entering .keyboard := by
  cases hs with
  | @accept src f hmain hnext hf =>
    obtain ⟨n, rfl, hline, -⟩ := h.accepted hmain hnext hf
    cases f with
    | timer | keyboard =>
      obtain rfl := Option.some.inj hline
      simp [entering, accepted, scancodes, hmain, hnext]
    | _ => cases hline
  | raise | main => simp [entering, accepted, scancodes]
  | count hc | overflow hc | read hc | acknowledge hc | iretq hc =>
    simp [entering, accepted, scancodes, hc]
  | push hc =>
    simp only [entering, accepted, scancodes, hc]
    split_ifs <;> simp_all

theorem pending_raise (pics : Pics) (src src' : Pics.Source) :
    (pics.raise src).pending src' = if src' = src then true else pics.pending src' := by
  cases src <;> cases src' <;> simp [Pics.raise, Pics.pending, Function.update_apply]

theorem pending_acknowledge (pics : Pics) (n : Fin 8) (src : Pics.Source) :
    (pics.acknowledge (.master n)).pending src =
      if src = .master n then false else pics.pending src := by
  cases src <;>
    simp [Pics.acknowledge, Pic.acknowledge, Pics.pending, Function.update_apply]

theorem step_requests (h : p.Inv) (hs : Step p e p') (src : Pics.Source) :
    (raised p e).toList.count src + (p.pics.pending src).toNat =
      (accepted p e).toList.count src + (merged p e).toList.count src +
        (p'.pics.pending src).toNat := by
  cases hs with
  | @raise src' =>
    simp only [raised, accepted, merged, pending_raise]
    rcases eq_or_ne src src' with rfl | hne
    · cases hp : p.pics.pending src <;> simp
    · split_ifs <;> simp [hne.symm]
  | @accept src' f hmain hnext hf =>
    obtain ⟨n, rfl, -, hpending⟩ := h.accepted hmain hnext hf
    simp only [raised, accepted, merged, hnext, pending_acknowledge]
    rcases eq_or_ne src (.master n) with rfl | hne
    · simp [hpending]
    · simp [hne, hne.symm]
  | acknowledge hc =>
    have hservice := h.inService
    rw [hc] at hservice
    obtain ⟨n, -, hserving⟩ := hservice
    rw [hserving.endOfInterrupt]
    cases src <;> simp [raised, accepted, merged, Pics.pending]
  | main | count | overflow | read | push | iretq => simp [raised, accepted, merged]

theorem reachable_inv {pics : Pics} {tr : List (Processor × Event)}
    (hrun : Run Step (start pics) tr p) : p.Inv :=
  hrun.invariant (inv_start pics) fun _ _ _ h hs => step_inv h hs

theorem Inv.next_delivered (h : p.Inv) (hmain : p.control = .main) :
    p.pics.Idle ∧
      (p.pics.pending (.master 0) = true → p.pics.next = some (.master 0) ∧
        deliver (fun _ => true) handlerOf (p.pics.vector (.master 0)) = .handler .timer) ∧
      (p.pics.pending (.master 0) = false → p.pics.pending (.master 1) = true →
        p.pics.next = some (.master 1) ∧
          deliver (fun _ => true) handlerOf (p.pics.vector (.master 1)) = .handler .keyboard) ∧
      (p.pics.pending (.master 0) = false → p.pics.pending (.master 1) = false →
        p.pics.next = none) := by
  have hidle := h.inService
  rw [hmain] at hidle
  have hnext : p.pics.next = if p.pics.pending (.master 0) then some (.master 0)
      else if p.pics.pending (.master 1) then some (.master 1) else none := h.ready.next hidle
  refine ⟨hidle, fun h0 => ⟨?_, ?_⟩, fun h0 h1 => ⟨?_, ?_⟩, fun h0 h1 => ?_⟩
  · rw [hnext, if_pos h0]
  · rw [deliver_handlerOf, Pics.vector, h.ready.master_offset]
    rfl
  · simp [hnext, h0, h1]
  · rw [deliver_handlerOf, Pics.vector, h.ready.master_offset]
    rfl
  · simp [hnext, h0, h1]

theorem accepted_served (h : p.Inv) (hs : Step p e p') :
    ∀ src ∈ accepted p e, src = .master 0 ∨ src = .master 1 := by
  cases hs with
  | @accept src f hmain hnext hf =>
    obtain ⟨n, rfl, hline, -⟩ := h.accepted hmain hnext hf
    intro src' hsrc'
    obtain rfl : Pics.Source.master n = src' := by simpa [accepted, hnext] using hsrc'
    cases f with
    | timer => exact .inl (congrArg _ (Option.some.inj hline).symm)
    | keyboard => exact .inr (congrArg _ (Option.some.inj hline).symm)
    | _ => cases hline
  | _ => simp [accepted]

/-- Over every run from controllers in any state: nothing is in service while the main
loop runs, so that the timer is then served by its handler whenever it has asked, and
the keyboard by its own when the timer has not; no line but these two is ever served;
`TIMER_TICKS` and the scancodes read count the interrupts accepted; and every request
was accepted, or still waits, or met one that was waiting on its line. -/
theorem service_run {pics : Pics} {tr : List (Processor × Event)}
    (hrun : Run Step (start pics) tr p) :
    (p.control = .main → p.pics.Idle ∧
      (p.pics.pending (.master 0) = true → p.pics.next = some (.master 0) ∧
        deliver (fun _ => true) handlerOf (p.pics.vector (.master 0)) = .handler .timer) ∧
      (p.pics.pending (.master 0) = false → p.pics.pending (.master 1) = true →
        p.pics.next = some (.master 1) ∧
          deliver (fun _ => true) handlerOf (p.pics.vector (.master 1)) = .handler .keyboard) ∧
      (p.pics.pending (.master 0) = false → p.pics.pending (.master 1) = false →
        p.pics.next = none)) ∧
      (∀ src ∈ showing accepted tr, src = .master 0 ∨ src = .master 1) ∧
      p.ticks.toNat + p.entering .timer = (showing accepted tr).count (.master 0) ∧
      (showing scancodes tr).length + p.entering .keyboard =
        (showing accepted tr).count (.master 1) ∧
      ∀ src, (showing raised tr).count src =
        (showing accepted tr).count src + (showing merged tr).count src +
          (p.pics.pending src).toNat := by
  refine ⟨(reachable_inv hrun).next_delivered, ?_, ?_, ?_, fun src => ?_⟩
  · induction hrun with
    | nil => simp
    | cons hr hs ih =>
      intro src hsrc
      rw [showing_cons, List.mem_append] at hsrc
      rcases hsrc with hsrc | hsrc
      · exact accepted_served (reachable_inv hr) hs src (by simpa using hsrc)
      · exact ih src hsrc
  · induction hrun with
    | nil => rfl
    | cons hr hs ih =>
      rw [step_ticks (reachable_inv hr) hs, ih, showing_cons, List.count_append]
  · induction hrun with
    | nil => rfl
    | cons hr hs ih =>
      rw [showing_cons, showing_cons, List.length_append, List.count_append]
      have hstep := step_scancodes (reachable_inv hr) hs
      omega
  · induction hrun with
    | nil => cases src <;> rfl
    | cons hr hs ih =>
      simp only [showing_cons, List.count_append]
      have hstep := step_requests (reachable_inv hr) hs src
      omega

theorem service_run_tick :
    ∃ pics tr p, Run Step (start pics) tr p ∧ p.ticks = 1 ∧ p.control = .pushing ∧
      (showing raised tr).count (.master 0) = 2 ∧ (showing accepted tr).count (.master 0) = 1 ∧
      (showing merged tr).count (.master 0) = 1 ∧
      (showing accepted tr).count (.master 1) = (showing scancodes tr).length := by
  let pic : Pic := ⟨8, 0, fun _ => false, fun _ => false, fun _ => false, .mask⟩
  let pics : Pics := ⟨pic, pic⟩
  have hasked : Run Step (start pics)
      [(_, .raise (.master 0)), (_, .raise (.master 1)), (_, .raise (.master 0))] _ :=
    ((Run.nil.cons .raise).cons .raise).cons .raise
  obtain ⟨-, htimer, -⟩ := (reachable_inv hasked).next_delivered rfl
  obtain ⟨hnext, hdeliver⟩ := htimer rfl
  have hserved := (((hasked.cons (.accept rfl hnext hdeliver)).cons (.count rfl (by decide))).cons
    (.acknowledge rfl)).cons (.iretq rfl)
  obtain ⟨-, -, hkeyboard, -⟩ := (reachable_inv hserved).next_delivered rfl
  obtain ⟨hnext', hdeliver'⟩ := hkeyboard rfl rfl
  have hrun := hserved.cons (.accept rfl hnext' hdeliver')
  have hrun := hrun.cons (.read (b := 0x1E) rfl (.irq1 rfl))
  obtain ⟨-, -, hticks, hread, -⟩ := service_run hrun
  exact ⟨pics, _, _, hrun, rfl, rfl, rfl, hticks.symm, rfl, hread.symm⟩

end Processor

end AliluOS.Interrupts
