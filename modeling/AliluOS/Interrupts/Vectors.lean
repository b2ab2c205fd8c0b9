import AliluOS.Interrupts.Descriptors
import Mathlib.Data.Fin.Basic

/-! The interrupt table that `setup_idt` fills, as the processor reads it, and where an
exception that has no gate of its own ends. -/

namespace AliluOS.Interrupts
open Lib BitField

inductive Routine
  | divideByZero
  | doubleFault
  | pageFault
  | timer
  | keyboard
deriving DecidableEq

/-- `IDT[v].set_handler(h as u64)`, where `address` tells where the linker has put each
handler. -/
def setGate (address : Routine → UInt64) (idt : Fin 256 → IdtEntry) (v : Fin 256) (h : Routine) :
    Fin 256 → IdtEntry :=
  Function.update idt v ((idt v).setHandler (address h))

def setupIdt (address : Routine → UInt64) (idt : Fin 256 → IdtEntry) : Fin 256 → IdtEntry :=
  let idt := setGate address idt 0 .divideByZero
  let idt := setGate address idt 8 .doubleFault
  let idt := setGate address idt 14 .pageFault
  let idt := setGate address idt 32 .timer
  setGate address idt 33 .keyboard

structure Gate where
  offset : Nat
  selector : Nat
  stackTable : Nat
  type : Nat
  privilege : Nat
deriving DecidableEq

def decodeGate (descriptor : Nat) : Option Gate :=
  if slice 47 1 descriptor = 1 then
    some ⟨gateOffset descriptor, slice 16 16 descriptor, slice 32 3 descriptor,
      slice 40 4 descriptor, slice 45 2 descriptor⟩
  else none

def interruptGate : Nat := 14

namespace IdtEntry

theorem slice_options {d o start w : Nat} (ho : slice 32 16 d = o) (h : start + w ≤ 16) :
    slice (32 + start) w d = slice start w o := by
  rw [← ho, slice_slice h]

theorem decodeGate_setHandler (e : IdtEntry) (handler : UInt64) :
    decodeGate (e.setHandler handler).bits =
      some ⟨handler.toNat, 8, 0, interruptGate, 0⟩ := by
  have hselector : slice 16 16 (e.setHandler handler).bits = 8 :=
    slice_pack_get (e.setHandler handler).fits_fields ⟨1, by simp [fields]⟩
  have hoptions : slice 32 16 (e.setHandler handler).bits = 0x8E00 :=
    slice_pack_get (e.setHandler handler).fits_fields ⟨2, by simp [fields]⟩
  have hstack : slice 32 3 (e.setHandler handler).bits = 0 :=
    (slice_options hoptions (by decide : 0 + 3 ≤ 16)).trans (by decide)
  have htype : slice 40 4 (e.setHandler handler).bits = interruptGate :=
    (slice_options hoptions (by decide : 8 + 4 ≤ 16)).trans (by decide)
  have hprivilege : slice 45 2 (e.setHandler handler).bits = 0 :=
    (slice_options hoptions (by decide : 13 + 2 ≤ 16)).trans (by decide)
  have hpresent : slice 47 1 (e.setHandler handler).bits = 1 :=
    (slice_options hoptions (by decide : 15 + 1 ≤ 16)).trans (by decide)
  have hoffset : gateOffset (e.setHandler handler).bits = handler.toNat :=
    (gateOffset_bits _).trans (pack_gate e handler)
  rw [decodeGate, if_pos hpresent, hoffset, hselector, hstack, htype, hprivilege]

theorem decodeGate_missing : decodeGate missing.bits = none := by decide

end IdtEntry

def handlerOf (v : Nat) : Option Routine :=
  if v = 33 then some .keyboard
  else if v = 32 then some .timer
  else if v = 14 then some .pageFault
  else if v = 8 then some .doubleFault
  else if v = 0 then some .divideByZero
  else none

def gateTo (address : Routine → UInt64) (h : Routine) : Gate :=
  ⟨(address h).toNat, 8, 0, interruptGate, 0⟩

theorem decodeGate_setGate (address : Routine → UInt64) (idt : Fin 256 → IdtEntry)
    (v w : Fin 256) (h : Routine) :
    decodeGate (setGate address idt v h w).bits =
      if w = v then some (gateTo address h) else decodeGate (idt w).bits := by
  rw [setGate, Function.update_apply]
  split_ifs
  · exact IdtEntry.decodeGate_setHandler ..
  · rfl

theorem decodeGate_setupIdt (address : Routine → UInt64) (v : Fin 256) :
    decodeGate (setupIdt address (fun _ => .missing) v).bits =
      (handlerOf v).map (gateTo address) := by
  rw [setupIdt]
  simp only [decodeGate_setGate, IdtEntry.decodeGate_missing, handlerOf, Fin.ext_iff,
    Fin.coe_ofNat_eq_mod, Nat.reduceMod]
  split_ifs <;> rfl

inductive ExceptionClass
  | benign
  | contributory
  | pageFault
  | doubleFault
deriving DecidableEq

def classOf (v : Nat) : ExceptionClass :=
  if v = 8 then .doubleFault
  else if v = 14 then .pageFault
  else if v = 0 ∨ 10 ≤ v ∧ v ≤ 13 then .contributory
  else .benign

inductive Outcome (γ : Type)
  | handler (gate : γ)
  | shutdown
deriving DecidableEq

variable {γ δ : Type}

def Outcome.map (f : γ → δ) : Outcome γ → Outcome δ
  | .handler gate => .handler (f gate)
  | .shutdown => .shutdown

section Delivery

variable (pushed : γ → Bool) (gate : Nat → Option γ)

/-- `pushed` tells through which gates the processor can push its frame. -/
def enterGate (g : Option γ) (refused missing : Outcome γ) : Outcome γ :=
  match g with
  | some g => if pushed g then .handler g else refused
  | none => missing

def raiseDoubleFault : Outcome γ := enterGate pushed (gate 8) .shutdown .shutdown

/-- The page fault of a frame that cannot be pushed, met while an exception of class
`first` was being delivered. -/
def raisePageFault (first : ExceptionClass) : Outcome γ :=
  match first with
  | .benign | .contributory =>
    enterGate pushed (gate 14) (raiseDoubleFault pushed gate) (raiseDoubleFault pushed gate)
  | .pageFault => raiseDoubleFault pushed gate
  | .doubleFault => .shutdown

def raiseGeneralProtection (first : ExceptionClass) : Outcome γ :=
  match first with
  | .benign =>
    enterGate pushed (gate 13) (raisePageFault pushed gate .contributory)
      (raiseDoubleFault pushed gate)
  | .contributory | .pageFault => raiseDoubleFault pushed gate
  | .doubleFault => .shutdown

def deliver (v : Nat) : Outcome γ :=
  enterGate pushed (gate v) (raisePageFault pushed gate (classOf v))
    (raiseGeneralProtection pushed gate (classOf v))

end Delivery

section Relabelling

variable (pushed : δ → Bool) (gate : Nat → Option γ) (f : γ → δ)

theorem enterGate_map (g : Option γ) {a b : Outcome γ} {a' b' : Outcome δ} (ha : a' = a.map f)
    (hb : b' = b.map f) :
    enterGate pushed (g.map f) a' b' = (enterGate (pushed ∘ f) g a b).map f := by
  subst ha hb
  cases g with
  | none => rfl
  | some g =>
    show (if pushed (f g) then _ else _) = Outcome.map f (if pushed (f g) then _ else _)
    split <;> rfl

theorem raiseDoubleFault_map :
    raiseDoubleFault pushed (fun v => (gate v).map f) =
      (raiseDoubleFault (pushed ∘ f) gate).map f :=
  enterGate_map pushed f (gate 8) rfl rfl

theorem raisePageFault_map (first : ExceptionClass) :
    raisePageFault pushed (fun v => (gate v).map f) first =
      (raisePageFault (pushed ∘ f) gate first).map f := by
  have hdouble := raiseDoubleFault_map pushed gate f
  cases first with
  | benign | contributory => exact enterGate_map pushed f (gate 14) hdouble hdouble
  | pageFault => exact hdouble
  | doubleFault => rfl

theorem raiseGeneralProtection_map (first : ExceptionClass) :
    raiseGeneralProtection pushed (fun v => (gate v).map f) first =
      (raiseGeneralProtection (pushed ∘ f) gate first).map f := by
  have hdouble := raiseDoubleFault_map pushed gate f
  cases first with
  | benign =>
    exact enterGate_map pushed f (gate 13) (raisePageFault_map pushed gate f .contributory) hdouble
  | contributory | pageFault => exact hdouble
  | doubleFault => rfl

theorem deliver_map (v : Nat) :
    deliver pushed (fun v => (gate v).map f) v = (deliver (pushed ∘ f) gate v).map f :=
  enterGate_map pushed f (gate v) (raisePageFault_map pushed gate f (classOf v))
    (raiseGeneralProtection_map pushed gate f (classOf v))

end Relabelling

theorem deliver_handlerOf (v : Nat) :
    deliver (fun _ => true) handlerOf v = .handler ((handlerOf v).getD .doubleFault) := by
  have hdouble : raiseDoubleFault (fun _ => true) handlerOf = .handler .doubleFault := rfl
  rw [deliver]
  cases hv : handlerOf v with
  | some h => rfl
  | none =>
    dsimp only [Option.getD_none]
    cases hclass : classOf v with
    | benign | contributory | pageFault => exact hdouble
    | doubleFault =>
      -- that vector has a gate
      obtain rfl : v = 8 := by
        unfold classOf at hclass
        split_ifs at hclass with h8
        exact h8
      simp [handlerOf] at hv

/-- A stack on which no frame can be pushed is the end: the page fault's own frame, and
then the double fault's, cannot be pushed either. -/
theorem deliver_stuck (gate : Nat → Option γ) (v : Nat) :
    deliver (fun _ => false) gate v = .shutdown := by
  have henter (g : Option γ) : enterGate (fun _ => false) g .shutdown .shutdown = .shutdown := by
    cases g <;> rfl
  have hdouble : raiseDoubleFault (fun _ => false) gate = .shutdown := henter (gate 8)
  have hpage (first : ExceptionClass) : raisePageFault (fun _ => false) gate first = .shutdown := by
    cases first with
    | benign | contributory =>
      show enterGate _ (gate 14) (raiseDoubleFault _ gate) (raiseDoubleFault _ gate) = _
      rw [hdouble, henter]
    | pageFault => exact hdouble
    | doubleFault => rfl
  have hprotection (first : ExceptionClass) :
      raiseGeneralProtection (fun _ => false) gate first = .shutdown := by
    cases first with
    | benign =>
      show enterGate _ (gate 13) (raisePageFault _ gate _) (raiseDoubleFault _ gate) = _
      rw [hdouble, hpage, henter]
    | contributory | pageFault => exact hdouble
    | doubleFault => rfl
  rw [deliver, hpage, hprotection, henter]

namespace GdtEntry

def fields (e : GdtEntry) : List BitField :=
  [⟨16, e.limitLow.toNat⟩, ⟨16, e.baseLow.toNat⟩, ⟨8, e.baseMiddle.toNat⟩, ⟨8, e.accessByte.toNat⟩,
    ⟨8, e.flagsLimitHigh.toNat⟩, ⟨8, e.baseHigh.toNat⟩]

def bits (e : GdtEntry) : Nat := pack e.fields

end GdtEntry

structure Segment where
  present : Nat
  privilege : Nat
  kind : Nat
  type : Nat
  long : Nat
deriving DecidableEq

def decodeSegment (descriptor : Nat) : Segment :=
  ⟨slice 47 1 descriptor, slice 45 2 descriptor, slice 44 1 descriptor, slice 40 4 descriptor,
    slice 53 1 descriptor⟩

def kernelCode : Segment := ⟨1, 0, 1, 10, 1⟩

def Gdt.descriptor (gdt : Gdt) (selector : Nat) : Option Nat :=
  match selector / 8 with
  | 0 => some gdt.null.bits
  | 1 => some gdt.code.bits
  | 2 => some gdt.data.bits
  | 3 => some gdt.tss.bits
  | _ => none

def readGate (idt : Fin 256 → IdtEntry) (v : Nat) : Option Gate :=
  if h : v < 256 then decodeGate (idt ⟨v, h⟩).bits else none

theorem readGate_setupIdt (address : Routine → UInt64) :
    readGate (setupIdt address fun _ => .missing) =
      fun v => (handlerOf v).map (gateTo address) := by
  funext v
  unfold readGate
  split_ifs with hv
  · exact decodeGate_setupIdt address ⟨v, hv⟩
  · have hnone : handlerOf v = none := by
      unfold handlerOf
      split_ifs <;> first | rfl | omega
    rw [hnone, Option.map_none]

/-- Whatever vector an interrupt or an exception has: after `init`, a processor that can
push its frame on the stack in use goes through an interrupt gate into 64-bit code of ring 0,
at the address of the handler that `setup_idt` names for that vector, or else of the double
fault handler. Every gate uses that same stack, so where it takes no frame, the processor
shuts down; `pushed` says so for each entry of the interrupt stack table. -/
theorem init_delivers (address : Routine → UInt64) (tssAddress : UInt64) (pushed : Nat → Bool)
    (v : Nat) :
    let outcome := deliver (fun gate : Gate => pushed gate.stackTable)
      (readGate (setupIdt address fun _ => .missing)) v
    (pushed 0 = true → ∃ gate : Gate, outcome = .handler gate ∧
      gate.offset = (address ((handlerOf v).getD .doubleFault)).toNat ∧
      gate.type = interruptGate ∧
      ((setupGdt .initial tssAddress).descriptor gate.selector).map decodeSegment =
        some kernelCode) ∧
    (pushed 0 = false → outcome = .shutdown) := by
  intro outcome
  have houtcome : outcome = (deliver (fun _ => pushed 0) handlerOf v).map (gateTo address) := by
    show deliver _ _ v = _
    rw [readGate_setupIdt, deliver_map]
    rfl
  rw [houtcome]
  refine ⟨fun hpushed => ?_, fun hstuck => ?_⟩
  · refine ⟨gateTo address ((handlerOf v).getD .doubleFault), ?_, rfl, rfl, ?_⟩
    · rw [hpushed, deliver_handlerOf]
      rfl
    · have hcode : (setupGdt .initial tssAddress).descriptor 8 = some Gdt.initial.code.bits := rfl
      have hselector : (gateTo address ((handlerOf v).getD .doubleFault)).selector = 8 := rfl
      rw [hselector, hcode]
      decide
  · rw [hstuck, deliver_stuck]
    rfl

end AliluOS.Interrupts
