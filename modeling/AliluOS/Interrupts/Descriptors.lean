import AliluOS.Lib.BitFields

/-! The descriptors of `interrupts.rs`: the gates of the interrupt table and the task
state segment in the segment table. Both are packed records, and the processor takes an
address out of each from bits that are not next to each other. -/

namespace AliluOS.Interrupts
open Lib BitField

structure IdtEntry where
  pointerLow : UInt16
  gdtSelector : UInt16
  options : UInt16
  pointerMiddle : UInt16
  pointerHigh : UInt32
  reserved : UInt32
deriving DecidableEq

namespace IdtEntry

def missing : IdtEntry := ⟨0, 0, 0, 0, 0, 0⟩

def setHandler (_ : IdtEntry) (handler : UInt64) : IdtEntry where
  pointerLow := (handler &&& 0xFFFF).toUInt16
  gdtSelector := 8
  options := 0x8E00
  pointerMiddle := ((handler >>> 16) &&& 0xFFFF).toUInt16
  pointerHigh := ((handler >>> 32) &&& 0xFFFFFFFF).toUInt32
  reserved := 0

def fields (e : IdtEntry) : List BitField :=
  [⟨16, e.pointerLow.toNat⟩, ⟨16, e.gdtSelector.toNat⟩, ⟨16, e.options.toNat⟩,
    ⟨16, e.pointerMiddle.toNat⟩, ⟨32, e.pointerHigh.toNat⟩, ⟨32, e.reserved.toNat⟩]

/-- The 16 bytes of the entry as the processor reads them. -/
def bits (e : IdtEntry) : Nat := pack e.fields

end IdtEntry

def gateOffset (descriptor : Nat) : Nat := gather descriptor [(0, 16), (48, 16), (64, 32)]

structure GdtEntry where
  limitLow : UInt16
  baseLow : UInt16
  baseMiddle : UInt8
  accessByte : UInt8
  flagsLimitHigh : UInt8
  baseHigh : UInt8
deriving DecidableEq

structure GdtSystemEntry where
  limitLow : UInt16
  baseLow : UInt16
  baseMiddle : UInt8
  accessByte : UInt8
  flagsLimitHigh : UInt8
  baseHighMiddle : UInt8
  baseHigh : UInt32
  reserved : UInt32
deriving DecidableEq

structure Gdt where
  null : GdtEntry
  code : GdtEntry
  data : GdtEntry
  tss : GdtSystemEntry
deriving DecidableEq

def Gdt.initial : Gdt where
  null := ⟨0, 0, 0, 0, 0, 0⟩
  code := ⟨0, 0, 0, 0x9A, 0x20, 0⟩
  data := ⟨0, 0, 0, 0x92, 0, 0⟩
  tss := ⟨0, 0, 0, 0, 0, 0, 0, 0⟩

def tssSize : UInt32 := 104

def setupGdt (gdt : Gdt) (tssAddress : UInt64) : Gdt :=
  { gdt with
    tss := { gdt.tss with
      limitLow := (tssSize - 1).toUInt16
      baseLow := (tssAddress &&& 0xFFFF).toUInt16
      baseMiddle := ((tssAddress >>> 16) &&& 0xFF).toUInt8
      accessByte := 0x89
      flagsLimitHigh := (((tssSize - 1) >>> 16) &&& 0x0F).toUInt8
      baseHighMiddle := ((tssAddress >>> 24) &&& 0xFF).toUInt8
      baseHigh := (tssAddress >>> 32).toUInt32 } }

namespace GdtSystemEntry

def fields (e : GdtSystemEntry) : List BitField :=
  [⟨16, e.limitLow.toNat⟩, ⟨16, e.baseLow.toNat⟩, ⟨8, e.baseMiddle.toNat⟩, ⟨8, e.accessByte.toNat⟩,
    ⟨8, e.flagsLimitHigh.toNat⟩, ⟨8, e.baseHighMiddle.toNat⟩, ⟨32, e.baseHigh.toNat⟩,
    ⟨32, e.reserved.toNat⟩]

def bits (e : GdtSystemEntry) : Nat := pack e.fields

end GdtSystemEntry

def segmentBase (descriptor : Nat) : Nat :=
  gather descriptor [(16, 16), (32, 8), (56, 8), (64, 32)]

namespace IdtEntry

variable (e : IdtEntry) (handler : UInt64)

theorem pointerLow_setHandler :
    (e.setHandler handler).pointerLow.toNat = slice 0 16 handler.toNat := by
  have hmask := shiftRight_and_mod handler.toNat 0 16
  rwa [Nat.shiftRight_zero] at hmask

theorem pointerMiddle_setHandler :
    (e.setHandler handler).pointerMiddle.toNat = slice 16 16 handler.toNat :=
  shiftRight_and_mod handler.toNat 16 16

theorem pointerHigh_setHandler :
    (e.setHandler handler).pointerHigh.toNat = slice 32 32 handler.toNat :=
  shiftRight_and_mod handler.toNat 32 32

theorem fits_fields : ∀ f ∈ e.fields, f.Fits := by
  unfold fields
  simp only [List.forall_mem_cons]
  exact ⟨e.pointerLow.toNat_lt, e.gdtSelector.toNat_lt, e.options.toNat_lt,
    e.pointerMiddle.toNat_lt, e.pointerHigh.toNat_lt, e.reserved.toNat_lt, by simp⟩

theorem gateOffset_bits : gateOffset e.bits = pack [⟨16, e.pointerLow.toNat⟩,
    ⟨16, e.pointerMiddle.toNat⟩, ⟨32, e.pointerHigh.toNat⟩] := by
  have hlow : slice 0 16 e.bits = e.pointerLow.toNat :=
    slice_pack_get e.fits_fields ⟨0, by simp [fields]⟩
  have hmiddle : slice 48 16 e.bits = e.pointerMiddle.toNat :=
    slice_pack_get e.fits_fields ⟨3, by simp [fields]⟩
  have hhigh : slice 64 32 e.bits = e.pointerHigh.toNat :=
    slice_pack_get e.fits_fields ⟨4, by simp [fields]⟩
  rw [gateOffset, gather]
  simp only [List.map_cons, List.map_nil, hlow, hmiddle, hhigh]

end IdtEntry

namespace GdtSystemEntry

theorem fits_fields (e : GdtSystemEntry) : ∀ f ∈ e.fields, f.Fits := by
  unfold fields
  simp only [List.forall_mem_cons]
  exact ⟨e.limitLow.toNat_lt, e.baseLow.toNat_lt, e.baseMiddle.toNat_lt, e.accessByte.toNat_lt,
    e.flagsLimitHigh.toNat_lt, e.baseHighMiddle.toNat_lt, e.baseHigh.toNat_lt,
    e.reserved.toNat_lt, by simp⟩

theorem segmentBase_bits (e : GdtSystemEntry) : segmentBase e.bits = pack [⟨16, e.baseLow.toNat⟩,
    ⟨8, e.baseMiddle.toNat⟩, ⟨8, e.baseHighMiddle.toNat⟩, ⟨32, e.baseHigh.toNat⟩] := by
  have hlow : slice 16 16 e.bits = e.baseLow.toNat :=
    slice_pack_get e.fits_fields ⟨1, by simp [fields]⟩
  have hmiddle : slice 32 8 e.bits = e.baseMiddle.toNat :=
    slice_pack_get e.fits_fields ⟨2, by simp [fields]⟩
  have hhighMiddle : slice 56 8 e.bits = e.baseHighMiddle.toNat :=
    slice_pack_get e.fits_fields ⟨5, by simp [fields]⟩
  have hhigh : slice 64 32 e.bits = e.baseHigh.toNat :=
    slice_pack_get e.fits_fields ⟨6, by simp [fields]⟩
  rw [segmentBase, gather]
  simp only [List.map_cons, List.map_nil, hlow, hmiddle, hhighMiddle, hhigh]

end GdtSystemEntry

section Tss

variable (gdt : Gdt) (tssAddress : UInt64)

theorem baseLow_setupGdt :
    (setupGdt gdt tssAddress).tss.baseLow.toNat = slice 0 16 tssAddress.toNat := by
  have hmask := shiftRight_and_mod tssAddress.toNat 0 16
  rwa [Nat.shiftRight_zero] at hmask

theorem baseMiddle_setupGdt :
    (setupGdt gdt tssAddress).tss.baseMiddle.toNat = slice 16 8 tssAddress.toNat :=
  shiftRight_and_mod tssAddress.toNat 16 8

theorem baseHighMiddle_setupGdt :
    (setupGdt gdt tssAddress).tss.baseHighMiddle.toNat = slice 24 8 tssAddress.toNat :=
  shiftRight_and_mod tssAddress.toNat 24 8

theorem baseHigh_setupGdt :
    (setupGdt gdt tssAddress).tss.baseHigh.toNat = slice 32 32 tssAddress.toNat :=
  shiftRight_mod tssAddress.toNat 32 32

end Tss

theorem pack_gate (e : IdtEntry) (handler : UInt64) :
    pack [⟨16, (e.setHandler handler).pointerLow.toNat⟩,
      ⟨16, (e.setHandler handler).pointerMiddle.toNat⟩,
      ⟨32, (e.setHandler handler).pointerHigh.toNat⟩] = handler.toNat := by
  rw [IdtEntry.pointerLow_setHandler, IdtEntry.pointerMiddle_setHandler,
    IdtEntry.pointerHigh_setHandler]
  exact pack_slices_of_lt (w := [16, 16, 32]) handler.toNat_lt

theorem pack_segment (gdt : Gdt) (tssAddress : UInt64) :
    pack [⟨16, (setupGdt gdt tssAddress).tss.baseLow.toNat⟩,
      ⟨8, (setupGdt gdt tssAddress).tss.baseMiddle.toNat⟩,
      ⟨8, (setupGdt gdt tssAddress).tss.baseHighMiddle.toNat⟩,
      ⟨32, (setupGdt gdt tssAddress).tss.baseHigh.toNat⟩] = tssAddress.toNat := by
  rw [baseLow_setupGdt, baseMiddle_setupGdt, baseHighMiddle_setupGdt, baseHigh_setupGdt]
  exact pack_slices_of_lt (w := [16, 8, 8, 32]) tssAddress.toNat_lt

/-- Both encoders lose nothing of an address: its parts at their bit positions add up to
it, and the processor finds it in the packed descriptor. -/
theorem descriptors_exact :
    (∀ (e : IdtEntry) (handler : UInt64),
      (e.setHandler handler).pointerLow.toNat +
            (e.setHandler handler).pointerMiddle.toNat * 2 ^ 16 +
            (e.setHandler handler).pointerHigh.toNat * 2 ^ 32 = handler.toNat ∧
        gateOffset (e.setHandler handler).bits = handler.toNat) ∧
      ∀ (gdt : Gdt) (tssAddress : UInt64),
        (setupGdt gdt tssAddress).tss.baseLow.toNat +
              (setupGdt gdt tssAddress).tss.baseMiddle.toNat * 2 ^ 16 +
              (setupGdt gdt tssAddress).tss.baseHighMiddle.toNat * 2 ^ 24 +
              (setupGdt gdt tssAddress).tss.baseHigh.toNat * 2 ^ 32 = tssAddress.toNat ∧
          segmentBase (setupGdt gdt tssAddress).tss.bits = tssAddress.toNat := by
  refine ⟨fun e handler => ?_, fun gdt tssAddress => ?_⟩
  · have hpack := pack_gate e handler
    refine ⟨?_, (IdtEntry.gateOffset_bits _).trans hpack⟩
    simp only [pack] at hpack
    omega
  · have hpack := pack_segment gdt tssAddress
    refine ⟨?_, (GdtSystemEntry.segmentBase_bits _).trans hpack⟩
    simp only [pack] at hpack
    omega

end AliluOS.Interrupts
