import AliluOS.Lib.BitFields
import AliluOS.Text.Str
import Mathlib.Data.List.Range

/-! The scan of the PCI bus for a network card, through the two configuration ports, over
any configuration space. -/

namespace AliluOS.Network
open Lib BitField Text

structure PciDevice where
  bus : UInt8
  slot : UInt8
  function : UInt8
  vendorId : UInt16
  deviceId : UInt16
  bar0 : UInt32

/-- `port` is what is read from `PCI_CONFIG_DATA` when the address has been written to
`PCI_CONFIG_ADDRESS`. -/
def pciReadConfig (port : UInt32 → UInt32) (bus slot func offset : UInt8) : UInt32 :=
  let address := bus.toUInt32 <<< 16 ||| slot.toUInt32 <<< 11 ||| func.toUInt32 <<< 8 |||
    offset.toUInt32 &&& 0xFC ||| 0x80000000
  port address

def pciFindNetworkCard (port : UInt32 → UInt32) (vendorId deviceId : UInt16) : Option PciDevice :=
  (List.range 256).findSome? fun bus =>
    (List.range 32).findSome? fun slot =>
      let val := pciReadConfig port (.ofNat bus) (.ofNat slot) 0 0
      let vId := (val &&& 0xFFFF).toUInt16
      let dId := ((val >>> 16) &&& 0xFFFF).toUInt16
      if vId = vendorId ∧ dId = deviceId then
        some ⟨.ofNat bus, .ofNat slot, 0, vId, dId,
          pciReadConfig port (.ofNat bus) (.ofNat slot) 0 0x10⟩
      else none

structure EthernetDriver where
  macAddress : List UInt8
  cardDetected : Bool
  driverName : Str

namespace EthernetDriver

def new : EthernetDriver := ⟨[0x52, 0x54, 0x00, 0x12, 0x34, 0x56], false, "Generic/e1000"⟩

def init (port : UInt32 → UInt32) (d : EthernetDriver) : EthernetDriver :=
  if (pciFindNetworkCard port 0x8086 0x100E).isSome then
    { d with cardDetected := true, driverName := "Intel e1000 Gigabit NIC" }
  else if (pciFindNetworkCard port 0x1AF4 0x1000).isSome then
    { d with cardDetected := true, driverName := "VirtIO-Net Translucent NIC" }
  else { d with cardDetected := true, driverName := "QEMU Virtual Ethernet Adapter" }

end EthernetDriver

/-- The double word at a register of a function, by bus, device, function and number; a
bridge forwards an address with its highest bit set. -/
def bridge (space : Nat → Nat → Nat → Nat → UInt32) (address : UInt32) : UInt32 :=
  if slice 31 1 address.toNat = 1 then
    space (slice 16 8 address.toNat) (slice 11 5 address.toNat) (slice 8 3 address.toNat)
      (slice 2 6 address.toNat)
  else 0xFFFFFFFF

def addressFields (bus slot func register : Nat) : List BitField :=
  [⟨2, 0⟩, ⟨6, register⟩, ⟨3, func⟩, ⟨5, slot⟩, ⟨8, bus⟩, ⟨7, 0⟩, ⟨1, 1⟩]

theorem fits_addressFields {bus slot func register : Nat} (hbus : bus < 256) (hslot : slot < 32)
    (hfunc : func < 8) (hregister : register < 64) :
    ∀ f ∈ addressFields bus slot func register, f.Fits := by
  simp [addressFields, Fits, hbus, hslot, hfunc, hregister]

theorem pack_addressFields {bus slot func register : Nat} (hbus : bus < 256) (hslot : slot < 32)
    (hfunc : func < 8) (hregister : register < 64) :
    pack (addressFields bus slot func register) =
      bus <<< 16 ||| slot <<< 11 ||| func <<< 8 ||| register <<< 2 ||| 0x80000000 := by
  have hfits := fits_addressFields hbus hslot hfunc hregister
  simp only [addressFields, List.forall_mem_cons] at hfits
  obtain ⟨h₀, h₁, h₂, h₃, h₄, h₅, h₆, -⟩ := hfits
  rw [addressFields, pack_cons_eq_or h₀, pack_cons_eq_or h₁, pack_cons_eq_or h₂,
    pack_cons_eq_or h₃, pack_cons_eq_or h₄, pack_cons_eq_or h₅, pack_cons_eq_or h₆]
  simp only [Nat.shiftLeft_or_distrib, ← Nat.shiftLeft_add, pack, Nat.zero_shiftLeft,
    Nat.zero_or, Nat.or_zero, Nat.reduceAdd]
  rw [Nat.or_assoc, Nat.or_assoc, Nat.or_assoc, Nat.or_comm]
  simp only [Nat.or_assoc]
  rfl

theorem pciReadConfig_bridge (space : Nat → Nat → Nat → Nat → UInt32) (bus offset : UInt8)
    {slot func : UInt8} (hslot : slot.toNat < 32) (hfunc : func.toNat < 8) :
    pciReadConfig (bridge space) bus slot func offset =
      space bus.toNat slot.toNat func.toNat (offset.toNat / 4) := by
  have hbus : bus.toNat < 256 := bus.toNat_lt
  have hregister : offset.toNat / 4 < 64 := by
    have hoffset : offset.toNat < 256 := offset.toNat_lt
    omega
  have hfits := fits_addressFields hbus hslot hfunc hregister
  have haddress : (bus.toUInt32 <<< 16 ||| slot.toUInt32 <<< 11 ||| func.toUInt32 <<< 8 |||
      offset.toUInt32 &&& 0xFC ||| 0x80000000).toNat =
        pack (addressFields bus.toNat slot.toNat func.toNat (offset.toNat / 4)) := by
    have hlow : ∀ x : Fin 256, x.val &&& 0xFC = (x.val / 4) <<< 2 := by decide +kernel
    have hshift : ∀ {n k : Nat}, n < 256 → k ≤ 16 → n <<< k % 2 ^ 32 = n <<< k := by
      intro n k hn hk
      rw [Nat.shiftLeft_eq]
      have hpow : 2 ^ k ≤ 2 ^ 16 := Nat.pow_le_pow_right (by decide) hk
      exact Nat.mod_eq_of_lt ((Nat.mul_lt_mul'' hn (Nat.lt_succ_of_le hpow)).trans (by decide))
    rw [pack_addressFields hbus hslot hfunc hregister]
    simp only [UInt32.toNat_or, UInt32.toNat_shiftLeft, UInt32.toNat_and, UInt8.toNat_toUInt32]
    rw [← hlow ⟨offset.toNat, offset.toNat_lt⟩]
    exact congrArg₂ _ (congrArg₂ _ (congrArg₂ _ (congrArg₂ _ (hshift hbus (by decide))
      (hshift slot.toNat_lt (by decide))) (hshift func.toNat_lt (by decide))) rfl) rfl
  have hread := slice_pack_get hfits
  have henable : slice 31 1 (pack (addressFields bus.toNat slot.toNat func.toNat
      (offset.toNat / 4))) = 1 := hread ⟨6, by simp [addressFields]⟩
  unfold pciReadConfig bridge
  dsimp only
  rw [haddress, if_pos henable]
  exact congr (congr (congr (congrArg space (hread ⟨4, by simp [addressFields]⟩))
    (hread ⟨3, by simp [addressFields]⟩)) (hread ⟨2, by simp [addressFields]⟩))
    (hread ⟨1, by simp [addressFields]⟩)

def HasCard (space : Nat → Nat → Nat → Nat → UInt32) (vendorId deviceId : UInt16)
    (place : Nat × Nat) : Prop :=
  slice 0 16 (space place.1 place.2 0 0).toNat = vendorId.toNat ∧
    slice 16 16 (space place.1 place.2 0 0).toNat = deviceId.toNat

theorem findSome?_congr {α β : Type} {l : List α} {f g : α → Option β} (h : ∀ x ∈ l, f x = g x) :
    l.findSome? f = l.findSome? g := by
  induction l with
  | nil => rfl
  | cons x l ih =>
    obtain ⟨hx, hl⟩ := List.forall_mem_cons.mp h
    rw [List.findSome?_cons, List.findSome?_cons, hx, ih hl]

theorem findSome?_range_eq_some {α : Type} {n : Nat} {f : Nat → Option α} {a : α}
    (h : (List.range n).findSome? f = some a) : ∃ i < n, f i = some a ∧ ∀ j < i, f j = none := by
  obtain ⟨l₁, i, l₂, hrange, hi, hnone⟩ := List.findSome?_eq_some_iff.mp h
  have hlength := congrArg List.length hrange
  rw [List.length_range, List.length_append, List.length_cons] at hlength
  have hget : ∀ j (hj : j < n), (l₁ ++ i :: l₂)[j]? = some j := fun j hj => by
    rw [← hrange, List.getElem?_range hj]
  have hi' := hget l₁.length (by omega)
  rw [List.getElem?_append_right le_rfl, Nat.sub_self, List.getElem?_cons_zero] at hi'
  obtain rfl := Option.some.inj hi'
  refine ⟨l₁.length, by omega, hi, fun j hj => hnone j ?_⟩
  have hj' := hget j (by omega)
  rw [List.getElem?_append_left hj] at hj'
  exact List.mem_of_getElem? hj'

variable {space : Nat → Nat → Nat → Nat → UInt32} {vendorId deviceId : UInt16}

instance (place : Nat × Nat) : Decidable (HasCard space vendorId deviceId place) :=
  inferInstanceAs (Decidable (_ ∧ _))

def cardIn (space : Nat → Nat → Nat → Nat → UInt32) (vendorId deviceId : UInt16)
    (place : Nat × Nat) : PciDevice :=
  ⟨.ofNat place.1, .ofNat place.2, 0, vendorId, deviceId, space place.1 place.2 0 4⟩

theorem eq_iff_slice (shift val : UInt32) (id : UInt16) :
    (val >>> shift &&& 0xFFFF).toUInt16 = id ↔
      slice (shift.toNat % 32) 16 val.toNat = id.toNat := by
  have hslice : (val >>> shift &&& 0xFFFF).toUInt16.toNat =
      slice (shift.toNat % 32) 16 val.toNat := by
    rw [UInt32.toNat_toUInt16, UInt32.toNat_and, UInt32.toNat_shiftRight]
    exact shiftRight_and_mod val.toNat (shift.toNat % 32) 16
  rw [← UInt16.toNat_inj, hslice]

theorem scan_slot (space : Nat → Nat → Nat → Nat → UInt32) (vendorId deviceId : UInt16)
    {bus slot : Nat} (hbus : bus < 256) (hslot : slot < 32) :
    (let val := pciReadConfig (bridge space) (.ofNat bus) (.ofNat slot) 0 0
      let vId := (val &&& 0xFFFF).toUInt16
      let dId := ((val >>> 16) &&& 0xFFFF).toUInt16
      if vId = vendorId ∧ dId = deviceId then
        some (PciDevice.mk (.ofNat bus) (.ofNat slot) 0 vId dId
          (pciReadConfig (bridge space) (.ofNat bus) (.ofNat slot) 0 0x10))
      else none) =
    if HasCard space vendorId deviceId (bus, slot) then
      some (cardIn space vendorId deviceId (bus, slot)) else none := by
  have hbus' : (UInt8.ofNat bus).toNat = bus := UInt8.toNat_ofNat_of_lt' hbus
  have hslot' : (UInt8.ofNat slot).toNat = slot :=
    UInt8.toNat_ofNat_of_lt' (hslot.trans (by decide))
  have hread (offset : UInt8) : pciReadConfig (bridge space) (.ofNat bus) (.ofNat slot) 0 offset =
      space bus slot 0 (offset.toNat / 4) := by
    rw [pciReadConfig_bridge space _ _ (by rw [hslot']; exact hslot) (by decide), hbus', hslot']
    rfl
  have hcard : ((space bus slot 0 0 &&& 0xFFFF).toUInt16 = vendorId ∧
      (space bus slot 0 0 >>> 16 &&& 0xFFFF).toUInt16 = deviceId) ↔
        HasCard space vendorId deviceId (bus, slot) :=
    and_congr (eq_iff_slice 0 _ vendorId) (eq_iff_slice 16 _ deviceId)
  have hval : pciReadConfig (bridge space) (.ofNat bus) (.ofNat slot) 0 0 = space bus slot 0 0 :=
    hread 0
  have hbar : pciReadConfig (bridge space) (.ofNat bus) (.ofNat slot) 0 0x10 = space bus slot 0 4 :=
    hread 0x10
  dsimp only
  rw [hval, hbar]
  by_cases h : HasCard space vendorId deviceId (bus, slot)
  · obtain ⟨hvendor, hdevice⟩ := hcard.mpr h
    rw [if_pos h]
    refine (if_pos (hcard.mpr h)).trans ?_
    rw [hvendor, hdevice]
    rfl
  · rw [if_neg h]
    exact if_neg fun hfound => h (hcard.mp hfound)

theorem pciFindNetworkCard_eq : pciFindNetworkCard (bridge space) vendorId deviceId =
    (List.range 256).findSome? fun bus => (List.range 32).findSome? fun slot =>
      if HasCard space vendorId deviceId (bus, slot) then
        some (cardIn space vendorId deviceId (bus, slot)) else none := by
  refine findSome?_congr fun bus hbus => findSome?_congr fun slot hslot => ?_
  exact scan_slot space vendorId deviceId (List.mem_range.mp hbus) (List.mem_range.mp hslot)

theorem pciFindNetworkCard_eq_none : pciFindNetworkCard (bridge space) vendorId deviceId = none ↔
    ∀ bus < 256, ∀ slot < 32, ¬ HasCard space vendorId deviceId (bus, slot) := by
  rw [pciFindNetworkCard_eq]
  simp only [List.findSome?_eq_none_iff, List.mem_range, ite_eq_right_iff, reduceCtorEq, imp_false]

/-- The scan finds a card if there is one, and then the first in the order of the scan,
with the base address of that very function; of the functions it looks at the first. -/
theorem pciFindNetworkCard_spec (space : Nat → Nat → Nat → Nat → UInt32)
    (vendorId deviceId : UInt16) :
    (pciFindNetworkCard (bridge space) vendorId deviceId = none ↔
      ∀ bus < 256, ∀ slot < 32, ¬ HasCard space vendorId deviceId (bus, slot)) ∧
      ∀ d, pciFindNetworkCard (bridge space) vendorId deviceId = some d →
        ∃ bus < 256, ∃ slot < 32, d = cardIn space vendorId deviceId (bus, slot) ∧
          HasCard space vendorId deviceId (bus, slot) ∧
          ∀ bus' slot', slot' < 32 → HasCard space vendorId deviceId (bus', slot') →
            bus < bus' ∨ bus = bus' ∧ slot ≤ slot' := by
  refine ⟨pciFindNetworkCard_eq_none, fun d hd => ?_⟩
  rw [pciFindNetworkCard_eq] at hd
  obtain ⟨bus, hbus, hd, hbefore⟩ := findSome?_range_eq_some hd
  obtain ⟨slot, hslot, hd, hbefore'⟩ := findSome?_range_eq_some hd
  obtain ⟨hcard, hd⟩ := Option.ite_none_right_eq_some.mp hd
  refine ⟨bus, hbus, slot, hslot, (Option.some.inj hd).symm, hcard, fun bus' slot' hs h => ?_⟩
  rcases Nat.lt_trichotomy bus bus' with hlt | rfl | hgt
  · exact .inl hlt
  · refine .inr ⟨rfl, Nat.le_of_not_lt fun hlt => ?_⟩
    have hnone := hbefore' slot' hlt
    rw [if_pos h] at hnone
    cases hnone
  · have hnone := List.findSome?_eq_none_iff.mp (hbefore bus' hgt) slot' (List.mem_range.mpr hs)
    rw [if_pos h] at hnone
    cases hnone

theorem isSome_pciFindNetworkCard :
    (pciFindNetworkCard (bridge space) vendorId deviceId).isSome ↔
      ∃ bus < 256, ∃ slot < 32, HasCard space vendorId deviceId (bus, slot) := by
  rw [Option.isSome_iff_ne_none, ne_eq, pciFindNetworkCard_eq_none]
  push Not
  rfl

theorem EthernetDriver.init_eq (space : Nat → Nat → Nat → Nat → UInt32) (d : EthernetDriver) :
    let present (vendorId deviceId : UInt16) :=
      ∃ bus < 256, ∃ slot < 32, HasCard space vendorId deviceId (bus, slot)
    (present 0x8086 0x100E → d.init (bridge space) =
      ⟨d.macAddress, true, "Intel e1000 Gigabit NIC"⟩) ∧
      (¬ present 0x8086 0x100E → present 0x1AF4 0x1000 → d.init (bridge space) =
        ⟨d.macAddress, true, "VirtIO-Net Translucent NIC"⟩) ∧
      (¬ present 0x8086 0x100E → ¬ present 0x1AF4 0x1000 → d.init (bridge space) =
        ⟨d.macAddress, true, "QEMU Virtual Ethernet Adapter"⟩) := by
  intro present
  unfold EthernetDriver.init
  refine ⟨fun h => ?_, fun h h' => ?_, fun h h' => ?_⟩
  · rw [if_pos (isSome_pciFindNetworkCard.mpr h)]
  · rw [if_neg fun hs => h (isSome_pciFindNetworkCard.mp hs),
      if_pos (isSome_pciFindNetworkCard.mpr h')]
  · rw [if_neg fun hs => h (isSome_pciFindNetworkCard.mp hs),
      if_neg fun hs => h' (isSome_pciFindNetworkCard.mp hs)]

end AliluOS.Network
