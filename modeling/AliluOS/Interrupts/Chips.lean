import AliluOS.Kernel.Ports
import AliluOS.Lib.BitFields
import Mathlib.Logic.Function.Basic
import Mathlib.Data.Fin.Basic
import Mathlib.Data.List.FinRange

/-! The two 8259 interrupt controllers and the 8254 timer, and the writes by which
`interrupts.rs` sets them up. The chips take the commands that the kernel sends as
their data sheets say; other commands change nothing here. -/

namespace AliluOS.Interrupts
open Ports Lib BitField

def pic1Command : UInt16 := 0x20
def pic1Data : UInt16 := 0x21
def pic2Command : UInt16 := 0xA0
def pic2Data : UInt16 := 0xA1
def pitChannel0 : UInt16 := 0x40
def pitCommand : UInt16 := 0x43

def setupPic : List Out :=
  [⟨pic1Command, 0x11⟩, ⟨pic2Command, 0x11⟩, ⟨pic1Data, 0x20⟩, ⟨pic2Data, 0x28⟩,
    ⟨pic1Data, 0x04⟩, ⟨pic2Data, 0x02⟩, ⟨pic1Data, 0x01⟩, ⟨pic2Data, 0x01⟩,
    ⟨pic1Data, 0xFC⟩, ⟨pic2Data, 0xFF⟩]

def setupPit (frequency : UInt32) (_ : frequency ≠ 0) : List Out :=
  let divisor := 1193182 / frequency
  [⟨pitCommand, 0x36⟩, ⟨pitChannel0, (divisor &&& 0xFF).toUInt8⟩,
    ⟨pitChannel0, ((divisor >>> 8) &&& 0xFF).toUInt8⟩]

def initOuts : List Out := setupPic ++ setupPit 100 (by decide)

def endOfInterrupt : List Out := [⟨pic1Command, 0x20⟩]

inductive DataPort
  | mask
  | vectorOffset (cascaded icw4 : Bool)
  | cascade (icw4 : Bool)
  | mode
deriving DecidableEq

structure Pic where
  offset : Nat
  cascade : UInt8
  masked : Fin 8 → Bool
  requested : Fin 8 → Bool
  inService : Fin 8 → Bool
  dataPort : DataPort

namespace Pic

def bit (v : UInt8) (n : Nat) : Bool := v.toNat.testBit n

def highest (lines : Fin 8 → Bool) : Option (Fin 8) := (List.finRange 8).find? lines

/-- A byte with bit 4 starts the initialisation; 0x20 ends the interrupt with the
highest priority of those in service. -/
def command (p : Pic) (v : UInt8) : Pic :=
  if bit v 4 then
    { p with
      masked := fun _ => false
      requested := fun _ => false
      inService := fun _ => false
      dataPort := .vectorOffset (!bit v 1) (bit v 0) }
  else if v = 0x20 then
    match highest p.inService with
    | some n => { p with inService := Function.update p.inService n false }
    | none => p
  else p

def afterCascade (icw4 : Bool) : DataPort := if icw4 then .mode else .mask

def data (p : Pic) (v : UInt8) : Pic :=
  match p.dataPort with
  | .mask => { p with masked := fun n => bit v n }
  | .vectorOffset cascaded icw4 =>
    { p with
      offset := (v &&& 0xF8).toNat
      dataPort := if cascaded then .cascade icw4 else afterCascade icw4 }
  | .cascade icw4 => { p with cascade := v, dataPort := afterCascade icw4 }
  | .mode => { p with dataPort := .mask }

/-- The line that a controller asks service for: requested, not masked, and of a higher
priority than all that is in service. -/
def next (p : Pic) (requested : Fin 8 → Bool) : Option (Fin 8) :=
  highest fun n => requested n && !p.masked n && (List.finRange 8).all fun m =>
    !(decide (m ≤ n) && p.inService m)

def acknowledge (p : Pic) (n : Fin 8) : Pic :=
  { p with
    requested := Function.update p.requested n false
    inService := Function.update p.inService n true }

theorem highest_eq_some {lines : Fin 8 → Bool} {n : Fin 8} (h : highest lines = some n) :
    lines n = true := List.find?_some h

theorem highest_of_low {lines : Fin 8 → Bool} (h : ∀ n, 2 ≤ n → lines n = false) :
    highest lines = if lines 0 then some 0 else if lines 1 then some 1 else none := by
  have hsplit : List.finRange 8 = 0 :: 1 :: (List.finRange 8).drop 2 := by decide
  have hrest : ((List.finRange 8).drop 2).find? lines = none := by
    rw [List.find?_eq_none]
    intro n hn
    have hlow : ∀ n ∈ (List.finRange 8).drop 2, 2 ≤ n := by decide
    simp [h n (hlow n hn)]
  rw [highest, hsplit, List.find?_cons, List.find?_cons, hrest]
  cases lines 0 <;> cases lines 1 <;> rfl

theorem next_of_masked {p : Pic} (h : ∀ n, p.masked n = true) (requested : Fin 8 → Bool) :
    p.next requested = none := by
  rw [next, highest, List.find?_eq_none]
  simp [h]

theorem command_endOfInterrupt {p : Pic} {n : Fin 8}
    (h : ∀ m, p.inService m = decide (m = n)) :
    p.command 0x20 = { p with inService := fun _ => false } := by
  have hhigh : highest p.inService = some n := by
    have hsome : ∃ m, highest p.inService = some m := by
      rw [← Option.isSome_iff_exists, highest, List.find?_isSome]
      exact ⟨n, List.mem_finRange n, by simp [h]⟩
    obtain ⟨m, hm⟩ := hsome
    obtain rfl : m = n := by simpa [h] using highest_eq_some hm
    exact hm
  have hnone : Function.update p.inService n false = fun _ => false := by
    funext m
    rcases eq_or_ne m n with rfl | hmn
    · simp
    · simp [hmn, h]
  have hbit : bit 0x20 4 = false := by decide
  rw [command, hbit, hhigh]
  simp [hnone]

end Pic

/-- The slave's output is line 2 of the master. -/
structure Pics where
  master : Pic
  slave : Pic

namespace Pics

theorem neZero_lines : NeZero 8 := ⟨Nat.succ_ne_zero 7⟩

attribute [local instance] neZero_lines

def cascadeLine : Fin 8 := 2

def out (p : Pics) (o : Out) : Pics :=
  if o.port = pic1Command then { p with master := p.master.command o.value }
  else if o.port = pic1Data then { p with master := p.master.data o.value }
  else if o.port = pic2Command then { p with slave := p.slave.command o.value }
  else if o.port = pic2Data then { p with slave := p.slave.data o.value }
  else p

def lines (p : Pics) (n : Fin 8) : Bool :=
  p.master.requested n || (decide (n = cascadeLine) && (p.slave.next p.slave.requested).isSome)

inductive Source
  | master (n : Fin 8)
  | slave (n : Fin 8)
deriving DecidableEq

def next (p : Pics) : Option Source :=
  (p.master.next p.lines).bind fun n =>
    if n = cascadeLine then (p.slave.next p.slave.requested).map .slave else some (.master n)

def vector (p : Pics) : Source → Nat
  | .master n => p.master.offset + n
  | .slave n => p.slave.offset + n

def acknowledge (p : Pics) : Source → Pics
  | .master n => { p with master := p.master.acknowledge n }
  | .slave n =>
    { p with
      master := { p.master with inService := Function.update p.master.inService cascadeLine true }
      slave := p.slave.acknowledge n }

def raise (p : Pics) : Source → Pics
  | .master n =>
    { p with master := { p.master with requested := Function.update p.master.requested n true } }
  | .slave n =>
    { p with slave := { p.slave with requested := Function.update p.slave.requested n true } }

def pending (p : Pics) : Source → Bool
  | .master n => p.master.requested n
  | .slave n => p.slave.requested n

structure Ready (p : Pics) : Prop where
  master_offset : p.master.offset = 32
  slave_offset : p.slave.offset = 40
  master_masked : ∀ n, p.master.masked n = decide (2 ≤ n)
  slave_masked : ∀ n, p.slave.masked n = true
  dataPorts : p.master.dataPort = .mask ∧ p.slave.dataPort = .mask

def Idle (p : Pics) : Prop :=
  (∀ n, p.master.inService n = false) ∧ ∀ n, p.slave.inService n = false

def Serving (p : Pics) (n : Fin 8) : Prop :=
  (∀ m, p.master.inService m = decide (m = n)) ∧ ∀ m, p.slave.inService m = false

theorem initOuts_ready (p : Pics) :
    (feed out p initOuts).Ready ∧ (feed out p initOuts).Idle := by
  -- the timer's ports are foreign to the controllers
  have hpit : feed out p initOuts = feed out p setupPic := by
    rw [initOuts, feed_append]
    refine feed_of_foreign out _ fun q o ho => ?_
    simp only [setupPit, List.mem_cons, List.not_mem_nil, or_false] at ho
    rcases ho with rfl | rfl | rfl <;> rfl
  rw [hpit]
  refine ⟨⟨rfl, rfl, ?_, ?_, rfl, rfl⟩, fun _ => rfl, fun _ => rfl⟩
  · show ∀ n : Fin 8, Pic.bit 0xFC n = decide (2 ≤ n)
    decide
  · show ∀ n : Fin 8, Pic.bit 0xFF n = true
    decide

variable {p : Pics}

theorem Ready.next (h : p.Ready) (hidle : p.Idle) :
    p.next = if p.master.requested 0 then some (.master 0)
      else if p.master.requested 1 then some (.master 1) else none := by
  have hlines : p.lines = p.master.requested := by
    funext n
    simp [lines, Pic.next_of_masked h.slave_masked]
  have hmaster : p.master.next p.lines = if p.master.requested 0 then some 0
      else if p.master.requested 1 then some 1 else none := by
    rw [hlines, Pic.next, Pic.highest_of_low fun n hn => by simp [h.master_masked, hn]]
    simp [h.master_masked, hidle.1]
  rw [Pics.next, hmaster]
  split_ifs <;> rfl

theorem Ready.raise (h : p.Ready) (src : Source) : (p.raise src).Ready := by
  cases src with
  | master n => exact ⟨h.1, h.2, h.3, h.4, h.5⟩
  | slave n => exact ⟨h.1, h.2, h.3, h.4, h.5⟩

theorem Ready.acknowledge (h : p.Ready) (n : Fin 8) : (p.acknowledge (.master n)).Ready :=
  ⟨h.1, h.2, h.3, h.4, h.5⟩

theorem Idle.acknowledge (h : p.Idle) (n : Fin 8) : (p.acknowledge (.master n)).Serving n := by
  refine ⟨fun m => ?_, h.2⟩
  rcases eq_or_ne m n with rfl | hmn
  · simp [Pics.acknowledge, Pic.acknowledge]
  · simp [Pics.acknowledge, Pic.acknowledge, hmn, h.1 m]

theorem Serving.endOfInterrupt {n : Fin 8} (h : p.Serving n) :
    feed out p endOfInterrupt =
      { p with master := { p.master with inService := fun _ => false } } := by
  show { p with master := p.master.command 0x20 } = _
  rw [Pic.command_endOfInterrupt h.1]

end Pics

/-- Channel 0 of the timer: it counts down from `reload`, where 0 stands for 65536.
`low` is the first of two bytes. -/
structure Pit where
  mode : Nat
  reload : Nat
  low : Option UInt8

namespace Pit

def out (t : Pit) (o : Out) : Pit :=
  if o.port = pitCommand ∧ o.value = 0x36 then { t with mode := 3, low := none }
  else if o.port = pitChannel0 then
    match t.low with
    | none => { t with low := some o.value }
    | some low => { t with reload := low.toNat + 2 ^ 8 * o.value.toNat, low := none }
  else t

theorem setupPit_reload (t : Pit) (frequency : UInt32) (h : frequency ≠ 0) :
    feed out t (setupPit frequency h) = ⟨3, 1193182 / frequency.toNat % 2 ^ 16, none⟩ := by
  set divisor := 1193182 / frequency with hdivisor
  have hlow : (divisor &&& 0xFF).toUInt8.toNat = slice 0 8 divisor.toNat := by
    have hmask := shiftRight_and_mod divisor.toNat 0 8
    rwa [Nat.shiftRight_zero] at hmask
  have hhigh : ((divisor >>> 8) &&& 0xFF).toUInt8.toNat = slice 8 8 divisor.toNat :=
    shiftRight_and_mod divisor.toNat 8 8
  have htoNat : divisor.toNat = 1193182 / frequency.toNat := UInt32.toNat_div ..
  have hfeed : feed out t (setupPit frequency h) =
      ⟨3, (divisor &&& 0xFF).toUInt8.toNat + 2 ^ 8 * ((divisor >>> 8) &&& 0xFF).toUInt8.toNat,
        none⟩ := rfl
  rw [hfeed, hlow, hhigh, slice_add_slice 0 8 8, slice, pow_zero, Nat.div_one, htoNat]

theorem setupPit_rate (t : Pit) {frequency : UInt32} (h : frequency ≠ 0)
    (hlow : 19 ≤ frequency.toNat) :
    (feed out t (setupPit frequency h)).reload * frequency.toNat ≤ 1193182 ∧
      1193182 < ((feed out t (setupPit frequency h)).reload + 1) * frequency.toNat := by
  have hfits : 1193182 / frequency.toNat < 2 ^ 16 :=
    (Nat.div_le_div_left hlow (by decide)).trans_lt (by decide)
  rw [setupPit_reload, Nat.mod_eq_of_lt hfits]
  exact ⟨Nat.div_mul_le_self .., Nat.lt_mul_of_div_lt (Nat.lt_succ_self _) (by omega)⟩

end Pit

end AliluOS.Interrupts
