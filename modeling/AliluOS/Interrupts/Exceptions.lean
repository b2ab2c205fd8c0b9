import AliluOS.Interrupts.Wrappers
import AliluOS.Kernel.Effect
import AliluOS.Vga.Printing
import Mathlib.Data.List.Range
import Mathlib.Tactic.Ring

/-! The Rust parts of the exception handlers. They report on the screen and never return,
so the code that an exception interrupts does not go on. -/

namespace AliluOS.Interrupts
open Lib Text Kernel Thread

def exceptionCalls (msg : Str) : List VgaCall :=
  [.setColor .lightRed .black, .println "\n--- CPU EXCEPTION ---", .println msg,
    .println "Halting system."]

def exceptionReport (msg : Str) : KernelM Unit := do
  lock .writer
  say (exceptionCalls msg)

def divideByZeroReport : KernelM Unit := exceptionReport "Divide by Zero Exception (0x00)"

def doubleFaultReport : KernelM Unit := exceptionReport "Double Fault Exception (0x08)"

def hexDigit (digit : UInt8) : Char :=
  if digit < 10 then Char.ofNat (48 + digit).toNat else Char.ofNat (65 + (digit - 10)).toNat

def hexDigits (temp : BitVec 64) : Str :=
  (List.range 16).reverse.map fun i =>
    hexDigit (UInt8.ofBitVec (((temp >>> (i * 4)) &&& 0xF).setWidth 8))

def pageFaultReport (faultingAddress : BitVec 64) : KernelM Unit := do
  lock .writer
  say [.setColor .lightRed .black, .println "\n--- CPU EXCEPTION ---",
    .write "Page Fault at address: 0x"]
  say ((hexDigits faultingAddress).map .putChar)
  say [.println "\nHalting system."]

def hexAlphabet : Str := "0123456789ABCDEF"

/-- The value of an upper case hexadecimal digit; no other character has one. -/
def hexValue (c : Char) : Option Nat := hexAlphabet.idxOf? c

def ofHexDigits (digits : Str) : Option Nat :=
  digits.foldlM (fun n c => (hexValue c).map (n * 16 + ·)) 0

theorem hexValue_hexDigit : ∀ d : Fin 16, hexValue (hexDigit (.ofNat d)) = some d.val := by
  decide +kernel

theorem break_notMem_hexAlphabet : '\n' ∉ hexAlphabet := by decide +kernel

theorem hexValue_mem {c : Char} {n : Nat} (h : hexValue c = some n) : c ∈ hexAlphabet := by
  by_contra hmem
  rw [hexValue, List.idxOf?_eq_none_iff.mpr hmem] at h
  cases h

theorem nibble (temp : BitVec 64) (i : Nat) :
    ∃ d : Fin 16, d.val = temp.toNat / 16 ^ i % 16 ∧
      UInt8.ofBitVec (((temp >>> (i * 4)) &&& 0xF).setWidth 8) = .ofNat d := by
  have hnibble : ((temp >>> (i * 4)) &&& 0xF).toNat = temp.toNat / 16 ^ i % 16 := by
    rw [BitVec.toNat_and, BitVec.toNat_ushiftRight, Nat.shiftRight_eq_div_pow, Nat.mul_comm i,
      Nat.pow_mul]
    exact Nat.and_two_pow_sub_one_eq_mod _ 4
  refine ⟨⟨temp.toNat / 16 ^ i % 16, Nat.mod_lt _ (by decide)⟩, rfl, ?_⟩
  apply UInt8.toNat_inj.mp
  rw [UInt8.toNat_ofBitVec, BitVec.toNat_setWidth, hnibble, UInt8.toNat_ofNat']

theorem ofHexDigits_digits (temp : BitVec 64) (n k : Nat) :
    ((List.range n).reverse.map fun i =>
      hexDigit (UInt8.ofBitVec (((temp >>> (i * 4)) &&& 0xF).setWidth 8))).foldlM
        (fun n c => (hexValue c).map (n * 16 + ·)) k =
      some (k * 16 ^ n + temp.toNat % 16 ^ n) := by
  induction n generalizing k with
  | zero => simp [Nat.mod_one]
  | succ n ih =>
    obtain ⟨d, hd, hdigit⟩ := nibble temp n
    rw [List.range_succ, List.reverse_concat, List.map_cons, List.foldlM_cons, hdigit,
      hexValue_hexDigit]
    refine (ih (k * 16 + d.val)).trans (congrArg some ?_)
    rw [hd, Nat.mod_pow_succ, Nat.pow_succ]
    ring

theorem ofHexDigits_hexDigits (temp : BitVec 64) :
    ofHexDigits (hexDigits temp) = some temp.toNat := by
  rw [ofHexDigits, hexDigits, ofHexDigits_digits, Nat.zero_mul, Nat.zero_add]
  exact congrArg some (Nat.mod_eq_of_lt temp.isLt)

theorem length_hexDigits (temp : BitVec 64) : (hexDigits temp).length = 16 := by
  rw [hexDigits, List.length_map, List.length_reverse, List.length_range]

theorem mem_hexDigits {temp : BitVec 64} {c : Char} (h : c ∈ hexDigits temp) :
    c ∈ hexAlphabet := by
  obtain ⟨i, -, rfl⟩ := List.mem_map.mp h
  obtain ⟨d, -, hdigit⟩ := nibble temp i
  rw [hdigit]
  exact hexValue_mem (hexValue_hexDigit d)

theorem break_notMem_hexDigits (temp : BitVec 64) : '\n' ∉ hexDigits temp :=
  fun h => break_notMem_hexAlphabet (mem_hexDigits h)

def faultLine (address : BitVec 64) : Str := "Page Fault at address: 0x" ++ hexDigits address

def faultCalls (address : BitVec 64) : List VgaCall :=
  [.setColor .lightRed .black, .println "\n--- CPU EXCEPTION ---",
    .write "Page Fault at address: 0x"] ++ (hexDigits address).map .putChar ++
    [.println "\nHalting system."]

theorem faultLine_fits (address : BitVec 64) :
    '\n' ∉ faultLine address ∧ (faultLine address).length ≤ 80 := by
  have hhead : '\n' ∉ "Page Fault at address: 0x".toList := by decide +kernel
  have hlength : "Page Fault at address: 0x".toList.length = 25 := by decide +kernel
  unfold faultLine
  rw [List.mem_append, List.length_append, length_hexDigits, hlength]
  exact ⟨fun h => h.elim hhead (break_notMem_hexDigits address), by decide⟩

/-- What all the reports do to the paper: a header, a line of text, and the end. -/
def reported (p : Paper) (text : Str) : Paper :=
  ((((Paper.write { p with color := 0x0C } "\n--- CPU EXCEPTION ---").newline.write
    text).newline).write "Halting system.").newline

theorem callVga_exceptionCalls (p : Paper) (msg : Str) :
    (exceptionCalls msg).foldl Paper.callVga p = reported p msg := by
  have hcolor : Paper.colorCode .lightRed .black = 0x0C := by decide
  unfold exceptionCalls reported
  simp only [List.foldl_cons, List.foldl_nil, Paper.callVga, hcolor]

theorem callVga_faultCalls (p : Paper) (address : BitVec 64) :
    (faultCalls address).foldl Paper.callVga p = reported p (faultLine address) := by
  have hdigits (q : Paper) :
      ((hexDigits address).map VgaCall.putChar).foldl Paper.callVga q =
        q.write (hexDigits address) :=
    List.foldl_map
  have hhalting (q : Paper) : q.write "\nHalting system." = q.newline.write "Halting system." := by
    have hbreak : "\nHalting system.".toList = '\n' :: "Halting system.".toList := by
      decide +kernel
    rw [hbreak, Paper.write_cons, Paper.putChar, if_pos rfl]
  have hcolor : Paper.colorCode .lightRed .black = 0x0C := by decide
  unfold faultCalls faultLine reported
  simp only [List.foldl_append, List.foldl_cons, List.foldl_nil, hdigits, Paper.callVga, hcolor,
    hhalting, Paper.write_append]

theorem cells_below (p : Paper) (hrow : p.row ≤ 24) (text : Str) (hbreak : '\n' ∉ text)
    (hfits : text.length ≤ 80) :
    let q := (p.newline.write text).newline
    2 ≤ q.row ∧ q.line = p.line + 2 ∧ q.cell p.line = p.cell p.line := by
  have hrow₁ := p.row_newline hrow
  obtain ⟨htop₂, hrow₂, -, -, hcell₂⟩ := p.newline.write_fitting hbreak (by omega)
    (by rw [Paper.column_newline, Nat.zero_add]; exact hfits)
  have hline₁ := p.line_newline
  have hline₂ : (p.newline.write text).line = p.newline.line := by
    rw [Paper.line, htop₂, hrow₂, Paper.line]
  have hrow₃ := (p.newline.write text).row_newline (by omega)
  refine ⟨by omega, ?_, ?_⟩
  · rw [Paper.line_newline, hline₂, hline₁]
  · have hbelow : p.line < (p.newline.write text).top + 25 := by
      rw [Paper.line] at hline₂
      omega
    rw [Paper.cell_newline _ hbelow]
    funext col
    rw [hcell₂, if_neg (by omega), Paper.cell_newline p (by rw [Paper.line]; omega)]

theorem line_shown {calls : List VgaCall} {text : Str}
    (hcalls : ∀ p, calls.foldl Paper.callVga p = reported p text) (hbreak : '\n' ∉ text)
    (hlength : text.length ≤ 80) (v : VGA) (hv : v.Valid) :
    let w := v.perform calls
    2 ≤ w.row ∧ ∀ i c, text[i]? = some c →
      w.cells ((w.row - 2) * 80 + i) = ⟨UInt8.ofNat c.toNat, 0x0C⟩ := by
  intro w
  have hwindow : Paper.Window _ w := (Paper.window_of v).performVga hv calls
  clear_value w
  rw [hcalls, reported] at hwindow
  -- the paper as the header leaves it
  set header := Paper.write { Paper.of v with color := 0x0C } "\n--- CPU EXCEPTION ---"
  have hheader : header.row ≤ 24 := Paper.row_write_le (Nat.le_of_lt_succ hv.row) _
  set p := header.newline
  have hrow : p.row ≤ 24 := (header.row_newline hheader).trans_le (min_le_right ..)
  have hcolumn : p.column = 0 := Paper.column_newline _
  have hcolor : p.color = 0x0C := by
    rw [Paper.color_newline, Paper.color_write]
  obtain ⟨htop₁, hrow₁, -, -, hcell₁⟩ := p.write_fitting hbreak hrow
    (by rw [hcolumn, Nat.zero_add]; exact hlength)
  obtain ⟨htwo, hline, hkept⟩ := cells_below (p.write text) (by omega) "Halting system."
    (by decide +kernel) (by decide +kernel)
  set last := (p.write text).newline.write "Halting system."
  have hlast : last.row ≤ 24 := by
    have hbelow := (p.write text).row_newline (by omega)
    exact Paper.row_write_le (by omega) _
  have hend := last.row_newline hlast
  have hline₁ : (p.write text).line = p.line := by
    rw [Paper.line, htop₁, hrow₁, Paper.line]
  rw [hline₁] at hline hkept
  refine ⟨hwindow.row ▸ htwo, fun i c hi => ?_⟩
  have hi' : i < text.length := (List.getElem?_eq_some_iff.mp hi).1
  have hplace : last.newline.top + (last.newline.row - 2) = p.line := by
    rw [Paper.line] at hline
    omega
  have hshown := hwindow.cells (last.newline.row - 2) (by unfold VGA.bufferHeight; omega) i
    (by unfold VGA.bufferWidth; omega)
  rw [hplace, hkept, hcell₁, if_pos ⟨rfl, by omega⟩, hcolumn, Nat.sub_zero, hi, hcolor,
    ← hwindow.row, Option.map_some, Option.getD_some] at hshown
  exact hshown

def beforeCall (code : List Instr) : List Instr := code.takeWhile (· ≠ .call)

namespace Machine

variable {σ : Type} {inner : Machine σ → Machine σ → Prop} {m m' : Machine σ}

def faulting (gate : Gate) (code : BitVec 64) (m : Machine σ) : Machine σ :=
  let stack := (m.enter gate (some code)).pushRegs 8 savedRegs
  { m.enter gate (some code) with
    toStacked := { stack with regs := Function.update stack.regs .rdi m.cr2 } }

theorem regs_faulting (gate : Gate) (code : BitVec 64) (m : Machine σ) :
    (m.faulting gate code).regs = Function.update m.regs .rdi m.cr2 :=
  congrArg (fun regs => Function.update regs _ _)
    (Stacked.regs_pushRegs savedRegs (m.enter gate (some code)).toStacked)

theorem statics_faulting (gate : Gate) (code : BitVec 64) (m : Machine σ) :
    (m.faulting gate code).statics = m.statics := by
  rw [faulting, enter]

theorem exec_beforeCall (gate : Gate) (code : BitVec 64) :
    exec inner (beforeCall pageFaultHandler) (m.enter gate (some code)) m' ↔
      m' = m.faulting gate code := by
  have hcode : beforeCall pageFaultHandler = savedRegs.map .push ++ [.movCr2 .rdi] := rfl
  rw [hcode, exec_append]
  simp only [exec_pushes, exec_one, exists_eq_left]
  rfl

theorem exec_pageFaultHandler (gate : Gate) (code : BitVec 64)
    (h : exec inner pageFaultHandler (m.enter gate (some code)) m') :
    ∃ returned, inner (m.faulting gate code) returned := by
  have hcode : pageFaultHandler =
      beforeCall pageFaultHandler ++ .call :: pageFaultHandler.drop 11 := rfl
  rw [hcode, exec_append] at h
  obtain ⟨n, hbefore, returned, hcall, -⟩ := h
  obtain rfl := (exec_beforeCall gate code).mp hbefore
  exact ⟨returned, hcall⟩

end Machine

theorem exceptionReport_shown {msg : Str} (hbreak : '\n' ∉ msg) (hlength : msg.length ≤ 80)
    (s : Held Lock World) (v : VGA) (hv : v.Valid) :
    (.writer ∈ s.locks → exceptionReport msg s = .error (.deadlock .writer)) ∧
      (.writer ∉ s.locks → ∃ calls, exceptionReport msg s = .ok ((), ⟨.writer :: s.locks,
        { s.state with console := s.state.console ++ calls }⟩) ∧
        let w := v.perform calls
        2 ≤ w.row ∧ ∀ i c, msg[i]? = some c →
          w.cells ((w.row - 2) * 80 + i) = ⟨UInt8.ofNat c.toNat, 0x0C⟩) := by
  unfold exceptionReport lock
  refine ⟨fun hheld => ?_, fun hfree => ⟨exceptionCalls msg, ?_,
    line_shown (callVga_exceptionCalls · msg) hbreak hlength v hv⟩⟩
  · simp only [bind, StateT.bind, if_pos hheld, Except.bind]
  · simp only [bind, StateT.bind, if_neg hfree, Except.bind]
    rfl

theorem pageFaultReport_eq (address : BitVec 64) (s : Held Lock World) (h : .writer ∉ s.locks) :
    pageFaultReport address s = .ok ((), ⟨.writer :: s.locks,
      { s.state with console := s.state.console ++ faultCalls address }⟩) := by
  unfold pageFaultReport lock
  simp only [bind, StateT.bind, if_neg h, Except.bind, say, update, List.append_assoc]
  rw [faultCalls]
  simp only [List.append_assoc]

theorem pageFaultReport_deadlock (address : BitVec 64) (s : Held Lock World)
    (h : .writer ∈ s.locks) : pageFaultReport address s = .error (.deadlock .writer) := by
  unfold pageFaultReport lock
  simp only [bind, StateT.bind, if_pos h, Except.bind]

/-- On a page fault whose frame the processor has pushed, the report is called with the
address left in `cr2`. If the code interrupted holds the guard of `WRITER`, nothing is
printed and the machine hangs; or else the sixteen digits of the address are two rows above
the cursor, whatever was on the screen. The code interrupted does not go on. -/
theorem page_fault_report (address : Routine → UInt64) (code : BitVec 64)
    (m : Machine (Held Lock World)) (v : VGA) (hv : v.Valid) :
    ∃ called : Machine (Held Lock World),
      (∀ inner, Machine.exec inner (beforeCall pageFaultHandler)
        (m.enter (gateTo address .pageFault) (some code)) called) ∧
      called.statics = m.statics ∧ called.regs = Function.update m.regs .rdi m.cr2 ∧
      (∀ inner m', Machine.exec inner pageFaultHandler
        (m.enter (gateTo address .pageFault) (some code)) m' → ∃ returned, inner called returned) ∧
      (.writer ∈ m.statics.locks →
        pageFaultReport (called.regs .rdi) called.statics = .error (.deadlock .writer)) ∧
      (.writer ∉ m.statics.locks → ∃ calls, ∃ digits : Str,
        pageFaultReport (called.regs .rdi) called.statics = .ok ((), ⟨.writer :: m.statics.locks,
          { m.statics.state with console := m.statics.state.console ++ calls }⟩) ∧
        digits.length = 16 ∧ (∀ c ∈ digits, c ∈ "0123456789ABCDEF".toList) ∧
        ofHexDigits digits = some m.cr2.toNat ∧
        let w := v.perform calls
        2 ≤ w.row ∧ ∀ i c, ("Page Fault at address: 0x".toList ++ digits)[i]? = some c →
          w.cells ((w.row - 2) * 80 + i) = ⟨UInt8.ofNat c.toNat, 0x0C⟩) := by
  have hrdi : (m.faulting (gateTo address .pageFault) code).regs .rdi = m.cr2 := by
    rw [Machine.regs_faulting, Function.update_self]
  refine ⟨m.faulting (gateTo address .pageFault) code,
    fun inner => (Machine.exec_beforeCall _ _).mpr rfl, Machine.statics_faulting ..,
    Machine.regs_faulting .., fun inner m' => Machine.exec_pageFaultHandler _ _,
    fun hheld => ?_, fun hfree => ?_⟩
  · rw [Machine.statics_faulting]
    exact pageFaultReport_deadlock _ _ hheld
  · rw [Machine.statics_faulting, hrdi]
    exact ⟨faultCalls m.cr2, hexDigits m.cr2, pageFaultReport_eq _ _ hfree,
      length_hexDigits _, fun c => mem_hexDigits, ofHexDigits_hexDigits _,
      line_shown (callVga_faultCalls · _) (faultLine_fits _).1 (faultLine_fits _).2 v hv⟩

theorem page_fault_report_dead :
    ∃ calls, ∃ digits : Str, ofHexDigits digits = some 0xDEADBEEF ∧
      let w := (VGA.new fun _ => ⟨0, 0⟩).perform calls
      ∀ i c, ("Page Fault at address: 0x".toList ++ digits)[i]? = some c →
        w.cells ((w.row - 2) * 80 + i) = ⟨UInt8.ofNat c.toNat, 0x0C⟩ := by
  let m : Machine (Held Lock World) :=
    ⟨⟨fun _ => 0, 0x8000, fun _ => 0⟩, 0x1000, 8, 0x202, 0x10, 0xDEADBEEF,
      ⟨[], ⟨.new, .new, [], [], 0⟩⟩⟩
  obtain ⟨called, -, -, -, -, -, hreport⟩ :=
    page_fault_report (fun _ => 0x2000) 0 m (VGA.new fun _ => ⟨0, 0⟩) ⟨by decide, by decide⟩
  obtain ⟨calls, digits, -, -, -, haddress, -, hshown⟩ := hreport (by simp [m])
  exact ⟨calls, digits, haddress, hshown⟩

end AliluOS.Interrupts
