import AliluOS.Interrupts.Vectors
import AliluOS.Lib.SavedRegisters
import Mathlib.Data.BitVec
import Mathlib.Tactic.Abel

/-! The naked functions that the gates lead to. They save the registers that a function of
the C calling convention may change, call the Rust part and restore them. -/

namespace AliluOS.Interrupts
open Lib

inductive Reg
  | rax | rbx | rcx | rdx | rsi | rdi | rbp
  | r8 | r9 | r10 | r11 | r12 | r13 | r14 | r15
deriving DecidableEq

inductive Instr
  | push (r : Reg)
  | pop (r : Reg)
  /-- `mov r, cr2`. -/
  | movCr2 (r : Reg)
  /-- `call {rust_handler}`. -/
  | call
  /-- `add rsp, n`. -/
  | addRsp (n : BitVec 64)
  | iretq
deriving DecidableEq

def exceptionHandler : List Instr :=
  [.push .rax, .push .rcx, .push .rdx, .push .rsi, .push .rdi,
    .push .r8, .push .r9, .push .r10, .push .r11,
    .call,
    .pop .r11, .pop .r10, .pop .r9, .pop .r8, .pop .rdi,
    .pop .rsi, .pop .rdx, .pop .rcx, .pop .rax,
    .iretq]

def divideByZeroHandler : List Instr := exceptionHandler

def doubleFaultHandler : List Instr := exceptionHandler

def pageFaultHandler : List Instr :=
  [.push .rax, .push .rcx, .push .rdx, .push .rsi, .push .rdi,
    .push .r8, .push .r9, .push .r10, .push .r11,
    .movCr2 .rdi,
    .call,
    .pop .r11, .pop .r10, .pop .r9, .pop .r8, .pop .rdi,
    .pop .rsi, .pop .rdx, .pop .rcx, .pop .rax,
    .addRsp 8,
    .iretq]

def timerInterruptHandler : List Instr :=
  [.push .rax, .push .rcx, .push .rdx, .push .rsi, .push .rdi,
    .push .r8, .push .r9, .push .r10, .push .r11,
    .call,
    .pop .r11, .pop .r10, .pop .r9, .pop .r8, .pop .rdi,
    .pop .rsi, .pop .rdx, .pop .rcx, .pop .rax,
    .iretq]

def keyboardInterruptHandler : List Instr :=
  [.push .rax, .push .rcx, .push .rdx, .push .rsi, .push .rdi,
    .push .r8, .push .r9, .push .r10, .push .r11,
    .call,
    .pop .r11, .pop .r10, .pop .r9, .pop .r8, .pop .rdi,
    .pop .rsi, .pop .rdx, .pop .rcx, .pop .rax,
    .iretq]

def Routine.code : Routine → List Instr
  | .divideByZero => divideByZeroHandler
  | .doubleFault => doubleFaultHandler
  | .pageFault => pageFaultHandler
  | .timer => timerInterruptHandler
  | .keyboard => keyboardInterruptHandler

def Routine.pushesErrorCode : Routine → Bool
  | .doubleFault | .pageFault => true
  | _ => false

/-- Words of the stack lie at multiples of 8. The position in the handler's code is what is
left of its instructions, so `rip` is only of use before and after. -/
structure Machine (σ : Type) extends Stacked Reg (BitVec 64) (BitVec 64) where
  rip : BitVec 64
  cs : BitVec 64
  rflags : BitVec 64
  ss : BitVec 64
  cr2 : BitVec 64
  /-- The kernel's statics. -/
  statics : σ

namespace Machine

variable {σ : Type}

def maskedFlags : BitVec 64 := 0x34300

/-- To a gate of ring 0, from ring 0: the stack is aligned before the frame. -/
def enter (gate : Gate) (errorCode : Option (BitVec 64)) (m : Machine σ) : Machine σ :=
  let stack := { m.toStacked with sp := m.sp - m.sp % 16 }
  let stack := ((((stack.push 8 m.ss).push 8 m.sp).push 8 m.rflags).push 8 m.cs).push 8 m.rip
  { m with
    toStacked := match errorCode with
      | some code => stack.push 8 code
      | none => stack
    rip := .ofNat 64 gate.offset
    cs := .ofNat 64 gate.selector
    rflags := m.rflags &&& ~~~maskedFlags }

/-- One instruction, where `inner` tells what the function called may do until it returns. -/
def instr (inner : Machine σ → Machine σ → Prop) : Instr → Machine σ → Machine σ → Prop
  | .push r, m, m' => m' = { m with toStacked := m.push 8 (m.regs r) }
  | .pop r, m, m' => m' = { m with toStacked := m.pop 8 r }
  | .movCr2 r, m, m' => m' = { m with regs := Function.update m.regs r m.cr2 }
  | .call, m, m' => inner m m'
  | .addRsp n, m, m' => m' = { m with sp := m.sp + n }
  | .iretq, m, m' =>
    m' = { m with
      rip := m.word 8 0
      cs := m.word 8 1
      rflags := m.word 8 2
      sp := m.word 8 3
      ss := m.word 8 4 }

def exec (inner : Machine σ → Machine σ → Prop) : List Instr → Machine σ → Machine σ → Prop
  | [], m, m' => m' = m
  | i :: code, m, m' => ∃ n, instr inner i m n ∧ exec inner code n m'

def calleeSaved : List Reg := [.rbx, .rbp, .r12, .r13, .r14, .r15]

/-- The C calling convention, for a function without arguments: called with an aligned
stack, it leaves the stack above it as it was, here `depth` words of it. -/
def CallingConvention (depth : Nat) (inner : Machine σ → Machine σ → Prop) : Prop :=
  ∀ m m', inner m m' → m.sp % 16 = 0 → Stacked.Keeps 8 depth m.toStacked m'.toStacked ∧
    ∀ r ∈ calleeSaved, m'.regs r = m.regs r

variable {inner : Machine σ → Machine σ → Prop} {m m' : Machine σ}

theorem exec_one {i : Instr} : exec inner [i] m m' ↔ instr inner i m m' := exists_eq_right'

theorem exec_append {code code' : List Instr} :
    exec inner (code ++ code') m m' ↔ ∃ n, exec inner code m n ∧ exec inner code' n m' := by
  induction code generalizing m with
  | nil => simp [exec]
  | cons i code ih =>
    simp only [List.cons_append, exec, ih]
    constructor
    · rintro ⟨n, hi, n', hcode, hcode'⟩
      exact ⟨n', ⟨n, hi, hcode⟩, hcode'⟩
    · rintro ⟨n', ⟨n, hi, hcode⟩, hcode'⟩
      exact ⟨n, hi, n', hcode, hcode'⟩

theorem exec_pushes {l : List Reg} :
    exec inner (l.map .push) m m' ↔ m' = { m with toStacked := m.pushRegs 8 l } := by
  induction l generalizing m with
  | nil => rfl
  | cons r l ih =>
    rw [List.map_cons, exec]
    simp only [instr, exists_eq_left, ih]
    rfl

theorem exec_pops {l : List Reg} :
    exec inner (l.map .pop) m m' ↔ m' = { m with toStacked := m.popRegs 8 l } := by
  induction l generalizing m with
  | nil => rfl
  | cons r l ih =>
    rw [List.map_cons, exec]
    simp only [instr, exists_eq_left, ih]
    rfl

def savedRegs : List Reg := [.rax, .rcx, .rdx, .rsi, .rdi, .r8, .r9, .r10, .r11]

theorem nodup_savedRegs : savedRegs.Nodup := by decide

theorem saved_or_calleeSaved (r : Reg) : r ∈ savedRegs ∨ r ∈ calleeSaved := by
  cases r <;> decide

theorem exec_exceptionHandler :
    exec inner exceptionHandler m m' ↔
      ∃ n, inner { m with toStacked := m.pushRegs 8 savedRegs } n ∧
        instr inner .iretq { n with toStacked := n.popRegs 8 savedRegs.reverse } m' := by
  have hcode : exceptionHandler =
      savedRegs.map .push ++ ([.call] ++ (savedRegs.reverse.map .pop ++ [.iretq])) := rfl
  rw [hcode]
  simp only [exec_append, exec_one, exec_pushes, exec_pops, exists_eq_left]
  rfl

theorem spread_words : Stacked.Spread (8 : BitVec 64) (2 ^ 61) := by
  intro k hpos hk h
  have hnat := congrArg BitVec.toNat h
  rw [nsmul_eq_mul, BitVec.toNat_mul, BitVec.natCast_eq_ofNat, BitVec.toNat_ofNat] at hnat
  simp only [BitVec.reduceToNat] at hnat
  omega

def aligned (m : Machine σ) : Stacked Reg (BitVec 64) (BitVec 64) :=
  { m.toStacked with sp := m.sp - m.sp % 16 }

theorem sp_aligned (m : Machine σ) : m.aligned.sp % 16 = 0 := by
  rw [aligned]
  apply BitVec.eq_of_toNat_eq
  rw [BitVec.toNat_umod, BitVec.toNat_sub, BitVec.toNat_umod]
  simp only [BitVec.reduceToNat]
  omega

theorem sp_add_aligned (hsp : m.sp % 8 = 0) :
    ∃ shift ≤ 1, ∀ k, m.aligned.sp + (shift + k) • 8 = m.sp + k • 8 := by
  have hgap : ∃ shift ≤ 1, shift • (8 : BitVec 64) = m.sp % 16 := by
    have hnat := congrArg BitVec.toNat hsp
    rw [BitVec.toNat_umod] at hnat
    simp only [BitVec.reduceToNat] at hnat
    by_cases hzero : m.sp.toNat % 16 = 0
    · refine ⟨0, Nat.zero_le 1, BitVec.eq_of_toNat_eq ?_⟩
      rw [BitVec.toNat_umod]
      exact hzero.symm
    · refine ⟨1, le_rfl, BitVec.eq_of_toNat_eq ?_⟩
      rw [BitVec.toNat_umod]
      change 8 = m.sp.toNat % 16
      omega
  obtain ⟨shift, hshift, hgap⟩ := hgap
  refine ⟨shift, hshift, fun k => ?_⟩
  change m.sp - m.sp % 16 + (shift + k) • 8 = m.sp + k • 8
  rw [add_nsmul, hgap, ← add_assoc, sub_add_cancel]

theorem words_enter (gate : Gate) (m : Machine σ) :
    (m.enter gate none).word 8 0 = m.rip ∧ (m.enter gate none).word 8 1 = m.cs ∧
      (m.enter gate none).word 8 2 = m.rflags ∧ (m.enter gate none).word 8 3 = m.sp ∧
      (m.enter gate none).word 8 4 = m.ss ∧
      ∀ k, k + 5 < 2 ^ 61 → (m.enter gate none).word 8 (k + 5) = m.aligned.word 8 k := by
  have hsucc {k : Nat} (hk : k + 1 < 2 ^ 61) (v : BitVec 64)
      (s : Stacked Reg (BitVec 64) (BitVec 64)) : (s.push 8 v).word 8 (k + 1) = s.word 8 k :=
    Stacked.word_push_succ spread_words hk v s
  refine ⟨Stacked.word_push_zero .., ?_, ?_, ?_, ?_, fun k hk => ?_⟩
  · exact (hsucc (by decide) ..).trans (Stacked.word_push_zero ..)
  · exact (hsucc (by decide) ..).trans <| (hsucc (by decide) ..).trans (Stacked.word_push_zero ..)
  · exact (hsucc (by decide) ..).trans <| (hsucc (by decide) ..).trans <|
      (hsucc (by decide) ..).trans (Stacked.word_push_zero ..)
  · exact (hsucc (by decide) ..).trans <| (hsucc (by decide) ..).trans <|
      (hsucc (by decide) ..).trans <| (hsucc (by decide) ..).trans (Stacked.word_push_zero ..)
  · exact (hsucc hk ..).trans <| (hsucc (by omega) ..).trans <| (hsucc (by omega) ..).trans <|
      (hsucc (by omega) ..).trans (hsucc (by omega) ..)

def calling (gate : Gate) (m : Machine σ) : Machine σ :=
  { m.enter gate none with toStacked := (m.enter gate none).pushRegs 8 savedRegs }

theorem regs_calling (gate : Gate) (m : Machine σ) : (m.calling gate).regs = m.regs :=
  Stacked.regs_pushRegs savedRegs (m.enter gate none).toStacked

def interruptFlag : BitVec 64 := 0x200

theorem statics_calling (gate : Gate) (m : Machine σ) : (m.calling gate).statics = m.statics := by
  rw [calling, enter]

theorem rflags_calling (gate : Gate) (m : Machine σ) :
    (m.calling gate).rflags &&& interruptFlag = 0 := by
  have hrflags : (m.calling gate).rflags = m.rflags &&& ~~~maskedFlags := rfl
  have hmask : ~~~maskedFlags &&& interruptFlag = 0#64 := rfl
  rw [hrflags, BitVec.and_assoc, hmask, BitVec.and_zero]
  rfl

theorem sp_calling (gate : Gate) (m : Machine σ) : (m.calling gate).sp % 16 = 0 := by
  have hsp : (m.calling gate).sp = m.aligned.sp - 8 - 8 - 8 - 8 - 8 - 9 • 8 :=
    Stacked.sp_pushRegs savedRegs _
  have haligned := congrArg BitVec.toNat m.sp_aligned
  rw [BitVec.toNat_umod] at haligned
  simp only [BitVec.reduceToNat] at haligned
  have hwords : (9 • 8 : BitVec 64) = 72 := by decide
  rw [hsp, hwords]
  apply BitVec.eq_of_toNat_eq
  rw [BitVec.toNat_umod]
  simp only [BitVec.toNat_sub, BitVec.reduceToNat]
  omega

def resumed (m returned : Machine σ) : Machine σ :=
  { m with mem := returned.mem, cr2 := returned.cr2, statics := returned.statics }

variable {depth : Nat}

theorem instr_iretq (habi : CallingConvention depth inner) (hdepth : 14 ≤ depth)
    {gate : Gate} {returned : Machine σ} (hinner : inner (m.calling gate) returned) :
    instr inner .iretq { returned with toStacked := returned.popRegs 8 savedRegs.reverse } m' ↔
      m' = m.resumed returned := by
  obtain ⟨hkeeps, hregs⟩ := habi _ _ hinner (m.sp_calling gate)
  have hword : ∀ k < 5, (returned.popRegs 8 savedRegs.reverse).word 8 k =
      (m.enter gate none).word 8 k := fun k hk =>
    Stacked.word_popRegs_pushRegs spread_words nodup_savedRegs
      (by change 9 + k < _; omega) (hkeeps.mono (by change 9 + k + 1 ≤ _; omega))
  have hpops := Stacked.popRegs_pushRegs spread_words nodup_savedRegs (by decide)
    (hkeeps.mono (by change 9 ≤ _; omega))
  obtain ⟨hrip, hcs, hrflags, hsp, hss, -⟩ := m.words_enter gate
  have hback : (fun r => if r ∈ savedRegs then (m.enter gate none).regs r else returned.regs r) =
      m.regs := by
    funext r
    split_ifs with hr
    · rfl
    · exact (hregs r ((saved_or_calleeSaved r).resolve_left hr)).trans
        (congrFun (m.regs_calling gate) r)
  rw [instr, hword 0 (by decide), hword 1 (by decide), hword 2 (by decide), hword 3 (by decide),
    hword 4 (by decide), hrip, hcs, hrflags, hsp, hss, hpops, hback, resumed]

theorem exec_handler (habi : CallingConvention depth inner) (hdepth : 14 ≤ depth) (gate : Gate) :
    exec inner exceptionHandler (m.enter gate none) m' ↔
      ∃ returned, inner (m.calling gate) returned ∧ m' = m.resumed returned := by
  rw [exec_exceptionHandler]
  constructor
  · rintro ⟨returned, hinner, hiretq⟩
    exact ⟨returned, hinner, (instr_iretq habi hdepth hinner).mp hiretq⟩
  · rintro ⟨returned, hinner, hresumed⟩
    exact ⟨returned, hinner, (instr_iretq habi hdepth hinner).mpr hresumed⟩

theorem sub_add_frame {α : Type} [AddCommGroup α] (a w : α) (k : Nat) :
    a - w - w - w - w - w + (k + 5) • w = a + k • w := by
  rw [add_nsmul]
  abel

theorem word_resumed (habi : CallingConvention depth inner) (hdepth : depth ≤ 2 ^ 61)
    (hsp : m.sp % 8 = 0) {gate : Gate} {returned : Machine σ}
    (hinner : inner (m.calling gate) returned) {k : Nat} (hk : k + 15 < depth) :
    (m.resumed returned).word 8 k = m.word 8 k := by
  obtain ⟨shift, hshift, haddress⟩ := sp_add_aligned hsp
  obtain ⟨hkeeps, -⟩ := habi _ _ hinner (m.sp_calling gate)
  obtain ⟨-, -, -, -, -, hbehind⟩ := m.words_enter gate
  have hpopped : (returned.popRegs 8 savedRegs.reverse).word 8 (shift + k + 5) =
      (m.enter gate none).word 8 (shift + k + 5) :=
    Stacked.word_popRegs_pushRegs spread_words nodup_savedRegs
      (by change 9 + _ < _; omega) (hkeeps.mono (by change 9 + _ + 1 ≤ _; omega))
  have hpops := Stacked.popRegs_pushRegs spread_words nodup_savedRegs (by decide)
    (hkeeps.mono (by change 9 ≤ _; omega))
  have hframe : (m.enter gate none).sp + (shift + k + 5) • 8 = m.sp + k • 8 := by
    have henter : (m.enter gate none).sp = m.aligned.sp - 8 - 8 - 8 - 8 - 8 := rfl
    rw [← haddress k, henter]
    exact sub_add_frame ..
  rw [hbehind _ (by omega), Stacked.word, Stacked.word, haddress, hpops] at hpopped
  change returned.mem ((m.enter gate none).sp + _) = _ at hpopped
  rw [hframe] at hpopped
  exact hpopped

/-- A handler that is entered without an error code, over any function that keeps to the
calling convention: the function is called with an aligned stack, interrupts masked and
the registers of the interrupted code; and when it returns, the interrupted code goes on
with the registers, flags and stack it had. What else the function has done is all that
is left of the interrupt. -/
theorem handler_transparent (habi : CallingConvention depth inner) (hdepth : 14 ≤ depth)
    (hdepth' : depth ≤ 2 ^ 61) {h : Routine} (hcode : h.pushesErrorCode = false)
    (address : Routine → UInt64) (m : Machine σ) (hsp : m.sp % 8 = 0) :
    ∃ called : Machine σ, called.regs = m.regs ∧ called.statics = m.statics ∧
      called.sp % 16 = 0 ∧ called.rflags &&& interruptFlag = 0 ∧
      ∀ m', (exec inner h.code (m.enter (gateTo address h) none) m' ↔
        ∃ returned, inner called returned ∧ m' = { m with
          mem := returned.mem, cr2 := returned.cr2, statics := returned.statics }) ∧
        (exec inner h.code (m.enter (gateTo address h) none) m' →
          ∀ k, k + 15 < depth → m'.word 8 k = m.word 8 k) := by
  have hhandler : h.code = exceptionHandler := by
    cases h with
    | divideByZero | timer | keyboard => rfl
    | doubleFault | pageFault => cases hcode
  refine ⟨m.calling (gateTo address h), m.regs_calling _, m.statics_calling _,
    m.sp_calling _, m.rflags_calling _, fun m' => ?_⟩
  rw [hhandler, exec_handler habi hdepth]
  refine ⟨Iff.rfl, ?_⟩
  rintro ⟨returned, hinner, rfl⟩ k hk
  exact word_resumed habi hdepth' hsp hinner hk

theorem handler_transparent_tick :
    let inner := fun m m' : Machine Nat =>
      m' = { m with regs := Function.update m.regs .rax 0, statics := m.statics + 1 }
    let m : Machine Nat := ⟨⟨fun _ => 7, 0x8000, fun _ => 0⟩, 0x1000, 8, 0x202, 0x10, 0, 0⟩
    ∃ m', exec inner timerInterruptHandler (m.enter (gateTo (fun _ => 0x2000) .timer) none) m' ∧
      m'.regs .rax = 7 ∧ m'.rip = 0x1000 ∧ m'.statics = 1 := by
  intro inner m
  have habi : CallingConvention 20 inner := by
    rintro n _ rfl -
    refine ⟨⟨rfl, fun _ _ => rfl⟩, fun r hr => Function.update_of_ne ?_ ..⟩
    rintro rfl
    exact absurd hr (by decide)
  obtain ⟨called, -, hstatics, -, -, hexec⟩ :=
    handler_transparent habi (by decide) (by decide) (h := .timer) rfl (fun _ => 0x2000) m
      (by decide)
  exact ⟨_, (hexec _).1.mpr ⟨_, rfl, rfl⟩, rfl, rfl, congrArg Nat.succ hstatics⟩

end Machine

end AliluOS.Interrupts
