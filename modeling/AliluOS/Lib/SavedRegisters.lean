import Mathlib.Algebra.Group.Basic
import Mathlib.Data.List.Nodup
import Mathlib.Logic.Function.Basic

/-! Registers saved on a stack. The stack grows down by a step `w` for each word, in a
memory with addresses of any additive group, so also where they wrap around. What is
pushed below a word leaves it alone as long as the steps in between do not add up to 0. -/

namespace AliluOS.Lib

structure Stacked (ρ α ω : Type) where
  regs : ρ → ω
  sp : α
  mem : α → ω

namespace Stacked

variable {ρ α ω : Type} [AddCommGroup α] (w : α) {s t : Stacked ρ α ω}

def word (s : Stacked ρ α ω) (k : Nat) : ω := s.mem (s.sp + k • w)

/-- Fewer than `n` steps do not come back to where they started. -/
def Spread (n : Nat) : Prop := ∀ k, 0 < k → k < n → k • w ≠ 0

def Keeps (n : Nat) (s t : Stacked ρ α ω) : Prop :=
  t.sp = s.sp ∧ ∀ k < n, t.word w k = s.word w k

theorem Keeps.mono {w : α} {m n : Nat} (h : Keeps w n s t) (hmn : m ≤ n) : Keeps w m s t :=
  ⟨h.1, fun k hk => h.2 k (Nat.lt_of_lt_of_le hk hmn)⟩

variable [DecidableEq α]

def push (v : ω) (s : Stacked ρ α ω) : Stacked ρ α ω :=
  { s with sp := s.sp - w, mem := Function.update s.mem (s.sp - w) v }

def pushRegs (l : List ρ) (s : Stacked ρ α ω) : Stacked ρ α ω :=
  l.foldl (fun s r => s.push w (s.regs r)) s

variable {w}

@[simp] theorem word_push_zero (v : ω) (s : Stacked ρ α ω) : (s.push w v).word w 0 = v := by
  rw [word, zero_nsmul, add_zero]
  exact Function.update_self ..

theorem word_push_succ {n k : Nat} (hw : Spread w n) (hk : k + 1 < n) (v : ω) (s : Stacked ρ α ω) :
    (s.push w v).word w (k + 1) = s.word w k := by
  have haddress : s.sp - w + (k + 1) • w = s.sp + k • w := by
    rw [succ_nsmul', ← add_assoc, sub_add_cancel]
  have hne : s.sp + k • w ≠ s.sp - w := by
    intro h
    refine hw (k + 1) k.succ_pos hk ?_
    rw [← haddress] at h
    exact left_eq_add.mp h.symm
  change Function.update s.mem (s.sp - w) v (s.sp - w + (k + 1) • w) = _
  rw [haddress, Function.update_of_ne hne]
  rfl

@[simp] theorem pushRegs_cons (r : ρ) (l : List ρ) (s : Stacked ρ α ω) :
    s.pushRegs w (r :: l) = (s.push w (s.regs r)).pushRegs w l := rfl

@[simp] theorem regs_pushRegs (l : List ρ) (s : Stacked ρ α ω) :
    (s.pushRegs w l).regs = s.regs := by
  induction l generalizing s with
  | nil => rfl
  | cons r l ih => exact ih (s.push w (s.regs r))

theorem sp_pushRegs (l : List ρ) (s : Stacked ρ α ω) :
    (s.pushRegs w l).sp = s.sp - l.length • w := by
  induction l generalizing s with
  | nil => exact (by rw [List.length_nil, zero_nsmul, sub_zero]; rfl)
  | cons r l ih =>
    rw [pushRegs_cons, ih, List.length_cons, succ_nsmul', ← sub_sub]
    rfl

theorem word_pushRegs {n k : Nat} (hw : Spread w n) (l : List ρ) (hk : l.length + k < n)
    (s : Stacked ρ α ω) : (s.pushRegs w l).word w (l.length + k) = s.word w k := by
  induction l generalizing s k with
  | nil => exact congrArg _ (Nat.zero_add k)
  | cons r l ih =>
    have hlength : (r :: l).length + k = l.length + (k + 1) := by
      rw [List.length_cons]
      omega
    rw [hlength] at hk ⊢
    rw [pushRegs_cons, ih hk, word_push_succ hw (by omega)]

variable [DecidableEq ρ]

def pop (w : α) (r : ρ) (s : Stacked ρ α ω) : Stacked ρ α ω :=
  { s with regs := Function.update s.regs r (s.word w 0), sp := s.sp + w }

def popRegs (w : α) (l : List ρ) (s : Stacked ρ α ω) : Stacked ρ α ω :=
  l.foldl (fun s r => s.pop w r) s

/-- Whatever else has happened to the registers in between: those saved come back, the
others and the memory stay, and the stack pointer is where it was. -/
theorem popRegs_pushRegs {n : Nat} (hw : Spread w n) {l : List ρ} (hl : l.Nodup)
    (hn : l.length < n) (h : Keeps w l.length (s.pushRegs w l) t) :
    t.popRegs w l.reverse =
      { regs := fun r => if r ∈ l then s.regs r else t.regs r, sp := s.sp, mem := t.mem } := by
  induction l generalizing s with
  | nil =>
    obtain ⟨hsp, -⟩ := h
    cases t
    subst hsp
    simp [popRegs, pushRegs]
  | cons r l ih =>
    rw [List.length_cons] at hn h
    obtain ⟨hr, hl⟩ := List.nodup_cons.mp hl
    rw [pushRegs_cons] at h
    rw [List.reverse_cons, popRegs, List.foldl_concat, ← popRegs,
      ih hl (by omega) (h.mono (by omega))]
    -- the word of `r` is the one above those of `l`
    have hword : t.mem (s.sp - w) = s.regs r := by
      have hkept := h.2 l.length (by omega)
      rw [word, h.1, sp_pushRegs, sub_add_cancel, ← Nat.add_zero l.length,
        word_pushRegs hw l (by omega), word_push_zero] at hkept
      exact hkept
    simp only [pop, push, word, zero_nsmul, add_zero, hword, sub_add_cancel, mk.injEq, and_true]
    funext r'
    by_cases hrr : r' = r
    · subst hrr
      simp
    · simp [hrr]

theorem word_popRegs_pushRegs {n k : Nat} (hw : Spread w n) {l : List ρ} (hl : l.Nodup)
    (hn : l.length + k < n) (h : Keeps w (l.length + k + 1) (s.pushRegs w l) t) :
    (t.popRegs w l.reverse).word w k = s.word w k := by
  have hkept := h.2 (l.length + k) (Nat.lt_succ_self _)
  have haddress : t.sp + (l.length + k) • w = s.sp + k • w := by
    rw [h.1, sp_pushRegs, add_nsmul, ← add_assoc, sub_add_cancel]
  rw [word_pushRegs hw l hn, word, haddress] at hkept
  rw [popRegs_pushRegs hw hl (by omega) (h.mono (by omega))]
  exact hkept

end Stacked

end AliluOS.Lib
