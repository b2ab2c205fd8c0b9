import Mathlib.Algebra.BigOperators.Group.List.Basic
import Mathlib.Algebra.Order.Ring.Nat

/-! Records of bit fields packed into one number, the lowest field first. -/

namespace AliluOS.Lib

structure BitField where
  width : Nat
  value : Nat

namespace BitField

variable {f : BitField} {fs gs : List BitField}

def Fits (f : BitField) : Prop := f.value < 2 ^ f.width

def pack : List BitField → Nat
  | [] => 0
  | f :: fs => f.value + 2 ^ f.width * pack fs

def totalWidth (fs : List BitField) : Nat := (fs.map width).sum

def slice (start w n : Nat) : Nat := n / 2 ^ start % 2 ^ w

/-- `n` cut up from bit `start` on, into fields of the given widths. -/
def slices (n : Nat) : Nat → List Nat → List BitField
  | _, [] => []
  | start, w :: ws => ⟨w, slice start w n⟩ :: slices n (start + w) ws

/-- A number whose bits lie scattered over `n`: the start and the width of each piece,
the lowest piece first. -/
def gather (n : Nat) (places : List (Nat × Nat)) : Nat :=
  pack (places.map fun place => ⟨place.2, slice place.1 place.2 n⟩)

@[simp] theorem totalWidth_cons (f : BitField) (fs : List BitField) :
    totalWidth (f :: fs) = f.width + totalWidth fs := List.sum_cons

theorem shiftRight_mod (n start w : Nat) : (n >>> start) % 2 ^ w = slice start w n := by
  rw [slice, Nat.shiftRight_eq_div_pow]

theorem shiftRight_and_mod (n start w : Nat) :
    ((n >>> start) &&& (2 ^ w - 1)) % 2 ^ w = slice start w n := by
  rw [Nat.and_two_pow_sub_one_eq_mod, Nat.mod_mod, shiftRight_mod]

theorem slice_slice {start start' w w' : Nat} (h : start' + w ≤ w') (n : Nat) :
    slice start' w (slice start w' n) = slice (start + start') w n := by
  obtain ⟨k, rfl⟩ := Nat.exists_eq_add_of_le h
  rw [slice, slice, slice, Nat.add_assoc, pow_add 2 start', Nat.mod_mul_right_div_self,
    pow_add 2 w, Nat.mod_mul_right_mod, Nat.div_div_eq_div_mul, ← pow_add]

theorem slice_add_slice (start w w' n : Nat) :
    slice start w n + 2 ^ w * slice (start + w) w' n = slice start (w + w') n := by
  rw [slice, slice, slice, pow_add, pow_add, ← Nat.div_div_eq_div_mul]
  exact (Nat.mod_mul ..).symm

theorem pack_append (fs gs : List BitField) :
    pack (fs ++ gs) = pack fs + 2 ^ totalWidth fs * pack gs := by
  induction fs with
  | nil => simp [pack, totalWidth]
  | cons f fs ih =>
    rw [List.cons_append, pack, pack, ih, totalWidth_cons, pow_add, Nat.mul_add, Nat.add_assoc,
      Nat.mul_assoc]

theorem pack_lt (h : ∀ f ∈ fs, f.Fits) : pack fs < 2 ^ totalWidth fs := by
  induction fs with
  | nil => simp [pack, totalWidth]
  | cons f fs ih =>
    obtain ⟨hf, hfs⟩ := List.forall_mem_cons.mp h
    calc pack (f :: fs) < 2 ^ f.width + 2 ^ f.width * pack fs := Nat.add_lt_add_right hf _
      _ = 2 ^ f.width * (pack fs + 1) := by rw [Nat.mul_add, Nat.mul_one, Nat.add_comm]
      _ ≤ 2 ^ f.width * 2 ^ totalWidth fs := Nat.mul_le_mul_left _ (ih hfs)
      _ = 2 ^ totalWidth (f :: fs) := by rw [totalWidth_cons, pow_add]

theorem slice_pack (hfs : ∀ g ∈ fs, g.Fits) (hf : f.Fits) (gs : List BitField) :
    slice (totalWidth fs) f.width (pack (fs ++ f :: gs)) = f.value := by
  rw [slice, pack_append, Nat.add_mul_div_left _ _ (Nat.two_pow_pos _),
    Nat.div_eq_of_lt (pack_lt hfs), Nat.zero_add, pack, Nat.add_mul_mod_self_left]
  exact Nat.mod_eq_of_lt hf

theorem slice_pack_get (h : ∀ f ∈ fs, f.Fits) (i : Fin fs.length) :
    slice (totalWidth (fs.take i)) (fs.get i).width (pack fs) = (fs.get i).value := by
  have hsplit : fs = fs.take i ++ fs.get i :: fs.drop (i + 1) := by simp
  have hbelow : ∀ g ∈ fs.take i, g.Fits := fun g hg => h g (List.mem_of_mem_take hg)
  have hread := slice_pack hbelow (h _ (fs.get_mem i)) (fs.drop (i + 1))
  rwa [← hsplit] at hread

theorem pack_cons_eq_or (hf : f.Fits) (fs : List BitField) :
    pack (f :: fs) = pack fs <<< f.width ||| f.value := by
  rw [← Nat.shiftLeft_add_eq_or_of_lt hf, pack, Nat.shiftLeft_eq, Nat.add_comm, Nat.mul_comm]

theorem pack_slices (n start : Nat) (ws : List Nat) :
    pack (slices n start ws) = n / 2 ^ start % 2 ^ ws.sum := by
  induction ws generalizing start with
  | nil => simp [slices, pack, Nat.mod_one]
  | cons w ws ih =>
    rw [slices, pack, ih, slice, List.sum_cons, pow_add, pow_add, ← Nat.div_div_eq_div_mul]
    exact (Nat.mod_mul ..).symm

theorem pack_slices_of_lt {n : Nat} {w : List Nat} (h : n < 2 ^ w.sum) :
    pack (slices n 0 w) = n := by
  rw [pack_slices, pow_zero, Nat.div_one, Nat.mod_eq_of_lt h]

end BitField

end AliluOS.Lib
