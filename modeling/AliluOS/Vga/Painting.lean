import AliluOS.Vga.Terminal

/-! Screens that are painted by `put_char_at` in changing colours. -/

namespace AliluOS
open Kernel Lib Text

namespace Painting

def Paints : VgaCall → Prop
  | .setColor _ _ | .putCharAt _ _ _ => True
  | _ => False

instance : DecidablePred Paints
  | .setColor _ _ | .putCharAt _ _ _ => .isTrue trivial
  | .clear | .write _ | .println _ | .putChar _ | .backspace => .isFalse id

def recolor (color : UInt8) : VgaCall → UInt8
  | .setColor fg bg => (bg.code <<< 4) ||| fg.code
  | _ => color

def dots (color : UInt8) : List VgaCall → List ((Nat × Nat) × Cell)
  | [] => []
  | .putCharAt row col c :: calls =>
    ((row, col), ⟨UInt8.ofNat c.toNat, color⟩) :: dots color calls
  | call :: calls => dots (recolor color call) calls

def places (calls : List VgaCall) : List (Nat × Nat) :=
  calls.filterMap fun
    | .putCharAt row col _ => some (row, col)
    | _ => none

variable {v : VGA} {calls : List VgaCall} {color : UInt8} {row col : Nat} {x : Cell}

@[simp] theorem places_nil : places [] = [] := rfl

@[simp] theorem places_setColor (fg bg : Color) (calls : List VgaCall) :
    places (.setColor fg bg :: calls) = places calls := rfl

@[simp] theorem places_putCharAt (row col : Nat) (c : Char) (calls : List VgaCall) :
    places (.putCharAt row col c :: calls) = (row, col) :: places calls := rfl

@[simp] theorem places_append (calls more : List VgaCall) :
    places (calls ++ more) = places calls ++ places more := List.filterMap_append

theorem places_flatMap {α : Type} (items : List α) (f : α → List VgaCall) :
    places (items.flatMap f) = items.flatMap fun i => places (f i) := by
  induction items with
  | nil => rfl
  | cons i items ih => rw [List.flatMap_cons, places_append, ih, List.flatMap_cons]

theorem dots_append (color : UInt8) (calls more : List VgaCall) :
    dots color (calls ++ more) = dots color calls ++ dots (calls.foldl recolor color) more := by
  induction calls generalizing color with
  | nil => rfl
  | cons call calls ih =>
    cases call with
    | putCharAt row col c => exact congrArg (List.cons _) (ih color)
    | _ => exact ih _

theorem mem_dots_append_left {p : (Nat × Nat) × Cell} {more : List VgaCall}
    (h : p ∈ dots color calls) : p ∈ dots color (calls ++ more) := by
  rw [dots_append]
  exact List.mem_append_left _ h

theorem mem_dots_append_right {p : (Nat × Nat) × Cell} {more : List VgaCall}
    (h : ∀ color, p ∈ dots color more) : p ∈ dots color (calls ++ more) := by
  rw [dots_append]
  exact List.mem_append_right _ (h _)

theorem mem_dots_puts (color : UInt8) {c : Char}
    (hputs : ∀ call ∈ calls, ∃ r k d, call = .putCharAt r k d) (h : .putCharAt row col c ∈ calls) :
    ((row, col), ⟨UInt8.ofNat c.toNat, color⟩) ∈ dots color calls := by
  induction calls with
  | nil => cases h
  | cons call calls ih =>
    obtain ⟨⟨r, k, d, rfl⟩, hrest⟩ := List.forall_mem_cons.mp hputs
    rcases List.mem_cons.mp h with heq | hmem
    · obtain ⟨rfl, rfl, rfl⟩ := VgaCall.putCharAt.inj heq
      exact List.mem_cons_self
    · exact List.mem_cons_of_mem _ (ih hrest hmem)

theorem mem_dots_flatMap {α : Type} {items : List α} {f : α → List VgaCall} {i : α}
    {p : (Nat × Nat) × Cell} (hi : i ∈ items) (h : ∀ color, p ∈ dots color (f i)) :
    p ∈ dots color (items.flatMap f) := by
  obtain ⟨before, after, rfl⟩ := List.append_of_mem hi
  rw [List.flatMap_append, List.flatMap_cons]
  exact mem_dots_append_right fun color => mem_dots_append_left (h color)

def fresh (mask : Nat) : List Nat → Bool
  | [] => true
  | n :: ns => !mask.testBit n && fresh (mask ||| 2 ^ n) ns

theorem nodup_of_fresh {mask : Nat} {ns : List Nat} (h : fresh mask ns = true) :
    ns.Nodup ∧ ∀ n ∈ ns, mask.testBit n = false := by
  induction ns generalizing mask with
  | nil => simp
  | cons n ns ih =>
    simp only [fresh, Bool.and_eq_true, Bool.not_eq_true'] at h
    obtain ⟨hnodup, hrest⟩ := ih h.2
    simp only [Nat.testBit_or, Bool.or_eq_false_iff] at hrest
    refine ⟨List.nodup_cons.mpr ⟨fun hn => ?_, hnodup⟩, ?_⟩
    · simpa using (hrest n hn).2
    · exact List.forall_mem_cons.mpr ⟨h.1, fun k hk => (hrest k hk).1⟩

theorem perform_cons (v : VGA) (call : VgaCall) (calls : List VgaCall) :
    v.perform (call :: calls) = (v.call call).perform calls := rfl

theorem cells_putCharAt_ne {c : Char} {r k : Nat} (hcol : col < VGA.bufferWidth)
    (hne : (r, k) ≠ (row, col)) : (v.putCharAt r k c).cells (row * VGA.bufferWidth + col) =
      v.cells (row * VGA.bufferWidth + col) := by
  unfold VGA.putCharAt
  split_ifs with hout
  · rfl
  · rw [VGA.writeCell]
    refine Function.update_of_ne (fun heq => hne ?_) _ _
    obtain ⟨rfl, rfl⟩ := (VGA.position_inj hcol (by omega)).mp heq
    rfl

theorem cells_of_notMem (hpaints : ∀ c ∈ calls, Paints c) (hcol : col < VGA.bufferWidth)
    (hnot : (row, col) ∉ places calls) :
    (v.perform calls).cells (row * VGA.bufferWidth + col) =
      v.cells (row * VGA.bufferWidth + col) := by
  induction calls generalizing v with
  | nil => rfl
  | cons call calls ih =>
    obtain ⟨hcall, hrest⟩ := List.forall_mem_cons.mp hpaints
    rw [perform_cons]
    cases call with
    | setColor fg bg => exact ih hrest hnot
    | putCharAt r k c =>
      obtain ⟨hne, hnot'⟩ := not_or.mp (mt List.mem_cons.mpr hnot)
      rw [ih hrest hnot']
      exact cells_putCharAt_ne hcol (Ne.symm hne)
    | _ => exact hcall.elim

/-- Where no place is painted twice, every character stays. -/
theorem cells_of_mem (hpaints : ∀ c ∈ calls, Paints c) (hnodup : (places calls).Nodup)
    (hmem : ((row, col), x) ∈ dots v.colorCode calls) (hrow : row < VGA.bufferHeight)
    (hcol : col < VGA.bufferWidth) :
    (v.perform calls).cells (row * VGA.bufferWidth + col) = x := by
  induction calls generalizing v with
  | nil => cases hmem
  | cons call calls ih =>
    obtain ⟨hcall, hrest⟩ := List.forall_mem_cons.mp hpaints
    rw [perform_cons]
    cases call with
    | setColor fg bg => exact ih hrest hnodup hmem
    | putCharAt r k c =>
      obtain ⟨hnot, hnodup'⟩ := List.nodup_cons.mp hnodup
      rcases List.mem_cons.mp hmem with heq | hmem'
      · obtain ⟨hplace, rfl⟩ := Prod.mk.inj heq
        obtain ⟨rfl, rfl⟩ := Prod.mk.inj hplace
        rw [cells_of_notMem hrest hcol hnot, VGA.call, VGA.putCharAt, if_neg (by omega),
          VGA.writeCell]
        exact Function.update_self ..
      · refine ih hrest hnodup' ?_
        rwa [VGA.call, VGA.colorCode_putCharAt]
    | _ => exact hcall.elim

end Painting

end AliluOS
