import Mathlib.Logic.Function.Basic
import Mathlib.Algebra.Order.Ring.Nat
import Mathlib.Data.List.Induction

/-! Text in rows of a bounded width, and a memory that is written row by row. -/

namespace AliluOS.Lib

variable {α : Type*}

structure Rows (α : Type*) where
  above : List (List α)
  last : List α

namespace Rows

variable {t : Rows α} {width height : Nat} {isBreak : α → Prop} [DecidablePred isBreak]

def empty : Rows α := ⟨[], []⟩

def toList (t : Rows α) : List (List α) := t.above ++ [t.last]

def newRow (t : Rows α) : Rows α := ⟨t.toList, []⟩

def put (t : Rows α) (a : α) : Rows α := ⟨t.above, t.last ++ [a]⟩

/-- A break opens a new row, and so does any other item that the last row has no room
for. -/
def push (width : Nat) (isBreak : α → Prop) [DecidablePred isBreak] (t : Rows α) (a : α) :
    Rows α :=
  if isBreak a then t.newRow else if width ≤ t.last.length then t.newRow.put a else t.put a

def layout (width : Nat) (isBreak : α → Prop) [DecidablePred isBreak] (text : List α) : Rows α :=
  text.foldl (push width isBreak) empty

def rowAt (t : Rows α) (k : Nat) : List α := t.toList[k]?.getD []

/-- The number of rows that are no longer among the last `height`. -/
def hidden (height : Nat) (t : Rows α) : Nat := t.toList.length - height

@[simp] theorem length_toList (t : Rows α) : t.toList.length = t.above.length + 1 := by
  simp [toList]

@[simp] theorem above_newRow (t : Rows α) : t.newRow.above.length = t.above.length + 1 :=
  t.length_toList

@[simp] theorem above_put (t : Rows α) (a : α) : (t.put a).above.length = t.above.length := rfl

theorem layout_concat (text : List α) (a : α) :
    layout width isBreak (text ++ [a]) = (layout width isBreak text).push width isBreak a := by
  simp [layout]

@[simp] theorem rowAt_last (t : Rows α) : t.rowAt t.above.length = t.last := by
  simp [rowAt, toList]

@[simp] theorem rowAt_newRow (t : Rows α) (k : Nat) : t.newRow.rowAt k = t.rowAt k := by
  unfold rowAt
  rw [show t.newRow.toList = t.toList ++ [[]] from rfl, List.getElem?_append]
  split_ifs with hlt
  · rfl
  · rw [List.getElem?_eq_none (Nat.le_of_not_lt hlt)]
    rcases k - t.toList.length with _ | _ <;> rfl

theorem rowAt_put (t : Rows α) (a : α) (k : Nat) :
    (t.put a).rowAt k = if k = t.above.length then t.last ++ [a] else t.rowAt k := by
  split_ifs with hk
  · rw [hk]
    exact (t.put a).rowAt_last
  · unfold rowAt toList put
    rw [List.getElem?_append, List.getElem?_append]
    split_ifs with hlt
    · rfl
    · rw [List.getElem?_eq_none, List.getElem?_eq_none] <;>
        rw [List.length_singleton] <;>
        exact Nat.sub_pos_of_lt (lt_of_le_of_ne (Nat.le_of_not_lt hlt) (Ne.symm hk))

theorem rowAt_of_le {k : Nat} (h : t.above.length < k) : t.rowAt k = [] := by
  rw [rowAt, List.getElem?_eq_none (by rw [length_toList]; exact h), Option.getD_none]

@[simp] theorem rowAt_empty (k : Nat) : (empty : Rows α).rowAt k = [] := by
  rcases k with _ | k <;> rfl

theorem hidden_eq (height : Nat) (t : Rows α) : t.hidden height = t.above.length + 1 - height := by
  rw [hidden, length_toList]

@[simp] theorem hidden_put (t : Rows α) (a : α) : (t.put a).hidden height = t.hidden height := by
  rw [hidden_eq, hidden_eq, above_put]

theorem hidden_newRow_of_lt (h : t.above.length + 1 < height) :
    t.newRow.hidden height = t.hidden height := by
  rw [hidden_eq, hidden_eq, above_newRow]
  omega

theorem hidden_newRow_of_le (h : height ≤ t.above.length + 1) :
    t.newRow.hidden height = t.hidden height + 1 := by
  rw [hidden_eq, hidden_eq, above_newRow]
  omega

theorem getElem?_shown (t : Rows α) (row : Nat) :
    (t.toList.drop (t.hidden height))[row]?.getD [] = t.rowAt (t.hidden height + row) := by
  rw [List.getElem?_drop, rowAt]

/-! ### Lines -/

theorem foldl_push_below (above : List (List α)) (t : Rows α) (text : List α) :
    text.foldl (push width isBreak) ⟨above ++ t.above, t.last⟩ =
      ⟨above ++ (text.foldl (push width isBreak) t).above,
        (text.foldl (push width isBreak) t).last⟩ := by
  induction text generalizing t with
  | nil => rfl
  | cons a text ih =>
    have hpush : push width isBreak ⟨above ++ t.above, t.last⟩ a =
        ⟨above ++ (t.push width isBreak a).above, (t.push width isBreak a).last⟩ := by
      simp only [push]
      split_ifs <;> simp [newRow, put, toList]
    rw [List.foldl_cons, List.foldl_cons, hpush, ih]

theorem toList_layout_break (line : List α) {b : α} (hb : isBreak b) (rest : List α) :
    (layout width isBreak (line ++ b :: rest)).toList =
      (layout width isBreak line).toList ++ (layout width isBreak rest).toList := by
  have hbelow := @foldl_push_below _ width isBreak _ (layout width isBreak line).toList empty rest
  rw [empty, List.append_nil] at hbelow
  rw [layout, List.foldl_append, List.foldl_cons, ← layout, push, if_pos hb, newRow, hbelow]
  exact List.append_assoc ..

theorem toList_layout_lines {lines : List (List α × α)} (h : ∀ l ∈ lines, isBreak l.2) :
    (layout width isBreak (lines.flatMap fun l => l.1 ++ [l.2])).toList =
      (lines.flatMap fun l => (layout width isBreak l.1).toList) ++ [[]] := by
  induction lines with
  | nil => rfl
  | cons l lines ih =>
    obtain ⟨hl, hlines⟩ := List.forall_mem_cons.mp h
    rw [List.flatMap_cons, List.append_assoc, List.singleton_append, toList_layout_break _ hl,
      ih hlines, List.flatMap_cons, List.append_assoc]

theorem layout_of_fits {line : List α} (h : ∀ a ∈ line, ¬ isBreak a)
    (hfits : line.length ≤ width) : layout width isBreak line = ⟨[], line⟩ := by
  induction line using List.reverseRecOn with
  | nil => rfl
  | append_singleton line a ih =>
    rw [List.length_append, List.length_singleton] at hfits
    have hline : ∀ x ∈ line, ¬ isBreak x := fun x hx => h x (List.mem_append_left _ hx)
    rw [layout_concat, ih hline (by omega), push, if_neg (h a (by simp)),
      if_neg (Nat.not_le_of_lt (Nat.lt_of_succ_le hfits))]
    rfl

theorem length_layout {line : List α} (hwidth : 0 < width) (h : ∀ a ∈ line, ¬ isBreak a) :
    (layout width isBreak line).above.length * width + (layout width isBreak line).last.length =
        line.length ∧ (layout width isBreak line).last.length ≤ width := by
  induction line using List.reverseRecOn with
  | nil => exact ⟨by rw [layout]; simp [empty], Nat.zero_le _⟩
  | append_singleton line a ih =>
    obtain ⟨hlength, hlast⟩ := ih fun x hx => h x (List.mem_append_left _ hx)
    rw [layout_concat, push, if_neg (h a (by simp)), List.length_append, List.length_singleton,
      ← hlength]
    split_ifs with hfull
    · rw [above_put, above_newRow, Nat.succ_mul]
      exact ⟨congrArg (· + 1) (by rw [Nat.le_antisymm hlast hfull]), hwidth⟩
    · rw [above_put]
      exact ⟨by rw [put, List.length_append]; rfl,
        by rw [put, List.length_append]; exact Nat.lt_of_not_le hfull⟩

end Rows

def store (m : Nat → α) (writes : List (Nat × α)) : Nat → α :=
  writes.foldl (fun m w => Function.update m w.1 w.2) m

def rowWrites (width row : Nat) (value : Nat → α) : List (Nat × α) :=
  (List.range width).map fun col => (row * width + col, value col)

variable {m : Nat → α} {width height row : Nat} {value : Nat → α}

@[simp] theorem store_nil (m : Nat → α) : store m [] = m := rfl

theorem store_append (m : Nat → α) (first second : List (Nat × α)) :
    store m (first ++ second) = store (store m first) second := by
  simp [store]

theorem store_cons (m : Nat → α) (w : Nat × α) (writes : List (Nat × α)) :
    store m (w :: writes) = store (Function.update m w.1 w.2) writes := rfl

theorem store_singleton (m : Nat → α) (n : Nat) (a : α) :
    store m [(n, a)] = Function.update m n a := rfl

theorem store_of_ne {writes : List (Nat × α)} {n : Nat} (h : ∀ w ∈ writes, w.1 ≠ n) :
    store m writes n = m n := by
  induction writes generalizing m with
  | nil => rfl
  | cons w writes ih =>
    obtain ⟨hw, hwrites⟩ := List.forall_mem_cons.mp h
    rw [store_cons, ih hwrites, Function.update_of_ne hw.symm]

theorem rowWrites_eq_flatMap (width row : Nat) (value : Nat → α) :
    rowWrites width row value =
      (List.range width).flatMap fun col => [(row * width + col, value col)] :=
  List.map_eq_flatMap

theorem rowWrites_congr {other : Nat → α} (h : ∀ col < width, value col = other col) :
    rowWrites width row value = rowWrites width row other :=
  List.map_congr_left fun col hcol => congrArg _ (h col (List.mem_range.mp hcol))

theorem row_of_position {col : Nat} (hcol : col < width) : (row * width + col) / width = row := by
  rw [Nat.mul_comm, Nat.mul_add_div (by omega), Nat.div_eq_of_lt hcol, Nat.add_zero]

theorem row_of_mem_rowWrites {w : Nat × α} (h : w ∈ rowWrites width row value) :
    w.1 / width = row := by
  obtain ⟨col, hcol, rfl⟩ := List.mem_map.mp h
  exact row_of_position (List.mem_range.mp hcol)

theorem lt_of_mem_rowWrites {w : Nat × α} (h : w ∈ rowWrites width row value)
    (hrow : row < height) : w.1 < height * width := by
  obtain ⟨col, hcol, rfl⟩ := List.mem_map.mp h
  calc row * width + col < row * width + width := Nat.add_lt_add_left (List.mem_range.mp hcol) _
    _ = (row + 1) * width := (Nat.succ_mul ..).symm
    _ ≤ height * width := Nat.mul_le_mul_right _ hrow

theorem store_rowWrites {col : Nat} (hcol : col < width) :
    store m (rowWrites width row value) (row * width + col) = value col := by
  have hleft : ∀ k, col < k →
      store m ((List.range k).map fun c => (row * width + c, value c)) (row * width + col) =
        value col := by
    intro k hk
    induction k with
    | zero => exact absurd hk (Nat.not_lt_zero _)
    | succ k ih =>
      rw [List.range_succ, List.map_append, List.map_singleton, store_append, store_cons, store_nil]
      rcases Nat.lt_or_eq_of_le (Nat.le_of_lt_succ hk) with hlt | rfl
      · rw [Function.update_of_ne (by omega), ih hlt]
      · rw [Function.update_self]
  exact hleft width hcol

theorem store_rowWrites_of_ne {r col : Nat} (h : r ≠ row) (hcol : col < width) :
    store m (rowWrites width row value) (r * width + col) = m (r * width + col) := by
  refine store_of_ne fun w hw heq => h ?_
  rw [← row_of_mem_rowWrites hw, heq, row_of_position hcol]

variable {ι : Type*} {items : List ι} {rowOf : ι → Nat} {valueOf : ι → Nat → α}

theorem store_rows_of_ne {r col : Nat} (h : ∀ i ∈ items, rowOf i ≠ r) (hcol : col < width) :
    store m (items.flatMap fun i => rowWrites width (rowOf i) (valueOf i)) (r * width + col) =
      m (r * width + col) := by
  refine store_of_ne fun w hw heq => ?_
  obtain ⟨i, hi, hmem⟩ := List.mem_flatMap.mp hw
  exact h i hi (by rw [← row_of_mem_rowWrites hmem, heq, row_of_position hcol])

theorem store_rows (rowOf : ι → Nat) (valueOf : ι → Nat → α) {i : ι} {col : Nat}
    (hrows : items.Pairwise fun i j => rowOf i ≠ rowOf j) (hi : i ∈ items)
    (hcol : col < width) :
    store m (items.flatMap fun i => rowWrites width (rowOf i) (valueOf i))
      (rowOf i * width + col) = valueOf i col := by
  induction items generalizing m with
  | nil => exact absurd hi List.not_mem_nil
  | cons j items ih =>
    obtain ⟨hj, hrest⟩ := List.pairwise_cons.mp hrows
    rw [List.flatMap_cons, store_append]
    rcases List.mem_cons.mp hi with rfl | hmem
    · rw [store_rows_of_ne (fun k hk => (hj k hk).symm) hcol, store_rowWrites hcol]
    · exact ih hrest hmem

attribute [irreducible] store rowWrites

end AliluOS.Lib
