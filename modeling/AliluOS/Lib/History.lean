import Mathlib.Data.List.Basic

/-! A history as a list with a cursor, and as two stacks around the present item. -/

namespace AliluOS.Lib

variable {α : Type*}

inductive HistoryCall (α : Type*)
  | visit (a : α)
  | back
  | forward

structure Cursor (α : Type*) where
  items : List α
  position : Nat

namespace Cursor

def empty : Cursor α := ⟨[], 0⟩

/-- What is behind the cursor is cut off, and the new item becomes the last one. -/
def visit (c : Cursor α) (a : α) : Cursor α :=
  let kept := c.items.take (c.position + 1)
  ⟨kept ++ [a], kept.length⟩

def back (c : Cursor α) : Cursor α :=
  if 0 < c.position then { c with position := c.position - 1 } else c

def forward (c : Cursor α) : Cursor α :=
  if c.position + 1 < c.items.length then { c with position := c.position + 1 } else c

def call (c : Cursor α) : HistoryCall α → Cursor α
  | .visit a => c.visit a
  | .back => c.back
  | .forward => c.forward

end Cursor

structure Stacks (α : Type*) where
  before : List α
  now : Option α
  after : List α

namespace Stacks

def visit (s : Stacks α) (a : α) : Stacks α := ⟨s.before ++ s.now.toList, some a, []⟩

def back (s : Stacks α) : Stacks α :=
  match s.before.getLast? with
  | some a => ⟨s.before.dropLast, some a, s.after ++ s.now.toList⟩
  | none => s

def forward (s : Stacks α) : Stacks α :=
  match s.after.getLast? with
  | some a => ⟨s.before ++ s.now.toList, some a, s.after.dropLast⟩
  | none => s

def call (s : Stacks α) : HistoryCall α → Stacks α
  | .visit a => s.visit a
  | .back => s.back
  | .forward => s.forward

/-- The list that the stacks stand for. -/
def cursor (s : Stacks α) : Cursor α :=
  ⟨s.before ++ s.now.toList ++ s.after.reverse, s.before.length⟩

def Whole (s : Stacks α) : Prop := s.now = none → s.before = [] ∧ s.after = []

variable {s : Stacks α} {a : α}

theorem back_of_concat {before : List α} (h : s.before = before ++ [a]) :
    s.back = ⟨before, some a, s.after ++ s.now.toList⟩ := by
  rw [back, h, List.getLast?_concat, List.dropLast_concat]

theorem back_of_nil (h : s.before = []) : s.back = s := by
  rw [back, h, List.getLast?_nil]

theorem forward_of_concat {after : List α} (h : s.after = after ++ [a]) :
    s.forward = ⟨s.before ++ s.now.toList, some a, after⟩ := by
  rw [forward, h, List.getLast?_concat, List.dropLast_concat]

theorem forward_of_nil (h : s.after = []) : s.forward = s := by
  rw [forward, h, List.getLast?_nil]

theorem Whole.exists_now (hs : s.Whole) (h : s.before ≠ [] ∨ s.after ≠ []) :
    ∃ a, s.now = some a := by
  cases hnow : s.now with
  | some a => exact ⟨a, rfl⟩
  | none =>
    obtain ⟨hbefore, hafter⟩ := hs hnow
    rcases h with h | h <;> contradiction

theorem Whole.visit (s : Stacks α) (a : α) : (s.visit a).Whole := fun h => by cases h

theorem Whole.back (hs : s.Whole) : s.back.Whole := by
  rcases List.eq_nil_or_concat' s.before with h | ⟨before, a, h⟩
  · rwa [back_of_nil h]
  · rw [back_of_concat h]
    exact fun hnone => by cases hnone

theorem Whole.forward (hs : s.Whole) : s.forward.Whole := by
  rcases List.eq_nil_or_concat' s.after with h | ⟨after, a, h⟩
  · rwa [forward_of_nil h]
  · rw [forward_of_concat h]
    exact fun hnone => by cases hnone

theorem cursor_visit (hs : s.Whole) (a : α) : (s.visit a).cursor = s.cursor.visit a := by
  have hkept : s.cursor.items.take (s.cursor.position + 1) = s.before ++ s.now.toList := by
    unfold cursor
    cases hnow : s.now with
    | none =>
      obtain ⟨hbefore, hafter⟩ := hs hnow
      simp [hbefore, hafter]
    | some b => simp [List.take_append, List.take_of_length_le]
  rw [Cursor.visit, hkept]
  simp [visit, cursor]

theorem cursor_back (hs : s.Whole) : s.back.cursor = s.cursor.back := by
  rcases List.eq_nil_or_concat' s.before with h | ⟨before, a, h⟩
  · rw [back_of_nil h, Cursor.back, if_neg (by simp [cursor, h])]
  · obtain ⟨b, hnow⟩ := hs.exists_now (.inl (by simp [h]))
    rw [back_of_concat h, Cursor.back, if_pos (by simp [cursor, h])]
    simp [cursor, h, hnow]

theorem cursor_forward (hs : s.Whole) : s.forward.cursor = s.cursor.forward := by
  rcases List.eq_nil_or_concat' s.after with h | ⟨after, a, h⟩
  · have hlast : ¬ s.cursor.position + 1 < s.cursor.items.length := by
      cases hnow : s.now <;> simp [cursor, h, hnow]
    rw [forward_of_nil h, Cursor.forward, if_neg hlast]
  · obtain ⟨b, hnow⟩ := hs.exists_now (.inr (by simp [h]))
    rw [forward_of_concat h, Cursor.forward, if_pos (by simp [cursor, h, hnow])]
    simp [cursor, h, hnow]

theorem Whole.call (hs : s.Whole) (i : HistoryCall α) : (s.call i).Whole := by
  cases i with
  | visit a => exact Whole.visit s a
  | back => exact hs.back
  | forward => exact hs.forward

theorem cursor_call (hs : s.Whole) (i : HistoryCall α) : (s.call i).cursor = s.cursor.call i := by
  cases i with
  | visit a => exact cursor_visit hs a
  | back => exact cursor_back hs
  | forward => exact cursor_forward hs

theorem cursor_foldl (hs : s.Whole) (calls : List (HistoryCall α)) :
    (calls.foldl Stacks.call s).cursor = calls.foldl Cursor.call s.cursor := by
  induction calls generalizing s with
  | nil => rfl
  | cons i calls ih => rw [List.foldl_cons, List.foldl_cons, ih (hs.call i), cursor_call hs]

theorem Whole.getElem?_cursor (hs : s.Whole) : s.cursor.items[s.cursor.position]? = s.now := by
  cases hnow : s.now with
  | some a => simp [cursor, hnow]
  | none =>
    obtain ⟨hbefore, hafter⟩ := hs hnow
    simp [cursor, hnow, hbefore, hafter]

theorem forward_back (hs : s.Whole) (h : s.before ≠ []) : s.back.forward = s := by
  obtain ⟨b, hnow⟩ := hs.exists_now (.inl h)
  obtain ⟨before, a, hbefore⟩ := (List.eq_nil_or_concat' s.before).resolve_left h
  obtain ⟨_, _, after⟩ := s
  obtain rfl : _ = before ++ [a] := hbefore
  obtain rfl : _ = some b := hnow
  rw [back_of_concat rfl]
  exact forward_of_concat rfl

theorem back_forward (hs : s.Whole) (h : s.after ≠ []) : s.forward.back = s := by
  obtain ⟨b, hnow⟩ := hs.exists_now (.inr h)
  obtain ⟨after, a, hafter⟩ := (List.eq_nil_or_concat' s.after).resolve_left h
  obtain ⟨before, _, _⟩ := s
  obtain rfl : _ = after ++ [a] := hafter
  obtain rfl : _ = some b := hnow
  rw [forward_of_concat rfl]
  exact back_of_concat rfl

end Stacks

end AliluOS.Lib
