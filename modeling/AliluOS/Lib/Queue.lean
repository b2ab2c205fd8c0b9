import Mathlib.Order.Basic

/-! Bounded first-in first-out queues. An implementation is a type of states
with its two operations; it refines another one when an abstraction map
commutes with both, and then no sequence of calls tells the two apart. -/

namespace AliluOS.Lib.Queue

variable {α σ τ : Type*}

inductive Op (α : Type*) where
  | push (x : α)
  | pop
  deriving Repr, DecidableEq

structure Impl (σ α : Type*) where
  push : σ → α → σ
  pop : σ → Option α × σ

namespace Impl

def run (I : Impl σ α) : σ → List (Op α) → List (Option α) × σ
  | s, [] => ([], s)
  | s, .push x :: ops => I.run (I.push s x) ops
  | s, .pop :: ops =>
    let rest := I.run (I.pop s).2 ops
    ((I.pop s).1 :: rest.1, rest.2)

structure Refines (I : Impl σ α) (J : Impl τ α) (abs : σ → τ) : Prop where
  push : ∀ s x, abs (I.push s x) = J.push (abs s) x
  answer : ∀ s, (I.pop s).1 = (J.pop (abs s)).1
  pop : ∀ s, abs (I.pop s).2 = (J.pop (abs s)).2

theorem Refines.run {I : Impl σ α} {J : Impl τ α} {abs : σ → τ} (h : I.Refines J abs)
    (ops : List (Op α)) (s : σ) :
    (I.run s ops).1 = (J.run (abs s) ops).1 ∧ abs (I.run s ops).2 = (J.run (abs s) ops).2 := by
  induction ops generalizing s with
  | nil => exact ⟨rfl, rfl⟩
  | cons op ops ih =>
    cases op with
    | push x =>
      have hrest := ih (I.push s x)
      rw [h.push] at hrest
      exact hrest
    | pop =>
      have hrest := ih (I.pop s).2
      rw [h.pop] at hrest
      simp only [Impl.run]
      exact ⟨by rw [h.answer, hrest.1], hrest.2⟩

end Impl

/-- The queue itself: the oldest element first, and a push into a full queue is lost. -/
def bounded (capacity : Nat) : Impl (List α) α where
  push q x := if q.length < capacity then q ++ [x] else q
  pop q := (q.head?, q.tail)

def pushes : List (Op α) → List α
  | [] => []
  | .push x :: ops => x :: pushes ops
  | .pop :: ops => pushes ops

/-- Nothing is repeated, reordered or made up: what was popped, followed by what
still waits, is what was there and was pushed, less the pushes that found the queue full. -/
theorem popped_sublist (capacity : Nat) (ops : List (Op α)) (q : List α) :
    (((bounded capacity).run q ops).1.filterMap id ++ ((bounded capacity).run q ops).2).Sublist
      (q ++ pushes ops) := by
  induction ops generalizing q with
  | nil => simp [Impl.run, pushes]
  | cons op ops ih =>
    cases op with
    | push x =>
      have hrest := ih ((bounded capacity).push q x)
      apply hrest.trans
      by_cases hroom : q.length < capacity
      · simp [bounded, pushes, if_pos hroom]
      · simp only [bounded, if_neg hroom, pushes]
        exact (List.Sublist.refl q).append (List.sublist_cons_self x _)
    | pop =>
      have hrest := ih ((bounded capacity).pop q).2
      cases q with
      | nil => simpa [Impl.run, bounded, pushes] using hrest
      | cons y q => simpa [Impl.run, bounded, pushes] using hrest

end AliluOS.Lib.Queue
