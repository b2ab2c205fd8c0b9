import Mathlib.Data.List.Range
import AliluOS.Lib.Queue

/-! The ring buffer between the keyboard interrupt and its consumers
(`ScancodeBuffer` in `interrupts.rs`), as a queue. -/

namespace AliluOS.Interrupts

structure ScancodeBuffer where
  buffer : Vector UInt8 256
  head : Nat
  tail : Nat
  head_lt : head < 256
  tail_lt : tail < 256

namespace ScancodeBuffer

def new : ScancodeBuffer := ⟨Vector.replicate 256 0, 0, 0, by omega, by omega⟩

def push (b : ScancodeBuffer) (scancode : UInt8) : ScancodeBuffer :=
  let nextHead := (b.head + 1) % 256
  if nextHead ≠ b.tail then
    { b with
      buffer := b.buffer.set b.head scancode b.head_lt
      head := nextHead
      head_lt := Nat.mod_lt _ (by omega) }
  else b

def pop (b : ScancodeBuffer) : Option UInt8 × ScancodeBuffer :=
  have := b.tail_lt
  if b.head = b.tail then (none, b)
  else
    (some b.buffer[b.tail],
      { b with
        tail := (b.tail + 1) % 256
        tail_lt := Nat.mod_lt _ (by omega) })

def count (b : ScancodeBuffer) : Nat := (b.head + 256 - b.tail) % 256

def slot (b : ScancodeBuffer) (i : Nat) : UInt8 := b.buffer[(b.tail + i) % 256]

def contents (b : ScancodeBuffer) : List UInt8 := (List.range b.count).map b.slot

@[simp] theorem length_contents (b : ScancodeBuffer) : b.contents.length = b.count := by
  simp [contents]

@[simp] theorem contents_new : new.contents = [] := rfl

theorem contents_push (b : ScancodeBuffer) (x : UInt8) :
    (b.push x).contents = if b.count < 255 then b.contents ++ [x] else b.contents := by
  have hh := b.head_lt
  have ht := b.tail_lt
  unfold push
  simp only
  by_cases hfull : (b.head + 1) % 256 = b.tail
  · have hcount : ¬ b.count < 255 := by
      unfold count
      omega
    rw [if_neg (not_not.mpr hfull), if_neg hcount]
  · have hcount : b.count < 255 := by
      unfold count
      omega
    rw [if_pos hfull, if_pos hcount]
    unfold contents
    have hnew : count { b with
        buffer := b.buffer.set b.head x b.head_lt
        head := (b.head + 1) % 256
        head_lt := Nat.mod_lt _ (by omega) } = b.count + 1 := by
      unfold count at *
      simp only
      omega
    rw [hnew, List.range_succ, List.map_append]
    -- none of the slots that wait is the one written
    have hslot : ∀ i < b.count, (b.tail + i) % 256 ≠ b.head := by
      intro i hi
      unfold count at hi
      omega
    have hlast : (b.tail + b.count) % 256 = b.head := by
      unfold count
      omega
    congr 1
    · apply List.map_congr_left
      intro i hi
      simp [slot, (hslot i (List.mem_range.mp hi)).symm]
    · simp [slot, hlast]

theorem pop_contents (b : ScancodeBuffer) :
    b.pop.1 = b.contents.head? ∧ b.pop.2.contents = b.contents.tail := by
  have hh := b.head_lt
  have ht := b.tail_lt
  unfold pop
  by_cases hempty : b.head = b.tail
  · have hcount : b.count = 0 := by
      unfold count
      omega
    simp [hempty, contents, hcount]
  · obtain ⟨n, hcount⟩ : ∃ n, b.count = n + 1 := ⟨b.count - 1, by unfold count; omega⟩
    simp only [if_neg hempty]
    have hcontents : b.contents = b.slot 0 :: (List.range n).map fun i => b.slot (i + 1) := by
      unfold contents
      rw [hcount, List.range_succ_eq_map, List.map_cons, List.map_map]
      rfl
    rw [hcontents]
    refine ⟨?_, ?_⟩
    · simp [slot, Nat.mod_eq_of_lt ht]
    · unfold contents
      have hnew : count { b with
          tail := (b.tail + 1) % 256
          tail_lt := Nat.mod_lt _ (by omega) } = n := by
        unfold count at *
        simp only
        omega
      rw [hnew]
      apply List.map_congr_left
      intro i _
      simp only [slot, Nat.mod_add_mod]
      congr 1
      omega

open Lib.Queue

def queue : Impl ScancodeBuffer UInt8 := ⟨push, pop⟩

/-- One of the 256 slots stays free, so 255 scancodes fit. -/
theorem queue_refines : queue.Refines (bounded 255) contents where
  push b x := by
    simp only [queue, bounded, contents_push, length_contents]
  answer b := (pop_contents b).1
  pop b := (pop_contents b).2

theorem run_eq_queue (ops : List (Op UInt8)) :
    (queue.run new ops).1 = ((bounded 255).run [] ops).1 ∧
      (queue.run new ops).2.contents = ((bounded 255).run [] ops).2 ∧
      (queue.run new ops).2.head < (queue.run new ops).2.buffer.size ∧
      (queue.run new ops).2.tail < (queue.run new ops).2.buffer.size := by
  obtain ⟨hanswers, hcontents⟩ := queue_refines.run ops new
  have hhead := (queue.run new ops).2.head_lt
  have htail := (queue.run new ops).2.tail_lt
  exact ⟨hanswers, hcontents, hhead, htail⟩

theorem keystrokes_sublist (ops : List (Op UInt8)) :
    ((queue.run new ops).1.filterMap id ++ (queue.run new ops).2.contents).Sublist
      (pushes ops) := by
  obtain ⟨hanswers, hcontents⟩ := queue_refines.run ops new
  have hlist := popped_sublist 255 ops ([] : List UInt8)
  rw [hanswers, hcontents]
  simpa using hlist

end ScancodeBuffer

end AliluOS.Interrupts
