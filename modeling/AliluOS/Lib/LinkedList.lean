import Mathlib.Data.List.Nodup

/-! Null-terminated linked lists in a store of links. A slot is a place that
holds a link: a list head, or the link field of the node at an address. -/

namespace AliluOS.Lib

variable {S : Type*} (node : Nat → S)

/-- From the slot `s` the links lead through the nodes at `l` and end in null. -/
def Linked (next : S → Nat) : S → List Nat → Prop
  | s, [] => next s = 0
  | s, a :: l => next s = a ∧ a ≠ 0 ∧ Linked next (node a) l

/-- The slot a walk over `l` from `s` ends at. -/
def lastSlot : S → List Nat → S
  | s, [] => s
  | _, a :: l => lastSlot (node a) l

variable {node} {next next' : S → Nat} {s t : S} {l pre post : List Nat} {a : Nat}

theorem lastSlot_mem (s : S) (l : List Nat) : lastSlot node s l ∈ s :: l.map node := by
  induction l generalizing s with
  | nil => simp [lastSlot]
  | cons a l ih => exact List.mem_cons_of_mem _ (ih (node a))

theorem ne_lastSlot {b : Nat} (hs : s ∉ (b :: pre ++ post).map node) :
    s ≠ lastSlot node (node b) pre := by
  intro heq
  have hmem : lastSlot node (node b) pre ∈ node b :: pre.map node := lastSlot_mem ..
  rw [← heq] at hmem
  exact hs (by simpa using Or.imp_right Or.inl (List.mem_cons.mp hmem))

namespace Linked

theorem transport (h : Linked node next s l) (hs : next' t = next s)
    (hl : ∀ u ∈ l.map node, next' u = next u) : Linked node next' t l := by
  induction l generalizing s t with
  | nil => exact hs.trans h
  | cons a l ih =>
    obtain ⟨h1, h2, h3⟩ := h
    refine ⟨hs.trans h1, h2, ih h3 (hl _ (by simp)) ?_⟩
    intro u hu
    exact hl u (List.mem_cons_of_mem _ hu)

theorem congr (h : Linked node next s l) (hl : ∀ u ∈ s :: l.map node, next' u = next u) :
    Linked node next' s l :=
  h.transport (hl s (by simp)) fun u hu => hl u (List.mem_cons_of_mem _ hu)

theorem unique {l' : List Nat} (h : Linked node next s l) (h' : Linked node next s l') :
    l = l' := by
  induction l generalizing s l' with
  | nil =>
    cases l' with
    | nil => rfl
    | cons b l' => exact absurd (h'.1.symm.trans h) h'.2.1
  | cons a l ih =>
    cases l' with
    | nil => exact absurd (h.1.symm.trans h') h.2.1
    | cons b l' =>
      obtain rfl : a = b := h.1.symm.trans h'.1
      rw [ih h.2.2 h'.2.2]

theorem ne_zero (h : Linked node next s l) : ∀ a ∈ l, a ≠ 0 := by
  induction l generalizing s with
  | nil => simp
  | cons a l ih => exact List.forall_mem_cons.mpr ⟨h.2.1, ih h.2.2⟩

theorem insert (h : Linked node next s (pre ++ post)) (ha : a ≠ 0)
    (hnd : (s :: (pre ++ post).map node).Nodup)
    (hnew : next' (node a) = next (lastSlot node s pre))
    (hlast : next' (lastSlot node s pre) = a)
    (hrest : ∀ u ∈ s :: (pre ++ post).map node, u ≠ lastSlot node s pre → next' u = next u) :
    Linked node next' s (pre ++ a :: post) := by
  induction pre generalizing s with
  | nil =>
    refine ⟨hlast, ha, h.transport hnew fun u hu => ?_⟩
    apply hrest u (List.mem_cons_of_mem _ hu)
    rintro rfl
    exact (List.nodup_cons.mp hnd).1 hu
  | cons b pre ih =>
    obtain ⟨h1, h2, h3⟩ := h
    obtain ⟨hs, hnd⟩ := List.nodup_cons.mp hnd
    have hne := ne_lastSlot hs
    refine ⟨(hrest s (by simp) hne).trans h1, h2, ih h3 hnd hnew hlast ?_⟩
    intro u hu
    exact hrest u (List.mem_cons_of_mem _ hu)

theorem remove (h : Linked node next s (pre ++ a :: post))
    (hnd : (s :: (pre ++ a :: post).map node).Nodup)
    (hlast : next' (lastSlot node s pre) = next (node a))
    (hrest : ∀ u ∈ s :: (pre ++ post).map node, u ≠ lastSlot node s pre → next' u = next u) :
    Linked node next' s (pre ++ post) := by
  induction pre generalizing s with
  | nil =>
    refine h.2.2.transport hlast fun u hu => hrest u (List.mem_cons_of_mem _ hu) ?_
    rintro rfl
    exact (List.nodup_cons.mp hnd).1 (List.mem_cons_of_mem _ hu)
  | cons b pre ih =>
    obtain ⟨h1, h2, h3⟩ := h
    obtain ⟨hs, hnd⟩ := List.nodup_cons.mp hnd
    have hne := ne_lastSlot hs
    refine ⟨(hrest s (by simp) hne).trans h1, h2, ih h3 hnd hlast ?_⟩
    intro u hu
    exact hrest u (List.mem_cons_of_mem _ hu)

end Linked

end AliluOS.Lib
