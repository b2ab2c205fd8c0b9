import AliluOS.Allocator.Reuse

/-! The eight lists of freed blocks over whole runs: each is a stack, and with the live
blocks of its class it holds as many blocks as were ever live at once. -/

namespace AliluOS.Allocator
open Lib Lib.Extent

/-- What a call does to the live blocks and to the class lists. -/
inductive Move (s : State) (blocks : Fin 8 → List Nat) :
    Call → State → (Fin 8 → List Nat) → Prop
  | take {layout : Layout} {i : Fin 8} {p : Nat} {rest : List Nat} {s' : State} :
      listIndex layout = some i → blocks i = p :: rest → s'.live = (p, layout) :: s.live →
      Move s blocks (.alloc layout) s' (Function.update blocks i rest)
  | carve {layout : Layout} {p : Nat} {s' : State} :
      (∀ i, listIndex layout = some i → blocks i = []) → s'.live = (p, layout) :: s.live →
      Move s blocks (.alloc layout) s' blocks
  | refuse {layout : Layout} {s' : State} :
      (∀ i, listIndex layout = some i → blocks i = []) → s'.live = s.live →
      Move s blocks (.alloc layout) s' blocks
  | free {layout : Layout} {p : Nat} {s' : State} :
      (p, layout) ∈ s.live → s'.live = s.live.erase (p, layout) →
      Move s blocks (.dealloc p layout) s' (blocksAfter blocks p layout)
  | store {w v : Nat} {s' : State} : s'.live = s.live → Move s blocks (.store w v) s' blocks

variable {start stop : Nat} {s s' : State} {free : List Extent} {blocks blocks' : Fin 8 → List Nat}
  {c : Call}

theorem blocks_eq_nil_of_request {layout request : Layout} (hinv : Inv start stop s free blocks)
    (hreq : fallbackRequest s.heap layout = some request) {i : Fin 8}
    (hi : listIndex layout = some i) : blocks i = [] := by
  rw [← listHeads_eq_zero hinv]
  unfold fallbackRequest at hreq
  simp only [hi, Option.ite_none_right_eq_some] at hreq
  exact hreq.1

theorem step_move (hinv : Inv start stop s free blocks) (hstop : stop ≤ 2 ^ 64)
    (hs : Step s c s') :
    ∃ free' blocks', Inv start stop s' free' blocks' ∧ Move s blocks c s' blocks' := by
  cases hs with
  | @alloc layout fuel p h hsize hrun =>
    cases hreq : fallbackRequest s.heap layout with
    | none =>
      obtain ⟨i, hi, hhead, hpop⟩ := alloc_of_none hreq fuel
      obtain ⟨rfl, rfl⟩ := Prod.mk.inj (Option.some.inj (hpop.symm.trans hrun))
      have hlist := hinv.classes i
      cases hb : blocks i with
      | nil =>
        rw [hb] at hlist
        exact absurd hlist hhead
      | cons q rest =>
        rw [hb] at hlist
        obtain rfl : s.heap.listHeads i = q := hlist.1
        rw [if_neg hhead]
        exact ⟨free, _, hinv.pop hi hsize hb, .take hi hb rfl⟩
    | some request =>
      have hempty : ∀ i, listIndex layout = some i → blocks i = [] := fun i hi =>
        blocks_eq_nil_of_request hinv hreq hi
      rcases alloc_cases hinv hstop hsize hrun with
        ⟨hnone, -, -, -⟩ | ⟨-, -, -, -, hp, hinv', -⟩ | ⟨-, -, rfl, hinv', -⟩
      · rw [hreq] at hnone
        cases hnone
      · rw [if_neg hp]
        exact ⟨_, blocks, hinv', .carve hempty rfl⟩
      · exact ⟨free, blocks, hinv', .refuse hempty rfl⟩
  | dealloc hmem hrun =>
    exact ⟨_, _, (dealloc_inv hinv hstop hmem hrun).1, .free hmem rfl⟩
  | store hmem h8 hlo hhi => exact ⟨free, blocks, hinv.store hmem h8 hlo hhi _, .store rfl⟩

def liveIn (i : Fin 8) (s : State) : Nat :=
  s.live.countP fun x => decide (listIndex x.2 = some i)

/-- The largest number of live blocks of a class in any state of a run. -/
def peak (i : Fin 8) : List (State × Call) → State → Nat
  | [], s => liveIn i s
  | (s, _) :: tr, s' => max (peak i tr s) (liveIn i s')

theorem liveIn_cons {p : Nat} {layout : Layout} (h : s'.live = (p, layout) :: s.live)
    (i : Fin 8) : liveIn i s' = liveIn i s + if listIndex layout = some i then 1 else 0 := by
  simp [liveIn, h, List.countP_cons]

theorem liveIn_congr (h : s'.live = s.live) (i : Fin 8) : liveIn i s' = liveIn i s := by
  rw [liveIn, liveIn, h]

theorem liveIn_erase {p : Nat} {layout : Layout} (hmem : (p, layout) ∈ s.live)
    (h : s'.live = s.live.erase (p, layout)) (i : Fin 8) :
    liveIn i s = liveIn i s' + if listIndex layout = some i then 1 else 0 := by
  have hperm := (List.perm_cons_erase hmem).countP_eq fun x => decide (listIndex x.2 = some i)
  simp only [liveIn, h, hperm, List.countP_cons, decide_eq_true_eq]

theorem move_count (hm : Move s blocks c s' blocks') (i : Fin 8) :
    (blocks' i).length + liveIn i s' = max ((blocks i).length + liveIn i s) (liveIn i s') := by
  cases hm with
  | @take layout j p rest _ hj hb hlive =>
    rw [liveIn_cons hlive, hj]
    rcases eq_or_ne j i with rfl | hji
    · rw [Function.update_self, if_pos rfl, hb, List.length_cons]
      omega
    · rw [Function.update_of_ne hji.symm, if_neg (by simpa using hji)]
      omega
  | @carve layout p _ hempty hlive =>
    rw [liveIn_cons hlive]
    split_ifs with hi
    · rw [hempty i hi, List.length_nil]
      omega
    · omega
  | refuse _ hlive | store hlive =>
    rw [liveIn_congr hlive]
    omega
  | @free layout p _ hmem hlive =>
    rw [liveIn_erase hmem hlive]
    unfold blocksAfter
    cases hj : listIndex layout with
    | none => simp
    | some j =>
      rcases eq_or_ne j i with rfl | hji
      · simp only [Function.update_self, if_true, List.length_cons]
        omega
      · rw [if_neg (by simpa using hji)]
        simp only [Function.update_of_ne hji.symm]
        omega

/-- The blocks that were carved for a class: free ones on its list, and live ones. -/
def Counted (start stop : Nat) (tr : List (State × Call)) (s : State) : Prop :=
  ∃ free blocks, Inv start stop s free blocks ∧
    ∀ i, (blocks i).length + liveIn i s = peak i tr s

theorem run_counted {heapStart heapSize : Nat} {s₀ : State} {tr : List (State × Call)}
    (hstop : heapStart + heapSize ≤ 2 ^ 64) (hboot : Boot heapStart heapSize s₀)
    (hrun : Run Step s₀ tr s) : Counted heapStart (heapStart + heapSize) tr s := by
  induction hrun with
  | nil =>
    obtain ⟨⟨free, hinv, -⟩, -⟩ := boot_inv hstop hboot
    exact ⟨free, _, hinv, fun i => by simp [peak]⟩
  | @cons tr s s' c _ hs ih =>
    obtain ⟨free, blocks, hinv, hcount⟩ := ih
    obtain ⟨free', blocks', hinv', hmove⟩ := step_move hinv hstop hs
    refine ⟨free', blocks', hinv', fun i => ?_⟩
    rw [move_count hmove i, hcount i, peak]

/-- Freed blocks are used again before new ones are made: in every state of every run, the
blocks on the list of a class and the live ones of that class are together as many as the
largest number of blocks of that class that were ever live at one time. -/
theorem class_blocks_eq_peak {heapStart heapSize : Nat} {s₀ s : State}
    {tr : List (State × Call)} (hstop : heapStart + heapSize ≤ 2 ^ 64)
    (hboot : Boot heapStart heapSize s₀) (hrun : Run Step s₀ tr s) (i : Fin 8)
    {l : List Nat} (hl : Linked Slot.node s.heap.next (.classHead i) l) :
    l.length + liveIn i s = peak i tr s := by
  obtain ⟨free, blocks, hinv, hcount⟩ := run_counted hstop hboot hrun
  rw [hl.unique (hinv.classes i)]
  exact hcount i

theorem class_blocks_eq_peak_cycle :
    ∃ tr s, s.live = [] ∧ s.heap.listHeads 1 = 4096 ∧ peak 1 tr s = 1 := by
  have hcalls : ((init 3 (Heap.new fun _ => 0) 4096 4096).bind fun h₀ =>
      (alloc 3 h₀.startCall (blockLayout 1)).bind fun r =>
        (dealloc 3 r.1.startCall 4096 (blockLayout 1)).map fun h₂ =>
          (r.2, h₂.next (.classHead 1), h₂.next (.node 4096))) = some (4096, 4096, 0) := by
    decide
  obtain ⟨h₀, hinit, hcalls⟩ := Option.bind_eq_some_iff.mp hcalls
  obtain ⟨⟨h₁, p⟩, halloc, hcalls⟩ := Option.bind_eq_some_iff.mp hcalls
  obtain ⟨h₂, hdealloc, heq⟩ := Option.map_eq_some_iff.mp hcalls
  simp only [Prod.mk.injEq] at heq
  obtain ⟨rfl, hhead, hlast⟩ := heq
  obtain ⟨hboot, hrun⟩ := run_cycle hinit (by decide) halloc (by decide) hdealloc
  have hl : Linked Slot.node h₂.next (.classHead 1) [4096] := ⟨hhead, by decide, hlast⟩
  exact ⟨_, ⟨h₂, []⟩, rfl, hhead, (class_blocks_eq_peak (by decide) hboot hrun 1 hl).symm⟩

def Call.classOf : Call → Option (Fin 8)
  | .alloc layout | .dealloc _ layout => listIndex layout
  | .store _ _ => none

theorem move_other (hm : Move s blocks c s' blocks') {i : Fin 8} (hc : c.classOf ≠ some i) :
    blocks' i = blocks i := by
  cases hm with
  | @take layout j p rest _ hj hb hlive =>
    have hji : i ≠ j := by
      rintro rfl
      exact hc hj
    exact Function.update_of_ne hji ..
  | carve | refuse | store => rfl
  | @free layout p =>
    unfold blocksAfter
    cases hj : listIndex layout with
    | none => rfl
    | some j =>
      have hji : i ≠ j := by
        rintro rfl
        exact hc hj
      exact Function.update_of_ne hji ..

theorem move_free_self {layout : Layout} {p : Nat} {i : Fin 8}
    (hm : Move s blocks (.dealloc p layout) s' blocks') (hi : listIndex layout = some i) :
    blocks' i = p :: blocks i := by
  cases hm with
  | free => simp [blocksAfter, hi]

theorem move_take {layout : Layout} {p : Nat} {i : Fin 8} {rest : List Nat}
    (hm : Move s blocks (.alloc layout) s' blocks') (hi : listIndex layout = some i)
    (hb : blocks i = p :: rest) : s'.live = (p, layout) :: s.live := by
  cases hm with
  | @take _ j q rest' _ hj hb' hlive =>
    obtain rfl := Option.some.inj (hi.symm.trans hj)
    obtain ⟨rfl, -⟩ := List.cons.inj (hb.symm.trans hb')
    exact hlive
  | carve hempty | refuse hempty =>
    rw [hempty i hi] at hb
    cases hb

/-- The block freed last is the one allocated next: between the two calls, any others may
be made, as long as they are about other classes or none. -/
theorem freed_last_allocated_first {heapStart heapSize p : Nat} {layout layout' : Layout}
    {i : Fin 8} {s₀ s s₁ s₂ s₃ : State} {tr tr' : List (State × Call)}
    (hstop : heapStart + heapSize ≤ 2 ^ 64) (hboot : Boot heapStart heapSize s₀)
    (hrun : Run Step s₀ tr s) (hi : listIndex layout = some i) (hi' : listIndex layout' = some i)
    (hfree : Step s (.dealloc p layout) s₁) (hbetween : Run Step s₁ tr' s₂)
    (hothers : Guarded (fun _ c => c.classOf ≠ some i) tr')
    (halloc : Step s₂ (.alloc layout') s₃) : s₃.live = (p, layout') :: s₂.live := by
  obtain ⟨free, blocks, hinv, -⟩ := run_counted hstop hboot hrun
  obtain ⟨free₁, blocks₁, hinv₁, hmove₁⟩ := step_move hinv hstop hfree
  -- from the free on, `p` is on top of the list
  have htop := hbetween.always_of_guarded
    (P := fun t => ∃ free blocks, Inv heapStart (heapStart + heapSize) t free blocks ∧
      ∃ rest, blocks i = p :: rest)
    ⟨free₁, blocks₁, hinv₁, _, move_free_self hmove₁ hi⟩
    (fun t c t' ⟨free, blocks, hinv, rest, hb⟩ hc hs => by
      obtain ⟨free', blocks', hinv', hmove⟩ := step_move hinv hstop hs
      exact ⟨free', blocks', hinv', rest, (move_other hmove hc).trans hb⟩) hothers
  obtain ⟨⟨free₂, blocks₂, hinv₂, rest, hb⟩, -⟩ := htop
  obtain ⟨_, _, _, hmove⟩ := step_move hinv₂ hstop halloc
  exact move_take hmove hi' hb

theorem freed_last_allocated_first_cycle :
    ∃ s₂ s₃ : State, s₂.live = [] ∧ s₃.live = [(4096, blockLayout 1)] := by
  have hcalls : ((init 3 (Heap.new fun _ => 0) 4096 4096).bind fun h₀ =>
      (alloc 3 h₀.startCall (blockLayout 1)).bind fun r =>
        (dealloc 3 r.1.startCall 4096 (blockLayout 1)).bind fun h₂ =>
          (alloc 3 h₂.startCall (blockLayout 1)).map fun r' => (r.2, r'.2)) =
      some (4096, 4096) := by decide
  obtain ⟨h₀, hinit, hcalls⟩ := Option.bind_eq_some_iff.mp hcalls
  obtain ⟨⟨h₁, p⟩, halloc, hcalls⟩ := Option.bind_eq_some_iff.mp hcalls
  obtain ⟨h₂, hdealloc, hcalls⟩ := Option.bind_eq_some_iff.mp hcalls
  obtain ⟨⟨h₃, p'⟩, hagain, heq⟩ := Option.map_eq_some_iff.mp hcalls
  obtain ⟨rfl, rfl⟩ := Prod.mk.inj heq
  have hfirst := Step.alloc (s := ⟨h₀, []⟩) (by decide) halloc
  rw [if_neg (by decide)] at hfirst
  have hfree := Step.dealloc (s := ⟨h₁, [(4096, blockLayout 1)]⟩) (List.mem_cons_self ..) hdealloc
  rw [List.erase_cons_head] at hfree
  have hsecond := Step.alloc (s := ⟨h₂, []⟩) (by decide) hagain
  exact ⟨⟨h₂, []⟩, _, rfl, freed_last_allocated_first (i := 1) (by decide) ⟨3, _, hinit, rfl⟩
    (Run.nil.cons hfirst) (by decide) (by decide) hfree .nil (guarded_nil _) hsecond⟩

end AliluOS.Allocator
