import AliluOS.Allocator.Canonical

/-! The loops over links compute the list operations of `FreeList`, and write
only headers of nodes that stand in the list they walk. -/

namespace AliluOS.Allocator
open Lib Lib.Extent

/-! ## Fuel -/

theorem insertionPoint_mono {h : Heap} {s t : Slot} {a fuel fuel' : Nat} (hle : fuel ≤ fuel')
    (hrun : insertionPoint h a fuel s = some t) : insertionPoint h a fuel' s = some t := by
  induction fuel generalizing s fuel' with
  | zero => simp [insertionPoint] at hrun
  | succ fuel ih =>
    obtain ⟨fuel', rfl⟩ : ∃ n, fuel' = n + 1 := ⟨fuel' - 1, by omega⟩
    simp only [insertionPoint] at hrun ⊢
    split_ifs at hrun ⊢
    · exact hrun
    · exact hrun
    · exact ih (by omega) hrun

theorem coalesce_mono {h h' : Heap} {s : Slot} {fuel fuel' : Nat} (hle : fuel ≤ fuel')
    (hrun : coalesce fuel h s = some h') : coalesce fuel' h s = some h' := by
  induction fuel generalizing h s fuel' with
  | zero => simp [coalesce] at hrun
  | succ fuel ih =>
    obtain ⟨fuel', rfl⟩ : ∃ n, fuel' = n + 1 := ⟨fuel' - 1, by omega⟩
    simp only [coalesce, Option.bind_eq_bind] at hrun ⊢
    split_ifs at hrun ⊢
    · exact hrun
    · exact ih (by omega) hrun
    · obtain ⟨stop, hstop, hrun⟩ := Option.bind_eq_some_iff.mp hrun
      rw [hstop, Option.bind_some]
      split_ifs at hrun ⊢
      · obtain ⟨size, hsize, hrun⟩ := Option.bind_eq_some_iff.mp hrun
        rw [hsize]
        exact ih (by omega) hrun
      · exact ih (by omega) hrun

theorem findRegion_mono {h : Heap} {s : Slot} {size align fuel fuel' : Nat}
    {r : Heap × Option (Nat × Nat)} (hle : fuel ≤ fuel')
    (hrun : findRegion h size align fuel s = some r) :
    findRegion h size align fuel' s = some r := by
  induction fuel generalizing s fuel' with
  | zero => simp [findRegion] at hrun
  | succ fuel ih =>
    obtain ⟨fuel', rfl⟩ : ∃ n, fuel' = n + 1 := ⟨fuel' - 1, by omega⟩
    simp only [findRegion] at hrun ⊢
    split_ifs at hrun ⊢
    · exact hrun
    · rcases hfit : allocFromRegion (h.region (h.next s)) size align with _ | _ | a
      · simp only [hfit] at hrun
        cases hrun
      · simp only [hfit] at hrun ⊢
        exact ih (by omega) hrun
      · simpa only [hfit] using hrun

theorem addFreeRegion_mono {h h' : Heap} {addr size fuel fuel' : Nat} (hle : fuel ≤ fuel')
    (hrun : addFreeRegion fuel h addr size = some h') :
    addFreeRegion fuel' h addr size = some h' := by
  unfold addFreeRegion at hrun ⊢
  simp only [Option.bind_eq_bind] at hrun ⊢
  obtain ⟨q, halign, hrun⟩ := Option.bind_eq_some_iff.mp hrun
  obtain ⟨padding, hpadding, hrun⟩ := Option.bind_eq_some_iff.mp hrun
  rw [halign, Option.bind_some, hpadding, Option.bind_some]
  split_ifs at hrun ⊢
  · exact hrun
  · exact hrun
  · obtain ⟨current, hpoint, hrun⟩ := Option.bind_eq_some_iff.mp hrun
    rw [insertionPoint_mono hle hpoint]
    exact coalesce_mono hle hrun

theorem fallbackAlloc_mono {h : Heap} {layout : Layout} {r : Heap × Nat} {fuel fuel' : Nat}
    (hle : fuel ≤ fuel') (hrun : fallbackAlloc fuel h layout = some r) :
    fallbackAlloc fuel' h layout = some r := by
  unfold fallbackAlloc at hrun ⊢
  simp only [Option.bind_eq_bind] at hrun ⊢
  obtain ⟨⟨h₁, found⟩, hfind, hrun⟩ := Option.bind_eq_some_iff.mp hrun
  rw [findRegion_mono hle hfind, Option.bind_some]
  cases found with
  | none => exact hrun
  | some x =>
    simp only at hrun ⊢
    obtain ⟨raw, hraw, hrun⟩ := Option.bind_eq_some_iff.mp hrun
    obtain ⟨q, hq, hrun⟩ := Option.bind_eq_some_iff.mp hrun
    obtain ⟨stop, hstop, hrun⟩ := Option.bind_eq_some_iff.mp hrun
    rw [hraw, Option.bind_some, hq, Option.bind_some, hstop, Option.bind_some]
    split_ifs at hrun ⊢
    · obtain ⟨h₂, hadd, hrun⟩ := Option.bind_eq_some_iff.mp hrun
      rw [addFreeRegion_mono hle hadd]
      exact hrun
    · exact hrun

theorem alloc_mono {h : Heap} {layout : Layout} {r : Heap × Nat} {fuel fuel' : Nat}
    (hle : fuel ≤ fuel') (hrun : alloc fuel h layout = some r) :
    alloc fuel' h layout = some r := by
  unfold alloc at hrun ⊢
  cases hindex : listIndex layout with
  | some index =>
    simp only [hindex] at hrun ⊢
    split_ifs at hrun ⊢
    · exact hrun
    · exact fallbackAlloc_mono hle hrun
  | none =>
    simp only [hindex] at hrun ⊢
    exact fallbackAlloc_mono hle hrun

theorem eq_of_mono {α : Type*} {f : Nat → Option α} {r r' : α} {m n : Nat}
    (hmono : ∀ {m n : Nat} {r : α}, m ≤ n → f m = some r → f n = some r)
    (hm : f m = some r) (hn : f n = some r') : r = r' :=
  Option.some.inj ((hmono (le_max_left m n) hm).symm.trans (hmono (le_max_right m n) hn))

/-- The fallback list from slot `s` holds exactly the regions `l`. -/
structure FreeAt (h : Heap) (s : Slot) (l : List Extent) : Prop where
  linked : Linked Slot.node h.next s (l.map Extent.addr)
  sizes : ∀ e ∈ l, h.size e.addr = e.size

/-- `h'` differs from `h` at most in the headers of `nodes` and in `head`. -/
structure Agree (h h' : Heap) (nodes : List Nat) : Prop where
  word : ∀ w, (∀ a ∈ nodes, w ≠ a ∧ w ≠ a + 8) → h'.mem.word w = h.mem.word w
  listHeads : h'.listHeads = h.listHeads
  writes : ∀ a ∈ h'.mem.headerWrites, a ∈ h.mem.headerWrites ∨ a ∈ nodes

def Slot.Clear (s : Slot) (a : Nat) : Prop := ∀ b, s = .node b → b + 8 ≠ a ∧ b ≠ a

namespace Agree

variable {h h' h'' : Heap} {l l' : List Nat} {s : Slot}

theorem refl (h : Heap) (l : List Nat) : Agree h h l :=
  ⟨fun _ _ => rfl, rfl, fun _ ha => .inl ha⟩

theorem mono (hag : Agree h h' l) (hl : l ⊆ l') : Agree h h' l' :=
  ⟨fun w hw => hag.word w fun a ha => hw a (hl ha), hag.listHeads,
    fun a ha => (hag.writes a ha).imp_right (@hl a)⟩

theorem trans (hag : Agree h h' l) (hag' : Agree h' h'' l) : Agree h h'' l := by
  refine ⟨fun w hw => (hag'.word w hw).trans (hag.word w hw),
    hag'.listHeads.trans hag.listHeads, fun a ha => ?_⟩
  rcases hag'.writes a ha with ha | ha
  · exact hag.writes a ha
  · exact .inr ha

theorem next_eq (hag : Agree h h' l) (hs : s = .head → h'.head = h.head)
    (hc : ∀ a ∈ l, s.Clear a) : h'.next s = h.next s := by
  cases s with
  | head => exact congrArg ListNode.next (hs rfl)
  | classHead i => exact congrFun hag.listHeads i
  | node b =>
    apply hag.word (b + 8)
    intro a ha
    have := hc a ha b rfl
    exact ⟨this.1, by omega⟩

end Agree

namespace Heap

variable (h : Heap)

theorem agree_setNext_head (p : Nat) : Agree h (h.setNext .head p) [] :=
  ⟨fun _ _ => rfl, rfl, fun _ ha => .inl ha⟩

theorem agree_setNext_node (a p : Nat) : Agree h (h.setNext (.node a) p) [a] := by
  refine ⟨fun w hw => ?_, rfl, fun b hb => ?_⟩
  · exact Function.update_of_ne (hw a (by simp)).2 _ _
  · simpa [setNext, logWrite, poke, or_comm] using hb

theorem agree_setSize (a n : Nat) : Agree h (h.setSize a n) [a] := by
  refine ⟨fun w hw => ?_, rfl, fun b hb => ?_⟩
  · exact Function.update_of_ne (hw a (by simp)).1 _ _
  · simpa [setSize, logWrite, poke, or_comm] using hb

theorem agree_write (a : Nat) (n : ListNode) : Agree h (h.write a n) [a] :=
  (h.agree_setSize a n.size).trans ((h.setSize a n.size).agree_setNext_node a n.next)

@[simp] theorem next_setNext_self (s : Slot) (p : Nat) : (h.setNext s p).next s = p := by
  cases s <;> simp [setNext, next, poke, logWrite]

theorem next_setNext_of_ne {s t : Slot} (hst : t ≠ s) (p : Nat) :
    (h.setNext s p).next t = h.next t := by
  cases s <;> cases t <;>
    first
      | exact absurd rfl hst
      | rfl
      | (simp only [ne_eq, Slot.node.injEq, Slot.classHead.injEq] at hst
         simp [setNext, next, poke, logWrite, hst])

@[simp] theorem size_setSize_self (a n : Nat) : (h.setSize a n).size a = n := by
  simp [setSize, size, poke, logWrite]

theorem size_setNext {s : Slot} {a : Nat} (hs : ∀ b, s = .node b → a ≠ b + 8) (p : Nat) :
    (h.setNext s p).size a = h.size a := by
  cases s with
  | head => rfl
  | classHead i => rfl
  | node b => exact Function.update_of_ne (hs b rfl) _ _

end Heap

namespace FreeAt

variable {h h' : Heap} {s : Slot} {e : Extent} {l : List Extent}

theorem tail (hl : FreeAt h s (e :: l)) : FreeAt h (.node e.addr) l :=
  ⟨hl.linked.2.2, fun f hf => hl.sizes f (List.mem_cons_of_mem _ hf)⟩

theorem next_eq (hl : FreeAt h s (e :: l)) : h.next s = e.addr := hl.linked.1

theorem addr_ne_zero (hl : FreeAt h s l) (he : e ∈ l) : e.addr ≠ 0 :=
  hl.linked.ne_zero _ (List.mem_map_of_mem he)

theorem region_eq (hl : FreeAt h s l) (he : e ∈ l) : h.region e.addr = e := by
  rw [Heap.region, hl.sizes e he]

theorem transport {t : Slot} {nodes : List Nat} (hl : FreeAt h s l) (hag : Agree h h' nodes)
    (hs : h'.next t = h.next s)
    (hc : ∀ e ∈ l, ∀ a ∈ nodes, (Slot.node e.addr).Clear a ∧ e.addr ≠ a + 8) :
    FreeAt h' t l := by
  refine ⟨hl.linked.transport hs fun u hu => ?_, fun e he => ?_⟩
  · obtain ⟨a, ha, rfl⟩ := List.mem_map.mp hu
    obtain ⟨e, he, rfl⟩ := List.mem_map.mp ha
    exact hag.next_eq nofun fun a ha => (hc e he a ha).1
  · rw [← hl.sizes e he]
    exact hag.word _ fun a ha => ⟨((hc e he a ha).1 _ rfl).2, (hc e he a ha).2⟩

end FreeAt

/-! ## Searching -/

theorem insertionPoint_eq {h : Heap} {s : Slot} {l : List Extent} {a fuel : Nat}
    (hl : FreeAt h s l) (hf : l.length < fuel) :
    insertionPoint h a fuel s =
      some (lastSlot Slot.node s ((l.takeWhile (·.addr ≤ a)).map Extent.addr)) := by
  induction l generalizing s fuel with
  | nil =>
    obtain ⟨fuel, rfl⟩ : ∃ n, fuel = n + 1 := ⟨fuel - 1, by omega⟩
    have hnext : h.next s = 0 := hl.linked
    simp [insertionPoint, hnext, lastSlot]
  | cons e l ih =>
    obtain ⟨fuel, rfl⟩ : ∃ n, fuel = n + 1 := ⟨fuel - 1, by omega⟩
    have hne := hl.addr_ne_zero (List.mem_cons_self ..)
    have hrest : insertionPoint h a fuel (.node e.addr) = _ := ih hl.tail (by simpa using hf)
    by_cases hle : e.addr ≤ a
    · simp [insertionPoint, hl.next_eq, hne, Nat.not_lt.mpr hle, hrest, hle, lastSlot]
    · simp [insertionPoint, hl.next_eq, hne, Nat.not_le.mp hle, hle, lastSlot]

theorem findRegion_none {h : Heap} {s : Slot} {l : List Extent} {size align fuel : Nat}
    (hl : FreeAt h s l) (hf : l.length < fuel)
    (hno : ∀ e ∈ l, allocFromRegion e size align = some none) :
    findRegion h size align fuel s = some (h, none) := by
  induction l generalizing s fuel with
  | nil =>
    obtain ⟨fuel, rfl⟩ : ∃ n, fuel = n + 1 := ⟨fuel - 1, by omega⟩
    have hnext : h.next s = 0 := hl.linked
    simp [findRegion, hnext]
  | cons e l ih =>
    obtain ⟨fuel, rfl⟩ : ∃ n, fuel = n + 1 := ⟨fuel - 1, by omega⟩
    have hne := hl.addr_ne_zero (List.mem_cons_self ..)
    have hreg := hl.region_eq (List.mem_cons_self ..)
    simp only [findRegion, hl.next_eq, hne, hreg, hno e (List.mem_cons_self ..), if_false]
    exact ih hl.tail (by simpa using hf) fun f hf => hno f (List.mem_cons_of_mem _ hf)

theorem findRegion_some {h : Heap} {s : Slot} {pre post : List Extent} {e : Extent}
    {size align fuel a : Nat} (hl : FreeAt h s (pre ++ e :: post)) (hf : pre.length < fuel)
    (hno : ∀ f ∈ pre, allocFromRegion f size align = some none)
    (he : allocFromRegion e size align = some (some a)) :
    findRegion h size align fuel s =
      some (h.setNext (lastSlot Slot.node s (pre.map Extent.addr)) (h.next (.node e.addr)),
        some (e.addr, a)) := by
  induction pre generalizing s fuel with
  | nil =>
    obtain ⟨fuel, rfl⟩ : ∃ n, fuel = n + 1 := ⟨fuel - 1, by omega⟩
    have hne := hl.addr_ne_zero (List.mem_cons_self ..)
    have hreg := hl.region_eq (List.mem_cons_self ..)
    have hnext : h.next s = e.addr := hl.next_eq
    simp [findRegion, hnext, hne, hreg, he, lastSlot]
  | cons f pre ih =>
    obtain ⟨fuel, rfl⟩ : ∃ n, fuel = n + 1 := ⟨fuel - 1, by omega⟩
    have hne := hl.addr_ne_zero (List.mem_cons_self ..)
    have hreg := hl.region_eq (List.mem_cons_self ..)
    have hnext : h.next s = f.addr := hl.next_eq
    simp only [findRegion, hnext, hne, hreg, hno f (List.mem_cons_self ..), if_false]
    exact ih hl.tail (by simpa using hf) fun g hg => hno g (List.mem_cons_of_mem _ hg)

theorem examined_of_findRegion {h : Heap} {s : Slot} {pre post : List Extent} {layout : Layout}
    {fuel : Nat} {r : Heap × Option (Nat × Nat)} (hl : FreeAt h s (pre ++ post))
    (hno : ∀ f ∈ pre, place f layout = none)
    (hrun : findRegion h layout.size layout.align fuel s = some r) :
    ∀ f ∈ pre, allocFromRegion f layout.size layout.align = some none := by
  induction pre generalizing s fuel with
  | nil => simp
  | cons f pre ih =>
    obtain ⟨hf, hpre⟩ := List.forall_mem_cons.mp hno
    cases fuel with
    | zero => simp [findRegion] at hrun
    | succ fuel =>
      have hne := hl.addr_ne_zero (List.mem_cons_self ..)
      have hreg := hl.region_eq (List.mem_cons_self ..)
      have hnext : h.next s = f.addr := hl.next_eq
      simp only [findRegion, hnext, hne, hreg, if_false] at hrun
      rcases hfit : allocFromRegion f layout.size layout.align with _ | _ | a
      · simp only [hfit] at hrun
        cases hrun
      · simp only [hfit] at hrun
        exact List.forall_mem_cons.mpr ⟨hfit, ih hl.tail hpre hrun⟩
      · rw [place, hfit] at hf
        cases hf

/-! ## Coalescing -/

theorem clear_of_apart {e f : Extent} (h : e.Apart f) (he : IsNode e) (hf : IsNode f) :
    (Slot.node e.addr).Clear f.addr ∧ e.addr ≠ f.addr + 8 := by
  have h1 := he.2
  have h2 := hf.2
  unfold Apart Extent.stop at h
  refine ⟨?_, by omega⟩
  rintro b ⟨⟩
  omega

theorem merge_spec {h : Heap} {s : Slot} {e f : Extent} {l : List Extent}
    (hl : FreeAt h s (e :: f :: l)) (hs : s.Clear e.addr) (hnode : ∀ g ∈ e :: f :: l, IsNode g)
    (hp : Packed 0 (2 ^ 64) (e :: f :: l)) :
    let h₁ := h.setSize e.addr (e.size + f.size)
    let h₂ := h₁.setNext (.node e.addr) (h₁.next (.node f.addr))
    FreeAt h₂ s (⟨e.addr, e.size + f.size⟩ :: l) ∧ Agree h h₂ [e.addr] ∧ h₂.head = h.head := by
  intro h₁ h₂
  have he := hnode e (by simp)
  have hag : Agree h h₂ [e.addr] :=
    (h.agree_setSize e.addr _).trans (h₁.agree_setNext_node e.addr _)
  have hc : ∀ g ∈ f :: l, (Slot.node g.addr).Clear e.addr ∧ g.addr ≠ e.addr + 8 := fun g hg =>
    clear_of_apart (hp.head_apart g hg).symm (hnode g (List.mem_cons_of_mem _ hg)) he
  have hfnext : h₁.next (.node f.addr) = h.next (.node f.addr) :=
    (h.agree_setSize e.addr _).next_eq nofun fun a ha => by
      obtain rfl := List.mem_singleton.mp ha
      exact (hc f (by simp)).1
  have he0 : e.addr ≠ 0 := hl.linked.2.1
  have hrest : FreeAt h₂ (.node e.addr) l := by
    refine hl.tail.tail.transport hag ?_ fun g hg a ha => ?_
    · rw [Heap.next_setNext_self, hfnext]
    · obtain rfl := List.mem_singleton.mp ha
      exact hc g (List.mem_cons_of_mem _ hg)
  refine ⟨⟨⟨?_, he0, hrest.linked⟩, ?_⟩, hag, rfl⟩
  · rw [← hl.next_eq]
    exact hag.next_eq (fun _ => rfl) (by simpa using hs)
  · refine List.forall_mem_cons.mpr ⟨?_, hrest.sizes⟩
    rw [Heap.size_setNext _ (by rintro b ⟨⟩; simp), Heap.size_setSize_self]

/-- Only the last region of a sorted list may end at the top of memory, and its end is
never computed. -/
theorem endAddress_of_sorted {e f : Extent} {l : List Extent} (hsorted : Sorted (e :: f :: l))
    (hp : Packed 0 (2 ^ 64) (e :: f :: l)) : endAddress e = some e.stop := by
  have hle := (List.pairwise_cons.mp hsorted).1 f (by simp)
  have hpos := hp.pos f (by simp)
  have hstop := (hp.inside f (by simp)).2
  apply endAddress_eq
  unfold Extent.stop at hle hstop ⊢
  omega

theorem FreeAt.reconnect {h h' : Heap} {s : Slot} {e : Extent} {l l' : List Extent}
    {nodes : List Nat} (hl : FreeAt h s (e :: l)) (hl' : FreeAt h' (.node e.addr) l')
    (hag : Agree h h' nodes) (hhead : h'.head = h.head) (hs : ∀ a ∈ nodes, s.Clear a)
    (he : ∀ a ∈ nodes, (Slot.node e.addr).Clear a ∧ e.addr ≠ a + 8) :
    FreeAt h' s (e :: l') := by
  have he0 := hl.addr_ne_zero (e := e) (by simp)
  refine ⟨⟨?_, he0, hl'.linked⟩, List.forall_mem_cons.mpr ⟨?_, hl'.sizes⟩⟩
  · rw [← hl.next_eq]
    exact hag.next_eq (fun _ => hhead) hs
  · rw [← hl.sizes e (by simp)]
    exact hag.word _ fun a ha => ⟨((he a ha).1 _ rfl).2, (he a ha).2⟩

theorem coalesce_spec {h : Heap} {s : Slot} {l : List Extent} {fuel : Nat} (hl : FreeAt h s l)
    (hs : ∀ e ∈ l, s.Clear e.addr) (hnode : ∀ e ∈ l, IsNode e) (hsorted : Sorted l)
    (hp : Packed 0 (2 ^ 64) l) (hf : l.length < fuel) :
    ∃ h', coalesce fuel h s = some h' ∧ FreeAt h' s (coalesceList l) ∧
      Agree h h' (l.map Extent.addr) ∧ h'.head = h.head := by
  induction l using coalesceList.induct generalizing h s fuel with
  | case1 e f l htouch ih =>
    obtain ⟨fuel, rfl⟩ : ∃ n, fuel = n + 1 := ⟨fuel - 1, by omega⟩
    have he0 := hl.addr_ne_zero (e := e) (by simp)
    have hf0 := hl.addr_ne_zero (e := f) (by simp)
    have hfnode := hnode f (by simp)
    have hend := endAddress_of_sorted hsorted hp
    have hsum : addUsize e.size f.size = some (e.size + f.size) := by
      have hfstop := (hp.inside f (by simp)).2
      unfold Extent.stop at htouch hfstop
      exact addUsize_eq_some.mpr ⟨rfl, by omega⟩
    -- the loop stays at the slot after a merge: the grown node may touch the next one too
    obtain ⟨hl₂, hag, hhead⟩ := merge_spec hl (hs e (by simp)) hnode hp
    have hnode₂ : ∀ g ∈ ⟨e.addr, e.size + f.size⟩ :: l, IsNode g := by
      refine List.forall_mem_cons.mpr
        ⟨⟨(hnode e (by simp)).1, ?_⟩, fun g hg => hnode g (by simp [hg])⟩
      have := hfnode.2
      simp only
      omega
    have hs₂ : ∀ g ∈ ⟨e.addr, e.size + f.size⟩ :: l, s.Clear g.addr :=
      List.forall_mem_cons.mpr ⟨hs e (by simp), fun g hg => hs g (by simp [hg])⟩
    have hsorted₂ : Sorted (⟨e.addr, e.size + f.size⟩ :: l) := by
      obtain ⟨-, hl₁⟩ := List.pairwise_cons.mp hsorted
      obtain ⟨hfl, hl₁⟩ := List.pairwise_cons.mp hl₁
      refine List.pairwise_cons.mpr ⟨fun g hg => ?_, hl₁⟩
      have hle := hfl g hg
      unfold Extent.stop at htouch hle ⊢
      simp only
      omega
    obtain ⟨h', hrun, hl', hag', hhead'⟩ :=
      ih hl₂ hs₂ hnode₂ hsorted₂ (hp.merge htouch) (by simpa using hf)
    refine ⟨h', ?_, ?_, ?_, hhead'.trans hhead⟩
    · rw [coalesce]
      simp only [hl.next_eq, hl.tail.next_eq, he0, hf0, if_false,
        hl.region_eq (e := e) (by simp), hend, Option.bind_eq_bind, Option.bind_some]
      rw [if_pos htouch, hl.sizes e (by simp), hl.sizes f (by simp), hsum, Option.bind_some]
      exact hrun
    · rwa [coalesceList, if_pos htouch]
    · exact (hag.mono (by simp)).trans (hag'.mono (by simp))
  | case2 e f l htouch ih =>
    obtain ⟨fuel, rfl⟩ : ∃ n, fuel = n + 1 := ⟨fuel - 1, by omega⟩
    have he0 := hl.addr_ne_zero (e := e) (by simp)
    have hf0 := hl.addr_ne_zero (e := f) (by simp)
    have hend := endAddress_of_sorted hsorted hp
    have hclear : ∀ g ∈ f :: l, (Slot.node e.addr).Clear g.addr ∧ e.addr ≠ g.addr + 8 := fun g hg =>
      clear_of_apart (hp.head_apart g hg) (hnode e (by simp)) (hnode g (List.mem_cons_of_mem _ hg))
    obtain ⟨h', hrun, hl', hag, hhead⟩ := ih hl.tail (fun g hg => (hclear g hg).1)
      (fun g hg => hnode g (List.mem_cons_of_mem _ hg)) (List.pairwise_cons.mp hsorted).2 hp.tail
      (by simpa using hf)
    refine ⟨h', ?_, ?_, hag.mono (by simp), hhead⟩
    · rw [coalesce]
      simp only [hl.next_eq, hl.tail.next_eq, he0, hf0, if_false,
        hl.region_eq (e := e) (by simp), hend, Option.bind_eq_bind, Option.bind_some]
      rw [if_neg htouch]
      exact hrun
    · rw [coalesceList, if_neg htouch]
      exact hl.reconnect hl' hag hhead
        (List.forall_mem_map.mpr fun g hg => hs g (List.mem_cons_of_mem _ hg))
        (List.forall_mem_map.mpr hclear)
  | case3 l hshape =>
    obtain ⟨fuel, rfl⟩ : ∃ n, fuel = n + 1 := ⟨fuel - 1, by omega⟩
    refine ⟨h, ?_, by simpa [coalesceList] using hl, Agree.refl .., rfl⟩
    rcases l with _ | ⟨e, _ | ⟨f, l⟩⟩
    · have hnext : h.next s = 0 := hl.linked
      simp [coalesce, hnext]
    · obtain ⟨fuel, rfl⟩ : ∃ n, fuel = n + 1 := ⟨fuel - 1, by simp at hf; omega⟩
      have hnext : h.next (.node e.addr) = 0 := hl.tail.linked
      simp [coalesce, hl.next_eq, hnext]
    · exact absurd rfl (hshape e f l)

/-! ## Inserting -/

theorem nodup_addr {start stop : Nat} {l : List Extent} (hp : Packed start stop l) :
    (l.map Extent.addr).Nodup := by
  refine List.pairwise_map.mpr (hp.apart.imp_of_mem ?_)
  intro e f he hf hap heq
  have h1 := hp.pos e he
  have h2 := hp.pos f hf
  unfold Apart Extent.stop at hap
  omega

theorem nodup_slots {start stop : Nat} {l : List Extent} (hp : Packed start stop l) :
    (Slot.head :: (l.map Extent.addr).map Slot.node).Nodup := by
  refine List.nodup_cons.mpr ⟨by simp, (nodup_addr hp).map ?_⟩
  exact fun a b h => Slot.node.inj h

theorem addFreeRegion_of_dvd (fuel : Nat) (h : Heap) {addr size : Nat} (h8 : 8 ∣ addr) :
    addFreeRegion fuel h addr size =
      if size < 16 then some h
      else
        let h := h.write addr (ListNode.new size)
        (insertionPoint h addr fuel .head).bind fun current =>
          let h := h.setNext (.node addr) (h.next current)
          coalesce fuel (h.setNext current addr) .head := by
  have hpadding : subUsize addr addr = some 0 := by
    rw [subUsize, if_pos le_rfl, Nat.sub_self]
  unfold addFreeRegion ListNode.alignOf ListNode.sizeOf
  rw [alignUp_of_dvd h8, Option.bind_eq_bind, Option.bind_some, hpadding, Option.bind_eq_bind,
    Option.bind_some, Nat.sub_zero]
  dsimp only
  by_cases hzero : size ≤ 0
  · rw [if_pos hzero, if_pos (by omega)]
  · rw [if_neg hzero]

theorem addFreeRegion_of_lt (fuel : Nat) (h : Heap) {addr size : Nat} (h8 : 8 ∣ addr)
    (hsize : size < 16) : addFreeRegion fuel h addr size = some h := by
  rw [addFreeRegion_of_dvd fuel h h8, if_pos hsize]

theorem roundUp_eight (addr : Nat) : roundUp addr 8 = firstAligned addr := by
  obtain ⟨hle, hdvd, hlt⟩ := roundUp_spec (show 0 < 8 by omega) addr
  obtain ⟨⟨hfirst, hfirst8⟩, hleast⟩ := isLeast_firstAligned addr
  have hmin := hleast ⟨hle, hdvd⟩
  omega

theorem alignUp_eight {addr : Nat} (haligned : addr ≤ 2 ^ 64 - 8) :
    alignUp addr 8 = some (firstAligned addr) := by
  rw [← roundUp_eight]
  apply alignUp_of_lt
  rw [roundUp_eight, firstAligned]
  omega

theorem addFreeRegion_trim (fuel : Nat) (h : Heap) {addr size : Nat}
    (halign : alignUp addr 8 = some (firstAligned addr)) :
    (usable ⟨addr, size⟩ = [] ∧ addFreeRegion fuel h addr size = some h) ∨
      ∃ q, addr ≤ q ∧ 8 ∣ q ∧ q + 16 ≤ addr + size ∧ usable ⟨addr, size⟩ = [⟨q, addr + size - q⟩] ∧
        addFreeRegion fuel h addr size = addFreeRegion fuel h q (addr + size - q) := by
  obtain ⟨⟨hfirst, hfirst8⟩, -⟩ := isLeast_firstAligned addr
  have hpadding : subUsize (firstAligned addr) addr = some (firstAligned addr - addr) :=
    if_pos hfirst
  have hrun : addFreeRegion fuel h addr size =
      if size ≤ firstAligned addr - addr then some h
      else addFreeRegion fuel h (firstAligned addr) (size - (firstAligned addr - addr)) := by
    rw [addFreeRegion_of_dvd fuel h hfirst8]
    unfold addFreeRegion ListNode.alignOf ListNode.sizeOf
    rw [halign, Option.bind_eq_bind, Option.bind_some, hpadding, Option.bind_eq_bind,
      Option.bind_some]
  rw [hrun]
  by_cases hroom : firstAligned addr + 16 ≤ addr + size
  · refine .inr ⟨firstAligned addr, hfirst, hfirst8, hroom, if_pos hroom, ?_⟩
    rw [if_neg (by omega),
      show addr + size - firstAligned addr = size - (firstAligned addr - addr) by omega]
  · refine .inl ⟨if_neg hroom, ?_⟩
    split_ifs
    · rfl
    · exact addFreeRegion_of_lt fuel h hfirst8 (by omega)

theorem alignUp_of_addFreeRegion {fuel : Nat} {h h' : Heap} {addr size : Nat}
    (hrun : addFreeRegion fuel h addr size = some h') :
    alignUp addr 8 = some (firstAligned addr) := by
  obtain ⟨q, halign, -⟩ := Option.bind_eq_some_iff.mp hrun
  rw [show ListNode.alignOf = 8 from rfl] at halign
  rw [halign, eq_roundUp_of_alignUp halign, roundUp_eight]

theorem addr_ne_link {l : List Extent} (hp : Packed 0 (2 ^ 64) l) (hnode : ∀ e ∈ l, IsNode e) :
    ∀ e ∈ l, ∀ f ∈ l, e.addr ≠ f.addr + 8 := by
  intro e he f hf
  rcases hp.eq_or_apart he hf with rfl | hap
  · omega
  · exact (clear_of_apart hap (hnode e he) (hnode f hf)).2

theorem lastSlot_cases (l : List Extent) :
    lastSlot Slot.node Slot.head (l.map Extent.addr) = .head ∨
      ∃ e ∈ l, lastSlot Slot.node Slot.head (l.map Extent.addr) = .node e.addr := by
  have hmem : lastSlot Slot.node Slot.head (l.map Extent.addr) ∈
      Slot.head :: (l.map Extent.addr).map Slot.node := lastSlot_mem ..
  simpa [eq_comm] using hmem

theorem agree_lastSlot (h : Heap) (pre : List Extent) (p : Nat) :
    Agree h (h.setNext (lastSlot Slot.node Slot.head (pre.map Extent.addr)) p)
      (pre.map Extent.addr) := by
  rcases lastSlot_cases pre with hlast | ⟨f, hf, hlast⟩ <;> rw [hlast]
  · exact (h.agree_setNext_head p).mono (List.nil_subset _)
  · apply (h.agree_setNext_node f.addr p).mono
    exact List.cons_subset.mpr ⟨List.mem_map_of_mem hf, List.nil_subset _⟩

theorem size_lastSlot {l pre : List Extent} (hoff : ∀ e ∈ l, ∀ f ∈ l, e.addr ≠ f.addr + 8)
    (hpre : pre ⊆ l) (h : Heap) (p : Nat) : ∀ f ∈ l,
      (h.setNext (lastSlot Slot.node Slot.head (pre.map Extent.addr)) p).size f.addr =
        h.size f.addr := by
  intro f hf
  refine h.size_setNext (fun b hb => ?_) p
  rcases lastSlot_cases pre with hlast | ⟨g, hg, hlast⟩ <;> rw [hlast] at hb <;> cases hb
  exact hoff f hf g (hpre hg)

theorem linkIn_spec {h : Heap} {pre post : List Extent} {e : Extent}
    (hl : FreeAt h .head (pre ++ post)) (hnode : ∀ f ∈ pre ++ post, IsNode f)
    (hp : Packed 0 (2 ^ 64) (e :: (pre ++ post))) (he : IsNode e) (h0 : e.addr ≠ 0)
    (hsize : h.size e.addr = e.size) :
    let current := lastSlot Slot.node Slot.head (pre.map Extent.addr)
    let h₁ := h.setNext (.node e.addr) (h.next current)
    let h₂ := h₁.setNext current e.addr
    FreeAt h₂ .head (pre ++ e :: post) ∧ Agree h h₂ (e.addr :: (pre ++ post).map Extent.addr) := by
  intro current h₁ h₂
  have hcur : current = .head ∨ ∃ f ∈ pre, current = .node f.addr := lastSlot_cases pre
  have hclear : ∀ f ∈ pre ++ post, (Slot.node e.addr).Clear f.addr ∧ e.addr ≠ f.addr + 8 :=
    fun f hf => clear_of_apart (hp.head_apart f hf) he (hnode f hf)
  have hne : ∀ f ∈ pre ++ post, f.addr ≠ e.addr := fun f hf => ((hclear f hf).1 _ rfl).2.symm
  have hcurne : current ≠ .node e.addr := by
    rcases hcur with hc | ⟨f, hf, hc⟩ <;> rw [hc]
    · simp
    · simpa using hne f (List.mem_append_left _ hf)
  have hoff := addr_ne_link hp (List.forall_mem_cons.mpr ⟨he, hnode⟩)
  -- both writes are to link words
  have hsizes : ∀ f ∈ e :: (pre ++ post), h₂.size f.addr = h.size f.addr := by
    intro f hf
    refine (size_lastSlot hoff (fun g hg => by simp [hg]) h₁ _ f hf).trans (h.size_setNext ?_ _)
    rintro b ⟨⟩
    exact hoff f hf e (by simp)
  refine ⟨⟨?_, ?_⟩, ?_⟩
  · rw [List.map_append, List.map_cons]
    have hslots := nodup_slots hp.tail
    have hlinked := hl.linked
    rw [List.map_append] at hslots hlinked
    refine hlinked.insert h0 hslots ?_ (h₁.next_setNext_self _ _) ?_
    · exact (h₁.next_setNext_of_ne hcurne.symm _).trans (h.next_setNext_self _ _)
    · intro u hu hucur
      refine (h₁.next_setNext_of_ne hucur _).trans (h.next_setNext_of_ne ?_ _)
      rintro rfl
      obtain ⟨f, hf, hfe⟩ : ∃ f ∈ pre ++ post, f.addr = e.addr := by
        simpa [or_and_right, exists_or] using hu
      exact hne f hf hfe
  · intro f hf
    have hf' : f ∈ e :: (pre ++ post) := List.perm_middle.mem_iff.mp hf
    rw [hsizes f hf']
    rcases List.mem_cons.mp hf' with rfl | hmem
    · exact hsize
    · exact hl.sizes f hmem
  · have hag : Agree h h₁ [e.addr] := h.agree_setNext_node e.addr _
    apply (hag.mono (by simp)).trans ((agree_lastSlot h₁ pre e.addr).mono _)
    exact List.subset_cons_of_subset _ (List.map_subset _ (List.subset_append_left _ _))

theorem addFreeRegion_spec {h : Heap} {free : List Extent} {addr size fuel : Nat}
    (hl : FreeAt h .head free) (hnode : ∀ e ∈ free, IsNode e) (hc : Canonical free)
    (hp : Packed 0 (2 ^ 64) (⟨addr, size⟩ :: free)) (hnew : IsNode ⟨addr, size⟩) (h0 : addr ≠ 0)
    (hf : free.length + 1 < fuel) :
    ∃ h', addFreeRegion fuel h addr size = some h' ∧
      FreeAt h' .head (coalesceList (insertSorted ⟨addr, size⟩ free)) ∧
      Agree h h' (addr :: free.map Extent.addr) := by
  obtain ⟨pre, post, rfl, hpre, hins⟩ := insertSorted_split ⟨addr, size⟩ free
  have hperm := hins ▸ insertSorted_perm ⟨addr, size⟩ (pre ++ post)
  have hsorted := hins ▸ sorted_insertSorted hc.sorted hp
  set h₁ := h.write addr (ListNode.new size) with hh₁
  have hag : Agree h h₁ [addr] := h.agree_write _ _
  have hl₁ : FreeAt h₁ .head (pre ++ post) := by
    apply hl.transport hag rfl
    intro f hf a ha
    obtain rfl := List.mem_singleton.mp ha
    exact clear_of_apart (hp.head_apart f hf).symm (hnode f hf) hnew
  have hsize₁ : h₁.size addr = size := by
    rw [hh₁, Heap.write, Heap.size_setNext _ (by rintro b ⟨⟩; simp), Heap.size_setSize_self]
    rfl
  have hpoint := insertionPoint_eq (a := addr) hl₁ (show _ < fuel by omega)
  rw [hpre] at hpoint
  obtain ⟨hl₂, hag₂⟩ := linkIn_spec hl₁ hnode hp hnew h0 hsize₁
  obtain ⟨h', hrun, hl', hag', -⟩ := coalesce_spec hl₂ (fun _ _ => nofun)
    (fun e he => List.forall_mem_cons.mpr ⟨hnew, hnode⟩ e (hperm.mem_iff.mp he)) hsorted
    (hp.perm hperm.symm) (show _ < fuel by rw [hperm.length_eq]; simpa using hf)
  refine ⟨h', ?_, hins ▸ hl', ?_⟩
  · have hsize : 16 ≤ size := hnew.2
    rw [addFreeRegion_of_dvd fuel h hnew.1, if_neg (by omega)]
    dsimp only
    rw [← hh₁, hpoint]
    exact hrun
  · refine (hag.mono (by simp)).trans (hag₂.trans (hag'.mono ?_))
    intro a ha
    obtain ⟨e, he, rfl⟩ := List.mem_map.mp ha
    exact List.mem_map_of_mem (f := Extent.addr) (hperm.mem_iff.mp he)

/-! ## First fit -/

theorem unlink_spec {h : Heap} {pre post : List Extent} {e : Extent}
    (hl : FreeAt h .head (pre ++ e :: post)) (hnode : ∀ f ∈ pre ++ e :: post, IsNode f)
    (hp : Packed 0 (2 ^ 64) (pre ++ e :: post)) :
    let h₁ := h.setNext (lastSlot Slot.node Slot.head (pre.map Extent.addr)) (h.next (.node e.addr))
    FreeAt h₁ .head (pre ++ post) ∧ h₁.size e.addr = e.size ∧
      Agree h h₁ ((pre ++ post).map Extent.addr) := by
  intro h₁
  have hsizes : ∀ f ∈ pre ++ e :: post, h₁.size f.addr = f.size := by
    intro f hf
    rw [← hl.sizes f hf]
    exact size_lastSlot (addr_ne_link hp hnode) (List.subset_append_left _ _) h _ f hf
  refine ⟨⟨?_, fun f hf => hsizes f ?_⟩, hsizes e (by simp), ?_⟩
  · have hslots := nodup_slots hp
    have hlinked := hl.linked
    rw [List.map_append, List.map_cons] at hslots hlinked
    rw [List.map_append]
    apply hlinked.remove hslots (h.next_setNext_self _ _)
    intro u _ hu
    exact h.next_setNext_of_ne hu _
  · exact List.perm_middle.mem_iff.mpr (List.mem_cons_of_mem _ hf)
  · exact (agree_lastSlot h pre _).mono (List.map_subset _ (List.subset_append_left _ _))

theorem fallbackAlloc_none {h : Heap} {free : List Extent} {layout : Layout} {fuel : Nat}
    (hl : FreeAt h .head free) (hf : free.length < fuel)
    (hno : ∀ e ∈ free, allocFromRegion e layout.size layout.align = some none) :
    fallbackAlloc fuel h layout = some (h, 0) := by
  simp [fallbackAlloc, findRegion_none hl hf hno]

theorem examined_of_fallbackAlloc {h : Heap} {pre post : List Extent} {layout : Layout}
    {fuel : Nat} {r : Heap × Nat} (hl : FreeAt h .head (pre ++ post))
    (hno : ∀ f ∈ pre, place f layout = none) (hrun : fallbackAlloc fuel h layout = some r) :
    ∀ f ∈ pre, allocFromRegion f layout.size layout.align = some none := by
  obtain ⟨_, hfind, -⟩ := Option.bind_eq_some_iff.mp hrun
  exact examined_of_findRegion hl hno hfind

theorem fallbackAlloc_some {h : Heap} {pre post : List Extent} {e : Extent} {layout : Layout}
    {a fuel : Nat} (hl : FreeAt h .head (pre ++ e :: post))
    (hnode : ∀ f ∈ pre ++ e :: post, IsNode f) (hc : Canonical (pre ++ e :: post))
    (hp : Packed 0 (2 ^ 64) (pre ++ e :: post))
    (hno : ∀ f ∈ pre, allocFromRegion f layout.size layout.align = some none)
    (he : place e layout = some a) (hf : (pre ++ e :: post).length < fuel) :
    ∃ h', fallbackAlloc fuel h layout = some (h', a) ∧
      FreeAt h' .head (cutList pre post e layout a) ∧
      Agree h h' ((remainder e layout a ++ (pre ++ post)).map Extent.addr) := by
  obtain ⟨-, hraw, hstop, hend, -⟩ := place_eq_some.mp he
  have hfit := fits_of_place (hnode e (by simp)) he
  obtain ⟨hl₁, hsize₁, hag₁⟩ := unlink_spec hl hnode hp
  have hrun₁ := findRegion_some hl (show pre.length < fuel by simp at hf; omega) hno
    (allocFromRegion_of_place he)
  set h₁ := h.setNext (lastSlot Slot.node Slot.head (pre.map Extent.addr)) (h.next (.node e.addr))
  have hle := hfit.le_end
  have hunfold : fallbackAlloc fuel h layout =
      if e.stop - roundUp (a + layout.size) 8 ≥ 16 then
        (addFreeRegion fuel h₁ (roundUp (a + layout.size) 8)
          (e.stop - roundUp (a + layout.size) 8)).bind fun h' => some (h', a)
      else some (h₁, a) := by
    have hadd : addUsize a layout.size = some (a + layout.size) := if_pos hraw
    have hlast : addUsize e.addr e.size = some e.stop := if_pos hstop
    have hround : alignUp (a + layout.size) 8 = some (roundUp (a + layout.size) 8) :=
      alignUp_of_lt (hend.trans_lt hstop)
    simp only [fallbackAlloc, hrun₁, hsize₁, hadd, hround, hlast, ListNode.alignOf,
      ListNode.sizeOf, Option.bind_eq_bind, Option.bind_some]
    rfl
  set q := roundUp (a + layout.size) 8
  rw [hunfold]
  -- what is left behind the block goes back only with room for a header
  rcases hfit.rest with heq | hge
  · have hrem : remainder e layout a = [] := if_neg (by omega)
    rw [cutList, hrem]
    exact ⟨h₁, if_neg (by omega), hl₁, hag₁⟩
  · have hrem : remainder e layout a = [⟨q, e.stop - q⟩] := if_pos (by omega)
    rw [cutList, hrem]
    have hp' : Packed 0 (2 ^ 64) (⟨q, e.stop - q⟩ :: (pre ++ post)) := by
      refine (hp.perm List.perm_middle).shrink ⟨?_, ?_⟩ (by simp only; omega)
      · exact (hfit.addr_le.trans (Nat.le_add_right _ _)).trans hle
      · simp only [Extent.stop] at *
        omega
    have hnew : IsNode ⟨q, e.stop - q⟩ := ⟨hfit.end_dvd, by simp only; omega⟩
    have hnode' : ∀ f ∈ pre ++ post, IsNode f := fun f hf =>
      hnode f (List.perm_middle.mem_iff.mpr (List.mem_cons_of_mem _ hf))
    have hc' : Canonical (pre ++ post) :=
      hc.sublist ((List.sublist_cons_self e post).append_left pre)
    have hq : q ≠ 0 := by
      have he0 := hl.addr_ne_zero (e := e) (by simp)
      have hae := hfit.addr_le
      omega
    obtain ⟨h', hrun, hl', hag'⟩ := addFreeRegion_spec hl₁ hnode' hc' hp' hnew hq
      (show _ < fuel by simp at hf ⊢; omega)
    refine ⟨h', ?_, hl', (hag₁.mono (by simp)).trans hag'⟩
    rw [if_pos (by omega), hrun]
    rfl

end AliluOS.Allocator
