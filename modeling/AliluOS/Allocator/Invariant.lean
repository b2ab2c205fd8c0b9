import AliluOS.Allocator.Runs

/-! The heap invariant: live blocks, class lists and the fallback list share the
region without overlap, and every list in memory is the one it should be. -/

namespace AliluOS.Allocator
open Lib Lib.Extent

theorem sixteen_dvd_blockSize (i : Fin 8) : 16 ∣ blockSize i := by
  revert i; decide

theorem sixteen_le_blockSize (i : Fin 8) : 16 ≤ blockSize i := by
  revert i; decide

theorem blockSize_eq_pow (i : Fin 8) : blockSize i = 2 ^ (i.val + 4) := by
  revert i; decide

theorem listIndex_some {layout : Layout} {i : Fin 8} (h : listIndex layout = some i) :
    layout.size ≤ blockSize i ∧ layout.align ∣ blockSize i := by
  have hmax : max layout.size layout.align ≤ blockSize i :=
    of_decide_eq_true (List.findFinIdx?_eq_some_iff.mp h).1
  refine ⟨(le_max_left _ _).trans hmax, ?_⟩
  obtain ⟨k, hk⟩ := layout.align_pow
  have hle := (le_max_right _ _).trans hmax
  rw [hk, blockSize_eq_pow] at hle ⊢
  exact Nat.pow_dvd_pow 2 ((Nat.pow_le_pow_iff_right (by omega)).mp hle)

theorem size_le_footprint (layout : Layout) : layout.size ≤ footprint layout := by
  unfold footprint
  split
  · next i hi => exact (listIndex_some hi).1
  · exact le_rfl

theorem flatMap_perm_cons {α β : Type*} {l : List α} {f g : α → List β} {i : α} {x : β}
    (hl : l.Nodup) (hi : i ∈ l) (hfi : f i = x :: g i) (hf : ∀ j, j ≠ i → f j = g j) :
    (l.flatMap f).Perm (x :: l.flatMap g) := by
  obtain ⟨l₁, l₂, rfl⟩ := List.append_of_mem hi
  have hsame : ∀ l' : List α, i ∉ l' → l'.flatMap f = l'.flatMap g := fun l' hl' =>
    List.flatMap_congr fun j hj => hf j fun hji => hl' (hji ▸ hj)
  have hnot := List.nodup_middle.mp hl
  rw [List.nodup_cons, List.mem_append, not_or] at hnot
  rw [List.flatMap_append, List.flatMap_cons, List.flatMap_append, List.flatMap_cons,
    hsame l₁ hnot.1.1, hsame l₂ hnot.1.2, hfi, List.cons_append]
  exact List.perm_middle

theorem perm_rotate {α : Type*} (l l' l'' : List α) :
    (l ++ (l' ++ l'')).Perm (l'' ++ (l ++ l')) := by
  rw [← List.append_assoc]
  exact List.perm_append_comm

theorem classExtents_push (blocks : Fin 8 → List Nat) (i : Fin 8) (a : Nat) :
    (classExtents (Function.update blocks i (a :: blocks i))).Perm
      (⟨a, blockSize i⟩ :: classExtents blocks) := by
  refine flatMap_perm_cons (List.nodup_finRange 8) (List.mem_finRange i) ?_ ?_
  · simp
  · intro j hj
    rw [Function.update_of_ne hj]

theorem classExtents_pop {blocks : Fin 8 → List Nat} {i : Fin 8} {a : Nat} {rest : List Nat}
    (h : blocks i = a :: rest) :
    (classExtents blocks).Perm
      (⟨a, blockSize i⟩ :: classExtents (Function.update blocks i rest)) := by
  have hpush := classExtents_push (Function.update blocks i rest) i a
  rwa [Function.update_self, Function.update_idem, ← h, Function.update_eq_self] at hpush

theorem classExtents_nil : classExtents (fun _ => []) = [] := by
  simp [classExtents, List.flatMap_eq_nil_iff]

theorem mem_classExtents {blocks : Fin 8 → List Nat} {i : Fin 8} {a : Nat} (ha : a ∈ blocks i) :
    (⟨a, blockSize i⟩ : Extent) ∈ classExtents blocks :=
  List.mem_flatMap.mpr ⟨i, List.mem_finRange i, List.mem_map.mpr ⟨a, ha, rfl⟩⟩

structure LiveOk (p : Nat) (layout : Layout) : Prop where
  ne_zero : p ≠ 0
  size_pos : 1 ≤ layout.size
  align_dvd : layout.align ∣ p
  eight_dvd : 8 ∣ p
  class_dvd : ∀ i, listIndex layout = some i → blockSize i ∣ p

structure Inv (start stop : Nat) (s : State) (free : List Extent) (blocks : Fin 8 → List Nat) :
    Prop where
  freeAt : FreeAt s.heap .head free
  classes : ∀ i, Linked Slot.node s.heap.next (.classHead i) (blocks i)
  packed : Packed start stop (reserved s.live ++ (classExtents blocks ++ free))
  nodes : ∀ e ∈ free, IsNode e
  gaps : Canonical free
  blocks_dvd : ∀ i, ∀ a ∈ blocks i, blockSize i ∣ a
  live : ∀ x ∈ s.live, LiveOk x.1 x.2

/-- The 16 bytes of every header written lie in the region, and in no live block. -/
def WritesOk (start stop : Nat) (s : State) : Prop :=
  ∀ a ∈ s.heap.mem.headerWrites, start ≤ a ∧ a + ListNode.sizeOf ≤ stop ∧
    ∀ x ∈ s.live, Extent.Apart ⟨a, ListNode.sizeOf⟩ ⟨x.1, x.2.size⟩

namespace Inv

variable {start stop : Nat} {s : State} {free : List Extent} {blocks : Fin 8 → List Nat}

theorem packed_free (hinv : Inv start stop s free blocks) : Packed start stop free :=
  hinv.packed.sublist ((List.sublist_append_right _ _).trans (List.sublist_append_right _ _))

theorem startCall (hinv : Inv start stop s free blocks) :
    Inv start stop ⟨s.heap.startCall, s.live⟩ free blocks := by
  have hnext : s.heap.startCall.next = s.heap.next := by
    funext t
    cases t <;> rfl
  refine ⟨⟨?_, hinv.freeAt.sizes⟩, fun i => ?_, hinv.packed, hinv.nodes, hinv.gaps,
    hinv.blocks_dvd, hinv.live⟩
  · rw [hnext]
    exact hinv.freeAt.linked
  · rw [hnext]
    exact hinv.classes i

end Inv

theorem packed_widen {stop : Nat} {l : List Extent} {start : Nat} (hp : Packed start stop l)
    (hstop : stop ≤ 2 ^ 64) : Packed 0 (2 ^ 64) l :=
  ⟨hp.pos, fun e he => ⟨Nat.zero_le _, (hp.inside e he).2.trans hstop⟩, hp.apart⟩

theorem clear_of_header_apart {a b n : Nat} (hn : 16 ≤ n) (h : Extent.Apart ⟨a, 16⟩ ⟨b, n⟩) :
    (Slot.node b).Clear a ∧ b ≠ a + 8 := by
  unfold Apart Extent.stop at h
  simp only at h
  refine ⟨?_, by omega⟩
  rintro c ⟨⟩
  omega

theorem classes_transport {h h' : Heap} {blocks : Fin 8 → List Nat} {nodes : List Nat}
    (hag : Agree h h' nodes) (hcl : ∀ i, Linked Slot.node h.next (.classHead i) (blocks i))
    (hap : ∀ e ∈ classExtents blocks, ∀ a ∈ nodes, Extent.Apart ⟨a, 16⟩ e) (i : Fin 8) :
    Linked Slot.node h'.next (.classHead i) (blocks i) := by
  refine (hcl i).congr fun u hu => hag.next_eq ?_ fun a ha => ?_
  · rintro rfl
    simp at hu
  · rcases List.mem_cons.mp hu with rfl | hu
    · exact nofun
    · obtain ⟨b, hb, rfl⟩ := List.mem_map.mp hu
      exact (clear_of_header_apart (sixteen_le_blockSize i) (hap _ (mem_classExtents hb) a ha)).1

theorem header_apart {e f : Extent} (he : IsNode e) (h : e.Apart f) :
    Extent.Apart ⟨e.addr, 16⟩ f :=
  h.mono ⟨le_rfl, Nat.add_le_add_left he.2 _⟩ (Within.refl f)

namespace Inv

variable {start stop : Nat} {s : State} {free : List Extent} {blocks : Fin 8 → List Nat}

theorem mem_reserved {live : List (Nat × Layout)} {x : Nat × Layout} (hx : x ∈ live) :
    (⟨x.1, footprint x.2⟩ : Extent) ∈ reserved live := List.mem_map.mpr ⟨x, hx, rfl⟩

theorem within_footprint (x : Nat × Layout) :
    Extent.Within ⟨x.1, x.2.size⟩ ⟨x.1, footprint x.2⟩ :=
  ⟨le_rfl, Nat.add_le_add_left (size_le_footprint x.2) _⟩

theorem writesOk_of_agree {h₀ h : Heap} {live : List (Nat × Layout)} {l rest : List Extent}
    (hag : Agree h₀.startCall h (l.map Extent.addr)) (hnodes : ∀ f ∈ l, IsNode f)
    (hp : Packed start stop (l ++ rest)) (hlive : ∀ e ∈ reserved live, e ∈ rest) :
    WritesOk start stop ⟨h, live⟩ := by
  intro b hb
  obtain ⟨f, hf, rfl⟩ :=
    List.mem_map.mp ((hag.writes b hb).resolve_left (by simp [Heap.startCall]))
  have hin := hp.inside f (List.mem_append_left _ hf)
  refine ⟨hin.1, (Nat.add_le_add_left (hnodes f hf).2 _).trans hin.2, fun x hx => ?_⟩
  have hap := hp.apart_of_mem_append hf (hlive _ (mem_reserved hx))
  exact (header_apart (hnodes f hf) hap).mono (Within.refl _) (within_footprint x)

theorem packed_region {pre post : List Extent} {e : Extent}
    (hinv : Inv start stop s (pre ++ e :: post) blocks) :
    Packed start stop (e :: (pre ++ post ++ (reserved s.live ++ classExtents blocks))) :=
  (hinv.packed.perm (perm_rotate ..)).perm (List.perm_middle.append_right _)

theorem cut {pre post : List Extent} {e : Extent} {layout layout' : Layout} {a p fuel : Nat}
    {h : Heap} (hinv : Inv start stop s (pre ++ e :: post) blocks) (hstop : stop ≤ 2 ^ 64)
    (hsize : 1 ≤ layout.size)
    (hno : ∀ f ∈ pre, allocFromRegion f layout.size layout.align = some none)
    (he : place e layout = some a) (hfoot : footprint layout' = layout.size)
    (hok : LiveOk a layout') (hrun : fallbackAlloc fuel s.heap.startCall layout = some (h, p)) :
    p = a ∧ Inv start stop ⟨h, (a, layout') :: s.live⟩ (cutList pre post e layout a) blocks ∧
      WritesOk start stop ⟨h, (a, layout') :: s.live⟩ := by
  have hfit := fits_of_place (hinv.nodes e (by simp)) he
  obtain ⟨h', hrun', hl', hag⟩ := fallbackAlloc_some hinv.startCall.freeAt hinv.nodes hinv.gaps
    (packed_widen hinv.packed_free hstop) hno he (Nat.lt_succ_self _)
  obtain ⟨rfl, rfl⟩ := Prod.mk.inj (eq_of_mono fallbackAlloc_mono hrun hrun')
  have hcut : Packed start stop
      ((remainder e layout p ++ (pre ++ post)) ++
        (⟨p, layout.size⟩ :: (reserved s.live ++ classExtents blocks))) := by
    have hblock := packed_cut hinv.packed_region hfit hsize
    rw [← List.append_assoc] at hblock
    exact hblock.perm List.perm_middle.symm
  have hnodes : ∀ f ∈ remainder e layout p ++ (pre ++ post), IsNode f := by
    intro f hf
    rcases List.mem_append.mp hf with hf | hf
    · exact isNode_remainder hfit f hf
    · exact hinv.nodes f (List.perm_middle.mem_iff.mpr (List.mem_cons_of_mem _ hf))
  have hreg := regrouped_cutList pre post e layout p
  have hres : reserved ((p, layout') :: s.live) = ⟨p, layout.size⟩ :: reserved s.live := by
    simp [reserved, hfoot]
  refine ⟨rfl, ⟨hl', ?_, ?_, hreg.nodes hnodes, canonical_cutList hinv.gaps hfit,
    hinv.blocks_dvd, ?_⟩, ?_⟩
  · apply classes_transport hag hinv.startCall.classes
    intro c hc b hb
    obtain ⟨f, hf, rfl⟩ := List.mem_map.mp hb
    exact header_apart (hnodes f hf) (hcut.apart_of_mem_append hf (by simp [hc]))
  · rw [hres]
    exact (hreg.packed hcut).perm (perm_rotate (_ :: _) _ _).symm
  · exact List.forall_mem_cons.mpr ⟨hok, hinv.live⟩
  · apply writesOk_of_agree hag hnodes hcut
    rw [hres]
    intro f hf
    exact List.cons_subset_cons _ (List.subset_append_left _ _) hf

theorem linked_setNext {h : Heap} {t u : Slot} {l : List Nat} {i : Fin 8} {p : Nat}
    (hl : Linked Slot.node h.next t l) (hu : (h.setNext (.classHead i) p).next u = h.next t) :
    Linked Slot.node (h.setNext (.classHead i) p).next u l := by
  refine hl.transport hu fun v hv => h.next_setNext_of_ne ?_ p
  rintro rfl
  simp at hv

theorem setNext_classHead {h : Heap} (hl : FreeAt h .head free) (i : Fin 8) (p : Nat) :
    FreeAt (h.setNext (.classHead i) p) .head free := by
  refine ⟨linked_setNext hl.linked (h.next_setNext_of_ne (by simp) p), fun e he => ?_⟩
  rw [h.size_setNext (s := .classHead i) nofun]
  exact hl.sizes e he

theorem classes_setNext {h : Heap} {i : Fin 8} {p : Nat} {l : List Nat}
    (hcl : ∀ j, Linked Slot.node h.next (.classHead j) (blocks j))
    (hl : Linked Slot.node (h.setNext (.classHead i) p).next (.classHead i) l) :
    ∀ j, Linked Slot.node (h.setNext (.classHead i) p).next (.classHead j)
      (Function.update blocks i l j) := by
  refine (Function.forall_update_iff blocks fun j l => Linked Slot.node _ (.classHead j) l).mpr
    ⟨hl, fun j hji => linked_setNext (hcl j) (h.next_setNext_of_ne ?_ p)⟩
  simpa using hji

theorem blocks_dvd_update (hinv : Inv start stop s free blocks) {i : Fin 8} {l : List Nat}
    (hl : ∀ a ∈ l, blockSize i ∣ a) : ∀ j, ∀ a ∈ Function.update blocks i l j, blockSize j ∣ a :=
  (Function.forall_update_iff blocks fun j l => ∀ a ∈ l, blockSize j ∣ a).mpr
    ⟨hl, fun j _ => hinv.blocks_dvd j⟩

theorem pop {layout : Layout} {i : Fin 8} {p : Nat} {rest : List Nat}
    (hinv : Inv start stop s free blocks) (hi : listIndex layout = some i) (hsize : 1 ≤ layout.size)
    (hb : blocks i = p :: rest) :
    Inv start stop
      ⟨s.heap.startCall.setNext (.classHead i) (s.heap.startCall.next (.node p)),
        (p, layout) :: s.live⟩ free (Function.update blocks i rest) := by
  have hinv₀ := hinv.startCall
  have hci := hinv₀.classes i
  rw [hb] at hci
  have hp : p ∈ blocks i := by simp [hb]
  have hdvd := hinv.blocks_dvd i p hp
  have hpop := classExtents_pop hb
  have hrest : ∀ a ∈ rest, blockSize i ∣ a := fun a ha => hinv.blocks_dvd i a (by simp [hb, ha])
  refine ⟨setNext_classHead hinv₀.freeAt i _, classes_setNext hinv₀.classes ?_, ?_, hinv.nodes,
    hinv.gaps, hinv.blocks_dvd_update hrest, ?_⟩
  · exact linked_setNext hci.2.2 (s.heap.startCall.next_setNext_self (.classHead i) _)
  · have hres : reserved ((p, layout) :: s.live) = ⟨p, blockSize i⟩ :: reserved s.live := by
      simp [reserved, footprint, hi]
    rw [hres]
    exact hinv.packed.perm (((hpop.append_right free).append_left _).trans List.perm_middle)
  · have halign := (listIndex_some hi).2.trans hdvd
    have h8 : 8 ∣ p := (Nat.dvd_trans (by decide) (sixteen_dvd_blockSize i)).trans hdvd
    refine List.forall_mem_cons.mpr ⟨⟨hci.2.1, hsize, halign, h8, fun j hj => ?_⟩, hinv.live⟩
    rwa [← Option.some.inj (hi.symm.trans hj)]

theorem packed_release {p : Nat} {layout : Layout} (hinv : Inv start stop s free blocks)
    (hmem : (p, layout) ∈ s.live) :
    Packed start stop (⟨p, footprint layout⟩ ::
      (reserved (s.live.erase (p, layout)) ++ (classExtents blocks ++ free))) :=
  hinv.packed.perm (((List.perm_cons_erase hmem).map _).append_right _)

theorem live_release {x : Nat × Layout} (hinv : Inv start stop s free blocks) :
    ∀ y ∈ s.live.erase x, LiveOk y.1 y.2 := fun y hy => hinv.live y (List.mem_of_mem_erase hy)

theorem push {layout : Layout} {i : Fin 8} {p : Nat} (hinv : Inv start stop s free blocks)
    (hi : listIndex layout = some i) (hmem : (p, layout) ∈ s.live) :
    let h := (s.heap.startCall.write p
      ⟨blockSize i, s.heap.startCall.next (.classHead i)⟩).setNext (.classHead i) p
    Inv start stop ⟨h, s.live.erase (p, layout)⟩ free
        (Function.update blocks i (p :: blocks i)) ∧
      WritesOk start stop ⟨h, s.live.erase (p, layout)⟩ := by
  intro h
  have hinv₀ := hinv.startCall
  have hlive := hinv.live _ hmem
  have hfoot : footprint layout = blockSize i := by simp [footprint, hi]
  have hrel := hinv.packed_release hmem
  rw [hfoot] at hrel
  have hnode : IsNode ⟨p, blockSize i⟩ := ⟨hlive.eight_dvd, sixteen_le_blockSize i⟩
  have hap : ∀ e ∈ reserved (s.live.erase (p, layout)) ++ (classExtents blocks ++ free),
      Extent.Apart ⟨p, 16⟩ e := fun e he => header_apart hnode (hrel.head_apart e he)
  set h₁ := s.heap.startCall.write p ⟨blockSize i, s.heap.startCall.next (.classHead i)⟩
  -- the header is written into the freed block itself
  have hag : Agree s.heap.startCall h₁ [p] := Heap.agree_write _ _ _
  have hnextp : h₁.next (.node p) = s.heap.startCall.next (.classHead i) :=
    Heap.next_setNext_self _ _ _
  have hfree₁ : FreeAt h₁ .head free := by
    apply hinv₀.freeAt.transport hag rfl
    intro e he a ha
    obtain rfl := List.mem_singleton.mp ha
    exact clear_of_header_apart (hinv.nodes e he).2 (hap e (by simp [he]))
  have hcl₁ := classes_transport hag hinv₀.classes fun e he a ha => by
    obtain rfl := List.mem_singleton.mp ha
    exact hap e (by simp [he])
  have hdvd : ∀ a ∈ p :: blocks i, blockSize i ∣ a :=
    List.forall_mem_cons.mpr ⟨hlive.class_dvd i hi, hinv.blocks_dvd i⟩
  refine ⟨⟨setNext_classHead hfree₁ i p, classes_setNext hcl₁ ?_, ?_, hinv.nodes, hinv.gaps,
    hinv.blocks_dvd_update hdvd, hinv.live_release⟩, ?_⟩
  · refine ⟨h₁.next_setNext_self (.classHead i) p, hlive.ne_zero, linked_setNext (hcl₁ i) ?_⟩
    have hlink : h.next (.node p) = h₁.next (.node p) := h₁.next_setNext_of_ne (by simp) p
    exact hlink.trans (hnextp.trans (congrFun hag.listHeads i).symm)
  · refine hrel.perm (List.perm_middle.symm.trans (List.Perm.append_left _ ?_))
    exact ((classExtents_push blocks i p).append_right free).symm
  · have hwrites : WritesOk start stop ⟨h₁, s.live.erase (p, layout)⟩ :=
      writesOk_of_agree (l := [⟨p, blockSize i⟩]) hag (by simpa using hnode) hrel
        fun e he => List.mem_append_left _ he
    exact hwrites

theorem release {layout : Layout} {p fuel : Nat} {h : Heap} (hinv : Inv start stop s free blocks)
    (hstop : stop ≤ 2 ^ 64) (hi : listIndex layout = none) (hmem : (p, layout) ∈ s.live)
    (hrun : addFreeRegion fuel s.heap.startCall p layout.size = some h) :
    Inv start stop ⟨h, s.live.erase (p, layout)⟩ (releaseList free p layout.size) blocks ∧
      WritesOk start stop ⟨h, s.live.erase (p, layout)⟩ := by
  have hinv₀ := hinv.startCall
  have hlive := hinv.live _ hmem
  have hrel := hinv.packed_release hmem
  rw [show footprint layout = layout.size by simp [footprint, hi]] at hrel
  rcases Nat.lt_or_ge layout.size 16 with hlt | hge
  · rw [addFreeRegion_of_lt fuel _ hlive.eight_dvd hlt] at hrun
    obtain rfl := Option.some.inj hrun
    rw [releaseList, if_pos hlt]
    refine ⟨⟨hinv₀.freeAt, hinv₀.classes, hrel.tail, hinv.nodes, hinv.gaps, hinv.blocks_dvd,
      hinv.live_release⟩, ?_⟩
    simp [WritesOk, Heap.startCall]
  · have hnew : IsNode ⟨p, layout.size⟩ := ⟨hlive.eight_dvd, hge⟩
    have hnodes : ∀ e ∈ ⟨p, layout.size⟩ :: free, IsNode e :=
      List.forall_mem_cons.mpr ⟨hnew, hinv.nodes⟩
    have hlist : Packed start stop ((⟨p, layout.size⟩ :: free) ++
        (reserved (s.live.erase (p, layout)) ++ classExtents blocks)) :=
      hrel.perm ((perm_rotate ..).cons _)
    have hfree := hlist.sublist (List.sublist_append_left _ _)
    obtain ⟨h', hrun', hl', hag⟩ := addFreeRegion_spec hinv₀.freeAt hinv.nodes hinv.gaps
      (packed_widen hfree hstop) hnew hlive.ne_zero
      (Nat.lt_succ_self _)
    obtain rfl := eq_of_mono addFreeRegion_mono hrun hrun'
    have hreg := regrouped_insert ⟨p, layout.size⟩ free
    have hap : ∀ a ∈ List.map Extent.addr (⟨p, layout.size⟩ :: free),
        ∀ e ∈ reserved (s.live.erase (p, layout)) ++ classExtents blocks,
        Extent.Apart ⟨a, 16⟩ e := by
      intro a ha e he
      obtain ⟨f, hf, rfl⟩ := List.mem_map.mp ha
      exact header_apart (hnodes f hf) (hlist.apart_of_mem_append hf he)
    rw [releaseList, if_neg (by omega)]
    refine ⟨⟨hl', classes_transport hag hinv₀.classes fun e he a ha => hap a ha e (by simp [he]),
      ?_, hreg.nodes hnodes,
      canonical_coalesceList (sorted_insertSorted hinv.gaps.sorted hfree), hinv.blocks_dvd,
      hinv.live_release⟩, ?_⟩
    · exact (hreg.packed hlist).perm (perm_rotate ..).symm
    · apply writesOk_of_agree hag hnodes hlist
      exact fun e he => List.mem_append_left _ he

theorem word_outside {p w : Nat} {layout : Layout} {e : Extent} (hlive : LiveOk p layout)
    (h8 : 8 ∣ w) (hlo : p < w + 8) (hhi : w < p + layout.size) (he8 : 8 ∣ e.addr)
    (hsize : 16 ≤ e.size) (hap : Extent.Apart ⟨p, footprint layout⟩ e) :
    e.addr ≠ w ∧ e.addr + 8 ≠ w := by
  have hfoot := size_le_footprint layout
  have hp := hlive.eight_dvd
  unfold Apart Extent.stop at hap
  simp only at hap
  omega

theorem store {layout : Layout} {p w : Nat} (hinv : Inv start stop s free blocks)
    (hmem : (p, layout) ∈ s.live) (h8 : 8 ∣ w) (hlo : p < w + 8) (hhi : w < p + layout.size)
    (v : Nat) : Inv start stop ⟨s.heap.startCall.poke w v, s.live⟩ free blocks := by
  have hinv₀ := hinv.startCall
  have hout : ∀ e ∈ classExtents blocks ++ free, 8 ∣ e.addr → 16 ≤ e.size →
      e.addr ≠ w ∧ e.addr + 8 ≠ w := fun e he => fun h h' =>
    word_outside (hinv.live _ hmem) h8 hlo hhi h h'
      (hinv.packed.apart_of_mem_append (mem_reserved hmem) he)
  have hnext : ∀ a, a + 8 ≠ w →
      (s.heap.startCall.poke w v).next (.node a) = s.heap.startCall.next (.node a) := fun a ha =>
    Function.update_of_ne ha _ _
  refine ⟨⟨hinv₀.freeAt.linked.transport rfl fun u hu => ?_, fun e he => ?_⟩, fun i => ?_,
    hinv.packed, hinv.nodes, hinv.gaps, hinv.blocks_dvd, hinv.live⟩
  · obtain ⟨e, he, rfl⟩ : ∃ e ∈ free, Slot.node e.addr = u := by simpa using hu
    obtain ⟨hdvd, hsize⟩ := hinv.nodes e he
    exact hnext _ (hout e (List.mem_append_right _ he) hdvd hsize).2
  · obtain ⟨hdvd, hsize⟩ := hinv.nodes e he
    rw [← hinv₀.freeAt.sizes e he]
    exact Function.update_of_ne (hout e (List.mem_append_right _ he) hdvd hsize).1 _ _
  · refine (hinv₀.classes i).transport rfl fun u hu => ?_
    obtain ⟨a, ha, rfl⟩ := List.mem_map.mp hu
    have h16 := (sixteen_dvd_blockSize i).trans (hinv.blocks_dvd i a ha)
    exact hnext _ (hout _ (List.mem_append_left _ (mem_classExtents ha))
      (Nat.dvd_trans (by decide) h16) (sixteen_le_blockSize i)).2

end Inv

end AliluOS.Allocator
