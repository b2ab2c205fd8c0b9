import AliluOS.Allocator.Invariant

/-! What a call does to the lists of the heap, and that it returns. -/

namespace AliluOS.Allocator
open Lib Lib.Extent

def fallbackRequest (h : Heap) (layout : Layout) : Option Layout :=
  match listIndex layout with
  | some i => if h.listHeads i = 0 then some (blockLayout i) else none
  | none => some layout

/-- The search for the request leaves the address space at no region it looks at. -/
def Examined (free : List Extent) (request : Layout) : Prop :=
  ∀ pre e post, free = pre ++ e :: post → (∀ f ∈ pre, place f request = none) →
    NoOverflow e request

inductive Allocated (start stop : Nat) (s : State) (free : List Extent)
    (blocks : Fin 8 → List Nat) (layout : Layout) (h : Heap) (p : Nat) : Prop
  | pop {i : Fin 8} {rest : List Nat} : fallbackRequest s.heap layout = none → p ≠ 0 →
      Inv start stop ⟨h, (p, layout) :: s.live⟩ free (Function.update blocks i rest) →
      WritesOk start stop ⟨h, (p, layout) :: s.live⟩ → Allocated start stop s free blocks layout h p
  | cut {request : Layout} {pre post : List Extent} {e : Extent} :
      fallbackRequest s.heap layout = some request → free = pre ++ e :: post →
      (∀ f ∈ pre, place f request = none) → place e request = some p → p ≠ 0 →
      Inv start stop ⟨h, (p, layout) :: s.live⟩ (cutList pre post e request p) blocks →
      WritesOk start stop ⟨h, (p, layout) :: s.live⟩ → Allocated start stop s free blocks layout h p
  | fail {request : Layout} : fallbackRequest s.heap layout = some request →
      firstFit free request = none → p = 0 → Inv start stop ⟨h, s.live⟩ free blocks →
      WritesOk start stop ⟨h, s.live⟩ → Allocated start stop s free blocks layout h p

variable {start stop : Nat} {s : State} {free : List Extent} {blocks : Fin 8 → List Nat}
  {layout : Layout} {fuel p : Nat} {h : Heap}

theorem writesOk_nil {live : List (Nat × Layout)} (hh : h.mem.headerWrites = []) :
    WritesOk start stop ⟨h, live⟩ := by
  simp [WritesOk, hh]

theorem one_le_blockSize (i : Fin 8) : 1 ≤ blockSize i :=
  (by decide : 1 ≤ 16).trans (sixteen_le_blockSize i)

theorem request_size_pos {request : Layout} {h : Heap} (hsize : 1 ≤ layout.size)
    (hreq : fallbackRequest h layout = some request) : 1 ≤ request.size := by
  unfold fallbackRequest at hreq
  cases hi : listIndex layout with
  | none =>
    simp only [hi, Option.some.injEq] at hreq
    rwa [← hreq]
  | some i =>
    simp only [hi, Option.ite_none_right_eq_some, Option.some.injEq] at hreq
    rw [← hreq.2]
    exact one_le_blockSize i

theorem liveOk_of_request {request : Layout} {e : Extent} {a : Nat} (he : e.addr ≠ 0)
    (hreq : fallbackRequest s.heap layout = some request) (hsize : 1 ≤ layout.size)
    (hfits : Fits e request a) : footprint layout = request.size ∧ LiveOk a layout := by
  have ha : a ≠ 0 := by
    have hle := hfits.addr_le
    omega
  unfold fallbackRequest at hreq
  cases hi : listIndex layout with
  | none =>
    simp only [hi, Option.some.injEq] at hreq
    subst hreq
    exact ⟨by simp [footprint, hi], ha, hsize, hfits.align_dvd, hfits.eight_dvd, by simp [hi]⟩
  | some i =>
    simp only [hi, Option.ite_none_right_eq_some, Option.some.injEq] at hreq
    obtain ⟨-, rfl⟩ := hreq
    have hdvd : blockSize i ∣ a := hfits.align_dvd
    refine ⟨by simp [footprint, hi, blockLayout], ha, hsize,
      (listIndex_some hi).2.trans hdvd, hfits.eight_dvd, fun j hj => ?_⟩
    rwa [← Option.some.inj (hi.symm.trans hj)]

theorem alloc_of_request {request : Layout} {h : Heap}
    (hreq : fallbackRequest h layout = some request) (fuel : Nat) :
    alloc fuel h.startCall layout = fallbackAlloc fuel h.startCall request := by
  unfold fallbackRequest at hreq
  unfold alloc
  cases hi : listIndex layout with
  | none =>
    simp only [hi, Option.some.injEq] at hreq
    rw [hreq]
  | some i =>
    simp only [hi, Option.ite_none_right_eq_some, Option.some.injEq] at hreq
    obtain ⟨hhead, rfl⟩ := hreq
    have hnull : h.startCall.next (.classHead i) = 0 := hhead
    simp [hnull]

theorem alloc_of_none {h : Heap} (hreq : fallbackRequest h layout = none) (fuel : Nat) :
    ∃ i, listIndex layout = some i ∧ h.listHeads i ≠ 0 ∧ alloc fuel h.startCall layout =
      some (h.startCall.setNext (.classHead i) (h.startCall.next (.node (h.listHeads i))),
        h.listHeads i) := by
  unfold fallbackRequest at hreq
  cases hi : listIndex layout with
  | none => simp [hi] at hreq
  | some i =>
    simp only [hi, ite_eq_right_iff, reduceCtorEq, imp_false] at hreq
    refine ⟨i, rfl, hreq, ?_⟩
    have hhead : h.startCall.next (.classHead i) ≠ 0 := hreq
    unfold alloc
    simp only [hi]
    rw [if_pos hhead]
    rfl

theorem alloc_cases (hinv : Inv start stop s free blocks) (hstop : stop ≤ 2 ^ 64)
    (hsize : 1 ≤ layout.size) (hrun : alloc fuel s.heap.startCall layout = some (h, p)) :
    Allocated start stop s free blocks layout h p := by
  cases hreq : fallbackRequest s.heap layout with
  | none =>
    obtain ⟨i, hi, hhead, hpop⟩ := alloc_of_none hreq fuel
    obtain ⟨rfl, rfl⟩ := Prod.mk.inj (Option.some.inj (hpop.symm.trans hrun))
    have hlist := hinv.classes i
    cases hb : blocks i with
    | nil =>
      rw [hb] at hlist
      exact absurd hlist hhead
    | cons q rest =>
      rw [hb] at hlist
      obtain rfl : s.heap.listHeads i = q := hlist.1
      exact .pop hreq hhead (hinv.pop hi hsize hb) (writesOk_nil rfl)
  | some request =>
    rw [alloc_of_request hreq] at hrun
    have hl := hinv.startCall.freeAt
    cases hfit : firstFit free request with
    | none =>
      have hall : ∀ f ∈ free, allocFromRegion f request.size request.align = some none := by
        rw [← List.append_nil free] at hl
        exact examined_of_fallbackAlloc hl (firstFit_none.mp hfit) hrun
      have hrun' := fallbackAlloc_none hinv.startCall.freeAt (Nat.lt_succ_self _) hall
      obtain ⟨rfl, rfl⟩ := Prod.mk.inj (eq_of_mono fallbackAlloc_mono hrun hrun')
      exact .fail hreq hfit rfl hinv.startCall (writesOk_nil rfl)
    | some e =>
      obtain ⟨pre, post, a, rfl, hno, he⟩ := firstFit_some hfit
      have hfits := fits_of_place (hinv.nodes e (by simp)) he
      obtain ⟨hfoot, hok⟩ :=
        liveOk_of_request (hinv.freeAt.addr_ne_zero (e := e) (by simp)) hreq hsize hfits
      obtain ⟨rfl, hcut, hwrites⟩ := hinv.cut hstop (request_size_pos hsize hreq)
        (examined_of_fallbackAlloc hl hno hrun) he hfoot hok hrun
      exact .cut hreq rfl hno he hok.ne_zero hcut hwrites

theorem Examined.rejected {request : Layout} {pre post : List Extent}
    (hex : Examined (pre ++ post) request) (hno : ∀ f ∈ pre, place f request = none) :
    ∀ f ∈ pre, allocFromRegion f request.size request.align = some none := by
  intro f hf
  obtain ⟨front, back, rfl⟩ := List.append_of_mem hf
  have hfits := hex front f (back ++ post) (by simp) fun g hg => hno g (by simp [hg])
  obtain ⟨r, hr⟩ := Option.isSome_iff_exists.mp hfits.isSome
  have hnone := hno f hf
  rw [place, hr, Option.join_some] at hnone
  rw [hr, hnone]

theorem examined_of_alloc {request : Layout} {r : Heap × Nat} (hinv : Inv start stop s free blocks)
    (hstop : stop ≤ 2 ^ 64) (hreq : fallbackRequest s.heap layout = some request)
    (hrun : alloc fuel s.heap.startCall layout = some r) : Examined free request := by
  rintro pre e post rfl hno
  rw [alloc_of_request hreq] at hrun
  have he : e.addr < 2 ^ 64 := by
    have hlast := (hinv.packed_free.inside e (by simp)).2
    have hsize := (hinv.nodes e (by simp)).2
    unfold Extent.stop at hlast
    omega
  apply noOverflow_of_isSome he
  cases hplace : place e request with
  | some a => simp [allocFromRegion_of_place hplace]
  | none =>
    have hl : FreeAt s.heap.startCall .head ((pre ++ [e]) ++ post) := by
      simpa using hinv.startCall.freeAt
    have hno' : ∀ f ∈ pre ++ [e], place f request = none := by
      intro f hf
      rcases List.mem_append.mp hf with hf | hf
      · exact hno f hf
      · rwa [List.mem_singleton.mp hf]
    simp [examined_of_fallbackAlloc hl hno' hrun e (by simp)]

theorem alloc_runs (hinv : Inv start stop s free blocks) (hstop : stop ≤ 2 ^ 64)
    (hexamined : ∀ request, fallbackRequest s.heap layout = some request → Examined free request) :
    ∃ fuel r, alloc fuel s.heap.startCall layout = some r := by
  cases hreq : fallbackRequest s.heap layout with
  | none =>
    obtain ⟨i, -, -, hpop⟩ := alloc_of_none hreq 0
    exact ⟨0, _, hpop⟩
  | some request =>
    have hex := hexamined request hreq
    cases hfit : firstFit free request with
    | none =>
      rw [← List.append_nil free] at hex
      have hrun := fallbackAlloc_none hinv.startCall.freeAt (Nat.lt_succ_self _)
        (hex.rejected (firstFit_none.mp hfit))
      exact ⟨_, _, (alloc_of_request hreq _).trans hrun⟩
    | some e =>
      obtain ⟨pre, post, a, rfl, hno, he⟩ := firstFit_some hfit
      obtain ⟨h, hrun, -⟩ := fallbackAlloc_some hinv.startCall.freeAt hinv.nodes hinv.gaps
        (packed_widen hinv.packed_free hstop) (hex.rejected hno) he (Nat.lt_succ_self _)
      exact ⟨_, _, (alloc_of_request hreq _).trans hrun⟩

theorem examined_of_low (hinv : Inv start stop s free blocks) (hlow : stop ≤ 2 ^ 63)
    (request : Layout) : Examined free request := by
  intro pre e post hfree hno
  have hmem : e ∈ free := by simp [hfree]
  exact noOverflow_of_low (hinv.nodes e hmem) ((hinv.packed_free.inside e hmem).2.trans hlow)

def freeAfter (free : List Extent) (p : Nat) (layout : Layout) : List Extent :=
  match listIndex layout with
  | some _ => free
  | none => releaseList free p layout.size

def blocksAfter (blocks : Fin 8 → List Nat) (p : Nat) (layout : Layout) : Fin 8 → List Nat :=
  match listIndex layout with
  | some i => Function.update blocks i (p :: blocks i)
  | none => blocks

theorem dealloc_inv (hinv : Inv start stop s free blocks) (hstop : stop ≤ 2 ^ 64)
    (hmem : (p, layout) ∈ s.live) (hrun : dealloc fuel s.heap.startCall p layout = some h) :
    Inv start stop ⟨h, s.live.erase (p, layout)⟩ (freeAfter free p layout)
        (blocksAfter blocks p layout) ∧ WritesOk start stop ⟨h, s.live.erase (p, layout)⟩ := by
  unfold dealloc at hrun
  unfold freeAfter blocksAfter
  cases hi : listIndex layout with
  | none =>
    simp only [hi] at hrun
    exact hinv.release hstop hi hmem hrun
  | some i =>
    simp only [hi] at hrun
    obtain rfl := Option.some.inj hrun
    exact hinv.push hi hmem

theorem dealloc_runs (hinv : Inv start stop s free blocks) (hstop : stop ≤ 2 ^ 64)
    (hmem : (p, layout) ∈ s.live) : ∃ fuel h, dealloc fuel s.heap.startCall p layout = some h := by
  have hlive := hinv.live _ hmem
  unfold dealloc
  cases hi : listIndex layout with
  | some i => exact ⟨0, _, rfl⟩
  | none =>
    rcases Nat.lt_or_ge layout.size 16 with hlt | hge
    · exact ⟨0, _, addFreeRegion_of_lt 0 _ hlive.eight_dvd hlt⟩
    · have hrel := hinv.packed_release hmem
      rw [show footprint layout = layout.size by simp [footprint, hi]] at hrel
      have hsub := ((List.sublist_append_right (classExtents blocks) free).trans
        (List.sublist_append_right (reserved (s.live.erase (p, layout))) _)).cons_cons
          (⟨p, layout.size⟩ : Extent)
      obtain ⟨h, hrun, -⟩ := addFreeRegion_spec hinv.startCall.freeAt hinv.nodes hinv.gaps
        (packed_widen (hrel.sublist hsub) hstop) ⟨hlive.eight_dvd, hge⟩ hlive.ne_zero
        (Nat.lt_succ_self _)
      exact ⟨_, h, hrun⟩

end AliluOS.Allocator
