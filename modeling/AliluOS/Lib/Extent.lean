import Mathlib.Data.List.Perm.Basic
import Mathlib.Order.CompletePartialOrder
import Mathlib.Order.Interval.Set.Disjoint

/-! Extents of addresses, and lists of them packed without overlap into a
region. Splitting an extent, merging two that touch, and dropping one keep a
list packed; which list the extents stand in does not matter. -/

namespace AliluOS.Lib

structure Extent where
  addr : Nat
  size : Nat
deriving DecidableEq

namespace Extent

def stop (e : Extent) : Nat := e.addr + e.size

def bytes (e : Extent) : Set Nat := Set.Ico e.addr e.stop

def Apart (e f : Extent) : Prop := e.stop ≤ f.addr ∨ f.stop ≤ e.addr

def Within (e f : Extent) : Prop := f.addr ≤ e.addr ∧ e.stop ≤ f.stop

theorem Apart.symm {e f : Extent} (h : e.Apart f) : f.Apart e := Or.symm h

theorem Apart.mono {e f e' f' : Extent} (h : e.Apart f) (he : e'.Within e) (hf : f'.Within f) :
    e'.Apart f' := by
  unfold Apart Within at *
  omega

theorem Within.refl (e : Extent) : e.Within e := ⟨le_rfl, le_rfl⟩

theorem Apart.disjoint_bytes {e f : Extent} (h : e.Apart f) : Disjoint e.bytes f.bytes := by
  rw [Set.disjoint_left]
  intro x hx hx'
  simp only [bytes, Set.mem_Ico] at hx hx'
  rcases h with h | h <;> omega

theorem apart_of_disjoint {e f : Extent} (he : 0 < e.size) (hf : 0 < f.size)
    (h : Disjoint e.bytes f.bytes) : e.Apart f := by
  by_contra hap
  have hx : max e.addr f.addr ∉ f.bytes := by
    apply Set.disjoint_left.mp h
    simp only [Apart, bytes, Set.mem_Ico, stop] at *
    omega
  simp only [Apart, bytes, Set.mem_Ico, stop] at *
  omega

end Extent

open Extent

def Covers (l : List Extent) (x : Nat) : Prop := ∃ e ∈ l, x ∈ e.bytes

@[simp] theorem covers_nil (x : Nat) : ¬ Covers [] x := by simp [Covers]

@[simp] theorem covers_cons (e : Extent) (l : List Extent) (x : Nat) :
    Covers (e :: l) x ↔ (e.addr ≤ x ∧ x < e.stop) ∨ Covers l x := by
  simp [Covers, Extent.bytes]

@[simp] theorem covers_append (l l' : List Extent) (x : Nat) :
    Covers (l ++ l') x ↔ Covers l x ∨ Covers l' x := by
  simp [Covers, or_and_right, exists_or]

theorem Covers.perm {l l' : List Extent} (h : l.Perm l') {x : Nat} (hx : Covers l x) :
    Covers l' x := by
  obtain ⟨e, he, hex⟩ := hx
  exact ⟨e, h.mem_iff.mp he, hex⟩

/-- The extents of `l` are not empty, lie in `[start, stop)`, and no two overlap. -/
structure Packed (start stop : Nat) (l : List Extent) : Prop where
  pos : ∀ e ∈ l, 0 < e.size
  inside : ∀ e ∈ l, start ≤ e.addr ∧ e.stop ≤ stop
  apart : l.Pairwise Apart

namespace Packed

variable {start stop : Nat} {l l' : List Extent} {e f g : Extent}

theorem nil : Packed start stop [] := ⟨by simp, by simp, .nil⟩

theorem perm (h : Packed start stop l) (hp : l.Perm l') : Packed start stop l' :=
  ⟨fun e he => h.pos e (hp.mem_iff.mpr he), fun e he => h.inside e (hp.mem_iff.mpr he),
    hp.pairwise h.apart Apart.symm⟩

theorem sublist (h : Packed start stop l) (hs : l'.Sublist l) : Packed start stop l' :=
  ⟨fun e he => h.pos e (hs.subset he), fun e he => h.inside e (hs.subset he), h.apart.sublist hs⟩

theorem tail (h : Packed start stop (e :: l)) : Packed start stop l :=
  h.sublist (List.sublist_cons_self e l)

theorem head_apart (h : Packed start stop (e :: l)) : ∀ f ∈ l, e.Apart f :=
  (List.pairwise_cons.mp h.apart).1

theorem not_covers_tail (h : Packed start stop (e :: l)) {x : Nat} (hx : x ∈ e.bytes) :
    ¬ Covers l x := by
  rintro ⟨f, hf, hxf⟩
  exact Set.disjoint_left.mp (h.head_apart f hf).disjoint_bytes hx hxf

theorem cons (h : Packed start stop l) (hpos : 0 < e.size)
    (hin : start ≤ e.addr ∧ e.stop ≤ stop) (hap : ∀ f ∈ l, e.Apart f) :
    Packed start stop (e :: l) :=
  ⟨List.forall_mem_cons.mpr ⟨hpos, h.pos⟩, List.forall_mem_cons.mpr ⟨hin, h.inside⟩,
    List.pairwise_cons.mpr ⟨hap, h.apart⟩⟩

theorem shrink (h : Packed start stop (e :: l)) (hf : f.Within e) (hpos : 0 < f.size) :
    Packed start stop (f :: l) := by
  have hin := h.inside e (List.mem_cons_self ..)
  apply h.tail.cons hpos ⟨hin.1.trans hf.1, hf.2.trans hin.2⟩
  intro g hg
  exact (h.head_apart g hg).mono hf (Within.refl g)

theorem split (h : Packed start stop (e :: l)) (hf : f.Within e) (hg : g.Within e)
    (hfpos : 0 < f.size) (hgpos : 0 < g.size) (hfg : f.Apart g) :
    Packed start stop (f :: g :: l) := by
  have hfl := h.shrink hf hfpos
  apply (h.shrink hg hgpos).cons hfpos (hfl.inside f (List.mem_cons_self ..))
  exact List.forall_mem_cons.mpr ⟨hfg, hfl.head_apart⟩

theorem merge (h : Packed start stop (e :: f :: l)) (htouch : e.stop = f.addr) :
    Packed start stop (⟨e.addr, e.size + f.size⟩ :: l) := by
  have he := h.inside e (by simp)
  have hf := h.inside f (by simp)
  have hpos := h.pos e (by simp)
  refine h.tail.tail.cons (by simp only; omega) ⟨he.1, ?_⟩ ?_
  · unfold Extent.stop at *
    simp only
    omega
  · intro g hg
    -- an empty `g` could sit at the seam, so its size matters here
    have hgpos := h.pos g (by simp [hg])
    have h1 := h.head_apart g (by simp [hg])
    have h2 := h.tail.head_apart g hg
    unfold Apart Extent.stop at *
    simp only
    omega

theorem eq_or_apart (h : Packed start stop l) (he : e ∈ l) (hf : f ∈ l) : e = f ∨ e.Apart f := by
  have hpw : l.Pairwise fun e f => e = f ∨ e.Apart f := h.apart.imp Or.inr
  have hflip := hpw.imp fun {e f} hef => hef.imp (Eq.symm (a := e) (b := f)) Apart.symm
  exact hpw.forall_of_forall_of_flip (fun e _ => .inl rfl) hflip he hf

theorem apart_of_mem_append (h : Packed start stop (l ++ l')) (he : e ∈ l) (hf : f ∈ l') :
    e.Apart f :=
  (List.pairwise_append.mp h.apart).2.2 e he f hf

end Packed

end AliluOS.Lib
