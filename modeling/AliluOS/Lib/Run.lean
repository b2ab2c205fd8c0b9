import Mathlib.Order.Basic
import Mathlib.Data.List.Induction

/-! Runs of a labelled step relation. A run records each step as the state it
was taken in and its label, the newest first. -/

namespace AliluOS.Lib

variable {σ ι : Type*} {Step : σ → ι → σ → Prop} {s₀ s : σ} {tr : List (σ × ι)}

inductive Run (Step : σ → ι → σ → Prop) (s₀ : σ) : List (σ × ι) → σ → Prop
  | nil : Run Step s₀ [] s₀
  | cons {tr : List (σ × ι)} {s s' : σ} {i : ι} :
      Run Step s₀ tr s → Step s i s' → Run Step s₀ ((s, i) :: tr) s'

def Always (P : σ → Prop) (tr : List (σ × ι)) (s : σ) : Prop := P s ∧ ∀ x ∈ tr, P x.1

/-- Every step of a run was taken where the guard `C` allows it. -/
def Guarded (C : σ → ι → Prop) (tr : List (σ × ι)) : Prop := ∀ x ∈ tr, C x.1 x.2

@[simp] theorem guarded_nil (C : σ → ι → Prop) : Guarded C [] := by simp [Guarded]

@[simp] theorem guarded_cons {C : σ → ι → Prop} {s : σ} {i : ι} :
    Guarded C ((s, i) :: tr) ↔ C s i ∧ Guarded C tr := by
  simp [Guarded]

namespace Run

theorem exists_step (h : Run Step s₀ tr s) : ∀ x ∈ tr, ∃ s', Step x.1 x.2 s' := by
  induction h with
  | nil => exact List.forall_mem_nil _
  | cons _ hs ih => exact List.forall_mem_cons.mpr ⟨⟨_, hs⟩, ih⟩

theorem always_of_guarded {P : σ → Prop} {C : σ → ι → Prop} (h : Run Step s₀ tr s)
    (hinit : P s₀) (hstep : ∀ s i s', P s → C s i → Step s i s' → P s') (hC : Guarded C tr) :
    Always P tr s := by
  induction h with
  | nil => exact ⟨hinit, by simp⟩
  | cons _ hs ih =>
    obtain ⟨hc, hC⟩ := guarded_cons.mp hC
    have hP := ih hC
    exact ⟨hstep _ _ _ hP.1 hc hs, List.forall_mem_cons.mpr hP⟩

theorem invariant {P : σ → Prop} (h : Run Step s₀ tr s) (hinit : P s₀)
    (hstep : ∀ s i s', P s → Step s i s' → P s') : P s :=
  (h.always_of_guarded (C := fun _ _ => True) hinit (fun s i s' hP _ => hstep s i s' hP)
    fun _ _ => trivial).1

theorem trans {s' : σ} {tr' : List (σ × ι)} (h : Run Step s₀ tr s) (h' : Run Step s tr' s') :
    Run Step s₀ (tr' ++ tr) s' := by
  induction h' with
  | nil => exact h
  | cons _ hs ih => exact ih.cons hs

theorem exists_of_foldlM {f : σ → ι → Option σ} {is : List ι}
    (hstep : ∀ i ∈ is, ∀ s s', f s i = some s' → Step s i s') (h : is.foldlM f s₀ = some s) :
    ∃ tr, Run Step s₀ tr s ∧ tr.map Prod.snd = is.reverse := by
  induction is using List.reverseRecOn generalizing s with
  | nil =>
    obtain rfl := Option.some.inj h
    exact ⟨[], .nil, rfl⟩
  | append_singleton is i ih =>
    rw [List.foldlM_append] at h
    obtain ⟨s₁, his, hi⟩ := Option.bind_eq_some_iff.mp h
    obtain ⟨tr, hrun, hlabels⟩ := ih (fun j hj => hstep j (List.mem_append_left _ hj)) his
    refine ⟨(s₁, i) :: tr, hrun.cons (hstep i (by simp) _ _ (by simpa using hi)), ?_⟩
    rw [List.map_cons, hlabels, List.reverse_append, List.reverse_singleton, List.singleton_append]

theorem restrict {C : σ → ι → Prop} (h : Run Step s₀ tr s) (hC : Guarded C tr) :
    Run (fun s i s' => Step s i s' ∧ C s i) s₀ tr s := by
  induction h with
  | nil => exact .nil
  | cons _ hs ih =>
    obtain ⟨hc, hC⟩ := guarded_cons.mp hC
    exact (ih hC).cons ⟨hs, hc⟩

theorem unrestrict {C : σ → ι → Prop} (h : Run (fun s i s' => Step s i s' ∧ C s i) s₀ tr s) :
    Run Step s₀ tr s ∧ Guarded C tr := by
  induction h with
  | nil => exact ⟨.nil, guarded_nil C⟩
  | cons _ hs ih => exact ⟨ih.1.cons hs.1, guarded_cons.mpr ⟨hs.2, ih.2⟩⟩

/-- Where a step keeps `P` exactly when its guard holds, a run keeps `P`
throughout exactly when all its steps are guarded. The invariant `I` needs no guard,
but it may need `P`, before and after a step. -/
theorem always_iff_guarded_while {I P : σ → Prop} {C : σ → ι → Prop} (h : Run Step s₀ tr s)
    (hinv : I s₀) (hinit : P s₀) (hkeep : ∀ s i s', I s → P s → Step s i s' → P s' → I s')
    (hstep : ∀ s i s', I s → P s → Step s i s' → (P s' ↔ C s i)) :
    Always P tr s ↔ Guarded C tr := by
  constructor
  · intro hP
    have hboth : I s ∧ Guarded C tr := by
      induction h with
      | nil => exact ⟨hinv, by simp⟩
      | cons _ hs ih =>
        obtain ⟨hP', hP⟩ := hP
        obtain ⟨hPs, hPtr⟩ := List.forall_mem_cons.mp hP
        obtain ⟨hI, hC⟩ := ih ⟨hPs, hPtr⟩
        exact ⟨hkeep _ _ _ hI hPs hs hP', guarded_cons.mpr ⟨(hstep _ _ _ hI hPs hs).mp hP', hC⟩⟩
    exact hboth.2
  · intro hC
    have hnext : ∀ s i s', I s ∧ P s → C s i → Step s i s' → I s' ∧ P s' := by
      intro s i s' ⟨hI, hP⟩ hc hs
      have hP' := (hstep s i s' hI hP hs).mpr hc
      exact ⟨hkeep s i s' hI hP hs hP', hP'⟩
    have hboth := h.always_of_guarded ⟨hinv, hinit⟩ hnext hC
    exact ⟨hboth.1.2, fun x hx => (hboth.2 x hx).2⟩

theorem always_iff_guarded {I P : σ → Prop} {C : σ → ι → Prop} (h : Run Step s₀ tr s)
    (hinv : I s₀) (hinit : P s₀) (hkeep : ∀ s i s', I s → Step s i s' → I s')
    (hstep : ∀ s i s', I s → P s → Step s i s' → (P s' ↔ C s i)) :
    Always P tr s ↔ Guarded C tr :=
  h.always_iff_guarded_while hinv hinit (fun s i s' hI _ hs _ => hkeep s i s' hI hs) hstep

theorem measure_iff_guarded {α : Type*} [PartialOrder α] {f : σ → α} {P : σ → Prop}
    {C : σ → ι → Prop} (h : Run Step s₀ tr s) (hinit : P s₀)
    (hkeep : ∀ s i s', P s → Step s i s' → P s')
    (hstep : ∀ s i s', P s → Step s i s' → f s' ≤ f s ∧ (f s' = f s ↔ C s i)) :
    f s ≤ f s₀ ∧ (f s = f s₀ ↔ Guarded C tr) := by
  induction h with
  | nil => simp
  | cons hr hs ih =>
    obtain ⟨hle, heq⟩ := hstep _ _ _ (hr.invariant hinit hkeep) hs
    refine ⟨hle.trans ih.1, ?_⟩
    rw [guarded_cons, ← ih.2, ← heq]
    constructor
    · intro hend
      -- squeezed between its last and its first value
      have hlast := le_antisymm hle (hend.symm ▸ ih.1)
      exact ⟨hlast, hlast.symm.trans hend⟩
    · rintro ⟨hlast, hrest⟩
      exact hlast.trans hrest

end Run

end AliluOS.Lib
