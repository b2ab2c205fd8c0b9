import AliluOS.Lib.Run
import Mathlib.Data.List.Basic

/-! Forward simulation between two labelled step relations. A step of the lower one
shows a label of the upper one, which then takes that step, or it shows nothing. -/

namespace AliluOS.Lib

variable {σ τ ι κ : Type*}

structure Simulation (Step : σ → ι → σ → Prop) (Abs : τ → κ → τ → Prop)
    (shown : σ → ι → Option κ) (R : σ → τ → Prop) : Prop where
  silent : ∀ {s i s' t}, R s t → Step s i s' → shown s i = none → R s' t
  visible : ∀ {s i s' t k}, R s t → Step s i s' → shown s i = some k → ∃ t', Abs t k t' ∧ R s' t'

def showing (shown : σ → ι → Option κ) (tr : List (σ × ι)) : List κ :=
  tr.filterMap fun x => shown x.1 x.2

@[simp] theorem showing_nil (shown : σ → ι → Option κ) :
    showing shown ([] : List (σ × ι)) = [] := rfl

@[simp] theorem showing_cons (shown : σ → ι → Option κ) (s : σ) (i : ι) (tr : List (σ × ι)) :
    showing shown ((s, i) :: tr) = (shown s i).toList ++ showing shown tr := by
  cases h : shown s i with
  | none => exact List.filterMap_cons_none h
  | some k => exact List.filterMap_cons_some h

namespace Simulation
variable {Step : σ → ι → σ → Prop} {Abs : τ → κ → τ → Prop} {shown : σ → ι → Option κ}
  {R : σ → τ → Prop} {s₀ s : σ} {t₀ : τ} {tr : List (σ × ι)}

theorem run (sim : Simulation Step Abs shown R) (h₀ : R s₀ t₀) (hrun : Run Step s₀ tr s) :
    ∃ tr' t, Run Abs t₀ tr' t ∧ R s t ∧ tr'.map Prod.snd = showing shown tr := by
  induction hrun with
  | nil => exact ⟨[], t₀, .nil, h₀, rfl⟩
  | @cons tr s s' i _ hs ih =>
    obtain ⟨tr', t, hrun', hR, hlabels⟩ := ih
    cases hshown : shown s i with
    | none =>
      exact ⟨tr', t, hrun', sim.silent hR hs hshown, by simpa [hshown] using hlabels⟩
    | some k =>
      obtain ⟨t', habs, hR'⟩ := sim.visible hR hs hshown
      exact ⟨(t, k) :: tr', t', hrun'.cons habs, hR', by simpa [hshown] using hlabels⟩

/-- What the upper run has to show is to be seen in the lower one. -/
theorem run_showing (sim : Simulation Step Abs shown R) (h₀ : R s₀ t₀) (hrun : Run Step s₀ tr s) :
    ∃ tr' t, Run Abs t₀ tr' t ∧ R s t ∧
      ∀ {ω : Type} {above : τ → κ → Option ω} {below : σ → ι → Option ω},
        (∀ s t i s', R s t → Step s i s' → below s i = (shown s i).bind (above t)) →
          showing above tr' = showing below tr := by
  induction hrun with
  | nil => exact ⟨[], t₀, .nil, h₀, fun _ => rfl⟩
  | @cons tr s s' i _ hs ih =>
    obtain ⟨tr', t, hrun', hR, hsame⟩ := ih
    cases hshown : shown s i with
    | none =>
      refine ⟨tr', t, hrun', sim.silent hR hs hshown, fun hseen => ?_⟩
      have hnone := hseen s t i s' hR hs
      rw [hshown, Option.bind_none] at hnone
      rw [showing_cons, hnone, hsame hseen]
      rfl
    | some k =>
      obtain ⟨t', habs, hR'⟩ := sim.visible hR hs hshown
      refine ⟨(t, k) :: tr', t', hrun'.cons habs, hR', fun hseen => ?_⟩
      have hsome := hseen s t i s' hR hs
      rw [hshown, Option.bind_some] at hsome
      rw [showing_cons, showing_cons, hsome, hsame hseen]

theorem run_fold {f : κ → τ → τ} (sim : Simulation Step (fun t k t' => t' = f k t) shown R)
    (h₀ : R s₀ t₀) (hrun : Run Step s₀ tr s) : R s ((showing shown tr).foldr f t₀) := by
  obtain ⟨tr', t, hrun', hR, hlabels⟩ := sim.run h₀ hrun
  rw [← hlabels]
  clear hlabels hrun
  suffices hend : t = (tr'.map Prod.snd).foldr f t₀ from hend ▸ hR
  clear hR
  induction hrun' with
  | nil => rfl
  | cons _ hs ih => rw [hs, ih, List.map_cons, List.foldr_cons]

end Simulation

end AliluOS.Lib
