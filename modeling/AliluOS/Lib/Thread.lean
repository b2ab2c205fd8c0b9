import Mathlib.Data.List.Basic

/-! One thread of control over locks that are not reentrant: to lock a lock whose
guard is alive is to wait for oneself. Programs come with weakest preconditions
for their three outcomes. -/

namespace AliluOS.Lib

/-- The state, and the locks of which a guard is alive. -/
structure Held (L σ : Type) where
  locks : List L
  state : σ

inductive Stop (L ε : Type)
  | deadlock (l : L)
  | halt (e : ε)

abbrev Thread (L ε σ : Type) := StateT (Held L σ) (Except (Stop L ε))

namespace Thread

variable {L ε σ α β : Type} [DecidableEq L]

def lock (l : L) : Thread L ε σ Unit := fun m =>
  if l ∈ m.locks then .error (.deadlock l) else .ok ((), { m with locks := l :: m.locks })

def unlock (l : L) : Thread L ε σ Unit := fun m => .ok ((), { m with locks := m.locks.erase l })

def withLock (l : L) (body : Thread L ε σ α) : Thread L ε σ α := do
  lock l
  let a ← body
  unlock l
  return a

def halt (e : ε) : Thread L ε σ α := fun _ => .error (.halt e)

def read : Thread L ε σ σ := fun m => .ok (m.state, m)

def update (f : σ → σ) : Thread L ε σ Unit := fun m => .ok ((), { m with state := f m.state })

/-- A loop that carries a value of type `β` until its body ends it, for at most
`n` rounds; `e` says what running out of them means. -/
def iterate (e : ε) (body : β → Thread L ε σ (β ⊕ α)) : Nat → β → Thread L ε σ α
  | 0, _ => halt e
  | n + 1, b => do
    match ← body b with
    | .inl b => iterate e body n b
    | .inr a => return a

structure Post (L ε σ α : Type) where
  ok : α → Held L σ → Prop
  deadlock : L → Prop
  halt : ε → Prop

def wp (t : Thread L ε σ α) (m : Held L σ) (P : Post L ε σ α) : Prop :=
  match t m with
  | .ok (a, m') => P.ok a m'
  | .error (.deadlock l) => P.deadlock l
  | .error (.halt e) => P.halt e

/-- No deadlock, `Q` when the program returns, and no halt unless `stuck`. -/
def safely (stuck : Prop) (Q : α → Held L σ → Prop) : Post L ε σ α :=
  ⟨Q, fun _ => False, fun _ => stuck⟩

variable {m : Held L σ} {P : Post L ε σ α}

section

omit [DecidableEq L]

@[simp] theorem safely_ok {stuck : Prop} (Q : α → Held L σ → Prop) :
    (safely stuck Q : Post L ε σ α).ok = Q := rfl

@[simp] theorem safely_deadlock {stuck : Prop} (Q : α → Held L σ → Prop) (l : L) :
    (safely stuck Q : Post L ε σ α).deadlock l ↔ False := Iff.rfl

@[simp] theorem safely_halt {stuck : Prop} (Q : α → Held L σ → Prop) (e : ε) :
    (safely stuck Q : Post L ε σ α).halt e ↔ stuck := Iff.rfl

@[simp] theorem wp_pure (a : α) : wp (pure a : Thread L ε σ α) m P ↔ P.ok a m := Iff.rfl

@[simp] theorem wp_bind (t : Thread L ε σ β) (f : β → Thread L ε σ α) :
    wp (t >>= f) m P ↔ wp t m ⟨fun b m' => wp (f b) m' P, P.deadlock, P.halt⟩ := by
  unfold wp
  change (match (t m >>= fun x => f x.1 x.2) with
    | .ok (a, m') => _
    | .error (.deadlock l) => _
    | .error (.halt e) => _) ↔ _
  rcases t m with (l | e) | ⟨b, m'⟩ <;> rfl

@[simp] theorem wp_map (t : Thread L ε σ β) (f : β → α) :
    wp (f <$> t) m P ↔ wp t m ⟨fun b m' => P.ok (f b) m', P.deadlock, P.halt⟩ := by
  rw [map_eq_pure_bind, wp_bind]
  rfl

@[simp] theorem wp_halt (e : ε) : wp (halt e : Thread L ε σ α) m P ↔ P.halt e := Iff.rfl

@[simp] theorem wp_read {P : Post L ε σ σ} : wp read m P ↔ P.ok m.state m := Iff.rfl

@[simp] theorem wp_update (f : σ → σ) {P : Post L ε σ Unit} :
    wp (update f) m P ↔ P.ok () { m with state := f m.state } := Iff.rfl

@[simp] theorem wp_unlock [DecidableEq L] (l : L) {P : Post L ε σ Unit} :
    wp (unlock l) m P ↔ P.ok () { m with locks := m.locks.erase l } := Iff.rfl

theorem wp_mono {t : Thread L ε σ α} {P' : Post L ε σ α} (h : wp t m P)
    (hok : ∀ a m', P.ok a m' → P'.ok a m') (hdead : ∀ l, P.deadlock l → P'.deadlock l)
    (hhalt : ∀ e, P.halt e → P'.halt e) : wp t m P' := by
  revert h
  unfold wp
  rcases t m with (l | e) | ⟨a, m'⟩
  · exact hdead l
  · exact hhalt e
  · exact hok a m'

theorem wp_safely_mono {t : Thread L ε σ α} {stuck : Prop} {Q Q' : α → Held L σ → Prop}
    (h : wp t m (safely stuck Q)) (hQ : ∀ a m', Q a m' → Q' a m') : wp t m (safely stuck Q') :=
  wp_mono h hQ (fun _ => id) fun _ => id

/-- The loop rule: `I` holds before every round, and `Q` when the loop ends. It may
run out of rounds. -/
theorem wp_iterate {stuck : Prop} {I : β → Held L σ → Prop} {Q : α → Held L σ → Prop} {e : ε}
    {body : β → Thread L ε σ (β ⊕ α)} {n : Nat} {b : β} (hstuck : stuck) (h : I b m)
    (hbody : ∀ b m, I b m → wp (body b) m (safely stuck fun r m' =>
      match r with
      | .inl b' => I b' m'
      | .inr a => Q a m')) :
    wp (iterate e body n b) m (safely stuck Q) := by
  induction n generalizing b m with
  | zero => exact hstuck
  | succ n ih =>
    rw [iterate, wp_bind]
    refine wp_mono (hbody b m h) (fun r m' hr => ?_) (fun _ => id) fun _ => id
    cases r with
    | inl b' => exact ih hr
    | inr a => exact hr

theorem deadlock_iff_of_wp {t : Thread L ε σ α} {C : Prop} {Q : α → Held L σ → Prop}
    (h : wp t m ⟨fun a m' => ¬ C ∧ Q a m', fun _ => C, fun _ => ¬ C⟩) :
    (∃ l, t m = .error (.deadlock l)) ↔ C := by
  unfold wp at h
  rcases ht : t m with (l | e) | ⟨a, m'⟩ <;> rw [ht] at h <;> simp_all

theorem halt_iff_of_wp {t : Thread L ε σ α} {C : Prop} {e : ε}
    (h : wp t m ⟨fun _ _ => ¬ C, fun _ => ¬ C, fun e' => e' = e ↔ C⟩) :
    t m = .error (.halt e) ↔ C := by
  unfold wp at h
  rcases ht : t m with (l | e') | ⟨a, m'⟩ <;> rw [ht] at h
  · simpa using h
  · simpa using h
  · simpa using h

theorem exists_of_wp {t : Thread L ε σ α} {stuck : Prop} {Q : α → Held L σ → Prop}
    (h : wp t m (safely stuck Q)) (hstuck : ¬ stuck) : ∃ a m', t m = .ok (a, m') ∧ Q a m' := by
  unfold wp at h
  rcases ht : t m with (l | e) | ⟨a, m'⟩ <;> rw [ht] at h
  · exact h.elim
  · exact absurd h hstuck
  · exact ⟨a, m', rfl, h⟩

theorem ok_of_wp {t : Thread L ε σ α} {a : α} {m' : Held L σ} (h : wp t m P)
    (ht : t m = .ok (a, m')) : P.ok a m' := by
  unfold wp at h
  rw [ht] at h
  exact h

end

@[simp] theorem wp_lock (l : L) {P : Post L ε σ Unit} :
    wp (lock l) m P ↔
      if l ∈ m.locks then P.deadlock l else P.ok () { m with locks := l :: m.locks } := by
  unfold wp lock
  split_ifs <;> rfl

@[simp] theorem wp_withLock (l : L) (body : Thread L ε σ α) :
    wp (withLock l body) m P ↔
      if l ∈ m.locks then P.deadlock l
      else wp body { m with locks := l :: m.locks }
        ⟨fun a m' => P.ok a { m' with locks := m'.locks.erase l }, P.deadlock, P.halt⟩ := by
  simp only [withLock, wp_bind, wp_lock, wp_unlock, wp_pure]

theorem wp_safely_withLock {l : L} {ls : List L} {stuck : Prop} {Q : α → σ → Prop}
    {body : Thread L ε σ α} (hm : m.locks = ls) (hl : l ∉ ls)
    (h : wp body { m with locks := l :: ls }
      (safely stuck fun a m' => m'.locks = l :: ls ∧ Q a m'.state)) :
    wp (withLock l body) m (safely stuck fun a m' => m'.locks = ls ∧ Q a m'.state) := by
  subst hm
  rw [wp_withLock, if_neg hl]
  refine wp_safely_mono h fun a m' ⟨hlocks, hq⟩ => ?_
  exact ⟨by simp [hlocks], hq⟩

-- no proof past this point runs a program
attribute [irreducible] wp

end Thread

end AliluOS.Lib
