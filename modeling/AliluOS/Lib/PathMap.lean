import Mathlib.Data.List.Infix
import Mathlib.Logic.Function.Basic

/-! Hierarchies as maps from paths to entries. The root is a directory, and what
has an entry below it is a directory too. -/

namespace AliluOS.Lib

inductive Entry (γ : Type*)
  | dir
  | file (content : γ)
deriving DecidableEq

structure PathMap (κ γ : Type*) where
  entry : List κ → Option (Entry γ)
  root : entry [] = some .dir
  closed : ∀ p n, (entry (p ++ [n])).isSome → entry p = some .dir

namespace PathMap

variable {κ γ : Type*} {m : PathMap κ γ}

@[ext] theorem ext {m m' : PathMap κ γ} (h : ∀ p, m.entry p = m'.entry p) : m = m' := by
  obtain ⟨e, _, _⟩ := m
  obtain ⟨e', _, _⟩ := m'
  obtain rfl : e = e' := funext h
  rfl

theorem dir_of_append (m : PathMap κ γ) {p q : List κ} (hq : q ≠ [])
    (h : (m.entry (p ++ q)).isSome) : m.entry p = some .dir := by
  induction q using List.reverseRecOn with
  | nil => exact absurd rfl hq
  | append_singleton q n ih =>
    rw [← List.append_assoc] at h
    have hdir := m.closed _ _ h
    rcases eq_or_ne q [] with rfl | hne
    · simpa using hdir
    · exact ih hne (by simp [hdir])

theorem dir_of_prefix (m : PathMap κ γ) {p q : List κ} (hpq : p <+: q)
    (h : m.entry q = some .dir) : m.entry p = some .dir := by
  obtain ⟨r, rfl⟩ := hpq
  rcases eq_or_ne r [] with rfl | hr
  · simpa using h
  · exact m.dir_of_append hr (by simp [h])

variable [DecidableEq κ]

/-- The entry `e` put at `n` in the directory `p`. A directory that stands there
may only be replaced by a directory. -/
def set (m : PathMap κ γ) (p : List κ) (n : κ) (e : Entry γ) (hp : m.entry p = some .dir)
    (he : m.entry (p ++ [n]) = some .dir → e = .dir) : PathMap κ γ where
  entry := Function.update m.entry (p ++ [n]) (some e)
  root := by rw [Function.update_of_ne (by simp), m.root]
  closed := by
    intro q k h
    rcases eq_or_ne (q ++ [k]) (p ++ [n]) with heq | hne
    · obtain ⟨rfl, -⟩ := List.append_singleton_inj.mp heq
      rwa [Function.update_of_ne (by simp)]
    · rw [Function.update_of_ne hne] at h
      have hdir := m.closed q k h
      rcases eq_or_ne q (p ++ [n]) with rfl | hq
      · rw [Function.update_self, he hdir]
      · rwa [Function.update_of_ne hq]

@[simp] theorem entry_set {p q : List κ} {n : κ} {e : Entry γ} (hp : m.entry p = some .dir)
    (he : m.entry (p ++ [n]) = some .dir → e = .dir) :
    (m.set p n e hp he).entry q = if q = p ++ [n] then some e else m.entry q := by
  simp [set, Function.update_apply]

def remove (m : PathMap κ γ) (q : List κ) (hq : q ≠ []) : PathMap κ γ where
  entry r := if q <+: r then none else m.entry r
  root := by rw [if_neg (by simpa using hq), m.root]
  closed := by
    intro r k h
    split_ifs at h with hpre
    · simp at h
    · have hr : ¬ q <+: r := fun hr => hpre (hr.trans (List.prefix_append r [k]))
      rw [if_neg hr]
      exact m.closed r k h

@[simp] theorem entry_remove {q r : List κ} (hq : q ≠ []) :
    (m.remove q hq).entry r = if q <+: r then none else m.entry r := rfl

variable [DecidableEq γ] {p : List κ} {n : κ}

def create (m : PathMap κ γ) (p : List κ) (n : κ) (e : Entry γ) : PathMap κ γ :=
  if h : m.entry p = some .dir ∧ m.entry (p ++ [n]) = none then
    m.set p n e h.1 fun hdir => nomatch h.2.symm.trans hdir
  else m

def write (m : PathMap κ γ) (p : List κ) (n : κ) (c : γ) : PathMap κ γ :=
  if h : m.entry p = some .dir ∧ m.entry (p ++ [n]) ≠ some .dir then
    m.set p n (.file c) h.1 fun hdir => absurd hdir h.2
  else m

def delete (m : PathMap κ γ) (p : List κ) (n : κ) : PathMap κ γ :=
  m.remove (p ++ [n]) (List.append_ne_nil_of_right_ne_nil p (List.cons_ne_nil n []))

theorem entry_create {e : Entry γ} (h : m.entry p = some .dir ∧ m.entry (p ++ [n]) = none)
    (q : List κ) : (m.create p n e).entry q = if q = p ++ [n] then some e else m.entry q := by
  rw [create, dif_pos h, entry_set]

theorem create_of_not {e : Entry γ} (h : ¬ (m.entry p = some .dir ∧ m.entry (p ++ [n]) = none)) :
    m.create p n e = m := dif_neg h

theorem entry_write {c : γ} (h : m.entry p = some .dir ∧ m.entry (p ++ [n]) ≠ some .dir)
    (q : List κ) :
    (m.write p n c).entry q = if q = p ++ [n] then some (.file c) else m.entry q := by
  rw [write, dif_pos h, entry_set]

theorem write_of_not {c : γ} (h : ¬ (m.entry p = some .dir ∧ m.entry (p ++ [n]) ≠ some .dir)) :
    m.write p n c = m := dif_neg h

omit [DecidableEq γ] in
theorem entry_delete (q : List κ) :
    (m.delete p n).entry q = if p ++ [n] <+: q then none else m.entry q := rfl

omit [DecidableEq γ] in
theorem delete_of_none (h : m.entry (p ++ [n]) = none) : m.delete p n = m := by
  ext q : 1
  rw [entry_delete]
  split_ifs with hpre
  · obtain ⟨r, rfl⟩ := hpre
    rcases eq_or_ne r [] with rfl | hne
    · rw [List.append_nil, h]
    · cases hr : m.entry (p ++ [n] ++ r) with
      | none => rfl
      | some e =>
        have hdir := m.dir_of_append hne (Option.isSome_of_eq_some hr)
        exact nomatch h.symm.trans hdir
  · rfl

end PathMap

end AliluOS.Lib
