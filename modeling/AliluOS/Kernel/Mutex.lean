import AliluOS.Lib.Simulation
import Mathlib.Logic.Function.Basic

/-! `spin::Mutex`, which `vga.rs`, `fs.rs` and `allocator.rs` each carry a copy of,
and any number of threads that take it. A thread reads the value through its guard
and writes it back in two steps, and all the others may move between the two. The
orderings Acquire and Release are what makes the steps of a run a sequence here. -/

namespace AliluOS.Spin
open Lib

structure Mutex (α : Type) where
  locked : Bool
  value : α

namespace Mutex
variable {α : Type}

def new (value : α) : Mutex α := ⟨false, value⟩

def compareExchangeWeak (m : Mutex α) (spurious : Bool) : Option (Mutex α) :=
  if m.locked = false ∧ spurious = false then some { m with locked := true } else none

theorem compareExchangeWeak_eq_some {m m' : Mutex α} {spurious : Bool}
    (h : m.compareExchangeWeak spurious = some m') :
    m.locked = false ∧ m' = { m with locked := true } := by
  unfold compareExchangeWeak at h
  split_ifs at h with hfree
  exact ⟨hfree.1, (Option.some.inj h).symm⟩

def drop (m : Mutex α) : Mutex α := { m with locked := false }

end Mutex

variable {τ κ α β : Type} [DecidableEq τ]

abbrev Access (α β : Type) := α × β → α × β

/-- Where a thread is: outside, in the loop of `lock`, or in a section with its guard
alive, between two accesses or inside one. -/
inductive Place (κ α β : Type)
  | outside
  | locking (k : κ)
  | holding (k : κ) (rest : List (Access α β))
  | loaded (seen : α) (k : κ) (access : Access α β) (rest : List (Access α β))

namespace Place

def Inside : Place κ α β → Prop
  | .holding .. | .loaded .. => True
  | _ => False

def pending : Place κ α β → List κ
  | .outside => []
  | .locking k | .holding k _ | .loaded _ k .. => [k]

end Place

structure Threads (τ κ α β : Type) where
  mutex : Mutex α
  place : τ → Place κ α β
  own : τ → β

inductive Event (τ κ : Type)
  | enter (i : τ) (k : κ)
  | attempt (i : τ) (spurious : Bool)
  | load (i : τ)
  | store (i : τ)
  | drop (i : τ)

namespace Threads

def start (value : α) (own : τ → β) : Threads τ κ α β := ⟨.new value, fun _ => .outside, own⟩

def move (s : Threads τ κ α β) (i : τ) (p : Place κ α β) : Threads τ κ α β :=
  { s with place := Function.update s.place i p }

def writeBack (s : Threads τ κ α β) (i : τ) (r : α × β) : Threads τ κ α β :=
  { s with mutex := { s.mutex with value := r.1 }, own := Function.update s.own i r.2 }

/-- `code k` is the text of the section `k`. -/
inductive Step (code : κ → List (Access α β)) :
    Threads τ κ α β → Event τ κ → Threads τ κ α β → Prop
  | enter {s : Threads τ κ α β} {i : τ} {k : κ} :
      s.place i = .outside → Step code s (.enter i k) (s.move i (.locking k))
  | acquire {s : Threads τ κ α β} {i : τ} {k : κ} {spurious : Bool} {m : Mutex α} :
      s.place i = .locking k → s.mutex.compareExchangeWeak spurious = some m →
      Step code s (.attempt i spurious) { s.move i (.holding k (code k)) with mutex := m }
  | spin {s : Threads τ κ α β} {i : τ} {k : κ} {spurious : Bool} :
      s.place i = .locking k → s.mutex.compareExchangeWeak spurious = none →
      Step code s (.attempt i spurious) s
  | load {s : Threads τ κ α β} {i : τ} {k : κ} {access : Access α β}
      {rest : List (Access α β)} : s.place i = .holding k (access :: rest) →
      Step code s (.load i) (s.move i (.loaded s.mutex.value k access rest))
  | store {s : Threads τ κ α β} {i : τ} {k : κ} {access : Access α β}
      {rest : List (Access α β)} {seen : α} : s.place i = .loaded seen k access rest →
      Step code s (.store i) ((s.writeBack i (access (seen, s.own i))).move i (.holding k rest))
  | drop {s : Threads τ κ α β} {i : τ} {k : κ} : s.place i = .holding k [] →
      Step code s (.drop i) { s.move i .outside with mutex := s.mutex.drop }

section
variable (s : Threads τ κ α β) (i : τ) (p : Place κ α β) (r : α × β)

@[simp] theorem move_mutex : (s.move i p).mutex = s.mutex := rfl

@[simp] theorem move_own : (s.move i p).own = s.own := rfl

@[simp] theorem move_place : (s.move i p).place = Function.update s.place i p := rfl

theorem move_place_self : (s.move i p).place i = p := Function.update_self ..

@[simp] theorem writeBack_place : (s.writeBack i r).place = s.place := rfl

@[simp] theorem writeBack_locked : (s.writeBack i r).mutex.locked = s.mutex.locked := rfl

@[simp] theorem writeBack_value : (s.writeBack i r).mutex.value = r.1 := rfl

@[simp] theorem writeBack_own : (s.writeBack i r).own = Function.update s.own i r.2 := rfl

end

/-! ## One section at a time -/

structure Serial (τ α β : Type) where
  value : α
  own : τ → β

def perform (body : List (Access α β)) (r : α × β) : α × β :=
  body.foldl (fun r access => access r) r

def Serial.serve (code : κ → List (Access α β)) (t : Serial τ α β) (x : τ × κ) : Serial τ α β :=
  let r := perform (code x.2) (t.value, t.own x.1)
  ⟨r.1, Function.update t.own x.1 r.2⟩

def serial (code : κ → List (Access α β)) (value : α) (own : τ → β) (l : List (τ × κ)) :
    Serial τ α β :=
  l.foldr (fun x t => t.serve code x) ⟨value, own⟩

def ended (s : Threads τ κ α β) : Event τ κ → Option (τ × κ)
  | .drop i =>
    match s.place i with
    | .holding k [] => some (i, k)
    | _ => none
  | _ => none

def begun (_ : Threads τ κ α β) : Event τ κ → Option (τ × κ)
  | .enter i k => some (i, k)
  | _ => none

/-- What thread `i` has still to do, from where it is, gives what its whole section
gives from `t`. -/
def OnTrack (code : κ → List (Access α β)) (s : Threads τ κ α β) (t : Serial τ α β) (i : τ) :
    Prop :=
  match s.place i with
  | .holding k rest =>
    perform rest (s.mutex.value, s.own i) = perform (code k) (t.value, t.own i)
  | .loaded seen k access rest =>
    seen = s.mutex.value ∧
      perform rest (access (seen, s.own i)) = perform (code k) (t.value, t.own i)
  | _ => False

/-- The state `t` that the sections so far have left, while `holder` is inside the next. -/
structure HeldBy (code : κ → List (Access α β)) (s : Threads τ κ α β) (t : Serial τ α β)
    (holder : Option τ) : Prop where
  inside_iff : ∀ i, (s.place i).Inside ↔ holder = some i
  locked : s.mutex.locked = holder.isSome
  own : ∀ j, holder ≠ some j → s.own j = t.own j
  value : holder = none → s.mutex.value = t.value
  onTrack : ∀ i, holder = some i → s.OnTrack code t i

theorem inside_update_iff {place : τ → Place κ α β} {holder holder' : Option τ} {i : τ}
    {p : Place κ α β} (hinside : ∀ j, (place j).Inside ↔ holder = some j)
    (hothers : ∀ j ≠ i, holder = some j ↔ holder' = some j) (hp : p.Inside ↔ holder' = some i)
    (j : τ) : (Function.update place i p j).Inside ↔ holder' = some j := by
  rcases eq_or_ne j i with rfl | hji
  · rwa [Function.update_self]
  · rw [Function.update_of_ne hji]
    exact (hinside j).trans (hothers j hji)

namespace HeldBy
variable {code : κ → List (Access α β)} {s : Threads τ κ α β} {t : Serial τ α β}
  {holder : Option τ} {i : τ} {k : κ} {rest : List (Access α β)} {access : Access α β} {seen : α}

section
omit [DecidableEq τ]

theorem start (value : α) (own : τ → β) :
    (start value own).HeldBy code ⟨value, own⟩ none where
  inside_iff i := by simp [Threads.start, Place.Inside]
  locked := rfl
  own _ _ := rfl
  value _ := rfl
  onTrack i h := by cases h

theorem eq_some (h : s.HeldBy code t holder) (hi : (s.place i).Inside) : holder = some i :=
  (h.inside_iff i).mp hi

theorem eq_none (h : s.HeldBy code t holder) (hfree : s.mutex.locked = false) :
    holder = none := by
  have hlocked := h.locked
  rw [hfree] at hlocked
  exact Option.isNone_iff_eq_none.mp (by simpa using hlocked.symm)

theorem locked_iff (h : s.HeldBy code t holder) :
    s.mutex.locked = true ↔ ∃ i, (s.place i).Inside := by
  rw [h.locked, Option.isSome_iff_exists]
  exact exists_congr fun i => (h.inside_iff i).symm

end

theorem move_outside (h : s.HeldBy code t holder) {p : Place κ α β} (hi : ¬ (s.place i).Inside)
    (hp : ¬ p.Inside) : (s.move i p).HeldBy code t holder where
  inside_iff := inside_update_iff h.inside_iff (fun _ _ => Iff.rfl)
    (iff_of_false hp (mt (h.inside_iff i).mpr hi))
  locked := h.locked
  own := h.own
  value := h.value
  onTrack j hj := by
    have hji : j ≠ i := by
      rintro rfl
      exact hi ((h.inside_iff j).mpr hj)
    have htrack := h.onTrack j hj
    simpa [OnTrack, hji] using htrack

theorem acquire (h : s.HeldBy code t holder) (hfree : s.mutex.locked = false) :
    ({ s.move i (.holding k (code k)) with mutex := { s.mutex with locked := true } } :
      Threads τ κ α β).HeldBy code t (some i) := by
  obtain rfl := h.eq_none hfree
  exact
    { inside_iff := inside_update_iff h.inside_iff (fun j hj => by simp [hj.symm])
        (by simp [Place.Inside])
      locked := rfl
      own := fun j _ => h.own j (by simp)
      value := by simp
      onTrack := by
        rintro j ⟨⟩
        simp [OnTrack, h.value rfl, h.own i (by simp)] }

theorem load (h : s.HeldBy code t holder) (hi : s.place i = .holding k (access :: rest)) :
    (s.move i (.loaded s.mutex.value k access rest)).HeldBy code t holder := by
  obtain rfl := h.eq_some (i := i) (by simp [hi, Place.Inside])
  have htrack := h.onTrack i rfl
  exact
    { inside_iff := inside_update_iff h.inside_iff (fun _ _ => Iff.rfl) (by simp [Place.Inside])
      locked := h.locked
      own := h.own
      value := by simp
      onTrack := by
        rintro j ⟨⟩
        simpa [OnTrack, hi, perform] using htrack }

theorem store (h : s.HeldBy code t holder) (hi : s.place i = .loaded seen k access rest) :
    ((s.writeBack i (access (seen, s.own i))).move i (.holding k rest)).HeldBy code t holder := by
  obtain rfl := h.eq_some (i := i) (by simp [hi, Place.Inside])
  have htrack := h.onTrack i rfl
  exact
    { inside_iff := inside_update_iff h.inside_iff (fun _ _ => Iff.rfl) (by simp [Place.Inside])
      locked := h.locked
      own := by
        intro j hj
        have hji : j ≠ i := fun e => hj (e ▸ rfl)
        simpa [hji] using h.own j hj
      value := by simp
      onTrack := by
        rintro j ⟨⟩
        rw [OnTrack, hi] at htrack
        simpa [OnTrack] using htrack.2 }

theorem drop (h : s.HeldBy code t holder) (hi : s.place i = .holding k []) :
    ({ s.move i .outside with mutex := s.mutex.drop } : Threads τ κ α β).HeldBy code
      (t.serve code (i, k)) none := by
  obtain rfl := h.eq_some (i := i) (by simp [hi, Place.Inside])
  have htrack := h.onTrack i rfl
  rw [OnTrack, hi] at htrack
  have hend : (s.mutex.value, s.own i) = perform (code k) (t.value, t.own i) := htrack
  exact
    { inside_iff := inside_update_iff h.inside_iff (fun j hj => by simp [hj.symm])
        (by simp [Place.Inside])
      locked := rfl
      own := by
        intro j _
        rcases eq_or_ne j i with rfl | hji
        · simp [Serial.serve, ← hend]
        · simpa [Serial.serve, hji] using h.own j (by simpa using hji.symm)
      value := fun _ => by simp [Serial.serve, ← hend, Mutex.drop]
      onTrack := by simp }

end HeldBy

theorem step_simulation (code : κ → List (Access α β)) :
    Simulation (Step (τ := τ) code) (fun t x t' => t' = t.serve code x) ended
      fun s t => ∃ holder, s.HeldBy code t holder where
  silent := by
    rintro s e s' t ⟨holder, h⟩ hs hshown
    cases hs with
    | enter hi =>
      exact ⟨holder, h.move_outside (by simp [hi, Place.Inside]) (by simp [Place.Inside])⟩
    | @acquire i _ _ m hi hm =>
      obtain ⟨hfree, rfl⟩ := Mutex.compareExchangeWeak_eq_some hm
      exact ⟨some i, h.acquire hfree⟩
    | spin => exact ⟨holder, h⟩
    | load hi => exact ⟨holder, h.load hi⟩
    | store hi => exact ⟨holder, h.store hi⟩
    | drop hi => simp [ended, hi] at hshown
  visible := by
    rintro s e s' t x ⟨holder, h⟩ hs hshown
    cases hs with
    | @drop i k hi =>
      obtain rfl : (i, k) = x := by simpa [ended, hi] using hshown
      exact ⟨_, rfl, none, h.drop hi⟩
    | _ => simp [ended] at hshown

/-! ## Whole runs -/

def sectionsOf (i : τ) (l : List (τ × κ)) : List κ :=
  l.filterMap fun x => if x.1 = i then some x.2 else none

@[simp] theorem sectionsOf_append (i : τ) (l l' : List (τ × κ)) :
    sectionsOf i (l ++ l') = sectionsOf i l ++ sectionsOf i l' := List.filterMap_append

variable {code : κ → List (Access α β)} {s s' : Threads τ κ α β}
  {tr : List (Threads τ κ α β × Event τ κ)} {value : α} {own : τ → β}

theorem step_pending {e : Event τ κ} (hs : Step code s e s') (j : τ) :
    (s'.place j).pending ++ sectionsOf j (ended s e).toList =
      sectionsOf j (begun s e).toList ++ (s.place j).pending := by
  cases hs with
  | @enter i _ hi | @acquire i _ _ _ hi _ | @drop i _ hi | @load i _ _ _ hi
  | @store i _ _ _ _ hi =>
    rcases eq_or_ne j i with rfl | hji
    · simp [ended, begun, sectionsOf, Place.pending, hi]
    · simp [ended, begun, sectionsOf, hi, hji, hji.symm]
  | spin => simp [ended, begun, sectionsOf]

theorem sections_once (hrun : Run (Step code) (start value own) tr s) (i : τ) :
    (s.place i).pending ++ sectionsOf i (showing ended tr) = sectionsOf i (showing begun tr) := by
  induction hrun with
  | nil => rfl
  | cons _ hs ih =>
    rw [showing_cons, showing_cons, sectionsOf_append, sectionsOf_append, ← ih,
      ← List.append_assoc, step_pending hs, List.append_assoc]

/-- In every interleaving of any number of threads, whichever attempts fail: at most one
thread is inside a section, one is exactly when the lock is taken, and whenever it is
free, the value and what each thread has kept are as if the sections so far had run one
after another. Every section that a thread began is one of these, once and in
order, or the one it is still about. -/
theorem sections_serial (hrun : Run (Step code) (start value own) tr s) :
    (∀ i j, (s.place i).Inside → (s.place j).Inside → i = j) ∧
      (s.mutex.locked = true ↔ ∃ i, (s.place i).Inside) ∧
      (s.mutex.locked = false →
        s.mutex.value = (serial code value own (showing ended tr)).value ∧
          s.own = (serial code value own (showing ended tr)).own) ∧
      ∀ i, (s.place i).pending ++ sectionsOf i (showing ended tr) =
        sectionsOf i (showing begun tr) := by
  obtain ⟨holder, h⟩ := (step_simulation code).run_fold ⟨none, .start value own⟩ hrun
  refine ⟨fun i j hi hj => ?_, h.locked_iff, fun hfree => ?_, sections_once hrun⟩
  · exact Option.some.inj ((h.eq_some hi).symm.trans (h.eq_some hj))
  · obtain rfl := h.eq_none hfree
    exact ⟨h.value rfl, funext fun j => h.own j (by simp)⟩

theorem sections_serial_add :
    ∃ (s : Threads Bool Unit Nat Unit) (l : List (Bool × Unit)),
      l.length = 2 ∧ s.mutex.value = 2 ∧
        s.mutex.value = (serial (fun _ => [fun r => (r.1 + 1, r.2)]) 0 (fun _ => ()) l).value := by
  have hfirst := (((((((Run.nil.cons (i := .enter false ()) (.enter rfl)).cons
    (i := .enter true ()) (.enter rfl)).cons (i := .attempt false false) (.acquire rfl rfl)).cons
    (i := .load false) (.load rfl)).cons (i := .attempt true false) (.spin rfl rfl)).cons
    (i := .store false) (.store rfl)).cons (i := .drop false) (.drop rfl) :
    Run (Step fun _ : Unit => [fun r => (r.1 + 1, r.2)]) (start 0 fun _ : Bool => ()) _ _)
  have hrun := (((hfirst.cons (i := .attempt true false) (.acquire rfl rfl)).cons
    (i := .load true) (.load rfl)).cons (i := .store true) (.store rfl)).cons
    (i := .drop true) (.drop rfl)
  exact ⟨_, _, rfl, rfl, ((sections_serial hrun).2.2.1 rfl).1⟩

/-! ## Every section can end -/

variable (code) in
theorem run_rest {i : τ} {k : κ} (rest : List (Access α β)) (s : Threads τ κ α β)
    (hi : s.place i = .holding k rest) :
    ∃ tr s', Run (Step code) s tr s' ∧ s'.place = Function.update s.place i .outside ∧
      s'.mutex.locked = false := by
  induction rest generalizing s with
  | nil => exact ⟨_, _, Run.nil.cons (.drop hi), rfl, rfl⟩
  | cons access rest ih =>
    let s₁ := s.move i (.loaded s.mutex.value k access rest)
    have hload : Step code s (.load i) s₁ := .load hi
    have hstore : Step code s₁ (.store i) _ := .store (move_place_self s i _)
    obtain ⟨tr, s', hrun, hplace, hfree⟩ :=
      ih ((s₁.writeBack i (access (s.mutex.value, s₁.own i))).move i (.holding k rest))
        (move_place_self ..)
    exact ⟨_, s', ((Run.nil.cons hload).cons hstore).trans hrun, by simpa [s₁] using hplace, hfree⟩

variable (code) in
theorem run_section {i : τ} (s : Threads τ κ α β) (hi : (s.place i).Inside) :
    ∃ tr s', Run (Step code) s tr s' ∧ s'.place = Function.update s.place i .outside ∧
      s'.mutex.locked = false := by
  cases hp : s.place i with
  | outside | locking => simp [hp, Place.Inside] at hi
  | holding k rest => exact run_rest code rest s hp
  | loaded seen k access rest =>
    have hstore : Step code s (.store i) _ := .store hp
    obtain ⟨tr, s', hrun, hplace, hfree⟩ := run_rest code rest
      ((s.writeBack i (access (seen, s.own i))).move i (.holding k rest)) (move_place_self ..)
    exact ⟨_, s', (Run.nil.cons hstore).trans hrun, by simpa using hplace, hfree⟩

theorem run_until_free (hrun : Run (Step code) (start value own) tr s) :
    ∃ tr' s', Run (Step code) s tr' s' ∧ s'.mutex.locked = false ∧
      ∀ i, ¬ (s.place i).Inside → s'.place i = s.place i := by
  by_cases hlocked : s.mutex.locked = true
  · obtain ⟨holder, h⟩ := (step_simulation code).run_fold ⟨none, .start value own⟩ hrun
    obtain ⟨j, hj⟩ := h.locked_iff.mp hlocked
    obtain ⟨tr', s', hrun', hplace, hfree⟩ := run_section code s hj
    refine ⟨tr', s', hrun', hfree, fun i hi => ?_⟩
    have hij : i ≠ j := fun e => hi (e ▸ hj)
    rw [hplace, Function.update_of_ne hij]
  · exact ⟨[], s, .nil, by simpa using hlocked, fun _ _ => rfl⟩

/-- Whatever the threads have done, each of them can still come to the end of the
section that it is in or waits for. -/
theorem section_can_end (hrun : Run (Step code) (start value own) tr s) (i : τ) :
    ∃ tr' s', Run (Step code) s tr' s' ∧ s'.place i = .outside := by
  by_cases hi : (s.place i).Inside
  · obtain ⟨tr', s', hrun', hplace, -⟩ := run_section code s hi
    exact ⟨tr', s', hrun', by simp [hplace]⟩
  cases hp : s.place i with
  | outside => exact ⟨[], s, .nil, hp⟩
  | holding | loaded => simp [hp, Place.Inside] at hi
  | locking k =>
    obtain ⟨tr₁, s₁, hrun₁, hfree, hothers⟩ := run_until_free hrun
    have hcas : s₁.mutex.compareExchangeWeak false = some { s₁.mutex with locked := true } := by
      simp [Mutex.compareExchangeWeak, hfree]
    have hacquire : Step code s₁ (.attempt i false) _ := .acquire ((hothers i hi).trans hp) hcas
    obtain ⟨tr₂, s₂, hrun₂, hplace, -⟩ :=
      run_rest code (code k)
        { s₁.move i (.holding k (code k)) with mutex := { s₁.mutex with locked := true } }
        (move_place_self s₁ i _)
    exact ⟨_, s₂, (hrun₁.cons hacquire).trans hrun₂, by simp [hplace]⟩

theorem section_can_end_wait :
    ∃ tr s, Run (Step fun _ : Unit => [fun r : Nat × Nat => (r.1 + 1, r.2)])
      ((start 0 fun _ : Bool => 0).move true (.locking ())) tr s ∧ s.place true = .outside :=
  section_can_end (Run.nil.cons (.enter rfl)) true

end Threads

end AliluOS.Spin
