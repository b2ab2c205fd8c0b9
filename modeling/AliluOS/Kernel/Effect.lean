import AliluOS.Kernel.World

/-! What a program does to the locks, and to shell and filesystem. -/

namespace AliluOS.Kernel
open Text Fs Lib Thread

variable {α β : Type} {m : Held Lock World} {ls ls' ls'' : List Lock}
  {f g : Nat → Session → Session} {stuck : Prop}

@[simp] theorem wp_say (calls : List VgaCall) {P : Post Lock Halt World Unit} :
    wp (say calls) m P ↔
      P.ok () { m with state := { m.state with console := m.state.console ++ calls } } := by
  simp [say]

@[simp] theorem wp_getShell {P : Post Lock Halt World Shell} :
    wp getShell m P ↔ P.ok m.state.shell m := by simp [getShell]

@[simp] theorem wp_setShell (shell : Shell) {P : Post Lock Halt World Unit} :
    wp (setShell shell) m P ↔ P.ok () { m with state := { m.state with shell := shell } } := by
  simp [setShell]

@[simp] theorem wp_getFs {P : Post Lock Halt World FileSystem} :
    wp getFs m P ↔ P.ok m.state.fs m := by simp [getFs]

@[simp] theorem wp_setFs (fs : FileSystem) {P : Post Lock Halt World Unit} :
    wp (setFs fs) m P ↔ P.ok () { m with state := { m.state with fs := fs } } := by
  simp [setFs]

@[simp] theorem wp_timerTicks {P : Post Lock Halt World Nat} :
    wp timerTicks m P ↔ P.ok m.state.ticks m := by simp [timerTicks]

theorem wp_say_bind {calls : List VgaCall} {k : Unit → KernelM α} {P : Post Lock Halt World α}
    (hm : m.locks = []) :
    wp (withLock .writer (say calls) >>= k) m P ↔
      wp (k ()) ⟨[], { m.state with console := m.state.console ++ calls }⟩ P := by
  simp [hm]

/-- From the locks `ls` to the locks `ls'` without a deadlock, and without a halt
unless `stuck`. Shell and filesystem change by `f`, which is given the time. -/
def Does (stuck : Prop) (ls ls' : List Lock) (f : Nat → Session → Session) (t : KernelM α) :
    Prop :=
  ∀ m : Held Lock World, m.locks = ls → wp t m (safely stuck fun _ m' =>
    m'.locks = ls' ∧ m'.state.ticks = m.state.ticks ∧
      m'.state.session = f m.state.ticks m.state.session)

namespace Does

theorem of_eq {t : KernelM α} (h : Does stuck ls ls' f t) (hfg : ∀ n s, f n s = g n s) :
    Does stuck ls ls' g t := by
  obtain rfl : f = g := funext fun n => funext fun s => hfg n s
  exact h

theorem weaken {stuck' : Prop} {t : KernelM α} (h : Does stuck ls ls' f t)
    (hstuck : stuck → stuck') : Does stuck' ls ls' f t := fun m hm =>
  wp_mono (h m hm) (fun _ _ => id) (fun _ => id) fun _ => hstuck

theorem pure (a : α) : Does stuck ls ls (fun _ s => s) (pure a : KernelM α) := by
  intro m hm
  simp [hm]

theorem bind {t : KernelM β} {k : β → KernelM α} (ht : Does stuck ls ls' f t)
    (hk : ∀ b, Does stuck ls' ls'' g (k b)) :
    Does stuck ls ls'' (fun n s => g n (f n s)) (t >>= k) := by
  intro m hm
  rw [wp_bind]
  refine wp_safely_mono (ht m hm) fun b m₁ ⟨hlocks, hticks, hsession⟩ => ?_
  refine wp_safely_mono (hk b m₁ hlocks) fun a m₂ ⟨hlocks', hticks', hsession'⟩ => ?_
  rw [hticks, hsession] at hsession'
  exact ⟨hlocks', hticks'.trans hticks, hsession'⟩

theorem ite {c : Prop} [Decidable c] {t u : KernelM α} (ht : Does stuck ls ls' f t)
    (hu : Does stuck ls ls' g u) :
    Does stuck ls ls' (fun n s => if c then f n s else g n s) (if c then t else u) := by
  split_ifs
  · exact ht
  · exact hu

theorem ite_same {c : Prop} [Decidable c] {t u : KernelM α} (ht : Does stuck ls ls' f t)
    (hu : Does stuck ls ls' f u) : Does stuck ls ls' f (if c then t else u) := by
  split_ifs
  · exact ht
  · exact hu

theorem withLock {l : Lock} {t : KernelM α} (hl : l ∉ ls)
    (ht : Does stuck (l :: ls) (l :: ls) f t) : Does stuck ls ls f (withLock l t) := by
  intro m hm
  exact wp_safely_withLock (Q := fun _ w => w.ticks = m.state.ticks ∧
    w.session = f m.state.ticks m.state.session) hm hl (ht _ rfl)

theorem say (calls : List VgaCall) : Does stuck ls ls (fun _ s => s) (say calls) := by
  intro m hm
  simp [hm, World.session]

theorem setShell (shell : Shell) :
    Does stuck ls ls (fun _ s => { s with shell := shell }) (setShell shell) := by
  intro m hm
  simp [hm, World.session]

theorem setFs (fs : FileSystem) : Does stuck ls ls (fun _ s => { s with fs := fs }) (setFs fs) := by
  intro m hm
  simp [hm, World.session]

theorem getShell {k : Shell → KernelM α} {f : Shell → Nat → Session → Session}
    (hk : ∀ shell, Does stuck ls ls' (f shell) (k shell)) :
    Does stuck ls ls' (fun n s => f s.shell n s) (getShell >>= k) := by
  intro m hm
  rw [wp_bind, wp_getShell]
  exact hk _ m hm

theorem getShell_known {k : Shell → KernelM α}
    (hk : ∀ shell, ∃ g, Does stuck ls ls' g (k shell) ∧
      ∀ n fs, g n ⟨shell, fs⟩ = f n ⟨shell, fs⟩) :
    Does stuck ls ls' f (Kernel.getShell >>= k) := by
  choose g hg hgf using hk
  exact (Does.getShell hg).of_eq fun n s => hgf s.shell n s.fs

theorem getFs {k : FileSystem → KernelM α} {f : FileSystem → Nat → Session → Session}
    (hk : ∀ fs, Does stuck ls ls' (f fs) (k fs)) :
    Does stuck ls ls' (fun n s => f s.fs n s) (getFs >>= k) := by
  intro m hm
  rw [wp_bind, wp_getFs]
  exact hk _ m hm

theorem timerTicks {k : Nat → KernelM α} {f : Nat → Nat → Session → Session}
    (hk : ∀ n, Does stuck ls ls' (f n) (k n)) :
    Does stuck ls ls' (fun n s => f n n s) (timerTicks >>= k) := by
  intro m hm
  rw [wp_bind, wp_timerTicks]
  exact hk _ m hm

end Does

/-- The program returns; what it prints is related by `Q` to the sessions before and
after it. -/
def Tells (ls ls' : List Lock) (Q : Session → List VgaCall → Session → Prop) (t : KernelM α) :
    Prop :=
  ∀ m : Held Lock World, m.locks = ls → wp t m (safely False fun _ m' =>
    m'.locks = ls' ∧ ∃ out, m'.state.console = m.state.console ++ out ∧
      Q m.state.session out m'.state.session)

namespace Tells

variable {Q Q' : Session → List VgaCall → Session → Prop}

theorem mono {t : KernelM α} (h : Tells ls ls' Q t) (hQ : ∀ s out s', Q s out s' → Q' s out s') :
    Tells ls ls' Q' t := fun m hm =>
  wp_safely_mono (h m hm) fun _ _ ⟨hlocks, out, hout, hq⟩ => ⟨hlocks, out, hout, hQ _ _ _ hq⟩

theorem say {calls : List VgaCall} (h : ∀ s, Q s calls s) : Tells ls ls Q (say calls) := by
  intro m hm
  rw [wp_say]
  exact ⟨hm, calls, rfl, h _⟩

theorem ite {c : Prop} [Decidable c] {t u : KernelM α} (ht : c → Tells ls ls' Q t)
    (hu : ¬ c → Tells ls ls' Q u) : Tells ls ls' Q (if c then t else u) := by
  split_ifs with hc
  · exact ht hc
  · exact hu hc

theorem withLock {l : Lock} {t : KernelM α} (hl : l ∉ ls) (ht : Tells (l :: ls) (l :: ls) Q t) :
    Tells ls ls Q (withLock l t) := by
  intro m hm
  exact wp_safely_withLock (Q := fun _ w => ∃ out, w.console = m.state.console ++ out ∧
    Q m.state.session out w.session) hm hl (ht _ rfl)

theorem lock {l : Lock} {t : KernelM α} (hl : l ∉ ls) (ht : Tells (l :: ls) ls' Q t) :
    Tells ls ls' Q (lock l >>= fun _ => t) := by
  intro m hm
  rw [wp_bind, wp_lock, if_neg (by rwa [hm])]
  exact ht _ (by simp [hm])

theorem unlock {l : Lock} {t : KernelM α} (ht : Tells ls ls' Q t) :
    Tells (l :: ls) ls' Q (unlock l >>= fun _ => t) := by
  intro m hm
  rw [wp_bind, wp_unlock]
  exact ht _ (by simp [hm])

theorem getShell {k : Shell → KernelM α}
    (hk : ∀ shell, Tells ls ls' (fun s out s' => s.shell = shell → Q s out s') (k shell)) :
    Tells ls ls' Q (getShell >>= k) := by
  intro m hm
  rw [wp_bind, wp_getShell]
  refine wp_safely_mono (hk _ m hm) fun _ _ ⟨hlocks, out, hout, hq⟩ => ?_
  exact ⟨hlocks, out, hout, hq rfl⟩

theorem getFs {k : FileSystem → KernelM α}
    (hk : ∀ fs, Tells ls ls' (fun s out s' => s.fs = fs → Q s out s') (k fs)) :
    Tells ls ls' Q (getFs >>= k) := by
  intro m hm
  rw [wp_bind, wp_getFs]
  refine wp_safely_mono (hk _ m hm) fun _ _ ⟨hlocks, out, hout, hq⟩ => ?_
  exact ⟨hlocks, out, hout, hq rfl⟩

theorem timerTicks {k : Nat → KernelM α} (hk : ∀ n, Tells ls ls' Q (k n)) :
    Tells ls ls' Q (timerTicks >>= k) := by
  intro m hm
  rw [wp_bind, wp_timerTicks]
  exact hk _ m hm

theorem setShell {shell : Shell} {k : Unit → KernelM α}
    (hk : Tells ls ls' (fun s out s' => s.shell = shell → ∀ old, Q ⟨old, s.fs⟩ out s') (k ())) :
    Tells ls ls' Q (setShell shell >>= k) := by
  intro m hm
  rw [wp_bind, wp_setShell]
  refine wp_safely_mono (hk { m with state := { m.state with shell := shell } } hm)
    fun _ _ ⟨hlocks, out, hout, hq⟩ => ?_
  exact ⟨hlocks, out, hout, hq rfl m.state.shell⟩

theorem setFs {fs : FileSystem} {k : Unit → KernelM α}
    (hk : Tells ls ls' (fun s out s' => s.fs = fs → ∀ old, Q ⟨s.shell, old⟩ out s') (k ())) :
    Tells ls ls' Q (setFs fs >>= k) := by
  intro m hm
  rw [wp_bind, wp_setFs]
  refine wp_safely_mono (hk { m with state := { m.state with fs := fs } } hm)
    fun _ _ ⟨hlocks, out, hout, hq⟩ => ?_
  exact ⟨hlocks, out, hout, hq rfl m.state.fs⟩

end Tells

def Quiet (t : KernelM α) : Prop := Does True [] [] (fun _ s => s) t

theorem Quiet.bind {t : KernelM β} {k : β → KernelM α} (ht : Quiet t) (hk : ∀ b, Quiet (k b)) :
    Quiet (t >>= k) := Does.bind ht hk

theorem Quiet.pure (a : α) : Quiet (pure a : KernelM α) := Does.pure a

theorem Quiet.ite {c : Prop} [Decidable c] {t u : KernelM α} (ht : Quiet t) (hu : Quiet u) :
    Quiet (if c then t else u) := Does.ite_same ht hu

theorem does_sayLocked (calls : List VgaCall) :
    Does stuck [] [] (fun _ s => s) (withLock .writer (say calls)) :=
  Does.withLock (by simp) (Does.say calls)

theorem quiet_say (calls : List VgaCall) : Quiet (withLock .writer (say calls)) :=
  does_sayLocked calls

theorem quiet_kernelPanic (file : Str) : Quiet (kernelPanic file : KernelM α) := by
  intro m hm
  simp [kernelPanic, hm]

theorem quiet_pollScancode : Quiet pollScancode := by
  intro m hm
  simp only [pollScancode, nextPoll, wp_bind, wp_withLock, wp_read, hm]
  rcases m.state.polls with _ | ⟨poll, polls⟩ <;> simp [World.session]

theorem Quiet.pollingLoop {body : β → KernelM (β ⊕ α)} (hbody : ∀ b, Quiet (body b)) (b : β) :
    Quiet (pollingLoop body b) := by
  intro m hm
  rw [Kernel.pollingLoop, wp_bind, wp_read]
  refine wp_iterate trivial (I := fun _ m' => m'.locks = [] ∧ m'.state.ticks = m.state.ticks ∧
    m'.state.session = m.state.session) ⟨hm, rfl, rfl⟩ fun b m₁ ⟨hlocks, hticks, hsession⟩ => ?_
  apply wp_safely_mono (hbody b m₁ hlocks)
  intro r m₂ hm₂
  rw [hticks, hsession] at hm₂
  cases r with
  | inl b' => exact hm₂
  | inr a => exact hm₂

theorem quiet_readScancodeBlocking : Quiet readScancodeBlocking := by
  refine Quiet.pollingLoop (fun _ => quiet_pollScancode.bind fun code => ?_) ()
  cases code with
  | some code => exact .pure _
  | none => exact .pure _

end AliluOS.Kernel
