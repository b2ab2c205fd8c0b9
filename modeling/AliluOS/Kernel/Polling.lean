import AliluOS.Kernel.Effect

/-! What programs make of the scancodes that they poll. -/

namespace AliluOS.Kernel
open Text Fs Lib Thread

variable {α β : Type} {m : Held Lock World}

theorem wp_kernelPanic {file : Str} {P : Post Lock Halt World α} (hm : m.locks = []) :
    wp (kernelPanic file) m P ↔ P.halt .panicked := by
  simp [kernelPanic, hm]

theorem wp_pollScancode {poll : Poll} {polls : List Poll}
    {P : Post Lock Halt World (Option UInt8)} (hm : m.locks = [])
    (hpolls : m.state.polls = poll :: polls) :
    wp pollScancode m P ↔
      P.ok poll.scancode { m with state := { m.state with polls := polls } } := by
  simp [pollScancode, nextPoll, hm, hpolls]

def nextScancode : List Poll → Option (UInt8 × List Poll)
  | [] => none
  | poll :: polls =>
    match poll.scancode with
    | some code => some (code, polls)
    | none => nextScancode polls

def AfterScancode (P : Post Lock Halt World UInt8) (m : Held Lock World) : Prop :=
  match nextScancode m.state.polls with
  | some (code, polls) => P.ok code { m with state := { m.state with polls := polls } }
  | none => P.halt .waiting

theorem wp_readScancodeBlocking {P : Post Lock Halt World UInt8} (hm : m.locks = []) :
    wp readScancodeBlocking m P ↔ AfterScancode P m := by
  obtain ⟨polls, hpolls⟩ : ∃ polls, m.state.polls = polls := ⟨_, rfl⟩
  rw [readScancodeBlocking, pollingLoop, wp_bind, wp_read, AfterScancode]
  dsimp only
  rw [hpolls]
  induction polls generalizing m with
  | nil =>
    rw [iterate, wp_bind, wp_bind]
    simp [pollScancode, nextPoll, hm, hpolls, nextScancode]
  | cons poll polls ih =>
    rw [iterate, wp_bind, wp_bind, wp_pollScancode hm hpolls, nextScancode]
    rcases hcode : poll.scancode with _ | code
    · simpa using ih (m := { m with state := { m.state with polls := polls } }) hm rfl
    · simp

theorem nextScancode_eq_none {polls : List Poll} :
    nextScancode polls = none ↔ ¬ ∃ poll ∈ polls, poll.scancode.isSome := by
  induction polls with
  | nil => simp [nextScancode]
  | cons poll polls ih =>
    rw [nextScancode]
    rcases hcode : poll.scancode with _ | code
    · simp [ih, hcode]
    · simp [hcode]

theorem scancodes_of_none {polls : List Poll} (h : nextScancode polls = none) :
    polls.filterMap Poll.scancode = [] := by
  induction polls with
  | nil => rfl
  | cons poll polls ih =>
    rw [nextScancode] at h
    rcases hcode : poll.scancode with _ | code <;> rw [hcode] at h
    · rw [List.filterMap_cons_none hcode, ih h]
    · cases h

theorem scancodes_of_some {polls rest : List Poll} {code : UInt8}
    (h : nextScancode polls = some (code, rest)) :
    polls.filterMap Poll.scancode = code :: rest.filterMap Poll.scancode ∧
      rest.length < polls.length := by
  induction polls with
  | nil => cases h
  | cons poll polls ih =>
    rw [nextScancode] at h
    rcases hcode : poll.scancode with _ | code' <;> rw [hcode] at h
    · obtain ⟨hcodes, hlength⟩ := ih h
      rw [List.filterMap_cons_none hcode]
      exact ⟨hcodes, hlength.trans (Nat.lt_succ_self _)⟩
    · obtain ⟨rfl, rfl⟩ := Prod.mk.inj (Option.some.inj h)
      exact ⟨List.filterMap_cons_some hcode, Nat.lt_succ_self _⟩

/-- The rounds of a loop that takes scancodes. It panics (`none`), ends, or goes on with
the next scancode. -/
def rounds (next : β → UInt8 → Option (β ⊕ α)) : β → List UInt8 → Option (β ⊕ α)
  | b, [] => some (.inl b)
  | b, code :: codes =>
    match next b code with
    | some (.inl b) => rounds next b codes
    | r => r

def endsAs (r : Option (β ⊕ α)) : Post Lock Halt World α where
  ok a m := r = some (.inr a) ∧ m.locks = []
  deadlock _ := False
  halt
    | .waiting => ∃ b, r = some (.inl b)
    | .panicked => r = none

def TakesScancode (next : β → UInt8 → Option (β ⊕ α)) (body : β → KernelM (β ⊕ α)) : Prop :=
  ∀ b m, m.locks = [] → ∀ P : Post Lock Halt World (β ⊕ α),
    AfterScancode ⟨fun code m' =>
      match next b code with
      | some r => ∀ m'', m''.locks = [] → m''.state.polls = m'.state.polls → P.ok r m''
      | none => P.halt .panicked, P.deadlock, P.halt⟩ m → wp (body b) m P

variable {next : β → UInt8 → Option (β ⊕ α)} {body : β → KernelM (β ⊕ α)}

theorem wp_iterate_scancodes (hbody : TakesScancode next body) {n : Nat} (hm : m.locks = [])
    (hn : m.state.polls.length < n) (b : β) :
    wp (iterate .waiting body n b) m
      (endsAs (rounds next b (m.state.polls.filterMap Poll.scancode))) := by
  induction n generalizing m b with
  | zero => exact absurd hn (Nat.not_lt_zero _)
  | succ n ih =>
    rw [iterate, wp_bind]
    apply hbody b m hm
    unfold AfterScancode
    rcases hnext : nextScancode m.state.polls with _ | ⟨code, rest⟩
    · rw [scancodes_of_none hnext]
      exact ⟨b, rfl⟩
    · obtain ⟨hcodes, hlength⟩ := scancodes_of_some hnext
      rw [hcodes, rounds]
      dsimp only
      rcases next b code with _ | b' | a
      · rfl
      · intro m' hlocks hpolls
        rw [← hpolls] at hlength ⊢
        exact ih hlocks (hlength.trans_le (Nat.le_of_lt_succ hn)) b'
      · intro m' hlocks _
        exact (wp_pure a).mpr ⟨rfl, hlocks⟩

theorem wp_scancodeLoop (hbody : TakesScancode next body) (hm : m.locks = []) (b : β) :
    wp (pollingLoop body b) m
      (endsAs (rounds next b (m.state.polls.filterMap Poll.scancode))) := by
  rw [pollingLoop, wp_bind, wp_read]
  exact wp_iterate_scancodes hbody hm (Nat.lt_succ_self _) b

/-- A round prints its frame and takes one scancode, and then it is as `next` says. -/
def PrintsFrame (frame : β → List VgaCall) (next : β → UInt8 → Option (β ⊕ α))
    (body : β → KernelM (β ⊕ α)) : Prop :=
  ∀ b m, m.locks = [] → ∀ P : Post Lock Halt World (β ⊕ α),
    AfterScancode ⟨fun code m' =>
      match next b code with
      | some r => P.ok r m'
      | none => P.halt .panicked, P.deadlock, P.halt⟩
      ⟨[], { m.state with console := m.state.console ++ frame b }⟩ → wp (body b) m P

def frames (frame : β → List VgaCall) (next : β → UInt8 → Option (β ⊕ α)) :
    β → List UInt8 → List VgaCall
  | b, [] => frame b
  | b, code :: codes => frame b ++
    match next b code with
    | some (.inl b) => frames frame next b codes
    | _ => []

def endsPrinting (m : Held Lock World) (r : Option (β ⊕ α)) (calls : List VgaCall) :
    Post Lock Halt World α where
  ok a m' := r = some (.inr a) ∧ m'.locks = [] ∧
    m'.state.console = m.state.console ++ calls ∧ m'.state.session = m.state.session
  deadlock _ := False
  halt
    | .waiting => ∃ b, r = some (.inl b)
    | .panicked => r = none

variable {frame : β → List VgaCall}

theorem wp_iterate_frames (hbody : PrintsFrame frame next body) {n : Nat} (hm : m.locks = [])
    (hn : m.state.polls.length < n) (b : β) :
    wp (iterate .waiting body n b) m
      (endsPrinting m (rounds next b (m.state.polls.filterMap Poll.scancode))
        (frames frame next b (m.state.polls.filterMap Poll.scancode))) := by
  induction n generalizing m b with
  | zero => exact absurd hn (Nat.not_lt_zero _)
  | succ n ih =>
    rw [iterate, wp_bind]
    apply hbody b m hm
    unfold AfterScancode
    dsimp only
    rcases hnext : nextScancode m.state.polls with _ | ⟨code, rest⟩
    · rw [scancodes_of_none hnext]
      exact ⟨b, rfl⟩
    · obtain ⟨hcodes, hlength⟩ := scancodes_of_some hnext
      rw [hcodes, rounds, frames]
      dsimp only
      rcases next b code with _ | b' | a
      · rfl
      · dsimp only
        have hrest := ih (m := ⟨[], { m.state with
          console := m.state.console ++ frame b, polls := rest }⟩) rfl
            (hlength.trans_le (Nat.le_of_lt_succ hn)) b'
        refine wp_mono hrest ?_ (fun _ => id) fun _ => id
        rintro _ _ ⟨hr, hlocks, hconsole, hsession⟩
        exact ⟨hr, hlocks, by rw [hconsole, List.append_assoc], hsession⟩
      · exact (wp_pure a).mpr ⟨rfl, rfl, by rw [List.append_nil], rfl⟩

theorem wp_frameLoop (hbody : PrintsFrame frame next body) (hm : m.locks = []) (b : β) :
    wp (pollingLoop body b) m
      (endsPrinting m (rounds next b (m.state.polls.filterMap Poll.scancode))
        (frames frame next b (m.state.polls.filterMap Poll.scancode))) := by
  rw [pollingLoop, wp_bind, wp_read]
  exact wp_iterate_frames hbody hm (Nat.lt_succ_self _) b

variable {program : KernelM α} {r : Option (β ⊕ α)} {calls : List VgaCall}

theorem waiting_iff_of_printing (h : wp program m (endsPrinting m r calls)) :
    program m = .error (.halt .waiting) ↔ ∃ b, r = some (.inl b) := by
  refine halt_iff_of_wp (wp_mono h ?_ ?_ ?_)
  · rintro a _ ⟨hend, -⟩ ⟨b, hb⟩
    cases hend.symm.trans hb
  · exact fun _ => False.elim
  · rintro (_ | _) hend
    · exact iff_of_true rfl hend
    · rw [show r = none from hend]
      simp

theorem returns_of_printing {a : α}
    (h : wp program m (endsPrinting m (some (.inr a : β ⊕ α)) calls)) :
    ∃ m', program m = .ok (a, m') ∧ m'.locks = [] ∧
      m'.state.console = m.state.console ++ calls ∧ m'.state.session = m.state.session := by
  have hends : wp program m (safely False fun a' m' => a' = a ∧ m'.locks = [] ∧
      m'.state.console = m.state.console ++ calls ∧ m'.state.session = m.state.session) := by
    refine wp_mono h ?_ (fun _ => id) ?_
    · rintro _ _ ⟨hend, hrest⟩
      exact ⟨(Sum.inr.inj (Option.some.inj hend)).symm, hrest⟩
    · rintro (_ | _) hend
      · obtain ⟨b, hb⟩ := hend
        cases hb
      · cases hend
  obtain ⟨a', m', hm', rfl, hrest⟩ := exists_of_wp hends id
  exact ⟨m', hm', hrest⟩

end AliluOS.Kernel
