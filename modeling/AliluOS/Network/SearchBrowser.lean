import AliluOS.Kernel.Polling
import AliluOS.Network.Request
import AliluOS.Text.Bytes
import AliluOS.Vga.Printing

/-! The search browser over whole runs: what it makes of any scancodes, and what it shows
before it takes them. -/

namespace AliluOS.Network
open Text Kernel Lib Thread

variable {query : Str}

theorem answer_search (h : utf8Len query < 2 ^ 31) :
    (performDuckduckgoSearch query).answer = some (searchLines query) := by
  rw [Net.answer, performDuckduckgoSearch_eq, if_pos (by omega)]
  rfl

theorem ascii_scancodeToChar {code : UInt8} {c : Char} (h : scancodeToChar code = some c) :
    c.toNat < 128 := by
  have hkeys : ∀ key ∈ queryKeys, key.2.toNat < 128 := by decide
  obtain ⟨before, behind, hsplit, -⟩ := List.lookup_eq_some_iff.mp h
  exact hkeys (code, c) (by simp [hsplit])

variable {m : Held Lock World}

namespace Browser

/-- The browser as a line editor with a list to scroll: what a scancode other than that of
Escape does to it. -/
def after (b : Browser) (code : UInt8) : Browser :=
  if code = 0x1C then
    if trim b.query ≠ [] then
      { b with scrollOffset := 0, results := some (searchLines b.query) }
    else b
  else if code = 0x0E then { b with query := b.query.dropLast }
  else if code = 0x48 then { b with scrollOffset := b.scrollOffset - 1 }
  else if code = 0x50 then
    match b.results with
    | some lines =>
      if b.scrollOffset + 1 < lines.length then { b with scrollOffset := b.scrollOffset + 1 } else b
    | none => b
  else
    match scancodeToChar code with
    | some c => if utf8Len b.query < 60 then { b with query := b.query ++ [c] } else b
    | none => b

def opened (initialQuery : Str) : Browser :=
  ⟨initialQuery, 0, if trim initialQuery ≠ [] then some (searchLines initialQuery) else none⟩

/-- Query and results are of queries with the property, and the first line shown of the
results is one of them. -/
structure Showing (P : Str → Prop) (b : Browser) : Prop where
  query : P b.query
  results : ∀ lines, b.results = some lines → b.scrollOffset < lines.length ∧
    ∃ searched, lines = searchLines searched ∧ P searched

def next (b : Browser) (code : UInt8) : Option (Browser ⊕ Unit) :=
  if code = 0x01 then some (.inr ())
  else if code = 0x1C ∧ trim b.query ≠ [] then
    (performDuckduckgoSearch b.query).answer.map fun lines =>
      .inl { b with scrollOffset := 0, results := some lines }
  else some (.inl (b.after code))

variable {b : Browser} {code : UInt8} {n : Nat} {P : Str → Prop}

theorem wp_key (hm : m.locks = []) {P : Post Lock Halt World (Browser ⊕ Unit)} :
    wp (b.key code) m P ↔ match b.next code with
      | some r => P.ok r m
      | none => P.halt .panicked := by
  unfold key next after
  by_cases hescape : code = 0x01
  · rw [if_pos hescape, if_pos hescape]
    exact wp_pure _
  rw [if_neg hescape, if_neg hescape]
  by_cases henter : code = 0x1C
  · rw [if_pos henter, if_pos henter]
    by_cases hquery : trim b.query ≠ []
    · rw [if_pos hquery, if_pos ⟨henter, hquery⟩, wp_bind, search]
      cases (performDuckduckgoSearch b.query).answer with
      | none => exact wp_kernelPanic hm
      | some lines => exact (wp_pure _).trans (wp_pure _)
    · rw [if_neg hquery, if_neg (fun h => hquery h.2), if_neg hquery]
      exact wp_pure _
  rw [if_neg henter, if_neg henter,
    if_neg (show ¬ (code = 0x1C ∧ trim b.query ≠ []) from fun h => henter h.1)]
  dsimp only
  by_cases hback : code = 0x0E
  · rw [if_pos hback, if_pos hback]
    exact wp_pure _
  rw [if_neg hback, if_neg hback]
  by_cases hup : code = 0x48
  · rw [if_pos hup, if_pos hup]
    split_ifs with hpos
    · exact wp_pure _
    · rw [Nat.eq_zero_of_not_pos hpos, Nat.zero_sub, ← Nat.eq_zero_of_not_pos hpos]
      exact wp_pure _
  rw [if_neg hup, if_neg hup]
  by_cases hdown : code = 0x50
  · rw [if_pos hdown, if_pos hdown]
    cases b.results with
    | none => exact wp_pure _
    | some lines =>
      dsimp only
      split_ifs <;> exact wp_pure _
  rw [if_neg hdown, if_neg hdown]
  cases scancodeToChar code with
  | none => exact wp_pure _
  | some c =>
    dsimp only
    split_ifs <;> exact wp_pure _

def round (b : Browser) : KernelM (Browser ⊕ Unit) := do
  withLock .writer <| say b.render
  let code ← readScancodeBlocking
  b.key code

theorem printsFrame_round : PrintsFrame render next round := by
  intro b m hm P h
  rw [round, wp_say_bind hm, wp_bind, wp_readScancodeBlocking rfl]
  unfold AfterScancode at h ⊢
  dsimp only at h ⊢
  rcases hpolls : nextScancode m.state.polls with _ | ⟨code, rest⟩ <;> rw [hpolls] at h
  · exact h
  · dsimp only at h ⊢
    rw [wp_key rfl]
    rcases hnext : b.next code with _ | r <;> rw [hnext] at h
    · exact h
    · exact h

theorem showing_opened (h : P query) : (opened query).Showing P where
  query := h
  results lines hlines := by
    rw [opened] at hlines
    split_ifs at hlines
    obtain rfl := Option.some.inj hlines
    exact ⟨Nat.succ_pos 5, query, rfl, h⟩

theorem Showing.after (hpop : ∀ query, P query → P query.dropLast)
    (hpush : ∀ query code c, P query → utf8Len query < 60 → scancodeToChar code = some c →
      P (query ++ [c])) (h : b.Showing P) (code : UInt8) : (b.after code).Showing P := by
  obtain ⟨hquery, hresults⟩ := h
  unfold Browser.after
  split_ifs with henter hsearch hback hup hdown hroom
  · refine ⟨hquery, fun lines hlines => ?_⟩
    obtain rfl := Option.some.inj hlines
    exact ⟨Nat.succ_pos 5, b.query, rfl, hquery⟩
  · exact ⟨hquery, hresults⟩
  · exact ⟨hpop _ hquery, hresults⟩
  · refine ⟨hquery, fun lines hlines => ?_⟩
    obtain ⟨hoffset, hsearched⟩ := hresults lines hlines
    exact ⟨lt_of_le_of_lt (Nat.sub_le ..) hoffset, hsearched⟩
  · cases hlines : b.results with
    | none => exact ⟨hquery, hresults⟩
    | some lines =>
      dsimp only
      split_ifs with hlast
      · refine ⟨hquery, fun lines' hlines' => ?_⟩
        obtain rfl : lines = lines' := Option.some.inj hlines'
        exact ⟨hlast, (hresults lines hlines).2⟩
      · exact ⟨hquery, hresults⟩
  · cases hchar : scancodeToChar code with
    | none => exact ⟨hquery, hresults⟩
    | some c => exact ⟨hpush _ _ _ hquery hroom hchar, hresults⟩
  · cases scancodeToChar code with
    | none => exact ⟨hquery, hresults⟩
    | some c => exact ⟨hquery, hresults⟩

def Short (n : Nat) (query : Str) : Prop := utf8Len query ≤ n

theorem short_dropLast (h : Short n query) : Short n query.dropLast := by
  refine le_trans ?_ h
  obtain hnil | ⟨init, c, hlast⟩ := List.eq_nil_or_concat query
  · rw [hnil]
    rfl
  · rw [hlast, List.concat_eq_append, List.dropLast_concat, utf8Len_append]
    exact Nat.le_add_right ..

theorem short_push (hn : 60 ≤ n) (hroom : utf8Len query < 60) {c : Char}
    (hchar : scancodeToChar code = some c) : Short n (query ++ [c]) := by
  rw [Short, utf8Len_append, utf8Len_cons, utf8Len_nil, utf8Size_ascii (ascii_scancodeToChar hchar)]
  omega

theorem short_after (hn : 60 ≤ n) (h : b.Showing (Short n)) (code : UInt8) :
    (b.after code).Showing (Short n) :=
  Showing.after (fun _ hquery => short_dropLast hquery) (fun _ _ _ _ hroom => short_push hn hroom) h
    code

theorem next_of_short (hn : n < 2 ^ 31) (h : b.Showing (Short n)) (hcode : code ≠ 0x01) :
    b.next code = some (.inl (b.after code)) := by
  rw [next, if_neg hcode]
  split_ifs with hsearch
  · obtain ⟨rfl, hquery⟩ := hsearch
    rw [answer_search (lt_of_le_of_lt h.query hn), after, if_pos rfl, if_pos hquery]
    rfl
  · rfl

theorem rounds_typed (hn : 60 ≤ n) (hn' : n < 2 ^ 31) (h : b.Showing (Short n)) {codes : List UInt8}
    (hcodes : 0x01 ∉ codes) : rounds next b codes = some (.inl (codes.foldl after b)) := by
  induction codes generalizing b with
  | nil => rfl
  | cons code codes ih =>
    rw [List.mem_cons, not_or] at hcodes
    rw [rounds, next_of_short hn' h (Ne.symm hcodes.1)]
    exact ih (short_after hn h code) hcodes.2

theorem rounds_escape (hn : 60 ≤ n) (hn' : n < 2 ^ 31) (h : b.Showing (Short n))
    {typed : List UInt8} (htyped : 0x01 ∉ typed) (rest : List UInt8) :
    rounds next b (typed ++ 0x01 :: rest) = some (.inr ()) ∧
      frames render next b (typed ++ 0x01 :: rest) =
        typed.inits.flatMap fun codes => (codes.foldl after b).render := by
  induction typed generalizing b with
  | nil => exact ⟨rfl, rfl⟩
  | cons code typed ih =>
    rw [List.mem_cons, not_or] at htyped
    obtain ⟨hrounds, hframes⟩ := ih (short_after hn h code) htyped.2
    rw [List.cons_append, rounds, frames, next_of_short hn' h (Ne.symm htyped.1)]
    refine ⟨hrounds, ?_⟩
    dsimp only
    rw [hframes, List.inits_cons, List.flatMap_cons, List.flatMap_map]
    rfl

end Browser

def browserClosing : List VgaCall :=
  [.clear, .setColor .lightGreen .black, .println "=== AliluOS Interactive Shell ===",
    .setColor .white .black, .println "Exited DuckDuckGo search browser.\n"]

open Browser

theorem wp_new (h : utf8Len query < 2 ^ 31) {P : Post Lock Halt World Browser} :
    wp (Browser.new query) m P ↔ P.ok (opened query) m := by
  unfold Browser.new opened
  dsimp only
  split_ifs with hquery
  · rw [search, answer_search h]
    exact wp_pure _
  · exact wp_pure _

theorem wp_startBrowser (hm : m.locks = []) (h : utf8Len query < 2 ^ 31) :
    let codes := m.state.polls.filterMap Poll.scancode
    wp (startBrowser query) m (endsPrinting m (rounds next (opened query) codes)
      (frames render next (opened query) codes ++ browserClosing)) := by
  intro codes
  unfold startBrowser
  rw [wp_bind, wp_new h]
  dsimp only
  rw [wp_bind]
  refine wp_mono (wp_frameLoop printsFrame_round hm (opened query)) ?_ (fun _ => id) fun _ => id
  rintro _ m' ⟨hend, hlocks, hconsole, hsession⟩
  dsimp only
  rw [wp_withLock, if_neg (by simp [hlocks]), wp_say]
  exact ⟨hend, by simp [hlocks], by rw [hconsole, List.append_assoc]; rfl, hsession⟩

theorem short_opened (query : Str) :
    (opened query).Showing (Short (max 60 (utf8Len query))) := showing_opened (Nat.le_max_right ..)

theorem rounds_opened (h : utf8Len query < 2 ^ 31) (codes : List UInt8) :
    rounds next (opened query) codes =
      if 0x01 ∈ codes then some (.inr ()) else some (.inl (codes.foldl after (opened query))) := by
  have hn : max 60 (utf8Len query) < 2 ^ 31 := max_lt (by decide) h
  split_ifs with hescape
  · obtain ⟨typed, rest, rfl, htyped⟩ := List.eq_append_cons_of_mem hescape
    exact (rounds_escape (Nat.le_max_left ..) hn (short_opened query) htyped rest).1
  · exact rounds_typed (Nat.le_max_left ..) hn (short_opened query) hescape

/-- On any scancodes the browser neither panics nor hangs with a guard held: it waits for
ever unless Escape comes, and when it comes, it has printed a frame before each scancode,
of the query and the results as typed and scrolled so far, and leaves shell and
filesystem as they were. -/
theorem startBrowser_run (hm : m.locks = []) (h : utf8Len query < 2 ^ 31) :
    let codes := m.state.polls.filterMap Poll.scancode
    (startBrowser query m = .error (.halt .waiting) ↔ 0x01 ∉ codes) ∧
      ∀ typed rest, codes = typed ++ 0x01 :: rest → 0x01 ∉ typed →
        ∃ m', startBrowser query m = .ok ((), m') ∧ m'.locks = [] ∧
          m'.state.session = m.state.session ∧
          m'.state.console = m.state.console ++
            (typed.inits.flatMap fun codes => (codes.foldl after (opened query)).render) ++
              browserClosing := by
  intro codes
  have hrun : wp (startBrowser query) m (endsPrinting m (rounds next (opened query) codes)
      (frames render next (opened query) codes ++ browserClosing)) := wp_startBrowser hm h
  rw [rounds_opened h] at hrun
  constructor
  · refine (waiting_iff_of_printing hrun).trans ?_
    split_ifs with hescape
    · simp [hescape]
    · exact iff_of_true ⟨_, rfl⟩ hescape
  · intro typed rest hcodes htyped
    have hn : max 60 (utf8Len query) < 2 ^ 31 := max_lt (by decide) h
    obtain ⟨-, hframes⟩ :=
      rounds_escape (Nat.le_max_left ..) hn (short_opened query) htyped rest
    rw [if_pos (by rw [hcodes]; simp), hcodes, hframes] at hrun
    obtain ⟨m', hm', hlocks, hconsole, hsession⟩ := returns_of_printing hrun
    exact ⟨m', hm', hlocks, hsession, by rw [hconsole, List.append_assoc]⟩

theorem startBrowser_run_escape :
    ∃ m', startBrowser [] ⟨[], ⟨.new, .new, [], [⟨some 0x1E, none⟩, ⟨some 0x01, none⟩], 0⟩⟩ =
        .ok ((), m') ∧
      m'.state.console =
        (opened []).render ++ ((opened []).after 0x1E).render ++ browserClosing := by
  obtain ⟨m', hm', -, -, hconsole⟩ :=
    (@startBrowser_run [] ⟨[], ⟨.new, .new, [], [⟨some 0x1E, none⟩, ⟨some 0x01, none⟩], 0⟩⟩ rfl
      (by decide)).2 [0x1E] [] rfl (by decide)
  exact ⟨m', hm', hconsole⟩

end AliluOS.Network
