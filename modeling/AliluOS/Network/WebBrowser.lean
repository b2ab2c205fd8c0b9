import AliluOS.Lib.History
import AliluOS.Network.Http
import AliluOS.Network.Targets

/-! The page browser of `network.rs` and its history. `none` is a panic while a page is
loaded. -/

namespace AliluOS.Network
open Text Lib

structure WebBrowser where
  currentUrl : Str
  document : Option HtmlDocument
  historyBack : List Str
  historyForward : List Str
  scrollOffset : Nat
  selectedLinkIdx : Nat

namespace WebBrowser

def new : WebBrowser := ⟨[], none, [], [], 0, 0⟩

def loadCurrentPage (b : WebBrowser) : Option WebBrowser := do
  let b := { b with scrollOffset := 0, selectedLinkIdx := 0 }
  match ← (httpGet b.currentUrl).answer with
  | .ok response => return { b with document := some (← parseHtml response.body) }
  | .error _ => return b

def navigate (b : WebBrowser) (url : Str) : Option WebBrowser :=
  let b :=
    if b.currentUrl ≠ [] then { b with historyBack := b.historyBack ++ [b.currentUrl] } else b
  { b with historyForward := [], currentUrl := url }.loadCurrentPage

def historyBackPage (b : WebBrowser) : Option WebBrowser :=
  match b.historyBack.getLast? with
  | some prevUrl => { b with
      historyBack := b.historyBack.dropLast, historyForward := b.historyForward ++ [b.currentUrl],
      currentUrl := prevUrl }.loadCurrentPage
  | none => some b

def historyForwardPage (b : WebBrowser) : Option WebBrowser :=
  match b.historyForward.getLast? with
  | some nextUrl => { b with
      historyForward := b.historyForward.dropLast, historyBack := b.historyBack ++ [b.currentUrl],
      currentUrl := nextUrl }.loadCurrentPage
  | none => some b

def call (b : WebBrowser) : HistoryCall Str → Option WebBrowser
  | .visit url => b.navigate url
  | .back => b.historyBackPage
  | .forward => b.historyForwardPage

def fetch (url : Str) : Option (Option HtmlDocument) := do
  match ← (httpGet url).answer with
  | .ok response => return some (← parseHtml response.body)
  | .error _ => return none

variable {b b' : WebBrowser} {url : Str} {calls : List (HistoryCall Str)}

theorem loadCurrentPage_eq (b : WebBrowser) : b.loadCurrentPage = (fetch b.currentUrl).map
    fun document => { b with
      scrollOffset := 0, selectedLinkIdx := 0, document := document.or b.document } := by
  unfold loadCurrentPage fetch
  dsimp only
  rcases (httpGet b.currentUrl).answer with _ | _ | response
  · rfl
  · rfl
  · cases hparse : parseHtml response.body <;> simp [hparse]

theorem loadCurrentPage_spec (h : b.loadCurrentPage = some b') :
    (fetch b.currentUrl).isSome ∧ b'.currentUrl = b.currentUrl ∧
      b'.historyBack = b.historyBack ∧ b'.historyForward = b.historyForward ∧
      b'.scrollOffset = 0 ∧ b'.selectedLinkIdx = 0 := by
  rw [loadCurrentPage_eq] at h
  obtain ⟨document, hfetch, rfl⟩ := Option.map_eq_some_iff.mp h
  simp [hfetch]

theorem isSome_loadCurrentPage (b : WebBrowser) :
    b.loadCurrentPage.isSome = (fetch b.currentUrl).isSome := by
  rw [loadCurrentPage_eq, Option.isSome_map]

def shown (b : WebBrowser) : Option Str := if b.currentUrl = [] then none else some b.currentUrl

def history (b : WebBrowser) : Stacks Str := ⟨b.historyBack, b.shown, b.historyForward⟩

def urls (b : WebBrowser) : List Str := b.historyBack ++ b.shown.toList ++ b.historyForward

/-- Every page of the history has a name, and has been loaded. -/
structure Sound (b : WebBrowser) : Prop where
  whole : b.history.Whole
  loaded : ∀ url ∈ b.urls, url ≠ [] ∧ (fetch url).isSome

def ChangesPage (b : WebBrowser) : HistoryCall Str → Prop
  | .visit _ => True
  | .back => b.historyBack ≠ []
  | .forward => b.historyForward ≠ []

theorem currentUrl_eq (b : WebBrowser) : b.currentUrl = b.history.now.getD [] := by
  unfold history shown
  split_ifs with hnone
  · exact hnone
  · rfl

theorem shown_of_ne (hb : b.history.Whole) (h : b.historyBack ≠ [] ∨ b.historyForward ≠ []) :
    b.shown = some b.currentUrl := by
  obtain ⟨url, hurl⟩ := hb.exists_now h
  change b.shown = some url at hurl
  unfold shown at hurl ⊢
  split_ifs at hurl ⊢
  rfl

theorem sound_new : new.Sound := ⟨fun _ => ⟨rfl, rfl⟩, by simp [urls, new, shown]⟩

theorem sound_of_load (hurl : b.currentUrl ≠ [])
    (hloaded : ∀ url ∈ b.historyBack ++ b.historyForward, url ≠ [] ∧ (fetch url).isSome)
    (h : b.loadCurrentPage = some b') : b'.history = b.history ∧ b'.Sound := by
  obtain ⟨hfetch, hcurrent, hback, hforward, -⟩ := loadCurrentPage_spec h
  have hshown : b'.shown = some b.currentUrl := by rw [shown, hcurrent, if_neg hurl]
  refine ⟨?_, fun hnone => ?_, ?_⟩
  · rw [history, history, hback, hforward, shown, shown, hcurrent]
  · rw [history, hshown] at hnone
    cases hnone
  · rw [urls, hback, hforward, hshown]
    intro url hmem
    simp only [List.mem_append, Option.mem_toList, Option.some.injEq] at hmem
    rcases hmem with (hmem | rfl) | hmem
    · exact hloaded url (List.mem_append_left _ hmem)
    · exact ⟨hurl, hfetch⟩
    · exact hloaded url (List.mem_append_right _ hmem)

theorem call_eq (hb : b.Sound) {i : HistoryCall Str} (hi : b.ChangesPage i) :
    ∃ url, (b.history.call i).now = some url ∧ (i = .visit url ∨ url ∈ b.urls) ∧
      (b.history.call i).before ++ (b.history.call i).after ⊆ b.urls ∧
      b.call i = { b with
        historyBack := (b.history.call i).before, historyForward := (b.history.call i).after,
        currentUrl := url }.loadCurrentPage := by
  cases i with
  | visit url =>
    refine ⟨url, rfl, .inl rfl, by simp [Stacks.call, Stacks.visit, history, urls], ?_⟩
    unfold call navigate Stacks.call Stacks.visit history shown
    split_ifs <;> simp_all
  | back =>
    obtain ⟨before, a, hbefore⟩ := (List.eq_nil_or_concat' b.historyBack).resolve_left hi
    have hshown : b.shown = some b.currentUrl := shown_of_ne hb.whole (.inl hi)
    have hcall : b.history.call .back =
        ⟨before, some a, b.historyForward ++ b.shown.toList⟩ := Stacks.back_of_concat hbefore
    rw [hcall]
    refine ⟨a, rfl, .inr (by simp [urls, hbefore]), ?_, ?_⟩
    · intro url hmem
      simp only [urls, hbefore, List.mem_append] at hmem ⊢
      tauto
    · rw [call, historyBackPage, hbefore, List.getLast?_concat, List.dropLast_concat, hshown]
      rfl
  | forward =>
    obtain ⟨after, a, hafter⟩ := (List.eq_nil_or_concat' b.historyForward).resolve_left hi
    have hshown : b.shown = some b.currentUrl := shown_of_ne hb.whole (.inr hi)
    have hcall : b.history.call .forward =
        ⟨b.historyBack ++ b.shown.toList, some a, after⟩ := Stacks.forward_of_concat hafter
    rw [hcall]
    refine ⟨a, rfl, .inr (by simp [urls, hafter]), ?_, ?_⟩
    · intro url hmem
      simp only [urls, hafter, List.mem_append] at hmem ⊢
      tauto
    · rw [call, historyForwardPage, hafter, List.getLast?_concat, List.dropLast_concat, hshown]
      rfl

theorem call_of_not_changes {i : HistoryCall Str} (hi : ¬ b.ChangesPage i) :
    b.call i = some b ∧ b.history.call i = b.history := by
  cases i with
  | visit url => exact absurd trivial hi
  | back =>
    have hnone : b.historyBack = [] := not_not.mp hi
    exact ⟨by rw [call, historyBackPage, hnone, List.getLast?_nil], Stacks.back_of_nil hnone⟩
  | forward =>
    have hnone : b.historyForward = [] := not_not.mp hi
    exact ⟨by rw [call, historyForwardPage, hnone, List.getLast?_nil], Stacks.forward_of_nil hnone⟩

theorem call_spec (hb : b.Sound) {i : HistoryCall Str} (hi : ∀ url, i = .visit url → url ≠ [])
    (h : b.call i = some b') : b'.history = b.history.call i ∧ b'.Sound := by
  by_cases hchanges : b.ChangesPage i
  · obtain ⟨url, hnow, hurl, hsub, heq⟩ := call_eq hb hchanges
    have hne : url ≠ [] := hurl.elim (hi url) fun hmem => (hb.loaded url hmem).1
    obtain ⟨hhistory, hsound⟩ := sound_of_load (b := { b with
      historyBack := (b.history.call i).before, historyForward := (b.history.call i).after,
      currentUrl := url }) hne (fun u hu => hb.loaded u (hsub hu)) (heq.symm.trans h)
    refine ⟨?_, hsound⟩
    rw [hhistory, history, shown, if_neg hne, ← hnow]
  · obtain ⟨hsame, hstacks⟩ := call_of_not_changes hchanges
    obtain rfl := Option.some.inj (hsame.symm.trans h)
    exact ⟨hstacks.symm, hb⟩

theorem isSome_call (hb : b.Sound) {i : HistoryCall Str} (hi : ∀ url, i ≠ .visit url) :
    (b.call i).isSome := by
  by_cases hchanges : b.ChangesPage i
  · obtain ⟨url, -, hurl, -, heq⟩ := call_eq hb hchanges
    have hmem : url ∈ b.urls := hurl.resolve_left (hi url)
    rw [heq, isSome_loadCurrentPage]
    exact (hb.loaded url hmem).2
  · rw [(call_of_not_changes hchanges).1]
    rfl

theorem foldlM_call (hb : b.Sound) (hcalls : ∀ url, .visit url ∈ calls → url ≠ [])
    (h : calls.foldlM call b = some b') :
    b'.history = calls.foldl Stacks.call b.history ∧ b'.Sound := by
  induction calls generalizing b with
  | nil =>
    obtain rfl := Option.some.inj h
    exact ⟨rfl, hb⟩
  | cons i calls ih =>
    obtain ⟨b₁, hcall, hrest⟩ := Option.bind_eq_some_iff.mp h
    obtain ⟨hhistory, hsound⟩ :=
      call_spec hb (fun url hurl => hcalls url (hurl ▸ List.mem_cons_self ..)) hcall
    obtain ⟨hfinal, hsound'⟩ :=
      ih hsound (fun url hurl => hcalls url (List.mem_cons_of_mem _ hurl)) hrest
    exact ⟨by rw [hfinal, hhistory, List.foldl_cons], hsound'⟩

theorem zero_of_changesPage {i : HistoryCall Str} (hi : b.ChangesPage i)
    (h : b.call i = some b') : b'.scrollOffset = 0 ∧ b'.selectedLinkIdx = 0 := by
  obtain ⟨b₁, hload⟩ : ∃ b₁ : WebBrowser, b.call i = b₁.loadCurrentPage := by
    cases i with
    | visit url => exact ⟨_, rfl⟩
    | back =>
      obtain ⟨before, a, hbefore⟩ := (List.eq_nil_or_concat' b.historyBack).resolve_left hi
      exact ⟨_, by rw [call, historyBackPage, hbefore, List.getLast?_concat]⟩
    | forward =>
      obtain ⟨after, a, hafter⟩ := (List.eq_nil_or_concat' b.historyForward).resolve_left hi
      exact ⟨_, by rw [call, historyForwardPage, hafter, List.getLast?_concat]⟩
  obtain ⟨-, -, -, -, hzero⟩ := loadCurrentPage_spec (hload.symm.trans h)
  exact hzero

def fields (b : WebBrowser) : List Str × Str × List Str :=
  (b.historyBack, b.currentUrl, b.historyForward)

theorem fields_of_history (h : b'.history = b.history) : b'.fields = b.fields := by
  have hurl : b'.currentUrl = b.currentUrl := by rw [currentUrl_eq, currentUrl_eq, h]
  have hback : b'.historyBack = b.historyBack := congrArg Stacks.before h
  have hforward : b'.historyForward = b.historyForward := congrArg Stacks.after h
  rw [fields, fields, hurl, hback, hforward]

theorem exists_undone (hb : b.Sound) {i j : HistoryCall Str} (hi : ∀ url, i ≠ .visit url)
    (hj : ∀ url, j ≠ .visit url) (h : (b.history.call i).call j = b.history) :
    ∃ b₁ b₂, b.call i = some b₁ ∧ b₁.call j = some b₂ ∧ b₂.fields = b.fields := by
  obtain ⟨b₁, hcall⟩ := Option.isSome_iff_exists.mp (isSome_call hb hi)
  obtain ⟨hhistory, hsound⟩ := call_spec hb (fun url heq => absurd heq (hi url)) hcall
  obtain ⟨b₂, hcall'⟩ := Option.isSome_iff_exists.mp (isSome_call hsound hj)
  obtain ⟨hhistory', -⟩ := call_spec hsound (fun url heq => absurd heq (hj url)) hcall'
  exact ⟨b₁, b₂, hcall, hcall', fields_of_history (by rw [hhistory', hhistory, h])⟩

theorem ascii_emptyRxPayload : Ascii emptyRxPayload := by
  unfold emptyRxPayload
  rw [String.toList_append, String.toList_append]
  refine .append (.append ?_ ?_) ?_ <;> exact ascii_ofList (by decide +kernel)

theorem fetch_of_ok {response : HttpResponse} (h : (httpGet url).answer = some (.ok response)) :
    fetch url = (parseHtml response.body).map some := by
  unfold fetch
  rw [h]
  cases hparse : parseHtml response.body <;> simp [hparse]

theorem fetch_of_none (h : (httpGet url).answer = none) : fetch url = none := by
  unfold fetch
  rw [h]
  rfl

theorem isSome_fetch (url : Str) :
    (fetch url).isSome ↔ 1001 + utf8Len (requestOf url) % 2 ^ 32 < 2 ^ 32 := by
  obtain ⟨doc, hdoc⟩ := exists_parseHtml_of_ascii ascii_emptyRxPayload
  have hget := answer_httpGet url
  split_ifs at hget with hlen
  · refine iff_of_true ?_ hlen
    rw [fetch_of_ok hget, hdoc]
    rfl
  · refine iff_of_false ?_ hlen
    rw [fetch_of_none hget]
    simp

theorem isSome_foldlM_call (hb : b.Sound) (hcalls : ∀ url, .visit url ∈ calls → url ≠ []) :
    (calls.foldlM call b).isSome ↔ ∀ url, .visit url ∈ calls → (fetch url).isSome := by
  induction calls generalizing b with
  | nil => exact iff_of_true rfl (by simp)
  | cons i calls ih =>
    rw [List.foldlM_cons]
    have hfirst : ∀ url, i = .visit url → url ≠ [] := fun url heq =>
      hcalls url (heq ▸ List.mem_cons_self ..)
    have hstep : (b.call i).isSome ↔ ∀ url, i = .visit url → (fetch url).isSome := by
      cases i with
      | visit url =>
        rw [call, navigate, isSome_loadCurrentPage]
        simp
      | back => exact iff_of_true (isSome_call hb (by simp)) (by simp)
      | forward => exact iff_of_true (isSome_call hb (by simp)) (by simp)
    have hsplit : (∀ url, .visit url ∈ i :: calls → (fetch url).isSome) ↔
        (b.call i).isSome ∧ ∀ url, .visit url ∈ calls → (fetch url).isSome := by
      rw [hstep]
      simp only [List.mem_cons, or_imp, forall_and, eq_comm]
    rw [hsplit]
    cases hcall : b.call i with
    | none => simp
    | some b₁ =>
      obtain ⟨-, hsound⟩ := call_spec hb hfirst hcall
      rw [Option.bind_eq_bind, Option.bind_some,
        ih hsound fun url hurl => hcalls url (List.mem_cons_of_mem _ hurl)]
      simp

/-- The history is a list with a cursor: after any calls, none of which fails unless the
request for a page is too long, it is that of the reference, going back and forward again
restores it, and so does going forward and back. Whatever the browser shows, another page
is shown from its top. -/
theorem history_is_list (calls : List (HistoryCall Str))
    (hcalls : ∀ url, .visit url ∈ calls → url ≠ []) :
    ((calls.foldlM call .new).isSome ↔ ∀ url, .visit url ∈ calls →
      1001 + utf8Len (requestOf url) % 2 ^ 32 < 2 ^ 32) ∧
    ∀ b, calls.foldlM call .new = some b →
      let visited := calls.foldl Cursor.call .empty
      (b.historyBack ++ (if b.currentUrl = [] then [] else [b.currentUrl]) ++
          b.historyForward.reverse = visited.items ∧
        visited.position = b.historyBack.length ∧
        visited.items[visited.position]?.getD [] = b.currentUrl) ∧
      (b.historyBack ≠ [] → ∃ b₁ b₂, b.historyBackPage = some b₁ ∧
        b₁.historyForwardPage = some b₂ ∧ b₂.fields = b.fields) ∧
      (b.historyForward ≠ [] → ∃ b₁ b₂, b.historyForwardPage = some b₁ ∧
        b₁.historyBackPage = some b₂ ∧ b₂.fields = b.fields) ∧
      ∀ (b₀ b₁ : WebBrowser) (i : HistoryCall Str), b₀.ChangesPage i → b₀.call i = some b₁ →
        b₁.scrollOffset = 0 ∧ b₁.selectedLinkIdx = 0 := by
  refine ⟨?_, fun b h => ?_⟩
  · rw [isSome_foldlM_call sound_new hcalls]
    exact forall₂_congr fun url _ => isSome_fetch url
  obtain ⟨hhistory, hsound⟩ := foldlM_call sound_new hcalls h
  have hcursor : b.history.cursor = calls.foldl Cursor.call .empty := by
    rw [hhistory, Stacks.cursor_foldl sound_new.whole]
    rfl
  have hshown : b.shown.toList = if b.currentUrl = [] then [] else [b.currentUrl] := by
    unfold shown
    split_ifs <;> rfl
  rw [← hcursor, ← hshown]
  refine ⟨⟨rfl, rfl, ?_⟩, ?_, ?_, fun _ _ _ => zero_of_changesPage⟩
  · rw [hsound.whole.getElem?_cursor, ← currentUrl_eq]
  · intro hback
    exact exists_undone (i := .back) (j := .forward) hsound (by simp) (by simp)
      (Stacks.forward_back hsound.whole hback)
  · intro hforward
    exact exists_undone (i := .forward) (j := .back) hsound (by simp) (by simp)
      (Stacks.back_forward hsound.whole hforward)

theorem history_two_pages : ∃ b : WebBrowser,
    [HistoryCall.visit "a".toList, .visit "b".toList, .back].foldlM call new = some b ∧
      b.historyBack = [] ∧ b.currentUrl = "a".toList ∧ b.historyForward = ["b".toList] := by
  obtain ⟨hloads, hlist⟩ := history_is_list
    [HistoryCall.visit "a".toList, .visit "b".toList, .back] (by simp)
  obtain ⟨b, hb⟩ := Option.isSome_iff_exists.mp (hloads.mpr (by simp; decide +kernel))
  obtain ⟨⟨hitems, hposition, hcurrent⟩, -⟩ := hlist b hb
  have hback : b.historyBack = [] := List.length_eq_zero_iff.mp hposition.symm
  have hurl : b.currentUrl = "a".toList := hcurrent.symm
  rw [hback, hurl, if_neg (by decide)] at hitems
  refine ⟨b, hb, hback, hurl, ?_⟩
  simpa [Cursor.call, Cursor.visit, Cursor.back, Cursor.empty] using hitems

end WebBrowser

end AliluOS.Network
