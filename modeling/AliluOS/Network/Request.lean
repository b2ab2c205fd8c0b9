import AliluOS.Kernel.Effect
import AliluOS.Network.Browser
import AliluOS.Text.Tokens

/-! The request that a search sends. -/

namespace AliluOS.Network
open Text Kernel Lib.Thread

def crlfLines : Str → List Str
  | [] => [[]]
  | '\r' :: '\n' :: s => [] :: crlfLines s
  | c :: s => (crlfLines s).modifyHead (c :: ·)

/-- No white space apart from the space itself. Control characters may be in it. -/
def Spaced (query : Str) : Prop := ∀ c ∈ query, c = ' ' ∨ isWhitespace c = false

def plusForSpace (query : Str) : Str := query.map fun c => if c = ' ' then '+' else c

def searchPath (query : Str) : Str := "/html/?q=".toList ++ plusForSpace query

variable {line query s : Str} {c : Char}

theorem crlfLines_ne (h : c ≠ '\r') (s : Str) :
    crlfLines (c :: s) = (crlfLines s).modifyHead (c :: ·) := by
  rw [crlfLines]
  exact fun _ heq => absurd heq h

theorem crlfLines_line (h : '\r' ∉ line) (s : Str) :
    crlfLines (line ++ '\r' :: '\n' :: s) = line :: crlfLines s := by
  induction line with
  | nil => rw [List.nil_append, crlfLines]
  | cons c line ih =>
    simp only [List.mem_cons, not_or] at h
    rw [List.cons_append, crlfLines_ne (Ne.symm h.1), ih h.2, List.modifyHead_cons]

theorem crlfLines_flatMap {lines : List Str} (h : ∀ line ∈ lines, '\r' ∉ line) :
    crlfLines (lines.flatMap (· ++ ['\r', '\n'])) = lines ++ [[]] := by
  induction lines with
  | nil => rfl
  | cons line lines ih =>
    obtain ⟨hline, hlines⟩ := List.forall_mem_cons.mp h
    rw [List.flatMap_cons, List.append_assoc, List.cons_append, List.singleton_append,
      crlfLines_line hline, ih hlines, List.cons_append]

/-- Whatever the query is, it ends up behind the first slash of the path. -/
theorem hostAndPath_search (query : Str) : hostAndPath (formatDuckduckgoUrl query) =
    ("html.duckduckgo.com".toList, searchPath query) := rfl

theorem whitespace_notMem_searchPath (h : Spaced query) (hc : isWhitespace c = true) :
    c ∉ searchPath query := by
  have hfixed : ∀ c ∈ "/html/?q=".toList, isWhitespace c = false := by decide
  intro hmem
  rcases List.mem_append.mp hmem with hmem | hmem
  · simp [hfixed c hmem] at hc
  · obtain ⟨d, hd, rfl⟩ := List.mem_map.mp hmem
    split_ifs at hc with hspace
    · exact absurd hc (by decide)
    · simp [(h d hd).resolve_left hspace] at hc

def searchLine (query : Str) : Str :=
  "GET ".toList ++ searchPath query ++ " HTTP/1.1".toList

theorem mem_searchLine : c ∈ searchLine query ↔
    (c ∈ "GET ".toList ∨ c ∈ searchPath query) ∨ c ∈ " HTTP/1.1".toList :=
  List.mem_append.trans (or_congr_left List.mem_append)

def headerLines : List Str :=
  ["Host: html.duckduckgo.com", "User-Agent: AliluOS-TextBrowser/1.0",
    "Accept: text/html, text/plain", "Connection: close", ""]

theorem requestOf_search (query : Str) : requestOf (formatDuckduckgoUrl query) =
    (searchLine query :: headerLines).flatMap (· ++ ['\r', '\n']) := by
  -- an equation lemma of `request` would evaluate its texts
  rw [requestOf, hostAndPath_search]
  delta request searchLine
  simp [headerLines]

theorem utf8Len_plusForSpace (query : Str) : utf8Len (plusForSpace query) = utf8Len query := by
  induction query with
  | nil => rfl
  | cons c query ih =>
    rw [plusForSpace, List.map_cons, ← plusForSpace, utf8Len_cons, utf8Len_cons, ih]
    split_ifs with hspace
    · rw [hspace]
      rfl
    · rfl

theorem utf8Len_requestOf_search (query : Str) :
    utf8Len (requestOf (formatDuckduckgoUrl query)) = utf8Len query + 140 := by
  have hheader : utf8Len (['\r', '\n'] ++ headerLines.flatMap (· ++ ['\r', '\n'])) = 118 := by
    decide +kernel
  have hline : utf8Len (searchLine query) = 4 + (9 + utf8Len query) + 9 := by
    delta searchLine searchPath
    rw [utf8Len_append, utf8Len_append, utf8Len_append, utf8Len_plusForSpace]
    rfl
  rw [requestOf_search, List.flatMap_cons, List.append_assoc, utf8Len_append, hline, hheader]
  omega

def pageLines : List Str :=
  ["# ", "DuckDuckGo Privacy Search", "Privacy, simplified. Search the web without being tracked.",
    "[1] Search AliluOS"]

theorem lines_parseHtml : (parseHtml emptyRxPayload).map HtmlDocument.lines = some pageLines := by
  decide +kernel

def searchLines (query : Str) : List Str :=
  [formatStr "# DuckDuckGo Search Results: \"" query "\"", ""] ++ pageLines

theorem performDuckduckgoSearch_eq (query : Str) (wire : Wire) :
    performDuckduckgoSearch query wire =
      if 1001 + (utf8Len query + 140) % 2 ^ 32 < 2 ^ 32 then
        some (searchLines query, wire ++ [asBytes (requestOf (formatDuckduckgoUrl query))])
      else none := by
  obtain ⟨document, hparse, hlines⟩ := Option.map_eq_some_iff.mp lines_parseHtml
  have hget := httpGet_eq (formatDuckduckgoUrl query) wire
  rw [utf8Len_requestOf_search] at hget
  unfold performDuckduckgoSearch searchLines
  rw [← hlines, Net.bind_eq, hget]
  clear hget hlines
  generalize emptyRxPayload = page at hparse
  generalize requestOf (formatDuckduckgoUrl query) = sent
  split_ifs
  · rw [Option.bind_some]
    dsimp only
    rw [hparse]
    rfl
  · rfl

/-- A query changes nothing of what a search sends but the path behind `q=`: one payload,
of which the lines are those of any other search, and the request line has its three parts.
A query so long that the sequence number of the socket overflows sends nothing. -/
theorem search_request (query : Str) (h : Spaced query) (wire : Wire) :
    ∃ sent : Str,
      (performDuckduckgoSearch query wire).map Prod.snd =
        (if 1001 + (utf8Len query + 140) % 2 ^ 32 < 2 ^ 32 then some (wire ++ [asBytes sent])
          else none) ∧
      crlfLines sent =
        [searchLine query, "Host: html.duckduckgo.com".toList,
          "User-Agent: AliluOS-TextBrowser/1.0".toList, "Accept: text/html, text/plain".toList,
          "Connection: close".toList, [], []] ∧
      (searchLine query).splitOn ' ' =
        ["GET".toList, "/html/?q=".toList ++ plusForSpace query, "HTTP/1.1".toList] ∧
      ∀ c ∈ searchLine query, isWhitespace c = true → c = ' ' := by
  refine ⟨requestOf (formatDuckduckgoUrl query), ?_, ?_, ?_, ?_⟩
  · rw [performDuckduckgoSearch_eq]
    split_ifs <;> rfl
  · have hline : '\r' ∉ searchLine query := by
      simp only [mem_searchLine, not_or]
      exact ⟨⟨by decide, whitespace_notMem_searchPath h (by decide)⟩, by decide⟩
    rw [requestOf_search, crlfLines_flatMap (List.forall_mem_cons.mpr ⟨hline, by decide⟩)]
    rfl
  · have hparts : searchLine query =
        "GET".toList ++ ' ' :: (searchPath query ++ ' ' :: "HTTP/1.1".toList) :=
      List.append_assoc _ (searchPath query) _
    rw [hparts, List.splitOn_append_cons_self_of_not_mem (by decide),
      List.splitOn_append_cons_self_of_not_mem (whitespace_notMem_searchPath h (by decide))]
    rfl
  · have hfixed : ∀ c ∈ "GET ".toList ++ " HTTP/1.1".toList,
        isWhitespace c = true → c = ' ' := by decide
    intro c hc hwhite
    rcases mem_searchLine.mp hc with (hc | hc) | hc
    · exact hfixed c (List.mem_append_left _ hc) hwhite
    · exact absurd hc (whitespace_notMem_searchPath h hwhite)
    · exact hfixed c (List.mem_append_right _ hc) hwhite

theorem search_request_slashes :
    ∃ sent : Str,
      (performDuckduckgoSearch "http://a@b:1/ x".toList []).map Prod.snd = some [asBytes sent] ∧
      crlfLines sent =
        [searchLine "http://a@b:1/ x".toList, "Host: html.duckduckgo.com".toList,
          "User-Agent: AliluOS-TextBrowser/1.0".toList, "Accept: text/html, text/plain".toList,
          "Connection: close".toList, [], []] ∧
      (searchLine "http://a@b:1/ x".toList).splitOn ' ' =
        ["GET".toList, "/html/?q=".toList ++ plusForSpace "http://a@b:1/ x".toList,
          "HTTP/1.1".toList] ∧
      ∀ c ∈ searchLine "http://a@b:1/ x".toList, isWhitespace c = true → c = ' ' := by
  obtain ⟨sent, hsent, hlines⟩ :=
    search_request "http://a@b:1/ x".toList (by unfold Spaced; decide) []
  exact ⟨sent, hsent, hlines⟩

theorem spaced_join {words : List Str} (h : ∀ word ∈ words, Token word) :
    Spaced (join " " words) := by
  intro c hc
  rcases mem_join hc with hc | ⟨word, hword, hc⟩
  · exact .inl (by simpa using hc)
  · exact .inr ((h word hword).2 c hc)

theorem spaced_scancodeToChar {code : UInt8} (h : scancodeToChar code = some c) :
    c = ' ' ∨ isWhitespace c = false := by
  have hkeys : ∀ key ∈ queryKeys, key.2 = ' ' ∨ isWhitespace key.2 = false := by decide
  obtain ⟨key, hkey, rfl⟩ : ∃ key ∈ queryKeys, key.2 = c := by
    obtain ⟨before, after, hsplit, -⟩ := List.lookup_eq_some_iff.mp h
    exact ⟨(code, c), by simp [hsplit], rfl⟩
  exact hkeys key hkey

def KeepsSpaced (t : KernelM (Browser ⊕ Unit)) : Prop :=
  ∀ m, wp t m ⟨fun r _ => ∀ b, r = .inl b → Spaced b.query, fun _ => True, fun _ => True⟩

namespace KeepsSpaced

variable {t u : KernelM (Browser ⊕ Unit)} {b : Browser}

theorem inl (hb : Spaced b.query) : KeepsSpaced (pure (.inl b)) := by
  intro m
  rw [wp_pure]
  rintro _ ⟨⟩
  exact hb

theorem inr : KeepsSpaced (pure (.inr ())) := by
  intro m
  rw [wp_pure]
  rintro _ ⟨⟩

theorem ite {p : Prop} [Decidable p] (ht : KeepsSpaced t) (hu : KeepsSpaced u) :
    KeepsSpaced (if p then t else u) := by
  split_ifs
  · exact ht
  · exact hu

end KeepsSpaced

theorem Browser.spaced_search {b : Browser} (hb : Spaced b.query) :
    KeepsSpaced (return .inl (← b.search)) := by
  unfold search
  cases (performDuckduckgoSearch b.query).answer with
  | none =>
    intro m
    simp [kernelPanic]
  | some lines => exact .inl hb

theorem Browser.spaced_key {b : Browser} (hb : Spaced b.query) (code : UInt8) :
    KeepsSpaced (b.key code) := by
  have hsame : KeepsSpaced (pure (.inl b)) := .inl hb
  have hpop : Spaced b.query.dropLast := fun c hc => hb c (List.dropLast_subset _ hc)
  refine .ite .inr (.ite ?_ (.ite ?_ (.ite ?_ (.ite ?_ ?_))))
  · exact .ite (spaced_search hb) hsame
  · exact .inl hpop
  · exact .ite (.inl hb) hsame
  · cases b.results with
    | none => exact hsame
    | some lines => exact .ite (.inl hb) hsame
  · cases hchar : scancodeToChar code with
    | none => exact hsame
    | some c =>
      have hpush : Spaced (b.query ++ [c]) := by
        intro d hd
        rcases List.mem_append.mp hd with hd | hd
        · exact hb d hd
        · obtain rfl := List.mem_singleton.mp hd
          exact spaced_scancodeToChar hchar
      exact .ite (.inl hpush) hsame

end AliluOS.Network
