import AliluOS.Lib.FormUrl
import AliluOS.Network.Request

/-! The search URL as the server reads it. -/

namespace AliluOS.Network
open Text Lib.FormUrl

/-- Nothing in the query has a meaning of its own in a URL. -/
structure Literal (query : Str) : Prop where
  plus : '+' ∉ query
  amp : '&' ∉ query
  hash : '#' ∉ query
  escape : ¬ HasEscape query

/-- What is left of the query before a fragment. -/
def sentQuery (query : Str) : Str := (plusForSpace query).takeWhile (· ≠ '#')

variable {query query' : Str} {c : Char}

theorem urlQuery_search (query : Str) :
    urlQuery (formatDuckduckgoUrl query) = "q=".toList ++ sentQuery query := by
  have hfixed : ∀ c ∈ "https://html.duckduckgo.com/html/?q=".toList, decide (c ≠ '#') = true := by
    decide
  have hurl : formatDuckduckgoUrl query =
      "https://html.duckduckgo.com/html/?q=".toList ++ plusForSpace query := rfl
  rw [urlQuery, hurl, List.takeWhile_append_of_pos hfixed]
  rfl

theorem mem_plusForSpace (hc : c ≠ ' ' ∧ c ≠ '+') : c ∈ plusForSpace query ↔ c ∈ query := by
  simp only [plusForSpace, List.mem_map]
  constructor
  · rintro ⟨d, hd, rfl⟩
    split_ifs at hc ⊢ with hspace
    · exact absurd rfl hc.2
    · exact hd
  · exact fun hmem => ⟨c, hmem, if_neg hc.1⟩

theorem plusToSpace_plusForSpace (h : '+' ∉ query) : plusToSpace (plusForSpace query) = query := by
  have hback : ∀ c ∈ query, (if (if c = ' ' then '+' else c) = '+' then ' '
      else if c = ' ' then '+' else c) = c := by
    intro c hc
    have hplus : c ≠ '+' := ne_of_mem_of_not_mem hc h
    by_cases hspace : c = ' '
    · simp [hspace]
    · simp [hspace, hplus]
  rw [plusToSpace, plusForSpace, List.map_map]
  exact (List.map_congr_left hback).trans (List.map_id' _)

theorem plus_notMem_plusToSpace (s : Str) : '+' ∉ plusToSpace s := by
  intro h
  obtain ⟨c, -, hc⟩ := List.mem_map.mp h
  split_ifs at hc with hplus
  · exact absurd hc (by decide)
  · exact hplus hc

theorem sentQuery_eq_iff : sentQuery query = plusForSpace query ↔ '#' ∉ query := by
  have hhash : '#' ∈ plusForSpace query ↔ '#' ∈ query := mem_plusForSpace (by decide)
  rw [sentQuery, List.takeWhile_eq_self_iff, ← hhash]
  constructor
  · intro h hmem
    simpa using h _ hmem
  · intro h c hc
    rw [decide_eq_true_eq]
    exact ne_of_mem_of_not_mem hc h

/-- The server reads the query out of the URL exactly when it has no sign with a meaning of
its own and no escape, and such queries have different URLs. -/
theorem search_url_iff (query : Str) :
    (parse (urlQuery (formatDuckduckgoUrl query)) = [("q".toList, query)] ↔ Literal query) ∧
      ∀ query', Literal query → Literal query' →
        formatDuckduckgoUrl query = formatDuckduckgoUrl query' → query = query' := by
  constructor
  · have hlen : (sentQuery query).length ≤ query.length := by
      have hle : (sentQuery query).length ≤ (plusForSpace query).length :=
        (List.takeWhile_prefix _).length_le
      rwa [plusForSpace, List.length_map] at hle
    have hname : ∀ c ∈ "q".toList, c ≠ '&' ∧ c ≠ '=' := by decide
    have hdecode : decodeText "q".toList = "q".toList := by decide +kernel
    have hparse := parse_eq_singleton_iff hname hdecode hlen
    rw [urlQuery_search]
    refine hparse.trans ⟨?_, ?_⟩
    · rintro ⟨hamp, hquery, hescape⟩
      have hall : sentQuery query = plusForSpace query := by
        refine (List.takeWhile_prefix _).eq_of_length ?_
        rw [plusForSpace, List.length_map]
        conv_rhs => rw [← hquery]
        exact (length_plusToSpace _).symm
      have hplus : '+' ∉ query := hquery ▸ plus_notMem_plusToSpace _
      rw [hall, mem_plusForSpace (by decide)] at hamp
      exact ⟨hplus, hamp, sentQuery_eq_iff.mp hall, hescape⟩
    · rintro ⟨hplus, hamp, hhash, hescape⟩
      rw [sentQuery_eq_iff.mpr hhash, mem_plusForSpace (by decide)]
      exact ⟨hamp, plusToSpace_plusForSpace hplus, hescape⟩
  · intro query' h h' hurl
    have hsame : plusForSpace query = plusForSpace query' := List.append_cancel_left hurl
    rw [← plusToSpace_plusForSpace h.plus, hsame, plusToSpace_plusForSpace h'.plus]

theorem plus_read_as_space : ¬ ∀ query : Str,
    parse (urlQuery (formatDuckduckgoUrl query)) = [("q".toList, query)] := by
  intro h
  have hplus := h "c++".toList
  revert hplus
  decide +kernel

end AliluOS.Network
