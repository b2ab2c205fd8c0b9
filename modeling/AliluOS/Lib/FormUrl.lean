import AliluOS.Lib.Utf8
import Mathlib.Data.List.Infix

/-! Reading `application/x-www-form-urlencoded`: the parameters of a query string. -/

namespace AliluOS.Lib.FormUrl
open Utf8

def hexDigit (c : Char) : Option Nat :=
  if '0' ≤ c ∧ c ≤ '9' then some (c.toNat - '0'.toNat)
  else if 'a' ≤ c ∧ c ≤ 'f' then some (c.toNat - 'a'.toNat + 10)
  else if 'A' ≤ c ∧ c ≤ 'F' then some (c.toNat - 'A'.toNat + 10)
  else none

def hexByte (x y : Char) : Option Nat := do return 16 * (← hexDigit x) + (← hexDigit y)

/-- The bytes of a text, its escapes replaced. -/
def percentDecode : List Char → List Nat
  | '%' :: x :: y :: s =>
    match hexByte x y with
    | some b => b :: percentDecode s
    | none => encodeChar '%' ++ percentDecode (x :: y :: s)
  | c :: s => encodeChar c ++ percentDecode s
  | [] => []

def plusToSpace (s : List Char) : List Char := s.map fun c => if c = '+' then ' ' else c

def decodeText (s : List Char) : List Char := decode (percentDecode (plusToSpace s))

def parse (query : List Char) : List (List Char × List Char) :=
  ((query.splitOn '&').filter (· ≠ [])).map fun piece =>
    (decodeText (piece.takeWhile (· ≠ '=')), decodeText ((piece.dropWhile (· ≠ '=')).drop 1))

def urlQuery (url : List Char) : List Char :=
  ((url.takeWhile (· ≠ '#')).dropWhile (· ≠ '?')).drop 1

def HasEscape (s : List Char) : Prop := ∃ x y, (hexByte x y).isSome ∧ ['%', x, y] <:+: s

variable {s t : List Char} {c x y : Char}

theorem hasEscape_cons : HasEscape (c :: s) ↔
    (∃ x y, (hexByte x y).isSome ∧ c = '%' ∧ [x, y] <+: s) ∨ HasEscape s := by
  simp only [HasEscape, List.infix_cons_iff, List.cons_prefix_cons, and_or_left, exists_or,
    eq_comm (a := '%')]

theorem not_hasEscape_nil : ¬ HasEscape [] := by
  rintro ⟨x, y, -, h⟩
  simp at h

/-- An escape makes the text shorter, and a text without escapes is read as it stands. -/
def Shortens (s : List Char) : Prop :=
  (HasEscape s → (decode (percentDecode s)).length < s.length) ∧
    (¬ HasEscape s → decode (percentDecode s) = s)

theorem Shortens.length_le (h : Shortens s) : (decode (percentDecode s)).length ≤ s.length := by
  by_cases hescape : HasEscape s
  · exact (h.1 hescape).le
  · rw [h.2 hescape]

theorem Shortens.cons (h : Shortens s)
    (hno : ¬ ∃ x y, (hexByte x y).isSome ∧ c = '%' ∧ [x, y] <+: s)
    (hread : percentDecode (c :: s) = encodeChar c ++ percentDecode s) : Shortens (c :: s) := by
  rw [Shortens, hasEscape_cons, or_iff_right hno, hread, decode_encodeChar]
  exact ⟨fun hescape => Nat.succ_lt_succ (h.1 hescape), fun hescape =>
    congrArg (c :: ·) (h.2 hescape)⟩

theorem shortens (s : List Char) : Shortens s := by
  induction s using percentDecode.induct with
  | case1 x y s b hbyte ih =>
    have hescape : HasEscape ('%' :: x :: y :: s) :=
      ⟨x, y, by simp [hbyte], List.prefix_append ['%', x, y] s |>.isInfix⟩
    refine ⟨fun _ => ?_, fun h => absurd hescape h⟩
    have hle := ih.length_le
    have hone := length_decode_cons_le b (percentDecode s)
    rw [percentDecode, hbyte]
    simp only [List.length_cons]
    omega
  | case2 x y s hbyte ih =>
    refine ih.cons ?_ (by rw [percentDecode, hbyte])
    rintro ⟨x', y', hsome, -, hpre⟩
    simp only [List.cons_prefix_cons] at hpre
    rw [hpre.1, hpre.2.1, hbyte] at hsome
    simp at hsome
  | case3 c s hshort ih =>
    refine ih.cons ?_ ?_
    · rintro ⟨x, y, -, rfl, s', rfl⟩
      exact hshort x y s' rfl rfl
    · rw [percentDecode]
      exact hshort
  | case4 => exact ⟨fun h => absurd h not_hasEscape_nil, fun _ => rfl⟩

@[simp] theorem length_plusToSpace (s : List Char) : (plusToSpace s).length = s.length :=
  List.length_map _

theorem length_decodeText_le (s : List Char) : (decodeText s).length ≤ s.length := by
  have hle := (shortens (plusToSpace s)).length_le
  rwa [length_plusToSpace] at hle

theorem decodeText_eq_iff (hlen : s.length ≤ t.length) :
    decodeText s = t ↔ plusToSpace s = t ∧ ¬ HasEscape t := by
  obtain ⟨hshort, hsame⟩ := shortens (plusToSpace s)
  rw [length_plusToSpace] at hshort
  constructor
  · intro h
    have hno : ¬ HasEscape (plusToSpace s) := by
      intro hescape
      have hlt := hshort hescape
      rw [← decodeText, h] at hlt
      omega
    have heq : plusToSpace s = t := (hsame hno).symm.trans h
    exact ⟨heq, heq ▸ hno⟩
  · rintro ⟨rfl, hno⟩
    exact hsame hno

theorem splitOn_append_of_notMem {a : Char} (h : a ∉ s) (t : List Char) :
    (s ++ t).splitOn a = (t.splitOn a).modifyHead (s ++ ·) := by
  induction s with
  | nil =>
    rw [List.nil_append]
    cases t.splitOn a <;> rfl
  | cons c s ih =>
    simp only [List.mem_cons, not_or] at h
    rw [List.cons_append, List.splitOn_cons_eq_if_modifyHead, if_neg (by simpa using Ne.symm h.1),
      ih h.2, List.modifyHead_modifyHead]
    rfl

theorem exists_splitOn (a : Char) (s : List Char) : ∃ first rest, s.splitOn a = first :: rest ∧
    (a ∉ s ∧ first = s ∧ rest = [] ∨ a ∈ s ∧ first.length < s.length) := by
  by_cases h : a ∈ s
  · obtain ⟨before, after, rfl, hbefore⟩ := List.eq_append_cons_of_mem h
    refine ⟨before, after.splitOn a, List.splitOn_append_cons_self_of_not_mem hbefore _,
      .inr ⟨h, ?_⟩⟩
    simp
  · exact ⟨s, [], List.splitOn_eq_singleton h, .inl ⟨h, rfl, rfl⟩⟩

theorem parse_eq_singleton_iff {name : List Char} (hname : ∀ c ∈ name, c ≠ '&' ∧ c ≠ '=')
    (hdecode : decodeText name = name) (hlen : s.length ≤ t.length) :
    parse (name ++ '=' :: s) = [(name, t)] ↔
      '&' ∉ s ∧ plusToSpace s = t ∧ ¬ HasEscape t := by
  obtain ⟨value, others, hsplit, hcases⟩ := exists_splitOn '&' s
  have hamp : '&' ∉ name ++ ['='] := by
    simp only [List.mem_append, List.mem_singleton, not_or]
    exact ⟨fun h => (hname _ h).1 rfl, by decide⟩
  have hequals : ∀ c ∈ name, decide (c ≠ '=') = true := fun c hc => by simp [(hname c hc).2]
  have hpieces : (name ++ '=' :: s).splitOn '&' = (name ++ '=' :: value) :: others := by
    rw [List.append_cons, splitOn_append_of_notMem hamp, hsplit]
    simp
  have hfirst : parse (name ++ '=' :: s) = [(name, t)] ↔
      decodeText value = t ∧ others.filter (· ≠ []) = [] := by
    rw [parse, hpieces, List.filter_cons_of_pos (by simp), List.map_cons,
      List.takeWhile_append_of_pos hequals, List.dropWhile_append_of_pos hequals]
    simp [hdecode]
  rw [hfirst]
  rcases hcases with ⟨hno, rfl, rfl⟩ | ⟨hsome, hshort⟩
  · rw [decodeText_eq_iff hlen]
    simp [hno]
  · refine iff_of_false ?_ fun h => h.1 hsome
    rintro ⟨rfl, -⟩
    have hle := length_decodeText_le value
    omega

end AliluOS.Lib.FormUrl
