import AliluOS.Text.Str

/-! Positions in a text are counted in the bytes of its UTF-8 encoding. -/

namespace AliluOS.Text

variable {s t : Str} {c : Char}

@[simp] theorem utf8Len_nil : utf8Len [] = 0 := rfl

@[simp] theorem utf8Len_cons (c : Char) (s : Str) : utf8Len (c :: s) = c.utf8Size + utf8Len s := by
  simp [utf8Len]

@[simp] theorem utf8Len_append (s t : Str) : utf8Len (s ++ t) = utf8Len s + utf8Len t := by
  simp [utf8Len]

theorem length_asBytes (s : Str) : (asBytes s).length = utf8Len s := by
  rw [asBytes, List.length_flatMap, utf8Len]
  exact congrArg List.sum (List.map_congr_left fun c _ => String.length_utf8EncodeChar c)

theorem utf8Size_ascii (hc : c.toNat < 128) : c.utf8Size = 1 :=
  Char.utf8Size_eq_one_iff.mpr (UInt32.le_iff_toNat_le.mpr (Nat.le_of_lt_succ hc))

theorem length_le_utf8Len (s : Str) : s.length ≤ utf8Len s := by
  induction s with
  | nil => rfl
  | cons c s ih =>
    rw [List.length_cons, utf8Len_cons, Nat.add_comm]
    exact Nat.add_le_add c.utf8Size_pos ih

theorem utf8Len_ascii (h : ∀ c ∈ s, c.toNat < 128) : utf8Len s = s.length := by
  induction s with
  | nil => rfl
  | cons c s ih =>
    obtain ⟨hc, hs⟩ := List.forall_mem_cons.mp h
    rw [utf8Len_cons, utf8Size_ascii hc, ih hs, List.length_cons, Nat.add_comm]

theorem sliceFrom_cons {n : Nat} (hn : c.utf8Size ≤ n) :
    sliceFrom n (c :: s) = sliceFrom (n - c.utf8Size) s := by
  have hpos := c.utf8Size_pos
  cases n with
  | zero => omega
  | succ n => rw [sliceFrom, if_pos hn]

@[simp] theorem sliceFrom_append (s t : Str) : sliceFrom (utf8Len s) (s ++ t) = some t := by
  induction s with
  | nil => rw [List.nil_append, utf8Len_nil, sliceFrom]
  | cons c s ih =>
    rw [List.cons_append, utf8Len_cons, sliceFrom_cons (Nat.le_add_right _ _),
      Nat.add_sub_cancel_left, ih]

/-- A slice is what stands behind a front of that many bytes. -/
theorem sliceFrom_eq_some {n : Nat} :
    sliceFrom n s = some t ↔ ∃ front, s = front ++ t ∧ utf8Len front = n := by
  constructor
  · intro h
    induction s generalizing n with
    | nil =>
      cases n with
      | zero => exact ⟨[], by simpa [sliceFrom] using h, rfl⟩
      | succ n => simp [sliceFrom] at h
    | cons c s ih =>
      cases n with
      | zero => exact ⟨[], by simpa [sliceFrom] using h, rfl⟩
      | succ n =>
        rw [sliceFrom] at h
        split_ifs at h with hle
        obtain ⟨front, rfl, hfront⟩ := ih h
        exact ⟨c :: front, rfl, by rw [utf8Len_cons, hfront]; omega⟩
  · rintro ⟨front, rfl, rfl⟩
    exact sliceFrom_append front t

theorem utf8Len_toLowercase_ascii (h : ∀ c ∈ s, c.toNat < 128) :
    utf8Len (toLowercase s) = utf8Len s := by
  induction s with
  | nil => rfl
  | cons c s ih =>
    obtain ⟨hc, hs⟩ := List.forall_mem_cons.mp h
    obtain ⟨d, hlower, hd, -⟩ := charToLowercase_ascii hc
    rw [toLowercase_cons, hlower, List.singleton_append, utf8Len_cons, utf8Len_cons,
      utf8Size_ascii hc, utf8Size_ascii hd, ih hs]

theorem find_toLowercase {pat : Str} (hne : pat ≠ []) (hi : 'i' ∉ pat)
    (hdot : Char.ofNat 0x307 ∉ pat) (t : Str) :
    find pat (toLowercase t) = (locate pat t).map fun x => utf8Len (toLowercase x.1) := by
  have not_prefix : ∀ {d : Char} {s : Str}, d ∉ pat → pat.isPrefixOf (d :: s) = false := by
    intro d s hd
    cases pat with
    | nil => exact absurd rfl hne
    | cons e pat =>
      have hde : e ≠ d := fun heq => hd (heq ▸ List.mem_cons_self ..)
      rw [List.isPrefixOf_cons_cons, beq_false_of_ne hde, Bool.false_and]
  induction t with
  | nil => simp [find, locate, hne]
  | cons c t ih =>
    have hhere := isPrefixOf_toLowercase hi (c :: t)
    rw [locate]
    rcases charToLowercase_cases c with hc | ⟨d, hc, -⟩ <;>
      rw [toLowercase_cons, hc] at hhere ⊢
    · -- neither of the two characters begins the text
      have hno : ¬ toLowercase ((c :: t).take pat.length) = pat := by
        rw [← hhere, List.cons_append, not_prefix hi]
        simp
      rw [if_neg hno, List.cons_append, List.singleton_append, find, not_prefix hi, find,
        not_prefix hdot, ih]
      cases locate pat t with
      | none => rfl
      | some x => simp [hc]
    · rw [List.singleton_append] at hhere ⊢
      rw [find]
      by_cases hpre : pat.isPrefixOf (d :: toLowercase t) = true
      · rw [if_pos hpre, if_pos (hhere.mp hpre)]
        rfl
      · rw [if_neg hpre, if_neg (fun heq => hpre (hhere.mpr heq)), ih]
        cases locate pat t with
        | none => rfl
        | some x => simp [hc]

end AliluOS.Text
