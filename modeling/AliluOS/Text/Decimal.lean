import AliluOS.Text.Str

/-! The numerals that the kernel writes are the decimal numerals. `decimal` writes them
for numbers of any size; `seconds_to_str` and `u8_to_str` count in machine words. -/

namespace AliluOS.Text

theorem digitChar_eq {d : Nat} (h : d < 10) : digitChar d = d.digitChar := by
  have hall : ∀ d < 10, digitChar d = d.digitChar := by decide
  exact hall d h

theorem pushDigits_eq {fuel n : Nat} (hn : 0 < n) (hfuel : n ≤ fuel) (digits : Str) :
    pushDigits fuel n digits = digits ++ (Nat.toDigits 10 n).reverse := by
  induction fuel generalizing n digits with
  | zero => omega
  | succ fuel ih =>
    have hlast : digitChar (n % 10) = (n % 10).digitChar := digitChar_eq (Nat.mod_lt n (by omega))
    rw [pushDigits, if_pos hn, hlast]
    by_cases hlt : n < 10
    · rw [Nat.div_eq_of_lt hlt, Nat.mod_eq_of_lt hlt, Nat.toDigits_of_lt_base hlt]
      cases fuel <;> simp [pushDigits]
    · have hle : 10 ≤ n := Nat.le_of_not_lt hlt
      rw [Nat.toDigits_of_base_le (by decide) hle, ih (by omega) (by omega)]
      simp

theorem decimal_eq (n : Nat) : decimal n = Nat.toDigits 10 n := by
  unfold decimal
  split_ifs with hzero
  · rw [hzero, Nat.toDigits_zero]
  · rw [pushDigits_eq (by omega) le_rfl]
    simp

theorem decimal_injective : Function.Injective decimal := by
  intro a b h
  rw [decimal_eq, decimal_eq] at h
  have hvalue := congrArg (Nat.ofDigitChars 10 · 0) h
  simpa only [Nat.ofDigitChars_ten_toDigits] using hvalue

theorem isDigit_of_mem_decimal {n : Nat} {c : Char} (h : c ∈ decimal n) : c.isDigit := by
  rw [decimal_eq] at h
  exact Nat.isDigit_of_mem_toDigits (by omega) (by omega) h

/-- `u8` addition, which panics above 255 in the dev profile. -/
def addU8 (a b : UInt8) : Option UInt8 := if a.toNat + b.toNat < 256 then some (a + b) else none

theorem toNat_ten (k : Nat) : (10 : BitVec (8 + k)).toNat = 10 := by
  have hle : 2 ^ 8 ≤ 2 ^ (8 + k) := Nat.pow_le_pow_right (by decide) (Nat.le_add_right 8 k)
  exact Nat.mod_eq_of_lt (lt_of_lt_of_le (by decide) hle)

def digitLoop {k : Nat} (temp : BitVec (8 + k)) (digits : Str) : Option Str :=
  if temp.toNat > 0 then do
    let digit ← addU8 48 (UInt8.ofBitVec ((temp % 10).setWidth 8))
    digitLoop (temp / 10) (digits ++ [Char.ofNat digit.toNat])
  else some digits
termination_by temp.toNat
decreasing_by
  rw [BitVec.toNat_udiv, toNat_ten]
  omega

def numeral {k : Nat} (val : BitVec (8 + k)) : Option Str :=
  if val = 0 then some ['0'] else (digitLoop val []).map List.reverse

def secondsToStr (secs : UInt64) : Option Str := numeral (k := 56) secs.toBitVec

def u8ToStr (val : UInt8) : Option Str := numeral (k := 0) val.toBitVec

theorem addU8_digit {d : UInt8} (h : d.toNat < 10) :
    ∃ digit, addU8 48 d = some digit ∧ Char.ofNat digit.toNat = d.toNat.digitChar := by
  have hsum : (48 + d).toNat = 48 + d.toNat := by
    rw [UInt8.toNat_add]
    exact Nat.mod_eq_of_lt (show 48 + d.toNat < 256 by omega)
  refine ⟨48 + d, if_pos (show 48 + d.toNat < 256 by omega), ?_⟩
  rw [hsum, ← digitChar_eq h]
  rfl

theorem digitLoop_zero {k : Nat} {temp : BitVec (8 + k)} (h : temp.toNat = 0) (digits : Str) :
    digitLoop temp digits = some digits := by
  rw [digitLoop, if_neg (by omega)]

theorem digitLoop_eq {k : Nat} {temp : BitVec (8 + k)} (h : 0 < temp.toNat) (digits : Str) :
    digitLoop temp digits = some (digits ++ (Nat.toDigits 10 temp.toNat).reverse) := by
  have hdigit : (UInt8.ofBitVec ((temp % 10).setWidth 8)).toNat = temp.toNat % 10 := by
    change ((temp % 10).setWidth 8).toNat = _
    rw [BitVec.toNat_setWidth, BitVec.toNat_umod, toNat_ten]
    omega
  have hnext : (temp / 10).toNat = temp.toNat / 10 := by
    rw [BitVec.toNat_udiv, toNat_ten]
  obtain ⟨digit, hadd, hchar⟩ := addU8_digit (hdigit.trans_lt (Nat.mod_lt _ (by decide)))
  rw [digitLoop, if_pos h, hadd]
  change digitLoop (temp / 10) (digits ++ [Char.ofNat digit.toNat]) = _
  rw [hchar, hdigit]
  by_cases hlt : temp.toNat < 10
  · rw [digitLoop_zero (by omega), Nat.mod_eq_of_lt hlt, Nat.toDigits_of_lt_base hlt]
    rfl
  · rw [digitLoop_eq (by omega), hnext, Nat.toDigits_of_base_le (by decide) (Nat.le_of_not_lt hlt)]
    simp
termination_by temp.toNat
decreasing_by
  rw [BitVec.toNat_udiv, toNat_ten]
  omega

theorem numeral_eq {k : Nat} (val : BitVec (8 + k)) :
    numeral val = some (Nat.toDigits 10 val.toNat) := by
  unfold numeral
  split_ifs with hzero
  · rw [hzero]
    exact congrArg some (Nat.toDigits_zero 10).symm
  · have hpos : 0 < val.toNat := by
      rw [Nat.pos_iff_ne_zero]
      exact fun h => hzero (BitVec.eq_of_toNat_eq (h.trans BitVec.toNat_zero.symm))
    rw [digitLoop_eq hpos, Option.map_some, List.nil_append, List.reverse_reverse]

theorem secondsToStr_eq (secs : UInt64) : secondsToStr secs = some (decimal secs.toNat) := by
  rw [decimal_eq]
  exact numeral_eq (k := 56) secs.toBitVec

theorem u8ToStr_eq (val : UInt8) : u8ToStr val = some (decimal val.toNat) := by
  rw [decimal_eq]
  exact numeral_eq (k := 0) val.toBitVec

/-- Digits without a leading zero that read as `n`. -/
structure IsNumeral (s : Str) (n : Nat) : Prop where
  nonempty : s ≠ []
  digits : ∀ c ∈ s, c.isDigit
  leading : s.head? = some '0' → n = 0 ∧ s = ['0']
  value : Nat.ofDigitChars 10 s 0 = n

theorem head_toDigits {n : Nat} (h : 0 < n) : (Nat.toDigits 10 n).head? ≠ some '0' := by
  induction n using Nat.strong_induction_on with
  | _ n ih =>
    by_cases hlt : n < 10
    · have hall : ∀ d < 10, 0 < d → d.digitChar ≠ '0' := by decide
      rw [Nat.toDigits_of_lt_base hlt]
      simpa using hall n hlt h
    · have hle : 10 ≤ n := Nat.le_of_not_lt hlt
      have hpos : 0 < n / 10 := Nat.div_pos hle (by decide)
      rw [Nat.toDigits_of_base_le (by decide) hle,
        List.head?_append_of_ne_nil _ Nat.toDigits_ne_nil]
      exact ih (n / 10) (Nat.div_lt_self h (by decide)) hpos

theorem isNumeral_toDigits (n : Nat) : IsNumeral (Nat.toDigits 10 n) n where
  nonempty := Nat.toDigits_ne_nil
  digits _ h := Nat.isDigit_of_mem_toDigits (by decide) (by decide) h
  leading h := by
    rcases Nat.eq_zero_or_pos n with rfl | hpos
    · exact ⟨rfl, Nat.toDigits_zero 10⟩
    · exact absurd h (head_toDigits hpos)
  value := Nat.ofDigitChars_ten_toDigits

theorem digitChar_of_isDigit {c : Char} (h : c.isDigit) :
    c.toNat - '0'.toNat < 10 ∧ (c.toNat - '0'.toNat).digitChar = c := by
  have hrange : 48 ≤ c.toNat ∧ c.toNat ≤ 57 := by
    simpa [Char.isDigit, UInt32.le_iff_toNat_le] using h
  have hall : ∀ d < 10, d.digitChar = Char.ofNat (48 + d) := by decide
  have hlt : c.toNat - 48 < 10 := by omega
  have hsum : 48 + (c.toNat - 48) = c.toNat := by omega
  refine ⟨hlt, ?_⟩
  change (c.toNat - 48).digitChar = c
  rw [hall _ hlt, hsum, Char.ofNat_toNat]

theorem IsNumeral.eq {s : Str} {n : Nat} (h : IsNumeral s n) : s = Nat.toDigits 10 n := by
  induction s using List.reverseRecOn generalizing n with
  | nil => exact absurd rfl h.nonempty
  | append_singleton init c ih =>
    obtain ⟨hinit, hc⟩ := List.forall_mem_append.mp h.digits
    obtain ⟨hdigit, hchar⟩ := digitChar_of_isDigit (hc c (List.mem_singleton_self c))
    have hvalue : 10 * Nat.ofDigitChars 10 init 0 + (c.toNat - '0'.toNat) = n := by
      rw [← h.value, Nat.ofDigitChars_append, Nat.ofDigitChars_cons, Nat.ofDigitChars_nil]
    rcases eq_or_ne init [] with rfl | hne
    · rw [Nat.ofDigitChars_nil, Nat.mul_zero, Nat.zero_add] at hvalue
      rw [← hvalue, Nat.toDigits_of_lt_base hdigit, hchar]
      rfl
    · have hhead : init.head? ≠ some '0' := by
        intro hzero
        have hall := (h.leading (by rw [List.head?_append_of_ne_nil _ hne, hzero])).2
        have hlength := congrArg List.length hall
        rw [List.length_append, List.length_singleton, List.length_singleton] at hlength
        exact hne (List.eq_nil_of_length_eq_zero (Nat.succ.inj hlength))
      have hrest := ih ⟨hne, hinit, fun hzero => absurd hzero hhead, rfl⟩
      have hpos : 0 < Nat.ofDigitChars 10 init 0 := by
        rw [Nat.pos_iff_ne_zero]
        intro hzero
        rw [hzero, Nat.toDigits_zero] at hrest
        exact hhead (by rw [hrest]; rfl)
      have hle : 10 ≤ n := by omega
      have hdiv : n / 10 = Nat.ofDigitChars 10 init 0 := by omega
      have hmod : n % 10 = c.toNat - '0'.toNat := by omega
      rw [Nat.toDigits_of_base_le (by decide) hle, hdiv, hmod, hchar, ← hrest]

theorem isNumeral_iff {s : Str} {n : Nat} : IsNumeral s n ↔ s = Nat.toDigits 10 n :=
  ⟨IsNumeral.eq, fun h => h ▸ isNumeral_toDigits n⟩

/-- Both functions end without a panic, and write the one numeral of their number. -/
theorem secondsToStr_exact :
    (∀ n : UInt64, ∃ s, secondsToStr n = some s ∧ ∀ t, IsNumeral t n.toNat ↔ t = s) ∧
      ∀ n : UInt8, u8ToStr n = secondsToStr n.toUInt64 := by
  refine ⟨fun n => ⟨decimal n.toNat, secondsToStr_eq n, fun t => ?_⟩, fun n => ?_⟩
  · rw [decimal_eq]
    exact isNumeral_iff
  · rw [u8ToStr_eq, secondsToStr_eq, UInt8.toNat_toUInt64]

end AliluOS.Text
