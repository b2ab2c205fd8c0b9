import Mathlib.Data.List.Basic

/-! Decoding UTF-8 where the bytes need not be valid: each piece that is not, up to the
byte that shows it, becomes one replacement character. -/

namespace AliluOS.Lib.Utf8

def replacement : Char := Char.ofNat 0xFFFD

/-- Between two characters, or `need` bytes short of one: `code` is what has been read of
it, and the next byte has to be in `low..high`. -/
inductive State
  | idle
  | pending (need code low high : Nat)

def lead (b : Nat) : List Char × State :=
  if b < 0x80 then ([Char.ofNat b], .idle)
  else if 0xC2 ≤ b ∧ b < 0xE0 then ([], .pending 1 (b - 0xC0) 0x80 0xBF)
  else if 0xE0 ≤ b ∧ b < 0xF0 then
    ([], .pending 2 (b - 0xE0) (if b = 0xE0 then 0xA0 else 0x80) (if b = 0xED then 0x9F else 0xBF))
  else if 0xF0 ≤ b ∧ b < 0xF5 then
    ([], .pending 3 (b - 0xF0) (if b = 0xF0 then 0x90 else 0x80) (if b = 0xF4 then 0x8F else 0xBF))
  else ([replacement], .idle)

def step : State → Nat → List Char × State
  | .idle, b => lead b
  | .pending need code low high, b =>
    if low ≤ b ∧ b ≤ high then
      if need = 1 then ([Char.ofNat (code * 64 + (b - 0x80))], .idle)
      else ([], .pending (need - 1) (code * 64 + (b - 0x80)) 0x80 0xBF)
    else (replacement :: (lead b).1, (lead b).2)

def decodeFrom : State → List Nat → List Char
  | .idle, [] => []
  | .pending .., [] => [replacement]
  | s, b :: bs => (step s b).1 ++ decodeFrom (step s b).2 bs

def decode (bs : List Nat) : List Char := decodeFrom .idle bs

def encodeChar (c : Char) : List Nat := (String.utf8EncodeChar c).map UInt8.toNat

variable {b need code low high : Nat} {bs : List Nat}

theorem decode_cons (b : Nat) (bs : List Nat) :
    decode (b :: bs) = (lead b).1 ++ decodeFrom (lead b).2 bs := rfl

theorem decodeFrom_cons (s : State) (b : Nat) (bs : List Nat) :
    decodeFrom s (b :: bs) = (step s b).1 ++ decodeFrom (step s b).2 bs := by
  cases s <;> rfl

theorem decodeFrom_last (h : low ≤ b ∧ b ≤ high) (bs : List Nat) :
    decodeFrom (.pending 1 code low high) (b :: bs) =
      Char.ofNat (code * 64 + (b - 0x80)) :: decode bs := by
  rw [decodeFrom_cons, step, if_pos h, if_pos rfl]
  rfl

theorem decodeFrom_next (h : low ≤ b ∧ b ≤ high) (bs : List Nat) :
    decodeFrom (.pending (need + 2) code low high) (b :: bs) =
      decodeFrom (.pending (need + 1) (code * 64 + (b - 0x80)) 0x80 0xBF) bs := by
  rw [decodeFrom_cons, step, if_pos h, if_neg (by omega)]
  rfl

theorem decode_ascii (h : b < 0x80) (bs : List Nat) :
    decode (b :: bs) = Char.ofNat b :: decode bs := by
  rw [decode_cons, lead, if_pos h]
  rfl

theorem scalar (c : Char) :
    (c.toNat < 0xD800 ∨ 0xDFFF < c.toNat) ∧ c.toNat < 0x110000 := by
  have hvalid : c.toNat < 0xD800 ∨ 0xDFFF < c.toNat ∧ c.toNat < 0x110000 := c.valid
  omega

theorem encodeChar_eq (c : Char) : encodeChar c =
    if c.toNat ≤ 0x7F then [c.toNat]
    else if c.toNat ≤ 0x7FF then [0xC0 + c.toNat / 64, 0x80 + c.toNat % 64]
    else if c.toNat ≤ 0xFFFF then
      [0xE0 + c.toNat / 4096, 0x80 + c.toNat / 64 % 64, 0x80 + c.toNat % 64]
    else [0xF0 + c.toNat / 262144, 0x80 + c.toNat / 4096 % 64, 0x80 + c.toNat / 64 % 64,
      0x80 + c.toNat % 64] := by
  have hbound := (scalar c).2
  have hval : c.val.toNat = c.toNat := rfl
  unfold encodeChar String.utf8EncodeChar
  simp only [hval]
  split_ifs <;> simp <;> omega

theorem decode_encodeChar (c : Char) (bs : List Nat) :
    decode (encodeChar c ++ bs) = c :: decode bs := by
  obtain ⟨hsurrogate, hbound⟩ := scalar c
  rw [encodeChar_eq]
  split_ifs with h1 h2 h3
  · rw [List.singleton_append, decode_ascii (by omega), Char.ofNat_toNat]
  · have hlead : lead (0xC0 + c.toNat / 64) = ([], .pending 1 (c.toNat / 64) 0x80 0xBF) := by
      rw [lead, if_neg (by omega), if_pos (by omega), Nat.add_sub_cancel_left]
    have hcode : c.toNat / 64 * 64 + (0x80 + c.toNat % 64 - 0x80) = c.toNat := by omega
    rw [List.cons_append, decode_cons, hlead, List.nil_append, List.singleton_append,
      decodeFrom_last (by omega), hcode, Char.ofNat_toNat]
  · have hlead : lead (0xE0 + c.toNat / 4096) = ([], .pending 2 (c.toNat / 4096)
        (if 0xE0 + c.toNat / 4096 = 0xE0 then 0xA0 else 0x80)
        (if 0xE0 + c.toNat / 4096 = 0xED then 0x9F else 0xBF)) := by
      rw [lead, if_neg (by omega), if_neg (by omega), if_pos (by omega), Nat.add_sub_cancel_left]
    have hcode : (c.toNat / 4096 * 64 + (0x80 + c.toNat / 64 % 64 - 0x80)) * 64 +
        (0x80 + c.toNat % 64 - 0x80) = c.toNat := by omega
    rw [List.cons_append, decode_cons, hlead, List.nil_append, List.cons_append,
      List.singleton_append, decodeFrom_next (by split_ifs <;> omega),
      decodeFrom_last (by omega), hcode, Char.ofNat_toNat]
  · have hlead : lead (0xF0 + c.toNat / 262144) = ([], .pending 3 (c.toNat / 262144)
        (if 0xF0 + c.toNat / 262144 = 0xF0 then 0x90 else 0x80)
        (if 0xF0 + c.toNat / 262144 = 0xF4 then 0x8F else 0xBF)) := by
      rw [lead, if_neg (by omega), if_neg (by omega), if_neg (by omega), if_pos (by omega),
        Nat.add_sub_cancel_left]
    have hcode : ((c.toNat / 262144 * 64 + (0x80 + c.toNat / 4096 % 64 - 0x80)) * 64 +
        (0x80 + c.toNat / 64 % 64 - 0x80)) * 64 + (0x80 + c.toNat % 64 - 0x80) = c.toNat := by
      omega
    rw [List.cons_append, decode_cons, hlead, List.nil_append, List.cons_append,
      List.cons_append, List.singleton_append, decodeFrom_next (by split_ifs <;> omega),
      decodeFrom_next (by omega), decodeFrom_last (by omega), hcode, Char.ofNat_toNat]

theorem decode_tail (h : 0x80 ≤ b ∧ b ≤ 0xBF) (bs : List Nat) :
    decode (b :: bs) = replacement :: decode bs := by
  rw [decode_cons, lead, if_neg (by omega), if_neg (by omega), if_neg (by omega),
    if_neg (by omega)]
  rfl

def State.Sound : State → Prop
  | .idle => True
  | .pending _ _ low high => 0x80 ≤ low ∧ high ≤ 0xBF

theorem sound_lead (b : Nat) : (lead b).2.Sound := by
  unfold lead
  split_ifs <;> simp [State.Sound]

theorem length_lead (b : Nat) : (lead b).1.length ≤ 1 ∧ ((lead b).2 = .idle ∨ (lead b).1 = []) := by
  unfold lead
  split_ifs <;> simp

theorem length_decodeFrom_le {s : State} (hs : s.Sound) (bs : List Nat) :
    (decodeFrom s bs).length ≤ (decode bs).length + 1 := by
  induction bs generalizing s with
  | nil => cases s <;> simp [decodeFrom]
  | cons b bs ih =>
    cases s with
    | idle => exact Nat.le_succ _
    | pending need code low high =>
      obtain ⟨hlow, hhigh⟩ := hs
      rw [decodeFrom_cons, step]
      split_ifs with hnext hlast
      · rw [decode_tail (by omega)]
        simp [decode]
      · rw [decode_tail (by omega)]
        have hrest := ih (s := .pending (need - 1) (code * 64 + (b - 0x80)) 0x80 0xBF)
          ⟨Nat.le_refl _, Nat.le_refl _⟩
        simp only [List.nil_append, List.length_cons]
        omega
      · simp [decode_cons]

theorem length_decode_cons_le (b : Nat) (bs : List Nat) :
    (decode (b :: bs)).length ≤ (decode bs).length + 1 := by
  obtain ⟨hone, hidle | hnone⟩ := length_lead b <;> rw [decode_cons, List.length_append]
  · rw [hidle]
    change _ + (decode bs).length ≤ _
    omega
  · rw [hnone, List.length_nil, Nat.zero_add]
    exact length_decodeFrom_le (sound_lead b) bs

end AliluOS.Lib.Utf8
