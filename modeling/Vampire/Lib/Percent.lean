/-
Percent-encoding over character lists: a `%` and two hexadecimal digits
stand for a byte. `percentDecode` reads every well-formed escape and leaves
the rest alone; `percentEncode` escapes the characters of a set.
-/
import Mathlib

namespace Vampire.Lib

/-! ## Hexadecimal digits -/

/-- The value of a hexadecimal digit of either case. -/
def hexValue (c : Char) : Option Nat :=
  if '0' ≤ c ∧ c ≤ '9' then some (c.toNat - '0'.toNat)
  else if 'a' ≤ c ∧ c ≤ 'f' then some (c.toNat - 'a'.toNat + 10)
  else if 'A' ≤ c ∧ c ≤ 'F' then some (c.toNat - 'A'.toNat + 10)
  else none

/-- The upper-case digit of a value below sixteen. -/
def hexDigit (n : Nat) : Char := if n < 10 then Char.ofNat (48 + n) else Char.ofNat (55 + n)

theorem hexValue_range {c : Char} {n : Nat} (h : hexValue c = some n) :
    (48 ≤ c.toNat ∧ c.toNat ≤ 57 ∧ n = c.toNat - 48) ∨ (97 ≤ c.toNat ∧ c.toNat ≤ 102 ∧ n = c.toNat - 87) ∨
      (65 ≤ c.toNat ∧ c.toNat ≤ 70 ∧ n = c.toNat - 55) := by
  simp only [hexValue, Char.le_def, UInt32.le_iff_toNat_le] at h
  change (if 48 ≤ c.toNat ∧ c.toNat ≤ 57 then some (c.toNat - 48) else
    if 97 ≤ c.toNat ∧ c.toNat ≤ 102 then some (c.toNat - 97 + 10) else
    if 65 ≤ c.toNat ∧ c.toNat ≤ 70 then some (c.toNat - 65 + 10) else none) = some n at h
  split at h
  · simp only [Option.some.injEq] at h
    omega
  · split at h
    · simp only [Option.some.injEq] at h
      omega
    · split at h
      · simp only [Option.some.injEq] at h
        omega
      · cases h

theorem hexValue_lt {c : Char} {n : Nat} (h : hexValue c = some n) : n < 16 := by
  have := hexValue_range h
  omega

theorem hexValue_hexDigit {n : Nat} (h : n < 16) : hexValue (hexDigit n) = some n := by
  have hall : ∀ n : Fin 16, hexValue (hexDigit n) = some n.val := by decide
  exact hall ⟨n, h⟩

/-! ## Decoding -/

/-- The bytes a text stands for: escapes read, everything else in UTF-8. -/
def percentDecode : List Char → List UInt8
  | [] => []
  | '%' :: hi :: lo :: rest =>
    match hexValue hi, hexValue lo with
    | some h, some l => UInt8.ofNat (h * 16 + l) :: percentDecode rest
    | _, _ => String.utf8EncodeChar '%' ++ percentDecode (hi :: lo :: rest)
  | c :: rest => String.utf8EncodeChar c ++ percentDecode rest

theorem percentDecode_cons {c : Char} (hc : c ≠ '%') (rest : List Char) :
    percentDecode (c :: rest) = String.utf8EncodeChar c ++ percentDecode rest := by
  rw [percentDecode]
  intro hi lo rest' h
  cases h
  exact absurd rfl hc

theorem percentDecode_escape {hi lo : Char} {h l : Nat} (hh : hexValue hi = some h) (hl : hexValue lo = some l)
    (rest : List Char) :
    percentDecode ('%' :: hi :: lo :: rest) = UInt8.ofNat (h * 16 + l) :: percentDecode rest := by
  rw [percentDecode, hh, hl]

/-! ## Encoding -/

/-- `%` and the two upper-case digits of a byte. -/
def escapeByte (b : UInt8) : List Char := ['%', hexDigit (b.toNat / 16), hexDigit (b.toNat % 16)]

/-- The text with the characters of a set escaped. -/
def percentEncode (set : Char → Bool) (p : List Char) : List Char :=
  p.flatMap fun c => if set c then (String.utf8EncodeChar c).flatMap escapeByte else [c]

theorem toNat_ofNat_byte {n : Nat} (h : n < 256) : (Char.ofNat n).toNat = n := by
  rw [Char.ofNat, dif_pos (.inl (by omega))]
  rfl

theorem utf8EncodeChar_ascii {c : Char} (h : c.toNat < 128) : String.utf8EncodeChar c = [UInt8.ofNat c.toNat] := by
  have hv : c.val.toNat ≤ 127 := by
    change c.toNat ≤ 127
    omega
  unfold String.utf8EncodeChar
  exact if_pos hv

/-- Every byte of a character beyond ASCII is beyond ASCII. -/
theorem utf8EncodeChar_beyond {c : Char} (h : 128 ≤ c.toNat) : ∀ b ∈ String.utf8EncodeChar c, 128 ≤ b.toNat := by
  have hv : ¬c.val.toNat ≤ 127 := by
    change ¬c.toNat ≤ 127
    omega
  intro b hb
  unfold String.utf8EncodeChar at hb
  rw [if_neg hv] at hb
  split at hb
  · simp only [List.mem_cons, List.not_mem_nil, or_false] at hb
    rcases hb with rfl | rfl <;> simp only [UInt8.toNat_ofNat'] <;> omega
  · split at hb
    · simp only [List.mem_cons, List.not_mem_nil, or_false] at hb
      rcases hb with rfl | rfl | rfl <;> simp only [UInt8.toNat_ofNat'] <;> omega
    · simp only [List.mem_cons, List.not_mem_nil, or_false] at hb
      rcases hb with rfl | rfl | rfl | rfl <;> simp only [UInt8.toNat_ofNat'] <;> omega

theorem utf8EncodeChar_length_pos (c : Char) : 0 < (String.utf8EncodeChar c).length := by
  rw [String.length_utf8EncodeChar]
  exact Char.utf8Size_pos c

theorem flatMap_escapeByte_length (bs : List UInt8) : (bs.flatMap escapeByte).length = 3 * bs.length := by
  induction bs with
  | nil => rfl
  | cons b bs ih =>
    simp only [List.flatMap_cons, List.length_append, ih, List.length_cons, escapeByte, List.length_nil]
    omega

theorem percentEncode_length_le (set : Char → Bool) (p : List Char) : p.length ≤ (percentEncode set p).length := by
  induction p with
  | nil => exact Nat.le_refl _
  | cons c p ih =>
    simp only [percentEncode, List.flatMap_cons, List.length_append, List.length_cons] at ih ⊢
    split
    · have := utf8EncodeChar_length_pos c
      rw [flatMap_escapeByte_length]
      omega
    · simp only [List.length_cons, List.length_nil]
      omega

/-- An ASCII character becomes one escape at most. -/
theorem percentEncode_length_ascii (set : Char → Bool) {p : List Char} (h : ∀ c ∈ p, c.toNat < 128) :
    (percentEncode set p).length ≤ 3 * p.length := by
  induction p with
  | nil => exact Nat.zero_le _
  | cons c p ih =>
    have ih := ih fun d hd => h d (List.mem_cons_of_mem _ hd)
    simp only [percentEncode, List.flatMap_cons, List.length_append, List.length_cons] at ih ⊢
    split
    · rw [flatMap_escapeByte_length, utf8EncodeChar_ascii (h c List.mem_cons_self), List.length_singleton]
      omega
    · rw [List.length_singleton]
      omega

/-- A text is its own encoding exactly when it has no character of the set. -/
theorem percentEncode_eq_self {set : Char → Bool} {p : List Char} :
    percentEncode set p = p ↔ ∀ c ∈ p, set c = false := by
  induction p with
  | nil => simp [percentEncode]
  | cons c p ih =>
    have hcons : percentEncode set (c :: p) =
        (if set c then (String.utf8EncodeChar c).flatMap escapeByte else [c]) ++ percentEncode set p := by
      simp [percentEncode]
    rw [hcons]
    by_cases hc : set c = true
    · -- The escape alone makes the text longer.
      refine ⟨fun h => ?_, fun h => ?_⟩
      · have hlen := congrArg List.length h
        have h1 := percentEncode_length_le set p
        have h2 := utf8EncodeChar_length_pos c
        rw [if_pos hc, List.length_append, flatMap_escapeByte_length, List.length_cons] at hlen
        omega
      · have := h c (by simp)
        simp [hc] at this
    · rw [if_neg hc]
      simp only [List.singleton_append, List.cons.injEq, true_and, ih, List.mem_cons, forall_eq_or_imp]
      simp [hc]

theorem mem_percentEncode {set : Char → Bool} {p : List Char} {c : Char} (h : c ∈ percentEncode set p) :
    (c ∈ p ∧ set c = false) ∨ c = '%' ∨ ∃ n < 16, c = hexDigit n := by
  simp only [percentEncode, List.mem_flatMap] at h
  obtain ⟨d, hd, h⟩ := h
  split at h
  · simp only [List.mem_flatMap, escapeByte, List.mem_cons, List.not_mem_nil, or_false] at h
    obtain ⟨b, -, rfl | rfl | rfl⟩ := h
    · exact .inr (.inl rfl)
    · have := b.toNat_lt
      exact .inr (.inr ⟨_, by omega, rfl⟩)
    · exact .inr (.inr ⟨_, Nat.mod_lt _ (by decide), rfl⟩)
  · next hn =>
    simp only [List.mem_singleton] at h
    subst h
    exact .inl ⟨hd, by simpa using hn⟩

end Vampire.Lib
