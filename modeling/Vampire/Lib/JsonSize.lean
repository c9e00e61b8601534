/-
How long JSON texts are in UTF-8: a string printed again is no longer than it
was, and neither is an object whose values are no longer.
-/
import Vampire.Lib.Json

namespace Vampire.Lib

/-- The length of a text in UTF-8. -/
def byteLength (s : List Char) : Nat := (s.map Char.utf8Size).sum

@[simp] theorem byteLength_nil : byteLength [] = 0 := rfl

@[simp] theorem byteLength_cons (c : Char) (s : List Char) : byteLength (c :: s) = c.utf8Size + byteLength s := by
  simp [byteLength]

@[simp] theorem byteLength_append (s t : List Char) : byteLength (s ++ t) = byteLength s + byteLength t := by
  simp [byteLength]

theorem length_le_byteLength (s : List Char) : s.length ≤ byteLength s := by
  induction s with
  | nil => exact Nat.le_refl _
  | cons c s ih =>
    have := c.utf8Size_pos
    simp only [List.length_cons, byteLength_cons]
    omega

theorem byteLength_ascii {s : List Char} (h : ∀ c ∈ s, c.toNat < 128) : byteLength s = s.length := by
  induction s with
  | nil => rfl
  | cons c s ih =>
    have hc : c.utf8Size = 1 := Char.utf8Size_eq_one_iff.2 (by
      have := h c List.mem_cons_self
      rw [UInt32.le_iff_toNat_le]
      change c.toNat ≤ 127
      omega)
    rw [byteLength_cons, hc, ih fun d hd => h d (List.mem_cons_of_mem _ hd), List.length_cons, Nat.add_comm]

theorem byteLength_sublist {s t : List Char} (h : s.Sublist t) : byteLength s ≤ byteLength t :=
  (h.map _).sum_le_sum fun _ _ => Nat.zero_le _

namespace Json

/-! ## Strings -/

/-- The bytes a code point is printed in; three for half of a surrogate pair. -/
def cost (n : Nat) : Nat := if n.isValidChar then byteLength (escape (Char.ofNat n)) else 3

theorem cost_toNat (c : Char) : cost c.toNat = byteLength (escape c) := by
  rw [cost, if_pos (isValidChar_toNat c), Char.ofNat_toNat]

theorem byteLength_controlEscape (c : Char) (h : c < ' ') : byteLength (controlEscape c) ≤ 6 := by
  have hlt : c.toNat < 32 := by
    rw [Char.lt_def, UInt32.lt_iff_toNat_lt] at h
    exact h
  have hall : ∀ n : Fin 32, byteLength (controlEscape (Char.ofNat n)) ≤ 6 := by decide +kernel
  simpa using hall ⟨c.toNat, hlt⟩

theorem cost_le (n : Nat) : cost n ≤ 6 := by
  unfold cost
  split
  · unfold escape
    split
    · decide
    split
    · decide
    split
    · next hc => exact byteLength_controlEscape _ hc
    · have := (Char.ofNat n).utf8Size_le_four
      simp only [byteLength_cons, byteLength_nil]
      omega
  · omega

theorem cost_short {e c : Char} (h : unescape e = some c) : cost c.toNat ≤ 2 := by
  rw [cost_toNat]
  unfold unescape at h
  repeat' split at h
  all_goals cases h
  all_goals decide

/-- What is read of a string is printed in no more bytes. -/
theorem stringBody_cost {s rest : List Char} {t : List Nat} (h : stringBody s = some (t, rest)) :
    (t.map cost).sum + 1 + byteLength rest ≤ byteLength s := by
  fun_induction stringBody s generalizing t with
  | case1 => cases h
  | case2 =>
    cases h
    have hquote : Char.utf8Size '"' = 1 := by decide
    simp [hquote]
  | case3 a b c d s unit hunit ih =>
    obtain ⟨⟨t', rest'⟩, ht, heq⟩ := Option.map_eq_some_iff.1 h
    cases heq
    have := ih ht
    have := cost_le unit
    have := a.utf8Size_pos
    have := b.utf8Size_pos
    have := c.utf8Size_pos
    have := d.utf8Size_pos
    have hback : Char.utf8Size '\\' = 1 := by decide
    have hu : Char.utf8Size 'u' = 1 := by decide
    simp only [List.map_cons, List.sum_cons, byteLength_cons]
    omega
  | case4 => cases h
  | case5 e s _ c hc ih =>
    obtain ⟨⟨t', rest'⟩, ht, heq⟩ := Option.map_eq_some_iff.1 h
    cases heq
    have := ih ht
    have := cost_short hc
    have := e.utf8Size_pos
    have hback : Char.utf8Size '\\' = 1 := by decide
    simp only [List.map_cons, List.sum_cons, byteLength_cons]
    omega
  | case6 => cases h
  | case7 => cases h
  | case8 c s hq _ hb hc ih =>
    obtain ⟨⟨t', rest'⟩, ht, heq⟩ := Option.map_eq_some_iff.1 h
    cases heq
    have := ih ht
    have hback : c ≠ '\\' := by
      rintro rfl
      cases s with
      | nil => cases ht
      | cons e s => exact hb e s rfl rfl
    have hcost : cost c.toNat = c.utf8Size := by
      rw [cost_toNat, escape, if_neg hq, if_neg hback, if_neg hc]
      simp
    simp only [List.map_cons, List.sum_cons, byteLength_cons, hcost]
    omega

theorem joinSurrogates_cost (t : List Nat) : ((joinSurrogates t).map cost).sum ≤ (t.map cost).sum := by
  fun_induction joinSurrogates t with
  | case1 h l rest hpair ih =>
    simp only [high, low, Bool.and_eq_true, decide_eq_true_eq] at hpair
    have hh : cost h = 3 := if_neg (by simp only [Nat.isValidChar]; omega)
    have hl : cost l = 3 := if_neg (by simp only [Nat.isValidChar]; omega)
    have hjoined := cost_le (0x10000 + (h - 0xd800) * 1024 + (l - 0xdc00))
    simp only [List.map_cons, List.sum_cons, hh, hl]
    omega
  | case2 h l rest _ ih =>
    simp only [List.map_cons, List.sum_cons] at ih ⊢
    omega
  | case3 => exact Nat.le_refl _

theorem chars_cost {t : List Nat} {s : List Char} (h : chars t = some s) : (t.map cost).sum = byteLength (s.flatMap escape) := by
  rw [chars_eq_some.1 h]
  clear h
  induction s with
  | nil => rfl
  | cons c s ih => simp only [List.map_cons, List.sum_cons, cost_toNat, List.flatMap_cons, byteLength_append, ih]

theorem byteLength_printString (s : List Char) : byteLength (printString s) = byteLength (s.flatMap escape) + 2 := by
  have hquote : Char.utf8Size '"' = 1 := by decide
  simp only [printString, List.cons_append, byteLength_cons, byteLength_append, byteLength_nil, hquote]
  omega

theorem byteLength_escape (c : Char) : c.utf8Size ≤ byteLength (escape c) := by
  unfold escape
  split
  · next hc => rw [hc]; decide
  split
  · next hc => rw [hc]; decide
  split
  · next hc =>
    have hone : c.utf8Size = 1 := Char.utf8Size_eq_one_iff.2 (by
      rw [Char.lt_def, UInt32.lt_iff_toNat_lt] at hc
      rw [UInt32.le_iff_toNat_le]
      exact Nat.le_trans (Nat.le_of_lt hc) (by decide))
    rw [hone]
    exact Nat.le_trans (by
      unfold controlEscape
      repeat' split
      all_goals simp) (length_le_byteLength _)
  · simp

/-- A string printed is longer than its text by the quotes at least. -/
theorem byteLength_le_printString (s : List Char) : byteLength s + 2 ≤ byteLength (printString s) := by
  rw [byteLength_printString]
  refine Nat.add_le_add_right ?_ 2
  induction s with
  | nil => exact Nat.le_refl _
  | cons c s ih =>
    have := byteLength_escape c
    simp only [byteLength_cons, List.flatMap_cons, byteLength_append]
    omega

/-- Without control characters, printing doubles a text at most. -/
theorem byteLength_printString_le {s : List Char} (h : ∀ c ∈ s, ¬ c < ' ') : byteLength (printString s) ≤ 2 * byteLength s + 2 := by
  rw [byteLength_printString]
  refine Nat.add_le_add_right ?_ 2
  induction s with
  | nil => exact Nat.le_refl _
  | cons c s ih =>
    have hc : byteLength (escape c) ≤ 2 * c.utf8Size := by
      unfold escape
      split
      · next hc => rw [hc]; decide
      split
      · next hc => rw [hc]; decide
      · rw [if_neg (h c List.mem_cons_self)]
        simp only [byteLength_cons, byteLength_nil]
        omega
    have := ih fun d hd => h d (List.mem_cons_of_mem _ hd)
    simp only [byteLength_cons, List.flatMap_cons, byteLength_append]
    omega

/-- A key printed again is no longer than it stands in the text. -/
theorem Member.Ok.key_le {m : Member} (h : m.Ok) {key : List Char} (hk : chars m.key = some key) :
    byteLength (printString key) ≤ byteLength m.rawKey := by
  obtain ⟨body, t, hraw, hkey, hbody⟩ := h.key
  have hcost := stringBody_cost hbody
  have hjoin := joinSurrogates_cost t
  rw [← hkey, chars_cost hk] at hjoin
  have hquote : Char.utf8Size '"' = 1 := by decide
  rw [byteLength_printString, hraw, byteLength_cons, hquote]
  rw [byteLength_nil] at hcost
  omega

/-- So is a string. -/
theorem Reads.string_le {raw s : List Char} {t : List Nat} (h : Denotes raw (.str t)) (hs : chars t = some s) :
    byteLength (printString s) ≤ byteLength raw := by
  obtain ⟨body, rfl⟩ := h.opening rfl
  have hv := h.whole (Nat.le_refl _)
  rw [List.length_cons, Nat.mul_add, Json.value, if_pos rfl] at hv
  obtain ⟨⟨t', rest⟩, ht, heq⟩ := Option.map_eq_some_iff.1 hv
  cases heq
  have hcost := stringBody_cost ht
  have hjoin := joinSurrogates_cost t'
  rw [chars_cost hs] at hjoin
  have hquote : Char.utf8Size '"' = 1 := by decide
  rw [byteLength_printString, byteLength_cons, hquote]
  rw [byteLength_nil] at hcost
  omega

/-! ## Objects -/

/-- The bytes of a member in a compact text, with the comma or the brace behind it. -/
def Member.size (m : Member) : Nat := byteLength m.rawKey + byteLength m.raw + 2

theorem byteLength_compact (ms : List Member) : byteLength (compact ms) = max 1 (ms.map Member.size).sum := by
  have hmember : ∀ (m : Member) (c : Char) (tail : List Char), c.utf8Size = 1 →
      byteLength (m.rawKey ++ ':' :: m.raw ++ c :: tail) = m.size + byteLength tail := by
    intro m c tail hc
    have hcolon : Char.utf8Size ':' = 1 := by decide
    simp only [Member.size, byteLength_append, byteLength_cons, hc, hcolon]
    omega
  induction ms with
  | nil => rfl
  | cons m ms ih =>
    by_cases hms : ms = []
    · subst hms
      rw [compact, List.map_singleton, List.intercalate_singleton, hmember m _ _ (by decide)]
      simp only [Member.size, List.map_singleton, List.sum_singleton, byteLength_nil]
      omega
    · rw [compact_cons hms, hmember m _ _ (by decide), ih, List.map_cons, List.sum_cons]
      obtain ⟨m', ms', rfl⟩ := List.exists_cons_of_ne_nil hms
      simp only [Member.size, List.map_cons, List.sum_cons]
      omega

end Json

end Vampire.Lib
