/-
Taking a text apart at its end: `strip_suffix` and `rsplit_once` on lists.
-/
import Mathlib

namespace Vampire.Lib

variable {α : Type} [DecidableEq α]

/-- The text before the suffix, when it has that suffix. -/
def stripSuffix (text suffix : List α) : Option (List α) :=
  if suffix <:+ text then some (text.take (text.length - suffix.length)) else none

/-- The text before and after the last occurrence of a pattern. -/
def rsplitOnce (pattern : List α) : List α → Option (List α × List α)
  | [] => if pattern = [] then some ([], []) else none
  | c :: rest =>
    match rsplitOnce pattern rest with
    | some (before, after) => some (c :: before, after)
    | none => if pattern <+: c :: rest then some ([], (c :: rest).drop pattern.length) else none

theorem stripSuffix_eq_some {text suffix front : List α} :
    stripSuffix text suffix = some front ↔ text = front ++ suffix := by
  simp only [stripSuffix, Option.ite_none_right_eq_some, Option.some.injEq]
  constructor
  · rintro ⟨⟨front', rfl⟩, rfl⟩
    simp
  · rintro rfl
    exact ⟨List.suffix_append .., by simp⟩

/-- Two suffixes of one length are not both there. -/
theorem stripSuffix_none {front suffix suffix' : List α} (hl : suffix.length = suffix'.length)
    (hne : suffix ≠ suffix') : stripSuffix (front ++ suffix) suffix' = none := by
  rw [Option.eq_none_iff_forall_ne_some]
  intro front' h
  exact hne (List.append_inj' (stripSuffix_eq_some.1 h) hl).2

theorem rsplitOnce_some {pattern : List α} : ∀ {text before after : List α},
    rsplitOnce pattern text = some (before, after) → text = before ++ pattern ++ after := by
  intro text
  induction text with
  | nil =>
    intro before after h
    simp only [rsplitOnce, Option.ite_none_right_eq_some, Option.some.injEq, Prod.mk.injEq] at h
    obtain ⟨rfl, rfl, rfl⟩ := h
    rfl
  | cons c rest ih =>
    intro before after h
    simp only [rsplitOnce] at h
    split at h
    · next hrest =>
      cases h
      rw [ih hrest]
      simp
    · simp only [Option.ite_none_right_eq_some, Option.some.injEq, Prod.mk.injEq] at h
      obtain ⟨⟨tail, htail⟩, rfl, rfl⟩ := h
      simp [← htail]

/-- The last occurrence stays the last one behind any text. -/
theorem rsplitOnce_append {pattern text before after : List α} (h : rsplitOnce pattern text = some (before, after)) :
    ∀ front, rsplitOnce pattern (front ++ text) = some (front ++ before, after) := by
  intro front
  induction front with
  | nil => exact h
  | cons c front ih => simp only [List.cons_append, rsplitOnce, ih]

theorem rsplitOnce_none {pattern text : List α} (h : ∀ front tail, text ≠ front ++ pattern ++ tail) :
    rsplitOnce pattern text = none := by
  rw [Option.eq_none_iff_forall_ne_some]
  intro parts hparts
  exact h _ _ (rsplitOnce_some hparts)

/-- A pattern that does not come again after its first element. -/
theorem rsplitOnce_self {c : α} (pattern : List α) {after : List α}
    (h : ∀ front tail, pattern ++ after ≠ front ++ c :: pattern ++ tail) :
    rsplitOnce (c :: pattern) (c :: pattern ++ after) = some ([], after) := by
  have hnone : rsplitOnce (c :: pattern) (pattern ++ after) = none :=
    rsplitOnce_none fun front tail he => h front tail (by simpa using he)
  rw [List.cons_append, rsplitOnce, hnone]
  simp

end Vampire.Lib
