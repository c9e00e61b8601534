/-
The total weight of a list of parts (threads, handles, reservations) one of
which is replaced at a time: what a step does to the total is what it does to
the part it replaces.
-/
import Mathlib

namespace Vampire.Lib

variable {α : Type}

/-- The sum of the parts' weights. -/
def tally (w : α → Nat) (parts : List α) : Nat := (parts.map w).sum

@[simp] theorem tally_nil (w : α → Nat) : tally w [] = 0 := rfl

@[simp] theorem tally_cons (w : α → Nat) (a : α) (parts : List α) : tally w (a :: parts) = w a + tally w parts := by
  simp [tally]

@[simp] theorem tally_append (w : α → Nat) (ps qs : List α) : tally w (ps ++ qs) = tally w ps + tally w qs := by
  simp [tally]

/-- One part, and the others. -/
theorem tally_eraseIdx {w : α → Nat} {parts : List α} {i : Nat} {a : α} (h : parts[i]? = some a) :
    tally w parts = tally w (parts.eraseIdx i) + w a := by
  obtain ⟨hi, rfl⟩ := List.getElem?_eq_some_iff.1 h
  have hperm := ((List.getElem_cons_eraseIdx_perm hi).map w).sum_eq
  simp only [List.map_cons, List.sum_cons] at hperm
  simp only [tally]
  omega

/-- One part is replaced, the others are left. -/
theorem tally_set {w : α → Nat} {parts : List α} {i : Nat} {a : α} (h : parts[i]? = some a) (b : α) :
    tally w (parts.set i b) + w a = tally w parts + w b := by
  induction parts generalizing i with
  | nil => cases h
  | cons c parts ih =>
    cases i with
    | zero =>
      cases h
      simp only [List.set_cons_zero, tally_cons]
      omega
    | succ i =>
      have := ih h
      simp only [List.set_cons_succ, tally_cons]
      omega

theorem tally_le {w v : α → Nat} (h : ∀ a, w a ≤ v a) (parts : List α) : tally w parts ≤ tally v parts := by
  induction parts with
  | nil => exact Nat.le_refl _
  | cons a parts ih =>
    have := h a
    simp only [tally_cons]
    omega

theorem tally_eq_zero {w : α → Nat} {parts : List α} (h : ∀ a ∈ parts, w a = 0) : tally w parts = 0 := by
  induction parts with
  | nil => rfl
  | cons a parts ih =>
    rw [tally_cons, h a (List.mem_cons_self ..), ih fun b hb => h b (List.mem_cons_of_mem _ hb)]

end Vampire.Lib
