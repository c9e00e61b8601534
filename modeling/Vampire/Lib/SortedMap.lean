/-
Maps as lists of entries: a later entry of a key overrides an earlier one, and
a sorted map holds each key once, with the value of its last entry.
-/
import Mathlib

namespace Vampire.Lib

/-! ## Entries -/

section
variable {κ β γ : Type} [DecidableEq κ]

/-- The value of a key in a list of entries: a later entry overrides an earlier one. -/
def lastWins : List (κ × β) → κ → Option β
  | [], _ => none
  | (key, value) :: entries, k => (lastWins entries k).or (if k = key then some value else none)

theorem lastWins_mem {entries : List (κ × β)} {k : κ} {v : β} (h : lastWins entries k = some v) : (k, v) ∈ entries := by
  induction entries with
  | nil => cases h
  | cons e entries ih =>
    obtain ⟨key, value⟩ := e
    rw [lastWins, Option.or_eq_some_iff] at h
    rcases h with h | ⟨-, h⟩
    · exact List.mem_cons_of_mem _ (ih h)
    · split at h
      · next hk =>
        cases h
        rw [hk]
        exact List.mem_cons_self
      · cases h

theorem lastWins_eq_none {entries : List (κ × β)} {k : κ} : lastWins entries k = none ↔ k ∉ entries.map (·.1) := by
  induction entries with
  | nil => simp [lastWins]
  | cons e entries ih =>
    obtain ⟨key, value⟩ := e
    simp only [lastWins, Option.or_eq_none_iff, ih, List.map_cons, List.mem_cons, not_or]
    constructor
    · rintro ⟨hrest, hk⟩
      refine ⟨fun he => ?_, hrest⟩
      rw [if_pos he] at hk
      cases hk
    · exact fun h => ⟨h.2, if_neg h.1⟩

/-- Without repeated keys every entry counts. -/
theorem lastWins_of_mem {entries : List (κ × β)} {k : κ} {v : β} (hd : (entries.map (·.1)).Nodup)
    (h : (k, v) ∈ entries) : lastWins entries k = some v := by
  induction entries with
  | nil => cases h
  | cons e entries ih =>
    obtain ⟨key, value⟩ := e
    rw [List.map_cons, List.nodup_cons] at hd
    rw [lastWins]
    rcases List.mem_cons.1 h with he | h
    · cases he
      rw [lastWins_eq_none.2 hd.1, if_pos rfl]
      rfl
    · rw [ih hd.2 h]
      rfl

theorem lastWins_map (f : κ → β → γ) (entries : List (κ × β)) (k : κ) :
    lastWins (entries.map fun e => (e.1, f e.1 e.2)) k = (lastWins entries k).map (f k) := by
  induction entries with
  | nil => rfl
  | cons e entries ih =>
    obtain ⟨key, value⟩ := e
    simp only [List.map_cons, lastWins, ih, Option.map_or]
    congr 1
    split
    · next hk => rw [hk]; rfl
    · rfl

theorem lastWins_map_key {κ' : Type} [DecidableEq κ'] {g : κ → κ'} (hg : Function.Injective g) (entries : List (κ × β))
    (k : κ) : lastWins (entries.map fun e => (g e.1, e.2)) (g k) = lastWins entries k := by
  induction entries with
  | nil => rfl
  | cons e entries ih => simp only [List.map_cons, lastWins, ih, hg.eq_iff]

/-- Of unlike keys one at most is a given one. -/
theorem sum_ite_le {entries : List (κ × β)} (h : (entries.map (·.1)).Nodup) (key : κ) (n : Nat) :
    (entries.map fun e => if e.1 = key then n else 0).sum ≤ n := by
  induction entries with
  | nil => exact Nat.zero_le _
  | cons e entries ih =>
    rw [List.map_cons, List.nodup_cons] at h
    rw [List.map_cons, List.sum_cons]
    split
    · next he =>
      have hzero : (entries.map fun e => if e.1 = key then n else 0).sum = 0 := by
        rw [List.sum_eq_zero_iff_forall_eq_nat]
        intro x hx
        obtain ⟨e', he', rfl⟩ := List.mem_map.1 hx
        exact if_neg fun heq => h.1 (List.mem_map.2 ⟨e', he', heq.trans he.symm⟩)
      omega
    · have := ih h.2
      omega

end

/-! ## Sorted maps -/

section
variable {κ β : Type} [LinearOrder κ]

/-- A key's value is put in its place, or replaced there. -/
def insertSorted (key : κ) (value : β) : List (κ × β) → List (κ × β)
  | [] => [(key, value)]
  | e :: entries =>
    if key = e.1 then (key, value) :: entries
    else if key < e.1 then (key, value) :: e :: entries
    else e :: insertSorted key value entries

/-- Entries put into an empty map one after the other. -/
def sortedMap (entries : List (κ × β)) : List (κ × β) :=
  entries.foldl (fun map e => insertSorted e.1 e.2 map) []

def Sorted (entries : List (κ × β)) : Prop := entries.Pairwise fun a b => a.1 < b.1

theorem Sorted.nodup {entries : List (κ × β)} (h : Sorted entries) : (entries.map (·.1)).Nodup := by
  rw [List.Nodup, List.pairwise_map]
  exact h.imp fun hlt => ne_of_lt hlt

theorem mem_insertSorted {key : κ} {value : β} {entries : List (κ × β)} {e : κ × β}
    (h : e ∈ insertSorted key value entries) : e = (key, value) ∨ e ∈ entries := by
  induction entries with
  | nil => simpa [insertSorted] using h
  | cons e' entries ih =>
    rw [insertSorted] at h
    split at h
    · exact (List.mem_cons.1 h).imp_right (List.mem_cons_of_mem _)
    · split at h
      · exact List.mem_cons.1 h
      · rcases List.mem_cons.1 h with rfl | h
        · exact .inr List.mem_cons_self
        · exact (ih h).imp_right (List.mem_cons_of_mem _)

theorem Sorted.insert {key : κ} {value : β} {entries : List (κ × β)} (h : Sorted entries) :
    Sorted (insertSorted key value entries) := by
  induction entries with
  | nil => exact List.pairwise_singleton _ _
  | cons e entries ih =>
    obtain ⟨hhead, htail⟩ := List.pairwise_cons.1 h
    rw [insertSorted]
    split
    · next hk => exact List.pairwise_cons.2 ⟨fun e' he => hk ▸ hhead e' he, htail⟩
    · split
      · next hlt =>
        refine List.pairwise_cons.2 ⟨fun e' he => ?_, h⟩
        rcases List.mem_cons.1 he with rfl | he
        · exact hlt
        · exact lt_trans hlt (hhead e' he)
      · next hne hnlt =>
        refine List.pairwise_cons.2 ⟨fun e' he => ?_, ih htail⟩
        rcases mem_insertSorted he with rfl | he
        · exact lt_of_le_of_ne (not_lt.1 hnlt) (Ne.symm hne)
        · exact hhead e' he

/-- What the entries weigh does not grow. -/
theorem insertSorted_sum (w : κ × β → Nat) (key : κ) (value : β) (entries : List (κ × β)) :
    ((insertSorted key value entries).map w).sum ≤ w (key, value) + (entries.map w).sum := by
  induction entries with
  | nil => simp [insertSorted]
  | cons e entries ih =>
    rw [insertSorted]
    split
    · simp only [List.map_cons, List.sum_cons]
      omega
    · split
      · exact Nat.le_refl _
      · simp only [List.map_cons, List.sum_cons]
        omega

theorem sortedMap_sum (w : κ × β → Nat) (entries : List (κ × β)) :
    ((sortedMap entries).map w).sum ≤ (entries.map w).sum := by
  have hfold : ∀ map : List (κ × β), ((entries.foldl (fun map e => insertSorted e.1 e.2 map) map).map w).sum ≤
      (map.map w).sum + (entries.map w).sum := by
    induction entries with
    | nil => exact fun map => Nat.le_refl _
    | cons e entries ih =>
      intro map
      have := ih (insertSorted e.1 e.2 map)
      have : ((insertSorted e.1 e.2 map).map w).sum ≤ w e + (map.map w).sum := insertSorted_sum w e.1 e.2 map
      simp only [List.foldl_cons, List.map_cons, List.sum_cons]
      omega
  have := hfold []
  rwa [List.map_nil, List.sum_nil, Nat.zero_add] at this

variable [DecidableEq κ]

theorem lastWins_insertSorted {key k : κ} {value : β} {entries : List (κ × β)} (h : Sorted entries) :
    lastWins (insertSorted key value entries) k = if k = key then some value else lastWins entries k := by
  induction entries with
  | nil => simp [insertSorted, lastWins]
  | cons e entries ih =>
    obtain ⟨hhead, htail⟩ := List.pairwise_cons.1 h
    obtain ⟨key', value'⟩ := e
    have habsent : ∀ k' : κ, k' ≤ key' → lastWins entries k' = none := by
      intro k' hle
      rw [lastWins_eq_none]
      intro hm
      obtain ⟨e', he, rfl⟩ := List.mem_map.1 hm
      exact absurd (hhead e' he) (not_lt.2 hle)
    rw [insertSorted]
    split
    · next hk =>
      simp only at hk
      subst hk
      rw [lastWins, lastWins]
      by_cases hkk : k = key
      · rw [if_pos hkk, if_pos hkk, habsent k (le_of_eq hkk)]
        rfl
      · rw [if_neg hkk, if_neg hkk, if_neg hkk]
    · next hne =>
      split
      · next hlt =>
        rw [lastWins]
        by_cases hkk : k = key
        · subst hkk
          rw [if_pos rfl, if_pos rfl, lastWins, habsent _ (le_of_lt hlt), if_neg hne]
          rfl
        · rw [if_neg hkk, if_neg hkk, Option.or_none]
      · rw [lastWins, lastWins, ih htail]
        by_cases hkk : k = key
        · rw [if_pos hkk, if_pos hkk]
          rfl
        · rw [if_neg hkk, if_neg hkk]

theorem foldl_insertSorted {m : List (κ × β)} (h : Sorted m) (entries : List (κ × β)) :
    Sorted (entries.foldl (fun map e => insertSorted e.1 e.2 map) m) ∧
      ∀ k, lastWins (entries.foldl (fun map e => insertSorted e.1 e.2 map) m) k =
        (lastWins entries k).or (lastWins m k) := by
  induction entries generalizing m with
  | nil => exact ⟨h, fun _ => rfl⟩
  | cons e entries ih =>
    obtain ⟨key, value⟩ := e
    have hsorted : Sorted (insertSorted key value m) := h.insert
    obtain ⟨hs, hl⟩ := ih hsorted
    refine ⟨hs, fun k => ?_⟩
    rw [List.foldl_cons, hl, lastWins_insertSorted h, lastWins, Option.or_assoc]
    congr 1
    split <;> rfl

/-- A sorted map holds every key once, with the value of its last entry. -/
theorem sortedMap_spec (entries : List (κ × β)) :
    Sorted (sortedMap entries) ∧ ∀ k, lastWins (sortedMap entries) k = lastWins entries k := by
  obtain ⟨hs, hl⟩ := foldl_insertSorted (m := []) List.Pairwise.nil entries
  exact ⟨hs, fun k => by rw [sortedMap, hl k, lastWins, Option.or_none]⟩

end

end Vampire.Lib
