/-
One eviction scan by itself (`evict_files_to_bound`): nothing else changes the
directory, the pins stay as they are, and each removal has an outcome of its
own.

The loop goes through the entries by their age and stops at the first total
that fits. It is followed by what it has attempted so far: which of that was
removed says what the running total is.
-/
import Vampire.Directory

namespace Vampire

/-- The outcome of `fs::remove_file`: `gone` for `NotFound`. -/
inductive Removal
  | done | gone | failed
  deriving DecidableEq

/-- The file is there no longer. -/
def Removal.removes : Removal → Bool
  | .done | .gone => true
  | .failed => false

/-- How far the loop has come; `attempts` in their order. -/
structure Eviction where
  tree : Tree
  total : Nat
  attempts : List CompletedEntry

section
variable (max : Nat) (pinned : Str → Bool) (remove : CompletedEntry → Removal)

/-- The body of the loop, for an entry met while the total exceeds the bound. -/
def evictEntry (s : Eviction) (e : CompletedEntry) : Eviction :=
  if pinned e.key then s
  else
    match remove e with
    | .done | .gone =>
      -- `saturating_sub`
      { tree := s.tree.erase e.body, total := s.total - e.size, attempts := s.attempts ++ [e] }
    | .failed => { s with attempts := s.attempts ++ [e] }

def evictLoop : Eviction → List CompletedEntry → Eviction
  | s, [] => s
  | s, e :: rest => if s.total ≤ max then s else evictLoop (evictEntry pinned remove s e) rest

/-- `entries.sort_by_key`, which is stable. -/
def byAge (entries : List CompletedEntry) : List CompletedEntry :=
  entries.insertionSort fun a b => a.modified ≤ b.modified

/-- `evict_files_to_bound`; the sum is one of `u64`s. -/
def evictFilesToBound (t : Tree) : Eviction :=
  let entries := completedEntriesAt t
  let total := (entries.map (·.size)).sum % 2 ^ 64
  if total ≤ max then ⟨t, total, []⟩ else evictLoop max pinned remove ⟨t, total, []⟩ (byAge entries)

end

/-- What a scan has removed. -/
def Eviction.removed (remove : CompletedEntry → Removal) (s : Eviction) : List CompletedEntry :=
  s.attempts.filter fun e => (remove e).removes

def sizes (entries : List CompletedEntry) : Nat := (entries.map (·.size)).sum

/-! ## What is asked of a scan -/

/-- The sizes of the entries not removed before the loop came to the one after `before`. -/
def sizeLeft (entries before removed : List CompletedEntry) : Nat :=
  sizes (entries.filter fun e => ¬ (e ∈ before ∧ e ∈ removed))

/-- The loop's state once it has gone through `before`. -/
def runTo (max : Nat) (pinned : Str → Bool) (remove : CompletedEntry → Removal) (t : Tree)
    (before : List CompletedEntry) : Eviction :=
  evictLoop max pinned remove ⟨t, sizes (completedEntriesAt t), []⟩ before

/-- `s` is what a scan of the tree `t` comes to. -/
structure Evicts (max : Nat) (pinned : Str → Bool) (remove : CompletedEntry → Removal) (t : Tree) (s : Eviction) :
    Prop where
  /-- The attempts are exactly the unpinned entries met while the total exceeds the bound. -/
  attempted : ∀ before e after, byAge (completedEntriesAt t) = before ++ e :: after →
    (e ∈ s.attempts ↔ pinned e.key = false ∧ max < sizeLeft (completedEntriesAt t) before (s.removed remove))
  /-- They are made in ascending order of age. -/
  sequence : s.attempts.Sublist (byAge (completedEntriesAt t))
  ascending : s.attempts.Pairwise (·.modified ≤ ·.modified)
  /-- Exactly what was removed is listed no longer. -/
  remaining : (completedEntriesAt s.tree).Perm ((completedEntriesAt t).filter (· ∉ s.removed remove))
  /-- Every other path is as it was. -/
  frame : ∀ path, (∀ e ∈ s.removed remove, path ≠ e.body) → s.tree.lookup path = t.lookup path
  unpinned : ∀ e ∈ s.removed remove, pinned e.key = false
  bounded : sizes (completedEntriesAt s.tree) ≤ max ∨
    ∀ e ∈ completedEntriesAt s.tree, pinned e.key = true ∨ e ∈ s.attempts ∧ remove e = .failed
  fits : sizes (completedEntriesAt t) ≤ max → s.tree = t ∧ s.attempts = []
  /-- Before the last removal the total exceeded the bound. -/
  needed : ∀ first last, s.removed remove = first ++ [last] → max + sizes first < sizes (completedEntriesAt t)
  oldest : ∀ e ∈ s.removed remove, ∀ e' ∈ completedEntriesAt s.tree, pinned e'.key = false →
    (e' ∈ s.attempts → remove e' ≠ .failed) → e.modified ≤ e'.modified
  /-- The running total, wherever the loop stands. -/
  total : ∀ before after, byAge (completedEntriesAt t) = before ++ after →
    (runTo max pinned remove t before).total = sizeLeft (completedEntriesAt t) before (s.removed remove)
  /-- `saturating_sub` subtracts. -/
  exact : ∀ before e after, byAge (completedEntriesAt t) = before ++ e :: after →
    e.size ≤ (runTo max pinned remove t before).total

/-! ## The loop -/

section
variable {max : Nat} {pinned : Str → Bool} {remove : CompletedEntry → Removal}

theorem sizes_append (xs ys : List CompletedEntry) : sizes (xs ++ ys) = sizes xs + sizes ys := by
  simp [sizes]

theorem sizes_sublist {xs ys : List CompletedEntry} (h : xs.Sublist ys) : sizes xs ≤ sizes ys :=
  (h.map _).sum_le_sum fun _ _ => Nat.zero_le _

theorem sizes_perm {xs ys : List CompletedEntry} (h : xs.Perm ys) : sizes xs = sizes ys :=
  (h.map _).sum_eq

theorem evictLoop_of_le {s : Eviction} (h : s.total ≤ max) (rest : List CompletedEntry) :
    evictLoop max pinned remove s rest = s := by
  cases rest with
  | nil => rfl
  | cons e rest => rw [evictLoop, if_pos h]

theorem evictLoop_append (s : Eviction) (before after : List CompletedEntry) :
    evictLoop max pinned remove s (before ++ after) =
      evictLoop max pinned remove (evictLoop max pinned remove s before) after := by
  induction before generalizing s with
  | nil => rfl
  | cons e rest ih =>
    rw [List.cons_append, evictLoop, evictLoop]
    split
    next h => rw [evictLoop_of_le h]
    next => exact ih _

theorem evictEntry_pinned {s : Eviction} {e : CompletedEntry} (h : pinned e.key = true) :
    evictEntry pinned remove s e = s := if_pos h

theorem evictEntry_removes {s : Eviction} {e : CompletedEntry} (hp : pinned e.key = false)
    (hr : (remove e).removes = true) :
    evictEntry pinned remove s e = ⟨s.tree.erase e.body, s.total - e.size, s.attempts ++ [e]⟩ := by
  rw [evictEntry, if_neg (Bool.eq_false_iff.1 hp)]
  cases he : remove e with
  | done | gone => rfl
  | failed =>
    rw [he] at hr
    cases hr

theorem evictEntry_fails {s : Eviction} {e : CompletedEntry} (hp : pinned e.key = false)
    (hr : (remove e).removes = false) : evictEntry pinned remove s e = { s with attempts := s.attempts ++ [e] } := by
  rw [evictEntry, if_neg (Bool.eq_false_iff.1 hp)]
  cases he : remove e with
  | done | gone =>
    rw [he] at hr
    cases hr
  | failed => rfl

theorem evictEntry_attempts {s : Eviction} {e : CompletedEntry} (hp : pinned e.key = false) :
    (evictEntry pinned remove s e).attempts = s.attempts ++ [e] := by
  cases hr : (remove e).removes with
  | true => rw [evictEntry_removes hp hr]
  | false => rw [evictEntry_fails hp hr]

variable (max pinned remove) in
/-- A loop only adds attempts, of entries it goes through. -/
theorem evictLoop_attempts (s : Eviction) (rest : List CompletedEntry) :
    ∃ more, (evictLoop max pinned remove s rest).attempts = s.attempts ++ more ∧ more.Sublist rest := by
  induction rest generalizing s with
  | nil => exact ⟨[], (List.append_nil _).symm, .refl _⟩
  | cons e rest ih =>
    rw [evictLoop]
    split
    next => exact ⟨[], (List.append_nil _).symm, List.nil_sublist _⟩
    next =>
      obtain ⟨more, hmore, hsub⟩ := ih (evictEntry pinned remove s e)
      rw [hmore]
      cases hp : pinned e.key with
      | true =>
        rw [evictEntry_pinned hp]
        exact ⟨more, rfl, hsub.cons _⟩
      | false =>
        rw [evictEntry_attempts hp, List.append_assoc]
        exact ⟨e :: more, rfl, hsub.cons_cons _⟩

/-- What is known of the loop once it has gone through `before`. -/
structure Reached (pinned : Str → Bool) (remove : CompletedEntry → Removal) (t : Tree)
    (before : List CompletedEntry) (s : Eviction) : Prop where
  sequence : s.attempts.Sublist before
  unpinned : ∀ e ∈ s.attempts, pinned e.key = false
  total : s.total + sizes (s.removed remove) = sizes (completedEntriesAt t)
  listed : ∀ e, e ∈ completedEntriesAt s.tree ↔ e ∈ completedEntriesAt t ∧ e ∉ s.removed remove
  frame : ∀ path, (∀ e ∈ s.removed remove, path ≠ e.body) → s.tree.lookup path = t.lookup path

theorem Eviction.removed_sublist (s : Eviction) : (s.removed remove).Sublist s.attempts :=
  List.filter_sublist

theorem removed_append {tree : Tree} {total : Nat} {attempts : List CompletedEntry} {e : CompletedEntry} :
    Eviction.removed remove ⟨tree, total, attempts ++ [e]⟩ =
      attempts.filter (fun e => (remove e).removes) ++ if (remove e).removes then [e] else [] := by
  rw [Eviction.removed, List.filter_append, List.filter_singleton, Bool.cond_eq_ite]

theorem Reached.start (t : Tree) : Reached pinned remove t [] ⟨t, sizes (completedEntriesAt t), []⟩ where
  sequence := .refl _
  unpinned := by simp
  total := rfl
  listed := by simp [Eviction.removed]
  frame := fun _ _ => rfl

/-- The size of the entry met next is still part of the total. -/
theorem Reached.size_le {t : Tree} {before after : List CompletedEntry} {e : CompletedEntry} {s : Eviction}
    (h : Reached pinned remove t before s) (horder : (before ++ e :: after).Perm (completedEntriesAt t)) :
    e.size ≤ s.total := by
  have hle : sizes (s.removed remove) ≤ sizes before := sizes_sublist (s.removed_sublist.trans h.sequence)
  have hsum : sizes before + (e.size + sizes after) = sizes (completedEntriesAt t) := by
    rw [← sizes_perm horder, sizes_append]
    simp [sizes]
  have htotal := h.total
  omega

/-- One entry further. -/
theorem Reached.entry {t : Tree} {before after : List CompletedEntry} {e : CompletedEntry} {s : Eviction}
    (h : Reached pinned remove t before s) (horder : (before ++ e :: after).Perm (completedEntriesAt t))
    (hnodup : (before ++ e :: after).Nodup) :
    Reached pinned remove t (before ++ [e]) (evictEntry pinned remove s e) := by
  have hnew : e ∉ s.removed remove := fun he =>
    (List.nodup_append.1 hnodup).2.2 e (h.sequence.subset (s.removed_sublist.subset he)) e (List.mem_cons_self ..) rfl
  have hsize : e.size ≤ s.total := h.size_le horder
  cases hp : pinned e.key with
  | true =>
    rw [evictEntry_pinned hp]
    exact { h with sequence := h.sequence.trans (List.sublist_append_left ..) }
  | false =>
    have hseq := h.sequence.append (List.Sublist.refl [e])
    have hunpinned : ∀ x ∈ s.attempts ++ [e], pinned x.key = false := by
      intro x hx
      rcases List.mem_append.1 hx with hx | hx
      · exact h.unpinned x hx
      · rwa [List.mem_singleton.1 hx]
    cases hr : (remove e).removes with
    | false =>
      have hremoved : Eviction.removed remove { s with attempts := s.attempts ++ [e] } = s.removed remove := by
        rw [removed_append, hr]
        exact List.append_nil _
      rw [evictEntry_fails hp hr]
      exact ⟨hseq, hunpinned, hremoved ▸ h.total, hremoved ▸ h.listed, hremoved ▸ h.frame⟩
    | true =>
      have hremoved : Eviction.removed remove ⟨s.tree.erase e.body, s.total - e.size, s.attempts ++ [e]⟩ =
          s.removed remove ++ [e] := by
        rw [removed_append, hr]
        rfl
      have hin : e ∈ completedEntriesAt s.tree := (h.listed e).2 ⟨horder.subset (by simp), hnew⟩
      rw [evictEntry_removes hp hr]
      refine ⟨hseq, hunpinned, ?_, ?_, ?_⟩
      · rw [hremoved, sizes_append]
        have htotal := h.total
        simp only [sizes, List.map_cons, List.map_nil, List.sum_cons, List.sum_nil] at htotal ⊢
        omega
      · intro e'
        rw [hremoved, mem_completedEntriesAt_erase hin, h.listed, List.mem_append, List.mem_singleton, not_or,
          and_assoc]
      · intro path hpath
        rw [hremoved] at hpath
        rw [AList.lookup_erase_ne (hpath e (by simp))]
        exact h.frame path fun x hx => hpath x (List.mem_append_left _ hx)

theorem Reached.loop {t : Tree} {rest : List CompletedEntry} : ∀ {before : List CompletedEntry}
    (after : List CompletedEntry) {s : Eviction}, Reached pinned remove t before s →
    (before ++ (rest ++ after)).Perm (completedEntriesAt t) → (before ++ (rest ++ after)).Nodup →
    Reached pinned remove t (before ++ rest) (evictLoop max pinned remove s rest) := by
  induction rest with
  | nil =>
    intro before after s h _ _
    rwa [List.append_nil]
  | cons e rest ih =>
    intro before after s h horder hnodup
    rw [evictLoop]
    split
    next => exact { h with sequence := h.sequence.trans (List.sublist_append_left ..) }
    next =>
      rw [List.append_cons]
      refine ih after (h.entry horder hnodup) ?_ ?_
      · rwa [← List.append_cons]
      · rwa [← List.append_cons]

/-! ## The whole scan -/

theorem byAge_perm (entries : List CompletedEntry) : (byAge entries).Perm entries :=
  List.perm_insertionSort _ _

theorem byAge_ascending (entries : List CompletedEntry) : (byAge entries).Pairwise (·.modified ≤ ·.modified) := by
  have htotal : Std.Total fun a b : CompletedEntry => a.modified ≤ b.modified := ⟨fun a b => Nat.le_total ..⟩
  have htrans : IsTrans CompletedEntry fun a b => a.modified ≤ b.modified := ⟨fun _ _ _ => Nat.le_trans⟩
  exact List.pairwise_insertionSort _ _

theorem nodup_byAge (t : Tree) : (byAge (completedEntriesAt t)).Nodup :=
  (byAge_perm _).nodup_iff.2 (nodup_completedEntriesAt t).of_map

/-- With a sum that fits its type, a total within the bound is one the loop stops at at once. -/
theorem evictFilesToBound_eq {t : Tree} (h : sizes (completedEntriesAt t) < 2 ^ 64) :
    evictFilesToBound max pinned remove t =
      evictLoop max pinned remove ⟨t, sizes (completedEntriesAt t), []⟩ (byAge (completedEntriesAt t)) := by
  rw [evictFilesToBound, show ((completedEntriesAt t).map (·.size)).sum % 2 ^ 64 = sizes (completedEntriesAt t) from
    Nat.mod_eq_of_lt h]
  split
  next hle => rw [evictLoop_of_le hle]
  next => rfl

/-- The entries that are left and those removed make up all of them. -/
theorem sizes_filter {entries removed : List CompletedEntry} (hn : entries.Nodup) (hr : removed.Nodup)
    (hsub : removed ⊆ entries) : sizes (entries.filter (· ∉ removed)) + sizes removed = sizes entries := by
  have hperm : (entries.filter (· ∈ removed)).Perm removed := by
    rw [List.perm_ext_iff_of_nodup (hn.filter _) hr]
    intro e
    rw [List.mem_filter, decide_eq_true_eq]
    exact ⟨fun h => h.2, fun h => ⟨hsub h, h⟩⟩
  rw [← sizes_perm hperm, ← sizes_append, ← sizes_perm (List.filter_append_perm (· ∈ removed) entries)]
  refine sizes_perm ?_
  simp only [decide_not]
  exact List.perm_append_comm

section
variable {t : Tree} {before after : List CompletedEntry} {s : Eviction}

theorem Reached.removed_subset (h : Reached pinned remove t before s) : s.removed remove ⊆ before :=
  fun _ he => h.sequence.subset (s.removed_sublist.subset he)

theorem Reached.remaining (h : Reached pinned remove t before s) :
    (completedEntriesAt s.tree).Perm ((completedEntriesAt t).filter (· ∉ s.removed remove)) := by
  rw [List.perm_ext_iff_of_nodup (nodup_completedEntriesAt _).of_map ((nodup_completedEntriesAt t).of_map.filter _)]
  intro e
  rw [h.listed, List.mem_filter, decide_eq_true_eq]

/-- Where the loop stands, in terms of what it removes in the end. -/
theorem Reached.sizeLeft (h : Reached pinned remove t before s) (hnodup : (before ++ after).Nodup)
    (hperm : (before ++ after).Perm (completedEntriesAt t)) :
    s.total = sizeLeft (completedEntriesAt t) before
      ((evictLoop max pinned remove s after).removed remove) := by
  obtain ⟨more, hmore, hsub⟩ := evictLoop_attempts max pinned remove s after
  have hmem : ∀ e, e ∈ before ∧ e ∈ (evictLoop max pinned remove s after).removed remove ↔ e ∈ s.removed remove := by
    intro e
    simp only [Eviction.removed, hmore, List.filter_append, List.mem_append, List.mem_filter]
    constructor
    · rintro ⟨hb, he | ⟨hm, -⟩⟩
      · exact he
      · exact absurd rfl ((List.nodup_append.1 hnodup).2.2 e hb e (hsub.subset hm))
    · intro he
      exact ⟨h.sequence.subset he.1, .inl he⟩
  have hn : (completedEntriesAt t).Nodup := hperm.nodup_iff.1 hnodup
  have hr : (s.removed remove).Nodup :=
    (List.nodup_append.1 hnodup).1.sublist (s.removed_sublist.trans h.sequence)
  have hsum := sizes_filter hn hr fun e he => hperm.subset (List.mem_append_left _ (h.removed_subset he))
  have htotal := h.total
  rw [Vampire.sizeLeft]
  simp only [hmem]
  omega

end

/-- Whether the entry the loop comes to next is attempted. -/
theorem attempts_next {s : Eviction} {e : CompletedEntry} {before after : List CompletedEntry}
    (hs : s.attempts.Sublist before) (hnodup : (before ++ e :: after).Nodup) :
    e ∈ (evictLoop max pinned remove s (e :: after)).attempts ↔ pinned e.key = false ∧ max < s.total := by
  have hnew : e ∉ s.attempts := fun he =>
    (List.nodup_append.1 hnodup).2.2 e (hs.subset he) e (List.mem_cons_self ..) rfl
  have hafter : e ∉ after := (List.nodup_cons.1 (List.nodup_append.1 hnodup).2.1).1
  rw [evictLoop]
  split
  next hle => exact ⟨fun he => absurd he hnew, fun h => absurd h.2 (Nat.not_lt.2 hle)⟩
  next hlt =>
    obtain ⟨more, hmore, hsub⟩ :=
      evictLoop_attempts max pinned remove (evictEntry pinned remove s e) after
    rw [hmore, List.mem_append, or_iff_left fun he => hafter (hsub.subset he)]
    cases hp : pinned e.key with
    | true =>
      rw [evictEntry_pinned hp]
      exact ⟨fun he => absurd he hnew, fun h => by cases h.1⟩
    | false =>
      rw [evictEntry_attempts hp]
      exact ⟨fun _ => ⟨rfl, Nat.lt_of_not_le hlt⟩, fun _ => by simp⟩

section
variable {t : Tree} {before after : List CompletedEntry}

variable (max pinned remove) in
theorem reached_runTo (h : byAge (completedEntriesAt t) = before ++ after) :
    Reached pinned remove t before (runTo max pinned remove t before) := by
  have hperm := byAge_perm (completedEntriesAt t)
  have hnodup := nodup_byAge t
  rw [h] at hperm hnodup
  exact (Reached.start t).loop after hperm hnodup

theorem evict_runTo (hdisk : sizes (completedEntriesAt t) < 2 ^ 64) (h : byAge (completedEntriesAt t) = before ++ after) :
    evictFilesToBound max pinned remove t = evictLoop max pinned remove (runTo max pinned remove t before) after := by
  rw [evictFilesToBound_eq hdisk, h, evictLoop_append, runTo]

theorem runTo_total (hdisk : sizes (completedEntriesAt t) < 2 ^ 64) (h : byAge (completedEntriesAt t) = before ++ after) :
    (runTo max pinned remove t before).total =
      sizeLeft (completedEntriesAt t) before ((evictFilesToBound max pinned remove t).removed remove) := by
  rw [evict_runTo hdisk h]
  exact (reached_runTo max pinned remove h).sizeLeft (h ▸ nodup_byAge t) (h ▸ byAge_perm _)

theorem attempted_iff {e : CompletedEntry} (hdisk : sizes (completedEntriesAt t) < 2 ^ 64)
    (h : byAge (completedEntriesAt t) = before ++ e :: after) :
    e ∈ (evictFilesToBound max pinned remove t).attempts ↔
      pinned e.key = false ∧ max < (runTo max pinned remove t before).total := by
  rw [evict_runTo hdisk h]
  exact attempts_next (reached_runTo max pinned remove h).sequence (h ▸ nodup_byAge t)

variable (max pinned remove) in
theorem reached_evict (hdisk : sizes (completedEntriesAt t) < 2 ^ 64) :
    Reached pinned remove t (byAge (completedEntriesAt t)) (evictFilesToBound max pinned remove t) := by
  rw [evict_runTo hdisk (List.append_nil _).symm]
  exact reached_runTo max pinned remove (List.append_nil _).symm

/-- An entry that stands before the loop's end is met before the loop's end. -/
theorem not_stopped {e : CompletedEntry} (hdisk : sizes (completedEntriesAt t) < 2 ^ 64)
    (h : byAge (completedEntriesAt t) = before ++ e :: after) (hend : max < (evictFilesToBound max pinned remove t).total) :
    max < (runTo max pinned remove t before).total := by
  by_contra hle
  rw [evict_runTo hdisk h, evictLoop_of_le (Nat.le_of_not_lt hle)] at hend
  exact hle hend

/-- A removal is made while the total exceeds the bound, and all removals before it are counted. -/
theorem removal_needed {first : List CompletedEntry} {last : CompletedEntry}
    (hdisk : sizes (completedEntriesAt t) < 2 ^ 64)
    (h : (evictFilesToBound max pinned remove t).removed remove = first ++ [last]) :
    max + sizes first < sizes (completedEntriesAt t) := by
  have hlast : last ∈ (evictFilesToBound max pinned remove t).removed remove := h ▸ by simp
  have hattempt := (Eviction.removed_sublist _).subset hlast
  obtain ⟨before, after, horder⟩ := List.append_of_mem ((reached_evict max pinned remove hdisk).sequence.subset hattempt)
  have hlt := ((attempted_iff hdisk horder).1 hattempt).2
  have hreached := reached_runTo max pinned remove horder
  have hstep : evictFilesToBound max pinned remove t =
      evictLoop max pinned remove (evictEntry pinned remove (runTo max pinned remove t before) last) after := by
    rw [evict_runTo hdisk horder, evictLoop, if_neg (Nat.not_le.2 hlt)]
  obtain ⟨more, hmore, hsub⟩ := evictLoop_attempts max pinned remove
    (evictEntry pinned remove (runTo max pinned remove t before) last) after
  -- What is removed after `last` is further on, so `last` being the last one nothing is.
  have hafter : last ∉ after := by
    have hnodup := nodup_byAge t
    rw [horder] at hnodup
    exact (List.nodup_cons.1 (List.nodup_append.1 hnodup).2.1).1
  have hremoved : (runTo max pinned remove t before).removed remove ++ [last] ++
      more.filter (fun e => (remove e).removes) = first ++ [last] := by
    rw [← h, hstep, Eviction.removed, Eviction.removed, hmore,
      evictEntry_attempts ((attempted_iff hdisk horder).1 hattempt).1, List.filter_append, List.filter_append,
      List.filter_singleton, (List.mem_filter.1 hlast).2]
    rfl
  have hnone : more.filter (fun e => (remove e).removes) = [] := by
    rcases List.eq_nil_or_concat (more.filter fun e => (remove e).removes) with hnil | ⟨front, x, hx⟩
    · exact hnil
    · rw [hx, List.concat_eq_append, ← List.append_assoc] at hremoved
      have hxlast := (List.append_inj' hremoved rfl).2
      have hxin : x ∈ more.filter fun e => (remove e).removes := by rw [hx]; simp
      rw [List.singleton_inj.1 hxlast] at hxin
      exact absurd (hsub.subset (List.mem_filter.1 hxin).1) hafter
  rw [hnone, List.append_nil] at hremoved
  have htotal := hreached.total
  rw [List.append_cancel_right hremoved] at htotal
  omega

end

/-- **Eviction.** Whatever the entries, the pins and the outcomes of the
removals, a scan attempts exactly the unpinned entries it meets, the oldest
first, while what is left exceeds the bound; the running total is the size of
what is left. -/
theorem evict_files_to_bound (t : Tree) (hdisk : sizes (completedEntriesAt t) < 2 ^ 64) :
    Evicts max pinned remove t (evictFilesToBound max pinned remove t) where
  attempted := by
    intro before e after h
    rw [attempted_iff hdisk h, runTo_total hdisk h]
  sequence := (reached_evict max pinned remove hdisk).sequence
  ascending := (byAge_ascending _).sublist (reached_evict max pinned remove hdisk).sequence
  remaining := (reached_evict max pinned remove hdisk).remaining
  frame := (reached_evict max pinned remove hdisk).frame
  unpinned := fun e he => (reached_evict max pinned remove hdisk).unpinned e ((Eviction.removed_sublist _).subset he)
  bounded := by
    have hreached := reached_evict max pinned remove hdisk
    rcases Nat.lt_or_ge max (evictFilesToBound max pinned remove t).total with hgt | hle
    · right
      intro e he
      obtain ⟨hin, hkept⟩ := (hreached.listed e).1 he
      obtain ⟨before, after, horder⟩ := List.append_of_mem ((byAge_perm _).symm.subset hin)
      cases hp : pinned e.key with
      | true => exact .inl rfl
      | false =>
        have hattempt := (attempted_iff hdisk horder).2 ⟨hp, not_stopped hdisk horder hgt⟩
        refine .inr ⟨hattempt, ?_⟩
        cases hr : remove e with
        | failed => rfl
        | done | gone => exact absurd (List.mem_filter.2 ⟨hattempt, by rw [hr]; rfl⟩) hkept
    · left
      have hsum := sizes_filter (nodup_completedEntriesAt t).of_map
        ((nodup_byAge t).sublist ((Eviction.removed_sublist _).trans hreached.sequence))
        fun e he => (byAge_perm _).subset (hreached.removed_subset he)
      have htotal := hreached.total
      rw [sizes_perm hreached.remaining]
      omega
  fits := by
    intro hle
    rw [evictFilesToBound_eq hdisk, evictLoop_of_le hle]
    exact ⟨rfl, rfl⟩
  needed := fun first last => removal_needed hdisk
  oldest := by
    intro e he e' he' hp hfailed
    have hreached := reached_evict max pinned remove hdisk
    obtain ⟨hin, hkept⟩ := (hreached.listed e').1 he'
    obtain ⟨before, after, horder⟩ := List.append_of_mem ((byAge_perm _).symm.subset hin)
    have hnot : e' ∉ (evictFilesToBound max pinned remove t).attempts := by
      intro ha
      cases hr : remove e' with
      | failed => exact hfailed ha hr
      | done | gone => exact hkept (List.mem_filter.2 ⟨ha, by rw [hr]; rfl⟩)
    -- It was not attempted, so the loop had stopped before it, and `e` stands there.
    have hstop : ¬ max < (runTo max pinned remove t before).total := fun hlt =>
      hnot ((attempted_iff hdisk horder).2 ⟨hp, hlt⟩)
    have hbefore : e ∈ before := by
      refine (reached_runTo max pinned remove horder).removed_subset ?_
      rwa [evict_runTo hdisk horder, evictLoop_of_le (Nat.le_of_not_lt hstop)] at he
    have hasc := byAge_ascending (completedEntriesAt t)
    rw [horder] at hasc
    exact (List.pairwise_append.1 hasc).2.2 e hbefore e' (List.mem_cons_self ..)
  total := fun before after h => runTo_total hdisk h
  exact := fun before e after h => (reached_runTo max pinned remove h).size_le (h ▸ byAge_perm _)

/-- A key of the shard `aa`, known by its last digit. -/
def keyOf (c : Char) : Str := List.replicate 63 'a' ++ [c]

/-- Three entries; the last one listed is the oldest. -/
def threeEntries : Tree :=
  treeOf [([.text "aa".toList], .dir),
    ([.text "aa".toList, .text (keyOf '1')], .file [1, 2] 30),
    ([.text "aa".toList, .text (keyOf '2')], .file [1, 2, 3] 20),
    ([.text "aa".toList, .text (keyOf '3')], .file [1, 2, 3, 4] 10)]

/-- The oldest is pinned and the next one stays, so the newest goes. -/
theorem evict_files_to_bound_three :
    let s := evictFilesToBound 8 (· = keyOf '3') (fun e => if e.modified = 20 then .failed else .done) threeEntries
    s.attempts.map (·.modified) = [20, 30] ∧
      Evicts 8 (· = keyOf '3') (fun e => if e.modified = 20 then .failed else .done) threeEntries s :=
  ⟨by decide, evict_files_to_bound threeEntries (by decide)⟩

end

end Vampire
