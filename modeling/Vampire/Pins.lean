/-
The pin registry on its own: any sequence of `pin(key)` calls, clones and
drops of the tokens they return, and `is_pinned` queries (`CacheStore::pin`,
`Drop for PublishedEntryInner`, `is_pinned`).

The registry has one weak reference for a key. A later `pin(key)` overwrites
it, and the drop that finds its own reference there removes it, whether or
not an older token of the key is still live. So the registry follows the
live tokens exactly as long as no newest token is dropped before an older one.
-/
import Mathlib

namespace Vampire

/-- `PublishedEntryInner`, and the number of `PublishedEntry` handles on it.
Its `pin` is its own name in the registry's map. -/
structure Inner (Key : Type) where
  key : Key
  handles : Nat
  deriving DecidableEq

structure Registry (Key : Type) where
  next : Nat
  /-- The inner tokens that are not dropped, by their `pin`. -/
  tokens : Nat → Option (Inner Key)
  /-- `pins`: the weak reference of a key. -/
  pins : Key → Option Nat
  /-- The eviction channel, of capacity one, holds a request. -/
  chan : Bool
  /-- The keys whose drop has called `try_send`, the latest first. -/
  sent : List Key

/-- What callers do with the registry. -/
inductive PinOp (Key : Type)
  | pin (key : Key)
  | clone (t : Nat)
  | drop (t : Nat)
  | isPinned (key : Key)
  /-- The janitor takes the request. -/
  | recv
  deriving DecidableEq

namespace Registry

variable {Key : Type} [DecidableEq Key]

def empty : Registry Key :=
  { next := 0, tokens := fun _ => none, pins := fun _ => none, chan := false, sent := [] }

/-- `Weak::upgrade` succeeds: the inner token that owns the pin is there. -/
def upgrades (s : Registry Key) (p : Nat) : Bool := (s.tokens p).isSome

/-- `is_pinned`, which also drops the dead references of every key. -/
def isPinned (s : Registry Key) (key : Key) : Bool × Registry Key :=
  let s := { s with pins := fun k => (s.pins k).filter s.upgrades }
  ((s.pins key).any s.upgrades, s)

/-- `CacheStore::pin` -/
def pin (s : Registry Key) (key : Key) : Registry Key :=
  { s with
    next := s.next + 1
    tokens := Function.update s.tokens s.next (some ⟨key, 1⟩)
    pins := Function.update s.pins key (some s.next) }

/-- `Drop for PublishedEntryInner`, then the drop of its fields. -/
def dropInner (s : Registry Key) (t : Nat) (T : Inner Key) : Registry Key :=
  let ownsPin := (s.pins T.key).filter s.upgrades = some t
  let s := if ownsPin then
      { s with pins := Function.update s.pins T.key none, chan := true, sent := T.key :: s.sent }
    else s
  { s with tokens := Function.update s.tokens t none }

def clone (s : Registry Key) (t : Nat) : Registry Key :=
  match s.tokens t with
  | some T => { s with tokens := Function.update s.tokens t (some { T with handles := T.handles + 1 }) }
  | none => s

/-- The drop of one handle. -/
def drop (s : Registry Key) (t : Nat) : Registry Key :=
  match s.tokens t with
  | some T =>
    if T.handles = 1 then s.dropInner t T
    else { s with tokens := Function.update s.tokens t (some { T with handles := T.handles - 1 }) }
  | none => s

def apply (s : Registry Key) : PinOp Key → Registry Key
  | .pin key => s.pin key
  | .clone t => s.clone t
  | .drop t => s.drop t
  | .isPinned key => (s.isPinned key).2
  | .recv => { s with chan := false }

/-- The registry after the calls, from an empty one. -/
def run (ops : List (PinOp Key)) : Registry Key := ops.foldl apply empty

/-! ## What is asked of the registry -/

/-- A token created by `pin(key)` is live. -/
def Live (s : Registry Key) (key : Key) : Prop := ∃ t T, s.tokens t = some T ∧ T.key = key

def Faithful (s : Registry Key) : Prop := ∀ key, (s.isPinned key).1 = true ↔ s.Live key

/-- The call sends an eviction request if it unpins a key, and otherwise none. -/
def SendsOnUnpin (s : Registry Key) (op : PinOp Key) : Prop :=
  (∃ t T, op = .drop t ∧ s.tokens t = some T ∧ (s.isPinned T.key).1 = true ∧
    ((s.apply op).isPinned T.key).1 = false ∧ (s.apply op).sent = T.key :: s.sent ∧ (s.apply op).chan = true) ∨
  (∀ key, (s.isPinned key).1 = true → ((s.apply op).isPinned key).1 = true) ∧ (s.apply op).sent = s.sent

/-- The drop is not the last one of a key's newest token while an older one is live. -/
def Orderly (s : Registry Key) (t : Nat) : Prop :=
  ∀ T, s.tokens t = some T → T.handles = 1 → s.pins T.key = some t →
    ∀ u U, s.tokens u = some U → U.key = T.key → u = t

/-! ## The calls one by one -/

/-- A registered token is live, under the key it is registered for. -/
structure Registered (s : Registry Key) : Prop where
  token_lt : ∀ {t T}, s.tokens t = some T → t < s.next
  owner : ∀ {key t}, s.pins key = some t → ∃ T, s.tokens t = some T ∧ T.key = key

/-- Each live token's key is registered. -/
def Covered (s : Registry Key) : Prop := ∀ t T, s.tokens t = some T → ∃ u, s.pins T.key = some u

variable {s : Registry Key}

omit [DecidableEq Key] in
theorem Registered.upgrades (h : Registered s) {key : Key} {t : Nat} (hp : s.pins key = some t) :
    s.upgrades t = true := by
  obtain ⟨T, hT, -⟩ := h.owner hp
  simp [Registry.upgrades, hT]

omit [DecidableEq Key] in
/-- Every reference still upgrades, so `retain` removes none. -/
theorem Registered.retain (h : Registered s) (key : Key) : (s.pins key).filter s.upgrades = s.pins key := by
  cases hp : s.pins key with
  | none => rfl
  | some t => simp [Option.filter, h.upgrades hp]

omit [DecidableEq Key] in
theorem Registered.isPinned (h : Registered s) (key : Key) : s.isPinned key = ((s.pins key).isSome, s) := by
  have hpins : (fun k => (s.pins k).filter s.upgrades) = s.pins := funext h.retain
  have hany : (s.pins key).any s.upgrades = (s.pins key).isSome := by
    cases hp : s.pins key with
    | none => rfl
    | some t => exact h.upgrades hp
  simp only [Registry.isPinned, hpins, Prod.mk.injEq, and_true]
  exact (congrArg (Option.any s.upgrades) (h.retain key)).trans hany

omit [DecidableEq Key] in
theorem Registered.faithful (h : Registered s) : s.Faithful ↔ Covered s := by
  refine ⟨?_, ?_⟩
  · intro hf t T ht
    have hp := (hf T.key).2 ⟨t, T, ht, rfl⟩
    rw [h.isPinned] at hp
    exact Option.isSome_iff_exists.1 hp
  · intro hc key
    rw [h.isPinned]
    refine ⟨?_, ?_⟩
    · intro hp
      obtain ⟨t, ht⟩ := Option.isSome_iff_exists.1 hp
      exact ⟨t, h.owner ht⟩
    · rintro ⟨t, T, ht, rfl⟩
      exact Option.isSome_iff_exists.2 (hc t T ht)

/-- The drop of a handle: no token, not the last handle, the registered token, or another one. -/
theorem Registered.drop_cases (h : Registered s) (t : Nat) : (s.tokens t = none ∧ s.drop t = s) ∨
    ∃ T, s.tokens t = some T ∧
      ((T.handles ≠ 1 ∧
          s.drop t = { s with tokens := Function.update s.tokens t (some { T with handles := T.handles - 1 }) }) ∨
        (T.handles = 1 ∧ s.pins T.key = some t ∧ s.drop t = { s with
          tokens := Function.update s.tokens t none
          pins := Function.update s.pins T.key none
          chan := true
          sent := T.key :: s.sent }) ∨
        (T.handles = 1 ∧ s.pins T.key ≠ some t ∧
          s.drop t = { s with tokens := Function.update s.tokens t none })) := by
  unfold drop
  cases ht : s.tokens t with
  | none => exact .inl ⟨rfl, rfl⟩
  | some T =>
    refine .inr ⟨T, rfl, ?_⟩
    by_cases hn : T.handles = 1
    · simp only [if_pos hn, dropInner, h.retain]
      by_cases ho : s.pins T.key = some t
      · exact .inr (.inl ⟨hn, ho, by rw [if_pos ho]⟩)
      · exact .inr (.inr ⟨hn, ho, by rw [if_neg ho]⟩)
    · exact .inl ⟨hn, by simp only [if_neg hn]⟩

theorem Registered.pin (h : Registered s) (key : Key) : Registered (s.pin key) := by
  refine ⟨?_, ?_⟩
  · intro t T ht
    simp only [Registry.pin, Function.update_apply] at ht ⊢
    split at ht
    · omega
    · exact Nat.lt_succ_of_lt (h.token_lt ht)
  · intro k t hp
    simp only [Registry.pin, Function.update_apply] at hp ⊢
    split at hp
    · next hk =>
      cases hp
      exact ⟨⟨key, 1⟩, if_pos rfl, hk.symm⟩
    · obtain ⟨T, hT, hk⟩ := h.owner hp
      exact ⟨T, by rw [if_neg (Nat.ne_of_lt (h.token_lt hT)), hT], hk⟩

omit [DecidableEq Key] in
/-- A token that changes its number of handles is the same token to the registry. -/
theorem Registered.setHandles (h : Registered s) {t : Nat} {T : Inner Key} (ht : s.tokens t = some T) (n : Nat) :
    Registered { s with tokens := Function.update s.tokens t (some { T with handles := n }) } := by
  refine ⟨?_, ?_⟩
  · intro u U hu
    simp only [Function.update_apply] at hu
    split at hu
    · next he =>
      subst he
      exact h.token_lt ht
    · exact h.token_lt hu
  · intro k u hp
    obtain ⟨U, hU, hk⟩ := h.owner hp
    simp only [Function.update_apply]
    split
    · next he =>
      subst he
      cases ht.symm.trans hU
      exact ⟨_, rfl, hk⟩
    · exact ⟨U, hU, hk⟩

omit [DecidableEq Key] in
theorem Covered.setHandles (h : Covered s) {t : Nat} {T : Inner Key} (ht : s.tokens t = some T) (n : Nat) :
    Covered { s with tokens := Function.update s.tokens t (some { T with handles := n }) } := by
  intro u U hu
  simp only [Function.update_apply] at hu
  split at hu
  · cases hu
    exact h t T ht
  · exact h u U hu

theorem Registered.drop (h : Registered s) (t : Nat) : Registered (s.drop t) := by
  obtain ⟨-, he⟩ | ⟨T, ht, ⟨-, he⟩ | ⟨-, ho, he⟩ | ⟨-, ho, he⟩⟩ := h.drop_cases t
  · rwa [he]
  · rw [he]
    exact h.setHandles ht _
  · rw [he]
    refine ⟨?_, ?_⟩
    · intro u U hu
      simp only [Function.update_apply] at hu
      split at hu
      · cases hu
      · exact h.token_lt hu
    · intro k u hp
      simp only [Function.update_apply] at hp ⊢
      split at hp
      · cases hp
      · next hk =>
        obtain ⟨U, hU, rfl⟩ := h.owner hp
        refine ⟨U, ?_, rfl⟩
        rw [if_neg, hU]
        rintro rfl
        cases ht.symm.trans hU
        exact hk rfl
  · rw [he]
    refine ⟨?_, ?_⟩
    · intro u U hu
      simp only [Function.update_apply] at hu
      split at hu
      · cases hu
      · exact h.token_lt hu
    · intro k u hp
      obtain ⟨U, hU, rfl⟩ := h.owner hp
      refine ⟨U, ?_, rfl⟩
      simp only [Function.update_apply]
      rw [if_neg, hU]
      rintro rfl
      cases ht.symm.trans hU
      exact ho hp

theorem Registered.apply (h : Registered s) (op : PinOp Key) : Registered (s.apply op) := by
  cases op with
  | pin key => exact h.pin key
  | clone t =>
    simp only [Registry.apply, Registry.clone]
    split
    · next ht => exact h.setHandles ht _
    · exact h
  | drop t => exact h.drop t
  | isPinned key =>
    simp only [Registry.apply, h.isPinned]
    exact h
  | recv => exact ⟨h.token_lt, h.owner⟩

theorem Covered.pin (h : Covered s) (key : Key) : Covered (s.pin key) := by
  intro t T ht
  simp only [Registry.pin, Function.update_apply] at ht ⊢
  split at ht
  · cases ht
    exact ⟨s.next, if_pos rfl⟩
  · obtain ⟨u, hu⟩ := h t T ht
    by_cases hk : T.key = key
    · exact ⟨s.next, if_pos hk⟩
    · exact ⟨u, by rw [if_neg hk, hu]⟩

theorem Covered.drop (h : Covered s) (hr : Registered s) {t : Nat} (ho : s.Orderly t) : Covered (s.drop t) := by
  obtain ⟨-, he⟩ | ⟨T, ht, ⟨-, he⟩ | ⟨hn, hp, he⟩ | ⟨-, -, he⟩⟩ := hr.drop_cases t
  · rwa [he]
  · rw [he]
    exact h.setHandles ht _
  · rw [he]
    intro u U hu
    simp only [Function.update_apply] at hu ⊢
    split at hu
    · cases hu
    · next hne =>
      obtain ⟨v, hv⟩ := h u U hu
      refine ⟨v, ?_⟩
      rw [if_neg, hv]
      exact fun hk => hne (ho T ht hn hp u U hu hk)
  · rw [he]
    intro u U hu
    simp only [Function.update_apply] at hu
    split at hu
    · cases hu
    · exact h u U hu

/-- The drop of the newest token leaves an older one of its key unregistered. -/
theorem Registered.drop_uncovered (h : Registered s) {t : Nat} (ho : ¬ s.Orderly t) : ¬ Covered (s.drop t) := by
  intro hc
  simp only [Orderly, not_forall] at ho
  obtain ⟨T, ht, hn, hp, u, U, hu, hk, hne⟩ := ho
  obtain ⟨hnone, -⟩ | ⟨T', ht', ⟨hn', -⟩ | ⟨-, -, he⟩ | ⟨-, hp', -⟩⟩ := h.drop_cases t
  · simp [ht] at hnone
  · cases ht.symm.trans ht'
    exact hn' hn
  · cases ht.symm.trans ht'
    rw [he] at hc
    obtain ⟨v, hv⟩ := hc u U ((Function.update_of_ne hne ..).trans hu)
    have hnone : Function.update s.pins T.key none U.key = none := by rw [hk, Function.update_self]
    cases hnone.symm.trans hv
  · cases ht.symm.trans ht'
    exact hp' hp

theorem Covered.apply (h : Covered s) (hr : Registered s) {op : PinOp Key} (ho : ∀ t, op = .drop t → s.Orderly t) :
    Covered (s.apply op) := by
  cases op with
  | pin key => exact h.pin key
  | clone t =>
    simp only [Registry.apply, Registry.clone]
    split
    · next ht => exact h.setHandles ht _
    · exact h
  | drop t => exact h.drop hr (ho t rfl)
  | isPinned key =>
    simp only [Registry.apply, hr.isPinned]
    exact h
  | recv => exact h

/-- What unpins a key is the drop of its registered token, and that drop sends. -/
theorem Registered.sends (h : Registered s) (op : PinOp Key) : s.SendsOnUnpin op := by
  have h' := h.apply op
  have still : (∀ key u, s.pins key = some u → ∃ v, (s.apply op).pins key = some v) → (s.apply op).sent = s.sent →
      s.SendsOnUnpin op := by
    intro hp hs
    refine .inr ⟨fun key hk => ?_, hs⟩
    rw [h.isPinned] at hk
    rw [h'.isPinned]
    obtain ⟨u, hu⟩ := Option.isSome_iff_exists.1 hk
    exact Option.isSome_iff_exists.2 (hp key u hu)
  cases op with
  | pin key =>
    refine still ?_ rfl
    intro k u hu
    simp only [Registry.apply, Registry.pin, Function.update_apply]
    split
    · exact ⟨_, rfl⟩
    · exact ⟨u, hu⟩
  | clone t =>
    simp only [Registry.apply, Registry.clone] at still
    split at still
    · exact still (fun _ u hu => ⟨u, hu⟩) rfl
    · exact still (fun _ u hu => ⟨u, hu⟩) rfl
  | drop t =>
    obtain ⟨-, he⟩ | ⟨T, ht, ⟨-, he⟩ | ⟨-, hp, he⟩ | ⟨-, -, he⟩⟩ := h.drop_cases t
    · exact still (by simp only [Registry.apply, he]; exact fun _ u hu => ⟨u, hu⟩) (by simp only [Registry.apply, he])
    · exact still (by simp only [Registry.apply, he]; exact fun _ u hu => ⟨u, hu⟩) (by simp only [Registry.apply, he])
    · refine .inl ⟨t, T, rfl, ht, ?_, ?_, ?_, ?_⟩
      · rw [h.isPinned, hp]
        rfl
      · rw [h'.isPinned]
        simp only [Registry.apply, he, Function.update_self, Option.isSome_none]
      · simp only [Registry.apply, he]
      · simp only [Registry.apply, he]
    · exact still (by simp only [Registry.apply, he]; exact fun _ u hu => ⟨u, hu⟩) (by simp only [Registry.apply, he])
  | isPinned key =>
    simp only [Registry.apply, h.isPinned] at still
    exact still (fun _ u hu => ⟨u, hu⟩) trivial
  | recv => exact still (fun _ u hu => ⟨u, hu⟩) rfl

/-! ## Every sequence of calls -/

theorem run_append (ops : List (PinOp Key)) (op : PinOp Key) : run (ops ++ [op]) = (run ops).apply op := by
  simp [run]

theorem run_registered (ops : List (PinOp Key)) : Registered (run ops) := by
  induction ops using List.reverseRecOn with
  | nil => constructor <;> simp [run, empty]
  | append_singleton ops op ih =>
    rw [run_append]
    exact ih.apply op

/-- **Pin registry.** Along a sequence of calls, `is_pinned` follows the live tokens throughout, and
each drop sends exactly when it unpins, if and only if no drop takes a key's newest token before an
older one of that key. -/
theorem registry_follows_tokens (ops : List (PinOp Key)) :
    ((∀ pre, pre <+: ops → (run pre).Faithful) ∧ ∀ pre op, pre ++ [op] <+: ops → (run pre).SendsOnUnpin op) ↔
      ∀ pre t, pre ++ [.drop t] <+: ops → (run pre).Orderly t := by
  refine ⟨?_, ?_⟩
  · rintro ⟨hf, -⟩ pre t hpre
    by_contra ho
    have hc := (run_registered (pre ++ [.drop t])).faithful.1 (hf _ hpre)
    rw [run_append] at hc
    exact (run_registered pre).drop_uncovered ho hc
  · intro ho
    refine ⟨?_, fun pre op _ => (run_registered pre).sends op⟩
    intro pre hpre
    refine (run_registered pre).faithful.2 ?_
    -- The prefix grows a call at a time.
    induction pre using List.reverseRecOn with
    | nil => exact fun t T h => by cases h
    | append_singleton pre op ih =>
      rw [run_append]
      refine (ih ((List.prefix_append ..).trans hpre)).apply (run_registered pre) ?_
      rintro t rfl
      exact ho pre t hpre

/-- The second token of a key dropped before the first: the key is unpinned with a live token. -/
theorem newest_dropped_first :
    ¬ (∀ ops : List (PinOp Nat), ∀ pre, pre <+: ops → (run pre).Faithful) ∧
      ((run [.pin 7, .pin 7, .drop 1]).isPinned 7).1 = false ∧
      (run [.pin 7, .pin 7, .drop 1]).tokens 0 = some (⟨7, 1⟩ : Inner Nat) := by
  have hp : ((run [.pin 7, .pin 7, .drop 1]).isPinned 7).1 = false := by decide
  have ht : (run [.pin 7, .pin 7, .drop 1]).tokens 0 = some (⟨7, 1⟩ : Inner Nat) := by decide
  refine ⟨?_, hp, ht⟩
  intro h
  have := (h _ _ (List.prefix_refl [.pin 7, .pin 7, .drop 1]) 7).2 ⟨0, _, ht, rfl⟩
  rw [hp] at this
  cases this

end Registry

end Vampire
