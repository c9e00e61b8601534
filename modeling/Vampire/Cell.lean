/-
The `Inflight` cell (`wait_for_outcome`, `complete`): an outcome under a
mutex and a `Notify`, any number of waiters and completers.

A waiter creates its `Notified` before it looks at the outcome, and a
completer notifies after it has written. `notify_waiters` reaches every
`Notified` created before it, so a `Notified` is known by the number of
notifications issued when it was created: it is delivered once there are
more. A waiter that has seen no outcome saw none under the mutex, so the
notification of whoever writes it is still to come.
-/
import Mathlib
import Vampire.Lib.Runs
import Vampire.Entry

namespace Vampire.Inflight

open Lib

/-- `InflightOutcome`; a `PublishedEntry` by its name. -/
inductive InflightOutcome (Meta : Type)
  | cached (entry : Nat)
  | response (info : Meta) (body : Bytes)
  | failed (kind : ErrorKind) (error : String)
  deriving DecidableEq

/-- A call of `wait_for_outcome` or of `complete`. `created` is the number of
notifications there were when the waiter created its `Notified`. -/
inductive Party (Meta : Type)
  /-- No call, or one that was dropped. -/
  | absent
  /-- At the top of the loop. -/
  | looping
  /-- Waiting for the mutex. -/
  | locking (created : Nat)
  /-- Holding the mutex. -/
  | looking (created : Nat)
  /-- Holding the mutex, after it has seen no outcome. -/
  | missed (created : Nat)
  /-- The mutex is dropped, the `Notified` not polled yet. -/
  | released (created : Nat)
  /-- Waiting for the notification. -/
  | parked (created : Nat)
  | returned (outcome : InflightOutcome Meta)
  /-- `complete(outcome)`, waiting for the mutex. -/
  | completing (outcome : InflightOutcome Meta)
  /-- Holding the mutex. -/
  | checking (outcome : InflightOutcome Meta)
  /-- Holding the mutex, after it has seen no outcome. -/
  | writing (outcome : InflightOutcome Meta)
  /-- Holding the mutex, with the outcome written. -/
  | wrote
  /-- The mutex is dropped, the notification still to come. -/
  | notifying
  | done
  deriving DecidableEq

structure Cell (Meta : Type) where
  outcome : Option (InflightOutcome Meta)
  /-- The outcomes written, the first first. -/
  writes : List (InflightOutcome Meta)
  /-- The mutex. -/
  lock : Option Nat
  /-- The calls of `notify_waiters`. -/
  notified : Nat
  parties : Nat → Party Meta

/-- `Inflight::new` -/
def Cell.new {Meta : Type} : Cell Meta := ⟨none, [], none, 0, fun _ => .absent⟩

inductive Action (Meta : Type)
  /-- A call of `wait_for_outcome`. -/
  | wait (i : Nat)
  /-- A call of `complete`. -/
  | complete (i : Nat) (outcome : InflightOutcome Meta)
  | run (i : Nat)
  /-- The call is dropped at an await. -/
  | cancel (i : Nat)

/-- `finish_cached` -/
def finishCached {Meta : Type} (i entry : Nat) : Action Meta := .complete i (.cached entry)

/-- `finish_response` -/
def finishResponse {Meta : Type} (i : Nat) (info : Meta) (body : Bytes) : Action Meta :=
  .complete i (.response info body)

/-- `fail` -/
def fail {Meta : Type} (i : Nat) (kind : ErrorKind) (error : String) : Action Meta :=
  .complete i (.failed kind error)

section
variable {Meta : Type}

def Cell.set (s : Cell Meta) (i : Nat) (p : Party Meta) : Cell Meta :=
  { s with parties := Function.update s.parties i p }

/-- The next step of a call, when it has one and is not waiting. -/
def Cell.run (s : Cell Meta) (i : Nat) : Party Meta → Option (Cell Meta)
  | .looping => some (s.set i (.locking s.notified))
  | .locking created =>
    if s.lock = none then some ({ s with lock := some i }.set i (.looking created)) else none
  | .looking created =>
    match s.outcome with
    | some outcome => some ({ s with lock := none }.set i (.returned outcome))
    | none => some (s.set i (.missed created))
  | .missed created => some ({ s with lock := none }.set i (.released created))
  | .released created =>
    if created < s.notified then some (s.set i .looping) else some (s.set i (.parked created))
  | .parked created => if created < s.notified then some (s.set i .looping) else none
  | .completing outcome =>
    if s.lock = none then some ({ s with lock := some i }.set i (.checking outcome)) else none
  | .checking outcome =>
    match s.outcome with
    | some _ => some ({ s with lock := none }.set i .done)
    | none => some (s.set i (.writing outcome))
  | .writing outcome => some ({ s with outcome := some outcome, writes := s.writes ++ [outcome] }.set i .wrote)
  | .wrote => some ({ s with lock := none }.set i .notifying)
  | .notifying => some ({ s with notified := s.notified + 1 }.set i .done)
  | .absent | .returned _ | .done => none

/-- The call is at an await. -/
def Party.awaits : Party Meta → Bool
  | .locking _ | .parked _ | .completing _ => true
  | _ => false

def step : Action Meta → Cell Meta → Option (Cell Meta)
  | .wait i, s =>
    match s.parties i with
    | .absent => some (s.set i .looping)
    | _ => none
  | .complete i outcome, s =>
    match s.parties i with
    | .absent => some (s.set i (.completing outcome))
    | _ => none
  | .run i, s => s.run i (s.parties i)
  | .cancel i, s => if (s.parties i).awaits then some (s.set i .absent) else none

/-! ## What is asked of the cell -/

/-- A completer stands between setting the outcome and notifying. -/
def Party.between : Party Meta → Bool
  | .wrote | .notifying => true
  | _ => false

structure Sound (s : Cell Meta) : Prop where
  /-- Written at most once. -/
  once : s.writes.length ≤ 1
  first : s.outcome = s.writes.head?
  /-- A waiter returns the first outcome written. -/
  returns : ∀ {i outcome}, s.parties i = .returned outcome → s.writes.head? = some outcome
  /-- No waiter is parked on a notification that is not delivered. -/
  woken : s.outcome ≠ none → (∀ i, (s.parties i).between = false) →
    ∀ {i created}, s.parties i = .parked created → created < s.notified

/-! ## The invariant -/

def Party.holds : Party Meta → Bool
  | .looking _ | .missed _ | .checking _ | .writing _ | .wrote => true
  | _ => false

/-- The party saw no outcome under the mutex it still holds. -/
def Party.sawNone : Party Meta → Bool
  | .missed _ | .writing _ => true
  | _ => false

/-- When the waiter's `Notified` was created. -/
def Party.created? : Party Meta → Option Nat
  | .locking created | .looking created | .missed created | .released created | .parked created => some created
  | _ => none

/-- The waiter will look again only when it is notified. -/
def Party.waits : Party Meta → Bool
  | .released _ | .parked _ => true
  | _ => false

structure Inv (s : Cell Meta) : Prop where
  locked : ∀ i, (s.parties i).holds = true ↔ s.lock = some i
  created : ∀ {i created}, (s.parties i).created? = some created → created ≤ s.notified
  unset : ∀ {i}, (s.parties i).sawNone = true → s.outcome = none
  writes : s.writes = s.outcome.toList
  returned : ∀ {i outcome}, s.parties i = .returned outcome → s.outcome = some outcome
  woken : s.outcome ≠ none → (∃ i, (s.parties i).between = true) ∨
    ∀ i created, (s.parties i).waits = true → (s.parties i).created? = some created → created < s.notified

/-- What a party may become while the outcome and the notifications stay as they are. -/
structure Follows (s : Cell Meta) (q p : Party Meta) : Prop where
  created : ∀ {created}, p.created? = some created → created ≤ s.notified
  unset : p.sawNone = true → s.outcome = none
  returned : ∀ {outcome}, p = .returned outcome → s.outcome = some outcome
  between : q.between = true → p.between = true
  waits : p.waits = true → s.outcome = none ∨ q.waits = true ∧ q.created? = p.created?

theorem Party.holds_of_sawNone {p : Party Meta} (h : p.sawNone = true) : p.holds = true := by
  cases p <;> simp_all [sawNone, holds]

theorem Party.not_holds_of_awaits {p : Party Meta} (h : p.awaits = true) : p.holds = false := by
  cases p <;> simp_all [awaits, holds]

theorem Party.not_between_of_awaits {p : Party Meta} (h : p.awaits = true) : p.between = false := by
  cases p <;> simp_all [awaits, between]

@[simp] theorem Cell.set_self (s : Cell Meta) (i : Nat) (p : Party Meta) : (s.set i p).parties i = p :=
  Function.update_self ..

@[simp] theorem Cell.set_ne (s : Cell Meta) {i j : Nat} (p : Party Meta) (h : j ≠ i) :
    (s.set i p).parties j = s.parties j :=
  Function.update_of_ne h ..

section
variable {s : Cell Meta} {i : Nat} {p : Party Meta}

/-- A party moves to `p`, and the mutex with it. -/
theorem Inv.move (hi : Inv s) (hf : Follows s (s.parties i) p) {lock : Option Nat}
    (hlock : p.holds = true ↔ lock = some i) (hothers : ∀ j, j ≠ i → (lock = some j ↔ s.lock = some j)) :
    Inv ({ s with lock }.set i p) := by
  refine ⟨?_, ?_, ?_, hi.writes, ?_, ?_⟩
  · intro j
    rcases eq_or_ne j i with rfl | hne
    · rw [Cell.set_self]
      exact hlock
    · rw [Cell.set_ne _ _ hne]
      exact (hi.locked j).trans (hothers j hne).symm
  · intro j created hc
    rcases eq_or_ne j i with rfl | hne
    · rw [Cell.set_self] at hc
      exact hf.created hc
    · exact hi.created (Cell.set_ne _ _ hne ▸ hc)
  · intro j hs
    rcases eq_or_ne j i with rfl | hne
    · rw [Cell.set_self] at hs
      exact hf.unset hs
    · exact hi.unset (Cell.set_ne _ _ hne ▸ hs)
  · intro j outcome hr
    rcases eq_or_ne j i with rfl | hne
    · rw [Cell.set_self] at hr
      exact hf.returned hr
    · exact hi.returned (Cell.set_ne _ _ hne ▸ hr)
  · intro hset
    rcases hi.woken hset with ⟨j, hb⟩ | hall
    · left
      refine ⟨j, ?_⟩
      rcases eq_or_ne j i with rfl | hne
      · rw [Cell.set_self]
        exact hf.between hb
      · rw [Cell.set_ne _ _ hne]
        exact hb
    · right
      intro j created hw hc
      rcases eq_or_ne j i with rfl | hne
      · rw [Cell.set_self] at hw hc
        rcases hf.waits hw with hnone | ⟨hw', hc'⟩
        · exact absurd hnone hset
        · exact hall j _ hw' (hc'.trans hc)
      · rw [Cell.set_ne _ _ hne] at hw hc
        exact hall j _ hw hc

theorem Inv.lock_ne (hi : Inv s) (hh : (s.parties i).holds = false) : s.lock ≠ some i := by
  intro hl
  have := (hi.locked i).2 hl
  rw [hh] at this
  cases this

/-- A move outside the mutex, or inside it. -/
theorem Inv.stay (hi : Inv s) (hf : Follows s (s.parties i) p) (hh : p.holds = (s.parties i).holds) :
    Inv (s.set i p) :=
  hi.move hf (by rw [hh]; exact hi.locked i) (fun _ _ => Iff.rfl)

/-- A move that takes the mutex. -/
theorem Inv.take (hi : Inv s) (hf : Follows s (s.parties i) p) (hfree : s.lock = none) (hh : p.holds = true) :
    Inv ({ s with lock := some i }.set i p) := by
  refine hi.move hf (by simp [hh]) ?_
  intro j hne
  simpa [hfree] using hne.symm

/-- A move that drops the mutex. -/
theorem Inv.drop (hi : Inv s) (hf : Follows s (s.parties i) p) (hheld : (s.parties i).holds = true)
    (hh : p.holds = false) : Inv ({ s with lock := none }.set i p) := by
  refine hi.move hf (by simp [hh]) ?_
  intro j hne
  simpa [(hi.locked i).1 hheld] using hne.symm

/-- The outcome is written by a completer that saw none and still holds the mutex. -/
theorem Inv.write (hi : Inv s) {outcome : InflightOutcome Meta} (hp : s.parties i = .writing outcome) :
    Inv ({ s with outcome := some outcome, writes := s.writes ++ [outcome] }.set i .wrote) := by
  have hnone : s.outcome = none := hi.unset (i := i) (by rw [hp]; rfl)
  have hlock : s.lock = some i := (hi.locked i).1 (by rw [hp]; rfl)
  refine ⟨?_, ?_, ?_, ?_, ?_, ?_⟩
  · intro j
    rcases eq_or_ne j i with rfl | hne
    · rw [Cell.set_self]
      exact ⟨fun _ => hlock, fun _ => rfl⟩
    · rw [Cell.set_ne _ _ hne]
      exact hi.locked j
  · intro j created hc
    rcases eq_or_ne j i with rfl | hne
    · rw [Cell.set_self] at hc
      cases hc
    · exact hi.created (Cell.set_ne _ _ hne ▸ hc)
  · intro j hs
    rcases eq_or_ne j i with rfl | hne
    · rw [Cell.set_self] at hs
      cases hs
    · -- Who saw no outcome holds the mutex too.
      rw [Cell.set_ne _ _ hne] at hs
      have := (hi.locked j).1 (Party.holds_of_sawNone hs)
      rw [hlock] at this
      exact absurd (Option.some.inj this).symm hne
  · show s.writes ++ [outcome] = _
    rw [hi.writes, hnone]
    rfl
  · intro j o hr
    rcases eq_or_ne j i with rfl | hne
    · rw [Cell.set_self] at hr
      cases hr
    · have := hi.returned (Cell.set_ne _ _ hne ▸ hr)
      rw [hnone] at this
      cases this
  · exact fun _ => .inl ⟨i, by rw [Cell.set_self]; rfl⟩

/-- Every `Notified` there is was created before the notification. -/
theorem Inv.notify (hi : Inv s) (hp : s.parties i = .notifying) :
    Inv ({ s with notified := s.notified + 1 }.set i .done) := by
  have hfree : s.lock ≠ some i := hi.lock_ne (by rw [hp]; rfl)
  refine ⟨?_, ?_, ?_, hi.writes, ?_, ?_⟩
  · intro j
    rcases eq_or_ne j i with rfl | hne
    · rw [Cell.set_self]
      exact ⟨fun h => (by cases h), fun h => absurd h hfree⟩
    · rw [Cell.set_ne _ _ hne]
      exact hi.locked j
  · intro j created hc
    rcases eq_or_ne j i with rfl | hne
    · rw [Cell.set_self] at hc
      cases hc
    · exact Nat.le_succ_of_le (hi.created (Cell.set_ne _ _ hne ▸ hc))
  · intro j hs
    rcases eq_or_ne j i with rfl | hne
    · rw [Cell.set_self] at hs
      cases hs
    · exact hi.unset (Cell.set_ne _ _ hne ▸ hs)
  · intro j o hr
    rcases eq_or_ne j i with rfl | hne
    · rw [Cell.set_self] at hr
      cases hr
    · exact hi.returned (Cell.set_ne _ _ hne ▸ hr)
  · intro _
    right
    intro j created hw hc
    rcases eq_or_ne j i with rfl | hne
    · rw [Cell.set_self] at hw
      cases hw
    · exact Nat.lt_succ_of_le (hi.created (Cell.set_ne _ _ hne ▸ hc))

end

/-! ## Every step -/

/-- A party that has no `Notified` and saw nothing under the mutex. -/
theorem Follows.plain {s : Cell Meta} {q p : Party Meta} (hc : p.created? = none) (hs : p.sawNone = false)
    (hr : ∀ outcome, p = .returned outcome → s.outcome = some outcome)
    (hb : q.between = true → p.between = true) (hw : p.waits = false) : Follows s q p := by
  refine ⟨?_, ?_, hr _, hb, ?_⟩
  · rw [hc]
    exact fun h => by cases h
  · rw [hs]
    exact fun h => by cases h
  · rw [hw]
    exact fun h => by cases h

/-- A waiter with its `Notified`. -/
theorem Follows.waiter {s : Cell Meta} {q p : Party Meta} {created : Nat} (hc : p.created? = some created)
    (hle : created ≤ s.notified) (hs : p.sawNone = true → s.outcome = none) (hb : q.between = false)
    (hw : p.waits = true → s.outcome = none ∨ q.waits = true ∧ q.created? = p.created?) :
    Follows s q p := by
  refine ⟨?_, hs, ?_, ?_, hw⟩
  · intro c h
    rw [hc] at h
    cases h
    exact hle
  · rintro o rfl
    cases hc
  · rw [hb]
    exact fun h => by cases h

theorem run_inv {s s' : Cell Meta} {i : Nat} (hi : Inv s) (h : s.run i (s.parties i) = some s') : Inv s' := by
  have hcreated := @hi.created i
  have hunset := @hi.unset i
  cases hp : s.parties i with
  | absent | returned | done =>
    rw [hp] at h
    cases h
  | looping =>
    rw [hp] at h
    cases h
    refine hi.stay ?_ (by rw [hp]; rfl)
    rw [hp]
    exact .waiter rfl le_rfl (fun h => by cases h) rfl (fun h => by cases h)
  | locking created =>
    rw [hp] at h hcreated
    simp only [Cell.run] at h
    split at h
    next hfree =>
      cases h
      refine hi.take ?_ hfree rfl
      rw [hp]
      exact .waiter rfl (hcreated rfl) (fun h => by cases h) rfl (fun h => by cases h)
    next => cases h
  | looking created =>
    rw [hp] at h hcreated
    simp only [Cell.run] at h
    split at h
    next outcome hout =>
      cases h
      refine hi.drop ?_ (by rw [hp]; rfl) rfl
      rw [hp]
      refine .plain rfl rfl ?_ (fun h => by cases h) rfl
      rintro o ⟨⟩
      exact hout
    next hout =>
      cases h
      refine hi.stay ?_ (by rw [hp]; rfl)
      rw [hp]
      exact .waiter rfl (hcreated rfl) (fun _ => hout) rfl (fun h => by cases h)
  | missed created =>
    rw [hp] at h hcreated hunset
    cases h
    refine hi.drop ?_ (by rw [hp]; rfl) rfl
    rw [hp]
    exact .waiter rfl (hcreated rfl) (fun h => by cases h) rfl (fun _ => .inl (hunset rfl))
  | released created =>
    rw [hp] at h hcreated
    simp only [Cell.run] at h
    split at h
    next =>
      cases h
      refine hi.stay ?_ (by rw [hp]; rfl)
      exact .plain rfl rfl (fun _ h => by cases h) (by rw [hp]; exact id) rfl
    next =>
      cases h
      refine hi.stay ?_ (by rw [hp]; rfl)
      rw [hp]
      exact .waiter rfl (hcreated rfl) (fun h => by cases h) rfl (fun _ => .inr ⟨rfl, rfl⟩)
  | parked created =>
    rw [hp] at h
    simp only [Cell.run] at h
    split at h
    next =>
      cases h
      refine hi.stay ?_ (by rw [hp]; rfl)
      exact .plain rfl rfl (fun _ h => by cases h) (by rw [hp]; exact id) rfl
    next => cases h
  | completing outcome =>
    rw [hp] at h
    simp only [Cell.run] at h
    split at h
    next hfree =>
      cases h
      refine hi.take ?_ hfree rfl
      exact .plain rfl rfl (fun _ h => by cases h) (by rw [hp]; exact id) rfl
    next => cases h
  | checking outcome =>
    rw [hp] at h
    simp only [Cell.run] at h
    split at h
    next =>
      cases h
      refine hi.drop ?_ (by rw [hp]; rfl) rfl
      exact .plain rfl rfl (fun _ h => by cases h) (by rw [hp]; exact id) rfl
    next hout =>
      cases h
      refine hi.stay ?_ (by rw [hp]; rfl)
      refine ⟨fun h => (by cases h), fun _ => hout, fun h => (by cases h), ?_, fun h => (by cases h)⟩
      rw [hp]
      exact id
  | writing outcome =>
    rw [hp] at h
    cases h
    exact hi.write hp
  | wrote =>
    rw [hp] at h
    cases h
    refine hi.drop ?_ (by rw [hp]; rfl) rfl
    exact .plain rfl rfl (fun _ h => by cases h) (fun _ => rfl) rfl
  | notifying =>
    rw [hp] at h
    cases h
    exact hi.notify hp

theorem step_inv {s s' : Cell Meta} {a : Action Meta} (hi : Inv s) (h : step a s = some s') : Inv s' := by
  cases a with
  | wait i =>
    simp only [step] at h
    split at h
    next hp =>
      cases h
      refine hi.stay ?_ (by rw [hp]; rfl)
      exact .plain rfl rfl (fun _ h => by cases h) (by rw [hp]; exact id) rfl
    next => cases h
  | complete i outcome =>
    simp only [step] at h
    split at h
    next hp =>
      cases h
      refine hi.stay ?_ (by rw [hp]; rfl)
      exact .plain rfl rfl (fun _ h => by cases h) (by rw [hp]; exact id) rfl
    next => cases h
  | run i => exact run_inv hi h
  | cancel i =>
    simp only [step] at h
    split at h
    next ha =>
      cases h
      refine hi.stay ?_ (Party.not_holds_of_awaits ha).symm
      refine .plain rfl rfl (fun _ h => by cases h) ?_ rfl
      rw [Party.not_between_of_awaits ha]
      exact id
    next => cases h

theorem inv_new : Inv (Cell.new : Cell Meta) where
  locked := by simp [Cell.new, Party.holds]
  created := by simp [Cell.new, Party.created?]
  unset := fun _ => rfl
  writes := rfl
  returned := by simp [Cell.new]
  woken := fun h => absurd rfl h

theorem Inv.sound {s : Cell Meta} (hi : Inv s) : Sound s where
  once := by
    rw [hi.writes]
    cases s.outcome <;> simp
  first := by
    rw [hi.writes]
    cases s.outcome <;> rfl
  returns := by
    intro i outcome hr
    rw [hi.writes, hi.returned hr]
    rfl
  woken := by
    intro hset hno i created hp
    rcases hi.woken hset with ⟨j, hb⟩ | hall
    · rw [hno j] at hb
      cases hb
    · exact hall i created (by rw [hp]; rfl) (by rw [hp]; rfl)

/-- A written outcome is kept by every step. -/
theorem step_outcome {s s' : Cell Meta} {a : Action Meta} {outcome : InflightOutcome Meta} (hi : Inv s)
    (hset : s.outcome = some outcome) (h : step a s = some s') : s'.outcome = some outcome := by
  cases a with
  | wait i | complete i _ | cancel i =>
    simp only [step] at h
    split at h
    · cases h
      exact hset
    · cases h
  | run i =>
    have hunset := @hi.unset i
    simp only [step] at h
    cases hp : s.parties i with
    | writing o =>
      -- The writer saw no outcome.
      rw [hp] at hunset
      rw [hunset rfl] at hset
      cases hset
    | absent | returned | done =>
      rw [hp] at h
      cases h
    | looping | missed | wrote | notifying =>
      rw [hp] at h
      cases h
      exact hset
    | locking | looking | released | parked | completing | checking =>
      rw [hp] at h
      simp only [Cell.run] at h
      split at h
      all_goals first
        | cases h; done
        | cases h; exact hset

/-! ## Runs -/

theorem inv_run {s : Cell Meta} (h : Run step Any (· = Cell.new) s) : Inv s :=
  h.invariant Inv (fun _ he => he ▸ inv_new) (fun _ _ _ hi _ hs => step_inv hi hs)

/-- **The cell.** However any number of waiters and completers interleave, the
outcome is written at most once and stays as it was written, a waiter returns
the first one written, and once it is set and notified no waiter is parked on
a notification still to come. -/
theorem outcome_is_single {s : Cell Meta} (h : Run step Any (· = Cell.new) s) :
    Sound s ∧ ∀ s' outcome, Run step Any (· = s) s' → s.outcome = some outcome → s'.outcome = some outcome := by
  refine ⟨(inv_run h).sound, ?_⟩
  intro s' outcome h' hset
  have := h'.invariant (fun t => Inv t ∧ t.outcome = some outcome) (fun t (he : t = s) => he ▸ ⟨inv_run h, hset⟩)
    (fun _ _ _ hi _ hs => ⟨step_inv hi.1 hs, step_outcome hi.1 hi.2 hs⟩)
  exact this.2

/-- A waiter parks, a completer that comes later wakes it, another comes too late. -/
theorem outcome_is_single_parked :
    ∃ s : Cell Nat, s.parties 0 = .returned (.response 7 [1]) ∧ Sound s ∧
      ∀ s' outcome, Run step Any (· = s) s' → s.outcome = some outcome → s'.outcome = some outcome := by
  have hrun : (exec step [.wait 0, .run 0, .run 0, .run 0, .run 0, .run 0, finishResponse 1 7 [1], .run 1,
      fail 2 .other "late failure", .run 1, .run 1, .run 1, .run 2, .run 2, .run 1, .run 0, .run 0, .run 0,
      .run 0] (Cell.new : Cell Nat)).any (fun s => s.parties 0 = .returned (.response 7 [1])) = true := by
    decide
  obtain ⟨s, hs, hp⟩ := (Option.any_eq_true _ _).1 hrun
  exact ⟨s, of_decide_eq_true hp, outcome_is_single (.exec (.start rfl) hs)⟩

end

end Vampire.Inflight
