/-
Runs of a system given by a partial step function: an action either has an
effect on a state or is not enabled in it. A run may carry a side condition
on the actions it takes, read in the state each is taken in, so that one
definition serves the theorems about every run and the theorems about the
runs whose steps all meet a condition.
-/
import Mathlib

namespace Vampire.Lib

variable {σ α : Type}

/-- `Run step ok init s`: some run from a state of `init` reaches `s`, each
of its actions taken in a state where `ok` allows it. -/
inductive Run (step : α → σ → Option σ) (ok : σ → α → Prop) (init : σ → Prop) : σ → Prop
  | start {s} : init s → Run step ok init s
  | next {s a s'} : Run step ok init s → ok s a → step a s = some s' → Run step ok init s'

/-- No condition on the actions: every run. -/
def Any (_ : σ) (_ : α) : Prop := True

variable {step : α → σ → Option σ} {ok : σ → α → Prop} {init : σ → Prop}

/-- What holds at the start and is kept by every allowed step holds of every state a run reaches. -/
theorem Run.invariant (I : σ → Prop) (h0 : ∀ s, init s → I s)
    (hs : ∀ s a s', I s → ok s a → step a s = some s' → I s') {s} (h : Run step ok init s) : I s := by
  induction h with
  | start hi => exact h0 _ hi
  | next _ ho hst ih => exact hs _ _ _ ih ho hst

/-- A run under a stronger condition is a run under a weaker one. -/
theorem Run.weaken {ok' : σ → α → Prop} (hw : ∀ s a, ok s a → ok' s a) {s} (h : Run step ok init s) :
    Run step ok' init s := by
  induction h with
  | start hi => exact .start hi
  | next _ ho hst ih => exact .next ih (hw _ _ ho) hst

/-- A run from fewer starts is a run from more. -/
theorem Run.of_init {init' : σ → Prop} (hi : ∀ s, init s → init' s) {s} (h : Run step ok init s) :
    Run step ok init' s := by
  induction h with
  | start h => exact .start (hi _ h)
  | next _ ho hst ih => exact .next ih ho hst

/-- An invariant may use another one already proved of the same runs. -/
theorem Run.invariant_of (J I : σ → Prop) (hJ : ∀ {s}, Run step ok init s → J s) (h0 : ∀ s, init s → I s)
    (hs : ∀ s a s', J s → J s' → I s → ok s a → step a s = some s' → I s') {s}
    (h : Run step ok init s) : I s := by
  induction h with
  | start hi => exact h0 _ hi
  | next hr ho hst ih => exact hs _ _ _ (hJ hr) (hJ (.next hr ho hst)) ih ho hst

/-! ## Runs with their actions -/

/-- A run together with the actions it takes, in their order. -/
inductive Trace (step : α → σ → Option σ) (ok : σ → α → Prop) (init : σ → Prop) : List α → σ → Prop
  | start {s} : init s → Trace step ok init [] s
  | next {as s a s'} : Trace step ok init as s → ok s a → step a s = some s' → Trace step ok init (as ++ [a]) s'

theorem Trace.run {as : List α} {s} (h : Trace step ok init as s) : Run step ok init s := by
  induction h with
  | start hi => exact .start hi
  | next _ ho hst ih => exact .next ih ho hst

theorem Trace.weaken {ok' : σ → α → Prop} (hw : ∀ s a, ok s a → ok' s a) {as : List α} {s}
    (h : Trace step ok init as s) : Trace step ok' init as s := by
  induction h with
  | start hi => exact .start hi
  | next _ ho hst ih => exact .next ih (hw _ _ ho) hst

/-! ## Executing a list of actions -/

/-- The state after the actions, when each is enabled where it is taken. -/
def exec (step : α → σ → Option σ) : List α → σ → Option σ
  | [], s => some s
  | a :: as, s => (step a s).bind (exec step as)

/-- Every action of the list is allowed in the state it is taken in. -/
def allowed (step : α → σ → Option σ) (ok : σ → α → Bool) : List α → σ → Bool
  | [], _ => true
  | a :: as, s => ok s a && (match step a s with | some s' => allowed step ok as s' | none => true)

theorem Run.exec {as : List α} : ∀ {s s'}, Run step Any init s → exec step as s = some s' →
    Run step Any init s' := by
  induction as with
  | nil => intro s s' h he; simp only [Lib.exec, Option.some.injEq] at he; exact he ▸ h
  | cons a as ih =>
    intro s s' h he
    simp only [Lib.exec, Option.bind_eq_some_iff] at he
    obtain ⟨t, ht, he⟩ := he
    exact ih (.next h trivial ht) he

theorem Run.exec_allowed {okb : σ → α → Bool} (hok : ∀ s a, okb s a = true → ok s a) {as : List α} :
    ∀ {s s'}, Run step ok init s → allowed step okb as s = true → Lib.exec step as s = some s' →
      Run step ok init s' := by
  induction as with
  | nil => intro s s' h _ he; simp only [Lib.exec, Option.some.injEq] at he; exact he ▸ h
  | cons a as ih =>
    intro s s' h ha he
    simp only [Lib.exec, Option.bind_eq_some_iff] at he
    obtain ⟨t, ht, he⟩ := he
    simp only [allowed, ht, Bool.and_eq_true] at ha
    exact ih (.next h (hok _ _ ha.1) ht) ha.2 he

theorem Trace.exec_allowed {okb : σ → α → Bool} (hok : ∀ s a, okb s a = true → ok s a) {as : List α} :
    ∀ {bs s s'}, Trace step ok init bs s → allowed step okb as s = true → Lib.exec step as s = some s' →
      Trace step ok init (bs ++ as) s' := by
  induction as with
  | nil => intro bs s s' h _ he; simp only [Lib.exec, Option.some.injEq] at he; exact he ▸ bs.append_nil.symm ▸ h
  | cons a as ih =>
    intro bs s s' h ha he
    simp only [Lib.exec, Option.bind_eq_some_iff] at he
    obtain ⟨t, ht, he⟩ := he
    simp only [allowed, ht, Bool.and_eq_true] at ha
    have := ih (.next h (hok _ _ ha.1) ht) ha.2 he
    rwa [List.append_assoc] at this

end Vampire.Lib
