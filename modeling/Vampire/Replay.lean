/-
A run replayed without its disconnects.

An artifact's leader is a task of its own; the client that started it may
leave. A metadata leader is its client's request, and an artifact HEAD has its
permit in its handler: dropped there, they take a fetch, or give back a permit,
that others would have found otherwise. A run in which no client leaves while
its request holds a permit can be replayed with every client staying: it is the
same run without the disconnects, the requests of those clients standing still
where they were left.
-/
import Vampire.Gate

namespace Vampire

namespace Gate

open Lib Proxy

variable {Key Meta : Type}

/-- A client leaves. -/
def Action.leaves : Action Key → Bool
  | .proxy (.disconnect _) | .disconnect _ => true
  | _ => false

/-- No client leaves while its request holds a permit: while it leads a metadata fetch, or waits for upstream. -/
def Keeps (s : Gate Key Meta) : Action Key → Prop
  | .proxy (.disconnect r) => ∀ R f, s.proxy.requests r = some R → R.pc ≠ .leading f
  | .disconnect r => s.asks r ≠ some .exchanging
  | _ => True

theorem Action.stays_keeps {a : Action Key} (h : a.leaves = false) (s : Gate Key Meta) : Keeps s a := by
  cases a with
  | proxy b => cases b <;> trivial
  | disconnect => cases h
  | _ => trivial

/-! ## Requests whose client has stayed -/

/-- Every request of `q` that is not gone is the same in `q'`. -/
def Stayed {β : Type} (gone : β → Prop) (q q' : Nat → Option β) : Prop :=
  ∀ r, q' r = q r ∨ (∃ R, q r = some R ∧ gone R) ∧ q' r ≠ none

section
variable {β : Type} {gone : β → Prop} {q q' : Nat → Option β}

theorem Stayed.refl (gone : β → Prop) (q : Nat → Option β) : Stayed gone q q := fun _ => .inl rfl

theorem Stayed.at (h : Stayed gone q q') {r : Nat} {R : β} (hR : q r = some R) (hg : ¬ gone R) : q' r = some R := by
  obtain he | ⟨⟨Q, hQ, hgone⟩, -⟩ := h r
  · exact he.trans hR
  · cases hR.symm.trans hQ
    exact absurd hgone hg

theorem Stayed.fresh (h : Stayed gone q q') {r : Nat} (hr : q r = none) : q' r = none := by
  obtain he | ⟨⟨Q, hQ, -⟩, -⟩ := h r
  · exact he.trans hr
  · cases hr.symm.trans hQ

theorem Stayed.update (h : Stayed gone q q') (r : Nat) (R : β) :
    Stayed gone (Function.update q r (some R)) (Function.update q' r (some R)) := by
  intro p
  by_cases hp : p = r
  · subst hp
    exact .inl (by simp)
  · simpa only [Function.update_of_ne hp] using h p

/-- A client leaves on the left. -/
theorem Stayed.leave (h : Stayed gone q q') {r : Nat} {R R' : β} (hR : q r = some R) (hg : gone R') :
    Stayed gone (Function.update q r (some R')) q' := by
  intro p
  by_cases hp : p = r
  · subst hp
    refine .inr ⟨⟨R', Function.update_self .., hg⟩, ?_⟩
    obtain he | ⟨-, hne⟩ := h p
    · simp [he, hR]
    · exact hne
  · simpa only [Function.update_of_ne hp] using h p

/-- What was left behind goes on, on the right. -/
theorem Stayed.moved (h : Stayed gone q q') {r : Nat} (hr : ∃ R, q r = some R ∧ gone R) (R : β) :
    Stayed gone q (Function.update q' r (some R)) := by
  intro p
  by_cases hp : p = r
  · subst hp
    exact .inr ⟨hr, by simp⟩
  · simpa only [Function.update_of_ne hp] using h p

end

/-- The request's client has left. -/
def Gone (R : Request Key Meta) : Prop := R.pc = .gone

/-- The client of a request without a flight has left. -/
def AskGone (pc : AskPc Key Meta) : Prop := pc = .gone

/-! ## Every step of the proxy -/

section
variable [DecidableEq Key] [DecidableEq Meta] {up : Nat → Slot Key → Fetched Meta}

omit [DecidableEq Key] in
theorem stayed_answerHost {s : Proxy Key Meta} {q : Nat → Option (Request Key Meta)} (h : Stayed Gone s.requests q)
    (t : TaskId) (T : Task Key Meta) (o : Outcome Meta) :
    Stayed Gone (s.answerHost t T o).requests ({ s with requests := q }.answerHost t T o).requests := by
  cases hh : T.host with
  | none => simpa [answerHost, hh] using h
  | some r =>
    obtain he | ⟨⟨R, hR, hg⟩, hne⟩ := h r
    · cases hR : s.requests r with
      | none => simpa [answerHost, hh, he, hR] using h
      | some R =>
        by_cases hpc : R.pc = .leading t.flight
        · simpa [answerHost, setRequest, hh, he, hR, hpc] using h.update r _
        · simpa [answerHost, hh, he, hR, hpc] using h
    · -- The host has left on the left.
      have hpc : R.pc = .gone := hg
      obtain ⟨R', hR'⟩ := Option.ne_none_iff_exists'.1 hne
      intro p
      by_cases hl : R'.pc = .leading t.flight
      · by_cases hp : p = r
        · subst hp
          exact .inr ⟨⟨R, by simp [answerHost, hh, hR, hpc], hg⟩, by simp [answerHost, setRequest, hh, hR', hl]⟩
        · simpa [answerHost, setRequest, hh, hR, hpc, hR', hl, hp] using h p
      · simpa [answerHost, hh, hR, hpc, hR', hl] using h p

/-- What is no disconnect goes the same way where nobody has left. -/
theorem rule_stayed {s s₁ : Proxy Key Meta} {a : Proxy.Action Key} (hr : Rule up s a s₁)
    (ha : (Action.proxy a).leaves = false) {q : Nat → Option (Request Key Meta)} (h : Stayed Gone s.requests q) :
    ∃ q₁, Rule up { s with requests := q } a { s₁ with requests := q₁ } ∧ Stayed Gone s₁.requests q₁ := by
  have there : ∀ {r R}, s.requests r = some R → R.pc ≠ .gone → q r = some R := fun hR hpc => h.at hR hpc
  cases hr with
  | arrive hn hm => exact ⟨_, .arrive (h.fresh hn) hm, h.update _ _⟩
  | lookupJoin hR hpc hm => exact ⟨_, .lookupJoin (there hR (by simp [hpc])) hpc hm, h.update _ _⟩
  | lookupMiss hR hpc hm hc => exact ⟨_, .lookupMiss (there hR (by simp [hpc])) hpc hm hc, h.update _ _⟩
  | lookupLead hR hpc hm hc => exact ⟨_, .lookupLead (there hR (by simp [hpc])) hpc hm hc, h.update _ _⟩
  | loadHit hR hpc he => exact ⟨_, .loadHit (there hR (by simp [hpc])) hpc he, h.update _ _⟩
  | loadMiss hR hpc he => exact ⟨_, .loadMiss (there hR (by simp [hpc])) hpc he, h.update _ _⟩
  | recheckJoin hR hpc hm => exact ⟨_, .recheckJoin (there hR (by simp [hpc])) hpc hm, h.update _ _⟩
  | recheckLead hR hpc hm => exact ⟨_, .recheckLead (there hR (by simp [hpc])) hpc hm, h.update _ _⟩
  | @refuse r R hR hm hc =>
    have hpc : R.pc ≠ .gone := by obtain hpc | ⟨hpc, -⟩ := hc <;> simp [hpc]
    exact ⟨_, .refuse (there hR hpc) hm hc, h.update _ _⟩
  | awaitCached hR hpc hF ho hc => exact ⟨_, .awaitCached (there hR (by simp [hpc])) hpc hF ho hc, h.update _ _⟩
  | awaitReply hR hpc hF ho hn => exact ⟨_, .awaitReply (there hR (by simp [hpc])) hpc hF ho hn, h.update _ _⟩
  | serve hR hpc he => exact ⟨_, .serve (there hR (by simp [hpc])) hpc he, h.update _ _⟩
  | serveMissing hR hpc he => exact ⟨_, .serveMissing (there hR (by simp [hpc])) hpc he, h.update _ _⟩
  | disconnectLeader | disconnect => cases ha
  | send hT hpc => exact ⟨q, .send hT hpc, h⟩
  | answer hT hpc hc hn => exact ⟨q, .answer hT hpc hc hn, h⟩
  | answerNonOk hT hpc hc hu => exact ⟨q, .answerNonOk hT hpc hc hu, h⟩
  | answerMetadata hT hpc hc hu => exact ⟨q, .answerMetadata hT hpc hc hu, h⟩
  | file hT hn => exact ⟨q, .file hT hn, h⟩
  | rename hT hpc hu => exact ⟨q, .rename hT hpc hu, h⟩
  | failArtifact hT hu hf hc => exact ⟨q, .failArtifact hT hu hf hc, h⟩
  | failMetadata hT hu hf hc => exact ⟨q, .failMetadata hT hu hf hc, h⟩
  | unlink hT hpc => exact ⟨q, .unlink hT hpc, h⟩
  | settle hT hpc => exact ⟨q, .settle hT hpc, h⟩
  | @finish t T o hT hpc =>
    have hs : Stayed Gone
        ({ s with map := Function.update s.map T.slot none }.setTask t { T with pc := .done }).requests q := h
    exact ⟨_, .finish hT hpc, stayed_answerHost hs t T o⟩
  | drop hT hc hl => exact ⟨q, .drop hT hc hl, h⟩
  | cleanUnlink hT hpc => exact ⟨q, .cleanUnlink hT hpc, h⟩
  | cleanFail hT hpc => exact ⟨q, .cleanFail hT hpc, h⟩
  | cleanFinish hT hpc => exact ⟨q, .cleanFinish hT hpc, h⟩
  | land he hs => exact ⟨q, .land he hs, h⟩
  | tear he hs => exact ⟨q, .tear he hs, h⟩
  | evict he => exact ⟨q, .evict he, h⟩

end

/-! ## Every step -/

/-- The state with other requests. -/
def served (s : Gate Key Meta) (q : Nat → Option (Request Key Meta)) (k : Nat → Option (AskPc Key Meta)) :
    Gate Key Meta :=
  { s with proxy := { s.proxy with requests := q }, asks := k }

variable [DecidableEq Key] [DecidableEq Meta] {up : Nat → Slot Key → Fetched Meta} {ask : Nat → Reply Meta}
variable {s s₁ : Gate Key Meta} {a : Action Key} {q : Nat → Option (Request Key Meta)}
  {k : Nat → Option (AskPc Key Meta)}

omit [DecidableEq Key] [DecidableEq Meta] in
theorem takePermit_served {b : Proxy.Action Key} {p : Proxy Key Meta} (h : s.takePermit b p = some s₁)
    (q₁ : Nat → Option (Request Key Meta)) :
    (s.served q k).takePermit b { p with requests := q₁ } = some (s₁.served q₁ k) := by
  simp only [takePermit] at h ⊢
  split at h
  · next hb =>
    split at h <;> cases h
    next h0 => simp [served, hb, h0]
  · next hb =>
    split at h
    · next hn => cases h; simp [served, hb, hn]
    · next hn =>
      split at h <;> cases h
      next h0 => simp [served, hb, hn, h0]

/-- What is no disconnect goes the same way where nobody has left. -/
theorem step_stayed (h : step up ask a s = some s₁) (ha : a.leaves = false) (hq : Stayed Gone s.proxy.requests q)
    (hk : Stayed AskGone s.asks k) : ∃ q₁ k₁, step up ask a (s.served q k) = some (s₁.served q₁ k₁) ∧
      Stayed Gone s₁.proxy.requests q₁ ∧ Stayed AskGone s₁.asks k₁ := by
  have there : ∀ {r pc}, s.asks r = some pc → pc ≠ .gone → (s.served q k).asks r = some pc := fun hr hpc => hk.at hr hpc
  cases a with
  | proxy b =>
    obtain ⟨p, hp, had⟩ := Option.bind_eq_some_iff.1 h
    obtain ⟨q₁, hr, hq₁⟩ := rule_stayed (step_rule hp) ha hq
    obtain ⟨hs, hasks⟩ := takePermit_proxy had
    have hp' : Proxy.step up b (s.served q k).proxy = some { p with requests := q₁ } := hr.step
    refine ⟨q₁, k, ?_, hs ▸ hq₁, hasks ▸ hk⟩
    simp only [step, hp', Option.bind_some]
    exact takePermit_served had q₁
  | release f =>
    simp only [step] at h
    split at h <;> cases h
    next hd =>
    have hd' : (s.served q k).held f = true ∧ ((s.served q k).proxy.tasks (.leader f)).any (·.pc = .done) = true := hd
    exact ⟨q, k, if_pos hd', hq, hk⟩
  | arrive r key =>
    simp only [step] at h
    split at h
    · next hn =>
      have hn' : (s.served q k).asks r = none := hk.fresh hn
      split at h <;> cases h
      · exact ⟨q, _, by simp only [step, hn', if_true]; rfl, hq, hk.update _ _⟩
      · exact ⟨q, _, by simp only [step, hn', if_true]; rfl, hq, hk.update _ _⟩
    · cases h
  | load r =>
    simp only [step] at h
    split at h
    · next key hr =>
      have hr' := there hr (by simp)
      split at h <;> cases h
      · next e he =>
        have he' : (s.served q k).proxy.stored key = some e := he
        exact ⟨q, _, by simp only [step, hr', he']; rfl, hq, hk.update _ _⟩
      · next he =>
        have he' : (s.served q k).proxy.stored key = none := he
        exact ⟨q, _, by simp only [step, hr', he']; rfl, hq, hk.update _ _⟩
    · cases h
  | acquire r =>
    simp only [step] at h
    split at h
    · next hr =>
      have hr' := there hr (by simp)
      split at h <;> cases h
      · next h0 =>
        have h0' : (s.served q k).available = 0 := h0
        exact ⟨q, _, by simp only [step, hr', h0', if_true]; rfl, hq, hk.update _ _⟩
      · next h0 =>
        have h0' : ¬ (s.served q k).available = 0 := h0
        exact ⟨q, _, by simp only [step, hr', h0', if_false]; rfl, hq, hk.update _ _⟩
    · cases h
  | answer r =>
    simp only [step] at h
    split at h <;> cases h
    next hr =>
    have hr' := there hr (by simp)
    exact ⟨q, _, by simp only [step, hr']; rfl, hq, hk.update _ _⟩
  | disconnect r => cases ha

/-- A disconnect moves nothing but its own request. -/
theorem step_left (h : step up ask a s = some s₁) (ha : a.leaves = true) (hS : Keeps s a)
    (hq : Stayed Gone s.proxy.requests q) (hk : Stayed AskGone s.asks k) :
    s₁.served q k = s.served q k ∧ Stayed Gone s₁.proxy.requests q ∧ Stayed AskGone s₁.asks k := by
  cases a with
  | proxy b =>
    obtain ⟨p, hp, had⟩ := Option.bind_eq_some_iff.1 h
    cases b with
    | disconnect r =>
      cases step_rule hp with
      | disconnectLeader hR hpc => exact absurd hpc (hS _ _ hR)
      | @disconnect _ R hR =>
        obtain rfl : { s with proxy := s.proxy.setRequest r { R with pc := .gone } } = s₁ := by
          simpa [takePermit, Proxy.Action.refuses, setRequest] using had
        exact ⟨rfl, hq.leave hR rfl, hk⟩
    | _ => cases ha
  | disconnect r =>
    simp only [step] at h
    split at h <;> cases h
    · next hr => exact absurd hr hS
    · next hr => exact ⟨rfl, hq, hk.leave hr rfl⟩
    · next hr => exact ⟨rfl, hq, hk.leave hr rfl⟩
  | _ => cases ha

/-! ## Every run -/

/-- The run without its disconnects is a run. -/
theorem trace_stayed {s₀ : Gate Key Meta} {as : List (Action Key)}
    (h : Trace (step up ask) Keeps (· = s₀) as s) : ∃ q k,
      Trace (step up ask) (fun _ a => a.leaves = false) (· = s₀) (as.filter (!·.leaves)) (s.served q k) ∧
      Stayed Gone s.proxy.requests q ∧ Stayed AskGone s.asks k := by
  induction h with
  | start h => exact ⟨_, _, .start h, .refl _ _, .refl _ _⟩
  | @next as s a s₁ h hS hst ih =>
    obtain ⟨q, k, h', hq, hk⟩ := ih
    cases ha : a.leaves with
    | true =>
      obtain ⟨he, hq₁, hk₁⟩ := step_left hst ha hS hq hk
      refine ⟨q, k, ?_, hq₁, hk₁⟩
      simpa [ha, he] using h'
    | false =>
      obtain ⟨q₁, k₁, hst', hq₁, hk₁⟩ := step_stayed hst ha hq hk
      refine ⟨q₁, k₁, ?_, hq₁, hk₁⟩
      simpa [ha] using h'.next ha hst'

end Gate

end Vampire
