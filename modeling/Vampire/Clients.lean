/-
What the clients of other requests can do to a request: nothing, as long as
no client leaves while its request holds an upstream permit.

A metadata leader dropped before it settles takes the fetch with it, and
everybody who joined is told so (`cancelled_for_all`). An artifact HEAD dropped
while it waits for upstream gives its permit back early, and a request that
would have been refused is not. Any other disconnect changes nothing for anybody
else (`Vampire.Replay`), and who stays is answered (`Vampire.Progress`).

What the requests on one flight get is its outcome, and for an artifact the
entry of its own fetch, as long as nobody removes or replaces the entry
before they have read it (`Vampire.Handoff` and `Vampire.Lookup` have the
ways that can happen). Who leaves gives back a token, and lets an entry go that
it would have kept; had it stayed, it would have read the entry first
(`trace_patient`).
-/
import Vampire.Progress

namespace Vampire

variable {Key Meta : Type}

/-- What the requests on a flight get: its outcome, and the entry its fetch made for an artifact. -/
def Outcome.result (x : Fetched Meta) (cls : Class) (o : Outcome Meta) : Reply Meta :=
  match cls, o, x with
  | .artifact, .cached, .ok info body => .entry info (some body)
  | _, o, _ => o.reply

theorem Outcome.result_reply {x : Fetched Meta} {cls : Class} {o : Outcome Meta}
    (h : ¬ (o = .cached ∧ cls = .artifact)) : Outcome.result x cls o = o.reply := by
  unfold Outcome.result
  split
  · exact absurd ⟨rfl, rfl⟩ h
  · rfl

namespace Proxy

open Lib

variable [DecidableEq Key] [DecidableEq Meta] {up : Nat → Slot Key → Fetched Meta}

/-! ## One flight, one result -/

/-- The flight's publication token is held: its leader has renamed, or its outcome is `Cached` and it is in the
map, waited on or read from. -/
inductive Pinned (s : Proxy Key Meta) (f : Nat) (key : Key) : Prop
  | leader {T} : s.tasks (.leader f) = some T → T.slot = ⟨.artifact, key⟩ → T.pc = .settling .cached → Pinned s f key
  | map {F} : s.map ⟨.artifact, key⟩ = some f → s.flights f = some F → F.outcome = some .cached → Pinned s f key
  | waiter {r R F} : s.requests r = some R → R.slot = ⟨.artifact, key⟩ → R.pc = .waiting f → s.flights f = some F →
      F.outcome = some .cached → Pinned s f key
  | reader {r R} : s.requests r = some R → R.slot = ⟨.artifact, key⟩ → R.pc = .serving f → Pinned s f key

/-- A rename finds its last bytes written; no entry is replaced or evicted while a flight of its key is pinned. -/
def Spared (s : Proxy Key Meta) : Action Key → Prop
  | .rename t landed => landed = true ∧ ∀ T, s.tasks t = some T → ∀ f, ¬ Pinned s f T.slot.key
  | .evict key => ∀ f, ¬ Pinned s f key
  | _ => True

/-- Where a task stands and what its flight has come to. -/
structure Tracked (s : Proxy Key Meta) : Prop where
  finishing : ∀ {t T o}, s.tasks t = some T → T.pc = .finishing o →
    ∃ F, s.flights t.flight = some F ∧ F.outcome = some o
  leads : ∀ {t T}, s.tasks t = some T → T.pc.leads = true → T.pc.removes = false →
    ∃ F, s.flights t.flight = some F ∧ F.outcome = none
  unlinking : ∀ {t T}, s.tasks t = some T → T.pc ≠ .unlinking .cached
  settling : ∀ {t T}, s.tasks t = some T → T.pc = .settling .cached → T.slot.cls = .artifact

theorem Rule.tracked {s s' : Proxy Key Meta} {a : Action Key} (hr : Rule up s a s') (hO : Owned s) (hk : Kinds s)
    (h : Tracked s) : Tracked s' := by
  refine ⟨?_, ?_, ?_, ?_⟩
  · intro t T o hT hpc
    have ht := hr.task t
    rw [hT] at ht
    have kept : (∃ F, s.flights t.flight = some F ∧ F.outcome = some o) →
        ∃ F, s'.flights t.flight = some F ∧ F.outcome = some o := by
      rintro ⟨F, hF, ho⟩
      obtain ⟨F', hF', -, ho'⟩ := hr.flight_kept hO hF
      exact ⟨F', hF', ho' o ho⟩
    generalize hold : s.tasks t = old at ht
    cases ht with
    | stays => exact kept (h.finishing hold hpc)
    | starts => simp at hpc
    | @spawned _ u U => cases hc : U.slot.cls <;> simp [hc, Class.cleanup] at hpc
    | goes hg =>
      cases hg with
      | settle hset he =>
        obtain rfl : _ = o := by simpa using hpc
        obtain ⟨F, hF, ho⟩ := h.leads hold (by rw [hset]; rfl) (by rw [hset]; rfl)
        rw [he]
        exact ⟨{ F with outcome := some _ }, by simp [setTask, complete_flights, hF, ho], rfl⟩
      | file hn => simp only at hpc; subst hpc; cases (Pc.nextFile_fetches hn).2
      | send | answer | nonOk | response | rename | failArtifact | failMetadata | unlink | finish | drop | cleanUnlink
      | cleanFail | cleanFinish => simp at hpc
  · intro t T hT hl hrem
    have ht := hr.task t
    rw [hT] at ht
    -- A new outcome is this task's own doing, which then stands at its `finish_inflight`.
    have go : ∀ {U : Task Key Meta}, s.tasks t = some U → U.pc.leads = true → U.pc.removes = false →
        ∃ F, s'.flights t.flight = some F ∧ F.outcome = none := by
      intro U hU hUl hUr
      obtain ⟨F, hF, ho⟩ := h.leads hU hUl hUr
      obtain ⟨F', hF', -, -⟩ := hr.flight_kept hO hF
      refine ⟨F', hF', ?_⟩
      by_contra hne
      obtain ⟨o, ho'⟩ := Option.ne_none_iff_exists'.1 hne
      obtain ⟨F₀, hF₀, -, ho₀⟩ | ⟨v, V, hv, hvf, hV⟩ := hr.outcome_new hF' ho'
      · cases hF.symm.trans hF₀
        simp [ho] at ho₀
      · have hVd : V.pc ≠ .done := by obtain ⟨hp, -⟩ | ⟨hp, -⟩ := hV <;> simp [hp]
        obtain rfl := hO.alone hv hU hVd (Pc.leads_live hUl) hvf
        obtain ⟨-, hv'⟩ | ⟨-, -, hv'⟩ := hV
        · cases hT.symm.trans hv'
          cases hrem
        · cases hT.symm.trans hv'
          cases hl
    generalize hold : s.tasks t = old at ht
    cases ht with
    | stays => exact go hold hl hrem
    | starts he _ hF => subst he; exact ⟨_, hF, rfl⟩
    | @spawned _ u U => cases hc : U.slot.cls <;> simp [hc, Class.cleanup, Pc.leads] at hl
    | goes hg =>
      cases hg with
      | send hpc | answer hpc | nonOk hpc | response hpc | rename hpc | unlink hpc =>
        exact go hold (hpc ▸ rfl) (hpc ▸ rfl)
      | file hn =>
        have hf := (Pc.nextFile_fetches hn).1
        exact go hold (Pc.fetches_leads hf) (Pc.fetches_stays hf)
      | failArtifact hf | failMetadata hf => exact go hold (Pc.fetches_leads hf) (Pc.fetches_stays hf)
      | settle => cases hrem
      | finish | drop | cleanUnlink | cleanFail | cleanFinish => cases hl
  · intro t T hT hpc
    have ht := hr.task t
    rw [hT] at ht
    generalize hold : s.tasks t = old at ht
    cases ht with
    | stays => exact h.unlinking hold hpc
    | starts => simp at hpc
    | @spawned _ u U => cases hc : U.slot.cls <;> simp [hc, Class.cleanup] at hpc
    | goes hg =>
      cases hg with
      | file hn => simp only at hpc; subst hpc; cases (Pc.nextFile_fetches hn).2
      | send | answer | nonOk | response | rename | failArtifact | failMetadata | unlink | settle | finish | drop
      | cleanUnlink | cleanFail | cleanFinish => simp at hpc
  · intro t T hT hpc
    have ht := hr.task t
    rw [hT] at ht
    generalize hold : s.tasks t = old at ht
    cases ht with
    | stays => exact h.settling hold hpc
    | starts => simp at hpc
    | @spawned _ u U => cases hc : U.slot.cls <;> simp [hc, Class.cleanup] at hpc
    | goes hg =>
      cases hg with
      | rename hren => exact (hk.files hold (hren ▸ rfl) :)
      | unlink hun =>
        obtain rfl : _ = Outcome.cached := by simpa using hpc
        exact absurd hun (h.unlinking hold)
      | file hn => simp only at hpc; subst hpc; cases (Pc.nextFile_fetches hn).2
      | send | answer | nonOk | response | failArtifact | failMetadata | settle | finish | drop | cleanUnlink
      | cleanFail | cleanFinish => simp at hpc

/-- A pin is old, or its leader's rename. -/
theorem Rule.pinned {s s' : Proxy Key Meta} {a : Action Key} (hr : Rule up s a s') (hO : Owned s) (hj : Joined s)
    (ht : Tracked s) {f : Nat} {key : Key} (h : Pinned s' f key) : Pinned s f key ∨
      ∃ info body state, up f ⟨.artifact, key⟩ = .ok info body ∧ state ≠ .torn ∧
        s'.disk key = some ⟨info, body, state⟩ := by
  -- An outcome that is new is its leader's.
  have new : ∀ {F F₁ : Flight Key Meta}, s'.flights f = some F → F.outcome = some .cached →
      s.flights f = some F₁ → F₁.slot = ⟨.artifact, key⟩ →
      (s.flights f = some F₁ ∧ F₁.outcome = some .cached) ∨ Pinned s f key := by
    intro F F₁ hF ho hF₁ hs₁
    obtain ⟨F₀, hF₀, -, ho₀⟩ | ⟨t, T, hT, rfl, hnew⟩ := hr.outcome_new hF ho
    · cases hF₁.symm.trans hF₀
      exact .inl ⟨hF₀, ho₀⟩
    · obtain ⟨F₂, hF₂, hs₂⟩ := hO.flight hT
      cases hF₁.symm.trans hF₂
      obtain ⟨hpc, -⟩ | ⟨-, ho, -⟩ := hnew
      · cases t with
        | leader g => exact .inr (.leader hT (hs₂.symm.trans hs₁) hpc)
        | cleanup g => exact absurd (hO.leads hT) (by simp [hpc, Pc.leads])
      · cases hc : T.slot.cls <;> simp [hc, cancelled] at ho
  cases h with
  | leader hT hs hpc =>
    have htask := hr.task (.leader f)
    rw [hT] at htask
    generalize hold : s.tasks (.leader f) = old at htask
    cases htask with
    | stays => exact .inl (.leader hold hs hpc)
    | starts => simp at hpc
    | spawned he => cases he
    | goes hg =>
      cases hg with
      | rename _ hu hst hd =>
        have hs' : _ = Slot.mk Class.artifact key := hs
        rw [hs'] at hu hd
        exact .inr ⟨_, _, _, hu, hst, hd⟩
      | unlink hun =>
        obtain rfl : _ = Outcome.cached := by simpa using hpc
        exact absurd hun (ht.unlinking hold)
      | file hn => simp only at hpc; subst hpc; cases (Pc.nextFile_fetches hn).2
      | send | answer | nonOk | response | failArtifact | failMetadata | settle | finish | drop | cleanUnlink
      | cleanFail | cleanFinish => simp at hpc
  | map hm hF ho =>
    obtain hm | hF' := hr.map_some hm
    · obtain ⟨F₁, hF₁, hs₁⟩ := hO.entry hm
      obtain ⟨hF₀, ho₀⟩ | hp := new hF ho hF₁ hs₁
      · exact .inl (.map hm hF₀ ho₀)
      · exact .inl hp
    · cases hF.symm.trans hF'
      cases ho
  | waiter hR hs hpc hF ho =>
    cases hr.turn hR with
    | stays hR =>
      obtain ⟨F₁, hF₁, hs₁⟩ := hj hR (.inl hpc)
      obtain ⟨hF₀, ho₀⟩ | hp := new hF ho hF₁ (hs₁.trans hs)
      · exact .inl (.waiter hR hs hpc hF₀ ho₀)
      · exact .inl hp
    | arrives => simp at hpc
    | moves hQ hmv =>
      cases hmv with
      | join _ hm =>
        obtain rfl : _ = f := by simpa using hpc
        have hs' : _ = Slot.mk Class.artifact key := hs
        rw [hs'] at hm
        obtain ⟨F₁, hF₁, hs₁⟩ := hO.entry hm
        obtain ⟨hF₀, ho₀⟩ | hp := new hF ho hF₁ hs₁
        · exact .inl (.map hm hF₀ ho₀)
        · exact .inl hp
      | launch _ _ hF' =>
        obtain rfl : _ = f := by simpa using hpc
        cases hF.symm.trans hF'
        cases ho
      | miss | lead | hit | absent | refuse | cached | reply | serve | missing | hosted | gone => simp at hpc
  | reader hR hs hpc =>
    cases hr.turn hR with
    | stays hR => exact .inl (.reader hR hs hpc)
    | arrives => simp at hpc
    | moves hQ hmv =>
      cases hmv with
      | cached hw hF ho =>
        obtain rfl : _ = f := by simpa using hpc
        exact .inl (.waiter hQ hs hw hF ho)
      | join | miss | lead | hit | absent | launch | refuse | reply | serve | missing | hosted | gone => simp at hpc

structure Served (up : Nat → Slot Key → Fetched Meta) (s : Proxy Key Meta) : Prop where
  method : ∀ {r R}, s.requests r = some R → R.slot.cls = .artifact → R.method = .get
  serving : ∀ {r R f}, s.requests r = some R → R.pc = .serving f → R.slot.cls = .artifact ∧
    ∃ F, s.flights f = some F ∧ F.slot = R.slot ∧ F.outcome = some .cached
  entry : ∀ {f key}, Pinned s f key →
    ∃ info body, up f ⟨.artifact, key⟩ = .ok info body ∧ s.disk key = some ⟨info, body, .whole⟩
  answered : ∀ {r R f a}, s.requests r = some R → R.pc = .answered a (some f) → ∃ F o, s.flights f = some F ∧
    F.slot = R.slot ∧ F.outcome = some o ∧ a = (Outcome.result (up f F.slot) F.slot.cls o).sent R.method

/-- A pinned entry stays, and is its own fetch's. -/
theorem Rule.entry_kept {s s' : Proxy Key Meta} {a : Action Key} (hr : Rule up s a s') (hc : Spared s a) {f : Nat}
    {key : Key} {e : CacheEntry Meta} (hp : Pinned s f key) (he : s.disk key = some e) (hw : e.state = .whole) :
    s'.disk key = some e := by
  have hd := hr.disk
  generalize s'.disk = disk at hd
  cases hd with
  | stays => exact he
  | rename ht => exact (Function.update_of_ne (by rintro rfl; exact hc.2 _ ht f hp) ..).trans he
  | land he' hs | tear he' hs =>
    refine (Function.update_of_ne ?_ ..).trans he
    rintro rfl
    cases he.symm.trans he'
    simp [hw] at hs
  | evict => exact (Function.update_of_ne (by rintro rfl; exact hc f hp) ..).trans he

theorem Rule.served {s s' : Proxy Key Meta} {a : Action Key} (hr : Rule up s a s') (hO : Owned s) (hj : Joined s)
    (hk : Kinds s) (hH : Hosted s) (ht : Tracked s) (hst : Still s') (hc : Spared s a) (h : Served up s) :
    Served up s' := by
  refine ⟨?_, ?_, ?_, ?_⟩
  · intro r R hR hcls
    cases hr.turn hR with
    | stays hR => exact h.method hR hcls
    | arrives _ hm => exact hm hcls
    | moves hQ => exact (h.method hQ hcls :)
  · intro r R f hR hpc
    have kept : (∃ F, s.flights f = some F ∧ F.slot = R.slot ∧ F.outcome = some .cached) →
        ∃ F, s'.flights f = some F ∧ F.slot = R.slot ∧ F.outcome = some .cached := by
      rintro ⟨F, hF, hs, ho⟩
      obtain ⟨F', hF', hs', ho'⟩ := hr.flight_kept hO hF
      exact ⟨F', hF', hs'.trans hs, ho' _ ho⟩
    cases hr.turn hR with
    | stays hR => exact ⟨(h.serving hR hpc).1, kept (h.serving hR hpc).2⟩
    | arrives => simp at hpc
    | moves hQ hm =>
      cases hm with
      | cached hw hF ho hcls =>
        obtain rfl : _ = f := by simpa using hpc
        obtain ⟨F', hF', hs'⟩ := hj hQ (.inl hw)
        cases hF.symm.trans hF'
        exact ⟨hcls, kept ⟨_, hF, hs', ho⟩⟩
      | join | miss | lead | hit | absent | launch | refuse | reply | serve | missing | hosted | gone => simp at hpc
  · intro f key hp
    obtain hp | ⟨info, body, state, hu, hst', hd⟩ := hr.pinned hO hj ht hp
    · obtain ⟨info, body, hu, hd⟩ := h.entry hp
      exact ⟨info, body, hu, hr.entry_kept hc hp hd rfl⟩
    · cases state with
      | whole => exact ⟨info, body, hu, hd⟩
      | landing => exact absurd rfl (hst hd)
      | torn => exact absurd rfl hst'
  · intro r R f a hR hpc
    -- It is enough to have the outcome before the step.
    have kept : (∃ F o, s.flights f = some F ∧ F.slot = R.slot ∧ F.outcome = some o ∧
        a = (Outcome.result (up f F.slot) F.slot.cls o).sent R.method) →
        ∃ F o, s'.flights f = some F ∧ F.slot = R.slot ∧ F.outcome = some o ∧
          a = (Outcome.result (up f F.slot) F.slot.cls o).sent R.method := by
      rintro ⟨F, o, hF, hs, ho, ha⟩
      obtain ⟨F', hF', hs', ho'⟩ := hr.flight_kept hO hF
      exact ⟨F', o, hF', hs'.trans hs, ho' _ ho, by rw [hs', ha]⟩
    cases hr.turn hR with
    | stays hR => exact kept (h.answered hR hpc)
    | arrives => simp at hpc
    | @moves Q _ hQ hm =>
      cases hm with
      | reply hw hF ho hn =>
        simp only [ReqPc.answered.injEq, Option.some.injEq] at hpc
        obtain ⟨rfl, rfl⟩ := hpc
        obtain ⟨F', hF', hs'⟩ := hj hQ (.inl hw)
        cases hF.symm.trans hF'
        exact kept ⟨_, _, hF, hs', ho, by rw [hs', Outcome.result_reply hn]⟩
      | serve hw he =>
        simp only [ReqPc.answered.injEq, Option.some.injEq] at hpc
        obtain ⟨rfl, rfl⟩ := hpc
        obtain ⟨hcls, F, hF, hs, ho⟩ := h.serving hQ hw
        have hslot : Q.slot = ⟨.artifact, Q.slot.key⟩ := by cases hQs : Q.slot; simp_all
        obtain ⟨info, body, hu, hd⟩ := h.entry (.reader hQ hslot hw)
        obtain ⟨rfl, -⟩ : CacheEntry.mk info body .whole = _ ∧ _ := by simpa [stored, hd] using he
        refine kept ⟨F, _, hF, hs, ho, ?_⟩
        rw [hs, hslot, hu, show Q.method = .get from h.method hQ hcls]
        rfl
      | missing hw he =>
        obtain ⟨hcls, -⟩ := h.serving hQ hw
        have hslot : Q.slot = ⟨.artifact, Q.slot.key⟩ := by cases hQs : Q.slot; simp_all
        obtain ⟨info, body, -, hd⟩ := h.entry (.reader hQ hslot hw)
        simp [stored, hd] at he
      | @hosted t T o hl hT hfin hh =>
        simp only [ReqPc.answered.injEq, Option.some.injEq] at hpc
        obtain ⟨rfl, rfl⟩ := hpc
        obtain ⟨F, hF, ho⟩ := ht.finishing hT hfin
        obtain ⟨L, hL, -, hLs⟩ := hH hQ hl
        obtain ⟨F', hF', hs'⟩ := hO.flight hL
        cases hF.symm.trans hF'
        have hcls : F.slot.cls = .metadata := by rw [hs', hLs]; exact hk.leading hQ hl
        exact kept ⟨F, o, hF, hs'.trans hLs, ho, by rw [Outcome.result_reply (by simp [hcls])]⟩
      | join | miss | lead | hit | absent | launch | refuse | cached | gone => simp at hpc

/-! ## Every run -/

/-- What holds of every run whose entries are spared. -/
structure Fair (up : Nat → Slot Key → Fetched Meta) (s : Proxy Key Meta) : Prop where
  still : Still s
  tracked : Tracked s
  served : Served up s

theorem Run.fair {ok : Proxy Key Meta → Action Key → Prop} (hok : ∀ s a, ok s a → Spared s a) {s : Proxy Key Meta}
    (h : Run (step up) ok Started s) : Fair up s := by
  refine h.invariant_of (Sound up) (Fair up) Run.sound ?_ ?_
  · rintro _ ⟨disk, hdisk, rfl⟩
    refine ⟨fun he => hdisk _ _ he, ?_, by simp, by simp, fun hp => by cases hp <;> contradiction, by simp⟩
    constructor <;> simp
  · rintro s a s' hs - hF ha hst
    have hr := step_rule hst
    have hS := hok s a ha
    have hstill : Still s' := hr.still (by rintro t landed rfl; exact hS.1) hF.still
    exact ⟨hstill, hr.tracked hs.owned hs.kinds hF.tracked,
      hr.served hs.owned hs.joined hs.kinds hs.hosted hF.tracked hstill hS hF.served⟩

omit [DecidableEq Key] [DecidableEq Meta] in
/-- The requests answered from one flight have one result, sent by their methods. -/
theorem Fair.one_result {s : Proxy Key Meta} (hF : Fair up s) (f : Nat) :
    ∃ result : Reply Meta, ∀ r R a, s.requests r = some R → R.pc = .answered a (some f) → a = result.sent R.method := by
  by_cases h : ∃ F o, s.flights f = some F ∧ F.outcome = some o
  · obtain ⟨F, o, hfl, ho⟩ := h
    refine ⟨Outcome.result (up f F.slot) F.slot.cls o, fun r R a hR hpc => ?_⟩
    obtain ⟨F', o', hF', -, ho', ha⟩ := hF.served.answered hR hpc
    cases hfl.symm.trans hF'
    cases ho.symm.trans ho'
    exact ha
  · refine ⟨.text 0 none, fun r R a hR hpc => ?_⟩
    obtain ⟨F, o, hfl, -, ho, -⟩ := hF.served.answered hR hpc
    exact absurd ⟨F, o, hfl, ho⟩ h

end Proxy

namespace Gate

open Lib Proxy

variable [DecidableEq Key] [DecidableEq Meta] {up : Nat → Slot Key → Fetched Meta} {ask : Nat → Reply Meta}

/-! ## The tokens of those who have left -/

/-- The request has a token on the key: its flight has come to `Cached`, or it reads the entry. -/
def Holds (p : Proxy Key Meta) (key : Key) (R : Request Key Meta) : Prop :=
  R.slot = ⟨.artifact, key⟩ ∧ ∃ f, R.pc = .serving f ∨
    R.pc = .waiting f ∧ ∃ F, p.flights f = some F ∧ F.outcome = some .cached

omit [DecidableEq Key] [DecidableEq Meta] in
theorem not_holds {p : Proxy Key Meta} {key : Key} (h : ∀ f, ¬ Pinned p f key) {r : Nat} {R : Request Key Meta}
    (hR : p.requests r = some R) : ¬ Holds p key R := by
  rintro ⟨hs, f, hpc | ⟨hpc, F, hF, ho⟩⟩
  · exact h f (.reader hR hs hpc)
  · exact h f (.waiter hR hs hpc hF ho)

omit [DecidableEq Key] [DecidableEq Meta] in
theorem not_holds_answered {p : Proxy Key Meta} {key : Key} {R : Request Key Meta} {a : Reply Meta} {f : Option Nat} :
    ¬ Holds p key { R with pc := .answered a f } := by
  rintro ⟨-, g, hpc⟩
  simp at hpc

omit [DecidableEq Key] [DecidableEq Meta] in
/-- With other requests an entry is pinned by its flight still, or by one of them. -/
theorem pinned_requests {p : Proxy Key Meta} {q : Nat → Option (Request Key Meta)} {f : Nat} {key : Key}
    (h : Pinned { p with requests := q } f key) : Pinned p f key ∨ ∃ r R, q r = some R ∧ Holds p key R := by
  cases h with
  | leader hT hs hpc => exact .inl (.leader hT hs hpc)
  | map hm hF ho => exact .inl (.map hm hF ho)
  | waiter hR hs hpc hF ho => exact .inr ⟨_, _, hR, hs, f, .inr ⟨hpc, _, hF, ho⟩⟩
  | reader hR hs hpc => exact .inr ⟨_, _, hR, hs, f, .inl hpc⟩

/-- What a request does with its flight's outcome, and a client's leaving. -/
def Action.reads : Action Key → Bool
  | .proxy (.await _) | .proxy (.serve _) => true
  | a => a.leaves

omit [DecidableEq Key] in
theorem Action.leaves_reads {a : Action Key} (h : a.leaves = true) : a.reads = true := by
  cases a with
  | proxy b => cases b <;> first | rfl | exact h
  | _ => exact h

/-- No client leaves, and no pinned entry goes. -/
def Patient (s : Gate Key Meta) (a : Action Key) : Prop := a.leaves = false ∧ Allows Spared s a

/-- No client leaves while its request holds a permit, and no pinned entry goes. -/
def Calm (s : Gate Key Meta) (a : Action Key) : Prop := Keeps s a ∧ Allows Spared s a

section
variable {s s₀ : Gate Key Meta} {q : Nat → Option (Request Key Meta)} {k : Nat → Option (AskPc Key Meta)} {key : Key}
  {as : List (Action Key)}

/-- A request that reads its entry is answered. -/
theorem read_step (up : Nat → Slot Key → Fetched Meta) (ask : Nat → Reply Meta) (s : Gate Key Meta)
    (k : Nat → Option (AskPc Key Meta)) {r : Nat} {R : Request Key Meta} {f : Nat} (hR : q r = some R)
    (hpc : R.pc = .serving f) : ∃ a, step up ask (.proxy (.serve r)) (s.served q k) =
      some (s.served (Function.update q r (some { R with pc := .answered a (some f) })) k) := by
  have hR' : (s.served q k).proxy.requests r = some R := hR
  cases he : (s.served q k).proxy.stored R.slot.key with
  | some e => exact ⟨_, step_of_rule (.serve hR' hpc he) rfl rfl⟩
  | none => exact ⟨_, step_of_rule (.serveMissing hR' hpc he) rfl rfl⟩

/-- A request that was left behind gives back its token. -/
theorem give_back (hq : Stayed Gone s.proxy.requests q)
    (hp : ∀ r R, s.proxy.requests r = some R → ¬ Holds s.proxy key R)
    (ht : Trace (step up ask) Patient (· = s₀) as (s.served q k)) (r : Nat) :
    ∃ bs q', (∀ b ∈ bs, b.reads = true) ∧ Trace (step up ask) Patient (· = s₀) (as ++ bs) (s.served q' k) ∧
      Stayed Gone s.proxy.requests q' ∧ (∀ p, p ≠ r → q' p = q p) ∧ ∀ R, q' r = some R → ¬ Holds s.proxy key R := by
  by_cases hR : ∃ R, q r = some R ∧ Holds s.proxy key R
  · obtain ⟨R, hR, hs, f, hh⟩ := hR
    have hgone : ∃ Q, s.proxy.requests r = some Q ∧ Gone Q := by
      obtain he | ⟨hg, -⟩ := hq r
      · exact absurd ⟨hs, f, hh⟩ (hp r R (he.symm.trans hR))
      · exact hg
    obtain hpc | ⟨hpc, F, hF, ho⟩ := hh
    · obtain ⟨a, hst⟩ := read_step up ask s k hR hpc
      refine ⟨[.proxy (.serve r)], _, by simp [Action.reads], ht.next ⟨rfl, trivial⟩ hst, hq.moved hgone _,
        fun p hne => Function.update_of_ne hne .., fun Q hQ => ?_⟩
      rw [Function.update_self] at hQ
      cases hQ
      exact not_holds_answered
    · have hR' : (s.served q k).proxy.requests r = some R := hR
      have hcls : R.slot.cls = .artifact := by rw [hs]
      have hawait : step up ask (.proxy (.await r)) (s.served q k) =
          some (s.served (Function.update q r (some { R with pc := .serving f })) k) :=
        step_of_rule (.awaitCached hR' hpc hF ho hcls) rfl rfl
      have hR₁ : Function.update q r (some { R with pc := .serving f }) r = some { R with pc := .serving f } :=
        Function.update_self ..
      obtain ⟨a, hst⟩ := read_step up ask s k hR₁ rfl
      refine ⟨[.proxy (.await r), .proxy (.serve r)], _, by simp [Action.reads], ?_,
        (hq.moved hgone { R with pc := .serving f }).moved hgone { R with pc := .answered a (some f) },
        fun p hne => ?_, fun Q hQ => ?_⟩
      · have patient : ∀ (t : Gate Key Meta), Patient t (.proxy (.await r)) ∧ Patient t (.proxy (.serve r)) :=
          fun t => ⟨⟨rfl, trivial⟩, rfl, trivial⟩
        simpa using (ht.next (patient _).1 hawait).next (patient _).2 hst
      · simp [Function.update_of_ne hne]
      · rw [Function.update_self] at hQ
        cases hQ
        exact not_holds_answered
  · exact ⟨[], q, by simp, by simpa using ht, hq, fun _ _ => rfl, fun R hR' hh => hR ⟨R, hR', hh⟩⟩

/-- Those of a list give back their tokens one after the other. -/
theorem give_all_back (hp : ∀ r R, s.proxy.requests r = some R → ¬ Holds s.proxy key R) (rs : List Nat) :
    ∀ {q as}, Stayed Gone s.proxy.requests q → Trace (step up ask) Patient (· = s₀) as (s.served q k) →
      ∃ bs q', (∀ b ∈ bs, b.reads = true) ∧ Trace (step up ask) Patient (· = s₀) (as ++ bs) (s.served q' k) ∧
        Stayed Gone s.proxy.requests q' ∧ ∀ r R, q' r = some R → Holds s.proxy key R → r ∉ rs ∧ q r = some R := by
  induction rs with
  | nil => exact fun {q _} hq ht => ⟨[], q, by simp, by simpa using ht, hq, fun r R hR _ => ⟨by simp, hR⟩⟩
  | cons r rs ih =>
    intro q as hq ht
    obtain ⟨bs, q₁, hbs, ht₁, hq₁, hother, hnot⟩ := give_back hq hp ht r
    obtain ⟨cs, q₂, hcs, ht₂, hq₂, hall⟩ := ih hq₁ ht₁
    refine ⟨bs ++ cs, q₂, ?_, by simpa using ht₂, hq₂, fun p R hR hh => ?_⟩
    · intro b hb
      obtain hb | hb := List.mem_append.1 hb
      · exact hbs b hb
      · exact hcs b hb
    · obtain ⟨hmem, hR₁⟩ := hall p R hR hh
      have hne : p ≠ r := by
        rintro rfl
        exact hnot R hR₁ hh
      exact ⟨by simp [hne, hmem], (hother p hne).symm.trans hR₁⟩

/-- No entry of the key is pinned once they have. -/
theorem unpinned (hfree : ∀ f, ¬ Pinned s.proxy f key) (hq : Stayed Gone s.proxy.requests q) {rs : List Nat}
    (hrs : ∀ r, s.proxy.requests r ≠ none → r ∈ rs) (ht : Trace (step up ask) Patient (· = s₀) as (s.served q k)) :
    ∃ bs q', (∀ b ∈ bs, b.reads = true) ∧ Trace (step up ask) Patient (· = s₀) (as ++ bs) (s.served q' k) ∧
      Stayed Gone s.proxy.requests q' ∧ ∀ f, ¬ Pinned (s.served q' k).proxy f key := by
  obtain ⟨bs, q', hbs, ht', hq', hall⟩ := give_all_back (fun r R hR => not_holds hfree hR) rs hq ht
  refine ⟨bs, q', hbs, ht', hq', fun f hp => ?_⟩
  obtain hp | ⟨r, R, hR, hh⟩ := pinned_requests hp
  · exact hfree f hp
  · refine (hall r R hR hh).1 (hrs r fun hn => ?_)
    cases (hq'.fresh hn).symm.trans hR

/-- What may be done where clients have left may be done where they have stayed, after they have read. -/
theorem spared_after {a : Action Key} (ha : Allows Spared s a) (hq : Stayed Gone s.proxy.requests q) {rs : List Nat}
    (hrs : ∀ r, s.proxy.requests r ≠ none → r ∈ rs) (ht : Trace (step up ask) Patient (· = s₀) as (s.served q k)) :
    ∃ bs q', (∀ b ∈ bs, b.reads = true) ∧ Trace (step up ask) Patient (· = s₀) (as ++ bs) (s.served q' k) ∧
      Stayed Gone s.proxy.requests q' ∧ Allows Spared (s.served q' k) a := by
  have now : Allows Spared (s.served q k) a →
      ∃ bs q', (∀ b ∈ bs, b.reads = true) ∧ Trace (step up ask) Patient (· = s₀) (as ++ bs) (s.served q' k) ∧
        Stayed Gone s.proxy.requests q' ∧ Allows Spared (s.served q' k) a := fun h =>
    ⟨[], q, by simp, by simpa using ht, hq, h⟩
  cases a with
  | proxy b =>
    cases b with
    | rename t landed =>
      cases hT : s.proxy.tasks t with
      | none =>
        refine now ⟨ha.1, fun T hT' => ?_⟩
        cases hT.symm.trans hT'
      | some T =>
        obtain ⟨bs, q', hbs, ht', hq', hfree⟩ := unpinned (ha.2 T hT) hq hrs ht
        refine ⟨bs, q', hbs, ht', hq', ha.1, fun T' hT' => ?_⟩
        cases hT.symm.trans hT'
        exact hfree
    | evict key =>
      obtain ⟨bs, q', hbs, ht', hq', hfree⟩ := unpinned ha hq hrs ht
      exact ⟨bs, q', hbs, ht', hq', hfree⟩
    | _ => exact now trivial
  | _ => exact now trivial

end

/-- A request has arrived. -/
theorem rule_arrived {p p' : Proxy Key Meta} {a : Proxy.Action Key} (hr : Rule up p a p') {r : Nat}
    (h : p'.requests r ≠ none) : p.requests r ≠ none ∨ ∃ slot method, a = .arrive r slot method := by
  obtain ⟨R, hR⟩ := Option.ne_none_iff_exists'.1 h
  have request : ∀ {q : Nat} {Q Q' : Request Key Meta}, p.requests q = some Q →
      (p.setRequest q Q').requests r = some R → p.requests r ≠ none := by
    intro q Q Q' hQ hR
    obtain ⟨rfl, -⟩ | ⟨-, hR⟩ := setRequest_cases _ _ _ hR
    · simp [hQ]
    · simp [hR]
  cases hr with
  | arrive =>
    obtain ⟨rfl, -⟩ | ⟨-, hR⟩ := setRequest_cases _ _ _ hR
    · exact .inr ⟨_, _, rfl⟩
    · exact .inl (by simp [hR])
  | lookupJoin hQ | lookupMiss hQ | lookupLead hQ | loadHit hQ | loadMiss hQ | recheckJoin hQ | recheckLead hQ
  | refuse hQ | awaitCached hQ | awaitReply hQ | serve hQ | serveMissing hQ | disconnectLeader hQ | disconnect hQ =>
    exact .inl (request hQ hR)
  | finish =>
    obtain hR | ⟨Q, -, hQ, -⟩ := answerHost_cases hR
    · exact .inl (by simpa [setTask] using Option.ne_none_iff_exists'.2 ⟨_, hR⟩)
    · exact .inl (by simpa [setTask] using Option.ne_none_iff_exists'.2 ⟨_, hQ⟩)
  | send | answer | answerNonOk | answerMetadata | file | rename | failArtifact | failMetadata | unlink | settle | drop
  | cleanUnlink | cleanFail | cleanFinish | land | tear | evict => exact .inl h

/-- The requests of a run are finitely many. -/
theorem run_arrived {ok : Gate Key Meta → Action Key → Prop} {s : Gate Key Meta} (h : Run (step up ask) ok Init s) :
    ∃ rs : List Nat, ∀ r, s.proxy.requests r ≠ none → r ∈ rs := by
  refine h.invariant (fun s => ∃ rs : List Nat, ∀ r, s.proxy.requests r ≠ none → r ∈ rs) ?_ ?_
  · rintro s ⟨⟨disk, -, hp⟩, -⟩
    exact ⟨[], by simp [hp]⟩
  · rintro s a s' ⟨rs, hrs⟩ - hst
    obtain ⟨b, -, hr⟩ | he := step_proxy hst
    · refine ⟨(match b with | .arrive r _ _ => r :: rs | _ => rs), fun r h => ?_⟩
      obtain h | ⟨slot, method, rfl⟩ := rule_arrived hr h
      · split
        · exact List.mem_cons_of_mem _ (hrs r h)
        · exact hrs r h
      · exact List.mem_cons_self ..
    · exact ⟨rs, fun r h => hrs r (he ▸ h)⟩

/-- A calm run, with every client staying: those who left read on where an entry is to go. -/
theorem trace_patient {s₀ s : Gate Key Meta} (h₀ : Init s₀) {as : List (Action Key)}
    (h : Trace (step up ask) Calm (· = s₀) as s) : ∃ as' q k,
      Trace (step up ask) Patient (· = s₀) as' (s.served q k) ∧ as'.filter (!·.reads) = as.filter (!·.reads) ∧
      Stayed Gone s.proxy.requests q ∧ Stayed AskGone s.asks k := by
  induction h with
  | start h => exact ⟨[], _, _, .start h, rfl, .refl _ _, .refl _ _⟩
  | @next as s a s₁ h hS hst ih =>
    obtain ⟨as', q, k, h', has, hq, hk⟩ := ih
    cases ha : a.leaves with
    | true =>
      obtain ⟨he, hq₁, hk₁⟩ := step_left hst ha hS.1 hq hk
      exact ⟨as', q, k, he ▸ h', by simp [has, Action.leaves_reads ha], hq₁, hk₁⟩
    | false =>
      obtain ⟨rs, hrs⟩ := run_arrived (h.run.of_init fun _ hs => hs ▸ h₀)
      obtain ⟨bs, q', hbs, ht, hq', hspared⟩ := spared_after hS.2 hq hrs h'
      obtain ⟨q₁, k₁, hst', hq₁, hk₁⟩ := step_stayed hst ha hq' hk
      refine ⟨as' ++ bs ++ [a], q₁, k₁, ht.next ⟨ha, hspared⟩ hst', ?_, hq₁, hk₁⟩
      have hnone : bs.filter (!·.reads) = [] := by
        rw [List.filter_eq_nil_iff]
        intro b hb
        simp [hbs b hb]
      simp [has, hnone]

/-! ## Every run -/

/-- Every request whose client has not left in `s` stands in `s'` where it stands in `s`. -/
structure SameFor (s s' : Gate Key Meta) : Prop where
  requests : ∀ r R, s.proxy.requests r = some R → R.pc ≠ .gone → s'.proxy.requests r = some R
  asks : ∀ r pc, s.asks r = some pc → pc ≠ .gone → s'.asks r = some pc

/-- Over an empty directory. -/
def empty (permits : Nat) : Gate Nat Unit := ⟨start fun _ => none, permits, fun _ => false, fun _ => none⟩

theorem init_empty (permits : Nat) : Init (empty permits) := ⟨started_empty, rfl, rfl⟩

/-- Every fetch is answered with one byte. -/
def oneByte : Nat → Slot Nat → Fetched Unit := fun _ _ => .ok () [1]

/-- Upstream's answer to a HEAD. -/
def noBody : Nat → Reply Unit := fun _ => .entry () none

/-- Request `r` asks for the metadata key 7. -/
def joining (r : Nat) : List (Action Nat) := [.proxy (.arrive r ⟨.metadata, 7⟩ .get), .proxy (.lookup r)]

/-- The client of request 0, which leads, stays; request 1 has what upstream answered. -/
def leaderStays : List (Action Nat) :=
  joining 0 ++ joining 1 ++ [.proxy (.send (.leader 0)), .proxy (.answer (.leader 0)), .proxy (.settle (.leader 0)),
    .proxy (.finish (.leader 0)), .proxy (.await 1)]

/-- It leaves before upstream has answered. -/
def leaderLeaves : List (Action Nat) :=
  joining 0 ++ joining 1 ++ [.proxy (.send (.leader 0)), .proxy (.disconnect 0), .proxy (.clean (.cleanup 0)),
    .proxy (.clean (.cleanup 0)), .proxy (.await 1)]

/-- An artifact HEAD has the only permit, and a GET of the same key stands at its second lock. -/
def oneKey : List (Action Nat) :=
  [.arrive 0 (some 7), .load 0, .acquire 0, .proxy (.arrive 0 ⟨.artifact, 7⟩ .get), .proxy (.lookup 0),
    .proxy (.load 0)]

/-- The GET is refused; it leads where the HEAD's client has left. -/
example : (exec (step oneByte noBody) (oneKey ++ [.proxy (.refuse 0)]) (empty 1)).isSome = true ∧
    (exec (step oneByte noBody) (oneKey ++ [.proxy (.recheck 0)]) (empty 1)).isSome = false ∧
    (exec (step oneByte noBody) (oneKey ++ [.disconnect 0, .proxy (.recheck 0)]) (empty 1)).isSome = true := by decide

/-- Of three clients of one metadata key the second leaves. -/
def waiterLeaves : List (Action Nat) :=
  joining 0 ++ joining 1 ++ joining 2 ++ [.proxy (.send (.leader 0)), .proxy (.disconnect 1),
    .proxy (.answer (.leader 0)), .proxy (.settle (.leader 0)), .proxy (.await 2)]

/-- Allowed, for a run in which no request leaves but the second, no HEAD and no entry goes. -/
def oneLeaves (s : Gate Nat Unit) : Action Nat → Bool
  | .proxy (.disconnect r) => (s.proxy.requests r).all fun R => decide (R.pc = .waiting 0)
  | .disconnect _ | .proxy (.rename ..) | .proxy (.evict _) => false
  | _ => true

theorem oneLeaves_calm {s : Gate Nat Unit} {a : Action Nat} (h : oneLeaves s a = true) : Calm s a := by
  cases a with
  | proxy b =>
    cases b with
    | disconnect r =>
      refine ⟨fun R f hR hpc => ?_, trivial⟩
      simp [oneLeaves, hR, hpc] at h
    | rename | evict => cases h
    | _ => exact ⟨trivial, trivial⟩
  | disconnect r => cases h
  | _ => exact ⟨trivial, trivial⟩

end Gate

end Vampire
