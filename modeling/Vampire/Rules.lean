/-
What the steps of the proxy can do, said once: a rule for each way an action
can go (`Rule`), and from it how a step moves a request (`Turn`), how it
moves a task (`TaskTurn`) and what it leaves of the flights, the disk and the
counts. The invariants over runs are proved from these.
-/
import Vampire.Flight

namespace Vampire

namespace Proxy

variable {Key Meta : Type} [DecidableEq Key] [DecidableEq Meta] {up : Nat → Slot Key → Fetched Meta}

/-! ## The rules -/

/-- The steps as rules: one for each way an action can go. -/
inductive Rule (up : Nat → Slot Key → Fetched Meta) (s : Proxy Key Meta) : Action Key → Proxy Key Meta → Prop
  | arrive {r slot method} : s.requests r = none → (slot.cls = .artifact → method = .get) →
      Rule up s (.arrive r slot method) (s.setRequest r ⟨slot, method, .check⟩)
  | lookupJoin {r R f} : s.requests r = some R → R.pc = .check → s.map R.slot = some f →
      Rule up s (.lookup r) (s.setRequest r { R with pc := .waiting f })
  | lookupMiss {r R} : s.requests r = some R → R.pc = .check → s.map R.slot = none → R.slot.cls = .artifact →
      Rule up s (.lookup r) (s.setRequest r { R with pc := .load })
  | lookupLead {r R} : s.requests r = some R → R.pc = .check → s.map R.slot = none → R.slot.cls = .metadata →
      Rule up s (.lookup r) ((s.register R.slot (some r)).setRequest r { R with pc := .leading s.next })
  | loadHit {r R e} : s.requests r = some R → R.pc = .load → s.stored R.slot.key = some e →
      Rule up s (.load r) (s.setRequest r { R with pc := .answered (.entry e.info (some e.body)) none })
  | loadMiss {r R} : s.requests r = some R → R.pc = .load → s.stored R.slot.key = none →
      Rule up s (.load r) (s.setRequest r { R with pc := .recheck })
  | recheckJoin {r R f} : s.requests r = some R → R.pc = .recheck → s.map R.slot = some f →
      Rule up s (.recheck r) (s.setRequest r { R with pc := .waiting f })
  | recheckLead {r R} : s.requests r = some R → R.pc = .recheck → s.map R.slot = none →
      Rule up s (.recheck r) ((s.register R.slot none).setRequest r { R with pc := .waiting s.next })
  | refuse {r R} : s.requests r = some R → s.map R.slot = none →
      (R.pc = .recheck ∨ R.pc = .check ∧ R.slot.cls = .metadata) →
      Rule up s (.refuse r) (s.setRequest r { R with pc := .refused })
  | awaitCached {r R f F} : s.requests r = some R → R.pc = .waiting f → s.flights f = some F →
      F.outcome = some .cached → R.slot.cls = .artifact →
      Rule up s (.await r) (s.setRequest r { R with pc := .serving f })
  | awaitReply {r R f F o} : s.requests r = some R → R.pc = .waiting f → s.flights f = some F →
      F.outcome = some o → ¬ (o = .cached ∧ R.slot.cls = .artifact) →
      Rule up s (.await r) (s.setRequest r { R with pc := .answered (o.reply.sent R.method) (some f) })
  | serve {r R f e} : s.requests r = some R → R.pc = .serving f → s.stored R.slot.key = some e →
      Rule up s (.serve r) (s.setRequest r { R with pc := .answered (.entry e.info (some e.body)) (some f) })
  | serveMissing {r R f} : s.requests r = some R → R.pc = .serving f → s.stored R.slot.key = none →
      Rule up s (.serve r) (s.setRequest r { R with
        pc := .answered (.text (errorStatus .notFound) (some "artifact missing after inflight completion"))
          (some f) })
  | disconnectLeader {r R f T} : s.requests r = some R → R.pc = .leading f → s.tasks (.leader f) = some T →
      T.pc.leads = true →
      Rule up s (.disconnect r) ((s.dropTask (.leader f) T).setRequest r { R with pc := .gone })
  | disconnect {r R} : s.requests r = some R → (∀ a f, R.pc ≠ .answered a f) →
      R.pc ≠ .refused → R.pc ≠ .gone →
      (∀ f T, R.pc = .leading f → s.tasks (.leader f) = some T → T.pc.leads = false) →
      Rule up s (.disconnect r) (s.setRequest r { R with pc := .gone })
  | send {t T} : s.tasks t = some T → T.pc = .start →
      Rule up s (.send t) ((s.setTask t { T with pc := .fetching }).count T.slot)
  | answer {t T} : s.tasks t = some T → T.pc = .fetching → T.slot.cls = .artifact →
      (∀ info body, up t.flight T.slot ≠ .nonOk info body) →
      Rule up s (.answer t) (s.setTask t { T with pc := .creating })
  | answerNonOk {t T info body} : s.tasks t = some T → T.pc = .fetching → T.slot.cls = .artifact →
      up t.flight T.slot = .nonOk info body →
      Rule up s (.answer t) ((s.setTask t { T with pc := .settling (.response info body) }).lose T.slot 1)
  | answerMetadata {t T info body} : s.tasks t = some T → T.pc = .fetching → T.slot.cls = .metadata →
      (up t.flight T.slot = .ok info body ∨ up t.flight T.slot = .nonOk info body) →
      Rule up s (.answer t) (s.setTask t { T with pc := .settling (.response info body) })
  | file {t T pc} : s.tasks t = some T → T.pc.nextFile = some pc →
      Rule up s (.file t) (s.setTask t { T with pc })
  | rename {t T landed info body} : s.tasks t = some T → T.pc = .renaming → up t.flight T.slot = .ok info body →
      Rule up s (.rename t landed) ((s.publish T.slot.key ⟨info, body, if landed then .whole else .landing⟩).setTask t
        { T with pc := .settling .cached })
  | failArtifact {t T kind message} : s.tasks t = some T → up t.flight T.slot = .failed kind message →
      T.pc.fetches = true → T.slot.cls = .artifact →
      Rule up s (.fail t) ((s.setTask t { T with pc := .unlinking (.failed .other message) }).lose T.slot 1)
  | failMetadata {t T kind message} : s.tasks t = some T → up t.flight T.slot = .failed kind message →
      T.pc.fetches = true → T.slot.cls = .metadata →
      Rule up s (.fail t) (s.setTask t { T with pc := .settling (.failed kind message) })
  | unlink {t T o} : s.tasks t = some T → T.pc = .unlinking o →
      Rule up s (.unlink t) (s.setTask t { T with pc := .settling o })
  | settle {t T o} : s.tasks t = some T → T.pc = .settling o →
      Rule up s (.settle t) ((s.complete t.flight o).setTask t { T with pc := .finishing o })
  | finish {t T o} : s.tasks t = some T → T.pc = .finishing o →
      Rule up s (.finish t)
        (({ s with map := Function.update s.map T.slot none }.setTask t { T with pc := .done }).answerHost t T o)
  | drop {t T} : s.tasks t = some T → T.slot.cls = .artifact → T.pc.leads = true →
      Rule up s (.drop t) (s.dropTask t T)
  | cleanUnlink {t T} : s.tasks t = some T → T.pc = .cleanUnlink →
      Rule up s (.clean t) (s.setTask t { T with pc := .cleanFail })
  | cleanFail {t T} : s.tasks t = some T → T.pc = .cleanFail →
      Rule up s (.clean t) ((s.complete t.flight (cancelled T.slot.cls)).setTask t { T with pc := .cleanFinish })
  | cleanFinish {t T} : s.tasks t = some T → T.pc = .cleanFinish →
      Rule up s (.clean t) ({ s with map := Function.update s.map T.slot none }.setTask t { T with pc := .done })
  | land {key e} : s.disk key = some e → e.state = .landing →
      Rule up s (.land key) (s.publish key { e with state := .whole })
  | tear {key e} : s.disk key = some e → e.state = .landing →
      Rule up s (.tear key) ((s.publish key { e with state := .torn }).lose ⟨.artifact, key⟩ 1)
  | evict {key e} : s.disk key = some e →
      Rule up s (.evict key) ({ s with disk := Function.update s.disk key none }.lose ⟨.artifact, key⟩ 1)

theorem step_rule {a : Action Key} {s s' : Proxy Key Meta} (h : step up a s = some s') : Rule up s a s' := by
  cases a with
  | arrive r slot method =>
    simp only [step, Option.ite_none_right_eq_some, Option.some.injEq] at h
    obtain ⟨⟨h1, h2⟩, rfl⟩ := h
    exact .arrive h1 h2
  | lookup r =>
    simp only [step] at h
    split at h <;> try cases h
    split at h <;> try cases h
    next hr hpc =>
    split at h <;> cases h
    · next hm => exact .lookupJoin hr hpc hm
    · next hm hc => exact .lookupMiss hr hpc hm hc
    · next hm hc => exact .lookupLead hr hpc hm hc
  | load r =>
    simp only [step] at h
    split at h <;> try cases h
    split at h <;> try cases h
    next hr hpc =>
    split at h <;> cases h
    · next he => exact .loadHit hr hpc he
    · next he => exact .loadMiss hr hpc he
  | recheck r =>
    simp only [step] at h
    split at h <;> try cases h
    split at h <;> try cases h
    next hr hpc =>
    split at h <;> cases h
    · next hm => exact .recheckJoin hr hpc hm
    · next hm => exact .recheckLead hr hpc hm
  | refuse r =>
    simp only [step] at h
    split at h <;> try cases h
    split at h <;> cases h
    next hr hc => exact .refuse hr hc.1 hc.2
  | await r =>
    simp only [step] at h
    split at h <;> try cases h
    next R hr =>
    split at h <;> try cases h
    next f hpc =>
    split at h <;> try cases h
    next o ho =>
    obtain ⟨F, hF, ho⟩ := Option.bind_eq_some_iff.1 ho
    split at h <;> cases h
    · next hc => exact .awaitCached hr hpc hF (hc.1 ▸ ho) hc.2
    · next hc => exact .awaitReply hr hpc hF ho hc
  | serve r =>
    simp only [step] at h
    split at h <;> try cases h
    next hr =>
    split at h <;> try cases h
    next hpc =>
    split at h <;> cases h
    · next he => exact .serve hr hpc he
    · next he => exact .serveMissing hr hpc he
  | disconnect r =>
    simp only [step] at h
    split at h <;> try cases h
    next R hr =>
    split at h <;> try cases h
    · next t hpc =>
      split at h
      · next T ht =>
        split at h <;> cases h
        · next hl => exact .disconnectLeader hr hpc ht hl
        · next hl =>
          refine .disconnect hr (by simp [hpc]) (by simp [hpc]) (by simp [hpc]) fun t' T' hpc' ht' => ?_
          cases hpc.symm.trans hpc'
          cases ht.symm.trans ht'
          simpa using hl
      · next ht =>
        cases h
        refine .disconnect hr (by simp [hpc]) (by simp [hpc]) (by simp [hpc]) fun t' T' hpc' ht' => ?_
        cases hpc.symm.trans hpc'
        simp [ht] at ht'
    · next h1 h3 h4 h2 => exact .disconnect hr h1 h3 h4 fun t T hpc => absurd hpc (h2 t)
  | send t =>
    simp only [step] at h
    split at h <;> try cases h
    split at h <;> cases h
    next ht hpc => exact .send ht hpc
  | answer t =>
    simp only [step] at h
    split at h <;> try cases h
    split at h <;> try cases h
    next ht hpc =>
    split at h <;> cases h
    · next hc hu => exact .answer ht hpc hc (by simp [hu])
    · next hc hu => exact .answer ht hpc hc (by simp [hu])
    · next hc hu => exact .answerNonOk ht hpc hc hu
    · next hc hu => exact .answerMetadata ht hpc hc (.inl hu)
    · next hc hu => exact .answerMetadata ht hpc hc (.inr hu)
  | file t =>
    simp only [step] at h
    split at h <;> try cases h
    next ht =>
    obtain ⟨pc, hpc, rfl⟩ := Option.map_eq_some_iff.1 h
    exact .file ht hpc
  | rename t landed =>
    simp only [step] at h
    split at h <;> try cases h
    split at h <;> try cases h
    next ht hpc =>
    split at h <;> cases h
    next hu => exact .rename ht hpc hu
  | fail t =>
    simp only [step] at h
    split at h <;> try cases h
    next ht =>
    split at h <;> try cases h
    next hu =>
    split at h <;> try cases h
    next hf =>
    split at h <;> cases h
    · next hc => rw [hc]; exact .failArtifact ht hu hf hc
    · next hc => rw [hc]; exact .failMetadata ht hu hf hc
  | unlink t =>
    simp only [step] at h
    split at h <;> try cases h
    next ht =>
    split at h <;> cases h
    next hpc => exact .unlink ht hpc
  | settle t =>
    simp only [step] at h
    split at h <;> try cases h
    next ht =>
    split at h <;> cases h
    next hpc => exact .settle ht hpc
  | finish t =>
    simp only [step] at h
    split at h <;> try cases h
    next ht =>
    split at h <;> cases h
    next hpc => exact .finish ht hpc
  | drop t =>
    simp only [step] at h
    split at h <;> try cases h
    split at h <;> cases h
    next ht hc => exact .drop ht hc.1 hc.2
  | clean t =>
    simp only [step] at h
    split at h <;> try cases h
    next ht =>
    split at h <;> cases h
    · next hpc => exact .cleanUnlink ht hpc
    · next hpc => exact .cleanFail ht hpc
    · next hpc => exact .cleanFinish ht hpc
  | land key =>
    simp only [step] at h
    split at h <;> try cases h
    split at h <;> cases h
    next he hs => exact .land he hs
  | tear key =>
    simp only [step] at h
    split at h <;> try cases h
    split at h <;> cases h
    next he hs => exact .tear he hs
  | evict key =>
    simp only [step] at h
    split at h <;> cases h
    next he => exact .evict he

/-- And every rule is a step. -/
theorem Rule.step {s s' : Proxy Key Meta} {a : Action Key} (hr : Rule up s a s') : step up a s = some s' := by
  cases hr with
  | @disconnect r R hr h1 h2 h3 h4 =>
    simp only [Proxy.step, hr]
    split
    · next f hpc => exact absurd hpc (h1 _ _)
    · next hpc => exact absurd hpc h2
    · next hpc => exact absurd hpc h3
    · next f hpc =>
      split
      · next T ht => simp [h4 f T hpc ht]
      · rfl
    · rfl
  | @answer t T ht hpc hc hn =>
    cases hu : up t.flight T.slot with
    | nonOk info body => exact absurd hu (hn info body)
    | ok | failed => simp [Proxy.step, ht, hpc, hc, hu]
  | answerMetadata ht hpc hc hu =>
    obtain hu | hu := hu
    · simp [Proxy.step, ht, hpc, hc, hu]
    · simp [Proxy.step, ht, hpc, hc, hu]
  | failArtifact ht hu hf hc => simp [Proxy.step, ht, hu, hf, hc, Fetched.outcome]
  | failMetadata ht hu hf hc => simp [Proxy.step, ht, hu, hf, hc, Fetched.outcome]
  | refuse hr hm hc =>
    obtain hpc | ⟨hpc, hcls⟩ := hc
    · simp [Proxy.step, hr, hm, hpc]
    · simp [Proxy.step, hr, hm, hpc, hcls]
  | _ => simp_all [Proxy.step]

/-! ## What a step can do to a request -/

omit [DecidableEq Key] in
/-- `answerHost` answers a request that leads the task's flight, or none. -/
theorem answerHost_cases {s : Proxy Key Meta} {t : TaskId} {T : Task Key Meta} {o : Outcome Meta} {q : Nat}
    {Q : Request Key Meta} (h : (s.answerHost t T o).requests q = some Q) : s.requests q = some Q ∨
      ∃ R, T.host = some q ∧ s.requests q = some R ∧ R.pc = .leading t.flight ∧
        Q = { R with pc := .answered (o.reply.sent R.method) (some t.flight) } := by
  cases hh : T.host with
  | none => exact .inl (by simpa [answerHost, hh] using h)
  | some r =>
    cases hR : s.requests r with
    | none => exact .inl (by simpa [answerHost, hh, hR] using h)
    | some R =>
      by_cases hpc : R.pc = .leading t.flight
      · simp only [answerHost, hh, hR, if_pos hpc] at h
        obtain ⟨rfl, rfl⟩ | ⟨-, h⟩ := setRequest_cases _ _ _ h
        · exact .inr ⟨R, rfl, hR, hpc, rfl⟩
        · exact .inl h
      · exact .inl (by simpa [answerHost, hh, hR, hpc] using h)

/-- How a step moves a request `r` that stood at `R`. -/
inductive Moves (s s' : Proxy Key Meta) (r : Nat) (R : Request Key Meta) : ReqPc Meta → Prop
  | join {f} : R.pc = .check ∨ R.pc = .recheck → s.map R.slot = some f → Moves s s' r R (.waiting f)
  | miss : R.pc = .check → s.map R.slot = none → R.slot.cls = .artifact → Moves s s' r R .load
  | lead : R.pc = .check → s.map R.slot = none → R.slot.cls = .metadata →
      s'.tasks (.leader s.next) = some ⟨R.slot, some r, .start⟩ → Moves s s' r R (.leading s.next)
  | hit {e} : R.pc = .load → s.stored R.slot.key = some e →
      Moves s s' r R (.answered (.entry e.info (some e.body)) none)
  | absent : R.pc = .load → s.stored R.slot.key = none → s' = s.setRequest r { R with pc := .recheck } →
      Moves s s' r R .recheck
  | launch : R.pc = .recheck → s.map R.slot = none → s'.flights s.next = some ⟨R.slot, none⟩ →
      Moves s s' r R (.waiting s.next)
  | refuse : Moves s s' r R .refused
  | cached {f F} : R.pc = .waiting f → s.flights f = some F → F.outcome = some .cached → R.slot.cls = .artifact →
      Moves s s' r R (.serving f)
  | reply {f F o} : R.pc = .waiting f → s.flights f = some F → F.outcome = some o →
      ¬ (o = .cached ∧ R.slot.cls = .artifact) → Moves s s' r R (.answered (o.reply.sent R.method) (some f))
  | serve {f e} : R.pc = .serving f → s.stored R.slot.key = some e →
      Moves s s' r R (.answered (.entry e.info (some e.body)) (some f))
  | missing {f} : R.pc = .serving f → s.stored R.slot.key = none → Moves s s' r R
      (.answered (.text (errorStatus .notFound) (some "artifact missing after inflight completion")) (some f))
  | hosted {t T o} : R.pc = .leading t.flight → s.tasks t = some T → T.pc = .finishing o → T.host = some r →
      Moves s s' r R (.answered (o.reply.sent R.method) (some t.flight))
  | gone : Moves s s' r R .gone

/-- A step leaves a request where it stands, lets it arrive, or moves it. -/
inductive Turn (s s' : Proxy Key Meta) (r : Nat) : Request Key Meta → Prop
  | stays {R} : s.requests r = some R → Turn s s' r R
  | arrives {slot method} : s.requests r = none → (slot.cls = .artifact → method = .get) →
      Turn s s' r ⟨slot, method, .check⟩
  | moves {R pc} : s.requests r = some R → Moves s s' r R pc → Turn s s' r { R with pc }

theorem Rule.turn {s s' : Proxy Key Meta} {a : Action Key} (hr : Rule up s a s') {q : Nat} {Q : Request Key Meta}
    (hq : s'.requests q = some Q) : Turn s s' q Q := by
  -- A step of request `r` to `pc`.
  have turn : ∀ (s₁ : Proxy Key Meta) {r R pc}, s₁.requests = s.requests → s.requests r = some R →
      s' = s₁.setRequest r { R with pc } → Moves s s' r R pc → Turn s s' q Q := by
    rintro s₁ r R pc h₁ hR he hm
    obtain ⟨rfl, rfl⟩ | ⟨-, hq⟩ := setRequest_cases _ _ _ (he ▸ hq)
    · exact .moves hR hm
    · exact .stays (h₁ ▸ hq)
  have still : s'.requests = s.requests → Turn s s' q Q := fun he => .stays (he ▸ hq)
  cases hr with
  | arrive hn hm =>
    obtain ⟨rfl, rfl⟩ | ⟨-, hq⟩ := setRequest_cases _ _ _ hq
    · exact .arrives hn hm
    · exact .stays hq
  | lookupJoin hr hpc hm => exact turn s rfl hr rfl (.join (.inl hpc) hm)
  | lookupMiss hr hpc hm hc => exact turn s rfl hr rfl (.miss hpc hm hc)
  | lookupLead hr hpc hm hc => exact turn (s.register _ _) rfl hr rfl (.lead hpc hm hc (Function.update_self ..))
  | loadHit hr hpc he => exact turn s rfl hr rfl (.hit hpc he)
  | loadMiss hr hpc he => exact turn s rfl hr rfl (.absent hpc he rfl)
  | recheckJoin hr hpc hm => exact turn s rfl hr rfl (.join (.inr hpc) hm)
  | recheckLead hr hpc hm => exact turn (s.register _ _) rfl hr rfl (.launch hpc hm (Function.update_self ..))
  | refuse hr => exact turn s rfl hr rfl .refuse
  | awaitCached hr hpc hF ho hc => exact turn s rfl hr rfl (.cached hpc hF ho hc)
  | awaitReply hr hpc hF ho hn => exact turn s rfl hr rfl (.reply hpc hF ho hn)
  | serve hr hpc he => exact turn s rfl hr rfl (.serve hpc he)
  | serveMissing hr hpc he => exact turn s rfl hr rfl (.missing hpc he)
  | disconnectLeader hr => exact turn (s.dropTask _ _) rfl hr rfl .gone
  | disconnect hr => exact turn s rfl hr rfl .gone
  | send => exact still rfl
  | answerNonOk | failArtifact | tear | evict => exact still rfl
  | drop => exact still rfl
  | settle | cleanFail => exact still rfl
  | finish ht hpc =>
    obtain h | ⟨R, hh, hR, hl, rfl⟩ := answerHost_cases hq
    · exact .stays h
    · exact .moves hR (.hosted hl ht hpc hh)
  | answer | answerMetadata | file | rename | failMetadata | unlink | cleanUnlink | cleanFinish | land => exact still rfl

/-! ## What a step can do to a task -/

/-- The step counts a loss of the slot's artifact. -/
def Loses (s s' : Proxy Key Meta) (slot : Slot Key) : Prop :=
  slot.cls = .artifact → s.lost slot.key < s'.lost slot.key

omit [DecidableEq Meta] in
theorem loses_lose {s : Proxy Key Meta} {slot : Slot Key} : s.Loses (s.lose slot 1) slot := by
  rintro hc
  simp [lose, hc]

/-- How a step of its own moves a task `t` that stood at `T`. -/
inductive Goes (up : Nat → Slot Key → Fetched Meta) (s s' : Proxy Key Meta) (t : TaskId) (T : Task Key Meta) :
    Pc Meta → Prop
  | send : T.pc = .start → (T.slot.cls = .artifact → s.gets T.slot.key < s'.gets T.slot.key) →
      Goes up s s' t T .fetching
  | answer : T.pc = .fetching → T.slot.cls = .artifact → (∀ info body, up t.flight T.slot ≠ .nonOk info body) →
      Goes up s s' t T .creating
  | nonOk {info body} : T.pc = .fetching → T.slot.cls = .artifact → up t.flight T.slot = .nonOk info body →
      s.Loses s' T.slot → Goes up s s' t T (.settling (.response info body))
  | response {info body} : T.pc = .fetching → T.slot.cls = .metadata →
      (up t.flight T.slot = .ok info body ∨ up t.flight T.slot = .nonOk info body) →
      Goes up s s' t T (.settling (.response info body))
  | file {pc} : T.pc.nextFile = some pc → Goes up s s' t T pc
  | rename {info body state} : T.pc = .renaming → up t.flight T.slot = .ok info body → state ≠ .torn →
      s'.disk T.slot.key = some ⟨info, body, state⟩ → Goes up s s' t T (.settling .cached)
  | failArtifact {kind message} : T.pc.fetches = true → T.slot.cls = .artifact →
      up t.flight T.slot = .failed kind message → s.Loses s' T.slot →
      Goes up s s' t T (.unlinking (.failed .other message))
  | failMetadata {kind message} : T.pc.fetches = true → T.slot.cls = .metadata →
      up t.flight T.slot = .failed kind message → Goes up s s' t T (.settling (.failed kind message))
  | unlink {o} : T.pc = .unlinking o → Goes up s s' t T (.settling o)
  | settle {o} : T.pc = .settling o → s' = (s.complete t.flight o).setTask t { T with pc := .finishing o } →
      Goes up s s' t T (.finishing o)
  | finish {o} : T.pc = .finishing o → Goes up s s' t T .done
  | drop : T.pc.leads = true → (T.pc.fetches = true → s.Loses s' T.slot) → Goes up s s' t T .done
  | cleanUnlink : T.pc = .cleanUnlink → Goes up s s' t T .cleanFail
  | cleanFail : T.pc = .cleanFail → Goes up s s' t T .cleanFinish
  | cleanFinish : T.pc = .cleanFinish → Goes up s s' t T .done

/-- What becomes of a task: it stays, it starts or is spawned whatever was there, or it goes. -/
inductive TaskTurn (up : Nat → Slot Key → Fetched Meta) (s s' : Proxy Key Meta) (t : TaskId) :
    Option (Task Key Meta) → Option (Task Key Meta) → Prop
  | stays {o} : TaskTurn up s s' t o o
  | starts {o slot host} : t = .leader s.next → s.map slot = none → s'.flights s.next = some ⟨slot, none⟩ →
      (slot.cls = .artifact → ∃ r R, s.requests r = some R ∧ R.pc = .recheck ∧ R.slot = slot) →
      TaskTurn up s s' t o (some ⟨slot, host, .start⟩)
  | spawned {o u T} : t = .cleanup u.flight → s.tasks u = some T → T.pc.leads = true →
      (T.pc.fetches = true → s.Loses s' T.slot) → TaskTurn up s s' t o (some ⟨T.slot, none, T.slot.cls.cleanup⟩)
  | goes {T pc} : Goes up s s' t T pc → TaskTurn up s s' t (some T) (some { T with pc })

theorem Rule.task {s s' : Proxy Key Meta} {a : Action Key} (hr : Rule up s a s') (u : TaskId) :
    TaskTurn up s s' u (s.tasks u) (s'.tasks u) := by
  have still : s'.tasks = s.tasks → TaskTurn up s s' u (s.tasks u) (s'.tasks u) := fun he => he ▸ .stays
  have goes : ∀ (s₁ : Proxy Key Meta) {t T pc}, s₁.tasks = s.tasks → s.tasks t = some T →
      s'.tasks = (s₁.setTask t { T with pc }).tasks → Goes up s s' t T pc →
      TaskTurn up s s' u (s.tasks u) (s'.tasks u) := by
    intro s₁ t T pc h₁ ht he hg
    simp only [he, setTask, Function.update_apply]
    split
    · next hu => subst hu; rw [ht]; exact .goes hg
    · exact h₁ ▸ .stays
  have starts : ∀ slot host, s.map slot = none →
      (slot.cls = .artifact → ∃ r R, s.requests r = some R ∧ R.pc = .recheck ∧ R.slot = slot) →
      s'.tasks = (s.register slot host).tasks → s'.flights = (s.register slot host).flights →
      TaskTurn up s s' u (s.tasks u) (s'.tasks u) := by
    intro slot host hm hreq he hfl
    simp only [he, register, Function.update_apply]
    split
    · next hu => exact .starts hu hm (by rw [hfl]; exact Function.update_self ..) hreq
    · exact .stays
  have drops : ∀ {t T}, s.tasks t = some T → T.pc.leads = true → s'.tasks = (s.dropTask t T).tasks →
      s'.lost = (s.dropTask t T).lost → TaskTurn up s s' u (s.tasks u) (s'.tasks u) := by
    intro t T ht hl hd hlost
    have hloses : T.pc.fetches = true → s.Loses s' T.slot := by
      intro hf hc
      simp [hlost, dropTask, lose, hc, hf, setTask]
    simp only [hd, dropTask, lose, setTask, Function.update_apply]
    split
    · next hu => exact .spawned hu ht hl hloses
    · split
      · next hu => subst hu; rw [ht]; exact .goes (.drop hl hloses)
      · exact .stays
  cases hr with
  | arrive | lookupJoin | lookupMiss | loadHit | loadMiss | recheckJoin | refuse | awaitCached | awaitReply | serve
  | serveMissing | disconnect | land | tear | evict => exact still rfl
  | @lookupLead r R _ _ hm hc => exact starts R.slot (some r) hm (by simp [hc]) rfl rfl
  | @recheckLead r R hR hpc hm => exact starts R.slot none hm (fun _ => ⟨r, R, hR, hpc, rfl⟩) rfl rfl
  | disconnectLeader _ _ ht hl => exact drops ht hl rfl rfl
  | drop ht _ hl => exact drops ht hl rfl rfl
  | @send t T ht hpc =>
    exact goes s rfl ht rfl (.send hpc fun hc => by cases hs : T.slot; simp_all [count_gets, setTask])
  | answer ht hpc hc hn => exact goes s rfl ht rfl (.answer hpc hc hn)
  | answerNonOk ht hpc hc hu => exact goes s rfl ht rfl (.nonOk hpc hc hu loses_lose)
  | answerMetadata ht hpc hc hu => exact goes s rfl ht rfl (.response hpc hc hu)
  | file ht hpc => exact goes s rfl ht rfl (.file hpc)
  | @rename t T landed _ _ ht hpc hu =>
    exact goes (s.publish _ _) rfl ht rfl (.rename hpc hu (by cases landed <;> simp) (Function.update_self ..))
  | failArtifact ht hu hf hc => exact goes s rfl ht rfl (.failArtifact hf hc hu loses_lose)
  | failMetadata ht hu hf hc => exact goes s rfl ht rfl (.failMetadata hf hc hu)
  | unlink ht hpc => exact goes s rfl ht rfl (.unlink hpc)
  | settle ht hpc => exact goes (s.complete _ _) rfl ht rfl (.settle hpc rfl)
  | @finish t T o ht hpc => exact goes { s with map := Function.update s.map T.slot none } rfl ht rfl (.finish hpc)
  | cleanUnlink ht hpc => exact goes s rfl ht rfl (.cleanUnlink hpc)
  | cleanFail ht hpc => exact goes (s.complete _ _) rfl ht rfl (.cleanFail hpc)
  | cleanFinish ht hpc => exact goes s rfl ht rfl (.cleanFinish hpc)

/-! ## What a step can do to a flight -/

/-- An outcome is set by a task of its flight, at its `complete`. -/
theorem Rule.outcome_new {s s' : Proxy Key Meta} {a : Action Key} (hr : Rule up s a s') {f : Nat}
    {F : Flight Key Meta} {o : Outcome Meta} (hF : s'.flights f = some F) (ho : F.outcome = some o) :
    (∃ F₀, s.flights f = some F₀ ∧ F₀.slot = F.slot ∧ F₀.outcome = some o) ∨
      ∃ t T, s.tasks t = some T ∧ t.flight = f ∧
        (T.pc = .settling o ∧ s'.tasks t = some { T with pc := .finishing o } ∨
          T.pc = .cleanFail ∧ o = cancelled T.slot.cls ∧ s'.tasks t = some { T with pc := .cleanFinish }) := by
  have same : s'.flights = s.flights → ∃ F₀, s.flights f = some F₀ ∧ F₀.slot = F.slot ∧ F₀.outcome = some o :=
    fun he => ⟨F, he ▸ hF, rfl, ho⟩
  have grown : ∀ slot host, s'.flights = (s.register slot host).flights →
      ∃ F₀, s.flights f = some F₀ ∧ F₀.slot = F.slot ∧ F₀.outcome = some o := by
    intro slot host he
    rw [he] at hF
    simp only [register, Function.update_apply] at hF
    split at hF
    · cases hF; cases ho
    · exact ⟨F, hF, rfl, ho⟩
  have settled : ∀ g o', s'.flights = (s.complete g o').flights →
      (∃ F₀, s.flights f = some F₀ ∧ F₀.slot = F.slot ∧ F₀.outcome = some o) ∨ g = f ∧ o' = o := by
    intro g o' he
    rw [he, complete_flights] at hF
    split at hF
    · next hg =>
      obtain ⟨⟨slot, out⟩, hF₀, rfl⟩ := Option.map_eq_some_iff.1 hF
      cases out with
      | none => exact .inr ⟨hg.symm, by simpa using ho⟩
      | some o₀ => exact .inl ⟨_, hg ▸ hF₀, rfl, by simpa using ho⟩
    · exact .inl ⟨F, hF, rfl, ho⟩
  cases hr with
  | @lookupLead r R => exact .inl (grown R.slot (some r) rfl)
  | @recheckLead r R => exact .inl (grown R.slot none rfl)
  | @settle t T o' ht hpc =>
    obtain h | ⟨hf, rfl⟩ := settled t.flight o' rfl
    · exact .inl h
    · exact .inr ⟨t, T, ht, hf, .inl ⟨hpc, Function.update_self ..⟩⟩
  | @cleanFail t T ht hpc =>
    obtain h | ⟨hf, rfl⟩ := settled t.flight (cancelled T.slot.cls) rfl
    · exact .inl h
    · exact .inr ⟨t, T, ht, hf, .inr ⟨hpc, rfl, Function.update_self ..⟩⟩
  | _ => exact .inl (same rfl)

/-! ## What a step can do to the disk and the map -/

/-- What becomes of the disk. -/
inductive DiskTurn (up : Nat → Slot Key → Fetched Meta) (s s' : Proxy Key Meta) :
    Action Key → (Key → Option (CacheEntry Meta)) → Prop
  | stays {a} : DiskTurn up s s' a s.disk
  | rename {t T landed info body} : s.tasks t = some T → T.pc = .renaming → up t.flight T.slot = .ok info body →
      s'.tasks t = some { T with pc := .settling .cached } →
      DiskTurn up s s' (.rename t landed)
        (Function.update s.disk T.slot.key (some ⟨info, body, if landed then .whole else .landing⟩))
  | land {key e} : s.disk key = some e → e.state = .landing →
      DiskTurn up s s' (.land key) (Function.update s.disk key (some { e with state := .whole }))
  | tear {key e} : s.disk key = some e → e.state = .landing →
      DiskTurn up s s' (.tear key) (Function.update s.disk key (some { e with state := .torn }))
  | evict {key} : s.lost key < s'.lost key → DiskTurn up s s' (.evict key) (Function.update s.disk key none)

theorem Rule.disk {s s' : Proxy Key Meta} {a : Action Key} (hr : Rule up s a s') : DiskTurn up s s' a s'.disk := by
  cases hr with
  | rename ht hpc hu => exact .rename ht hpc hu (Function.update_self ..)
  | land he hs => exact .land he hs
  | tear he hs => exact .tear he hs
  | evict => exact .evict (by simp [lose_lost])
  | _ => exact .stays

/-- No entry's last bytes are on their way. -/
def Still (s : Proxy Key Meta) : Prop := ∀ {key e}, s.disk key = some e → e.state ≠ .landing

theorem Rule.still {s s' : Proxy Key Meta} {a : Action Key} (hr : Rule up s a s')
    (hl : ∀ t landed, a = .rename t landed → landed = true) (h : Still s) : Still s' := by
  intro key e he
  have hd := hr.disk
  generalize s'.disk = disk at hd he
  cases hd with
  | stays => exact h he
  | rename =>
    simp only [Function.update_apply] at he
    split at he
    · cases he
      simp [hl _ _ rfl]
    · exact h he
  | land he' hs => exact absurd hs (h he')
  | tear he' hs => exact absurd hs (h he')
  | evict =>
    simp only [Function.update_apply] at he
    split at he
    · cases he
    · exact h he

/-- An entry leaves the map by its owner's `finish_inflight` only. -/
theorem Rule.map_none {s s' : Proxy Key Meta} {a : Action Key} (hr : Rule up s a s') {slot : Slot Key}
    (hm : s'.map slot = none) : s.map slot = none ∨ ∃ t T, (a = .finish t ∨ a = .clean t) ∧ s.tasks t = some T ∧
      ((∃ o, T.pc = .finishing o) ∨ T.pc = .cleanFinish) ∧ T.slot = slot := by
  have added : ∀ slot' host, s'.map = (s.register slot' host).map → s.map slot = none := by
    intro slot' host he
    simp only [he, register, Function.update_apply] at hm
    split at hm
    · cases hm
    · exact hm
  have removed : ∀ {T : Task Key Meta}, s'.map = Function.update s.map T.slot none →
      T.slot ≠ slot → s.map slot = none := by
    intro T he hne
    exact (Function.update_of_ne hne.symm ..).symm.trans (he ▸ hm)
  cases hr with
  | @lookupLead r R => exact .inl (added R.slot (some r) rfl)
  | @recheckLead r R => exact .inl (added R.slot none rfl)
  | @finish t T o ht hpc =>
    by_cases he : T.slot = slot
    · exact .inr ⟨t, T, .inl rfl, ht, .inl ⟨o, hpc⟩, he⟩
    · exact .inl (removed rfl he)
  | @cleanFinish t T ht hpc =>
    by_cases he : T.slot = slot
    · exact .inr ⟨t, T, .inr rfl, ht, .inr hpc, he⟩
    · exact .inl (removed rfl he)
  | _ => exact .inl hm

/-- An entry of the map was there, or is the new flight's. -/
theorem Rule.map_some {s s' : Proxy Key Meta} {a : Action Key} (hr : Rule up s a s') {slot : Slot Key} {f : Nat}
    (hm : s'.map slot = some f) : s.map slot = some f ∨ s'.flights f = some ⟨slot, none⟩ := by
  have added : ∀ slot' host, s'.map = (s.register slot' host).map →
      s'.flights = (s.register slot' host).flights → s.map slot = some f ∨ s'.flights f = some ⟨slot, none⟩ := by
    intro slot' host he hf
    simp only [he, register, Function.update_apply] at hm
    split at hm
    · next hs => cases hm; subst hs; exact .inr (by rw [hf]; exact Function.update_self ..)
    · exact .inl hm
  have removed : ∀ slot', s'.map = Function.update s.map slot' none → s.map slot = some f := by
    intro slot' he
    simp only [he, Function.update_apply] at hm
    split at hm
    · cases hm
    · exact hm
  cases hr with
  | @lookupLead r R => exact added R.slot (some r) rfl rfl
  | @recheckLead r R => exact added R.slot none rfl rfl
  | @finish t T => exact .inl (removed T.slot rfl)
  | @cleanFinish t T => exact .inl (removed T.slot rfl)
  | _ => exact .inl hm

/-! ## What a step can do to the counts -/

theorem Rule.lost_mono {s s' : Proxy Key Meta} {a : Action Key} (hr : Rule up s a s') (key : Key) :
    s.lost key ≤ s'.lost key := by
  have lose : ∀ (s₁ : Proxy Key Meta) (slot : Slot Key) n, s₁.lost = s.lost →
      s.lost key ≤ (s₁.lose slot n).lost key := by
    intro s₁ slot n h₁
    rw [lose_lost, h₁]
    exact Nat.le_add_right ..
  cases hr with
  | disconnectLeader => exact lose _ _ _ rfl
  | drop => exact lose _ _ _ rfl
  | answerNonOk | failArtifact | tear | evict => exact lose _ _ _ rfl
  | _ => exact Nat.le_refl _

/-- An upstream GET is a leader's first step. -/
theorem Rule.gets {s s' : Proxy Key Meta} {a : Action Key} (hr : Rule up s a s') (key : Key) :
    s'.gets key = s.gets key ∨ s'.gets key = s.gets key + 1 ∧ ∃ t T, s.tasks t = some T ∧ T.pc = .start ∧
      T.slot = ⟨.artifact, key⟩ ∧ s'.tasks t = some { T with pc := .fetching } := by
  cases hr with
  | @send t T ht hpc =>
    rw [count_gets]
    split
    · next hs => exact .inr ⟨rfl, t, T, ht, hpc, hs, Function.update_self ..⟩
    · exact .inl rfl
  | _ => exact .inl rfl

end Proxy

end Vampire
