/-
Every request whose client stays gets its response.

The task of a flight stands at one of its awaits, and always has a step: its
fetch is answered or fails, its file calls come one after another, and at the
end the flight is settled (`Pc.left` counts what it has still to do). A leader
that is dropped has left a cleanup task that does the same. So the steps of the
request itself and of these tasks are enough to answer it, whoever has left
before: nobody waits for a client.
-/
import Vampire.Replay

namespace Vampire

variable {Key Meta : Type}

/-- The steps a task has still to take, at most. -/
def Pc.left : Pc Meta → Nat
  | .start => 11
  | .fetching => 10
  | .creating => 9
  | .writing => 8
  | .flushing => 7
  | .appending => 6
  | .sealing => 5
  | .renaming => 4
  | .unlinking _ | .cleanUnlink => 3
  | .settling _ | .cleanFail => 2
  | .finishing _ | .cleanFinish => 1
  | .done => 0

theorem Pc.nextFile_left {pc pc' : Pc Meta} (h : pc.nextFile = some pc') : pc'.left < pc.left := by
  cases pc <;> cases h <;> simp [Pc.left]

theorem Pc.fetches_left {pc : Pc Meta} (h : pc.fetches = true) : 3 < pc.left := by
  cases pc <;> first | (simp [Pc.left]; done) | cases h

/-- A request that has its response. -/
def ReqPc.over : ReqPc Meta → Bool
  | .answered _ _ | .refused => true
  | _ => false

/-- A request that has its response, without a flight. -/
def AskPc.over : AskPc Key Meta → Bool
  | .answered _ | .refused => true
  | _ => false

/-- A step of a leader or a cleanup task, other than its drop. -/
def Proxy.Action.works : Proxy.Action Key → Bool
  | .send _ | .answer _ | .file _ | .rename _ _ | .fail _ | .unlink _ | .settle _ | .finish _ | .clean _ => true
  | _ => false

/-- A step of the request's own, not its client's leaving. -/
def Proxy.Action.own (r : Nat) : Proxy.Action Key → Bool
  | .lookup q | .load q | .recheck q | .refuse q | .await q | .serve q => q = r
  | _ => false

namespace Proxy

variable [DecidableEq Key] [DecidableEq Meta] {up : Nat → Slot Key → Fetched Meta}

/-! ## Where tasks stand -/

/-- A task is at its file calls after a 200 or a failure only. -/
def Answers (up : Nat → Slot Key → Fetched Meta) (s : Proxy Key Meta) : Prop :=
  ∀ {t T}, s.tasks t = some T → T.pc.files = true → ∀ info body, up t.flight T.slot ≠ .nonOk info body

/-- A request that leads a flight has a running leader. -/
def Led (s : Proxy Key Meta) : Prop :=
  ∀ {r R f}, s.requests r = some R → R.pc = .leading f → ∃ T, s.tasks (.leader f) = some T ∧ T.pc.leads = true

/-- A request leads as its flight's host. -/
def Hosted (s : Proxy Key Meta) : Prop :=
  ∀ {r R f}, s.requests r = some R → R.pc = .leading f →
    ∃ T, s.tasks (.leader f) = some T ∧ T.host = some r ∧ T.slot = R.slot

theorem Rule.answers {s s' : Proxy Key Meta} {a : Action Key} (hr : Rule up s a s') (h : Answers up s) :
    Answers up s' := by
  intro t T hT hf
  have ht := hr.task t
  rw [hT] at ht
  generalize hold : s.tasks t = old at ht
  cases ht with
  | stays => exact h hold hf
  | starts => cases hf
  | @spawned _ u U => cases hc : U.slot.cls <;> simp [hc, Class.cleanup, Pc.files] at hf
  | goes hg =>
    cases hg with
    | answer _ _ hn => exact hn
    | file hn => exact (h hold (Pc.nextFile_files hn) :)
    | send | nonOk | response | rename | failArtifact | failMetadata | unlink | settle | finish | drop | cleanUnlink
    | cleanFail | cleanFinish => cases hf

theorem Rule.hosted {s s' : Proxy Key Meta} {a : Action Key} (hr : Rule up s a s') (hO : Owned s) (h : Hosted s) :
    Hosted s' := by
  intro r R f hR hpc
  cases hr.turn hR with
  | stays hR =>
    obtain ⟨T, hT, hh, hs⟩ := h hR hpc
    have ht := hr.task (.leader f)
    rw [hT] at ht
    generalize ho : s'.tasks (.leader f) = o at ht
    cases ht with
    | stays => exact ⟨T, rfl, hh, hs⟩
    | starts he => simp [he, hO.fresh (Nat.le_refl (TaskId.leader s.next).flight)] at hT
    | spawned he => cases he
    | goes => exact ⟨_, rfl, hh, hs⟩
  | arrives => simp at hpc
  | moves hQ hm =>
    cases hm with
    | lead _ _ _ ht =>
      obtain rfl : _ = f := by simpa using hpc
      exact ⟨_, ht, rfl, rfl⟩
    | join | miss | hit | absent | launch | refuse | cached | reply | serve | missing | hosted | gone => simp at hpc

theorem Rule.led {s s' : Proxy Key Meta} {a : Action Key} (hr : Rule up s a s') (hO : Owned s) (hk : Kinds s)
    (hH : Hosted s) (h : Led s) : Led s' := by
  intro r R f hR hpc
  -- A request of its own moves no task, and does not come to lead.
  have request : ∀ {q : Nat} {Q : Request Key Meta}, (s.setRequest q Q).requests r = some R → (∀ g, Q.pc ≠ .leading g) →
      ∃ T, s.tasks (.leader f) = some T ∧ T.pc.leads = true := by
    intro q Q hR hQ
    obtain ⟨-, rfl⟩ | ⟨-, hR⟩ := setRequest_cases _ _ _ hR
    · exact absurd hpc (hQ f)
    · exact h hR hpc
  -- A task goes on, and leads if it did.
  have task : ∀ {t : TaskId} {T T' : Task Key Meta}, s.requests r = some R → s.tasks t = some T →
      (T.pc.leads = true → T'.pc.leads = true) →
      ∃ L, (s.setTask t T').tasks (.leader f) = some L ∧ L.pc.leads = true := by
    intro t T T' hR hT hl
    obtain ⟨L, hL, hleads⟩ := h hR hpc
    by_cases ht : TaskId.leader f = t
    · subst ht
      cases hT.symm.trans hL
      exact ⟨T', Function.update_self .., hl hleads⟩
    · exact ⟨L, (setTask_ne ht).trans hL, hleads⟩
  -- A flight is registered.
  have register : ∀ {q : Nat} {Q : Request Key Meta} {slot host},
      ((s.register slot host).setRequest q Q).requests r = some R → (∀ g, Q.pc = .leading g → g = s.next) →
      ∃ L, (s.register slot host).tasks (.leader f) = some L ∧ L.pc.leads = true := by
    intro q Q slot host hR hQ
    by_cases hf : f = s.next
    · subst hf
      exact ⟨_, Function.update_self .., rfl⟩
    · obtain ⟨-, rfl⟩ | ⟨-, hR⟩ := setRequest_cases _ _ _ hR
      · exact absurd (hQ f hpc) hf
      · obtain ⟨L, hL, hl⟩ := h hR hpc
        exact ⟨L, by simpa [Proxy.register, hf] using hL, hl⟩
  cases hr with
  | arrive | lookupJoin | lookupMiss | loadHit | loadMiss | recheckJoin | refuse | awaitCached | awaitReply | serve
  | serveMissing | disconnect => exact request hR (by simp)
  | lookupLead => exact register hR (by simp)
  | recheckLead => exact register hR (by simp)
  | @disconnectLeader q Q g T hQ hQpc hT hl =>
    obtain ⟨-, rfl⟩ | ⟨hne, hR⟩ := setRequest_cases _ _ _ hR
    · simp at hpc
    · obtain ⟨L, hL, hleads⟩ := h hR hpc
      by_cases hf : f = g
      · subst hf
        obtain ⟨L', hL', hh, -⟩ := hH hR hpc
        obtain ⟨Q', hQ', hh', -⟩ := hH hQ hQpc
        cases hL'.symm.trans hQ'
        exact absurd (Option.some.inj (hh.symm.trans hh')) hne
      · exact ⟨L, (dropTask_others (t := .leader g) hf).1.trans hL, hleads⟩
  | @finish t T o hT hfin =>
    obtain hR' | ⟨Q, -, -, -, rfl⟩ := answerHost_cases hR
    · by_cases ht : TaskId.leader f = t
      · -- The host would have been answered.
        subst ht
        obtain ⟨L, hL, hh, -⟩ := hH hR' hpc
        cases hT.symm.trans hL
        have hs : s.requests r = some R := hR'
        simp only [answerHost, setTask, setRequest, TaskId.flight, hh, hs, hpc, if_true, Function.update_self,
          Option.some.injEq] at hR
        rw [← hR] at hpc
        cases hpc
      · obtain ⟨L, hL, hleads⟩ := h hR' hpc
        exact ⟨L, (setTask_ne ht).trans hL, hleads⟩
    · simp at hpc
  | @drop t T hT hc hl =>
    obtain ⟨L, hL, hleads⟩ := h hR hpc
    by_cases hf : f = t.flight
    · cases t with
      | cleanup g =>
        rw [hO.leads hT] at hl
        cases hl
      | leader g =>
        obtain rfl : f = g := hf
        obtain ⟨L', hL', -, hs⟩ := hH hR hpc
        cases hT.symm.trans hL'
        rw [hs, hk.leading hR hpc] at hc
        cases hc
    · exact ⟨L, (dropTask_others hf).1.trans hL, hleads⟩
  | send hT hs | answer hT hs | answerNonOk hT hs | answerMetadata hT hs | rename hT hs | unlink hT hs
  | settle hT hs => exact task hR hT fun _ => rfl
  | file hT hn => exact task hR hT fun _ => Pc.fetches_leads (Pc.nextFile_fetches hn).2
  | failArtifact hT | failMetadata hT => exact task hR hT fun _ => rfl
  | cleanUnlink hT hs | cleanFail hT hs | cleanFinish hT hs =>
    exact task hR hT fun hl => by simp [hs, Pc.leads] at hl
  | land | tear | evict => exact h hR hpc

/-- What holds in every state of a run. -/
structure Sound (up : Nat → Slot Key → Fetched Meta) (s : Proxy Key Meta) : Prop where
  owned : Owned s
  joined : Joined s
  kinds : Kinds s
  hosted : Hosted s
  answers : Answers up s
  led : Led s

theorem Rule.sound {s s' : Proxy Key Meta} {a : Action Key} (hr : Rule up s a s') (h : Sound up s) : Sound up s' :=
  ⟨hr.owned h.owned, hr.joined h.owned h.joined, hr.kinds h.kinds, hr.hosted h.owned h.hosted, hr.answers h.answers,
    hr.led h.owned h.kinds h.hosted h.led⟩

omit [DecidableEq Key] [DecidableEq Meta] in
theorem Started.sound {s : Proxy Key Meta} (h : Started s) : Sound up s := by
  refine ⟨h.owned, h.joined, ?_, ?_, ?_, ?_⟩
  all_goals obtain ⟨disk, -, rfl⟩ := h
  · constructor <;> simp
  · simp [Hosted]
  · simp [Answers]
  · simp [Led]

theorem Run.sound {ok : Proxy Key Meta → Action Key → Prop} {s : Proxy Key Meta}
    (h : Lib.Run (step up) ok Started s) : Sound up s :=
  h.invariant (Sound up) (fun _ => Started.sound) fun _ _ _ hs _ hst => (step_rule hst).sound hs

/-! ## A task goes on -/

/-- A step of the task's own that brings it closer to its end. -/
structure Advance (up : Nat → Slot Key → Fetched Meta) (s : Proxy Key Meta) (t : TaskId) (T : Task Key Meta)
    (a : Action Key) (s' : Proxy Key Meta) (pc : Pc Meta) : Prop where
  rule : Rule up s a s'
  works : a.works = true
  next : s'.next = s.next
  requests : s'.requests = s.requests
  task : s'.tasks t = some { T with pc }
  left : pc.left < T.pc.left
  live : pc ≠ .done
  leads : T.pc.leads = true → pc.leads = true

/-- A task that is neither done nor at its `finish_inflight` goes on. -/
theorem advance {s : Proxy Key Meta} (hA : Answers up s) {t : TaskId} {T : Task Key Meta}
    (hT : s.tasks t = some T) (hd : T.pc ≠ .done) (hrem : T.pc.removes = false) :
    ∃ a s' pc, Advance up s t T a s' pc := by
  have fails : ∀ {kind message}, up t.flight T.slot = .failed kind message → T.pc.fetches = true →
      ∃ a s' pc, Advance up s t T a s' pc := by
    intro kind message hu hf
    have hleft := Pc.fetches_left hf
    cases hc : T.slot.cls with
    | artifact =>
      exact ⟨_, _, _, .failArtifact hT hu hf hc, rfl, rfl, rfl, Function.update_self .., hleft, by simp, fun _ => rfl⟩
    | metadata =>
      exact ⟨_, _, _, .failMetadata hT hu hf hc, rfl, rfl, rfl, Function.update_self ..,
        Nat.lt_trans (Nat.lt_succ_self 2) hleft, by simp, fun _ => rfl⟩
  have calls : ∀ {pc}, T.pc.nextFile = some pc → ∃ a s' pc, Advance up s t T a s' pc := by
    intro pc hn
    have hf := (Pc.nextFile_fetches hn).2
    exact ⟨_, _, pc, .file hT hn, rfl, rfl, rfl, Function.update_self .., Pc.nextFile_left hn, Pc.fetches_live hf,
      fun _ => Pc.fetches_leads hf⟩
  cases hpc : T.pc with
  | start =>
    exact ⟨_, _, _, .send hT hpc, rfl, rfl, rfl, Function.update_self .., by simp [hpc, Pc.left], by simp, fun _ => rfl⟩
  | fetching =>
    cases hc : T.slot.cls with
    | artifact =>
      cases hu : up t.flight T.slot with
      | nonOk info body =>
        exact ⟨_, _, _, .answerNonOk hT hpc hc hu, rfl, rfl, rfl, Function.update_self .., by simp [hpc, Pc.left],
          by simp, fun _ => rfl⟩
      | ok | failed =>
        exact ⟨_, _, _, .answer hT hpc hc (by simp [hu]), rfl, rfl, rfl, Function.update_self ..,
          by simp [hpc, Pc.left], by simp, fun _ => rfl⟩
    | metadata =>
      cases hu : up t.flight T.slot with
      | ok info body =>
        exact ⟨_, _, _, .answerMetadata hT hpc hc (.inl hu), rfl, rfl, rfl, Function.update_self ..,
          by simp [hpc, Pc.left], by simp, fun _ => rfl⟩
      | nonOk info body =>
        exact ⟨_, _, _, .answerMetadata hT hpc hc (.inr hu), rfl, rfl, rfl, Function.update_self ..,
          by simp [hpc, Pc.left], by simp, fun _ => rfl⟩
      | failed kind message => exact fails hu (by rw [hpc]; rfl)
  | creating | writing | flushing | appending | sealing => exact calls (by rw [hpc]; rfl)
  | «renaming» =>
    cases hu : up t.flight T.slot with
    | ok info body =>
      exact ⟨.rename t true, _, _, .rename hT hpc hu, rfl, rfl, rfl, Function.update_self .., by simp [hpc, Pc.left],
        by simp, fun _ => rfl⟩
    | nonOk info body => exact absurd hu (hA hT (by rw [hpc]; rfl) info body)
    | failed kind message => exact fails hu (by rw [hpc]; rfl)
  | unlinking o =>
    exact ⟨_, _, _, .unlink hT hpc, rfl, rfl, rfl, Function.update_self .., by simp [hpc, Pc.left], by simp,
      fun _ => rfl⟩
  | settling o =>
    exact ⟨_, _, _, .settle hT hpc, rfl, rfl, rfl, Function.update_self .., by simp [hpc, Pc.left], by simp,
      fun _ => rfl⟩
  | cleanUnlink =>
    exact ⟨_, _, _, .cleanUnlink hT hpc, rfl, rfl, rfl, Function.update_self .., by simp [hpc, Pc.left], by simp,
      fun hl => by simp [hpc, Pc.leads] at hl⟩
  | cleanFail =>
    exact ⟨_, _, _, .cleanFail hT hpc, rfl, rfl, rfl, Function.update_self .., by simp [hpc, Pc.left], by simp,
      fun hl => by simp [hpc, Pc.leads] at hl⟩
  | finishing | cleanFinish => rw [hpc] at hrem; cases hrem
  | done => exact absurd hpc hd

end Proxy

namespace Gate

open Lib Proxy

/-- Who waits for a response. -/
inductive Client
  | request (r : Nat)
  | ask (r : Nat)
  deriving DecidableEq

/-- The client has not left. -/
def Connected (s : Gate Key Meta) : Client → Prop
  | .request r => ∃ R, s.proxy.requests r = some R ∧ R.pc ≠ .gone
  | .ask r => ∃ pc, s.asks r = some pc ∧ pc ≠ .gone

/-- The client has its response. -/
def Answered (s : Gate Key Meta) : Client → Prop
  | .request r => ∃ R, s.proxy.requests r = some R ∧ R.pc.over = true
  | .ask r => ∃ pc, s.asks r = some pc ∧ pc.over = true

/-- A step of the client's own request, or of a flight's task. -/
def Action.serves : Client → Action Key → Bool
  | .request r, .proxy a => a.own r || a.works
  | .ask r, .load q | .ask r, .acquire q | .ask r, .answer q => q = r
  | _, _ => false

theorem Action.serves_stays {c : Client} {a : Action Key} (h : a.serves c = true) : a.leaves = false := by
  cases c with
  | request r =>
    cases a with
    | proxy a => cases a <;> first | rfl | cases h
    | _ => cases h
  | ask r => cases a <;> first | rfl | cases h

variable [DecidableEq Key] [DecidableEq Meta] {up : Nat → Slot Key → Fetched Meta} {ask : Nat → Reply Meta}
variable {s s' : Gate Key Meta}

theorem step_sound {a : Action Key} (h : Sound up s.proxy) (hst : step up ask a s = some s') : Sound up s'.proxy := by
  obtain ⟨b, -, hr⟩ | he := step_proxy hst
  · exact hr.sound h
  · exact he ▸ h

theorem run_sound {ok : Gate Key Meta → Action Key → Prop} (h : Run (step up ask) ok Init s) : Sound up s.proxy :=
  h.invariant (fun s => Sound up s.proxy) (fun _ h0 => h0.1.sound) fun _ _ _ hs _ hst => step_sound hs hst

/-! ## A client is served -/

/-- The client's own steps and those of the flights' tasks can bring the state to one of `P`. -/
inductive Comes (up : Nat → Slot Key → Fetched Meta) (ask : Nat → Reply Meta) (c : Client) (P : Gate Key Meta → Prop) :
    Gate Key Meta → Prop
  | here {s : Gate Key Meta} : P s → Comes up ask c P s
  | next {s : Gate Key Meta} {a} {s' : Gate Key Meta} : a.serves c = true → step up ask a s = some s' →
      Comes up ask c P s' → Comes up ask c P s

theorem Comes.trans {c : Client} {P Q : Gate Key Meta → Prop} (h : Comes up ask c P s) (hs : Sound up s.proxy)
    (hPQ : ∀ s, Sound up s.proxy → P s → Comes up ask c Q s) : Comes up ask c Q s := by
  induction h with
  | here hP => exact hPQ _ hs hP
  | next ha hst _ ih => exact .next ha hst (ih (step_sound hs hst))

/-- A run goes on to where the client is served. -/
theorem Comes.trace {c : Client} {P : Gate Key Meta → Prop} {s₀ : Gate Key Meta} (h : Comes up ask c P s) :
    ∀ {as}, Trace (step up ask) Keeps (· = s₀) as s →
      ∃ bs s', (∀ b ∈ bs, b.serves c = true) ∧ Trace (step up ask) Keeps (· = s₀) (as ++ bs) s' ∧ P s' := by
  induction h with
  | here hP => exact fun ht => ⟨[], _, by simp, by simpa using ht, hP⟩
  | @next s a s' ha hst _ ih =>
    intro as ht
    obtain ⟨bs, s'', hbs, ht', hP⟩ := ih (ht.next (Action.stays_keeps (Action.serves_stays ha) s) hst)
    exact ⟨a :: bs, s'', by simpa using ⟨ha, hbs⟩, by simpa using ht', hP⟩

/-- What registers nothing and is no refusal needs no permit. -/
theorem step_of_rule {a : Proxy.Action Key} {p : Proxy Key Meta} (hr : Rule up s.proxy a p) (ha : a.refuses = false)
    (hn : p.next = s.proxy.next) : step up ask (.proxy a) s = some { s with proxy := p } := by
  simp [step, hr.step, takePermit, ha, hn]

theorem Comes.own {r : Nat} {a : Proxy.Action Key} {p : Proxy Key Meta} {P : Gate Key Meta → Prop}
    (hr : Rule up s.proxy a p) (ha : a.refuses = false) (hn : p.next = s.proxy.next) (hown : a.own r = true)
    (h : Comes up ask (.request r) P { s with proxy := p }) : Comes up ask (.request r) P s :=
  .next (by simp [Action.serves, hown]) (step_of_rule hr ha hn) h

/-- A live task comes to its `finish_inflight`; no request moves. -/
theorem comes_to_finish (r : Nat) (n : Nat) : ∀ {s : Gate Key Meta}, Sound up s.proxy → ∀ {t T},
    s.proxy.tasks t = some T → T.pc ≠ .done → T.pc.left ≤ n →
    Comes up ask (.request r) (fun s' => s'.proxy.requests = s.proxy.requests ∧
      ∃ T', s'.proxy.tasks t = some T' ∧ T'.pc.removes = true ∧ (T.pc.leads = true → T'.pc.leads = true)) s := by
  induction n with
  | zero =>
    intro s _ t T _ hd hn
    cases hpc : T.pc <;> simp [hpc, Pc.left] at hn hd
  | succ n ih =>
    intro s hs t T hT hd hn
    cases hrem : T.pc.removes with
    | true => exact .here ⟨rfl, T, hT, hrem, id⟩
    | false =>
      obtain ⟨a, p, pc, h⟩ := Proxy.advance hs.answers hT hd hrem
      have hst : step up ask (.proxy a) s = some { s with proxy := p } := by
        refine step_of_rule h.rule ?_ h.next
        cases a <;> first | rfl | cases h.works
      have hleft : pc.left ≤ n := by have := h.left; omega
      refine .next (by simp [Action.serves, h.works]) hst ?_
      refine (ih (step_sound hs hst) (t := t) (T := { T with pc }) h.task h.live hleft).trans (step_sound hs hst) ?_
      rintro s' - ⟨hq, T', hT', hrem', hl⟩
      exact .here ⟨hq.trans h.requests, T', hT', hrem', fun hlead => hl (h.leads hlead)⟩

/-! ### A request -/

section
variable {r : Nat} {R : Request Key Meta}

/-- The request's client comes to have its response. -/
def Ends (up : Nat → Slot Key → Fetched Meta) (ask : Nat → Reply Meta) (r : Nat) : Gate Key Meta → Prop :=
  Comes up ask (.request r) (Answered · (.request r))

/-- A step of the request's own that answers it. -/
theorem ends_last {a : Proxy.Action Key} {p : Proxy Key Meta} {pc : ReqPc Meta}
    (hr : Rule up s.proxy a (p.setRequest r { R with pc })) (ha : a.refuses = false) (hn : p.next = s.proxy.next)
    (hown : a.own r = true) (hover : pc.over = true) : Ends up ask r s :=
  .own hr ha hn hown (.here ⟨_, Function.update_self .., hover⟩)

theorem ends_serving {f : Nat} (hR : s.proxy.requests r = some R) (hpc : R.pc = .serving f) : Ends up ask r s := by
  cases he : s.proxy.stored R.slot.key with
  | some e => exact ends_last (.serve hR hpc he) rfl rfl (by simp [Proxy.Action.own]) rfl
  | none => exact ends_last (.serveMissing hR hpc he) rfl rfl (by simp [Proxy.Action.own]) rfl

/-- A request whose flight has its outcome. -/
theorem ends_settled {f : Nat} {F : Flight Key Meta} {o : Outcome Meta} (hR : s.proxy.requests r = some R)
    (hpc : R.pc = .waiting f) (hF : s.proxy.flights f = some F) (ho : F.outcome = some o) : Ends up ask r s := by
  by_cases hc : o = .cached ∧ R.slot.cls = .artifact
  · obtain ⟨rfl, hcls⟩ := hc
    refine .own (.awaitCached hR hpc hF ho hcls) rfl rfl (by simp [Proxy.Action.own]) ?_
    exact ends_serving (Function.update_self ..) rfl
  · exact ends_last (.awaitReply hR hpc hF ho hc) rfl rfl (by simp [Proxy.Action.own]) rfl

/-- A request that waits has an outcome, or an owner of its flight that comes to set it. -/
theorem ends_waiting {f : Nat} (hs : Sound up s.proxy) (hR : s.proxy.requests r = some R) (hpc : R.pc = .waiting f) :
    Ends up ask r s := by
  obtain ⟨F, hF, hslot⟩ := hs.joined hR (.inl hpc)
  cases ho : F.outcome with
  | some o => exact ends_settled hR hpc hF ho
  | none =>
    obtain ⟨t, rfl, T, hT, -, hd⟩ := hs.owned.owner (hs.owned.unsettled hF ho)
    refine (comes_to_finish r _ hs hT hd le_rfl).trans hs ?_
    rintro s' hs' ⟨hq, T', hT', hrem, -⟩
    obtain ⟨F', o, hF', ho'⟩ := hs'.owned.settled hT' hrem
    exact ends_settled (hq ▸ hR) hpc hF' ho'

/-- A request that leads a metadata fetch comes to its end. -/
theorem ends_leading {f : Nat} (hs : Sound up s.proxy) (hR : s.proxy.requests r = some R) (hpc : R.pc = .leading f) :
    Ends up ask r s := by
  obtain ⟨T, hT, hl⟩ := hs.led hR hpc
  refine (comes_to_finish r _ hs hT (Pc.leads_live hl) le_rfl).trans hs ?_
  rintro s' hs' ⟨hq, T', hT', hrem, hl'⟩
  obtain ⟨o, ho⟩ : ∃ o, T'.pc = .finishing o := by
    cases hpc' : T'.pc <;> simp_all [Pc.removes, Pc.leads]
  have hR' : s'.proxy.requests r = some R := hq ▸ hR
  obtain ⟨L, hL, hh, -⟩ := hs'.hosted hR' hpc
  cases hT'.symm.trans hL
  refine .next (a := .proxy (.finish (.leader f))) rfl (step_of_rule (.finish hT' ho) rfl rfl) (.here ?_)
  refine ⟨{ R with pc := .answered (o.reply.sent R.method) (some f) }, ?_, rfl⟩
  simp [answerHost, setTask, setRequest, TaskId.flight, hh, hR', hpc]

/-- A flight is registered when there is a permit, and the request refused when there is none. -/
theorem ends_permit {a : Proxy.Action Key} {p : Proxy Key Meta} (hR : s.proxy.requests r = some R)
    (hm : s.proxy.map R.slot = none) (hc : R.pc = .recheck ∨ R.pc = .check ∧ R.slot.cls = .metadata)
    (hr : Rule up s.proxy a p) (ha : a.refuses = false) (hown : a.own r = true)
    (h : ∀ s' : Gate Key Meta, s'.proxy = p → Ends up ask r s') : Ends up ask r s := by
  by_cases h0 : s.available = 0
  · have hrefuse : Rule up s.proxy (.refuse r) (s.proxy.setRequest r { R with pc := .refused }) := .refuse hR hm hc
    have hst : step up ask (.proxy (.refuse r)) s =
        some { s with proxy := s.proxy.setRequest r { R with pc := .refused } } := by
      simp [step, hrefuse.step, takePermit, Proxy.Action.refuses, h0]
    exact .next (by simp [Action.serves, Proxy.Action.own]) hst (.here ⟨_, Function.update_self .., rfl⟩)
  · have hserves : (Action.proxy a).serves (.request r) = true := by simp [Action.serves, hown]
    by_cases hn : p.next = s.proxy.next
    · exact .next hserves (step_of_rule hr ha hn) (h _ rfl)
    · refine .next hserves ?_ (h { s with
        proxy := p, available := s.available - 1, held := Function.update s.held s.proxy.next true } rfl)
      simp [step, hr.step, takePermit, ha, hn, h0]

theorem ends_recheck (hs : Sound up s.proxy) (hR : s.proxy.requests r = some R) (hpc : R.pc = .recheck) :
    Ends up ask r s := by
  cases hm : s.proxy.map R.slot with
  | some f =>
    have hr : Rule up s.proxy _ _ := .recheckJoin hR hpc hm
    refine .own hr rfl rfl (by simp [Proxy.Action.own]) ?_
    exact ends_waiting (hr.sound hs) (Function.update_self ..) rfl
  | none =>
    have hr : Rule up s.proxy _ _ := .recheckLead hR hpc hm
    refine ends_permit hR hm (.inl hpc) hr rfl (by simp [Proxy.Action.own]) ?_
    intro s' he
    have hR' : s'.proxy.requests r = some { R with pc := .waiting s.proxy.next } := by
      rw [he]
      exact Function.update_self ..
    exact ends_waiting (he ▸ hr.sound hs) hR' rfl

theorem ends_load (hs : Sound up s.proxy) (hR : s.proxy.requests r = some R) (hpc : R.pc = .load) :
    Ends up ask r s := by
  cases he : s.proxy.stored R.slot.key with
  | some e => exact ends_last (.loadHit hR hpc he) rfl rfl (by simp [Proxy.Action.own]) rfl
  | none =>
    have hr : Rule up s.proxy _ _ := .loadMiss hR hpc he
    refine .own hr rfl rfl (by simp [Proxy.Action.own]) ?_
    exact ends_recheck (hr.sound hs) (Function.update_self ..) rfl

theorem ends_check (hs : Sound up s.proxy) (hR : s.proxy.requests r = some R) (hpc : R.pc = .check) :
    Ends up ask r s := by
  cases hm : s.proxy.map R.slot with
  | some f =>
    have hr : Rule up s.proxy _ _ := .lookupJoin hR hpc hm
    refine .own hr rfl rfl (by simp [Proxy.Action.own]) ?_
    exact ends_waiting (hr.sound hs) (Function.update_self ..) rfl
  | none =>
    cases hc : R.slot.cls with
    | artifact =>
      have hr : Rule up s.proxy _ _ := .lookupMiss hR hpc hm hc
      refine .own hr rfl rfl (by simp [Proxy.Action.own]) ?_
      exact ends_load (hr.sound hs) (Function.update_self ..) rfl
    | metadata =>
      have hr : Rule up s.proxy _ _ := .lookupLead hR hpc hm hc
      refine ends_permit hR hm (.inr ⟨hpc, hc⟩) hr rfl (by simp [Proxy.Action.own]) ?_
      intro s' he
      have hR' : s'.proxy.requests r = some { R with pc := .leading s.proxy.next } := by
        rw [he]
        exact Function.update_self ..
      exact ends_leading (he ▸ hr.sound hs) hR' rfl

end

/-! ### Every client -/

theorem ask_ends {r : Nat} {pc : AskPc Key Meta} (hr : s.asks r = some pc) (hg : pc ≠ .gone) :
    Comes up ask (.ask r) (Answered · (.ask r)) s := by
  have exchange : ∀ {s : Gate Key Meta}, s.asks r = some .exchanging →
      Comes up ask (.ask r) (Answered · (.ask r)) s := by
    intro s hr
    refine .next (a := .answer r) (by simp [Action.serves]) (by simp only [step, hr]; rfl) ?_
    exact .here ⟨_, Function.update_self .., rfl⟩
  have acquire : ∀ {s : Gate Key Meta}, s.asks r = some .acquire → Comes up ask (.ask r) (Answered · (.ask r)) s := by
    intro s hr
    by_cases h0 : s.available = 0
    · have hst : step up ask (.acquire r) s = some (s.setAsk r .refused) := by simp [step, hr, h0]
      exact .next (by simp [Action.serves]) hst (.here ⟨_, Function.update_self .., rfl⟩)
    · have hst : step up ask (.acquire r) s = some { s.setAsk r .exchanging with available := s.available - 1 } := by
        simp [step, hr, h0]
      exact .next (by simp [Action.serves]) hst (exchange (Function.update_self ..))
  cases pc with
  | load key =>
    cases he : s.proxy.stored key with
    | some e =>
      refine .next (a := .load r) (by simp [Action.serves]) (by simp only [step, hr, he]; rfl) ?_
      exact .here ⟨_, Function.update_self .., rfl⟩
    | none =>
      refine .next (a := .load r) (by simp [Action.serves]) (by simp only [step, hr, he]; rfl) ?_
      exact acquire (Function.update_self ..)
  | acquire => exact acquire hr
  | exchanging => exact exchange hr
  | answered | refused => exact .here ⟨_, hr, rfl⟩
  | gone => exact absurd rfl hg

/-- A client that stays is served, by its own steps and those of the flights' tasks. -/
theorem client_served (hs : Sound up s.proxy) {c : Client} (hc : Connected s c) : Comes up ask c (Answered · c) s := by
  cases c with
  | ask r =>
    obtain ⟨pc, hr, hg⟩ := hc
    exact ask_ends hr hg
  | request r =>
    obtain ⟨R, hR, hg⟩ := hc
    cases hpc : R.pc with
    | check => exact ends_check hs hR hpc
    | load => exact ends_load hs hR hpc
    | recheck => exact ends_recheck hs hR hpc
    | leading f => exact ends_leading hs hR hpc
    | waiting f => exact ends_waiting hs hR hpc
    | serving f => exact ends_serving hR hpc
    | answered | refused => exact .here ⟨R, hR, by rw [hpc]; rfl⟩
    | gone => exact absurd hpc hg

end Gate

end Vampire
