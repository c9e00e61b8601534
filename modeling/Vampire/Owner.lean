/-
Who owns an inflight entry.

An entry of the map belongs to one task that is not done: the leader that
registered it, or the cleanup task its drop guard spawned. The owner settles
the flight before it removes the entry, and removes the entry before it is
done, so a flight that nobody owns has left the map and has its outcome.
-/
import Vampire.Rules

namespace Vampire

variable {Key Meta : Type}

/-- At the file calls on `<key>.part`: create, append, rename, remove. -/
def Pc.touches : Pc Meta → Bool
  | .creating | .writing | .flushing | .appending | .sealing | .renaming | .unlinking _ | .cleanUnlink => true
  | _ => false

/-- At its `finish_inflight`. -/
def Pc.removes : Pc Meta → Bool
  | .finishing _ | .cleanFinish => true
  | _ => false

theorem Pc.removes_live {pc : Pc Meta} (h : pc.removes = true) : pc ≠ .done := by
  rintro rfl
  cases h

theorem Pc.touches_live {pc : Pc Meta} (h : pc.touches = true) : pc ≠ .done := by
  rintro rfl
  cases h

/-- One await after another of one task, before its `finish_inflight`. -/
def Pc.Next (pc pc' : Pc Meta) : Prop := pc ≠ .done ∧ pc' ≠ .done ∧ pc.leads = pc'.leads ∧ pc'.removes = false

theorem Pc.fetches_leads {pc : Pc Meta} (h : pc.fetches = true) : pc.leads = true := by
  cases pc <;> first | rfl | cases h

theorem Pc.fetches_stays {pc : Pc Meta} (h : pc.fetches = true) : pc.removes = false := by
  cases pc <;> first | rfl | cases h

theorem Pc.Next.of_fetches {pc pc' : Pc Meta} (h : pc.fetches = true) (h' : pc'.leads = true)
    (hr : pc'.removes = false) : pc.Next pc' :=
  ⟨fetches_live h, leads_live h', (fetches_leads h).trans h'.symm, hr⟩

theorem Class.cleanup_live (c : Class) : (c.cleanup : Pc Meta) ≠ .done := by
  cases c <;> simp [Class.cleanup]

theorem Class.cleanup_removes (c : Class) : (c.cleanup : Pc Meta).removes = false := by
  cases c <;> rfl

namespace Proxy

open Lib

/-- The task is a running leader of the flight, or its cleanup. -/
def Owns (s : Proxy Key Meta) (t : TaskId) (slot : Slot Key) (f : Nat) : Prop :=
  t.flight = f ∧ ∃ T, s.tasks t = some T ∧ T.slot = slot ∧ T.pc ≠ .done

structure Owned (s : Proxy Key Meta) : Prop where
  flight_lt : ∀ {f F}, s.flights f = some F → f < s.next
  flight : ∀ {t T}, s.tasks t = some T → ∃ F, s.flights t.flight = some F ∧ F.slot = T.slot
  leads : ∀ {f T}, s.tasks (.cleanup f) = some T → T.pc.leads = false
  spawned : ∀ {f C}, s.tasks (.cleanup f) = some C → ∃ T, s.tasks (.leader f) = some T ∧ T.pc = .done
  held : ∀ {t T}, s.tasks t = some T → T.pc ≠ .done → s.map T.slot = some t.flight
  owner : ∀ {slot f}, s.map slot = some f → ∃ t, s.Owns t slot f
  unsettled : ∀ {f F}, s.flights f = some F → F.outcome = none → s.map F.slot = some f
  settled : ∀ {t T}, s.tasks t = some T → T.pc.removes = true →
    ∃ F o, s.flights t.flight = some F ∧ F.outcome = some o

/-- A leader and its cleanup are not both live. -/
theorem Owned.alone {s : Proxy Key Meta} (h : Owned s) {t t' : TaskId} {T T' : Task Key Meta}
    (ht : s.tasks t = some T) (ht' : s.tasks t' = some T') (hd : T.pc ≠ .done) (hd' : T'.pc ≠ .done)
    (hf : t.flight = t'.flight) : t = t' := by
  have cleanup : ∀ {f : Nat} {L C : Task Key Meta}, s.tasks (.leader f) = some L → s.tasks (.cleanup f) = some C →
      L.pc = .done := by
    intro f L C hL hC
    obtain ⟨L', hL', hd⟩ := h.spawned hC
    cases hL.symm.trans hL'
    exact hd
  cases t with
  | leader f =>
    cases t' with
    | leader f' => cases hf; rfl
    | cleanup f' => cases hf; exact absurd (cleanup ht ht') hd
  | cleanup f =>
    cases t' with
    | leader f' => cases hf; exact absurd (cleanup ht' ht) hd'
    | cleanup f' => cases hf; rfl

/-- One live task a slot. -/
theorem Owned.one {s : Proxy Key Meta} (h : Owned s) {t t' : TaskId} {T T' : Task Key Meta}
    (ht : s.tasks t = some T) (ht' : s.tasks t' = some T') (hd : T.pc ≠ .done) (hd' : T'.pc ≠ .done)
    (hs : T.slot = T'.slot) : t = t' :=
  h.alone ht ht' hd hd' (Option.some.inj ((h.held ht hd).symm.trans (hs ▸ h.held ht' hd')))

/-- A slot that is not in the map has no live task. -/
theorem Owned.idle {s : Proxy Key Meta} (h : Owned s) {slot : Slot Key} (hm : s.map slot = none) {t : TaskId}
    {T : Task Key Meta} (ht : s.tasks t = some T) (hs : T.slot = slot) : T.pc = .done := by
  by_contra hd
  have := h.held ht hd
  simp [hs, hm] at this

/-- A flight not yet registered has no task. -/
theorem Owned.fresh {s : Proxy Key Meta} (h : Owned s) {t : TaskId} (hf : s.next ≤ t.flight) : s.tasks t = none := by
  by_contra hd
  obtain ⟨T, hT⟩ := Option.ne_none_iff_exists'.1 hd
  obtain ⟨F, hF, -⟩ := h.flight hT
  exact absurd (h.flight_lt hF) (Nat.not_lt.2 hf)

/-! ## What the parts of a step keep -/

theorem Owned.frame {s : Proxy Key Meta} (h : Owned s) (requests disk gets lost) :
    Owned { s with requests, disk, gets, lost } :=
  ⟨h.flight_lt, h.flight, h.leads, h.spawned, h.held, h.owner, h.unsettled, h.settled⟩

/-- A live task's next await. -/
theorem Owned.setTask {s : Proxy Key Meta} (h : Owned s) {t : TaskId} {T : Task Key Meta} (ht : s.tasks t = some T)
    (pc : Pc Meta) (hlive : T.pc ≠ .done) (hpc : pc ≠ .done) (hlead : T.pc.leads = pc.leads)
    (hset : pc.removes = true → ∃ F o, s.flights t.flight = some F ∧ F.outcome = some o) :
    Owned (s.setTask t { T with pc }) := by
  refine ⟨h.flight_lt, ?_, ?_, ?_, ?_, ?_, h.unsettled, ?_⟩
  · intro u U hu
    obtain ⟨rfl, rfl⟩ | ⟨-, hu⟩ := setTask_cases _ _ _ hu
    · exact (h.flight ht :)
    · exact h.flight hu
  · intro f U hu
    obtain ⟨rfl, rfl⟩ | ⟨-, hu⟩ := setTask_cases _ _ _ hu
    · exact hlead ▸ h.leads ht
    · exact h.leads hu
  · intro f C hC
    have old : ∀ {C'}, s.tasks (.cleanup f) = some C' → ∃ L, (s.setTask t { T with pc }).tasks (.leader f) = some L ∧
        L.pc = .done := by
      intro C' hC'
      obtain ⟨L, hL, hd⟩ := h.spawned hC'
      refine ⟨L, (Function.update_of_ne ?_ ..).trans hL, hd⟩
      rintro rfl
      cases ht.symm.trans hL
      exact hlive hd
    obtain ⟨rfl, -⟩ | ⟨-, hC⟩ := setTask_cases _ _ _ hC
    · exact old ht
    · exact old hC
  · intro u U hu hU
    obtain ⟨rfl, rfl⟩ | ⟨-, hu⟩ := setTask_cases _ _ _ hu
    · exact (h.held ht hlive :)
    · exact h.held hu hU
  · intro slot f hm
    obtain ⟨u, rfl, U, hu, rfl, hU⟩ := h.owner hm
    by_cases he : u = t
    · subst he
      cases ht.symm.trans hu
      exact ⟨u, rfl, _, Function.update_self .., rfl, hpc⟩
    · exact ⟨u, rfl, U, (Function.update_of_ne he ..).trans hu, rfl, hU⟩
  · intro u U hu hr
    obtain ⟨rfl, rfl⟩ | ⟨-, hu⟩ := setTask_cases _ _ _ hu
    · exact hset hr
    · exact h.settled hu hr

variable [DecidableEq Key]

theorem Owned.register {s : Proxy Key Meta} (h : Owned s) {slot : Slot Key} (hm : s.map slot = none)
    (host : Option Nat) : Owned (s.register slot host) := by
  have old : ∀ {f F}, s.flights f = some F → (s.register slot host).flights f = some F := fun hf =>
    (Function.update_of_ne (Nat.ne_of_lt (h.flight_lt hf)) ..).trans hf
  have htask : ∀ {t T}, (s.register slot host).tasks t = some T →
      t = .leader s.next ∧ T = ⟨slot, host, .start⟩ ∨ s.tasks t = some T := by
    intro t T ht
    simp only [Proxy.register, Function.update_apply] at ht
    split at ht
    · next he => exact .inl ⟨he, (Option.some.inj ht).symm⟩
    · exact .inr ht
  have told : ∀ {t T}, s.tasks t = some T → (s.register slot host).tasks t = some T := by
    intro t T ht
    refine (Function.update_of_ne ?_ ..).trans ht
    rintro rfl
    simp [h.fresh (Nat.le_refl (TaskId.leader s.next).flight)] at ht
  refine ⟨?_, ?_, ?_, ?_, ?_, ?_, ?_, ?_⟩
  · intro f F hf
    simp only [Proxy.register, Function.update_apply] at hf ⊢
    split at hf
    · omega
    · exact Nat.lt_succ_of_lt (h.flight_lt hf)
  · intro t T ht
    obtain ⟨rfl, rfl⟩ | ht := htask ht
    · exact ⟨_, Function.update_self .., rfl⟩
    · obtain ⟨F, hF, hs⟩ := h.flight ht
      exact ⟨F, old hF, hs⟩
  · intro f T ht
    obtain ⟨he, -⟩ | ht := htask ht
    · cases he
    · exact h.leads ht
  · intro f C hC
    obtain ⟨he, -⟩ | hC := htask hC
    · cases he
    · obtain ⟨L, hL, hd⟩ := h.spawned hC
      exact ⟨L, told hL, hd⟩
  · intro t T ht hd
    simp only [Proxy.register, Function.update_apply]
    obtain ⟨rfl, rfl⟩ | ht := htask ht
    · exact if_pos rfl
    · exact (if_neg fun he => hd (h.idle hm ht he)).trans (h.held ht hd)
  · intro sl f hf
    simp only [Proxy.register, Function.update_apply] at hf
    split at hf
    · next he => cases hf; exact ⟨.leader s.next, rfl, _, Function.update_self .., he.symm, by simp⟩
    · obtain ⟨t, rfl, T, ht, hT⟩ := h.owner hf
      exact ⟨t, rfl, T, told ht, hT⟩
  · intro f F hf ho
    simp only [Proxy.register, Function.update_apply] at hf ⊢
    split at hf
    · next he => cases hf; rw [if_pos rfl, he]
    · have hmap := h.unsettled hf ho
      exact (if_neg fun he => by simp [he, hm] at hmap).trans hmap
  · intro t T ht hr
    obtain ⟨rfl, rfl⟩ | ht := htask ht
    · cases hr
    · obtain ⟨F, o, hF, ho⟩ := h.settled ht hr
      exact ⟨F, o, old hF, ho⟩

omit [DecidableEq Key] in
theorem Owned.complete {s : Proxy Key Meta} (h : Owned s) (f : Nat) (o : Outcome Meta) : Owned (s.complete f o) := by
  have hf : ∀ {g G}, (s.complete f o).flights g = some G → ∃ F, s.flights g = some F ∧ G.slot = F.slot ∧
      (G.outcome = none → F.outcome = none) := by
    intro g G hg
    rw [complete_flights] at hg
    split at hg
    · next he =>
      obtain ⟨F, hF, rfl⟩ := Option.map_eq_some_iff.1 hg
      exact ⟨F, he ▸ hF, rfl, by simp⟩
    · exact ⟨G, hg, rfl, id⟩
  have hold : ∀ {g F}, s.flights g = some F → ∃ G, (s.complete f o).flights g = some G ∧ G.slot = F.slot ∧
      ∀ o', F.outcome = some o' → G.outcome = some o' := by
    intro g F hF
    rw [complete_flights]
    split
    · next he =>
      subst he
      rw [hF]
      exact ⟨_, rfl, rfl, fun o' ho => by simp [ho]⟩
    · exact ⟨F, hF, rfl, fun _ => id⟩
  refine ⟨?_, ?_, h.leads, h.spawned, h.held, h.owner, ?_, ?_⟩
  · intro g G hg
    obtain ⟨F, hF, -, -⟩ := hf hg
    exact h.flight_lt hF
  · intro t T ht
    obtain ⟨F, hF, hs⟩ := h.flight ht
    obtain ⟨G, hG, hGs, -⟩ := hold hF
    exact ⟨G, hG, hGs.trans hs⟩
  · intro g G hg ho
    obtain ⟨F, hF, hs, hn⟩ := hf hg
    exact hs ▸ h.unsettled hF (hn ho)
  · intro t T ht hr
    obtain ⟨F, o', hF, ho'⟩ := h.settled ht hr
    obtain ⟨G, hG, -, hGo⟩ := hold hF
    exact ⟨G, o', hG, hGo o' ho'⟩

/-- `finish_inflight` by the owner, at its last await. -/
theorem Owned.release {s : Proxy Key Meta} (h : Owned s) {t : TaskId} {T : Task Key Meta} (ht : s.tasks t = some T)
    (hr : T.pc.removes = true) :
    Owned ({ s with map := Function.update s.map T.slot none }.setTask t { T with pc := .done }) := by
  have hd := Pc.removes_live hr
  refine ⟨h.flight_lt, ?_, ?_, ?_, ?_, ?_, ?_, ?_⟩
  · intro u U hu
    obtain ⟨rfl, rfl⟩ | ⟨-, hu⟩ := setTask_cases _ _ _ hu
    · exact (h.flight ht :)
    · exact h.flight hu
  · intro f U hu
    obtain ⟨-, rfl⟩ | ⟨-, hu⟩ := setTask_cases _ _ _ hu
    · rfl
    · exact h.leads hu
  · intro f C hC
    have old : ∀ {C'}, s.tasks (.cleanup f) = some C' → ∃ L,
        ({ s with map := Function.update s.map T.slot none }.setTask t { T with pc := .done }).tasks (.leader f) =
          some L ∧ L.pc = .done := by
      intro C' hC'
      obtain ⟨L, hL, hd⟩ := h.spawned hC'
      by_cases he : TaskId.leader f = t
      · subst he
        exact ⟨_, Function.update_self .., rfl⟩
      · exact ⟨L, (Function.update_of_ne he ..).trans hL, hd⟩
    obtain ⟨rfl, -⟩ | ⟨-, hC⟩ := setTask_cases _ _ _ hC
    · exact old ht
    · exact old hC
  · intro u U hu hU
    obtain ⟨-, rfl⟩ | ⟨hne, hu⟩ := setTask_cases _ _ _ hu
    · exact absurd rfl hU
    · exact (Function.update_of_ne (fun he => hne (h.one hu ht hU hd he)) ..).trans (h.held hu hU)
  · intro slot f hm
    simp only [Proxy.setTask, Function.update_apply] at hm
    split at hm
    · cases hm
    · next hne =>
      obtain ⟨u, rfl, U, hu, rfl, hU⟩ := h.owner hm
      refine ⟨u, rfl, U, (Function.update_of_ne ?_ ..).trans hu, rfl, hU⟩
      rintro rfl
      cases ht.symm.trans hu
      exact hne rfl
  · intro f F hf ho
    have hmap := h.unsettled hf ho
    refine (Function.update_of_ne ?_ ..).trans hmap
    -- The flight the task removes has its outcome.
    intro he
    obtain ⟨G, o, hG, hGo⟩ := h.settled ht hr
    rw [he, h.held ht hd, Option.some.injEq] at hmap
    subst hmap
    cases hf.symm.trans hG
    simp [ho] at hGo
  · intro u U hu hrem
    obtain ⟨-, rfl⟩ | ⟨-, hu⟩ := setTask_cases _ _ _ hu
    · cases hrem
    · exact h.settled hu hrem

/-- A drop hands the entry over to the cleanup task. -/
theorem Owned.dropTask {s : Proxy Key Meta} (h : Owned s) {t : TaskId} {T : Task Key Meta} (ht : s.tasks t = some T)
    (hlead : T.pc.leads = true) : Owned (s.dropTask t T) := by
  have hlive := Pc.leads_live hlead
  obtain ⟨f, rfl⟩ : ∃ f, t = .leader f := by
    cases t with
    | leader f => exact ⟨f, rfl⟩
    | cleanup f => simp [h.leads ht] at hlead
  have hleader : (s.dropTask (.leader f) T).tasks (.leader f) = some { T with pc := .done } := by
    simp [Proxy.dropTask, Proxy.lose, Proxy.setTask]
  have hcleanup : (s.dropTask (.leader f) T).tasks (.cleanup f) = some ⟨T.slot, none, T.slot.cls.cleanup⟩ :=
    Function.update_self ..
  refine ⟨?_, ?_, ?_, ?_, ?_, ?_, ?_, ?_⟩
  · exact h.flight_lt
  · intro u U hu
    obtain ⟨rfl, rfl⟩ | ⟨rfl, rfl⟩ | ⟨-, -, hu⟩ := dropTask_cases hu
    · exact (h.flight ht :)
    · exact (h.flight ht :)
    · exact h.flight hu
  · intro g U hu
    obtain ⟨-, rfl⟩ | ⟨-, rfl⟩ | ⟨-, -, hu⟩ := dropTask_cases hu
    · cases T.slot.cls <;> rfl
    · rfl
    · exact h.leads hu
  · intro g C hC
    by_cases hg : g = f
    · subst hg
      exact ⟨_, hleader, rfl⟩
    · obtain ⟨L, hL, hd⟩ := h.spawned ((dropTask_others (t := .leader f) hg).2.symm.trans hC)
      exact ⟨L, (dropTask_others (t := .leader f) hg).1.trans hL, hd⟩
  · intro u U hu hU
    obtain ⟨rfl, rfl⟩ | ⟨rfl, rfl⟩ | ⟨-, -, hu⟩ := dropTask_cases hu
    · exact (h.held ht hlive :)
    · exact absurd rfl hU
    · exact h.held hu hU
  · intro slot g hm
    obtain ⟨u, rfl, U, hu, rfl, hU⟩ := h.owner hm
    by_cases hg : u.flight = f
    · cases h.alone hu ht hU hlive hg
      cases ht.symm.trans hu
      exact ⟨.cleanup f, rfl, _, hcleanup, rfl, T.slot.cls.cleanup_live⟩
    · exact ⟨u, rfl, U, (dropTask_other hg).trans hu, rfl, hU⟩
  · exact h.unsettled
  · intro u U hu hr
    obtain ⟨-, rfl⟩ | ⟨-, rfl⟩ | ⟨-, -, hu⟩ := dropTask_cases hu
    · simp [T.slot.cls.cleanup_removes] at hr
    · cases hr
    · exact h.settled hu hr

/-! ## Every step -/

variable [DecidableEq Meta] {up : Nat → Slot Key → Fetched Meta}

omit [DecidableEq Key] in
theorem Owned.answerHost {s : Proxy Key Meta} (h : Owned s) (t : TaskId) (T : Task Key Meta) (o : Outcome Meta) :
    Owned (s.answerHost t T o) :=
  h.frame ..

omit [DecidableEq Key] [DecidableEq Meta] in
theorem Owned.setRequest {s : Proxy Key Meta} (h : Owned s) (r : Nat) (R : Request Key Meta) :
    Owned (s.setRequest r R) :=
  h.frame ..

omit [DecidableEq Meta] in
theorem Owned.publish {s : Proxy Key Meta} (h : Owned s) (key : Key) (e : CacheEntry Meta) :
    Owned (s.publish key e) :=
  h.frame ..

omit [DecidableEq Key] [DecidableEq Meta] in
theorem Owned.settle {s : Proxy Key Meta} (h : Owned s) {t : TaskId} {T : Task Key Meta} (ht : s.tasks t = some T)
    (hlive : T.pc ≠ .done) (o : Outcome Meta) {pc : Pc Meta} (hpc : pc ≠ .done) (hlead : T.pc.leads = pc.leads) :
    Owned ((s.complete t.flight o).setTask t { T with pc }) := by
  refine (h.complete ..).setTask ht pc hlive hpc hlead fun _ => ?_
  obtain ⟨F, hF, -⟩ := h.flight ht
  rw [complete_flights, if_pos rfl, hF]
  exact ⟨_, F.outcome.getD o, rfl, by cases h : F.outcome <;> simp [h]⟩

omit [DecidableEq Key] [DecidableEq Meta] in
/-- A step of a task before its `finish_inflight`. -/
theorem Owned.advance {s : Proxy Key Meta} (h : Owned s) {t : TaskId} {T : Task Key Meta} (ht : s.tasks t = some T)
    (pc : Pc Meta) (hn : T.pc.Next pc) : Owned (s.setTask t { T with pc }) :=
  h.setTask ht pc hn.1 hn.2.1 hn.2.2.1 fun hr => by simp [hn.2.2.2] at hr

/-- One owner, step by step. -/
theorem Rule.owned {s s' : Proxy Key Meta} {a : Action Key} (hr : Rule up s a s') (h : Owned s) : Owned s' := by
  cases hr with
  | arrive | lookupJoin | lookupMiss | loadHit | loadMiss | recheckJoin | refuse | awaitCached | awaitReply | serve
  | serveMissing | disconnect => exact h.setRequest ..
  | land => exact h.publish ..
  | tear | evict => exact h.frame ..
  | lookupLead _ _ hm => exact (h.register hm _).setRequest ..
  | recheckLead _ _ hm => exact (h.register hm _).setRequest ..
  | disconnectLeader _ _ ht hl => exact (h.dropTask ht hl).setRequest ..
  | drop ht _ hl => exact h.dropTask ht hl
  | send ht hpc => exact Owned.frame (h.advance ht .fetching (hpc ▸ .of_fetches rfl rfl rfl)) ..
  | answer ht hpc => exact h.advance ht _ (hpc ▸ .of_fetches rfl rfl rfl)
  | answerNonOk ht hpc => exact (h.advance ht (.settling _) (hpc ▸ .of_fetches rfl rfl rfl)).frame ..
  | answerMetadata ht hpc => exact h.advance ht _ (hpc ▸ .of_fetches rfl rfl rfl)
  | file ht hpc =>
    obtain ⟨h1, h2⟩ := Pc.nextFile_fetches hpc
    exact h.advance ht _ (.of_fetches h1 (Pc.fetches_leads h2) (Pc.fetches_stays h2))
  | rename ht hpc => exact (h.publish ..).advance ht _ (hpc ▸ .of_fetches rfl rfl rfl)
  | failArtifact ht _ hf => exact (h.advance ht (.unlinking _) (.of_fetches hf rfl rfl)).frame ..
  | failMetadata ht _ hf => exact h.advance ht _ (.of_fetches hf rfl rfl)
  | unlink ht hpc => exact h.advance ht _ (hpc ▸ ⟨by simp, by simp, rfl, rfl⟩)
  | cleanUnlink ht hpc => exact h.advance ht _ (hpc ▸ ⟨by simp, by simp, rfl, rfl⟩)
  | settle ht hpc => exact h.settle ht (hpc ▸ (by simp)) _ (by simp) (hpc ▸ rfl)
  | cleanFail ht hpc => exact h.settle ht (hpc ▸ (by simp)) _ (by simp) (hpc ▸ rfl)
  | finish ht hpc => exact (h.release ht (hpc ▸ rfl)).answerHost ..
  | cleanFinish ht hpc => exact h.release ht (hpc ▸ rfl)

/-! ## Requests and their flights -/

/-- A flight keeps its slot, and its outcome once it has one. -/
def Kept (f : Nat) (F : Flight Key Meta) (s : Proxy Key Meta) : Prop :=
  ∃ F', s.flights f = some F' ∧ F'.slot = F.slot ∧ ∀ o, F.outcome = some o → F'.outcome = some o

theorem Rule.flight_kept {s s' : Proxy Key Meta} {a : Action Key} (hr : Rule up s a s') (h : Owned s) {f : Nat}
    {F : Flight Key Meta} (hF : s.flights f = some F) : Kept f F s' := by
  have same : ∀ {s'' : Proxy Key Meta}, s''.flights = s.flights → Kept f F s'' := fun he =>
    ⟨F, (congrFun he f).trans hF, rfl, fun _ => id⟩
  have grown : ∀ slot host, (s.register slot host).flights f = some F := fun slot host =>
    (Function.update_of_ne (Nat.ne_of_lt (h.flight_lt hF)) ..).trans hF
  have settled : ∀ {g o}, Kept f F (s.complete g o) := by
    intro g o
    unfold Kept
    rw [complete_flights]
    split
    · next he => subst he; rw [hF]; exact ⟨_, rfl, rfl, fun o' ho => by simp [ho]⟩
    · exact ⟨F, hF, rfl, fun _ => id⟩
  cases hr with
  | arrive | lookupJoin | lookupMiss | loadHit | loadMiss | recheckJoin | refuse | awaitCached | awaitReply | serve
  | serveMissing | disconnect | land | answer | answerMetadata | file | rename | failMetadata | unlink
  | cleanUnlink | cleanFinish | disconnectLeader | drop | send | answerNonOk | failArtifact | tear | evict
  | finish => exact same rfl
  | @lookupLead r R => exact ⟨F, grown R.slot (some r), rfl, fun _ => id⟩
  | @recheckLead r R => exact ⟨F, grown R.slot none, rfl, fun _ => id⟩
  | settle | cleanFail => exact settled

/-- A request that waits on a flight waits on one of its own slot. -/
def Joined (s : Proxy Key Meta) : Prop :=
  ∀ {r R f}, s.requests r = some R → R.pc = .waiting f ∨ R.pc = .serving f →
    ∃ F, s.flights f = some F ∧ F.slot = R.slot

omit [DecidableEq Key] [DecidableEq Meta] in
/-- An entry of the map is a flight of its slot. -/
theorem Owned.entry {s : Proxy Key Meta} (h : Owned s) {slot : Slot Key} {f : Nat} (hm : s.map slot = some f) :
    ∃ F, s.flights f = some F ∧ F.slot = slot := by
  obtain ⟨t, rfl, T, ht, rfl, -⟩ := h.owner hm
  exact h.flight ht

theorem Rule.joined {s s' : Proxy Key Meta} {a : Action Key} (hr : Rule up s a s') (h : Owned s) (hj : Joined s) :
    Joined s' := by
  intro r R f hR hpc
  have kept : (∃ F, s.flights f = some F ∧ F.slot = R.slot) → ∃ F, s'.flights f = some F ∧ F.slot = R.slot := by
    rintro ⟨F, hF, hs⟩
    obtain ⟨F', hF', hs', -⟩ := hr.flight_kept h hF
    exact ⟨F', hF', hs'.trans hs⟩
  cases hr.turn hR with
  | stays hR => exact kept (hj hR hpc)
  | arrives => simp at hpc
  | moves hQ hm =>
    -- Only a join, a launch and a `Cached` outcome leave a request with a flight.
    cases hm with
    | join _ hmap =>
      obtain rfl : _ = f := by simpa using hpc
      exact kept (h.entry hmap)
    | launch _ _ hF =>
      obtain rfl : _ = f := by simpa using hpc
      exact ⟨_, hF, rfl⟩
    | cached hw =>
      obtain rfl : _ = f := by simpa using hpc
      exact kept (hj hQ (.inl hw) :)
    | miss | lead | hit | absent | refuse | reply | serve | missing | hosted | gone => simp at hpc

/-! ## Every run -/

/-- A start over any directory; nothing writes to its entries. -/
def Started (s : Proxy Key Meta) : Prop :=
  ∃ disk : Key → Option (CacheEntry Meta), (∀ key e, disk key = some e → e.state ≠ .landing) ∧ s = start disk

omit [DecidableEq Key] [DecidableEq Meta] in
theorem Started.owned {s : Proxy Key Meta} (h : Started s) : Owned s := by
  obtain ⟨disk, -, rfl⟩ := h
  constructor <;> simp

theorem Run.owned {ok : Proxy Key Meta → Action Key → Prop} {s : Proxy Key Meta}
    (h : Run (step up) ok Started s) : Owned s :=
  h.invariant _ (fun _ h => h.owned) fun _ _ _ hI _ hst => (step_rule hst).owned hI

/-- What is said of the owners in a state. -/
structure Ownership (s : Proxy Key Meta) : Prop where
  /-- An entry of the map has exactly one owner. -/
  owner : ∀ {slot f}, s.map slot = some f → ∃ t, s.Owns t slot f ∧ ∀ t' f', s.Owns t' slot f' → t' = t ∧ f' = f
  /-- A flight that has left the map has its outcome. -/
  settled : ∀ {f F}, s.flights f = some F → (∀ slot, s.map slot ≠ some f) → F.outcome ≠ none
  /-- A waiter's flight has its outcome or an owner. -/
  waiter : ∀ {r R f}, s.requests r = some R → R.pc = .waiting f → ∃ F, s.flights f = some F ∧ F.slot = R.slot ∧
    (F.outcome ≠ none ∨ s.map R.slot = some f ∧ ∃ t, s.Owns t R.slot f)
  /-- `finish_inflight` finds the entry of its own flight. -/
  finish : ∀ {t T}, s.tasks t = some T → T.pc.removes = true → s.map T.slot = some t.flight

omit [DecidableEq Key] [DecidableEq Meta] in
theorem Started.joined {s : Proxy Key Meta} (h : Started s) : Joined s := by
  obtain ⟨disk, -, rfl⟩ := h
  simp [Joined]

theorem Run.joined {ok : Proxy Key Meta → Action Key → Prop} {s : Proxy Key Meta}
    (h : Run (step up) ok Started s) : Joined s :=
   h.invariant_of Owned Joined Run.owned (fun _ h => h.joined) fun _ _ _ hO _ hI _ hst =>
    (step_rule hst).joined hO hI

omit [DecidableEq Key] [DecidableEq Meta] in
theorem Owned.ownership {s : Proxy Key Meta} (h : Owned s) (hJ : Joined s) : Ownership s where
  owner {slot f} hm := by
    obtain ⟨t, ht⟩ := h.owner hm
    refine ⟨t, ht, ?_⟩
    rintro t' f' ⟨rfl, T', ht', hs', hd'⟩
    obtain ⟨rfl, T, ht, hs, hd⟩ := ht
    obtain rfl := h.one ht' ht hd' hd (hs'.trans hs.symm)
    exact ⟨rfl, rfl⟩
  settled hF hleft ho := hleft _ (h.unsettled hF ho)
  waiter {r R f} hR hpc := by
    obtain ⟨F, hF, hs⟩ := hJ hR (.inl hpc)
    refine ⟨F, hF, hs, ?_⟩
    by_cases ho : F.outcome = none
    · have hm := h.unsettled hF ho
      rw [hs] at hm
      exact .inr ⟨hm, h.owner hm⟩
    · exact .inl ho
  finish ht hr := h.held ht (Pc.removes_live hr)

theorem started_empty : Started (start fun _ : Nat => (none : Option (CacheEntry Unit))) :=
  ⟨_, by simp, rfl⟩

end Proxy

end Vampire
