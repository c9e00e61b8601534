/-
Single flight at the temp file (`ArtifactFetchCleanup`, `run_artifact_fetch`).

A file call runs on the blocking pool, and goes on when the task that awaits it
is dropped. So the call that an artifact's leader was dropped at may still be
under way when the cleanup task removes `<key>.part`, and when a later leader
creates it. Nothing waits for it, and the path is the key's: a metadata write
has a temp path of its own for every call.

A cleanup task is spawned first, and calls `remove_file` when it is first polled
(`begin`). A call that is left ends at any time, with its effect or without
(`late`).
-/
import Vampire.Owner

namespace Vampire.Leftover

open Lib Proxy

variable {Key Meta : Type} [DecidableEq Key]

/-- The proxy, and what its dropped leaders have left behind. -/
structure Pool (Key Meta : Type) where
  proxy : Proxy Key Meta
  /-- The leader of a flight, as it was dropped at a file call that is still under way. -/
  late : Nat → Option (Task Key Meta)
  /-- The flight's cleanup has called `remove_file`. -/
  begun : Nat → Bool

inductive Action (Key Meta : Type)
  | proxy (a : Proxy.Action Key)
  /-- An artifact's leader is dropped, the file call it awaits over or not. -/
  | drop (t : TaskId) (underWay : Bool)
  | begin (f : Nat)
  /-- The call left by a flight's leader ends; `temp` is what the temp file holds by then. -/
  | late (f : Nat) (temp : Option (CacheEntry Meta))
  deriving DecidableEq

section
variable [DecidableEq Meta] (up : Nat → Slot Key → Fetched Meta)

def step : Action Key Meta → Pool Key Meta → Option (Pool Key Meta)
  | .proxy (.drop _), _ => none
  | .proxy (.clean t), s =>
    if (s.proxy.tasks t).any (·.pc = .cleanUnlink) ∧ s.begun t.flight = false then none
    else (Proxy.step up (.clean t) s.proxy).map fun proxy => { s with proxy }
  | .proxy a, s => (Proxy.step up a s.proxy).map fun proxy => { s with proxy }
  | .drop t underWay, s =>
    match s.proxy.tasks t with
    | some T =>
      if underWay = true ∧ T.pc.touches = false then none
      else (Proxy.step up (.drop t) s.proxy).map fun proxy =>
        { s with proxy, late := if underWay then Function.update s.late t.flight (some T) else s.late }
    | none => none
  | .begin f, s =>
    if (s.proxy.tasks (.cleanup f)).any (·.pc = .cleanUnlink) ∧ s.begun f = false then
      some { s with begun := Function.update s.begun f true }
    else none
  | .late f temp, s =>
    match s.late f with
    | some T =>
      let proxy := match T.pc, temp with
        | .renaming, some e => s.proxy.publish T.slot.key e
        -- A creation, a write or a removal; a rename that finds no file.
        | _, _ => s.proxy
      some { s with proxy, late := Function.update s.late f none }
    | none => none

end

/-- A start, with no task before it. -/
def Init (s : Pool Key Meta) : Prop := Started s.proxy ∧ s.late = (fun _ => none) ∧ s.begun = fun _ => false

/-! ## What is asked of it -/

/-- Who can be at a temp file: a task, or the call left by a flight's leader. -/
inductive Party
  | task (t : TaskId)
  | leftover (f : Nat)
  deriving DecidableEq

/-- The party has file calls on the slot's `<key>.part` to make, or one under way. -/
def AtTemp (s : Pool Key Meta) (slot : Slot Key) : Party → Prop
  | .task t => ∃ T, s.proxy.tasks t = some T ∧ T.slot = slot ∧ T.pc.touches = true ∧
      (T.pc = .cleanUnlink → s.begun t.flight = true)
  | .leftover f => ∃ T, s.late f = some T ∧ T.slot = slot

/-- What single flight promises of a state. -/
structure SingleFlight (s : Pool Key Meta) : Prop where
  ownership : Ownership s.proxy
  /-- At most one party at `<key>.part`. -/
  temp : ∀ {slot p p'}, AtTemp s slot p → AtTemp s slot p' → p = p'

/-- A cleanup begins when the file call its leader was dropped at is over. -/
def Awaited (s : Pool Key Meta) : Action Key Meta → Prop
  | .begin f => s.late f = none
  | _ => True

/-! ## The steps -/

section
variable [DecidableEq Meta] {up : Nat → Slot Key → Fetched Meta} {s s' : Pool Key Meta} {a : Action Key Meta}

/-- The steps as rules. -/
inductive Turn (up : Nat → Slot Key → Fetched Meta) (s : Pool Key Meta) : Action Key Meta → Pool Key Meta → Prop
  | proxy {a p} : Rule up s.proxy a p →
      (∀ f C, a = .clean (.cleanup f) → s.proxy.tasks (.cleanup f) = some C → C.pc = .cleanUnlink → s.begun f = true) →
      Turn up s (.proxy a) { s with proxy := p }
  | drop {t p} : Rule up s.proxy (.drop t) p → Turn up s (.drop t false) { s with proxy := p }
  | leave {t T} : s.proxy.tasks t = some T → T.slot.cls = .artifact → T.pc.leads = true → T.pc.touches = true →
      Turn up s (.drop t true)
        { s with proxy := s.proxy.dropTask t T, late := Function.update s.late t.flight (some T) }
  | begin {f C} : s.proxy.tasks (.cleanup f) = some C → C.pc = .cleanUnlink → s.begun f = false →
      Turn up s (.begin f) { s with begun := Function.update s.begun f true }
  | late {f T temp disk} : s.late f = some T →
      Turn up s (.late f temp) { s with proxy := { s.proxy with disk }, late := Function.update s.late f none }

theorem step_turn (h : step up a s = some s') : Turn up s a s' := by
  cases a with
  | proxy a =>
    have plain : (Proxy.step up a s.proxy).map (fun proxy => { s with proxy }) = some s' →
        (∀ t, a ≠ .clean t) → Turn up s (.proxy a) s' := by
      intro hs hne
      obtain ⟨p, hp, rfl⟩ := Option.map_eq_some_iff.1 hs
      exact .proxy (step_rule hp) fun f C ha => absurd ha (hne _)
    cases a with
    | drop t => cases h
    | clean t =>
      simp only [step] at h
      split at h
      · cases h
      · next hwait =>
        obtain ⟨p, hp, rfl⟩ := Option.map_eq_some_iff.1 h
        refine .proxy (step_rule hp) fun f C ha hC hpc => ?_
        cases ha
        by_contra hb
        exact hwait ⟨by simp [hC, hpc], Bool.eq_false_iff.2 hb⟩
    | _ => exact plain h (by simp)
  | drop t underWay =>
    simp only [step] at h
    split at h
    · next T hT =>
      split at h
      · cases h
      · next hcall =>
        obtain ⟨p, hp, rfl⟩ := Option.map_eq_some_iff.1 h
        cases underWay with
        | false => exact .drop (step_rule hp)
        | true =>
          cases step_rule hp with
          | drop hT' hc hl =>
            cases hT.symm.trans hT'
            exact .leave hT hc hl (by simpa using hcall)
    · cases h
  | begin f =>
    simp only [step, Option.ite_none_right_eq_some, Option.some.injEq, Option.any_eq_true, decide_eq_true_eq] at h
    obtain ⟨⟨⟨C, hC, hpc⟩, hb⟩, rfl⟩ := h
    exact .begin hC hpc hb
  | late f temp =>
    simp only [step] at h
    split at h
    · next T hT =>
      cases h
      split
      · exact .late hT
      · exact .late hT
    · cases h

theorem Turn.owned (ht : Turn up s a s') (h : Owned s.proxy) : Owned s'.proxy := by
  cases ht with
  | proxy hr => exact hr.owned h
  | drop hr => exact hr.owned h
  | leave hT hc hl => exact h.dropTask hT hl
  | begin => exact h
  | late => exact h.frame ..

theorem Turn.joined (ht : Turn up s a s') (hO : Owned s.proxy) (h : Joined s.proxy) : Joined s'.proxy := by
  cases ht with
  | proxy hr => exact hr.joined hO h
  | drop hr => exact hr.joined hO h
  | @leave t T hT hc hl =>
    have hr : Rule up s.proxy (.drop t) (s.proxy.dropTask t T) := .drop hT hc hl
    intro r R f hR hpc
    exact hr.joined hO h hR hpc
  | begin => exact h
  | late => exact fun hR hpc => h hR hpc

/-! ## The cleanup of a flight -/

omit [DecidableEq Key] [DecidableEq Meta] in
/-- A flight that has its cleanup has no leader to drop. -/
theorem cleanup_unled {p : Proxy Key Meta} (h : Owned p) {f : Nat} {C T : Task Key Meta} {t : TaskId}
    (hC : p.tasks (.cleanup f) = some C) (hT : p.tasks t = some T) (hl : T.pc.leads = true) : t.flight ≠ f := by
  rintro rfl
  obtain ⟨L, hL, hd⟩ := h.spawned hC
  cases t with
  | leader f =>
    cases hT.symm.trans hL
    exact Pc.leads_live hl hd
  | cleanup f =>
    rw [h.leads hT] at hl
    cases hl

omit [DecidableEq Meta] in
theorem register_cleanup (p : Proxy Key Meta) (slot : Slot Key) (host : Option Nat) (f : Nat) :
    (p.register slot host).tasks (.cleanup f) = p.tasks (.cleanup f) := by
  simp [register]

omit [DecidableEq Meta] in
/-- A dropped leader has its cleanup. -/
theorem dropTask_cleanup (p : Proxy Key Meta) (t : TaskId) (T : Task Key Meta) :
    (p.dropTask t T).tasks (.cleanup t.flight) = some ⟨T.slot, none, T.slot.cls.cleanup⟩ := Function.update_self ..

/-- A cleanup task stays, of its slot. -/
theorem cleanup_stays {p p' : Proxy Key Meta} {a : Proxy.Action Key} (hr : Rule up p a p') (h : Owned p) {f : Nat}
    {C : Task Key Meta} (hC : p.tasks (.cleanup f) = some C) :
    ∃ C', p'.tasks (.cleanup f) = some C' ∧ C'.slot = C.slot := by
  have ht := hr.task (.cleanup f)
  rw [hC] at ht
  generalize p'.tasks (.cleanup f) = o at ht ⊢
  cases ht with
  | stays => exact ⟨C, rfl, rfl⟩
  | starts he => cases he
  | spawned he hT hl =>
    cases he
    exact absurd rfl (cleanup_unled h hC hT hl)
  | goes => exact ⟨_, rfl, rfl⟩

/-- Before its `remove_file` it moves by its own step alone. -/
theorem cleanup_waits {p p' : Proxy Key Meta} {a : Proxy.Action Key} (hr : Rule up p a p') (h : Owned p) {f : Nat}
    {C : Task Key Meta} (hC : p.tasks (.cleanup f) = some C) (hpc : C.pc = .cleanUnlink)
    (ha : a ≠ .clean (.cleanup f)) : p'.tasks (.cleanup f) = some C := by
  have other : ∀ {t T}, p.tasks t = some T → T.pc ≠ .cleanUnlink → TaskId.cleanup f ≠ t := by
    rintro t T hT hne rfl
    cases hC.symm.trans hT
    exact hne hpc
  have dropped : ∀ {t T}, p.tasks t = some T → T.pc.leads = true → (p.dropTask t T).tasks (.cleanup f) = some C := by
    intro t T hT hl
    exact (dropTask_other (u := .cleanup f) (cleanup_unled h hC hT hl).symm).trans hC
  cases hr with
  | arrive | lookupJoin | lookupMiss | loadHit | loadMiss | recheckJoin | refuse | awaitCached | awaitReply | serve
  | serveMissing | disconnect | land | tear | evict => exact hC
  | @lookupLead r R => exact (register_cleanup p R.slot (some r) f).trans hC
  | @recheckLead r R => exact (register_cleanup p R.slot none f).trans hC
  | disconnectLeader _ _ hT hl => exact dropped hT hl
  | drop hT _ hl => exact dropped hT hl
  | send hT hs | answer hT hs | answerNonOk hT hs | answerMetadata hT hs | rename hT hs | unlink hT hs | settle hT hs
  | finish hT hs | cleanFail hT hs | cleanFinish hT hs =>
    exact (setTask_ne (other hT (by rw [hs]; simp))).trans hC
  | file hT hs => exact (setTask_ne (other hT (by rintro he; rw [he] at hs; cases hs))).trans hC
  | failArtifact hT _ hf | failMetadata hT _ hf =>
    exact (setTask_ne (other hT (by rintro he; rw [he] at hf; cases hf))).trans hC
  | @cleanUnlink t T hT hs => exact (setTask_ne (by rintro rfl; exact ha rfl)).trans hC

/-! ## What is left behind -/

omit [DecidableEq Key] [DecidableEq Meta] in
/-- A call that is left, and a cleanup that has begun, are of a flight with a cleanup task. -/
structure Left (s : Pool Key Meta) : Prop where
  begun : ∀ {f}, s.begun f = true → ∃ C, s.proxy.tasks (.cleanup f) = some C
  late : ∀ {f T}, s.late f = some T → ∃ C, s.proxy.tasks (.cleanup f) = some C ∧ C.slot = T.slot

omit [DecidableEq Key] [DecidableEq Meta] in
/-- While a call is left, the flight's cleanup stands before its `remove_file`. -/
def Behind (s : Pool Key Meta) : Prop := ∀ f T, s.late f = some T →
  ∃ C, s.proxy.tasks (.cleanup f) = some C ∧ C.slot = T.slot ∧ C.pc = .cleanUnlink ∧ s.begun f = false

theorem Left.proxy {p : Proxy Key Meta} {b : Proxy.Action Key} (h : Left s) (hO : Owned s.proxy)
    (hr : Rule up s.proxy b p) : Left { s with proxy := p } where
  begun hb := by
    obtain ⟨C, hC⟩ := h.begun hb
    obtain ⟨C', hC', -⟩ := cleanup_stays hr hO hC
    exact ⟨C', hC'⟩
  late hl := by
    obtain ⟨C, hC, hs⟩ := h.late hl
    obtain ⟨C', hC', hs'⟩ := cleanup_stays hr hO hC
    exact ⟨C', hC', hs'.trans hs⟩

theorem Turn.left (ht : Turn up s a s') (hO : Owned s.proxy) (h : Left s) : Left s' := by
  cases ht with
  | proxy hr => exact h.proxy hO hr
  | drop hr => exact h.proxy hO hr
  | @leave t T hT hc hl =>
    have hr : Rule up s.proxy (.drop t) (s.proxy.dropTask t T) := .drop hT hc hl
    have hnext := h.proxy hO hr
    refine ⟨hnext.begun, fun {f L} hL => ?_⟩
    simp only [Function.update_apply] at hL
    split at hL
    · next he =>
      cases hL
      exact ⟨⟨T.slot, none, T.slot.cls.cleanup⟩, he ▸ dropTask_cleanup s.proxy t T, rfl⟩
    · exact hnext.late hL
  | @begin f C hC =>
    refine ⟨fun {g} hb => ?_, h.late⟩
    simp only [Function.update_apply] at hb
    split at hb
    · next he => exact ⟨C, he ▸ hC⟩
    · exact h.begun hb
  | late =>
    refine ⟨h.begun, fun {g L} hL => ?_⟩
    simp only [Function.update_apply] at hL
    split at hL
    · cases hL
    · exact h.late hL

theorem Behind.proxy {p : Proxy Key Meta} {b : Proxy.Action Key} (h : Behind s) (hO : Owned s.proxy)
    (hr : Rule up s.proxy b p) (hb : ∀ f C, b = .clean (.cleanup f) → s.proxy.tasks (.cleanup f) = some C →
      C.pc = .cleanUnlink → s.begun f = true) : Behind { s with proxy := p } := by
  intro f T hl
  obtain ⟨C, hC, hs, hpc, hbegun⟩ := h f T hl
  refine ⟨C, cleanup_waits hr hO hC hpc fun he => ?_, hs, hpc, hbegun⟩
  rw [hb f C he hC hpc] at hbegun
  cases hbegun

theorem Turn.behind (ht : Turn up s a s') (hO : Owned s.proxy) (hL : Left s) (ok : Awaited s a) (h : Behind s) :
    Behind s' := by
  cases ht with
  | proxy hr hb => exact h.proxy hO hr hb
  | drop hr => exact h.proxy hO hr fun f C he => by cases he
  | @leave t T hT hc hl =>
    have hr : Rule up s.proxy (.drop t) (s.proxy.dropTask t T) := .drop hT hc hl
    have hnext := h.proxy hO hr fun f C he => by cases he
    intro f L hL'
    simp only [Function.update_apply] at hL'
    split at hL'
    · next he =>
      cases hL'
      have hwaits : (T.slot.cls.cleanup : Pc Meta) = .cleanUnlink := by rw [hc]; rfl
      refine ⟨⟨T.slot, none, T.slot.cls.cleanup⟩, he ▸ dropTask_cleanup s.proxy t T, rfl, hwaits, ?_⟩
      by_contra hb
      obtain ⟨C, hC⟩ := hL.begun (by simpa using hb)
      exact cleanup_unled hO hC hT hl he.symm
    · exact hnext f L hL'
  | @begin f C hC =>
    intro g L hl
    obtain ⟨C', hC', hs, hpc, hbegun⟩ := h g L hl
    have hne : g ≠ f := by
      rintro rfl
      cases (show s.late g = none from ok).symm.trans hl
    exact ⟨C', hC', hs, hpc, (Function.update_of_ne hne ..).trans hbegun⟩
  | late =>
    intro g L hl
    simp only [Function.update_apply] at hl
    split at hl
    · cases hl
    · exact h g L hl

omit [DecidableEq Key] [DecidableEq Meta] in
/-- The next owner is not there before the call is over. -/
theorem Behind.temp (h : Behind s) (hO : Owned s.proxy) {slot : Slot Key} {p p' : Party} (hp : AtTemp s slot p)
    (hp' : AtTemp s slot p') : p = p' := by
  have apart : ∀ {t f}, AtTemp s slot (.task t) → AtTemp s slot (.leftover f) → False := by
    rintro t f ⟨T, hT, hs, htouch, hb⟩ ⟨L, hL, hLs⟩
    obtain ⟨C, hC, hCs, hpc, hbegun⟩ := h f L hL
    obtain rfl := hO.one hT hC (Pc.touches_live htouch) (by rw [hpc]; simp) (hs.trans (hCs.trans hLs).symm)
    cases hC.symm.trans hT
    cases hbegun.symm.trans (hb hpc)
  cases p with
  | task t =>
    cases p' with
    | task t' =>
      obtain ⟨T, hT, hs, htouch, -⟩ := hp
      obtain ⟨T', hT', hs', htouch', -⟩ := hp'
      rw [hO.one hT hT' (Pc.touches_live htouch) (Pc.touches_live htouch') (hs.trans hs'.symm)]
    | leftover f => exact (apart hp hp').elim
  | leftover f =>
    cases p' with
    | task t => exact (apart hp' hp).elim
    | leftover f' =>
      obtain ⟨L, hL, hs⟩ := hp
      obtain ⟨L', hL', hs'⟩ := hp'
      obtain ⟨C, hC, hCs, hpc, -⟩ := h f L hL
      obtain ⟨C', hC', hCs', hpc', -⟩ := h f' L' hL'
      have hslot : C.slot = C'.slot := (hCs.trans hs).trans (hCs'.trans hs').symm
      cases hO.one hC hC' (by rw [hpc]; simp) (by rw [hpc']; simp) hslot
      rfl

/-! ## Every run -/

variable {ok : Pool Key Meta → Action Key Meta → Prop}

theorem run_owned (h : Run (step up) ok Init s) : Owned s.proxy :=
  h.invariant (fun s => Owned s.proxy) (fun _ h0 => h0.1.owned) fun _ _ _ hO _ hs => (step_turn hs).owned hO

theorem run_joined (h : Run (step up) ok Init s) : Joined s.proxy :=
  h.invariant_of (fun s => Owned s.proxy) (fun s => Joined s.proxy) run_owned (fun _ h0 => h0.1.joined)
    fun _ _ _ hO _ hJ _ hs => (step_turn hs).joined hO hJ

theorem run_left (h : Run (step up) ok Init s) : Left s := by
  refine h.invariant_of (fun s => Owned s.proxy) Left run_owned ?_ fun _ _ _ hO _ hL _ hs => (step_turn hs).left hO hL
  rintro s ⟨-, hlate, hbegun⟩
  exact ⟨fun hb => by simp [hbegun] at hb, fun hl => by simp [hlate] at hl⟩

theorem run_behind (h : Run (step up) Awaited Init s) : Behind s := by
  refine h.invariant_of (fun s => Owned s.proxy ∧ Left s) Behind (fun h => ⟨run_owned h, run_left h⟩) ?_
    fun _ _ _ hI _ hB hok hs => (step_turn hs).behind hI.1 hI.2 hok hB
  rintro s ⟨-, hlate, -⟩ f T hl
  simp [hlate] at hl

/-- **Single flight.** In every reachable state the entries of the inflight map
have one owner each, what has left the map is settled, and nobody removes
another's entry. One party at a time is at a temp file as long as no cleanup
begins before the call that its leader was dropped at is over; one that does is
there together with it. -/
theorem single_flight (h : Run (step up) Any Init s) :
    Ownership s.proxy ∧ (Run (step up) Awaited Init s → SingleFlight s) ∧
      ∀ f s', step up (.begin f) s = some s' → ¬ Awaited s (.begin f) → ¬ SingleFlight s' := by
  have hO := run_owned h
  have hown := hO.ownership (run_joined h)
  refine ⟨hown, fun hA => ⟨hown, (run_behind hA).temp hO⟩, fun f s' hstep hlate hs => ?_⟩
  obtain ⟨T, hT⟩ := Option.ne_none_iff_exists'.1 hlate
  cases step_turn hstep with
  | @begin _ C hC hpc =>
    obtain ⟨C', hC', hslot⟩ := (run_left h).late hT
    cases hC.symm.trans hC'
    have hcleanup : AtTemp { s with begun := Function.update s.begun f true } T.slot (.task (.cleanup f)) :=
      ⟨C, hC, hslot, by rw [hpc]; rfl, fun _ => Function.update_self ..⟩
    have hleft : AtTemp { s with begun := Function.update s.begun f true } T.slot (.leftover f) := ⟨T, hT, rfl⟩
    cases hs.temp hcleanup hleft

end

/-! ## Two leaders of one key -/

/-- The proxy over an empty directory, where every fetch is answered with one byte. -/
def empty : Pool Nat Unit := ⟨start fun _ => none, fun _ => none, fun _ => false⟩

theorem init_empty : Init empty := ⟨started_empty, rfl, rfl⟩

/-- Request `r` leads flight `r` up to the creation of its temp file. -/
def leading (r : Nat) : List (Action Nat Unit) :=
  [.proxy (.arrive r ⟨.artifact, 7⟩ .get), .proxy (.lookup r), .proxy (.load r), .proxy (.recheck r),
    .proxy (.send (.leader r)), .proxy (.answer (.leader r))]

/-- The first flight's cleanup, from its first poll to its end. -/
def cleaning : List (Action Nat Unit) :=
  [.begin 0, .proxy (.clean (.cleanup 0)), .proxy (.clean (.cleanup 0)), .proxy (.clean (.cleanup 0))]

/-- The creation that the first leader is dropped at is over before its cleanup begins; a second leader creates
the file in its turn. -/
def awaited : List (Action Nat Unit) := leading 0 ++ [.drop (.leader 0) true, .late 0 none] ++ cleaning ++ leading 1

/-- The rename that the first leader is dropped at is still under way when the second leader writes the file. -/
def overtaken : List (Action Nat Unit) :=
  leading 0 ++ List.replicate 5 (.proxy (.file (.leader 0))) ++ [.drop (.leader 0) true] ++ cleaning ++ leading 1 ++
    [.proxy (.file (.leader 1))]

/-- Both parties are at the file, and the first has no owner any more. -/
theorem overtaken_by_leftover : ∃ s : Pool Nat Unit, Run (step fun _ _ => .ok () [1]) Any Init s ∧
    AtTemp s ⟨.artifact, 7⟩ (.task (.leader 1)) ∧ AtTemp s ⟨.artifact, 7⟩ (.leftover 0) ∧ ¬ SingleFlight s := by
  have hrun : (exec (step fun _ _ => .ok () [1]) overtaken empty).any (fun s =>
      (s.proxy.tasks (.leader 1)).any (fun T => T.slot = ⟨.artifact, 7⟩ ∧ T.pc = .writing) ∧
        (s.late 0).any (fun T => T.slot = ⟨.artifact, 7⟩ ∧ T.pc = .renaming)) = true := by decide
  obtain ⟨s, hs, hp⟩ := (Option.any_eq_true _ _).1 hrun
  simp only [Option.any_eq_true, decide_eq_true_eq] at hp
  obtain ⟨⟨T, hT, hslot, hpc⟩, L, hL, hslot', -⟩ := hp
  have htask : AtTemp s ⟨.artifact, 7⟩ (.task (.leader 1)) := ⟨T, hT, hslot, by rw [hpc]; rfl, fun he => by
    rw [hpc] at he
    cases he⟩
  have hleft : AtTemp s ⟨.artifact, 7⟩ (.leftover 0) := ⟨L, hL, hslot'⟩
  refine ⟨s, Run.exec (.start init_empty) hs, htask, hleft, fun h => ?_⟩
  cases h.temp htask hleft

instance awaitedDecidable {s : Pool Nat Unit} : (a : Action Nat Unit) → Decidable (Awaited s a)
  | .begin f => inferInstanceAs (Decidable (s.late f = none))
  | .proxy _ | .drop .. | .late .. => inferInstanceAs (Decidable True)

theorem single_flight_awaited : ∃ s : Pool Nat Unit, exec (step fun _ _ => .ok () [1]) awaited empty = some s ∧
    SingleFlight s ∧ s.proxy.map ⟨.artifact, 7⟩ = some 1 := by
  have hrun : (exec (step fun _ _ => .ok () [1]) awaited empty).any
      (fun s => s.proxy.map ⟨.artifact, 7⟩ = some 1) = true := by decide
  obtain ⟨s, hs, hp⟩ := (Option.any_eq_true _ _).1 hrun
  have hok : allowed (step fun _ _ => .ok () [1]) (fun s a => decide (Awaited s a)) awaited empty = true := by decide
  have hawaited : Run (step fun _ _ => .ok () [1]) Awaited Init s :=
    Run.exec_allowed (by simp) (.start init_empty) hok hs
  exact ⟨s, hs, (single_flight (Run.exec (.start init_empty) hs)).2.1 hawaited, of_decide_eq_true hp⟩

end Vampire.Leftover
