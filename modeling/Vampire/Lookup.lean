/-
What the double-checked lookup of an artifact promises: a call that leads
finds no other leader and no entry, so that concurrent requests of one
artifact cost one upstream GET.

The second lock of the map does not look at the disk again. A leader that
commits and leaves the map while another lookup stands between its disk
check and its second lock is not seen by either check, and the other lookup
fetches what is there (`redundant_fetch`). Where no entry leaves the map in
that gap, the promise holds (`lookup_leads_once`).
-/
import Vampire.Owner

namespace Vampire

variable {Key Meta : Type}

/-- At the file calls before a leader's rename, and at the rename. -/
def Pc.files : Pc Meta → Bool
  | .creating | .writing | .flushing | .appending | .sealing | .renaming => true
  | _ => false

theorem Pc.nextFile_files {pc pc' : Pc Meta} (h : pc.nextFile = some pc') : pc.files = true := by
  cases pc <;> first | rfl | cases h

theorem Pc.nextFile_ne_start {pc pc' : Pc Meta} (h : pc.nextFile = some pc') : pc' ≠ .start := by
  rintro rfl
  cases pc <;> cases h

namespace Proxy

open Lib

variable [DecidableEq Key]

/-- A rename finds its last bytes written, and an entry leaves the map, its artifact stored, only when no lookup
of the artifact is between its two checks: from the open of the file, which settles what the disk check reads, to
the second lock of the map. -/
def Checked (s : Proxy Key Meta) : Action Key → Prop
  | .rename _ landed => landed = true
  | .finish t | .clean t => ∀ T, s.tasks t = some T → T.pc.removes = true → s.stored T.slot.key ≠ none →
      ∀ r R, s.requests r = some R → R.slot = T.slot → R.pc ≠ .recheck
  | _ => True

/-- Which awaits are an artifact's, which a metadata key's. -/
structure Kinds (s : Proxy Key Meta) : Prop where
  lookup : ∀ {r R}, s.requests r = some R → R.pc = .load ∨ R.pc = .recheck → R.slot.cls = .artifact
  leading : ∀ {r R f}, s.requests r = some R → R.pc = .leading f → R.slot.cls = .metadata
  files : ∀ {t T}, s.tasks t = some T → T.pc.files = true → T.slot.cls = .artifact

structure Missed (s : Proxy Key Meta) : Prop where
  still : Still s
  miss : ∀ {r R}, s.requests r = some R → R.pc = .recheck → s.map R.slot = none → s.stored R.slot.key = none
  fetch : ∀ {t T}, s.tasks t = some T → T.slot.cls = .artifact → T.pc.fetches = true → s.stored T.slot.key = none

variable [DecidableEq Meta] {up : Nat → Slot Key → Fetched Meta}

theorem Rule.kinds {s s' : Proxy Key Meta} {a : Action Key} (hr : Rule up s a s') (h : Kinds s) : Kinds s' := by
  refine ⟨?_, ?_, ?_⟩
  · intro r R hR hpc
    cases hr.turn hR with
    | stays hR => exact h.lookup hR hpc
    | arrives => simp at hpc
    | moves hQ hm =>
      cases hm with
      | miss _ _ hc => exact hc
      | absent hl => exact (h.lookup hQ (.inl hl) :)
      | join | lead | hit | launch | refuse | cached | reply | serve | missing | hosted | gone => simp at hpc
  · intro r R f hR hpc
    cases hr.turn hR with
    | stays hR => exact h.leading hR hpc
    | arrives => simp at hpc
    | moves hQ hm =>
      cases hm with
      | lead _ _ hc => exact hc
      | join | miss | hit | absent | launch | refuse | cached | reply | serve | missing | hosted | gone => simp at hpc
  · intro t T hT hf
    have ht := hr.task t
    rw [hT] at ht
    generalize ho : s.tasks t = o at ht
    cases ht with
    | stays => exact h.files ho hf
    | starts => simp [Pc.files] at hf
    | @spawned _ u U => cases hc : U.slot.cls <;> simp [hc, Class.cleanup, Pc.files] at hf
    | goes hg =>
      cases hg with
      | answer _ hc => exact hc
      | file hn => exact (h.files ho (Pc.nextFile_files hn) :)
      | send | nonOk | response | rename | failArtifact | failMetadata | unlink | settle | finish | drop | cleanUnlink
      | cleanFail | cleanFinish => simp [Pc.files] at hf

/-! ## When an entry appears -/

/-- A loadable entry appears by its leader's rename. -/
theorem Rule.stored_new {s s' : Proxy Key Meta} {a : Action Key} (hr : Rule up s a s') (hk : Kinds s) (hM : Missed s)
    {key : Key} (h : s.stored key = none) (h' : s'.stored key ≠ none) :
    ∃ t T, s.tasks t = some T ∧ T.pc = .renaming ∧ T.slot = ⟨.artifact, key⟩ ∧
      s'.tasks t = some { T with pc := .settling .cached } := by
  have hd := hr.disk
  simp only [stored] at h h'
  generalize s'.disk = disk at hd h'
  cases hd with
  | stays => exact absurd h h'
  | @rename t T landed info body ht hpc hu ht' =>
    simp only [Function.update_apply] at h'
    split at h'
    · next he =>
      refine ⟨t, T, ht, hpc, ?_, ht'⟩
      cases hT : T.slot
      have hc := hk.files ht (hpc ▸ rfl)
      simp_all
    · exact absurd h h'
  | land he hs => exact absurd hs (hM.still he)
  | tear he hs => exact absurd hs (hM.still he)
  | evict =>
    simp only [Function.update_apply] at h'
    split at h'
    · simp at h'
    · exact absurd h h'

theorem Rule.missed {s s' : Proxy Key Meta} {a : Action Key} (hr : Rule up s a s') (hO : Owned s) (hk : Kinds s)
    (hc : Checked s a) (h : Missed s) : Missed s' := by
  -- While the key is not in the map, or its leader fetches, no rename makes an entry of it.
  have unowned : ∀ {key}, s.map ⟨.artifact, key⟩ = none → s.stored key = none → s'.stored key = none := by
    intro key hm hs
    by_contra hne
    obtain ⟨t, T, ht, hpc, hslot, -⟩ := hr.stored_new hk h hs hne
    have := hO.idle hm ht hslot
    simp [hpc] at this
  refine ⟨?_, ?_, ?_⟩
  · exact hr.still (by rintro t landed rfl; exact hc) h.still
  · intro r R hR hpc hm
    cases hr.turn hR with
    | stays hR =>
      have hslot : R.slot = ⟨.artifact, R.slot.key⟩ := by
        have := hk.lookup hR (.inr hpc)
        cases hRs : R.slot
        simp_all
      obtain hm | ⟨t, T, ha, ht, hrem, hTs⟩ := hr.map_none hm
      · exact unowned (hslot ▸ hm) (h.miss hR hpc hm)
      · -- The step removes the slot's entry: no lookup of a stored artifact is between its checks.
        have hrem : T.pc.removes = true := by
          obtain ⟨o, hpc⟩ | hpc := hrem <;> rw [hpc] <;> rfl
        have hstored : s.stored R.slot.key = none := by
          by_contra hne
          rw [← hTs] at hne
          obtain rfl | rfl := ha
          · exact hc T ht hrem hne r R hR hTs.symm hpc
          · exact hc T ht hrem hne r R hR hTs.symm hpc
        by_contra hne
        obtain ⟨u, U, hu, hupc, hUs, -⟩ := hr.stored_new hk h hstored hne
        obtain rfl := hO.one ht hu (Pc.removes_live hrem) (by simp [hupc]) (hTs.trans (hslot.trans hUs.symm))
        cases ht.symm.trans hu
        simp [hupc, Pc.removes] at hrem
    | arrives => simp at hpc
    | moves hQ hmv =>
      cases hmv with
      | absent _ hs he => rw [he]; exact hs
      | join | miss | lead | hit | launch | refuse | cached | reply | serve | missing | hosted | gone => simp at hpc
  · intro t T hT hcls hf
    have ht := hr.task t
    rw [hT] at ht
    have hslot : T.slot = ⟨.artifact, T.slot.key⟩ := by
      cases hTs : T.slot
      simp_all
    -- A leader that goes on fetching has not renamed.
    have go : ∀ {U : Task Key Meta}, s.tasks t = some U → U.slot = T.slot → U.pc.fetches = true →
        s'.stored T.slot.key = none := by
      intro U hU hUs hUf
      have hnone := hUs ▸ h.fetch hU (hUs ▸ hcls) hUf
      by_contra hne
      obtain ⟨v, V, hv, hvpc, hVs, hv'⟩ := hr.stored_new hk h hnone hne
      obtain rfl := hO.one hU hv (Pc.fetches_live hUf) (by simp [hvpc]) (hUs.trans (hslot.trans hVs.symm))
      cases hT.symm.trans hv'
      simp [Pc.fetches] at hf
    generalize ho : s.tasks t = o at ht
    cases ht with
    | stays => exact go ho rfl hf
    | starts _ hm _ hreq =>
      obtain ⟨r, R, hR, hpc, hRs⟩ := hreq hcls
      refine unowned (hslot ▸ hm) ?_
      have := h.miss hR hpc (hRs ▸ hm)
      exact hRs ▸ this
    | @spawned _ u U => cases hc : U.slot.cls <;> simp [hc, Class.cleanup, Pc.fetches] at hf
    | goes hg =>
      cases hg with
      | send hpc _ => exact go ho rfl (by rw [hpc]; rfl)
      | answer hpc => exact go ho rfl (by rw [hpc]; rfl)
      | file hn => exact go ho rfl (Pc.nextFile_fetches hn).1
      | nonOk | response | rename | failArtifact | failMetadata | unlink | settle | finish | drop | cleanUnlink
      | cleanFail | cleanFinish => simp [Pc.fetches] at hf

/-! ## Upstream GETs -/

/-- A GET for the artifact is out, its fetch not over. -/
def Sent (s : Proxy Key Meta) (key : Key) : Prop :=
  ∃ t T, s.tasks t = some T ∧ T.slot = ⟨.artifact, key⟩ ∧ T.pc.fetches = true ∧ T.pc ≠ .start

/-- Each GET but one is accounted for by a loss, and that one by an entry or a fetch still on. -/
def Counted (s : Proxy Key Meta) : Prop :=
  ∀ key, s.gets key ≤ s.lost key + 1 ∧ (s.stored key = none → ¬ s.Sent key → s.gets key ≤ s.lost key)

/-- A GET that is out ends in an entry or in a loss. -/
theorem Rule.sent_kept {s s' : Proxy Key Meta} {a : Action Key} (hr : Rule up s a s') (hO : Owned s)
    (hM' : Missed s') {key : Key} (h : s.Sent key) :
    s'.Sent key ∨ s'.stored key ≠ none ∨ s.lost key < s'.lost key := by
  obtain ⟨t, T, ht, hs, hf, hne⟩ := h
  have hcls : T.slot.cls = .artifact := by rw [hs]
  have hkey : T.slot.key = key := by rw [hs]
  have loses : s.Loses s' T.slot → s.lost key < s'.lost key := fun hl => hkey ▸ hl hcls
  have ht' := hr.task t
  rw [ht] at ht'
  generalize ho : s'.tasks t = o at ht'
  cases ht' with
  | stays => exact .inl ⟨t, T, ho, hs, hf, hne⟩
  | starts he =>
    subst he
    simp [hO.fresh (Nat.le_refl (TaskId.leader s.next).flight)] at ht
  | @spawned _ u U he hu hl =>
    -- A leader that runs has no cleanup task.
    subst he
    obtain ⟨L, hL, hd⟩ := hO.spawned ht
    cases u with
    | leader f => cases hL.symm.trans hu; simp [hd, Pc.leads] at hl
    | cleanup f => simp [hO.leads hu] at hl
  | goes hg =>
    cases hg with
    | send _ _ | answer => exact .inl ⟨t, _, ho, hs, rfl, by simp⟩
    | file hn => exact .inl ⟨t, _, ho, hs, (Pc.nextFile_fetches hn).2, Pc.nextFile_ne_start hn⟩
    | @rename info body state _ _ hst he =>
      cases state with
      | whole => exact .inr (.inl (by simp [stored, ← hkey, he]))
      | landing => exact absurd rfl (hM'.still he)
      | torn => exact absurd rfl hst
    | nonOk _ _ _ hl | failArtifact _ _ _ hl => exact .inr (.inr (loses hl))
    | drop _ hl => exact .inr (.inr (loses (hl hf)))
    | response _ hc | failMetadata _ hc => simp [hcls] at hc
    | unlink hpc | settle hpc | finish hpc | cleanUnlink hpc | cleanFail hpc | cleanFinish hpc =>
      simp [hpc, Pc.fetches] at hf

/-- An entry goes by an eviction, which is a loss. -/
theorem Rule.stored_kept {s s' : Proxy Key Meta} {a : Action Key} (hr : Rule up s a s') (hc : Checked s a)
    (hM : Missed s) {key : Key} (h : s.stored key ≠ none) : s'.stored key ≠ none ∨ s.lost key < s'.lost key := by
  have hd := hr.disk
  simp only [stored] at h ⊢
  generalize s'.disk = disk at hd ⊢
  cases hd with
  | stays => exact .inl h
  | rename =>
    simp only [Function.update_apply]
    split
    · simp [show _ = true from hc]
    · exact .inl h
  | land he hs => exact absurd hs (hM.still he)
  | tear he hs => exact absurd hs (hM.still he)
  | @evict k hl =>
    by_cases hk : key = k
    · exact .inr (hk ▸ hl)
    · exact .inl ((Function.update_of_ne hk ..).symm ▸ h)

theorem Rule.counted {s s' : Proxy Key Meta} {a : Action Key} (hr : Rule up s a s') (hc : Checked s a)
    (hO : Owned s) (hM : Missed s) (hM' : Missed s') (h : Counted s) : Counted s' := by
  intro key
  obtain ⟨h1, h2⟩ := h key
  have hmono := hr.lost_mono key
  obtain hg | ⟨hg, t, T, ht, hpc, hs, ht'⟩ := hr.gets key
  · rw [hg]
    refine ⟨by omega, fun hstored hsent => ?_⟩
    by_cases hlt : s.lost key < s'.lost key
    · omega
    · have hs0 : s.stored key = none := by
        by_contra hne
        obtain hne' | hlt' := hr.stored_kept hc hM hne
        · exact hne' hstored
        · exact hlt hlt'
      have hn0 : ¬ s.Sent key := by
        intro hsent0
        obtain hsent' | hne' | hlt' := hr.sent_kept hO hM' hsent0
        · exact hsent hsent'
        · exact hne' hstored
        · exact hlt hlt'
      exact Nat.le_trans (h2 hs0 hn0) hmono
  · -- The leader that sends is the only task of its slot, and found no entry.
    have hs0 : s.stored key = none := by
      have := hM.fetch ht (by rw [hs]) (by rw [hpc]; rfl)
      rwa [hs] at this
    have hn0 : ¬ s.Sent key := by
      rintro ⟨u, U, hu, hus, huf, hune⟩
      obtain rfl := hO.one ht hu (by simp [hpc]) (Pc.fetches_live huf) (hs.trans hus.symm)
      cases ht.symm.trans hu
      exact hune hpc
    have := h2 hs0 hn0
    rw [hg]
    exact ⟨by omega, fun _ hsent => absurd ⟨t, _, ht', hs, rfl, by simp⟩ hsent⟩

/-! ## No answer without a GET -/

/-- Without a GET and without a loss, an artifact that was not there is not there, and nobody was answered. -/
structure Untouched (s : Proxy Key Meta) (key : Key) : Prop where
  stored : s.stored key = none
  tasks : ∀ {t T}, s.tasks t = some T → T.slot = ⟨.artifact, key⟩ → T.pc = .start
  flights : ∀ {f F}, s.flights f = some F → F.slot = ⟨.artifact, key⟩ → F.outcome = none
  requests : ∀ {r R}, s.requests r = some R → R.slot = ⟨.artifact, key⟩ →
    (∀ f, R.pc ≠ .serving f) ∧ ∀ a f, R.pc ≠ .answered a f

theorem Rule.untouched {s s' : Proxy Key Meta} {a : Action Key} (hr : Rule up s a s') (hO : Owned s) (hj : Joined s)
    (hk : Kinds s) (hM : Missed s) {key : Key} (hg : s'.gets key = s.gets key) (hl : s'.lost key = s.lost key)
    (h : Untouched s key) : Untouched s' key := by
  refine ⟨?_, ?_, ?_, ?_⟩
  · by_contra hne
    obtain ⟨t, T, ht, hpc, hs, -⟩ := hr.stored_new hk hM h.stored hne
    simp [h.tasks ht hs] at hpc
  · intro t T hT hs
    have loses : ∀ {slot : Slot Key}, slot = ⟨.artifact, key⟩ → ¬ s.Loses s' slot := by
      rintro slot rfl hloses
      have := hloses rfl
      simp [hl] at this
    have ht := hr.task t
    rw [hT] at ht
    generalize ho : s.tasks t = o at ht
    cases ht with
    | stays => exact h.tasks ho hs
    | starts => rfl
    | spawned _ hu _ hloses => exact absurd (hloses (by rw [h.tasks hu hs]; rfl)) (loses hs)
    | @goes T _ hgo =>
      have hstart := h.tasks ho hs
      have hcls : T.slot.cls = .artifact := congrArg Slot.cls hs
      have hkey : T.slot.key = key := congrArg Slot.key hs
      cases hgo with
      | send _ hget =>
        have := hget hcls
        simp [hkey, hg] at this
      | drop _ hloses => exact absurd (hloses (by rw [hstart]; rfl)) (loses hs)
      | failArtifact _ _ _ hloses => exact absurd hloses (loses hs)
      | failMetadata _ hc => simp [hcls] at hc
      | file hn => simp [hstart, Pc.nextFile] at hn
      | answer hpc | nonOk hpc | response hpc | rename hpc | unlink hpc | settle hpc | finish hpc | cleanUnlink hpc
      | cleanFail hpc | cleanFinish hpc => simp [hstart] at hpc
  · intro f F hF hs
    by_contra hne
    obtain ⟨o, ho⟩ := Option.ne_none_iff_exists'.1 hne
    obtain ⟨F₀, hF₀, hs₀, ho₀⟩ | ⟨t, T, ht, rfl, hpc⟩ := hr.outcome_new hF ho
    · simp [h.flights hF₀ (hs₀.trans hs)] at ho₀
    · obtain ⟨F₀, hF₀, hs₀⟩ := hO.flight ht
      obtain ⟨F₁, hF₁, hs₁, -⟩ := hr.flight_kept hO hF₀
      cases hF.symm.trans hF₁
      have hstart := h.tasks ht (hs₀.symm.trans (hs₁.symm.trans hs))
      obtain ⟨hpc, -⟩ | ⟨hpc, -⟩ := hpc <;> simp [hstart] at hpc
  · intro r R hR hs
    -- The flight a request waits on has no outcome.
    have waits : ∀ {Q : Request Key Meta} {f F o}, s.requests r = some Q → Q.slot = ⟨.artifact, key⟩ →
        Q.pc = .waiting f → s.flights f = some F → F.outcome = some o → False := by
      intro Q f F o hQ hQs hw hF ho
      obtain ⟨F₀, hF₀, hs₀⟩ := hj hQ (.inl hw)
      cases hF.symm.trans hF₀
      simp [h.flights hF (hs₀.trans hQs)] at ho
    cases hr.turn hR with
    | stays hR => exact h.requests hR hs
    | arrives => exact ⟨by simp, by simp⟩
    | @moves Q _ hQ hm =>
      have hkey : Q.slot.key = key := congrArg Slot.key hs
      obtain ⟨hserve, -⟩ := h.requests hQ hs
      cases hm with
      | hit _ he => rw [hkey, h.stored] at he; cases he
      | cached hw hF ho => exact (waits hQ hs hw hF ho).elim
      | reply hw hF ho => exact (waits hQ hs hw hF ho).elim
      | serve hw => exact absurd hw (hserve _)
      | missing hw => exact absurd hw (hserve _)
      | hosted hw =>
        have := hk.leading hQ hw
        rw [show Q.slot = _ from hs] at this
        cases this
      | join | miss | lead | absent | launch | refuse | gone => exact ⟨by simp, by simp⟩

/-! ## Every run -/

/-- What holds of every checked run from the directory `disk`. -/
structure Frugal (disk : Key → Option (CacheEntry Meta)) (s : Proxy Key Meta) : Prop where
  owned : Owned s
  joined : Joined s
  kinds : Kinds s
  missed : Missed s
  counted : Counted s
  untouched : ∀ {key}, (start disk).stored key = none → s.gets key = 0 → s.lost key = 0 → Untouched s key

theorem Run.frugal {disk : Key → Option (CacheEntry Meta)} (hdisk : ∀ key e, disk key = some e → e.state ≠ .landing)
    {s : Proxy Key Meta} (h : Run (step up) Checked (· = start disk) s) : Frugal disk s := by
  refine h.invariant (Frugal disk) ?_ ?_
  · rintro _ rfl
    refine ⟨Started.owned ⟨disk, hdisk, rfl⟩, by simp [Joined], ?_, ⟨fun he => hdisk _ _ he, by simp, by simp⟩,
      fun key => ⟨Nat.zero_le _, fun _ _ => Nat.le_refl _⟩, fun hn _ _ => ⟨hn, by simp, by simp, by simp⟩⟩
    constructor <;> simp
  · intro s a s' h hc hst
    have hr := step_rule hst
    have hM' := hr.missed h.owned h.kinds hc h.missed
    refine ⟨hr.owned h.owned, hr.joined h.owned h.joined, hr.kinds h.kinds, hM',
      hr.counted hc h.owned h.missed hM' h.counted, ?_⟩
    intro key hn hg hl
    have hmono := hr.lost_mono key
    have hgets : s'.gets key = s.gets key := by
      obtain he | ⟨he, -⟩ := hr.gets key
      · exact he
      · omega
    exact hr.untouched h.owned h.joined h.kinds h.missed hgets (by omega) (h.untouched hn (by omega) (by omega))

/-- **No redundant fetch, where no entry leaves the map between the checks of a lookup.** A lookup that returns
`Leader` finds no other owner of its slot and no entry. Absent losses an artifact costs at most one upstream
GET, and exactly one if it was not there and a request of it was answered. -/
theorem lookup_leads_once {disk : Key → Option (CacheEntry Meta)}
    (hdisk : ∀ key e, disk key = some e → e.state ≠ .landing) {s : Proxy Key Meta}
    (h : Run (step up) Checked (· = start disk) s) :
    (∀ r R s', s.requests r = some R → step up (.recheck r) s = some s' → s'.next ≠ s.next →
      (∀ t f, ¬ s.Owns t R.slot f) ∧ s.stored R.slot.key = none) ∧
    ∀ key, s.lost key = 0 → s.gets key ≤ 1 ∧ ((disk key).filter (·.state = .whole) = none →
      (∃ r R a f, s.requests r = some R ∧ R.slot = ⟨.artifact, key⟩ ∧ R.pc = .answered a f) → s.gets key = 1) := by
  have hF := Run.frugal hdisk h
  refine ⟨?_, ?_⟩
  · intro r R s' hR hst hnext
    cases step_rule hst with
    | recheckJoin => exact absurd rfl hnext
    | recheckLead hR' hpc hm =>
      cases hR.symm.trans hR'
      refine ⟨?_, hF.missed.miss hR hpc hm⟩
      rintro t f ⟨rfl, T, ht, hs, hd⟩
      exact hd (hF.owned.idle hm ht hs)
  · intro key hl
    have hle := (hF.counted key).1
    refine ⟨by omega, ?_⟩
    rintro hn ⟨r, R, a, f, hR, hs, hpc⟩
    by_contra hne
    exact ((hF.untouched hn (by omega) hl).requests hR hs).2 a f hpc

/-- Allowed wherever it is taken. -/
def Action.checked : Action Key → Bool
  | .rename _ landed => landed
  | .finish _ | .clean _ => false
  | _ => true

omit [DecidableEq Key] [DecidableEq Meta] in
theorem Action.checked_ok {s : Proxy Key Meta} {a : Action Key} (h : a.checked = true) : Checked s a := by
  cases a <;> first | exact h | trivial

/-- A request leads, its fetch commits, it is served. -/
def oneFetch : List (Action Nat) :=
  [.arrive 0 ⟨.artifact, 7⟩ .get, .lookup 0, .load 0, .recheck 0, .send (.leader 0), .answer (.leader 0),
    .file (.leader 0), .file (.leader 0), .file (.leader 0), .file (.leader 0), .file (.leader 0),
    .rename (.leader 0) true, .settle (.leader 0), .await 0, .serve 0]

theorem lookup_leads_once_fetch : ∃ s : Proxy Nat Unit,
    exec (step fun _ _ => .ok () [1]) oneFetch (start fun _ => none) = some s ∧ s.gets 7 = 1 := by
  have hrun : (exec (step fun _ _ => .ok () [1]) oneFetch (start fun _ => none) : Option (Proxy Nat Unit)).any
      (fun s => s.lost 7 = 0 &&
        s.requests 0 = some ⟨⟨.artifact, 7⟩, .get, .answered (.entry () (some [1])) (some 0)⟩) = true := by decide
  obtain ⟨s, hs, hp⟩ := (Option.any_eq_true _ _).1 hrun
  simp only [Bool.and_eq_true, decide_eq_true_eq] at hp
  obtain ⟨hl, hR⟩ := hp
  have hok : allowed (step fun _ _ => .ok () [1]) (fun _ a => a.checked) oneFetch
      (start fun _ => none : Proxy Nat Unit) = true := by decide
  have h : Run (step fun _ _ => .ok () [1]) Checked (· = start fun _ => none) s :=
    Run.exec_allowed (fun _ _ => Action.checked_ok) (.start rfl) hok hs
  exact ⟨s, hs, ((lookup_leads_once (by simp) h).2 7 hl).2 rfl ⟨0, _, _, _, hR, rfl, rfl⟩⟩

/-- Request 1 misses on disk; request 0 leads, its fetch commits and leaves the map. -/
def fetchInTheGap : List (Action Nat) :=
  [.arrive 1 ⟨.artifact, 7⟩ .get, .lookup 1, .load 1] ++ oneFetch ++ [.finish (.leader 0)]

/-- Request 1 then leads, with the entry on disk, and fetches it again. -/
theorem redundant_fetch : ∃ s s₁ s₂ : Proxy Nat Unit,
    exec (step fun _ _ => .ok () [1]) fetchInTheGap (start fun _ => none) = some s ∧ (s.stored 7).isSome ∧
      step (fun _ _ => .ok () [1]) (.recheck 1) s = some s₁ ∧ s₁.next ≠ s.next ∧
      step (fun _ _ => .ok () [1]) (.send (.leader 1)) s₁ = some s₂ ∧ s₂.gets 7 = 2 ∧ s₂.lost 7 = 0 := by
  have hrun : (exec (step fun _ _ => .ok () [1]) fetchInTheGap (start fun _ => none) : Option (Proxy Nat Unit)).any
      (fun s => (s.stored 7).isSome && (step (fun _ _ => .ok () [1]) (.recheck 1) s).any fun s₁ =>
        s₁.next ≠ s.next && (step (fun _ _ => .ok () [1]) (.send (.leader 1)) s₁).any fun s₂ =>
          s₂.gets 7 = 2 && s₂.lost 7 = 0) = true := by decide
  obtain ⟨s, hs, h⟩ := (Option.any_eq_true _ _).1 hrun
  simp only [Bool.and_eq_true, Option.any_eq_true, decide_eq_true_eq] at h
  obtain ⟨hst, s₁, hs₁, hn, s₂, hs₂, hg, hl⟩ := h
  exact ⟨s, s₁, s₂, hs, hst, hs₁, hn, hs₂, hg, hl⟩

end Proxy

end Vampire
