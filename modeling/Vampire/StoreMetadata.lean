/-
One call of `CacheStore::store_metadata`, await by await, against an
arbitrary environment: the other tasks of the store, the eviction requests,
the file system's answers, and a cancellation at any await point
(`Drop for MetadataTempCleanup`, `evict_files_to_bound`).

A file call takes effect at once when it completes. A call that is cancelled
may still be under way on the blocking pool, and completes later or never
(`late`).

The call publishes before it scans. So an error of the scan's listing is
returned with the new entry in place, and a cancellation during the scan (or
a rename that completes after one) leaves an entry that nobody has been asked
to bring under the bound. A removal that completes after a cancellation can
take the new entry away where an older one was before.
-/
import Mathlib
import Vampire.Lib.Runs
import Vampire.Publish

namespace Vampire.StoreMetadata

open Lib
open Store (unitSerde)

/-- A listed entry of the scan; `own` is the entry of the call's key. -/
structure Candidate where
  own : Bool
  modified : Nat
  size : Nat
  deriving DecidableEq

/-- Where the call is; all but the last two and `deciding` are awaits. -/
inductive Pc
  | createDir
  | create (json : Bytes)
  | write (rest : List Bytes)
  | flush
  | lock
  | rename
  | listing
  /-- The removal loop with its running total. -/
  | deciding (total : Nat) (rest : List Candidate)
  | removing (total : Nat) (entry : Candidate) (rest : List Candidate)
  | returned (ok : Bool)
  | cancelled
  deriving DecidableEq

/-- The call is over. -/
def Pc.exited : Pc → Bool
  | .returned _ | .cancelled => true
  | _ => false

/-- The call awaits the creation of its temp file. -/
def Pc.creating : Pc → Bool
  | .create _ => true
  | _ => false

/-- The call awaits a file operation of its eviction scan. -/
def Pc.scanning : Pc → Bool
  | .listing | .removing _ _ _ => true
  | _ => false

/-- The task that `Drop for MetadataTempCleanup` spawns. -/
inductive Cleanup
  | none | spawned | ran
  deriving DecidableEq

/-- A file call that was under way when the call was cancelled. -/
inductive Late
  | create | rename
  /-- The scan's `remove_file`; `own` as in `Candidate`. -/
  | remove (own : Bool)
  deriving DecidableEq

inductive Lock
  | free | mine | others
  deriving DecidableEq

structure Call where
  pc : Pc
  /-- The file at `<key>`. -/
  entry : Option Bytes
  /-- What the other tasks alone have made of `<key>`: the entry previously visible. -/
  others : Option Bytes
  /-- The file at the unique temp path. -/
  temp : Option Bytes
  /-- `MetadataTempCleanup::armed`; false also before the guard is made. -/
  armed : Bool
  cleanup : Cleanup
  late : Option Late
  /-- `eviction_lock` -/
  lock : Lock
  /-- An eviction request is in the channel or with the janitor, no pass begun on it. -/
  queued : Bool
  /-- The new entry became visible, and when the call was over no pass had
  been completed since and none was queued. -/
  lapsed : Bool
  deriving DecidableEq

inductive Action
  /-- The await completes. -/
  | ok
  /-- The await returns an I/O error. -/
  | fail
  /-- `completed_entries_at` returns these. -/
  | listed (entries : List Candidate)
  /-- The loop's next turn, with what `is_pinned` says. -/
  | check (pinned : Bool)
  /-- The future is dropped at an await, inside a runtime or not. -/
  | cancel (runtime : Bool)
  /-- What a cancelled file call left takes effect. -/
  | late
  /-- The cleanup task runs; its `remove_file` may fail. -/
  | clean (removed : Bool)
  /-- Another task replaces or removes `<key>`. -/
  | other (entry : Option Bytes)
  /-- Another task takes the eviction lock, or releases it. -/
  | otherLock (held : Bool)
  /-- A request is sent, or a pass begins on it. -/
  | request (queued : Bool)
  deriving DecidableEq

section
variable {Meta : Type} (serde : Serde Meta) (body : Bytes) (info : Meta) (maxCacheSize : Nat)

/-- Leaving the function drops its locals: the lock's guard, then the temp
file's, which spawns the removal when it is armed and a runtime is there. -/
def Call.exit (s : Call) (pc : Pc) (runtime : Bool) : Call :=
  { s with
    pc
    lock := if s.lock = .mine then .free else s.lock
    cleanup := if s.armed && runtime then .spawned else s.cleanup
    armed := false }

/-- The same after the rename, with no pass completed. -/
def Call.lapse (s : Call) : Call := { s with lapsed := s.lapsed || !s.queued }

/-- An await that completes. -/
def Call.complete (s : Call) : Option Call :=
  match s.pc with
  | .createDir =>
    match serializeMeta serde info with
    | .ok json =>
      if json.length < 2 ^ 32 then some { s with pc := .create json, armed := true }
      else some (s.exit (.returned false) true)
    | .error _ => some (s.exit (.returned false) true)
  | .create json => some { s with pc := .write [body, json, toBeBytes json.length], temp := some [] }
  | .write [] => none
  | .write [bytes] => some { s with pc := .flush, temp := s.temp.map (· ++ bytes) }
  | .write (bytes :: rest) => some { s with pc := .write rest, temp := s.temp.map (· ++ bytes) }
  -- and `drop(file)`
  | .flush => some { s with pc := .lock }
  | .lock => if s.lock = .free then some { s with pc := .rename, lock := .mine } else none
  | .rename =>
    match s.temp with
    | some bytes => some { s with pc := .listing, entry := some bytes, temp := none, armed := false }
    | none => none
  -- Removed, or already gone.
  | .removing total e rest =>
    some { s with pc := .deciding (total - e.size) rest, entry := if e.own then none else s.entry }
  | .listing | .deciding _ _ | .returned _ | .cancelled => none

/-- An await that returns an error: `?` everywhere but in the removal loop. -/
def Call.err (s : Call) : Option Call :=
  match s.pc with
  | .createDir | .create _ | .write _ | .flush | .rename => some (s.exit (.returned false) true)
  | .listing => some (s.exit (.returned false) true).lapse
  | .removing total _ rest => some { s with pc := .deciding total rest }
  | .lock | .deciding _ _ | .returned _ | .cancelled => none

/-- The future is dropped. -/
def Call.cancel (s : Call) (runtime : Bool) : Option Call :=
  match s.pc with
  | .createDir | .write _ | .flush | .lock => some (s.exit .cancelled runtime)
  | .create _ => some { s.exit .cancelled runtime with late := some .create }
  | .rename => some { s.exit .cancelled runtime with late := some .rename }
  | .listing => some (s.exit .cancelled runtime).lapse
  | .removing _ e _ => some { s.exit .cancelled runtime with late := some (.remove e.own) }.lapse
  | .deciding _ _ | .returned _ | .cancelled => none

def Call.lateEffect (s : Call) : Option Call :=
  match s.late with
  | some .create => some { s with late := none, temp := some [] }
  | some .rename =>
    match s.temp with
    | some bytes => some { s with late := none, entry := some bytes, temp := none }.lapse
    | none => some { s with late := none }
  | some (.remove own) => some { s with late := none, entry := if own then none else s.entry }
  | none => none

/-- The removal loop's next turn. -/
def Call.check (s : Call) (pinned : Bool) : Option Call :=
  match s.pc with
  | .deciding _ [] => some (s.exit (.returned true) true)
  | .deciding total (e :: rest) =>
    if total ≤ maxCacheSize then some (s.exit (.returned true) true)
    else if pinned then some { s with pc := .deciding total rest }
    else some { s with pc := .removing total e rest }
  | _ => none

def step : Action → Call → Option Call
  | .ok, s => s.complete serde body info
  | .fail, s => s.err
  | .listed entries, s =>
    if s.pc = .listing then
      let total := (entries.map (·.size)).sum
      if total ≤ maxCacheSize then some (s.exit (.returned true) true)
      else some { s with pc := .deciding total (entries.insertionSort (fun a b => a.modified ≤ b.modified)) }
    else none
  | .check pinned, s => s.check maxCacheSize pinned
  | .cancel runtime, s => s.cancel runtime
  | .late, s => s.lateEffect
  | .clean removed, s =>
    if s.cleanup = .spawned then
      some { s with cleanup := .ran, temp := if removed then none else s.temp }
    else none
  | .other entry, s => some { s with entry, others := entry }
  | .otherLock held, s =>
    if held then (if s.lock = .free then some { s with lock := .others } else none)
    else (if s.lock = .others then some { s with lock := .free } else none)
  | .request queued, s => some { s with queued }

/-- The call at its first await, over any previous entry. -/
def Init (s : Call) : Prop :=
  s.pc = .createDir ∧ s.entry = s.others ∧ s.temp = none ∧ s.armed = false ∧ s.cleanup = .none ∧
    s.late = none ∧ s.lock ≠ .mine ∧ s.lapsed = false

/-! ## What is asked of the call -/

/-- The guarantees at the exits of `store_metadata`. -/
structure Exits (s : Call) : Prop where
  /-- `Err` leaves the previous entry. -/
  err : s.pc = .returned false → s.entry = s.others
  /-- A cancellation leaves it, or the complete new one. -/
  cancelled : s.pc = .cancelled → s.entry = s.others ∨ s.entry = some (pack serde body info)
  /-- The temp file is gone unless its removal is still to run. -/
  temp : s.pc.exited → s.cleanup ≠ .spawned → s.temp = none
  /-- A visible new entry has had its pass, or one is queued. -/
  bound : s.lapsed = false

/-- The steps that do not leave the publication half done: the listing after
the rename does not fail, and nothing cancels the scan, unless a pass is
queued anyway and `<key>` is in order; a cancelled rename does not take
effect later without a pass queued, nor a cancelled creation after the
cleanup, nor a cancelled removal of `<key>` unless it had no entry before; the
cleanup is spawned, and its removal does not fail. -/
def Careful (s : Call) : Action → Prop
  | .fail => s.pc = .listing → s.queued = true ∧ s.entry = s.others
  | .cancel runtime =>
    (s.pc.creating = true ∨ s.temp ≠ none → runtime = true) ∧
    (s.pc.scanning = true → s.queued = true ∧ (s.entry = s.others ∨ s.entry = some (pack serde body info)))
  | .late => (s.late = some .create → s.cleanup = .spawned) ∧
      (s.late = some .rename → s.temp ≠ none → s.queued = true) ∧
      (s.late = some (.remove true) → s.others = none)
  | .clean removed => s.temp ≠ none → removed = true
  | _ => True

end

/-! ## Where the call is, and what it has done by then -/

/-- The temp file's guard is there. -/
def Pc.guarded : Pc → Bool
  | .create _ | .write _ | .flush | .lock | .rename => true
  | _ => false

/-- The rename is not done, nor can it be. -/
def Pc.unpublished : Pc → Bool
  | .createDir | .create _ | .write _ | .flush | .lock | .rename | .returned false => true
  | _ => false

section
variable {Meta : Type} (serde : Serde Meta) (body : Bytes) (info : Meta)

/-- What is at the temp path. -/
def TempOk (s : Call) : Prop :=
  match s.pc with
  | .create json => s.temp = none ∧ json = serde.toVec info
  | .write rest => ∃ written, s.temp = some written ∧ written ++ rest.flatten = pack serde body info
  | .flush | .lock | .rename => s.temp = some (pack serde body info)
  | .createDir | .listing | .deciding _ _ | .removing _ _ _ => s.temp = none
  | .returned _ | .cancelled => s.temp ≠ none → s.cleanup = .spawned

structure Inv (s : Call) : Prop where
  lapsed : s.lapsed = false
  armed : s.armed = s.pc.guarded
  cleanup : s.cleanup ≠ .none → s.pc.exited
  late : s.late ≠ none → s.pc = .cancelled
  previous : s.pc.unpublished → s.entry = s.others
  entry : s.pc = .cancelled → s.entry = s.others ∨ s.entry = some (pack serde body info)
  temp : TempOk serde body info s
  lateTemp : s.late = some .rename → s.temp = none ∨ s.temp = some (pack serde body info)

end

section
variable {Meta : Type} {serde : Serde Meta} {body : Bytes} {info : Meta} {maxCacheSize : Nat} {s s' : Call}

theorem serializeMeta_ok {json : Bytes} (h : serializeMeta serde info = .ok json) : json = serde.toVec info := by
  simp only [serializeMeta] at h
  split at h <;> cases h
  rfl

/-- A call cancelled leaves nothing that is under way unless it says so. -/
theorem Inv.late_none (h : Inv serde body info s) (hx : s.pc.exited = false) : s.late = none := by
  by_contra hl
  rw [h.late hl] at hx
  cases hx

theorem Inv.cleanup_none (h : Inv serde body info s) (hx : s.pc.exited = false) : s.cleanup = .none := by
  by_contra hc
  rw [h.cleanup hc] at hx
  cases hx

/-- From one await to the next. -/
theorem Inv.advance (h : Inv serde body info s) (hx : s.pc.exited = false) {pc : Pc} {armed : Bool}
    {temp entry : Option Bytes} {lock : Lock} (hx' : pc.exited = false) (harmed : armed = pc.guarded)
    (hp : pc.unpublished → entry = s.others)
    (ht : TempOk serde body info { s with pc, armed, temp, entry, lock }) :
    Inv serde body info { s with pc, armed, temp, entry, lock } where
  lapsed := h.lapsed
  armed := harmed
  cleanup hc := absurd (h.cleanup_none hx) hc
  late hl := absurd (h.late_none hx) hl
  previous := hp
  entry he := by rw [show pc = .cancelled from he] at hx'; cases hx'
  temp := ht
  lateTemp hl := by cases (h.late_none hx).symm.trans hl

/-- An error before the rename. -/
theorem Inv.exit_err (h : Inv serde body info s) (hp : s.entry = s.others) (hx : s.pc.exited = false)
    (ht : s.temp ≠ none → s.pc.guarded) : Inv serde body info (s.exit (.returned false) true) where
  lapsed := h.lapsed
  armed := rfl
  cleanup _ := rfl
  late hl := absurd (h.late_none hx) hl
  previous _ := hp
  entry he := by cases he
  temp hne := by simp [Call.exit, h.armed, ht hne]
  lateTemp hl := by cases (h.late_none hx).symm.trans hl

/-- The removal loop is over. -/
theorem Inv.exit_ok (h : Inv serde body info s) (hx : s.pc.exited = false) (ht : s.temp = none) :
    Inv serde body info (s.exit (.returned true) true) where
  lapsed := h.lapsed
  armed := rfl
  cleanup _ := rfl
  late hl := absurd (h.late_none hx) hl
  previous hp := by cases hp
  entry he := by cases he
  temp hne := absurd ht hne
  lateTemp hl := by cases (h.late_none hx).symm.trans hl

/-- A cancellation, `late` what it leaves under way. -/
theorem Inv.exit_cancelled (h : Inv serde body info s) (runtime : Bool)
    (he : s.entry = s.others ∨ s.entry = some (pack serde body info))
    (ht : s.temp ≠ none → s.pc.guarded ∧ runtime = true) (late : Option Late)
    (hl : late = some .rename → s.temp = none ∨ s.temp = some (pack serde body info)) :
    Inv serde body info { s.exit .cancelled runtime with late } where
  lapsed := h.lapsed
  armed := rfl
  cleanup _ := rfl
  late _ := rfl
  previous hp := by cases hp
  entry _ := he
  temp hne := by simp [Call.exit, h.armed, (ht hne).1, (ht hne).2]
  lateTemp := hl

/-! ## The steps -/

theorem complete_inv (h : Inv serde body info s) (hs : s.complete serde body info = some s') :
    Inv serde body info s' := by
  obtain ⟨pc, entry, others, temp, armed, cleanup, late, lock, queued, lapsed⟩ := s
  cases pc with
  | createDir =>
    have ht : temp = none := h.temp
    have hp : entry = others := h.previous rfl
    simp only [Call.complete] at hs
    split at hs
    · next json hj =>
      split at hs <;> cases hs
      · exact h.advance rfl rfl rfl (fun _ => hp) ⟨ht, serializeMeta_ok hj⟩
      · exact h.exit_err hp rfl fun hne => absurd ht hne
    · cases hs
      exact h.exit_err hp rfl fun hne => absurd ht hne
  | create json =>
    cases hs
    obtain ⟨-, rfl⟩ := h.temp
    exact h.advance rfl rfl h.armed (fun _ => h.previous rfl) ⟨[], rfl, by simp [pack]⟩
  | write rest =>
    obtain ⟨written, ht, hw⟩ := h.temp
    simp only at ht
    subst ht
    rcases rest with _ | ⟨bytes, _ | ⟨b, rest⟩⟩ <;> cases hs
    · exact h.advance rfl rfl h.armed (fun _ => h.previous rfl) (by simpa [TempOk] using hw)
    · exact h.advance rfl rfl h.armed (fun _ => h.previous rfl) ⟨written ++ bytes, rfl, by simpa using hw⟩
  | flush =>
    cases hs
    exact h.advance rfl rfl h.armed (fun _ => h.previous rfl) h.temp
  | lock =>
    simp only [Call.complete] at hs
    split at hs <;> cases hs
    exact h.advance rfl rfl h.armed (fun _ => h.previous rfl) h.temp
  | rename =>
    simp only [Call.complete] at hs
    split at hs <;> cases hs
    exact h.advance rfl rfl rfl (fun hp => by cases hp) rfl
  | removing total e rest =>
    cases hs
    exact h.advance rfl rfl h.armed (fun hp => by cases hp) h.temp
  | listing | deciding | returned | cancelled => cases hs

theorem err_inv (h : Inv serde body info s) (hok : Careful serde body info s .fail) (hs : s.err = some s') :
    Inv serde body info s' := by
  obtain ⟨pc, entry, others, temp, armed, cleanup, late, lock, queued, lapsed⟩ := s
  cases pc with
  | createDir =>
    cases hs
    exact h.exit_err (h.previous rfl) rfl fun hne => absurd h.temp hne
  | create | write | flush | rename =>
    cases hs
    exact h.exit_err (h.previous rfl) rfl fun _ => rfl
  | listing =>
    cases hs
    obtain ⟨hq, he⟩ := hok rfl
    have hi := h.exit_err he rfl fun hne => absurd h.temp hne
    exact { hi with lapsed := by simpa [Call.lapse, Call.exit, show queued = true from hq] using h.lapsed }
  | removing total e rest =>
    cases hs
    exact h.advance rfl rfl h.armed (fun hp => by cases hp) h.temp
  | lock | deciding | returned | cancelled => cases hs

theorem cancel_inv {runtime : Bool} (h : Inv serde body info s)
    (hok : Careful serde body info s (.cancel runtime)) (hs : s.cancel runtime = some s') :
    Inv serde body info s' := by
  obtain ⟨pc, entry, others, temp, armed, cleanup, late, lock, queued, lapsed⟩ := s
  obtain ⟨hruntime, hscan⟩ := hok
  cases pc with
  | createDir =>
    cases hs
    exact h.exit_cancelled runtime (.inl (h.previous rfl)) (fun hne => absurd h.temp hne) _ h.lateTemp
  | create json =>
    cases hs
    exact h.exit_cancelled runtime (.inl (h.previous rfl)) (fun hne => absurd h.temp.1 hne) _ fun hl => by cases hl
  | write | flush | lock =>
    cases hs
    exact h.exit_cancelled runtime (.inl (h.previous rfl)) (fun hne => ⟨rfl, hruntime (.inr hne)⟩) _ h.lateTemp
  | rename =>
    cases hs
    exact h.exit_cancelled runtime (.inl (h.previous rfl)) (fun hne => ⟨rfl, hruntime (.inr hne)⟩) _ fun _ => .inr h.temp
  | listing =>
    cases hs
    obtain ⟨hq, he⟩ := hscan rfl
    have hi := h.exit_cancelled runtime he (fun hne => absurd h.temp hne) _ h.lateTemp
    exact { hi with lapsed := by simpa [Call.lapse, Call.exit, show queued = true from hq] using h.lapsed }
  | removing total e rest =>
    cases hs
    obtain ⟨hq, he⟩ := hscan rfl
    have hi := h.exit_cancelled runtime he (fun hne => absurd h.temp hne) (some (.remove e.own)) fun hl => by cases hl
    exact { hi with lapsed := by simpa [Call.lapse, Call.exit, show queued = true from hq] using h.lapsed }
  | deciding | returned | cancelled => cases hs

/-- What a cancelled call left under way, once it is over. -/
theorem late_inv (h : Inv serde body info s) (hok : Careful serde body info s .late)
    (hs : s.lateEffect = some s') : Inv serde body info s' := by
  obtain ⟨pc, entry, others, temp, armed, cleanup, late, lock, queued, lapsed⟩ := s
  obtain ⟨hcreate, hrename, hremove⟩ := hok
  cases late with
  | none => cases hs
  | some call =>
    obtain rfl : pc = .cancelled := h.late (by simp)
    cases call with
    | create =>
      cases hs
      exact { h with
        late := fun _ => rfl
        temp := fun _ => hcreate rfl
        lateTemp := fun hl => by cases hl }
    | rename =>
      have ht := h.lateTemp rfl
      simp only [Call.lateEffect] at hs
      cases temp with
      | none =>
        cases hs
        exact { h with late := fun _ => rfl, lateTemp := fun hl => by cases hl }
      | some bytes =>
        cases hs
        have hq : queued = true := hrename rfl (by simp)
        obtain rfl : bytes = pack serde body info := by simpa using ht
        exact { h with
          lapsed := by simpa [Call.lapse, hq] using h.lapsed
          late := fun _ => rfl
          previous := fun hp => by cases hp
          entry := fun _ => .inr rfl
          temp := fun hne => absurd rfl hne
          lateTemp := fun hl => by cases hl }
    | remove own =>
      cases hs
      have he : (if own then none else entry) = others ∨ (if own then none else entry) = some (pack serde body info) := by
        cases own with
        | false => exact h.entry rfl
        | true => exact .inl (hremove rfl).symm
      exact { h with
        late := fun _ => rfl
        previous := fun hp => by cases hp
        entry := fun _ => he
        lateTemp := fun hl => by cases hl }

theorem check_inv {pinned : Bool} (h : Inv serde body info s) (hs : s.check maxCacheSize pinned = some s') :
    Inv serde body info s' := by
  obtain ⟨pc, entry, others, temp, armed, cleanup, late, lock, queued, lapsed⟩ := s
  cases pc with
  | deciding total rest =>
    cases rest with
    | nil =>
      cases hs
      exact h.exit_ok rfl h.temp
    | cons e rest =>
      simp only [Call.check] at hs
      repeat' split at hs
      all_goals cases hs
      · exact h.exit_ok rfl h.temp
      · exact h.advance rfl rfl h.armed (fun hp => by cases hp) h.temp
      · exact h.advance rfl rfl h.armed (fun hp => by cases hp) h.temp
  | createDir | create | write | flush | lock | rename | listing | removing | returned | cancelled => cases hs

theorem step_inv {a : Action} (h : Inv serde body info s) (hok : Careful serde body info s a)
    (hs : step serde body info maxCacheSize a s = some s') : Inv serde body info s' := by
  cases a with
  | ok => exact complete_inv h hs
  | fail => exact err_inv h hok hs
  | listed entries =>
    obtain ⟨pc, entry, others, temp, armed, cleanup, late, lock, queued, lapsed⟩ := s
    simp only [step] at hs
    repeat' split at hs
    all_goals cases hs
    · next hpc _ =>
      obtain rfl : pc = .listing := hpc
      exact h.exit_ok rfl h.temp
    · next hpc _ =>
      obtain rfl : pc = .listing := hpc
      exact h.advance rfl rfl h.armed (fun hp => by cases hp) h.temp
  | check pinned => exact check_inv h hs
  | cancel runtime => exact cancel_inv h hok hs
  | late => exact late_inv h hok hs
  | clean removed =>
    simp only [step] at hs
    split at hs <;> cases hs
    next hc =>
    have hx := h.cleanup (by simp [hc])
    have hgone : (if removed then none else s.temp) = none := by
      by_cases ht : s.temp = none
      · simp [ht]
      · rw [if_pos (hok ht)]
    refine { h with cleanup := fun _ => hx, temp := ?_, lateTemp := fun _ => .inl hgone }
    obtain ⟨pc, entry, others, temp, armed, cleanup, late, lock, queued, lapsed⟩ := s
    cases pc with
    | returned | cancelled => exact fun hne => absurd hgone hne
    | _ => cases hx
  | other entry =>
    cases hs
    exact { h with previous := fun _ => rfl, entry := fun _ => .inl rfl, temp := h.temp }
  | otherLock held =>
    simp only [step] at hs
    repeat' split at hs
    all_goals cases hs
    all_goals exact { h with temp := h.temp }
  | request queued =>
    cases hs
    exact { h with temp := h.temp }

theorem init_inv (h : Init s) : Inv serde body info s := by
  obtain ⟨hpc, he, ht, ha, hc, hl, -, hlapsed⟩ := h
  refine ⟨hlapsed, by simp [ha, hpc, Pc.guarded], by simp [hc], by simp [hl], fun _ => he, fun _ => .inl he, ?_,
    fun _ => .inl ht⟩
  simp only [TempOk, hpc]
  exact ht

theorem Inv.exits (h : Inv serde body info s) : Exits serde body info s where
  err hpc := h.previous (by rw [hpc]; rfl)
  cancelled := h.entry
  temp hx hc := by
    by_contra hne
    have ht := h.temp
    obtain ⟨pc, entry, others, temp, armed, cleanup, late, lock, queued, lapsed⟩ := s
    cases pc with
    | returned | cancelled => exact hc (ht hne)
    | _ => cases hx
  bound := h.lapsed

instance : (a : Action) → Decidable (Careful serde body info s a)
  | .fail => inferInstanceAs (Decidable (_ → _ ∧ _))
  | .cancel _ => inferInstanceAs (Decidable ((_ ∨ _ → _) ∧ (_ → _ ∧ (_ ∨ _))))
  | .late => inferInstanceAs (Decidable ((_ → _) ∧ (_ → _ → _) ∧ (_ → _)))
  | .clean _ => inferInstanceAs (Decidable (_ → _))
  | .ok | .listed _ | .check _ | .other _ | .otherLock _ | .request _ => inferInstanceAs (Decidable True)

end

/-- The call about to write a key that has no entry, the lock free. -/
def fresh : Call :=
  { pc := .createDir
    entry := none
    others := none
    temp := none
    armed := false
    cleanup := .none
    late := none
    lock := .free
    queued := false
    lapsed := false }

theorem init_fresh : Init fresh := by simp [Init, fresh]

/-- The directory, the file, three writes, the flush, the lock, the rename. -/
def publishing : List Action := List.replicate 8 .ok

/-- Cancelled at the removal of its own entry, a pass queued: the removal completes later, and the entry
that was there before is not back. -/
example : (exec (step unitSerde [9, 9] () 8)
    (publishing ++ [.listed [⟨true, 0, 10⟩], .check false, .request true, .cancel true, .late])
    { fresh with entry := some [7], others := some [7] }).any
    (fun s => s.entry = none ∧ s.others = some [7] ∧ s.lapsed = false) = true := by decide

end Vampire.StoreMetadata
