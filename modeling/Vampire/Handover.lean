/-
Who holds the lock of a cache directory (`CacheStore::new`,
`lock_cache_directory`, `Drop for PublishedEntryInner`,
`Drop for MetadataTempCleanup`, `ArtifactFetchCleanup`).

The lock belongs to an open file, and an `Arc` of that file goes wherever
something may still touch the directory: into the store, each publication
token, the eviction channel and the janitor's loop, each metadata temp guard
and the task it spawns; an artifact fetch and its cleanup task hold an `App`
instead, whose store holds the file. Each task is modelled by what it may do
next: the file call it makes, the references it clones and drops in their
order, and what is left of it. The count goes by the clones and drops alone,
the file closes with the last one, and only then can another store open.

That the drops come in an order that never closes the file early, whatever
the interleaving, is the theorem: no task counts for anyone else's sake.
-/
import Mathlib
import Vampire.Lib.Runs
import Vampire.Lib.Tally

namespace Vampire.Handover

open Lib

/-! ## References -/

/-- The strong counts of `Arc<std::fs::File>` and of `App`'s `Arc<AppInner>`
(before it exists: of the store in `CacheStore::new`), and the advisory lock. -/
structure Refs where
  files : Nat
  apps : Nat
  held : Bool
  deriving DecidableEq

inductive RefOp
  | cloneFile | dropFile | cloneApp | dropApp
  deriving DecidableEq

/-- The last reference closes the file, which releases its lock. -/
def Refs.dropFile (r : Refs) : Refs :=
  { r with files := r.files - 1, held := r.held && r.files ≠ 1 }

/-- The last `App` drops the store, and with it the store's `directory_lock`. -/
def Refs.apply (r : Refs) : RefOp → Refs
  | .cloneFile => { r with files := r.files + 1 }
  | .dropFile => r.dropFile
  | .cloneApp => { r with apps := r.apps + 1 }
  | .dropApp => if r.apps = 1 then { r with apps := 0 }.dropFile else { r with apps := r.apps - 1 }

def Refs.run (r : Refs) (ops : List RefOp) : Refs := ops.foldl Refs.apply r

/-! ## Tasks -/

/-- A file call on the cache directory. -/
inductive Mutation
  | createDir | create | write | rename | remove
  deriving DecidableEq

/-- `CacheStore::new` once it has the lock: `cleanup_stale_and_legacy`, `evict_to_bound`. -/
inductive OpeningPc
  | clean | evict
  deriving DecidableEq

/-- `store_metadata`; its guard is there from `create` on, disarmed in `scan`. -/
inductive MetadataPc
  | createDir | create | write | lock | rename | scan
  deriving DecidableEq

/-- `run_artifact_fetch`; its guard is there from `request` on. -/
inductive FetchPc
  | spawned | request | write | commit | rename | unlink | finish
  deriving DecidableEq

/-- A spawned removal of a temp file. -/
inductive CleanupPc
  | unlink | close
  deriving DecidableEq

/-- `Drop for PublishedEntryInner`, then its fields. -/
inductive TokenPc
  | live | dropping | sending | closing
  deriving DecidableEq

/-- What may hold a reference, the janitor and its channel apart. -/
inductive Part
  | opening (pc : OpeningPc)
  /-- A clone of `App`: a listener's, a connection's, a request's. -/
  | app
  | metadata (pc : MetadataPc)
  | fetch (pc : FetchPc)
  | fetchCleanup (pc : CleanupPc)
  | tempCleanup (pc : CleanupPc)
  | token (pc : TokenPc)
  deriving DecidableEq

/-- The `Arc<File>`s a part has itself. -/
def Part.files : Part → Nat
  | .metadata .createDir | .opening _ | .app | .fetch _ | .fetchCleanup _ => 0
  | .metadata _ | .tempCleanup _ | .token _ => 1

/-- Its handles on the store; a fetch has one for its task and one in its guard. -/
def Part.apps : Part → Nat
  | .tempCleanup _ | .token _ => 0
  | .opening _ | .app | .metadata _ | .fetch .spawned | .fetchCleanup _ => 1
  | .fetch _ => 2

/-- One step of a part: its file call, its clones and drops in order, what takes its place. -/
structure Move where
  call : Option Mutation
  ops : List RefOp
  parts : List Part

/-- `?` with the temp guard armed: its drop clones the file for the task it spawns. -/
def tempFailed : Move := ⟨none, [.cloneFile, .dropFile], [.app, .tempCleanup .unlink]⟩

/-- The request is cancelled with the guard armed, inside a runtime and outside. -/
def tempCancelled : List Move :=
  [⟨none, [.cloneFile, .dropFile, .dropApp], [.tempCleanup .unlink]⟩, ⟨none, [.dropFile, .dropApp], []⟩]

/-- The fetch is cancelled: `ArtifactFetchCleanup` clones its `App` for the
task it spawns, and is dropped, and the task's own `App` after it. -/
def fetchCancelled : List Move :=
  [⟨none, [.cloneApp, .dropApp, .dropApp], [.fetchCleanup .unlink]⟩,
    -- The spawn fails: no runtime any more.
    ⟨none, [.cloneApp, .dropApp, .dropApp, .dropApp], []⟩]

/-- The steps a part can take: success, failure and cancellation at each await. -/
def Part.moves : Part → List Move
  | .opening .clean =>
    [⟨some .remove, [], [.opening .clean]⟩, ⟨none, [], [.opening .evict]⟩, ⟨none, [.dropApp], []⟩]
  | .opening .evict =>
    [⟨some .remove, [], [.opening .evict]⟩, ⟨none, [], [.app]⟩, ⟨none, [.dropApp], []⟩]
  | .app =>
    [⟨none, [.cloneApp], [.app, .app]⟩, ⟨none, [.dropApp], []⟩,
      -- `lookup_or_start_artifact`, `spawn_artifact_fetch`, `store_metadata`
      ⟨some .createDir, [], [.app]⟩, ⟨none, [.cloneApp], [.app, .fetch .spawned]⟩,
      ⟨none, [], [.metadata .createDir]⟩]
  | .metadata .createDir =>
    [⟨some .createDir, [.cloneFile], [.metadata .create]⟩, ⟨some .createDir, [], [.app]⟩, ⟨none, [], [.app]⟩,
      ⟨none, [.dropApp], []⟩]
  | .metadata .create => [⟨some .create, [], [.metadata .write]⟩, tempFailed] ++ tempCancelled
  | .metadata .write =>
    [⟨some .write, [], [.metadata .write]⟩, ⟨none, [], [.metadata .lock]⟩, tempFailed] ++ tempCancelled
  | .metadata .lock => ⟨none, [], [.metadata .rename]⟩ :: tempCancelled
  | .metadata .rename => [⟨some .rename, [], [.metadata .scan]⟩, tempFailed] ++ tempCancelled
  | .metadata .scan =>
    [⟨some .remove, [], [.metadata .scan]⟩, ⟨none, [.dropFile], [.app]⟩, ⟨none, [.dropFile, .dropApp], []⟩]
  | .fetch .spawned => [⟨none, [.cloneApp], [.fetch .request]⟩, ⟨none, [.dropApp], []⟩]
  | .fetch .request =>
    [⟨some .create, [], [.fetch .write]⟩, ⟨none, [], [.fetch .finish]⟩, ⟨none, [], [.fetch .unlink]⟩] ++ fetchCancelled
  | .fetch .write =>
    [⟨some .write, [], [.fetch .write]⟩, ⟨none, [], [.fetch .commit]⟩, ⟨none, [], [.fetch .unlink]⟩] ++ fetchCancelled
  | .fetch .commit =>
    [⟨some .write, [], [.fetch .commit]⟩, ⟨none, [.cloneFile], [.fetch .rename, .token .live]⟩,
      ⟨none, [], [.fetch .unlink]⟩] ++ fetchCancelled
  | .fetch .rename => [⟨some .rename, [], [.fetch .finish]⟩, ⟨none, [], [.fetch .unlink]⟩] ++ fetchCancelled
  | .fetch .unlink => [⟨some .remove, [], [.fetch .finish]⟩, ⟨none, [], [.fetch .finish]⟩] ++ fetchCancelled
  | .fetch .finish => ⟨none, [.dropApp, .dropApp], []⟩ :: fetchCancelled
  | .fetchCleanup .unlink =>
    [⟨some .remove, [], [.fetchCleanup .close]⟩, ⟨none, [], [.fetchCleanup .close]⟩, ⟨none, [.dropApp], []⟩]
  | .fetchCleanup .close => [⟨none, [.dropApp], []⟩]
  | .tempCleanup .unlink =>
    [⟨some .remove, [], [.tempCleanup .close]⟩, ⟨none, [], [.tempCleanup .close]⟩, ⟨none, [.dropFile], []⟩]
  | .tempCleanup .close => [⟨none, [.dropFile], []⟩]
  | .token .live => [⟨none, [], [.token .dropping]⟩]
  | .token .dropping => [⟨none, [], [.token .sending]⟩, ⟨none, [], [.token .closing]⟩]
  -- `try_send` is a step of the store.
  | .token .sending => []
  | .token .closing => [⟨none, [.dropFile], []⟩]

/-! ## A store and everything it left behind -/

/-- The janitor; it has the received file from `waiting` to `scanning`. -/
inductive Janitor
  | recv | waiting | draining | scanning | stopped
  deriving DecidableEq

def Janitor.files : Janitor → Nat
  | .recv | .stopped => 0
  | .waiting | .draining | .scanning => 1

structure Owner where
  refs : Refs
  parts : List Part
  /-- The eviction channel has a message. -/
  chan : Bool
  janitor : Janitor
  deriving DecidableEq

/-- `CacheStore::new` has just taken the lock. -/
def Owner.opened : Owner :=
  { refs := { files := 1, apps := 1, held := true }
    parts := [.opening .clean]
    chan := false
    janitor := .recv }

inductive OwnerAction
  /-- Part `i` takes its `n`th move. -/
  | move (i n : Nat)
  /-- `try_send` of a dropped token. -/
  | send (i : Nat)
  | recv
  | lock
  | drain
  | scan
  /-- The scan removes a file. -/
  | remove
  /-- The end of the loop's body drops the received file. -/
  | done
  /-- The runtime drops the janitor's task. -/
  | stop
  deriving DecidableEq

def Owner.step : OwnerAction → Owner → Option (Option Mutation × Owner)
  | .move i n, o =>
    match o.parts[i]? with
    | some p =>
      match p.moves[n]? with
      | some m => some (m.call, { o with refs := o.refs.run m.ops, parts := o.parts.eraseIdx i ++ m.parts })
      | none => none
    | none => none
  | .send i, o =>
    if o.parts[i]? = some (.token .sending) then
      let parts := o.parts.eraseIdx i ++ [.token .closing]
      -- A full or closed channel gives the clone back, to be dropped.
      if o.chan ∨ o.janitor = .stopped then some (none, { o with refs := o.refs.run [.cloneFile, .dropFile], parts })
      else some (none, { o with refs := o.refs.run [.cloneFile], parts, chan := true })
    else none
  | .recv, o => if o.janitor = .recv ∧ o.chan then some (none, { o with janitor := .waiting, chan := false }) else none
  | .lock, o => if o.janitor = .waiting then some (none, { o with janitor := .draining }) else none
  | .drain, o =>
    if o.janitor = .draining ∧ o.chan then some (none, { o with refs := o.refs.run [.dropFile], chan := false })
    else none
  | .scan, o => if o.janitor = .draining then some (none, { o with janitor := .scanning }) else none
  | .remove, o => if o.janitor = .scanning then some (some .remove, o) else none
  | .done, o =>
    if o.janitor = .scanning then some (none, { o with refs := o.refs.run [.dropFile], janitor := .recv }) else none
  | .stop, o =>
    let ops := List.replicate (o.janitor.files + o.chan.toNat) .dropFile
    some (none, { o with refs := o.refs.run ops, chan := false, janitor := .stopped })

/-! ## The directory -/

inductive Event
  /-- The lock acquisition of store `i` succeeds. -/
  | acquired (i : Nat)
  /-- Store `i` makes a file call. -/
  | mutated (i : Nat) (call : Mutation)
  deriving DecidableEq

/-- The stores that took the directory's lock, in that order, and what happened, the earliest first. -/
structure Directory where
  stores : List Owner
  log : List Event

inductive Action
  /-- `try_lock` on another open of the marker. -/
  | acquire
  | act (i : Nat) (a : OwnerAction)

def step : Action → Directory → Option Directory
  | .acquire, d =>
    if d.stores.all (fun o => !o.refs.held) then
      some { stores := d.stores ++ [Owner.opened], log := d.log ++ [.acquired d.stores.length] }
    else none
  | .act i a, d =>
    match d.stores[i]? with
    | some o =>
      match o.step a with
      | some (call, o') =>
        some { stores := d.stores.set i o', log := d.log ++ (call.map (Event.mutated i)).toList }
      | none => none
    | none => none

def Init (d : Directory) : Prop := d.stores = [] ∧ d.log = []

/-- Some step of store `i` makes a file call. -/
def Directory.Able (d : Directory) (i : Nat) : Prop :=
  ∃ o a call o', d.stores[i]? = some o ∧ o.step a = some (some call, o')

/-! ## The count is what the parts hold -/

/-- The counts, when `files` and `apps` are held by the parts: the store itself holds a file. -/
structure Refs.Counts (r : Refs) (files apps : Nat) : Prop where
  apps_eq : r.apps = apps
  files_eq : r.files = files + (if apps = 0 then 0 else 1)
  held_iff : r.held = true ↔ 0 < r.files

section
variable {r : Refs} {files apps : Nat}

theorem Refs.Counts.of_eq {files' apps' : Nat} (h : r.Counts files apps) (hf : files' = files) (ha : apps' = apps) :
    r.Counts files' apps' := hf ▸ ha ▸ h

theorem Refs.Counts.dropFile (h : r.Counts (files + 1) apps) : r.dropFile.Counts files apps := by
  obtain ⟨ha, hf, hh⟩ := h
  refine ⟨ha, ?_, ?_⟩
  · simp only [Refs.dropFile]
    omega
  · have hheld : r.held = true := hh.2 (by omega)
    simp only [Refs.dropFile, hheld, Bool.true_and, decide_eq_true_eq, ne_eq]
    omega

theorem Refs.Counts.cloneFile (h : r.Counts files apps) (hp : 0 < files + apps) :
    (r.apply .cloneFile).Counts (files + 1) apps := by
  obtain ⟨ha, hf, hh⟩ := h
  have hpos : 0 < r.files := by split at hf <;> omega
  refine ⟨ha, ?_, ?_⟩
  · simp only [Refs.apply]
    omega
  · simp [Refs.apply, hh.2 hpos]

theorem Refs.Counts.cloneApp (h : r.Counts files apps) (hp : 0 < apps) :
    (r.apply .cloneApp).Counts files (apps + 1) := by
  obtain ⟨ha, hf, hh⟩ := h
  rw [if_neg (by omega)] at hf
  exact ⟨by simp [Refs.apply, ha], by simp [Refs.apply, hf], hh⟩

theorem Refs.Counts.dropApp (h : r.Counts files (apps + 1)) : (r.apply .dropApp).Counts files apps := by
  obtain ⟨ha, hf, hh⟩ := h
  rw [if_neg (by omega)] at hf
  by_cases h0 : apps = 0
  · subst h0
    -- The last handle: the store goes, and the file with it.
    have h1 : ({ r with apps := 0 } : Refs).Counts (files + 1) 0 := ⟨rfl, by simpa using hf, hh⟩
    simpa [Refs.apply, ha] using h1.dropFile
  · simp only [Refs.apply, ha]
    rw [if_neg (by omega)]
    exact ⟨by simp, by simp [hf, h0], hh⟩

end

/-- What clones and drops make of the references a part holds; none when it
clones without one or drops one it does not have. -/
def settle : List RefOp → Nat × Nat → Option (Nat × Nat)
  | [], held => some held
  | .cloneFile :: ops, (files, apps) => if 0 < files + apps then settle ops (files + 1, apps) else none
  | .dropFile :: ops, (files, apps) => if 0 < files then settle ops (files - 1, apps) else none
  | .cloneApp :: ops, (files, apps) => if 0 < apps then settle ops (files, apps + 1) else none
  | .dropApp :: ops, (files, apps) => if 0 < apps then settle ops (files, apps - 1) else none

/-- Whatever the others hold, the counts follow what one part makes of its own. -/
theorem Refs.Counts.run {ops : List RefOp} : ∀ {r : Refs} {files apps : Nat} (own : Nat × Nat) {own' : Nat × Nat},
    r.Counts (files + own.1) (apps + own.2) → settle ops own = some own' →
      (r.run ops).Counts (files + own'.1) (apps + own'.2) := by
  induction ops with
  | nil =>
    intro r files apps own own' h hs
    cases hs
    exact h
  | cons op ops ih =>
    rintro r files apps ⟨f, a⟩ own' h hs
    cases op with
    | cloneFile =>
      simp only [settle, Option.ite_none_right_eq_some] at hs
      exact ih (f + 1, a) (h.cloneFile (by simp only; omega)) hs.2
    | dropFile =>
      simp only [settle, Option.ite_none_right_eq_some] at hs
      obtain ⟨f, rfl⟩ : ∃ f', f = f' + 1 := ⟨f - 1, by omega⟩
      exact ih (f, a) (Refs.Counts.dropFile h) hs.2
    | cloneApp =>
      simp only [settle, Option.ite_none_right_eq_some] at hs
      exact ih (f, a + 1) (h.cloneApp (by simp only; omega)) hs.2
    | dropApp =>
      simp only [settle, Option.ite_none_right_eq_some] at hs
      obtain ⟨a, rfl⟩ : ∃ a', a = a' + 1 := ⟨a - 1, by omega⟩
      exact ih (f, a) (Refs.Counts.dropApp h) hs.2

/-! ## Each part keeps its books -/

def filesOf (parts : List Part) : Nat := tally Part.files parts

def appsOf (parts : List Part) : Nat := tally Part.apps parts

/-- A move's clones and drops turn what the part holds into what takes its place holds. -/
theorem Part.moves_settle (p : Part) : ∀ m ∈ p.moves,
    settle m.ops (p.files, p.apps) = some (filesOf m.parts, appsOf m.parts) := by
  cases p with
  | opening pc | metadata pc | fetch pc | fetchCleanup pc | tempCleanup pc | token pc => cases pc <;> decide
  | app => decide

/-- No part is there without a reference. -/
theorem Part.holds (p : Part) : 0 < p.files + p.apps := by
  cases p with
  | opening pc | metadata pc | fetch pc | fetchCleanup pc | tempCleanup pc | token pc => cases pc <;> decide
  | app => decide

theorem filesOf_append (ps qs : List Part) : filesOf (ps ++ qs) = filesOf ps + filesOf qs := tally_append ..

theorem appsOf_append (ps qs : List Part) : appsOf (ps ++ qs) = appsOf ps + appsOf qs := tally_append ..

theorem filesOf_eraseIdx {ps : List Part} {i : Nat} {p : Part} (h : ps[i]? = some p) :
    filesOf ps = filesOf (ps.eraseIdx i) + p.files := tally_eraseIdx h

theorem appsOf_eraseIdx {ps : List Part} {i : Nat} {p : Part} (h : ps[i]? = some p) :
    appsOf ps = appsOf (ps.eraseIdx i) + p.apps := tally_eraseIdx h

/-! ## One store -/

/-- The counts are the parts', the channel's and the janitor's references. -/
def Owner.Counted (o : Owner) : Prop :=
  o.refs.Counts (filesOf o.parts + o.chan.toNat + o.janitor.files) (appsOf o.parts)

theorem Owner.opened_counted : Owner.opened.Counted := ⟨by decide, by decide, by decide⟩

/-- References of the channel or the janitor that a step drops. -/
theorem Refs.Counts.drops {r : Refs} {apps : Nat} : ∀ {n files : Nat}, r.Counts (files + n) apps →
    (r.run (List.replicate n .dropFile)).Counts files apps := by
  intro n
  induction n generalizing r with
  | zero => exact fun h => h
  | succ n ih => exact fun h => ih (r := r.dropFile) h.dropFile

section
variable {o o' : Owner} {a : OwnerAction} {call : Option Mutation}

theorem Owner.step_counted (h : o.Counted) (hs : o.step a = some (call, o')) : o'.Counted := by
  simp only [Counted] at h
  cases a with
  | move i n =>
    simp only [step] at hs
    split at hs <;> try cases hs
    next p hp =>
    split at hs <;> cases hs
    next m hm =>
    rw [filesOf_eraseIdx hp, appsOf_eraseIdx hp] at h
    have hown : o.refs.Counts (filesOf (o.parts.eraseIdx i) + o.chan.toNat + o.janitor.files + p.files)
        (appsOf (o.parts.eraseIdx i) + p.apps) := h.of_eq (by omega) rfl
    have hrun := hown.run _ (p.moves_settle m (List.mem_of_getElem? hm))
    exact hrun.of_eq (by simp only [filesOf_append]; omega) (appsOf_append ..)
  | send i =>
    simp only [step] at hs
    split at hs <;> try cases hs
    next hp =>
    rw [filesOf_eraseIdx hp, appsOf_eraseIdx hp] at h
    have hown : o.refs.Counts (filesOf (o.parts.eraseIdx i) + o.chan.toNat + o.janitor.files + 1)
        (appsOf (o.parts.eraseIdx i)) := h.of_eq (by simp only [Part.files]; omega) rfl
    have hclosing : filesOf [.token .closing] = 1 := rfl
    have happs : appsOf [.token .closing] = 0 := rfl
    split at hs
    · cases hs
      have hrun := (hown.cloneFile (by omega)).dropFile
      exact hrun.of_eq (by simp only [filesOf_append]; omega) (by simp only [appsOf_append]; omega)
    · next hc =>
      cases hs
      simp only [not_or, Bool.not_eq_true] at hc
      have hrun := hown.cloneFile (by omega)
      refine hrun.of_eq ?_ (by simp only [appsOf_append]; omega)
      simp only [filesOf_append, hc.1, Bool.toNat_false, Bool.toNat_true]
      omega
  | recv =>
    simp only [step] at hs
    split at hs <;> cases hs
    next hc =>
    simpa [Counted, hc.1, hc.2, Janitor.files] using h
  | lock =>
    simp only [step] at hs
    split at hs <;> cases hs
    next hj =>
    simpa [Counted, hj, Janitor.files] using h
  | drain =>
    simp only [step] at hs
    split at hs <;> cases hs
    next hc =>
    rw [hc.2] at h
    exact Refs.Counts.dropFile (h.of_eq (by simp only [Bool.toNat_false, Bool.toNat_true]; omega) rfl)
  | scan =>
    simp only [step] at hs
    split at hs <;> cases hs
    next hj =>
    simpa [Counted, hj, Janitor.files] using h
  | remove =>
    simp only [step] at hs
    split at hs <;> cases hs
    exact h
  | done =>
    simp only [step] at hs
    split at hs <;> cases hs
    next hj =>
    rw [hj] at h
    exact Refs.Counts.dropFile h
  | stop =>
    cases hs
    exact Refs.Counts.drops (h.of_eq (by simp only [Bool.toNat_false, Janitor.files]; omega) rfl)

/-- A store that has released its lock has nothing left that could act. -/
theorem Owner.Counted.released (h : o.Counted) (hr : o.refs.held = false) :
    o.parts = [] ∧ o.chan = false ∧ o.janitor.files = 0 := by
  have h0 : o.refs.files = 0 := by
    have := h.held_iff
    simp only [hr, Bool.false_eq_true, false_iff] at this
    omega
  have hf := h.files_eq
  rw [h0] at hf
  have hparts : o.parts = [] := by
    cases hp : o.parts with
    | nil => rfl
    | cons p ps =>
      have hpos := p.holds
      simp only [hp, filesOf, appsOf, tally_cons] at hf
      split at hf <;> omega
  refine ⟨hparts, ?_, by omega⟩
  cases hc : o.chan with
  | false => rfl
  | true =>
    simp only [hc, Bool.toNat_true] at hf
    omega

/-- A file call is made with the lock held. -/
theorem Owner.step_held {m : Mutation} (h : o.Counted) (hs : o.step a = some (some m, o')) :
    o.refs.held = true := by
  by_contra hr
  obtain ⟨hp, -, hj⟩ := h.released (by simpa using hr)
  cases a with
  | move i n => simp [step, hp] at hs
  | remove =>
    simp only [step] at hs
    split at hs <;> cases hs
    next hscan => simp [hscan, Janitor.files] at hj
  | send i => simp [step, hp] at hs
  | recv | lock | drain | scan | done =>
    simp only [step] at hs
    split at hs <;> cases hs
  | stop => cases hs

/-- A lock once released is not taken again by what is left of its store. -/
theorem Owner.step_released (h : o.Counted) (hr : o.refs.held = false) (hs : o.step a = some (call, o')) :
    o'.refs.held = false := by
  obtain ⟨hp, hc, hj⟩ := h.released hr
  cases a with
  | move i n => simp [step, hp] at hs
  | send i => simp [step, hp] at hs
  | recv => simp [step, hc] at hs
  | lock | scan | done | remove =>
    simp only [step] at hs
    split at hs <;> cases hs
    next hstage => simp [hstage, Janitor.files] at hj
  | drain => simp [step, hc] at hs
  | stop =>
    cases hs
    simpa [hj, hc, Refs.run] using hr

end

/-! ## The directory's history -/

/-- The store of an acquisition. -/
def Event.acquirer : Event → Option Nat
  | .acquired i => some i
  | .mutated _ _ => none

/-- No store that had the lock before an acquisition makes a file call after it. -/
def HandedOver (log : List Event) : Prop :=
  ∀ before j after, log = before ++ .acquired j :: after →
    ∀ i call, .acquired i ∈ before → .mutated i call ∉ after

structure Sound (d : Directory) : Prop where
  counted : ∀ o ∈ d.stores, o.Counted
  /-- Only the latest store may still have the lock. -/
  released : ∀ i o, d.stores[i]? = some o → i + 1 < d.stores.length → o.refs.held = false
  acquired : d.log.filterMap Event.acquirer = List.range d.stores.length
  handedOver : HandedOver d.log

/-- Acquisitions are in the order of the stores. -/
theorem acquired_lt {log before after : List Event} {i j n : Nat}
    (ha : log.filterMap Event.acquirer = List.range n) (hlog : log = before ++ .acquired j :: after)
    (hi : .acquired i ∈ before) : i < j ∧ j < n := by
  rw [hlog, List.filterMap_append] at ha
  have hsorted := ha ▸ List.pairwise_lt_range (n := n)
  have hj : j ∈ (Event.acquired j :: after).filterMap Event.acquirer :=
    List.mem_filterMap.2 ⟨.acquired j, List.mem_cons_self .., rfl⟩
  refine ⟨(List.pairwise_append.1 hsorted).2.2 i (List.mem_filterMap.2 ⟨.acquired i, hi, rfl⟩) j hj, ?_⟩
  exact List.mem_range.1 (ha ▸ List.mem_append_right _ hj)

/-- One more event at the end of the log. -/
theorem HandedOver.concat {log : List Event} {e : Event} (h : HandedOver log)
    (he : ∀ before j after i call, log = before ++ .acquired j :: after → .acquired i ∈ before → e ≠ .mutated i call) :
    HandedOver (log ++ [e]) := by
  intro before j after hlog i call hi hm
  rcases List.eq_nil_or_concat after with rfl | ⟨after', e', rfl⟩
  · cases hm
  · rw [List.concat_eq_append, ← List.cons_append, ← List.append_assoc] at hlog
    obtain ⟨hold, hlast⟩ := List.append_inj' hlog rfl
    cases hlast
    rw [List.concat_eq_append, List.mem_append, List.mem_singleton] at hm
    rcases hm with hm | hm
    · exact h _ _ _ hold _ _ hi hm
    · exact he _ _ _ _ _ hold hi hm.symm

theorem Sound.able {d : Directory} (h : Sound d) {i : Nat} (ha : d.Able i) : i + 1 = d.stores.length := by
  obtain ⟨o, a, call, o', hi, hs⟩ := ha
  have hlt := (List.getElem?_eq_some_iff.1 hi).1
  by_contra hne
  have hheld := Owner.step_held (h.counted o (List.mem_of_getElem? hi)) hs
  rw [h.released i o hi (by omega)] at hheld
  cases hheld

theorem step_sound {d d' : Directory} {a : Action} (h : Sound d) (hs : step a d = some d') : Sound d' := by
  cases a with
  | acquire =>
    simp only [step] at hs
    split at hs <;> cases hs
    next hfree =>
    simp only [List.all_eq_true, Bool.not_eq_true'] at hfree
    refine ⟨?_, ?_, ?_, h.handedOver.concat fun _ _ _ _ _ _ _ he => by cases he⟩
    · intro o ho
      rcases List.mem_append.1 ho with ho | ho
      · exact h.counted o ho
      · obtain rfl := List.mem_singleton.1 ho
        exact Owner.opened_counted
    · intro i o hi hlt
      simp only [List.length_append, List.length_singleton] at hlt
      rw [List.getElem?_append_left (by omega)] at hi
      exact hfree o (List.mem_of_getElem? hi)
    · rw [List.filterMap_append, h.acquired, List.length_append, List.length_singleton, List.range_succ]
      rfl
  | act i a =>
    simp only [step] at hs
    split at hs <;> try cases hs
    next o hi =>
    split at hs <;> cases hs
    next call o' hstep =>
    have ho := h.counted o (List.mem_of_getElem? hi)
    refine ⟨?_, ?_, ?_, ?_⟩
    · intro p hp
      rcases List.mem_or_eq_of_mem_set hp with hp | rfl
      · exact h.counted p hp
      · exact Owner.step_counted ho hstep
    · intro k p hk hlt
      rw [List.length_set] at hlt
      rw [List.getElem?_set] at hk
      split at hk
      · next hik =>
        subst hik
        split at hk <;> cases hk
        exact Owner.step_released ho (h.released i o hi hlt) hstep
      · exact h.released k p hk hlt
    · rw [List.filterMap_append, h.acquired, List.length_set]
      cases call with
      | none => simp
      | some m => simp [Event.acquirer]
    · cases call with
      | none => simpa using h.handedOver
      | some m =>
        have hlast := h.able ⟨o, a, m, o', hi, hstep⟩
        refine h.handedOver.concat fun before j after k c hlog hk he => ?_
        cases he
        have := acquired_lt h.acquired hlog hk
        omega

theorem init_sound {d : Directory} (h : Init d) : Sound d := by
  obtain ⟨hstores, hlog⟩ := h
  refine ⟨by simp [hstores], by simp [hstores], by simp [hstores, hlog], ?_⟩
  intro before j after he
  simp [hlog] at he

/-- **The hand-over of a cache directory.** In every interleaving of the
stores that open one directory and of everything they leave behind, no store
makes a file call there after another one's lock acquisition, no two stores
can make one at the same time, and a store whose lock is released has nothing
left that could. -/
theorem directory_handed_over {d : Directory} (h : Run step Any Init d) :
    (∀ before j after, d.log = before ++ .acquired j :: after →
      ∀ i call, .acquired i ∈ before → .mutated i call ∉ after) ∧
    (∀ i j, d.Able i → d.Able j → i = j) ∧
    (∀ (i : Nat) (o : Owner), d.stores[i]? = some o → o.refs.held = false →
      o.parts = [] ∧ o.chan = false ∧ o.janitor.files = 0) := by
  have hd := h.invariant Sound (fun _ => init_sound) fun _ _ _ hi _ hs => step_sound hi hs
  refine ⟨hd.handedOver, fun i j hi hj => ?_, fun i o hi => (hd.counted o (List.mem_of_getElem? hi)).released⟩
  have := hd.able hi
  have := hd.able hj
  omega

/-- A request is cancelled in its metadata write, the store goes with it, the
temp file's removal is still to run. -/
def cancelled : List Action :=
  [.acquire, .act 0 (.move 0 1), .act 0 (.move 0 1), .act 0 (.move 0 4), .act 0 (.move 0 0), .act 0 (.move 0 0),
    .act 0 (.move 0 3)]

/-- Until it has run, nobody else gets the lock. -/
example : (exec step (cancelled ++ [.acquire]) ⟨[], []⟩).isNone = true := by decide

theorem directory_handed_over_cancelled : ∃ d : Directory,
    exec step (cancelled ++ [.act 0 (.move 0 0), .act 0 (.move 0 0), .acquire]) ⟨[], []⟩ = some d ∧
      d.log = [.acquired 0, .mutated 0 .createDir, .mutated 0 .create, .mutated 0 .remove, .acquired 1] ∧
      (∀ i j, d.Able i → d.Able j → i = j) := by
  have hrun : (exec step (cancelled ++ [.act 0 (.move 0 0), .act 0 (.move 0 0), .acquire]) ⟨[], []⟩).any
      (fun d => d.log =
        [.acquired 0, .mutated 0 .createDir, .mutated 0 .create, .mutated 0 .remove, .acquired 1]) = true := by decide
  obtain ⟨d, hd, hlog⟩ := (Option.any_eq_true _ _).1 hrun
  exact ⟨d, hd, of_decide_eq_true hlog, (directory_handed_over (Run.exec (.start ⟨rfl, rfl⟩) hd)).2.1⟩

end Vampire.Handover
