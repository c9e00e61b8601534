/-
Admission of upstream work (`lookup_or_start_artifact`,
`lookup_or_start_metadata`, `try_acquire_upstream_permit`; the handlers of
artifact GETs and HEADs, metadata GETs and HEADs, npm searches and audits).

One semaphore serves all six. A request is refused where it finds no permit
(`WouldBlock`), and otherwise keeps the permit until its task is over: in the
`ArtifactLeader` and `MetadataLeader`, and in a local of the other handlers.
A lookup tries for a permit only after it has found its key in no flight and
in no entry; an artifact HEAD asks the disk but not the inflight map.

An upstream exchange is in progress from the sending of a request to the
drop of its response.
-/
import Mathlib
import Vampire.Lib.Runs
import Vampire.Lib.Tally
import Vampire.Codec
import Vampire.Publish

namespace Vampire.Admission

open Lib
open Store (unitSerde)

/-- What a task is for. `fetch` is the task that `spawn_artifact_fetch` spawns. -/
inductive Work (Key : Type)
  | artifactGet (key : Key)
  | artifactHead (key : Key)
  /-- `handle_metadata`, of a GET or a HEAD. -/
  | metadata (key : Key)
  | search
  | audit
  | fetch (key : Key)
  deriving DecidableEq

inductive Pc (Meta : Type)
  /-- The first look at the inflight map. -/
  | check
  | load
  /-- `create_dir_all` -/
  | dir
  /-- The second look, the permit and the registration, under the map's lock. -/
  | register
  /-- `try_acquire_upstream_permit` by itself. -/
  | acquire
  /-- Waiting for a flight's outcome, and serving it. -/
  | joined (flight : Nat)
  | hit (entry : StoredEntry Meta)
  /-- `WouldBlock` -/
  | refused
  /-- Any other error. -/
  | failed
  /-- The permit is taken, nothing is sent. -/
  | admitted
  /-- The response is there, or awaited. -/
  | exchanging
  /-- The response is dropped; the flight's outcome, its removal from the map. -/
  | finishing
  /-- The last locals are dropped, the permit with them. -/
  | closing
  /-- The task that a cancelled leader's guard spawned. -/
  | cleanup
  deriving DecidableEq

structure Task (Key Meta : Type) where
  work : Work Key
  pc : Pc Meta
  deriving DecidableEq

/-- The upstream permits the task holds. -/
def Task.permits {Key Meta : Type} (t : Task Key Meta) : Nat :=
  match t.pc with
  | .admitted | .exchanging | .finishing | .closing => 1
  | _ => 0

/-- The upstream exchanges the task has in progress. -/
def Task.exchanges {Key Meta : Type} (t : Task Key Meta) : Nat :=
  match t.pc with
  | .exchanging => 1
  | _ => 0

/-- The task is looking its key up: it has no permit yet. -/
def Task.looking {Key Meta : Type} (t : Task Key Meta) : Bool :=
  match t.pc with
  | .check | .load | .dir | .register | .acquire => true
  | _ => false

/-- Where the request of a handler begins. -/
def Work.start {Key Meta : Type} : Work Key → Pc Meta
  | .artifactGet _ => .check
  | .artifactHead _ => .load
  | .metadata _ => .register
  | .search | .audit => .acquire
  | .fetch _ => .admitted

structure State (Key Meta : Type) where
  /-- Permits of `upstream_semaphore`. -/
  available : Nat
  next : Nat
  inflight : Key → Option Nat
  pins : Key → Option Nat
  /-- The files at `<key>`. -/
  entries : Key → Option Bytes
  tasks : List (Task Key Meta)

inductive Action (Key : Type)
  | start (work : Work Key)
  /-- The task's next step; `faults` are for a load. -/
  | run (i : Nat) (faults : Faults)
  /-- The task's next step returns an error. -/
  | fail (i : Nat)
  /-- `commit_artifact` or `store_metadata` makes an entry visible. -/
  | publish (i : Nat) (content : Bytes) (pin : Nat)
  | cancel (i : Nat)
  /-- What pins and entries become in other hands: the janitor's, a dropped token's. -/
  | others (pins : Key → Option Nat) (entries : Key → Option Bytes)

section
variable {Key Meta : Type} [DecidableEq Key] (serde : Serde Meta)

/-- Task `i` goes on as `tasks`. -/
def State.replace (s : State Key Meta) (i : Nat) (tasks : List (Task Key Meta)) : State Key Meta :=
  { s with tasks := s.tasks.eraseIdx i ++ tasks }

/-- `try_acquire_upstream_permit`, and what the task is then. -/
def State.acquire (s : State Key Meta) (i : Nat) (work : Work Key) : State Key Meta :=
  if s.available = 0 then s.replace i [⟨work, .refused⟩]
  else { s with available := s.available - 1 }.replace i [⟨work, .admitted⟩]

/-- The registration of a new flight, once the permit is there. -/
def State.lead (s : State Key Meta) (key : Key) : State Key Meta :=
  { s with
    available := s.available - 1
    next := s.next + 1
    inflight := Function.update s.inflight key (some s.next) }

def State.runTask (s : State Key Meta) (i : Nat) (t : Task Key Meta) (faults : Faults) : Option (State Key Meta) :=
  match t.pc, t.work with
  | .check, .artifactGet key =>
    match s.inflight key with
    | some f => some (s.replace i [{ t with pc := .joined f }])
    | none => some (s.replace i [{ t with pc := .load }])
  | .load, .artifactGet key =>
    match load serde faults (s.entries key) with
    | .ok (some entry) => some (s.replace i [{ t with pc := .hit entry }])
    | .ok none => some (s.replace i [{ t with pc := .dir }])
    | .error _ => some (s.replace i [{ t with pc := .failed }])
  | .dir, .artifactGet _ => some (s.replace i [{ t with pc := .register }])
  | .register, .artifactGet key =>
    match s.inflight key with
    | some f => some (s.replace i [{ t with pc := .joined f }])
    | none =>
      if s.available = 0 then some (s.replace i [{ t with pc := .refused }])
      -- and `spawn_artifact_fetch`
      else some ((s.lead key).replace i [{ t with pc := .joined s.next }, ⟨.fetch key, .admitted⟩])
  | .register, .metadata key =>
    match s.inflight key with
    | some f => some (s.replace i [{ t with pc := .joined f }])
    | none =>
      if s.available = 0 then some (s.replace i [{ t with pc := .refused }])
      else some ((s.lead key).replace i [{ t with pc := .admitted }])
  | .load, .artifactHead key =>
    match load serde faults (s.entries key) with
    | .ok (some entry) => some (s.replace i [{ t with pc := .hit entry }])
    | .ok none => some (s.acquire i t.work)
    | .error _ => some (s.replace i [{ t with pc := .failed }])
  | .acquire, .search | .acquire, .audit => some (s.acquire i t.work)
  | .admitted, _ => some (s.replace i [{ t with pc := .exchanging }])
  | .exchanging, .fetch _ | .exchanging, .metadata _ => some (s.replace i [{ t with pc := .finishing }])
  | .exchanging, _ => some (s.replace i [{ t with pc := .closing }])
  -- `finish_inflight`
  | .finishing, .fetch key | .finishing, .metadata key =>
    some ({ s with inflight := Function.update s.inflight key none }.replace i [{ t with pc := .closing }])
  | .closing, _ => some ({ s with available := s.available + 1 }.replace i [])
  | .cleanup, .fetch key | .cleanup, .metadata key =>
    some ({ s with inflight := Function.update s.inflight key none }.replace i [])
  | .joined _, _ | .hit _, _ | .refused, _ | .failed, _ => some (s.replace i [])
  | _, _ => none

/-- An error at an await other than a load: `create_dir_all`, a leader's
load, an audit's request body, the exchange. -/
def State.failTask (s : State Key Meta) (i : Nat) (t : Task Key Meta) : Option (State Key Meta) :=
  match t.pc, t.work with
  | .dir, .artifactGet _ => some (s.replace i [{ t with pc := .failed }])
  | .admitted, .metadata _ | .exchanging, .metadata _ | .exchanging, .fetch _ =>
    some (s.replace i [{ t with pc := .finishing }])
  | .admitted, .audit | .exchanging, .audit | .exchanging, .search | .exchanging, .artifactHead _ =>
    some (s.replace i [{ t with pc := .closing }])
  | _, _ => none

/-- The task is dropped at an await. The locals go in reverse order, the
exchange before the permit; the guard of a leader that has begun to run
spawns a cleanup. -/
def State.cancelTask (s : State Key Meta) (i : Nat) (t : Task Key Meta) : Option (State Key Meta) :=
  match t.pc, t.work with
  | .closing, _ => none
  | .admitted, .metadata _ | .exchanging, .metadata _ | .finishing, .metadata _
  | .exchanging, .fetch _ | .finishing, .fetch _ =>
    some (s.replace i [{ t with pc := .closing }, { t with pc := .cleanup }])
  | .admitted, _ | .exchanging, _ | .finishing, _ => some (s.replace i [{ t with pc := .closing }])
  | _, _ => some (s.replace i [])

def step : Action Key → State Key Meta → Option (State Key Meta)
  | .start work, s =>
    match work with
    | .fetch _ => none
    | work => some { s with tasks := s.tasks ++ [⟨work, work.start⟩] }
  | .run i faults, s =>
    match s.tasks[i]? with
    | some t => s.runTask serde i t faults
    | none => none
  | .fail i, s =>
    match s.tasks[i]? with
    | some t => s.failTask i t
    | none => none
  | .publish i content pin, s =>
    match s.tasks[i]? with
    | some ⟨.fetch key, .exchanging⟩ =>
      some { s with
        pins := Function.update s.pins key (some pin)
        entries := Function.update s.entries key (some content) }
    | some ⟨.metadata key, .exchanging⟩ => some { s with entries := Function.update s.entries key (some content) }
    | _ => none
  | .cancel i, s =>
    match s.tasks[i]? with
    | some t => s.cancelTask i t
    | none => none
  | .others pins entries, s => some { s with pins, entries }

/-- `CacheStore::new`, over any directory. -/
def Init (maxUpstreamFetches : Nat) (s : State Key Meta) : Prop :=
  s.available = maxUpstreamFetches ∧ (∀ key, s.inflight key = none) ∧ (∀ key, s.pins key = none) ∧ s.tasks = []

/-! ## What is asked of admission -/

omit [DecidableEq Key] in
def State.held (s : State Key Meta) : Nat := tally Task.permits s.tasks

omit [DecidableEq Key] in
def State.exchanges (s : State Key Meta) : Nat := tally Task.exchanges s.tasks

omit [DecidableEq Key] in
/-- Permits are never lost, and every exchange is under one. -/
structure Conserved (maxUpstreamFetches : Nat) (s : State Key Meta) : Prop where
  total : s.held + s.available = maxUpstreamFetches
  exchanges : s.exchanges ≤ maxUpstreamFetches
  idle : (∀ t ∈ s.tasks, t.permits = 0) → s.available = maxUpstreamFetches

omit [DecidableEq Key] in
/-- The task of a request that joins flights of its key, where it looks for one. -/
def Task.joins (t : Task Key Meta) (key : Key) : Prop :=
  t = ⟨.artifactGet key, .check⟩ ∨ t = ⟨.artifactGet key, .register⟩ ∨ t = ⟨.metadata key, .register⟩

omit [DecidableEq Key] in
/-- The task of a request that serves its key's entry, where it looks for one. -/
def Task.loads (t : Task Key Meta) (key : Key) : Prop :=
  t = ⟨.artifactGet key, .load⟩ ∨ t = ⟨.artifactHead key, .load⟩

omit [DecidableEq Key] in
/-- What a lookup may not change. -/
def SameCache (s s' : State Key Meta) : Prop :=
  s'.inflight = s.inflight ∧ s'.pins = s.pins ∧ s'.entries = s.entries

/-- The lookup of a key with no flight takes a permit and registers one. -/
def Leads (s s' : State Key Meta) : Prop :=
  ∃ key, s.inflight key = none ∧ 0 < s.available ∧ s'.available + 1 = s.available ∧
    s'.inflight = Function.update s.inflight key (some s.next) ∧ s'.pins = s.pins ∧ s'.entries = s.entries

/-- What lookups do, however many permits are left. -/
structure Lookups (s : State Key Meta) : Prop where
  /-- A request for a key in the inflight map joins. -/
  join : ∀ {i t key f}, s.tasks[i]? = some t → t.joins key → s.inflight key = some f → ∀ faults,
    step serde (.run i faults) s = some (s.replace i [{ t with pc := .joined f }])
  /-- A valid cached artifact is served. -/
  hit : ∀ {i t key content body info}, s.tasks[i]? = some t → t.loads key → s.entries key = some content →
    Packed serde content body info → ∃ entry, entry.info = info ∧ entry.readBody = .ok body ∧
      step serde (.run i noFaults) s = some (s.replace i [{ t with pc := .hit entry }])
  /-- The steps of a lookup change nothing before it leads. -/
  frame : ∀ {i t a s'}, s.tasks[i]? = some t → t.looking → (a = .fail i ∨ a = .cancel i ∨ ∃ faults, a = .run i faults) →
    step serde a s = some s' → SameCache s s' ∨ Leads s s'
  /-- `WouldBlock` is for want of a permit, and changes nothing. -/
  refused : ∀ {i t faults s' work}, s.tasks[i]? = some t → t.looking → step serde (.run i faults) s = some s' →
    s'.tasks = s.tasks.eraseIdx i ++ [⟨work, .refused⟩] →
      s.available = 0 ∧ s'.available = 0 ∧ SameCache s s'

end

/-! ## The books of a step -/

section
variable {Key Meta : Type} [DecidableEq Key] {serde : Serde Meta} {s s' : State Key Meta} {i : Nat} {t : Task Key Meta}

omit [DecidableEq Key] in
/-- The task gives way to others that hold as many permits together with the semaphore. -/
theorem replace_total {available next : Nat} {inflight pins entries} (ht : s.tasks[i]? = some t)
    {tasks : List (Task Key Meta)} (hb : available + tally Task.permits tasks = s.available + t.permits) :
    (State.replace { s with available, next, inflight, pins, entries } i tasks).held + available =
      s.held + s.available := by
  have := tally_eraseIdx (w := Task.permits) ht
  simp only [State.held, State.replace, tally_append]
  omega

omit [DecidableEq Key] in
theorem acquire_total {work : Work Key} (ht : s.tasks[i]? = some t) (hp : t.permits = 0) :
    (s.acquire i work).held + (s.acquire i work).available = s.held + s.available := by
  unfold State.acquire
  split
  · exact replace_total ht (by rw [hp]; rfl)
  · exact replace_total ht (by rw [hp]; show s.available - 1 + 1 = s.available; omega)

theorem runTask_total {faults : Faults} (ht : s.tasks[i]? = some t) (h : s.runTask serde i t faults = some s') :
    s'.held + s'.available = s.held + s.available := by
  obtain ⟨work, pc⟩ := t
  have same {pc' : Pc Meta} (hp : Task.permits ⟨work, pc'⟩ = Task.permits ⟨work, pc⟩) :
      (s.replace i [⟨work, pc'⟩]).held + s.available = s.held + s.available :=
    replace_total ht (by rw [← hp]; rfl)
  cases pc with
  | check =>
    cases work <;> simp only [State.runTask, reduceCtorEq] at h
    split at h <;> cases h <;> exact same rfl
  | load =>
    cases work <;> simp only [State.runTask, reduceCtorEq] at h
    all_goals split at h <;> cases h
    all_goals first | exact same rfl | exact acquire_total ht rfl
  | dir =>
    cases work <;> simp only [State.runTask, reduceCtorEq] at h
    cases h
    exact same rfl
  | register =>
    cases work <;> simp only [State.runTask, reduceCtorEq] at h
    all_goals split at h
    all_goals try split at h
    all_goals cases h
    all_goals first | exact same rfl | exact replace_total ht (by show s.available - 1 + 1 = s.available; omega)
  | acquire =>
    cases work <;> simp only [State.runTask, reduceCtorEq] at h
    all_goals cases h; exact acquire_total ht rfl
  | joined | hit | refused | failed =>
    cases h
    exact replace_total ht rfl
  | admitted =>
    cases h
    exact same rfl
  | exchanging =>
    cases work <;> cases h <;> exact same rfl
  | finishing =>
    cases work <;> simp only [State.runTask, reduceCtorEq] at h
    all_goals cases h; exact replace_total ht rfl
  | closing =>
    cases h
    exact replace_total ht rfl
  | cleanup =>
    cases work <;> simp only [State.runTask, reduceCtorEq] at h
    all_goals cases h; exact replace_total ht rfl

omit [DecidableEq Key] in
theorem failTask_total (ht : s.tasks[i]? = some t) (h : s.failTask i t = some s') :
    s'.held + s'.available = s.held + s.available := by
  obtain ⟨work, pc⟩ := t
  simp only [State.failTask] at h
  split at h <;> cases h <;> exact replace_total ht rfl

omit [DecidableEq Key] in
theorem cancelTask_total (ht : s.tasks[i]? = some t) (h : s.cancelTask i t = some s') :
    s'.held + s'.available = s.held + s.available := by
  obtain ⟨work, pc⟩ := t
  cases pc with
  | closing => cases h
  | admitted | exchanging | finishing => cases work <;> cases h <;> exact replace_total ht rfl
  | check | load | dir | register | acquire | joined | hit | refused | failed | cleanup =>
    cases work <;> cases h <;> exact replace_total ht rfl

theorem step_total {a : Action Key} (h : step serde a s = some s') :
    s'.held + s'.available = s.held + s.available := by
  cases a with
  | start work =>
    cases work <;> cases h <;> simp [State.held, Task.permits, Work.start]
  | run i faults =>
    simp only [step] at h
    split at h <;> try cases h
    next ht => exact runTask_total ht h
  | fail i =>
    simp only [step] at h
    split at h <;> try cases h
    next ht => exact failTask_total ht h
  | publish i content pin =>
    simp only [step] at h
    split at h <;> cases h <;> rfl
  | cancel i =>
    simp only [step] at h
    split at h <;> try cases h
    next ht => exact cancelTask_total ht h
  | others pins entries =>
    cases h
    rfl

omit [DecidableEq Key] in
theorem Task.exchanges_le (t : Task Key Meta) : t.exchanges ≤ t.permits := by
  obtain ⟨work, pc⟩ := t
  cases pc <;> simp [Task.exchanges, Task.permits]

/-! ## What a lookup does -/

theorem runTask_join {faults : Faults} {key : Key} {f : Nat} (hj : t.joins key) (hf : s.inflight key = some f) :
    s.runTask serde i t faults = some (s.replace i [{ t with pc := .joined f }]) := by
  rcases hj with rfl | rfl | rfl <;> simp only [State.runTask, hf]

theorem runTask_hit {key : Key} {content body : Bytes} {info : Meta} (hl : t.loads key)
    (he : s.entries key = some content) (hp : Packed serde content body info) :
    ∃ entry, entry.info = info ∧ entry.readBody = .ok body ∧
      s.runTask serde i t noFaults = some (s.replace i [{ t with pc := .hit entry }]) := by
  obtain ⟨entry, hload, hinfo, -, hbody⟩ := hp.load
  refine ⟨entry, hinfo, hbody, ?_⟩
  rcases hl with rfl | rfl <;> simp only [State.runTask, he, hload]

omit [DecidableEq Key] in
/-- A refusal is the end of a step for which there was no permit. -/
def RefusedFair (s s' : State Key Meta) (i : Nat) : Prop :=
  ∀ work, s'.tasks = s.tasks.eraseIdx i ++ [⟨work, .refused⟩] → s.available = 0 ∧ s'.available = 0 ∧ SameCache s s'

theorem replace_frame {pc : Pc Meta} {work : Work Key} (h : pc = .refused → s.available = 0) :
    (SameCache s (s.replace i [⟨work, pc⟩]) ∨ Leads s (s.replace i [⟨work, pc⟩])) ∧
      RefusedFair s (s.replace i [⟨work, pc⟩]) i := by
  refine ⟨.inl ⟨rfl, rfl, rfl⟩, fun work' he => ?_⟩
  simp only [State.replace, List.append_cancel_left_eq, List.cons.injEq, Task.mk.injEq, and_true] at he
  exact ⟨h he.2, h he.2, rfl, rfl, rfl⟩

theorem acquire_frame {work : Work Key} :
    (SameCache s (s.acquire i work) ∨ Leads s (s.acquire i work)) ∧ RefusedFair s (s.acquire i work) i := by
  unfold State.acquire
  split
  · next h0 => exact replace_frame fun _ => h0
  · exact ⟨.inl ⟨rfl, rfl, rfl⟩, fun work' he => by simp [State.replace] at he⟩

/-- The second look under the lock: it joins, is refused, or leads. -/
theorem lead_frame {key : Key} {tasks : List (Task Key Meta)} (hf : s.inflight key = none) (h0 : s.available ≠ 0)
    (hne : ∀ work, tasks ≠ [⟨work, .refused⟩]) :
    (SameCache s ((s.lead key).replace i tasks) ∨ Leads s ((s.lead key).replace i tasks)) ∧
      RefusedFair s ((s.lead key).replace i tasks) i := by
  refine ⟨.inr ⟨key, hf, by omega, ?_, rfl, rfl, rfl⟩, fun work he => absurd (List.append_cancel_left he) (hne work)⟩
  show s.available - 1 + 1 = s.available
  omega

/-- A step of a lookup. -/
theorem runTask_frame {faults : Faults} (hl : t.looking) (h : s.runTask serde i t faults = some s') :
    (SameCache s s' ∨ Leads s s') ∧ RefusedFair s s' i := by
  obtain ⟨work, pc⟩ := t
  cases pc with
  | check =>
    cases work <;> simp only [State.runTask, reduceCtorEq] at h
    split at h <;> cases h <;> exact replace_frame fun he => by cases he
  | load =>
    cases work <;> simp only [State.runTask, reduceCtorEq] at h
    all_goals split at h <;> cases h
    all_goals first | exact acquire_frame | exact replace_frame fun he => by cases he
  | dir =>
    cases work <;> simp only [State.runTask, reduceCtorEq] at h
    cases h
    exact replace_frame fun he => by cases he
  | register =>
    cases work <;> simp only [State.runTask, reduceCtorEq] at h
    all_goals split at h
    · cases h; exact replace_frame fun he => by cases he
    · next hf =>
      split at h <;> cases h
      · next h0 => exact replace_frame fun _ => h0
      · next h0 => exact lead_frame hf h0 (by simp)
    · cases h; exact replace_frame fun he => by cases he
    · next hf =>
      split at h <;> cases h
      · next h0 => exact replace_frame fun _ => h0
      · next h0 => exact lead_frame hf h0 (by simp)
  | acquire =>
    cases work <;> simp only [State.runTask, reduceCtorEq] at h
    all_goals cases h; exact acquire_frame
  | joined | hit | refused | failed | admitted | exchanging | finishing | closing | cleanup => cases hl

theorem lookups (s : State Key Meta) : Lookups serde s where
  join ht hj hf faults := by
    simp only [step, ht]
    exact runTask_join hj hf
  hit ht hl he hp := by
    simp only [step, ht]
    exact runTask_hit hl he hp
  frame ht hl ha h := by
    rcases ha with rfl | rfl | ⟨faults, rfl⟩
    · simp only [step, ht, State.failTask] at h
      split at h <;> cases h
      all_goals exact .inl ⟨rfl, rfl, rfl⟩
    · simp only [step, ht, State.cancelTask] at h
      split at h <;> cases h
      all_goals exact .inl ⟨rfl, rfl, rfl⟩
    · simp only [step, ht] at h
      exact (runTask_frame hl h).1
  refused ht hl h hr := by
    simp only [step, ht] at h
    exact (runTask_frame hl h).2 _ hr

/-- **Admission.** In every interleaving of the six kinds of requests, with
failures and cancellations anywhere, held and available permits are
`maxUpstreamFetches` together and no more exchanges than that are in progress.
Whatever permits are left, a request for a key in the inflight map joins, a
valid cached artifact is served, and a lookup that is refused has changed
neither the map nor the pins nor the entries. -/
theorem admission {maxUpstreamFetches : Nat} (h : Run (step serde) Any (Init maxUpstreamFetches) s) :
    Conserved maxUpstreamFetches s ∧ Lookups serde s := by
  have htotal : s.held + s.available = maxUpstreamFetches := by
    refine h.invariant (fun s => s.held + s.available = maxUpstreamFetches) ?_ fun _ _ _ hi _ hs => (step_total hs).trans hi
    intro s h0
    simp [State.held, h0.1, h0.2.2.2]
  have hle : s.exchanges ≤ s.held := tally_le Task.exchanges_le s.tasks
  refine ⟨⟨htotal, by omega, fun hidle => ?_⟩, lookups s⟩
  have hnone : s.held = 0 := tally_eq_zero hidle
  omega

end

/-- An empty cache with one permit. -/
def single : State Nat Unit :=
  { available := 1
    next := 0
    inflight := fun _ => none
    pins := fun _ => none
    entries := fun _ => none
    tasks := [] }

theorem init_single : Init 1 single := ⟨rfl, fun _ => rfl, fun _ => rfl, rfl⟩

/-- A GET of key 7 leads; its fetch holds the permit. -/
def leading : List (Action Nat) :=
  [.start (.artifactGet 7), .run 0 noFaults, .run 0 noFaults, .run 0 noFaults, .run 0 noFaults]

/-- The fetch is cancelled in its exchange, and its cleanup runs. -/
theorem admission_cancelled : ∃ s : State Nat Unit,
    exec (step unitSerde) (leading ++ [.run 1 noFaults, .cancel 1, .run 1 noFaults, .run 1 noFaults]) single = some s ∧
      s.available = 1 ∧ s.inflight 7 = none ∧ Conserved 1 s := by
  have hrun : (exec (step unitSerde)
      (leading ++ [.run 1 noFaults, .cancel 1, .run 1 noFaults, .run 1 noFaults]) single).any
        (fun s => s.available = 1 ∧ s.inflight 7 = none) = true := by decide
  obtain ⟨s, hs, hp⟩ := (Option.any_eq_true _ _).1 hrun
  obtain ⟨ha, hi⟩ := of_decide_eq_true hp
  exact ⟨s, hs, ha, hi, (admission (Run.exec (.start init_single) hs)).1⟩

/-- An artifact HEAD of key 7 meets the flight of the GET, and does not join it: it is refused. -/
theorem head_does_not_join : ∃ s s' : State Nat Unit, Run (step unitSerde) Any (Init 1) s ∧
    s.tasks[2]? = some ⟨.artifactHead 7, .load⟩ ∧ s.inflight 7 = some 0 ∧
      step unitSerde (.run 2 noFaults) s = some s' ∧ s'.tasks[2]? = some ⟨.artifactHead 7, .refused⟩ := by
  have hrun : (exec (step unitSerde) (leading ++ [.start (.artifactHead 7)]) single).any
      (fun s => s.tasks[2]? = some ⟨.artifactHead 7, .load⟩ ∧ s.inflight 7 = some 0 ∧
        (step unitSerde (.run 2 noFaults) s).any
          (fun s' => s'.tasks[2]? = some ⟨.artifactHead 7, .refused⟩) = true) = true := by decide
  obtain ⟨s, hs, hp⟩ := (Option.any_eq_true _ _).1 hrun
  obtain ⟨ht, hi, hstep⟩ := of_decide_eq_true hp
  obtain ⟨s', hs', hp'⟩ := (Option.any_eq_true _ _).1 hstep
  exact ⟨s, s', Run.exec (.start init_single) hs, ht, hi, hs', of_decide_eq_true hp'⟩

/-- A GET of key 7 that has missed, on the disk too; another's fetch stores the entry meanwhile, and a search
takes the permit. -/
def overtaken : List (Action Nat) :=
  [.start (.artifactGet 7), .run 0 noFaults, .run 0 noFaults,
    .start (.artifactGet 7), .run 1 noFaults, .run 1 noFaults, .run 1 noFaults, .run 1 noFaults,
    .run 2 noFaults, .publish 2 (pack unitSerde [9, 9] ()) 0, .run 2 noFaults, .run 2 noFaults, .run 2 noFaults,
    .start .search, .run 2 noFaults, .run 0 noFaults]

/-- An entry that comes between a GET's load and its second look at the map is not found: the GET is refused. -/
theorem entry_after_load_refused : ∃ s s' : State Nat Unit, Run (step unitSerde) Any (Init 1) s ∧
    s.tasks[2]? = some ⟨.artifactGet 7, .register⟩ ∧ s.entries 7 = some (pack unitSerde [9, 9] ()) ∧
      step unitSerde (.run 2 noFaults) s = some s' ∧ s'.tasks[2]? = some ⟨.artifactGet 7, .refused⟩ := by
  have hrun : (exec (step unitSerde) overtaken single).any
      (fun s => s.tasks[2]? = some ⟨.artifactGet 7, .register⟩ ∧ s.entries 7 = some (pack unitSerde [9, 9] ()) ∧
        (step unitSerde (.run 2 noFaults) s).any
          (fun s' => s'.tasks[2]? = some ⟨.artifactGet 7, .refused⟩) = true) = true := by decide
  obtain ⟨s, hs, hp⟩ := (Option.any_eq_true _ _).1 hrun
  obtain ⟨ht, he, hstep⟩ := of_decide_eq_true hp
  obtain ⟨s', hs', hp'⟩ := (Option.any_eq_true _ _).1 hstep
  exact ⟨s, s', Run.exec (.start init_single) hs, ht, he, hs', of_decide_eq_true hp'⟩

end Vampire.Admission
