/-
Single flight: the inflight map, the requests that look up in it, the
leaders that fetch, and the cleanup tasks that take over from a leader that
is dropped (`lookup_or_start_artifact`, `lookup_or_start_metadata`,
`Inflight`, `handle_artifact`, `handle_metadata`, `run_artifact_fetch`,
`run_metadata_fetch` and their drop guards).

A task stands at one of its awaits between two steps, and may be dropped
there. An artifact's leader is a task of its own. A metadata leader runs in
the handler of the request that registered it, its host, and is dropped with
it. A drop leaves one cleanup task behind.

What upstream answers is a parameter, `up`: what the fetch made under each
flight comes to, the errors of its file calls included. A cache entry is its
metadata and body, and the state of its last bytes (`Vampire.Publish` has
the bytes). A permit may be refused at any time (`Vampire.Gate` counts them,
and has artifact HEAD requests); redirects and a metadata leader's own cache
entry are left out, and so is a file call that outlives a caller dropped while
it waits for it (`Vampire.Leftover` has those).
-/
import Vampire.Entry
import Vampire.Lib.Runs

namespace Vampire

/-- `hash_key`'s first argument: what an inflight map key is for. -/
inductive Class
  | artifact | metadata
  deriving DecidableEq

structure Slot (Key : Type) where
  cls : Class
  key : Key
  deriving DecidableEq

inductive Method
  | get | head
  deriving DecidableEq

/-- What a fetch comes to: 200 or any metadata answer, an artifact's other
status, an error. -/
inductive Fetched (Meta : Type)
  | ok (info : Meta) (body : Bytes)
  | nonOk (info : Meta) (body : Bytes)
  | failed (kind : ErrorKind) (message : String)
  deriving DecidableEq

/-- `InflightOutcome`; the publication token is `Vampire.Store`'s. -/
inductive Outcome (Meta : Type)
  | cached
  | response (info : Meta) (body : Bytes)
  | failed (kind : ErrorKind) (message : String)
  deriving DecidableEq

/-- What the client gets: status, headers and body of an entry, or an error text; no body on HEAD. -/
inductive Reply (Meta : Type)
  | entry (info : Meta) (body : Option Bytes)
  | text (status : Nat) (message : Option String)
  deriving DecidableEq

/-- `error_status` -/
def errorStatus (kind : ErrorKind) : Nat := if kind = .wouldBlock then 503 else 502

/-- What a leader that runs to its end settles with (`run_artifact_fetch`, `run_metadata_fetch`). -/
def Fetched.outcome {Meta : Type} : Class → Fetched Meta → Outcome Meta
  | .artifact, .ok _ _ => .cached
  | .artifact, .nonOk info body => .response info body
  | .artifact, .failed _ message => .failed .other message
  | .metadata, .ok info body | .metadata, .nonOk info body => .response info body
  | .metadata, .failed kind message => .failed kind message

/-- The server sends no body on HEAD. -/
def Reply.sent {Meta : Type} : Method → Reply Meta → Reply Meta
  | .get, r => r
  | .head, .entry info _ => .entry info none
  | .head, .text status _ => .text status none

/-- `serve_inflight` and `serve_metadata_inflight` on an outcome that is no
artifact in the cache; `request_failed_response` on a leader's own error. -/
def Outcome.reply {Meta : Type} : Outcome Meta → Reply Meta
  | .cached => .text (errorStatus .invalidData) (some "metadata inflight produced artifact")
  | .response info body => .entry info (some body)
  | .failed kind message => .text (errorStatus kind) (some message)

/-- `Inflight` -/
structure Flight (Key Meta : Type) where
  slot : Slot Key
  outcome : Option (Outcome Meta)

/-- The await a task stands at: a leader's, then its cleanup task's. -/
inductive Pc (Meta : Type)
  | start
  | fetching
  | creating | writing | flushing | appending | sealing | renaming
  | unlinking (o : Outcome Meta)
  | settling (o : Outcome Meta)
  | finishing (o : Outcome Meta)
  | cleanUnlink | cleanFail | cleanFinish
  | done
  deriving DecidableEq

/-- A leader's, not its cleanup's. -/
def Pc.leads {Meta : Type} : Pc Meta → Bool
  | .cleanUnlink | .cleanFail | .cleanFinish | .done => false
  | _ => true

/-- The fetch is not over. -/
def Pc.fetches {Meta : Type} : Pc Meta → Bool
  | .start | .fetching | .creating | .writing | .flushing | .appending | .sealing | .renaming => true
  | _ => false

/-- Where the drop guard's task starts. -/
def Class.cleanup {Meta : Type} : Class → Pc Meta
  | .artifact => .cleanUnlink
  | .metadata => .cleanFail

/-- The await after a file call. -/
def Pc.nextFile {Meta : Type} : Pc Meta → Option (Pc Meta)
  | .creating => some .writing
  | .writing => some .flushing
  | .flushing => some .appending
  | .appending => some .sealing
  | .sealing => some .renaming
  | _ => none

theorem Pc.nextFile_fetches {Meta : Type} {pc pc' : Pc Meta} (h : pc.nextFile = some pc') :
    pc.fetches = true ∧ pc'.fetches = true := by
  cases pc <;> cases h <;> exact ⟨rfl, rfl⟩

theorem Pc.leads_live {Meta : Type} {pc : Pc Meta} (h : pc.leads = true) : pc ≠ .done := by
  rintro rfl
  cases h

theorem Pc.fetches_live {Meta : Type} {pc : Pc Meta} (h : pc.fetches = true) : pc ≠ .done := by
  rintro rfl
  cases h

/-- The leader of a flight, and the cleanup task its drop guard spawns. -/
inductive TaskId
  | leader (f : Nat)
  | cleanup (f : Nat)
  deriving DecidableEq

def TaskId.flight : TaskId → Nat
  | .leader f | .cleanup f => f

structure Task (Key Meta : Type) where
  slot : Slot Key
  host : Option Nat
  pc : Pc Meta

inductive ReqPc (Meta : Type)
  /-- At the first lock of the inflight map. -/
  | check
  /-- An artifact's disk check. -/
  | load
  /-- At the second lock. -/
  | recheck
  /-- A metadata leader. -/
  | leading (f : Nat)
  | waiting (f : Nat)
  /-- Has taken a `Cached` outcome, the entry to load. -/
  | serving (f : Nat)
  | answered (r : Reply Meta) (f : Option Nat)
  | refused
  /-- Its client disconnected. -/
  | gone
  deriving DecidableEq

structure Request (Key Meta : Type) where
  slot : Slot Key
  method : Method
  pc : ReqPc Meta
  deriving DecidableEq

/-- An entry's last bytes are written, being written after its rename, or not there. -/
inductive Seal
  | whole | landing | torn
  deriving DecidableEq

structure CacheEntry (Meta : Type) where
  info : Meta
  body : Bytes
  state : Seal
  deriving DecidableEq

structure Proxy (Key Meta : Type) where
  /-- `CacheStore::inflight` -/
  map : Slot Key → Option Nat
  flights : Nat → Option (Flight Key Meta)
  tasks : TaskId → Option (Task Key Meta)
  requests : Nat → Option (Request Key Meta)
  disk : Key → Option (CacheEntry Meta)
  next : Nat
  /-- Upstream GETs of an artifact. -/
  gets : Key → Nat
  /-- Fetches of an artifact that came to nothing, and entries evicted or torn. -/
  lost : Key → Nat

namespace Proxy

inductive Action (Key : Type)
  | arrive (r : Nat) (slot : Slot Key) (method : Method)
  | lookup (r : Nat)
  | load (r : Nat)
  | recheck (r : Nat)
  /-- `try_acquire_upstream_permit` fails. -/
  | refuse (r : Nat)
  /-- `wait_for_outcome` returns. -/
  | await (r : Nat)
  | serve (r : Nat)
  | disconnect (r : Nat)
  /-- The leader's request goes out. -/
  | send (t : TaskId)
  | answer (t : TaskId)
  /-- The leader's next file call before its rename. -/
  | file (t : TaskId)
  | rename (t : TaskId) (landed : Bool)
  | fail (t : TaskId)
  | unlink (t : TaskId)
  /-- `Inflight::complete` -/
  | settle (t : TaskId)
  /-- `finish_inflight` -/
  | finish (t : TaskId)
  /-- An artifact's leader is dropped. -/
  | drop (t : TaskId)
  /-- The next step of a cleanup task. -/
  | clean (t : TaskId)
  | land (key : Key)
  | tear (key : Key)
  | evict (key : Key)
  deriving DecidableEq

variable {Key Meta : Type} [DecidableEq Key] (up : Nat → Slot Key → Fetched Meta)

def setTask (s : Proxy Key Meta) (t : TaskId) (T : Task Key Meta) : Proxy Key Meta :=
  { s with tasks := Function.update s.tasks t (some T) }

def setRequest (s : Proxy Key Meta) (r : Nat) (R : Request Key Meta) : Proxy Key Meta :=
  { s with requests := Function.update s.requests r (some R) }

/-- `CacheStore::load` finds a packed entry. -/
def stored (s : Proxy Key Meta) (key : Key) : Option (CacheEntry Meta) :=
  (s.disk key).filter (·.state = .whole)

/-- The state of `<key>` is set. -/
def publish (s : Proxy Key Meta) (key : Key) (e : CacheEntry Meta) : Proxy Key Meta :=
  { s with disk := Function.update s.disk key (some e) }

/-- Registers an `Inflight` and the task that leads it. -/
def register (s : Proxy Key Meta) (slot : Slot Key) (host : Option Nat) : Proxy Key Meta :=
  { s with
    map := Function.update s.map slot (some s.next)
    flights := Function.update s.flights s.next (some ⟨slot, none⟩)
    tasks := Function.update s.tasks (.leader s.next) (some ⟨slot, host, .start⟩)
    next := s.next + 1 }

/-- `Inflight::complete`: the first outcome stays. -/
def complete (s : Proxy Key Meta) (f : Nat) (o : Outcome Meta) : Proxy Key Meta :=
  { s with flights := match s.flights f with
      | some ⟨slot, none⟩ => Function.update s.flights f (some ⟨slot, some o⟩)
      | _ => s.flights }

/-- Counts a fetch that has come to nothing, or a lost entry. -/
def lose (s : Proxy Key Meta) (slot : Slot Key) (n : Nat) : Proxy Key Meta :=
  { s with lost := match slot.cls with
      | .artifact => Function.update s.lost slot.key (s.lost slot.key + n)
      | .metadata => s.lost }

/-- The drop of a leader: its guard spawns the cleanup task. -/
def dropTask (s : Proxy Key Meta) (t : TaskId) (T : Task Key Meta) : Proxy Key Meta :=
  ((s.setTask t { T with pc := .done }).setTask (.cleanup t.flight) ⟨T.slot, none, T.slot.cls.cleanup⟩).lose T.slot
    (if T.pc.fetches then 1 else 0)

/-- The message of the drop guard's `fail`. -/
def cancelled : Class → Outcome Meta
  | .artifact => .failed .interrupted "artifact fetch cancelled"
  | .metadata => .failed .interrupted "metadata fetch cancelled"

/-- One more upstream GET for the slot. -/
def count (s : Proxy Key Meta) (slot : Slot Key) : Proxy Key Meta :=
  { s with gets := match slot.cls with
      | .artifact => Function.update s.gets slot.key (s.gets slot.key + 1)
      | .metadata => s.gets }

/-! ## What the parts of a step change -/

section
omit [DecidableEq Key]
variable (s : Proxy Key Meta) (t : TaskId) (r f : Nat) (T : Task Key Meta) (R : Request Key Meta)

theorem setTask_cases {u : TaskId} {U : Task Key Meta} (h : (s.setTask t T).tasks u = some U) :
    u = t ∧ U = T ∨ u ≠ t ∧ s.tasks u = some U := by
  simp only [setTask, Function.update_apply] at h
  split at h
  · next he => exact .inl ⟨he, (Option.some.inj h).symm⟩
  · next he => exact .inr ⟨he, h⟩

theorem setRequest_cases {q : Nat} {Q : Request Key Meta} (h : (s.setRequest r R).requests q = some Q) :
    q = r ∧ Q = R ∨ q ≠ r ∧ s.requests q = some Q := by
  simp only [setRequest, Function.update_apply] at h
  split at h
  · next he => exact .inl ⟨he, (Option.some.inj h).symm⟩
  · next he => exact .inr ⟨he, h⟩

theorem setTask_ne {s : Proxy Key Meta} {t u : TaskId} {T : Task Key Meta} (h : u ≠ t) :
    (s.setTask t T).tasks u = s.tasks u :=
  Function.update_of_ne h ..

/-- The tasks of the other flights stay. -/
theorem setTask_other {s : Proxy Key Meta} {t u : TaskId} {T : Task Key Meta} (h : u.flight ≠ t.flight) :
    (s.setTask t T).tasks u = s.tasks u :=
  setTask_ne (by rintro rfl; exact h rfl)

theorem setTask_others {s : Proxy Key Meta} {t : TaskId} {T : Task Key Meta} {f : Nat} (h : f ≠ t.flight) :
    (s.setTask t T).tasks (.leader f) = s.tasks (.leader f) ∧
      (s.setTask t T).tasks (.cleanup f) = s.tasks (.cleanup f) :=
  ⟨setTask_other (u := .leader f) h, setTask_other (u := .cleanup f) h⟩

/-- A flight that has its outcome keeps it. -/
theorem complete_settled {s : Proxy Key Meta} {f : Nat} {F : Flight Key Meta} (hF : s.flights f = some F)
    (ho : F.outcome ≠ none) (o : Outcome Meta) : s.complete f o = s := by
  obtain ⟨slot, _ | o'⟩ := F
  · exact absurd rfl ho
  · simp [complete, hF]

/-- The first outcome stays, and from then on there is one. -/
theorem complete_flights (o : Outcome Meta) (g : Nat) :
    (s.complete f o).flights g =
      if g = f then (s.flights f).map fun F => { F with outcome := F.outcome <|> some o } else s.flights g := by
  by_cases he : g = f
  · subst he
    rcases hF : s.flights g with _ | ⟨slot, _ | o'⟩
    · simp [complete, hF]
    · simp [complete, hF]
    · simp [complete, hF]
  · rw [if_neg he]
    rcases hF : s.flights f with _ | ⟨slot, _ | o'⟩
    · simp [complete, hF]
    · simp [complete, hF, Function.update_of_ne he]
    · simp [complete, hF]

end

theorem dropTask_other {s : Proxy Key Meta} {t u : TaskId} {T : Task Key Meta} (h : u.flight ≠ t.flight) :
    (s.dropTask t T).tasks u = s.tasks u :=
  (setTask_other (t := .cleanup t.flight) h).trans (setTask_other h)

theorem dropTask_others {s : Proxy Key Meta} {t : TaskId} {T : Task Key Meta} {f : Nat} (h : f ≠ t.flight) :
    (s.dropTask t T).tasks (.leader f) = s.tasks (.leader f) ∧
      (s.dropTask t T).tasks (.cleanup f) = s.tasks (.cleanup f) :=
  ⟨dropTask_other (u := .leader f) h, dropTask_other (u := .cleanup f) h⟩

theorem lose_lost (s : Proxy Key Meta) (slot : Slot Key) (n : Nat) (key : Key) :
    (s.lose slot n).lost key = s.lost key + if slot = ⟨.artifact, key⟩ then n else 0 := by
  obtain ⟨cls, k⟩ := slot
  cases cls with
  | metadata => simp [lose]
  | artifact =>
    by_cases hk : k = key
    · simp [lose, hk]
    · simp [lose, hk, Ne.symm hk]

theorem count_gets (s : Proxy Key Meta) (slot : Slot Key) (key : Key) :
    (s.count slot).gets key = s.gets key + if slot = ⟨.artifact, key⟩ then 1 else 0 := by
  obtain ⟨cls, k⟩ := slot
  cases cls with
  | metadata => simp [count]
  | artifact =>
    by_cases hk : k = key
    · simp [count, hk]
    · simp [count, hk, Ne.symm hk]

theorem dropTask_cases {s : Proxy Key Meta} {t u : TaskId} {T U : Task Key Meta}
    (h : (s.dropTask t T).tasks u = some U) :
    u = .cleanup t.flight ∧ U = ⟨T.slot, none, T.slot.cls.cleanup⟩ ∨ u = t ∧ U = { T with pc := .done } ∨
      u ≠ .cleanup t.flight ∧ u ≠ t ∧ s.tasks u = some U := by
  obtain h | ⟨hn, h⟩ := setTask_cases (s.setTask t { T with pc := .done }) (.cleanup t.flight) _ h
  · exact .inl h
  · obtain h | ⟨hn', h⟩ := setTask_cases _ _ _ h
    · exact .inr (.inl h)
    · exact .inr (.inr ⟨hn, hn', h⟩)

/-! ## The steps -/

section
variable [DecidableEq Meta]

/-- The host of a metadata leader gets the leader's own result. -/
def answerHost (s : Proxy Key Meta) (t : TaskId) (T : Task Key Meta) (o : Outcome Meta) : Proxy Key Meta :=
  { s with requests := match T.host with
      | some r =>
        match s.requests r with
        | some R =>
          if R.pc = .leading t.flight then
            (s.setRequest r { R with pc := .answered (o.reply.sent R.method) (some t.flight) }).requests
          else s.requests
        | none => s.requests
      | none => s.requests }

def step : Action Key → Proxy Key Meta → Option (Proxy Key Meta)
  | .arrive r slot method, s =>
    if s.requests r = none ∧ (slot.cls = .artifact → method = .get) then
      some (s.setRequest r ⟨slot, method, .check⟩)
    else none
  | .lookup r, s =>
    match s.requests r with
    | some R =>
      if R.pc = .check then
        match s.map R.slot, R.slot.cls with
        | some f, _ => some (s.setRequest r { R with pc := .waiting f })
        | none, .artifact => some (s.setRequest r { R with pc := .load })
        | none, .metadata => some ((s.register R.slot (some r)).setRequest r { R with pc := .leading s.next })
      else none
    | none => none
  | .load r, s =>
    match s.requests r with
    | some R =>
      if R.pc = .load then
        match s.stored R.slot.key with
        | some e => some (s.setRequest r { R with pc := .answered (.entry e.info (some e.body)) none })
        | none => some (s.setRequest r { R with pc := .recheck })
      else none
    | none => none
  | .recheck r, s =>
    match s.requests r with
    | some R =>
      if R.pc = .recheck then
        match s.map R.slot with
        | some f => some (s.setRequest r { R with pc := .waiting f })
        | none => some ((s.register R.slot none).setRequest r { R with pc := .waiting s.next })
      else none
    | none => none
  | .refuse r, s =>
    match s.requests r with
    | some R =>
      if s.map R.slot = none ∧ (R.pc = .recheck ∨ R.pc = .check ∧ R.slot.cls = .metadata) then
        some (s.setRequest r { R with pc := .refused })
      else none
    | none => none
  | .await r, s =>
    match s.requests r with
    | some R =>
      match R.pc with
      | .waiting f =>
        match (s.flights f).bind (·.outcome) with
        | some o =>
          if o = .cached ∧ R.slot.cls = .artifact then some (s.setRequest r { R with pc := .serving f })
          else some (s.setRequest r { R with pc := .answered (o.reply.sent R.method) (some f) })
        | none => none
      | _ => none
    | none => none
  | .serve r, s =>
    match s.requests r with
    | some R =>
      match R.pc with
      | .serving f =>
        match s.stored R.slot.key with
        | some e => some (s.setRequest r { R with pc := .answered (.entry e.info (some e.body)) (some f) })
        | none => some (s.setRequest r { R with
            pc := .answered (.text (errorStatus .notFound) (some "artifact missing after inflight completion"))
              (some f) })
      | _ => none
    | none => none
  | .disconnect r, s =>
    match s.requests r with
    | some R =>
      match R.pc with
      | .answered _ _ | .refused | .gone => none
      | .leading f =>
        match s.tasks (.leader f) with
        | some T =>
          if T.pc.leads then some ((s.dropTask (.leader f) T).setRequest r { R with pc := .gone })
          else some (s.setRequest r { R with pc := .gone })
        | none => some (s.setRequest r { R with pc := .gone })
      | _ => some (s.setRequest r { R with pc := .gone })
    | none => none
  | .send t, s =>
    match s.tasks t with
    | some T => if T.pc = .start then some ((s.setTask t { T with pc := .fetching }).count T.slot) else none
    | none => none
  | .answer t, s =>
    match s.tasks t with
    | some T =>
      if T.pc = .fetching then
        match T.slot.cls, up t.flight T.slot with
        -- A 200, whatever becomes of its body.
        | .artifact, .ok _ _ | .artifact, .failed _ _ => some (s.setTask t { T with pc := .creating })
        | .artifact, .nonOk info body =>
          some ((s.setTask t { T with pc := .settling (.response info body) }).lose T.slot 1)
        | .metadata, .ok info body | .metadata, .nonOk info body =>
          some (s.setTask t { T with pc := .settling (.response info body) })
        | .metadata, .failed _ _ => none
      else none
    | none => none
  | .file t, s =>
    match s.tasks t with
    | some T => T.pc.nextFile.map fun pc => s.setTask t { T with pc }
    | none => none
  | .rename t landed, s =>
    match s.tasks t with
    | some T =>
      if T.pc = .renaming then
        match up t.flight T.slot with
        | .ok info body =>
          some <| (s.publish T.slot.key ⟨info, body, if landed then .whole else .landing⟩).setTask t
            { T with pc := .settling .cached }
        | _ => none
      else none
    | none => none
  | .fail t, s =>
    match s.tasks t with
    | some T =>
      match up t.flight T.slot with
      | .failed kind message =>
        if T.pc.fetches then
          let o := Fetched.outcome T.slot.cls (.failed kind message)
          match T.slot.cls with
          | .artifact => some ((s.setTask t { T with pc := .unlinking o }).lose T.slot 1)
          | .metadata => some (s.setTask t { T with pc := .settling o })
        else none
      | _ => none
    | none => none
  | .unlink t, s =>
    match s.tasks t with
    | some T =>
      match T.pc with
      | .unlinking o => some (s.setTask t { T with pc := .settling o })
      | _ => none
    | none => none
  | .settle t, s =>
    match s.tasks t with
    | some T =>
      match T.pc with
      | .settling o => some ((s.complete t.flight o).setTask t { T with pc := .finishing o })
      | _ => none
    | none => none
  | .finish t, s =>
    match s.tasks t with
    | some T =>
      match T.pc with
      | .finishing o =>
        some <| ({ s with map := Function.update s.map T.slot none }.setTask t { T with pc := .done }).answerHost t T o
      | _ => none
    | none => none
  | .drop t, s =>
    match s.tasks t with
    | some T => if T.slot.cls = .artifact ∧ T.pc.leads then some (s.dropTask t T) else none
    | none => none
  | .clean t, s =>
    match s.tasks t with
    | some T =>
      match T.pc with
      | .cleanUnlink => some (s.setTask t { T with pc := .cleanFail })
      | .cleanFail => some ((s.complete t.flight (cancelled T.slot.cls)).setTask t { T with pc := .cleanFinish })
      | .cleanFinish => some <| { s with map := Function.update s.map T.slot none }.setTask t { T with pc := .done }
      | _ => none
    | none => none
  | .land key, s =>
    match s.disk key with
    | some e =>
      if e.state = .landing then
        some (s.publish key { e with state := .whole })
      else none
    | none => none
  | .tear key, s =>
    match s.disk key with
    | some e =>
      if e.state = .landing then
        some ((s.publish key { e with state := .torn }).lose ⟨.artifact, key⟩ 1)
      else none
    | none => none
  | .evict key, s =>
    match s.disk key with
    | some _ =>
      some ({ s with disk := Function.update s.disk key none }.lose ⟨.artifact, key⟩ 1)
    | none => none

end

/-- A start over a directory with the given entries. -/
def start (disk : Key → Option (CacheEntry Meta)) : Proxy Key Meta :=
  { map := fun _ => none
    flights := fun _ => none
    tasks := fun _ => none
    requests := fun _ => none
    disk
    next := 0
    gets := fun _ => 0
    lost := fun _ => 0 }

section

variable (disk : Key → Option (CacheEntry Meta))

omit [DecidableEq Key]

@[simp] theorem start_map (slot : Slot Key) : (start disk).map slot = none := rfl

@[simp] theorem start_flights (f : Nat) : (start disk).flights f = none := rfl

@[simp] theorem start_tasks (t : TaskId) : (start disk).tasks t = none := rfl

@[simp] theorem start_requests (r : Nat) : (start disk).requests r = none := rfl

end

end Proxy

end Vampire
