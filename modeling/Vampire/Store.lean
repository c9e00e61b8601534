/-
The cache directory and the tasks that share it, as a system of interleaved
steps (`cache.rs`, and the file operations of `App::do_artifact_fetch`).

A writer is a straight line of file calls in the order the source makes
them (`fetchArtifact`, `storeMetadata`); a step of a writer makes one call.
A `tokio::fs::File` hands the bytes of a write to a background write: the
call returns, and the bytes land (`land`), or fail to (`landFail`), at any
later time up to the next write or flush on the same handle, where a failure
is reported. Dropping the handle leaves its last background write behind
(`orphans`), for nobody to wait for.

An eviction scan lists, checks a pin and removes in separate steps. A
publication token is live while something refers to it; its last reference
gone, it leaves the pin registry and then sends an eviction request, again
in separate steps. The janitor receives, locks, drains and scans.

Left out: the inflight map's own lookups (`Vampire.Flight`), redirects and
everything before the upstream body, the drop of a request during its inline
scan, and the directory lock.
-/
import Mathlib
import Vampire.Entry

namespace Vampire

/-- Temp paths: `<key>.part` of the artifact fetch, `<key>.part.<n>.part` of
a metadata write, `n` from the store's counter. -/
inductive Temp (Key : Type)
  | part (key : Key)
  | metadata (key : Key) (n : Nat)
  deriving DecidableEq

/-- An open `tokio::fs::File`: its inode, the bytes of a background write
still to land, and whether one failed that no call has reported yet. -/
structure Handle where
  ino : Nat
  pending : Option Bytes
  err : Bool
  deriving DecidableEq

/-- One call of a writer. -/
inductive Op
  | create
  | append
  | write (bytes : Bytes)
  | flush
  | close
  | pin
  | lock
  | rename
  | evict
  | unlock
  | remove
  deriving DecidableEq

/-- The calls that can return an I/O error. -/
def Op.fallible : Op → Bool
  | .create | .append | .write _ | .flush | .rename => true
  | _ => false

/-- `CacheStore::commit_artifact`, from the metadata's JSON. -/
def commitArtifact (json : Bytes) : List Op :=
  [.append, .write json, .write (toBeBytes json.length), .close, .pin, .rename]

/-- `App::do_artifact_fetch` from `File::create` on: the body as the chunks
the upstream sends it in, then the commit. -/
def fetchArtifact (chunks : List Bytes) (json : Bytes) : List Op :=
  .create :: chunks.map .write ++ [.flush, .close] ++ commitArtifact json

/-- `CacheStore::store_metadata`; `pieces` is the body as `write_all` cuts it up. -/
def storeMetadata (pieces : List Bytes) (json : Bytes) : List Op :=
  .create :: pieces.map .write ++
    [.write json, .write (toBeBytes json.length), .flush, .close, .lock, .rename, .evict, .unlock]

/-- A running `do_artifact_fetch` or `store_metadata`. -/
structure Writer (Key Meta : Type) where
  key : Key
  temp : Temp Key
  body : Bytes
  info : Meta
  /-- The inode `create` opened. -/
  ino : Option Nat
  file : Option Handle
  token : Option Nat
  /-- The calls still to make. -/
  ops : List Op
  failed : Bool

/-- What keeps a `PublishedEntry` alive: the commit that made it, the
`Inflight` it was handed to, a request serving from it. -/
inductive Ref
  | publisher (w : Nat)
  | inflight
  | waiter (l : Nat)
  deriving DecidableEq

/-- `live`, then `Drop for PublishedEntryInner` before and after it has looked
at the pin registry, then gone. -/
inductive Stage
  | live | dropping | sending | dead
  deriving DecidableEq

structure Token (Key : Type) where
  key : Key
  refs : List Ref
  stage : Stage
  deriving DecidableEq

/-- `CacheStore::load` and the reading of the body after it, call by call. -/
inductive LoadPc (Meta : Type)
  | start
  | opened
  | sized (size : Nat)
  | located (bodyLen metaLen : Nat)
  | parsed (bodyLen : Nat) (info : Meta)
  | served (body : Bytes) (info : Meta)
  /-- `Ok(None)`, the path does not exist. -/
  | missing
  /-- `Ok(None)`, the entry is not a packed entry. -/
  | corrupt
  | failed
  deriving DecidableEq

structure Load (Key Meta : Type) where
  key : Key
  /-- The token a request serving an inflight outcome holds. -/
  token : Option Nat
  ino : Option Nat
  pc : LoadPc Meta

/-- The load has returned and its body, if any, is read. -/
def Load.isDone {Key Meta : Type} (L : Load Key Meta) : Bool :=
  match L.pc with
  | .served _ _ | .missing | .corrupt | .failed => true
  | _ => false

/-- Who holds the eviction lock. -/
inductive Holder
  | startup | janitor | writer (w : Nat)
  deriving DecidableEq

/-- `CompletedEntry`. -/
structure Listed (Key : Type) where
  key : Key
  ino : Nat
  modified : Nat
  size : Nat
  deriving DecidableEq

/-- `evict_files_to_bound`: listing (the directory as it was when the scan
began is kept for what a scan must see), the loop with its running total, and
the loop between `is_pinned` and `remove_file`. -/
inductive Scan (Key : Type)
  | listing (snap : List (Key × Nat)) (seen : List (Listed Key))
  | deciding (total : Nat) (rest : List (Listed Key))
  | removing (total : Nat) (entry : Listed Key) (rest : List (Listed Key))
  deriving DecidableEq

inductive Janitor
  | recv | waiting | draining | scanning
  deriving DecidableEq

/-- `CacheStore::new` up to the end of its `evict_to_bound`. -/
inductive Startup
  | pending | scanning | ready
  deriving DecidableEq

structure Store (Key Meta : Type) where
  next : Nat
  content : Nat → Bytes
  temps : Temp Key → Option Nat
  /-- The visible `<key>` entries. -/
  dir : List (Key × Nat)
  /-- Background writes whose handle was dropped. -/
  orphans : List (Nat × Bytes)
  /-- Inodes a background write failed on. -/
  broken : List Nat
  /-- Inodes a rename made visible, with the key and what their writer was given. -/
  pub : Nat → Option (Key × Bytes × Meta)
  counter : Nat
  writers : Nat → Option (Writer Key Meta)
  /-- The artifact leader in the inflight map. -/
  leader : Key → Option Nat
  tokens : Nat → Option (Token Key)
  nextToken : Nat
  pins : Key → Option Nat
  loads : Nat → Option (Load Key Meta)
  lock : Option Holder
  scan : Option (Scan Key)
  /-- The capacity-one eviction channel holds a request. -/
  chan : Bool
  janitor : Janitor
  startup : Startup

inductive Action (Key Meta : Type)
  | startArtifact (w : Nat) (key : Key) (chunks : List Bytes) (info : Meta)
  | startMetadata (w : Nat) (key : Key) (pieces : List Bytes) (info : Meta)
  /-- The writer's next call. -/
  | run (w : Nat)
  /-- The writer's next call fails. -/
  | fail (w : Nat)
  /-- `finish_inflight` -/
  | finish (w : Nat)
  | land (w : Nat)
  | landFail (w : Nat) (n : Nat)
  | landOrphan (i : Nat)
  | loseOrphan (i : Nat) (n : Nat)
  /-- A request takes the token of a `Cached` outcome. -/
  | attach (l t : Nat)
  | load (l : Nat) (key : Key)
  | loadStep (l : Nat)
  | leave (t : Nat) (ref : Ref)
  | unpin (t : Nat)
  | send (t : Nat)
  | recv
  | janitorLock
  | drain
  | scanStart
  | scanList (key : Key) (modified : Nat)
  | scanSort
  | scanCheck
  | scanRemove
  | scanEnd

namespace Store

variable {Key Meta : Type} [DecidableEq Key] (serde : Serde Meta) (maxCacheSize : Nat)

/-- `rename` onto `<key>`: the old name, if any, now names the new inode. -/
def putEntry (dir : List (Key × Nat)) (key : Key) (ino : Nat) : List (Key × Nat) :=
  dir.filter (fun e => e.1 ≠ key) ++ [(key, ino)]

def removeEntry (dir : List (Key × Nat)) (key : Key) : List (Key × Nat) :=
  dir.filter (fun e => e.1 ≠ key)

def lookupEntry (dir : List (Key × Nat)) (key : Key) : Option Nat :=
  (dir.find? (fun e => e.1 = key)).map (·.2)

@[simp] theorem mem_putEntry {dir : List (Key × Nat)} {key : Key} {ino : Nat} {e : Key × Nat} :
    e ∈ putEntry dir key ino ↔ e ∈ dir ∧ e.1 ≠ key ∨ e = (key, ino) := by
  simp [putEntry]

@[simp] theorem mem_removeEntry {dir : List (Key × Nat)} {key : Key} {e : Key × Nat} :
    e ∈ removeEntry dir key ↔ e ∈ dir ∧ e.1 ≠ key := by
  simp [removeEntry]

theorem lookupEntry_mem {dir : List (Key × Nat)} {key : Key} {ino : Nat}
    (h : lookupEntry dir key = some ino) : (key, ino) ∈ dir := by
  simp only [lookupEntry, Option.map_eq_some_iff] at h
  obtain ⟨e, he, rfl⟩ := h
  have hk : e.1 = key := by simpa using List.find?_some he
  exact hk ▸ List.mem_of_find?_eq_some he

theorem lookupEntry_putEntry (dir : List (Key × Nat)) (key : Key) (ino : Nat) :
    lookupEntry (putEntry dir key ino) key = some ino := by
  simp only [lookupEntry, putEntry, List.find?_append]
  rw [List.find?_eq_none.2 (by simp)]
  simp

theorem lookupEntry_putEntry_ne {dir : List (Key × Nat)} {key k : Key} {ino : Nat} (h : k ≠ key) :
    lookupEntry (putEntry dir key ino) k = lookupEntry dir k := by
  simp only [lookupEntry, putEntry, List.find?_append, List.find?_filter]
  rw [List.find?_cons_of_neg (by simpa using Ne.symm h), List.find?_nil, Option.or_none]
  congr 2
  funext e
  by_cases he : e.1 = k <;> simp [he, h]

theorem lookupEntry_removeEntry_ne {dir : List (Key × Nat)} {key k : Key} (h : k ≠ key) :
    lookupEntry (removeEntry dir key) k = lookupEntry dir k := by
  simp only [lookupEntry, removeEntry, List.find?_filter]
  congr 2
  funext e
  by_cases he : e.1 = k <;> simp [he, h]

/-- The keys of a directory are its names: a rename or a removal keeps them apart. -/
theorem nodup_putEntry {dir : List (Key × Nat)} {key : Key} {ino : Nat} (h : (dir.map (·.1)).Nodup) :
    ((putEntry dir key ino).map (·.1)).Nodup := by
  simp only [putEntry, List.map_append, List.map_cons, List.map_nil]
  refine List.Nodup.append (h.sublist (List.filter_sublist.map _)) (List.nodup_singleton _) ?_
  intro k hk hk'
  simp only [List.mem_map, List.mem_filter, List.mem_singleton] at hk hk'
  obtain ⟨e, ⟨-, he⟩, rfl⟩ := hk
  simp [hk'] at he

theorem nodup_removeEntry {dir : List (Key × Nat)} {key : Key} (h : (dir.map (·.1)).Nodup) :
    ((removeEntry dir key).map (·.1)).Nodup :=
  h.sublist (List.filter_sublist.map _)

def setWriter (s : Store Key Meta) (w : Nat) (W : Writer Key Meta) : Store Key Meta :=
  { s with writers := Function.update s.writers w (some W) }

def setLoad (s : Store Key Meta) (l : Nat) (L : Load Key Meta) : Store Key Meta :=
  { s with loads := Function.update s.loads l (some L) }

def setToken (s : Store Key Meta) (t : Nat) (T : Token Key) : Store Key Meta :=
  { s with tokens := Function.update s.tokens t (some T) }

/-- Dropping a handle: its background write is left behind. -/
def leaveBehind (orphans : List (Nat × Bytes)) : Option Handle → List (Nat × Bytes)
  | some ⟨ino, some bytes, _⟩ => orphans ++ [(ino, bytes)]
  | _ => orphans

/-- The writer's call returned an error: the function returns, its locals are
dropped (handle, token, eviction guard), and the temp file is to be removed. -/
def failWriter (s : Store Key Meta) (w : Nat) (W : Writer Key Meta) : Store Key Meta :=
  { s with
    orphans := leaveBehind s.orphans W.file
    tokens := match W.token.bind s.tokens with
      | some T => Function.update s.tokens (W.token.getD 0) (some { T with refs := [], stage := .dropping })
      | none => s.tokens
    lock := if s.lock = some (.writer w) then none else s.lock
    writers := Function.update s.writers w
      (some { W with file := none, ops := [.remove], failed := true }) }

/-- One call of a writer, `rest` the calls after it. -/
def runOp (s : Store Key Meta) (w : Nat) (W : Writer Key Meta) (rest : List Op) : Op → Option (Store Key Meta)
  | .create =>
    -- An existing file keeps its inode and is truncated.
    let ino := (s.temps W.temp).getD s.next
    some <| { s with
      next := s.next + 1
      content := Function.update s.content ino []
      temps := Function.update s.temps W.temp (some ino) }.setWriter w
        { W with ino := some ino, file := some ⟨ino, none, false⟩, ops := rest }
  | .append =>
    match s.temps W.temp with
    | some ino => some <| s.setWriter w { W with file := some ⟨ino, none, false⟩, ops := rest }
    | none => none
  | .write [] => some <| s.setWriter w { W with ops := rest }
  | .write bytes =>
    match W.file with
    | some ⟨ino, none, false⟩ =>
      some <| s.setWriter w { W with file := some ⟨ino, some bytes, false⟩, ops := rest }
    | some ⟨_, none, true⟩ => some (s.failWriter w W)
    | _ => none
  | .flush =>
    match W.file with
    | some ⟨_, none, false⟩ => some <| s.setWriter w { W with ops := rest }
    | some ⟨_, none, true⟩ => some (s.failWriter w W)
    | _ => none
  | .close =>
    some <| { s with orphans := leaveBehind s.orphans W.file }.setWriter w { W with file := none, ops := rest }
  | .pin =>
    some <| { s with
      tokens := Function.update s.tokens s.nextToken (some ⟨W.key, [.publisher w], .live⟩)
      nextToken := s.nextToken + 1
      pins := Function.update s.pins W.key (some s.nextToken) }.setWriter w
        { W with token := some s.nextToken, ops := rest }
  | .lock =>
    if s.lock = none then
      some <| { s with lock := some (.writer w) }.setWriter w { W with ops := rest }
    else none
  | .rename =>
    match s.temps W.temp with
    | some ino =>
      some <| { s with
        dir := putEntry s.dir W.key ino
        temps := Function.update s.temps W.temp none
        pub := Function.update s.pub ino (some (W.key, W.body, W.info))
        -- `Ok(published)`: the caller hands the token to the inflight outcome.
        tokens := match W.token.bind s.tokens with
          | some T => Function.update s.tokens (W.token.getD 0) (some { T with refs := [.inflight] })
          | none => s.tokens }.setWriter w { W with ops := rest }
    | none => none
  -- Done by the steps of the scan.
  | .evict => none
  | .unlock => some <| { s with lock := none }.setWriter w { W with ops := rest }
  | .remove => some <| { s with temps := Function.update s.temps W.temp none }.setWriter w { W with ops := rest }

/-- `is_pinned`: the registered weak reference still upgrades. -/
def isPinned (s : Store Key Meta) (key : Key) : Bool :=
  match (s.pins key).bind s.tokens with
  | some T => T.stage ≠ .dead
  | none => false

/-- The next call of a load. -/
def loadNext (s : Store Key Meta) (L : Load Key Meta) : Option (Load Key Meta) :=
  match L.pc, L.ino with
  | .start, _ =>
    match lookupEntry s.dir L.key with
    | some ino => some { L with ino := some ino, pc := .opened }
    | none => some { L with pc := .missing }
  | .opened, some ino =>
    let size := (s.content ino).length
    some { L with pc := if size < footerLen then .corrupt else .sized size }
  | .sized size, some ino =>
    match readExact (s.content ino) (size - footerLen) footerLen with
    | .ok footer =>
      match footerGeometry size footer with
      | .ok (bodyLen, metaLen) => some { L with pc := .located bodyLen metaLen }
      | .error _ => some { L with pc := .corrupt }
    | .error _ => some { L with pc := .failed }
  | .located bodyLen metaLen, some ino =>
    match readExact (s.content ino) bodyLen metaLen with
    | .ok bytes =>
      match parseMeta serde bytes with
      | .ok info => some { L with pc := .parsed bodyLen info }
      | .error _ => some { L with pc := .corrupt }
    | .error _ => some { L with pc := .failed }
  | .parsed bodyLen info, some ino => some { L with pc := .served ((s.content ino).take bodyLen) info }
  | _, _ => none

/-- A request keeps its token until its load is over, a commit until it returns. -/
def mayLeave (s : Store Key Meta) : Ref → Bool
  | .publisher _ => false
  | .inflight => true
  | .waiter l => (s.loads l).any fun L => L.isDone

/-- The one file of the directory a scan reads at a time. -/
def listEntry (s : Store Key Meta) (key : Key) (modified : Nat) : Option (Listed Key) :=
  (lookupEntry s.dir key).map fun ino => ⟨key, ino, modified, (s.content ino).length⟩

/-- Whether the lock's holder is at its `evict_files_to_bound`. -/
def atEvict (s : Store Key Meta) : Option Holder → Bool
  | some .startup => s.startup = .pending
  | some .janitor => s.janitor = .draining && !s.chan
  | some (.writer w) => match s.writers w with
    | some W => W.ops.head? = some .evict
    | none => false
  | none => false

/-- The holder goes on after its scan. -/
def afterScan (s : Store Key Meta) : Option Holder → Store Key Meta
  | some .startup => { s with scan := none, startup := .ready, lock := none }
  | some .janitor => { s with scan := none, janitor := .recv, lock := none }
  | some (.writer w) => match s.writers w with
    | some W => match W.ops with
      | .evict :: rest => { s with scan := none }.setWriter w { W with ops := rest }
      | _ => { s with scan := none }
    | none => { s with scan := none }
  | none => { s with scan := none }

/-- Marks the scan's beginning in its holder. -/
def beforeScan (s : Store Key Meta) : Option Holder → Store Key Meta
  | some .startup => { s with startup := .scanning }
  | some .janitor => { s with janitor := .scanning }
  | _ => s

/-- A leader at its `do_artifact_fetch`. -/
def artifactWriter (key : Key) (chunks : List Bytes) (info : Meta) : Writer Key Meta :=
  { key, temp := .part key, body := chunks.flatten, info, ino := none, file := none, token := none,
    ops := fetchArtifact chunks (serde.toVec info), failed := false }

/-- A request at its `store_metadata`, the `n`th. -/
def metadataWriter (key : Key) (n : Nat) (pieces : List Bytes) (info : Meta) : Writer Key Meta :=
  { key, temp := .metadata key n, body := pieces.flatten, info, ino := none, file := none, token := none,
    ops := storeMetadata pieces (serde.toVec info), failed := false }

def step : Action Key Meta → Store Key Meta → Option (Store Key Meta)
  | .startArtifact w key chunks info, s =>
    if s.startup = .ready ∧ s.writers w = none ∧ s.leader key = none ∧
        (serde.toVec info).length ≤ maxMetaLen then
      some <| { s with leader := Function.update s.leader key (some w) }.setWriter w
        (artifactWriter serde key chunks info)
    else none
  | .startMetadata w key pieces info, s =>
    if s.startup = .ready ∧ s.writers w = none ∧ (serde.toVec info).length ≤ maxMetaLen then
      some <| { s with counter := s.counter + 1 }.setWriter w (metadataWriter serde key s.counter pieces info)
    else none
  | .run w, s =>
    match s.writers w with
    | some W => match W.ops with
      | op :: rest => s.runOp w W rest op
      | [] => none
    | none => none
  | .fail w, s =>
    match s.writers w with
    | some W => match W.ops with
      | op :: _ => if op.fallible then some (s.failWriter w W) else none
      | [] => none
    | none => none
  | .finish w, s =>
    match s.writers w with
    | some W =>
      if W.ops = [] ∧ s.leader W.key = some w then
        some { s with leader := Function.update s.leader W.key none }
      else none
    | none => none
  | .land w, s =>
    match s.writers w with
    | some W => match W.file with
      | some ⟨ino, some bytes, err⟩ =>
        some <| { s with content := Function.update s.content ino (s.content ino ++ bytes) }.setWriter w
          { W with file := some ⟨ino, none, err⟩ }
      | _ => none
    | none => none
  | .landFail w n, s =>
    match s.writers w with
    | some W => match W.file with
      | some ⟨ino, some bytes, _⟩ =>
        if n < bytes.length then
          some <| { s with
            content := Function.update s.content ino (s.content ino ++ bytes.take n)
            broken := ino :: s.broken }.setWriter w { W with file := some ⟨ino, none, true⟩ }
        else none
      | _ => none
    | none => none
  | .landOrphan i, s =>
    match s.orphans[i]? with
    | some (ino, bytes) =>
      some { s with
        content := Function.update s.content ino (s.content ino ++ bytes)
        orphans := s.orphans.eraseIdx i }
    | none => none
  | .loseOrphan i n, s =>
    match s.orphans[i]? with
    | some (ino, bytes) =>
      if n < bytes.length then
        some { s with
          content := Function.update s.content ino (s.content ino ++ bytes.take n)
          broken := ino :: s.broken
          orphans := s.orphans.eraseIdx i }
      else none
    | none => none
  | .attach l t, s =>
    match s.tokens t, s.loads l with
    | some T, none =>
      if .inflight ∈ T.refs then
        some <| (s.setToken t { T with refs := .waiter l :: T.refs }).setLoad l ⟨T.key, some t, none, .start⟩
      else none
    | _, _ => none
  | .load l key, s =>
    match s.loads l with
    | none => if s.startup = .ready then some <| s.setLoad l ⟨key, none, none, .start⟩ else none
    | some _ => none
  | .loadStep l, s =>
    match s.loads l with
    | some L => (s.loadNext serde L).map (s.setLoad l)
    | none => none
  | .leave t ref, s =>
    match s.tokens t with
    | some T =>
      if ref ∈ T.refs ∧ s.mayLeave ref then
        let refs := T.refs.erase ref
        some <| s.setToken t { T with refs, stage := if refs = [] then .dropping else T.stage }
      else none
    | none => none
  | .unpin t, s =>
    match s.tokens t with
    | some T =>
      if T.stage = .dropping then
        if s.pins T.key = some t then
          some <| { s with pins := Function.update s.pins T.key none }.setToken t { T with stage := .sending }
        else some <| s.setToken t { T with stage := .dead }
      else none
    | none => none
  | .send t, s =>
    match s.tokens t with
    | some T =>
      if T.stage = .sending then some <| { s with chan := true }.setToken t { T with stage := .dead } else none
    | none => none
  | .recv, s =>
    if s.janitor = .recv ∧ s.chan then some { s with janitor := .waiting, chan := false } else none
  | .janitorLock, s =>
    if s.janitor = .waiting ∧ s.lock = none then
      some { s with janitor := .draining, lock := some .janitor }
    else none
  | .drain, s => if s.janitor = .draining ∧ s.chan then some { s with chan := false } else none
  | .scanStart, s =>
    if s.scan = none ∧ s.atEvict s.lock then
      some { s.beforeScan s.lock with scan := some (.listing s.dir []) }
    else none
  | .scanList key modified, s =>
    match s.scan, s.listEntry key modified with
    | some (.listing snap seen), some e =>
      if key ∈ seen.map (·.key) then none else some { s with scan := some (.listing snap (e :: seen)) }
    | _, _ => none
  | .scanSort, s =>
    match s.scan with
    | some (.listing snap seen) =>
      -- A file that was there throughout has been listed.
      if ∀ e ∈ snap, e ∈ s.dir → e ∈ seen.map (fun x => (x.key, x.ino)) then
        let rest := seen.insertionSort (fun a b => a.modified ≤ b.modified)
        some { s with scan := some (.deciding (seen.map (·.size)).sum rest) }
      else none
    | _ => none
  | .scanCheck, s =>
    match s.scan with
    | some (.deciding total (e :: rest)) =>
      if total ≤ maxCacheSize then none
      else if s.isPinned e.key then some { s with scan := some (.deciding total rest) }
      else some { s with scan := some (.removing total e rest) }
    | _ => none
  | .scanRemove, s =>
    match s.scan with
    | some (.removing total e rest) =>
      -- Removed, or already gone: counted either way.
      some { s with dir := removeEntry s.dir e.key, scan := some (.deciding (total - e.size) rest) }
    | _ => none
  | .scanEnd, s =>
    match s.scan with
    | some (.deciding total rest) =>
      if total ≤ maxCacheSize ∨ rest = [] then some (s.afterScan s.lock) else none
    | _ => none

/-- The store when `CacheStore::new` comes to its `evict_to_bound`: some
directory without temp files, nothing running. -/
def Init (s : Store Key Meta) : Prop :=
  (∀ e ∈ s.dir, e.2 < s.next) ∧ (s.dir.map (·.1)).Nodup ∧ (s.dir.map (·.2)).Nodup ∧
  (∀ t, s.temps t = none) ∧ s.orphans = [] ∧ s.broken = [] ∧ (∀ i, s.pub i = none) ∧
  (∀ w, s.writers w = none) ∧ (∀ k, s.leader k = none) ∧ (∀ t, s.tokens t = none) ∧
  (∀ k, s.pins k = none) ∧ (∀ l, s.loads l = none) ∧ s.lock = some .startup ∧ s.scan = none ∧
  s.chan = false ∧ s.janitor = .recv ∧ s.startup = .pending

/-- The store over a directory with the given entries. -/
def ofEntries (entries : List (Key × Bytes)) : Store Key Meta :=
  { next := entries.length
    content := fun i => (entries[i]?.map (·.2)).getD []
    temps := fun _ => none
    dir := entries.zipIdx.map fun e => (e.1.1, e.2)
    orphans := []
    broken := []
    pub := fun _ => none
    counter := 0
    writers := fun _ => none
    leader := fun _ => none
    tokens := fun _ => none
    nextToken := 0
    pins := fun _ => none
    loads := fun _ => none
    lock := some .startup
    scan := none
    chan := false
    janitor := .recv
    startup := .pending }

/-! ## What a step can do -/

variable {serde maxCacheSize}

/-- A writer's call leaves the other tasks where they are. -/
theorem runOp_tasks {s s' : Store Key Meta} {w : Nat} {W : Writer Key Meta} {rest : List Op} {op : Op}
    (h : s.runOp w W rest op = some s') :
    s'.loads = s.loads ∧ s'.scan = s.scan ∧ s'.chan = s.chan ∧ s'.janitor = s.janitor ∧
      s'.startup = s.startup ∧ s'.leader = s.leader ∧ s'.counter = s.counter := by
  cases op with
  | write bytes =>
    rcases bytes with _ | ⟨b, bs⟩ <;> simp only [runOp] at h <;> repeat' split at h
    all_goals cases h
    all_goals exact ⟨rfl, rfl, rfl, rfl, rfl, rfl, rfl⟩
  | append | flush | lock | rename =>
    simp only [runOp] at h
    repeat' split at h
    all_goals cases h
    all_goals exact ⟨rfl, rfl, rfl, rfl, rfl, rfl, rfl⟩
  | create | close | pin | unlock | remove => cases h; exact ⟨rfl, rfl, rfl, rfl, rfl, rfl, rfl⟩
  | evict => cases h

/-- The steps as rules: one for each way an action can go. -/
inductive Rule (serde : Serde Meta) (maxCacheSize : Nat) (s : Store Key Meta) :
    Action Key Meta → Store Key Meta → Prop
  | startArtifact {w key chunks info} : s.startup = .ready → s.writers w = none → s.leader key = none →
      (serde.toVec info).length ≤ maxMetaLen →
      Rule serde maxCacheSize s (.startArtifact w key chunks info)
        ({ s with leader := Function.update s.leader key (some w) }.setWriter w
          (artifactWriter serde key chunks info))
  | startMetadata {w key pieces info} : s.startup = .ready → s.writers w = none →
      (serde.toVec info).length ≤ maxMetaLen →
      Rule serde maxCacheSize s (.startMetadata w key pieces info)
        ({ s with counter := s.counter + 1 }.setWriter w (metadataWriter serde key s.counter pieces info))
  | run {w W op rest s'} : s.writers w = some W → W.ops = op :: rest → s.runOp w W rest op = some s' →
      Rule serde maxCacheSize s (.run w) s'
  | fail {w W op rest} : s.writers w = some W → W.ops = op :: rest → op.fallible = true →
      Rule serde maxCacheSize s (.fail w) (s.failWriter w W)
  | finish {w W} : s.writers w = some W → W.ops = [] → s.leader W.key = some w →
      Rule serde maxCacheSize s (.finish w) { s with leader := Function.update s.leader W.key none }
  | land {w W ino bytes err} : s.writers w = some W → W.file = some ⟨ino, some bytes, err⟩ →
      Rule serde maxCacheSize s (.land w)
        ({ s with content := Function.update s.content ino (s.content ino ++ bytes) }.setWriter w
          { W with file := some ⟨ino, none, err⟩ })
  | landFail {w W ino bytes err n} : s.writers w = some W → W.file = some ⟨ino, some bytes, err⟩ →
      n < bytes.length → Rule serde maxCacheSize s (.landFail w n)
        ({ s with
          content := Function.update s.content ino (s.content ino ++ bytes.take n)
          broken := ino :: s.broken }.setWriter w { W with file := some ⟨ino, none, true⟩ })
  | landOrphan {i ino bytes} : s.orphans[i]? = some (ino, bytes) →
      Rule serde maxCacheSize s (.landOrphan i)
        { s with
          content := Function.update s.content ino (s.content ino ++ bytes)
          orphans := s.orphans.eraseIdx i }
  | loseOrphan {i ino bytes n} : s.orphans[i]? = some (ino, bytes) → n < bytes.length →
      Rule serde maxCacheSize s (.loseOrphan i n)
        { s with
          content := Function.update s.content ino (s.content ino ++ bytes.take n)
          broken := ino :: s.broken
          orphans := s.orphans.eraseIdx i }
  | attach {l t T} : s.tokens t = some T → s.loads l = none → .inflight ∈ T.refs →
      Rule serde maxCacheSize s (.attach l t)
        ((s.setToken t { T with refs := .waiter l :: T.refs }).setLoad l ⟨T.key, some t, none, .start⟩)
  | load {l key} : s.loads l = none → s.startup = .ready →
      Rule serde maxCacheSize s (.load l key) (s.setLoad l ⟨key, none, none, .start⟩)
  | loadStep {l L L'} : s.loads l = some L → s.loadNext serde L = some L' →
      Rule serde maxCacheSize s (.loadStep l) (s.setLoad l L')
  | leave {t T ref} : s.tokens t = some T → ref ∈ T.refs → s.mayLeave ref = true →
      Rule serde maxCacheSize s (.leave t ref)
        (s.setToken t { T with
          refs := T.refs.erase ref, stage := if T.refs.erase ref = [] then .dropping else T.stage })
  | unpinOwn {t T} : s.tokens t = some T → T.stage = .dropping → s.pins T.key = some t →
      Rule serde maxCacheSize s (.unpin t)
        ({ s with pins := Function.update s.pins T.key none }.setToken t { T with stage := .sending })
  | unpinOther {t T} : s.tokens t = some T → T.stage = .dropping → s.pins T.key ≠ some t →
      Rule serde maxCacheSize s (.unpin t) (s.setToken t { T with stage := .dead })
  | send {t T} : s.tokens t = some T → T.stage = .sending →
      Rule serde maxCacheSize s (.send t) ({ s with chan := true }.setToken t { T with stage := .dead })
  | recv : s.janitor = .recv → s.chan = true →
      Rule serde maxCacheSize s .recv { s with janitor := .waiting, chan := false }
  | janitorLock : s.janitor = .waiting → s.lock = none →
      Rule serde maxCacheSize s .janitorLock { s with janitor := .draining, lock := some .janitor }
  | drain : s.janitor = .draining → s.chan = true → Rule serde maxCacheSize s .drain { s with chan := false }
  | scanStart : s.scan = none → s.atEvict s.lock = true →
      Rule serde maxCacheSize s .scanStart { s.beforeScan s.lock with scan := some (.listing s.dir []) }
  | scanList {snap seen key modified ino} : s.scan = some (.listing snap seen) →
      lookupEntry s.dir key = some ino → key ∉ seen.map (·.key) →
      Rule serde maxCacheSize s (.scanList key modified)
        { s with scan := some (.listing snap (⟨key, ino, modified, (s.content ino).length⟩ :: seen)) }
  | scanSort {snap seen} : s.scan = some (.listing snap seen) →
      (∀ e ∈ snap, e ∈ s.dir → e ∈ seen.map (fun x => (x.key, x.ino))) →
      Rule serde maxCacheSize s .scanSort
        { s with scan := some (.deciding (seen.map (·.size)).sum
          (seen.insertionSort (fun a b => a.modified ≤ b.modified))) }
  | scanPinned {total e rest} : s.scan = some (.deciding total (e :: rest)) → maxCacheSize < total →
      s.isPinned e.key = true →
      Rule serde maxCacheSize s .scanCheck { s with scan := some (.deciding total rest) }
  | scanPick {total e rest} : s.scan = some (.deciding total (e :: rest)) → maxCacheSize < total →
      s.isPinned e.key = false →
      Rule serde maxCacheSize s .scanCheck { s with scan := some (.removing total e rest) }
  | scanRemove {total e rest} : s.scan = some (.removing total e rest) →
      Rule serde maxCacheSize s .scanRemove
        { s with dir := removeEntry s.dir e.key, scan := some (.deciding (total - e.size) rest) }
  | scanEnd {total rest} : s.scan = some (.deciding total rest) → total ≤ maxCacheSize ∨ rest = [] →
      Rule serde maxCacheSize s .scanEnd (s.afterScan s.lock)

theorem step_rule {a : Action Key Meta} {s s' : Store Key Meta} (h : step serde maxCacheSize a s = some s') :
    Rule serde maxCacheSize s a s' := by
  cases a with
  | startArtifact w key chunks info =>
    simp only [step, Option.ite_none_right_eq_some, Option.some.injEq] at h
    obtain ⟨⟨h1, h2, h3, h4⟩, rfl⟩ := h
    exact .startArtifact h1 h2 h3 h4
  | startMetadata w key pieces info =>
    simp only [step, Option.ite_none_right_eq_some, Option.some.injEq] at h
    obtain ⟨⟨h1, h2, h3⟩, rfl⟩ := h
    exact .startMetadata h1 h2 h3
  | run w =>
    simp only [step] at h
    split at h <;> try cases h
    split at h <;> try cases h
    next hw _ _ _ ho => exact .run hw ho h
  | fail w =>
    simp only [step] at h
    split at h <;> try cases h
    split at h <;> try cases h
    split at h <;> cases h
    next hw _ _ _ ho hf => exact .fail hw ho hf
  | finish w =>
    simp only [step] at h
    split at h <;> try cases h
    split at h <;> cases h
    next hw hc => exact .finish hw hc.1 hc.2
  | land w =>
    simp only [step] at h
    split at h <;> try cases h
    split at h <;> cases h
    next hw _ _ _ _ hf => exact .land hw hf
  | landFail w n =>
    simp only [step] at h
    split at h <;> try cases h
    split at h <;> try cases h
    split at h <;> cases h
    next hw _ _ _ _ hf hn => exact .landFail hw hf hn
  | landOrphan i =>
    simp only [step] at h
    split at h <;> cases h
    next ho => exact .landOrphan ho
  | loseOrphan i n =>
    simp only [step] at h
    split at h <;> try cases h
    split at h <;> cases h
    next ho hn => exact .loseOrphan ho hn
  | attach l t =>
    simp only [step] at h
    split at h <;> try cases h
    split at h <;> cases h
    next ht hl hr => exact .attach ht hl hr
  | load l key =>
    simp only [step] at h
    split at h <;> try cases h
    split at h <;> cases h
    next hl hs => exact .load hl hs
  | loadStep l =>
    simp only [step] at h
    split at h <;> try cases h
    next hl =>
      simp only [Option.map_eq_some_iff] at h
      obtain ⟨L', hL, rfl⟩ := h
      exact .loadStep hl hL
  | leave t ref =>
    simp only [step] at h
    split at h <;> try cases h
    split at h <;> cases h
    next ht hr => exact .leave ht hr.1 hr.2
  | unpin t =>
    simp only [step] at h
    split at h <;> try cases h
    split at h <;> try cases h
    split at h <;> cases h
    · next ht hs hp => exact .unpinOwn ht hs hp
    · next ht hs hp => exact .unpinOther ht hs hp
  | send t =>
    simp only [step] at h
    split at h <;> try cases h
    split at h <;> cases h
    next ht hs => exact .send ht hs
  | recv =>
    simp only [step, Option.ite_none_right_eq_some, Option.some.injEq] at h
    obtain ⟨⟨h1, h2⟩, rfl⟩ := h
    exact .recv h1 h2
  | janitorLock =>
    simp only [step, Option.ite_none_right_eq_some, Option.some.injEq] at h
    obtain ⟨⟨h1, h2⟩, rfl⟩ := h
    exact .janitorLock h1 h2
  | drain =>
    simp only [step, Option.ite_none_right_eq_some, Option.some.injEq] at h
    obtain ⟨⟨h1, h2⟩, rfl⟩ := h
    exact .drain h1 h2
  | scanStart =>
    simp only [step, Option.ite_none_right_eq_some, Option.some.injEq] at h
    obtain ⟨⟨h1, h2⟩, rfl⟩ := h
    exact .scanStart h1 h2
  | scanList key modified =>
    simp only [step, listEntry] at h
    split at h <;> try cases h
    next hs he =>
      simp only [Option.map_eq_some_iff] at he
      obtain ⟨ino, hl, rfl⟩ := he
      split at h <;> cases h
      next hk => exact .scanList hs hl hk
  | scanSort =>
    simp only [step] at h
    split at h <;> try cases h
    split at h <;> cases h
    next hs hc => exact .scanSort hs hc
  | scanCheck =>
    simp only [step] at h
    split at h <;> try cases h
    split at h <;> try cases h
    split at h <;> cases h
    · next hs ht hp => exact .scanPinned hs (Nat.lt_of_not_le ht) hp
    · next hs ht hp => exact .scanPick hs (Nat.lt_of_not_le ht) (by simpa using hp)
  | scanRemove =>
    simp only [step] at h
    split at h <;> cases h
    next hs => exact .scanRemove hs
  | scanEnd =>
    simp only [step] at h
    split at h <;> try cases h
    split at h <;> cases h
    next hs hc => exact .scanEnd hs hc

end Store

end Vampire
