/-
`CacheStore::new` step by step, and the store's file operations after it, over
the cache directory's tree. A start reads the marker, looks the directory
through, writes the marker as `fs::write` does (create, then byte after byte),
takes the lock, cleans up and evicts. It can stop anywhere: an error is
returned, or the process ends.

What is behind a symbolic link is no part of the tree, and no write to it changes
one.

A directory that is accepted stays accepted wherever a start stops, except
between the marker's creation and its last byte: `fs::write` is not atomic, and
a marker that is not whole is one that is not ours.
-/
import Vampire.Evict
import Vampire.Lib.Runs

namespace Vampire.CacheDirectory

open Lib

/-- A key of the cache: `hash_key` gives no other. -/
abbrev Key := { key : Str // validKey key (key.take 2) = true }

/-- A file a publication writes before it is renamed. -/
inductive Temp
  | artifact (key : Key)
  /-- With what the counter gave. -/
  | metadata (key : Key) (suffix : Nat)

def Temp.key : Temp → Key
  | .artifact key | .metadata key _ => key

def Temp.path : Temp → Path
  | .artifact key => (pathsFor key.1).temp
  | .metadata key suffix => uniqueTempPath (pathsFor key.1).temp suffix

def Temp.body (temp : Temp) : Path := (pathsFor temp.key.1).body

/-- An eviction scan's total and the entries still before it. -/
abbrev Pending := Nat × List CompletedEntry

inductive Phase
  /-- No process, or `CacheStore::new` has returned this error. -/
  | stopped (error : Option IoError)
  /-- Before `claim_cache_directory` reads the marker. -/
  | reading
  /-- No marker; these entries of the directory are still to be looked at. -/
  | scanning (rest : List (OsName × Node))
  /-- Before `fs::write` creates the marker. -/
  | creating
  /-- The marker has its first `n` bytes. -/
  | writing (n : Nat)
  | locking
  /-- In `cleanup_stale_and_legacy`, with these files still to be removed. -/
  | cleaning (rest : List Path)
  /-- In `evict_to_bound`. -/
  | evicting (pending : Pending)
  /-- The store, with its eviction scan if there is one. -/
  | up (scan : Option Pending)

structure Cache where
  tree : Tree
  phase : Phase

inductive Action
  | start
  /-- The start's next step, without a failure; `now` is the time of a write. -/
  | next (now : Nat)
  /-- The start's next step fails. -/
  | fail (error : IoError)
  /-- `try_lock` finds the lock held. -/
  | lockHeld
  /-- The process ends. -/
  | crash
  /-- A removal of the cleanup or of an eviction scan. -/
  | remove (outcome : Removal)
  /-- An eviction scan skips a pinned entry. -/
  | skip
  /-- An eviction scan lists the directory. -/
  | scan
  /-- `create_dir_all` of a key's shard directory. -/
  | mkdir (key : Key)
  /-- `File::create` -/
  | create (temp : Temp) (now : Nat)
  | append (temp : Temp) (bytes : Bytes) (now : Nat)
  | rename (temp : Temp)
  | removeTemp (temp : Temp)

def Cache.set (s : Cache) (phase : Phase) : Cache := { s with phase }

def Cache.stop (s : Cache) (error : Option IoError) : Cache := s.set (.stopped error)

/-- `try_lock`'s error. -/
def alreadyInUse : IoError := ⟨.alreadyExists, "cache directory is already in use"⟩

/-- `evict_files_to_bound` up to its loop. -/
def scanOf (max : Nat) (t : Tree) : Option Pending :=
  let total := sizes (completedEntriesAt t) % 2 ^ 64
  if total ≤ max then none else some (total, byAge (completedEntriesAt t))

/-- The state after a removal of the eviction scan. -/
def Pending.remove (t : Tree) : Pending → Removal → Option (Tree × Pending)
  | (_, []), _ => none
  | (total, e :: rest), outcome =>
    let s := evictEntry (fun _ => false) (fun _ => outcome) ⟨t, total, []⟩ e
    some (s.tree, (s.total, rest))

/-- The loop has come to its end, or to a total that fits. -/
def Pending.ended (max : Nat) (pending : Pending) : Bool := pending.1 ≤ max || pending.2.isEmpty

section
variable (max : Nat)

/-- A step of `CacheStore::new` that does not fail. -/
def Cache.next (s : Cache) (now : Nat) : Phase → Option Cache
  | .reading =>
    match fsRead s.tree cacheMarker with
    | .ok contents =>
      if contents = markerContents then some (s.set .locking) else some (s.stop (some unownedCacheDirectory))
    | .error error =>
      if error.kind = .notFound then some (s.set (.scanning (readDir s.tree []))) else some (s.stop (some error))
  | .scanning [] => some (s.set .creating)
  | .scanning (entry :: rest) =>
    if ownedShard s.tree entry then some (s.set (.scanning rest)) else some (s.stop (some unownedCacheDirectory))
  | .creating => some ⟨s.tree.insert cacheMarker (.file [] now), .writing 0⟩
  | .writing n =>
    if n < markerContents.length then
      some ⟨s.tree.insert cacheMarker (.file (markerContents.take (n + 1)) now), .writing (n + 1)⟩
    else some (s.set .locking)
  | .locking => some (s.set (.cleaning (staleAndLegacyAt s.tree)))
  | .cleaning [] =>
    match scanOf max s.tree with
    | none => some (s.set (.up none))
    | some pending => some (s.set (.evicting pending))
  | .evicting pending => if pending.ended max then some (s.set (.up none)) else none
  | .up (some pending) => if pending.ended max then some (s.set (.up none)) else none
  | .cleaning (_ :: _) | .stopped _ | .up none => none

/-- A step that returns an error. -/
def Cache.fail (s : Cache) (error : IoError) : Phase → Option Cache
  | .reading | .scanning _ | .creating | .writing _ | .locking | .cleaning _ => some (s.stop (some error))
  | .evicting _ | .stopped _ | .up _ => none

def Cache.remove (s : Cache) (outcome : Removal) : Phase → Option Cache
  | .cleaning (path :: rest) =>
    some ⟨if outcome.removes then s.tree.erase path else s.tree, .cleaning rest⟩
  | .evicting pending =>
    if pending.ended max then none
    else (pending.remove s.tree outcome).map fun (tree, pending) => ⟨tree, .evicting pending⟩
  | .up (some pending) =>
    if pending.ended max then none
    else (pending.remove s.tree outcome).map fun (tree, pending) => ⟨tree, .up (some pending)⟩
  | _ => none

/-- What a publication does to the tree; none of it when the operation fails. -/
def write (t : Tree) : Action → Tree
  | .mkdir key =>
    let dir := [OsName.text (key.1.take 2)]
    if t.lookup dir = none then t.insert dir .dir else t
  | .create temp now =>
    match t.lookup temp.path with
    | none | some (.file ..) => t.insert temp.path (.file [] now)
    | some .dir | some (.other _) => t
  | .append temp bytes now =>
    match t.lookup temp.path with
    | some (.file content _) => t.insert temp.path (.file (content ++ bytes) now)
    | _ => t
  | .rename temp =>
    match t.lookup temp.path, t.lookup temp.body with
    | _, some .dir => t
    | some (.file content modified), _ => (t.erase temp.path).insert temp.body (.file content modified)
    -- A link is moved itself, not what is behind it.
    | some (.other read), _ => (t.erase temp.path).insert temp.body (.other read)
    | _, _ => t
  | .removeTemp temp =>
    match t.lookup temp.path with
    | some .dir => t
    | _ => t.erase temp.path
  | _ => t

def step : Action → Cache → Option Cache
  | .start, s =>
    match s.phase with
    | .stopped _ => some (s.set .reading)
    | _ => none
  | .next now, s => s.next max now s.phase
  | .fail error, s => s.fail error s.phase
  | .lockHeld, s =>
    match s.phase with
    | .locking => some (s.stop (some alreadyInUse))
    | _ => none
  | .crash, s => some (s.stop none)
  | .remove outcome, s => s.remove max outcome s.phase
  | .skip, s =>
    match s.phase with
    | .up (some (total, _ :: rest)) =>
      if total ≤ max then none else some (s.set (.up (some (total, rest))))
    | _ => none
  | .scan, s =>
    match s.phase with
    | .up none => some (s.set (.up (scanOf max s.tree)))
    | _ => none
  | action, s =>
    match s.phase with
    | .up _ => some { s with tree := write s.tree action }
    | _ => none

end

/-! ## Where an action writes -/

theorem validHex_take {key : Str} (h : validKey key (key.take 2) = true) : validHex (key.take 2) 2 = true := by
  obtain ⟨hlen, hhex, -⟩ := validKey_iff.1 h
  refine validHex_iff.2 ⟨by rw [List.length_take, hlen]; rfl, fun c hc => hhex c (List.mem_of_mem_take hc)⟩

/-- The names of a key's files: the entry, the legacy files and the temp files. -/
def OwnName (key name : Str) : Prop :=
  name = key ∨ name = key ++ ".json".toList ∨ name = key ++ ".body".toList ∨ TempName key name

/-- The path of a file of the cache: directly inside the shard directory its key begins with. -/
def OwnPath (path : Path) : Prop :=
  ∃ shard key name, validHex shard 2 = true ∧ validKey key shard = true ∧ OwnName key name ∧
    path = [.text shard, .text name]

theorem ownPath_body (temp : Temp) : OwnPath temp.body :=
  ⟨_, temp.key.1, temp.key.1, validHex_take temp.key.2, temp.key.2, .inl rfl, rfl⟩

theorem ownPath_temp (temp : Temp) : OwnPath temp.path := by
  cases temp with
  | artifact key => exact ⟨_, key.1, _, validHex_take key.2, key.2, .inr (.inr (.inr (tempName_part _))), rfl⟩
  | metadata key suffix =>
    exact ⟨_, key.1, _, validHex_take key.2, key.2, .inr (.inr (.inr (tempName_counted _ suffix))),
      uniqueTempPath_temp ..⟩

theorem OwnPath.ne_marker {path : Path} (h : OwnPath path) : path ≠ cacheMarker := by
  obtain ⟨shard, key, name, -, -, -, rfl⟩ := h
  simp [cacheMarker]

/-- The marker is the name of no shard directory. -/
theorem shard_ne_marker {shard : Str} (h : validHex shard 2 = true) : [OsName.text shard] ≠ cacheMarker := by
  intro he
  simp only [cacheMarker, List.cons.injEq, OsName.text.injEq, and_true] at he
  have := (validHex_iff.1 h).1
  rw [he] at this
  simp at this

/-- A path that is no file of the cache and no shard directory still to be made is written by no publication. -/
theorem write_lookup {t : Tree} {action : Action} {path : Path} (hown : ¬ OwnPath path)
    (hshard : ∀ shard, validHex shard 2 = true → path = [.text shard] → t.lookup path ≠ none) :
    (write t action).lookup path = t.lookup path := by
  have hbody : ∀ temp : Temp, path ≠ temp.body := fun temp h => hown (h ▸ ownPath_body temp)
  have htemp : ∀ temp : Temp, path ≠ temp.path := fun temp h => hown (h ▸ ownPath_temp temp)
  cases action with
  | mkdir key =>
    simp only [write]
    split
    next hnone => exact AList.lookup_insert_ne fun he => hshard _ (validHex_take key.2) he (he ▸ hnone)
    next => rfl
  | create temp now | append temp bytes now =>
    simp only [write]
    split
    all_goals first
      | rfl
      | exact AList.lookup_insert_ne (htemp temp)
  | rename temp =>
    simp only [write]
    split
    · rfl
    · rw [AList.lookup_insert_ne (hbody temp), AList.lookup_erase_ne (htemp temp)]
    · rw [AList.lookup_insert_ne (hbody temp), AList.lookup_erase_ne (htemp temp)]
    · rfl
  | removeTemp temp =>
    simp only [write]
    split
    · rfl
    · exact AList.lookup_erase_ne (htemp temp)
  | start | next | fail | lockHeld | crash | remove | skip | scan => rfl

/-! ## What a phase has listed -/

/-- The files a cleanup or a scan may still remove. -/
def Phase.listed : Phase → List Path
  | .cleaning rest => rest
  | .evicting pending | .up (some pending) => pending.2.map (·.body)
  | _ => []

/-- The marker is being written. -/
def Phase.marks : Phase → Bool
  | .creating | .writing _ => true
  | _ => false

theorem ownPath_staleAndLegacyAt {t : Tree} {path : Path} (h : path ∈ staleAndLegacyAt t) : OwnPath path := by
  obtain ⟨shard, name, content, modified, hin, hname, rfl⟩ := mem_staleAndLegacyAt.1 h
  rcases hname with hname | hname
  · obtain ⟨key, hkey⟩ := Option.isSome_iff_exists.1 hname
    obtain ⟨hv, hn⟩ := legacyKey_iff.1 hkey
    exact ⟨shard, key, name, hin.1, hv, hn.elim (fun h => .inr (.inl h)) (fun h => .inr (.inr (.inl h))), rfl⟩
  · obtain ⟨key, hkey⟩ := Option.isSome_iff_exists.1 hname
    obtain ⟨hv, hn⟩ := tempKey_iff.1 hkey
    exact ⟨shard, key, name, hin.1, hv, .inr (.inr (.inr hn)), rfl⟩

theorem ownPath_completedEntriesAt {t : Tree} {e : CompletedEntry} (h : e ∈ completedEntriesAt t) : OwnPath e.body := by
  obtain ⟨shard, content, hin, hv, hb, -⟩ := mem_completedEntriesAt.1 h
  exact ⟨shard, e.key, e.key, hin.1, hv, .inl rfl, hb⟩

/-- Everything a phase has listed is a file of the cache. -/
def Listed (s : Cache) : Prop := ∀ path ∈ s.phase.listed, OwnPath path

theorem ownPath_scanOf {max : Nat} {t : Tree} {pending : Pending} (h : scanOf max t = some pending) :
    ∀ e ∈ pending.2, OwnPath e.body := by
  intro e he
  rw [scanOf] at h
  split at h
  next => cases h
  next =>
    cases h
    exact ownPath_completedEntriesAt ((byAge_perm _).subset he)

/-- A removal of a scan takes one entry off its list, and at most that entry's file away. -/
theorem Pending.remove_cases {t t' : Tree} {pending pending' : Pending} {outcome : Removal}
    (h : pending.remove t outcome = some (t', pending')) :
    ∃ e, pending.2 = e :: pending'.2 ∧ (t' = t ∨ outcome.removes = true ∧ t' = t.erase e.body) := by
  obtain ⟨total, entries⟩ := pending
  cases entries with
  | nil => cases h
  | cons e rest =>
    cases h
    refine ⟨e, rfl, ?_⟩
    cases hr : outcome.removes with
    | true =>
      rw [evictEntry_removes rfl hr]
      exact .inr ⟨rfl, rfl⟩
    | false =>
      rw [evictEntry_fails rfl hr]
      exact .inl rfl

/-! ## The steps, one by one -/

/-- The phases whose next step can return an error. -/
def Phase.fallible : Phase → Bool
  | .reading | .scanning _ | .creating | .writing _ | .locking | .cleaning _ => true
  | _ => false

/-- What each action does, with all it requires. -/
inductive Rule (max : Nat) (t : Tree) : Action → Phase → Cache → Prop
  | start {error} : Rule max t .start (.stopped error) ⟨t, .reading⟩
  | marked {now} : fsRead t cacheMarker = .ok markerContents → Rule max t (.next now) .reading ⟨t, .locking⟩
  | foreign {now contents} : fsRead t cacheMarker = .ok contents → contents ≠ markerContents →
    Rule max t (.next now) .reading ⟨t, .stopped (some unownedCacheDirectory)⟩
  | unreadable {now error} : fsRead t cacheMarker = .error error → error.kind ≠ .notFound →
    Rule max t (.next now) .reading ⟨t, .stopped (some error)⟩
  | unmarked {now error} : fsRead t cacheMarker = .error error → error.kind = .notFound →
    Rule max t (.next now) .reading ⟨t, .scanning (readDir t [])⟩
  | looked {now entry rest} : ownedShard t entry = true →
    Rule max t (.next now) (.scanning (entry :: rest)) ⟨t, .scanning rest⟩
  | unowned {now entry rest} : ownedShard t entry = false →
    Rule max t (.next now) (.scanning (entry :: rest)) ⟨t, .stopped (some unownedCacheDirectory)⟩
  | ownable {now} : Rule max t (.next now) (.scanning []) ⟨t, .creating⟩
  | created {now} : Rule max t (.next now) .creating ⟨t.insert cacheMarker (.file [] now), .writing 0⟩
  | wrote {now n} : n < markerContents.length → Rule max t (.next now) (.writing n)
      ⟨t.insert cacheMarker (.file (markerContents.take (n + 1)) now), .writing (n + 1)⟩
  | written {now n} : markerContents.length ≤ n → Rule max t (.next now) (.writing n) ⟨t, .locking⟩
  | locked {now} : Rule max t (.next now) .locking ⟨t, .cleaning (staleAndLegacyAt t)⟩
  | fits {now} : scanOf max t = none → Rule max t (.next now) (.cleaning []) ⟨t, .up none⟩
  | cleaned {now pending} : scanOf max t = some pending →
    Rule max t (.next now) (.cleaning []) ⟨t, .evicting pending⟩
  | opened {now pending} : pending.ended max = true → Rule max t (.next now) (.evicting pending) ⟨t, .up none⟩
  | scanned {now pending} : pending.ended max = true → Rule max t (.next now) (.up (some pending)) ⟨t, .up none⟩
  | failed {error phase} : phase.fallible = true → Rule max t (.fail error) phase ⟨t, .stopped (some error)⟩
  | held : Rule max t .lockHeld .locking ⟨t, .stopped (some alreadyInUse)⟩
  | crashed {phase} : Rule max t .crash phase ⟨t, .stopped none⟩
  | clean {outcome path rest} : Rule max t (.remove outcome) (.cleaning (path :: rest))
      ⟨if outcome.removes then t.erase path else t, .cleaning rest⟩
  | evict {outcome pending t' pending'} : pending.ended max = false → pending.remove t outcome = some (t', pending') →
    Rule max t (.remove outcome) (.evicting pending) ⟨t', .evicting pending'⟩
  | evictUp {outcome pending t' pending'} : pending.ended max = false → pending.remove t outcome = some (t', pending') →
    Rule max t (.remove outcome) (.up (some pending)) ⟨t', .up (some pending')⟩
  | skipped {total e rest} : max < total →
    Rule max t .skip (.up (some (total, e :: rest))) ⟨t, .up (some (total, rest))⟩
  | listed : Rule max t .scan (.up none) ⟨t, .up (scanOf max t)⟩
  | publish {action scan} : Rule max t action (.up scan) ⟨write t action, .up scan⟩

theorem next_rule {max now : Nat} {t : Tree} {phase : Phase} {s' : Cache}
    (h : Cache.next max ⟨t, phase⟩ now phase = some s') : Rule max t (.next now) phase s' := by
  cases phase with
  | reading =>
    simp only [Cache.next] at h
    split at h
    next contents hread =>
      split at h
      next hc =>
        cases h
        exact .marked (hc ▸ hread)
      next hc =>
        cases h
        exact .foreign hread hc
    next error hread =>
      split at h
      next hk =>
        cases h
        exact .unmarked hread hk
      next hk =>
        cases h
        exact .unreadable hread hk
  | scanning rest =>
    cases rest with
    | nil =>
      cases h
      exact .ownable
    | cons entry rest =>
      simp only [Cache.next] at h
      split at h
      next ho =>
        cases h
        exact .looked ho
      next ho =>
        cases h
        exact .unowned (Bool.eq_false_iff.2 ho)
  | creating =>
    cases h
    exact .created
  | writing n =>
    simp only [Cache.next] at h
    split at h
    next hn =>
      cases h
      exact .wrote hn
    next hn =>
      cases h
      exact .written (Nat.le_of_not_lt hn)
  | locking =>
    cases h
    exact .locked
  | cleaning rest =>
    cases rest with
    | nil =>
      simp only [Cache.next] at h
      split at h
      next hs =>
        cases h
        exact .fits hs
      next pending hs =>
        cases h
        exact .cleaned hs
    | cons => cases h
  | evicting pending =>
    simp only [Cache.next] at h
    split at h
    next he =>
      cases h
      exact .opened he
    next => cases h
  | up scan =>
    cases scan with
    | none => cases h
    | some pending =>
      simp only [Cache.next] at h
      split at h
      next he =>
        cases h
        exact .scanned he
      next => cases h
  | stopped => cases h

theorem remove_rule {max : Nat} {t : Tree} {phase : Phase} {outcome : Removal} {s' : Cache}
    (h : Cache.remove max ⟨t, phase⟩ outcome phase = some s') : Rule max t (.remove outcome) phase s' := by
  cases phase with
  | cleaning rest =>
    cases rest with
    | nil => cases h
    | cons path rest =>
      cases h
      exact .clean
  | evicting pending =>
    simp only [Cache.remove] at h
    split at h
    next => cases h
    next he =>
      obtain ⟨⟨t', pending'⟩, hr, hs⟩ := Option.map_eq_some_iff.1 h
      cases hs
      exact .evict (Bool.eq_false_iff.2 he) hr
  | up scan =>
    cases scan with
    | none => cases h
    | some pending =>
      simp only [Cache.remove] at h
      split at h
      next => cases h
      next he =>
        obtain ⟨⟨t', pending'⟩, hr, hs⟩ := Option.map_eq_some_iff.1 h
        cases hs
        exact .evictUp (Bool.eq_false_iff.2 he) hr
  | reading | scanning | creating | writing | locking | stopped => cases h

theorem step_rule {max : Nat} {a : Action} {s s' : Cache} (h : step max a s = some s') :
    Rule max s.tree a s.phase s' := by
  obtain ⟨t, phase⟩ := s
  cases a with
  | start =>
    cases phase with
    | stopped =>
      cases h
      exact .start
    | reading | scanning | creating | writing | locking | cleaning | evicting | up => cases h
  | crash =>
    cases h
    exact .crashed
  | lockHeld =>
    cases phase with
    | locking =>
      cases h
      exact .held
    | reading | scanning | creating | writing | stopped | cleaning | evicting | up => cases h
  | fail error =>
    cases phase with
    | reading | scanning | creating | writing | locking | cleaning =>
      cases h
      exact .failed rfl
    | stopped | evicting | up => cases h
  | next now => exact next_rule h
  | remove outcome => exact remove_rule h
  | skip =>
    cases phase with
    | up scan =>
      rcases scan with _ | ⟨total, _ | ⟨e, rest⟩⟩
      · cases h
      · cases h
      · simp only [step] at h
        split at h
        next => cases h
        next ht =>
          cases h
          exact .skipped (Nat.lt_of_not_le ht)
    | reading | scanning | creating | writing | locking | stopped | cleaning | evicting => cases h
  | scan =>
    cases phase with
    | up scan =>
      cases scan with
      | none =>
        cases h
        exact .listed
      | some => cases h
    | reading | scanning | creating | writing | locking | stopped | cleaning | evicting => cases h
  | mkdir | create | append | rename | removeTemp =>
    cases phase with
    | up =>
      cases h
      exact .publish
    | reading | scanning | creating | writing | locking | stopped | cleaning | evicting => cases h

/-! ## What every step keeps -/

section
variable {max : Nat} {t : Tree} {a : Action} {phase : Phase} {s' : Cache}

theorem Rule.listed_own (h : Rule max t a phase s') (hl : ∀ path ∈ phase.listed, OwnPath path) : Listed s' := by
  cases h with
  | locked => exact fun path hp => ownPath_staleAndLegacyAt hp
  | cleaned hs =>
    intro path hp
    obtain ⟨e, he, rfl⟩ := List.mem_map.1 hp
    exact ownPath_scanOf hs e he
  | listed =>
    intro path hp
    cases hs : scanOf max t with
    | none =>
      rw [hs] at hp
      cases hp
    | some pending =>
      rw [hs] at hp
      obtain ⟨e, he, rfl⟩ := List.mem_map.1 hp
      exact ownPath_scanOf hs e he
  | clean => exact fun path hp => hl path (List.mem_cons_of_mem _ hp)
  | evict _ hr | evictUp _ hr =>
    obtain ⟨e, he, -⟩ := Pending.remove_cases hr
    intro path hp
    refine hl path ?_
    simp only [Phase.listed, he, List.map_cons]
    exact List.mem_cons_of_mem _ hp
  | skipped => exact fun path hp => hl path (List.mem_cons_of_mem _ hp)
  | publish => exact hl
  | start | marked | foreign | unreadable | unmarked | looked | unowned | ownable | created | wrote | written | fits
  | opened | scanned | failed | held | crashed => exact fun _ hp => by cases hp

/-- A path that is no file of the cache, no shard directory still to be made
and, during the claim, not the marker is left alone. -/
theorem Rule.frame (h : Rule max t a phase s') (hl : ∀ path ∈ phase.listed, OwnPath path) {path : Path}
    (hown : ¬ OwnPath path)
    (hshard : ∀ shard, validHex shard 2 = true → path = [.text shard] → t.lookup path ≠ none)
    (hmarker : path ≠ cacheMarker ∨ phase.marks = false) : s'.tree.lookup path = t.lookup path := by
  have herase : ∀ p ∈ phase.listed, (t.erase p).lookup path = t.lookup path := by
    intro p hp
    exact AList.lookup_erase_ne fun he => hown (he ▸ hl p hp)
  cases h with
  | created | wrote =>
    rcases hmarker with hne | hm
    · exact AList.lookup_insert_ne hne
    · cases hm
  | clean =>
    show (if _ then _ else _ : Tree).lookup path = _
    split
    · exact herase _ (List.mem_cons_self ..)
    · rfl
  | evict _ hr | evictUp _ hr =>
    obtain ⟨e, he, rfl | ⟨-, rfl⟩⟩ := Pending.remove_cases hr
    · rfl
    · refine herase _ ?_
      simp only [Phase.listed, he, List.map_cons]
      exact List.mem_cons_self ..
  | publish => exact write_lookup hown hshard
  | start | marked | foreign | unreadable | unmarked | looked | unowned | ownable | written | locked | fits | cleaned
  | opened | scanned | failed | held | crashed | skipped | listed => rfl

/-- Outside the claim no step touches the marker. -/
theorem Rule.marker (h : Rule max t a phase s') (hl : ∀ path ∈ phase.listed, OwnPath path)
    (hm : phase.marks = false) : fsRead s'.tree cacheMarker = fsRead t cacheMarker := by
  have hown : ¬ OwnPath cacheMarker := fun h => h.ne_marker rfl
  rw [fsRead, fsRead, h.frame hl hown (fun shard hv he => absurd he.symm (shard_ne_marker hv)) (.inr hm)]

end

theorem run_listed {max : Nat} {ok : Cache → Action → Prop} {t : Tree} {s : Cache}
    (h : Run (step max) ok (· = ⟨t, .stopped none⟩) s) : Listed s :=
  h.invariant Listed (fun s he => by rw [he]; exact fun _ hp => by cases hp)
    (fun _ _ _ hl _ hs => (step_rule hs).listed_own hl)

/-! ## The claim -/

/-- `claim_cache_directory` takes the directory for its own, or makes it so. -/
def Accepts (t : Tree) : Prop := ∃ fresh, claimScan t = .ok fresh

theorem accepts_of_marker {t : Tree} (h : fsRead t cacheMarker = .ok markerContents) : Accepts t :=
  ⟨false, by rw [claimScan, h]; exact if_pos rfl⟩

theorem not_accepts_of_marker {t : Tree} {contents : Bytes} (h : fsRead t cacheMarker = .ok contents)
    (hne : contents ≠ markerContents) : ¬ Accepts t := by
  rintro ⟨fresh, hf⟩
  rw [claimScan, h] at hf
  simp only [if_neg hne] at hf
  cases hf

theorem Accepts.cases {t : Tree} (h : Accepts t) : fsRead t cacheMarker = .ok markerContents ∨
    ∃ error, fsRead t cacheMarker = .error error ∧ error.kind = .notFound ∧
      ∀ entry ∈ readDir t [], ownedShard t entry = true := by
  obtain ⟨fresh, hf⟩ := h
  rw [claimScan] at hf
  split at hf
  next contents hread =>
    split at hf
    next hc => exact .inl (hc ▸ hread)
    next => cases hf
  next error hread =>
    split at hf
    next hk =>
      split at hf
      next hall => exact .inr ⟨error, hread, hk, List.all_eq_true.1 hall⟩
      next => cases hf
    next => cases hf

/-- A start on a directory it accepts, and the store after it, when no stop tears the marker. -/
def Recoverable (s : Cache) : Prop :=
  match s.phase with
  | .stopped _ | .reading | .creating => Accepts s.tree
  | .scanning rest => Accepts s.tree ∧ ∀ entry ∈ rest, ownedShard s.tree entry = true
  | .writing n => n ≤ markerContents.length ∧ fsRead s.tree cacheMarker = .ok (markerContents.take n)
  | .locking | .cleaning _ | .evicting _ | .up _ => fsRead s.tree cacheMarker = .ok markerContents

/-- The start stops after the marker's creation and before its last byte. -/
def Torn (s : Cache) (a : Action) : Prop :=
  (∃ n, n < markerContents.length ∧ s.phase = .writing n) ∧ (a = .crash ∨ ∃ error, a = .fail error)

theorem fsRead_insert (t : Tree) (path : Path) (content : Bytes) (now : Nat) :
    fsRead (t.insert path (.file content now)) path = .ok content := by
  rw [fsRead, AList.lookup_insert]

theorem Recoverable.accepts {s : Cache} (h : Recoverable s)
    (hw : ∀ n, s.phase = .writing n → markerContents.length ≤ n) : Accepts s.tree := by
  obtain ⟨t, phase⟩ := s
  cases phase with
  | stopped | reading | creating => exact h
  | scanning => exact h.1
  | writing n =>
    refine accepts_of_marker ?_
    rw [h.2, List.take_of_length_le (hw n rfl)]
  | locking | cleaning | evicting | up => exact accepts_of_marker h

theorem recoverable_step {max : Nat} {s s' : Cache} {a : Action} (hl : Listed s) (hi : Recoverable s)
    (hw : ¬ Torn s a) (h : step max a s = some s') : Recoverable s' := by
  have hr := step_rule h
  have hmarker := hr.marker hl
  have hstop : (a = .crash ∨ ∃ error, a = .fail error) → Accepts s.tree := by
    intro ha
    refine hi.accepts fun n hn => ?_
    by_contra hlt
    exact hw ⟨⟨n, Nat.lt_of_not_le hlt, hn⟩, ha⟩
  obtain ⟨t, phase⟩ := s
  cases hr with
  | start => exact hi
  | marked hread => exact hread
  | foreign hread hne => exact absurd hi (not_accepts_of_marker hread hne)
  | unreadable hread hk =>
    rcases Accepts.cases hi with hm | ⟨error, he, hkind, -⟩
    · rw [hread] at hm
      cases hm
    · rw [hread] at he
      cases he
      exact absurd hkind hk
  | unmarked hread hk =>
    refine ⟨hi, ?_⟩
    rcases Accepts.cases hi with hm | ⟨error, -, -, hall⟩
    · rw [hread] at hm
      cases hm
    · exact hall
  | looked ho => exact ⟨hi.1, fun entry he => hi.2 entry (List.mem_cons_of_mem _ he)⟩
  | unowned ho =>
    have := hi.2 _ (List.mem_cons_self ..)
    rw [ho] at this
    cases this
  | ownable => exact hi.1
  | created => exact ⟨Nat.zero_le _, fsRead_insert ..⟩
  | wrote hn => exact ⟨hn, fsRead_insert ..⟩
  | written hn =>
    have := hi.2
    rwa [List.take_of_length_le hn] at this
  | failed => exact hstop (.inr ⟨_, rfl⟩)
  | crashed => exact hstop (.inl rfl)
  | held => exact accepts_of_marker hi
  | clean | evict | evictUp | publish => exact (hmarker rfl).trans hi
  | locked | fits | cleaned | opened | scanned | skipped | listed => exact hi

/-- A torn marker stays. -/
def Refused (s : Cache) : Prop :=
  ((∃ error, s.phase = .stopped error) ∨ s.phase = .reading) ∧
    ∃ contents, fsRead s.tree cacheMarker = .ok contents ∧ contents ≠ markerContents

theorem refused_step {max : Nat} {s s' : Cache} {a : Action} (hi : Refused s) (h : step max a s = some s') :
    Refused s' := by
  have hr := step_rule h
  obtain ⟨t, phase⟩ := s
  obtain ⟨⟨error, hp⟩ | hp, contents, hread, hne⟩ := hi
  · cases hp
    cases hr with
    | start => exact ⟨.inr rfl, contents, hread, hne⟩
    | crashed => exact ⟨.inl ⟨_, rfl⟩, contents, hread, hne⟩
    | failed hf => cases hf
  · cases hp
    cases hr with
    | marked hm =>
      rw [hread] at hm
      cases hm
      exact absurd rfl hne
    | unreadable hm | unmarked hm =>
      rw [hread] at hm
      cases hm
    | foreign | crashed | failed => exact ⟨.inl ⟨_, rfl⟩, contents, hread, hne⟩

theorem torn_refused {max : Nat} {s s' : Cache} {a : Action} (hi : Recoverable s) (hw : Torn s a)
    (h : step max a s = some s') : Refused s' := by
  have hr := step_rule h
  obtain ⟨t, phase⟩ := s
  obtain ⟨⟨n, hn, hp⟩, ha⟩ := hw
  cases hp
  have hne : markerContents.take n ≠ markerContents := by
    intro he
    have := congrArg List.length he
    rw [List.length_take] at this
    omega
  rcases ha with rfl | ⟨error, rfl⟩
  · cases hr
    exact ⟨.inl ⟨_, rfl⟩, _, hi.2, hne⟩
  · cases hr
    exact ⟨.inl ⟨_, rfl⟩, _, hi.2, hne⟩

/-! ## A start that nothing stops -/

/-- Neither an error nor the end of the process. -/
def Action.calm : Action → Bool
  | .start | .next _ | .remove .done => true
  | _ => false

/-- A start from here, with no failure, comes to a running store. -/
abbrev Reaches (max : Nat) (s : Cache) : Cache → Prop := Run (step max) (fun _ a => a.calm = true) (· = s)

section
variable {max : Nat}

theorem Reaches.trans {s s' s'' : Cache} (h : Reaches max s s') (h' : Reaches max s' s'') : Reaches max s s'' :=
  h'.invariant (Reaches max s) (by rintro _ rfl; exact h) (fun _ _ _ hr ho hs => .next hr ho hs)

theorem Reaches.one {s s' : Cache} (a : Action) (ha : a.calm = true) (h : step max a s = some s') :
    Reaches max s s' := .next (.start rfl) ha h

theorem reaches_creating {t : Tree} {rest : List (OsName × Node)}
    (h : ∀ entry ∈ rest, ownedShard t entry = true) : Reaches max ⟨t, .scanning rest⟩ ⟨t, .creating⟩ := by
  induction rest with
  | nil => exact .one (.next 0) rfl rfl
  | cons entry rest ih =>
    refine Reaches.trans (.one (.next 0) rfl ?_) (ih fun e he => h e (List.mem_cons_of_mem _ he))
    exact if_pos (h entry (List.mem_cons_self ..))

variable (max) in
theorem reaches_written {n k : Nat} (h : n + k = markerContents.length) (t : Tree) :
    ∃ t', Reaches max ⟨t, .writing n⟩ ⟨t', .locking⟩ := by
  induction k generalizing n t with
  | zero => exact ⟨t, .one (.next 0) rfl (if_neg (by omega))⟩
  | succ k ih =>
    obtain ⟨t', ht'⟩ := ih (n := n + 1) (by omega) (t.insert cacheMarker (.file (markerContents.take (n + 1)) 0))
    exact ⟨t', Reaches.trans (.one (.next 0) rfl (if_pos (by omega))) ht'⟩

variable (max) in
theorem reaches_cleaned (rest : List Path) (t : Tree) :
    ∃ t', Reaches max ⟨t, .cleaning rest⟩ ⟨t', .cleaning []⟩ := by
  induction rest generalizing t with
  | nil => exact ⟨t, .start rfl⟩
  | cons path rest ih =>
    obtain ⟨t', ht'⟩ := ih (t.erase path)
    exact ⟨t', Reaches.trans (.one (.remove .done) rfl rfl) ht'⟩

theorem reaches_evicted (rest : List CompletedEntry) (total : Nat) (t : Tree) :
    ∃ t', Reaches max ⟨t, .evicting (total, rest)⟩ ⟨t', .up none⟩ := by
  induction rest generalizing total t with
  | nil => exact ⟨t, .one (.next 0) rfl (if_pos (by simp [Pending.ended]))⟩
  | cons e rest ih =>
    by_cases hend : Pending.ended max (total, e :: rest) = true
    · exact ⟨t, .one (.next 0) rfl (if_pos hend)⟩
    · obtain ⟨t', ht'⟩ := ih (total - e.size) (t.erase e.body)
      exact ⟨t', Reaches.trans (.one (.remove .done) rfl (if_neg hend)) ht'⟩

variable (max) in
theorem reaches_up (t : Tree) : ∃ t', Reaches max ⟨t, .locking⟩ ⟨t', .up none⟩ := by
  obtain ⟨t', hclean⟩ := reaches_cleaned max (staleAndLegacyAt t) t
  have hlock : Reaches max ⟨t, .locking⟩ ⟨t', .cleaning []⟩ := Reaches.trans (.one (.next 0) rfl rfl) hclean
  cases hs : scanOf max t' with
  | none => exact ⟨t', hlock.trans (.one (.next 0) rfl (by simp only [step, Cache.next, hs]; rfl))⟩
  | some pending =>
    obtain ⟨t'', hevict⟩ := reaches_evicted pending.2 pending.1 t'
    refine ⟨t'', (hlock.trans (.one (.next 0) rfl ?_)).trans hevict⟩
    simp only [step, Cache.next, hs]
    rfl

/-- On a directory that is accepted a start that nothing stops opens the store. -/
theorem Accepts.opens {t : Tree} (h : Accepts t) (error : Option IoError) :
    ∃ t', Reaches max ⟨t, .stopped error⟩ ⟨t', .up none⟩ := by
  have hstart : Reaches max ⟨t, .stopped error⟩ ⟨t, .reading⟩ := .one .start rfl rfl
  rcases h.cases with hm | ⟨e, hread, hk, hall⟩
  · obtain ⟨t', hup⟩ := reaches_up max t
    refine ⟨t', (hstart.trans (.one (.next 0) rfl ?_)).trans hup⟩
    simp only [step, Cache.next, hm]
    rfl
  · have hscan : Reaches max ⟨t, .reading⟩ ⟨t, .scanning (readDir t [])⟩ := by
      refine .one (.next 0) rfl ?_
      simp only [step, Cache.next, hread]
      exact if_pos hk
    obtain ⟨t', hwritten⟩ := reaches_written max (Nat.zero_add _) (t.insert cacheMarker (.file [] 0))
    obtain ⟨t'', hup⟩ := reaches_up max t'
    exact ⟨t'', ((hstart.trans hscan).trans (reaches_creating hall)).trans
      ((Reaches.one (.next 0) rfl rfl).trans (hwritten.trans hup))⟩

/-- **Claiming a directory.** Wherever the starts on a directory that is
accepted stop, it is accepted again and the next start can open it, when no
stop falls between the marker's creation and its last byte; after one that does
it is accepted no more. -/
theorem claim_recovers {t : Tree} (ht : Accepts t) :
    (∀ s error, Run (step max) (fun s a => ¬ Torn s a) (· = ⟨t, .stopped none⟩) s → s.phase = .stopped error →
      Accepts s.tree ∧ ∃ t', Reaches max s ⟨t', .up none⟩) ∧
    ∀ s a s' s'', Run (step max) Any (· = ⟨t, .stopped none⟩) s → Torn s a → step max a s = some s' →
      Run (step max) Any (· = s') s'' → ¬ Accepts s''.tree := by
  refine ⟨?_, ?_⟩
  · intro s error h hp
    have hi : Recoverable s := by
      refine h.invariant_of Listed Recoverable run_listed (fun s he => he ▸ ht) ?_
      exact fun _ _ _ hl _ hi hw hs => recoverable_step hl hi hw hs
    have ha := hi.accepts fun n hn => by rw [hp] at hn; cases hn
    obtain ⟨t', phase⟩ := s
    cases hp
    exact ⟨ha, ha.opens error⟩
  · intro s a s' s'' h hw hs h'
    have hi : Recoverable s ∨ Refused s := by
      refine h.invariant_of Listed (fun s => Recoverable s ∨ Refused s) run_listed (fun s he => .inl (he ▸ ht)) ?_
      rintro s a s' hl - (hi | hi) - hs
      · by_cases hw : Torn s a
        · exact .inr (torn_refused hi hw hs)
        · exact .inl (recoverable_step hl hi hw hs)
      · exact .inr (refused_step hi hs)
    have hr : Refused s' := by
      rcases hi with hi | ⟨⟨error, hp⟩ | hp, -⟩
      · exact torn_refused hi hw hs
      · obtain ⟨⟨n, -, hn⟩, -⟩ := hw
        rw [hp] at hn
        cases hn
      · obtain ⟨⟨n, -, hn⟩, -⟩ := hw
        rw [hp] at hn
        cases hn
    obtain ⟨-, contents, hread, hne⟩ := h'.invariant Refused (by rintro _ rfl; exact hr)
      (fun _ _ _ hi _ hs => refused_step hi hs)
    exact not_accepts_of_marker hread hne

/-- A directory without a marker that holds a shard directory with one entry. -/
def unmarkedTree : Tree :=
  treeOf [([.text "aa".toList], .dir), ([.text "aa".toList, .text (keyOf '1')], .file [1, 2] 30)]

theorem accepts_unmarkedTree : Accepts unmarkedTree := by
  have h : (claimScan unmarkedTree).toOption.isSome = true := by decide
  cases hc : claimScan unmarkedTree with
  | ok fresh => exact ⟨fresh, hc⟩
  | error e =>
    rw [hc] at h
    cases h

/-- The process has ended. -/
def Phase.ended : Phase → Bool
  | .stopped none => true
  | _ => false

/-- The marker is not open. -/
def Phase.closed : Phase → Bool
  | .writing _ => false
  | _ => true

theorem Phase.ended_iff {phase : Phase} : phase.ended = true ↔ phase = .stopped none := by
  rcases phase with (_ | _) | _ | _ | _ | _ | _ | _ | _ | _ <;> simp [Phase.ended]

theorem not_torn_of_closed {s : Cache} {a : Action} (h : s.phase.closed = true) : ¬ Torn s a := by
  rintro ⟨⟨n, -, hn⟩, -⟩
  rw [hn] at h
  cases h

/-- A stop before the marker's creation is one the directory recovers from. -/
theorem claim_recovers_unmarked :
    ∃ s, s.phase = .stopped none ∧ Accepts s.tree ∧ ∃ t', Reaches 8 s ⟨t', .up none⟩ := by
  have hrun : (exec (step 8) [.start, .next 0, .next 0, .next 0, .crash] ⟨unmarkedTree, .stopped none⟩).any
      (fun s => s.phase.ended) = true := by decide
  have hok : allowed (step 8) (fun s _ => s.phase.closed) [.start, .next 0, .next 0, .next 0, .crash]
      ⟨unmarkedTree, .stopped none⟩ = true := by decide
  obtain ⟨s, hs, hp⟩ := (Option.any_eq_true _ _).1 hrun
  have hend := Phase.ended_iff.1 hp
  have hreach : Run (step 8) (fun s a => ¬ Torn s a) (· = ⟨unmarkedTree, .stopped none⟩) s :=
    Run.exec_allowed (fun _ _ => not_torn_of_closed) (.start rfl) hok hs
  exact ⟨s, hend, (claim_recovers accepts_unmarkedTree).1 s none hreach hend⟩

/-- A stop right after the marker's creation is not: the next start refuses the directory. -/
theorem claim_torn :
    ¬ ∀ (max : Nat) (t : Tree), Accepts t → ∀ s error, Run (step max) Any (· = ⟨t, .stopped none⟩) s →
      s.phase = .stopped error → Accepts s.tree := by
  intro h
  have hrun : (exec (step 8) [.start, .next 0, .next 0, .next 0, .next 0, .crash] ⟨unmarkedTree, .stopped none⟩).any
      (fun s => s.phase.ended && !(claimScan s.tree).toOption.isSome) = true := by decide
  obtain ⟨s, hs, hp⟩ := (Option.any_eq_true _ _).1 hrun
  rw [Bool.and_eq_true, Bool.not_eq_true'] at hp
  obtain ⟨fresh, hf⟩ := h 8 unmarkedTree accepts_unmarkedTree s none (.exec (.start rfl) hs) (Phase.ended_iff.1 hp.1)
  rw [hf] at hp
  cases hp.2

end

end Vampire.CacheDirectory
