/-
Whose files the store removes: over any tree and any run, only those of its
own names, directly inside their shard directory. What `paths_for` and
`unique_temp_path` generate is recognised as a temp name and as nothing else,
so a start that nothing stops leaves no temp and no legacy file of the run
before it, and leaves the rest alone.

The start's steps come to `startup`: the claim, the cleanup and one eviction
scan, one after the other.
-/
import Vampire.Startup

namespace Vampire.CacheDirectory

open Lib

/-- `cleanup_stale_and_legacy`, when every removal succeeds. -/
def cleanupStaleAndLegacy (t : Tree) : Tree := (staleAndLegacyAt t).foldl (fun t path => t.erase path) t

/-- The eviction scan of a start: nothing is pinned, every removal succeeds. -/
def evictToBound (max : Nat) (t : Tree) : Eviction := evictFilesToBound max (fun _ => false) (fun _ => .done) t

/-- `CacheStore::new` on a tree, when nothing stops it. -/
def startup (max now : Nat) (t : Tree) : IoResult Tree := do
  let t ← claimCacheDirectory t now
  return (evictToBound max (cleanupStaleAndLegacy t)).tree

/-! ## Cleaning up -/

theorem lookup_foldl_erase (paths : List Path) (t : Tree) (path : Path) :
    (paths.foldl (fun t path => t.erase path) t).lookup path = if path ∈ paths then none else t.lookup path := by
  induction paths generalizing t with
  | nil => rfl
  | cons p paths ih =>
    rw [List.foldl_cons, ih]
    by_cases hp : path = p
    · subst hp
      simp [AList.lookup_erase]
    · rw [AList.lookup_erase_ne hp]
      simp [hp]

theorem lookup_cleanup {t : Tree} {path : Path} (h : path ∉ staleAndLegacyAt t) :
    (cleanupStaleAndLegacy t).lookup path = t.lookup path := by
  rw [cleanupStaleAndLegacy, lookup_foldl_erase, if_neg h]

theorem lookup_cleanup_some {t : Tree} {path : Path} {node : Node}
    (h : (cleanupStaleAndLegacy t).lookup path = some node) : t.lookup path = some node ∧ path ∉ staleAndLegacyAt t := by
  rw [cleanupStaleAndLegacy, lookup_foldl_erase] at h
  split at h
  next => cases h
  next hp => exact ⟨h, hp⟩

/-- A tree that has nothing the cleaned one has not has nothing to clean up. -/
theorem staleAndLegacyAt_eq_nil {t t' : Tree}
    (h : ∀ path node, t'.lookup path = some node → (cleanupStaleAndLegacy t).lookup path = some node) :
    staleAndLegacyAt t' = [] := by
  rw [List.eq_nil_iff_forall_not_mem]
  intro path hp
  obtain ⟨shard, name, content, modified, ⟨hv, hdir, hfile⟩, hname, rfl⟩ := mem_staleAndLegacyAt.1 hp
  obtain ⟨hfile', hnot⟩ := lookup_cleanup_some (h _ _ hfile)
  obtain ⟨hdir', -⟩ := lookup_cleanup_some (h _ _ hdir)
  exact hnot (mem_staleAndLegacyAt.2 ⟨shard, name, content, modified, ⟨hv, hdir', hfile'⟩, hname, rfl⟩)

/-! ## Evicting -/

section
variable {max : Nat}

/-- The loop when nothing is pinned and every removal succeeds. -/
abbrev evictAll (max : Nat) : Eviction → List CompletedEntry → Eviction :=
  evictLoop max (fun _ => false) fun _ => .done

theorem evictAll_cons (s : Eviction) (e : CompletedEntry) (rest : List CompletedEntry) :
    evictAll max s (e :: rest) =
      if s.total ≤ max then s else evictAll max ⟨s.tree.erase e.body, s.total - e.size, s.attempts ++ [e]⟩ rest := by
  rw [evictAll, evictLoop, evictEntry_removes rfl rfl]

/-- A file is there after the loop, or was removed by it. -/
theorem evictAll_lookup (rest : List CompletedEntry) (s : Eviction) (path : Path) :
    (evictAll max s rest).tree.lookup path = s.tree.lookup path ∨
      (evictAll max s rest).tree.lookup path = none ∧ ∃ e ∈ (evictAll max s rest).attempts, path = e.body := by
  induction rest generalizing s with
  | nil => exact .inl rfl
  | cons e rest ih =>
    rw [evictAll_cons]
    split
    next => exact .inl rfl
    next =>
      obtain ⟨more, hmore, -⟩ := evictLoop_attempts max (fun _ => false) (fun _ => .done)
        ⟨s.tree.erase e.body, s.total - e.size, s.attempts ++ [e]⟩ rest
      by_cases hp : path = e.body
      · right
        refine ⟨?_, e, by rw [hmore]; simp, hp⟩
        rcases ih ⟨s.tree.erase e.body, s.total - e.size, s.attempts ++ [e]⟩ with h | h
        · rw [h, hp]
          exact AList.lookup_erase ..
        · exact h.1
      · rcases ih ⟨s.tree.erase e.body, s.total - e.size, s.attempts ++ [e]⟩ with h | h
        · rw [h]
          exact .inl (AList.lookup_erase_ne hp)
        · exact .inr h

/-- What the loop removes does not depend on what it removed before. -/
theorem evictAll_attempts (rest : List CompletedEntry) (t : Tree) (total : Nat) (attempts attempts' : List CompletedEntry) :
    (evictAll max ⟨t, total, attempts⟩ rest).tree = (evictAll max ⟨t, total, attempts'⟩ rest).tree := by
  induction rest generalizing t total attempts attempts' with
  | nil => rfl
  | cons e rest ih =>
    rw [evictAll_cons, evictAll_cons]
    split
    next => rfl
    next => exact ih ..

/-! ## A start comes to `startup` -/

/-- The tree a start that nothing stops will leave, whatever is left of its loop. -/
def OnTrack (max : Nat) (t : Tree) (s : Cache) : Prop :=
  match s.phase with
  | .stopped _ | .reading => s.tree = t
  | .scanning rest => s.tree = t ∧ (∃ error, fsRead t cacheMarker = .error error ∧ error.kind = .notFound) ∧
      ∀ entry ∈ readDir t [], entry ∈ rest ∨ ownedShard t entry = true
  | .creating => s.tree = t ∧ claimScan t = .ok true
  | .writing n => claimScan t = .ok true ∧ ∃ now, s.tree = t.insert cacheMarker (.file (markerContents.take n) now)
  | .locking => ∃ now, claimCacheDirectory t now = .ok s.tree
  | .cleaning rest => ∃ now marked done, claimCacheDirectory t now = .ok marked ∧
      staleAndLegacyAt marked = done ++ rest ∧ s.tree = done.foldl (fun t path => t.erase path) marked
  | .evicting (total, rest) => ∃ now, startup max now t = .ok (evictAll max ⟨s.tree, total, []⟩ rest).tree
  | .up none => ∃ now, startup max now t = .ok s.tree
  | .up (some _) => False

theorem claimScan_unmarked {t : Tree} {error : IoError} (hread : fsRead t cacheMarker = .error error)
    (hk : error.kind = .notFound) (hall : ∀ entry ∈ readDir t [], ownedShard t entry = true) :
    claimScan t = .ok true := by
  rw [claimScan, hread]
  simp only [if_pos hk]
  exact if_pos (List.all_eq_true.2 hall)

theorem startup_eq {now : Nat} {t marked : Tree} (h : claimCacheDirectory t now = .ok marked) :
    startup max now t = .ok (evictToBound max (cleanupStaleAndLegacy marked)).tree := by
  rw [startup, h]
  rfl

theorem evictToBound_eq {t : Tree} : (evictToBound max t).tree =
    match scanOf max t with
    | none => t
    | some (total, rest) => (evictAll max ⟨t, total, []⟩ rest).tree := by
  rw [evictToBound, evictFilesToBound, scanOf]
  show (if sizes (completedEntriesAt t) % 2 ^ 64 ≤ max then _ else _ : Eviction).tree = _
  split <;> rfl

theorem Action.remove_calm {outcome : Removal} (h : (Action.remove outcome).calm = true) : outcome = .done := by
  cases outcome with
  | done => rfl
  | gone | failed => cases h

theorem write_calm {t : Tree} {a : Action} (h : a.calm = true) : write t a = t := by
  cases a with
  | start | next | remove => rfl
  | fail | lockHeld | crash | skip | scan | mkdir | create | append | rename | removeTemp => cases h

theorem onTrack_step {t : Tree} {s s' : Cache} {a : Action} (hi : OnTrack max t s) (ha : a.calm = true)
    (h : step max a s = some s') : OnTrack max t s' := by
  have hr := step_rule h
  obtain ⟨tree, phase⟩ := s
  cases hr with
  | start => exact hi
  | marked hread =>
    cases hi
    refine ⟨0, ?_⟩
    rw [claimCacheDirectory, claimScan, hread]
    simp only [if_true]
    rfl
  | foreign | unreadable => exact hi
  | unmarked hread hk =>
    cases hi
    exact ⟨rfl, ⟨_, hread, hk⟩, fun entry he => .inl he⟩
  | @looked now entry rest ho =>
    obtain ⟨rfl, herror, hall⟩ := hi
    refine ⟨rfl, herror, fun x hx => ?_⟩
    rcases hall x hx with hx | hx
    · rcases List.mem_cons.1 hx with rfl | hx
      · exact .inr ho
      · exact .inl hx
    · exact .inr hx
  | unowned => exact hi.1
  | ownable =>
    obtain ⟨rfl, ⟨error, hread, hk⟩, hall⟩ := hi
    exact ⟨rfl, claimScan_unmarked hread hk fun entry he => (hall entry he).resolve_left (by simp)⟩
  | created =>
    obtain ⟨rfl, hscan⟩ := hi
    exact ⟨hscan, _, rfl⟩
  | wrote hn =>
    obtain ⟨hscan, now, rfl⟩ := hi
    exact ⟨hscan, _, AList.insert_insert _⟩
  | written hn =>
    obtain ⟨hscan, now, rfl⟩ := hi
    refine ⟨now, ?_⟩
    rw [claimCacheDirectory, hscan, List.take_of_length_le hn]
    rfl
  | locked =>
    obtain ⟨now, hclaim⟩ := hi
    exact ⟨now, tree, [], hclaim, rfl, rfl⟩
  | fits hs =>
    obtain ⟨now, marked, done, hclaim, hlist, rfl⟩ := hi
    rw [List.append_nil] at hlist
    refine ⟨now, ?_⟩
    rw [startup_eq hclaim, evictToBound_eq, cleanupStaleAndLegacy, hlist, hs]
  | cleaned hs =>
    obtain ⟨now, marked, done, hclaim, hlist, rfl⟩ := hi
    rw [List.append_nil] at hlist
    refine ⟨now, ?_⟩
    rw [startup_eq hclaim, evictToBound_eq, cleanupStaleAndLegacy, hlist, hs]
  | @opened now pending hend =>
    obtain ⟨now, hs⟩ := hi
    obtain ⟨total, rest⟩ := pending
    have hloop : evictAll max ⟨tree, total, []⟩ rest = ⟨tree, total, []⟩ := by
      rcases Bool.or_eq_true_iff.1 hend with hle | hnil
      · exact evictLoop_of_le (of_decide_eq_true hle) rest
      · rw [show rest = [] from List.isEmpty_iff.1 hnil]
        rfl
    exact ⟨now, hs.trans (congrArg (fun s : Eviction => (Except.ok s.tree : IoResult Tree)) hloop)⟩
  | @clean _ path rest =>
    obtain ⟨now, marked, done, hclaim, hlist, rfl⟩ := hi
    cases Action.remove_calm ha
    refine ⟨now, marked, done ++ [path], hclaim, ?_, ?_⟩
    · rw [hlist, List.append_assoc]
      rfl
    · rw [List.foldl_append]
      rfl
  | @evict _ pending _ _ hend hr =>
    obtain ⟨total, entries⟩ := pending
    obtain ⟨now, hs⟩ := hi
    cases Action.remove_calm ha
    cases entries with
    | nil => cases hr
    | cons e rest =>
      cases hr
      refine ⟨now, hs.trans (congrArg Except.ok ?_)⟩
      have hgt : ¬ total ≤ max := fun hle => by simp [Pending.ended, hle] at hend
      rw [evictAll_cons, if_neg hgt]
      exact evictAll_attempts ..
  | scanned | evictUp | skipped => exact hi.elim
  | publish =>
    rw [write_calm ha]
    exact hi
  | failed | held | crashed | listed => cases ha

/-- A start that nothing stops comes to `startup`. -/
theorem reaches_startup {t t' : Tree} {error : Option IoError} (h : Reaches max ⟨t, .stopped error⟩ ⟨t', .up none⟩) :
    ∃ now, startup max now t = .ok t' := by
  have hi : OnTrack max t ⟨t', .up none⟩ := by
    refine h.invariant (OnTrack max t) ?_ fun _ _ _ hi ha hs => onTrack_step hi ha hs
    rintro _ rfl
    exact rfl
  exact hi

/-! ## What a start leaves -/

theorem claim_lookup {t marked : Tree} {now : Nat} (h : claimCacheDirectory t now = .ok marked) {path : Path}
    (hne : path ≠ cacheMarker) : marked.lookup path = t.lookup path := by
  rw [claimCacheDirectory] at h
  cases hs : claimScan t with
  | error e =>
    rw [hs] at h
    cases h
  | ok fresh =>
    rw [hs] at h
    cases fresh with
    | true =>
      cases h
      exact AList.lookup_insert_ne hne
    | false =>
      cases h
      rfl

theorem inShard_congr {t t' : Tree} (h : ∀ path, path ≠ cacheMarker → t'.lookup path = t.lookup path) {shard name : Str}
    {content : Bytes} {modified : Nat} :
    InShard t' shard name content modified ↔ InShard t shard name content modified := by
  rw [InShard, InShard]
  refine and_congr_right fun hv => ?_
  rw [h _ (shard_ne_marker hv), h _ (by simp [cacheMarker])]

/-- The marker is no file of the cache. -/
theorem mem_staleAndLegacyAt_congr {t t' : Tree} (h : ∀ path, path ≠ cacheMarker → t'.lookup path = t.lookup path)
    {path : Path} : path ∈ staleAndLegacyAt t' ↔ path ∈ staleAndLegacyAt t := by
  simp only [mem_staleAndLegacyAt, inShard_congr h]

/-- What a start that nothing stops does to the tree, the eviction's removals being `evicted`. -/
structure Left (t t' : Tree) (evicted : List CompletedEntry) : Prop where
  /-- No temp or legacy file is left. -/
  clean : staleAndLegacyAt t' = []
  /-- Every completed entry stays that the eviction does not remove. -/
  kept : ∀ e ∈ completedEntriesAt t, e ∉ evicted → e ∈ completedEntriesAt t'
  /-- What is evicted are completed entries. -/
  entries : ∀ e ∈ evicted, e ∈ completedEntriesAt t
  /-- Every other file is as it was. -/
  others : ∀ path, path ∉ staleAndLegacyAt t → (∀ e ∈ evicted, path ≠ e.body) → path ≠ cacheMarker →
    t'.lookup path = t.lookup path

variable (max) in
theorem evictToBound_lookup (t : Tree) (path : Path) : (evictToBound max t).tree.lookup path = t.lookup path ∨
    (evictToBound max t).tree.lookup path = none ∧ ∃ e ∈ (evictToBound max t).attempts, path = e.body := by
  rw [evictToBound, evictFilesToBound]
  split
  next => exact .inl rfl
  next => exact evictAll_lookup _ ⟨t, _, []⟩ path

theorem evictToBound_entries {t : Tree} : ∀ e ∈ (evictToBound max t).attempts, e ∈ completedEntriesAt t := by
  intro e he
  rw [evictToBound, evictFilesToBound] at he
  split at he
  next => cases he
  next =>
    obtain ⟨more, hmore, hsub⟩ := evictLoop_attempts max (fun _ => false) (fun _ => .done)
      ⟨t, ((completedEntriesAt t).map (·.size)).sum % 2 ^ 64, []⟩ (byAge (completedEntriesAt t))
    rw [hmore] at he
    exact (byAge_perm _).subset (hsub.subset he)

theorem not_stale_of_validKey {t : Tree} {shard key : Str} (h : validKey key shard = true) :
    [OsName.text shard, .text key] ∉ staleAndLegacyAt t := by
  intro hm
  obtain ⟨shard', name, -, -, -, hname, he⟩ := mem_staleAndLegacyAt.1 hm
  simp only [List.cons.injEq, OsName.text.injEq, and_true] at he
  obtain ⟨rfl, rfl⟩ := he
  rw [legacyKey_eq_none_of_validKey h, tempKey_eq_none_of_validKey h] at hname
  rcases hname with hname | hname <;> cases hname

theorem not_stale_shard {t : Tree} {shard : Str} : [OsName.text shard] ∉ staleAndLegacyAt t := by
  intro hm
  obtain ⟨_, _, -, -, -, -, he⟩ := mem_staleAndLegacyAt.1 hm
  simp at he

theorem body_length {t : Tree} {e : CompletedEntry} (h : e ∈ completedEntriesAt t) : e.body.length = 2 := by
  obtain ⟨shard, content, -, -, hb, -⟩ := mem_completedEntriesAt.1 h
  rw [hb]
  rfl

theorem completedEntriesAt_cleanup {t : Tree} {e : CompletedEntry} :
    e ∈ completedEntriesAt (cleanupStaleAndLegacy t) ↔ e ∈ completedEntriesAt t := by
  simp only [mem_completedEntriesAt, InShard]
  refine exists_congr fun shard => exists_congr fun content => and_congr_left fun hk => ?_
  rw [lookup_cleanup not_stale_shard, lookup_cleanup (not_stale_of_validKey hk.1)]

theorem startup_left {now : Nat} {t t' : Tree} (h : startup max now t = .ok t') :
    ∃ marked, claimCacheDirectory t now = .ok marked ∧
      Left t t' (evictToBound max (cleanupStaleAndLegacy marked)).attempts := by
  cases hclaim : claimCacheDirectory t now with
  | error e =>
    rw [startup, hclaim] at h
    cases h
  | ok marked =>
    rw [startup_eq hclaim] at h
    cases h
    have hmarked : ∀ path, path ≠ cacheMarker → marked.lookup path = t.lookup path := fun _ => claim_lookup hclaim
    have hentries : ∀ e, e ∈ completedEntriesAt (cleanupStaleAndLegacy marked) ↔ e ∈ completedEntriesAt t := by
      intro e
      rw [completedEntriesAt_cleanup, mem_completedEntriesAt, mem_completedEntriesAt]
      simp only [inShard_congr hmarked]
    refine ⟨marked, rfl, ?_, ?_, ?_, ?_⟩
    · refine staleAndLegacyAt_eq_nil (t := marked) fun path node hn => ?_
      rcases evictToBound_lookup max (cleanupStaleAndLegacy marked) path with hsame | ⟨hnone, -⟩
      · rwa [hsame] at hn
      · rw [hnone] at hn
        cases hn
    · intro e he hkept
      have hin := (hentries e).2 he
      obtain ⟨shard, content, ⟨hv, hdir, hfile⟩, hk, hb, hsize⟩ := mem_completedEntriesAt.1 hin
      refine mem_completedEntriesAt.2 ⟨shard, content, ⟨hv, ?_, ?_⟩, hk, hb, hsize⟩
      · rcases evictToBound_lookup max (cleanupStaleAndLegacy marked) [.text shard] with hsame | ⟨-, e', he', hb'⟩
        · rw [hsame, hdir]
        · have := body_length (evictToBound_entries e' he')
          rw [← hb'] at this
          cases this
      · rcases evictToBound_lookup max (cleanupStaleAndLegacy marked) [.text shard, .text e.key] with
          hsame | ⟨-, e', he', hb'⟩
        · rw [hsame, hfile]
        · rw [completedEntry_ext hin (evictToBound_entries e' he') (hb.trans hb')] at hkept
          exact absurd he' hkept
    · exact fun e he => (hentries e).1 (evictToBound_entries e he)
    · intro path hstale hevicted hne
      rcases evictToBound_lookup max (cleanupStaleAndLegacy marked) path with hsame | ⟨-, e, he, hb⟩
      · rw [hsame, lookup_cleanup (fun hm => hstale ((mem_staleAndLegacyAt_congr hmarked).1 hm)), hmarked path hne]
      · exact absurd hb (hevicted e he)

/-! ## Over every run -/

section
variable {t : Tree} {a : Action} {phase : Phase} {s' : Cache}

/-- No step makes a directory inside a shard directory. -/
theorem Rule.no_dir (h : Rule max t a phase s') {path : Path} (hlen : path.length = 2)
    (hd : s'.tree.lookup path = some .dir) : t.lookup path = some .dir := by
  have hinsert : ∀ (t : Tree) (p : Path) (node : Node), node ≠ .dir → (t.insert p node).lookup path = some .dir →
      t.lookup path = some .dir := by
    intro t p node hnode hl
    by_cases hp : path = p
    · rw [hp, AList.lookup_insert] at hl
      exact absurd (Option.some.inj hl) hnode
    · rwa [AList.lookup_insert_ne hp] at hl
  have herase : ∀ (t : Tree) (p : Path), (t.erase p).lookup path = some .dir → t.lookup path = some .dir := by
    intro t p hl
    by_cases hp : path = p
    · rw [hp, AList.lookup_erase] at hl
      cases hl
    · rwa [AList.lookup_erase_ne hp] at hl
  cases h with
  | created | wrote => exact hinsert _ _ _ (by simp) hd
  | clean =>
    revert hd
    show (if _ then _ else _ : Tree).lookup path = _ → _
    split
    · exact herase _ _
    · exact id
  | evict _ hr | evictUp _ hr =>
    obtain ⟨e, -, rfl | ⟨-, rfl⟩⟩ := Pending.remove_cases hr
    · exact hd
    · exact herase _ _ hd
  | publish =>
    cases a with
    | mkdir key =>
      simp only [write] at hd
      split at hd
      · rwa [AList.lookup_insert_ne (by rintro rfl; cases hlen)] at hd
      · exact hd
    | create | append =>
      simp only [write] at hd
      split at hd
      all_goals first
        | exact hd
        | exact hinsert _ _ _ (by simp) hd
    | rename =>
      simp only [write] at hd
      split at hd
      · exact hd
      · exact herase _ _ (hinsert _ _ _ (by simp) hd)
      · exact herase _ _ (hinsert _ _ _ (by simp) hd)
      · exact hd
    | removeTemp =>
      simp only [write] at hd
      split at hd
      · exact hd
      · exact herase _ _ hd
    | start | next | fail | lockHeld | crash | remove | skip | scan => exact hd
  | start | marked | foreign | unreadable | unmarked | looked | unowned | ownable | written | locked | fits | cleaned
  | opened | scanned | failed | held | crashed | skipped | listed => exact hd

theorem OwnPath.length {path : Path} (h : OwnPath path) : path.length = 2 := by
  obtain ⟨shard, key, name, -, -, -, rfl⟩ := h
  rfl

/-- No file on a list is a directory. -/
def Plain (s : Cache) : Prop := ∀ path ∈ s.phase.listed, s.tree.lookup path ≠ some .dir

theorem stale_plain {path : Path} (h : path ∈ staleAndLegacyAt t) : t.lookup path ≠ some .dir := by
  obtain ⟨shard, name, content, modified, hin, -, rfl⟩ := mem_staleAndLegacyAt.1 h
  rw [hin.2.2]
  simp

theorem entry_plain {e : CompletedEntry} (h : e ∈ completedEntriesAt t) : t.lookup e.body ≠ some .dir := by
  obtain ⟨shard, content, hin, -, hb, -⟩ := mem_completedEntriesAt.1 h
  rw [hb, hin.2.2]
  simp

theorem scanOf_plain {pending : Pending} (h : scanOf max t = some pending) :
    ∀ path ∈ pending.2.map (·.body), t.lookup path ≠ some .dir := by
  intro path hp
  obtain ⟨e, he, rfl⟩ := List.mem_map.1 hp
  rw [scanOf] at h
  split at h
  next => cases h
  next =>
    cases h
    exact entry_plain ((byAge_perm _).subset he)

theorem Rule.plain (h : Rule max t a phase s') (hl : ∀ path ∈ phase.listed, OwnPath path)
    (hp : ∀ path ∈ phase.listed, t.lookup path ≠ some .dir) : Plain s' := by
  have hkeep : ∀ path ∈ phase.listed, s'.tree.lookup path ≠ some .dir := fun path hm hd =>
    hp path hm (h.no_dir (hl path hm).length hd)
  cases h with
  | locked => exact fun path hm => stale_plain hm
  | cleaned hs => exact scanOf_plain hs
  | listed =>
    intro path hm
    cases hs : scanOf max t with
    | none =>
      rw [hs] at hm
      cases hm
    | some pending =>
      rw [hs] at hm
      exact scanOf_plain hs path hm
  | clean => exact fun path hm => hkeep path (List.mem_cons_of_mem _ hm)
  | evict _ hr | evictUp _ hr =>
    obtain ⟨e, he, -⟩ := Pending.remove_cases hr
    intro path hm
    refine hkeep path ?_
    simp only [Phase.listed, he, List.map_cons]
    exact List.mem_cons_of_mem _ hm
  | skipped => exact fun path hm => hkeep path (List.mem_cons_of_mem _ hm)
  | publish => exact hkeep
  | start | marked | foreign | unreadable | unmarked | looked | unowned | ownable | created | wrote | written | fits
  | opened | scanned | failed | held | crashed => exact fun _ hm => by cases hm

/-- What a step takes away is on a list, or a temp file given up or renamed. -/
theorem Rule.removed (h : Rule max t a phase s') {path : Path} {node : Node} (hbefore : t.lookup path = some node)
    (hafter : s'.tree.lookup path = none) :
    path ∈ phase.listed ∨ ∃ temp : Temp, path = temp.path ∧ node.isDir = false := by
  have hinsert : ∀ (t : Tree) (p : Path) (n : Node), t.lookup path = some node → (t.insert p n).lookup path ≠ none := by
    intro t p n ht
    by_cases hp : path = p
    · rw [hp, AList.lookup_insert]
      simp
    · rw [AList.lookup_insert_ne hp, ht]
      simp
  have herase : ∀ p, (t.erase p).lookup path = none → path = p := by
    intro p hp
    by_contra hne
    rw [AList.lookup_erase_ne hne, hbefore] at hp
    cases hp
  have hsame : t.lookup path ≠ none := by simp [hbefore]
  have hmoved : ∀ (temp : Temp) (n : Node), t.lookup temp.path = some n → n.isDir = false →
      ((t.erase temp.path).insert temp.body n).lookup path = none → ∃ temp : Temp, path = temp.path ∧ node.isDir = false := by
    intro temp n hn hdir hgone
    by_cases hbody : path = temp.body
    · rw [hbody, AList.lookup_insert] at hgone
      cases hgone
    · rw [AList.lookup_insert_ne hbody] at hgone
      have htemp := herase _ hgone
      rw [htemp, hn] at hbefore
      cases hbefore
      exact ⟨temp, htemp, hdir⟩
  cases h with
  | created | wrote => exact absurd hafter (hinsert _ _ _ hbefore)
  | clean =>
    left
    revert hafter
    show (if _ then _ else _ : Tree).lookup path = none → _
    split
    · intro hafter
      rw [herase _ hafter]
      exact List.mem_cons_self ..
    · exact fun hafter => absurd hafter hsame
  | evict _ hr | evictUp _ hr =>
    left
    obtain ⟨e, he, rfl | ⟨-, rfl⟩⟩ := Pending.remove_cases hr
    · exact absurd hafter hsame
    · rw [herase _ hafter]
      simp only [Phase.listed, he, List.map_cons]
      exact List.mem_cons_self ..
  | publish =>
    right
    cases a with
    | mkdir | create | append =>
      simp only [write] at hafter
      split at hafter
      all_goals first
        | exact absurd hafter hsame
        | exact absurd hafter (hinsert _ _ _ hbefore)
    | rename temp =>
      simp only [write] at hafter
      split at hafter
      · exact absurd hafter hsame
      next content modified _ hfile _ => exact hmoved temp _ hfile rfl hafter
      next read _ hlink _ => exact hmoved temp _ hlink rfl hafter
      · exact absurd hafter hsame
    | removeTemp temp =>
      simp only [write] at hafter
      split at hafter
      · exact absurd hafter hsame
      next hnot =>
        have htemp := herase _ hafter
        refine ⟨temp, htemp, ?_⟩
        cases node with
        | file | other => rfl
        | dir => exact absurd (htemp ▸ hbefore) hnot
    | start | next | fail | lockHeld | crash | remove | skip | scan => exact absurd hafter hsame
  | start | marked | foreign | unreadable | unmarked | looked | unowned | ownable | written | locked | fits | cleaned
  | opened | scanned | failed | held | crashed | skipped | listed => exact absurd hafter hsame

/-- What is no file of the cache and not the marker stays what it is. -/
theorem Rule.keeps (h : Rule max t a phase s') (hl : ∀ path ∈ phase.listed, OwnPath path) {path : Path} {node : Node}
    (hown : ¬ OwnPath path) (hmarker : path ≠ cacheMarker) (hbefore : t.lookup path = some node) :
    s'.tree.lookup path = some node := by
  rw [h.frame hl hown (fun _ _ _ => by simp [hbefore]) (.inl hmarker)]
  exact hbefore

/-! ## Starts that do not get the lock -/

/-- The start gets the lock. -/
def TakesLock (s : Cache) (a : Action) : Prop := s.phase = .locking ∧ ∃ now, a = .next now

/-- A start without the lock, on a tree that began as `t`. -/
def Waiting (t : Tree) (s : Cache) : Prop :=
  (∀ path node, t.lookup path = some node → s.tree.lookup path = some node) ∧
  match s.phase with
  | .stopped _ | .reading | .locking => True
  | .scanning rest => ∀ entry ∈ readDir s.tree [], entry ∈ rest ∨ ownedShard s.tree entry = true
  | .creating => s.tree.lookup cacheMarker = none
  | .writing _ => t.lookup cacheMarker = none
  | .cleaning _ | .evicting _ | .up _ => False

theorem ownedShard_iff {t : Tree} {name : OsName} {node : Node} : ownedShard t (name, node) = true ↔
    ∃ shard, name = .text shard ∧ node = .dir ∧ validHex shard 2 = true ∧
      ∀ entry ∈ readDir t [.text shard], ownedFile shard entry = true := by
  constructor
  · intro h
    cases name with
    | raw => cases h
    | text shard =>
      cases node with
      | file | other => cases h
      | dir =>
        rw [ownedShard, Bool.and_eq_true, List.all_eq_true] at h
        exact ⟨shard, rfl, rfl, h⟩
  · rintro ⟨shard, rfl, rfl, h⟩
    rw [ownedShard, Bool.and_eq_true, List.all_eq_true]
    exact h

/-- The marker is no shard directory, so a directory the claim takes has none yet. -/
theorem marker_none {t : Tree} (h : ∀ entry ∈ readDir t [], ownedShard t entry = true) :
    t.lookup cacheMarker = none := by
  cases hm : t.lookup cacheMarker with
  | none => rfl
  | some node =>
    have hin : (OsName.text ".vampire-cache-v1".toList, node) ∈ readDir t [] := mem_readDir.2 hm
    obtain ⟨shard, hname, -, hv, -⟩ := ownedShard_iff.1 (h _ hin)
    exact absurd (congrArg (fun name => [name]) hname.symm) (shard_ne_marker hv)

theorem waiting_step {t : Tree} {s s' : Cache} {a : Action} (hi : Waiting t s) (hw : ¬ TakesLock s a)
    (h : step max a s = some s') : Waiting t s' := by
  have hr := step_rule h
  obtain ⟨tree, phase⟩ := s
  obtain ⟨hkept, hp⟩ := hi
  cases hr with
  | unmarked => exact ⟨hkept, fun entry he => .inl he⟩
  | looked ho =>
    refine ⟨hkept, fun entry he => ?_⟩
    rcases hp entry he with hm | ho'
    · rcases List.mem_cons.1 hm with rfl | hm
      · exact .inr ho
      · exact .inl hm
    · exact .inr ho'
  | ownable => exact ⟨hkept, marker_none fun entry he => (hp entry he).resolve_left (by simp)⟩
  | created =>
    have hnone : t.lookup cacheMarker = none := by
      cases hm : t.lookup cacheMarker with
      | none => rfl
      | some node => exact absurd (hkept _ _ hm) (by rw [hp]; simp)
    refine ⟨fun path node hn => ?_, hnone⟩
    have hne : path ≠ cacheMarker := by
      rintro rfl
      rw [hnone] at hn
      cases hn
    exact (AList.lookup_insert_ne hne).trans (hkept path node hn)
  | wrote =>
    refine ⟨fun path node hn => ?_, hp⟩
    have hne : path ≠ cacheMarker := by
      rintro rfl
      rw [show t.lookup cacheMarker = none from hp] at hn
      cases hn
    exact (AList.lookup_insert_ne hne).trans (hkept path node hn)
  | locked => exact absurd ⟨rfl, _, rfl⟩ hw
  | start | marked | foreign | unreadable | unowned | written | failed | held | crashed => exact ⟨hkept, trivial⟩
  | fits | cleaned | opened | scanned | clean | evict | evictUp | skipped | listed | publish => exact hp.elim

/-! ## Which directories are owned -/

/-- Everything in the directory is a shard directory, and everything in those a file of a key of the shard. -/
def Recognised (t : Tree) : Prop :=
  ∀ name node, t.lookup [name] = some node → node = .dir ∧ ∃ shard, name = .text shard ∧ validHex shard 2 = true ∧
    ∀ file node', t.lookup [name, file] = some node' → ∃ key n content modified,
      file = .text n ∧ node' = .file content modified ∧ validKey key shard = true ∧ OwnName key n

theorem ownName_iff {n shard : Str} :
    (validKey n shard || (legacyKey n shard).isSome || (tempKey n shard).isSome) = true ↔
      ∃ key, validKey key shard = true ∧ OwnName key n := by
  simp only [Bool.or_eq_true, Option.isSome_iff_exists, legacyKey_iff, tempKey_iff]
  constructor
  · rintro ((h | ⟨key, hv, h⟩) | ⟨key, hv, h⟩)
    · exact ⟨n, h, .inl rfl⟩
    · exact ⟨key, hv, h.elim (fun h => .inr (.inl h)) (fun h => .inr (.inr (.inl h)))⟩
    · exact ⟨key, hv, .inr (.inr (.inr h))⟩
  · rintro ⟨key, hv, rfl | h | h | h⟩
    · exact .inl (.inl hv)
    · exact .inl (.inr ⟨key, hv, .inl h⟩)
    · exact .inl (.inr ⟨key, hv, .inr h⟩)
    · exact .inr ⟨key, hv, h⟩

theorem ownedFile_iff {shard : Str} {file : OsName} {node : Node} : ownedFile shard (file, node) = true ↔
    ∃ key n content modified, file = .text n ∧ node = .file content modified ∧ validKey key shard = true ∧
      OwnName key n := by
  constructor
  · intro h
    cases file with
    | raw => cases h
    | text n =>
      cases node with
      | dir | other => cases h
      | file content modified =>
        obtain ⟨key, hv, hn⟩ := ownName_iff.1 h
        exact ⟨key, n, content, modified, rfl, rfl, hv, hn⟩
  · rintro ⟨key, n, content, modified, rfl, rfl, hv, hn⟩
    exact ownName_iff.2 ⟨key, hv, hn⟩

theorem recognised_iff : Recognised t ↔ ∀ entry ∈ readDir t [], ownedShard t entry = true := by
  constructor
  · rintro h ⟨name, node⟩ he
    obtain ⟨rfl, shard, rfl, hv, hfiles⟩ := h name node (mem_readDir.1 he)
    refine ownedShard_iff.2 ⟨shard, rfl, rfl, hv, ?_⟩
    rintro ⟨file, node'⟩ hf
    exact ownedFile_iff.2 (hfiles file node' (mem_readDir.1 hf))
  · intro h name node hn
    have hin : (name, node) ∈ readDir t [] := mem_readDir.2 hn
    obtain ⟨shard, rfl, rfl, hv, hfiles⟩ := ownedShard_iff.1 (h _ hin)
    refine ⟨rfl, shard, rfl, hv, fun file node' hf => ?_⟩
    have hinShard : (file, node') ∈ readDir t [.text shard] := mem_readDir.2 hf
    exact ownedFile_iff.1 (hfiles _ hinShard)

theorem claimScan_absent (h : t.lookup cacheMarker = none) : claimScan t =
    if (readDir t []).all (ownedShard t) then .ok true else .error unownedCacheDirectory := by
  rw [claimScan, fsRead, h]
  rfl

end

/-- What is asked of the store's removals, from the tree `t` on. -/
structure OnlyOwn (max : Nat) (t : Tree) : Prop where
  /-- Only files of the cache's names are ever deleted. -/
  deletes : ∀ s a s' path node, Run (step max) Any (· = ⟨t, .stopped none⟩) s → step max a s = some s' →
    s.tree.lookup path = some node → s'.tree.lookup path = none → OwnPath path ∧ node.isDir = false
  /-- Everything else stays what it is. -/
  others : ∀ s path node, Run (step max) Any (· = ⟨t, .stopped none⟩) s → ¬ OwnPath path → path ≠ cacheMarker →
    t.lookup path = some node → s.tree.lookup path = some node
  /-- What the generators give is a temp name of its key and nothing else. -/
  temps : ∀ temp : Temp, ∃ shard name, temp.path = [.text shard, .text name] ∧
    tempKey name shard = some temp.key.1 ∧ legacyKey name shard = none ∧ validKey name shard = false
  /-- Wherever a run stopped, the next start that nothing stops cleans up after it. -/
  restart : ∀ s error t', Run (step max) Any (· = ⟨t, .stopped none⟩) s → s.phase = .stopped error →
    Reaches max s ⟨t', .up none⟩ → ∃ now marked, claimCacheDirectory s.tree now = .ok marked ∧
      Left s.tree t' (evictToBound max (cleanupStaleAndLegacy marked)).attempts
  /-- A start that does not get the lock, refused or not, leaves what it found. -/
  refused : ∀ s path node, Run (step max) (fun s a => ¬ TakesLock s a) (· = ⟨t, .stopped none⟩) s →
    t.lookup path = some node → s.tree.lookup path = some node
  /-- A directory without a marker is taken if and only if every name in it is recognised. -/
  unmarked : t.lookup cacheMarker = none → (claimScan t = .ok true ↔ Recognised t) ∧
    (¬ Recognised t → claimScan t = .error unownedCacheDirectory)

theorem temp_recognised (temp : Temp) : ∃ shard name, temp.path = [.text shard, .text name] ∧
    tempKey name shard = some temp.key.1 ∧ legacyKey name shard = none ∧ validKey name shard = false := by
  cases temp with
  | artifact key => exact ⟨_, _, rfl, (tempName_part key.1).recognised key.2⟩
  | metadata key suffix =>
    exact ⟨_, _, uniqueTempPath_temp key.1 suffix, (tempName_counted key.1 suffix).recognised key.2⟩

/-- **Own files.** Over any tree and any run the store deletes only files of its
own names, recognises what it generates, and a start that nothing stops leaves
nothing of an interrupted run and everything else; a start without the lock
changes nothing that was there. -/
theorem only_own_files (max : Nat) (t : Tree) : OnlyOwn max t where
  deletes := by
    intro s a s' path node hrun hs hbefore hafter
    have hl := run_listed hrun
    have hp : Plain s := hrun.invariant_of Listed Plain run_listed
      (fun s he => by rw [he]; exact fun _ hm => by cases hm)
      (fun _ _ _ hl _ hp _ hs => (step_rule hs).plain hl hp)
    rcases (step_rule hs).removed hbefore hafter with hm | ⟨temp, rfl, hdir⟩
    · refine ⟨hl path hm, ?_⟩
      cases node with
      | file | other => rfl
      | dir => exact absurd hbefore (hp path hm)
    · exact ⟨ownPath_temp temp, hdir⟩
  others := by
    intro s path node hrun hown hmarker hbefore
    refine hrun.invariant_of Listed (fun s => s.tree.lookup path = some node) run_listed
      (fun s he => by rw [he]; exact hbefore) ?_
    exact fun _ _ _ hl _ hk _ hs => (step_rule hs).keeps hl hown hmarker hk
  temps := temp_recognised
  restart := by
    rintro ⟨tree, phase⟩ error t' - hp hreach
    cases hp
    obtain ⟨now, hs⟩ := reaches_startup hreach
    obtain ⟨marked, hclaim, hleft⟩ := startup_left hs
    exact ⟨now, marked, hclaim, hleft⟩
  refused := by
    intro s path node hrun hbefore
    have hi : Waiting t s := hrun.invariant (Waiting t) (fun s he => by rw [he]; exact ⟨fun _ _ h => h, trivial⟩)
      (fun _ _ _ hi hw hs => waiting_step hi hw hs)
    exact hi.1 path node hbefore
  unmarked := by
    intro hnone
    rw [claimScan_absent hnone, recognised_iff, ← List.all_eq_true]
    by_cases h : (readDir t []).all (ownedShard t) = true
    · rw [if_pos h]
      exact ⟨⟨fun _ => h, fun _ => rfl⟩, fun hn => absurd h hn⟩
    · rw [if_neg h]
      exact ⟨⟨fun he => (by cases he), fun he => absurd he h⟩, fun _ => rfl⟩

end

end Vampire.CacheDirectory
