/-
The cache directory as `cache.rs` reads it: what `shard_directories` and
`completed_entries_at` list, what `cleanup_stale_and_legacy` removes, and when
`claim_cache_directory` takes the directory for its own.

A directory tree is a finite map from paths below the cache directory, in
the order `read_dir` gives. Whatever is neither a file nor a directory (a
symbolic link, a socket) is known by what reading it gives.
-/
import Vampire.Entry
import Vampire.Names

namespace Vampire

open Lib

inductive Node
  | file (content : Bytes) (modified : Nat)
  | dir
  | other (read : IoResult Bytes)

/-- `FileType::is_dir` -/
def Node.isDir : Node → Bool
  | .dir => true
  | _ => false

abbrev Tree := AList fun _ : Path => Node

/-- The first of two entries of one path counts. -/
def treeOf (files : List (Path × Node)) : Tree := (files.map fun x => ⟨x.1, x.2⟩).toAList

/-- `fs::read_dir` -/
def readDir (t : Tree) (dir : Path) : List (OsName × Node) :=
  t.entries.filterMap fun e => if e.1.dropLast = dir then e.1.getLast?.map fun name => (name, e.2) else none

/-- `fs::read` -/
def fsRead (t : Tree) (path : Path) : IoResult Bytes :=
  match t.lookup path with
  | some (.file content _) => .ok content
  | some .dir => .error ⟨.other, "Is a directory"⟩
  | some (.other read) => read
  | none => .error ⟨.notFound, "No such file or directory"⟩

/-! ## Listing -/

/-- `shard_directories` -/
def shardDirectories (t : Tree) : List (Str × Path) :=
  (readDir t []).filterMap fun (name, node) => do
    let shard ← name.toStr
    if node.isDir && validHex shard 2 then some (shard, [name]) else none

structure CompletedEntry where
  key : Str
  body : Path
  modified : Nat
  size : Nat
  deriving DecidableEq

/-- An entry of a shard directory, when it is one of a completed file. -/
def completedEntry (shard : Str) (dir : Path) : OsName × Node → Option CompletedEntry
  | (.text key, .file content modified) =>
    if validKey key shard then some ⟨key, dir ++ [.text key], modified, content.length⟩ else none
  | _ => none

/-- `completed_entries_at` -/
def completedEntriesAt (t : Tree) : List CompletedEntry :=
  (shardDirectories t).flatMap fun (shard, dir) => (readDir t dir).filterMap (completedEntry shard dir)

/-- An entry of a shard directory, when `cleanup_stale_and_legacy` removes it. -/
def staleOrLegacy (shard : Str) (dir : Path) : OsName × Node → Option Path
  | (.text name, .file ..) =>
    if (legacyKey name shard).isSome || (tempKey name shard).isSome then some (dir ++ [.text name]) else none
  | _ => none

/-- The files `cleanup_stale_and_legacy` removes, in its order. -/
def staleAndLegacyAt (t : Tree) : List Path :=
  (shardDirectories t).flatMap fun (shard, dir) => (readDir t dir).filterMap (staleOrLegacy shard dir)

/-! ## Ownership -/

/-- `CACHE_MARKER` -/
def cacheMarker : Path := [.text ".vampire-cache-v1".toList]

/-- `b"v1\n"` -/
def markerContents : Bytes := utf8 "v1\n".toList

def unownedCacheDirectory : IoError :=
  ⟨.invalidInput, "cache directory is nonempty and not owned by vampire"⟩

/-- The claim's test of a file of a shard directory. -/
def ownedFile (shard : Str) : OsName × Node → Bool
  | (.text name, .file ..) =>
    validKey name shard || (legacyKey name shard).isSome || (tempKey name shard).isSome
  | _ => false

/-- The claim's test of an entry of the cache directory. -/
def ownedShard (t : Tree) : OsName × Node → Bool
  | (.text shard, .dir) => validHex shard 2 && (readDir t [.text shard]).all (ownedFile shard)
  | _ => false

/-- `claim_cache_directory` up to its write: whether the marker is to be written. -/
def claimScan (t : Tree) : IoResult Bool :=
  match fsRead t cacheMarker with
  | .ok contents => if contents = markerContents then .ok false else .error unownedCacheDirectory
  | .error error =>
    if error.kind = .notFound then
      if (readDir t []).all (ownedShard t) then .ok true else .error unownedCacheDirectory
    else .error error

/-- `claim_cache_directory`, when nothing stops it. -/
def claimCacheDirectory (t : Tree) (now : Nat) : IoResult Tree := do
  if ← claimScan t then return t.insert cacheMarker (.file markerContents now)
  else return t

/-! ## What a listing holds -/

theorem mem_readDir {t : Tree} {dir : Path} {name : OsName} {node : Node} :
    (name, node) ∈ readDir t dir ↔ t.lookup (dir ++ [name]) = some node := by
  simp only [readDir, List.mem_filterMap, Option.ite_none_right_eq_some, Option.map_eq_some_iff, Prod.mk.injEq]
  rw [← Option.mem_def, AList.mem_lookup_iff]
  constructor
  · rintro ⟨⟨path, node'⟩, he, rfl, last, hlast, rfl, rfl⟩
    rwa [List.dropLast_append_getLast? _ hlast]
  · intro he
    exact ⟨⟨dir ++ [name], node⟩, he, by simp, name, by simp, rfl, rfl⟩

theorem mem_shardDirectories {t : Tree} {shard : Str} {dir : Path} :
    (shard, dir) ∈ shardDirectories t ↔
      dir = [.text shard] ∧ validHex shard 2 = true ∧ t.lookup [.text shard] = some .dir := by
  simp only [shardDirectories, List.mem_filterMap, Option.bind_eq_bind, Option.bind_eq_some_iff,
    Option.ite_none_right_eq_some, Bool.and_eq_true, Option.some.injEq, Prod.mk.injEq]
  constructor
  · rintro ⟨⟨name, node⟩, hm, shard', hs, ⟨hd, hv⟩, rfl, rfl⟩
    have hl := mem_readDir.1 hm
    cases name with
    | raw => cases hs
    | text name =>
      cases hs
      cases node with
      | file | other => cases hd
      | dir => exact ⟨rfl, hv, hl⟩
  · rintro ⟨rfl, hv, hl⟩
    exact ⟨(.text shard, .dir), mem_readDir.2 hl, shard, rfl, ⟨rfl, hv⟩, rfl, rfl⟩

/-- A file directly inside a shard directory. -/
def InShard (t : Tree) (shard name : Str) (content : Bytes) (modified : Nat) : Prop :=
  validHex shard 2 = true ∧ t.lookup [.text shard] = some .dir ∧
    t.lookup [.text shard, .text name] = some (.file content modified)

theorem mem_completedEntriesAt {t : Tree} {e : CompletedEntry} :
    e ∈ completedEntriesAt t ↔ ∃ shard content, InShard t shard e.key content e.modified ∧
      validKey e.key shard = true ∧ e.body = [.text shard, .text e.key] ∧ e.size = content.length := by
  simp only [completedEntriesAt, List.mem_flatMap, List.mem_filterMap]
  constructor
  · rintro ⟨⟨shard, dir⟩, hs, ⟨name, node⟩, hm, he⟩
    obtain ⟨rfl, hv, hl⟩ := mem_shardDirectories.1 hs
    have hfile := mem_readDir.1 hm
    cases name with
    | raw => cases he
    | text name =>
      cases node with
      | dir | other => cases he
      | file content modified =>
        simp only [completedEntry, Option.ite_none_right_eq_some, Option.some.injEq] at he
        obtain ⟨hk, rfl⟩ := he
        exact ⟨shard, content, ⟨hv, hl, hfile⟩, hk, rfl, rfl⟩
  · rintro ⟨shard, content, ⟨hv, hl, hfile⟩, hk, hb, hsize⟩
    refine ⟨(shard, [.text shard]), mem_shardDirectories.2 ⟨rfl, hv, hl⟩,
      (.text e.key, .file content e.modified), mem_readDir.2 hfile, ?_⟩
    simp only [completedEntry, if_pos hk, Option.some.injEq]
    cases e
    simp only at hb hsize
    rw [hb, hsize]
    rfl

theorem mem_staleAndLegacyAt {t : Tree} {path : Path} :
    path ∈ staleAndLegacyAt t ↔ ∃ shard name content modified, InShard t shard name content modified ∧
      ((legacyKey name shard).isSome = true ∨ (tempKey name shard).isSome = true) ∧
      path = [.text shard, .text name] := by
  simp only [staleAndLegacyAt, List.mem_flatMap, List.mem_filterMap]
  constructor
  · rintro ⟨⟨shard, dir⟩, hs, ⟨name, node⟩, hm, hp⟩
    obtain ⟨rfl, hv, hl⟩ := mem_shardDirectories.1 hs
    have hfile := mem_readDir.1 hm
    cases name with
    | raw => cases hp
    | text name =>
      cases node with
      | dir | other => cases hp
      | file content modified =>
        simp only [staleOrLegacy, Option.ite_none_right_eq_some, Option.some.injEq, Bool.or_eq_true] at hp
        obtain ⟨hk, rfl⟩ := hp
        exact ⟨shard, name, content, modified, ⟨hv, hl, hfile⟩, hk, rfl⟩
  · rintro ⟨shard, name, content, modified, ⟨hv, hl, hfile⟩, hk, rfl⟩
    refine ⟨(shard, [.text shard]), mem_shardDirectories.2 ⟨rfl, hv, hl⟩,
      (.text name, .file content modified), mem_readDir.2 hfile, ?_⟩
    simp only [staleOrLegacy, Option.ite_none_right_eq_some, Bool.or_eq_true]
    exact ⟨hk, rfl⟩

/-! ## No file is listed twice -/

theorem nodup_readDir (t : Tree) (dir : Path) : ((readDir t dir).map Prod.fst).Nodup := by
  have hkeys : (readDir t dir).map Prod.fst =
      t.keys.filterMap fun path => if path.dropLast = dir then path.getLast? else none := by
    rw [readDir, List.map_filterMap, AList.keys, List.keys, List.filterMap_map]
    refine List.filterMap_congr fun e _ => ?_
    by_cases h : e.1.dropLast = dir
    · simp only [Function.comp, if_pos h, Option.map_map]
      cases e.1.getLast? <;> rfl
    · simp [Function.comp, if_neg h]
  rw [hkeys]
  refine t.keys_nodup.filterMap ?_
  intro p q name hp hq
  simp only [Option.mem_def, Option.ite_none_right_eq_some] at hp hq
  rw [← List.dropLast_append_getLast? _ hp.2, ← List.dropLast_append_getLast? _ hq.2, hp.1, hq.1]

theorem nodup_shardDirectories (t : Tree) : ((shardDirectories t).map Prod.snd).Nodup := by
  have h := List.pairwise_map.1 (nodup_readDir t [])
  rw [shardDirectories, List.Nodup, List.pairwise_map, List.pairwise_filterMap]
  refine h.imp ?_
  rintro ⟨name, node⟩ ⟨name', node'⟩ hne s hs s' hs'
  simp only [Option.bind_eq_bind, Option.bind_eq_some_iff, Option.ite_none_right_eq_some,
    Option.some.injEq] at hs hs'
  obtain ⟨_, -, -, rfl⟩ := hs
  obtain ⟨_, -, -, rfl⟩ := hs'
  exact fun he => hne (List.singleton_inj.1 he)

theorem completedEntry_body {shard : Str} {dir : Path} {x : OsName × Node} {e : CompletedEntry}
    (h : completedEntry shard dir x = some e) : e.body = dir ++ [x.1] := by
  obtain ⟨name, node⟩ := x
  cases name with
  | raw => cases h
  | text =>
    cases node with
    | dir | other => cases h
    | file =>
      simp only [completedEntry, Option.ite_none_right_eq_some, Option.some.injEq] at h
      rw [← h.2]

theorem nodup_completedEntriesAt (t : Tree) : ((completedEntriesAt t).map (·.body)).Nodup := by
  rw [completedEntriesAt, List.map_flatMap, List.nodup_flatMap]
  constructor
  · rintro ⟨shard, dir⟩ -
    rw [List.Nodup, List.pairwise_map, List.pairwise_filterMap]
    refine (List.pairwise_map.1 (nodup_readDir t dir)).imp ?_
    intro x y hne e he e' he'
    rw [completedEntry_body he, completedEntry_body he']
    exact fun h => hne (List.singleton_inj.1 (List.append_cancel_left h))
  · have hall : ∀ x ∈ shardDirectories t, ∃ name, x.2 = [name] := fun x hx =>
      ⟨_, (mem_shardDirectories.1 hx).1⟩
    refine (List.pairwise_map.1 (nodup_shardDirectories t)).imp_of_mem ?_
    rintro x y hx hy hne path hp hq
    obtain ⟨e, he, rfl⟩ := List.mem_map.1 hp
    obtain ⟨e', he', hb⟩ := List.mem_map.1 hq
    obtain ⟨a, -, ha⟩ := List.mem_filterMap.1 he
    obtain ⟨b, -, hb'⟩ := List.mem_filterMap.1 he'
    rw [completedEntry_body ha, completedEntry_body hb'] at hb
    exact hne (List.append_inj_left' hb rfl).symm

/-! ## Removing a file -/

theorem inShard_erase {t : Tree} {shard name shard' name' : Str} {content : Bytes} {modified : Nat} :
    InShard (t.erase [.text shard', .text name']) shard name content modified ↔
      InShard t shard name content modified ∧ ¬ (shard = shard' ∧ name = name') := by
  have hdir : (t.erase [.text shard', .text name']).lookup [.text shard] = t.lookup [.text shard] :=
    AList.lookup_erase_ne (by simp)
  rw [InShard, InShard, hdir]
  by_cases h : shard = shard' ∧ name = name'
  · obtain ⟨rfl, rfl⟩ := h
    simp [AList.lookup_erase]
  · have hne : [OsName.text shard, .text name] ≠ [.text shard', .text name'] := by
      simpa using h
    rw [AList.lookup_erase_ne hne]
    simp [h]

/-- A file's entry is known by its path. -/
theorem completedEntry_ext {t : Tree} {e e' : CompletedEntry} (he : e ∈ completedEntriesAt t)
    (he' : e' ∈ completedEntriesAt t) (h : e.body = e'.body) : e = e' := by
  obtain ⟨shard, content, hin, -, hb, hs⟩ := mem_completedEntriesAt.1 he
  obtain ⟨shard', content', hin', -, hb', hs'⟩ := mem_completedEntriesAt.1 he'
  rw [hb, hb'] at h
  simp only [List.cons.injEq, OsName.text.injEq, and_true] at h
  obtain ⟨rfl, hkey⟩ := h
  have hfile := hin.2.2
  rw [hkey, hin'.2.2] at hfile
  simp only [Option.some.injEq, Node.file.injEq] at hfile
  obtain ⟨key, body, modified, size⟩ := e
  obtain ⟨key', body', modified', size'⟩ := e'
  simp only at hkey hb hb' hs hs' hfile
  rw [hkey, hb, hb', hkey, hs, hs', hfile.1, hfile.2]

theorem mem_completedEntriesAt_erase {t : Tree} {e e' : CompletedEntry} (he : e ∈ completedEntriesAt t) :
    e' ∈ completedEntriesAt (t.erase e.body) ↔ e' ∈ completedEntriesAt t ∧ e' ≠ e := by
  obtain ⟨shard, content, hin, hk, hb, hs⟩ := mem_completedEntriesAt.1 he
  rw [hb, mem_completedEntriesAt]
  simp only [inShard_erase]
  constructor
  · rintro ⟨shard', content', ⟨hin', hne⟩, hk', hb', hs'⟩
    refine ⟨mem_completedEntriesAt.2 ⟨shard', content', hin', hk', hb', hs'⟩, ?_⟩
    rintro rfl
    rw [hb] at hb'
    simp only [List.cons.injEq, OsName.text.injEq, and_true] at hb'
    exact hne ⟨hb'.symm, rfl⟩
  · rintro ⟨he', hne⟩
    obtain ⟨shard', content', hin', hk', hb', hs'⟩ := mem_completedEntriesAt.1 he'
    refine ⟨shard', content', ⟨hin', ?_⟩, hk', hb', hs'⟩
    rintro ⟨rfl, hkey⟩
    exact hne (completedEntry_ext he' he (by rw [hb', hb, hkey]))

end Vampire
