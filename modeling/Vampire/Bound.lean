/-
The size of the cache when nothing is going on (`evict_files_to_bound`, the
janitor of `CacheStore::new`, `Drop for PublishedEntryInner`).

Between two scans the total may be over the bound as long as something
still owes a scan: a registered token (its drop requests one), a token
between its unpinning and its request, a request in the channel, a janitor
on its way to its scan, a metadata writer before its own (`Excused`). What
owes a scan stays so until a scan begins, and a scan during which nothing
owes one has seen every entry and passes over none.
-/
import Mathlib
import Vampire.Tasks

namespace Vampire.Store

open Lib

variable {Key Meta : Type} [DecidableEq Key] {serde : Serde Meta} {maxCacheSize : Nat}

/-- The total size of the completed entries. -/
def dirTotal (s : Store Key Meta) : Nat := (s.dir.map fun e => (s.content e.2).length).sum

/-- Something still owes the cache a scan. -/
inductive Excused (s : Store Key Meta) : Prop
  | pinned {k t} : s.pins k = some t → Excused s
  | sending {t T} : s.tokens t = some T → T.stage = .sending → Excused s
  | requested : s.chan = true → Excused s
  | waiting : s.janitor = .waiting → Excused s
  | draining : s.janitor = .draining → Excused s
  | pending : s.startup = .pending → Excused s
  | written {w W} : s.writers w = some W → W.ops = [.evict, .unlock] → s.scan = none → Excused s

/-- Each entry is still in the scan's list, with its size. -/
def Covered (s : Store Key Meta) (rest : List (Listed Key)) : Prop :=
  ∀ e ∈ s.dir, ∃ x ∈ rest, x.key = e.1 ∧ x.size = (s.content e.2).length

/-- A scan that will bring the total under the bound. -/
def ScanFair (s : Store Key Meta) : Scan Key → Prop
  | .listing snap seen => s.dir ⊆ snap ∧ ∀ x ∈ seen, x.size = (s.content x.ino).length ∧ (x.key, x.ino) ∈ s.dir
  | .deciding total rest => total = (rest.map (·.size)).sum ∧ Covered s rest
  | .removing total e rest => total = e.size + (rest.map (·.size)).sum ∧ Covered s (e :: rest)

def BoundInv (maxCacheSize : Nat) (s : Store Key Meta) : Prop :=
  Excused s ∨ (∃ sc, s.scan = some sc ∧ s.ScanFair sc) ∨ s.scan = none ∧ s.dirTotal ≤ maxCacheSize

section
omit [DecidableEq Key]

/-! ## What a scan has in its list -/

/-- The names are distinct, so what covers the directory is at least as large. -/
theorem Covered.dirTotal_le {s : Store Key Meta} {rest : List (Listed Key)} (h : Covered s rest)
    (hnodup : (s.dir.map (·.1)).Nodup) : s.dirTotal ≤ (rest.map (·.size)).sum := by
  let sized : Key × Nat → Key × Nat := fun e => (e.1, (s.content e.2).length)
  have hd : (s.dir.map sized).Nodup := by
    refine List.Nodup.of_map Prod.fst ?_
    simpa [sized, Function.comp_def] using hnodup
  have hsub : s.dir.map sized ⊆ rest.map fun x => (x.key, x.size) := by
    intro p hp
    obtain ⟨e, he, rfl⟩ := List.mem_map.1 hp
    obtain ⟨x, hx, hk, hs⟩ := h e he
    exact List.mem_map.2 ⟨x, hx, by simp [sized, hk, hs]⟩
  obtain ⟨l, hperm, hl⟩ := List.subperm_of_subset hd hsub
  calc s.dirTotal = ((s.dir.map sized).map (·.2)).sum := by simp [dirTotal, sized, Function.comp_def]
    _ = (l.map (·.2)).sum := ((hperm.map _).sum_eq).symm
    _ ≤ ((rest.map fun x => (x.key, x.size)).map (·.2)).sum := (hl.map _).sum_le_sum fun _ _ => Nat.zero_le _
    _ = (rest.map (·.size)).sum := by simp [Function.comp_def]

/-! ## What owes a scan -/

variable {s s' : Store Key Meta}

theorem Excused.frame (h : Excused s)
    (next content temps dir orphans broken pub counter leader nextToken loads lock) :
    Excused { s with next, content, temps, dir, orphans, broken, pub, counter, leader, nextToken, loads, lock } := by
  cases h with
  | pinned h => exact .pinned h
  | sending h h' => exact .sending h h'
  | requested h => exact .requested h
  | waiting h => exact .waiting h
  | draining h => exact .draining h
  | pending h => exact .pending h
  | written h h' h'' => exact .written h h' h''

theorem Excused.setWriter (h : Excused s) {w : Nat} {W : Writer Key Meta}
    (hw : ∀ V, s.writers w = some V → V.ops ≠ [.evict, .unlock]) : Excused (s.setWriter w W) := by
  cases h with
  | pinned h => exact .pinned h
  | sending h h' => exact .sending h h'
  | requested h => exact .requested h
  | waiting h => exact .waiting h
  | draining h => exact .draining h
  | pending h => exact .pending h
  | @written v V h h' h'' =>
    refine .written ((Function.update_of_ne ?_ ..).trans h) h' h''
    rintro rfl
    exact hw V h h'

theorem Excused.setToken (h : Excused s) {t : Nat} {T : Token Key} (ht : s.tokens t = some T) (T' : Token Key)
    (hst : T.stage = .sending → T'.stage = .sending) : Excused (s.setToken t T') := by
  cases h with
  | pinned h => exact .pinned h
  | @sending u U h h' =>
    by_cases he : u = t
    · subst he
      cases h.symm.trans ht
      exact .sending (Function.update_self ..) (hst h')
    · exact .sending ((Function.update_of_ne he ..).trans h) h'
  | requested h => exact .requested h
  | waiting h => exact .waiting h
  | draining h => exact .draining h
  | pending h => exact .pending h
  | written h h' h'' => exact .written h h' h''

/-- A step that changes neither the directory nor the scan. -/
theorem BoundInv.congr (h : BoundInv maxCacheSize s) (hex : Excused s → Excused s') (hscan : s'.scan = s.scan)
    (hdir : s'.dir = s.dir) (hc : ∀ e ∈ s.dir, s'.content e.2 = s.content e.2) : BoundInv maxCacheSize s' := by
  rcases h with h | ⟨sc, hsc, hf⟩ | ⟨hnone, hle⟩
  · exact .inl (hex h)
  · refine .inr (.inl ⟨sc, hscan.trans hsc, ?_⟩)
    have hcov : ∀ {rest}, Covered s rest → Covered s' rest := by
      intro rest hcov e he
      rw [hdir] at he
      rw [hc e he]
      exact hcov e he
    cases sc with
    | listing snap seen =>
      refine ⟨hdir ▸ hf.1, fun x hx => ?_⟩
      obtain ⟨hsize, hmem⟩ := hf.2 x hx
      exact ⟨by rw [hc _ hmem]; exact hsize, hdir ▸ hmem⟩
    | deciding total rest => exact ⟨hf.1, hcov hf.2⟩
    | removing total e rest => exact ⟨hf.1, hcov hf.2⟩
  · refine .inr (.inr ⟨hscan.trans hnone, ?_⟩)
    rw [dirTotal, hdir, List.map_congr_left fun e he => congrArg List.length (hc e he)]
    exact hle

end

/-- No step writes into a visible file. -/
theorem Rule.content_dir {s s' : Store Key Meta} {a : Action Key Meta} (hr : Rule serde maxCacheSize s a s')
    (hd : DiskOk serde s) (hs : WritersOk serde s) {e : Key × Nat} (he : e ∈ s.dir) :
    s'.content e.2 = s.content e.2 := by
  have hv : Visible s e.2 := .inr ⟨e, he, rfl⟩
  cases hr with
  | @run w W op rest s' hw hops hrun =>
    cases op with
    | create =>
      cases hrun
      refine Function.update_of_ne ?_ ..
      cases ht : s.temps W.temp with
      | none => have := hd.dir_lt he; simp only [Option.getD_none]; omega
      | some i => rintro rfl; exact hd.visible_temp hv ht
    | write bytes =>
      rcases bytes with _ | ⟨b, bs⟩ <;> simp only [runOp] at hrun <;> repeat' split at hrun
      all_goals cases hrun
      all_goals rfl
    | append | flush | lock | rename =>
      simp only [runOp] at hrun
      repeat' split at hrun
      all_goals cases hrun
      all_goals rfl
    | close | pin | unlock | remove => cases hrun; rfl
    | evict => cases hrun
  | land hw hfile | landFail hw hfile =>
    refine Function.update_of_ne ?_ ..
    rintro rfl
    exact hd.visible_temp hv (hs.open_temp hw _ hfile)
  | landOrphan ho | loseOrphan ho =>
    refine Function.update_of_ne ?_ ..
    rintro rfl
    obtain ⟨l₁, l₂, hsplit, -⟩ := getElem?_split ho
    have hl := hd.visible_left hv
    simp [hsplit] at hl
  | scanStart => unfold beforeScan; split <;> rfl
  | scanEnd => unfold afterScan; repeat' split
               all_goals rfl
  | startArtifact | startMetadata | fail | finish | attach | load | loadStep | leave | unpinOwn | unpinOther
  | send | recv | janitorLock | drain | scanList | scanSort | scanPinned | scanPick | scanRemove => rfl

/-! ## Every step -/

section
variable {s s' : Store Key Meta} {w : Nat} {W : Writer Key Meta} {op : Op} {rest : List Op}

omit [DecidableEq Key] in
theorem failWriter_excused (h : Excused s) (hw : s.writers w = some W) (hne : W.ops ≠ [.evict, .unlock])
    (htoken : ∀ t, W.token = some t → ∃ T, s.tokens t = some T ∧ T.stage ≠ .sending) :
    Excused (s.failWriter w W) := by
  have hne' : ∀ V, s.writers w = some V → V.ops ≠ [.evict, .unlock] := fun V hV => by
    cases hw.symm.trans hV; exact hne
  unfold failWriter
  cases hW : W.token with
  | none => exact (h.setWriter hne').frame ..
  | some t =>
    obtain ⟨T, ht, hst⟩ := htoken t hW
    have h1 : Excused (s.setToken t { T with refs := [], stage := .dropping }) :=
      h.setToken ht _ fun h => absurd h hst
    simp only [Option.bind_some, ht, Option.getD_some]
    exact (h1.setWriter hne').frame ..

omit [DecidableEq Key] in
/-- The owner of a fallible call holds a live token, or none. -/
theorem TasksOk.own_token (h : TasksOk s) (hw : s.writers w = some W) (hops : W.ops = op :: rest)
    (hop : op.plain = true ∨ op = .rename) {t : Nat} (ht : W.token = some t) :
    ∃ T, s.tokens t = some T ∧ T.refs = [.publisher w] ∧ T.stage = .live := by
  cases (h.placed hw).at hops with
  | plain _ _ htoken | replace _ htoken _ => simp [ht] at htoken
  | publish ha htoken htok hp => cases ht.symm.trans htoken; exact ⟨_, htok, rfl, rfl⟩
  | pin | lock | evict | unlock | remove => simp [Op.plain] at hop

theorem runOp_bound (hd : DiskOk serde s) (hs : WritersOk serde s) (ht : TasksOk s)
    (hw : s.writers w = some W) (hops : W.ops = op :: rest) (hrun : s.runOp w W rest op = some s')
    (h : BoundInv maxCacheSize s) : BoundInv maxCacheSize s' := by
  have hr : Rule serde maxCacheSize s (.run w) s' := .run hw hops hrun
  have hc : ∀ e ∈ s.dir, s'.content e.2 = s.content e.2 := fun e he => hr.content_dir hd hs he
  have hscan : s'.scan = s.scan := (runOp_tasks hrun).2.1
  have hne' : op ≠ .evict → ∀ V, s.writers w = some V → V.ops ≠ [.evict, .unlock] := by
    intro hop V hV he
    cases hw.symm.trans hV
    exact hop (List.cons.inj (hops.symm.trans he)).1
  cases (ht.placed hw).at hops with
  | plain hop hpre htoken =>
    have hne := hne' (by rintro rfl; simp [Op.plain] at hop)
    rcases runOp_plain hop hrun with rfl | ⟨_, _, _, _, _, _, rfl⟩
    · exact h.congr (fun h => failWriter_excused h hw (hne W hw) (by simp [htoken])) hscan rfl hc
    · exact h.congr (fun h => (h.frame ..).setWriter hne) hscan rfl hc
  | pin ha htoken =>
    cases hrun
    exact .inl (.pinned (k := W.key) (Function.update_self ..))
  | lock ha htoken =>
    simp only [runOp] at hrun
    split at hrun <;> cases hrun
    exact h.congr (fun h => (h.frame ..).setWriter (hne' (by simp))) hscan rfl hc
  | publish ha htoken htok hp =>
    simp only [runOp] at hrun
    split at hrun <;> cases hrun
    exact .inl (.pinned (k := W.key) hp)
  | replace ha htoken hl =>
    have hnone := ht.scan_none hw (hne' (by simp) W hw) hl
    simp only [runOp] at hrun
    split at hrun <;> cases hrun
    exact .inl (.written (Function.update_self ..) rfl hnone)
  | evict => cases hrun
  | unlock ha htoken hl =>
    cases hrun
    exact h.congr (fun h => (h.frame ..).setWriter (hne' (by simp))) rfl rfl hc
  | remove =>
    cases hrun
    exact h.congr (fun h => (h.frame ..).setWriter (hne' (by simp))) rfl rfl hc

omit [DecidableEq Key] in
/-- The end of a scan loses nothing that owes another. -/
theorem afterScan_excused (ht : TasksOk s) (hscan : s.scan ≠ none) (h : Excused s) :
    Excused (s.afterScan s.lock) := by
  have hsc := ht.scan hscan
  cases hl : s.lock with
  | none => simp [hl, Scanning] at hsc
  | some holder =>
    cases holder with
    | startup =>
      simp only [hl, Scanning] at hsc
      cases h with
      | pinned h => exact .pinned h
      | sending h h' => exact .sending h h'
      | requested h => exact .requested h
      | waiting h => exact .waiting h
      | draining h => exact .draining h
      | pending h => simp [hsc] at h
      | written h h' h'' => exact absurd h'' hscan
    | janitor =>
      simp only [hl, Scanning] at hsc
      cases h with
      | pinned h => exact .pinned h
      | sending h h' => exact .sending h h'
      | requested h => exact .requested h
      | waiting h => simp [hsc] at h
      | draining h => simp [hsc] at h
      | pending h => exact .pending h
      | written h h' h'' => exact absurd h'' hscan
    | writer w =>
      rw [hl] at hsc
      obtain ⟨W, hw, hops⟩ := hsc
      simp only [afterScan, hw, hops]
      cases h with
      | pinned h => exact .pinned h
      | sending h h' => exact .sending h h'
      | requested h => exact .requested h
      | waiting h => exact .waiting h
      | draining h => exact .draining h
      | pending h => exact .pending h
      | written h h' h'' => exact absurd h'' hscan

omit [DecidableEq Key] in
/-- What owes a scan goes on to in a scan's own steps. -/
theorem Excused.scan {sc : Option (Scan Key)} {dir : List (Key × Nat)} (h : Excused s) (hscan : s.scan ≠ none) :
    Excused { s with dir, scan := sc } := by
  cases h with
  | pinned h => exact .pinned h
  | sending h h' => exact .sending h h'
  | requested h => exact .requested h
  | waiting h => exact .waiting h
  | draining h => exact .draining h
  | pending h => exact .pending h
  | written h h' h'' => exact absurd h'' hscan

theorem Rule.bound_ok {a : Action Key Meta} (hr : Rule serde maxCacheSize s a s') (hd : DiskOk serde s)
    (hs : WritersOk serde s) (ht : TasksOk s) (h : BoundInv maxCacheSize s) : BoundInv maxCacheSize s' := by
  have hc : ∀ e ∈ s.dir, s'.content e.2 = s.content e.2 := fun e he => hr.content_dir hd hs he
  -- In the middle of a scan.
  have fair : ∀ {sc}, s.scan = some sc → Excused s ∨ s.ScanFair sc := by
    intro sc hsc
    rcases h with h | ⟨sc', hsc', hf⟩ | ⟨hnone, -⟩
    · exact .inl h
    · cases hsc.symm.trans hsc'; exact .inr hf
    · simp [hnone] at hsc
  cases hr with
  | startArtifact h1 h2 _ _ | startMetadata h1 h2 _ =>
    exact h.congr (fun h => (h.frame ..).setWriter (by simp [h2])) rfl rfl hc
  | run hw hops hrun => exact runOp_bound hd hs ht hw hops hrun h
  | @fail w W op rest hw hops hf =>
    have hop : op.plain = true ∨ op = .rename := by cases op <;> simp [Op.fallible, Op.plain] at hf ⊢
    have hne : W.ops ≠ [.evict, .unlock] := by
      intro he
      obtain rfl := (List.cons.inj (hops.symm.trans he)).1
      simp [Op.fallible] at hf
    refine h.congr (fun h => failWriter_excused h hw hne fun t htok => ?_) rfl rfl hc
    obtain ⟨T, hT, -, hst⟩ := ht.own_token hw hops hop htok
    exact ⟨T, hT, by simp [hst]⟩
  | finish | load | loadStep | landOrphan | loseOrphan => exact h.congr (fun h => h.frame ..) rfl rfl hc
  | @land w W _ _ _ hw hfile | @landFail w W _ _ _ _ hw hfile =>
    have hne : ∀ V, s.writers w = some V → V.ops ≠ [.evict, .unlock] := by
      intro V hV he
      cases hw.symm.trans hV
      obtain ⟨-, -, hfit, -⟩ := hs.pending hw hfile
      simp [he, fits] at hfit
    exact h.congr (fun h => (h.frame ..).setWriter hne) rfl rfl hc
  | @attach l t T htok hl hmem =>
    exact h.congr (fun h => (h.setToken htok { T with refs := .waiter l :: T.refs } id).frame ..) rfl rfl hc
  | @leave t T ref htok hmem hm =>
    have hlive := ht.token_refs htok (List.ne_nil_of_mem hmem)
    exact h.congr (fun h => h.setToken htok _ (by simp [hlive])) rfl rfl hc
  | unpinOwn htok hst hp => exact .inl (.sending (Function.update_self ..) rfl)
  | unpinOther htok hst hp => exact h.congr (fun h => h.setToken htok _ (by simp [hst])) rfl rfl hc
  | send htok hst => exact .inl (.requested rfl)
  | recv hj hch => exact .inl (.waiting rfl)
  | janitorLock hj hl => exact .inl (.draining rfl)
  | drain hj hch => exact .inl (.draining hj)
  | scanStart hnone hev => exact .inr (.inl ⟨_, rfl, by unfold beforeScan; split <;> exact ⟨List.Subset.refl _, by simp⟩⟩)
  | @scanList snap seen key modified ino hsc hlook hk =>
    rcases fair hsc with h | ⟨hsub, hseen⟩
    · exact .inl (h.scan (by simp [hsc]))
    · refine .inr (.inl ⟨_, rfl, hsub, fun x hx => ?_⟩)
      rcases List.mem_cons.1 hx with rfl | hx
      · exact ⟨rfl, lookupEntry_mem hlook⟩
      · exact hseen x hx
  | @scanSort snap seen hsc hall =>
    rcases fair hsc with h | ⟨hsub, hseen⟩
    · exact .inl (h.scan (by simp [hsc]))
    · have hperm := List.perm_insertionSort (fun a b : Listed Key => a.modified ≤ b.modified) seen
      refine .inr (.inl ⟨_, rfl, (hperm.map _).sum_eq.symm, fun e he => ?_⟩)
      -- Present throughout, so listed.
      obtain ⟨x, hx, rfl⟩ := List.mem_map.1 (hall e (hsub he) he)
      exact ⟨x, hperm.mem_iff.2 hx, rfl, (hseen x hx).1⟩
  | @scanPinned total e rest hsc hlt hpin =>
    refine .inl ?_
    cases hp : s.pins e.key with
    | none => simp [isPinned, hp] at hpin
    | some t => exact .pinned (k := e.key) hp
  | @scanPick total e rest hsc hlt hpin =>
    rcases fair hsc with h | ⟨htotal, hcov⟩
    · exact .inl (h.scan (by simp [hsc]))
    · exact .inr (.inl ⟨_, rfl, by simpa using htotal, hcov⟩)
  | @scanRemove total e rest hsc =>
    rcases fair hsc with h | ⟨htotal, hcov⟩
    · exact .inl (h.scan (by simp [hsc]))
    · refine .inr (.inl ⟨_, rfl, by omega, fun e' he' => ?_⟩)
      obtain ⟨he', hk⟩ := mem_removeEntry.1 he'
      obtain ⟨x, hx, hxk, hxs⟩ := hcov e' he'
      refine ⟨x, (List.mem_cons.1 hx).resolve_left ?_, hxk, hxs⟩
      rintro rfl
      exact hk hxk.symm
  | @scanEnd total rest hsc hend =>
    have hne : s.scan ≠ none := by simp [hsc]
    rcases fair hsc with h | ⟨htotal, hcov⟩
    · exact .inl (afterScan_excused ht hne h)
    · have hle : s.dirTotal ≤ maxCacheSize := by
        have hdir := hcov.dirTotal_le hd.dir_nodup
        rcases hend with hle | rfl
        · omega
        · simp only [List.map_nil, List.sum_nil] at hdir
          omega
      refine .inr (.inr ?_)
      unfold afterScan
      repeat' split
      all_goals exact ⟨rfl, hle⟩

end

/-! ## The theorem -/

omit [DecidableEq Key] in
theorem Init.bound_ok {s : Store Key Meta} (h : Init s) : BoundInv maxCacheSize s := by
  obtain ⟨-, -, -, -, -, -, -, -, -, -, -, -, -, -, -, -, hst⟩ := h
  exact .inl (.pending hst)

/-- Nothing is going on: no token is live or being dropped, no eviction
request waits, the janitor is in `recv`, no write is in progress. -/
structure Quiet (s : Store Key Meta) : Prop where
  tokens : ∀ t T, s.tokens t = some T → T.stage = .dead
  chan : s.chan = false
  janitor : s.janitor = .recv
  writers : ∀ w W, s.writers w = some W → W.ops = []
  startup : s.startup = .ready

/-- **Bounded at quiescence.** In every run whose renames are whole, whenever
nothing is going on the completed entries fit the bound. -/
theorem bounded_at_quiescence {s : Store Key Meta} (h : Run (step serde maxCacheSize) RenamesWhole Init s)
    (hq : Quiet s) : s.dirTotal ≤ maxCacheSize := by
  have hinv : BoundInv maxCacheSize s := by
    refine h.invariant_of (fun s => DiskOk serde s ∧ WritersOk serde s ∧ LoadsOk serde s ∧ TasksOk s)
      (BoundInv maxCacheSize) Run.store_ok (fun _ hi => hi.bound_ok) ?_
    rintro s a s' ⟨hd, hs, -, ht⟩ - hb - hst
    exact (step_rule hst).bound_ok hd hs ht hb
  obtain ⟨-, -, -, ht⟩ := Run.store_ok h
  have hnot : ¬ Excused s := by
    intro he
    cases he with
    | @pinned k t hp =>
      obtain ⟨T, hT, -, hst⟩ := ht.pin_token hp
      simp [hq.tokens t T hT] at hst
    | @sending t T hT hst => simp [hq.tokens t T hT] at hst
    | requested h => simp [hq.chan] at h
    | waiting h => simp [hq.janitor] at h
    | draining h => simp [hq.janitor] at h
    | pending h => simp [hq.startup] at h
    | @written w W hw hops _ => simp [hq.writers w W hw] at hops
  rcases hinv with he | ⟨sc, hsc, -⟩ | ⟨-, hle⟩
  · exact absurd he hnot
  · -- A scan has a holder that is at it.
    have hscan := ht.scan (by simp [hsc])
    cases hl : s.lock with
    | none => simp [hl, Scanning] at hscan
    | some holder =>
      cases holder with
      | startup => simp [hl, Scanning, hq.startup] at hscan
      | janitor => simp [hl, Scanning, hq.janitor] at hscan
      | writer w =>
        rw [hl] at hscan
        obtain ⟨W, hw, hops⟩ := hscan
        simp [hq.writers w W hw] at hops
  · exact hle

/-- A fetch into an empty store whose token is dropped at once, and the janitor's scan it asks for,
during which the background write of the length lands if it has not before the rename. -/
def evictRun (landed : Bool) : List (Action Nat Unit) :=
  [.scanStart, .scanSort, .scanEnd] ++ fetchSteps landed 0 7 [9, 9] ++
    [.finish 0, .leave 0 .inflight, .unpin 0, .send 0, .recv, .janitorLock, .scanStart, .scanList 7 0, .scanSort] ++
    if landed then [.scanCheck, .scanRemove, .scanEnd] else [.scanEnd, .landOrphan 0]

/-- The store after the run, of a bound of 8 bytes. -/
def evicted (landed : Bool) : Store Nat Unit :=
  (exec (step unitSerde 8) (evictRun landed) (ofEntries [])).getD (ofEntries [])

theorem exec_evicted (landed : Bool) :
    exec (step unitSerde 8) (evictRun landed) (ofEntries []) = some (evicted landed) := by
  have hsome : ∀ b, (exec (step unitSerde 8) (evictRun b) (ofEntries [])).isSome = true := by decide
  obtain ⟨s, hs⟩ := Option.isSome_iff_exists.1 (hsome landed)
  rw [evicted, hs, Option.getD_some]

theorem quiet_evicted (landed : Bool) : Quiet (evicted landed) := by
  cases landed
  all_goals refine ⟨?_, rfl, rfl, ?_, rfl⟩
  all_goals
    rintro (_ | n) x hx
    · exact Option.some.inj hx ▸ rfl
    · cases hx

/-- The bound holds after the run with the write landed. -/
theorem bounded_at_quiescence_evicted : (evicted true).dirTotal ≤ 8 := by
  have hok : allowed (step unitSerde 8) (fun s a => decide (RenamesWhole s a)) (evictRun true) (ofEntries []) = true := by
    decide
  have hrun : Run (step unitSerde 8) RenamesWhole Init (evicted true) :=
    Run.exec_allowed (by simp) (.start init_ofEntries_nil) hok (exec_evicted true)
  exact bounded_at_quiescence hrun (quiet_evicted true)

/-- The scan saw 6 bytes; the length lands after it. -/
theorem length_lands_after_scan : ∃ s : Store Nat Unit,
    Run (step unitSerde 8) Any Init s ∧ Quiet s ∧ s.orphans = [] ∧ 8 < s.dirTotal :=
  ⟨evicted false, Run.exec (.start init_ofEntries_nil) (exec_evicted false), quiet_evicted false, rfl, by decide⟩

end Vampire.Store
