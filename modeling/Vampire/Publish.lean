/-
Publication: what a rename makes visible is the packed entry its writer was
given, and what a load of it returns (`commit_artifact`, `store_metadata`,
`load`).

`store_metadata` flushes before it drops its handle, so at its rename nothing
is pending. `commit_artifact` drops the handle with the background write of
the length field left behind: the entry is whole at the rename exactly when
that write has landed by then (`RenamesWhole`).
-/
import Vampire.Lib.Runs
import Vampire.Store

namespace Vampire.Store

open Lib

variable {Key Meta : Type} [DecidableEq Key] {serde : Serde Meta} {maxCacheSize : Nat}

/-! ## The calls still to make -/

/-- What the calls still to make will write. -/
def written : List Op → Bytes
  | [] => []
  | .write bytes :: ops => bytes ++ written ops
  | _ :: ops => written ops

/-- How a writer's file stands between two calls: not created; open with
nothing pending; open; closed with everything written; closed with a write
left behind; renamed. -/
inductive Phase
  | absent | clean | dirty | shut | loose | visible

/-- The calls still to make suit the phase. Only an artifact's handle may be
closed with a write pending. -/
def fits (artifact : Bool) : Phase → List Op → Bool
  | .absent, .create :: ops => fits artifact .clean ops
  | .clean, .write _ :: ops => fits artifact .dirty ops
  | .clean, .flush :: ops => fits artifact .clean ops
  | .clean, .close :: ops => fits artifact .shut ops
  | .dirty, .write _ :: ops => fits artifact .dirty ops
  | .dirty, .flush :: ops => fits artifact .clean ops
  | .dirty, .close :: ops => artifact && fits artifact .loose ops
  | .shut, .append :: ops => fits artifact .clean ops
  | .shut, .lock :: ops => fits artifact .shut ops
  | .shut, .rename :: ops => fits artifact .visible ops
  | .loose, .pin :: ops => fits artifact .loose ops
  | .loose, .rename :: ops => fits artifact .visible ops
  | .visible, .evict :: ops => fits artifact .visible ops
  | .visible, .unlock :: ops => fits artifact .visible ops
  | .visible, [] => true
  | _, _ => false

theorem written_append (a b : List Op) : written (a ++ b) = written a ++ written b := by
  induction a with
  | nil => rfl
  | cons op a ih => cases op <;> simp [written, ih]

theorem written_map_write (chunks : List Bytes) : written (chunks.map .write) = chunks.flatten := by
  induction chunks with
  | nil => rfl
  | cons c chunks ih => simp [written, ih]

theorem written_fetchArtifact (chunks : List Bytes) (json : Bytes) :
    written (fetchArtifact chunks json) = chunks.flatten ++ json ++ toBeBytes json.length := by
  simp [fetchArtifact, commitArtifact, written, written_append, written_map_write]

theorem written_storeMetadata (pieces : List Bytes) (json : Bytes) :
    written (storeMetadata pieces json) = pieces.flatten ++ json ++ toBeBytes json.length := by
  simp [storeMetadata, written, written_append, written_map_write]

theorem fits_writes {artifact : Bool} {ops : List Op} (hd : fits artifact .dirty ops = true) :
    ∀ (chunks : List Bytes) {ph : Phase}, ph = .clean ∨ ph = .dirty → fits artifact ph ops = true →
      fits artifact ph (chunks.map .write ++ ops) = true
  | [], _, _, h => h
  | _ :: chunks, _, .inl rfl, _ => by
    simpa [fits] using fits_writes hd chunks (.inr rfl) hd
  | _ :: chunks, _, .inr rfl, _ => by
    simpa [fits] using fits_writes hd chunks (.inr rfl) hd

theorem fits_fetchArtifact (chunks : List Bytes) (json : Bytes) :
    fits true .absent (fetchArtifact chunks json) = true := by
  simp only [fetchArtifact, List.cons_append, fits, List.append_assoc]
  exact fits_writes (by simp [fits, commitArtifact]) _ (.inl rfl) (by simp [fits, commitArtifact])

theorem fits_storeMetadata (pieces : List Bytes) (json : Bytes) :
    fits false .absent (storeMetadata pieces json) = true := by
  simp only [storeMetadata, List.cons_append, fits]
  exact fits_writes (by simp [fits]) _ (.inl rfl) (by simp [fits])

/-! ## The invariant of the files -/

end Vampire.Store

namespace Vampire

variable {Key Meta : Type}

/-- The writer runs `do_artifact_fetch`. -/
def Writer.isArtifact (W : Writer Key Meta) : Bool :=
  match W.temp with
  | .part _ => true
  | .metadata _ _ => false

/-- What the writer was given to lay down. -/
def Writer.target (serde : Serde Meta) (W : Writer Key Meta) : Bytes := pack serde W.body W.info

/-- The function has returned `Ok`. -/
def Writer.returnedOk (W : Writer Key Meta) : Bool := W.ops.isEmpty && !W.failed

end Vampire

namespace Vampire.Store

open Lib

variable {Key Meta : Type} [DecidableEq Key] {serde : Serde Meta} {maxCacheSize : Nat}

/-- The background writes left behind on an inode. -/
def leftOn (orphans : List (Nat × Bytes)) (i : Nat) : List Bytes :=
  orphans.filterMap fun o => if o.1 = i then some o.2 else none

/-- No background write is left on the inode and none has failed there. -/
def Settled (s : Store Key Meta) (i : Nat) : Prop := i ∉ s.broken ∧ leftOn s.orphans i = []

/-- How far a writer's inode is from its target, by phase. -/
def FileOk (serde : Serde Meta) (s : Store Key Meta) (W : Writer Key Meta) : Phase → Prop
  | .absent => W.file = none ∧ s.temps W.temp = none ∧ written W.ops = W.target serde
  | .clean => ∃ i, W.ino = some i ∧ W.file = some ⟨i, none, false⟩ ∧ s.temps W.temp = some i ∧
      s.Settled i ∧ s.content i ++ written W.ops = W.target serde
  | .dirty => ∃ i pending err, W.ino = some i ∧ W.file = some ⟨i, pending, err⟩ ∧
      s.temps W.temp = some i ∧ leftOn s.orphans i = [] ∧ (err = true ↔ i ∈ s.broken) ∧
      (err = false → s.content i ++ pending.getD [] ++ written W.ops = W.target serde)
  | .shut => ∃ i, W.ino = some i ∧ W.file = none ∧ s.temps W.temp = some i ∧ s.Settled i ∧
      s.content i ++ written W.ops = W.target serde
  | .loose => W.isArtifact = true ∧ ∃ i, W.ino = some i ∧ W.file = none ∧ s.temps W.temp = some i ∧
      (i ∈ s.broken ∨ ∃ b : Option Bytes, leftOn s.orphans i = b.toList ∧
        s.content i ++ b.getD [] ++ written W.ops = W.target serde)
  | .visible => W.file = none ∧ (W.ops ≠ [] → s.temps W.temp = none) ∧
      ∃ i, W.ino = some i ∧ s.pub i = some (W.key, W.body, W.info)

/-- The paths, and the inodes behind them. -/
structure DiskOk (serde : Serde Meta) (s : Store Key Meta) : Prop where
  temps_lt : ∀ {t i}, s.temps t = some i → i < s.next
  dir_lt : ∀ {e}, e ∈ s.dir → e.2 < s.next
  orphan_lt : ∀ {o}, o ∈ s.orphans → o.1 < s.next
  broken_lt : ∀ {i}, i ∈ s.broken → i < s.next
  pub_lt : ∀ {i p}, s.pub i = some p → i < s.next
  temps_inj : ∀ {t t' i}, s.temps t = some i → s.temps t' = some i → t = t'
  temps_pub : ∀ {t i}, s.temps t = some i → s.pub i = none
  temps_dir : ∀ {t i e}, s.temps t = some i → e ∈ s.dir → e.2 ≠ i
  dir_key : ∀ {e k b m}, e ∈ s.dir → s.pub e.2 = some (k, b, m) → e.1 = k
  dir_left : ∀ {e}, e ∈ s.dir → leftOn s.orphans e.2 = []
  dir_nodup : (s.dir.map (·.1)).Nodup
  pub : ∀ {i k b m}, s.pub i = some (k, b, m) →
    s.content i = pack serde b m ∧ (serde.toVec m).length ≤ maxMetaLen ∧ s.Settled i

/-- The writers, each on a temp path of its own. -/
structure WritersOk (serde : Serde Meta) (s : Store Key Meta) : Prop where
  leader : ∀ {w W k}, s.writers w = some W → W.temp = .part k → W.ops ≠ [] → s.leader k = some w
  counter : ∀ {w W k n}, s.writers w = some W → W.temp = .metadata k n → n < s.counter
  distinct : ∀ {w w' W W' k k' n}, s.writers w = some W → s.writers w' = some W' →
    W.temp = .metadata k n → W'.temp = .metadata k' n → w = w'
  owned : ∀ {t i}, s.temps t = some i → ∃ w W, s.writers w = some W ∧ W.temp = t ∧ W.ops ≠ []
  key : ∀ {w W k}, s.writers w = some W → W.temp = .part k → k = W.key
  small : ∀ {w W}, s.writers w = some W → (serde.toVec W.info).length ≤ maxMetaLen
  running : ∀ {w W}, s.writers w = some W → W.failed = false →
    ∃ ph, fits W.isArtifact ph W.ops = true ∧ FileOk serde s W ph
  gone : ∀ {w W}, s.writers w = some W → W.failed = true →
    W.file = none ∧ (W.ops = [.remove] ∨ W.ops = [])

/-- When `commit_artifact` renames, the background write of its last bytes
has completed, and successfully. -/
def RenamesWhole (s : Store Key Meta) : Action Key Meta → Prop
  | .run w => ∀ W ∈ s.writers w, W.ops.head? = some .rename → W.isArtifact = true →
      ∀ i ∈ s.temps W.temp, s.Settled i
  | _ => True

instance (s : Store Key Meta) (i : Nat) : Decidable (s.Settled i) := inferInstanceAs (Decidable (_ ∧ _))

instance (s : Store Key Meta) : (a : Action Key Meta) → Decidable (RenamesWhole s a)
  | .run w => inferInstanceAs (Decidable (∀ W ∈ s.writers w, _ → _ → ∀ i ∈ s.temps W.temp, s.Settled i))
  | .startArtifact .. | .startMetadata .. | .fail _ | .finish _ | .land _ | .landFail .. | .landOrphan _
  | .loseOrphan .. | .attach .. | .load .. | .loadStep _ | .leave .. | .unpin _ | .send _ | .recv
  | .janitorLock | .drain | .scanStart | .scanList .. | .scanSort | .scanCheck | .scanRemove | .scanEnd =>
    inferInstanceAs (Decidable True)

section
omit [DecidableEq Key]

/-! ## What is left behind -/

@[simp] theorem leftOn_nil (i : Nat) : leftOn [] i = [] := rfl

@[simp] theorem leftOn_append (a b : List (Nat × Bytes)) (i : Nat) :
    leftOn (a ++ b) i = leftOn a i ++ leftOn b i := by
  simp [leftOn]

@[simp] theorem leftOn_cons (o : Nat × Bytes) (l : List (Nat × Bytes)) (i : Nat) :
    leftOn (o :: l) i = if o.1 = i then o.2 :: leftOn l i else leftOn l i := by
  simp only [leftOn, List.filterMap_cons]
  split <;> simp_all

theorem leftOn_lt {l : List (Nat × Bytes)} {i : Nat} (h : leftOn l i ≠ []) : ∃ o ∈ l, o.1 = i := by
  by_contra hn
  push Not at hn
  refine h (List.filterMap_eq_nil_iff.2 fun o ho => ?_)
  simp [hn o ho]

theorem getElem?_split {α : Type} {l : List α} {n : Nat} {a : α} (h : l[n]? = some a) :
    ∃ l₁ l₂, l = l₁ ++ a :: l₂ ∧ l.eraseIdx n = l₁ ++ l₂ := by
  obtain ⟨hn, rfl⟩ := List.getElem?_eq_some_iff.1 h
  refine ⟨l.take n, l.drop (n + 1), ?_, List.eraseIdx_eq_take_drop_succ l n⟩
  rw [← List.drop_eq_getElem_cons hn, List.take_append_drop]

theorem append_cons_toList {α : Type} {l₁ l₂ : List α} {a : α} {b : Option α}
    (h : l₁ ++ a :: l₂ = b.toList) : l₁ = [] ∧ l₂ = [] ∧ b = some a := by
  cases l₁ <;> cases b <;> simp_all

theorem leftOn_leaveBehind {l : List (Nat × Bytes)} {f : Option Handle} {i : Nat}
    (h : ∀ h, f = some h → h.ino ≠ i) : leftOn (leaveBehind l f) i = leftOn l i := by
  obtain _ | ⟨j, _ | b, _⟩ := f
  · rfl
  · rfl
  · simp [leaveBehind, h _ rfl]

/-! ## What a step of one writer leaves alone -/

/-- Nothing has happened to the file behind an inode. -/
def SameFile (s s' : Store Key Meta) (i : Nat) : Prop :=
  s'.content i = s.content i ∧ leftOn s'.orphans i = leftOn s.orphans i ∧ (i ∈ s'.broken ↔ i ∈ s.broken)

theorem SameFile.settled {s s' : Store Key Meta} {i : Nat} (h : SameFile s s' i) (hs : s.Settled i) :
    s'.Settled i :=
  ⟨fun hb => hs.1 (h.2.2.1 hb), h.2.1.trans hs.2⟩

/-- A writer's phase survives a step that keeps its path and what is behind it. -/
theorem FileOk.congr {s s' : Store Key Meta} {W : Writer Key Meta} {ph : Phase} (h : FileOk serde s W ph)
    (hpub : ∀ i p, s.pub i = some p → s'.pub i = some p)
    (ht : W.ops ≠ [] → s'.temps W.temp = s.temps W.temp)
    (hi : W.ops ≠ [] → ∀ i, s.temps W.temp = some i → SameFile s s' i)
    (ho : ph ≠ .visible → W.ops ≠ []) : FileOk serde s' W ph := by
  cases ph with
  | visible =>
    obtain ⟨hf, hn, i, hino, hp⟩ := h
    exact ⟨hf, fun hne => (ht hne).trans (hn hne), i, hino, hpub _ _ hp⟩
  | absent => exact ⟨h.1, (ht (ho (by simp))).trans h.2.1, h.2.2⟩
  | clean =>
    obtain ⟨i, hino, hf, htemp, hset, hc⟩ := h
    have hsame := hi (ho (by simp)) i htemp
    exact ⟨i, hino, hf, (ht (ho (by simp))).trans htemp, hsame.settled hset, hsame.1 ▸ hc⟩
  | dirty =>
    obtain ⟨i, pending, err, hino, hf, htemp, hl, he, hc⟩ := h
    have hsame := hi (ho (by simp)) i htemp
    exact ⟨i, pending, err, hino, hf, (ht (ho (by simp))).trans htemp, hsame.2.1.trans hl,
      he.trans hsame.2.2.symm, hsame.1 ▸ hc⟩
  | shut =>
    obtain ⟨i, hino, hf, htemp, hset, hc⟩ := h
    have hsame := hi (ho (by simp)) i htemp
    exact ⟨i, hino, hf, (ht (ho (by simp))).trans htemp, hsame.settled hset, hsame.1 ▸ hc⟩
  | loose =>
    obtain ⟨ha, i, hino, hf, htemp, hc⟩ := h
    have hsame := hi (ho (by simp)) i htemp
    refine ⟨ha, i, hino, hf, (ht (ho (by simp))).trans htemp, ?_⟩
    rcases hc with hb | ⟨b, hl, hc⟩
    · exact .inl (hsame.2.2.2 hb)
    · exact .inr ⟨b, hsame.2.1.trans hl, hsame.1 ▸ hc⟩

theorem fits_ops_ne {a : Bool} {ph : Phase} {ops : List Op} (h : fits a ph ops = true) (hp : ph ≠ .visible) :
    ops ≠ [] := by
  rintro rfl
  cases ph <;> simp_all [fits]

/-- After the rename nothing is left to write. -/
theorem written_visible {a : Bool} {ops : List Op} (h : fits a .visible ops = true) : written ops = [] := by
  induction ops with
  | nil => rfl
  | cons op ops ih =>
    cases op <;> simp only [fits, Bool.false_eq_true] at h
    · exact ih h
    · exact ih h

/-- Two writers that still have calls to make use different temp paths. -/
theorem WritersOk.owner {s : Store Key Meta} (h : WritersOk serde s) {w w' W W'} (hw : s.writers w = some W)
    (hw' : s.writers w' = some W') (ho : W.ops ≠ []) (ho' : W'.ops ≠ []) (ht : W.temp = W'.temp) :
    w = w' := by
  cases hk : W.temp with
  | part k =>
    have h1 := h.leader hw hk ho
    have h2 := h.leader hw' (ht ▸ hk) ho'
    exact Option.some.inj (h1.symm.trans h2)
  | metadata k n => exact h.distinct hw hw' hk (ht ▸ hk)

/-- A step of writer `w` on its own path keeps the other writers' phases. -/
theorem WritersOk.update {s s' : Store Key Meta} (h : WritersOk serde s) {w : Nat} {W W' : Writer Key Meta}
    (hw : s.writers w = some W) (ho : W.ops ≠ []) (hs : s'.writers = Function.update s.writers w (some W'))
    (htemp : W'.temp = W.temp) (hkey : W'.key = W.key) (hinfo : W'.info = W.info) (hleader : s'.leader = s.leader)
    (hcounter : s'.counter = s.counter)
    (hpub : ∀ i p, s.pub i = some p → s'.pub i = some p)
    (ht : ∀ t, t ≠ W.temp → s'.temps t = s.temps t)
    (hi : ∀ t i, t ≠ W.temp → s.temps t = some i → SameFile s s' i)
    (hend : W'.ops = [] → s'.temps W.temp = none)
    (hrun : W'.failed = false → ∃ ph, fits W'.isArtifact ph W'.ops = true ∧ FileOk serde s' W' ph)
    (hgone : W'.failed = true → W'.file = none ∧ (W'.ops = [.remove] ∨ W'.ops = [])) :
    WritersOk serde s' := by
  have other : ∀ {v V}, s'.writers v = some V → v = w ∧ V = W' ∨ v ≠ w ∧ s.writers v = some V := by
    intro v V hv
    rw [hs, Function.update_apply] at hv
    split at hv
    · next he => exact .inl ⟨he, (Option.some.inj hv).symm⟩
    · next he => exact .inr ⟨he, hv⟩
  constructor
  · intro v V k hv hk hne
    rw [hleader]
    rcases other hv with ⟨rfl, rfl⟩ | ⟨-, hv⟩
    · exact h.leader hw (htemp ▸ hk) ho
    · exact h.leader hv hk hne
  · intro v V k n hv hk
    rw [hcounter]
    rcases other hv with ⟨rfl, rfl⟩ | ⟨-, hv⟩
    · exact h.counter hw (htemp ▸ hk)
    · exact h.counter hv hk
  · intro v v' V V' k k' n hv hv' hk hk'
    rcases other hv with ⟨rfl, rfl⟩ | ⟨-, hv⟩ <;> rcases other hv' with ⟨rfl, rfl⟩ | ⟨-, hv'⟩
    · rfl
    · exact h.distinct hw hv' (htemp ▸ hk) hk'
    · exact h.distinct hv hw hk (htemp ▸ hk')
    · exact h.distinct hv hv' hk hk'
  · intro t i hti
    by_cases hte : t = W.temp
    · subst hte
      refine ⟨w, W', by rw [hs, Function.update_self], htemp, fun he => ?_⟩
      simp [hend he] at hti
    · obtain ⟨v, V, hv, rfl, hne⟩ := h.owned ((ht t hte).symm.trans hti)
      refine ⟨v, V, ?_, rfl, hne⟩
      rw [hs, Function.update_of_ne, hv]
      rintro rfl
      exact hte (by rw [Option.some.inj (hv.symm.trans hw)])
  · intro v V k hv hk
    rcases other hv with ⟨rfl, rfl⟩ | ⟨-, hv⟩
    · exact hkey ▸ h.key hw (htemp ▸ hk)
    · exact h.key hv hk
  · intro v V hv
    rcases other hv with ⟨rfl, rfl⟩ | ⟨-, hv⟩
    · exact hinfo ▸ h.small hw
    · exact h.small hv
  · intro v V hv hf
    rcases other hv with ⟨rfl, rfl⟩ | ⟨hne, hv⟩
    · exact hrun hf
    · obtain ⟨ph, hfit, hok⟩ := h.running hv hf
      have hpath : V.ops ≠ [] → V.temp ≠ W.temp := fun hv' he => hne (h.owner hv hw hv' ho he)
      exact ⟨ph, hfit, hok.congr hpub (fun hv' => ht _ (hpath hv')) (fun hv' i => hi _ i (hpath hv'))
        (fits_ops_ne hfit)⟩
  · intro v V hv hf
    rcases other hv with ⟨rfl, rfl⟩ | ⟨-, hv⟩
    · exact hgone hf
    · exact h.gone hv hf

/-- A step that moves no writer. -/
theorem WritersOk.still {s s' : Store Key Meta} (h : WritersOk serde s) (hs : s'.writers = s.writers)
    (hleader : s'.leader = s.leader) (hcounter : s'.counter = s.counter) (ht : s'.temps = s.temps)
    (hrun : ∀ {w W ph}, s.writers w = some W → fits W.isArtifact ph W.ops = true → FileOk serde s W ph →
      FileOk serde s' W ph) : WritersOk serde s' := by
  refine ⟨?_, ?_, ?_, ?_, ?_, ?_, ?_, ?_⟩ <;> simp only [hs, hleader, hcounter, ht]
  · exact h.leader
  · exact h.counter
  · exact h.distinct
  · exact h.owned
  · exact h.key
  · exact h.small
  · intro w W hw hf
    obtain ⟨ph, hfit, hok⟩ := h.running hw hf
    exact ⟨ph, hfit, hrun hw hfit hok⟩
  · exact h.gone

/-- Some name of the directory, or a publication, stands for the inode. -/
def Visible (s : Store Key Meta) (i : Nat) : Prop := (∃ p, s.pub i = some p) ∨ ∃ e ∈ s.dir, e.2 = i

theorem DiskOk.visible_temp {s : Store Key Meta} (h : DiskOk serde s) {i : Nat} (hv : Visible s i) {t : Temp Key} :
    s.temps t ≠ some i := by
  intro ht
  rcases hv with ⟨p, hp⟩ | ⟨e, he, rfl⟩
  · simp [h.temps_pub ht] at hp
  · exact h.temps_dir ht he rfl

theorem DiskOk.visible_left {s : Store Key Meta} (h : DiskOk serde s) {i : Nat} (hv : Visible s i) :
    leftOn s.orphans i = [] := by
  rcases hv with ⟨⟨k, b, m⟩, hp⟩ | ⟨e, he, rfl⟩
  · exact (h.pub hp).2.2.2
  · exact h.dir_left he

/-- A step that touches no path and no file that is visible. -/
theorem DiskOk.touch {s s' : Store Key Meta} (h : DiskOk serde s) (hn : s'.next = s.next)
    (ht : s'.temps = s.temps) (hdir : s'.dir = s.dir) (hp : s'.pub = s.pub)
    (ho : ∀ {o}, o ∈ s'.orphans → o.1 < s.next) (hb : ∀ {i}, i ∈ s'.broken → i < s.next)
    (hsame : ∀ {i}, Visible s i → SameFile s s' i) : DiskOk serde s' := by
  refine ⟨?_, ?_, ?_, ?_, ?_, ?_, ?_, ?_, ?_, ?_, ?_, ?_⟩ <;> simp only [hn, ht, hdir, hp]
  · exact h.temps_lt
  · exact h.dir_lt
  · exact ho
  · exact hb
  · exact h.pub_lt
  · exact h.temps_inj
  · exact h.temps_pub
  · exact h.temps_dir
  · exact h.dir_key
  · exact fun he => (hsame (.inr ⟨_, he, rfl⟩)).2.1.trans (h.dir_left he)
  · exact h.dir_nodup
  · intro i k b m hi
    obtain ⟨hc, hm, hset⟩ := h.pub hi
    have hsame := hsame (.inl ⟨_, hi⟩)
    exact ⟨hsame.1.trans hc, hm, hsame.settled hset⟩

theorem DiskOk.frame {s : Store Key Meta} (h : DiskOk serde s)
    (counter writers leader tokens nextToken pins loads lock scan chan janitor startup) :
    DiskOk serde { s with
      counter, writers, leader, tokens, nextToken, pins, loads, lock, scan, chan, janitor, startup } :=
  h.touch rfl rfl rfl rfl h.orphan_lt h.broken_lt fun _ => ⟨rfl, rfl, .rfl⟩

theorem WritersOk.frame {s : Store Key Meta} (h : WritersOk serde s)
    (next dir tokens nextToken pins loads lock scan chan janitor startup) :
    WritersOk serde { s with
      next, dir, tokens, nextToken, pins, loads, lock, scan, chan, janitor, startup } :=
  ⟨h.leader, h.counter, h.distinct, h.owned, h.key, h.small, h.running, h.gone⟩

/-! ## One call of a writer -/

/-- The inode a writer has open or has closed behind its path is no other file's. -/
theorem DiskOk.leaveBehind {s : Store Key Meta} (h : DiskOk serde s) {t : Temp Key} {f : Option Handle}
    (hf : ∀ g, f = some g → s.temps t = some g.ino) :
    DiskOk serde { s with orphans := leaveBehind s.orphans f } := by
  refine h.touch rfl rfl rfl rfl ?_ h.broken_lt ?_
  · intro o ho
    obtain _ | ⟨i, _ | b, _⟩ := f
    · exact h.orphan_lt ho
    · exact h.orphan_lt ho
    · simp only [Store.leaveBehind, List.mem_append, List.mem_singleton] at ho
      rcases ho with ho | rfl
      · exact h.orphan_lt ho
      · exact h.temps_lt (hf _ rfl)
  · intro i hv
    refine ⟨rfl, leftOn_leaveBehind ?_, .rfl⟩
    rintro g hg rfl
    exact h.visible_temp hv (hf g hg)

/-- Which inode a running writer has open. -/
theorem FileOk.open_temp {s : Store Key Meta} {W : Writer Key Meta} {ph : Phase} (h : FileOk serde s W ph) :
    ∀ g, W.file = some g → s.temps W.temp = some g.ino := by
  intro g hg
  cases ph with
  | absent => simp [h.1] at hg
  | visible => simp [h.1] at hg
  | clean => obtain ⟨i, -, hf, ht, -⟩ := h; rw [hf] at hg; cases hg; exact ht
  | dirty => obtain ⟨i, _, _, -, hf, ht, -⟩ := h; rw [hf] at hg; cases hg; exact ht
  | shut => obtain ⟨i, -, hf, -⟩ := h; simp [hf] at hg
  | loose => obtain ⟨-, i, -, hf, -⟩ := h; simp [hf] at hg

theorem WritersOk.open_temp {s : Store Key Meta} (h : WritersOk serde s) {w : Nat} {W : Writer Key Meta}
    (hw : s.writers w = some W) : ∀ g, W.file = some g → s.temps W.temp = some g.ino := by
  intro g hg
  cases hf : W.failed with
  | true => simp [(h.gone hw hf).1] at hg
  | false => obtain ⟨ph, -, hok⟩ := h.running hw hf; exact hok.open_temp g hg

/-- A handle with a background write belongs to a writer between a write and its landing. -/
theorem WritersOk.pending {s : Store Key Meta} (h : WritersOk serde s) {w : Nat} {W : Writer Key Meta}
    (hw : s.writers w = some W) {ino bytes err} (hfile : W.file = some ⟨ino, some bytes, err⟩) :
    W.failed = false ∧ W.ops ≠ [] ∧ fits W.isArtifact .dirty W.ops = true ∧ W.ino = some ino ∧
      leftOn s.orphans ino = [] ∧ (err = true ↔ ino ∈ s.broken) ∧
      (err = false → s.content ino ++ bytes ++ written W.ops = W.target serde) := by
  cases hf : W.failed with
  | true => simp [(h.gone hw hf).1] at hfile
  | false =>
    obtain ⟨ph, hfit, hok⟩ := h.running hw hf
    cases ph with
    | absent => simp [hok.1] at hfile
    | visible => simp [hok.1] at hfile
    | clean => obtain ⟨i, -, hf, -⟩ := hok; simp [hf] at hfile
    | shut => obtain ⟨i, -, hf, -⟩ := hok; simp [hf] at hfile
    | loose => obtain ⟨-, i, -, hf, -⟩ := hok; simp [hf] at hfile
    | dirty =>
      obtain ⟨i, pending, err, hino, hf, -, hl, he, hc⟩ := hok
      cases hf.symm.trans hfile
      exact ⟨rfl, fits_ops_ne hfit (by simp), hfit, hino, hl, he, hc⟩

theorem failWriter_ok {s : Store Key Meta} (hd : DiskOk serde s) (hs : WritersOk serde s) {w : Nat}
    {W : Writer Key Meta} (hw : s.writers w = some W) (ho : W.ops ≠ []) :
    DiskOk serde (s.failWriter w W) ∧ WritersOk serde (s.failWriter w W) := by
  have hopen := hs.open_temp hw
  refine ⟨(hd.leaveBehind hopen).frame .., ?_⟩
  refine hs.update hw ho rfl rfl rfl rfl rfl rfl (fun _ _ h => h) (fun _ _ => rfl) ?_ (by simp) (by simp)
    (fun _ => ⟨rfl, .inl rfl⟩)
  intro t i hne ht
  refine ⟨rfl, leftOn_leaveBehind ?_, .rfl⟩
  rintro g hg rfl
  exact hne (hd.temps_inj ht (hopen g hg))

theorem WritersOk.advance {s : Store Key Meta} (h : WritersOk serde s) {w : Nat} {W : Writer Key Meta}
    (ph : Phase) (hw : s.writers w = some W) (W' : Writer Key Meta) (ho : W.ops ≠ []) (htemp : W'.temp = W.temp)
    (hkey : W'.key = W.key) (hinfo : W'.info = W.info) (hf : W'.failed = false) (hend : W'.ops = [] → s.temps W.temp = none)
    (hfit : fits W'.isArtifact ph W'.ops = true) (hok : FileOk serde s W' ph) :
    WritersOk serde (s.setWriter w W') := by
  refine h.update hw ho rfl htemp hkey hinfo rfl rfl (fun _ _ h => h) (fun _ _ => rfl)
    (fun _ _ _ _ => ⟨rfl, rfl, .rfl⟩) hend (fun _ => ⟨ph, hfit, ?_⟩) (by simp [hf])
  exact hok.congr (fun _ _ h => h) (fun _ => rfl) (fun _ _ _ => ⟨rfl, rfl, .rfl⟩) (fits_ops_ne hfit)

end

section
variable {s s' : Store Key Meta} {w : Nat} {W : Writer Key Meta} {rest : List Op} {ph : Phase}

theorem create_ok (hd : DiskOk serde s) (hs : WritersOk serde s) (hw : s.writers w = some W)
    (hops : W.ops = .create :: rest) (hf : W.failed = false)
    (hfit : fits W.isArtifact ph (.create :: rest) = true) (hok : FileOk serde s W ph)
    (h : s.runOp w W rest .create = some s') : DiskOk serde s' ∧ WritersOk serde s' := by
  cases ph <;> simp only [fits, Bool.false_eq_true] at hfit
  obtain ⟨hfile, ht, hwritten⟩ := hok
  simp only [runOp, ht, Option.getD_none, Option.some.injEq] at h
  subst h
  have htemp : ∀ {t}, t ≠ W.temp → Function.update s.temps W.temp (some s.next) t = s.temps t :=
    fun hne => Function.update_of_ne hne ..
  have hfresh : ∀ {i p}, s.pub i = some p → i ≠ s.next := fun hp he => by
    have := hd.pub_lt hp; omega
  have hset : s.Settled s.next := by
    refine ⟨fun hb => Nat.lt_irrefl _ (hd.broken_lt hb), ?_⟩
    by_contra hne
    obtain ⟨o, ho, he⟩ := leftOn_lt hne
    have := hd.orphan_lt ho; omega
  refine ⟨⟨?_, ?_, ?_, ?_, ?_, ?_, ?_, ?_, hd.dir_key, hd.dir_left, hd.dir_nodup, ?_⟩, ?_⟩
  · intro t i hti
    by_cases he : t = W.temp
    · subst he; simp only [setWriter, Function.update_self, Option.some.injEq] at hti ⊢; omega
    · exact Nat.lt_succ_of_lt (hd.temps_lt ((htemp he).symm.trans hti))
  · exact fun he => Nat.lt_succ_of_lt (hd.dir_lt he)
  · exact fun he => Nat.lt_succ_of_lt (hd.orphan_lt he)
  · exact fun he => Nat.lt_succ_of_lt (hd.broken_lt he)
  · exact fun he => Nat.lt_succ_of_lt (hd.pub_lt he)
  · intro t t' i hti hti'
    simp only [setWriter, Function.update_apply] at hti hti'
    split at hti <;> split at hti'
    · next h1 h2 => exact h1.trans h2.symm
    · cases hti; have := hd.temps_lt hti'; omega
    · cases hti'; have := hd.temps_lt hti; omega
    · exact hd.temps_inj hti hti'
  · intro t i hti
    simp only [setWriter, Function.update_apply] at hti
    split at hti
    · cases hti
      cases hp : s.pub s.next with
      | none => exact hp
      | some _ => exact absurd rfl (hfresh hp)
    · exact hd.temps_pub hti
  · intro t i e hti he
    simp only [setWriter, Function.update_apply] at hti
    split at hti
    · cases hti; have := hd.dir_lt he; omega
    · exact hd.temps_dir hti he
  · intro i k b m hp
    obtain ⟨hc, hm, hset⟩ := hd.pub hp
    exact ⟨(Function.update_of_ne (hfresh hp) ..).trans hc, hm, hset⟩
  · refine hs.update hw (by simp [hops]) rfl rfl rfl rfl rfl rfl (fun _ _ h => h) (fun _ hne => htemp hne) ?_ ?_ ?_
      (by simp [hf])
    · intro t i _ hti
      refine ⟨Function.update_of_ne ?_ .., rfl, .rfl⟩
      have := hd.temps_lt hti; omega
    · intro he; simp [show rest = [] from he, fits] at hfit
    · refine fun _ => ⟨.clean, hfit, s.next, rfl, rfl, Function.update_self .., hset, ?_⟩
      simpa [hops, written, setWriter, Writer.target] using hwritten

theorem append_ok (hd : DiskOk serde s) (hs : WritersOk serde s) (hw : s.writers w = some W)
    (hops : W.ops = .append :: rest) (hf : W.failed = false)
    (hfit : fits W.isArtifact ph (.append :: rest) = true) (hok : FileOk serde s W ph)
    (h : s.runOp w W rest .append = some s') : DiskOk serde s' ∧ WritersOk serde s' := by
  cases ph <;> simp only [fits, Bool.false_eq_true] at hfit
  obtain ⟨i, hino, hfile, ht, hset, hc⟩ := hok
  simp only [runOp, ht, Option.some.injEq] at h
  subst h
  refine ⟨hd.frame .., hs.advance .clean hw _ (by simp [hops]) rfl rfl rfl hf ?_ hfit
    ⟨i, hino, rfl, ht, hset, by simpa [hops, written, Writer.target] using hc⟩⟩
  intro he; simp [show rest = [] from he, fits] at hfit

theorem write_ok {bytes : Bytes} (hd : DiskOk serde s) (hs : WritersOk serde s) (hw : s.writers w = some W)
    (hops : W.ops = .write bytes :: rest) (hf : W.failed = false)
    (hfit : fits W.isArtifact ph (.write bytes :: rest) = true) (hok : FileOk serde s W ph)
    (h : s.runOp w W rest (.write bytes) = some s') : DiskOk serde s' ∧ WritersOk serde s' := by
  have hne : W.ops ≠ [] := by simp [hops]
  have hfit' : fits W.isArtifact .dirty rest = true := by
    cases ph <;> simp only [fits, Bool.false_eq_true] at hfit <;> exact hfit
  have hend : rest = [] → s.temps W.temp = none := fun he => by simp [he, fits] at hfit'
  -- An open handle with nothing pending is one whose bytes have all landed.
  have hdirty : ∃ i pending err, W.ino = some i ∧ W.file = some ⟨i, pending, err⟩ ∧
      s.temps W.temp = some i ∧ leftOn s.orphans i = [] ∧ (err = true ↔ i ∈ s.broken) ∧
      (err = false → s.content i ++ pending.getD [] ++ (bytes ++ written rest) = W.target serde) := by
    cases ph <;> simp only [fits, Bool.false_eq_true] at hfit
    · obtain ⟨i, hino, hfile, ht, hset, hc⟩ := hok
      exact ⟨i, none, false, hino, hfile, ht, hset.2, by simpa using hset.1,
        fun _ => by simpa [hops, written, Writer.target] using hc⟩
    · obtain ⟨i, pending, err, hino, hfile, ht, hl, he, hc⟩ := hok
      exact ⟨i, pending, err, hino, hfile, ht, hl, he, by simpa [hops, written, Writer.target] using hc⟩
  obtain ⟨i, pending, err, hino, hfile, ht, hl, he, hc⟩ := hdirty
  cases bytes with
  | nil =>
    simp only [runOp, Option.some.injEq] at h
    subst h
    exact ⟨hd.frame .., hs.advance .dirty hw _ hne rfl rfl rfl hf hend hfit' ⟨i, pending, err, hino, hfile, ht, hl, he, hc⟩⟩
  | cons b bs =>
    simp only [runOp, hfile] at h
    obtain _ | _ := pending
    · obtain _ | _ := err
      · cases h
        exact ⟨hd.frame .., hs.advance .dirty hw _ hne rfl rfl rfl hf hend hfit'
          ⟨i, some (b :: bs), false, hino, rfl, ht, hl, he, fun _ => by simpa [Writer.target] using hc rfl⟩⟩
      · cases h
        exact failWriter_ok hd hs hw hne
    · cases h

theorem flush_ok (hd : DiskOk serde s) (hs : WritersOk serde s) (hw : s.writers w = some W)
    (hops : W.ops = .flush :: rest) (hf : W.failed = false)
    (hfit : fits W.isArtifact ph (.flush :: rest) = true) (hok : FileOk serde s W ph)
    (h : s.runOp w W rest .flush = some s') : DiskOk serde s' ∧ WritersOk serde s' := by
  have hne : W.ops ≠ [] := by simp [hops]
  cases ph <;> simp only [fits, Bool.false_eq_true] at hfit
  all_goals have hend : rest = [] → s.temps W.temp = none := fun he => by simp [he, fits] at hfit
  · obtain ⟨i, hino, hfile, ht, hset, hc⟩ := hok
    simp only [runOp, hfile, Option.some.injEq] at h
    subst h
    exact ⟨hd.frame .., hs.advance .clean hw _ hne rfl rfl rfl hf hend hfit
      ⟨i, hino, rfl, ht, hset, by simpa [hops, written, Writer.target] using hc⟩⟩
  · obtain ⟨i, pending, err, hino, hfile, ht, hl, he, hc⟩ := hok
    simp only [runOp, hfile] at h
    obtain _ | _ := pending
    · obtain _ | _ := err
      · cases h
        exact ⟨hd.frame .., hs.advance .clean hw _ hne rfl rfl rfl hf hend hfit
          ⟨i, hino, rfl, ht, ⟨by simpa using he, hl⟩, by simpa [hops, written, Writer.target] using hc rfl⟩⟩
      · cases h
        exact failWriter_ok hd hs hw hne
    · cases h

theorem close_ok (hd : DiskOk serde s) (hs : WritersOk serde s) (hw : s.writers w = some W)
    (hops : W.ops = .close :: rest) (hf : W.failed = false)
    (hfit : fits W.isArtifact ph (.close :: rest) = true) (hok : FileOk serde s W ph)
    (h : s.runOp w W rest .close = some s') : DiskOk serde s' ∧ WritersOk serde s' := by
  have hne : W.ops ≠ [] := by simp [hops]
  simp only [runOp, Option.some.injEq] at h
  subst h
  refine ⟨(hd.leaveBehind hok.open_temp).frame .., ?_⟩
  refine hs.update hw hne rfl rfl rfl rfl rfl rfl (fun _ _ h => h) (fun _ _ => rfl) ?_ ?_ ?_ (by simp [hf])
  · intro t i hte hti
    refine ⟨rfl, leftOn_leaveBehind ?_, .rfl⟩
    rintro g hg rfl
    exact hte (hd.temps_inj hti (hok.open_temp g hg))
  · intro he
    cases ph <;> simp [show rest = [] from he, fits] at hfit
  · intro _
    cases ph <;> simp only [fits, Bool.false_eq_true, Bool.and_eq_true] at hfit
    · obtain ⟨i, hino, hfile, ht, hset, hc⟩ := hok
      refine ⟨.shut, hfit, i, hino, rfl, ht, ?_, by simpa [hops, written, setWriter, Writer.target] using hc⟩
      simpa [Settled, setWriter, hfile, Store.leaveBehind] using hset
    · obtain ⟨i, pending, err, hino, hfile, ht, hl, he, hc⟩ := hok
      refine ⟨.loose, hfit.2, hfit.1, i, hino, rfl, ht, ?_⟩
      cases err with
      | true => exact .inl (he.1 rfl)
      | false =>
        refine .inr ⟨pending, ?_, by simpa [hops, written, setWriter, Writer.target] using hc rfl⟩
        cases pending <;> simp [setWriter, hfile, Store.leaveBehind, hl]

theorem pin_ok (hd : DiskOk serde s) (hs : WritersOk serde s) (hw : s.writers w = some W)
    (hops : W.ops = .pin :: rest) (hf : W.failed = false)
    (hfit : fits W.isArtifact ph (.pin :: rest) = true) (hok : FileOk serde s W ph)
    (h : s.runOp w W rest .pin = some s') : DiskOk serde s' ∧ WritersOk serde s' := by
  cases ph <;> simp only [fits, Bool.false_eq_true] at hfit
  obtain ⟨ha, i, hino, hfile, ht, hc⟩ := hok
  simp only [runOp, Option.some.injEq] at h
  subst h
  refine ⟨hd.frame .., (hs.advance .loose hw { W with token := some s.nextToken, ops := rest } (by simp [hops]) rfl rfl rfl hf ?_ hfit ⟨ha, i, hino, hfile, ht, ?_⟩).frame ..⟩
  · intro he; simp [show rest = [] from he, fits] at hfit
  · simpa [hops, written, Writer.target] using hc

theorem lock_ok (hd : DiskOk serde s) (hs : WritersOk serde s) (hw : s.writers w = some W)
    (hops : W.ops = .lock :: rest) (hf : W.failed = false)
    (hfit : fits W.isArtifact ph (.lock :: rest) = true) (hok : FileOk serde s W ph)
    (h : s.runOp w W rest .lock = some s') : DiskOk serde s' ∧ WritersOk serde s' := by
  cases ph <;> simp only [fits, Bool.false_eq_true] at hfit
  obtain ⟨i, hino, hfile, ht, hset, hc⟩ := hok
  simp only [runOp] at h
  split at h
  case isFalse => cases h
  cases h
  refine ⟨hd.frame .., (hs.advance .shut hw { W with ops := rest } (by simp [hops]) rfl rfl rfl hf ?_ hfit
    ⟨i, hino, hfile, ht, hset, by simpa [hops, written, Writer.target] using hc⟩).frame ..⟩
  intro he; simp [show rest = [] from he, fits] at hfit

theorem unlock_ok (hd : DiskOk serde s) (hs : WritersOk serde s) (hw : s.writers w = some W)
    (hops : W.ops = .unlock :: rest) (hf : W.failed = false)
    (hfit : fits W.isArtifact ph (.unlock :: rest) = true) (hok : FileOk serde s W ph)
    (h : s.runOp w W rest .unlock = some s') : DiskOk serde s' ∧ WritersOk serde s' := by
  have hne : W.ops ≠ [] := by simp [hops]
  cases ph <;> simp only [fits, Bool.false_eq_true] at hfit
  obtain ⟨hfile, ht, hi⟩ := hok
  simp only [runOp, Option.some.injEq] at h
  subst h
  exact ⟨hd.frame .., (hs.advance .visible hw { W with ops := rest } hne rfl rfl rfl hf (fun _ => ht hne) hfit ⟨hfile, fun _ => ht hne, hi⟩).frame ..⟩

theorem rename_ok (hd : DiskOk serde s) (hs : WritersOk serde s) (hw : s.writers w = some W)
    (hops : W.ops = .rename :: rest) (hf : W.failed = false) (hwhole : RenamesWhole s (.run w))
    (hfit : fits W.isArtifact ph (.rename :: rest) = true) (hok : FileOk serde s W ph)
    (h : s.runOp w W rest .rename = some s') : DiskOk serde s' ∧ WritersOk serde s' := by
  have hfit' : fits W.isArtifact .visible rest = true := by
    cases ph <;> simp only [fits, Bool.false_eq_true] at hfit <;> exact hfit
  -- The file is whole: flushed by `store_metadata`, by the run's condition in `commit_artifact`.
  have hwhole : ∃ i, W.ino = some i ∧ W.file = none ∧ s.temps W.temp = some i ∧ s.Settled i ∧
      s.content i = W.target serde := by
    cases ph <;> simp only [fits, Bool.false_eq_true] at hfit
    · obtain ⟨i, hino, hfile, ht, hset, hc⟩ := hok
      exact ⟨i, hino, hfile, ht, hset, by simpa [hops, written, written_visible hfit'] using hc⟩
    · obtain ⟨ha, i, hino, hfile, ht, hc⟩ := hok
      have hset := hwhole W hw (by simp [hops]) ha i ht
      refine ⟨i, hino, hfile, ht, hset, ?_⟩
      rcases hc with hb | ⟨b, hl, hc⟩
      · exact absurd hb hset.1
      · have hb : b = none := by cases b with
          | none => rfl
          | some _ => simp [hset.2] at hl
        simpa [hops, written, written_visible hfit', hb] using hc
  obtain ⟨i, hino, hfile, ht, hset, hc⟩ := hwhole
  have hunpub := hd.temps_pub ht
  have hpub : ∀ j p, s.pub j = some p →
      Function.update s.pub i (some (W.key, W.body, W.info)) j = some p := by
    rintro j p hp
    rw [Function.update_of_ne, hp]
    rintro rfl
    simp [hunpub] at hp
  have htemp : ∀ {t j}, Function.update s.temps W.temp none t = some j → t ≠ W.temp ∧ s.temps t = some j := by
    intro t j hj
    rw [Function.update_apply] at hj
    split at hj
    · cases hj
    · next hne => exact ⟨hne, hj⟩
  simp only [runOp, ht, Option.some.injEq] at h
  subst h
  refine ⟨⟨?_, ?_, hd.orphan_lt, hd.broken_lt, ?_, ?_, ?_, ?_, ?_, ?_, nodup_putEntry hd.dir_nodup, ?_⟩, ?_⟩
  · exact fun h => hd.temps_lt (htemp h).2
  · intro e he
    rcases mem_putEntry.1 he with ⟨he, -⟩ | rfl
    · exact hd.dir_lt he
    · exact hd.temps_lt ht
  · intro j p hp
    simp only [setWriter, Function.update_apply] at hp
    split at hp
    · next he => subst he; exact hd.temps_lt ht
    · exact hd.pub_lt hp
  · exact fun h h' => hd.temps_inj (htemp h).2 (htemp h').2
  · intro t j hj
    simp only [setWriter, Function.update_apply]
    split
    · next he => exact absurd (hd.temps_inj (he ▸ (htemp hj).2) ht) (htemp hj).1
    · exact hd.temps_pub (htemp hj).2
  · intro t j e hj he
    rcases mem_putEntry.1 he with ⟨he, -⟩ | rfl
    · exact hd.temps_dir (htemp hj).2 he
    · rintro rfl
      exact (htemp hj).1 (hd.temps_inj (htemp hj).2 ht)
  · intro e k b m he hp
    simp only [setWriter, Function.update_apply] at hp
    rcases mem_putEntry.1 he with ⟨he, -⟩ | rfl
    · rw [if_neg (hd.temps_dir ht he)] at hp
      exact hd.dir_key he hp
    · simp only [if_pos, Option.some.injEq, Prod.mk.injEq] at hp
      exact hp.1
  · intro e he
    rcases mem_putEntry.1 he with ⟨he, -⟩ | rfl
    · exact hd.dir_left he
    · exact hset.2
  · intro j k b m hp
    simp only [setWriter, Function.update_apply] at hp
    split at hp
    · next he =>
      subst he
      cases hp
      exact ⟨hc, hs.small hw, hset⟩
    · exact hd.pub hp
  · refine hs.update hw (by simp [hops]) rfl rfl rfl rfl rfl rfl hpub (fun t hne => Function.update_of_ne hne ..)
      (fun _ _ _ _ => ⟨rfl, rfl, .rfl⟩) (fun _ => Function.update_self ..) ?_ (by simp [hf])
    exact fun _ => ⟨.visible, hfit', hfile, fun _ => Function.update_self .., i, hino, Function.update_self ..⟩

/-- The cleanup of a writer that failed. -/
theorem remove_ok (hd : DiskOk serde s) (hs : WritersOk serde s) (hw : s.writers w = some W)
    (hops : W.ops = [.remove]) (hf : W.failed = true) (h : s.runOp w W [] .remove = some s') :
    DiskOk serde s' ∧ WritersOk serde s' := by
  have htemp : ∀ {t j}, Function.update s.temps W.temp none t = some j → s.temps t = some j := by
    intro t j hj
    rw [Function.update_apply] at hj
    split at hj
    · cases hj
    · exact hj
  simp only [runOp, Option.some.injEq] at h
  subst h
  refine ⟨⟨fun h => hd.temps_lt (htemp h), hd.dir_lt, hd.orphan_lt, hd.broken_lt, hd.pub_lt,
    fun h h' => hd.temps_inj (htemp h) (htemp h'), fun h => hd.temps_pub (htemp h),
    fun h => hd.temps_dir (htemp h), hd.dir_key, hd.dir_left, hd.dir_nodup, hd.pub⟩, ?_⟩
  refine hs.update hw (by simp [hops]) rfl rfl rfl rfl rfl rfl (fun _ _ h => h)
    (fun t hne => Function.update_of_ne hne ..) (fun _ _ _ _ => ⟨rfl, rfl, .rfl⟩)
    (fun _ => Function.update_self ..) ?_ ?_
  · exact fun h => absurd (hf.symm.trans h) (by simp)
  · exact fun _ => ⟨(hs.gone hw hf).1, .inr rfl⟩

theorem runOp_ok {op : Op} (hd : DiskOk serde s) (hs : WritersOk serde s) (hw : s.writers w = some W)
    (hops : W.ops = op :: rest) (hwhole : RenamesWhole s (.run w)) (h : s.runOp w W rest op = some s') :
    DiskOk serde s' ∧ WritersOk serde s' := by
  cases hf : W.failed with
  | true =>
    have hrem := (hs.gone hw hf).2
    simp only [hops, List.cons.injEq, reduceCtorEq, or_false] at hrem
    obtain ⟨rfl, rfl⟩ := hrem
    exact remove_ok hd hs hw hops hf h
  | false =>
    obtain ⟨ph, hfit, hok⟩ := hs.running hw hf
    rw [hops] at hfit
    cases op with
    | create => exact create_ok hd hs hw hops hf hfit hok h
    | append => exact append_ok hd hs hw hops hf hfit hok h
    | write bytes => exact write_ok hd hs hw hops hf hfit hok h
    | flush => exact flush_ok hd hs hw hops hf hfit hok h
    | close => exact close_ok hd hs hw hops hf hfit hok h
    | pin => exact pin_ok hd hs hw hops hf hfit hok h
    | lock => exact lock_ok hd hs hw hops hf hfit hok h
    | rename => exact rename_ok hd hs hw hops hf hwhole hfit hok h
    | unlock => exact unlock_ok hd hs hw hops hf hfit hok h
    | evict => cases h
    | remove => cases ph <;> simp [fits] at hfit

/-! ## Background writes -/

omit [DecidableEq Key] in
theorem land_ok {ino bytes err} (hd : DiskOk serde s) (hs : WritersOk serde s) (hw : s.writers w = some W)
    (hfile : W.file = some ⟨ino, some bytes, err⟩) :
    let s' := { s with content := Function.update s.content ino (s.content ino ++ bytes) }.setWriter w
      { W with file := some ⟨ino, none, err⟩ }
    DiskOk serde s' ∧ WritersOk serde s' := by
  have ht := hs.open_temp hw _ hfile
  obtain ⟨hfailed, hne, hphase⟩ := hs.pending hw hfile
  refine ⟨hd.touch rfl rfl rfl rfl hd.orphan_lt hd.broken_lt fun hv => ?_, ?_⟩
  · refine ⟨Function.update_of_ne ?_ .., rfl, .rfl⟩
    rintro rfl
    exact hd.visible_temp hv ht
  · refine hs.update hw hne rfl rfl rfl rfl rfl rfl (fun _ _ h => h) (fun _ _ => rfl) ?_ (fun h => absurd h hne) ?_
      (by simp [hfailed])
    · intro t i hte hti
      refine ⟨Function.update_of_ne ?_ .., rfl, .rfl⟩
      rintro rfl
      exact hte (hd.temps_inj hti ht)
    · intro _
      obtain ⟨hfit, hino, hl, he, hc⟩ := hphase
      refine ⟨.dirty, hfit, ino, none, err, hino, rfl, ht, hl, he, fun h => ?_⟩
      simpa [setWriter, Writer.target] using hc h

omit [DecidableEq Key] in
theorem landFail_ok {ino bytes err n} (hd : DiskOk serde s) (hs : WritersOk serde s)
    (hw : s.writers w = some W) (hfile : W.file = some ⟨ino, some bytes, err⟩) :
    let s' := { s with
      content := Function.update s.content ino (s.content ino ++ bytes.take n)
      broken := ino :: s.broken }.setWriter w { W with file := some ⟨ino, none, true⟩ }
    DiskOk serde s' ∧ WritersOk serde s' := by
  have ht := hs.open_temp hw _ hfile
  obtain ⟨hfailed, hne, hfit, hino, hl, -, -⟩ := hs.pending hw hfile
  have same : ∀ {i}, i ≠ ino → SameFile s ({ s with
      content := Function.update s.content ino (s.content ino ++ bytes.take n)
      broken := ino :: s.broken }.setWriter w { W with file := some ⟨ino, none, true⟩ }) i :=
    fun hi => ⟨Function.update_of_ne hi .., rfl, by simp [setWriter, hi]⟩
  refine ⟨hd.touch rfl rfl rfl rfl hd.orphan_lt ?_ fun hv => same ?_, ?_⟩
  · intro i hi
    rcases List.mem_cons.1 hi with rfl | hi
    · exact hd.temps_lt ht
    · exact hd.broken_lt hi
  · rintro rfl
    exact hd.visible_temp hv ht
  · refine hs.update hw hne rfl rfl rfl rfl rfl rfl (fun _ _ h => h) (fun _ _ => rfl) ?_ (fun h => absurd h hne) ?_
      (by simp [hfailed])
    · intro t i hte hti
      refine same ?_
      rintro rfl
      exact hte (hd.temps_inj hti ht)
    · exact fun _ => ⟨.dirty, hfit, ino, none, true, hino, rfl, ht, hl, by simp [setWriter], by simp⟩

omit [DecidableEq Key] in
/-- A write left behind lands, or is lost: on no published inode, and on no writer's but one whose
handle is closed. -/
theorem orphan_ok {i n ino bytes} (hd : DiskOk serde s) (hs : WritersOk serde s)
    (ho : s.orphans[i]? = some (ino, bytes)) {content : Nat → Bytes} {broken : List Nat}
    (hc : content = Function.update s.content ino (s.content ino ++ bytes.take n))
    (hb : broken = s.broken ∧ bytes.take n = bytes ∨ broken = ino :: s.broken) :
    DiskOk serde { s with content, broken, orphans := s.orphans.eraseIdx i } ∧
      WritersOk serde { s with content, broken, orphans := s.orphans.eraseIdx i } := by
  obtain ⟨l₁, l₂, hsplit, herase⟩ := getElem?_split ho
  have hleft : leftOn s.orphans ino ≠ [] := by simp [hsplit]
  have hlt : ino < s.next := hd.orphan_lt (List.mem_of_getElem? ho)
  have same : ∀ {j}, j ≠ ino → SameFile s { s with content, broken, orphans := s.orphans.eraseIdx i } j := by
    intro j hj
    refine ⟨by simp [hc, Function.update_of_ne hj], ?_, ?_⟩
    · change leftOn (s.orphans.eraseIdx i) j = _
      rw [herase, hsplit]
      simp [Ne.symm hj]
    · rcases hb with ⟨rfl, -⟩ | rfl
      · rfl
      · simp [hj]
  refine ⟨hd.touch rfl rfl rfl rfl ?_ ?_ fun hv => same ?_, hs.still rfl rfl rfl rfl ?_⟩
  · exact fun h => hd.orphan_lt (List.mem_of_mem_eraseIdx h)
  · intro j hj
    rcases hb with ⟨rfl, -⟩ | rfl
    · exact hd.broken_lt hj
    · rcases List.mem_cons.1 hj with rfl | hj
      · exact hlt
      · exact hd.broken_lt hj
  · rintro rfl
    exact hleft (hd.visible_left hv)
  · intro w W ph hw hfit hok
    by_cases hti : W.ops ≠ [] ∧ s.temps W.temp = some ino
    · obtain ⟨-, hti⟩ := hti
      cases ph with
      | absent => simp [hok.2.1] at hti
      | clean =>
        obtain ⟨j, -, -, ht, hset, -⟩ := hok
        cases ht.symm.trans hti; exact absurd hset.2 hleft
      | dirty =>
        obtain ⟨j, -, -, -, -, ht, hl, -⟩ := hok
        cases ht.symm.trans hti; exact absurd hl hleft
      | shut =>
        obtain ⟨j, -, -, ht, hset, -⟩ := hok
        cases ht.symm.trans hti; exact absurd hset.2 hleft
      | visible =>
        have hn := hok.2.1
        by_cases hne : W.ops = []
        · exact hok.congr (fun _ _ h => h) (fun h => absurd hne h) (fun h => absurd hne h) (absurd rfl)
        · simp [hn hne] at hti
      | loose =>
        obtain ⟨ha, j, hino, hfile, ht, hc'⟩ := hok
        cases ht.symm.trans hti
        refine ⟨ha, ino, hino, hfile, ht, ?_⟩
        rcases hb with ⟨rfl, htake⟩ | rfl
        · rcases hc' with hbr | ⟨b, hl, hc'⟩
          · exact .inl hbr
          · simp only [hsplit, leftOn_append, leftOn_cons, if_pos] at hl
            obtain ⟨h1, h2, rfl⟩ := append_cons_toList hl
            refine .inr ⟨none, ?_, ?_⟩
            · simp [herase, h1, h2]
            · simpa [hc, htake] using hc'
        · exact .inl (by simp)
    · refine hok.congr (fun _ _ h => h) (fun _ => rfl) (fun hne j hj => same ?_) (fits_ops_ne hfit)
      rintro rfl
      exact hti ⟨hne, hj⟩

/-! ## Every step -/

omit [DecidableEq Key] in
/-- A new writer, on a temp path nothing is at. -/
theorem WritersOk.start (hs : WritersOk serde s) (hnone : s.writers w = none)
    (hw : s'.writers = Function.update s.writers w (some W)) (htemps : s'.temps = s.temps)
    (hcontent : s'.content = s.content) (horphans : s'.orphans = s.orphans) (hbroken : s'.broken = s.broken)
    (hpub : s'.pub = s.pub)
    (hleader : ∀ {k}, s.leader k ≠ none → s'.leader k = s.leader k)
    (hcounter : s.counter ≤ s'.counter)
    (hpart : ∀ {k}, W.temp = .part k → s'.leader k = some w)
    (hmeta : ∀ {k n}, W.temp = .metadata k n → s.counter ≤ n ∧ n < s'.counter)
    (hkey : ∀ {k}, W.temp = .part k → k = W.key)
    (hsmall : (serde.toVec W.info).length ≤ maxMetaLen) (hf : W.failed = false)
    (hfit : fits W.isArtifact .absent W.ops = true) (hok : FileOk serde s W .absent) : WritersOk serde s' := by
  have other : ∀ {v V}, s'.writers v = some V → v = w ∧ V = W ∨ v ≠ w ∧ s.writers v = some V := by
    intro v V hv
    rw [hw, Function.update_apply] at hv
    split at hv
    · next he => exact .inl ⟨he, (Option.some.inj hv).symm⟩
    · next he => exact .inr ⟨he, hv⟩
  have same : ∀ {i}, SameFile s s' i := ⟨by rw [hcontent], by rw [horphans], by rw [hbroken]⟩
  constructor
  · intro v V k hv hk hne
    rcases other hv with ⟨rfl, rfl⟩ | ⟨-, hv⟩
    · exact hpart hk
    · have hl := hs.leader hv hk hne
      rw [hleader (by simp [hl]), hl]
  · intro v V k n hv hk
    rcases other hv with ⟨rfl, rfl⟩ | ⟨-, hv⟩
    · exact (hmeta hk).2
    · exact Nat.lt_of_lt_of_le (hs.counter hv hk) hcounter
  · intro v v' V V' k k' n hv hv' hk hk'
    rcases other hv with ⟨rfl, rfl⟩ | ⟨-, hv⟩ <;> rcases other hv' with ⟨rfl, rfl⟩ | ⟨-, hv'⟩
    · rfl
    · have := hs.counter hv' hk'; have := (hmeta hk).1; omega
    · have := hs.counter hv hk; have := (hmeta hk').1; omega
    · exact hs.distinct hv hv' hk hk'
  · intro t i hti
    rw [htemps] at hti
    obtain ⟨v, V, hv, rfl, hne⟩ := hs.owned hti
    refine ⟨v, V, ?_, rfl, hne⟩
    rw [hw, Function.update_of_ne, hv]
    rintro rfl
    simp [hnone] at hv
  · intro v V k hv hk
    rcases other hv with ⟨rfl, rfl⟩ | ⟨-, hv⟩
    · exact hkey hk
    · exact hs.key hv hk
  · intro v V hv
    rcases other hv with ⟨rfl, rfl⟩ | ⟨-, hv⟩
    · exact hsmall
    · exact hs.small hv
  · intro v V hv hf'
    have keep : ∀ {W : Writer Key Meta} {ph}, fits W.isArtifact ph W.ops = true → FileOk serde s W ph →
        FileOk serde s' W ph := fun hfit hok =>
      hok.congr (fun _ _ h => by rw [hpub, h]) (fun _ => by rw [htemps]) (fun _ _ _ => same) (fits_ops_ne hfit)
    rcases other hv with ⟨rfl, rfl⟩ | ⟨-, hv⟩
    · exact ⟨.absent, hfit, keep hfit hok⟩
    · obtain ⟨ph, hfit, hok⟩ := hs.running hv hf'
      exact ⟨ph, hfit, keep hfit hok⟩
  · intro v V hv hf'
    rcases other hv with ⟨rfl, rfl⟩ | ⟨-, hv⟩
    · simp [hf] at hf'
    · exact hs.gone hv hf'

/-- The leader leaves the inflight map when it has no call left. -/
theorem finish_ok (hs : WritersOk serde s) (hw : s.writers w = some W) (hops : W.ops = [])
    (hl : s.leader W.key = some w) :
    WritersOk serde { s with leader := Function.update s.leader W.key none } := by
  refine ⟨?_, hs.counter, hs.distinct, hs.owned, hs.key, hs.small, hs.running, hs.gone⟩
  intro v V k hv hk hne
  have hlv := hs.leader hv hk hne
  refine (Function.update_of_ne ?_ ..).trans hlv
  rintro rfl
  cases hlv.symm.trans hl
  cases hv.symm.trans hw
  exact hne hops

omit [DecidableEq Key] in
/-- A scan that ends lets its holder go on; nothing of the disk changes. -/
theorem afterScan_ok (hd : DiskOk serde s) (hs : WritersOk serde s) (holder : Option Holder) :
    DiskOk serde (s.afterScan holder) ∧ WritersOk serde (s.afterScan holder) := by
  obtain _ | _ | _ | w := holder
  · exact ⟨hd.frame .., hs.frame ..⟩
  · exact ⟨hd.frame .., hs.frame ..⟩
  · exact ⟨hd.frame .., hs.frame ..⟩
  · simp only [afterScan]
    split
    case h_2 => exact ⟨hd.frame .., hs.frame ..⟩
    next W hw =>
    split
    case h_2 => exact ⟨hd.frame .., hs.frame ..⟩
    next rest hops =>
    have hne : W.ops ≠ [] := by simp [hops]
    have hf : W.failed = false := by
      by_contra hf
      have := (hs.gone hw (by simpa using hf)).2
      simp [hops] at this
    obtain ⟨ph, hfit, hok⟩ := hs.running hw hf
    rw [hops] at hfit
    cases ph <;> simp only [fits, Bool.false_eq_true] at hfit
    obtain ⟨hfile, ht, hi⟩ := hok
    exact ⟨hd.frame .., (hs.advance .visible hw { W with ops := rest } hne rfl rfl rfl hf (fun _ => ht hne) hfit
      ⟨hfile, fun _ => ht hne, hi⟩).frame ..⟩

theorem Rule.disk_ok {a : Action Key Meta} (hr : Rule serde maxCacheSize s a s') (hd : DiskOk serde s)
    (hs : WritersOk serde s) (hwhole : RenamesWhole s a) : DiskOk serde s' ∧ WritersOk serde s' := by
  cases hr with
  | @startArtifact w key chunks info h1 h2 h3 h4 =>
    refine ⟨hd.frame .., hs.start h2 rfl rfl rfl rfl rfl rfl ?_ (Nat.le_refl _) ?_ (by rintro _ _ ⟨⟩) ?_ h4 rfl
      (fits_fetchArtifact ..) ⟨rfl, ?_, ?_⟩⟩
    · intro k hk
      refine Function.update_of_ne ?_ ..
      rintro rfl
      exact hk h3
    · intro k hk
      cases hk
      exact Function.update_self ..
    · intro k hk
      cases hk
      rfl
    · by_contra hne
      obtain ⟨i, hi⟩ := Option.ne_none_iff_exists'.1 hne
      obtain ⟨v, V, hv, hV, hops⟩ := hs.owned hi
      simp [hs.leader hv hV hops] at h3
    · simp [artifactWriter, written_fetchArtifact, Writer.target, pack]
  | @startMetadata w key pieces info h1 h2 h3 =>
    refine ⟨hd.frame .., hs.start h2 rfl rfl rfl rfl rfl rfl (fun _ => rfl) (Nat.le_succ _) (by rintro _ ⟨⟩) ?_
      (by rintro _ ⟨⟩) h3 rfl
      (fits_storeMetadata ..) ⟨rfl, ?_, ?_⟩⟩
    · intro k n hk
      cases hk
      exact ⟨Nat.le_refl _, Nat.lt_succ_self _⟩
    · by_contra hne
      obtain ⟨i, hi⟩ := Option.ne_none_iff_exists'.1 hne
      obtain ⟨v, V, hv, hV, hops⟩ := hs.owned hi
      exact Nat.lt_irrefl _ (hs.counter hv hV)
    · simp [metadataWriter, written_storeMetadata, Writer.target, pack]
  | run hw hops h => exact runOp_ok hd hs hw hops hwhole h
  | fail hw hops hf => exact failWriter_ok hd hs hw (by simp [hops])
  | finish hw hops hl => exact ⟨hd.frame .., finish_ok hs hw hops hl⟩
  | land hw hfile => exact land_ok hd hs hw hfile
  | landFail hw hfile hn => exact landFail_ok hd hs hw hfile
  | @landOrphan i ino bytes ho =>
    exact orphan_ok hd hs ho (by rw [List.take_length (l := bytes)]) (.inl ⟨rfl, List.take_length⟩)
  | loseOrphan ho hn => exact orphan_ok hd hs ho rfl (.inr rfl)
  | scanRemove hscan =>
    refine ⟨⟨hd.temps_lt, ?_, hd.orphan_lt, hd.broken_lt, hd.pub_lt, hd.temps_inj, hd.temps_pub, ?_, ?_, ?_,
      nodup_removeEntry hd.dir_nodup, hd.pub⟩, hs.frame ..⟩
    · exact fun h => hd.dir_lt (mem_removeEntry.1 h).1
    · exact fun h he => hd.temps_dir h (mem_removeEntry.1 he).1
    · exact fun he => hd.dir_key (mem_removeEntry.1 he).1
    · exact fun he => hd.dir_left (mem_removeEntry.1 he).1
  | scanEnd hscan hend => exact afterScan_ok (hd.frame ..) (hs.frame ..) s.lock
  | scanStart hscan hev =>
    refine ⟨?_, ?_⟩ <;> unfold beforeScan <;> split
    all_goals first | exact hd.frame .. | exact hs.frame ..
  | attach | load | loadStep | leave | unpinOwn | unpinOther | send | recv | janitorLock | drain
  | scanList | scanSort | scanPinned | scanPick => exact ⟨hd.frame .., hs.frame ..⟩

/-! ## Loads -/

/-- How far a load of the published entry has come. -/
def OnTrack (serde : Serde Meta) (body : Bytes) (info : Meta) : LoadPc Meta → Prop
  | .opened => True
  | .sized size => size = (pack serde body info).length
  | .located bodyLen metaLen => bodyLen = body.length ∧ metaLen = (serde.toVec info).length
  | .parsed bodyLen info' => bodyLen = body.length ∧ info' = info
  | .served body' info' => body' = body ∧ info' = info
  | .start | .missing | .corrupt | .failed => False

/-- What a load has open is no temp file, and a published inode is read as it was published. -/
def LoadOk (serde : Serde Meta) (s : Store Key Meta) (L : Load Key Meta) : Prop :=
  ∀ i, L.ino = some i → i < s.next ∧ (∀ t, s.temps t ≠ some i) ∧
    ∀ k b m, s.pub i = some (k, b, m) → L.key = k ∧ OnTrack serde b m L.pc

theorem loadNext_same {L L' : Load Key Meta} (hpc : L.pc ≠ .start) (h : s.loadNext serde L = some L') :
    L'.key = L.key ∧ L'.ino = L.ino := by
  unfold loadNext at h
  split at h
  · next hstart => exact absurd hstart hpc
  · cases h; exact ⟨rfl, rfl⟩
  · repeat' split at h
    all_goals cases h; exact ⟨rfl, rfl⟩
  · repeat' split at h
    all_goals cases h; exact ⟨rfl, rfl⟩
  · cases h; exact ⟨rfl, rfl⟩
  · cases h

/-- A load that goes on is not over, and stays the same request's. -/
theorem loadNext_keeps {L L' : Load Key Meta} (h : s.loadNext serde L = some L') :
    L'.key = L.key ∧ L'.token = L.token ∧ L.isDone = false := by
  unfold loadNext at h
  repeat' split at h
  all_goals cases h
  all_goals next hpc _ => simp_all [Load.isDone]

/-- Reading on in a file that holds a packed entry. -/
theorem loadNext_track {L L' : Load Key Meta} {i : Nat} {b : Bytes} {m : Meta} (hino : L.ino = some i)
    (hc : s.content i = pack serde b m) (hm : (serde.toVec m).length ≤ maxMetaLen)
    (ht : OnTrack serde b m L.pc) (h : s.loadNext serde L = some L') : OnTrack serde b m L'.pc := by
  cases hpc : L.pc <;> rw [hpc] at ht <;> simp only [OnTrack] at ht
  case opened =>
    have : ¬ (pack serde b m).length < footerLen := by simp only [pack_length, footerLen]; omega
    simp only [loadNext, hpc, hino, hc, if_neg this, Option.some.injEq] at h
    subst h
    rfl
  case sized size =>
    subst ht
    simp only [loadNext, hpc, hino, hc, readExact_pack_footer, footerGeometry_pack hm, Option.some.injEq] at h
    subst h
    exact ⟨rfl, rfl⟩
  case located =>
    obtain ⟨rfl, rfl⟩ := ht
    simp only [loadNext, hpc, hino, hc, readExact_pack_meta, parseMeta_toVec, Option.some.injEq] at h
    subst h
    exact ⟨rfl, rfl⟩
  case parsed =>
    obtain ⟨rfl, rfl⟩ := ht
    simp only [loadNext, hpc, hino, hc, take_pack, Option.some.injEq] at h
    subst h
    exact ⟨rfl, rfl⟩
  case served => simp [loadNext, hpc] at h

theorem loadNext_ok {L L' : Load Key Meta} (hd : DiskOk serde s) (hL : LoadOk serde s L)
    (h : s.loadNext serde L = some L') : LoadOk serde s L' := by
  by_cases hpc : L.pc = .start
  · -- `File::open`: the path names an inode some rename put there.
    simp only [loadNext, hpc] at h
    split at h <;> cases h
    · next ino hlookup =>
      rintro i hi
      cases hi
      have hmem := lookupEntry_mem hlookup
      exact ⟨hd.dir_lt hmem, fun t ht => hd.temps_dir ht hmem rfl, fun k b m hp => ⟨hd.dir_key hmem hp, trivial⟩⟩
    · intro i hi
      obtain ⟨h1, h2, h3⟩ := hL i hi
      exact ⟨h1, h2, fun k b m hp => absurd (h3 k b m hp).2 (by simp [hpc, OnTrack])⟩
  · obtain ⟨hkey, hino⟩ := loadNext_same hpc h
    intro i hi
    rw [hino] at hi
    obtain ⟨h1, h2, h3⟩ := hL i hi
    refine ⟨h1, h2, fun k b m hp => ⟨hkey.trans (h3 k b m hp).1, ?_⟩⟩
    obtain ⟨hc, hm, -⟩ := hd.pub hp
    exact loadNext_track hi hc hm (h3 k b m hp).2 h

/-- An inode becomes a temp file or a published one only fresh or from a temp path. -/
theorem Rule.inodes {a : Action Key Meta} (hr : Rule serde maxCacheSize s a s') :
    s.next ≤ s'.next ∧ (∀ t i, s'.temps t = some i → i = s.next ∨ ∃ t', s.temps t' = some i) ∧
      ∀ i p, s'.pub i = some p → s.pub i = some p ∨ ∃ t, s.temps t = some i := by
  have still : ∀ {s₁ : Store Key Meta}, s₁.next = s.next → s₁.temps = s.temps → s₁.pub = s.pub →
      s.next ≤ s₁.next ∧ (∀ t i, s₁.temps t = some i → i = s.next ∨ ∃ t', s.temps t' = some i) ∧
        ∀ i p, s₁.pub i = some p → s.pub i = some p ∨ ∃ t, s.temps t = some i :=
    fun hn ht hp => ⟨hn.ge, fun t i h => .inr ⟨t, ht ▸ h⟩, fun i p h => .inl (hp ▸ h)⟩
  cases hr with
  | @run w W op rest s' hw hops h =>
    cases op with
    | create =>
      cases h
      refine ⟨Nat.le_succ _, fun t i hi => ?_, fun i p h => .inl h⟩
      simp only [setWriter, Function.update_apply] at hi
      split at hi
      · cases hi
        cases ht : s.temps W.temp with
        | none => exact .inl rfl
        | some j => exact .inr ⟨_, ht⟩
      · exact .inr ⟨t, hi⟩
    | rename =>
      simp only [runOp] at h
      split at h <;> cases h
      next ino ht =>
      refine ⟨Nat.le_refl _, fun t i hi => .inr ?_, fun i p hp => ?_⟩
      · simp only [setWriter, Function.update_apply] at hi
        split at hi
        · cases hi
        · exact ⟨t, hi⟩
      · simp only [setWriter, Function.update_apply] at hp
        split at hp
        · next he => exact .inr ⟨_, he ▸ ht⟩
        · exact .inl hp
    | remove =>
      cases h
      refine ⟨Nat.le_refl _, fun t i hi => .inr ?_, fun i p h => .inl h⟩
      simp only [setWriter, Function.update_apply] at hi
      split at hi
      · cases hi
      · exact ⟨t, hi⟩
    | write bytes =>
      rcases bytes with _ | ⟨b, bs⟩ <;> simp only [runOp] at h <;> repeat' split at h
      all_goals cases h
      all_goals exact still rfl rfl rfl
    | append | flush | lock =>
      simp only [runOp] at h
      repeat' split at h
      all_goals cases h
      all_goals exact still rfl rfl rfl
    | close | pin | unlock => cases h; exact still rfl rfl rfl
    | evict => cases h
  | scanEnd =>
    unfold afterScan
    repeat' split
    all_goals exact still rfl rfl rfl
  | scanStart =>
    unfold beforeScan
    split <;> exact still rfl rfl rfl
  | startArtifact | startMetadata | fail | finish | land | landFail | landOrphan | loseOrphan | attach | load
  | loadStep | leave | unpinOwn | unpinOther | send | recv | janitorLock | drain | scanList | scanSort
  | scanPinned | scanPick | scanRemove => exact still rfl rfl rfl

def LoadsOk (serde : Serde Meta) (s : Store Key Meta) : Prop := ∀ l L, s.loads l = some L → LoadOk serde s L

/-- A load changes by its own steps only. -/
theorem Rule.loads {a : Action Key Meta} (hr : Rule serde maxCacheSize s a s') {l : Nat} {L' : Load Key Meta}
    (hl : s'.loads l = some L') :
    s.loads l = some L' ∨ L'.ino = none ∧ L'.pc = .start ∨
      ∃ L, s.loads l = some L ∧ s.loadNext serde L = some L' ∧ a = .loadStep l := by
  cases hr with
  | attach ht hn _ =>
    simp only [setLoad, Function.update_apply] at hl
    split at hl
    · cases hl; exact .inr (.inl ⟨rfl, rfl⟩)
    · exact .inl hl
  | load hn _ =>
    simp only [setLoad, Function.update_apply] at hl
    split at hl
    · cases hl; exact .inr (.inl ⟨rfl, rfl⟩)
    · exact .inl hl
  | loadStep hL hnext =>
    simp only [setLoad, Function.update_apply] at hl
    split at hl
    · next he => cases hl; subst he; exact .inr (.inr ⟨_, hL, hnext, rfl⟩)
    · exact .inl hl
  | run hw hops h => exact .inl ((runOp_tasks h).1 ▸ hl)
  | scanEnd =>
    refine .inl ?_
    unfold afterScan at hl
    repeat' split at hl
    all_goals exact hl
  | scanStart =>
    refine .inl ?_
    unfold beforeScan at hl
    split at hl <;> exact hl
  | startArtifact | startMetadata | fail | finish | land | landFail | landOrphan | loseOrphan | leave | unpinOwn
  | unpinOther | send | recv | janitorLock | drain | scanList | scanSort | scanPinned | scanPick | scanRemove =>
    exact .inl hl

theorem LoadOk.mono {L : Load Key Meta} {a : Action Key Meta} (hr : Rule serde maxCacheSize s a s')
    (h : LoadOk serde s L) : LoadOk serde s' L := by
  obtain ⟨hn, ht, hp⟩ := hr.inodes
  intro i hi
  obtain ⟨h1, h2, h3⟩ := h i hi
  refine ⟨by omega, fun t hti => ?_, fun k b m hpi => ?_⟩
  · rcases ht t i hti with rfl | ⟨t', ht'⟩
    · omega
    · exact h2 t' ht'
  · rcases hp i _ hpi with hpi | ⟨t, hti⟩
    · exact h3 k b m hpi
    · exact absurd hti (h2 t)

theorem Rule.loads_ok {a : Action Key Meta} (hr : Rule serde maxCacheSize s a s') (hd : DiskOk serde s)
    (h : LoadsOk serde s) : LoadsOk serde s' := by
  intro l L hl
  rcases hr.loads hl with hl | ⟨hino, -⟩ | ⟨L₀, hl, hnext, -⟩
  · exact (h l L hl).mono hr
  · simp [LoadOk, hino]
  · exact (loadNext_ok hd (h l L₀ hl) hnext).mono hr

end

/-! ## The theorem -/

/-- What the two writers promise: a published file holds the packed entry,
a writer returns `Ok` with its own file published and every write behind it,
and a load that has a published file open ends with that publication. -/
structure Integrity (serde : Serde Meta) (s : Store Key Meta) : Prop where
  entry : ∀ i k b m, s.pub i = some (k, b, m) → s.content i = pack serde b m
  returned : ∀ w W, s.writers w = some W → W.returnedOk = true →
    ∃ i, W.ino = some i ∧ s.pub i = some (W.key, W.body, W.info) ∧ s.Settled i
  load : ∀ l L i k b m, s.loads l = some L → L.ino = some i → s.pub i = some (k, b, m) →
    L.key = k ∧ (L.isDone = true → L.pc = .served b m) ∧
      (L.isDone = false → ∃ L', s.loadNext serde L = some L')

omit [DecidableEq Key] in
theorem OnTrack.done {L : Load Key Meta} {b : Bytes} {m : Meta} (h : OnTrack serde b m L.pc)
    (hd : L.isDone = true) : L.pc = .served b m := by
  cases hpc : L.pc <;> simp_all [OnTrack, Load.isDone]

theorem OnTrack.next {s : Store Key Meta} {L : Load Key Meta} {i : Nat} {b : Bytes} {m : Meta}
    (h : OnTrack serde b m L.pc) (hi : L.ino = some i) (hd : L.isDone = false) :
    ∃ L', s.loadNext serde L = some L' := by
  cases hpc : L.pc <;> simp only [hpc, OnTrack, Load.isDone, Bool.true_eq_false] at h hd
  all_goals simp only [loadNext, hpc, hi]
  case sized => split <;> [split; skip] <;> exact ⟨_, rfl⟩
  case located => split <;> [split; skip] <;> exact ⟨_, rfl⟩
  all_goals exact ⟨_, rfl⟩

omit [DecidableEq Key] in
theorem Init.disk_ok {s : Store Key Meta} (h : Init s) : DiskOk serde s ∧ WritersOk serde s ∧ LoadsOk serde s := by
  obtain ⟨hdir, hnodup, -, ht, ho, hb, hp, hw, -, -, -, hl, -⟩ := h
  refine ⟨⟨?_, hdir _, ?_, ?_, ?_, ?_, ?_, ?_, ?_, ?_, hnodup, ?_⟩, ⟨?_, ?_, ?_, ?_, ?_, ?_, ?_, ?_⟩, ?_⟩
  all_goals simp [ht, ho, hb, hp, hw, hl, LoadsOk]

/-- What every such run keeps. -/
theorem Run.files_ok {s : Store Key Meta} (h : Run (step serde maxCacheSize) RenamesWhole Init s) :
    DiskOk serde s ∧ WritersOk serde s ∧ LoadsOk serde s := by
  refine h.invariant (fun s => DiskOk serde s ∧ WritersOk serde s ∧ LoadsOk serde s) ?_ ?_
  · exact fun _ hi => hi.disk_ok
  · rintro s a s' ⟨hd, hs, hl⟩ hwhole hst
    have hr := step_rule hst
    obtain ⟨hd', hs'⟩ := hr.disk_ok hd hs hwhole
    exact ⟨hd', hs', hr.loads_ok hd hl⟩

/-- **Publication integrity.** In every run in which the last background
write of each `commit_artifact` has completed when it renames, every entry
the writers publish is whole, from the rename on, and every load of one
returns it. -/
theorem publication_integrity {s : Store Key Meta} (h : Run (step serde maxCacheSize) RenamesWhole Init s) :
    Integrity serde s := by
  obtain ⟨hd, hs, hl⟩ := Run.files_ok h
  refine ⟨fun i k b m hp => (hd.pub hp).1, ?_, ?_⟩
  · intro w W hw hret
    simp only [Writer.returnedOk, Bool.and_eq_true, List.isEmpty_iff, Bool.not_eq_true'] at hret
    obtain ⟨ph, hfit, hok⟩ := hs.running hw hret.2
    rw [hret.1] at hfit
    cases ph <;> simp only [fits, Bool.false_eq_true] at hfit
    obtain ⟨-, -, i, hino, hp⟩ := hok
    exact ⟨i, hino, hp, (hd.pub hp).2.2⟩
  · intro l L i k b m hL hi hp
    obtain ⟨-, -, htrack⟩ := hl l L hL i hi
    obtain ⟨hk, ht⟩ := htrack k b m hp
    exact ⟨hk, ht.done, ht.next hi⟩

/-- `serde_json` on the unit type. -/
def unitSerde : Serde Unit where
  toVec _ := [110, 117, 108, 108]
  fromSlice bytes := if bytes = [110, 117, 108, 108] then some () else none
  roundTrip _ := rfl

/-- A fetch of one chunk up to its rename, the background write of the length landing before it or not. -/
def fetchSteps (landed : Bool) (w key : Nat) (chunk : Bytes) : List (Action Nat Unit) :=
  [.startArtifact w key [chunk] (), .run w, .run w, .land w, .run w, .run w, .run w, .run w, .land w, .run w] ++
    (if landed then [.land w] else []) ++ [.run w, .run w, .run w]

/-- A start over an empty directory, a fetch, and a load of its entry. -/
def commitRun (landed : Bool) : List (Action Nat Unit) :=
  [.scanStart, .scanSort, .scanEnd] ++ fetchSteps landed 0 7 [9, 9] ++
    [.load 0 7, .loadStep 0, .loadStep 0, .loadStep 0]

theorem init_ofEntries_nil : Init (ofEntries [] : Store Nat Unit) := by
  refine ⟨?_, ?_, ?_, ?_⟩ <;> simp [ofEntries]

/-- With the length landed, the run publishes a whole entry. -/
theorem publication_integrity_commit : ∃ s : Store Nat Unit,
    exec (step unitSerde 100) (commitRun true) (ofEntries []) = some s ∧ Integrity unitSerde s ∧
      s.pub 0 = some (7, [9, 9], ()) := by
  have hrun : (exec (step unitSerde 100) (commitRun true) (ofEntries [])).any
      (fun s => s.pub 0 = some (7, [9, 9], ())) = true := by decide
  obtain ⟨s, hs, hp⟩ := (Option.any_eq_true _ _).1 hrun
  have hwhole : allowed (step unitSerde 100) (fun s a => decide (RenamesWhole s a)) (commitRun true)
      (ofEntries []) = true := by decide
  exact ⟨s, hs, publication_integrity (Run.exec_allowed (by simp) (.start init_ofEntries_nil) hwhole hs),
    by simpa using hp⟩

/-- Without, the writer has returned `Ok`, the entry is visible with its length missing, and a load of
it ends with `Ok(None)`. -/
theorem commit_before_length_lands : ∃ s : Store Nat Unit,
    Run (step unitSerde 100) Any Init s ∧ (s.writers 0).any (·.returnedOk) = true ∧
      s.pub 0 = some (7, [9, 9], ()) ∧ s.content 0 = [9, 9, 110, 117, 108, 108] ∧
      (s.loads 0).any (·.pc = .corrupt) = true ∧ ¬ Integrity unitSerde s := by
  have hrun : (exec (step unitSerde 100) (commitRun false) (ofEntries [])).any (fun s =>
      (s.writers 0).any (·.returnedOk) && s.pub 0 = some (7, [9, 9], ()) &&
        s.content 0 = [9, 9, 110, 117, 108, 108] && (s.loads 0).any (·.pc = .corrupt)) = true := by decide
  obtain ⟨s, hs, hp⟩ := (Option.any_eq_true _ _).1 hrun
  simp only [Bool.and_eq_true, decide_eq_true_eq] at hp
  obtain ⟨⟨⟨hok, hpub⟩, hc⟩, hpc⟩ := hp
  refine ⟨s, Run.exec (.start init_ofEntries_nil) hs, hok, hpub, hc, hpc, fun hint => ?_⟩
  have hentry := hint.entry 0 7 [9, 9] () hpub
  rw [hc] at hentry
  exact absurd hentry (by decide)

end Vampire.Store
