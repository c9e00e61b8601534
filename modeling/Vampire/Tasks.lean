/-
The tasks that share a store: where each writer stands, who holds the
eviction lock, which publication tokens are registered.

An artifact's token is made, and registered, one call before its rename and
is its writer's alone until then. A metadata writer holds the eviction lock
from before its rename to the end of its scan, the janitor around its drain
and its scan, the startup around its scan: whoever scans holds the lock.
-/
import Vampire.Publish

namespace Vampire

/-- The calls that use a handle only. -/
def Op.plain : Op → Bool
  | .create | .append | .write _ | .flush | .close => true
  | .pin | .lock | .rename | .evict | .unlock | .remove => false

variable {Key Meta : Type}

/-- How the calls of a writer end. -/
def Writer.ending (W : Writer Key Meta) : List Op :=
  if W.isArtifact then [.pin, .rename] else [.lock, .rename, .evict, .unlock]

namespace Store

open Lib

variable [DecidableEq Key] {serde : Serde Meta} {maxCacheSize : Nat}

/-- Where a writer stands. -/
inductive Placed (s : Store Key Meta) (w : Nat) (W : Writer Key Meta) : Prop
  | before {pre} : pre.all Op.plain = true → W.ops = pre ++ W.ending → W.token = none → Placed s w W
  | pinned {t} : W.isArtifact = true → W.ops = [.rename] → W.token = some t →
      s.tokens t = some ⟨W.key, [.publisher w], .live⟩ → s.pins W.key = some t → Placed s w W
  | locked : W.isArtifact = false → W.token = none → s.lock = some (.writer w) →
      (W.ops = [.rename, .evict, .unlock] ∨ W.ops = [.evict, .unlock] ∨ W.ops = [.unlock]) → Placed s w W
  | cleanup : W.ops = [.remove] → Placed s w W
  | finished : W.ops = [] → Placed s w W

/-- The holder of the lock is at its `evict_files_to_bound`. -/
def Scanning (s : Store Key Meta) : Option Holder → Prop
  | some .startup => s.startup = .scanning
  | some .janitor => s.janitor = .scanning
  | some (.writer w) => ∃ W, s.writers w = some W ∧ W.ops = [.evict, .unlock]
  | none => False

structure TasksOk (s : Store Key Meta) : Prop where
  token_lt : ∀ {t T}, s.tokens t = some T → t < s.nextToken
  token_refs : ∀ {t T}, s.tokens t = some T → T.refs ≠ [] → T.stage = .live
  pin_token : ∀ {k t}, s.pins k = some t →
    ∃ T, s.tokens t = some T ∧ T.key = k ∧ (T.stage = .live ∨ T.stage = .dropping)
  placed : ∀ {w W}, s.writers w = some W → Placed s w W
  startup : s.lock = some .startup ↔ s.startup ≠ .ready
  janitor : s.lock = some .janitor ↔ s.janitor = .draining ∨ s.janitor = .scanning
  scan : s.scan ≠ none → s.Scanning s.lock

section
omit [DecidableEq Key]

theorem Placed.congr {s s' : Store Key Meta} {w : Nat} {W : Writer Key Meta} (h : Placed s w W)
    (hlock : s.lock = some (.writer w) → s'.lock = some (.writer w))
    (ht : ∀ t, W.isArtifact = true → W.ops ≠ [] → s.tokens t = some ⟨W.key, [.publisher w], .live⟩ →
      s.pins W.key = some t →
      s'.tokens t = some ⟨W.key, [.publisher w], .live⟩ ∧ s'.pins W.key = some t) : Placed s' w W := by
  cases h with
  | before h1 h2 h3 => exact .before h1 h2 h3
  | pinned h1 h2 h3 h4 h5 =>
    obtain ⟨h4, h5⟩ := ht _ h1 (by simp [h2]) h4 h5
    exact .pinned h1 h2 h3 h4 h5
  | locked h1 h2 h3 h4 => exact .locked h1 h2 (hlock h3) h4
  | cleanup h => exact .cleanup h
  | finished h => exact .finished h

theorem TasksOk.frame {s : Store Key Meta} (h : TasksOk s)
    (next content temps dir orphans broken pub counter leader loads chan) :
    TasksOk { s with next, content, temps, dir, orphans, broken, pub, counter, leader, loads, chan } := by
  refine ⟨h.token_lt, h.token_refs, h.pin_token, ?_, h.startup, h.janitor, h.scan⟩
  exact fun hw => (h.placed hw).congr id fun _ _ _ => And.intro

theorem Scanning.setWriter {s : Store Key Meta} {l : Option Holder} {w : Nat} {W : Writer Key Meta}
    (h : s.Scanning l) (hne : l ≠ some (.writer w)) : (s.setWriter w W).Scanning l := by
  obtain _ | _ | _ | v := l
  · exact h
  · exact h
  · exact h
  · obtain ⟨V, hv, ho⟩ := h
    refine ⟨V, (Function.update_of_ne ?_ ..).trans hv, ho⟩
    rintro rfl
    exact hne rfl

/-- A step of one writer within its place. -/
theorem TasksOk.setWriter {s : Store Key Meta} (h : TasksOk s) {w : Nat} {W : Writer Key Meta}
    (hp : Placed s w W) (hs : s.lock = some (.writer w) → s.scan = none) : TasksOk (s.setWriter w W) := by
  refine ⟨h.token_lt, h.token_refs, h.pin_token, ?_, h.startup, h.janitor, ?_⟩
  · intro v V hv
    have keep : ∀ {V : Writer Key Meta}, Placed s v V → Placed (s.setWriter w W) v V :=
      fun hp => hp.congr id fun _ _ _ => And.intro
    simp only [Store.setWriter, Function.update_apply] at hv
    split at hv
    · next he => cases hv; subst he; exact keep hp
    · exact keep (h.placed hv)
  · exact fun hscan => (h.scan hscan).setWriter fun hl => hscan (hs hl)

/-- A change of one token; `hpub` is for the writer whose own it is. -/
theorem TasksOk.setToken {s : Store Key Meta} (h : TasksOk s) {t : Nat} {T : Token Key}
    (ht : s.tokens t = some T) (T' : Token Key) (hkey : T'.key = T.key) (hrefs : T'.refs ≠ [] → T'.stage = .live)
    (hpub : ∀ {v V}, s.writers v = some V → T = ⟨V.key, [.publisher v], .live⟩ → Placed (s.setToken t T') v V)
    (hpin : s.pins T.key = some t → T'.stage = .live ∨ T'.stage = .dropping) : TasksOk (s.setToken t T') := by
  refine ⟨?_, ?_, ?_, ?_, h.startup, h.janitor, h.scan⟩
  · intro u U hu
    simp only [Store.setToken, Function.update_apply] at hu
    split at hu
    · next he => subst he; exact h.token_lt ht
    · exact h.token_lt hu
  · intro u U hu
    simp only [Store.setToken, Function.update_apply] at hu
    split at hu
    · cases hu; exact hrefs
    · exact h.token_refs hu
  · intro k u hu
    obtain ⟨U, hU, hk, hst⟩ := h.pin_token hu
    by_cases he : u = t
    · subst he
      cases hU.symm.trans ht
      exact ⟨T', by simp [Store.setToken], hkey.trans hk, hpin (hk ▸ hu)⟩
    · exact ⟨U, by simp [Store.setToken, Function.update_of_ne he, hU], hk, hst⟩
  · intro w W hw
    by_cases hT : T = ⟨W.key, [.publisher w], .live⟩
    · exact hpub hw hT
    · refine (h.placed hw).congr id fun u _ _ hu hp => ⟨?_, hp⟩
      have he : u ≠ t := by
        rintro rfl
        exact hT (Option.some.inj (ht.symm.trans hu))
      simp [Store.setToken, Function.update_of_ne he, hu]

end

/-! ## The next call, by place -/

inductive At (s : Store Key Meta) (w : Nat) (W : Writer Key Meta) : Op → List Op → Prop
  | plain {op pre} : op.plain = true → pre.all Op.plain = true → W.token = none → At s w W op (pre ++ W.ending)
  | pin : W.isArtifact = true → W.token = none → At s w W .pin [.rename]
  | lock : W.isArtifact = false → W.token = none → At s w W .lock [.rename, .evict, .unlock]
  | publish {t} : W.isArtifact = true → W.token = some t →
      s.tokens t = some ⟨W.key, [.publisher w], .live⟩ → s.pins W.key = some t → At s w W .rename []
  | replace : W.isArtifact = false → W.token = none → s.lock = some (.writer w) →
      At s w W .rename [.evict, .unlock]
  | evict : W.isArtifact = false → W.token = none → s.lock = some (.writer w) → At s w W .evict [.unlock]
  | unlock : W.isArtifact = false → W.token = none → s.lock = some (.writer w) → At s w W .unlock []
  | remove : At s w W .remove []

section
variable {s s' : Store Key Meta} {w : Nat} {W : Writer Key Meta} {op : Op} {rest : List Op}

omit [DecidableEq Key] in
theorem Placed.at (h : Placed s w W) (hops : W.ops = op :: rest) : At s w W op rest := by
  cases h with
  | @before pre h1 h2 h3 =>
    rw [hops] at h2
    cases pre with
    | cons o pre =>
      simp only [List.all_cons, Bool.and_eq_true, List.cons_append, List.cons.injEq] at h1 h2
      obtain ⟨rfl, rfl⟩ := h2
      exact .plain h1.1 h1.2 h3
    | nil =>
      simp only [List.nil_append, Writer.ending] at h2
      split at h2 <;> cases h2
      · next ha => exact .pin ha h3
      · next ha => exact .lock (by simpa using ha) h3
  | pinned h1 h2 h3 h4 h5 => cases hops.symm.trans h2; exact .publish h1 h3 h4 h5
  | locked h1 h2 h3 h4 =>
    rcases h4 with h4 | h4 | h4 <;> cases hops.symm.trans h4
    · exact .replace h1 h2 h3
    · exact .evict h1 h2 h3
    · exact .unlock h1 h2 h3
  | cleanup h => cases hops.symm.trans h; exact .remove
  | finished h => simp [hops] at h

omit [DecidableEq Key] in
theorem Placed.at_evict (h : Placed s w W) (hops : W.ops = .evict :: rest) :
    W.isArtifact = false ∧ W.token = none ∧ s.lock = some (.writer w) ∧ rest = [.unlock] := by
  have hat := h.at hops
  generalize hop : Op.evict = op at hat
  cases hat with
  | plain hplain => subst hop; simp [Op.plain] at hplain
  | evict ha htoken hl => exact ⟨ha, htoken, hl, rfl⟩
  | pin | lock | publish | replace | unlock | remove => cases hop

omit [DecidableEq Key] in
/-- A place says nothing of the handle. -/
theorem Placed.file (h : Placed s w W) (file : Option Handle) : Placed s w { W with file } := by
  cases h with
  | before h1 h2 h3 => exact .before h1 h2 h3
  | pinned h1 h2 h3 h4 h5 => exact .pinned h1 h2 h3 h4 h5
  | locked h1 h2 h3 h4 => exact .locked h1 h2 h3 h4
  | cleanup h => exact .cleanup h
  | finished h => exact .finished h

/-- A call that uses the handle only fails its writer or moves it on. -/
theorem runOp_plain (hop : op.plain = true) (h : s.runOp w W rest op = some s') :
    s' = s.failWriter w W ∨ ∃ next content temps orphans ino file,
      s' = ({ s with next, content, temps, orphans } : Store Key Meta).setWriter w
        { W with ino, file, ops := rest } := by
  cases op <;> simp only [Op.plain, Bool.false_eq_true] at hop
  case write bytes =>
    rcases bytes with _ | ⟨b, bs⟩ <;> simp only [runOp] at h <;> repeat' split at h
    all_goals cases h
    all_goals first | exact .inl rfl | exact .inr ⟨_, _, _, _, _, _, rfl⟩
  case create | close => cases h; exact .inr ⟨_, _, _, _, _, _, rfl⟩
  case append | flush =>
    simp only [runOp] at h
    repeat' split at h
    all_goals cases h
    all_goals first | exact .inl rfl | exact .inr ⟨_, _, _, _, _, _, rfl⟩

omit [DecidableEq Key] in
/-- Whoever scans is at no other call. -/
theorem TasksOk.scan_none (h : TasksOk s) (hw : s.writers w = some W) (hops : W.ops ≠ [.evict, .unlock])
    (hl : s.lock = some (.writer w)) : s.scan = none := by
  by_contra hscan
  have hsc := h.scan hscan
  simp only [hl, Scanning] at hsc
  obtain ⟨V, hv, he⟩ := hsc
  cases hw.symm.trans hv
  exact hops he

omit [DecidableEq Key] in
/-- Releasing the lock. -/
theorem TasksOk.release (h : TasksOk s) (hl : s.lock = some (.writer w)) (hscan : s.scan = none)
    (hw : ∀ {W}, s.writers w = some W → Placed { s with lock := none } w W) :
    TasksOk { s with lock := none } := by
  refine ⟨h.token_lt, h.token_refs, h.pin_token, ?_, ?_, ?_, fun hne => absurd hscan hne⟩
  · intro v V hv
    by_cases he : v = w
    · subst he; exact hw hv
    · refine (h.placed hv).congr (fun hlv => ?_) fun _ _ _ => And.intro
      cases hlv.symm.trans hl
      exact absurd rfl he
  · have := h.startup; simp only [hl, Option.some.injEq, reduceCtorEq, false_iff] at this ⊢; exact this
  · have := h.janitor; simp only [hl, Option.some.injEq, reduceCtorEq, false_iff] at this ⊢; exact this

omit [DecidableEq Key] in
/-- The writer of a token no one else has yet is done with it. -/
theorem TasksOk.setOwnToken {t : Nat} (h : TasksOk s) (T' : Token Key) (hw : s.writers w = some W)
    (hplaced : W.ops = [] ∨ W.ops = [.remove]) (ht : s.tokens t = some ⟨W.key, [.publisher w], .live⟩)
    (hkey : T'.key = W.key) (hrefs : T'.refs ≠ [] → T'.stage = .live)
    (hst : T'.stage = .live ∨ T'.stage = .dropping) : TasksOk (s.setToken t T') := by
  refine h.setToken ht T' hkey hrefs ?_ fun _ => hst
  intro v V hv hT
  simp only [Token.mk.injEq, List.cons.injEq, Ref.publisher.injEq, and_true] at hT
  obtain ⟨-, rfl⟩ := hT
  cases hw.symm.trans hv
  rcases hplaced with h | h
  · exact .finished h
  · exact .cleanup h

omit [DecidableEq Key] in
theorem failWriter_tasks (h : TasksOk s) (hw : s.writers w = some W) (hops : W.ops = op :: rest)
    (hop : op.plain = true ∨ op = .rename) : TasksOk (s.failWriter w W) := by
  have hat := (h.placed hw).at hops
  have hne : W.ops ≠ [.evict, .unlock] := by
    intro he
    cases hops.symm.trans he
    simp [Op.plain] at hop
  have hscan := h.scan_none hw hne
  -- The writer first, then its token, then its lock.
  let W' : Writer Key Meta := { W with file := none, ops := [.remove], failed := true }
  have h1 : TasksOk (s.setWriter w W') := h.setWriter (.cleanup rfl) hscan
  have hw' : (s.setWriter w W').writers w = some W' := Function.update_self ..
  have h2 : TasksOk ({ s with tokens := (s.failWriter w W).tokens }.setWriter w W') := by
    cases hat with
    | publish ha htoken ht hp =>
      simp only [failWriter, htoken, Option.bind_some, ht, Option.getD_some]
      exact h1.setOwnToken ⟨W.key, [], .dropping⟩ hw' (.inr rfl) ht rfl (by simp) (.inr rfl)
    | plain _ _ htoken => simpa [failWriter, htoken] using h1
    | replace _ htoken _ => simpa [failWriter, htoken] using h1
    | pin _ _ | lock _ _ | evict _ _ _ | unlock _ _ _ | remove => simp [Op.plain] at hop
  by_cases hl : s.lock = some (.writer w)
  · have h3 := h2.release hl (hscan hl) fun hV => by
      simp only [Store.setWriter, Function.update_self, Option.some.injEq] at hV
      exact .cleanup (hV ▸ rfl)
    simp only [failWriter, hl, if_true]
    exact h3.frame ..
  · simp only [failWriter, hl, if_false]
    exact h2.frame ..

theorem pin_tasks (h : TasksOk s) (hs : WritersOk serde s) (hw : s.writers w = some W)
    (hops : W.ops = [.pin, .rename]) (ha : W.isArtifact = true)
    (hrun : s.runOp w W [.rename] .pin = some s') : TasksOk s' := by
  have hpart : ∀ {V : Writer Key Meta}, V.isArtifact = true → ∃ k, V.temp = .part k := by
    intro V hV
    cases hk : V.temp with
    | part k => exact ⟨k, rfl⟩
    | metadata k n => simp [Writer.isArtifact, hk] at hV
  simp only [runOp, Option.some.injEq] at hrun
  subst hrun
  refine ⟨?_, ?_, ?_, ?_, h.startup, h.janitor, ?_⟩
  · intro u U hu
    simp only [Store.setWriter, Function.update_apply] at hu ⊢
    split at hu
    · omega
    · have := h.token_lt hu; omega
  · intro u U hu hr
    simp only [Store.setWriter, Function.update_apply] at hu
    split at hu
    · cases hu; rfl
    · exact h.token_refs hu hr
  · intro k u hu
    simp only [Store.setWriter, Function.update_apply] at hu ⊢
    split at hu
    · next he => cases hu; exact ⟨_, if_pos rfl, he.symm, .inl rfl⟩
    · obtain ⟨U, hU, hk, hst⟩ := h.pin_token hu
      have := h.token_lt hU
      exact ⟨U, by rw [if_neg (by omega), hU], hk, hst⟩
  · intro v V hv
    simp only [Store.setWriter, Function.update_apply] at hv
    split at hv
    · next he =>
      cases hv
      subst he
      exact .pinned ha rfl rfl (Function.update_self ..) (Function.update_self ..)
    · next he =>
      refine (h.placed hv).congr id fun u hV hne hu hp => ⟨?_, ?_⟩
      · have := h.token_lt hu
        exact (Function.update_of_ne (by omega) ..).trans hu
      · refine (Function.update_of_ne ?_ ..).trans hp
        -- The key has one leader.
        intro hk
        obtain ⟨k, hWk⟩ := hpart ha
        obtain ⟨k', hVk⟩ := hpart hV
        have hkk : k' = k := (hs.key hv hVk).trans (hk.trans (hs.key hw hWk).symm)
        have h1 := hs.leader hw hWk (by simp [hops])
        have h2 := hs.leader hv (hkk ▸ hVk) hne
        exact he (Option.some.inj (h2.symm.trans h1))
  · exact fun hscan => (h.scan hscan).setWriter fun hl => hscan (h.scan_none hw (by simp [hops]) hl)

theorem runOp_tasks_ok (h : TasksOk s) (hs : WritersOk serde s) (hw : s.writers w = some W)
    (hops : W.ops = op :: rest) (hrun : s.runOp w W rest op = some s') : TasksOk s' := by
  have hat := (h.placed hw).at hops
  cases hat with
  | @plain _ pre hop hpre htoken =>
    have hne : W.ops ≠ [.evict, .unlock] := by
      intro he
      obtain rfl := (List.cons.inj (hops.symm.trans he)).1
      simp [Op.plain] at hop
    rcases runOp_plain hop hrun with rfl | ⟨next, content, temps, orphans, ino, file, rfl⟩
    · exact failWriter_tasks h hw hops (.inl hop)
    · exact (h.frame ..).setWriter (.before hpre rfl htoken) (h.scan_none hw hne)
  | pin ha htoken => exact pin_tasks h hs hw hops ha hrun
  | lock ha htoken =>
    simp only [runOp] at hrun
    split at hrun <;> cases hrun
    next hl =>
    have hscan : s.scan = none := by
      by_contra hne
      simpa [hl, Scanning] using h.scan hne
    have hst := h.startup
    have hj := h.janitor
    refine ⟨h.token_lt, h.token_refs, h.pin_token, ?_, ?_, ?_, fun hne => absurd hscan hne⟩
    · intro v V hv
      simp only [Store.setWriter, Function.update_apply] at hv
      split at hv
      · next he => cases hv; subst he; exact .locked ha htoken rfl (.inl rfl)
      · exact (h.placed hv).congr (by simp [hl]) fun _ _ _ => And.intro
    · simpa [hl, Store.setWriter] using hst
    · simpa [hl, Store.setWriter] using hj
  | @publish t ha htoken ht hp =>
    simp only [runOp] at hrun
    split at hrun <;> cases hrun
    simp only [htoken, Option.bind_some, ht, Option.getD_some]
    have h1 : TasksOk (s.setWriter w { W with token := some t, ops := [] }) :=
      h.setWriter (.finished rfl) (h.scan_none hw (by simp [hops]))
    exact (h1.setOwnToken ⟨W.key, [.inflight], .live⟩ (Function.update_self ..) (.inl rfl) ht rfl
      (fun _ => rfl) (.inl rfl)).frame ..
  | replace ha htoken hl =>
    simp only [runOp] at hrun
    split at hrun <;> cases hrun
    simp only [htoken, Option.bind_none]
    have h1 : TasksOk (s.setWriter w { W with token := none, ops := [.evict, .unlock] }) :=
      h.setWriter (.locked ha rfl hl (.inr (.inl rfl))) (h.scan_none hw (by simp [hops]))
    exact h1.frame ..
  | evict => cases hrun
  | unlock ha htoken hl =>
    cases hrun
    have hscan := h.scan_none hw (by simp [hops]) hl
    have h1 : TasksOk (s.setWriter w { W with ops := [] }) := h.setWriter (.finished rfl) fun _ => hscan
    exact h1.release hl hscan fun hV => by
      simp only [Store.setWriter, Function.update_self, Option.some.injEq] at hV
      exact .finished (hV ▸ rfl)
  | remove =>
    cases hrun
    exact (h.frame ..).setWriter (.finished rfl) (h.scan_none hw (by simp [hops]))

/-! ## Every step -/

/-- A registered token that is being dropped leaves the registry. -/
theorem TasksOk.unregister {t : Nat} {T : Token Key} (h : TasksOk s) (ht : s.tokens t = some T)
    (hst : T.stage ≠ .live) (hp : s.pins T.key = some t) :
    TasksOk { s with pins := Function.update s.pins T.key none } := by
  refine ⟨h.token_lt, h.token_refs, ?_, ?_, h.startup, h.janitor, h.scan⟩
  · intro k u hu
    simp only [Function.update_apply] at hu
    split at hu
    · cases hu
    · exact h.pin_token hu
  · intro w W hw
    refine (h.placed hw).congr id fun u _ _ hu hpu => ⟨hu, (Function.update_of_ne ?_ ..).trans hpu⟩
    intro hk
    cases (hk ▸ hpu).symm.trans hp
    cases hu.symm.trans ht
    exact hst rfl

omit [DecidableEq Key] in
theorem TasksOk.start (h : TasksOk s) (hnone : s.writers w = none) {leader counter}
    (hp : Placed s w W) : TasksOk ({ s with leader, counter }.setWriter w W) := by
  refine (h.frame ..).setWriter (hp.congr id fun _ _ _ => And.intro) fun hl => ?_
  by_contra hscan
  have hsc := h.scan hscan
  rw [show s.lock = some (.writer w) from hl] at hsc
  obtain ⟨V, hv, -⟩ := hsc
  simp [hnone] at hv

omit [DecidableEq Key] in
theorem placed_artifactWriter (key : Key) (chunks : List Bytes) (info : Meta) :
    Placed s w (artifactWriter serde key chunks info) := by
  let json := serde.toVec info
  let pre : List Op := .create :: chunks.map .write ++
    [.flush, .close, .append, .write json, .write (toBeBytes json.length), .close]
  have hops : (artifactWriter serde key chunks info).ops = pre ++ (artifactWriter serde key chunks info).ending := by
    simp [pre, json, artifactWriter, fetchArtifact, commitArtifact, Writer.ending, Writer.isArtifact]
  exact .before (by simp [pre, Op.plain]) hops rfl

omit [DecidableEq Key] in
theorem placed_metadataWriter (key : Key) (n : Nat) (pieces : List Bytes) (info : Meta) :
    Placed s w (metadataWriter serde key n pieces info) := by
  let json := serde.toVec info
  let pre : List Op := .create :: pieces.map .write ++
    [.write json, .write (toBeBytes json.length), .flush, .close]
  have hops : (metadataWriter serde key n pieces info).ops =
      pre ++ (metadataWriter serde key n pieces info).ending := by
    simp [pre, json, metadataWriter, storeMetadata, Writer.ending, Writer.isArtifact]
  exact .before (by simp [pre, Op.plain]) hops rfl

omit [DecidableEq Key] in
theorem afterScan_tasks (h : TasksOk s) (hscan : s.scan ≠ none) : TasksOk (s.afterScan s.lock) := by
  have hsc := h.scan hscan
  have hst := h.startup
  have hj := h.janitor
  cases hl : s.lock with
  | none => simp [hl, Scanning] at hsc
  | some holder =>
    cases holder with
    | startup =>
      rw [hl] at hst hj
      refine ⟨h.token_lt, h.token_refs, h.pin_token, ?_, ?_, ?_, by simp [afterScan]⟩
      · exact fun hw => (h.placed hw).congr (by simp [hl]) fun _ _ _ => And.intro
      · simp [afterScan]
      · simpa [afterScan] using hj
    | janitor =>
      rw [hl] at hst hj
      refine ⟨h.token_lt, h.token_refs, h.pin_token, ?_, ?_, ?_, by simp [afterScan]⟩
      · exact fun hw => (h.placed hw).congr (by simp [hl]) fun _ _ _ => And.intro
      · simpa [afterScan] using hst
      · simp [afterScan]
    | writer w =>
      rw [hl] at hsc
      obtain ⟨W, hw, hops⟩ := hsc
      simp only [afterScan, hw, hops]
      obtain ⟨ha, htoken, hlock, -⟩ := (h.placed hw).at_evict hops
      have h0 : TasksOk { s with scan := none } := by
        refine ⟨h.token_lt, h.token_refs, h.pin_token, ?_, hst, hj, by simp⟩
        exact fun hw => (h.placed hw).congr id fun _ _ _ => And.intro
      exact h0.setWriter (.locked ha htoken hlock (.inr (.inr rfl))) fun _ => rfl

theorem Rule.tasks_ok {a : Action Key Meta} (hr : Rule serde maxCacheSize s a s') (hs : WritersOk serde s)
    (h : TasksOk s) : TasksOk s' := by
  have scan : ∀ {dir sc}, s.scan ≠ none → TasksOk { s with dir, scan := sc } := fun hne =>
    ⟨h.token_lt, h.token_refs, h.pin_token, fun hw => (h.placed hw).congr id fun _ _ _ => And.intro,
      h.startup, h.janitor, fun _ => h.scan hne⟩
  cases hr with
  | startArtifact h1 h2 h3 h4 => exact h.start h2 (placed_artifactWriter ..)
  | startMetadata h1 h2 h3 => exact h.start h2 (placed_metadataWriter ..)
  | run hw hops hrun => exact runOp_tasks_ok h hs hw hops hrun
  | @fail w W op rest hw hops hf =>
    refine failWriter_tasks h hw hops ?_
    cases op <;> simp [Op.fallible, Op.plain] at hf ⊢
  | finish | load | loadStep | landOrphan | loseOrphan => exact h.frame ..
  | @land w W _ _ _ hw hfile | @landFail w W _ _ _ _ hw hfile =>
    have hne : W.ops ≠ [.evict, .unlock] := by
      obtain ⟨-, -, hfit, -⟩ := hs.pending hw hfile
      rintro he
      simp [he, fits] at hfit
    exact (h.frame ..).setWriter (((h.placed hw).file _).congr id fun _ _ _ => And.intro) (h.scan_none hw hne)
  | @attach l t T ht hl hmem =>
    have hlive := h.token_refs ht (List.ne_nil_of_mem hmem)
    refine (h.setToken ht { T with refs := .waiter l :: T.refs } rfl (fun _ => hlive) ?_ fun _ => .inl hlive).frame ..
    rintro v V - rfl
    simp at hmem
  | @leave t T ref ht hmem hm =>
    have hlive := h.token_refs ht (List.ne_nil_of_mem hmem)
    refine h.setToken ht _ rfl (fun hne => ?_) ?_ fun _ => ?_
    · simp [hne, hlive]
    · rintro v V - rfl
      simp only [List.mem_singleton] at hmem
      simp [hmem, mayLeave] at hm
    · simp only
      split
      · exact .inr rfl
      · exact .inl hlive
  | @unpinOwn t T ht hst hp =>
    have hlive : T.stage ≠ .live := by simp [hst]
    refine (h.unregister ht hlive hp).setToken ht _ rfl (fun hne => absurd (h.token_refs ht hne) hlive) ?_ ?_
    · rintro v V - rfl
      exact absurd rfl hlive
    · simp [Function.update_self]
  | @unpinOther t T ht hst hp =>
    have hlive : T.stage ≠ .live := by simp [hst]
    refine h.setToken ht _ rfl (fun hne => absurd (h.token_refs ht hne) hlive) ?_ fun hp' => absurd hp' hp
    rintro v V - rfl
    exact absurd rfl hlive
  | @send t T ht hst =>
    have hlive : T.stage ≠ .live := by simp [hst]
    refine (h.setToken ht { T with stage := .dead } rfl (fun hne => absurd (h.token_refs ht hne) hlive) ?_ ?_).frame ..
    · rintro v V - rfl
      exact absurd rfl hlive
    · intro hp
      obtain ⟨U, hU, -, hU'⟩ := h.pin_token hp
      cases hU.symm.trans ht
      simp [hst] at hU'
  | recv hj hc =>
    have hjan := h.janitor
    refine ⟨h.token_lt, h.token_refs, h.pin_token, ?_, h.startup, ?_, ?_⟩
    · exact fun hw => (h.placed hw).congr id fun _ _ _ => And.intro
    · simpa [hj] using hjan
    · intro hne
      have hsc := h.scan hne
      cases hl : s.lock with
      | none => simp [hl, Scanning] at hsc
      | some holder =>
        cases holder with
        | startup => simpa [hl, Scanning] using hsc
        | janitor => simp [hl, Scanning, hj] at hsc
        | writer w => simpa [hl, Scanning] using hsc
  | janitorLock hj hl =>
    have hst := h.startup
    refine ⟨h.token_lt, h.token_refs, h.pin_token, ?_, ?_, ?_, ?_⟩
    · exact fun hw => (h.placed hw).congr (by simp [hl]) fun _ _ _ => And.intro
    · simpa [hl] using hst
    · simp
    · intro hne
      simpa [hl, Scanning] using h.scan hne
  | drain hj hc => exact h.frame ..
  | scanStart hnone hev =>
    have hst := h.startup
    have hjan := h.janitor
    cases hl : s.lock with
    | none => simp [hl, atEvict] at hev
    | some holder =>
      cases holder with
      | startup =>
        simp only [hl, atEvict, decide_eq_true_eq] at hev hst hjan
        refine ⟨h.token_lt, h.token_refs, h.pin_token, ?_, ?_, ?_, ?_⟩
        · exact fun hw => (h.placed hw).congr id fun _ _ _ => And.intro
        · simp [beforeScan, hl]
        · simpa [beforeScan, hl] using hjan
        · simp [beforeScan, hl, Scanning]
      | janitor =>
        simp only [hl, true_iff] at hst hjan
        refine ⟨h.token_lt, h.token_refs, h.pin_token, ?_, ?_, ?_, ?_⟩
        · exact fun hw => (h.placed hw).congr id fun _ _ _ => And.intro
        · simpa [beforeScan, hl] using hst
        · simp [beforeScan, hl]
        · simp [beforeScan, hl, Scanning]
      | writer w =>
        refine ⟨h.token_lt, h.token_refs, h.pin_token, ?_, h.startup, h.janitor, fun _ => ?_⟩
        · exact fun hw => (h.placed hw).congr id fun _ _ _ => And.intro
        · simp only [hl, atEvict, beforeScan, Scanning] at hev ⊢
          split at hev
          case h_2 => simp at hev
          next W hw =>
          obtain ⟨rest, hops⟩ : ∃ rest, W.ops = .evict :: rest := by
            cases hops : W.ops <;> simp_all
          obtain ⟨-, -, -, rfl⟩ := (h.placed hw).at_evict hops
          exact ⟨W, hw, hops⟩
  | scanList hsc => exact scan (by simp [hsc])
  | scanSort hsc => exact scan (by simp [hsc])
  | scanPinned hsc => exact scan (by simp [hsc])
  | scanPick hsc => exact scan (by simp [hsc])
  | scanRemove hsc => exact scan (by simp [hsc])
  | scanEnd hsc => exact afterScan_tasks h (by simp [hsc])

omit [DecidableEq Key] in
theorem Init.tasks_ok (h : Init s) : TasksOk s := by
  obtain ⟨-, -, -, -, -, -, -, hw, -, ht, hp, -, hlock, hscan, -, hj, hst⟩ := h
  constructor <;> simp [hw, ht, hp, hlock, hscan, hj, hst]

/-- Every run whose renames are whole keeps the files and the tasks in order. -/
theorem Run.store_ok (h : Run (step serde maxCacheSize) RenamesWhole Init s) :
    DiskOk serde s ∧ WritersOk serde s ∧ LoadsOk serde s ∧ TasksOk s := by
  have htasks : TasksOk s := by
    refine h.invariant_of (WritersOk serde) TasksOk (fun h => (Run.files_ok h).2.1) (fun _ hi => hi.tasks_ok) ?_
    intro s a s' hs _ ht _ hst
    exact (step_rule hst).tasks_ok hs ht
  obtain ⟨hd, hs, hl⟩ := Run.files_ok h
  exact ⟨hd, hs, hl, htasks⟩

end

end Store

end Vampire
