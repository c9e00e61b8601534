/-
Handoff: what a `Cached` outcome promises the requests that wait for it
(`serve_inflight`). The token they hold is to keep `<key>` from eviction
until each has opened it.

A scan asks `is_pinned` and removes in two steps, and a publication takes
no part in the eviction lock, so a scan that asked before the pin removes
the entry after the rename. The registry holds one token a key, so the drop
of a newer token unpins a key an older one still stands for. A run without
these two steps (`Orderly`) keeps the promise.
-/
import Vampire.Tasks

namespace Vampire.Store

open Lib

variable {Key Meta : Type} [DecidableEq Key] {serde : Serde Meta} {maxCacheSize : Nat}

/-- The key of the entry a scan has found unpinned and is about to remove. -/
def removing (s : Store Key Meta) : Option Key :=
  match s.scan with
  | some (.removing _ e _) => some e.key
  | _ => none

/-- Renames are whole; no commit pins a key a scan is about to remove; no
registered token is unregistered while another of its key is live. -/
def Orderly (s : Store Key Meta) : Action Key Meta → Prop
  | .run w => RenamesWhole s (.run w) ∧
      ∀ W ∈ s.writers w, W.ops.head? = some .pin → s.removing ≠ some W.key
  | .unpin t => ∀ T ∈ s.tokens t, s.pins T.key = some t →
      ∀ u < s.nextToken, ∀ U ∈ s.tokens u, U.key = T.key → U.stage ≠ .live
  | _ => True

omit [DecidableEq Key] in
theorem Orderly.whole {s : Store Key Meta} {a : Action Key Meta} (h : Orderly s a) : RenamesWhole s a := by
  cases a with
  | run w => exact h.1
  | _ => trivial

/-- The key has an entry, and the writers made it. -/
def HasEntry (s : Store Key Meta) (key : Key) : Prop :=
  ∃ i b m, lookupEntry s.dir key = some i ∧ s.pub i = some (key, b, m)

structure HandoffInv (s : Store Key Meta) : Prop where
  /-- A live token's key is in the registry, for it or for a newer token. -/
  registered : ∀ {t T}, s.tokens t = some T → T.stage = .live → ∃ t', s.pins T.key = some t'
  clear : ∀ {t T}, s.tokens t = some T → T.stage = .live → s.removing ≠ some T.key
  own : ∀ {t T w}, s.tokens t = some T → .publisher w ∈ T.refs → T.refs = [.publisher w]
  /-- Past its commit, a live token's key has its entry. -/
  entry : ∀ {t T}, s.tokens t = some T → T.stage = .live → (∀ w, .publisher w ∉ T.refs) → s.HasEntry T.key
  attached : ∀ {l L t}, s.loads l = some L → L.token = some t → L.isDone = false →
    ∃ T, s.tokens t = some T ∧ T.key = L.key ∧ .waiter l ∈ T.refs
  reading : ∀ {l L t}, s.loads l = some L → L.token = some t →
    L.pc = .start ∨ ∃ i b m, L.ino = some i ∧ s.pub i = some (L.key, b, m)

/-! ## What the steps change -/

section
variable {s s' : Store Key Meta}

theorem HandoffInv.frame (h : HandoffInv s)
    (next content temps orphans broken counter writers leader nextToken lock chan janitor startup) :
    HandoffInv { s with
      next, content, temps, orphans, broken, counter, writers, leader, nextToken, lock, chan, janitor, startup } :=
  ⟨h.registered, h.clear, h.own, h.entry, h.attached, h.reading⟩

/-- A token changes, its commit done if it was not. -/
theorem HandoffInv.setToken (h : HandoffInv s) {t : Nat} {T : Token Key} (ht : s.tokens t = some T)
    (T' : Token Key) (hkey : T'.key = T.key) (hlive : T'.stage = .live → T.stage = .live)
    (hown : ∀ w, .publisher w ∈ T'.refs → T'.refs = [.publisher w])
    (hentry : T'.stage = .live → (∀ w, .publisher w ∉ T'.refs) → s.HasEntry T.key)
    (hwait : ∀ l L, s.loads l = some L → L.isDone = false → .waiter l ∈ T.refs → .waiter l ∈ T'.refs) :
    HandoffInv (s.setToken t T') := by
  have other : ∀ {u U}, (s.setToken t T').tokens u = some U → u = t ∧ U = T' ∨ u ≠ t ∧ s.tokens u = some U := by
    intro u U hu
    simp only [Store.setToken, Function.update_apply] at hu
    split at hu
    · next he => exact .inl ⟨he, (Option.some.inj hu).symm⟩
    · next he => exact .inr ⟨he, hu⟩
  refine ⟨?_, ?_, ?_, ?_, ?_, h.reading⟩
  · intro u U hu hst
    rcases other hu with ⟨rfl, rfl⟩ | ⟨-, hu⟩
    · exact hkey ▸ h.registered ht (hlive hst)
    · exact h.registered hu hst
  · intro u U hu hst
    rcases other hu with ⟨rfl, rfl⟩ | ⟨-, hu⟩
    · exact hkey ▸ h.clear ht (hlive hst)
    · exact h.clear hu hst
  · intro u U w hu hw
    rcases other hu with ⟨rfl, rfl⟩ | ⟨-, hu⟩
    · exact hown w hw
    · exact h.own hu hw
  · intro u U hu hst hp
    rcases other hu with ⟨rfl, rfl⟩ | ⟨-, hu⟩
    · exact hkey ▸ hentry hst hp
    · exact h.entry hu hst hp
  · intro l L u hl hu hd
    obtain ⟨U, hU, hk, hr⟩ := h.attached hl hu hd
    by_cases he : u = t
    · subst he
      cases hU.symm.trans ht
      exact ⟨T', Function.update_self .., hkey.trans hk, hwait l L hl hd hr⟩
    · exact ⟨U, (Function.update_of_ne he ..).trans hU, hk, hr⟩

/-- A token is not live any more. -/
theorem HandoffInv.retire (h : HandoffInv s) {t : Nat} {T : Token Key} (ht : s.tokens t = some T)
    (st : Stage) (hst : st ≠ .live) : HandoffInv (s.setToken t { T with stage := st }) :=
  h.setToken ht _ rfl (fun h => absurd h hst) (fun _ hw => show T.refs = _ from h.own ht hw)
    (fun h => absurd h hst) fun _ _ _ _ => id

/-- A rename puts a published inode at a key. -/
theorem HandoffInv.put (h : HandoffInv s) {key : Key} {ino : Nat} {b : Bytes} {m : Meta} (hp : s.pub ino = none) :
    HandoffInv { s with
      dir := putEntry s.dir key ino, pub := Function.update s.pub ino (some (key, b, m)) } := by
  have hpub : ∀ {j p}, s.pub j = some p → Function.update s.pub ino (some (key, b, m)) j = some p := by
    intro j p hj
    refine (Function.update_of_ne ?_ ..).trans hj
    rintro rfl
    simp [hp] at hj
  refine ⟨h.registered, h.clear, h.own, ?_, h.attached, ?_⟩
  · intro t T ht hst hpr
    by_cases hk : T.key = key
    · exact ⟨ino, b, m, hk ▸ lookupEntry_putEntry .., hk ▸ Function.update_self ..⟩
    · obtain ⟨i, b', m', hl, hi⟩ := h.entry ht hst hpr
      exact ⟨i, b', m', (lookupEntry_putEntry_ne hk).trans hl, hpub hi⟩
  · intro l L t hl ht
    rcases h.reading hl ht with hpc | ⟨i, b', m', hi, hp'⟩
    · exact .inl hpc
    · exact .inr ⟨i, b', m', hi, hpub hp'⟩

theorem failWriter_handoff (h : HandoffInv s) {w : Nat} {W : Writer Key Meta}
    (htoken : ∀ t, W.token = some t → ∃ T, s.tokens t = some T ∧ T.refs = [.publisher w]) :
    HandoffInv (s.failWriter w W) := by
  unfold failWriter
  cases hW : W.token with
  | none => exact h.frame ..
  | some t =>
    obtain ⟨T, ht, hr⟩ := htoken t hW
    have h1 : HandoffInv (s.setToken t { T with refs := [], stage := .dropping }) :=
      h.setToken ht _ rfl (by simp) (by simp) (by simp) (by simp [hr])
    simp only [Option.bind_some, ht, Option.getD_some]
    exact h1.frame ..

/-- The reading of a body goes on from a file the writers published. -/
theorem HandoffInv.loadStep (h : HandoffInv s) (htasks : TasksOk s) {l : Nat} {L L' : Load Key Meta}
    (hl : s.loads l = some L) (hnext : s.loadNext serde L = some L') : HandoffInv (s.setLoad l L') := by
  obtain ⟨hkey, htoken, hd⟩ := loadNext_keeps hnext
  refine ⟨h.registered, h.clear, h.own, h.entry, ?_, ?_⟩
  · intro l' M t hM ht hdM
    simp only [setLoad, Function.update_apply] at hM
    split at hM
    · next he =>
      cases hM; subst he
      obtain ⟨T, hT, hk, hr⟩ := h.attached hl (htoken ▸ ht) hd
      exact ⟨T, hT, hk.trans hkey.symm, hr⟩
    · exact h.attached hM ht hdM
  · intro l' M t hM ht
    simp only [setLoad, Function.update_apply] at hM
    split at hM
    case isFalse => exact h.reading hM ht
    next he =>
    cases hM; subst he
    by_cases hpc : L.pc = .start
    · -- The token waits with the load, so its key still has its entry.
      obtain ⟨T, hT, hk, hr⟩ := h.attached hl (htoken ▸ ht) hd
      have hlive := htasks.token_refs hT (List.ne_nil_of_mem hr)
      have hpr : ∀ w, .publisher w ∉ T.refs := by
        intro w hw
        simp [h.own hT hw] at hr
      obtain ⟨i, b, m, hlook, hp⟩ := h.entry hT hlive hpr
      rw [hk] at hlook hp
      simp only [loadNext, hpc, hlook, Option.some.injEq] at hnext
      subst hnext
      exact .inr ⟨i, b, m, rfl, hp⟩
    · obtain ⟨-, hino⟩ := loadNext_same hpc hnext
      rcases h.reading hl (htoken ▸ ht) with hs | ⟨i, b, m, hi, hp⟩
      · exact absurd hs hpc
      · exact .inr ⟨i, b, m, hino.trans hi, hkey ▸ hp⟩

/-- A call of a writer. -/
theorem runOp_handoff (h : HandoffInv s) (htasks : TasksOk s) (hd : DiskOk serde s) {w : Nat}
    {W : Writer Key Meta} {op : Op} {rest : List Op} (hw : s.writers w = some W) (hops : W.ops = op :: rest)
    (hpin : op = .pin → s.removing ≠ some W.key) (hrun : s.runOp w W rest op = some s') : HandoffInv s' := by
  have hat := (htasks.placed hw).at hops
  cases hat with
  | plain hop hpre htoken =>
    rcases runOp_plain hop hrun with rfl | ⟨_, _, _, _, _, _, rfl⟩
    · exact failWriter_handoff h (by simp [htoken])
    · exact h.frame ..
  | pin ha htoken =>
    cases hrun
    have other : ∀ {u U}, Function.update s.tokens s.nextToken (some ⟨W.key, [.publisher w], .live⟩) u = some U →
        U = ⟨W.key, [.publisher w], .live⟩ ∨ s.tokens u = some U := by
      intro u U hu
      rw [Function.update_apply] at hu
      split at hu
      · exact .inl (Option.some.inj hu).symm
      · exact .inr hu
    refine ⟨?_, ?_, ?_, ?_, ?_, h.reading⟩
    · intro u U hu hst
      by_cases hk : U.key = W.key
      · exact ⟨s.nextToken, by simp [Store.setWriter, hk]⟩
      · rcases other hu with rfl | hu
        · exact absurd rfl hk
        · obtain ⟨t', ht'⟩ := h.registered hu hst
          exact ⟨t', (Function.update_of_ne hk ..).trans ht'⟩
    · intro u U hu hst
      rcases other hu with rfl | hu
      · exact hpin rfl
      · exact h.clear hu hst
    · intro u U v hu hv
      rcases other hu with rfl | hu
      · simp only [List.mem_singleton] at hv
        rw [hv]
      · exact h.own hu hv
    · intro u U hu hst hp
      rcases other hu with rfl | hu
      · exact absurd (List.mem_singleton_self _) (hp w)
      · exact h.entry hu hst hp
    · intro l L u hl hu hd
      obtain ⟨U, hU, hk, hr⟩ := h.attached hl hu hd
      have := htasks.token_lt hU
      exact ⟨U, (Function.update_of_ne (by omega) ..).trans hU, hk, hr⟩
  | lock ha htoken =>
    simp only [runOp] at hrun
    split at hrun <;> cases hrun
    exact h.frame ..
  | @publish t ha htoken ht hp =>
    simp only [runOp] at hrun
    split at hrun <;> cases hrun
    next ino hino =>
    simp only [htoken, Option.bind_some, ht, Option.getD_some]
    have h1 : HandoffInv { s with
        dir := putEntry s.dir W.key ino
        pub := Function.update s.pub ino (some (W.key, W.body, W.info)) } := h.put (hd.temps_pub hino)
    have h2 := h1.setToken ht ⟨W.key, [.inflight], .live⟩ rfl (fun _ => rfl) (by simp)
      (fun _ _ => ⟨ino, W.body, W.info, lookupEntry_putEntry .., Function.update_self ..⟩) (by simp)
    exact h2.frame ..
  | replace ha htoken hl =>
    simp only [runOp] at hrun
    split at hrun <;> cases hrun
    next ino hino =>
    simp only [htoken, Option.bind_none]
    have h1 : HandoffInv { s with
        dir := putEntry s.dir W.key ino
        pub := Function.update s.pub ino (some (W.key, W.body, W.info)) } := h.put (hd.temps_pub hino)
    exact h1.frame ..
  | evict => cases hrun
  | unlock => cases hrun; exact h.frame ..
  | remove => cases hrun; exact h.frame ..

theorem Rule.handoff_ok {a : Action Key Meta} (hr : Rule serde maxCacheSize s a s') (hd : DiskOk serde s)
    (htasks : TasksOk s) (hok : Orderly s a) (h : HandoffInv s) : HandoffInv s' := by
  have scan : ∀ {sc : Option (Scan Key)}, (∀ total e rest, sc ≠ some (.removing total e rest)) →
      HandoffInv { s with scan := sc } := by
    intro sc hsc
    refine ⟨h.registered, ?_, h.own, h.entry, h.attached, h.reading⟩
    intro t T _ _
    unfold removing
    split
    · next heq => exact absurd heq (hsc _ _ _)
    · simp
  cases hr with
  | startArtifact | startMetadata | finish | land | landFail | landOrphan | loseOrphan | recv | janitorLock
  | drain => exact h.frame ..
  | run hw hops hrun =>
    refine runOp_handoff h htasks hd hw hops (fun hop => ?_) hrun
    exact hok.2 _ hw (by simp [hops, hop])
  | @fail w W op rest hw hops hf =>
    refine failWriter_handoff h fun t ht => ?_
    cases (htasks.placed hw).at hops with
    | plain _ _ htoken | replace _ htoken _ => simp [ht] at htoken
    | publish ha htoken htok hp => cases ht.symm.trans htoken; exact ⟨_, htok, rfl⟩
    | pin | lock | evict | unlock | remove => simp [Op.fallible] at hf
  | @attach l t T ht hl hmem =>
    have hpr : ∀ w, .publisher w ∉ T.refs := by
      intro w hw
      simp [h.own ht hw] at hmem
    have hlive := htasks.token_refs ht (List.ne_nil_of_mem hmem)
    have h1 := h.setToken ht { T with refs := .waiter l :: T.refs } rfl id
      (fun w hw => absurd (by simpa using hw) (hpr w)) (fun _ _ => h.entry ht hlive hpr)
      fun _ _ _ _ => List.mem_cons_of_mem _
    refine ⟨h1.registered, h1.clear, h1.own, h1.entry, ?_, ?_⟩
    · intro l' L u hL hu hdone
      simp only [setLoad, Function.update_apply] at hL
      split at hL
      · next he =>
        cases hL
        cases hu
        exact ⟨_, Function.update_self .., rfl, he ▸ List.mem_cons_self⟩
      · exact h1.attached hL hu hdone
    · intro l' L u hL hu
      simp only [setLoad, Function.update_apply] at hL
      split at hL
      · cases hL; exact .inl rfl
      · exact h1.reading hL hu
  | @load l key hl hst =>
    refine ⟨h.registered, h.clear, h.own, h.entry, ?_, ?_⟩
    · intro l' L u hL hu hdone
      simp only [setLoad, Function.update_apply] at hL
      split at hL
      · cases hL; cases hu
      · exact h.attached hL hu hdone
    · intro l' L u hL hu
      simp only [setLoad, Function.update_apply] at hL
      split at hL
      · cases hL; cases hu
      · exact h.reading hL hu
  | loadStep hl hnext => exact h.loadStep htasks hl hnext
  | @leave t T ref ht hmem hm =>
    have hlive := htasks.token_refs ht (List.ne_nil_of_mem hmem)
    have hpub : ∀ w, ref ≠ .publisher w := by
      rintro w rfl
      simp [mayLeave] at hm
    refine h.setToken ht _ rfl (fun _ => hlive) ?_ ?_ ?_
    · intro w hw
      have hown := h.own ht (List.mem_of_mem_erase hw)
      rw [hown, List.mem_singleton] at hmem
      exact absurd hmem (hpub w)
    · intro _ hp
      exact h.entry ht hlive fun w hw => hp w ((List.mem_erase_of_ne (hpub w).symm).2 hw)
    · intro l L hl hdone hr
      refine (List.mem_erase_of_ne ?_).2 hr
      rintro rfl
      simp [mayLeave, hl, hdone] at hm
  | @unpinOwn t T ht hst hp =>
    have h1 : HandoffInv { s with pins := Function.update s.pins T.key none } := by
      refine ⟨?_, h.clear, h.own, h.entry, h.attached, h.reading⟩
      intro u U hu hlive
      obtain ⟨t', ht'⟩ := h.registered hu hlive
      refine ⟨t', (Function.update_of_ne ?_ ..).trans ht'⟩
      intro hk
      exact hok T ht hp u (htasks.token_lt hu) U hu hk hlive
    exact h1.retire ht .sending (by simp)
  | unpinOther ht hst hp => exact h.retire ht .dead (by simp)
  | send ht hst => exact (h.retire ht .dead (by simp)).frame ..
  | scanStart hnone hev =>
    have h1 : HandoffInv { s with scan := some (.listing s.dir []) } := scan (by simp)
    unfold beforeScan
    split <;> exact h1.frame ..
  | scanList | scanSort | scanPinned => exact scan (by simp)
  | @scanPick total e rest hsc hlt hpin =>
    refine ⟨h.registered, ?_, h.own, h.entry, h.attached, h.reading⟩
    intro t T ht hst
    simp only [removing, ne_eq, Option.some.injEq]
    intro hk
    -- The scan has just asked, and a live token's key is registered.
    obtain ⟨t', ht'⟩ := h.registered ht hst
    obtain ⟨T', hT', -, hst'⟩ := htasks.pin_token ht'
    rw [← hk] at ht'
    simp only [isPinned, ht', Option.bind_some, hT', decide_eq_false_iff_not, not_not] at hpin
    simp [hpin] at hst'
  | @scanRemove total e rest hsc =>
    have h1 : HandoffInv { s with scan := some (.deciding (total - e.size) rest) } := scan (by simp)
    refine ⟨h1.registered, h1.clear, h1.own, ?_, h1.attached, h1.reading⟩
    intro t T ht hst hpr
    have hk : T.key ≠ e.key := by
      intro hk
      exact h.clear ht hst (by simp [removing, hsc, hk])
    obtain ⟨i, b, m, hl, hp⟩ := h.entry ht hst hpr
    exact ⟨i, b, m, (lookupEntry_removeEntry_ne hk).trans hl, hp⟩
  | scanEnd hsc hend =>
    have h1 : HandoffInv { s with scan := none } := scan (by simp)
    unfold afterScan
    repeat' split
    all_goals exact h1.frame ..

end

/-! ## The theorem -/

theorem Init.handoff_ok {s : Store Key Meta} (h : Init s) : HandoffInv s := by
  obtain ⟨-, -, -, -, -, -, -, -, -, ht, -, hl, -⟩ := h
  constructor <;> simp [ht, hl]

/-- No scan is about to remove an entry a live token stands for, and a
request that waits with one reads an entry: its load opens the path, and ends
neither with `Ok(None)` nor with an error. -/
structure Handoff (s : Store Key Meta) : Prop where
  kept : ∀ key t T, s.removing = some key → s.tokens t = some T → T.key = key → T.stage ≠ .live
  found : ∀ l L, s.loads l = some L → L.token ≠ none → L.pc ≠ .missing ∧ L.pc ≠ .corrupt ∧ L.pc ≠ .failed

/-- **Handoff safety.** In every run in which no commit pins a key between a
scan's check and its removal, no token is unregistered over another live one,
and renames are whole, an entry outlives its tokens and every waiting request
finds it. -/
theorem handoff_safety {s : Store Key Meta} (h : Run (step serde maxCacheSize) Orderly Init s) : Handoff s := by
  have hall : DiskOk serde s ∧ WritersOk serde s ∧ LoadsOk serde s ∧ TasksOk s :=
    Run.store_ok (h.weaken fun _ _ => Orderly.whole)
  have hinv : HandoffInv s := by
    refine (h.invariant_of (fun s => Run (step serde maxCacheSize) Orderly Init s) HandoffInv id
      (fun _ hi => hi.handoff_ok) ?_)
    intro s a s' hrun _ ih hok hst
    obtain ⟨hd, -, -, htasks⟩ := Run.store_ok (hrun.weaken fun _ _ => Orderly.whole)
    exact (step_rule hst).handoff_ok hd htasks hok ih
  refine ⟨?_, ?_⟩
  · rintro key t T hrem ht rfl hlive
    exact hinv.clear ht hlive hrem
  · intro l L hl htoken
    obtain ⟨t, ht⟩ := Option.ne_none_iff_exists'.1 htoken
    rcases hinv.reading hl ht with hpc | ⟨i, b, m, hi, hp⟩
    · simp [hpc]
    · obtain ⟨-, -, htrack⟩ := hall.2.2.1 l L hl i hi
      have ht := (htrack _ b m hp).2
      refine ⟨?_, ?_, ?_⟩ <;> rintro hpc <;> simp [hpc, OnTrack] at ht

instance (s : Store Key Meta) : (a : Action Key Meta) → Decidable (Orderly s a)
  | .run w => inferInstanceAs (Decidable (RenamesWhole s (.run w) ∧ ∀ W ∈ s.writers w, _ → _))
  | .unpin t => inferInstanceAs (Decidable (∀ T ∈ s.tokens t, _ → ∀ u < s.nextToken, ∀ U ∈ s.tokens u, _ → _))
  | .startArtifact .. | .startMetadata .. | .fail _ | .finish _ | .land _ | .landFail .. | .landOrphan _
  | .loseOrphan .. | .attach .. | .load .. | .loadStep _ | .leave .. | .send _ | .recv
  | .janitorLock | .drain | .scanStart | .scanList .. | .scanSort | .scanCheck | .scanRemove | .scanEnd =>
    inferInstanceAs (Decidable True)

/-- A fetch, its leader's end, and a request that reads the body while the token is its alone. -/
def handoffRun : List (Action Nat Unit) :=
  [.scanStart, .scanSort, .scanEnd] ++ fetchSteps true 0 7 [9, 9] ++
    [.finish 0, .attach 0 0, .leave 0 .inflight, .loadStep 0, .loadStep 0, .loadStep 0, .loadStep 0, .loadStep 0,
      .leave 0 (.waiter 0), .unpin 0, .send 0]

theorem handoff_safety_fetch : ∃ s : Store Nat Unit,
    exec (step unitSerde 100) handoffRun (ofEntries []) = some s ∧ Handoff s ∧
      (s.loads 0).any (·.pc = .served [9, 9] ()) = true := by
  have hrun : (exec (step unitSerde 100) handoffRun (ofEntries [])).any
      (fun s => (s.loads 0).any (·.pc = .served [9, 9] ())) = true := by decide
  obtain ⟨s, hs, hp⟩ := (Option.any_eq_true _ _).1 hrun
  have hok : allowed (step unitSerde 100) (fun s a => decide (Orderly s a)) handoffRun (ofEntries []) = true := by
    decide
  exact ⟨s, hs, handoff_safety (Run.exec_allowed (by simp) (.start init_ofEntries_nil) hok hs), hp⟩

/-- Key 7 has a corrupt entry. The scan of a metadata write finds it unpinned; a fetch of 7 commits;
the scan removes the new entry; the fetch's request finds nothing. -/
def staleScan : List (Action Nat Unit) :=
  [.scanStart, .scanList 7 0, .scanSort, .scanEnd, .startMetadata 0 8 [[1, 1]] (), .run 0, .run 0, .land 0,
    .run 0, .land 0, .run 0, .land 0, .run 0, .run 0, .run 0, .run 0, .scanStart, .scanList 7 0, .scanList 8 1,
    .scanSort, .scanCheck] ++ fetchSteps true 1 7 [9, 9] ++ [.scanRemove, .attach 0 0, .loadStep 0]

/-- A second fetch of 7 commits while a request still holds the first one's token. The second token's
drop unpins the key, the janitor evicts the entry, the request finds nothing. -/
def newerToken : List (Action Nat Unit) :=
  [.scanStart, .scanSort, .scanEnd] ++ fetchSteps true 0 7 [9, 9] ++ [.finish 0, .attach 0 0, .leave 0 .inflight] ++
    fetchSteps true 1 7 [9, 9] ++ [.finish 1, .leave 1 .inflight, .unpin 1, .send 1, .recv, .janitorLock,
      .scanStart, .scanList 7 0, .scanSort, .scanCheck, .scanRemove, .loadStep 0]

theorem init_corrupt : Init (ofEntries [(7, [0, 0, 0])] : Store Nat Unit) := by
  refine ⟨?_, ?_, ?_, ?_⟩ <;> simp [ofEntries]

/-- The waiting request finds nothing, with its token live. -/
def lost (s : Store Nat Unit) : Bool :=
  (s.loads 0).any fun L => L.pc = .missing && (L.token.bind s.tokens).any (·.stage = .live)

theorem lost_not_handoff {s : Store Nat Unit} (h : lost s = true) : ¬ Handoff s := by
  intro hh
  simp only [lost, Option.any_eq_true, Bool.and_eq_true, decide_eq_true_eq, Option.bind_eq_some_iff] at h
  obtain ⟨L, hl, hpc, T, ⟨t, ht, -⟩, -⟩ := h
  exact (hh.found 0 L hl (by simp [ht])).1 hpc

/-- Both ways the promise breaks. -/
theorem handoff_broken :
    (∃ s : Store Nat Unit, Run (step unitSerde 5) Any Init s ∧ lost s = true ∧ ¬ Handoff s ∧
      exec (step unitSerde 5) staleScan (ofEntries [(7, [0, 0, 0])]) = some s) ∧
    (∃ s : Store Nat Unit, Run (step unitSerde 5) Any Init s ∧ lost s = true ∧ ¬ Handoff s ∧
      exec (step unitSerde 5) newerToken (ofEntries []) = some s) := by
  have h1 : (exec (step unitSerde 5) staleScan (ofEntries [(7, [0, 0, 0])])).any lost = true := by decide
  have h2 : (exec (step unitSerde 5) newerToken (ofEntries [])).any lost = true := by decide
  obtain ⟨s1, hs1, hl1⟩ := (Option.any_eq_true _ _).1 h1
  obtain ⟨s2, hs2, hl2⟩ := (Option.any_eq_true _ _).1 h2
  exact ⟨⟨s1, Run.exec (.start init_corrupt) hs1, hl1, lost_not_handoff hl1, hs1⟩,
    ⟨s2, Run.exec (.start init_ofEntries_nil) hs2, hl2, lost_not_handoff hl2, hs2⟩⟩

end Vampire.Store
