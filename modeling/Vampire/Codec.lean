/-
`CacheStore::load` against the two writers, with everything that can stop it:
the I/O error of any of its calls, and a subtraction below zero, which would
be a panic. The file keeps its content meanwhile, whatever the bytes are.

`Packed` says which contents are entries; `load` finds an entry in exactly
those, and what the writers lay down is one of them.
-/
import Vampire.Publish

namespace Vampire

/-! ## The calls of a load -/

/-- How a function ends early: with an `io::Error`, or in a subtraction below zero. -/
inductive Halt
  | io (error : IoError)
  | underflow
  deriving DecidableEq

abbrev Halting (α : Type) := Except Halt α

/-- `a - b` on unsigned integers. -/
def checkedSub (a b : Nat) : Halting Nat :=
  if b ≤ a then .ok (a - b) else .error .underflow

def IoResult.halting {α : Type} (r : IoResult α) : Halting α := r.mapError .io

/-- The I/O calls of `load`, in the order it makes them. -/
inductive FileCall
  | openFile | metadata | seekFooter | readFooter | seekMeta | readMeta
  deriving DecidableEq

/-- The error the operating system returns from each call, if any. -/
abbrev Faults := FileCall → Option IoError

/-- A call that returns `r` unless the operating system fails it. -/
def Faults.call {α : Type} (faults : Faults) (c : FileCall) (r : IoResult α) : Halting α :=
  match faults c with
  | some e => .error (.io e)
  | none => r.halting

/-- `StoredEntry` -/
structure StoredEntry (Meta : Type) where
  file : Bytes
  bodyLen : Nat
  info : Meta
  deriving DecidableEq

/-- `StoredEntry::read_body` -/
def StoredEntry.readBody {Meta : Type} (entry : StoredEntry Meta) : IoResult Bytes :=
  readExact entry.file 0 entry.bodyLen

section
variable {Meta : Type} (serde : Serde Meta)

/-- `footer_geometry`, its two subtractions checked. -/
def checkedGeometry (totalSize : Nat) (footer : Bytes) : Halting (Nat × Nat) := do
  let metaLen := fromBeBytes footer
  if metaLen > maxMetaLen then
    throw (.io ⟨.invalidData, "cache entry metadata length exceeds sanity cap"⟩)
  let available ← checkedSub totalSize footerLen
  if metaLen > available then
    throw (.io ⟨.invalidData, "cache entry metadata length exceeds file size"⟩)
  return (← checkedSub available metaLen, metaLen)

/-- `read_footer` -/
def loadFooter (faults : Faults) (content : Bytes) : Halting (Meta × Nat) := do
  let size ← faults.call .metadata (.ok content.length)
  if size < footerLen then throw (.io shortFooterErr)
  let pos ← checkedSub size footerLen
  faults.call .seekFooter (.ok ())
  let footer ← faults.call .readFooter (readExact content pos footerLen)
  let (bodyLen, metaLen) ← checkedGeometry size footer
  faults.call .seekMeta (.ok ())
  let metaBytes ← faults.call .readMeta (readExact content bodyLen metaLen)
  return (← (parseMeta serde metaBytes).halting, bodyLen)

/-- `CacheStore::load` of a path that names `file`, or nothing. -/
def load (faults : Faults) (file : Option Bytes) : Halting (Option (StoredEntry Meta)) :=
  match faults.call .openFile (file.elim (.error ⟨.notFound, "entity not found"⟩) .ok) with
  | .ok content =>
    match loadFooter serde faults content with
    | .ok (info, bodyLen) => .ok (some ⟨content, bodyLen, info⟩)
    | .error (.io error) => if error.kind = .invalidData then .ok none else .error (.io error)
    | .error .underflow => .error .underflow
  | .error (.io error) => if error.kind = .notFound then .ok none else .error (.io error)
  | .error .underflow => .error .underflow

/-- No call fails. -/
def noFaults : Faults := fun _ => none

/-! ## What an entry is -/

/-- The content is an entry: a body, its metadata as JSON, the length of the JSON. -/
def Packed (content body : Bytes) (info : Meta) : Prop :=
  ∃ json, content = body ++ json ++ toBeBytes json.length ∧ json.length ≤ maxMetaLen ∧
    serde.fromSlice json = some info

variable {serde} {content : Bytes} {info : Meta} {n : Nat}

/-! ## Which contents are entries -/

@[simp] theorem halting_ok {α : Type} (a : α) : IoResult.halting (.ok a) = .ok a := rfl

@[simp] theorem halting_error {α : Type} (e : IoError) : IoResult.halting (.error e : IoResult α) = .error (.io e) := rfl

@[simp] theorem Halting.ok_bind {α β : Type} (a : α) (f : α → Halting β) : ((.ok a : Halting α) >>= f) = f a := rfl

@[simp] theorem Halting.error_bind {α β : Type} (e : Halt) (f : α → Halting β) :
    ((.error e : Halting α) >>= f) = .error e := rfl

@[simp] theorem Halting.throw_bind {α β : Type} (e : Halt) (f : α → Halting β) :
    ((throw e : Halting α) >>= f) = .error e := rfl

@[simp] theorem IoResult.error_bind {α β : Type} (e : IoError) (f : α → IoResult β) :
    ((.error e : IoResult α) >>= f) = .error e := rfl

@[simp] theorem IoResult.throw_bind {α β : Type} (e : IoError) (f : α → IoResult β) :
    ((throw e : IoResult α) >>= f) = .error e := rfl

theorem checkedSub_of_le {a b : Nat} (h : b ≤ a) : checkedSub a b = .ok (a - b) := if_pos h

/-- With four bytes to read, neither subtraction of the geometry goes below zero. -/
theorem checkedGeometry_eq {size : Nat} (h : footerLen ≤ size) (footer : Bytes) :
    checkedGeometry size footer = (footerGeometry size footer).halting := by
  unfold checkedGeometry footerGeometry
  by_cases hcap : fromBeBytes footer > maxMetaLen
  · simp [hcap]
  · by_cases hfit : fromBeBytes footer > size - footerLen
    · simp [hcap, hfit, checkedSub_of_le h]
    · simp only [if_neg hcap, if_neg hfit, checkedSub_of_le h, Halting.ok_bind,
        checkedSub_of_le (Nat.le_of_not_lt hfit)]
      rfl

theorem loadFooter_noFaults : loadFooter serde noFaults content = (readFooter serde content).halting := by
  unfold loadFooter readFooter
  simp only [Faults.call, noFaults, halting_ok, Halting.ok_bind]
  by_cases hs : content.length < footerLen
  · simp [hs]
  · have hle : footerLen ≤ content.length := Nat.le_of_not_lt hs
    simp only [if_neg hs, checkedSub_of_le hle, Halting.ok_bind]
    cases readExact content (content.length - footerLen) footerLen with
    | error e => rfl
    | ok footer =>
      simp only [halting_ok, Halting.ok_bind, IoResult.ok_bind, checkedGeometry_eq hle]
      cases footerGeometry content.length footer with
      | error e => rfl
      | ok lens =>
        obtain ⟨bodyLen, metaLen⟩ := lens
        simp only [halting_ok, Halting.ok_bind, IoResult.ok_bind]
        cases readExact content bodyLen metaLen with
        | error e => rfl
        | ok json =>
          simp only [halting_ok, Halting.ok_bind, IoResult.ok_bind]
          cases parseMeta serde json <;> rfl

/-- A content is too short, its length field points outside it, or it is a body, a text and the text's length. -/
theorem content_cases (content : Bytes) : content.length < footerLen ∨
    (∃ front footer, content = front ++ footer ∧ footer.length = footerLen ∧
      (maxMetaLen < fromBeBytes footer ∨ front.length < fromBeBytes footer)) ∨
    ∃ body json, content = body ++ json ++ toBeBytes json.length ∧ json.length ≤ maxMetaLen := by
  by_cases hs : content.length < footerLen
  · exact .inl hs
  · have hle : footerLen ≤ content.length := Nat.le_of_not_lt hs
    obtain ⟨front, footer, rfl, hl⟩ : ∃ front footer, content = front ++ footer ∧ footer.length = footerLen := by
      refine ⟨content.take (content.length - footerLen), content.drop (content.length - footerLen),
        (List.take_append_drop ..).symm, ?_⟩
      rw [List.length_drop]
      omega
    by_cases hbad : maxMetaLen < fromBeBytes footer ∨ front.length < fromBeBytes footer
    · exact .inr (.inl ⟨front, footer, rfl, hl, hbad⟩)
    · push Not at hbad
      refine .inr (.inr ⟨front.take (front.length - fromBeBytes footer), front.drop (front.length - fromBeBytes footer),
        ?_, ?_⟩)
      · have hlen : (front.drop (front.length - fromBeBytes footer)).length = fromBeBytes footer := by
          rw [List.length_drop]
          omega
        rw [hlen, toBeBytes_fromBeBytes hl, List.take_append_drop]
      · rw [List.length_drop]
        omega

theorem readFooter_short (h : content.length < footerLen) : readFooter serde content = .error shortFooterErr := by
  simp [readFooter, h]

/-- A length field beyond the cap or the file is `InvalidData`. -/
theorem readFooter_outside {front footer : Bytes} (hl : footer.length = footerLen)
    (hbad : maxMetaLen < fromBeBytes footer ∨ front.length < fromBeBytes footer) :
    ∃ e, readFooter serde (front ++ footer) = .error e ∧ e.kind = .invalidData := by
  have hs : ¬ (front ++ footer).length < footerLen := by
    rw [List.length_append]
    omega
  have hsub : (front ++ footer).length - footerLen = front.length := by
    rw [List.length_append]
    omega
  have hread : readExact (front ++ footer) front.length footerLen = .ok footer := by
    rw [readExact, if_pos (by rw [List.length_append]; omega), List.drop_left, ← hl, List.take_length]
  obtain ⟨e, he, hk⟩ : ∃ e, footerGeometry (front ++ footer).length footer = .error e ∧ e.kind = .invalidData := by
    by_cases hcap : maxMetaLen < fromBeBytes footer
    · exact ⟨_, if_pos hcap, rfl⟩
    · have hfit : fromBeBytes footer > (front ++ footer).length - footerLen := hsub ▸ hbad.resolve_left hcap
      exact ⟨_, (if_neg hcap).trans (if_pos hfit), rfl⟩
  refine ⟨e, ?_, hk⟩
  simp only [readFooter, if_neg hs, hsub, hread, IoResult.ok_bind, he, IoResult.error_bind]

theorem Packed.readFooter {body : Bytes} (h : Packed serde content body info) :
    readFooter serde content = .ok (info, body.length) := by
  obtain ⟨json, rfl, hm, hp⟩ := h
  simp only [readFooter_packed hm, parseMeta, hp]
  rfl

theorem Packed.take {body : Bytes} (h : Packed serde content body info) :
    readExact content 0 body.length = .ok body := by
  obtain ⟨json, rfl, -, -⟩ := h
  rw [readExact, if_pos (by rw [packed_length]; omega), List.drop_zero, List.append_assoc, List.take_left]

/-- `read_footer` accepts the entries, and everything else is `InvalidData`. -/
theorem readFooter_cases (serde : Serde Meta) (content : Bytes) : (∃ body info, Packed serde content body info) ∨
    (∀ body info, ¬ Packed serde content body info) ∧
      ∃ e, readFooter serde content = .error e ∧ e.kind = .invalidData := by
  have rejected : ∀ {e}, readFooter serde content = .error e → ∀ body info, ¬ Packed serde content body info := by
    intro e he body info hp
    rw [hp.readFooter] at he
    cases he
  obtain hs | ⟨front, footer, rfl, hl, hbad⟩ | ⟨body, json, rfl, hm⟩ := content_cases content
  · exact .inr ⟨rejected (readFooter_short hs), _, readFooter_short hs, rfl⟩
  · obtain ⟨e, he, hk⟩ := readFooter_outside hl hbad
    exact .inr ⟨rejected he, e, he, hk⟩
  · cases hp : serde.fromSlice json with
    | some info => exact .inl ⟨body, info, json, rfl, hm, hp⟩
    | none =>
      have he : readFooter serde (body ++ json ++ toBeBytes json.length) = .error ⟨.invalidData, "invalid metadata"⟩ := by
        simp only [readFooter_packed hm, parseMeta, hp]
        rfl
      exact .inr ⟨rejected he, _, he, rfl⟩

theorem Faults.call_cases {α : Type} (faults : Faults) (c : FileCall) (r : IoResult α) :
    faults.call c r = r.halting ∨ ∃ e, faults c = some e ∧ faults.call c r = .error (.io e) := by
  unfold Faults.call
  cases faults c with
  | none => exact .inl rfl
  | some e => exact .inr ⟨e, rfl, rfl⟩

/-- A faulty call ends the function it is in. -/
theorem Faults.bind_cases {α β : Type} (faults : Faults) (c : FileCall) (r : IoResult α) {f g : α → Halting β}
    (h : ∀ a, r = .ok a → f a = g a ∨ ∃ d e, faults d = some e ∧ f a = .error (.io e)) :
    (faults.call c r >>= f) = (noFaults.call c r >>= g) ∨
      ∃ d e, faults d = some e ∧ (faults.call c r >>= f) = .error (.io e) := by
  obtain hc | ⟨e, he, hc⟩ := faults.call_cases c r
  · rw [hc]
    cases r with
    | error e => exact .inl rfl
    | ok a => exact h a rfl
  · exact .inr ⟨c, e, he, by rw [hc]; rfl⟩

theorem Faults.pure_cases {α β : Type} (faults : Faults) (x : Halting α) {f g : α → Halting β}
    (h : ∀ a, f a = g a ∨ ∃ d e, faults d = some e ∧ f a = .error (.io e)) :
    (x >>= f) = (x >>= g) ∨ ∃ d e, faults d = some e ∧ (x >>= f) = .error (.io e) := by
  cases x with
  | error e => exact .inl rfl
  | ok a => exact h a

/-- A load whose calls may fail ends as one whose calls do not, or with the error of one of them. -/
theorem loadFooter_faults (serde : Serde Meta) (faults : Faults) (content : Bytes) :
    loadFooter serde faults content = loadFooter serde noFaults content ∨
      ∃ c e, faults c = some e ∧ loadFooter serde faults content = .error (.io e) := by
  refine faults.bind_cases _ _ fun size _ => ?_
  by_cases hs : size < footerLen
  · exact .inl (by simp [hs])
  · simp only [if_neg hs]
    refine faults.pure_cases _ fun pos => ?_
    refine faults.bind_cases _ _ fun _ _ => ?_
    refine faults.bind_cases _ _ fun footer _ => ?_
    refine faults.pure_cases _ fun lens => ?_
    refine faults.bind_cases _ _ fun _ _ => ?_
    exact faults.bind_cases _ _ fun json _ => .inl rfl

/-! ## The two directions -/

theorem load_some (content : Bytes) : load serde noFaults (some content) =
    match readFooter serde content with
    | .ok (info, bodyLen) => .ok (some ⟨content, bodyLen, info⟩)
    | .error e => if e.kind = .invalidData then .ok none else .error (.io e) := by
  have hopen : noFaults.call .openFile (.ok content) = .ok content := rfl
  simp only [load, Option.elim_some, hopen, loadFooter_noFaults]
  cases readFooter serde content <;> rfl

/-- What the footer format promises. -/
structure Inverse (serde : Serde Meta) : Prop where
  /-- A writer refuses the metadata it could not read back, and no other. -/
  serialize : ∀ info json, serializeMeta serde info = .ok json ↔
    json = serde.toVec info ∧ json.length ≤ maxMetaLen
  /-- Both writers lay down the body, the JSON and its length. -/
  artifact : ∀ chunks json, Store.written (fetchArtifact chunks json) =
    chunks.flatten ++ json ++ toBeBytes json.length
  metadata : ∀ pieces json, Store.written (storeMetadata pieces json) =
    pieces.flatten ++ json ++ toBeBytes json.length
  /-- What a writer has accepted is read back. -/
  decode : ∀ body info json, serializeMeta serde info = .ok json →
    loadFooter serde noFaults (body ++ json ++ toBeBytes json.length) = .ok (info, body.length) ∧
    ∃ entry, load serde noFaults (some (body ++ json ++ toBeBytes json.length)) = .ok (some entry) ∧
      entry.info = info ∧ entry.bodyLen = body.length ∧ entry.readBody = .ok body
  /-- Any content at all is an entry, and found with that body, or no entry, and none is found. -/
  content : ∀ content,
    (∃ body info entry, Packed serde content body info ∧
      load serde noFaults (some content) = .ok (some entry) ∧
      entry.info = info ∧ entry.bodyLen = body.length ∧ entry.readBody = .ok body) ∨
    (∀ body info, ¬ Packed serde content body info) ∧ load serde noFaults (some content) = .ok none
  /-- A load fails only with an error of the operating system, and never in its arithmetic. -/
  errors : ∀ faults file halt, load serde faults file = .error halt → ∃ c e, faults c = some e ∧ halt = .io e

theorem serializeMeta_ok {json : Bytes} :
    serializeMeta serde info = .ok json ↔ json = serde.toVec info ∧ json.length ≤ maxMetaLen := by
  unfold serializeMeta
  by_cases h : (serde.toVec info).length > maxMetaLen
  · rw [if_pos h]
    refine ⟨by simp, ?_⟩
    rintro ⟨rfl, hle⟩
    omega
  · rw [if_neg h]
    refine ⟨?_, ?_⟩
    · intro he
      cases he
      exact ⟨rfl, Nat.le_of_not_lt h⟩
    · rintro ⟨rfl, -⟩
      rfl

theorem Packed.load {body : Bytes} (h : Packed serde content body info) :
    ∃ entry, load serde noFaults (some content) = .ok (some entry) ∧
      entry.info = info ∧ entry.bodyLen = body.length ∧ entry.readBody = .ok body :=
  ⟨⟨content, body.length, info⟩, by rw [load_some, h.readFooter], rfl, rfl, h.take⟩

theorem load_error {faults : Faults} {file : Option Bytes} {halt : Halt} (h : load serde faults file = .error halt) :
    ∃ c e, faults c = some e ∧ halt = .io e := by
  unfold load at h
  obtain hc | ⟨e, he, hc⟩ := faults.call_cases .openFile (file.elim (.error ⟨.notFound, "entity not found"⟩) .ok)
  · rw [hc] at h
    cases file with
    | none => cases h
    | some content =>
      simp only [Option.elim_some, halting_ok] at h
      obtain hf | ⟨c, e, he, hf⟩ := loadFooter_faults serde faults content
      · rw [hf, loadFooter_noFaults] at h
        obtain ⟨body, info, hp⟩ | ⟨-, e, he, hk⟩ := readFooter_cases serde content
        · rw [hp.readFooter] at h
          cases h
        · rw [he] at h
          simp [hk] at h
      · rw [hf] at h
        refine ⟨c, e, he, ?_⟩
        by_cases hk : e.kind = .invalidData
        · simp [hk] at h
        · simpa [hk] using h.symm
  · rw [hc] at h
    refine ⟨_, e, he, ?_⟩
    by_cases hk : e.kind = .notFound
    · simp [hk] at h
    · simpa [hk] using h.symm

/-- **Decode inverts encode.** -/
theorem decode_inverts_encode (serde : Serde Meta) : Inverse serde where
  serialize _ _ := serializeMeta_ok
  artifact := Store.written_fetchArtifact
  metadata := Store.written_storeMetadata
  decode body info json h := by
    obtain ⟨rfl, hm⟩ := serializeMeta_ok.1 h
    have hp : Packed serde (body ++ serde.toVec info ++ toBeBytes (serde.toVec info).length) body info :=
      ⟨_, rfl, hm, serde.roundTrip info⟩
    refine ⟨?_, hp.load⟩
    rw [loadFooter_noFaults, hp.readFooter, halting_ok]
  content content := by
    obtain ⟨body, info, hp⟩ | ⟨hnone, e, he, hk⟩ := readFooter_cases serde content
    · obtain ⟨entry, hentry⟩ := hp.load
      exact .inl ⟨body, info, entry, hp, hentry⟩
    · refine .inr ⟨hnone, ?_⟩
      rw [load_some, he]
      exact if_pos hk
  errors _ _ _ := load_error

end

/-- Two bytes with JSON metadata `null`, as a publication writes them, and read back. -/
theorem decode_inverts_encode_null : ∃ entry,
    load Store.unitSerde noFaults (some ([9, 9] ++ [110, 117, 108, 108] ++ toBeBytes 4)) = .ok (some entry) ∧
      entry.bodyLen = 2 ∧ entry.readBody = .ok [9, 9] := by
  obtain ⟨-, entry, hload, -, hlen, hread⟩ :=
    (decode_inverts_encode Store.unitSerde).decode [9, 9] () [110, 117, 108, 108] (by decide)
  exact ⟨entry, hload, hlen, hread⟩

end Vampire
