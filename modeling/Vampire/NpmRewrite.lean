/-
`rewrite_npm_json` (`routes.rs`): the objects on the way to a tarball link are
printed again, member by member, around the raw texts of everything else.

What each writer puts out is a text (`objectText`), and what that text denotes
is the old value with the links replaced (`editObject`). Both are proved for
one object level and put together for the levels there are.
-/
import Vampire.Html
import Vampire.Lib.Json

namespace Vampire

open Lib

/-! ## The source's functions -/

/-- A function that writes to the buffer. -/
abbrev Write := LimitedOutput → Except RewriteError LimitedOutput

/-- `write_json` of a value that is printed as `text`. A write that fails fails the
whole, so one stands for the pieces it is made in. -/
def writeJson (text : Str) : Write := fun output => output.extend (utf8 text)

/-- `from_str::<BTreeMap<String, &RawValue>>`: an error when a key is no valid string. -/
def fieldsOf (raw : Str) : Option (List (Str × Str)) :=
  (Json.objectOf raw).bind fun ms =>
    if ms.all fun m => (Json.chars m.key).isSome then
      some (sortedMap (ms.map fun m => ((Json.chars m.key).getD [], m.raw)))
    else none

/-- `from_str::<String>` -/
def stringField (raw : Str) : Option Str := (Json.stringOf raw).bind Json.chars

/-- The loop over an object's fields. -/
def writeFields (write : Str → Str → Write) : Nat → List (Str × Str) → Write
  | _, [], output => .ok output
  | index, (key, value) :: fields, output => do
    let output ← if index > 0 then writeJson [','] output else .ok output
    let output ← writeJson (Json.printString key) output
    let output ← writeJson [':'] output
    let output ← write key value output
    writeFields write (index + 1) fields output

/-- An object with its values written by `write`; anything else as it is. -/
def writeObject (write : Str → Str → Write) (value : Str) : Write := fun output =>
  match fieldsOf value with
  | none => writeJson value output
  | some fields => do
    let output ← writeJson ['\x7b'] output
    let output ← writeFields write 0 fields output
    writeJson ['\x7d'] output

section
variable (crate : UrlCrate) (upstreams : RegistryOrigins) (origin : Str)

/-- The link in a `tarball` field, rewritten. -/
def rewrittenTarball (key value : Str) : Option Str :=
  if key = "tarball".toList then (stringField value).bind (rewriteNpmTarball crate upstreams origin) else none

/-- `write_npm_dist` -/
def writeNpmDist : Str → Write := writeObject fun key value =>
  match rewrittenTarball crate upstreams origin key value with
  | some rewritten => writeJson (Json.printString rewritten)
  | none => writeJson value

/-- `write_npm_package`; `rewrite_versions` is what is done with the field `versions`. -/
def writeNpmPackage (writeVersions : Str → Write) : Str → Write := writeObject fun key value =>
  if key = "dist".toList then writeNpmDist crate upstreams origin value
  else if key = "versions".toList then writeVersions value
  else writeJson value

/-- `write_npm_versions` -/
def writeNpmVersions : Str → Write := writeObject fun _ => writeNpmPackage crate upstreams origin writeJson

/-- `rewrite_npm_json` -/
def rewriteNpmJson (body : List UInt8) (maxLen : Nat) : Except RewriteError (List UInt8) :=
  match (fromUtf8 body).bind Json.text with
  | none => .error .json
  | some (value, _) => do
    let output ← writeNpmPackage crate upstreams origin (writeNpmVersions crate upstreams origin) value
      (LimitedOutput.new (min maxLen maxMetadataBodyLen))
    .ok output.bytes

end

/-! ## What is written -/

/-- The writer puts out one text, or fails when the text does not fit. -/
def Puts (write : Write) (text : Str) : Prop :=
  ∀ output, output.bytes.length ≤ output.maxLen → write output = output.extendAll [utf8 text]

theorem puts_writeJson (text : Str) : Puts (writeJson text) text := by
  intro output _
  show _ = (output.extend (utf8 text)).bind Except.ok
  cases h : output.extend (utf8 text) <;> simp [writeJson, h, Except.bind]

theorem Puts.eq {write : Write} {text : Str} (h : Puts write text) {output : LimitedOutput}
    (hfit : output.bytes.length ≤ output.maxLen) :
    write output = if output.bytes.length + (utf8 text).length ≤ output.maxLen then
      .ok { output with bytes := output.bytes ++ utf8 text } else .error .outputLimit := by
  rw [h output hfit, LimitedOutput.extendAll_eq output hfit]
  simp

theorem Puts.bind {write write' : Write} {text text' : Str} (h : Puts write text) (h' : Puts write' text') :
    Puts (fun output => (write output).bind write') (text ++ text') := by
  intro output hfit
  show (write output).bind write' = _
  rw [h.eq hfit, LimitedOutput.extendAll_eq output hfit]
  by_cases hw : output.bytes.length + (utf8 text).length ≤ output.maxLen
  · rw [if_pos hw, Except.bind, h'.eq (by simpa using hw)]
    simp [utf8_append, Nat.add_assoc]
  · rw [if_neg hw, Except.bind, if_neg]
    simp only [List.flatten_cons, List.flatten_nil, List.append_nil, utf8_append, List.length_append]
    omega

/-- An object's fields as they are printed. -/
def fieldsText (fields : List (Str × Str)) : Str :=
  [','].intercalate (fields.map fun f => Json.printString f.1 ++ ':' :: f.2)

/-- An object with its values edited; anything else as it is. -/
def objectText (edit : Str → Str → Str) (value : Str) : Str :=
  match fieldsOf value with
  | none => value
  | some fields => '\x7b' :: (fieldsText (fields.map fun f => (f.1, edit f.1 f.2)) ++ ['\x7d'])

theorem puts_ok : Puts (fun output => .ok output) [] := by
  intro output hfit
  rw [LimitedOutput.extendAll_eq output hfit]
  simp [utf8, hfit]

theorem intercalate_flatMap (a : Str) (rest : List Str) :
    [','].intercalate (a :: rest) = a ++ rest.flatMap fun p => ',' :: p := by
  induction rest generalizing a with
  | nil => simp
  | cons b rest ih => rw [List.intercalate_cons_of_ne_nil (by simp), ih, List.flatMap_cons]; simp

section
variable {write : Str → Str → Write} {edit : Str → Str → Str} (h : ∀ key value, Puts (write key value) (edit key value))
include h

/-- One round of the loop, with what comes before the field. -/
theorem puts_field {before : Write} {sep : Str} (hb : Puts before sep) (index : Nat) (key value : Str)
    (fields : List (Str × Str)) {rest : Str} (hrest : Puts (writeFields write (index + 1) fields) rest) :
    Puts (fun output => do
      let output ← before output
      let output ← writeJson (Json.printString key) output
      let output ← writeJson [':'] output
      let output ← write key value output
      writeFields write (index + 1) fields output) (sep ++ (Json.printString key ++ ':' :: edit key value) ++ rest) := by
  have := hb.bind ((puts_writeJson (Json.printString key)).bind ((puts_writeJson [':']).bind ((h key value).bind hrest)))
  simp only [List.append_assoc, List.cons_append, List.nil_append] at this ⊢
  exact this

theorem puts_fields_succ (index : Nat) (fields : List (Str × Str)) :
    Puts (writeFields write (index + 1) fields)
      (fields.flatMap fun f => ',' :: (Json.printString f.1 ++ ':' :: edit f.1 f.2)) := by
  induction fields generalizing index with
  | nil => exact puts_ok
  | cons f fields ih => exact puts_field h (puts_writeJson [',']) (index + 1) f.1 f.2 fields (ih (index + 1))

theorem puts_fields (fields : List (Str × Str)) :
    Puts (writeFields write 0 fields) (fieldsText (fields.map fun f => (f.1, edit f.1 f.2))) := by
  cases fields with
  | nil => exact puts_ok
  | cons f fields =>
    have := puts_field h puts_ok 0 f.1 f.2 fields (puts_fields_succ h 0 fields)
    rw [fieldsText, List.map_map, List.map_cons, intercalate_flatMap, List.flatMap_map]
    exact this

/-- An object is put out as its text. -/
theorem puts_object (value : Str) : Puts (writeObject write value) (objectText edit value) := by
  intro output hfit
  rw [writeObject, objectText]
  split
  · exact puts_writeJson value output hfit
  · next fields _ =>
    exact ((puts_writeJson ['\x7b']).bind ((puts_fields h fields).bind (puts_writeJson ['\x7d']))) output hfit

end

/-! ## What the texts denote -/

/-- The string of a text of valid Unicode. -/
def codes (s : Str) : List Nat := s.map Char.toNat

theorem codes_injective : Function.Injective codes := by
  intro s t h
  have hs : Json.chars (codes s) = some s := Json.chars_eq_some.2 rfl
  have ht : Json.chars (codes t) = some t := Json.chars_eq_some.2 rfl
  rw [h, ht] at hs
  exact (Option.some.inj hs).symm

/-- An object's keys are valid strings; its values are as `ok` says. -/
def ValidFields (ok : Str → Json → Prop) (v : Json) : Prop :=
  ∀ f, v = .obj f → ∀ k v', f k = some v' → ∃ key, k = codes key ∧ ok key v'

theorem validFields_ofMembers {ok : Str → Json → Prop} {ms : List Json.Member}
    (h : ∀ m ∈ ms, ∃ key, m.key = codes key ∧ ok key m.value) : ValidFields ok (Json.ofMembers ms) := by
  rintro f hf k v hk
  cases hf
  obtain ⟨m, hm, he⟩ := List.mem_map.1 (lastWins_mem hk)
  cases he
  exact h m hm

/-- An object with its values edited; any other value as it is. -/
def editObject (edit : List Nat → Json → Json) : Json → Json
  | .obj f => .obj fun k => (f k).map (edit k)
  | v => v

/-- The text of an object's member. -/
def memberRaw (raw : Str) (k : List Nat) : Option Str :=
  (Json.objectOf raw).bind fun ms => lastWins (ms.map fun m => (m.key, m.raw)) k

/-- The fields of a text and the members of its value. -/
structure Fields (raw : Str) (f : List Nat → Option Json) (fields : List (Str × Str)) : Prop where
  nodup : (fields.map (·.1)).Nodup
  lookup : ∀ key, lastWins fields key = memberRaw raw (codes key)
  valid : ∀ {k r}, memberRaw raw k = some r → ∃ key, k = codes key
  mem : ∀ {key value}, (key, value) ∈ fields → ∃ v, Json.Denotes value v ∧ f (codes key) = some v
  all : ∀ {k v}, f k = some v → ∃ key value, k = codes key ∧ (key, value) ∈ fields

theorem fieldsOf_obj {raw : Str} {f : List Nat → Option Json} (h : Json.Denotes raw (.obj f))
    (hvalid : ∀ k v, f k = some v → ∃ key, k = codes key) : ∃ fields, fieldsOf raw = some fields ∧ Fields raw f fields := by
  cases ho : Json.objectOf raw with
  | none => exact absurd rfl (Json.objectOf_none h ho f)
  | some ms =>
    obtain ⟨heq, hok, -⟩ := Json.objectOf_some h ho
    -- the last member of each key, of which both the text and the value are looked up
    let last := lastWins (ms.map fun m => (m.key, m))
    have hvalue : ∀ k, f k = (last k).map fun m => m.value := by
      intro k
      rw [Json.obj.inj heq, ← lastWins_map (fun _ (m : Json.Member) => m.value), List.map_map]
      rfl
    have hkeys : ∀ m ∈ ms, Json.chars m.key = some ((Json.chars m.key).getD []) := by
      intro m hm
      have hsome : last m.key ≠ none := by
        rw [ne_eq, lastWins_eq_none, List.map_map]
        exact fun hn => hn (List.mem_map.2 ⟨m, hm, rfl⟩)
      obtain ⟨m', hm'⟩ := Option.ne_none_iff_exists'.1 hsome
      obtain ⟨key, hkey⟩ := hvalid m.key m'.value (by rw [hvalue, hm']; rfl)
      rw [Json.chars_eq_some.2 hkey]
      rfl
    have hraw : ∀ k, memberRaw raw k = (last k).map fun m => m.raw := by
      intro k
      rw [memberRaw, ho, Option.bind_some, ← lastWins_map (fun _ (m : Json.Member) => m.raw), List.map_map]
      rfl
    have hentries : ∀ key, lastWins (ms.map fun m => ((Json.chars m.key).getD [], m.raw)) key =
        (last (codes key)).map fun m => m.raw := by
      intro key
      rw [← lastWins_map (fun _ (m : Json.Member) => m.raw), ← lastWins_map_key codes_injective, List.map_map, List.map_map]
      congr 1
      refine List.map_congr_left fun m hm => ?_
      show (codes _, m.raw) = (m.key, m.raw)
      rw [codes, ← Json.chars_eq_some.1 (hkeys m hm)]
    obtain ⟨hsorted, hlast⟩ := sortedMap_spec (ms.map fun m => ((Json.chars m.key).getD [], m.raw))
    have hall : (ms.all fun m => (Json.chars m.key).isSome) = true :=
      List.all_eq_true.2 fun m hm => by rw [hkeys m hm]; rfl
    refine ⟨_, by rw [fieldsOf, ho, Option.bind_some, if_pos hall], hsorted.nodup, ?_, ?_, ?_, ?_⟩
    · exact fun key => by rw [hlast, hentries, hraw]
    · intro k r hk
      rw [hraw] at hk
      obtain ⟨m, hm, -⟩ := Option.map_eq_some_iff.1 hk
      exact hvalid k m.value (by rw [hvalue, hm]; rfl)
    · intro key value hfield
      have hl := lastWins_of_mem hsorted.nodup hfield
      rw [hlast, hentries] at hl
      obtain ⟨m, hm, rfl⟩ := Option.map_eq_some_iff.1 hl
      obtain ⟨m', hm', he⟩ := List.mem_map.1 (lastWins_mem hm)
      obtain rfl : m' = m := (Prod.ext_iff.1 he).2
      exact ⟨m'.value, (hok m' hm').value, by rw [hvalue, hm]; rfl⟩
    · intro k v hk
      obtain ⟨key, rfl⟩ := hvalid k v hk
      rw [hvalue] at hk
      obtain ⟨m, hm, -⟩ := Option.map_eq_some_iff.1 hk
      refine ⟨key, m.raw, rfl, lastWins_mem ?_⟩
      rw [hlast, hentries, hm]
      rfl

theorem fieldsOf_none {raw : Str} {v : Json} (h : Json.Denotes raw v) (hv : ∀ f, v ≠ .obj f) : fieldsOf raw = none := by
  rw [fieldsOf, Option.bind_eq_none_iff]
  intro ms hms
  exact absurd (Json.objectOf_some h hms).1 (hv _)

/-- The fields of a text by the keys of its value. -/
theorem Fields.lookup_codes {raw : Str} {f : List Nat → Option Json} {fields : List (Str × Str)} (h : Fields raw f fields)
    (k : List Nat) : lastWins (fields.map fun e => (codes e.1, e.2)) k = memberRaw raw k := by
  by_cases hk : ∃ key, k = codes key
  · obtain ⟨key, rfl⟩ := hk
    rw [lastWins_map_key codes_injective, h.lookup]
  · have hnone : memberRaw raw k = none := Option.eq_none_iff_forall_ne_some.2 fun r hr => hk (h.valid hr)
    rw [hnone, lastWins_eq_none, List.map_map, List.mem_map]
    rintro ⟨e, -, rfl⟩
    exact hk ⟨e.1, rfl⟩

theorem Fields.isSome {raw : Str} {f : List Nat → Option Json} {fields : List (Str × Str)} (h : Fields raw f fields)
    (k : List Nat) : memberRaw raw k = none ↔ f k = none := by
  constructor
  · intro hk
    refine Option.eq_none_iff_forall_ne_some.2 fun v hv => ?_
    obtain ⟨key, value, rfl, hmem⟩ := h.all hv
    rw [← h.lookup, lastWins_of_mem h.nodup hmem] at hk
    cases hk
  · intro hk
    refine Option.eq_none_iff_forall_ne_some.2 fun r hr => ?_
    obtain ⟨key, rfl⟩ := h.valid hr
    rw [← h.lookup] at hr
    obtain ⟨v, -, hv⟩ := h.mem (lastWins_mem hr)
    rw [hk] at hv
    cases hv

/-- What an edit makes of a text's value. -/
def Edits (edit : Str → Str) (rewrite : Json → Json) (ok : Json → Prop) : Prop :=
  ∀ ⦃raw v⦄, Json.Denotes raw v → ok v → Json.Denotes (edit raw) (rewrite v)

theorem fieldsText_compact (fields : List (Str × Str)) (value : Str × Str → Json) :
    fieldsText fields ++ ['\x7d'] = Json.compact (fields.map fun f => Json.printed f.1 f.2 (value f)) := by
  rw [Json.compact, List.map_map, fieldsText]
  rfl

/-- The members of an edited object. -/
theorem edited_members {edit : Str → Str → Str} {rewrite : List Nat → Json → Json} {ok : Str → Json → Prop}
    (h : ∀ key, Edits (edit key) (rewrite (codes key)) (ok key)) {raw : Str} {f : List Nat → Option Json}
    (hd : Json.Denotes raw (.obj f)) (hvalid : ValidFields ok (.obj f)) :
    ∃ fields ms, Fields raw f fields ∧ objectText edit raw = '\x7b' :: Json.compact ms ∧ (∀ m ∈ ms, m.Ok) ∧
      ms.map (fun m => (m.key, m.raw)) = fields.map (fun e => (codes e.1, edit e.1 e.2)) ∧
      ms.map (fun m => (m.key, some m.value)) = fields.map fun e => (codes e.1, (f (codes e.1)).map (rewrite (codes e.1))) := by
  obtain ⟨fields, hfields, hspec⟩ := fieldsOf_obj hd fun k v hk => (hvalid f rfl k v hk).imp fun _ h => h.1
  let value (e : Str × Str) : Json := ((f (codes e.1)).map (rewrite (codes e.1))).getD .null
  have hmember : ∀ e ∈ fields, ∃ v, f (codes e.1) = some v ∧ Json.Denotes (edit e.1 e.2) (rewrite (codes e.1) v) := by
    intro e he
    obtain ⟨v, hv, hf⟩ := hspec.mem he
    obtain ⟨key, hkey, hok⟩ := hvalid f rfl _ _ hf
    rw [← codes_injective hkey] at hok
    exact ⟨v, hf, h e.1 hv hok⟩
  refine ⟨fields, (fields.map fun e => (e.1, edit e.1 e.2)).map fun e => Json.printed e.1 e.2 (value e), hspec, ?_, ?_,
    ?_, ?_⟩
  · rw [objectText, hfields, ← fieldsText_compact]
  · intro m hm
    rw [List.map_map, List.mem_map] at hm
    obtain ⟨e, he, rfl⟩ := hm
    obtain ⟨v, hf, hd⟩ := hmember e he
    refine Json.printed_ok ?_
    show Json.Denotes (edit e.1 e.2) (((f (codes e.1)).map (rewrite (codes e.1))).getD .null)
    rw [hf]
    exact hd
  · rw [List.map_map, List.map_map]
    rfl
  · rw [List.map_map, List.map_map]
    refine List.map_congr_left fun e he => ?_
    obtain ⟨v, hf, -⟩ := hmember e he
    show (codes e.1, some (((f (codes e.1)).map (rewrite (codes e.1))).getD .null)) = _
    rw [hf]
    rfl

/-- Editing an object's values edits the members of what it denotes. -/
theorem edits_object {edit : Str → Str → Str} {rewrite : List Nat → Json → Json} {ok : Str → Json → Prop}
    (h : ∀ key, Edits (edit key) (rewrite (codes key)) (ok key)) :
    Edits (objectText edit) (editObject rewrite) (ValidFields ok) := by
  intro raw v hd hvalid
  by_cases hobj : ∃ f, v = .obj f
  · obtain ⟨f, rfl⟩ := hobj
    obtain ⟨fields, ms, hspec, htext, hok, -, hvalues⟩ := edited_members h hd hvalid
    have hfinal : (fun k => (f k).map (rewrite k)) = lastWins (ms.map fun m => (m.key, m.value)) := by
      funext k
      have hsome : (lastWins (ms.map fun m => (m.key, m.value)) k).map some =
          (memberRaw raw k).map fun _ => (f k).map (rewrite k) := by
        rw [← lastWins_map (fun _ v => some v), List.map_map, ← hspec.lookup_codes,
          ← lastWins_map (fun k _ => (f k).map (rewrite k)), List.map_map]
        exact congrArg (lastWins · k) hvalues
      cases hk : f k with
      | none =>
        rw [(hspec.isSome k).2 hk, Option.map_none, Option.map_eq_none_iff] at hsome
        exact hsome.symm
      | some v =>
        obtain ⟨r, hr⟩ := Option.ne_none_iff_exists'.1 fun hn => Option.some_ne_none v (hk ▸ (hspec.isSome k).1 hn)
        rw [hr, hk, Option.map_some] at hsome
        obtain ⟨v', hv', he⟩ := Option.map_eq_some_iff.1 hsome
        rw [hv', ← he]
    rw [htext, editObject, hfinal]
    exact (Json.denotes_compact hok).1
  · have hne : ∀ f, v ≠ .obj f := fun f he => hobj ⟨f, he⟩
    rw [objectText, fieldsOf_none hd hne]
    cases v with
    | obj f => exact absurd rfl (hne f)
    | _ => exact hd

/-! ## What stays as it is, byte for byte -/

/-- The text at the end of a path of keys. -/
def rawAt : Str → List (List Nat) → Option Str
  | raw, [] => some raw
  | raw, k :: path => (memberRaw raw k).bind fun r => rawAt r path

/-- The path leads, in an object whose fields are edited, to a text that is kept. -/
def keptIn (kept : Str → Str → List (List Nat) → Prop) (raw : Str) : List (List Nat) → Prop
  | [] => Json.objectOf raw = none
  | k :: path => ∀ key r, k = codes key → memberRaw raw k = some r → kept key r path

/-- The paths an edit keeps the texts of. -/
def Keeps (edit : Str → Str) (kept : Str → List (List Nat) → Prop) (ok : Json → Prop) : Prop :=
  ∀ ⦃raw v⦄ path, Json.Denotes raw v → ok v → kept raw path → rawAt (edit raw) path = rawAt raw path

theorem fieldsOf_objectOf_none {raw : Str} (h : Json.objectOf raw = none) : fieldsOf raw = none := by
  rw [fieldsOf, h]
  rfl

/-- The members of an edited object are the edited members. -/
theorem member_object {edit : Str → Str → Str} {rewrite : List Nat → Json → Json} {ok : Str → Json → Prop}
    (h : ∀ key, Edits (edit key) (rewrite (codes key)) (ok key)) {raw : Str} {v : Json} (hd : Json.Denotes raw v)
    (hvalid : ValidFields ok v) (k : List Nat) :
    (∃ key, k = codes key ∧ memberRaw (objectText edit raw) k = (memberRaw raw k).map (edit key) ∧
      ∀ r, memberRaw raw k = some r → ∃ v, Json.Denotes r v ∧ ok key v) ∨
    memberRaw raw k = none ∧ memberRaw (objectText edit raw) k = none := by
  by_cases hobj : ∃ f, v = .obj f
  · obtain ⟨f, rfl⟩ := hobj
    obtain ⟨fields, ms, hspec, htext, hok, hraws, -⟩ := edited_members h hd hvalid
    have hout : memberRaw (objectText edit raw) k = lastWins (fields.map fun e => (codes e.1, edit e.1 e.2)) k := by
      rw [htext, memberRaw, (Json.denotes_compact hok).2, Option.bind_some, hraws]
    by_cases hk : ∃ key, k = codes key
    · obtain ⟨key, rfl⟩ := hk
      refine .inl ⟨key, rfl, ?_, fun r hr => ?_⟩
      · rw [hout, ← hspec.lookup, ← lastWins_map edit, ← lastWins_map_key codes_injective, List.map_map]
        rfl
      · rw [← hspec.lookup] at hr
        obtain ⟨v, hv, hf⟩ := hspec.mem (lastWins_mem hr)
        obtain ⟨key', hkey, hok⟩ := hvalid f rfl _ _ hf
        exact ⟨v, hv, codes_injective hkey ▸ hok⟩
    · refine .inr ⟨Option.eq_none_iff_forall_ne_some.2 fun r hr => hk (hspec.valid hr), ?_⟩
      rw [hout, lastWins_eq_none, List.map_map, List.mem_map]
      rintro ⟨e, -, rfl⟩
      exact hk ⟨e.1, rfl⟩
  · have hnone : Json.objectOf raw = none := Option.eq_none_iff_forall_ne_some.2 fun ms hms =>
      hobj ⟨_, (Json.objectOf_some hd hms).1⟩
    refine .inr ?_
    rw [objectText, fieldsOf_objectOf_none hnone, memberRaw, hnone]
    exact ⟨rfl, rfl⟩

theorem keeps_object {edit : Str → Str → Str} {rewrite : List Nat → Json → Json} {ok : Str → Json → Prop}
    {kept : Str → Str → List (List Nat) → Prop} (h : ∀ key, Edits (edit key) (rewrite (codes key)) (ok key))
    (hkept : ∀ key, Keeps (edit key) (kept key) (ok key)) :
    Keeps (objectText edit) (keptIn kept) (ValidFields ok) := by
  intro raw v path hd hvalid hk
  cases path with
  | nil =>
    rw [objectText, fieldsOf_objectOf_none hk]
  | cons k path =>
    rw [rawAt, rawAt]
    rcases member_object h hd hvalid k with ⟨key, hkey, hout, hmem⟩ | ⟨hraw, hout⟩
    · rw [hout]
      cases hr : memberRaw raw k with
      | none => rfl
      | some r =>
        obtain ⟨v', hv', hok⟩ := hmem r hr
        exact hkept key path hv' hok (hk key r hkey hr)
    · rw [hraw, hout]

/-! ## The levels of a package document -/

section
variable (crate : UrlCrate) (upstreams : RegistryOrigins) (origin : Str)

/-- What `write_npm_dist` puts out. -/
def distText : Str → Str := objectText fun key value =>
  ((rewrittenTarball crate upstreams origin key value).map Json.printString).getD value

/-- What `write_npm_package` puts out. -/
def packageText (versionsText : Str → Str) : Str → Str := objectText fun key value =>
  if key = "dist".toList then distText crate upstreams origin value
  else if key = "versions".toList then versionsText value
  else value

/-- What `write_npm_versions` puts out. -/
def versionsText : Str → Str := objectText fun _ => packageText crate upstreams origin id

theorem puts_dist (value : Str) : Puts (writeNpmDist crate upstreams origin value) (distText crate upstreams origin value) := by
  refine puts_object (fun key value => ?_) value
  cases rewrittenTarball crate upstreams origin key value <;> exact puts_writeJson _

theorem puts_package {write : Str → Write} {text : Str → Str} (h : ∀ value, Puts (write value) (text value)) (value : Str) :
    Puts (writeNpmPackage crate upstreams origin write value) (packageText crate upstreams origin text value) := by
  refine puts_object (fun key value => ?_) value
  split
  · exact puts_dist crate upstreams origin value
  · split
    · exact h value
    · exact puts_writeJson value

theorem puts_versions (value : Str) :
    Puts (writeNpmVersions crate upstreams origin value) (versionsText crate upstreams origin value) :=
  puts_object (fun _ => puts_package crate upstreams origin puts_writeJson) value

/-- The document with every link rewritten, as text. -/
def npmText : Str → Str := packageText crate upstreams origin (versionsText crate upstreams origin)

theorem rewriteNpmJson_eq {input raw : Str} {v : Json} (h : Json.text input = some (raw, v)) (maxLen : Nat) :
    rewriteNpmJson crate upstreams origin (utf8 input) maxLen =
      if (utf8 (npmText crate upstreams origin raw)).length ≤ min maxLen maxMetadataBodyLen then
        .ok (utf8 (npmText crate upstreams origin raw))
      else .error .outputLimit := by
  have hputs : Puts (writeNpmPackage crate upstreams origin (writeNpmVersions crate upstreams origin) raw)
      (npmText crate upstreams origin raw) := puts_package crate upstreams origin (puts_versions crate upstreams origin) raw
  have hfit : (LimitedOutput.new (min maxLen maxMetadataBodyLen)).bytes.length ≤
      (LimitedOutput.new (min maxLen maxMetadataBodyLen)).maxLen := Nat.zero_le _
  have hrun := hputs.eq hfit
  simp only [LimitedOutput.new, List.length_nil, Nat.zero_add, List.nil_append] at hrun
  simp only [rewriteNpmJson, fromUtf8_utf8, Option.bind_some, h, LimitedOutput.new, hrun]
  split <;> rfl

/-! ## What the document means afterwards -/

/-- A link in place of the link it is rewritten from. -/
def tarballValue (v : Json) : Json :=
  (((Json.asString v).bind Json.chars).bind (rewriteNpmTarball crate upstreams origin)).elim v fun r => .str (codes r)

def distField (k : List Nat) (v : Json) : Json :=
  if k = codes "tarball".toList then tarballValue crate upstreams origin v else v

/-- The field `tarball` of an object rewritten. -/
def distValue : Json → Json := editObject (distField crate upstreams origin)

def packageField (versions : Json → Json) (k : List Nat) (v : Json) : Json :=
  if k = codes "dist".toList then distValue crate upstreams origin v
  else if k = codes "versions".toList then versions v
  else v

/-- The field `dist`, and what there is to do with the field `versions`. -/
def packageValue (versions : Json → Json) : Json → Json := editObject (packageField crate upstreams origin versions)

def versionField (_ : List Nat) : Json → Json := packageValue crate upstreams origin id

/-- The document with the link of its `dist` and of every version's `dist` rewritten. -/
def npmValue : Json → Json := packageValue crate upstreams origin (editObject (versionField crate upstreams origin))

end

/-- The keys of a `dist` object are valid strings. -/
def ValidDist : Json → Prop := ValidFields fun _ _ => True

/-- Those of a package's or a version's object, and of its `dist`. -/
def ValidPackage (versions : Json → Prop) : Json → Prop := ValidFields fun key v =>
  (key = "dist".toList → ValidDist v) ∧ (key = "versions".toList → versions v)

/-- Those of a document, its versions and each version. -/
def ValidKeys : Json → Prop := ValidPackage (ValidFields fun _ => ValidPackage fun _ => True)

section
variable {crate : UrlCrate} {upstreams : RegistryOrigins} {origin : Str}

theorem edits_tarball (key : Str) : Edits
    (fun value => ((rewrittenTarball crate upstreams origin key value).map Json.printString).getD value)
    (distField crate upstreams origin (codes key)) (fun _ => True) := by
  intro raw v hd _
  unfold distField
  beta_reduce
  by_cases hkey : key = "tarball".toList
  · rw [hkey, if_pos rfl, rewrittenTarball, if_pos rfl, stringField, Json.stringOf_eq hd, tarballValue]
    cases ((Json.asString v).bind Json.chars).bind (rewriteNpmTarball crate upstreams origin) with
    | none => exact hd
    | some r => exact Json.denotes_print r
  · rw [if_neg fun he => hkey (codes_injective he), rewrittenTarball, if_neg hkey]
    exact hd

theorem edits_dist : Edits (distText crate upstreams origin) (distValue crate upstreams origin) ValidDist :=
  edits_object edits_tarball

theorem edits_field {text : Str → Str} {value : Json → Json} {ok : Json → Prop} (h : Edits text value ok) (key : Str) :
    Edits (fun raw => if key = "dist".toList then distText crate upstreams origin raw
        else if key = "versions".toList then text raw else raw)
      (packageField crate upstreams origin value (codes key))
      (fun v => (key = "dist".toList → ValidDist v) ∧ (key = "versions".toList → ok v)) := by
  intro raw v hd hok
  unfold packageField
  beta_reduce
  by_cases hdist : key = "dist".toList
  · rw [hdist, if_pos rfl, if_pos rfl]
    exact edits_dist hd (hok.1 hdist)
  · rw [if_neg hdist, if_neg fun he => hdist (codes_injective he)]
    by_cases hversions : key = "versions".toList
    · rw [hversions, if_pos rfl, if_pos rfl]
      exact h hd (hok.2 hversions)
    · rw [if_neg hversions, if_neg fun he => hversions (codes_injective he)]
      exact hd

theorem edits_package {text : Str → Str} {value : Json → Json} {ok : Json → Prop} (h : Edits text value ok) :
    Edits (packageText crate upstreams origin text) (packageValue crate upstreams origin value) (ValidPackage ok) :=
  edits_object (edits_field h)

theorem edits_id {ok : Json → Prop} : Edits id id ok := fun _ _ hd _ => hd

theorem edits_version (key : Str) : Edits (packageText crate upstreams origin id)
    (versionField crate upstreams origin (codes key)) (ValidPackage fun _ => True) := edits_package edits_id

theorem edits_npm : Edits (npmText crate upstreams origin) (npmValue crate upstreams origin) ValidKeys :=
  edits_package (edits_object edits_version)

/-! ### Kept texts -/

/-- A text in a `dist` object is kept unless it is that of a link that is rewritten. -/
def keptField (crate : UrlCrate) (upstreams : RegistryOrigins) (origin key r : Str) (path : List (List Nat)) : Prop :=
  path = [] → rewrittenTarball crate upstreams origin key r = none

def keptDist (crate : UrlCrate) (upstreams : RegistryOrigins) (origin : Str) : Str → List (List Nat) → Prop :=
  keptIn (keptField crate upstreams origin)

def keptPackage (crate : UrlCrate) (upstreams : RegistryOrigins) (origin : Str) (versions : Str → List (List Nat) → Prop) :
    Str → List (List Nat) → Prop := keptIn fun key r path =>
  (key = "dist".toList → keptDist crate upstreams origin r path) ∧ (key = "versions".toList → versions r path)

theorem rawAt_string {raw : Str} {v : Json} {s : List Nat} (h : Json.Denotes raw v) (hs : Json.asString v = some s)
    (k : List Nat) (path : List (List Nat)) : rawAt raw (k :: path) = none := by
  have hnone : Json.objectOf raw = none := by
    refine Option.eq_none_iff_forall_ne_some.2 fun ms hms => ?_
    rw [(Json.objectOf_some h hms).1] at hs
    cases hs
  rw [rawAt, memberRaw, hnone]
  rfl

theorem keeps_tarball (key : Str) : Keeps
    (fun value => ((rewrittenTarball crate upstreams origin key value).map Json.printString).getD value)
    (keptField crate upstreams origin key) (fun _ => True) := by
  intro raw v path hd _ hk
  beta_reduce
  cases hr : rewrittenTarball crate upstreams origin key raw with
  | none => rfl
  | some r =>
    cases path with
    | nil =>
      rw [hk rfl] at hr
      cases hr
    | cons k path =>
      unfold rewrittenTarball at hr
      split at hr
      · obtain ⟨s, hs, -⟩ := Option.bind_eq_some_iff.1 hr
        obtain ⟨t, ht, -⟩ := Option.bind_eq_some_iff.1 hs
        rw [Json.stringOf_eq hd] at ht
        rw [rawAt_string hd ht]
        exact rawAt_string (Json.denotes_print r) rfl k path
      · cases hr

theorem keeps_dist : Keeps (distText crate upstreams origin) (keptDist crate upstreams origin) ValidDist :=
  keeps_object edits_tarball keeps_tarball

theorem keeps_package {text : Str → Str} {value : Json → Json} {ok : Json → Prop} {kept : Str → List (List Nat) → Prop}
    (h : Edits text value ok) (hk : Keeps text kept ok) :
    Keeps (packageText crate upstreams origin text) (keptPackage crate upstreams origin kept) (ValidPackage ok) := by
  refine keeps_object (edits_field h) fun key => ?_
  intro raw v path hd hok hkept
  beta_reduce
  by_cases hdist : key = "dist".toList
  · rw [if_pos hdist]
    exact keeps_dist path hd (hok.1 hdist) (hkept.1 hdist)
  · rw [if_neg hdist]
    by_cases hversions : key = "versions".toList
    · rw [if_pos hversions]
      exact hk path hd (hok.2 hversions) (hkept.2 hversions)
    · rw [if_neg hversions]

/-- A path's text is kept in a document: it is no object on the way to a link, and no link that is rewritten. -/
def keptNpm (crate : UrlCrate) (upstreams : RegistryOrigins) (origin : Str) : Str → List (List Nat) → Prop :=
  keptPackage crate upstreams origin (keptIn fun _ => keptPackage crate upstreams origin fun _ _ => True)

theorem keeps_npm : Keeps (npmText crate upstreams origin) (keptNpm crate upstreams origin) ValidKeys :=
  keeps_package (edits_object edits_version)
    (keeps_object edits_version fun _ => keeps_package edits_id fun _ _ _ _ _ _ => rfl)

/-- **npm documents.** A JSON text is rewritten into a JSON text of the same
value but for its links, or fails because that text does not fit; every text in
it that is no object on the way to a link and no rewritten link is kept. -/
theorem npm_rewrite (origin : Str) {input raw : Str} {v : Json} (h : Json.text input = some (raw, v))
    (hkeys : ValidKeys v) (maxLen : Nat) :
    ∃ out, Json.text out = some (out, npmValue crate upstreams origin v) ∧
      (∀ path, keptNpm crate upstreams origin raw path → rawAt out path = rawAt raw path) ∧
      rewriteNpmJson crate upstreams origin (utf8 input) maxLen =
        if (utf8 out).length ≤ min maxLen maxMetadataBodyLen then .ok (utf8 out) else .error .outputLimit := by
  have hd := Json.text_denotes h
  refine ⟨npmText crate upstreams origin raw, (edits_npm hd hkeys).text, fun path => keeps_npm path hd hkeys, ?_⟩
  exact rewriteNpmJson_eq crate upstreams origin h maxLen

/-! ## A document with two links -/

/-- A name that is written twice, a link at the root and one in a version. -/
def twoLinks : Str :=
  ("\x7b\"name\":\"a\",\"dist\":\x7b\"tarball\":\"https://registry.npmjs.org/a/-/a.tgz\"\x7d,\"name\":\"b\"," ++
    "\"versions\":\x7b\"1.0\":\x7b\"dist\":\x7b\"tarball\":\"https://registry.npmjs.org/a/-/a.tgz\"\x7d\x7d\x7d\x7d").toList

def textMember (key text : Str) : Json.Member := Json.printed key (Json.printString text) (.str (codes text))

def objectMember (key : Str) (members : List Json.Member) : Json.Member :=
  Json.printed key ('\x7b' :: Json.compact members) (Json.ofMembers members)

def linkMembers : List Json.Member := [textMember "tarball".toList "https://registry.npmjs.org/a/-/a.tgz".toList]

def versionMembers : List Json.Member := [objectMember "dist".toList linkMembers]

def documentMembers : List Json.Member :=
  [textMember "name".toList "a".toList, objectMember "dist".toList linkMembers, textMember "name".toList "b".toList,
    objectMember "versions".toList [objectMember "1.0".toList versionMembers]]

theorem textMember_ok (key text : Str) : (textMember key text).Ok := Json.printed_ok (Json.denotes_print _)

theorem objectMember_ok {key : Str} {members : List Json.Member} (h : ∀ m ∈ members, m.Ok) :
    (objectMember key members).Ok := Json.printed_ok (Json.denotes_compact h).1

theorem linkMembers_ok : ∀ m ∈ linkMembers, m.Ok := by
  simp only [linkMembers, List.forall_mem_singleton]
  exact textMember_ok _ _

theorem versionMembers_ok : ∀ m ∈ versionMembers, m.Ok := by
  simp only [versionMembers, List.forall_mem_singleton]
  exact objectMember_ok linkMembers_ok

theorem documentMembers_ok : ∀ m ∈ documentMembers, m.Ok := by
  have hversions : ∀ m ∈ [objectMember "1.0".toList versionMembers], m.Ok := by
    simp only [List.forall_mem_singleton]
    exact objectMember_ok versionMembers_ok
  simp only [documentMembers, List.forall_mem_cons]
  exact ⟨textMember_ok _ _, objectMember_ok linkMembers_ok, textMember_ok _ _, objectMember_ok hversions,
    fun m hm => by cases hm⟩

theorem validDist_links : ValidDist (Json.ofMembers linkMembers) := by
  refine validFields_ofMembers fun m hm => ?_
  rw [linkMembers, List.mem_singleton] at hm
  exact ⟨"tarball".toList, by rw [hm]; rfl, trivial⟩

theorem validKeys_document : ValidKeys (Json.ofMembers documentMembers) := by
  have hversion : ValidPackage (fun _ => True) (Json.ofMembers versionMembers) := by
    refine validFields_ofMembers fun m hm => ?_
    rw [versionMembers, List.mem_singleton] at hm
    subst hm
    exact ⟨"dist".toList, rfl, fun _ => validDist_links, fun _ => trivial⟩
  have hversions : ValidFields (fun _ => ValidPackage fun _ => True)
      (Json.ofMembers [objectMember "1.0".toList versionMembers]) := by
    refine validFields_ofMembers fun m hm => ?_
    rw [List.mem_singleton] at hm
    subst hm
    exact ⟨"1.0".toList, rfl, hversion⟩
  refine validFields_ofMembers fun m hm => ?_
  simp only [documentMembers, List.mem_cons, List.not_mem_nil, or_false] at hm
  rcases hm with rfl | rfl | rfl | rfl
  · exact ⟨"name".toList, rfl, fun he => absurd he (by decide), fun he => absurd he (by decide)⟩
  · exact ⟨"dist".toList, rfl, fun _ => validDist_links, fun he => absurd he (by decide)⟩
  · exact ⟨"name".toList, rfl, fun he => absurd he (by decide), fun he => absurd he (by decide)⟩
  · exact ⟨"versions".toList, rfl, fun he => absurd he (by decide), fun _ => hversions⟩

/-- Both links are rewritten, and the second name is the value's. -/
theorem npm_rewrite_dist : ∃ v, Json.text twoLinks = some (twoLinks, v) ∧
    ∃ out, Json.text out = some (out, npmValue plainUrls .default "http://localhost".toList v) ∧
      (∀ path, keptNpm plainUrls .default "http://localhost".toList twoLinks path → rawAt out path = rawAt twoLinks path) ∧
      rewriteNpmJson plainUrls .default "http://localhost".toList (utf8 twoLinks) 1000 =
        if (utf8 out).length ≤ min 1000 maxMetadataBodyLen then .ok (utf8 out) else .error .outputLimit := by
  have hinput : '\x7b' :: Json.compact documentMembers = twoLinks := by decide +kernel
  have htext := (Json.denotes_compact documentMembers_ok).1.text
  rw [hinput] at htext
  exact ⟨_, htext, npm_rewrite "http://localhost".toList htext validKeys_document 1000⟩

end

end Vampire
