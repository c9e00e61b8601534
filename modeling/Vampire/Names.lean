/-
The names of the cache's files (`cache.rs`): what `paths_for` and
`unique_temp_path` generate, and what `valid_key`, `legacy_key` and
`temp_key` recognise.

A key is sixty-four lowercase hexadecimal digits, so it has no `.`: each
recogniser finds exactly one key in a name, and no name is of two kinds.
-/
import Vampire.Keys
import Vampire.Lib.Affix

namespace Vampire

open Lib

/-! ## The recognisers -/

/-- `valid_hex` -/
def validHex (value : Str) (len : Nat) : Bool :=
  (utf8 value).length = len && (utf8 value).all fun byte => 48 ≤ byte && byte ≤ 57 || 97 ≤ byte && byte ≤ 102

/-- `valid_key` -/
def validKey (key shard : Str) : Bool := validHex key 64 && shard.isPrefixOf key

/-- `legacy_key` -/
def legacyKey (name shard : Str) : Option Str := do
  let key ← stripSuffix name ".json".toList <|> stripSuffix name ".body".toList
  if validKey key shard then some key else none

/-- `temp_key` -/
def tempKey (name shard : Str) : Option Str := do
  let withoutSuffix ← stripSuffix name ".part".toList
  if validKey withoutSuffix shard then some withoutSuffix
  else
    let (key, counter) ← rsplitOnce ".part.".toList withoutSuffix
    if validKey key shard && !counter.isEmpty && (utf8 counter).all (fun byte => 48 ≤ byte && byte ≤ 57) then some key
    else none

/-! ## The generators -/

/-- A component of a path; not every one is a text. -/
inductive OsName
  | text (name : Str)
  | raw (bytes : List UInt8)
  deriving DecidableEq

/-- `OsStr::to_str` -/
def OsName.toStr : OsName → Option Str
  | .text name => some name
  | .raw _ => none

/-- A path below the cache directory. -/
abbrev Path := List OsName

structure CachePaths where
  body : Path
  temp : Path
  deriving DecidableEq

/-- `paths_for` -/
def pathsFor (key : Str) : CachePaths :=
  let dir := [OsName.text (key.take 2)]
  { body := dir ++ [.text key], temp := dir ++ [.text (key ++ ".part".toList)] }

/-- `unique_temp_path`, with what the counter gives. -/
def uniqueTempPath (path : Path) (suffix : Nat) : Path :=
  let name := (path.getLast?.bind OsName.toStr).getD "temp".toList
  path.dropLast ++ [.text (name ++ ".".toList ++ (Nat.repr suffix).toList ++ ".part".toList)]

/-! ## Hexadecimal text -/

/-- A lowercase hexadecimal digit. -/
def LowerHex (c : Char) : Prop := 48 ≤ c.toNat ∧ c.toNat ≤ 57 ∨ 97 ≤ c.toNat ∧ c.toNat ≤ 102

/-- A test of the bytes that only ASCII passes is a test of the characters. -/
theorem utf8_all {p : UInt8 → Bool} (hp : ∀ b, p b = true → b.toNat < 128) (s : Str) :
    (utf8 s).all p = true ↔ ∀ c ∈ s, c.toNat < 128 ∧ p (UInt8.ofNat c.toNat) = true := by
  induction s with
  | nil => simp [utf8]
  | cons c s ih =>
    rw [utf8_cons, List.all_append, Bool.and_eq_true, ih, List.forall_mem_cons]
    refine and_congr_left fun _ => ?_
    by_cases hc : c.toNat < 128
    · simp [utf8EncodeChar_ascii hc, hc]
    · constructor
      · intro hall
        have hne := List.ne_nil_of_length_pos (utf8EncodeChar_length_pos c)
        obtain ⟨b, bs, hbs⟩ := List.exists_cons_of_ne_nil hne
        have hb : b ∈ String.utf8EncodeChar c := hbs ▸ List.mem_cons_self ..
        have := utf8EncodeChar_beyond (Nat.le_of_not_lt hc) b hb
        have := hp b (List.all_eq_true.1 hall b hb)
        omega
      · intro h
        exact absurd h.1 hc

theorem utf8_length {s : Str} (h : ∀ c ∈ s, c.toNat < 128) : (utf8 s).length = s.length := by
  induction s with
  | nil => rfl
  | cons c s ih =>
    rw [List.forall_mem_cons] at h
    rw [utf8_cons, List.length_append, ih h.2, utf8EncodeChar_ascii h.1]
    simp [Nat.add_comm]

theorem validHex_iff {value : Str} {len : Nat} :
    validHex value len = true ↔ value.length = len ∧ ∀ c ∈ value, LowerHex c := by
  have hp (c : Char) (hc : c.toNat < 128) :
      (48 ≤ UInt8.ofNat c.toNat && UInt8.ofNat c.toNat ≤ 57 ||
        97 ≤ UInt8.ofNat c.toNat && UInt8.ofNat c.toNat ≤ 102) = true ↔ LowerHex c := by
    simp only [Bool.or_eq_true, Bool.and_eq_true, decide_eq_true_eq, UInt8.le_iff_toNat_le, UInt8.toNat_ofNat',
      UInt8.reduceToNat, LowerHex, Nat.mod_eq_of_lt (show c.toNat < 2 ^ 8 by omega)]
  have hall := utf8_all (p := fun byte => 48 ≤ byte && byte ≤ 57 || 97 ≤ byte && byte ≤ 102) (by
    intro b hb
    simp only [Bool.or_eq_true, Bool.and_eq_true, decide_eq_true_eq, UInt8.le_iff_toNat_le, UInt8.reduceToNat] at hb
    omega) value
  simp only [validHex, Bool.and_eq_true, decide_eq_true_eq, hall]
  constructor
  · rintro ⟨hlen, h⟩
    exact ⟨(utf8_length fun c hc => (h c hc).1).symm.trans hlen, fun c hc => (hp c (h c hc).1).1 (h c hc).2⟩
  · rintro ⟨hlen, h⟩
    have hlt : ∀ c ∈ value, c.toNat < 128 := fun c hc => by
      rcases h c hc with h | h <;> omega
    exact ⟨(utf8_length hlt).trans hlen, fun c hc => ⟨hlt c hc, (hp c (hlt c hc)).2 (h c hc)⟩⟩

theorem validKey_iff {key shard : Str} :
    validKey key shard = true ↔ key.length = 64 ∧ (∀ c ∈ key, LowerHex c) ∧ shard <+: key := by
  rw [validKey, Bool.and_eq_true, validHex_iff, List.isPrefixOf_iff_prefix, and_assoc]

/-- A text longer than a key is none. -/
theorem not_validKey_of_length {name shard : Str} (h : name.length ≠ 64) : ¬ validKey name shard = true :=
  fun hv => h (validKey_iff.1 hv).1

/-- `byte.is_ascii_digit()` for every byte. -/
theorem digits_iff {s : Str} :
    (utf8 s).all (fun byte => 48 ≤ byte && byte ≤ 57) = true ↔ ∀ c ∈ s, 48 ≤ c.toNat ∧ c.toNat ≤ 57 := by
  have hp : ∀ b : UInt8, (48 ≤ b && b ≤ 57) = true → b.toNat < 128 := by
    intro b hb
    simp only [Bool.and_eq_true, decide_eq_true_eq, UInt8.le_iff_toNat_le, UInt8.reduceToNat] at hb
    omega
  rw [utf8_all hp]
  refine forall₂_congr fun c _ => ?_
  simp only [Bool.and_eq_true, decide_eq_true_eq, UInt8.le_iff_toNat_le, UInt8.toNat_ofNat', UInt8.reduceToNat]
  constructor
  · rintro ⟨hlt, h⟩
    rwa [Nat.mod_eq_of_lt (show c.toNat < 2 ^ 8 by omega)] at h
  · intro h
    rw [Nat.mod_eq_of_lt (show c.toNat < 2 ^ 8 by omega)]
    exact ⟨by omega, h⟩

/-! ## What each recogniser finds -/

theorem legacyKey_iff {name shard key : Str} :
    legacyKey name shard = some key ↔
      validKey key shard = true ∧ (name = key ++ ".json".toList ∨ name = key ++ ".body".toList) := by
  have hfound (front : Str) : (stripSuffix name ".json".toList <|> stripSuffix name ".body".toList) = some front ↔
      name = front ++ ".json".toList ∨ name = front ++ ".body".toList := by
    cases hj : stripSuffix name ".json".toList with
    | some front' =>
      -- The two suffixes are of one length, so the other one is not there.
      have hb : stripSuffix name ".body".toList = none :=
        stripSuffix_eq_some.1 hj ▸ stripSuffix_none (by simp) (by simp)
      simp only [Option.orElse_eq_orElse, Option.orElse_some, ← stripSuffix_eq_some, hj, hb, reduceCtorEq, or_false]
    | none => simp only [Option.orElse_eq_orElse, Option.orElse_none, ← stripSuffix_eq_some, hj, reduceCtorEq, false_or]
  simp only [legacyKey, Option.bind_eq_bind, Option.bind_eq_some_iff, Option.ite_none_right_eq_some, Option.some.injEq,
    hfound]
  constructor
  · rintro ⟨front, hf, hv, rfl⟩
    exact ⟨hv, hf⟩
  · rintro ⟨hv, hname⟩
    exact ⟨key, hname, hv, rfl⟩

/-- The last `.part.` of a counted name is the one before the counter. -/
theorem rsplitOnce_counter {counter : Str} (h : ∀ c ∈ counter, 48 ≤ c.toNat ∧ c.toNat ≤ 57) (key : Str) :
    rsplitOnce ".part.".toList (key ++ ".part.".toList ++ counter) = some (key, counter) := by
  have hdot : counter.count '.' = 0 := by
    rw [List.count_eq_zero]
    intro hm
    have := h _ hm
    simp only [show '.'.toNat = 46 from rfl] at this
    omega
  have hself : rsplitOnce ".part.".toList (".part.".toList ++ counter) = some ([], counter) := by
    refine rsplitOnce_self (c := '.') "part.".toList ?_
    intro front tail he
    have := congrArg (List.count '.') he
    simp [List.count_append, hdot] at this
    omega
  simpa using rsplitOnce_append hself key

/-- A temp name of a key: the artifact's, or a counted one of metadata. -/
def TempName (key name : Str) : Prop :=
  name = key ++ ".part".toList ∨
    ∃ counter, counter ≠ [] ∧ (∀ c ∈ counter, 48 ≤ c.toNat ∧ c.toNat ≤ 57) ∧
      name = key ++ ".part.".toList ++ counter ++ ".part".toList

theorem tempKey_iff {name shard key : Str} :
    tempKey name shard = some key ↔ validKey key shard = true ∧ TempName key name := by
  simp only [tempKey, Option.bind_eq_bind, Option.bind_eq_some_iff]
  constructor
  · rintro ⟨w, hw, h⟩
    have hname := stripSuffix_eq_some.1 hw
    split at h
    next hv =>
      cases h
      exact ⟨hv, .inl hname⟩
    next =>
      obtain ⟨⟨front, counter⟩, hsplit, h⟩ := Option.bind_eq_some_iff.1 h
      simp only [Option.ite_none_right_eq_some, Bool.and_eq_true, Option.some.injEq, digits_iff, Bool.not_eq_true',
        List.isEmpty_eq_false_iff] at h
      obtain ⟨⟨⟨hv, hne⟩, hdigits⟩, rfl⟩ := h
      refine ⟨hv, .inr ⟨counter, hne, hdigits, ?_⟩⟩
      rw [hname, rsplitOnce_some hsplit]
  · rintro ⟨hv, rfl | ⟨counter, hne, hdigits, rfl⟩⟩
    · exact ⟨key, stripSuffix_eq_some.2 rfl, by rw [if_pos hv]⟩
    · refine ⟨key ++ ".part.".toList ++ counter, stripSuffix_eq_some.2 rfl, ?_⟩
      have hlong : ¬ validKey (key ++ ".part.".toList ++ counter) shard = true := by
        refine not_validKey_of_length ?_
        have := (validKey_iff.1 hv).1
        simp only [List.length_append, this, String.length_toList]
        show 64 + 6 + counter.length ≠ 64
        omega
      rw [if_neg hlong, rsplitOnce_counter hdigits, Option.bind_some]
      simp [hv, hne, digits_iff.2 hdigits]

/-! ## No name is of two kinds -/

theorem tempKey_eq_none_of_validKey {name shard : Str} (h : validKey name shard = true) : tempKey name shard = none := by
  rw [Option.eq_none_iff_forall_ne_some]
  intro key hk
  have hlen := (validKey_iff.1 h).1
  obtain ⟨hv, ht⟩ := tempKey_iff.1 hk
  have hkey := (validKey_iff.1 hv).1
  rcases ht with rfl | ⟨counter, -, -, rfl⟩
  · simp [hkey] at hlen
  · simp [hkey] at hlen

theorem legacyKey_eq_none_of_validKey {name shard : Str} (h : validKey name shard = true) :
    legacyKey name shard = none := by
  rw [Option.eq_none_iff_forall_ne_some]
  intro key hk
  have hlen := (validKey_iff.1 h).1
  obtain ⟨hv, rfl | rfl⟩ := legacyKey_iff.1 hk <;> simp [(validKey_iff.1 hv).1] at hlen

theorem legacyKey_eq_none_of_tempKey {name shard key : Str} (h : tempKey name shard = some key) :
    legacyKey name shard = none := by
  have hpart : ∃ front, name = front ++ ".part".toList := by
    rcases (tempKey_iff.1 h).2 with rfl | ⟨counter, -, -, rfl⟩
    · exact ⟨_, rfl⟩
    · exact ⟨_, rfl⟩
  obtain ⟨front, rfl⟩ := hpart
  rw [Option.eq_none_iff_forall_ne_some]
  intro key' hk
  rcases (legacyKey_iff.1 hk).2 with he | he
  · have hsuffix := (List.append_inj' he (by simp)).2
    simp at hsuffix
  · have hsuffix := (List.append_inj' he (by simp)).2
    simp at hsuffix

/-! ## What is generated is recognised -/

theorem validKey_take {key : Str} (hlen : key.length = 64) (hhex : ∀ c ∈ key, LowerHex c) :
    validKey key (key.take 2) = true :=
  validKey_iff.2 ⟨hlen, hhex, List.take_prefix ..⟩

theorem repr_digits (n : Nat) : ∀ c ∈ (Nat.repr n).toList, 48 ≤ c.toNat ∧ c.toNat ≤ 57 := by
  intro c hc
  rw [Nat.toList_repr] at hc
  have hd := Nat.isDigit_of_mem_toDigits (by decide) (by decide) hc
  simp only [Char.isDigit, Bool.and_eq_true, decide_eq_true_eq, ge_iff_le, UInt32.le_iff_toNat_le] at hd
  exact hd

theorem repr_ne_nil (n : Nat) : (Nat.repr n).toList ≠ [] := by
  rw [Nat.toList_repr]
  exact Nat.toDigits_ne_nil

/-- The path of `<key>.part`. -/
theorem pathsFor_temp (key : Str) :
    (pathsFor key).temp = [.text (key.take 2), .text (key ++ ".part".toList)] := rfl

theorem pathsFor_body (key : Str) : (pathsFor key).body = [.text (key.take 2), .text key] := rfl

/-- The path of `<key>.part.<suffix>.part`. -/
theorem uniqueTempPath_temp (key : Str) (suffix : Nat) :
    uniqueTempPath (pathsFor key).temp suffix =
      [.text (key.take 2), .text (key ++ ".part.".toList ++ (Nat.repr suffix).toList ++ ".part".toList)] := by
  simp [uniqueTempPath, pathsFor, OsName.toStr]

theorem tempName_part (key : Str) : TempName key (key ++ ".part".toList) := .inl rfl

theorem tempName_counted (key : Str) (suffix : Nat) :
    TempName key (key ++ ".part.".toList ++ (Nat.repr suffix).toList ++ ".part".toList) :=
  .inr ⟨_, repr_ne_nil suffix, repr_digits suffix, rfl⟩

/-- The names of a key that are its temp names are neither entries nor legacy files. -/
theorem TempName.recognised {key name shard : Str} (h : TempName key name) (hv : validKey key shard = true) :
    tempKey name shard = some key ∧ legacyKey name shard = none ∧ validKey name shard = false := by
  have ht := tempKey_iff.2 ⟨hv, h⟩
  refine ⟨ht, legacyKey_eq_none_of_tempKey ht, ?_⟩
  rw [Bool.eq_false_iff]
  intro hn
  rw [tempKey_eq_none_of_validKey hn] at ht
  cases ht

/-! ## The keys of the cache -/

theorem lowerHexDigit_lowerHex : ∀ n < 16, LowerHex (lowerHexDigit n) := by
  unfold LowerHex
  decide

theorem hexEncode_lowerHex {bytes : List UInt8} : ∀ c ∈ hexEncode bytes, LowerHex c := by
  intro c hc
  obtain ⟨b, -, hb⟩ := List.mem_flatMap.1 hc
  have hlt : b.toNat < 256 := b.toNat_lt
  rcases List.mem_pair.1 hb with rfl | rfl
  · exact lowerHexDigit_lowerHex _ (by omega)
  · exact lowerHexDigit_lowerHex _ (by omega)

theorem hexEncode_length (bytes : List UInt8) : (hexEncode bytes).length = 2 * bytes.length := by
  simp [hexEncode, List.length_flatMap, Nat.mul_comm]

/-- `hash_key` gives a key of its own shard, a digest being thirty-two bytes. -/
theorem validKey_hashKey {sha256 : List UInt8 → List UInt8} (hlen : ∀ bytes, (sha256 bytes).length = 32)
    (cls upstream : Str) (representation : Option Str) :
    validKey (hashKey sha256 cls upstream representation)
      ((hashKey sha256 cls upstream representation).take 2) = true :=
  validKey_take (by rw [hashKey, hexEncode_length, hlen]) hexEncode_lowerHex

end Vampire
