/-
Canonical paths as a normal form (`canonical_path` and
`canonical_rewrite_path` of `routes.rs`): the validator accepts what the
rewriter leaves alone, and the rewriter returns only that.

Both sides go by segments of bytes that `canonical_segment`'s loop accepts.
In such a segment an escape is in upper case and stands for a byte that is
neither unreserved nor a separator, so nothing in it can be rewritten and
nothing new appears when it is decoded.
-/
import Vampire.Canonical

namespace Vampire

open Lib

/-- Escapes of unreserved characters decoded, the digits of the other escapes
in upper case; what is no escape stays. -/
def normalEscapes : Str → Str
  | [] => []
  | '%' :: hi :: lo :: rest =>
    match hexValue hi, hexValue lo with
    | some h, some l =>
      let decoded := Char.ofNat (h * 16 + l)
      (if unreserved decoded then [decoded] else ['%', hexDigit h, hexDigit l]) ++ normalEscapes rest
    | _, _ => '%' :: normalEscapes (hi :: lo :: rest)
  | c :: rest => c :: normalEscapes rest

/-- A segment of a canonical path, once decoded: no separator of a URL and no dot segment. -/
structure DecodedSegment (bytes : List UInt8) : Prop where
  not_dot : bytes ≠ utf8 ".".toList
  not_dots : bytes ≠ utf8 "..".toList
  chars : ∀ c ∈ ['/', '\\', '?', '#'], UInt8.ofNat c.toNat ∉ bytes

/-- Canonical paths are a normal form that both functions share. -/
structure SharedNormalForm : Prop where
  /-- The validator accepts the fixed points of the rewriter. -/
  fixed : ∀ p, canonicalPath p = true ↔ canonicalRewritePath ('/' :: p) = some p
  /-- The rewriter keeps the bytes and returns a fixed point. -/
  rewritten : ∀ x y, canonicalRewritePath x = some y →
    (∃ rest, x = '/' :: rest ∧ percentDecode y = percentDecode rest) ∧ canonicalPath y = true ∧
      canonicalRewritePath ('/' :: y) = some y
  /-- One canonical spelling for each path. -/
  unique : ∀ p q, canonicalPath p = true → canonicalPath q = true → normalEscapes p = normalEscapes q → p = q
  /-- Only a last segment, behind a slash, may be empty. -/
  segment : ∀ p, canonicalPath p = true → ∀ before segment after, p.splitOn '/' = before ++ segment :: after →
    DecodedSegment (percentDecode segment) ∧ (percentDecode segment = [] → before ≠ [] ∧ after = [])

/-! ## What the scan of a segment accepts -/

/-- A digit that is not in lower case is the digit of its value. -/
theorem hexDigit_hexValue {c : Char} {n : Nat} (h : hexValue c = some n) (hc : ('a' ≤ c && c ≤ 'f') = false) :
    hexDigit n = c := by
  have ha : 'a'.toNat = 97 := rfl
  have hf : 'f'.toNat = 102 := rfl
  have hlower : ¬ (97 ≤ c.toNat ∧ c.toNat ≤ 102) := by
    rw [← ha, ← hf, ← char_le_iff, ← char_le_iff, ← decide_eq_true_eq (p := 'a' ≤ c), ← decide_eq_true_eq (p := c ≤ 'f'),
      ← Bool.and_eq_true, hc]
    exact Bool.false_ne_true
  unfold hexDigit
  rcases hexValue_range h with ⟨h1, h2, rfl⟩ | ⟨h1, h2, -⟩ | ⟨h1, h2, rfl⟩
  · rw [if_pos (by omega), show 48 + (c.toNat - 48) = c.toNat by omega, Char.ofNat_toNat]
  · exact absurd ⟨h1, h2⟩ hlower
  · rw [if_neg (by omega), show 55 + (c.toNat - 55) = c.toNat by omega, Char.ofNat_toNat]

/-- The scan of a segment, case by case: an escape in upper case of a byte it does not refuse, or a plain character. -/
inductive Scanned : Str → Prop
  | nil : Scanned []
  | escape {h l rest} : h < 16 → l < 16 → escapeRefused (h * 16 + l) = false → Scanned rest →
      Scanned ('%' :: hexDigit h :: hexDigit l :: rest)
  | char {c rest} : c ≠ '%' → plainChar c = true → c ≠ '/' → Scanned rest → Scanned (c :: rest)

theorem scanned_of_canonicalBytes {s : Str} (h : canonicalBytes s = true) : Scanned s := by
  fun_induction canonicalBytes s with
  | case1 => exact .nil
  | case2 hi lo rest high low hlo hhi ih =>
    simp only [Bool.and_eq_true, Bool.not_eq_true'] at h
    rw [← hexDigit_hexValue hhi h.1.1.1, ← hexDigit_hexValue hlo h.1.1.2]
    exact .escape (hexValue_lt hhi) (hexValue_lt hlo) h.1.2 (ih h.2)
  | case3 => cases h
  | case4 c rest _ ih =>
    simp only [Bool.and_eq_true, decide_eq_true_eq] at h
    exact .char h.1.1.1 h.1.1.2 h.1.2 (ih h.2)

theorem Scanned.refused {n : Nat} (h : escapeRefused n = false) :
    unreserved (Char.ofNat n) = false ∧ ∀ c ∈ ['/', '\\', '?', '#'], Char.ofNat n ≠ c := by
  simp only [escapeRefused, Bool.or_eq_false_iff, decide_eq_false_iff_not] at h
  refine ⟨h.1.1.1.1, ?_⟩
  simp only [List.forall_mem_cons, List.not_mem_nil, false_implies, implies_true, and_true]
  exact ⟨h.1.1.1.2, h.1.1.2, h.1.2, h.2⟩

/-! ## Neither function changes a canonical path -/

theorem rewriteBytes_cons {c : Char} (hc : c ≠ '%') (rest : Str) : rewriteBytes (c :: rest) =
    (rewriteBytes rest).map ((String.utf8EncodeChar c).map (fun b => Char.ofNat b.toNat) ++ ·) := by
  rw [rewriteBytes]
  simpa using hc

theorem rewriteBytes_plain {c : Char} (hc : c ≠ '%') (hp : plainChar c = true) (rest : Str) :
    rewriteBytes (c :: rest) = (rewriteBytes rest).map (c :: ·) := by
  have hlt : c.toNat < 128 := by
    have := plainChar_iff.1 hp
    omega
  rw [rewriteBytes_cons hc, utf8EncodeChar_ascii hlt]
  simp [Nat.mod_eq_of_lt (show c.toNat < 256 by omega), Char.ofNat_toNat]

theorem rewriteBytes_escape {h l : Nat} (hh : h < 16) (hl : l < 16) (hr : escapeRefused (h * 16 + l) = false)
    (rest : Str) : rewriteBytes ('%' :: hexDigit h :: hexDigit l :: rest) =
      (rewriteBytes rest).map (['%', hexDigit h, hexDigit l] ++ ·) := by
  rw [rewriteBytes]
  simp only [hexValue_hexDigit hh, hexValue_hexDigit hl, (Scanned.refused hr).1]
  rfl

theorem Scanned.rewriteBytes {s : Str} (h : Scanned s) (rest : Str) :
    rewriteBytes (s ++ rest) = (Vampire.rewriteBytes rest).map (s ++ ·) := by
  induction h with
  | nil => simp
  | escape hh hl hr _ ih =>
    simp only [List.cons_append]
    rw [rewriteBytes_escape hh hl hr, ih, Option.map_map]
    rfl
  | char hc hp _ _ ih =>
    rw [List.cons_append, rewriteBytes_plain hc hp, ih, Option.map_map]
    rfl

theorem normalEscapes_cons {c : Char} (hc : c ≠ '%') (rest : Str) :
    normalEscapes (c :: rest) = c :: normalEscapes rest := by
  rw [normalEscapes]
  exact fun _ _ _ h => absurd h hc

theorem Scanned.normalEscapes {s : Str} (h : Scanned s) (rest : Str) :
    normalEscapes (s ++ rest) = s ++ Vampire.normalEscapes rest := by
  induction h with
  | nil => rfl
  | escape hh hl hr _ ih =>
    simp only [List.cons_append]
    rw [Vampire.normalEscapes]
    simp only [hexValue_hexDigit hh, hexValue_hexDigit hl, (Scanned.refused hr).1, ih]
    rfl
  | char hc _ _ _ ih => rw [List.cons_append, List.cons_append, normalEscapes_cons hc, ih]

/-- The segments of a canonical path. -/
theorem scanned_of_canonicalPath {p : Str} (h : canonicalPath p = true) : ∀ segment ∈ p.splitOn '/', Scanned segment := by
  rw [canonicalPath, Bool.and_eq_true] at h
  intro segment hs
  rcases canonicalSegments_forall h.2 segment hs with rfl | hc
  · exact .nil
  · exact scanned_of_canonicalBytes (canonicalSegment_bytes hc)

theorem rewriteBytes_intercalate {segments : List Str} (h : ∀ s ∈ segments, Scanned s) :
    rewriteBytes (['/'].intercalate segments) = some (['/'].intercalate segments) := by
  induction segments with
  | nil => rfl
  | cons s segments ih =>
    rw [List.forall_mem_cons] at h
    by_cases hne : segments = []
    · subst hne
      have := h.1.rewriteBytes []
      simpa [rewriteBytes] using this
    · rw [List.intercalate_cons_of_ne_nil hne, List.append_assoc, h.1.rewriteBytes, List.singleton_append,
        rewriteBytes_plain (by decide) (by decide), ih h.2]
      rfl

theorem normalEscapes_intercalate {segments : List Str} (h : ∀ s ∈ segments, Scanned s) :
    normalEscapes (['/'].intercalate segments) = ['/'].intercalate segments := by
  induction segments with
  | nil => rfl
  | cons s segments ih =>
    rw [List.forall_mem_cons] at h
    by_cases hne : segments = []
    · subst hne
      have := h.1.normalEscapes []
      simpa [normalEscapes] using this
    · rw [List.intercalate_cons_of_ne_nil hne, List.append_assoc, h.1.normalEscapes, List.singleton_append,
        normalEscapes_cons (by decide), ih h.2]

theorem rewriteBytes_canonical {p : Str} (h : canonicalPath p = true) : rewriteBytes p = some p := by
  have hrun := rewriteBytes_intercalate (scanned_of_canonicalPath h)
  rwa [List.intercalate_splitOn] at hrun

theorem normalEscapes_canonical {p : Str} (h : canonicalPath p = true) : normalEscapes p = p := by
  have hrun := normalEscapes_intercalate (scanned_of_canonicalPath h)
  rwa [List.intercalate_splitOn] at hrun

/-- **The validator accepts the rewriter's fixed points.** -/
theorem canonicalPath_iff_fixed {p : Str} : canonicalPath p = true ↔ canonicalRewritePath ('/' :: p) = some p := by
  rw [canonicalRewritePath, Option.filter_eq_some_iff]
  exact ⟨fun h => ⟨rewriteBytes_canonical h, h⟩, fun h => h.2⟩

/-! ## Decoded segments -/

theorem utf8EncodeChar_plain {c : Char} (h : plainChar c = true) : String.utf8EncodeChar c = [UInt8.ofNat c.toNat] := by
  have := plainChar_iff.1 h
  exact utf8EncodeChar_ascii (by omega)

/-- A byte of an escape, as the character it is compared with. -/
theorem byte_ne {n : Nat} (hn : n < 256) {c : Char} (hc : c.toNat < 256) (h : Char.ofNat n ≠ c) :
    UInt8.ofNat n ≠ UInt8.ofNat c.toNat := by
  intro he
  have hval := congrArg UInt8.toNat he
  rw [UInt8.toNat_ofNat', UInt8.toNat_ofNat', Nat.mod_eq_of_lt hn, Nat.mod_eq_of_lt hc] at hval
  exact h (by rw [hval, Char.ofNat_toNat])

theorem Scanned.decoded_chars {s : Str} (h : Scanned s) :
    ∀ c ∈ ['/', '\\', '?', '#'], UInt8.ofNat c.toNat ∉ percentDecode s := by
  intro c hc
  have hlt : c.toNat < 128 := by
    simp only [List.mem_cons, List.not_mem_nil, or_false] at hc
    rcases hc with rfl | rfl | rfl | rfl <;> decide
  induction h with
  | nil => simp [percentDecode]
  | @escape h l rest hh hl hr _ ih =>
    rw [percentDecode_escape (hexValue_hexDigit hh) (hexValue_hexDigit hl), List.mem_cons, not_or]
    exact ⟨(byte_ne (by omega) (by omega) ((Scanned.refused hr).2 c hc)).symm, ih⟩
  | @char d rest hd hp hslash _ ih =>
    have hplain := plainChar_iff.1 hp
    rw [percentDecode_cons hd, utf8EncodeChar_plain hp, List.singleton_append, List.mem_cons, not_or]
    refine ⟨(byte_ne (by omega) (by omega) ?_).symm, ih⟩
    rw [Char.ofNat_toNat]
    simp only [List.mem_cons, List.not_mem_nil, or_false] at hc
    rcases hc with rfl | rfl | rfl | rfl
    · exact hslash
    · exact char_ne_iff.2 hplain.2.2.2.2
    · exact char_ne_iff.2 hplain.2.2.1
    · exact char_ne_iff.2 hplain.2.2.2.1

/-- Text of unreserved characters comes of nothing but itself. -/
theorem Scanned.decoded_unreserved {s : Str} (h : Scanned s) : ∀ {t : Str}, (∀ c ∈ t, unreserved c = true) →
    percentDecode s = utf8 t → s = t := by
  induction h with
  | nil =>
    intro t _ he
    cases t with
    | nil => rfl
    | cons c t =>
      have hne := utf8EncodeChar_length_pos c
      have := congrArg List.length he
      simp only [percentDecode, utf8, List.flatMap_cons, List.length_append, List.length_nil] at this
      omega
  | @escape h l rest hh hl hr _ ih =>
    intro t ht he
    rw [percentDecode_escape (hexValue_hexDigit hh) (hexValue_hexDigit hl)] at he
    cases t with
    | nil => cases he
    | cons c t =>
      have hu := ht c List.mem_cons_self
      have hplain := plainChar_iff.1 (unreserved_plain hu).1
      simp only [utf8, List.flatMap_cons, utf8EncodeChar_plain (unreserved_plain hu).1, List.singleton_append,
        List.cons.injEq] at he
      refine absurd he.1 (byte_ne (by omega) (by omega) ?_)
      rintro rfl
      simp [(Scanned.refused hr).1] at hu
  | @char d rest hd hp _ _ ih =>
    intro t ht he
    rw [percentDecode_cons hd, utf8EncodeChar_plain hp] at he
    cases t with
    | nil => cases he
    | cons c t =>
      have hu := ht c List.mem_cons_self
      have hc := plainChar_iff.1 (unreserved_plain hu).1
      have hd' := plainChar_iff.1 hp
      simp only [utf8, List.flatMap_cons, utf8EncodeChar_plain (unreserved_plain hu).1, List.singleton_append,
        List.cons.injEq] at he
      have hcd : d = c := by
        by_contra hne
        exact byte_ne (n := d.toNat) (by omega) (by omega) (by rwa [Char.ofNat_toNat]) he.1
      rw [hcd, ih (fun e hmem => ht e (List.mem_cons_of_mem _ hmem)) he.2]

/-- A segment that the loop of `canonical_path` accepts, and where. -/
theorem canonicalSegments_split {segments before after : List Str} {segment : Str}
    (h : canonicalSegments segments = true) (hs : segments = before ++ segment :: after) :
    segment = [] ∧ after = [] ∨ canonicalSegment segment = true := by
  induction before generalizing segments with
  | nil =>
    rw [hs, List.nil_append, canonicalSegments] at h
    split at h
    · next he => exact .inl ⟨List.isEmpty_iff.1 he, List.isEmpty_iff.1 h⟩
    · exact .inr (Bool.and_eq_true_iff.1 h).1
  | cons s before ih =>
    rw [hs, List.cons_append, canonicalSegments] at h
    split at h
    · rw [List.isEmpty_iff] at h
      simp at h
    · exact ih (Bool.and_eq_true_iff.1 h).2 rfl

theorem canonicalSegment_decoded {s : Str} (h : canonicalSegment s = true) :
    DecodedSegment (percentDecode s) ∧ percentDecode s ≠ [] := by
  have hs := scanned_of_canonicalBytes (canonicalSegment_bytes h)
  simp only [canonicalSegment, Bool.and_eq_true, Bool.not_eq_true', Bool.or_eq_false_iff, decide_eq_false_iff_not,
    List.isEmpty_eq_false_iff] at h
  obtain ⟨⟨⟨hne, hdot⟩, hdots⟩, -⟩ := h.1
  refine ⟨⟨fun he => hdot ?_, fun he => hdots ?_, hs.decoded_chars⟩, fun he => hne ?_⟩
  · exact hs.decoded_unreserved (t := ".".toList) (by simp [unreserved_iff]) he
  · exact hs.decoded_unreserved (t := "..".toList) (by simp [unreserved_iff]) he
  · exact hs.decoded_unreserved (t := []) (by simp) he

/-- **Canonical paths are a normal form shared by the validator and the rewriter.** -/
theorem shared_normal_form : SharedNormalForm where
  fixed _ := canonicalPath_iff_fixed
  rewritten x y h := by
    obtain ⟨hcanon, hdecode, -⟩ := canonicalRewritePath_spec h
    refine ⟨?_, hcanon, canonicalPath_iff_fixed.1 hcanon⟩
    unfold canonicalRewritePath at h
    split at h
    · next rest =>
      refine ⟨rest, rfl, ?_⟩
      rw [percentDecode_cons (by decide), percentDecode_cons (by decide)] at hdecode
      exact List.append_cancel_left hdecode
    · cases h
  unique p q hp hq h := by rw [← normalEscapes_canonical hp, h, normalEscapes_canonical hq]
  segment p h before segment after hs := by
    simp only [canonicalPath, Bool.and_eq_true, Bool.not_eq_true', Bool.or_eq_false_iff, decide_eq_false_iff_not] at h
    rcases canonicalSegments_split h.2 hs with ⟨rfl, rfl⟩ | hc
    · refine ⟨⟨by decide, by decide, by simp [percentDecode]⟩, fun _ => ⟨?_, rfl⟩⟩
      rintro rfl
      -- The only segment is empty: so is the path.
      have hp : ['/'].intercalate (p.splitOn '/') = p := List.intercalate_splitOn '/'
      rw [hs] at hp
      simp [← hp] at h
    · exact ⟨(canonicalSegment_decoded hc).1, fun he => absurd he (canonicalSegment_decoded hc).2⟩

/-- A tilde that is escaped without need. -/
theorem shared_normal_form_tilde : canonicalPath "a~b/".toList = true ∧
    canonicalRewritePath "/a~b/".toList = some "a~b/".toList :=
  (shared_normal_form.rewritten "/a%7eb/".toList "a~b/".toList (by decide)).2

end Vampire
