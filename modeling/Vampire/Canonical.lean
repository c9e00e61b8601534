/-
Canonical paths (`routes.rs`): `canonical_path` accepts the one spelling of a
path the proxy serves, `canonical_rewrite_path` brings the path of an upstream
link into it, and `build_url` joins an accepted path to a registry and checks
that nothing but the path came of it.

A canonical path is `Plain`, so a join can only go wrong where the path looks
like an absolute URL or has a character that URLs escape.
-/
import Vampire.Url

namespace Vampire

open Lib

/-! ## The source's functions -/

/-- The escaped byte is one that `canonical_segment` wants unescaped or not at all. -/
def escapeRefused (decoded : Nat) : Bool :=
  unreserved (Char.ofNat decoded) || Char.ofNat decoded = '/' || Char.ofNat decoded = '\\' ||
    Char.ofNat decoded = '?' || Char.ofNat decoded = '#'

/-- The loop of `canonical_segment` over a segment's bytes, which are ASCII. -/
def canonicalBytes : Str → Bool
  | [] => true
  | '%' :: hi :: lo :: rest =>
    match hexValue hi, hexValue lo with
    | some h, some l =>
      !('a' ≤ hi && hi ≤ 'f') && !('a' ≤ lo && lo ≤ 'f') && !escapeRefused (h * 16 + l) && canonicalBytes rest
    | _, _ => false
  | c :: rest => c ≠ '%' && plainChar c && c ≠ '/' && canonicalBytes rest

/-- `canonical_segment` -/
def canonicalSegment (segment : Str) : Bool :=
  !(segment.isEmpty || segment = ['.'] || segment = ['.', '.'] || segment.any fun c => 127 < c.toNat) &&
    canonicalBytes segment

/-- The loop of `canonical_path`: only the last segment may be empty. -/
def canonicalSegments : List Str → Bool
  | [] => true
  | segment :: segments =>
    if segment.isEmpty then segments.isEmpty else canonicalSegment segment && canonicalSegments segments

/-- `path.contains("//")` -/
def hasDoubleSlash : Str → Bool
  | [] => false
  | c :: rest => (c = '/' && rest.head? = some '/') || hasDoubleSlash rest

/-- `canonical_path` -/
def canonicalPath (path : Str) : Bool :=
  !(path.isEmpty || path.head? = some '/' || hasDoubleSlash path ||
      path.any fun c => c = '?' || c = '#' || c = '\\') &&
    canonicalSegments (path.splitOn '/')

/-- The loop of `canonical_rewrite_path`, which pushes every byte of the path as a character. -/
def rewriteBytes : Str → Option Str
  | [] => some []
  | '%' :: rest =>
    match rest with
    | hi :: lo :: rest =>
      match hexValue hi, hexValue lo with
      | some h, some l =>
        let decoded := Char.ofNat (h * 16 + l)
        (rewriteBytes rest).map ((if unreserved decoded then [decoded] else ['%', hexDigit h, hexDigit l]) ++ ·)
      | _, _ => none
    | _ => none
  | c :: rest => (rewriteBytes rest).map ((String.utf8EncodeChar c).map (fun b => Char.ofNat b.toNat) ++ ·)

/-- `canonical_rewrite_path` -/
def canonicalRewritePath (path : Str) : Option Str :=
  match path with
  | '/' :: path => (rewriteBytes path).filter canonicalPath
  | _ => none

section
variable (crate : UrlCrate)

/-- `build_url` -/
def buildUrl (base : Origin) (path : Str) : Option Url :=
  if base.url.path.getLast? ≠ some '/' || base.url.username ≠ [] || base.url.password ≠ none ||
      base.url.query ≠ none || base.url.fragment ≠ none || (crate.parse path).isSome then none
  else
    (crate.join base.url path).filter fun url =>
      matchesOrigin url base.url && url.path = base.url.path ++ path && url.query = none && url.fragment = none

/-- `join_url` -/
def joinUrl (base : Origin) (path : Str) : Option Url :=
  if canonicalPath path then buildUrl crate base path else none

end

/-! ## Characters -/

theorem char_ne_iff {c d : Char} : c ≠ d ↔ c.toNat ≠ d.toNat := by rw [ne_eq, ne_eq, Char.toNat_inj]

theorem char_le_iff {c d : Char} : c ≤ d ↔ c.toNat ≤ d.toNat := by
  rw [Char.le_def, UInt32.le_iff_toNat_le]
  rfl

theorem plainChar_iff {c : Char} :
    plainChar c = true ↔ 33 ≤ c.toNat ∧ c.toNat ≤ 126 ∧ c.toNat ≠ 63 ∧ c.toNat ≠ 35 ∧ c.toNat ≠ 92 := by
  simp only [plainChar, Bool.and_eq_true, decide_eq_true_eq, and_assoc, char_ne_iff, char_le_iff]
  rfl

theorem hexValue_plain {c : Char} {n : Nat} (h : hexValue c = some n) : plainChar c = true ∧ c ≠ '/' ∧ c ≠ '%' := by
  rw [plainChar_iff, char_ne_iff, char_ne_iff, show '/'.toNat = 47 from rfl, show '%'.toNat = 37 from rfl]
  have := hexValue_range h
  omega

theorem unreserved_iff {c : Char} : unreserved c = true ↔
    (65 ≤ c.toNat ∧ c.toNat ≤ 90) ∨ (97 ≤ c.toNat ∧ c.toNat ≤ 122) ∨ (48 ≤ c.toNat ∧ c.toNat ≤ 57) ∨
      c = '-' ∨ c = '.' ∨ c = '_' ∨ c = '~' := by
  simp only [unreserved, Char.isAlphanum, Char.isAlpha, Char.isUpper, Char.isLower, Char.isDigit, Bool.or_eq_true,
    Bool.and_eq_true, decide_eq_true_eq, ge_iff_le, UInt32.le_iff_toNat_le, or_assoc]
  rfl

theorem unreserved_plain {c : Char} (h : unreserved c = true) :
    plainChar c = true ∧ c ≠ '/' ∧ c ≠ '%' ∧ c ≠ ':' := by
  have hslash : '/'.toNat = 47 := rfl
  have hpercent : '%'.toNat = 37 := rfl
  have hcolon : ':'.toNat = 58 := rfl
  rw [plainChar_iff, char_ne_iff, char_ne_iff, char_ne_iff, hslash, hpercent, hcolon]
  rcases unreserved_iff.1 h with h | h | h | rfl | rfl | rfl | rfl
  · omega
  · omega
  · omega
  all_goals decide

/-! ## Canonical paths are plain -/

theorem canonicalBytes_chars {s : Str} (h : canonicalBytes s = true) : ∀ c ∈ s, plainChar c = true ∧ c ≠ '/' := by
  fun_induction canonicalBytes s with
  | case1 => simp
  | case2 hi lo rest high low hlo hhi ih =>
    simp only [Bool.and_eq_true] at h
    simp only [List.mem_cons, forall_eq_or_imp]
    exact ⟨by decide, ⟨(hexValue_plain hhi).1, (hexValue_plain hhi).2.1⟩,
      ⟨(hexValue_plain hlo).1, (hexValue_plain hlo).2.1⟩, ih h.2⟩
  | case3 => cases h
  | case4 c rest _ ih =>
    simp only [Bool.and_eq_true, decide_eq_true_eq] at h
    simp only [List.mem_cons, forall_eq_or_imp]
    exact ⟨⟨h.1.1.2, h.1.2⟩, ih h.2⟩

theorem readDots_cons {c : Char} (hc : c ≠ '%') (rest : Str) : readDots (c :: rest) = c :: readDots rest := by
  rw [readDots]
  · rintro rest' h
    cases h
    exact absurd rfl hc
  · rintro rest' h
    cases h
    exact absurd rfl hc

/-- An escaped dot is not canonical. -/
theorem readDots_canonical {s : Str} (h : canonicalBytes s = true) : readDots s = s := by
  fun_induction canonicalBytes s with
  | case1 => rfl
  | case2 hi lo rest high low hlo hhi ih =>
    simp only [Bool.and_eq_true] at h
    have hne : ∀ rest', hi :: lo :: rest ≠ '2' :: 'e' :: rest' ∧ hi :: lo :: rest ≠ '2' :: 'E' :: rest' := by
      refine fun rest' => ⟨?_, ?_⟩
      · rintro ⟨⟩
        exact absurd h.1.1.2 (by decide)
      · rintro ⟨⟩
        have h2 : high = 2 := by simpa [hexValue] using hhi.symm
        have hE : low = 14 := by simpa [hexValue] using hlo.symm
        subst h2 hE
        exact absurd h.1.2 (by decide)
    rw [readDots, readDots_cons (hexValue_plain hhi).2.2, readDots_cons (hexValue_plain hlo).2.2, ih h.2]
    · exact fun rest' _ => (hne rest').1
    · exact fun rest' _ => (hne rest').2
  | case3 => cases h
  | case4 c rest _ ih =>
    simp only [Bool.and_eq_true, decide_eq_true_eq] at h
    rw [readDots_cons h.1.1.1, ih h.2]

theorem canonicalSegment_not_dots {s : Str} (h : canonicalSegment s = true) : dotSegment s = false := by
  simp only [canonicalSegment, Bool.and_eq_true, Bool.not_eq_true', Bool.or_eq_false_iff, decide_eq_false_iff_not] at h
  rw [dotSegment, readDots_canonical h.2]
  simp [h.1.1.1.2, h.1.1.2]

theorem canonicalSegments_forall {segments : List Str} (h : canonicalSegments segments = true) :
    ∀ segment ∈ segments, segment = [] ∨ canonicalSegment segment = true := by
  induction segments with
  | nil => simp
  | cons segment segments ih =>
    rw [canonicalSegments] at h
    simp only [List.mem_cons, forall_eq_or_imp]
    split at h
    · next he =>
      rw [List.isEmpty_iff] at he h
      subst h
      exact ⟨.inl he, by simp⟩
    · rw [Bool.and_eq_true] at h
      exact ⟨.inr h.1, ih h.2⟩

/-- A character of a text is the separator or lies in one of the pieces. -/
theorem mem_splitOn {p : Str} {c : Char} (sep : Char) (h : c ∈ p) :
    c = sep ∨ ∃ segment ∈ p.splitOn sep, c ∈ segment := by
  have hsplit : [sep].intercalate (p.splitOn sep) = p := List.intercalate_splitOn sep
  rw [← hsplit] at h
  generalize p.splitOn sep = segments at h ⊢
  induction segments with
  | nil => simp at h
  | cons segment segments ih =>
    simp only [List.mem_cons, exists_eq_or_imp]
    by_cases hs : segments = []
    · subst hs
      exact .inr (.inl (by simpa using h))
    · rw [List.intercalate_cons_of_ne_nil hs, List.mem_append, List.mem_append, List.mem_singleton] at h
      rcases h with (h | h) | h
      · exact .inr (.inl h)
      · exact .inl h
      · exact (ih h).imp_right .inr

/-- A double slash leaves an empty segment behind the first. -/
theorem hasDoubleSlash_splitOn {p : Str} (h : hasDoubleSlash p = true) : [] ∈ (p.splitOn '/').tail := by
  induction p with
  | nil => cases h
  | cons c p ih =>
    rw [hasDoubleSlash, Bool.or_eq_true, Bool.and_eq_true, decide_eq_true_eq, decide_eq_true_eq] at h
    rw [List.splitOn_cons_eq_if_modifyHead]
    rcases h with ⟨rfl, hhead⟩ | h
    · cases p with
      | nil => cases hhead
      | cons d p =>
        cases hhead
        simp [List.splitOn_cons_eq_if_modifyHead]
    · split
      · exact List.mem_of_mem_tail (ih h)
      · rw [List.tail_modifyHead]
        exact ih h
theorem canonicalPath_plain {p : Str} (h : canonicalPath p = true) : Plain p := by
  simp only [canonicalPath, Bool.and_eq_true, Bool.not_eq_true', Bool.or_eq_false_iff, decide_eq_false_iff_not] at h
  have hsegs := canonicalSegments_forall h.2
  refine ⟨by simpa using h.1.1.1.1, h.1.1.1.2, fun c hc => ?_, fun segment hsegment => ?_⟩
  · rcases mem_splitOn '/' hc with rfl | ⟨segment, hsegment, hcs⟩
    · decide
    · rcases hsegs segment hsegment with rfl | hcanon
      · simp at hcs
      · simp only [canonicalSegment, Bool.and_eq_true] at hcanon
        exact (canonicalBytes_chars hcanon.2 c hcs).1
  · rcases hsegs segment hsegment with rfl | hcanon
    · rfl
    · exact canonicalSegment_not_dots hcanon

/-! ## Plain names are canonical -/

theorem canonicalSegment_ne_nil {s : Str} (h : canonicalSegment s = true) : s ≠ [] := by
  rintro rfl
  cases h

theorem canonicalSegment_bytes {s : Str} (h : canonicalSegment s = true) : canonicalBytes s = true := by
  rw [canonicalSegment, Bool.and_eq_true] at h
  exact h.2

theorem canonicalBytes_cons {c : Char} (hc : c ≠ '%') (rest : Str) :
    canonicalBytes (c :: rest) = (plainChar c && c ≠ '/' && canonicalBytes rest) := by
  rw [canonicalBytes]
  · simp [hc]
  · simp [hc]

theorem canonicalBytes_unreserved {s : Str} (h : ∀ c ∈ s, unreserved c = true) : canonicalBytes s = true := by
  induction s with
  | nil => rfl
  | cons c s ih =>
    obtain ⟨hplain, hslash, hpercent, -⟩ := unreserved_plain (h c List.mem_cons_self)
    rw [canonicalBytes_cons hpercent, hplain, ih fun d hd => h d (List.mem_cons_of_mem _ hd)]
    simpa using hslash

theorem canonicalSegment_unreserved {s : Str} (hne : s ≠ []) (hdot : s ≠ ['.']) (hdots : s ≠ ['.', '.'])
    (h : ∀ c ∈ s, unreserved c = true) : canonicalSegment s = true := by
  have hascii : (s.any fun c => 127 < c.toNat) = false := by
    rw [List.any_eq_false]
    intro c hc
    have := plainChar_iff.1 (unreserved_plain (h c hc)).1
    rw [decide_eq_true_eq]
    omega
  simp [canonicalSegment, hne, hdot, hdots, hascii, canonicalBytes_unreserved h]

theorem canonicalSegments_of_forall {segments : List Str} (h : ∀ s ∈ segments, canonicalSegment s = true) :
    canonicalSegments segments = true := by
  induction segments with
  | nil => rfl
  | cons s segments ih =>
    have hs := h s List.mem_cons_self
    have hne : s.isEmpty = false := by simpa using canonicalSegment_ne_nil hs
    rw [canonicalSegments, hne, hs, ih fun t ht => h t (List.mem_cons_of_mem _ ht)]
    rfl

/-- A path of canonical segments is canonical. -/
theorem canonicalPath_of_segments {segments : List Str} (hne : segments ≠ [])
    (h : ∀ s ∈ segments, canonicalSegment s = true) : canonicalPath (['/'].intercalate segments) = true := by
  have hplain : ∀ s ∈ segments, ∀ c ∈ s, plainChar c = true ∧ c ≠ '/' := fun s hs =>
    canonicalBytes_chars (canonicalSegment_bytes (h s hs))
  have hsplit : (['/'].intercalate segments).splitOn '/' = segments :=
    List.splitOn_intercalate '/' (fun s hs hmem => (hplain s hs '/' hmem).2 rfl) hne
  have hchars : ∀ c ∈ ['/'].intercalate segments, plainChar c = true := by
    intro c hc
    rcases mem_splitOn '/' hc with rfl | ⟨s, hs, hcs⟩
    · decide
    · exact (hplain s (hsplit ▸ hs) c hcs).1
  have hdouble : hasDoubleSlash (['/'].intercalate segments) = false := by
    rw [← Bool.not_eq_true]
    intro hd
    have hempty := List.mem_of_mem_tail (hasDoubleSlash_splitOn hd)
    exact canonicalSegment_ne_nil (h [] (hsplit ▸ hempty)) rfl
  have hmarks : ((['/'].intercalate segments).any fun c => c = '?' || c = '#' || c = '\\') = false := by
    rw [List.any_eq_false]
    intro c hc
    have := hchars c hc
    simp only [plainChar, Bool.and_eq_true, decide_eq_true_eq] at this
    simp [this.1.1.2, this.1.2, this.2]
  have hfirst : ['/'].intercalate segments ≠ [] ∧ (['/'].intercalate segments).head? ≠ some '/' := by
    cases segments with
    | nil => exact absurd rfl hne
    | cons s rest =>
      have hs := h s List.mem_cons_self
      cases s with
      | nil => exact absurd rfl (canonicalSegment_ne_nil hs)
      | cons c s =>
        rw [List.intercalate_cons_cons_left]
        refine ⟨List.cons_ne_nil _ _, fun hhead => ?_⟩
        exact (hplain _ List.mem_cons_self c List.mem_cons_self).2 (Option.some.inj hhead)
  rw [canonicalPath, hsplit, canonicalSegments_of_forall h, hdouble, hmarks]
  simpa using hfirst

/-- A text of one segment. -/
theorem plain_segment {p : Str} (hne : p ≠ []) (hchars : ∀ c ∈ p, plainChar c = true ∧ c ≠ '/')
    (hdots : dotSegment p = false) : Plain p where
  ne := hne
  head := fun h => (hchars '/' (List.mem_of_mem_head? h)).2 rfl
  chars := fun c hc => (hchars c hc).1
  dots := by
    rw [List.splitOn_eq_singleton fun h => (hchars '/' h).2 rfl]
    simpa using hdots

/-- A canonical text has no escaped slash in it, in either case, and none that starts in it. -/
theorem canonicalBytes_no_slash {s rest before after : Str} {digit : Char} (h : canonicalBytes s = true)
    (hdigit : digit = 'F' ∨ digit = 'f') (heq : s ++ rest = before ++ '%' :: '2' :: digit :: after) :
    s.length ≤ before.length := by
  fun_induction canonicalBytes s generalizing before with
  | case1 => exact Nat.zero_le _
  | case2 hi lo s high low hlo hhi ih =>
    simp only [Bool.and_eq_true] at h
    cases before with
    | nil =>
      simp only [List.cons_append, List.nil_append, List.cons.injEq, true_and] at heq
      obtain ⟨rfl, rfl, -⟩ := heq
      have h2 : high = 2 := by simpa [hexValue] using hhi.symm
      rcases hdigit with rfl | rfl
      · have hF : low = 15 := by simpa [hexValue] using hlo.symm
        subst h2 hF
        exact absurd h.1.2 (by decide)
      · exact absurd h.1.1.2 (by decide)
    | cons c before =>
      simp only [List.cons_append, List.cons.injEq] at heq
      cases before with
      | nil => exact absurd (List.cons.inj heq.2).1 (hexValue_plain hhi).2.2
      | cons c before =>
        simp only [List.cons_append, List.cons.injEq] at heq
        cases before with
        | nil => exact absurd (List.cons.inj heq.2.2).1 (hexValue_plain hlo).2.2
        | cons c before =>
          simp only [List.cons_append, List.cons.injEq] at heq
          have := ih h.2 heq.2.2.2
          simp only [List.length_cons]
          omega
  | case3 => cases h
  | case4 c s _ ih =>
    simp only [Bool.and_eq_true, decide_eq_true_eq] at h
    cases before with
    | nil => exact absurd (List.cons.inj heq).1 h.1.1.1
    | cons c before =>
      simp only [List.cons_append, List.cons.injEq] at heq
      exact Nat.succ_le_succ (ih h.2 heq.2)

/-! ## Joining -/

section
variable {crate : UrlCrate} {base : Origin} {p : Str} {url : Url}

theorem plainChar_gt {c : Char} (h : plainChar c = true) : ' ' < c := by
  rw [plainChar_iff] at h
  rw [Char.lt_def, UInt32.lt_iff_toNat_lt]
  change 32 < c.toNat
  omega

/-- A plain path joins to a registry unless it reads as an absolute URL or needs an escape. -/
theorem buildUrl_iff (hp : Plain p) :
    buildUrl crate base p = some url ↔
      hasScheme p = false ∧ (∀ c ∈ p, crate.encodes c = false) ∧ url = { base.url with path := '/' :: p } := by
  have hbase : buildUrl crate base p = if (crate.parse p).isSome then none else
      (crate.join base.url p).filter fun url =>
        matchesOrigin url base.url && url.path = '/' :: p && url.query = none && url.fragment = none := by
    simp [buildUrl, base.path, base.username, base.password, base.query, base.fragment]
  rw [hbase]
  cases hs : hasScheme p with
  | false =>
    rw [crate.parse_schemeless (fun c hc => plainChar_gt (hp.chars c hc)) hs, crate.join_plain base hp hs,
      Option.isSome_none, if_neg Bool.false_ne_true, Option.filter_some, matchesOrigin_path]
    by_cases henc : ∀ c ∈ p, crate.encodes c = false
    · rw [percentEncode_eq_self.2 henc]
      simp only [base.query, base.fragment, decide_true, Bool.and_self, if_true, Option.some.injEq]
      exact ⟨fun h => ⟨trivial, henc, h.symm⟩, fun h => h.2.2.symm⟩
    · simp [henc, percentEncode_eq_self]
  | true =>
    refine ⟨fun h => ?_, fun h => absurd h.1 (by simp)⟩
    split at h
    · cases h
    · obtain ⟨hjoin, hcheck⟩ := Option.filter_eq_some_iff.1 h
      simp only [Bool.and_eq_true, decide_eq_true_eq] at hcheck
      exact absurd hcheck.1.1.2 (crate.join_scheme base hs hjoin hcheck.1.1.1)

theorem joinUrl_iff :
    joinUrl crate base p = some url ↔ canonicalPath p = true ∧ hasScheme p = false ∧
      (∀ c ∈ p, crate.encodes c = false) ∧ url = { base.url with path := '/' :: p } := by
  unfold joinUrl
  split
  · next h => simp only [h, true_and, buildUrl_iff (canonicalPath_plain h)]
  · next h => simp [h]

end

/-! ## Rewritten paths -/

theorem hexDigit_unreserved {n : Nat} (h : n < 16) : unreserved (hexDigit n) = true := by
  have hall : ∀ n : Fin 16, unreserved (hexDigit n.val) = true := by decide
  exact hall ⟨n, h⟩

/-- A character whose bytes are all plain is itself the one byte. -/
theorem bytes_plain {c : Char}
    (h : ∀ d ∈ (String.utf8EncodeChar c).map (fun b => Char.ofNat b.toNat), plainChar d = true) :
    (String.utf8EncodeChar c).map (fun b => Char.ofNat b.toNat) = [c] := by
  by_cases hc : c.toNat < 128
  · simp only [utf8EncodeChar_ascii hc, List.map_cons, List.map_nil, UInt8.toNat_ofNat',
      Nat.mod_eq_of_lt (Nat.lt_trans hc (by decide : 128 < 256)), Char.ofNat_toNat]
  · obtain ⟨b, hb⟩ := List.exists_mem_of_ne_nil _ (String.utf8EncodeChar_ne_nil (c := c))
    have hbeyond := utf8EncodeChar_beyond (Nat.le_of_not_lt hc) b hb
    have hplain := h _ (List.mem_map.2 ⟨b, hb, rfl⟩)
    rw [plainChar_iff, toNat_ofNat_byte b.toNat_lt] at hplain
    omega

theorem rewriteBytes_spec {s t : Str} (h : rewriteBytes s = some t) (hplain : ∀ c ∈ t, plainChar c = true) :
    percentDecode t = percentDecode s ∧ ∀ c ∈ t, c ∈ s ∨ unreserved c = true ∨ c = '%' := by
  fun_induction rewriteBytes s generalizing t with
  | case1 =>
    cases h
    exact ⟨rfl, by simp⟩
  | case2 hi lo rest high low hlo hhi decoded =>
    rename_i ih
    obtain ⟨t', ht', rfl⟩ := Option.map_eq_some_iff.1 h
    obtain ⟨ihd, ihc⟩ := ih ht' fun c hc => hplain c (List.mem_append_right _ hc)
    have hbyte : decoded.toNat = high * 16 + low := by
      have := hexValue_lt hlo
      have := hexValue_lt hhi
      exact toNat_ofNat_byte (by omega)
    rw [percentDecode_escape hhi hlo, ← hbyte]
    split
    · next hu =>
      have hp := hplain decoded (List.mem_append_left _ (by rw [if_pos hu]; simp))
      rw [plainChar_iff] at hp
      have hne : decoded ≠ '%' := by
        intro he
        rw [he] at hu
        exact absurd hu (by decide)
      refine ⟨?_, ?_⟩
      · rw [List.singleton_append, percentDecode_cons hne, utf8EncodeChar_ascii (by omega), ihd]
        rfl
      · simp only [List.singleton_append, List.mem_cons, forall_eq_or_imp, hu, true_or, or_true, true_and]
        exact fun c hc => (ihc c hc).imp_left (.inr ∘ .inr ∘ .inr)
    · refine ⟨?_, ?_⟩
      · rw [List.cons_append, List.cons_append, List.singleton_append,
          percentDecode_escape (hexValue_hexDigit (hexValue_lt hhi)) (hexValue_hexDigit (hexValue_lt hlo)), ihd, hbyte]
      · simp only [List.cons_append, List.nil_append, List.mem_cons, forall_eq_or_imp, or_true, true_and,
          hexDigit_unreserved (hexValue_lt hhi), hexDigit_unreserved (hexValue_lt hlo), true_or]
        exact fun c hc => (ihc c hc).imp_left (.inr ∘ .inr ∘ .inr)
  | case3 => cases h
  | case4 => cases h
  | case5 c rest hc ih =>
    obtain ⟨t', ht', rfl⟩ := Option.map_eq_some_iff.1 h
    obtain ⟨ihd, ihc⟩ := ih ht' fun c hc => hplain c (List.mem_append_right _ hc)
    rw [bytes_plain fun d hd => hplain d (List.mem_append_left _ hd), List.singleton_append, percentDecode_cons hc,
      percentDecode_cons hc, ihd]
    refine ⟨rfl, ?_⟩
    simp only [List.mem_cons, forall_eq_or_imp, true_or, true_and]
    exact fun d hd => (ihc d hd).imp_left .inr

/-- A rewritten path is canonical and decodes to the same bytes. -/
theorem canonicalRewritePath_spec {path t : Str} (h : canonicalRewritePath path = some t) :
    canonicalPath t = true ∧ percentDecode ('/' :: t) = percentDecode path ∧
      ∀ c ∈ t, c ∈ path ∨ unreserved c = true ∨ c = '%' := by
  unfold canonicalRewritePath at h
  split at h
  · next rest =>
    obtain ⟨hr, hcanon⟩ := Option.filter_eq_some_iff.1 h
    obtain ⟨hd, hc⟩ := rewriteBytes_spec hr (canonicalPath_plain hcanon).chars
    refine ⟨hcanon, ?_, fun c hmem => (hc c hmem).imp_left (List.mem_cons_of_mem _)⟩
    rw [percentDecode_cons (by decide), percentDecode_cons (by decide), hd]
  · cases h

end Vampire
