/-
What the rewriters put in place of an upstream link, and the buffer they
write to (`routes.rs`).

A link that is rewritten becomes the proxy's origin and a path; one that is
not stays as it is. `pypiTarget` and `npmTarget` are what follows the origin.
-/
import Vampire.Canonical
import Vampire.Routes

namespace Vampire

open Lib

/-! ## The bounded buffer -/

/-- `MAX_METADATA_BODY_LEN` -/
def maxMetadataBodyLen : Nat := 128 * 1024 * 1024

/-- Why a body is not rewritten. -/
inductive RewriteError
  /-- Not valid UTF-8. -/
  | utf8
  /-- Not valid JSON. -/
  | json
  /-- "rewritten metadata body exceeds output limit" -/
  | outputLimit
  deriving DecidableEq

/-- `LimitedOutput` -/
structure LimitedOutput where
  bytes : List UInt8
  maxLen : Nat

namespace LimitedOutput

/-- `LimitedOutput::new` -/
def new (maxLen : Nat) : LimitedOutput := ⟨[], maxLen⟩

/-- `LimitedOutput::extend` -/
def extend (output : LimitedOutput) (bytes : List UInt8) : Except RewriteError LimitedOutput :=
  if output.bytes.length + bytes.length ≤ output.maxLen then .ok { output with bytes := output.bytes ++ bytes }
  else .error .outputLimit

/-- Several writes after each other. -/
def extendAll (output : LimitedOutput) (chunks : List (List UInt8)) : Except RewriteError LimitedOutput :=
  chunks.foldlM extend output

/-- Writes succeed as long as all of them fit. -/
theorem extendAll_eq (output : LimitedOutput) (hfit : output.bytes.length ≤ output.maxLen)
    (chunks : List (List UInt8)) :
    output.extendAll chunks =
      if output.bytes.length + chunks.flatten.length ≤ output.maxLen then
        .ok { output with bytes := output.bytes ++ chunks.flatten }
      else .error .outputLimit := by
  induction chunks generalizing output with
  | nil => simp [extendAll, pure, Except.pure, hfit]
  | cons chunk chunks ih =>
    have hstep : output.extendAll (chunk :: chunks) = (output.extend chunk).bind fun o => o.extendAll chunks := rfl
    rw [hstep, extend]
    by_cases hchunk : output.bytes.length + chunk.length ≤ output.maxLen
    · rw [if_pos hchunk, Except.bind, ih]
      · simp only [List.length_append, List.flatten_cons, List.append_assoc, Nat.add_assoc]
      · simpa using hchunk
    · rw [if_neg hchunk, Except.bind, if_neg]
      simp only [List.flatten_cons, List.length_append]
      omega

theorem extendAll_append (output : LimitedOutput) (chunks chunks' : List (List UInt8)) :
    output.extendAll (chunks ++ chunks') = (output.extendAll chunks).bind fun o => o.extendAll chunks' :=
  List.foldlM_append

end LimitedOutput

/-! ## Links -/

/-- `normalize_url`. A setter that refuses leaves its part as it is; the path, all that is read, it never touches. -/
def normalizeUrl (url base : Url) : Url := { url with scheme := base.scheme, host := base.host, port := base.port }

section
variable (crate : UrlCrate) (upstreams : RegistryOrigins)

/-- The path and fragment of the link `rewrite_pypi_href` makes, `none` where it leaves the link. -/
def pypiTarget (href : Str) : Option (Str × Str) :=
  match crate.parse href with
  | some url =>
    if matchesOrigin url upstreams.pypiFiles.url || url.host = some "files.pythonhosted.org".toList then
      if url.username ≠ [] || url.password.isSome || url.query.isSome then none
      else
        let fragment := (url.fragment.map ('#' :: ·)).getD []
        let normalized := normalizeUrl url upstreams.pypiFiles.url
        (canonicalRewritePath normalized.path).map fun path => ("files/".toList ++ path, fragment)
    else if (matchesOrigin url upstreams.pypiSimple.url || url.host = some "pypi.org".toList) &&
        "/simple/".toList.isPrefixOf url.path && url.username = [] && url.password = none && url.query = none &&
        url.fragment = none then
      (canonicalRewritePath url.path).map fun path => (path, [])
    else none
  | none =>
    if "/simple/".toList.isPrefixOf href then (canonicalRewritePath href).map fun path => (path, []) else none

/-- `rewrite_pypi_href` -/
def rewritePypiHref (origin href : Str) : Str :=
  match pypiTarget crate upstreams href with
  | some (path, fragment) => origin ++ "/pypi/".toList ++ path ++ fragment
  | none => href

/-- The path of the link `rewrite_npm_tarball` makes. -/
def npmTarget (input : Str) : Option Str :=
  (crate.parse input).bind fun url =>
    if !matchesOrigin url upstreams.npm.url && url.host ≠ some "registry.npmjs.org".toList || url.username ≠ [] ||
        url.password.isSome || url.query.isSome || url.fragment.isSome then none
    else canonicalRewritePath (normalizeUrl url upstreams.npm.url).path

/-- `rewrite_npm_tarball` -/
def rewriteNpmTarball (origin input : Str) : Option Str :=
  (npmTarget crate upstreams input).map fun path => origin ++ "/npm/tarballs/".toList ++ path

end

/-! ## What a rewritten link is made of -/

/-- The link is a file's with its fragment, or an index page's, absolute or from the root. -/
inductive PypiTarget (crate : UrlCrate) (upstreams : RegistryOrigins) (href : Str) : Str → Str → Prop
  | file {url : Url} {path : Str} (hurl : crate.parse href = some url)
    (hhost : matchesOrigin url upstreams.pypiFiles.url = true ∨ url.host = some "files.pythonhosted.org".toList)
    (hpath : canonicalRewritePath url.path = some path) :
    PypiTarget crate upstreams href ("files/".toList ++ path) ((url.fragment.map ('#' :: ·)).getD [])
  | index {url : Url} {path : Str} (hurl : crate.parse href = some url)
    (hhost : matchesOrigin url upstreams.pypiSimple.url = true ∨ url.host = some "pypi.org".toList)
    (hsimple : "/simple/".toList <+: url.path) (hpath : canonicalRewritePath url.path = some path) :
    PypiTarget crate upstreams href path []
  | rooted {path : Str} (hurl : crate.parse href = none) (hsimple : "/simple/".toList <+: href)
    (hpath : canonicalRewritePath href = some path) : PypiTarget crate upstreams href path []

section
variable {crate : UrlCrate} {upstreams : RegistryOrigins} {href path fragment origin : Str}

theorem pypiTarget_some (h : pypiTarget crate upstreams href = some (path, fragment)) :
    PypiTarget crate upstreams href path fragment := by
  unfold pypiTarget at h
  split at h
  · next url hurl =>
    split at h
    · next hfiles =>
      split at h
      · cases h
      · obtain ⟨p, hp, heq⟩ := Option.map_eq_some_iff.1 h
        cases heq
        rw [Bool.or_eq_true, decide_eq_true_eq] at hfiles
        exact .file hurl hfiles hp
    · split at h
      · next hindex =>
        obtain ⟨p, hp, heq⟩ := Option.map_eq_some_iff.1 h
        cases heq
        simp only [Bool.and_eq_true, Bool.or_eq_true, decide_eq_true_eq, List.isPrefixOf_iff_prefix] at hindex
        obtain ⟨⟨⟨⟨⟨hhost, hsimple⟩, -⟩, -⟩, -⟩, -⟩ := hindex
        exact .index hurl hhost hsimple hp
      · cases h
  · next hurl =>
    split at h
    · next hsimple =>
      obtain ⟨p, hp, heq⟩ := Option.map_eq_some_iff.1 h
      cases heq
      exact .rooted hurl (List.isPrefixOf_iff_prefix.1 hsimple) hp
    · cases h

theorem matchesOrigin_host {url : Url} {base : Origin} (h : matchesOrigin url base.url = true) : url.host ≠ none := by
  simp only [matchesOrigin, Bool.and_eq_true, decide_eq_true_eq] at h
  rw [h.1.2]
  exact base.host

theorem host_ne_none {url : Url} {base : Origin} {name : Str}
    (h : matchesOrigin url base.url = true ∨ url.host = some name) : url.host ≠ none := by
  rcases h with h | h
  · exact matchesOrigin_host h
  · rw [h]
    exact Option.some_ne_none _

/-! ## Quotes -/

/-- A quote character of HTML. -/
def Quote (q : Char) : Prop := q = '"' ∨ q = apostrophe

theorem Quote.not_unreserved {q : Char} (h : Quote q) : unreserved q = false ∧ q ≠ '%' := by
  rcases h with rfl | rfl <;> decide

/-- Parsing a URL makes no quote in what is kept of it. -/
theorem quote_of_parse {url : Url} {q : Char} (hq : Quote q) (hurl : crate.parse href = some url)
    (hhost : url.host ≠ none) (h : q ∈ url.path ++ url.fragment.getD []) : q ∈ href := by
  rcases hq with rfl | rfl
  · refine absurd h ?_
    rw [List.mem_append, not_or]
    refine ⟨fun hp => ?_, fun hf => ?_⟩
    · have henc := (crate.parse_path hurl hhost _ hp).2.2.1
      rw [crate.encodes_quote] at henc
      cases henc
    · cases hfr : url.fragment with
      | none =>
        rw [hfr] at hf
        simp at hf
      | some f =>
        rw [hfr] at hf
        exact crate.parse_fragment hurl hfr hf
  · exact crate.parse_apostrophe hurl hhost h

theorem quote_of_rewritePath {s t : Str} {q : Char} (hq : Quote q) (hpath : canonicalRewritePath s = some t)
    (h : q ∈ t) : q ∈ s := by
  rcases (canonicalRewritePath_spec hpath).2.2 q h with hs | hu | hp
  · exact hs
  · rw [hq.not_unreserved.1] at hu
    cases hu
  · exact absurd hp hq.not_unreserved.2

theorem PypiTarget.quotes {q : Char} (hq : Quote q) (h : PypiTarget crate upstreams href path fragment)
    (hmem : q ∈ path ++ fragment) : q ∈ href := by
  cases h with
  | @file url p hurl hhost hpath =>
    refine quote_of_parse hq hurl (host_ne_none hhost) ?_
    simp only [List.mem_append] at hmem ⊢
    rcases hmem with (hmem | hmem) | hmem
    · rcases hq with rfl | rfl <;> exact absurd hmem (by decide)
    · exact .inl (quote_of_rewritePath hq hpath hmem)
    · cases hfr : url.fragment with
      | none =>
        rw [hfr] at hmem
        simp at hmem
      | some f =>
        rw [hfr] at hmem
        rcases List.mem_cons.1 hmem with rfl | hf
        · rcases hq with heq | heq <;> exact absurd heq (by decide)
        · exact .inr hf
  | index hurl hhost hsimple hpath =>
    rw [List.append_nil] at hmem
    exact quote_of_parse hq hurl (host_ne_none hhost) (List.mem_append_left _ (quote_of_rewritePath hq hpath hmem))
  | rooted hurl hsimple hpath =>
    rw [List.append_nil] at hmem
    exact quote_of_rewritePath hq hpath hmem

/-- A rewritten link has no quote that neither the link nor the proxy's origin has. -/
theorem rewritePypiHref_quotes {q : Char} (hq : Quote q) (horigin : q ∉ origin)
    (h : q ∈ rewritePypiHref crate upstreams origin href) : q ∈ href := by
  unfold rewritePypiHref at h
  split at h
  · next path fragment ht =>
    rw [List.append_assoc, List.append_assoc, List.mem_append, List.mem_append] at h
    rcases h with h | h | h
    · exact absurd h horigin
    · rcases hq with rfl | rfl <;> exact absurd h (by decide)
    · exact (pypiTarget_some ht).quotes hq h
  · exact h

theorem rewritePypiHref_ne_nil (h : href ≠ []) : rewritePypiHref crate upstreams origin href ≠ [] := by
  unfold rewritePypiHref
  split
  · simp
  · exact h

/-! ## Rewritten links are left alone -/

/-- The proxy's own origin is no upstream of the rewriter. -/
structure ForeignOrigin (crate : UrlCrate) (upstreams : RegistryOrigins) (origin : Str) : Prop where
  parses : ∃ url, crate.parse origin = some url ∧ url.host ≠ none ∧ url.host ≠ some "files.pythonhosted.org".toList ∧
    url.host ≠ some "pypi.org".toList ∧ matchesOrigin url upstreams.pypiFiles.url = false ∧
    matchesOrigin url upstreams.pypiSimple.url = false

theorem matchesOrigin_congr {u v base : Url} (hs : u.scheme = v.scheme) (hh : u.host = v.host)
    (hp : u.portOrKnownDefault = v.portOrKnownDefault) : matchesOrigin u base = matchesOrigin v base := by
  rw [matchesOrigin, matchesOrigin, hs, hh, hp]

/-- What is put behind a URL's slash does not take it to a registry. -/
theorem matchesOrigin_behind {rest : Str} {o u : Url} (ho : crate.parse origin = some o) (hhost : o.host ≠ none)
    (hu : crate.parse (origin ++ '/' :: rest) = some u) (base : Origin) (h : matchesOrigin o base.url = false) :
    matchesOrigin u base.url = false := by
  obtain ⟨hs, hweb, -⟩ := crate.parse_authority ho hhost hu
  by_contra hmatch
  rw [Bool.not_eq_false] at hmatch
  have hscheme : u.scheme = base.url.scheme := by
    simp only [matchesOrigin, Bool.and_eq_true, decide_eq_true_eq] at hmatch
    exact hmatch.1.1
  obtain ⟨hh, hp⟩ := hweb (by rw [hscheme]; exact base.scheme)
  rw [matchesOrigin_congr hs hh hp, h] at hmatch
  cases hmatch

/-- Nor to a host without an escape. -/
theorem host_behind {rest name : Str} {o u : Url} (ho : crate.parse origin = some o) (hhost : o.host ≠ none)
    (hu : crate.parse (origin ++ '/' :: rest) = some u) (hname : '%' ∉ name) (h : o.host ≠ some name) :
    u.host ≠ some name := by
  obtain ⟨-, -, hh | ⟨host, hh, hescape⟩⟩ := crate.parse_authority ho hhost hu
  · rwa [hh]
  · rw [hh]
    intro heq
    cases heq
    exact hname hescape

/-- A path on a foreign origin is no upstream link. -/
theorem pypiTarget_foreign {rest : Str} (h : ForeignOrigin crate upstreams origin) :
    pypiTarget crate upstreams (origin ++ '/' :: rest) = none := by
  obtain ⟨o, ho, hhost, hfiles, hpypi, hmfiles, hmsimple⟩ := h.parses
  unfold pypiTarget
  split
  · next url hurl =>
    rw [matchesOrigin_behind ho hhost hurl _ hmfiles, matchesOrigin_behind ho hhost hurl _ hmsimple,
      decide_eq_false (host_behind ho hhost hurl (by decide) hfiles),
      decide_eq_false (host_behind ho hhost hurl (by decide) hpypi)]
    rfl
  · have hne : ¬"/simple/".toList <+: origin ++ '/' :: rest := by
      cases origin with
      | nil =>
        rw [crate.parse_schemeless (by simp) rfl] at ho
        cases ho
      | cons c origin =>
        rintro ⟨t, ht⟩
        have hc : c = '/' := (List.cons.inj ht).1.symm
        rw [hc, crate.parse_rooted] at ho
        cases ho
    rw [if_neg (by simpa using hne)]

theorem rewritePypiHref_idempotent (h : ForeignOrigin crate upstreams origin) :
    rewritePypiHref crate upstreams origin (rewritePypiHref crate upstreams origin href) =
      rewritePypiHref crate upstreams origin href := by
  have hself : ∀ v, pypiTarget crate upstreams v = none → rewritePypiHref crate upstreams origin v = v := by
    intro v hv
    rw [rewritePypiHref, hv]
  cases ht : pypiTarget crate upstreams href with
  | none => rw [hself href ht, hself href ht]
  | some target =>
    obtain ⟨path, fragment⟩ := target
    have hout : rewritePypiHref crate upstreams origin href = origin ++ '/' :: ("pypi/".toList ++ path ++ fragment) := by
      simp [rewritePypiHref, ht]
    rw [hout, hself _ (pypiTarget_foreign h)]

end

end Vampire
