/-
The memory that `finish_metadata` reserves before it rewrites a body
(`MetadataRewrite::output_bound`, `working_set`, `proxy.rs`), against what the
rewriters return.

The bound lets a body grow by the proxy's origin and sixteen bytes for every
twenty bytes of it (eight in HTML). A link may also grow threefold, since
every byte of its path may come out escaped. An HTML bound has room for that.
The bound of an npm document has it when the origin has twenty-four bytes.
-/
import Vampire.NpmSize
import Vampire.Names

namespace Vampire

open Lib

/-! ## The source's functions -/

/-- `MIN_REWRITABLE_URL_LEN` -/
def minRewritableUrlLen : Nat := 20

/-- `REWRITE_PREFIX_LEN` -/
def rewritePrefixLen : Nat := 16

/-- `usize::div_ceil` -/
def divCeil (n d : Nat) : Nat := (n + (d - 1)) / d

/-- `output_bound` of a rewritten body. What the code's sums saturate at is beyond the limit. -/
def rewriteBound (inputLen minUrlLen originLen : Nat) : Nat :=
  min (inputLen + divCeil inputLen minUrlLen * (originLen + rewritePrefixLen)) maxMetadataBodyLen

namespace MetadataRewrite

/-- `MetadataRewrite::output_bound` -/
def outputBound (rewrite : MetadataRewrite) (inputLen : Nat) : Nat :=
  match rewrite with
  | .none => inputLen
  | .npm origin => rewriteBound inputLen minRewritableUrlLen (utf8 origin).length
  | .pypi origin => rewriteBound inputLen "/simple/".length (utf8 origin).length

/-- `MetadataRewrite::working_set` -/
def workingSet (rewrite : MetadataRewrite) (inputLen outputBound : Nat) : Nat :=
  match rewrite with
  | .none => inputLen
  | .pypi _ => inputLen + outputBound
  | .npm _ => inputLen * 12 + outputBound

/-- What `finish_metadata` makes of a body. -/
def run (crate : UrlCrate) (upstreams : RegistryOrigins) (rewrite : MetadataRewrite) (body : List UInt8) :
    Except RewriteError (List UInt8) :=
  match rewrite with
  | .none => .ok body
  | .npm origin => rewriteNpmJson crate upstreams origin body maxMetadataBodyLen
  | .pypi origin => rewritePypiHtml crate upstreams origin body maxMetadataBodyLen

end MetadataRewrite

/-- Unicode white space. -/
def whiteSpace (c : Char) : Bool :=
  let n := c.toNat
  9 ≤ n && n ≤ 13 || n = 32 || n = 0x85 || n = 0xa0 || n = 0x1680 || 0x2000 ≤ n && n ≤ 0x200a || n = 0x2028 ||
    n = 0x2029 || n = 0x202f || n = 0x205f || n = 0x3000

/-- `str::trim` -/
def trim (s : Str) : Str := ((s.dropWhile whiteSpace).reverse.dropWhile whiteSpace).reverse

/-- `parse_public_base_url`; an error is `none`. -/
def parsePublicBaseUrl (crate : UrlCrate) (value : Str) : Option Str :=
  (crate.parse (trim value)).bind fun url =>
    if url.scheme ≠ "http".toList ∧ url.scheme ≠ "https".toList then none
    else url.host.bind fun host =>
      if url.username ≠ [] ∨ url.password.isSome then none
      else if url.path ≠ ['/'] ∨ url.query.isSome ∨ url.fragment.isSome then none
      else some (url.scheme ++ "://".toList ++ host ++ (url.port.elim [] fun port => ':' :: (Nat.repr port).toList))

/-- `Config::validate` accepts the origin. -/
def ValidOrigin (crate : UrlCrate) (origin : Str) : Prop := parsePublicBaseUrl crate origin = some origin

instance validOriginDecidable (crate : UrlCrate) (origin : Str) : Decidable (ValidOrigin crate origin) :=
  inferInstanceAs (Decidable (_ = _))

/-! ## What the URL standard says of lengths -/

/-- How the parts of a URL come out of its text. -/
structure Serialises (crate : UrlCrate) : Prop where
  /-- No host has a control character. -/
  host : ∀ {v u host}, crate.parse v = some u → u.host = some host → ∀ c ∈ host, ¬ c < ' '
  /-- A scheme, a colon and the host are no part of the path or of the fragment, of which a byte becomes three at most. -/
  registry : ∀ {v u}, crate.parse v = some u → u.host = some "registry.npmjs.org".toList →
    u.path.length + (u.fragment.getD []).length + 3 * minRewritableUrlLen ≤ 3 * (utf8 v).length
  fragment : ∀ {v u fragment}, crate.parse v = some u → u.fragment = some fragment → ∀ c ∈ fragment, c.toNat < 128
  /-- A brace in a path is escaped. -/
  brace : crate.encodes '\x7b' = true
  braces : ∀ n, crate.parse ("https://registry.npmjs.org/".toList ++ List.replicate n '\x7b') =
    some ⟨"https".toList, [], none, some "registry.npmjs.org".toList, none,
      '/' :: percentEncode crate.encodes (List.replicate n '\x7b'), none, none⟩

/-! ## Rewritten paths and links -/

theorem rewriteBytes_length {s t : Str} (h : rewriteBytes s = some t) (hplain : ∀ c ∈ t, plainChar c = true) :
    t.length ≤ s.length := by
  fun_induction rewriteBytes s generalizing t with
  | case1 =>
    cases h
    exact Nat.le_refl _
  | case2 hi lo rest high low hlo hhi decoded =>
    rename_i ih
    obtain ⟨t', ht', rfl⟩ := Option.map_eq_some_iff.1 h
    have := ih ht' fun c hc => hplain c (List.mem_append_right _ hc)
    simp only [List.length_append, List.length_cons]
    split <;> simp only [List.length_cons, List.length_nil] <;> omega
  | case3 => cases h
  | case4 => cases h
  | case5 c rest hc ih =>
    obtain ⟨t', ht', rfl⟩ := Option.map_eq_some_iff.1 h
    have := ih ht' fun c hc => hplain c (List.mem_append_right _ hc)
    rw [bytes_plain fun d hd => hplain d (List.mem_append_left _ hd)]
    simp only [List.singleton_append, List.length_cons]
    omega

/-- A rewritten path is ASCII, without the first slash, and no longer. -/
theorem canonicalRewritePath_length {path t : Str} (h : canonicalRewritePath path = some t) :
    t.length + 1 ≤ path.length ∧ ∀ c ∈ t, plainChar c = true := by
  have hplain := (canonicalPath_plain (canonicalRewritePath_spec h).1).chars
  refine ⟨?_, hplain⟩
  unfold canonicalRewritePath at h
  split at h
  · obtain ⟨hr, -⟩ := Option.filter_eq_some_iff.1 h
    have := rewriteBytes_length hr hplain
    simp only [List.length_cons]
    omega
  · cases h

theorem plainChar_ascii {c : Char} (h : plainChar c = true) : c.toNat < 128 := by
  have := plainChar_iff.1 h
  omega

theorem byteLength_plain {s : Str} (h : ∀ c ∈ s, plainChar c = true) : byteLength s = s.length :=
  byteLength_ascii fun c hc => plainChar_ascii (h c hc)

section
variable {crate : UrlCrate} {upstreams : RegistryOrigins} {origin : Str}

/-! ## HTML -/

/-- A path and a fragment on the proxy are no longer than the escaped link. -/
theorem PypiTarget.length (hs : Serialises crate) {href path fragment : Str}
    (h : PypiTarget crate upstreams href path fragment) :
    byteLength path + byteLength fragment ≤ 3 * byteLength href + 6 := by
  cases h with
  | @file url p hurl hhost hpath =>
    obtain ⟨hlen, hplain⟩ := canonicalRewritePath_length hpath
    have hparse := crate.parse_length hurl
    rw [utf8_byteLength] at hparse
    have hfragment : byteLength ((url.fragment.map ('#' :: ·)).getD []) ≤ (url.fragment.getD []).length + 1 := by
      cases hf : url.fragment with
      | none => simp
      | some f =>
        have hascii := byteLength_ascii (hs.fragment hurl hf)
        have hhash : Char.utf8Size '#' = 1 := by decide
        simp only [Option.map_some, Option.getD_some, byteLength_cons, hascii, hhash]
        omega
    have hfiles : byteLength "files/".toList = 6 := by decide
    rw [byteLength_append, byteLength_plain hplain, hfiles]
    omega
  | @index url p hurl hhost hsimple hpath =>
    obtain ⟨hlen, hplain⟩ := canonicalRewritePath_length hpath
    have hparse := crate.parse_length hurl
    rw [utf8_byteLength] at hparse
    rw [byteLength_plain hplain, byteLength_nil]
    omega
  | rooted hurl hsimple hpath =>
    obtain ⟨hlen, hplain⟩ := canonicalRewritePath_length hpath
    have := length_le_byteLength href
    rw [byteLength_plain hplain, byteLength_nil]
    omega

theorem rewritePypiHref_size (hs : Serialises crate) (upstreams : RegistryOrigins) (origin href : Str) :
    byteLength (rewritePypiHref crate upstreams origin href) ≤ byteLength origin + 3 * byteLength href + 12 := by
  unfold rewritePypiHref
  split
  · next path fragment ht =>
    have := (pypiTarget_some ht).length hs
    have hpypi : byteLength "/pypi/".toList = 6 := by decide
    simp only [byteLength_append, hpypi]
    omega
  · omega

/-- The bytes of a match, and of the text before it. -/
theorem capture_size (m : Capture) (h : Quote m.quote) :
    byteLength (m.gap ++ m.text) = byteLength m.gap + byteLength m.value + 7 := by
  have hq : Char.utf8Size m.quote = 1 := by
    rcases h with he | he <;> rw [he] <;> decide
  have hh : Char.utf8Size 'h' = 1 ∧ Char.utf8Size 'r' = 1 ∧ Char.utf8Size 'e' = 1 ∧ Char.utf8Size 'f' = 1 ∧
      Char.utf8Size '=' = 1 := by decide
  simp only [Capture.text, byteLength_append, byteLength_cons, byteLength_nil, hq, hh.1, hh.2.1, hh.2.2.1, hh.2.2.2.1,
    hh.2.2.2.2]
  omega

theorem assemble_size (hs : Serialises crate) (upstreams : RegistryOrigins) (origin tail : Str) {ms : List Capture}
    (hok : ∀ m ∈ ms, m.Ok) :
    8 * byteLength (assemble (ms.map (Capture.map (rewritePypiHref crate upstreams origin))) tail) ≤
      (8 + (byteLength origin + rewritePrefixLen)) * byteLength (assemble ms tail) := by
  induction ms with
  | nil =>
    simp only [assemble, List.map_nil, List.flatMap_nil, List.nil_append]
    exact Nat.mul_le_mul_right _ (by omega)
  | cons m ms ih =>
    have hrest := ih fun m' hm => hok m' (List.mem_cons_of_mem _ hm)
    have hm := capture_size m (hok m List.mem_cons_self).quote
    have hm' := capture_size (m.map (rewritePypiHref crate upstreams origin)) (hok m List.mem_cons_self).quote
    have hvalue := rewritePypiHref_size hs upstreams origin m.value
    have hpos : 1 ≤ byteLength m.value :=
      Nat.le_trans (List.length_pos_of_ne_nil (hok m List.mem_cons_self).ne_nil) (length_le_byteLength _)
    have horigin := Nat.le_mul_of_pos_right (byteLength origin) hpos
    have hold : byteLength (assemble (m :: ms) tail) = byteLength (m.gap ++ m.text) + byteLength (assemble ms tail) := by
      simp [assemble, Nat.add_assoc]
    have hnew : byteLength (assemble ((m :: ms).map (Capture.map (rewritePypiHref crate upstreams origin))) tail) =
        byteLength ((m.map (rewritePypiHref crate upstreams origin)).gap ++
          (m.map (rewritePypiHref crate upstreams origin)).text) +
        byteLength (assemble (ms.map (Capture.map (rewritePypiHref crate upstreams origin))) tail) := by
      simp [assemble, Nat.add_assoc]
    rw [hold, hnew, hm, hm']
    simp only [Capture.map, rewritePrefixLen] at hrest ⊢
    simp only [Nat.add_mul, Nat.mul_add] at hrest ⊢
    omega

theorem divCeil_spec (n : Nat) {d : Nat} (hd : 0 < d) : n ≤ d * divCeil n d := by
  have := Nat.div_add_mod (n + (d - 1)) d
  have := Nat.mod_lt (n + (d - 1)) hd
  unfold divCeil
  omega

/-- What grows by a part of its length fits the bound. -/
theorem le_rewriteBound {d inputLen outputLen originLen : Nat} (hd : 0 < d) (hmax : outputLen ≤ maxMetadataBodyLen)
    (h : d * outputLen ≤ (d + (originLen + rewritePrefixLen)) * inputLen) :
    outputLen ≤ rewriteBound inputLen d originLen := by
  refine Nat.le_min.2 ⟨Nat.le_of_mul_le_mul_left (Nat.le_trans h ?_) hd, hmax⟩
  have hceil := Nat.mul_le_mul_right (originLen + rewritePrefixLen) (divCeil_spec inputLen hd)
  rw [Nat.add_mul, Nat.mul_add, Nat.mul_comm (originLen + rewritePrefixLen) inputLen, ← Nat.mul_assoc]
  exact Nat.add_le_add_left hceil _

/-- An HTML body is rewritten within its bound. -/
theorem pypi_covered (hs : Serialises crate) {body out : List UInt8}
    (hout : rewritePypiHtml crate upstreams origin body maxMetadataBodyLen = .ok out) :
    out.length ≤ rewriteBound body.length "/simple/".length (utf8 origin).length := by
  cases hutf : fromUtf8 body with
  | none => simp [rewritePypiHtml, hutf] at hout
  | some input =>
    rw [fromUtf8_some hutf, rewritePypiHtml_eq] at hout
    split at hout
    · next hfit =>
      cases hout
      have hinput := leftmost_input input
      have hsize := assemble_size hs upstreams origin (hrefCaptures input).2 hinput.ok
      rw [← hinput.assemble_eq] at hsize
      rw [fromUtf8_some hutf, utf8_byteLength input, utf8_byteLength origin, utf8_byteLength]
      rw [utf8_byteLength] at hfit
      exact le_rewriteBound (by decide) (Nat.le_trans hfit (Nat.min_le_right _ _)) hsize
    · cases hout

/-! ## npm documents -/

theorem npmTarget_some {input path : Str} (h : npmTarget crate .default input = some path) :
    ∃ url, crate.parse input = some url ∧ url.host = some "registry.npmjs.org".toList ∧
      canonicalRewritePath url.path = some path := by
  obtain ⟨url, hurl, hpath⟩ := Option.bind_eq_some_iff.1 h
  split at hpath
  · cases hpath
  · next hhost =>
    refine ⟨url, hurl, ?_, hpath⟩
    simp only [Bool.or_eq_true, Bool.and_eq_true, Bool.not_eq_true', decide_eq_true_eq, not_or, not_and] at hhost
    by_cases hm : matchesOrigin url RegistryOrigins.default.npm.url = true
    · simp only [matchesOrigin, Bool.and_eq_true, decide_eq_true_eq] at hm
      exact hm.1.2
    · exact not_not.1 (hhost.1.1.1.1 (Bool.eq_false_iff.2 hm))

/-- Without an escaped character a text is printed as it is. -/
theorem printed_plain {s : Str} (h : ∀ c ∈ s, c ≠ '"' ∧ c ≠ '\\' ∧ ¬ c < ' ') :
    s.flatMap Json.escape = s := by
  induction s with
  | nil => rfl
  | cons c s ih =>
    obtain ⟨hquote, hback, hcontrol⟩ := h c List.mem_cons_self
    rw [List.flatMap_cons, ih fun d hd => h d (List.mem_cons_of_mem _ hd), Json.escape, if_neg hquote, if_neg hback,
      if_neg hcontrol]
    rfl

/-- A rewritten link's path has no character that JSON escapes. -/
theorem rewritten_plain {url : Url} {input path : Str} (hurl : crate.parse input = some url) (hhost : url.host ≠ none)
    (hpath : canonicalRewritePath url.path = some path) : ∀ c ∈ path, c ≠ '"' ∧ c ≠ '\\' ∧ ¬ c < ' ' := by
  intro c hc
  have hplain := plainChar_iff.1 ((canonicalRewritePath_length hpath).2 c hc)
  refine ⟨?_, ?_, ?_⟩
  · rintro rfl
    have := quote_of_rewritePath (.inl rfl) hpath hc
    have henc := (crate.parse_path hurl hhost _ this).2.2.1
    rw [crate.encodes_quote] at henc
    cases henc
  · rintro rfl
    exact hplain.2.2.2.2 rfl
  · intro hlt
    rw [Char.lt_def, UInt32.lt_iff_toNat_lt] at hlt
    change c.toNat < 32 at hlt
    omega

/-- A link is rewritten into one that is printed in these bytes at most. -/
theorem npm_link_size (hs : Serialises crate) (horigin : ∀ c ∈ origin, ¬ c < ' ') {url r : Str}
    (h : rewriteNpmTarball crate .default origin url = some r) :
    byteLength (Json.printString r) + 45 ≤ 2 * byteLength origin + 3 * byteLength url ∧ 20 ≤ byteLength url := by
  obtain ⟨path, hpath, rfl⟩ := Option.map_eq_some_iff.1 h
  obtain ⟨u, hu, hhost, hrewrite⟩ := npmTarget_some hpath
  obtain ⟨hlen, hplain⟩ := canonicalRewritePath_length hrewrite
  have hregistry := hs.registry hu hhost
  rw [utf8_byteLength, minRewritableUrlLen] at hregistry
  have hprefix : byteLength ("/npm/tarballs/".toList.flatMap Json.escape) = 14 := by decide +kernel
  have hprinted := Json.byteLength_printString_le horigin
  rw [Json.byteLength_printString] at hprinted
  have hescape := printed_plain (rewritten_plain hu (by rw [hhost]; exact Option.some_ne_none _) hrewrite)
  rw [Json.byteLength_printString, List.flatMap_append, List.flatMap_append, byteLength_append, byteLength_append,
    hprefix, hescape, byteLength_plain hplain]
  omega

theorem links_grow (hs : Serialises crate) (horigin : ∀ c ∈ origin, ¬ c < ' ') (hlong : 24 ≤ byteLength origin) :
    LinksGrow crate .default origin (byteLength origin + rewritePrefixLen) := by
  intro url r h
  obtain ⟨hsize, hurl⟩ := npm_link_size hs horigin h
  obtain ⟨a, ha⟩ := Nat.exists_eq_add_of_le hlong
  obtain ⟨b, hb⟩ := Nat.exists_eq_add_of_le hurl
  rw [ha, hb] at hsize ⊢
  simp only [rewritePrefixLen, Nat.add_mul, Nat.mul_add]
  omega

/-- With an origin of twenty-four bytes an npm document is rewritten within its bound. -/
theorem npm_covered (hs : Serialises crate) (horigin : ∀ c ∈ origin, ¬ c < ' ') (hlong : 24 ≤ byteLength origin)
    {body out : List UInt8} (hout : rewriteNpmJson crate .default origin body maxMetadataBodyLen = .ok out) :
    out.length ≤ rewriteBound body.length minRewritableUrlLen (utf8 origin).length := by
  obtain ⟨hsize, hmax⟩ := rewriteNpmJson_size (links_grow hs horigin hlong) hout
  rw [utf8_byteLength]
  exact le_rewriteBound (by decide) (Nat.le_trans hmax (Nat.min_le_right _ _)) hsize

/-! ### A link that the bound has no room for -/

/-- Escaped braces. -/
def braces (n : Nat) : Str := (List.replicate n "%7B".toList).flatten

theorem braces_succ (n : Nat) : braces (n + 1) = '%' :: '7' :: 'B' :: braces n := rfl

theorem mem_braces {n : Nat} {c : Char} (h : c ∈ braces n) : c = '%' ∨ c = '7' ∨ c = 'B' := by
  obtain ⟨piece, hp, hc⟩ := List.mem_flatten.1 h
  rw [(List.mem_replicate.1 hp).2] at hc
  simpa using hc

theorem percentEncode_braces (h : crate.encodes '\x7b' = true) (n : Nat) :
    percentEncode crate.encodes (List.replicate n '\x7b') = braces n := by
  induction n with
  | zero => rfl
  | succ n ih =>
    have hone : percentEncode crate.encodes ['\x7b'] = "%7B".toList := by
      simp only [percentEncode, List.flatMap_cons, List.flatMap_nil, h, if_true]
      decide
    rw [List.replicate_succ, ← List.singleton_append, percentEncode, List.flatMap_append]
    exact (congrArg₂ (· ++ ·) hone ih)

theorem rewriteBytes_braces (n : Nat) : rewriteBytes (braces n) = some (braces n) := by
  induction n with
  | zero => rfl
  | succ n ih =>
    have h7 : hexValue '7' = some 7 := by decide
    have hB : hexValue 'B' = some 11 := by decide
    rw [braces_succ, rewriteBytes]
    simp only [h7, hB, ih, Option.map_some]
    rfl

theorem canonicalBytes_braces (n : Nat) : canonicalBytes (braces n) = true := by
  induction n with
  | zero => rfl
  | succ n ih =>
    have h7 : hexValue '7' = some 7 := by decide
    have hB : hexValue 'B' = some 11 := by decide
    rw [braces_succ, canonicalBytes]
    simp only [h7, hB, ih]
    decide

theorem canonicalRewritePath_braces (n : Nat) : canonicalRewritePath ('/' :: braces (n + 1)) = some (braces (n + 1)) := by
  have hsegment : canonicalSegment (braces (n + 1)) = true := by
    have hascii : (braces (n + 1)).any (fun c => 127 < c.toNat) = false := by
      rw [List.any_eq_false]
      intro c hc
      rcases mem_braces hc with rfl | rfl | rfl <;> decide
    rw [canonicalSegment, hascii, canonicalBytes_braces, braces_succ]
    simp
  have hpath : canonicalPath (['/'].intercalate [braces (n + 1)]) = true :=
    canonicalPath_of_segments (List.cons_ne_nil _ _) (by simpa using hsegment)
  rw [List.intercalate_singleton] at hpath
  rw [canonicalRewritePath, rewriteBytes_braces, Option.filter_some, if_pos hpath]

/-- The link to a package of `n` braces, on the registry. -/
def braceLink (n : Nat) : Str := "https://registry.npmjs.org/".toList ++ List.replicate n '\x7b'

/-- A link to the registry itself keeps its path. -/
theorem npmTarget_registry {input : Str} {url : Url} (hurl : crate.parse input = some url)
    (hhost : url.host = some "registry.npmjs.org".toList)
    (hclean : url.username = [] ∧ url.password = none ∧ url.query = none ∧ url.fragment = none) :
    npmTarget crate .default input = canonicalRewritePath url.path := by
  have hif : (!matchesOrigin url RegistryOrigins.default.npm.url &&
      decide (url.host ≠ some "registry.npmjs.org".toList) || decide (url.username ≠ []) || url.password.isSome ||
      url.query.isSome || url.fragment.isSome) = false := by
    rw [hclean.1, hclean.2.1, hclean.2.2.1, hclean.2.2.2, decide_eq_false (not_not.2 hhost)]
    simp
  rw [npmTarget, hurl, Option.bind_some, hif]
  exact if_neg Bool.false_ne_true

theorem rewrite_braceLink (hs : Serialises crate) (origin : Str) (n : Nat) :
    rewriteNpmTarball crate .default origin (braceLink (n + 1)) =
      some (origin ++ "/npm/tarballs/".toList ++ braces (n + 1)) := by
  have hurl := hs.braces (n + 1)
  rw [percentEncode_braces hs.brace] at hurl
  have htarget : npmTarget crate .default (braceLink (n + 1)) = some (braces (n + 1)) :=
    (npmTarget_registry hurl rfl ⟨rfl, rfl, rfl, rfl⟩).trans (canonicalRewritePath_braces n)
  rw [rewriteNpmTarball, htarget, Option.map_some]

/-- The document `{"dist":{"tarball":"…"}}`. -/
def linkMember (url : Str) : Json.Member := Json.printed "tarball".toList (Json.printString url) (.str (codes url))

def distMember (url : Str) : Json.Member :=
  Json.printed "dist".toList ('\x7b' :: Json.compact [linkMember url]) (Json.ofMembers [linkMember url])

def linkDocument (url : Str) : Str := '\x7b' :: Json.compact [distMember url]

theorem ok_of_denotes {key raw : Str} {v : Json} (h : Json.Denotes raw v) : ∀ m ∈ [Json.printed key raw v], m.Ok := by
  intro m hm
  rw [List.mem_singleton] at hm
  exact hm ▸ Json.printed_ok h

theorem denotes_dist (url : Str) : Json.Denotes ('\x7b' :: Json.compact [linkMember url]) (Json.ofMembers [linkMember url]) :=
  (Json.denotes_compact (ok_of_denotes (Json.denotes_print url))).1

theorem denotes_linkDocument (url : Str) : Json.Denotes (linkDocument url) (Json.ofMembers [distMember url]) :=
  (Json.denotes_compact (ok_of_denotes (denotes_dist url))).1

/-- An object of one field, its value edited. -/
theorem objectText_single (edit : Str → Str → Str) {key raw : Str} {v : Json} (h : Json.Denotes raw v) (v' : Json) :
    objectText edit ('\x7b' :: Json.compact [Json.printed key raw v]) =
      '\x7b' :: Json.compact [Json.printed key (edit key raw) v'] := by
  have hchars : Json.chars (key.map Char.toNat) = some key := Json.chars_eq_some.2 rfl
  have hfields : fieldsOf ('\x7b' :: Json.compact [Json.printed key raw v]) = some [(key, raw)] := by
    rw [fieldsOf, (Json.denotes_compact (ok_of_denotes h)).2]
    simp [Json.printed, hchars, sortedMap, insertSorted]
  rw [objectText, hfields]
  exact congrArg ('\x7b' :: ·) (fieldsText_compact [(key, edit key raw)] fun _ => v')

/-- The bytes of an object of one field. -/
theorem single_size (key raw : Str) (v : Json) :
    byteLength ('\x7b' :: Json.compact [Json.printed key raw v]) =
      byteLength (Json.printString key) + byteLength raw + 3 := by
  have hbrace : Char.utf8Size '\x7b' = 1 := by decide
  rw [byteLength_cons, hbrace, Json.byteLength_compact]
  simp only [List.map_singleton, List.sum_singleton, Json.Member.size, Json.printed]
  omega

theorem linkDocument_size (url : Str) : byteLength (linkDocument url) = byteLength (Json.printString url) + 21 := by
  have htarball : byteLength (Json.printString "tarball".toList) = 9 := by decide +kernel
  have hdist : byteLength (Json.printString "dist".toList) = 6 := by decide +kernel
  rw [linkDocument, distMember, single_size, linkMember, single_size, htarball, hdist]
  omega

theorem denotes_codes (url : Str) : Json.Denotes (Json.printString url) (.str (codes url)) := Json.denotes_print url

/-- The tarball of a link that is rewritten. -/
theorem rewrittenTarball_link {url r : Str} (h : rewriteNpmTarball crate upstreams origin url = some r) :
    rewrittenTarball crate upstreams origin "tarball".toList (Json.printString url) = some r := by
  have hfield : stringField (Json.printString url) = some url := by
    rw [stringField, Json.stringOf_eq (denotes_codes url)]
    exact Json.chars_eq_some.2 rfl
  rw [rewrittenTarball, if_pos rfl, hfield, Option.bind_some, h]

theorem distText_link {url r : Str} (h : rewriteNpmTarball crate upstreams origin url = some r) :
    distText crate upstreams origin ('\x7b' :: Json.compact [linkMember url]) = '\x7b' :: Json.compact [linkMember r] := by
  unfold distText linkMember
  rw [objectText_single _ (denotes_codes url) (.str (codes r)), rewrittenTarball_link h, Option.map_some, Option.getD_some]

/-- A document of one link is rewritten into the document of the rewritten link. -/
theorem npmText_linkDocument {url r : Str} (h : rewriteNpmTarball crate upstreams origin url = some r) :
    npmText crate upstreams origin (linkDocument url) = linkDocument r := by
  unfold npmText packageText linkDocument distMember
  rw [objectText_single _ (denotes_dist url) (Json.ofMembers [linkMember r])]
  simp only [if_true, distText_link h]

theorem byteLength_braceLink (n : Nat) : byteLength (Json.printString (braceLink n)) = n + 29 := by
  have hplain : ∀ c ∈ braceLink n, c ≠ '"' ∧ c ≠ '\\' ∧ ¬ c < ' ' := by
    intro c hc
    rcases List.mem_append.1 hc with hc | hc
    · have hall : ∀ c ∈ "https://registry.npmjs.org/".toList, c ≠ '"' ∧ c ≠ '\\' ∧ ¬ c < ' ' := by
        simp
      exact hall c hc
    · rw [(List.mem_replicate.1 hc).2]
      decide
  have hbraces : byteLength (List.replicate n '\x7b') = n := by
    rw [byteLength_ascii fun c hc => by rw [(List.mem_replicate.1 hc).2]; decide, List.length_replicate]
  have hhost : byteLength "https://registry.npmjs.org/".toList = 27 := by decide +kernel
  have hlen : byteLength (braceLink n) = 27 + n := (byteLength_append _ _).trans (congrArg₂ (· + ·) hhost hbraces)
  rw [Json.byteLength_printString, printed_plain hplain, hlen]
  omega

theorem byteLength_braces (n : Nat) : byteLength (braces n) = 3 * n := by
  induction n with
  | zero => rfl
  | succ n ih =>
    have h : Char.utf8Size '%' = 1 ∧ Char.utf8Size '7' = 1 ∧ Char.utf8Size 'B' = 1 := by decide
    simp only [braces_succ, byteLength_cons, ih, h.1, h.2.1, h.2.2]
    omega

/-- With a shorter origin there is a document that outgrows its bound. -/
theorem npm_uncovered (hs : Serialises crate) (horigin : ∀ c ∈ origin, ¬ c < ' ') (hshort : byteLength origin < 24) :
    ∃ out, rewriteNpmJson crate .default origin (utf8 (linkDocument (braceLink (49 * byteLength origin + 1365))))
        maxMetadataBodyLen = .ok out ∧
      rewriteBound (utf8 (linkDocument (braceLink (49 * byteLength origin + 1365)))).length minRewritableUrlLen
        (utf8 origin).length < out.length := by
  generalize hn : 49 * byteLength origin + 1364 = n
  have hn' : 49 * byteLength origin + 1365 = n + 1 := by omega
  rw [hn']
  have hlink := rewrite_braceLink hs origin n
  generalize hr : origin ++ "/npm/tarballs/".toList ++ braces (n + 1) = r at hlink
  have hprefix : byteLength "/npm/tarballs/".toList = 14 := by decide +kernel
  have hlen : byteLength r = byteLength origin + 14 + 3 * (n + 1) := by
    rw [← hr, byteLength_append, byteLength_append, hprefix, byteLength_braces]
  have hcontrol : ∀ c ∈ r, ¬ c < ' ' := by
    intro c hc
    rw [← hr, List.mem_append, List.mem_append] at hc
    rcases hc with (hc | hc) | hc
    · exact horigin c hc
    · have hall : ∀ c ∈ "/npm/tarballs/".toList, ¬ c < ' ' := by simp
      exact hall c hc
    · rcases mem_braces hc with rfl | rfl | rfl <;> decide
  have hlow := Json.byteLength_le_printString r
  have hhigh := Json.byteLength_printString_le hcontrol
  have hin := linkDocument_size (braceLink (n + 1))
  have hout := linkDocument_size r
  rw [byteLength_braceLink] at hin
  have hmax : 20000 ≤ maxMetadataBodyLen := by decide
  refine ⟨utf8 (linkDocument r), ?_, ?_⟩
  · rw [rewriteNpmJson_eq crate .default origin (denotes_linkDocument (braceLink (n + 1))).text,
      npmText_linkDocument hlink, if_pos]
    rw [utf8_byteLength, Nat.min_self]
    omega
  · rw [utf8_byteLength, utf8_byteLength, utf8_byteLength, hin, hout]
    have hgrowth : (n + 51) + divCeil (n + 51) 20 * (byteLength origin + 16) < byteLength (Json.printString r) + 21 := by
      generalize byteLength origin = o at hn hlen hshort
      unfold divCeil
      interval_cases o <;> omega
    exact Nat.lt_of_le_of_lt (Nat.min_le_left _ _) hgrowth

/-! ## Both representations -/

theorem port_printable (port : Option Nat) :
    ∀ c ∈ port.elim [] (fun port => ':' :: (Nat.repr port).toList), ¬ c < ' ' := by
  intro c hc hlt
  rw [Char.lt_def, UInt32.lt_iff_toNat_lt] at hlt
  change c.toNat < 32 at hlt
  cases port with
  | none => cases hc
  | some port =>
    rcases List.mem_cons.1 hc with rfl | hc
    · exact absurd hlt (by decide)
    · have := repr_digits port c hc
      omega

theorem ValidOrigin.printable (hs : Serialises crate) (h : ValidOrigin crate origin) : ∀ c ∈ origin, ¬ c < ' ' := by
  obtain ⟨url, hurl, h⟩ := Option.bind_eq_some_iff.1 h
  split at h
  · cases h
  · next hscheme =>
    obtain ⟨host, hhost, h⟩ := Option.bind_eq_some_iff.1 h
    split at h
    · cases h
    · split at h
      · cases h
      · rw [← Option.some.inj h]
        intro c hc
        simp only [List.mem_append] at hc
        rcases hc with ((hc | hc) | hc) | hc
        · have hall : ∀ c ∈ "http".toList ++ "https".toList, ¬ c < ' ' := by simp
          by_cases hhttp : url.scheme = "http".toList
          · exact hall c (List.mem_append_left _ (hhttp ▸ hc))
          · have hhttps := not_not.1 (not_and.1 hscheme hhttp)
            exact hall c (List.mem_append_right _ (hhttps ▸ hc))
        · have hall : ∀ c ∈ "://".toList, ¬ c < ' ' := by simp
          exact hall c hc
        · exact hs.host hurl hhost c hc
        · exact port_printable _ c hc

/-- Whatever a body is rewritten into fits what was reserved for it, next to the body. -/
def Covered (crate : UrlCrate) (rewrite : MetadataRewrite) : Prop :=
  ∀ body out, rewrite.run crate .default body = .ok out →
    out.length ≤ rewrite.outputBound body.length ∧
      body.length + out.length ≤ rewrite.workingSet body.length (rewrite.outputBound body.length)

/-- **Reservation coverage.** With an origin that is accepted, what an HTML
body is rewritten into fits the bound it was reserved by, and so does what an
npm document is rewritten into exactly if the origin has 24 bytes. -/
theorem rewrite_reservation (hs : Serialises crate) (horigin : ValidOrigin crate origin) :
    Covered crate (.pypi origin) ∧ (Covered crate (.npm origin) ↔ 24 ≤ (utf8 origin).length) := by
  have hprintable := horigin.printable hs
  refine ⟨fun body out hout => ?_, fun hcovered => ?_, fun hlong body out hout => ?_⟩
  · simp only [MetadataRewrite.run] at hout
    have hbound := pypi_covered hs hout
    simp only [MetadataRewrite.outputBound, MetadataRewrite.workingSet]
    exact ⟨hbound, Nat.add_le_add_left hbound _⟩
  · by_contra hshort
    rw [utf8_byteLength, Nat.not_le] at hshort
    obtain ⟨out, hout, hover⟩ := npm_uncovered hs hprintable hshort
    have hfits := (hcovered _ out (by simpa only [MetadataRewrite.run] using hout)).1
    simp only [MetadataRewrite.outputBound] at hfits
    exact Nat.not_lt.2 hfits hover
  · rw [utf8_byteLength] at hlong
    simp only [MetadataRewrite.run] at hout
    have hbound := npm_covered hs hprintable hlong hout
    simp only [MetadataRewrite.outputBound, MetadataRewrite.workingSet]
    exact ⟨hbound, Nat.add_le_add (Nat.le_mul_of_pos_right _ (by decide)) hbound⟩

/-- An npm document, whatever the origin, is rewritten within its working set, next to the body. -/
theorem npm_working (hs : Serialises crate) (horigin : ∀ c ∈ origin, ¬ c < ' ') {body out : List UInt8}
    (hout : rewriteNpmJson crate .default origin body maxMetadataBodyLen = .ok out) :
    body.length + out.length ≤ body.length * 12 + rewriteBound body.length minRewritableUrlLen (utf8 origin).length := by
  have hgrow : LinksGrow crate .default origin (236 + byteLength origin) := by
    intro url r h
    obtain ⟨hsize, hurl⟩ := npm_link_size hs horigin h
    have := Nat.mul_le_mul_left (byteLength origin) hurl
    simp only [Nat.add_mul, Nat.mul_add]
    omega
  obtain ⟨hsize, hmax⟩ := rewriteNpmJson_size hgrow hout
  have hlimit : out.length ≤ maxMetadataBodyLen := Nat.le_trans hmax (Nat.min_le_right _ _)
  have hceil := Nat.mul_le_mul_right (byteLength origin + rewritePrefixLen)
    (divCeil_spec body.length (d := minRewritableUrlLen) (by decide))
  simp only [minRewritableUrlLen, rewritePrefixLen, Nat.mul_assoc] at hceil
  rw [utf8_byteLength, rewriteBound, ← Nat.add_min_add_left]
  simp only [minRewritableUrlLen, rewritePrefixLen]
  refine Nat.le_min.2 ⟨?_, by omega⟩
  simp only [Nat.mul_add, Nat.add_mul] at hceil hsize ⊢
  rw [Nat.mul_comm (byteLength origin)] at hsize
  omega

/-- **Working set.** Whatever a body is rewritten into fits the memory reserved
for the rewrite, next to the body, also where it outgrows its bound. A body
that is not rewritten is passed on itself. -/
theorem rewritten_fits (hs : Serialises crate) (horigin : ValidOrigin crate origin) {rewrite : MetadataRewrite}
    (hrewrite : rewrite ∈ [.none, .npm origin, .pypi origin]) {body out : List UInt8}
    (hout : rewrite.run crate .default body = .ok out) :
    out.length ≤ rewrite.workingSet body.length (rewrite.outputBound body.length) ∧
      (rewrite = .none ∧ out = body ∨
        body.length + out.length ≤ rewrite.workingSet body.length (rewrite.outputBound body.length)) := by
  simp only [List.mem_cons, List.not_mem_nil, or_false] at hrewrite
  rcases hrewrite with rfl | rfl | rfl
  · simp only [MetadataRewrite.run, Except.ok.injEq] at hout
    rw [hout]
    exact ⟨Nat.le_refl _, .inl ⟨rfl, rfl⟩⟩
  · simp only [MetadataRewrite.run] at hout
    simp only [MetadataRewrite.outputBound, MetadataRewrite.workingSet]
    have hfits := npm_working hs (horigin.printable hs) hout
    exact ⟨Nat.le_trans (Nat.le_add_left _ _) hfits, .inr hfits⟩
  · simp only [MetadataRewrite.run] at hout
    simp only [MetadataRewrite.outputBound, MetadataRewrite.workingSet]
    have hfits := Nat.add_le_add_left (pypi_covered hs hout) body.length
    exact ⟨Nat.le_trans (Nat.le_add_left _ _) hfits, .inr hfits⟩

end

/-! ## The plain crate serialises -/

namespace PlainUrls

theorem hosted_host {scheme host path : Str} {u : Url} (h : hosted scheme host path = some u) :
    ∀ c ∈ host, hostChar c = true := by
  unfold hosted at h
  split at h
  · next hc =>
    simp only [Bool.and_eq_true] at hc
    exact List.all_eq_true.1 hc.1.1.2
  · cases h

theorem hostChar_printable {c : Char} (h : hostChar c = true) : ¬ c < ' ' := by
  intro hlt
  rw [Char.lt_def, UInt32.lt_iff_toNat_lt] at hlt
  change c.toNat < 32 at hlt
  simp only [hostChar, Char.isAlphanum, Char.isAlpha, Char.isUpper, Char.isLower, Char.isDigit, Bool.or_eq_true,
    Bool.and_eq_true, decide_eq_true_eq, ge_iff_le, UInt32.le_iff_toNat_le] at h
  rcases h with (((h | h) | h) | rfl) | rfl
  · have : 65 ≤ c.toNat := h.1
    omega
  · have : 97 ≤ c.toNat := h.1
    omega
  · have : 48 ≤ c.toNat := h.1
    omega
  · exact absurd hlt (by decide)
  · exact absurd hlt (by decide)

/-- The text of a URL with a host is its scheme, its host and its path. -/
theorem hosted_length {v rest : Str} {u : Url} (hweb : web (v.takeWhile fun c => c ≠ ':') = true)
    (hrest : (behindScheme v).dropPrefix? "//".toList = some rest)
    (hu : hosted (v.takeWhile fun c => c ≠ ':') (rest.takeWhile fun c => c ≠ '/') (rest.dropWhile fun c => c ≠ '/') =
      some u) {host : Str} (hhost : u.host = some host) {n : Nat} (hn : host.length = n) :
    u.path.length + 3 * (n + 6) ≤ 3 * v.length + 1 := by
  obtain ⟨hplain, rfl⟩ := hosted_some hu
  cases hhost
  subst hn
  obtain ⟨start, hstart, hpre⟩ := List.dropPrefix?_eq_some_iff.1 hrest
  have hslashes : start = "//".toList := by simpa using hpre
  have hscheme : 4 ≤ (v.takeWhile fun c => c ≠ ':').length := by
    simp only [web, Bool.or_eq_true, decide_eq_true_eq] at hweb
    rcases hweb with h | h <;> rw [h] <;> decide
  have hjoin := congrArg List.length (List.takeWhile_append_dropWhile (p := fun c => decide (c ≠ ':')) (l := v))
  have hsplit := congrArg List.length (List.takeWhile_append_dropWhile (p := fun c => decide (c ≠ '/')) (l := rest))
  have hbehind := congrArg List.length hstart
  simp only [behindScheme, List.length_drop, List.length_append, hslashes] at hjoin hsplit hbehind
  have htwo : "//".toList.length = 2 := by decide
  have hpath : (percentEncode encodes (rest.dropWhile fun c => c ≠ '/')).length ≤
      3 * (rest.dropWhile fun c => c ≠ '/').length :=
    percentEncode_length_ascii _ fun c hc => plainChar_ascii (List.all_eq_true.1 hplain c hc)
  simp only []
  split
  · rw [List.length_singleton]
    omega
  · omega

/-- What comes before the first of a character. -/
theorem takeWhile_until {p : Char → Bool} {before : Str} {c : Char} (rest : Str) (hbefore : ∀ d ∈ before, p d = true)
    (hc : p c = false) : (before ++ c :: rest).takeWhile p = before ∧ (before ++ c :: rest).dropWhile p = c :: rest := by
  refine ⟨?_, ?_⟩
  · rw [List.takeWhile_append_of_pos hbefore, List.takeWhile_cons_of_neg (by simp [hc]), List.append_nil]
  · rw [List.dropWhile_append_of_pos hbefore, List.dropWhile_cons_of_neg (by simp [hc])]

/-- A web URL is read as its host and its path. -/
theorem parse_https {host path : Str} {u : Url} (hhost : ∀ c ∈ host, decide (c ≠ '/') = true)
    (hu : hosted "https".toList host ('/' :: path) = some u) :
    parse ("https".toList ++ ':' :: ("//".toList ++ (host ++ '/' :: path))) = some u := by
  have hs : ∀ rest, hasScheme ("https".toList ++ ':' :: rest) = true := by
    intro rest
    simp [hasScheme, schemeChar]
  have hscheme : ∀ c ∈ "https".toList, decide (c ≠ ':') = true := by simp
  have hslashes := takeWhile_until path hhost (decide_eq_false (not_not.2 (rfl : '/' = '/')))
  have hcolon := takeWhile_until ("//".toList ++ (host ++ '/' :: path)) hscheme
    (decide_eq_false (not_not.2 (rfl : ':' = ':')))
  unfold parse
  rw [hcolon.1, hcolon.2, hs]
  simp only [Bool.not_true, Bool.false_eq_true, if_false, List.drop_succ_cons, List.drop_zero]
  rw [if_pos (by decide), List.dropPrefix?_append_of_beq _ (by simp), Option.bind_some, hslashes.1, hslashes.2, hu]

theorem hosted_braces (n : Nat) : hosted "https".toList "registry.npmjs.org".toList ('/' :: List.replicate n '\x7b') =
    some ⟨"https".toList, [], none, some "registry.npmjs.org".toList, none,
      '/' :: percentEncode encodes (List.replicate n '\x7b'), none, none⟩ := by
  have hbrace : ∀ c ∈ List.replicate n '\x7b', c = '\x7b' := fun c hc => (List.mem_replicate.1 hc).2
  have hplain : ('/' :: List.replicate n '\x7b').all plainChar = true := by
    rw [List.all_cons, Bool.and_eq_true, List.all_eq_true]
    exact ⟨by decide, fun c hc => hbrace c hc ▸ by decide⟩
  have hsplit : ('/' :: List.replicate n '\x7b').splitOn '/' = [[], List.replicate n '\x7b'] := by
    rw [List.splitOn_cons_eq_if_modifyHead, if_pos (by simp), List.splitOn_eq_singleton fun h => by
      have := hbrace _ h
      cases this]
  have hdots : dotSegment (List.replicate n '\x7b') = false := by
    cases n with
    | zero => decide
    | succ n =>
      rw [List.replicate_succ, dotSegment, readDots_cons (by decide)]
      simp
  have hsegments : ([[], List.replicate n '\x7b'].all fun s => !dotSegment s) = true := by
    rw [List.all_cons, List.all_cons, hdots]
    decide
  have hhost : "registry.npmjs.org".toList.all hostChar = true := by decide
  rw [hosted, hplain, hsplit, hsegments, hhost]
  rfl

theorem parse_braces (n : Nat) : parse ("https://registry.npmjs.org/".toList ++ List.replicate n '\x7b') =
    some ⟨"https".toList, [], none, some "registry.npmjs.org".toList, none,
      '/' :: percentEncode encodes (List.replicate n '\x7b'), none, none⟩ := by
  have htext : "https://registry.npmjs.org/".toList ++ List.replicate n '\x7b' = "https".toList ++ ':' ::
      ("//".toList ++ ("registry.npmjs.org".toList ++ '/' :: List.replicate n '\x7b')) := by simp
  rw [htext]
  exact parse_https (by simp) (hosted_braces n)

end PlainUrls

open PlainUrls in
theorem plainUrls_serialises : Serialises plainUrls where
  host := by
    intro v u host h hhost c hc
    obtain ⟨-, -, ⟨-, hnone, -⟩ | ⟨rest, -, -, hu⟩⟩ := parse_some h
    · rw [hnone] at hhost
      cases hhost
    · have hchars := hosted_host hu
      obtain ⟨-, rfl⟩ := hosted_some hu
      cases hhost
      exact hostChar_printable (hchars c hc)
  registry := by
    intro v u h hhost
    have hv := PlainUrls.utf8_length v
    obtain ⟨-, hfragment, ⟨-, hnone, -⟩ | ⟨rest, hweb, hrest, hu⟩⟩ := parse_some h
    · rw [hnone] at hhost
      cases hhost
    · have hlen := hosted_length hweb hrest hu hhost (n := 18) (by decide)
      clear hhost hu
      rw [hfragment, Option.getD_none, List.length_nil, minRewritableUrlLen]
      omega
  fragment := by
    intro v u fragment h hf
    rw [(parse_some h).2.1] at hf
    cases hf
  brace := rfl
  braces := parse_braces

/-- An origin of thirty bytes. -/
theorem rewrite_reservation_long : Covered plainUrls (.npm "https://packages.mirror.example".toList) :=
  (rewrite_reservation plainUrls_serialises (by decide +kernel)).2.2 (by decide +kernel)

/-- With an origin of twenty-two bytes a link of 2443 braces outgrows what was reserved. -/
theorem mirror_uncovered :
    parsePublicBaseUrl plainUrls "https://mirror.example".toList = some "https://mirror.example".toList ∧
      ∃ out, (MetadataRewrite.npm "https://mirror.example".toList).run plainUrls .default
          (utf8 (linkDocument (braceLink 2443))) = .ok out ∧
        (MetadataRewrite.npm "https://mirror.example".toList).outputBound (utf8 (linkDocument (braceLink 2443))).length <
          out.length := by
  have hlen : byteLength "https://mirror.example".toList = 22 := by decide +kernel
  refine ⟨by decide +kernel, ?_⟩
  have hplain : ∀ c ∈ "https://mirror.example".toList, ¬ c < ' ' := by simp
  have hover := npm_uncovered plainUrls_serialises hplain (by omega)
  rw [hlen] at hover
  exact hover

/-- Beyond its bound, the document is still within the working set. -/
theorem rewritten_fits_mirror : ∃ out,
    (MetadataRewrite.npm "https://mirror.example".toList).run plainUrls .default
      (utf8 (linkDocument (braceLink 2443))) = .ok out ∧
    (MetadataRewrite.npm "https://mirror.example".toList).outputBound (utf8 (linkDocument (braceLink 2443))).length <
      out.length ∧
    (utf8 (linkDocument (braceLink 2443))).length + out.length ≤
      (MetadataRewrite.npm "https://mirror.example".toList).workingSet (utf8 (linkDocument (braceLink 2443))).length
        ((MetadataRewrite.npm "https://mirror.example".toList).outputBound
          (utf8 (linkDocument (braceLink 2443))).length) := by
  obtain ⟨hvalid, out, hout, hover⟩ := mirror_uncovered
  have hfits := (rewritten_fits plainUrls_serialises hvalid (.tail _ (.head _)) hout).2
  refine ⟨out, hout, hover, hfits.resolve_left fun hnone => ?_⟩
  cases hnone.1

end Vampire
