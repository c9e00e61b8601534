/-
The `url` crate as the routes use it: a URL record with its parts,
and `parse` and `join` as parameters (`UrlCrate`) with the
facts of the WHATWG URL standard the routes rely on.

A registry is an http or https URL with a host, the path `/` and nothing
else, which is what both constructors of `RegistryOrigins` make.
-/
import Vampire.Lib.Percent

namespace Vampire

open Lib

/-- A Rust `str`. -/
abbrev Str := List Char

/-- `str::as_bytes` -/
def utf8 (s : Str) : List UInt8 := s.flatMap String.utf8EncodeChar

def apostrophe : Char := Char.ofNat 39

/-! ## URLs -/

/-- `url::Url` by its parts. `port` is the explicit one. -/
structure Url where
  scheme : Str
  username : Str
  password : Option Str
  host : Option Str
  port : Option Nat
  path : Str
  query : Option Str
  fragment : Option Str
  deriving DecidableEq

/-- The port a scheme has when none is written. -/
def defaultPort (scheme : Str) : Option Nat :=
  if scheme = "http".toList ∨ scheme = "ws".toList then some 80
  else if scheme = "https".toList ∨ scheme = "wss".toList then some 443
  else if scheme = "ftp".toList then some 21
  else none

/-- `Url::port_or_known_default` -/
def Url.portOrKnownDefault (url : Url) : Option Nat := url.port <|> defaultPort url.scheme

/-- `matches_origin` -/
def matchesOrigin (url base : Url) : Bool :=
  url.scheme = base.scheme && url.host = base.host && url.portOrKnownDefault = base.portOrKnownDefault

/-- A registry's origin as a URL. -/
structure Origin where
  url : Url
  scheme : url.scheme = "http".toList ∨ url.scheme = "https".toList
  host : url.host ≠ none
  path : url.path = ['/']
  username : url.username = []
  password : url.password = none
  query : url.query = none
  fragment : url.fragment = none

/-! ## Relative references -/

/-- `A-Za-z0-9-._~`, which no URL ever needs escaped. -/
def unreserved (c : Char) : Bool := c.isAlphanum || c = '-' || c = '.' || c = '_' || c = '~'

def schemeChar (c : Char) : Bool := c.isAlphanum || c = '+' || c = '-' || c = '.'

/-- The text begins with a scheme and a colon. -/
def hasScheme : Str → Bool
  | [] => false
  | c :: rest => c.isAlpha && (rest.dropWhile schemeChar).head? = some ':'

/-- Printable and none of `?`, `#` and the backslash. -/
def plainChar (c : Char) : Bool := '!' ≤ c && c ≤ '~' && c ≠ '?' && c ≠ '#' && c ≠ '\\'

/-- A segment with its escaped dots read. -/
def readDots : Str → Str
  | '%' :: '2' :: 'e' :: rest => '.' :: readDots rest
  | '%' :: '2' :: 'E' :: rest => '.' :: readDots rest
  | c :: rest => c :: readDots rest
  | [] => []

/-- A segment that URL parsing takes out of a path. -/
def dotSegment (segment : Str) : Bool := readDots segment = ['.'] || readDots segment = ['.', '.']

/-- A relative path that URL parsing changes in nothing but its escapes. -/
structure Plain (p : Str) : Prop where
  ne : p ≠ []
  head : p.head? ≠ some '/'
  chars : ∀ c ∈ p, plainChar c = true
  dots : ∀ segment ∈ p.splitOn '/', dotSegment segment = false

theorem hasScheme_false {p : Str} (h : ':' ∉ p) : hasScheme p = false := by
  cases p with
  | nil => rfl
  | cons c p =>
    rw [hasScheme, Bool.and_eq_false_iff, decide_eq_false_iff_not]
    refine .inr fun hhead => h (List.mem_cons_of_mem _ ?_)
    exact (List.dropWhile_suffix _).subset (List.mem_of_mem_head? hhead)
/-! ## The crate -/

structure UrlCrate where
  /-- `Url::parse` -/
  parse : Str → Option Url
  /-- `Url::join` -/
  join : Url → Str → Option Url
  /-- The printable characters that are escaped in a path. -/
  encodes : Char → Bool
  encodes_reserved : ∀ {c}, encodes c = true → unreserved c = false ∧ c ≠ '%' ∧ c ≠ '/'
  /-- Without a base, a reference needs a scheme. -/
  parse_schemeless : ∀ {v}, (∀ c ∈ v, ' ' < c) → hasScheme v = false → parse v = none
  /-- Nor is it a path. -/
  parse_rooted : ∀ v, parse ('/' :: v) = none
  /-- The path of a URL with a host is escaped, and ends where the query or the fragment begins. -/
  parse_path : ∀ {v u}, parse v = some u → u.host ≠ none →
    ∀ c ∈ u.path, '!' ≤ c ∧ c ≤ '~' ∧ encodes c = false ∧ c ≠ '?' ∧ c ≠ '#'
  encodes_quote : encodes '"' = true
  /-- So is the fragment. -/
  parse_fragment : ∀ {v u fragment}, parse v = some u → u.fragment = some fragment → '"' ∉ fragment
  /-- The other quote is not escaped, and never made. -/
  parse_apostrophe : ∀ {v u}, parse v = some u → u.host ≠ none → apostrophe ∈ u.path ++ u.fragment.getD [] →
    apostrophe ∈ v
  /-- A byte becomes one escape at most. -/
  parse_length : ∀ {v u}, parse v = some u →
    u.path.length + (u.fragment.getD []).length ≤ 3 * (utf8 v).length
  /-- A URL's host ends before a slash that is put behind it. But a control character at the end of the text is
  trimmed only there: before the slash it is escaped in the host of a scheme that is not special. -/
  parse_authority : ∀ {v rest o u}, parse v = some o → o.host ≠ none → parse (v ++ '/' :: rest) = some u →
    u.scheme = o.scheme ∧
      (u.scheme = "http".toList ∨ u.scheme = "https".toList →
        u.host = o.host ∧ u.portOrKnownDefault = o.portOrKnownDefault) ∧
      (u.host = o.host ∨ ∃ host, u.host = some host ∧ '%' ∈ host)
  /-- A relative path replaces the path `/` of its base. -/
  join_plain : ∀ (base : Origin) {p}, Plain p → hasScheme p = false →
    join base.url p = some { base.url with path := '/' :: percentEncode encodes p }
  /-- A reference with a scheme never comes out as a path of the base with that text in it. -/
  join_scheme : ∀ (base : Origin) {p u}, hasScheme p = true → join base.url p = some u →
    matchesOrigin u base.url = true → u.path ≠ '/' :: p

/-- A change of the path stays on the origin. -/
theorem matchesOrigin_path (url : Url) (path : Str) : matchesOrigin { url with path } url = true := by
  simp [matchesOrigin, Url.portOrKnownDefault]

/-! ## The laws hold of something

A crate that knows the URLs package indexes are mostly made of: `http` and
`https` with a plain host and a plain path. Everything else that has a scheme
is opaque to it.
-/

namespace PlainUrls

/-- The printable part of the path percent-encode set, without `#` and `?`. -/
def encodes (c : Char) : Bool := c = '"' || c = '<' || c = '>' || c = '\x60' || c = '\x7b' || c = '\x7d'

def hostChar (c : Char) : Bool := c.isAlphanum || c = '-' || c = '.'

/-- A URL of a host and a path. -/
def hosted (scheme host path : Str) : Option Url :=
  if !host.isEmpty && host.all hostChar && path.all plainChar && (path.splitOn '/').all fun s => !dotSegment s then
    some ⟨scheme, [], none, some host, none, if path.isEmpty then ['/'] else percentEncode encodes path, none, none⟩
  else none

def web (scheme : Str) : Bool := scheme = "http".toList || scheme = "https".toList

def parse (v : Str) : Option Url :=
  let scheme := v.takeWhile fun c => c ≠ ':'
  let rest := (v.dropWhile fun c => c ≠ ':').drop 1
  if !hasScheme v then none
  else if web scheme then
    (rest.dropPrefix? "//".toList).bind fun rest =>
      hosted scheme (rest.takeWhile fun c => c ≠ '/') (rest.dropWhile fun c => c ≠ '/')
  else some ⟨scheme, [], none, none, none, rest, none, none⟩

def join (base : Url) (v : Str) : Option Url :=
  if hasScheme v then none
  else some { base with path := if v.head? = some '/' then percentEncode encodes v else '/' :: percentEncode encodes v }

theorem hosted_some {scheme host path : Str} {u : Url} (h : hosted scheme host path = some u) :
    path.all plainChar = true ∧
      u = ⟨scheme, [], none, some host, none, if path.isEmpty then ['/'] else percentEncode encodes path, none, none⟩ := by
  unfold hosted at h
  split at h
  · next hc =>
    simp only [Bool.and_eq_true] at hc
    exact ⟨hc.1.2, (Option.some.inj h).symm⟩
  · cases h

/-- What lies behind the scheme of a text. -/
def behindScheme (v : Str) : Str := (v.dropWhile fun c => c ≠ ':').drop 1

theorem behindScheme_suffix (v : Str) : behindScheme v <:+ v :=
  (List.drop_suffix _ _).trans (List.dropWhile_suffix _)

theorem parse_some {v : Str} {u : Url} (h : parse v = some u) : hasScheme v = true ∧ u.fragment = none ∧
    ((web (v.takeWhile fun c => c ≠ ':') = false ∧ u.host = none ∧ u.path = behindScheme v) ∨
      ∃ rest, web (v.takeWhile fun c => c ≠ ':') = true ∧ (behindScheme v).dropPrefix? "//".toList = some rest ∧
        hosted (v.takeWhile fun c => c ≠ ':') (rest.takeWhile fun c => c ≠ '/') (rest.dropWhile fun c => c ≠ '/') =
          some u) := by
  simp only [parse] at h
  split at h
  · cases h
  · next hs =>
    have hs : hasScheme v = true := by simpa using hs
    split at h
    · next hweb =>
      obtain ⟨rest, hrest, hu⟩ := Option.bind_eq_some_iff.1 h
      exact ⟨hs, by rw [(hosted_some hu).2], .inr ⟨rest, hweb, hrest, hu⟩⟩
    · next hweb =>
      cases h
      exact ⟨hs, rfl, .inl ⟨by simpa using hweb, rfl, rfl⟩⟩

/-- The path of a URL with a host is the escaped end of the text. -/
theorem parse_hosted {v : Str} {u : Url} (h : parse v = some u) (hhost : u.host ≠ none) :
    u.fragment = none ∧ ∃ path, path <:+ v ∧ (∀ c ∈ path, plainChar c = true) ∧
      u.path = if path.isEmpty then ['/'] else percentEncode encodes path := by
  obtain ⟨-, hfragment, ⟨-, hnone, -⟩ | ⟨rest, -, hrest, hu⟩⟩ := parse_some h
  · exact absurd hnone hhost
  · obtain ⟨start, hbehind, -⟩ := List.dropPrefix?_eq_some_iff.1 hrest
    obtain ⟨hplain, rfl⟩ := hosted_some hu
    exact ⟨hfragment, _, (List.dropWhile_suffix _).trans (.trans ⟨start, hbehind.symm⟩ (behindScheme_suffix v)),
      List.all_eq_true.1 hplain, rfl⟩

/-- What is put behind a text with a scheme comes behind its scheme. -/
theorem behindScheme_append {v : Str} (h : hasScheme v = true) (w : Str) :
    ((v ++ w).takeWhile fun c => c ≠ ':') = (v.takeWhile fun c => c ≠ ':') ∧
      behindScheme (v ++ w) = behindScheme v ++ w := by
  have hcolon : (v.dropWhile fun c => c ≠ ':') ≠ [] := by
    cases v with
    | nil => cases h
    | cons c v =>
      rw [hasScheme, Bool.and_eq_true, decide_eq_true_eq] at h
      have hmem := (List.dropWhile_suffix _).subset (List.mem_of_mem_head? h.2)
      rw [ne_eq, List.dropWhile_eq_nil_iff]
      exact fun hall => by simpa using hall ':' (List.mem_cons_of_mem _ hmem)
  refine ⟨?_, ?_⟩
  · rw [List.takeWhile_append, if_neg]
    intro hlen
    have hjoin := congrArg List.length (List.takeWhile_append_dropWhile (p := fun c => decide (c ≠ ':')) (l := v))
    rw [List.length_append, hlen] at hjoin
    exact hcolon (List.eq_nil_of_length_eq_zero (by omega))
  · unfold behindScheme
    rw [List.dropWhile_append, if_neg (by simpa using hcolon), List.drop_append_of_le_length]
    exact List.length_pos_of_ne_nil hcolon

theorem takeWhile_slash (r rest : Str) :
    ((r ++ '/' :: rest).takeWhile fun c => c ≠ '/') = r.takeWhile fun c => c ≠ '/' := by
  rw [List.takeWhile_append]
  split
  · next hlen =>
    have hall := List.takeWhile_prefix (fun c => decide (c ≠ '/')) (l := r)
    rw [hall.eq_of_length hlen]
    simp
  · rfl

theorem utf8_length (v : Str) : v.length ≤ (utf8 v).length := by
  induction v with
  | nil => exact Nat.le_refl _
  | cons c v ih =>
    have := utf8EncodeChar_length_pos c
    simp only [utf8, List.flatMap_cons, List.length_append, List.length_cons] at ih ⊢
    omega

theorem plainChar_bounds {c : Char} (h : plainChar c = true) : '!' ≤ c ∧ c ≤ '~' ∧ c ≠ '?' ∧ c ≠ '#' := by
  simp only [plainChar, Bool.and_eq_true, decide_eq_true_eq] at h
  exact ⟨h.1.1.1.1, h.1.1.1.2, h.1.1.2, h.1.2⟩

end PlainUrls

open PlainUrls in
/-- The crate, on plain URLs. -/
def plainUrls : UrlCrate where
  parse := parse
  join := join
  encodes := encodes
  encodes_reserved := by
    intro c h
    simp only [encodes, Bool.or_eq_true, decide_eq_true_eq] at h
    rcases h with ((((rfl | rfl) | rfl) | rfl) | rfl) | rfl <;> decide
  encodes_quote := rfl
  parse_schemeless := by
    intro v _ h
    simp [parse, h]
  parse_rooted := by
    intro v
    rfl
  parse_path := by
    intro v u h hhost c hc
    obtain ⟨-, path, -, hplain, hpath⟩ := parse_hosted h hhost
    rw [hpath] at hc
    split at hc
    · rw [List.mem_singleton] at hc
      subst hc
      decide
    · rcases mem_percentEncode hc with ⟨hmem, henc⟩ | rfl | ⟨n, hn, rfl⟩
      · have hb := plainChar_bounds (hplain c hmem)
        exact ⟨hb.1, hb.2.1, henc, hb.2.2⟩
      · decide
      · have hall : ∀ n : Fin 16, '!' ≤ hexDigit n ∧ hexDigit n ≤ '~' ∧ encodes (hexDigit n) = false ∧
            hexDigit n ≠ '?' ∧ hexDigit n ≠ '#' := by decide
        exact hall ⟨n, hn⟩
  parse_fragment := by
    intro v u fragment h hf
    rw [(parse_some h).2.1] at hf
    cases hf
  parse_apostrophe := by
    intro v u h hhost hc
    obtain ⟨hfragment, path, hsuffix, -, hpath⟩ := parse_hosted h hhost
    rw [hfragment, hpath, Option.getD_none, List.append_nil] at hc
    split at hc
    · exact absurd hc (by decide)
    · rcases mem_percentEncode hc with ⟨hmem, -⟩ | heq | ⟨n, hn, heq⟩
      · exact hsuffix.subset hmem
      · exact absurd heq (by decide)
      · have hall : ∀ n : Fin 16, apostrophe ≠ hexDigit n := by decide
        exact absurd heq (hall ⟨n, hn⟩)
  parse_length := by
    intro v u h
    have hv := utf8_length v
    by_cases hhost : u.host = none
    · obtain ⟨-, hfragment, ⟨-, -, hpath⟩ | ⟨rest, -, -, hu⟩⟩ := parse_some h
      · have := (behindScheme_suffix v).length_le
        rw [hpath, hfragment, Option.getD_none, List.length_nil]
        omega
      · rw [(hosted_some hu).2] at hhost
        cases hhost
    · obtain ⟨hfragment, path, hsuffix, hplain, hpath⟩ := parse_hosted h hhost
      have hne : v ≠ [] := by
        rintro rfl
        cases h
      have hpos := List.length_pos_of_ne_nil hne
      have hle := hsuffix.length_le
      have hascii : ∀ c ∈ path, c.toNat < 128 := by
        intro c hc
        have hb := (plainChar_bounds (hplain c hc)).2.1
        rw [Char.le_def, UInt32.le_iff_toNat_le] at hb
        change c.toNat ≤ 126 at hb
        omega
      have hlen := percentEncode_length_ascii encodes hascii
      rw [hpath, hfragment, Option.getD_none, List.length_nil]
      split
      · rw [List.length_singleton]
        omega
      · omega
  parse_authority := by
    intro v rest o u ho hhost hu
    obtain ⟨hs, -, ⟨-, hnone, -⟩ | ⟨r, hweb, hr, ho⟩⟩ := parse_some ho
    · exact absurd hnone hhost
    · obtain ⟨htake, hbehind⟩ := behindScheme_append hs ('/' :: rest)
      obtain ⟨start, hstart, hpre⟩ := List.dropPrefix?_eq_some_iff.1 hr
      obtain ⟨-, -, ⟨hweb', -⟩ | ⟨r', -, hr', hu⟩⟩ := parse_some hu
      · rw [htake, hweb] at hweb'
        cases hweb'
      · rw [hbehind, hstart, List.append_assoc, List.dropPrefix?_append_of_beq _ hpre] at hr'
        cases hr'
        rw [htake, takeWhile_slash] at hu
        rw [(hosted_some ho).2, (hosted_some hu).2]
        exact ⟨rfl, fun _ => ⟨rfl, rfl⟩, .inl rfl⟩
  join_plain := by
    intro base p hp hs
    simp [join, hs, hp.head]
  join_scheme := by
    intro base p u hs h
    simp [join, hs] at h

end Vampire
