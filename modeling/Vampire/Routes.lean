/-
The package listener's routes (`cargo.rs`, `pypi.rs`, `npm.rs`, `routes.rs`):
which route a path takes, what the handler reads off the raw request URI and
which upstream URL it asks for.

A route family maps a raw path to one upstream path and, but for the case of
the digit in a scoped npm name's `%2F`, no two raw paths to the same one.
-/
import Vampire.Canonical
import Vampire.Keys

namespace Vampire

/-! ## Requests and routes -/

/-- `http::Uri` by its parts. -/
structure Uri where
  scheme : Option Str
  authority : Option Str
  path : Str
  query : Option Str
  deriving DecidableEq

/-- `RegistryOrigins` -/
structure RegistryOrigins where
  cargoDownload : Origin
  cargoIndex : Origin
  github : Origin
  npm : Origin
  pypiFiles : Origin
  pypiSimple : Origin

/-- `https://host/` -/
def Origin.https (host : Str) : Origin where
  url := ⟨"https".toList, [], none, some host, none, "/".toList, none, none⟩
  scheme := .inr rfl
  host := by simp
  path := rfl
  username := rfl
  password := rfl
  query := rfl
  fragment := rfl

/-- `RegistryOrigins::default` -/
def RegistryOrigins.default : RegistryOrigins where
  cargoDownload := .https "static.crates.io".toList
  cargoIndex := .https "index.crates.io".toList
  github := .https "github.com".toList
  npm := .https "registry.npmjs.org".toList
  pypiFiles := .https "files.pythonhosted.org".toList
  pypiSimple := .https "pypi.org".toList

/-- A segment of a route: a literal, `{name}` or `{*name}`. -/
inductive Piece
  | lit (text : Str)
  | one
  | rest

/-- A route matches segment by segment. A parameter takes one segment that is
not empty, a final wildcard all that is left unless that is nothing. -/
def routeMatches : List Piece → List Str → Bool
  | [], [] => true
  | [.rest], segments => !segments.isEmpty && segments ≠ [[]]
  | .lit text :: pieces, segment :: segments => text = segment && routeMatches pieces segments
  | .one :: pieces, segment :: segments => !segment.isEmpty && routeMatches pieces segments
  | _, _ => false

inductive Route
  | cargoConfig
  | npmSearch
  | npmAuditBulk
  | npmAuditQuick
  | pypiRoot
  | cargoDownload
  | pypiProject
  | cargoIndex
  | pypiFile
  | npmTarball
  | npmPackument
  deriving DecidableEq

/-- The path a route is registered under. -/
def Route.pattern : Route → List Piece
  | .cargoConfig => [.lit [], .lit "cargo".toList, .lit "index".toList, .lit "config.json".toList]
  | .npmSearch => [.lit [], .lit "npm".toList, .lit "-".toList, .lit "v1".toList, .lit "search".toList]
  | .npmAuditBulk =>
    [.lit [], .lit "npm".toList, .lit "-".toList, .lit "npm".toList, .lit "v1".toList, .lit "security".toList,
      .lit "advisories".toList, .lit "bulk".toList]
  | .npmAuditQuick =>
    [.lit [], .lit "npm".toList, .lit "-".toList, .lit "npm".toList, .lit "v1".toList, .lit "security".toList,
      .lit "audits".toList, .lit "quick".toList]
  | .pypiRoot => [.lit [], .lit "pypi".toList, .lit "simple".toList, .lit []]
  | .cargoDownload =>
    [.lit [], .lit "cargo".toList, .lit "api".toList, .lit "v1".toList, .lit "crates".toList, .one, .one,
      .lit "download".toList]
  | .pypiProject => [.lit [], .lit "pypi".toList, .lit "simple".toList, .one, .lit []]
  | .cargoIndex => [.lit [], .lit "cargo".toList, .lit "index".toList, .rest]
  | .pypiFile => [.lit [], .lit "pypi".toList, .lit "files".toList, .rest]
  | .npmTarball => [.lit [], .lit "npm".toList, .lit "tarballs".toList, .rest]
  | .npmPackument => [.lit [], .lit "npm".toList, .rest]

/-- The package listener's routes, literals before parameters before wildcards. -/
def packageRoutes : List Route :=
  [.cargoConfig, .npmSearch, .npmAuditBulk, .npmAuditQuick, .pypiRoot, .cargoDownload, .pypiProject, .cargoIndex,
    .pypiFile, .npmTarball, .npmPackument]

/-- The route axum picks for a path. -/
def packageRoute (path : Str) : Option Route :=
  packageRoutes.find? fun route => routeMatches route.pattern (path.splitOn '/')

/-! ## What the handlers read off the request -/

/-- `raw_path_tail`, the same in `cargo.rs`, `pypi.rs` and `npm.rs`. -/
def rawPathTail (uri : Uri) (start : Str) : Option Str :=
  if uri.query.isSome then none else (uri.path.dropPrefix? start).filter fun path => !path.isEmpty

/-- `raw_download` -/
def rawDownload (uri : Uri) : Option (Str × Str) :=
  if uri.query.isSome then none
  else do
    let path ← uri.path.dropPrefix? "/cargo/api/v1/crates/".toList
    let path ← path.dropSuffix? "/download".toList
    let (crateName, version) ← path.dropInfix? ['/']
    if !crateName.isEmpty && !version.isEmpty && !version.contains '/' then some (crateName, version) else none

/-- `raw_project` -/
def rawProject (uri : Uri) : Option Str :=
  if uri.query.isSome then none
  else do
    let path ← uri.path.dropPrefix? "/pypi/simple/".toList
    let project ← path.dropSuffix? ['/']
    if !project.isEmpty && !project.contains '/' then some project else none

/-! ## URL builders -/

section
variable (crate : UrlCrate) (upstreams : RegistryOrigins)

/-- `cargo_index_url` -/
def cargoIndexUrl (path : Str) : Option Url := joinUrl crate upstreams.cargoIndex path

/-- `cargo_download_url` -/
def cargoDownloadUrl (crateName version : Str) : Option Url :=
  joinUrl crate upstreams.cargoDownload
    ("crates/".toList ++ crateName ++ "/".toList ++ crateName ++ "-".toList ++ version ++ ".crate".toList)

/-- `pypi_simple_url` -/
def pypiSimpleUrl : Option Str → Option Url
  | none => joinUrl crate upstreams.pypiSimple "simple/".toList
  | some project =>
    if canonicalSegment project then joinUrl crate upstreams.pypiSimple ("simple/".toList ++ project ++ "/".toList)
    else none

/-- `pypi_file_url` -/
def pypiFileUrl (path : Str) : Option Url := joinUrl crate upstreams.pypiFiles path

/-- The package `npm_packument_url` asks for. -/
def npmPackage (package : Str) : Option Str :=
  if package.head? = some '@' then do
    let (scope, name) ← (package.dropInfix? "%2F".toList) <|> (package.dropInfix? "%2f".toList)
    if scope.length ≤ 1 || !canonicalSegment scope || !canonicalSegment name then none
    else some (scope ++ "%2F".toList ++ name)
  else if canonicalSegment package then some package
  else none

/-- `npm_packument_url` -/
def npmPackumentUrl (package : Str) : Option Url := do
  let package ← npmPackage package
  if package.contains '/' then none else buildUrl crate upstreams.npm package

/-- `npm_tarball_url` -/
def npmTarballUrl (path : Str) : Option Url := joinUrl crate upstreams.npm path

/-! ## Handlers -/

/-- The upstream URL a route's GET and HEAD handlers ask for. `none` is the
not-found response, and the answer of the routes that serve no upstream entry. -/
def Route.upstream (uri : Uri) : Route → Option Url
  | .cargoIndex => do cargoIndexUrl crate upstreams (← rawPathTail uri "/cargo/index/".toList)
  | .cargoDownload => do
    let (crateName, version) ← rawDownload uri
    cargoDownloadUrl crate upstreams crateName version
  | .pypiRoot => if uri.query.isSome then none else pypiSimpleUrl crate upstreams none
  | .pypiProject => do pypiSimpleUrl crate upstreams (some (← rawProject uri))
  | .pypiFile => do pypiFileUrl crate upstreams (← rawPathTail uri "/pypi/files/".toList)
  | .npmPackument => do npmPackumentUrl crate upstreams (← rawPathTail uri "/npm/".toList)
  | .npmTarball => do npmTarballUrl crate upstreams (← rawPathTail uri "/npm/tarballs/".toList)
  | .cargoConfig | .npmSearch | .npmAuditBulk | .npmAuditQuick => none

end

/-! ## Families -/

inductive Family
  | cargoIndex
  | cargoDownload
  | pypiSimple
  | pypiFiles
  | npmPackument
  | npmTarball
  deriving DecidableEq

def Route.family : Route → Option Family
  | .cargoIndex => some .cargoIndex
  | .cargoDownload => some .cargoDownload
  | .pypiRoot | .pypiProject => some .pypiSimple
  | .pypiFile => some .pypiFiles
  | .npmPackument => some .npmPackument
  | .npmTarball => some .npmTarball
  | .cargoConfig | .npmSearch | .npmAuditBulk | .npmAuditQuick => none

namespace Family

def origin (upstreams : RegistryOrigins) : Family → Origin
  | cargoIndex => upstreams.cargoIndex
  | cargoDownload => upstreams.cargoDownload
  | pypiSimple => upstreams.pypiSimple
  | pypiFiles => upstreams.pypiFiles
  | npmPackument | npmTarball => upstreams.npm

/-- The handlers of the family call `handle_artifact`, those of the others `handle_metadata`. -/
def artifact : Family → Bool
  | cargoDownload | pypiFiles | npmTarball => true
  | cargoIndex | pypiSimple | npmPackument => false

/-- The URL a request asks the family's registry for, if the family's handler accepts it. -/
def upstream (crate : UrlCrate) (upstreams : RegistryOrigins) (f : Family) (uri : Uri) : Option Url :=
  (packageRoute uri.path).bind fun route =>
    if route.family = some f then route.upstream crate upstreams uri else none

/-- The cache key of an accepted request. -/
def key (sha256 : List UInt8 → List UInt8) (f : Family) (rewrite : MetadataRewrite) (url : Url) : Str :=
  if f.artifact then artifactKey sha256 url.asStr else metadataKey sha256 url.asStr rewrite.cacheIdentity

/-- What the key of one of the family's URLs is the digest of. -/
def keyInput (f : Family) (rewrite : MetadataRewrite) (url : Url) : List UInt8 :=
  if f.artifact then artifactInput url.asStr else metadataInput url.asStr rewrite.cacheIdentity

end Family

/-- `@scope` and `name`, each canonical by itself. -/
structure Scoped (scope name : Str) : Prop where
  at_sign : ∃ text, text ≠ [] ∧ scope = '@' :: text
  scope : canonicalSegment scope = true
  name : canonicalSegment name = true

/-- The raw path and the upstream path of a family's requests. -/
inductive UpstreamPath : Family → Str → Str → Prop
  | cargoIndex (tail : Str) : UpstreamPath .cargoIndex ("/cargo/index/".toList ++ tail) ("/".toList ++ tail)
  | cargoDownload {name version : Str} (hname : '/' ∉ name) (hversion : '/' ∉ version) :
    UpstreamPath .cargoDownload ("/cargo/api/v1/crates/".toList ++ name ++ "/".toList ++ version ++ "/download".toList)
      ("/crates/".toList ++ name ++ "/".toList ++ name ++ "-".toList ++ version ++ ".crate".toList)
  | pypiSimple (tail : Str) : UpstreamPath .pypiSimple ("/pypi/simple/".toList ++ tail) ("/simple/".toList ++ tail)
  | pypiFiles (tail : Str) : UpstreamPath .pypiFiles ("/pypi/files/".toList ++ tail) ("/".toList ++ tail)
  | npmTarball (tail : Str) : UpstreamPath .npmTarball ("/npm/tarballs/".toList ++ tail) ("/".toList ++ tail)
  | npmPackage {name : Str} (hname : canonicalSegment name = true) (hat : name.head? ≠ some '@') :
    UpstreamPath .npmPackument ("/npm/".toList ++ name) ("/".toList ++ name)
  | npmScoped {scope name : Str} {digit : Char} (h : Scoped scope name) (hdigit : digit = 'F' ∨ digit = 'f') :
    UpstreamPath .npmPackument ("/npm/".toList ++ scope ++ '%' :: '2' :: digit :: name)
      ("/".toList ++ scope ++ "%2F".toList ++ name)

/-- Raw paths of one scoped npm name that differ at most in the case of `%2F`. -/
def SlashCase (raw raw' : Str) : Prop :=
  ∃ scope name digit digit', Scoped scope name ∧ (digit = 'F' ∨ digit = 'f') ∧ (digit' = 'F' ∨ digit' = 'f') ∧
    raw = "/npm/".toList ++ scope ++ '%' :: '2' :: digit :: name ∧
    raw' = "/npm/".toList ++ scope ++ '%' :: '2' :: digit' :: name

/-! ## What the handlers read -/

theorem rawPathTail_iff {uri : Uri} {start tail : Str} :
    rawPathTail uri start = some tail ↔ uri.query = none ∧ uri.path = start ++ tail ∧ tail ≠ [] := by
  unfold rawPathTail
  split
  · next h => simp [Option.isSome_iff_ne_none.1 h]
  · next h =>
    rw [Option.not_isSome_iff_eq_none] at h
    simp only [Option.filter_eq_some_iff, List.dropPrefix?_eq_some_iff, beq_iff_eq, exists_eq_right, h, true_and]
    simp

/-- The text before the first separator does not contain it. -/
theorem dropInfix_single {s a b : Str} {sep : Char} (h : s.dropInfix? [sep] = some (a, b)) :
    s = a ++ sep :: b ∧ sep ∉ a := by
  obtain ⟨⟨i, hs, hi⟩, hmin⟩ := List.dropInfix?_eq_some_iff.1 h
  rw [beq_iff_eq] at hi
  subst hi
  refine ⟨by simpa using hs, fun hmem => ?_⟩
  obtain ⟨x, y, rfl⟩ := List.append_of_mem hmem
  have hlen := hmin x [sep] (y ++ [sep] ++ b) (by simpa using hs) (by simp)
  simp only [List.length_append, List.length_cons] at hlen
  omega

theorem rawDownload_some {uri : Uri} {name version : Str} (h : rawDownload uri = some (name, version)) :
    uri.path = "/cargo/api/v1/crates/".toList ++ name ++ "/".toList ++ version ++ "/download".toList ∧
      '/' ∉ name ∧ '/' ∉ version := by
  unfold rawDownload at h
  split at h
  · cases h
  · simp only [Option.bind_eq_bind, Option.bind_eq_some_iff, List.dropPrefix?_eq_some_iff,
      List.dropSuffix?_eq_some_iff, beq_iff_eq] at h
    obtain ⟨path, ⟨start, hpath, rfl⟩, inner, ⟨tail, rfl, rfl⟩, ⟨name', version'⟩, hinfix, hcheck⟩ := h
    split at hcheck
    · next hc =>
      cases hcheck
      obtain ⟨rfl, hname⟩ := dropInfix_single hinfix
      simp only [Bool.and_eq_true, Bool.not_eq_true', List.contains_eq_mem, decide_eq_false_iff_not] at hc
      refine ⟨?_, hname, hc.2⟩
      rw [hpath]
      simp
    · cases hcheck

theorem rawProject_some {uri : Uri} {project : Str} (h : rawProject uri = some project) :
    uri.path = "/pypi/simple/".toList ++ (project ++ "/".toList) := by
  unfold rawProject at h
  split at h
  · cases h
  · simp only [Option.bind_eq_bind, Option.bind_eq_some_iff, List.dropPrefix?_eq_some_iff,
      List.dropSuffix?_eq_some_iff, beq_iff_eq] at h
    obtain ⟨path, ⟨start, hpath, rfl⟩, inner, ⟨tail, rfl, rfl⟩, hcheck⟩ := h
    split at hcheck
    · cases hcheck
      exact hpath
    · cases hcheck

/-! ## Scoped names -/

theorem Scoped.ne_nil {scope name : Str} (h : Scoped scope name) : scope ≠ [] := canonicalSegment_ne_nil h.scope

/-- A scoped name has one reading, whatever the case of its separator. -/
theorem Scoped.unique {scope name scope' name' : Str} {digit digit' : Char} (h : Scoped scope name)
    (h' : Scoped scope' name') (hdigit : digit = 'F' ∨ digit = 'f') (hdigit' : digit' = 'F' ∨ digit' = 'f')
    (heq : scope ++ '%' :: '2' :: digit :: name = scope' ++ '%' :: '2' :: digit' :: name') :
    scope = scope' ∧ digit = digit' ∧ name = name' := by
  have hle := canonicalBytes_no_slash (canonicalSegment_bytes h.scope) hdigit' heq
  have hge := canonicalBytes_no_slash (canonicalSegment_bytes h'.scope) hdigit heq.symm
  obtain ⟨hscope, hrest⟩ := List.append_inj heq (Nat.le_antisymm hle hge)
  simp only [List.cons.injEq, true_and] at hrest
  exact ⟨hscope, hrest⟩

theorem Scoped.plain {scope name : Str} (h : Scoped scope name) : Plain (scope ++ "%2F".toList ++ name) := by
  obtain ⟨text, -, hat⟩ := h.at_sign
  refine plain_segment (by simp [h.ne_nil]) (fun c hc => ?_) ?_
  · simp only [List.mem_append] at hc
    rcases hc with (hc | hc) | hc
    · exact canonicalBytes_chars (canonicalSegment_bytes h.scope) c hc
    · fin_cases hc <;> decide
    · exact canonicalBytes_chars (canonicalSegment_bytes h.name) c hc
  · rw [hat, List.cons_append, List.cons_append, dotSegment, readDots_cons (by decide)]
    simp

theorem canonicalSegment_plain {s : Str} (h : canonicalSegment s = true) : Plain s :=
  plain_segment (canonicalSegment_ne_nil h) (canonicalBytes_chars (canonicalSegment_bytes h))
    (canonicalSegment_not_dots h)

/-- The package names `npm_packument_url` takes. -/
theorem npmPackage_some {package p : Str} (h : npmPackage package = some p) :
    (p = package ∧ canonicalSegment package = true ∧ package.head? ≠ some '@') ∨
      ∃ scope name digit, Scoped scope name ∧ (digit = 'F' ∨ digit = 'f') ∧
        package = scope ++ '%' :: '2' :: digit :: name ∧ p = scope ++ "%2F".toList ++ name := by
  unfold npmPackage at h
  split at h
  · next hat =>
    refine .inr ?_
    simp only [Option.bind_eq_bind, Option.bind_eq_some_iff, Option.orElse_eq_orElse, Option.orElse_eq_or,
      Option.or_eq_some_iff] at h
    obtain ⟨⟨scope, name⟩, hfind, hcheck⟩ := h
    split at hcheck
    · cases hcheck
    · next hc =>
      cases hcheck
      simp only [Bool.or_eq_true, Bool.not_eq_true', not_or, decide_eq_true_eq, Nat.not_le, Bool.not_eq_false] at hc
      have hpackage : ∃ digit, (digit = 'F' ∨ digit = 'f') ∧ package = scope ++ '%' :: '2' :: digit :: name := by
        rcases hfind with hfind | ⟨-, hfind⟩
        · obtain ⟨i, heq, hi⟩ := (List.dropInfix?_eq_some_iff.1 hfind).1
          rw [beq_iff_eq] at hi
          exact ⟨'F', .inl rfl, by rw [heq, hi]; simp⟩
        · obtain ⟨i, heq, hi⟩ := (List.dropInfix?_eq_some_iff.1 hfind).1
          rw [beq_iff_eq] at hi
          exact ⟨'f', .inr rfl, by rw [heq, hi]; simp⟩
      obtain ⟨digit, hdigit, hpackage⟩ := hpackage
      refine ⟨scope, name, digit, ⟨?_, hc.1.2, hc.2⟩, hdigit, hpackage, rfl⟩
      cases scope with
      | nil => exact absurd hc.1.1 (by decide)
      | cons c text =>
        rw [hpackage] at hat
        refine ⟨text, ?_, by rw [Option.some.inj hat]⟩
        rintro rfl
        exact absurd hc.1.1 (by simp)
  · next hat =>
    refine .inl ?_
    split at h
    · next hc => exact ⟨(Option.some.inj h).symm, hc, hat⟩
    · cases h

/-! ## The upstream path of a request -/

section
variable {crate : UrlCrate} {upstreams : RegistryOrigins} {f g : Family} {uri uri' : Uri} {url url' : Url}

theorem joinUrl_some {base : Origin} {p : Str} (h : joinUrl crate base p = some url) :
    url = { base.url with path := '/' :: p } :=
  (joinUrl_iff.1 h).2.2.2

theorem npmPackumentUrl_some {package : Str} (h : npmPackumentUrl crate upstreams package = some url) :
    ∃ p, UpstreamPath .npmPackument ("/npm/".toList ++ package) ('/' :: p) ∧
      url = { upstreams.npm.url with path := '/' :: p } := by
  simp only [npmPackumentUrl, Option.bind_eq_bind, Option.bind_eq_some_iff] at h
  obtain ⟨p, hp, hbuild⟩ := h
  split at hbuild
  · cases hbuild
  · refine ⟨p, ?_⟩
    rcases npmPackage_some hp with ⟨rfl, hcanon, hat⟩ | ⟨scope, name, digit, hscoped, hdigit, rfl, rfl⟩
    · exact ⟨.npmPackage hcanon hat, ((buildUrl_iff (canonicalSegment_plain hcanon)).1 hbuild).2.2⟩
    · refine ⟨?_, ((buildUrl_iff hscoped.plain).1 hbuild).2.2⟩
      rw [← List.append_assoc]
      exact .npmScoped hscoped hdigit

theorem packageRoute_matches {path : Str} {route : Route} (h : packageRoute path = some route) :
    routeMatches route.pattern (path.splitOn '/') = true := by
  unfold packageRoute at h
  simpa using List.find?_some h

/-- A route of literals matches its own path alone. -/
theorem routeMatches_literal (texts : List Str) {segments : List Str} (h : routeMatches (texts.map .lit) segments = true) :
    segments = texts := by
  induction texts generalizing segments with
  | nil =>
    cases segments with
    | nil => rfl
    | cons => cases h
  | cons text texts ih =>
    cases segments with
    | nil => cases h
    | cons segment segments =>
      simp only [List.map_cons, routeMatches, Bool.and_eq_true, decide_eq_true_eq] at h
      rw [h.1, ih h.2]

theorem pypiRoot_path {path : Str} (h : packageRoute path = some .pypiRoot) : path = "/pypi/simple/".toList := by
  have hsegments := routeMatches_literal [[], "pypi".toList, "simple".toList, []] (packageRoute_matches h)
  have hsplit : ['/'].intercalate (path.splitOn '/') = path := List.intercalate_splitOn '/'
  rw [← hsplit, hsegments]
  rfl

/-- An accepted request asks its family's registry for the path that stands for its raw path. -/
theorem upstream_some (h : f.upstream crate upstreams uri = some url) :
    ∃ p, UpstreamPath f uri.path p ∧ url = { (f.origin upstreams).url with path := p } := by
  obtain ⟨route, hroute, hif⟩ := Option.bind_eq_some_iff.1 h
  split at hif
  · next hfamily =>
    cases route with
    | cargoConfig | npmSearch | npmAuditBulk | npmAuditQuick => cases hfamily
    | cargoIndex =>
      cases hfamily
      obtain ⟨tail, htail, hurl⟩ := Option.bind_eq_some_iff.1 hif
      rw [(rawPathTail_iff.1 htail).2.1]
      exact ⟨_, .cargoIndex tail, joinUrl_some hurl⟩
    | cargoDownload =>
      cases hfamily
      obtain ⟨⟨name, version⟩, hraw, hurl⟩ := Option.bind_eq_some_iff.1 hif
      obtain ⟨hpath, hname, hversion⟩ := rawDownload_some hraw
      rw [hpath]
      exact ⟨_, .cargoDownload hname hversion, joinUrl_some hurl⟩
    | pypiRoot =>
      cases hfamily
      rw [pypiRoot_path hroute]
      simp only [Route.upstream] at hif
      split at hif
      · cases hif
      · exact ⟨_, .pypiSimple [], joinUrl_some hif⟩
    | pypiProject =>
      cases hfamily
      obtain ⟨project, hraw, hurl⟩ := Option.bind_eq_some_iff.1 hif
      rw [rawProject_some hraw]
      simp only [pypiSimpleUrl] at hurl
      split at hurl
      · refine ⟨_, .pypiSimple _, ?_⟩
        rw [joinUrl_some hurl, List.append_assoc]
        rfl
      · cases hurl
    | pypiFile =>
      cases hfamily
      obtain ⟨tail, htail, hurl⟩ := Option.bind_eq_some_iff.1 hif
      rw [(rawPathTail_iff.1 htail).2.1]
      exact ⟨_, .pypiFiles tail, joinUrl_some hurl⟩
    | npmPackument =>
      cases hfamily
      obtain ⟨tail, htail, hurl⟩ := Option.bind_eq_some_iff.1 hif
      rw [(rawPathTail_iff.1 htail).2.1]
      obtain ⟨p, hp, hurl⟩ := npmPackumentUrl_some hurl
      exact ⟨_, hp, hurl⟩
    | npmTarball =>
      cases hfamily
      obtain ⟨tail, htail, hurl⟩ := Option.bind_eq_some_iff.1 hif
      rw [(rawPathTail_iff.1 htail).2.1]
      exact ⟨_, .npmTarball tail, joinUrl_some hurl⟩
  · cases hif

end

/-! ## One raw path for one upstream path -/

theorem download_inj {start name version name' version' tail : Str} (hname : '/' ∉ name) (hname' : '/' ∉ name')
    (h : start ++ name ++ "/".toList ++ version ++ tail = start ++ name' ++ "/".toList ++ version' ++ tail) :
    name = name' ∧ version = version' := by
  have hcancel : name ++ ['/'] ++ (version ++ tail) = name' ++ ['/'] ++ (version' ++ tail) := by simpa using h
  obtain ⟨rfl, htail⟩ := append_sep_inj hname hname' hcancel
  exact ⟨rfl, List.append_cancel_right htail⟩

/-- A name without an at sign is not a scoped one. -/
theorem Scoped.ne_plain {scope scopedName name start rest : Str} (h : Scoped scope scopedName)
    (hat : name.head? ≠ some '@') : start ++ name ≠ start ++ scope ++ rest := by
  obtain ⟨text, -, rfl⟩ := h.at_sign
  intro heq
  rw [List.append_assoc, List.append_cancel_left_eq] at heq
  rw [heq] at hat
  exact hat rfl

theorem SlashCase.symm {raw raw' : Str} (h : SlashCase raw raw') : SlashCase raw' raw := by
  obtain ⟨scope, name, digit, digit', hscoped, hdigit, hdigit', hraw, hraw'⟩ := h
  exact ⟨scope, name, digit', digit, hscoped, hdigit', hdigit, hraw', hraw⟩

theorem SlashCase.ne_plain {raw raw' name : Str} (h : SlashCase raw raw') (hat : name.head? ≠ some '@') :
    "/npm/".toList ++ name ≠ raw := by
  obtain ⟨scope, scopedName, digit, -, hscoped, -, -, rfl, -⟩ := h
  exact hscoped.ne_plain hat

/-- A scoped name's path determines its scope, the case of its separator and its name. -/
theorem Scoped.path_inj {start scope name scope' name' : Str} {digit digit' : Char} (h : Scoped scope name)
    (h' : Scoped scope' name') (hdigit : digit = 'F' ∨ digit = 'f') (hdigit' : digit' = 'F' ∨ digit' = 'f')
    (heq : start ++ scope ++ '%' :: '2' :: digit :: name = start ++ scope' ++ '%' :: '2' :: digit' :: name') :
    scope = scope' ∧ digit = digit' ∧ name = name' := by
  rw [List.append_assoc, List.append_assoc, List.append_cancel_left_eq] at heq
  exact h.unique h' hdigit hdigit' heq

theorem UpstreamPath.functional {f : Family} {raw raw' p p' : Str} (h : UpstreamPath f raw p)
    (h' : UpstreamPath f raw' p') (hraw : raw = raw' ∨ f = .npmPackument ∧ SlashCase raw raw') : p = p' := by
  cases h with
  | cargoIndex tail | pypiSimple tail | pypiFiles tail | npmTarball tail =>
    cases h'
    simpa using hraw
  | cargoDownload hname hversion =>
    cases h' with
    | cargoDownload hname' hversion' =>
      obtain ⟨rfl, rfl⟩ := download_inj hname hname' (hraw.resolve_right (by simp))
      rfl
  | npmPackage hcanon hat =>
    cases h' with
    | npmPackage hcanon' hat' =>
      rcases hraw with heq | ⟨-, hcase⟩
      · rw [List.append_cancel_left heq]
      · exact absurd rfl (hcase.ne_plain hat)
    | npmScoped hscoped' hdigit' =>
      rcases hraw with heq | ⟨-, hcase⟩
      · exact absurd heq (hscoped'.ne_plain hat)
      · exact absurd rfl (hcase.ne_plain hat)
  | npmScoped hscoped hdigit =>
    cases h' with
    | npmPackage hcanon' hat' =>
      rcases hraw with heq | ⟨-, hcase⟩
      · exact absurd heq.symm (hscoped.ne_plain hat')
      · exact absurd rfl (hcase.symm.ne_plain hat')
    | npmScoped hscoped' hdigit' =>
      rcases hraw with heq | ⟨-, scope, name, digit, digit', hs, hd, hd', hraw, hraw'⟩
      · obtain ⟨rfl, -, rfl⟩ := hscoped.path_inj hscoped' hdigit hdigit' heq
        rfl
      · obtain ⟨rfl, -, rfl⟩ := hscoped.path_inj hs hdigit hd hraw
        obtain ⟨rfl, -, rfl⟩ := hscoped'.path_inj hs hdigit' hd' hraw'
        rfl

theorem UpstreamPath.injective {f : Family} {raw raw' p p' : Str} (h : UpstreamPath f raw p)
    (h' : UpstreamPath f raw' p') (hp : p = p') : raw = raw' ∨ f = .npmPackument ∧ SlashCase raw raw' := by
  cases h with
  | cargoIndex tail | pypiSimple tail | pypiFiles tail | npmTarball tail =>
    cases h'
    exact .inl (by simpa using hp)
  | cargoDownload hname hversion =>
    cases h' with
    | @cargoDownload name' version' hname' hversion' =>
      simp only [List.append_assoc, List.append_cancel_left_eq] at hp
      rw [show "/".toList = ['/'] from rfl, ← List.append_assoc, ← List.append_assoc name'] at hp
      obtain ⟨rfl, hrest⟩ := append_sep_inj hname hname' hp
      simp only [List.append_cancel_left_eq, List.append_cancel_right_eq] at hrest
      rw [hrest]
      exact .inl rfl
  | npmPackage hcanon hat =>
    cases h' with
    | npmPackage hcanon' hat' => exact .inl (by simpa using hp)
    | npmScoped hscoped' hdigit' => exact absurd (hp.trans (List.append_assoc ..)) (hscoped'.ne_plain hat)
  | npmScoped hscoped hdigit =>
    cases h' with
    | npmPackage hcanon' hat' => exact absurd (hp.symm.trans (List.append_assoc ..)) (hscoped.ne_plain hat')
    | npmScoped hscoped' hdigit' =>
      rw [List.append_assoc, List.append_assoc _ "%2F".toList] at hp
      obtain ⟨rfl, -, rfl⟩ := hscoped.path_inj hscoped' (.inl rfl) (.inl rfl) hp
      exact .inr ⟨rfl, _, _, _, _, hscoped, hdigit, hdigit', rfl, rfl⟩

/-! ## No aliases -/

/-- What a family's requests and the URLs they ask for have to do with each other. -/
structure NoAliases (crate : UrlCrate) (upstreams : RegistryOrigins) (sha256 : List UInt8 → List UInt8) (f : Family) :
    Prop where
  /-- The URL is on the family's registry and has nothing but a path, the one that stands for the raw path. -/
  target : ∀ {uri url}, f.upstream crate upstreams uri = some url →
    matchesOrigin url (f.origin upstreams).url = true ∧ url.username = [] ∧ url.password = none ∧ url.query = none ∧
      url.fragment = none ∧ UpstreamPath f uri.path url.path
  /-- Two requests ask for one URL exactly when their raw paths agree, but for the case of a scope's `%2F`. -/
  same_url : ∀ {uri uri' url url'}, f.upstream crate upstreams uri = some url →
    f.upstream crate upstreams uri' = some url' →
    (url = url' ↔ uri.path = uri'.path ∨ f = .npmPackument ∧ SlashCase uri.path uri'.path)
  /-- A scoped name is accepted in the one form `@scope%2Fname`. -/
  scoped_name : ∀ {uri url tail}, f = .npmPackument → f.upstream crate upstreams uri = some url →
    uri.path = "/npm/@".toList ++ tail → ∃ scope name digit, Scoped scope name ∧ (digit = 'F' ∨ digit = 'f') ∧
      uri.path = "/npm/".toList ++ scope ++ '%' :: '2' :: digit :: name ∧
      url.path = "/".toList ++ scope ++ "%2F".toList ++ name
  /-- Requests for two URLs have two keys, unless their inputs collide. -/
  same_key : ∀ {uri uri' url url' rewrite}, f.upstream crate upstreams uri = some url →
    f.upstream crate upstreams uri' = some url' → f.key sha256 rewrite url = f.key sha256 rewrite url' →
    Collision sha256 (f.keyInput rewrite url) (f.keyInput rewrite url') ∨ url = url'
  /-- Nor has a request of a family of the other class the key of one of these. -/
  other_class : ∀ {g : Family} {uri uri' url url' rewrite rewrite'}, f.upstream crate upstreams uri = some url →
    g.upstream crate upstreams uri' = some url' → f.artifact ≠ g.artifact →
    f.key sha256 rewrite url = g.key sha256 rewrite' url' →
    Collision sha256 (f.keyInput rewrite url) (g.keyInput rewrite' url')

section
variable {crate : UrlCrate} {upstreams : RegistryOrigins} {f g : Family} {uri uri' : Uri} {url url' : Url}

theorem Family.upstream_target (h : f.upstream crate upstreams uri = some url) :
    matchesOrigin url (f.origin upstreams).url = true ∧ url.username = [] ∧ url.password = none ∧ url.query = none ∧
      url.fragment = none ∧ UpstreamPath f uri.path url.path := by
  obtain ⟨p, hp, rfl⟩ := upstream_some h
  exact ⟨matchesOrigin_path _ _, (f.origin upstreams).username, (f.origin upstreams).password,
    (f.origin upstreams).query, (f.origin upstreams).fragment, hp⟩

theorem Family.upstream_eq_iff (h : f.upstream crate upstreams uri = some url)
    (h' : f.upstream crate upstreams uri' = some url') :
    url = url' ↔ uri.path = uri'.path ∨ f = .npmPackument ∧ SlashCase uri.path uri'.path := by
  obtain ⟨p, hp, rfl⟩ := upstream_some h
  obtain ⟨p', hp', rfl⟩ := upstream_some h'
  refine ⟨fun heq => hp.injective hp' (congrArg Url.path heq), fun hraw => ?_⟩
  rw [hp.functional hp' hraw]

theorem UpstreamPath.scoped_of_at {raw p tail : Str} (h : UpstreamPath .npmPackument raw p)
    (hat : raw = "/npm/@".toList ++ tail) : ∃ scope name digit, Scoped scope name ∧ (digit = 'F' ∨ digit = 'f') ∧
      raw = "/npm/".toList ++ scope ++ '%' :: '2' :: digit :: name ∧
      p = "/".toList ++ scope ++ "%2F".toList ++ name := by
  cases h with
  | @npmPackage name hcanon hne =>
    have hat' : "/npm/".toList ++ name = "/npm/".toList ++ '@' :: tail := hat
    have hname : name = '@' :: tail := List.append_cancel_left hat'
    rw [hname] at hne
    exact absurd rfl hne
  | npmScoped hscoped hdigit => exact ⟨_, _, _, hscoped, hdigit, rfl, rfl⟩

theorem Family.key_eq {sha256 : List UInt8 → List UInt8} {rewrite : MetadataRewrite}
    (h : f.upstream crate upstreams uri = some url) (h' : f.upstream crate upstreams uri' = some url')
    (heq : f.key sha256 rewrite url = f.key sha256 rewrite url') :
    Collision sha256 (f.keyInput rewrite url) (f.keyInput rewrite url') ∨ url = url' := by
  obtain ⟨p, hp, rfl⟩ := upstream_some h
  obtain ⟨p', hp', rfl⟩ := upstream_some h'
  have hstr : Collision sha256 (f.keyInput rewrite { (f.origin upstreams).url with path := p })
      (f.keyInput rewrite { (f.origin upstreams).url with path := p' }) ∨
      Url.asStr { (f.origin upstreams).url with path := p } =
        Url.asStr { (f.origin upstreams).url with path := p' } := by
    unfold Family.key at heq
    unfold Family.keyInput
    split at heq
    · next hf =>
      rw [if_pos hf, if_pos hf]
      exact artifactKey_eq heq
    · next hf =>
      rw [if_neg hf, if_neg hf]
      exact metadataKey_upstream heq
  refine hstr.imp_right fun hurl => ?_
  rw [asStr_path_injective hurl]

theorem Family.key_ne {sha256 : List UInt8 → List UInt8} {rewrite rewrite' : MetadataRewrite}
    (hclass : f.artifact ≠ g.artifact) (heq : f.key sha256 rewrite url = g.key sha256 rewrite' url') :
    Collision sha256 (f.keyInput rewrite url) (g.keyInput rewrite' url') := by
  unfold Family.key at heq
  unfold Family.keyInput
  cases hf : f.artifact <;> cases hg : g.artifact <;>
    simp only [hf, hg, if_true, Bool.false_eq_true, if_false] at heq ⊢
  · exact absurd (hf.trans hg.symm) hclass
  · exact (artifactKey_ne_metadataKey heq.symm).symm
  · exact artifactKey_ne_metadataKey heq
  · exact absurd (hf.trans hg.symm) hclass

end

/-- **No aliases.** In every route family the accepted requests and the
upstream paths, URLs and cache keys they stand for correspond one to one. -/
theorem routes_have_no_aliases (crate : UrlCrate) (upstreams : RegistryOrigins) (sha256 : List UInt8 → List UInt8)
    (f : Family) : NoAliases crate upstreams sha256 f where
  target := Family.upstream_target
  same_url := Family.upstream_eq_iff
  scoped_name := by
    rintro uri url tail rfl h hat
    exact (Family.upstream_target h).2.2.2.2.2.scoped_of_at hat
  same_key := Family.key_eq
  other_class := fun _ _ hclass heq => Family.key_ne hclass heq

/-- Both spellings of a scope's separator ask for the upper case, and so have one key. -/
theorem routes_have_no_aliases_scoped :
    Family.npmPackument.upstream plainUrls .default ⟨none, none, "/npm/@scope%2fname".toList, none⟩ =
        some { (Origin.https "registry.npmjs.org".toList).url with path := "/@scope%2Fname".toList } ∧
      SlashCase "/npm/@scope%2fname".toList "/npm/@scope%2Fname".toList := by
  have hlower : Family.npmPackument.upstream plainUrls .default ⟨none, none, "/npm/@scope%2fname".toList, none⟩ =
      some { (Origin.https "registry.npmjs.org".toList).url with path := "/@scope%2Fname".toList } := by decide
  have hupper : Family.npmPackument.upstream plainUrls .default ⟨none, none, "/npm/@scope%2Fname".toList, none⟩ =
      some { (Origin.https "registry.npmjs.org".toList).url with path := "/@scope%2Fname".toList } := by decide
  have hsame := ((routes_have_no_aliases plainUrls .default id .npmPackument).same_url hlower hupper).1 rfl
  exact ⟨hlower, (hsame.resolve_left (by decide)).2⟩

end Vampire
