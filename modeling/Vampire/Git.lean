/-
The git listener (`git.rs`): which requests it forwards to GitHub and to
which URL. Everything that is not a clone or a fetch of a GitHub repository
by the smart protocol is answered here.
-/
import Vampire.Routes

namespace Vampire.Git

/-! ## The source's functions -/

/-- `http::Method` -/
inductive Method
  | get
  | post
  | connect
  | other (name : Str)
  deriving DecidableEq

/-- `GithubGitRpc` -/
inductive GithubGitRpc
  | infoRefs
  | uploadPack
  deriving DecidableEq

/-- `GithubGitPath` -/
structure GithubGitPath where
  owner : Str
  repo : Str
  rpc : GithubGitRpc
  deriving DecidableEq

/-- `GitPathError` -/
inductive GitPathError
  | invalid
  | receivePack
  deriving DecidableEq

/-- `ParsedGitRequest` -/
inductive ParsedGitRequest
  | notGit
  | rejected (status : Nat) (message : String)
  | forward (method : Method) (upstream : Url)
  deriving DecidableEq

/-- `uri_contains_userinfo` -/
def uriContainsUserinfo (uri : Uri) : Bool := uri.authority.any fun authority => authority.contains '@'

/-- `valid_repo_segment` -/
def validRepoSegment (segment : Str) : Bool :=
  !segment.isEmpty && segment ≠ ['.'] && segment ≠ ['.', '.'] && !segment.contains '/' && !segment.contains '\\' &&
    !segment.contains '%'

/-- `GithubGitPath::new` -/
def GithubGitPath.new (owner repo : Str) (rpc : GithubGitRpc) : Option GithubGitPath :=
  if !validRepoSegment owner || !validRepoSegment repo then none else some ⟨owner, repo, rpc⟩

/-- `strip_suffix(".git").unwrap_or(repo_segment)` -/
def stripGit (repoSegment : Str) : Str := (repoSegment.dropSuffix? ".git".toList).getD repoSegment

/-- `ensure_well_formed_percent_encoding` -/
def ensureWellFormedPercentEncoding : Str → Except GitPathError Unit
  | [] => .ok ()
  | '%' :: rest =>
    match rest with
    | hi :: lo :: rest =>
      if (Lib.hexValue hi).isNone || (Lib.hexValue lo).isNone then .error .invalid
      else ensureWellFormedPercentEncoding rest
    | _ => .error .invalid
  | _ :: rest => ensureWellFormedPercentEncoding rest

/-- The loop of `parse_github_git_request_path` that refuses every escape. -/
def refuseEscapes : List Str → Except GitPathError Unit
  | [] => .ok ()
  | segment :: segments =>
    if segment.contains '%' then do
      ensureWellFormedPercentEncoding segment
      .error .invalid
    else refuseEscapes segments

/-- The segments that name an RPC of a repository. -/
def matchSegments : List Str → Except GitPathError (Option GithubGitPath)
  | [owner, repoSegment, third, fourth] =>
    if third = "info".toList ∧ fourth = "refs".toList then .ok (GithubGitPath.new owner (stripGit repoSegment) .infoRefs)
    else .ok none
  | [owner, repoSegment, third] =>
    if third = "git-upload-pack".toList then .ok (GithubGitPath.new owner (stripGit repoSegment) .uploadPack)
    else if third = "git-receive-pack".toList then .error .receivePack
    else .ok none
  | _ => .ok none

/-- `parse_github_git_request_path` -/
def parseGithubGitRequestPath (path : Str) : Except GitPathError (Option GithubGitPath) :=
  if path.head? ≠ some '/' ∨ path.contains '\\' then .error .invalid
  else if path = ['/'] then .ok none
  else
    let raw := path.drop 1
    if raw.isEmpty ∨ hasDoubleSlash raw then .error .invalid
    else
      let segments := raw.splitOn '/'
      if segments.any fun segment => segment.isEmpty || segment = ['.'] || segment = ['.', '.'] then .error .invalid
      else do
        refuseEscapes segments
        matchSegments segments

section
variable (crate : UrlCrate) (upstreams : RegistryOrigins)

/-- `GithubGitPath::upstream_url` -/
def GithubGitPath.upstreamUrl (path : GithubGitPath) (query : Option Str) : Option Url :=
  match path.rpc with
  | .infoRefs =>
    if query = some "service=git-upload-pack".toList then
      (joinUrl crate upstreams.github (path.owner ++ "/".toList ++ path.repo ++ ".git/info/refs".toList)).map fun url =>
        { url with query := some "service=git-upload-pack".toList }
    else none
  | .uploadPack =>
    if query = none then
      joinUrl crate upstreams.github (path.owner ++ "/".toList ++ path.repo ++ ".git/git-upload-pack".toList)
    else none

/-- `GithubGitPath::resolve` -/
def GithubGitPath.resolve (path : GithubGitPath) (method : Method) (query : Option Str) : ParsedGitRequest :=
  match method with
  | .get =>
    match path.rpc with
    | .infoRefs =>
      if query = some "service=git-upload-pack".toList then
        match path.upstreamUrl crate upstreams query with
        | none => .notGit
        | some upstream => .forward .get upstream
      else if query = some "service=git-receive-pack".toList then .rejected 405 "git-receive-pack is not supported"
      else .rejected 400 "info/refs requires ?service=git-upload-pack"
    | .uploadPack => .rejected 405 "git-upload-pack requires POST"
  | .post =>
    match path.rpc with
    | .uploadPack =>
      if query.isSome then .rejected 400 "git-upload-pack does not accept query parameters"
      else
        match path.upstreamUrl crate upstreams none with
        | none => .notGit
        | some upstream => .forward .post upstream
    | .infoRefs => .rejected 405 "info/refs requires GET"
  | _ => .rejected 405 "unsupported git method"

/-- `ParsedGitRequest::from_request` -/
def fromRequest (method : Method) (uri : Uri) : ParsedGitRequest :=
  if uriContainsUserinfo uri then .rejected 403 "credential-bearing git requests are not supported"
  else if method = .connect then .rejected 405 "CONNECT is not supported"
  else if uri.scheme.isSome ∨ uri.authority.isSome then .rejected 400 "absolute-form git requests are not supported"
  else
    match parseGithubGitRequestPath uri.path with
    | .ok (some path) => path.resolve crate upstreams method uri.query
    | .ok none => .notGit
    | .error .receivePack => .rejected 405 "git-receive-pack is not supported"
    | .error .invalid => .rejected 400 "invalid git path"

end

/-! ## The grammar -/

namespace GithubGitRpc

/-- The segments of an RPC behind the repository's. -/
def segments : GithubGitRpc → List Str
  | infoRefs => ["info".toList, "refs".toList]
  | uploadPack => ["git-upload-pack".toList]

/-- The same as text. -/
def tail : GithubGitRpc → Str
  | infoRefs => "/info/refs".toList
  | uploadPack => "/git-upload-pack".toList

def method : GithubGitRpc → Method
  | infoRefs => .get
  | uploadPack => .post

def query : GithubGitRpc → Option Str
  | infoRefs => some "service=git-upload-pack".toList
  | uploadPack => none

end GithubGitRpc

/-- What an owner or a repository can be called. -/
structure RepoName (name : Str) : Prop where
  ne_nil : name ≠ []
  ne_dot : name ≠ ['.']
  ne_dots : name ≠ ['.', '.']
  no_slash : '/' ∉ name
  no_backslash : '\\' ∉ name
  no_percent : '%' ∉ name

/-- A request of the grammar, with the URL it is forwarded to. -/
structure Forwarded (crate : UrlCrate) (upstreams : RegistryOrigins) (rpc : GithubGitRpc) (owner segment : Str)
    (method : Method) (uri : Uri) (url : Url) : Prop where
  no_scheme : uri.scheme = none
  no_authority : uri.authority = none
  method : method = rpc.method
  path : uri.path = "/".toList ++ owner ++ "/".toList ++ segment ++ rpc.tail
  query : uri.query = rpc.query
  one_segment : '/' ∉ segment
  owner_name : RepoName owner
  repo_name : RepoName (stripGit segment)
  upstream : ∃ base, joinUrl crate upstreams.github
    (owner ++ "/".toList ++ stripGit segment ++ ".git".toList ++ rpc.tail) = some base ∧
      url = { base with query := rpc.query }

/-! ## The path parser -/

theorem validRepoSegment_iff {segment : Str} : validRepoSegment segment = true ↔ RepoName segment := by
  simp only [validRepoSegment, Bool.and_eq_true, Bool.not_eq_true', decide_eq_true_eq, List.isEmpty_eq_false_iff,
    List.contains_eq_mem, decide_eq_false_iff_not]
  refine ⟨?_, fun h => ⟨⟨⟨⟨⟨h.ne_nil, h.ne_dot⟩, h.ne_dots⟩, h.no_slash⟩, h.no_backslash⟩, h.no_percent⟩⟩
  rintro ⟨⟨⟨⟨⟨hnil, hdot⟩, hdots⟩, hslash⟩, hback⟩, hpercent⟩
  exact ⟨hnil, hdot, hdots, hslash, hback, hpercent⟩

theorem new_some_iff {owner repo : Str} {rpc : GithubGitRpc} {path : GithubGitPath} :
    GithubGitPath.new owner repo rpc = some path ↔ RepoName owner ∧ RepoName repo ∧ path = ⟨owner, repo, rpc⟩ := by
  rw [← validRepoSegment_iff, ← validRepoSegment_iff, GithubGitPath.new]
  cases validRepoSegment owner <;> cases validRepoSegment repo <;> simp [eq_comm]

theorem matchSegments_some_iff {segments : List Str} {path : GithubGitPath} :
    matchSegments segments = .ok (some path) ↔ ∃ segment, segments = path.owner :: segment :: path.rpc.segments ∧
      RepoName path.owner ∧ RepoName (stripGit segment) ∧ path.repo = stripGit segment := by
  refine ⟨fun h => ?_, ?_⟩
  · unfold matchSegments at h
    split at h
    · next owner segment third fourth =>
      split at h
      · next hrpc =>
        obtain ⟨rfl, rfl⟩ := hrpc
        obtain ⟨howner, hrepo, rfl⟩ := new_some_iff.1 (Except.ok.inj h)
        exact ⟨segment, rfl, howner, hrepo, rfl⟩
      · cases h
    · next owner segment third =>
      split at h
      · next hrpc =>
        subst hrpc
        obtain ⟨howner, hrepo, rfl⟩ := new_some_iff.1 (Except.ok.inj h)
        exact ⟨segment, rfl, howner, hrepo, rfl⟩
      · split at h <;> cases h
    · cases h
  · obtain ⟨owner, repo, rpc⟩ := path
    rintro ⟨segment, rfl, howner, hrepo, rfl⟩
    cases rpc
    · simp only [GithubGitRpc.segments, matchSegments, and_self, if_true]
      rw [new_some_iff.2 ⟨howner, hrepo, rfl⟩]
    · simp only [GithubGitRpc.segments, matchSegments, if_true]
      rw [new_some_iff.2 ⟨howner, hrepo, rfl⟩]

theorem refuseEscapes_ok_iff {segments : List Str} :
    refuseEscapes segments = .ok () ↔ ∀ segment ∈ segments, '%' ∉ segment := by
  induction segments with
  | nil => simp [refuseEscapes]
  | cons segment segments ih =>
    simp only [refuseEscapes, List.mem_cons, forall_eq_or_imp]
    split
    · next h =>
      rw [List.contains_eq_mem, decide_eq_true_eq] at h
      cases ensureWellFormedPercentEncoding segment <;> simp [bind, Except.bind, h]
    · next h =>
      rw [List.contains_eq_mem, decide_eq_true_eq] at h
      rw [ih]
      simp [h]

theorem stripGit_cases (segment : Str) :
    segment = stripGit segment ∨ segment = stripGit segment ++ ".git".toList := by
  unfold stripGit
  cases h : segment.dropSuffix? ".git".toList with
  | none => exact .inl rfl
  | some start =>
    obtain ⟨suffix, hseg, hsuffix⟩ := List.dropSuffix?_eq_some_iff.1 h
    rw [beq_iff_eq] at hsuffix
    exact .inr (hsuffix ▸ hseg)

theorem RepoName.git {name : Str} (h : RepoName name) : RepoName (name ++ ".git".toList) where
  ne_nil := by simp
  ne_dot := fun heq => by simpa using congrArg List.length heq
  ne_dots := fun heq => by simpa using congrArg List.length heq
  no_slash := by simp [h.no_slash]
  no_backslash := by simp [h.no_backslash]
  no_percent := by simp [h.no_percent]

theorem RepoName.of_stripGit {segment : Str} (h : RepoName (stripGit segment)) : RepoName segment := by
  rcases stripGit_cases segment with heq | heq
  · rw [heq]
    exact h
  · rw [heq]
    exact h.git

/-- A request path by its segments. -/
theorem intercalate_path (owner segment : Str) (rpc : GithubGitRpc) :
    ['/'].intercalate (owner :: segment :: rpc.segments) = owner ++ "/".toList ++ segment ++ rpc.tail := by
  have hslash : "/".toList = ['/'] := rfl
  cases rpc with
  | infoRefs =>
    have htail : GithubGitRpc.infoRefs.tail = ['/'] ++ ("info".toList ++ ['/'] ++ "refs".toList) := rfl
    rw [htail, hslash, GithubGitRpc.segments, List.intercalate_cons_cons, List.intercalate_cons_cons,
      List.intercalate_cons_cons, List.intercalate_singleton]
    simp only [List.append_assoc]
  | uploadPack =>
    have htail : GithubGitRpc.uploadPack.tail = ['/'] ++ "git-upload-pack".toList := rfl
    rw [htail, hslash, GithubGitRpc.segments, List.intercalate_cons_cons, List.intercalate_cons_cons,
      List.intercalate_singleton]
    simp only [List.append_assoc]

theorem segments_name {owner segment : Str} (rpc : GithubGitRpc) (howner : RepoName owner)
    (hsegment : RepoName segment) : ∀ s ∈ owner :: segment :: rpc.segments, RepoName s := by
  have hinfo : RepoName "info".toList := by constructor <;> decide
  have hrefs : RepoName "refs".toList := by constructor <;> decide
  have hupload : RepoName "git-upload-pack".toList := by constructor <;> decide
  simp only [List.mem_cons, forall_eq_or_imp]
  refine ⟨howner, hsegment, ?_⟩
  cases rpc with
  | infoRefs => simpa [GithubGitRpc.segments] using And.intro hinfo hrefs
  | uploadPack => simpa [GithubGitRpc.segments] using hupload

theorem splitOn_path {owner segment : Str} (rpc : GithubGitRpc) (howner : '/' ∉ owner) (hsegment : '/' ∉ segment) :
    (owner ++ "/".toList ++ segment ++ rpc.tail).splitOn '/' = owner :: segment :: rpc.segments := by
  have hrpc : ∀ s ∈ rpc.segments, '/' ∉ s := by cases rpc <;> simp [GithubGitRpc.segments]
  have hall : ∀ s ∈ owner :: segment :: rpc.segments, '/' ∉ s := by
    simp only [List.mem_cons, forall_eq_or_imp]
    exact ⟨howner, hsegment, hrpc⟩
  rw [← intercalate_path owner segment rpc]
  exact List.splitOn_intercalate '/' hall (List.cons_ne_nil _ _)

/-- A path of named segments passes every check of the parser. -/
theorem parse_named {owner segment : Str} (rpc : GithubGitRpc) (howner : RepoName owner)
    (hrepo : RepoName (stripGit segment)) :
    parseGithubGitRequestPath ("/".toList ++ owner ++ "/".toList ++ segment ++ rpc.tail) =
      .ok (some ⟨owner, stripGit segment, rpc⟩) := by
  have hsegment := hrepo.of_stripGit
  have hsplit := splitOn_path rpc howner.no_slash hsegment.no_slash
  have hnames := segments_name rpc howner hsegment
  have hcons : "/".toList ++ owner ++ "/".toList ++ segment ++ rpc.tail =
      '/' :: (owner ++ "/".toList ++ segment ++ rpc.tail) := rfl
  rw [hcons]
  generalize owner ++ "/".toList ++ segment ++ rpc.tail = raw at hsplit
  have hne : raw ≠ [] := by
    rintro rfl
    cases hsplit
  have hback : '\\' ∉ '/' :: raw := by
    simp only [List.mem_cons, not_or]
    refine ⟨by decide, fun hmem => ?_⟩
    rcases mem_splitOn '/' hmem with heq | ⟨s, hs, hc⟩
    · exact absurd heq (by decide)
    · exact (hnames s (hsplit ▸ hs)).no_backslash hc
  have hdouble : hasDoubleSlash raw = false := by
    rw [← Bool.not_eq_true]
    intro hd
    have hempty := List.mem_of_mem_tail (hasDoubleSlash_splitOn hd)
    exact (hnames [] (hsplit ▸ hempty)).ne_nil rfl
  have hdots : ((owner :: segment :: rpc.segments).any fun s => s.isEmpty || s = ['.'] || s = ['.', '.']) = false := by
    rw [List.any_eq_false]
    intro s hs
    have hname := hnames s hs
    simp [hname.ne_nil, hname.ne_dot, hname.ne_dots]
  have hmatch : matchSegments (owner :: segment :: rpc.segments) = .ok (some ⟨owner, stripGit segment, rpc⟩) :=
    matchSegments_some_iff.2 ⟨segment, rfl, howner, hrepo, rfl⟩
  have hescapes : refuseEscapes (owner :: segment :: rpc.segments) = .ok () :=
    refuseEscapes_ok_iff.2 fun s hs => (hnames s hs).no_percent
  simp only [parseGithubGitRequestPath, List.head?_cons, List.drop_one, List.tail_cons, hsplit, hdouble, hdots, hescapes]
  rw [if_neg (by simpa using hback), if_neg (by simpa using hne), if_neg (by simpa using hne), if_neg (by simp)]
  exact hmatch

theorem parse_some_iff {path : Str} {p : GithubGitPath} :
    parseGithubGitRequestPath path = .ok (some p) ↔ ∃ segment,
      path = "/".toList ++ p.owner ++ "/".toList ++ segment ++ p.rpc.tail ∧ RepoName p.owner ∧
        RepoName (stripGit segment) ∧ p.repo = stripGit segment := by
  refine ⟨fun h => ?_, ?_⟩
  · simp only [parseGithubGitRequestPath] at h
    split at h
    · cases h
    · next hstart =>
      split at h
      · cases h
      · split at h
        · cases h
        · split at h
          · cases h
          · simp only [bind, Except.bind] at h
            split at h
            · cases h
            · obtain ⟨segment, hsegments, howner, hrepo, hp⟩ := matchSegments_some_iff.1 h
              refine ⟨segment, ?_, howner, hrepo, hp⟩
              have hraw : ['/'].intercalate ((path.drop 1).splitOn '/') = path.drop 1 := List.intercalate_splitOn '/'
              rw [hsegments, intercalate_path] at hraw
              rw [not_or, not_not] at hstart
              cases path with
              | nil => exact absurd hstart.1 (by simp)
              | cons c raw =>
                rw [List.head?_cons, Option.some.injEq] at hstart
                rw [hstart.1]
                simpa using hraw.symm
  · obtain ⟨owner, repo, rpc⟩ := p
    rintro ⟨segment, rfl, howner, hrepo, rfl⟩
    exact parse_named rpc howner hrepo

/-! ## Forwarding -/

section
variable {crate : UrlCrate} {upstreams : RegistryOrigins} {method m : Method} {uri : Uri} {url : Url}

theorem infoRefs_tail (start : Str) :
    start ++ ".git/info/refs".toList = start ++ ".git".toList ++ GithubGitRpc.infoRefs.tail := by
  rw [List.append_assoc]
  rfl

theorem uploadPack_tail (start : Str) :
    start ++ ".git/git-upload-pack".toList = start ++ ".git".toList ++ GithubGitRpc.uploadPack.tail := by
  rw [List.append_assoc]
  rfl

theorem set_query {query : Option Str} (h : url.query = query) : { url with query := query } = url := by
  subst h
  rfl

theorem joinUrl_query {base : Origin} {p : Str} (h : joinUrl crate base p = some url) : url.query = none := by
  rw [joinUrl_some h]
  exact base.query

/-- The URL an RPC of a repository is forwarded to. -/
theorem upstreamUrl_some_iff {path : GithubGitPath} {query : Option Str} :
    path.upstreamUrl crate upstreams query = some url ↔ query = path.rpc.query ∧ ∃ base, joinUrl crate upstreams.github
      (path.owner ++ "/".toList ++ path.repo ++ ".git".toList ++ path.rpc.tail) = some base ∧
        url = { base with query := path.rpc.query } := by
  obtain ⟨owner, repo, rpc⟩ := path
  cases rpc with
  | infoRefs =>
    have hdef : GithubGitPath.upstreamUrl crate upstreams ⟨owner, repo, .infoRefs⟩ query =
        if query = GithubGitRpc.infoRefs.query then
          (joinUrl crate upstreams.github (owner ++ "/".toList ++ repo ++ ".git/info/refs".toList)).map fun url =>
            { url with query := GithubGitRpc.infoRefs.query }
        else none := rfl
    rw [hdef, infoRefs_tail]
    split
    · next hq =>
      rw [Option.map_eq_some_iff]
      simp only [hq, true_and, eq_comm]
    · next hq => simp only [hq, false_and, reduceCtorEq]
  | uploadPack =>
    have hdef : GithubGitPath.upstreamUrl crate upstreams ⟨owner, repo, .uploadPack⟩ query =
        if query = GithubGitRpc.uploadPack.query then
          joinUrl crate upstreams.github (owner ++ "/".toList ++ repo ++ ".git/git-upload-pack".toList)
        else none := rfl
    rw [hdef, uploadPack_tail]
    split
    · next hq =>
      refine ⟨fun h => ⟨hq, url, h, (set_query (joinUrl_query h)).symm⟩, ?_⟩
      rintro ⟨-, base, hbase, rfl⟩
      rw [hbase]
      exact congrArg some (set_query (joinUrl_query hbase)).symm
    · next hq => simp only [hq, false_and, reduceCtorEq]

/-- The method and the RPC have to go together; the query is looked at on the way to the URL. -/
theorem resolve_forward_iff {path : GithubGitPath} {query : Option Str} :
    path.resolve crate upstreams method query = .forward m url ↔
      m = method ∧ method = path.rpc.method ∧ path.upstreamUrl crate upstreams query = some url := by
  refine ⟨fun h => ?_, ?_⟩
  · unfold GithubGitPath.resolve at h
    split at h
    · split at h
      · next hrpc =>
        split at h
        · split at h
          · cases h
          · next hup =>
            cases h
            exact ⟨rfl, by rw [hrpc]; rfl, hup⟩
        · split at h <;> cases h
      · cases h
    · split at h
      · next hrpc =>
        split at h
        · cases h
        · next hq =>
          rw [Option.not_isSome_iff_eq_none] at hq
          split at h
          · cases h
          · next hup =>
            cases h
            exact ⟨rfl, by rw [hrpc]; rfl, hq ▸ hup⟩
      · cases h
    · cases h
  · rintro ⟨rfl, rfl, hup⟩
    have hq := (upstreamUrl_some_iff.1 hup).1
    unfold GithubGitPath.resolve
    cases hrpc : path.rpc with
    | infoRefs =>
      rw [hrpc] at hq
      have hq : query = some "service=git-upload-pack".toList := hq
      simp only [GithubGitRpc.method, hup, if_pos hq]
    | uploadPack =>
      rw [hrpc] at hq
      have hq : query = none := hq
      subst hq
      simp [GithubGitRpc.method, hup]

/-- What is left to decide once the URI is a mere path. -/
theorem fromRequest_path_iff :
    fromRequest crate upstreams method uri = .forward m url ↔
      uri.scheme = none ∧ uri.authority = none ∧ method ≠ .connect ∧ ∃ path,
        parseGithubGitRequestPath uri.path = .ok (some path) ∧
          path.resolve crate upstreams method uri.query = .forward m url := by
  refine ⟨fun h => ?_, ?_⟩
  · unfold fromRequest at h
    split at h
    · cases h
    · split at h
      · cases h
      · next hconnect =>
        split at h
        · cases h
        · next habsolute =>
          rw [not_or, Option.not_isSome_iff_eq_none, Option.not_isSome_iff_eq_none] at habsolute
          split at h
          · next path hpath => exact ⟨habsolute.1, habsolute.2, hconnect, path, hpath, h⟩
          · cases h
          · cases h
          · cases h
  · rintro ⟨hscheme, hauthority, hconnect, path, hpath, hresolve⟩
    simp [fromRequest, uriContainsUserinfo, hscheme, hauthority, hconnect, hpath, hresolve]

theorem fromRequest_forward_iff :
    fromRequest crate upstreams method uri = .forward m url ↔
      m = method ∧ ∃ rpc owner segment, Forwarded crate upstreams rpc owner segment method uri url := by
  rw [fromRequest_path_iff]
  refine ⟨?_, ?_⟩
  · rintro ⟨hscheme, hauthority, -, path, hpath, hresolve⟩
    obtain ⟨segment, hraw, howner, hrepo, hstrip⟩ := parse_some_iff.1 hpath
    obtain ⟨hm, hmethod, hup⟩ := resolve_forward_iff.1 hresolve
    obtain ⟨hquery, hup⟩ := upstreamUrl_some_iff.1 hup
    rw [hstrip] at hup
    exact ⟨hm, path.rpc, path.owner, segment, hscheme, hauthority, hmethod, hraw, hquery, hrepo.of_stripGit.no_slash,
      howner, hrepo, hup⟩
  · rintro ⟨rfl, rpc, owner, segment, hf⟩
    refine ⟨hf.no_scheme, hf.no_authority, ?_, ⟨owner, stripGit segment, rpc⟩, ?_, ?_⟩
    · rw [hf.method]
      cases rpc <;> simp [GithubGitRpc.method]
    · rw [hf.path]
      exact parse_named rpc hf.owner_name hf.repo_name
    · exact resolve_forward_iff.2 ⟨rfl, hf.method, upstreamUrl_some_iff.2 ⟨hf.query, hf.upstream⟩⟩

theorem Forwarded.target {rpc : GithubGitRpc} {owner segment : Str}
    (h : Forwarded crate upstreams rpc owner segment method uri url) :
    url = { upstreams.github.url with
      path := "/".toList ++ owner ++ "/".toList ++ stripGit segment ++ ".git".toList ++ rpc.tail, query := rpc.query } := by
  obtain ⟨base, hbase, rfl⟩ := h.upstream
  rw [joinUrl_some hbase]
  rfl

end

/-! ## Plain names -/

/-- The characters of a GitHub name. -/
def nameChar (c : Char) : Bool := c.isAlphanum || c = '.' || c = '_' || c = '-'

theorem nameChar_unreserved {c : Char} (h : nameChar c = true) : unreserved c = true := by
  simp only [nameChar, Bool.or_eq_true, decide_eq_true_eq] at h
  simp only [unreserved, Bool.or_eq_true, decide_eq_true_eq]
  tauto

theorem canonicalSegment_name {name : Str} (h : RepoName name) (hchars : ∀ c ∈ name, unreserved c = true) :
    canonicalSegment name = true :=
  canonicalSegment_unreserved h.ne_nil h.ne_dot h.ne_dots hchars

/-- The path of a repository with a plain name joins to GitHub. -/
theorem joinUrl_names (crate : UrlCrate) (base : Origin) {owner repo : Str} (rpc : GithubGitRpc)
    (howner : RepoName owner) (hrepo : RepoName repo) (hchars : ∀ c ∈ owner ++ repo, unreserved c = true) :
    ∃ url, joinUrl crate base (owner ++ "/".toList ++ repo ++ rpc.tail) = some url := by
  have hrpc : ∀ s ∈ rpc.segments, canonicalSegment s = true := by
    have hinfo : canonicalSegment "info".toList = true := rfl
    have hrefs : canonicalSegment "refs".toList = true := rfl
    have hupload : canonicalSegment "git-upload-pack".toList = true := rfl
    cases rpc with
    | infoRefs => simpa [GithubGitRpc.segments] using And.intro hinfo hrefs
    | uploadPack => simpa [GithubGitRpc.segments] using hupload
  have hsegments : ∀ s ∈ owner :: repo :: rpc.segments, canonicalSegment s = true := by
    simp only [List.mem_cons, forall_eq_or_imp]
    exact ⟨canonicalSegment_name howner fun c hc => hchars c (List.mem_append_left _ hc),
      canonicalSegment_name hrepo fun c hc => hchars c (List.mem_append_right _ hc), hrpc⟩
  have hpath : ∀ c ∈ owner ++ "/".toList ++ repo ++ rpc.tail, unreserved c = true ∨ c = '/' := by
    have hall : (rpc.tail.all fun c => unreserved c || c = '/') = true := by cases rpc <;> rfl
    have htail : ∀ c ∈ rpc.tail, unreserved c = true ∨ c = '/' := by simpa using hall
    intro c hc
    simp only [List.mem_append] at hc
    rcases hc with ((hc | hc) | hc) | hc
    · exact .inl (hchars c (List.mem_append_left _ hc))
    · exact .inr (List.mem_singleton.1 hc)
    · exact .inl (hchars c (List.mem_append_right _ hc))
    · exact htail c hc
  refine ⟨_, joinUrl_iff.2 ⟨?_, hasScheme_false fun hcolon => ?_, fun c hc => ?_, rfl⟩⟩
  · rw [← intercalate_path]
    exact canonicalPath_of_segments (List.cons_ne_nil _ _) hsegments
  · rcases hpath _ hcolon with hu | hslash
    · exact (unreserved_plain hu).2.2.2 rfl
    · exact absurd hslash (by decide)
  · rw [← Bool.not_eq_true]
    intro henc
    obtain ⟨hu, -, hslash⟩ := crate.encodes_reserved henc
    rcases hpath c hc with hc' | hc'
    · rw [hu] at hc'
      cases hc'
    · exact hslash hc'

/-! ## The listener -/

/-- The two ways to ask a repository for a push. -/
def Pushes (url : Url) : Prop :=
  "/git-receive-pack".toList <:+ url.path ∨ url.query = some "service=git-receive-pack".toList

/-- What the git listener is for. -/
structure ReadOnly (crate : UrlCrate) (upstreams : RegistryOrigins) : Prop where
  /-- It forwards the requests of the grammar and no other. -/
  grammar : ∀ {method uri m url}, fromRequest crate upstreams method uri = .forward m url ↔
    m = method ∧ ∃ rpc owner segment, Forwarded crate upstreams rpc owner segment method uri url
  /-- It forwards them to GitHub, to the suffixed name of the repository. -/
  target : ∀ {rpc owner segment method uri url}, Forwarded crate upstreams rpc owner segment method uri url →
    matchesOrigin url upstreams.github.url = true ∧
      url.path = "/".toList ++ owner ++ "/".toList ++ stripGit segment ++ ".git".toList ++ rpc.tail ∧
      url.query = rpc.query
  /-- Plain names are never refused. -/
  plain_names : ∀ (rpc : GithubGitRpc) {owner segment}, RepoName owner → RepoName (stripGit segment) →
    (∀ c ∈ owner ++ segment, nameChar c = true) → ∃ url, fromRequest crate upstreams rpc.method
      ⟨none, none, "/".toList ++ owner ++ "/".toList ++ segment ++ rpc.tail, rpc.query⟩ = .forward rpc.method url
  /-- The suffix makes no difference to a name that does not end in another. -/
  suffix : ∀ (rpc : GithubGitRpc) {owner repo method query m url}, '/' ∉ owner → '/' ∉ repo → ¬".git".toList <:+ repo →
    (fromRequest crate upstreams method ⟨none, none, "/".toList ++ owner ++ "/".toList ++ repo ++ rpc.tail, query⟩ =
        .forward m url ↔
      fromRequest crate upstreams method
        ⟨none, none, "/".toList ++ owner ++ "/".toList ++ (repo ++ ".git".toList) ++ rpc.tail, query⟩ = .forward m url)
  /-- Nothing is forwarded that could write. -/
  no_push : ∀ {method uri m url}, fromRequest crate upstreams method uri = .forward m url → ¬Pushes url

section
variable {crate : UrlCrate} {upstreams : RegistryOrigins} {method m : Method} {uri : Uri} {url : Url}

theorem stripGit_git (name : Str) : stripGit (name ++ ".git".toList) = name := by
  have h : (name ++ ".git".toList).dropSuffix? ".git".toList = some name :=
    List.dropSuffix?_eq_some_iff.2 ⟨_, rfl, beq_self_eq_true _⟩
  rw [stripGit, h]
  rfl

theorem stripGit_self {name : Str} (h : ¬".git".toList <:+ name) : stripGit name = name := by
  rcases stripGit_cases name with heq | heq
  · exact heq.symm
  · exact absurd ⟨_, heq.symm⟩ h

/-- A forwarded path gives away its parts. -/
theorem Forwarded.parts {rpc rpc' : GithubGitRpc} {owner segment owner' segment' : Str}
    (h : Forwarded crate upstreams rpc owner segment method uri url) (howner : '/' ∉ owner') (hsegment : '/' ∉ segment')
    (hpath : uri.path = "/".toList ++ owner' ++ "/".toList ++ segment' ++ rpc'.tail) :
    owner = owner' ∧ segment = segment' ∧ rpc = rpc' := by
  have hraw : owner ++ "/".toList ++ segment ++ rpc.tail = owner' ++ "/".toList ++ segment' ++ rpc'.tail :=
    (List.cons.inj (h.path.symm.trans hpath)).2
  have hsplit := congrArg (List.splitOn '/') hraw
  rw [splitOn_path rpc h.owner_name.no_slash h.one_segment, splitOn_path rpc' howner hsegment] at hsplit
  simp only [List.cons.injEq] at hsplit
  refine ⟨hsplit.1, hsplit.2.1, ?_⟩
  cases rpc <;> cases rpc' <;> first | rfl | exact absurd hsplit.2.2 (by decide)

/-- Two segments that stand for one repository are forwarded alike. -/
theorem forward_same_repo (rpc : GithubGitRpc) {owner segment segment' : Str} {query : Option Str}
    (howner : '/' ∉ owner) (hsegment : '/' ∉ segment) (hsegment' : '/' ∉ segment')
    (hsame : stripGit segment = stripGit segment')
    (h : fromRequest crate upstreams method
      ⟨none, none, "/".toList ++ owner ++ "/".toList ++ segment ++ rpc.tail, query⟩ = .forward m url) :
    fromRequest crate upstreams method
      ⟨none, none, "/".toList ++ owner ++ "/".toList ++ segment' ++ rpc.tail, query⟩ = .forward m url := by
  obtain ⟨hm, rpc', owner', segment'', hf⟩ := fromRequest_forward_iff.1 h
  obtain ⟨rfl, rfl, rfl⟩ := hf.parts howner hsegment rfl
  refine fromRequest_forward_iff.2 ⟨hm, rpc', owner', segment', rfl, rfl, hf.method, rfl, hf.query, hsegment',
    hf.owner_name, hsame ▸ hf.repo_name, hsame ▸ hf.upstream⟩

theorem fromRequest_plain_names (crate : UrlCrate) (upstreams : RegistryOrigins) (rpc : GithubGitRpc)
    {owner segment : Str} (howner : RepoName owner) (hrepo : RepoName (stripGit segment))
    (hchars : ∀ c ∈ owner ++ segment, nameChar c = true) : ∃ url, fromRequest crate upstreams rpc.method
      ⟨none, none, "/".toList ++ owner ++ "/".toList ++ segment ++ rpc.tail, rpc.query⟩ = .forward rpc.method url := by
  have hgit : ∀ c ∈ owner ++ (stripGit segment ++ ".git".toList), unreserved c = true := by
    have hall : (".git".toList.all unreserved) = true := rfl
    have hsuffix : ∀ c ∈ ".git".toList, unreserved c = true := List.all_eq_true.1 hall
    have hstrip : ∀ c ∈ stripGit segment, c ∈ segment := by
      intro c hc
      rcases stripGit_cases segment with heq | heq
      · exact heq ▸ hc
      · exact heq ▸ List.mem_append_left _ hc
    intro c hc
    simp only [List.mem_append] at hc
    rcases hc with hc | hc | hc
    · exact nameChar_unreserved (hchars c (List.mem_append_left _ hc))
    · exact nameChar_unreserved (hchars c (List.mem_append_right _ (hstrip c hc)))
    · exact hsuffix c hc
  obtain ⟨base, hbase⟩ := joinUrl_names crate upstreams.github rpc howner hrepo.git hgit
  rw [← List.append_assoc] at hbase
  exact ⟨_, fromRequest_forward_iff.2 ⟨rfl, rpc, owner, segment, rfl, rfl, rfl, rfl, rfl, hrepo.of_stripGit.no_slash,
    howner, hrepo, base, hbase, rfl⟩⟩

theorem Forwarded.not_pushes {rpc : GithubGitRpc} {owner segment : Str}
    (h : Forwarded crate upstreams rpc owner segment method uri url) : ¬Pushes url := by
  rw [h.target]
  rintro (hpath | hquery)
  · have hsuffix : rpc.tail <:+ "/".toList ++ owner ++ "/".toList ++ stripGit segment ++ ".git".toList ++ rpc.tail :=
      List.suffix_append _ _
    cases rpc with
    | infoRefs => exact absurd (List.suffix_of_suffix_length_le hsuffix hpath (by decide)) (by decide)
    | uploadPack => exact absurd (List.suffix_of_suffix_length_le hsuffix hpath (by decide)) (by decide)
  · cases rpc with
    | infoRefs =>
      have hne : "service=git-upload-pack".toList ≠ "service=git-receive-pack".toList := by decide
      exact hne (Option.some.inj hquery)
    | uploadPack => cases hquery

end

/-- **The git listener is read-only.** It forwards exactly the requests of the
clone and fetch grammar, to the URLs GitHub has them under. -/
theorem git_listener_read_only (crate : UrlCrate) (upstreams : RegistryOrigins) : ReadOnly crate upstreams where
  grammar := fromRequest_forward_iff
  target := by
    intro rpc owner segment method uri url h
    rw [h.target]
    exact ⟨by simp [matchesOrigin, Url.portOrKnownDefault], rfl, rfl⟩
  plain_names := fromRequest_plain_names crate upstreams
  suffix := by
    intro rpc owner repo method query m url howner hrepo hplain
    have hgit : '/' ∉ repo ++ ".git".toList := by simp [hrepo]
    have hsame : stripGit repo = stripGit (repo ++ ".git".toList) := by rw [stripGit_self hplain, stripGit_git]
    exact ⟨forward_same_repo rpc howner hrepo hgit hsame, forward_same_repo rpc howner hgit hrepo hsame.symm⟩
  no_push := by
    intro method uri m url h
    obtain ⟨-, rpc, owner, segment, hf⟩ := fromRequest_forward_iff.1 h
    exact hf.not_pushes

/-- A clone begins so; what is asked of GitHub could not push. -/
theorem git_listener_read_only_clone : ∃ url, fromRequest plainUrls .default GithubGitRpc.infoRefs.method
    ⟨none, none, "/octo/repo.git/info/refs".toList, GithubGitRpc.infoRefs.query⟩ =
      .forward GithubGitRpc.infoRefs.method url ∧ url.path = "/octo/repo.git/info/refs".toList ∧ ¬Pushes url := by
  have hlistener := git_listener_read_only plainUrls .default
  have howner : RepoName "octo".toList := validRepoSegment_iff.1 (by decide)
  have hrepo : RepoName (stripGit "repo.git".toList) := validRepoSegment_iff.1 (by decide)
  have htext : "/octo/repo.git/info/refs".toList =
      "/".toList ++ "octo".toList ++ "/".toList ++ "repo.git".toList ++ GithubGitRpc.infoRefs.tail := by decide
  have hstrip : "/octo/repo.git/info/refs".toList =
      "/".toList ++ "octo".toList ++ "/".toList ++ stripGit "repo.git".toList ++ ".git".toList ++
        GithubGitRpc.infoRefs.tail := by decide
  obtain ⟨url, h⟩ := hlistener.plain_names .infoRefs howner hrepo (by simp [nameChar])
  rw [← htext] at h
  obtain ⟨-, rpc, owner, segment, hf⟩ := hlistener.grammar.1 h
  have hslash : '/' ∉ "repo.git".toList := by decide
  obtain ⟨rfl, rfl, rfl⟩ := hf.parts howner.no_slash hslash htext
  exact ⟨url, h, (hlistener.target hf).2.1.trans hstrip.symm, hlistener.no_push h⟩

end Vampire.Git
