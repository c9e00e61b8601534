/-
The headers of a client's response on every path that relays an upstream one:
`meta_from_upstream`, `meta_for_bytes` and `strip_header` make the list that
is stored or served, `apply_headers` makes a response's headers of such a list,
and git forwarding has a copy loop of its own.

A header map is the list of its pairs, the values of a name in their order. Both
copies end in `HeaderMap::insert`, which replaces what a name had: of
several values of a name the last one reaches the client.
-/
import Vampire.Codec
import Vampire.Names

namespace Vampire.Relay

open Lib

abbrev HeaderMap := List (Str × Bytes)

/-- The values of a name (`HeaderMap::get_all`). -/
def getAll {α : Type} (headers : List (Str × α)) (name : Str) : List α :=
  (headers.filter (·.1 = name)).map (·.2)

/-- `HeaderMap::insert` -/
def insert (headers : HeaderMap) (name : Str) (value : Bytes) : HeaderMap :=
  headers.filter (·.1 ≠ name) ++ [(name, value)]

/-- `eq_ignore_ascii_case` -/
def eqIgnoreAsciiCase (a b : Str) : Bool := a.map Char.toLower = b.map Char.toLower

/-- `HeaderName::from_bytes`; a header's name is in lower case. -/
def headerName (name : Str) : Option Str :=
  if name.isEmpty || 65535 < name.length then none
  else name.mapM fun c => if c.isAlphanum || "!#$%&'*+-.^_`|~".toList.contains c then some c.toLower else none

/-- `HeaderValue::from_str` -/
def headerValue (value : Str) : Option Bytes :=
  if (utf8 value).all fun b => 32 ≤ b && b ≠ 127 || b = 9 then some (utf8 value) else none

def visibleAscii (b : UInt8) : Bool := 32 ≤ b && b < 127 || b = 9

/-- `HeaderValue::to_str` -/
def toStr (value : Bytes) : Option Str :=
  if value.all visibleAscii then some (value.map fun b => Char.ofNat b.toNat) else none

structure Upstream where
  status : Nat
  headers : HeaderMap
  names : ∀ p ∈ headers, headerName p.1 = some p.1

instance encodableChar : Encodable Char :=
  .ofLeftInjection Char.toNat (fun n => some (Char.ofNat n)) fun c => by rw [Char.ofNat_toNat]

structure StoredResponseMeta where
  headers : List (Str × Str)
  lastModified : Option Str
  etag : Option Str
  status : Nat
  deriving DecidableEq, Encodable

/-! ## The source's functions -/

def contentLengthName : Str := "content-length".toList
def contentTypeName : Str := "content-type".toList
def etagName : Str := "etag".toList
def lastModifiedName : Str := "last-modified".toList

/-- `is_hop_header` -/
def isHopHeader (name : Str) : Bool :=
  ["connection", "keep-alive", "proxy-authenticate", "proxy-authorization", "te", "trailer", "transfer-encoding",
    "upgrade"].any fun h => eqIgnoreAsciiCase name h.toList

/-- `meta_from_upstream` -/
def metaFromUpstream (upstream : Upstream) (contentLength : Option Nat) : StoredResponseMeta where
  headers :=
    (upstream.headers.filterMap fun (name, value) =>
      if isHopHeader name then none
      else if contentLength.isSome && name = contentLengthName then none
      else (toStr value).map fun value => (name, value)) ++
    (contentLength.map fun n => (contentLengthName, (Nat.repr n).toList)).toList
  lastModified := (getAll upstream.headers lastModifiedName).head?.bind toStr
  etag := (getAll upstream.headers etagName).head?.bind toStr
  status := upstream.status

/-- `strip_header` -/
def stripHeader (headers : List (Str × Str)) (name : Str) : List (Str × Str) :=
  headers.filter fun header => !eqIgnoreAsciiCase header.1 name

/-- `meta_for_bytes` -/
def metaForBytes (upstream : Upstream) (contentLength : Nat) (exposeUpstreamValidators : Bool) :
    StoredResponseMeta :=
  let info := metaFromUpstream upstream (some contentLength)
  let headers :=
    if exposeUpstreamValidators then info.headers
    else stripHeader (stripHeader info.headers etagName) lastModifiedName
  if headers.any fun header => eqIgnoreAsciiCase header.1 contentTypeName then { info with headers }
  else { info with headers := headers ++ [(contentTypeName, "application/octet-stream".toList)] }

/-- The body of `apply_headers`' loop. -/
def applyHeader (headers : HeaderMap) (header : Str × Str) : HeaderMap :=
  match headerName header.1, headerValue header.2 with
  | some name, some value => insert headers name value
  | _, _ => headers

/-- `apply_headers`, on a new response. -/
def applyHeaders (pairs : List (Str × Str)) : HeaderMap := pairs.foldl applyHeader []

/-- The copy loop of `handle_git`. -/
def gitHeaders (upstream : Upstream) : HeaderMap :=
  upstream.headers.foldl (fun out header => if isHopHeader header.1 then out else insert out header.1 header.2) []

/-! ## The paths -/

/-- Where an upstream response goes on its way to a client. -/
inductive Path
  | git
  /-- A 200, stored and read again: a hit or a joined result. -/
  | artifact (body : Bytes)
  /-- `FetchOutcome::NonOk` -/
  | artifactError (body : Bytes)
  /-- The leader's response and those that joined it. -/
  | metadata (rewrite : MetadataRewrite) (body : Bytes)
  /-- Stored, and served again on a 304. -/
  | revalidated (rewrite : MetadataRewrite) (body : Bytes)
  /-- Search and audit. -/
  | npmRequest (body : Bytes)

/-- `matches!(rewrite, MetadataRewrite::None)` -/
def exposes : MetadataRewrite → Bool
  | .none => true
  | .npm _ | .pypi _ => false

section
variable (serde : Serde StoredResponseMeta)

/-- The metadata an entry gives back, written behind its body. -/
def reload (body : Bytes) (info : StoredResponseMeta) : IoResult StoredResponseMeta := do
  let json ← serializeMeta serde info
  let (info, _) ← readFooter serde (body ++ json ++ toBeBytes json.length)
  return info

/-- The headers of the client's response. -/
def relay (upstream : Upstream) : Path → IoResult HeaderMap
  | .git => .ok (gitHeaders upstream)
  | .artifact body => do
    let info ← reload serde body (metaFromUpstream upstream (some body.length))
    return applyHeaders info.headers
  | .artifactError body | .npmRequest body => .ok (applyHeaders (metaForBytes upstream body.length true).headers)
  | .metadata rewrite body => .ok (applyHeaders (metaForBytes upstream body.length (exposes rewrite)).headers)
  | .revalidated rewrite body => do
    let info ← reload serde body (metaForBytes upstream body.length (exposes rewrite))
    return applyHeaders info.headers

end

/-! ## What is asked of a path -/

def Path.rewrites : Path → Bool
  | .metadata rewrite _ | .revalidated rewrite _ => !exposes rewrite
  | _ => false

/-- The names whose values a path relays. -/
def Path.Relays (path : Path) (name : Str) : Prop :=
  isHopHeader name = false ∧ name ≠ contentLengthName ∧
    (path.rewrites = true → name ≠ etagName ∧ name ≠ lastModifiedName)

/-- The client gets the upstream's values of every relayed name, and perhaps a default content type. -/
def Intact (path : Path) (upstream : Upstream) (out : HeaderMap) : Prop :=
  ∀ name, path.Relays name → getAll out name = getAll upstream.headers name ∨
    name = contentTypeName ∧ getAll upstream.headers name = [] ∧
      getAll out name = [utf8 "application/octet-stream".toList]

/-- Every value of the response is visible ASCII. -/
def Upstream.Visible (upstream : Upstream) : Prop := ∀ p ∈ upstream.headers, p.2.all visibleAscii = true

/-! ## Header maps -/

theorem getAll_append {α : Type} (xs ys : List (Str × α)) (name : Str) :
    getAll (xs ++ ys) name = getAll xs name ++ getAll ys name := by
  simp [getAll]

theorem getAll_singleton {α : Type} (name' name : Str) (value : α) :
    getAll [(name', value)] name = if name' = name then [value] else [] := by
  by_cases h : name' = name <;> simp [getAll, h]

theorem getAll_filter_ne {headers : HeaderMap} {name' name : Str} :
    getAll (headers.filter (·.1 ≠ name')) name = if name' = name then [] else getAll headers name := by
  rw [getAll, List.filter_filter]
  split
  next h =>
    subst h
    simp
  next h =>
    refine congrArg _ (List.filter_congr fun p _ => ?_)
    by_cases hp : p.1 = name
    · simp [hp, Ne.symm h]
    · simp [hp]

theorem getAll_insert (headers : HeaderMap) (name' name : Str) (value : Bytes) :
    getAll (insert headers name' value) name = if name' = name then [value] else getAll headers name := by
  rw [insert, getAll_append, getAll_filter_ne, getAll_singleton]
  split <;> simp

/-- Inserting one after the other leaves the last value of a name. -/
theorem getAll_foldl_insert (pairs : HeaderMap) (name : Str) : ∀ headers : HeaderMap,
    getAll (pairs.foldl (fun out p => insert out p.1 p.2) headers) name =
      if getAll pairs name = [] then getAll headers name else (getAll pairs name).getLast?.toList := by
  induction pairs with
  | nil => intro headers; rfl
  | cons p pairs ih =>
    intro headers
    rw [List.foldl_cons, ih, getAll_insert, show p :: pairs = [p] ++ pairs from rfl, getAll_append, getAll_singleton]
    by_cases hp : p.1 = name
    · have hne : [p.2] ++ getAll pairs name ≠ [] := List.cons_ne_nil _ _
      rw [if_pos hp, if_pos hp, if_neg hne]
      by_cases hrest : getAll pairs name = []
      · rw [if_pos hrest, hrest]
        rfl
      · rw [if_neg hrest, List.getLast?_append_of_ne_nil _ hrest]
    · rw [if_neg hp, if_neg hp, List.nil_append]

/-! ## What `apply_headers` makes of a list of pairs -/

/-- Every name is one of a header map. -/
def Normal (pairs : List (Str × Str)) : Prop := ∀ p ∈ pairs, headerName p.1 = some p.1

theorem getAll_filterMap {α β : Type} (f : α → Option β) (pairs : List (Str × α)) (name : Str) :
    getAll (pairs.filterMap fun p => (f p.2).map fun value => (p.1, value)) name =
      (getAll pairs name).filterMap f := by
  induction pairs with
  | nil => rfl
  | cons p pairs ih =>
    rw [show p :: pairs = [p] ++ pairs from rfl, getAll_append, List.filterMap_append, List.filterMap_append,
      getAll_append, ih, getAll_singleton]
    cases hv : f p.2 with
    | none =>
      by_cases hp : p.1 = name <;> simp [hv, hp, getAll]
    | some value =>
      by_cases hp : p.1 = name <;> simp [hv, hp, getAll]

/-- The last of a name's values reaches the response. -/
theorem getAll_applyHeaders {pairs : List (Str × Str)} (hn : Normal pairs) (name : Str) :
    getAll (applyHeaders pairs) name = ((getAll pairs name).filterMap headerValue).getLast?.toList := by
  have hfold : ∀ headers : HeaderMap, pairs.foldl applyHeader headers =
      (pairs.filterMap fun p => (headerValue p.2).map fun value => (p.1, value)).foldl
        (fun out p => insert out p.1 p.2) headers := by
    induction pairs with
    | nil => intro headers; rfl
    | cons p pairs ih =>
      intro headers
      rw [List.foldl_cons, ih fun q hq => hn q (List.mem_cons_of_mem _ hq), applyHeader,
        hn p (List.mem_cons_self ..)]
      cases hv : headerValue p.2 with
      | none => simp [hv]
      | some value => simp [hv]
  rw [applyHeaders, hfold, getAll_foldl_insert, getAll_filterMap]
  split
  next hnone => rw [hnone]; rfl
  next => rfl

/-! ## Names and values -/

theorem mapM_toLower {p : Char → Bool} {name out : Str}
    (h : name.mapM (fun c => if p c then some c.toLower else none) = some out) : out = name.map Char.toLower := by
  induction name generalizing out with
  | nil =>
    cases h
    rfl
  | cons c name ih =>
    simp only [List.mapM_cons, Option.bind_eq_bind, Option.bind_eq_some_iff, Option.ite_none_right_eq_some] at h
    obtain ⟨_, ⟨-, hc⟩, rest, hrest, h⟩ := h
    cases hc
    cases h
    rw [ih hrest, List.map_cons]

/-- A header's name is in lower case. -/
theorem map_toLower_of_headerName {name : Str} (h : headerName name = some name) : name.map Char.toLower = name := by
  rw [headerName] at h
  split at h
  next => cases h
  next => exact (mapM_toLower h).symm

theorem utf8EncodeChar_visible {b : UInt8} (h : visibleAscii b = true) :
    String.utf8EncodeChar (Char.ofNat b.toNat) = [b] := by
  have hlt : b.toNat < 128 := by
    simp only [visibleAscii, Bool.or_eq_true, Bool.and_eq_true, decide_eq_true_eq, UInt8.le_iff_toNat_le,
      UInt8.lt_iff_toNat_lt, UInt8.reduceToNat] at h
    rcases h with h | rfl
    · omega
    · decide
  have hchar : (Char.ofNat b.toNat).toNat = b.toNat := toNat_ofNat_byte (by omega)
  rw [utf8EncodeChar_ascii (hchar.symm ▸ hlt), hchar, UInt8.ofNat_toNat]

/-- A visible value is stored as text and read as the same value. -/
theorem headerValue_toStr {value : Bytes} (h : value.all visibleAscii = true) :
    ∃ text, toStr value = some text ∧ headerValue text = some value := by
  have hutf8 : utf8 (value.map fun b => Char.ofNat b.toNat) = value := by
    induction value with
    | nil => rfl
    | cons b value ih =>
      rw [List.all_cons, Bool.and_eq_true] at h
      rw [List.map_cons, utf8_cons, utf8EncodeChar_visible h.1, ih h.2]
      rfl
  refine ⟨_, if_pos h, ?_⟩
  rw [headerValue, hutf8, if_pos]
  refine List.all_eq_true.2 fun b hb => ?_
  have := List.all_eq_true.1 h b hb
  simp only [visibleAscii, Bool.or_eq_true, Bool.and_eq_true, decide_eq_true_eq] at this ⊢
  refine this.imp_left fun hb => ⟨hb.1, ?_⟩
  rintro rfl
  exact absurd hb.2 (by decide)

theorem values_toStr {values : List Bytes} (h : ∀ value ∈ values, value.all visibleAscii = true) :
    (values.filterMap toStr).filterMap headerValue = values := by
  induction values with
  | nil => rfl
  | cons value values ih =>
    obtain ⟨text, htext, hvalue⟩ := headerValue_toStr (h value (List.mem_cons_self ..))
    rw [List.filterMap_cons_some htext, List.filterMap_cons_some hvalue,
      ih fun v hv => h v (List.mem_cons_of_mem _ hv)]

theorem eqIgnoreAsciiCase_iff {a b : Str} (ha : a.map Char.toLower = a) (hb : b.map Char.toLower = b) :
    eqIgnoreAsciiCase a b = true ↔ a = b := by
  rw [eqIgnoreAsciiCase, ha, hb, decide_eq_true_eq]

/-! ## What the list of pairs holds -/

section
variable {upstream : Upstream} {name : Str}

theorem Upstream.Visible.getAll (h : upstream.Visible) (name : Str) :
    ∀ value ∈ getAll upstream.headers name, value.all visibleAscii = true := by
  intro value hv
  obtain ⟨p, hp, rfl⟩ := List.mem_map.1 hv
  exact h p (List.mem_filter.1 hp).1

theorem normal_metaFromUpstream (contentLength : Option Nat) :
    Normal (metaFromUpstream upstream contentLength).headers := by
  intro p hp
  rcases List.mem_append.1 hp with hp | hp
  · obtain ⟨⟨name, value⟩, hq, hf⟩ := List.mem_filterMap.1 hp
    simp only [Option.ite_none_left_eq_some, Option.map_eq_some_iff] at hf
    obtain ⟨-, -, text, -, rfl⟩ := hf
    exact upstream.names _ hq
  · obtain ⟨n, -, rfl⟩ := Option.map_eq_some_iff.1 (Option.mem_toList.1 hp)
    show headerName contentLengthName = some contentLengthName
    decide

theorem getAll_metaFromUpstream (contentLength : Option Nat) (hop : isHopHeader name = false)
    (hlength : name ≠ contentLengthName) :
    getAll (metaFromUpstream upstream contentLength).headers name = (getAll upstream.headers name).filterMap toStr := by
  have hlast : getAll (contentLength.map fun n => (contentLengthName, (Nat.repr n).toList)).toList name = [] := by
    cases contentLength with
    | none => rfl
    | some n => exact (getAll_singleton ..).trans (if_neg hlength.symm)
  rw [metaFromUpstream, getAll_append, hlast, List.append_nil]
  induction upstream.headers with
  | nil => rfl
  | cons p headers ih =>
    rw [show p :: headers = [p] ++ headers from rfl, List.filterMap_append, getAll_append, getAll_append,
      List.filterMap_append, ih, getAll_singleton]
    congr 1
    by_cases hp : p.1 = name
    · obtain ⟨pname, value⟩ := p
      cases hp
      cases hv : toStr value with
      | none => simp [hop, hlength, hv, getAll]
      | some text => simp [hop, hlength, hv, getAll]
    · -- Whatever becomes of the pair, its name stays.
      rw [if_neg hp, List.filterMap_nil, getAll, List.map_eq_nil_iff, List.filter_eq_nil_iff]
      intro q hq
      obtain ⟨r, hr, hf⟩ := List.mem_filterMap.1 hq
      cases List.mem_singleton.1 hr
      simp only [Option.ite_none_left_eq_some, Option.map_eq_some_iff] at hf
      obtain ⟨-, -, text, -, rfl⟩ := hf
      simpa using hp

theorem normal_stripHeader {pairs : List (Str × Str)} (h : Normal pairs) (name : Str) :
    Normal (stripHeader pairs name) :=
  fun p hp => h p (List.mem_filter.1 hp).1

theorem getAll_stripHeader {pairs : List (Str × Str)} {stripped : Str} (hn : Normal pairs)
    (hlower : stripped.map Char.toLower = stripped) (hne : name ≠ stripped) :
    getAll (stripHeader pairs stripped) name = getAll pairs name := by
  rw [getAll, getAll, stripHeader, List.filter_filter]
  refine congrArg _ (List.filter_congr fun p hp => ?_)
  by_cases h : p.1 = name
  · have : eqIgnoreAsciiCase p.1 stripped = false := by
      rw [Bool.eq_false_iff, Ne, eqIgnoreAsciiCase_iff (map_toLower_of_headerName (hn p hp)) hlower, h]
      exact hne
    simp [h ▸ this, h]
  · simp [h]

theorem getAll_eq_nil_of_any {pairs : List (Str × Str)} (hn : Normal pairs) {name : Str}
    (hlower : name.map Char.toLower = name) (h : (pairs.any fun header => eqIgnoreAsciiCase header.1 name) = false) :
    getAll pairs name = [] := by
  rw [getAll, List.map_eq_nil_iff, List.filter_eq_nil_iff]
  intro p hp
  have := List.any_eq_false.1 h p hp
  rw [eqIgnoreAsciiCase_iff (map_toLower_of_headerName (hn p hp)) hlower] at this
  simpa using this

/-- The values of a name that `meta_for_bytes` keeps, as a response takes them. -/
theorem metaForBytes_values (hv : upstream.Visible) (contentLength : Nat) {expose : Bool} (hop : isHopHeader name = false)
    (hlength : name ≠ contentLengthName) (hstrip : expose = false → name ≠ etagName ∧ name ≠ lastModifiedName) :
    Normal (metaForBytes upstream contentLength expose).headers ∧
    ((getAll (metaForBytes upstream contentLength expose).headers name).filterMap headerValue =
        getAll upstream.headers name ∨
      name = contentTypeName ∧ getAll upstream.headers name = [] ∧
        (getAll (metaForBytes upstream contentLength expose).headers name).filterMap headerValue =
          [utf8 "application/octet-stream".toList]) := by
  have hnormal : Normal (metaFromUpstream upstream (some contentLength)).headers := normal_metaFromUpstream _
  have hall : getAll (metaFromUpstream upstream (some contentLength)).headers name =
      (getAll upstream.headers name).filterMap toStr := getAll_metaFromUpstream _ hop hlength
  have hvalues := values_toStr (hv.getAll name)
  -- The list before the default content type: its names, and its values of this name.
  obtain ⟨headers, hdef, hn, hget⟩ : ∃ headers, headers = (if expose then (metaFromUpstream upstream
        (some contentLength)).headers else stripHeader (stripHeader (metaFromUpstream upstream
        (some contentLength)).headers etagName) lastModifiedName) ∧ Normal headers ∧
      getAll headers name = (getAll upstream.headers name).filterMap toStr := by
    refine ⟨_, rfl, ?_⟩
    cases expose with
    | true => exact ⟨hnormal, hall⟩
    | false =>
      obtain ⟨hetag, hmodified⟩ := hstrip rfl
      refine ⟨normal_stripHeader (normal_stripHeader hnormal _) _, ?_⟩
      rw [if_neg Bool.false_ne_true,
        getAll_stripHeader (normal_stripHeader hnormal _) (by decide) hmodified,
        getAll_stripHeader hnormal (by decide) hetag, hall]
  have hmeta : (metaForBytes upstream contentLength expose).headers =
      if headers.any (fun header => eqIgnoreAsciiCase header.1 contentTypeName) then headers
      else headers ++ [(contentTypeName, "application/octet-stream".toList)] := by
    rw [hdef]
    exact apply_ite StoredResponseMeta.headers _ _ _
  rw [hmeta]
  split
  next => exact ⟨hn, .inl (hget ▸ hvalues)⟩
  next hany =>
    refine ⟨?_, ?_⟩
    · intro p hp
      rcases List.mem_append.1 hp with hp | hp
      · exact hn p hp
      · rw [List.mem_singleton.1 hp]
        decide
    · rw [getAll_append, getAll_singleton, List.filterMap_append, hget, hvalues]
      by_cases hct : contentTypeName = name
      · subst hct
        have hnone := getAll_eq_nil_of_any hn (by decide) (Bool.eq_false_iff.2 hany)
        rw [hget] at hnone
        rw [hnone] at hvalues
        refine .inr ⟨rfl, hvalues.symm, ?_⟩
        rw [← hvalues, if_pos rfl]
        decide
      · rw [if_neg hct]
        exact .inl (List.append_nil _)

/-! ## Every path -/

theorem reload_ok {serde : Serde StoredResponseMeta} {body : Bytes} {info info' : StoredResponseMeta}
    (h : reload serde body info = .ok info') : info' = info := by
  rw [reload] at h
  cases hs : serializeMeta serde info with
  | error e =>
    rw [hs] at h
    cases h
  | ok json =>
    obtain ⟨rfl, hm⟩ := serializeMeta_ok.1 hs
    rw [hs, IoResult.ok_bind, readFooter_packed hm, parseMeta_toVec] at h
    cases h
    rfl

theorem getAll_gitHeaders (hop : isHopHeader name = false) :
    getAll (gitHeaders upstream) name = (getAll upstream.headers name).getLast?.toList := by
  have hfilter : gitHeaders upstream =
      (upstream.headers.filter fun p => !isHopHeader p.1).foldl (fun out p => insert out p.1 p.2) [] := by
    rw [List.foldl_filter, gitHeaders]
    congr 1
    funext out p
    cases isHopHeader p.1 <;> rfl
  have hkept : getAll (upstream.headers.filter fun p => !isHopHeader p.1) name = getAll upstream.headers name := by
    rw [getAll, getAll, List.filter_filter]
    refine congrArg _ (List.filter_congr fun p _ => ?_)
    by_cases hp : p.1 = name
    · simp [hp, hop]
    · simp [hp]
  rw [hfilter, getAll_foldl_insert, hkept]
  split
  next hnone =>
    rw [hnone]
    rfl
  next => rfl

/-- On every path the client gets the last of a relayed name's values, or of the default it was given. -/
theorem relay_last {serde : Serde StoredResponseMeta} {path : Path} {out : HeaderMap} (hv : upstream.Visible)
    (hout : relay serde upstream path = .ok out) (hrelays : path.Relays name) :
    ∃ values, getAll out name = values.getLast?.toList ∧ (values = getAll upstream.headers name ∨
      name = contentTypeName ∧ getAll upstream.headers name = [] ∧
        values = [utf8 "application/octet-stream".toList]) := by
  obtain ⟨hop, hlength, hstrip⟩ := hrelays
  have hbytes : ∀ (n : Nat) (expose : Bool), (expose = false → path.rewrites = true) →
      out = applyHeaders (metaForBytes upstream n expose).headers →
      ∃ values, getAll out name = values.getLast?.toList ∧ (values = getAll upstream.headers name ∨
        name = contentTypeName ∧ getAll upstream.headers name = [] ∧
          values = [utf8 "application/octet-stream".toList]) := by
    intro n expose hexpose he
    obtain ⟨hn, hvalues⟩ := metaForBytes_values hv n hop hlength fun h => hstrip (hexpose h)
    exact ⟨_, he ▸ getAll_applyHeaders hn name, hvalues⟩
  cases path with
  | git =>
    cases hout
    exact ⟨_, getAll_gitHeaders hop, .inl rfl⟩
  | artifact body =>
    rw [relay] at hout
    cases hr : reload serde body (metaFromUpstream upstream (some body.length)) with
    | error e =>
      rw [hr] at hout
      cases hout
    | ok info =>
      rw [hr, reload_ok hr] at hout
      cases hout
      refine ⟨_, getAll_applyHeaders (normal_metaFromUpstream _) name, .inl ?_⟩
      rw [getAll_metaFromUpstream _ hop hlength, values_toStr (hv.getAll name)]
  | artifactError body | npmRequest body =>
    cases hout
    exact hbytes _ true (fun h => by cases h) rfl
  | metadata rewrite body =>
    cases hout
    refine hbytes _ (exposes rewrite) (fun h => ?_) rfl
    rw [Path.rewrites, h]
    rfl
  | revalidated rewrite body =>
    rw [relay] at hout
    cases hr : reload serde body (metaForBytes upstream body.length (exposes rewrite)) with
    | error e =>
      rw [hr] at hout
      cases hout
    | ok info =>
      rw [hr, reload_ok hr] at hout
      cases hout
      refine hbytes _ (exposes rewrite) (fun h => ?_) rfl
      rw [Path.rewrites, h]
      rfl

end

/-- **Header relay.** On every path, a client's response has all values of
every relayed name if and only if the upstream response repeats none of them. -/
theorem relay_intact_iff (serde : Serde StoredResponseMeta) {upstream : Upstream} {path : Path} {out : HeaderMap}
    (hv : upstream.Visible) (hout : relay serde upstream path = .ok out) :
    Intact path upstream out ↔ ∀ name, path.Relays name → (getAll upstream.headers name).length ≤ 1 := by
  constructor
  · intro h name hname
    obtain ⟨values, hlast, -⟩ := relay_last hv hout hname
    rcases h name hname with he | ⟨-, hnone, -⟩
    · rw [← he, hlast, Option.length_toList]
      split <;> omega
    · rw [hnone]
      exact Nat.zero_le 1
  · intro h name hname
    obtain ⟨values, hlast, he | ⟨hct, hnone, he⟩⟩ := relay_last hv hout hname
    · left
      have hle := h name hname
      rw [hlast, he]
      rcases hvals : getAll upstream.headers name with _ | ⟨value, _ | ⟨value', rest⟩⟩
      · rfl
      · rfl
      · rw [hvals] at hle
        simp at hle
    · exact .inr ⟨hct, hnone, by rw [hlast, he]; rfl⟩

/-- A stand-in for `serde_json`: a text of as many bytes as the metadata's number. -/
def countingSerde : Serde StoredResponseMeta where
  toVec info := List.replicate (Encodable.encode info) 0
  fromSlice bytes := Encodable.decode bytes.length
  roundTrip info := by rw [List.length_replicate, Encodable.encodek]

/-- A response that sets the cookies. -/
def setCookies (cookies : List Bytes) : Upstream where
  status := 200
  headers := cookies.map fun cookie => ("set-cookie".toList, cookie)
  names := by
    intro p hp
    obtain ⟨cookie, -, rfl⟩ := List.mem_map.1 hp
    show headerName "set-cookie".toList = some "set-cookie".toList
    decide

/-- The stand-in, but that it has one byte for the metadata it knows. -/
def knowingSerde (known : StoredResponseMeta) : Serde StoredResponseMeta where
  toVec info := if info = known then [1] else 0 :: countingSerde.toVec info
  fromSlice bytes := if bytes = [1] then some known else countingSerde.fromSlice (bytes.drop 1)
  roundTrip info := by
    by_cases h : info = known
    · rw [if_pos h, if_pos rfl, h]
    · rw [if_neg h, if_neg (by simp)]
      exact countingSerde.roundTrip info

theorem reload_known (body : Bytes) (info : StoredResponseMeta) : reload (knowingSerde info) body info = .ok info := by
  have hvec : (knowingSerde info).toVec info = [1] := if_pos rfl
  have hm : ((knowingSerde info).toVec info).length ≤ maxMetaLen := by
    rw [hvec]
    decide
  rw [reload, serializeMeta_ok.2 ⟨rfl, hm⟩, IoResult.ok_bind, readFooter_packed hm, parseMeta_toVec]
  rfl

/-- A response with a type, a caching rule and a cookie. -/
def threeHeaders : Upstream where
  status := 200
  headers := [("content-type".toList, utf8 "text/plain".toList), ("cache-control".toList, utf8 "no-cache".toList),
    ("set-cookie".toList, utf8 "a=1".toList)]
  names := by
    simp only [List.forall_mem_cons]
    exact ⟨by decide, by decide, by decide, fun p hp => by cases hp⟩

/-- An artifact's response, stored and read again, has each of the three. -/
theorem relay_intact_iff_stored : ∃ out,
    relay (knowingSerde (metaFromUpstream threeHeaders (some 2))) threeHeaders (.artifact [9, 9]) = .ok out ∧
      Intact (.artifact [9, 9]) threeHeaders out := by
  have hout : relay (knowingSerde (metaFromUpstream threeHeaders (some 2))) threeHeaders (.artifact [9, 9]) =
      .ok (applyHeaders (metaFromUpstream threeHeaders (some 2)).headers) := by
    have hreload := reload_known [9, 9] (metaFromUpstream threeHeaders (some 2))
    rw [relay, List.length_cons, List.length_singleton, hreload, IoResult.ok_bind]
    rfl
  refine ⟨_, hout, (relay_intact_iff _ ?_ hout).2 fun name _ => ?_⟩
  · simp only [Upstream.Visible, threeHeaders, List.forall_mem_cons]
    exact ⟨by decide, by decide, by decide, fun p hp => by cases hp⟩
  · by_cases htype : "content-type".toList = name
    · exact htype ▸ by decide
    by_cases hcache : "cache-control".toList = name
    · exact hcache ▸ by decide
    by_cases hcookie : "set-cookie".toList = name
    · exact hcookie ▸ by decide
    have hnone : ∀ p ∈ threeHeaders.headers, ¬ decide (p.1 = name) = true := by
      simp only [threeHeaders, List.forall_mem_cons, decide_eq_true_eq]
      exact ⟨htype, hcache, hcookie, fun p hp => by cases hp⟩
    rw [getAll, List.filter_eq_nil_iff.2 hnone]
    exact Nat.zero_le 1

/-- Of two cookies the client gets the second one: here by git forwarding. -/
theorem relay_drops_cookie :
    ¬ ∀ (serde : Serde StoredResponseMeta) (upstream : Upstream) (path : Path) (out : HeaderMap),
      upstream.Visible → relay serde upstream path = .ok out → Intact path upstream out := by
  intro h
  have hvisible : (setCookies [utf8 "a=1".toList, utf8 "b=2".toList]).Visible := by
    intro p hp
    rcases List.mem_pair.1 hp with rfl | rfl <;> decide
  have hrelays : Path.git.Relays "set-cookie".toList := ⟨by decide, by decide, fun h => by cases h⟩
  rcases h countingSerde _ .git _ hvisible rfl _ hrelays with he | ⟨hct, -, -⟩
  · revert he
    decide
  · revert hct
    decide

end Vampire.Relay
