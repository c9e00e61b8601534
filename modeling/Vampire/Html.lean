/-
`rewrite_pypi_html` (`routes.rs`): the matches of the href regex, found from
left to right, have their values rewritten and everything between them copied.

A rewritten value has no quote the old one did not have, so no match of the
output begins or ends where none did in the input.
-/
import Vampire.Rewrite

namespace Vampire

/-! ## The regex -/

/-- One match: the text skipped before it, its quote and its value. -/
structure Capture where
  gap : Str
  quote : Char
  value : Str
  deriving DecidableEq

/-- The text up to the next quote, unless it is empty, and what follows the quote. -/
def closeQuote (q : Char) (s : Str) : Option (Str × Str) :=
  match s.takeWhile (fun c => c ≠ q), s.dropWhile (fun c => c ≠ q) with
  | c :: value, _ :: rest => some (c :: value, rest)
  | _, _ => none

/-- A match of `href="([^"]+)"|href='([^']+)'` at the start of a text: quote, value and what follows. -/
def hrefAt : Str → Option (Char × Str × Str)
  | 'h' :: 'r' :: 'e' :: 'f' :: '=' :: q :: s =>
    if q = '"' ∨ q = apostrophe then (closeQuote q s).map fun v => (q, v) else none
  | _ => none

/-- The leftmost match and what follows it. -/
def findHref : Str → Option (Capture × Str)
  | [] => none
  | c :: s =>
    match hrefAt (c :: s) with
    | some (quote, value, rest) => some (⟨[], quote, value⟩, rest)
    | none => (findHref s).map fun m => ({ m.1 with gap := c :: m.1.gap }, m.2)

/-- `captures_iter`: every search begins where the last match ended. No more
searches than characters can succeed. -/
def capturesFrom : Nat → Str → List Capture × Str
  | 0, s => ([], s)
  | fuel + 1, s =>
    match findHref s with
    | some (capture, rest) => ((capture :: (capturesFrom fuel rest).1), (capturesFrom fuel rest).2)
    | none => ([], s)

/-- The matches in a text, and the text behind the last. -/
def hrefCaptures (s : Str) : List Capture × Str := capturesFrom s.length s

/-! ## The source's function -/

/-- `str::from_utf8` -/
def fromUtf8 (bytes : List UInt8) : Option Str := bytes.toByteArray.utf8Decode?.map Array.toList

section
variable (crate : UrlCrate) (upstreams : RegistryOrigins) (origin : Str)

/-- The writes of one round of the loop of `rewrite_pypi_html`. -/
def captureChunks (capture : Capture) : List (List UInt8) :=
  [utf8 capture.gap, utf8 ("href=".toList ++ [capture.quote]), utf8 (rewritePypiHref crate upstreams origin capture.value),
    utf8 [capture.quote]]

/-- `rewrite_pypi_html` -/
def rewritePypiHtml (body : List UInt8) (maxLen : Nat) : Except RewriteError (List UInt8) :=
  match fromUtf8 body with
  | none => .error .utf8
  | some input => do
    let output ← (hrefCaptures input).1.foldlM (fun output capture =>
      LimitedOutput.extendAll output (captureChunks crate upstreams origin capture))
      (LimitedOutput.new (min maxLen maxMetadataBodyLen))
    let output ← output.extend (utf8 (hrefCaptures input).2)
    .ok output.bytes

end

/-! ## One match -/

/-- A match as text. -/
def Capture.text (m : Capture) : Str := 'h' :: 'r' :: 'e' :: 'f' :: '=' :: m.quote :: (m.value ++ [m.quote])

/-- A value that is not empty, between quotes it does not contain. -/
structure Capture.Ok (m : Capture) : Prop where
  quote : Quote m.quote
  ne_nil : m.value ≠ []
  closed : m.quote ∉ m.value

theorem closeQuote_some_iff {q : Char} {s value rest : Str} :
    closeQuote q s = some (value, rest) ↔ value ≠ [] ∧ q ∉ value ∧ s = value ++ q :: rest := by
  refine ⟨fun h => ?_, ?_⟩
  · unfold closeQuote at h
    split at h
    · next c v d r htake hdrop =>
      cases h
      have hs := List.takeWhile_append_dropWhile (p := fun c => decide (c ≠ q)) (l := s)
      rw [htake, hdrop] at hs
      have hd : d = q := by
        have hhead := List.head?_dropWhile_not (fun c => decide (c ≠ q)) s
        rw [hdrop] at hhead
        simpa using hhead
      refine ⟨List.cons_ne_nil _ _, fun hmem => ?_, by rw [← hs, hd]⟩
      rw [← htake] at hmem
      simpa using List.mem_takeWhile_imp hmem
    · cases h
  · rintro ⟨hne, hclosed, rfl⟩
    have hall : ∀ c ∈ value, decide (c ≠ q) = true := by
      intro c hc
      rw [decide_eq_true_eq]
      rintro rfl
      exact hclosed hc
    cases value with
    | nil => exact absurd rfl hne
    | cons c value =>
      unfold closeQuote
      rw [List.takeWhile_append_of_pos hall, List.dropWhile_append_of_pos hall]
      simp

/-- A quote that is not found was closed at once or is never closed. -/
theorem closeQuote_none {q : Char} {s : Str} (h : closeQuote q s = none) : s.head? = some q ∨ q ∉ s := by
  by_cases hmem : q ∈ s
  · obtain ⟨value, rest, rfl, hclosed⟩ := List.eq_append_cons_of_mem hmem
    cases value with
    | nil => exact .inl rfl
    | cons c value =>
      rw [closeQuote_some_iff.2 ⟨List.cons_ne_nil _ _, hclosed, rfl⟩] at h
      cases h
  · exact .inr hmem

theorem hrefAt_some_iff {s value rest : Str} {q : Char} :
    hrefAt s = some (q, value, rest) ↔ (Capture.mk [] q value).Ok ∧ s = (Capture.mk [] q value).text ++ rest := by
  have htext : (Capture.mk [] q value).text ++ rest =
      'h' :: 'r' :: 'e' :: 'f' :: '=' :: q :: (value ++ q :: rest) := by simp [Capture.text]
  rw [htext]
  refine ⟨fun h => ?_, ?_⟩
  · unfold hrefAt at h
    split at h
    · split at h
      · next hq =>
        obtain ⟨v, hv, heq⟩ := Option.map_eq_some_iff.1 h
        cases heq
        obtain ⟨hne, hclosed, rfl⟩ := closeQuote_some_iff.1 hv
        exact ⟨⟨hq, hne, hclosed⟩, rfl⟩
      · cases h
    · cases h
  · rintro ⟨hok, rfl⟩
    have hq : q = '"' ∨ q = apostrophe := hok.quote
    rw [hrefAt, if_pos hq, closeQuote_some_iff.2 ⟨hok.ne_nil, hok.closed, rfl⟩]
    rfl

theorem hrefAt_none {q : Char} {s : Str} (hq : Quote q) (h : hrefAt ('h' :: 'r' :: 'e' :: 'f' :: '=' :: q :: s) = none) :
    s.head? = some q ∨ q ∉ s := by
  have hq : q = '"' ∨ q = apostrophe := hq
  rw [hrefAt, if_pos hq, Option.map_eq_none_iff] at h
  exact closeQuote_none h

/-! ## All matches -/

/-- No match begins in the first text when the second follows it. -/
def Clear : Str → Str → Prop
  | [], _ => True
  | c :: gap, rest => hrefAt (c :: (gap ++ rest)) = none ∧ Clear gap rest

/-- The matches of a text that a search from left to right finds, and what is left behind the last. -/
inductive Leftmost : Str → List Capture → Str → Prop
  | done {s : Str} (h : Clear s []) : Leftmost s [] s
  | next {m : Capture} {rest tail : Str} {ms : List Capture} (hm : m.Ok) (hgap : Clear m.gap (m.text ++ rest))
    (h : Leftmost rest ms tail) : Leftmost (m.gap ++ (m.text ++ rest)) (m :: ms) tail

theorem findHref_none_iff {s : Str} : findHref s = none ↔ Clear s [] := by
  induction s with
  | nil => simp [findHref, Clear]
  | cons c s ih =>
    rw [findHref, Clear, List.append_nil]
    split
    · next hat => simp [hat]
    · next hat => simp [hat, ih]

theorem findHref_some {s rest : Str} {m : Capture} (h : findHref s = some (m, rest)) :
    m.Ok ∧ Clear m.gap (m.text ++ rest) ∧ s = m.gap ++ (m.text ++ rest) := by
  induction s generalizing m with
  | nil => cases h
  | cons c s ih =>
    rw [findHref] at h
    split at h
    · next q value r hat =>
      cases h
      obtain ⟨hok, hs⟩ := hrefAt_some_iff.1 hat
      exact ⟨hok, trivial, hs⟩
    · next hat =>
      obtain ⟨⟨m', r⟩, hm', heq⟩ := Option.map_eq_some_iff.1 h
      cases heq
      obtain ⟨hok, hclear, hs⟩ := ih hm'
      refine ⟨⟨hok.quote, hok.ne_nil, hok.closed⟩, ⟨?_, hclear⟩, by rw [hs]; rfl⟩
      rw [hs] at hat
      exact hat

theorem findHref_of_at {s value rest : Str} {q : Char} (h : hrefAt s = some (q, value, rest)) :
    findHref s = some (⟨[], q, value⟩, rest) := by
  cases s with
  | nil => cases h
  | cons c s => rw [findHref, h]

theorem findHref_of_clear {m : Capture} {rest : Str} (hok : m.Ok) (hgap : Clear m.gap (m.text ++ rest)) :
    findHref (m.gap ++ (m.text ++ rest)) = some (m, rest) := by
  obtain ⟨gap, q, value⟩ := m
  have hat : hrefAt ((Capture.mk [] q value).text ++ rest) = some (q, value, rest) :=
    hrefAt_some_iff.2 ⟨⟨hok.quote, hok.ne_nil, hok.closed⟩, rfl⟩
  clear hok
  change Clear gap ((Capture.mk [] q value).text ++ rest) at hgap
  change findHref (gap ++ ((Capture.mk [] q value).text ++ rest)) = some (⟨gap, q, value⟩, rest)
  induction gap with
  | nil => exact findHref_of_at hat
  | cons c gap ih =>
    rw [List.cons_append, findHref, hgap.1, ih hgap.2]
    rfl

theorem Leftmost.capturesFrom {s tail : Str} {ms : List Capture} (h : Leftmost s ms tail) {fuel : Nat}
    (hfuel : s.length ≤ fuel) : capturesFrom fuel s = (ms, tail) := by
  induction h generalizing fuel with
  | done h =>
    cases fuel with
    | zero => rfl
    | succ fuel => rw [Vampire.capturesFrom, findHref_none_iff.2 h]
  | @next m rest tail ms hm hgap _ ih =>
    cases fuel with
    | zero => simp [Capture.text] at hfuel
    | succ fuel =>
      rw [Vampire.capturesFrom, findHref_of_clear hm hgap]
      have hrest : rest.length ≤ fuel := by
        simp only [List.length_append, Capture.text, List.length_cons] at hfuel
        omega
      simp only [ih hrest]

theorem leftmost_capturesFrom {fuel : Nat} {s : Str} (hfuel : s.length ≤ fuel) :
    Leftmost s (capturesFrom fuel s).1 (capturesFrom fuel s).2 := by
  induction fuel generalizing s with
  | zero =>
    rw [List.length_eq_zero_iff.1 (Nat.le_zero.1 hfuel)]
    exact .done trivial
  | succ fuel ih =>
    rw [capturesFrom]
    cases hfind : findHref s with
    | none => exact .done (findHref_none_iff.1 hfind)
    | some found =>
      obtain ⟨m, rest⟩ := found
      obtain ⟨hok, hgap, rfl⟩ := findHref_some hfind
      have hrest : rest.length ≤ fuel := by
        simp only [List.length_append, Capture.text, List.length_cons] at hfuel
        omega
      exact .next hok hgap (ih hrest)

/-- The search finds the leftmost matches, and there is one way to take them. -/
theorem leftmost_iff {s tail : Str} {ms : List Capture} : Leftmost s ms tail ↔ hrefCaptures s = (ms, tail) := by
  refine ⟨fun h => h.capturesFrom (Nat.le_refl _), fun h => ?_⟩
  have hcap := leftmost_capturesFrom (Nat.le_refl s.length)
  unfold hrefCaptures at h
  rw [h] at hcap
  exact hcap

/-! ## Rewriting the values -/

/-- The match with another value. -/
def Capture.map (f : Str → Str) (m : Capture) : Capture := { m with value := f m.value }

/-- A text put together from its matches and what is left. -/
def assemble (ms : List Capture) (tail : Str) : Str := ms.flatMap (fun m => m.gap ++ m.text) ++ tail

theorem Leftmost.assemble_eq {s tail : Str} {ms : List Capture} (h : Leftmost s ms tail) : s = assemble ms tail := by
  induction h with
  | done => rfl
  | next _ _ _ ih =>
    rw [ih]
    simp [assemble]

/-- What a rewriting of values has to respect. -/
structure KeepsQuotes (f : Str → Str) : Prop where
  quotes : ∀ {q v}, Quote q → q ∈ f v → q ∈ v
  ne_nil : ∀ {v}, v ≠ [] → f v ≠ []

section
variable {f : Str → Str} {m : Capture}

theorem Capture.Ok.map (hf : KeepsQuotes f) (h : m.Ok) : (m.map f).Ok where
  quote := h.quote
  ne_nil := hf.ne_nil h.ne_nil
  closed := fun hmem => h.closed (hf.quotes h.quote hmem)

theorem Capture.mem_text_map (hf : KeepsQuotes f) {q : Char} (hq : Quote q) (h : q ∈ (m.map f).text) : q ∈ m.text := by
  simp only [Capture.text, Capture.map, List.mem_cons, List.mem_append, List.not_mem_nil, or_false] at h ⊢
  have hvalue : q ∈ f m.value → q ∈ m.value := hf.quotes hq
  tauto

/-- The start of a match does not overlap another start of one. -/
theorem start_no_overlap {c q : Char} {gap s t : Str} (hq : q ≠ 'h')
    (h : c :: (gap ++ 'h' :: s) = 'h' :: 'r' :: 'e' :: 'f' :: '=' :: q :: t) :
    ∃ gap', c :: gap = 'h' :: 'r' :: 'e' :: 'f' :: '=' :: q :: gap' ∧ gap' ++ 'h' :: s = t := by
  rcases gap with _ | ⟨a, _ | ⟨b, _ | ⟨d, _ | ⟨e, _ | ⟨f, gap⟩⟩⟩⟩⟩
  · simp at h
  · simp at h
  · simp at h
  · simp at h
  · simp [hq.symm] at h
  · simp only [List.cons_append, List.cons.injEq] at h
    obtain ⟨rfl, rfl, rfl, rfl, rfl, rfl, h⟩ := h
    exact ⟨gap, rfl, h⟩

/-- A match that begins before another has at least its quote before it. -/
theorem hrefAt_over_text {c q : Char} {gap rest value r : Str}
    (h : hrefAt (c :: (gap ++ (m.text ++ rest))) = some (q, value, r)) :
    ∃ gap', c :: gap = 'h' :: 'r' :: 'e' :: 'f' :: '=' :: q :: gap' ∧ gap' ++ (m.text ++ rest) = value ++ q :: r := by
  obtain ⟨hok, heq⟩ := hrefAt_some_iff.1 h
  have hq : q ≠ 'h' := by
    have hquote : Quote q := hok.quote
    rcases hquote with rfl | rfl <;> decide
  have htext : (Capture.mk [] q value).text ++ r = 'h' :: 'r' :: 'e' :: 'f' :: '=' :: q :: (value ++ q :: r) := by
    simp [Capture.text]
  exact start_no_overlap hq (heq.trans htext)

/-- No match begins before a rewritten value that did not begin there before. -/
theorem Clear.map (hf : KeepsQuotes f) {gap rest rest' : Str} (hrest : ∀ q, Quote q → q ∈ rest' → q ∈ rest)
    (h : Clear gap (m.text ++ rest)) : Clear gap ((m.map f).text ++ rest') := by
  induction gap with
  | nil => trivial
  | cons c gap ih =>
    refine ⟨?_, ih h.2⟩
    by_contra hat
    obtain ⟨⟨q, value, r⟩, hat⟩ := Option.ne_none_iff_exists'.1 hat
    obtain ⟨hok, -⟩ := hrefAt_some_iff.1 hat
    obtain ⟨gap', hgap, heq⟩ := hrefAt_over_text hat
    have hnone : hrefAt ('h' :: 'r' :: 'e' :: 'f' :: '=' :: q :: (gap' ++ (m.text ++ rest))) = none := by
      have hat' := h.1
      rw [← List.cons_append, hgap] at hat'
      exact hat'
    rcases hrefAt_none hok.quote hnone with hhead | hmem
    · -- Both texts go on with the same character, which the value begins with.
      refine hok.closed ?_
      have hhead' : (gap' ++ ((m.map f).text ++ rest')).head? = some q := by
        cases gap' with
        | nil => exact hhead
        | cons d gap' => exact hhead
      rw [heq, List.head?_append_of_ne_nil _ hok.ne_nil] at hhead'
      exact List.mem_of_mem_head? hhead'
    · -- The closing quote was there before.
      refine hmem ?_
      have hclose : q ∈ gap' ++ ((m.map f).text ++ rest') := by
        rw [heq]
        simp
      rw [List.mem_append, List.mem_append] at hclose
      rw [List.mem_append, List.mem_append]
      rcases hclose with hg | ht | hr
      · exact .inl hg
      · exact .inr (.inl (Capture.mem_text_map hf hok.quote ht))
      · exact .inr (.inr (hrest q hok.quote hr))

theorem mem_assemble_map (hf : KeepsQuotes f) {ms : List Capture} {tail : Str} {q : Char} (hq : Quote q)
    (h : q ∈ assemble (ms.map (Capture.map f)) tail) : q ∈ assemble ms tail := by
  simp only [assemble, List.flatMap_map, List.mem_append, List.mem_flatMap] at h ⊢
  rcases h with ⟨m, hm, hg | ht⟩ | h
  · exact .inl ⟨m, hm, .inl hg⟩
  · exact .inl ⟨m, hm, .inr (Capture.mem_text_map hf hq ht)⟩
  · exact .inr h

/-- **One to one.** The matches of the rewritten text are the matches of the text, rewritten. -/
theorem Leftmost.map (hf : KeepsQuotes f) {s tail : Str} {ms : List Capture} (h : Leftmost s ms tail) :
    Leftmost (assemble (ms.map (Capture.map f)) tail) (ms.map (Capture.map f)) tail := by
  induction h with
  | done h => exact .done h
  | @next m rest tail ms hm hgap hrest ih =>
    have heq : assemble ((m :: ms).map (Capture.map f)) tail =
        (m.map f).gap ++ ((m.map f).text ++ assemble (ms.map (Capture.map f)) tail) := by simp [assemble]
    rw [heq]
    refine .next (hm.map hf) (Clear.map hf (fun q hq hmem => ?_) hgap) ih
    rw [hrest.assemble_eq]
    exact mem_assemble_map hf hq hmem

end

/-! ## The document -/

theorem utf8_append (s t : Str) : utf8 (s ++ t) = utf8 s ++ utf8 t := List.flatMap_append

theorem fromUtf8_utf8 (s : Str) : fromUtf8 (utf8 s) = some s := by
  have h : (utf8 s).toByteArray.utf8Decode? = some s.toArray := List.utf8Decode?_utf8Encode
  simp [fromUtf8, h]

section
variable {crate : UrlCrate} {upstreams : RegistryOrigins} {origin : Str}

/-- The document with every link rewritten. -/
def rewrittenHtml (crate : UrlCrate) (upstreams : RegistryOrigins) (origin input : Str) : Str :=
  assemble ((hrefCaptures input).1.map (Capture.map (rewritePypiHref crate upstreams origin))) (hrefCaptures input).2

theorem keepsQuotes (horigin : ∀ q, Quote q → q ∉ origin) : KeepsQuotes (rewritePypiHref crate upstreams origin) where
  quotes := fun hq h => rewritePypiHref_quotes hq (horigin _ hq) h
  ne_nil := rewritePypiHref_ne_nil

theorem captureChunks_flatten (m : Capture) : (captureChunks crate upstreams origin m).flatten =
    utf8 (m.gap ++ (m.map (rewritePypiHref crate upstreams origin)).text) := by
  have htext : (m.map (rewritePypiHref crate upstreams origin)).text =
      "href=".toList ++ [m.quote] ++ rewritePypiHref crate upstreams origin m.value ++ [m.quote] := by
    simp [Capture.map, Capture.text]
  simp only [captureChunks, List.flatten_cons, List.flatten_nil, List.append_nil, htext, utf8_append, List.append_assoc]

theorem foldlM_extendAll (ms : List Capture) (output : LimitedOutput) :
    ms.foldlM (fun output m => LimitedOutput.extendAll output (captureChunks crate upstreams origin m)) output =
      output.extendAll (ms.flatMap (captureChunks crate upstreams origin)) := by
  induction ms generalizing output with
  | nil => rfl
  | cons m ms ih =>
    rw [List.flatMap_cons, LimitedOutput.extendAll_append, List.foldlM_cons]
    cases output.extendAll (captureChunks crate upstreams origin m) with
    | error e => rfl
    | ok o => exact ih o

theorem chunks_flatten (ms : List Capture) (tail : Str) :
    (ms.flatMap (captureChunks crate upstreams origin) ++ [utf8 tail]).flatten =
      utf8 (assemble (ms.map (Capture.map (rewritePypiHref crate upstreams origin))) tail) := by
  induction ms with
  | nil => simp [assemble]
  | cons m ms ih =>
    rw [List.flatMap_cons, List.append_assoc, List.flatten_append, captureChunks_flatten, ih, ← utf8_append]
    simp [assemble, Capture.map]

/-- The rewriter fails exactly when its output does not fit. -/
theorem rewritePypiHtml_eq (input : Str) (maxLen : Nat) :
    rewritePypiHtml crate upstreams origin (utf8 input) maxLen =
      if (utf8 (rewrittenHtml crate upstreams origin input)).length ≤ min maxLen maxMetadataBodyLen then
        .ok (utf8 (rewrittenHtml crate upstreams origin input))
      else .error .outputLimit := by
  have hrun : rewritePypiHtml crate upstreams origin (utf8 input) maxLen =
      (((LimitedOutput.new (min maxLen maxMetadataBodyLen)).extendAll
        ((hrefCaptures input).1.flatMap (captureChunks crate upstreams origin))).bind fun output =>
          output.extendAll [utf8 (hrefCaptures input).2]).bind fun output => .ok output.bytes := by
    simp only [rewritePypiHtml, fromUtf8_utf8, foldlM_extendAll]
    cases (LimitedOutput.new (min maxLen maxMetadataBodyLen)).extendAll
        ((hrefCaptures input).1.flatMap (captureChunks crate upstreams origin)) with
    | error e => rfl
    | ok o =>
      simp only [bind, Except.bind, LimitedOutput.extendAll, List.foldlM_cons, List.foldlM_nil, pure, Except.pure]
      cases o.extend (utf8 (hrefCaptures input).2) <;> rfl
  rw [hrun, ← LimitedOutput.extendAll_append, LimitedOutput.extendAll_eq _ (Nat.zero_le _), chunks_flatten]
  simp only [LimitedOutput.new, List.length_nil, Nat.zero_add, List.nil_append]
  unfold rewrittenHtml
  split <;> rfl

/-- What `rewrite_pypi_html` does to a document. -/
structure HtmlRewrite (crate : UrlCrate) (upstreams : RegistryOrigins) (origin input : Str) : Prop where
  /-- The matches that are rewritten are the leftmost ones, and with the text between them the document. -/
  matches_of_input : Leftmost input (hrefCaptures input).1 (hrefCaptures input).2 ∧
    input = assemble (hrefCaptures input).1 (hrefCaptures input).2
  /-- The output is the document with every value rewritten in its quotes, unless that is too long. -/
  output : ∀ maxLen, rewritePypiHtml crate upstreams origin (utf8 input) maxLen =
    if (utf8 (rewrittenHtml crate upstreams origin input)).length ≤ min maxLen maxMetadataBodyLen then
      .ok (utf8 (rewrittenHtml crate upstreams origin input))
    else .error .outputLimit
  /-- No new value contains the quote around it. -/
  closed : ∀ m ∈ (hrefCaptures input).1, m.quote ∉ rewritePypiHref crate upstreams origin m.value
  /-- The matches of the output are those of the input, in their order, with their new values. -/
  matches_of_output : hrefCaptures (rewrittenHtml crate upstreams origin input) =
    ((hrefCaptures input).1.map (Capture.map (rewritePypiHref crate upstreams origin)), (hrefCaptures input).2)
  /-- Behind a foreign origin a second pass changes nothing. -/
  idempotent : ForeignOrigin crate upstreams origin → ∀ {maxLen out},
    rewritePypiHtml crate upstreams origin (utf8 input) maxLen = .ok out →
      rewritePypiHtml crate upstreams origin out maxLen = .ok out

theorem leftmost_input (input : Str) : Leftmost input (hrefCaptures input).1 (hrefCaptures input).2 :=
  leftmost_iff.2 rfl

theorem Leftmost.ok {s tail : Str} {ms : List Capture} (h : Leftmost s ms tail) : ∀ m ∈ ms, m.Ok := by
  induction h with
  | done => simp
  | next hm _ _ ih =>
    rw [List.forall_mem_cons]
    exact ⟨hm, ih⟩

theorem captures_rewritten (horigin : ∀ q, Quote q → q ∉ origin) (input : Str) :
    hrefCaptures (rewrittenHtml crate upstreams origin input) =
      ((hrefCaptures input).1.map (Capture.map (rewritePypiHref crate upstreams origin)), (hrefCaptures input).2) :=
  leftmost_iff.1 ((leftmost_input input).map (keepsQuotes horigin))

theorem rewrittenHtml_idempotent (horigin : ∀ q, Quote q → q ∉ origin) (hforeign : ForeignOrigin crate upstreams origin)
    (input : Str) : rewrittenHtml crate upstreams origin (rewrittenHtml crate upstreams origin input) =
      rewrittenHtml crate upstreams origin input := by
  have hmap : ∀ m : Capture, (m.map (rewritePypiHref crate upstreams origin)).map
      (rewritePypiHref crate upstreams origin) = m.map (rewritePypiHref crate upstreams origin) := by
    intro m
    simp [Capture.map, rewritePypiHref_idempotent hforeign]
  have hcap : hrefCaptures (rewrittenHtml crate upstreams origin input) =
      ((hrefCaptures input).1.map (Capture.map (rewritePypiHref crate upstreams origin)), (hrefCaptures input).2) :=
    captures_rewritten horigin input
  rw [rewrittenHtml, hcap, List.map_map]
  simp only [Function.comp_def, hmap]
  rfl

/-- **The HTML rewriter.** It touches the values of the links and nothing
else, and what it writes reads as the same links. -/
theorem html_rewrite {origin : Str} (horigin : ∀ q, Quote q → q ∉ origin) (input : Str) :
    HtmlRewrite crate upstreams origin input where
  matches_of_input := ⟨leftmost_input input, (leftmost_input input).assemble_eq⟩
  output := rewritePypiHtml_eq input
  closed := fun m hm hmem =>
    ((leftmost_input input).ok m hm).closed (rewritePypiHref_quotes ((leftmost_input input).ok m hm).quote
      (horigin _ ((leftmost_input input).ok m hm).quote) hmem)
  matches_of_output := captures_rewritten horigin input
  idempotent := by
    intro hforeign maxLen out hout
    rw [rewritePypiHtml_eq] at hout
    split at hout
    · next hfit =>
      cases hout
      rw [rewritePypiHtml_eq, rewrittenHtml_idempotent horigin hforeign, if_pos hfit]
    · cases hout

/-- A file link and an index link, rewritten for a proxy on another host. -/
theorem html_rewrite_localhost :
    HtmlRewrite plainUrls .default "http://localhost".toList
      "<a href=\"https://files.pythonhosted.org/p.whl\"><a href=\"/simple/p/\">".toList ∧
    ForeignOrigin plainUrls .default "http://localhost".toList ∧
    rewrittenHtml plainUrls .default "http://localhost".toList
        "<a href=\"https://files.pythonhosted.org/p.whl\"><a href=\"/simple/p/\">".toList =
      "<a href=\"http://localhost/pypi/files/p.whl\"><a href=\"http://localhost/pypi/simple/p/\">".toList := by
  refine ⟨html_rewrite ?_ _, ⟨_, rfl, by decide, by decide, by decide, by decide, by decide⟩, by decide⟩
  rintro q (rfl | rfl) <;> decide

end

end Vampire
