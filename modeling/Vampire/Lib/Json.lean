/-
JSON texts over character lists: the value a text denotes, the raw texts of an
object's members, and strings as they are printed.

What follows a value in a text is never a character of a word, so a number or
a literal is the longest word there. The parser is given fuel: twice the
length of what it reads is always enough (`value_local`).
-/
import Vampire.Lib.Percent
import Vampire.Lib.SortedMap

namespace Vampire.Lib

/-- Strings are code points, an escaped surrogate without its other half among them. -/
inductive Json
  | null
  | bool (b : Bool)
  | num (text : List Char)
  | str (s : List Nat)
  | arr (elements : List Json)
  /-- By key; repeated keys and the order of the keys are gone. -/
  | obj (members : List Nat → Option Json)

namespace Json

/-- A member as it stands in a text: its key and its value, with their texts. -/
structure Member where
  rawKey : List Char
  key : List Nat
  raw : List Char
  value : Json

/-! ## Strings -/

/-- The character a short escape stands for. -/
def unescape (c : Char) : Option Char :=
  if c = '"' then some '"' else if c = '\\' then some '\\' else if c = '/' then some '/'
  else if c = 'b' then some '\x08' else if c = 'f' then some '\x0c' else if c = 'n' then some '\n'
  else if c = 'r' then some '\r' else if c = 't' then some '\t' else none

def hex4 (a b c d : Char) : Option Nat := do
  let a ← hexValue a
  let b ← hexValue b
  let c ← hexValue c
  let d ← hexValue d
  some (((a * 16 + b) * 16 + c) * 16 + d)

/-- The code points and escaped code units up to the closing quote, and what follows it. -/
def stringBody : List Char → Option (List Nat × List Char)
  | [] => none
  | '"' :: rest => some ([], rest)
  | '\\' :: 'u' :: a :: b :: c :: d :: rest =>
    match hex4 a b c d with
    | some unit => (stringBody rest).map fun (s, rest) => (unit :: s, rest)
    | none => none
  | '\\' :: e :: rest =>
    match unescape e with
    | some c => (stringBody rest).map fun (s, rest) => (c.toNat :: s, rest)
    | none => none
  | c :: rest => if c < ' ' then none else (stringBody rest).map fun (s, rest) => (c.toNat :: s, rest)

def high (n : Nat) : Bool := 0xd800 ≤ n && n < 0xdc00

def low (n : Nat) : Bool := 0xdc00 ≤ n && n < 0xe000

/-- A high and a low surrogate after each other are one code point. -/
def joinSurrogates : List Nat → List Nat
  | h :: l :: rest =>
    if high h && low l then (0x10000 + (h - 0xd800) * 1024 + (l - 0xdc00)) :: joinSurrogates rest
    else h :: joinSurrogates (l :: rest)
  | s => s

/-- The string's characters, when none of its code points is a surrogate. -/
def chars : List Nat → Option (List Char)
  | [] => some []
  | n :: s => if n.isValidChar then (chars s).map (Char.ofNat n :: ·) else none

/-- A control character's escape. -/
def controlEscape (c : Char) : List Char :=
  if c = '\x08' then "\\b".toList else if c = '\x0c' then "\\f".toList else if c = '\n' then "\\n".toList
  else if c = '\r' then "\\r".toList else if c = '\t' then "\\t".toList
  else "\\u00".toList ++ [Nat.digitChar (c.toNat / 16), Nat.digitChar (c.toNat % 16)]

def escape (c : Char) : List Char :=
  if c = '"' then "\\\"".toList else if c = '\\' then "\\\\".toList else if c < ' ' then controlEscape c else [c]

/-- A string as it is printed. -/
def printString (s : List Char) : List Char := '"' :: s.flatMap escape ++ ['"']

/-! ## Values -/

def space (c : Char) : Bool := c = ' ' || c = '\t' || c = '\n' || c = '\r'

def skipSpace (s : List Char) : List Char := s.dropWhile space

/-- A character of a number or of a literal. -/
def wordChar (c : Char) : Bool := c.isAlphanum || c = '-' || c = '+' || c = '.'

def digits (s : List Char) : Bool := !s.isEmpty && s.all Char.isDigit

/-- An exponent's digits, with or without a sign. -/
def exponent : List Char → Bool
  | c :: s => if c = '+' || c = '-' then digits s else digits (c :: s)
  | [] => false

/-- Nothing, or a fraction and an exponent, or one of them. -/
def afterInteger : List Char → Bool
  | [] => true
  | c :: s =>
    if c = '.' then digits (s.takeWhile Char.isDigit) && afterFraction (s.dropWhile Char.isDigit)
    else afterFraction (c :: s)
where
  afterFraction : List Char → Bool
    | [] => true
    | c :: s => (c = 'e' || c = 'E') && exponent s

/-- An integer without a leading zero, and the rest of a number. -/
def number : List Char → Bool
  | [] => false
  | c :: s =>
    if c = '-' then unsigned s else unsigned (c :: s)
where
  unsigned : List Char → Bool
    | [] => false
    | c :: s => c.isDigit && if c = '0' then afterInteger s else afterInteger (s.dropWhile Char.isDigit)

def word (w : List Char) : Option Json :=
  if w = "null".toList then some .null
  else if w = "true".toList then some (.bool true)
  else if w = "false".toList then some (.bool false)
  else if number w then some (.num w)
  else none

/-- A map of members, a later one of a key overriding an earlier one. -/
def ofMembers (members : List Member) : Json := .obj (lastWins (members.map fun m => (m.key, m.value)))

/-- What was read of a text. -/
def readOf (s rest : List Char) : List Char := s.take (s.length - rest.length)

mutual

/-- The value a text begins with, and what follows it. -/
def value : Nat → List Char → Option (Json × List Char)
  | 0, _ => none
  | _ + 1, [] => none
  | fuel + 1, c :: s =>
    if c = '"' then (stringBody s).map fun (t, rest) => (.str (joinSurrogates t), rest)
    else if c = '[' then
      if (skipSpace s).head? = some ']' then some (.arr [], (skipSpace s).tail)
      else (elements fuel (skipSpace s)).map fun (vs, rest) => (.arr vs, rest)
    else if c = '\x7b' then (object fuel s).map fun (ms, rest) => (ofMembers ms, rest)
    else (word ((c :: s).takeWhile wordChar)).map fun v => (v, (c :: s).dropWhile wordChar)

/-- The elements up to the closing bracket. -/
def elements : Nat → List Char → Option (List Json × List Char)
  | 0, _ => none
  | fuel + 1, s =>
    match value fuel s with
    | none => none
    | some (v, rest) =>
      match skipSpace rest with
      | ']' :: rest => some ([v], rest)
      | ',' :: rest => (elements fuel (skipSpace rest)).map fun (vs, rest) => (v :: vs, rest)
      | _ => none

/-- What follows an opening brace, up to the closing one. -/
def object : Nat → List Char → Option (List Member × List Char)
  | 0, _ => none
  | fuel + 1, s =>
    if (skipSpace s).head? = some '\x7d' then some ([], (skipSpace s).tail) else members fuel (skipSpace s)

/-- The members up to the closing brace. -/
def members : Nat → List Char → Option (List Member × List Char)
  | 0, _ => none
  | fuel + 1, s =>
    match s with
    | '"' :: s =>
      match stringBody s with
      | none => none
      | some (key, keyEnd) =>
        match skipSpace keyEnd with
        | ':' :: rest =>
          match value fuel (skipSpace rest) with
          | none => none
          | some (v, after) =>
            let member := ⟨readOf ('"' :: s) keyEnd, joinSurrogates key, readOf (skipSpace rest) after, v⟩
            match skipSpace after with
            | '\x7d' :: rest => some ([member], rest)
            | ',' :: rest => (members fuel (skipSpace rest)).map fun (ms, rest) => (member :: ms, rest)
            | _ => none
        | _ => none
    | _ => none

end

/-- A whole text: the text of its value without the white space around it, and that value. -/
def text (s : List Char) : Option (List Char × Json) :=
  (value (2 * s.length) (skipSpace s)).bind fun (v, rest) =>
    if (skipSpace rest).isEmpty then some (readOf (skipSpace s) rest, v) else none

/-- The members of the object a text is. -/
def objectOf (s : List Char) : Option (List Member) :=
  match skipSpace s with
  | '\x7b' :: s => (object (2 * s.length + 1) s).bind fun (ms, rest) => if (skipSpace rest).isEmpty then some ms else none
  | _ => none

/-- The string a text is. -/
def stringOf (s : List Char) : Option (List Nat) :=
  match skipSpace s with
  | '"' :: s => (stringBody s).bind fun (t, rest) => if (skipSpace rest).isEmpty then some (joinSurrogates t) else none
  | _ => none

/-! ## What is read does not depend on what follows -/

theorem readOf_append (raw rest : List Char) : readOf (raw ++ rest) rest = raw := by simp [readOf]

theorem stringBody_escape {e : Char} (he : e ≠ 'u') (s : List Char) :
    stringBody ('\\' :: e :: s) = (unescape e).bind fun c => (stringBody s).map fun r => (c.toNat :: r.1, r.2) := by
  rw [stringBody]
  · split
    · next c hc => rw [hc]; rfl
    · next hc => rw [hc]; rfl
  · exact fun _ _ _ _ _ hu => absurd hu he

theorem stringBody_plain {c : Char} (hq : c ≠ '"') (hb : c ≠ '\\') (s : List Char) :
    stringBody (c :: s) = if c < ' ' then none else (stringBody s).map fun r => (c.toNat :: r.1, r.2) := by
  rw [stringBody]
  · exact hq
  · exact fun _ _ _ _ _ h => absurd h hb
  · exact fun _ _ h => absurd h hb

/-- A string is read up to its closing quote. -/
theorem stringBody_local {s rest : List Char} {t : List Nat} (h : stringBody s = some (t, rest)) :
    ∃ body, s = body ++ rest ∧ body ≠ [] ∧ ∀ rest', stringBody (body ++ rest') = some (t, rest') := by
  fun_induction stringBody s generalizing t with
  | case1 => cases h
  | case2 =>
    cases h
    exact ⟨['"'], rfl, List.cons_ne_nil _ _, fun _ => rfl⟩
  | case3 a b c d s unit hunit ih =>
    obtain ⟨⟨t', rest'⟩, ht, heq⟩ := Option.map_eq_some_iff.1 h
    cases heq
    obtain ⟨body, rfl, -, hbody⟩ := ih ht
    refine ⟨'\\' :: 'u' :: a :: b :: c :: d :: body, rfl, List.cons_ne_nil _ _, fun rest' => ?_⟩
    simp only [List.cons_append, stringBody, hunit, hbody, Option.map_some]
  | case4 => cases h
  | case5 e s hne c hc ih =>
    obtain ⟨⟨t', rest'⟩, ht, heq⟩ := Option.map_eq_some_iff.1 h
    cases heq
    obtain ⟨body, rfl, -, hbody⟩ := ih ht
    have he : e ≠ 'u' := by
      rintro rfl
      cases hc
    refine ⟨'\\' :: e :: body, rfl, List.cons_ne_nil _ _, fun rest' => ?_⟩
    rw [List.cons_append, List.cons_append, stringBody_escape he, hc, Option.bind_some, hbody, Option.map_some]
  | case6 => cases h
  | case7 => cases h
  | case8 c s hq _ hb hc ih =>
    obtain ⟨⟨t', rest'⟩, ht, heq⟩ := Option.map_eq_some_iff.1 h
    cases heq
    have hback : c ≠ '\\' := by
      rintro rfl
      cases s with
      | nil => cases ht
      | cons e s => exact hb e s rfl rfl
    obtain ⟨body, rfl, -, hbody⟩ := ih ht
    refine ⟨c :: body, rfl, List.cons_ne_nil _ _, fun rest' => ?_⟩
    rw [List.cons_append, stringBody_plain hq hback, if_neg hc, hbody, Option.map_some]

theorem skipSpace_append {w s : List Char} (hw : ∀ c ∈ w, space c = true) (hs : ∀ c, s.head? = some c → space c = false) :
    skipSpace (w ++ s) = s := by
  rw [skipSpace, List.dropWhile_append_of_pos hw]
  cases s with
  | nil => rfl
  | cons c s => rw [List.dropWhile_cons_of_neg (by rw [hs c rfl]; exact Bool.false_ne_true)]

/-- White space, and what is left behind it. -/
theorem skipSpace_split (s : List Char) :
    ∃ w, s = w ++ skipSpace s ∧ (∀ c ∈ w, space c = true) ∧ ∀ c, (skipSpace s).head? = some c → space c = false := by
  refine ⟨s.takeWhile space, (List.takeWhile_append_dropWhile).symm, fun c hc => List.mem_takeWhile_imp hc, fun c hc => ?_⟩
  have := List.head?_dropWhile_not space s
  rw [← skipSpace, hc] at this
  simpa using this

/-- What may follow a value. -/
def Stop (rest : List Char) : Prop := ∀ c, rest.head? = some c → wordChar c = false

theorem space_not_word {c : Char} (h : space c = true) : wordChar c = false := by
  simp only [space, Bool.or_eq_true, decide_eq_true_eq] at h
  rcases h with ((rfl | rfl) | rfl) | rfl <;> decide

theorem stop_spaces {w : List Char} {c : Char} {rest : List Char} (hw : ∀ d ∈ w, space d = true)
    (hc : wordChar c = false) : Stop (w ++ c :: rest) := by
  intro d hd
  cases w with
  | nil =>
    cases hd
    exact hc
  | cons d' w =>
    cases hd
    exact space_not_word (hw _ List.mem_cons_self)

/-- A text without white space at its ends that a parser reads as a whole, whatever comes behind it. -/
structure Reads {α : Type} (parse : Nat → List Char → Option (α × List Char)) (follow : List Char → Prop)
    (raw : List Char) (a : α) : Prop where
  head : ∃ c, raw.head? = some c ∧ space c = false
  parse : ∀ fuel rest, 2 * raw.length ≤ fuel → follow rest → parse fuel (raw ++ rest) = some (a, rest)

/-- A text is that of a value. -/
abbrev Denotes : List Char → Json → Prop := Reads value Stop

/-- A member's texts are a string's and a value's. -/
structure Member.Ok (m : Member) : Prop where
  key : ∃ body t, m.rawKey = '"' :: body ∧ m.key = joinSurrogates t ∧ stringBody body = some (t, [])
  value : Denotes m.raw m.value

/-- Members without white space, up to the closing brace. -/
def compact (ms : List Member) : List Char := [','].intercalate (ms.map fun m => m.rawKey ++ ':' :: m.raw) ++ ['\x7d']

/-- Everything a text says of its members. -/
structure Members (raw : List Char) (ms : List Member) : Prop where
  ok : ∀ m ∈ ms, m.Ok
  sublist : (compact ms).Sublist raw

/-- The parsers read as much for the values they return whatever comes behind it. -/
structure Local (fuel : Nat) : Prop where
  value : ∀ {s v rest}, value fuel s = some (v, rest) → ∃ raw, s = raw ++ rest ∧ Denotes raw v
  elements : ∀ {s vs rest}, elements fuel s = some (vs, rest) →
    ∃ raw, s = raw ++ rest ∧ Reads elements (fun _ => True) raw vs
  object : ∀ {s ms rest}, object fuel s = some (ms, rest) → ∃ raw, s = raw ++ rest ∧ Members raw ms ∧
    ∀ fuel rest', 2 * raw.length + 1 ≤ fuel → object fuel (raw ++ rest') = some (ms, rest')
  members : ∀ {s ms rest}, members fuel s = some (ms, rest) →
    ∃ raw, s = raw ++ rest ∧ Reads members (fun _ => True) raw ms ∧ Members raw ms

theorem local_word {s : List Char} {v : Json} {c : Char} (hc : c ≠ '"' ∧ c ≠ '[' ∧ c ≠ '\x7b')
    (hv : word ((c :: s).takeWhile wordChar) = some v) :
    ∃ raw, c :: s = raw ++ (c :: s).dropWhile wordChar ∧ Denotes raw v := by
  refine ⟨(c :: s).takeWhile wordChar, List.takeWhile_append_dropWhile.symm, ?_⟩
  have hword : wordChar c = true := by
    by_contra hn
    rw [List.takeWhile_cons_of_neg (by simpa using hn)] at hv
    cases hv
  rw [List.takeWhile_cons_of_pos hword] at hv ⊢
  refine ⟨⟨c, rfl, ?_⟩, fun fuel rest hf hstop => ?_⟩
  · rw [← Bool.not_eq_true]
    intro hs
    rw [space_not_word hs] at hword
    cases hword
  · have hall : ∀ d ∈ c :: s.takeWhile wordChar, wordChar d = true := by
      intro d hd
      rcases List.mem_cons.1 hd with rfl | hd
      · exact hword
      · exact List.mem_takeWhile_imp hd
    have htake : (rest.takeWhile wordChar) = [] ∧ rest.dropWhile wordChar = rest := by
      cases rest with
      | nil => exact ⟨rfl, rfl⟩
      | cons d rest =>
        have hd : ¬ wordChar d = true := by rw [hstop d rfl]; exact Bool.false_ne_true
        exact ⟨List.takeWhile_cons_of_neg hd, List.dropWhile_cons_of_neg hd⟩
    obtain ⟨fuel, rfl⟩ : ∃ n, fuel = n + 1 := ⟨fuel - 1, by simp at hf; omega⟩
    rw [List.cons_append, value, if_neg hc.1, if_neg hc.2.1, if_neg hc.2.2, ← List.cons_append,
      List.takeWhile_append_of_pos hall, List.dropWhile_append_of_pos hall, htake.1, htake.2, List.append_nil, hv,
      Option.map_some]

theorem Reads.ne_nil {α : Type} {parse : Nat → List Char → Option (α × List Char)} {follow : List Char → Prop}
    {raw : List Char} {a : α} (h : Reads parse follow raw a) : raw ≠ [] := by
  obtain ⟨c, hc, -⟩ := h.head
  rintro rfl
  cases hc

/-- White space before what a parser reads is skipped, and no more. -/
theorem Reads.skip {α : Type} {parse : Nat → List Char → Option (α × List Char)} {follow : List Char → Prop}
    {raw w : List Char} {a : α} (h : Reads parse follow raw a) (hw : ∀ c ∈ w, space c = true) (rest : List Char) :
    skipSpace (w ++ (raw ++ rest)) = raw ++ rest := by
  obtain ⟨c, hc, hs⟩ := h.head
  refine skipSpace_append hw fun d hd => ?_
  rw [List.head?_append_of_ne_nil _ h.ne_nil, hc] at hd
  cases hd
  exact hs

theorem skipSpace_cons {w : List Char} {c : Char} (hw : ∀ d ∈ w, space d = true) (hc : space c = false)
    (rest : List Char) : skipSpace (w ++ c :: rest) = c :: rest :=
  skipSpace_append hw fun d hd => by cases hd; exact hc

theorem eq_cons_of_head? {s : List Char} {c : Char} (h : s.head? = some c) : s = c :: s.tail := by
  cases s with
  | nil => cases h
  | cons d s =>
    cases h
    rfl

theorem local_array {fuel : Nat} (h : Local fuel) {s rest : List Char} {v : Json}
    (hv : value (fuel + 1) ('[' :: s) = some (v, rest)) : ∃ raw, '[' :: s = raw ++ rest ∧ Denotes raw v := by
  obtain ⟨w, hw, hspaces, -⟩ := skipSpace_split s
  rw [value, if_neg (by decide), if_pos rfl] at hv
  split at hv
  · next hclose =>
    cases hv
    have hs := eq_cons_of_head? hclose
    refine ⟨'[' :: (w ++ [']']), ?_, ⟨_, rfl, by decide⟩, fun fuel' rest' hf _ => ?_⟩
    · rw [List.cons_append, List.append_assoc, List.singleton_append, ← hs, ← hw]
    · obtain ⟨fuel', rfl⟩ : ∃ n, fuel' = n + 1 := ⟨fuel' - 1, by simp at hf; omega⟩
      rw [List.cons_append, value, if_neg (by decide), if_pos rfl, List.append_assoc,
        List.singleton_append, skipSpace_cons hspaces rfl]
      rfl
  · next hopen =>
    obtain ⟨⟨vs, rest'⟩, hvs, heq⟩ := Option.map_eq_some_iff.1 hv
    cases heq
    obtain ⟨raw, hraw, hreads⟩ := h.elements hvs
    refine ⟨'[' :: (w ++ raw), ?_, ⟨_, rfl, by decide⟩, fun fuel' rest' hf _ => ?_⟩
    · rw [List.cons_append, List.append_assoc, ← hraw, ← hw]
    · simp only [List.length_cons, List.length_append] at hf
      obtain ⟨fuel', rfl⟩ : ∃ n, fuel' = n + 1 := ⟨fuel' - 1, by omega⟩
      have hhead : (raw ++ rest').head? ≠ some ']' := by
        rw [hraw, List.head?_append_of_ne_nil _ hreads.ne_nil] at hopen
        rwa [List.head?_append_of_ne_nil _ hreads.ne_nil]
      rw [List.cons_append, value, if_neg (by decide), if_pos rfl, List.append_assoc, hreads.skip hspaces,
        if_neg hhead, hreads.parse fuel' rest' (by omega) trivial, Option.map_some]

theorem local_value {fuel : Nat} (h : Local fuel) {s rest : List Char} {v : Json}
    (hv : value (fuel + 1) s = some (v, rest)) : ∃ raw, s = raw ++ rest ∧ Denotes raw v := by
  cases s with
  | nil => cases hv
  | cons c s =>
    by_cases harray : c = '['
    · subst harray
      exact local_array h hv
    rw [value] at hv
    split at hv
    · next hquote =>
      subst hquote
      obtain ⟨⟨t, rest'⟩, ht, heq⟩ := Option.map_eq_some_iff.1 hv
      cases heq
      obtain ⟨body, rfl, -, hbody⟩ := stringBody_local ht
      refine ⟨'"' :: body, rfl, ⟨_, rfl, by decide⟩, fun fuel' rest' hf _ => ?_⟩
      obtain ⟨fuel', rfl⟩ : ∃ n, fuel' = n + 1 := ⟨fuel' - 1, by simp at hf; omega⟩
      rw [List.cons_append, value, if_pos rfl, hbody, Option.map_some]
    · next hquote =>
      split at hv
      · next hbrace =>
        subst hbrace
        obtain ⟨⟨ms, rest'⟩, hms, heq⟩ := Option.map_eq_some_iff.1 hv
        cases heq
        obtain ⟨raw, rfl, -, hreads⟩ := h.object hms
        refine ⟨'\x7b' :: raw, rfl, ⟨_, rfl, by decide⟩, fun fuel' rest' hf _ => ?_⟩
        simp only [List.length_cons] at hf
        obtain ⟨fuel', rfl⟩ : ∃ n, fuel' = n + 1 := ⟨fuel' - 1, by omega⟩
        rw [List.cons_append, value, if_neg (by decide), if_neg (by decide), if_pos rfl, hreads fuel' rest' (by omega),
          Option.map_some]
      · next hbrace =>
        obtain ⟨v', hword, heq⟩ := Option.map_eq_some_iff.1 hv
        cases heq
        exact local_word ⟨hquote, harray, hbrace⟩ hword

theorem local_elements {fuel : Nat} (h : Local fuel) {s rest : List Char} {vs : List Json}
    (hv : elements (fuel + 1) s = some (vs, rest)) :
    ∃ raw, s = raw ++ rest ∧ Reads elements (fun _ => True) raw vs := by
  rw [elements] at hv
  split at hv
  · cases hv
  · next v after hvalue =>
    obtain ⟨raw, rfl, hd⟩ := h.value hvalue
    obtain ⟨w, hw, hspaces, -⟩ := skipSpace_split after
    have hhead : ∀ tail : List Char, ∃ c, (raw ++ tail).head? = some c ∧ space c = false := by
      intro tail
      obtain ⟨c, hc, hs⟩ := hd.head
      exact ⟨c, by rw [List.head?_append_of_ne_nil _ hd.ne_nil, hc], hs⟩
    split at hv
    · next r hclose =>
      cases hv
      refine ⟨raw ++ (w ++ [']']), ?_, hhead _, fun fuel' rest' hf _ => ?_⟩
      · rw [List.append_assoc, List.append_assoc, List.singleton_append, ← hclose, ← hw]
      · simp only [List.length_append, List.length_singleton] at hf
        obtain ⟨fuel', rfl⟩ : ∃ n, fuel' = n + 1 := ⟨fuel' - 1, by omega⟩
        rw [List.append_assoc, List.append_assoc, List.singleton_append, elements,
          hd.parse fuel' _ (by omega) (stop_spaces hspaces (by decide))]
        simp only [skipSpace_cons hspaces (show space ']' = false from rfl)]
    · next r hcomma =>
      obtain ⟨⟨vs', rest'⟩, hvs, heq⟩ := Option.map_eq_some_iff.1 hv
      cases heq
      obtain ⟨w', hw', hspaces', -⟩ := skipSpace_split r
      obtain ⟨raw', hraw', hreads⟩ := h.elements hvs
      refine ⟨raw ++ (w ++ ',' :: (w' ++ raw')), ?_, hhead _, fun fuel' rest' hf _ => ?_⟩
      · simp only [List.append_assoc, List.cons_append]
        rw [← hraw', ← hw', ← hcomma, ← hw]
      · simp only [List.length_append, List.length_cons] at hf
        obtain ⟨fuel', rfl⟩ : ∃ n, fuel' = n + 1 := ⟨fuel' - 1, by omega⟩
        simp only [List.append_assoc, List.cons_append]
        rw [elements, hd.parse fuel' _ (by omega) (stop_spaces hspaces (by decide))]
        simp only [skipSpace_cons hspaces (show space ',' = false from rfl), hreads.skip hspaces',
          hreads.parse fuel' rest' (by omega) trivial, Option.map_some]
    · cases hv

theorem members_ne_nil (fuel : Nat) (s rest : List Char) : members fuel s ≠ some ([], rest) := by
  intro h
  cases fuel with
  | zero => cases h
  | succ fuel =>
    unfold members at h
    split at h
    · split at h
      · cases h
      · split at h
        · split at h
          · cases h
          · split at h
            · cases h
            · obtain ⟨_, -, heq⟩ := Option.map_eq_some_iff.1 h
              cases heq
            · cases h
        · cases h
    · cases h

theorem local_object {fuel : Nat} (h : Local fuel) {s rest : List Char} {ms : List Member}
    (hm : object (fuel + 1) s = some (ms, rest)) : ∃ raw, s = raw ++ rest ∧ Members raw ms ∧
      ∀ fuel rest', 2 * raw.length + 1 ≤ fuel → object fuel (raw ++ rest') = some (ms, rest') := by
  obtain ⟨w, hw, hspaces, -⟩ := skipSpace_split s
  rw [object] at hm
  split at hm
  · next hclose =>
    cases hm
    have hs := eq_cons_of_head? hclose
    refine ⟨w ++ ['\x7d'], ?_, ⟨by simp, List.sublist_append_right _ _⟩, fun fuel' rest' hf => ?_⟩
    · rw [List.append_assoc, List.singleton_append, ← hs, ← hw]
    · obtain ⟨fuel', rfl⟩ : ∃ n, fuel' = n + 1 := ⟨fuel' - 1, by omega⟩
      rw [object, List.append_assoc, List.singleton_append, skipSpace_cons hspaces rfl]
      rfl
  · next hopen =>
    obtain ⟨raw, hraw, hreads, hms⟩ := h.members hm
    refine ⟨w ++ raw, ?_, ⟨hms.ok, hms.sublist.trans (List.sublist_append_right _ _)⟩, fun fuel' rest' hf => ?_⟩
    · rw [List.append_assoc, ← hraw, ← hw]
    · simp only [List.length_append] at hf
      obtain ⟨fuel', rfl⟩ : ∃ n, fuel' = n + 1 := ⟨fuel' - 1, by omega⟩
      have hhead : (raw ++ rest').head? ≠ some '\x7d' := by
        rw [hraw, List.head?_append_of_ne_nil _ hreads.ne_nil] at hopen
        rwa [List.head?_append_of_ne_nil _ hreads.ne_nil]
      rw [object, List.append_assoc, hreads.skip hspaces, if_neg hhead, hreads.parse fuel' rest' (by omega) trivial]

/-- A member read at the start of a text, and the text behind it. -/
theorem local_member {fuel : Nat} (h : Local fuel) {s keyEnd afterColon after : List Char} {t : List Nat} {v : Json}
    (hkey : stringBody s = some (t, keyEnd)) (hcolon : skipSpace keyEnd = ':' :: afterColon)
    (hvalue : value fuel (skipSpace afterColon) = some (v, after)) {m : Member}
    (hm : m = ⟨readOf ('"' :: s) keyEnd, joinSurrogates t, readOf (skipSpace afterColon) after, v⟩) :
    m.Ok ∧ ∃ w w', (∀ c ∈ w, space c = true) ∧ (∀ c ∈ w', space c = true) ∧
      '"' :: s = m.rawKey ++ (w ++ ':' :: (w' ++ (m.raw ++ after))) := by
  obtain ⟨body, rfl, -, hbody⟩ := stringBody_local hkey
  obtain ⟨w, hw, hspaces, -⟩ := skipSpace_split keyEnd
  obtain ⟨w', hw', hspaces', -⟩ := skipSpace_split afterColon
  obtain ⟨raw, hraw, hd⟩ := h.value hvalue
  have hreadKey : readOf ('"' :: (body ++ keyEnd)) keyEnd = '"' :: body := readOf_append ('"' :: body) keyEnd
  have hreadRaw : readOf (skipSpace afterColon) after = raw := by rw [hraw, readOf_append]
  rw [hreadKey, hreadRaw] at hm
  subst hm
  refine ⟨⟨⟨body, t, rfl, rfl, ?_⟩, hd⟩, w, w', hspaces, hspaces', ?_⟩
  · have := hbody []
    rwa [List.append_nil] at this
  · rw [← hraw, ← hw', ← hcolon, ← hw]
    rfl

/-- What reading a member's text again gives, with any white space in it. -/
theorem Member.Ok.again {m : Member} (h : m.Ok) : ∃ body t, m.rawKey = '"' :: body ∧
    ∀ (w w' rest : List Char) (fuel : Nat), (∀ c ∈ w, space c = true) → (∀ c ∈ w', space c = true) →
      2 * m.raw.length ≤ fuel → Stop rest →
      stringBody (body ++ (w ++ ':' :: (w' ++ (m.raw ++ rest)))) = some (t, w ++ ':' :: (w' ++ (m.raw ++ rest))) ∧
      skipSpace (w ++ ':' :: (w' ++ (m.raw ++ rest))) = ':' :: (w' ++ (m.raw ++ rest)) ∧
      skipSpace (w' ++ (m.raw ++ rest)) = m.raw ++ rest ∧ Json.value fuel (m.raw ++ rest) = some (m.value, rest) ∧
      Member.mk (readOf ('"' :: (body ++ (w ++ ':' :: (w' ++ (m.raw ++ rest))))) (w ++ ':' :: (w' ++ (m.raw ++ rest))))
        (joinSurrogates t) (readOf (m.raw ++ rest) rest) m.value = m := by
  obtain ⟨rawKey, key, raw, v⟩ := m
  obtain ⟨⟨body, t, hrawKey, hkey, hbody⟩, hd⟩ := h
  simp only at hrawKey hkey hd
  obtain ⟨body', heq, -, hlocal⟩ := stringBody_local hbody
  rw [List.append_nil] at heq
  subst hrawKey hkey heq
  refine ⟨body, t, rfl, fun w w' rest fuel hw hw' hf hstop => ?_⟩
  refine ⟨hlocal _, skipSpace_cons hw rfl _, hd.skip hw' rest, hd.parse fuel rest hf hstop, ?_⟩
  rw [readOf_append, ← List.cons_append, readOf_append]

section
variable {m : Member} {w w' x : List Char} (hw : ∀ c ∈ w, space c = true) (hw' : ∀ c ∈ w', space c = true)
  (hx : ∀ c ∈ x, space c = true)
include hw hw' hx

theorem members_last (h : m.Ok) {n : Nat} (hf : 2 * m.raw.length ≤ n) (rest : List Char) :
    members (n + 1) (m.rawKey ++ (w ++ ':' :: (w' ++ (m.raw ++ (x ++ '\x7d' :: rest))))) = some ([m], rest) := by
  obtain ⟨body, t, hkey, hagain⟩ := h.again
  obtain ⟨h1, h2, h3, h4, h5⟩ := hagain w w' (x ++ '\x7d' :: rest) n hw hw' hf (stop_spaces hx (by decide))
  rw [hkey, List.cons_append, members]
  simp only [h1, h2, h3, h4, skipSpace_cons hx (show space '\x7d' = false from rfl), h5]

theorem members_next (h : m.Ok) {n : Nat} (hf : 2 * m.raw.length ≤ n) {s rest : List Char} {ms : List Member}
    (hms : members n (skipSpace s) = some (ms, rest)) :
    members (n + 1) (m.rawKey ++ (w ++ ':' :: (w' ++ (m.raw ++ (x ++ ',' :: s))))) = some (m :: ms, rest) := by
  obtain ⟨body, t, hkey, hagain⟩ := h.again
  obtain ⟨h1, h2, h3, h4, h5⟩ := hagain w w' (x ++ ',' :: s) n hw hw' hf (stop_spaces hx (by decide))
  rw [hkey, List.cons_append, members]
  simp only [h1, h2, h3, h4, skipSpace_cons hx (show space ',' = false from rfl), h5, hms, Option.map_some]

end

/-- A member's texts stand in its text, whatever white space is around them. -/
theorem member_sublist {key raw tail tail' : List Char} (w w' x : List Char) (c : Char) (h : tail.Sublist tail') :
    (key ++ ':' :: raw ++ c :: tail).Sublist (key ++ (w ++ ':' :: (w' ++ (raw ++ (x ++ c :: tail'))))) := by
  have hend : (c :: tail).Sublist (x ++ c :: tail') := (h.cons_cons c).trans (List.sublist_append_right _ _)
  have hraw : (raw ++ c :: tail).Sublist (w' ++ (raw ++ (x ++ c :: tail'))) :=
    ((List.Sublist.refl raw).append hend).trans (List.sublist_append_right _ _)
  have hcolon := (hraw.cons_cons ':').trans (List.sublist_append_right w _)
  simpa using (List.Sublist.refl key).append hcolon

theorem compact_cons {m : Member} {ms : List Member} (h : ms ≠ []) :
    compact (m :: ms) = m.rawKey ++ ':' :: m.raw ++ ',' :: compact ms := by
  rw [compact, List.map_cons, List.intercalate_cons_of_ne_nil (by simpa using h), List.append_assoc, List.append_assoc,
    List.singleton_append]
  rfl

theorem compact_quote {ms : List Member} (hne : ms ≠ []) (hok : ∀ m ∈ ms, m.Ok) :
    ∃ tail, compact ms = '"' :: tail := by
  obtain ⟨m, ms, rfl⟩ := List.exists_cons_of_ne_nil hne
  obtain ⟨body, -, hkey, -⟩ := (hok m List.mem_cons_self).key
  by_cases h : ms = []
  · subst h
    exact ⟨body ++ ':' :: (m.raw ++ ['\x7d']), by simp [compact, hkey]⟩
  · exact ⟨body ++ ':' :: (m.raw ++ ',' :: compact ms), by simp [compact_cons h, hkey]⟩

theorem Member.Ok.head {m : Member} (h : m.Ok) (rest : List Char) :
    ∃ c, (m.rawKey ++ rest).head? = some c ∧ space c = false := by
  obtain ⟨body, -, hkey, -⟩ := h.key
  exact ⟨'"', by rw [hkey]; rfl, rfl⟩

theorem local_members {fuel : Nat} (h : Local fuel) {s rest : List Char} {ms : List Member}
    (hm : members (fuel + 1) s = some (ms, rest)) :
    ∃ raw, s = raw ++ rest ∧ Reads members (fun _ => True) raw ms ∧ Members raw ms := by
  unfold members at hm
  split at hm
  · next s =>
    split at hm
    · cases hm
    · next t keyEnd hkey =>
      split at hm
      · next afterColon hcolon =>
        split at hm
        · cases hm
        · next v after hvalue =>
          generalize hmember : (Member.mk _ _ _ _ : Member) = member at hm
          obtain ⟨hok, w, w', hw, hw', heq⟩ := local_member h hkey hcolon hvalue hmember.symm
          obtain ⟨x, hafter, hx, -⟩ := skipSpace_split after
          rw [heq]
          split at hm
          · next r hclose =>
            cases hm
            refine ⟨member.rawKey ++ (w ++ ':' :: (w' ++ (member.raw ++ (x ++ ['\x7d'])))), ?_, ⟨hok.head _, ?_⟩, ?_, ?_⟩
            · simp only [List.append_assoc, List.cons_append, List.nil_append]
              rw [← hclose, ← hafter]
            · intro fuel' rest' hf _
              simp only [List.length_append, List.length_cons] at hf
              obtain ⟨fuel', rfl⟩ : ∃ n, fuel' = n + 1 := ⟨fuel' - 1, by omega⟩
              simpa using members_last hw hw' hx hok (n := fuel') (by omega) rest'
            · simpa using hok
            · rw [compact, List.map_singleton, List.intercalate_singleton]
              exact member_sublist w w' x '\x7d' (List.Sublist.refl [])
          · next r hcomma =>
            obtain ⟨⟨ms', rest'⟩, hms, heq⟩ := Option.map_eq_some_iff.1 hm
            cases heq
            obtain ⟨y, hr, hy, -⟩ := skipSpace_split r
            obtain ⟨raw, hraw, hreads, hmembers⟩ := h.members hms
            refine ⟨member.rawKey ++ (w ++ ':' :: (w' ++ (member.raw ++ (x ++ ',' :: (y ++ raw))))), ?_,
              ⟨hok.head _, ?_⟩, ?_, ?_⟩
            · simp only [List.append_assoc, List.cons_append]
              rw [← hraw, ← hr, ← hcomma, ← hafter]
            · intro fuel' rest' hf _
              simp only [List.length_append, List.length_cons] at hf
              obtain ⟨fuel', rfl⟩ : ∃ n, fuel' = n + 1 := ⟨fuel' - 1, by omega⟩
              have hrest := hreads.parse fuel' rest' (by omega) trivial
              rw [← hreads.skip hy rest'] at hrest
              simpa using members_next hw hw' hx hok (n := fuel') (by omega) hrest
            · exact fun m hm => (List.mem_cons.1 hm).elim (fun he => he ▸ hok) (hmembers.ok m)
            · have hne : ms' ≠ [] := by
                rintro rfl
                exact members_ne_nil _ _ _ hms
              rw [compact_cons hne]
              exact member_sublist w w' x ',' (hmembers.sublist.trans (List.sublist_append_right y raw))
          · cases hm
      · cases hm
  · cases hm

theorem local_all (fuel : Nat) : Local fuel := by
  induction fuel with
  | zero => exact ⟨(fun h => by cases h), (fun h => by cases h), (fun h => by cases h), (fun h => by cases h)⟩
  | succ fuel ih => exact ⟨local_value ih, local_elements ih, local_object ih, local_members ih⟩

/-! ## Whole texts -/

theorem stop_nil : Stop [] := fun c h => by cases h

theorem text_denotes {s raw : List Char} {v : Json} (h : text s = some (raw, v)) : Denotes raw v := by
  obtain ⟨⟨v', rest⟩, hv, hrest⟩ := Option.bind_eq_some_iff.1 h
  simp only at hrest
  split at hrest
  · cases hrest
    obtain ⟨raw, hraw, hd⟩ := (local_all _).value hv
    rw [hraw, readOf_append]
    exact hd
  · cases hrest

theorem text_sublist {s raw : List Char} {v : Json} (h : text s = some (raw, v)) : raw.Sublist s := by
  obtain ⟨⟨v', rest⟩, -, hrest⟩ := Option.bind_eq_some_iff.1 h
  simp only at hrest
  split at hrest
  · cases hrest
    exact (List.take_sublist _ _).trans (List.dropWhile_sublist _)
  · cases hrest

theorem Reads.skipSpace_eq {α : Type} {parse : Nat → List Char → Option (α × List Char)} {follow : List Char → Prop}
    {raw : List Char} {a : α} (h : Reads parse follow raw a) : skipSpace raw = raw := by
  have := h.skip (w := []) (by simp) []
  rwa [List.append_nil, List.nil_append] at this

theorem Reads.whole {raw : List Char} {v : Json} (h : Denotes raw v) {n : Nat} (hf : 2 * raw.length ≤ n) :
    value n raw = some (v, []) := by
  have := h.parse n [] hf stop_nil
  rwa [List.append_nil] at this

theorem Reads.text {raw : List Char} {v : Json} (h : Denotes raw v) : text raw = some (raw, v) := by
  rw [Json.text, h.skipSpace_eq, h.whole (Nat.le_refl _), Option.bind_some]
  simp [skipSpace, readOf]

/-- The members of a text are its value's, and stand in it without what is between them. -/
theorem objectOf_some {raw : List Char} {v : Json} {ms : List Member} (h : Denotes raw v) (ho : objectOf raw = some ms) :
    v = ofMembers ms ∧ (∀ m ∈ ms, m.Ok) ∧ ('\x7b' :: compact ms).Sublist raw := by
  rw [objectOf, h.skipSpace_eq] at ho
  split at ho
  · next s =>
    obtain ⟨⟨ms', rest⟩, hms, hrest⟩ := Option.bind_eq_some_iff.1 ho
    simp only at hrest
    split at hrest
    · cases hrest
      obtain ⟨body, rfl, hmembers, hbody⟩ := (local_all _).object hms
      have hv := h.whole (n := 2 * (body ++ rest).length + 2) (by simp only [List.length_cons]; omega)
      rw [value, if_neg (by decide), if_neg (by decide), if_pos rfl, hms, Option.map_some] at hv
      cases hv
      refine ⟨rfl, hmembers.ok, (hmembers.sublist.trans ?_).cons_cons _⟩
      rw [List.append_nil]
    · cases hrest
  · cases ho

/-- The character that an object, a string begins with. -/
def opening : Json → Option Char
  | .obj _ => some '\x7b'
  | .str _ => some '"'
  | _ => none

theorem value_opening {fuel : Nat} {s rest : List Char} {v : Json} {c : Char} (h : value fuel s = some (v, rest))
    (hc : opening v = some c) : s.head? = some c := by
  cases fuel with
  | zero => cases h
  | succ fuel =>
    cases s with
    | nil => cases h
    | cons d s =>
      rw [value] at h
      split at h
      · next hd =>
        obtain ⟨_, -, heq⟩ := Option.map_eq_some_iff.1 h
        cases heq
        rw [hd]
        exact hc
      · split at h
        · split at h
          · cases h
            cases hc
          · obtain ⟨_, -, heq⟩ := Option.map_eq_some_iff.1 h
            cases heq
            cases hc
        · split at h
          · next hd =>
            obtain ⟨_, -, heq⟩ := Option.map_eq_some_iff.1 h
            cases heq
            rw [hd]
            exact hc
          · obtain ⟨v', hw, heq⟩ := Option.map_eq_some_iff.1 h
            cases heq
            unfold word at hw
            repeat' split at hw
            all_goals cases hw
            all_goals cases hc

theorem Reads.opening {raw : List Char} {v : Json} {c : Char} (h : Denotes raw v) (hc : opening v = some c) :
    ∃ s, raw = c :: s :=
  ⟨_, eq_cons_of_head? (value_opening (h.whole (Nat.le_refl _)) hc)⟩

theorem objectOf_none {raw : List Char} {v : Json} (h : Denotes raw v) (ho : objectOf raw = none) :
    ∀ f, v ≠ .obj f := by
  rintro f rfl
  obtain ⟨s, rfl⟩ := h.opening rfl
  have hv := h.whole (n := 2 * s.length + 2) (by simp only [List.length_cons]; omega)
  rw [value, if_neg (by decide), if_neg (by decide), if_pos rfl] at hv
  obtain ⟨⟨ms, rest⟩, hms, heq⟩ := Option.map_eq_some_iff.1 hv
  cases heq
  rw [objectOf, h.skipSpace_eq] at ho
  simp only [hms, Option.bind_some] at ho
  cases ho

def asString : Json → Option (List Nat)
  | .str s => some s
  | _ => none

theorem stringOf_eq {raw : List Char} {v : Json} (h : Denotes raw v) : stringOf raw = asString v := by
  cases hs : stringOf raw with
  | some t =>
    rw [stringOf, h.skipSpace_eq] at hs
    split at hs
    · next s =>
      have hv := h.whole (Nat.le_refl _)
      rw [List.length_cons, Nat.mul_add, value, if_pos rfl] at hv
      obtain ⟨⟨t', rest⟩, ht, heq⟩ := Option.map_eq_some_iff.1 hv
      cases heq
      rw [ht] at hs
      cases hs
      rfl
    · cases hs
  | none =>
    cases v with
    | str t =>
      obtain ⟨s, rfl⟩ := h.opening rfl
      have hv := h.whole (Nat.le_refl _)
      rw [List.length_cons, Nat.mul_add, value, if_pos rfl] at hv
      obtain ⟨⟨t', rest⟩, ht, heq⟩ := Option.map_eq_some_iff.1 hv
      cases heq
      rw [stringOf, h.skipSpace_eq] at hs
      simp only [ht, Option.bind_some] at hs
      cases hs
    | _ => rfl

/-! ## Printing -/

theorem hexValue_digitChar {n : Nat} (h : n < 16) : hexValue (Nat.digitChar n) = some n := by
  have hall : ∀ n : Fin 16, hexValue (Nat.digitChar n) = some n.val := by decide
  exact hall ⟨n, h⟩

theorem hex4_control {n : Nat} (h : n < 32) :
    hex4 '0' '0' (Nat.digitChar (n / 16)) (Nat.digitChar (n % 16)) = some n := by
  have h0 : hexValue '0' = some 0 := by decide
  simp only [hex4, h0, hexValue_digitChar (show n / 16 < 16 by omega), hexValue_digitChar (show n % 16 < 16 by omega),
    Option.bind_eq_bind, Option.bind_some]
  congr 1
  omega

theorem stringBody_short {e c : Char} (he : e ≠ 'u') (hc : unescape e = some c) (rest : List Char) :
    stringBody ('\\' :: e :: rest) = (stringBody rest).map fun r => (c.toNat :: r.1, r.2) := by
  rw [stringBody_escape he, hc, Option.bind_some]

/-- A character is read back from its escape. -/
theorem stringBody_escaped (c : Char) (rest : List Char) :
    stringBody (escape c ++ rest) = (stringBody rest).map fun r => (c.toNat :: r.1, r.2) := by
  unfold escape
  split
  · next hc => exact hc ▸ stringBody_short (by decide) rfl rest
  split
  · next hc => exact hc ▸ stringBody_short (by decide) rfl rest
  next hquote hback =>
  split
  · next hcontrol =>
    unfold controlEscape
    split
    · next hc => exact hc ▸ stringBody_short (by decide) rfl rest
    split
    · next hc => exact hc ▸ stringBody_short (by decide) rfl rest
    split
    · next hc => exact hc ▸ stringBody_short (by decide) rfl rest
    split
    · next hc => exact hc ▸ stringBody_short (by decide) rfl rest
    split
    · next hc => exact hc ▸ stringBody_short (by decide) rfl rest
    · have hlt : c.toNat < 32 := by
        rw [Char.lt_def, UInt32.lt_iff_toNat_lt] at hcontrol
        exact hcontrol
      show stringBody ('\\' :: 'u' :: '0' :: '0' :: Nat.digitChar (c.toNat / 16) :: Nat.digitChar (c.toNat % 16) :: rest) = _
      rw [stringBody, hex4_control hlt]
  · next hplain => rw [List.singleton_append, stringBody_plain hquote hback, if_neg hplain]

theorem stringBody_print (s rest : List Char) :
    stringBody (s.flatMap escape ++ '"' :: rest) = some (s.map Char.toNat, rest) := by
  induction s with
  | nil => rfl
  | cons c s ih =>
    rw [List.flatMap_cons, List.append_assoc, stringBody_escaped, ih]
    rfl

theorem isValidChar_toNat (c : Char) : c.toNat.isValidChar := c.valid

theorem high_toNat (c : Char) : high c.toNat = false := by
  have := isValidChar_toNat c
  simp only [high, Bool.and_eq_false_iff, decide_eq_false_iff_not, Nat.isValidChar] at this ⊢
  omega

theorem joinSurrogates_toNat (s : List Char) : joinSurrogates (s.map Char.toNat) = s.map Char.toNat := by
  induction s with
  | nil => rfl
  | cons c s ih =>
    cases s with
    | nil => rfl
    | cons d s =>
      rw [List.map_cons, List.map_cons, joinSurrogates, high_toNat, Bool.false_and, if_neg Bool.false_ne_true]
      rw [List.map_cons] at ih
      rw [ih]

theorem toNat_ofNat_valid {n : Nat} (h : n.isValidChar) : (Char.ofNat n).toNat = n := by
  rw [Char.ofNat, dif_pos h]
  rfl

/-- The code points of a text are a string of valid Unicode, and every such string's are. -/
theorem chars_eq_some {t : List Nat} {s : List Char} : chars t = some s ↔ t = s.map Char.toNat := by
  induction t generalizing s with
  | nil => cases s <;> simp [chars]
  | cons n t ih =>
    constructor
    · intro h
      rw [chars] at h
      split at h
      · next hn =>
        obtain ⟨s', hs', rfl⟩ := Option.map_eq_some_iff.1 h
        rw [ih.1 hs', List.map_cons, toNat_ofNat_valid hn]
      · cases h
    · intro h
      cases s with
      | nil => cases h
      | cons c s =>
        rw [List.map_cons, List.cons.injEq] at h
        rw [chars, h.1, if_pos (isValidChar_toNat c), ih.2 h.2, Option.map_some, Char.ofNat_toNat]

/-- A text's string is printed as itself. -/
theorem denotes_print (s : List Char) : Denotes (printString s) (.str (s.map Char.toNat)) := by
  refine ⟨⟨'"', rfl, rfl⟩, fun fuel rest hf _ => ?_⟩
  simp only [printString, List.cons_append, List.length_cons] at hf
  obtain ⟨fuel, rfl⟩ : ∃ n, fuel = n + 1 := ⟨fuel - 1, by omega⟩
  rw [printString, List.cons_append, List.cons_append, value, if_pos rfl, List.append_assoc, List.singleton_append,
    stringBody_print, Option.map_some]
  simp only [joinSurrogates_toNat]

/-- A member of a printed key and a value's text. -/
def printed (key : List Char) (raw : List Char) (v : Json) : Member := ⟨printString key, key.map Char.toNat, raw, v⟩

theorem printed_ok {key raw : List Char} {v : Json} (h : Denotes raw v) : (printed key raw v).Ok := by
  refine ⟨⟨_, key.map Char.toNat, rfl, (joinSurrogates_toNat key).symm, ?_⟩, h⟩
  exact stringBody_print key []

/-- Members are read back from their compact text. -/
theorem members_compact {ms : List Member} (hne : ms ≠ []) (hok : ∀ m ∈ ms, m.Ok) :
    ∀ fuel rest, 2 * (compact ms).length ≤ fuel → members fuel (compact ms ++ rest) = some (ms, rest) := by
  have hspace : ∀ c ∈ ([] : List Char), space c = true := fun c hc => by cases hc
  induction ms with
  | nil => exact absurd rfl hne
  | cons m ms ih =>
    intro fuel rest hf
    have hm := hok m List.mem_cons_self
    by_cases hms : ms = []
    · subst hms
      rw [compact, List.map_singleton, List.intercalate_singleton] at hf ⊢
      simp only [List.length_append, List.length_cons] at hf
      obtain ⟨fuel, rfl⟩ : ∃ n, fuel = n + 1 := ⟨fuel - 1, by omega⟩
      simpa using members_last hspace hspace hspace hm (n := fuel) (by omega) rest
    · rw [compact_cons hms] at hf ⊢
      simp only [List.length_append, List.length_cons] at hf
      obtain ⟨fuel, rfl⟩ : ∃ n, fuel = n + 1 := ⟨fuel - 1, by omega⟩
      have hrest := ih hms (fun m' hm' => hok m' (List.mem_cons_of_mem _ hm')) fuel rest (by omega)
      have hskip : skipSpace (compact ms ++ rest) = compact ms ++ rest := by
        obtain ⟨tail, htail⟩ := compact_quote hms fun m' hm' => hok m' (List.mem_cons_of_mem _ hm')
        rw [htail]
        rfl
      rw [← hskip] at hrest
      simpa using members_next hspace hspace hspace hm (n := fuel) (by omega) hrest

/-- The compact text of members is an object's, with these members. -/
theorem denotes_compact {ms : List Member} (hok : ∀ m ∈ ms, m.Ok) :
    Denotes ('\x7b' :: compact ms) (ofMembers ms) ∧ objectOf ('\x7b' :: compact ms) = some ms := by
  have hobject : ∀ fuel rest, 2 * (compact ms).length + 1 ≤ fuel → object fuel (compact ms ++ rest) = some (ms, rest) := by
    intro fuel rest hf
    obtain ⟨fuel, rfl⟩ : ∃ n, fuel = n + 1 := ⟨fuel - 1, by omega⟩
    cases ms with
    | nil =>
      rw [object]
      rfl
    | cons m ms =>
      obtain ⟨tail, htail⟩ := compact_quote (List.cons_ne_nil m ms) hok
      have hskip : skipSpace (compact (m :: ms) ++ rest) = compact (m :: ms) ++ rest := by
        rw [htail]
        rfl
      have hhead : (compact (m :: ms) ++ rest).head? ≠ some '\x7d' := by
        rw [htail]
        simp
      rw [object, hskip, if_neg hhead, members_compact (List.cons_ne_nil _ _) hok fuel rest (by omega)]
  refine ⟨⟨⟨_, rfl, by decide⟩, fun fuel rest hf _ => ?_⟩, ?_⟩
  · simp only [List.length_cons] at hf
    obtain ⟨fuel, rfl⟩ : ∃ n, fuel = n + 1 := ⟨fuel - 1, by omega⟩
    rw [List.cons_append, value, if_neg (by decide), if_neg (by decide), if_pos rfl, hobject fuel rest (by omega),
      Option.map_some]
  · have := hobject (2 * (compact ms).length + 1) [] (Nat.le_refl _)
    rw [List.append_nil] at this
    show ((object (2 * (compact ms).length + 1) (compact ms)).bind _) = _
    rw [this]
    rfl

end Json

end Vampire.Lib
