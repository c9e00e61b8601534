/-
Cache keys (`cache.rs`, `proxy.rs`): the class, the upstream URL and, for
metadata, the representation are hashed with a zero byte behind each.

SHA-256 is a parameter. Nothing here asks it to be injective: a key that
stands for two things is said to be a collision of it.
-/
import Vampire.Url

namespace Vampire

open Lib

/-! ## Text as bytes -/

def lowerHexDigit (n : Nat) : Char := if n < 10 then Char.ofNat (48 + n) else Char.ofNat (87 + n)

/-- `hex::encode` -/
def hexEncode (bytes : List UInt8) : Str :=
  bytes.flatMap fun b => [lowerHexDigit (b.toNat / 16), lowerHexDigit (b.toNat % 16)]

/-- `Url::as_str` -/
def Url.asStr (url : Url) : Str :=
  url.scheme ++ ":".toList ++
    (match url.host with
      | none => []
      | some host =>
        "//".toList ++
          (if url.username = [] ∧ url.password = none then []
            else url.username ++ (url.password.elim [] fun password => ':' :: password) ++ "@".toList) ++
          host ++ (url.port.elim [] fun port => ':' :: (Nat.repr port).toList)) ++
    url.path ++ (url.query.elim [] fun query => '?' :: query) ++
    (url.fragment.elim [] fun fragment => '#' :: fragment)

/-! ## The source's functions -/

/-- Who asks for a rewritten body, with the proxy's origin in it. -/
inductive MetadataRewrite
  | none
  | npm (origin : Str)
  | pypi (origin : Str)

/-- `MetadataRewrite::cache_identity` -/
def MetadataRewrite.cacheIdentity : MetadataRewrite → Str
  | .none => "raw:v1".toList
  | .npm origin => "npm:v2:".toList ++ origin
  | .pypi origin => "pypi:v2:".toList ++ origin

/-- What `hash_key` feeds to the hasher. -/
def hashInput (cls upstream : Str) (representation : Option Str) : List UInt8 :=
  utf8 cls ++ [0] ++ (utf8 upstream ++ [0] ++ representation.elim [] fun text => utf8 text ++ [0])

/-- What is hashed for an artifact's key. -/
def artifactInput (upstream : Str) : List UInt8 := hashInput "artifact".toList upstream none

/-- What is hashed for a metadata key. -/
def metadataInput (upstream representation : Str) : List UInt8 :=
  hashInput "metadata".toList upstream (some representation)

section
variable (sha256 : List UInt8 → List UInt8)

/-- `hash_key` -/
def hashKey (cls upstream : Str) (representation : Option Str) : Str :=
  hexEncode (sha256 (hashInput cls upstream representation))

/-- `CacheStore::artifact_key` -/
def artifactKey (upstream : Str) : Str := hashKey sha256 "artifact".toList upstream none

/-- `CacheStore::metadata_key` -/
def metadataKey (upstream representation : Str) : Str :=
  hashKey sha256 "metadata".toList upstream (some representation)

/-- These two inputs have one digest. -/
def Collision (a b : List UInt8) : Prop := a ≠ b ∧ sha256 a = sha256 b

end

/-! ## Encodings are injective -/

/-- Two texts without a separator that are followed by one are the same text. -/
theorem append_sep_inj {α : Type} {sep : α} {a b s t : List α} (ha : sep ∉ a) (hb : sep ∉ b)
    (h : a ++ [sep] ++ s = b ++ [sep] ++ t) : a = b ∧ s = t := by
  induction a generalizing b with
  | nil =>
    cases b with
    | nil => exact ⟨rfl, by simpa using h⟩
    | cons y b =>
      simp only [List.nil_append, List.cons_append, List.cons.injEq] at h
      exact absurd (h.1 ▸ List.mem_cons_self) hb
  | cons x a ih =>
    cases b with
    | nil =>
      simp only [List.nil_append, List.cons_append, List.cons.injEq] at h
      exact absurd (h.1 ▸ List.mem_cons_self) ha
    | cons y b =>
      simp only [List.cons_append, List.cons.injEq] at h
      obtain ⟨hab, hst⟩ := ih (fun hm => ha (List.mem_cons_of_mem _ hm)) (fun hm => hb (List.mem_cons_of_mem _ hm)) h.2
      exact ⟨by rw [h.1, hab], hst⟩

theorem utf8_cons (c : Char) (s : Str) : utf8 (c :: s) = String.utf8EncodeChar c ++ utf8 s := rfl

theorem utf8_injective : Function.Injective utf8 := by
  intro s t h
  have hbytes : s.utf8Encode = t.utf8Encode := congrArg List.toByteArray h
  rw [← String.toByteArray_ofList, ← String.toByteArray_ofList, String.toByteArray_inj] at hbytes
  simpa using congrArg String.toList hbytes

/-- The byte that separates the parts of a key is in none of them. -/
theorem zero_not_mem_utf8 {s : Str} (h : ∀ c ∈ s, c.toNat ≠ 0) : (0 : UInt8) ∉ utf8 s := by
  intro h0
  obtain ⟨c, hc, hb⟩ := List.mem_flatMap.1 h0
  by_cases ha : c.toNat < 128
  · rw [utf8EncodeChar_ascii ha, List.mem_singleton] at hb
    have hval := congrArg UInt8.toNat hb
    rw [UInt8.toNat_ofNat', Nat.mod_eq_of_lt (by omega)] at hval
    exact h c hc hval.symm
  · exact absurd (utf8EncodeChar_beyond (Nat.le_of_not_lt ha) _ hb) (by decide)

theorem lowerHexDigit_injective {m n : Nat} (hm : m < 16) (hn : n < 16) (h : lowerHexDigit m = lowerHexDigit n) :
    m = n := by
  have hall : ∀ m n : Fin 16, lowerHexDigit m = lowerHexDigit n → m.val = n.val := by decide
  exact hall ⟨m, hm⟩ ⟨n, hn⟩ h

theorem hexEncode_injective : Function.Injective hexEncode := by
  intro a b h
  induction a generalizing b with
  | nil =>
    cases b with
    | nil => rfl
    | cons y b => simp [hexEncode] at h
  | cons x a ih =>
    cases b with
    | nil => simp [hexEncode] at h
    | cons y b =>
      simp only [hexEncode, List.flatMap_cons, List.cons_append, List.nil_append, List.cons.injEq] at h
      have hx := x.toNat_lt
      have hy := y.toNat_lt
      have hdiv := lowerHexDigit_injective (by omega) (by omega) h.1
      have hmod := lowerHexDigit_injective (by omega) (by omega) h.2.1
      have hxy : x = y := UInt8.toNat_inj.1 (by omega)
      rw [hxy, ih h.2.2]

theorem asStr_path_injective {base : Origin} {p q : Str}
    (h : Url.asStr { base.url with path := p } = Url.asStr { base.url with path := q }) : p = q := by
  simpa [Url.asStr, base.query, base.fragment] using h

/-! ## Keys tell their inputs apart -/

section
variable {sha256 : List UInt8 → List UInt8}

theorem Collision.symm {a b : List UInt8} (h : Collision sha256 a b) : Collision sha256 b a := ⟨h.1.symm, h.2.symm⟩

theorem hashKey_eq {cls cls' upstream upstream' : Str} {representation representation' : Option Str}
    (h : hashKey sha256 cls upstream representation = hashKey sha256 cls' upstream' representation') :
    Collision sha256 (hashInput cls upstream representation) (hashInput cls' upstream' representation') ∨
      hashInput cls upstream representation = hashInput cls' upstream' representation' := by
  by_cases hin : hashInput cls upstream representation = hashInput cls' upstream' representation'
  · exact .inr hin
  · exact .inl ⟨hin, hexEncode_injective h⟩

/-- An artifact and a metadata entry share a key only by a collision. -/
theorem artifactKey_ne_metadataKey {upstream upstream' representation : Str}
    (h : artifactKey sha256 upstream = metadataKey sha256 upstream' representation) :
    Collision sha256 (artifactInput upstream) (metadataInput upstream' representation) := by
  refine (hashKey_eq h).resolve_right fun hin => ?_
  have hcls := append_sep_inj (by decide) (by decide) hin
  exact absurd (utf8_injective hcls.1) (by decide)

theorem artifactKey_eq {upstream upstream' : Str} (h : artifactKey sha256 upstream = artifactKey sha256 upstream') :
    Collision sha256 (artifactInput upstream) (artifactInput upstream') ∨ upstream = upstream' := by
  refine (hashKey_eq h).imp_right fun hin => ?_
  have hrest := (append_sep_inj (by decide) (by decide) hin).2
  simp only [Option.elim_none, List.append_nil, List.append_cancel_right_eq] at hrest
  exact utf8_injective hrest

/-- Within one representation the upstream alone decides. -/
theorem metadataKey_upstream {upstream upstream' representation : Str}
    (h : metadataKey sha256 upstream representation = metadataKey sha256 upstream' representation) :
    Collision sha256 (metadataInput upstream representation) (metadataInput upstream' representation) ∨
      upstream = upstream' := by
  refine (hashKey_eq h).imp_right fun hin => ?_
  have hrest := (append_sep_inj (by decide) (by decide) hin).2
  simp only [List.append_cancel_right_eq] at hrest
  exact utf8_injective hrest

theorem metadataKey_eq {upstream upstream' representation representation' : Str}
    (hu : ∀ c ∈ upstream, c.toNat ≠ 0) (hu' : ∀ c ∈ upstream', c.toNat ≠ 0)
    (h : metadataKey sha256 upstream representation = metadataKey sha256 upstream' representation') :
    Collision sha256 (metadataInput upstream representation) (metadataInput upstream' representation') ∨
      upstream = upstream' ∧ representation = representation' := by
  refine (hashKey_eq h).imp_right fun hin => ?_
  have hrest := (append_sep_inj (by decide) (by decide) hin).2
  obtain ⟨hurl, hrep⟩ := append_sep_inj (zero_not_mem_utf8 hu) (zero_not_mem_utf8 hu') hrest
  simp only [Option.elim_some, List.append_cancel_right_eq] at hrep
  exact ⟨utf8_injective hurl, utf8_injective hrep⟩

end

end Vampire
