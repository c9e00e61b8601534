/-
How much longer `rewrite_npm_json` makes a document. Everything but the links
comes out no longer than it was, and a link grows together with the keys and
braces it stands between.
-/
import Vampire.NpmRewrite
import Vampire.Lib.JsonSize

namespace Vampire

open Lib

theorem utf8_byteLength (s : Str) : (utf8 s).length = byteLength s := by
  induction s with
  | nil => rfl
  | cons c s ih => rw [utf8_cons, List.length_append, String.length_utf8EncodeChar, ih, byteLength_cons]

/-- Only UTF-8 is read as text. -/
theorem fromUtf8_some {bytes : List UInt8} {s : Str} (h : fromUtf8 bytes = some s) : bytes = utf8 s := by
  obtain ⟨decoded, hdecoded, rfl⟩ := Option.map_eq_some_iff.1 h
  have hget := ByteArray.utf8Encode_get_utf8Decode? (b := bytes.toByteArray) (h := by rw [hdecoded]; rfl)
  simp only [hdecoded, Option.get_some] at hget
  have hbytes := congrArg (fun b : ByteArray => b.data.toList) hget
  simpa [List.utf8Encode, utf8] using hbytes.symm

/-- The bytes of an object of these fields. -/
theorem byteLength_object (fields : List (Str × Str)) :
    byteLength ('\x7b' :: (fieldsText fields ++ ['\x7d'])) =
      1 + max 1 (fields.map fun f => byteLength (Json.printString f.1) + byteLength f.2 + 2).sum := by
  have hbrace : Char.utf8Size '\x7b' = 1 := by decide
  rw [fieldsText_compact fields fun _ => .null, byteLength_cons, hbrace, Json.byteLength_compact, List.map_map]
  rfl

theorem sum_le_of_each {α : Type} {a b c : α → Nat} {n k : Nat} {l : List α} (h : ∀ x ∈ l, n * a x ≤ k * b x + c x) :
    n * (l.map a).sum ≤ k * (l.map b).sum + (l.map c).sum := by
  induction l with
  | nil => simp
  | cons x l ih =>
    have hx := h x List.mem_cons_self
    have hl := ih fun y hy => h y (List.mem_cons_of_mem _ hy)
    simp only [List.map_cons, List.sum_cons, Nat.mul_add]
    omega

/-- What an object's fields grow by is what the object grows by. -/
theorem objectText_size {edit : Str → Str → Str} {n k : Nat} (slack : Nat) (field : Str) (hnk : n ≤ k)
    (h : ∀ key value v, Json.Denotes value v →
      n * (byteLength (Json.printString key) + byteLength (edit key value) + 2) ≤
        k * (byteLength (Json.printString key) + byteLength value + 2) + if key = field then slack else 0)
    {raw : Str} {v : Json} (hd : Json.Denotes raw v) :
    n * byteLength (objectText edit raw) ≤ k * byteLength raw + slack := by
  cases hf : fieldsOf raw with
  | none =>
    rw [objectText, hf]
    exact Nat.le_trans (Nat.mul_le_mul_right _ hnk) (Nat.le_add_right _ _)
  | some fields =>
    obtain ⟨ms, hms, hfields⟩ := Option.bind_eq_some_iff.1 hf
    split at hfields
    · next hall =>
      cases hfields
      obtain ⟨-, hok, hsub⟩ := Json.objectOf_some hd hms
      obtain ⟨hsorted, hlast⟩ := sortedMap_spec (ms.map fun m => ((Json.chars m.key).getD [], m.raw))
      generalize hmap : sortedMap (ms.map fun m => ((Json.chars m.key).getD [], m.raw)) = fields at hf hsorted hlast
      have hfield : ∀ f ∈ fields, ∃ v, Json.Denotes f.2 v := by
        intro f hf
        have hl := lastWins_mem ((hlast f.1).symm.trans (lastWins_of_mem hsorted.nodup hf))
        obtain ⟨m, hm, he⟩ := List.mem_map.1 hl
        exact ⟨m.value, (Prod.ext_iff.1 he).2 ▸ (hok m hm).value⟩
      have hgrow : n * (fields.map fun f => byteLength (Json.printString f.1) + byteLength (edit f.1 f.2) + 2).sum ≤
          k * (fields.map fun f => byteLength (Json.printString f.1) + byteLength f.2 + 2).sum + slack := by
        have heach : ∀ f ∈ fields, n * (byteLength (Json.printString f.1) + byteLength (edit f.1 f.2) + 2) ≤
            k * (byteLength (Json.printString f.1) + byteLength f.2 + 2) + if f.1 = field then slack else 0 := by
          intro f hf
          obtain ⟨v, hv⟩ := hfield f hf
          exact h f.1 f.2 v hv
        exact Nat.le_trans (sum_le_of_each heach) (Nat.add_le_add_left (sum_ite_le hsorted.nodup field slack) _)
      have hold : (fields.map fun f => byteLength (Json.printString f.1) + byteLength f.2 + 2).sum ≤
          (ms.map Json.Member.size).sum := by
        rw [← hmap]
        refine Nat.le_trans (sortedMap_sum _ _) ?_
        rw [List.map_map]
        refine List.sum_le_sum fun m hm => ?_
        obtain ⟨key, hkey⟩ := Option.isSome_iff_exists.1 (List.all_eq_true.1 hall m hm)
        have := (hok m hm).key_le hkey
        simp only [Function.comp, hkey, Option.getD_some, Json.Member.size]
        omega
      have hraw := byteLength_sublist hsub
      have hbrace : Char.utf8Size '\x7b' = 1 := by decide
      rw [byteLength_cons, hbrace, Json.byteLength_compact] at hraw
      rw [objectText, hf]
      simp only [byteLength_object, List.map_map]
      refine Nat.le_trans ?_ (Nat.add_le_add_right (Nat.mul_le_mul_left k (hraw.trans' (Nat.add_le_add_left
        (max_le_max_left 1 hold) 1))) slack)
      change n * (1 + max 1 (fields.map fun f => byteLength (Json.printString f.1) + byteLength (edit f.1 f.2) + 2).sum) ≤ _
      rw [Nat.mul_add, Nat.mul_add, ← Nat.mul_max_mul_left, ← Nat.mul_max_mul_left]
      omega
    · cases hfields

section
variable {crate : UrlCrate} {upstreams : RegistryOrigins} {origin : Str}

/-- By how much a rewritten link may be longer than the link, the text `{"dist":{"tarball":""}}` around it counted in. -/
def LinksGrow (crate : UrlCrate) (upstreams : RegistryOrigins) (origin : Str) (k : Nat) : Prop :=
  ∀ url r, rewriteNpmTarball crate upstreams origin url = some r →
    20 * (byteLength (Json.printString r) + 19) ≤ (20 + k) * (byteLength url + 21)

theorem distText_size {k : Nat} (h : LinksGrow crate upstreams origin k) {raw : Str} {v : Json} (hd : Json.Denotes raw v) :
    20 * byteLength (distText crate upstreams origin raw) ≤ (20 + k) * byteLength raw + 8 * k := by
  refine objectText_size _ "tarball".toList (by omega) (fun key value v hv => ?_) hd
  cases hr : rewrittenTarball crate upstreams origin key value with
  | none =>
    simp only [Option.map_none, Option.getD_none]
    exact Nat.le_trans (Nat.mul_le_mul_right _ (by omega)) (Nat.le_add_right _ _)
  | some r =>
    unfold rewrittenTarball at hr
    split at hr
    · next hkey =>
      obtain ⟨url, hurl, hr⟩ := Option.bind_eq_some_iff.1 hr
      obtain ⟨t, ht, hchars⟩ := Option.bind_eq_some_iff.1 hurl
      rw [Json.stringOf_eq hv] at ht
      cases v with
      | str t' =>
        cases ht
        have hvalue := hv.string_le hchars
        have hurl := Json.byteLength_le_printString url
        have hlink := h url r hr
        have hgrow := Nat.mul_le_mul_left (20 + k) (show byteLength url + 21 ≤ byteLength value + 19 by omega)
        have hprint : byteLength (Json.printString "tarball".toList) = 9 := by decide +kernel
        rw [if_pos hkey, hkey, hprint, Option.map_some, Option.getD_some]
        simp only [Nat.add_mul, Nat.mul_add] at hlink hgrow ⊢
        omega
      | _ => cases ht
    · cases hr

theorem packageText_size {k : Nat} (h : LinksGrow crate upstreams origin k) (text : Str → Str)
    (ht : ∀ {raw v}, Json.Denotes raw v → 20 * byteLength (text raw) ≤ (20 + k) * byteLength raw) {raw : Str} {v : Json}
    (hd : Json.Denotes raw v) :
    20 * byteLength (packageText crate upstreams origin text raw) ≤ (20 + k) * byteLength raw := by
  refine objectText_size 0 [] (by omega) (fun key value v hv => ?_) hd
  rw [ite_self, Nat.add_zero]
  by_cases hdist : key = "dist".toList
  · have hprint : byteLength (Json.printString "dist".toList) = 6 := by decide +kernel
    have := distText_size h hv
    rw [if_pos hdist, hdist, hprint]
    simp only [Nat.add_mul, Nat.mul_add] at this ⊢
    omega
  · rw [if_neg hdist]
    by_cases hversions : key = "versions".toList
    · have := ht hv
      rw [if_pos hversions]
      simp only [Nat.add_mul, Nat.mul_add] at this ⊢
      omega
    · rw [if_neg hversions]
      exact Nat.mul_le_mul_right _ (by omega)

/-- A document grows as fast as its links at most. -/
theorem npmText_size {k : Nat} (h : LinksGrow crate upstreams origin k) {raw : Str} {v : Json} (hd : Json.Denotes raw v) :
    20 * byteLength (npmText crate upstreams origin raw) ≤ (20 + k) * byteLength raw := by
  refine packageText_size h _ (fun hv => ?_) hd
  refine objectText_size 0 [] (by omega) (fun key value v hv => ?_) hv
  have := packageText_size h id (fun _ => Nat.mul_le_mul_right _ (by omega)) hv
  rw [ite_self]
  simp only [Nat.add_mul, Nat.mul_add] at this ⊢
  omega

/-- What `rewrite_npm_json` returns is as long as the body lets it be. -/
theorem rewriteNpmJson_size {k : Nat} (h : LinksGrow crate upstreams origin k) {body out : List UInt8} {maxLen : Nat}
    (hout : rewriteNpmJson crate upstreams origin body maxLen = .ok out) :
    20 * out.length ≤ (20 + k) * body.length ∧ out.length ≤ min maxLen maxMetadataBodyLen := by
  cases hutf : fromUtf8 body with
  | none => simp [rewriteNpmJson, hutf] at hout
  | some input =>
    cases htext : Json.text input with
    | none => simp [rewriteNpmJson, hutf, htext] at hout
    | some text =>
      obtain ⟨raw, v⟩ := text
      rw [fromUtf8_some hutf, rewriteNpmJson_eq crate upstreams origin htext] at hout
      split at hout
      · next hfit =>
        cases hout
        have hraw : byteLength raw ≤ byteLength input := byteLength_sublist (Json.text_sublist htext)
        have hsize := npmText_size h (Json.text_denotes htext)
        rw [fromUtf8_some hutf, utf8_byteLength input]
        refine ⟨?_, hfit⟩
        rw [utf8_byteLength]
        exact Nat.le_trans hsize (Nat.mul_le_mul_left _ hraw)
      · cases hout

end

end Vampire
