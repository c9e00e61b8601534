/-
The packed cache entry of `cache.rs`: body bytes, the metadata as JSON, and
the length of the JSON as a big-endian `u32`. `readFooter` reads it from the
end, as the source does: the length first, then the geometry, then the JSON.

`serde_json` on `StoredResponseMeta` is a parameter, `Serde`: what it prints
it reads back.
-/
import Mathlib

namespace Vampire

abbrev Bytes := List UInt8

/-- The `io::ErrorKind`s the source creates or tests. -/
inductive ErrorKind
  | notFound | wouldBlock | interrupted | invalidData | invalidInput | alreadyExists | unexpectedEof | other
  deriving DecidableEq, Repr

structure IoError where
  kind : ErrorKind
  message : String
  deriving DecidableEq, Repr

abbrev IoResult (α : Type) := Except IoError α

/-- `serde_json::to_vec` and `serde_json::from_slice` on the stored metadata. -/
structure Serde (Meta : Type) where
  toVec : Meta → Bytes
  fromSlice : Bytes → Option Meta
  roundTrip : ∀ m, fromSlice (toVec m) = some m

/-- `FOOTER_LEN` -/
def footerLen : Nat := 4

/-- `MAX_META_LEN` -/
def maxMetaLen : Nat := 1 <<< 20

/-- `u32::to_be_bytes` -/
def toBeBytes (n : Nat) : Bytes :=
  [UInt8.ofNat (n / 2 ^ 24), UInt8.ofNat (n / 2 ^ 16), UInt8.ofNat (n / 2 ^ 8), UInt8.ofNat n]

/-- `u32::from_be_bytes` -/
def fromBeBytes (bs : Bytes) : Nat := bs.foldl (fun n b => n * 256 + b.toNat) 0

/-- `read_exact` of `n` bytes at offset `pos`. -/
def readExact (content : Bytes) (pos n : Nat) : IoResult Bytes :=
  if pos + n ≤ content.length then .ok ((content.drop pos).take n)
  else .error ⟨.unexpectedEof, "failed to fill whole buffer"⟩

section
variable {Meta : Type} (serde : Serde Meta)

/-- `serialize_meta` -/
def serializeMeta (info : Meta) : IoResult Bytes :=
  let bytes := serde.toVec info
  if bytes.length > maxMetaLen then .error ⟨.invalidData, "metadata too large"⟩ else .ok bytes

/-- `footer_geometry`: the body's length and the metadata's. -/
def footerGeometry (totalSize : Nat) (footer : Bytes) : IoResult (Nat × Nat) :=
  let metaLen := fromBeBytes footer
  if metaLen > maxMetaLen then
    .error ⟨.invalidData, "cache entry metadata length exceeds sanity cap"⟩
  else
    let available := totalSize - footerLen
    if metaLen > available then
      .error ⟨.invalidData, "cache entry metadata length exceeds file size"⟩
    else .ok (available - metaLen, metaLen)

/-- `parse_meta` -/
def parseMeta (bytes : Bytes) : IoResult Meta :=
  match serde.fromSlice bytes with
  | some info => .ok info
  | none => .error ⟨.invalidData, "invalid metadata"⟩

/-- `short_footer_err` -/
def shortFooterErr : IoError := ⟨.invalidData, "cache entry shorter than footer"⟩

/-- `read_footer`, on a file whose content does not change meanwhile. -/
def readFooter (content : Bytes) : IoResult (Meta × Nat) := do
  let size := content.length
  if size < footerLen then throw shortFooterErr
  let footer ← readExact content (size - footerLen) footerLen
  let (bodyLen, metaLen) ← footerGeometry size footer
  let metaBytes ← readExact content bodyLen metaLen
  return (← parseMeta serde metaBytes, bodyLen)

/-- `pack_footer`'s layout, which both writers lay down. -/
def pack (body : Bytes) (info : Meta) : Bytes :=
  body ++ serde.toVec info ++ toBeBytes (serde.toVec info).length

end

@[simp] theorem IoResult.ok_bind {α β : Type} (a : α) (f : α → IoResult β) :
    ((.ok a : IoResult α) >>= f) = f a := rfl

/-! ## The length field -/

@[simp] theorem toBeBytes_length (n : Nat) : (toBeBytes n).length = 4 := rfl

theorem fromBeBytes_toBeBytes {n : Nat} (h : n < 2 ^ 32) : fromBeBytes (toBeBytes n) = n := by
  simp only [fromBeBytes, toBeBytes, List.foldl_cons, List.foldl_nil, UInt8.toNat_ofNat']
  omega

theorem toBeBytes_fromBeBytes {bs : Bytes} (h : bs.length = 4) : toBeBytes (fromBeBytes bs) = bs := by
  obtain ⟨a, b, c, d, rfl⟩ : ∃ a b c d, bs = [a, b, c, d] := by
    rcases bs with _ | ⟨a, _ | ⟨b, _ | ⟨c, _ | ⟨d, _ | ⟨e, bs⟩⟩⟩⟩⟩ <;> simp at h
    exact ⟨a, b, c, d, rfl⟩
  have ha := a.toNat_lt
  have hb := b.toNat_lt
  have hc := c.toNat_lt
  have hd := d.toNat_lt
  simp only [fromBeBytes, toBeBytes, List.foldl_cons, List.foldl_nil, List.cons.injEq, and_true]
  refine ⟨?_, ?_, ?_, ?_⟩ <;> apply UInt8.toNat_inj.1 <;> rw [UInt8.toNat_ofNat'] <;> omega

/-! ## Reading what was packed -/

section
variable {body json : Bytes}

theorem packed_length : (body ++ json ++ toBeBytes json.length).length = body.length + json.length + 4 := by
  simp only [List.length_append, toBeBytes_length]

theorem readExact_footer :
    readExact (body ++ json ++ toBeBytes json.length)
      ((body ++ json ++ toBeBytes json.length).length - footerLen) footerLen = .ok (toBeBytes json.length) := by
  have hp : (body ++ json ++ toBeBytes json.length).length - footerLen = (body ++ json).length := by
    rw [packed_length, List.length_append, footerLen]; omega
  rw [readExact, if_pos (by rw [packed_length, footerLen]; omega), hp, List.drop_left]
  exact congrArg _ (List.take_length (l := toBeBytes _))

theorem footerGeometry_packed (hm : json.length ≤ maxMetaLen) :
    footerGeometry (body ++ json ++ toBeBytes json.length).length (toBeBytes json.length) =
      .ok (body.length, json.length) := by
  have hn : fromBeBytes (toBeBytes json.length) = json.length :=
    fromBeBytes_toBeBytes (Nat.lt_of_le_of_lt hm (by decide))
  simp only [footerGeometry, hn, packed_length, footerLen]
  rw [if_neg (by omega), if_neg (by omega)]
  congr 2; omega

theorem readExact_json :
    readExact (body ++ json ++ toBeBytes json.length) body.length json.length = .ok json := by
  rw [readExact, if_pos (by rw [packed_length]; omega), List.append_assoc, List.drop_left]
  simp

end

section
variable {Meta : Type} {serde : Serde Meta} {body : Bytes} {info : Meta}

theorem pack_length : (pack serde body info).length = body.length + (serde.toVec info).length + 4 :=
  packed_length

theorem readExact_pack_footer :
    readExact (pack serde body info) ((pack serde body info).length - footerLen) footerLen =
      .ok (toBeBytes (serde.toVec info).length) :=
  readExact_footer

theorem footerGeometry_pack (hm : (serde.toVec info).length ≤ maxMetaLen) :
    footerGeometry (pack serde body info).length (toBeBytes (serde.toVec info).length) =
      .ok (body.length, (serde.toVec info).length) :=
  footerGeometry_packed hm

theorem readExact_pack_meta :
    readExact (pack serde body info) body.length (serde.toVec info).length = .ok (serde.toVec info) :=
  readExact_json

theorem parseMeta_toVec : parseMeta serde (serde.toVec info) = .ok info := by
  simp [parseMeta, serde.roundTrip]

theorem take_pack : (pack serde body info).take body.length = body := by
  rw [pack, List.append_assoc, List.take_left]

/-- Reading back a body and a text: what is left is to parse the text. -/
theorem readFooter_packed {json : Bytes} (hm : json.length ≤ maxMetaLen) :
    readFooter serde (body ++ json ++ toBeBytes json.length) = (parseMeta serde json).map (·, body.length) := by
  have hs : ¬ (body ++ json ++ toBeBytes json.length).length < footerLen := by
    rw [packed_length, footerLen]; omega
  simp only [readFooter, hs, if_false, readExact_footer, IoResult.ok_bind, footerGeometry_packed hm, readExact_json]
  rfl

end

end Vampire
