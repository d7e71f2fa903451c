import ArIoGateway.Codec

/-!
# Object metadata

What the gateway keeps of a verified transaction or data item.
-/

namespace ArIoGateway

/-- The verified metadata of a transaction or data item. -/
structure ObjectMetadata where
  id : Bytes
  kind : Int
  signature : Bytes
  anchor : Bytes
  ownerAddress : Bytes
  ownerPublicKey : Bytes
  target : Bytes
  dataSize : Nat
  contentType : Option String
  contentEncoding : Option String
  signatureType : Int
  format : Option Int
  quantity : Option String
  reward : Option String
  denomination : Option Nat
  dataRoot : Option Bytes
  tags : List (Bytes × Bytes)
deriving DecidableEq

/-- `eq_ignore_ascii_case` on bytes. -/
def asciiLower (byte : UInt8) : UInt8 :=
  if 65 ≤ byte.toNat ∧ byte.toNat ≤ 90 then UInt8.ofNat (byte.toNat + 32) else byte

/-- Whether two byte strings differ only in the case of ASCII letters. -/
def eqIgnoreAsciiCase (left right : Bytes) : Bool := left.map asciiLower = right.map asciiLower

/-- `str::from_utf8`. -/
def fromUtf8 (bytes : Bytes) : Option String := String.fromUTF8? ⟨bytes.toArray⟩

/-- The value of the first tag with the name, in any case, that is text without a zero byte. -/
def optionalTextTag (tags : List (Bytes × Bytes)) (expected : Bytes) : Option String :=
  (tags.filter fun tag => eqIgnoreAsciiCase tag.1 expected).findSome? fun tag =>
    (fromUtf8 tag.2).filter fun value => (utf8 value).all (· ≠ 0)

end ArIoGateway
