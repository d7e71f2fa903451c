import ArIoGateway.RsaPss

/-!
# Signatures of data items

The checks of the seven signature types.  The elliptic curves, the third hash and the fast check
of RSA signatures come from libraries and are parameters.
-/

namespace ArIoGateway

open Octets

/-- The cryptography that the gateway takes from libraries. -/
structure CryptoSuite extends HashSuite where
  /-- Keccak with 256 bits. -/
  keccak : Bytes → FixedBytes 32
  /-- Whether bytes are an Ed25519 key. -/
  ed25519Key : Bytes → Bool
  /-- Strict verification of a message under an Ed25519 key. -/
  ed25519Verify : (key message signature : Bytes) → Bool
  /-- Whether bytes are a secp256k1 key. -/
  secp256k1Key : Bytes → Bool
  /-- Whether bytes are the two scalars of a secp256k1 signature. -/
  secp256k1Signature : Bytes → Bool
  /-- Verification of a digest under a secp256k1 key. -/
  secp256k1Verify : (key : Bytes) → (digest : FixedBytes 32) → (signature : Bytes) → Bool
  /-- The uncompressed key that signed a digest. -/
  secp256k1Recover : (digest : FixedBytes 32) → (signature : Bytes) → (recovery : Nat) →
    Option Bytes
  /-- RSA-PSS verification of a digest with any salt length, by the library. -/
  rsaPss : (modulus : Bytes) → (digest : FixedBytes 32) → (signature : Bytes) → Bool

/-- Lower-case hexadecimal text. -/
def hex (bytes : Bytes) : Bytes :=
  let digit := fun value : Nat => UInt8.ofNat (if value < 10 then 48 + value else 87 + value)
  bytes.flatMap fun byte => [digit (byte.toNat / 16), digit (byte.toNat % 16)]

/-- The value of a hexadecimal digit. -/
def decodeHexNibble (byte : UInt8) : Option Nat :=
  let code := byte.toNat
  if 48 ≤ code ∧ code ≤ 57 then some (code - 48)
  else if 97 ≤ code ∧ code ≤ 102 then some (code - 87)
  else if 65 ≤ code ∧ code ≤ 70 then some (code - 55)
  else none

/-- The bytes of hexadecimal text. -/
def decodeHex : Bytes → Option Bytes
  | high :: low :: rest => do
      let byte := (← decodeHexNibble high) * 16 + (← decodeHexNibble low)
      some (UInt8.ofNat byte :: (← decodeHex rest))
  | _ => some []

/-- The fast check of RSA-PSS signatures with byte-aligned keys. -/
def standardRsaPss (crypto : CryptoSuite) (owner signature payload : Bytes) : Bool :=
  decide (256 ≤ owner.length ∧ owner.length ≤ 512 ∧ 128 ≤ (owner.headD 0).toNat ∧
    signature.length = owner.length) &&
    crypto.rsaPss owner (crypto.sha256 [payload]) signature

/-- `verify_rsa_pss`. -/
def verifyRsaPss (crypto : CryptoSuite) (owner signature payload : Bytes) (label : String) :
    Checked Unit :=
  if standardRsaPss crypto owner signature payload then .ok ()
  else verifyRsaPssDigest crypto.toHashSuite owner signature (crypto.sha256 [payload]) false label

/-- `verify_ed25519`. -/
def verifyEd25519 (crypto : CryptoSuite) (owner signature message : Bytes) : Checked Unit := do
  Checked.ensure (owner.length = 32) "invalid Ed25519 data item owner length"
  Checked.ensure (signature.length = 64) "invalid Ed25519 signature length"
  Checked.ensure (crypto.ed25519Key owner = true) "invalid Ed25519 data item owner"
  Checked.ensure (crypto.ed25519Verify owner message signature = true)
    "data item signature verification failed"

/-- The digest of a message signed by an Ethereum wallet. -/
def ethereumMessageHash (crypto : CryptoSuite) (message : Bytes) : FixedBytes 32 :=
  crypto.keccak (25 :: utf8 "Ethereum Signed Message:\n" ++
    utf8 (decimalString message.length) ++ message)

/-- `verify_ethereum`. -/
def verifyEthereum (crypto : CryptoSuite) (owner signature message : Bytes) : Checked Unit := do
  Checked.ensure (signature.length = 65) "invalid Ethereum signature length"
  Checked.ensure (crypto.secp256k1Key owner = true) "invalid Ethereum data item owner"
  Checked.ensure (crypto.secp256k1Signature (signature.take 64) = true)
    "invalid Ethereum data item signature"
  Checked.ensure (crypto.secp256k1Verify owner (ethereumMessageHash crypto message)
    (signature.take 64) = true) "data item signature verification failed"

/-- Whether a bit of a bitmap is set, most significant bit first. -/
def bitmapBit (bitmap : Bytes) (index : Nat) : Bool :=
  ((bitmap.getD (index / 8) 0).toNat / 2 ^ (7 - index % 8)) % 2 = 1

/-- `verify_aptos_multisignature`. -/
def verifyAptosMultisignature (crypto : CryptoSuite) (owner signature message : Bytes) :
    Checked Unit := do
  Checked.ensure (owner.length = 1025) "invalid Aptos multisig owner length"
  Checked.ensure (signature.length = 2052) "invalid Aptos multisig signature length"
  let threshold := (owner.getD 1024 0).toNat
  Checked.ensure (1 ≤ threshold ∧ threshold ≤ 32) "invalid Aptos multisig threshold"
  let bitmap := signature.drop 2048
  let signers := (List.range 32).filter (bitmapBit bitmap)
  Checked.ensure (threshold ≤ signers.length) "Aptos multisig threshold is not met"
  signers.forM fun index =>
    verifyEd25519 crypto ((owner.drop (index * 32)).take 32) ((signature.drop (index * 64)).take 64)
      message

/-- The address that the owner field of a typed Ethereum item spells. -/
def ethereumAddressFromOwner (owner : Bytes) : Checked Bytes := do
  Checked.ensure (owner.length = 42 ∧ owner.headD 0 = 48 ∧
      ((owner.getD 1 0) = 120 ∨ (owner.getD 1 0) = 88))
    "invalid typed Ethereum data item owner"
  Checked.context (decodeHex (owner.drop 2)) "invalid typed Ethereum data item owner"

/-- The digest of a typed Ethereum message. -/
def typedEthereumMessageHash (crypto : CryptoSuite) (message address : Bytes) : FixedBytes 32 :=
  let domainType := crypto.keccak (utf8 "EIP712Domain(string name,string version)")
  let domainName := crypto.keccak (utf8 "Bundlr")
  let domainVersion := crypto.keccak (utf8 "1")
  let domain := crypto.keccak (domainType.val ++ domainName.val ++ domainVersion.val)
  let messageType := crypto.keccak (utf8 "Bundlr(bytes Transaction hash,address address)")
  let transactionHash := crypto.keccak message
  let encodedAddress := List.replicate 12 0 ++ address
  let value := crypto.keccak (messageType.val ++ transactionHash.val ++ encodedAddress)
  crypto.keccak ([25, 1] ++ domain.val ++ value.val)

/-- `verify_typed_ethereum`. -/
def verifyTypedEthereum (crypto : CryptoSuite) (owner signature message : Bytes) :
    Checked Unit := do
  Checked.ensure (signature.length = 65) "invalid typed Ethereum signature length"
  let address ← ethereumAddressFromOwner owner
  let last := (signature.getD 64 0).toNat
  Checked.ensure (last ≤ 1 ∨ last = 27 ∨ last = 28) "invalid typed Ethereum recovery ID"
  let recovery := if last ≤ 1 then last else last - 27
  Checked.ensure (crypto.secp256k1Signature (signature.take 64) = true)
    "invalid typed Ethereum data item signature"
  let key ← Checked.context (crypto.secp256k1Recover
    (typedEthereumMessageHash crypto message address) (signature.take 64) recovery)
    "typed Ethereum data item signature recovery failed"
  Checked.ensure ((crypto.keccak (key.drop 1)).val.drop 12 = address)
    "data item signature verification failed"

/-- `verify_data_item_signature`. -/
def verifyDataItemSignature (crypto : CryptoSuite) (signatureType : Nat)
    (owner signature payload : Bytes) : Checked Unit :=
  match signatureType with
  | 1 => verifyRsaPss crypto owner signature payload "data item"
  | 2 => verifyEd25519 crypto owner signature payload
  | 3 => verifyEthereum crypto owner signature payload
  | 4 => verifyEd25519 crypto owner signature (hex payload)
  | 5 => verifyEd25519 crypto owner signature
      (utf8 "APTOS\nmessage: " ++ hex payload ++ utf8 "\nnonce: bundlr")
  | 6 => verifyAptosMultisignature crypto owner signature payload
  | 7 => verifyTypedEthereum crypto owner signature payload
  | other => .error s!"unsupported ANS-104 signature type {other}"

end ArIoGateway
