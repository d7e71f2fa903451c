import ArIoGateway.Codec
import ArIoGateway.Foundation.Collision
import ArIoGateway.Foundation.Sha2

/-!
# Digests of the gateway

The digests are a parameter of every definition that hashes, so that results about them name
the messages they rely on.  `sha2Suite` is the suite the gateway runs with.
-/

namespace ArIoGateway

open Octets

/-- The two digests that the gateway takes from its hash library. -/
structure HashSuite where
  /-- The digest of 32 bytes. -/
  digest256 : Bytes → FixedBytes 32
  /-- The digest of 48 bytes. -/
  digest384 : Bytes → FixedBytes 48

/-- The SHA-2 digests. -/
def sha2Suite : HashSuite where
  digest256 := Sha2.sha256
  digest384 := Sha2.sha384

namespace HashSuite

/-- Digest of 32 bytes over the concatenation of the parts. -/
def sha256 (suite : HashSuite) (parts : List Bytes) : FixedBytes 32 :=
  suite.digest256 parts.flatten

/-- Digest of 48 bytes over the concatenation of the parts. -/
def sha384 (suite : HashSuite) (parts : List Bytes) : FixedBytes 48 :=
  suite.digest384 parts.flatten

end HashSuite

end ArIoGateway
