import ArIoGateway.Foundation.Octets

/-!
# Scan positions

The positions of the scan for pending bundle roots: one cursor goes up from a boundary, the other
goes down from it.
-/

namespace ArIoGateway

/-- A place in the order of bundle roots. -/
structure BundleCursor where
  height : Nat
  position : Nat
  kind : Nat
  id : Bytes
deriving DecidableEq

/-- How far a scan for pending bundles has come in both directions. -/
structure BundleScan where
  boundary : Nat
  live : Option BundleCursor
  backfill : Option BundleCursor
deriving DecidableEq

/-- The largest position of a row. -/
def maxPosition : Nat := 2 ^ 31 - 1

end ArIoGateway
