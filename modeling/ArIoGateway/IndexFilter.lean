import ArIoGateway.Codec

/-!
# Index filters

The rules that decide which bundle items are written to the index.
-/

namespace ArIoGateway

/-- What the value of a tag must be. -/
inductive TagValue where
  | any
  | exact (expected : Bytes)
  | startsWith (start : Bytes)
deriving DecidableEq

/-- A tag that an item must have. -/
structure TagMatch where
  name : Bytes
  value : TagValue
deriving DecidableEq

/-- A filter rule. -/
inductive Rule where
  | always
  | never
  | not (rule : Rule)
  | and (rules : List Rule)
  | or (rules : List Rule)
  | tags (wanted : List TagMatch)
  | owner (address : FixedBytes 32)
  | blockHeight (min max : Nat)

/-- Whether a tag is the wanted one. -/
def TagMatch.accepts (wanted : TagMatch) (tag : Bytes × Bytes) : Bool :=
  decide (tag.1 = wanted.name) &&
    match wanted.value with
    | .any => true
    | .exact expected => decide (tag.2 = expected)
    | .startsWith start => start.isPrefixOf tag.2

mutual

/-- Whether a rule accepts an item.  The owner address is empty for items without a signer. -/
def Rule.matches (ownerAddress : Bytes) (tags : List (Bytes × Bytes)) (height : Nat) :
    Rule → Bool
  | .always => true
  | .never => false
  | .not rule => !rule.matches ownerAddress tags height
  | .and rules => Rule.allMatch ownerAddress tags height rules
  | .or rules => Rule.anyMatches ownerAddress tags height rules
  | .tags wanted => wanted.all fun wanted => tags.any wanted.accepts
  | .owner address => decide (ownerAddress = address.val)
  | .blockHeight min max => decide (min ≤ height ∧ height ≤ max)

/-- Whether all rules accept an item. -/
def Rule.allMatch (ownerAddress : Bytes) (tags : List (Bytes × Bytes)) (height : Nat) :
    List Rule → Bool
  | [] => true
  | rule :: rules =>
      rule.matches ownerAddress tags height && Rule.allMatch ownerAddress tags height rules

/-- Whether some rule accepts an item. -/
def Rule.anyMatches (ownerAddress : Bytes) (tags : List (Bytes × Bytes)) (height : Nat) :
    List Rule → Bool
  | [] => false
  | rule :: rules =>
      rule.matches ownerAddress tags height || Rule.anyMatches ownerAddress tags height rules

end

/-- `IndexFilter::default`. -/
instance : Inhabited Rule := ⟨.always⟩

end ArIoGateway
