import ArIoGateway.Foundation.NestedHash
import ArIoGateway.Hashing

/-!
# Deep hashes

The deep hash of blobs and lists, as an instance of the hash of nested lists.
-/

namespace ArIoGateway

open NestedHash Octets

/-- The text that a deep hash puts in front of a node: its kind and its `usize` length. -/
def deepTag (kind : String) (count : Nat) : Bytes := utf8 (kind ++ decimalString (count % 2 ^ 64))

theorem deepTag_eq (kind : String) (count : Nat) :
    deepTag kind count = utf8 kind ++ decimal (count % 2 ^ 64) := by
  rw [deepTag, utf8_append, utf8_decimalString]

theorem length_deepTag (kind : String) (count : Nat) :
    (deepTag kind count).length ≤ (utf8 kind).length + 20 := by
  have digits : (decimal (count % 2 ^ 64)).length ≤ 20 :=
    length_decimal_le (by decide) ((Nat.mod_lt count (by decide)).trans (by decide))
  rw [deepTag_eq, List.length_append]
  omega

/-- `deep_hash_blob`. -/
def deepHashBlob (suite : HashSuite) (bytes : Bytes) : FixedBytes 48 :=
  let tag := suite.sha384 [deepTag "blob" bytes.length]
  let data := suite.sha384 [bytes]
  suite.sha384 [tag.val, data.val]

/-- `deep_hash_list`. -/
def deepHashList (suite : HashSuite) (items : List (FixedBytes 48)) : FixedBytes 48 :=
  items.foldl (fun accumulator item => suite.sha384 [accumulator.val, item.val])
    (suite.sha384 [deepTag "list" items.length])

/-- Deep hashes as hashes of nested lists. -/
def deepScheme (suite : HashSuite) : Scheme 48 where
  digest := suite.digest384
  blobTag := deepTag "blob"
  listTag := deepTag "list"
  blobTag_short count := by
    have bound := length_deepTag "blob" count
    have kind : (utf8 "blob").length = 4 := by decide
    omega
  listTag_short count := by
    have bound := length_deepTag "list" count
    have kind : (utf8 "list").length = 4 := by decide
    omega
  blobTag_ne_listTag count other same := by
    rw [deepTag_eq, deepTag_eq] at same
    exact absurd (List.append_inj same (by decide)).1 (by decide)

/-- The deep hash of a nested list. -/
def deepHash (suite : HashSuite) (tree : Nested) : FixedBytes 48 := (deepScheme suite).hash tree

/-- The messages that a deep hash hashes. -/
def deepMessages (suite : HashSuite) (tree : Nested) : List Bytes :=
  (deepScheme suite).messages tree

@[simp] theorem deepHashBlob_eq (suite : HashSuite) (bytes : Bytes) :
    deepHashBlob suite bytes = deepHash suite (.blob bytes) := by
  simp [deepHashBlob, deepHash, Scheme.hash, Scheme.blobHash, HashSuite.sha384, deepScheme]

@[simp] theorem deepHashList_eq (suite : HashSuite) (items : List Nested) :
    deepHashList suite (items.map (deepHash suite)) = deepHash suite (.list items) := by
  have hashes : (deepScheme suite).hashes items = items.map (deepHash suite) := by
    induction items with
    | nil => rfl
    | cons item items induction => rw [Scheme.hashes, induction]; rfl
  rw [deepHash, Scheme.hash, hashes]
  simp [deepHashList, Scheme.listHash, Scheme.chain, HashSuite.sha384]
  rfl

/-- A tag as a nested list. -/
def nestedTag (tag : Bytes × Bytes) : Nested := .list [.blob tag.1, .blob tag.2]

theorem nestedTag_injective : Function.Injective nestedTag := by
  rintro ⟨leftName, leftValue⟩ ⟨rightName, rightValue⟩ same
  simp only [nestedTag, Nested.list.injEq, List.cons.injEq, Nested.blob.injEq, and_true] at same
  rw [same.1, same.2]

/-- The deep hashes of tags. -/
theorem deepHashTags_eq (suite : HashSuite) (tags : List (Bytes × Bytes)) :
    (tags.map fun tag => deepHashList suite [deepHashBlob suite tag.1, deepHashBlob suite tag.2]) =
      (tags.map nestedTag).map (deepHash suite) := by
  rw [List.map_map]
  refine List.map_congr_left fun tag _ => ?_
  rw [deepHashBlob_eq, deepHashBlob_eq]
  exact deepHashList_eq suite [.blob tag.1, .blob tag.2]

/-- Equal deep hashes are hashes of one nested list, unless the messages behind them collide. -/
theorem deepHash_inj {suite : HashSuite} {left right : Nested}
    (free : Collision.Free suite.digest384 (deepMessages suite left ++ deepMessages suite right))
    (same : deepHash suite left = deepHash suite right) : left = right :=
  (deepScheme suite).hash_inj free left right (List.subset_append_left _ _)
    (List.subset_append_right _ _) same

end ArIoGateway
