import ArIoGateway.JsonBundles

/-!
# Signing payloads of data items

Three encoders share the deep hash: typed binary items with eight parts, early binary items with
seven, and JSON items with seven, of which one is a list.  Their payloads never meet.
-/

namespace ArIoGateway

open NestedHash Octets

/-- A data item as its payload sees it. -/
inductive SigningItem where
  | binary (header : DataItemHeader) (data : Bytes)
  | json (item : JsonItem) (data : Bytes)

namespace SigningItem

/-- The payload that the verifier of the item checks the signature against. -/
def payload (suite : HashSuite) : SigningItem → FixedBytes 48
  | binary header data => header.payload suite (dataHash suite data)
  | json item data => item.payload suite (dataHash suite data)

/-- The parts behind the two constants. -/
def parts : SigningItem → List Nested
  | binary header data =>
      (if header.legacy then [] else [.blob (utf8 (decimalString header.signatureType))]) ++
        [.blob header.owner, .blob header.target, .blob header.anchor, .blob header.rawTags,
          .blob data]
  | json item data =>
      [.blob item.owner, .blob item.target, .blob item.anchor,
        .list (item.tags.map nestedTag), .blob data]

/-- The payload as a nested list. -/
def nested (item : SigningItem) : Nested :=
  .list (.blob (utf8 "dataitem") :: .blob (utf8 "1") :: item.parts)

/-- The messages that the payload hashes. -/
def messages (suite : HashSuite) (item : SigningItem) : List Bytes :=
  deepMessages suite item.nested

/-- Items of one kind that agree on everything their payload carries. -/
inductive Agree : SigningItem → SigningItem → Prop where
  | binary {left right : DataItemHeader} {data : Bytes} (legacy : left.legacy = right.legacy)
      (signatureType : left.legacy = false → left.signatureType = right.signatureType)
      (owner : left.owner = right.owner) (target : left.target = right.target)
      (anchor : left.anchor = right.anchor) (rawTags : left.rawTags = right.rawTags) :
      Agree (.binary left data) (.binary right data)
  | json {left right : JsonItem} {data : Bytes} (owner : left.owner = right.owner)
      (target : left.target = right.target) (anchor : left.anchor = right.anchor)
      (tags : left.tags = right.tags) : Agree (.json left data) (.json right data)

end SigningItem

theorem dataHash_eq (suite : HashSuite) (data : Bytes) :
    dataHash suite data = deepHash suite (.blob data) :=
  deepHashBlob_eq suite data

/-- Payloads are deep hashes of their parts. -/
theorem SigningItem.payload_eq (suite : HashSuite) (item : SigningItem) :
    item.payload suite = deepHash suite item.nested := by
  cases item with
  | binary header data =>
      rw [nested, ← deepHashList_eq, payload, DataItemHeader.payload, dataHash_eq]
      cases kind : header.legacy <;>
        simp [parts, kind, dataItemSignaturePayload]
  | json item data =>
      rw [nested, ← deepHashList_eq, payload, JsonItem.payload, dataHash_eq, deepHashTags_eq,
        deepHashList_eq]
      simp [parts]

/-- Equal parts belong to items of one kind that agree.  Typed items have one part more than the
others, and only JSON items have a list among their parts. -/
theorem SigningItem.agree_of_parts {left right : SigningItem} (same : left.parts = right.parts) :
    Agree left right := by
  cases left with
  | binary left leftData =>
      cases right with
      | binary right rightData =>
          cases leftKind : left.legacy <;> cases rightKind : right.legacy <;>
            simp only [parts, leftKind, rightKind, Bool.false_eq_true, if_true, if_false,
              List.nil_append, List.cons_append, List.cons.injEq, Nested.blob.injEq, reduceCtorEq,
              and_false, and_true] at same
          · obtain ⟨signatureType, owner, target, anchor, rawTags, rfl⟩ := same
            exact .binary (leftKind.trans rightKind.symm)
              (fun _ => decimalString_injective (utf8_injective signatureType)) owner target anchor
              rawTags
          · obtain ⟨owner, target, anchor, rawTags, rfl⟩ := same
            exact .binary (leftKind.trans rightKind.symm)
              (fun typed => by simp [leftKind] at typed) owner target anchor rawTags
      | json right rightData =>
          cases leftKind : left.legacy <;> simp [parts, leftKind] at same
  | json left leftData =>
      cases right with
      | binary right rightData =>
          cases rightKind : right.legacy <;> simp [parts, rightKind] at same
      | json right rightData =>
          simp only [parts, List.cons.injEq, Nested.blob.injEq, Nested.list.injEq,
            and_true] at same
          obtain ⟨owner, target, anchor, tags, rfl⟩ := same
          exact .json owner target anchor
            (List.map_injective_iff.mpr nestedTag_injective tags)

/-- Equal signing payloads belong to items of one kind that agree on everything the payload
carries, unless the hashes behind them collide. -/
theorem signing_payload_separation (suite : HashSuite) (left right : SigningItem)
    (free : Collision.Free suite.digest384 (left.messages suite ++ right.messages suite))
    (same : left.payload suite = right.payload suite) : SigningItem.Agree left right := by
  rw [SigningItem.payload_eq, SigningItem.payload_eq] at same
  have nested := Nested.list.inj (deepHash_inj free same)
  exact SigningItem.agree_of_parts (List.cons.inj (List.cons.inj nested).2).2

/-- The header of a typed item with the given signature. -/
def sampleItemHeader (signature : Bytes) : DataItemHeader where
  legacy := false
  unsigned := false
  signatureType := 2
  signature := signature
  owner := List.replicate 32 5
  target := []
  anchor := []
  rawTags := []
  tags := []
  dataOffset := 2 + signature.length + 32 + 2 + 16

theorem signing_payload_separation_resigned :
    SigningItem.Agree (.binary (sampleItemHeader (List.replicate 64 1)) [104, 105])
      (.binary (sampleItemHeader (List.replicate 64 2)) [104, 105]) := by
  have free : Collision.Free sha2Suite.digest384 (SigningItem.messages sha2Suite
      (.binary (sampleItemHeader (List.replicate 64 1)) [104, 105])) := by decide +kernel
  exact signing_payload_separation sha2Suite _ _ free.append_self rfl

end ArIoGateway
