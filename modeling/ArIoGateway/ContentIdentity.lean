import ArIoGateway.SigningPayloads

/-!
# Content identities of data items

An identifier may be the digest of a payload without the signature and the owner.  Signed items hash
zeros in the place of the owner; unsigned items hash their own payload, whose owner is zeros.
-/

namespace ArIoGateway

open NestedHash Octets

/-- What a content identity hashes, as a nested list. -/
def DataItemHeader.identityNested (header : DataItemHeader) (data : Bytes) : Nested :=
  .list [.blob (utf8 "dataitem"), .blob (utf8 "1"),
    .blob (utf8 (decimalString header.signatureType)), .blob (List.replicate 512 0),
    .blob header.target, .blob header.anchor, .blob header.rawTags, .blob data]

/-- An unsigned item has the layout of a typed item, and its owner is zeros. -/
theorem unsigned_of_readDataItemHeader {suite : HashSuite} {item : Bytes} {id : FixedBytes 32}
    {header : DataItemHeader} (read : readDataItemHeader suite item id = .ok header)
    (unsigned : header.unsigned = true) :
    header.legacy = false ∧ header.owner = List.replicate 512 0 := by
  have laid := laid_of_readDataItemHeader read
  simp only [readDataItemHeader, Checked.bind_eq_ok, Checked.ensure_eq_ok,
    Checked.pure_eq_ok] at read
  obtain ⟨_, _, ⟨signatureType, _⟩, typeRead, ⟨signatureSize, ownerSize⟩, sizes, ⟨signature, _⟩,
    signatureRead, ⟨owner, _⟩, ownerRead, _, _, _, _, _, _, _, _, _, _, _, _, _, _, _, _, _, _,
    rfl⟩ := read
  simp only [Bool.and_eq_true, Bool.not_eq_true', decide_eq_true_eq, List.all_eq_true] at unsigned
  obtain ⟨⟨⟨typed, rfl⟩, -⟩, zeros⟩ := unsigned
  have length : owner.length = 512 := (Prod.mk.inj (Except.ok.inj laid.sizes)).2.symm
  exact ⟨typed, List.eq_replicate_iff.mpr ⟨length, zeros⟩⟩

/-- A content identity is the digest of the deep hash of the parts it commits to. -/
theorem identityPayload_eq {suite : HashSuite} {item : Bytes} {id : FixedBytes 32}
    {header : DataItemHeader} (read : readDataItemHeader suite item id = .ok header)
    (data : Bytes) : header.identityPayload suite (dataHash suite data) =
      deepHash suite (header.identityNested data) := by
  have typed (owner : Bytes) (zeros : owner = List.replicate 512 0) :
      dataItemSignaturePayload suite header.signatureType owner header.target header.anchor
        header.rawTags (dataHash suite data) = deepHash suite (header.identityNested data) := by
    rw [zeros, DataItemHeader.identityNested, ← deepHashList_eq, dataHash_eq,
      dataItemSignaturePayload]
    simp only [deepHashBlob_eq, List.map_cons, List.map_nil]
  rw [DataItemHeader.identityPayload]
  cases unsigned : header.unsigned with
  | false => exact typed _ rfl
  | true =>
      obtain ⟨modern, zeros⟩ := unsigned_of_readDataItemHeader read unsigned
      rw [if_pos rfl, DataItemHeader.payload, modern]
      exact typed _ zeros

/-- An item that is accepted under its content identity has the identity for its identifier. -/
theorem identity_of_verifyDataItemHeader {crypto : CryptoSuite} {item : Bytes} {id : FixedBytes 32}
    {header : DataItemHeader} {verified : VerifiedItem}
    (read : readDataItemHeader crypto.toHashSuite item id = .ok header)
    (identity : header.contentIdentity crypto.toHashSuite id = true)
    (accepted : verifyDataItemHeader crypto item header id = .ok verified) :
    crypto.sha256 [(deepHash crypto.toHashSuite (header.identityNested verified.data)).val] =
      id := by
  simp only [verifyDataItemHeader, Checked.bind_eq_ok, Checked.ensure_eq_ok,
    Checked.pure_eq_ok] at accepted
  obtain ⟨data, _, ⟨⟩, matching, _, _, rfl⟩ := accepted
  rw [← identityPayload_eq read]
  exact matching identity

/-- Two items that are accepted under their content identities for one identifier agree on
everything the identity commits to, unless the hashes behind it collide. -/
theorem content_identity_agreement (crypto : CryptoSuite) {left right : Bytes} {id : FixedBytes 32}
    {leftHeader rightHeader : DataItemHeader} {leftItem rightItem : VerifiedItem}
    (leftRead : readDataItemHeader crypto.toHashSuite left id = .ok leftHeader)
    (rightRead : readDataItemHeader crypto.toHashSuite right id = .ok rightHeader)
    (leftIdentity : leftHeader.contentIdentity crypto.toHashSuite id = true)
    (rightIdentity : rightHeader.contentIdentity crypto.toHashSuite id = true)
    (leftAccepted : verifyDataItemHeader crypto left leftHeader id = .ok leftItem)
    (rightAccepted : verifyDataItemHeader crypto right rightHeader id = .ok rightItem)
    (free256 : Collision.Free crypto.digest256
      [(leftHeader.identityPayload crypto.toHashSuite
          (dataHash crypto.toHashSuite leftItem.data)).val,
        (rightHeader.identityPayload crypto.toHashSuite
          (dataHash crypto.toHashSuite rightItem.data)).val])
    (free384 : Collision.Free crypto.digest384
      (deepMessages crypto.toHashSuite (leftHeader.identityNested leftItem.data) ++
        deepMessages crypto.toHashSuite (rightHeader.identityNested rightItem.data))) :
    leftHeader.signatureType = rightHeader.signatureType ∧ leftHeader.target = rightHeader.target ∧
      leftHeader.anchor = rightHeader.anchor ∧ leftHeader.rawTags = rightHeader.rawTags ∧
      leftItem.data = rightItem.data := by
  have digests := (identity_of_verifyDataItemHeader leftRead leftIdentity leftAccepted).trans
    (identity_of_verifyDataItemHeader rightRead rightIdentity rightAccepted).symm
  rw [identityPayload_eq leftRead, identityPayload_eq rightRead] at free256
  simp only [HashSuite.sha256, List.flatten_cons, List.flatten_nil, List.append_nil] at digests
  have payloads := free256.eq List.mem_cons_self (List.mem_cons_of_mem _ List.mem_cons_self) digests
  have nested := deepHash_inj free384 (Subtype.ext payloads)
  simp only [DataItemHeader.identityNested, Nested.list.injEq, List.cons.injEq, Nested.blob.injEq,
    true_and, and_true] at nested
  obtain ⟨signatureType, target, anchor, rawTags, data⟩ := nested
  exact ⟨decimalString_injective (utf8_injective signatureType), target, anchor, rawTags, data⟩

/-- A key and its signature of a data item of two bytes. -/
def contentSigners : List (Bytes × Bytes) :=
  [([138, 136, 227, 221, 116, 9, 241, 149, 253, 82, 219, 45, 60, 186, 93, 114, 202, 103, 9, 191, 29,
      148, 18, 27, 243, 116, 136, 1, 180, 15, 111, 92],
    [12, 75, 235, 56, 7, 227, 94, 22, 209, 69, 181, 57, 93, 252, 100, 221, 195, 124, 152, 127, 231,
      81, 110, 131, 216, 135, 202, 3, 76, 113, 32, 115, 69, 253, 50, 226, 54, 115, 58, 152, 76, 249,
      94, 124, 203, 210, 98, 81, 221, 210, 82, 202, 44, 31, 177, 252, 232, 32, 102, 239, 42, 68, 92,
      13]),
    ([129, 57, 119, 14, 168, 125, 23, 95, 86, 163, 84, 102, 195, 76, 126, 204, 203, 141, 138, 145,
      180, 238, 55, 162, 93, 246, 15, 91, 143, 201, 179, 148],
    [54, 99, 109, 78, 190, 144, 10, 162, 236, 248, 121, 172, 147, 214, 227, 77, 188, 88, 210, 5,
      105, 4, 242, 167, 71, 58, 45, 58, 151, 72, 154, 90, 122, 177, 154, 253, 65, 110, 64, 22, 249,
      19, 241, 206, 247, 172, 238, 115, 2, 241, 189, 85, 224, 209, 248, 18, 122, 224, 26, 242, 249,
      60, 37, 7])]

def contentData : Bytes := [104, 105]

/-- The payload that a key has signed. -/
def contentPayload (owner : Bytes) : FixedBytes 48 :=
  dataItemSignaturePayload sha2Suite 2 owner [] [] [] (dataHash sha2Suite contentData)

/-- The identity of the content, whoever signs it. -/
def contentId : FixedBytes 32 := sha2Suite.sha256 [(contentPayload (List.replicate 512 0)).val]

/-- The cryptography on what the two keys have signed. -/
def contentCrypto : CryptoSuite where
  toHashSuite := sha2Suite
  keccak := fun _ => ⟨List.replicate 32 0, length_zeros⟩
  ed25519Key key := decide (key ∈ contentSigners.map Prod.fst)
  ed25519Verify key message signature :=
    decide ((key, signature) ∈ contentSigners) && decide (message = (contentPayload key).val)
  secp256k1Key := fun _ => false
  secp256k1Signature := fun _ => false
  secp256k1Verify := fun _ _ _ => false
  secp256k1Recover := fun _ _ _ => none
  rsaPss := fun _ _ _ => false

/-- The header of the content with a signer. -/
def contentHeader (signer : Bytes × Bytes) : DataItemHeader where
  legacy := false
  unsigned := false
  signatureType := 2
  signature := signer.2
  owner := signer.1
  target := []
  anchor := []
  rawTags := []
  tags := []
  dataOffset := 116

/-- The bytes of the content with a signer. -/
def contentItem (signer : Bytes × Bytes) : Bytes :=
  [2, 0] ++ signer.2 ++ signer.1 ++ [0, 0] ++ List.replicate 16 0 ++ contentData

/-- What the verifier finds in the content with a signer. -/
def contentVerified (signer : Bytes × Bytes) : VerifiedItem where
  data := contentData
  dataOffset := 116
  itemSize := 118
  bodyHash := sha2Suite.sha256 [contentData]
  signatureType := 2
  signature := signer.2
  owner := signer.1
  target := []
  anchor := []
  tags := []

theorem contentIdentity_contentHeader {signer : Bytes × Bytes} (member : signer ∈ contentSigners) :
    (contentHeader signer).contentIdentity sha2Suite contentId = true := by
  have first : contentId.val.head? = some 212 := by decide +kernel
  have others : (contentSigners.all fun signer =>
      (sha2Suite.sha256 [signer.2]).val.head? != some 212) = true := by
    decide +kernel
  have apart : sha2Suite.sha256 [signer.2] ≠ contentId := fun same => by
    have other := bne_iff_ne.mp (List.all_eq_true.mp others signer member)
    exact other (same ▸ first)
  have decided : decide (sha2Suite.sha256 [(contentHeader signer).signature] ≠ contentId) = true :=
    decide_eq_true apart
  rw [DataItemHeader.contentIdentity, decided]
  rfl

theorem checkSignature_contentHeader {signer : Bytes × Bytes} (member : signer ∈ contentSigners) :
    checkSignature contentCrypto (contentHeader signer) (contentPayload signer.1) =
      .ok (signer.2, signer.1) := by
  have sizes : (contentSigners.all fun signer => signer.1.length = 32 ∧ signer.2.length = 64) =
      true := by
    decide
  obtain ⟨owner, signature⟩ := of_decide_eq_true (List.all_eq_true.mp sizes signer member)
  have key : contentCrypto.ed25519Key signer.1 = true :=
    decide_eq_true (List.mem_map_of_mem member)
  have signed : contentCrypto.ed25519Verify signer.1 (contentPayload signer.1).val signer.2 =
      true :=
    Bool.and_eq_true_iff.mpr ⟨decide_eq_true member, decide_eq_true rfl⟩
  have accepted : verifyDataItemSignature contentCrypto 2 signer.1 signer.2
      (contentPayload signer.1).val = .ok () := by
    rw [verifyDataItemSignature, verifyEd25519, Checked.ensure_of owner, Checked.ok_bind,
      Checked.ensure_of signature, Checked.ok_bind, Checked.ensure_of key, Checked.ok_bind,
      Checked.ensure_of signed]
  rw [checkSignature, if_neg (by simp [contentHeader])]
  exact Checked.bind_eq_ok.mpr ⟨(), accepted, rfl⟩

/-- Both signers have signed the content, under its identity. -/
theorem verified_of_contentSigner {signer : Bytes × Bytes} (member : signer ∈ contentSigners) :
    readDataItemHeader sha2Suite (contentItem signer) contentId = .ok (contentHeader signer) ∧
      verifyDataItemHeader contentCrypto (contentItem signer) (contentHeader signer) contentId =
        .ok (contentVerified signer) := by
  have laid : (contentSigners.all fun signer => decide
      (readDataItemHeader sha2Suite (contentItem signer) contentId = .ok (contentHeader signer) ∧
        sliceContent (contentItem signer) 116 (contentItem signer).length = .ok contentData ∧
        (contentItem signer).length = 118)) = true := by
    decide +kernel
  obtain ⟨read, data, size⟩ := of_decide_eq_true (List.all_eq_true.mp laid signer member)
  refine ⟨read, ?_⟩
  simp only [verifyDataItemHeader, Checked.bind_eq_ok, Checked.ensure_eq_ok, Checked.pure_eq_ok]
  refine ⟨contentData, data, (), fun _ => rfl, _, checkSignature_contentHeader member, ?_⟩
  rw [size]
  rfl

theorem content_identity_agreement_sample :
    contentSigners.Pairwise fun left right => left ≠ right ∧
      (contentHeader left).signatureType = (contentHeader right).signatureType ∧
      (contentHeader left).target = (contentHeader right).target ∧
      (contentHeader left).anchor = (contentHeader right).anchor ∧
      (contentHeader left).rawTags = (contentHeader right).rawTags ∧
      (contentVerified left).data = (contentVerified right).data := by
  have free256 : Collision.Free sha2Suite.digest256
      [(contentPayload (List.replicate 512 0)).val] :=
    Collision.free_singleton _ _
  have free384 : Collision.Free sha2Suite.digest384 (deepMessages sha2Suite
      ((contentHeader ([], [])).identityNested contentData)) := by
    decide +kernel
  have agree {left right : Bytes × Bytes} (leftMember : left ∈ contentSigners)
      (rightMember : right ∈ contentSigners) := by
    obtain ⟨leftRead, leftAccepted⟩ := verified_of_contentSigner leftMember
    obtain ⟨rightRead, rightAccepted⟩ := verified_of_contentSigner rightMember
    exact content_identity_agreement contentCrypto leftRead rightRead
      (contentIdentity_contentHeader leftMember) (contentIdentity_contentHeader rightMember)
      leftAccepted rightAccepted free256.append_self free384.append_self
  exact List.pairwise_pair.mpr ⟨by decide,
    agree (by simp [contentSigners]) (by simp [contentSigners])⟩

end ArIoGateway
