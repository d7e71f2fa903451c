import ArIoGateway.BinaryFraming
import ArIoGateway.HeaderWindow
import ArIoGateway.RangeReader

/-!
# Inspection of a bundle without its payloads

The table of a bundle and the headers of its items are read in ranges, each as long as the bytes
before it say.  This file compares the headers that are read in this way with those of the parser
that has the whole item.
-/

namespace ArIoGateway

open Octets Reads

/-- The number of items on a page. -/
def inspectionPageSize : Nat := 25

/-- The number of rows of the longest table that is inspected. -/
def maxInspectionItems : Nat := 262144

/-- The length of the longest table that is inspected. -/
def maxInspectionTableBytes : Nat := maxInspectionItems * 64

/-- A number of 256 bits that fits 128 bits. -/
def integer (bytes : Bytes) : Checked Nat := do
  Checked.ensure (bytes.length = 32 ∧ (bytes.drop 16).all (· = 0) = true)
    "Unsupported binary bundle integer"
  pure (ofLittleEndian (bytes.take 16))

/-- The header of an item, as text. -/
structure ItemDetails where
  signatureType : Nat
  owner : String
  signature : String
  target : String
  anchor : String
  dataOffset : String
  dataSize : String
  bundle : Bool
  /-- The names and the values, in base64. -/
  tags : List (String × String)
deriving DecidableEq

/-- An item of a page; an inspection of one item gives its header too. -/
structure InspectedItem where
  index : Nat
  id : String
  itemOffset : String
  itemSize : String
  details : Option ItemDetails
deriving DecidableEq

structure InspectionPage where
  id : String
  total : Nat
  start : Nat
  hasMore : Bool
  items : List InspectedItem
deriving DecidableEq

/-- A request for a page from a position on, or for one item. -/
structure InspectionRequest where
  id : String
  start : Nat
  item : Option Nat

/-- The index behind the last row that a request lists in a table of a number of rows. -/
def InspectionRequest.finish (request : InspectionRequest) (count : Nat) : Nat :=
  match request.item with
  | none => min (saturatingLength request.start inspectionPageSize) count
  | some item => item + 1

def tagsJson (tags : List (Bytes × Bytes)) : List (String × String) :=
  tags.map fun tag => (base64Text tag.1, base64Text tag.2)

/-- Read a field of the header of an item; a field without bytes is not asked for. -/
def field (offset size total cursor length : Nat) : Reads UInt8 (Bytes × Nat) := do
  lift (Checked.ensure (cursor + length ≤ size) "Truncated item header")
  if length = 0 then pure ([], cursor)
  else do
    let (bytes, _) ← read (offset + cursor) length (some total)
    pure (bytes, cursor + length)

/-- `read_header`. -/
def readHeader (offset size total : Nat) : Reads UInt8 ItemDetails := do
  let (typeField, cursor) ← field offset size total 0 2
  let signatureType := ofLittleEndian typeField
  let (signatureSize, ownerSize) ← lift ((dataItemSignatureSizes signatureType).mapError fun _ =>
    "Unsupported item header. Header-only inspection requires a typed ANS-104 item.")
  let (fixed, cursor) ← field offset size total cursor (signatureSize + ownerSize + 1)
  let owner := (fixed.drop signatureSize).take ownerSize
  let targetPresent := (fixed.getLastD 0).toNat
  lift (Checked.ensure (targetPresent ≤ 1) "Invalid target presence flag")
  let (targetField, cursor) ← field offset size total cursor (targetPresent * 32 + 1)
  let anchorPresent := (targetField.getLastD 0).toNat
  lift (Checked.ensure (anchorPresent ≤ 1) "Invalid anchor presence flag")
  let (lengths, cursor) ← field offset size total cursor (anchorPresent * 32 + 16)
  let lengthsOffset := anchorPresent * 32
  let count := ofLittleEndian ((lengths.drop lengthsOffset).take 8)
  let length := ofLittleEndian (lengths.drop (lengthsOffset + 8))
  lift (Checked.ensure (count ≤ maxDataItemTags ∧ length ≤ maxDataItemTagBytes)
    "Item tags exceed inspection limits")
  let (tagField, cursor) ← field offset size total cursor length
  let tags ← lift (parseAvroTags tagField count)
  pure
    { signatureType
      owner := base64Text owner
      signature := base64Text (fixed.take signatureSize)
      target := base64Text targetField.dropLast
      anchor := base64Text (lengths.take lengthsOffset)
      dataOffset := decimalString cursor
      dataSize := decimalString (size - cursor)
      bundle := (BundleFormat.fromPairs tags).isOk
      tags := tagsJson tags }

/-- The item of a row, when the request shows it. -/
def inspectRow (request : InspectionRequest) (total index offset size : Nat) (entry : Bytes) :
    Reads UInt8 (List InspectedItem) :=
  let item := fun details =>
    ⟨index, base64Text (entry.drop 32), decimalString offset, decimalString size, details⟩
  match request.item with
  | none => pure (if request.start ≤ index then [item none] else [])
  | some wanted =>
      if index = wanted then do
        let details ← readHeader offset size total
        pure [item (some details)]
      else pure []

/-- List the rows of a table from an index on, whose items lie from an offset on. -/
def inspectRows (request : InspectionRequest) (total : Nat) :
    List Bytes → (index offset : Nat) → Reads UInt8 (List InspectedItem × Nat)
  | [], _, offset => pure ([], offset)
  | entry :: rows, index, offset => do
      let size ← lift (integer (entry.take 32))
      let next := offset + size
      lift (Checked.ensure (next < 2 ^ 128) "Bundle offset overflow")
      lift (Checked.ensure (0 < size ∧ next ≤ total) "Invalid bundle item bounds")
      let listed ← inspectRow request total index offset size entry
      let (items, finish) ← inspectRows request total rows (index + 1) next
      pure (listed ++ items, finish)

/-- The rows of the table up to an index. -/
def readTable (finish total : Nat) : Reads UInt8 Bytes :=
  if finish = 0 then pure [] else Prod.fst <$> read 32 (finish * 64) (some total)

/-- `inspect` for a bundle that no index knows. -/
def inspect (request : InspectionRequest) : Reads UInt8 InspectionPage := do
  let _ ← lift (decodeFixed 32 request.id "bundle ID")
  lift (Checked.ensure (request.start < maxInspectionItems ∧
    ∀ item ∈ request.item, item < maxInspectionItems)
    "Inspection position exceeds the 262144-item limit")
  let (countBytes, total) ← read 0 32 none
  let count ← lift (integer countBytes)
  lift (Checked.ensure (count ≤ maxInspectionItems)
    ("Not a supported binary bundle, or its table exceeds the 262144-item inspection limit. " ++
      "JSON bundles cannot be inspected with header-only reads."))
  let finish := request.finish count
  lift (Checked.ensure (request.start ≤ count ∧ finish ≤ count)
    "Item position is outside the bundle")
  let tableEnd := 32 + count * 64
  lift (Checked.ensure (tableEnd ≤ total) "Bundle table exceeds the upstream content size")
  let table ← readTable finish total
  let (items, offset) ← inspectRows request total (tableRows table (table.length / 64) 0) 0 tableEnd
  lift (Checked.ensure (finish = count → offset = total)
    "Bundle table sizes do not match the upstream content size")
  pure ⟨request.id, count, request.start, decide (finish < count), items⟩

/-- The bytes that an inspection may read. -/
def inspectionBudget : Nat := maxInspectionTableBytes + 32 + maxDataItemHeaderBytes

/-- Inspect a bundle over upstreams. -/
def inspectFrom (urls : List Upstream) (request : InspectionRequest) :
    Checked InspectionPage × RangeReader :=
  run (RangeReader.read urls) (inspect request) ⟨0, inspectionBudget, []⟩

theorem exists_slice_one {bytes : Bytes} {offset : Nat} (fits : offset + 1 ≤ bytes.length) :
    ∃ byte, slice bytes offset 1 = [byte] :=
  List.length_eq_one_iff.mp (length_slice fits)

theorem dropLast_slice {bytes : Bytes} {offset width : Nat}
    (fits : offset + (width + 1) ≤ bytes.length) :
    (slice bytes offset (width + 1)).dropLast = slice bytes offset width := by
  obtain ⟨byte, last⟩ := @exists_slice_one bytes (offset + width) (by omega)
  rw [slice_add, last, List.dropLast_concat]

theorem take_eq_ok_slice {bytes part : Bytes} {cursor length next : Nat} {label : String}
    (addressable : bytes.length < 2 ^ 64) :
    take bytes cursor length label = .ok (part, next) ↔
      cursor + length ≤ bytes.length ∧ part = slice bytes cursor length ∧
        next = cursor + length := by
  simp only [take, Checked.bind_eq_ok, Checked.ensure_eq_ok, Checked.pure_eq_ok, Prod.mk.injEq,
    exists_and_left, exists_const, slice]
  constructor
  · rintro ⟨_, inside, rfl, rfl⟩
    exact ⟨inside, rfl, rfl⟩
  · rintro ⟨inside, rfl, rfl⟩
    exact ⟨by omega, inside, rfl, rfl⟩

theorem readLe_eq_ok_slice {bytes : Bytes} {width cursor value next : Nat} {label : String}
    (addressable : bytes.length < 2 ^ 64) :
    readLe width bytes cursor label = .ok (value, next) ↔
      cursor + width ≤ bytes.length ∧ value = ofLittleEndian (slice bytes cursor width) ∧
        next = cursor + width := by
  simp only [readLe, Checked.bind_eq_ok, Checked.pure_eq_ok, Prod.exists,
    take_eq_ok_slice addressable, Prod.mk.injEq, ofLittleEndian]
  constructor
  · rintro ⟨_, _, ⟨inside, rfl, rfl⟩, rfl, rfl⟩
    exact ⟨inside, rfl, rfl⟩
  · rintro ⟨inside, rfl, rfl⟩
    exact ⟨_, _, ⟨inside, rfl, rfl⟩, rfl, rfl⟩

/-- An optional field is a flag of 0 or 1, and 32 bytes in the second case. -/
theorem readOptional32_eq_ok_slice {bytes part : Bytes} {cursor next : Nat} {label : String}
    (addressable : bytes.length < 2 ^ 64) :
    readOptional32 bytes cursor label = .ok (part, next) ↔
      ∃ flag ≤ 1, cursor + 1 + flag * 32 ≤ bytes.length ∧
        slice bytes cursor 1 = [UInt8.ofNat flag] ∧ part = slice bytes (cursor + 1) (flag * 32) ∧
        next = cursor + 1 + flag * 32 := by
  simp only [readOptional32, Checked.bind_eq_ok, Prod.exists, take_eq_ok_slice addressable]
  constructor
  · rintro ⟨flag, _, ⟨inside, rfl, rfl⟩, read⟩
    split at read
    · next zero =>
        obtain ⟨rfl, rfl⟩ := Prod.mk.inj (Checked.pure_eq_ok.mp read)
        exact ⟨0, by omega, by omega, zero, by simp [slice], rfl⟩
    · next one =>
        obtain ⟨behind, rfl, rfl⟩ := (take_eq_ok_slice addressable).mp read
        exact ⟨1, le_rfl, by omega, one, rfl, rfl⟩
    · cases read
  · rintro ⟨flag, small, inside, read, rfl, rfl⟩
    refine ⟨_, _, ⟨by omega, rfl, rfl⟩, ?_⟩
    rw [read]
    obtain rfl | rfl : flag = 0 ∨ flag = 1 := by omega
    · simp [slice]
    · exact (take_eq_ok_slice addressable).mpr ⟨by omega, rfl, rfl⟩

/-- The header of an item with a signature type: the lengths of its fields and the tags. -/
structure HeaderLayout where
  signatureType : Nat
  signatureSize : Nat
  ownerSize : Nat
  /-- 1 when there is a target. -/
  targetPresent : Nat
  /-- 1 when there is an anchor. -/
  anchorPresent : Nat
  tagCount : Nat
  tagBytes : Nat
  tags : List (Bytes × Bytes)

namespace HeaderLayout

/-- Where the flag of the target lies. -/
def targetFlag (layout : HeaderLayout) : Nat := 2 + (layout.signatureSize + layout.ownerSize)

/-- Where the flag of the anchor lies. -/
def anchorFlag (layout : HeaderLayout) : Nat := layout.targetFlag + 1 + layout.targetPresent * 32

/-- Where the number of tags lies. -/
def counts (layout : HeaderLayout) : Nat := layout.anchorFlag + 1 + layout.anchorPresent * 32

/-- Where the data begin. -/
def dataOffset (layout : HeaderLayout) : Nat := layout.counts + 16 + layout.tagBytes

/-- The bytes of an item have a layout. -/
structure Holds (layout : HeaderLayout) (item : Bytes) : Prop where
  inside : layout.dataOffset ≤ item.length
  signatureType : layout.signatureType = ofLittleEndian (slice item 0 2)
  sizes : dataItemSignatureSizes layout.signatureType = .ok (layout.signatureSize, layout.ownerSize)
  target : layout.targetPresent ≤ 1
  targetByte : slice item layout.targetFlag 1 = [UInt8.ofNat layout.targetPresent]
  anchor : layout.anchorPresent ≤ 1
  anchorByte : slice item layout.anchorFlag 1 = [UInt8.ofNat layout.anchorPresent]
  tagCount : layout.tagCount = ofLittleEndian (slice item layout.counts 8)
  fewTags : layout.tagCount ≤ maxDataItemTags
  tagBytes : layout.tagBytes = ofLittleEndian (slice item (layout.counts + 8) 8)
  shortTags : layout.tagBytes ≤ maxDataItemTagBytes
  tags : parseAvroTags (slice item (layout.counts + 16) layout.tagBytes) layout.tagCount =
    .ok layout.tags

/-- The header that an item with a layout has. -/
def header (layout : HeaderLayout) (item : Bytes) : DataItemHeader :=
  let signature := slice item 2 layout.signatureSize
  let owner := slice item (2 + layout.signatureSize) layout.ownerSize
  { legacy := false
    unsigned := decide (layout.signatureType = 1) && signature.all (· = 0) && owner.all (· = 0)
    signatureType := layout.signatureType
    signature
    owner
    target := slice item (layout.targetFlag + 1) (layout.targetPresent * 32)
    anchor := slice item (layout.anchorFlag + 1) (layout.anchorPresent * 32)
    rawTags := slice item (layout.counts + 16) layout.tagBytes
    tags := layout.tags
    dataOffset := layout.dataOffset }

end HeaderLayout

theorem readAt_eq_ok_slice {bytes part : Bytes} {cursor length : Nat}
    (addressable : bytes.length < 2 ^ 64) :
    readAt bytes cursor length = .ok part ↔
      cursor + length ≤ bytes.length ∧ part = slice bytes cursor length := by
  simp only [readAt, sliceContent, Checked.bind_eq_ok, Checked.ensure_eq_ok, Checked.pure_eq_ok,
    exists_const, slice]
  rw [show (bytes.take (cursor + length)).drop cursor = (bytes.drop cursor).take length by
    rw [List.drop_take, Nat.add_sub_cancel_left]]
  constructor
  · rintro ⟨_, ⟨_, inside⟩, rfl⟩
    exact ⟨inside, rfl⟩
  · rintro ⟨inside, rfl⟩
    exact ⟨by omega, ⟨by omega, inside⟩, rfl⟩

/-- The parser accepts an item with a signature type exactly when it has a layout. -/
theorem readDataItemHeader_eq_ok {suite : HashSuite} {item : Bytes} {id : FixedBytes 32}
    {header : DataItemHeader} (addressable : item.length < 2 ^ 64)
    (typed : isLegacy suite item id = false) :
    readDataItemHeader suite item id = .ok header ↔
      ∃ layout : HeaderLayout, layout.Holds item ∧ header = layout.header item := by
  rw [readDataItemHeader_eq]
  simp only [parseItemHeader, typed, readSignatureType, Checked.bind_eq_ok, Checked.ensure_eq_ok,
    Checked.mapError_eq_ok, Checked.pure_eq_ok, Prod.exists, Bool.false_eq_true, if_false,
    take_eq_ok_slice addressable, readLe_eq_ok_slice addressable,
    readOptional32_eq_ok_slice addressable, readAt_eq_ok_slice addressable, forall_const,
    exists_const, Bool.not_false, Bool.true_and]
  constructor
  · rintro ⟨kind, _, ⟨_, rfl, rfl⟩, signatureSize, ownerSize, sizes, _, _, ⟨_, rfl, rfl⟩, _, _,
      ⟨_, rfl, rfl⟩, _, _, ⟨targetPresent, target, _, targetByte, rfl, rfl⟩, _, _,
      ⟨anchorPresent, anchor, _, anchorByte, rfl, rfl⟩, tagCount, _, ⟨_, count, rfl⟩, few, tagBytes,
      _, ⟨_, width, rfl⟩, short, _, _, ⟨inside, rfl⟩, tags, parsed, rfl⟩
    have sum : 0 + 2 + signatureSize + ownerSize = 2 + (signatureSize + ownerSize) := by omega
    rw [sum] at inside targetByte anchorByte count width parsed ⊢
    exact ⟨⟨_, signatureSize, ownerSize, targetPresent, anchorPresent, tagCount, tagBytes, tags⟩,
      ⟨inside, rfl, sizes, target, targetByte, anchor, anchorByte, count, few, width, short,
        parsed⟩, rfl⟩
  · rintro ⟨⟨kind, signatureSize, ownerSize, targetPresent, anchorPresent, tagCount, tagBytes, tags⟩,
      ⟨inside, kindRead, sizes, target, targetByte, anchor, anchorByte, count, few, width, short,
        parsed⟩, rfl⟩
    have sum : 0 + 2 + signatureSize + ownerSize = 2 + (signatureSize + ownerSize) := by omega
    simp only [HeaderLayout.header, HeaderLayout.dataOffset, HeaderLayout.counts,
      HeaderLayout.anchorFlag, HeaderLayout.targetFlag, ← sum]
      at inside targetByte anchorByte count width parsed ⊢
    exact ⟨kind, _, ⟨by omega, kindRead, rfl⟩, signatureSize, ownerSize, sizes, _, _,
      ⟨by omega, rfl, rfl⟩, _, _, ⟨by omega, rfl, rfl⟩, _, _,
      ⟨targetPresent, target, by omega, targetByte, rfl, rfl⟩, _, _,
      ⟨anchorPresent, anchor, by omega, anchorByte, rfl, rfl⟩, tagCount, _,
      ⟨by omega, count, rfl⟩, few, tagBytes, _, ⟨by omega, width, rfl⟩, short, by omega, _,
      ⟨by omega, rfl⟩, tags, parsed, rfl⟩

/-- What an inspection says of a header of an item of a size. -/
def DataItemHeader.details (header : DataItemHeader) (size : Nat) : ItemDetails where
  signatureType := header.signatureType
  owner := base64Text header.owner
  signature := base64Text header.signature
  target := base64Text header.target
  anchor := base64Text header.anchor
  dataOffset := decimalString header.dataOffset
  dataSize := decimalString (size - header.dataOffset)
  bundle := (BundleFormat.fromPairs header.tags).isOk
  tags := tagsJson header.tags

section Item

variable {content : Bytes} {offset size : Nat}

theorem eval_field_eq_ok (fits : offset + size ≤ content.length) {cursor length next : Nat}
    {bytes : Bytes} :
    eval content (field offset size content.length cursor length) = .ok (bytes, next) ↔
      cursor + length ≤ size ∧ bytes = slice (slice content offset size) cursor length ∧
        next = cursor + length := by
  simp only [field, eval_bind, eval_lift, Checked.bind_eq_ok, Checked.ensure_eq_ok, exists_const]
  constructor
  · rintro ⟨inside, read⟩
    rw [slice_slice inside]
    split at read
    · next none =>
        obtain ⟨rfl, rfl⟩ := Prod.mk.inj (Except.ok.inj read)
        exact ⟨inside, by simp [none, slice], by omega⟩
    · simp only [eval_bind, eval_pure, Checked.bind_eq_ok, Prod.exists, eval_read_eq_ok,
        Except.ok.injEq, Prod.mk.injEq] at read
      obtain ⟨_, _, ⟨_, rfl, rfl⟩, rfl, rfl⟩ := read
      exact ⟨inside, rfl, rfl⟩
  · rintro ⟨inside, rfl, rfl⟩
    refine ⟨inside, ?_⟩
    rw [slice_slice inside]
    split
    · next none => simp [none, slice]
    · next some =>
        simp only [eval_bind, eval_pure, Checked.bind_eq_ok, Prod.exists, eval_read_eq_ok,
          Except.ok.injEq, Prod.mk.injEq]
        exact ⟨_, _, ⟨⟨by omega, by omega, by simp⟩, rfl, rfl⟩, rfl, trivial⟩

/-- The last byte of a field that ends with a flag. -/
theorem getLastD_slice {bytes : Bytes} {start width : Nat} {byte : UInt8}
    (last : slice bytes (start + width) 1 = [byte]) :
    (slice bytes start (width + 1)).getLastD 0 = byte := by
  rw [slice_add, last]
  simp

theorem exists_last {bytes : Bytes} {start width : Nat}
    (fits : start + (width + 1) ≤ bytes.length) :
    slice bytes (start + width) 1 = [(slice bytes start (width + 1)).getLastD 0] := by
  obtain ⟨byte, last⟩ := @exists_slice_one bytes (start + width) (by omega)
  rw [getLastD_slice last, last]

/-- The fields that are read give the parts of the header. -/
theorem details_of_layout {item : Bytes} {layout : HeaderLayout}
    (inside : layout.dataOffset ≤ item.length) :
    let fixed := slice item 2 (layout.signatureSize + layout.ownerSize + 1)
    let targetField := slice item (layout.targetFlag + 1) (layout.targetPresent * 32 + 1)
    let lengths := slice item (layout.anchorFlag + 1) (layout.anchorPresent * 32 + 16)
    (lengths.drop (layout.anchorPresent * 32)).take 8 = slice item layout.counts 8 ∧
      lengths.drop (layout.anchorPresent * 32 + 8) = slice item (layout.counts + 8) 8 ∧
      ({ signatureType := layout.signatureType
         owner := base64Text ((fixed.drop layout.signatureSize).take layout.ownerSize)
         signature := base64Text (fixed.take layout.signatureSize)
         target := base64Text targetField.dropLast
         anchor := base64Text (lengths.take (layout.anchorPresent * 32))
         dataOffset := decimalString layout.dataOffset
         dataSize := decimalString (item.length - layout.dataOffset)
         bundle := (BundleFormat.fromPairs layout.tags).isOk
         tags := tagsJson layout.tags } : ItemDetails) =
        (layout.header item).details item.length := by
  have bound : layout.anchorFlag + 1 ≤ item.length := by
    rw [HeaderLayout.dataOffset, HeaderLayout.counts] at inside
    omega
  intro fixed targetField lengths
  refine ⟨?_, ?_, ?_⟩
  · rw [drop_slice, take_slice (by omega)]
    rfl
  · rw [drop_slice, show layout.anchorPresent * 32 + 16 - (layout.anchorPresent * 32 + 8) = 8 by
      omega]
    rfl
  · have owner : (fixed.drop layout.signatureSize).take layout.ownerSize =
        slice item (2 + layout.signatureSize) layout.ownerSize := by
      rw [drop_slice, take_slice (by omega)]
    have signature : fixed.take layout.signatureSize = slice item 2 layout.signatureSize :=
      take_slice (by omega)
    have target : targetField.dropLast =
        slice item (layout.targetFlag + 1) (layout.targetPresent * 32) := dropLast_slice bound
    have anchor : lengths.take (layout.anchorPresent * 32) =
        slice item (layout.anchorFlag + 1) (layout.anchorPresent * 32) := take_slice (by omega)
    rw [owner, signature, target, anchor]
    rfl

namespace HeaderLayout.Holds

variable {item : Bytes} {layout : HeaderLayout}

theorem flag_read {value : Nat} (small : value ≤ 1) : (UInt8.ofNat value).toNat = value := by
  obtain rfl | rfl : value = 0 ∨ value = 1 := by omega
  · rfl
  · rfl

theorem target_read (holds : layout.Holds item) :
    ((slice item (0 + 2) (layout.signatureSize + layout.ownerSize + 1)).getLastD 0).toNat =
      layout.targetPresent := by
  rw [getLastD_slice holds.targetByte, flag_read holds.target]

theorem anchor_read (holds : layout.Holds item) :
    ((slice item (0 + 2 + (layout.signatureSize + layout.ownerSize + 1))
      (layout.targetPresent * 32 + 1)).getLastD 0).toNat = layout.anchorPresent := by
  have last := @getLastD_slice _ (layout.targetFlag + 1) _ _ holds.anchorByte
  exact (congrArg UInt8.toNat last).trans (flag_read holds.anchor)

theorem count_read (holds : layout.Holds item) :
    ofLittleEndian (List.take 8 (List.drop (layout.anchorPresent * 32)
      (slice item (0 + 2 + (layout.signatureSize + layout.ownerSize + 1) +
        (layout.targetPresent * 32 + 1)) (layout.anchorPresent * 32 + 16)))) = layout.tagCount := by
  rw [holds.tagCount, ← (details_of_layout holds.inside).1]
  rfl

theorem length_read (holds : layout.Holds item) :
    ofLittleEndian (List.drop (layout.anchorPresent * 32 + 8)
      (slice item (0 + 2 + (layout.signatureSize + layout.ownerSize + 1) +
        (layout.targetPresent * 32 + 1)) (layout.anchorPresent * 32 + 16))) = layout.tagBytes := by
  rw [holds.tagBytes, ← (details_of_layout holds.inside).2.1]
  rfl

end HeaderLayout.Holds

/-- A header is read field by field exactly when the item has a layout. -/
theorem eval_readHeader_eq_ok (fits : offset + size ≤ content.length) {details : ItemDetails} :
    eval content (readHeader offset size content.length) = .ok details ↔
      ∃ layout : HeaderLayout, layout.Holds (slice content offset size) ∧
        details = (layout.header (slice content offset size)).details size := by
  have width : (slice content offset size).length = size := length_slice fits
  simp only [readHeader, eval_bind, eval_lift, eval_pure, Checked.bind_eq_ok, Checked.ensure_eq_ok,
    Checked.mapError_eq_ok, Prod.exists, eval_field_eq_ok fits, exists_const, Except.ok.injEq]
  generalize slice content offset size = item at width
  subst width
  constructor
  · rintro ⟨_, _, ⟨_, rfl, rfl⟩, signatureSize, ownerSize, sizes, _, _, ⟨first, rfl, rfl⟩, target, _,
      _, ⟨second, rfl, rfl⟩, anchor, _, _, ⟨third, rfl, rfl⟩, ⟨few, short⟩, _, _,
      ⟨inside, rfl, rfl⟩, tags, parsed, rfl⟩
    have targetByte := @exists_last item 2 _ first
    have anchorByte := exists_last second
    generalize targetFlag : (slice item (0 + 2) (signatureSize + ownerSize + 1)).getLastD 0 = byte
      at *
    generalize targetPresent : byte.toNat = present at *
    generalize anchorFlag : List.getLastD (slice item _ (present * 32 + 1)) 0 = other at *
    generalize anchorPresent : other.toNat = also at *
    generalize tagCount : ofLittleEndian (List.take 8 _) = count at *
    generalize tagBytes : ofLittleEndian (List.drop (also * 32 + 8) _) = length at *
    let layout : HeaderLayout := ⟨ofLittleEndian (slice item 0 2), signatureSize, ownerSize, present,
      also, count, length, tags⟩
    obtain ⟨counted, measured, same⟩ := @details_of_layout item layout inside
    have holds : layout.Holds item := by
      refine ⟨inside, rfl, sizes, target, ?_, anchor, ?_, ?_, few, ?_, short, parsed⟩
      · change slice item (2 + (signatureSize + ownerSize)) 1 = [UInt8.ofNat present]
        rw [← targetPresent, UInt8.ofNat_toNat, targetByte]
      · change slice item _ 1 = [UInt8.ofNat also]
        rw [← anchorPresent, UInt8.ofNat_toNat]
        exact anchorByte
      · rw [← counted]
        exact tagCount.symm
      · rw [← measured]
        exact tagBytes.symm
    exact ⟨layout, holds, same⟩
  · rintro ⟨layout, holds, rfl⟩
    have inside := holds.inside
    rw [HeaderLayout.dataOffset, HeaderLayout.counts, HeaderLayout.anchorFlag,
      HeaderLayout.targetFlag] at inside
    refine ⟨_, _, ⟨by omega, rfl, rfl⟩, layout.signatureSize, layout.ownerSize, ?_, _, _,
      ⟨by omega, rfl, rfl⟩, ?_⟩
    · rw [← holds.signatureType, holds.sizes]
    rw [holds.target_read]
    refine ⟨holds.target, _, _, ⟨by omega, rfl, rfl⟩, ?_⟩
    rw [holds.anchor_read]
    refine ⟨holds.anchor, _, _, ⟨by omega, rfl, rfl⟩, ?_⟩
    rw [holds.count_read, holds.length_read]
    refine ⟨⟨holds.fewTags, holds.shortTags⟩, _, _, ⟨by omega, rfl, rfl⟩, layout.tags, holds.tags, ?_⟩
    rw [← (details_of_layout holds.inside).2.2, holds.signatureType]
    rfl

theorem asked_field {cursor length : Nat} {request : Nat × Nat}
    (member : request ∈ asked content (field offset size content.length cursor length)) :
    request = (offset + cursor, length) ∧ cursor + length ≤ size := by
  rw [field, asked_bind, asked_lift, List.nil_append, eval_lift] at member
  by_cases inside : cursor + length ≤ size
  · simp only [Checked.ensure_of inside] at member
    split at member
    · cases member
    · rw [asked_bind, asked_read] at member
      rcases List.mem_append.mp member with first | second
      · exact ⟨List.mem_singleton.mp first, inside⟩
      · split at second <;> cases second
  · simp [Checked.ensure, inside] at member

theorem cost_field_le (cursor length : Nat) :
    cost content (field offset size content.length cursor length) ≤ length := by
  rw [field]
  refine (@cost_bind_le _ _ _ content _ _ 0 length ?_ fun _ _ => ?_).trans (by omega)
  · simp [cost]
  · split
    · simp [cost]
    · refine (@cost_bind_le _ _ _ content _ _ length 0 ?_ fun _ _ => ?_).trans (by omega)
      · simp [cost]
      · simp [cost]

/-- The requests for a header lie within the item. -/
theorem readHeader_within : ∀ request ∈ asked content (readHeader offset size content.length),
    offset ≤ request.1 ∧ request.1 + request.2 ≤ offset + size := by
  have one : ∀ cursor length, ∀ request ∈ asked content
      (field offset size content.length cursor length),
      offset ≤ request.1 ∧ request.1 + request.2 ≤ offset + size := by
    intro cursor length request member
    obtain ⟨rfl, inside⟩ := asked_field member
    dsimp only
    omega
  have none : ∀ {α : Type} (value : Checked α), ∀ request ∈ asked content (lift value),
      offset ≤ request.1 ∧ request.1 + request.2 ≤ offset + size := by simp
  rw [readHeader]
  apply forall_asked_bind content (one _ _)
  rintro ⟨_, _⟩ -
  apply forall_asked_bind content (none _)
  rintro ⟨_, _⟩ -
  apply forall_asked_bind content (one _ _)
  rintro ⟨_, _⟩ -
  apply forall_asked_bind content (none _)
  rintro _ -
  apply forall_asked_bind content (one _ _)
  rintro ⟨_, _⟩ -
  apply forall_asked_bind content (none _)
  rintro _ -
  apply forall_asked_bind content (one _ _)
  rintro ⟨_, _⟩ -
  apply forall_asked_bind content (none _)
  rintro _ -
  apply forall_asked_bind content (one _ _)
  rintro ⟨_, _⟩ -
  apply forall_asked_bind content (none _)
  simp

/-- The requests for a header of an item that has a layout end where the data begin. -/
theorem readHeader_ends {layout : HeaderLayout} (fits : offset + size ≤ content.length)
    (holds : layout.Holds (slice content offset size)) :
    ∀ request ∈ asked content (readHeader offset size content.length),
      request.1 + request.2 ≤ offset + layout.dataOffset := by
  have one : ∀ cursor length, cursor + length ≤ layout.dataOffset → ∀ request ∈ asked content
      (field offset size content.length cursor length),
      request.1 + request.2 ≤ offset + layout.dataOffset := by
    intro cursor length inside request member
    obtain ⟨rfl, _⟩ := asked_field member
    dsimp only
    omega
  have none : ∀ {α : Type} (value : Checked α), ∀ request ∈ asked content (lift value),
      request.1 + request.2 ≤ offset + layout.dataOffset := by simp
  have order : layout.dataOffset = 2 + (layout.signatureSize + layout.ownerSize) + 1 +
      layout.targetPresent * 32 + 1 + layout.anchorPresent * 32 + 16 + layout.tagBytes := rfl
  rw [readHeader]
  apply forall_asked_bind content (one _ _ (by omega))
  intro ⟨_, _⟩ first
  obtain ⟨-, rfl, rfl⟩ := (eval_field_eq_ok fits).mp first
  apply forall_asked_bind content (none _)
  intro ⟨_, _⟩ known
  rw [eval_lift, Checked.mapError_eq_ok, ← holds.signatureType, holds.sizes] at known
  obtain ⟨rfl, rfl⟩ := Prod.mk.inj (Except.ok.inj known)
  apply forall_asked_bind content (one _ _ (by omega))
  intro ⟨_, _⟩ second
  obtain ⟨-, rfl, rfl⟩ := (eval_field_eq_ok fits).mp second
  apply forall_asked_bind content (none _)
  intro _ _
  dsimp only
  rw [holds.target_read]
  apply forall_asked_bind content (one _ _ (by omega))
  intro ⟨_, _⟩ third
  obtain ⟨-, rfl, rfl⟩ := (eval_field_eq_ok fits).mp third
  apply forall_asked_bind content (none _)
  intro _ _
  dsimp only
  rw [holds.anchor_read]
  apply forall_asked_bind content (one _ _ (by omega))
  intro ⟨_, _⟩ fourth
  obtain ⟨-, rfl, rfl⟩ := (eval_field_eq_ok fits).mp fourth
  apply forall_asked_bind content (none _)
  intro _ _
  dsimp only
  rw [holds.count_read, holds.length_read]
  apply forall_asked_bind content (one _ _ (by omega))
  intro ⟨_, _⟩ _
  apply forall_asked_bind content (none _)
  simp

theorem cost_lift_bind_le {α β : Type} {value : Checked α} {rest : α → Reads UInt8 β} {late : Nat}
    (second : ∀ result, value = .ok result → cost content (rest result) ≤ late) :
    cost content (lift value >>= rest) ≤ late := by
  refine (@cost_bind_le _ _ _ content _ _ 0 late ?_ fun result done => ?_).trans (by omega)
  · simp [cost]
  · exact second result (by simpa using done)

/-- A header of any item costs no more than the longest header. -/
theorem cost_readHeader_le :
    cost content (readHeader offset size content.length) ≤ maxDataItemHeaderBytes := by
  have whole : 2 + (3078 + (33 + (48 + (maxDataItemTagBytes + 0)))) = maxDataItemHeaderBytes := by
    rfl
  rw [readHeader, ← whole]
  apply cost_bind_le content (cost_field_le _ _)
  intro ⟨_, _⟩ _
  apply cost_lift_bind_le
  intro ⟨signatureSize, ownerSize⟩ known
  obtain ⟨signature, owner⟩ := dataItemSignatureSizes_le (Checked.mapError_eq_ok.mp known)
  apply cost_bind_le content ((cost_field_le _ _).trans (by omega))
  intro ⟨_, _⟩ _
  apply cost_lift_bind_le
  intro _ small
  have small := Checked.ensure_eq_ok.mp small
  apply cost_bind_le content ((cost_field_le _ _).trans (by omega))
  intro ⟨_, _⟩ _
  apply cost_lift_bind_le
  intro _ small
  have small := Checked.ensure_eq_ok.mp small
  apply cost_bind_le content ((cost_field_le _ _).trans (by omega))
  intro ⟨_, _⟩ _
  apply cost_lift_bind_le
  intro _ short
  have short := (Checked.ensure_eq_ok.mp short).2
  apply cost_bind_le content ((cost_field_le _ _).trans short)
  intro ⟨_, _⟩ _
  apply cost_lift_bind_le
  simp [cost]

end Item

end ArIoGateway
