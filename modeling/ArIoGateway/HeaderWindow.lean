import ArIoGateway.AvroTags

/-!
# The part of a data item that holds its header

A header is read from a bounded prefix of the item, with one further read for tags that lie behind
it.  This file compares that with a parse of all bytes of the item.
-/

namespace ArIoGateway

open Octets Varints

/-- The parse of a header from all bytes of an item; the bound on the tag bytes is an option. -/
def parseItemHeader (bounded : Bool) (suite : HashSuite) (item : Bytes)
    (expectedId : FixedBytes 32) : Checked DataItemHeader := do
  let legacy := isLegacy suite item expectedId
  let (signatureType, cursor) ← readSignatureType legacy item
  let (signatureSize, ownerSize) ← dataItemSignatureSizes signatureType
  let (signature, cursor) ← take item cursor signatureSize "data item signature"
  let (owner, cursor) ← take item cursor ownerSize "data item owner"
  let unsigned := !legacy && decide (signatureType = 1) && signature.all (· = 0) &&
    owner.all (· = 0)
  let (target, cursor) ← readOptional32 item cursor "data item target"
  let (anchor, cursor) ← readOptional32 item cursor "data item anchor"
  let (tagCount, cursor) ← readLe 8 item cursor "data item tag count"
  Checked.ensure (tagCount ≤ maxDataItemTags) "data item tag count exceeds limit"
  let (tagBytes, cursor) ← readLe 8 item cursor "data item tag byte length"
  Checked.ensure (bounded = true → tagBytes ≤ maxDataItemTagBytes)
    "data item tag bytes exceed limit"
  Checked.ensure (cursor + tagBytes < 2 ^ 64) "data item tag offset overflow"
  let rawTags ← (readAt item cursor tagBytes).mapError fun _ => "data item tags are truncated"
  let tags ← parseAvroTags rawTags tagCount
  pure
    { legacy, unsigned, signatureType, signature, owner, target, anchor, rawTags, tags
      dataOffset := cursor + tagBytes }

/-- The part of an item that is read first. -/
def window (item : Bytes) : Bytes := item.take maxDataItemFixedHeaderBytes

theorem length_window (item : Bytes) :
    (window item).length = min maxDataItemFixedHeaderBytes item.length :=
  List.length_take

theorem readAt_window (item : Bytes) :
    readAt item 0 (min item.length maxDataItemFixedHeaderBytes) = .ok (window item) := by
  have small : maxDataItemFixedHeaderBytes < 2 ^ 64 := by decide
  rw [readAt, Checked.ensure_of (by omega), Checked.ok_bind, sliceContent,
    Checked.ensure_of (by omega), Checked.ok_bind, Nat.zero_add, List.drop_zero, window]
  congr 1
  rw [Nat.min_comm, ← List.take_take, List.take_length]

theorem take_window {item : Bytes} {cursor length : Nat} (label : String)
    (fits : cursor + length ≤ maxDataItemFixedHeaderBytes) :
    take (window item) cursor length label = take item cursor length label := by
  have same : ((window item).drop cursor).take length = (item.drop cursor).take length := by
    rw [window, List.drop_take, List.take_take, Nat.min_eq_left (by omega)]
  have inside : cursor + length ≤ (window item).length ↔ cursor + length ≤ item.length := by
    rw [length_window]
    omega
  simp only [take, same, inside]

theorem readLe_window {item : Bytes} {width cursor : Nat} (label : String)
    (fits : cursor + width ≤ maxDataItemFixedHeaderBytes) :
    readLe width (window item) cursor label = readLe width item cursor label := by
  rw [readLe, readLe, take_window label fits]

theorem readOptional32_window {item : Bytes} {cursor : Nat} (label : String)
    (fits : cursor + 33 ≤ maxDataItemFixedHeaderBytes) :
    readOptional32 (window item) cursor label = readOptional32 item cursor label := by
  rw [readOptional32, readOptional32, take_window label (by omega)]
  refine Checked.bind_congr_of_ok fun pair read => ?_
  obtain ⟨flag, behind⟩ := pair
  obtain ⟨_, rfl⟩ := take_eq_ok read
  have later : take (window item) (cursor + 1) 32 label = take item (cursor + 1) 32 label :=
    take_window label (by omega)
  dsimp only
  rw [later]

theorem isLegacy_window (suite : HashSuite) (item : Bytes) (expectedId : FixedBytes 32) :
    isLegacy suite (window item) expectedId = isLegacy suite item expectedId := by
  have wide : 512 ≤ maxDataItemFixedHeaderBytes := by decide
  have inside : 512 ≤ (window item).length ↔ 512 ≤ item.length := by
    rw [length_window]
    omega
  have same : (window item).take 512 = item.take 512 := by
    rw [window, List.take_take, Nat.min_eq_left wide]
  simp only [isLegacy, inside, same]

/-- Tags that the window holds are those that a second read would return. -/
theorem readRawTags_window (item : Bytes) (cursor tagBytes : Nat)
    (addressable : cursor + tagBytes < 2 ^ 64) :
    readRawTags item (window item) cursor tagBytes =
      (readAt item cursor tagBytes).mapError fun _ => "data item tags are truncated" := by
  rw [readRawTags]
  split
  · rename_i inside
    rw [length_window] at inside
    rw [readAt, Checked.ensure_of addressable, Checked.ok_bind, sliceContent,
      Checked.ensure_of (by omega), Checked.ok_bind, window, List.drop_take, List.take_take,
      Nat.min_eq_left (by omega), List.drop_take, Nat.add_sub_cancel_left]
    rfl
  · rfl

/-- No signature type has a longer signature or owner than type 6. -/
theorem dataItemSignatureSizes_le {signatureType signatureSize ownerSize : Nat}
    (known : dataItemSignatureSizes signatureType = .ok (signatureSize, ownerSize)) :
    signatureSize ≤ 2052 ∧ ownerSize ≤ 1025 := by
  rw [dataItemSignatureSizes.eq_def] at known
  split at known <;> first
    | (obtain ⟨rfl, rfl⟩ := Prod.mk.inj (Except.ok.inj known); omega)
    | cases known

theorem readOptional32_le {bytes field : Bytes} {cursor next : Nat} {label : String}
    (read : readOptional32 bytes cursor label = .ok (field, next)) : next ≤ cursor + 33 := by
  simp only [readOptional32, Checked.bind_eq_ok] at read
  obtain ⟨⟨flag, behind⟩, first, read⟩ := read
  obtain ⟨_, rfl⟩ := take_eq_ok first
  split at read
  · obtain ⟨_, rfl⟩ := Prod.mk.inj (Checked.pure_eq_ok.mp read)
    omega
  · obtain ⟨_, rfl⟩ := take_eq_ok read
    omega
  · cases read

theorem readDataItemHeader_eq (suite : HashSuite) (item : Bytes) (expectedId : FixedBytes 32) :
    readDataItemHeader suite item expectedId = parseItemHeader true suite item expectedId := by
  have typed : readSignatureType (isLegacy suite item expectedId) (window item) =
      readSignatureType (isLegacy suite item expectedId) item := by
    rw [readSignatureType, readSignatureType, readLe_window _ (by decide)]
  rw [readDataItemHeader, parseItemHeader, readAt_window, Checked.ok_bind]
  simp only [isLegacy_window, typed]
  have wide : maxDataItemFixedHeaderBytes = 3161 := rfl
  refine Checked.bind_congr_of_ok fun pair read => ?_
  obtain ⟨signatureType, start⟩ := pair
  have front : start ≤ 2 := by
    rw [readSignatureType_eq_ok read]
    split <;> omega
  refine Checked.bind_congr_of_ok fun pair sizes => ?_
  obtain ⟨signatureSize, ownerSize⟩ := pair
  obtain ⟨signatureLimit, ownerLimit⟩ := dataItemSignatureSizes_le sizes
  dsimp only
  rw [take_window _ (by omega)]
  refine Checked.bind_congr_of_ok fun pair read => ?_
  obtain ⟨signature, first⟩ := pair
  obtain ⟨_, rfl⟩ := take_eq_ok read
  dsimp only
  rw [take_window _ (by omega)]
  refine Checked.bind_congr_of_ok fun pair read => ?_
  obtain ⟨owner, second⟩ := pair
  obtain ⟨_, rfl⟩ := take_eq_ok read
  dsimp only
  rw [readOptional32_window _ (by omega)]
  refine Checked.bind_congr_of_ok fun pair read => ?_
  obtain ⟨target, third⟩ := pair
  have thirdLimit := readOptional32_le read
  dsimp only
  rw [readOptional32_window _ (by omega)]
  refine Checked.bind_congr_of_ok fun pair read => ?_
  obtain ⟨anchor, fourth⟩ := pair
  have fourthLimit := readOptional32_le read
  dsimp only
  rw [readLe_window _ (by omega)]
  refine Checked.bind_congr_of_ok fun pair read => ?_
  obtain ⟨tagCount, fifth⟩ := pair
  obtain rfl := readLe_eq_ok read
  dsimp only
  refine Checked.bind_congr_of_ok fun _ _ => ?_
  rw [readLe_window _ (by omega)]
  refine Checked.bind_congr_of_ok fun pair read => ?_
  obtain ⟨tagBytes, sixth⟩ := pair
  dsimp only
  simp only [forall_const]
  refine Checked.bind_congr_of_ok fun _ _ => Checked.bind_congr_of_ok fun _ addressable => ?_
  rw [readRawTags_window item sixth tagBytes (Checked.ensure_eq_ok.mp addressable)]

theorem AvroLong.length_le {value : Int} {bytes : Bytes} (long : AvroLong value bytes) :
    bytes.length ≤ 10 := by
  obtain ⟨width, _, limit, _, _, rfl⟩ := long
  rwa [length_groups]

theorem AvroRecords.length_le_mul {tags : List (Bytes × Bytes)} {records : Bytes}
    (valid : AvroRecords tags records) :
    records.length ≤ tags.length * (maxDataItemTagNameBytes + maxDataItemTagValueBytes + 20) := by
  induction valid with
  | nil => exact Nat.zero_le _
  | cons record _ induction =>
      obtain ⟨name, value, nameLength, valueLength, nameLong, valueLong, rfl⟩ := record
      have nameWidth := nameLong.length_le
      have valueWidth := valueLong.length_le
      rw [List.length_cons, Nat.succ_mul]
      simp only [List.length_append]
      omega

/-- A block is not empty, so that its count and size add to those of a tag in it. -/
theorem AvroBlock.length_le_mul {tags : List (Bytes × Bytes)} {bytes : Bytes}
    (valid : AvroBlock tags bytes) :
    bytes.length ≤ tags.length * (maxDataItemTagNameBytes + maxDataItemTagValueBytes + 40) := by
  have split (count limit : Nat) : count * (limit + 40) = count * (limit + 20) + count * 20 := by
    rw [← Nat.mul_add]
  cases valid with
  | plain filled long valid =>
      have width := long.length_le
      have rest := valid.length_le_mul
      have positive := List.length_pos_iff.mpr filled
      rw [List.length_append, split]
      omega
  | sized filled long sizeLong valid =>
      have width := long.length_le
      have sizeWidth := sizeLong.length_le
      have rest := valid.length_le_mul
      have positive := List.length_pos_iff.mpr filled
      rw [List.length_append, List.length_append, split]
      omega

theorem AvroArray.length_le {tags : List (Bytes × Bytes)} {bytes : Bytes}
    (array : AvroArray tags bytes) :
    bytes.length ≤
      tags.length * (maxDataItemTagNameBytes + maxDataItemTagValueBytes + 40) + 10 := by
  induction array with
  | finish => exact Nat.zero_le _
  | zero long =>
      have width := long.length_le
      omega
  | block valid _ induction =>
      have first := valid.length_le_mul
      rw [List.length_append, List.length_append, Nat.add_mul]
      omega

/-- The bound admits the tags of every accepted item. -/
theorem length_le_of_parseAvroTags {rawTags : Bytes} {tagCount : Nat}
    {tags : List (Bytes × Bytes)} (few : tagCount ≤ maxDataItemTags)
    (parsed : parseAvroTags rawTags tagCount = .ok tags) :
    rawTags.length ≤ maxDataItemTagBytes := by
  obtain ⟨rfl, array | ⟨rfl, rfl⟩⟩ := avroArray_of_parseAvroTags parsed
  · have long := array.length_le
    have scaled := Nat.mul_le_mul_right
      (maxDataItemTagNameBytes + maxDataItemTagValueBytes + 40) few
    rw [maxDataItemTagBytes]
    omega
  · decide

theorem length_of_readAt {content read : Bytes} {offset length : Nat}
    (done : readAt content offset length = .ok read) : read.length = length := by
  simp only [readAt, sliceContent, Checked.bind_eq_ok, Checked.ensure_eq_ok,
    Checked.pure_eq_ok] at done
  obtain ⟨_, _, _, inside, rfl⟩ := done
  rw [List.length_drop, List.length_take]
  omega

/-- `read_data_item_header` returns what a parse of the whole item returns, and its bound on the tag
bytes refuses no item that a parse without the bound accepts. -/
theorem header_window_suffices (suite : HashSuite) (item : Bytes) (expectedId : FixedBytes 32) :
    readDataItemHeader suite item expectedId = parseItemHeader true suite item expectedId ∧
    (∀ header, readDataItemHeader suite item expectedId = .ok header ↔
      parseItemHeader false suite item expectedId = .ok header) ∧
    ∀ rawTags tagCount tags, tagCount ≤ maxDataItemTags →
      parseAvroTags rawTags tagCount = .ok tags → rawTags.length ≤ maxDataItemTagBytes := by
  refine ⟨readDataItemHeader_eq suite item expectedId, fun header => ?_,
    fun rawTags tagCount tags => length_le_of_parseAvroTags⟩
  rw [readDataItemHeader_eq]
  simp only [parseItemHeader, Checked.bind_eq_ok, Checked.ensure_eq_ok, Checked.mapError_eq_ok]
  constructor
  · rintro ⟨kind, typed, sizes, known, signature, first, owner, second, target, third, anchor, fourth,
      count, fifth, _, few, size, sixth, _, _, rest⟩
    exact ⟨kind, typed, sizes, known, signature, first, owner, second, target, third, anchor, fourth,
      count, fifth, (), few, size, sixth, (), fun strict => absurd strict Bool.false_ne_true, rest⟩
  · rintro ⟨kind, typed, sizes, known, signature, first, owner, second, target, third, anchor, fourth,
      count, fifth, _, few, size, sixth, _, _, _, addressable, rawTags, read, tags, parsed, built⟩
    have bound := length_le_of_parseAvroTags few parsed
    rw [length_of_readAt read] at bound
    exact ⟨kind, typed, sizes, known, signature, first, owner, second, target, third, anchor, fourth,
      count, fifth, (), few, size, sixth, (), fun _ => bound, (), addressable, rawTags, read, tags,
      parsed, built⟩

/-- A block of one tag of the greatest lengths, with every number in ten groups. -/
def fullTag : Bytes × Bytes :=
  (List.replicate maxDataItemTagNameBytes 0, List.replicate maxDataItemTagValueBytes 0)

def fullRecord : Bytes :=
  groups 10 (zigzag fullTag.1.length) ++ fullTag.1 ++ groups 10 (zigzag fullTag.2.length) ++ fullTag.2

def fullBlock : Bytes :=
  groups 10 (zigzag (-1)) ++ groups 10 (zigzag fullRecord.length) ++ fullRecord

/-- As many such blocks as there may be tags, and a zero count. -/
def fullTags : Bytes :=
  (List.replicate maxDataItemTags ([fullTag], fullBlock)).flatMap Prod.snd ++ groups 10 (zigzag 0)

theorem length_fullRecord : fullRecord.length = 4116 := by
  simp only [fullRecord, fullTag, List.length_append, length_groups, List.length_replicate]
  rfl

theorem avroBlock_fullBlock : AvroBlock [fullTag] fullBlock := by
  have long (value : Int) (small : zigzag value < 2 ^ 64) :
      AvroLong value (groups 10 (zigzag value)) :=
    ⟨10, by decide, le_rfl, lt_trans small (by decide), small, rfl⟩
  have record : AvroTag fullTag fullRecord := by
    refine ⟨?_, ?_, _, _, long _ ?_, long _ ?_, rfl⟩ <;>
      (rw [fullTag]; simp only [List.length_replicate]; decide)
  have records : AvroRecords [fullTag] (fullRecord ++ []) := .cons record .nil
  rw [List.append_nil] at records
  refine .sized (List.cons_ne_nil _ _) (long _ (by decide)) (long _ ?_) records
  rw [length_fullRecord]
  decide

theorem length_fullTags : fullTags.length = maxDataItemTagBytes := by
  have block : fullBlock.length = 4136 := by
    simp only [fullBlock, List.length_append, length_groups, length_fullRecord]
  simp only [fullTags, List.length_append, length_groups, List.length_flatMap, List.map_replicate,
    block, List.sum_replicate]
  rfl

theorem parseAvroTags_fullTags :
    parseAvroTags fullTags maxDataItemTags = .ok (List.replicate maxDataItemTags fullTag) := by
  have array : AvroArray (List.replicate maxDataItemTags fullTag) fullTags := by
    refine avroArray_iff.mpr ⟨List.replicate maxDataItemTags ([fullTag], fullBlock),
      groups 10 (zigzag 0), ?_, .inr ⟨10, by decide⟩, ?_, rfl⟩
    · intro block member
      rw [List.eq_of_mem_replicate member]
      exact avroBlock_fullBlock
    · rw [List.flatMap_replicate, List.flatten_replicate_singleton]
  have parsed := parseAvroTags_of_avroArray (by rw [length_fullTags]; decide) array
  rwa [List.length_replicate] at parsed

/-- The tags that need all of the bound are read, and a bound of one byte less refuses them. -/
theorem header_window_suffices_full :
    fullTags.length ≤ maxDataItemTagBytes ∧ ¬fullTags.length ≤ maxDataItemTagBytes - 1 := by
  refine ⟨(header_window_suffices sha2Suite [] ⟨List.replicate 32 0, rfl⟩).2.2 fullTags
    maxDataItemTags _ le_rfl parseAvroTags_fullTags, ?_⟩
  rw [length_fullTags]
  decide

end ArIoGateway
