import ArIoGateway.ChunkAnchor

/-!
# Length-prefixed records

The block index of a node is a sequence of records, and a chunk in binary form is a record of four
fields.  Every part of variable width stands behind its length, so that bytes are cut in one way
only, and a length never leads outside the range of a word.
-/

namespace ArIoGateway

open Octets

def maxProofBytes : Nat := 64 * 1024
def maxPackingLen : Nat := 12 + 43

/-- A string of bytes behind its length in a number of bytes. -/
def frame (width : Nat) (bytes : Bytes) : Bytes := bigEndian width bytes.length ++ bytes

theorem length_frame (width : Nat) (bytes : Bytes) :
    (frame width bytes).length = width + bytes.length := by
  rw [frame, List.length_append, length_bigEndian]

/-- A frame ends where its length says. -/
theorem frame_append_inj {width : Nat} {left right leftRest rightRest : Bytes}
    (leftFits : left.length < 256 ^ width) (rightFits : right.length < 256 ^ width)
    (same : frame width left ++ leftRest = frame width right ++ rightRest) :
    left = right ∧ leftRest = rightRest := by
  rw [frame, frame, List.append_assoc, List.append_assoc] at same
  obtain ⟨lengths, rest⟩ := List.append_inj same (by rw [length_bigEndian, length_bigEndian])
  exact List.append_inj rest (bigEndian_inj leftFits rightFits lengths)

/-- What is read as a length of a number of bytes and as so many bytes is a frame. -/
theorem segment_frame {bytes length part : Bytes} {cursor middle next width : Nat}
    (head : Segment bytes cursor length middle) (wide : length.length = width)
    (tail : Segment bytes middle part next) (counted : part.length = ofBigEndian length) :
    Segment bytes cursor (frame width part) next := by
  have spelled : bigEndian width part.length = length := by
    apply ofBigEndian_inj
    · rw [length_bigEndian, wide]
    · rw [counted, ofBigEndian_bigEndian (wide ▸ ofBigEndian_lt length)]
  rw [frame, spelled]
  exact head.append tail

/-- A result that is not the failure of a sum of a place and a length. -/
def Sums {α : Type} (result : Checked α) : Prop :=
  ∀ label : String, result ≠ .error (label ++ " offset overflow")

theorem Sums.pure {α : Type} (value : α) : Sums (pure value : Checked α) := nofun

/-- The last letter tells other failures apart. -/
theorem Sums.error {α : Type} {message : String} (other : message.toList.getLast? ≠ some 'w') :
    Sums (.error message : Checked α) := by
  intro label same
  obtain rfl := Except.error.inj same
  apply other
  rw [String.toList_append, List.getLast?_append]
  rfl

theorem Sums.ensure {condition : Prop} [Decidable condition] {message : String}
    (other : message.toList.getLast? ≠ some 'w') : Sums (Checked.ensure condition message) := by
  unfold Checked.ensure
  split
  · nofun
  · exact .error other

theorem Sums.context {α : Type} {value : Option α} {message : String}
    (other : message.toList.getLast? ≠ some 'w') : Sums (Checked.context value message) := by
  cases value with
  | none => exact .error other
  | some value => nofun

theorem Sums.bind {α β : Type} {first : Checked α} {second : α → Checked β} (start : Sums first)
    (next : ∀ value, first = .ok value → Sums (second value)) : Sums (first >>= second) := by
  cases first with
  | error message =>
      intro label same
      exact start label (congrArg Except.error (Except.error.inj same))
  | ok value => exact next value rfl

/-- A place and a length in the range of the bytes have a sum. -/
theorem take_sums {bytes : Bytes} {cursor length : Nat} {label : String}
    (small : cursor + length < 2 ^ 64) : Sums (take bytes cursor length label) := by
  rw [take, Checked.ensure_of small, Checked.ok_bind]
  refine .bind (.ensure ?_) fun _ _ => .pure _
  have last : (label ++ " is truncated").toList.getLast? = some 'd' := by
    rw [String.toList_append, List.getLast?_append]
    rfl
  exact fun same => absurd (last.symm.trans same) (by decide)

/-- A record of the block index: the hash of a block, its weave size and the root of its data. -/
structure BlockIndexRecord where
  hash : FixedBytes 48
  weaveSize : Bytes
  txRoot : Bytes
  short : weaveSize.length ≤ 16
  rooted : txRoot.length = 0 ∨ txRoot.length = 32

namespace BlockIndexRecord

def bytes (record : BlockIndexRecord) : Bytes :=
  record.hash.val ++ frame 2 record.weaveSize ++ frame 1 record.txRoot

/-- What is decoded from a record. -/
def entry (record : BlockIndexRecord) : TrustedBlockIndexEntry :=
  ⟨base64Text record.hash.val, base64Text record.txRoot, ofBigEndian record.weaveSize⟩

theorem length_bytes (record : BlockIndexRecord) :
    51 ≤ record.bytes.length ∧ record.bytes.length ≤ 99 := by
  have short := record.short
  have rooted := record.rooted
  have width := record.hash.property
  rw [bytes, List.length_append, List.length_append, length_frame, length_frame]
  omega

theorem bytes_append_inj {left right : BlockIndexRecord} {leftRest rightRest : Bytes}
    (same : left.bytes ++ leftRest = right.bytes ++ rightRest) :
    left = right ∧ leftRest = rightRest := by
  have leftRooted := left.rooted
  have rightRooted := right.rooted
  have leftShort := left.short
  have rightShort := right.short
  simp only [bytes, List.append_assoc] at same
  obtain ⟨hash, same⟩ := List.append_inj same (by rw [left.hash.property, right.hash.property])
  obtain ⟨weave, same⟩ := frame_append_inj (by omega) (by omega) same
  obtain ⟨root, rest⟩ := frame_append_inj (by omega) (by omega) same
  refine ⟨?_, rest⟩
  obtain ⟨leftHash, leftWeave, leftRoot, _, _⟩ := left
  obtain ⟨rightHash, rightWeave, rightRoot, _, _⟩ := right
  obtain rfl := Subtype.ext hash
  obtain rfl : leftWeave = rightWeave := weave
  obtain rfl : leftRoot = rightRoot := root
  rfl

/-- Records are told apart by their bytes, one after another. -/
theorem flatMap_bytes_inj {left right : List BlockIndexRecord}
    (same : left.flatMap bytes = right.flatMap bytes) : left = right := by
  have some (record : BlockIndexRecord) (rest : Bytes) : record.bytes ++ rest ≠ [] := by
    intro none
    have width := record.length_bytes
    rw [(List.append_eq_nil_iff.mp none).1] at width
    exact absurd width.1 (by decide)
  induction left generalizing right with
  | nil =>
      cases right with
      | nil => rfl
      | cons record right => exact absurd same.symm (some record _)
  | cons record left induction =>
      cases right with
      | nil => exact absurd same (some record _)
      | cons other right =>
          obtain ⟨rfl, rest⟩ := bytes_append_inj same
          rw [induction rest]

theorem length_flatMap_le (records : List BlockIndexRecord) :
    (records.flatMap bytes).length ≤ records.length * 99 := by
  induction records with
  | nil => exact Nat.zero_le _
  | cons record records induction =>
      have width := record.length_bytes
      rw [List.flatMap_cons, List.length_append, List.length_cons]
      omega

end BlockIndexRecord

/-- An entry is decoded from a record, and from nothing else. -/
theorem decodeBlockIndexEntry_eq_ok {bytes : Bytes} {cursor next : Nat}
    {entry : TrustedBlockIndexEntry} :
    decodeBlockIndexEntry bytes cursor = .ok (entry, next) ↔
      ∃ record : BlockIndexRecord,
        Segment bytes cursor record.bytes next ∧ record.entry = entry := by
  simp only [decodeBlockIndexEntry, Checked.bind_eq_ok, Checked.ensure_eq_ok, Checked.pure_eq_ok,
    Prod.exists, take_eq_ok_iff, Prod.mk.injEq]
  constructor
  · rintro ⟨hash, _, ⟨first, hashed⟩, length, _, ⟨second, wide⟩, _, short, weave, _,
      ⟨third, counted⟩, rootLength, _, ⟨fourth, one⟩, _, rooted, root, _, ⟨fifth, rootCounted⟩,
      rfl, rfl⟩
    have weaveFrame := segment_frame second wide third counted
    have rootFrame := segment_frame fourth one fifth rootCounted
    exact ⟨⟨⟨hash, hashed⟩, weave, root, counted ▸ short, rootCounted ▸ rooted⟩,
      (first.append weaveFrame).append rootFrame, rfl⟩
  · rintro ⟨record, segment, rfl⟩
    have short := record.short
    have rooted := record.rooted
    obtain ⟨_, segment, rootFrame⟩ := segment.split
    obtain ⟨_, first, weaveFrame⟩ := segment.split
    obtain ⟨_, second, third⟩ := weaveFrame.split
    obtain ⟨_, fourth, fifth⟩ := rootFrame.split
    have weaveLength : ofBigEndian (bigEndian 2 record.weaveSize.length) =
        record.weaveSize.length := ofBigEndian_bigEndian (by omega)
    have rootLength : ofBigEndian (bigEndian 1 record.txRoot.length) = record.txRoot.length :=
      ofBigEndian_bigEndian (by omega)
    exact ⟨_, _, ⟨first, record.hash.property⟩, _, _, ⟨second, length_bigEndian 2 _⟩, (),
      by rwa [weaveLength], _, _, ⟨third, weaveLength.symm⟩, _, _, ⟨fourth, length_bigEndian 1 _⟩,
      (), by rwa [rootLength], _, _, ⟨fifth, rootLength.symm⟩, rfl, rfl⟩

/-- The block index is decoded from records, and from nothing else. -/
theorem decodeBlockIndex_eq_ok {bytes : Bytes} {rounds cursor : Nat}
    {entries : List TrustedBlockIndexEntry} (small : bytes.length < 2 ^ 64)
    (inside : cursor ≤ bytes.length) (enough : bytes.length - cursor < rounds) :
    decodeBlockIndex bytes rounds cursor = .ok entries ↔
      ∃ records : List BlockIndexRecord,
        Segment bytes cursor (records.flatMap BlockIndexRecord.bytes) bytes.length ∧
          records.map BlockIndexRecord.entry = entries := by
  induction rounds generalizing cursor entries with
  | zero => exact absurd enough (Nat.not_lt_zero _)
  | succ rounds induction =>
      rw [decodeBlockIndex]
      by_cases further : cursor < bytes.length
      · rw [if_pos further]
        simp only [Checked.bind_eq_ok, Prod.exists, Checked.pure_eq_ok, decodeBlockIndexEntry_eq_ok]
        constructor
        · rintro ⟨_, middle, ⟨record, first, rfl⟩, others, rest, rfl⟩
          have width := record.length_bytes
          have moved := first.length
          obtain ⟨records, behind, rfl⟩ := (induction first.inside (by omega)).mp rest
          exact ⟨record :: records, first.append behind, rfl⟩
        · rintro ⟨records, segment, rfl⟩
          cases records with
          | nil =>
              have length := segment.length
              simp only [List.flatMap_nil, List.length_nil] at length
              omega
          | cons record records =>
              obtain ⟨middle, first, behind⟩ := segment.split
              have width := record.length_bytes
              have moved := first.length
              exact ⟨_, middle, ⟨record, first, rfl⟩, _,
                (induction first.inside (by omega)).mpr ⟨records, behind, rfl⟩, rfl⟩
      · rw [if_neg further]
        obtain rfl : cursor = bytes.length := by omega
        simp only [Checked.pure_eq_ok]
        constructor
        · rintro rfl
          exact ⟨[], Segment.nil le_rfl small, rfl⟩
        · rintro ⟨records, segment, rfl⟩
          have length := segment.length
          cases records with
          | nil => rfl
          | cons record records =>
              have width := record.length_bytes
              rw [List.flatMap_cons, List.length_append] at length
              omega

theorem decodeBlockIndexEntry_sums {bytes : Bytes} {cursor : Nat} (inside : cursor ≤ bytes.length)
    (small : bytes.length < 2 ^ 63) : Sums (decodeBlockIndexEntry bytes cursor) := by
  have step {length from_ next : Nat} {part : Bytes} {label : String}
      (taken : take bytes from_ length label = .ok (part, next)) : next ≤ bytes.length :=
    (take_eq_ok_iff.mp taken).1.inside
  rw [decodeBlockIndexEntry]
  refine .bind (take_sums (by omega)) fun hash first => ?_
  have hashEnd := step first
  refine .bind (take_sums (by omega)) fun length second => ?_
  have lengthEnd := step second
  have short (width : Nat) : width ≤ 16 ∨ 16 < width := le_or_gt _ _
  refine .bind (.ensure (by decide)) fun _ checked => ?_
  have bounded := Checked.ensure_eq_ok.mp checked
  refine .bind (take_sums (by omega)) fun weave third => ?_
  have weaveEnd := step third
  refine .bind (take_sums (by omega)) fun rootLength fourth => ?_
  have rootLengthEnd := step fourth
  refine .bind (.ensure (by decide)) fun _ rooted => ?_
  have rootBounded := Checked.ensure_eq_ok.mp rooted
  exact .bind (take_sums (by omega)) fun root fifth => .pure _

theorem decodeBlockIndex_sums {bytes : Bytes} {rounds cursor : Nat}
    (inside : cursor ≤ bytes.length) (small : bytes.length < 2 ^ 63) :
    Sums (decodeBlockIndex bytes rounds cursor) := by
  induction rounds generalizing cursor with
  | zero => exact .error (by decide)
  | succ rounds induction =>
      rw [decodeBlockIndex]
      split
      · refine .bind (decodeBlockIndexEntry_sums inside small) fun entry decoded => ?_
        obtain ⟨record, segment, -⟩ := decodeBlockIndexEntry_eq_ok.mp decoded
        exact .bind (induction segment.inside) fun _ _ => .pure _
      · exact .pure _

/-- The packing of a chunk, `Packing`. -/
inductive ChunkPacking where
  | unpacked
  | replica29 (address : FixedBytes 32)
deriving DecidableEq

/-- A chunk as a node sends it, `Chunk`. -/
structure BinaryChunk where
  chunk : Bytes
  dataPath : Bytes
  txPath : Bytes
  packing : ChunkPacking
deriving DecidableEq

/-- What is behind a beginning of a text, `strip_prefix`. -/
def textBehind (front text : String) : Option String :=
  if front.toList.isPrefixOf text.toList = true then
    some (String.ofList (text.toList.drop front.toList.length))
  else none

/-- `Packing::parse`. -/
def ChunkPacking.parse (value : String) : Checked ChunkPacking :=
  if value = "unpacked" then pure .unpacked
  else
    match textBehind "replica_2_9_" value with
    | some text => do
        Checked.ensure ((utf8 value).length = maxPackingLen) "invalid replica packing address"
        let address ← decodeFixed 32 text "replica packing address"
        pure (.replica29 address)
    | none => .error "unsupported chunk packing format"

/-- The length in front of a field, in shifts of a 64-bit word. -/
def fieldLength (bytes : Bytes) : Nat :=
  bytes.foldl (fun length byte => length <<< 8 % 2 ^ 64 ||| byte.toNat) 0

/-- A field of a chunk, behind its length in a number of bytes. -/
def chunkField (body : Bytes) (width limit cursor : Nat) : Checked (Bytes × Nat) := do
  let (length, cursor) ← take body cursor width "binary chunk field length"
  let length := fieldLength length
  Checked.ensure (length ≤ limit) "binary chunk field exceeds size limit"
  take body cursor length "binary chunk field"

/-- `decode_binary_chunk`. -/
def decodeBinaryChunk (body : Bytes) : Checked BinaryChunk := do
  let (chunk, cursor) ← chunkField body 3 maxChunkSize 0
  let (txPath, cursor) ← chunkField body 3 maxProofBytes cursor
  let (dataPath, cursor) ← chunkField body 3 maxProofBytes cursor
  let (packing, cursor) ← chunkField body 1 maxPackingLen cursor
  let text ← Checked.context (fromUtf8 packing) "invalid chunk packing encoding"
  let packing ← ChunkPacking.parse text
  Checked.ensure (cursor = body.length) "binary chunk response has trailing bytes"
  pure { chunk, dataPath, txPath, packing }

/-- A length of less than a word does not lose its front. -/
theorem fieldLength_eq {bytes : Bytes} (short : bytes.length ≤ 7) :
    fieldLength bytes = ofBigEndian bytes := by
  induction bytes using List.reverseRecOn with
  | nil => rfl
  | append_singleton bytes byte induction =>
      rw [List.length_append, List.length_singleton] at short
      have front := ofBigEndian_lt bytes
      have powers : 256 ^ bytes.length ≤ 256 ^ 6 := Nat.pow_le_pow_right (by decide) (by omega)
      have small : ofBigEndian bytes <<< 8 < 2 ^ 64 := by
        rw [Nat.shiftLeft_eq]
        omega
      have last : fieldLength (bytes ++ [byte]) =
          fieldLength bytes <<< 8 % 2 ^ 64 ||| byte.toNat := by
        simp [fieldLength, List.foldl_append]
      rw [last, induction (by omega), Nat.mod_eq_of_lt small,
        ← Nat.shiftLeft_add_eq_or_of_lt byte.toNat_lt, Nat.shiftLeft_eq, ofBigEndian_snoc]

theorem chunkField_eq_ok {body part : Bytes} {width limit cursor next : Nat} (narrow : width ≤ 7)
    (fits : limit < 256 ^ width) :
    chunkField body width limit cursor = .ok (part, next) ↔
      Segment body cursor (frame width part) next ∧ part.length ≤ limit := by
  simp only [chunkField, Checked.bind_eq_ok, Checked.ensure_eq_ok, Prod.exists, take_eq_ok_iff]
  constructor
  · rintro ⟨length, middle, ⟨head, wide⟩, _, bounded, tail, counted⟩
    rw [fieldLength_eq (wide ▸ narrow)] at bounded counted
    exact ⟨segment_frame head wide tail counted, counted ▸ bounded⟩
  · rintro ⟨segment, bounded⟩
    obtain ⟨middle, head, tail⟩ := segment.split
    have length : fieldLength (bigEndian width part.length) = part.length := by
      rw [fieldLength_eq (by rwa [length_bigEndian]), ofBigEndian_bigEndian (by omega)]
    exact ⟨_, middle, ⟨head, length_bigEndian _ _⟩, (), by rwa [length], tail, length.symm⟩

/-- The bytes of a chunk: its four fields behind their lengths. -/
def chunkFrames (chunk txPath dataPath packing : Bytes) : Bytes :=
  frame 3 chunk ++ frame 3 txPath ++ frame 3 dataPath ++ frame 1 packing

/-- The fields of a chunk are within their limits, and the last one names a packing. -/
structure ChunkFields (chunk txPath dataPath packing : Bytes) (parsed : ChunkPacking) : Prop where
  chunkFits : chunk.length ≤ maxChunkSize
  txPathFits : txPath.length ≤ maxProofBytes
  dataPathFits : dataPath.length ≤ maxProofBytes
  packingFits : packing.length ≤ maxPackingLen
  names : ∃ text, fromUtf8 packing = some text ∧ ChunkPacking.parse text = .ok parsed

/-- A chunk is decoded from its four fields, and from nothing else. -/
theorem decodeBinaryChunk_eq_ok {body : Bytes} {result : BinaryChunk}
    (small : body.length < 2 ^ 64) :
    decodeBinaryChunk body = .ok result ↔ ∃ packing,
      body = chunkFrames result.chunk result.txPath result.dataPath packing ∧
        ChunkFields result.chunk result.txPath result.dataPath packing result.packing := by
  have wide : maxChunkSize < 256 ^ 3 ∧ maxProofBytes < 256 ^ 3 ∧ maxPackingLen < 256 ^ 1 := by
    decide
  simp only [decodeBinaryChunk, Checked.bind_eq_ok, Prod.exists, Checked.context_eq_ok,
    Checked.ensure_eq_ok, Checked.pure_eq_ok, chunkField_eq_ok (by decide : 3 ≤ 7) wide.1,
    chunkField_eq_ok (by decide : 3 ≤ 7) wide.2.1, chunkField_eq_ok (by decide : 1 ≤ 7) wide.2.2]
  constructor
  · rintro ⟨chunk, _, ⟨first, chunkShort⟩, txPath, _, ⟨second, txShort⟩, dataPath, _,
      ⟨third, dataShort⟩, packing, _, ⟨fourth, packingShort⟩, text, decoded, parsed, parses, _, rfl,
      rfl⟩
    have whole := ((first.append second).append third).append fourth
    exact ⟨packing, ((Segment.whole_iff small).mp whole).symm,
      chunkShort, txShort, dataShort, packingShort, text, decoded, parses⟩
  · rintro ⟨packing, framed, chunkShort, txShort, dataShort, packingShort, text, decoded, parses⟩
    have whole := (Segment.whole_iff small).mpr framed.symm
    obtain ⟨_, front, fourth⟩ := whole.split
    obtain ⟨_, front, third⟩ := front.split
    obtain ⟨_, first, second⟩ := front.split
    exact ⟨_, _, ⟨first, chunkShort⟩, _, _, ⟨second, txShort⟩, _, _, ⟨third, dataShort⟩, _, _,
      ⟨fourth, packingShort⟩, text, decoded, _, parses, (), rfl, rfl⟩

/-- The fields of a chunk are told by its bytes. -/
theorem chunkFrames_inj {chunk txPath dataPath packing chunk' txPath' dataPath' packing' : Bytes}
    {parsed parsed' : ChunkPacking} (left : ChunkFields chunk txPath dataPath packing parsed)
    (right : ChunkFields chunk' txPath' dataPath' packing' parsed')
    (same : chunkFrames chunk txPath dataPath packing =
      chunkFrames chunk' txPath' dataPath' packing') :
    chunk = chunk' ∧ txPath = txPath' ∧ dataPath = dataPath' ∧ packing = packing' := by
  have wide : maxChunkSize < 256 ^ 3 ∧ maxProofBytes < 256 ^ 3 ∧ maxPackingLen < 256 ^ 1 := by
    decide
  simp only [chunkFrames, List.append_assoc] at same
  obtain ⟨rfl, behindChunk⟩ := frame_append_inj (left.chunkFits.trans_lt wide.1)
    (right.chunkFits.trans_lt wide.1) same
  obtain ⟨rfl, behindTx⟩ := frame_append_inj (left.txPathFits.trans_lt wide.2.1)
    (right.txPathFits.trans_lt wide.2.1) behindChunk
  obtain ⟨rfl, last⟩ := frame_append_inj (left.dataPathFits.trans_lt wide.2.1)
    (right.dataPathFits.trans_lt wide.2.1) behindTx
  rw [← List.append_nil (frame 1 packing), ← List.append_nil (frame 1 packing')] at last
  obtain ⟨rfl, -⟩ := frame_append_inj (left.packingFits.trans_lt wide.2.2)
    (right.packingFits.trans_lt wide.2.2) last
  exact ⟨rfl, rfl, rfl, rfl⟩

theorem chunkPacking_sums (value : String) : Sums (ChunkPacking.parse value) := by
  have address (text : String) : Sums (decodeFixed 32 text "replica packing address") := by
    refine .bind (.bind (.context (by decide)) fun _ _ => .bind (.ensure (by decide)) fun _ _ =>
      .pure _) fun decoded _ => ?_
    split
    · exact .pure _
    · apply Sums.error
      intro last
      have digit : (Nat.toDigits 10 decoded.length).getLast? = some 'w' := by simpa using last
      have digit := List.mem_of_getLast? digit
      exact absurd (Nat.isDigit_of_mem_toDigits (by decide) (by decide) digit) (by decide)
  rw [ChunkPacking.parse]
  split
  · exact .pure _
  · split
    · exact .bind (.ensure (by decide)) fun _ _ => .bind (address _) fun _ _ => .pure _
    · exact .error (by decide)

theorem chunkField_sums {body : Bytes} {width limit cursor : Nat} (inside : cursor ≤ body.length)
    (small : body.length < 2 ^ 63) (narrow : width ≤ 7) (fits : limit < 2 ^ 62) :
    Sums (chunkField body width limit cursor) := by
  refine .bind (take_sums (by omega)) fun length taken => ?_
  have middle := (take_eq_ok_iff.mp taken).1.inside
  refine .bind (.ensure (by decide)) fun _ checked => ?_
  have bounded := Checked.ensure_eq_ok.mp checked
  exact take_sums (by omega)

theorem decodeBinaryChunk_sums {body : Bytes} (small : body.length < 2 ^ 63) :
    Sums (decodeBinaryChunk body) := by
  have step {width limit cursor next : Nat} {part : Bytes} (narrow : width ≤ 7)
      (fits : limit < 256 ^ width) (read : chunkField body width limit cursor = .ok (part, next)) :
      next ≤ body.length :=
    ((chunkField_eq_ok narrow fits).mp read).1.inside
  refine .bind (chunkField_sums (Nat.zero_le _) small (by decide) (by decide)) fun _ first => ?_
  have one := step (by decide) (by decide) first
  refine .bind (chunkField_sums one small (by decide) (by decide)) fun _ second => ?_
  have two := step (by decide) (by decide) second
  refine .bind (chunkField_sums two small (by decide) (by decide)) fun _ third => ?_
  have three := step (by decide) (by decide) third
  refine .bind (chunkField_sums three small (by decide) (by decide)) fun _ _ => ?_
  exact .bind (.context (by decide)) fun _ _ => .bind (chunkPacking_sums _) fun _ _ =>
    .bind (.ensure (by decide)) fun _ _ => .pure _

/-- The block index is decoded exactly from the bytes of records, one after another, in which the
records are told apart; inputs that are accepted are accepted together, and `n` entries take at most
`99 n` bytes.  A chunk is decoded exactly from its four fields, of which the bytes have one
reading.  No sum of a place and a length leaves the range of a word, as no slice has `2 ^ 63` bytes
or more. -/
theorem binary_decoders_frame (bytes : Bytes) (small : bytes.length < 2 ^ 63) :
    (∀ entries, decodeBlockIndex bytes (bytes.length + 1) 0 = .ok entries ↔
      ∃ records : List BlockIndexRecord, bytes = records.flatMap BlockIndexRecord.bytes ∧
        (∀ others, bytes = others.flatMap BlockIndexRecord.bytes → others = records) ∧
        records.map BlockIndexRecord.entry = entries) ∧
    (∀ more entries others, (bytes ++ more).length < 2 ^ 63 →
      decodeBlockIndex bytes (bytes.length + 1) 0 = .ok entries →
      decodeBlockIndex more (more.length + 1) 0 = .ok others →
      decodeBlockIndex (bytes ++ more) ((bytes ++ more).length + 1) 0 = .ok (entries ++ others)) ∧
    (∀ entries, decodeBlockIndex bytes (bytes.length + 1) 0 = .ok entries →
      bytes.length ≤ 99 * entries.length) ∧
    (∀ result, decodeBinaryChunk bytes = .ok result ↔ ∃ packing,
      bytes = chunkFrames result.chunk result.txPath result.dataPath packing ∧
        ChunkFields result.chunk result.txPath result.dataPath packing result.packing ∧
        ∀ chunk txPath dataPath packing' parsed,
          bytes = chunkFrames chunk txPath dataPath packing' →
          ChunkFields chunk txPath dataPath packing' parsed →
          chunk = result.chunk ∧ txPath = result.txPath ∧ dataPath = result.dataPath ∧
            packing' = packing) ∧
    Sums (decodeBlockIndex bytes (bytes.length + 1) 0) ∧ Sums (decodeBinaryChunk bytes) := by
  have decodes {input : Bytes} {entries : List TrustedBlockIndexEntry}
      (short : input.length < 2 ^ 63) :
      decodeBlockIndex input (input.length + 1) 0 = .ok entries ↔
        ∃ records : List BlockIndexRecord, input = records.flatMap BlockIndexRecord.bytes ∧
          records.map BlockIndexRecord.entry = entries := by
    rw [decodeBlockIndex_eq_ok (by omega) (Nat.zero_le _) (by omega)]
    simp only [Segment.whole_iff (show input.length < 2 ^ 64 by omega), eq_comm]
  refine ⟨fun entries => ?_, ?_, ?_, fun result => ?_, decodeBlockIndex_sums (Nat.zero_le _) small,
    decodeBinaryChunk_sums small⟩
  · rw [decodes small]
    constructor
    · rintro ⟨records, framed, rfl⟩
      exact ⟨records, framed, fun others same =>
        BlockIndexRecord.flatMap_bytes_inj (same.symm.trans framed), rfl⟩
    · rintro ⟨records, framed, -, rfl⟩
      exact ⟨records, framed, rfl⟩
  · intro more entries others short decoded otherDecoded
    rw [List.length_append] at short
    obtain ⟨records, framed, rfl⟩ := (decodes small).mp decoded
    obtain ⟨moreRecords, moreFramed, rfl⟩ :=
      (decodes (show more.length < 2 ^ 63 by omega)).mp otherDecoded
    apply (decodes (by rwa [List.length_append])).mpr
    exact ⟨records ++ moreRecords, by rw [List.flatMap_append, ← framed, ← moreFramed],
      List.map_append⟩
  · intro entries decoded
    obtain ⟨records, framed, rfl⟩ := (decodes small).mp decoded
    have width := BlockIndexRecord.length_flatMap_le records
    rw [← framed] at width
    rw [List.length_map, Nat.mul_comm]
    exact width
  · rw [decodeBinaryChunk_eq_ok (by omega)]
    constructor
    · rintro ⟨packing, framed, fields⟩
      refine ⟨packing, framed, fields, ?_⟩
      intro chunk txPath dataPath packing' parsed same others
      exact chunkFrames_inj others fields (same.symm.trans framed)
    · rintro ⟨packing, framed, fields, -⟩
      exact ⟨packing, framed, fields⟩

/-- A record with a weave size of two bytes and without a root. -/
def plainRecord : BlockIndexRecord where
  hash := ⟨List.replicate 48 7, by decide⟩
  weaveSize := [1, 0]
  txRoot := []
  short := by decide
  rooted := .inl rfl

/-- The record twice. -/
theorem binary_decoders_frame_sample :
    decodeBlockIndex (plainRecord.bytes ++ plainRecord.bytes) 107 0 =
      .ok [plainRecord.entry, plainRecord.entry] := by
  have frames := binary_decoders_frame plainRecord.bytes (by decide)
  have once : decodeBlockIndex plainRecord.bytes (plainRecord.bytes.length + 1) 0 =
      .ok [plainRecord.entry] := by
    apply (frames.1 _).mpr
    refine ⟨[plainRecord], rfl, fun others same => ?_, rfl⟩
    exact (BlockIndexRecord.flatMap_bytes_inj (same.symm.trans rfl))
  exact frames.2.1 plainRecord.bytes _ _ (by decide) once once

end ArIoGateway
