import ArIoGateway.AvroTags
import ArIoGateway.Foundation.Bisection
import ArIoGateway.Streaming

/-!
# The block of a chunk

The block that holds a chunk is found by the chunk's offset in the weave: in the stored block index,
or else by bisection over the block index of a trusted node.
-/

namespace ArIoGateway

open Octets

def consensusDepth : Nat := 50
def maxBlockIndexBytes : Nat := 256 * 99

structure TrustedBlockIndexEntry where
  hash : String
  txRoot : String
  weaveSize : Nat

/-- One entry of the block index at a cursor. -/
def decodeBlockIndexEntry (bytes : Bytes) (cursor : Nat) :
    Checked (TrustedBlockIndexEntry × Nat) := do
  let (hash, cursor) ← take bytes cursor 48 "block hash"
  let (length, cursor) ← take bytes cursor 2 "weave size length"
  let weaveSizeLength := ofBigEndian length
  Checked.ensure (weaveSizeLength ≤ 16) "block weave size exceeds u128"
  let (weaveSize, cursor) ← take bytes cursor weaveSizeLength "block weave size"
  let (rootLength, cursor) ← take bytes cursor 1 "tx_root length"
  let txRootLength := ofBigEndian rootLength
  Checked.ensure (txRootLength = 0 ∨ txRootLength = 32) "invalid block tx_root length"
  let (txRoot, cursor) ← take bytes cursor txRootLength "block tx_root"
  pure (⟨base64Text hash, base64Text txRoot, ofBigEndian weaveSize⟩, cursor)

/-- `decode_block_index` from a cursor on; every entry takes bytes, so that `rounds` rounds are
enough for as many bytes. -/
def decodeBlockIndex (bytes : Bytes) : (rounds cursor : Nat) → Checked (List TrustedBlockIndexEntry)
  | 0, _ => .error "block index does not end"
  | rounds + 1, cursor =>
      if cursor < bytes.length then do
        let (entry, cursor) ← decodeBlockIndexEntry bytes cursor
        let entries ← decodeBlockIndex bytes rounds cursor
        pure (entry :: entries)
      else pure []

/-- A successful response: the announced length and the body as it arrives. -/
structure IndexResponse where
  contentLength : Option Nat
  chunks : List Bytes

/-- What a trusted node answers: its height, and the block index between two heights, where a
request or its status may fail. -/
structure TrustedNode where
  info : Checked Nat
  blockIndex : (start finish : Nat) → Option IndexResponse

/-- Collect a body under a limit. -/
def readIndexBody (byteLimit : Nat) (chunks : List Bytes) : Checked Bytes :=
  chunks.foldlM (fun body chunk => do
    Checked.ensure (min (body.length + chunk.length) (2 ^ 64 - 1) ≤ byteLimit)
      "trusted block index response exceeds size limit"
    pure (body ++ chunk)) []

/-- `trusted_block_index`. -/
def trustedBlockIndex (node : TrustedNode) (start finish : Nat) :
    Checked (Option (List TrustedBlockIndexEntry)) := do
  Checked.ensure (start ≤ finish ∧ finish - start + 1 < 2 ^ 64) "invalid block index range"
  let expected := finish - start + 1
  Checked.ensure (expected ≤ 256) "block index range exceeds 256 entries"
  let byteLimit := expected * 99
  match node.blockIndex start finish with
  | none => pure none
  | some response => do
      Checked.ensure (∀ length ∈ response.contentLength, length ≤ min byteLimit maxBlockIndexBytes)
        "trusted block index response exceeds size limit"
      let body ← readIndexBody byteLimit response.chunks
      let entries ← decodeBlockIndex body (body.length + 1) 0
      Checked.ensure (entries.length = expected) "trusted block index returned incomplete geometry"
      pure (some entries)

/-- The entry at an index; the index is in range where the lengths are as expected. -/
def entryAt (entries : List TrustedBlockIndexEntry) (index : Nat) :
    Checked TrustedBlockIndexEntry :=
  Checked.context entries[index]? "index out of bounds"

/-- A row of the blocks. -/
structure IndexBlock where
  height : Nat
  hash : Bytes
  previousHash : Option Bytes
  txRoot : Bytes
  weaveSize : Nat
deriving DecidableEq

/-- The heights of the stored index; nothing is imported at first. -/
structure BlockIndexState where
  startHeight : Nat
  importedThrough : Option Nat

/-- The tables of the block index.  Hashes are the key of the blocks. -/
structure BlockTables where
  blocks : List IndexBlock
  canonicalBlocks : Nat → Option Bytes
  state : Option BlockIndexState
  key : (blocks.map IndexBlock.hash).Nodup

namespace BlockTables

/-- The canonical predecessor of a canonical block in the imported range that ends before an
offset. -/
def predecessors (tables : BlockTables) (offset : Nat) (block : IndexBlock) : List IndexBlock :=
  match tables.state with
  | none => []
  | some state =>
      tables.blocks.filter fun previous => decide
        (tables.canonicalBlocks block.height = some block.hash ∧
          state.startHeight < block.height ∧ (∃ through ∈ state.importedThrough,
            block.height ≤ through) ∧
          previous.height = block.height - 1 ∧
          tables.canonicalBlocks (block.height - 1) = some previous.hash ∧
          block.previousHash = some previous.hash ∧ previous.weaveSize < offset)

/-- The rows of the query by weave size and height. -/
def offsetRows (tables : BlockTables) (offset : Nat) : List (IndexBlock × IndexBlock) :=
  ((tables.blocks.filter fun block => decide (offset ≤ block.weaveSize)).flatMap fun block =>
    (tables.predecessors offset block).map fun previous => (previous, block)).insertionSort
      fun left right => left.2.weaveSize < right.2.weaveSize ∨
        left.2.weaveSize = right.2.weaveSize ∧ left.2.height ≤ right.2.height

/-- `block_for_offset`. -/
def blockForOffset (tables : BlockTables) (offset : Nat) : Option (IndexBlock × IndexBlock) :=
  if offset = 0 then none else (tables.offsetRows offset).head?

theorem mem_offsetRows {tables : BlockTables} {offset : Nat} {pair : IndexBlock × IndexBlock} :
    pair ∈ tables.offsetRows offset ↔ pair.2 ∈ tables.blocks ∧ offset ≤ pair.2.weaveSize ∧
      pair.1 ∈ tables.predecessors offset pair.2 := by
  rw [offsetRows, (List.perm_insertionSort _ _).mem_iff, List.mem_flatMap]
  constructor
  · rintro ⟨block, member, isPair⟩
    obtain ⟨isBlock, reached⟩ := List.mem_filter.mp member
    obtain ⟨previous, isPrevious, rfl⟩ := List.mem_map.mp isPair
    exact ⟨isBlock, of_decide_eq_true reached, isPrevious⟩
  · rintro ⟨isBlock, reached, isPrevious⟩
    exact ⟨pair.2, List.mem_filter.mpr ⟨isBlock, decide_eq_true reached⟩,
      List.mem_map.mpr ⟨pair.1, isPrevious, rfl⟩⟩

end BlockTables

/-- The anchor from the stored block index. -/
def storedAnchor (offset : Nat) (previous block : IndexBlock) :
    Checked (Option (BlockGeometry × Nat)) := do
  Checked.ensure (previous.weaveSize < offset ∧ offset ≤ block.weaveSize)
    "stored block index returned inconsistent offset geometry"
  if rooted : block.txRoot.length = 32 then
    pure (some (⟨⟨block.txRoot, rooted⟩, block.weaveSize, previous.weaveSize⟩, block.height))
  else .error "invalid stored tx_root"

/-- Whether the block of a height ends at an offset or behind it. -/
def reaches (node : TrustedNode) (offset height : Nat) : Checked Bool := do
  let found ← trustedBlockIndex node height height
  let entries ← Checked.context found "trusted chunk search anchor is unavailable"
  let entry ← entryAt entries 0
  pure (decide (offset ≤ entry.weaveSize))

/-- The anchor at the height that the bisection has found. -/
def anchorAt (node : TrustedNode) (offset low : Nat) :
    Checked (Option (BlockGeometry × Nat)) := do
  let (start, blockIndex) := if low = 0 then (0, 0) else (low - 1, 1)
  let found ← trustedBlockIndex node start low
  let entries ← Checked.context found "trusted chunk anchor is unavailable"
  let block ← entryAt entries blockIndex
  let first ← entryAt entries 0
  let previousWeaveSize := if low = 0 then 0 else first.weaveSize
  Checked.ensure (previousWeaveSize < offset ∧ offset ≤ block.weaveSize)
    "trusted block index returned inconsistent offset geometry"
  let txRoot ← decodeFixed 32 block.txRoot "block tx_root"
  pure (some (⟨txRoot, block.weaveSize, previousWeaveSize⟩, low))

/-- The search over the block index of the node. -/
def nodeAnchor (node : TrustedNode) (offset : Nat) : Checked (Option (BlockGeometry × Nat)) := do
  let height ← node.info
  if height < consensusDepth then pure none
  else do
    let stableHeight := height - consensusDepth
    let found ← trustedBlockIndex node stableHeight stableHeight
    let tip ← Checked.context found "trusted stable chunk anchor is unavailable"
    let entry ← entryAt tip 0
    if entry.weaveSize < offset then pure none
    else do
      let low ← Bisection.search (reaches node offset) 0 stableHeight
      anchorAt node offset low

/-- `trusted_chunk_anchor`. -/
def trustedChunkAnchor (store : Option BlockTables) (node : TrustedNode) (offset : Nat) :
    Checked (Option (BlockGeometry × Nat)) :=
  if offset = 0 then pure none
  else
    match store.bind fun tables => tables.blockForOffset offset with
    | some (previous, block) => storedAnchor offset previous block
    | none => nodeAnchor node offset

/-- The blocks of a chain by height. -/
structure WeaveChain where
  hash : Nat → FixedBytes 48
  txRoot : Nat → Bytes
  weaveSize : Nat → Nat
  rootSize : ∀ height, (txRoot height).length = 0 ∨ (txRoot height).length = 32
  monotone : Monotone weaveSize

namespace WeaveChain

/-- The encodings of a block in the block index; the weave size may be padded. -/
def Encodes (chain : WeaveChain) (height : Nat) (bytes : Bytes) : Prop :=
  ∃ weave : Bytes, weave.length ≤ 16 ∧ ofBigEndian weave = chain.weaveSize height ∧
    bytes = (chain.hash height).val ++ bigEndian 2 weave.length ++ weave ++
      bigEndian 1 (chain.txRoot height).length ++ chain.txRoot height

/-- The encodings of a number of blocks from a height on. -/
inductive EncodesRange (chain : WeaveChain) : (start count : Nat) → Bytes → Prop
  | nil {start} : EncodesRange chain start 0 []
  | cons {start count part rest} : chain.Encodes start part →
      EncodesRange chain (start + 1) count rest → EncodesRange chain start (count + 1) (part ++ rest)

/-- What the block index of a node lists for a height. -/
def entry (chain : WeaveChain) (height : Nat) : TrustedBlockIndexEntry :=
  ⟨base64Text (chain.hash height).val, base64Text (chain.txRoot height), chain.weaveSize height⟩

/-- Where the block of a height starts in the weave. -/
def previousWeaveSize (chain : WeaveChain) (height : Nat) : Nat :=
  if height = 0 then 0 else chain.weaveSize (height - 1)

/-- The least height whose block ends at an offset or behind it. -/
def Holds (chain : WeaveChain) (offset height : Nat) : Prop :=
  IsLeast {height | offset ≤ chain.weaveSize height} height

/-- The geometry of a block; a block without data has no root. -/
def geometry (chain : WeaveChain) (height : Nat) : Checked BlockGeometry :=
  if rooted : (chain.txRoot height).length = 32 then
    .ok ⟨⟨chain.txRoot height, rooted⟩, chain.weaveSize height, chain.previousWeaveSize height⟩
  else .error s!"invalid block tx_root length: {(chain.txRoot height).length}"

end WeaveChain

/-- A node that answers from a chain up to its tip. -/
structure TrustedNode.Serves (node : TrustedNode) (chain : WeaveChain) (tip : Nat) : Prop where
  info : node.info = .ok tip
  word : tip < 2 ^ 64
  range : ∀ start finish, start ≤ finish → finish ≤ tip → finish - start < 256 →
    ∃ response, node.blockIndex start finish = some response ∧
      (∀ length ∈ response.contentLength, length = response.chunks.flatten.length) ∧
      chain.EncodesRange start (finish - start + 1) response.chunks.flatten

section Serving

variable {chain : WeaveChain} {node : TrustedNode} {tip : Nat}

theorem WeaveChain.Encodes.length_le {height : Nat} {bytes : Bytes}
    (encodes : chain.Encodes height bytes) : 51 ≤ bytes.length ∧ bytes.length ≤ 99 := by
  obtain ⟨weave, short, _, rfl⟩ := encodes
  have root := chain.rootSize height
  have hash := (chain.hash height).property
  simp only [List.length_append, length_bigEndian]
  omega

theorem WeaveChain.EncodesRange.length_le {start count : Nat} {bytes : Bytes}
    (encodes : chain.EncodesRange start count bytes) : bytes.length ≤ count * 99 := by
  induction encodes with
  | nil => exact Nat.zero_le _
  | cons first _ induction =>
      have width := first.length_le
      rw [List.length_append]
      omega

theorem decodeBlockIndexEntry_of_encodes {bytes part : Bytes} {height cursor next : Nat}
    (encodes : chain.Encodes height part) (segment : Segment bytes cursor part next) :
    decodeBlockIndexEntry bytes cursor = .ok (chain.entry height, next) := by
  obtain ⟨weave, short, value, rfl⟩ := encodes
  have root := chain.rootSize height
  obtain ⟨_, segment, fifth⟩ := segment.split
  obtain ⟨_, segment, fourth⟩ := segment.split
  obtain ⟨_, segment, third⟩ := segment.split
  obtain ⟨_, first, second⟩ := segment.split
  have weaveLength : ofBigEndian (bigEndian 2 weave.length) = weave.length :=
    ofBigEndian_bigEndian (by omega)
  have rootLength : ofBigEndian (bigEndian 1 (chain.txRoot height).length) =
      (chain.txRoot height).length := ofBigEndian_bigEndian (by omega)
  rw [decodeBlockIndexEntry, take_eq_ok_iff.mpr ⟨first, (chain.hash height).property⟩,
    Checked.ok_bind]
  simp only [take_eq_ok_iff.mpr ⟨second, length_bigEndian 2 _⟩, Checked.ok_bind, weaveLength,
    Checked.ensure_of short, take_eq_ok_iff.mpr ⟨third, rfl⟩,
    take_eq_ok_iff.mpr ⟨fourth, length_bigEndian 1 _⟩, rootLength, Checked.ensure_of root,
    take_eq_ok_iff.mpr ⟨fifth, rfl⟩, value]
  rfl

theorem decodeBlockIndex_of_encodes {bytes rest : Bytes} {start count rounds cursor : Nat}
    (encodes : chain.EncodesRange start count rest)
    (segment : Segment bytes cursor rest bytes.length) (enough : bytes.length - cursor < rounds) :
    decodeBlockIndex bytes rounds cursor = .ok ((List.range' start count).map chain.entry) := by
  induction encodes generalizing rounds cursor with
  | nil =>
      obtain ⟨rounds, rfl⟩ : ∃ before, rounds = before + 1 := ⟨rounds - 1, by omega⟩
      have finish := segment.length
      rw [decodeBlockIndex, if_neg (by rw [← finish]; exact Nat.lt_irrefl _)]
      rfl
  | @cons start count part rest first _ induction =>
      obtain ⟨rounds, rfl⟩ : ∃ before, rounds = before + 1 := ⟨rounds - 1, by omega⟩
      obtain ⟨middle, head, tail⟩ := segment.split
      have width := first.length_le
      have moved := head.length
      have inside := head.inside
      rw [decodeBlockIndex, if_pos (by omega), decodeBlockIndexEntry_of_encodes first head,
        Checked.ok_bind]
      have later : decodeBlockIndex bytes rounds middle =
        .ok ((List.range' (start + 1) count).map chain.entry) := induction tail (by omega)
      simp only [later, Checked.ok_bind]
      rfl

theorem readIndexBody_of_le {byteLimit : Nat} {chunks : List Bytes}
    (small : chunks.flatten.length ≤ byteLimit) :
    readIndexBody byteLimit chunks = .ok chunks.flatten := by
  have from_ (body : Bytes) (chunks : List Bytes)
      (small : body.length + chunks.flatten.length ≤ byteLimit) :
      chunks.foldlM (fun body chunk => do
        Checked.ensure (min (body.length + chunk.length) (2 ^ 64 - 1) ≤ byteLimit)
          "trusted block index response exceeds size limit"
        pure (body ++ chunk)) body = .ok (body ++ chunks.flatten) := by
    induction chunks generalizing body with
    | nil =>
        rw [List.flatten_nil, List.append_nil]
        rfl
    | cons chunk chunks induction =>
        rw [List.flatten_cons, List.length_append] at small
        rw [List.foldlM_cons, Checked.ensure_of (by omega), Checked.ok_bind, pure_bind,
          induction _ (by rw [List.length_append]; omega), List.flatten_cons, List.append_assoc]
  exact from_ [] chunks (by simpa using small)

/-- A node that serves a chain lists its blocks. -/
theorem trustedBlockIndex_of_serves (serves : node.Serves chain tip) {start finish : Nat}
    (order : start ≤ finish) (stable : finish ≤ tip) (few : finish - start < 256) :
    trustedBlockIndex node start finish =
      .ok (some ((List.range' start (finish - start + 1)).map chain.entry)) := by
  obtain ⟨response, answered, announced, encodes⟩ := serves.range start finish order stable few
  have small := encodes.length_le
  rw [trustedBlockIndex, Checked.ensure_of (by omega), Checked.ok_bind]
  dsimp only
  rw [Checked.ensure_of (by omega), Checked.ok_bind, answered]
  have limits : ∀ length ∈ response.contentLength,
      length ≤ min ((finish - start + 1) * 99) maxBlockIndexBytes := by
    intro length member
    rw [announced length member, maxBlockIndexBytes]
    omega
  have whole := (@Segment.whole_iff response.chunks.flatten _ (by omega)).mpr rfl
  have decoded : decodeBlockIndex response.chunks.flatten (response.chunks.flatten.length + 1) 0 =
      .ok ((List.range' start (finish - start + 1)).map chain.entry) :=
    decodeBlockIndex_of_encodes encodes whole (Nat.lt_succ_self _)
  simp only [Checked.ensure_of limits, Checked.ok_bind, readIndexBody_of_le small, decoded]
  rw [Checked.ensure_of (by simp), Checked.ok_bind]
  rfl

theorem reaches_of_serves (serves : node.Serves chain tip) (offset : Nat) {height : Nat}
    (stable : height ≤ tip) :
    reaches node offset height = .ok (decide (offset ≤ chain.weaveSize height)) := by
  rw [reaches, trustedBlockIndex_of_serves serves le_rfl stable (by omega), Checked.ok_bind,
    Nat.sub_self]
  rfl

theorem decodeFixed_of_base64Text (bytes : Bytes) (width : Nat) (label : String) :
    decodeFixed width (base64Text bytes) label =
      if fits : bytes.length = width then .ok ⟨bytes, fits⟩
      else .error s!"invalid {label} length: {bytes.length}" := by
  have decoded : decodeB64 (base64Text bytes) label = .ok bytes := by
    rw [decodeB64, utf8_base64Text, base64Decode_base64Encode, Checked.context, Checked.ok_bind,
      Checked.ensure_of rfl]
    rfl
  rw [decodeFixed, decoded]
  rfl

/-- The least height of an offset starts before the offset. -/
theorem WeaveChain.Holds.previous_lt {offset height : Nat} (least : chain.Holds offset height)
    (positive : 0 < offset) : chain.previousWeaveSize height < offset := by
  rw [previousWeaveSize]
  split
  · exact positive
  · rename_i nonzero
    refine Nat.lt_of_not_le fun reached => ?_
    have above : height ≤ height - 1 := least.2 reached
    omega

/-- At the least height the check of the bounds never fails. -/
theorem anchorAt_of_serves (serves : node.Serves chain tip) {offset height : Nat}
    (positive : 0 < offset) (stable : height ≤ tip) (least : chain.Holds offset height) :
    anchorAt node offset height =
      (chain.geometry height).map fun geometry => some (geometry, height) := by
  have before := least.previous_lt positive
  have reached : offset ≤ chain.weaveSize height := least.1
  have geometry : (chain.geometry height).map (fun geometry => some (geometry, height)) =
      (decodeFixed 32 (base64Text (chain.txRoot height)) "block tx_root" >>= fun txRoot =>
        pure (some (⟨txRoot, chain.weaveSize height, chain.previousWeaveSize height⟩, height))) := by
    rw [decodeFixed_of_base64Text, WeaveChain.geometry]
    split <;> rfl
  rw [geometry, anchorAt]
  cases height with
  | zero =>
      rw [if_pos rfl]
      dsimp only
      rw [trustedBlockIndex_of_serves serves le_rfl stable (by omega), Checked.ok_bind]
      have entries : (List.range' 0 (0 - 0 + 1)).map chain.entry = [chain.entry 0] := rfl
      have block : entryAt [chain.entry 0] 0 = .ok (chain.entry 0) := rfl
      simp only [entries, Checked.context, block, Checked.ok_bind, if_pos]
      rw [Checked.ensure_of ⟨positive, reached⟩, Checked.ok_bind]
      rfl
  | succ height =>
      rw [if_neg (Nat.succ_ne_zero height), Nat.add_sub_cancel]
      dsimp only
      rw [trustedBlockIndex_of_serves serves (Nat.le_succ height) stable (by omega), Checked.ok_bind,
        Nat.succ_sub (Nat.le_refl height), Nat.sub_self]
      have entries : (List.range' height (0 + 1 + 1)).map chain.entry =
        [chain.entry height, chain.entry (height + 1)] := rfl
      have block : entryAt [chain.entry height, chain.entry (height + 1)] 1 =
        .ok (chain.entry (height + 1)) := rfl
      have first : entryAt [chain.entry height, chain.entry (height + 1)] 0 =
        .ok (chain.entry height) := rfl
      simp only [entries, Checked.context, block, first, Checked.ok_bind]
      rw [if_neg (Nat.succ_ne_zero height), Checked.ensure_of ⟨before, reached⟩, Checked.ok_bind]
      rfl

end Serving

/-- The search over the index of a node ends at the least height. -/
theorem nodeAnchor_of_serves {chain : WeaveChain} {node : TrustedNode} {tip offset : Nat}
    (serves : node.Serves chain tip) (positive : 0 < offset) (deep : consensusDepth ≤ tip)
    (covered : offset ≤ chain.weaveSize (tip - consensusDepth)) :
    ∃ height ≤ tip - consensusDepth, chain.Holds offset height ∧
      nodeAnchor node offset =
        (chain.geometry height).map fun geometry => some (geometry, height) := by
  obtain ⟨height, found, stable, least⟩ := Bisection.search_eq_ok (Nat.zero_le _)
    (fun number _ inside => reaches_of_serves serves offset
      (inside.trans (Nat.sub_le tip consensusDepth)))
    (fun first second order reached => reached.trans (chain.monotone order)) covered nofun
  refine ⟨height, stable, least, ?_⟩
  have entries : (List.range' (tip - consensusDepth)
      (tip - consensusDepth - (tip - consensusDepth) + 1)).map chain.entry =
        [chain.entry (tip - consensusDepth)] := by
    rw [Nat.sub_self]
    rfl
  have first : entryAt [chain.entry (tip - consensusDepth)] 0 =
    .ok (chain.entry (tip - consensusDepth)) := rfl
  rw [nodeAnchor, serves.info, Checked.ok_bind, if_neg (Nat.not_lt_of_le deep)]
  dsimp only
  rw [trustedBlockIndex_of_serves serves le_rfl (Nat.sub_le tip consensusDepth) (by omega),
    Checked.ok_bind, entries]
  simp only [Checked.context, Checked.ok_bind, first]
  rw [if_neg (show ¬(chain.entry (tip - consensusDepth)).weaveSize < offset from
    Nat.not_lt_of_le covered), found, Checked.ok_bind]
  exact anchorAt_of_serves serves positive (stable.trans (Nat.sub_le tip consensusDepth)) least

/-- The row of a block of a chain. -/
structure WeaveChain.Row (chain : WeaveChain) (place : Nat) (block : IndexBlock) : Prop where
  height : block.height = place
  hash : block.hash = (chain.hash place).val
  txRoot : block.txRoot = chain.txRoot place
  weaveSize : block.weaveSize = chain.weaveSize place

/-- Tables that hold the blocks of a chain from a start on; blocks beside the chain may be stored as
well. -/
structure BlockTables.Stores (tables : BlockTables) (chain : WeaveChain)
    (start through : Nat) : Prop where
  state : tables.state = some ⟨start, some through⟩
  canonical : ∀ height, start ≤ height → height ≤ through →
    tables.canonicalBlocks height = some (chain.hash height).val
  rows : ∀ height, start ≤ height → height ≤ through → ∃ block ∈ tables.blocks,
    chain.Row height block ∧
      (start < height → block.previousHash = some (chain.hash (height - 1)).val)

theorem BlockTables.eq_of_hash {tables : BlockTables} {first second : IndexBlock}
    (isFirst : first ∈ tables.blocks) (isSecond : second ∈ tables.blocks)
    (same : first.hash = second.hash) : first = second :=
  List.inj_on_of_nodup_map tables.key isFirst isSecond same

/-- The rows of a query are the blocks of the chain around the offset. -/
theorem BlockTables.row_of_stores {tables : BlockTables} {chain : WeaveChain}
    {start through offset height : Nat} (stores : tables.Stores chain start through)
    (least : chain.Holds offset height) {previous block : IndexBlock}
    (isBlock : block ∈ tables.blocks) (reached : offset ≤ block.weaveSize)
    (isPrevious : previous ∈ tables.predecessors offset block) :
    (start < height ∧ height ≤ through) ∧ chain.Row height block ∧
      chain.Row (height - 1) previous := by
  rw [predecessors, stores.state] at isPrevious
  obtain ⟨stored, facts⟩ := List.mem_filter.mp isPrevious
  obtain ⟨canonical, above, ⟨_, ⟨⟩, inside⟩, _, canonicalPrevious, _, before⟩ :=
    of_decide_eq_true facts
  have later : start < block.height := above
  obtain ⟨row, isRow, isChain, _⟩ := stores.rows block.height above.le inside
  obtain ⟨previousRow, isPreviousRow, isPreviousChain, _⟩ :=
    stores.rows (block.height - 1) (by omega) (by omega)
  have blockHash := stores.canonical block.height above.le inside
  rw [canonical] at blockHash
  have previousHash := stores.canonical (block.height - 1) (by omega) (by omega)
  rw [canonicalPrevious] at previousHash
  obtain rfl : block = row := tables.eq_of_hash isBlock isRow
    ((Option.some.inj blockHash).trans isChain.hash.symm)
  obtain rfl : previous = previousRow := tables.eq_of_hash stored isPreviousRow
    ((Option.some.inj previousHash).trans isPreviousChain.hash.symm)
  have same : height = block.height := by
    refine le_antisymm (least.2 ?_) (Nat.le_of_not_lt fun less => ?_)
    · show offset ≤ chain.weaveSize block.height
      rw [← isChain.weaveSize]
      exact reached
    · have order := chain.monotone (show height ≤ block.height - 1 by omega)
      have holds : offset ≤ chain.weaveSize height := least.1
      rw [isPreviousChain.weaveSize] at before
      omega
  rw [same]
  exact ⟨⟨above, inside⟩, isChain, isPreviousChain⟩

/-- The stored index finds the block of an offset and its predecessor exactly in its range. -/
theorem BlockTables.blockForOffset_of_stores {tables : BlockTables} {chain : WeaveChain}
    {start through offset height : Nat} (stores : tables.Stores chain start through)
    (positive : 0 < offset) (least : chain.Holds offset height) :
    (start < height → height ≤ through → ∃ previous block,
      tables.blockForOffset offset = some (previous, block) ∧
        chain.Row (height - 1) previous ∧ chain.Row height block) ∧
    (¬(start < height ∧ height ≤ through) → tables.blockForOffset offset = none) := by
  rw [blockForOffset, if_neg (by omega)]
  have facts (pair : IndexBlock × IndexBlock) (member : pair ∈ tables.offsetRows offset) :
      (start < height ∧ height ≤ through) ∧ chain.Row height pair.2 ∧
        chain.Row (height - 1) pair.1 := by
    obtain ⟨isBlock, reached, isPrevious⟩ := mem_offsetRows.mp member
    exact row_of_stores stores least isBlock reached isPrevious
  refine ⟨fun above inside => ?_, fun outside => ?_⟩
  · obtain ⟨block, isBlock, isChain, linked⟩ := stores.rows height above.le inside
    obtain ⟨previous, stored, isPrevious, _⟩ := stores.rows (height - 1) (by omega) (by omega)
    have member : (previous, block) ∈ tables.offsetRows offset := by
      refine mem_offsetRows.mpr ⟨isBlock, isChain.weaveSize ▸ least.1, ?_⟩
      rw [predecessors, stores.state]
      refine List.mem_filter.mpr ⟨stored, decide_eq_true ?_⟩
      rw [isChain.height, isChain.hash, isPrevious.height, isPrevious.hash, isPrevious.weaveSize]
      refine ⟨stores.canonical height above.le inside, above, ⟨through, rfl, inside⟩, rfl,
        stores.canonical (height - 1) (by omega) (by omega), linked above, ?_⟩
      have before := least.previous_lt positive
      rwa [WeaveChain.previousWeaveSize, if_neg (by omega)] at before
    cases rows : tables.offsetRows offset with
    | nil =>
        rw [rows] at member
        cases member
    | cons first rest =>
        rw [rows] at facts
        obtain ⟨_, isBlock, isPrevious⟩ := facts first List.mem_cons_self
        exact ⟨first.1, first.2, rfl, isPrevious, isBlock⟩
  · cases rows : tables.offsetRows offset with
    | nil => rfl
    | cons first rest =>
        rw [rows] at facts
        exact absurd (facts first List.mem_cons_self).1 outside

/-- The search for the block of a chunk: over the index of a node that serves a chain it ends at the
least height that reaches the offset, its last check never fails, and a stored index of the chain
answers the same, with the block of that height and its predecessor where it has both. -/
theorem chunk_anchor_search (chain : WeaveChain) (node : TrustedNode) (tip offset : Nat)
    (serves : node.Serves chain tip) (positive : 0 < offset) (deep : consensusDepth ≤ tip)
    (covered : offset ≤ chain.weaveSize (tip - consensusDepth)) :
    ∃ height ≤ tip - consensusDepth, chain.Holds offset height ∧
      trustedChunkAnchor none node offset =
        (chain.geometry height).map (fun geometry => some (geometry, height)) ∧
      ∀ tables start through, BlockTables.Stores tables chain start through →
        (start < height → height ≤ through → ∃ previous block,
          tables.blockForOffset offset = some (previous, block) ∧
            chain.Row (height - 1) previous ∧ chain.Row height block) ∧
        (trustedChunkAnchor (some tables) node offset).toOption =
          (trustedChunkAnchor none node offset).toOption := by
  obtain ⟨height, stable, least, anchored⟩ := nodeAnchor_of_serves serves positive deep covered
  have plain : trustedChunkAnchor none node offset = nodeAnchor node offset := by
    rw [trustedChunkAnchor, if_neg (by omega)]
    rfl
  refine ⟨height, stable, least, plain.trans anchored, fun tables start through stores => ?_⟩
  obtain ⟨inside, outside⟩ := BlockTables.blockForOffset_of_stores stores positive least
  refine ⟨inside, ?_⟩
  rw [plain, anchored, trustedChunkAnchor, if_neg (by omega)]
  by_cases covers : start < height ∧ height ≤ through
  · obtain ⟨previous, block, found, isPrevious, isBlock⟩ := inside covers.1 covers.2
    have before := least.previous_lt positive
    rw [WeaveChain.previousWeaveSize, if_neg (by omega)] at before
    have reached : offset ≤ chain.weaveSize height := least.1
    rw [Option.bind_some, found]
    dsimp only
    rw [storedAnchor, isPrevious.weaveSize, isBlock.weaveSize,
      Checked.ensure_of ⟨before, reached⟩, Checked.ok_bind, WeaveChain.geometry]
    simp only [isBlock.txRoot, isBlock.height]
    split
    · rw [WeaveChain.previousWeaveSize, if_neg (by omega)]
      rfl
    · rfl
  · rw [Option.bind_some, outside covers, ← anchored]

/-- Every other block of the sampled chain is empty. -/
def sampleChain : WeaveChain where
  hash := fun height => ⟨bigEndian 48 height, length_bigEndian 48 height⟩
  txRoot := fun height => bigEndian 32 height
  weaveSize := fun height => min (height / 2 * 100) 1000
  rootSize := fun height => .inr (length_bigEndian 32 height)
  monotone := fun first second order => by
    have halves : first / 2 * 100 ≤ second / 2 * 100 := by omega
    exact min_le_min_right 1000 halves

def sampleIndexEntry (height : Nat) : Bytes :=
  bigEndian 48 height ++ bigEndian 2 16 ++ bigEndian 16 (min (height / 2 * 100) 1000) ++
    bigEndian 1 32 ++ bigEndian 32 height

def sampleNode : TrustedNode where
  info := .ok 60
  blockIndex := fun start finish =>
    some ⟨none, (List.range' start (finish - start + 1)).map sampleIndexEntry⟩

theorem sampleChain_encodes (start count : Nat) :
    sampleChain.EncodesRange start count
      ((List.range' start count).map sampleIndexEntry).flatten := by
  induction count generalizing start with
  | zero => exact .nil
  | succ count induction =>
      rw [List.range'_succ, List.map_cons, List.flatten_cons]
      refine .cons ⟨bigEndian 16 (min (start / 2 * 100) 1000), ?_, ?_, ?_⟩ (induction (start + 1))
      · rw [length_bigEndian]
      · exact ofBigEndian_bigEndian (by omega)
      · simp only [length_bigEndian, sampleChain, sampleIndexEntry]

theorem sampleNode_serves : sampleNode.Serves sampleChain 60 where
  info := rfl
  word := by decide
  range := fun start finish _ _ _ => ⟨_, rfl, nofun, sampleChain_encodes start (finish - start + 1)⟩

/-- The rows of the chain from the third to the ninth block. -/
def sampleIndexBlock (height : Nat) : IndexBlock where
  height := height
  hash := (sampleChain.hash height).val
  previousHash := some (sampleChain.hash (height - 1)).val
  txRoot := sampleChain.txRoot height
  weaveSize := sampleChain.weaveSize height

def sampleTables : BlockTables where
  blocks := (List.range' 3 7).map sampleIndexBlock
  canonicalBlocks := fun height =>
    if 3 ≤ height ∧ height ≤ 9 then some (sampleChain.hash height).val else none
  state := some ⟨3, some 9⟩
  key := by decide +kernel

theorem sampleTables_stores : sampleTables.Stores sampleChain 3 9 where
  state := rfl
  canonical := fun _ above inside => if_pos ⟨above, inside⟩
  rows := fun height above inside =>
    ⟨sampleIndexBlock height, List.mem_map_of_mem (List.mem_range'_1.mpr (by omega)),
      ⟨rfl, rfl, rfl, rfl⟩, fun _ => rfl⟩

theorem chunk_anchor_search_sample :
    trustedChunkAnchor none sampleNode 250 =
        (sampleChain.geometry 6).map (fun geometry => some (geometry, 6)) ∧
      (∃ previous block, sampleTables.blockForOffset 250 = some (previous, block) ∧
        sampleChain.Row 5 previous ∧ sampleChain.Row 6 block) ∧
      (trustedChunkAnchor (some sampleTables) sampleNode 250).toOption =
        (trustedChunkAnchor none sampleNode 250).toOption := by
  obtain ⟨height, _, least, found, stored⟩ := chunk_anchor_search sampleChain sampleNode 60 250
    sampleNode_serves (by decide) (by decide) (by decide)
  have sixth : sampleChain.Holds 250 6 := by
    refine ⟨by decide, fun height reached => ?_⟩
    have reached : 250 ≤ min (height / 2 * 100) 1000 := reached
    omega
  obtain rfl : height = 6 := least.unique sixth
  obtain ⟨inside, same⟩ := stored sampleTables 3 9 sampleTables_stores
  exact ⟨found, inside (by decide) (by decide), same⟩

end ArIoGateway
