import ArIoGateway.QueryPlans

/-!
# GraphQL pages

Transactions and blocks are answered in pages.  Every row carries a cursor, and the page behind a
cursor is the one that a reader asks for next.
-/

namespace ArIoGateway

open Octets

/-- `Amount`. -/
structure Amount where
  winston : String
  ar : String
deriving DecidableEq

/-- `amount`. -/
def amount (winston : String) : Amount :=
  let digits := winston.toList
  let padded := List.replicate (13 - digits.length) '0' ++ digits
  let whole := padded.take (padded.length - 12)
  let fractional := padded.drop (padded.length - 12)
  let fractional := (fractional.reverse.dropWhile (· = '0')).reverse
  { winston
    ar := String.ofList (if fractional = [] then whole else whole ++ '.' :: fractional) }

/-- `Block`. -/
structure BlockNode where
  id : String
  timestamp : Nat
  height : Nat
  previous : String
deriving DecidableEq

/-- `Transaction`; the parent is `bundled_in` as well, and the tags are read separately. -/
structure TransactionNode where
  id : String
  anchor : String
  signature : String
  signatureType : Nat
  recipient : String
  ownerAddress : String
  ownerKey : Option String
  fee : Amount
  quantity : Amount
  dataSize : String
  contentType : Option String
  block : BlockNode
  parent : Option String
deriving DecidableEq

/-- `TransactionEdge` and `BlockEdge`. -/
structure Edge (ν : Type) where
  cursor : String
  node : ν
deriving DecidableEq

/-- `TransactionConnection` and `BlockConnection`. -/
structure Connection (ν : Type) where
  edges : List (Edge ν)
  hasNextPage : Bool
deriving DecidableEq

/-- `block_from_row`. -/
def blockFromRow (block : GraphqlBlock) : Checked BlockNode := do
  Checked.ensure (block.height.val < 2 ^ 31) "Block height exceeds GraphQL Int"
  let timestamp ← Checked.context block.timestamp "unexpected null"
  Checked.ensure (timestamp.val < 2 ^ 31) "Block timestamp exceeds GraphQL Int"
  pure
    { id := base64Text block.hash.val
      timestamp := timestamp.val
      height := block.height.val
      previous := (block.previousHash.map fun hash => base64Text hash.val).getD "" }

/-- `RequestDb::consume`. -/
def consume (remaining bytes : Nat) : Checked Nat := do
  Checked.ensure (bytes ≤ remaining) "GraphQL result exceeds size limit"
  pure (remaining - bytes)

/-- A row of the page with what is joined to it. -/
structure TransactionRow where
  placement : GraphqlPlacement
  object : GraphqlObject
  metadata : GraphqlMetadata
  block : GraphqlBlock
  owner : OwnerRow
  parent : Option GraphqlObject

/-- What is joined to a placement. -/
def GraphqlSnapshot.detail (snapshot : GraphqlSnapshot) (placement : GraphqlPlacement) :
    Option TransactionRow := do
  let object ← snapshot.objectAt placement.objectKey
  let metadata ← object.metadata
  let block ← snapshot.canonicalBlockAt placement.blockHeight
  let owner ← snapshot.ownerAt metadata.ownerAddress
  some { placement, object, metadata, block, owner
         parent := snapshot.parentOf placement.locationKey }

/-- The value of a cursor. -/
def cursorValue (height position : Nat) (kind : Bool) (id : FixedBytes 32) (indexedAt : Nat) :
    JsonValue :=
  .array [.number (decimalString height), .number (decimalString position), .bool kind,
    .string (base64Text id.val), .number (decimalString indexedAt)]

namespace TransactionRow

variable (row : TransactionRow)

def cursor : String :=
  encodeCursor (cursorValue row.placement.blockHeight row.placement.position
    (row.placement.kind = 1) row.object.id row.metadata.indexedAt)

/-- The bytes that a row takes of the size of the result. -/
def size : Nat :=
  (utf8 (base64Text row.metadata.signature)).length +
    ((row.owner.publicKey.map fun key => (utf8 (base64Text key)).length).getD 0) +
    ((row.metadata.contentType.map fun type => (utf8 type).length).getD 0) + 1024

def node : Checked TransactionNode := do
  let block ← blockFromRow row.block
  pure
    { id := base64Text row.object.id.val
      anchor := base64Text row.metadata.anchor
      signature := base64Text row.metadata.signature
      signatureType := row.metadata.signatureType
      recipient := base64Text row.metadata.target
      ownerAddress := base64Text row.metadata.ownerAddress
      ownerKey := row.owner.publicKey.map base64Text
      fee := amount (decimalString (row.metadata.reward.getD 0))
      quantity := amount (decimalString (row.metadata.quantity.getD 0))
      dataSize := decimalString row.metadata.dataSize
      contentType := row.metadata.contentType
      block := block
      parent := row.parent.map fun parent => base64Text parent.id.val }

def edge : Checked (Edge TransactionNode) := do
  let node ← row.node
  pure ⟨row.cursor, node⟩

end TransactionRow

/-- The loop over the rows: edges up to a number, and whether there is a row behind them. -/
def collectEdges : (first remaining : Nat) → List TransactionRow →
    Checked (List (Edge TransactionNode) × Bool)
  | _, _, [] => pure ([], false)
  | 0, _, _ :: _ => pure ([], true)
  | first + 1, remaining, row :: rows => do
      let remaining ← consume remaining row.size
      let edge ← row.edge
      let (edges, more) ← collectEdges first remaining rows
      pure (edge :: edges, more)

section Requests

variable (suite : HashSuite) (snapshot : GraphqlSnapshot) (parse : Bytes → Option JsonValue)
  (tagSearchEnabled filterIndexesEnabled : Bool)

/-- `transactions`, with a number of bytes left for the result. -/
def transactions (remaining : Nat) (filter : TransactionFilter) :
    Checked (Connection TransactionNode) := do
  let page ← selectPage suite snapshot parse tagSearchEnabled (filter.plan filterIndexesEnabled)
    filter
  let rows := (page.insertionSort filter.sort.before).filterMap snapshot.detail
  let (edges, more) ← collectEdges filter.first remaining rows
  pure ⟨edges, more⟩

/-- A request for blocks. -/
structure BlockRequest where
  ids : List String := []
  heights : BlockFilter := {}
  first : Nat
  after : Option String := none
  sort : SortOrder := .heightDesc

/-- The conditions of a query over blocks. -/
structure BlockQuery where
  ids : Option (List Bytes)
  heights : BlockFilter
  after : Option Nat
deriving DecidableEq

/-- The blocks of the canonical chain with a timestamp. -/
def GraphqlSnapshot.blockRows : List GraphqlBlock :=
  (snapshot.canonicalBlocks.filterMap fun canonical =>
    snapshot.blockAt canonical.height canonical.blockHash).filter fun block =>
      block.timestamp.isSome

/-- Whether a height is within bounds; negative ones are left out. -/
def BlockFilter.contains (bounds : BlockFilter) (height : Nat) : Bool :=
  ((bounds.min.filter fun least => 0 ≤ least).all fun least => least.toNat ≤ height) &&
    (bounds.max.filter fun most => 0 ≤ most).all fun most => height ≤ most.toNat

def BlockQuery.holds (query : BlockQuery) (sort : SortOrder) (block : GraphqlBlock) : Bool :=
  (query.ids.all fun ids => decide (block.hash.val ∈ ids)) &&
    query.heights.contains block.height &&
      query.after.all fun height => sort.comparison block.height.val height

/-- The value of the cursor of a block. -/
def blockCursorValue (height : Nat) : JsonValue := .array [.number (decimalString height)]

/-- The height that a cursor for blocks names. -/
def blockCursor (cursor : String) : Checked Nat := do
  let invalid := "Invalid block cursor"
  match ← decodeCursor parse cursor with
  | .array [height] =>
      let height ← Checked.context (height.asI64.filter fun height => 0 ≤ height) invalid
      pure height.toNat
  | _ => .error invalid

def blockIds (ids : List String) : Checked (Option (List Bytes)) :=
  if ids = [] then pure none else some <$> decodeList 1000 ids

/-- The height behind which blocks are asked for; an empty cursor is none. -/
def blockAfter (after : Option String) : Checked (Option Nat) :=
  match after.filter fun cursor => cursor ≠ "" with
  | some cursor => some <$> blockCursor parse cursor
  | none => pure none

/-- The part of `blocks` before the database is asked. -/
def prepareBlocks (request : BlockRequest) : Checked BlockQuery := do
  let ids ← blockIds request.ids
  let after ← blockAfter parse request.after
  pure { ids, heights := request.heights, after }

/-- The order of blocks. -/
abbrev SortOrder.blockBefore (sort : SortOrder) : GraphqlBlock → GraphqlBlock → Prop :=
  sort.ordered fun block => block.height.val

def blockEdge (block : GraphqlBlock) : Checked (Edge BlockNode) := do
  let node ← blockFromRow block
  pure ⟨encodeCursor (blockCursorValue node.height), node⟩

/-- `blocks`, with a number of bytes left for the result. -/
def blocks (remaining : Nat) (request : BlockRequest) : Checked (Connection BlockNode) := do
  let query ← prepareBlocks parse request
  let rows := Ranking.top request.sort.blockBefore (request.first + 1)
    (snapshot.blockRows.filter (query.holds request.sort))
  let _ ← consume remaining (rows.length * 256)
  let edges ← (rows.take request.first).mapM blockEdge
  pure ⟨edges, decide (request.first < rows.length)⟩

end Requests

/-- No symbol is padding, a comma, or a character that is escaped. -/
theorem base64Symbol_plain (value : Nat) :
    base64Symbol value ≠ 61 ∧ base64Symbol value ≠ 44 ∧
      JsonText.escaped (base64Symbol value) = false := by
  have all : ∀ value : Fin 64, base64Symbol value.val ≠ 61 ∧ base64Symbol value.val ≠ 44 ∧
      JsonText.escaped (base64Symbol value.val) = false := by decide
  by_cases small : value < 64
  · exact all ⟨value, small⟩
  · have last : base64Symbol value = base64Symbol 63 := by
      unfold base64Symbol
      split_ifs <;> first | omega | rfl
    exact last ▸ all 63

theorem trimPadding_base64Encode (bytes : Bytes) :
    trimPadding (base64Encode bytes) = base64Encode bytes := by
  have kept : (base64Encode bytes).reverse.dropWhile (· = 61) = (base64Encode bytes).reverse := by
    cases reversed : (base64Encode bytes).reverse with
    | nil => rfl
    | cons last rest =>
        have member : last ∈ base64Encode bytes := by
          rw [← List.mem_reverse, reversed]
          exact List.mem_cons_self
        obtain ⟨value, rfl⟩ := mem_base64Encode member
        exact List.dropWhile_cons_of_neg (by simpa using (base64Symbol_plain value).1)
  rw [trimPadding, kept, List.reverse_reverse]

theorem flatMap_escapeByte {bytes : Bytes}
    (plain : ∀ byte ∈ bytes, JsonText.escaped byte = false) :
    bytes.flatMap (JsonText.escapeByte .lower) = bytes := by
  induction bytes with
  | nil => rfl
  | cons byte bytes induction =>
      rw [List.flatMap_cons, JsonText.escapeByte_of_not_escaped (plain byte List.mem_cons_self),
        induction fun other member => plain other (List.mem_cons_of_mem _ member)]
      rfl

theorem printString_base64Encode (bytes : Bytes) :
    JsonText.printString .lower (base64Encode bytes) = 34 :: (base64Encode bytes ++ [34]) := by
  rw [JsonText.printString, flatMap_escapeByte]
  intro byte member
  obtain ⟨value, rfl⟩ := mem_base64Encode member
  exact (base64Symbol_plain value).2.2

theorem parseI64_decimalString {value : Nat} (small : value < 2 ^ 63) :
    parseI64 (decimalString value) = some (value : Int) := by
  have digits : (decimal value).all isAsciiDigit = true :=
    List.all_eq_true.mpr fun _ member => isAsciiDigit_of_mem_decimal member
  cases text : decimal value with
  | nil => exact absurd text (decimal_ne_nil value)
  | cons digit rest =>
      have first : isAsciiDigit digit = true :=
        isAsciiDigit_of_mem_decimal (text ▸ List.mem_cons_self)
      have minus : digit ≠ 45 := by rintro rfl; cases first
      have plus : digit ≠ 43 := by rintro rfl; cases first
      have read : ofDecimal (digit :: rest) = value := by rw [← text, ofDecimal_decimal]
      rw [text] at digits
      unfold parseI64
      rw [utf8_decimalString, text]
      split
      next _ negative unsigned chosen =>
        have whole : negative = false ∧ unsigned = digit :: rest := by
          split at chosen
          · next same => exact absurd (List.cons.inj same).1 minus
          · next same => exact absurd (List.cons.inj same).1 plus
          · exact ⟨(Prod.mk.inj chosen).1.symm, (Prod.mk.inj chosen).2.symm⟩
        obtain ⟨rfl, rfl⟩ := whole
        rw [read, digits]
        simp
        omega

/-- The parser of JSON reads the values that cursors are made of. -/
structure ReadsCursors (parse : Bytes → Option JsonValue) : Prop where
  transaction : ∀ height position kind id indexedAt,
    parse (cursorValue height position kind id indexedAt).print =
      some (cursorValue height position kind id indexedAt)
  block : ∀ height, parse (blockCursorValue height).print = some (blockCursorValue height)

theorem print_cursorValue (height position : Nat) (kind : Bool) (id : FixedBytes 32)
    (indexedAt : Nat) :
    (cursorValue height position kind id indexedAt).print =
      91 :: (decimal height ++ 44 :: (decimal position ++ 44 :: ((JsonValue.bool kind).print ++
        44 :: (34 :: (base64Encode id.val ++ [34]) ++ 44 :: (decimal indexedAt ++ [93]))))) := by
  simp [cursorValue, JsonValue.print, JsonValue.printItems, printString_base64Encode]

theorem print_blockCursorValue (height : Nat) :
    (blockCursorValue height).print = 91 :: (decimal height ++ [93]) := by
  simp [blockCursorValue, JsonValue.print, JsonValue.printItems]

theorem length_decimal_i64 {value : Nat} (small : value < 2 ^ 63) : (decimal value).length ≤ 19 :=
  length_decimal_le (by decide) (by omega)

section Decoding

variable {parse : Bytes → Option JsonValue}

/-- A value that is not too long comes back from its cursor. -/
theorem decodeCursor_encodeCursor {value : JsonValue} (short : value.print.length ≤ 768)
    (reads : parse value.print = some value) :
    decodeCursor parse (encodeCursor value) = .ok value := by
  have width : (utf8 (encodeCursor value)).length ≤ 1024 := by
    rw [encodeCursor, utf8_base64Text, length_base64Encode]
    omega
  rw [decodeCursor, Checked.ensure_of width, Checked.ok_bind, encodeCursor, utf8_base64Text,
    trimPadding_base64Encode, base64Decode_base64Encode]
  simp only [Checked.context, Checked.ok_bind, reads]

/-- The clause of a cursor is the position that was encoded. -/
theorem transactionCursor_encodeCursor (reads : ReadsCursors parse) {height position : Nat}
    (heightBound : height < 2 ^ 63) (positionBound : position < 2 ^ 31) (kind : Bool)
    (id : FixedBytes 32) {indexedAt : Nat} (indexedBound : indexedAt < 2 ^ 63) (sort : SortOrder) :
    transactionCursor parse (encodeCursor (cursorValue height position kind id indexedAt)) sort =
      .ok [.behind sort (.of height position (if kind then 1 else 0) id)] := by
  have short : (cursorValue height position kind id indexedAt).print.length ≤ 768 := by
    have first := length_decimal_i64 heightBound
    have second := @length_decimal_i64 position (by omega)
    have last := length_decimal_i64 indexedBound
    have symbols := length_base64Encode id.val
    rw [id.property] at symbols
    have word : (JsonValue.bool kind).print.length ≤ 5 := by cases kind <;> decide
    rw [print_cursorValue]
    simp only [List.length_cons, List.length_append, List.length_nil]
    omega
  rw [transactionCursor, decodeCursor_encodeCursor short (reads.transaction _ _ _ _ _),
    Checked.ok_bind]
  simp [cursorValue, JsonValue.asStr, JsonValue.asBool, JsonValue.asI64, JsonValue.isNull,
    parseI64_decimalString heightBound, parseI64_decimalString indexedBound,
    parseI64_decimalString (show position < 2 ^ 63 by omega), Checked.context, Except.mapError,
    Option.filter, show position < 2147483648 from positionBound]

theorem blockCursor_encodeCursor (reads : ReadsCursors parse) {height : Nat}
    (bound : height < 2 ^ 63) :
    blockCursor parse (encodeCursor (blockCursorValue height)) = .ok height := by
  have short : (blockCursorValue height).print.length ≤ 768 := by
    have first := length_decimal_i64 bound
    rw [print_blockCursorValue]
    simp only [List.length_cons, List.length_append, List.length_nil]
    omega
  rw [blockCursor, decodeCursor_encodeCursor short (reads.block _), Checked.ok_bind]
  simp [blockCursorValue, JsonValue.asI64, parseI64_decimalString bound, Checked.context,
    Option.filter]

theorem encodeCursor_array_ne_empty (item : JsonValue) (items : List JsonValue) :
    encodeCursor (.array (item :: items)) ≠ "" := by
  intro empty
  have none : base64Encode (JsonValue.array (item :: items)).print = [] := by
    rw [← utf8_base64Text, ← encodeCursor, empty]
    rfl
  have decoded := base64Decode_base64Encode (JsonValue.array (item :: items)).print
  rw [none] at decoded
  simp [base64Decode, JsonValue.print] at decoded

end Decoding

/-! ## Pages of edges -/

/-- Every request behind the last edge of a front is answered with the page behind it, and following
the cursors of the pages gives the whole list. -/
def Paged {ν : Type} (request : Option String → Checked (Connection ν)) (size : Nat)
    (edges : List (Edge ν)) : Prop :=
  (∀ front rest, front ++ rest = edges → request (front.getLast?.map Edge.cursor) =
    .ok ⟨rest.take size, decide (size < rest.length)⟩) ∧
  ∃ pages, Pages.follow (fun after =>
      (fun connection => (connection.edges, connection.hasNextPage)) <$> request after)
    Edge.cursor (edges.length + 1) none = .ok pages ∧ pages.flatten = edges

theorem paged_of_answers {ν : Type} {request : Option String → Checked (Connection ν)} {size : Nat}
    {edges : List (Edge ν)} (positive : 0 < size)
    (answers : ∀ front rest, front ++ rest = edges → request (front.getLast?.map Edge.cursor) =
      .ok ⟨rest.take size, decide (size < rest.length)⟩) : Paged request size edges := by
  refine ⟨answers, Pages.follow_eq_ok positive (fun front rest split => ?_)
    (List.nil_append edges) (Nat.lt_succ_self _)⟩
  rw [answers front rest split]
  rfl

section Transactions

variable {suite : HashSuite} {snapshot : GraphqlSnapshot} {parse : Bytes → Option JsonValue}

/-- The clauses of a request without a cursor, once owners are found. -/
def matchClauses (prepared : PreparedFilter) (owners : Option (List Bytes))
    (tags : List TagFilter) : List Clause :=
  prepared.clauses ++ (owners.map Clause.ownerAny).toList ++
    tags.map fun tag => .tagged tag.name tag.values

/-- All placements that match a filter, in order. -/
def matching (suite : HashSuite) (snapshot : GraphqlSnapshot) (prepared : PreparedFilter)
    (filter : TransactionFilter) : List GraphqlPlacement :=
  match resolveOwners snapshot prepared.owners with
  | none => []
  | some owners =>
      (snapshot.placements.filter
        (selected suite snapshot (matchClauses prepared owners filter.tags))).insertionSort
          filter.sort.before

/-- The cursor of a placement. -/
def cursorAt (snapshot : GraphqlSnapshot) (placement : GraphqlPlacement) : String :=
  ((snapshot.detail placement).map TransactionRow.cursor).getD ""

/-- A placement that is selected is joined with its rows. -/
theorem detail_of_selected (valid : snapshot.Valid) {clauses : List Clause}
    {placement : GraphqlPlacement} (member : placement ∈ snapshot.placements)
    (chosen : selected suite snapshot clauses placement = true) :
    ∃ row, snapshot.detail placement = some row ∧ row.placement = placement ∧
      row.object.id = placement.id ∧
      snapshot.canonicalBlockAt placement.blockHeight = some row.block ∧
      row.block.timestamp.isSome = true := by
  obtain ⟨object, metadata, ⟨found, complete, timed⟩, _⟩ := selected_eq_true_iff.mp chosen
  obtain ⟨again, placed, sameId⟩ := valid.placed placement member
  obtain rfl := Option.some.inj (found.symm.trans placed)
  obtain ⟨owner, owned⟩ := Option.isSome_iff_exists.mp
    (valid.owned object (objectAt_eq_some found).1 metadata complete)
  obtain ⟨time, stamped⟩ := Option.isSome_iff_exists.mp timed
  obtain ⟨block, canonical, stamp⟩ := Option.bind_eq_some_iff.mp stamped
  refine ⟨⟨placement, object, metadata, block, owner, snapshot.parentOf placement.locationKey⟩, ?_,
    rfl, sameId, canonical, Option.isSome_of_eq_some stamp⟩
  simp only [GraphqlSnapshot.detail, found, complete, canonical, owned, Option.bind_eq_bind,
    Option.bind_some]

/-- The clause of the cursor of a row. -/
theorem transactionCursor_cursor (reads : ReadsCursors parse) {row : TransactionRow}
    (sameId : row.object.id = row.placement.id) (sort : SortOrder) :
    transactionCursor parse row.cursor sort = .ok [.behind sort row.placement.rank] := by
  have kind : (if decide (row.placement.kind = 1) = true then 1 else 0) =
      row.placement.kind.val := by
    have all : ∀ kind : Fin 2, (if decide (kind = 1) = true then 1 else 0) = kind.val := by decide
    exact all _
  rw [TransactionRow.cursor, transactionCursor_encodeCursor reads row.placement.blockHeight.isLt
    row.placement.position.isLt _ _ row.metadata.indexedAt.isLt, kind, sameId]
  rfl

/-- A cursor adds its clauses to those of the filter. -/
theorem prepareFilter_after {tagSearchEnabled : Bool} {filter : TransactionFilter}
    {prepared : PreparedFilter} {cursor : String} {clauses : List Clause}
    (accepted : prepareFilter parse tagSearchEnabled { filter with after := none } = .ok prepared)
    (present : cursor ≠ "") (added : transactionCursor parse cursor filter.sort = .ok clauses) :
    prepareFilter parse tagSearchEnabled { filter with after := some cursor } =
      .ok { prepared with clauses := prepared.clauses ++ clauses } := by
  simp only [prepareFilter, Checked.bind_eq_ok, Checked.pure_eq_ok] at accepted ⊢
  obtain ⟨ids, idsFound, owners, ownersFound, recipients, recipientsFound, bundled, bundledFound,
    few, fewTags, small, smallTags, after, none, search, enabled, rfl⟩ := accepted
  obtain rfl : [] = after := Except.ok.inj none
  refine ⟨ids, idsFound, owners, ownersFound, recipients, recipientsFound, bundled, bundledFound,
    few, fewTags, small, smallTags, clauses, ?_, search, enabled, ?_⟩
  · simpa [afterClauses, Option.filter, present] using added
  · simp

theorem selected_behind {clauses : List Clause} {sort : SortOrder} {cursor : PlacementRank}
    {placement : GraphqlPlacement} (chosen : selected suite snapshot clauses placement = true) :
    selected suite snapshot [.behind sort cursor] placement =
      sort.comparison placement.rank cursor := by
  obtain ⟨object, metadata, described, _⟩ := selected_eq_true_iff.mp chosen
  refine Bool.eq_iff_iff.mpr (selected_eq_true_iff.trans ⟨?_, fun behind => ?_⟩)
  · rintro ⟨other, otherMetadata, _, holds⟩
    exact holds _ List.mem_cons_self
  · exact ⟨object, metadata, described, by simpa [Clause.holds] using behind⟩

/-- The page behind a front of the matching placements. -/
theorem selectPage_behind (valid : snapshot.Valid) (reads : ReadsCursors parse)
    {tagSearchEnabled : Bool} {plan : QueryPlan}
    (columns : plan.filterIndexes = true → FilterColumns suite snapshot)
    {filter : TransactionFilter} {prepared : PreparedFilter}
    (accepted : prepareFilter parse tagSearchEnabled { filter with after := none } = .ok prepared)
    {front rest : List GraphqlPlacement}
    (split : front ++ rest = matching suite snapshot prepared filter) :
    selectPage suite snapshot parse tagSearchEnabled plan
        { filter with after := front.getLast?.map (cursorAt snapshot) } =
      .ok (rest.take (filter.first + 1)) := by
  rw [selectPage_eq valid parse tagSearchEnabled columns]
  unfold matching at split
  cases resolved : resolveOwners snapshot prepared.owners with
  | none =>
      rw [resolved] at split
      obtain ⟨rfl, rfl⟩ := List.append_eq_nil_iff.mp split
      simp only [selectPage, List.getLast?_nil, Option.map_none, accepted, Checked.ok_bind,
        resolved]
      rfl
  | some owners =>
      rw [resolved] at split
      simp only at split
      have once : snapshot.placements.Nodup := valid.placementKeys.of_map
      have page := Ranking.top_behind ((valid.separates filter.sort).mono
        (List.filter_subset_self _)) (once.filter _) split (filter.first + 1)
      -- what a request with further clauses selects
      have answer (clauses : List Clause)
          (behind : ∀ placement ∈ snapshot.placements,
            selected suite snapshot (matchClauses prepared owners filter.tags) placement = true →
              selected suite snapshot clauses placement =
                front.getLast?.all fun last => ¬ filter.sort.before placement last) :
          runQuery suite snapshot filter.sort (filter.first + 1)
            ((prepared.clauses ++ clauses) ++ (owners.map Clause.ownerAny).toList ++
              filter.tags.map fun tag => .tagged tag.name tag.values) =
            rest.take (filter.first + 1) := by
        rw [← page, runQuery, List.filter_filter]
        refine congrArg _ (List.filter_congr fun placement member => ?_)
        have parts : selected suite snapshot ((prepared.clauses ++ clauses) ++
            (owners.map Clause.ownerAny).toList ++
              filter.tags.map fun tag => .tagged tag.name tag.values) placement = true ↔
            selected suite snapshot clauses placement = true ∧
              selected suite snapshot (matchClauses prepared owners filter.tags) placement =
                true := by
          unfold matchClauses
          simp only [selected_append]
          tauto
        rw [Bool.eq_iff_iff, parts, Bool.and_eq_true]
        exact and_congr_left fun chosen => by rw [behind placement member chosen]
      cases front using List.reverseRecOn with
      | nil =>
          simp only [selectPage, List.getLast?_nil, Option.map_none, accepted, Checked.ok_bind,
            resolved, plainPlan, tagClauses, Bool.false_eq_true, if_false, false_and]
          rw [← answer []]
          · simp
          · intro placement _ chosen
            obtain ⟨object, metadata, described, _⟩ := selected_eq_true_iff.mp chosen
            simpa using selected_eq_true_iff.mpr ⟨object, metadata, described, by simp⟩
      | append_singleton front last =>
          have inside : last ∈ snapshot.placements.filter
              (selected suite snapshot (matchClauses prepared owners filter.tags)) := by
            rw [← List.mem_insertionSort filter.sort.before, ← split]
            simp
          obtain ⟨member, chosen⟩ := List.mem_filter.mp inside
          obtain ⟨row, joined, rfl, sameId, _⟩ := detail_of_selected valid member chosen
          have cursor : cursorAt snapshot row.placement = row.cursor := by
            rw [cursorAt, joined, Option.map_some, Option.getD_some]
          have prepare := prepareFilter_after accepted
            (show row.cursor ≠ "" from encodeCursor_array_ne_empty _ _)
            (transactionCursor_cursor reads sameId filter.sort)
          simp only [selectPage, List.getLast?_concat, Option.map_some, cursor, prepare,
            Checked.ok_bind, resolved, plainPlan, tagClauses, Bool.false_eq_true, if_false,
            false_and]
          rw [← answer [.behind filter.sort row.placement.rank]]
          · rfl
          · intro placement _ inMatch
            rw [selected_behind inMatch, List.getLast?_concat, Option.all_some]
            exact comparison_eq filter.sort placement row.placement

end Transactions

section Edges

variable {snapshot : GraphqlSnapshot}

/-- No size limit is hit: heights and times fit, and so do the rows of every page. -/
structure Fits (snapshot : GraphqlSnapshot) (remaining first : Nat) (rows : List GraphqlPlacement) :
    Prop where
  blocks : ∀ placement ∈ rows, ∀ block ∈ snapshot.canonicalBlockAt placement.blockHeight,
    block.height.val < 2 ^ 31 ∧ ∀ time ∈ block.timestamp, time.val < 2 ^ 31
  bytes : ∀ page, page <:+: rows → page.length ≤ first →
    (page.map fun placement => ((snapshot.detail placement).map TransactionRow.size).getD 0).sum ≤
      remaining

theorem blockFromRow_of_fits {block : GraphqlBlock} (height : block.height.val < 2 ^ 31)
    (stamped : block.timestamp.isSome = true)
    (times : ∀ time ∈ block.timestamp, time.val < 2 ^ 31) :
    ∃ node, blockFromRow block = .ok node ∧ node.height = block.height.val := by
  obtain ⟨time, stamp⟩ := Option.isSome_iff_exists.mp stamped
  have early := times time stamp
  rw [blockFromRow, Checked.ensure_of height, Checked.ok_bind, stamp]
  simp only [Checked.context, Checked.ok_bind, Checked.ensure_of early]
  exact ⟨_, rfl, rfl⟩

theorem exists_forall₂ {α β : Type} {relation : α → β → Prop} {values : List α}
    (each : ∀ value ∈ values, ∃ other, relation value other) :
    ∃ others, List.Forall₂ relation values others := by
  induction values with
  | nil => exact ⟨[], .nil⟩
  | cons value values induction =>
      obtain ⟨other, related⟩ := each value List.mem_cons_self
      obtain ⟨others, rest⟩ := induction fun value member =>
        each value (List.mem_cons_of_mem _ member)
      exact ⟨other :: others, .cons related rest⟩

/-- The edge of a placement. -/
def EdgeOf (snapshot : GraphqlSnapshot) (placement : GraphqlPlacement)
    (edge : Edge TransactionNode) : Prop :=
  ∃ row, snapshot.detail placement = some row ∧ row.edge = .ok edge

theorem EdgeOf.cursor {placement : GraphqlPlacement} {edge : Edge TransactionNode}
    (related : EdgeOf snapshot placement edge) : cursorAt snapshot placement = edge.cursor := by
  obtain ⟨row, joined, made⟩ := related
  simp only [TransactionRow.edge, Checked.bind_eq_ok, Checked.pure_eq_ok] at made
  obtain ⟨node, _, rfl⟩ := made
  rw [cursorAt, joined, Option.map_some, Option.getD_some]

/-- The loop over the rows makes a page of edges. -/
theorem collectEdges_eq {page : List GraphqlPlacement} {edges : List (Edge TransactionNode)}
    (each : List.Forall₂ (EdgeOf snapshot) page edges) {first remaining : Nat}
    (fits : ((page.take first).map fun placement =>
      ((snapshot.detail placement).map TransactionRow.size).getD 0).sum ≤ remaining) :
    collectEdges first remaining (page.filterMap snapshot.detail) =
      .ok (edges.take first, decide (first < edges.length)) := by
  induction each generalizing first remaining with
  | nil => simp [collectEdges]
  | @cons placement edge page edges related _ induction =>
      obtain ⟨row, joined, made⟩ := related
      rw [List.filterMap_cons_some joined]
      cases first with
      | zero => simp [collectEdges]
      | succ first =>
          rw [List.take_succ_cons, List.map_cons, List.sum_cons, joined, Option.map_some,
            Option.getD_some] at fits
          rw [collectEdges, consume, Checked.ensure_of (by omega), Checked.ok_bind]
          simp only [pure, Except.pure, Checked.ok_bind, made]
          rw [induction (by omega), Checked.ok_bind]
          simp

/-- Every page of transactions that is asked for behind a row is the page behind it. -/
theorem transactions_behind {suite : HashSuite} {parse : Bytes → Option JsonValue}
    (valid : snapshot.Valid) (reads : ReadsCursors parse)
    {tagSearchEnabled filterIndexesEnabled : Bool}
    (columns : filterIndexesEnabled = true → FilterColumns suite snapshot) {remaining : Nat}
    {filter : TransactionFilter} {prepared : PreparedFilter}
    (accepted : prepareFilter parse tagSearchEnabled { filter with after := none } = .ok prepared)
    (fits : Fits snapshot remaining filter.first (matching suite snapshot prepared filter))
    {edges : List (Edge TransactionNode)}
    (each : List.Forall₂ (EdgeOf snapshot) (matching suite snapshot prepared filter) edges)
    (front rest : List (Edge TransactionNode)) (split : front ++ rest = edges) :
    transactions suite snapshot parse tagSearchEnabled filterIndexesEnabled remaining
        { filter with after := front.getLast?.map Edge.cursor } =
      .ok ⟨rest.take filter.first, decide (filter.first < rest.length)⟩ := by
  have sorted : (matching suite snapshot prepared filter).Pairwise filter.sort.before := by
    unfold matching
    split
    · exact .nil
    · exact List.pairwise_insertionSort _ _
  generalize same : matching suite snapshot prepared filter = rows at each fits sorted
  have parts : rows.take front.length ++ rows.drop front.length = rows := List.take_append_drop _ _
  have fronts : List.Forall₂ (EdgeOf snapshot) (rows.take front.length) front := by
    simpa [← split] using List.forall₂_take front.length each
  have rests : List.Forall₂ (EdgeOf snapshot) (rows.drop front.length) rest := by
    simpa [← split] using List.forall₂_drop front.length each
  have cursors : (rows.take front.length).map (cursorAt snapshot) = front.map Edge.cursor := by
    rw [← List.forall₂_eq_eq_eq, List.forall₂_map_left_iff, List.forall₂_map_right_iff]
    exact fronts.imp fun _ _ related => related.cursor
  have last : (rows.take front.length).getLast?.map (cursorAt snapshot) =
      front.getLast?.map Edge.cursor := by
    rw [← List.getLast?_map, ← List.getLast?_map, cursors]
  have page : selectPage suite snapshot parse tagSearchEnabled
      (TransactionFilter.plan filterIndexesEnabled
        { filter with after := front.getLast?.map Edge.cursor })
      { filter with after := front.getLast?.map Edge.cursor } =
        .ok ((rows.drop front.length).take (filter.first + 1)) := by
    rw [← last]
    exact selectPage_behind valid reads columns accepted (parts.trans same.symm)
  have order : ((rows.drop front.length).take (filter.first + 1)).Pairwise filter.sort.before :=
    sorted.sublist ((List.take_sublist _ _).trans (List.drop_sublist _ _))
  have bytes := fits.bytes ((rows.drop front.length).take filter.first)
    ((List.take_prefix _ _).isInfix.trans (List.drop_suffix _ _).isInfix) (by simp)
  have collected := @collectEdges_eq snapshot _ _ (List.forall₂_take (filter.first + 1) rests)
    filter.first remaining (by rwa [List.take_take, Nat.min_eq_left (Nat.le_succ _)])
  rw [transactions, page, Checked.ok_bind, order.insertionSort_eq]
  simp only [collected, Checked.ok_bind, Checked.pure_eq_ok, Connection.mk.injEq, List.take_take,
    Nat.min_eq_left (Nat.le_succ _), List.length_take, true_and, decide_eq_decide]
  omega

/-- The matching placements are those that a filter selects, each once, in strict order. -/
theorem mem_matching {suite : HashSuite} {prepared : PreparedFilter} {filter : TransactionFilter}
    {placement : GraphqlPlacement} :
    placement ∈ matching suite snapshot prepared filter ↔
      placement ∈ snapshot.placements ∧
        ∃ owners, resolveOwners snapshot prepared.owners = some owners ∧
          selected suite snapshot (matchClauses prepared owners filter.tags) placement = true := by
  unfold matching
  split
  · next none => simp [none]
  · next owners resolved => simp [resolved]

theorem pairwise_matching {suite : HashSuite} (valid : snapshot.Valid) (prepared : PreparedFilter)
    (filter : TransactionFilter) :
    (matching suite snapshot prepared filter).Pairwise fun first second =>
      filter.sort.comparison second.rank first.rank = true := by
  have once : snapshot.placements.Nodup := valid.placementKeys.of_map
  unfold matching
  split
  · exact .nil
  · exact pairwise_comparison filter.sort
      ((valid.separates filter.sort).mono (List.filter_subset_self _)) (once.filter _)

/-- The edges of matching placements, when no size limit is hit; their cursors name the places. -/
theorem exists_edges {suite : HashSuite} {parse : Bytes → Option JsonValue}
    (valid : snapshot.Valid) (reads : ReadsCursors parse) {prepared : PreparedFilter}
    {filter : TransactionFilter} {remaining first : Nat}
    (fits : Fits snapshot remaining first (matching suite snapshot prepared filter)) :
    ∃ edges, List.Forall₂ (fun placement edge => EdgeOf snapshot placement edge ∧
        ∀ sort, transactionCursor parse edge.cursor sort = .ok [.behind sort placement.rank])
      (matching suite snapshot prepared filter) edges := by
  refine exists_forall₂ fun placement member => ?_
  obtain ⟨stored, owners, _, chosen⟩ := mem_matching.mp member
  obtain ⟨row, joined, rfl, sameId, canonical, stamped⟩ := detail_of_selected valid stored chosen
  obtain ⟨height, times⟩ := fits.blocks _ member row.block canonical
  obtain ⟨block, made, _⟩ := blockFromRow_of_fits height stamped times
  obtain ⟨edge, found⟩ : ∃ edge, row.edge = .ok edge := by
    simp only [TransactionRow.edge, TransactionRow.node, made, Checked.ok_bind]
    exact ⟨_, rfl⟩
  have related : EdgeOf snapshot row.placement edge := ⟨row, joined, found⟩
  refine ⟨edge, related, fun sort => ?_⟩
  rw [← related.cursor, cursorAt, joined, Option.map_some, Option.getD_some]
  exact transactionCursor_cursor reads sameId sort

end Edges

section Blocks

variable {snapshot : GraphqlSnapshot} {parse : Bytes → Option JsonValue}

/-- All blocks that match a query, in order. -/
def matchingBlocks (snapshot : GraphqlSnapshot) (query : BlockQuery) (sort : SortOrder) :
    List GraphqlBlock :=
  (snapshot.blockRows.filter (query.holds sort)).insertionSort sort.blockBefore

theorem blockAt_eq_some {height : Fin (2 ^ 63)} {hash : FixedBytes 48} {block : GraphqlBlock}
    (found : snapshot.blockAt height hash = some block) : block.height = height := by
  unfold GraphqlSnapshot.blockAt at found
  have holds := List.find?_some found
  rw [decide_eq_true_eq] at holds
  exact holds.1

theorem blockRows_subset : snapshot.blockRows ⊆ snapshot.blocks := by
  intro block member
  obtain ⟨canonical, _, found⟩ := List.mem_filterMap.mp (List.mem_filter.mp member).1
  exact List.mem_of_find?_eq_some found

/-- No two blocks of the chain have one height. -/
theorem blockRows_nodup (valid : snapshot.Valid) :
    (snapshot.blockRows.map fun block => block.height.val).Nodup := by
  have joined (canonicals : List CanonicalBlock) :
      ((canonicals.filterMap fun canonical =>
        snapshot.blockAt canonical.height canonical.blockHash).map GraphqlBlock.height).Sublist
        (canonicals.map CanonicalBlock.height) := by
    induction canonicals with
    | nil => exact .slnil
    | cons canonical canonicals induction =>
        rw [List.filterMap_cons]
        cases found : snapshot.blockAt canonical.height canonical.blockHash with
        | none => exact induction.cons _
        | some block =>
            rw [List.map_cons, List.map_cons, blockAt_eq_some found]
            exact induction.cons_cons _
  have heights : (snapshot.blockRows.map GraphqlBlock.height).Nodup :=
    valid.heights.sublist ((List.filter_sublist.map _).trans (joined _))
  have numbers := heights.map Fin.val_injective
  rwa [List.map_map] at numbers

theorem blockRows_separates (valid : snapshot.Valid) (sort : SortOrder) :
    Ranking.Separates sort.blockBefore snapshot.blockRows :=
  fun _ firstMember _ secondMember earlier later =>
    List.inj_on_of_nodup_map (blockRows_nodup valid) firstMember secondMember
      (rank_eq_of_ordered earlier later)

theorem mem_matchingBlocks {query : BlockQuery} {sort : SortOrder} {block : GraphqlBlock} :
    block ∈ matchingBlocks snapshot query sort ↔
      block ∈ snapshot.blockRows ∧ query.holds sort block = true := by
  rw [matchingBlocks, List.mem_insertionSort, List.mem_filter]

theorem pairwise_matchingBlocks (valid : snapshot.Valid) (query : BlockQuery) (sort : SortOrder) :
    (matchingBlocks snapshot query sort).Pairwise fun first second =>
      sort.comparison second.height.val first.height.val = true :=
  pairwise_comparison sort ((blockRows_separates valid sort).mono (List.filter_subset_self _))
    ((blockRows_nodup valid).of_map.filter _)

/-- The query behind a cursor. -/
theorem prepareBlocks_after (reads : ReadsCursors parse) {request : BlockRequest}
    {query : BlockQuery}
    (accepted : prepareBlocks parse { request with after := none } = .ok query)
    (last : Option GraphqlBlock) :
    prepareBlocks parse { request with
        after := last.map fun block => encodeCursor (blockCursorValue block.height) } =
      .ok { query with after := last.map fun block => block.height.val } := by
  simp only [prepareBlocks, Checked.bind_eq_ok, Checked.pure_eq_ok] at accepted ⊢
  obtain ⟨ids, idsFound, after, none, rfl⟩ := accepted
  refine ⟨ids, idsFound, _, ?_, rfl⟩
  cases last with
  | none => rfl
  | some block =>
      have present : encodeCursor (blockCursorValue block.height) ≠ "" :=
        encodeCursor_array_ne_empty _ _
      simp [blockAfter, Option.filter, present, blockCursor_encodeCursor reads block.height.isLt]

theorem prepareBlocks_none {request : BlockRequest} {query : BlockQuery}
    (accepted : prepareBlocks parse { request with after := none } = .ok query) :
    query.after = none := by
  simp only [prepareBlocks, Checked.bind_eq_ok, Checked.pure_eq_ok] at accepted
  obtain ⟨ids, _, after, none, rfl⟩ := accepted
  exact (Except.ok.inj none).symm

theorem blockFromRow_height {block : GraphqlBlock} {node : BlockNode}
    (made : blockFromRow block = .ok node) : node.height = block.height.val := by
  simp only [blockFromRow, Checked.bind_eq_ok, Checked.pure_eq_ok] at made
  obtain ⟨_, _, _, _, _, _, rfl⟩ := made
  rfl

theorem blockEdge_cursor {block : GraphqlBlock} {edge : Edge BlockNode}
    (made : blockEdge block = .ok edge) :
    edge.cursor = encodeCursor (blockCursorValue block.height) := by
  simp only [blockEdge, Checked.bind_eq_ok, Checked.pure_eq_ok] at made
  obtain ⟨node, found, rfl⟩ := made
  rw [blockFromRow_height found]

theorem exists_blockEdges {query : BlockQuery} {sort : SortOrder}
    (fits : ∀ block ∈ matchingBlocks snapshot query sort,
      block.height.val < 2 ^ 31 ∧ ∀ time ∈ block.timestamp, time.val < 2 ^ 31) :
    ∃ edges, List.Forall₂ (fun block edge => blockEdge block = .ok edge)
      (matchingBlocks snapshot query sort) edges := by
  refine exists_forall₂ fun block member => ?_
  have stamped := (List.mem_filter.mp (mem_matchingBlocks.mp member).1).2
  obtain ⟨height, times⟩ := fits block member
  obtain ⟨node, made, _⟩ := blockFromRow_of_fits height stamped times
  rw [blockEdge, made]
  exact ⟨_, rfl⟩

/-- Every page of blocks that is asked for behind a row is the page behind it. -/
theorem blocks_behind (valid : snapshot.Valid) (reads : ReadsCursors parse) {remaining : Nat}
    {request : BlockRequest} {query : BlockQuery}
    (accepted : prepareBlocks parse { request with after := none } = .ok query)
    (room : min (request.first + 1) (matchingBlocks snapshot query request.sort).length * 256 ≤
      remaining)
    {edges : List (Edge BlockNode)}
    (each : List.Forall₂ (fun block edge => blockEdge block = .ok edge)
      (matchingBlocks snapshot query request.sort) edges)
    (front rest : List (Edge BlockNode)) (split : front ++ rest = edges) :
    blocks snapshot parse remaining { request with after := front.getLast?.map Edge.cursor } =
      .ok ⟨rest.take request.first, decide (request.first < rest.length)⟩ := by
  generalize same : matchingBlocks snapshot query request.sort = rows at each room
  have parts : rows.take front.length ++ rows.drop front.length = rows := List.take_append_drop _ _
  have fronts : List.Forall₂ (fun block edge => blockEdge block = .ok edge)
      (rows.take front.length) front := by
    simpa [← split] using List.forall₂_take front.length each
  have rests : List.Forall₂ (fun block edge => blockEdge block = .ok edge)
      (rows.drop front.length) rest := by
    simpa [← split] using List.forall₂_drop front.length each
  have cursors : ((rows.take front.length).map fun block =>
      encodeCursor (blockCursorValue block.height)) = front.map Edge.cursor := by
    rw [← List.forall₂_eq_eq_eq, List.forall₂_map_left_iff, List.forall₂_map_right_iff]
    exact fronts.imp fun _ _ made => (blockEdge_cursor made).symm
  have last : (rows.take front.length).getLast?.map
      (fun block => encodeCursor (blockCursorValue block.height)) =
        front.getLast?.map Edge.cursor := by
    rw [← List.getLast?_map, ← List.getLast?_map, cursors]
  have prepared := prepareBlocks_after reads accepted (rows.take front.length).getLast?
  rw [last] at prepared
  have page := Ranking.top_behind ((blockRows_separates valid request.sort).mono
    (List.filter_subset_self _)) ((blockRows_nodup valid).of_map.filter (query.holds request.sort))
    (parts.trans same.symm) (request.first + 1)
  have conditions : (fun block => BlockQuery.holds
      { query with after := (rows.take front.length).getLast?.map fun block => block.height.val }
        request.sort block) =
      fun block => ((rows.take front.length).getLast?.all fun last =>
        ¬ request.sort.blockBefore block last) && query.holds request.sort block := by
    obtain ⟨ids, heights, after⟩ := query
    obtain rfl : after = none := prepareBlocks_none accepted
    funext block
    cases (rows.take front.length).getLast? with
    | none => simp [BlockQuery.holds]
    | some last =>
        have compared := @comparison_eq _ _ _ (fun block : GraphqlBlock => block.height.val)
          request.sort block last
        simp only [BlockQuery.holds, Option.map_some, Option.all_some, Option.all_none, compared,
          Bool.and_comm, Bool.true_and]
  rw [List.filter_filter, ← conditions] at page
  have made := Checked.mapM_eq_ok.mpr (List.forall₂_take request.first rests)
  have few : ((rows.drop front.length).take (request.first + 1)).length * 256 ≤ remaining := by
    refine le_trans (Nat.mul_le_mul_right 256 ?_) room
    rw [List.length_take, List.length_drop]
    omega
  have total : (rows.drop front.length).length = rest.length := rests.length_eq
  rw [blocks, prepared, Checked.ok_bind]
  simp only [page]
  rw [consume, Checked.ensure_of few]
  simp only [Checked.ok_bind, pure, Except.pure, List.take_take, Nat.min_eq_left (Nat.le_succ _),
    made, Except.ok.injEq, Connection.mk.injEq, true_and, List.length_take, total, decide_eq_decide]
  omega

/-- The pages of transactions, and those of blocks: the cursor of an edge gives back its place, the
edges are those of the matching rows in strict order, every page behind an edge is the next part of
them with a flag that tells whether there are more, and following the cursors gives all of them.
Only where the filter indexes are enabled the filter columns have to be maintained. -/
theorem graphql_pages (suite : HashSuite) (snapshot : GraphqlSnapshot) (valid : snapshot.Valid)
    (parse : Bytes → Option JsonValue) (reads : ReadsCursors parse) :
    (∀ (tagSearchEnabled filterIndexesEnabled : Bool) (remaining : Nat) (filter : TransactionFilter)
        (prepared : PreparedFilter),
      (filterIndexesEnabled = true → FilterColumns suite snapshot) →
      prepareFilter parse tagSearchEnabled { filter with after := none } = .ok prepared →
      0 < filter.first →
      Fits snapshot remaining filter.first (matching suite snapshot prepared filter) →
      (∀ placement, placement ∈ matching suite snapshot prepared filter ↔
        placement ∈ snapshot.placements ∧
          ∃ owners, resolveOwners snapshot prepared.owners = some owners ∧
            selected suite snapshot (matchClauses prepared owners filter.tags) placement = true) ∧
      ((matching suite snapshot prepared filter).Pairwise fun first second =>
        filter.sort.comparison second.rank first.rank = true) ∧
      ∃ edges, List.Forall₂ (fun placement edge => EdgeOf snapshot placement edge ∧
          ∀ sort, transactionCursor parse edge.cursor sort = .ok [.behind sort placement.rank])
          (matching suite snapshot prepared filter) edges ∧
        Paged (fun after => transactions suite snapshot parse tagSearchEnabled filterIndexesEnabled
          remaining { filter with after }) filter.first edges) ∧
    ∀ (remaining : Nat) (request : BlockRequest) (query : BlockQuery),
      prepareBlocks parse { request with after := none } = .ok query →
      0 < request.first →
      (∀ block ∈ matchingBlocks snapshot query request.sort,
        block.height.val < 2 ^ 31 ∧ ∀ time ∈ block.timestamp, time.val < 2 ^ 31) →
      min (request.first + 1) (matchingBlocks snapshot query request.sort).length * 256 ≤
        remaining →
      (∀ block, block ∈ matchingBlocks snapshot query request.sort ↔
        block ∈ snapshot.blockRows ∧ query.holds request.sort block = true) ∧
      ((matchingBlocks snapshot query request.sort).Pairwise fun first second =>
        request.sort.comparison second.height.val first.height.val = true) ∧
      ∃ edges, List.Forall₂ (fun block edge => blockEdge block = .ok edge ∧
          blockCursor parse edge.cursor = .ok block.height)
          (matchingBlocks snapshot query request.sort) edges ∧
        Paged (fun after => blocks snapshot parse remaining { request with after }) request.first
          edges := by
  constructor
  · intro tagSearchEnabled filterIndexesEnabled remaining filter prepared columns accepted positive
      fits
    obtain ⟨edges, each⟩ := exists_edges valid reads fits
    exact ⟨fun _ => mem_matching, pairwise_matching valid prepared filter, edges, each,
      paged_of_answers positive fun front rest split =>
        transactions_behind valid reads columns accepted fits (each.imp fun _ _ made => made.1)
          front rest split⟩
  · intro remaining request query accepted positive fits room
    obtain ⟨edges, each⟩ := exists_blockEdges fits
    refine ⟨fun _ => mem_matchingBlocks, pairwise_matchingBlocks valid query request.sort, edges,
      ?_, paged_of_answers positive fun front rest split =>
        blocks_behind valid reads accepted room each front rest split⟩
    refine each.imp fun block edge made => ⟨made, ?_⟩
    rw [blockEdge_cursor made]
    exact blockCursor_encodeCursor reads block.height.isLt

end Blocks

/-- The parts of a text between commas. -/
def splitCommas : Bytes → List Bytes
  | [] => [[]]
  | byte :: rest =>
      match splitCommas rest with
      | [] => [[byte]]
      | part :: parts => if byte = 44 then [] :: part :: parts else (byte :: part) :: parts

theorem splitCommas_ne_nil (text : Bytes) : splitCommas text ≠ [] := by
  cases text with
  | nil => simp [splitCommas]
  | cons byte rest =>
      rw [splitCommas]
      split
      · simp
      · split <;> simp

theorem splitCommas_append {part : Bytes} (plain : 44 ∉ part) (rest : Bytes) :
    splitCommas (part ++ 44 :: rest) = part :: splitCommas rest := by
  induction part with
  | nil =>
      rw [List.nil_append, splitCommas]
      split
      · next none => exact absurd none (splitCommas_ne_nil rest)
      · next parts => rw [if_pos rfl, parts]
  | cons byte part induction =>
      rw [List.mem_cons, not_or] at plain
      rw [List.cons_append, splitCommas, induction plain.2]
      simp only
      rw [if_neg (Ne.symm plain.1)]

theorem splitCommas_of_plain {part : Bytes} (plain : 44 ∉ part) : splitCommas part = [part] := by
  induction part with
  | nil => rfl
  | cons byte part induction =>
      rw [List.mem_cons, not_or] at plain
      rw [splitCommas, induction plain.2]
      simp only
      rw [if_neg (Ne.symm plain.1)]

/-- Text of one byte for every character. -/
def textOf (bytes : Bytes) : String := String.ofList (bytes.map fun byte => Char.ofNat byte.toNat)

/-- A truth value, a text without escapes, or a number, told apart by the first byte. -/
def scalarOf : Bytes → JsonValue
  | 116 :: _ => .bool true
  | 102 :: _ => .bool false
  | 34 :: rest => .string (textOf rest.dropLast)
  | bytes => .number (textOf bytes)

/-- A parser of arrays of scalars. -/
def parseScalars : Bytes → Option JsonValue
  | 91 :: rest => some (.array ((splitCommas rest.dropLast).map scalarOf))
  | _ => none

theorem scalarOf_decimal (value : Nat) :
    scalarOf (decimal value) = .number (decimalString value) := by
  cases text : decimal value with
  | nil => exact absurd text (decimal_ne_nil value)
  | cons digit rest =>
      have first : isAsciiDigit digit = true :=
        isAsciiDigit_of_mem_decimal (text ▸ List.mem_cons_self)
      have other (byte : UInt8) (letter : isAsciiDigit byte = false) : digit ≠ byte := by
        rintro rfl
        rw [first] at letter
        cases letter
      unfold scalarOf
      split
      · next same => exact absurd (List.cons.inj same).1 (other 116 rfl)
      · next same => exact absurd (List.cons.inj same).1 (other 102 rfl)
      · next same => exact absurd (List.cons.inj same).1 (other 34 rfl)
      · rw [← text]
        rfl

theorem scalarOf_text (bytes : Bytes) :
    scalarOf (34 :: (base64Encode bytes ++ [34])) = .string (base64Text bytes) := by
  simp [scalarOf, textOf, base64Text]

theorem comma_not_mem_decimal (value : Nat) : (44 : UInt8) ∉ decimal value := by
  intro member
  cases isAsciiDigit_of_mem_decimal member

theorem readsCursors_parseScalars : ReadsCursors parseScalars where
  transaction height position kind id indexedAt := by
    have word : (44 : UInt8) ∉ (JsonValue.bool kind).print := by cases kind <;> decide
    have truth : scalarOf (JsonValue.bool kind).print = .bool kind := by cases kind <;> rfl
    have symbols : (44 : UInt8) ∉ 34 :: (base64Encode id.val ++ [34]) := by
      rw [List.mem_cons, List.mem_append, List.mem_singleton]
      rintro (same | member | same)
      · exact absurd same (by decide)
      · obtain ⟨value, same⟩ := mem_base64Encode member
        exact (base64Symbol_plain value).2.1 same.symm
      · exact absurd same (by decide)
    have inner : (cursorValue height position kind id indexedAt).print =
        91 :: ((decimal height ++ 44 :: (decimal position ++ 44 :: ((JsonValue.bool kind).print ++
          44 :: (34 :: (base64Encode id.val ++ [34]) ++ 44 :: decimal indexedAt)))) ++ [93]) := by
      rw [print_cursorValue]
      simp
    rw [inner, parseScalars, List.dropLast_concat, splitCommas_append (comma_not_mem_decimal _),
      splitCommas_append (comma_not_mem_decimal _), splitCommas_append word,
      splitCommas_append symbols, splitCommas_of_plain (comma_not_mem_decimal _)]
    simp only [List.map_cons, List.map_nil, scalarOf_decimal, truth, scalarOf_text, cursorValue]
  block height := by
    rw [print_blockCursorValue, parseScalars, List.dropLast_concat,
      splitCommas_of_plain (comma_not_mem_decimal _)]
    simp only [List.map_cons, List.map_nil, scalarOf_decimal, blockCursorValue]

theorem ownedSnapshot_times : ∀ block ∈ ownedSnapshot.blocks,
    block.height.val < 2 ^ 31 ∧ ∀ time ∈ block.timestamp, time.val < 2 ^ 31 := by
  intro block stored
  obtain rfl := List.mem_singleton.mp stored
  exact ⟨by decide, fun time stamp => by obtain rfl := Option.some.inj stamp; decide⟩

theorem ownedSnapshot_fits (rows : List GraphqlPlacement)
    (stored : rows ⊆ ownedSnapshot.placements) :
    Fits ownedSnapshot 2000 1 rows where
  blocks := by
    intro placement _ block found
    obtain ⟨canonical, _, there⟩ := Option.bind_eq_some_iff.mp found
    exact ownedSnapshot_times block (List.mem_of_find?_eq_some there)
  bytes := by
    intro page part short
    have all : ∀ placement ∈ ownedSnapshot.placements,
        ((ownedSnapshot.detail placement).map TransactionRow.size).getD 0 ≤ 2000 := by
      decide
    match page, short with
    | [], _ => exact Nat.zero_le _
    | [placement], _ =>
        simpa using all placement (stored (part.subset List.mem_cons_self))

/-- The rows of the owner, one on a page, and the block, on one page. -/
theorem graphql_pages_sample :
    (∃ edges, edges.length = 2 ∧
      Paged (fun after => transactions sha2Suite ownedSnapshot parseScalars true true 2000
        { ownerRequest with after }) 1 edges) ∧
    ∃ edges, edges.length = 1 ∧
      Paged (fun after => blocks ownedSnapshot parseScalars 512 { first := 1, after }) 1 edges := by
  have pages := graphql_pages sha2Suite ownedSnapshot ownedSnapshot_valid parseScalars
    readsCursors_parseScalars
  constructor
  · obtain ⟨_, _, edges, each, paged⟩ := pages.1 true true 2000 ownerRequest ⟨[[2]], [], []⟩
      (fun _ => ownedSnapshot_columns) (by decide) (by decide)
      (ownedSnapshot_fits _ fun _ member => (mem_matching.mp member).1)
    exact ⟨edges, each.length_eq.symm.trans (by decide), paged⟩
  · obtain ⟨_, _, edges, each, paged⟩ := pages.2 512 { first := 1 } ⟨none, {}, none⟩
      (by decide) (by decide) (fun block member => ownedSnapshot_times block (blockRows_subset
        (mem_matchingBlocks.mp member).1)) (by decide)
    exact ⟨edges, each.length_eq.symm.trans (by decide), paged⟩

end ArIoGateway
