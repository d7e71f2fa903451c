import ArIoGateway.BlockBinding
import ArIoGateway.HistoricalHeaders

/-!
# Header binding before fork 2.6

What the identifier of a header hashes is an image: the text of a document, one list of fields, or
three lists of which each hashes the one before it.  Equal identifiers have equal images unless the
messages behind them collide, and an image determines the fields that it is made of.
-/

namespace ArIoGateway

open NestedHash Octets

/-- A decimal field. -/
def decimalNode (value label : String) : Checked Nested :=
  (fun number => .blob (decimal number)) <$> parseBiguint value label

/-- A base64url field. -/
def b64Node (value label : String) : Checked Nested := .blob <$> decodeB64 value label

/-- A list of fields. -/
def listNode (nodes : List (Checked Nested)) : Checked Nested := .list <$> nodes.mapM id

/-- A machine integer. -/
def numberNode (value : Nat) : Checked Nested := pure (.blob (decimal value))

/-- A reward address. -/
def rewardNode (value : String) : Checked Nested := .blob <$> rewardAddress value false

/-- A block tag. -/
def tagNode (tag : JsonValue) : Checked Nested := do
  b64Node (← Checked.context tag.asStr "invalid block tag") "block tag"

/-- The proof of access. -/
def poaNode (poa : BlockPoa) : Checked Nested :=
  listNode
    [ decimalNode poa.option "proof option", b64Node poa.txPath "block tx_path",
      b64Node poa.dataPath "block data_path", b64Node poa.chunk "block chunk" ]

/-- A wallet. -/
def walletNode (wallet : LegacyWallet) : Checked Nested :=
  listNode
    [ b64Node wallet.address "wallet address", numberNode wallet.balance,
      b64Node wallet.lastTx "wallet last_tx" ]

/-- A list of base64url fields. -/
def b64ListNode (values : List String) (label : String) : Checked Nested :=
  listNode (values.map fun value => b64Node value label)

section Hashes

variable (suite : HashSuite)

theorem mapM_hash (nodes : List (Checked Nested)) :
    (nodes.map (deepHash suite <$> ·)).mapM id = List.map (deepHash suite) <$> nodes.mapM id := by
  induction nodes with
  | nil => rfl
  | cons node nodes induction =>
      rw [List.map_cons, List.mapM_cons, List.mapM_cons, induction]
      cases node with
      | error message => rfl
      | ok tree => cases nodes.mapM id <;> rfl

theorem deepHashDecimal_eq (value label : String) :
    deepHashDecimal suite value label = deepHash suite <$> decimalNode value label := by
  rw [deepHashDecimal, decimalNode]
  cases parseBiguint value label with
  | error message => rfl
  | ok number => exact congrArg Except.ok (deepHashBlob_eq suite _)

theorem deepHashB64_eq (value label : String) :
    deepHashB64 suite value label = deepHash suite <$> b64Node value label := by
  rw [deepHashB64, b64Node]
  cases decodeB64 value label with
  | error message => rfl
  | ok bytes => exact congrArg Except.ok (deepHashBlob_eq suite _)

theorem deepHashNumber_eq (value : Nat) :
    deepHashNumber suite value = deepHash suite <$> numberNode value := by
  simp [deepHashNumber, numberNode]

theorem deepHashReward_eq (value : String) :
    deepHashReward suite value = deepHash suite <$> rewardNode value := by
  rw [deepHashReward, rewardNode]
  cases rewardAddress value false with
  | error message => rfl
  | ok bytes => exact congrArg Except.ok (deepHashBlob_eq suite _)

theorem deepHashTag_eq (tag : JsonValue) :
    deepHashTag suite tag = deepHash suite <$> tagNode tag := by
  rw [deepHashTag, tagNode]
  cases Checked.context tag.asStr "invalid block tag" with
  | error message => rfl
  | ok text => exact deepHashB64_eq suite text _

theorem deepHashFields_eq (nodes : List (Checked Nested)) :
    deepHashFields suite (nodes.map (deepHash suite <$> ·)) =
      deepHash suite <$> listNode nodes := by
  rw [deepHashFields, mapM_hash, listNode]
  cases nodes.mapM id with
  | error message => rfl
  | ok trees => exact congrArg Except.ok (deepHashList_eq suite trees)

theorem deepHashB64List_eq (values : List String) (label : String) :
    deepHashB64List suite values label = deepHash suite <$> b64ListNode values label := by
  have nodes : values.mapM (fun value => deepHashB64 suite value label) =
      ((values.map fun value => b64Node value label).map (deepHash suite <$> ·)).mapM id := by
    rw [List.map_map, List.mapM_map]
    exact congrFun (congrArg _ (funext fun value => deepHashB64_eq suite value label)) values
  rw [deepHashB64List, nodes, b64ListNode, ← deepHashFields_eq, deepHashFields]

theorem deepHashPoa_eq (poa : BlockPoa) :
    deepHashPoa suite poa = deepHash suite <$> poaNode poa := by
  simp only [deepHashPoa, deepHashDecimal_eq, deepHashB64_eq, poaNode, ← deepHashFields_eq,
    List.map_cons, List.map_nil]

theorem deepHashWallet_eq (wallet : LegacyWallet) :
    deepHashWallet suite wallet = deepHash suite <$> walletNode wallet := by
  simp only [deepHashWallet, deepHashNumber_eq, deepHashB64_eq, walletNode, ← deepHashFields_eq,
    List.map_cons, List.map_nil]

end Hashes

/-- Three lists, of which the second and the third start with the hash of the one before. -/
structure Layers where
  base : List Nested
  data : List Nested
  root : List Nested

namespace Layers

variable (suite : HashSuite) (layers : Layers)

def dataTree : Nested :=
  .list (.blob (deepHash suite (.list layers.base)).val :: layers.data)

def rootTree : Nested := .list (.blob (deepHash suite (layers.dataTree suite)).val :: layers.root)

def messages : List Bytes :=
  deepMessages suite (.list layers.base) ++ deepMessages suite (layers.dataTree suite) ++
    deepMessages suite (layers.rootTree suite)

theorem eq_of_rootTree {suite : HashSuite} {left right : Layers}
    (free : Collision.Free suite.digest384 (left.messages suite ++ right.messages suite))
    (same : left.rootTree suite = right.rootTree suite) : left = right := by
  obtain ⟨leftBase, leftData, leftRoot⟩ := left
  obtain ⟨rightBase, rightData, rightRoot⟩ := right
  simp only [rootTree, Nested.list.injEq, List.cons.injEq, Nested.blob.injEq] at same
  obtain ⟨data, rfl⟩ := same
  have dataSame := deepHash_inj (free.mono (by
    simp only [messages]
    intro message member
    simp only [List.mem_append] at member ⊢
    tauto)) (Subtype.ext data)
  simp only [dataTree, Nested.list.injEq, List.cons.injEq, Nested.blob.injEq] at dataSame
  obtain ⟨base, rfl⟩ := dataSame
  have baseSame := deepHash_inj (free.mono (by
    simp only [messages]
    intro message member
    simp only [List.mem_append] at member ⊢
    tauto)) (Subtype.ext base)
  simp only [Nested.list.injEq] at baseSame
  rw [baseSame]

end Layers

/-- What the identifier of a header hashes. -/
inductive HeaderImage where
  | text (preimage : Bytes)
  | fields (nodes : List Nested)
  | layered (layers : Layers)

namespace HeaderImage

variable (suite : HashSuite)

/-- The identifier of an image. -/
def hash : HeaderImage → FixedBytes 48
  | text preimage => suite.digest384 preimage
  | fields nodes => deepHash suite (.list nodes)
  | layered layers => deepHash suite (layers.rootTree suite)

/-- The messages that the identifier of an image hashes. -/
def messages : HeaderImage → List Bytes
  | text preimage => [preimage]
  | fields nodes => deepMessages suite (.list nodes)
  | layered layers => layers.messages suite

/-- The sizes that tell the layouts apart. -/
def WellSized : HeaderImage → Prop
  | text preimage => 96 < preimage.length
  | fields nodes => nodes.length = 16
  | layered layers => layers.root.length < 15

/-- The deep hash of a list that is not empty is the digest of two hashes. -/
theorem deepHash_cons (suite : HashSuite) (node : Nested) (nodes : List Nested) :
    ∃ message ∈ deepMessages suite (.list (node :: nodes)), message.length = 96 ∧
      deepHash suite (.list (node :: nodes)) = suite.digest384 message := by
  obtain ⟨front, last, split⟩ : ∃ front last,
      (deepScheme suite).hashes (node :: nodes) = front ++ [last] :=
    (List.eq_nil_or_concat' _).resolve_left (by rw [Scheme.hashes]; exact List.cons_ne_nil _ _)
  have count : ((deepScheme suite).hashes (node :: nodes)).length = (node :: nodes).length :=
    Scheme.length_hashes _ _
  refine ⟨((deepScheme suite).chain ((deepScheme suite).digest
    ((deepScheme suite).listTag (node :: nodes).length)) front).val ++ last.val, ?_, ?_, ?_⟩
  · rw [deepMessages, Scheme.messages, split, Scheme.chainMessages_concat]
    exact List.mem_cons_of_mem _ (List.mem_append_left _ (List.mem_append_right _
      List.mem_cons_self))
  · rw [Scheme.length_concat]
  · rw [deepHash, Scheme.hash, Scheme.listHash, count, split, Scheme.chain_concat]
    rfl

/-- Images of the sizes of the layouts are told apart by their identifiers. -/
theorem eq_of_hash {suite : HashSuite} {left right : HeaderImage}
    (free : Collision.Free suite.digest384 (left.messages suite ++ right.messages suite))
    (leftSized : left.WellSized) (rightSized : right.WellSized)
    (same : left.hash suite = right.hash suite) : left = right := by
  have textual : ∀ {preimage : Bytes} {node : Nested} {nodes : List Nested} {messages : List Bytes},
      96 < preimage.length → preimage ∈ messages →
      deepMessages suite (.list (node :: nodes)) ⊆ messages →
      Collision.Free suite.digest384 messages →
      suite.digest384 preimage ≠ deepHash suite (.list (node :: nodes)) := by
    intro preimage node nodes messages long member covered free same
    obtain ⟨message, hashed, width, digest⟩ := deepHash_cons suite node nodes
    obtain rfl := free.eq member (covered hashed) (same.trans digest)
    omega
  cases left with
  | text leftText =>
      cases right with
      | text rightText =>
          rw [free.eq List.mem_cons_self (by simp [messages]) same]
      | fields nodes =>
          cases nodes with
          | nil => simp [WellSized] at rightSized
          | cons node nodes =>
              exact absurd same (textual leftSized (List.mem_append_left _ List.mem_cons_self)
                (List.subset_append_right _ _) free)
      | layered layers =>
          refine absurd same (textual leftSized (List.mem_append_left _ List.mem_cons_self)
            (fun _ member => List.mem_append_right _ (List.mem_append_right _ member)) free)
  | fields nodes =>
      cases right with
      | text rightText =>
          cases nodes with
          | nil => simp [WellSized] at leftSized
          | cons node nodes =>
              exact absurd same.symm (textual rightSized
                (List.mem_append_right _ List.mem_cons_self) (List.subset_append_left _ _) free)
      | fields others =>
          have trees := deepHash_inj free same
          rw [Nested.list.inj trees]
      | layered layers =>
          have trees := deepHash_inj (free.mono (List.append_subset.mpr
            ⟨List.subset_append_left _ _,
              fun _ member => List.mem_append_right _ (List.mem_append_right _ member)⟩)) same
          have sizes := congrArg List.length (Nested.list.inj trees)
          simp only [WellSized, List.length_cons] at leftSized rightSized sizes
          omega
  | layered layers =>
      cases right with
      | text rightText =>
          exact absurd same.symm (textual rightSized (List.mem_append_right _ List.mem_cons_self)
            (fun _ member => List.mem_append_left _ (List.mem_append_right _ member)) free)
      | fields nodes =>
          have trees := deepHash_inj (free.mono (List.append_subset.mpr
            ⟨fun _ member => List.mem_append_left _ (List.mem_append_right _ member),
              List.subset_append_right _ _⟩)) same
          have sizes := congrArg List.length (Nested.list.inj trees)
          simp only [WellSized, List.length_cons] at leftSized rightSized sizes
          omega
      | layered others =>
          have trees := deepHash_inj (free.mono (List.append_subset.mpr
            ⟨fun _ member => List.mem_append_left _ (List.mem_append_right _ member),
              fun _ member => List.mem_append_right _ (List.mem_append_right _ member)⟩)) same
          rw [Layers.eq_of_rootTree free trees]

end HeaderImage

/-! ## The images of headers -/

/-- The fields of the base that every layout from fork 2.0 on has. -/
def coreNodes (block : BlockHeader) : List (Checked Nested) :=
  [ decimalNode (decimalString block.height) "block height",
    b64Node block.previousBlock "previous block",
    b64Node block.txRoot "block tx_root",
    b64ListNode block.txs "block transaction ID",
    decimalNode block.blockSize "block size",
    decimalNode block.weaveSize "block weave size",
    rewardNode block.rewardAddr,
    listNode (block.tags.map tagNode) ]

/-- The fields of the base that fork 2.5 adds. -/
def rateNodes (block : BlockHeader) : List (Checked Nested) :=
  [ decimalNode block.usdToArRate.1 "USD rate dividend",
    decimalNode block.usdToArRate.2 "USD rate divisor",
    decimalNode block.scheduledUsdToArRate.1 "scheduled USD rate dividend",
    decimalNode block.scheduledUsdToArRate.2 "scheduled USD rate divisor",
    decimalNode block.packing25Threshold "packing threshold",
    decimalNode block.strictDataSplitThreshold "strict data split threshold" ]

/-- The fields of the data segment of fork 2.5. -/
def pre26DataNodes (block : BlockHeader) : List (Checked Nested) :=
  [ decimalNode (decimalString block.timestamp) "block timestamp",
    decimalNode (decimalString block.lastRetarget) "last retarget",
    decimalNode block.diff "block difficulty",
    decimalNode block.cumulativeDiff "cumulative difficulty",
    decimalNode block.rewardPool "reward pool",
    b64Node block.walletList "wallet list",
    b64Node block.hashListMerkle "hash_list_merkle" ]

/-- The fields behind the data segment. -/
def rootNodes (block : BlockHeader) (poa : Nested) : List (Checked Nested) :=
  [ b64Node block.hash "block hash", b64Node block.nonce "block nonce", pure poa ]

/-- The image of a header of fork 2.5. -/
def pre26Image (block : BlockHeader) : Checked HeaderImage := do
  let core ← (coreNodes block).mapM id
  let base ← (rateNodes block).mapM id
  let data ← (pre26DataNodes block).mapM id
  let poa ← poaNode block.poa
  let root ← (rootNodes block poa).mapM id
  pure (.layered ⟨base ++ core, data, root⟩)

/-- The fields of the base between forks 2.0 and 2.5. -/
def modernBaseNodes (block : BlockHeader) (transactions poa : Nested) : List (Checked Nested) :=
  [ numberNode block.height,
    b64Node block.previousBlock "previous block",
    b64Node block.txRoot "block tx_root",
    pure transactions,
    decimalNode block.blockSize "block size",
    decimalNode block.weaveSize "block weave size",
    rewardNode block.rewardAddr,
    pure (.list []),
    pure poa ]

/-- The fields of the data segment between forks 2.0 and 2.5. -/
def modernDataNodes (block : BlockHeader) : List (Checked Nested) :=
  [ numberNode block.timestamp,
    numberNode block.lastRetarget,
    decimalNode block.diff "block difficulty",
    decimalNode block.cumulativeDiff "cumulative difficulty",
    decimalNode block.rewardPool "reward pool",
    b64Node block.walletList "wallet-list root",
    b64Node block.hashListMerkle "hash_list_merkle" ]

/-- The image of a header between forks 2.0 and 2.5 with its transactions. -/
def modernImage (block : BlockHeader) (transactions : Nested) : Checked HeaderImage := do
  let poa ← poaNode block.poa
  let base ← (modernBaseNodes block transactions poa).mapM id
  let data ← (modernDataNodes block).mapM id
  let root ← (rootNodes block poa).mapM id
  pure (.layered
    (if block.height < fork24Height then ⟨base, data, root.take 2⟩ else ⟨base.take 8, data, root⟩))

/-- The fields of a header between forks 1.6 and 2.0. -/
def walletImageNodes (block : BlockHeader) (wallets : List Nested) : List (Checked Nested) :=
  [ b64Node block.nonce "block nonce",
    b64Node block.previousBlock "previous block",
    numberNode block.timestamp,
    numberNode block.lastRetarget,
    decimalNode block.diff "block difficulty",
    decimalNode block.cumulativeDiff "cumulative difficulty",
    numberNode block.height,
    b64Node block.hash "block hash",
    b64Node block.hashListMerkle "hash_list_merkle",
    b64ListNode block.txs "block transaction ID",
    pure (.list wallets),
    rewardNode block.rewardAddr,
    pure (.list []),
    decimalNode block.rewardPool "reward pool",
    decimalNode block.weaveSize "block weave size",
    decimalNode block.blockSize "block size" ]

/-- The image of a header between forks 1.6 and 2.0. -/
def walletImage (block : BlockHeader) : Checked HeaderImage := do
  let wallets ← requiredWallets block
  let trees ← (wallets.map walletNode).mapM id
  .fields <$> (walletImageNodes block trees).mapM id

section Images

variable (suite : HashSuite)

theorem deepHashFields_cons (node : Nested) (nodes : List (Checked Nested)) :
    deepHashFields suite (pure (deepHash suite node) :: nodes.map (deepHash suite <$> ·)) =
      (fun trees => deepHash suite (.list (node :: trees))) <$> nodes.mapM id := by
  have all := deepHashFields_eq suite (pure node :: nodes)
  rw [List.map_cons, map_pure] at all
  rw [all, listNode, List.mapM_cons]
  cases nodes.mapM id <;> rfl

theorem deepHashFields_root (block : BlockHeader) (data poa : Nested) :
    deepHashFields suite
      [ pure (deepHash suite data), deepHash suite <$> b64Node block.hash "block hash",
        deepHash suite <$> b64Node block.nonce "block nonce", pure (deepHash suite poa) ] =
      (fun trees => deepHash suite (.list (data :: trees))) <$> (rootNodes block poa).mapM id :=
  deepHashFields_cons suite data (rootNodes block poa)

theorem map_ok {α β : Type} (f : α → β) (value : α) :
    f <$> (.ok value : Checked α) = .ok (f value) := rfl

theorem pre26IndepHash_eq (block : BlockHeader) :
    pre26IndepHash suite block = HeaderImage.hash suite <$> pre26Image block := by
  have core := mapM_hash suite (coreNodes block)
  have rates := mapM_hash suite (rateNodes block)
  have data := fun base => deepHashFields_cons suite base (pre26DataNodes block)
  have tags : block.tags.map (deepHashTag suite) =
      (block.tags.map tagNode).map (deepHash suite <$> ·) := by
    rw [List.map_map]
    exact List.map_congr_left fun tag _ => deepHashTag_eq suite tag
  conv at core => lhs; simp only [coreNodes, List.map_cons, List.map_nil]
  conv at rates => lhs; simp only [rateNodes, List.map_cons, List.map_nil]
  conv at data => ext; lhs; simp only [pre26DataNodes, List.map_cons, List.map_nil]
  simp only [pre26IndepHash, deepHashDecimal_eq, deepHashB64_eq, deepHashB64List_eq,
    deepHashReward_eq, tags, deepHashFields_eq, deepHashPoa_eq, deepHashBlob_eq, core, rates, data,
    pre26Image]
  cases (coreNodes block).mapM id with
  | error message => rfl
  | ok core =>
      cases (rateNodes block).mapM id with
      | error message => rfl
      | ok rates =>
          simp only [map_ok, Checked.ok_bind, ← List.map_append, deepHashList_eq]
          cases (pre26DataNodes block).mapM id with
          | error message => rfl
          | ok data =>
              cases poaNode block.poa with
              | error message => rfl
              | ok poa =>
                  simp only [map_ok, Checked.ok_bind, deepHashFields_root]
                  cases (rootNodes block poa).mapM id <;> rfl

theorem modernIndepHash_eq (block : BlockHeader) (transactions : Nested) :
    modernIndepHash suite block (deepHash suite transactions) =
      HeaderImage.hash suite <$> modernImage block transactions := by
  have base := fun poa => mapM_hash suite (modernBaseNodes block transactions poa)
  have data := fun base => deepHashFields_cons suite base (modernDataNodes block)
  have root := fun data poa => mapM_hash suite (pure data :: rootNodes block poa)
  conv at base => ext; lhs; simp only [modernBaseNodes, List.map_cons, List.map_nil, map_pure]
  conv at data => ext; lhs; simp only [modernDataNodes, List.map_cons, List.map_nil]
  conv at root => ext; ext; lhs; simp only [rootNodes, List.map_cons, List.map_nil, map_pure]
  have empty : deepHashList suite [] = deepHash suite (.list []) := deepHashList_eq suite []
  simp only [modernIndepHash, deepHashDecimal_eq, deepHashB64_eq, deepHashNumber_eq,
    deepHashReward_eq, deepHashPoa_eq, deepHashBlob_eq, empty, modernImage]
  cases poaNode block.poa with
  | error message => rfl
  | ok poa =>
      simp only [map_ok, Checked.ok_bind, base, data]
      cases (modernBaseNodes block transactions poa).mapM id with
      | error message => rfl
      | ok base =>
          simp only [map_ok, Checked.ok_bind]
          cases (modernDataNodes block).mapM id with
          | error message => rfl
          | ok data =>
              simp only [map_ok, Checked.ok_bind, root, List.mapM_cons, id, pure_bind]
              cases (rootNodes block poa).mapM id with
              | error message => rfl
              | ok root =>
                  simp only [Checked.ok_bind]
                  by_cases early : block.height < fork24Height
                  · simp only [if_pos early, deepHashList_eq, map_pure, pure_bind, ← List.map_take]
                    rfl
                  · simp only [if_neg early, deepHashList_eq, map_pure, pure_bind, ← List.map_take]
                    rfl

theorem walletIndepHash_eq (block : BlockHeader) :
    walletIndepHash suite block = HeaderImage.hash suite <$> walletImage block := by
  have fields := fun wallets => deepHashFields_eq suite (walletImageNodes block wallets)
  conv at fields => ext; lhs; simp only [walletImageNodes, List.map_cons, List.map_nil, map_pure]
  have empty : deepHashList suite [] = deepHash suite (.list []) := deepHashList_eq suite []
  have hashes : ∀ wallets : List LegacyWallet, wallets.mapM (deepHashWallet suite) =
      ((wallets.map walletNode).map (deepHash suite <$> ·)).mapM id := by
    intro wallets
    rw [List.map_map, List.mapM_map]
    exact congrFun (congrArg _ (funext fun wallet => deepHashWallet_eq suite wallet)) wallets
  simp only [walletIndepHash, deepHashDecimal_eq, deepHashB64_eq, deepHashNumber_eq,
    deepHashB64List_eq, deepHashReward_eq, hashes, mapM_hash, empty, walletImage]
  cases requiredWallets block with
  | error message => rfl
  | ok wallets =>
      simp only [Checked.ok_bind]
      cases (wallets.map walletNode).mapM id with
      | error message => rfl
      | ok trees =>
          simp only [map_ok, Checked.ok_bind, deepHashList_eq, fields, listNode]
          cases (walletImageNodes block trees).mapM id <;> rfl

end Images

/-- Sequences of fields with the same nodes agree field by field. -/
theorem same_of_mapM {lefts rights : List (Checked Nested)} {nodes : List Nested}
    (leftRead : lefts.mapM id = .ok nodes) (rightRead : rights.mapM id = .ok nodes) :
    List.Forall₂ SameValue lefts rights := by
  rw [Checked.mapM_eq_ok] at leftRead rightRead
  induction leftRead generalizing rights with
  | nil => cases rightRead; exact .nil
  | cons left _ induction =>
      cases rightRead with
      | cons right others => exact .cons ⟨_, left, right⟩ (induction others)

/-- Values agree when they agree after an injective function. -/
theorem SameValue.of_map {α β : Type} {f : α → β} (injective : Function.Injective f)
    {left right : Checked α} (same : SameValue (f <$> left) (f <$> right)) :
    SameValue left right := by
  obtain ⟨value, leftMapped, rightMapped⟩ := same
  obtain ⟨leftValue, leftRead, rfl⟩ := Checked.map_eq_ok.mp leftMapped
  obtain ⟨rightValue, rightRead, equal⟩ := Checked.map_eq_ok.mp rightMapped
  exact ⟨leftValue, leftRead, injective equal ▸ rightRead⟩

theorem blob_injective : Function.Injective Nested.blob := fun _ _ same => Nested.blob.inj same

theorem sameValue_of_listNode {lefts rights : List (Checked Nested)}
    (same : SameValue (listNode lefts) (listNode rights)) : List.Forall₂ SameValue lefts rights := by
  obtain ⟨nodes, leftRead, rightRead⟩ := same.of_map fun _ _ list => Nested.list.inj list
  exact same_of_mapM leftRead rightRead

theorem sameNumber_of_node {label left right : String}
    (same : SameValue (decimalNode left label) (decimalNode right label)) :
    SameNumber label left right :=
  same.of_map (blob_injective.comp decimal_injective)

theorem eq_of_numberNode {left right : Nat}
    (same : SameValue (numberNode left) (numberNode right)) : left = right := by
  obtain ⟨node, leftRead, rightRead⟩ := same
  exact decimal_injective (Nested.blob.inj (Except.ok.inj (leftRead.trans rightRead.symm)))

theorem eq_of_decimalString_node {label : String} {left right : Nat}
    (same : SameValue (decimalNode (decimalString left) label)
      (decimalNode (decimalString right) label)) : left = right := by
  obtain ⟨number, leftRead, rightRead⟩ := sameNumber_of_node same
  rw [parseBiguint_decimalString] at leftRead rightRead
  exact (Except.ok.inj leftRead).trans (Except.ok.inj rightRead).symm

theorem eq_of_b64Node {label left right : String}
    (same : SameValue (b64Node left label) (b64Node right label)) : left = right :=
  eq_of_sameB64 (same.of_map blob_injective)

theorem eq_of_b64ListNode {label : String} {lefts rights : List String}
    (same : SameValue (b64ListNode lefts label) (b64ListNode rights label)) : lefts = rights := by
  have texts := sameValue_of_listNode same
  rw [List.forall₂_map_left_iff, List.forall₂_map_right_iff] at texts
  exact List.forall₂_eq_eq_eq ▸ texts.imp fun _ _ => eq_of_b64Node

theorem sameReward_of_node {left right : String}
    (same : SameValue (rewardNode left) (rewardNode right)) :
    SameValue (rewardAddress left false) (rewardAddress right false) :=
  same.of_map blob_injective

theorem eq_of_tagNode {left right : JsonValue} (same : SameValue (tagNode left) (tagNode right)) :
    left = right := by
  obtain ⟨node, leftRead, rightRead⟩ := same
  simp only [tagNode, Checked.bind_eq_ok, Checked.context_eq_ok] at leftRead rightRead
  obtain ⟨leftText, leftIs, leftRead⟩ := leftRead
  obtain ⟨rightText, rightIs, rightRead⟩ := rightRead
  obtain rfl : leftText = rightText := eq_of_b64Node ⟨node, leftRead, rightRead⟩
  cases left with
  | string left =>
      cases right with
      | string right =>
          rw [Option.some.inj leftIs, Option.some.inj rightIs]
      | _ => cases rightIs
  | _ => cases leftIs

/-- Agreement of two proofs of access. -/
structure SamePoa (left right : BlockPoa) : Prop where
  option : SameNumber "proof option" left.option right.option
  txPath : left.txPath = right.txPath
  dataPath : left.dataPath = right.dataPath
  chunk : left.chunk = right.chunk

theorem samePoa_of_node {left right : BlockPoa} (same : SameValue (poaNode left) (poaNode right)) :
    SamePoa left right := by
  have fields := sameValue_of_listNode same
  simp only [List.forall₂_cons] at fields
  obtain ⟨option, txPath, dataPath, chunk, _⟩ := fields
  exact ⟨sameNumber_of_node option, eq_of_b64Node txPath, eq_of_b64Node dataPath,
    eq_of_b64Node chunk⟩

theorem eq_of_walletNode {left right : LegacyWallet}
    (same : SameValue (walletNode left) (walletNode right)) : left = right := by
  have fields := sameValue_of_listNode same
  simp only [List.forall₂_cons] at fields
  obtain ⟨address, balance, lastTx, _⟩ := fields
  obtain ⟨leftAddress, leftBalance, leftLastTx⟩ := left
  obtain ⟨rightAddress, rightBalance, rightLastTx⟩ := right
  rw [show leftAddress = rightAddress from eq_of_b64Node address,
    show leftBalance = rightBalance from eq_of_numberNode balance,
    show leftLastTx = rightLastTx from eq_of_b64Node lastTx]

/-- Agreement on the fields of every layout.  Integers agree as numbers, and an unclaimed reward
agrees with the address that has its letters. -/
structure SameEarlyFields (left right : BlockHeader) : Prop where
  height : left.height = right.height
  nonce : left.nonce = right.nonce
  previousBlock : left.previousBlock = right.previousBlock
  timestamp : left.timestamp = right.timestamp
  lastRetarget : left.lastRetarget = right.lastRetarget
  hash : left.hash = right.hash
  diff : SameNumber "block difficulty" left.diff right.diff
  rewardPool : SameNumber "reward pool" left.rewardPool right.rewardPool
  weaveSize : SameNumber "block weave size" left.weaveSize right.weaveSize
  blockSize : SameNumber "block size" left.blockSize right.blockSize
  rewardAddr : SameValue (rewardAddress left.rewardAddr false)
    (rewardAddress right.rewardAddr false)

/-- Agreement on the fields that fork 1.6 adds. -/
structure SameFork16Fields (left right : BlockHeader) : Prop where
  cumulativeDiff : SameNumber "cumulative difficulty" left.cumulativeDiff right.cumulativeDiff
  hashListMerkle : left.hashListMerkle = right.hashListMerkle

/-- Agreement on the fields that fork 2.0 adds. -/
structure SameFork20Fields (left right : BlockHeader) : Prop where
  txRoot : left.txRoot = right.txRoot
  walletList : left.walletList = right.walletList
  poa : SamePoa left.poa right.poa

/-- Agreement on the fields that fork 2.5 adds. -/
structure SameFork25Fields (left right : BlockHeader) : Prop where
  tags : left.tags = right.tags
  usdDividend : SameNumber "USD rate dividend" left.usdToArRate.1 right.usdToArRate.1
  usdDivisor : SameNumber "USD rate divisor" left.usdToArRate.2 right.usdToArRate.2
  scheduledDividend : SameNumber "scheduled USD rate dividend" left.scheduledUsdToArRate.1
    right.scheduledUsdToArRate.1
  scheduledDivisor : SameNumber "scheduled USD rate divisor" left.scheduledUsdToArRate.2
    right.scheduledUsdToArRate.2
  packing25Threshold : SameNumber "packing threshold" left.packing25Threshold
    right.packing25Threshold
  strictDataSplitThreshold : SameNumber "strict data split threshold"
    left.strictDataSplitThreshold right.strictDataSplitThreshold

theorem mapM_take {nodes : List (Checked Nested)} {trees : List Nested}
    (read : nodes.mapM id = .ok trees) (count : Nat) :
    (nodes.take count).mapM id = .ok (trees.take count) := by
  rw [Checked.mapM_eq_ok] at read ⊢
  exact List.forall₂_take count read

theorem length_of_mapM {nodes : List (Checked Nested)} {trees : List Nested}
    (read : nodes.mapM id = .ok trees) : trees.length = nodes.length :=
  (Checked.mapM_eq_ok.mp read).length_eq.symm

theorem same_of_pre26Image {left right : BlockHeader}
    (same : SameValue (pre26Image left) (pre26Image right)) :
    SameEarlyFields left right ∧ SameFork16Fields left right ∧ SameFork20Fields left right ∧
      SameFork25Fields left right ∧ left.txs = right.txs := by
  obtain ⟨image, leftRead, rightRead⟩ := same
  simp only [pre26Image, Checked.bind_eq_ok, Checked.pure_eq_ok] at leftRead rightRead
  obtain ⟨core, leftCore, rates, leftRates, data, leftData, poa, leftPoa, root, leftRoot, rfl⟩ :=
    leftRead
  obtain ⟨core', rightCore, rates', rightRates, data', rightData, poa', rightPoa, root', rightRoot,
    equal⟩ := rightRead
  simp only [HeaderImage.layered.injEq, Layers.mk.injEq] at equal
  obtain ⟨base, rfl, rfl⟩ := equal
  obtain ⟨rfl, rfl⟩ := List.append_inj base (by
    rw [length_of_mapM leftRates, length_of_mapM rightRates]
    rfl)
  have cores := same_of_mapM leftCore rightCore
  have rates := same_of_mapM leftRates rightRates
  have datas := same_of_mapM leftData rightData
  have roots := same_of_mapM leftRoot rightRoot
  simp only [coreNodes, rateNodes, pre26DataNodes, rootNodes,
    List.forall₂_cons] at cores rates datas roots
  obtain ⟨height, previousBlock, txRoot, txs, blockSize, weaveSize, rewardAddr, tags, _⟩ := cores
  obtain ⟨usdDividend, usdDivisor, scheduledDividend, scheduledDivisor, packing, strict, _⟩ := rates
  obtain ⟨timestamp, lastRetarget, diff, cumulativeDiff, rewardPool, walletList, merkle, _⟩ := datas
  obtain ⟨hash, nonce, ⟨tree, ⟨⟩, ⟨⟩⟩, _⟩ := roots
  have tags := sameValue_of_listNode tags
  rw [List.forall₂_map_left_iff, List.forall₂_map_right_iff] at tags
  exact
    ⟨{ height := eq_of_decimalString_node height
       nonce := eq_of_b64Node nonce
       previousBlock := eq_of_b64Node previousBlock
       timestamp := eq_of_decimalString_node timestamp
       lastRetarget := eq_of_decimalString_node lastRetarget
       hash := eq_of_b64Node hash
       diff := sameNumber_of_node diff
       rewardPool := sameNumber_of_node rewardPool
       weaveSize := sameNumber_of_node weaveSize
       blockSize := sameNumber_of_node blockSize
       rewardAddr := sameReward_of_node rewardAddr },
     ⟨sameNumber_of_node cumulativeDiff, eq_of_b64Node merkle⟩,
     ⟨eq_of_b64Node txRoot, eq_of_b64Node walletList, samePoa_of_node ⟨_, leftPoa, rightPoa⟩⟩,
     { tags := List.forall₂_eq_eq_eq ▸ tags.imp fun _ _ => eq_of_tagNode
       usdDividend := sameNumber_of_node usdDividend
       usdDivisor := sameNumber_of_node usdDivisor
       scheduledDividend := sameNumber_of_node scheduledDividend
       scheduledDivisor := sameNumber_of_node scheduledDivisor
       packing25Threshold := sameNumber_of_node packing
       strictDataSplitThreshold := sameNumber_of_node strict },
     eq_of_b64ListNode txs⟩

/-- The fields that a base of either layout has in front of the proof. -/
theorem same_of_modernBase {left right : BlockHeader} {leftTransactions rightTransactions poa poa' :
      Nested} {base base' : List Nested}
    (leftBase : (modernBaseNodes left leftTransactions poa).mapM id = .ok base)
    (rightBase : (modernBaseNodes right rightTransactions poa').mapM id = .ok base')
    (same : base.take 8 = base'.take 8) :
    left.height = right.height ∧ left.previousBlock = right.previousBlock ∧
      left.txRoot = right.txRoot ∧ leftTransactions = rightTransactions ∧
      SameNumber "block size" left.blockSize right.blockSize ∧
      SameNumber "block weave size" left.weaveSize right.weaveSize ∧
      SameValue (rewardAddress left.rewardAddr false) (rewardAddress right.rewardAddr false) := by
  have fields := same_of_mapM (mapM_take leftBase 8) (same ▸ mapM_take rightBase 8)
  simp only [modernBaseNodes, List.take_succ_cons, List.take_zero, List.forall₂_cons] at fields
  obtain ⟨height, previousBlock, txRoot, ⟨tree, leftTree, rightTree⟩, blockSize, weaveSize,
    rewardAddr, _⟩ := fields
  exact ⟨eq_of_numberNode height, eq_of_b64Node previousBlock, eq_of_b64Node txRoot,
    Except.ok.inj (leftTree.trans rightTree.symm), sameNumber_of_node blockSize,
    sameNumber_of_node weaveSize, sameReward_of_node rewardAddr⟩

theorem same_of_modernImage {left right : BlockHeader} {leftTransactions rightTransactions : Nested}
    (same : SameValue (modernImage left leftTransactions)
      (modernImage right rightTransactions)) :
    SameEarlyFields left right ∧ SameFork16Fields left right ∧ SameFork20Fields left right ∧
      leftTransactions = rightTransactions := by
  obtain ⟨image, leftRead, rightRead⟩ := same
  simp only [modernImage, Checked.bind_eq_ok, Checked.pure_eq_ok] at leftRead rightRead
  obtain ⟨poa, leftPoa, base, leftBase, data, leftData, root, leftRoot, rfl⟩ := leftRead
  obtain ⟨poa', rightPoa, base', rightBase, data', rightData, root', rightRoot, equal⟩ := rightRead
  have rootLength := length_of_mapM leftRoot
  have rootLength' := length_of_mapM rightRoot
  have baseLength := length_of_mapM leftBase
  have baseLength' := length_of_mapM rightBase
  have layers : data' = data ∧ base'.take 8 = base.take 8 ∧ root'.take 2 = root.take 2 ∧
      (base' = base ∨ root' = root) := by
    have kinds := HeaderImage.layered.inj equal
    simp only [rootNodes, List.length_cons, List.length_nil] at rootLength rootLength'
    split at kinds <;> split at kinds
    · obtain ⟨rfl, rfl, root⟩ := Layers.mk.inj kinds
      exact ⟨rfl, rfl, root, .inl rfl⟩
    · have lengths := congrArg List.length (Layers.mk.inj kinds).2.2
      rw [List.length_take] at lengths
      omega
    · have lengths := congrArg List.length (Layers.mk.inj kinds).2.2
      rw [List.length_take] at lengths
      omega
    · obtain ⟨base, rfl, rfl⟩ := Layers.mk.inj kinds
      exact ⟨rfl, base, rfl, .inr rfl⟩
  obtain ⟨rfl, base, root, proof⟩ := layers
  obtain ⟨height, previousBlock, txRoot, transactions, blockSize, weaveSize, rewardAddr⟩ :=
    same_of_modernBase leftBase rightBase base.symm
  have datas := same_of_mapM leftData rightData
  have roots := same_of_mapM (mapM_take leftRoot 2) (root ▸ mapM_take rightRoot 2)
  simp only [modernDataNodes, rootNodes, List.take_succ_cons, List.take_zero,
    List.forall₂_cons] at datas roots
  obtain ⟨timestamp, lastRetarget, diff, cumulativeDiff, rewardPool, walletList, merkle, _⟩ := datas
  obtain ⟨hash, nonce, _⟩ := roots
  have poaSame : poa = poa' := by
    rcases proof with rfl | rfl
    · have fields := same_of_mapM leftBase rightBase
      simp only [modernBaseNodes, List.forall₂_cons] at fields
      obtain ⟨_, _, _, _, _, _, _, _, ⟨tree, leftTree, rightTree⟩, _⟩ := fields
      exact Except.ok.inj (leftTree.trans rightTree.symm)
    · have fields := same_of_mapM leftRoot rightRoot
      simp only [rootNodes, List.forall₂_cons] at fields
      obtain ⟨_, _, ⟨tree, leftTree, rightTree⟩, _⟩ := fields
      exact Except.ok.inj (leftTree.trans rightTree.symm)
  exact
    ⟨{ height, previousBlock, blockSize, weaveSize, rewardAddr
       nonce := eq_of_b64Node nonce
       timestamp := eq_of_numberNode timestamp
       lastRetarget := eq_of_numberNode lastRetarget
       hash := eq_of_b64Node hash
       diff := sameNumber_of_node diff
       rewardPool := sameNumber_of_node rewardPool },
     ⟨sameNumber_of_node cumulativeDiff, eq_of_b64Node merkle⟩,
     ⟨txRoot, eq_of_b64Node walletList, samePoa_of_node ⟨poa, leftPoa, poaSame ▸ rightPoa⟩⟩,
     transactions⟩

theorem same_of_walletImage {left right : BlockHeader}
    (same : SameValue (walletImage left) (walletImage right)) :
    SameEarlyFields left right ∧ SameFork16Fields left right ∧ left.txs = right.txs ∧
      left.legacyWallets = right.legacyWallets := by
  obtain ⟨image, leftRead, rightRead⟩ := same
  simp only [walletImage, Checked.bind_eq_ok, Checked.map_eq_ok, requiredWallets,
    Checked.context_eq_ok] at leftRead rightRead
  obtain ⟨wallets, leftWallets, trees, leftTrees, nodes, leftNodes, rfl⟩ := leftRead
  obtain ⟨wallets', rightWallets, trees', rightTrees, nodes', rightNodes, equal⟩ := rightRead
  obtain rfl := HeaderImage.fields.inj equal
  have fields := same_of_mapM leftNodes rightNodes
  simp only [walletImageNodes, List.forall₂_cons] at fields
  obtain ⟨nonce, previousBlock, timestamp, lastRetarget, diff, cumulativeDiff, height, hash, merkle,
    txs, ⟨tree, leftTree, rightTree⟩, rewardAddr, _, rewardPool, weaveSize, blockSize, _⟩ := fields
  obtain rfl := Nested.list.inj (Except.ok.inj (leftTree.trans rightTree.symm))
  have walletNodes := same_of_mapM leftTrees rightTrees
  rw [List.forall₂_map_left_iff, List.forall₂_map_right_iff] at walletNodes
  have walletsSame : wallets = wallets' :=
    List.forall₂_eq_eq_eq ▸ walletNodes.imp fun _ _ => eq_of_walletNode
  exact
    ⟨{ height := eq_of_numberNode height
       nonce := eq_of_b64Node nonce
       previousBlock := eq_of_b64Node previousBlock
       timestamp := eq_of_numberNode timestamp
       lastRetarget := eq_of_numberNode lastRetarget
       hash := eq_of_b64Node hash
       diff := sameNumber_of_node diff
       rewardPool := sameNumber_of_node rewardPool
       weaveSize := sameNumber_of_node weaveSize
       blockSize := sameNumber_of_node blockSize
       rewardAddr := sameReward_of_node rewardAddr },
     ⟨sameNumber_of_node cumulativeDiff, eq_of_b64Node merkle⟩, eq_of_b64ListNode txs,
     by rw [leftWallets, rightWallets, walletsSame]⟩

section Text

variable (parseFloat : Bytes → Checked ShortestFloat)

theorem isNumberByte_of_digit {byte : UInt8} (digit : isAsciiDigit byte = true) :
    JsonText.isNumberByte byte = true := by
  simp only [isAsciiDigit, decide_eq_true_eq] at digit
  simp [JsonText.isNumberByte, digit]

theorem spelled_decimal (value : Nat) :
    decimal value ≠ [] ∧ (decimal value).all JsonText.isNumberByte = true :=
  ⟨decimal_ne_nil value, List.all_eq_true.mpr fun _ member =>
    isNumberByte_of_digit (isAsciiDigit_of_mem_decimal member)⟩

theorem stripMinus_eq (value : Bytes) :
    stripMinus value = value ∨ value = 45 :: stripMinus value := by
  unfold stripMinus
  split
  · exact .inr rfl
  · exact .inl rfl

theorem writeNumberStr_decimal (value : Nat) :
    writeNumberStr parseFloat (decimal value) = .ok (decimal value) := by
  have digits : (decimal value).all isAsciiDigit = true :=
    List.all_eq_true.mpr fun _ member => isAsciiDigit_of_mem_decimal member
  have unsigned : ∀ rest, decimal value ≠ 45 :: rest := fun rest same =>
    absurd (isAsciiDigit_of_mem_decimal (same ▸ List.mem_cons_self)) (by decide)
  have zero : utf8 "-0" = [45, 48] := by decide
  rw [writeNumberStr, (stripMinus_eq _).resolve_right (unsigned _),
    if_pos ⟨decimal_ne_nil value, digits⟩, zero, if_neg (unsigned _)]
  rfl

theorem spelled_signedDecimal (value : Int) :
    (signedDecimal value).all JsonText.isNumberByte = true := by
  rw [signedDecimal, List.all_cons, (spelled_decimal _).2, Bool.and_true]
  split <;> rfl

theorem spelled_writeF64 {value : ShortestFloat} {bytes : Bytes}
    (wrote : writeF64 value = .ok bytes) :
    bytes ≠ [] ∧ bytes.all JsonText.isNumberByte = true := by
  cases value with
  | nonFinite => cases wrote
  | zero =>
      obtain rfl := Checked.pure_eq_ok.mp wrote
      decide
  | finite negative mantissa exponent =>
      obtain ⟨mantissa, spelled⟩ := mantissa
      simp only [writeF64, Checked.bind_eq_ok, Checked.ensure_eq_ok, Checked.pure_eq_ok] at wrote
      obtain ⟨_, some, rfl⟩ := wrote
      generalize isDigits : ((List.drop _ (mantissa.filter (· ≠ 46))).reverse.dropWhile
        (· = 48)).reverse = digits at some
      have within : digits ⊆ mantissa := by
        rw [← isDigits]
        intro byte member
        rw [List.mem_reverse] at member
        have member := List.mem_reverse.mp ((List.dropWhile_suffix _).subset member)
        exact (List.mem_filter.mp (List.mem_of_mem_drop member)).1
      have all : ∀ part, part ⊆ digits → part.all JsonText.isNumberByte = true :=
        fun part inside => List.all_eq_true.mpr fun byte member =>
          List.all_eq_true.mp spelled byte (within (inside member))
      have taken := fun count => all _ (List.take_subset count digits)
      have dropped := fun count => all _ (List.drop_subset count digits)
      have rest := all _ (List.tail_subset digits)
      have zeros : ∀ count, (List.replicate count (48 : UInt8)).all JsonText.isNumberByte = true :=
        fun count => List.all_eq_true.mpr fun byte member =>
          List.eq_of_mem_replicate member ▸ rfl
      have point : utf8 "0." = [48, 46] := by decide
      have tail : utf8 ".0" = [46, 48] := by decide
      have sign : (if negative = true then [45] else []).all JsonText.isNumberByte = true := by
        cases negative <;> rfl
      have marks : JsonText.isNumberByte 46 = true ∧ JsonText.isNumberByte 48 = true ∧
          JsonText.isNumberByte 101 = true := ⟨rfl, rfl, rfl⟩
      rw [List.all_append, sign, point, tail]
      split_ifs <;>
        simp [List.all_append, -List.all_eq_true, taken, dropped, rest, zeros, all digits, marks, some,
          spelled_signedDecimal]

theorem spelled_writeNumberStr {value bytes : Bytes}
    (wrote : writeNumberStr parseFloat value = .ok bytes) :
    bytes ≠ [] ∧ bytes.all JsonText.isNumberByte = true := by
  rw [writeNumberStr] at wrote
  split at wrote
  · next integer =>
      have digits : (stripMinus value).all JsonText.isNumberByte = true :=
        List.all_eq_true.mpr fun byte member =>
          isNumberByte_of_digit (List.all_eq_true.mp integer.2 byte member)
      have zero : utf8 "0" = [48] := by decide
      obtain rfl := Checked.pure_eq_ok.mp wrote
      split
      · simp [zero, JsonText.isNumberByte]
      · rcases stripMinus_eq value with same | same
        · exact same ▸ ⟨integer.1, digits⟩
        · rw [same, List.all_cons, digits]
          exact ⟨List.cons_ne_nil _ _, rfl⟩
  · obtain ⟨float, _, floatWrote⟩ := Checked.bind_eq_ok.mp wrote
    exact spelled_writeF64 floatWrote

/-- Whatever is written for a number is the spelling of a number. -/
theorem writtenNumber_of_writeNumberStr {text : String} {bytes : Bytes}
    (wrote : writeNumberStr parseFloat (utf8 text) = .ok bytes) :
    writtenNumber parseFloat text =
      .ok (.number ⟨bytes, spelled_writeNumberStr parseFloat wrote⟩) := by
  rw [writtenNumber, wrote, Checked.ok_bind, dif_pos (spelled_writeNumberStr parseFloat wrote)]
  rfl

theorem integerJson_eq (value : Nat) :
    integerJson parseFloat value = .ok (.number ⟨decimal value, spelled_decimal value⟩) := by
  have wrote : writeNumberStr parseFloat (utf8 (decimalString value)) = .ok (decimal value) := by
    rw [utf8_decimalString, writeNumberStr_decimal]
  exact writtenNumber_of_writeNumberStr parseFloat wrote

theorem decimalNumber_eq_ok {value label : String} {node : JsonText.Json} :
    decimalNumber parseFloat value label = .ok node ↔ ∃ number,
      parseBiguint value label = .ok number ∧
        .number ⟨decimal number, spelled_decimal number⟩ = node := by
  simp [decimalNumber, integerJson_eq]

theorem sameNumber_of_decimalNumber {left right label : String} {node : JsonText.Json}
    (leftRead : decimalNumber parseFloat left label = .ok node)
    (rightRead : decimalNumber parseFloat right label = .ok node) :
    SameNumber label left right := by
  obtain ⟨number, leftParsed, rfl⟩ := (decimalNumber_eq_ok parseFloat).mp leftRead
  obtain ⟨other, rightParsed, same⟩ := (decimalNumber_eq_ok parseFloat).mp rightRead
  obtain rfl : other = number :=
    decimal_injective (congrArg Subtype.val (JsonText.Json.number.inj same))
  exact ⟨other, leftParsed, rightParsed⟩

theorem strings_injective : Function.Injective
    (List.map fun text => JsonText.Json.string (utf8 text)) :=
  List.map_injective_iff.mpr fun _ _ same => utf8_injective (JsonText.Json.string.inj same)

theorem eq_of_walletJson {left right : LegacyWallet} {node : JsonText.Json}
    (leftRead : walletJson parseFloat left = .ok node)
    (rightRead : walletJson parseFloat right = .ok node) : left = right := by
  obtain ⟨leftAddress, leftBalance, leftLastTx⟩ := left
  obtain ⟨rightAddress, rightBalance, rightLastTx⟩ := right
  simp only [walletJson, integerJson_eq, Checked.ok_bind, Checked.pure_eq_ok] at leftRead rightRead
  have same := JsonText.Json.object.inj (leftRead.trans rightRead.symm)
  simp only [textField, List.cons.injEq, Prod.mk.injEq, true_and, JsonText.Json.string.injEq,
    JsonText.Json.number.injEq, Subtype.mk.injEq, and_true] at same
  obtain ⟨address, balance, lastTx⟩ := same
  rw [utf8_injective address, decimal_injective balance, utf8_injective lastTx]

theorem eq_of_walletsJson {lefts rights : List LegacyWallet} {nodes : List JsonText.Json}
    (leftRead : lefts.mapM (walletJson parseFloat) = .ok nodes)
    (rightRead : rights.mapM (walletJson parseFloat) = .ok nodes) : lefts = rights := by
  rw [Checked.mapM_eq_ok] at leftRead rightRead
  induction leftRead generalizing rights with
  | nil => cases rightRead; rfl
  | cons left _ induction =>
      cases rightRead with
      | cons right others => rw [eq_of_walletJson parseFloat left right, induction others]

theorem rewardAddress_of_checkCanonical {block : BlockHeader} {wallets : List LegacyWallet}
    (checked : checkCanonical block wallets = .ok ()) :
    ∃ bytes, rewardAddress block.rewardAddr false = .ok bytes := by
  simp only [checkCanonical, Checked.bind_eq_ok] at checked
  obtain ⟨_, _, checked⟩ := checked
  split at checked
  · simp only [Checked.bind_eq_ok] at checked
    obtain ⟨_, _, _, _, _, _, _, _, _, _, _, _, bytes, read, _⟩ := checked
    exact ⟨bytes, read⟩
  · simp only [Checked.bind_eq_ok] at checked
    obtain ⟨_, _, _, _, _, _, _, _, _, _, _, _, bytes, read, _⟩ := checked
    exact ⟨bytes, read⟩

/-- Agreement on the fields that only the document has.  The numbers of the tags agree as they are
written. -/
structure SameTextFields (left right : BlockHeader) : Prop where
  rewardAddr : left.rewardAddr = right.rewardAddr
  hashList : left.hashList = right.hashList
  tags : SameValue (writtenItems parseFloat left.tags) (writtenItems parseFloat right.tags)

theorem same_of_canonicalBlock {left right : BlockHeader}
    (same : SameValue (canonicalBlock parseFloat left) (canonicalBlock parseFloat right)) :
    SameEarlyFields left right ∧ SameTextFields parseFloat left right ∧ left.txs = right.txs ∧
      left.legacyWallets = right.legacyWallets := by
  obtain ⟨document, leftRead, rightRead⟩ := same
  simp only [canonicalBlock, Checked.bind_eq_ok, Checked.pure_eq_ok, integerJson_eq,
    Except.ok.injEq, exists_eq_left', requiredWallets, Checked.context_eq_ok] at leftRead rightRead
  obtain ⟨wallets, leftWallets, _, leftChecked, diff, leftDiff, rewardPool, leftPool, weaveSize,
    leftWeave, blockSize, leftSize, walletNodes, leftNodes, tags, leftTags, rfl⟩ := leftRead
  obtain ⟨wallets', rightWallets, _, rightChecked, diff', rightDiff, rewardPool', rightPool,
    weaveSize', rightWeave, blockSize', rightSize, walletNodes', rightNodes, tags', rightTags,
    equal⟩ := rightRead
  simp only [textField, JsonText.Json.object.injEq, List.cons.injEq, Prod.mk.injEq, true_and,
    JsonText.Json.string.injEq, JsonText.Json.number.injEq, Subtype.mk.injEq,
    JsonText.Json.array.injEq, and_true] at equal
  obtain ⟨nonce, previousBlock, timestamp, lastRetarget, rfl, height, hash, txs, hashList, rfl,
    rewardAddr, rfl, rfl, rfl, rfl⟩ := equal
  have rewardSame := utf8_injective rewardAddr
  obtain ⟨bytes, read⟩ := rewardAddress_of_checkCanonical leftChecked
  have walletsSame := eq_of_walletsJson parseFloat leftNodes rightNodes
  exact
    ⟨{ height := (decimal_injective height).symm
       nonce := (utf8_injective nonce).symm
       previousBlock := (utf8_injective previousBlock).symm
       timestamp := (decimal_injective timestamp).symm
       lastRetarget := (decimal_injective lastRetarget).symm
       hash := (utf8_injective hash).symm
       diff := sameNumber_of_decimalNumber parseFloat leftDiff rightDiff
       rewardPool := sameNumber_of_decimalNumber parseFloat leftPool rightPool
       weaveSize := sameNumber_of_decimalNumber parseFloat leftWeave rightWeave
       blockSize := sameNumber_of_decimalNumber parseFloat leftSize rightSize
       rewardAddr := ⟨bytes, read, rewardSame ▸ read⟩ },
     ⟨rewardSame.symm, (strings_injective hashList).symm, ⟨_, leftTags, rightTags⟩⟩,
     (strings_injective txs).symm, by rw [leftWallets, rightWallets, walletsSame]⟩

theorem length_print_object (key : Bytes) (value : JsonText.Json)
    (fields : List (Bytes × JsonText.Json)) :
    ((key :: fields.map Prod.fst).map List.length).sum ≤
      (JsonText.print .upper (.object ((key, value) :: fields))).length := by
  have string : ∀ bytes : Bytes, bytes.length ≤ (JsonText.printString .upper bytes).length := by
    intro bytes
    simp only [JsonText.printString, List.length_cons, List.length_append]
    induction bytes with
    | nil => simp
    | cons byte bytes induction =>
        have some : 1 ≤ (JsonText.escapeByte .upper byte).length := by
          unfold JsonText.escapeByte
          split_ifs <;> simp
        rw [List.flatMap_cons, List.length_append, List.length_cons]
        omega
  have rest : ((fields.map Prod.fst).map List.length).sum ≤
      (JsonText.printFields .upper fields).length := by
    induction fields with
    | nil => simp
    | cons field fields induction =>
        obtain ⟨name, value⟩ := field
        have := string name
        simp only [JsonText.printFields, List.map_cons, List.sum_cons, List.length_cons,
          List.length_append]
        omega
  have := string key
  simp only [JsonText.print, List.map_cons, List.sum_cons, List.length_cons, List.length_append]
  omega

theorem length_canonicalPreimage {block : BlockHeader} {preimage : Bytes}
    (read : canonicalPreimage parseFloat block = .ok preimage) : 96 < preimage.length := by
  obtain ⟨document, built, rfl⟩ := Checked.map_eq_ok.mp read
  simp only [canonicalBlock, Checked.bind_eq_ok, Checked.pure_eq_ok] at built
  obtain ⟨_, _, _, _, _, _, _, _, _, _, _, _, _, _, _, _, _, _, _, _, _, _, rfl⟩ := built
  refine Nat.lt_of_lt_of_le ?_ (length_print_object _ _ _)
  simp only [textField, List.map_cons, List.map_nil]
  decide

end Text

theorem sortedTransactions_perm {block : BlockHeader} {ids : List (FixedBytes 32)}
    (sorted : sortedTransactions block = .ok ids) : ∃ decoded,
      block.txs.mapM (fun id => decodeFixed 32 id "block transaction ID") = .ok decoded ∧
        ids.Perm decoded := by
  simp only [sortedTransactions, Checked.bind_eq_ok, Checked.pure_eq_ok] at sorted
  obtain ⟨decoded, read, rfl⟩ := sorted
  exact ⟨decoded, read, List.perm_insertionSort _ _⟩

instance : Std.Total fun left right : FixedBytes 32 => left.val ≤ right.val :=
  ⟨fun _ _ => List.le_total _ _⟩

instance : IsTrans (FixedBytes 32) fun left right => left.val ≤ right.val :=
  ⟨fun _ _ _ low high => List.le_trans low high⟩

theorem insertionSort_of_perm {left right : List (FixedBytes 32)} (perm : left.Perm right) :
    left.insertionSort (fun left right => left.val ≤ right.val) =
      right.insertionSort fun left right => left.val ≤ right.val :=
  List.Perm.eq_of_pairwise (fun _ _ _ _ low high => Subtype.ext (List.le_antisymm low high))
    (List.pairwise_insertionSort _ left) (List.pairwise_insertionSort _ right)
    ((List.perm_insertionSort _ left).trans (perm.trans (List.perm_insertionSort _ right).symm))

/-- Transactions are determined by their decoded identifiers. -/
theorem txs_perm_of_decoded {lefts rights : List String} {label : String}
    {leftIds rightIds : List (FixedBytes 32)}
    (leftRead : lefts.mapM (fun id => decodeFixed 32 id label) = .ok leftIds)
    (rightRead : rights.mapM (fun id => decodeFixed 32 id label) = .ok rightIds)
    (perm : leftIds.Perm rightIds) : lefts.Perm rights := by
  have encoded : ∀ {texts : List String} {ids : List (FixedBytes 32)},
      texts.mapM (fun id => decodeFixed 32 id label) = .ok ids →
        texts.map utf8 = ids.map fun id => base64Encode id.val := by
    intro texts ids read
    rw [Checked.mapM_eq_ok] at read
    induction read with
    | nil => rfl
    | cons decoded _ induction =>
        rw [List.map_cons, List.map_cons, induction,
          base64Encode_of_decodeB64 (decodeFixed_eq_ok.mp decoded)]
  rw [← List.map_perm_map_iff utf8_injective, encoded leftRead, encoded rightRead]
  exact perm.map _

/-- Decoding succeeds in any order of the transactions, with the identifiers in that order. -/
theorem decoded_of_perm {lefts rights : List String} {label : String}
    {ids : List (FixedBytes 32)} (perm : lefts.Perm rights)
    (read : lefts.mapM (fun id => decodeFixed 32 id label) = .ok ids) :
    ∃ others, rights.mapM (fun id => decodeFixed 32 id label) = .ok others ∧
      ids.Perm others := by
  rw [Checked.mapM_eq_ok] at read
  obtain ⟨others, permuted, decoded⟩ := List.perm_comp_forall₂ perm.symm read
  exact ⟨others, Checked.mapM_eq_ok.mpr permuted, decoded.symm⟩

theorem sortedTransactions_of_perm {block : BlockHeader} {txs : List String}
    {ids : List (FixedBytes 32)} (perm : txs.Perm block.txs)
    (sorted : sortedTransactions block = .ok ids) :
    sortedTransactions { block with txs } = .ok ids := by
  simp only [sortedTransactions, Checked.bind_eq_ok, Checked.pure_eq_ok] at sorted ⊢
  obtain ⟨decoded, read, rfl⟩ := sorted
  obtain ⟨others, otherRead, otherPerm⟩ := decoded_of_perm perm.symm read
  exact ⟨others, otherRead, insertionSort_of_perm otherPerm.symm⟩

/-- The functions that compute identifiers of headers before fork 2.6. -/
inductive HeaderRoute where
  | pre26
  | historical
  | legacy
deriving DecidableEq

section Routes

variable (parseFloat : Bytes → Checked ShortestFloat) (suite : HashSuite)

/-- The transactions of a header of the legacy table as a node. -/
def sortedNode (ids : List (FixedBytes 32)) : Nested := .list (ids.map fun id => .blob id.val)

namespace HeaderRoute

/-- The hash of a header. -/
def hash (block : BlockHeader) : HeaderRoute → Checked (FixedBytes 48)
  | pre26 => pre26IndepHash suite block
  | historical => historicalIndepHash parseFloat suite block
  | legacy => do
      let _ ← legacyHashIndex block.height
      let transactions ← sortedTransactions block
      modernIndepHash suite block
        (deepHashList suite (transactions.map fun id => deepHashBlob suite id.val))

/-- What the hash of a header hashes. -/
def image (block : BlockHeader) : HeaderRoute → Checked HeaderImage
  | pre26 => pre26Image block
  | historical => do
      Checked.ensure (block.height < fork25Height) "not a pre-2.5 block"
      if block.height < fork16Height then do
        pure (.text (← canonicalPreimage parseFloat block))
      else if block.height < fork20Height then walletImage block
      else do modernImage block (← b64ListNode block.txs "block transaction ID")
  | legacy => do
      let _ ← legacyHashIndex block.height
      let transactions ← sortedTransactions block
      modernImage block (sortedNode transactions)

/-- The messages that are hashed for a header. -/
def messages (route : HeaderRoute) (block : BlockHeader) : List Bytes :=
  match route.image parseFloat block with
  | .ok image => image.messages suite
  | .error _ => []

theorem hash_eq (route : HeaderRoute) (block : BlockHeader) :
    route.hash parseFloat suite block =
      HeaderImage.hash suite <$> route.image parseFloat block := by
  cases route with
  | pre26 => exact pre26IndepHash_eq suite block
  | historical =>
      rw [hash, historicalIndepHash, image]
      cases Checked.ensure (block.height < fork25Height) "not a pre-2.5 block" with
      | error message => rfl
      | ok _ =>
          simp only [Checked.ok_bind]
          split
          · cases canonicalPreimage parseFloat block with
            | error message => rfl
            | ok preimage => simp [HashSuite.sha384, HeaderImage.hash]
          · split
            · exact walletIndepHash_eq suite block
            · rw [deepHashB64List_eq]
              cases b64ListNode block.txs "block transaction ID" with
              | error message => rfl
              | ok transactions => exact modernIndepHash_eq suite block transactions
  | legacy =>
      rw [hash, image]
      cases legacyHashIndex block.height with
      | error message => rfl
      | ok _ =>
          simp only [Checked.ok_bind]
          cases sortedTransactions block with
          | error message => rfl
          | ok ids =>
              have list : deepHashList suite (ids.map fun id => deepHashBlob suite id.val) =
                  deepHash suite (sortedNode ids) := by
                rw [sortedNode, ← deepHashList_eq, List.map_map]
                simp [Function.comp_def]
              rw [Checked.ok_bind, list]
              exact modernIndepHash_eq suite block (sortedNode ids)

end HeaderRoute

/-- The layouts, with the heights at which they are used. -/
inductive Layout : HeaderRoute → BlockHeader → HeaderImage → Prop
  | text {block document} : block.height < fork16Height →
      canonicalBlock parseFloat block = .ok document →
      Layout .historical block (.text (JsonText.print .upper document))
  | wallets {block nodes} : fork16Height ≤ block.height → block.height < fork20Height →
      walletImage block = .ok (.fields nodes) → Layout .historical block (.fields nodes)
  | modern {block transactions layers} : fork20Height ≤ block.height →
      b64ListNode block.txs "block transaction ID" = .ok transactions →
      modernImage block transactions = .ok (.layered layers) → layers.base.length < 14 →
      Layout .historical block (.layered layers)
  | legacy {block ids layers} : block.height < fork20Height → sortedTransactions block = .ok ids →
      modernImage block (sortedNode ids) = .ok (.layered layers) → layers.base.length < 14 →
      Layout .legacy block (.layered layers)
  | pre26 {block layers} : pre26Image block = .ok (.layered layers) → layers.base.length = 14 →
      Layout .pre26 block (.layered layers)

theorem layered_of_modernImage {block : BlockHeader} {transactions : Nested} {image : HeaderImage}
    (read : modernImage block transactions = .ok image) :
    ∃ layers, image = .layered layers ∧ layers.base.length < 14 ∧ layers.root.length < 15 := by
  simp only [modernImage, Checked.bind_eq_ok, Checked.pure_eq_ok] at read
  obtain ⟨poa, _, base, baseRead, data, _, root, rootRead, rfl⟩ := read
  have baseLength : base.length = 9 := length_of_mapM baseRead
  have rootLength : root.length = 3 := length_of_mapM rootRead
  refine ⟨_, rfl, ?_⟩
  split
  · simp only [List.length_take]
    omega
  · simp only [List.length_take]
    omega

theorem layout_of_image {route : HeaderRoute} {block : BlockHeader} {image : HeaderImage}
    (read : route.image parseFloat block = .ok image) :
    Layout parseFloat route block image ∧ image.WellSized := by
  cases route with
  | pre26 =>
      have whole := read
      simp only [HeaderRoute.image, pre26Image, Checked.bind_eq_ok, Checked.pure_eq_ok] at read
      obtain ⟨core, coreRead, rates, ratesRead, data, _, poa, _, root, rootRead, rfl⟩ := read
      have coreLength : core.length = 8 := length_of_mapM coreRead
      have ratesLength : rates.length = 6 := length_of_mapM ratesRead
      have rootLength : root.length = 3 := length_of_mapM rootRead
      refine ⟨.pre26 whole ?_, ?_⟩
      · rw [List.length_append]
        omega
      · simp only [HeaderImage.WellSized, rootLength]
        decide
  | historical =>
      simp only [HeaderRoute.image, Checked.bind_eq_ok, Checked.ensure_eq_ok] at read
      obtain ⟨_, _, read⟩ := read
      split at read
      · next early =>
          obtain ⟨preimage, printed, done⟩ := Checked.bind_eq_ok.mp read
          obtain rfl := Checked.pure_eq_ok.mp done
          have long := length_canonicalPreimage parseFloat printed
          obtain ⟨document, built, rfl⟩ := Checked.map_eq_ok.mp printed
          exact ⟨.text early built, long⟩
      · split at read
        · next late early =>
            have whole := read
            simp only [walletImage, Checked.bind_eq_ok, Checked.map_eq_ok] at read
            obtain ⟨_, _, trees, _, nodes, nodesRead, rfl⟩ := read
            exact ⟨.wallets (Nat.not_lt.mp late) early whole, length_of_mapM nodesRead⟩
        · next late =>
            obtain ⟨transactions, listed, modern⟩ := Checked.bind_eq_ok.mp read
            obtain ⟨layers, rfl, base, root⟩ := layered_of_modernImage modern
            exact ⟨.modern (Nat.not_lt.mp late) listed modern base, root⟩
  | legacy =>
      simp only [HeaderRoute.image, legacyHashIndex, Checked.bind_eq_ok, Checked.ensure_eq_ok,
        Checked.pure_eq_ok] at read
      obtain ⟨_, ⟨_, low, _⟩, ids, sorted, modern⟩ := read
      obtain ⟨layers, rfl, base, root⟩ := layered_of_modernImage modern
      refine ⟨.legacy ?_ sorted modern base, root⟩
      exact Nat.lt_of_le_of_lt low (by decide)

/-- Agreement on every field that a function hashes.  Transactions are listed in the same order,
except that the table of fork 2.0 has them sorted. -/
structure SameHashedFields (route : HeaderRoute) (left right : BlockHeader) : Prop where
  early : SameEarlyFields left right
  text : route = .historical → left.height < fork16Height → SameTextFields parseFloat left right
  wallets : route = .historical → left.height < fork20Height →
    left.legacyWallets = right.legacyWallets
  fork16 : (route = .historical → fork16Height ≤ left.height) → SameFork16Fields left right
  fork20 : (route = .historical → fork20Height ≤ left.height) → SameFork20Fields left right
  fork25 : route = .pre26 → SameFork25Fields left right
  transactions : left.txs.Perm right.txs
  ordered : route ≠ .legacy → left.txs = right.txs

end Routes

section Binding

variable {parseFloat : Bytes → Checked ShortestFloat} {suite : HashSuite}

theorem txs_of_sortedNode {left right : BlockHeader} {leftIds rightIds : List (FixedBytes 32)}
    (leftSorted : sortedTransactions left = .ok leftIds)
    (rightSorted : sortedTransactions right = .ok rightIds)
    (same : sortedNode leftIds = sortedNode rightIds) : left.txs.Perm right.txs := by
  have injective : Function.Injective fun id : FixedBytes 32 => Nested.blob id.val :=
    fun _ _ same => Subtype.ext (Nested.blob.inj same)
  obtain rfl := List.map_injective_iff.mpr injective (Nested.list.inj same)
  obtain ⟨leftDecoded, leftRead, leftPerm⟩ := sortedTransactions_perm leftSorted
  obtain ⟨rightDecoded, rightRead, rightPerm⟩ := sortedTransactions_perm rightSorted
  exact txs_perm_of_decoded leftRead rightRead (leftPerm.symm.trans rightPerm)

/-- One image has one layout, and headers with it agree on what they hash. -/
theorem same_of_layout {leftRoute rightRoute : HeaderRoute} {left right : BlockHeader}
    {image : HeaderImage} (leftLayout : Layout parseFloat leftRoute left image)
    (rightLayout : Layout parseFloat rightRoute right image) :
    leftRoute = rightRoute ∧ SameHashedFields parseFloat leftRoute left right := by
  cases leftLayout with
  | @text _ document low leftBuilt =>
      generalize printed : HeaderImage.text (JsonText.print .upper document) = image at rightLayout
      cases rightLayout with
      | text _ rightBuilt =>
          obtain rfl := JsonText.print_injective (HeaderImage.text.inj printed)
          obtain ⟨early, text, txs, wallets⟩ :=
            same_of_canonicalBlock parseFloat ⟨_, leftBuilt, rightBuilt⟩
          refine ⟨rfl, early, fun _ _ => text, fun _ _ => wallets, fun high => ?_, fun high => ?_,
            fun other => (nomatch other), List.Perm.of_eq txs, fun _ => txs⟩
          · exact absurd (high rfl) (Nat.not_le.mpr low)
          · have := high rfl
            simp only [fork16Height, fork20Height] at low this
            omega
      | wallets => cases printed
      | modern => cases printed
      | legacy => cases printed
      | pre26 => cases printed
  | wallets high low leftRead =>
      cases rightLayout with
      | wallets _ _ rightRead =>
          obtain ⟨early, fork16, txs, wallets⟩ := same_of_walletImage ⟨_, leftRead, rightRead⟩
          exact ⟨rfl, early, fun _ other => absurd other (Nat.not_lt.mpr high), fun _ _ => wallets,
            fun _ => fork16, fun other => absurd (other rfl) (Nat.not_le.mpr low),
            fun other => (nomatch other), List.Perm.of_eq txs, fun _ => txs⟩
  | modern high leftTxs leftRead small =>
      cases rightLayout with
      | modern _ rightTxs rightRead _ =>
          obtain ⟨early, fork16, fork20, rfl⟩ := same_of_modernImage ⟨_, leftRead, rightRead⟩
          have txs := eq_of_b64ListNode ⟨_, leftTxs, rightTxs⟩
          refine ⟨rfl, early, fun _ other => ?_, fun _ other => absurd other (Nat.not_lt.mpr high),
            fun _ => fork16, fun _ => fork20, fun other => (nomatch other), List.Perm.of_eq txs,
            fun _ => txs⟩
          simp only [fork16Height, fork20Height] at high other
          omega
      | legacy low _ rightRead _ =>
          have heights := (same_of_modernImage ⟨_, leftRead, rightRead⟩).1.height
          omega
      | pre26 _ large => omega
  | legacy low leftSorted leftRead small =>
      cases rightLayout with
      | modern high _ rightRead _ =>
          have heights := (same_of_modernImage ⟨_, leftRead, rightRead⟩).1.height
          omega
      | legacy _ rightSorted rightRead _ =>
          obtain ⟨early, fork16, fork20, txs⟩ := same_of_modernImage ⟨_, leftRead, rightRead⟩
          exact ⟨rfl, early, fun other => (nomatch other), fun other => (nomatch other),
            fun _ => fork16, fun _ => fork20, fun other => (nomatch other),
            txs_of_sortedNode leftSorted rightSorted txs, fun other => absurd rfl other⟩
      | pre26 _ large => omega
  | pre26 leftRead large =>
      cases rightLayout with
      | modern _ _ _ small => omega
      | legacy _ _ _ small => omega
      | pre26 rightRead _ =>
          obtain ⟨early, fork16, fork20, fork25, txs⟩ := same_of_pre26Image ⟨_, leftRead, rightRead⟩
          exact ⟨rfl, early, fun other => (nomatch other), fun other => (nomatch other),
            fun _ => fork16, fun _ => fork20, fun _ => fork25, List.Perm.of_eq txs, fun _ => txs⟩

/-- Headers with one hash come through one function and agree on what it hashes, unless the
messages behind the hash collide. -/
theorem same_of_route_hash {leftRoute rightRoute : HeaderRoute} {left right : BlockHeader}
    {hash : FixedBytes 48}
    (free : Collision.Free suite.digest384 (leftRoute.messages parseFloat suite left ++
      rightRoute.messages parseFloat suite right))
    (leftHash : leftRoute.hash parseFloat suite left = .ok hash)
    (rightHash : rightRoute.hash parseFloat suite right = .ok hash) :
    leftRoute = rightRoute ∧ SameHashedFields parseFloat leftRoute left right := by
  rw [HeaderRoute.hash_eq] at leftHash rightHash
  obtain ⟨leftImage, leftRead, rfl⟩ := Checked.map_eq_ok.mp leftHash
  obtain ⟨rightImage, rightRead, same⟩ := Checked.map_eq_ok.mp rightHash
  obtain ⟨leftLayout, leftSized⟩ := layout_of_image parseFloat leftRead
  obtain ⟨rightLayout, rightSized⟩ := layout_of_image parseFloat rightRead
  simp only [HeaderRoute.messages, leftRead, rightRead] at free
  obtain rfl := HeaderImage.eq_of_hash free leftSized rightSized same.symm
  exact same_of_layout leftLayout rightLayout

/-- What acceptance against the table of fork 2.0 says. -/
theorem verifyLegacyHeaderHash_eq_ok {block result : BlockHeader} {entry : BlockIndexEntry}
    {expectedH2 : FixedBytes 48} (parseFloat : Bytes → Checked ShortestFloat)
    (accepted : verifyLegacyHeaderHash suite block entry expectedH2 = .ok result) :
    result = { block with txRoot := entry.txRoot } ∧
      HeaderRoute.legacy.hash parseFloat suite result = .ok expectedH2 := by
  simp only [verifyLegacyHeaderHash, Checked.bind_eq_ok, Checked.ensure_eq_ok,
    Checked.pure_eq_ok] at accepted
  obtain ⟨index, indexed, _, _, _, _, _, _, _, _, _, _, _, _, _, _, _, _, ids, sorted, hash, hashed,
    _, rfl, rfl⟩ := accepted
  refine ⟨rfl, ?_⟩
  simp only [HeaderRoute.hash, Checked.bind_eq_ok]
  exact ⟨index, indexed, ids, sorted, hashed⟩

/-- Acceptance against the table does not depend on the order of the transactions. -/
theorem verifyLegacyHeaderHash_of_perm {block result : BlockHeader} {entry : BlockIndexEntry}
    {expectedH2 : FixedBytes 48} {txs : List String} (perm : txs.Perm block.txs)
    (accepted : verifyLegacyHeaderHash suite block entry expectedH2 = .ok result) :
    verifyLegacyHeaderHash suite { block with txs } entry expectedH2 =
      .ok { result with txs } := by
  simp only [verifyLegacyHeaderHash, Checked.bind_eq_ok, Checked.ensure_eq_ok,
    Checked.pure_eq_ok] at accepted ⊢
  obtain ⟨index, indexed, claimed, claim, trusted, trust, _, named, weave, weighed, trustedWeave,
    trustedWeighed, _, heavy, txRoot, rooted, _, width, ids, sorted, hash, hashed, _, expected,
    rfl⟩ := accepted
  exact ⟨index, indexed, claimed, claim, trusted, trust, (), named, weave, weighed, trustedWeave,
    trustedWeighed, (), heavy, txRoot, rooted, (), width, ids,
    @sortedTransactions_of_perm { block with txRoot := entry.txRoot } txs ids perm sorted, hash,
    hashed, (), expected, rfl⟩

end Binding

/-- Headers before fork 2.6 that are accepted for one hash agree on every field that the function
behind the hash covers, with the reward address compared as bytes and other numbers of tags as they
are written.  The table of fork 2.0 does not see the order of the transactions, but their list. -/
theorem early_header_binding (parseFloat : Bytes → Checked ShortestFloat) (suite : HashSuite) :
    (∀ leftRoute rightRoute left right hash,
      Collision.Free suite.digest384 (HeaderRoute.messages parseFloat suite leftRoute left ++
        HeaderRoute.messages parseFloat suite rightRoute right) →
      HeaderRoute.hash parseFloat suite left leftRoute = .ok hash →
      HeaderRoute.hash parseFloat suite right rightRoute = .ok hash →
      leftRoute = rightRoute ∧ SameHashedFields parseFloat leftRoute left right) ∧
    (∀ block entry expectedH2 result txs, txs.Perm block.txs →
      verifyLegacyHeaderHash suite block entry expectedH2 = .ok result →
      verifyLegacyHeaderHash suite { block with txs } entry expectedH2 =
        .ok { result with txs }) ∧
    (∀ left leftEntry leftResult right rightEntry rightResult expectedH2,
      Collision.Free suite.digest384
        (HeaderRoute.messages parseFloat suite .legacy leftResult ++
          HeaderRoute.messages parseFloat suite .legacy rightResult) →
      verifyLegacyHeaderHash suite left leftEntry expectedH2 = .ok leftResult →
      verifyLegacyHeaderHash suite right rightEntry expectedH2 = .ok rightResult →
      left.txs.Perm right.txs ∧
        SameHashedFields parseFloat .legacy leftResult rightResult) := by
  refine ⟨?_, ?_, ?_⟩
  · intro leftRoute rightRoute left right hash free leftHash rightHash
    exact same_of_route_hash free leftHash rightHash
  · intro block entry expectedH2 result txs perm accepted
    exact verifyLegacyHeaderHash_of_perm perm accepted
  · intro left leftEntry leftResult right rightEntry rightResult expectedH2 free leftAccepted
      rightAccepted
    obtain ⟨rfl, leftHash⟩ := verifyLegacyHeaderHash_eq_ok parseFloat leftAccepted
    obtain ⟨rfl, rightHash⟩ := verifyLegacyHeaderHash_eq_ok parseFloat rightAccepted
    have same := (same_of_route_hash free leftHash rightHash).2
    exact ⟨same.transactions, same⟩

/-- A header with empty fields and zeros. -/
def plainHeader : BlockHeader :=
  { sampleHeader with
    previousBlock := ""
    timestamp := 0
    nonce := ""
    lastRetarget := 0
    diff := "0"
    cumulativeDiff := "0"
    walletList := ""
    hashListMerkle := ""
    hash := ""
    blockSize := "0"
    weaveSize := "0"
    txRoot := ""
    poa := { option := "0" } }

/-- A header at fork 1.6 without wallets and transactions. -/
def walletHeader : BlockHeader :=
  { plainHeader with
    height := fork16Height
    legacyWallets := some []
    txs := [] }

/-- The same header, with the letters of `unclaimed` as the reward address. -/
def letteredHeader : BlockHeader := { walletHeader with rewardAddr := "dW5jbGFpbWVk" }

/-- A reader of numbers for headers whose numbers are all integers. -/
def noFloats : Bytes → Checked ShortestFloat := fun _ => .error "invalid float literal"

theorem walletImage_lettered : walletImage letteredHeader = walletImage walletHeader := by
  have reward : rewardNode letteredHeader.rewardAddr = rewardNode walletHeader.rewardAddr := by
    have decoded : rewardAddress letteredHeader.rewardAddr false =
        rewardAddress walletHeader.rewardAddr false := by decide
    rw [rewardNode, decoded, rewardNode]
  simp only [walletImage, walletImageNodes, reward]
  rfl

theorem free_walletHeader : Collision.Free sha2Suite.digest384
    (HeaderRoute.messages noFloats sha2Suite .historical walletHeader ++
      HeaderRoute.messages noFloats sha2Suite .historical letteredHeader) := by
  have image : HeaderRoute.historical.image noFloats letteredHeader =
      HeaderRoute.historical.image noFloats walletHeader := walletImage_lettered
  have messages : HeaderRoute.messages noFloats sha2Suite .historical letteredHeader =
      HeaderRoute.messages noFloats sha2Suite .historical walletHeader := by
    rw [HeaderRoute.messages, image, HeaderRoute.messages]
  have free : Collision.Free sha2Suite.digest384
      (HeaderRoute.messages noFloats sha2Suite .historical walletHeader) :=
    Collision.free_of_dedup (by decide +kernel)
  exact messages ▸ free.append_self

theorem hash_walletHeader : ∃ hash,
    historicalIndepHash noFloats sha2Suite walletHeader = .ok hash ∧
      historicalIndepHash noFloats sha2Suite letteredHeader = .ok hash := by
  have image : HeaderRoute.historical.image noFloats letteredHeader =
      HeaderRoute.historical.image noFloats walletHeader := walletImage_lettered
  obtain ⟨hash, hashed⟩ := Checked.exists_of_isOk
    (HeaderRoute.historical.hash noFloats sha2Suite walletHeader) (by decide)
  have lettered : HeaderRoute.historical.hash noFloats sha2Suite letteredHeader = .ok hash := by
    rw [HeaderRoute.hash_eq, image, ← HeaderRoute.hash_eq, hashed]
  exact ⟨hash, hashed, lettered⟩

/-- Headers with one hash do not have to agree on the reward address itself. -/
theorem unclaimed_reward_of_its_letters : ¬ ∀ left right hash,
    Collision.Free sha2Suite.digest384
      (HeaderRoute.messages noFloats sha2Suite .historical left ++
        HeaderRoute.messages noFloats sha2Suite .historical right) →
    historicalIndepHash noFloats sha2Suite left = .ok hash →
    historicalIndepHash noFloats sha2Suite right = .ok hash →
    left.rewardAddr = right.rewardAddr := by
  intro binding
  obtain ⟨hash, hashed, lettered⟩ := hash_walletHeader
  exact absurd (binding walletHeader letteredHeader hash free_walletHeader hashed lettered)
    (by decide)

/-- A header before fork 2.0 with two transactions. -/
def legacyHeader : BlockHeader :=
  { plainHeader with
    height := 300000
    txs := [zeroText 43, String.ofList ('B' :: List.replicate 42 'A')] }

/-- Its entry of the block index. -/
def legacyEntry : BlockIndexEntry where
  txRoot := ""
  weaveSize := "0"
  hash := sampleHeader.indepHash

/-- Digests that are residues of a prime. -/
def residueSuite : HashSuite where
  digest256 message := ⟨bigEndian 8 (ofBigEndian (1 :: message) % (2 ^ 61 - 1)) ++
    List.replicate 24 0, by simp⟩
  digest384 message := ⟨bigEndian 8 (ofBigEndian (1 :: message) % (2 ^ 61 - 1)) ++
    List.replicate 40 0, by simp⟩

theorem accepted_legacyHeader : ∃ expectedH2,
    verifyLegacyHeaderHash residueSuite legacyHeader legacyEntry expectedH2 = .ok legacyHeader := by
  obtain ⟨expectedH2, hashed⟩ := Checked.exists_of_isOk
    (HeaderRoute.legacy.hash noFloats residueSuite legacyHeader) (by decide)
  simp only [HeaderRoute.hash, Checked.bind_eq_ok] at hashed
  obtain ⟨index, indexed, ids, sorted, hashed⟩ := hashed
  obtain ⟨id, claimed⟩ := Checked.exists_of_isOk
    (decodeFixed 48 legacyHeader.indepHash "block indep_hash") (by decide)
  have trusted : decodeFixed 48 legacyEntry.hash "trusted block hash" = .ok id :=
    decodeFixed_eq_ok.mpr (decodeB64_label (decodeFixed_eq_ok.mp claimed))
  refine ⟨expectedH2, ?_⟩
  simp only [verifyLegacyHeaderHash, Checked.bind_eq_ok, Checked.ensure_eq_ok, Checked.pure_eq_ok]
  exact ⟨index, indexed, id, claimed, id, trusted, (), rfl, 0, rfl, 0, rfl, (), rfl, [], rfl, (),
    .inl rfl, ids, sorted, expectedH2, hashed, (), rfl, rfl⟩

theorem early_header_binding_sample :
    (HeaderRoute.historical = HeaderRoute.historical ∧
      SameHashedFields noFloats .historical walletHeader letteredHeader) ∧
    ∃ expectedH2, verifyLegacyHeaderHash residueSuite
        { legacyHeader with txs := legacyHeader.txs.reverse } legacyEntry expectedH2 =
          .ok { legacyHeader with txs := legacyHeader.txs.reverse } ∧
      legacyHeader.txs.Perm legacyHeader.txs ∧
        SameHashedFields noFloats .legacy legacyHeader legacyHeader := by
  constructor
  · obtain ⟨hash, hashed, lettered⟩ := hash_walletHeader
    exact (early_header_binding noFloats sha2Suite).1 .historical .historical walletHeader
      letteredHeader hash free_walletHeader hashed lettered
  · have binding := early_header_binding noFloats residueSuite
    obtain ⟨expectedH2, accepted⟩ := accepted_legacyHeader
    have free : Collision.Free residueSuite.digest384
        (HeaderRoute.messages noFloats residueSuite .legacy legacyHeader) :=
      Collision.free_of_dedup (by decide +kernel)
    exact ⟨expectedH2, binding.2.1 legacyHeader legacyEntry expectedH2 legacyHeader _
      (List.reverse_perm _) accepted, binding.2.2 legacyHeader legacyEntry legacyHeader legacyHeader
        legacyEntry legacyHeader expectedH2 free.append_self accepted accepted⟩

end ArIoGateway
