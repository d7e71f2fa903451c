import ArIoGateway.Foundation.Batches
import ArIoGateway.Foundation.Bencode
import ArIoGateway.Foundation.HashTrees
import ArIoGateway.Hashing
import ArIoGateway.Signatures

/-!
# Torrents of a band

The files of a band are hashed once, as they are read, for both kinds of torrents: the pieces of
version 1 run over all files with padding between them, and the trees of version 2 are built for each
file from the hashes of its blocks.
-/

namespace ArIoGateway

open Octets

/-- What a read of a file gives. -/
inductive ReadOutcome where
  | chunk (bytes : Bytes)
  | interrupted
  | failed

/-- A file of a band: what the scan knows of it, and what it gives when it is read.  A read that gives
nothing ends it, as does the end of the list. -/
structure SourceFile where
  name : String
  size : Nat
  modifiedNs : Nat
  opens : Bool
  reads : List ReadOutcome

/-- The bytes that reads give before the end of the file. -/
def contentOf : List ReadOutcome → Bytes
  | [] => []
  | .chunk bytes :: reads => if bytes = [] then [] else bytes ++ contentOf reads
  | .interrupted :: reads => contentOf reads
  | .failed :: _ => []

def SourceFile.content (file : SourceFile) : Bytes := contentOf file.reads

structure CachedFile where
  name : String
  size : Nat
  modifiedNs : Nat
  /-- The digest of the content in hexadecimal. -/
  sha256 : Bytes
deriving DecidableEq

/-- The digests that a torrent needs. -/
structure TorrentHashes where
  suite : HashSuite
  sha1 : Bytes → FixedBytes 20

/-- The length of a block of version 2. -/
def blockLength : Nat := 16 * 1024

/-- The length of a piece of a published band. -/
def publishedPieceLength : Nat := 256 * 1024

/-- The hashes of full pieces, and what the running hash has taken of the next one. -/
structure V1Pieces where
  hashes : Bytes
  hash : Bytes
  filled : Nat
  pieceLength : Nat

namespace V1Pieces

variable (hashing : TorrentHashes)

def flush (pieces : V1Pieces) : V1Pieces :=
  { pieces with
    hashes := pieces.hashes ++ (hashing.sha1 pieces.hash).val
    hash := []
    filled := 0 }

/-- `update`; every round takes at least one byte. -/
def updateRounds : (rounds : Nat) → Bytes → V1Pieces → V1Pieces
  | 0, _, pieces => pieces
  | rounds + 1, bytes, pieces =>
      if bytes = [] then pieces
      else
        let take := min (pieces.pieceLength - pieces.filled) bytes.length
        let next :=
          { pieces with hash := pieces.hash ++ bytes.take take, filled := pieces.filled + take }
        updateRounds rounds (bytes.drop take)
          (if next.filled = next.pieceLength then next.flush hashing else next)

def update (bytes : Bytes) (pieces : V1Pieces) : V1Pieces :=
  updateRounds hashing bytes.length bytes pieces

def finish (pieces : V1Pieces) : Bytes :=
  (if 0 < pieces.filled then pieces.flush hashing else pieces).hashes

end V1Pieces

/-- The least power of two that is not below a number, `next_power_of_two`. -/
def nextPowerOfTwo (value : Nat) : Nat := 2 ^ Nat.clog 2 value

/-- The hash of two nodes. -/
def joinHashes (suite : HashSuite) (left right : FixedBytes 32) : FixedBytes 32 :=
  suite.sha256 [left.val, right.val]

/-- The hash that stands for a block behind the end of a file. -/
def zeroHash : FixedBytes 32 := ⟨List.replicate 32 0, length_zeros⟩

/-- Join layers until one node is left, and keep the layer whose nodes cover a piece. -/
def mergeLayers (suite : HashSuite) (perPiece : Nat) :
    (rounds : Nat) → List (FixedBytes 32) → (covered : Nat) → Option (List (FixedBytes 32)) →
      List (FixedBytes 32) × Option (List (FixedBytes 32))
  | 0, layer, _, pieceLayer => (layer, pieceLayer)
  | rounds + 1, layer, covered, pieceLayer =>
      if 1 < layer.length then
        let joined := HashTrees.pairUp (joinHashes suite) layer
        mergeLayers suite perPiece rounds joined (covered * 2)
          (if covered * 2 = perPiece then some joined else pieceLayer)
      else (layer, pieceLayer)

/-- The root of the tree of a file, and the hashes of its pieces when it is longer than a piece. -/
def merkle (suite : HashSuite) (layer : List (FixedBytes 32)) (length pieceLength : Nat) :
    FixedBytes 32 × Option Bytes :=
  let perPiece := pieceLength / blockLength
  let padded := layer ++ List.replicate (nextPowerOfTwo layer.length - layer.length) zeroHash
  let (top, pieceLayer) := mergeLayers suite perPiece padded.length padded 1
    (if 1 = perPiece then some padded else none)
  if length ≤ pieceLength then (top.headD zeroHash, none)
  else
    let pieces := (length + pieceLength - 1) / pieceLength
    (top.headD zeroHash,
      some (((pieceLayer.getD []).take pieces).flatMap fun hash => hash.val))

/-- What is known of a file while it is read. -/
structure FileHash where
  whole : Bytes
  block : Bytes
  inBlock : Nat
  leaves : List (FixedBytes 32)
  length : Nat

/-- Take a chunk into the running hash of a block; every round takes at least one byte. -/
def FileHash.takeRounds (suite : HashSuite) : (rounds : Nat) → Bytes → FileHash → FileHash
  | 0, _, file => file
  | rounds + 1, chunk, file =>
      if chunk = [] then file
      else
        let take := min (blockLength - file.inBlock) chunk.length
        let block := file.block ++ chunk.take take
        let inBlock := file.inBlock + take
        takeRounds suite rounds (chunk.drop take)
          (if inBlock = blockLength then
            { file with leaves := file.leaves ++ [suite.sha256 [block]], block := [], inBlock := 0 }
          else { file with block, inBlock })

/-- Read a file to its end. -/
def readFile (hashing : TorrentHashes) (name : String) :
    List ReadOutcome → V1Pieces × FileHash → Checked (V1Pieces × FileHash)
  | [], state => pure state
  | .chunk chunk :: reads, (v1, file) =>
      if chunk = [] then pure (v1, file)
      else
        let counted :=
          { file with whole := file.whole ++ chunk, length := file.length + chunk.length }
        readFile hashing name reads
          (v1.update hashing chunk, counted.takeRounds hashing.suite chunk.length chunk)
  | .interrupted :: reads, state => readFile hashing name reads state
  | .failed :: _, _ => .error s!"cannot read {name}"

/-- A dictionary of named values, `Bencode::dict`. -/
def bencodeDict (entries : List (String × Bencode)) : Bencode :=
  .dict (Bencode.collect (entries.map fun entry => (utf8 entry.1, entry.2)))

def bencodeText (value : String) : Bencode := .bytes (utf8 value)

/-- Publishers of the same bytes share the name. -/
def torrentName (suite : HashSuite) (files : List CachedFile) : Bytes :=
  let sorted := files.insertionSort fun left right => ¬utf8 right.name < utf8 left.name
  let lines := sorted.map fun file =>
    utf8 file.name ++ [0] ++ decimal file.size ++ [0] ++ file.sha256 ++ [10]
  (hex (suite.sha256 lines).val).take 16

/-- What is known of the files that were hashed. -/
structure TorrentState where
  v1 : V1Pieces
  described : List CachedFile
  list : List Bencode
  tree : List (Bytes × Bencode)
  layers : List (Bytes × Bencode)

/-- The entry of a file in the list of version 1. -/
def listEntry (name : String) (length : Nat) : Bencode :=
  bencodeDict [("length", .int length), ("path", .list [bencodeText name])]

/-- The entry of a padding file. -/
def padEntry (pad : Nat) : Bencode :=
  bencodeDict [("attr", bencodeText "p"), ("length", .int pad),
    ("path", .list [bencodeText ".pad", .bytes (decimal pad)])]

/-- The entry of a file in the tree of version 2; an empty file has no root. -/
def treeEntry (length : Nat) (root : Option (FixedBytes 32)) : Bencode :=
  .dict [([], .dict (match root with
    | none => Bencode.collect [(utf8 "length", .int length)]
    | some root => Bencode.insertEntry (utf8 "pieces root") (.bytes root.val)
        (Bencode.collect [(utf8 "length", .int length)])))]

/-- Keep the layer of a file that is longer than a piece. -/
def putLayer (built : Option (FixedBytes 32 × Option Bytes)) (layers : List (Bytes × Bencode)) :
    List (Bytes × Bencode) :=
  match built with
  | some (root, some layer) => Bencode.insertEntry root.val (.bytes layer) layers
  | _ => layers

/-- Hash one file and describe it. -/
def addFile (hashing : TorrentHashes) (pieceLength : Nat) (state : TorrentState)
    (source : SourceFile) : Checked TorrentState := do
  Checked.ensure (source.opens = true) s!"cannot open {source.name}"
  let (v1, file) ← readFile hashing source.name source.reads (state.v1, ⟨[], [], 0, [], 0⟩)
  Checked.ensure (file.length = source.size) s!"{source.name} changed while it was hashed"
  let leaves := if 0 < file.inBlock ∨ file.leaves = [] then
    file.leaves ++ [hashing.suite.sha256 [file.block]] else file.leaves
  let described := state.described ++ [{
    name := source.name
    size := file.length
    modifiedNs := source.modifiedNs
    sha256 := hex (hashing.suite.sha256 [file.whole]).val }]
  let list := state.list ++ [listEntry source.name file.length]
  let built :=
    if 0 < file.length then some (merkle hashing.suite leaves file.length pieceLength) else none
  let tree := Bencode.insertEntry (utf8 source.name)
    (treeEntry file.length (built.map Prod.fst)) state.tree
  let layers := putLayer built state.layers
  let remainder := file.length % pieceLength
  if remainder = 0 then pure ⟨v1, described, list, tree, layers⟩
  else
    let pad := pieceLength - remainder
    pure ⟨v1.update hashing (List.replicate pad 0), described, list ++ [padEntry pad], tree, layers⟩

structure Built where
  files : List CachedFile
  torrentName : Bytes
  infohashV1 : Bytes
  infohashV2 : Bytes
  torrent : Bytes

/-- The info dictionary. -/
def infoOf (hashing : TorrentHashes) (pieceLength : Nat) (state : TorrentState) (name : Bytes) :
    Bencode :=
  bencodeDict [("file tree", .dict state.tree), ("files", .list state.list), ("meta version", .int 2),
    ("name", .bytes name), ("piece length", .int pieceLength),
    ("pieces", .bytes (state.v1.finish hashing))]

/-- `build_torrent`. -/
def buildTorrent (hashing : TorrentHashes) (files : List SourceFile) (pieceLength : Nat)
    (fixedName : Option String) : Checked Built := do
  let state ← files.foldlM (addFile hashing pieceLength) ⟨⟨[], [], 0, pieceLength⟩, [], [], [], []⟩
  let name := match fixedName with
    | none => torrentName hashing.suite state.described
    | some name => utf8 name
  let info := (infoOf hashing pieceLength state name).encode
  pure
    { files := state.described
      torrentName := name
      infohashV1 := hex (hashing.sha1 info).val
      infohashV2 := hex (hashing.suite.sha256 [info]).val
      torrent := utf8 "d4:info" ++ info ++ utf8 "12:piece layers" ++
        (Bencode.dict state.layers).encode ++ utf8 "e" }

/-- The torrent as served, with the source of this gateway. -/
def withWebSeed (torrent : Bytes) (webSeed : String) : Bytes :=
  torrent.take (torrent.length - 1) ++ utf8 "8:url-listl" ++ (bencodeText webSeed).encode ++
    utf8 "ee"

end ArIoGateway
