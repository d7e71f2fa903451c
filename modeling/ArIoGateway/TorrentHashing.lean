import ArIoGateway.Torrents

/-!
# What a torrent says of its files

The running hashes see the files in the pieces in which they are read; what they give depends on the
contents alone.  The trees of version 2 are the balanced trees of the blocks of each file.
-/

namespace ArIoGateway

open Octets

/-- The running hash has taken a stream. -/
structure V1Pieces.Holds (hashing : TorrentHashes) (pieces : V1Pieces) (pieceLength : Nat)
    (stream : Bytes) : Prop where
  width : pieces.pieceLength = pieceLength
  filled : pieces.filled = pieces.hash.length
  hashed : ∃ full, Batches.Filled pieceLength stream full pieces.hash ∧
    pieces.hashes = full.flatMap fun piece => (hashing.sha1 piece).val

namespace V1Pieces.Holds

variable {hashing : TorrentHashes} {pieceLength : Nat}

theorem updateRounds {rounds : Nat} {bytes stream : Bytes} {pieces : V1Pieces}
    (holds : pieces.Holds hashing pieceLength stream) (enough : bytes.length ≤ rounds) :
    (V1Pieces.updateRounds hashing rounds bytes pieces).Holds hashing pieceLength
      (stream ++ bytes) := by
  induction rounds generalizing bytes stream pieces with
  | zero =>
      rw [List.length_eq_zero_iff.mp (Nat.le_zero.mp enough), List.append_nil]
      exact holds
  | succ rounds induction =>
      rw [V1Pieces.updateRounds]
      split
      · next none =>
          rw [none, List.append_nil]
          exact holds
      · next some =>
          obtain ⟨width, filled, full, taken, hashes⟩ := holds
          have long := List.length_pos_iff.mpr some
          have room := taken.short
          obtain ⟨count, counted⟩ : ∃ count, min (pieces.pieceLength - pieces.filled) bytes.length =
            count := ⟨_, rfl⟩
          have part : (bytes.take count).length = count := by
            rw [List.length_take]
            omega
          have size : (pieces.hash ++ bytes.take count).length = pieces.filled + count := by
            rw [List.length_append, part, filled]
          have rest : (bytes.drop count).length ≤ rounds := by
            rw [List.length_drop]
            omega
          have whole : stream ++ bytes = (stream ++ bytes.take count) ++ bytes.drop count := by
            rw [List.append_assoc, List.take_append_drop]
          rw [counted, whole]
          dsimp only
          apply induction _ rest
          split
          · next exact =>
              refine ⟨width, rfl, full ++ [pieces.hash ++ bytes.take count], taken.close ?_, ?_⟩
              · rw [size, exact, width]
              · rw [V1Pieces.flush, List.flatMap_append, ← hashes]
                simp
          · next short =>
              refine ⟨width, size.symm, full, taken.more ?_, hashes⟩
              rw [size]
              omega

theorem update {bytes stream : Bytes} {pieces : V1Pieces}
    (holds : pieces.Holds hashing pieceLength stream) :
    (pieces.update hashing bytes).Holds hashing pieceLength (stream ++ bytes) :=
  holds.updateRounds le_rfl

/-- At the end there is one hash for every piece of the stream. -/
theorem finish {stream : Bytes} {pieces : V1Pieces}
    (holds : pieces.Holds hashing pieceLength stream) :
    pieces.finish hashing =
      (Batches.chunks pieceLength stream).flatMap fun piece => (hashing.sha1 piece).val := by
  obtain ⟨_, filled, full, taken, hashes⟩ := holds
  rw [taken.chunks_eq, V1Pieces.finish, List.flatMap_append, ← hashes, filled]
  by_cases none : pieces.hash = []
  · simp [none]
  · rw [if_pos (List.length_pos_iff.mpr none), if_neg none]
    simp [V1Pieces.flush]

end V1Pieces.Holds

/-- The hashes of the blocks of a content. -/
def blockHashes (suite : HashSuite) (content : Bytes) : List (FixedBytes 32) :=
  (Batches.chunks blockLength content).map fun block => suite.sha256 [block]

/-- The running hashes of a file have taken a content. -/
structure FileHash.Holds (suite : HashSuite) (file : FileHash) (content : Bytes) : Prop where
  filled : file.inBlock = file.block.length
  hashed : ∃ full, Batches.Filled blockLength content full file.block ∧
    file.leaves = full.map fun block => suite.sha256 [block]

namespace FileHash

variable {suite : HashSuite}

theorem Holds.takeRounds {rounds : Nat} {chunk content : Bytes} {file : FileHash}
    (holds : file.Holds suite content) (enough : chunk.length ≤ rounds) :
    (file.takeRounds suite rounds chunk).Holds suite (content ++ chunk) := by
  induction rounds generalizing chunk content file with
  | zero =>
      rw [List.length_eq_zero_iff.mp (Nat.le_zero.mp enough), List.append_nil]
      exact holds
  | succ rounds induction =>
      rw [FileHash.takeRounds]
      split
      · next none =>
          rw [none, List.append_nil]
          exact holds
      · next some =>
          obtain ⟨filled, full, taken, leaves⟩ := holds
          have long := List.length_pos_iff.mpr some
          have room := taken.short
          obtain ⟨count, counted⟩ : ∃ count, min (blockLength - file.inBlock) chunk.length = count :=
            ⟨_, rfl⟩
          have part : (chunk.take count).length = count := by
            rw [List.length_take]
            omega
          have size : (file.block ++ chunk.take count).length = file.inBlock + count := by
            rw [List.length_append, part, filled]
          have rest : (chunk.drop count).length ≤ rounds := by
            rw [List.length_drop]
            omega
          have whole : content ++ chunk = (content ++ chunk.take count) ++ chunk.drop count := by
            rw [List.append_assoc, List.take_append_drop]
          rw [counted, whole]
          dsimp only
          apply induction _ rest
          split
          · next exact =>
              refine ⟨rfl, full ++ [file.block ++ chunk.take count], taken.close ?_, ?_⟩
              · rw [size, exact]
              · rw [List.map_append, ← leaves]
                rfl
          · next short =>
              refine ⟨size.symm, full, taken.more ?_, leaves⟩
              rw [size]
              omega

theorem takeRounds_whole (rounds : Nat) (chunk : Bytes) (file : FileHash) :
    (file.takeRounds suite rounds chunk).whole = file.whole ∧
      (file.takeRounds suite rounds chunk).length = file.length := by
  induction rounds generalizing chunk file with
  | zero => exact ⟨rfl, rfl⟩
  | succ rounds induction =>
      rw [FileHash.takeRounds]
      split
      · exact ⟨rfl, rfl⟩
      · obtain ⟨whole, length⟩ := induction (chunk.drop _) _
        rw [whole, length]
        split <;> exact ⟨rfl, rfl⟩

/-- With the last block closed the leaves are the hashes of all blocks. -/
theorem Holds.leaves_eq {content : Bytes} {file : FileHash} (holds : file.Holds suite content)
    (some : content ≠ []) :
    (if 0 < file.inBlock ∨ file.leaves = [] then file.leaves ++ [suite.sha256 [file.block]]
      else file.leaves) = blockHashes suite content := by
  obtain ⟨filled, full, taken, leaves⟩ := holds
  rw [blockHashes, taken.chunks_eq, List.map_append, ← leaves, filled]
  by_cases none : file.block = []
  · have filledUp : file.leaves ≠ [] := by
      intro empty
      rw [empty] at leaves
      apply some
      rw [← taken.whole, none, List.map_eq_nil_iff.mp leaves.symm]
      rfl
    simp [none, filledUp]
  · rw [if_pos (.inl (List.length_pos_iff.mpr none)), if_neg none]
    rfl

end FileHash

/-- A file that is read to its end is hashed as a whole, however the reads cut it. -/
theorem readFile_eq_ok {hashing : TorrentHashes} {name : String} {pieceLength : Nat}
    {reads : List ReadOutcome} {stream content : Bytes} {v1 v1After : V1Pieces}
    {file fileAfter : FileHash} (pieces : v1.Holds hashing pieceLength stream)
    (blocks : file.Holds hashing.suite content)
    (done : readFile hashing name reads (v1, file) = .ok (v1After, fileAfter)) :
    v1After.Holds hashing pieceLength (stream ++ contentOf reads) ∧
      fileAfter.Holds hashing.suite (content ++ contentOf reads) ∧
      fileAfter.whole = file.whole ++ contentOf reads ∧
      fileAfter.length = file.length + (contentOf reads).length := by
  induction reads generalizing stream content v1 file with
  | nil =>
      obtain ⟨rfl, rfl⟩ := Prod.mk.inj (Checked.pure_eq_ok.mp done)
      simpa [contentOf] using And.intro pieces blocks
  | cons outcome reads induction =>
      cases outcome with
      | chunk chunk =>
          rw [readFile] at done
          rw [contentOf]
          split at done
          · next none =>
              obtain ⟨rfl, rfl⟩ := Prod.mk.inj (Checked.pure_eq_ok.mp done)
              simpa [none] using And.intro pieces blocks
          · next some =>
              have counted : FileHash.Holds hashing.suite
                  { file with whole := file.whole ++ chunk, length := file.length + chunk.length }
                  content := ⟨blocks.filled, blocks.hashed⟩
              obtain ⟨v1Holds, fileHolds, whole, length⟩ :=
                induction pieces.update (counted.takeRounds le_rfl) done
              obtain ⟨sameWhole, sameLength⟩ := @FileHash.takeRounds_whole hashing.suite
                chunk.length chunk
                { file with whole := file.whole ++ chunk, length := file.length + chunk.length }
              rw [sameWhole] at whole
              rw [sameLength] at length
              rw [if_neg some, ← List.append_assoc, ← List.append_assoc, whole, length]
              refine ⟨v1Holds, fileHolds, List.append_assoc _ _ _, ?_⟩
              rw [List.length_append, Nat.add_assoc]
      | interrupted => exact induction pieces blocks done
      | failed => cases done

/-- The root of the balanced tree over the blocks of a content, with zero hashes behind them. -/
def fileRoot (suite : HashSuite) (content : Bytes) : FixedBytes 32 :=
  HashTrees.root (joinHashes suite) zeroHash (Nat.clog 2 (blockHashes suite content).length)
    (blockHashes suite content)

/-- The root of a tree of zero hashes. -/
def zeroSubtree (suite : HashSuite) (height : Nat) : FixedBytes 32 :=
  HashTrees.root (joinHashes suite) zeroHash height []

/-- The roots of the trees over the pieces of a content, each of so many halvings of blocks. -/
def pieceRoots (suite : HashSuite) (exponent : Nat) (content : Bytes) : List (FixedBytes 32) :=
  HashTrees.level (joinHashes suite) zeroHash exponent
    ((content.length + blockLength * 2 ^ exponent - 1) / (blockLength * 2 ^ exponent))
    (blockHashes suite content)

theorem mergeLayers_level (suite : HashSuite) {exponent : Nat} (leaves : List (FixedBytes 32))
    {rounds height depth : Nat} (enough : depth ≤ rounds)
    (pieceLayer : Option (List (FixedBytes 32))) :
    mergeLayers suite (2 ^ exponent) rounds
        (HashTrees.level (joinHashes suite) zeroHash height (2 ^ depth) leaves) (2 ^ height)
        pieceLayer =
      ([HashTrees.root (joinHashes suite) zeroHash (height + depth) leaves],
        if height < exponent ∧ exponent ≤ height + depth then
          some (HashTrees.level (joinHashes suite) zeroHash exponent
            (2 ^ (height + depth - exponent)) leaves)
        else pieceLayer) := by
  induction depth generalizing rounds height pieceLayer with
  | zero =>
      have last : HashTrees.level (joinHashes suite) zeroHash height (2 ^ 0) leaves =
          [HashTrees.root (joinHashes suite) zeroHash height leaves] := by
        simp [HashTrees.level]
      rw [if_neg (by omega), last]
      cases rounds with
      | zero => rfl
      | succ rounds => rw [mergeLayers, if_neg (by simp)]; rfl
  | succ depth induction =>
      obtain ⟨rounds, rfl⟩ : ∃ less, rounds = less + 1 := ⟨rounds - 1, by omega⟩
      have wide : 0 < 2 ^ depth := Nat.two_pow_pos depth
      have covered : 2 ^ height * 2 = 2 ^ (height + 1) := (pow_succ 2 height).symm
      have same : 2 ^ (height + 1) = 2 ^ exponent ↔ height + 1 = exponent :=
        Nat.pow_right_inj Nat.one_lt_two
      rw [mergeLayers, if_pos (by rw [HashTrees.length_level, pow_succ]; omega), covered,
        show (2 : Nat) ^ (depth + 1) = 2 * 2 ^ depth by rw [pow_succ, Nat.mul_comm],
        HashTrees.pairUp_level]
      dsimp only
      rw [induction (by omega), Nat.add_right_comm height 1 depth, ← Nat.add_assoc]
      congr 1
      simp only [same]
      by_cases here : height + 1 = exponent
      · rw [if_neg (by omega), if_pos here, if_pos (by omega), ← here,
          Nat.add_right_comm height depth 1, Nat.add_sub_cancel_left]
      · rw [if_neg here]
        by_cases above : height + 1 < exponent ∧ exponent ≤ height + depth + 1
        · rw [if_pos above, if_pos (by omega)]
        · rw [if_neg above, if_neg (by omega)]

theorem length_blockHashes_le {suite : HashSuite} {content : Bytes} {count : Nat} :
    (blockHashes suite content).length ≤ count ↔ content.length ≤ count * blockLength := by
  rw [blockHashes, List.length_map]
  exact Batches.length_chunks_le (by decide)

/-- A number of pieces covers a content exactly when it covers its blocks. -/
theorem pieces_le {suite : HashSuite} {content : Bytes} {exponent count : Nat} :
    (content.length + blockLength * 2 ^ exponent - 1) / (blockLength * 2 ^ exponent) ≤ count ↔
      (blockHashes suite content).length ≤ count * 2 ^ exponent := by
  have positive : 0 < blockLength * 2 ^ exponent :=
    Nat.mul_pos (by decide) (Nat.two_pow_pos exponent)
  rw [length_blockHashes_le, Nat.div_le_iff_le_mul_add_pred positive, Nat.mul_assoc count,
    Nat.mul_comm (2 ^ exponent), Nat.mul_comm count]
  omega

/-- A content that is longer than a piece has more blocks than a piece. -/
theorem exponent_le_clog {suite : HashSuite} {content : Bytes} {exponent : Nat}
    (long : blockLength * 2 ^ exponent < content.length) :
    exponent ≤ Nat.clog 2 (blockHashes suite content).length := by
  by_contra less
  have few := (Nat.clog_le_iff_le_pow Nat.one_lt_two).mp (Nat.le_of_lt (Nat.not_le.mp less))
  have short := length_blockHashes_le.mp few
  rw [Nat.mul_comm] at short
  omega

/-- The tree over the pieces and the trees of the pieces make up the tree over the blocks. -/
theorem clog_pieces {suite : HashSuite} {content : Bytes} {exponent : Nat}
    (long : blockLength * 2 ^ exponent < content.length) :
    exponent + Nat.clog 2
        ((content.length + blockLength * 2 ^ exponent - 1) / (blockLength * 2 ^ exponent)) =
      Nat.clog 2 (blockHashes suite content).length := by
  have deep := @exponent_le_clog suite _ _ long
  apply Nat.le_antisymm
  · have bound : Nat.clog 2 ((content.length + blockLength * 2 ^ exponent - 1) /
        (blockLength * 2 ^ exponent)) ≤
          Nat.clog 2 (blockHashes suite content).length - exponent := by
      rw [Nat.clog_le_iff_le_pow Nat.one_lt_two, @pieces_le suite, ← pow_add,
        Nat.sub_add_cancel deep]
      exact Nat.le_pow_clog Nat.one_lt_two _
    omega
  · rw [Nat.clog_le_iff_le_pow Nat.one_lt_two, pow_add, Nat.mul_comm, ← pieces_le]
    exact Nat.le_pow_clog Nat.one_lt_two _

/-- The hashes of the pieces fold back to the root, with trees of zero hashes behind them. -/
theorem root_pieceRoots {suite : HashSuite} {content : Bytes} {exponent : Nat}
    (long : blockLength * 2 ^ exponent < content.length) :
    HashTrees.root (joinHashes suite) (zeroSubtree suite exponent)
        (Nat.clog 2 (pieceRoots suite exponent content).length)
        (pieceRoots suite exponent content) =
      fileRoot suite content := by
  rw [pieceRoots, HashTrees.length_level, zeroSubtree,
    HashTrees.root_level _ ((@pieces_le suite _ _ _).mp le_rfl), clog_pieces long, fileRoot]

/-- The root that is built is the reference root, and the layer that is kept has the roots of the
pieces. -/
theorem merkle_eq (suite : HashSuite) (content : Bytes) (exponent : Nat) :
    merkle suite (blockHashes suite content) content.length (blockLength * 2 ^ exponent) =
      (fileRoot suite content,
        if content.length ≤ blockLength * 2 ^ exponent then none
        else some ((pieceRoots suite exponent content).flatMap fun hash => hash.val)) := by
  have perPiece : blockLength * 2 ^ exponent / blockLength = 2 ^ exponent :=
    Nat.mul_div_cancel_left _ (by decide)
  have fits := Nat.le_pow_clog Nat.one_lt_two (blockHashes suite content).length
  have merged := @mergeLayers_level suite exponent (blockHashes suite content)
    (2 ^ Nat.clog 2 (blockHashes suite content).length) 0
    (Nat.clog 2 (blockHashes suite content).length) Nat.lt_two_pow_self.le
  rw [pow_zero] at merged
  rw [merkle, perPiece, nextPowerOfTwo,
    @HashTrees.append_blank_eq_level _ (joinHashes suite) _ _ _ fits, HashTrees.length_level, merged]
  dsimp only
  split
  · rw [Nat.zero_add]
    rfl
  · next long =>
      have deep := @exponent_le_clog suite _ _ (Nat.not_le.mp long)
      have kept : (if 0 < exponent ∧ exponent ≤ 0 + Nat.clog 2 (blockHashes suite content).length then
            some (HashTrees.level (joinHashes suite) zeroHash exponent
              (2 ^ (0 + Nat.clog 2 (blockHashes suite content).length - exponent))
              (blockHashes suite content))
          else if 1 = 2 ^ exponent then
            some (HashTrees.level (joinHashes suite) zeroHash 0
              (2 ^ Nat.clog 2 (blockHashes suite content).length) (blockHashes suite content))
          else none) =
          some (HashTrees.level (joinHashes suite) zeroHash exponent
            (2 ^ (Nat.clog 2 (blockHashes suite content).length - exponent))
            (blockHashes suite content)) := by
        rw [Nat.zero_add]
        rcases Nat.eq_zero_or_pos exponent with rfl | positive
        · rw [if_neg (by omega), if_pos (pow_zero 2).symm, Nat.sub_zero]
        · rw [if_pos ⟨positive, deep⟩]
      have enough : (content.length + blockLength * 2 ^ exponent - 1) /
          (blockLength * 2 ^ exponent) ≤
            2 ^ (Nat.clog 2 (blockHashes suite content).length - exponent) := by
        rw [@pieces_le suite, ← pow_add, Nat.sub_add_cancel deep]
        exact fits
      rw [kept, Option.getD_some, HashTrees.take_level _ enough, Nat.zero_add]
      rfl

/-- A part of the stream of version 1: a file, or padding behind it. -/
inductive V1Segment where
  | file (name : String) (content : Bytes)
  | pad (length : Nat)

namespace V1Segment

def bytes : V1Segment → Bytes
  | file _ content => content
  | pad length => List.replicate length 0

/-- What the list of version 1 says of a part. -/
def entry : V1Segment → Bencode
  | file name content => listEntry name content.length
  | pad length => padEntry length

end V1Segment

/-- A file, with padding up to the end of its last piece. -/
def SourceFile.segments (pieceLength : Nat) (file : SourceFile) : List V1Segment :=
  .file file.name file.content ::
    if file.content.length % pieceLength = 0 then []
    else [.pad (pieceLength - file.content.length % pieceLength)]

/-- The entry of a file in the tree of version 2. -/
def SourceFile.treeEntry (suite : HashSuite) (file : SourceFile) : Bytes × Bencode :=
  (utf8 file.name, ArIoGateway.treeEntry file.content.length
    (if file.content = [] then none else some (fileRoot suite file.content)))

/-- The layer of a file that is longer than a piece, under its root. -/
def SourceFile.layer (suite : HashSuite) (exponent : Nat) (file : SourceFile) :
    Option (Bytes × Bencode) :=
  if file.content.length ≤ blockLength * 2 ^ exponent then none
  else some ((fileRoot suite file.content).val,
    .bytes ((pieceRoots suite exponent file.content).flatMap fun hash => hash.val))

/-- What is known of files after they were hashed. -/
structure TorrentState.Describes (hashing : TorrentHashes) (exponent : Nat)
    (state : TorrentState) (files : List SourceFile) : Prop where
  v1 : state.v1.Holds hashing (blockLength * 2 ^ exponent)
    ((files.flatMap (SourceFile.segments (blockLength * 2 ^ exponent))).flatMap V1Segment.bytes)
  list : state.list =
    (files.flatMap (SourceFile.segments (blockLength * 2 ^ exponent))).map V1Segment.entry
  tree : state.tree = Bencode.collect (files.map (SourceFile.treeEntry hashing.suite))
  layers : state.layers =
    Bencode.collect (files.filterMap (SourceFile.layer hashing.suite exponent))

/-- What the trees of a file give, from the hashes of its blocks. -/
theorem merkle_of_leaves {suite : HashSuite} {content : Bytes} {exponent : Nat}
    {leaves : List (FixedBytes 32)} (same : content ≠ [] → leaves = blockHashes suite content) :
    (if 0 < content.length then
        some (merkle suite leaves content.length (blockLength * 2 ^ exponent)) else none) =
      if content = [] then none else some (fileRoot suite content,
        if content.length ≤ blockLength * 2 ^ exponent then none
        else some ((pieceRoots suite exponent content).flatMap fun hash => hash.val)) := by
  by_cases none : content = []
  · simp [none]
  · rw [if_pos (List.length_pos_iff.mpr none), if_neg none, same none, merkle_eq]

/-- One more file is described. -/
theorem TorrentState.Describes.addFile {hashing : TorrentHashes} {exponent : Nat}
    {state next : TorrentState} {files : List SourceFile} {source : SourceFile}
    (described : state.Describes hashing exponent files)
    (added : addFile hashing (blockLength * 2 ^ exponent) state source = .ok next) :
    next.Describes hashing exponent (files ++ [source]) := by
  obtain ⟨v1, list, tree, layers⟩ := described
  simp only [ArIoGateway.addFile, Checked.bind_eq_ok, Checked.ensure_eq_ok, exists_const,
    Prod.exists] at added
  obtain ⟨_, v1After, file, read, _, built⟩ := added
  have fresh : FileHash.Holds hashing.suite ⟨[], [], 0, [], 0⟩ [] :=
    ⟨rfl, [], .start (by decide), rfl⟩
  obtain ⟨taken, blocks, -, length⟩ := readFile_eq_ok v1 fresh read
  rw [List.nil_append] at blocks
  rw [Nat.zero_add] at length
  change file.length = source.content.length at length
  change V1Pieces.Holds hashing v1After _ (_ ++ source.content) at taken
  have merged := @merkle_of_leaves hashing.suite source.content exponent _ blocks.leaves_eq
  simp only [length, merged] at built
  have trees : Bencode.insertEntry (utf8 source.name)
      (treeEntry source.content.length (Option.map Prod.fst (if source.content = [] then none
        else some (fileRoot hashing.suite source.content,
          if source.content.length ≤ blockLength * 2 ^ exponent then none
          else some ((pieceRoots hashing.suite exponent source.content).flatMap
            fun hash => hash.val))))) state.tree =
        Bencode.collect ((files ++ [source]).map (SourceFile.treeEntry hashing.suite)) := by
    rw [List.map_append, tree, List.map_singleton, Bencode.collect_concat, SourceFile.treeEntry]
    by_cases none : source.content = [] <;> simp [none]
  have layered : Bencode.collect ((files ++ [source]).filterMap
      (SourceFile.layer hashing.suite exponent)) =
      putLayer (if source.content = [] then none else some (fileRoot hashing.suite source.content,
        if source.content.length ≤ blockLength * 2 ^ exponent then none
        else some ((pieceRoots hashing.suite exponent source.content).flatMap
          fun hash => hash.val))) state.layers := by
    rw [List.filterMap_append, layers]
    by_cases short : source.content.length ≤ blockLength * 2 ^ exponent
    · by_cases none : source.content = [] <;> simp [SourceFile.layer, putLayer, short, none]
    · have none : source.content ≠ [] := fun none => short (by simp [none])
      simp [SourceFile.layer, putLayer, short, none, Bencode.collect_concat]
  have segments : ∀ pieceLength, (files ++ [source]).flatMap (SourceFile.segments pieceLength) =
      files.flatMap (SourceFile.segments pieceLength) ++ source.segments pieceLength := by simp
  split at built
  · next aligned =>
      obtain rfl := Except.ok.inj built
      have only : source.segments (blockLength * 2 ^ exponent) =
          [.file source.name source.content] := by rw [SourceFile.segments, if_pos aligned]
      refine ⟨?_, ?_, trees, ?_⟩
      · rw [segments, only, List.flatMap_append]
        simpa [V1Segment.bytes] using taken
      · rw [segments, only, List.map_append, ← list]
        rfl
      · rw [layered]
  · next ragged =>
      obtain rfl := Except.ok.inj built
      have both : source.segments (blockLength * 2 ^ exponent) =
          [.file source.name source.content, .pad (blockLength * 2 ^ exponent -
            source.content.length % (blockLength * 2 ^ exponent))] := by
        rw [SourceFile.segments, if_neg ragged]
      refine ⟨?_, ?_, trees, ?_⟩
      · rw [segments, both, List.flatMap_append]
        simpa [V1Segment.bytes] using taken.update
      · rw [segments, both, List.map_append, ← list]
        simp [V1Segment.entry]
      · rw [layered]

theorem describes_of_foldlM {hashing : TorrentHashes} {exponent : Nat} {state last : TorrentState}
    {before files : List SourceFile} (described : state.Describes hashing exponent before)
    (done : files.foldlM (addFile hashing (blockLength * 2 ^ exponent)) state = .ok last) :
    last.Describes hashing exponent (before ++ files) := by
  induction files generalizing before state with
  | nil =>
      obtain rfl := Except.ok.inj done
      rwa [List.append_nil]
  | cons file files induction =>
      rw [List.foldlM_cons, Checked.bind_eq_ok] at done
      obtain ⟨next, added, rest⟩ := done
      have all := induction (described.addFile added) rest
      rwa [List.append_assoc] at all

theorem sorted_bencodeDict {entries : List (String × Bencode)}
    (all : ∀ entry ∈ entries, entry.2.Sorted) : (bencodeDict entries).Sorted := by
  apply Bencode.sorted_collect
  intro entry member
  obtain ⟨named, there, rfl⟩ := List.mem_map.mp member
  exact all named there

theorem sorted_treeEntry (length : Nat) (root : Option (FixedBytes 32)) :
    (treeEntry length root).Sorted := by
  have only : ∀ entry ∈ [(utf8 "length", Bencode.int length)], entry.2.Sorted := by
    intro entry member
    rw [List.mem_singleton.mp member]
    exact .int length
  have plain := Bencode.sorted_collect only
  refine .dict (List.pairwise_singleton _ _) fun entry member => ?_
  rw [List.mem_singleton.mp member]
  cases root with
  | none => exact plain
  | some root =>
      refine .dict (Bencode.ascending_collect _).insertEntry fun entry member => ?_
      rcases Bencode.mem_insertEntry member with rfl | old
      · exact .bytes _
      · exact only entry (Bencode.mem_collect old)

theorem V1Segment.sorted_entry (segment : V1Segment) : segment.entry.Sorted := by
  have path : ∀ items : List Bytes, (Bencode.list (items.map Bencode.bytes)).Sorted := by
    intro items
    refine .list fun item member => ?_
    obtain ⟨bytes, _, rfl⟩ := List.mem_map.mp member
    exact .bytes bytes
  cases segment with
  | file name content =>
      apply sorted_bencodeDict
      simp only [List.mem_cons, List.not_mem_nil, or_false, forall_eq_or_imp, forall_eq]
      exact ⟨.int _, path [utf8 name]⟩
  | pad length =>
      apply sorted_bencodeDict
      simp only [List.mem_cons, List.not_mem_nil, or_false, forall_eq_or_imp, forall_eq]
      exact ⟨.bytes _, .int _, path [utf8 ".pad", decimal length]⟩

/-- The keys of a torrent and their values. -/
def torrentEntries (info layers : Bencode) : List (Bytes × Bencode) :=
  [(utf8 "info", info), (utf8 "piece layers", layers)]

/-- A torrent is written with the encoded info dictionary in it. -/
theorem encode_torrent (info layers : Bencode) :
    (Bencode.dict (torrentEntries info layers)).encode =
      utf8 "d4:info" ++ info.encode ++ utf8 "12:piece layers" ++ layers.encode ++ utf8 "e" := by
  have first : [100] ++ Bencode.encodeBytes (utf8 "info") = utf8 "d4:info" := by decide
  have second : Bencode.encodeBytes (utf8 "piece layers") = utf8 "12:piece layers" := by
    decide
  have last : [101] = utf8 "e" := by decide
  rw [Bencode.encode, torrentEntries, Bencode.encodeEntries, Bencode.encodeEntries,
    Bencode.encodeEntries, ← first, second, ← last]
  simp only [List.append_assoc, List.append_nil]

/-- The source is one more entry at the end. -/
theorem withWebSeed_eq (info layers : Bencode) (webSeed : String) :
    withWebSeed (Bencode.dict (torrentEntries info layers)).encode webSeed =
      (Bencode.dict (torrentEntries info layers ++
        [(utf8 "url-list", .list [bencodeText webSeed])])).encode := by
  have mark : Bencode.encodeBytes (utf8 "url-list") ++ [108] = utf8 "8:url-listl" := by
    decide
  have ends : [101] ++ [101] = utf8 "ee" := by decide
  rw [withWebSeed, Bencode.encode, Bencode.encode, Bencode.encodeEntries_append, List.length_append,
    List.length_singleton, Nat.add_sub_cancel, List.take_left, ← mark, ← ends]
  simp only [Bencode.encodeEntries, Bencode.encode, Bencode.encodeItems, List.append_assoc,
    List.append_nil]

/-- The entries of the info dictionary. -/
def infoEntries (hashing : TorrentHashes) (pieceLength : Nat) (state : TorrentState) (name : Bytes) :
    List (Bytes × Bencode) :=
  Bencode.collect [(utf8 "file tree", .dict state.tree), (utf8 "files", .list state.list),
    (utf8 "meta version", .int 2), (utf8 "name", .bytes name),
    (utf8 "piece length", .int pieceLength), (utf8 "pieces", .bytes (state.v1.finish hashing))]

theorem lookup_infoEntries (hashing : TorrentHashes) (pieceLength : Nat) (state : TorrentState)
    (name : Bytes) :
    Bencode.lookup (utf8 "file tree") (infoEntries hashing pieceLength state name) =
      some (.dict state.tree) ∧
    Bencode.lookup (utf8 "files") (infoEntries hashing pieceLength state name) =
      some (.list state.list) ∧
    Bencode.lookup (utf8 "pieces") (infoEntries hashing pieceLength state name) =
      some (.bytes (state.v1.finish hashing)) := by
  refine ⟨?_, ?_, ?_⟩
  all_goals
    rw [infoEntries, Bencode.lookup_collect]
    simp [Bencode.lookup, utf8_injective.eq_iff]

theorem TorrentState.Describes.sorted {hashing : TorrentHashes} {exponent : Nat}
    {state : TorrentState} {files : List SourceFile}
    (described : state.Describes hashing exponent files) :
    (Bencode.dict state.tree).Sorted ∧ (Bencode.list state.list).Sorted ∧
      (Bencode.dict state.layers).Sorted := by
  refine ⟨?_, ?_, ?_⟩
  · rw [described.tree]
    apply Bencode.sorted_collect
    intro entry member
    obtain ⟨file, _, rfl⟩ := List.mem_map.mp member
    exact sorted_treeEntry _ _
  · rw [described.list]
    refine .list fun item member => ?_
    obtain ⟨segment, _, rfl⟩ := List.mem_map.mp member
    exact segment.sorted_entry
  · rw [described.layers]
    apply Bencode.sorted_collect
    intro entry member
    obtain ⟨file, _, layer⟩ := List.mem_filterMap.mp member
    rw [SourceFile.layer] at layer
    split at layer
    · cases layer
    · obtain rfl := Option.some.inj layer
      exact .bytes _

theorem sorted_torrent {info layers : Bencode} (infoSorted : info.Sorted)
    (layersSorted : layers.Sorted) (webSeed : String) :
    (Bencode.dict (torrentEntries info layers)).Sorted ∧
      (Bencode.dict (torrentEntries info layers ++
        [(utf8 "url-list", .list [bencodeText webSeed])])).Sorted := by
  have first : utf8 "info" < utf8 "piece layers" := by decide
  have second : utf8 "piece layers" < utf8 "url-list" := by decide
  have third : utf8 "info" < utf8 "url-list" := by decide
  have source : (Bencode.list [bencodeText webSeed]).Sorted := by
    refine .list fun item member => ?_
    rw [List.mem_singleton.mp member]
    exact .bytes _
  constructor
  · refine .dict (by simpa [torrentEntries] using first) ?_
    simp only [torrentEntries, List.mem_cons, List.not_mem_nil, or_false, forall_eq_or_imp,
      forall_eq]
    exact ⟨infoSorted, layersSorted⟩
  · refine .dict (by simp [torrentEntries, first, second, third]) ?_
    simp only [torrentEntries, List.cons_append, List.nil_append, List.mem_cons, List.not_mem_nil,
      or_false, forall_eq_or_imp, forall_eq]
    exact ⟨infoSorted, layersSorted, source⟩

/-- The pieces of version 1 are those of the stream that the list describes; the roots of version 2
are those of the reference trees, to which the layers fold back; and the source of a gateway changes
nothing else in the document. -/
theorem torrent_hashing (hashing : TorrentHashes) {exponent : Nat} {files : List SourceFile}
    {fixedName : Option String} {built : Built}
    (done : buildTorrent hashing files (blockLength * 2 ^ exponent) fixedName = .ok built) :
    let pieceLength := blockLength * 2 ^ exponent
    let segments := files.flatMap (SourceFile.segments pieceLength)
    ∃ info tree layers,
      built.torrent = (Bencode.dict (torrentEntries (.dict info) (.dict layers))).encode ∧
      Bencode.lookup (utf8 "files") info = some (.list (segments.map V1Segment.entry)) ∧
      Bencode.lookup (utf8 "pieces") info = some (.bytes ((Batches.chunks pieceLength
        (segments.flatMap V1Segment.bytes)).flatMap fun piece => (hashing.sha1 piece).val)) ∧
      Bencode.lookup (utf8 "file tree") info = some (.dict tree) ∧
      (∀ before file after, files = before ++ file :: after →
        (∀ other ∈ after, other.name ≠ file.name) →
        Bencode.lookup (utf8 file.name) tree = some (treeEntry file.content.length
          (if file.content = [] then none else some (fileRoot hashing.suite file.content)))) ∧
      (∀ file ∈ files, pieceLength < file.content.length → ∃ other ∈ files,
        pieceLength < other.content.length ∧
        fileRoot hashing.suite other.content = fileRoot hashing.suite file.content ∧
        Bencode.lookup (fileRoot hashing.suite file.content).val layers = some (.bytes
          ((pieceRoots hashing.suite exponent other.content).flatMap fun hash => hash.val)) ∧
        HashTrees.root (joinHashes hashing.suite) (zeroSubtree hashing.suite exponent)
            (Nat.clog 2 (pieceRoots hashing.suite exponent other.content).length)
            (pieceRoots hashing.suite exponent other.content) =
          fileRoot hashing.suite file.content) ∧
      (Bencode.dict (torrentEntries (.dict info) (.dict layers))).Sorted ∧
      ∀ webSeed,
        withWebSeed built.torrent webSeed =
          (Bencode.dict (torrentEntries (.dict info) (.dict layers) ++
            [(utf8 "url-list", .list [bencodeText webSeed])])).encode ∧
        (Bencode.dict (torrentEntries (.dict info) (.dict layers) ++
          [(utf8 "url-list", .list [bencodeText webSeed])])).Sorted := by
  intro pieceLength segments
  have positive : 0 < pieceLength := Nat.mul_pos (by decide) (Nat.two_pow_pos exponent)
  obtain ⟨state, hashed, written⟩ := Checked.bind_eq_ok.mp done
  have fresh :
      TorrentState.Describes hashing exponent ⟨⟨[], [], 0, pieceLength⟩, [], [], [], []⟩ [] :=
    ⟨⟨rfl, rfl, [], .start positive, rfl⟩, rfl, rfl, rfl⟩
  have described := describes_of_foldlM fresh hashed
  rw [List.nil_append] at described
  obtain ⟨treeSorted, listSorted, layersSorted⟩ := described.sorted
  obtain rfl := Except.ok.inj written
  obtain ⟨name, named⟩ : ∃ name,
    fixedName.elim (torrentName hashing.suite state.described) utf8 = name := ⟨_, rfl⟩
  obtain ⟨fileTree, list, pieces⟩ := lookup_infoEntries hashing pieceLength state name
  have infoSorted : (Bencode.dict (infoEntries hashing pieceLength state name)).Sorted := by
    apply Bencode.sorted_collect
    simp only [List.mem_cons, List.not_mem_nil, or_false, forall_eq_or_imp, forall_eq]
    exact ⟨treeSorted, listSorted, .int _, .bytes _, .int _, .bytes _⟩
  have torrent : (Bencode.dict (torrentEntries (.dict (infoEntries hashing pieceLength state name))
      (.dict state.layers))).encode = _ := encode_torrent _ _
  refine ⟨infoEntries hashing pieceLength state name, state.tree, state.layers, ?_, ?_, ?_, fileTree,
    ?_, ?_, (sorted_torrent infoSorted layersSorted "").1, fun webSeed => ⟨?_, ?_⟩⟩
  · rw [torrent, ← named]
    cases fixedName <;> rfl
  · rw [list, described.list]
  · rw [pieces, described.v1.finish]
  · rintro before file after rfl last
    rw [described.tree, List.map_append, List.map_cons, SourceFile.treeEntry]
    apply Bencode.lookup_collect_of_last
    intro entry member
    obtain ⟨other, there, rfl⟩ := List.mem_map.mp member
    exact fun same => last other there (utf8_injective same)
  · intro file member long
    have layer : SourceFile.layer hashing.suite exponent file =
        some ((fileRoot hashing.suite file.content).val, .bytes
          ((pieceRoots hashing.suite exponent file.content).flatMap fun hash => hash.val)) :=
      if_neg (Nat.not_le.mpr long)
    obtain ⟨entry, there, same, found⟩ := Bencode.exists_lookup_collect
      (List.mem_filterMap.mpr ⟨file, member, layer⟩)
    obtain ⟨other, otherMember, otherLayer⟩ := List.mem_filterMap.mp there
    rw [SourceFile.layer] at otherLayer
    split at otherLayer
    · cases otherLayer
    · next otherLong =>
        obtain rfl := Option.some.inj otherLayer
        have roots : fileRoot hashing.suite other.content = fileRoot hashing.suite file.content :=
          Subtype.ext same
        refine ⟨other, otherMember, Nat.not_le.mp otherLong, roots, ?_, ?_⟩
        · rw [described.layers]
          exact found
        · rw [root_pieceRoots (Nat.not_le.mp otherLong), roots]
  · rw [← withWebSeed_eq, torrent, ← named]
    cases fixedName <;> rfl
  · exact (sorted_torrent infoSorted layersSorted webSeed).2

/-- A file that can be read to its end and has the size that the scan found. -/
structure SourceFile.Intact (file : SourceFile) : Prop where
  opens : file.opens = true
  reads : .failed ∉ file.reads
  size : file.content.length = file.size

theorem exists_readFile {hashing : TorrentHashes} {name : String} {reads : List ReadOutcome}
    (sound : .failed ∉ reads) (state : V1Pieces × FileHash) :
    ∃ after, readFile hashing name reads state = .ok after ∧
      after.2.length = state.2.length + (contentOf reads).length := by
  induction reads generalizing state with
  | nil => exact ⟨state, rfl, rfl⟩
  | cons outcome reads induction =>
      have rest : .failed ∉ reads := fun member => sound (List.mem_cons_of_mem _ member)
      cases outcome with
      | chunk chunk =>
          rw [readFile, contentOf]
          split
          · exact ⟨state, rfl, rfl⟩
          · obtain ⟨after, read, length⟩ := induction rest _
            refine ⟨after, read, length.trans ?_⟩
            rw [(FileHash.takeRounds_whole _ _ _).2, List.length_append, Nat.add_assoc]
      | interrupted => exact induction rest state
      | failed => exact absurd List.mem_cons_self sound

/-- Files that stay as the scan found them make a torrent. -/
theorem exists_buildTorrent (hashing : TorrentHashes) {files : List SourceFile} {pieceLength : Nat}
    {fixedName : Option String} (intact : ∀ file ∈ files, file.Intact) :
    ∃ built, buildTorrent hashing files pieceLength fixedName = .ok built := by
  have hashed (state : TorrentState) :
      ∃ after, files.foldlM (addFile hashing pieceLength) state = .ok after := by
    induction files generalizing state with
    | nil => exact ⟨state, rfl⟩
    | cons file files induction =>
        obtain ⟨first, rest⟩ := List.forall_mem_cons.mp intact
        obtain ⟨next, added⟩ : ∃ next, addFile hashing pieceLength state file = .ok next := by
          obtain ⟨⟨v1, hash⟩, read, length⟩ :=
            @exists_readFile hashing file.name _ first.reads (state.v1, ⟨[], [], 0, [], 0⟩)
          have size : hash.length = file.size := by
            rw [length, Nat.zero_add]
            exact first.size
          rw [addFile, Checked.ensure_of first.opens, Checked.ok_bind, read, Checked.ok_bind]
          dsimp only
          rw [Checked.ensure_of size, Checked.ok_bind]
          split
          · exact ⟨_, rfl⟩
          · exact ⟨_, rfl⟩
        obtain ⟨after, folded⟩ := induction rest next
        refine ⟨after, ?_⟩
        rw [List.foldlM_cons, added]
        exact folded
  obtain ⟨state, folded⟩ := hashed _
  exact ⟨_, Checked.bind_eq_ok.mpr ⟨state, folded, rfl⟩⟩

/-- A file of one byte, read in two turns. -/
def oneByteFile : SourceFile := ⟨"a", 1, 0, true, [.interrupted, .chunk [7]]⟩

/-- A file of one byte more than a piece. -/
def longFile : SourceFile :=
  ⟨"b", 262145, 0, true, [.chunk (List.replicate 262144 8), .chunk [9]]⟩

theorem length_longFile : longFile.content.length = 262145 := by
  have some : List.replicate 262144 (8 : UInt8) ≠ [] :=
    List.ne_nil_of_length_pos (by rw [List.length_replicate]; decide)
  rw [SourceFile.content, longFile, contentOf, if_neg some, List.length_append,
    List.length_replicate]
  rfl

/-- The hashes of the sample; the front of another digest stands for SHA-1. -/
def sampleTorrentHashes : TorrentHashes where
  suite := sha2Suite
  sha1 bytes := ⟨(sha2Suite.sha256 [bytes]).val.take 20, by simp [(sha2Suite.sha256 [bytes]).property]⟩

/-- Both files have padding behind them, and the longer one has its pieces beside its root. -/
theorem torrent_hashing_sample :
    ∃ built info layers,
      buildTorrent sampleTorrentHashes [oneByteFile, longFile] publishedPieceLength none =
        .ok built ∧
      built.torrent = (Bencode.dict (torrentEntries (.dict info) (.dict layers))).encode ∧
      Bencode.lookup (utf8 "files") info = some (.list
        [listEntry "a" 1, padEntry 262143, listEntry "b" 262145, padEntry 262143]) ∧
      Bencode.lookup (fileRoot sha2Suite longFile.content).val layers = some (.bytes
        ((pieceRoots sha2Suite 4 longFile.content).flatMap fun hash => hash.val)) := by
  have published : publishedPieceLength = blockLength * 2 ^ 4 := by decide
  have intact : ∀ file ∈ [oneByteFile, longFile], file.Intact := by
    intro file member
    rcases List.mem_pair.mp member with rfl | rfl
    · exact ⟨rfl, by simp [oneByteFile], rfl⟩
    · refine ⟨rfl, ?_, length_longFile⟩
      rintro (_ | ⟨_, _ | ⟨_, none⟩⟩)
      cases none
  obtain ⟨built, done⟩ := @exists_buildTorrent sampleTorrentHashes _ publishedPieceLength none intact
  rw [published] at done ⊢
  obtain ⟨info, _, layers, torrent, files, _, _, _, long, _⟩ :=
    torrent_hashing sampleTorrentHashes done
  have segments : [oneByteFile, longFile].flatMap (SourceFile.segments (blockLength * 2 ^ 4)) =
      [.file "a" [7], .pad 262143, .file "b" longFile.content, .pad 262143] := by
    rw [List.flatMap_cons, List.flatMap_cons, List.flatMap_nil, List.append_nil]
    rw [SourceFile.segments, SourceFile.segments, length_longFile]
    rfl
  have shorter : blockLength * 2 ^ 4 < longFile.content.length := by
    rw [length_longFile]
    decide
  obtain ⟨other, member, isLong, _, found, _⟩ := long longFile (by simp) shorter
  rcases List.mem_pair.mp member with rfl | rfl
  · exact absurd isLong (by decide)
  · refine ⟨built, info, layers, done, torrent, ?_, found⟩
    rw [files, segments]
    simp only [List.map_cons, List.map_nil, V1Segment.entry, length_longFile]
    rfl

end ArIoGateway
