import ArIoGateway.Foundation.Machine
import ArIoGateway.Foundation.Masks
import ArIoGateway.MerklePath

/-!
# Packed chunks

A packed chunk is masked with slices of entropy that its place in the weave selects.  The place is
given by a partition, an entropy and a slice index, and for syncing by a footprint offset; both
addressings keep different chunks apart, and unpacking takes the masks off again.
-/

namespace ArIoGateway

open Octets Machine

def subChunkSize : Nat := 8192
def partitionSize : Nat := 3600000000000
def sectorSize : Nat := 429184 * subChunkSize
def footprintSize : Nat := 1024
def footprintsPerPartition : Nat := sectorSize / maxChunkSize
def chunksPerPartition : Nat :=
  (partitionSize + maxChunkSize * footprintSize - 1) / (maxChunkSize * footprintSize) *
    footprintSize

/-- `checked_mul` and `checked_add` on `u128`: a value that fits. -/
def fitsU128 (value : Nat) : Option Nat := if value < 2 ^ 128 then some value else none

/-- The end of a chunk above the threshold, padded to whole chunks. -/
def paddedAbove (absoluteEnd : Nat) : Machine Nat := do
  let distance ← sub absoluteEnd strictDataSplitThreshold
  let distance ← sub distance 1
  let buckets ← add 128 (distance / maxChunkSize) 1
  check (Checked.context
    ((fitsU128 (buckets * maxChunkSize)).bind fun value =>
      fitsU128 (strictDataSplitThreshold + value))
    "replica chunk offset overflow")

/-- `chunk_bucket`. -/
def chunkBucket (absoluteEnd : Nat) : Machine (Nat × Nat) := do
  check (Checked.ensure (0 < absoluteEnd) "invalid replica chunk end offset")
  let padded ← if strictDataSplitThreshold < absoluteEnd then paddedAbove absoluteEnd
    else pure absoluteEnd
  let bucket ← mul 128 ((padded - maxChunkSize) / maxChunkSize) maxChunkSize
  pure (padded, bucket)

/-- `position`: partition, first entropy and slice index. -/
def position (absoluteEnd : Nat) : Machine (Nat × Nat × Nat) := do
  let (_, bucket) ← chunkBucket absoluteEnd
  let relative := bucket % partitionSize
  let sliceIndex := relative / sectorSize % footprintSize
  let firstEntropy ← mul 128 (relative % sectorSize / maxChunkSize) 32
  pure (bucket / partitionSize, firstEntropy, sliceIndex)

/-- The footprint offset of a chunk with a padded end in a bucket. -/
def footprintAt (padded bucket : Nat) : Machine (Option Nat) := do
  let partition := bucket / partitionSize
  let start ← mul 128 partition partitionSize
  let inside ← sub padded start
  match checkedSub (inside / maxChunkSize) 1 with
  | none => pure none
  | some relative => do
      let footprint := relative % footprintsPerPartition
      let within := relative / footprintsPerPartition
      let first ← mul 128 partition chunksPerPartition
      let second ← mul 128 footprint footprintSize
      let sum ← add 128 first second
      let sum ← add 128 sum within
      let offset ← add 128 sum 1
      pure (some offset)

/-- `footprint_offset`. -/
def footprintOffset (offset : Nat) : Machine (Option Nat) :=
  match chunkBucket offset with
  | .ok (padded, bucket) => footprintAt padded bucket
  | .error (.rejected _) => pure none
  | .error .panicked => .error .panicked

/-- `entropy_key`. -/
def entropyKey (suite : HashSuite) (address : FixedBytes 32) (partition index : Nat) :
    FixedBytes 32 :=
  suite.sha256 [(note partition).val, (note index).val, address.val]

/-- The four seeds of an entropy. -/
def entropySeeds (suite : HashSuite) (key : FixedBytes 32) : List (FixedBytes 32) :=
  (List.range 4).map fun lane => suite.sha256 [key.val, [UInt8.ofNat (lane + 1)]]

/-- The state of a job: whether it is cancelled, and whether the processor has the instructions and
the worker the memory that it needs. -/
structure Job where
  cancelled : Bool
  sse42 : Bool
  initialized : Bool

/-- A job that can run. -/
def Job.running : Job := ⟨false, true, true⟩

/-- `check_cancelled`. -/
def Job.checkCancelled (job : Job) : Checked Unit :=
  Checked.ensure (job.cancelled = false) "replica unpacking cancelled"

/-- `chunks_exact`. -/
def chunksExact (width : Nat) (bytes : Bytes) : List Bytes :=
  (List.range (bytes.length / width)).map fun index => (bytes.drop (index * width)).take width

section Unpack

variable (suite : HashSuite)
  (replicaSlice : List (FixedBytes 32) → Nat → Option (FixedBytes subChunkSize))

/-- The entropy of a sub-chunk. -/
def entropySlice (address : FixedBytes 32) (place : Nat × Nat × Nat) (index : Nat) :
    Checked (FixedBytes subChunkSize) :=
  let key := entropyKey suite address place.1 (place.2.1 + index)
  Checked.context (replicaSlice (entropySeeds suite key) place.2.2)
    "replica entropy generation failed"

/-- The loop over the sub-chunks, from an index on. -/
def unpackSubChunks (job : Job) (entropyOf : Nat → Checked (FixedBytes subChunkSize)) (size : Nat) :
    (index : Nat) → List Bytes → Checked Bytes
  | _, [] => pure []
  | index, packed :: rest => do
      job.checkCancelled
      let entropy ← entropyOf index
      job.checkCancelled
      let used := min (size - index * subChunkSize) subChunkSize
      let bytes := xorBytes (packed.take used) (entropy.val.take used)
      Checked.ensure ((xorBytes (packed.drop used) (entropy.val.drop used)).all (· = 0) = true)
        "invalid packed chunk padding"
      let others ← unpackSubChunks job entropyOf size (index + 1) rest
      pure (bytes ++ others)

/-- `unpack`. -/
def unpack (bytes : Bytes) (address : FixedBytes 32) (absoluteEnd size : Nat) (job : Job) :
    Machine Bytes := do
  check (Checked.ensure (bytes.length = maxChunkSize) "invalid replica packed chunk size")
  check (Checked.ensure (0 < size ∧ size ≤ bytes.length) "invalid replica unpacked chunk size")
  check (Checked.ensure (job.sse42 = true) "replica unpacking requires SSE4.2")
  check job.checkCancelled
  let place ← position absoluteEnd
  check job.checkCancelled
  check (Checked.ensure (job.initialized = true) "replica unpacking initialization failed")
  check (unpackSubChunks job (entropySlice suite replicaSlice address place) size 0
    (chunksExact subChunkSize bytes))

end Unpack

/-- The end of a chunk, padded to whole chunks above the threshold. -/
def paddedEnd (absoluteEnd : Nat) : Nat :=
  if strictDataSplitThreshold < absoluteEnd then
    strictDataSplitThreshold +
      ((absoluteEnd - strictDataSplitThreshold - 1) / maxChunkSize + 1) * maxChunkSize
  else absoluteEnd

/-- The bucket of a chunk. -/
def bucketOf (absoluteEnd : Nat) : Nat :=
  (paddedEnd absoluteEnd - maxChunkSize) / maxChunkSize * maxChunkSize

theorem paddedAbove_eq {absoluteEnd : Nat} (word : absoluteEnd < 2 ^ 128)
    (above : strictDataSplitThreshold < absoluteEnd) :
    (paddedEnd absoluteEnd < 2 ^ 128 ∧ paddedAbove absoluteEnd = .ok (paddedEnd absoluteEnd)) ∨
      (2 ^ 128 ≤ paddedEnd absoluteEnd ∧
        paddedAbove absoluteEnd = .error (.rejected "replica chunk offset overflow")) := by
  have few : (absoluteEnd - strictDataSplitThreshold - 1) / maxChunkSize + 1 < 2 ^ 128 := by
    have := Nat.div_le_self (absoluteEnd - strictDataSplitThreshold - 1) maxChunkSize
    omega
  rw [paddedAbove, sub_of_le above.le, ok_bind, sub_of_le (by omega), ok_bind, add_of_lt few,
    ok_bind, paddedEnd, if_pos above, fitsU128]
  by_cases product : ((absoluteEnd - strictDataSplitThreshold - 1) / maxChunkSize + 1) *
      maxChunkSize < 2 ^ 128
  · rw [if_pos product, Option.bind_some, fitsU128]
    split
    · next fits => exact .inl ⟨fits, rfl⟩
    · next large => exact .inr ⟨Nat.le_of_not_lt large, rfl⟩
  · rw [if_neg product]
    exact .inr ⟨by omega, rfl⟩

/-- The bucket is found for every offset but zero whose padded end fits. -/
theorem chunkBucket_eq {absoluteEnd : Nat} (word : absoluteEnd < 2 ^ 128) :
    (0 < absoluteEnd ∧ paddedEnd absoluteEnd < 2 ^ 128 ∧
        chunkBucket absoluteEnd = .ok (paddedEnd absoluteEnd, bucketOf absoluteEnd)) ∨
      (absoluteEnd = 0 ∨ 2 ^ 128 ≤ paddedEnd absoluteEnd) ∧
        ∃ message, chunkBucket absoluteEnd = .error (.rejected message) := by
  have finish {padded : Nat} (fits : padded < 2 ^ 128) :
      mul 128 ((padded - maxChunkSize) / maxChunkSize) maxChunkSize =
        .ok ((padded - maxChunkSize) / maxChunkSize * maxChunkSize) := by
    apply mul_of_lt
    have := Nat.div_mul_le_self (padded - maxChunkSize) maxChunkSize
    omega
  rw [chunkBucket]
  by_cases positive : 0 < absoluteEnd
  · rw [Checked.ensure_of positive, check_ok, ok_bind]
    by_cases above : strictDataSplitThreshold < absoluteEnd
    · rw [if_pos above]
      rcases paddedAbove_eq word above with ⟨fits, same⟩ | ⟨large, same⟩
      · rw [same, ok_bind]
        simp only [finish fits, ok_bind]
        exact .inl ⟨positive, fits, rfl⟩
      · rw [same]
        exact .inr ⟨.inr large, _, rfl⟩
    · have same : paddedEnd absoluteEnd = absoluteEnd := if_neg above
      rw [if_neg above, pure_bind, bucketOf, same]
      simp only [finish word, ok_bind]
      exact .inl ⟨positive, word, rfl⟩
  · rw [Checked.ensure, if_neg positive]
    exact .inr ⟨.inl (by omega), _, rfl⟩

theorem maxChunkSize_eq : maxChunkSize = 262144 := rfl
theorem partitionSize_eq : partitionSize = 3600000000000 := rfl
theorem sectorSize_eq : sectorSize = 3515875328 := rfl
theorem footprintsPerPartition_eq : footprintsPerPartition = 13412 := rfl
theorem chunksPerPartition_eq : chunksPerPartition = 13733888 := rfl

/-- The bucket is the last whole chunk in front of a chunk's last one. -/
theorem bucketOf_le {absoluteEnd : Nat} :
    bucketOf absoluteEnd ≤ paddedEnd absoluteEnd - maxChunkSize ∧
      paddedEnd absoluteEnd < bucketOf absoluteEnd + 2 * maxChunkSize ∧
      bucketOf absoluteEnd % maxChunkSize = 0 := by
  rw [bucketOf, maxChunkSize_eq]
  omega

/-- The relative place of a chunk in its partition. -/
def relativeOf (absoluteEnd : Nat) : Nat :=
  (paddedEnd absoluteEnd - bucketOf absoluteEnd / partitionSize * partitionSize) / maxChunkSize

theorem relativeOf_le (absoluteEnd : Nat) :
    relativeOf absoluteEnd ≤ chunksPerPartition := by
  obtain ⟨_, behind, _⟩ := @bucketOf_le absoluteEnd
  rw [relativeOf, chunksPerPartition_eq]
  rw [maxChunkSize_eq] at *
  rw [partitionSize_eq]
  omega

/-- The number that a footprint gives a relative place. -/
def footprintNumber (relative : Nat) : Nat :=
  relative % footprintsPerPartition * footprintSize + relative / footprintsPerPartition

theorem footprintNumber_lt {relative : Nat} (inside : relative < chunksPerPartition) :
    footprintNumber relative < chunksPerPartition := by
  rw [footprintNumber, footprintsPerPartition_eq, footprintSize]
  rw [chunksPerPartition_eq] at *
  omega

theorem footprintNumber_inj {left right : Nat} (leftInside : left < chunksPerPartition)
    (rightInside : right < chunksPerPartition) (same : footprintNumber left = footprintNumber right) :
    left = right := by
  rw [footprintNumber, footprintNumber, footprintsPerPartition_eq, footprintSize] at same
  rw [chunksPerPartition_eq] at *
  omega

theorem footprintAt_eq {absoluteEnd : Nat} (fits : paddedEnd absoluteEnd < 2 ^ 128) :
    footprintAt (paddedEnd absoluteEnd) (bucketOf absoluteEnd) =
      .ok (if relativeOf absoluteEnd = 0 then none
        else some (bucketOf absoluteEnd / partitionSize * chunksPerPartition +
          footprintNumber (relativeOf absoluteEnd - 1) + 1)) := by
  have behind := (@bucketOf_le absoluteEnd).1
  have start := Nat.div_mul_le_self (bucketOf absoluteEnd) partitionSize
  have relative := relativeOf_le absoluteEnd
  rw [footprintAt]
  simp only
  rw [mul_of_lt (by omega), ok_bind, sub_of_le (by omega), ok_bind, ← relativeOf, checkedSub]
  by_cases none : relativeOf absoluteEnd = 0
  · rw [if_neg (by omega), if_pos none]
    rfl
  · rw [if_pos (by omega), if_neg none]
    simp only
    have number := @footprintNumber_lt (relativeOf absoluteEnd - 1) (by omega)
    rw [footprintNumber] at number
    have first : bucketOf absoluteEnd / partitionSize * chunksPerPartition +
        chunksPerPartition < 2 ^ 128 := by
      rw [partitionSize_eq] at *
      rw [chunksPerPartition_eq]
      omega
    have footprint := lt_of_le_of_lt (Nat.le_add_right _ _) number
    rw [mul_of_lt (by omega), ok_bind, mul_of_lt (by omega), ok_bind, add_of_lt (by omega), ok_bind,
      add_of_lt (by omega), ok_bind, add_of_lt (by omega), ok_bind, Nat.add_assoc _ _ (_ / _),
      ← footprintNumber]
    rfl

/-- Above the threshold every chunk has a place in its partition. -/
theorem relativeOf_pos {absoluteEnd : Nat} (above : strictDataSplitThreshold < absoluteEnd) :
    0 < relativeOf absoluteEnd := by
  obtain ⟨behind, _, _⟩ := @bucketOf_le absoluteEnd
  have padded : maxChunkSize ≤ paddedEnd absoluteEnd := by
    rw [paddedEnd, if_pos above, Nat.succ_mul]
    omega
  have start := Nat.div_mul_le_self (bucketOf absoluteEnd) partitionSize
  exact Nat.div_pos (by omega) (by decide)

/-- Above the threshold a chunk is known by its partition and its place there. -/
theorem paddedEnd_inj {left right : Nat} (leftAbove : strictDataSplitThreshold < left)
    (rightAbove : strictDataSplitThreshold < right)
    (partition : bucketOf left / partitionSize = bucketOf right / partitionSize)
    (relative : relativeOf left = relativeOf right) : paddedEnd left = paddedEnd right := by
  obtain ⟨leftBehind, _, _⟩ := @bucketOf_le left
  obtain ⟨rightBehind, _, _⟩ := @bucketOf_le right
  have leftStart := Nat.div_mul_le_self (bucketOf left) partitionSize
  have rightStart := Nat.div_mul_le_self (bucketOf right) partitionSize
  rw [relativeOf, relativeOf, ← partition] at relative
  rw [← partition] at rightStart
  generalize bucketOf left / partitionSize * partitionSize = start at *
  -- both padded ends are whole chunks behind the threshold
  have leftWhole : (paddedEnd left - strictDataSplitThreshold) % maxChunkSize = 0 := by
    rw [paddedEnd, if_pos leftAbove, Nat.add_sub_cancel_left, Nat.mul_mod_left]
  have rightWhole : (paddedEnd right - strictDataSplitThreshold) % maxChunkSize = 0 := by
    rw [paddedEnd, if_pos rightAbove, Nat.add_sub_cancel_left, Nat.mul_mod_left]
  have leftLater : strictDataSplitThreshold ≤ paddedEnd left := by
    rw [paddedEnd, if_pos leftAbove]
    exact Nat.le_add_right _ _
  have rightLater : strictDataSplitThreshold ≤ paddedEnd right := by
    rw [paddedEnd, if_pos rightAbove]
    exact Nat.le_add_right _ _
  rw [maxChunkSize_eq] at *
  omega

/-- The bucket of a chunk from its position. -/
theorem bucketOf_inj {left right : Nat}
    (partition : bucketOf left / partitionSize = bucketOf right / partitionSize)
    (entropy : bucketOf left % partitionSize % sectorSize / maxChunkSize =
      bucketOf right % partitionSize % sectorSize / maxChunkSize)
    (slice : bucketOf left % partitionSize / sectorSize % footprintSize =
      bucketOf right % partitionSize / sectorSize % footprintSize) :
    bucketOf left = bucketOf right := by
  obtain ⟨_, _, leftWhole⟩ := @bucketOf_le left
  obtain ⟨_, _, rightWhole⟩ := @bucketOf_le right
  have leftParts := Nat.div_add_mod (bucketOf left) partitionSize
  have rightParts := Nat.div_add_mod (bucketOf right) partitionSize
  have leftSmall := Nat.mod_lt (bucketOf left) (show 0 < partitionSize by decide)
  have rightSmall := Nat.mod_lt (bucketOf right) (show 0 < partitionSize by decide)
  rw [partition] at leftParts
  generalize bucketOf right / partitionSize = index at *
  generalize bucketOf left % partitionSize = leftPlace at *
  generalize bucketOf right % partitionSize = rightPlace at *
  rw [footprintSize, sectorSize_eq] at slice
  rw [sectorSize_eq] at entropy
  rw [maxChunkSize_eq] at *
  rw [partitionSize_eq] at *
  omega

theorem position_eq {absoluteEnd : Nat}
    (found : chunkBucket absoluteEnd = .ok (paddedEnd absoluteEnd, bucketOf absoluteEnd)) :
    position absoluteEnd = .ok (bucketOf absoluteEnd / partitionSize,
      bucketOf absoluteEnd % partitionSize % sectorSize / maxChunkSize * 32,
      bucketOf absoluteEnd % partitionSize / sectorSize % footprintSize) := by
  rw [position, found, ok_bind]
  simp only
  have small := Nat.mod_lt (bucketOf absoluteEnd % partitionSize) (show 0 < sectorSize by decide)
  rw [mul_of_lt, ok_bind]
  · rfl
  · rw [sectorSize_eq] at *
    rw [maxChunkSize_eq]
    omega

/-- Chunks that are padded to different ends have different footprint offsets, each in the range of
its partition; and every chunk has a partition, an entropy and a slice in their ranges, which are
different for different buckets.  None of this panics. -/
theorem packing_addresses :
    (∀ left right, left < 2 ^ 128 → right < 2 ^ 128 → strictDataSplitThreshold < left →
      strictDataSplitThreshold < right → paddedEnd left < 2 ^ 128 → paddedEnd right < 2 ^ 128 →
      paddedEnd left ≠ paddedEnd right →
      ∃ first second, footprintOffset left = .ok (some first) ∧
        footprintOffset right = .ok (some second) ∧ first ≠ second) ∧
    (∀ offset, offset < 2 ^ 128 → footprintOffset offset ≠ .error .panicked ∧
      ∀ footprint, footprintOffset offset = .ok (some footprint) →
        bucketOf offset / partitionSize * chunksPerPartition < footprint ∧
        footprint ≤ (bucketOf offset / partitionSize + 1) * chunksPerPartition) ∧
    (∀ offset, offset < 2 ^ 128 → position offset ≠ .error .panicked ∧
      (0 < offset → paddedEnd offset < 2 ^ 128 →
        ∃ partition entropy slice, position offset = .ok (partition, entropy, slice) ∧
          partition = bucketOf offset / partitionSize ∧ entropy % 32 = 0 ∧
          entropy + 32 ≤ sectorSize / subChunkSize ∧ slice < footprintSize)) ∧
    ∀ left right place, left < 2 ^ 128 → right < 2 ^ 128 → position left = .ok place →
      position right = .ok place → bucketOf left = bucketOf right := by
  have footprint {offset : Nat} (word : offset < 2 ^ 128) :
      (¬ (0 < offset ∧ paddedEnd offset < 2 ^ 128) ∧ footprintOffset offset = .ok none) ∨
        footprintOffset offset = .ok (if relativeOf offset = 0 then none
          else some (bucketOf offset / partitionSize * chunksPerPartition +
            footprintNumber (relativeOf offset - 1) + 1)) := by
    rcases chunkBucket_eq word with ⟨_, fits, found⟩ | ⟨wrong, message, failed⟩
    · right
      rw [footprintOffset, found]
      exact footprintAt_eq fits
    · left
      rw [footprintOffset, failed]
      exact ⟨by omega, rfl⟩
  have above {offset : Nat} (word : offset < 2 ^ 128) (beyond : strictDataSplitThreshold < offset)
      (fits : paddedEnd offset < 2 ^ 128) : footprintOffset offset =
        .ok (some (bucketOf offset / partitionSize * chunksPerPartition +
          footprintNumber (relativeOf offset - 1) + 1)) := by
    have positive := relativeOf_pos beyond
    rcases footprint word with ⟨wrong, _⟩ | found
    · exact absurd ⟨by omega, fits⟩ wrong
    · rwa [if_neg (by omega)] at found
  refine ⟨fun left right leftWord rightWord leftAbove rightAbove leftFits rightFits apart => ?_,
    fun offset word => ?_, fun offset word => ?_,
    fun left right place leftWord rightWord leftPlace rightPlace => ?_⟩
  · refine ⟨_, _, above leftWord leftAbove leftFits, above rightWord rightAbove rightFits,
      fun same => apart ?_⟩
    have leftInside := relativeOf_le left
    have rightInside := relativeOf_le right
    have leftSome := relativeOf_pos leftAbove
    have rightSome := relativeOf_pos rightAbove
    have leftNumber := @footprintNumber_lt (relativeOf left - 1) (by omega)
    have rightNumber := @footprintNumber_lt (relativeOf right - 1) (by omega)
    obtain ⟨partition, number⟩ : bucketOf left / partitionSize = bucketOf right / partitionSize ∧
        footprintNumber (relativeOf left - 1) = footprintNumber (relativeOf right - 1) := by
      rw [chunksPerPartition_eq] at *
      omega
    have relative := footprintNumber_inj (by omega) (by omega) number
    exact paddedEnd_inj leftAbove rightAbove partition (by omega)
  · have inside := relativeOf_le offset
    rcases footprint word with ⟨_, none⟩ | found
    · rw [none]
      exact ⟨nofun, nofun⟩
    · rw [found]
      refine ⟨nofun, fun number same => ?_⟩
      split at same
      · cases same
      · obtain rfl := Option.some.inj (Except.ok.inj same)
        have := @footprintNumber_lt (relativeOf offset - 1) (by omega)
        rw [Nat.succ_mul]
        exact ⟨by omega, by omega⟩
  · rcases chunkBucket_eq word with ⟨_, fits, found⟩ | ⟨wrong, message, failed⟩
    · rw [position_eq found]
      refine ⟨nofun, fun _ _ => ⟨_, _, _, rfl, rfl, Nat.mul_mod_left _ _, ?_,
        Nat.mod_lt _ (by decide)⟩⟩
      have small := Nat.mod_lt (bucketOf offset % partitionSize) (show 0 < sectorSize by decide)
      rw [sectorSize_eq] at *
      rw [maxChunkSize_eq, subChunkSize]
      omega
    · have stops : position offset = .error (.rejected message) := by
        rw [position, failed]
        rfl
      rw [stops]
      exact ⟨nofun, fun positive fits => by omega⟩
  · rcases chunkBucket_eq leftWord with ⟨_, _, leftFound⟩ | ⟨_, message, failed⟩
    · rcases chunkBucket_eq rightWord with ⟨_, _, rightFound⟩ | ⟨_, message, failed⟩
      · rw [position_eq leftFound] at leftPlace
        rw [position_eq rightFound, ← leftPlace] at rightPlace
        obtain ⟨partition, rest⟩ := Prod.mk.inj (Except.ok.inj rightPlace)
        obtain ⟨entropy, slice⟩ := Prod.mk.inj rest
        exact bucketOf_inj partition.symm
          (Nat.eq_of_mul_eq_mul_right (by decide) entropy).symm slice.symm
      · rw [position, failed] at rightPlace
        cases rightPlace
    · rw [position, failed] at leftPlace
      cases leftPlace

theorem packing_addresses_neighbours :
    ∃ first second, footprintOffset 253736678753340 = .ok (some first) ∧
      footprintOffset 253736679015484 = .ok (some second) ∧ first ≠ second :=
  packing_addresses.1 253736678753340 253736679015484 (by decide) (by decide) (by decide) (by decide)
    (by decide) (by decide) (by decide)

/-- The masks of a number of sub-chunks, from an index on. -/
def maskFrom (entropyOf : Nat → FixedBytes subChunkSize) : (index count : Nat) → Bytes
  | _, 0 => []
  | index, count + 1 => (entropyOf index).val ++ maskFrom entropyOf (index + 1) count

theorem length_maskFrom (entropyOf : Nat → FixedBytes subChunkSize) (index count : Nat) :
    (maskFrom entropyOf index count).length = count * subChunkSize := by
  induction count generalizing index with
  | zero => rw [maskFrom, List.length_nil, Nat.zero_mul]
  | succ count induction =>
      rw [maskFrom, List.length_append, length_val, induction, Nat.succ_mul, Nat.add_comm]

theorem flatten_chunksExact {width count : Nat} {bytes : Bytes} (positive : 0 < width)
    (whole : bytes.length = count * width) :
    (chunksExact width bytes).flatten = bytes ∧ (chunksExact width bytes).length = count ∧
      ∀ chunk ∈ chunksExact width bytes, chunk.length = width := by
  have rounds : bytes.length / width = count := by rw [whole, Nat.mul_div_cancel _ positive]
  rw [chunksExact, rounds]
  clear rounds
  induction count generalizing bytes with
  | zero =>
      rw [Nat.zero_mul] at whole
      simp [List.length_eq_zero_iff.mp whole]
  | succ count induction =>
      have shorter : (bytes.drop width).length = count * width := by
        rw [List.length_drop, whole, Nat.succ_mul, Nat.add_sub_cancel]
      have later : ((List.range count).map fun index =>
          (bytes.drop ((index + 1) * width)).take width) =
          (List.range count).map fun index => ((bytes.drop width).drop (index * width)).take width :=
        List.map_congr_left fun index _ => by rw [List.drop_drop, Nat.succ_mul, Nat.add_comm]
      obtain ⟨flat, _, widths⟩ := induction shorter
      rw [List.range_succ_eq_map, List.map_cons, List.map_map, Function.comp_def]
      simp only [Nat.zero_mul, List.drop_zero, Nat.succ_eq_add_one]
      rw [later, List.flatten_cons, flat, List.take_append_drop]
      refine ⟨rfl, by simp, fun chunk member => ?_⟩
      rcases List.mem_cons.mp member with rfl | member
      · rw [List.length_take, whole, Nat.succ_mul]
        omega
      · exact widths chunk member

theorem room_behind (room width count : Nat) :
    room - count = room + width - (width + count) := by
  omega

theorem room_under {room width count : Nat} (long : width ≤ count) :
    room + width - count = room - (count - width) := by
  omega

theorem some_behind (size place width room : Nat) :
    min (size - place) (room + width) - width = min (size - (place + width)) room := by
  omega

/-- Behind a sub-chunk that is not full there are no data. -/
theorem none_behind {size place width used : Nat} (room : Nat)
    (chosen : min (size - place) width = used) (part : used ≠ width) :
    min (size - (place + width)) room = 0 ∧ min (size - place) (room + width) - used = 0 := by
  omega

/-- The loop over the sub-chunks accepts exactly the bytes that unmask to the data and zeros. -/
theorem unpackSubChunks_eq_ok {entropyOf : Nat → FixedBytes subChunkSize} {size index : Nat}
    {chunks : List Bytes} {data : Bytes} (widths : ∀ chunk ∈ chunks, chunk.length = subChunkSize) :
    unpackSubChunks .running (fun index => .ok (entropyOf index)) size index chunks = .ok data ↔
      data.length = min (size - index * subChunkSize) (chunks.length * subChunkSize) ∧
        xorBytes chunks.flatten (maskFrom entropyOf index chunks.length) =
          data ++ List.replicate (chunks.length * subChunkSize - data.length) 0 := by
  induction chunks generalizing index data with
  | nil =>
      simp only [unpackSubChunks, Checked.pure_eq_ok, List.length_nil, Nat.zero_mul, Nat.min_zero,
        List.flatten_nil, maskFrom, Nat.zero_sub, List.replicate_zero, List.append_nil]
      constructor
      · rintro rfl
        exact ⟨rfl, rfl⟩
      · rintro ⟨none, _⟩
        exact (List.length_eq_zero_iff.mp none).symm
  | cons packed rest induction =>
      obtain ⟨width, widths⟩ := List.forall_mem_cons.mp widths
      obtain ⟨used, chosen⟩ : ∃ used, min (size - index * subChunkSize) subChunkSize = used :=
        ⟨_, rfl⟩
      obtain ⟨front, frontSame⟩ : ∃ front,
        xorBytes (packed.take used) ((entropyOf index).val.take used) = front := ⟨_, rfl⟩
      obtain ⟨back, backSame⟩ : ∃ back,
        xorBytes (packed.drop used) ((entropyOf index).val.drop used) = back := ⟨_, rfl⟩
      have within : used ≤ subChunkSize := chosen ▸ Nat.min_le_right _ _
      have frontLength : front.length = used := by
        rw [← frontSame, length_xorBytes (by simp [width]), List.length_take, width]
        exact Nat.min_eq_left within
      have backLength : back.length = subChunkSize - used := by
        rw [← backSame, length_xorBytes (by simp [width]), List.length_drop, width]
      have split : xorBytes packed (entropyOf index).val = front ++ back := by
        rw [← frontSame, ← backSame, ← xorBytes_append _ _ (by simp [width]), List.take_append_drop,
          List.take_append_drop]
      have clear : back.all (· = 0) = true ↔ back = List.replicate (subChunkSize - used) 0 := by
        rw [List.eq_replicate_iff, List.all_eq_true]
        simp [backLength]
      obtain ⟨behind, behindSame⟩ : ∃ behind,
        xorBytes rest.flatten (maskFrom entropyOf (index + 1) rest.length) = behind := ⟨_, rfl⟩
      have whole : xorBytes (packed :: rest).flatten
          (maskFrom entropyOf index (packed :: rest).length) = front ++ (back ++ behind) := by
        rw [List.flatten_cons, List.length_cons, maskFrom, xorBytes_append _ _ (by simp [width]),
          split, behindSame, List.append_assoc]
      have step := @induction (index + 1)
      rw [Nat.succ_mul, behindSame] at step
      rw [unpackSubChunks, whole, List.length_cons, Nat.succ_mul]
      simp only [Job.checkCancelled, Job.running, Checked.ensure_of, Checked.ok_bind, chosen,
        frontSame, backSame, Checked.bind_eq_ok, Checked.ensure_eq_ok, clear, Checked.pure_eq_ok]
      constructor
      · rintro ⟨_, zeros, others, unpacked, rfl⟩
        obtain ⟨count, masked⟩ := (step widths).mp unpacked
        rw [List.length_append, frontLength, zeros, masked, List.append_assoc]
        refine ⟨by omega, congrArg (front ++ ·) ?_⟩
        by_cases full : used = subChunkSize
        · rw [full, Nat.sub_self, List.replicate_zero, List.nil_append, ← room_behind]
        · have none : others = [] :=
            List.length_eq_zero_iff.mp (count.trans (none_behind _ chosen full).1)
          rw [none, List.nil_append, List.nil_append, List.length_nil,
            List.replicate_append_replicate]
          congr 1
          omega
      · rintro ⟨count, masked⟩
        have long : used ≤ data.length := by omega
        rw [← List.take_append_drop used data, List.append_assoc] at masked
        obtain ⟨head, tail⟩ := List.append_inj masked (by
          rw [frontLength, List.length_take, Nat.min_eq_left long])
        have dropped : (data.drop used).length = data.length - used := List.length_drop
        rw [List.take_append_drop] at tail
        by_cases full : used = subChunkSize
        · have none : back = [] := List.length_eq_zero_iff.mp (by omega)
          rw [none, List.nil_append] at tail
          refine ⟨⟨⟩, by rw [none, full, Nat.sub_self, List.replicate_zero], data.drop used,
            (step widths).mpr ⟨by rw [dropped, count, full, some_behind], ?_⟩,
            by rw [head, List.take_append_drop]⟩
          rw [tail, dropped, full, room_under (full ▸ long)]
        · have none : data.drop used = [] := by
            rw [count] at dropped
            exact List.length_eq_zero_iff.mp (dropped.trans (none_behind _ chosen full).2)
          rw [none, List.nil_append] at tail
          obtain ⟨_, zeros⟩ := List.eq_replicate_iff.mp tail
          have backZeros : back = List.replicate (subChunkSize - used) 0 :=
            List.eq_replicate_iff.mpr ⟨backLength, fun byte member =>
              zeros byte (List.mem_append_left _ member)⟩
          have behindLength := congrArg List.length tail
          rw [List.length_append, List.length_replicate, backLength] at behindLength
          refine ⟨⟨⟩, backZeros, [], (step widths).mpr
            ⟨(none_behind _ chosen full).1.symm, ?_⟩, ?_⟩
          · rw [List.nil_append, List.length_nil]
            exact List.eq_replicate_iff.mpr ⟨by omega, fun byte member =>
              zeros byte (List.mem_append_right _ member)⟩
          · rw [List.append_nil, head, ← List.append_nil (data.take used), ← none,
              List.take_append_drop]

/-- The mask of a packed chunk. -/
def chunkMask (suite : HashSuite)
    (entropyOf : List (FixedBytes 32) → Nat → FixedBytes subChunkSize) (address : FixedBytes 32)
    (place : Nat × Nat × Nat) : Bytes :=
  maskFrom (fun index => entropyOf
    (entropySeeds suite (entropyKey suite address place.1 (place.2.1 + index))) place.2.2) 0 32

/-- Data padded with zeros and masked. -/
def packed (suite : HashSuite)
    (entropyOf : List (FixedBytes 32) → Nat → FixedBytes subChunkSize) (address : FixedBytes 32)
    (place : Nat × Nat × Nat) (data : Bytes) : Bytes :=
  xorBytes (data ++ List.replicate (maxChunkSize - data.length) 0)
    (chunkMask suite entropyOf address place)

/-- A job unpacks exactly the chunks that unmask to the data and zeros. -/
theorem unpack_eq_ok {suite : HashSuite}
    {entropyOf : List (FixedBytes 32) → Nat → FixedBytes subChunkSize} {address : FixedBytes 32}
    {absoluteEnd size : Nat} {place : Nat × Nat × Nat} {bytes data : Bytes}
    (placed : position absoluteEnd = .ok place) :
    unpack suite (fun seeds index => some (entropyOf seeds index)) bytes address absoluteEnd size
        .running = .ok data ↔
      bytes.length = maxChunkSize ∧ 0 < size ∧ size ≤ maxChunkSize ∧ data.length = size ∧
        xorBytes bytes (chunkMask suite entropyOf address place) =
          data ++ List.replicate (maxChunkSize - size) 0 := by
  have whole : maxChunkSize = 32 * subChunkSize := rfl
  rw [unpack]
  by_cases long : bytes.length = maxChunkSize
  · by_cases fits : 0 < size ∧ size ≤ bytes.length
    · obtain ⟨flat, count, widths⟩ := flatten_chunksExact (show 0 < subChunkSize by decide)
        (long.trans whole)
      have loop := @unpackSubChunks_eq_ok (fun index => entropyOf
        (entropySeeds suite (entropyKey suite address place.1 (place.2.1 + index))) place.2.2) size 0
        _ data widths
      rw [flat, count, ← whole, Nat.zero_mul, Nat.sub_zero, ← long, Nat.min_eq_left fits.2,
        long] at loop
      rw [Checked.ensure_of long, Checked.ensure_of fits, placed]
      refine Iff.trans (check_eq_ok.trans loop) ?_
      rw [chunkMask]
      constructor
      · rintro ⟨same, masked⟩
        exact ⟨long, fits.1, long ▸ fits.2, same, same ▸ masked⟩
      · rintro ⟨_, _, _, same, masked⟩
        exact ⟨same, same ▸ masked⟩
    · rw [Checked.ensure_of long, Checked.ensure, if_neg fits]
      constructor
      · intro done
        cases done
      · rintro ⟨_, positive, within, _⟩
        exact absurd ⟨positive, long ▸ within⟩ fits
  · rw [Checked.ensure, if_neg long]
    constructor
    · intro done
      cases done
    · rintro ⟨same, _⟩
      exact absurd same long

theorem unpack_running {suite : HashSuite}
    {replicaSlice : List (FixedBytes 32) → Nat → Option (FixedBytes subChunkSize)}
    {address : FixedBytes 32} {absoluteEnd size : Nat} {bytes data : Bytes} {job : Job}
    (accepted : unpack suite replicaSlice bytes address absoluteEnd size job = .ok data) :
    job = .running ∧ ∃ place, position absoluteEnd = .ok place := by
  simp only [unpack, Machine.bind_eq_ok, check_eq_ok, Checked.ensure_eq_ok,
    Job.checkCancelled] at accepted
  obtain ⟨_, _, _, _, _, sse42, _, running, place, placed, _, _, _, initialized, _⟩ := accepted
  obtain ⟨cancelled, _, _⟩ := job
  exact ⟨by simp_all [Job.running], place, placed⟩

/-- Unpacking takes the masks of packed data off, whatever the entropy is; and a chunk that is
unpacked by any job has nothing but zeros under the masks behind its size. -/
theorem unpack_inverts_packing (suite : HashSuite)
    (entropyOf : List (FixedBytes 32) → Nat → FixedBytes subChunkSize) (address : FixedBytes 32)
    (absoluteEnd : Nat) :
    (∀ place, position absoluteEnd = .ok place →
      ∀ data : Bytes, 0 < data.length → data.length ≤ maxChunkSize →
        unpack suite (fun seeds index => some (entropyOf seeds index))
          (packed suite entropyOf address place data) address absoluteEnd data.length .running =
            .ok data) ∧
    ∀ bytes size job data,
      unpack suite (fun seeds index => some (entropyOf seeds index)) bytes address absoluteEnd size
        job = .ok data →
      ∃ place, position absoluteEnd = .ok place ∧ data.length = size ∧
        (xorBytes bytes (chunkMask suite entropyOf address place)).take size = data ∧
        ∀ byte ∈ (xorBytes bytes (chunkMask suite entropyOf address place)).drop size, byte = 0 := by
  constructor
  · intro place placed data positive within
    have padded : (data ++ List.replicate (maxChunkSize - data.length) 0).length = maxChunkSize := by
      rw [List.length_append, List.length_replicate]
      omega
    have masks : (data ++ List.replicate (maxChunkSize - data.length) 0).length =
        (chunkMask suite entropyOf address place).length := by
      rw [padded, chunkMask, length_maskFrom]
      rfl
    rw [unpack_eq_ok placed, packed, length_xorBytes masks, xorBytes_xorBytes masks]
    exact ⟨padded, positive, within, rfl, rfl⟩
  · intro bytes size job data accepted
    obtain ⟨rfl, place, placed⟩ := unpack_running accepted
    obtain ⟨_, _, _, rfl, masked⟩ := (unpack_eq_ok placed).mp accepted
    refine ⟨place, placed, rfl, ?_⟩
    rw [masked]
    refine ⟨List.take_left, fun byte member => ?_⟩
    rw [List.drop_left] at member
    exact List.eq_of_mem_replicate member

/-- Entropy of one byte all through. -/
def plainEntropy (_ : List (FixedBytes 32)) (index : Nat) : FixedBytes subChunkSize :=
  ⟨List.replicate subChunkSize (UInt8.ofNat index), List.length_replicate⟩

theorem unpack_inverts_packing_plain :
    unpack sha2Suite (fun seeds index => some (plainEntropy seeds index))
      (packed sha2Suite plainEntropy samplePayload (0, 32, 0) [1, 2, 3]) samplePayload 524288 3
        .running = .ok [1, 2, 3] :=
  (unpack_inverts_packing sha2Suite plainEntropy samplePayload 524288).1 (0, 32, 0) rfl [1, 2, 3]
    (by decide) (by decide)

end ArIoGateway
