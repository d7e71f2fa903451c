import ArIoGateway.DataItems
import ArIoGateway.Foundation.Segments
import ArIoGateway.Foundation.Varints

/-!
# The grammar of tags

The tags of a data item are an Avro array of records, written in blocks.  This file states the
grammar without a reader and shows that the reader accepts the strings of the grammar.
-/

namespace ArIoGateway

open Octets Varints

/-- The encodings of a 64-bit integer; a writer may pad to any width up to ten groups. -/
def AvroLong (value : Int) (bytes : Bytes) : Prop :=
  ∃ width, 0 < width ∧ width ≤ 10 ∧ zigzag value < 128 ^ width ∧ zigzag value < 2 ^ 64 ∧
    bytes = groups width (zigzag value)

/-- A name and a value within the limits, each behind its length. -/
structure AvroTag (tag : Bytes × Bytes) (bytes : Bytes) : Prop where
  name : tag.1.length ≤ maxDataItemTagNameBytes
  value : tag.2.length ≤ maxDataItemTagValueBytes
  bytes : ∃ nameLength valueLength, AvroLong tag.1.length nameLength ∧
    AvroLong tag.2.length valueLength ∧ bytes = nameLength ++ tag.1 ++ valueLength ++ tag.2

/-- Records behind one another. -/
inductive AvroRecords : List (Bytes × Bytes) → Bytes → Prop
  | nil : AvroRecords [] []
  | cons {tag tags record records} : AvroTag tag record → AvroRecords tags records →
      AvroRecords (tag :: tags) (record ++ records)

/-- A block that is not empty: a count in front of its records, or the negative of a count and the
size of the records in bytes. -/
inductive AvroBlock : List (Bytes × Bytes) → Bytes → Prop
  | plain {tags count records} : tags ≠ [] → AvroLong tags.length count →
      AvroRecords tags records → AvroBlock tags (count ++ records)
  | sized {tags count size records} : tags ≠ [] → AvroLong (-tags.length) count →
      AvroLong records.length size → AvroRecords tags records →
      AvroBlock tags (count ++ size ++ records)

/-- Blocks behind one another, closed by a zero count or by nothing. -/
inductive AvroArray : List (Bytes × Bytes) → Bytes → Prop
  | finish : AvroArray [] []
  | zero {count} : AvroLong 0 count → AvroArray [] count
  | block {first tags block bytes} : AvroBlock first block → AvroArray tags bytes →
      AvroArray (first ++ tags) (block ++ bytes)

/-- An array is the concatenation of its blocks, with or without a zero count behind them. -/
theorem avroArray_iff {tags : List (Bytes × Bytes)} {bytes : Bytes} :
    AvroArray tags bytes ↔ ∃ (blocks : List (List (Bytes × Bytes) × Bytes)) (ending : Bytes),
      (∀ block ∈ blocks, AvroBlock block.1 block.2) ∧ (ending = [] ∨ AvroLong 0 ending) ∧
        tags = blocks.flatMap Prod.fst ∧ bytes = blocks.flatMap Prod.snd ++ ending := by
  constructor
  · intro array
    induction array with
    | finish => exact ⟨[], [], by simp, .inl rfl, rfl, rfl⟩
    | zero count => exact ⟨[], _, by simp, .inr count, rfl, rfl⟩
    | @block first _ block _ valid _ induction =>
        obtain ⟨blocks, ending, all, closed, rfl, rfl⟩ := induction
        refine ⟨(first, block) :: blocks, ending, ?_, closed, rfl, ?_⟩
        · intro other member
          cases member with
          | head => exact valid
          | tail _ member => exact all other member
        · rw [List.flatMap_cons, List.append_assoc]
  · rintro ⟨blocks, ending, all, closed, rfl, rfl⟩
    induction blocks with
    | nil =>
        rcases closed with rfl | closed
        · exact .finish
        · exact .zero closed
    | cons block blocks induction =>
        rw [List.flatMap_cons, List.flatMap_cons, List.append_assoc]
        exact .block (all block List.mem_cons_self)
          (induction fun other member => all other (List.mem_cons_of_mem _ member))

theorem take_eq_ok_iff {bytes part : Bytes} {cursor length next : Nat} {label : String} :
    take bytes cursor length label = .ok (part, next) ↔
      Segment bytes cursor part next ∧ part.length = length := by
  simp only [take, Checked.bind_eq_ok, Checked.ensure_eq_ok, Checked.pure_eq_ok, Prod.mk.injEq,
    exists_and_left, exists_const]
  constructor
  · rintro ⟨addressable, inside, rfl, rfl⟩
    have width : ((bytes.drop cursor).take length).length = length := by
      rw [List.length_take, List.length_drop]
      omega
    exact ⟨⟨by rw [width], inside, addressable, by rw [width]⟩, width⟩
  · rintro ⟨segment, rfl⟩
    have finish := segment.length
    have inside := segment.inside
    have addressable := segment.addressable
    exact ⟨by omega, by omega, segment.holds, finish⟩

/-- The number of a last group behind others stays within a word. -/
theorem group_lt {index encoded byte : Nat} (small : encoded < 2 ^ (index * 7)) (last : byte < 128)
    (bounded : index ≠ 9 ∨ byte ≤ 1) (few : index ≤ 9) :
    encoded + byte * 2 ^ (index * 7) < 2 ^ 64 := by
  by_cases ninth : index = 9
  · subst ninth
    omega
  · have room : 2 ^ (index * 7) * 128 ≤ 2 ^ 63 := by
      rw [show (128 : Nat) = 2 ^ 7 by rfl, ← Nat.pow_add]
      exact Nat.pow_le_pow_right (by omega) (by omega)
    have scaled : byte * 2 ^ (index * 7) ≤ 127 * 2 ^ (index * 7) :=
      Nat.mul_le_mul_right _ (by omega)
    omega

/-- Behind one more group the number is below the scale of the next. -/
theorem encoded_lt {index encoded byte : Nat} (small : encoded < 2 ^ (index * 7)) :
    encoded + byte % 128 * 2 ^ (index * 7) < 2 ^ (index * 7) * 128 := by
  have scaled : byte % 128 * 2 ^ (index * 7) ≤ 127 * 2 ^ (index * 7) :=
    Nat.mul_le_mul_right _ (by omega)
  omega

theorem joined_eq (encoded low number scale : Nat) :
    encoded + low * scale + number * (scale * 128) = encoded + (low + 128 * number) * scale := by
  ring

theorem readAvroGroups_eq_ok {bytes : Bytes} {left index cursor encoded next : Nat} {value : Int}
    (total : left + index = 10) (small : encoded < 2 ^ (index * 7)) :
    readAvroGroups bytes left index cursor encoded = .ok (value, next) ↔
      ∃ width number, 0 < width ∧ width ≤ left ∧ number < 128 ^ width ∧
        encoded + number * 2 ^ (index * 7) < 2 ^ 64 ∧
        value = unzigzag (encoded + number * 2 ^ (index * 7)) ∧
        Segment bytes cursor (groups width number) next := by
  induction left generalizing index cursor encoded with
  | zero =>
      rw [readAvroGroups]
      constructor
      · intro failed
        cases failed
      · intro ⟨width, number, positive, few, rest⟩
        omega
  | succ left induction =>
      have scale : 2 ^ ((index + 1) * 7) = 2 ^ (index * 7) * 128 := by
        rw [Nat.succ_mul, Nat.pow_add]
      simp only [readAvroGroups, Checked.bind_eq_ok, Checked.ensure_eq_ok, Prod.exists,
        take_eq_ok_iff]
      constructor
      · rintro ⟨group, behind, ⟨segment, one⟩, _, bounded, read⟩
        obtain ⟨byte, rfl⟩ := List.length_eq_one_iff.mp one
        rw [List.headD_cons] at bounded read
        by_cases last : byte.toNat < 128
        · rw [if_pos last, Checked.pure_eq_ok, Prod.mk.injEq, Nat.mod_eq_of_lt last] at read
          obtain ⟨rfl, rfl⟩ := read
          refine ⟨1, byte.toNat, by omega, by omega, by omega, ?_, rfl, ?_⟩
          · exact group_lt small last bounded (by omega)
          · rw [groups, UInt8.ofNat_toNat]
            exact segment
        · rw [if_neg last] at read
          have few := @encoded_lt _ _ byte.toNat small
          rw [← scale] at few
          obtain ⟨width, number, positive, limit, fits, bound, rfl, rest⟩ :=
            (induction (by omega) few).mp read
          have high : byte.toNat % 128 = byte.toNat - 128 := by
            have := byte.toNat_lt
            omega
          have joined := joined_eq encoded (byte.toNat % 128) number (2 ^ (index * 7))
          rw [scale, joined, high] at bound ⊢
          refine ⟨width + 1, byte.toNat - 128 + 128 * number, by omega, by omega, ?_, bound, rfl, ?_⟩
          · have := byte.toNat_lt
            rw [Nat.pow_succ]
            omega
          · rw [groups_cons (by omega) positive]
            exact segment.append rest
      · rintro ⟨width, number, positive, limit, fits, bound, rfl, segment⟩
        obtain ⟨width, rfl⟩ : ∃ before, width = before + 1 := ⟨width - 1, by omega⟩
        cases split : groups (width + 1) number with
        | nil =>
            have length := length_groups (width + 1) number
            rw [split] at length
            cases length
        | cons byte rest =>
            rw [split] at segment
            obtain ⟨behind, first, later⟩ := (show Segment _ _ ([byte] ++ rest) _ from segment).split
            refine ⟨[byte], behind, ⟨first, rfl⟩, (), ?_⟩
            rw [List.headD_cons]
            rcases groups_eq_cons fits split with ⟨last, rfl, rfl, rfl⟩ |
              ⟨more, positive, whole, below, rfl⟩
            · obtain rfl : behind = next := later.length
              refine ⟨?_, ?_⟩
              · by_cases ninth : index = 9
                · subst ninth
                  omega
                · exact .inl ninth
              · rw [if_pos last, Checked.pure_eq_ok, Prod.mk.injEq, Nat.mod_eq_of_lt last]
                exact ⟨rfl, rfl⟩
            · have high : byte.toNat % 128 = byte.toNat - 128 := by
                have := byte.toNat_lt
                omega
              have joined := joined_eq encoded (byte.toNat % 128) (number / 128) (2 ^ (index * 7))
              rw [high, ← whole, ← scale] at joined
              have few := @encoded_lt _ _ byte.toNat small
              rw [← scale, high] at few
              refine ⟨.inl (by omega), ?_⟩
              rw [if_neg (by omega), high]
              exact (induction (by omega) few).mpr ⟨width, number / 128, positive, by omega, below,
                by rw [joined]; exact bound, by rw [joined], later⟩

theorem readAvroLong_eq_ok {bytes : Bytes} {cursor next : Nat} {value : Int} :
    readAvroLong bytes cursor = .ok (value, next) ↔
      ∃ part, AvroLong value part ∧ Segment bytes cursor part next := by
  rw [readAvroLong, readAvroGroups_eq_ok rfl (by omega)]
  simp only [Nat.zero_mul, Nat.pow_zero, Nat.mul_one, Nat.zero_add]
  constructor
  · rintro ⟨width, number, positive, limit, fits, bound, rfl, segment⟩
    exact ⟨_, ⟨width, positive, limit, by rwa [zigzag_unzigzag], by rwa [zigzag_unzigzag], rfl⟩,
      by rwa [zigzag_unzigzag]⟩
  · rintro ⟨_, ⟨width, positive, limit, fits, bound, rfl⟩, segment⟩
    exact ⟨width, zigzag value, positive, limit, fits, bound, (unzigzag_zigzag value).symm, segment⟩

theorem readAvroLength_eq_ok {bytes : Bytes} {cursor length next : Nat} {label : String} :
    readAvroLength bytes cursor label = .ok (length, next) ↔
      ∃ part, AvroLong length part ∧ Segment bytes cursor part next := by
  simp only [readAvroLength, Checked.bind_eq_ok, Checked.ensure_eq_ok, Checked.pure_eq_ok,
    Prod.exists, Prod.mk.injEq, readAvroLong_eq_ok]
  constructor
  · rintro ⟨value, behind, ⟨part, long, segment⟩, _, positive, rfl, rfl⟩
    exact ⟨part, by rwa [Int.toNat_of_nonneg positive], segment⟩
  · rintro ⟨part, long, segment⟩
    exact ⟨length, next, ⟨part, long, segment⟩, (), by omega, by omega, rfl⟩

theorem readAvroTags_eq_ok {bytes : Bytes} {count cursor next : Nat} {tags : List (Bytes × Bytes)}
    (inside : cursor ≤ bytes.length) (addressable : cursor < 2 ^ 64) :
    readAvroTags bytes count cursor = .ok (tags, next) ↔
      tags.length = count ∧ ∃ part, AvroRecords tags part ∧ Segment bytes cursor part next := by
  induction count generalizing cursor tags with
  | zero =>
      rw [readAvroTags, Checked.pure_eq_ok, Prod.mk.injEq, List.length_eq_zero_iff]
      constructor
      · rintro ⟨rfl, rfl⟩
        exact ⟨rfl, [], .nil, .nil inside addressable⟩
      · rintro ⟨rfl, part, records, segment⟩
        cases records
        exact ⟨rfl, segment.length⟩
  | succ count induction =>
      simp only [readAvroTags, Checked.bind_eq_ok, Checked.ensure_eq_ok, Checked.pure_eq_ok,
        Prod.exists, Prod.mk.injEq, readAvroLength_eq_ok, take_eq_ok_iff]
      constructor
      · rintro ⟨_, _, ⟨nameLength, nameLong, first⟩, _, nameLimit, name, _, ⟨second, rfl⟩, _, _,
          ⟨valueLength, valueLong, third⟩, _, valueLimit, value, _, ⟨fourth, rfl⟩, tags, _, read,
          rfl, rfl⟩
        obtain ⟨rfl, part, records, rest⟩ := (induction fourth.inside fourth.addressable).mp read
        exact ⟨rfl, _, .cons ⟨nameLimit, valueLimit, _, _, nameLong, valueLong, rfl⟩ records,
          (((first.append second).append third).append fourth).append rest⟩
      · rintro ⟨length, part, records, segment⟩
        cases records with
        | nil => cases length
        | @cons tag tags record rest valid records =>
            obtain ⟨nameLimit, valueLimit, nameLength, valueLength, nameLong, valueLong, rfl⟩ := valid
            obtain ⟨_, record, later⟩ := segment.split
            obtain ⟨_, record, fourth⟩ := record.split
            obtain ⟨_, record, third⟩ := record.split
            obtain ⟨_, first, second⟩ := record.split
            exact ⟨_, _, ⟨_, nameLong, first⟩, (), nameLimit, tag.1, _, ⟨second, rfl⟩, _, _,
              ⟨_, valueLong, third⟩, (), valueLimit, tag.2, _, ⟨fourth, rfl⟩, tags, next,
              (induction fourth.inside fourth.addressable).mpr
                ⟨Nat.succ.inj length, rest, records, later⟩, rfl, rfl⟩

theorem AvroRecords.length_le {tags : List (Bytes × Bytes)} {records : Bytes}
    (valid : AvroRecords tags records) : 2 * tags.length ≤ records.length := by
  induction valid with
  | nil => exact Nat.zero_le _
  | cons record _ induction =>
      obtain ⟨_, _, _, _, ⟨first, someName, _, _, _, rfl⟩, ⟨second, someValue, _, _, _, rfl⟩, rfl⟩ :=
        record
      simp only [List.length_append, length_groups, List.length_cons]
      omega

theorem avroArray_of_readAvroBlocks {bytes : Bytes} {expectedCount rounds cursor : Nat}
    {tags result : List (Bytes × Bytes)} (inside : cursor ≤ bytes.length)
    (read : readAvroBlocks bytes expectedCount rounds cursor tags = .ok (result, bytes.length)) :
    ∃ more, AvroArray more (bytes.drop cursor) ∧ result = tags ++ more := by
  induction rounds generalizing cursor tags with
  | zero =>
      rw [readAvroBlocks] at read
      cases read
  | succ rounds induction =>
      rw [readAvroBlocks] at read
      by_cases finished : cursor = bytes.length
      · rw [if_pos finished, Checked.pure_eq_ok, Prod.mk.injEq] at read
        refine ⟨[], ?_, by rw [List.append_nil, read.1]⟩
        rw [finished, List.drop_length]
        exact .finish
      · rw [if_neg finished] at read
        simp only [Checked.bind_eq_ok, Prod.exists, readAvroLong_eq_ok] at read
        obtain ⟨blockCount, behind, ⟨count, long, first⟩, read⟩ := read
        by_cases zero : blockCount = 0
        · rw [if_pos zero, Checked.pure_eq_ok, Prod.mk.injEq] at read
          obtain ⟨rfl, rfl⟩ := read
          refine ⟨[], ?_, by rw [List.append_nil]⟩
          rw [← first.eq_drop]
          exact .zero (zero ▸ long)
        · rw [if_neg zero] at read
          simp only [Checked.bind_eq_ok, Checked.ensure_eq_ok, Prod.exists] at read
          obtain ⟨_, bounded, _, _, blockEnd, start, ending, block, last, records, _, closed,
            read⟩ := read
          have valid : ∃ part, AvroBlock block part ∧ Segment bytes cursor part last := by
            by_cases sized : blockCount < 0
            · rw [readAvroBlocks.readBlockEnd, if_pos sized] at ending
              simp only [Checked.bind_eq_ok, Checked.ensure_eq_ok, Checked.pure_eq_ok, Prod.exists,
                Prod.mk.injEq, readAvroLong_eq_ok] at ending
              obtain ⟨blockSize, start, ⟨size, sizeLong, second⟩, _, positive, _, _, rfl, rfl⟩ :=
                ending
              obtain ⟨length, part, valid, third⟩ :=
                (readAvroTags_eq_ok second.inside second.addressable).mp records
              have size := closed _ rfl
              have width := third.length
              exact ⟨_, .sized (by rintro rfl; simp only [List.length_nil] at length; omega)
                (by rwa [length, show -(blockCount.natAbs : Int) = blockCount by omega])
                (by rwa [show (part.length : Int) = blockSize by omega]) valid,
                (first.append second).append third⟩
            · rw [readAvroBlocks.readBlockEnd, if_neg sized, Checked.pure_eq_ok,
                Prod.mk.injEq] at ending
              obtain ⟨rfl, rfl⟩ := ending
              obtain ⟨length, part, valid, second⟩ :=
                (readAvroTags_eq_ok first.inside first.addressable).mp records
              exact ⟨_, .plain (by rintro rfl; simp only [List.length_nil] at length; omega)
                (by rwa [length, show (blockCount.natAbs : Int) = blockCount by omega]) valid,
                first.append second⟩
          obtain ⟨part, valid, segment⟩ := valid
          obtain ⟨more, array, rfl⟩ := induction segment.inside read
          refine ⟨block ++ more, ?_, by rw [List.append_assoc]⟩
          rw [segment.drop_eq]
          exact .block valid array

theorem AvroLong.length_pos {value : Int} {bytes : Bytes} (long : AvroLong value bytes) :
    0 < bytes.length := by
  obtain ⟨width, positive, _, _, _, rfl⟩ := long
  rwa [length_groups]

theorem AvroBlock.length_pos {tags : List (Bytes × Bytes)} {bytes : Bytes}
    (valid : AvroBlock tags bytes) : 0 < bytes.length := by
  cases valid with
  | plain _ long _ =>
      have := long.length_pos
      rw [List.length_append]
      omega
  | sized _ long _ _ =>
      have := long.length_pos
      rw [List.length_append, List.length_append]
      omega

/-- One round over a block of the grammar. -/
theorem readAvroBlocks_block {bytes part : Bytes} {expectedCount rounds cursor next : Nat}
    {tags block : List (Bytes × Bytes)} (memory : bytes.length < 2 ^ 64)
    (valid : AvroBlock block part) (segment : Segment bytes cursor part next)
    (few : tags.length + block.length ≤ expectedCount) :
    readAvroBlocks bytes expectedCount (rounds + 1) cursor tags =
      readAvroBlocks bytes expectedCount rounds next (tags ++ block) := by
  have unfinished : cursor ≠ bytes.length := by
    have positive := valid.length_pos
    have moved := segment.length
    have inside := segment.inside
    omega
  rw [readAvroBlocks, if_neg unfinished]
  cases valid with
  | plain filled long valid =>
      obtain ⟨middle, first, second⟩ := segment.split
      have positive := List.length_pos_iff.mpr filled
      have bound := valid.length_le
      have moved := second.length
      have inside := second.inside
      have read := (readAvroTags_eq_ok first.inside first.addressable).mpr ⟨rfl, _, valid, second⟩
      rw [readAvroLong_eq_ok.mpr ⟨_, long, first⟩, Checked.ok_bind]
      simp only [Int.natCast_eq_zero]
      rw [if_neg (by omega), Checked.ensure_of (by omega), Checked.ok_bind,
        Checked.ensure_of (by omega), Checked.ok_bind, readAvroBlocks.readBlockEnd,
        if_neg (by omega)]
      simp only [pure_bind, Int.natAbs_natCast, read, Checked.ok_bind]
      rw [Checked.ensure_of (by rintro _ ⟨⟩), Checked.ok_bind]
  | sized filled long sizeLong valid =>
      obtain ⟨_, segment, third⟩ := segment.split
      obtain ⟨_, first, second⟩ := segment.split
      have positive := List.length_pos_iff.mpr filled
      have bound := valid.length_le
      have moved := third.length
      have inside := third.inside
      have read := (readAvroTags_eq_ok second.inside second.addressable).mpr ⟨rfl, _, valid, third⟩
      rw [readAvroLong_eq_ok.mpr ⟨_, long, first⟩, Checked.ok_bind]
      simp only [Int.neg_eq_zero, Int.natCast_eq_zero]
      rw [if_neg (by omega), Checked.ensure_of (by omega), Checked.ok_bind,
        Checked.ensure_of (by omega), Checked.ok_bind, readAvroBlocks.readBlockEnd,
        if_pos (by omega), readAvroLong_eq_ok.mpr ⟨_, sizeLong, second⟩]
      simp only [Checked.ok_bind]
      rw [Checked.ensure_of (by omega), Checked.ok_bind, Checked.ensure_of (by omega),
        Checked.ok_bind]
      simp only [pure_bind, Int.natAbs_neg, Int.natAbs_natCast, read, Checked.ok_bind]
      rw [Checked.ensure_of (by rintro _ ⟨⟩; omega), Checked.ok_bind]

theorem readAvroBlocks_of_avroArray {bytes : Bytes} {expectedCount rounds cursor : Nat}
    {tags more : List (Bytes × Bytes)} (inside : cursor ≤ bytes.length)
    (memory : bytes.length < 2 ^ 64) (array : AvroArray more (bytes.drop cursor))
    (total : tags.length + more.length = expectedCount) (enough : bytes.length - cursor < rounds) :
    readAvroBlocks bytes expectedCount rounds cursor tags = .ok (tags ++ more, bytes.length) := by
  induction rounds generalizing cursor tags more with
  | zero => omega
  | succ rounds induction =>
      rw [readAvroBlocks]
      generalize rest : bytes.drop cursor = part at array
      cases array with
      | finish =>
          have finished : cursor = bytes.length := by
            have := List.drop_eq_nil_iff.mp rest
            omega
          rw [if_pos finished, List.append_nil, finished]
          rfl
      | zero long =>
          have segment := Segment.of_drop rest.symm inside memory
          have unfinished : cursor ≠ bytes.length := by
            obtain ⟨width, positive, _, _, _, rfl⟩ := long
            have := segment.length
            rw [length_groups] at this
            omega
          rw [if_neg unfinished, readAvroLong_eq_ok.mpr ⟨_, long, segment⟩, Checked.ok_bind,
            List.append_nil]
          rfl
      | @block first tags block later valid array =>
          obtain ⟨middle, segment, behind⟩ := (Segment.of_drop rest.symm inside memory).split
          rw [List.length_append] at total
          have moved := segment.length
          have within := segment.inside
          have positive := valid.length_pos
          rw [← readAvroBlocks, readAvroBlocks_block memory valid segment (by omega),
            ← List.append_assoc]
          refine induction segment.inside (behind.eq_drop ▸ array) ?_ (by omega)
          rw [List.length_append]
          omega

/-- A result that is not the one of a loop out of rounds. -/
def Ends {α : Type} (result : Checked α) : Prop := result ≠ .error "Avro blocks do not end"

theorem Ends.pure {α : Type} (value : α) : Ends (pure value : Checked α) := nofun

theorem Ends.ensure {condition : Prop} [Decidable condition] {message : String}
    (other : message ≠ "Avro blocks do not end") : Ends (Checked.ensure condition message) := by
  unfold Checked.ensure
  split
  · nofun
  · intro same
    exact other (Except.error.inj same)

theorem Ends.bind {α β : Type} {first : Checked α} {second : α → Checked β} (start : Ends first)
    (next : ∀ value, first = .ok value → Ends (second value)) : Ends (first >>= second) := by
  cases first with
  | error message => exact fun same => start (congrArg Except.error (Except.error.inj same))
  | ok value => exact next value rfl

theorem take_ends {bytes : Bytes} {cursor length : Nat} {label : String}
    (known : label ∈ ["Avro long", "Avro tag name", "Avro tag value"]) :
    Ends (take bytes cursor length label) := by
  have messages : label ++ " offset overflow" ≠ "Avro blocks do not end" ∧
      label ++ " is truncated" ≠ "Avro blocks do not end" := by
    revert label
    decide
  exact .bind (.ensure messages.1) fun _ _ => .bind (.ensure messages.2) fun _ _ => .pure _

theorem readAvroLong_ends (bytes : Bytes) (cursor : Nat) : Ends (readAvroLong bytes cursor) := by
  have groups (left index cursor encoded : Nat) :
      Ends (readAvroGroups bytes left index cursor encoded) := by
    induction left generalizing index cursor encoded with
    | zero =>
        rw [readAvroGroups]
        exact fun same => absurd (Except.error.inj same) (by decide)
    | succ left induction =>
        rw [readAvroGroups]
        refine .bind (take_ends (by decide)) fun _ _ => .bind (.ensure (by decide)) fun _ _ => ?_
        dsimp only
        split
        · exact .pure _
        · exact induction _ _ _
  exact groups 10 0 cursor 0

theorem readAvroLength_ends {bytes : Bytes} {cursor : Nat} {label : String}
    (known : label ∈ ["Avro tag name", "Avro tag value"]) :
    Ends (readAvroLength bytes cursor label) := by
  have message : label ++ " length is negative" ≠ "Avro blocks do not end" := by
    revert label
    decide
  exact .bind (readAvroLong_ends bytes cursor) fun _ _ => .bind (.ensure message) fun _ _ => .pure _

theorem readAvroTags_ends (bytes : Bytes) (count cursor : Nat) :
    Ends (readAvroTags bytes count cursor) := by
  induction count generalizing cursor with
  | zero => exact .pure _
  | succ count induction =>
      rw [readAvroTags]
      refine .bind (readAvroLength_ends (by decide)) fun _ _ => .bind (.ensure (by decide)) fun _ _ =>
        .bind (take_ends (by decide)) fun _ _ => .bind (readAvroLength_ends (by decide)) fun _ _ =>
        .bind (.ensure (by decide)) fun _ _ => .bind (take_ends (by decide)) fun _ _ =>
        .bind (induction _) fun _ _ => .pure _

theorem readBlockEnd_ends (bytes : Bytes) (blockCount : Int) (cursor : Nat) :
    Ends (readAvroBlocks.readBlockEnd bytes blockCount cursor) := by
  rw [readAvroBlocks.readBlockEnd]
  split
  · exact .bind (readAvroLong_ends bytes cursor) fun _ _ => .bind (.ensure (by decide)) fun _ _ =>
      .bind (.ensure (by decide)) fun _ _ => .pure _
  · exact .pure _

theorem readBlockEnd_le {bytes : Bytes} {blockCount : Int} {cursor next : Nat}
    {blockEnd : Option Nat} (inside : cursor ≤ bytes.length) (addressable : cursor < 2 ^ 64)
    (read : readAvroBlocks.readBlockEnd bytes blockCount cursor = .ok (blockEnd, next)) :
    cursor ≤ next ∧ next ≤ bytes.length ∧ next < 2 ^ 64 := by
  rw [readAvroBlocks.readBlockEnd] at read
  split at read
  · simp only [Checked.bind_eq_ok, Checked.ensure_eq_ok, Checked.pure_eq_ok, Prod.exists,
      Prod.mk.injEq, readAvroLong_eq_ok] at read
    obtain ⟨_, _, ⟨_, _, segment⟩, _, _, _, _, _, rfl⟩ := read
    exact ⟨segment.length ▸ Nat.le_add_right _ _, segment.inside, segment.addressable⟩
  · rw [Checked.pure_eq_ok, Prod.mk.injEq] at read
    obtain ⟨_, rfl⟩ := read
    exact ⟨le_rfl, inside, addressable⟩

/-- Every round moves the cursor, so that as many rounds as there are bytes are enough. -/
theorem readAvroBlocks_ends {bytes : Bytes} {expectedCount rounds cursor : Nat}
    {tags : List (Bytes × Bytes)} (inside : cursor ≤ bytes.length)
    (enough : bytes.length - cursor < rounds) :
    Ends (readAvroBlocks bytes expectedCount rounds cursor tags) := by
  induction rounds generalizing cursor tags with
  | zero => omega
  | succ rounds induction =>
      rw [readAvroBlocks]
      split
      · exact .pure _
      · refine .bind (readAvroLong_ends bytes cursor) fun ⟨blockCount, behind⟩ read => ?_
        obtain ⟨part, long, first⟩ := readAvroLong_eq_ok.mp read
        dsimp only
        split
        · exact .pure _
        · refine .bind (.ensure (by decide)) fun _ _ => .bind (.ensure (by decide)) fun _ _ =>
            .bind (readBlockEnd_ends bytes blockCount behind) fun ⟨blockEnd, start⟩ ending =>
            .bind (readAvroTags_ends _ _ _) fun ⟨block, last⟩ records =>
            .bind (.ensure (by decide)) fun _ _ => ?_
          obtain ⟨later, within, addressable⟩ :=
            readBlockEnd_le first.inside first.addressable ending
          obtain ⟨_, _, _, segment⟩ := (readAvroTags_eq_ok within addressable).mp records
          have positive := long.length_pos
          have moved := first.length
          have further := segment.length
          have finish := segment.inside
          exact induction finish (by omega)

theorem avroArray_of_parseAvroTags {bytes : Bytes} {expectedCount : Nat}
    {tags : List (Bytes × Bytes)} (parsed : parseAvroTags bytes expectedCount = .ok tags) :
    tags.length = expectedCount ∧ (AvroArray tags bytes ∨ bytes = [0, 0] ∧ tags = []) := by
  rw [parseAvroTags] at parsed
  split at parsed
  · rename_i special
    obtain ⟨rfl, short⟩ := special
    obtain rfl := Checked.pure_eq_ok.mp parsed
    rcases short with rfl | rfl
    · exact ⟨rfl, .inl .finish⟩
    · exact ⟨rfl, .inr ⟨rfl, rfl⟩⟩
  · simp only [Checked.bind_eq_ok, Checked.ensure_eq_ok, Checked.pure_eq_ok, Prod.exists] at parsed
    obtain ⟨_, _, read, _, rfl, _, total, rfl⟩ := parsed
    obtain ⟨more, array, rfl⟩ := avroArray_of_readAvroBlocks (Nat.zero_le _) read
    exact ⟨total, .inl array⟩

theorem parseAvroTags_of_avroArray {bytes : Bytes} {tags : List (Bytes × Bytes)}
    (memory : bytes.length < 2 ^ 64) (array : AvroArray tags bytes) :
    parseAvroTags bytes tags.length = .ok tags := by
  rw [parseAvroTags]
  split
  · rename_i special
    rw [List.length_eq_zero_iff.mp special.1]
    rfl
  · have read : readAvroBlocks bytes tags.length (bytes.length + 1) 0 [] = .ok (tags, bytes.length) :=
      readAvroBlocks_of_avroArray (Nat.zero_le _) memory array (by simp) (Nat.lt_succ_self _)
    simp only [read, Checked.ok_bind, Checked.ensure_of]
    rfl

theorem parseAvroTags_ends (bytes : Bytes) (expectedCount : Nat) :
    Ends (parseAvroTags bytes expectedCount) := by
  rw [parseAvroTags]
  split
  · exact .pure _
  · exact .bind (readAvroBlocks_ends (Nat.zero_le _) (Nat.lt_succ_self _)) fun _ _ =>
      .bind (.ensure (by decide)) fun _ _ => .bind (.ensure (by decide)) fun _ _ => .pure _

/-- `parse_avro_tags` accepts the strings of the grammar, and two zero bytes for no tags; it always
ends, and all encodings of the same tags are read as these. -/
theorem avro_tag_grammar (bytes : Bytes) (expectedCount : Nat) (memory : bytes.length < 2 ^ 64) :
    (∀ tags, parseAvroTags bytes expectedCount = .ok tags ↔
      tags.length = expectedCount ∧
        ((∃ (blocks : List (List (Bytes × Bytes) × Bytes)) (ending : Bytes),
          (∀ block ∈ blocks, AvroBlock block.1 block.2) ∧ (ending = [] ∨ AvroLong 0 ending) ∧
            tags = blocks.flatMap Prod.fst ∧ bytes = blocks.flatMap Prod.snd ++ ending) ∨
          bytes = [0, 0] ∧ tags = [])) ∧
    parseAvroTags bytes expectedCount ≠ .error "Avro blocks do not end" ∧
    ∀ tags other, AvroArray tags bytes → AvroArray tags other → other.length < 2 ^ 64 →
      parseAvroTags bytes tags.length = .ok tags ∧ parseAvroTags other tags.length = .ok tags := by
  refine ⟨fun tags => ?_, parseAvroTags_ends bytes expectedCount, fun tags other first second long =>
    ⟨parseAvroTags_of_avroArray memory first, parseAvroTags_of_avroArray long second⟩⟩
  rw [← avroArray_iff]
  constructor
  · exact avroArray_of_parseAvroTags
  · rintro ⟨rfl, array | ⟨rfl, rfl⟩⟩
    · exact parseAvroTags_of_avroArray memory array
    · rfl

/-- Two tags in a block with its size and a block of one, with padded numbers. -/
theorem avro_tag_grammar_padded :
    parseAvroTags [0x03, 0x8c, 0x00, 2, 97, 0x80, 0, 0, 0, 0x82, 0x80, 0, 0, 2, 98] 3 =
      .ok [([97], []), ([], []), ([], [98])] := by
  refine ((avro_tag_grammar _ 3 (by decide)).1 _).mpr ⟨rfl, .inl
    ⟨[([([97], []), ([], [])], [0x03, 0x8c, 0x00, 2, 97, 0x80, 0, 0, 0]),
      ([([], [98])], [0x82, 0x80, 0, 0, 2, 98])], [], ?_, .inl rfl, rfl, rfl⟩⟩
  intro block member
  rcases List.mem_cons.mp member with rfl | member
  · refine @AvroBlock.sized _ [3] [0x8c, 0] ([2, 97, 0x80, 0] ++ ([0, 0] ++ [])) (by decide)
      ⟨1, by decide⟩ ⟨2, by decide⟩ (.cons ⟨by decide, by decide, [2], [0x80, 0], ?_⟩
        (.cons ⟨by decide, by decide, [0], [0], ?_⟩ .nil))
    · exact ⟨⟨1, by decide⟩, ⟨2, by decide⟩, rfl⟩
    · exact ⟨⟨1, by decide⟩, ⟨1, by decide⟩, rfl⟩
  · obtain rfl := List.mem_singleton.mp member
    refine @AvroBlock.plain _ [0x82, 0x80, 0] ([0, 2, 98] ++ []) (by decide) ⟨3, by decide⟩
      (.cons ⟨by decide, by decide, [0], [2], ?_⟩ .nil)
    exact ⟨⟨1, by decide⟩, ⟨1, by decide⟩, rfl⟩

end ArIoGateway
