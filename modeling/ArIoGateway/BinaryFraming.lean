import ArIoGateway.BundleFraming

/-!
# The framing of binary bundles

A binary bundle is a number of items, a table with the size and the identifier of each of them, and
the items themselves.  The table is read in pages; the entries do not depend on the pages.
-/

namespace ArIoGateway

open Octets

/-- The number in little-endian bytes. -/
def ofLittleEndian (bytes : Bytes) : Nat := ofBigEndian bytes.reverse

theorem ofLittleEndian_cons (byte : UInt8) (bytes : Bytes) :
    ofLittleEndian (byte :: bytes) = ofLittleEndian bytes * 256 + byte.toNat := by
  simp [ofLittleEndian]

theorem ofLittleEndian_lt (bytes : Bytes) : ofLittleEndian bytes < 256 ^ bytes.length := by
  simpa [ofLittleEndian] using ofBigEndian_lt bytes.reverse

theorem ofLittleEndian_append (low high : Bytes) :
    ofLittleEndian (low ++ high) = ofLittleEndian high * 256 ^ low.length + ofLittleEndian low := by
  induction low with
  | nil => simp [ofLittleEndian]
  | cons byte low induction =>
      rw [List.cons_append, ofLittleEndian_cons, ofLittleEndian_cons, induction, List.length_cons,
        Nat.pow_succ]
      ring

theorem ofLittleEndian_eq_zero {bytes : Bytes} :
    ofLittleEndian bytes = 0 ↔ bytes.all (· = 0) = true := by
  induction bytes with
  | nil => simp [ofLittleEndian]
  | cons byte bytes induction =>
      rw [ofLittleEndian_cons, List.all_cons, Bool.and_eq_true, ← induction, decide_eq_true_eq,
        ← UInt8.toNat_inj, UInt8.toNat_zero]
      omega

/-- A field of 32 bytes is read exactly when its number fits 64 bits. -/
theorem readU256Usize_eq_ok {bytes : Bytes} {label : String} {value : Nat}
    (width : bytes.length = 32) :
    readU256Usize bytes label = .ok value ↔
      ofLittleEndian bytes = value ∧ ofLittleEndian bytes < 2 ^ 64 := by
  have split := ofLittleEndian_append (bytes.take 8) (bytes.drop 8)
  rw [List.take_append_drop, List.length_take_of_le (by omega)] at split
  have low := ofLittleEndian_lt (bytes.take 8)
  rw [List.length_take_of_le (by omega)] at low
  simp only [readU256Usize, Checked.bind_eq_ok, Checked.ensure_eq_ok, Checked.pure_eq_ok,
    ← ofLittleEndian_eq_zero, width, exists_const, true_and]
  rw [show ofBigEndian (bytes.take 8).reverse = ofLittleEndian (bytes.take 8) from rfl]
  constructor
  · rintro ⟨high, rfl⟩
    rw [high] at split
    omega
  · rintro ⟨rfl, small⟩
    have high : ofLittleEndian (bytes.drop 8) = 0 := by omega
    rw [high] at split
    omega

/-- The size that a row of a table gives, a number of 256 bits. -/
def rowSize (row : Bytes) : Nat := ofLittleEndian (row.take 32)

/-- The number of items that a bundle announces, a number of 256 bits. -/
def bundleCount (bundle : Bytes) : Nat := ofLittleEndian (bundle.take 32)

/-- The rows of a table that starts at a cursor. -/
def tableRows (bundle : Bytes) (count cursor : Nat) : List Bytes :=
  (List.range count).map fun row =>
    (bundle.drop (cursor + row * bundleEntrySize)).take bundleEntrySize

/-- The rows of the table of a bundle. -/
def bundleRows (bundle : Bytes) : List Bytes := tableRows bundle (bundleCount bundle) 32

/-- Where the items of a bundle start. -/
def itemArea (bundle : Bytes) : Nat := 32 + bundleCount bundle * bundleEntrySize

/-- The count, the table and the items, none of them empty, fill a bundle exactly. -/
structure WellFramed (bundle : Bytes) : Prop where
  header : 32 ≤ bundle.length
  table : itemArea bundle ≤ bundle.length
  positive : ∀ row ∈ bundleRows bundle, 0 < rowSize row
  whole : itemArea bundle + ((bundleRows bundle).map rowSize).sum = bundle.length

/-- The entry of a row whose item starts at an offset. -/
def Lists (bundle row : Bytes) (offset : Nat) (entry : BundleEntry) : Prop :=
  ∃ id : FixedBytes 32, row.drop 32 = id.val ∧
    entry = .binary id ((bundle.drop offset).take (rowSize row)) offset

/-- The entries of rows whose items lie one behind the other from an offset on. -/
inductive Listing (bundle : Bytes) : List Bytes → Nat → List BundleEntry → Prop
  | nil {start} : Listing bundle [] start []
  | cons {row rows start entry entries} : Lists bundle row start entry →
      Listing bundle rows (start + rowSize row) entries →
      Listing bundle (row :: rows) start (entry :: entries)

@[simp] theorem length_tableRows (bundle : Bytes) (count cursor : Nat) :
    (tableRows bundle count cursor).length = count := by
  simp [tableRows]

@[simp] theorem tableRows_zero (bundle : Bytes) (cursor : Nat) : tableRows bundle 0 cursor = [] :=
  rfl

theorem tableRows_succ (bundle : Bytes) (count cursor : Nat) :
    tableRows bundle (count + 1) cursor = (bundle.drop cursor).take bundleEntrySize ::
      tableRows bundle count (cursor + bundleEntrySize) := by
  have behind : ∀ row, cursor + (row + 1) * bundleEntrySize =
      cursor + bundleEntrySize + row * bundleEntrySize := fun row => by
    rw [Nat.succ_mul]
    omega
  simp [tableRows, List.range_succ_eq_map, Function.comp_def, behind]

theorem length_of_mem_tableRows {bundle row : Bytes} {count cursor : Nat}
    (fits : cursor + count * bundleEntrySize ≤ bundle.length)
    (member : row ∈ tableRows bundle count cursor) : row.length = bundleEntrySize := by
  obtain ⟨index, inside, rfl⟩ := List.mem_map.mp member
  have inside := Nat.mul_le_mul_right bundleEntrySize (List.mem_range.mp inside)
  rw [Nat.succ_mul] at inside
  rw [List.length_take_of_le]
  rw [List.length_drop]
  omega

/-- The rows of a table do not change when the table is cut out. -/
theorem tableRows_slice {bundle : Bytes} {start length count cursor : Nat}
    (fits : cursor + count * bundleEntrySize ≤ length) :
    tableRows ((bundle.drop start).take length) count cursor =
      tableRows bundle count (start + cursor) := by
  refine List.map_congr_left fun index inside => ?_
  have inside := Nat.mul_le_mul_right bundleEntrySize (List.mem_range.mp inside)
  rw [Nat.succ_mul] at inside
  rw [List.drop_take, List.take_take, List.drop_drop, Nat.min_eq_left (by omega), Nat.add_assoc]

namespace BinaryBundleItems

/-- Check one row of the table, with the number of rows behind it, and cut its item out. -/
def readRow (bundle : Bytes) (remaining : Nat) (row : Bytes) (itemStart : Nat) :
    Checked (BundleEntry × Nat) := do
  let size ← readU256Usize (row.take 32) "bundle item size"
  Checked.ensure (0 < size) "bundle contains an empty item"
  let id ← (toFixed 32 (row.drop 32)).mapError fun _ => "invalid bundle item ID length"
  let finish := itemStart + size
  Checked.ensure (finish < 2 ^ 64) "bundle item offset overflow"
  Checked.ensure (finish ≤ bundle.length) "bundle item exceeds parent bounds"
  Checked.ensure (remaining = 0 → finish = bundle.length)
    "bundle item sizes do not consume the parent"
  let bytes ← sliceContent bundle itemStart finish
  pure (.binary id bytes itemStart, finish)

/-- The rows of the table that are read ahead, in pages of a number of rows. -/
def readTableBy (page : Nat) (items : BinaryBundleItems) : Checked Bytes :=
  if items.table = [] then
    readAt items.bundle items.cursor (min items.remaining page * bundleEntrySize)
  else pure items.table

/-- The next entry, when the table is read in pages of a number of rows. -/
def nextBy (page : Nat) (items : BinaryBundleItems) :
    Checked (Option (BundleEntry × BinaryBundleItems)) :=
  if items.remaining = 0 then pure none
  else do
    let table ← items.readTableBy page
    let (entry, finish) ← readRow items.bundle (items.remaining - 1) (table.take bundleEntrySize)
      items.itemStart
    pure (some (entry,
      { items with
        remaining := items.remaining - 1
        cursor := items.cursor + bundleEntrySize
        itemStart := finish
        table := table.drop bundleEntrySize }))

/-- The cursor reads pages of 256 rows. -/
theorem next_eq_nextBy (items : BinaryBundleItems) : items.next = items.nextBy 256 := by
  simp only [next, nextBy, readTable, readTableBy, readRow, bind_assoc, pure_bind]

/-- A complete iteration over a bundle whose table is read in pages of a number of rows. -/
def entriesBy (page : Nat) (bundle : Bytes) : Checked (List BundleEntry) := do
  let items ← new bundle
  Cursor.fold (nextBy page) (fun entries entry => pure (entries ++ [entry]))
    (items.remaining + 1) [] items

/-- A complete iteration over a bundle. -/
def entries (bundle : Bytes) : Checked (List BundleEntry) := do
  let items ← new bundle
  Cursor.fold next (fun entries entry => pure (entries ++ [entry])) (items.remaining + 1) [] items

/-- The entries of rows that are at hand. -/
def readRows (bundle : Bytes) : List Bytes → Nat → Checked (List BundleEntry)
  | [], _ => pure []
  | row :: rows, itemStart => do
      let (entry, finish) ← readRow bundle rows.length row itemStart
      (entry :: ·) <$> readRows bundle rows finish

/-- The entries of a bundle whose whole table is read at once. -/
def entriesAtOnce (bundle : Bytes) : Checked (List BundleEntry) := do
  let items ← new bundle
  let table ← readAt bundle items.cursor (items.remaining * bundleEntrySize)
  readRows bundle (tableRows table items.remaining 0) items.itemStart

theorem readRow_eq_ok {bundle row : Bytes} {remaining itemStart finish : Nat}
    {entry : BundleEntry} (addressable : bundle.length < 2 ^ 64)
    (width : row.length = bundleEntrySize) :
    readRow bundle remaining row itemStart = .ok (entry, finish) ↔
      (0 < rowSize row ∧ finish = itemStart + rowSize row ∧ finish ≤ bundle.length ∧
        (remaining = 0 → finish = bundle.length)) ∧ Lists bundle row itemStart entry := by
  have half : (row.take 32).length = 32 := by
    rw [List.length_take_of_le]
    rw [width]
    decide
  simp only [readRow, Checked.bind_eq_ok, Checked.ensure_eq_ok, Checked.pure_eq_ok,
    Checked.mapError_eq_ok, toFixed_eq_ok, sliceContent, readU256Usize_eq_ok half, Prod.mk.injEq]
  rw [show ofLittleEndian (row.take 32) = rowSize row from rfl]
  have cut : ∀ size, (bundle.take (itemStart + size)).drop itemStart =
      (bundle.drop itemStart).take size := fun size => by
    rw [List.drop_take]
    congr 1
    omega
  constructor
  · rintro ⟨_, ⟨rfl, _⟩, _, positive, id, named, _, _, _, inside, _, last, _, ⟨_, _, rfl⟩, rfl, rfl⟩
    exact ⟨⟨positive, rfl, inside, last⟩, id, named, by rw [cut]⟩
  · rintro ⟨⟨positive, rfl, inside, last⟩, id, named, rfl⟩
    refine ⟨rowSize row, ⟨rfl, by omega⟩, (), positive, id, named, (), by omega, (), inside, (), last,
      (bundle.drop itemStart).take (rowSize row), ⟨(), ⟨by omega, inside⟩, cut _⟩, rfl, rfl⟩

/-- Rows that are at hand are read exactly when their items fill the content. -/
theorem readRows_eq_ok {bundle : Bytes} {rows : List Bytes} {itemStart : Nat}
    {entries : List BundleEntry} (addressable : bundle.length < 2 ^ 64)
    (widths : ∀ row ∈ rows, row.length = bundleEntrySize) :
    readRows bundle rows itemStart = .ok entries ↔
      ((∀ row ∈ rows, 0 < rowSize row) ∧
        (rows ≠ [] → itemStart + (rows.map rowSize).sum = bundle.length)) ∧
      Listing bundle rows itemStart entries := by
  induction rows generalizing itemStart entries with
  | nil =>
      simp only [readRows, Checked.pure_eq_ok]
      constructor
      · rintro rfl
        exact ⟨⟨by simp, by simp⟩, .nil⟩
      · rintro ⟨_, ⟨⟩⟩
        rfl
  | cons row rows induction =>
      obtain ⟨width, widths⟩ := List.forall_mem_cons.mp widths
      simp only [readRows, Checked.bind_eq_ok, Checked.map_eq_ok, Prod.exists,
        readRow_eq_ok addressable width, induction widths]
      constructor
      · rintro ⟨entry, _, ⟨⟨positive, rfl, _, last⟩, listed⟩, others, ⟨⟨rest, total⟩, listing⟩, rfl⟩
        refine ⟨⟨List.forall_mem_cons.mpr ⟨positive, rest⟩, fun _ => ?_⟩, .cons listed listing⟩
        rw [List.map_cons, List.sum_cons, ← Nat.add_assoc]
        cases rows with
        | nil => exact last rfl
        | cons _ _ => exact total (by simp)
      · rintro ⟨⟨positive, total⟩, listed⟩
        cases listed with
        | @cons _ _ _ entry others listed listing =>
            obtain ⟨here, rest⟩ := List.forall_mem_cons.mp positive
            have total := total (by simp)
            rw [List.map_cons, List.sum_cons, ← Nat.add_assoc] at total
            refine ⟨entry, _, ⟨⟨here, rfl, by omega, fun last => ?_⟩, listed⟩, others,
              ⟨⟨rest, fun _ => total⟩, listing⟩, rfl⟩
            obtain rfl := List.length_eq_zero_iff.mp last
            simpa using total

/-- The table behind the cursor fits the content, and the rows read ahead are its first ones. -/
structure Aligned (items : BinaryBundleItems) : Prop where
  fits : items.cursor + items.remaining * bundleEntrySize ≤ items.bundle.length
  ahead : ∃ rows ≤ items.remaining,
    items.table = (items.bundle.drop items.cursor).take (rows * bundleEntrySize)

theorem readTableBy_of_aligned {page : Nat} {items : BinaryBundleItems} (positive : 0 < page)
    (addressable : items.bundle.length < 2 ^ 64) (aligned : Aligned items)
    (left : items.remaining ≠ 0) :
    ∃ rows, 1 ≤ rows ∧ rows ≤ items.remaining ∧ items.readTableBy page =
      .ok ((items.bundle.drop items.cursor).take (rows * bundleEntrySize)) := by
  obtain ⟨fits, ahead, within, table⟩ := aligned
  by_cases empty : items.table = []
  · refine ⟨min items.remaining page, by omega, by omega, ?_⟩
    have inside : min items.remaining page * bundleEntrySize ≤
        items.remaining * bundleEntrySize := Nat.mul_le_mul_right _ (by omega)
    have cut : items.cursor + min items.remaining page * bundleEntrySize - items.cursor =
        min items.remaining page * bundleEntrySize := by omega
    rw [readTableBy, if_pos empty, readAt, Checked.ensure_of (by omega), Checked.ok_bind,
      sliceContent, Checked.ensure_of ⟨by omega, by omega⟩, Checked.ok_bind, List.drop_take, cut]
    rfl
  · refine ⟨ahead, ?_, within, ?_⟩
    · rcases Nat.eq_zero_or_pos ahead with rfl | some
      · simp [table] at empty
      · exact some
    · rw [readTableBy, if_neg empty, table]
      rfl

/-- With a row left, a page of any size gives it. -/
theorem nextBy_of_aligned {page count : Nat} {items : BinaryBundleItems} (positive : 0 < page)
    (addressable : items.bundle.length < 2 ^ 64) (aligned : Aligned items)
    (left : items.remaining = count + 1) :
    ∃ table, (∀ finish, Aligned
        ⟨items.bundle, count, items.cursor + bundleEntrySize, finish, table⟩) ∧
      nextBy page items = (fun result : BundleEntry × Nat => some (result.1,
        ⟨items.bundle, count, items.cursor + bundleEntrySize, result.2, table⟩)) <$>
        readRow items.bundle count ((items.bundle.drop items.cursor).take bundleEntrySize)
          items.itemStart := by
  have filled : items.remaining ≠ 0 := by omega
  obtain ⟨rows, some, within, read⟩ := readTableBy_of_aligned positive addressable aligned filled
  have fits := aligned.fits
  have wide : bundleEntrySize ≤ rows * bundleEntrySize := Nat.le_mul_of_pos_left _ some
  have first : ((items.bundle.drop items.cursor).take (rows * bundleEntrySize)).take
      bundleEntrySize = (items.bundle.drop items.cursor).take bundleEntrySize := by
    rw [List.take_take, Nat.min_eq_left wide]
  refine ⟨((items.bundle.drop items.cursor).take (rows * bundleEntrySize)).drop bundleEntrySize,
    fun finish => ⟨?_, rows - 1, by simp only; omega, ?_⟩, ?_⟩
  · rw [left, Nat.succ_mul] at fits
    simp only
    omega
  · rw [List.drop_take, List.drop_drop, Nat.sub_mul, Nat.one_mul]
  · rw [nextBy, if_neg filled, read, Checked.ok_bind, first, left, Nat.add_sub_cancel]
    cases readRow items.bundle count ((items.bundle.drop items.cursor).take bundleEntrySize)
        items.itemStart with
    | error message => rfl
    | ok result => rfl

/-- Pages of any size give the rows of the table. -/
theorem fold_nextBy {page : Nat} {items : BinaryBundleItems} (positive : 0 < page)
    (addressable : items.bundle.length < 2 ^ 64) (aligned : Aligned items)
    (before : List BundleEntry) :
    Cursor.fold (nextBy page) (fun entries entry => pure (entries ++ [entry]))
        (items.remaining + 1) before items =
      (before ++ ·) <$> readRows items.bundle
        (tableRows items.bundle items.remaining items.cursor) items.itemStart := by
  obtain ⟨count, same⟩ : ∃ count, items.remaining = count := ⟨_, rfl⟩
  rw [same]
  induction count generalizing items before with
  | zero =>
      have ended : nextBy page items = .ok none := by rw [nextBy, if_pos same]; rfl
      simp [Cursor.fold, ended, tableRows, readRows]
  | succ count induction =>
      obtain ⟨table, rest, next⟩ := nextBy_of_aligned positive addressable aligned same
      rw [tableRows_succ, readRows, length_tableRows, Cursor.fold, next]
      cases readRow items.bundle count ((items.bundle.drop items.cursor).take bundleEntrySize)
          items.itemStart with
      | error message => rfl
      | ok result =>
          obtain ⟨entry, finish⟩ := result
          have behind := induction (by exact addressable) (rest finish) (before ++ [entry]) rfl
          simp only [Functor.map, Except.map, Checked.ok_bind, pure_bind, behind]
          cases readRows items.bundle (tableRows items.bundle count (items.cursor + bundleEntrySize))
              finish with
          | error message => rfl
          | ok others => simp

/-- The first entries are those of the first rows, when these fit the content. -/
theorem takeUpTo_next {count : Nat} {items : BinaryBundleItems}
    (addressable : items.bundle.length < 2 ^ 64) (aligned : Aligned items)
    (within : count ≤ items.remaining) {entries : List BundleEntry} :
    (∃ complete rest, Cursor.takeUpTo next count items = .ok (entries, complete, rest)) ↔
      (∀ row ∈ tableRows items.bundle count items.cursor, 0 < rowSize row) ∧
      (count ≠ 0 → items.itemStart + ((tableRows items.bundle count items.cursor).map rowSize).sum ≤
        items.bundle.length) ∧
      (count ≠ 0 → count = items.remaining → items.itemStart +
        ((tableRows items.bundle count items.cursor).map rowSize).sum = items.bundle.length) ∧
      Listing items.bundle (tableRows items.bundle count items.cursor) items.itemStart entries := by
  induction count generalizing items entries with
  | zero =>
      simp only [Cursor.takeUpTo, tableRows_zero]
      constructor
      · rintro ⟨_, _, read⟩
        obtain ⟨rfl, _⟩ := Prod.mk.inj (Checked.pure_eq_ok.mp read)
        exact ⟨by simp, fun more => absurd rfl more, fun more => absurd rfl more, .nil⟩
      · rintro ⟨_, _, _, ⟨⟩⟩
        exact ⟨false, items, rfl⟩
  | succ count induction =>
      obtain ⟨left, same⟩ : ∃ left, items.remaining = left + 1 := ⟨items.remaining - 1, by omega⟩
      obtain ⟨table, rest, found⟩ := @nextBy_of_aligned 256 _ _ (by decide) addressable aligned same
      have fits := aligned.fits
      have width : ((items.bundle.drop items.cursor).take bundleEntrySize).length =
          bundleEntrySize := by
        rw [same, Nat.succ_mul] at fits
        rw [List.length_take_of_le]
        rw [List.length_drop]
        omega
      rw [Cursor.takeUpTo, next_eq_nextBy, found, tableRows_succ]
      simp only [List.forall_mem_cons, List.map_cons, List.sum_cons, ← Nat.add_assoc]
      constructor
      · rintro ⟨complete, last, read⟩
        obtain ⟨_, begun, read⟩ := Checked.bind_eq_ok.mp read
        obtain ⟨⟨entry, finish⟩, row, rfl⟩ := Checked.map_eq_ok.mp begun
        obtain ⟨⟨positive, rfl, inside, whole⟩, listed⟩ :=
          (readRow_eq_ok addressable width).mp row
        obtain ⟨⟨others, _, _⟩, taken, read⟩ := Checked.bind_eq_ok.mp read
        obtain ⟨rfl, _⟩ := Prod.mk.inj (Checked.pure_eq_ok.mp read)
        obtain ⟨more, bound, exact, listing⟩ :=
          (induction (by exact addressable) (rest _) (by simp only; omega)).mp ⟨_, _, taken⟩
        refine ⟨⟨positive, more⟩, fun _ => ?_, fun _ ends => ?_, .cons listed listing⟩
        · by_cases none : count = 0
          · simpa [none] using inside
          · exact bound none
        · by_cases none : count = 0
          · simpa [none] using whole (by omega)
          · exact exact none (by simp only; omega)
      · rintro ⟨⟨positive, more⟩, bound, exact, listing⟩
        cases listing with
        | @cons _ _ _ entry others listed listing =>
            have inside := bound (by omega)
            obtain ⟨complete, last, taken⟩ : ∃ complete last, Cursor.takeUpTo next count _ =
                .ok (others, complete, last) :=
              (induction (by exact addressable) (rest _) (by simp only; omega)).mpr
                ⟨more, fun _ => inside,
                  fun _ ends => exact (by omega) (by simp only at ends; omega), listing⟩
            have whole : left = 0 → items.itemStart +
                rowSize ((items.bundle.drop items.cursor).take bundleEntrySize) =
                  items.bundle.length := fun none => by
              have ends := exact (by omega) (by omega)
              obtain rfl : count = 0 := by omega
              simpa using ends
            have row := (@readRow_eq_ok _ _ left _ _ _ addressable width).mpr
              ⟨⟨positive, rfl, by omega, whole⟩, listed⟩
            exact ⟨complete, last, by rw [row]; simp [taken]⟩

theorem new_eq_ok {bundle : Bytes} {items : BinaryBundleItems}
    (addressable : bundle.length < 2 ^ 64) :
    new bundle = .ok items ↔
      (32 ≤ bundle.length ∧ itemArea bundle ≤ bundle.length ∧
        (bundleCount bundle = 0 → bundle.length = 32)) ∧
      items = ⟨bundle, bundleCount bundle, 32, itemArea bundle, []⟩ := by
  simp only [new, readAt, sliceContent, Checked.bind_eq_ok, Checked.ensure_eq_ok,
    Checked.pure_eq_ok, Checked.mapError_eq_ok, exists_const]
  have table : ∀ count, 32 ≤ bundle.length →
      (count ≤ (bundle.length - 32) / bundleEntrySize ↔
        32 + count * bundleEntrySize ≤ bundle.length) := fun count header => by
    rw [Nat.le_div_iff_mul_le (by decide)]
    omega
  have small : bundleCount bundle ≤ bundleCount bundle * bundleEntrySize :=
    Nat.le_mul_of_pos_right _ (by decide)
  constructor
  · rintro ⟨_, ⟨_, ⟨_, header⟩, rfl⟩, count, read, fits, full, rfl⟩
    have width : ((bundle.take (0 + 32)).drop 0).length = 32 := by
      rw [List.drop_zero, List.length_take_of_le (by omega)]
    obtain ⟨rfl, _⟩ := (readU256Usize_eq_ok width).mp read
    simp only [List.drop_zero, Nat.zero_add] at fits full ⊢
    refine ⟨⟨header, (table _ header).mp fits, fun none => ?_⟩, rfl⟩
    rcases full with some | full
    · exact absurd none some
    · have none : ofLittleEndian (bundle.take 32) = 0 := none
      rw [none] at full
      omega
  · rintro ⟨⟨header, fits, full⟩, rfl⟩
    have fits' := fits
    rw [itemArea] at fits'
    have width : ((bundle.take (0 + 32)).drop 0).length = 32 := by
      rw [List.drop_zero, List.length_take_of_le (by omega)]
    refine ⟨bundle.take 32, ⟨by omega, ⟨by omega, by omega⟩, rfl⟩, bundleCount bundle, ?_,
      (table _ header).mpr fits, ?_, rfl⟩
    · exact (readU256Usize_eq_ok width).mpr ⟨rfl, by
        have : ofLittleEndian ((bundle.take (0 + 32)).drop 0) = bundleCount bundle := rfl
        omega⟩
    · by_cases none : bundleCount bundle = 0
      · right
        rw [none, full none]
        rfl
      · exact .inl none

theorem aligned_of_new {bundle : Bytes} {items : BinaryBundleItems}
    (addressable : bundle.length < 2 ^ 64) (opened : new bundle = .ok items) : Aligned items := by
  obtain ⟨⟨_, fits, _⟩, rfl⟩ := (new_eq_ok addressable).mp opened
  exact ⟨fits, 0, Nat.zero_le _, by simp⟩

/-- The entries of a bundle do not depend on the pages of its table. -/
theorem entriesBy_eq {page : Nat} {bundle : Bytes} (positive : 0 < page)
    (addressable : bundle.length < 2 ^ 64) : entriesBy page bundle = (do
      let items ← new bundle
      readRows bundle (tableRows bundle items.remaining items.cursor) items.itemStart) := by
  cases opened : new bundle with
  | error message => simp [entriesBy, opened]
  | ok items =>
      have aligned := aligned_of_new addressable opened
      obtain ⟨_, rfl⟩ := (new_eq_ok addressable).mp opened
      simp only [entriesBy, opened, Checked.ok_bind]
      rw [fold_nextBy positive addressable aligned]
      simp

theorem entries_eq (bundle : Bytes) : entries bundle = entriesBy 256 bundle := by
  rw [entries, entriesBy, show (next : BinaryBundleItems → _) = nextBy 256 from
    funext next_eq_nextBy]

theorem entriesAtOnce_eq {bundle : Bytes} (addressable : bundle.length < 2 ^ 64) :
    entriesAtOnce bundle = entries bundle := by
  rw [entries_eq, entriesBy_eq (by decide) addressable, entriesAtOnce]
  cases opened : new bundle with
  | error message => rfl
  | ok items =>
      obtain ⟨⟨_, fits, _⟩, rfl⟩ := (new_eq_ok addressable).mp opened
      rw [itemArea] at fits
      simp only [Checked.ok_bind]
      rw [readAt, Checked.ensure_of (by omega), Checked.ok_bind, sliceContent,
        Checked.ensure_of ⟨by omega, fits⟩, Checked.ok_bind, List.drop_take, pure_bind,
        Nat.add_sub_cancel_left, tableRows_slice (by omega)]

theorem entries_eq_ok {bundle : Bytes} {listed : List BundleEntry}
    (addressable : bundle.length < 2 ^ 64) :
    entries bundle = .ok listed ↔
      WellFramed bundle ∧ Listing bundle (bundleRows bundle) (itemArea bundle) listed := by
  rw [entries_eq, entriesBy_eq (by decide) addressable, Checked.bind_eq_ok]
  simp only [new_eq_ok addressable]
  constructor
  · rintro ⟨_, ⟨⟨header, fits, full⟩, rfl⟩, read⟩
    obtain ⟨⟨positive, whole⟩, listing⟩ := (readRows_eq_ok addressable fun row member =>
      length_of_mem_tableRows fits member).mp read
    refine ⟨⟨header, fits, positive, ?_⟩, listing⟩
    by_cases none : bundleCount bundle = 0
    · simp [bundleRows, itemArea, none, tableRows, full none]
    · exact whole fun empty => none (by simpa using congrArg List.length empty)
  · rintro ⟨⟨header, fits, positive, whole⟩, listing⟩
    refine ⟨_, ⟨⟨header, fits, fun none => ?_⟩, rfl⟩, ?_⟩
    · simpa [bundleRows, itemArea, none, tableRows] using whole.symm
    · exact (readRows_eq_ok addressable fun row member =>
        length_of_mem_tableRows fits member).mpr ⟨⟨positive, fun _ => whole⟩, listing⟩

end BinaryBundleItems

/-- A row of the table of a bundle. -/
def bundleRow (bundle : Bytes) (index : Nat) : Bytes :=
  (bundle.drop (32 + index * bundleEntrySize)).take bundleEntrySize

/-- Where the item of a row starts: behind the table and the items before it. -/
def itemOffset (bundle : Bytes) (index : Nat) : Nat :=
  itemArea bundle + ((List.range index).map fun before => rowSize (bundleRow bundle before)).sum

/-- The bytes of an entry of a binary bundle. -/
def BundleEntry.bytes : BundleEntry → Bytes
  | .binary _ bytes _ => bytes
  | .json _ => []

/-- The entries are the rows of the table in order, their items lie one directly behind the other,
and together they make up what is behind the table. -/
structure Itemises (bundle : Bytes) (listed : List BundleEntry) : Prop where
  count : listed.length = bundleCount bundle
  rows : ∀ index < bundleCount bundle, ∃ entry, listed[index]? = some entry ∧
    Lists bundle (bundleRow bundle index) (itemOffset bundle index) entry ∧
      entry.size = rowSize (bundleRow bundle index)
  contiguous : ∀ left right before after, listed = before ++ left :: right :: after →
    right.offset = left.offset + left.size
  covers : listed.flatMap BundleEntry.bytes = bundle.drop (itemArea bundle)

theorem Listing.length {bundle : Bytes} {rows : List Bytes} {start : Nat}
    {listed : List BundleEntry} (listing : Listing bundle rows start listed) :
    listed.length = rows.length := by
  induction listing with
  | nil => rfl
  | cons _ _ induction => simp [induction]

theorem Listing.getElem {bundle : Bytes} {rows : List Bytes} {start : Nat}
    {listed : List BundleEntry} (listing : Listing bundle rows start listed) {index : Nat}
    {row : Bytes} (found : rows[index]? = some row) : ∃ entry, listed[index]? = some entry ∧
      Lists bundle row (start + ((rows.take index).map rowSize).sum) entry := by
  induction listing generalizing index with
  | nil => simp at found
  | cons listed _ induction =>
      cases index with
      | zero =>
          obtain rfl := Option.some.inj found
          exact ⟨_, rfl, by simpa using listed⟩
      | succ index =>
          obtain ⟨entry, there, lists⟩ := induction found
          exact ⟨entry, there, by simpa [Nat.add_assoc] using lists⟩

theorem Lists.offset_eq {bundle row : Bytes} {offset : Nat} {entry : BundleEntry}
    (lists : Lists bundle row offset entry) : entry.offset = offset := by
  obtain ⟨_, _, rfl⟩ := lists
  rfl

theorem Lists.size_eq {bundle row : Bytes} {offset : Nat} {entry : BundleEntry}
    (lists : Lists bundle row offset entry) (inside : offset + rowSize row ≤ bundle.length) :
    entry.size = rowSize row := by
  obtain ⟨_, _, rfl⟩ := lists
  rw [BundleEntry.size, List.length_take_of_le]
  rw [List.length_drop]
  omega

/-- Items that are listed up to the end of a bundle make up the rest of it. -/
theorem Listing.covers {bundle : Bytes} {rows : List Bytes} {start : Nat}
    {listed : List BundleEntry} (listing : Listing bundle rows start listed)
    (whole : start + (rows.map rowSize).sum = bundle.length) :
    listed.flatMap BundleEntry.bytes = bundle.drop start := by
  induction listing with
  | nil =>
      rw [List.map_nil, List.sum_nil, Nat.add_zero] at whole
      rw [whole, List.drop_length]
      rfl
  | cons lists _ induction =>
      obtain ⟨_, _, rfl⟩ := lists
      rw [List.map_cons, List.sum_cons, ← Nat.add_assoc] at whole
      rw [List.flatMap_cons, induction whole, BundleEntry.bytes, ← List.drop_drop,
        List.take_append_drop]

theorem Listing.contiguous {bundle : Bytes} {rows : List Bytes} {start : Nat}
    {listed : List BundleEntry} (listing : Listing bundle rows start listed)
    (whole : start + (rows.map rowSize).sum = bundle.length) {left right : BundleEntry}
    {before after : List BundleEntry} (split : listed = before ++ left :: right :: after) :
    right.offset = left.offset + left.size := by
  induction listing generalizing before with
  | nil => simp at split
  | cons lists rest induction =>
      rw [List.map_cons, List.sum_cons, ← Nat.add_assoc] at whole
      cases before with
      | nil =>
          obtain ⟨rfl, rfl⟩ := List.cons.inj split
          cases rest with
          | cons next _ =>
              rw [next.offset_eq, lists.offset_eq, lists.size_eq (by omega)]
      | cons _ before => exact induction whole (List.cons.inj split).2

theorem sum_rowSize_take {bundle : Bytes} {count index : Nat} (inside : index ≤ count) :
    itemArea bundle + (((tableRows bundle count 32).take index).map rowSize).sum =
      itemOffset bundle index := by
  rw [itemOffset, tableRows, ← List.map_take, List.take_range, Nat.min_eq_left inside,
    List.map_map]
  rfl

/-- The sizes of the rows before one of them, and its own, are part of the sum of all. -/
theorem sum_rowSize_le {rows : List Bytes} {index : Nat} {row : Bytes}
    (found : rows[index]? = some row) :
    ((rows.take index).map rowSize).sum + rowSize row ≤ (rows.map rowSize).sum := by
  have split := congrArg List.sum (congrArg (List.map rowSize) (List.take_append_drop index rows))
  obtain ⟨short, cut⟩ := List.getElem?_eq_some_iff.mp found
  rw [List.drop_eq_getElem_cons short, cut, List.map_append, List.map_cons, List.sum_append,
    List.sum_cons] at split
  omega

theorem itemises_of_listing {bundle : Bytes} {listed : List BundleEntry}
    (framed : WellFramed bundle)
    (listing : Listing bundle (bundleRows bundle) (itemArea bundle) listed) :
    Itemises bundle listed := by
  refine ⟨by simp [listing.length, bundleRows], fun index inside => ?_,
    fun _ _ _ _ split => listing.contiguous framed.whole split, listing.covers framed.whole⟩
  have found : (bundleRows bundle)[index]? = some (bundleRow bundle index) := by
    simp [bundleRows, tableRows, inside, bundleRow]
  obtain ⟨entry, there, lists⟩ := listing.getElem found
  have bound := sum_rowSize_le found
  have whole := framed.whole
  have size := lists.size_eq (by omega)
  rw [bundleRows, sum_rowSize_take inside.le] at lists
  exact ⟨entry, there, lists, size⟩

theorem exists_lists {bundle row : Bytes} (offset : Nat) (width : row.length = bundleEntrySize) :
    ∃ entry, Lists bundle row offset entry := by
  have half : (row.drop 32).length = 32 := by
    rw [List.length_drop, width]
    rfl
  exact ⟨_, ⟨row.drop 32, half⟩, rfl, rfl⟩

theorem exists_listing {bundle : Bytes} (rows : List Bytes) (start : Nat)
    (widths : ∀ row ∈ rows, row.length = bundleEntrySize) :
    ∃ listed, Listing bundle rows start listed := by
  induction rows generalizing start with
  | nil => exact ⟨[], .nil⟩
  | cons row rows induction =>
      obtain ⟨width, widths⟩ := List.forall_mem_cons.mp widths
      obtain ⟨listed, listing⟩ := induction (start + rowSize row) widths
      obtain ⟨entry, lists⟩ := @exists_lists bundle row start width
      exact ⟨_, .cons lists listing⟩

/-- A complete iteration over a binary bundle succeeds exactly on well-framed content, lists the
rows of its table in order with contiguous items that cover the item area, and does not depend on
how the table is cut into pages. -/
theorem binary_bundle_framing (bundle : Bytes) (addressable : bundle.length < 2 ^ 64) :
    ((∃ listed, BinaryBundleItems.entries bundle = .ok listed) ↔ WellFramed bundle) ∧
    (∀ listed, BinaryBundleItems.entries bundle = .ok listed → Itemises bundle listed) ∧
    (∀ page, 0 < page →
      BinaryBundleItems.entriesBy page bundle = BinaryBundleItems.entries bundle) ∧
    BinaryBundleItems.entriesAtOnce bundle = BinaryBundleItems.entries bundle := by
  refine ⟨⟨?_, fun framed => ?_⟩, fun listed read => ?_, fun page positive => ?_,
    BinaryBundleItems.entriesAtOnce_eq addressable⟩
  · rintro ⟨listed, read⟩
    exact ((BinaryBundleItems.entries_eq_ok addressable).mp read).1
  · obtain ⟨listed, listing⟩ := exists_listing (bundleRows bundle) (itemArea bundle) fun row member =>
      length_of_mem_tableRows framed.table member
    exact ⟨listed, (BinaryBundleItems.entries_eq_ok addressable).mpr ⟨framed, listing⟩⟩
  · obtain ⟨framed, listing⟩ := (BinaryBundleItems.entries_eq_ok addressable).mp read
    exact itemises_of_listing framed listing
  · rw [BinaryBundleItems.entriesBy_eq positive addressable, BinaryBundleItems.entries_eq,
      BinaryBundleItems.entriesBy_eq (by decide) addressable]

/-- Two items of three and of two bytes. -/
def twoItemBundle : Bytes :=
  let field (value : UInt8) : Bytes := value :: List.replicate 31 0
  field 2 ++ field 3 ++ List.replicate 32 7 ++ field 2 ++ List.replicate 32 9 ++ [1, 2, 3, 4, 5]

theorem binary_bundle_framing_sample : ∃ listed,
    BinaryBundleItems.entries twoItemBundle = .ok listed ∧ Itemises twoItemBundle listed :=
  have read : ∃ listed, BinaryBundleItems.entries twoItemBundle = .ok listed :=
    Checked.exists_of_isOk _ (by decide +kernel)
  ⟨read.choose, read.choose_spec,
    (binary_bundle_framing twoItemBundle (by decide +kernel)).2.1 _ read.choose_spec⟩

end ArIoGateway
