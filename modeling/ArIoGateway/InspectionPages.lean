import ArIoGateway.BundleInspection
import Mathlib.Data.List.Basic

/-!
# Pages of an inspection

An inspection lists the rows of the table up to the end of its page.  They are the entries that the
iterator gives first; the last page also checks what the iterator checks at its end.
-/

namespace ArIoGateway

open Octets Reads

theorem integer_eq_ok {bytes : Bytes} {value : Nat} (width : bytes.length = 32) :
    integer bytes = .ok value ↔ ofLittleEndian bytes = value ∧ value < 2 ^ 128 := by
  have split := ofLittleEndian_append (bytes.take 16) (bytes.drop 16)
  rw [List.take_append_drop, List.length_take_of_le (by omega)] at split
  have low := ofLittleEndian_lt (bytes.take 16)
  rw [List.length_take_of_le (by omega)] at low
  simp only [integer, Checked.bind_eq_ok, Checked.ensure_eq_ok, Checked.pure_eq_ok,
    ← ofLittleEndian_eq_zero, width, exists_const, true_and]
  constructor
  · rintro ⟨high, rfl⟩
    rw [high] at split
    omega
  · rintro ⟨rfl, small⟩
    have high : ofLittleEndian (bytes.drop 16) = 0 := by omega
    rw [high] at split
    omega

/-- An item of an inspection of an entry at an index. -/
def BundleEntry.inspected (index : Nat) (details : Option ItemDetails) :
    BundleEntry → Option InspectedItem
  | .binary id bytes offset =>
      some ⟨index, base64Text id.val, decimalString offset, decimalString bytes.length, details⟩
  | .json _ => none

/-- Whether a request shows the item at an index. -/
def InspectionRequest.shows (request : InspectionRequest) (index : Nat) : Bool :=
  match request.item with
  | none => decide (request.start ≤ index)
  | some wanted => decide (index = wanted)

/-- An item that is shown is that of the entry, with its header when one item is inspected. -/
def Shown (content : Bytes) (request : InspectionRequest) (place : BundleEntry × Nat)
    (item : InspectedItem) : Prop :=
  ∃ details, place.1.inspected place.2 details = some item ∧
    match request.item with
    | none => details = none
    | some _ => ∃ header, details = some header ∧
        eval content (readHeader place.1.offset place.1.size content.length) = .ok header

/-- The rows of a table fit the content in turn. -/
structure RowsFit (content : Bytes) (rows : List Bytes) (offset : Nat) : Prop where
  positive : ∀ row ∈ rows, 0 < rowSize row
  inside : rows ≠ [] → offset + (rows.map rowSize).sum ≤ content.length

section Rows

variable {content : Bytes} {request : InspectionRequest}

theorem eval_inspectRow_eq_ok {row : Bytes} {index offset : Nat} {entry : BundleEntry}
    {items : List InspectedItem} (listed : Lists content row offset entry)
    (size : entry.size = rowSize row) :
    eval content (inspectRow request content.length index offset (rowSize row) row) = .ok items ↔
      List.Forall₂ (Shown content request)
        (if request.shows index then [(entry, index)] else []) items := by
  obtain ⟨id, named, rfl⟩ := listed
  have width : ((content.drop offset).take (rowSize row)).length = rowSize row := size
  unfold inspectRow InspectionRequest.shows
  cases wanted : request.item with
  | none =>
      simp only [eval_pure, decide_eq_true_eq]
      split
      · simp only [List.forall₂_cons_left_iff, List.forall₂_nil_left_iff, Shown, wanted,
          BundleEntry.inspected, named, width, Except.ok.injEq]
        constructor
        · rintro rfl
          exact ⟨_, _, ⟨_, rfl, rfl⟩, rfl, rfl⟩
        · rintro ⟨_, _, ⟨_, same, rfl⟩, rfl, rfl⟩
          rw [Option.some.inj same]
      · simp [eq_comm]
  | some place =>
      simp only [decide_eq_true_eq]
      split
      · simp only [eval_bind, eval_pure, Checked.bind_eq_ok, List.forall₂_cons_left_iff,
          List.forall₂_nil_left_iff, Shown, wanted, BundleEntry.inspected, named, width,
          Except.ok.injEq, BundleEntry.offset, size]
        constructor
        · rintro ⟨details, read, rfl⟩
          exact ⟨_, _, ⟨_, rfl, _, rfl, read⟩, rfl, rfl⟩
        · rintro ⟨_, _, ⟨_, same, details, rfl, read⟩, rfl, rfl⟩
          exact ⟨details, read, by rw [Option.some.inj same]⟩
      · simp [eq_comm]

theorem filter_shows_cons (place : BundleEntry × Nat) (places : List (BundleEntry × Nat)) :
    (place :: places).filter (fun place => request.shows place.2) =
      (if request.shows place.2 then [place] else []) ++
        places.filter fun place => request.shows place.2 := by
  rw [List.filter_cons]
  split <;> rfl

theorem forall₂_append_left {α β : Type} {related : α → β → Prop} {front behind : List α}
    {values : List β} (all : List.Forall₂ related (front ++ behind) values) :
    ∃ first last, List.Forall₂ related front first ∧ List.Forall₂ related behind last ∧
      values = first ++ last := by
  induction front generalizing values with
  | nil => exact ⟨[], values, .nil, all, rfl⟩
  | cons element front induction =>
      cases all with
      | cons here rest =>
          obtain ⟨first, last, fronts, behinds, rfl⟩ := induction rest
          exact ⟨_ :: first, last, .cons here fronts, behinds, rfl⟩

/-- Rows are inspected exactly when they fit the content, and the items shown are those of their
entries. -/
theorem eval_inspectRows_eq_ok (addressable : content.length < 2 ^ 64) {rows : List Bytes}
    {index offset finish : Nat} {items : List InspectedItem}
    (widths : ∀ row ∈ rows, row.length = bundleEntrySize) :
    eval content (inspectRows request content.length rows index offset) = .ok (items, finish) ↔
      RowsFit content rows offset ∧ finish = offset + (rows.map rowSize).sum ∧
        ∃ entries, Listing content rows offset entries ∧
          List.Forall₂ (Shown content request)
            ((entries.zipIdx index).filter fun place => request.shows place.2) items := by
  induction rows generalizing index offset finish items with
  | nil =>
      simp only [inspectRows, eval_pure, Except.ok.injEq, Prod.mk.injEq]
      constructor
      · rintro ⟨rfl, rfl⟩
        exact ⟨⟨by simp, nofun⟩, rfl, [], .nil, .nil⟩
      · rintro ⟨_, rfl, _, ⟨⟩, shown⟩
        exact ⟨(List.forall₂_nil_left_iff.mp shown).symm, rfl⟩
  | cons row rows induction =>
      obtain ⟨width, widths⟩ := List.forall_mem_cons.mp widths
      have half : (row.take 32).length = 32 := by
        rw [List.length_take_of_le]
        rw [width]
        decide
      simp only [inspectRows, eval_bind, eval_lift, eval_pure, Checked.bind_eq_ok,
        Checked.ensure_eq_ok, integer_eq_ok half, exists_const, Prod.exists, Except.ok.injEq,
        Prod.mk.injEq]
      rw [show ofLittleEndian (row.take 32) = rowSize row from rfl]
      simp only [induction widths]
      constructor
      · rintro ⟨_, ⟨rfl, _⟩, _, ⟨positive, inside⟩, first, shown, others, _,
          ⟨fit, rfl, entries, listing, rest⟩, rfl, rfl⟩
        obtain ⟨entry, listed⟩ := @exists_lists content row offset width
        have size := listed.size_eq inside
        have front := (eval_inspectRow_eq_ok listed size).mp shown
        refine ⟨⟨List.forall_mem_cons.mpr ⟨positive, fit.positive⟩, fun _ => ?_⟩, ?_, entry :: entries,
          .cons listed listing, ?_⟩
        · rw [List.map_cons, List.sum_cons, ← Nat.add_assoc]
          rcases rows with _ | ⟨second, rows⟩
          · simpa using inside
          · exact fit.inside (List.cons_ne_nil _ _)
        · rw [List.map_cons, List.sum_cons, Nat.add_assoc]
        · rw [List.zipIdx_cons, filter_shows_cons]
          exact List.rel_append front rest
      · rintro ⟨fit, rfl, _, listing, rest⟩
        cases listing with
        | @cons _ _ _ entry others listed listing =>
            have inside := fit.inside (List.cons_ne_nil _ _)
            rw [List.map_cons, List.sum_cons, ← Nat.add_assoc] at inside
            obtain ⟨positive, rests⟩ := List.forall_mem_cons.mp fit.positive
            rw [List.zipIdx_cons, filter_shows_cons] at rest
            obtain ⟨first, last, front, behind, rfl⟩ := forall₂_append_left rest
            have size := listed.size_eq (by omega)
            refine ⟨rowSize row, ⟨rfl, by omega⟩, by omega, ⟨positive, by omega⟩, first,
              (eval_inspectRow_eq_ok listed size).mpr front, last, _,
              ⟨⟨rests, fun _ => inside⟩, rfl, others, listing, behind⟩, rfl, ?_⟩
            rw [List.map_cons, List.sum_cons, Nat.add_assoc]

end Rows

/-- The entries that the iterator over a bundle gives first. -/
def FirstEntries (content : Bytes) (count : Nat) (entries : List BundleEntry) : Prop :=
  ∃ opened complete rest, BinaryBundleItems.new content = .ok opened ∧
    Cursor.takeUpTo BinaryBundleItems.next count opened = .ok (entries, complete, rest)

/-- A position within a bundle of a number of items that the inspection takes. -/
structure InspectionRequest.Within (request : InspectionRequest) (count : Nat) : Prop where
  start : request.start < maxInspectionItems
  item : ∀ item ∈ request.item, item < maxInspectionItems
  few : count ≤ maxInspectionItems
  begins : request.start ≤ count
  ends : request.finish count ≤ count

theorem InspectionRequest.Within.count_of_finish {request : InspectionRequest} {count : Nat}
    (within : request.Within count) (none : request.finish count = 0) : count = 0 := by
  have start := within.start
  rw [InspectionRequest.finish] at none
  cases item : request.item with
  | none =>
      have word : maxInspectionItems < wordBound - 1 := by decide
      have page : 0 < inspectionPageSize := by decide
      simp only [item, saturatingLength] at none
      omega
  | some wanted => simp [item] at none

theorem firstEntries_iff {content : Bytes} {count : Nat} {entries : List BundleEntry}
    (addressable : content.length < 2 ^ 64) (within : count ≤ bundleCount content) :
    FirstEntries content count entries ↔
      (32 ≤ content.length ∧ itemArea content ≤ content.length ∧
        (bundleCount content = 0 → content.length = 32)) ∧
      RowsFit content (tableRows content count 32) (itemArea content) ∧
      (count ≠ 0 → count = bundleCount content →
        itemArea content + ((tableRows content count 32).map rowSize).sum = content.length) ∧
      Listing content (tableRows content count 32) (itemArea content) entries := by
  have filled : tableRows content count 32 ≠ [] ↔ count ≠ 0 := by
    rw [← List.length_pos_iff, length_tableRows, Nat.pos_iff_ne_zero]
  constructor
  · rintro ⟨opened, complete, rest, begun, taken⟩
    have aligned := BinaryBundleItems.aligned_of_new addressable begun
    obtain ⟨framed, rfl⟩ := (BinaryBundleItems.new_eq_ok addressable).mp begun
    obtain ⟨positive, inside, whole, listing⟩ :=
      (BinaryBundleItems.takeUpTo_next (by exact addressable) aligned within).mp ⟨_, _, taken⟩
    exact ⟨framed, ⟨positive, fun some => inside (filled.mp some)⟩, whole, listing⟩
  · rintro ⟨framed, ⟨positive, inside⟩, whole, listing⟩
    have begun := (BinaryBundleItems.new_eq_ok addressable).mpr ⟨framed, rfl⟩
    have aligned := BinaryBundleItems.aligned_of_new addressable begun
    obtain ⟨complete, rest, taken⟩ :=
      (BinaryBundleItems.takeUpTo_next (by exact addressable) aligned within).mpr
        ⟨positive, fun some => inside (filled.mpr some), whole, listing⟩
    exact ⟨_, complete, rest, begun, taken⟩

/-- The table that is read has the rows of the bundle. -/
theorem eval_readTable_eq_ok {content table : Bytes} {count : Nat}
    (fits : 32 + count * 64 ≤ content.length) :
    eval content (readTable count content.length) = .ok table ↔
      table = slice content 32 (count * 64) := by
  unfold readTable
  split
  · next none => simp [none, slice, eq_comm]
  · next some =>
      simp only [eval_map, Checked.map_eq_ok, Prod.exists, eval_read_eq_ok]
      constructor
      · rintro ⟨_, _, ⟨_, rfl, rfl⟩, rfl⟩
        rfl
      · rintro rfl
        exact ⟨_, _, ⟨⟨by omega, fits, by simp⟩, rfl, rfl⟩, rfl⟩

theorem tableRows_read {content : Bytes} {count : Nat} (fits : 32 + count * 64 ≤ content.length) :
    tableRows (slice content 32 (count * 64)) ((slice content 32 (count * 64)).length / 64) 0 =
      tableRows content count 32 := by
  rw [length_slice fits, Nat.mul_div_cancel _ (by decide), slice]
  exact tableRows_slice (by rw [bundleEntrySize, Nat.zero_add])

/-- An inspection lists the entries that the iterator gives first, up to the end of the page. -/
theorem eval_inspect_eq_ok {content : Bytes} {request : InspectionRequest} {page : InspectionPage}
    (addressable : content.length < 2 ^ 64) :
    eval content (inspect request) = .ok page ↔
      (∃ id, decodeFixed 32 request.id "bundle ID" = .ok id) ∧ request.Within (bundleCount content) ∧
      ∃ entries items, FirstEntries content (request.finish (bundleCount content)) entries ∧
        List.Forall₂ (Shown content request)
          (entries.zipIdx.filter fun place => request.shows place.2) items ∧
        page = ⟨request.id, bundleCount content, request.start,
          decide (request.finish (bundleCount content) < bundleCount content), items⟩ := by
  have small : 32 + bundleCount content * 64 ≤ content.length → bundleCount content < 2 ^ 128 := by
    omega
  simp only [inspect, eval_bind, eval_lift, eval_pure, Checked.bind_eq_ok, Checked.ensure_eq_ok,
    Prod.exists, eval_read_eq_ok, exists_const, Except.ok.injEq]
  constructor
  · rintro ⟨id, named, ⟨start, item⟩, _, _, ⟨⟨_, header, _⟩, rfl, rfl⟩, count, read, few,
      ⟨begins, ends⟩, fits, table, cut, items, _, rows, whole, rfl⟩
    obtain ⟨rfl, _⟩ := (integer_eq_ok (length_slice header)).mp read
    rw [show ofLittleEndian (slice content 0 32) = bundleCount content from rfl] at *
    have part : 32 + request.finish (bundleCount content) * 64 ≤ content.length := by omega
    obtain rfl := (eval_readTable_eq_ok part).mp cut
    rw [tableRows_read part] at rows
    obtain ⟨fit, rfl, entries, listing, shown⟩ := (eval_inspectRows_eq_ok addressable
      fun row member => length_of_mem_tableRows part member).mp rows
    have within : request.Within (bundleCount content) := ⟨start, item, few, begins, ends⟩
    refine ⟨⟨id, named⟩, within, entries, items, (firstEntries_iff addressable ends).mpr
      ⟨⟨by omega, fits, fun none => ?_⟩, fit, fun _ => whole, listing⟩, shown, rfl⟩
    have last := whole (by omega)
    rw [none] at last ends
    rw [Nat.le_zero.mp ends] at last
    simpa using last.symm
  · rintro ⟨⟨id, named⟩, ⟨start, item, few, begins, ends⟩, entries, items, first, shown, rfl⟩
    obtain ⟨⟨header, fits, full⟩, fit, whole, listing⟩ := (firstEntries_iff addressable ends).mp first
    rw [itemArea, bundleEntrySize] at fits
    have part : 32 + request.finish (bundleCount content) * 64 ≤ content.length := by omega
    have rows := (@eval_inspectRows_eq_ok _ _ addressable _ 0 _ _ _
      fun row member => length_of_mem_tableRows part member).mpr ⟨fit, rfl, entries, listing, shown⟩
    rw [← tableRows_read part] at rows
    refine ⟨id, named, ⟨start, item⟩, _, _, ⟨⟨by decide, by omega, by simp⟩, rfl, rfl⟩,
      bundleCount content, (integer_eq_ok (length_slice (by omega))).mpr ⟨rfl, by omega⟩, few,
      ⟨begins, ends⟩, fits, _, (eval_readTable_eq_ok part).mpr rfl, items, _, rows, fun last => ?_,
      rfl⟩
    rw [tableRows_read part]
    by_cases none : request.finish (bundleCount content) = 0
    · have empty := InspectionRequest.Within.count_of_finish ⟨start, item, few, begins, ends⟩ none
      rw [none, itemArea, full empty, empty]
      rfl
    · exact whole none last

theorem asked_inspectRow {content row : Bytes} {request : InspectionRequest}
    {index offset size : Nat} {range : Nat × Nat}
    (member : range ∈ asked content (inspectRow request content.length index offset size row)) :
    request.item = some index ∧ range ∈ asked content (readHeader offset size content.length) := by
  unfold inspectRow at member
  cases wanted : request.item with
  | none => simp [wanted] at member
  | some place =>
      simp only [wanted] at member
      split at member
      · next same =>
          rw [asked_bind] at member
          rcases List.mem_append.mp member with first | second
          · exact ⟨by rw [same], first⟩
          · split at second <;> simp at second
      · simp at member

/-- Behind the table nothing is asked for but the header of the item that is inspected. -/
theorem asked_inspectRows {content : Bytes} {request : InspectionRequest} {rows : List Bytes}
    {index offset : Nat} (widths : ∀ row ∈ rows, row.length = bundleEntrySize) :
    ∀ range ∈ asked content (inspectRows request content.length rows index offset),
    ∃ place row, request.item = some (index + place) ∧ rows[place]? = some row ∧
      offset + ((rows.take place).map rowSize).sum + rowSize row ≤ content.length ∧
      range ∈ asked content
        (readHeader (offset + ((rows.take place).map rowSize).sum) (rowSize row) content.length) := by
  induction rows generalizing index offset with
  | nil => simp [inspectRows]
  | cons row rows induction =>
      obtain ⟨width, widths⟩ := List.forall_mem_cons.mp widths
      have half : (row.take 32).length = 32 := by
        rw [List.length_take_of_le]
        rw [width]
        decide
      rw [inspectRows]
      refine forall_asked_bind content (by simp) fun size read => ?_
      obtain ⟨same, _⟩ := (integer_eq_ok half).mp ((eval_lift content _).symm.trans read)
      obtain rfl : rowSize row = size := same
      refine forall_asked_bind content (by simp) fun _ _ => ?_
      refine forall_asked_bind content (by simp) fun _ bounds => ?_
      obtain ⟨_, inside⟩ := Checked.ensure_eq_ok.mp ((eval_lift content _).symm.trans bounds)
      refine forall_asked_bind content (fun range member => ?_) fun listed _ =>
        forall_asked_bind content (fun range member => ?_) (by simp)
      · obtain ⟨wanted, there⟩ := asked_inspectRow member
        exact ⟨0, row, wanted, rfl, by simpa using inside, by simpa using there⟩
      · obtain ⟨place, other, wanted, found, fits, there⟩ := induction widths range member
        refine ⟨place + 1, other, ?_, found, ?_, ?_⟩
        · rw [wanted, Nat.add_right_comm, Nat.add_assoc]
        · rw [List.take_succ_cons, List.map_cons, List.sum_cons, ← Nat.add_assoc]
          exact fits
        · rw [List.take_succ_cons, List.map_cons, List.sum_cons, ← Nat.add_assoc]
          exact there

theorem bundleRow_of_getElem {content row : Bytes} {count place : Nat}
    (found : (tableRows content count 32)[place]? = some row) : row = bundleRow content place := by
  simp only [tableRows, List.getElem?_map, Option.map_eq_some_iff] at found
  obtain ⟨_, there, rfl⟩ := found
  obtain ⟨_, rfl⟩ := List.getElem?_eq_some_iff.mp there
  rw [List.getElem_range]
  rfl

/-- An inspection asks for bytes of the table, and for the header of the item that it is for. -/
theorem asked_inspect {content : Bytes} {request : InspectionRequest} :
    ∀ range ∈ asked content (inspect request), range.1 + range.2 ≤ itemArea content ∨
      ∃ wanted, request.item = some wanted ∧
        itemOffset content wanted + rowSize (bundleRow content wanted) ≤ content.length ∧
        range ∈ asked content (readHeader (itemOffset content wanted)
          (rowSize (bundleRow content wanted)) content.length) := by
  rw [inspect]
  refine forall_asked_bind content (by simp) fun _ _ => ?_
  refine forall_asked_bind content (by simp) fun _ _ => ?_
  refine forall_asked_bind content (fun range member => .inl ?_) fun ⟨header, total⟩ read => ?_
  · rw [asked_read] at member
    rw [List.mem_singleton.mp member, itemArea]
    simp only
    omega
  obtain ⟨⟨_, fits, _⟩, rfl, rfl⟩ := (eval_read_eq_ok content).mp read
  refine forall_asked_bind content (by simp) fun count counted => ?_
  obtain ⟨same, _⟩ :=
    (integer_eq_ok (length_slice fits)).mp ((eval_lift content _).symm.trans counted)
  obtain rfl : bundleCount content = count := same
  refine forall_asked_bind content (by simp) fun _ _ => ?_
  refine forall_asked_bind content (by simp) fun _ inside => ?_
  obtain ⟨_, ends⟩ := Checked.ensure_eq_ok.mp ((eval_lift content _).symm.trans inside)
  refine forall_asked_bind content (by simp) fun _ room => ?_
  have room := Checked.ensure_eq_ok.mp ((eval_lift content _).symm.trans room)
  have part : 32 + request.finish (bundleCount content) * 64 ≤ content.length := by omega
  refine forall_asked_bind content (fun range member => .inl ?_) fun table cut => ?_
  · have bound : range = (32, request.finish (bundleCount content) * 64) := by
      unfold readTable at member
      split at member
      · simp at member
      · simpa using member
    rw [bound, itemArea, bundleEntrySize]
    simp only
    omega
  obtain rfl := (eval_readTable_eq_ok part).mp cut
  refine forall_asked_bind content (fun range member => .inr ?_) fun _ _ =>
    forall_asked_bind content (by simp) (by simp)
  rw [tableRows_read part] at member
  obtain ⟨place, row, wanted, found, bound, there⟩ := asked_inspectRows
    (fun row member => length_of_mem_tableRows part member) range member
  obtain ⟨inside, _⟩ := List.getElem?_eq_some_iff.mp found
  rw [length_tableRows] at inside
  rw [Nat.zero_add] at wanted
  have start := @sum_rowSize_take content _ _ inside.le
  rw [itemArea, bundleEntrySize] at start
  obtain rfl := bundleRow_of_getElem found
  rw [start] at bound there
  exact ⟨place, wanted, bound, there⟩

/-- The row of an item that is inspected costs its header, and other rows cost nothing. -/
theorem cost_inspectRow_le {content row : Bytes} {request : InspectionRequest}
    {index offset size : Nat} :
    cost content (inspectRow request content.length index offset size row) ≤
      if request.item = some index then maxDataItemHeaderBytes else 0 := by
  by_cases wanted : request.item = some index
  · simp only [inspectRow, wanted, if_true]
    apply @cost_bind_le _ _ _ content _ _ _ 0 cost_readHeader_le
    simp [cost]
  · rw [if_neg wanted]
    have nothing : asked content (inspectRow request content.length index offset size row) = [] := by
      apply List.eq_nil_iff_forall_not_mem.mpr
      exact fun range member => wanted (asked_inspectRow member).1
    simp [cost, nothing]

theorem cost_inspectRows_le {content : Bytes} {request : InspectionRequest} {rows : List Bytes}
    {index offset : Nat} :
    cost content (inspectRows request content.length rows index offset) ≤
      if ∃ wanted ∈ request.item, index ≤ wanted then maxDataItemHeaderBytes else 0 := by
  induction rows generalizing index offset with
  | nil => simp [inspectRows, cost]
  | cons row rows induction =>
      have split : (if request.item = some index then maxDataItemHeaderBytes else 0) +
          ((if ∃ wanted ∈ request.item, index + 1 ≤ wanted then maxDataItemHeaderBytes else 0) + 0) ≤
          if ∃ wanted ∈ request.item, index ≤ wanted then maxDataItemHeaderBytes else 0 := by
        cases item : request.item with
        | none => simp
        | some wanted =>
            simp only [Option.some.injEq, Option.mem_def, exists_eq_left']
            rcases Nat.lt_trichotomy index wanted with before | rfl | behind
            · rw [if_neg (by omega), if_pos (by omega), if_pos before.le, Nat.zero_add, Nat.add_zero]
            · rw [if_pos rfl, if_neg (by omega), if_pos le_rfl]
              rfl
            · rw [if_neg (by omega), if_neg (by omega), if_neg (by omega)]
      refine le_trans ?_ split
      rw [inspectRows]
      refine cost_lift_bind_le fun size _ => cost_lift_bind_le fun _ _ =>
        cost_lift_bind_le fun _ _ => ?_
      refine cost_bind_le content cost_inspectRow_le fun _ _ => cost_bind_le content induction ?_
      simp [cost]

/-- An inspection never needs more than its budget. -/
theorem cost_inspect_le {content : Bytes} {request : InspectionRequest} :
    cost content (inspect request) ≤ inspectionBudget := by
  have whole : 32 + (maxInspectionTableBytes + (maxDataItemHeaderBytes + 0)) = inspectionBudget := by
    rw [inspectionBudget]
    omega
  rw [inspect, ← whole]
  refine cost_lift_bind_le fun _ _ => cost_lift_bind_le fun _ _ => ?_
  refine cost_bind_le content (by simp [cost]) fun ⟨header, total⟩ read => ?_
  obtain ⟨_, rfl, rfl⟩ := (eval_read_eq_ok content).mp read
  refine cost_lift_bind_le fun count _ => cost_lift_bind_le fun _ few => ?_
  have few := Checked.ensure_eq_ok.mp few
  refine cost_lift_bind_le fun _ inside => ?_
  obtain ⟨_, ends⟩ := Checked.ensure_eq_ok.mp inside
  refine cost_lift_bind_le fun _ _ => ?_
  refine cost_bind_le content ?_ fun _ _ => ?_
  · unfold readTable
    split
    · simp [cost]
    · simp only [cost, asked_map, asked_read, List.map_cons, List.map_nil, List.sum_cons,
        List.sum_nil, Nat.add_zero]
      exact Nat.mul_le_mul_right 64 (ends.trans few)
  · refine cost_bind_le content (cost_inspectRows_le.trans ?_) fun _ _ => ?_
    · split
      · exact le_rfl
      · exact Nat.zero_le _
    · refine cost_lift_bind_le fun _ _ => ?_
      simp [cost]

section Upstreams

variable {content : Bytes} {urls : List Upstream}

/-- Over faithful upstreams an inspection has the result that it has on the content. -/
theorem inspectFrom_spec (faithful : ∀ url ∈ urls, url.Faithful content) (some : urls ≠ [])
    (addressable : content.length < wordBound) (request : InspectionRequest) :
    (∀ page, (inspectFrom urls request).1 = .ok page ↔ eval content (inspect request) = .ok page) ∧
      ∀ range ∈ (inspectFrom urls request).2.sent, range ∈ asked content (inspect request) := by
  have spec := @Serves.run_spec _ _ _ _ _ _ _ (RangeReader.serves faithful addressable)
    (inspect request) ⟨0, inspectionBudget, []⟩ ⟨List.length_pos_iff.mpr some, cost_inspect_le⟩
  exact ⟨spec.1, fun range member => (spec.2 range member).resolve_left List.not_mem_nil⟩

/-- A header that is read over faithful upstreams is the one that the parser finds in the item, and
no byte behind it is asked for. -/
theorem readHeader_spec (suite : HashSuite) (faithful : ∀ url ∈ urls, url.Faithful content)
    (addressable : content.length < wordBound) {offset size : Nat} {id : FixedBytes 32}
    {reader : RangeReader} (selected : reader.selected < urls.length)
    (budget : maxDataItemHeaderBytes ≤ reader.remaining) (fits : offset + size ≤ content.length)
    (typed : isLegacy suite (slice content offset size) id = false) :
    let result := run (RangeReader.read urls) (readHeader offset size content.length) reader
    (∀ details, result.1 = .ok details ↔ ∃ header,
      readDataItemHeader suite (slice content offset size) id = .ok header ∧
        details = header.details size) ∧
    (∀ range ∈ result.2.sent, range ∈ reader.sent ∨
      offset ≤ range.1 ∧ range.1 + range.2 ≤ offset + size) ∧
    ∀ header, readDataItemHeader suite (slice content offset size) id = .ok header →
      ∀ range ∈ result.2.sent, range ∈ reader.sent ∨
        range.1 + range.2 ≤ offset + header.dataOffset := by
  have small : (slice content offset size).length < 2 ^ 64 := by
    rw [length_slice fits]
    exact lt_of_le_of_lt (by omega) addressable
  have parsed := fun header => @readDataItemHeader_eq_ok suite _ id header small typed
  obtain ⟨same, sent⟩ := @Serves.run_spec _ _ _ _ _ _ _ (RangeReader.serves faithful addressable)
    (readHeader offset size content.length) reader
    ⟨selected, cost_readHeader_le.trans budget⟩
  refine ⟨fun details => ?_, fun range member => ?_, fun header accepted range member => ?_⟩
  · rw [same, eval_readHeader_eq_ok fits]
    constructor
    · rintro ⟨layout, holds, rfl⟩
      exact ⟨_, (parsed _).mpr ⟨layout, holds, rfl⟩, rfl⟩
    · rintro ⟨header, accepted, rfl⟩
      obtain ⟨layout, holds, rfl⟩ := (parsed header).mp accepted
      exact ⟨layout, holds, rfl⟩
  · exact (sent range member).imp_right (readHeader_within range)
  · obtain ⟨layout, holds, rfl⟩ := (parsed header).mp accepted
    exact (sent range member).imp_right (readHeader_ends fits holds range)

/-- The entries of a bundle are those of rows. -/
theorem exists_binary {rows : List Bytes} {start : Nat} {entries : List BundleEntry}
    (listing : Listing content rows start entries) :
    ∀ entry ∈ entries, ∃ id bytes offset, entry = .binary id bytes offset := by
  induction listing with
  | nil => simp
  | cons listed _ induction =>
      obtain ⟨id, _, rfl⟩ := listed
      exact List.forall_mem_cons.mpr ⟨⟨_, _, _, rfl⟩, induction⟩

/-- A page shows the entries without their headers. -/
theorem forall₂_shown_page {request : InspectionRequest} (page : request.item = none)
    {places : List (BundleEntry × Nat)} {items : List InspectedItem}
    (binary : ∀ place ∈ places, ∃ id bytes offset, place.1 = .binary id bytes offset) :
    List.Forall₂ (Shown content request) places items ↔
      items = places.filterMap fun place => place.1.inspected place.2 none := by
  induction places generalizing items with
  | nil => simp
  | cons place places induction =>
      obtain ⟨⟨id, bytes, offset, entry⟩, rest⟩ := List.forall_mem_cons.mp binary
      simp only [List.forall₂_cons_left_iff, induction rest, Shown, page, List.filterMap_cons, entry,
        BundleEntry.inspected]
      constructor
      · rintro ⟨_, _, ⟨_, same, rfl⟩, rfl, rfl⟩
        rw [Option.some.inj same]
      · rintro rfl
        exact ⟨_, _, ⟨_, rfl, rfl⟩, rfl, rfl⟩

theorem filter_zipIdx_eq {α : Type} (elements : List α) (first place : Nat) :
    (elements.zipIdx first).filter (fun element => decide (element.2 = first + place)) =
      (elements[place]?.map fun element => (element, first + place)).toList := by
  induction elements generalizing first place with
  | nil => rfl
  | cons element elements induction =>
      rw [List.zipIdx_cons, List.filter_cons]
      cases place with
      | zero =>
          have behind : ∀ other ∈ elements.zipIdx (first + 1), ¬decide (other.2 = first + 0) := by
            intro other member
            have bound := List.le_snd_of_mem_zipIdx member
            simp only [decide_eq_true_eq]
            omega
          rw [if_pos (by simp), List.filter_eq_nil_iff.mpr behind]
          rfl
      | succ place =>
          have next := induction (first + 1) place
          rw [if_neg (by simp), List.getElem?_cons_succ]
          rw [Nat.add_assoc, Nat.add_comm 1] at next
          exact next

theorem binary_of_first {count : Nat} {entries : List BundleEntry}
    (addressable : content.length < wordBound) (within : count ≤ bundleCount content)
    (first : FirstEntries content count entries) :
    entries.length = count ∧
      ∀ entry ∈ entries, ∃ id bytes offset, entry = .binary id bytes offset := by
  obtain ⟨_, _, _, listing⟩ := (firstEntries_iff addressable within).mp first
  exact ⟨by rw [listing.length, length_tableRows], exists_binary listing⟩

/-- The page of a request that the entries in front of its end give. -/
def InspectionRequest.page (request : InspectionRequest) (count : Nat)
    (items : List InspectedItem) : InspectionPage :=
  ⟨request.id, count, request.start, decide (request.finish count < count), items⟩

/-- A page lists the entries that the iterator gives at its positions. -/
theorem eval_inspect_page (addressable : content.length < wordBound) {request : InspectionRequest}
    (page : request.item = none) {result : InspectionPage} :
    eval content (inspect request) = .ok result ↔
      (∃ id, decodeFixed 32 request.id "bundle ID" = .ok id) ∧ request.Within (bundleCount content) ∧
      ∃ entries, FirstEntries content (request.finish (bundleCount content)) entries ∧
        result = request.page (bundleCount content)
          ((entries.zipIdx.filter fun place => decide (request.start ≤ place.2)).filterMap
            fun place => place.1.inspected place.2 none) := by
  have shows : (fun place : BundleEntry × Nat => request.shows place.2) =
      fun place => decide (request.start ≤ place.2) := by
    funext place
    simp [InspectionRequest.shows, page]
  rw [eval_inspect_eq_ok addressable, shows]
  refine and_congr_right fun _ => and_congr_right fun within => exists_congr fun entries => ?_
  constructor
  · rintro ⟨items, first, shown, rfl⟩
    obtain ⟨_, binary⟩ := binary_of_first addressable within.ends first
    have listed := (forall₂_shown_page page fun place member =>
      binary _ (List.fst_mem_of_mem_zipIdx (List.mem_of_mem_filter member))).mp shown
    exact ⟨first, by rw [listed]; rfl⟩
  · rintro ⟨first, rfl⟩
    obtain ⟨_, binary⟩ := binary_of_first addressable within.ends first
    exact ⟨_, first, (forall₂_shown_page page fun place member =>
      binary _ (List.fst_mem_of_mem_zipIdx (List.mem_of_mem_filter member))).mpr rfl, rfl⟩

/-- Where an entry lies in the content. -/
theorem entry_of_first {count index : Nat} {entries : List BundleEntry}
    (addressable : content.length < wordBound) (within : count ≤ bundleCount content)
    (first : FirstEntries content count entries) {id : FixedBytes 32} {bytes : Bytes} {offset : Nat}
    (entry : entries[index]? = some (.binary id bytes offset)) :
    offset = itemOffset content index ∧ bytes.length = rowSize (bundleRow content index) ∧
      bytes = slice content offset bytes.length ∧ offset + bytes.length ≤ content.length := by
  obtain ⟨_, fit, _, listing⟩ := (firstEntries_iff addressable within).mp first
  obtain ⟨short, _⟩ := List.getElem?_eq_some_iff.mp entry
  rw [listing.length, length_tableRows] at short
  have found : (tableRows content count 32)[index]? = some (bundleRow content index) := by
    simp [tableRows, short, bundleRow]
  obtain ⟨other, there, lists⟩ := listing.getElem found
  have bound := sum_rowSize_le found
  have inside := fit.inside (List.ne_nil_of_mem (List.mem_of_getElem? found))
  have size := lists.size_eq (by omega)
  rw [sum_rowSize_take short.le] at lists
  have start := @sum_rowSize_take content _ _ short.le
  obtain rfl := Option.some.inj (entry.symm.trans there)
  have place := lists.offset_eq
  obtain ⟨_, _, same⟩ := lists
  have cut := (BundleEntry.binary.inj same).2.1
  simp only [BundleEntry.offset, BundleEntry.size] at place size
  refine ⟨place, size, ?_, by omega⟩
  rw [size, place]
  exact cut

/-- An item that is shown with its header has the one that the parser finds. -/
theorem shown_iff_header (suite : HashSuite) (addressable : content.length < wordBound)
    {request : InspectionRequest} {wanted index : Nat} (item : request.item = some wanted)
    {id : FixedBytes 32} {bytes : Bytes} {offset : Nat}
    (cut : bytes = slice content offset bytes.length)
    (fits : offset + bytes.length ≤ content.length) (typed : isLegacy suite bytes id = false)
    {listed : InspectedItem} :
    Shown content request (.binary id bytes offset, index) listed ↔
      ∃ header, readDataItemHeader suite bytes id = .ok header ∧ listed = ⟨index, base64Text id.val,
        decimalString offset, decimalString bytes.length, some (header.details bytes.length)⟩ := by
  have small : bytes.length < 2 ^ 64 := lt_of_le_of_lt (by omega) addressable
  have parsed : ∀ details,
      eval content (readHeader offset bytes.length content.length) = .ok details ↔
        ∃ header, readDataItemHeader suite bytes id = .ok header ∧
          details = header.details bytes.length := by
    intro details
    rw [eval_readHeader_eq_ok fits, ← cut]
    simp only [readDataItemHeader_eq_ok small typed]
    constructor
    · rintro ⟨layout, holds, rfl⟩
      exact ⟨_, ⟨layout, holds, rfl⟩, rfl⟩
    · rintro ⟨_, ⟨layout, holds, rfl⟩, rfl⟩
      exact ⟨layout, holds, rfl⟩
  simp only [Shown, BundleEntry.inspected, item, BundleEntry.offset, BundleEntry.size, parsed]
  constructor
  · rintro ⟨_, same, _, rfl, header, accepted, rfl⟩
    exact ⟨header, accepted, (Option.some.inj same).symm⟩
  · rintro ⟨header, accepted, rfl⟩
    exact ⟨_, rfl, _, rfl, header, accepted, rfl⟩

/-- An inspection of an item lists that entry with its header. -/
theorem eval_inspect_item (suite : HashSuite) (addressable : content.length < wordBound)
    {request : InspectionRequest} {wanted : Nat} (item : request.item = some wanted)
    {entries : List BundleEntry} {id : FixedBytes 32} {bytes : Bytes} {offset : Nat}
    (within : request.Within (bundleCount content))
    (first : FirstEntries content (wanted + 1) entries)
    (entry : entries[wanted]? = some (.binary id bytes offset))
    (typed : isLegacy suite bytes id = false) {result : InspectionPage} :
    eval content (inspect request) = .ok result ↔
      (∃ id, decodeFixed 32 request.id "bundle ID" = .ok id) ∧
      ∃ header, readDataItemHeader suite bytes id = .ok header ∧
        result = request.page (bundleCount content) [⟨wanted, base64Text id.val,
          decimalString offset, decimalString bytes.length, some (header.details bytes.length)⟩] := by
  have finish : ∀ count, request.finish count = wanted + 1 := by simp [InspectionRequest.finish, item]
  have shows : (fun place : BundleEntry × Nat => request.shows place.2) =
      fun place => decide (place.2 = 0 + wanted) := by
    funext place
    simp [InspectionRequest.shows, item]
  have ends := within.ends
  rw [finish] at ends
  obtain ⟨_, _, cut, fits⟩ := entry_of_first addressable ends first entry
  have only : entries.zipIdx.filter (fun place => decide (place.2 = 0 + wanted)) =
      [(.binary id bytes offset, wanted)] := by
    rw [filter_zipIdx_eq, entry, Nat.zero_add]
    rfl
  have unique : ∀ {others}, FirstEntries content (wanted + 1) others → others = entries := by
    rintro others ⟨_, _, _, begun, taken⟩
    obtain ⟨_, _, _, alike, same⟩ := first
    obtain rfl := Except.ok.inj (begun.symm.trans alike)
    exact (Prod.mk.inj (Except.ok.inj (taken.symm.trans same))).1
  have header := fun listed => @shown_iff_header _ suite addressable request wanted wanted item _ _ _
    cut fits typed listed
  rw [eval_inspect_eq_ok addressable, shows]
  simp only [InspectionRequest.page, finish]
  refine and_congr_right fun _ => ?_
  constructor
  · rintro ⟨_, others, items, listed, shown, rfl⟩
    rw [unique listed, only, List.forall₂_cons_left_iff] at shown
    obtain ⟨_, _, here, rest, rfl⟩ := shown
    obtain ⟨parsed, accepted, rfl⟩ := (header _).mp here
    rw [List.forall₂_nil_left_iff.mp rest]
    exact ⟨parsed, accepted, rfl⟩
  · rintro ⟨parsed, accepted, rfl⟩
    refine ⟨within, entries, _, first, ?_, rfl⟩
    rw [only]
    exact .cons ((header _).mpr ⟨parsed, accepted, rfl⟩) .nil

/-- The last page is accepted exactly when the whole iteration is. -/
theorem first_iff_entries (addressable : content.length < wordBound) {listed : List BundleEntry} :
    FirstEntries content (bundleCount content) listed ↔
      BinaryBundleItems.entries content = .ok listed := by
  rw [firstEntries_iff addressable le_rfl, BinaryBundleItems.entries_eq_ok (by exact addressable)]
  constructor
  · rintro ⟨⟨header, fits, full⟩, ⟨positive, _⟩, whole, listing⟩
    refine ⟨⟨header, fits, positive, ?_⟩, listing⟩
    by_cases none : bundleCount content = 0
    · simp [bundleRows, itemArea, none, tableRows, full none]
    · exact whole none rfl
  · rintro ⟨⟨header, fits, positive, whole⟩, listing⟩
    refine ⟨⟨header, fits, fun none => ?_⟩, ⟨positive, fun _ => whole.le⟩, fun _ _ => whole, listing⟩
    simpa [bundleRows, itemArea, none, tableRows] using whole.symm

end Upstreams

/-- Over upstreams that return the true bytes a page lists the entries that the iterator gives at its
positions, and the last page is refused exactly when the iterator refuses the bundle.  The header of
an item with a signature type is the one that the parser finds, and nothing behind it is asked
for. -/
theorem inspection_agrees (suite : HashSuite) {content : Bytes} {urls : List Upstream}
    (faithful : ∀ url ∈ urls, url.Faithful content) (some : urls ≠ [])
    (addressable : content.length < wordBound) :
    (∀ request : InspectionRequest, request.item = none → ∀ page,
      (inspectFrom urls request).1 = .ok page ↔
        (∃ id, decodeFixed 32 request.id "bundle ID" = .ok id) ∧
        request.Within (bundleCount content) ∧
        ∃ entries, FirstEntries content (request.finish (bundleCount content)) entries ∧
          page = request.page (bundleCount content)
            ((entries.zipIdx.filter fun place => decide (request.start ≤ place.2)).filterMap
              fun place => place.1.inspected place.2 none)) ∧
    (∀ request : InspectionRequest, request.item = none →
      (∃ id, decodeFixed 32 request.id "bundle ID" = .ok id) →
      request.Within (bundleCount content) →
      request.finish (bundleCount content) = bundleCount content →
      ((∃ page, (inspectFrom urls request).1 = .ok page) ↔
        ∃ listed, BinaryBundleItems.entries content = .ok listed)) ∧
    (∀ (request : InspectionRequest) (wanted : Nat) (entries : List BundleEntry) (id : FixedBytes 32)
      (bytes : Bytes) (offset : Nat), request.item = .some wanted →
      request.Within (bundleCount content) → FirstEntries content (wanted + 1) entries →
      entries[wanted]? = .some (.binary id bytes offset) → isLegacy suite bytes id = false → ∀ page,
      (inspectFrom urls request).1 = .ok page ↔
        (∃ id, decodeFixed 32 request.id "bundle ID" = .ok id) ∧
        ∃ header, readDataItemHeader suite bytes id = .ok header ∧
          page = request.page (bundleCount content) [⟨wanted, base64Text id.val,
            decimalString offset, decimalString bytes.length,
            .some (header.details bytes.length)⟩]) ∧
    (∀ (request : InspectionRequest) (wanted : Nat), request.item = .some wanted →
      (¬∃ entries, FirstEntries content (wanted + 1) entries) →
      ∀ page, (inspectFrom urls request).1 ≠ .ok page) ∧
    (∀ (offset size : Nat) (id : FixedBytes 32) (reader : RangeReader),
      reader.selected < urls.length → maxDataItemHeaderBytes ≤ reader.remaining →
      offset + size ≤ content.length → isLegacy suite (slice content offset size) id = false →
      let result := run (RangeReader.read urls) (readHeader offset size content.length) reader
      (∀ details, result.1 = .ok details ↔ ∃ header,
        readDataItemHeader suite (slice content offset size) id = .ok header ∧
          details = header.details size) ∧
      (∀ range ∈ result.2.sent, range ∈ reader.sent ∨
        offset ≤ range.1 ∧ range.1 + range.2 ≤ offset + size) ∧
      ∀ header, readDataItemHeader suite (slice content offset size) id = .ok header →
        ∀ range ∈ result.2.sent, range ∈ reader.sent ∨
          range.1 + range.2 ≤ offset + header.dataOffset) ∧
    ∀ (request : InspectionRequest), ∀ range ∈ (inspectFrom urls request).2.sent,
      range.1 + range.2 ≤ itemArea content ∨ ∃ wanted, request.item = .some wanted ∧
        let start := itemOffset content wanted
        let size := rowSize (bundleRow content wanted)
        start ≤ range.1 ∧ range.1 + range.2 ≤ start + size ∧
          ∀ id header, isLegacy suite (slice content start size) id = false →
            readDataItemHeader suite (slice content start size) id = .ok header →
            range.1 + range.2 ≤ start + header.dataOffset := by
  have spec := inspectFrom_spec faithful some addressable
  refine ⟨fun request page result => ?_, fun request page named within last => ?_,
    fun request wanted entries id bytes offset item within first entry typed page => ?_,
    fun request wanted item none page accepted => ?_,
    fun offset size id reader selected budget fits typed =>
      readHeader_spec suite faithful addressable selected budget fits typed,
    fun request range member => ?_⟩
  · rw [(spec request).1, eval_inspect_page addressable page]
  · simp only [(spec request).1, eval_inspect_page addressable page, last]
    constructor
    · rintro ⟨_, _, _, entries, first, _⟩
      exact ⟨entries, (first_iff_entries addressable).mp first⟩
    · rintro ⟨listed, whole⟩
      exact ⟨_, named, within, listed, (first_iff_entries addressable).mpr whole, rfl⟩
  · rw [(spec request).1, eval_inspect_item suite addressable item within first entry typed]
  · obtain ⟨_, _, entries, _, first, _⟩ :=
      (eval_inspect_eq_ok addressable).mp (((spec request).1 page).mp accepted)
    apply none
    rw [InspectionRequest.finish, item] at first
    exact ⟨entries, first⟩
  · rcases asked_inspect range ((spec request).2 range member) with
      table | ⟨wanted, item, fits, there⟩
    · exact .inl table
    · obtain ⟨behind, inside⟩ := readHeader_within range there
      refine .inr ⟨wanted, item, behind, inside, fun id header typed accepted => ?_⟩
      have small := length_slice fits
      obtain ⟨layout, holds, rfl⟩ := (readDataItemHeader_eq_ok
        (lt_of_le_of_lt (by omega) addressable) typed).mp accepted
      exact readHeader_ends fits holds range there

/-- The last page of a bundle of two items. -/
theorem inspection_agrees_sample :
    ∃ page, (inspectFrom [mirror twoItemBundle]
      ⟨base64Text (List.replicate 32 1), 0, none⟩).1 = .ok page := by
  have length : twoItemBundle.length = 165 := rfl
  have count : bundleCount twoItemBundle = 2 := by decide
  have faithful : ∀ url ∈ [mirror twoItemBundle], url.Faithful twoItemBundle := by
    intro url member
    rw [List.mem_singleton.mp member]
    exact mirror_faithful (by rw [length]; decide)
  have named := @decodeFixed_base64Text 32 ⟨List.replicate 32 1, rfl⟩ "bundle ID"
  have listed := Checked.exists_of_isOk (BinaryBundleItems.entries twoItemBundle) (by decide +kernel)
  apply ((inspection_agrees sha2Suite faithful (List.cons_ne_nil _ _)
    (by rw [length]; decide)).2.1 _ rfl ⟨_, named⟩ ?_ ?_).mpr listed
  · rw [count]
    exact ⟨by decide, by simp, by decide, by decide, by decide⟩
  · rw [count]
    decide

end ArIoGateway
