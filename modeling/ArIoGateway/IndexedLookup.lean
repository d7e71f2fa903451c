import ArIoGateway.BundleFraming
import ArIoGateway.Traversal

/-!
# Retrieval along indexed paths

The indexer emits the items of a root bundle with their locations, and retrieval verifies an item
again along its locations.  Both agree on every occurrence.
-/

namespace ArIoGateway

open DepthFirst Octets

variable {crypto : CryptoSuite} {reader : JsonReader} {filter : Rule} {height : Nat}

/-- The size checks of a gateway that serves an item. -/
def checkServedSize (materialize : Option Nat) (json : Bool) (itemSize dataSize : Nat) :
    Checked Unit :=
  if json then do
    Checked.ensure
      (∀ limit ∈ materialize, itemSize ≤
        BundleEntry.saturatingAdd (BundleEntry.saturatingMul limit 8) maxJsonBytes)
      "JSON item exceeds configured data size limit"
    Checked.ensure (∀ limit ∈ materialize, dataSize ≤ limit)
      "transaction exceeds configured data size limit"
  else
    Checked.ensure
      (∀ limit ∈ materialize, itemSize ≤ BundleEntry.saturatingAdd limit maxDataItemHeaderBytes)
      "data item exceeds configured data size limit"

theorem itemSize_of_verifyDataItemHeader {bytes : Bytes} {header : DataItemHeader}
    {id : FixedBytes 32} {item : VerifiedItem}
    (verified : verifyDataItemHeader crypto bytes header id = .ok item) :
    item.itemSize = bytes.length ∧ item.dataOffset = header.dataOffset ∧
      item.dataOffset + item.data.length = item.itemSize := by
  simp only [verifyDataItemHeader, Checked.bind_eq_ok, Checked.pure_eq_ok] at verified
  obtain ⟨data, sliced, _, _, _, _, rfl⟩ := verified
  obtain ⟨length, order, _⟩ := length_of_sliceContent sliced
  refine ⟨rfl, rfl, ?_⟩
  simp only [length]
  omega

theorem verify_of_json {entry : JsonEntry} {item : VerifiedItem} {materialize : Option Nat}
    (verified : (BundleEntry.json entry).verify crypto reader materialize = .ok (some item)) :
    entry.verify crypto reader = .ok (some item) := by
  simp only [BundleEntry.verify, Checked.bind_eq_ok] at verified
  obtain ⟨_, _, _ | found, read, verified⟩ := verified
  · simp at verified
  · simp only [Checked.bind_eq_ok, Checked.pure_eq_ok, Option.some.injEq] at verified
    obtain ⟨_, _, rfl⟩ := verified
    exact read

theorem itemSize_of_verify {entry : BundleEntry} {item : VerifiedItem}
    (verified : entry.verify crypto reader none = .ok (some item)) :
    item.itemSize = entry.size := by
  cases entry with
  | binary id bytes offset =>
      simp only [BundleEntry.verify, verifyDataItem, Checked.bind_eq_ok, Checked.map_eq_ok,
        Option.some.injEq] at verified
      obtain ⟨_, _, _, ⟨_, _, verified⟩, rfl⟩ := verified
      exact (itemSize_of_verifyDataItemHeader verified).1
  | json entry => exact (JsonEntry.verified_of_verify (verify_of_json verified)).itemSize

/-- Serving an item only adds the size checks. -/
theorem verify_served {entry : BundleEntry} {item : VerifiedItem} (materialize : Option Nat)
    (verified : entry.verify crypto reader none = .ok (some item)) :
    entry.verify crypto reader materialize =
      (checkServedSize materialize entry.isJson item.itemSize item.data.length >>= fun _ =>
        pure (some item)) := by
  have size := itemSize_of_verify verified
  cases entry with
  | binary id bytes offset =>
      simp only [BundleEntry.verify, Checked.bind_eq_ok, Checked.map_eq_ok,
        Option.some.injEq] at verified
      obtain ⟨_, _, item, verified, rfl⟩ := verified
      simp [BundleEntry.verify, verified, checkServedSize, BundleEntry.isJson, size,
        BundleEntry.size, Functor.map, Except.map, pure, Except.pure]
  | json entry =>
      have read := verify_of_json verified
      simp [BundleEntry.verify, read, checkServedSize, BundleEntry.isJson, size, BundleEntry.size]

/-- An item that is served is the item of the entry. -/
theorem verify_of_served {entry : BundleEntry} {item : VerifiedItem} {materialize : Option Nat}
    (served : entry.verify crypto reader materialize = .ok (some item)) :
    entry.verify crypto reader none = .ok (some item) := by
  cases entry with
  | binary id bytes offset =>
      simp only [BundleEntry.verify, Checked.bind_eq_ok] at served
      obtain ⟨_, _, verified⟩ := served
      simpa [BundleEntry.verify] using verified
  | json entry => simp [BundleEntry.verify, verify_of_json served, pure, Except.pure]

theorem offset_ne_zero_of_verify {bundle : Bytes} {entry : BundleEntry} {item : VerifiedItem}
    (framed : entry.Framed bundle)
    (verified : entry.verify crypto reader none = .ok (some item)) : entry.offset ≠ 0 := by
  intro zero
  cases entry with
  | binary id bytes offset =>
      have table := framed.table id bytes offset rfl
      simp only [BundleEntry.offset] at zero
      omega
  | json entry =>
      have valid := (JsonEntry.verified_of_verify (verify_of_json verified)).valid
      have invalid := framed.invalid entry rfl zero
      simp [valid] at invalid

theorem foldlM_lookupEntry_found {expectedId : FixedBytes 32}
    {expectedOffset materialize : Option Nat}
    {signatureLookup : Bool} (found : VerifiedItem × Nat) (entries : List BundleEntry) :
    entries.foldlM (lookupEntry crypto reader expectedId expectedOffset materialize signatureLookup)
      (some found) = .ok (some found) := by
  induction entries with
  | nil => rfl
  | cons entry entries induction => simp [List.foldlM_cons, lookupEntry, induction]

/-- A lookup by the offset of a valid entry finds its item. -/
theorem foldlM_lookupEntry {bundle : Bytes} {entries : List BundleEntry}
    (framed : ∀ entry ∈ entries, entry.Framed bundle)
    (apart : entries.Pairwise BundleEntry.Before) {entry : BundleEntry} (member : entry ∈ entries)
    {headerId : FixedBytes 32} {item : VerifiedItem} (listed : entry.id = some headerId)
    (verified : entry.verify crypto reader none = .ok (some item)) (materialize : Option Nat) :
    entries.foldlM (lookupEntry crypto reader (item.id crypto.toHashSuite headerId)
        (some entry.offset) materialize false) none =
      (checkServedSize materialize entry.isJson item.itemSize item.data.length >>= fun _ =>
        pure (some (item, entry.offset))) := by
  induction entries with
  | nil => cases member
  | cons first entries induction =>
      obtain ⟨before, apart⟩ := List.pairwise_cons.mp apart
      have nonzero := offset_ne_zero_of_verify (framed entry member) verified
      rw [List.foldlM_cons]
      rcases List.mem_cons.mp member with rfl | member
      · have found : lookupEntry crypto reader (item.id crypto.toHashSuite headerId)
            (some entry.offset) materialize false none entry =
            (checkServedSize materialize entry.isJson item.itemSize item.data.length >>= fun _ =>
              pure (some (item, entry.offset))) := by
          simp only [lookupEntry, BundleEntry.selected, verify_served materialize verified, listed]
          cases checkServedSize materialize entry.isJson item.itemSize item.data.length <;>
            simp
        rw [found]
        cases checkServedSize materialize entry.isJson item.itemSize item.data.length with
        | error message => rfl
        | ok _ => exact foldlM_lookupEntry_found _ _
      · have other : entry.offset ≠ first.offset := by
          intro same
          have less := (before entry member (same ▸ nonzero) nonzero).1
          omega
        have skipped : lookupEntry crypto reader (item.id crypto.toHashSuite headerId)
            (some entry.offset) materialize false none first = .ok none := by
          simp [lookupEntry, BundleEntry.selected, other, pure, Except.pure]
        rw [skipped]
        exact induction (fun entry member => framed entry (List.mem_cons_of_mem _ member)) apart
          member

/-- The entry that a lookup by offset has found. -/
theorem entry_of_foldlM {expectedId : FixedBytes 32} {expectedOffset : Nat}
    {materialize : Option Nat} {signatureLookup : Bool} {entries : List BundleEntry}
    {item : VerifiedItem} {offset : Nat}
    (found : entries.foldlM (lookupEntry crypto reader expectedId (some expectedOffset) materialize
      signatureLookup) none = .ok (some (item, offset))) :
    ∃ entry ∈ entries, entry.offset = expectedOffset ∧ offset = expectedOffset ∧
      entry.verify crypto reader none = .ok (some item) ∧
      ∃ headerId, entry.id = some headerId ∧ item.id crypto.toHashSuite headerId = expectedId := by
  induction entries with
  | nil => simp at found
  | cons first entries induction =>
      rw [List.foldlM_cons, Checked.bind_eq_ok] at found
      obtain ⟨state, looked, rest⟩ := found
      cases state with
      | none =>
          obtain ⟨entry, member, facts⟩ := induction rest
          exact ⟨entry, List.mem_cons_of_mem _ member, facts⟩
      | some state =>
          rw [foldlM_lookupEntry_found] at rest
          obtain rfl := Option.some.inj (Except.ok.inj rest)
          simp only [lookupEntry, BundleEntry.selected, Option.isSome_none, Bool.false_eq_true,
            if_false, Checked.bind_eq_ok, Checked.pure_eq_ok] at looked
          obtain ⟨_, rfl, looked⟩ := looked
          split at looked
          · next same =>
              have same := of_decide_eq_true same
              simp only [Checked.bind_eq_ok] at looked
              obtain ⟨_ | served, verified, looked⟩ := looked
              · simp at looked
              · simp only [Checked.bind_eq_ok, Checked.ensure_eq_ok, Checked.pure_eq_ok,
                  Option.some.injEq, Prod.mk.injEq, Option.any_eq_true, decide_eq_true_eq] at looked
                obtain ⟨_, listed, rfl, rfl⟩ := looked
                exact ⟨first, List.mem_cons_self, same.symm, same.symm, verify_of_served verified,
                  listed⟩
          · simp at looked

theorem verifyBundleItem_of_entry (lawful : reader.Lawful) {bundle : Bytes}
    {format : BundleFormat} {entries : List BundleEntry}
    (opened : listEntries reader bundle format = .ok entries) {entry : BundleEntry}
    (member : entry ∈ entries) {headerId : FixedBytes 32} {item : VerifiedItem}
    (listed : entry.id = some headerId)
    (verified : entry.verify crypto reader none = .ok (some item)) (materialize : Option Nat) :
    verifyBundleItem crypto reader bundle format (item.id crypto.toHashSuite headerId)
        (some entry.offset) materialize =
      (checkServedSize materialize entry.isJson item.itemSize item.data.length >>= fun _ =>
        pure (item, entry.offset)) := by
  obtain ⟨items, _, created, delivers⟩ := delivers_of_listEntries opened
  obtain ⟨framed, apart⟩ := framed_of_delivers lawful created delivers
  simp only [verifyBundleItem, lookupPass, created, Checked.ok_bind,
    BundleItems.forEach_eq delivers,
    foldlM_lookupEntry framed apart member listed verified
      materialize]
  cases checkServedSize materialize entry.isJson item.itemSize item.data.length <;> rfl

theorem entry_of_verifyBundleItem {bundle : Bytes} {format : BundleFormat}
    {expectedId : FixedBytes 32} {expectedOffset : Nat} {materialize : Option Nat}
    {item : VerifiedItem} {offset : Nat}
    (done : verifyBundleItem crypto reader bundle format expectedId (some expectedOffset)
      materialize = .ok (item, offset)) :
    ∃ entries, listEntries reader bundle format = .ok entries ∧
      ∃ entry ∈ entries, entry.offset = expectedOffset ∧ offset = expectedOffset ∧
        entry.verify crypto reader none = .ok (some item) ∧
        ∃ headerId, entry.id = some headerId ∧
          item.id crypto.toHashSuite headerId = expectedId := by
  simp only [verifyBundleItem, Checked.bind_eq_ok] at done
  obtain ⟨_ | found, passed, done⟩ := done
  · simp at done
  · obtain rfl := Checked.pure_eq_ok.mp done
    simp only [lookupPass, Checked.bind_eq_ok] at passed
    obtain ⟨items, created, folded⟩ := passed
    obtain ⟨entries, delivers, _⟩ := Cursor.delivers_of_fold folded
    rw [BundleItems.forEach_eq delivers] at folded
    exact ⟨entries, listEntries_of_checked (BundleItems.checked_of_delivers created delivers)
      delivers, entry_of_foldlM folded⟩

theorem verify_of_selectItem {entry : BundleEntry} {headerId : FixedBytes 32}
    {item : VerifiedItem}
    (selected : selectItem crypto reader filter height entry = .ok (some (headerId, item))) :
    entry.id = some headerId ∧ entry.verify crypto reader none = .ok (some item) := by
  cases listed : entry.id with
  | none => simp [selectItem, listed] at selected
  | some id =>
      cases entry with
      | binary tableId bytes offset =>
          simp only [selectItem, listed, Checked.bind_eq_ok] at selected
          obtain ⟨header, read, selected⟩ := selected
          split at selected
          · simp only [Checked.map_eq_ok, Option.some.injEq, Prod.mk.injEq] at selected
            obtain ⟨_, verified, rfl, rfl⟩ := selected
            obtain rfl := Option.some.inj listed
            exact ⟨rfl, by simp [BundleEntry.verify, verifyDataItem, read, verified]⟩
          · simp at selected
      | json entry =>
          simp only [selectItem, listed, Checked.bind_eq_ok] at selected
          obtain ⟨_ | found, verified, selected⟩ := selected
          · simp at selected
          · dsimp only at selected
            split at selected
            · simp only [Checked.pure_eq_ok, Option.some.injEq, Prod.mk.injEq] at selected
              obtain ⟨rfl, rfl⟩ := selected
              exact ⟨rfl, verified⟩
            · simp at selected

theorem selectItem_of_verify {entry : BundleEntry} {headerId : FixedBytes 32}
    {item : VerifiedItem} (listed : entry.id = some headerId)
    (verified : entry.verify crypto reader none = .ok (some item)) :
    selectItem crypto reader .always 0 entry = .ok (some (headerId, item)) := by
  cases entry with
  | binary id bytes offset =>
      obtain rfl : id = headerId := Option.some.inj listed
      simp only [BundleEntry.verify, verifyDataItem, Checked.bind_eq_ok, Checked.map_eq_ok,
        Option.some.injEq] at verified
      obtain ⟨_, _, _, ⟨header, read, verified⟩, rfl⟩ := verified
      simp [selectItem, BundleEntry.id, read, verified, filterKeeps_always]
  | json entry => simp [selectItem, listed, verified, filterKeeps_always, pure, Except.pure]

@[simp] theorem checkServedSize_none (json : Bool) (itemSize dataSize : Nat) :
    checkServedSize none json itemSize dataSize = .ok () := by
  cases json <;> simp [checkServedSize]

/-- Retrieval accepts the location of an item in an open bundle, and goes on inside it. -/
theorem verifyLocations_cons (lawful : reader.Lawful) {container : Container}
    {bundle : Bytes} {format : BundleFormat} {entries : List BundleEntry}
    (opened : listEntries reader bundle format = .ok entries) {entry : BundleEntry}
    (member : entry ∈ entries) {headerId : FixedBytes 32} {item : VerifiedItem}
    (listed : entry.id = some headerId)
    (verified : entry.verify crypto reader none = .ok (some item)) {out : Occurrence}
    (same : out = occurrenceOf crypto.toHashSuite container.id container.path entry headerId item)
    (expectedId : FixedBytes 32) (dataSize : Nat) (materialize : Option Nat)
    (rest : List BundleLocation) :
    verifyLocations crypto reader expectedId dataSize materialize bundle format container.id.val
        container.path (out.location :: rest) =
      (checkServedSize (if rest = [] then materialize else none) entry.isJson item.itemSize
        item.data.length >>= fun _ =>
        if rest = [] then do
          Checked.ensure (out.id = expectedId) "indexed path ends at a different item"
          Checked.ensure (item.data.length = dataSize)
            "indexed data size does not match authenticated payload"
          pure item
        else do
          let format ← Checked.context item.bundleFormat
            "indexed ancestor is not a supported bundle"
          verifyLocations crypto reader expectedId dataSize materialize item.data format out.id.val
            out.location.path rest) := by
  obtain ⟨items, _, created, delivers⟩ := delivers_of_listEntries opened
  have json := isJson_of_delivers created delivers member
  have fixed : toFixed 32 out.id.val = .ok out.id := toFixed_eq_ok.mpr rfl
  have located := verifyBundleItem_of_entry lawful opened member listed verified
    (if rest = [] then materialize else none)
  subst same
  simp only [occurrenceOf] at fixed
  simp only [verifyLocations, occurrenceOf, json, fixed, Except.mapError, located, Checked.ok_bind,
    and_self, Checked.ensure_of]
  cases checkServedSize (if rest = [] then materialize else none) entry.isJson item.itemSize
    item.data.length <;> simp [pure, Except.pure]

theorem listed_of_nested {item : VerifiedItem} {entries : List BundleEntry}
    (nested : nestedEntries reader item = .ok entries) (nonempty : entries ≠ []) :
    ∃ format, item.bundleFormat = some format ∧
      listEntries reader item.data format = .ok entries := by
  unfold nestedEntries at nested
  split at nested
  · exact absurd (Checked.pure_eq_ok.mp nested).symm nonempty
  · next format announced => exact ⟨format, announced, nested⟩

/-- Retrieval accepts the chain of the items that lead to an item. -/
theorem verifyLocations_of_descends (lawful : reader.Lawful) {container : Container}
    {entries : List BundleEntry} {chain : List Occurrence} {occurrence : Occurrence}
    {bundle : Bytes} {format : BundleFormat}
    (opened : listEntries reader bundle format = .ok entries)
    (descends : Descends (visitEntry crypto reader filter height) container entries
      (chain ++ [occurrence])) (materialize : Option Nat) :
    verifyLocations crypto reader occurrence.id occurrence.item.data.length materialize bundle
        format container.id.val container.path
        ((chain ++ [occurrence]).map Occurrence.location) =
      (checkServedSize materialize occurrence.location.json occurrence.item.itemSize
        occurrence.item.data.length >>= fun _ => pure occurrence.item) := by
  generalize whole : chain ++ [occurrence] = links at descends
  induction descends generalizing chain bundle format with
  | last member visited =>
      obtain ⟨headerId, item, selected, out, _⟩ := visitEntry_eq_some.mp visited
      obtain ⟨listed, verified⟩ := verify_of_selectItem selected
      obtain ⟨rfl, rfl⟩ : chain = [] ∧ occurrence = _ := by
        cases chain with
        | nil => exact ⟨rfl, by simpa using whole⟩
        | cons _ _ => simp at whole
      rw [List.map_singleton, verifyLocations_cons lawful opened member listed verified out]
      simp only [if_true, out, occurrenceOf, Checked.ensure_of, Checked.ok_bind]
  | @inside container _ _ found links member visited rest induction =>
      obtain ⟨headerId, item, selected, out, inner, nested⟩ := visitEntry_eq_some.mp visited
      obtain ⟨listed, verified⟩ := verify_of_selectItem selected
      cases chain with
      | nil =>
          obtain rfl : links = [] := (List.cons.inj whole).2.symm
          exact absurd rfl rest.chain_ne_nil
      | cons first chain =>
          obtain ⟨rfl, tail⟩ := List.cons.inj whole
          obtain ⟨format, announced, openedInner⟩ :=
            listed_of_nested nested rest.entries_ne_nil
          have later := induction openedInner tail
          have more : links.map Occurrence.location ≠ [] := by
            simpa using rest.chain_ne_nil
          rw [List.map_cons, verifyLocations_cons lawful opened member listed verified out]
          simp only [more, if_false, checkServedSize_none, Checked.ok_bind, announced,
            Checked.context]
          rw [inner] at later
          exact later

/-- The chain of items along locations that retrieval accepts, where the traversal succeeds. -/
theorem descends_of_verifyLocations {depth : Nat} {container : Container}
    {entries : List BundleEntry} {outs : List Occurrence} {bundle : Bytes} {format : BundleFormat}
    {expectedId : FixedBytes 32} {dataSize : Nat} {materialize : Option Nat} {item : VerifiedItem}
    {locations : List BundleLocation}
    (opened : listEntries reader bundle format = .ok entries)
    (emits : walk (visitEntry crypto reader .always 0) nestingError depth container entries =
      ⟨outs, .ok ()⟩)
    (accepted : verifyLocations crypto reader expectedId dataSize materialize bundle format
      container.id.val container.path locations = .ok item) :
    ∃ chain occurrence, locations = (chain ++ [occurrence]).map Occurrence.location ∧
      Descends (visitEntry crypto reader .always 0) container entries (chain ++ [occurrence]) ∧
      occurrence.id = expectedId ∧ occurrence.item = item ∧ item.data.length = dataSize := by
  induction locations generalizing depth container entries outs bundle format with
  | nil => simp [verifyLocations] at accepted
  | cons location rest induction =>
      simp only [verifyLocations, Checked.bind_eq_ok, Checked.ensure_eq_ok, Checked.mapError_eq_ok,
        toFixed_eq_ok] at accepted
      obtain ⟨_, ⟨parentId, json⟩, id, idSame, ⟨found, offset⟩, located, _, ⟨path, dataOffset,
        itemSize⟩, accepted⟩ := accepted
      obtain ⟨others, othersOpened, entry, member, offsetSame, rfl, verified, headerId, listed,
        rfl⟩ := entry_of_verifyBundleItem located
      obtain rfl : others = entries := by simpa using othersOpened.symm.trans opened
      obtain ⟨items, _, created, delivers⟩ := delivers_of_listEntries opened
      have isJson := isJson_of_delivers created delivers member
      have selected := selectItem_of_verify listed verified
      rcases walk_visits emits member with skipped | ⟨visited, visitedSame, _, inside⟩
      · rw [visitEntry_eq_none, selected] at skipped
        cases skipped
      obtain ⟨otherId, other, otherSelected, out, inner, nested⟩ :=
        visitEntry_eq_some.mp visitedSame
      obtain ⟨rfl, rfl⟩ : headerId = otherId ∧ found = other := by
        simpa using selected.symm.trans otherSelected
      have same : location = visited.out.location := by
        rw [out]
        obtain ⟨_⟩ := location
        simp_all [occurrenceOf]
      split at accepted
      · next last =>
          simp only [Checked.bind_eq_ok, Checked.ensure_eq_ok, Checked.pure_eq_ok] at accepted
          obtain ⟨_, idSame, _, size, rfl⟩ := accepted
          refine ⟨[], visited.out, by simp [last, same], .last member visitedSame, ?_, ?_, size⟩
          · rw [out]
            exact idSame
          · rw [out]
            rfl
      · next more =>
          simp only [Checked.bind_eq_ok, Checked.context_eq_ok] at accepted
          obtain ⟨format, announced, accepted⟩ := accepted
          have openedInner : listEntries reader found.data format = .ok visited.children := by
            simpa only [nestedEntries, announced] using nested
          obtain ⟨below, innerOuts, innerEmits⟩ : ∃ below innerOuts,
              walk (visitEntry crypto reader .always 0) nestingError below visited.inner
                visited.children = ⟨innerOuts, .ok ()⟩ := by
            rcases inside with leaf | ⟨below, innerOuts, _, innerEmits, _⟩
            · exact ⟨0, [], by rw [leaf, walk_nil]; rfl⟩
            · exact ⟨below, innerOuts, innerEmits⟩
          have continues : verifyLocations crypto reader expectedId dataSize materialize found.data
              format visited.inner.id.val visited.inner.path rest = .ok item := by
            rw [inner, out]
            simpa [occurrenceOf, ← idSame, offsetSame] using accepted
          obtain ⟨chain, occurrence, locations, descends, facts⟩ :=
            induction openedInner innerEmits continues
          refine ⟨visited.out :: chain, occurrence, ?_, .inside member visitedSame descends, facts⟩
          rw [List.cons_append, List.map_cons, ← locations, same]

/-- The paths of a chain are the starts of its offsets. -/
theorem paths_of_descends {container : Container} {entries : List BundleEntry}
    {chain : List Occurrence}
    (descends : Descends (visitEntry crypto reader filter height) container entries chain) :
    chain.map (fun occurrence => occurrence.location.path) =
      (chain.map fun occurrence => occurrence.location.itemOffset).inits.tail.map
        (container.path ++ ·) := by
  induction descends with
  | last _ visited =>
      obtain ⟨_, _, _, out, _⟩ := visitEntry_eq_some.mp visited
      simp [out, occurrenceOf]
  | inside _ visited _ induction =>
      obtain ⟨_, _, _, out, inner, _⟩ := visitEntry_eq_some.mp visited
      rw [List.map_cons, induction, inner, List.map_cons, List.inits_cons, List.tail_cons]
      generalize List.map (fun link : Occurrence => link.location.itemOffset) _ = offsets
      have split : offsets.inits = [] :: offsets.inits.tail := by cases offsets <;> rfl
      conv_rhs => rw [split]
      simp [out, occurrenceOf, Function.comp_def]

theorem path_of_descends {container : Container} {entries : List BundleEntry}
    {chain : List Occurrence} {occurrence : Occurrence}
    (descends : Descends (visitEntry crypto reader filter height) container entries
      (chain ++ [occurrence])) :
    occurrence.location.path = container.path ++
      (chain ++ [occurrence]).map fun link => link.location.itemOffset := by
  generalize whole : chain ++ [occurrence] = links at descends ⊢
  induction descends generalizing chain with
  | last _ visited =>
      obtain ⟨_, _, _, out, _⟩ := visitEntry_eq_some.mp visited
      obtain ⟨rfl, rfl⟩ : chain = [] ∧ occurrence = _ := by
        cases chain with
        | nil => exact ⟨rfl, by simpa using whole⟩
        | cons _ _ => simp at whole
      simp [out, occurrenceOf]
  | inside _ visited rest induction =>
      obtain ⟨_, _, _, out, inner, _⟩ := visitEntry_eq_some.mp visited
      cases chain with
      | nil => exact absurd (List.cons.inj whole).2.symm rest.chain_ne_nil
      | cons first chain =>
          rw [induction (List.cons.inj whole).2, inner]
          simp [out, occurrenceOf]

/-- Indexer and retrieval agree on every occurrence.  What the traversal emits under any filter,
whether or not it succeeds, is accepted along the locations of its ancestors and yields the same
item, up to the size limit of a gateway that serves it; and where the full traversal succeeds,
every chain of locations that is accepted is one that it emits. -/
theorem indexed_retrieval_agrees (crypto : CryptoSuite) (reader : JsonReader)
    (lawful : reader.Lawful) (root : Bytes) (rootId : FixedBytes 32) (format : BundleFormat)
    (traversal : BundleTraversal)
    (opened : BundleTraversal.new reader root rootId format = .ok traversal) :
    (∀ filter height rounds emitted,
      Cursor.Begins (BundleTraversal.nextMatching crypto reader filter height rounds) traversal
        emitted →
      ∀ before occurrence after, emitted = before ++ occurrence :: after →
        ∃ ancestors : List Occurrence, ancestors.Sublist before ∧
          (ancestors ++ [occurrence]).map (fun link => link.location.path) =
            occurrence.location.path.inits.tail ∧
          verifyIndexedBundle crypto reader root format occurrence.id
              ⟨rootId.val, (occurrence.metadata crypto.toHashSuite).dataSize,
                (ancestors ++ [occurrence]).map Occurrence.location⟩ none = .ok occurrence.item ∧
          ∀ materialize, verifyIndexedBundle crypto reader root format occurrence.id
              ⟨rootId.val, (occurrence.metadata crypto.toHashSuite).dataSize,
                (ancestors ++ [occurrence]).map Occurrence.location⟩ materialize =
            (checkServedSize materialize occurrence.location.json occurrence.item.itemSize
              occurrence.item.data.length >>= fun _ => pure occurrence.item)) ∧
    (∀ rounds all,
      Cursor.Delivers (BundleTraversal.nextMatching crypto reader .always 0 rounds) traversal all →
      ∀ expectedId dataSize locations materialize item,
        verifyIndexedBundle crypto reader root format expectedId ⟨rootId.val, dataSize, locations⟩
          materialize = .ok item →
        ∃ chain ⊆ all, locations = chain.map Occurrence.location ∧
          ∃ occurrence, chain.getLast? = some occurrence ∧ occurrence.id = expectedId ∧
            occurrence.item = item ∧ item.data.length = dataSize) := by
  obtain ⟨entries, listed, shown, _⟩ := shows_of_new opened
  constructor
  · intro filter height rounds emitted begins before occurrence after split
    have first := prefix_of_begins Nat.one_le_ofNat
      (Cursor.begins_alike (advance_alike step_alike rounds) shown begins)
    rw [emission, emission, Emission.append_nil] at first
    obtain ⟨more, outs⟩ := first
    rw [split, List.append_assoc, List.cons_append] at outs
    obtain ⟨ancestors, descends, short, sublist⟩ := exists_descends outs.symm
    have accepts : ∀ materialize, verifyIndexedBundle crypto reader root format occurrence.id
        ⟨rootId.val, (occurrence.metadata crypto.toHashSuite).dataSize,
          (ancestors ++ [occurrence]).map Occurrence.location⟩ materialize =
        (checkServedSize materialize occurrence.location.json occurrence.item.itemSize
          occurrence.item.data.length >>= fun _ => pure occurrence.item) := by
      intro materialize
      have length : 1 ≤ ((ancestors ++ [occurrence]).map Occurrence.location).length ∧
          ((ancestors ++ [occurrence]).map Occurrence.location).length ≤ maxBundleDepth := by
        simp only [List.length_map, List.length_append, List.length_singleton]
        simp only [maxBundleDepth] at short ⊢
        omega
      rw [verifyIndexedBundle, Checked.ensure_of ⟨rootId.property, length⟩, Checked.ok_bind]
      exact verifyLocations_of_descends lawful listed descends materialize
    refine ⟨ancestors, sublist, ?_, ?_, accepts⟩
    · rw [paths_of_descends descends, path_of_descends descends]
      simp
    · rw [accepts, checkServedSize_none]
      rfl
  · intro rounds all full expectedId dataSize locations materialize item accepted
    obtain ⟨others, otherListed, emits⟩ := walk_of_delivers opened full
    simp only [verifyIndexedBundle, Checked.bind_eq_ok] at accepted
    obtain ⟨_, _, accepted⟩ := accepted
    obtain ⟨chain, occurrence, same, descends, id, found, size⟩ :=
      descends_of_verifyLocations otherListed emits accepted
    exact ⟨chain ++ [occurrence], mem_of_descends emits descends, same, occurrence, by simp, id,
      found, size⟩

theorem sampleReader_lawful : sampleReader.Lawful where
  ascending := fun _ _ member => by cases member
  inside := fun _ _ member => by cases member

theorem indexed_retrieval_agrees_sample :
    ∃ traversal all,
      BundleTraversal.new sampleReader sampleRoot sampleRootId .binary = .ok traversal ∧
      Cursor.Delivers (BundleTraversal.nextMatching sampleCrypto sampleReader .always 0 4) traversal
        all ∧ all.length = 2 ∧
      (∀ before occurrence after, all = before ++ occurrence :: after →
        ∃ ancestors : List Occurrence, ancestors.Sublist before ∧
          verifyIndexedBundle sampleCrypto sampleReader sampleRoot .binary occurrence.id
            ⟨sampleRootId.val, (occurrence.metadata sha2Suite).dataSize,
              (ancestors ++ [occurrence]).map Occurrence.location⟩ none = .ok occurrence.item) ∧
      ∀ expectedId dataSize locations item,
        verifyIndexedBundle sampleCrypto sampleReader sampleRoot .binary expectedId
          ⟨sampleRootId.val, dataSize, locations⟩ none = .ok item →
        ∃ chain ⊆ all, locations = chain.map Occurrence.location := by
  have ran : (BundleTraversal.new sampleReader sampleRoot sampleRootId .binary >>= fun traversal =>
      Cursor.fold (BundleTraversal.nextMatching sampleCrypto sampleReader .always 0 4)
        (fun count _ => pure (count + 1)) 3 0 traversal) = .ok 2 := by decide +kernel
  obtain ⟨traversal, opened, counted⟩ := Checked.bind_eq_ok.mp ran
  obtain ⟨all, full, enough⟩ := Cursor.delivers_of_fold counted
  have agrees := indexed_retrieval_agrees sampleCrypto sampleReader sampleReader_lawful sampleRoot
    sampleRootId .binary traversal opened
  refine ⟨traversal, all, opened, full, ?_, ?_, ?_⟩
  · rw [full.fold_eq _ _ enough] at counted
    simpa using counted
  · intro before occurrence after split
    obtain ⟨ancestors, sublist, _, accepted, _⟩ :=
      agrees.1 .always 0 4 all full.begins before occurrence after split
    exact ⟨ancestors, sublist, accepted⟩
  · intro expectedId dataSize locations item accepted
    obtain ⟨chain, subset, same, _⟩ :=
      agrees.2 4 all full expectedId dataSize locations none item accepted
    exact ⟨chain, subset, same⟩

end ArIoGateway
