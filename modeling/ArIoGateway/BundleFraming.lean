import ArIoGateway.Bundles

/-!
# Bundle framing

The entries of a bundle lie inside it, one behind the other.  For JSON bundles this rests on the
reader: the positions that it reports are numbers of bytes read so far.
-/

namespace ArIoGateway

open Octets

/-- The positions of a field. -/
def JsonField.positions (field : JsonField) : List Nat :=
  [field.keyEnd, field.valueStart, field.valueEnd]

/-- The positions of an element, in the order in which they are taken.  A reader that looks one
byte ahead has read the brace of an object before it starts with the object. -/
def JsonElement.positions : JsonElement → List Nat
  | .object _ offset fields finish =>
      offset :: (offset + 1) :: (fields.flatMap JsonField.positions ++ [finish])
  | .other start boundEnd finish => [start, boundEnd, finish]

/-- A reader counts bytes as it reads them: positions never go back, they lie in the content, and
the brace of the document comes before every element. -/
structure JsonReader.Lawful (reader : JsonReader) : Prop where
  ascending : ∀ content, ∀ member ∈ (reader.document content).members,
    (1 :: member.elements.flatMap JsonElement.positions).Pairwise (· ≤ ·)
  inside : ∀ content, ∀ member ∈ (reader.document content).members,
    ∀ position ∈ member.elements.flatMap JsonElement.positions, position ≤ content.length

/-- The size of an entry. -/
def BundleEntry.size : BundleEntry → Nat
  | .binary _ bytes _ => bytes.length
  | .json entry => entry.size

/-- An entry of a bundle lies inside it.  Elements that are not objects have no offset. -/
structure BundleEntry.Framed (bundle : Bytes) (entry : BundleEntry) : Prop where
  inside : entry.offset ≠ 0 → entry.offset + entry.size ≤ bundle.length
  table : ∀ id bytes offset, entry = .binary id bytes offset → 96 ≤ offset
  source : ∀ element, entry = .json element → element.source = bundle
  data : ∀ element span, entry = .json element → element.fields.data = some span →
    element.offset < span.1 ∧ span.2 ≤ element.offset + element.size
  invalid : ∀ element, entry = .json element → element.offset = 0 → element.fields.invalid = true

/-- Two entries, one behind the other. -/
def BundleEntry.Before (left right : BundleEntry) : Prop :=
  left.offset ≠ 0 → right.offset ≠ 0 →
    left.offset < right.offset ∧ left.offset + left.size ≤ right.offset

theorem length_of_sliceContent {content sliced : Bytes} {start finish : Nat}
    (done : sliceContent content start finish = .ok sliced) :
    sliced.length = finish - start ∧ start ≤ finish ∧ finish ≤ content.length := by
  simp only [sliceContent, Checked.bind_eq_ok, Checked.ensure_eq_ok, Checked.pure_eq_ok] at done
  obtain ⟨_, ⟨order, inside⟩, rfl⟩ := done
  rw [List.length_drop, List.length_take]
  omega

theorem framed_binary {items : BinaryBundleItems} {entries : List BundleEntry}
    (delivers : Cursor.Delivers BundleItems.next (.binary items) entries)
    (start : 96 ≤ items.itemStart ∨ items.remaining = 0) :
    (∀ entry ∈ entries, entry.Framed items.bundle ∧ items.itemStart ≤ entry.offset) ∧
      entries.Pairwise BundleEntry.Before := by
  generalize cursor : BundleItems.binary items = state at delivers
  induction delivers generalizing items with
  | done _ => simp
  | @more _ _ entry others found _ induction =>
      subst cursor
      rcases BundleItems.next_eq_some found with ⟨_, rest, same, rfl, read⟩ | ⟨_, _, _, same, _⟩
      · obtain rfl := BundleItems.binary.inj same
        have advances := BinaryBundleItems.advances_of_next read
        obtain ⟨id, bytes, rfl, sliced⟩ := advances.entry
        obtain ⟨length, _, _⟩ := length_of_sliceContent sliced
        have forward := advances.forward
        have inside := advances.inside
        have remaining := advances.remaining
        have lower : 96 ≤ items.itemStart := start.resolve_right (by omega)
        obtain ⟨framed, apart⟩ := induction (.inl (by omega)) rfl
        rw [advances.bundle] at framed
        refine ⟨?_, List.pairwise_cons.mpr ⟨?_, apart⟩⟩
        · rintro entry (_ | ⟨_, member⟩)
          · refine ⟨⟨?_, ?_, ?_, ?_, ?_⟩, Nat.le_refl _⟩
            · intro _
              simp only [BundleEntry.offset, BundleEntry.size]
              omega
            · rintro _ _ _ ⟨⟩
              exact lower
            · rintro _ ⟨⟩
            · rintro _ _ ⟨⟩
            · rintro _ ⟨⟩
          · exact ⟨(framed entry member).1, forward.le.trans (framed entry member).2⟩
        · intro entry member _ _
          have behind := (framed entry member).2
          simp only [BundleEntry.offset, BundleEntry.size] at behind ⊢
          omega
      · cases same

theorem binary_of_delivers {items : BinaryBundleItems} {entries : List BundleEntry}
    (delivers : Cursor.Delivers BundleItems.next (.binary items) entries) {entry : BundleEntry}
    (member : entry ∈ entries) : entry.isJson = false := by
  generalize cursor : BundleItems.binary items = state at delivers
  induction delivers generalizing items with
  | done _ => cases member
  | more found _ induction =>
      subst cursor
      rcases BundleItems.next_eq_some found with ⟨_, rest, _, rfl, read⟩ | ⟨_, _, _, same, _⟩
      · rcases List.mem_cons.mp member with rfl | member
        · obtain ⟨_, _, rfl, _⟩ := (BinaryBundleItems.advances_of_next read).entry
          rfl
        · exact induction member rfl
      · cases same

theorem start_of_new {bundle : Bytes} {items : BinaryBundleItems}
    (opened : BinaryBundleItems.new bundle = .ok items) :
    items.bundle = bundle ∧ (96 ≤ items.itemStart ∨ items.remaining = 0) := by
  simp only [BinaryBundleItems.new, Checked.bind_eq_ok, Checked.ensure_eq_ok,
    Checked.pure_eq_ok] at opened
  obtain ⟨_, _, count, _, _, _, _, _, rfl⟩ := opened
  refine ⟨rfl, ?_⟩
  cases count with
  | zero => exact .inr rfl
  | succ count =>
      left
      simp only [bundleEntrySize]
      omega

theorem delivers_json {elements : List JsonEntry} {ended : Checked Unit}
    {entries : List BundleEntry}
    (delivers : Cursor.Delivers BundleItems.next (.json elements ended) entries) :
    entries = elements.map .json := by
  generalize cursor : BundleItems.json elements ended = state at delivers
  induction delivers generalizing elements with
  | done stopped =>
      subst cursor
      cases elements with
      | nil => rfl
      | cons element elements => simp [BundleItems.next] at stopped
  | more found _ induction =>
      subst cursor
      rcases BundleItems.next_eq_some found with ⟨_, _, same, _⟩ | ⟨element, rest, _, same, rfl, rfl⟩
      · cases same
      · obtain ⟨rfl, rfl⟩ := BundleItems.json.inj same
        rw [induction rfl]
        rfl

theorem foldlM_visitField {fields : List JsonField} {state result : Fields × Nat}
    (done : fields.foldlM visitField state = .ok result) :
    result.1.offset = state.1.offset ∧ ∀ span, result.1.data = some span →
      state.1.data = some span ∨
        ∃ field ∈ fields, span = (field.valueStart, field.valueEnd) := by
  induction fields generalizing state with
  | nil =>
      obtain rfl : state = result := by simpa using done
      exact ⟨rfl, fun _ found => .inl found⟩
  | cons field fields induction =>
      simp only [List.foldlM_cons, Checked.bind_eq_ok] at done
      obtain ⟨next, visited, done⟩ := done
      obtain ⟨offset, data⟩ := induction done
      have here : next.1.offset = state.1.offset ∧ (next.1.data = state.1.data ∨
          next.1.data = some (field.valueStart, field.valueEnd)) := by
        obtain ⟨kept, bound⟩ := state
        simp only [visitField, Checked.bind_eq_ok] at visited
        obtain ⟨_, _, visited⟩ := visited
        split at visited
        · obtain rfl := Checked.pure_eq_ok.mp visited
          exact ⟨rfl, .inr rfl⟩
        · split at visited
          · simp only [Checked.bind_eq_ok, Checked.pure_eq_ok] at visited
            obtain ⟨_, _, rfl⟩ := visited
            exact ⟨rfl, .inl rfl⟩
          · obtain rfl := Checked.pure_eq_ok.mp visited
            exact ⟨rfl, .inl rfl⟩
      refine ⟨offset.trans here.1, fun span found => ?_⟩
      rcases data span found with found | ⟨other, member, same⟩
      · rcases here.2 with kept | replaced
        · exact .inl (kept ▸ found)
        · exact .inr ⟨field, List.mem_cons_self, by simpa [replaced] using found.symm⟩
      · exact .inr ⟨other, List.mem_cons_of_mem _ member, same⟩

/-- The entry of an element: an object keeps its place, any other value is invalid. -/
theorem jsonEntry_spec {reader : JsonReader} {source : Bytes} {element : JsonElement}
    {entry : JsonEntry} (read : jsonEntry reader source element = .ok entry) :
    entry.source = source ∧
      ((∃ start fields finish, element = .object start entry.offset fields finish ∧
        entry.size = finish - entry.offset ∧ ∀ span, entry.fields.data = some span →
          ∃ field ∈ fields, span = (field.valueStart, field.valueEnd)) ∨
      (entry.offset = 0 ∧ entry.fields.data = none ∧ entry.fields.invalid = true)) := by
  simp only [jsonEntry, Checked.bind_eq_ok, Checked.pure_eq_ok] at read
  obtain ⟨⟨fields, finish⟩, visited, rfl⟩ := read
  refine ⟨rfl, ?_⟩
  cases element with
  | object start offset members last =>
      left
      simp only [visitElement, Checked.bind_eq_ok, Checked.pure_eq_ok, Prod.mk.injEq] at visited
      obtain ⟨_, _, ⟨kept, bound⟩, folded, _, _, rfl, rfl⟩ := visited
      obtain ⟨offsetSame, data⟩ := foldlM_visitField folded
      obtain rfl : kept.offset = offset := offsetSame
      refine ⟨start, members, last, rfl, rfl, fun span found => ?_⟩
      exact (data span found).resolve_left (by simp)
  | other start boundEnd last =>
      right
      simp only [visitElement, Checked.bind_eq_ok, Checked.pure_eq_ok, Prod.mk.injEq] at visited
      obtain ⟨_, _, rfl, rfl⟩ := visited
      exact ⟨rfl, rfl, rfl⟩

/-- What ascending positions say of an object in front of other elements. -/
theorem object_positions {floor start offset finish : Nat} {fields : List JsonField}
    {tail : List Nat}
    (ascending : (floor :: ((JsonElement.object start offset fields finish).positions ++
      tail)).Pairwise (· ≤ ·)) :
    floor ≤ offset ∧ offset + 1 ≤ finish ∧
      (∀ field ∈ fields, offset + 1 ≤ field.valueStart ∧ field.valueEnd ≤ finish) ∧
      (finish :: tail).Pairwise (· ≤ ·) := by
  obtain ⟨above, rest⟩ := List.pairwise_cons.mp ascending
  obtain ⟨here, tailAscending, across⟩ := List.pairwise_append.mp rest
  simp only [JsonElement.positions, List.pairwise_cons, List.pairwise_append, List.mem_cons,
    List.mem_append, List.mem_flatMap, List.not_mem_nil, or_false] at here
  obtain ⟨_, later, _, _, before⟩ := here
  refine ⟨above offset ?_, later finish (.inr rfl), fun field member => ⟨?_, ?_⟩,
    List.pairwise_cons.mpr ⟨fun position member => across finish ?_ position member,
      tailAscending⟩⟩
  · simp [JsonElement.positions]
  · exact later _ (.inl ⟨field, member, by simp [JsonField.positions]⟩)
  · exact before _ ⟨field, member, by simp [JsonField.positions]⟩ finish rfl
  · simp [JsonElement.positions]

/-- The entries of ascending elements lie one behind the other. -/
theorem framed_jsonEntries (reader : JsonReader) {source : Bytes} {elements : List JsonElement}
    {floor : Nat} (positive : 1 ≤ floor)
    (ascending : (floor :: elements.flatMap JsonElement.positions).Pairwise (· ≤ ·))
    (inside : ∀ position ∈ elements.flatMap JsonElement.positions, position ≤ source.length) :
    (∀ entry ∈ (jsonEntries reader source elements).1,
      (BundleEntry.json entry).Framed source ∧ (entry.offset ≠ 0 → floor ≤ entry.offset)) ∧
    ((jsonEntries reader source elements).1.map BundleEntry.json).Pairwise BundleEntry.Before := by
  induction elements generalizing floor with
  | nil => simp [jsonEntries]
  | cons element elements induction =>
      cases read : jsonEntry reader source element with
      | error message => simp [jsonEntries, read]
      | ok entry =>
          have entries : (jsonEntries reader source (element :: elements)).1 =
              entry :: (jsonEntries reader source elements).1 := by
            simp [jsonEntries, read]
          rw [entries, List.map_cons]
          rw [List.flatMap_cons] at ascending inside
          have insideTail : ∀ position ∈ elements.flatMap JsonElement.positions,
              position ≤ source.length :=
            fun position member => inside position (List.mem_append_right _ member)
          obtain ⟨sourceSame, ⟨start, fields, finish, rfl, size, data⟩ | ⟨zero, noData, invalid⟩⟩ :=
            jsonEntry_spec read
          · obtain ⟨lower, nonempty, within, tailAscending⟩ := object_positions ascending
            have upper : finish ≤ source.length :=
              inside finish (List.mem_append_left _ (by simp [JsonElement.positions]))
            obtain ⟨framed, apart⟩ := induction (by omega) tailAscending insideTail
            refine ⟨?_, List.pairwise_cons.mpr ⟨?_, apart⟩⟩
            · rintro other (_ | ⟨_, member⟩)
              · refine ⟨⟨?_, ?_, ?_, ?_, ?_⟩, fun _ => lower⟩
                · intro _
                  simp only [BundleEntry.offset, BundleEntry.size]
                  omega
                · rintro _ _ _ ⟨⟩
                · rintro _ ⟨⟩
                  exact sourceSame
                · rintro _ span ⟨⟩ found
                  obtain ⟨field, member, rfl⟩ := data span found
                  have := within field member
                  simp only
                  omega
                · rintro _ ⟨⟩ zero
                  omega
              · have placed := framed other member
                exact ⟨placed.1, fun nonzero => by have := placed.2 nonzero; omega⟩
            · intro other member _ nonzero
              obtain ⟨behind, isBehind, rfl⟩ := List.mem_map.mp member
              have := (framed behind isBehind).2 nonzero
              simp only [BundleEntry.offset, BundleEntry.size] at nonzero ⊢
              omega
          · have tailAscending : (floor :: elements.flatMap JsonElement.positions).Pairwise
                (· ≤ ·) :=
              ascending.sublist ((List.sublist_append_right _ _).cons_cons _)
            obtain ⟨framed, apart⟩ := induction positive tailAscending insideTail
            refine ⟨?_, List.pairwise_cons.mpr ⟨fun _ _ nonzero => absurd zero nonzero, apart⟩⟩
            rintro other (_ | ⟨_, member⟩)
            · refine ⟨⟨fun nonzero => absurd zero nonzero, ?_, ?_, ?_, ?_⟩,
                fun nonzero => absurd zero nonzero⟩
              · rintro _ _ _ ⟨⟩
              · rintro _ ⟨⟩
                exact sourceSame
              · rintro _ span ⟨⟩ found
                simp [noData] at found
              · rintro _ ⟨⟩ _
                exact invalid
            · exact framed other member

/-- The entries of a document are those of one list of items. -/
theorem visitMembers_entries (reader : JsonReader) (source : Bytes) (document : JsonDocument)
    (found : Bool) (bound : Nat) (members : List JsonMember) :
    (visitMembers reader source document found bound members).1 = [] ∨
    found = false ∧ ∃ member ∈ members,
      (visitMembers reader source document found bound members).1 =
        (jsonEntries reader source member.elements).1 := by
  induction members generalizing found bound with
  | nil => exact .inl rfl
  | cons member members induction =>
      have later : ∀ found bound,
          (visitMembers reader source document found bound members).1 = [] ∨
          found = false ∧ ∃ other ∈ member :: members,
            (visitMembers reader source document found bound members).1 =
              (jsonEntries reader source other.elements).1 := fun found bound =>
        (induction found bound).imp_right fun ⟨first, other, isOther, same⟩ =>
          ⟨first, other, List.mem_cons_of_mem _ isOther, same⟩
      rw [visitMembers]
      split
      · cases found with
        | true =>
            left
            cases withinLimit member.keyEnd bound maxJsonKeyBytes <;> rfl
        | false =>
            have others : ∀ finish, (visitMembers reader source document true finish members).1 =
                [] := fun finish => (induction true finish).resolve_right (by simp)
            cases withinLimit member.keyEnd bound maxJsonKeyBytes with
            | error message => exact .inl rfl
            | ok _ =>
                refine .inr ⟨rfl, member, List.mem_cons_self, ?_⟩
                obtain ⟨entries, ended⟩ := jsonEntries reader source member.elements
                cases ended with
                | error message => rfl
                | ok _ =>
                    cases member.elementsEnd with
                    | error message => rfl
                    | ok finish =>
                        exact (congrArg _ (others finish)).trans (List.append_nil _)
      · cases withinLimit member.keyEnd bound maxJsonKeyBytes with
        | error message => exact .inl rfl
        | ok _ =>
            cases member.skippedEnd with
            | error message => exact .inl rfl
            | ok finish => exact later found finish

theorem framed_readJsonBundle {reader : JsonReader} (lawful : reader.Lawful) (content : Bytes) :
    (∀ entry ∈ (readJsonBundle reader content).1, (BundleEntry.json entry).Framed content) ∧
    ((readJsonBundle reader content).1.map BundleEntry.json).Pairwise BundleEntry.Before := by
  rcases visitMembers_entries reader content (reader.document content) false
      (reader.document content).start (reader.document content).members with
    none | ⟨_, member, isMember, same⟩
  · simp [readJsonBundle, none]
  · have framed := framed_jsonEntries reader (Nat.le_refl 1)
      (lawful.ascending content member isMember) (lawful.inside content member isMember)
    rw [readJsonBundle, same]
    exact ⟨fun entry isEntry => (framed.1 entry isEntry).1, framed.2⟩

theorem isJson_of_delivers {reader : JsonReader} {bundle : Bytes} {format : BundleFormat}
    {items : BundleItems} {entries : List BundleEntry}
    (opened : BundleItems.new reader bundle format = .ok items)
    (delivers : Cursor.Delivers BundleItems.next items entries) {entry : BundleEntry}
    (member : entry ∈ entries) : entry.isJson = decide (format = .json) := by
  cases format with
  | binary =>
      obtain ⟨table, created, rfl⟩ := Checked.map_eq_ok.mp opened
      exact binary_of_delivers delivers member
  | json =>
      obtain rfl : BundleItems.json (readJsonBundle reader bundle).1
          (readJsonBundle reader bundle).2 = items := Checked.pure_eq_ok.mp opened
      obtain rfl := delivers_json delivers
      obtain ⟨element, _, rfl⟩ := List.mem_map.mp member
      rfl

/-- The entries of a bundle lie inside it, one behind the other. -/
theorem framed_of_delivers {reader : JsonReader} (lawful : reader.Lawful) {bundle : Bytes}
    {format : BundleFormat} {items : BundleItems} {entries : List BundleEntry}
    (opened : BundleItems.new reader bundle format = .ok items)
    (delivers : Cursor.Delivers BundleItems.next items entries) :
    (∀ entry ∈ entries, entry.Framed bundle) ∧ entries.Pairwise BundleEntry.Before := by
  cases format with
  | binary =>
      obtain ⟨table, created, rfl⟩ := Checked.map_eq_ok.mp opened
      obtain ⟨rfl, start⟩ := start_of_new created
      obtain ⟨framed, apart⟩ := framed_binary delivers start
      exact ⟨fun entry member => (framed entry member).1, apart⟩
  | json =>
      obtain rfl : BundleItems.json (readJsonBundle reader bundle).1
          (readJsonBundle reader bundle).2 = items := Checked.pure_eq_ok.mp opened
      obtain rfl := delivers_json delivers
      obtain ⟨framed, apart⟩ := framed_readJsonBundle lawful bundle
      refine ⟨fun entry member => ?_, apart⟩
      obtain ⟨element, isElement, rfl⟩ := List.mem_map.mp member
      exact framed element isElement

end ArIoGateway
