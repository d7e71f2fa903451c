import ArIoGateway.Foundation.Collision

/-!
# Hashes of nested lists

A nested list of byte strings is hashed with a tag that names the kind and the length of each
node.  Blobs hash their tag and their bytes; lists fold the hashes of their items into the hash of
their tag.  The hash determines the nested list when the tags are shorter than two digests and
tell blobs from lists.
-/

namespace NestedHash

open Octets

/-- A nested list of byte strings. -/
inductive Nested where
  | blob (bytes : Bytes)
  | list (items : List Nested)

/-- The digest and the tags of a nested hash. -/
structure Scheme (width : Nat) where
  digest : Bytes → FixedBytes width
  blobTag : Nat → Bytes
  listTag : Nat → Bytes
  blobTag_short : ∀ count, (blobTag count).length < width + width
  listTag_short : ∀ count, (listTag count).length < width + width
  blobTag_ne_listTag : ∀ count other, blobTag count ≠ listTag other

namespace Scheme

variable {width : Nat} (scheme : Scheme width)

/-- Fold hashes into an accumulator. -/
def chain (accumulator : FixedBytes width) (items : List (FixedBytes width)) : FixedBytes width :=
  items.foldl (fun accumulator item => scheme.digest (accumulator.val ++ item.val)) accumulator

/-- The messages that a chain hashes. -/
def chainMessages : FixedBytes width → List (FixedBytes width) → List Bytes
  | _, [] => []
  | accumulator, item :: items => (accumulator.val ++ item.val) ::
      chainMessages (scheme.digest (accumulator.val ++ item.val)) items

/-- The hash of a blob. -/
def blobHash (bytes : Bytes) : FixedBytes width :=
  scheme.digest ((scheme.digest (scheme.blobTag bytes.length)).val ++ (scheme.digest bytes).val)

/-- The hash of a list whose items have the given hashes. -/
def listHash (items : List (FixedBytes width)) : FixedBytes width :=
  scheme.chain (scheme.digest (scheme.listTag items.length)) items

mutual

/-- The hash of a nested list. -/
def hash : Nested → FixedBytes width
  | .blob bytes => scheme.blobHash bytes
  | .list items => scheme.listHash (hashes items)

/-- The hashes of the items of a list. -/
def hashes : List Nested → List (FixedBytes width)
  | [] => []
  | item :: items => hash item :: hashes items

end

mutual

/-- The messages that the hash of a nested list hashes. -/
def messages : Nested → List Bytes
  | .blob bytes =>
      [scheme.blobTag bytes.length, bytes,
        (scheme.digest (scheme.blobTag bytes.length)).val ++ (scheme.digest bytes).val]
  | .list items => scheme.listTag items.length ::
      (scheme.chainMessages (scheme.digest (scheme.listTag items.length)) (scheme.hashes items) ++
        messagesAll items)

/-- The messages of the items of a list. -/
def messagesAll : List Nested → List Bytes
  | [] => []
  | item :: items => messages item ++ messagesAll items

end

theorem length_hashes (items : List Nested) : (scheme.hashes items).length = items.length := by
  induction items with
  | nil => rfl
  | cons item items induction => simp [hashes, induction]

theorem chain_concat (accumulator item : FixedBytes width) (items : List (FixedBytes width)) :
    scheme.chain accumulator (items ++ [item]) =
      scheme.digest ((scheme.chain accumulator items).val ++ item.val) := by
  simp [chain, List.foldl_append]

theorem chainMessages_concat (accumulator item : FixedBytes width)
    (items : List (FixedBytes width)) :
    scheme.chainMessages accumulator (items ++ [item]) =
      scheme.chainMessages accumulator items ++
        [(scheme.chain accumulator items).val ++ item.val] := by
  induction items generalizing accumulator with
  | nil => rfl
  | cons first items induction =>
      simp only [List.cons_append, chainMessages, induction, List.cons.injEq, true_and]
      rfl

theorem length_concat (left right : FixedBytes width) :
    (left.val ++ right.val).length = width + width := by
  simp

/-- A chain from a short message never ends in the digest of another short message. -/
theorem chain_ne_digest {messages : List Bytes} {start short : Bytes}
    {items : List (FixedBytes width)} (free : Collision.Free scheme.digest messages)
    (shortLength : short.length < width + width) (shortMember : short ∈ messages)
    (covered : scheme.chainMessages (scheme.digest start) items ⊆ messages)
    (nonempty : items ≠ []) : scheme.chain (scheme.digest start) items ≠ scheme.digest short := by
  intro same
  obtain ⟨front, item, rfl⟩ := List.eq_nil_or_concat'  items |>.resolve_left nonempty
  rw [chain_concat] at same
  rw [chainMessages_concat] at covered
  have message := free.eq (covered (List.mem_append_right _ List.mem_cons_self)) shortMember same
  have lengths := congrArg List.length message
  rw [length_concat] at lengths
  omega

/-- Equal chains from short messages have equal items. -/
theorem chain_inj {messages : List Bytes} {leftStart rightStart : Bytes}
    {left right : List (FixedBytes width)} (free : Collision.Free scheme.digest messages)
    (leftShort : leftStart.length < width + width) (rightShort : rightStart.length < width + width)
    (leftMember : leftStart ∈ messages) (rightMember : rightStart ∈ messages)
    (leftCovered : scheme.chainMessages (scheme.digest leftStart) left ⊆ messages)
    (rightCovered : scheme.chainMessages (scheme.digest rightStart) right ⊆ messages)
    (same : scheme.chain (scheme.digest leftStart) left =
      scheme.chain (scheme.digest rightStart) right) : left = right := by
  induction left using List.reverseRecOn generalizing right with
  | nil =>
      by_contra different
      exact scheme.chain_ne_digest free leftShort leftMember rightCovered (Ne.symm different)
        same.symm
  | append_singleton left leftItem induction =>
      rcases List.eq_nil_or_concat' right with rfl | ⟨right, rightItem, rfl⟩
      · exact (scheme.chain_ne_digest free rightShort rightMember leftCovered (by simp) same).elim
      · rw [chain_concat, chain_concat] at same
        rw [chainMessages_concat] at leftCovered rightCovered
        have message := free.eq (leftCovered (List.mem_append_right _ List.mem_cons_self))
          (rightCovered (List.mem_append_right _ List.mem_cons_self)) same
        obtain ⟨chains, items⟩ := List.append_inj message (by simp)
        rw [induction (fun _ member => leftCovered (List.mem_append_left _ member))
          (fun _ member => rightCovered (List.mem_append_left _ member)) (Subtype.ext chains),
          Subtype.ext items]

/-- A blob and a list have different hashes. -/
theorem blobHash_ne_listHash {messages : List Bytes} {bytes : Bytes}
    {items : List (FixedBytes width)} (free : Collision.Free scheme.digest messages)
    (tagMember : scheme.blobTag bytes.length ∈ messages)
    (blobMember : (scheme.digest (scheme.blobTag bytes.length)).val ++ (scheme.digest bytes).val ∈
      messages)
    (listMember : scheme.listTag items.length ∈ messages)
    (covered : scheme.chainMessages (scheme.digest (scheme.listTag items.length)) items ⊆
      messages) : scheme.blobHash bytes ≠ scheme.listHash items := by
  intro same
  rw [blobHash, listHash] at same
  rcases List.eq_nil_or_concat' items with empty | ⟨front, item, full⟩
  · rw [empty] at same listMember
    have message := congrArg List.length (free.eq blobMember listMember same)
    rw [length_concat] at message
    have short := scheme.listTag_short ([] : List (FixedBytes width)).length
    omega
  · have chained : scheme.digest (scheme.blobTag bytes.length) =
        scheme.chain (scheme.digest (scheme.listTag items.length)) front := by
      rw [full, chainMessages_concat] at covered
      rw [full, chain_concat] at same
      have message := free.eq blobMember (covered (List.mem_append_right _ List.mem_cons_self)) same
      rw [full]
      exact Subtype.ext (List.append_inj message (by simp)).1
    by_cases nonempty : front = []
    · rw [nonempty] at chained
      exact scheme.blobTag_ne_listTag _ _ (free.eq tagMember listMember chained)
    · refine scheme.chain_ne_digest free (scheme.blobTag_short _) tagMember ?_ nonempty
        chained.symm
      intro message member
      refine covered ?_
      rw [full, chainMessages_concat]
      rw [full] at member
      exact List.mem_append_left _ member

/-- Equal blob hashes are hashes of equal blobs. -/
theorem blobHash_inj {messages : List Bytes} {left right : Bytes}
    (free : Collision.Free scheme.digest messages)
    (leftCovered : scheme.messages (.blob left) ⊆ messages)
    (rightCovered : scheme.messages (.blob right) ⊆ messages)
    (same : scheme.blobHash left = scheme.blobHash right) : left = right := by
  simp only [Scheme.messages, List.cons_subset] at leftCovered rightCovered
  have message := free.eq leftCovered.2.2.1 rightCovered.2.2.1 same
  exact free.eq leftCovered.2.1 rightCovered.2.1
    (Subtype.ext (List.append_inj message (by simp)).2)

mutual

/-- The hash determines the nested list, unless the messages behind the hash collide. -/
theorem hash_inj {messages : List Bytes} (free : Collision.Free scheme.digest messages) :
    ∀ left right : Nested, scheme.messages left ⊆ messages → scheme.messages right ⊆ messages →
      scheme.hash left = scheme.hash right → left = right
  | .blob left, .blob right, leftCovered, rightCovered, same => by
      rw [scheme.blobHash_inj free leftCovered rightCovered same]
  | .blob left, .list right, leftCovered, rightCovered, same => by
      simp only [Scheme.messages, List.cons_subset, List.append_subset] at leftCovered rightCovered
      rw [← length_hashes] at rightCovered
      exact (scheme.blobHash_ne_listHash free leftCovered.1 leftCovered.2.2.1 rightCovered.1
        rightCovered.2.1 same).elim
  | .list left, .blob right, leftCovered, rightCovered, same => by
      simp only [Scheme.messages, List.cons_subset, List.append_subset] at leftCovered rightCovered
      rw [← length_hashes] at leftCovered
      exact (scheme.blobHash_ne_listHash free rightCovered.1 rightCovered.2.2.1 leftCovered.1
        leftCovered.2.1 same.symm).elim
  | .list left, .list right, leftCovered, rightCovered, same => by
      simp only [Scheme.messages, List.cons_subset, List.append_subset] at leftCovered rightCovered
      rw [← length_hashes] at leftCovered rightCovered
      have items := scheme.chain_inj free (scheme.listTag_short _) (scheme.listTag_short _)
        leftCovered.1 rightCovered.1 leftCovered.2.1 rightCovered.2.1 same
      rw [hashes_inj free left right leftCovered.2.2 rightCovered.2.2 items]

/-- Equal hashes of items are hashes of equal items. -/
theorem hashes_inj {messages : List Bytes} (free : Collision.Free scheme.digest messages) :
    ∀ left right : List Nested, scheme.messagesAll left ⊆ messages →
      scheme.messagesAll right ⊆ messages → scheme.hashes left = scheme.hashes right → left = right
  | [], [], _, _, _ => rfl
  | [], _ :: _, _, _, same => by simp [hashes] at same
  | _ :: _, [], _, _, same => by simp [hashes] at same
  | left :: lefts, right :: rights, leftCovered, rightCovered, same => by
      simp only [messagesAll, List.append_subset] at leftCovered rightCovered
      simp only [hashes, List.cons.injEq] at same
      rw [hash_inj free left right leftCovered.1 rightCovered.1 same.1,
        hashes_inj free lefts rights leftCovered.2 rightCovered.2 same.2]

end

end Scheme

end NestedHash
