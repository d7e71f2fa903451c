import ArIoGateway.DataItems
import ArIoGateway.Foundation.Batches
import ArIoGateway.Foundation.Ranking
import Mathlib.Data.List.Lex
import Mathlib.Data.List.Perm.Basic
import Mathlib.Data.Prod.Lex
import Mathlib.Order.WithBot

/-!
# Ranks of the records of a name

The records of a name token are program accounts.  One of them is the root, and the rank of each
other one decides whether it is within the limit that has been paid for.
-/

namespace ArIoGateway

open Octets

def antRecordDiscriminator : Bytes := [225, 94, 70, 240, 82, 45, 135, 81]
def antRecordSeed : Bytes := utf8 "ant_record"
def maxSolanaAccountBytes : Nat := 4096
def maxAntRecords : Nat := 1024

/-- What the gateway takes from the libraries of the chain. -/
structure SolanaLibrary where
  /-- The bytes of a text in base 58. -/
  decodeBase58 : String → Option Bytes
  /-- The bytes of a text in base 64 with padding. -/
  decodeStandard : String → Option Bytes
  /-- The address that is derived from seeds for a program, with its bump. -/
  findProgramAddress : (seeds : List Bytes) → (program : FixedBytes 32) →
    Option (FixedBytes 32 × Nat)

structure SolanaAccount where
  data : String
  encoding : String
  owner : String
  executable : Bool
  space : Nat

structure ProgramAccount where
  pubkey : String
  account : SolanaAccount

structure AntRecord where
  undername : String
  target : String
  targetProtocol : Nat
  ttl : Nat
  priority : Option Nat
  bump : Nat
deriving DecidableEq

def decodePubkey (library : SolanaLibrary) (value label : String) : Checked (FixedBytes 32) := do
  let bytes ← Checked.context (library.decodeBase58 value) s!"invalid {label}"
  if fits : bytes.length = 32 then pure ⟨bytes, fits⟩
  else .error s!"{label} has the wrong size"

def decodeProgramAccount (library : SolanaLibrary) (account : SolanaAccount) (programId : String) :
    Checked Bytes := do
  Checked.ensure (account.owner = programId) "Solana account owner mismatch"
  Checked.ensure (account.executable = false) "Solana data account is executable"
  Checked.ensure (account.encoding = "base64") "unexpected Solana account encoding"
  Checked.ensure (account.space ≤ maxSolanaAccountBytes ∧
      account.data.utf8ByteSize ≤ (maxSolanaAccountBytes + 2) / 3 * 4)
    "Solana account exceeds size limit"
  let data ← Checked.context (library.decodeStandard account.data) "invalid Solana account base64"
  Checked.ensure (data.length = account.space) "Solana account size mismatch"
  pure data

def readString (bytes : Bytes) (cursor maximum : Nat) (label : String) :
    Checked (String × Nat) := do
  let (length, cursor) ← readLe 4 bytes cursor label
  Checked.ensure (length ≤ maximum) s!"{label} exceeds length limit"
  let (taken, cursor) ← take bytes cursor length label
  let text ← Checked.context (fromUtf8 taken) s!"{label} is not UTF-8"
  pure (text, cursor)

def readOptionU32 (bytes : Bytes) (cursor : Nat) (label : String) :
    Checked (Option Nat × Nat) := do
  let (present, cursor) ← readLe 1 bytes cursor label
  match present with
  | 0 => pure (none, cursor)
  | 1 => do
      let (value, cursor) ← readLe 4 bytes cursor label
      pure (some value, cursor)
  | _ => .error s!"{label} option is invalid"

def readOptionBytes32 (bytes : Bytes) (cursor : Nat) (label : String) : Checked Nat := do
  let (present, cursor) ← readLe 1 bytes cursor label
  match present with
  | 0 => pure cursor
  | 1 => do
      let (_, cursor) ← take bytes cursor 32 label
      pure cursor
  | _ => .error s!"{label} option is invalid"

/-- `decode_ant_record`.  Bytes behind the schema version are left from an earlier record. -/
def decodeAntRecord (bytes : Bytes) (expectedMint : FixedBytes 32) : Checked AntRecord := do
  let (discriminator, cursor) ← take bytes 0 8 "ANT discriminator"
  Checked.ensure (discriminator = antRecordDiscriminator) "invalid ANT record discriminator"
  let (mint, cursor) ← take bytes cursor 32 "ANT mint"
  Checked.ensure (mint = expectedMint.val) "ANT mint mismatch"
  let (undername, cursor) ← readString bytes cursor 64 "ANT undername"
  let (target, cursor) ← readString bytes cursor 128 "ANT target"
  let (targetProtocol, cursor) ← readLe 1 bytes cursor "ANT target protocol"
  let (ttl, cursor) ← readLe 4 bytes cursor "ANT TTL"
  let (priority, cursor) ← readOptionU32 bytes cursor "ANT priority"
  let cursor ← readOptionBytes32 bytes cursor "ANT owner"
  let (_, cursor) ← take bytes cursor 32 "ANT reconciled owner"
  let (bump, cursor) ← readLe 1 bytes cursor "ANT bump"
  let (version, _) ← take bytes cursor 3 "ANT schema version"
  Checked.ensure (version = [1, 0, 0]) "unsupported ANT schema version"
  pure { undername, target, targetProtocol, ttl, priority, bump }

/-- A byte of a name: a lower-case letter, a digit, a hyphen or an underscore. -/
def arnsByte (byte : UInt8) : Bool :=
  let code := byte.toNat
  (97 ≤ code ∧ code ≤ 122) ∨ (48 ≤ code ∧ code ≤ 57) ∨ code = 45 ∨ code = 95

/-- A hyphen or an underscore. -/
def arnsBoundary (byte : Option UInt8) : Bool := byte = some 45 ∨ byte = some 95

/-- `split_arns_name`: the name behind the last underscore, and what is in front of it. -/
def splitArnsName (name : String) : Checked (String × String) := do
  let bytes := utf8 name
  Checked.ensure (bytes ≠ [] ∧ bytes.length ≤ 253) "invalid ArNS name length"
  Checked.ensure (bytes.all arnsByte = true) "invalid ArNS name characters"
  Checked.ensure (arnsBoundary bytes.head? = false ∧ arnsBoundary bytes.getLast? = false)
    "invalid ArNS name boundary"
  let parts := name.toList.splitOn '_'
  Checked.ensure (parts.all (fun part => part ≠ []) = true) "invalid ArNS name"
  pure (String.ofList (parts.getLastD []),
    if parts.dropLast = [] then "@" else String.ofList (['_'].intercalate parts.dropLast))

/-- What a list of records is sorted by, the root first and records without a priority last. -/
abbrev AntKey := Bool ×ₗ Bool ×ₗ WithBot Nat ×ₗ List Nat

namespace AntRecord

/-- Whether a record is that of the name itself. -/
def isRoot (record : AntRecord) : Bool := record.undername = "@"

/-- The order of undernames: with a priority first, by priority, by name. -/
def rank (record : AntRecord) : Bool ×ₗ WithBot Nat ×ₗ List Nat :=
  toLex (record.priority.isNone, toLex (record.priority, (utf8 record.undername).map UInt8.toNat))

def key (record : AntRecord) : AntKey := toLex (!record.isRoot, record.rank)

/-- `make_ascii_lowercase` on the name. -/
def lower (record : AntRecord) : AntRecord :=
  { record with undername := String.ofList (record.undername.toList.map Char.toLower) }

end AntRecord

/-- Any way to sort records by their keys; records with one key may come out in any order. -/
structure AntSort where
  sort : List AntRecord → List AntRecord
  perm : ∀ records, (sort records).Perm records
  ordered : ∀ records, (sort records).Pairwise fun first second => first.key ≤ second.key

/-- An undername is that of the root, or it can stand in front of a name. -/
def checkUndername (undername : String) : Checked Unit :=
  if undername ≠ "@" then do
    let _ ← splitArnsName (undername ++ "_x")
    pure ()
  else pure ()

section Selection

variable (suite : HashSuite) (library : SolanaLibrary) (programId : String) (mint : FixedBytes 32)

/-- The address and the record of an account. -/
def readAntAccount (program : FixedBytes 32) (account : ProgramAccount) :
    Checked (FixedBytes 32 × AntRecord) := do
  let address ← decodePubkey library account.pubkey "ANT record address"
  let data ← decodeProgramAccount library account.account programId
  let decoded ← decodeAntRecord data mint
  let record := decoded.lower
  checkUndername record.undername
  let hash := suite.sha256 [utf8 record.undername]
  let (expected, bump) ← Checked.context
    (library.findProgramAddress [antRecordSeed, mint.val, hash.val] program)
    "failed to derive ANT record PDA"
  Checked.ensure (expected = address ∧ bump = record.bump) "ANT record PDA mismatch"
  pure (address, record)

/-- The loop over the accounts. -/
def collectAntRecords (program : FixedBytes 32) :
    (addresses : List (FixedBytes 32)) → List ProgramAccount → Checked (List AntRecord)
  | _, [] => pure []
  | addresses, account :: accounts => do
      let (address, record) ← readAntAccount suite library programId mint program account
      Checked.ensure (address ∉ addresses) "duplicate ANT record"
      let records ← collectAntRecords program (address :: addresses) accounts
      pure (record :: records)

/-- `select_ant_record`. -/
def selectAntRecord (order : AntSort) (accounts : List ProgramAccount) (undername : String) :
    Checked (Option (Nat × AntRecord)) := do
  Checked.ensure (accounts.length ≤ maxAntRecords) "ANT record count exceeds limit"
  let program ← decodePubkey library programId "ANT program ID"
  let records ← collectAntRecords suite library programId mint program [] accounts
  let sorted := order.sort records
  Checked.ensure (∀ record ∈ sorted.head?, record.undername = "@")
    "ANT response is missing root record"
  pure ((sorted.zipIdx.find? fun entry => entry.1.undername = undername).map Prod.swap)

end Selection

section Ranking

variable (suite : HashSuite) (library : SolanaLibrary) (programId : String) (mint : FixedBytes 32)

/-- The address and the bump that the undername of a record stands for. -/
def recordAddress (program : FixedBytes 32) (record : AntRecord) : Option (FixedBytes 32 × Nat) :=
  library.findProgramAddress
    [antRecordSeed, mint.val, (suite.sha256 [utf8 record.undername]).val] program

/-- An account holds a record: the program owns it, it decodes to the record in the mint, and its
address and bump are those of the undername. -/
structure HoldsRecord (program : FixedBytes 32) (account : ProgramAccount) (address : FixedBytes 32)
    (record : AntRecord) : Prop where
  owner : account.account.owner = programId
  decoded : ∃ data decoded, decodeProgramAccount library account.account programId = .ok data ∧
    decodeAntRecord data mint = .ok decoded ∧ record = decoded.lower
  named : checkUndername record.undername = .ok ()
  pubkey : decodePubkey library account.pubkey "ANT record address" = .ok address
  address : recordAddress suite library mint program record = some (address, record.bump)

variable {suite library programId mint}

theorem readAntAccount_eq_ok {program address : FixedBytes 32} {account : ProgramAccount}
    {record : AntRecord} :
    readAntAccount suite library programId mint program account = .ok (address, record) ↔
      HoldsRecord suite library programId mint program account address record := by
  simp only [readAntAccount, Checked.bind_eq_ok, Checked.context_eq_ok, Checked.ensure_eq_ok,
    Checked.pure_eq_ok]
  constructor
  · rintro ⟨_, pubkey, data, owned, decoded, decodes, ⟨⟩, named, ⟨expected, bump⟩, found, ⟨⟩,
      ⟨rfl, rfl⟩, same⟩
    obtain ⟨rfl, rfl⟩ := Prod.mk.inj same
    have owner : account.account.owner = programId := by
      obtain ⟨⟨⟩, owner, -⟩ := Checked.bind_eq_ok.mp owned
      exact Checked.ensure_eq_ok.mp owner
    exact ⟨owner, ⟨data, decoded, owned, decodes, rfl⟩, named, pubkey, found⟩
  · rintro ⟨-, ⟨data, decoded, owned, decodes, rfl⟩, named, pubkey, found⟩
    exact ⟨address, pubkey, data, owned, decoded, decodes, (), named, _, found, (), ⟨rfl, rfl⟩, rfl⟩

/-- The loop succeeds exactly when all accounts hold records under different addresses. -/
theorem collectAntRecords_eq_ok {program : FixedBytes 32} {addresses : List (FixedBytes 32)}
    {accounts : List ProgramAccount} {records : List AntRecord} :
    collectAntRecords suite library programId mint program addresses accounts = .ok records ↔
      ∃ entries : List (FixedBytes 32 × AntRecord),
        List.Forall₂ (fun account entry =>
          HoldsRecord suite library programId mint program account entry.1 entry.2) accounts entries ∧
        (entries.map Prod.fst).Nodup ∧ (∀ address ∈ addresses, address ∉ entries.map Prod.fst) ∧
        records = entries.map Prod.snd := by
  induction accounts generalizing addresses records with
  | nil =>
      rw [collectAntRecords, Checked.pure_eq_ok]
      constructor
      · rintro rfl
        exact ⟨[], .nil, List.nodup_nil, by simp, rfl⟩
      · rintro ⟨entries, held, -, -, rfl⟩
        cases held
        rfl
  | cons account accounts induction =>
      simp only [collectAntRecords, Checked.bind_eq_ok, Checked.ensure_eq_ok, Checked.pure_eq_ok,
        Prod.exists, readAntAccount_eq_ok, induction]
      constructor
      · rintro ⟨address, record, holds, ⟨⟩, fresh, _, ⟨entries, held, distinct, apart, rfl⟩, rfl⟩
        refine ⟨(address, record) :: entries, .cons holds held, ?_, fun other member => ?_, rfl⟩
        · exact List.nodup_cons.mpr ⟨apart address List.mem_cons_self, distinct⟩
        · rintro (_ | ⟨_, inside⟩)
          · exact fresh member
          · exact apart other (List.mem_cons_of_mem _ member) inside
      · rintro ⟨_, held, distinct, apart, rfl⟩
        cases held with
        | @cons _ entry _ entries holds held =>
            obtain ⟨address, record⟩ := entry
            obtain ⟨first, distinct⟩ := List.nodup_cons.mp distinct
            refine ⟨address, record, holds, (), ?_, _, ⟨entries, held, distinct, ?_, rfl⟩, rfl⟩
            · exact fun member => apart address member List.mem_cons_self
            · rintro other (_ | ⟨_, member⟩)
              · exact first
              · exact fun inside => apart other member (List.mem_cons_of_mem _ inside)

/-- Records under different addresses have different undernames. -/
theorem nodup_undernames {program : FixedBytes 32} {accounts : List ProgramAccount}
    {entries : List (FixedBytes 32 × AntRecord)}
    (held : List.Forall₂ (fun account entry =>
      HoldsRecord suite library programId mint program account entry.1 entry.2) accounts entries)
    (distinct : (entries.map Prod.fst).Nodup) :
    ((entries.map Prod.snd).map AntRecord.undername).Nodup := by
  have addresses : ∀ entry ∈ entries, library.findProgramAddress
      [antRecordSeed, mint.val, (suite.sha256 [utf8 entry.2.undername]).val] program =
        some (entry.1, entry.2.bump) := by
    intro entry member
    obtain ⟨account, -, holds⟩ := Batches.exists_of_mem_right held member
    exact holds.address
  rw [List.map_map]
  apply List.pairwise_map.mpr
  have apart := List.pairwise_map.mp distinct
  refine apart.imp_of_mem fun {left right} leftMember rightMember other same => other ?_
  have leftAddress := addresses left leftMember
  rw [show left.2.undername = right.2.undername from same,
    addresses right rightMember] at leftAddress
  exact (Prod.mk.inj (Option.some.inj leftAddress)).1.symm

theorem key_injective {left right : AntRecord} (same : left.key = right.key) :
    left.undername = right.undername := by
  have ranks : left.rank = right.rank := (Prod.mk.inj (toLex.injective same)).2
  have names := (Prod.mk.inj (toLex.injective (Prod.mk.inj (toLex.injective ranks)).2)).2
  apply utf8_injective
  exact List.map_injective_iff.mpr (fun _ _ => UInt8.toNat_inj.mp) names

end Ranking

/-- The index of a record among all records of a name. -/
def antIndex (records : List AntRecord) (record : AntRecord) : Nat :=
  if record.undername = "@" then 0
  else 1 + records.countP fun other => !other.isRoot && decide (other.rank < record.rank)

section Index

variable {records sorted : List AntRecord}

theorem nodup_keys (distinct : (records.map AntRecord.undername).Nodup) :
    (records.map AntRecord.key).Nodup := by
  apply List.pairwise_map.mpr
  exact (List.pairwise_map.mp distinct).imp fun other same => other (key_injective same)

theorem eq_of_undername (distinct : (records.map AntRecord.undername).Nodup)
    {left right : AntRecord} (leftMember : left ∈ records) (rightMember : right ∈ records)
    (same : left.undername = right.undername) : left = right :=
  List.inj_on_of_nodup_map distinct leftMember rightMember same

theorem find?_undername (distinct : (records.map AntRecord.undername).Nodup) {record : AntRecord}
    {undername : String} (member : record ∈ records) (named : record.undername = undername) :
    (records.find? fun record => record.undername = undername) = some record := by
  cases found : records.find? fun record => record.undername = undername with
  | none => exact absurd named (by simpa using List.find?_eq_none.mp found record member)
  | some other =>
      have otherNamed : other.undername = undername := by simpa using List.find?_some found
      rw [eq_of_undername distinct (List.mem_of_find?_eq_some found) member
        (otherNamed.trans named.symm)]

theorem key_lt_iff {other record : AntRecord} (inner : record.undername ≠ "@") :
    other.key < record.key ↔
      other.isRoot = true ∨ other.isRoot = false ∧ other.rank < record.rank := by
  have kind : record.isRoot = false := decide_eq_false inner
  rw [AntRecord.key, AntRecord.key, kind, Prod.Lex.toLex_lt_toLex]
  cases other.isRoot <;> simp

/-- The root comes first. -/
theorem not_key_lt_root {other record : AntRecord} (root : record.undername = "@")
    (different : other.undername = "@" → other = record) : ¬other.key < record.key := by
  have kind : record.isRoot = true := decide_eq_true root
  cases otherKind : other.isRoot with
  | true =>
      rw [different (of_decide_eq_true otherKind)]
      exact lt_irrefl _
  | false =>
      rw [AntRecord.key, AntRecord.key, kind, otherKind, Prod.Lex.toLex_lt_toLex]
      simp

/-- The rank of a record by its key is its index, if there is a root. -/
theorem rankIn_key (distinct : (records.map AntRecord.undername).Nodup) {root record : AntRecord}
    (rootMember : root ∈ records) (named : root.undername = "@") (member : record ∈ records) :
    Ranking.rankIn AntRecord.key records record = antIndex records record := by
  rw [Ranking.rankIn, antIndex]
  by_cases inner : record.undername = "@"
  · rw [if_pos inner]
    apply List.countP_eq_zero.mpr
    intro other otherMember less
    refine not_key_lt_root inner (fun same => ?_) (of_decide_eq_true less)
    exact eq_of_undername distinct otherMember member (same.trans inner.symm)
  · have roots : records.countP AntRecord.isRoot = 1 := by
      have once := List.count_eq_one_of_mem distinct (List.mem_map_of_mem rootMember)
      rw [named, List.count_eq_countP, List.countP_map] at once
      rw [← once]
      apply List.countP_congr
      intro other _
      simp [AntRecord.isRoot]
    have split : ∀ rows : List AntRecord,
        (rows.countP fun other => decide (other.key < record.key)) = rows.countP AntRecord.isRoot +
          rows.countP fun other => !other.isRoot && decide (other.rank < record.rank) := by
      intro rows
      induction rows with
      | nil => rfl
      | cons other rows induction =>
          rw [List.countP_cons, List.countP_cons, List.countP_cons, induction]
          cases kind : other.isRoot <;> simp [key_lt_iff inner, kind] <;> omega
    rw [if_neg inner, split, roots]

/-- What is found at its place in the sorted list is found in the list, with its rank. -/
theorem find?_zipIdx_sorted (same : sorted.Perm records)
    (distinct : (records.map AntRecord.undername).Nodup)
    (ordered : sorted.Pairwise fun first second => first.key ≤ second.key) (undername : String) :
    (sorted.zipIdx.find? fun entry => entry.1.undername = undername).map Prod.swap =
      (records.find? fun record => record.undername = undername).map fun record =>
        (Ranking.rankIn AntRecord.key records record, record) := by
  have strict := Ranking.strict_of_nodup
    ((same.map AntRecord.key).nodup_iff.mpr (nodup_keys distinct)) ordered
  cases found : records.find? fun record => record.undername = undername with
  | none =>
      have absent := List.find?_eq_none.mp found
      have nothing : (sorted.zipIdx.find? fun entry => entry.1.undername = undername) = none := by
        apply List.find?_eq_none.mpr
        rintro ⟨record, place⟩ member
        exact absent record (same.subset (List.fst_mem_of_mem_zipIdx member))
      rw [nothing]
      rfl
  | some record =>
      have member := List.mem_of_find?_eq_some found
      have named : record.undername = undername := by simpa using List.find?_some found
      cases place : sorted.zipIdx.find? fun entry => entry.1.undername = undername with
      | none =>
          obtain ⟨index, inside, there⟩ := List.mem_iff_getElem.mp (same.symm.subset member)
          have entry : (record, index) ∈ sorted.zipIdx :=
            List.mem_zipIdx_iff_getElem?.mpr (there ▸ List.getElem?_eq_getElem inside)
          have wrong := List.find?_eq_none.mp place _ entry
          exact absurd named (by simpa using wrong)
      | some entry =>
          obtain ⟨other, index⟩ := entry
          have otherNamed : other.undername = undername := by simpa using List.find?_some place
          have there := List.mem_zipIdx_iff_getElem?.mp (List.mem_of_find?_eq_some place)
          obtain rfl := eq_of_undername distinct (same.subset (List.mem_of_getElem? there)) member
            (otherNamed.trans named.symm)
          have rank := Ranking.rankIn_of_getElem? strict there
          rw [Option.map_some, Option.map_some, Ranking.rankIn_perm same.symm, rank]
          rfl

/-- The first of the sorted records is the root exactly when there is a root. -/
theorem root_of_head? (same : sorted.Perm records)
    (ordered : sorted.Pairwise fun first second => first.key ≤ second.key) :
    (∀ record ∈ sorted.head?, record.undername = "@") ↔
      (records ≠ [] → ∃ root ∈ records, root.undername = "@") := by
  cases sorted with
  | nil =>
      obtain rfl := List.nil_perm.mp same
      simp
  | cons first rest =>
      simp only [List.head?_cons, Option.mem_def, Option.some.injEq, forall_eq']
      constructor
      · exact fun root _ => ⟨first, same.subset List.mem_cons_self, root⟩
      · intro exists_root
        have some : records ≠ [] := by
          rintro rfl
          exact absurd same.length_eq (by simp)
        obtain ⟨root, member, named⟩ := exists_root some
        rcases List.mem_cons.mp (same.symm.subset member) with rfl | inside
        · exact named
        · have least := (List.pairwise_cons.mp ordered).1 root inside
          by_contra inner
          apply not_lt_of_ge least
          exact (key_lt_iff inner).mpr (.inl (decide_eq_true named))

end Index

section Selected

variable {suite : HashSuite} {library : SolanaLibrary} {programId : String} {mint : FixedBytes 32}

/-- The accounts of a name all hold records, under different addresses, with a root among them. -/
structure RecordsHeld (suite : HashSuite) (library : SolanaLibrary) (programId : String)
    (mint : FixedBytes 32) (accounts : List ProgramAccount)
    (entries : List (FixedBytes 32 × AntRecord)) : Prop where
  few : accounts.length ≤ maxAntRecords
  held : ∃ program, decodePubkey library programId "ANT program ID" = .ok program ∧
    List.Forall₂ (fun account entry =>
      HoldsRecord suite library programId mint program account entry.1 entry.2) accounts entries
  distinct : (entries.map Prod.fst).Nodup
  root : entries ≠ [] → ∃ root ∈ entries.map Prod.snd, root.undername = "@"

/-- The record of a name with its index. -/
def indexedRecord (records : List AntRecord) (undername : String) : Option (Nat × AntRecord) :=
  (records.find? fun record => record.undername = undername).map fun record =>
    (antIndex records record, record)

/-- A selection succeeds exactly when the accounts hold records, and finds the one of the name. -/
theorem selectAntRecord_eq_ok {order : AntSort} {accounts : List ProgramAccount}
    {undername : String} {result : Option (Nat × AntRecord)} :
    selectAntRecord suite library programId mint order accounts undername = .ok result ↔
      ∃ entries, RecordsHeld suite library programId mint accounts entries ∧
        result = indexedRecord (entries.map Prod.snd) undername := by
  simp only [selectAntRecord, Checked.bind_eq_ok, Checked.ensure_eq_ok, Checked.pure_eq_ok,
    collectAntRecords_eq_ok]
  have found {entries : List (FixedBytes 32 × AntRecord)} {program : FixedBytes 32}
      (held : List.Forall₂ (fun account entry =>
        HoldsRecord suite library programId mint program account entry.1 entry.2) accounts entries)
      (distinct : (entries.map Prod.fst).Nodup)
      (root : entries ≠ [] → ∃ root ∈ entries.map Prod.snd, root.undername = "@") :
      ((order.sort (entries.map Prod.snd)).zipIdx.find? fun entry =>
        entry.1.undername = undername).map Prod.swap =
          indexedRecord (entries.map Prod.snd) undername := by
    have names := nodup_undernames held distinct
    rw [find?_zipIdx_sorted (order.perm _) names (order.ordered _), indexedRecord]
    apply Option.map_congr
    intro record there
    have member := List.mem_of_find?_eq_some there
    have some : entries ≠ [] := by
      rintro rfl
      cases member
    obtain ⟨root, rootMember, named⟩ := root some
    rw [rankIn_key names rootMember named member]
  constructor
  · rintro ⟨⟨⟩, few, program, decoded, _, ⟨entries, held, distinct, -, rfl⟩, ⟨⟩, first, rfl⟩
    have root : entries ≠ [] → ∃ root ∈ entries.map Prod.snd, root.undername = "@" := by
      have exists_root := (root_of_head? (order.perm _) (order.ordered _)).mp first
      exact fun some => exists_root (by simpa using some)
    exact ⟨entries, ⟨few, ⟨program, decoded, held⟩, distinct, root⟩, found held distinct root⟩
  · rintro ⟨entries, ⟨few, ⟨program, decoded, held⟩, distinct, root⟩, rfl⟩
    refine ⟨(), few, program, decoded, _, ⟨entries, held, distinct, by simp, rfl⟩, (), ?_,
      found held distinct root⟩
    apply (root_of_head? (order.perm _) (order.ordered _)).mpr
    exact fun some => root (by simpa using some)

/-- The order of the accounts does not matter to what they hold. -/
theorem RecordsHeld.perm {accounts others : List ProgramAccount}
    {entries : List (FixedBytes 32 × AntRecord)}
    (holds : RecordsHeld suite library programId mint accounts entries)
    (same : others.Perm accounts) :
    ∃ moved, RecordsHeld suite library programId mint others moved ∧ moved.Perm entries := by
  obtain ⟨program, decoded, held⟩ := holds.held
  obtain ⟨moved, movedHeld, movedPerm⟩ := List.perm_comp_forall₂ same held
  refine ⟨moved, ⟨same.length_eq ▸ holds.few, ⟨program, decoded, movedHeld⟩, ?_, ?_⟩, movedPerm⟩
  · exact (movedPerm.map _).nodup_iff.mpr holds.distinct
  · intro some
    obtain ⟨root, member, named⟩ :=
      holds.root fun none => some (List.perm_nil.mp (none ▸ movedPerm))
    exact ⟨root, (movedPerm.map _).symm.subset member, named⟩

theorem indexedRecord_perm {records others : List AntRecord} (same : others.Perm records)
    (distinct : (records.map AntRecord.undername).Nodup) (undername : String) :
    indexedRecord others undername = indexedRecord records undername := by
  have index (record : AntRecord) : antIndex others record = antIndex records record := by
    rw [antIndex, antIndex, same.countP_eq]
  have found : (others.find? fun record => record.undername = undername) =
      records.find? fun record => record.undername = undername := by
    cases found : records.find? fun record => record.undername = undername with
    | none =>
        apply List.find?_eq_none.mpr
        intro record member
        exact List.find?_eq_none.mp found record (same.subset member)
    | some record =>
        have names := (same.map AntRecord.undername).nodup_iff.mpr distinct
        have member := same.symm.subset (List.mem_of_find?_eq_some found)
        exact find?_undername names member (by simpa using List.find?_some found)
  rw [indexedRecord, indexedRecord, found]
  simp only [index]

end Selected

/-- The order in which the accounts come, and the way in which records of one key are sorted, do
not matter.  When a selection succeeds, every account holds a record of its own undername, the index
of a record is its rank, and the indices are the numbers below the number of records.  An account
whose owner, address or bump is not that of its record makes every selection fail. -/
theorem ant_record_ranking (suite : HashSuite) (library : SolanaLibrary) (programId : String)
    (mint : FixedBytes 32) (order : AntSort) (accounts : List ProgramAccount) :
    (∀ (otherOrder : AntSort) (others : List ProgramAccount), others.Perm accounts →
      ∀ undername result,
        selectAntRecord suite library programId mint otherOrder others undername = .ok result ↔
          selectAntRecord suite library programId mint order accounts undername = .ok result) ∧
    (∀ undername result,
      selectAntRecord suite library programId mint order accounts undername = .ok result →
      ∃ program entries,
        decodePubkey library programId "ANT program ID" = .ok program ∧
        List.Forall₂ (fun account entry =>
          HoldsRecord suite library programId mint program account entry.1 entry.2) accounts entries ∧
        ∃ records, records = entries.map Prod.snd ∧ (records.map AntRecord.undername).Nodup ∧
          (∀ name, selectAntRecord suite library programId mint order accounts name =
            .ok ((records.find? fun record => record.undername = name).map fun record =>
              (antIndex records record, record))) ∧
          (records.map (antIndex records)).Perm (List.range accounts.length)) ∧
    ∀ account ∈ accounts, (account.account.owner ≠ programId ∨
        ∃ program address data decoded,
          decodePubkey library programId "ANT program ID" = .ok program ∧
          decodePubkey library account.pubkey "ANT record address" = .ok address ∧
          decodeProgramAccount library account.account programId = .ok data ∧
          decodeAntRecord data mint = .ok decoded ∧
          recordAddress suite library mint program decoded.lower ≠ some (address, decoded.bump)) →
      ∀ undername, ∃ message,
        selectAntRecord suite library programId mint order accounts undername = .error message := by
  refine ⟨?_, ?_, ?_⟩
  · intro otherOrder others same undername result
    have forward {left right : AntSort} {first second : List ProgramAccount}
        (moved : first.Perm second)
        (selected : selectAntRecord suite library programId mint left second undername =
          .ok result) :
        selectAntRecord suite library programId mint right first undername = .ok result := by
      obtain ⟨entries, holds, rfl⟩ := selectAntRecord_eq_ok.mp selected
      obtain ⟨program, -, held⟩ := holds.held
      have names := nodup_undernames held holds.distinct
      obtain ⟨others, otherHolds, perm⟩ := holds.perm moved
      apply selectAntRecord_eq_ok.mpr
      exact ⟨others, otherHolds, (indexedRecord_perm (perm.map _) names undername).symm⟩
    exact ⟨forward same.symm, forward same⟩
  · intro undername result selected
    obtain ⟨entries, holds, rfl⟩ := selectAntRecord_eq_ok.mp selected
    obtain ⟨program, decoded, held⟩ := holds.held
    have names := nodup_undernames held holds.distinct
    refine ⟨program, entries, decoded, held, _, rfl, names, fun name => ?_, ?_⟩
    · apply selectAntRecord_eq_ok.mpr
      exact ⟨entries, holds, rfl⟩
    · have ranks := Ranking.perm_ranks (nodup_keys names)
      rw [List.length_map, ← held.length_eq] at ranks
      have same : (entries.map Prod.snd).map (antIndex (entries.map Prod.snd)) =
          (entries.map Prod.snd).map
            (Ranking.rankIn AntRecord.key (entries.map Prod.snd)) := by
        apply List.map_congr_left
        intro record member
        have some : entries ≠ [] := by
          rintro rfl
          cases member
        obtain ⟨root, rootMember, named⟩ := holds.root some
        exact (rankIn_key names rootMember named member).symm
      rwa [same]
  · intro account member mismatch undername
    cases selected : selectAntRecord suite library programId mint order accounts undername with
    | error message => exact ⟨message, rfl⟩
    | ok result =>
        obtain ⟨entries, holds, -⟩ := selectAntRecord_eq_ok.mp selected
        obtain ⟨program, decodes, held⟩ := holds.held
        obtain ⟨entry, -, fits⟩ := Batches.exists_of_mem_left held member
        rcases mismatch with foreign |
          ⟨otherProgram, address, data, decoded, program_eq, pubkey, owned, decoded_eq, apart⟩
        · exact absurd fits.owner foreign
        · obtain ⟨otherData, otherDecoded, otherOwned, otherDecoded_eq, same⟩ := fits.decoded
          obtain rfl := Except.ok.inj (decodes.symm.trans program_eq)
          obtain rfl := Except.ok.inj (owned.symm.trans otherOwned)
          obtain rfl := Except.ok.inj (decoded_eq.symm.trans otherDecoded_eq)
          obtain rfl := Except.ok.inj (pubkey.symm.trans fits.pubkey)
          have address := fits.address
          rw [same] at address
          exact absurd address apart

/-- The sort by insertion. -/
def insertionOrder : AntSort where
  sort records := records.insertionSort fun first second => first.key ≤ second.key
  perm records := List.perm_insertionSort _ records
  ordered records := by
    have : Std.Total fun first second : AntRecord => first.key ≤ second.key :=
      ⟨fun _ _ => le_total _ _⟩
    have : IsTrans AntRecord fun first second => first.key ≤ second.key :=
      ⟨fun _ _ _ => le_trans⟩
    exact List.pairwise_insertionSort _ records

def sampleMint : FixedBytes 32 := ⟨List.replicate 32 9, rfl⟩

/-- The bytes of a record with a short target and without a priority. -/
def antRecordBytes (undername : Bytes) : Bytes :=
  antRecordDiscriminator ++ sampleMint.val ++ [UInt8.ofNat undername.length, 0, 0, 0] ++
    undername ++ [1, 0, 0, 0, 116, 0, 60, 0, 0, 0, 0, 0] ++ List.replicate 32 0 ++ [255, 1, 0, 0]

/-- The undernames of two records, as they are stored and as they are addressed, with their
addresses and their bytes in text. -/
def antTable : List (Bytes × Bytes × String × FixedBytes 32 × String) :=
  [(utf8 "@", utf8 "@", "7HS5EtHjCCko2xtrHoZWUsx7s633PquTBXb3ZRUjDGyn",
      ⟨[93, 91, 195, 197, 252, 38, 82, 204, 168, 99, 204, 215, 217, 182, 41, 110, 140, 61, 117, 194,
        250, 246, 78, 192, 150, 249, 189, 193, 86, 79, 220, 89], rfl⟩,
      "4V5G8FIth1EJCQkJCQkJCQkJCQkJCQkJCQkJCQkJCQkJCQkJCQkJCQEAAABAAQAAAHQAPAAAAAAAAAAAAAAAAAAAAAAA" ++
        "AAAAAAAAAAAAAAAAAAAAAAD/AQAA"),
    (utf8 "Docs", utf8 "docs", "9VaUWd8q23URDLyAhrDzbzFcbp5jzmdKPdnEsSbanSD4",
      ⟨[126, 47, 155, 139, 218, 156, 203, 204, 101, 120, 99, 200, 212, 22, 222, 245, 93, 195, 6, 30,
        12, 92, 28, 253, 251, 189, 3, 71, 15, 138, 250, 215], rfl⟩,
      "4V5G8FIth1EJCQkJCQkJCQkJCQkJCQkJCQkJCQkJCQkJCQkJCQkJCQQAAABEb2NzAQAAAHQAPAAAAAAAAAAAAAAAAAAA" ++
        "AAAAAAAAAAAAAAAAAAAAAAAAAAD/AQAA")]

def antProgram : String := "US517G5965aydkZ46HS38QLi7UQiSojurfbQfKCELFx"

/-- The libraries on the two records. -/
def antLibrary : SolanaLibrary where
  decodeBase58 text :=
    if text = antProgram then some (List.replicate 32 7)
    else (antTable.find? fun entry => entry.2.2.1 = text).map fun entry => entry.2.2.2.1.val
  decodeStandard text :=
    (antTable.find? fun entry => entry.2.2.2.2 = text).map fun entry => antRecordBytes entry.1
  findProgramAddress seeds program :=
    if program.val = List.replicate 32 7 then
      (antTable.find? fun entry =>
        seeds = [antRecordSeed, sampleMint.val, (sha2Suite.sha256 [entry.2.1]).val]).map
          fun entry => (entry.2.2.2.1, 255)
    else none

def antAccounts : List ProgramAccount :=
  antTable.map fun entry => ⟨entry.2.2.1, entry.2.2.2.2, "base64", antProgram, false,
    (antRecordBytes entry.1).length⟩

/-- The record below the root has the index one, in whatever order the accounts come. -/
theorem ant_record_ranking_sample :
    let docs : AntRecord := ⟨"docs", "t", 0, 60, none, 255⟩
    selectAntRecord sha2Suite antLibrary antProgram sampleMint insertionOrder antAccounts "docs" =
        .ok (some (1, docs)) ∧
      selectAntRecord sha2Suite antLibrary antProgram sampleMint insertionOrder antAccounts.reverse
        "docs" = .ok (some (1, docs)) := by
  intro docs
  have selected : selectAntRecord sha2Suite antLibrary antProgram sampleMint insertionOrder
      antAccounts "docs" = .ok (some (1, docs)) := by
    decide +kernel
  have ranking := ant_record_ranking sha2Suite antLibrary antProgram sampleMint insertionOrder
    antAccounts
  refine ⟨selected, ?_⟩
  exact (ranking.1 insertionOrder _ (List.reverse_perm _) "docs" _).mpr selected

end ArIoGateway
