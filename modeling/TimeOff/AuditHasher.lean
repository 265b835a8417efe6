import TimeOff.HashChain
import TimeOff.JsonRecords
import TimeOff.PayloadHash

/-! The hash chain of audit records: which changes of a record its verification sees. -/
namespace TimeOff

open JsonText

namespace AuditHasher

structure AuditRecord where
  id : Option JsonValue
  userId : Option JsonValue
  action : Option JsonValue
  timestamp : Option JsonValue
  payload : Option JsonValue
  hash : Option JsonValue

def genesis : Option JsonValue := some (.string (jsString "GENESIS"))

/-- `payload || {}`. -/
def payloadOrEmpty (payload : Option JsonValue) : Option JsonValue :=
  if isTruthy payload then payload else some .emptyObject

/-- The object that `computeRecordHash` writes. -/
def AuditRecord.canonical (record : AuditRecord) (prev : Option JsonValue) : Record :=
  [(jsString "id", record.id), (jsString "userId", record.userId),
    (jsString "action", record.action), (jsString "timestamp", record.timestamp),
    (jsString "payload", payloadOrEmpty record.payload), (jsString "prev", prev)]

section Code

variable (sha256 : ByteArray → JsString)

/-- `previousHash` has a default, which an argument of `undefined` is replaced by. -/
def computeRecordHash (record : AuditRecord) (previousHash : Option JsonValue) : JsString :=
  sha256Text sha256 (stringifyRecord (record.canonical (previousHash.orElse fun _ => genesis)))

/-- The loop of `verifyChain`. -/
def verifyFrom (prev : Option JsonValue) : List AuditRecord → Bool
  | [] => true
  | record :: records =>
    let expected := computeRecordHash sha256 record prev
    if !strictEquals record.hash (some (.string expected)) then false
    else verifyFrom record.hash records

/-- What is no array, `none` here, is accepted. -/
def verifyChain : Option (List AuditRecord) → Bool
  | none => true
  | some [] => true
  | some (record :: records) => verifyFrom sha256 genesis (record :: records)

end Code

/-- The fields of a record that its hash is computed from. -/
inductive Field
  | id
  | userId
  | action
  | timestamp
  | payload
deriving DecidableEq

def AuditRecord.get (record : AuditRecord) : Field → Option JsonValue
  | .id => record.id
  | .userId => record.userId
  | .action => record.action
  | .timestamp => record.timestamp
  | .payload => record.payload

/-- The record with another value in one field and the hash it had. -/
def AuditRecord.set (record : AuditRecord) (f : Field) (v : Option JsonValue) : AuditRecord :=
  match f with
  | .id => { record with id := v }
  | .userId => { record with userId := v }
  | .action => { record with action := v }
  | .timestamp => { record with timestamp := v }
  | .payload => { record with payload := v }

/-- A payload that is hashed as the empty object. -/
def Blank (payload : Option JsonValue) : Prop :=
  ¬ isTruthy payload ∨ payload = some .emptyObject

variable {sha256 : ByteArray → JsString}

theorem blank_iff {payload : Option JsonValue} :
    Blank payload ↔ payloadOrEmpty payload = some .emptyObject := by
  unfold Blank payloadOrEmpty
  by_cases h : isTruthy payload
  · rw [if_pos h, or_iff_right (not_not_intro h)]
  · rw [if_neg h]
    exact iff_of_true (.inl h) rfl

/-- Two payloads are hashed alike only if both are blank. -/
theorem payloadOrEmpty_eq_iff {p q : Option JsonValue} (hne : p ≠ q) :
    payloadOrEmpty p = payloadOrEmpty q ↔ Blank p ∧ Blank q := by
  have htruthy {p : Option JsonValue} (h : ¬ Blank p) : payloadOrEmpty p = p := by
    by_contra hfalsy
    exact h (.inl fun htruthy => hfalsy (if_pos htruthy))
  constructor
  · intro h
    by_cases hp : Blank p
    · exact ⟨hp, blank_iff.mpr (h.symm.trans (blank_iff.mp hp))⟩
    · by_cases hq : Blank q
      · exact ⟨blank_iff.mpr (h.trans (blank_iff.mp hq)), hq⟩
      · rw [htruthy hp, htruthy hq] at h
        exact absurd h hne
  · intro h
    rw [blank_iff.mp h.1, blank_iff.mp h.2]

theorem set_hash (record : AuditRecord) (f : Field) (v : Option JsonValue) :
    (record.set f v).hash = record.hash := by
  cases f with
  | _ => rfl

theorem canonical_keys (record : AuditRecord) (prev : Option JsonValue) :
    LiteralKeys ((record.canonical prev).map Prod.fst) := by
  have hkeys : LiteralKeys ([jsString "id", jsString "userId", jsString "action",
      jsString "timestamp", jsString "payload", jsString "prev"]) :=
    ⟨by decide +kernel, by decide +kernel⟩
  exact hkeys

theorem canonical_set {record : AuditRecord} {f : Field} {v prev : Option JsonValue}
    (hne : record.get f ≠ v) :
    record.canonical prev = (record.set f v).canonical prev ↔
      f = .payload ∧ Blank record.payload ∧ Blank v := by
  cases f with
  | payload =>
    have hpayload : record.payload ≠ v := hne
    simp [AuditRecord.canonical, AuditRecord.set, payloadOrEmpty_eq_iff hpayload]
  | _ => simpa [AuditRecord.canonical, AuditRecord.set, AuditRecord.get] using hne

/-- What the loop asks of a record. -/
def Accepted (sha256 : ByteArray → JsString) (prev : Option JsonValue) (record : AuditRecord) :
    Prop :=
  strictEquals record.hash (some (.string (computeRecordHash sha256 record prev)))

theorem verifyFrom_iff {prev : Option JsonValue} {records : List AuditRecord} :
    verifyFrom sha256 prev records ↔
      HashChain.Linked (Accepted sha256) AuditRecord.hash prev records := by
  induction records generalizing prev with
  | nil => exact iff_of_true rfl trivial
  | cons record records ih =>
    rw [HashChain.Linked, ← ih, Accepted, verifyFrom]
    cases strictEquals record.hash (some (.string (computeRecordHash sha256 record prev))) <;>
      simp

theorem verifyChain_iff {records : List AuditRecord} :
    verifyChain sha256 (some records) ↔
      HashChain.Linked (Accepted sha256) AuditRecord.hash genesis records := by
  rw [← verifyFrom_iff]
  cases records with
  | nil => exact iff_of_true rfl rfl
  | cons record records => exact Iff.rfl

theorem accepted_getElem {records : List AuditRecord} (h : verifyChain sha256 (some records))
    {i : ℕ} (hi : i < records.length) :
    Accepted sha256 (HashChain.lastHash AuditRecord.hash genesis (records.take i)) records[i] := by
  have hlinked := verifyChain_iff.mp h
  apply (HashChain.linked_set hlinked hi rfl).mp
  rw [List.set_getElem_self]
  exact hlinked

/-- An altered record is still accepted exactly if its text is the one that was hashed. -/
theorem accepted_set (collisionFree : Function.Injective sha256) {record : AuditRecord}
    {prev : Option JsonValue} (h : Accepted sha256 prev record) {f : Field}
    {v : Option JsonValue} (hne : record.get f ≠ v) :
    Accepted sha256 prev (record.set f v) ↔ f = .payload ∧ Blank record.payload ∧ Blank v := by
  have hhash : record.hash = some (.string (computeRecordHash sha256 record prev)) :=
    strictEquals_string.mp h
  have hcanonical : record.canonical (prev.orElse fun _ => genesis) =
        (record.set f v).canonical (prev.orElse fun _ => genesis) ↔
      f = .payload ∧ Blank record.payload ∧ Blank v := canonical_set hne
  rw [← hcanonical]
  unfold Accepted
  rw [strictEquals_string, set_hash, hhash, Option.some.injEq, JsonValue.string_inj]
  unfold computeRecordHash
  rw [sha256Text_inj collisionFree]
  constructor
  · exact stringifyRecord_inj (by cases f <;> rfl) (canonical_keys _ _)
  · exact congrArg stringifyRecord

/-- Every change is seen but one of a payload that was blank to another that is. -/
theorem change_detected_iff (collisionFree : Function.Injective sha256)
    {records : List AuditRecord} (h : verifyChain sha256 (some records)) {i : ℕ}
    (hi : i < records.length) (f : Field) (v : Option JsonValue)
    (hform : (records[i].get f).map JsonValue.stringify ≠ v.map JsonValue.stringify) :
    verifyChain sha256 (some (records.set i (records[i].set f v))) = false ↔
      ¬ (f = .payload ∧ Blank records[i].payload ∧ Blank v) := by
  have hne : records[i].get f ≠ v := fun heq => hform (congrArg _ heq)
  have hset : verifyChain sha256 (some (records.set i (records[i].set f v))) ↔
      f = .payload ∧ Blank records[i].payload ∧ Blank v := by
    rw [verifyChain_iff, HashChain.linked_set (verifyChain_iff.mp h) hi (set_hash _ f v)]
    exact accepted_set collisionFree (accepted_getElem h hi) hne
  rw [← hset, Bool.not_eq_true]

def zeroText : String :=
  "\x7b\"id\":1,\"userId\":\"u1\",\"action\":\"CREATE\",\"timestamp\":\"2026-06-01\"," ++
    "\"payload\":\x7b\x7d,\"prev\":\"GENESIS\"\x7d"

def zeroDigest : JsString :=
  jsString "8d8b0d8cf9c71c0eb91acd181303623533f4688a917a4536a2d6ecd52ad3af8f"

def sampleSha256 : ByteArray → JsString := knownSha256 zeroText zeroDigest

/-- A record whose payload is zero, with the hash that `computeRecordHash` gives it. -/
def zeroRecord : AuditRecord where
  id := some (.number (.ofNat 1))
  userId := some (.string (jsString "u1"))
  action := some (.string (jsString "CREATE"))
  timestamp := some (.string (jsString "2026-06-01"))
  payload := some (.number .zero)
  hash := some (.string zeroDigest)

theorem zeroRecord_verifies : verifyChain sampleSha256 (some [zeroRecord]) := by
  have htext : stringifyRecord (zeroRecord.canonical genesis) = zeroText.toList := by
    decide +kernel
  have hdigest : computeRecordHash sampleSha256 zeroRecord genesis = zeroDigest := by
    unfold computeRecordHash
    rw [show genesis.orElse (fun _ => genesis) = genesis from rfl, htext]
    exact sha256Text_known _ _
  have haccepted : Accepted sampleSha256 genesis zeroRecord := by
    unfold Accepted
    rw [hdigest]
    exact strictEquals_string.mpr rfl
  exact verifyChain_iff.mpr ⟨haccepted, trivial⟩

/-- The zero is replaced by `null` and the chain accepted as before. -/
theorem erased_payload_accepted :
    verifyChain sampleSha256 (some [zeroRecord]) = true ∧
      (zeroRecord.get .payload).map JsonValue.stringify ≠
        (some JsonValue.null).map JsonValue.stringify ∧
      verifyChain sampleSha256 (some [zeroRecord.set .payload (some .null)]) = true := by
  have herased : verifyChain sampleSha256 (some [zeroRecord.set .payload (some .null)]) =
      verifyChain sampleSha256 (some [zeroRecord]) := rfl
  rw [herased]
  exact ⟨zeroRecord_verifies, by decide, zeroRecord_verifies⟩

theorem tampered_action_detected :
    verifyChain sampleSha256
      (some [zeroRecord.set .action (some (.string (jsString "TAMPERED")))]) = false := by
  have hinj : Function.Injective sampleSha256 := knownSha256_inj (by decide +kernel)
  apply (change_detected_iff hinj zeroRecord_verifies Nat.one_pos .action _
    (by decide +kernel)).mpr
  rintro ⟨haction, _⟩
  cases haction

end AuditHasher

end TimeOff
