import TimeOff.HashChain
import TimeOff.JsonRecords
import TimeOff.PayloadHash

/-! The append-only ledger of balance mutations, each entry linked to the one before it. -/
namespace TimeOff

open JsonText

namespace AuditLedger

structure Entry where
  index : Option JsonValue
  previousHash : Option JsonValue
  timestamp : Option JsonValue
  employeeId : Option JsonValue
  mutation : Option JsonValue
  reason : Option JsonValue
  hash : Option JsonValue

/-- What `hashEntry` puts into the text of an entry. -/
def Entry.payload (entry : Entry) : Record :=
  [(jsString "index", entry.index), (jsString "previousHash", entry.previousHash),
    (jsString "timestamp", entry.timestamp), (jsString "employeeId", entry.employeeId),
    (jsString "mutation", entry.mutation), (jsString "reason", entry.reason)]

/-- `'0'.repeat(64)`. -/
def zeros : JsString := List.replicate 64 0x30

section Code

-- the digest in hex
variable (sha256 : ByteArray → JsString)

def hashEntry (entry : Entry) : JsString := sha256Text sha256 (stringifyRecord entry.payload)

/-- The arguments of `append` and what the clock shows. -/
structure Append where
  employeeId : Option JsonValue
  mutation : Option JsonValue
  reason : Option JsonValue
  now : ℕ

/-- The hash of the last entry, or the one that a chain begins from. -/
def previousHash (chain : List Entry) : Option JsonValue :=
  match chain.getLast? with
  | some entry => entry.hash
  | none => some (.string zeros)

def isString : Option JsonValue → Bool
  | some v => match v.val with
    | .string _ => true
    | _ => false
  | none => false

def newEntry (chain : List Entry) (a : Append) : Entry :=
  let entry : Entry :=
    { index := some (.number (.ofNat chain.length)),
      previousHash := previousHash chain,
      timestamp := some (.number (.ofNat a.now)),
      employeeId := a.employeeId,
      mutation := a.mutation,
      reason := if isTruthy a.reason then a.reason else some (.string (jsString "UNSPECIFIED")),
      hash := some .null }
  { entry with hash := some (.string (hashEntry sha256 entry)) }

inductive TypeError
  | employeeId (message : String)
deriving DecidableEq

def append (chain : List Entry) (a : Append) : Except TypeError (List Entry) :=
  if !isTruthy a.employeeId || !isString a.employeeId then
    .error (.employeeId "employeeId must be a non-empty string")
  else .ok (chain ++ [newEntry sha256 chain a])

/-- The ledger after some calls; one that throws has pushed nothing. -/
def ledger (calls : List Append) : List Entry :=
  calls.foldl (fun chain a => (append sha256 chain a).toOption.getD chain) []

/-- The loop of `verifyIntegrity` from an entry whose predecessor has hash `expectedPrev`. -/
def verifyFrom (expectedPrev : Option JsonValue) : List Entry → Bool
  | [] => true
  | entry :: rest =>
    if !strictEquals entry.previousHash expectedPrev then false
    else if !strictEquals entry.hash (some (.string (hashEntry sha256 entry))) then false
    else verifyFrom entry.hash rest

def verifyIntegrity (chain : List Entry) : Bool := verifyFrom sha256 (some (.string zeros)) chain

end Code

variable {sha256 : ByteArray → JsString}

/-- What the loop asks of an entry. -/
def Accepted (sha256 : ByteArray → JsString) (prev : Option JsonValue) (entry : Entry) : Prop :=
  strictEquals entry.previousHash prev ∧
    strictEquals entry.hash (some (.string (hashEntry sha256 entry)))

theorem verifyFrom_iff {prev : Option JsonValue} {chain : List Entry} :
    verifyFrom sha256 prev chain ↔ HashChain.Linked (Accepted sha256) Entry.hash prev chain := by
  induction chain generalizing prev with
  | nil => exact iff_of_true rfl trivial
  | cons entry rest ih =>
    rw [HashChain.Linked, ← ih, Accepted, verifyFrom]
    cases strictEquals entry.previousHash prev <;>
      cases strictEquals entry.hash (some (.string (hashEntry sha256 entry))) <;> simp

theorem Accepted.hash_eq {prev : Option JsonValue} {entry : Entry}
    (h : Accepted sha256 prev entry) : entry.hash = some (.string (hashEntry sha256 entry)) :=
  strictEquals_string.mp h.2

theorem lastHash_eq (chain : List Entry) :
    HashChain.lastHash Entry.hash (some (.string zeros)) chain = previousHash chain := by
  unfold HashChain.lastHash previousHash
  cases chain.getLast? with
  | none => rfl
  | some entry => rfl

theorem verifyIntegrity_append {chain : List Entry} {entry : Entry} :
    verifyIntegrity sha256 (chain ++ [entry]) ↔
      verifyIntegrity sha256 chain ∧ Accepted sha256 (previousHash chain) entry := by
  unfold verifyIntegrity
  rw [verifyFrom_iff, verifyFrom_iff, HashChain.linked_concat, lastHash_eq]

/-- The next entry is linked to a text, which is what `===` can tell apart. -/
theorem previousHash_text {chain : List Entry} (h : verifyIntegrity sha256 chain) :
    ∃ text, previousHash chain = some (.string text) := by
  rcases chain.eq_nil_or_concat' with rfl | ⟨before, entry, rfl⟩
  · exact ⟨zeros, rfl⟩
  · have hlast : previousHash (before ++ [entry]) = entry.hash := by
      rw [← lastHash_eq, HashChain.lastHash_concat]
    have haccepted : Accepted sha256 (previousHash before) entry :=
      (verifyIntegrity_append.mp h).2
    exact ⟨hashEntry sha256 entry, hlast.trans haccepted.hash_eq⟩

theorem newEntry_accepted {chain : List Entry} (h : verifyIntegrity sha256 chain) (a : Append) :
    Accepted sha256 (previousHash chain) (newEntry sha256 chain a) := by
  obtain ⟨text, htext⟩ := previousHash_text h
  constructor
  · show strictEquals (previousHash chain) (previousHash chain)
    rw [htext]
    exact strictEquals_string.mpr rfl
  · exact strictEquals_string.mpr rfl

theorem ledger_verifies (calls : List Append) :
    verifyIntegrity sha256 (ledger sha256 calls) := by
  induction calls using List.reverseRecOn with
  | nil => rfl
  | append_singleton calls a ih =>
    unfold ledger at ih ⊢
    rw [List.foldl_append, List.foldl_cons, List.foldl_nil]
    unfold append
    split
    -- a refused call leaves the chain as it was
    · exact ih
    · exact verifyIntegrity_append.mpr ⟨ih, newEntry_accepted ih a⟩

theorem payload_keys (entry : Entry) : LiteralKeys (entry.payload.map Prod.fst) := by
  have hkeys : LiteralKeys ([jsString "index", jsString "previousHash", jsString "timestamp",
      jsString "employeeId", jsString "mutation", jsString "reason"]) :=
    ⟨by decide +kernel, by decide +kernel⟩
  exact hkeys

/-- Entries with one hash agree in every field that is hashed. -/
theorem payload_of_hashEntry (collisionFree : Function.Injective sha256) {e e' : Entry}
    (h : hashEntry sha256 e = hashEntry sha256 e') : e.payload = e'.payload :=
  stringifyRecord_inj rfl (payload_keys e) ((sha256Text_inj collisionFree).mp h)

theorem eq_of_payload {e e' : Entry} (h : e.payload = e'.payload) (hhash : e.hash = e'.hash) :
    e = e' := by
  obtain ⟨index, previousHash, timestamp, employeeId, mutation, reason, hash⟩ := e
  obtain ⟨index', previousHash', timestamp', employeeId', mutation', reason', hash'⟩ := e'
  simp only [Entry.payload, List.cons.injEq, Prod.mk.injEq, true_and, and_true] at h
  obtain ⟨rfl, rfl, rfl, rfl, rfl, rfl⟩ := h
  rw [show hash = hash' from hhash]

theorem accepted_commits (collisionFree : Function.Injective sha256)
    (p p' : Option JsonValue) (e e' : Entry) (h : Accepted sha256 p e)
    (h' : Accepted sha256 p' e') (hhash : e.hash = e'.hash) : p = p' ∧ e = e' := by
  have hdigest : hashEntry sha256 e = hashEntry sha256 e' := by
    rw [h.hash_eq, h'.hash_eq] at hhash
    exact JsonValue.string_inj.mp (Option.some.inj hhash)
  have heq : e = e' := eq_of_payload (payload_of_hashEntry collisionFree hdigest) hhash
  have hprev : e.previousHash = p := eq_of_strictEquals h.1
  have hprev' : e'.previousHash = p' := eq_of_strictEquals h'.1
  exact ⟨by rw [← hprev, ← hprev', heq], heq⟩

/-- Every ledger verifies, and of two that verify the last hash fixes all of the entries. -/
theorem tamper_evident (collisionFree : Function.Injective sha256)
    (neverZeros : ∀ bytes, sha256 bytes ≠ zeros) :
    (∀ calls, verifyIntegrity sha256 (ledger sha256 calls)) ∧
      ∀ chain chain' : List Entry, chain ≠ [] → chain' ≠ [] →
        verifyIntegrity sha256 chain → verifyIntegrity sha256 chain' →
        chain.getLast?.map Entry.hash = chain'.getLast?.map Entry.hash →
        chain.length = chain'.length ∧ chain = chain' := by
  constructor
  · exact ledger_verifies
  · intro chain chain' _ _ h h' hlast
    have hfresh : ∀ p e, Accepted sha256 p e → e.hash ≠ some (.string zeros) := by
      intro p e haccepted hzeros
      rw [haccepted.hash_eq] at hzeros
      exact neverZeros _ (JsonValue.string_inj.mp (Option.some.inj hzeros))
    have heq : chain = chain' := by
      apply HashChain.eq_of_lastHash (accepted_commits collisionFree) hfresh
        (verifyFrom_iff.mp h) (verifyFrom_iff.mp h')
      unfold HashChain.lastHash
      rw [hlast]
    exact ⟨congrArg List.length heq, heq⟩

def firstAppend : Append where
  employeeId := some (.string (jsString "EMP-001"))
  mutation := some ⟨.object [(jsString "delta", .number (.decimal ⟨true, 2, 1, by decide⟩))], rfl⟩
  reason := none
  now := 1767225600000

def firstText : String :=
  "\x7b\"index\":0,\"previousHash\":\"" ++ String.ofList (List.replicate 64 '0') ++
    "\",\"timestamp\":1767225600000,\"employeeId\":\"EMP-001\"," ++
    "\"mutation\":\x7b\"delta\":-2\x7d,\"reason\":\"UNSPECIFIED\"\x7d"

def firstDigest : JsString :=
  jsString "5067f2e95c63809fdb5a2836e3d718fc4339226a2b3dfeb1e256f43f76d97c14"

def sampleSha256 : ByteArray → JsString := knownSha256 firstText firstDigest

theorem sampleSha256_ne_zeros (bytes : ByteArray) : sampleSha256 bytes ≠ zeros := by
  intro h
  have hhead : (sampleSha256 bytes).head? = some 0x30 := congrArg List.head? h
  unfold sampleSha256 knownSha256 at hhead
  split at hhead
  · exact absurd hhead (by decide +kernel)
  · exact absurd (Option.some.inj hhead) (by decide)

theorem firstAppend_text :
    stringifyRecord (newEntry sampleSha256 [] firstAppend).payload = firstText.toList := by
  decide +kernel

theorem firstAppend_hashed : (newEntry sampleSha256 [] firstAppend).hash =
    some (.string firstDigest) := by
  have hdigest : hashEntry sampleSha256 (newEntry sampleSha256 [] firstAppend) = firstDigest := by
    unfold hashEntry
    rw [firstAppend_text]
    exact sha256Text_known _ _
  exact congrArg (fun text => some (JsonValue.string text)) hdigest

/-- The first entry after its reason was edited, its hash left as it was. -/
def edited : Entry :=
  { newEntry sampleSha256 [] firstAppend with reason := some (.string (jsString "ACCRUAL")) }

def secondAppend : Append :=
  { firstAppend with reason := some (.string (jsString "MANUAL")), now := 1767225601000 }

/-- The second entry is linked to the first, edited or not. -/
theorem edit_evident :
    verifyIntegrity sampleSha256 (ledger sampleSha256 [firstAppend, secondAppend]) ∧
      (ledger sampleSha256 [firstAppend, secondAppend]).map Entry.previousHash =
        [some (.string zeros), some (.string firstDigest)] ∧
      ¬ verifyIntegrity sampleSha256
        [edited, newEntry sampleSha256 [newEntry sampleSha256 [] firstAppend] secondAppend] := by
  have hledger : ledger sampleSha256 [firstAppend, secondAppend] =
      [newEntry sampleSha256 [] firstAppend,
        newEntry sampleSha256 [newEntry sampleSha256 [] firstAppend] secondAppend] := rfl
  have hinj : Function.Injective sampleSha256 := knownSha256_inj (by decide +kernel)
  have h := tamper_evident hinj sampleSha256_ne_zeros
  refine ⟨h.1 [firstAppend, secondAppend], ?_, ?_⟩
  · rw [hledger]
    exact congrArg (fun hash => [some (.string zeros), hash]) firstAppend_hashed
  · intro hedited
    -- the hash of the last entry is that of the ledger, so the first entries would agree
    have hsame := (h.2 _ [edited, _] (by rw [hledger]; exact List.cons_ne_nil _ _)
      (List.cons_ne_nil _ _) (h.1 [firstAppend, secondAppend]) hedited (by rw [hledger]; rfl)).2
    rw [hledger] at hsame
    have hreason : (newEntry sampleSha256 [] firstAppend).reason = edited.reason :=
      congrArg Entry.reason (List.cons.inj hsame).1
    have htext : jsString "UNSPECIFIED" = jsString "ACCRUAL" :=
      JsonValue.string_inj.mp (Option.some.inj hreason)
    exact absurd htext (by decide +kernel)

end AuditLedger

end TimeOff
