import TimeOff.JsonValues

/-! `hashObject` of the transactional store and `generateFingerprint` of the in-memory manager:
which payloads each takes for the same. -/
namespace TimeOff

open JsonText

/-- `acc[key] = value` on an object that has no such key. Assigning to `__proto__` sets the
prototype, which is no property. -/
def assign (acc : List (JsString × Value)) (field : JsString × Value) :
    List (JsString × Value) :=
  if field.1 = proto then acc else acc ++ [field]

/-- `Object.keys(obj).sort().reduce(..., {})` once the values are sorted. -/
def sortFields (fields : List (JsString × Value)) : List (JsString × Value) :=
  (sortByKey (ownOrder fields)).foldl assign []

def sortObjectKeys (obj : Value) : Value := obj.rearrange sortFields

section Hash

variable {Digest : Type} (sha256 : ByteArray → Digest)

/-- `createHash('sha256').update(text)` hashes the text in UTF-8. -/
def sha256Text (text : List Char) : Digest := sha256 (String.ofList text).toUTF8

def hashObject (obj : Value) : Digest := sha256Text sha256 (sortObjectKeys obj).stringify

/-- A string as it is encoded: half a surrogate pair becomes the replacement character. -/
def toWellFormed (s : JsString) : List Char :=
  (codePoints s).map fun c => if IsSurrogate c then Char.ofNat 0xFFFD else Char.ofNat c

/-- `payload || {}`. -/
def orEmpty : Value → Value
  | .null | .bool false | .number .zero => .object []
  | payload => payload

def generateFingerprint : Value → Digest
  | .string s => sha256Text sha256 (toWellFormed s)
  | payload => sha256Text sha256 (orEmpty payload).stringify

end Hash

theorem foldl_assign {fields : List (JsString × Value)} (acc : List (JsString × Value)) :
    fields.foldl assign acc = acc ++ fields.filter fun f => f.1 ≠ proto := by
  induction fields generalizing acc with
  | nil => exact (List.append_nil acc).symm
  | cons f fields ih =>
    rw [List.foldl_cons, ih]
    unfold assign
    by_cases hproto : f.1 = proto
    · rw [if_pos hproto, List.filter_cons_of_neg (by simp [hproto])]
    · rw [if_neg hproto, List.filter_cons_of_pos (by simp [hproto]), List.append_assoc]
      rfl

theorem sortFields_eq (fields : List (JsString × Value)) :
    sortFields fields = (sortByKey (ownOrder fields)).filter fun f => f.1 ≠ proto := by
  unfold sortFields
  rw [foldl_assign, List.nil_append]

theorem sortFields_mapValues (g : Value → Value) (fields : List (JsString × Value)) :
    sortFields (mapValues g fields) = mapValues g (sortFields fields) := by
  rw [sortFields_eq, sortFields_eq, ownOrder_mapValues, sortByKey_mapValues]
  unfold mapValues
  rw [List.filter_map]
  rfl

theorem sortFields_of_plain {fields : List (JsString × Value)} (h : PlainKeys fields) :
    sortFields fields = sortByKey (ownOrder fields) := by
  rw [sortFields_eq, List.filter_eq_self]
  intro f hf
  have hmem : f ∈ fields := (ownOrder_perm fields).mem_iff.mp ((sortByKey_perm _).mem_iff.mp hf)
  apply decide_eq_true
  rintro hproto
  exact h.no_proto (hproto ▸ List.mem_map_of_mem hmem)

/-- Sorting the keys forgets the order they were in. -/
theorem sortFields_canonical : Canonical sortFields := by
  constructor
  · intro fields h
    rw [sortFields_of_plain h]
    exact (sortByKey_perm _).trans (ownOrder_perm fields)
  · intro fs gs h hperm
    have hown : (ownOrder fs).Perm (ownOrder gs) :=
      (ownOrder_perm fs).trans (hperm.trans (ownOrder_perm gs).symm)
    rw [sortFields_of_plain h, sortFields_of_plain (h.perm hperm)]
    exact sortByKey_unique (h.perm (ownOrder_perm fs).symm).nodup hown

/-- Two values have one sorted text exactly if they are the same up to the order of keys. -/
theorem stringify_sorted_iff {p q : Value} (hp : WellKeyed p) (hq : WellKeyed q) :
    (sortObjectKeys p).stringify = (sortObjectKeys q).stringify ↔ Same p q := by
  rw [Value.stringify_inj]
  unfold Value.ordered sortObjectKeys
  rw [Value.rearrange_rearrange sortFields_mapValues,
    Value.rearrange_rearrange sortFields_mapValues]
  exact rearrange_eq_iff_same sortFields_canonical.ownOrder_comp hp hq

variable {Digest : Type} {sha256 : ByteArray → Digest}

theorem sha256Text_inj (collisionFree : Function.Injective sha256) {t t' : List Char} :
    sha256Text sha256 t = sha256Text sha256 t' ↔ t = t' := by
  constructor
  · intro h
    have hbytes : (String.ofList t).toUTF8 = (String.ofList t').toUTF8 := collisionFree h
    rw [String.toUTF8_eq_toByteArray, String.toUTF8_eq_toByteArray,
      String.toByteArray_inj] at hbytes
    exact String.ofList_injective hbytes
  · exact congrArg _

/-- The stored hash tells payloads apart exactly up to the order of their keys. -/
theorem hash_eq_iff_same (collisionFree : Function.Injective sha256) {p q : Value}
    (hp : WellKeyed p) (hq : WellKeyed q) :
    hashObject sha256 p = hashObject sha256 q ↔ Same p q :=
  (sha256Text_inj collisionFree).trans (stringify_sorted_iff hp hq)

/-- The body of a request, and the same body from a client that orders its keys otherwise. -/
def firstBody : List (JsString × Value) :=
  [(jsString "employeeId", .string (jsString "e1")),
    (jsString "days", .number (.decimal ⟨false, 15, 1, by decide⟩))]

def retriedBody : List (JsString × Value) := firstBody.reverse

theorem firstBody_keyed : WellKeyed (.object firstBody) :=
  .object ⟨by decide +kernel, by decide +kernel⟩
    (List.forall_mem_cons.mpr ⟨.string _, List.forall_mem_singleton.mpr (.number _)⟩)

theorem retriedBody_keyed : WellKeyed (.object retriedBody) :=
  .object ⟨by decide +kernel, by decide +kernel⟩
    (List.forall_mem_cons.mpr ⟨.number _, List.forall_mem_singleton.mpr (.string _)⟩)

theorem same_bodies : Same (.object firstBody) (.object retriedBody) :=
  .object (.cons (.string _) (.cons (.number _) .nil)) (List.reverse_perm _).symm

theorem retried_hashed_alike :
    hashObject (id : ByteArray → ByteArray) (.object firstBody) =
      hashObject (id : ByteArray → ByteArray) (.object retriedBody) :=
  (hash_eq_iff_same Function.injective_id firstBody_keyed retriedBody_keyed).mpr same_bodies

/-- The fingerprint of the manager agrees with the stored hash exactly on payloads that differ
in more than the order of keys, or not in that either. -/
theorem fingerprints_agree_iff (collisionFree : Function.Injective sha256)
    {p q : List (JsString × Value)} (hp : WellKeyed (.object p)) (hq : WellKeyed (.object q)) :
    (generateFingerprint sha256 (.object p) = generateFingerprint sha256 (.object q) ↔
        hashObject sha256 (.object p) = hashObject sha256 (.object q)) ↔
      (Same (.object p) (.object q) → (Value.object p).ordered = (Value.object q).ordered) := by
  -- without collisions the digests agree exactly when the texts do
  have hfingerprint : generateFingerprint sha256 (.object p) =
      generateFingerprint sha256 (.object q) ↔
        (Value.object p).ordered = (Value.object q).ordered :=
    (sha256Text_inj collisionFree).trans Value.stringify_inj
  have hhash : hashObject sha256 (.object p) = hashObject sha256 (.object q) ↔
      Same (.object p) (.object q) :=
    (sha256Text_inj collisionFree).trans (stringify_sorted_iff hp hq)
  rw [hfingerprint, hhash]
  constructor
  · exact Iff.mpr
  · intro h
    constructor
    · exact same_of_ordered sortFields_canonical hp hq
    · exact h

/-- Array indices are listed in ascending order, whichever was set first. -/
def indexBody : List (JsString × Value) := [(jsString "10", .null), (jsString "9", .null)]

theorem indexBody_keyed {fields : List (JsString × Value)} (h : indexBody.Perm fields) :
    WellKeyed (.object fields) := by
  have hkeys : PlainKeys indexBody := ⟨by decide +kernel, by decide +kernel⟩
  have hvalues : ∀ f ∈ indexBody, WellKeyed f.2 :=
    List.forall_mem_cons.mpr ⟨.null, List.forall_mem_singleton.mpr .null⟩
  exact .object (hkeys.perm h) fun f hf => hvalues f (h.mem_iff.mpr hf)

theorem indices_fingerprinted_alike :
    generateFingerprint (id : ByteArray → ByteArray) (.object indexBody) =
        generateFingerprint (id : ByteArray → ByteArray) (.object indexBody.reverse) ↔
      hashObject (id : ByteArray → ByteArray) (.object indexBody) =
        hashObject (id : ByteArray → ByteArray) (.object indexBody.reverse) := by
  apply (fingerprints_agree_iff Function.injective_id (indexBody_keyed (.refl _))
    (indexBody_keyed (List.reverse_perm _).symm)).mpr
  intro _
  apply Value.stringify_inj.mp
  decide +kernel

/-- The retry has the fingerprint of another payload and the hash of the first. -/
theorem retried_fingerprinted_apart :
    ¬ (generateFingerprint (id : ByteArray → ByteArray) (.object firstBody) =
        generateFingerprint (id : ByteArray → ByteArray) (.object retriedBody) ↔
      hashObject (id : ByteArray → ByteArray) (.object firstBody) =
        hashObject (id : ByteArray → ByteArray) (.object retriedBody)) := by
  intro hagree
  have hhash : hashObject (id : ByteArray → ByteArray) (.object firstBody) =
      hashObject (id : ByteArray → ByteArray) (.object retriedBody) :=
    congrArg (sha256Text id)
      ((stringify_sorted_iff firstBody_keyed retriedBody_keyed).mpr same_bodies)
  have htext : (Value.object firstBody).stringify = (Value.object retriedBody).stringify :=
    (sha256Text_inj Function.injective_id).mp (hagree.mpr hhash)
  revert htext
  decide +kernel

/-- A hash that is known at one text: of any other it is a mark with the bytes themselves. -/
def knownSha256 (text : String) (digest : JsString) (bytes : ByteArray) : JsString :=
  if bytes.data = text.toUTF8.data then digest
  else 0x78 :: bytes.data.toList.map fun b => Fin.ofNat 0x10000 b.toNat

theorem knownSha256_inj {text : String} {digest : JsString} (hmark : digest.head? ≠ some 0x78) :
    Function.Injective (knownSha256 text digest) := by
  have hbyte : Function.Injective fun b : UInt8 => Fin.ofNat 0x10000 b.toNat := by
    intro b c h
    have hval : b.toNat % 0x10000 = c.toNat % 0x10000 := congrArg Fin.val h
    have hb : b.toNat < 256 := b.toNat_lt
    have hc : c.toNat < 256 := c.toNat_lt
    exact UInt8.toNat_inj.mp (by omega)
  intro bytes bytes' h
  unfold knownSha256 at h
  by_cases hknown : bytes.data = text.toUTF8.data
  · by_cases hknown' : bytes'.data = text.toUTF8.data
    · exact ByteArray.ext (hknown.trans hknown'.symm)
    · rw [if_pos hknown, if_neg hknown'] at h
      exact absurd (congrArg List.head? h) hmark
  · by_cases hknown' : bytes'.data = text.toUTF8.data
    · rw [if_neg hknown, if_pos hknown'] at h
      exact absurd (congrArg List.head? h).symm hmark
    · rw [if_neg hknown, if_neg hknown'] at h
      have hlist : bytes.data.toList = bytes'.data.toList :=
        List.map_injective_iff.mpr hbyte (List.cons.inj h).2
      exact ByteArray.ext (Array.toList_inj.mp hlist)

theorem sha256Text_known (text : String) (digest : JsString) :
    sha256Text (knownSha256 text digest) text.toList = digest := by
  unfold sha256Text
  rw [String.ofList_toList]
  exact if_pos rfl

end TimeOff
