import TimeOff.JsonValues
import Mathlib.Data.List.DropRight

/-! `traceparent.util`: which headers are parsed, and that the headers it writes are parsed back.
Strings are their UTF-16 code units. -/
namespace TimeOff

open JsonText

structure Traceparent where
  version : JsString
  traceId : JsString
  parentId : JsString
  sampled : Bool
deriving DecidableEq

structure SpanContext where
  traceId : JsString
  spanId : JsString
  sampled : Bool
  fresh : Bool
deriving DecidableEq

/-- The bytes that `crypto.randomBytes` returns. -/
structure Buffer (n : ℕ) where
  bytes : List (Fin 256)
  length_eq : bytes.length = n

namespace Traceparent

def dash : CodeUnit := 0x2D

/-- The white space and the line ends that `trim` takes off. -/
def isBlank (u : CodeUnit) : Bool :=
  u.val ∈ [9, 10, 11, 12, 13, 32, 0xA0, 0x1680, 0x2028, 0x2029, 0x202F, 0x205F, 0x3000, 0xFEFF] ||
    (0x2000 ≤ u.val && u.val ≤ 0x200A)

def trim (s : JsString) : JsString := (s.dropWhile isBlank).rdropWhile isBlank

/-- `[0-9a-f]`. -/
def isHex (u : CodeUnit) : Bool :=
  (0x30 ≤ u.val && u.val ≤ 0x39) || (0x61 ≤ u.val && u.val ≤ 0x66)

/-- `/^[0-9a-f]{n}$/.test(part)`. -/
def hexField (n : ℕ) (part : JsString) : Bool := part.length = n && part.all isHex

/-- `'0'.repeat(n)`. -/
def zeros (n : ℕ) : JsString := List.replicate n 0x30

/-- `parseInt(flags, 16)` of lower-case hexadecimal digits. -/
def parseInt16 (flags : JsString) : ℕ :=
  flags.foldl (fun n u => 16 * n + (if u.val ≤ 0x39 then u.val - 0x30 else u.val - 0x57)) 0

/-- `none` stands for everything that is not a string. -/
def parseTraceparent (headerValue : Option JsString) : Option Traceparent :=
  match headerValue with
  | none => none
  | some headerValue =>
    if headerValue = [] then none
    else
      match (trim headerValue).splitOn dash with
      | [version, traceId, parentId, flags] =>
        if ¬ hexField 2 version then none
        else if version = jsString "ff" then none
        else if ¬ hexField 32 traceId then none
        else if traceId = zeros 32 then none
        else if ¬ hexField 16 parentId then none
        else if parentId = zeros 16 then none
        else if ¬ hexField 2 flags then none
        else some ⟨version, traceId, parentId, parseInt16 flags &&& 1 = 1⟩
      | _ => none

def VERSION : JsString := jsString "00"

def SAMPLED_FLAG : JsString := jsString "01"

def NOT_SAMPLED_FLAG : JsString := jsString "00"

def hexDigit (d : ℕ) : CodeUnit := Fin.ofNat 0x10000 (if d < 10 then 0x30 + d else 0x57 + d)

/-- `buffer.toString('hex')`. -/
def toHex {n : ℕ} (buffer : Buffer n) : JsString :=
  buffer.bytes.flatMap fun b => [hexDigit (b.val / 16), hexDigit (b.val % 16)]

/-- Four fields with dashes between them. -/
def header (version traceId parentId flags : JsString) : JsString :=
  version ++ dash :: (traceId ++ dash :: (parentId ++ dash :: flags))

def flagsOf (sampled : Bool) : JsString := if sampled then SAMPLED_FLAG else NOT_SAMPLED_FLAG

section Produce

variable (randomBytes : (n : ℕ) → Buffer n)

/-- `sampled` is `true` when it is left out. -/
def generateTraceparent (sampled : Option Bool) : JsString :=
  header VERSION (toHex (randomBytes 16)) (toHex (randomBytes 8)) (flagsOf (sampled.getD true))

def continueTrace (incomingTraceparent : Option JsString) (sampled : Option Bool) : JsString :=
  match parseTraceparent incomingTraceparent with
  | none => generateTraceparent randomBytes (some (sampled.getD true))
  | some parsed =>
    header VERSION parsed.traceId (toHex (randomBytes 8)) (flagsOf (sampled.getD parsed.sampled))

/-- `none` for the exception that reading a part of `null` throws. -/
def extractSpanContext (headerValue : Option JsString) : Option SpanContext :=
  match parseTraceparent headerValue with
  | none =>
    (parseTraceparent (some (generateTraceparent randomBytes none))).map fun freshParsed =>
      ⟨freshParsed.traceId, freshParsed.parentId, true, true⟩
  | some parsed => some ⟨parsed.traceId, parsed.parentId, parsed.sampled, false⟩

end Produce

/-- A header of version 00 to fe: hexadecimal fields of 2, 32, 16 and 2 digits with dashes between
them, neither id all zeros. -/
structure IsHeader (s v t p f : JsString) : Prop where
  text : s = header v t p f
  version : hexField 2 v = true
  known : v ≠ jsString "ff"
  traceId : hexField 32 t = true
  traceId_nonzero : t ≠ zeros 32
  parentId : hexField 16 p = true
  parentId_nonzero : p ≠ zeros 16
  flags : hexField 2 f = true

section Fields

variable {s v t p f : JsString} {n : ℕ} {u : CodeUnit}

theorem hexField_iff : hexField n s = true ↔ s.length = n ∧ ∀ u ∈ s, isHex u = true := by
  simp [hexField]

theorem dash_notMem (h : hexField n s = true) : dash ∉ s := by
  intro hdash
  exact absurd ((hexField_iff.mp h).2 dash hdash) (by decide)

theorem not_isBlank (h : isHex u = true) : isBlank u = false := by
  unfold isHex at h
  unfold isBlank
  simp only [Bool.or_eq_true, Bool.and_eq_true, decide_eq_true_eq] at h
  simp only [List.mem_cons, List.not_mem_nil, or_false, Bool.or_eq_false_iff,
    Bool.and_eq_false_iff, decide_eq_false_iff_not]
  omega

/-- Fields without a dash are what the header is split into. -/
theorem splitOn_header (hv : dash ∉ v) (ht : dash ∉ t) (hp : dash ∉ p) (hf : dash ∉ f) :
    (header v t p f).splitOn dash = [v, t, p, f] := by
  unfold header
  rw [List.splitOn_append_cons_self_of_not_mem hv, List.splitOn_append_cons_self_of_not_mem ht,
    List.splitOn_append_cons_self_of_not_mem hp, List.splitOn_eq_singleton hf]

theorem eq_header (h : s.splitOn dash = [v, t, p, f]) : s = header v t p f := by
  have hjoin : [dash].intercalate (s.splitOn dash) = s := List.intercalate_splitOn dash
  rw [← hjoin, h]
  simp [List.intercalate, header]

theorem trim_of_ends {a b : CodeUnit} {front back : JsString} (hfront : s = a :: front)
    (hback : s = back ++ [b]) (ha : isBlank a = false) (hb : isBlank b = false) : trim s = s := by
  have hdrop : s.dropWhile isBlank = s := by
    rw [hfront]
    exact List.dropWhile_cons_of_neg (by simp [ha])
  unfold trim
  rw [hdrop, hback]
  exact List.rdropWhile_concat_neg _ _ _ (by simp [hb])

/-- A header has no blanks around it. -/
theorem IsHeader.trim_eq (h : IsHeader s v t p f) : trim s = s := by
  obtain ⟨hv, hvhex⟩ := hexField_iff.mp h.version
  obtain ⟨hf, hfhex⟩ := hexField_iff.mp h.flags
  obtain ⟨a, v', rfl⟩ := List.exists_cons_of_length_eq_add_one hv
  obtain ⟨f', b, rfl⟩ : ∃ f' b, f = f' ++ [b] := by
    rcases List.eq_nil_or_concat f with rfl | ⟨f', b, rfl⟩
    · cases hf
    · exact ⟨f', b, List.concat_eq_append⟩
  have hback : s = header (a :: v') t p f' ++ [b] := by
    rw [h.text]
    simp [header]
  apply trim_of_ends h.text hback
  · exact not_isBlank (hvhex a List.mem_cons_self)
  · exact not_isBlank (hfhex b (by simp))

theorem parseTraceparent_header (h : IsHeader (trim s) v t p f) :
    parseTraceparent (some s) = some ⟨v, t, p, (parseInt16 f).testBit 0⟩ := by
  have hne : s ≠ [] := by
    rintro rfl
    have hlen := congrArg List.length h.text
    simp [trim, header] at hlen
  have hsplit : (trim s).splitOn dash = [v, t, p, f] := by
    rw [h.text]
    exact splitOn_header (dash_notMem h.version) (dash_notMem h.traceId) (dash_notMem h.parentId)
      (dash_notMem h.flags)
  have hbit : decide (parseInt16 f &&& 1 = 1) = (parseInt16 f).testBit 0 := by
    rw [Nat.testBit_zero, Nat.and_one_is_mod]
  unfold parseTraceparent
  simp only [if_neg hne, hsplit, h.version, h.known, h.traceId, h.traceId_nonzero, h.parentId,
    h.parentId_nonzero, h.flags, hbit, not_true, if_false]

theorem isHeader_of_parse {r : Traceparent} (h : parseTraceparent (some s) = some r) :
    ∃ f, IsHeader (trim s) r.version r.traceId r.parentId f := by
  have hbody := h
  unfold parseTraceparent at hbody
  obtain ⟨_, hbody⟩ := Option.ite_none_left_eq_some.mp hbody
  split at hbody
  · next v t p f hsplit =>
    simp only [Option.ite_none_left_eq_some, not_not] at hbody
    obtain ⟨hv, hff, ht, htz, hp, hpz, hf, heq⟩ := hbody
    cases heq
    exact ⟨f, eq_header hsplit, hv, hff, ht, htz, hp, hpz, hf⟩
  · cases hbody

end Fields

section Random

theorem hexDigit_facts : ∀ d < 16, isHex (hexDigit d) = true ∧ (hexDigit d = 0x30 → d = 0) := by
  decide

theorem hexField_toHex {n : ℕ} (buffer : Buffer n) : hexField (2 * n) (toHex buffer) = true := by
  apply hexField_iff.mpr
  constructor
  · unfold toHex
    rw [List.length_flatMap]
    simp [buffer.length_eq, Nat.mul_comm]
  · intro u hu
    obtain ⟨b, _, hb⟩ := List.mem_flatMap.mp hu
    have hlt := b.isLt
    rcases List.mem_cons.mp hb with rfl | hb
    · exact (hexDigit_facts _ (by omega)).1
    · rw [List.mem_singleton.mp hb]
      exact (hexDigit_facts _ (by omega)).1

/-- The digits of a byte other than zero are not both zero. -/
theorem toHex_ne_zeros {n : ℕ} {buffer : Buffer n} (h : ∃ b ∈ buffer.bytes, b ≠ 0) (m : ℕ) :
    toHex buffer ≠ zeros m := by
  intro hzeros
  obtain ⟨b, hmem, hb⟩ := h
  have hzero (u : CodeUnit) (hu : u ∈ [hexDigit (b.val / 16), hexDigit (b.val % 16)]) :
      u = 0x30 := by
    have hu' : u ∈ toHex buffer := List.mem_flatMap.mpr ⟨b, hmem, hu⟩
    rw [hzeros] at hu'
    exact List.eq_of_mem_replicate hu'
  have hlt := b.isLt
  have hhigh : b.val / 16 = 0 := (hexDigit_facts _ (by omega)).2 (hzero _ (by simp))
  have hlow : b.val % 16 = 0 := (hexDigit_facts _ (by omega)).2 (hzero _ (by simp))
  apply hb
  apply Fin.ext
  show b.val = 0
  omega

/-- What is written with a fresh parent id and the trace id of a root or of a header is a header. -/
theorem isHeader_written {t : JsString} {buffer : Buffer 8} (ht : hexField 32 t = true)
    (htz : t ≠ zeros 32) (hbuffer : ∃ b ∈ buffer.bytes, b ≠ 0) (sampled : Bool) :
    IsHeader (header VERSION t (toHex buffer) (flagsOf sampled)) VERSION t (toHex buffer)
      (flagsOf sampled) := by
  refine ⟨rfl, by decide +kernel, by decide +kernel, ht, htz, hexField_toHex buffer,
    toHex_ne_zeros hbuffer 16, ?_⟩
  cases sampled <;> decide +kernel

theorem parse_written {t : JsString} {buffer : Buffer 8} (ht : hexField 32 t = true)
    (htz : t ≠ zeros 32) (hbuffer : ∃ b ∈ buffer.bytes, b ≠ 0) (sampled : Bool) :
    parseTraceparent (some (header VERSION t (toHex buffer) (flagsOf sampled))) =
      some ⟨VERSION, t, toHex buffer, sampled⟩ := by
  have hheader := isHeader_written ht htz hbuffer sampled
  have htrimmed : IsHeader (trim (header VERSION t (toHex buffer) (flagsOf sampled))) VERSION t
      (toHex buffer) (flagsOf sampled) := by
    rw [hheader.trim_eq]
    exact hheader
  have hflag : (parseInt16 (flagsOf sampled)).testBit 0 = sampled := by
    cases sampled <;> decide +kernel
  rw [parseTraceparent_header htrimmed, hflag]

end Random

/-- A header is parsed exactly if it is four fields as they should be, into those fields; what is
generated or continued is parsed back, and what is not parsed starts a fresh root. -/
theorem traceparent_round_trips (randomBytes : (n : ℕ) → Buffer n)
    (nonzero : ∀ n, 0 < n → ∃ b ∈ (randomBytes n).bytes, b ≠ 0) :
    (∀ h, parseTraceparent (some h) ≠ none ↔ ∃ v t p f, IsHeader (trim h) v t p f) ∧
    (∀ h v t p f, IsHeader (trim h) v t p f →
      parseTraceparent (some h) = some ⟨v, t, p, (parseInt16 f).testBit 0⟩) ∧
    (∀ sampled, parseTraceparent (some (generateTraceparent randomBytes sampled)) =
      some ⟨VERSION, toHex (randomBytes 16), toHex (randomBytes 8), sampled.getD true⟩) ∧
    (∀ h parsed sampled, parseTraceparent h = some parsed →
      parseTraceparent (some (continueTrace randomBytes h sampled)) =
        some ⟨VERSION, parsed.traceId, toHex (randomBytes 8), sampled.getD parsed.sampled⟩) ∧
    ∀ h, parseTraceparent h = none →
      (∀ sampled, parseTraceparent (some (continueTrace randomBytes h sampled)) =
        some ⟨VERSION, toHex (randomBytes 16), toHex (randomBytes 8), sampled.getD true⟩) ∧
      extractSpanContext randomBytes h =
        some ⟨toHex (randomBytes 16), toHex (randomBytes 8), true, true⟩ := by
  have hgenerated (sampled : Option Bool) :
      parseTraceparent (some (generateTraceparent randomBytes sampled)) =
        some ⟨VERSION, toHex (randomBytes 16), toHex (randomBytes 8), sampled.getD true⟩ :=
    parse_written (hexField_toHex _) (toHex_ne_zeros (nonzero 16 (by decide)) 32)
      (nonzero 8 (by decide)) _
  refine ⟨fun h => ⟨?_, ?_⟩, fun h v t p f => parseTraceparent_header, hgenerated, ?_, ?_⟩
  · intro hne
    obtain ⟨r, hr⟩ := Option.ne_none_iff_exists'.mp hne
    obtain ⟨f, hf⟩ := isHeader_of_parse hr
    exact ⟨_, _, _, f, hf⟩
  · rintro ⟨v, t, p, f, hheader⟩
    rw [parseTraceparent_header hheader]
    exact Option.some_ne_none _
  · intro h parsed sampled hparsed
    cases h with
    | none => cases hparsed
    | some h =>
      obtain ⟨f, hf⟩ := isHeader_of_parse hparsed
      unfold continueTrace
      rw [hparsed]
      exact parse_written hf.traceId hf.traceId_nonzero (nonzero 8 (by decide)) _
  · intro h hnone
    constructor
    · intro sampled
      unfold continueTrace
      rw [hnone]
      exact hgenerated (some (sampled.getD true))
    · unfold extractSpanContext
      rw [hnone]
      dsimp only
      rw [hgenerated none]
      rfl

/-- A malformed header is replaced by a root with the next random ids. -/
theorem malformed_replaced : parseTraceparent (some (continueTrace
    (fun n => ⟨List.replicate n 0xab, List.length_replicate⟩) (some (jsString "bad-header"))
    none)) =
      some ⟨VERSION, (List.replicate 16 (jsString "ab")).flatten,
        (List.replicate 8 (jsString "ab")).flatten, true⟩ := by
  have hnonzero : ∀ n, 0 < n → ∃ b ∈ List.replicate n (0xab : Fin 256), b ≠ 0 :=
    fun n hn => ⟨0xab, List.mem_replicate.mpr ⟨hn.ne', rfl⟩, by decide⟩
  have hround := traceparent_round_trips
    (fun n => ⟨List.replicate n 0xab, List.length_replicate⟩) hnonzero
  exact (hround.2.2.2.2 _ (by decide +kernel)).1 none

example : parseTraceparent
    (some (jsString " 00-4bf92f3577b34da6a3ce929d0e0e4736-00f067aa0ba902b7-01")) =
      some ⟨jsString "00", jsString "4bf92f3577b34da6a3ce929d0e0e4736",
        jsString "00f067aa0ba902b7", true⟩ := by
  decide +kernel

end Traceparent
end TimeOff
