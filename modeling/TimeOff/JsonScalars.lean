import Mathlib.Data.List.Basic
import Mathlib.Data.List.TakeWhile
import Mathlib.Data.Fin.Basic
import Mathlib.Tactic.Common
import Mathlib.Tactic.Ring
import Mathlib.Data.Nat.Prime.Basic

/-! The strings and the finite numbers of ECMAScript, and the texts that `JSON.stringify` writes
for them. A text read off the front of a longer one gives the scalar back. -/
namespace JsonText

section Strings

abbrev CodeUnit := Fin 0x10000

instance codeUnitCount_neZero : NeZero 0x10000 := ⟨by decide⟩

/-- A string is its UTF-16 code units, paired surrogates or not. -/
abbrev JsString := List CodeUnit

def IsLead (u : ℕ) : Prop := 0xD800 ≤ u ∧ u < 0xDC00

def IsTrail (u : ℕ) : Prop := 0xDC00 ≤ u ∧ u < 0xE000

def IsSurrogate (c : ℕ) : Prop := 0xD800 ≤ c ∧ c < 0xE000

instance (u : ℕ) : Decidable (IsLead u) := inferInstanceAs (Decidable (_ ∧ _))

instance (u : ℕ) : Decidable (IsTrail u) := inferInstanceAs (Decidable (_ ∧ _))

instance (c : ℕ) : Decidable (IsSurrogate c) := inferInstanceAs (Decidable (_ ∧ _))

/-- `StringToCodePoints`; a surrogate without its other half is a code point of its own. -/
def codePoints : JsString → List ℕ
  | [] => []
  | [u] => [u.val]
  | u :: v :: rest =>
    if IsLead u ∧ IsTrail v then
      (0x10000 + (u.val - 0xD800) * 0x400 + (v.val - 0xDC00)) :: codePoints rest
    else u.val :: codePoints (v :: rest)

/-- `UTF16EncodeCodePoint`. -/
def codeUnits (c : ℕ) : List ℕ :=
  if c < 0x10000 then [c]
  else [0xD800 + (c - 0x10000) / 0x400, 0xDC00 + (c - 0x10000) % 0x400]

def escapes : List (ℕ × Char) :=
  [(0x08, 'b'), (0x09, 't'), (0x0A, 'n'), (0x0C, 'f'), (0x0D, 'r'), (0x22, '"'), (0x5C, '\\')]

def unicodeEscape (c : ℕ) : List Char :=
  ['\\', 'u', (c / 0x1000 % 0x10).digitChar, (c / 0x100 % 0x10).digitChar,
    (c / 0x10 % 0x10).digitChar, (c % 0x10).digitChar]

def escape (c : ℕ) : List Char :=
  match escapes.lookup c with
  | some letter => ['\\', letter]
  | none => if c < 0x20 ∨ IsSurrogate c then unicodeEscape c else [Char.ofNat c]

/-- `QuoteJSONString`. -/
def quote (s : JsString) : List Char :=
  '"' :: (codePoints s).flatMap escape ++ ['"']

theorem codePoints_units (s : JsString) :
    (codePoints s).flatMap codeUnits = s.map Fin.val := by
  fun_induction codePoints s with
  | case1 => rfl
  | case2 u => simp [codeUnits]
  -- a surrogate pair, as one code point above the basic plane
  | case3 u v rest hpair ih =>
    obtain ⟨⟨hu, hu'⟩, hv, hv'⟩ := hpair
    have hpairUnits : codeUnits (0x10000 + (u.val - 0xD800) * 0x400 + (v.val - 0xDC00)) =
        [u.val, v.val] := by
      have hlead : 0xD800 + (0x10000 + (u.val - 0xD800) * 0x400 + (v.val - 0xDC00) - 0x10000) /
          0x400 = u.val := by omega
      have htrail : 0xDC00 + (0x10000 + (u.val - 0xD800) * 0x400 + (v.val - 0xDC00) - 0x10000) %
          0x400 = v.val := by omega
      unfold codeUnits
      rw [if_neg (by omega), hlead, htrail]
    rw [List.flatMap_cons, ih, hpairUnits]
    rfl
  -- a lone surrogate is a code point of its own
  | case4 u v rest _ ih =>
    rw [List.flatMap_cons, ih]
    simp [codeUnits]

theorem codePoints_inj {s t : JsString} (h : codePoints s = codePoints t) : s = t := by
  have hunits : s.map Fin.val = t.map Fin.val := by
    rw [← codePoints_units s, ← codePoints_units t, h]
  exact List.map_injective_iff.mpr Fin.val_injective hunits

theorem codePoints_lt (s : JsString) : ∀ c ∈ codePoints s, c < 0x110000 := by
  fun_induction codePoints s with
  | case1 => simp
  | case2 u =>
    intro c hc
    have hu : u.val < 0x10000 := u.isLt
    have heq : c = u.val := List.mem_singleton.mp hc
    omega
  -- the two halves of a pair are bounded by its test
  | case3 u v rest hpair ih =>
    obtain ⟨⟨hu, hu'⟩, hv, hv'⟩ := hpair
    intro c hc
    rcases List.mem_cons.mp hc with heq | hrest
    · omega
    · exact ih c hrest
  | case4 u v rest _ ih =>
    intro c hc
    have hu : u.val < 0x10000 := u.isLt
    rcases List.mem_cons.mp hc with heq | hrest
    · omega
    · exact ih c hrest

theorem toNat_ofNat {c : ℕ} (hlt : c < 0x110000) (hs : ¬ IsSurrogate c) :
    (Char.ofNat c).toNat = c := by
  have hvalid : c.isValidChar := by
    unfold IsSurrogate at hs
    by_cases hlow : c < 0xD800
    · exact .inl hlow
    · exact .inr ⟨by omega, hlt⟩
  unfold Char.ofNat
  rw [dif_pos hvalid]
  rfl

/-- The value of a hexadecimal digit. -/
def hexValue (c : Char) : ℕ := "0123456789abcdef".toList.idxOf c

theorem hexValue_digitChar : ∀ d < 16, hexValue d.digitChar = d := by
  decide

/-- The code point at the head of the inside of a quoted string, and what comes after it. -/
def readCodePoint : List Char → Option (ℕ × List Char)
  | '\\' :: 'u' :: a :: b :: c :: d :: rest =>
    some (hexValue a * 0x1000 + hexValue b * 0x100 + hexValue c * 0x10 + hexValue d, rest)
  | '\\' :: letter :: rest => (escapes.find? (·.2 = letter)).map fun e => (e.1, rest)
  | c :: rest => some (c.toNat, rest)
  | [] => none

theorem escapes_letters : ∀ e ∈ escapes,
    e.2 ≠ 'u' ∧ escapes.find? (·.2 = e.2) = some e := by
  decide

theorem hexDigits {c : ℕ} (hc : c < 0x10000) :
    c / 0x1000 % 0x10 * 0x1000 + c / 0x100 % 0x10 * 0x100 + c / 0x10 % 0x10 * 0x10 +
      c % 0x10 = c := by
  omega

theorem read_unicodeEscape {c : ℕ} (hc : c < 0x10000) (rest : List Char) :
    readCodePoint (unicodeEscape c ++ rest) = some (c, rest) := by
  have hdigit (n : ℕ) : hexValue (n % 0x10).digitChar = n % 0x10 :=
    hexValue_digitChar _ (Nat.mod_lt n (by decide))
  show some (_, rest) = _
  rw [hdigit, hdigit, hdigit, hdigit, hexDigits hc]

theorem read_escape {c : ℕ} (hc : c < 0x110000) (rest : List Char) :
    readCodePoint (escape c ++ rest) = some (c, rest) := by
  unfold escape
  -- a short escape, a `\u` escape, or the character itself
  cases hletter : escapes.lookup c with
  | some letter =>
    have hmem : (c, letter) ∈ escapes := by
      obtain ⟨before, after, heq, _⟩ := List.lookup_eq_some_iff.mp hletter
      rw [heq]
      exact List.mem_append_right before List.mem_cons_self
    obtain ⟨hu, hfind⟩ := escapes_letters _ hmem
    show readCodePoint ('\\' :: letter :: rest) = _
    rw [readCodePoint]
    · rw [hfind]
      rfl
    · intro a b d e r heq _
      exact hu heq
  | none =>
    dsimp only
    by_cases hescaped : c < 0x20 ∨ IsSurrogate c
    · rw [if_pos hescaped]
      apply read_unicodeEscape
      unfold IsSurrogate at hescaped
      omega
    · rw [if_neg hescaped]
      have hnat : (Char.ofNat c).toNat = c :=
        toNat_ofNat hc fun hs => hescaped (.inr hs)
      have hslash : Char.ofNat c ≠ '\\' := by
        intro heq
        rw [heq] at hnat
        rw [← hnat] at hletter
        exact absurd hletter (by decide)
      show readCodePoint (Char.ofNat c :: rest) = _
      rw [readCodePoint]
      · rw [hnat]
      · exact fun a b d e r heq _ => hslash heq
      · exact fun letter r heq _ => hslash heq

/-- Where each text can be read off the front of a longer one and none begins with the mark that
ends the list, the texts of a list can be read off. -/
theorem flatMap_reads {α : Type} {text : α → List Char} {stop : Char} {P : α → Prop}
    (hread : ∀ a b, P a → P b → ∀ r r', text a ++ r = text b ++ r' → a = b ∧ r = r')
    (hstop : ∀ a, P a → ∀ r r', text a ++ r ≠ stop :: r') {as bs : List α}
    (ha : ∀ a ∈ as, P a) (hb : ∀ b ∈ bs, P b) {r r' : List Char}
    (h : as.flatMap text ++ stop :: r = bs.flatMap text ++ stop :: r') : as = bs ∧ r = r' := by
  -- the two lists end together, as no item begins with `stop`
  induction as generalizing bs with
  | nil =>
    cases bs with
    | nil => exact ⟨rfl, (List.cons.inj h).2⟩
    | cons b bs =>
      rw [List.flatMap_cons, List.append_assoc] at h
      exact absurd h.symm (hstop b (hb b List.mem_cons_self) _ _)
  | cons a as ih =>
    cases bs with
    | nil =>
      rw [List.flatMap_cons, List.append_assoc] at h
      exact absurd h (hstop a (ha a List.mem_cons_self) _ _)
    | cons b bs =>
      rw [List.flatMap_cons, List.append_assoc, List.flatMap_cons, List.append_assoc] at h
      obtain ⟨rfl, htail⟩ := hread a b (ha a List.mem_cons_self) (hb b List.mem_cons_self) _ _ h
      obtain ⟨rfl, hrest⟩ := ih (fun c hc => ha c (List.mem_cons_of_mem _ hc))
        (fun c hc => hb c (List.mem_cons_of_mem _ hc)) htail
      exact ⟨rfl, hrest⟩

theorem escape_reads {c d : ℕ} (hc : c < 0x110000) (hd : d < 0x110000) {r r' : List Char}
    (h : escape c ++ r = escape d ++ r') : c = d ∧ r = r' := by
  have hsame : some (c, r) = some (d, r') := by
    rw [← read_escape hc, ← read_escape hd, h]
  exact Prod.mk.inj (Option.some.inj hsame)

theorem escape_ne_quote {c : ℕ} (hc : c < 0x110000) (r r' : List Char) :
    escape c ++ r ≠ '"' :: r' := by
  intro h
  have hread : readCodePoint (escape c ++ r) = some (0x22, r') := by
    rw [h]
    rfl
  rw [read_escape hc] at hread
  obtain ⟨rfl, _⟩ := Prod.mk.inj (Option.some.inj hread)
  -- the quotation mark itself is written with a backslash
  cases h

theorem quote_reads {s t : JsString} {r r' : List Char} (h : quote s ++ r = quote t ++ r') :
    s = t ∧ r = r' := by
  unfold quote at h
  rw [List.cons_append, List.cons_append, List.append_assoc, List.append_assoc] at h
  obtain ⟨hpoints, hrest⟩ := flatMap_reads (fun a b ha hb r r' => escape_reads ha hb)
    (fun a ha => escape_ne_quote ha) (codePoints_lt s) (codePoints_lt t) (List.cons.inj h).2
  exact ⟨codePoints_inj hpoints, hrest⟩

end Strings

section Numbers

/-- A finite number other than zero, by what `Number::toString` takes of it: `s * 10 ^ (n - k)`,
where `k` is the number of digits of `s`, is the shortest decimal that is read back as it. -/
structure Decimal where
  negative : Bool
  s : ℕ
  n : ℤ
  shortest : ¬ 10 ∣ s

/-- `-0` is the same number as `0` and has the same text. -/
inductive Number
  | zero
  | decimal (x : Decimal)

namespace Decimal

variable (x : Decimal)

def digits : List Char := Nat.toDigits 10 x.s

def k : ℕ := x.digits.length

/-- The digits with a point after the first, if there are others. -/
def mantissa : List Char :=
  if x.k = 1 then x.digits else x.digits.take 1 ++ '.' :: x.digits.drop 1

/-- The text without its sign. -/
def magnitude : List Char :=
  if -5 ≤ x.n ∧ x.n ≤ 21 then
    if x.k ≤ x.n then x.digits ++ List.replicate (x.n - x.k).toNat '0'
    else if 0 < x.n then x.digits.take x.n.toNat ++ '.' :: x.digits.drop x.n.toNat
    else '0' :: '.' :: List.replicate (-x.n).toNat '0' ++ x.digits
  else
    x.mantissa ++ 'e' :: (if x.n < 0 then '-' else '+') :: Nat.toDigits 10 (x.n - 1).natAbs

/-- `Number::toString`. -/
def text : List Char := if x.negative then '-' :: x.magnitude else x.magnitude

end Decimal

def Number.text : Number → List Char
  | .zero => ['0']
  | .decimal x => x.text

example : (Number.decimal ⟨false, 125, 2, by decide⟩).text = "12.5".toList ∧
    (Number.decimal ⟨true, 1, -6, by decide⟩).text = "-1e-7".toList := by decide

def isNumberChar (c : Char) : Bool :=
  c.isDigit || c == '.' || c == 'e' || c == '+' || c == '-'

theorem isNumberChar_of_isDigit {c : Char} (h : c.isDigit) : isNumberChar c := by
  simp [isNumberChar, h]

def scanExponent : List Char → ℤ
  | 'e' :: sign :: ds =>
    if sign = '-' then -(Nat.ofDigitChars 10 ds 0 : ℤ) else Nat.ofDigitChars 10 ds 0
  | _ => 0

/-- The integer and the power of ten that a text without sign is read as. -/
def scan (t : List Char) : ℕ × ℤ :=
  let mantissa := t.takeWhile (· ≠ 'e')
  let fraction := (mantissa.dropWhile (· ≠ '.')).drop 1
  (Nat.ofDigitChars 10 (mantissa.takeWhile (· ≠ '.') ++ fraction) 0,
    scanExponent (t.dropWhile (· ≠ 'e')) - fraction.length)

section Scan

variable {whole fraction : List Char}

theorem span_mark {p : Char → Bool} {c : Char} (tail : List Char) (hwhole : ∀ d ∈ whole, p d)
    (hc : p c = false) :
    (whole ++ c :: tail).takeWhile p = whole ∧ (whole ++ c :: tail).dropWhile p = c :: tail := by
  constructor
  · rw [List.takeWhile_append_of_pos hwhole, List.takeWhile_cons_of_neg (by simp [hc]),
      List.append_nil]
  · rw [List.dropWhile_append_of_pos hwhole, List.dropWhile_cons_of_neg (by simp [hc])]

theorem all_isDigit_ne (h : ∀ c ∈ whole, c.isDigit) (mark : Char) (hmark : mark.isDigit = false) :
    ∀ c ∈ whole, decide (c ≠ mark) = true := by
  intro c hc
  have hdigit : c.isDigit = true := h c hc
  apply decide_eq_true
  rintro rfl
  rw [hmark] at hdigit
  cases hdigit

theorem takeWhile_all {p : Char → Bool} (h : ∀ c ∈ whole, p c) :
    whole.takeWhile p = whole ∧ whole.dropWhile p = [] :=
  ⟨List.takeWhile_eq_self_iff.mpr h, List.dropWhile_eq_nil_iff.mpr h⟩

/-- Without an exponent the text is all mantissa. -/
theorem scan_mantissa {t : List Char} (ht : ∀ c ∈ t, decide (c ≠ 'e') = true) :
    scan t = (Nat.ofDigitChars 10
      (t.takeWhile (· ≠ '.') ++ (t.dropWhile (· ≠ '.')).drop 1) 0,
        -(((t.dropWhile (· ≠ '.')).drop 1).length : ℤ)) := by
  obtain ⟨htake, hdrop⟩ := takeWhile_all ht
  unfold scan
  rw [htake, hdrop]
  simp [scanExponent]

theorem scan_whole (hwhole : ∀ c ∈ whole, c.isDigit) :
    scan whole = (Nat.ofDigitChars 10 whole 0, 0) := by
  obtain ⟨htake, hdrop⟩ := takeWhile_all (all_isDigit_ne hwhole '.' (by decide))
  rw [scan_mantissa (all_isDigit_ne hwhole 'e' (by decide)), htake, hdrop]
  simp

theorem scan_point (hwhole : ∀ c ∈ whole, c.isDigit) (hfraction : ∀ c ∈ fraction, c.isDigit) :
    scan (whole ++ '.' :: fraction) =
      (Nat.ofDigitChars 10 (whole ++ fraction) 0, -(fraction.length : ℤ)) := by
  have ht : ∀ c ∈ whole ++ '.' :: fraction, decide (c ≠ 'e') = true := by
    intro c hc
    rcases List.mem_append.mp hc with hw | hrest
    · exact all_isDigit_ne hwhole 'e' (by decide) c hw
    · rcases List.mem_cons.mp hrest with rfl | hf
      · decide
      · exact all_isDigit_ne hfraction 'e' (by decide) c hf
  obtain ⟨htake, hdrop⟩ := span_mark fraction (all_isDigit_ne hwhole '.' (by decide))
    (by decide : decide ('.' ≠ '.') = false)
  rw [scan_mantissa ht, htake, hdrop]
  rfl

theorem scan_exponent {mantissa : List Char} (hm : ∀ c ∈ mantissa, decide (c ≠ 'e') = true)
    (sign : Char) (e : ℕ) :
    scan (mantissa ++ 'e' :: sign :: Nat.toDigits 10 e) =
      ((scan mantissa).1, (if sign = '-' then -(e : ℤ) else e) + (scan mantissa).2) := by
  obtain ⟨htake, hdrop⟩ := span_mark (sign :: Nat.toDigits 10 e) hm
    (by decide : decide ('e' ≠ 'e') = false)
  rw [scan_mantissa hm]
  have hexponent : scanExponent ('e' :: sign :: Nat.toDigits 10 e) =
      if sign = '-' then -(e : ℤ) else e := by
    show (if sign = '-' then -(Nat.ofDigitChars 10 _ 0 : ℤ) else Nat.ofDigitChars 10 _ 0) = _
    rw [Nat.ofDigitChars_ten_toDigits]
  unfold scan
  rw [htake, hdrop, hexponent]
  rfl

end Scan

namespace Decimal

variable (x : Decimal)

theorem isDigit_of_mem_digits : ∀ c ∈ x.digits, c.isDigit := fun _ h =>
  Nat.isDigit_of_mem_toDigits (by decide) (by decide) h

/-- What was appended to the digits: the zeros of an integer that ends in zeros. -/
def zeros : ℕ := if -5 ≤ x.n ∧ x.n ≤ 21 ∧ x.k ≤ x.n then (x.n - x.k).toNat else 0

theorem ofDigitChars_digits : Nat.ofDigitChars 10 x.digits 0 = x.s :=
  Nat.ofDigitChars_ten_toDigits

theorem k_pos : 0 < x.k := Nat.length_toDigits_pos

theorem isDigit_of_mem_zeros {m : ℕ} : ∀ c ∈ List.replicate m '0', c.isDigit := by
  intro c hc
  rw [List.eq_of_mem_replicate hc]
  rfl

variable {x}

theorem scan_integer (h : x.k ≤ x.n) :
    scan (x.digits ++ List.replicate (x.n - x.k).toNat '0') =
      (x.s * 10 ^ (x.n - x.k).toNat, x.n - x.k - (x.n - x.k).toNat) := by
  have hdigits : ∀ c ∈ x.digits ++ List.replicate (x.n - x.k).toNat '0', c.isDigit := by
    intro c hc
    exact (List.mem_append.mp hc).elim (x.isDigit_of_mem_digits c) (isDigit_of_mem_zeros c)
  have hscale : x.n - x.k - (x.n - x.k).toNat = 0 := by omega
  rw [scan_whole hdigits, Nat.ofDigitChars_append, Nat.ofDigitChars_replicate_zero,
    ofDigitChars_digits, Nat.mul_comm, hscale]

theorem scan_mixed (h : x.n < x.k) (hpos : 0 < x.n) :
    scan (x.digits.take x.n.toNat ++ '.' :: x.digits.drop x.n.toNat) = (x.s, x.n - x.k) := by
  have hlength : -((x.digits.drop x.n.toNat).length : ℤ) = x.n - x.k := by
    have hk : x.k = x.digits.length := rfl
    rw [List.length_drop]
    omega
  rw [scan_point (fun c hc => x.isDigit_of_mem_digits c (List.mem_of_mem_take hc))
    (fun c hc => x.isDigit_of_mem_digits c (List.mem_of_mem_drop hc)), List.take_append_drop,
    ofDigitChars_digits, hlength]

theorem scan_small (h : x.n ≤ 0) :
    scan ('0' :: '.' :: List.replicate (-x.n).toNat '0' ++ x.digits) = (x.s, x.n - x.k) := by
  have hfraction : ∀ c ∈ List.replicate (-x.n).toNat '0' ++ x.digits, c.isDigit := by
    intro c hc
    exact (List.mem_append.mp hc).elim (isDigit_of_mem_zeros c) (x.isDigit_of_mem_digits c)
  -- the scale counts the zeros after the point and the digits
  have hlength : -((List.replicate (-x.n).toNat '0' ++ x.digits).length : ℤ) = x.n - x.k := by
    have hk : x.k = x.digits.length := rfl
    rw [List.length_append, List.length_replicate]
    omega
  have hvalue : Nat.ofDigitChars 10 (['0'] ++ (List.replicate (-x.n).toNat '0' ++ x.digits)) 0 =
      x.s := by
    rw [Nat.ofDigitChars_append, Nat.ofDigitChars_append, Nat.ofDigitChars_replicate_zero]
    exact x.ofDigitChars_digits
  have hwhole : ∀ c ∈ ['0'], c.isDigit := List.forall_mem_singleton.mpr rfl
  have hscan := scan_point hwhole hfraction
  rw [hvalue, hlength] at hscan
  exact hscan

theorem mem_mantissa {x : Decimal} {c : Char} (h : c ∈ x.mantissa) : c.isDigit ∨ c = '.' := by
  unfold mantissa at h
  by_cases hone : x.k = 1
  · rw [if_pos hone] at h
    exact .inl (x.isDigit_of_mem_digits c h)
  · rw [if_neg hone] at h
    rcases List.mem_append.mp h with hhead | hrest
    · exact .inl (x.isDigit_of_mem_digits c (List.mem_of_mem_take hhead))
    · rcases List.mem_cons.mp hrest with hpoint | htail
      · exact .inr hpoint
      · exact .inl (x.isDigit_of_mem_digits c (List.mem_of_mem_drop htail))

theorem mantissa_ne (x : Decimal) : ∀ c ∈ x.mantissa, decide (c ≠ 'e') = true := by
  intro c hc
  apply decide_eq_true
  rintro rfl
  exact (mem_mantissa hc).elim (by decide) (by decide)

theorem scan_mantissa_digits : scan x.mantissa = (x.s, 1 - (x.k : ℤ)) := by
  unfold mantissa
  by_cases hone : x.k = 1
  · rw [if_pos hone, scan_whole x.isDigit_of_mem_digits, ofDigitChars_digits, hone]
    rfl
  · have hlength : -((x.digits.drop 1).length : ℤ) = 1 - x.k := by
      have hk : x.k = x.digits.length := rfl
      have hpos := x.k_pos
      rw [List.length_drop]
      omega
    rw [if_neg hone, scan_point (fun c hc => x.isDigit_of_mem_digits c (List.mem_of_mem_take hc))
      (fun c hc => x.isDigit_of_mem_digits c (List.mem_of_mem_drop hc)), List.take_append_drop,
      ofDigitChars_digits, hlength]

/-- The text of a decimal is read back as its value. -/
theorem scan_magnitude (x : Decimal) :
    scan x.magnitude = (x.s * 10 ^ x.zeros, x.n - x.k - x.zeros) := by
  -- the four forms of `Number.prototype.toString`
  by_cases hplain : -5 ≤ x.n ∧ x.n ≤ 21
  · by_cases hwhole : x.k ≤ x.n
    · have hz : x.zeros = (x.n - x.k).toNat := if_pos ⟨hplain.1, hplain.2, hwhole⟩
      unfold magnitude
      rw [hz, if_pos hplain, if_pos hwhole, scan_integer hwhole]
    · have hz : x.zeros = 0 := if_neg fun h => hwhole h.2.2
      unfold magnitude
      rw [hz, if_pos hplain, if_neg hwhole, pow_zero, mul_one, Nat.cast_zero, sub_zero]
      by_cases hpos : 0 < x.n
      · rw [if_pos hpos, scan_mixed (not_le.mp hwhole) hpos]
      · rw [if_neg hpos, scan_small (not_lt.mp hpos)]
  · have hz : x.zeros = 0 := if_neg fun h => hplain ⟨h.1, h.2.1⟩
    unfold magnitude
    rw [hz, if_neg hplain, pow_zero, mul_one, Nat.cast_zero, sub_zero,
      scan_exponent x.mantissa_ne, scan_mantissa_digits]
    by_cases hneg : x.n < 0
    · rw [if_pos hneg, if_pos rfl]
      have hscale : -((x.n - 1).natAbs : ℤ) + (1 - x.k) = x.n - x.k := by omega
      rw [hscale]
    · rw [if_neg hneg, if_neg (by decide)]
      have hscale : ((x.n - 1).natAbs : ℤ) + (1 - x.k) = x.n - x.k := by omega
      rw [hscale]

/-- A decimal is shortest in one way only. -/
theorem shortest_unique {s s' a a' : ℕ} (hs : ¬ 10 ∣ s) (hs' : ¬ 10 ∣ s')
    (h : s * 10 ^ a = s' * 10 ^ a') : s = s' ∧ a = a' := by
  have hle {s s' a a' : ℕ} (hs : ¬ 10 ∣ s) (h : s * 10 ^ a = s' * 10 ^ a') : a' ≤ a := by
    by_contra hlt
    obtain ⟨m, rfl⟩ := Nat.exists_eq_add_of_lt (not_le.mp hlt)
    have hten : s * 10 ^ a = (10 * (s' * 10 ^ m)) * 10 ^ a := by
      rw [h]
      ring
    have heq : s = 10 * (s' * 10 ^ m) :=
      Nat.eq_of_mul_eq_mul_right (Nat.pow_pos (by decide)) hten
    exact hs ⟨_, heq⟩
  have ha : a = a' := le_antisymm (hle hs' h.symm) (hle hs h)
  subst ha
  exact ⟨Nat.eq_of_mul_eq_mul_right (Nat.pow_pos (by decide)) h, rfl⟩

theorem magnitude_inj {x y : Decimal} (h : x.magnitude = y.magnitude) :
    x.s = y.s ∧ x.n = y.n := by
  have hscan : (x.s * 10 ^ x.zeros, x.n - x.k - x.zeros) =
      (y.s * 10 ^ y.zeros, y.n - y.k - (y.zeros : ℤ)) := by
    rw [← scan_magnitude, ← scan_magnitude, h]
  obtain ⟨hvalue, hscale⟩ := Prod.mk.inj hscan
  obtain ⟨hs, hz⟩ := shortest_unique x.shortest y.shortest hvalue
  have hk : x.k = y.k := by
    unfold k digits
    rw [hs]
  exact ⟨hs, by omega⟩

theorem magnitude_chars (x : Decimal) : ∀ c ∈ x.magnitude, isNumberChar c := by
  have hdigit {c : Char} (hc : c ∈ x.digits) : isNumberChar c :=
    isNumberChar_of_isDigit (x.isDigit_of_mem_digits c hc)
  have hzero {m : ℕ} {c : Char} (hc : c ∈ List.replicate m '0') : isNumberChar c :=
    isNumberChar_of_isDigit (isDigit_of_mem_zeros c hc)
  -- the characters form by form: digits, a point, an exponent with its sign
  intro c hc
  unfold magnitude at hc
  by_cases hplain : -5 ≤ x.n ∧ x.n ≤ 21
  · rw [if_pos hplain] at hc
    by_cases hwhole : x.k ≤ x.n
    · rw [if_pos hwhole] at hc
      exact (List.mem_append.mp hc).elim hdigit hzero
    · rw [if_neg hwhole] at hc
      by_cases hpos : 0 < x.n
      · rw [if_pos hpos] at hc
        rcases List.mem_append.mp hc with hhead | hrest
        · exact hdigit (List.mem_of_mem_take hhead)
        · rcases List.mem_cons.mp hrest with rfl | htail
          · rfl
          · exact hdigit (List.mem_of_mem_drop htail)
      · rw [if_neg hpos] at hc
        rcases List.mem_append.mp hc with hhead | htail
        · rcases List.mem_cons.mp hhead with rfl | hpoint
          · rfl
          · rcases List.mem_cons.mp hpoint with rfl | hzeros
            · rfl
            · exact hzero hzeros
        · exact hdigit htail
  · rw [if_neg hplain] at hc
    rcases List.mem_append.mp hc with hmantissa | hrest
    · rcases mem_mantissa hmantissa with hd | rfl
      · exact isNumberChar_of_isDigit hd
      · rfl
    · rcases List.mem_cons.mp hrest with rfl | hexponent
      · rfl
      · rcases List.mem_cons.mp hexponent with hsign | htail
        · rw [hsign]
          split
          · rfl
          · rfl
        · exact isNumberChar_of_isDigit
            (Nat.isDigit_of_mem_toDigits (by decide) (by decide) htail)

theorem magnitude_head (x : Decimal) : ∃ d rest, x.magnitude = d :: rest ∧ d.isDigit := by
  -- the first digit opens every form but that of a fraction
  obtain ⟨d, rest, hdigits⟩ : ∃ d rest, x.digits = d :: rest :=
    List.exists_cons_of_ne_nil Nat.toDigits_ne_nil
  have hd : d.isDigit := x.isDigit_of_mem_digits d (by rw [hdigits]; exact List.mem_cons_self)
  unfold magnitude mantissa
  rw [hdigits]
  by_cases hplain : -5 ≤ x.n ∧ x.n ≤ 21
  · rw [if_pos hplain]
    by_cases hwhole : x.k ≤ x.n
    · rw [if_pos hwhole]
      exact ⟨d, _, rfl, hd⟩
    · rw [if_neg hwhole]
      by_cases hpos : 0 < x.n
      · obtain ⟨m, hm⟩ : ∃ m, x.n.toNat = m + 1 := ⟨x.n.toNat - 1, by omega⟩
        rw [if_pos hpos, hm]
        exact ⟨d, _, rfl, hd⟩
      · rw [if_neg hpos]
        exact ⟨'0', _, rfl, rfl⟩
  · rw [if_neg hplain]
    by_cases hone : x.k = 1
    · rw [if_pos hone]
      exact ⟨d, _, rfl, hd⟩
    · rw [if_neg hone]
      exact ⟨d, _, rfl, hd⟩

end Decimal

namespace Number

theorem text_chars (x : Number) : ∀ c ∈ x.text, isNumberChar c := by
  cases x with
  | zero => exact List.forall_mem_singleton.mpr rfl
  | decimal x =>
    show ∀ c ∈ x.text, isNumberChar c
    unfold Decimal.text
    by_cases hneg : x.negative = true
    · rw [if_pos hneg]
      intro c hc
      rcases List.mem_cons.mp hc with rfl | hmagnitude
      · rfl
      · exact x.magnitude_chars c hmagnitude
    · rw [if_neg hneg]
      exact x.magnitude_chars

/-- A number begins with a digit or a minus sign. -/
theorem text_head (x : Number) : ∃ c rest, x.text = c :: rest ∧ (c.isDigit ∨ c = '-') := by
  cases x with
  | zero => exact ⟨'0', [], rfl, .inl rfl⟩
  | decimal x =>
    show ∃ c rest, x.text = c :: rest ∧ _
    unfold Decimal.text
    by_cases hneg : x.negative = true
    · rw [if_pos hneg]
      exact ⟨'-', _, rfl, .inr rfl⟩
    · rw [if_neg hneg]
      obtain ⟨d, rest, hmagnitude, hd⟩ := x.magnitude_head
      exact ⟨d, rest, hmagnitude, .inl hd⟩

theorem decimal_text_inj {x y : Decimal} (h : x.text = y.text) : x = y := by
  obtain ⟨d, _, hx, hd⟩ := x.magnitude_head
  obtain ⟨d', _, hy, hd'⟩ := y.magnitude_head
  -- the sign is read off the first character
  have hsign : x.negative = y.negative ∧ x.magnitude = y.magnitude := by
    unfold Decimal.text at h
    cases hxn : x.negative with
    | true =>
      cases hyn : y.negative with
      | true =>
        rw [hxn, hyn] at h
        exact ⟨rfl, (List.cons.inj h).2⟩
      | false =>
        rw [hxn, hyn, hy] at h
        rw [← (List.cons.inj h).1] at hd'
        cases hd'
    | false =>
      cases hyn : y.negative with
      | true =>
        rw [hxn, hyn, hx] at h
        rw [(List.cons.inj h).1] at hd
        cases hd
      | false =>
        rw [hxn, hyn] at h
        exact ⟨rfl, h⟩
  obtain ⟨hs, hn⟩ := Decimal.magnitude_inj hsign.2
  cases x
  cases y
  cases hsign.1
  cases hs
  cases hn
  rfl

theorem decimal_text_ne_zero (x : Decimal) : x.text ≠ ['0'] := by
  intro h
  unfold Decimal.text at h
  by_cases hneg : x.negative = true
  · rw [if_pos hneg] at h
    cases h
  · rw [if_neg hneg] at h
    have hscan := x.scan_magnitude
    rw [h] at hscan
    have hvalue : 0 = x.s * 10 ^ x.zeros := congrArg Prod.fst hscan
    rcases Nat.mul_eq_zero.mp hvalue.symm with hs | hpow
    · exact x.shortest (hs ▸ Nat.dvd_zero 10)
    · exact absurd hpow (Nat.pow_pos (by decide)).ne'

theorem text_inj {x y : Number} (h : x.text = y.text) : x = y := by
  cases x with
  | zero =>
    cases y with
    | zero => rfl
    | decimal y => exact absurd h.symm (decimal_text_ne_zero y)
  | decimal x =>
    cases y with
    | zero => exact absurd h (decimal_text_ne_zero x)
    | decimal y => exact congrArg decimal (decimal_text_inj h)

/-- A number is read off the front of a text that goes on with no character of a number. -/
theorem text_reads {x y : Number} {r r' : List Char} (hr : ∀ c ∈ r.head?, isNumberChar c = false)
    (hr' : ∀ c ∈ r'.head?, isNumberChar c = false) (h : x.text ++ r = y.text ++ r') :
    x = y ∧ r = r' := by
  have hfront {t rest : List Char} (ht : ∀ c ∈ t, isNumberChar c)
      (hrest : ∀ c ∈ rest.head?, isNumberChar c = false) :
      (t ++ rest).takeWhile isNumberChar = t := by
    rw [List.takeWhile_append_of_pos ht]
    cases rest with
    | nil => exact List.append_nil t
    | cons c rest =>
      rw [List.takeWhile_cons_of_neg (by simp [hrest c rfl]), List.append_nil]
  have htext : x.text = y.text := by
    rw [← hfront x.text_chars hr, h, hfront y.text_chars hr']
  rw [htext] at h
  exact ⟨text_inj htext, List.append_cancel_left h⟩

end Number

end Numbers

end JsonText
