import TimeOff.Entities
import TimeOff.Doubles
import Mathlib.Data.List.DropRight

/-! Numbers in texts: `parseFloat` takes the longest prefix that is one, `Number` the whole text
but the blanks around it. `Infinity` is not a number here. -/
namespace TimeOff

def isStrWhiteSpace (c : Char) : Bool :=
  c.val ∈ [9, 10, 11, 12, 13, 32, 0xA0, 0x1680, 0x2028, 0x2029, 0x202F, 0x205F, 0x3000, 0xFEFF] ||
    (0x2000 ≤ c.val && c.val ≤ 0x200A)

section Decimals

def digitsValue (digits : List Char) : ℕ :=
  digits.foldl (fun n c => 10 * n + (c.toNat - '0'.toNat)) 0

/-- The exponent at the head of the text; without digits there is none. -/
def exponentValue : List Char → ℤ
  | 'e' :: rest | 'E' :: rest =>
    match rest with
    | '-' :: rest => -digitsValue (rest.takeWhile Char.isDigit)
    | '+' :: rest => digitsValue (rest.takeWhile Char.isDigit)
    | rest => digitsValue (rest.takeWhile Char.isDigit)
  | _ => 0

/-- The digits before the point, those behind it, and the text from the exponent on. -/
def mantissa (cs : List Char) : List Char × List Char × List Char :=
  let whole := cs.takeWhile Char.isDigit
  match cs.dropWhile Char.isDigit with
  | '.' :: tail => (whole, tail.takeWhile Char.isDigit, tail.dropWhile Char.isDigit)
  | rest => (whole, [], rest)

def unsignedDecimal (cs : List Char) : Num :=
  let (whole, fraction, rest) := mantissa cs
  if whole = [] ∧ fraction = [] then none
  else
    some ((digitsValue (whole ++ fraction) : ℚ) / 10 ^ fraction.length *
      (10 : ℚ) ^ exponentValue rest)

/-- `parseFloat` of a text: its longest prefix that is a decimal number. -/
def parseFloat (text : String) : Num :=
  match text.toList.dropWhile isStrWhiteSpace with
  | '-' :: rest => (unsignedDecimal rest).map fun x => -x
  | '+' :: rest => unsignedDecimal rest
  | rest => unsignedDecimal rest

example : (parseFloat " 12.50days", parseFloat "-2e1", parseFloat "ten") =
    (some (25 / 2), some (-20), none) := by decide +kernel

end Decimals

section Number

/-- The text is empty or an exponent and nothing else. -/
def isExponent : List Char → Bool
  | [] => true
  | c :: rest =>
    let digits := match rest with
      | '-' :: rest | '+' :: rest => rest
      | rest => rest
    (c = 'e' || c = 'E') && digits ≠ [] && digits.all Char.isDigit

def decimalNumber (cs : List Char) : Num :=
  if isExponent (mantissa cs).2.2 then unsignedDecimal cs else none

/-- The value of a digit, or of a letter that stands for one. -/
def radixDigit (radix : ℕ) (c : Char) : Option ℕ :=
  let value :=
    if c.isDigit then c.toNat - '0'.toNat
    else if c.isAlpha then c.toLower.toNat - 'a'.toNat + 10
    else radix
  if value < radix then some value else none

def radixNumber (radix : ℕ) (cs : List Char) : Num :=
  if cs = [] then none
  else (cs.mapM (radixDigit radix)).map fun ds => (ds.foldl (fun n d => radix * n + d) 0 : ℕ)

/-- `Number(part)`: the double nearest to what the text says. -/
def number (part : List Char) : Num :=
  let value := match (part.dropWhile isStrWhiteSpace).rdropWhile isStrWhiteSpace with
    | [] => some 0
    | '0' :: 'x' :: cs | '0' :: 'X' :: cs => radixNumber 16 cs
    | '0' :: 'o' :: cs | '0' :: 'O' :: cs => radixNumber 8 cs
    | '0' :: 'b' :: cs | '0' :: 'B' :: cs => radixNumber 2 cs
    | '-' :: cs => (decimalNumber cs).map fun x => -x
    | '+' :: cs => decimalNumber cs
    | cs => decimalNumber cs
  value.map Double.round

example : (number "\u00a006\u2003".toList, number "0x1F".toList, number "-5e-1".toList,
    number "06T".toList, number ".".toList) = (some 6, some 31, some (-1 / 2), none, none) := by
  decide +kernel

end Number

end TimeOff
