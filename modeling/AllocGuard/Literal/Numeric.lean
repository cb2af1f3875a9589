import AllocGuard.Fault
import AllocGuard.Literal.Binary64

/-! Numeric literals of C: integers in four bases with their suffixes, and decimal
and hexadecimal floating literals. A text is cut into digits and suffix first and
evaluated after, and an integer that does not fit 64 bits is refused, never wrapped. -/
namespace AllocGuard

inductive IntWidth where
  | int
  | long
  | longLong
deriving Repr, DecidableEq

structure IntSuffix where
  unsigned : Bool
  width : IntWidth
deriving Repr, DecidableEq

inductive FloatSuffix where
  | double
  | float
  | longDouble
  | decimal32
  | decimal64
  | decimal128
deriving Repr, DecidableEq

/-- The value of a numeric literal. -/
inductive Numeric where
  | integer (value : Nat) (base : Nat) (suffix : IntSuffix)
  | floating (value : Float) (suffix : FloatSuffix)

/-- Why a text is not a numeric literal. -/
inductive NumericError where
  | empty
  | noLeadingDigit
  | noDigits
  | digitOutsideBase (digit : Char) (base : Nat)
  | integerTooLarge
  | strayCharacters
  | integerSuffix (suffix : String)
  | floatingSuffix (suffix : String)
  | noMantissa
  | noHexDigits
  | emptyExponent
  | noBinaryExponent
  | exponentTooLarge
  | floatingTooLarge
deriving Repr, DecidableEq

namespace NumericError

def category : NumericError → FaultCategory
  | integerTooLarge | integerSuffix _ | floatingSuffix _ | exponentTooLarge
  | floatingTooLarge => .outOfRange
  | _ => .badFormat

/-- What is wrong with the literal `text`. -/
def detail (text : String) : NumericError → String
  | empty => "empty numeric literal"
  | noLeadingDigit => s!"'{text}' does not start with a digit"
  | noDigits => s!"'{text}' has no digits"
  | digitOutsideBase digit base =>
    s!"digit '{digit}' is not valid in base {base} literal '{text}'"
  | integerTooLarge => s!"'{text}' overflows 64 bits"
  | strayCharacters => s!"unexpected characters in literal '{text}'"
  | integerSuffix suffix => s!"unknown integer suffix '{suffix}' in '{text}'"
  | floatingSuffix suffix => s!"unknown floating suffix '{suffix}' in '{text}'"
  | noMantissa => s!"'{text}' has no mantissa digits"
  | noHexDigits => s!"'{text}' has no hexadecimal digits"
  | emptyExponent => s!"'{text}' has an empty exponent"
  | noBinaryExponent => s!"hexadecimal float '{text}' requires a 'p' exponent"
  | exponentTooLarge => s!"exponent of '{text}' overflows"
  | floatingTooLarge => s!"'{text}' overflows a double"

def fault (text : String) (e : NumericError) : Fault :=
  ⟨e.category, e.detail text⟩

end NumericError

namespace Numeric

/-- Whether the literal is a zero. A number that is not a number is none. -/
def isZero : Numeric → Bool
  | integer value _ _ => value == 0
  | floating value _ => value == 0.0

/-! ## Digits and suffixes -/

/-- The value of a hexadecimal digit. -/
def digitValue? (c : Char) : Option Nat :=
  if c.isDigit then some (c.toNat - '0'.toNat)
  else if 'a' ≤ c ∧ c ≤ 'f' then some (c.toNat - 'a'.toNat + 10)
  else if 'A' ≤ c ∧ c ≤ 'F' then some (c.toNat - 'A'.toNat + 10)
  else none

def isHexDigit (c : Char) : Bool :=
  (digitValue? c).isSome

/-- The leading characters of which `p` holds, and the rest. -/
def cut (p : Char → Bool) (cs : List Char) : List Char × List Char :=
  (cs.takeWhile p, cs.dropWhile p)

/-- The value of decimal digits, `value` being that of the digits in front. -/
def decimalValue (value : Nat) (digits : List Char) : Nat :=
  digits.foldl (fun n c => n * 10 + (digitValue? c).getD 0) value

/-- The value of digits in a base, as a number below `2 ^ 64`. The first digit that
the base does not have, or that makes the number too large, decides the fault. -/
def positionalValue (base value : Nat) : List Char → Except NumericError Nat
  | [] => .ok value
  | c :: rest =>
    let digit := (digitValue? c).getD base
    if base ≤ digit then .error (.digitOutsideBase c base)
    else if Nat.pow 2 64 ≤ value * base + digit then .error .integerTooLarge
    else positionalValue base (value * base + digit) rest

/-- The suffix of an integer, in any letter case. -/
def intSuffix? (suffix : String) : Option IntSuffix :=
  match suffix.toLower with
  | "" => some ⟨false, .int⟩
  | "u" => some ⟨true, .int⟩
  | "l" => some ⟨false, .long⟩
  | "ul" | "lu" => some ⟨true, .long⟩
  | "ll" => some ⟨false, .longLong⟩
  | "ull" | "llu" => some ⟨true, .longLong⟩
  | _ => none

/-- The suffix of a floating literal, in any letter case. -/
def floatSuffix? (suffix : String) : Option FloatSuffix :=
  match suffix.toLower with
  | "" => some .double
  | "f" => some .float
  | "l" => some .longDouble
  | "df" => some .decimal32
  | "dd" => some .decimal64
  | "dl" => some .decimal128
  | _ => none

/-- What follows the digits, read as a suffix. Letters that are no suffix are an
unknown suffix, and anything else is out of place. -/
def readSuffix {α : Type} (read? : String → Option α) (unknown : String → NumericError)
    (rest : List Char) : Except NumericError α :=
  let suffix := String.ofList rest
  match read? suffix with
  | some meaning => .ok meaning
  | none => .error (if rest.all Char.isAlpha then unknown suffix else .strayCharacters)

/-! ## Integers -/

/-- An integer whose digits and suffix are `body`. The digits are the longest run of
hexadecimal digits in base sixteen, and of decimal digits in any other base. The zero
in front of an octal number is not part of the body, so it may have no more digits. -/
def readInteger (base : Nat) (body : List Char) : Except NumericError Numeric := do
  let (digits, rest) := cut (if base = 16 then isHexDigit else Char.isDigit) body
  if digits.isEmpty && base != 8 then throw .noDigits
  let value ← positionalValue base 0 digits
  let suffix ← readSuffix intSuffix? .integerSuffix rest
  return .integer value base suffix

/-! ## Floating literals -/

/-- Digits around an optional point. -/
structure Mantissa where
  whole : List Char
  fraction : List Char

def Mantissa.digits (m : Mantissa) : List Char :=
  m.whole ++ m.fraction

/-- The digits up to a point, those after it, and the rest. -/
def cutMantissa (p : Char → Bool) (cs : List Char) : Mantissa × List Char :=
  let (whole, rest) := cut p cs
  match rest with
  | '.' :: rest =>
    let (fraction, rest) := cut p rest
    (⟨whole, fraction⟩, rest)
  | _ => (⟨whole, []⟩, rest)

/-- A signed decimal exponent, at least one digit long, and the rest. -/
def cutExponent (cs : List Char) : Except NumericError (Int × List Char) :=
  let (negative, cs) :=
    match cs with
    | '-' :: rest => (true, rest)
    | '+' :: rest => (false, rest)
    | _ => (false, cs)
  let (digits, rest) := cut Char.isDigit cs
  if digits.isEmpty then .error .emptyExponent
  else
    let size : Int := decimalValue 0 digits
    .ok (if negative then -size else size, rest)

/-- A literal is floating when a point or an exponent follows its leading digits. -/
def isDecimalFloat (cs : List Char) : Bool :=
  (cs.dropWhile Char.isDigit).head?.any fun c => c == '.' || c == 'e' || c == 'E'

/-- A decimal floating literal, rounded to the nearest binary64 number. -/
def readDecimalFloat (cs : List Char) : Except NumericError Numeric := do
  let (mantissa, rest) := cutMantissa Char.isDigit cs
  if mantissa.digits.isEmpty then throw .noMantissa
  let (exponent, rest) ←
    match rest with
    | 'e' :: rest => cutExponent rest
    | 'E' :: rest => cutExponent rest
    | _ => pure (0, rest)
  let suffix ← readSuffix floatSuffix? .floatingSuffix rest
  let value := Binary64.ofDecimal (decimalValue 0 mantissa.digits) mantissa.digits.length
    (exponent - mantissa.fraction.length)
  if value.isInf then throw .floatingTooLarge
  return .floating value suffix

/-- The mantissa of a hexadecimal floating literal, rounded after every digit. -/
def hexMantissaValue (digits : List Char) : Float :=
  digits.foldl (fun m c => m * 16.0 + ((digitValue? c).getD 0).toFloat) 0.0

/-- A hexadecimal floating literal. The binary exponent is not optional. It has to
fit 64 bits as it is written, and 32 bits once the digits after the point are counted
in. -/
def readHexFloat (body : List Char) : Except NumericError Numeric := do
  let (mantissa, rest) := cutMantissa isHexDigit body
  if mantissa.digits.isEmpty then throw .noHexDigits
  let (exponent, rest) ←
    match rest with
    | 'p' :: rest => cutExponent rest
    | 'P' :: rest => cutExponent rest
    | _ => throw .noBinaryExponent
  if 0x8000000000000000 ≤ exponent.natAbs then throw .exponentTooLarge
  let suffix ← readSuffix floatSuffix? .floatingSuffix rest
  let scale := exponent - 4 * mantissa.fraction.length
  if scale < -0x80000000 ∨ 0x80000000 ≤ scale then throw .exponentTooLarge
  let value := hexMantissaValue mantissa.digits * Binary64.powerOfTwo scale
  if value.isInf then throw .floatingTooLarge
  return .floating value suffix

/-! ## Literals -/

/-- The value of a literal given by its characters. -/
def readChars (cs : List Char) : Except NumericError Numeric :=
  match cs with
  | [] => .error .empty
  | first :: rest =>
    if !first.isDigit && first != '.' then .error .noLeadingDigit
    else
      match first, rest with
      | '0', 'x' :: body => readHex body
      | '0', 'X' :: body => readHex body
      | '0', 'b' :: body => readInteger 2 body
      | '0', 'B' :: body => readInteger 2 body
      | _, _ =>
        if isDecimalFloat cs then readDecimalFloat cs
        else if first == '0' then readInteger 8 rest
        else readInteger 10 cs
where
  /-- A literal in base sixteen: floating if it has a point or an exponent mark. -/
  readHex (body : List Char) : Except NumericError Numeric :=
    if body.any fun c => c == '.' || c == 'p' || c == 'P' then readHexFloat body
    else readInteger 16 body

/-- The value of a numeric literal. -/
def read (text : String) : Except NumericError Numeric :=
  readChars text.toList

end Numeric

end AllocGuard
