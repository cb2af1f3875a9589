import AllocGuard.Toml.Text

/-! Numbers in TOML. An integer has to fit 64 bits, and a float is rounded to binary64. -/
namespace AllocGuard.Toml

/-! ## Integers -/

/-- Digits of a base, with single underscores between them: their number. -/
def digitRun (base : Nat) (value : Nat) : List Char → Option (Nat × List Char)
  | '_' :: c :: rest => do
    let digit ← (Numeric.digitValue? c).filter (· < base)
    digitRun base (value * base + digit) rest
  | '_' :: [] => none
  | c :: rest =>
    match (Numeric.digitValue? c).filter (· < base) with
    | some digit => digitRun base (value * base + digit) rest
    | none => some (value, c :: rest)
  | [] => some (value, [])

/-- A number in a base, at least one digit long. -/
def based? (base : Nat) : List Char → Option (Nat × List Char)
  | c :: rest => do
    let digit ← (Numeric.digitValue? c).filter (· < base)
    digitRun base digit rest
  | [] => none

/-- A decimal number. One that starts with a zero is that zero. -/
def decimal? : List Char → Option (Nat × List Char)
  | '0' :: rest => some (0, rest)
  | cs => based? 10 cs

/-- An integer, which has to fit 64 bits. Only decimal integers have a sign. -/
def integer? (cs : List Char) : Option (Int × List Char) := do
  let (value, rest) ←
    match cs with
    | '0' :: 'x' :: rest => natural <$> based? 16 rest
    | '0' :: 'o' :: rest => natural <$> based? 8 rest
    | '0' :: 'b' :: rest => natural <$> based? 2 rest
    | '-' :: rest => (fun (n, rest) => (-(n : Int), rest)) <$> decimal? rest
    | '+' :: rest => natural <$> decimal? rest
    | _ => natural <$> decimal? cs
  if -0x8000000000000000 ≤ value ∧ value < 0x8000000000000000 then some (value, rest) else none
where
  natural (read : Nat × List Char) : Int × List Char :=
    (read.1, read.2)

/-! ## Floats -/

/-- Decimal digits that go on a run, with single underscores between them. -/
def moreDigits : Reader (List Char)
  | '_' :: c :: rest => if c.isDigit then prepend (some c) (moreDigits rest) else none
  | '_' :: [] => none
  | c :: rest => if c.isDigit then prepend (some c) (moreDigits rest) else some ([], c :: rest)
  | [] => some ([], [])

/-- A run of decimal digits, at least one long. It may start with zeros. -/
def digits? : Reader (List Char)
  | c :: rest => if c.isDigit then prepend (some c) (moreDigits rest) else none
  | [] => none

/-- The digits in front of the point. A run that starts with a zero is that zero. -/
def whole? : Reader (List Char)
  | '0' :: rest => some (['0'], rest)
  | cs => digits? cs

/-- The digits behind the point. Without a point there are none. -/
def fraction? : Reader (List Char)
  | '.' :: rest => digits? rest
  | cs => some ([], cs)

/-- A sign, and what it is the sign of: whether that is negative. -/
def sign : List Char → Bool × List Char
  | '-' :: rest => (true, rest)
  | '+' :: rest => (false, rest)
  | cs => (false, cs)

/-- The power of ten. Without a mark for it, it is zero. -/
def exponent? (cs : List Char) : Option (Int × List Char) :=
  match cs with
  | c :: rest =>
    if c = 'e' ∨ c = 'E' then do
      let (isNegative, rest) := sign rest
      let (digits, rest) ← digits? rest
      let size : Int := Numeric.decimalValue 0 digits
      return (if isNegative then -size else size, rest)
    else some (0, c :: rest)
  | [] => some (0, [])

/-- Infinity and what is no number. -/
def special? : Reader Float
  | 'i' :: 'n' :: 'f' :: rest => some (Float.ofBits Binary64.infinity.toUInt64, rest)
  | 'n' :: 'a' :: 'n' :: rest => some (Float.ofBits 0x7FF8000000000000, rest)
  | _ => none

/-- A float without its sign: special, or digits with a point or a power of ten. -/
def magnitude? (cs : List Char) : Option (Float × List Char) := do
  let (whole, afterWhole) ← whole? cs
  let (fraction, afterFraction) ← fraction? afterWhole
  let (exponent, rest) ← exponent? afterFraction
  if rest.length = afterWhole.length then none
  else
    let digits := whole ++ fraction
    return (Binary64.ofDecimal (Numeric.decimalValue 0 digits) digits.length
      (exponent - fraction.length), rest)

/-- A float. Digits that write a number too large for binary64 are refused, unless it
is negative. -/
def float? (cs : List Char) : Option (Float × List Char) :=
  let (isNegative, start) := sign cs
  match special? start, magnitude? start with
  | some (value, rest), _ => some (if isNegative then -value else value, rest)
  | none, some (value, rest) =>
    if value.isInf ∧ !isNegative then none
    else some (if isNegative then -value else value, rest)
  | none, none => none

end AllocGuard.Toml
