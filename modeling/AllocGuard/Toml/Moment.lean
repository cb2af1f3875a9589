import AllocGuard.Toml.Number

/-! Dates and times of day in TOML. -/
namespace AllocGuard

structure Date where
  year : Nat
  month : Nat
  day : Nat
deriving Repr, DecidableEq

structure TimeOfDay where
  hour : Nat
  minute : Nat
  /-- Up to sixty, for a second that is put in between. -/
  second : Nat
  nanosecond : Nat
deriving Repr, DecidableEq

/-- A date, a time of day, or both. -/
structure Moment where
  date : Option Date := none
  time : Option TimeOfDay := none
  /-- Minutes ahead of universal time, for a date with a time. -/
  offset : Option Int := none
deriving Repr, DecidableEq

namespace Date

def isLeapYear (year : Nat) : Bool :=
  year % 4 == 0 && (year % 100 != 0 || year % 400 == 0)

def daysIn (year month : Nat) : Nat :=
  if month = 2 then if isLeapYear year then 29 else 28
  else if month = 4 ∨ month = 6 ∨ month = 9 ∨ month = 11 then 30
  else 31

end Date

namespace Toml

/-- A number of exactly `count` digits, from `low` to `high`. -/
def fixedNumber? (count low high : Nat) (cs : List Char) : Option (Nat × List Char) :=
  let digits := cs.take count
  let value := Numeric.decimalValue 0 digits
  if digits.length = count ∧ digits.all Char.isDigit ∧ low ≤ value ∧ value ≤ high then
    some (value, cs.drop count)
  else none

/-- What follows a character, if the text starts with it. -/
def after? (c : Char) : List Char → Option (List Char)
  | a :: rest => if a = c then some rest else none
  | [] => none

/-- A date. Its day has to be one of its month. -/
def date? (cs : List Char) : Option (Date × List Char) := do
  let (year, rest) ← fixedNumber? 4 0 9999 cs
  let (month, rest) ← fixedNumber? 2 1 12 (← after? '-' rest)
  let (day, rest) ← fixedNumber? 2 1 31 (← after? '-' rest)
  if day ≤ Date.daysIn year month then some (⟨year, month, day⟩, rest) else none

/-- The digits of a fraction of a second as nanoseconds. Digits past the ninth are
dropped. -/
def nanoseconds (digits : List Char) : Nat :=
  let kept := digits.take 9
  Numeric.decimalValue 0 kept * Nat.pow 10 (9 - kept.length)

/-- A fraction of a second. A point without digits behind it is none. -/
def secondFraction : List Char → Nat × List Char
  | '.' :: rest =>
    let digits := rest.takeWhile Char.isDigit
    if digits.isEmpty then (0, '.' :: rest)
    else (nanoseconds digits, rest.dropWhile Char.isDigit)
  | cs => (0, cs)

/-- A time of day. -/
def time? (cs : List Char) : Option (TimeOfDay × List Char) := do
  let (hour, rest) ← fixedNumber? 2 0 23 cs
  let (minute, rest) ← fixedNumber? 2 0 59 (← after? ':' rest)
  let (second, rest) ← fixedNumber? 2 0 60 (← after? ':' rest)
  let (nanosecond, rest) := secondFraction rest
  return (⟨hour, minute, second, nanosecond⟩, rest)

/-- The distance from universal time. -/
def offset? (cs : List Char) : Option (Int × List Char) :=
  match cs with
  | c :: rest =>
    if c = 'Z' ∨ c = 'z' then some (0, rest)
    else if c = '+' ∨ c = '-' then do
      let (hours, rest) ← fixedNumber? 2 0 23 rest
      let (minutes, rest) ← fixedNumber? 2 0 59 (← after? ':' rest)
      let size : Int := hours * 60 + minutes
      return (if c = '-' then -size else size, rest)
    else none
  | [] => none

/-- The time of day behind a date, and its offset if it has one. A blank or a letter
stands between. -/
def timeBehindDate? : List Char → Option ((TimeOfDay × Option Int) × List Char)
  | c :: rest =>
    if c = 'T' ∨ c = 't' ∨ c = ' ' then do
      let (time, rest) ← time? rest
      match offset? rest with
      | some (offset, rest) => return ((time, some offset), rest)
      | none => return ((time, none), rest)
    else none
  | [] => none

/-- A date, a date with a time of day, or a time of day. -/
def moment? (cs : List Char) : Option (Moment × List Char) :=
  match date? cs with
  | some (date, rest) =>
    match timeBehindDate? rest with
    | some ((time, offset), rest) => some ({ date := some date, time := some time, offset }, rest)
    | none => some ({ date := some date }, rest)
  | none => (time? cs).map fun (time, rest) => ({ time := some time }, rest)

end Toml

end AllocGuard
