/-! The binary64 number nearest to a quotient of natural numbers. All arithmetic is
exact, so the result is rounded once: to the nearest number, and to the even one of
two that are equally near. -/
namespace AllocGuard.Binary64

/-- The quotient rounded to the nearest natural number, a half to the even one. -/
def roundHalfEven (num den : Nat) : Nat :=
  let quotient := num / den
  let twice := 2 * (num % den)
  if twice < den then quotient
  else if den < twice then quotient + 1
  else quotient + quotient % 2

/-- The bits of positive infinity. -/
def infinity : Nat :=
  0x7FF0000000000000

/-- The largest `k` with `2 ^ k ≤ num / den`, both being positive. -/
def quotientLog (num den : Nat) : Int :=
  let k := (num.log2 : Int) - den.log2
  if den * Nat.pow 2 k.toNat ≤ num * Nat.pow 2 (-k).toNat then k else k - 1

/-- The bits of the binary64 number nearest to `num / den`. A significand that
rounds up to `2 ^ 53` carries into the exponent, and a number past the largest
finite one becomes infinity. -/
def nearestBits (num den : Nat) : Nat :=
  if num = 0 then 0
  else
    let unit := max (quotientLog num den - 52) (-1074)
    let significand := roundHalfEven (num * Nat.pow 2 (-unit).toNat) (den * Nat.pow 2 unit.toNat)
    min infinity ((unit + 1074).toNat * 0x10000000000000 + significand)

/-- The binary64 number nearest to `digits * 10 ^ exponent`, where `digits` has
`count` decimal digits. Numbers that are far outside the range of binary64 are told
by their size alone, whatever their exponent. -/
def ofDecimal (digits count : Nat) (exponent : Int) : Float :=
  let bits :=
    if digits = 0 then 0
    else if 400 < exponent then infinity
    else if exponent + count < -400 then 0
    else nearestBits (digits * Nat.pow 10 exponent.toNat) (Nat.pow 10 (-exponent).toNat)
  Float.ofBits bits.toUInt64

/-- Two to the power `scale`, where a negative power is one divided by the positive
one. The positive power is infinite from `2 ^ 1024` on. -/
def powerOfTwo (scale : Int) : Float :=
  let positive := Float.ofBits (nearestBits (Nat.pow 2 (min scale.natAbs 1024)) 1).toUInt64
  if 0 ≤ scale then positive else 1.0 / positive

end AllocGuard.Binary64
