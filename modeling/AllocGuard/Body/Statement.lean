import AllocGuard.Header
import AllocGuard.Literal.Numeric

/-! Statements inside a body, as far as edits need them: where one ends, where one
starts, and whether it is the body of a control statement. -/
namespace AllocGuard.TokenSeq

/-- The `;` that ends the statement which continues at `i`, among the next `count`
tokens and inside `depth` brackets. There is none when a bracket closes that was open
before. The depth has no bound: a counter of 32 bits parts from it only past 2^31 open
brackets. -/
def semicolonFrom (ts : TokenSeq) (depth i : Nat) : Nat → Option Nat
  | 0 => none
  | count + 1 =>
    if ts.kindIs i TokenKind.isOpener then ts.semicolonFrom (depth + 1) (i + 1) count
    else if ts.kindIs i TokenKind.isCloser then
      if depth = 0 then none else ts.semicolonFrom (depth - 1) (i + 1) count
    else if depth = 0 && ts.hasKind i .semicolon then some i
    else ts.semicolonFrom depth (i + 1) count

/-- The `;` that ends the statement which continues at `i`, below `limit`. -/
def semicolonAfter (ts : TokenSeq) (i limit : Nat) : Option Nat :=
  ts.semicolonFrom 0 i (min limit ts.size - i)

/-- Whether the body of a control statement starts behind the token at `i`: it is
`else` or `do`, or it closes the head of an `if`, a `while` or a `for`. -/
def endsControlHead (ts : TokenSeq) (i floor : Nat) : Bool :=
  ts.isIdent i "else" || ts.isIdent i "do" ||
    (ts.hasKind i .closeParen &&
      (ts.matchingOpen i floor).any (ts.followsWord ["if", "while", "for"] · floor))

/-- Whether a statement starts behind the token at `i`. -/
def endsStatement (ts : TokenSeq) (i floor : Nat) : Bool :=
  ts.kindIs i TokenKind.isStatementEdge || ts.hasKind i .colon || ts.endsControlHead i floor

/-- Whether the token at `i` is `NULL` or a literal zero. -/
def isNullToken (ts : TokenSeq) (i : Nat) : Bool :=
  ts.isIdent i "NULL" ||
    (ts.hasKind i .number && ((Numeric.read (ts.spelling i)).toOption).any Numeric.isZero)

/-- Whether the expression made of the tokens at these positions is a null pointer:
`NULL` or a literal zero, in groups and behind casts. -/
def isNullExpression (ts : TokenSeq) : List Nat → Bool
  | [] => false
  | [only] => ts.isNullToken only
  | first :: rest =>
    if ts.hasKind first .openParen then
      match ts.matchingClose first ts.size with
      | none => false
      | some close =>
        match after : rest.dropWhile (· != close) with
        | [] => false
        | [_] => ts.isNullExpression (rest.takeWhile (· != close))
        | _ :: next :: behind => ts.isNullExpression (next :: behind)
    else false
termination_by positions => positions.length
decreasing_by
  · have shorter := (List.takeWhile_sublist (· != close) (l := rest)).length_le
    simp only [List.length_cons]
    omega
  · have shorter := (List.dropWhile_sublist (· != close) (l := rest)).length_le
    rw [after] at shorter
    simp only [List.length_cons] at *
    omega

end AllocGuard.TokenSeq
