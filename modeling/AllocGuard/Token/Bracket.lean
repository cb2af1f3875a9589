import AllocGuard.Position
import AllocGuard.Token.Sequence

/-! Moving through a token sequence: from a token to the next or previous one that
carries meaning, and from a bracket to its partner. A bracket is matched by its own
pair alone, so the other two pairs may be unbalanced between partners. -/
namespace AllocGuard

inductive Bracket where
  | paren
  | square
  | brace
deriving Repr, DecidableEq

namespace Bracket

def opener : Bracket → TokenKind
  | paren => .openParen
  | square => .openBracket
  | brace => .openBrace

def closer : Bracket → TokenKind
  | paren => .closeParen
  | square => .closeBracket
  | brace => .closeBrace

/-- The pair that a kind opens. -/
def ofOpener? : TokenKind → Option Bracket
  | .openParen => some paren
  | .openBracket => some square
  | .openBrace => some brace
  | _ => none

/-- The pair that a kind closes. -/
def ofCloser? : TokenKind → Option Bracket
  | .closeParen => some paren
  | .closeBracket => some square
  | .closeBrace => some brace
  | _ => none

end Bracket

namespace TokenKind

/-- An opening bracket of any pair. -/
def isOpener (k : TokenKind) : Bool :=
  (Bracket.ofOpener? k).isSome

/-- A closing bracket of any pair. -/
def isCloser (k : TokenKind) : Bool :=
  (Bracket.ofCloser? k).isSome

/-- `.` and `->`, after which a name is the name of a member. -/
def isMemberAccess (k : TokenKind) : Bool :=
  k == dot || k == arrow

/-- `;` and the braces, which end whatever stands in front of them. -/
def isStatementEdge (k : TokenKind) : Bool :=
  k == semicolon || k == openBrace || k == closeBrace

end TokenKind

namespace TokenSeq

/-- The first token at or after `i`, and below `limit`, that carries meaning. -/
def nextSignificant (ts : TokenSeq) (i limit : Nat) : Option Nat :=
  Position.firstIn? ts.isSignificant i (min limit ts.size)

/-- The last token before `i`, and not below `floor`, that carries meaning. -/
def prevSignificant (ts : TokenSeq) (i floor : Nat) : Option Nat :=
  Position.lastIn? ts.isSignificant floor (min i ts.size)

/-- The positions in `[start, stop)` of the tokens that carry meaning. -/
def significant (ts : TokenSeq) (start stop : Nat) : List Nat :=
  (Position.range start (min stop ts.size)).filter ts.isSignificant

/-- Whether a token before `i`, not below `floor`, makes the name at `i` a member. -/
def isMember (ts : TokenSeq) (i floor : Nat) : Bool :=
  (ts.prevSignificant i floor).any fun p => ts.kindIs p TokenKind.isMemberAccess

/-- The closing bracket of the pair `b` that ends a group, among the `count` tokens
from `i` on, `depth` groups being open. -/
def closeFrom (ts : TokenSeq) (b : Bracket) (depth i : Nat) : Nat → Option Nat
  | 0 => none
  | count + 1 =>
    if ts.hasKind i b.opener then closeFrom ts b (depth + 1) (i + 1) count
    else if ts.hasKind i b.closer then
      if depth ≤ 1 then some i else closeFrom ts b (depth - 1) (i + 1) count
    else closeFrom ts b depth (i + 1) count

/-- The bracket that closes the one at `i`, below `limit`. -/
def matchingClose (ts : TokenSeq) (i limit : Nat) : Option Nat := do
  let b ← (ts.kind? i).bind Bracket.ofOpener?
  ts.closeFrom b 1 (i + 1) (min limit ts.size - (i + 1))

/-- The opening bracket of the pair `b` that starts a group, among the `count` tokens
from `floor` on, read backwards, `depth` groups being open. -/
def openFrom (ts : TokenSeq) (b : Bracket) (depth floor : Nat) : Nat → Option Nat
  | 0 => none
  | count + 1 =>
    if ts.hasKind (floor + count) b.closer then openFrom ts b (depth + 1) floor count
    else if ts.hasKind (floor + count) b.opener then
      if depth ≤ 1 then some (floor + count) else openFrom ts b (depth - 1) floor count
    else openFrom ts b depth floor count

/-- The bracket that opens the one at `i`, not below `floor`. -/
def matchingOpen (ts : TokenSeq) (i floor : Nat) : Option Nat := do
  let b ← (ts.kind? i).bind Bracket.ofCloser?
  ts.openFrom b 1 floor (i - floor)

theorem next_significant_bounds {ts : TokenSeq} {i limit next : Nat}
    (hit : ts.nextSignificant i limit = some next) :
    i ≤ next ∧ next < limit ∧ next < ts.size := by
  have bounds := Position.first_in_bounds hit
  exact ⟨bounds.1, by omega, by omega⟩

theorem prev_significant_bounds {ts : TokenSeq} {i floor prev : Nat}
    (hit : ts.prevSignificant i floor = some prev) :
    floor ≤ prev ∧ prev < i ∧ prev < ts.size := by
  have bounds := Position.last_in_bounds hit
  exact ⟨bounds.1, by omega, by omega⟩

theorem close_from_bounds {ts : TokenSeq} {b : Bracket} {depth i count close : Nat}
    (hit : ts.closeFrom b depth i count = some close) : i ≤ close ∧ close < i + count := by
  induction count generalizing depth i with
  | zero => simp [closeFrom] at hit
  | succ count ih =>
    rw [closeFrom] at hit
    split at hit
    · have bounds := ih hit
      omega
    · split at hit
      · split at hit
        · cases hit
          omega
        · have bounds := ih hit
          omega
      · have bounds := ih hit
        omega

/-- A closing partner stands after its opening one and below the limit. -/
theorem matching_close_bounds {ts : TokenSeq} {i limit close : Nat}
    (hit : ts.matchingClose i limit = some close) :
    i < close ∧ close < limit ∧ close < ts.size := by
  simp only [matchingClose, Option.bind_eq_bind, Option.bind_eq_some_iff] at hit
  obtain ⟨_, _, hit⟩ := hit
  have bounds := close_from_bounds hit
  omega

theorem open_from_bounds {ts : TokenSeq} {b : Bracket} {depth floor count start : Nat}
    (hit : ts.openFrom b depth floor count = some start) :
    floor ≤ start ∧ start < floor + count := by
  induction count generalizing depth with
  | zero => simp [openFrom] at hit
  | succ count ih =>
    rw [openFrom] at hit
    split at hit
    · have bounds := ih hit
      omega
    · split at hit
      · split at hit
        · cases hit
          omega
        · have bounds := ih hit
          omega
      · have bounds := ih hit
        omega

/-- An opening partner stands before its closing one and not below the floor. -/
theorem matching_open_bounds {ts : TokenSeq} {i floor start : Nat}
    (hit : ts.matchingOpen i floor = some start) : floor ≤ start ∧ start < i := by
  simp only [matchingOpen, Option.bind_eq_bind, Option.bind_eq_some_iff] at hit
  obtain ⟨_, _, hit⟩ := hit
  have bounds := open_from_bounds hit
  omega

end TokenSeq

end AllocGuard
