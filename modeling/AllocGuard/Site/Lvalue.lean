import AllocGuard.Declaration.Words

/-! Expressions around a call: the arguments it is given, and the lvalue that it is
assigned to. -/
namespace AllocGuard.TokenSeq

/-! ## Arguments -/

/-- The arguments that end at `stop`, of which the current one starts at `start`,
reading the `count` tokens from `i` on inside `depth` brackets. The depth has no bound: a
counter of 32 bits parts from it only past 2^31 open brackets. -/
def argumentsFrom (ts : TokenSeq) (stop : Nat) (depth : Int) (start i : Nat) :
    Nat → List (Nat × Nat)
  | 0 => [(start, stop)]
  | count + 1 =>
    if ts.kindIs i TokenKind.isOpener then ts.argumentsFrom stop (depth + 1) start (i + 1) count
    else if ts.kindIs i TokenKind.isCloser then
      ts.argumentsFrom stop (depth - 1) start (i + 1) count
    else if depth == 0 && ts.hasKind i .comma then
      (start, i) :: ts.argumentsFrom stop depth (i + 1) (i + 1) count
    else ts.argumentsFrom stop depth start (i + 1) count

/-- The ranges of the arguments between the parentheses `opening` and `close`. A call
with nothing but white space and comments between them has none. -/
def splitArguments (ts : TokenSeq) (opening close : Nat) : List (Nat × Nat) :=
  if (ts.nextSignificant (opening + 1) close).isNone then []
  else
    ts.argumentsFrom close 0 (opening + 1) (opening + 1) (min close ts.size - (opening + 1))

/-! ## Lvalues -/

/-- Whether two tokens of this kind need a space between them. -/
def readsAsWord (kind : TokenKind) : Bool :=
  kind.isWord || kind == .number

/-- The spellings of the tokens at `positions`, with a space where two words meet.
`afterWord` tells whether a word stands in front. -/
def spellPositions (ts : TokenSeq) (afterWord : Bool) : List Nat → String
  | [] => ""
  | i :: rest =>
    let word := ts.kindIs i readsAsWord
    (if word && afterWord then " " else "") ++ ts.spelling i ++ ts.spellPositions word rest

/-- The tokens of `[start, stop)` on one line and as close as they can stand. -/
def spellRange (ts : TokenSeq) (start stop : Nat) : String :=
  ts.spellPositions false (ts.significant start stop)

/-- The first token of the postfix expression that ends at `j`: names joined by `.`
and `->`, with subscripts behind them. A group in front of it all is its start. -/
def postfixStart (ts : TokenSeq) (floor j : Nat) : Option Nat :=
  match ts.kind? j with
  | some .closeBracket =>
    match opens : ts.matchingOpen j floor with
    | none => none
    | some opening =>
      match before : ts.prevSignificant opening floor with
      | none => none
      | some prev => ts.postfixStart floor prev
  | some .identifier =>
    match access : ts.prevSignificant j floor with
    | none => some j
    | some p =>
      if ts.kindIs p TokenKind.isMemberAccess then
        match before : ts.prevSignificant p floor with
        | none => none
        | some prev => ts.postfixStart floor prev
      else some j
  | some .closeParen => ts.matchingOpen j floor
  | _ => none
termination_by j
decreasing_by
  · have opened := matching_open_bounds opens
    have bounds := prev_significant_bounds before
    omega
  · have bounds := prev_significant_bounds before
    have accessed := prev_significant_bounds access
    omega

/-- The start of the statement that the `count` tokens from `floor` on lead up to,
read backwards inside `depth` groups: right behind a `;` or a brace. There is none
inside a group, such as an argument list or the head of a loop. The depth has no bound: a
counter of 32 bits parts from it only past 2^31 groups. -/
def statementStartBefore (ts : TokenSeq) (depth floor : Nat) : Nat → Option Nat
  | 0 => some floor
  | count + 1 =>
    let i := floor + count
    if ts.hasKind i .closeParen || ts.hasKind i .closeBracket then
      ts.statementStartBefore (depth + 1) floor count
    else if ts.hasKind i .openParen || ts.hasKind i .openBracket then
      if depth = 0 then none else ts.statementStartBefore (depth - 1) floor count
    else if depth = 0 && ts.kindIs i TokenKind.isStatementEdge then some (i + 1)
    else ts.statementStartBefore depth floor count

/-- Whether the statement that holds `i` declares something: it starts with a keyword,
a type or storage word, or a name that another name or a `*` follows. -/
def inDeclaration (ts : TokenSeq) (i floor : Nat) : Bool :=
  ((ts.statementStartBefore 0 floor (i - floor)).bind (ts.nextSignificant · i)).any fun first =>
    if ts.kindIs first TokenKind.isKeyword then true
    else if ts.hasKind first .identifier then
      Word.isBuiltinType (ts.spelling first) || Word.isStorage (ts.spelling first) ||
        (ts.nextSignificant (first + 1) i).any fun next =>
          ts.hasKind next .identifier || ts.hasKind next .star
    else false

/-- Whether the `*` at `star` is applied to an expression and is not part of a
declarator. -/
def isUnaryStar (ts : TokenSeq) (star floor : Nat) : Bool :=
  match ts.prevSignificant star floor with
  | none => true
  | some before =>
    match ts.kind? before with
    | some .comma => !ts.inDeclaration before floor
    | some .openParen | some .colon => true
    | some kind => kind.isStatementEdge
    | none => false

/-- The tokens of the lvalue that the `=` at `assign` assigns to: a postfix expression,
with one unary `*` in front of it if there is one. -/
def lvalueBefore (ts : TokenSeq) (assign floor : Nat) : Option (Nat × Nat) := do
  let last ← ts.prevSignificant assign floor
  let first ← ts.postfixStart floor last
  match ts.prevSignificant first floor with
  | some star =>
    if ts.hasKind star .star && ts.isUnaryStar star floor then return (star, last + 1)
    else return (first, last + 1)
  | none => return (first, last + 1)

end AllocGuard.TokenSeq
