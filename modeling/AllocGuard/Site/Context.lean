import AllocGuard.Site.Lvalue

/-! Where a call stands: the block around it, the groups that are open at it, and the
statement that holds it. -/
namespace AllocGuard

/-- The surroundings of a call inside its block. -/
structure CallContext where
  /-- The first token behind the nearest brace in front of the call. -/
  region : Nat
  /-- The parentheses that are open at the call, the innermost first. -/
  parens : List Nat
  /-- The first token of the statement that holds the call. -/
  statement : Nat
  /-- Whether that statement is the body of a control statement. -/
  controlled : Bool
deriving Repr, DecidableEq

namespace TokenSeq

/-- Whether the token in front of `i`, not below `floor`, is one of these words. -/
def followsWord (ts : TokenSeq) (words : List String) (i floor : Nat) : Bool :=
  (ts.prevSignificant i floor).any fun p => words.any (ts.isIdent p ·)

/-- Whether the parenthesis opens the head of a control statement. -/
def opensControlHead (ts : TokenSeq) (opening floor : Nat) : Bool :=
  ts.followsWord ["if", "while", "for", "switch"] opening floor

/-- Whether the parenthesis opens the condition of an `if` or a `while`. -/
def opensCondition (ts : TokenSeq) (opening floor : Nat) : Bool :=
  ts.followsWord ["if", "while"] opening floor

/-- What a scan of a region has seen: the parentheses that are open, the innermost
first, and the last token that ends a statement or the head of one, with whether what
follows is the body of a control statement. -/
structure RegionScan where
  parens : List Nat
  edge : Option (Nat × Bool)

/-- The scan after the token at `i`. -/
def RegionScan.next (ts : TokenSeq) (region : Nat) (scan : RegionScan) (i : Nat) : RegionScan :=
  match ts.kind? i, scan.parens with
  | some .openParen, parens => { scan with parens := i :: parens }
  | some .closeParen, [] => scan
  | some .closeParen, [opening] =>
    ⟨[], if ts.opensControlHead opening region then some (i, true) else scan.edge⟩
  | some .closeParen, _ :: parens => { scan with parens := parens }
  | some .semicolon, [] => { scan with edge := some (i, false) }
  | some .colon, [] => { scan with edge := some (i, false) }
  | some .identifier, [] =>
    if ts.isIdent i "else" || ts.isIdent i "do" then { scan with edge := some (i, true) } else scan
  | _, _ => scan

/-- The surroundings of the call at `call`, in a body that starts at `floor`. -/
def callContext (ts : TokenSeq) (call floor : Nat) : CallContext :=
  let isBrace := fun i => ts.hasKind i .openBrace || ts.hasKind i .closeBrace
  let region := ((Position.lastIn? isBrace floor call).map (· + 1)).getD floor
  let scan := (Position.range region call).foldl (RegionScan.next ts region) ⟨[], none⟩
  let edgeStop := (scan.edge.map (·.1 + 1)).getD region
  { region
    parens := scan.parens
    statement := (ts.nextSignificant edgeStop (call + 1)).getD call
    controlled := (scan.edge.map (·.2)).getD false }

/-- The `;` that ends a statement, among the `count` tokens from `i` on, `depth` being
the number of groups that are open. A brace outside all groups ends the search. The
depth has no bound: a counter of 32 bits parts from it only past 2^31 open groups. -/
def statementStopFrom (ts : TokenSeq) (depth : Int) (i : Nat) : Nat → Option Nat
  | 0 => none
  | count + 1 =>
    match ts.kind? i with
    | some .openParen | some .openBracket => ts.statementStopFrom (depth + 1) (i + 1) count
    | some .closeParen | some .closeBracket => ts.statementStopFrom (depth - 1) (i + 1) count
    | some .semicolon => if depth = 0 then some i else ts.statementStopFrom depth (i + 1) count
    | some .openBrace | some .closeBrace =>
      if depth ≤ 0 then none else ts.statementStopFrom depth (i + 1) count
    | some _ => ts.statementStopFrom depth (i + 1) count
    | none => none

/-- The `;` of the statement that holds a call which closes at `close`, inside `depth`
groups, below `limit`. -/
def statementStop? (ts : TokenSeq) (close depth limit : Nat) : Option Nat :=
  ts.statementStopFrom depth (close + 1) (min limit ts.size - (close + 1))

/-- The first token to the left of `i` that is not part of a group: what stands in
front of a call and its casts. -/
def beforeCasts? (ts : TokenSeq) (i floor : Nat) : Option Nat :=
  match before : ts.prevSignificant i floor with
  | none => none
  | some prev =>
    if ts.hasKind prev .closeParen then
      match opens : ts.matchingOpen prev floor with
      | none => none
      | some opening => ts.beforeCasts? opening floor
    else some prev
termination_by i
decreasing_by
  have bounds := prev_significant_bounds before
  have opened := matching_open_bounds opens
  omega

end TokenSeq

end AllocGuard
