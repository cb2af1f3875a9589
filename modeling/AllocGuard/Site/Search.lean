import AllocGuard.Allocator
import AllocGuard.Site.Context

/-! Allocation sites: the calls of known allocators in a body, the form each stands
in, and whether its result is checked. A result that is assigned is followed to the
first later place that names it. That place checks it when it lies in the condition of
an `if` or a `while`, and uses it otherwise. The rule goes by the text, not by the flow
of control. -/
namespace AllocGuard

/-- The form in which a call stands. -/
inductive SiteForm where
  | assignment
  | declaration
  | returned
  /-- The call is a statement of its own, and its result is dropped. -/
  | discarded
  | expression
deriving Repr, DecidableEq

/-- The statement that holds a site, when the site stands in no group. -/
structure SiteStatement where
  start : Nat
  semi : Nat
  /-- Whether it is the body of a control statement. -/
  controlled : Bool
deriving Repr, DecidableEq

/-- A call of an allocator. -/
structure Site where
  allocator : Allocator
  /-- The token of the called name. -/
  call : Nat
  /-- The closing parenthesis of the call. -/
  close : Nat
  form : SiteForm
  /-- The tokens of the lvalue that takes the result. -/
  subject : Option (Nat × Nat)
  /-- The lvalue or argument that receives the resource, spelled out. -/
  resource : Option String
  statement : Option SiteStatement
  checked : Bool
  usedBeforeCheck : Bool
deriving Repr, DecidableEq

namespace Site

def isReturn (s : Site) : Bool :=
  s.form == .returned

/-- A site is unsafe when its result is not checked, or is used before. -/
def isUnsafe (s : Site) : Bool :=
  !s.checked || s.usedBeforeCheck

/-- Whether a check can be put behind the statement that holds the site. -/
def isGuardable (s : Site) : Bool :=
  s.statement.isSome &&
    match s.form with
    | .assignment | .declaration => s.subject.isSome
    | .discarded => true
    | .returned | .expression => false

end Site

/-- What becomes of a result at the first later place that names it. -/
inductive Fate where
  | checked
  | used
  | overwritten
  | absent
deriving Repr, DecidableEq

namespace TokenSeq

/-! ## The fate of a result -/

/-- The end of the tokens from `i` on, below `limit`, that spell these words. -/
def matchWords (ts : TokenSeq) (limit : Nat) : List String → Nat → Option Nat
  | [], i => some i
  | word :: rest, i => do
    let next ← ts.nextSignificant i limit
    if ts.spelling next == word then ts.matchWords limit rest (next + 1) else none

/-- The end of the subject, given by its spellings, if it stands at `i`. -/
def matchSubject (ts : TokenSeq) (limit : Nat) (subject : List String) (i : Nat) : Option Nat :=
  if ts.isSignificant i then ts.matchWords limit subject i else none

/-- Whether a group around the token in front of which `count` tokens from `floor` on
stand is the condition of an `if` or a `while`. They are read backwards, `depth` groups
being closed. The depth has no bound: a counter of 32 bits parts from it only past 2^31
groups. -/
def insideConditionFrom (ts : TokenSeq) (depth floor : Nat) : Nat → Bool
  | 0 => false
  | count + 1 =>
    let i := floor + count
    if ts.hasKind i .closeParen then ts.insideConditionFrom (depth + 1) floor count
    else if ts.hasKind i .openParen then
      if depth = 0 then
        ts.opensCondition i floor || ts.insideConditionFrom depth floor count
      else ts.insideConditionFrom (depth - 1) floor count
    else if depth = 0 && ts.kindIs i TokenKind.isStatementEdge then false
    else ts.insideConditionFrom depth floor count

/-- Whether the token at `i` stands in the condition of an `if` or a `while`. -/
def insideCondition (ts : TokenSeq) (i floor : Nat) : Bool :=
  ts.insideConditionFrom 0 floor (i - floor)

/-- Whether the token at `i` starts a statement. -/
def startsStatement (ts : TokenSeq) (i floor : Nat) : Bool :=
  (ts.prevSignificant i floor).all fun p => ts.kindIs p TokenKind.isStatementEdge

/-- The fate of the subject in `[start, limit)`. A member of the same name in another
object is another subject. -/
def fate (ts : TokenSeq) (subject : List String) (start floor limit : Nat) : Fate :=
  let names := fun i => (ts.matchSubject limit subject i).isSome && !ts.isMember i floor
  if subject.isEmpty then .absent
  else
    match Position.firstIn? names start (min limit ts.size) with
    | none => .absent
    | some i =>
      let next := (ts.matchSubject limit subject i).bind (ts.nextSignificant · limit)
      if ts.startsStatement i floor && next.any (ts.hasKind · .assign) then .overwritten
      else if ts.insideCondition i floor then .checked
      else .used

/-! ## Sites -/

/-- The resource that an argument receives, spelled out without the `&` in front. -/
def argumentResource (ts : TokenSeq) (argument : Nat × Nat) : String :=
  let first := (ts.nextSignificant argument.1 argument.2).getD argument.1
  let start :=
    if ts.hasKind first .ampersand then
      (ts.nextSignificant (first + 1) argument.2).getD first
    else first
  ts.spellRange start argument.2

/-- The site of the call at `call` that closes at `close`, in the body `[floor, limit)`. -/
def classify (ts : TokenSeq) (allocator : Allocator) (call close : Nat)
    (arguments : List (Nat × Nat)) (floor limit : Nat) : Site :=
  let context := ts.callContext call floor
  let nested := !context.parens.isEmpty
  let semi := ts.statementStop? close context.parens.length limit
  let left := ts.beforeCasts? call context.region
  let subject :=
    (left.filter (ts.hasKind · .assign)).bind (ts.lvalueBefore · context.region)
  let form : SiteForm :=
    match subject with
    | some (start, _) =>
      if start == context.statement || nested then .assignment else .declaration
    | none =>
      if left.any (ts.isIdent · "return") then .returned
      else if !nested && context.statement == call && semi.isSome &&
          ts.nextSignificant (close + 1) limit == semi then .discarded
      else .expression
  let resource :=
    match allocator.result with
    | .argument n => arguments[n]?.map ts.argumentResource
    | .returned => none
  let inCondition := context.parens.getLast?.any (ts.opensCondition · context.region)
  let fate : Fate :=
    if form == .returned then .absent
    else if inCondition then .checked
    else
      match subject with
      | some (start, stop) =>
        ts.fate ((ts.significant start stop).map ts.spelling) (semi.getD close + 1) floor limit
      | none => .absent
  { allocator, call, close, form, subject
    resource := resource <|> subject.map fun (start, stop) => ts.spellRange start stop
    statement := if nested then none
      else semi.map fun semi => ⟨context.statement, semi, context.controlled⟩
    checked := fate == .checked
    usedBeforeCheck := fate == .used }

/-- The site at `i`, if an allocator is called there. A member of an object is no
allocator, and the number of arguments counts. -/
def siteAt? (ts : TokenSeq) (registry : Registry) (start stop i : Nat) : Option Site := do
  guard (ts.hasKind i .identifier && registry.isRegistered (ts.spelling i))
  let opening ← ts.nextSignificant (i + 1) stop
  guard (ts.hasKind opening .openParen && !ts.isMember i start)
  let close ← ts.matchingClose opening stop
  let arguments := ts.splitArguments opening close
  let allocator ← registry.lookup (ts.spelling i) arguments.length
  return ts.classify allocator i close arguments start stop

/-- The sites in the tokens `[start, stop)`, in order. -/
def sites (ts : TokenSeq) (registry : Registry) (start stop : Nat) : List Site :=
  let stop := min stop ts.size
  (Position.range start stop).filterMap (ts.siteAt? registry start stop)

end TokenSeq

end AllocGuard
