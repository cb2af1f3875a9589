import AllocGuard.Body.Statement

/-! The edits of the body of a marked function. An unsafe site gets a guard behind its
statement, returns deliver the value and the status, calls of other changed functions
take their status into account, and a body whose end can be reached returns a status
there. -/
namespace AllocGuard

/-- The body of a marked function, and what its edits depend on. -/
structure BodyTask where
  ts : TokenSeq
  function : Function
  /-- How the function itself returns. -/
  shape : ReturnShape
  /-- How every changed function returns, by name. -/
  shapes : List (String × ReturnShape)
  /-- The status that reports a failure. -/
  failureCode : String
  /-- Whether returning a null pointer reports a failure. -/
  nullIsFailure : Bool

/-- The edits of a body, and how many guards, returns and calls they are for. -/
structure BodyEdits where
  edits : List Edit
  guards : Nat
  returns : Nat
  calls : Nat
deriving Repr, DecidableEq

namespace BodyTask

/-- The statement that leaves the function after a failure. -/
def failStatement (t : BodyTask) : String :=
  if t.shape.returnsStatus then "return " ++ t.failureCode ++ ";" else "return;"

/-- The statement, in a block of its own if asked for. -/
def braced (block : Bool) (statement : String) : String :=
  if block then "\x7b " ++ statement ++ " \x7d" else statement

/-- A check that leaves the function when the condition holds. -/
def failIf (t : BodyTask) (condition : String) : String :=
  "if (" ++ condition ++ ") " ++ t.failStatement

/-! ## Guards -/

/-- A guard behind a statement, in one block with it if it is the body of a control
statement. -/
def guardBehind (t : BodyTask) (site : Site) (statement : SiteStatement) (subject : Nat × Nat) :
    List Edit :=
  let guard :=
    t.failIf (site.allocator.failure.condition (t.ts.spellRange subject.1 subject.2))
  if statement.controlled then
    [.insertion statement.start "\x7b ", .insertion (statement.semi + 1) (" " ++ guard ++ " \x7d")]
  else [.insertion (statement.semi + 1) (" " ++ guard)]

/-- The edits that guard a site, if it can be guarded. A result that is assigned is
checked behind the statement; a call whose result is dropped becomes the condition. -/
def guardEdits? (t : BodyTask) (site : Site) : Option (List Edit) :=
  match site.statement, site.form, site.subject with
  | some statement, .assignment, some subject => some (t.guardBehind site statement subject)
  | some statement, .declaration, some subject => some (t.guardBehind site statement subject)
  | some statement, .discarded, _ =>
    let call := t.ts.textRange site.call (site.close + 1)
    let check := t.failIf (site.allocator.failure.condition call)
    some [⟨statement.start, statement.semi + 1, braced statement.controlled check⟩]
  | _, _, _ => none

/-- The edits for every unsafe site that can be guarded. -/
def guards (t : BodyTask) (sites : List Site) : List (List Edit) :=
  (sites.filter fun s => s.isUnsafe && !s.isReturn).filterMap t.guardEdits?

/-! ## Returns -/

/-- The call at `call` with one more argument. -/
def callWith (t : BodyTask) (call opening close : Nat) (extra : String) : String :=
  let head := t.ts.textRange call close
  if (t.ts.nextSignificant (opening + 1) close).isNone then head ++ extra ++ ")"
  else head ++ ", " ++ extra ++ ")"

/-- Whether the named function delivers its value through a parameter. -/
def hasOutParam (t : BodyTask) (name : String) : Bool :=
  match t.shapes.lookup name with
  | some (.outParam _ _) => true
  | _ => false

/-- The call in `[start, semi)` with the out parameter handed on, when these tokens are
a call of a function that delivers its value through a parameter, and nothing else. -/
def forwardedCall? (t : BodyTask) (start semi : Nat) (out : String) : Option String := do
  guard (t.ts.hasKind start .identifier && t.hasOutParam (t.ts.spelling start))
  let opening ← t.ts.nextSignificant (start + 1) semi
  guard (t.ts.hasKind opening .openParen)
  let close ← t.ts.matchingClose opening semi
  guard (t.ts.nextSignificant (close + 1) semi).isNone
  return t.callWith start opening close out

/-- What takes the place of a `return` of the expression in `[start, semi)` when the
value goes out through `out`. -/
def deliver (t : BodyTask) (sites : List Site) (out : String) (start semi : Nat) : String :=
  let isFailure := t.nullIsFailure && t.function.returnsPointer &&
    t.ts.isNullExpression (t.ts.significant start semi)
  if isFailure then t.failStatement
  else
    let store := "*" ++ out ++ " = " ++ Text.trim (t.ts.textRange start semi) ++ "; "
    let allocator := (sites.find? fun s => s.isReturn && start ≤ s.call && s.call < semi).map
      Site.allocator
    match allocator.filter (·.result == .returned) with
    | some a => braced true (store ++ t.failIf (a.failure.condition ("*" ++ out)) ++ " return 0;")
    | none =>
      match t.forwardedCall? start semi out with
      | some call => "return " ++ call ++ ";"
      | none => braced true (store ++ "return 0;")

/-- The edit of the `return` at `i`, if it changes. -/
def returnEdit? (t : BodyTask) (sites : List Site) (i : Nat) : Option Edit := do
  guard (t.ts.isIdent i "return")
  let semi ← t.ts.semicolonAfter (i + 1) t.function.stop
  match t.shape, t.ts.nextSignificant (i + 1) semi with
  | .voidToInt, none => return ⟨i, semi + 1, "return 0;"⟩
  | .outParam _ out, some start => return ⟨i, semi + 1, t.deliver sites out start semi⟩
  | _, _ => none

def returns (t : BodyTask) (sites : List Site) : List Edit :=
  (Position.range t.function.body t.function.stop).filterMap (t.returnEdit? sites)

/-! ## Calls -/

/-- The edit of a call that is a statement of its own, `before` being the token in
front of it. -/
def statusCallEdit? (t : BodyTask) (before call close semi : Nat) : Option Edit :=
  if t.ts.endsStatement before t.function.body then
    let check := t.failIf (t.ts.textRange call (close + 1) ++ " != 0")
    some ⟨call, semi + 1, braced (t.ts.endsControlHead before t.function.body) check⟩
  else none

/-- The edit of a call whose value is assigned by the `=` at `assign`. The lvalue is
handed to the call, and a declaration keeps the name without the initializer. -/
def assignedCallEdit? (t : BodyTask) (assign call opening close semi : Nat) : Option Edit := do
  let floor := t.function.body
  let (start, stop) ← t.ts.lvalueBefore assign floor
  let target := Text.trim (t.ts.textRange start stop)
  let check := t.failIf (t.callWith call opening close ("&" ++ target) ++ " != 0")
  match t.ts.prevSignificant start floor with
  | some before =>
    if t.ts.endsControlHead before floor then return ⟨start, semi + 1, braced true check⟩
    else if t.ts.endsStatement before floor then return ⟨start, semi + 1, check⟩
    else return ⟨stop, semi + 1, "; " ++ check⟩
  | none => return ⟨stop, semi + 1, "; " ++ check⟩

/-- The edit of the call at `call`, if a changed function is called there in a form
that can be changed with it. -/
def callEdit? (t : BodyTask) (call : Nat) : Option Edit := do
  let floor := t.function.body
  let limit := t.function.stop
  guard (t.ts.hasKind call .identifier)
  let shape ← t.shapes.lookup (t.ts.spelling call)
  let opening ← t.ts.nextSignificant (call + 1) limit
  guard (t.ts.hasKind opening .openParen && !t.ts.isMember call floor)
  let close ← t.ts.matchingClose opening limit
  let before ← t.ts.prevSignificant call floor
  guard (!t.ts.isIdent before "return")
  let semi ← t.ts.nextSignificant (close + 1) limit
  guard (t.ts.hasKind semi .semicolon)
  match shape with
  | .unchanged _ => none
  | .voidToInt => t.statusCallEdit? before call close semi
  | .outParam _ _ =>
    if t.ts.hasKind before .assign then t.assignedCallEdit? before call opening close semi
    else none

def calls (t : BodyTask) : List Edit :=
  (Position.range (t.function.body + 1) t.function.stop).filterMap t.callEdit?

/-! ## The end of the body -/

/-- Whether the last statement before the closing brace is a `return`. -/
def endsInReturn (t : BodyTask) (close : Nat) : Bool :=
  let body := t.function.body
  (t.ts.prevSignificant close (body + 1)).any fun last =>
    let isEdge := fun i => t.ts.kindIs i TokenKind.isStatementEdge
    let start := ((Position.lastIn? isEdge body last).getD body) + 1
    t.ts.hasKind last .semicolon && (t.ts.nextSignificant start last).any (t.ts.isIdent · "return")

/-- The status that is returned at the end of the body, unless a `return` stands there
already. It goes on a line of its own where the brace does. -/
def tail? (t : BodyTask) : Option Edit :=
  let close := t.function.stop - 1
  let changes :=
    match t.shape with
    | .unchanged _ => false
    | _ => true
  if changes && t.function.body < close && t.ts.hasKind close .closeBrace &&
      !t.endsInReturn close then
    let ownLine := t.ts.hasKind (close - 1) .space &&
      ((t.ts.get? (close - 1)).map Token.raw).any (·.contains '\n')
    some (.insertion close (if ownLine then "    return 0;\n" else "return 0; "))
  else none

/-- All edits of the body, given the sites in it. -/
def run (t : BodyTask) (sites : List Site) : BodyEdits :=
  let guards := t.guards sites
  let returns := t.returns sites
  let calls := t.calls
  { edits := guards.flatten ++ returns ++ calls ++ t.tail?.toList
    guards := guards.length
    returns := returns.length
    calls := calls.length }

end BodyTask

end AllocGuard
