import AllocGuard.CallGraph
import AllocGuard.Edit

/-! Headers of functions, and what becomes of them. A function that returned nothing
returns a status. One that returned a value returns a status too, and delivers the
value through a new parameter at the end. The entry point, and a function that returns
a plain `int`, which is a status already, keep their header. -/
namespace AllocGuard

/-- The parts of a function header. -/
structure Header where
  /-- The first token that a new header replaces: the return type, or the whole header
  when the return type defines an aggregate. -/
  typeStart : Nat
  /-- What a new header starts with: the definition of that aggregate as a declaration
  of its own, and the storage specifiers. -/
  lead : String
  nameToken : Nat
  name : String
  returnType : String
  paramsOpen : Nat
  paramsClose : Nat
  params : String
deriving Repr, DecidableEq

/-- Why a header cannot be taken apart. -/
inductive HeaderError where
  | noParameterList
  | noName
  | noReturnType
  | openParameterList
  | openAggregate
  | untaggedAggregate
deriving Repr, DecidableEq

namespace HeaderError

def detail : HeaderError → String
  | noParameterList => "no parameter list found"
  | noName => "no function name before '('"
  | noReturnType => "missing return type"
  | openParameterList => "unterminated parameter list"
  | openAggregate => "unterminated aggregate body"
  | untaggedAggregate => "return type defines an untagged aggregate"

def fault (e : HeaderError) : Fault :=
  ⟨.badArgument, e.detail⟩

end HeaderError

namespace TokenSeq

/-- The text of the tokens `[start, stop)`, without blanks around. -/
def trimmedRange (ts : TokenSeq) (start stop : Nat) : String :=
  Text.trim (ts.textRange start stop)

/-- The return type in `[typeStart, nameToken)` of a header that starts at `start`,
with where a new header starts and what it starts with. An aggregate that the type
defines keeps its definition in front, and the type names it by its tag. -/
def returnTypeParts (ts : TokenSeq) (start typeStart nameToken : Nat) :
    Except HeaderError (Nat × String × String) :=
  match Position.firstIn? (ts.hasKind · .openBrace) typeStart nameToken with
  | none => .ok (typeStart, "", ts.trimmedRange typeStart nameToken)
  | some brace =>
    match ts.matchingClose brace nameToken with
    | none => .error .openAggregate
    | some close =>
      if (ts.prevSignificant brace typeStart).any (ts.hasKind · .identifier) then
        let definition := ts.textRange typeStart (close + 1) ++ "; "
        let storage := ts.trimmedRange start typeStart
        let named := ts.trimmedRange typeStart brace ++ " " ++ ts.trimmedRange (close + 1) nameToken
        .ok (start, if storage.isEmpty then definition else definition ++ storage ++ " ",
          Text.trimEnd named)
      else .error .untaggedAggregate

/-- The parts of the function header in `[start, stop)`. -/
def header (ts : TokenSeq) (start stop : Nat) : Except HeaderError Header := do
  let some paramsOpen := ts.parameterList? start stop | throw .noParameterList
  let some nameToken := (ts.prevSignificant paramsOpen start).filter (ts.hasKind · .identifier)
    | throw .noName
  let typeStart := ts.skipStorage start nameToken
  if nameToken ≤ typeStart then throw .noReturnType
  let some paramsClose := ts.matchingClose paramsOpen stop | throw .openParameterList
  let (typeStart, lead, returnType) ← ts.returnTypeParts start typeStart nameToken
  return {
    typeStart, lead, nameToken, returnType, paramsOpen, paramsClose
    name := ts.spelling nameToken
    params := ts.trimmedRange (paramsOpen + 1) paramsClose }

end TokenSeq

/-- Whether the parameter list is empty or says `void`. -/
def Header.hasNoParams (h : Header) : Bool :=
  h.params.isEmpty || Text.trim (normalize h.params) == "void"

/-! ## New headers -/

/-- How the way in which a function returns changes. -/
inductive ReturnShape where
  /-- The header stays. `isVoid` tells whether nothing is returned. -/
  | unchanged (isVoid : Bool)
  | voidToInt
  /-- The value of this type goes out through the parameter of this name. -/
  | outParam (type name : String)
deriving Repr, DecidableEq

namespace ReturnShape

/-- Whether the function returns a status after the change. -/
def returnsStatus : ReturnShape → Bool
  | unchanged isVoid => !isVoid
  | voidToInt | outParam _ _ => true

/-- The name of the new parameter, if there is one. -/
def outName? : ReturnShape → Option String
  | outParam _ name => some name
  | _ => none

end ReturnShape

/-- The name followed by this many underscores. -/
def underscored (name : String) (count : Nat) : String :=
  name ++ String.ofList (List.replicate count '_')

/-- The name with the fewest underscores behind it that is not among those used. -/
def freshName (used : List String) (name : String) : String :=
  let isFree := fun count => !used.contains (underscored name count)
  underscored name ((Position.first? isFree 0 (used.length + 1)).getD used.length)

namespace TokenSeq

/-- The identifiers among the tokens `[start, stop)`. -/
def identifiersIn (ts : TokenSeq) (start stop : Nat) : List String :=
  ((Position.range start (min stop ts.size)).filter (ts.hasKind · .identifier)).map ts.spelling

/-- A name that no identifier in `[start, stop)` has, made from a preferred one. -/
def uniqueName (ts : TokenSeq) (start stop : Nat) (preferred : String) : String :=
  freshName (ts.identifiersIn start stop) preferred

/-- The parameter list with a parameter of type pointer to `type` added at its end. -/
def paramsWith (h : Header) (name : String) : String :=
  let added := h.returnType ++ " *" ++ name
  if h.hasNoParams then added else h.params ++ ", " ++ added

/-- The edit that gives a function a header returning `int` with these parameters. -/
def headerEdit (h : Header) (params : String) : Edit :=
  ⟨h.typeStart, h.paramsClose + 1, h.lead ++ "int " ++ h.name ++ "(" ++ params ++ ")"⟩

/-- What becomes of the header of a marked function. -/
def reshape (ts : TokenSeq) (f : Function) (outParam : String) :
    Except HeaderError (ReturnShape × Option Edit) := do
  if f.isEntry then return (.unchanged f.returnsVoid, none)
  let h ← ts.header f.start f.body
  if f.returnsVoid then return (.voidToInt, some (headerEdit h h.params))
  if !f.returnsPointer && Word.isPlainInt h.returnType then return (.unchanged false, none)
  let name := ts.uniqueName f.start f.stop outParam
  return (.outParam h.returnType name, some (headerEdit h (paramsWith h name)))

end TokenSeq

end AllocGuard
