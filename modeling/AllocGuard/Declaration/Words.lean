import AllocGuard.Source.Glyph
import AllocGuard.Text.Blank
import AllocGuard.Token.Bracket

/-! The words of declarations, and the type words that are left of a text of
specifiers when storage words and attributes are taken away. -/
namespace AllocGuard

namespace Word

/-- Words that name a builtin type or part of one. None of them can be declared. -/
def isBuiltinType (word : String) : Bool :=
  ["void", "char", "short", "int", "long", "float", "double", "signed", "unsigned",
    "__signed__", "__unsigned__", "_Bool", "bool", "_Imaginary", "__int128", "_Float16",
    "_Float32", "_Float64", "_Float128", "_Decimal32", "_Decimal64",
    "_Decimal128"].contains word

/-- Words that, with a group after them, stand for a type. -/
def isTypeof (word : String) : Bool :=
  ["typeof", "__typeof__", "__typeof", "typeof_unqual", "_BitInt"].contains word

/-- Words that, with a group after them, are an attribute of what is declared. -/
def isAttribute (word : String) : Bool :=
  ["__attribute__", "__attribute", "__declspec", "_Alignas", "alignas", "__asm__",
    "asm"].contains word

/-- Storage-class and function specifiers, keywords of the scanner or not. -/
def isStorage (word : String) : Bool :=
  ["typedef", "extern", "static", "inline", "__inline", "__inline__", "register", "auto",
    "_Thread_local", "thread_local", "__thread", "_Noreturn", "noreturn",
    "__extension__"].contains word

/-! ## Type words of a text -/

def isStart (c : Char) : Bool :=
  c.isAlpha || c == '_'

def isChar (c : Char) : Bool :=
  c.isAlphanum || c == '_'

/-- The white space that may stand between an attribute word and its group. -/
def isGap (c : Char) : Bool :=
  c == ' ' || c == '\t' || c == '\n' || c == '\x0c' || c == '\r'

/-- What follows a group of which `depth` parentheses are open: nothing, when the
group has no end. -/
def afterGroup (depth : Nat) : List Char → List Char
  | [] => []
  | '(' :: rest => afterGroup (depth + 1) rest
  | ')' :: rest => if depth ≤ 1 then rest else afterGroup (depth - 1) rest
  | _ :: rest => afterGroup depth rest

theorem after_group_length (depth : Nat) (cs : List Char) :
    (afterGroup depth cs).length ≤ cs.length := by
  fun_induction afterGroup depth cs <;> grind

/-- The text with every attribute, its word and its group, replaced by a space. An
attribute word without a group is a word like any other. -/
def stripAttributes : List Char → List Char
  | [] => []
  | c :: rest =>
    if isStart c then
      let word := c :: rest.takeWhile isChar
      let after := rest.dropWhile isChar
      if isAttribute (String.ofList word) then
        match group : after.dropWhile isGap with
        | '(' :: inner => ' ' :: stripAttributes (afterGroup 1 inner)
        | _ => word ++ stripAttributes after
      else word ++ stripAttributes after
    else c :: stripAttributes rest
termination_by cs => cs.length
decreasing_by
  · have shorter := after_group_length 1 inner
    have gap := (List.dropWhile_sublist isGap (l := rest.dropWhile isChar)).length_le
    have tail := (List.dropWhile_sublist isChar (l := rest)).length_le
    simp only [after] at group
    rw [group] at gap
    simp only [List.length_cons] at *
    omega
  · have tail := (List.dropWhile_sublist isChar (l := rest)).length_le
    simp only [List.length_cons]
    omega
  · have tail := (List.dropWhile_sublist isChar (l := rest)).length_le
    simp only [List.length_cons]
    omega
  · simp

/-- The type words of a text of specifiers, in order. -/
def typeWords (specifiers : String) : List String :=
  (Text.words (stripAttributes (logicalChars specifiers.toList))).filter (!isStorage ·)

/-- Whether the specifiers say `int`, with or without `signed`. -/
def isPlainInt (specifiers : String) : Bool :=
  match typeWords specifiers with
  | ["int"] | ["signed"] | ["signed", "int"] | ["int", "signed"] => true
  | _ => false

end Word

namespace TokenSeq

/-- Whether the token at `i` is a word that takes a group, and a group follows it:
`_Atomic(int)`, `typeof(x)`, `__attribute__((packed))`. -/
def isCallShaped (ts : TokenSeq) (i limit : Nat) : Bool :=
  let takesGroup :=
    match ts.kind? i with
    | some .atomic => true
    | some .identifier => Word.isTypeof (ts.spelling i) || Word.isAttribute (ts.spelling i)
    | _ => false
  takesGroup && (ts.nextSignificant (i + 1) limit).any (ts.hasKind · .openParen)

/-- Whether the token at `i` is a storage-class or function specifier. -/
def isStorageAt (ts : TokenSeq) (i : Nat) : Bool :=
  ts.kindIs i TokenKind.isStorage ||
    (ts.hasKind i .identifier && Word.isStorage (ts.spelling i))

/-- Whether an attribute with its group starts at `i`. -/
def isAttributeAt (ts : TokenSeq) (i limit : Nat) : Bool :=
  ts.hasKind i .identifier && Word.isAttribute (ts.spelling i) && ts.isCallShaped i limit

/-- The first token of `[i, limit)` behind the storage specifiers and attributes at
its front: where the type starts. An attribute without an end is not passed. -/
def skipStorage (ts : TokenSeq) (i limit : Nat) : Nat :=
  match next : ts.nextSignificant i limit with
  | none => min i limit
  | some k =>
    if ts.isStorageAt k then ts.skipStorage (k + 1) limit
    else if ts.isAttributeAt k limit then
      match closes : (ts.nextSignificant (k + 1) limit).bind (ts.matchingClose · limit) with
      | none => k
      | some close => ts.skipStorage (close + 1) limit
    else k
termination_by ts.size - i
decreasing_by
  · have found := next_significant_bounds next
    omega
  · have found := next_significant_bounds next
    obtain ⟨opening, opens, closing⟩ := Option.bind_eq_some_iff.1 closes
    have after := next_significant_bounds opens
    have bounds := matching_close_bounds closing
    omega

/-- Whether a parenthesis right behind the token opens a parameter list. -/
def isFunctionName (ts : TokenSeq) (i limit : Nat) : Bool :=
  ts.hasKind i .identifier && !Word.isBuiltinType (ts.spelling i) && !ts.isCallShaped i limit

/-- The parenthesis that opens the parameter list of the function whose header
continues at `i`: the first one, outside other groups, right behind a name that is
neither a builtin type word nor a word that takes a group. The body of an aggregate in
the return type is passed over. There is none when the name stands in a nested
declarator, as in `int (*f(int))(char)`. -/
def parameterListFrom (ts : TokenSeq) (start stop : Nat) (aggregate : Bool) (i : Nat) :
    Option Nat :=
  if i < stop then
    match seen : ts.kind? i with
    | none => none
    | some kind =>
      if kind.isAggregate then ts.parameterListFrom start stop true (i + 1)
      else if kind == .openBrace then
        if aggregate then
          match closes : ts.matchingClose i stop with
          | none => none
          | some close => ts.parameterListFrom start stop false (close + 1)
        else none
      else if kind == .openParen then
        if (ts.prevSignificant i start).any (ts.isFunctionName · stop) then some i
        else
          match closes : ts.matchingClose i stop with
          | none => none
          | some close => ts.parameterListFrom start stop aggregate (close + 1)
      else if kind == .semicolon then none
      else ts.parameterListFrom start stop aggregate (i + 1)
  else none
termination_by ts.size - i
decreasing_by
  · have inside := lt_size_of_kind seen
    omega
  · have inside := lt_size_of_kind seen
    have bounds := matching_close_bounds closes
    omega
  · have inside := lt_size_of_kind seen
    have bounds := matching_close_bounds closes
    omega
  · have inside := lt_size_of_kind seen
    omega

/-- The parenthesis that opens the parameter list of the function header in
`[start, stop)`. -/
def parameterList? (ts : TokenSeq) (start stop : Nat) : Option Nat :=
  ts.parameterListFrom start stop false start

/-- The brace that opens the body of the function definition in `[start, stop)`. -/
def bodyOpen? (ts : TokenSeq) (start stop : Nat) : Option Nat := do
  let after ←
    match ts.parameterList? start stop with
    | some opening => (ts.matchingClose opening stop).map (· + 1)
    | none => some start
  Position.firstIn? (ts.hasKind · .openBrace) after (min stop ts.size)

end TokenSeq

end AllocGuard
