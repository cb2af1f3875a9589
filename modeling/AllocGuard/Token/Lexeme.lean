import AllocGuard.Token.Kind

/-! The first token of a sequence of logical characters: its kind, and how many
characters it takes. Every scan here counts characters and looks at nothing but
logical characters, so the cut of a text into tokens depends on those alone.
Malformed text never stops the scan: a literal without an end stops before the line
end, a comment without an end takes the rest of the text. -/
namespace AllocGuard.Lexeme

/-- The white space of C text. -/
def isSpace (c : Char) : Bool :=
  c == ' ' || c == '\t' || c == '\n' || c == '\r' || c == '\x0b' || c == '\x0c'

/-- A character that may start an identifier. Every character outside ASCII may. -/
def isIdentStart (c : Char) : Bool :=
  c.isAlpha || c == '_' || c == '$' || 0x80 ≤ c.toNat

/-- A character that may continue an identifier. -/
def isIdentChar (c : Char) : Bool :=
  isIdentStart c || c.isDigit

def isQuote (c : Char) : Bool :=
  c == '"' || c == '\''

/-- Whether `c` comes next. -/
def follows (rest : List Char) (c : Char) : Bool :=
  rest.head? == some c

/-- The number of leading characters of which `p` holds. -/
def runLength (p : Char → Bool) (cs : List Char) : Nat :=
  (cs.takeWhile p).length

/-- The number of characters before the line end. -/
def lineLength (cs : List Char) : Nat :=
  runLength (· != '\n') cs

/-- The number of characters of a block comment after its opening mark, up to and
with its closing mark, or to the end of the text when it has none. -/
def blockLength : List Char → Nat
  | [] => 0
  | '*' :: '/' :: _ => 2
  | _ :: rest => blockLength rest + 1

/-- The number of characters of a quoted literal after its opening quote. A
backslash takes the next character with it, unless that is a line end. -/
def quotedLength (quote : Char) : List Char → Nat
  | [] => 0
  | '\n' :: _ => 0
  | ['\\'] => 1
  | '\\' :: '\n' :: _ => 1
  | '\\' :: _ :: rest => quotedLength quote rest + 2
  | c :: rest => if c = quote then 1 else quotedLength quote rest + 1

/-- The number of characters of a directive after its `#`. Comments inside it are
read as comments, so a block comment may carry it over a line end. -/
def directiveLength : List Char → Nat
  | [] => 0
  | '\n' :: _ => 0
  | '/' :: '*' :: rest =>
    let block := blockLength rest
    directiveLength (rest.drop block) + block + 2
  | '/' :: '/' :: rest => lineLength rest + 2
  | c :: rest =>
    if isQuote c then
      let quoted := quotedLength c rest
      directiveLength (rest.drop quoted) + quoted + 1
    else directiveLength rest + 1
termination_by cs => cs.length
decreasing_by all_goals simp <;> omega

/-- Whether a sign after this character belongs to the number. -/
def isExponentMark (c : Char) : Bool :=
  c == 'e' || c == 'E' || c == 'p' || c == 'P'

/-- The number of further characters of a number, `before` telling whether the
character read last is an exponent mark. -/
def numberLength (before : Bool) : List Char → Nat
  | [] => 0
  | c :: rest =>
    if c.isAlphanum || c == '_' || c == '.' then numberLength (isExponentMark c) rest + 1
    else if (c == '+' || c == '-') && before then numberLength false rest + 1
    else 0

/-- The number of characters of a parenthesised operand up to and with the
parenthesis that closes it, `depth` parentheses being open. There is none when the
line ends first. -/
def operandLength (depth : Nat) : List Char → Option Nat
  | [] => none
  | '\n' :: _ => none
  | '(' :: rest => (operandLength (depth + 1) rest).map (· + 1)
  | ')' :: rest =>
    if depth ≤ 1 then some 1 else (operandLength (depth - 1) rest).map (· + 1)
  | c :: rest =>
    if isQuote c then
      let quoted := quotedLength c rest
      (operandLength depth (rest.drop quoted)).map (· + quoted + 1)
    else (operandLength depth rest).map (· + 1)
termination_by cs => cs.length
decreasing_by
  all_goals simp only [List.length_cons, List.length_drop]
  all_goals omega

/-- The number of characters that a pragma operator takes after its keyword: a
parenthesised operand on the same line, or nothing. -/
def pragmaLength (rest : List Char) : Nat :=
  let gap := runLength (fun c => c == ' ' || c == '\t') rest
  match rest.drop gap with
  | '(' :: operand =>
    match operandLength 1 operand with
    | some length => gap + 1 + length
    | none => 0
  | _ => 0

/-- The words that, right before a quote, are part of the literal. -/
def isLiteralMark (word : String) : Bool :=
  word == "L" || word == "u" || word == "U" || word == "u8"

/-- An identifier, a keyword, or a literal with an encoding mark. -/
def word (first : Char) (rest : List Char) : TokenKind × Nat :=
  let more := runLength isIdentChar rest
  let spelling := String.ofList (first :: rest.take more)
  let after := rest.drop more
  if isLiteralMark spelling && follows after '"' then
    (.string, more + 1 + quotedLength '"' after.tail)
  else if isLiteralMark spelling && follows after '\'' then
    (.character, more + 1 + quotedLength '\'' after.tail)
  else
    match TokenKind.ofKeyword? spelling with
    | some .pragma => (.pragma, more + pragmaLength after)
    | some kind => (kind, more)
    | none => (.identifier, more)

/-- An operator that may be doubled, or else followed by `=`. -/
def doubledOrAssigned (c : Char) (rest : List Char) : TokenKind × Nat :=
  (.operator, if follows rest c || follows rest '=' then 1 else 0)

/-- An operator that becomes another when `=` follows. -/
def assigned (kind : TokenKind) (rest : List Char) : TokenKind × Nat :=
  if follows rest '=' then (.operator, 1) else (kind, 0)

/-- A punctuator, by longest match. -/
def punctuator (c : Char) (rest : List Char) : TokenKind × Nat :=
  match c with
  | '\x7b' => (.openBrace, 0)
  | '\x7d' => (.closeBrace, 0)
  | '(' => (.openParen, 0)
  | ')' => (.closeParen, 0)
  | '[' => (.openBracket, 0)
  | ']' => (.closeBracket, 0)
  | ',' => (.comma, 0)
  | ';' => (.semicolon, 0)
  | '?' => (.question, 0)
  | ':' => (.colon, 0)
  | '~' => (.operator, 0)
  | '*' => assigned .star rest
  | '=' => if follows rest '=' then (.equal, 1) else (.assign, 0)
  | '!' => if follows rest '=' then (.notEqual, 1) else (.bang, 0)
  | '&' => if follows rest '&' || follows rest '=' then (.operator, 1) else (.ampersand, 0)
  | '.' => if follows rest '.' && follows rest.tail '.' then (.ellipsis, 2) else (.dot, 0)
  | '-' => if follows rest '>' then (.arrow, 1) else doubledOrAssigned '-' rest
  | '+' => doubledOrAssigned '+' rest
  | '|' => doubledOrAssigned '|' rest
  | '<' => (.operator, shiftLength '<' rest)
  | '>' => (.operator, shiftLength '>' rest)
  | '#' => (.operator, if follows rest '#' then 1 else 0)
  | '/' => assigned .operator rest
  | '%' => assigned .operator rest
  | '^' => assigned .operator rest
  | _ => (.unknown, 0)
where
  /-- Further characters of a comparison or a shift, each with or without `=`. -/
  shiftLength (c : Char) (rest : List Char) : Nat :=
    let doubled := if follows rest c then 1 else 0
    doubled + if follows (rest.drop doubled) '=' then 1 else 0

/-- The kind of the token that starts with `first`, and the number of characters it
takes from `rest`. A `#` starts a directive only where nothing but white space and
comments precedes it on its line. -/
def read (lineStart : Bool) (first : Char) (rest : List Char) : TokenKind × Nat :=
  if isSpace first then (.space, runLength isSpace rest)
  else if first == '/' && follows rest '/' then (.comment, lineLength rest)
  else if first == '/' && follows rest '*' then (.comment, 1 + blockLength rest.tail)
  else if first == '#' && lineStart then (.directive, directiveLength rest)
  else if first == '"' then (.string, quotedLength '"' rest)
  else if first == '\'' then (.character, quotedLength '\'' rest)
  else if first.isDigit || (first == '.' && rest.head?.any Char.isDigit) then
    (.number, numberLength false rest)
  else if isIdentStart first then word first rest
  else punctuator first rest

end AllocGuard.Lexeme
