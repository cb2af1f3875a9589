import AllocGuard.Literal.Numeric

/-! The text of a TOML document: blanks, comments and strings. -/
namespace AllocGuard.Toml

/-- A reader takes a value from the front of a text. -/
abbrev Reader (α : Type) := List Char → Option (α × List Char)

/-! ## Blanks and comments -/

def isGap (c : Char) : Bool :=
  c == ' ' || c == '\t'

/-- The characters of comments: all but control characters, tabs excepted. -/
def isCommentChar (c : Char) : Bool :=
  c == '\t' || (0x20 ≤ c.toNat && c.toNat != 0x7F)

def skipGap (cs : List Char) : List Char :=
  cs.dropWhile isGap

/-- What follows a line end, if the text starts with one. -/
def afterNewline? : List Char → Option (List Char)
  | '\n' :: rest => some rest
  | '\r' :: '\n' :: rest => some rest
  | _ => none

theorem after_newline_length {cs rest : List Char} (ends : afterNewline? cs = some rest) :
    rest.length ≤ cs.length := by
  unfold afterNewline? at ends
  split at ends
  · cases ends
    exact Nat.le_succ _
  · cases ends
    exact Nat.le_add_right _ 2
  · cases ends

/-- What follows blanks, a comment, and the end of the line or of the text. -/
def afterLine? (cs : List Char) : Option (List Char) :=
  let rest :=
    match skipGap cs with
    | '#' :: comment => comment.dropWhile isCommentChar
    | rest => rest
  match rest with
  | [] => some []
  | _ => afterNewline? rest

/-- The text without the blanks and line ends at its front. -/
def skipBlankLines : List Char → List Char
  | ' ' :: rest => skipBlankLines rest
  | '\t' :: rest => skipBlankLines rest
  | '\n' :: rest => skipBlankLines rest
  | '\r' :: '\n' :: rest => skipBlankLines rest
  | rest => rest

theorem skip_blank_lines_length (cs : List Char) :
    (skipBlankLines cs).length ≤ cs.length := by
  fun_induction skipBlankLines cs <;> grind

/-- The text without the blanks, line ends and comments at its front. -/
def skipFiller (cs : List Char) : Option (List Char) :=
  match found : skipBlankLines cs with
  | '#' :: comment =>
    match ends : afterNewline? (comment.dropWhile isCommentChar) with
    | some rest => skipFiller rest
    | none => none
  | rest => some rest
termination_by cs.length
decreasing_by
  have front := skip_blank_lines_length cs
  have middle := (List.dropWhile_sublist isCommentChar (l := comment)).length_le
  rw [found] at front
  have back := after_newline_length ends
  simp only [List.length_cons] at front
  omega

/-! ## Strings -/

/-- The characters that stand for themselves in a basic string. -/
def isBasicChar (c : Char) : Bool :=
  isCommentChar c && c != '"' && c != '\\'

/-- The characters that stand for themselves in a literal string. -/
def isLiteralChar (c : Char) : Bool :=
  isCommentChar c && c != '\''

/-- The character that a backslash and this one stand for. -/
def escaped? : Char → Option Char
  | 'b' => some '\x08'
  | 't' => some '\t'
  | 'n' => some '\n'
  | 'f' => some '\x0c'
  | 'r' => some '\r'
  | '"' => some '"'
  | '\\' => some '\\'
  | _ => none

/-- The number that hexadecimal digits write. -/
def hexNumber? (digits : List Char) : Option Nat :=
  digits.foldlM (fun n c => (Numeric.digitValue? c).map (n * 16 + ·)) 0

/-- The character with this number, which has to be a scalar value. -/
def codePoint? (digits : List Char) : Option Char := do
  let n ← hexNumber? digits
  if n.isValidChar then some (Char.ofNat n) else none

/-- One more character in front of what a reader has read. -/
def prepend (c : Option Char) (read : Option (List Char × List Char)) :
    Option (List Char × List Char) := do
  let c ← c
  let (text, rest) ← read
  return (c :: text, rest)

/-- A basic string behind its opening quote. -/
def basicBody : Reader (List Char)
  | [] => none
  | '"' :: rest => some ([], rest)
  | '\\' :: 'u' :: a :: b :: c :: d :: rest => prepend (codePoint? [a, b, c, d]) (basicBody rest)
  | '\\' :: 'U' :: a :: b :: c :: d :: e :: f :: g :: h :: rest =>
    prepend (codePoint? [a, b, c, d, e, f, g, h]) (basicBody rest)
  | '\\' :: c :: rest => prepend (escaped? c) (basicBody rest)
  | c :: rest => if isBasicChar c then prepend (some c) (basicBody rest) else none

/-- A literal string behind its opening quote. -/
def literalBody : Reader (List Char)
  | [] => none
  | '\'' :: rest => some ([], rest)
  | c :: rest => if isLiteralChar c then prepend (some c) (literalBody rest) else none

/-- Up to two quotes right behind three closing ones belong to the text. -/
def closingQuotes (quote : Char) : List Char → List Char × List Char
  | a :: b :: rest =>
    if a = quote then
      if b = quote then ([quote, quote], rest) else ([quote], b :: rest)
    else ([], a :: b :: rest)
  | [a] => if a = quote then ([quote], []) else ([], [a])
  | [] => ([], [])

/-- What follows a backslash at the end of a line, and the blanks and line ends behind
it, if `cs` follows such a backslash. -/
def afterLineJoin? (cs : List Char) : Option (List Char) :=
  (afterNewline? (skipGap cs)).map skipBlankLines

theorem after_line_join_length {cs rest : List Char} (joined : afterLineJoin? cs = some rest) :
    rest.length ≤ cs.length := by
  obtain ⟨line, newline, rfl⟩ := Option.map_eq_some_iff.1 joined
  have front := (List.dropWhile_sublist isGap (l := cs)).length_le
  have back := skip_blank_lines_length line
  have middle := after_newline_length newline
  unfold skipGap at middle
  omega

/-- A basic string of several lines behind its opening quotes. -/
def basicLines (cs : List Char) : Option (List Char × List Char) :=
  match cs with
  | [] => none
  | '"' :: '"' :: '"' :: rest => some (closingQuotes '"' rest)
  | '"' :: rest => prepend (some '"') (basicLines rest)
  | '\n' :: rest => prepend (some '\n') (basicLines rest)
  | '\r' :: '\n' :: rest => prepend (some '\n') (basicLines rest)
  | '\\' :: 'u' :: a :: b :: c :: d :: rest => prepend (codePoint? [a, b, c, d]) (basicLines rest)
  | '\\' :: 'U' :: a :: b :: c :: d :: e :: f :: g :: h :: rest =>
    prepend (codePoint? [a, b, c, d, e, f, g, h]) (basicLines rest)
  | '\\' :: c :: rest =>
    match joined : afterLineJoin? (c :: rest) with
    | some after => basicLines after
    | none => prepend (escaped? c) (basicLines rest)
  | c :: rest => if isBasicChar c then prepend (some c) (basicLines rest) else none
termination_by cs.length
decreasing_by
  all_goals try (simp only [List.length_cons]; omega)
  have shorter := after_line_join_length joined
  exact Nat.lt_succ_of_le shorter

/-- A literal string of several lines behind its opening quotes. -/
def literalLines : Reader (List Char)
  | [] => none
  | '\'' :: '\'' :: '\'' :: rest => some (closingQuotes '\'' rest)
  | '\'' :: rest => prepend (some '\'') (literalLines rest)
  | '\n' :: rest => prepend (some '\n') (literalLines rest)
  | '\r' :: '\n' :: rest => prepend (some '\n') (literalLines rest)
  | c :: rest => if isLiteralChar c then prepend (some c) (literalLines rest) else none

/-- The text behind the quotes that open several lines: a line end right there does
not belong to it. -/
def firstLine (cs : List Char) : List Char :=
  (afterNewline? cs).getD cs

/-- A string of any of the four forms. -/
def string? (cs : List Char) : Option (List Char × List Char) :=
  match cs with
  | '"' :: '"' :: '"' :: rest => basicLines (firstLine rest)
  | '"' :: rest => basicBody rest
  | '\'' :: '\'' :: '\'' :: rest => literalLines (firstLine rest)
  | '\'' :: rest => literalBody rest
  | _ => none

end AllocGuard.Toml
