/-! The kinds of token that the analysis tells apart, and the classes of kinds that
it asks about. Keywords have a kind of their own only where the grouping of
declarations depends on them; every other word is an identifier. -/
namespace AllocGuard

inductive TokenKind where
  | openBrace | closeBrace | openParen | closeParen | openBracket | closeBracket
  | comma | semicolon | colon | star | question
  | assign | equal | notEqual | bang | ampersand | dot | arrow | ellipsis
  /-- Any other operator, such as `+`, `<<=`, `&&` or `##`. -/
  | operator
  | string | character | number
  | identifier
  | struct | enum | union
  | typedef | external | static | inline | register | threadLocal | noreturn
  | const | volatile | restrict | atomic
  | complex
  /-- A pragma operator, together with its operand where it has one. -/
  | pragma
  | comment
  /-- A whole preprocessing directive, its continuation lines included. -/
  | directive
  | space
  /-- A character that starts no token of C. -/
  | unknown
deriving Repr, DecidableEq

namespace TokenKind

/-- White space and comments carry no meaning. -/
def isTrivia : TokenKind → Bool
  | space | comment => true
  | _ => false

def isAggregate : TokenKind → Bool
  | struct | enum | union => true
  | _ => false

/-- Storage-class and function specifiers. -/
def isStorage : TokenKind → Bool
  | typedef | external | static | inline | register | threadLocal | noreturn => true
  | _ => false

/-- Type qualifiers, which may also follow a `*`. -/
def isQualifier : TokenKind → Bool
  | const | volatile | restrict | atomic => true
  | _ => false

def isKeyword (k : TokenKind) : Bool :=
  k.isAggregate || k.isStorage || k.isQualifier || k == complex || k == pragma

/-- Identifiers and keywords: whatever reads as a word. -/
def isWord (k : TokenKind) : Bool :=
  k == identifier || k.isKeyword

/-- The name of the kind for a reader of messages. -/
def describe : TokenKind → String
  | openBrace => "'\x7b'"
  | closeBrace => "'\x7d'"
  | openParen => "'('"
  | closeParen => "')'"
  | openBracket => "'['"
  | closeBracket => "']'"
  | comma => "','"
  | semicolon => "';'"
  | colon => "':'"
  | star => "'*'"
  | question => "'?'"
  | assign => "'='"
  | equal => "'=='"
  | notEqual => "'!='"
  | bang => "'!'"
  | ampersand => "'&'"
  | dot => "'.'"
  | arrow => "'->'"
  | ellipsis => "'...'"
  | operator => "operator"
  | string => "string literal"
  | character => "character literal"
  | number => "number"
  | identifier => "identifier"
  | struct => "'struct'"
  | enum => "'enum'"
  | union => "'union'"
  | typedef => "'typedef'"
  | external => "'extern'"
  | static => "'static'"
  | inline => "'inline'"
  | register => "'register'"
  | threadLocal => "'_Thread_local'"
  | noreturn => "'_Noreturn'"
  | const => "'const'"
  | volatile => "'volatile'"
  | restrict => "'restrict'"
  | atomic => "'_Atomic'"
  | complex => "'_Complex'"
  | pragma => "'_Pragma'"
  | comment => "comment"
  | directive => "preprocessor line"
  | space => "whitespace"
  | unknown => "unknown character"

/-- The kind of a keyword, common compiler spellings included. -/
def ofKeyword? : String → Option TokenKind
  | "struct" => some struct
  | "enum" => some enum
  | "union" => some union
  | "typedef" => some typedef
  | "extern" => some external
  | "static" => some static
  | "inline" | "__inline" | "__inline__" => some inline
  | "register" => some register
  | "_Thread_local" | "thread_local" | "__thread" => some threadLocal
  | "_Noreturn" | "noreturn" => some noreturn
  | "const" | "__const" | "__const__" => some const
  | "volatile" | "__volatile" | "__volatile__" => some volatile
  | "restrict" | "__restrict" | "__restrict__" => some restrict
  | "_Atomic" => some atomic
  | "_Complex" | "__complex__" => some complex
  | "_Pragma" | "__pragma" => some pragma
  | _ => none

end TokenKind

end AllocGuard
