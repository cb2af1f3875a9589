import AllocGuard.Source.Glyph
import AllocGuard.Text.Blank
import AllocGuard.Token.Lexeme

/-! Tokens and token sequences. Every character of the source belongs to exactly one
token, white space and comments included, so a range of tokens that is left alone
can be copied back as it was. All later work names tokens by their position. -/
namespace AllocGuard

/-- A token: its kind, the byte offset at which it starts, and its source text. -/
structure Token where
  kind : TokenKind
  start : Nat
  raw : List Char
deriving Repr, DecidableEq

namespace Token

/-- The byte offset right after the token. -/
def stop (t : Token) : Nat :=
  t.start + Text.byteLength t.raw

/-- The source text of the token. -/
def text (t : Token) : String :=
  String.ofList t.raw

/-- The text of the token with trigraphs replaced and lines joined. -/
def spelling (t : Token) : String :=
  String.ofList (logicalChars t.raw)

end Token

/-- The tokens of one source text, in order. -/
structure TokenSeq where
  tokens : Array Token
deriving Repr, DecidableEq

namespace TokenSeq

/-- Whether a `#` after this token starts a directive. White space does so when its
source text has a line end, and a comment changes nothing. -/
def lineStartAfter (lineStart : Bool) (kind : TokenKind) (raw : List Char) : Bool :=
  match kind with
  | .space => lineStart || raw.contains '\n'
  | .comment => lineStart
  | _ => false

/-- The tokens of the logical characters `chars`, where `raws` holds the source text
of each of them and `left` the joined line ends that come last. -/
def scan (lineStart : Bool) (start : Nat) (left : List Char) :
    List Char → List (List Char) → List Token
  | first :: chars, firstRaw :: raws =>
    let (kind, more) := Lexeme.read lineStart first chars
    let raw := firstRaw ++ (raws.take more).flatten
    ⟨kind, start, raw⟩ ::
      scan (lineStartAfter lineStart kind raw) (start + Text.byteLength raw) left
        (chars.drop more) (raws.drop more)
  | _, _ => if left.isEmpty then [] else [⟨.space, start, left⟩]
termination_by chars => chars.length
decreasing_by
  simp only [List.length_cons, List.length_drop]
  omega

/-- The tokens of a source text. Joined line ends at the very end of the text, which
stand for no character, make a last token of white space. -/
def ofSource (source : String) : TokenSeq :=
  let (glyphs, left) := glyphs source.toList
  ⟨(scan true 0 left (glyphs.map Glyph.char) (glyphs.map Glyph.raw)).toArray⟩

def size (ts : TokenSeq) : Nat :=
  ts.tokens.size

def get? (ts : TokenSeq) (i : Nat) : Option Token :=
  ts.tokens[i]?

def kind? (ts : TokenSeq) (i : Nat) : Option TokenKind :=
  (ts.get? i).map Token.kind

/-- A position that has a kind lies inside the sequence. -/
theorem lt_size_of_kind {ts : TokenSeq} {i : Nat} {kind : TokenKind}
    (seen : ts.kind? i = some kind) : i < ts.size := by
  simp only [kind?, get?, Option.map_eq_some_iff] at seen
  obtain ⟨token, there, _⟩ := seen
  exact (Array.getElem?_eq_some_iff.1 there).1

/-- Whether there is a token at `i`, of this kind. -/
def hasKind (ts : TokenSeq) (i : Nat) (kind : TokenKind) : Bool :=
  ts.kind? i == some kind

/-- Whether there is a token at `i` of a kind in the class. -/
def kindIs (ts : TokenSeq) (i : Nat) (p : TokenKind → Bool) : Bool :=
  (ts.kind? i).any p

/-- The source text of a token, empty past the end. -/
def text (ts : TokenSeq) (i : Nat) : String :=
  ((ts.get? i).map Token.text).getD ""

/-- The spelling of a token, empty past the end. -/
def spelling (ts : TokenSeq) (i : Nat) : String :=
  ((ts.get? i).map Token.spelling).getD ""

/-- Whether the token at `i` is the identifier `name`. -/
def isIdent (ts : TokenSeq) (i : Nat) (name : String) : Bool :=
  ts.hasKind i .identifier && ts.spelling i == name

/-- The number of bytes of the whole text. -/
def byteLength (ts : TokenSeq) : Nat :=
  (ts.tokens.back?.map Token.stop).getD 0

/-- The byte offset at which token `i` starts; the length of the text past the end. -/
def byteOffset (ts : TokenSeq) (i : Nat) : Nat :=
  ((ts.get? i).map Token.start).getD ts.byteLength

/-- The source text of the tokens from `start` up to, not with, `stop`. -/
def textRange (ts : TokenSeq) (start stop : Nat) : String :=
  String.ofList ((ts.tokens.extract start stop).toList.flatMap Token.raw)

/-- The whole source text. -/
def source (ts : TokenSeq) : String :=
  ts.textRange 0 ts.size

/-- Whether the token at `i` carries meaning. -/
def isSignificant (ts : TokenSeq) (i : Nat) : Bool :=
  ts.kindIs i (!·.isTrivia)

end TokenSeq

end AllocGuard
