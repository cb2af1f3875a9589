/-! The first two phases of reading C text. A trigraph stands for one character,
and a backslash at the end of a line joins the line to the next. What is left is a
sequence of logical characters. Each of them keeps the stretch of source text that
stands for it, so that the source can be put together again from its glyphs. -/
namespace AllocGuard

/-- A logical character and the source text that stands for it: the joined line
ends in front of it, and the character itself or its trigraph. -/
structure Glyph where
  char : Char
  raw : List Char
deriving Repr, DecidableEq

namespace Glyph

/-- The character that `??c` stands for. -/
def trigraph : Char → Option Char
  | '=' => some '#'
  | '(' => some '['
  | '/' => some '\\'
  | ')' => some ']'
  | '\'' => some '^'
  | '<' => some '\x7b'
  | '!' => some '|'
  | '>' => some '\x7d'
  | '-' => some '~'
  | _ => none

/-- Phase one: every trigraph becomes one glyph, and so does every character that
is not part of a trigraph. -/
def replaceTrigraphs : List Char → List Glyph
  | '?' :: '?' :: c :: rest =>
    match trigraph c with
    | some meant => ⟨meant, ['?', '?', c]⟩ :: replaceTrigraphs rest
    | none => ⟨'?', ['?']⟩ :: replaceTrigraphs ('?' :: c :: rest)
  | c :: rest => ⟨c, [c]⟩ :: replaceTrigraphs rest
  | [] => []

/-- Phase two: a backslash followed by a line end vanishes into the raw text of the
next glyph. `held` is the text of the joined line ends read so far. The second part
of the result is the text of those that no glyph follows. -/
def joinLines (held : List Char) : List Glyph → List Glyph × List Char
  | [] => ([], held)
  | [g] => ([⟨g.char, held ++ g.raw⟩], [])
  | g :: next :: rest =>
    if g.char = '\\' ∧ next.char = '\n' then
      joinLines (held ++ g.raw ++ next.raw) rest
    else if g.char = '\\' ∧ next.char = '\r' then
      match rest with
      | [] => ([], held ++ g.raw ++ next.raw)
      | feed :: rest' =>
        if feed.char = '\n' then joinLines (held ++ g.raw ++ next.raw ++ feed.raw) rest'
        else joinLines (held ++ g.raw ++ next.raw) (feed :: rest')
    else
      let (glyphs, left) := joinLines [] (next :: rest)
      (⟨g.char, held ++ g.raw⟩ :: glyphs, left)

end Glyph

/-- The glyphs of a text, and the joined line ends that no glyph follows. -/
def glyphs (source : List Char) : List Glyph × List Char :=
  Glyph.joinLines [] (Glyph.replaceTrigraphs source)

/-- The logical characters of a text: trigraphs replaced and lines joined. -/
def logicalChars (source : List Char) : List Char :=
  (glyphs source).1.map Glyph.char

/-- The text with trigraphs replaced and lines joined. -/
def normalize (source : String) : String :=
  String.ofList (logicalChars source.toList)

end AllocGuard
