import AllocGuard.Token.Sequence

/-! Edits of a token sequence: ranges of tokens and the text that takes their place.
Edits are tried by where they start, those with the same start in the order given. One
that overlaps an edit already taken, or that does not lie inside the sequence, is
passed over. -/
namespace AllocGuard

/-- The tokens `[start, stop)` give way to `text`. An empty range is an insertion. -/
structure Edit where
  start : Nat
  stop : Nat
  text : String
deriving Repr, DecidableEq

namespace Edit

/-- New text in front of a token. -/
def insertion (position : Nat) (text : String) : Edit :=
  ⟨position, position, text⟩

def isInsertion (e : Edit) : Bool :=
  e.start == e.stop

/-- Whether the edit can be taken when everything before `cursor` is settled. -/
def fits (size cursor : Nat) (e : Edit) : Bool :=
  cursor ≤ e.start && e.start ≤ e.stop && e.stop ≤ size

/-- The edits that are taken, of a list in order of their starts. -/
def select (size cursor : Nat) : List Edit → List Edit
  | [] => []
  | e :: rest =>
    if e.fits size cursor then e :: select size e.stop rest else select size cursor rest

/-- The edits in order of their starts. -/
def sorted (edits : List Edit) : List Edit :=
  edits.mergeSort fun a b => a.start ≤ b.start

end Edit

/-- An edited text, and how many edits were taken and passed over. -/
structure Edited where
  text : String
  applied : Nat
  skipped : Nat
deriving Repr, DecidableEq

namespace TokenSeq

/-- The text from token `cursor` on, with edits that follow each other put in. -/
def splice (ts : TokenSeq) (cursor : Nat) : List Edit → String
  | [] => ts.textRange cursor ts.size
  | e :: rest => ts.textRange cursor e.start ++ e.text ++ ts.splice e.stop rest

/-- The text with the edits that can be taken put in. -/
def edit (ts : TokenSeq) (edits : List Edit) : Edited :=
  let taken := Edit.select ts.size 0 (Edit.sorted edits)
  ⟨ts.splice 0 taken, taken.length, edits.length - taken.length⟩

end TokenSeq

end AllocGuard
