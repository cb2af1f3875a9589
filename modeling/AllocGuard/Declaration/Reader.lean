import AllocGuard.Declaration.CType

/-! Reading a declaration from the inside out. The specifiers at the front give the
base type. In what follows, the place of the name is found first; from there the
reader takes `[..]` and `(..)` on the right, then `*` on the left, then a pair of
grouping parentheses around both, and starts again, until nothing is left. So a
suffix binds tighter than a `*`, and parentheses bind as they are written. Words that
take a group, such as `typeof(x)`, are read with their group. -/
namespace AllocGuard

/-- The tokens of one declaration that carry meaning, by position, up to the end of
its first declarator. Brackets are matched below `limit`. -/
structure DeclarationView where
  ts : TokenSeq
  sig : Array Nat
  limit : Nat

namespace DeclarationView

def size (v : DeclarationView) : Nat :=
  v.sig.size

def kind? (v : DeclarationView) (p : Nat) : Option TokenKind :=
  v.sig[p]?.bind v.ts.kind?

def hasKind (v : DeclarationView) (p : Nat) (kind : TokenKind) : Bool :=
  v.kind? p == some kind

def spelling (v : DeclarationView) (p : Nat) : String :=
  (v.sig[p]?.map v.ts.spelling).getD ""

def isCallShaped (v : DeclarationView) (p : Nat) : Bool :=
  v.sig[p]?.any (v.ts.isCallShaped · v.limit)

theorem lt_size_of_kind {v : DeclarationView} {p : Nat} {kind : TokenKind}
    (seen : v.kind? p = some kind) : p < v.size := by
  simp only [kind?, Option.bind_eq_some_iff] at seen
  obtain ⟨_, there, _⟩ := seen
  exact (Array.getElem?_eq_some_iff.1 there).1

/-- The bracket that closes the one at `p`. It has to belong to the declaration. -/
def closeOf (v : DeclarationView) (p : Nat) : Except DeclarationError Nat :=
  match v.sig[p]?.bind (v.ts.matchingClose · v.limit) with
  | none => .error .unbalanced
  | some close =>
    match Position.firstIn? (fun q => v.sig[q]? == some close) (p + 1) v.size with
    | none => .error .bracketOutside
    | some q => .ok q

theorem close_of_bounds {v : DeclarationView} {p q : Nat} (hit : v.closeOf p = .ok q) :
    p < q ∧ q < v.size := by
  rw [closeOf] at hit
  split at hit
  · cases hit
  · split at hit
    · cases hit
    · rename_i found
      cases hit
      have bounds := Position.first_in_bounds found
      omega

/-- The text between the brackets at `opening` and `close`, without blanks around. -/
def innerText (v : DeclarationView) (opening close : Nat) : String :=
  Text.trim (v.ts.textRange (v.sig.getD opening 0 + 1) (v.sig.getD close 0))

/-- The text of the tokens `[start, stop)`, without blanks around. -/
def spanText (v : DeclarationView) (start stop : Nat) : String :=
  if start < stop then
    Text.trim (v.ts.textRange (v.sig.getD start 0) (v.sig.getD (stop - 1) 0 + 1))
  else ""

/-! ## Specifiers -/

/-- Where the body of the aggregate at `p` would start: behind the tag, if there is
one. -/
def aggregateBody (v : DeclarationView) (p : Nat) : Nat :=
  if v.hasKind (p + 1) .identifier && !v.isCallShaped (p + 1) then p + 2 else p + 1

theorem lt_aggregate_body (v : DeclarationView) (p : Nat) : p < v.aggregateBody p := by
  rw [aggregateBody]
  split <;> omega

/-- The end of the specifiers that continue at `p`. `typed` tells whether they name a
type already, and `word` is the last plain word with the value of `typed` before it.
An aggregate is read with its tag and its body. -/
def specifiersFrom (v : DeclarationView) (typed : Bool) (word : Option (Nat × Bool)) (p : Nat) :
    Except DeclarationError (Nat × Option (Nat × Bool)) :=
  match seen : v.kind? p with
  | none => .ok (p, word)
  | some kind =>
    if kind.isAggregate then
      if v.hasKind (v.aggregateBody p) .openBrace then
        match closes : v.closeOf (v.aggregateBody p) with
        | .error e => .error e
        | .ok close => v.specifiersFrom true none (close + 1)
      else v.specifiersFrom true none (v.aggregateBody p)
    else if (kind == .atomic || kind == .identifier) && v.isCallShaped p then
      match closes : v.closeOf (p + 1) with
      | .error e => .error e
      | .ok close =>
        let namesType := kind == .atomic || Word.isTypeof (v.spelling p)
        v.specifiersFrom (typed || namesType) none (close + 1)
    else if kind == .identifier then v.specifiersFrom true (some (p, typed)) (p + 1)
    else if kind == .complex then v.specifiersFrom true word (p + 1)
    else if kind.isKeyword then v.specifiersFrom typed word (p + 1)
    else .ok (p, word)
termination_by v.size - p
decreasing_by
  · have inside := lt_size_of_kind seen
    have before := v.lt_aggregate_body p
    have bounds := close_of_bounds closes
    omega
  · have inside := lt_size_of_kind seen
    have before := v.lt_aggregate_body p
    omega
  · have inside := lt_size_of_kind seen
    have bounds := close_of_bounds closes
    omega
  all_goals
    have inside := lt_size_of_kind seen
    omega

/-- The end of the base type, which is where the declarator starts. The last word of
the specifiers is the declared name when a type stands before it, nothing stands after
it, and it is no builtin type word. -/
def baseStop (v : DeclarationView) : Except DeclarationError Nat := do
  let (stop, word) ← v.specifiersFrom false none 0
  match word with
  | some (p, true) =>
    return if !Word.isBuiltinType (v.spelling p) && p + 1 == stop then p else stop
  | _ => return stop

/-! ## The place of the name -/

/-- Whether the parenthesis at `p` groups a declarator, and opens no parameter list. -/
def isGrouping (v : DeclarationView) (p : Nat) : Bool :=
  match v.kind? (p + 1) with
  | some .star | some .openParen | some .operator => true
  | some .identifier => !Word.isBuiltinType (v.spelling (p + 1)) && !v.isCallShaped (p + 1)
  | _ => false

/-- The place of the name, from `p` on, and whether a name stands there: an abstract
declarator has a place for it all the same. -/
def pivotFrom (v : DeclarationView) (p : Nat) : Except DeclarationError (Nat × Bool) :=
  match seen : v.kind? p with
  | none => .ok (p, false)
  | some kind =>
    if kind == .identifier then
      if v.isCallShaped p then
        match closes : v.closeOf (p + 1) with
        | .error e => .error e
        | .ok close => v.pivotFrom (close + 1)
      else .ok (p, true)
    else if kind == .star || kind.isQualifier || (kind == .openParen && v.isGrouping p) then
      v.pivotFrom (p + 1)
    else .ok (p, false)
termination_by v.size - p
decreasing_by
  · have inside := lt_size_of_kind seen
    have bounds := close_of_bounds closes
    omega
  · have inside := lt_size_of_kind seen
    omega

/-! ## Layers -/

/-- The array and function layers from `right` on, and where they stop. Attributes
between them are passed over. -/
def suffixesFrom (v : DeclarationView) (right : Nat) :
    Except DeclarationError (List Layer × Nat) :=
  match seen : v.kind? right with
  | none => .ok ([], right)
  | some kind =>
    if kind == .openBracket || kind == .openParen then
      match closes : v.closeOf right with
      | .error e => .error e
      | .ok close => do
        let text := v.innerText right close
        let (layers, stop) ← v.suffixesFrom (close + 1)
        return ((if kind == .openBracket then .array text else .function text) :: layers, stop)
    else if kind == .identifier && v.isCallShaped right then
      match closes : v.closeOf (right + 1) with
      | .error e => .error e
      | .ok close => v.suffixesFrom (close + 1)
    else .ok ([], right)
termination_by v.size - right
decreasing_by
  · have inside := lt_size_of_kind seen
    have bounds := close_of_bounds closes
    omega
  · have inside := lt_size_of_kind seen
    have bounds := close_of_bounds closes
    omega

/-- The pointer layers to the left of `left`, not below `start`, and where they stop.
Each `*` owns the qualifiers written after it, which end at `qualifiersStop`. -/
def pointersBefore (v : DeclarationView) (start qualifiersStop : Nat) : Nat → List Layer × Nat
  | 0 => ([], 0)
  | left + 1 =>
    if left < start then ([], left + 1)
    else
      match v.kind? left with
      | some .star =>
        let (layers, stop) := v.pointersBefore start left left
        (.pointer (v.spanText (left + 1) qualifiersStop) :: layers, stop)
      | some kind =>
        if kind.isQualifier then v.pointersBefore start qualifiersStop left else ([], left + 1)
      | none => ([], left + 1)

theorem pointers_before_le (v : DeclarationView) (start qualifiersStop left : Nat) :
    (v.pointersBefore start qualifiersStop left).2 ≤ left := by
  fun_induction pointersBefore v start qualifiersStop left <;> grind

/-- All layers of the declarator that starts at `start`, given that everything in
`[left, right)` has been read. -/
def layersAround (v : DeclarationView) (start left right : Nat) :
    Except DeclarationError (List Layer) := do
  let (suffixes, right) ← v.suffixesFrom right
  match pointers : v.pointersBefore start left left with
  | (layers, left') =>
    if left' == start && right == v.size then return suffixes ++ layers
    else if start < left' ∧ v.hasKind (left' - 1) .openParen ∧ v.hasKind right .closeParen then
      return suffixes ++ layers ++ (← v.layersAround start (left' - 1) (right + 1))
    else throw (.unresolved (v.spanText start v.size))
termination_by left
decreasing_by
  have bound := v.pointers_before_le start left left
  rw [pointers] at bound
  simp only at bound
  omega

/-- The declaration that the view shows. -/
def read (v : DeclarationView) : Except DeclarationError Declaration := do
  let start ← v.baseStop
  if start = 0 then throw (.noBaseType (v.spanText 0 v.size))
  let (pivot, named) ← v.pivotFrom start
  let layers ← v.layersAround start pivot (if named then pivot + 1 else pivot)
  return {
    name := if named then some (v.spelling pivot, v.sig.getD pivot 0) else none
    type := ⟨layers, v.spanText 0 start⟩ }

end DeclarationView

namespace TokenSeq

/-- The tokens of `sig` before the first `;`, `=`, `,` or `:` outside all brackets,
`depth` brackets being open. The depth has no bound: a counter of 32 bits parts from it
only past 2^31 open brackets. -/
def firstDeclarator (ts : TokenSeq) (depth : Int) : List Nat → List Nat
  | [] => []
  | i :: rest =>
    if ts.kindIs i TokenKind.isOpener then i :: ts.firstDeclarator (depth + 1) rest
    else if ts.kindIs i TokenKind.isCloser then i :: ts.firstDeclarator (depth - 1) rest
    else if depth == 0 && ts.kindIs i endsDeclarator then []
    else i :: ts.firstDeclarator depth rest
where
  endsDeclarator (kind : TokenKind) : Bool :=
    kind == .semicolon || kind == .assign || kind == .comma || kind == .colon

/-- The declaration in the tokens `[start, stop)`. What follows its first declarator,
be it an initializer, a width or further declarators, is not looked at. -/
def declaration (ts : TokenSeq) (start stop : Nat) : Except DeclarationError Declaration :=
  let limit := min stop ts.size
  match ts.significant start limit with
  | [] => .error .empty
  | all =>
    match ts.firstDeclarator 0 all with
    | [] => .error .noTokens
    | sig => DeclarationView.read ⟨ts, sig.toArray, limit⟩

end TokenSeq

end AllocGuard
