import AllocGuard.Toml.Value

/-! Reading a TOML document: its statements are read one after the other, and then put
together. A document that breaks a rule of the format has no value. -/
namespace AllocGuard.Toml

/-! ## Keys -/

def isBareKeyChar (c : Char) : Bool :=
  c.isAlphanum || c == '-' || c == '_'

/-- One key, bare or quoted. -/
def key? (cs : List Char) : Option (String × List Char) :=
  match cs with
  | '"' :: rest => (basicBody rest).map fun (text, rest) => (String.ofList text, rest)
  | '\'' :: rest => (literalBody rest).map fun (text, rest) => (String.ofList text, rest)
  | _ =>
    let bare := cs.takeWhile isBareKeyChar
    if bare.isEmpty then none else some (String.ofList bare, cs.dropWhile isBareKeyChar)

/-- One or more items with a separator between them. An item takes at least one
character. -/
def separated {α : Type} (item : Reader α) (separator : Char) (cs : List Char) :
    Option (List α × List Char) := do
  let (first, rest) ← item cs
  match rest with
  | c :: next =>
    if c = separator ∧ next.length < cs.length then
      match separated item separator next with
      | some (others, rest) => some (first :: others, rest)
      | none => none
    else some ([first], c :: next)
  | [] => some ([first], [])
termination_by cs.length

/-- A key with blanks around it. -/
def spacedKey (cs : List Char) : Option (String × List Char) := do
  let (key, rest) ← key? (skipGap cs)
  return (key, skipGap rest)

/-- How deep arrays, tables in braces and dotted keys may lead. -/
def maxDepth : Nat :=
  79

/-- Keys with dots between them. -/
def keys? (cs : List Char) : Option (List String × List Char) := do
  let (keys, rest) ← separated spacedKey '.' cs
  if keys.length ≤ maxDepth then some (keys, rest) else none

/-! ## Values -/

/-- Dotted keys and their value, `value` being the reader of values. -/
def pairWith (value : Reader Toml) (cs : List Char) : Option ((List String × Toml) × List Char) :=
  match keys? cs with
  | some (keys, '=' :: rest) =>
    (value (skipGap rest)).map fun (value, rest) => ((keys, value), rest)
  | _ => none

/-- An item of an array, with filler around it. -/
def arrayItem (value : Reader Toml) (cs : List Char) : Option (Toml × List Char) := do
  let (value, rest) ← value (← skipFiller cs)
  return (value, ← skipFiller rest)

/-- The items of an array behind its opening bracket. A comma may follow the last. -/
def arrayItems (value : Reader Toml) (cs : List Char) : Option (List Toml × List Char) := do
  match ← skipFiller cs with
  | ']' :: rest => some ([], rest)
  | start =>
    let (first, rest) ← arrayItem value start
    match rest with
    | ']' :: rest => some ([first], rest)
    | ',' :: next =>
      if next.length < cs.length then
        match arrayItems value next with
        | some (others, rest) => some (first :: others, rest)
        | none => none
      else none
    | _ => none
termination_by cs.length

/-- A pair of a table in braces, with blanks around it. -/
def inlinePair (value : Reader Toml) (cs : List Char) :
    Option ((List String × Toml) × List Char) := do
  let (pair, rest) ← pairWith value cs
  return (pair, skipGap rest)

/-- The pairs of a table behind its opening brace. -/
def inlinePairs (value : Reader Toml) (cs : List Char) :
    Option (List (List String × Toml) × List Char) :=
  match skipGap cs with
  | '\x7d' :: rest => some ([], rest)
  | _ =>
    match separated (inlinePair value) ',' cs with
    | some (pairs, '\x7d' :: rest) => some (pairs, rest)
    | _ => none

/-- A value that is no deeper than `nesting` brackets and braces. -/
def value : Nat → Reader Toml
  | nesting, cs =>
    match cs with
    | '"' :: _ => text cs
    | '\'' :: _ => text cs
    | 't' :: 'r' :: 'u' :: 'e' :: rest => some (.boolean true, rest)
    | 'f' :: 'a' :: 'l' :: 's' :: 'e' :: rest => some (.boolean false, rest)
    | '[' :: rest =>
      match nesting with
      | 0 => none
      | nesting + 1 => (arrayItems (value nesting) rest).map fun (items, rest) => (.array items, rest)
    | '\x7b' :: rest =>
      match nesting with
      | 0 => none
      | nesting + 1 => do
        let (pairs, rest) ← inlinePairs (value nesting) rest
        return (← inlineTable pairs, rest)
    | _ => number cs
where
  /-- A date or a time is tried first, and an integer last, since it may be the start
  of another. -/
  number (cs : List Char) : Option (Toml × List Char) :=
    ((moment? cs).map fun (found, rest) => (.moment found, rest)) <|>
      ((float? cs).map fun (found, rest) => (.float found, rest)) <|>
      ((integer? cs).map fun (found, rest) => (.integer found, rest))
  text (cs : List Char) : Option (Toml × List Char) :=
    (string? cs).map fun (text, rest) => (.string (String.ofList text), rest)

/-! ## Statements and documents -/

inductive Statement where
  | pair (keys : List String) (value : Toml)
  | table (keys : List String)
  | element (keys : List String)

/-- A header, a pair, or nothing but a line end or a comment, and what follows. -/
def statement? (cs : List Char) : Option (Option Statement × List Char) :=
  match cs with
  | '#' :: _ => (afterLine? cs).map fun rest => (none, rest)
  | '\n' :: rest => some (none, rest)
  | '\r' :: '\n' :: rest => some (none, rest)
  | '[' :: '[' :: rest =>
    match keys? rest with
    | some (keys, ']' :: ']' :: rest) => (afterLine? rest).map fun rest => (some (.element keys), rest)
    | _ => none
  | '[' :: rest =>
    match keys? rest with
    | some (keys, ']' :: rest) => (afterLine? rest).map fun rest => (some (.table keys), rest)
    | _ => none
  | _ => do
    let ((keys, value), rest) ← pairWith (value maxDepth) cs
    return (some (.pair keys value), ← afterLine? rest)

/-- All statements of a document. Every one takes at least a character. -/
def statements (cs : List Char) : Option (List Statement) :=
  match skipGap cs with
  | [] => some []
  | start =>
    match statement? start with
    | some (found, rest) =>
      if rest.length < cs.length then
        match statements rest with
        | some others => some (found.toList ++ others)
        | none => none
      else none
    | none => none
termination_by cs.length

/-- A document that is being put together: its fields, and the header that pairs
belong to. -/
structure Assembly where
  fields : List (String × Toml)
  current : List String

/-- The document with one more statement. -/
def Assembly.add (a : Assembly) (s : Statement) : Option Assembly := do
  match s with
  | .pair keys value =>
    let (_, fields) ← changeAt false (addPair keys value) a.current .header a.fields
    return { a with fields }
  | .table keys =>
    let (_, fields) ← addTable keys .header a.fields
    return ⟨fields, keys⟩
  | .element keys =>
    let (_, fields) ← addElement keys .header a.fields
    return ⟨fields, keys⟩

/-- The text without a byte order mark. -/
def skipMark : List Char → List Char
  | '\ufeff' :: rest => rest
  | cs => cs

/-- The fields of a document. -/
def read (text : String) : Option (List (String × Toml)) := do
  let all ← statements (skipMark text.toList)
  let document ← all.foldlM Assembly.add ⟨[], []⟩
  return document.fields

end AllocGuard.Toml
