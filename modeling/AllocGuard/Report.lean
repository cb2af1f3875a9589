import AllocGuard.Hardening

/-! The report of a run, as indented JSON. -/
namespace AllocGuard.Report

/-! ## JSON -/

def hexDigit (n : Nat) : Char :=
  if n < 10 then Char.ofNat ('0'.toNat + n) else Char.ofNat ('a'.toNat + (n - 10))

/-- A character inside quotes. Only quotes, backslashes and control characters are
escaped. -/
def escape (c : Char) : List Char :=
  match c with
  | '"' => ['\\', '"']
  | '\\' => ['\\', '\\']
  | '\x08' => ['\\', 'b']
  | '\t' => ['\\', 't']
  | '\n' => ['\\', 'n']
  | '\x0c' => ['\\', 'f']
  | '\r' => ['\\', 'r']
  | c =>
    if c.toNat < 0x20 then
      ['\\', 'u', '0', '0', hexDigit (c.toNat / 16), hexDigit (c.toNat % 16)]
    else [c]

def quoted (text : String) : String :=
  String.ofList ('"' :: text.toList.flatMap escape ++ ['"'])

def flag (b : Bool) : String :=
  if b then "true" else "false"

def number (n : Nat) : String :=
  String.ofList (Nat.toDigits 10 n)

/-- Two blanks for every level. -/
def margin (level : Nat) : String :=
  String.ofList (List.replicate (2 * level) ' ')

/-- Items on lines of their own between brackets. Without items the brackets touch. -/
def bracketed (opening closing : String) (level : Nat) (items : List String) : String :=
  if items.isEmpty then opening ++ closing
  else
    opening ++ "\n" ++ ",\n".intercalate (items.map (margin (level + 1) ++ ·)) ++ "\n" ++
      margin level ++ closing

def list (level : Nat) (items : List String) : String :=
  bracketed "[" "]" level items

def record (level : Nat) (fields : List (String × String)) : String :=
  bracketed "\x7b" "\x7d" level (fields.map fun (key, value) => quoted key ++ ": " ++ value)

/-! ## Reports -/

/-- What is reported of a file. -/
structure FileReport where
  path : String
  outcome : Outcome
deriving Repr, DecidableEq

def functionText (level : Nat) (f : FunctionReport) : String :=
  record level [("name", quoted f.name), ("marked", flag f.marked),
    ("signature_changed", flag f.signatureChanged), ("fell_back", flag f.fellBack),
    ("sites", number f.sites), ("unsafe_sites", number f.unsafeSites), ("guards", number f.guards)]

def fileText (level : Nat) (r : FileReport) : String :=
  record level [("path", quoted r.path), ("changed", flag r.outcome.changed),
    ("skipped_patches", number r.outcome.skippedEdits),
    ("functions", list (level + 1) (r.outcome.functions.map (functionText (level + 2))))]

/-- The report of all files, in their order. -/
def render (files : List FileReport) : String :=
  list 0 (files.map (fileText 1)) ++ "\n"

end AllocGuard.Report
