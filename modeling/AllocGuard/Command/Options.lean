/-! The command line: what may stand on it, and what is asked for. -/
namespace AllocGuard

/-- The options that can be named. -/
inductive OptionName where
  | inPlace
  | outDir
  | diff
  | report
  | config
  | verbose
  | help
  | version
deriving Repr, DecidableEq

namespace OptionName

def ofLong? : String → Option OptionName
  | "in-place" => some inPlace
  | "out-dir" => some outDir
  | "diff" => some diff
  | "report" => some report
  | "config" => some config
  | "verbose" => some verbose
  | "help" => some help
  | "version" => some version
  | _ => none

def ofShort? : Char → Option OptionName
  | 'i' => some inPlace
  | 'o' => some outDir
  | 'c' => some config
  | 'v' => some verbose
  | 'h' => some help
  | 'V' => some version
  | _ => none

def takesValue : OptionName → Bool
  | outDir | config => true
  | _ => false

def text : OptionName → String
  | inPlace => "--in-place"
  | outDir => "--out-dir"
  | diff => "--diff"
  | report => "--report"
  | config => "--config"
  | verbose => "--verbose"
  | help => "--help"
  | version => "--version"

end OptionName

/-- Why a command line cannot be used. -/
inductive UsageError where
  | unknown (argument : String)
  | missingValue (option : OptionName)
  | unexpectedValue (option : OptionName)
  | repeated (option : OptionName)
  | emptyPath
  | inPlaceWithOutDir
  | noPaths
deriving Repr, DecidableEq

def UsageError.message : UsageError → String
  | unknown argument => s!"unexpected argument '{argument}'"
  | missingValue option => "a value is required for " ++ option.text
  | unexpectedValue option => "no value is expected for " ++ option.text
  | repeated option => option.text ++ " cannot be used multiple times"
  | emptyPath => "a path is empty"
  | inPlaceWithOutDir => "--in-place cannot be used with --out-dir"
  | noPaths => "no paths were given"

/-- What a command line says. -/
structure Options where
  paths : List String := []
  /-- Whether changed files are overwritten. -/
  inPlace : Bool := false
  /-- The directory that all files are written below. -/
  outDir : Option String := none
  /-- Whether the changes are shown. -/
  diff : Bool := false
  /-- Whether a report is printed. -/
  report : Bool := false
  /-- The file that holds the settings. -/
  config : Option String := none
  verbosity : Nat := 0
deriving Repr, DecidableEq

/-- What is asked for. -/
inductive Invocation where
  | run (options : Options)
  | help
  | version
deriving Repr, DecidableEq

/-- What an argument came to. -/
inductive Reading where
  | done (options : Options)
  /-- The next argument is the value of this option. -/
  | wants (options : Options) (option : OptionName)
  | asked (invocation : Invocation)

namespace Options

def addPath (o : Options) (path : String) : Except UsageError Options :=
  if path.isEmpty then .error .emptyPath else .ok { o with paths := o.paths ++ [path] }

/-- An option with its value, which is a path. -/
def setValue (o : Options) (option : OptionName) (value : String) : Except UsageError Options :=
  if value.isEmpty then .error .emptyPath
  else
    match option with
    | .outDir => if o.outDir.isSome then .error (.repeated option) else .ok { o with outDir := some value }
    | .config => if o.config.isSome then .error (.repeated option) else .ok { o with config := some value }
    | _ => .error (.unexpectedValue option)

/-- An option that stands alone. Only the one for more messages may be repeated. -/
def setFlag (o : Options) (option : OptionName) : Except UsageError Reading :=
  match option with
  | .inPlace => if o.inPlace then .error (.repeated option) else .ok (.done { o with inPlace := true })
  | .diff => if o.diff then .error (.repeated option) else .ok (.done { o with diff := true })
  | .report => if o.report then .error (.repeated option) else .ok (.done { o with report := true })
  | .verbose => .ok (.done { o with verbosity := o.verbosity + 1 })
  | .help => .ok (.asked .help)
  | .version => .ok (.asked .version)
  | .outDir | .config => .ok (.wants o option)

/-- An option by its long name, with the value behind an equals sign if there is one. -/
def readLong (o : Options) (body : List Char) : Except UsageError Reading :=
  let name := String.ofList (body.takeWhile (· != '='))
  match OptionName.ofLong? name, body.dropWhile (· != '=') with
  | none, _ => .error (.unknown ("--" ++ name))
  | some option, [] => o.setFlag option
  | some option, _ :: value =>
    if option.takesValue then .done <$> o.setValue option (String.ofList value)
    else .error (.unexpectedValue option)

/-- Options by their short names, one after the other. What follows one that takes a
value is its value, behind an equals sign or not. -/
def readShort (o : Options) : List Char → Except UsageError Reading
  | [] => .ok (.done o)
  | c :: rest =>
    match OptionName.ofShort? c with
    | none => .error (.unknown (String.ofList ['-', c]))
    | some option =>
      if option.takesValue then
        match rest with
        | [] => .ok (.wants o option)
        | '=' :: value => .done <$> o.setValue option (String.ofList value)
        | value => .done <$> o.setValue option (String.ofList value)
      else
        match o.setFlag option with
        | .ok (.done o) => readShort o rest
        | other => other

/-- Whether an argument names options. A dash alone is a path. -/
def isOption (argument : String) : Bool :=
  match argument.toList with
  | '-' :: _ :: _ => true
  | _ => false

def readArgument (o : Options) (argument : String) : Except UsageError Reading :=
  match argument.toList with
  | '-' :: '-' :: body => o.readLong body
  | '-' :: c :: rest => o.readShort (c :: rest)
  | _ => .done <$> o.addPath argument

/-- The options, once all arguments are read. -/
def finish (o : Options) : Except UsageError Invocation :=
  if o.inPlace && o.outDir.isSome then .error .inPlaceWithOutDir
  else if o.paths.isEmpty then .error .noPaths
  else .ok (.run o)

/-- Reads arguments from the left. Everything behind two dashes is a path. -/
def readFrom (o : Options) : List String → Except UsageError Invocation
  | [] => o.finish
  | argument :: rest =>
    if argument = "--" then do (← rest.foldlM addPath o).finish
    else
      match o.readArgument argument with
      | .error e => .error e
      | .ok (.asked invocation) => .ok invocation
      | .ok (.done o) => readFrom o rest
      | .ok (.wants o option) =>
        match rest with
        | [] => .error (.missingValue option)
        | value :: rest =>
          if isOption value then .error (.missingValue option)
          else
            match o.setValue option value with
            | .error e => .error e
            | .ok o => readFrom o rest

def read (arguments : List String) : Except UsageError Invocation :=
  readFrom {} arguments

end Options

end AllocGuard
