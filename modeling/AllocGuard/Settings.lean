import AllocGuard.Allocator
import AllocGuard.Fault
import AllocGuard.Text.Blank

/-! The settings of a run. -/
namespace AllocGuard

structure Settings where
  /-- The function that keeps its header. -/
  entryPoint : String := "main"
  /-- The expression that is returned after a failure. -/
  failureCode : String := "-1"
  /-- The preferred name of an added parameter. -/
  outParam : String := "out"
  /-- Whether returning a null pointer reports a failure. -/
  nullIsFailure : Bool := false
  /-- Allocators beside the builtin ones. -/
  allocators : List Allocator := []
deriving Repr, DecidableEq

/-- Why settings cannot be used. -/
inductive SettingsError where
  | entryPoint (name : String)
  | outParam (name : String)
  | failureCode
  | allocatorName (name : String)
  | resultArgument (allocator : String) (index arity : Nat)
deriving Repr, DecidableEq

namespace SettingsError

def detail : SettingsError → String
  | entryPoint name => s!"entry_point '{name}' is not an identifier"
  | outParam name => s!"out_param '{name}' is not an identifier"
  | failureCode => "failure_code is empty"
  | allocatorName name => s!"allocator name '{name}' is not an identifier"
  | resultArgument allocator index arity =>
    s!"allocator '{allocator}': result argument {index} out of range for arity {arity}"

def fault (e : SettingsError) : Fault :=
  ⟨.badSettings, e.detail⟩

end SettingsError

namespace Settings

/-- Whether a name can be put into C text as an identifier. Only ASCII is accepted. -/
def isIdentifier (name : String) : Bool :=
  match name.toList with
  | [] => false
  | first :: rest =>
    (first == '_' || first.isAlpha) && rest.all fun c => c == '_' || c.isAlphanum

/-- The first fault of an allocator. -/
def allocatorError? (a : Allocator) : Option SettingsError :=
  if !isIdentifier a.name then some (.allocatorName a.name)
  else
    match a.result with
    | .argument index => if a.arity ≤ index then some (.resultArgument a.name index a.arity) else none
    | .returned => none

/-- The first fault of the settings, in the order of their fields. -/
def error? (s : Settings) : Option SettingsError :=
  if !isIdentifier s.entryPoint then some (.entryPoint s.entryPoint)
  else if !isIdentifier s.outParam then some (.outParam s.outParam)
  else if (Text.trim s.failureCode).isEmpty then some .failureCode
  else s.allocators.findSome? allocatorError?

/-- The allocators that the settings make known. -/
def registry (s : Settings) : Registry :=
  .withExtra s.allocators

end Settings

end AllocGuard
