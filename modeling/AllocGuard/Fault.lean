/-! How faults are reported. Every part of the library has its own type of causes;
what they share is the category, which decides the first words of the message. -/
namespace AllocGuard

inductive FaultCategory where
  | badArgument
  | badFormat
  | outOfRange
  | badSettings
deriving Repr, DecidableEq

namespace FaultCategory

/-- The words that open every message of the category. -/
def heading : FaultCategory → String
  | badArgument => "invalid argument: "
  | badFormat => "invalid format: "
  | outOfRange => "out of range: "
  | badSettings => "configuration error: "

end FaultCategory

/-- A fault ready to be shown: its category, and what is wrong. -/
structure Fault where
  category : FaultCategory
  detail : String
deriving Repr, DecidableEq

/-- The whole message of a fault. -/
def Fault.message (f : Fault) : String :=
  f.category.heading ++ f.detail

end AllocGuard
