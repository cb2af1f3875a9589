/-! Calls that acquire a resource and may fail: what each is called, how many
arguments it takes, where the resource ends up, and how a failure shows. -/
namespace AllocGuard

/-- Where a call delivers what it acquired. -/
inductive ResultSlot where
  | returned
  /-- Through the pointer that is passed as this argument, counted from zero. -/
  | argument (index : Nat)
deriving Repr, DecidableEq

/-- How a failed call shows. -/
inductive FailureSign where
  | null
  | negative
  | mapFailed
  | nonzero
deriving Repr, DecidableEq

/-- The condition of C that holds when `subject` is a failed result. -/
def FailureSign.condition (subject : String) : FailureSign → String
  | null => subject ++ " == NULL"
  | negative => subject ++ " < 0"
  | mapFailed => subject ++ " == MAP_FAILED"
  | nonzero => subject ++ " != 0"

structure Allocator where
  name : String
  arity : Nat
  result : ResultSlot
  failure : FailureSign
deriving Repr, DecidableEq

/-- The allocators that an analysis knows, the first of equals taking precedence. -/
structure Registry where
  allocators : List Allocator
deriving Repr, DecidableEq

namespace Registry

/-- The calls of the C library and of POSIX that are known without settings. -/
def builtin : List Allocator :=
  [⟨"malloc", 1, .returned, .null⟩, ⟨"calloc", 2, .returned, .null⟩,
    ⟨"realloc", 2, .returned, .null⟩, ⟨"reallocarray", 3, .returned, .null⟩,
    ⟨"aligned_alloc", 2, .returned, .null⟩, ⟨"strdup", 1, .returned, .null⟩,
    ⟨"strndup", 2, .returned, .null⟩, ⟨"fopen", 2, .returned, .null⟩,
    ⟨"fdopen", 2, .returned, .null⟩, ⟨"freopen", 3, .returned, .null⟩,
    ⟨"tmpfile", 0, .returned, .null⟩, ⟨"popen", 2, .returned, .null⟩,
    ⟨"opendir", 1, .returned, .null⟩, ⟨"open", 2, .returned, .negative⟩,
    ⟨"open", 3, .returned, .negative⟩, ⟨"socket", 3, .returned, .negative⟩,
    ⟨"accept", 3, .returned, .negative⟩, ⟨"mmap", 6, .returned, .mapFailed⟩,
    ⟨"posix_memalign", 3, .argument 0, .nonzero⟩]

/-- The builtin allocators, followed by others. -/
def withExtra (extra : List Allocator) : Registry :=
  ⟨builtin ++ extra⟩

/-- Whether some allocator has this name. -/
def isRegistered (r : Registry) (name : String) : Bool :=
  r.allocators.any (·.name == name)

/-- The first allocator with this name and number of arguments. -/
def lookup (r : Registry) (name : String) (arity : Nat) : Option Allocator :=
  r.allocators.find? fun a => a.name == name && a.arity == arity

end Registry

end AllocGuard
