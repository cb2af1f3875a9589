import AllocGuard.Settings
import AllocGuard.Toml.Reader

/-! Settings written in TOML. Every key of the document is optional, and a key that
means nothing is refused. An allocator is a table of its fields, or an array of them in
order. -/
namespace AllocGuard

namespace Toml

def text? : Toml → Option String
  | string text => some text
  | _ => none

def natural? : Toml → Option Nat
  | integer (.ofNat n) => some n
  | _ => none

def boolean? : Toml → Option Bool
  | boolean value => some value
  | _ => none

/-- The fields of a table, however it came about. -/
def fields? : Toml → Option (List (String × Toml))
  | table _ fields => some fields
  | _ => none

/-- The items of an array, one of tables included. -/
def items? : Toml → Option (List Toml)
  | array items => some items
  | tables elements => some elements
  | _ => none

/-- Whether a value holds nothing: an empty table or an empty array. -/
def isEmpty : Toml → Bool
  | table _ fields => fields.isEmpty
  | array items => items.isEmpty
  | tables elements => elements.isEmpty
  | _ => false

/-- The value at a key, read, or the value that stands for a missing one. -/
def fieldOr {α : Type} (fields : List (String × Toml)) (key : String) (read : Toml → Option α)
    (missing : Option α) : Option α :=
  match fields.lookup key with
  | some value => read value
  | none => missing

/-- A name that stands alone, or as the one key of a table with nothing behind it. -/
def word? : Toml → Option String
  | string text => some text
  | table _ [(key, value)] => if value.isEmpty then some key else none
  | _ => none

end Toml

/-- Where a result ends up: `return`, or `arg` with a number. -/
def ResultSlot.ofToml? (value : Toml) : Option ResultSlot :=
  match value with
  | .table _ [("arg", index)] => index.natural?.map .argument
  | _ => if value.word? = some "return" then some .returned else none

def FailureSign.ofToml? (value : Toml) : Option FailureSign :=
  match value.word? with
  | some "null" => some .null
  | some "negative" => some .negative
  | some "map_failed" => some .mapFailed
  | some "nonzero" => some .nonzero
  | _ => none

/-- An allocator. The result is returned and failure is null unless said otherwise. -/
def Allocator.ofToml? (value : Toml) : Option Allocator := do
  match value.items? with
  | some (name :: arity :: others) =>
    let result ← (others[0]?.map ResultSlot.ofToml?).getD (some .returned)
    let failure ← (others[1]?.map FailureSign.ofToml?).getD (some .null)
    return ⟨← name.text?, ← arity.natural?, result, failure⟩
  | some _ => none
  | none =>
    let fields ← value.fields?
    if fields.all fun (key, _) => ["name", "arity", "result", "failure"].contains key then
      return {
        name := ← Toml.fieldOr fields "name" Toml.text? none
        arity := ← Toml.fieldOr fields "arity" Toml.natural? none
        result := ← Toml.fieldOr fields "result" ResultSlot.ofToml? (some .returned)
        failure := ← Toml.fieldOr fields "failure" FailureSign.ofToml? (some .null) }
    else none

namespace Settings

/-- The keys of settings. -/
def keys : List String :=
  ["entry_point", "failure_code", "out_param", "null_is_failure", "allocators"]

/-- The settings that a document gives. Whether they can be used is another question. -/
def ofToml? (text : String) : Option Settings := do
  let fields ← Toml.read text
  let missing : Settings := {}
  if fields.all fun (key, _) => keys.contains key then
    return {
      entryPoint := ← Toml.fieldOr fields "entry_point" Toml.text? (some missing.entryPoint)
      failureCode := ← Toml.fieldOr fields "failure_code" Toml.text? (some missing.failureCode)
      outParam := ← Toml.fieldOr fields "out_param" Toml.text? (some missing.outParam)
      nullIsFailure :=
        ← Toml.fieldOr fields "null_is_failure" Toml.boolean? (some missing.nullIsFailure)
      allocators := ← Toml.fieldOr fields "allocators"
        (fun value => value.items? >>= List.mapM Allocator.ofToml?) (some missing.allocators) }
  else none

end Settings

end AllocGuard
