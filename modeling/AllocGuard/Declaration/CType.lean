import AllocGuard.Declaration.Words
import AllocGuard.Fault

/-! Types of C as declarations build them: specifiers, and layers around them. The
outermost layer comes first, as in the reading "array of pointer to function". -/
namespace AllocGuard

/-- One layer of a type, with the source text that belongs to it. -/
inductive Layer where
  | pointer (qualifiers : String)
  | array (size : String)
  | function (params : String)
deriving Repr, DecidableEq

/-- The layer in words, up to the type inside it. -/
def Layer.describe : Layer → String
  | pointer "" => "pointer to "
  | pointer qualifiers => qualifiers ++ " pointer to "
  | array size => "array[" ++ size ++ "] of "
  | function params => "function(" ++ params ++ ") returning "

/-- A type: its layers, the outermost first, and the specifiers inside them all. -/
structure CType where
  layers : List Layer
  specifiers : String
deriving Repr, DecidableEq

namespace CType

/-- The type in words. -/
def describe (t : CType) : String :=
  t.layers.foldr (fun layer rest => layer.describe ++ rest) t.specifiers

/-- The number of layers, the specifiers counted as one. -/
def depth (t : CType) : Nat :=
  t.layers.length + 1

def isPointer (t : CType) : Bool :=
  match t.layers with
  | .pointer _ :: _ => true
  | _ => false

def isFunction (t : CType) : Bool :=
  match t.layers with
  | .function _ :: _ => true
  | _ => false

/-- The words of the specifiers that name the type. -/
def typeWords (t : CType) : List String :=
  Word.typeWords t.specifiers

/-- Whether this is `void` itself, and not a type built on it. -/
def isVoid (t : CType) : Bool :=
  t.layers.isEmpty && t.typeWords == ["void"]

/-- What a function of this type returns. -/
def returnType? (t : CType) : Option CType :=
  match t.layers with
  | .function _ :: inner => some ⟨inner, t.specifiers⟩
  | _ => none

end CType

/-- What a declaration declares: a type, and the name and its token unless the
declarator is abstract. -/
structure Declaration where
  name : Option (String × Nat)
  type : CType
deriving Repr, DecidableEq

/-- Why a range of tokens is not a declaration. -/
inductive DeclarationError where
  | empty
  | noTokens
  | unbalanced
  | bracketOutside
  | noBaseType (text : String)
  | unresolved (text : String)
deriving Repr, DecidableEq

namespace DeclarationError

def detail : DeclarationError → String
  | empty => "empty declaration"
  | noTokens => "declaration has no tokens"
  | unbalanced => "unbalanced brackets in declaration"
  | bracketOutside => "bracket outside declaration"
  | noBaseType text => s!"no base type in '{text}'"
  | unresolved text => s!"cannot resolve declarator '{text}'"

def fault (e : DeclarationError) : Fault :=
  ⟨.badFormat, e.detail⟩

end DeclarationError

end AllocGuard
