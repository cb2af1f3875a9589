import AllocGuard.Declaration.Reader
import AllocGuard.Proofs.BracketMatching

/-! The declarations of C, as far as one declarator goes, over the positions of the
tokens that carry meaning. A declarator is a tree that says how it was derived, and the
language gives it a type from the outside in: a declarator with a suffix, or with a star
in front, says of what remains that it is an array, a function or a pointer. -/
namespace AllocGuard

/-- Words that have a meaning of their own in a declaration and cannot be declared. -/
def Word.isReserved (word : String) : Bool :=
  isBuiltinType word || isStorage word || isTypeof word || isAttribute word

theorem Word.builtin_takes_no_group {word : String} (builtin : isBuiltinType word = true) :
    isTypeof word = false ∧ isAttribute word = false := by
  rw [isBuiltinType, List.contains_iff_mem] at builtin
  revert word
  decide

namespace TokenSeq

/-- A name that is declared here or elsewhere. -/
structure IsName (ts : TokenSeq) (i : Nat) : Prop where
  identifier : ts.kind? i = some .identifier
  free : Word.isReserved (ts.spelling i) = false

theorem IsName.takes_no_group {ts : TokenSeq} {i : Nat} (named : ts.IsName i) :
    Word.isTypeof (ts.spelling i) = false ∧ Word.isAttribute (ts.spelling i) = false := by
  have free := named.free
  simp only [Word.isReserved, Bool.or_eq_false_iff] at free
  exact ⟨free.1.2, free.2⟩

theorem IsName.not_builtin {ts : TokenSeq} {i : Nat} (named : ts.IsName i) :
    Word.isBuiltinType (ts.spelling i) = false := by
  have free := named.free
  simp only [Word.isReserved, Bool.or_eq_false_iff] at free
  exact free.1.1.1

/-- The text of these tokens and of what stands between them, without blanks around. -/
def written (ts : TokenSeq) : List Nat → String
  | [] => ""
  | first :: rest => Text.trim (ts.textRange first (rest.getLastD first + 1))

end TokenSeq

/-! ## Declarators -/

/-- The two kinds of suffix that a declarator may have. -/
inductive Suffix where
  | array
  | function
deriving Repr, DecidableEq

namespace Suffix

def bracket : Suffix → Bracket
  | array => .square
  | function => .paren

def layer : Suffix → String → Layer
  | array => .array
  | function => .function

end Suffix

/-- How a declarator is derived, with the positions of its tokens. -/
inductive Declarator where
  | name (token : Nat)
  | group (opening : Nat) (inner : Declarator) (close : Nat)
  | suffix (target : Declarator) (form : Suffix) (opening : Nat) (content : List Nat) (close : Nat)
  | pointer (star : Nat) (qualifiers : List Nat) (target : Declarator)
deriving Repr, DecidableEq

namespace Declarator

def tokens : Declarator → List Nat
  | name token => [token]
  | group opening inner close => opening :: (inner.tokens ++ [close])
  | suffix target _ opening content close => target.tokens ++ opening :: (content ++ [close])
  | pointer star qualifiers target => star :: (qualifiers ++ target.tokens)

/-- The token of the declared name. -/
def nameToken : Declarator → Nat
  | name token => token
  | group _ inner _ => inner.nameToken
  | suffix target _ _ _ _ => target.nameToken
  | pointer _ _ target => target.nameToken

/-- Whether a suffix may follow without a group around it. -/
def isDirect : Declarator → Bool
  | pointer _ _ _ => false
  | _ => true

/-- Whether the tokens are of the kinds that the derivation says. A star takes any
number of `const`, `volatile` and `restrict`. -/
def WellFormed (ts : TokenSeq) : Declarator → Prop
  | name token => ts.IsName token
  | group opening inner close =>
    ts.kind? opening = some .openParen ∧ ts.kind? close = some .closeParen ∧ inner.WellFormed ts
  | suffix target form opening content close =>
    target.isDirect = true ∧ ts.kind? opening = some form.bracket.opener ∧
      ts.kind? close = some form.bracket.closer ∧ ts.Balanced content ∧ target.WellFormed ts
  | pointer star qualifiers target =>
    ts.kind? star = some .star ∧
      (∀ q ∈ qualifiers, ts.kind? q = some .const ∨ ts.kind? q = some .volatile ∨
        ts.kind? q = some .restrict) ∧ target.WellFormed ts

/-- The type that the declarator gives to its name, `type` being the type that the
tokens around it stand for. -/
def typeOf (ts : TokenSeq) : Declarator → CType → CType
  | name _, type => type
  | group _ inner _, type => inner.typeOf ts type
  | suffix target form opening _ close, type =>
    let content := Text.trim (ts.textRange (opening + 1) close)
    target.typeOf ts ⟨form.layer content :: type.layers, type.specifiers⟩
  | pointer _ qualifiers target, type =>
    target.typeOf ts ⟨.pointer (ts.written qualifiers) :: type.layers, type.specifiers⟩

/-- A declarator starts with a star, a parenthesis or its name. -/
theorem tokens_head {ts : TokenSeq} (d : Declarator) (formed : d.WellFormed ts) :
    ∃ first rest, d.tokens = first :: rest ∧
      (ts.kind? first = some .star ∨ ts.kind? first = some .openParen ∨ ts.IsName first) := by
  induction d with
  | name token => exact ⟨token, [], rfl, .inr (.inr formed)⟩
  | group opening inner close ih => exact ⟨opening, _, rfl, .inr (.inl formed.1)⟩
  | suffix target form opening content close ih =>
    obtain ⟨first, rest, tokens, start⟩ := ih formed.2.2.2.2
    exact ⟨first, rest ++ opening :: (content ++ [close]), by rw [Declarator.tokens, tokens]; rfl, start⟩
  | pointer star qualifiers target ih => exact ⟨star, _, rfl, .inl formed.1⟩

/-- A name that starts a declarator is followed by a suffix or by nothing. -/
theorem tokens_after_name {ts : TokenSeq} {d : Declarator} (formed : d.WellFormed ts) {first : Nat} {rest : List Nat}
    (tokens : d.tokens = first :: rest) (identifier : ts.kind? first = some .identifier) :
    rest = [] ∨ ∃ opening behind, rest = opening :: behind ∧
      ∃ form : Suffix, ts.kind? opening = some form.bracket.opener := by
  induction d generalizing rest with
  | name token =>
    cases tokens
    exact .inl rfl
  | group opening inner close ih =>
    obtain ⟨rfl, _⟩ := List.cons.inj tokens
    rw [formed.1] at identifier
    cases identifier
  | suffix target form opening content close ih =>
    obtain ⟨_, opens, _, _, within⟩ := formed
    obtain ⟨first', rest', targetTokens, _⟩ := target.tokens_head within
    rw [Declarator.tokens, targetTokens] at tokens
    obtain ⟨rfl, rfl⟩ := List.cons.inj tokens
    rcases ih within targetTokens with rfl | ⟨opening', behind, rfl, form', opens'⟩
    · exact .inr ⟨opening, _, rfl, form, opens⟩
    · exact .inr ⟨opening', _, rfl, form', opens'⟩
  | pointer star qualifiers target ih =>
    obtain ⟨rfl, _⟩ := List.cons.inj tokens
    rw [formed.1] at identifier
    cases identifier

/-- The number of tokens in front of the name. -/
def offset : Declarator → Nat
  | name _ => 0
  | group _ inner _ => inner.offset + 1
  | suffix target _ _ _ _ => target.offset
  | pointer _ qualifiers target => target.offset + qualifiers.length + 1

theorem tokens_at_name (d : Declarator) :
    ∃ front back, d.tokens = front ++ d.nameToken :: back ∧ front.length = d.offset := by
  induction d with
  | name token => exact ⟨[], [], rfl, rfl⟩
  | group opening inner close ih =>
    obtain ⟨front, back, tokens, place⟩ := ih
    exact ⟨opening :: front, back ++ [close], by simp [Declarator.tokens, tokens, nameToken], by simp [offset, place]⟩
  | suffix target form opening content close ih =>
    obtain ⟨front, back, tokens, place⟩ := ih
    exact ⟨front, back ++ opening :: (content ++ [close]),
      by simp [Declarator.tokens, tokens, nameToken], by simp [offset, place]⟩
  | pointer star qualifiers target ih =>
    obtain ⟨front, back, tokens, place⟩ := ih
    exact ⟨star :: (qualifiers ++ front), back, by simp [Declarator.tokens, tokens, nameToken],
      by simp [offset, place, Nat.add_comm]⟩

/-- The layers that the declarator adds, from the name outwards. -/
def layers (ts : TokenSeq) : Declarator → List Layer
  | name _ => []
  | group _ inner _ => inner.layers ts
  | suffix target form opening _ close =>
    target.layers ts ++ [form.layer (Text.trim (ts.textRange (opening + 1) close))]
  | pointer _ qualifiers target => target.layers ts ++ [.pointer (ts.written qualifiers)]

/-- The rule from the outside in and the one from the inside out give the same type. -/
theorem type_of_eq (ts : TokenSeq) (d : Declarator) (type : CType) :
    d.typeOf ts type = ⟨d.layers ts ++ type.layers, type.specifiers⟩ := by
  induction d generalizing type with
  | name token => rfl
  | group opening inner close ih => exact ih type
  | suffix target form opening content close ih =>
    rw [typeOf, ih]
    simp [layers]
  | pointer star qualifiers target ih =>
    rw [typeOf, ih]
    simp [layers]

end Declarator

/-! ## Declarations -/

namespace TokenSeq

/-- The words that name a type: builtin ones, an aggregate with its tag, or a name that
a `typedef` has given. -/
inductive TypeWords (ts : TokenSeq) : List Nat → Prop where
  | builtin {first : Nat} {rest : List Nat}
      (words : ∀ i ∈ first :: rest, ts.kind? i = some .identifier ∧
        Word.isBuiltinType (ts.spelling i) = true) : TypeWords ts (first :: rest)
  | aggregate {keyword tag : Nat} {kind : TokenKind} (seen : ts.kind? keyword = some kind)
      (opens : kind.isAggregate = true) (named : ts.IsName tag) : TypeWords ts [keyword, tag]
  | typedef {i : Nat} (named : ts.IsName i) : TypeWords ts [i]

/-- Specifiers in front of a declarator: keywords for storage, `const` and `volatile` in
any order, and then the type. -/
inductive Specifiers (ts : TokenSeq) : List Nat → Prop where
  | type {words : List Nat} (named : TypeWords ts words) : Specifiers ts words
  | keyword {i : Nat} {rest : List Nat} {kind : TokenKind} (seen : ts.kind? i = some kind)
      (allowed : kind.isStorage = true ∨ kind = .const ∨ kind = .volatile)
      (behind : Specifiers ts rest) : Specifiers ts (i :: rest)

theorem type_words_words {ts : TokenSeq} {words : List Nat} (named : ts.TypeWords words) :
    ∀ i ∈ words, ∃ kind, ts.kind? i = some kind ∧ kind.isWord = true := by
  intro i member
  cases named with
  | builtin words => exact ⟨_, (words i member).1, rfl⟩
  | @aggregate keyword tag kind seen opens named =>
    simp only [List.mem_cons, List.not_mem_nil, or_false] at member
    rcases member with rfl | rfl
    · exact ⟨kind, seen, by simp [TokenKind.isWord, TokenKind.isKeyword, opens]⟩
    · exact ⟨_, named.identifier, rfl⟩
  | typedef named =>
    cases List.mem_singleton.1 member
    exact ⟨_, named.identifier, rfl⟩

theorem specifiers_words {ts : TokenSeq} {base : List Nat} (specifies : ts.Specifiers base) :
    ∀ i ∈ base, ∃ kind, ts.kind? i = some kind ∧ kind.isWord = true := by
  induction specifies with
  | type named => exact type_words_words named
  | @keyword i rest kind seen allowed _ ih =>
    intro j member
    rcases List.mem_cons.1 member with rfl | behind
    · refine ⟨kind, seen, ?_⟩
      rcases allowed with storage | rfl | rfl
      · simp [TokenKind.isWord, TokenKind.isKeyword, storage]
      · rfl
      · rfl
    · exact ih j behind

/-- What may follow the first declarator: nothing, a `;`, or an initializer. -/
def EndsDeclarator (ts : TokenSeq) : List Nat → Prop
  | [] => True
  | i :: _ => ts.kind? i = some .semicolon ∨ ts.kind? i = some .assign

end TokenSeq

end AllocGuard
