import AllocGuard.Proofs.SignificantCore
import AllocGuard.Site.Lvalue

/-! The lvalue in front of a `=`. In the language it is a postfix expression, which is a name or a
group with members, subscripts and calls behind it, with any number of stars in front. It is read
from its end. The reading stops at the last parenthesis that closes a call, as if the arguments were
a group of their own, and takes one star at most. So it finds the whole lvalue exactly if there is
no call in it and no second star in front of it. -/
namespace AllocGuard

/-- A postfix expression, by the positions of its tokens that carry meaning. -/
inductive PostfixExpr where
  | name (token : Nat)
  | group (opening : Nat) (content : List Nat) (close : Nat)
  | member (object : PostfixExpr) (access field : Nat)
  | subscript (object : PostfixExpr) (opening : Nat) (content : List Nat) (close : Nat)
  | call (callee : PostfixExpr) (opening : Nat) (content : List Nat) (close : Nat)
deriving Repr, DecidableEq

namespace PostfixExpr

variable {ts : TokenSeq} {e : PostfixExpr}

/-- The tokens of the expression, in order. -/
def tokens : PostfixExpr → List Nat
  | name token => [token]
  | group opening content close => opening :: (content ++ [close])
  | member object access field => object.tokens ++ [access, field]
  | subscript object opening content close => object.tokens ++ opening :: (content ++ [close])
  | call callee opening content close => callee.tokens ++ opening :: (content ++ [close])

def first : PostfixExpr → Nat
  | name token => token
  | group opening _ _ => opening
  | member object _ _ => object.first
  | subscript object _ _ _ => object.first
  | call callee _ _ _ => callee.first

def last : PostfixExpr → Nat
  | name token => token
  | group _ _ close => close
  | member _ _ field => field
  | subscript _ _ _ close => close
  | call _ _ _ close => close

/-- The tokens are of the kinds that the form asks for. -/
def WellFormed (ts : TokenSeq) : PostfixExpr → Prop
  | name token => ts.kind? token = some .identifier
  | group opening content close =>
    ts.kind? opening = some .openParen ∧ ts.kind? close = some .closeParen ∧ ts.Balanced content
  | member object access field =>
    object.WellFormed ts ∧ (ts.kind? access = some .dot ∨ ts.kind? access = some .arrow) ∧
      ts.kind? field = some .identifier
  | subscript object opening content close =>
    object.WellFormed ts ∧ ts.kind? opening = some .openBracket ∧
      ts.kind? close = some .closeBracket ∧ ts.Balanced content
  | call callee opening content close =>
    callee.WellFormed ts ∧ ts.kind? opening = some .openParen ∧
      ts.kind? close = some .closeParen ∧ ts.Balanced content

/-- Whether a function is called on the way from the front of the expression to its end. -/
def hasCall : PostfixExpr → Bool
  | name _ => false
  | group _ _ _ => false
  | member object _ _ => object.hasCall
  | subscript object _ _ _ => object.hasCall
  | call _ _ _ _ => true

/-- Where a reading from the end comes to rest: the arguments of the last call pass for a group at
the front of the expression. -/
def readFrom : PostfixExpr → Nat
  | name token => token
  | group opening _ _ => opening
  | member object _ _ => object.readFrom
  | subscript object _ _ _ => object.readFrom
  | call _ opening _ _ => opening

theorem tokens_first (e : PostfixExpr) : ∃ rest, e.tokens = e.first :: rest := by
  induction e with
  | name token => exact ⟨[], rfl⟩
  | group opening content close => exact ⟨content ++ [close], rfl⟩
  | member object access field ih =>
    obtain ⟨rest, tokens⟩ := ih
    exact ⟨rest ++ [access, field], by rw [PostfixExpr.tokens, tokens]; rfl⟩
  | subscript object opening content close ih =>
    obtain ⟨rest, tokens⟩ := ih
    exact ⟨rest ++ opening :: (content ++ [close]), by rw [PostfixExpr.tokens, tokens]; rfl⟩
  | call callee opening content close ih =>
    obtain ⟨rest, tokens⟩ := ih
    exact ⟨rest ++ opening :: (content ++ [close]), by rw [PostfixExpr.tokens, tokens]; rfl⟩

theorem tokens_last (e : PostfixExpr) : ∃ front, e.tokens = front ++ [e.last] := by
  cases e with
  | name token => exact ⟨[], rfl⟩
  | group opening content close => exact ⟨opening :: content, rfl⟩
  | member object access field => exact ⟨object.tokens ++ [access], by simp [tokens, last]⟩
  | subscript object opening content close =>
    exact ⟨object.tokens ++ opening :: content, by simp [tokens, last]⟩
  | call callee opening content close =>
    exact ⟨callee.tokens ++ opening :: content, by simp [tokens, last]⟩

/-- An expression ends in a name or in a closing bracket. -/
theorem last_kind (formed : e.WellFormed ts) :
    ts.kind? e.last = some .identifier ∨ ts.kind? e.last = some .closeParen ∨
      ts.kind? e.last = some .closeBracket := by
  cases e with
  | name token => exact .inl formed
  | group opening content close => exact .inr (.inl formed.2.1)
  | member object access field => exact .inl formed.2.2
  | subscript object opening content close => exact .inr (.inr formed.2.2.1)
  | call callee opening content close => exact .inr (.inl formed.2.2.1)

/-- Without a call the reading comes to rest at the front. -/
theorem read_from_first (plain : e.hasCall = false) : e.readFrom = e.first := by
  induction e with
  | name token => rfl
  | group opening content close => rfl
  | member object access field ih => exact ih plain
  | subscript object opening content close ih => exact ih plain
  | call callee opening content close => cases plain

/-- With a call it comes to rest behind the front, and another expression stands in between. -/
theorem read_from_call (formed : e.WellFormed ts) (calls : e.hasCall = true) :
    ∃ (callee : PostfixExpr) (back : List Nat), callee.WellFormed ts ∧ e.tokens = callee.tokens ++ e.readFrom :: back ∧
      callee.first = e.first := by
  induction e with
  | name token => cases calls
  | group opening content close => cases calls
  | member object access field ih =>
    obtain ⟨callee, back, inner, tokens, first⟩ := ih formed.1 calls
    exact ⟨callee, back ++ [access, field], inner, by simp [PostfixExpr.tokens, tokens, readFrom], first⟩
  | subscript object opening content close ih =>
    obtain ⟨callee, back, inner, tokens, first⟩ := ih formed.1 calls
    exact ⟨callee, back ++ opening :: (content ++ [close]), inner,
      by simp [PostfixExpr.tokens, tokens, readFrom], first⟩
  | call callee opening content close => exact ⟨callee, content ++ [close], formed.1, rfl, rfl⟩

end PostfixExpr

/-- What is assigned to: stars, and the postfix expression that they are applied to. -/
structure AssignTarget where
  stars : List Nat
  operand : PostfixExpr
deriving Repr, DecidableEq

namespace AssignTarget

def tokens (t : AssignTarget) : List Nat :=
  t.stars ++ t.operand.tokens

def first (t : AssignTarget) : Nat :=
  t.stars.headD t.operand.first

structure WellFormed (ts : TokenSeq) (t : AssignTarget) : Prop where
  stars : ∀ star ∈ t.stars, ts.kind? star = some .star
  operand : t.operand.WellFormed ts

/-- The star in front of the token `first` if it is the only one, and otherwise that token. -/
def loneStar (first : Nat) : List Nat → Nat
  | [star] => star
  | _ => first

/-- Where the reading of the target comes to rest: at a star that stands alone in front of an
expression without a call, and otherwise where the reading of the expression does. -/
def readFrom (t : AssignTarget) : Nat :=
  if t.operand.hasCall then t.operand.readFrom else loneStar t.operand.readFrom t.stars

theorem tokens_first (t : AssignTarget) : ∃ rest, t.tokens = t.first :: rest := by
  obtain ⟨stars, operand⟩ := t
  cases stars with
  | nil => exact operand.tokens_first
  | cons star others => exact ⟨others ++ operand.tokens, rfl⟩

/-- In an expression with a call the reading comes to rest behind the front of the target. -/
theorem first_of_call {ts : TokenSeq} {t : AssignTarget} (formed : t.WellFormed ts) (calls : t.operand.hasCall = true) :
    ∃ more back, t.tokens = t.first :: (more ++ t.operand.readFrom :: back) := by
  obtain ⟨callee, back, _, split, front⟩ := t.operand.read_from_call formed.operand calls
  obtain ⟨more, tokens⟩ := tokens_first ⟨t.stars, callee⟩
  have same : t.first = first ⟨t.stars, callee⟩ := by
    rw [first, first, front]
  refine ⟨more, back, ?_⟩
  rw [same, ← List.cons_append, ← tokens, AssignTarget.tokens, AssignTarget.tokens, split, List.append_assoc]

/-- The reading comes to rest at the first token exactly if there is one star at most and no call. -/
theorem read_from_eq_first_iff {ts : TokenSeq} {t : AssignTarget} (formed : t.WellFormed ts)
    (distinct : t.tokens.Nodup) : t.readFrom = t.first ↔ t.stars.length ≤ 1 ∧ t.operand.hasCall = false := by
  cases calls : t.operand.hasCall with
  | true =>
    refine iff_of_false ?_ fun whole => Bool.false_ne_true whole.2.symm
    obtain ⟨more, back, tokens⟩ := first_of_call formed calls
    rw [tokens] at distinct
    rw [readFrom, calls, if_pos rfl]
    intro same
    exact (List.nodup_cons.1 distinct).1 (by simp [same])
  | false =>
    obtain ⟨stars, operand⟩ := t
    rw [readFrom, calls, if_neg Bool.false_ne_true, PostfixExpr.read_from_first calls]
    match stars, distinct with
    | [], _ => exact iff_of_true rfl ⟨Nat.zero_le 1, rfl⟩
    | [star], _ => exact iff_of_true rfl ⟨Nat.le_refl 1, rfl⟩
    | star :: next :: more, distinct =>
      refine iff_of_false ?_ fun whole => absurd whole.1 (by simp)
      obtain ⟨rest, tokens⟩ := operand.tokens_first
      intro same
      have same : operand.first = star := same
      exact (List.nodup_cons.1 distinct).1 (by simp [tokens, same])

end AssignTarget

namespace TokenSeq

/-! ## Reading backwards -/

section Backwards

variable {ts : TokenSeq} {b : Bracket} {star floor j depth limit i opening prev : Nat} {e : PostfixExpr}
  {rest front back : List Nat}

theorem significant_before {floor limit i : Nat} {front back : List Nat}
    (split : ts.significant floor limit = front ++ i :: back) : ts.significant floor i = front := by
  have listed : i ∈ ts.significant floor limit := by simp [split]
  obtain ⟨place, carries⟩ := List.mem_filter.1 listed
  have bounds := Position.mem_range.1 place
  have stands : ts.Stands floor limit i := ⟨bounds.1, by omega, carries⟩
  have parts := significant_split stands
  have unique := ts.significant_nodup floor limit
  rw [split] at parts unique
  have apart : ∀ q ∈ front, (q != i) = true := fun q member =>
    bne_iff_ne.2 ((List.nodup_append.1 unique).2.2 q member i List.mem_cons_self)
  have below : ∀ q ∈ ts.significant floor i, (q != i) = true := by
    intro q member
    have bounds := Position.mem_range.1 (List.mem_filter.1 member).1
    exact bne_iff_ne.2 (by omega)
  have fronts := congrArg (List.takeWhile (· != i)) parts
  rw [List.takeWhile_append_of_pos apart, List.takeWhile_append_of_pos below] at fronts
  simpa using fronts.symm

theorem prev_significant_split (split : ts.significant floor limit = front ++ i :: back) :
    ts.prevSignificant i floor = front.getLast? := by
  have before := significant_before split
  cases precedes : ts.prevSignificant i floor with
  | none =>
    have empty : front = [] := by
      rw [← before]
      refine List.eq_nil_iff_forall_not_mem.2 fun q member => ?_
      obtain ⟨place, carries⟩ := List.mem_filter.1 member
      have bounds := Position.mem_range.1 place
      rw [prev_significant_none precedes bounds.1 (by omega)] at carries
      cases carries
    rw [empty]
    rfl
  | some prev =>
    obtain ⟨lower, upper, carries, blank⟩ := prev_significant_iff.1 precedes
    have nothing : ts.significant (prev + 1) i = [] := by
      refine List.eq_nil_iff_forall_not_mem.2 fun q member => ?_
      obtain ⟨place, meaning⟩ := List.mem_filter.1 member
      have bounds := Position.mem_range.1 place
      rw [blank q bounds.1 (by omega)] at meaning
      cases meaning
    rw [← before, significant_split ⟨lower, upper, carries⟩, nothing, List.getLast?_concat]

/-- The opening bracket of the pair `b` that starts a group, among these positions read backwards,
`depth` groups being open. -/
def openIn (ts : TokenSeq) (b : Bracket) (depth : Nat) : List Nat → Option Nat
  | [] => none
  | i :: rest =>
    if ts.hasKind i b.closer then ts.openIn b (depth + 1) rest
    else if ts.hasKind i b.opener then
      if depth ≤ 1 then some i else ts.openIn b (depth - 1) rest
    else ts.openIn b depth rest

theorem open_from_eq (ts : TokenSeq) (b : Bracket) (depth floor count : Nat) :
    ts.openFrom b depth floor count =
      ts.openIn b depth ((List.range' floor count).filter ts.isSignificant).reverse := by
  induction count generalizing depth with
  | zero => rfl
  | succ count ih =>
    rw [List.range'_1_concat, List.filter_append, List.reverse_append, openFrom]
    by_cases carries : ts.isSignificant (floor + count) = true
    · rw [List.filter_cons_of_pos carries, List.filter_nil, List.reverse_singleton, List.singleton_append, openIn]
      simp only [ih]
    · have opener : ts.hasKind (floor + count) b.opener ≠ true := fun seen =>
        carries (significant_of_kind (has_kind_iff.1 seen) b.opener_significant)
      have closer : ts.hasKind (floor + count) b.closer ≠ true := fun seen =>
        carries (significant_of_kind (has_kind_iff.1 seen) b.closer_significant)
      rw [List.filter_cons_of_neg carries, if_neg closer, if_neg opener, ih]
      rfl

theorem open_in_other {kind : TokenKind} (seen : ts.kind? i = some kind) (opener : (kind == b.opener) = false)
    (closer : (kind == b.closer) = false) : ts.openIn b depth (i :: rest) = ts.openIn b depth rest := by
  rw [openIn, has_kind_of_kind seen, has_kind_of_kind seen, opener, closer]
  rfl

theorem open_in_opener (opens : ts.kind? i = some b.opener) :
    ts.openIn b depth (i :: rest) = if depth ≤ 1 then some i else ts.openIn b (depth - 1) rest := by
  rw [openIn, has_kind_of_kind opens, has_kind_of_kind opens, b.opener_beq_closer, beq_self_eq_true]
  rfl

/-- Balanced tokens leave the depth as it is, read backwards too. -/
theorem open_in_balanced {tokens more : List Nat} (balanced : ts.Balanced tokens) (inside : 0 < depth) :
    ts.openIn b depth (tokens.reverse ++ more) = ts.openIn b depth more := by
  induction balanced generalizing depth more with
  | nil => rfl
  | @token i rest kind seen opener closer _ ih =>
    rw [List.reverse_cons, List.append_assoc, ih inside, List.singleton_append,
      open_in_other seen (b.beq_opener_of_other opener) (b.beq_closer_of_other closer)]
  | @group b' opening close inner rest opens closes _ _ within behind =>
    have whole : (opening :: (inner ++ close :: rest)).reverse ++ more =
        rest.reverse ++ (close :: (inner.reverse ++ (opening :: more))) := by
      simp
    rw [whole, behind inside]
    by_cases same : b' = b
    · subst same
      rw [openIn, has_kind_of_kind closes, beq_self_eq_true, if_pos rfl, within (by omega),
        open_in_opener opens, if_neg (by omega), Nat.add_sub_cancel]
    · have differs : (b' == b) = false := beq_eq_false_iff_ne.2 same
      rw [open_in_other closes (b.closer_beq_opener b') (by rw [b.closer_beq, differs]), within inside,
        open_in_other opens (by rw [b.opener_beq, differs]) (b.opener_beq_closer b')]

/-- A group that holds balanced tokens starts at the bracket in front of them. -/
theorem matching_open_group {close : Nat} {content : List Nat}
    (split : ts.significant floor limit = front ++ opening :: (content ++ close :: back))
    (opens : ts.kind? opening = some b.opener) (closes : ts.kind? close = some b.closer)
    (balanced : ts.Balanced content) : ts.matchingOpen close floor = some opening := by
  have pair : Bracket.ofCloser? b.closer = some b := by
    cases b <;> rfl
  have whole : ts.significant floor limit = (front ++ opening :: content) ++ close :: back := by
    rw [split, List.append_assoc, List.cons_append]
  rw [matchingOpen, closes, Option.bind_some, pair]
  show ts.openFrom b 1 floor (close - floor) = some opening
  rw [open_from_eq, ← significant_eq, significant_before whole, List.reverse_append, List.reverse_cons,
    List.append_assoc, open_in_balanced balanced Nat.one_pos, List.singleton_append, open_in_opener opens,
    if_pos (Nat.le_refl 1)]

/-! ## Postfix expressions -/

theorem postfix_start_name (seen : ts.kind? j = some .identifier)
    (front : ∀ p, ts.prevSignificant j floor = some p → ts.kindIs p TokenKind.isMemberAccess = false) :
    ts.postfixStart floor j = some j := by
  rw [postfixStart, seen]
  dsimp only
  split
  · rfl
  · rename_i p precedes
    rw [front p precedes, if_neg Bool.false_ne_true]

theorem postfix_start_member {access : Nat} (seen : ts.kind? j = some .identifier)
    (precedes : ts.prevSignificant j floor = some access) (joins : ts.kindIs access TokenKind.isMemberAccess = true)
    (before : ts.prevSignificant access floor = some prev) :
    ts.postfixStart floor j = ts.postfixStart floor prev := by
  rw [postfixStart, seen]
  dsimp only
  split
  · rename_i missing
    rw [precedes] at missing
    cases missing
  · rename_i p found
    cases found.symm.trans precedes
    rw [if_pos joins]
    split
    · rename_i missing
      rw [before] at missing
      cases missing
    · rename_i q found
      cases found.symm.trans before
      rfl

theorem postfix_start_subscript (seen : ts.kind? j = some .closeBracket)
    (opens : ts.matchingOpen j floor = some opening) (before : ts.prevSignificant opening floor = some prev) :
    ts.postfixStart floor j = ts.postfixStart floor prev := by
  rw [postfixStart, seen]
  dsimp only
  split
  · rename_i missing
    rw [opens] at missing
    cases missing
  · rename_i o found
    cases found.symm.trans opens
    split
    · rename_i missing
      rw [before] at missing
      cases missing
    · rename_i q found
      cases found.symm.trans before
      rfl

theorem postfix_start_paren (seen : ts.kind? j = some .closeParen) :
    ts.postfixStart floor j = ts.matchingOpen j floor := by
  rw [postfixStart, seen]

/-- The token behind an expression has the last one of it in front. -/
theorem prev_of_expr (split : ts.significant floor limit = front ++ e.tokens ++ i :: back) :
    ts.prevSignificant i floor = some e.last := by
  obtain ⟨before, tokens⟩ := e.tokens_last
  rw [prev_significant_split split, tokens, ← List.append_assoc, List.getLast?_concat]

/-- A postfix expression is read from its end to the last call in it, or to its front. -/
theorem postfix_start_expr (formed : e.WellFormed ts) (split : ts.significant floor limit = front ++ e.tokens ++ back)
    (starts : ∀ p ∈ front.getLast?, ts.kindIs p TokenKind.isMemberAccess = false) :
    ts.postfixStart floor e.last = some e.readFrom := by
  induction e generalizing back with
  | name token =>
    rw [List.append_assoc] at split
    exact postfix_start_name formed fun p precedes =>
      starts p ((prev_significant_split split).symm.trans precedes)
  | group opening content close =>
    obtain ⟨opens, closes, balanced⟩ := formed
    simp only [PostfixExpr.tokens, List.append_assoc, List.cons_append, List.nil_append] at split
    exact (postfix_start_paren closes).trans (matching_open_group (b := .paren) split opens closes balanced)
  | member object access field ih =>
    obtain ⟨inner, joins, seen⟩ := formed
    have behind : ts.significant floor limit = front ++ object.tokens ++ access :: field :: back := by
      simp only [split, PostfixExpr.tokens, List.append_assoc, List.cons_append, List.nil_append]
    have behindAccess : ts.significant floor limit =
        (front ++ object.tokens ++ [access]) ++ field :: back := by
      simp only [behind, List.append_assoc, List.cons_append, List.nil_append]
    have isAccess : ts.kindIs access TokenKind.isMemberAccess = true := by
      rcases joins with dot | arrow
      · exact kind_is_of_kind dot _
      · exact kind_is_of_kind arrow _
    have precedes : ts.prevSignificant field floor = some access := by
      rw [prev_significant_split behindAccess, List.getLast?_concat]
    exact (postfix_start_member seen precedes isAccess (prev_of_expr behind)).trans (ih inner behind)
  | subscript object opening content close ih =>
    obtain ⟨inner, opens, closes, balanced⟩ := formed
    have behind : ts.significant floor limit =
        front ++ object.tokens ++ opening :: (content ++ close :: back) := by
      simp only [split, PostfixExpr.tokens, List.append_assoc, List.cons_append, List.nil_append]
    have bracket := matching_open_group (b := .square) behind opens closes balanced
    exact (postfix_start_subscript closes bracket (prev_of_expr behind)).trans (ih inner behind)
  | call callee opening content close =>
    obtain ⟨_, opens, closes, balanced⟩ := formed
    have behind : ts.significant floor limit =
        front ++ callee.tokens ++ opening :: (content ++ close :: back) := by
      simp only [split, PostfixExpr.tokens, List.append_assoc, List.cons_append, List.nil_append]
    exact (postfix_start_paren closes).trans (matching_open_group (b := .paren) behind opens closes balanced)

/-! ## Targets -/

theorem lvalue_before_eq {assign last first : Nat} (precedes : ts.prevSignificant assign floor = some last)
    (start : ts.postfixStart floor last = some first) :
    ts.lvalueBefore assign floor =
      some (((ts.prevSignificant first floor).filter fun star =>
        ts.hasKind star .star && ts.isUnaryStar star floor).getD first, last + 1) := by
  rw [lvalueBefore, precedes]
  show (ts.postfixStart floor last).bind _ = _
  rw [start, Option.bind_some]
  cases ts.prevSignificant first floor with
  | none => rfl
  | some star =>
    dsimp only
    rw [Option.filter_some]
    split
    · rfl
    · rfl

/-- An expression with a call has something in front of where its reading comes to rest that is no
star. -/
theorem prev_of_call (formed : e.WellFormed ts) (calls : e.hasCall = true)
    (split : ts.significant floor limit = front ++ e.tokens ++ back) :
    ∃ p, ts.prevSignificant e.readFrom floor = some p ∧ ts.hasKind p .star = false := by
  obtain ⟨callee, rest, inner, tokens, _⟩ := e.read_from_call formed calls
  have behind : ts.significant floor limit =
      front ++ callee.tokens ++ e.readFrom :: (rest ++ back) := by
    simp only [split, tokens, List.append_assoc, List.cons_append]
  refine ⟨callee.last, prev_of_expr behind, ?_⟩
  rcases callee.last_kind inner with seen | seen | seen <;> rw [has_kind_of_kind seen] <;> rfl

/-- A star is applied to an expression where a statement starts with it. -/
theorem unary_star_edge
    (starts : ∀ e, ts.prevSignificant star floor = some e → ts.kindIs e TokenKind.isStatementEdge = true) :
    ts.isUnaryStar star floor = true := by
  rw [isUnaryStar]
  cases precedes : ts.prevSignificant star floor with
  | none => rfl
  | some e =>
    obtain ⟨kind, seen, edge⟩ := kind_is_iff.1 (starts e precedes)
    dsimp only
    rw [seen]
    cases kind with
    | semicolon => rfl
    | openBrace => rfl
    | closeBrace => rfl
    | _ => cases edge

/-- A star behind a star passes for one of a declarator. -/
theorem unary_star_star {before : Nat} (precedes : ts.prevSignificant star floor = some before)
    (seen : ts.kind? before = some .star) : ts.isUnaryStar star floor = false := by
  rw [isUnaryStar, precedes]
  dsimp only
  rw [seen]
  rfl

theorem edge_no_operator (edge : ts.kindIs i TokenKind.isStatementEdge = true) :
    ts.kindIs i TokenKind.isMemberAccess = false ∧ ts.hasKind i .star = false := by
  obtain ⟨kind, seen, edge⟩ := kind_is_iff.1 edge
  rw [kind_is_of_kind seen, has_kind_of_kind seen]
  cases kind with
  | semicolon => exact ⟨rfl, rfl⟩
  | openBrace => exact ⟨rfl, rfl⟩
  | closeBrace => exact ⟨rfl, rfl⟩
  | _ => cases edge

section Target

variable {floor assign : Nat} {front : List Nat} {target : AssignTarget}

/-- In front of the operand stands a star, or what ends the statement before. -/
theorem operand_front (formed : target.WellFormed ts)
    (statement : ∀ e ∈ front.getLast?, ts.kindIs e TokenKind.isStatementEdge = true) :
    ∀ p ∈ (front ++ target.stars).getLast?, ts.kindIs p TokenKind.isMemberAccess = false := by
  intro p last
  rcases List.eq_nil_or_concat target.stars with none | ⟨before, star, stars⟩
  · rw [none, List.append_nil] at last
    exact (edge_no_operator (statement p last)).1
  · have listed : star ∈ target.stars := by simp [stars]
    rw [stars, List.concat_eq_append, ← List.append_assoc, List.getLast?_concat] at last
    cases last
    exact kind_is_of_kind (formed.stars p listed) _

/-- A star in front of an expression is taken to it if it is the only one. -/
theorem taken_star {stars : List Nat} {first : Nat} {back : List Nat}
    (kinds : ∀ star ∈ stars, ts.kind? star = some .star)
    (split : ts.significant floor (assign + 1) = front ++ stars ++ first :: back)
    (statement : ∀ e ∈ front.getLast?, ts.kindIs e TokenKind.isStatementEdge = true) :
    ((ts.prevSignificant first floor).filter fun star =>
      ts.hasKind star .star && ts.isUnaryStar star floor).getD first =
      AssignTarget.loneStar first stars := by
  rw [prev_significant_split split]
  match stars, kinds, split with
  | [], _, _ =>
    rw [List.append_nil]
    cases last : front.getLast? with
    | none => rfl
    | some e =>
      rw [Option.filter_some, (edge_no_operator (statement e last)).2]
      rfl
  | [star], kinds, split =>
    have place : ts.significant floor (assign + 1) = front ++ star :: (first :: back) := by
      rw [split, List.append_assoc, List.singleton_append]
    have unary : ts.isUnaryStar star floor = true :=
      unary_star_edge fun e precedes => statement e ((prev_significant_split place).symm.trans precedes)
    rw [List.getLast?_concat, Option.filter_some, has_kind_of_kind (kinds star List.mem_cons_self), unary]
    rfl
  | outer :: next :: more, kinds, split =>
    -- the star next to the expression has another one in front
    obtain ⟨outers, star, stars⟩ := (List.eq_nil_or_concat (next :: more)).resolve_left (List.cons_ne_nil _ _)
    have rest : AssignTarget.loneStar first (outer :: next :: more) = first := rfl
    rw [rest]
    rw [stars, List.concat_eq_append] at kinds split ⊢
    obtain ⟨others, before, ends⟩ := (List.eq_nil_or_concat (outer :: outers)).resolve_left (List.cons_ne_nil _ _)
    have listed : before ∈ outer :: outers := by simp [ends]
    have place : ts.significant floor (assign + 1) = (front ++ (outer :: outers)) ++ star :: (first :: back) := by
      simp only [split, List.append_assoc, List.cons_append, List.nil_append]
    have precedes : ts.prevSignificant star floor = some before := by
      rw [prev_significant_split place, ends, List.concat_eq_append, ← List.append_assoc, List.getLast?_concat]
    have binary : ts.isUnaryStar star floor = false :=
      unary_star_star precedes (kinds before (List.mem_append_left _ listed))
    rw [← List.cons_append, ← List.append_assoc, List.getLast?_concat, Option.filter_some, binary, Bool.and_false]
    rfl

/-- What the reading of a target finds. -/
theorem lvalue_before_target (tokens : ts.significant floor (assign + 1) = front ++ target.tokens ++ [assign])
    (formed : target.WellFormed ts) (statement : ∀ e ∈ front.getLast?, ts.kindIs e TokenKind.isStatementEdge = true) :
    ts.lvalueBefore assign floor = some (target.readFrom, target.operand.last + 1) := by
  have split : ts.significant floor (assign + 1) =
      (front ++ target.stars) ++ target.operand.tokens ++ [assign] := by
    rw [tokens, AssignTarget.tokens, List.append_assoc, List.append_assoc, List.append_assoc, List.append_assoc]
  have start := postfix_start_expr formed.operand split (operand_front formed statement)
  rw [lvalue_before_eq (prev_of_expr split) start, AssignTarget.readFrom]
  congr 2
  cases calls : target.operand.hasCall with
  | true =>
    obtain ⟨p, precedes, other⟩ := prev_of_call formed.operand calls split
    rw [precedes, Option.filter_some, other]
    rfl
  | false =>
    obtain ⟨rest, operand⟩ := target.operand.tokens_first
    have place : ts.significant floor (assign + 1) =
        front ++ target.stars ++ target.operand.first :: (rest ++ [assign]) := by
      rw [split, operand, List.append_assoc, List.cons_append]
    rw [if_neg Bool.false_ne_true, PostfixExpr.read_from_first calls]
    exact taken_star formed.stars place statement

end Target

/-- The assigned lvalue of a statement is read from its last token to `readFrom`. That is all of the
lvalue exactly if it has one star at most and calls no function on its way. -/
theorem lvalue_whole_iff (ts : TokenSeq) (floor assign : Nat) (front : List Nat) (target : AssignTarget)
    (tokens : ts.significant floor (assign + 1) = front ++ target.tokens ++ [assign])
    (formed : target.WellFormed ts)
    (statement : ∀ e ∈ front.getLast?, ts.kindIs e TokenKind.isStatementEdge = true) :
    ts.lvalueBefore assign floor = some (target.readFrom, target.operand.last + 1) ∧
      (ts.lvalueBefore assign floor = some (target.first, target.operand.last + 1) ↔
        target.stars.length ≤ 1 ∧ target.operand.hasCall = false) := by
  have found := lvalue_before_target tokens formed statement
  have unique := ts.significant_nodup floor (assign + 1)
  rw [tokens] at unique
  have distinct : target.tokens.Nodup := (List.nodup_append.1 (List.nodup_append.1 unique).1).2.1
  refine ⟨found, ?_⟩
  rw [found, ← AssignTarget.read_from_eq_first_iff formed distinct, Option.some.injEq, Prod.mk.injEq]
  exact and_iff_left rfl

theorem lvalue_whole_iff_group :
    let ts := TokenSeq.ofSource "\x7b*(v)[i]->p=malloc(1);\x7d"
    let target : AssignTarget := ⟨[1], .member (.subscript (.group 2 [3] 4) 5 [6] 7) 8 9⟩
    (ts.significant 0 11 = [0] ++ target.tokens ++ [10] ∧ target.WellFormed ts ∧
      ∀ e ∈ [0].getLast?, ts.kindIs e TokenKind.isStatementEdge = true) ∧
      ts.lvalueBefore 10 0 = some (1, 10) := by
  intro ts target
  have tokens : ts.significant 0 11 = [0] ++ target.tokens ++ [10] := by decide +kernel
  have named : ∀ i ∈ [3, 6], ts.kind? i = some .identifier := by decide +kernel
  have alone : ∀ i ∈ [3, 6], ts.Balanced [i] := fun i listed =>
    .token (named i listed) rfl rfl .nil
  have kinds : [1, 2, 4, 5, 7, 8, 9].map ts.kind? = [.star, .openParen, .closeParen, .openBracket,
      .closeBracket, .arrow, .identifier].map some := by
    decide +kernel
  simp only [List.map_cons, List.cons.injEq] at kinds
  obtain ⟨star, opens, closes, subscript, behind, arrow, field, _⟩ := kinds
  have formed : target.WellFormed ts :=
    { stars := List.forall_mem_singleton.2 star
      operand := ⟨⟨⟨opens, closes, alone 3 (by simp)⟩, subscript, behind, alone 6 (by simp)⟩, .inr arrow, field⟩ }
  have statement : ∀ e ∈ [0].getLast?, ts.kindIs e TokenKind.isStatementEdge = true := by
    decide +kernel
  exact ⟨⟨tokens, formed, statement⟩,
    (ts.lvalue_whole_iff 0 10 [0] target tokens formed statement).2.2 ⟨Nat.le_refl 1, rfl⟩⟩

/-- Of two stars neither is read, and in front of a call the callee is not. -/
theorem lvalue_cut_short :
    let ts := TokenSeq.ofSource "\x7b**pp=malloc(1);f(x)->p=malloc(1);\x7d"
    ts.significant 0 5 = [0] ++ [1, 2, 3] ++ [4] ∧ ts.lvalueBefore 4 0 = some (3, 4) ∧
      ts.textRange 1 4 = "**pp" ∧ ts.lvalueBefore 16 0 = some (11, 16) ∧ ts.textRange 10 16 = "f(x)->p" := by
  decide +kernel

end Backwards
end TokenSeq

end AllocGuard
