import AllocGuard.Proofs.EditSelection
import AllocGuard.Proofs.GuardRecognition
import AllocGuard.Proofs.InsertedText
import AllocGuard.Proofs.SiteWindows

/-! The guard that is put behind an allocation is the check that the analysis looks for. -/
namespace AllocGuard

namespace Lexeme

theorem punctuator_access {c : Char} {cs : List Char} (joins : (punctuator c cs).1.isMemberAccess = true) :
    punctuator c cs = (.dot, 0) ∧ c :: cs.take (punctuator c cs).2 = ['.'] ∨
      punctuator c cs = (.arrow, 1) ∧ c :: cs.take (punctuator c cs).2 = ['-', '>'] := by
  have mark : c = '.' ∨ c = '-' := by
    unfold punctuator at joins
    split at joins
    all_goals first
      | exact .inl rfl
      | exact .inr rfl
      | cases joins
      | (split at joins <;> cases joins)
      | (unfold assigned at joins; split at joins <;> cases joins)
  rcases mark with rfl | rfl
  · left
    have here : punctuator '.' cs =
        if follows cs '.' && follows cs.tail '.' then (.ellipsis, 2) else (.dot, 0) := rfl
    rw [here] at joins ⊢
    split at joins
    · cases joins
    · rename_i alone
      rw [if_neg alone]
      exact ⟨rfl, rfl⟩
  · right
    have here : punctuator '-' cs = if follows cs '>' then (.arrow, 1) else doubledOrAssigned '-' cs := rfl
    rw [here] at joins ⊢
    split at joins
    · rename_i behind
      obtain ⟨more, rfl⟩ := follows_iff.1 behind
      exact ⟨rfl, rfl⟩
    · cases joins

/-- A member access is written as a dot or as an arrow. -/
theorem read_access {lineStart : Bool} {first : Char} {rest : List Char}
    (joins : (read lineStart first rest).1.isMemberAccess = true) :
    (read lineStart first rest).1 = .dot ∧ first :: rest.take (read lineStart first rest).2 = ['.'] ∨
      (read lineStart first rest).1 = .arrow ∧
        first :: rest.take (read lineStart first rest).2 = ['-', '>'] := by
  cases read_cases lineStart first rest with
  | space _ read =>
    rw [read] at joins
    cases joins
  | comment _ _ _ read =>
    rw [read] at joins
    cases joins
  | other kind member read =>
    rw [read] at joins
    simp only [List.mem_cons, List.not_mem_nil, or_false] at member
    rcases member with rfl | rfl | rfl | rfl <;> cases joins
  | word _ read =>
    exfalso
    rw [read] at joins
    rcases word_word first rest with word | string | character
    · cases kind : (Lexeme.word first rest).1 with
      | dot => rw [kind] at word; cases word
      | arrow => rw [kind] at word; cases word
      | _ => rw [kind] at joins; cases joins
    · rw [string] at joins
      cases joins
    · rw [character] at joins
      cases joins
  | punctuator read =>
    rw [read] at joins ⊢
    rcases punctuator_access joins with ⟨kind, text⟩ | ⟨kind, text⟩
    · exact .inl ⟨congrArg Prod.fst kind, text⟩
    · exact .inr ⟨congrArg Prod.fst kind, text⟩

end Lexeme

namespace TokenSeq

variable {ts ts' : TokenSeq} {source : String} {faces chain added : List TokenFace} {positions : List Nat}
  {call position limit i floor a semi stop : Nat} {registry : Registry} {status block : Bool} {failure : FailureSign}

/-! ## Tokens of new text -/

def ifOpening : List TokenFace :=
  [blank, (.identifier, ['i', 'f']), blank, (.openParen, ['('])]

theorem reads_if_opening (next : List Char) : ReadsOff next ifOpening := by
  have isIf : Lexeme.IsIdentifier 'i' ['f'] := ⟨rfl, List.all_eq_true.1 rfl, by decide⟩
  refine reads_blank (by rintro _ ⟨⟩; rfl) (reads_name isIf (d := ' ') rfl rfl rfl
    (reads_blank (by rintro _ ⟨⟩; rfl) ⟨⟨'(', [], rfl, fun _ => rfl⟩, trivial⟩))

/-- The comparison that shows a failure, up to the end of the condition. -/
def comparison : FailureSign → List TokenFace
  | .null => [blank, (.equal, ['=', '=']), blank, (.identifier, "NULL".toList)]
  | .negative => [blank, (.operator, ['<']), blank, (.number, ['0'])]
  | .mapFailed => [blank, (.equal, ['=', '=']), blank, (.identifier, "MAP_FAILED".toList)]
  | .nonzero => [blank, (.notEqual, ['!', '=']), blank, (.number, ['0'])]

theorem reads_comparison (failure : FailureSign) (next : List Char) :
    ReadsOff (')' :: next) (comparison failure) := by
  have null : Lexeme.IsIdentifier 'N' ['U', 'L', 'L'] := ⟨rfl, List.all_eq_true.1 rfl, by decide⟩
  have mapFailed : Lexeme.IsIdentifier 'M' ['A', 'P', '_', 'F', 'A', 'I', 'L', 'E', 'D'] :=
    ⟨rfl, List.all_eq_true.1 rfl, by decide⟩
  cases failure with
  | null =>
    refine reads_blank (by rintro _ ⟨⟩; rfl) ⟨⟨'=', ['='], rfl, fun _ => rfl⟩,
      reads_blank (by rintro _ ⟨⟩; rfl) (reads_name null (d := ')') rfl rfl rfl trivial)⟩
  | negative =>
    exact reads_blank (by rintro _ ⟨⟩; rfl) ⟨⟨'<', [], rfl, fun _ => rfl⟩,
      reads_blank (by rintro _ ⟨⟩; rfl) ⟨⟨'0', [], rfl, fun _ => rfl⟩, trivial⟩⟩
  | mapFailed =>
    refine reads_blank (by rintro _ ⟨⟩; rfl) ⟨⟨'=', ['='], rfl, fun _ => rfl⟩,
      reads_blank (by rintro _ ⟨⟩; rfl) (reads_name mapFailed (d := ')') rfl rfl rfl trivial)⟩
  | nonzero =>
    exact reads_blank (by rintro _ ⟨⟩; rfl) ⟨⟨'!', ['='], rfl, fun _ => rfl⟩,
      reads_blank (by rintro _ ⟨⟩; rfl) ⟨⟨'0', [], rfl, fun _ => rfl⟩, trivial⟩⟩

/-! ## Chains of members -/

/-- The tokens are names with a dot or an arrow between any two of them. -/
inductive Chain (ts : TokenSeq) : List Nat → Prop
  | name {i : Nat} (seen : ts.kind? i = some .identifier) : Chain ts [i]
  | member {i access : Nat} {rest : List Nat} (seen : ts.kind? i = some .identifier)
      (joins : ts.kindIs access TokenKind.isMemberAccess = true) (later : Chain ts rest) :
      Chain ts (i :: access :: rest)

/-- The token at a position, written as it is spelled. -/
def spelledFace (ts : TokenSeq) (i : Nat) : TokenFace :=
  ((ts.kind? i).getD .unknown, (ts.spelling i).toList)

theorem access_face (joins : (ofSource source).kindIs i TokenKind.isMemberAccess = true) :
    (ofSource source).spelledFace i = (.dot, ['.']) ∨
      (ofSource source).spelledFace i = (.arrow, ['-', '>']) := by
  obtain ⟨kind, seen, access⟩ := kind_is_iff.1 joins
  obtain ⟨t, there, same⟩ := Option.map_eq_some_iff.1 seen
  obtain ⟨_, lineStart, first, rest, read, spelled⟩ := token_read there (by
    rw [same]
    rintro rfl
    cases access)
  rw [spelledFace, seen, spelling_of_get there, String.toList_ofList, spelled, Option.getD_some, ← same, ← read]
  rw [← same, ← read] at access
  rcases Lexeme.read_access access with ⟨kind, text⟩ | ⟨kind, text⟩
  · exact .inl (Prod.ext kind text)
  · exact .inr (Prod.ext kind text)

theorem name_face (seen : (ofSource source).kind? i = some .identifier) :
    ∃ first tail, (ofSource source).spelledFace i = (.identifier, first :: tail) ∧
      Lexeme.IsIdentifier first tail := by
  obtain ⟨first, tail, spelled, name⟩ := identifier_spelled (has_kind_iff.2 seen)
  refine ⟨first, tail, ?_, name⟩
  rw [spelledFace, seen, spelled, String.toList_ofList, Option.getD_some]

/-- Names with a dot or an arrow between any two of them. -/
inductive ChainFaces : List TokenFace → Prop
  | name {first : Char} {tail : List Char} (named : Lexeme.IsIdentifier first tail) :
      ChainFaces [(.identifier, first :: tail)]
  | member {first : Char} {tail : List Char} {access : TokenFace} {rest : List TokenFace}
      (named : Lexeme.IsIdentifier first tail)
      (joins : access = (.dot, ['.']) ∨ access = (.arrow, ['-', '>'])) (later : ChainFaces rest) :
      ChainFaces ((.identifier, first :: tail) :: access :: rest)

theorem chain_faces (chain : Chain (ofSource source) positions) :
    ChainFaces (positions.map (ofSource source).spelledFace) := by
  induction chain with
  | name seen =>
    obtain ⟨first, tail, face, named⟩ := name_face seen
    rw [List.map_singleton, face]
    exact .name named
  | member seen joins _ ih =>
    obtain ⟨first, tail, face, named⟩ := name_face seen
    rw [List.map_cons, List.map_cons, face]
    exact .member named (access_face joins) ih

/-- A chain is spelled without any space. -/
theorem chain_spelled (chain : Chain ts positions) :
    (ts.spellPositions false positions).toList = (positions.map ts.spelledFace).flatMap Prod.snd := by
  induction chain with
  | name seen =>
    rw [spellPositions, spellPositions, Bool.and_false, if_neg Bool.false_ne_true]
    simp [spelledFace]
  | @member i access rest seen joins _ ih =>
    have mark : ts.kindIs access readsAsWord = false := by
      obtain ⟨kind, seen, access⟩ := kind_is_iff.1 joins
      rw [kindIs, seen]
      cases kind with
      | dot => rfl
      | arrow => rfl
      | _ => cases access
    rw [spellPositions, spellPositions, mark, Bool.and_false, Bool.false_and, if_neg Bool.false_ne_true]
    simp only [String.toList_append, ih, spelledFace, List.map_cons, List.flatMap_cons]
    rfl

theorem identifier_inert {first : Char} {tail : List Char} (named : Lexeme.IsIdentifier first tail) :
    ∀ c ∈ first :: tail, Lexeme.isInert c = true := by
  have chars : ∀ c ∈ first :: tail, Lexeme.isIdentChar c = true := by
    refine List.forall_mem_cons.2 ⟨?_, named.chars⟩
    rw [Lexeme.isIdentChar, named.starts, Bool.true_or]
  intro c member
  have other {d : Char} (mark : Lexeme.isIdentChar d = false) : c ≠ d := by
    rintro rfl
    rw [chars _ member] at mark
    cases mark
  refine Lexeme.inert_iff.2 ⟨⟨other rfl, other rfl, other rfl, ?_⟩, other rfl, other rfl⟩
  rw [Lexeme.isQuote, beq_eq_false_iff_ne.2 (other rfl), beq_eq_false_iff_ne.2 (other rfl)]
  rfl

theorem ChainFaces.inert (chain : ChainFaces faces) : ∀ c ∈ faces.flatMap Prod.snd, Lexeme.isInert c = true := by
  induction chain with
  | name named =>
    rw [List.flatMap_singleton]
    exact identifier_inert named
  | member named joins _ ih =>
    rw [List.flatMap_cons, List.flatMap_cons, List.forall_mem_append, List.forall_mem_append]
    refine ⟨identifier_inert named, ?_, ih⟩
    rcases joins with rfl | rfl
    · exact List.all_eq_true.1 rfl
    · exact List.all_eq_true.1 rfl

theorem ChainFaces.starts (chain : ChainFaces faces) :
    ∃ c text, faces.flatMap Prod.snd = c :: text ∧ Lexeme.isIdentStart c = true := by
  cases chain with
  | name named => exact ⟨_, _, rfl, named.starts⟩
  | member named => exact ⟨_, _, rfl, named.starts⟩

/-- A dot in front of a name is a token of its own. -/
theorem read_dot {c : Char} (starts : Lexeme.isIdentStart c = true) (lineStart : Bool) (text : List Char) :
    Lexeme.read lineStart '.' (c :: text) = (.dot, 0) := by
  have digit : c.isDigit = false := by
    cases digit : c.isDigit with
    | false => rfl
    | true =>
      rw [Lexeme.digit_no_start digit] at starts
      cases starts
  have dot : (c == '.') = false := Lexeme.start_ne starts rfl
  have here : Lexeme.read lineStart '.' (c :: text) =
      if c.isDigit then (.number, Lexeme.numberLength false (c :: text))
      else if c == '.' && Lexeme.follows text '.' then (.ellipsis, 2) else (.dot, 0) := by
    cases lineStart <;> rfl
  rw [here, digit, dot]
  rfl

/-- The tokens of a chain are read off its text in front of a space. -/
theorem ChainFaces.reads (chain : ChainFaces faces) (next : List Char) : ReadsOff (' ' :: next) faces := by
  induction chain with
  | name named => exact reads_name named (d := ' ') rfl rfl rfl trivial
  | member named joins later ih =>
    rcases joins with rfl | rfl
    · refine reads_name named (d := '.') rfl rfl rfl ⟨⟨'.', [], rfl, fun lineStart => ?_⟩, ih⟩
      obtain ⟨c, text, head, starts⟩ := later.starts
      rw [List.nil_append, head]
      exact read_dot starts lineStart _
    · exact reads_name named (d := '-') rfl rfl rfl ⟨⟨'-', ['>'], rfl, fun lineStart => by
        cases lineStart <;> rfl⟩, ih⟩

/-! ## The text of a guard -/

/-- The end of a guard, from the end of its condition on. -/
def leaving (status block : Bool) : List TokenFace :=
  [(.closeParen, [')']), blank, (.identifier, "return".toList)] ++
    ((if status then [blank, (.operator, ['-']), (.number, ['1'])] else []) ++
      ((.semicolon, [';']) :: if block then [blank, (.closeBrace, ['\x7d'])] else []))

theorem reads_leaving (status block : Bool) (next : List Char) : ReadsOff next (leaving status block) := by
  have name : Lexeme.IsIdentifier 'r' ['e', 't', 'u', 'r', 'n'] := ⟨rfl, List.all_eq_true.1 rfl, by decide⟩
  have stop : ReadsOff next
      ((.semicolon, [';']) :: if block then [blank, (.closeBrace, ['\x7d'])] else []) := by
    refine ⟨⟨';', [], rfl, fun _ => rfl⟩, ?_⟩
    cases block with
    | false => trivial
    | true => exact reads_blank (by rintro _ ⟨⟩; rfl) ⟨⟨'\x7d', [], rfl, fun _ => rfl⟩, trivial⟩
  refine ⟨⟨')', [], rfl, fun _ => rfl⟩, reads_blank (by rintro _ ⟨⟩; rfl) ?_⟩
  cases status with
  | false => exact reads_name name (d := ';') rfl rfl rfl stop
  | true =>
    exact reads_name name (d := ' ') rfl rfl rfl (reads_blank (by rintro _ ⟨⟩; rfl)
      ⟨⟨'-', [], rfl, fun _ => rfl⟩, ⟨'1', [], rfl, fun _ => rfl⟩, stop⟩)

/-- The tokens of a guard. -/
def guardFaces (status block : Bool) (failure : FailureSign) (chain : List TokenFace) : List TokenFace :=
  ifOpening ++ (chain ++ (comparison failure ++ leaving status block))

theorem guard_reads (chained : ChainFaces chain) (status block : Bool) (failure : FailureSign) (next : List Char) :
    ReadsOff next (guardFaces status block failure chain) := by
  refine reads_off_append.2 ⟨reads_if_opening _, reads_off_append.2 ⟨?_, reads_off_append.2
    ⟨?_, reads_leaving status block next⟩⟩⟩
  · obtain ⟨text, starts⟩ : ∃ text, (comparison failure ++ leaving status block).flatMap Prod.snd =
        ' ' :: text := by
      cases failure <;> exact ⟨_, rfl⟩
    rw [starts]
    exact chained.reads _
  · exact reads_comparison failure _

theorem guard_insertable (chained : ChainFaces chain) (status block : Bool) (failure : FailureSign) :
    Lexeme.Insertable ((guardFaces status block failure chain).flatMap Prod.snd) := by
  have within : ∀ c ∈ (chain ++ comparison failure).flatMap Prod.snd, Lexeme.isInert c = true := by
    rw [List.flatMap_append, List.forall_mem_append]
    refine ⟨chained.inert, ?_⟩
    cases failure <;> exact List.all_eq_true.1 rfl
  have after : ∀ c ∈ ((leaving status block).drop 1).flatMap Prod.snd, Lexeme.isInert c = true := by
    cases status <;> cases block <;> exact List.all_eq_true.1 rfl
  have before : ∀ c ∈ [' ', 'i', 'f', ' '], Lexeme.isInert c = true := List.all_eq_true.1 rfl
  have split : (guardFaces status block failure chain).flatMap Prod.snd =
      [' ', 'i', 'f', ' '] ++ '(' :: ((chain ++ comparison failure).flatMap Prod.snd ++
        ')' :: ((leaving status block).drop 1).flatMap Prod.snd) := by
    rw [guardFaces, ← List.append_assoc chain, List.flatMap_append, List.flatMap_append]
    rfl
  rw [split]
  exact Lexeme.insertable_group before within after

theorem guard_line (status block : Bool) (failure : FailureSign) (chain : List TokenFace)
    (lineStart : Bool) : lineBehind lineStart (guardFaces status block failure chain) = false := by
  obtain ⟨front, face, split, carries⟩ : ∃ front face,
      leaving status block = front ++ [face] ∧ face.1.isTrivia = false := by
    cases status <;> cases block <;> exact ⟨_, _, (List.dropLast_append_getLast (by simp [leaving])).symm, rfl⟩
  have last : (guardFaces status block failure chain).getLast? = some face := by
    rw [guardFaces, split, ← List.append_assoc, ← List.append_assoc, ← List.append_assoc,
      List.getLast?_append, List.getLast?_singleton]
    rfl
  exact line_behind_last last carries

/-! ## Insertions as edits -/

theorem edit_insertion (text : String) (inside : position ≤ ts.size) :
    (ts.edit [.insertion position text]).text = ts.textWith position text.toList := by
  have clear : ∀ e ∈ [Edit.insertion position text], e.start ≤ e.stop ∧ e.stop ≤ ts.size :=
    List.forall_mem_singleton.2 ⟨Nat.le_refl position, inside⟩
  rw [edit_clear clear (List.pairwise_singleton _ _)]
  show ts.splice 0 (Edit.sorted [.insertion position text]) = _
  rw [Edit.sorted, List.mergeSort_singleton, textWith, String.ofList_toList]
  rfl

theorem edit_insertions {one two : Nat} (text text' : String) (ordered : one < two) (inside : two ≤ ts.size) :
    (ts.edit [.insertion one text, .insertion two text']).text =
      ts.textRange 0 one ++ text ++ (ts.textRange one two ++ text' ++ ts.textRange two ts.size) := by
  have clear : ∀ e ∈ [Edit.insertion one text, .insertion two text'], e.start ≤ e.stop ∧ e.stop ≤ ts.size := by
    refine List.forall_mem_cons.2 ⟨⟨Nat.le_refl one, ?_⟩, List.forall_mem_singleton.2 ⟨Nat.le_refl two, inside⟩⟩
    exact Nat.le_trans (Nat.le_of_lt ordered) inside
  have apart : [Edit.insertion one text, .insertion two text'].Pairwise Edit.Apart :=
    List.pairwise_pair.2 ⟨Nat.ne_of_lt ordered, fun _ => Nat.le_of_lt ordered, fun back =>
      absurd back (Nat.lt_asymm ordered)⟩
  have sorted : Edit.sorted [.insertion one text, .insertion two text'] =
      [.insertion one text, .insertion two text'] :=
    List.mergeSort_of_pairwise (List.pairwise_pair.2 (decide_eq_true (Nat.le_of_lt ordered)))
  rw [edit_clear clear apart, sorted]
  rfl

/-! ## Places of insertions -/

/-- The second sequence has the tokens of the first and more in front of one of them. -/
structure Inserts (ts ts' : TokenSeq) (position : Nat) (added : List TokenFace) : Prop where
  inside : position ≤ ts.faces.length
  faces : ts'.faces = ts.faces.take position ++ (added ++ ts.faces.drop position)

section Inserts

variable {ts ts' : TokenSeq} {position : Nat} {added : List TokenFace} (inserts : Inserts ts ts' position added)

include inserts

theorem Inserts.front {i : Nat} (before : i < position) : ts'.faces[i]? = ts.faces[i]? := by
  rw [inserts.faces, List.getElem?_append_left, List.getElem?_take_of_lt before]
  rw [List.length_take, Nat.min_eq_left inserts.inside]
  exact before

theorem Inserts.back {i : Nat} (behind : position ≤ i) : ts'.faces[i + added.length]? = ts.faces[i]? := by
  have length : (ts.faces.take position).length = position := by
    rw [List.length_take, Nat.min_eq_left inserts.inside]
  rw [inserts.faces, List.getElem?_append_right (by omega), List.getElem?_append_right (by omega), length,
    List.getElem?_drop]
  exact congrArg (ts.faces[·]?) (by omega)

theorem Inserts.there : added <+: ts'.faces.drop position := by
  rw [inserts.faces, List.drop_append_of_le_length, List.drop_eq_nil_of_le (Nat.le_of_eq _), List.nil_append]
  · exact List.prefix_append _ _
  · rw [List.length_take, Nat.min_eq_left inserts.inside]
  · rw [List.length_take, Nat.min_eq_left inserts.inside]

theorem Inserts.size : ts'.size = ts.size + added.length := by
  have length := congrArg List.length inserts.faces
  have size (ts : TokenSeq) : ts.faces.length = ts.size := List.length_map _
  have inside := inserts.inside
  rw [List.length_append, List.length_append, List.length_take, List.length_drop, size, size] at length
  rw [size] at inside
  omega

/-- The text with a second insertion behind the first. -/
theorem Inserts.text_with {later : Nat} (ordered : position ≤ later) (text : List Char) :
    ts'.textWith (later + added.length) text =
      ts.textRange 0 position ++ String.ofList (added.flatMap Prod.snd) ++
        (ts.textRange position later ++ String.ofList text ++ ts.textRange later ts.size) := by
  have size (ts : TokenSeq) : ts.faces.length = ts.size := List.length_map _
  have length : (ts.faces.take position).length = position := by
    rw [List.length_take, Nat.min_eq_left inserts.inside]
  have whole {ts : TokenSeq} {i : Nat} : (ts.faces.drop i).take (ts.size - i) = ts.faces.drop i :=
    List.take_of_length_le (by rw [List.length_drop, size])
  have front : ts'.faces.take (later + added.length) =
      ts.faces.take position ++ (added ++ (ts.faces.drop position).take (later - position)) := by
    rw [inserts.faces, List.take_append, length, List.take_append, List.take_of_length_le (by omega),
      List.take_of_length_le (show added.length ≤ _ by omega)]
    exact congrArg (fun count => _ ++ (added ++ (ts.faces.drop position).take count)) (by omega)
  have back : ts'.faces.drop (later + added.length) = ts.faces.drop later := by
    refine List.ext_getElem? fun i => ?_
    rw [List.getElem?_drop, List.getElem?_drop, ← inserts.back (show position ≤ later + i by omega)]
    exact congrArg (ts'.faces[·]?) (by omega)
  have rest : (ts'.textRange (later + added.length) ts'.size).toList = (ts.textRange later ts.size).toList := by
    rw [text_range_faces, text_range_faces, whole, whole, back]
  refine String.toList_inj.1 ?_
  simp only [textWith, String.toList_append, String.toList_ofList, rest]
  simp only [text_range_faces, List.drop_zero, Nat.sub_zero, front, List.flatMap_append, List.append_assoc]

end Inserts

theorem last_taken (inside : i < ts.size) : (ts.faces.take (i + 1)).getLast? = ts.faces[i]? := by
  have size : ts.faces.length = ts.size := List.length_map _
  rw [List.getLast?_eq_getElem?, List.length_take, size, Nat.min_eq_left inside, Nat.succ_sub_one,
    List.getElem?_take_of_lt (Nat.lt_succ_self i)]

theorem insert_guard (seen : (ofSource source).kind? semi = some .semicolon) (chained : ChainFaces chain)
    (status block : Bool) (failure : FailureSign) :
    Inserts (ofSource source)
      (ofSource ((ofSource source).textWith (semi + 1)
        ((guardFaces status block failure chain).flatMap Prod.snd)))
      (semi + 1) (guardFaces status block failure chain) := by
  have inside := lt_size_of_kind seen
  obtain ⟨face, last, kind⟩ : ∃ face, ((ofSource source).faces.take (semi + 1)).getLast? = some face ∧
      face.1 = .semicolon := by
    rw [kind_of_faces, ← last_taken inside] at seen
    exact Option.map_eq_some_iff.1 seen
  refine ⟨inside.trans_eq (List.length_map _).symm, faces_insert (d := ' ') ?_
    (guard_insertable chained status block failure) rfl (.inl rfl) ?_
    (fun next _ => guard_reads chained status block failure next) (guard_line status block failure chain) ?_⟩
  · rcases Nat.lt_or_eq_of_le inside with short | whole
    · exact .inl short
    · exact .inr ⟨whole, significant_of_kind seen rfl⟩
  · rintro face' last'
    cases last.symm.trans last'
    rw [kind]
    rfl
  · exact .inl ⟨face, last, by rw [kind]; rfl⟩

/-- The start of a block. -/
def blockStart : List TokenFace :=
  [(.openBrace, ['\x7b']), blank]

/-- An opening brace and a space are put in front of a token that carries meaning, if what stands in front
of it is complete. -/
theorem insert_block {start : Nat} (carries : (ofSource source).isSignificant start = true)
    (other : (ofSource source).kind? start ≠ some .directive)
    (ends : ∀ face ∈ ((ofSource source).faces.take start).getLast?,
      Lexeme.endsBefore face.1 (logicalChars face.2) '\x7b' = true) :
    Inserts (ofSource source) (ofSource ((ofSource source).textWith start (blockStart.flatMap Prod.snd))) start
      blockStart := by
  have inside := lt_size_of_significant carries
  have first : ∀ face ∈ ((ofSource source).faces.drop start).head?,
      face.1.isTrivia = false ∧ face.1 ≠ .directive := by
    intro face here
    rw [List.head?_drop] at here
    rw [isSignificant, kindIs, kind_of_faces, Option.mem_def.1 here] at carries
    rw [kind_of_faces, Option.mem_def.1 here] at other
    exact ⟨by simpa using carries, fun directive => other (congrArg some directive)⟩
  refine ⟨(Nat.le_of_lt inside).trans_eq (List.length_map _).symm, faces_insert (d := '\x7b') (.inl inside)
    (Lexeme.insertable_inert (List.all_eq_true.1 rfl)) rfl (.inr rfl) ends (fun next blank => ?_) (fun lineStart => ?_)
    (.inr first)⟩
  · refine ⟨⟨'\x7b', [], rfl, fun _ => rfl⟩, reads_blank (fun c here => ?_) trivial⟩
    rw [Bool.eq_false_iff]
    intro space
    obtain ⟨raw, head⟩ := blank c here space
    cases (first _ head).1
  · cases lineStart <;> rfl

/-- What stands in front of a controlled statement ends where a brace follows. -/
theorem block_ends (above : floor ≤ call) (carries : (ofSource source).isSignificant call = true)
    (controlled : ((ofSource source).callContext call floor).controlled = true) :
    ∀ face ∈ ((ofSource source).faces.take ((ofSource source).callContext call floor).statement).getLast?,
      Lexeme.endsBefore face.1 (logicalChars face.2) '\x7b' = true := by
  obtain ⟨p, held, precedes, edge⟩ := controlled_front above carries controlled
  obtain ⟨_, _, meaning, _⟩ := call_context_starts above carries
  generalize ((ofSource source).callContext call floor).statement = start at precedes meaning ⊢
  obtain ⟨_, below, isToken, gap⟩ := prev_significant_iff.1 precedes
  obtain ⟨before, rfl⟩ : ∃ before, start = before + 1 := ⟨start - 1, by omega⟩
  have inside : before < (ofSource source).size := by
    have size := lt_size_of_significant meaning
    omega
  intro face last
  have kind : (ofSource source).kind? before = some face.1 := by
    rw [kind_of_faces, ← last_taken inside, Option.mem_def.1 last, Option.map_some]
  refine Lexeme.ends_before_iff.2 ?_
  rcases Nat.lt_or_eq_of_le (Nat.le_of_lt_succ below) with earlier | rfl
  · refine .inr (.inr ⟨?_, rfl⟩)
    rcases trivia_kind inside (gap before earlier (Nat.lt_succ_self before)) with space | comment
    · rw [Option.some.inj (kind.symm.trans space)]
      rfl
    · obtain ⟨_, raw⟩ := face
      cases Option.some.inj (kind.symm.trans comment)
      rw [Lexeme.isComplete, comment_closed meaning last]
      rfl
  · cases edge with
    | semicolon seen => rw [Option.some.inj (kind.symm.trans seen)]; exact .inl rfl
    | colon seen => rw [Option.some.inj (kind.symm.trans seen)]; exact .inl rfl
    | head seen => rw [Option.some.inj (kind.symm.trans seen)]; exact .inl rfl
    | word seen =>
      refine .inr (.inl ⟨?_, rfl, rfl⟩)
      rcases seen with seen | seen
      all_goals exact Option.some.inj (kind.symm.trans (ident_kind seen).1)

/-! ## Ranges that are kept -/

theorem Inserts.kept (inserts : Inserts ts ts' position added) {b : Nat} (before : b ≤ position) :
    Moved ts ts' a b a b 0 :=
  @moved_of_faces ts ts' a b 0 fun _ _ upper => inserts.front (Nat.lt_of_lt_of_le upper before)

theorem Inserts.shifted (inserts : Inserts ts ts' position added) (behind : position ≤ a) (b : Nat) :
    Moved ts ts' a b (a + added.length) (b + added.length) added.length :=
  moved_of_faces fun _ lower _ => inserts.back (Nat.le_trans behind lower)

theorem significant_skip (blank : ts.isSignificant a = false) (b : Nat) :
    ts.significant a b = ts.significant (a + 1) b := by
  rw [significant_eq, significant_eq]
  rcases Nat.lt_or_ge a b with inside | outside
  · obtain ⟨width, rfl⟩ := Nat.exists_eq_add_of_lt inside
    have long : a + width + 1 - a = width + 1 := by omega
    have short : a + width + 1 - (a + 1) = width := by omega
    rw [long, short, List.range'_succ, List.filter_cons_of_neg (by rw [blank]; decide)]
  · rw [Nat.sub_eq_zero_of_le outside, Nat.sub_eq_zero_of_le (Nat.le_succ_of_le outside)]
    rfl

/-! ## Recognition -/

theorem ChainFaces.plain (chain : ChainFaces faces) :
    ∀ face ∈ faces, face.1.isTrivia = false ∧ logicalChars face.2 = face.2 := by
  have inert := chain.inert
  intro face member
  refine ⟨?_, ?_⟩
  · induction chain with
    | name => rw [List.mem_singleton.1 member]; rfl
    | member _ joins _ ih =>
      rw [List.flatMap_cons, List.flatMap_cons, List.forall_mem_append, List.forall_mem_append] at inert
      rcases List.mem_cons.1 member with rfl | member
      · rfl
      · rcases List.mem_cons.1 member with rfl | member
        · rcases joins with rfl | rfl <;> rfl
        · exact ih inert.2.2 member
  · have plain : ∀ c ∈ face.2, c ≠ '?' ∧ c ≠ '\\' := fun c held => by
      obtain ⟨⟨mark, backslash, _⟩, _⟩ := Lexeme.inert_iff.1 (inert c (List.mem_flatMap.2 ⟨face, member, held⟩))
      exact ⟨mark, backslash⟩
    have glyphs := glyphs_singles plain []
    rw [List.append_nil] at glyphs
    rw [logicalChars, glyphs]
    exact (congrArg _ (List.append_nil _)).trans (Glyph.singles_char face.2)

/-- Tokens with these spellings in a row match the words. -/
theorem match_words_faces (plain : ∀ face ∈ faces, face.1.isTrivia = false ∧ logicalChars face.2 = face.2)
    (there : ts.FacesAt i faces) (inside : i + faces.length ≤ limit) :
    (ts.matchWords limit (faces.map fun face => String.ofList face.2) i).isSome = true := by
  induction faces generalizing i with
  | nil => rfl
  | cons face rest ih =>
    obtain ⟨⟨carries, text⟩, others⟩ := List.forall_mem_cons.1 plain
    rw [List.length_cons] at inside
    refine match_words_cons.2 ⟨i, there.next carries (by omega), ?_, ?_⟩
    · rw [there.spelling, text]
    · exact ih others (faces_at_cons.1 there).2 (by omega)

/-- A guard is a check of the chain in it. -/
theorem guard_checks (chained : ChainFaces chain) (there : ts.FacesAt i (guardFaces status block failure chain))
    (inside : i + (guardFaces status block failure chain).length ≤ limit) :
    ts.checksNext (chain.map fun face => String.ofList face.2) i limit = true := by
  obtain ⟨opens, behind⟩ := faces_at_append there
  obtain ⟨names, _⟩ := faces_at_append behind
  have long : i + 4 + chain.length ≤ limit := by
    rw [guardFaces, List.length_append, List.length_append] at inside
    have four : ifOpening.length = 4 := rfl
    omega
  have keyword := (faces_at_cons.1 opens).2
  have gap := (faces_at_cons.1 keyword).2
  have paren := (faces_at_cons.1 gap).2
  have isIf : ts.isIdent (i + 1) "if" = true := by
    rw [isIdent, hasKind, keyword.kind, keyword.spelling]
    rfl
  have isParen : (ts.hasKind (i + 1 + 1 + 1) .openParen && ts.spelling (i + 1 + 1 + 1) == "(") = true := by
    rw [hasKind, paren.kind, paren.spelling]
    rfl
  obtain ⟨face, rest, rfl⟩ : ∃ face rest, chain = face :: rest := by
    cases chained <;> exact ⟨_, _, rfl⟩
  have first : ts.nextSignificant (i + 1 + 1 + 1 + 1) limit = some (i + 4) :=
    FacesAt.next names (chained.plain _ List.mem_cons_self).1 (by rw [List.length_cons] at long; omega)
  have matched := match_words_faces chained.plain names long
  have carries : ts.isSignificant (i + 4) = true :=
    significant_of_kind (FacesAt.kind names) (chained.plain _ List.mem_cons_self).1
  have second : ts.nextSignificant (i + 1 + 1) limit = some (i + 1 + 1 + 1) := gap.next_blank rfl (by omega)
  simp only [checksNext, opens.next_blank rfl (show i + 1 < limit by omega), second, first, isIf, isParen,
    Option.bind_eq_bind, Option.bind_some, guard_true, Option.pure_def, matchSubject, carries, if_true]
  exact matched

theorem ChainFaces.names (chain : ChainFaces faces) :
    ∃ word ∈ faces.map fun face => String.ofList face.2, word ≠ "(" := by
  obtain ⟨c, text, face, rest, rfl, starts⟩ : ∃ c text kind rest, faces = (kind, c :: text) :: rest ∧
      Lexeme.isIdentStart c = true := by
    cases chain with
    | name named => exact ⟨_, _, _, _, rfl, named.starts⟩
    | member named => exact ⟨_, _, _, _, rfl, named.starts⟩
  refine ⟨String.ofList (c :: text), List.mem_cons_self, fun paren => ?_⟩
  obtain ⟨rfl, _⟩ := List.cons.inj (String.ofList_injective paren : c :: text = ['('])
  cases starts

/-- A site with a guard of its lvalue behind its statement is checked. -/
theorem site_with_guard {s : Site} {subject : Nat × Nat} (found : ts.siteAt? registry floor limit i = some s)
    (above : floor ≤ i) (takes : s.subject = some subject) (ends : s.statement.map SiteStatement.semi = some semi)
    (chained : ChainFaces chain)
    (words : (ts.significant subject.1 subject.2).map ts.spelling = chain.map fun face => String.ofList face.2)
    (notIf : (chain.map fun face => String.ofList face.2).head? ≠ some "if")
    (there : ts.FacesAt (semi + 1) (guardFaces status block failure chain))
    (inside : semi + 1 + (guardFaces status block failure chain).length ≤ stop) (size : stop ≤ ts.size) :
    ∃ s' ∈ ts.sites registry floor stop, s'.call = i ∧ s'.allocator = s.allocator ∧ s'.checked = true ∧
      s'.usedBeforeCheck = false := by
  obtain ⟨t, stands, rfl⟩ := Option.map_eq_some_iff.1 ends
  obtain ⟨s', found', agrees⟩ := site_at_limit found stands (show t.semi < stop by omega) size
  obtain ⟨call, before, within⟩ := site_at_bounds found'
  have member : s' ∈ ts.sites registry floor stop := by
    refine sites_iff.2 ⟨by omega, ?_, ?_⟩
    · rw [Nat.min_eq_left size]
      omega
    · rw [Nat.min_eq_left size, call, found']
  obtain ⟨t', stands', semi⟩ := Option.map_eq_some_iff.1 (agrees.semi.trans ends)
  have guarded : ts.guardFollows stop s' = true := by
    rw [guardFollows, agrees.subject, takes, stands']
    simp only [words, semi, guard_checks chained there inside, Bool.and_true, Bool.and_eq_true, bne_iff_ne,
      List.any_eq_true]
    exact ⟨notIf, chained.names⟩
  obtain ⟨checked, unused⟩ := site_guarded member size guarded
  exact ⟨s', member, call, agrees.allocator, checked, unused⟩

/-! ## Sites with a new guard -/

theorem subject_bounds {range : Nat × Nat} (takes : ts.subjectFrom call floor = some range) :
    floor ≤ range.1 ∧ range.2 ≤ call := by
  obtain ⟨assign, left, lvalue⟩ := Option.bind_eq_some_iff.1 takes
  have before := before_casts_bounds (Option.filter_eq_some_iff.1 left).1
  obtain ⟨last, first, precedes, _, stop, _⟩ := lvalue_before_cases lvalue
  have bounds := prev_significant_bounds precedes
  exact ⟨(lvalue_first lvalue).1, by omega⟩

section Guarded

variable {ts ts' : TokenSeq} {registry : Registry} {floor limit i semi : Nat} {s : Site} {subject : Nat × Nat}

/-- A guard that is put behind the statement of a site is known for one. -/
theorem site_of_guard (found : ts.siteAt? registry floor limit i = some s) (above : floor ≤ i)
    (takes : s.subject = some subject) (ends : s.statement.map SiteStatement.semi = some semi)
    (chained : ChainFaces chain)
    (words : (ts.significant subject.1 subject.2).map ts.spelling = chain.map fun face => String.ofList face.2)
    (notIf : (chain.map fun face => String.ofList face.2).head? ≠ some "if")
    (inserts : Inserts ts ts' (semi + 1) (guardFaces status block failure chain))
    (inside : semi + 1 + (guardFaces status block failure chain).length ≤ stop) (size : stop ≤ ts'.size) :
    ∃ s' ∈ ts'.sites registry floor stop, s'.call = i ∧ s'.allocator = s.allocator ∧ s'.checked = true ∧
      s'.usedBeforeCheck = false := by
  obtain ⟨t, stands, rfl⟩ := Option.map_eq_some_iff.1 ends
  obtain ⟨_, _, _, stops⟩ := site_at_statement found stands
  have last : t.semi < ts.size := lt_size_of_kind (statement_stop_kind stops)
  obtain ⟨s₁, found₁, agrees⟩ := site_at_limit found stands (Nat.lt_succ_self t.semi) last
  obtain ⟨call, before, within⟩ := site_at_bounds found₁
  have moved : Moved ts ts' floor (t.semi + 1) floor (t.semi + 1) 0 := inserts.kept (Nat.le_refl _)
  obtain ⟨s₂, found₂, allocator, takes₂, ends₂⟩ :=
    site_at_moved moved last (by omega) (show floor ≤ s₁.call by omega) (by rwa [call])
  rw [call] at found₂
  rw [agrees.subject, takes] at takes₂
  rw [agrees.semi, ends] at ends₂
  have bounds := subject_bounds ((site_at_subject found).symm.trans takes)
  have same : Moved ts ts' subject.1 subject.2 subject.1 subject.2 0 := inserts.kept (by omega)
  obtain ⟨s₃, member, call₃, allocator₃, checked, unused⟩ :=
    site_with_guard found₂ above takes₂ ends₂ chained (same.words.trans words) notIf inserts.there inside size
  exact ⟨s₃, member, call₃, allocator₃.trans (allocator.trans agrees.allocator), checked, unused⟩

/-- In a block of its own a statement has the same site. -/
theorem site_of_block (found : ts.siteAt? registry floor limit i = some s) (above : floor ≤ i) {t : SiteStatement}
    (stands : s.statement = some t) (takes : s.subject = some subject)
    (alone : ts.subjectFrom i t.start = some subject) (inserts : Inserts ts ts' t.start blockStart) :
    ∃ s', ts'.siteAt? registry floor (t.semi + 3) (i + 2) = some s' ∧ s'.allocator = s.allocator ∧
      s'.subject = some (subject.1 + 2, subject.2 + 2) ∧
      s'.statement.map SiteStatement.semi = some (t.semi + 2) := by
  obtain ⟨_, start, _, stops⟩ := site_at_statement found stands
  obtain ⟨⟨named, _⟩, _⟩ := site_at_iff.1 found
  have carries : ts.isSignificant i = true := significant_of_kind (has_kind_iff.1 named) rfl
  obtain ⟨lower, upper, _, _⟩ := call_context_starts above carries
  have floors : floor ≤ (ts.callContext i floor).region :=
    (context_region_core (b := i) (Nat.le_refl floor) above (Nat.le_refl i)).1
  have last : t.semi < ts.size := lt_size_of_kind (statement_stop_kind stops)
  rw [← start] at lower upper
  -- first the site alone, then moved into the block, then with what stands in front of it
  obtain ⟨s₁, found₁, agrees₁⟩ := site_at_own_statement found stands above (by rw [takes]; rfl) (alone.trans takes.symm)
  have ends₁ : s₁.statement.map SiteStatement.semi = some t.semi := by rw [agrees₁.semi, stands, Option.map_some]
  obtain ⟨t₁, stands₁, semi₁⟩ := Option.map_eq_some_iff.1 ends₁
  obtain ⟨s₂, found₂, agrees₂⟩ := site_at_limit found₁ stands₁ (show t₁.semi < t.semi + 1 by omega) last
  have call₂ := (site_at_bounds found₂).1
  have brace : ts'.kind? t.start = some .openBrace := FacesAt.kind inserts.there
  have space : ts'.kind? (t.start + 1) = some .space := FacesAt.kind (faces_at_cons.1 inserts.there).2
  have moved : Moved ts ts' t.start (t.semi + 1) (t.start + 1) (t.semi + 3) 2 := by
    have shifted : Moved ts ts' t.start (t.semi + 1) (t.start + 2) (t.semi + 1 + 2) 2 :=
      inserts.shifted (Nat.le_refl t.start) (t.semi + 1)
    refine ⟨?_, shifted.kind, shifted.spelling⟩
    rw [significant_skip (by rw [isSignificant, kindIs, space]; rfl)]
    exact shifted.places
  have size : ts'.size = ts.size + 2 := inserts.size
  obtain ⟨s₃, found₃, allocator₃, takes₃, ends₃⟩ :=
    site_at_moved moved last (by omega) (show t.start ≤ s₂.call by omega) (by rwa [call₂])
  rw [call₂] at found₃
  rw [agrees₂.subject, agrees₁.subject, takes, Option.map_some] at takes₃
  rw [agrees₂.semi, ends₁, Option.map_some] at ends₃
  have clear (q : Nat) (behind : t.start < q) (before : q < i + 2) :
      (ts'.hasKind q .openBrace || ts'.hasKind q .closeBrace) = false := by
    rcases Nat.eq_or_lt_of_le (show t.start + 1 ≤ q from behind) with rfl | later
    · rw [hasKind, hasKind, space]
      rfl
    · obtain ⟨old, rfl⟩ : ∃ old, q = old + 2 := ⟨q - 2, by omega⟩
      have same : ts'.kind? (old + 2) = ts.kind? old := by
        rw [kind_of_faces, kind_of_faces]
        exact congrArg _ (inserts.back (show t.start ≤ old by omega))
      have none := @region_clear ts floor i old (by omega) (by omega)
      rwa [hasKind, hasKind, same]
  have inner : (ts'.callContext (i + 2) (t.start + 1)).region = t.start + 1 :=
    region_floor fun q behind before => clear q behind before
  have outer : (ts'.callContext (i + 2) floor).region = t.start + 1 := region_brace (by omega) (by omega) brace clear
  have subject₃ := site_at_subject found₃
  rw [inner] at subject₃
  obtain ⟨s₄, found₄, agrees₄⟩ := @site_at_floor _ _ _ _ _ _ floor found₃
    (is_member_lower (subject₃.symm.trans takes₃) (by omega))
    (by rw [call_context_parens, call_context_parens, inner, outer]) (by rw [outer, subject₃])
  refine ⟨s₄, found₄, ?_, agrees₄.subject.trans takes₃, agrees₄.semi.trans ends₃⟩
  rw [agrees₄.allocator, allocator₃, agrees₂.allocator, agrees₁.allocator]

end Guarded

/-- The tokens of the guard of an lvalue. -/
def guardOf (ts : TokenSeq) (status block : Bool) (failure : FailureSign) (subject : Nat × Nat) :
    List TokenFace :=
  guardFaces status block failure ((ts.significant subject.1 subject.2).map ts.spelledFace)

theorem spelled_words (ts : TokenSeq) (positions : List Nat) :
    (positions.map ts.spelledFace).map (fun face => String.ofList face.2) = positions.map ts.spelling := by
  rw [List.map_map]
  exact List.map_congr_left fun i _ => String.ofList_toList

theorem first_word (notIf : ∀ first ∈ positions.head?, ts.spelling first ≠ "if") :
    ((positions.map ts.spelledFace).map fun face => String.ofList face.2).head? ≠ some "if" := by
  rw [spelled_words, List.head?_map]
  intro isIf
  obtain ⟨first, head, same⟩ := Option.map_eq_some_iff.1 isIf
  exact notIf first head same

theorem sites_min (ts : TokenSeq) (registry : Registry) (floor stop : Nat) :
    ts.sites registry floor (min stop ts.size) = ts.sites registry floor stop := by
  rw [sites, sites, Nat.min_assoc, Nat.min_self]

section Recognised

variable {ts ts' : TokenSeq} {registry : Registry} {floor stop : Nat} {site : Site}
  (found : site ∈ ts.sites registry floor stop) {statement : SiteStatement}
  (stands : site.statement = some statement)

include found stands

theorem statement_inside : site.call < statement.semi ∧ statement.semi < min stop ts.size := by
  obtain ⟨_, _, found⟩ := sites_iff.1 found
  obtain ⟨_, _, _, stops⟩ := site_at_statement found stands
  have bounds := statement_stop_bounds stops
  have called := site_at_bounds found
  omega

theorem statement_semicolon : ts.kind? statement.semi = some .semicolon := by
  obtain ⟨_, _, found⟩ := sites_iff.1 found
  obtain ⟨_, _, _, stops⟩ := site_at_statement found stands
  exact statement_stop_kind stops

theorem statement_starts :
    statement.start ≤ site.call ∧ ts.isSignificant statement.start = true ∧ ts.isSignificant site.call = true ∧
      statement.start = (ts.callContext site.call floor).statement ∧
      statement.controlled = (ts.callContext site.call floor).controlled := by
  obtain ⟨lower, _, found⟩ := sites_iff.1 found
  obtain ⟨_, start, controlled, _⟩ := site_at_statement found stands
  obtain ⟨⟨named, _⟩, _⟩ := site_at_iff.1 found
  have carries : ts.isSignificant site.call = true := significant_of_kind (has_kind_iff.1 named) rfl
  obtain ⟨_, before, meaning, _⟩ := call_context_starts lower carries
  rw [← start] at before meaning
  exact ⟨before, meaning, carries, start, controlled⟩

variable {subject : Nat × Nat} (takes : site.subject = some subject)
  (chained : ChainFaces ((ts.significant subject.1 subject.2).map ts.spelledFace))
  (notIf : ∀ first ∈ (ts.significant subject.1 subject.2).head?, ts.spelling first ≠ "if")
  {status block : Bool}

include takes chained notIf

theorem recognised_behind
    (inserts : Inserts ts ts' (statement.semi + 1) (ts.guardOf status block site.allocator.failure subject)) :
    ∃ site' ∈ ts'.sites registry floor (stop + (ts'.size - ts.size)), site'.call = site.call ∧
      site'.allocator = site.allocator ∧ site'.checked = true ∧ site'.usedBeforeCheck = false := by
  have bounds := statement_inside found stands
  have size := inserts.size
  obtain ⟨lower, _, found⟩ := sites_iff.1 found
  rw [← sites_min]
  refine site_of_guard found lower takes (by rw [stands, Option.map_some]) chained (spelled_words _ _).symm
    (first_word notIf) inserts ?_ (Nat.min_le_right _ _)
  rw [guardOf] at size
  omega

/-- The same for a statement that gets a block with its guard. -/
theorem recognised_block {ts₁ : TokenSeq} (alone : ts.subjectFrom site.call statement.start = some subject)
    (opens : Inserts ts ts₁ statement.start blockStart)
    (inserts : Inserts ts₁ ts' (statement.semi + 3) (ts.guardOf status block site.allocator.failure subject)) :
    ∃ site' ∈ ts'.sites registry floor (stop + (ts'.size - ts.size)), site'.call = site.call + 2 ∧
      site'.allocator = site.allocator ∧ site'.checked = true ∧ site'.usedBeforeCheck = false := by
  have bounds := statement_inside found stands
  have size := inserts.size
  have size₁ : ts₁.size = ts.size + 2 := opens.size
  obtain ⟨lower, _, found⟩ := sites_iff.1 found
  obtain ⟨s₁, found₁, allocator₁, takes₁, ends₁⟩ := site_of_block found lower stands takes alone opens
  have words := (opens.shifted (subject_bounds alone).1 subject.2).words
  rw [← sites_min]
  obtain ⟨s₂, member, call, allocator₂, checked, unused⟩ := site_of_guard found₁ (by omega) takes₁ ends₁ chained
    (words.trans (spelled_words _ _).symm) (first_word notIf) inserts
    (show _ ≤ min (stop + (ts'.size - ts.size)) ts'.size by rw [guardOf] at size; omega) (Nat.min_le_right _ _)
  exact ⟨s₂, member, call, allocator₂.trans allocator₁, checked, unused⟩

end Recognised

/-- A controlled statement is given the start of a block. -/
theorem block_opens {site : Site} (found : site ∈ (ofSource source).sites registry floor stop)
    {statement : SiteStatement} (stands : site.statement = some statement) (controlled : statement.controlled = true)
    (other : (ofSource source).kind? statement.start ≠ some .directive) :
    Inserts (ofSource source)
      (ofSource ((ofSource source).textWith statement.start (blockStart.flatMap Prod.snd))) statement.start
      blockStart := by
  obtain ⟨_, meaning, carries, start, control⟩ := statement_starts found stands
  refine insert_block meaning other ?_
  rw [start]
  exact block_ends (sites_iff.1 found).1 carries (control.symm.trans controlled)

end TokenSeq

namespace BodyTask

open TokenSeq

section Text

variable {t : BodyTask} (code : t.failureCode = "-1") {subject : Nat × Nat}
  (chain : t.ts.Chain (t.ts.significant subject.1 subject.2)) {site : Site} {statement : SiteStatement}

include code chain

theorem guard_text (failure : FailureSign) (block : Bool) :
    (" " ++ t.failIf (failure.condition (t.ts.spellRange subject.1 subject.2))).toList ++
        (if block then [' ', '\x7d'] else []) =
      (t.ts.guardOf t.shape.returnsStatus block failure subject).flatMap Prod.snd := by
  rw [guardOf, guardFaces, List.flatMap_append, List.flatMap_append, ← chain_spelled chain, failIf, failStatement,
    code, spellRange]
  cases block <;> cases t.shape.returnsStatus <;> cases failure <;>
    simp [FailureSign.condition, ifOpening, comparison, leaving, blank]

theorem text_guarded_behind (plain : statement.controlled = false) (inside : statement.semi < t.ts.size) :
    (t.ts.edit (t.guardBehind site statement subject)).text = t.ts.textWith (statement.semi + 1)
      ((t.ts.guardOf t.shape.returnsStatus false site.allocator.failure subject).flatMap Prod.snd) := by
  have text := guard_text code chain site.allocator.failure false
  rw [if_neg Bool.false_ne_true, List.append_nil] at text
  rw [guardBehind, plain, ← text]
  exact edit_insertion _ inside

theorem text_guarded_block (controlled : statement.controlled = true) (ordered : statement.start < statement.semi)
    (inside : statement.semi < t.ts.size) {ts₁ : TokenSeq} (opens : Inserts t.ts ts₁ statement.start blockStart) :
    (t.ts.edit (t.guardBehind site statement subject)).text = ts₁.textWith (statement.semi + 3)
      ((t.ts.guardOf t.shape.returnsStatus true site.allocator.failure subject).flatMap Prod.snd) := by
  have text := opens.text_with (Nat.le_succ_of_le (Nat.le_of_lt ordered))
    ((t.ts.guardOf t.shape.returnsStatus true site.allocator.failure subject).flatMap Prod.snd)
  have spelled : String.ofList
      ((t.ts.guardOf t.shape.returnsStatus true site.allocator.failure subject).flatMap Prod.snd) =
        " " ++ t.failIf (site.allocator.failure.condition (t.ts.spellRange subject.1 subject.2)) ++ " \x7d" := by
    rw [← guard_text code chain, if_pos rfl, String.ofList_append, String.ofList_toList]
  rw [guardBehind, controlled]
  refine (edit_insertions _ _ (Nat.lt_succ_of_lt ordered) inside).trans ?_
  rw [spelled] at text
  exact text.symm

end Text

theorem guard_edits_of_subject {t : BodyTask} {registry : Registry} {floor stop : Nat} {site : Site}
    (found : site ∈ t.ts.sites registry floor stop) {statement : SiteStatement}
    (stands : site.statement = some statement) {subject : Nat × Nat} (takes : site.subject = some subject) :
    t.guardEdits? site = some (t.guardBehind site statement subject) := by
  have form : site.form = .assignment ∨ site.form = .declaration := by
    obtain ⟨allocator, call, opening, close, arguments, _, _, _, _, _, rfl⟩ := site_call found
    simp only [classify] at takes ⊢
    rw [takes]
    dsimp only
    split
    · exact .inl rfl
    · exact .inr rfl
  rcases form with form | form <;> rw [guardEdits?, stands, form, takes]

/-- A guard that reports a failure by -1 is recognised where it was put. The analysis of the new text finds
the call in its new place, with its result checked before it is used. For this the lvalue is a chain of
members that does not start with `if`. A body of a control statement gets a block, and there the lvalue has
to be the one that the statement has when it is read by itself, without a line of the preprocessor in front. -/
theorem guard_recognised {t : BodyTask} {source : String} (tokens : t.ts = ofSource source)
    (code : t.failureCode = "-1") {registry : Registry} {start stop : Nat} {site : Site}
    (found : site ∈ t.ts.sites registry start stop) {statement : SiteStatement}
    (stands : site.statement = some statement) {subject : Nat × Nat} (takes : site.subject = some subject)
    (chain : t.ts.Chain (t.ts.significant subject.1 subject.2))
    (notIf : ∀ first ∈ (t.ts.significant subject.1 subject.2).head?, t.ts.spelling first ≠ "if")
    (block : statement.controlled = true → t.ts.kind? statement.start ≠ some .directive ∧
      t.ts.subjectFrom site.call statement.start = some subject) :
    t.guardEdits? site = some (t.guardBehind site statement subject) ∧
      let ts' := ofSource (t.ts.edit (t.guardBehind site statement subject)).text
      ∃ site' ∈ ts'.sites registry start (stop + (ts'.size - t.ts.size)),
        site'.call = site.call + (if statement.controlled then 2 else 0) ∧
          site'.allocator = site.allocator ∧ site'.checked = true ∧ site'.usedBeforeCheck = false := by
  refine ⟨guard_edits_of_subject found stands takes, ?_⟩
  have bounds := statement_inside found stands
  have semicolon := statement_semicolon found stands
  have chained := chain_faces (tokens ▸ chain)
  rw [← tokens] at chained
  cases controlled : statement.controlled with
  | false =>
    have inserts := insert_guard (tokens ▸ semicolon) chained t.shape.returnsStatus false site.allocator.failure
    rw [← tokens] at inserts
    rw [text_guarded_behind code chain controlled (by omega)]
    exact recognised_behind found stands takes chained notIf inserts
  | true =>
    obtain ⟨other, alone⟩ := block controlled
    have opens := block_opens (tokens ▸ found) stands controlled (tokens ▸ other)
    rw [← tokens] at opens
    have before := (statement_starts found stands).1
    have moved : (ofSource (t.ts.textWith statement.start (blockStart.flatMap Prod.snd))).kind?
        (statement.semi + 2) = some .semicolon := by
      rw [kind_of_faces, ← semicolon, kind_of_faces]
      exact congrArg _ (opens.back (show statement.start ≤ statement.semi by omega))
    have inserts := insert_guard moved chained t.shape.returnsStatus true site.allocator.failure
    rw [text_guarded_block code chain controlled (by omega) (by omega) opens]
    exact recognised_block found stands takes chained notIf alone opens inserts

theorem guard_recognised_in_block :
    let t : BodyTask :=
      { ts := .ofSource "\x7bif(c)a->b=malloc(1);\x7d", function := ⟨"f", 0, 0, 15, true, false, "void", false⟩
        shape := .voidToInt, shapes := [], failureCode := "-1", nullIsFailure := false }
    let site : Site :=
      { allocator := ⟨"malloc", 1, .returned, .null⟩, call := 9, close := 12, form := .assignment
        subject := some (5, 8), resource := some "a->b", statement := some ⟨5, 13, true⟩, checked := false
        usedBeforeCheck := false }
    (site ∈ t.ts.sites (.withExtra []) 0 15 ∧ t.ts.Chain (t.ts.significant 5 8) ∧
      (∀ first ∈ (t.ts.significant 5 8).head?, t.ts.spelling first ≠ "if") ∧
      t.ts.kind? 5 ≠ some .directive ∧ t.ts.subjectFrom 9 5 = some (5, 8)) ∧
      t.guardEdits? site = some (t.guardBehind site ⟨5, 13, true⟩ (5, 8)) ∧
      let ts' := TokenSeq.ofSource (t.ts.edit (t.guardBehind site ⟨5, 13, true⟩ (5, 8))).text
      ∃ site' ∈ ts'.sites (.withExtra []) 0 (15 + (ts'.size - t.ts.size)), site'.call = 11 ∧
        site'.allocator = site.allocator ∧ site'.checked = true ∧ site'.usedBeforeCheck = false := by
  intro t site
  have found : site ∈ t.ts.sites (.withExtra []) 0 15 := by decide +kernel
  have places : t.ts.significant 5 8 = [5, 6, 7] := by decide +kernel
  have chain : t.ts.Chain (t.ts.significant 5 8) := by
    rw [places]
    exact .member (by decide +kernel) (by decide +kernel) (.name (by decide +kernel))
  have notIf : ∀ first ∈ (t.ts.significant 5 8).head?, t.ts.spelling first ≠ "if" := by decide +kernel
  have other : t.ts.kind? 5 ≠ some .directive := by decide +kernel
  have alone : t.ts.subjectFrom 9 5 = some (5, 8) := by decide +kernel
  exact ⟨⟨found, chain, notIf, other, alone⟩,
    guard_recognised rfl rfl found rfl rfl chain notIf fun _ => ⟨other, alone⟩⟩

/-- The lvalue of a statement that starts with a star is cut short behind the head of a control statement
but not behind the brace, so the guard checks something else. Behind a brace a line of the preprocessor is
none any more, and what it holds becomes part of the lvalue. -/
theorem guard_not_recognised :
    let task := fun source => BodyTask.mk (.ofSource source) ⟨"f", 0, 0, 17, true, false, "void", false⟩
      .voidToInt [] "-1" false
    let starred := task "\x7bif(c)*p=malloc(1);\x7d"
    let line := task "\x7bif(c)\n#define S s->\np=malloc(1);\x7d"
    let seen := fun (ts : TokenSeq) => (ts.sites (.withExtra []) 0 ts.size).map fun site =>
      (site.subject, site.checked)
    let guarded := "\x7bif(c)\x7b *p=malloc(1); if (p == NULL) return -1; \x7d\x7d"
    let spoiled := "\x7bif(c)\n\x7b #define S s->\np=malloc(1); if (p == NULL) return -1; \x7d\x7d"
    (seen starred.ts = [(some (6, 7), false)] ∧ seen (.ofSource guarded) = [(some (7, 9), false)] ∧
      ∃ edits ∈ starred.guards (starred.ts.sites (.withExtra []) 0 starred.ts.size),
        (starred.ts.edit edits).text = guarded) ∧
      seen line.ts = [(some (8, 9), false)] ∧ seen (.ofSource spoiled) = [(some (13, 17), false)] ∧
      ∃ edits ∈ line.guards (line.ts.sites (.withExtra []) 0 line.ts.size), (line.ts.edit edits).text = spoiled := by
  intro task starred line seen guarded spoiled
  refine ⟨⟨by decide +kernel, by decide +kernel,
    [.insertion 5 "\x7b ", .insertion 13 " if (p == NULL) return -1; \x7d"], by decide +kernel, ?_⟩,
    by decide +kernel, by decide +kernel,
    [.insertion 6 "\x7b ", .insertion 15 " if (p == NULL) return -1; \x7d"], by decide +kernel, ?_⟩
  · rw [edit_insertions _ _ (by decide) (by decide +kernel)]
    decide +kernel
  · rw [edit_insertions _ _ (by decide) (by decide +kernel)]
    decide +kernel

end BodyTask

end AllocGuard
