import AllocGuard.Token.Sequence

/-! The first token of a text, read by bytes. Every byte of a character outside ASCII is a
letter to the scan, wherever in the character it stands, so a scan that moves by bytes takes
the bytes of what a scan by characters takes. An escape that takes one byte of a longer
character along does not end the literal inside that character either: the bytes that are
left are passed one by one. -/
namespace AllocGuard

namespace Text

variable {c : Char} {cs : List Char}

/-- A character outside ASCII, or a byte of one. -/
def IsWide (c : Char) : Prop :=
  0x80 ≤ c.toNat

instance (c : Char) : Decidable (IsWide c) :=
  Nat.decLe 0x80 c.toNat

/-- The bytes of a character, each written as the character with its number. -/
def units (c : Char) : List Char :=
  (String.utf8EncodeChar c).map fun byte => Char.ofNat byte.toNat

/-- The bytes of a text. -/
def bytes (cs : List Char) : List Char :=
  cs.flatMap units

theorem units_narrow (narrow : ¬ IsWide c) : units c = [c] := by
  have small : c.val.toNat ≤ 0x7f := by
    simp only [IsWide, Char.toNat] at narrow
    omega
  have fits : c.val.toNat % 2 ^ 8 = c.val.toNat := Nat.mod_eq_of_lt (by omega)
  rw [units, String.utf8EncodeChar]
  simp only [if_pos small, List.map_cons, List.map_nil, UInt8.toNat_ofNat', fits]
  rw [show c.val.toNat = c.toNat from rfl, Char.ofNat_toNat]

private theorem byte_wide {n : Nat} (lower : 0x80 ≤ n) (upper : n < 0x100) :
    IsWide (Char.ofNat (UInt8.ofNat n).toNat) := by
  have fits : n % 2 ^ 8 = n := Nat.mod_eq_of_lt upper
  have valid : n.isValidChar := .inl (by omega)
  rw [IsWide, UInt8.toNat_ofNat', fits, Char.ofNat, dif_pos valid]
  exact lower

theorem units_wide (wide : IsWide c) : ∀ u ∈ units c, IsWide u := by
  have large : ¬ c.val.toNat ≤ 0x7f := by
    simp only [IsWide, Char.toNat] at wide
    omega
  rw [units, String.utf8EncodeChar]
  simp only [if_neg large]
  split
  · simp only [List.map_cons, List.map_nil, List.forall_mem_cons, List.not_mem_nil]
    exact ⟨byte_wide (by omega) (by omega), byte_wide (by omega) (by omega), by simp⟩
  · split
    · simp only [List.map_cons, List.map_nil, List.forall_mem_cons, List.not_mem_nil]
      exact ⟨byte_wide (by omega) (by omega), byte_wide (by omega) (by omega),
        byte_wide (by omega) (by omega), by simp⟩
    · simp only [List.map_cons, List.map_nil, List.forall_mem_cons, List.not_mem_nil]
      exact ⟨byte_wide (by omega) (by omega), byte_wide (by omega) (by omega),
        byte_wide (by omega) (by omega), byte_wide (by omega) (by omega), by simp⟩

theorem units_length (c : Char) : (units c).length = c.utf8Size := by
  rw [units, List.length_map, String.length_utf8EncodeChar]

theorem units_first (c : Char) : ∃ first rest, units c = first :: rest := by
  rw [← List.ne_nil_iff_exists_cons, ← List.length_pos_iff, units_length]
  exact c.utf8Size_pos

/-- A character has a first byte, and with the character all its bytes are wide. -/
theorem units_cons (wide : IsWide c) :
    ∃ first rest, units c = first :: rest ∧ IsWide first ∧ (∀ u ∈ rest, IsWide u) ∧
      c.utf8Size = rest.length + 1 := by
  obtain ⟨first, rest, parts⟩ := units_first c
  have all := units_wide wide
  rw [parts] at all
  refine ⟨first, rest, parts, all first List.mem_cons_self, fun u member => all u (List.mem_cons_of_mem _ member), ?_⟩
  rw [← units_length, parts, List.length_cons]

theorem tail_units_wide {first u : Char} {us : List Char} (parts : units first = u :: us) : ∀ v ∈ us, IsWide v := by
  by_cases wide : IsWide first
  · intro v member
    exact units_wide wide v (by rw [parts]; exact List.mem_cons_of_mem _ member)
  · rw [units_narrow wide] at parts
    cases parts
    simp

theorem wide_ne {d : Char} (wide : IsWide c) (narrow : ¬ IsWide d) : c ≠ d := by
  rintro rfl
  exact narrow wide

theorem bytes_cons (c : Char) (cs : List Char) : bytes (c :: cs) = units c ++ bytes cs :=
  List.flatMap_cons

theorem bytes_append (front back : List Char) : bytes (front ++ back) = bytes front ++ bytes back :=
  List.flatMap_append

theorem bytes_narrow (narrow : ¬ IsWide c) (cs : List Char) : bytes (c :: cs) = c :: bytes cs := by
  rw [bytes_cons, units_narrow narrow, List.singleton_append]

theorem bytes_empty (cs : List Char) : (bytes cs).isEmpty = cs.isEmpty := by
  cases cs with
  | nil => rfl
  | cons c cs =>
    obtain ⟨first, rest, parts⟩ := units_first c
    rw [bytes_cons, parts]
    rfl

theorem narrow_size (narrow : ¬ IsWide c) : c.utf8Size = 1 := by
  rw [← units_length, units_narrow narrow, List.length_singleton]

theorem bytes_length (cs : List Char) : (bytes cs).length = byteLength cs := by
  induction cs with
  | nil => rfl
  | cons c cs ih => rw [bytes_cons, List.length_append, units_length, ih, byte_length_cons]

theorem bytes_split (cs : List Char) (n : Nat) : bytes cs = bytes (cs.take n) ++ bytes (cs.drop n) := by
  rw [← bytes_append, List.take_append_drop]

/-- The bytes of the first characters are the first bytes. -/
theorem take_bytes (cs : List Char) (n : Nat) : (bytes cs).take (byteLength (cs.take n)) = bytes (cs.take n) := by
  rw [bytes_split cs n, ← bytes_length, List.take_left]

theorem drop_bytes (cs : List Char) (n : Nat) : (bytes cs).drop (byteLength (cs.take n)) = bytes (cs.drop n) := by
  rw [bytes_split cs n, ← bytes_length, List.drop_left]

/-- A byte of ASCII comes first only where its character does. -/
theorem head_bytes (narrow : ¬ IsWide c) (cs : List Char) : (bytes cs).head? = some c ↔ cs.head? = some c := by
  cases cs with
  | nil => exact Iff.rfl
  | cons first rest =>
    by_cases wide : IsWide first
    · obtain ⟨u, us, parts, wideU, _⟩ := units_cons wide
      rw [bytes_cons, parts]
      simp only [List.cons_append, List.head?_cons, Option.some.injEq]
      exact iff_of_false (wide_ne wideU narrow) (wide_ne wide narrow)
    · rw [bytes_narrow wide]
      rfl

theorem mem_bytes (narrow : ¬ IsWide c) : c ∈ bytes cs ↔ c ∈ cs := by
  rw [bytes, List.mem_flatMap]
  constructor
  · rintro ⟨d, member, inside⟩
    by_cases wide : IsWide d
    · exact absurd (units_wide wide c inside) narrow
    · rw [units_narrow wide, List.mem_singleton] at inside
      rwa [inside]
  · exact fun member => ⟨c, member, by rw [units_narrow narrow]; exact List.mem_singleton_self c⟩

theorem not_before_bytes {p : Prop} (narrow : ¬ IsWide c) (other : ∀ rest, p → cs = c :: rest → False) :
    ∀ rest, p → bytes cs = c :: rest → False := by
  intro rest holds here
  have head : cs.head? = some c := (head_bytes narrow cs).1 (by rw [here]; rfl)
  obtain ⟨more, same⟩ := List.head?_eq_some_iff.1 head
  exact other more holds same

/-- Whether the text is ASCII text. -/
def allNarrow (cs : List Char) : Bool :=
  cs.all fun c => c.toNat < 0x80

theorem all_narrow_cons (c : Char) (cs : List Char) : allNarrow (c :: cs) = (!decide (IsWide c) && allNarrow cs) := by
  have narrow : decide (c.toNat < 0x80) = !decide (IsWide c) := by
    rw [← decide_not]
    exact decide_eq_decide.2 Nat.not_le.symm
  rw [allNarrow, List.all_cons, narrow]
  rfl

/-- ASCII text is its bytes. Other text is no ASCII text in bytes either. -/
theorem bytes_cases (cs : List Char) : bytes cs = cs ∨ allNarrow (bytes cs) = false ∧ allNarrow cs = false := by
  induction cs with
  | nil => exact .inl rfl
  | cons c cs ih =>
    by_cases wide : IsWide c
    · obtain ⟨u, us, parts, wideU, _⟩ := units_cons wide
      rw [bytes_cons, parts, List.cons_append, all_narrow_cons, all_narrow_cons, decide_eq_true wideU,
        decide_eq_true wide]
      exact .inr ⟨rfl, rfl⟩
    · rw [bytes_narrow wide, all_narrow_cons, all_narrow_cons]
      rcases ih with same | ⟨inBytes, inChars⟩
      · exact .inl (by rw [same])
      · exact .inr ⟨by rw [inBytes, Bool.and_false], by rw [inChars, Bool.and_false]⟩

theorem byte_length_take_add (cs : List Char) (front back : Nat) :
    byteLength (cs.take (front + back)) =
      byteLength (cs.take front) + byteLength ((cs.drop front).take back) := by
  rw [List.take_add, byte_length_append]

end Text

namespace Lexeme
open Text

variable {quote first c d u : Char} {length : List Char → Nat} {p : Char → Bool} {cs rest us : List Char}
  {test : Bool} {kind : TokenKind}

/-! ## Counting characters and counting bytes -/

/-- Whether a test says the same of all characters outside ASCII. -/
def Uniform (p : Char → Bool) : Prop :=
  ∀ c u, IsWide c → IsWide u → p c = p u

/-- A scan takes the bytes of what it takes in characters. -/
def Bytewise (length : List Char → Nat) : Prop :=
  ∀ cs, length (bytes cs) = byteLength (cs.take (length cs))

theorem bytewise_drop (bytewise : Bytewise length) (cs : List Char) :
    (bytes cs).drop (length (bytes cs)) = bytes (cs.drop (length cs)) := by
  rw [bytewise, drop_bytes]

/-- Whether a scan passes every character outside ASCII, as it comes. -/
def PassesWide (length : List Char → Nat) : Prop :=
  ∀ c rest, IsWide c → length (c :: rest) = length rest + 1

theorem pass_units (passes : PassesWide length) (wide : ∀ u ∈ us, IsWide u) (rest : List Char) :
    length (us ++ rest) = length rest + us.length := by
  induction us with
  | nil => rfl
  | cons u us ih =>
    rw [List.cons_append, passes u _ (wide u List.mem_cons_self),
      ih fun u member => wide u (List.mem_cons_of_mem _ member), List.length_cons]
    omega

theorem bytewise_wide (passes : PassesWide length) (wide : IsWide c)
    (later : length (bytes rest) = byteLength (rest.take (length rest))) :
    length (bytes (c :: rest)) = byteLength ((c :: rest).take (length (c :: rest))) := by
  rw [bytes_cons, pass_units passes (units_wide wide), units_length, passes c rest wide,
    List.take_succ_cons, byte_length_cons, later]
  omega

theorem bytewise_narrow (narrow : ¬ IsWide c) (inBytes : length (c :: bytes rest) = length (bytes rest) + 1)
    (inChars : length (c :: rest) = length rest + 1)
    (later : length (bytes rest) = byteLength (rest.take (length rest))) :
    length (bytes (c :: rest)) = byteLength ((c :: rest).take (length (c :: rest))) := by
  rw [bytes_narrow narrow, inBytes, inChars, List.take_succ_cons, byte_length_cons, narrow_size narrow, later]
  omega

theorem run_length_cons (p : Char → Bool) (c : Char) (rest : List Char) :
    runLength p (c :: rest) = if p c then runLength p rest + 1 else 0 := by
  rw [runLength, List.takeWhile_cons]
  split <;> rfl

theorem run_length_bytewise (uniform : Uniform p) : Bytewise (runLength p) := by
  intro cs
  induction cs with
  | nil => rfl
  | cons c rest ih =>
    by_cases passes : p c = true
    · have step (rest : List Char) : runLength p (c :: rest) = runLength p rest + 1 := by
        rw [run_length_cons, if_pos passes]
      by_cases wide : IsWide c
      · refine bytewise_wide (fun u more wideU => ?_) wide ih
        rw [run_length_cons, ← uniform c u wide wideU, if_pos passes]
      · exact bytewise_narrow wide (step _) (step _) ih
    · have stops : runLength p (c :: rest) = 0 := by
        rw [run_length_cons, if_neg passes]
      rw [stops]
      by_cases wide : IsWide c
      · obtain ⟨u, us, parts, wideU, _⟩ := units_cons wide
        rw [bytes_cons, parts, List.cons_append, run_length_cons, ← uniform c u wide wideU, if_neg passes]
        rfl
      · rw [bytes_narrow wide, run_length_cons, if_neg passes]
        rfl

/-! ## Comments, literals and directives -/

theorem block_length_passes : PassesWide blockLength := by
  intro c rest wide
  rw [blockLength]
  exact fun _ star => absurd star (wide_ne wide (by decide))

theorem block_length_bytewise : Bytewise blockLength := by
  intro cs
  induction cs using blockLength.induct with
  | case1 => rfl
  | case2 tail => rfl
  | case3 c rest other ih =>
    by_cases wide : IsWide c
    · exact bytewise_wide block_length_passes wide ih
    · exact bytewise_narrow wide (blockLength.eq_3 _ _ (not_before_bytes (by decide) other))
        (blockLength.eq_3 _ _ other) ih

theorem quoted_length_cons (newline : c ≠ '\n') (backslash : c ≠ '\\') (rest : List Char) :
    quotedLength quote (c :: rest) = if c = quote then 1 else quotedLength quote rest + 1 := by
  rw [quotedLength]
  · exact newline
  · exact fun escape => absurd escape backslash
  · exact fun _ escape => absurd escape backslash
  · exact fun _ _ escape => absurd escape backslash

theorem quoted_length_escape (newline : c ≠ '\n') (rest : List Char) :
    quotedLength quote ('\\' :: c :: rest) = quotedLength quote rest + 2 := by
  rw [quotedLength]
  exact newline

theorem not_escape (last : c = '\\' → rest = [] → False)
    (escape : ∀ next more, c = '\\' → rest = next :: more → False) : c ≠ '\\' := by
  intro backslash
  cases rest with
  | nil => exact last backslash rfl
  | cons next more => exact escape next more backslash rfl

theorem quoted_length_passes (narrow : ¬ IsWide quote) : PassesWide (quotedLength quote) := by
  intro c rest wide
  rw [quoted_length_cons (wide_ne wide (by decide)) (wide_ne wide (by decide)), if_neg (wide_ne wide narrow)]

/-- An escape takes one byte along, and the rest of its character is passed. -/
theorem quoted_length_bytewise (narrow : ¬ IsWide quote) : Bytewise (quotedLength quote) := by
  intro cs
  induction cs using quotedLength.induct with
  | quote => exact quote
  | case1 => rfl
  | case2 => rfl
  | case3 => rfl
  | case4 => rfl
  | case5 c rest newline ih =>
    rw [bytes_narrow (by decide), quoted_length_escape newline]
    simp only [List.take_succ_cons, byte_length_cons]
    by_cases wide : IsWide c
    -- The escape takes only the first byte `u` along; the others are passed like letters.
    · obtain ⟨u, us, parts, wideU, wideUs, size⟩ := units_cons wide
      rw [bytes_cons, parts, List.cons_append, quoted_length_escape (wide_ne wideU (by decide)),
        pass_units (quoted_length_passes narrow) wideUs, ih, size, narrow_size (by decide)]
      omega
    · rw [bytes_narrow wide, quoted_length_escape newline, ih, narrow_size wide, narrow_size (by decide)]
      omega
  | case6 rest newline last joined escape =>
    have backslash : quote ≠ '\\' := not_escape last escape
    rw [bytes_narrow narrow, quoted_length_cons newline backslash, if_pos rfl,
      quoted_length_cons newline backslash, if_pos rfl]
    simp only [List.take_succ_cons, List.take_zero, byte_length_cons, byte_length_nil, narrow_size narrow]
  | case7 c rest newline last joined escape other ih =>
    have backslash : c ≠ '\\' := not_escape last escape
    by_cases wide : IsWide c
    · exact bytewise_wide (quoted_length_passes narrow) wide ih
    · have step (rest : List Char) : quotedLength quote (c :: rest) = quotedLength quote rest + 1 := by
        rw [quoted_length_cons newline backslash, if_neg other]
      exact bytewise_narrow wide (step _) (step _) ih

/-- A test that tells one ASCII character from all others is uniform. -/
theorem uniform_eq (narrow : ¬ IsWide d) : Uniform (· == d) := by
  intro c u wide wideU
  show (c == d) = (u == d)
  rw [beq_false_of_ne (wide_ne wide narrow), beq_false_of_ne (wide_ne wideU narrow)]

theorem uniform_or {q : Char → Bool} (left : Uniform p) (right : Uniform q) : Uniform fun c => p c || q c := by
  intro c u wide wideU
  simp only [left c u wide wideU, right c u wide wideU]

theorem line_length_bytewise : Bytewise lineLength := by
  refine run_length_bytewise (p := (· != '\n')) fun c u wide wideU => ?_
  exact congrArg (! ·) (uniform_eq (by decide) c u wide wideU)

theorem quote_narrow (quote : isQuote c = true) : ¬ IsWide c := by
  simp only [isQuote, Bool.or_eq_true, beq_iff_eq] at quote
  rcases quote with rfl | rfl <;> decide

theorem directive_length_cons (newline : c = '\n' → False) (block : ∀ more, c = '/' → rest = '*' :: more → False)
    (line : ∀ more, c = '/' → rest = '/' :: more → False) :
    directiveLength (c :: rest) =
      if isQuote c then
        directiveLength (rest.drop (quotedLength c rest)) + quotedLength c rest + 1
      else directiveLength rest + 1 := by
  rw [directiveLength]
  · exact newline
  · exact block
  · exact line

theorem directive_length_passes : PassesWide directiveLength := by
  intro c rest wide
  have slash := wide_ne wide (show ¬ IsWide '/' by decide)
  rw [directive_length_cons (wide_ne wide (by decide)) (fun _ same => absurd same slash)
    (fun _ same => absurd same slash), if_neg fun quote => quote_narrow quote wide]

theorem directive_length_bytewise : Bytewise directiveLength := by
  intro cs
  induction cs using directiveLength.induct with
  | case1 =>
    show directiveLength [] = _
    rw [directiveLength]
    rfl
  | case2 tail =>
    rw [bytes_narrow (by decide), directiveLength, directiveLength]
    rfl
  | case3 rest block ih =>
    rw [bytes_narrow (by decide), bytes_narrow (by decide), directiveLength, directiveLength,
      bytewise_drop block_length_bytewise, ih, block_length_bytewise]
    simp only [List.take_succ_cons, byte_length_cons, narrow_size (c := '/') (by decide),
      narrow_size (c := '*') (by decide), Nat.add_comm (directiveLength _), byte_length_take_add, block]
    omega
  | case4 rest =>
    rw [bytes_narrow (by decide), bytes_narrow (by decide), directiveLength, directiveLength, line_length_bytewise]
    simp only [List.take_succ_cons, byte_length_cons, narrow_size (c := '/') (by decide)]
    omega
  | case5 c rest newline block line quote quoted ih =>
    have narrow := quote_narrow quote
    have quotedBytewise := quoted_length_bytewise narrow
    rw [bytes_narrow narrow, directive_length_cons newline (not_before_bytes (by decide) block)
      (not_before_bytes (by decide) line), if_pos quote, directive_length_cons newline block line,
      if_pos quote, bytewise_drop quotedBytewise, ih, quotedBytewise]
    simp only [List.take_succ_cons, byte_length_cons, narrow_size narrow,
      Nat.add_comm (directiveLength _), byte_length_take_add, quoted]
    omega
  | case6 c rest newline block line plain ih =>
    by_cases wide : IsWide c
    · exact bytewise_wide directive_length_passes wide ih
    · refine bytewise_narrow wide ?_ ?_ ih
      · rw [directive_length_cons newline (not_before_bytes (by decide) block)
          (not_before_bytes (by decide) line), if_neg plain]
      · rw [directive_length_cons newline block line, if_neg plain]

/-! ## Numbers and the operands of pragmas -/

theorem alphanum_narrow (alphanum : c.isAlphanum = true) : ¬ IsWide c := by
  unfold Char.isAlphanum Char.isAlpha Char.isUpper Char.isLower Char.isDigit at alphanum
  simp only [Bool.or_eq_true, Bool.and_eq_true, decide_eq_true_eq, UInt32.le_iff_toNat_le, ge_iff_le] at alphanum
  have large : ∀ top : Nat, top < 0x80 → c.val.toNat ≤ top → ¬ IsWide c := by
    intro top small below wide
    simp only [IsWide, Char.toNat] at wide
    omega
  rcases alphanum with (⟨_, below⟩ | ⟨_, below⟩) | ⟨_, below⟩
  · exact large _ (by decide) below
  · exact large _ (by decide) below
  · exact large _ (by decide) below

theorem digit_wide (wide : IsWide c) : c.isDigit = false := by
  rw [Bool.eq_false_iff]
  intro digit
  exact alphanum_narrow (by rw [Char.isAlphanum, digit, Bool.or_true]) wide

theorem number_length_stops (before : Bool) (wide : IsWide c) (rest : List Char) :
    numberLength before (c :: rest) = 0 := by
  have alphanum : c.isAlphanum = false := by
    rw [Bool.eq_false_iff]
    exact fun alphanum => alphanum_narrow alphanum wide
  rw [numberLength]
  simp [alphanum, wide_ne wide (show ¬ IsWide '_' by decide),
    wide_ne wide (show ¬ IsWide '.' by decide), wide_ne wide (show ¬ IsWide '+' by decide),
    wide_ne wide (show ¬ IsWide '-' by decide)]

theorem number_length_bytewise (before : Bool) : Bytewise (numberLength before) := by
  intro cs
  induction cs generalizing before with
  | nil => rfl
  | cons c rest ih =>
    by_cases wide : IsWide c
    · obtain ⟨u, us, parts, wideU, _⟩ := units_cons wide
      rw [bytes_cons, parts, List.cons_append, number_length_stops before wideU, number_length_stops before wide]
      rfl
    · rw [bytes_narrow wide, numberLength, numberLength]
      split
      · rw [List.take_succ_cons, byte_length_cons, narrow_size wide, ih]
        omega
      · split
        · rw [List.take_succ_cons, byte_length_cons, narrow_size wide, ih]
          omega
        · rfl

theorem operand_length_cons (depth : Nat) (newline : c = '\n' → False)
    (opens : c = '(' → False) (closes : c = ')' → False) :
    operandLength depth (c :: rest) =
      if isQuote c then
        (operandLength depth (rest.drop (quotedLength c rest))).map (· + quotedLength c rest + 1)
      else (operandLength depth rest).map (· + 1) := by
  rw [operandLength]
  · exact newline
  · exact opens
  · exact closes

theorem operand_length_units (depth : Nat) (wide : ∀ u ∈ us, IsWide u) (rest : List Char) :
    operandLength depth (us ++ rest) = (operandLength depth rest).map (· + us.length) := by
  induction us with
  | nil => simp
  | cons u us ih =>
    have wideU := wide u List.mem_cons_self
    rw [List.cons_append, operand_length_cons depth (wide_ne wideU (by decide))
      (wide_ne wideU (by decide)) (wide_ne wideU (by decide)),
      if_neg fun quote => quote_narrow quote wideU,
      ih fun u member => wide u (List.mem_cons_of_mem _ member), Option.map_map]
    rfl

private theorem taken_after (narrow : ¬ IsWide c) (rest : List Char) (found : Option Nat) :
    (found.map fun length => byteLength (rest.take length)).map (· + 1) =
      (found.map (· + 1)).map fun length => byteLength ((c :: rest).take length) := by
  cases found with
  | none => rfl
  | some length =>
    simp only [Option.map_some, List.take_succ_cons, byte_length_cons, narrow_size narrow, Nat.add_comm 1]

theorem operand_length_bytewise (depth : Nat) (cs : List Char) :
    operandLength depth (bytes cs) =
      (operandLength depth cs).map fun length => byteLength (cs.take length) := by
  induction depth, cs using operandLength.induct with
  | case1 depth =>
    show operandLength depth [] = _
    rw [operandLength]
    rfl
  | case2 depth tail =>
    rw [bytes_narrow (by decide), operandLength, operandLength]
    rfl
  | case3 depth rest ih =>
    rw [bytes_narrow (by decide), operandLength, operandLength, ih, taken_after (c := '(') (by decide)]
  | case4 depth rest last =>
    rw [bytes_narrow (by decide), operandLength, operandLength, if_pos last, if_pos last]
    rfl
  | case5 depth rest inner ih =>
    rw [bytes_narrow (by decide), operandLength, operandLength, if_neg inner, if_neg inner, ih,
      taken_after (c := ')') (by decide)]
  | case6 depth c rest newline opens closes quote quoted ih =>
    have narrow := quote_narrow quote
    have quotedBytewise := quoted_length_bytewise narrow
    rw [bytes_narrow narrow, operand_length_cons depth newline opens closes, if_pos quote,
      operand_length_cons depth newline opens closes, if_pos quote, bytewise_drop quotedBytewise, ih,
      quotedBytewise]
    cases operandLength depth (rest.drop (quotedLength c rest)) with
    | none => rfl
    | some length =>
      simp only [Option.map_some, List.take_succ_cons, byte_length_cons, narrow_size narrow,
        Nat.add_comm length, byte_length_take_add, quoted]
      congr 1
      omega
  | case7 depth c rest newline opens closes plain ih =>
    have step (rest : List Char) : operandLength depth (c :: rest) =
        (operandLength depth rest).map (· + 1) := by
      rw [operand_length_cons depth newline opens closes, if_neg plain]
    by_cases wide : IsWide c
    · rw [bytes_cons, operand_length_units depth (units_wide wide), ih, units_length, step]
      cases operandLength depth rest with
      | none => rfl
      | some length =>
        simp only [Option.map_some, List.take_succ_cons, byte_length_cons, Nat.add_comm c.utf8Size]
    · rw [bytes_narrow wide, step, ih, step, taken_after wide]

theorem pragma_length_bytewise : Bytewise pragmaLength := by
  intro cs
  have gap : Bytewise (runLength fun c => c == ' ' || c == '\t') :=
    run_length_bytewise (uniform_or (uniform_eq (by decide)) (uniform_eq (by decide)))
  rw [pragmaLength, pragmaLength, bytewise_drop gap]
  by_cases opens : (cs.drop (runLength (fun c => c == ' ' || c == '\t') cs)).head? = some '('
  · obtain ⟨operand, here⟩ := List.head?_eq_some_iff.1 opens
    simp only [here, bytes_narrow (c := '(') (by decide), operand_length_bytewise]
    cases operandLength 1 operand with
    | none => rfl
    | some length =>
      simp only [Option.map_some, Nat.add_assoc, byte_length_take_add, here, gap cs, Nat.add_comm 1,
        List.take_succ_cons, byte_length_cons, narrow_size (c := '(') (by decide)]
  · have opensBytes := mt (head_bytes (by decide) _).1 opens
    split
    · rename_i operand here
      exact absurd (by rw [here]; rfl) opensBytes
    · split
      · rename_i operand here
        exact absurd (by rw [here]; rfl) opens
      · rfl

/-! ## Words and punctuators -/

theorem follows_bytes (narrow : ¬ IsWide c) (rest : List Char) : follows (bytes rest) c = follows rest c := by
  rw [Bool.eq_iff_iff, follows, follows, beq_iff_eq, beq_iff_eq, head_bytes narrow]

/-- What follows an ASCII character stands right behind it, in bytes as in characters. -/
theorem follows_cons (narrow : ¬ IsWide c) (follow : follows rest c = true) :
    ∃ more, rest = c :: more ∧ bytes rest = c :: bytes more := by
  obtain ⟨more, rfl⟩ := List.head?_eq_some_iff.1 (beq_iff_eq.1 follow)
  exact ⟨more, rfl, bytes_narrow narrow more⟩

theorem keyword_narrow {word : String} (keyword : TokenKind.ofKeyword? word = some kind) :
    allNarrow word.toList = true := by
  unfold TokenKind.ofKeyword? at keyword
  split at keyword <;> cases keyword <;> rfl

theorem keyword_wide (other : allNarrow cs = false) : TokenKind.ofKeyword? (String.ofList cs) = none := by
  cases keyword : TokenKind.ofKeyword? (String.ofList cs) with
  | none => rfl
  | some kind =>
    have narrow := keyword_narrow keyword
    rw [String.toList_ofList, other] at narrow
    cases narrow

theorem literal_mark_wide (other : allNarrow cs = false) : isLiteralMark (String.ofList cs) = false := by
  have differs (mark : String) (narrow : allNarrow mark.toList = true) :
      (String.ofList cs == mark) = false := by
    refine beq_false_of_ne fun same => ?_
    rw [← same, String.toList_ofList, other] at narrow
    cases narrow
  rw [isLiteralMark, differs "L" rfl, differs "u" rfl, differs "U" rfl, differs "u8" rfl]
  rfl

theorem keyword_bytes (cs : List Char) :
    TokenKind.ofKeyword? (String.ofList (bytes cs)) = TokenKind.ofKeyword? (String.ofList cs) := by
  rcases bytes_cases cs with same | ⟨inBytes, inChars⟩
  · rw [same]
  · rw [keyword_wide inBytes, keyword_wide inChars]

theorem literal_mark_bytes (cs : List Char) :
    isLiteralMark (String.ofList (bytes cs)) = isLiteralMark (String.ofList cs) := by
  rcases bytes_cases cs with same | ⟨inBytes, inChars⟩
  · rw [same]
  · rw [literal_mark_wide inBytes, literal_mark_wide inChars]

theorem ident_start_wide (wide : IsWide c) : isIdentStart c = true := by
  simp only [isIdentStart, Bool.or_eq_true, decide_eq_true_eq]
  exact .inr wide

theorem ident_char_wide (wide : IsWide c) : isIdentChar c = true := by
  rw [isIdentChar, ident_start_wide wide, Bool.true_or]

theorem run_ident_passes : PassesWide (runLength isIdentChar) := by
  intro c rest wide
  rw [run_length_cons, if_pos (ident_char_wide wide)]

theorem run_ident_bytewise : Bytewise (runLength isIdentChar) :=
  run_length_bytewise fun c u wide wideU => by rw [ident_char_wide wide, ident_char_wide wideU]

private theorem literal_taken (narrow : ¬ IsWide quote) {more : Nat} (follow : follows (rest.drop more) quote = true) :
    byteLength (rest.take (more + 1 + quotedLength quote (rest.drop more).tail)) =
      byteLength (rest.take more) + 1 + quotedLength quote (bytes (rest.drop more)).tail := by
  obtain ⟨literal, inChars, inBytes⟩ := follows_cons narrow follow
  rw [Nat.add_assoc, byte_length_take_add, inChars, ← inChars, inBytes, List.tail_cons,
    quoted_length_bytewise narrow, inChars, List.tail_cons, Nat.add_comm 1, List.take_succ_cons,
    byte_length_cons, narrow_size narrow]
  omega

theorem word_bytewise (parts : units first = u :: us) (rest : List Char) :
    word u (us ++ bytes rest) =
      ((word first rest).1, us.length + byteLength (rest.take (word first rest).2)) := by
  have more : runLength isIdentChar (us ++ bytes rest) =
      us.length + byteLength (rest.take (runLength isIdentChar rest)) := by
    rw [pass_units run_ident_passes (tail_units_wide parts), run_ident_bytewise, Nat.add_comm]
  have spelled : u :: (us ++ bytes rest).take
      (us.length + byteLength (rest.take (runLength isIdentChar rest))) =
        bytes (first :: rest.take (runLength isIdentChar rest)) := by
    rw [List.take_length_add_append, take_bytes, bytes_cons, parts, List.cons_append]
  have after : (us ++ bytes rest).drop
      (us.length + byteLength (rest.take (runLength isIdentChar rest))) =
        bytes (rest.drop (runLength isIdentChar rest)) := by
    rw [List.drop_length_add_append, drop_bytes]
  simp only [word, more, spelled, after, keyword_bytes, literal_mark_bytes,
    follows_bytes (c := '"') (by decide), follows_bytes (c := '\'') (by decide)]
  generalize runLength isIdentChar rest = more
  split
  · rename_i string
    rw [literal_taken (by decide) (Bool.and_eq_true_iff.1 string).2]
    simp only [Nat.add_assoc]
  · split
    · rename_i character
      rw [literal_taken (by decide) (Bool.and_eq_true_iff.1 character).2]
      simp only [Nat.add_assoc]
    · split
      · rw [byte_length_take_add, pragma_length_bytewise, Nat.add_assoc]
      · rfl
      · rfl

theorem follows_dots (rest : List Char) :
    (follows rest '.' && follows (bytes rest).tail '.') =
      (follows rest '.' && follows rest.tail '.') := by
  cases follow : follows rest '.' with
  | false => rfl
  | true =>
    obtain ⟨more, rfl, inBytes⟩ := follows_cons (by decide) follow
    rw [inBytes, List.tail_cons, List.tail_cons, follows_bytes (by decide)]

theorem shift_length_bytes (narrow : ¬ IsWide c) (rest : List Char) :
    punctuator.shiftLength c (bytes rest) = punctuator.shiftLength c rest := by
  simp only [punctuator.shiftLength, follows_bytes narrow]
  cases follow : follows rest c with
  | false =>
    simp only [Bool.false_eq_true, if_false, List.drop_zero, follows_bytes (c := '=') (by decide)]
  | true =>
    obtain ⟨more, rfl, inBytes⟩ := follows_cons narrow follow
    simp only [inBytes, if_true, List.drop_succ_cons, List.drop_zero, follows_bytes (c := '=') (by decide)]

/-- Punctuators are told apart by ASCII characters alone. -/
theorem punctuator_bytes (c : Char) (rest : List Char) : punctuator c (bytes rest) = punctuator c rest := by
  simp (disch := decide) only [punctuator, assigned, doubledOrAssigned, follows_bytes, follows_dots,
    shift_length_bytes]

theorem follows_taken (narrow : ¬ IsWide c) (follow : follows rest c = true) : byteLength (rest.take 1) = 1 := by
  obtain ⟨more, rfl, _⟩ := follows_cons narrow follow
  exact narrow_size narrow

theorem follows_either_taken (narrowC : ¬ IsWide c) (narrowD : ¬ IsWide d)
    (follow : (follows rest c || follows rest d) = true) : byteLength (rest.take 1) = 1 := by
  rcases Bool.or_eq_true_iff.1 follow with follow | follow
  · exact follows_taken narrowC follow
  · exact follows_taken narrowD follow

private theorem one_taken (one : test = true → byteLength (rest.take 1) = 1) :
    byteLength (rest.take (if test then 1 else 0)) = if test then 1 else 0 := by
  cases test with
  | true => exact one rfl
  | false => rfl

private theorem choice_taken {other : TokenKind × Nat} (one : test = true → byteLength (rest.take 1) = 1)
    (more : byteLength (rest.take other.2) = other.2) :
    byteLength (rest.take (if test then (kind, 1) else other).2) =
      (if test then (kind, 1) else other).2 := by
  cases test with
  | true => exact one rfl
  | false => exact more

theorem assigned_taken (kind : TokenKind) (rest : List Char) :
    byteLength (rest.take (assigned kind rest).2) = (assigned kind rest).2 :=
  choice_taken (follows_taken (by decide)) rfl

theorem doubled_or_assigned_taken (narrow : ¬ IsWide c) (rest : List Char) :
    byteLength (rest.take (doubledOrAssigned c rest).2) = (doubledOrAssigned c rest).2 :=
  one_taken (follows_either_taken narrow (by decide))

theorem shift_length_taken (narrow : ¬ IsWide c) (rest : List Char) :
    byteLength (rest.take (punctuator.shiftLength c rest)) = punctuator.shiftLength c rest := by
  rw [punctuator.shiftLength, byte_length_take_add, one_taken (follows_taken narrow),
    one_taken (follows_taken (by decide))]

theorem ellipsis_taken (dots : (follows rest '.' && follows rest.tail '.') = true) :
    byteLength (rest.take 2) = 2 := by
  obtain ⟨first, second⟩ := Bool.and_eq_true_iff.1 dots
  obtain ⟨more, rfl, _⟩ := follows_cons (by decide) first
  have next : byteLength (more.take 1) = 1 := follows_taken (by decide) second
  rw [List.take_succ_cons, byte_length_cons, next]
  rfl

/-- A punctuator is ASCII text, so that it has as many bytes as characters. -/
theorem punctuator_taken (c : Char) (rest : List Char) :
    byteLength (rest.take (punctuator c rest).2) = (punctuator c rest).2 := by
  unfold punctuator
  split
  any_goals exact byte_length_nil
  any_goals exact assigned_taken _ rest
  any_goals exact doubled_or_assigned_taken (by decide) rest
  any_goals exact shift_length_taken (by decide) rest
  · exact choice_taken (follows_taken (by decide)) rfl
  · exact choice_taken (follows_taken (by decide)) rfl
  · exact choice_taken (follows_either_taken (by decide) (by decide)) rfl
  · split
    · rename_i dots
      exact ellipsis_taken dots
    · rfl
  · exact choice_taken (follows_taken (by decide)) (doubled_or_assigned_taken (by decide) rest)
  · exact one_taken (follows_taken (by decide))

/-! ## The first token -/

theorem run_space_bytewise : Bytewise (runLength isSpace) := by
  refine run_length_bytewise (p := isSpace) ?_
  exact uniform_or (uniform_or (uniform_or (uniform_or (uniform_or (uniform_eq (by decide))
    (uniform_eq (by decide))) (uniform_eq (by decide))) (uniform_eq (by decide)))
    (uniform_eq (by decide))) (uniform_eq (by decide))

private theorem comment_taken (star : follows rest '*' = true) :
    byteLength (rest.take (1 + blockLength rest.tail)) = 1 + blockLength (bytes rest).tail := by
  obtain ⟨comment, rfl, inBytes⟩ := follows_cons (by decide) star
  rw [inBytes, List.tail_cons, List.tail_cons, block_length_bytewise, Nat.add_comm 1,
    List.take_succ_cons, byte_length_cons]
  rfl

theorem digit_follows_bytes (rest : List Char) :
    (bytes rest).head?.any Char.isDigit = rest.head?.any Char.isDigit := by
  cases rest with
  | nil => rfl
  | cons c rest =>
    by_cases wide : IsWide c
    · obtain ⟨u, us, parts, wideU, _⟩ := units_cons wide
      rw [bytes_cons, parts]
      simp only [List.cons_append, List.head?_cons, Option.any_some, digit_wide wideU, digit_wide wide]
    · rw [bytes_narrow wide]
      rfl

theorem read_wide (lineStart : Bool) (wide : IsWide c) (rest : List Char) : read lineStart c rest = word c rest := by
  have ne {d : Char} (narrow : ¬ IsWide d) : (c == d) = false := beq_false_of_ne (wide_ne wide narrow)
  simp (disch := decide) [read, isSpace, ne, digit_wide wide, ident_start_wide wide]

/-- The token that starts with a character is the one that starts with its first byte. -/
theorem read_bytewise (lineStart : Bool) (parts : units first = u :: us) (rest : List Char) :
    read lineStart u (us ++ bytes rest) =
      ((read lineStart first rest).1, us.length + byteLength (rest.take (read lineStart first rest).2)) := by
  by_cases wide : IsWide first
  · have wideU : IsWide u := units_wide wide u (by rw [parts]; exact List.mem_cons_self)
    rw [read_wide lineStart wideU, read_wide lineStart wide, word_bytewise parts]
  -- An ASCII character is its only byte, so every test of the first character agrees.
  · have single := parts
    rw [units_narrow wide] at single
    obtain ⟨rfl, rfl⟩ := List.cons.inj single
    have asWord := word_bytewise parts rest
    rw [List.nil_append, List.length_nil, Nat.zero_add] at asWord ⊢
    have string := quoted_length_bytewise (show ¬ IsWide '"' by decide) rest
    have character := quoted_length_bytewise (show ¬ IsWide '\'' by decide) rest
    simp (disch := decide) only [read, follows_bytes, digit_follows_bytes, asWord, punctuator_bytes,
      run_space_bytewise rest, line_length_bytewise rest, directive_length_bytewise rest,
      number_length_bytewise false rest, string, character]
    split
    · rfl
    split
    · rfl
    split
    · rename_i block
      rw [comment_taken (Bool.and_eq_true_iff.1 block).2]
    split
    · rfl
    split
    · rfl
    split
    · rfl
    split
    · rfl
    split
    · rfl
    · rw [punctuator_taken]

end Lexeme

end AllocGuard
