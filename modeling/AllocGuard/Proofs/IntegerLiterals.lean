import AllocGuard.Literal.Numeric
import Mathlib.Data.List.Forall2
import Mathlib.Data.Nat.Digits.Defs

/-! Integer literals as the language writes them: a mark for the base, digits, and a suffix. A text
is read as an integer exactly if it is one of these and its value fits 64 bits, and the value is the
positional one. A literal that does not fit is refused as out of range. -/
namespace AllocGuard.Numeric

variable {α : Type} {first c : Char} {base digit : Nat} {front body rest chars : List Char} {suffix : IntSuffix}
  {digits : List Nat}

/-! ## The grammar -/

/-- The digits of all bases, each at its value. -/
def digitTable : List Char :=
  "0123456789abcdef".toList

/-- The character stands for this digit of the base, in either letter case. -/
def Denotes (base : Nat) (c : Char) (digit : Nat) : Prop :=
  digit < base ∧ digitTable[digit]? = some c.toLower

instance (base : Nat) : DecidableRel (Denotes base) :=
  fun _ _ => inferInstanceAs (Decidable (_ ∧ _))

/-- The mark in front of digits with these values, which tells their base. Octal digits may be
missing, since the mark is a digit itself, and decimal ones do not start with a zero. -/
inductive Marks : List Char → Nat → List Nat → Prop
  | hexadecimal {mark : Char} {digits : List Nat} (letter : mark = 'x' ∨ mark = 'X')
      (some : digits ≠ []) : Marks ['0', mark] 16 digits
  | binary {mark : Char} {digits : List Nat} (letter : mark = 'b' ∨ mark = 'B')
      (some : digits ≠ []) : Marks ['0', mark] 2 digits
  | octal {digits : List Nat} : Marks ['0'] 8 digits
  | decimal {first : Nat} {rest : List Nat} (nonzero : first ≠ 0) : Marks [] 10 (first :: rest)

/-- The suffixes in small letters, and what each says. -/
def suffixTable : List (String × IntSuffix) :=
  [("", ⟨false, .int⟩), ("u", ⟨true, .int⟩), ("l", ⟨false, .long⟩), ("ul", ⟨true, .long⟩),
    ("lu", ⟨true, .long⟩), ("ll", ⟨false, .longLong⟩), ("ull", ⟨true, .longLong⟩),
    ("llu", ⟨true, .longLong⟩)]

/-- The characters are a suffix that says this, in any letter case. -/
def IsSuffix (rest : List Char) (suffix : IntSuffix) : Prop :=
  (String.ofList (rest.map Char.toLower), suffix) ∈ suffixTable

instance (rest : List Char) (suffix : IntSuffix) : Decidable (IsSuffix rest suffix) :=
  inferInstanceAs (Decidable (_ ∈ suffixTable))

/-- The text is an integer literal of this base, with digits of these values and this suffix. -/
def IsInteger (text : List Char) (base : Nat) (digits : List Nat) (suffix : IntSuffix) : Prop :=
  ∃ mark chars rest, text = mark ++ chars ++ rest ∧ Marks mark base digits ∧
    List.Forall₂ (Denotes base) chars digits ∧ IsSuffix rest suffix

/-! ## Digits -/

theorem to_lower_nat (c : Char) :
    c.toLower.toNat = if 65 ≤ c.toNat ∧ c.toNat ≤ 90 then c.toNat + 32 else c.toNat := by
  have upper : (c.val ≥ 'A'.val ∧ c.val ≤ 'Z'.val) = (65 ≤ c.toNat ∧ c.toNat ≤ 90) := by
    rw [ge_iff_le, UInt32.le_iff_toNat_le, UInt32.le_iff_toNat_le]
    rfl
  delta Char.toLower
  split
  · rename_i capital
    rw [upper] at capital
    rw [if_pos capital]
    show (c.val + 32).toNat = _
    rw [UInt32.toNat_add, Nat.mod_eq_of_lt]
    · rfl
    · have small : c.val.toNat ≤ 90 := capital.2
      show c.val.toNat + 32 < _
      omega
  · rename_i other
    rw [upper] at other
    rw [if_neg other]

theorem table_at (below : digit < 16) (c : Char) :
    digitTable[digit]? = some c ↔ c.toNat = if digit < 10 then 48 + digit else 87 + digit := by
  have entries : digitTable.map Char.toNat =
      (List.range 16).map fun digit => if digit < 10 then 48 + digit else 87 + digit := by decide
  have here := congrArg (·[digit]?) entries
  simp only [List.getElem?_map, List.getElem?_range below, Option.map_some] at here
  obtain ⟨d, entry, value⟩ := Option.map_eq_some_iff.1 here
  rw [entry, Option.some_inj, ← value, Char.toNat_inj, eq_comm]

/-- The value of a digit, told from the number of its character. -/
theorem digit_value_eq (c : Char) :
    digitValue? c =
      if 48 ≤ c.toNat ∧ c.toNat ≤ 57 then some (c.toNat - 48)
      else if 97 ≤ c.toNat ∧ c.toNat ≤ 102 then some (c.toNat - 97 + 10)
      else if 65 ≤ c.toNat ∧ c.toNat ≤ 70 then some (c.toNat - 65 + 10)
      else none := by
  have decimal : c.isDigit = true ↔ 48 ≤ c.toNat ∧ c.toNat ≤ 57 := Char.isDigit_iff_toNat
  have small : ('a' ≤ c ∧ c ≤ 'f') ↔ 97 ≤ c.toNat ∧ c.toNat ≤ 102 := by
    rw [Char.le_def, Char.le_def, UInt32.le_iff_toNat_le, UInt32.le_iff_toNat_le]
    rfl
  have capital : ('A' ≤ c ∧ c ≤ 'F') ↔ 65 ≤ c.toNat ∧ c.toNat ≤ 70 := by
    rw [Char.le_def, Char.le_def, UInt32.le_iff_toNat_le, UInt32.le_iff_toNat_le]
    rfl
  rw [digitValue?]
  simp only [decimal, small, capital]
  rfl

theorem digit_value_iff : digitValue? c = some digit ↔ Denotes 16 c digit := by
  have lower := to_lower_nat c
  rw [digit_value_eq, Denotes]
  constructor
  · intro hit
    have place : digit < 16 ∧
        c.toLower.toNat = if digit < 10 then 48 + digit else 87 + digit := by grind
    exact ⟨place.1, (table_at place.1 _).2 place.2⟩
  · rintro ⟨below, entry⟩
    rw [table_at below] at entry
    grind

theorem Denotes.value (denotes : Denotes base c digit) (small : base ≤ 16) : digitValue? c = some digit :=
  digit_value_iff.2 ⟨by have below := denotes.1; omega, denotes.2⟩

/-- The characters that the digits of a base are taken from. -/
def isScanned (base : Nat) : Char → Bool :=
  if base = 16 then isHexDigit else Char.isDigit

theorem Denotes.scanned (denotes : Denotes base c digit) (known : base = 16 ∨ base ≤ 10) :
    isScanned base c = true := by
  have value := denotes.value (by omega)
  rw [isScanned]
  split
  · rw [isHexDigit, value, Option.isSome_some]
  · rename_i other
    have below := denotes.1
    rw [digit_value_eq] at value
    rw [Char.isDigit_iff_toNat]
    show 48 ≤ c.toNat ∧ c.toNat ≤ 57
    grind

/-! ## Values -/

/-- The value of digits behind digits that have a value already. -/
def valueBehind (base value : Nat) (digits : List Nat) : Nat :=
  digits.foldl (fun value digit => value * base + digit) value

theorem value_behind_zero (base : Nat) (digits : List Nat) :
    valueBehind base 0 digits = Nat.ofDigits base digits.reverse := by
  rw [Nat.ofDigits_eq_foldr, List.foldr_reverse, valueBehind]
  congr 1
  funext value digit
  rw [Nat.cast_id, Nat.mul_comm, Nat.add_comm]

theorem le_value_behind (some : 0 < base) (value : Nat) (digits : List Nat) :
    value ≤ valueBehind base value digits := by
  induction digits generalizing value with
  | nil => exact Nat.le_refl value
  | cons digit digits ih =>
    have scaled := Nat.le_mul_of_pos_right value some
    have later := ih (value * base + digit)
    rw [valueBehind, List.foldl_cons, ← valueBehind]
    omega

/-- Digits of the base are read to their value, unless it is too large. Once a value is too large,
it stays so: further digits do not make it smaller. -/
theorem positional_value_eq {value : Nat} (spelled : List.Forall₂ (Denotes base) chars digits) (small : base ≤ 16)
    (fits : value < 2 ^ 64) :
    positionalValue base value chars =
      if valueBehind base value digits < 2 ^ 64 then .ok (valueBehind base value digits)
      else .error .integerTooLarge := by
  induction spelled generalizing value with
  | nil => rw [positionalValue, valueBehind, List.foldl_nil, if_pos fits]
  | @cons c digit chars digits denotes _ ih =>
    have below := denotes.1
    rw [positionalValue, denotes.value small, Option.getD_some, if_neg (by omega), valueBehind,
      List.foldl_cons, ← valueBehind]
    show (if 2 ^ 64 ≤ value * base + digit then _ else _) = _
    by_cases large : 2 ^ 64 ≤ value * base + digit
    · have later := le_value_behind (by omega : 0 < base) (value * base + digit) digits
      rw [if_pos large, if_neg (by omega)]
    · rw [if_neg large, ih (by omega)]

theorem digits_of_positional {value result : Nat} (hit : positionalValue base value chars = .ok result) :
    ∃ digits, List.Forall₂ (Denotes base) chars digits := by
  induction chars generalizing value with
  | nil => exact ⟨[], .nil⟩
  | cons c chars ih =>
    rw [positionalValue] at hit
    split at hit
    · cases hit
    · rename_i below
      split at hit
      · cases hit
      · obtain ⟨digits, spelled⟩ := ih hit
        cases value : digitValue? c with
        | none =>
          rw [value, Option.getD_none] at below
          exact absurd (Nat.le_refl base) below
        | some digit =>
          rw [value, Option.getD_some] at below
          exact ⟨digit :: digits, .cons ⟨by omega, (digit_value_iff.1 value).2⟩ spelled⟩

/-! ## Suffixes -/

theorem to_lower_of_list (chars : List Char) :
    (String.ofList chars).toLower = String.ofList (chars.map Char.toLower) := by
  rw [← String.toList_inj, String.toList_ofList]
  exact (String.toList_map ..).trans (by rw [String.toList_ofList])

theorem int_suffix_iff : intSuffix? (String.ofList rest) = some suffix ↔ IsSuffix rest suffix := by
  rw [intSuffix?, IsSuffix, to_lower_of_list]
  generalize String.ofList (rest.map Char.toLower) = word
  constructor
  · intro hit
    split at hit <;> cases hit <;> decide
  · intro member
    simp only [suffixTable, List.mem_cons, Prod.mk.injEq, List.not_mem_nil, or_false] at member
    rcases member with ⟨rfl, rfl⟩ | ⟨rfl, rfl⟩ | ⟨rfl, rfl⟩ | ⟨rfl, rfl⟩ | ⟨rfl, rfl⟩ | ⟨rfl, rfl⟩ |
      ⟨rfl, rfl⟩ | ⟨rfl, rfl⟩ <;> rfl

theorem IsSuffix.letters (suffixes : IsSuffix rest suffix) : ∀ c ∈ rest, c.toLower = 'u' ∨ c.toLower = 'l' := by
  have letters : suffixTable.all (fun entry => entry.1.toList.all fun c => c == 'u' || c == 'l') = true := by
    decide
  intro c member
  have word := List.all_eq_true.1 letters _ suffixes
  rw [String.toList_ofList] at word
  have letter := List.all_eq_true.1 word _ (List.mem_map_of_mem member)
  simpa using letter

/-- A letter of a suffix is neither a digit nor part of a floating literal. -/
theorem suffix_letter (letter : c.toLower = 'u' ∨ c.toLower = 'l') :
    digitValue? c = none ∧ c.isDigit = false ∧ c ∉ ['.', 'e', 'E', 'p', 'P'] := by
  have lower := to_lower_nat c
  have number : c.toLower.toNat = 117 ∨ c.toLower.toNat = 108 :=
    letter.imp (fun same => by rw [same]; rfl) (fun same => by rw [same]; rfl)
  refine ⟨?_, ?_, ?_⟩
  · rw [digit_value_eq]
    grind
  · rw [Bool.eq_false_iff, ne_eq, Char.isDigit_iff_toNat]
    show ¬ (48 ≤ c.toNat ∧ c.toNat ≤ 57)
    grind
  · intro member
    simp only [List.mem_cons, List.not_mem_nil, or_false] at member
    rcases member with rfl | rfl | rfl | rfl | rfl <;> revert letter <;> decide

theorem read_suffix_ok {read? : String → Option α} {unknown : String → NumericError} {suffix : α} :
    readSuffix read? unknown rest = .ok suffix ↔ read? (String.ofList rest) = some suffix := by
  rw [readSuffix]
  cases read? (String.ofList rest) with
  | none => simp
  | some meaning => simp

theorem read_suffix_iff : readSuffix intSuffix? .integerSuffix rest = .ok suffix ↔ IsSuffix rest suffix :=
  read_suffix_ok.trans int_suffix_iff

/-! ## Digits and suffixes -/

theorem cut_run {p : Char → Bool} {back : List Char} (run : ∀ c ∈ front, p c = true)
    (ends : ∀ c ∈ back.head?, p c = false) : cut p (front ++ back) = (front, back) := by
  rw [cut, List.takeWhile_append_of_pos run, List.dropWhile_append_of_pos run]
  cases back with
  | nil => simp
  | cons c back =>
    have stops := ends c rfl
    simp [stops]

/-- A body of digits and a suffix. Only octal digits may be missing. -/
structure IsBody (base : Nat) (body : List Char) (digits : List Nat) (suffix : IntSuffix) : Prop where
  split : ∃ chars rest, body = chars ++ rest ∧ List.Forall₂ (Denotes base) chars digits ∧
    IsSuffix rest suffix
  some : base = 8 ∨ digits ≠ []

theorem read_integer_eq {digits : List Char} (scan : cut (isScanned base) body = (digits, rest)) :
    readInteger base body =
      if digits.isEmpty && base != 8 then .error .noDigits
      else (positionalValue base 0 digits).bind fun value =>
        (readSuffix intSuffix? .integerSuffix rest).bind fun suffix =>
          .ok (.integer value base suffix) := by
  rw [isScanned] at scan
  rw [readInteger, scan]
  show (if (digits.isEmpty && base != 8) = true then _ else _) = _
  split
  · rfl
  · rfl

theorem read_integer_body (formed : IsBody base body digits suffix) (known : base = 16 ∨ base ≤ 10) :
    readInteger base body =
      if Nat.ofDigits base digits.reverse < 2 ^ 64 then
        .ok (.integer (Nat.ofDigits base digits.reverse) base suffix)
      else .error .integerTooLarge := by
  obtain ⟨chars, rest, rfl, spelled, suffixes⟩ := formed.split
  have run : ∀ c ∈ chars, isScanned base c = true := by
    intro c member
    obtain ⟨i, inside, rfl⟩ := List.mem_iff_getElem.1 member
    exact (spelled.get inside (spelled.length_eq ▸ inside)).scanned known
  have ends : ∀ c ∈ rest.head?, isScanned base c = false := by
    intro c first
    obtain ⟨value, digit, _⟩ := suffix_letter (suffixes.letters c (List.mem_of_mem_head? first))
    rw [isScanned]
    split
    · rw [isHexDigit, value, Option.isSome_none]
    · exact digit
  have found : (chars.isEmpty && base != 8) = false := by
    rcases formed.some with rfl | nonempty
    · exact Bool.and_false _
    · cases spelled with
      | nil => exact absurd rfl nonempty
      | cons _ _ => rfl
  rw [read_integer_eq (cut_run run ends), found, if_neg Bool.false_ne_true,
    positional_value_eq spelled (by omega) (by decide), value_behind_zero, read_suffix_iff.2 suffixes]
  split
  · rfl
  · rfl

theorem body_of_read {value : Numeric} (hit : readInteger base body = .ok value) :
    ∃ digits suffix, IsBody base body digits suffix := by
  rw [read_integer_eq rfl] at hit
  split at hit
  · cases hit
  · rename_i found
    cases read : positionalValue base 0 (body.takeWhile (isScanned base)) with
    | error fault =>
      rw [read] at hit
      cases hit
    | ok number =>
      cases suffixes : readSuffix intSuffix? .integerSuffix (body.dropWhile (isScanned base)) with
      | error fault =>
        rw [read, suffixes] at hit
        cases hit
      | ok suffix =>
        obtain ⟨digits, spelled⟩ := digits_of_positional read
        refine ⟨digits, suffix, ⟨_, _, List.takeWhile_append_dropWhile.symm, spelled, read_suffix_iff.1 suffixes⟩, ?_⟩
        refine or_iff_not_imp_left.2 fun other nothing => found ?_
        subst nothing
        rw [List.forall₂_nil_right_iff.1 spelled, List.isEmpty_nil, Bool.true_and]
        exact bne_iff_ne.2 other

/-! ## Literals -/

/-- The reading is no integer. -/
def NoInteger (read : Except NumericError Numeric) : Prop :=
  ∀ value base suffix, read ≠ .ok (.integer value base suffix)

theorem no_integer_error (fault : NumericError) : NoInteger (.error fault) := by
  intro value base suffix hit
  cases hit

theorem no_integer_bind (first : Except NumericError α) {next : α → Except NumericError Numeric}
    (later : ∀ a, NoInteger (next a)) : NoInteger (first >>= next) := by
  cases first with
  | error fault => exact no_integer_error fault
  | ok a => exact later a

theorem no_integer_floating (infinite : Bool) (value : Float) (suffix : FloatSuffix) :
    NoInteger (do
      if infinite then throw .floatingTooLarge
      return .floating value suffix) := by
  cases infinite with
  | true => exact no_integer_error _
  | false =>
    intro number base integer hit
    cases hit

theorem no_integer_unless (fails : Prop) [Decidable fails] (fault : NumericError)
    {next : Unit → Except NumericError Numeric} (later : NoInteger (next ())) :
    NoInteger (if fails then (throw fault >>= next) else next ()) := by
  split
  · exact no_integer_error fault
  · exact later

theorem decimal_float_no_integer (cs : List Char) : NoInteger (readDecimalFloat cs) := by
  rw [readDecimalFloat]
  rcases cutMantissa Char.isDigit cs with ⟨mantissa, rest⟩
  apply no_integer_unless
  dsimp only
  split <;>
    exact no_integer_bind _ fun _ => no_integer_bind _ fun _ => no_integer_floating _ _ _

theorem hex_float_no_integer (body : List Char) : NoInteger (readHexFloat body) := by
  rw [readHexFloat]
  rcases cutMantissa isHexDigit body with ⟨mantissa, rest⟩
  apply no_integer_unless
  dsimp only
  split <;>
    exact no_integer_bind _ fun _ => no_integer_unless _ _ (no_integer_bind _ fun _ =>
      no_integer_unless _ _ (no_integer_floating _ _ _))

/-- Digits and a suffix without a point or an exponent between them are no floating literal. -/
theorem not_decimal_float (digits : ∀ c ∈ front, c.isDigit = true) (suffixes : IsSuffix rest suffix) :
    isDecimalFloat (front ++ rest) = false := by
  rw [isDecimalFloat, List.dropWhile_append_of_pos digits]
  cases rest with
  | nil => rfl
  | cons c rest =>
    obtain ⟨_, digit, other⟩ := suffix_letter (suffixes.letters c List.mem_cons_self)
    simp only [List.mem_cons, List.not_mem_nil, or_false, not_or] at other
    simp [digit, other]

theorem spelled_chars (spelled : List.Forall₂ (Denotes base) chars digits) :
    ∀ c ∈ chars, ∃ digit, Denotes base c digit := by
  intro c member
  obtain ⟨i, inside, rfl⟩ := List.mem_iff_getElem.1 member
  exact ⟨_, spelled.get inside (spelled.length_eq ▸ inside)⟩

theorem read_hex_body (formed : IsBody 16 body digits suffix) : readChars.readHex body = readInteger 16 body := by
  obtain ⟨chars, rest, rfl, spelled, suffixes⟩ := formed.split
  have plain : ∀ c ∈ chars ++ rest, c ∉ ['.', 'p', 'P'] := by
    intro c member
    rcases List.mem_append.1 member with digit | letter
    · obtain ⟨digit, denotes⟩ := spelled_chars spelled c digit
      have value := denotes.value (Nat.le_refl 16)
      intro mark
      simp only [List.mem_cons, List.not_mem_nil, or_false] at mark
      rcases mark with rfl | rfl | rfl <;> cases value
    · obtain ⟨_, _, other⟩ := suffix_letter (suffixes.letters c letter)
      simp only [List.mem_cons, List.not_mem_nil, or_false, not_or] at other ⊢
      exact ⟨other.1, other.2.2.2⟩
  rw [readChars.readHex, if_neg]
  intro floats
  obtain ⟨c, member, mark⟩ := List.any_eq_true.1 floats
  exact plain c member (by simpa [or_assoc] using mark)

theorem read_chars_unmarked {tail : List Char} (digit : first.isDigit = true)
    (other : ∀ c ∈ tail.head?, c ∉ ['x', 'X', 'b', 'B']) :
    readChars (first :: tail) =
      if isDecimalFloat (first :: tail) then readDecimalFloat (first :: tail)
      else if first == '0' then readInteger 8 tail else readInteger 10 (first :: tail) := by
  rw [readChars, digit, if_neg (by simp)]
  all_goals
    rintro body - rfl
    exact other _ rfl (by decide)

/-- A literal in base eight or ten has no mark of another base, no point and no exponent. -/
theorem read_chars_plain (digits : ∀ c ∈ first :: front, c.isDigit = true) (suffixes : IsSuffix rest suffix) :
    readChars (first :: (front ++ rest)) =
      if first == '0' then readInteger 8 (front ++ rest)
      else readInteger 10 (first :: (front ++ rest)) := by
  have other : ∀ c ∈ (front ++ rest).head?, c ∉ ['x', 'X', 'b', 'B'] := by
    intro c second mark
    have member := List.mem_of_mem_head? second
    simp only [List.mem_cons, List.not_mem_nil, or_false] at mark
    rcases List.mem_append.1 member with digit | letter
    · have digit := digits c (List.mem_cons_of_mem _ digit)
      rcases mark with rfl | rfl | rfl | rfl <;> cases digit
    · have letter := suffixes.letters c letter
      rcases mark with rfl | rfl | rfl | rfl <;> revert letter <;> decide
  rw [read_chars_unmarked (digits first List.mem_cons_self) other, ← List.cons_append,
    not_decimal_float digits suffixes, if_neg Bool.false_ne_true]

theorem denotes_zero (denotes : Denotes base c 0) : c = '0' := by
  have lower := to_lower_nat c
  have place := (table_at (by decide : 0 < 16) _).1 denotes.2
  rw [← Char.toNat_inj]
  show c.toNat = 48
  grind

/-- An integer literal is read to its positional value, unless that is too large. -/
theorem read_chars_integer {text : List Char} (literal : IsInteger text base digits suffix) :
    readChars text =
      if Nat.ofDigits base digits.reverse < 2 ^ 64 then
        .ok (.integer (Nat.ofDigits base digits.reverse) base suffix)
      else .error .integerTooLarge := by
  obtain ⟨mark, chars, rest, rfl, marks, spelled, suffixes⟩ := literal
  have decimals (small : base ≤ 10) : ∀ c ∈ chars, c.isDigit = true := by
    intro c member
    obtain ⟨digit, denotes⟩ := spelled_chars spelled c member
    have scanned := denotes.scanned (.inr small)
    rwa [isScanned, if_neg (by omega)] at scanned
  cases marks with
  | hexadecimal letter some =>
    have formed : IsBody 16 (chars ++ rest) digits suffix := ⟨⟨_, _, rfl, spelled, suffixes⟩, .inr some⟩
    rw [← read_integer_body formed (.inl rfl), ← read_hex_body formed]
    rcases letter with rfl | rfl <;> rfl
  | binary letter some =>
    have formed : IsBody 2 (chars ++ rest) digits suffix := ⟨⟨_, _, rfl, spelled, suffixes⟩, .inr some⟩
    rw [← read_integer_body formed (.inr (by decide))]
    rcases letter with rfl | rfl <;> rfl
  | octal =>
    have formed : IsBody 8 (chars ++ rest) digits suffix := ⟨⟨_, _, rfl, spelled, suffixes⟩, .inl rfl⟩
    rw [← read_integer_body formed (.inr (by decide))]
    exact read_chars_plain (List.forall_mem_cons.2 ⟨rfl, decimals (by decide)⟩) suffixes
  | @decimal value more nonzero =>
    have formed : IsBody 10 (chars ++ rest) (value :: more) suffix :=
      ⟨⟨_, _, rfl, spelled, suffixes⟩, .inr (List.cons_ne_nil _ _)⟩
    rw [← read_integer_body formed (.inr (by decide))]
    obtain ⟨first, tail, denotes, -, rfl⟩ := List.forall₂_cons_right_iff.1 spelled
    have other : (first == '0') = false := by
      rw [beq_eq_false_iff_ne]
      rintro rfl
      exact nonzero (Option.some.inj (denotes.value (by decide))).symm
    rw [List.nil_append, List.cons_append, read_chars_plain (decimals (by decide)) suffixes, other,
      if_neg Bool.false_ne_true]

section Converse

variable {value base : Nat} {suffix : IntSuffix} {mark : Char}

theorem integer_of_body (mark body : List Char) {base' : Nat} (known : base' = 16 ∨ base' ≤ 10)
    (marks : ∀ digits, IsBody base' body digits suffix → Marks mark base' digits)
    (hit : readInteger base' body = .ok (.integer value base suffix)) :
    ∃ digits, IsInteger (mark ++ body) base digits suffix := by
  obtain ⟨digits, suffix', formed⟩ := body_of_read hit
  rw [read_integer_body formed known] at hit
  split at hit
  · cases hit
    obtain ⟨chars, rest, rfl, spelled, suffixes⟩ := formed.split
    exact ⟨digits, mark, chars, rest, (List.append_assoc ..).symm, marks digits formed, spelled, suffixes⟩
  · cases hit

theorem integer_of_hex (letter : mark = 'x' ∨ mark = 'X')
    (hit : readChars.readHex body = .ok (.integer value base suffix)) :
    ∃ digits, IsInteger ('0' :: mark :: body) base digits suffix := by
  rw [readChars.readHex] at hit
  split at hit
  · exact absurd hit (hex_float_no_integer body value base suffix)
  · exact integer_of_body ['0', mark] body (.inl rfl)
      (fun _ formed => .hexadecimal letter (formed.some.resolve_left (by decide))) hit

theorem integer_of_binary (letter : mark = 'b' ∨ mark = 'B')
    (hit : readInteger 2 body = .ok (.integer value base suffix)) :
    ∃ digits, IsInteger ('0' :: mark :: body) base digits suffix :=
  integer_of_body ['0', mark] body (.inr (by decide))
    (fun _ formed => .binary letter (formed.some.resolve_left (by decide))) hit

theorem integer_of_decimal {tail : List Char} (nonzero : first ≠ '0')
    (hit : readInteger 10 (first :: tail) = .ok (.integer value base suffix)) :
    ∃ digits, IsInteger (first :: tail) base digits suffix := by
  refine integer_of_body [] _ (.inr (by decide)) (fun digits formed => ?_) hit
  obtain ⟨chars, rest, text, spelled, _⟩ := formed.split
  cases spelled with
  | nil => exact absurd rfl (formed.some.resolve_left (by decide))
  | @cons c digit chars digits denotes =>
    cases text
    exact .decimal fun zero => nonzero (denotes_zero (zero ▸ denotes))

/-- A text that is read as an integer is an integer literal. -/
theorem integer_of_read {text : List Char} (hit : readChars text = .ok (.integer value base suffix)) :
    ∃ digits, IsInteger text base digits suffix := by
  revert hit
  fun_cases readChars text with
  | case1 => exact fun hit => absurd hit (no_integer_error _ value base suffix)
  | case2 => exact fun hit => absurd hit (no_integer_error _ value base suffix)
  | case3 => exact integer_of_hex (.inl rfl)
  | case4 => exact integer_of_hex (.inr rfl)
  | case5 => exact integer_of_binary (.inl rfl)
  | case6 => exact integer_of_binary (.inr rfl)
  | case7 first tail _ _ _ _ _ floats =>
    rw [if_pos floats]
    exact fun hit => absurd hit (decimal_float_no_integer _ value base suffix)
  | case8 first tail _ zero _ _ _ _ plain =>
    rw [if_neg plain, if_pos zero]
    cases eq_of_beq zero
    exact integer_of_body ['0'] tail (.inr (by decide)) fun _ _ => .octal
  | case9 first tail _ nonzero _ _ _ _ plain =>
    rw [if_neg plain, if_neg nonzero]
    exact integer_of_decimal fun zero => nonzero (beq_iff_eq.2 zero)

end Converse

/-- A text is read as an integer exactly if it is an integer literal whose positional value fits 64
bits, and then it is read to that value. A literal whose value does not fit is out of range: it is
refused, and never wrapped. -/
theorem read_integer_iff (text : String) :
    (∀ value base suffix, read text = .ok (.integer value base suffix) ↔
      ∃ digits, IsInteger text.toList base digits suffix ∧
        value = Nat.ofDigits base digits.reverse ∧ value < 2 ^ 64) ∧
    ∀ base digits suffix, IsInteger text.toList base digits suffix →
      2 ^ 64 ≤ Nat.ofDigits base digits.reverse →
        read text = .error .integerTooLarge ∧ NumericError.integerTooLarge.category = .outOfRange := by
  refine ⟨fun value base suffix => ⟨fun hit => ?_, ?_⟩, fun base digits suffix literal large => ?_⟩
  · obtain ⟨digits, literal⟩ := integer_of_read hit
    rw [read, read_chars_integer literal] at hit
    split at hit
    · rename_i fits
      cases hit
      exact ⟨digits, literal, rfl, fits⟩
    · cases hit
  · rintro ⟨digits, literal, rfl, fits⟩
    rw [read, read_chars_integer literal, if_pos fits]
  · exact ⟨by rw [read, read_chars_integer literal, if_neg (by omega)], rfl⟩

/-- The largest number that fits is read, its suffix in mixed letter case, and the next one is not. -/
theorem read_integer_iff_largest :
    IsInteger "0xFFFFffffFFFFffffuLL".toList 16 (List.replicate 16 15) ⟨true, .longLong⟩ ∧
      read "0xFFFFffffFFFFffffuLL" = .ok (.integer 18446744073709551615 16 ⟨true, .longLong⟩) ∧
      IsInteger "18446744073709551616".toList 10 [1, 8, 4, 4, 6, 7, 4, 4, 0, 7, 3, 7, 0, 9, 5, 5, 1, 6, 1, 6]
        ⟨false, .int⟩ ∧
      read "18446744073709551616" = .error .integerTooLarge := by
  have largest : IsInteger "0xFFFFffffFFFFffffuLL".toList 16 (List.replicate 16 15) ⟨true, .longLong⟩ :=
    ⟨"0x".toList, "FFFFffffFFFFffff".toList, "uLL".toList, by decide, .hexadecimal (.inl rfl) (by decide),
      by decide, by decide⟩
  have next : IsInteger "18446744073709551616".toList 10
      [1, 8, 4, 4, 6, 7, 4, 4, 0, 7, 3, 7, 0, 9, 5, 5, 1, 6, 1, 6] ⟨false, .int⟩ :=
    ⟨[], "18446744073709551616".toList, [], by decide, .decimal (by decide), by decide, by decide⟩
  exact ⟨largest, ((read_integer_iff _).1 _ _ _).2 ⟨_, largest, by decide, by decide⟩, next,
    ((read_integer_iff _).2 _ _ _ next (by decide)).1⟩

end AllocGuard.Numeric
