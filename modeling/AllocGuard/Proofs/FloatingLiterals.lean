import AllocGuard.Proofs.IntegerLiterals

/-! Floating literals as the language writes them: digits around a point, an exponent and a suffix,
in base ten or sixteen. A text is read as a floating number exactly if it is one of these and the
number is not too large for its type. A literal that is too large is refused as out of range, and no
floating literal is refused for its form or taken for an integer. -/
namespace AllocGuard.Numeric

variable {base : Nat} {negative pointed : Bool} {α : Type} {front cs power chars rest back : List Char}
  {number : Written} {m : Mantissa} {mark : Char} {whole fraction : List Nat} {exponent : Int} {suffix : FloatSuffix}

/-! ## The grammar -/

/-- The suffixes in small letters, and what each says. -/
def floatSuffixTable : List (String × FloatSuffix) :=
  [("", .double), ("f", .float), ("l", .longDouble), ("df", .decimal32), ("dd", .decimal64), ("dl", .decimal128)]

/-- The characters are a floating suffix that says this, in any letter case. -/
def IsFloatSuffix (rest : List Char) (suffix : FloatSuffix) : Prop :=
  (String.ofList (rest.map Char.toLower), suffix) ∈ floatSuffixTable

instance (rest : List Char) (suffix : FloatSuffix) : Decidable (IsFloatSuffix rest suffix) :=
  inferInstanceAs (Decidable (_ ∈ floatSuffixTable))

/-- Digits of the base with these values, at least one: those of the whole part, and those of the
fraction behind a point. Without a point there is no fraction. -/
inductive IsMantissa (base : Nat) : List Char → Bool → List Nat → List Nat → Prop
  | plain {chars : List Char} {whole : List Nat} (digits : List.Forall₂ (Denotes base) chars whole)
      (some : whole ≠ []) : IsMantissa base chars false whole []
  | pointed {front back : List Char} {whole fraction : List Nat}
      (before : List.Forall₂ (Denotes base) front whole)
      (behind : List.Forall₂ (Denotes base) back fraction) (some : whole ++ fraction ≠ []) :
      IsMantissa base (front ++ '.' :: back) true whole fraction

/-- The value of the digits of an exponent, below zero behind a minus sign. -/
def magnitude (negative : Bool) (digits : List Nat) : Int :=
  if negative then -(Nat.ofDigits 10 digits.reverse : Nat) else (Nat.ofDigits 10 digits.reverse : Nat)

/-- A sign, which may be left out, and decimal digits, at least one. -/
inductive IsExponent : List Char → Int → Prop
  | plain {chars : List Char} {digits : List Nat} (spelled : List.Forall₂ (Denotes 10) chars digits)
      (some : digits ≠ []) : IsExponent chars (magnitude false digits)
  | plus {chars : List Char} {digits : List Nat} (spelled : List.Forall₂ (Denotes 10) chars digits)
      (some : digits ≠ []) : IsExponent ('+' :: chars) (magnitude false digits)
  | minus {chars : List Char} {digits : List Nat} (spelled : List.Forall₂ (Denotes 10) chars digits)
      (some : digits ≠ []) : IsExponent ('-' :: chars) (magnitude true digits)

/-- The number that a floating literal writes: the digits of its whole part and of its fraction, and
the power of ten, or of two if it is hexadecimal, that they are multiplied with. -/
inductive Written where
  | decimal (whole fraction : List Nat) (exponent : Int)
  | hexadecimal (whole fraction : List Nat) (exponent : Int)

/-- The text is a floating literal of this number, with this suffix. A decimal one has a point or an
exponent, and a hexadecimal one has an exponent in any case. -/
inductive IsFloating : List Char → Written → FloatSuffix → Prop
  | point {front rest : List Char} {whole fraction : List Nat} {suffix : FloatSuffix}
      (mantissa : IsMantissa 10 front true whole fraction) (suffixes : IsFloatSuffix rest suffix) :
      IsFloating (front ++ rest) (.decimal whole fraction 0) suffix
  | exponent {front power rest : List Char} {mark : Char} {pointed : Bool}
      {whole fraction : List Nat} {exponent : Int} {suffix : FloatSuffix}
      (mantissa : IsMantissa 10 front pointed whole fraction) (letter : mark = 'e' ∨ mark = 'E')
      (signed : IsExponent power exponent) (suffixes : IsFloatSuffix rest suffix) :
      IsFloating (front ++ mark :: (power ++ rest)) (.decimal whole fraction exponent) suffix
  | hexadecimal {front power rest : List Char} {base mark : Char} {pointed : Bool}
      {whole fraction : List Nat} {exponent : Int} {suffix : FloatSuffix}
      (marked : base = 'x' ∨ base = 'X') (mantissa : IsMantissa 16 front pointed whole fraction)
      (letter : mark = 'p' ∨ mark = 'P') (signed : IsExponent power exponent)
      (suffixes : IsFloatSuffix rest suffix) :
      IsFloating ('0' :: base :: (front ++ mark :: (power ++ rest)))
        (.hexadecimal whole fraction exponent) suffix

/-- A number that is not infinite. -/
def finite (value : Float) : Except NumericError Float :=
  if value.isInf then .error .floatingTooLarge else .ok value

/-- The binary64 number that stands for the written one, if there is one. The digits of a
hexadecimal number are rounded one after the other. Its exponent has to fit 64 bits as it is
written, and 32 bits with the digits of the fraction counted in. -/
def Written.rounded : Written → Except NumericError Float
  | decimal whole fraction exponent =>
    finite (Binary64.ofDecimal (Nat.ofDigits 10 (whole ++ fraction).reverse) (whole ++ fraction).length
      (exponent - fraction.length))
  | hexadecimal whole fraction exponent =>
    let scale := exponent - 4 * fraction.length
    if 2 ^ 63 ≤ exponent.natAbs ∨ scale < -2 ^ 31 ∨ 2 ^ 31 ≤ scale then .error .exponentTooLarge
    else
      let digits := (whole ++ fraction).foldl (fun value digit => value * 16.0 + digit.toFloat) 0.0
      finite (digits * Binary64.powerOfTwo scale)

theorem Written.rounded_fault {fault : NumericError} (refused : number.rounded = .error fault) :
    fault.category = .outOfRange := by
  have infinite {value : Float} (refused : finite value = .error fault) :
      fault.category = .outOfRange := by
    rw [finite] at refused
    split at refused <;> cases refused
    rfl
  cases number with
  | decimal whole fraction exponent => exact infinite refused
  | hexadecimal whole fraction exponent =>
    rw [rounded] at refused
    split at refused
    · cases refused
      rfl
    · exact infinite refused

/-! ## Digits -/

theorem scanned_iff (known : base = 10 ∨ base = 16) {c : Char} :
    isScanned base c = true ↔ ∃ digit, Denotes base c digit := by
  refine ⟨fun scanned => ?_, fun ⟨digit, denotes⟩ => denotes.scanned (by omega)⟩
  rcases known with rfl | rfl
  · have range : 48 ≤ c.toNat ∧ c.toNat ≤ 57 := Char.isDigit_iff_toNat.1 scanned
    have value : digitValue? c = some (c.toNat - 48) := by rw [digit_value_eq, if_pos range]
    exact ⟨c.toNat - 48, by omega, (digit_value_iff.1 value).2⟩
  · obtain ⟨digit, value⟩ := Option.isSome_iff_exists.1 scanned
    exact ⟨digit, digit_value_iff.1 value⟩

/-- Characters that are taken for digits have values. -/
theorem digits_of_scanned (known : base = 10 ∨ base = 16) (scanned : ∀ c ∈ chars, isScanned base c = true) :
    ∃ digits, List.Forall₂ (Denotes base) chars digits := by
  induction chars with
  | nil => exact ⟨[], .nil⟩
  | cons c chars ih =>
    obtain ⟨first, others⟩ := List.forall_mem_cons.1 scanned
    obtain ⟨digit, denotes⟩ := (scanned_iff known).1 first
    obtain ⟨digits, spelled⟩ := ih others
    exact ⟨digit :: digits, .cons denotes spelled⟩

theorem scanned_of_digits (known : base = 10 ∨ base = 16) {digits : List Nat}
    (spelled : List.Forall₂ (Denotes base) chars digits) : ∀ c ∈ chars, isScanned base c = true :=
  fun c member => (scanned_iff known).2 (spelled_chars spelled c member)

theorem decimal_value_eq {value : Nat} {digits : List Nat} (spelled : List.Forall₂ (Denotes 10) chars digits) :
    decimalValue value chars = valueBehind 10 value digits := by
  induction spelled generalizing value with
  | nil => rfl
  | @cons c digit chars digits denotes _ ih =>
    rw [decimalValue, List.foldl_cons, ← decimalValue, denotes.value (by decide), Option.getD_some, ih,
      valueBehind, valueBehind, List.foldl_cons]

theorem hex_mantissa_eq {digits : List Nat} (spelled : List.Forall₂ (Denotes 16) chars digits) :
    hexMantissaValue chars = digits.foldl (fun value digit => value * 16.0 + digit.toFloat) 0.0 := by
  rw [hexMantissaValue]
  generalize (0.0 : Float) = value
  induction spelled generalizing value with
  | nil => rfl
  | @cons c digit chars digits denotes _ ih =>
    rw [List.foldl_cons, List.foldl_cons, denotes.value (by decide), Option.getD_some, ih]

/-! ## Mantissas -/

/-- The parts of a mantissa have digits with these values. -/
structure Mantissa.Holds (base : Nat) (m : Mantissa) (whole fraction : List Nat) : Prop where
  before : List.Forall₂ (Denotes base) m.whole whole
  behind : List.Forall₂ (Denotes base) m.fraction fraction
  some : whole ++ fraction ≠ []

theorem Mantissa.Holds.digits (holds : m.Holds base whole fraction) :
    List.Forall₂ (Denotes base) m.digits (whole ++ fraction) :=
  List.rel_append holds.before holds.behind

theorem Mantissa.Holds.found (holds : m.Holds base whole fraction) : m.digits.isEmpty = false := by
  have spelled := holds.digits
  cases written : m.digits with
  | nil =>
    rw [written] at spelled
    exact absurd (List.forall₂_nil_left_iff.1 spelled) holds.some
  | cons c rest => rfl

/-- A mantissa ends where its digits do. If it has no point, none may follow. -/
theorem cut_mantissa_eq (known : base = 10 ∨ base = 16) (mantissa : IsMantissa base front pointed whole fraction)
    (ends : ∀ c ∈ back.head?, isScanned base c = false ∧ (pointed = false → c ≠ '.')) :
    ∃ m, cutMantissa (isScanned base) (front ++ back) = (m, back) ∧ m.Holds base whole fraction := by
  have stops : ∀ c ∈ back.head?, isScanned base c = false := fun c first => (ends c first).1
  cases mantissa with
  | plain digits some =>
    have cuts := cut_run (scanned_of_digits known digits) stops
    have none : ∀ behind, back ≠ '.' :: behind := by
      rintro behind rfl
      exact (ends '.' rfl).2 rfl rfl
    refine ⟨⟨front, []⟩, ?_, digits, .nil, by rwa [List.append_nil]⟩
    rw [cutMantissa, cuts]
    dsimp only
    split
    · rename_i behind
      exact absurd rfl (none behind)
    · rfl
  | @pointed front' behind whole fraction before after some =>
    have point : isScanned base '.' = false := by
      rcases known with rfl | rfl <;> decide
    have cuts : cut (isScanned base) (front' ++ '.' :: (behind ++ back)) =
        (front', '.' :: (behind ++ back)) := by
      apply cut_run (scanned_of_digits known before)
      rintro c ⟨⟩
      exact point
    refine ⟨⟨front', behind⟩, ?_, before, after, some⟩
    rw [List.append_assoc, List.cons_append, cutMantissa, cuts]
    show (Mantissa.mk front' (cut _ (behind ++ back)).1, (cut _ (behind ++ back)).2) = _
    rw [cut_run (scanned_of_digits known after) stops]

theorem cut_scanned (p : Char → Bool) (cs : List Char) :
    (∀ c ∈ (cut p cs).1, p c = true) ∧ cs = (cut p cs).1 ++ (cut p cs).2 :=
  ⟨List.all_eq_true.1 List.all_takeWhile, List.takeWhile_append_dropWhile.symm⟩

/-- What is cut off as a mantissa is one, if it has a digit. -/
theorem mantissa_of_cut (known : base = 10 ∨ base = 16) (cuts : cutMantissa (isScanned base) cs = (m, rest))
    (found : m.digits.isEmpty = false) :
    ∃ front pointed whole fraction, cs = front ++ rest ∧
      IsMantissa base front pointed whole fraction ∧ m.Holds base whole fraction ∧
      (pointed = false → (cut (isScanned base) cs).2 = rest ∧ rest.head? ≠ some '.') := by
  obtain ⟨scanned, whole⟩ := cut_scanned (isScanned base) cs
  rw [cutMantissa] at cuts
  generalize cut (isScanned base) cs = parts at cuts scanned whole ⊢
  obtain ⟨front, behind⟩ := parts
  dsimp only at cuts scanned whole
  obtain ⟨digits, before⟩ := digits_of_scanned known scanned
  split at cuts
  · rename_i behind
    obtain ⟨scanned', fraction⟩ := cut_scanned (isScanned base) behind
    obtain ⟨digits', after⟩ := digits_of_scanned known scanned'
    cases cuts
    have some : digits ++ digits' ≠ [] := by
      intro nothing
      have spelled : List.Forall₂ (Denotes base) (front ++ (cut (isScanned base) behind).1)
          (digits ++ digits') := List.rel_append before after
      rw [nothing] at spelled
      rw [Mantissa.digits, List.forall₂_nil_right_iff.1 spelled] at found
      cases found
    refine ⟨front ++ '.' :: (cut (isScanned base) behind).1, true, digits, digits', ?_,
      .pointed before after some, ⟨before, after, some⟩, by simp⟩
    rw [whole, List.append_assoc, List.cons_append, ← fraction]
  · rename_i plain
    cases cuts
    have some : digits ≠ [] := by
      rintro rfl
      rw [Mantissa.digits, List.append_nil, List.forall₂_nil_right_iff.1 before] at found
      cases found
    refine ⟨front, false, digits, [], whole, .plain before some,
      ⟨before, .nil, by rwa [List.append_nil]⟩, fun _ => ⟨rfl, fun point => ?_⟩⟩
    obtain ⟨rest, rfl⟩ := List.head?_eq_some_iff.1 point
    exact plain rest rfl

/-! ## Exponents -/

/-- Digits, at least one, as an exponent with or without a minus sign. -/
def cutMagnitude (negative : Bool) (cs : List Char) : Except NumericError (Int × List Char) :=
  if (cut Char.isDigit cs).1.isEmpty then .error .emptyExponent
  else
    let size : Int := decimalValue 0 (cut Char.isDigit cs).1
    .ok (if negative then -size else size, (cut Char.isDigit cs).2)

theorem cut_exponent_cases (cs : List Char) :
    (∃ digits, cs = '-' :: digits ∧ cutExponent cs = cutMagnitude true digits) ∨
    (∃ digits, cs = '+' :: digits ∧ cutExponent cs = cutMagnitude false digits) ∨
    ((∀ c ∈ cs.head?, c ≠ '-' ∧ c ≠ '+') ∧ cutExponent cs = cutMagnitude false cs) := by
  by_cases minus : cs.head? = some '-'
  · obtain ⟨digits, rfl⟩ := List.head?_eq_some_iff.1 minus
    exact .inl ⟨digits, rfl, rfl⟩
  by_cases plus : cs.head? = some '+'
  · obtain ⟨digits, rfl⟩ := List.head?_eq_some_iff.1 plus
    exact .inr (.inl ⟨digits, rfl, rfl⟩)
  · refine .inr (.inr ⟨fun c first => ⟨?_, ?_⟩, ?_⟩)
    · rintro rfl
      exact minus first
    · rintro rfl
      exact plus first
    · rw [cutExponent]
      · rfl
      · rintro digits rfl
        exact minus rfl
      · rintro digits rfl
        exact plus rfl

theorem cut_magnitude_eq {digits : List Nat} (spelled : List.Forall₂ (Denotes 10) chars digits) (some : digits ≠ [])
    (ends : ∀ c ∈ back.head?, c.isDigit = false) :
    cutMagnitude negative (chars ++ back) = .ok (magnitude negative digits, back) := by
  have nonempty : chars.isEmpty = false := by
    cases spelled with
    | nil => exact absurd rfl some
    | cons _ _ => rfl
  have cuts : cut Char.isDigit (chars ++ back) = (chars, back) := cut_run (scanned_of_digits (.inl rfl) spelled) ends
  rw [cutMagnitude, cuts, nonempty, if_neg Bool.false_ne_true, magnitude, decimal_value_eq spelled, value_behind_zero]

theorem digits_of_magnitude (hit : cutMagnitude negative cs = .ok (exponent, back)) :
    ∃ chars digits, cs = chars ++ back ∧ List.Forall₂ (Denotes 10) chars digits ∧ digits ≠ [] ∧
      exponent = magnitude negative digits := by
  obtain ⟨scanned, whole⟩ := cut_scanned Char.isDigit cs
  rw [cutMagnitude] at hit
  split at hit
  · cases hit
  · rename_i nonempty
    obtain ⟨digits, spelled⟩ := digits_of_scanned (.inl rfl) scanned
    cases hit
    refine ⟨_, digits, whole, spelled, ?_, ?_⟩
    · rintro rfl
      rw [List.forall₂_nil_right_iff.1 spelled] at nonempty
      exact nonempty rfl
    · rw [magnitude, decimal_value_eq spelled, value_behind_zero]

/-- An exponent ends where its digits do. -/
theorem cut_exponent_eq (signed : IsExponent power exponent) (ends : ∀ c ∈ back.head?, c.isDigit = false) :
    cutExponent (power ++ back) = .ok (exponent, back) := by
  cases signed with
  | plus spelled some => exact cut_magnitude_eq spelled some ends
  | minus spelled some => exact cut_magnitude_eq spelled some ends
  | plain spelled some =>
    have unsigned : cutExponent (power ++ back) = cutMagnitude false (power ++ back) := by
      cases spelled with
      | nil => exact absurd rfl some
      | @cons c digit chars digits denotes others =>
        have scanned := (scanned_iff (.inl rfl)).2 ⟨digit, denotes⟩
        rcases cut_exponent_cases (c :: chars ++ back) with ⟨_, same, _⟩ | ⟨_, same, _⟩ | ⟨_, same⟩
        · cases same
          cases scanned
        · cases same
          cases scanned
        · exact same
    rw [unsigned]
    exact cut_magnitude_eq spelled some ends

theorem exponent_of_cut (hit : cutExponent cs = .ok (exponent, back)) :
    ∃ power, cs = power ++ back ∧ IsExponent power exponent := by
  rcases cut_exponent_cases cs with ⟨rest, rfl, same⟩ | ⟨rest, rfl, same⟩ | ⟨_, same⟩
  · obtain ⟨chars, digits, rfl, spelled, some, rfl⟩ := digits_of_magnitude (same ▸ hit)
    exact ⟨'-' :: chars, rfl, .minus spelled some⟩
  · obtain ⟨chars, digits, rfl, spelled, some, rfl⟩ := digits_of_magnitude (same ▸ hit)
    exact ⟨'+' :: chars, rfl, .plus spelled some⟩
  · obtain ⟨chars, digits, rfl, spelled, some, rfl⟩ := digits_of_magnitude (same ▸ hit)
    exact ⟨chars, rfl, .plain spelled some⟩

/-! ## Suffixes -/

theorem float_suffix_iff : floatSuffix? (String.ofList rest) = some suffix ↔ IsFloatSuffix rest suffix := by
  rw [floatSuffix?, IsFloatSuffix, to_lower_of_list]
  generalize String.ofList (rest.map Char.toLower) = word
  constructor
  · intro hit
    split at hit <;> cases hit <;> decide
  · intro member
    simp only [floatSuffixTable, List.mem_cons, Prod.mk.injEq, List.not_mem_nil, or_false] at member
    rcases member with ⟨rfl, rfl⟩ | ⟨rfl, rfl⟩ | ⟨rfl, rfl⟩ | ⟨rfl, rfl⟩ | ⟨rfl, rfl⟩ | ⟨rfl, rfl⟩ <;> rfl

theorem read_float_suffix_iff :
    readSuffix floatSuffix? .floatingSuffix rest = .ok suffix ↔ IsFloatSuffix rest suffix :=
  read_suffix_ok.trans float_suffix_iff

/-- A letter of a floating suffix ends a mantissa and an exponent. -/
theorem float_suffix_letter (suffixes : IsFloatSuffix rest suffix) :
    ∀ c ∈ rest.head?, c.isDigit = false ∧ c ∉ ['.', 'e', 'E'] := by
  have letters : floatSuffixTable.all
      (fun entry => entry.1.toList.all fun c => c == 'f' || c == 'l' || c == 'd') = true := by
    decide
  intro c first
  have word := List.all_eq_true.1 letters _ suffixes
  rw [String.toList_ofList] at word
  have letter := List.all_eq_true.1 word _ (List.mem_map_of_mem (List.mem_of_mem_head? first))
  simp only [Bool.or_eq_true, beq_iff_eq, or_assoc] at letter
  refine ⟨?_, fun member => ?_⟩
  · have lower := to_lower_nat c
    have number : c.toLower.toNat = 102 ∨ c.toLower.toNat = 108 ∨ c.toLower.toNat = 100 := by
      rcases letter with same | same | same <;> rw [same] <;> decide
    rw [Bool.eq_false_iff, ne_eq, Char.isDigit_iff_toNat]
    show ¬ (48 ≤ c.toNat ∧ c.toNat ≤ 57)
    grind
  · simp only [List.mem_cons, List.not_mem_nil, or_false] at member
    rcases member with rfl | rfl | rfl <;> revert letter <;> decide

/-! ## Numbers -/

theorem bind_ok {β : Type} {first : Except NumericError α} {next : α → Except NumericError β} {result : β}
    (hit : first.bind next = .ok result) : ∃ a, first = .ok a ∧ next a = .ok result := by
  cases first with
  | error fault => cases hit
  | ok a => exact ⟨a, rfl, hit⟩

theorem finite_bind (value : Float) (next : Float → Except NumericError α) :
    (finite value).bind next = if value.isInf then .error .floatingTooLarge else next value := by
  rw [finite]
  split <;> rfl

/-- The exponent of a decimal literal, which is zero if there is none. -/
def decimalExponent (rest : List Char) : Except NumericError (Int × List Char) :=
  match rest with
  | 'e' :: rest => cutExponent rest
  | 'E' :: rest => cutExponent rest
  | _ => .ok (0, rest)

/-- The exponent of a hexadecimal literal. -/
def binaryExponent (rest : List Char) : Except NumericError (Int × List Char) :=
  match rest with
  | 'p' :: rest => cutExponent rest
  | 'P' :: rest => cutExponent rest
  | _ => .error .noBinaryExponent

/-- What a decimal literal is read to, once its mantissa and its exponent are known. -/
def decimalTail (m : Mantissa) (exponent : Int) (rest : List Char) : Except NumericError Numeric :=
  (readSuffix floatSuffix? .floatingSuffix rest).bind fun suffix =>
    (finite (Binary64.ofDecimal (decimalValue 0 m.digits) m.digits.length
      (exponent - m.fraction.length))).bind fun value => .ok (.floating value suffix)

/-- What a hexadecimal literal is read to, once its mantissa and its exponent are known. -/
def hexTail (m : Mantissa) (exponent : Int) (rest : List Char) : Except NumericError Numeric :=
  if 2 ^ 63 ≤ exponent.natAbs then .error .exponentTooLarge
  else (readSuffix floatSuffix? .floatingSuffix rest).bind fun suffix =>
    let scale := exponent - 4 * m.fraction.length
    if scale < -2 ^ 31 ∨ 2 ^ 31 ≤ scale then .error .exponentTooLarge
    else (finite (hexMantissaValue m.digits * Binary64.powerOfTwo scale)).bind fun value =>
      .ok (.floating value suffix)

theorem read_decimal_float_eq (cuts : cutMantissa (isScanned 10) cs = (m, rest)) :
    readDecimalFloat cs =
      if m.digits.isEmpty then .error .noMantissa
      else (decimalExponent rest).bind fun (exponent, rest) => decimalTail m exponent rest := by
  have same : cutMantissa Char.isDigit cs = (m, rest) := cuts
  rw [readDecimalFloat, same]
  show (if m.digits.isEmpty = true then _ else _) = _
  simp only [decimalTail, finite_bind]
  split
  · rfl
  · fun_cases decimalExponent rest with
    | case1 rest => rfl
    | case2 rest => rfl
    | case3 _ small large =>
      split
      · exact (small _ rfl).elim
      · exact (large _ rfl).elim
      · rfl

theorem read_hex_float_eq {body : List Char} (cuts : cutMantissa (isScanned 16) body = (m, rest)) :
    readHexFloat body =
      if m.digits.isEmpty then .error .noHexDigits
      else (binaryExponent rest).bind fun (exponent, rest) => hexTail m exponent rest := by
  have same : cutMantissa isHexDigit body = (m, rest) := cuts
  rw [readHexFloat, same]
  show (if m.digits.isEmpty = true then _ else _) = _
  simp only [hexTail, finite_bind]
  split
  · rfl
  · fun_cases binaryExponent rest with
    | case1 rest => rfl
    | case2 rest => rfl
    | case3 _ small large =>
      split
      · exact (small _ rfl).elim
      · exact (large _ rfl).elim
      · rfl

theorem decimal_exponent_ok (hit : decimalExponent rest = .ok (exponent, back)) :
    (rest = back ∧ exponent = 0 ∧ ∀ c ∈ rest.head?, c ≠ 'e' ∧ c ≠ 'E') ∨
      ∃ mark power, (mark = 'e' ∨ mark = 'E') ∧ rest = mark :: (power ++ back) ∧
        IsExponent power exponent := by
  revert hit
  fun_cases decimalExponent rest with
  | case1 rest =>
    intro hit
    obtain ⟨power, rfl, signed⟩ := exponent_of_cut hit
    exact .inr ⟨'e', power, .inl rfl, rfl, signed⟩
  | case2 rest =>
    intro hit
    obtain ⟨power, rfl, signed⟩ := exponent_of_cut hit
    exact .inr ⟨'E', power, .inr rfl, rfl, signed⟩
  | case3 _ small large =>
    intro hit
    cases hit
    refine .inl ⟨rfl, rfl, fun c first => ?_⟩
    obtain ⟨tail, rfl⟩ := List.head?_eq_some_iff.1 first
    constructor
    · rintro rfl
      exact small tail rfl
    · rintro rfl
      exact large tail rfl

theorem binary_exponent_ok (hit : binaryExponent rest = .ok (exponent, back)) :
    ∃ mark power, (mark = 'p' ∨ mark = 'P') ∧ rest = mark :: (power ++ back) ∧
      IsExponent power exponent := by
  revert hit
  fun_cases binaryExponent rest with
  | case1 rest =>
    intro hit
    obtain ⟨power, rfl, signed⟩ := exponent_of_cut hit
    exact ⟨'p', power, .inl rfl, rfl, signed⟩
  | case2 rest =>
    intro hit
    obtain ⟨power, rfl, signed⟩ := exponent_of_cut hit
    exact ⟨'P', power, .inr rfl, rfl, signed⟩
  | case3 _ small large =>
    intro hit
    cases hit

/-! ## Literals are read -/

theorem decimal_tail_eq (holds : m.Holds 10 whole fraction) (suffixes : IsFloatSuffix rest suffix) :
    decimalTail m exponent rest =
      (Written.decimal whole fraction exponent).rounded.bind fun value => .ok (.floating value suffix) := by
  rw [decimalTail, read_float_suffix_iff.2 suffixes, decimal_value_eq holds.digits, value_behind_zero,
    holds.digits.length_eq, holds.behind.length_eq]
  rfl

theorem hex_tail_eq (holds : m.Holds 16 whole fraction) (suffixes : IsFloatSuffix rest suffix) :
    hexTail m exponent rest =
      (Written.hexadecimal whole fraction exponent).rounded.bind fun value =>
        .ok (.floating value suffix) := by
  rw [hexTail, read_float_suffix_iff.2 suffixes, hex_mantissa_eq holds.digits, holds.behind.length_eq,
    Written.rounded]
  by_cases large : 2 ^ 63 ≤ exponent.natAbs
  · rw [if_pos large, if_pos (.inl large)]
    rfl
  · rw [if_neg large]
    show (if _ then _ else _) = _
    dsimp only
    split
    · rename_i outside
      rw [if_pos (.inr outside)]
      rfl
    · rename_i inside
      rw [if_neg (not_or.2 ⟨large, inside⟩)]

/-- Digits with a point or the mark of an exponent behind them are read as a decimal number. -/
theorem read_chars_decimal {digits : List Char} (run : ∀ c ∈ digits, c.isDigit = true)
    (letter : mark ∈ ['.', 'e', 'E']) (starts : digits ≠ [] ∨ mark = '.') :
    readChars (digits ++ mark :: rest) = readDecimalFloat (digits ++ mark :: rest) := by
  simp only [List.mem_cons, List.not_mem_nil, or_false] at letter
  have floats : isDecimalFloat (digits ++ mark :: rest) = true := by
    rw [isDecimalFloat, List.dropWhile_append_of_pos run]
    rcases letter with rfl | rfl | rfl <;> rfl
  cases digits with
  | nil =>
    cases starts.resolve_left (by simp)
    rw [List.nil_append] at floats ⊢
    rw [readChars, if_neg (by decide), if_pos floats]
    all_goals
      intro body zero
      cases zero
  | cons first more =>
    have other : ∀ c ∈ (more ++ mark :: rest).head?, c ∉ ['x', 'X', 'b', 'B'] := by
      intro c second member
      simp only [List.mem_cons, List.not_mem_nil, or_false] at member
      cases more with
      | nil =>
        cases second
        rcases letter with rfl | rfl | rfl <;> revert member <;> decide
      | cons next more =>
        cases second
        have digit := run c (by simp)
        rcases member with rfl | rfl | rfl | rfl <;> cases digit
    rw [List.cons_append] at floats ⊢
    rw [read_chars_unmarked (run first List.mem_cons_self) other, if_pos floats]

theorem read_chars_mantissa (mantissa : IsMantissa 10 front pointed whole fraction)
    (marked : pointed = false → ∃ mark tail, back = mark :: tail ∧ (mark = 'e' ∨ mark = 'E')) :
    readChars (front ++ back) = readDecimalFloat (front ++ back) := by
  cases mantissa with
  | plain digits some =>
    obtain ⟨mark, tail, rfl, letter⟩ := marked rfl
    refine read_chars_decimal (scanned_of_digits (.inl rfl) digits) ?_ (.inl ?_)
    · rcases letter with rfl | rfl <;> decide
    · rintro rfl
      exact some (List.forall₂_nil_left_iff.1 digits)
  | pointed before behind some =>
    rw [List.append_assoc, List.cons_append]
    exact read_chars_decimal (scanned_of_digits (.inl rfl) before) (by decide) (.inr rfl)

theorem read_decimal_float_written (mantissa : IsMantissa 10 front pointed whole fraction)
    (ends : ∀ c ∈ back.head?, c.isDigit = false ∧ (pointed = false → c ≠ '.'))
    (power : decimalExponent back = .ok (exponent, rest)) (suffixes : IsFloatSuffix rest suffix) :
    readDecimalFloat (front ++ back) =
      (Written.decimal whole fraction exponent).rounded.bind fun value => .ok (.floating value suffix) := by
  obtain ⟨m, cuts, holds⟩ := cut_mantissa_eq (.inl rfl) mantissa ends
  rw [read_decimal_float_eq cuts, holds.found, power]
  exact decimal_tail_eq holds suffixes

theorem read_hex_float_written (mantissa : IsMantissa 16 front pointed whole fraction)
    (letter : mark = 'p' ∨ mark = 'P') (signed : IsExponent power exponent) (suffixes : IsFloatSuffix rest suffix) :
    readHexFloat (front ++ mark :: (power ++ rest)) =
      (Written.hexadecimal whole fraction exponent).rounded.bind fun value =>
        .ok (.floating value suffix) := by
  have ends : ∀ c ∈ (mark :: (power ++ rest)).head?, isScanned 16 c = false ∧ (pointed = false → c ≠ '.') := by
    rintro c ⟨⟩
    rcases letter with rfl | rfl <;> exact ⟨by decide, fun _ => by decide⟩
  have power : binaryExponent (mark :: (power ++ rest)) = .ok (exponent, rest) := by
    have cuts := cut_exponent_eq signed fun c first => (float_suffix_letter suffixes c first).1
    rcases letter with rfl | rfl <;> exact cuts
  obtain ⟨m, cuts, holds⟩ := cut_mantissa_eq (.inr rfl) mantissa ends
  rw [read_hex_float_eq cuts, holds.found, power]
  exact hex_tail_eq holds suffixes

/-- A floating literal is read to its number, rounded. -/
theorem read_chars_floating {text : List Char} (literal : IsFloating text number suffix) :
    readChars text = number.rounded.bind fun value => .ok (.floating value suffix) := by
  cases literal with
  | @point front rest whole fraction suffix mantissa suffixes =>
    have ends := float_suffix_letter suffixes
    have none : decimalExponent rest = .ok (0, rest) := by
      rw [decimalExponent]
      all_goals
        rintro tail rfl
        exact (ends _ rfl).2 (by decide)
    rw [read_chars_mantissa mantissa (by simp)]
    exact read_decimal_float_written mantissa (fun c first => ⟨(ends c first).1, by simp⟩) none suffixes
  | @exponent front power rest mark pointed whole fraction exponent suffix mantissa letter signed suffixes =>
    have cuts := cut_exponent_eq signed fun c first => (float_suffix_letter suffixes c first).1
    rw [read_chars_mantissa mantissa fun _ => ⟨mark, _, rfl, letter⟩]
    refine read_decimal_float_written mantissa ?_ ?_ suffixes
    · rintro c ⟨⟩
      rcases letter with rfl | rfl <;> exact ⟨by decide, fun _ => by decide⟩
    · rcases letter with rfl | rfl <;> exact cuts
  | @hexadecimal front power rest base mark pointed whole fraction exponent suffix marked mantissa letter
      signed suffixes =>
    have floats : (front ++ mark :: (power ++ rest)).any (fun c => c == '.' || c == 'p' || c == 'P') = true :=
      List.any_eq_true.2 ⟨mark, by simp, by rcases letter with rfl | rfl <;> decide⟩
    have hex : readChars.readHex (front ++ mark :: (power ++ rest)) =
        readHexFloat (front ++ mark :: (power ++ rest)) := by
      rw [readChars.readHex, if_pos floats]
    rw [← read_hex_float_written mantissa letter signed suffixes, ← hex]
    rcases marked with rfl | rfl <;> rfl

/-! ## What is read is a literal -/

section Converse

variable {value : Float} {suffix : FloatSuffix}

theorem read_integer_no_floating (base : Nat) (body : List Char) :
    readInteger base body ≠ .ok (.floating value suffix) := by
  intro hit
  rw [read_integer_eq rfl] at hit
  split at hit
  · cases hit
  · obtain ⟨_, _, hit⟩ := bind_ok hit
    obtain ⟨_, _, hit⟩ := bind_ok hit
    cases hit

theorem suffix_of_decimal_tail (hit : decimalTail m exponent rest = .ok (.floating value suffix)) :
    IsFloatSuffix rest suffix := by
  obtain ⟨meaning, suffixes, hit⟩ := bind_ok hit
  obtain ⟨_, _, hit⟩ := bind_ok hit
  cases hit
  exact read_float_suffix_iff.1 suffixes

theorem suffix_of_hex_tail (hit : hexTail m exponent rest = .ok (.floating value suffix)) :
    IsFloatSuffix rest suffix := by
  rw [hexTail] at hit
  split at hit
  · cases hit
  · obtain ⟨meaning, suffixes, hit⟩ := bind_ok hit
    dsimp only at hit
    split at hit
    · cases hit
    · obtain ⟨_, _, hit⟩ := bind_ok hit
      cases hit
      exact read_float_suffix_iff.1 suffixes

theorem floating_of_decimal (floats : isDecimalFloat cs = true)
    (hit : readDecimalFloat cs = .ok (.floating value suffix)) : ∃ number, IsFloating cs number suffix := by
  obtain ⟨⟨m, rest⟩, cuts⟩ : ∃ parts, cutMantissa (isScanned 10) cs = parts := ⟨_, rfl⟩
  rw [read_decimal_float_eq cuts] at hit
  split at hit
  · cases hit
  · rename_i found
    obtain ⟨⟨exponent, back⟩, power, hit⟩ := bind_ok hit
    have suffixes := suffix_of_decimal_tail hit
    obtain ⟨front, pointed, whole, fraction, rfl, mantissa, _, plain⟩ :=
      mantissa_of_cut (.inl rfl) cuts (Bool.eq_false_iff.2 found)
    rcases decimal_exponent_ok power with ⟨rfl, rfl, unmarked⟩ | ⟨mark, power, letter, rfl, signed⟩
    · cases pointed with
      | true => exact ⟨_, .point mantissa suffixes⟩
      | false =>
        -- a literal without a point and an exponent would have been taken for an integer
        obtain ⟨same, point⟩ := plain rfl
        have first : rest.head?.any (fun c => c == '.' || c == 'e' || c == 'E') = true := by
          rw [← same]
          exact floats
        obtain ⟨c, first, mark⟩ := (Option.any_eq_true _ _).1 first
        have other := unmarked c first
        have dot : c ≠ '.' := by
          rintro rfl
          exact point first
        simp [other, dot] at mark
    · exact ⟨_, .exponent mantissa letter signed suffixes⟩

theorem floating_of_hex {base : Char} (marked : base = 'x' ∨ base = 'X') {body : List Char}
    (hit : readChars.readHex body = .ok (.floating value suffix)) :
    ∃ number, IsFloating ('0' :: base :: body) number suffix := by
  rw [readChars.readHex] at hit
  split at hit
  · obtain ⟨⟨m, rest⟩, cuts⟩ : ∃ parts, cutMantissa (isScanned 16) body = parts := ⟨_, rfl⟩
    rw [read_hex_float_eq cuts] at hit
    split at hit
    · cases hit
    · rename_i found
      obtain ⟨⟨exponent, back⟩, power, hit⟩ := bind_ok hit
      have suffixes := suffix_of_hex_tail hit
      obtain ⟨front, pointed, whole, fraction, rfl, mantissa, _⟩ :=
        mantissa_of_cut (.inr rfl) cuts (Bool.eq_false_iff.2 found)
      obtain ⟨mark, power, letter, rfl, signed⟩ := binary_exponent_ok power
      exact ⟨_, .hexadecimal marked mantissa letter signed suffixes⟩
  · exact absurd hit (read_integer_no_floating 16 body)

/-- A text that is read as a floating number is a floating literal. -/
theorem floating_of_read {text : List Char} (hit : readChars text = .ok (.floating value suffix)) :
    ∃ number, IsFloating text number suffix := by
  revert hit
  fun_cases readChars text with
  | case1 | case2 =>
    intro hit
    cases hit
  | case3 => exact floating_of_hex (.inl rfl)
  | case4 => exact floating_of_hex (.inr rfl)
  | case5 | case6 => exact fun hit => absurd hit (read_integer_no_floating 2 _)
  | case7 first tail _ _ _ _ _ floats =>
    rw [if_pos floats]
    exact floating_of_decimal floats
  | case8 first tail _ zero _ _ _ _ plain =>
    rw [if_neg plain, if_pos zero]
    exact fun hit => absurd hit (read_integer_no_floating 8 _)
  | case9 first tail _ nonzero _ _ _ _ plain =>
    rw [if_neg plain, if_neg nonzero]
    exact fun hit => absurd hit (read_integer_no_floating 10 _)

end Converse

/-- A text is read as a floating number exactly if it is a floating literal whose number can be
rounded, and then to that number and with the suffix that the literal has. Every other floating
literal is out of range: none is refused for its form, and none is an integer. -/
theorem read_floating_iff (text : String) :
    (∀ value suffix, read text = .ok (.floating value suffix) ↔
      ∃ number, IsFloating text.toList number suffix ∧ number.rounded = .ok value) ∧
    ∀ number suffix, IsFloating text.toList number suffix →
      (∃ value, read text = .ok (.floating value suffix)) ∨
        ∃ fault, read text = .error fault ∧ fault.category = .outOfRange := by
  refine ⟨fun value suffix => ⟨fun hit => ?_, ?_⟩, fun number suffix literal => ?_⟩
  · obtain ⟨number, literal⟩ := floating_of_read hit
    rw [read, read_chars_floating literal] at hit
    obtain ⟨rounded, rounds, same⟩ := bind_ok hit
    cases same
    exact ⟨number, literal, rounds⟩
  · rintro ⟨number, literal, rounds⟩
    rw [read, read_chars_floating literal, rounds]
    rfl
  · rw [read, read_chars_floating literal]
    cases rounds : number.rounded with
    | ok value => exact .inl ⟨value, rfl⟩
    | error fault => exact .inr ⟨fault, rfl, Written.rounded_fault rounds⟩

/-- A hexadecimal literal without a whole part is read, its suffix in mixed letter case, and a decimal
one that is too large is not. -/
theorem read_floating_iff_mixed :
    IsFloating "0x.Cp+1dF".toList (.hexadecimal [] [12] 1) .decimal32 ∧
      read "0x.Cp+1dF" = .ok (.floating 1.5 .decimal32) ∧
      IsFloating "1e999L".toList (.decimal [1] [] 999) .longDouble ∧
      ∃ fault, read "1e999L" = .error fault ∧ fault.category = .outOfRange := by
  have mixed : IsFloating "0x.Cp+1dF".toList (.hexadecimal [] [12] 1) .decimal32 :=
    @IsFloating.hexadecimal ".C".toList "+1".toList "dF".toList 'x' 'p' true [] [12] 1 .decimal32 (.inl rfl)
      (.pointed .nil (by decide) (by decide)) (.inl rfl)
      (.plus (by decide : List.Forall₂ (Denotes 10) ['1'] [1]) (by decide)) (by decide)
  have large : IsFloating "1e999L".toList (.decimal [1] [] 999) .longDouble :=
    @IsFloating.exponent "1".toList "999".toList "L".toList 'e' false [1] [] 999 .longDouble
      (.plain (by decide) (by decide)) (.inl rfl)
      (.plain (by decide : List.Forall₂ (Denotes 10) ['9', '9', '9'] [9, 9, 9]) (by decide)) (by decide)
  refine ⟨mixed, ((read_floating_iff _).1 _ _).2 ⟨_, mixed, rfl⟩, large, ?_⟩
  refine ((read_floating_iff _).2 _ _ large).resolve_left ?_
  rintro ⟨value, hit⟩
  have refused : (Written.decimal [1] [] 999).rounded = .error .floatingTooLarge := rfl
  rw [read, read_chars_floating large, refused] at hit
  cases hit

end AllocGuard.Numeric
