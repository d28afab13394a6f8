import XmlRecords.Proofs.JsonRoundTrip
import XmlRecords.Proofs.Spans

/-!
# White space, strings and numbers in JSON

The parts of a JSON value that have no parts of their own, by their written forms.
A string is read up to its closing quotation mark just as it is spelled, and a
number just if it has the form of one and cannot go on.
-/

namespace XmlRecords.Json

/-- The text is white space and then the rest. -/
def Spaced (text rest : List Char) : Prop :=
  ∃ space, (∀ c ∈ space, isSpace c) ∧ text = space ++ rest

/-- The text begins with a character of a string: as it is, by the letter of an
escape, by its code, or by the two codes of a surrogate pair. -/
inductive SpellsChar : List Char → Char → List Char → Prop where
  | plain {c : Char} (notQuote : c ≠ '"') (notEscape : c ≠ '\\')
      (printed : 0x20 ≤ c.toNat) (rest : List Char) :
      SpellsChar (c :: rest) c rest
  | letter {letter c : Char} (means : escaped? letter = some c)
      (rest : List Char) : SpellsChar ('\\' :: letter :: rest) c rest
  | code {text rest : List Char} {n : Nat}
      (digits : readHex4 text = some (n, rest))
      (single : ¬ (0xD800 ≤ n ∧ n ≤ 0xDFFF)) :
      SpellsChar ('\\' :: 'u' :: text) (Char.ofNat n) rest
  | pair {text between rest : List Char} {high low : Nat}
      (first : readHex4 text = some (high, '\\' :: 'u' :: between))
      (isHigh : 0xD800 ≤ high ∧ high ≤ 0xDBFF)
      (second : readHex4 between = some (low, rest))
      (isLow : 0xDC00 ≤ low ∧ low ≤ 0xDFFF) :
      SpellsChar ('\\' :: 'u' :: text)
        (Char.ofNat (0x10000 + (high - 0xD800) * 0x400 + (low - 0xDC00))) rest

/-- The text begins with the characters of a string up to its closing quotation
mark. -/
inductive SpellsText : List Char → List Char → List Char → Prop where
  | closed (rest : List Char) : SpellsText ('"' :: rest) [] rest
  | char {text between rest word : List Char} {c : Char}
      (first : SpellsChar text c between)
      (others : SpellsText between word rest) : SpellsText text (c :: word) rest

/-- The parts of a number as they are written: the fraction with its point, the
exponent with its letter. -/
structure Numeral where
  negative : Bool
  whole : List Char
  fraction : List Char
  exponent : List Char

/-- There are digits and nothing else. -/
def AreDigits (text : List Char) : Prop :=
  text ≠ [] ∧ ∀ c ∈ text, isDigit c

/-- The text is a point and digits, or nothing. -/
def IsFraction (text : List Char) : Prop :=
  text = [] ∨ ∃ digits, AreDigits digits ∧ text = '.' :: digits

/-- The text is the letter of an exponent, an optional sign and digits, or
nothing. -/
def IsExponent (text : List Char) : Prop :=
  text = [] ∨ ∃ e sign digits, (e = 'e' ∨ e = 'E') ∧
    (sign = [] ∨ sign = ['+'] ∨ sign = ['-']) ∧ AreDigits digits ∧
      text = e :: (sign ++ digits)

namespace Numeral

/-- The characters of a number. -/
def chars (n : Numeral) : List Char :=
  (if n.negative then ['-'] else []) ++ (n.whole ++ (n.fraction ++ n.exponent))

/-- The parts of a number have the right form, and no zero stands in front of other
digits. -/
structure Valid (n : Numeral) : Prop where
  whole : AreDigits n.whole
  unpadded : n.whole.head? = some '0' → n.whole = ['0']
  fraction : IsFraction n.fraction
  exponent : IsExponent n.exponent

/-- The number without its sign, if it has neither fraction nor exponent. -/
def size (n : Numeral) : Nat := Decimal.appendDigits 0 n.whole

/-- A number is kept as a whole number if it has 64 bits. -/
def isInteger (n : Numeral) : Bool :=
  n.fraction.isEmpty && n.exponent.isEmpty &&
    if n.negative then 0 < n.size && n.size ≤ 0x8000000000000000
    else n.size < 0x10000000000000000

/-- The value of a number, if it is finite. -/
def value? (n : Numeral) : Option Json :=
  if n.isInteger then some (.integer (if n.negative then -n.size else n.size))
  else do
    let decimal ← Decimal.read? (n.whole ++ n.fraction ++ n.exponent)
    let value : Binary64 := decimal.toBinary n.negative
    if value.isFinite then return .number value else none

end Numeral

/-! ## White space -/

theorem Spaced.refl (text : List Char) : Spaced text text :=
  ⟨[], by simp, rfl⟩

theorem spaced_skipSpace (text : List Char) : Spaced text (skipSpace text) :=
  ⟨text.takeWhile isSpace, List.all_eq_true.1 List.all_takeWhile,
    List.takeWhile_append_dropWhile.symm⟩

theorem Spaced.length_le {text rest : List Char} (spaced : Spaced text rest) :
    rest.length ≤ text.length := by
  obtain ⟨space, _, rfl⟩ := spaced
  simp

/-- White space is skipped up to a character that is none. -/
theorem Spaced.skipSpace_eq {text rest : List Char} {c : Char}
    (spaced : Spaced text (c :: rest)) (mark : isSpace c = false) :
    skipSpace text = c :: rest := by
  obtain ⟨space, blank, rfl⟩ := spaced
  rw [skipSpace_append blank, skipSpace, List.dropWhile_cons, mark]
  rfl

theorem Spaced.trans {first second third : List Char}
    (one : Spaced first second) (two : Spaced second third) :
    Spaced first third := by
  obtain ⟨space, blank, rfl⟩ := one
  obtain ⟨space', blank', rfl⟩ := two
  refine ⟨space ++ space', fun c among => ?_, (List.append_assoc ..).symm⟩
  exact (List.mem_append.1 among).elim (blank c) (blank' c)

theorem Spaced.append {text rest : List Char} (spaced : Spaced text rest)
    (more : List Char) : Spaced (text ++ more) (rest ++ more) := by
  obtain ⟨space, blank, rfl⟩ := spaced
  exact ⟨space, blank, List.append_assoc ..⟩

/-! ## Strings -/

theorem spellsChar_of_readCode {text rest : List Char} {c : Char}
    (read : readCode text = some (c, rest)) :
    SpellsChar ('\\' :: 'u' :: text) c rest := by
  rw [readCode] at read
  cases first : readHex4 text with
  | none => simp [first] at read
  | some result =>
      obtain ⟨high, between⟩ := result
      simp only [first, Option.bind_eq_bind, Option.bind_some, Bool.and_eq_true,
        decide_eq_true_eq] at read
      split at read
      · cases read
      · next notLow =>
          split at read
          · next isHigh =>
              split at read
              · next tail =>
                  cases second : readHex4 tail with
                  | none => simp [second] at read
                  | some result =>
                      obtain ⟨low, behind⟩ := result
                      simp only [second, Option.bind_some] at read
                      split at read
                      · next isLow =>
                          simp only [pure, Option.some.injEq, Prod.mk.injEq]
                            at read
                          obtain ⟨rfl, rfl⟩ := read
                          exact .pair first isHigh second isLow
                      · cases read
              · cases read
          · next notHigh =>
              cases read
              refine .code first ?_
              omega

theorem readCode_of_code {text rest : List Char} {n : Nat}
    (digits : readHex4 text = some (n, rest))
    (single : ¬ (0xD800 ≤ n ∧ n ≤ 0xDFFF)) :
    readCode text = some (Char.ofNat n, rest) := by
  have notLow : ¬ (0xDC00 ≤ n ∧ n ≤ 0xDFFF) := by omega
  have notHigh : ¬ (0xD800 ≤ n ∧ n ≤ 0xDBFF) := by omega
  simp [readCode, digits, notLow, notHigh]

theorem readCode_of_pair {text between rest : List Char} {high low : Nat}
    (first : readHex4 text = some (high, '\\' :: 'u' :: between))
    (isHigh : 0xD800 ≤ high ∧ high ≤ 0xDBFF)
    (second : readHex4 between = some (low, rest))
    (isLow : 0xDC00 ≤ low ∧ low ≤ 0xDFFF) :
    readCode text =
      some (Char.ofNat (0x10000 + (high - 0xD800) * 0x400 + (low - 0xDC00)),
        rest) := by
  have notLow : ¬ (0xDC00 ≤ high ∧ high ≤ 0xDFFF) := by omega
  simp [readCode, first, second, notLow, isHigh, isLow]

theorem length_readHex4 {text rest : List Char} {n : Nat}
    (digits : readHex4 text = some (n, rest)) :
    rest.length < text.length := by
  unfold readHex4 at digits
  split at digits
  · next a b c d tail =>
      obtain ⟨values, _, same⟩ := Option.bind_eq_some_iff.1 digits
      cases same
      simp only [List.length_cons]
      omega
  · cases digits

theorem readHex4_append {text rest : List Char} {n : Nat}
    (digits : readHex4 text = some (n, rest)) (more : List Char) :
    readHex4 (text ++ more) = some (n, rest ++ more) := by
  unfold readHex4 at digits
  split at digits
  · next a b c d tail =>
      obtain ⟨values, found, same⟩ := Option.bind_eq_some_iff.1 digits
      cases same
      exact Option.bind_eq_some_iff.2 ⟨values, found, rfl⟩
  · cases digits

theorem SpellsChar.append {text rest : List Char} {c : Char}
    (spelled : SpellsChar text c rest) (more : List Char) :
    SpellsChar (text ++ more) c (rest ++ more) := by
  cases spelled with
  | plain notQuote notEscape printed =>
      exact .plain notQuote notEscape printed _
  | letter means => exact .letter means _
  | code digits single => exact .code (readHex4_append digits more) single
  | pair first isHigh second isLow =>
      exact .pair (readHex4_append first more) isHigh
        (readHex4_append second more) isLow

/-- A string ends at its closing quotation mark, whatever follows. -/
theorem SpellsText.append {text rest word : List Char}
    (spelled : SpellsText text word rest) (more : List Char) :
    SpellsText (text ++ more) word (rest ++ more) := by
  induction spelled with
  | closed rest => exact .closed (rest ++ more)
  | char first _ ih => exact .char (first.append more) ih

theorem SpellsChar.length_lt {text rest : List Char} {c : Char}
    (spelled : SpellsChar text c rest) : rest.length < text.length := by
  cases spelled with
  | plain => simp
  | letter =>
      simp only [List.length_cons]
      omega
  | code digits single =>
      have fewer := length_readHex4 digits
      simp only [List.length_cons]
      omega
  | pair first _ second _ =>
      have fewer := length_readHex4 first
      have fewer' := length_readHex4 second
      simp only [List.length_cons] at fewer ⊢
      omega

/-- A string is longer in its written form, which its closing quotation mark ends. -/
theorem SpellsText.length_lt {text rest word : List Char}
    (spelled : SpellsText text word rest) :
    rest.length + word.length < text.length := by
  induction spelled with
  | closed => simp
  | char first _ ih =>
      have fewer := first.length_lt
      rw [List.length_cons]
      omega

/-- A character of a string is read. -/
theorem SpellsChar.readString {text rest : List Char} {c : Char}
    (spelled : SpellsChar text c rest) (fuel : Nat) (done : List Char) :
    readString (fuel + 1) done text = readString fuel (c :: done) rest := by
  cases spelled with
  | plain notQuote notEscape printed =>
      have notControl : ¬ c.toNat < 0x20 := Nat.not_lt_of_le printed
      rw [Json.readString.eq_def]
      simp [notEscape, notControl]
  | @letter letter _ means =>
      have notCode : letter ≠ 'u' := by
        rintro rfl
        cases means
      rw [Json.readString.eq_def]
      simp [means]
  | code digits single =>
      rw [Json.readString, readCode_of_code digits single]
  | pair first isHigh second isLow =>
      rw [Json.readString, readCode_of_pair first isHigh second isLow]

theorem SpellsText.readString {text rest word : List Char}
    (spelled : SpellsText text word rest) {fuel : Nat}
    (enough : word.length < fuel) (done : List Char) :
    readString fuel done text =
      some (String.ofList (done.reverse ++ word), rest) := by
  induction spelled generalizing fuel done with
  | closed rest =>
      obtain ⟨fuel, rfl⟩ := Nat.exists_eq_add_of_lt enough
      simp [Json.readString]
  | @char text between rest word c first _ ih =>
      obtain ⟨fuel, rfl⟩ : ∃ more, fuel = more + 1 := ⟨fuel - 1, by omega⟩
      rw [first.readString, ih (by simpa using enough), List.reverse_cons,
        List.append_assoc, List.singleton_append]

/-- A string is read in as many steps as there are characters, and one more. -/
theorem SpellsText.readString_length {text rest word : List Char}
    (spelled : SpellsText text word rest) :
    Json.readString (text.length + 1) [] text =
      some (String.ofList word, rest) := by
  have longer := spelled.length_lt
  exact spelled.readString (by omega) []

/-- What is read as a string is spelled up to its closing quotation mark. -/
theorem spellsText_of_readString {fuel : Nat} {done text rest : List Char}
    {s : String} (read : readString fuel done text = some (s, rest)) :
    ∃ word, SpellsText text word rest ∧
      s = String.ofList (done.reverse ++ word) := by
  induction fuel generalizing done text with
  | zero => cases read
  | succ fuel ih =>
      have later : ∀ {c : Char} {between : List Char},
          SpellsChar text c between →
          Json.readString fuel (c :: done) between = some (s, rest) →
          ∃ word, SpellsText text word rest ∧
            s = String.ofList (done.reverse ++ word) := by
        intro c between first others
        obtain ⟨word, spelled, rfl⟩ := ih others
        exact ⟨c :: word, .char first spelled, by simp⟩
      rw [Json.readString.eq_def] at read
      dsimp only at read
      split at read
      · cases read
      · cases read
        exact ⟨[], .closed rest, by simp⟩
      · split at read
        · next c between code => exact later (spellsChar_of_readCode code) read
        · cases read
      · split at read
        · next c means => exact later (.letter means _) read
        · cases read
      · next c tail notQuote _ _ =>
          split at read
          · cases read
          · next printed =>
              simp only [Bool.or_eq_true, decide_eq_true_eq, not_or] at printed
              refine later (.plain ?_ printed.1 (by omega) tail) read
              rintro rfl
              exact notQuote rfl

/-! ## Numbers -/

/-- Recognise the characters by which a number may go on. -/
def goesOn (c : Char) : Bool :=
  isDigit c || c == '.' || c == 'e' || c == 'E'

theorem stops_isDigit {rest : List Char} (stops : Text.Stops goesOn rest) :
    Text.Stops isDigit rest := by
  intro c first
  have other := stops c first
  simp only [goesOn, Bool.or_eq_false_iff] at other
  exact other.1.1.1

theorem areDigits_spanDigits {text digits rest : List Char}
    (spanned : Decimal.spanDigits text = (digits, rest)) :
    (∀ c ∈ digits, isDigit c) ∧ text = digits ++ rest := by
  cases spanned
  exact ⟨List.all_eq_true.1 List.all_takeWhile,
    List.takeWhile_append_dropWhile.symm⟩

theorem spanDigits_append {digits rest : List Char}
    (each : ∀ c ∈ digits, isDigit c) (stops : Text.Stops isDigit rest) :
    Decimal.spanDigits (digits ++ rest) = (digits, rest) := by
  rw [Decimal.spanDigits, Text.takeWhile_append_of_stops each stops,
    Text.dropWhile_append_of_stops each stops]

theorem isFraction_of_spanFraction {text fraction rest : List Char}
    (spanned : spanFraction text = some (fraction, rest)) :
    IsFraction fraction ∧ text = fraction ++ rest := by
  unfold spanFraction at spanned
  split at spanned
  · next tail =>
      split at spanned
      · cases spanned
      · next digits behind filled found =>
          cases spanned
          obtain ⟨each, rfl⟩ := areDigits_spanDigits found
          exact ⟨.inr ⟨digits, ⟨filled, each⟩, rfl⟩, rfl⟩
  · cases spanned
    exact ⟨.inl rfl, rfl⟩

theorem spanFraction_append {fraction rest : List Char}
    (isFraction : IsFraction fraction) (stops : Text.Stops isDigit rest)
    (pointless : Text.Stops (· == '.') rest) :
    spanFraction (fraction ++ rest) = some (fraction, rest) := by
  rcases isFraction with rfl | ⟨digits, ⟨filled, each⟩, rfl⟩
  · rw [List.nil_append, spanFraction.eq_def]
    split
    · next tail =>
        have point := pointless '.' rfl
        cases point
    · rfl
  · rw [List.cons_append, spanFraction, spanDigits_append each stops]
    cases digits with
    | nil => exact absurd rfl filled
    | cons => rfl

/-- Split off the sign of an exponent. -/
def splitSign (text : List Char) : List Char × List Char :=
  match text with
  | '+' :: tail => (['+'], tail)
  | '-' :: tail => (['-'], tail)
  | _ => ([], text)

theorem splitSign_eq {text sign digits : List Char}
    (split : splitSign text = (sign, digits)) :
    text = sign ++ digits ∧ (sign = [] ∨ sign = ['+'] ∨ sign = ['-']) := by
  unfold splitSign at split
  split at split <;> cases split <;> simp

theorem splitSign_append {sign digits : List Char}
    (isSign : sign = [] ∨ sign = ['+'] ∨ sign = ['-'])
    (areDigits : AreDigits digits) (rest : List Char) :
    splitSign (sign ++ (digits ++ rest)) = (sign, digits ++ rest) := by
  obtain ⟨filled, each⟩ := areDigits
  cases digits with
  | nil => exact absurd rfl filled
  | cons digit digits =>
      rcases isSign with rfl | rfl | rfl
      · have first := each digit List.mem_cons_self
        rw [List.nil_append, List.cons_append, splitSign]
        · intro tail same
          cases same
          cases first
        · intro tail same
          cases same
          cases first
      · rfl
      · rfl

/-- An exponent is its letter, a sign and digits. -/
theorem spanExponent_letter {e : Char} (letter : e = 'e' ∨ e = 'E')
    (text : List Char) :
    spanExponent (e :: text) =
      match Decimal.spanDigits (splitSign text).2 with
      | ([], _) => none
      | (digits, rest) =>
          some (e :: ((splitSign text).1 ++ digits), rest) := by
  unfold spanExponent
  dsimp only
  rw [if_pos (by simpa using letter)]
  rfl

theorem spanExponent_other {text : List Char}
    (stops : Text.Stops goesOn text) : spanExponent text = some ([], text) := by
  cases text with
  | nil => rfl
  | cons c rest =>
      have other := Text.stops_cons.1 stops
      simp only [goesOn, Bool.or_eq_false_iff, beq_eq_false_iff_ne] at other
      unfold spanExponent
      dsimp only
      rw [if_neg (by simp [other])]

theorem isExponent_of_spanExponent {text exponent rest : List Char}
    (spanned : spanExponent text = some (exponent, rest)) :
    IsExponent exponent ∧ text = exponent ++ rest := by
  cases text with
  | nil =>
      cases spanned
      exact ⟨.inl rfl, rfl⟩
  | cons e tail =>
      by_cases letter : e = 'e' ∨ e = 'E'
      · rw [spanExponent_letter letter] at spanned
        rcases signed : splitSign tail with ⟨sign, after⟩
        rw [signed] at spanned
        obtain ⟨rfl, isSign⟩ := splitSign_eq signed
        split at spanned
        · cases spanned
        · next digits behind filled found =>
            cases spanned
            obtain ⟨each, rfl⟩ := areDigits_spanDigits found
            exact ⟨.inr ⟨e, sign, digits, letter, isSign, ⟨filled, each⟩, rfl⟩,
              by simp⟩
      · unfold spanExponent at spanned
        dsimp only at spanned
        rw [if_neg (by simpa using letter)] at spanned
        cases spanned
        exact ⟨.inl rfl, rfl⟩

theorem spanExponent_append {exponent rest : List Char}
    (isExponent : IsExponent exponent) (stops : Text.Stops goesOn rest) :
    spanExponent (exponent ++ rest) = some (exponent, rest) := by
  rcases isExponent with
    rfl | ⟨e, sign, digits, letter, isSign, areDigits, rfl⟩
  · exact spanExponent_other stops
  · rw [List.cons_append, List.append_assoc, spanExponent_letter letter,
      splitSign_append isSign areDigits,
      spanDigits_append areDigits.2 (stops_isDigit stops)]
    cases digits with
    | nil => exact absurd rfl areDigits.1
    | cons => rfl

theorem stops_fraction_exponent {fraction exponent rest : List Char}
    (isFraction : IsFraction fraction) (isExponent : IsExponent exponent)
    (stops : Text.Stops goesOn rest) :
    Text.Stops isDigit (fraction ++ (exponent ++ rest)) ∧
      Text.Stops isDigit (exponent ++ rest) ∧
        Text.Stops (· == '.') (exponent ++ rest) := by
  have behind : Text.Stops isDigit (exponent ++ rest) ∧
      Text.Stops (· == '.') (exponent ++ rest) := by
    rcases isExponent with rfl | ⟨e, _, _, letter, _, _, rfl⟩
    · refine ⟨stops_isDigit stops, fun c first => ?_⟩
      have other := stops c first
      simp only [goesOn, Bool.or_eq_false_iff] at other
      exact other.1.1.2
    · rcases letter with rfl | rfl <;> simp [Text.stops_cons] <;> decide
  refine ⟨?_, behind⟩
  rcases isFraction with rfl | ⟨digits, _, rfl⟩
  · exact behind.1
  · exact Text.stops_cons.2 (by decide)

/-- Read a number behind its sign. -/
def readUnsigned (negative : Bool) (text : List Char) :
    Option (Json × List Char) :=
  let (whole, rest) := Decimal.spanDigits text
  if whole.isEmpty || (whole.head? == some '0' && whole.length != 1) then none
  else
    (spanFraction rest).bind fun (fraction, rest) =>
      (spanExponent rest).bind fun (exponent, rest) =>
        (Numeral.mk negative whole fraction exponent).value?.map (·, rest)

/-- Split off a minus sign. -/
def splitMinus (text : List Char) : Bool × List Char :=
  match text with
  | '-' :: rest => (true, rest)
  | _ => (false, text)

theorem readNumber_eq (text : List Char) :
    readNumber text =
      readUnsigned (splitMinus text).1 (splitMinus text).2 := by
  have opened : readNumber text = (do
      let (whole, rest) := Decimal.spanDigits (splitMinus text).2
      if whole.isEmpty || (whole.head? == some '0' && whole.length != 1) then
        none
      let (fraction, rest) ← spanFraction rest
      let (exponent, rest) ← spanExponent rest
      let n : Numeral := ⟨(splitMinus text).1, whole, fraction, exponent⟩
      if n.isInteger then
        return (.integer (if n.negative then -n.size else n.size), rest)
      else
        let decimal ← Decimal.read? (whole ++ fraction ++ exponent)
        let value : Binary64 := decimal.toBinary n.negative
        if value.isFinite then return (.number value, rest) else none) := rfl
  rw [opened, readUnsigned]
  rcases Decimal.spanDigits (splitMinus text).2 with ⟨whole, rest⟩
  dsimp only
  split
  · rfl
  · cases spanFraction rest with
    | none => rfl
    | some result =>
        obtain ⟨fraction, rest⟩ := result
        cases found : spanExponent rest with
        | none => simp [found]
        | some result =>
            obtain ⟨exponent, rest⟩ := result
            simp only [found, Option.bind_eq_bind, Option.bind_some,
              Numeral.value?]
            split
            · rfl
            · cases Decimal.read? (whole ++ fraction ++ exponent) with
              | none => rfl
              | some decimal =>
                  simp only [Option.bind_some]
                  split <;> rfl

/-- What is read as a number has the form of one. -/
theorem exists_numeral_of_readUnsigned {negative : Bool} {text rest : List Char}
    {value : Json} (read : readUnsigned negative text = some (value, rest)) :
    ∃ n : Numeral, n.Valid ∧ n.negative = negative ∧ n.value? = some value ∧
      text = n.whole ++ (n.fraction ++ (n.exponent ++ rest)) := by
  rw [readUnsigned] at read
  rcases spanned : Decimal.spanDigits text with ⟨whole, behind⟩
  obtain ⟨each, rfl⟩ := areDigits_spanDigits spanned
  rw [spanned] at read
  dsimp only at read
  split at read
  · cases read
  · next formed =>
      obtain ⟨⟨fraction, behind'⟩, found, read⟩ := Option.bind_eq_some_iff.1 read
      obtain ⟨⟨exponent, rest'⟩, found', read⟩ := Option.bind_eq_some_iff.1 read
      obtain ⟨value', means, same⟩ := Option.map_eq_some_iff.1 read
      cases same
      obtain ⟨isFraction, rfl⟩ := isFraction_of_spanFraction found
      obtain ⟨isExponent, rfl⟩ := isExponent_of_spanExponent found'
      simp only [Bool.or_eq_true, Bool.and_eq_true, not_or, not_and,
        List.isEmpty_iff, beq_iff_eq, bne_iff_ne, ne_eq, not_not] at formed
      refine ⟨⟨negative, whole, fraction, exponent⟩,
        ⟨⟨formed.1, each⟩, ?_, isFraction, isExponent⟩, rfl, means, by simp⟩
      intro zero
      obtain ⟨c, rfl⟩ := List.length_eq_one_iff.1 (formed.2 zero)
      cases zero
      rfl

/-- A number is read unless it could go on. -/
theorem Numeral.Valid.readUnsigned {n : Numeral} (valid : n.Valid)
    {rest : List Char} (stops : Text.Stops goesOn rest) :
    readUnsigned n.negative (n.whole ++ (n.fraction ++ (n.exponent ++ rest))) =
      n.value?.map (·, rest) := by
  obtain ⟨whole, unpadded, fraction, exponent⟩ := valid
  obtain ⟨first, second, third⟩ :=
    stops_fraction_exponent fraction exponent stops
  have formed : ¬ (n.whole.isEmpty ||
      (n.whole.head? == some '0' && n.whole.length != 1)) := by
    simp only [Bool.or_eq_true, Bool.and_eq_true, not_or, not_and,
      List.isEmpty_iff, beq_iff_eq, bne_iff_ne, ne_eq, not_not]
    exact ⟨whole.1, fun zero => by rw [unpadded zero]; rfl⟩
  rw [Json.readUnsigned, spanDigits_append whole.2 first]
  dsimp only
  rw [if_neg formed, spanFraction_append fraction second third, Option.bind_some,
    spanExponent_append exponent stops, Option.bind_some]

theorem splitMinus_eq {text rest : List Char} {negative : Bool}
    (split : splitMinus text = (negative, rest)) :
    text = (if negative then ['-'] else []) ++ rest := by
  unfold splitMinus at split
  split at split <;> cases split <;> rfl

/-- What is read as a number has the form of one. -/
theorem exists_numeral_of_readNumber {text rest : List Char} {value : Json}
    (read : readNumber text = some (value, rest)) :
    ∃ n : Numeral, n.Valid ∧ n.value? = some value ∧ text = n.chars ++ rest := by
  rw [readNumber_eq] at read
  rcases split : splitMinus text with ⟨negative, unsigned⟩
  rw [split] at read
  obtain ⟨n, valid, rfl, means, rfl⟩ := exists_numeral_of_readUnsigned read
  refine ⟨n, valid, means, ?_⟩
  rw [splitMinus_eq split, Numeral.chars]
  simp only [List.append_assoc]

namespace Numeral.Valid

variable {n : Numeral}

theorem splitMinus (valid : n.Valid) (rest : List Char) :
    splitMinus (n.chars ++ rest) =
      (n.negative, n.whole ++ (n.fraction ++ (n.exponent ++ rest))) := by
  obtain ⟨negative, whole, fraction, exponent⟩ := n
  cases negative with
  | true => simp [Numeral.chars, Json.splitMinus]
  | false =>
      obtain ⟨filled, each⟩ := valid.whole
      cases whole with
      | nil => exact absurd rfl filled
      | cons digit digits =>
          have first := each digit List.mem_cons_self
          have plain : digit ≠ '-' := by
            rintro rfl
            cases first
          simp only [Numeral.chars, Bool.false_eq_true, if_false,
            List.nil_append, List.cons_append, List.append_assoc]
          unfold Json.splitMinus
          split
          · next same =>
              cases same
              exact absurd rfl plain
          · rfl

theorem readNumber (valid : n.Valid) {value : Json}
    (means : n.value? = some value) {rest : List Char}
    (stops : Text.Stops goesOn rest) :
    readNumber (n.chars ++ rest) = some (value, rest) := by
  rw [readNumber_eq, valid.splitMinus, valid.readUnsigned stops, means]
  rfl

/-- A number begins with a digit or with a minus sign. -/
theorem exists_chars_eq_cons (valid : n.Valid) :
    ∃ c more, n.chars = c :: more ∧ (isDigit c ∨ c = '-') := by
  obtain ⟨negative, whole, fraction, exponent⟩ := n
  cases negative with
  | true => exact ⟨'-', _, rfl, .inr rfl⟩
  | false =>
      obtain ⟨filled, each⟩ := valid.whole
      cases whole with
      | nil => exact absurd rfl filled
      | cons digit digits =>
          exact ⟨digit, _, rfl, .inl (each digit List.mem_cons_self)⟩

end Numeral.Valid

theorem Numeral.Valid.length_pos {n : Numeral} (valid : n.Valid) :
    0 < n.chars.length := by
  obtain ⟨c, more, spelled, _⟩ := valid.exists_chars_eq_cons
  simp [spelled]

theorem isSpace_of_digit {c : Char} (digit : isDigit c ∨ c = '-') :
    isSpace c = false := by
  rcases digit with digit | rfl
  · rw [Bool.eq_false_iff]
    intro space
    simp only [isSpace, Bool.or_eq_true, beq_iff_eq] at space
    rcases space with ((rfl | rfl) | rfl) | rfl <;> cases digit
  · decide

/-- Where white space and a mark follow, no number goes on. -/
theorem Spaced.stops {text rest : List Char} {c : Char}
    (spaced : Spaced text (c :: rest)) (mark : goesOn c = false) :
    Text.Stops goesOn text := by
  obtain ⟨space, blank, rfl⟩ := spaced
  cases space with
  | nil => exact Text.stops_cons.2 mark
  | cons space more =>
      refine Text.stops_cons.2 ?_
      have first := blank space List.mem_cons_self
      simp only [isSpace, Bool.or_eq_true, beq_iff_eq] at first
      rcases first with ((rfl | rfl) | rfl) | rfl <;> decide

/-- Recognise numbers. -/
def isNumber : Json → Bool
  | .integer _ | .number _ => true
  | _ => false

theorem Numeral.isNumber_of_value? {n : Numeral} {value : Json}
    (means : n.value? = some value) : value.isNumber := by
  rw [value?] at means
  split at means
  · cases means
    rfl
  · obtain ⟨decimal, _, means⟩ := Option.bind_eq_some_iff.1 means
    dsimp only at means
    split at means
    · cases means
      rfl
    · cases means

theorem nesting_of_isNumber {value : Json} (number : value.isNumber) :
    value.nesting = 0 := by
  cases value <;> first | rfl | cases number

end XmlRecords.Json
