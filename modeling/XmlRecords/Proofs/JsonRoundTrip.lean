import Mathlib.Tactic.SplitIfs
import XmlRecords.Json.Parser
import XmlRecords.Json.Printer

/-!
# JSON values read back

A value without numbers that is written, on one line or over several, is read back
as it was and whatever follows it is handed back, as long as its arrays and objects
nest no deeper than is read.  If they nest deeper, nothing is read.
-/

namespace XmlRecords.Json

mutual

/-- The levels of arrays and objects in a value. -/
def nesting : Json → Nat
  | .array items => nestingOfItems items + 1
  | .object members => nestingOfMembers members + 1
  | _ => 0

/-- The most levels of arrays and objects in one of several items. -/
def nestingOfItems : List Json → Nat
  | [] => 0
  | item :: items => max item.nesting (nestingOfItems items)

/-- The most levels of arrays and objects in the value of one of several
members. -/
def nestingOfMembers : List (String × Json) → Nat
  | [] => 0
  | (_, value) :: members => max value.nesting (nestingOfMembers members)

end

mutual

/-- Recognise values that hold no numbers. -/
def isUnnumbered : Json → Bool
  | .integer _ | .number _ => false
  | .array items => areUnnumbered items
  | .object members => holdUnnumbered members
  | _ => true

/-- Recognise items that hold no numbers. -/
def areUnnumbered : List Json → Bool
  | [] => true
  | item :: items => item.isUnnumbered && areUnnumbered items

/-- Recognise members whose values hold no numbers. -/
def holdUnnumbered : List (String × Json) → Bool
  | [] => true
  | (_, value) :: members => value.isUnnumbered && holdUnnumbered members

end

/-- The code of a control character is read back. -/
theorem readCode_control {c : Char} (control : c.toNat < 0x20)
    (more : List Char) :
    readCode ('0' :: '0' :: hexDigit (c.toNat / 16) :: hexDigit (c.toNat % 16) ::
      more) = some (c, more) := by
  have zero : hexValue? '0' = some 0 := rfl
  have high := hexValue?_hexDigit (c.toNat / 16) (by omega)
  have low := hexValue?_hexDigit (c.toNat % 16) (by omega)
  have code : 16 * (c.toNat / 16) + c.toNat % 16 = c.toNat := Nat.div_add_mod ..
  have digits : readHex4 ('0' :: '0' :: hexDigit (c.toNat / 16) ::
      hexDigit (c.toNat % 16) :: more) = some (c.toNat, more) := by
    simp [readHex4, zero, high, low, Nat.mul_comm _ 16, code]
  rw [readCode, digits]
  have notLow : ¬ 0xDC00 ≤ c.toNat := by omega
  have notHigh : ¬ 0xD800 ≤ c.toNat := by omega
  simp [notLow, notHigh]

/-- A character of a string is read back from its written form. -/
theorem readString_escapeChar (fuel : Nat) (done : List Char) (c : Char)
    (more : List Char) :
    readString (fuel + 1) done (escapeChar c ++ more) =
      readString fuel (c :: done) more := by
  unfold escapeChar
  split
  · next quote => subst quote; rfl
  split
  · next backslash => subst backslash; rfl
  split
  · next backspace => subst backspace; rfl
  split
  · next feed => subst feed; rfl
  split
  · next line => subst line; rfl
  split
  · next carriage => subst carriage; rfl
  split
  · next tab => subst tab; rfl
  split
  · next control =>
      have read := readCode_control control more
      simp only [List.cons_append, List.nil_append, readString, read]
  · next quote backslash _ _ _ _ _ control =>
      rw [List.singleton_append, readString.eq_def]
      simp [backslash, control]

theorem length_le_length_flatMap_escapeChar (text : List Char) :
    text.length ≤ (text.flatMap escapeChar).length := by
  induction text with
  | nil => exact Nat.le_refl 0
  | cons c rest ih =>
      have some : 1 ≤ (escapeChar c).length := by
        unfold escapeChar
        split_ifs <;> simp
      rw [List.flatMap_cons, List.length_append, List.length_cons]
      omega

/-- The rest of a string is read up to its closing quotation mark. -/
theorem readString_flatMap (text : List Char) {fuel : Nat} (done more : List Char)
    (enough : text.length < fuel) :
    readString fuel done (text.flatMap escapeChar ++ '"' :: more) =
      some (String.ofList (done.reverse ++ text), more) := by
  induction text generalizing fuel done with
  | nil =>
      obtain ⟨fuel, rfl⟩ := Nat.exists_eq_add_of_lt enough
      simp [readString]
  | cons c rest ih =>
      obtain ⟨fuel, rfl⟩ : ∃ more, fuel = more + 1 := ⟨fuel - 1, by omega⟩
      rw [List.flatMap_cons, List.append_assoc, readString_escapeChar,
        ih (c :: done) (by simpa using enough), List.reverse_cons,
        List.append_assoc, List.singleton_append]

/-- A quoted text is read back behind its opening quotation mark. -/
theorem readString_quote (text : String) (more : List Char) :
    ∃ inner, quote text ++ more = '"' :: inner ∧
      readString (inner.length + 1) [] inner = some (text, more) := by
  refine ⟨text.toList.flatMap escapeChar ++ '"' :: more, by simp [quote], ?_⟩
  have enough := length_le_length_flatMap_escapeChar text.toList
  rw [readString_flatMap text.toList [] more
    (by rw [List.length_append]; omega)]
  simp

theorem skipSpace_append {space : List Char} (blank : ∀ c ∈ space, isSpace c)
    (text : List Char) : skipSpace (space ++ text) = skipSpace text :=
  List.dropWhile_append_of_pos blank

theorem isSpace_newline (layout : Layout) (level : Nat) :
    ∀ c ∈ layout.newline level, isSpace c := by
  cases layout with
  | compact => simp [Layout.newline]
  | indented =>
      intro c member
      rcases List.mem_cons.1 member with rfl | member
      · rfl
      · rw [List.eq_of_mem_replicate member]
        rfl

/-- A written value begins with a mark that neither is space nor closes anything. -/
theorem exists_write_eq_cons (layout : Layout) (level : Nat) {value : Json}
    (unnumbered : value.isUnnumbered) :
    ∃ c more, write layout level value = c :: more ∧ isSpace c = false ∧
      c ≠ ']' ∧ c ≠ '}' := by
  cases value with
  | null => exact ⟨'n', "ull".toList, rfl, by decide⟩
  | bool value =>
      cases value with
      | true => exact ⟨'t', "rue".toList, rfl, by decide⟩
      | false => exact ⟨'f', "alse".toList, rfl, by decide⟩
  | integer value => cases unnumbered
  | number value => cases unnumbered
  | string value => exact ⟨'"', _, rfl, by decide⟩
  | array items =>
      cases items with
      | nil => exact ⟨'[', _, rfl, by decide⟩
      | cons item items => exact ⟨'[', _, rfl, by decide⟩
  | object members =>
      cases members with
      | nil => exact ⟨'{', _, rfl, by decide⟩
      | cons member members => exact ⟨'{', _, rfl, by decide⟩

/-- How an array goes on behind an item. -/
def readItemsBehind (fuel depth : Nat) (done : List Json) (text : List Char) :
    Option (Json × List Char) :=
  match skipSpace text with
  | ',' :: rest => readItems fuel depth done rest
  | ']' :: rest => some (.array done.reverse, rest)
  | _ => none

/-- How an object goes on behind a member. -/
def readMembersBehind (fuel depth : Nat) (done : List (String × Json))
    (text : List Char) : Option (Json × List Char) :=
  match skipSpace text with
  | ',' :: rest => readMembers fuel depth done rest
  | '}' :: rest => some (.object done.reverse, rest)
  | _ => none

theorem readItems_succ (fuel depth : Nat) (done : List Json) (text : List Char) :
    readItems (fuel + 1) depth done text =
      (readValue fuel depth text).bind fun (item, rest) =>
        readItemsBehind fuel depth (item :: done) rest := by
  rw [readItems]
  cases readValue fuel depth text <;> rfl

/-- A member is a quoted name, a colon and a value. -/
theorem readMembers_quote (fuel depth : Nat) (done : List (String × Json))
    {space : List Char} (blank : ∀ c ∈ space, isSpace c) (name : String)
    (layout : Layout) (text : List Char) :
    readMembers (fuel + 1) depth done
        (space ++ (quote name ++ (layout.colon ++ text))) =
      (readValue fuel depth (layout.colon.tail ++ text)).bind
        fun (value, rest) =>
          readMembersBehind fuel depth ((name, value) :: done) rest := by
  obtain ⟨inner, quoted, read⟩ := readString_quote name (layout.colon ++ text)
  have colon : skipSpace (layout.colon ++ text) =
      ':' :: (layout.colon.tail ++ text) := by
    cases layout <;> rfl
  have open' : skipSpace ('"' :: inner) = '"' :: inner := rfl
  rw [readMembers, skipSpace_append blank, quoted, open']
  simp only [read, colon]
  cases readValue fuel depth (layout.colon.tail ++ text) <;> rfl

theorem isSpace_colon_tail (layout : Layout) :
    ∀ c ∈ layout.colon.tail, isSpace c := by
  cases layout <;> simp [Layout.colon, isSpace]

/-- An array is read where its first item and what is behind it are. -/
theorem readItems_of_read {fuel depth : Nat} {done items : List Json}
    {item : Json} {text behind rest : List Char}
    (first : readValue fuel depth text =
      if item.nesting ≤ depth then some (item, behind) else none)
    (others : readItemsBehind fuel depth (item :: done) behind =
      if nestingOfItems items ≤ depth then
        some (.array ((item :: done).reverse ++ items), rest)
      else none) :
    readItems (fuel + 1) depth done text =
      if nestingOfItems (item :: items) ≤ depth then
        some (.array (done.reverse ++ item :: items), rest)
      else none := by
  rw [readItems_succ, first, nestingOfItems]
  simp only [Nat.max_le]
  by_cases fits : item.nesting ≤ depth
  · simp [fits, others]
  · simp [fits]

/-- An object is read where the value of its first member and what is behind it
are. -/
theorem readMembers_of_read {fuel depth : Nat}
    {done members : List (String × Json)} {value : Json} {space : List Char}
    (blank : ∀ c ∈ space, isSpace c) (name : String) (layout : Layout)
    {text behind rest : List Char}
    (first : readValue fuel depth (layout.colon.tail ++ text) =
      if value.nesting ≤ depth then some (value, behind) else none)
    (others : readMembersBehind fuel depth ((name, value) :: done) behind =
      if nestingOfMembers members ≤ depth then
        some (.object (((name, value) :: done).reverse ++ members), rest)
      else none) :
    readMembers (fuel + 1) depth done
        (space ++ (quote name ++ (layout.colon ++ text))) =
      if nestingOfMembers ((name, value) :: members) ≤ depth then
        some (.object (done.reverse ++ (name, value) :: members), rest)
      else none := by
  rw [readMembers_quote _ _ _ blank, first, nestingOfMembers]
  simp only [Nat.max_le]
  by_cases fits : value.nesting ≤ depth
  · simp [fits, others]
  · simp [fits]

/-- An array with items is read from in front of the first. -/
theorem readValue_open_array (fuel depth : Nat) {space more : List Char} {c : Char}
    (blank : ∀ c ∈ space, isSpace c) (mark : isSpace c = false)
    (inside : c ≠ ']') :
    readValue (fuel + 1) (depth + 1) ('[' :: (space ++ c :: more)) =
      readItems fuel depth [] (c :: more) := by
  have start : skipSpace ('[' :: (space ++ c :: more)) =
      '[' :: (space ++ c :: more) := rfl
  have first : skipSpace (space ++ c :: more) = c :: more := by
    rw [skipSpace_append blank, skipSpace, List.dropWhile_cons, mark]
    rfl
  rw [readValue, start]
  simp only [first]
  split
  · next closes =>
      cases closes
      exact absurd rfl inside
  · rfl

/-- An object with members is read from in front of the name of the first. -/
theorem readValue_open_object (fuel depth : Nat) {space : List Char}
    (blank : ∀ c ∈ space, isSpace c) (name : String) (text : List Char) :
    readValue (fuel + 1) (depth + 1) ('{' :: (space ++ (quote name ++ text))) =
      readMembers fuel depth [] (quote name ++ text) := by
  have start : skipSpace ('{' :: (space ++ (quote name ++ text))) =
      '{' :: (space ++ (quote name ++ text)) := rfl
  have first : skipSpace (space ++ (quote name ++ text)) =
      quote name ++ text := by
    rw [skipSpace_append blank]
    rfl
  rw [readValue, start]
  simp only [first]
  rfl

mutual

/-- A written value is read back if it nests no deeper than is allowed. -/
theorem readValue_write (layout : Layout) (level : Nat) (value : Json)
    (unnumbered : value.isUnnumbered) (fuel depth : Nat)
    {space : List Char} (blank : ∀ c ∈ space, isSpace c) (rest : List Char)
    (enough : (write layout level value).length ≤ fuel) :
    readValue fuel depth (space ++ (write layout level value ++ rest)) =
      if value.nesting ≤ depth then some (value, rest) else none := by
  obtain ⟨c, more, begins, mark, _⟩ :=
    exists_write_eq_cons layout level unnumbered
  obtain ⟨fuel, rfl⟩ : ∃ others, fuel = others + 1 := by
    rw [begins, List.length_cons] at enough
    exact ⟨fuel - 1, by omega⟩
  have skipped : readValue (fuel + 1) depth
      (space ++ (write layout level value ++ rest)) =
        readValue (fuel + 1) depth (write layout level value ++ rest) := by
    rw [readValue, readValue, skipSpace_append blank]
  rw [skipped]
  cases value with
  | null => rfl
  | bool value => cases value <;> rfl
  | integer value => cases unnumbered
  | number value => cases unnumbered
  | string value =>
      obtain ⟨inner, quoted, read⟩ := readString_quote value rest
      have first : skipSpace ('"' :: inner) = '"' :: inner := rfl
      rw [write, quoted, readValue, first]
      simp [read, nesting]
  | array items =>
      cases items with
      | nil => cases depth <;> rfl
      | cons item items =>
          cases depth with
          | zero => rfl
          | succ depth =>
              rw [isUnnumbered, areUnnumbered, Bool.and_eq_true] at unnumbered
              simp only [write, List.length_cons, List.length_append] at enough
              -- Two steps of fuel are taken before the first item is read; the two
              -- brackets make up for them.
              obtain ⟨fuel, rfl⟩ : ∃ others, fuel = others + 1 :=
                ⟨fuel - 1, by omega⟩
              obtain ⟨c, more, begins, mark, inside, _⟩ :=
                exists_write_eq_cons layout (level + 1) unnumbered.1
              have unspaced : ∀ c ∈ ([] : List Char), isSpace c := by simp
              have first := readValue_write layout (level + 1) item unnumbered.1
                fuel depth unspaced
                (writeItems layout (level + 1) items ++
                  (layout.newline level ++ ']' :: rest)) (by omega)
              have others := readItemsBehind_write layout (level + 1) items
                unnumbered.2 fuel depth [item]
                (isSpace_newline layout level) rest (by omega)
              simp only [write, List.cons_append, List.append_assoc,
                List.nil_append] at first ⊢
              rw [begins] at first ⊢
              rw [List.cons_append, readValue_open_array _ _
                (isSpace_newline layout (level + 1)) mark inside,
                ← List.cons_append, readItems_of_read first others, nesting]
              simp
  | object members =>
      cases members with
      | nil => cases depth <;> rfl
      | cons member members =>
          obtain ⟨name, value⟩ := member
          cases depth with
          | zero => rfl
          | succ depth =>
              rw [isUnnumbered, holdUnnumbered, Bool.and_eq_true] at unnumbered
              simp only [write, List.length_cons, List.length_append] at enough
              obtain ⟨fuel, rfl⟩ : ∃ others, fuel = others + 1 :=
                ⟨fuel - 1, by omega⟩
              have first := readValue_write layout (level + 1) value unnumbered.1
                fuel depth (isSpace_colon_tail layout)
                (writeMembers layout (level + 1) members ++
                  (layout.newline level ++ '}' :: rest)) (by omega)
              have others := readMembersBehind_write layout (level + 1) members
                unnumbered.2 fuel depth [(name, value)]
                (isSpace_newline layout level) rest (by omega)
              have unspaced : ∀ c ∈ ([] : List Char), isSpace c := by simp
              have read := readMembers_of_read unspaced name layout first others
              simp only [write, List.cons_append, List.append_assoc,
                List.nil_append] at read ⊢
              rw [readValue_open_object _ _ (isSpace_newline layout (level + 1)),
                read, nesting]
              simp

theorem readItemsBehind_write (layout : Layout) (level : Nat) (items : List Json)
    (unnumbered : areUnnumbered items) (fuel depth : Nat)
    (done : List Json) {space : List Char} (blank : ∀ c ∈ space, isSpace c)
    (rest : List Char)
    (enough : (writeItems layout level items).length ≤ fuel) :
    readItemsBehind fuel depth done
        (writeItems layout level items ++ (space ++ ']' :: rest)) =
      if nestingOfItems items ≤ depth then
        some (.array (done.reverse ++ items), rest)
      else none := by
  cases items with
  | nil =>
      rw [readItemsBehind, writeItems, List.nil_append, skipSpace_append blank]
      simp [skipSpace, isSpace, nestingOfItems]
  | cons item items =>
      rw [areUnnumbered, Bool.and_eq_true] at unnumbered
      simp only [writeItems, List.length_cons, List.length_append] at enough
      obtain ⟨fuel, rfl⟩ : ∃ others, fuel = others + 1 := ⟨fuel - 1, by omega⟩
      have first := readValue_write layout level item unnumbered.1
        fuel depth (isSpace_newline layout level)
        (writeItems layout level items ++ (space ++ ']' :: rest)) (by omega)
      have others := readItemsBehind_write layout level items unnumbered.2
        fuel depth (item :: done) blank rest (by omega)
      simp only [writeItems, List.cons_append, List.append_assoc]
      exact readItems_of_read first others

theorem readMembersBehind_write (layout : Layout) (level : Nat)
    (members : List (String × Json)) (unnumbered : holdUnnumbered members)
    (fuel depth : Nat) (done : List (String × Json))
    {space : List Char} (blank : ∀ c ∈ space, isSpace c) (rest : List Char)
    (enough : (writeMembers layout level members).length ≤ fuel) :
    readMembersBehind fuel depth done
        (writeMembers layout level members ++ (space ++ '}' :: rest)) =
      if nestingOfMembers members ≤ depth then
        some (.object (done.reverse ++ members), rest)
      else none := by
  cases members with
  | nil =>
      rw [readMembersBehind, writeMembers, List.nil_append,
        skipSpace_append blank]
      simp [skipSpace, isSpace, nestingOfMembers]
  | cons member members =>
      obtain ⟨name, value⟩ := member
      rw [holdUnnumbered, Bool.and_eq_true] at unnumbered
      simp only [writeMembers, List.length_cons, List.length_append] at enough
      obtain ⟨fuel, rfl⟩ : ∃ others, fuel = others + 1 := ⟨fuel - 1, by omega⟩
      have first := readValue_write layout level value unnumbered.1
        fuel depth (isSpace_colon_tail layout)
        (writeMembers layout level members ++ (space ++ '}' :: rest)) (by omega)
      have others := readMembersBehind_write layout level members unnumbered.2
        fuel depth ((name, value) :: done) blank rest (by omega)
      simp only [writeMembers, List.cons_append, List.append_assoc]
      exact readMembers_of_read (isSpace_newline layout level) name layout first
        others

end

/-- What is written is read back if it nests no deeper than is read, and is
refused otherwise. -/
theorem read_write (layout : Layout) {value : Json}
    (unnumbered : value.isUnnumbered) :
    read (write layout 0 value) =
      if value.nesting ≤ maxNesting then some (value, []) else none := by
  have unspaced : ∀ c ∈ ([] : List Char), isSpace c := by simp
  have written := readValue_write layout 0 value unnumbered
    (2 * (write layout 0 value).length + 2) maxNesting unspaced [] (by omega)
  simpa [read] using written

theorem read_pretty {value : Json} (unnumbered : value.isUnnumbered) :
    read value.pretty.toList =
      if value.nesting ≤ maxNesting then some (value, []) else none := by
  rw [pretty, String.toList_ofList]
  exact read_write .indented unnumbered

end XmlRecords.Json
