import XmlRecords.Proofs.JsonTokens

/-!
# The grammar of JSON

A text begins with a value, or with a part of one, and goes on with some rest: the
grammar says so as relations between the text and the rest.  A value is read from
the front of a text if the text begins with it, up to white space, and if it nests
no deeper than is allowed; and only then.  A number is read as far as it goes.
-/

namespace XmlRecords.Json

mutual

/-- The text begins with a value. -/
inductive Begins : List Char → Json → List Char → Prop where
  | null (rest : List Char) : Begins ("null".toList ++ rest) .null rest
  | bool (value : Bool) (rest : List Char) :
      Begins ((if value then "true" else "false").toList ++ rest) (.bool value)
        rest
  | number {n : Numeral} {value : Json} (valid : n.Valid)
      (means : n.value? = some value) (rest : List Char) :
      Begins (n.chars ++ rest) value rest
  | string {text word rest : List Char} (spelled : SpellsText text word rest) :
      Begins ('"' :: text) (.string (String.ofList word)) rest
  | emptyArray {text rest : List Char} (closed : Spaced text (']' :: rest)) :
      Begins ('[' :: text) (.array []) rest
  | array {text rest : List Char} {items : List Json}
      (inside : BeginsItems text items rest) :
      Begins ('[' :: text) (.array items) rest
  | emptyObject {text rest : List Char} (closed : Spaced text ('}' :: rest)) :
      Begins ('{' :: text) (.object []) rest
  | object {text rest : List Char} {members : List (String × Json)}
      (inside : BeginsMembers text members rest) :
      Begins ('{' :: text) (.object members) rest

/-- The text begins with items up to the end of their array. -/
inductive BeginsItems : List Char → List Json → List Char → Prop where
  | last {text start behind rest : List Char} {item : Json}
      (before : Spaced text start) (value : Begins start item behind)
      (closed : Spaced behind (']' :: rest)) : BeginsItems text [item] rest
  | more {text start behind next rest : List Char} {item : Json}
      {items : List Json} (before : Spaced text start)
      (value : Begins start item behind) (comma : Spaced behind (',' :: next))
      (others : BeginsItems next items rest) :
      BeginsItems text (item :: items) rest

/-- The text begins with members up to the end of their object. -/
inductive BeginsMembers :
    List Char → List (String × Json) → List Char → Prop where
  | last {text quoted word colon next start behind rest : List Char}
      {member : Json} (before : Spaced text ('"' :: quoted))
      (name : SpellsText quoted word colon)
      (between : Spaced colon (':' :: next)) (after : Spaced next start)
      (value : Begins start member behind)
      (closed : Spaced behind ('}' :: rest)) :
      BeginsMembers text [(String.ofList word, member)] rest
  | more {text quoted word colon next start behind further rest : List Char}
      {member : Json} {members : List (String × Json)}
      (before : Spaced text ('"' :: quoted))
      (name : SpellsText quoted word colon)
      (between : Spaced colon (':' :: next)) (after : Spaced next start)
      (value : Begins start member behind)
      (comma : Spaced behind (',' :: further))
      (others : BeginsMembers further members rest) :
      BeginsMembers text ((String.ofList word, member) :: members) rest

end

mutual

/-- A value ends where it does, whatever follows. -/
theorem Begins.append {text rest : List Char} {json : Json}
    (begins : Begins text json rest) (more : List Char) :
    Begins (text ++ more) json (rest ++ more) := by
  cases begins with
  | null rest => exact .null (rest ++ more)
  | bool value rest =>
      rw [List.append_assoc]
      exact .bool value (rest ++ more)
  | number valid means rest =>
      rw [List.append_assoc]
      exact .number valid means (rest ++ more)
  | string spelled => exact .string (spelled.append more)
  | emptyArray closed => exact .emptyArray (closed.append more)
  | array inside => exact .array (inside.append more)
  | emptyObject closed => exact .emptyObject (closed.append more)
  | object inside => exact .object (inside.append more)

theorem BeginsItems.append {text rest : List Char} {items : List Json}
    (begins : BeginsItems text items rest) (more : List Char) :
    BeginsItems (text ++ more) items (rest ++ more) := by
  cases begins with
  | last before value closed =>
      exact .last (before.append more) (value.append more) (closed.append more)
  | more before value comma others =>
      exact .more (before.append more) (value.append more) (comma.append more)
        (others.append more)

theorem BeginsMembers.append {text rest : List Char}
    {members : List (String × Json)} (begins : BeginsMembers text members rest)
    (more : List Char) : BeginsMembers (text ++ more) members (rest ++ more) := by
  cases begins with
  | last before name between after value closed =>
      exact .last (before.append more) (name.append more) (between.append more)
        (after.append more) (value.append more) (closed.append more)
  | more before name between after value comma others =>
      exact .more (before.append more) (name.append more) (between.append more)
        (after.append more) (value.append more) (comma.append more)
        (others.append more)

end

/-! ## What is read has the form of the grammar -/

theorem BeginsItems.spaced {text start rest : List Char} {items : List Json}
    (begins : BeginsItems start items rest) (before : Spaced text start) :
    BeginsItems text items rest := by
  cases begins with
  | last before' value closed => exact .last (before.trans before') value closed
  | more before' value comma others =>
      exact .more (before.trans before') value comma others

theorem BeginsMembers.spaced {text start rest : List Char}
    {members : List (String × Json)}
    (begins : BeginsMembers start members rest) (before : Spaced text start) :
    BeginsMembers text members rest := by
  cases begins with
  | last before' name between after value closed =>
      exact .last (before.trans before') name between after value closed
  | more before' name between after value comma others =>
      exact .more (before.trans before') name between after value comma others

/-- What is read in a number of steps is what the text begins with. -/
structure ReadsSoundly (fuel : Nat) : Prop where
  value : ∀ {depth : Nat} {text rest : List Char} {json : Json},
    readValue fuel depth text = some (json, rest) →
      ∃ start, Spaced text start ∧ Begins start json rest ∧ json.nesting ≤ depth
  items : ∀ {depth : Nat} {done : List Json} {text rest : List Char}
    {json : Json}, readItems fuel depth done text = some (json, rest) →
      ∃ items, json = .array (done.reverse ++ items) ∧
        BeginsItems text items rest ∧ nestingOfItems items ≤ depth
  members : ∀ {depth : Nat} {done : List (String × Json)}
    {text rest : List Char} {json : Json},
    readMembers fuel depth done text = some (json, rest) →
      ∃ members, json = .object (done.reverse ++ members) ∧
        BeginsMembers text members rest ∧ nestingOfMembers members ≤ depth

theorem readWord_eq_some {word : String} {value json : Json}
    {text rest : List Char} (read : readWord word value text = some (json, rest)) :
    json = value ∧ text = word.toList ++ rest := by
  rw [readWord] at read
  split at read
  · next found =>
      cases read
      obtain ⟨behind, rfl⟩ := List.isPrefixOf_iff_prefix.1 found
      refine ⟨rfl, ?_⟩
      rw [← String.length_toList, List.drop_left]
  · cases read

/-- A member that is read has a name, a colon and a value. -/
theorem exists_name_of_readMembers {fuel depth : Nat}
    {done : List (String × Json)} {text : List Char} {result : Json × List Char}
    (read : readMembers (fuel + 1) depth done text = some result) :
    ∃ quoted word colon next, Spaced text ('"' :: quoted) ∧
      SpellsText quoted word colon ∧ Spaced colon (':' :: next) ∧
        ((readValue fuel depth next).bind fun (value, rest) =>
          readMembersBehind fuel depth ((String.ofList word, value) :: done)
            rest) = some result := by
  have spaced := spaced_skipSpace text
  rw [readMembers] at read
  split at read
  · next quoted begins =>
      rw [begins] at spaced
      split at read
      · cases read
      · next name behind found =>
          obtain ⟨word, spelled, rfl⟩ := spellsText_of_readString found
          have colon := spaced_skipSpace behind
          split at read
          · next next isColon =>
              rw [isColon] at colon
              refine ⟨quoted, word, behind, next, spaced, spelled, colon, ?_⟩
              rw [← read]
              cases readValue fuel depth next <;> rfl
          · cases read
  · cases read

namespace ReadsSoundly

variable {fuel depth : Nat} {text rest : List Char} {json : Json}

/-- What is read as a value is one. -/
theorem exists_begins (sound : ReadsSoundly fuel)
    (read : readValue (fuel + 1) depth text = some (json, rest)) :
    ∃ start, Spaced text start ∧ Begins start json rest ∧
      json.nesting ≤ depth := by
  have spaced := spaced_skipSpace text
  rw [readValue] at read
  split at read
  · next tail begins =>
      rw [begins] at spaced
      obtain ⟨⟨s, rest'⟩, found, same⟩ := Option.map_eq_some_iff.1 read
      cases same
      obtain ⟨word, spelled, rfl⟩ := spellsText_of_readString found
      exact ⟨_, spaced, .string spelled, Nat.zero_le _⟩
  · next tail begins =>
      rw [begins] at spaced
      split at read
      · cases read
      · next depth =>
          have inner := spaced_skipSpace tail
          split at read
          · next closed =>
              cases read
              rw [closed] at inner
              exact ⟨_, spaced, .emptyArray inner, by simp [nesting, nestingOfItems]⟩
          · obtain ⟨items, rfl, begun, fits⟩ := sound.items read
            exact ⟨_, spaced, .array (begun.spaced inner), by
              simpa [nesting] using fits⟩
  · next tail begins =>
      rw [begins] at spaced
      split at read
      · cases read
      · next depth =>
          have inner := spaced_skipSpace tail
          split at read
          · next closed =>
              cases read
              rw [closed] at inner
              exact ⟨_, spaced, .emptyObject inner, by simp [nesting, nestingOfMembers]⟩
          · obtain ⟨members, rfl, begun, fits⟩ := sound.members read
            exact ⟨_, spaced, .object (begun.spaced inner), by
              simpa [nesting] using fits⟩
  · next tail begins =>
      rw [begins] at spaced
      obtain ⟨rfl, rfl⟩ := readWord_eq_some read
      exact ⟨_, spaced, .bool true rest, Nat.zero_le _⟩
  · next tail begins =>
      rw [begins] at spaced
      obtain ⟨rfl, rfl⟩ := readWord_eq_some read
      exact ⟨_, spaced, .bool false rest, Nat.zero_le _⟩
  · next tail begins =>
      rw [begins] at spaced
      obtain ⟨rfl, rfl⟩ := readWord_eq_some read
      exact ⟨_, spaced, .null rest, Nat.zero_le _⟩
  · obtain ⟨n, valid, means, same⟩ := exists_numeral_of_readNumber read
    rw [same] at spaced
    refine ⟨_, spaced, .number valid means rest, ?_⟩
    rw [nesting_of_isNumber (Numeral.isNumber_of_value? means)]
    exact Nat.zero_le depth

/-- What is read as the items of an array is some. -/
theorem exists_items (sound : ReadsSoundly fuel) {done : List Json}
    (read : readItems (fuel + 1) depth done text = some (json, rest)) :
    ∃ items, json = .array (done.reverse ++ items) ∧
      BeginsItems text items rest ∧ nestingOfItems items ≤ depth := by
  rw [readItems_succ] at read
  obtain ⟨⟨item, behind⟩, first, read⟩ := Option.bind_eq_some_iff.1 read
  obtain ⟨start, before, value, fits⟩ := sound.value first
  have spaced := spaced_skipSpace behind
  unfold readItemsBehind at read
  dsimp only at read
  split at read
  · next tail comma =>
      rw [comma] at spaced
      obtain ⟨items, rfl, begun, others⟩ := sound.items read
      exact ⟨item :: items, by simp, .more before value spaced begun,
        Nat.max_le.2 ⟨fits, others⟩⟩
  · next tail closed =>
      rw [closed] at spaced
      cases read
      exact ⟨[item], by simp, .last before value spaced,
        Nat.max_le.2 ⟨fits, Nat.zero_le _⟩⟩
  · cases read

/-- What is read as the members of an object is some. -/
theorem exists_members (sound : ReadsSoundly fuel)
    {done : List (String × Json)}
    (read : readMembers (fuel + 1) depth done text = some (json, rest)) :
    ∃ members, json = .object (done.reverse ++ members) ∧
      BeginsMembers text members rest ∧ nestingOfMembers members ≤ depth := by
  obtain ⟨quoted, word, colon, next, before, name, between, read⟩ :=
    exists_name_of_readMembers read
  obtain ⟨⟨member, behind⟩, first, read⟩ := Option.bind_eq_some_iff.1 read
  obtain ⟨start, after, value, fits⟩ := sound.value first
  have spaced := spaced_skipSpace behind
  unfold readMembersBehind at read
  dsimp only at read
  split at read
  · next tail comma =>
      rw [comma] at spaced
      obtain ⟨members, rfl, begun, others⟩ := sound.members read
      exact ⟨(String.ofList word, member) :: members, by simp,
        .more before name between after value spaced begun,
        Nat.max_le.2 ⟨fits, others⟩⟩
  · next tail closed =>
      rw [closed] at spaced
      cases read
      exact ⟨[(String.ofList word, member)], by simp,
        .last before name between after value spaced,
        Nat.max_le.2 ⟨fits, Nat.zero_le _⟩⟩
  · cases read

theorem succ (sound : ReadsSoundly fuel) : ReadsSoundly (fuel + 1) :=
  ⟨sound.exists_begins, sound.exists_items, sound.exists_members⟩

end ReadsSoundly

theorem readsSoundly (fuel : Nat) : ReadsSoundly fuel := by
  induction fuel with
  | zero =>
      constructor
      · intro _ _ _ _ read
        cases read
      · intro _ _ _ _ _ read
        cases read
      · intro _ _ _ _ _ read
        cases read
  | succ fuel ih => exact ih.succ

/-- Whatever is read stands at the front of the text, in the form of the grammar. -/
theorem exists_begins_of_read {text rest : List Char} {json : Json}
    (found : read text = some (json, rest)) :
    ∃ start, Spaced text start ∧ Begins start json rest ∧
      json.nesting ≤ maxNesting :=
  (readsSoundly _).value found

/-! ## What has the form of the grammar is read -/

mutual

/-- What begins with a value is longer than its rest. -/
theorem Begins.length_lt {text rest : List Char} {json : Json}
    (begins : Begins text json rest) : rest.length < text.length := by
  cases begins with
  | null =>
      rw [List.length_append]
      exact Nat.lt_add_of_pos_left (by decide)
  | bool value =>
      rw [List.length_append]
      cases value <;> exact Nat.lt_add_of_pos_left (by decide)
  | number valid =>
      have some := valid.length_pos
      rw [List.length_append]
      omega
  | string spelled =>
      have fewer := spelled.length_lt
      rw [List.length_cons]
      omega
  | emptyArray closed =>
      have fewer := closed.length_le
      simp only [List.length_cons] at fewer ⊢
      omega
  | array inside =>
      have fewer := inside.length_lt
      rw [List.length_cons]
      omega
  | emptyObject closed =>
      have fewer := closed.length_le
      simp only [List.length_cons] at fewer ⊢
      omega
  | object inside =>
      have fewer := inside.length_lt
      rw [List.length_cons]
      omega

theorem BeginsItems.length_lt {text rest : List Char} {items : List Json}
    (begins : BeginsItems text items rest) : rest.length < text.length := by
  cases begins with
  | last before value closed =>
      have fewer := before.length_le
      have fewer' := value.length_lt
      have fewer'' := closed.length_le
      rw [List.length_cons] at fewer''
      omega
  | more before value comma others =>
      have fewer := before.length_le
      have fewer' := value.length_lt
      have fewer'' := comma.length_le
      have fewest := others.length_lt
      rw [List.length_cons] at fewer''
      omega

theorem BeginsMembers.length_lt {text rest : List Char}
    {members : List (String × Json)}
    (begins : BeginsMembers text members rest) : rest.length < text.length := by
  cases begins with
  | last before name between after value closed =>
      have fewer := before.length_le
      have fewer' := name.length_lt
      have fewer'' := between.length_le
      have inner := after.length_le
      have inner' := value.length_lt
      have inner'' := closed.length_le
      rw [List.length_cons] at fewer fewer'' inner''
      omega
  | more before name between after value comma others =>
      have fewer := before.length_le
      have fewer' := name.length_lt
      have fewer'' := between.length_le
      have inner := after.length_le
      have inner' := value.length_lt
      have inner'' := comma.length_le
      have fewest := others.length_lt
      rw [List.length_cons] at fewer fewer'' inner''
      omega

end

/-- A value begins with a mark that neither is space nor closes an array. -/
theorem Begins.exists_eq_cons {text rest : List Char} {json : Json}
    (begins : Begins text json rest) :
    ∃ c more, text = c :: more ∧ isSpace c = false ∧ c ≠ ']' := by
  cases begins with
  | null => exact ⟨'n', _, rfl, by decide⟩
  | bool value => cases value <;> exact ⟨_, _, rfl, by decide⟩
  | number valid =>
      obtain ⟨c, more, spelled, digit⟩ := valid.exists_chars_eq_cons
      rw [spelled]
      refine ⟨c, _, rfl, isSpace_of_digit digit, ?_⟩
      rintro rfl
      rcases digit with digit | same
      · cases digit
      · cases same
  | string => exact ⟨'"', _, rfl, by decide⟩
  | emptyArray | array => exact ⟨'[', _, rfl, by decide⟩
  | emptyObject | object => exact ⟨'{', _, rfl, by decide⟩

theorem BeginsItems.exists_skipSpace_eq {text rest : List Char}
    {items : List Json} (begins : BeginsItems text items rest) :
    ∃ c more, skipSpace text = c :: more ∧ c ≠ ']' ∧
      BeginsItems (c :: more) items rest := by
  cases begins with
  | last before value closed =>
      obtain ⟨c, more, rfl, mark, opens⟩ := value.exists_eq_cons
      exact ⟨c, more, before.skipSpace_eq mark, opens,
        .last (.refl _) value closed⟩
  | more before value comma others =>
      obtain ⟨c, more, rfl, mark, opens⟩ := value.exists_eq_cons
      exact ⟨c, more, before.skipSpace_eq mark, opens,
        .more (.refl _) value comma others⟩

theorem BeginsMembers.exists_skipSpace_eq {text rest : List Char}
    {members : List (String × Json)} (begins : BeginsMembers text members rest) :
    ∃ more, skipSpace text = '"' :: more ∧
      BeginsMembers ('"' :: more) members rest := by
  cases begins with
  | last before name between after value closed =>
      exact ⟨_, before.skipSpace_eq rfl,
        .last (.refl _) name between after value closed⟩
  | more before name between after value comma others =>
      exact ⟨_, before.skipSpace_eq rfl,
        .more (.refl _) name between after value comma others⟩

theorem readWord_append (word : String) (value : Json) (rest : List Char) :
    readWord word value (word.toList ++ rest) = some (value, rest) := by
  rw [readWord, if_pos (List.isPrefixOf_iff_prefix.2 (List.prefix_append ..)),
    ← String.length_toList, List.drop_left]

theorem readValue_of_digit {fuel depth : Nat} {text more : List Char} {c : Char}
    (skipped : skipSpace text = c :: more) (digit : isDigit c ∨ c = '-') :
    readValue (fuel + 1) depth text = readNumber (c :: more) := by
  rw [readValue, skipped]
  rcases digit with digit | rfl
  · split <;> first | rfl | (next same => cases same; cases digit)
  · rfl

/-- A member is read by its name, a colon and its value. -/
theorem readMembers_of_name {fuel depth : Nat} {done : List (String × Json)}
    {text quoted word colon next : List Char}
    (before : Spaced text ('"' :: quoted))
    (name : SpellsText quoted word colon)
    (between : Spaced colon (':' :: next)) :
    readMembers (fuel + 1) depth done text =
      (readValue fuel depth next).bind fun (value, rest) =>
        readMembersBehind fuel depth ((String.ofList word, value) :: done)
          rest := by
  rw [readMembers, before.skipSpace_eq rfl]
  simp only [name.readString_length, between.skipSpace_eq rfl]
  cases readValue fuel depth next <;> rfl

/-- What the text begins with by the grammar is read, given the steps for it: two for
each character, since a value inside an array or an object is reached by way of the
items or members. -/
structure ReadsCompletely (fuel : Nat) : Prop where
  value : ∀ {depth : Nat} {text start rest : List Char} {json : Json},
    Spaced text start → Begins start json rest → 2 * text.length ≤ fuel →
      json.nesting ≤ depth → (json.isNumber → Text.Stops goesOn rest) →
        readValue fuel depth text = some (json, rest)
  items : ∀ {depth : Nat} {text rest : List Char} {items : List Json}
    (done : List Json), BeginsItems text items rest →
      2 * text.length + 1 ≤ fuel → nestingOfItems items ≤ depth →
        readItems fuel depth done text =
          some (.array (done.reverse ++ items), rest)
  members : ∀ {depth : Nat} {text rest : List Char}
    {members : List (String × Json)} (done : List (String × Json)),
      BeginsMembers text members rest → 2 * text.length + 1 ≤ fuel →
        nestingOfMembers members ≤ depth →
          readMembers fuel depth done text =
            some (.object (done.reverse ++ members), rest)

namespace ReadsCompletely

variable {fuel depth : Nat} {text start rest : List Char} {json : Json}

/-- A value is read in one step more than what is inside it. -/
theorem reads_value (complete : ReadsCompletely fuel)
    (before : Spaced text start) (begins : Begins start json rest)
    (enough : 2 * text.length ≤ fuel + 1) (fits : json.nesting ≤ depth)
    (stops : json.isNumber → Text.Stops goesOn rest) :
    readValue (fuel + 1) depth text = some (json, rest) := by
  have shorter := before.length_le
  obtain ⟨c, more, first, mark, _⟩ := begins.exists_eq_cons
  have skipped : skipSpace text = start := by
    rw [first] at before ⊢
    exact before.skipSpace_eq mark
  cases begins with
  | null =>
      rw [readValue, skipped]
      exact readWord_append "ull" .null rest
  | bool value =>
      rw [readValue, skipped]
      cases value with
      | false => exact readWord_append "alse" (.bool false) rest
      | true => exact readWord_append "rue" (.bool true) rest
  | number valid means =>
      obtain ⟨c', more', spelled, digit⟩ := valid.exists_chars_eq_cons
      rw [spelled, List.cons_append] at skipped
      rw [readValue_of_digit skipped digit, ← List.cons_append, ← spelled]
      exact valid.readNumber means (stops (Numeral.isNumber_of_value? means))
  | string spelled =>
      rw [readValue, skipped]
      simp only [spelled.readString_length, Option.map_some]
  | emptyArray closed =>
      cases depth with
      | zero => simp [nesting] at fits
      | succ depth =>
          rw [readValue, skipped]
          simp only [closed.skipSpace_eq rfl]
  | @array inner _ items inside =>
      obtain ⟨c', more', skipped', opens, begun⟩ := inside.exists_skipSpace_eq
      have inner' := (spaced_skipSpace inner).length_le
      rw [List.length_cons] at shorter
      cases depth with
      | zero => simp [nesting] at fits
      | succ depth =>
          have found : readItems fuel depth [] (c' :: more') =
              some (.array items, rest) :=
            complete.items [] begun (by rw [← skipped']; omega)
              (by simpa [nesting] using fits)
          rw [readValue, skipped]
          simp only [skipped']
          split
          · next closes =>
              cases closes
              exact absurd rfl opens
          · exact found
  | emptyObject closed =>
      cases depth with
      | zero => simp [nesting] at fits
      | succ depth =>
          rw [readValue, skipped]
          simp only [closed.skipSpace_eq rfl]
  | @object inner _ members inside =>
      obtain ⟨more', skipped', begun⟩ := inside.exists_skipSpace_eq
      have inner' := (spaced_skipSpace inner).length_le
      rw [List.length_cons] at shorter
      cases depth with
      | zero => simp [nesting] at fits
      | succ depth =>
          rw [readValue, skipped]
          simp only [skipped']
          exact complete.members [] begun
            (by rw [← skipped']; omega) (by simpa [nesting] using fits)

/-- Items are read in one step more than the first. -/
theorem reads_items (complete : ReadsCompletely fuel) {items : List Json}
    (done : List Json) (begins : BeginsItems text items rest)
    (enough : 2 * text.length + 1 ≤ fuel + 1)
    (fits : nestingOfItems items ≤ depth) :
    readItems (fuel + 1) depth done text =
      some (.array (done.reverse ++ items), rest) := by
  cases begins with
  | last before value closed =>
      -- Behind a value inside an array, white space and a mark end every number.
      have first := complete.value before value (by omega)
        (Nat.max_le.1 fits).1 fun _ => closed.stops rfl
      rw [readItems_succ, first, Option.bind_some]
      unfold readItemsBehind
      simp only [closed.skipSpace_eq rfl, List.reverse_cons]
  | more before value comma others =>
      obtain ⟨fits, fits'⟩ := Nat.max_le.1 fits
      have first := complete.value before value (by omega) fits
        fun _ => comma.stops rfl
      have shorter := before.length_le
      have shorter' := value.length_lt
      have shorter'' := comma.length_le
      rw [List.length_cons] at shorter''
      rw [readItems_succ, first, Option.bind_some]
      unfold readItemsBehind
      simp only [comma.skipSpace_eq rfl]
      rw [complete.items _ others (by omega) fits', List.reverse_cons,
        List.append_assoc, List.singleton_append]

/-- Members are read in one step more than the value of the first. -/
theorem reads_members (complete : ReadsCompletely fuel)
    {members : List (String × Json)} (done : List (String × Json))
    (begins : BeginsMembers text members rest)
    (enough : 2 * text.length + 1 ≤ fuel + 1)
    (fits : nestingOfMembers members ≤ depth) :
    readMembers (fuel + 1) depth done text =
      some (.object (done.reverse ++ members), rest) := by
  cases begins with
  | last before name between after value closed =>
      have shorter := before.length_le
      have longer := name.length_lt
      have shorter' := between.length_le
      rw [List.length_cons] at shorter shorter'
      have first := complete.value after value (by omega)
        (Nat.max_le.1 fits).1 fun _ => closed.stops rfl
      rw [readMembers_of_name before name between, first, Option.bind_some]
      unfold readMembersBehind
      simp only [closed.skipSpace_eq rfl, List.reverse_cons]
  | more before name between after value comma others =>
      obtain ⟨fits, fits'⟩ := Nat.max_le.1 fits
      have shorter := before.length_le
      have longer := name.length_lt
      have shorter' := between.length_le
      have inner := after.length_le
      have inner' := value.length_lt
      have inner'' := comma.length_le
      rw [List.length_cons] at shorter shorter' inner''
      have first := complete.value after value (by omega) fits
        fun _ => comma.stops rfl
      rw [readMembers_of_name before name between, first, Option.bind_some]
      unfold readMembersBehind
      simp only [comma.skipSpace_eq rfl]
      rw [complete.members _ others (by omega) fits', List.reverse_cons,
        List.append_assoc, List.singleton_append]

theorem succ (complete : ReadsCompletely fuel) : ReadsCompletely (fuel + 1) :=
  ⟨complete.reads_value, complete.reads_items, complete.reads_members⟩

end ReadsCompletely

theorem readsCompletely (fuel : Nat) : ReadsCompletely fuel := by
  induction fuel with
  | zero =>
      constructor
      · intro _ _ _ _ _ before begins enough _ _
        have longer := begins.length_lt
        have shorter := before.length_le
        omega
      · intro _ _ _ _ _ _ enough
        cases enough
      · intro _ _ _ _ _ _ enough
        cases enough
  | succ fuel ih => exact ih.succ

/-- A value that the text begins with, up to white space, is read if it nests no
deeper than is allowed; a number is read unless it goes on. -/
theorem read_of_begins {text start rest : List Char} {json : Json}
    (before : Spaced text start) (begins : Begins start json rest)
    (fits : json.nesting ≤ maxNesting)
    (stops : json.isNumber → Text.Stops goesOn rest) :
    read text = some (json, rest) :=
  (readsCompletely _).value before begins (Nat.le_add_right ..) fits stops

/-- What is read is no different if more follows, unless it is a number. -/
theorem read_append {text rest : List Char} {json : Json}
    (found : read text = some (json, rest)) (noNumber : json.isNumber = false)
    (more : List Char) : read (text ++ more) = some (json, rest ++ more) := by
  obtain ⟨start, before, begins, fits⟩ := exists_begins_of_read found
  refine read_of_begins (before.append more) (begins.append more) fits ?_
  rw [noNumber]
  exact fun impossible => absurd impossible Bool.false_ne_true

end XmlRecords.Json
