/-!
# White space

The characters with the Unicode property White_Space, and trimming by that
property.  Literals, text runs and zone names are all trimmed here, so no other
notion of white space occurs outside of markup and JSON, whose grammars name
their own four characters.
-/

namespace XmlRecords

/-- Recognise the characters with the Unicode property White_Space. -/
def isBlank (c : Char) : Bool :=
  let n := c.toNat
  (0x09 ≤ n && n ≤ 0x0D) || n == 0x20 || n == 0x85 || n == 0xA0 ||
    n == 0x1680 || (0x2000 ≤ n && n ≤ 0x200A) || n == 0x2028 ||
    n == 0x2029 || n == 0x202F || n == 0x205F || n == 0x3000

namespace Text

/-- Remove the white space at both ends of a list of characters. -/
def trimChars (text : List Char) : List Char :=
  ((text.dropWhile isBlank).reverse.dropWhile isBlank).reverse

theorem dropWhile_isBlank_eq_self {text : List Char}
    (first : ∀ c, text.head? = some c → isBlank c = false) :
    text.dropWhile isBlank = text := by
  cases text with
  | nil => rfl
  | cons c rest => rw [List.dropWhile_cons_of_neg (by simp [first c rfl])]

/-- A text without white space at its ends is left as it is. -/
theorem trimChars_eq_self {text : List Char}
    (first : ∀ c, text.head? = some c → isBlank c = false)
    (last : ∀ c, text.getLast? = some c → isBlank c = false) :
    trimChars text = text := by
  rw [trimChars, dropWhile_isBlank_eq_self first, dropWhile_isBlank_eq_self,
    List.reverse_reverse]
  simpa using last

/-- Remove the white space at both ends of a text. -/
def trim (text : String) : String :=
  String.ofList (trimChars text.toList)

/-- Recognise a text that holds nothing but white space. -/
def isAllBlank (text : String) : Bool :=
  text.toList.all isBlank

/-- Split at the first occurrence of a character, which belongs to neither
part. -/
def splitOnce (mark : Char) : List Char → Option (List Char × List Char)
  | [] => none
  | c :: rest =>
      if c = mark then some ([], rest)
      else (splitOnce mark rest).map fun (before, after) => (c :: before, after)

/-- The parts and the character between them make up the text. -/
theorem splitOnce_eq_append {mark : Char} {text before after : List Char}
    (split : splitOnce mark text = some (before, after)) :
    text = before ++ mark :: after := by
  induction text generalizing before with
  | nil => simp [splitOnce] at split
  | cons c rest ih =>
      rw [splitOnce] at split
      by_cases isMark : c = mark
      · rw [if_pos isMark] at split
        obtain ⟨rfl, rfl⟩ : [] = before ∧ rest = after := by
          simpa using split
        simp [isMark]
      · rw [if_neg isMark] at split
        obtain ⟨⟨front, back⟩, found, pair⟩ := Option.map_eq_some_iff.1 split
        obtain ⟨rfl, rfl⟩ : c :: front = before ∧ back = after := by
          simpa using pair
        simp [ih found]

end Text

end XmlRecords
