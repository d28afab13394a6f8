/-!
# File name patterns

A pattern is a text in which some characters stand for others: a question mark
for any one character, a star for any run of them, and a set in square brackets
for one character that is in the set, or is not in it if the set begins with an
exclamation mark.  Two stars in a row have to make up a whole part of a path and
stand for any number of directories.
-/

namespace XmlRecords

/-- Why a text is not a pattern. -/
inductive PatternFault where
  | wildcards (position : Nat)
  | deepWildcard (position : Nat)
  | characterSet (position : Nat)
  deriving DecidableEq, Repr

/-- The place of a pattern fault. -/
def PatternFault.position : PatternFault → Nat
  | .wildcards position => position
  | .deepWildcard position => position
  | .characterSet position => position

/-- The reason of a pattern fault. -/
def PatternFault.reason : PatternFault → String
  | .wildcards _ => "wildcards are either regular `*` or recursive `**`"
  | .deepWildcard _ =>
      "recursive wildcards must form a single path component"
  | .characterSet _ => "invalid range pattern"

/-- The wording of a pattern fault. -/
def PatternFault.message (fault : PatternFault) : String :=
  "Pattern syntax error near position " ++ toString fault.position ++ ": " ++
    fault.reason

/-- A set of characters as a list of ranges, each with both of its ends. -/
abbrev CharacterSet := List (Char × Char)

namespace CharacterSet

/-- Decide whether a character is in a set. -/
def contains (set : CharacterSet) (c : Char) : Bool :=
  set.any fun (first, last) => decide (first ≤ c) && decide (c ≤ last)

/-- Read the inside of square brackets. -/
def read : List Char → CharacterSet
  | first :: '-' :: last :: rest => (first, last) :: read rest
  | c :: rest => (c, c) :: read rest
  | [] => []

end CharacterSet

/-- A piece of a pattern.  `run` stands for any characters and `deep` for any
directories. -/
inductive Mark where
  | exactly (c : Char)
  | any
  | within (set : CharacterSet)
  | except (set : CharacterSet)
  | run
  | deep
  deriving DecidableEq, Repr

/-- The character that a piece stands for, if it stands for itself. -/
def Mark.plain? : Mark → Option Char
  | .exactly c => some c
  | _ => none

/-- A pattern as its pieces. -/
abbrev Pattern := List Mark

namespace Pattern

/-- Split a text at the first closing bracket behind its first character. -/
def splitSet? : List Char → Option (List Char × List Char)
  | [] => none
  | first :: rest =>
      match rest.dropWhile (· != ']') with
      | [] => none
      | _ :: behind => some (first :: rest.takeWhile (· != ']'), behind)

/-- What is behind a set is shorter than the text. -/
theorem length_lt_of_splitSet? {text inside behind : List Char}
    (split : splitSet? text = some (inside, behind)) :
    behind.length < text.length := by
  cases text with
  | nil => simp [splitSet?] at split
  | cons first rest =>
      have shorter := (List.dropWhile_suffix (l := rest) (· != ']')).length_le
      cases found : rest.dropWhile (· != ']') with
      | nil => simp [splitSet?, found] at split
      | cons bracket tail =>
          simp only [splitSet?, found, Option.some.injEq, Prod.mk.injEq] at split
          rw [found] at shorter
          obtain ⟨_, rfl⟩ := split
          simp only [List.length_cons] at shorter ⊢
          omega

/-- Read a pattern from a place on, behind the character in front of it. -/
def readFrom (position : Nat) (front : Option Char) (text : List Char) :
    Except PatternFault Pattern :=
  match text with
  | [] => .ok []
  | '?' :: rest => (readFrom (position + 1) (some '?') rest).map (.any :: ·)
  | '*' :: '*' :: '*' :: _ => .error (.wildcards (position + 2))
  | '*' :: '*' :: rest =>
      if front.isNone || front = some '/' then
        match rest with
        | [] => .ok [.deep]
        | '/' :: rest =>
            (readFrom (position + 3) (some '/') rest).map (.deep :: ·)
        | _ => .error (.deepWildcard (position + 2))
      else .error (.deepWildcard (position - 1))
  | '*' :: rest => (readFrom (position + 1) (some '*') rest).map (.run :: ·)
  | '[' :: '!' :: rest =>
      match _split : splitSet? rest with
      | none => .error (.characterSet position)
      | some (inside, behind) =>
          (readFrom (position + inside.length + 3) (some ']') behind).map
            (.except (.read inside) :: ·)
  | '[' :: rest =>
      match _split : splitSet? rest with
      | none => .error (.characterSet position)
      | some (inside, behind) =>
          (readFrom (position + inside.length + 2) (some ']') behind).map
            (.within (.read inside) :: ·)
  | c :: rest => (readFrom (position + 1) (some c) rest).map (.exactly c :: ·)
termination_by text.length
decreasing_by
  all_goals simp_wf
  · omega
  · have := length_lt_of_splitSet? _split
    omega
  · have := length_lt_of_splitSet? _split
    omega

/-- Read a pattern. -/
def read (text : String) : Except PatternFault Pattern :=
  readFrom 0 none text.toList

/-- The only text that a pattern of plain characters stands for. -/
def literal? (pattern : Pattern) : Option String :=
  (pattern.mapM Mark.plain?).map String.ofList

/-- Recognise the pattern for any directories. -/
def isDeep (pattern : Pattern) : Bool := pattern.contains .deep

/-- Decide whether a predicate holds of an end of a list. -/
def anyEnd (accepts : List Char → Bool) : List Char → Bool
  | [] => accepts []
  | c :: rest => accepts (c :: rest) || anyEnd accepts rest

/-- Decide whether a predicate holds of a first character, and another one of
the rest. -/
def first (accepts : Char → Bool) (rest : List Char → Bool) : List Char → Bool
  | [] => false
  | c :: chars => accepts c && rest chars

/-- Decide whether a pattern stands for a text. -/
def accepts : Pattern → List Char → Bool
  | [], text => text.isEmpty
  | .exactly c :: marks, text => first (· == c) (accepts marks) text
  | .any :: marks, text => first (fun _ => true) (accepts marks) text
  | .within set :: marks, text => first set.contains (accepts marks) text
  | .except set :: marks, text =>
      first (fun c => !set.contains c) (accepts marks) text
  | .run :: marks, text | .deep :: marks, text => anyEnd (accepts marks) text

end Pattern

/-- A pattern for paths: one pattern for each part, from the root of all
directories or from the working directory on. -/
structure PathPattern where
  absolute : Bool
  parts : List Pattern
  onlyDirectories : Bool

namespace PathPattern

/-- Recognise texts that are meant as patterns. -/
def isMeant (text : String) : Bool :=
  text.toList.any fun c => c == '*' || c == '?' || c == '['

/-- Split a path into parts; a slash at the end begins none. -/
def splitParts (text : String) : List String :=
  let parts := text.splitOn "/"
  if parts.getLast? = some "" then parts.dropLast else parts

/-- Read a pattern for paths.  It has to be a pattern as a whole and in each of
its parts. -/
def read (text : String) : Except PatternFault PathPattern := do
  let _ ← Pattern.read text
  let absolute := text.startsWith "/"
  let relative :=
    if absolute then String.ofList (text.toList.drop 1) else text
  let parts ← (splitParts relative).mapM Pattern.read
  return ⟨absolute, parts, text.endsWith "/"⟩

end PathPattern

end XmlRecords
