import Mathlib.Data.List.Basic
import XmlRecords.Proofs.Levels

/-!
# Text between two tags

Comments and processing instructions divide the text between two tags into runs.
The runs can be gathered into one in two ways: all of them, and then what is
blank altogether is dropped; or one by one, and then each blank run is dropped by
itself.  Elements of trees are gathered in the second way.
-/

namespace XmlRecords

namespace Text

theorem isAllBlank_append (first second : String) :
    isAllBlank (first ++ second) = (isAllBlank first && isAllBlank second) := by
  simp [isAllBlank]

/-- Put a run of text behind others, unless it is blank. -/
def appendFilled (pending run : String) : String :=
  if isAllBlank run then pending else pending ++ run

/-- The runs come to the same whether blank ones are dropped by themselves or
together with all others: all of them are blank, or none that is blank holds
anything. -/
def KeptAlike (runs : List String) : Prop :=
  (∀ run ∈ runs, isAllBlank run) ∨ ∀ run ∈ runs, isAllBlank run → run = ""

/-- The runs that are not blank, as one. -/
def joinFilled (runs : List String) : String :=
  String.join (runs.filter (!isAllBlank ·))

theorem isAllBlank_join (runs : List String) :
    isAllBlank (String.join runs) = runs.all isAllBlank := by
  induction runs with
  | nil => rfl
  | cons run rest ih =>
      rw [String.join_cons, isAllBlank_append, ih, List.all_cons]

theorem isAllBlank_joinFilled (runs : List String) :
    isAllBlank (joinFilled runs) = runs.all isAllBlank := by
  rw [joinFilled, isAllBlank_join, List.all_filter]
  congr
  funext run
  cases isAllBlank run <;> rfl

theorem joinFilled_concat (runs : List String) (run : String) :
    joinFilled (runs ++ [run]) = appendFilled (joinFilled runs) run := by
  rw [joinFilled, List.filter_append, String.join_append, appendFilled]
  cases blank : isAllBlank run <;> simp [blank, joinFilled]

theorem length_joinFilled_le (runs : List String) :
    (joinFilled runs).length ≤ (String.join runs).length := by
  induction runs with
  | nil => exact Nat.le_refl _
  | cons run rest ih =>
      rw [joinFilled] at ih ⊢
      rw [List.filter_cons]
      split
      · simpa using ih
      · rw [String.join_cons, String.length_append]
        omega

/-- Dropping blank runs drops nothing just when they are empty. -/
theorem join_eq_joinFilled_iff (runs : List String) :
    String.join runs = joinFilled runs ↔
      ∀ run ∈ runs, isAllBlank run → run = "" := by
  induction runs with
  | nil => simp [joinFilled]
  | cons run rest ih =>
      rw [List.forall_mem_cons, ← ih, String.join_cons, joinFilled,
        List.filter_cons]
      cases blank : isAllBlank run with
      | false => simp [joinFilled]
      | true =>
          have shorter := length_joinFilled_le rest
          rw [joinFilled] at shorter ⊢
          constructor
          · intro same
            replace same : run ++ String.join rest =
                String.join (rest.filter (!isAllBlank ·)) := by simpa using same
            have lengths := congrArg String.length same
            rw [String.length_append] at lengths
            have nothing : run = "" := by
              rw [← String.length_eq_zero_iff]
              omega
            subst nothing
            exact ⟨fun _ => rfl, by simpa using same⟩
          · rintro ⟨nothing, same⟩
            rw [nothing rfl, same]
            simp

end Text

namespace Content

/-- The text at hand as an item, unless it is all white space. -/
def ofText (pending : String) : List Content :=
  if Text.isAllBlank pending then [] else [.text pending]

theorem ofText_join_eq_iff (runs : List String) :
    ofText (String.join runs) = ofText (Text.joinFilled runs) ↔
      Text.KeptAlike runs := by
  rw [ofText, ofText, Text.isAllBlank_join, Text.isAllBlank_joinFilled,
    Text.KeptAlike, ← Text.join_eq_joinFilled_iff]
  cases blank : runs.all Text.isAllBlank with
  | true =>
      refine iff_of_true rfl (.inl fun run member => ?_)
      exact List.all_eq_true.1 blank run member
  | false =>
      rw [or_iff_right]
      · simp
      · intro all
        rw [List.all_eq_true.2 all] at blank
        cases blank

/-- Where text is followed by an element, text, element and rest can be told
apart. -/
theorem ofText_append_element_eq_iff {first second : String}
    {name name' : QName} {attributes attributes' : List Attribute}
    {content content' rest rest' : List Content} :
    ofText first ++ .element name attributes content :: rest =
        ofText second ++ .element name' attributes' content' :: rest' ↔
      ofText first = ofText second ∧
        element name attributes content = .element name' attributes' content' ∧
        rest = rest' := by
  rw [ofText, ofText]
  split <;> split <;> simp

end Content

namespace Xml

open Content (ofText)

mutual

/-- Gather the content of a tree.  `add` puts a run of text behind those that
stand in front of it, with no tag between. -/
def Tree.gather (add : String → String → String) : Tree → Content
  | .text value => .text value
  | .element name attributes _ content =>
      .element name attributes (Tree.gatherList add "" content)

/-- Gather items behind the text at hand. -/
def Tree.gatherList (add : String → String → String) (pending : String) :
    List Tree → List Content
  | [] => ofText pending
  | .text value :: rest => Tree.gatherList add (add pending value) rest
  | item :: rest =>
      ofText pending ++ item.gather add :: Tree.gatherList add "" rest

end

mutual

/-- All text between two tags is kept alike, whatever stands between its runs. -/
def Tree.KeptAlike : Tree → Prop
  | .text _ => True
  | .element _ _ _ content => Tree.KeptAlikeIn [] content

/-- All text between two tags is kept alike in items behind the runs at hand. -/
def Tree.KeptAlikeIn (runs : List String) : List Tree → Prop
  | [] => Text.KeptAlike runs
  | .text value :: rest => Tree.KeptAlikeIn (runs ++ [value]) rest
  | item :: rest =>
      Text.KeptAlike runs ∧ item.KeptAlike ∧ Tree.KeptAlikeIn [] rest

end

mutual

/-- The two ways to gather text make a difference just where blank runs stand
between others. -/
theorem Tree.gather_eq_iff (tree : Tree) :
    tree.gather (· ++ ·) = tree.gather Text.appendFilled ↔ tree.KeptAlike := by
  cases tree with
  | text value => exact iff_of_true rfl trivial
  | element name attributes scope content =>
      have inside := Tree.gatherList_eq_iff [] content
      rw [gather, gather, Tree.KeptAlike, ← inside]
      simp [Text.joinFilled]

theorem Tree.gatherList_eq_iff (runs : List String) (items : List Tree) :
    Tree.gatherList (· ++ ·) (String.join runs) items =
        Tree.gatherList Text.appendFilled (Text.joinFilled runs) items ↔
      Tree.KeptAlikeIn runs items := by
  cases items with
  | nil => exact Content.ofText_join_eq_iff runs
  | cons item rest =>
      cases item with
      | text value =>
          have further := Tree.gatherList_eq_iff (runs ++ [value]) rest
          rw [Text.joinFilled_concat, String.join_append] at further
          simpa [gatherList, KeptAlikeIn] using further
      | element name attributes scope content =>
          have inside := Tree.gather_eq_iff (.element name attributes scope content)
          have further := Tree.gatherList_eq_iff [] rest
          rw [Text.joinFilled, List.filter_nil, String.join_nil] at further
          rw [gatherList, gatherList, KeptAlikeIn, ← inside, ← further, gather,
            gather, Content.ofText_append_element_eq_iff,
            Content.ofText_join_eq_iff]
          all_goals simp

end

/-- A run of text is put behind the text at hand, which is blank only if there is
none. -/
theorem pushText_ofText {pending : String} {latest : List Content}
    (filled : Text.isAllBlank pending → pending = "")
    (fresh : Content.startsWithText latest = false) (run : String) :
    Content.pushText (ofText pending ++ latest) run =
      ofText (Text.appendFilled pending run) ++ latest := by
  rw [Text.appendFilled]
  cases blank : Text.isAllBlank run with
  | true => simp [Content.pushText, blank]
  | false =>
      have together : Text.isAllBlank (pending ++ run) = false := by
        rw [Text.isAllBlank_append, blank, Bool.and_false]
      cases blank' : Text.isAllBlank pending with
      | false => simp [Content.pushText, ofText, blank, blank', together]
      | true =>
          have nothing : pending = "" := filled blank'
          subst nothing
          cases latest with
          | nil => simp [Content.pushText, ofText, blank, blank']
          | cons item rest =>
              cases item with
              | text value => cases fresh
              | element name attributes content =>
                  simp [Content.pushText, ofText, blank, blank']

mutual

/-- Elements of trees gather their text one run after the other. -/
theorem Tree.content?_eq_gather (tree : Tree) {levels : Nat} {item : Content}
    (collected : tree.content? levels = some item) :
    item = tree.gather Text.appendFilled := by
  cases tree with
  | text value =>
      cases collected
      rfl
  | element name attributes scope content =>
      cases levels with
      | zero => cases collected
      | succ levels =>
          rw [content?, Option.map_eq_some_iff] at collected
          obtain ⟨items, inside, rfl⟩ := collected
          replace inside : Tree.contents? levels (ofText "" ++ []) content =
              some items := inside
          rw [gather,
            Tree.contents?_eq_gatherList content "" (fun _ => rfl) rfl inside]
          rfl

theorem Tree.contents?_eq_gatherList (items : List Tree) (pending : String)
    {levels : Nat} {latest result : List Content}
    (filled : Text.isAllBlank pending → pending = "")
    (fresh : Content.startsWithText latest = false)
    (collected : Tree.contents? levels (ofText pending ++ latest) items =
      some result) :
    result =
      latest.reverse ++ Tree.gatherList Text.appendFilled pending items := by
  cases items with
  | nil =>
      cases collected
      rw [List.reverse_append, gatherList, ofText]
      split <;> rfl
  | cons item rest =>
      have inner := @Tree.content?_eq_gather item levels
      cases item with
      | text value =>
          rw [contents?, pushText_ofText filled fresh] at collected
          refine Tree.contents?_eq_gatherList rest _ ?_ fresh collected
          intro blank
          rw [Text.appendFilled] at blank ⊢
          split at blank
          · next run =>
              rw [if_pos run]
              exact filled blank
          · next run =>
              rw [Text.isAllBlank_append, Bool.and_eq_true] at blank
              exact absurd blank.2 run
      | element name attributes scope content =>
          rw [contents?] at collected
          · split at collected
            · cases collected
            · next child here =>
                obtain rfl := inner here
                have further := Tree.contents?_eq_gatherList rest ""
                  (fun _ => rfl) rfl collected
                rw [further, gatherList]
                · rw [gather, ofText]
                  split <;> simp
                · simp
          · simp

end

mutual

theorem Tree.isNormal_gather (add : String → String → String) (tree : Tree)
    (tag : tree.element?.isSome) : (tree.gather add).isNormal := by
  cases tree with
  | text value => cases tag
  | element name attributes scope content =>
      exact Tree.isNormalList_gatherList add "" content

/-- What is gathered is in normal form. -/
theorem Tree.isNormalList_gatherList (add : String → String → String)
    (pending : String) (items : List Tree) :
    Content.isNormalList (Tree.gatherList add pending items) := by
  have ofText_append : ∀ rest, Content.isNormalList rest →
      Content.startsWithText rest = false →
        Content.isNormalList (ofText pending ++ rest) := by
    intro rest normal fresh
    rw [ofText]
    split
    · exact normal
    · next filled =>
        simp [Content.isNormalList, Content.isNormal, normal, fresh, filled]
  cases items with
  | nil =>
      have alone := ofText_append [] rfl rfl
      rwa [List.append_nil] at alone
  | cons item rest =>
      have inner := @Tree.isNormal_gather add item
      cases item with
      | text value => exact Tree.isNormalList_gatherList add (add pending value) rest
      | element name attributes scope content =>
          have further := Tree.isNormalList_gatherList add "" rest
          rw [gatherList]
          · refine ofText_append _ ?_ rfl
            have own : Content.isNormal
                (.element name attributes (gatherList add "" content)) := inner rfl
            simp [Content.isNormalList, own, further, gather,
              Content.startsWithText]
          · simp

end

end Xml

end XmlRecords
