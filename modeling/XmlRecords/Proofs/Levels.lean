import XmlRecords.Proofs.Collecting
import XmlRecords.Xml.Document

/-!
# Levels of elements in a tree

A tree is collected within every limit that is as high as its elements have
levels, and within no other.  What is collected never holds blank runs of text
nor two runs behind each other.
-/

namespace XmlRecords

namespace Content

theorem depthOfList_append (items others : List Content) :
    depthOfList (items ++ others) =
      max (depthOfList items) (depthOfList others) := by
  induction items with
  | nil => simp [depthOfList]
  | cons item rest ih =>
      rw [List.cons_append, depthOfList, depthOfList, ih, Nat.max_assoc]

theorem depthOfList_reverse (items : List Content) :
    depthOfList items.reverse = depthOfList items := by
  induction items with
  | nil => rfl
  | cons item rest ih =>
      rw [List.reverse_cons, depthOfList_append, ih]
      simp only [depthOfList]
      omega

theorem depthOfList_pushText (latest : List Content) (run : String) :
    depthOfList (pushText latest run) = depthOfList latest := by
  unfold pushText
  split
  · rfl
  · split
    · simp only [depthOfList, depth]
    · simp only [depthOfList, depth]
      omega

theorem isNormalList_concat (items : List Content) (item : Content) :
    isNormalList (items ++ [item]) =
      (isNormalList items && item.isNormal &&
        !(startsWithText items.reverse && startsWithText [item])) := by
  induction items with
  | nil => cases item <;> simp [isNormalList, startsWithText]
  | cons first rest ih =>
      rw [List.cons_append, isNormalList, isNormalList, ih]
      cases rest with
      | nil => grind [isNormalList, startsWithText]
      | cons second rest =>
          have front : startsWithText (first :: second :: rest).reverse =
              startsWithText (second :: rest).reverse := by
            rw [List.reverse_cons]
            cases reversed : (second :: rest).reverse with
            | nil => simp at reversed
            | cons last others => rw [List.cons_append, startsWithText_cons,
                startsWithText_cons last others]
          rw [front, List.cons_append, startsWithText_cons second (_ ++ _),
            startsWithText_cons second rest]
          grind

/-- A run of text that is collected keeps the normal form. -/
theorem isNormalList_pushText {latest : List Content}
    (normal : isNormalList latest.reverse) (run : String) :
    isNormalList (pushText latest run).reverse := by
  unfold pushText
  split
  · exact normal
  · next filled =>
      split
      · next value rest =>
          rw [List.reverse_cons, isNormalList_concat] at normal ⊢
          have longer : Text.isAllBlank (value ++ run) = false := by
            rw [Bool.not_eq_true] at filled
            rw [Text.isAllBlank] at filled ⊢
            rw [String.toList_append, List.all_append, filled, Bool.and_false]
          simp only [isNormal, longer, Bool.not_false, Bool.and_true,
            Bool.and_eq_true] at normal ⊢
          exact ⟨normal.1.1, normal.2⟩
      · next other =>
          have apart : startsWithText latest = false := by
            cases latest with
            | nil => rfl
            | cons item rest =>
                cases item with
                | text value => exact absurd rfl (other value rest)
                | element name attributes content => rfl
          rw [Bool.not_eq_true] at filled
          rw [List.reverse_cons, isNormalList_concat, List.reverse_reverse,
            normal, apart, isNormal, filled]
          rfl

end Content

namespace Xml

theorem depthOfList_le_of_contents? {levels : Nat} {latest result : List Content}
    (items : List Tree)
    (collected : Tree.contents? levels latest items = some result) :
    Content.depthOfList latest ≤ Content.depthOfList result := by
  induction items generalizing latest with
  | nil =>
      cases collected
      exact Nat.le_of_eq (Content.depthOfList_reverse latest).symm
  | cons item rest ih =>
      cases item with
      | text value =>
          have below := ih collected
          rwa [Content.depthOfList_pushText] at below
      | element name attributes scope content =>
          rw [Tree.contents?] at collected
          · split at collected
            · cases collected
            · have below := ih collected
              rw [Content.depthOfList] at below
              omega
          · simp

mutual

/-- Within other limits a tree becomes the same, or nothing if it has more
levels. -/
theorem Tree.content?_of_eq_some (tree : Tree) {levels : Nat} {item : Content}
    (collected : tree.content? levels = some item) (limit : Nat) :
    tree.content? limit = if item.depth ≤ limit then some item else none := by
  cases tree with
  | text value =>
      cases collected
      exact (if_pos (Nat.zero_le limit)).symm
  | element name attributes scope content =>
      cases levels with
      | zero => cases collected
      | succ levels =>
          rw [content?, Option.map_eq_some_iff] at collected
          obtain ⟨items, inside, rfl⟩ := collected
          cases limit with
          | zero =>
              rw [content?, Content.depth, if_neg (Nat.not_succ_le_zero _)]
          | succ limit =>
              rw [content?, Content.depth,
                Tree.contents?_of_eq_some content inside limit (Nat.zero_le _)]
              by_cases fits : Content.depthOfList items ≤ limit
              · rw [if_pos fits, if_pos (Nat.succ_le_succ fits)]
                rfl
              · rw [if_neg fits, if_neg (by omega)]
                rfl

theorem Tree.contents?_of_eq_some (items : List Tree) {levels : Nat}
    {latest result : List Content}
    (collected : Tree.contents? levels latest items = some result) (limit : Nat)
    (before : Content.depthOfList latest ≤ limit) :
    Tree.contents? limit latest items =
      if Content.depthOfList result ≤ limit then some result else none := by
  cases items with
  | nil =>
      cases collected
      rw [Content.depthOfList_reverse, if_pos before]
      rfl
  | cons item rest =>
      have inner := @Tree.content?_of_eq_some item
      cases item with
      | text value =>
          refine Tree.contents?_of_eq_some rest collected limit ?_
          rwa [Content.depthOfList_pushText]
      | element name attributes scope content =>
          rw [Tree.contents?] at collected ⊢
          · cases found : Tree.content? levels
                (.element name attributes scope content) with
            | none =>
                rw [found] at collected
                cases collected
            | some child =>
                rw [found] at collected
                rw [inner found limit]
                by_cases fits : child.depth ≤ limit
                · rw [if_pos fits]
                  refine Tree.contents?_of_eq_some rest collected limit ?_
                  rw [Content.depthOfList]
                  omega
                · have below := depthOfList_le_of_contents? rest collected
                  rw [Content.depthOfList] at below
                  rw [if_neg fits, if_neg (by omega)]
          all_goals simp

end

theorem startsWithText_of_content? {levels : Nat} {name : QName}
    {attributes : List Attribute} {scope : Scope} {content : List Tree}
    {item : Content}
    (collected : Tree.content? levels
      (.element name attributes scope content) = some item) :
    Content.startsWithText [item] = false := by
  cases levels with
  | zero => cases collected
  | succ levels =>
      rw [Tree.content?, Option.map_eq_some_iff] at collected
      obtain ⟨items, _, rfl⟩ := collected
      rfl

mutual

theorem isNormal_of_content? (tree : Tree) {levels : Nat} {item : Content}
    (collected : tree.content? levels = some item)
    (filled : ∀ value, tree = .text value → Text.isAllBlank value = false) :
    item.isNormal := by
  cases tree with
  | text value =>
      cases collected
      simp [Content.isNormal, filled value rfl]
  | element name attributes scope content =>
      cases levels with
      | zero => cases collected
      | succ levels =>
          rw [Tree.content?, Option.map_eq_some_iff] at collected
          obtain ⟨items, inside, rfl⟩ := collected
          exact isNormalList_of_contents? content inside rfl

/-- What is collected onto items in normal form is in normal form. -/
theorem isNormalList_of_contents? (items : List Tree) {levels : Nat}
    {latest result : List Content}
    (collected : Tree.contents? levels latest items = some result)
    (before : Content.isNormalList latest.reverse) :
    Content.isNormalList result := by
  cases items with
  | nil =>
      cases collected
      exact before
  | cons item rest =>
      have inner := @isNormal_of_content? item
      cases item with
      | text value =>
          exact isNormalList_of_contents? rest collected
            (Content.isNormalList_pushText before value)
      | element name attributes scope content =>
          rw [Tree.contents?] at collected
          · split at collected
            · cases collected
            · next child found =>
                refine isNormalList_of_contents? rest collected ?_
                have childNormal := inner found (fun value same => by cases same)
                rw [List.reverse_cons, Content.isNormalList_concat, before,
                  childNormal, startsWithText_of_content? found]
                simp
          · simp

end

theorem readElement_of_readTree {text : String} {tree : Tree}
    (parsed : readTree true text = .ok tree) (limit : Nat) :
    readElement limit text = ((tree.content? limit).bind Content.element?).elim
      (.error (.markup (.tooDeep limit))) .ok := by
  rw [readElement, parsed]
  dsimp only [Except.mapError, bind, Except.bind]
  cases (tree.content? limit).bind Content.element? <;> rfl

theorem exists_tree_of_readElement {limit : Nat} {text : String} {e : Element}
    (read : readElement limit text = .ok e) :
    ∃ tree, readTree true text = .ok tree ∧
      tree.content? limit = some (.ofElement e) := by
  cases parsed : readTree true text with
  | error defect =>
      rw [readElement, parsed] at read
      cases read
  | ok tree =>
      rw [readElement_of_readTree parsed] at read
      cases found : (tree.content? limit).bind Content.element? with
      | none =>
          rw [found] at read
          cases read
      | some element =>
          rw [found] at read
          cases read
          obtain ⟨item, collected, isElement⟩ := Option.bind_eq_some_iff.1 found
          cases item with
          | text value => cases isElement
          | element name attributes content =>
              cases isElement
              exact ⟨tree, rfl, collected⟩

/-- Within other limits a document is read as the same element, or refused if it
has more levels. -/
theorem readElement_of_eq_ok {limit : Nat} {text : String} {e : Element}
    (read : readElement limit text = .ok e) (other : Nat) :
    readElement other text =
      if other < e.depth then .error (.markup (.tooDeep other)) else .ok e := by
  obtain ⟨tree, parsed, collected⟩ := exists_tree_of_readElement read
  have again : tree.content? other =
      if e.depth ≤ other then some (.ofElement e) else none :=
    Tree.content?_of_eq_some tree collected other
  rw [readElement_of_readTree parsed]
  by_cases exceeds : other < e.depth
  · rw [if_neg (Nat.not_le_of_lt exceeds)] at again
    rw [again, if_pos exceeds]
    rfl
  · rw [if_pos (Nat.le_of_not_lt exceeds)] at again
    rw [again, if_neg exceeds]
    rfl

theorem depth_le_of_readElement {limit : Nat} {text : String} {e : Element}
    (read : readElement limit text = .ok e) : e.depth ≤ limit := by
  have again := readElement_of_eq_ok read limit
  rw [read] at again
  refine Nat.le_of_not_lt fun exceeds => ?_
  rw [if_pos exceeds] at again
  cases again

/-- Documents are read into normal form. -/
theorem isNormal_of_readElement {limit : Nat} {text : String} {e : Element}
    (read : readElement limit text = .ok e) : e.isNormal := by
  obtain ⟨tree, _, collected⟩ := exists_tree_of_readElement read
  cases tree with
  | text value => cases collected
  | element name attributes scope content =>
      exact isNormal_of_content? _ collected (fun value same => by cases same)

end Xml

end XmlRecords
