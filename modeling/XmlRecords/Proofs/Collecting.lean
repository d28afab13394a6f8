import XmlRecords.Transcode.Stream

/-!
# Elements collected from their events

An element under construction never holds blank runs of text nor two runs behind
each other.  The events of any items are collected to items of that form, at
whatever depth no value is due and the levels of elements suffice; items that have
it already are collected to themselves.
-/

namespace XmlRecords

namespace Content

/-- Recognise items that begin with a run of text. -/
def startsWithText : List Content → Bool
  | .text _ :: _ => true
  | _ => false

theorem startsWithText_cons (item : Content) (items : List Content) :
    startsWithText (item :: items) = startsWithText [item] := by
  cases item <;> rfl

mutual

/-- No run of text in an item is blank or follows another one. -/
def isNormal : Content → Bool
  | .text value => !Text.isAllBlank value
  | .element _ _ content => isNormalList content

/-- No run of text in items is blank or follows another one. -/
def isNormalList : List Content → Bool
  | [] => true
  | item :: items =>
      item.isNormal && !(startsWithText [item] && startsWithText items) &&
        isNormalList items

end

theorem pushText_of_isNormal {latest items : List Content} {run : String}
    (normal : isNormalList (.text run :: items))
    (fresh : startsWithText latest = false) :
    pushText latest run = .text run :: latest := by
  have filled : Text.isAllBlank run = false := by
    simp only [isNormalList, isNormal, Bool.and_eq_true, Bool.not_eq_true']
      at normal
    exact normal.1.1
  unfold pushText
  rw [filled]
  cases latest with
  | nil => rfl
  | cons item rest =>
      cases item with
      | text value => cases fresh
      | element name attributes content => rfl

end Content

namespace Content

mutual

/-- Put an item that is collected from its events in front of those collected
before, whose latest comes first. -/
def collectOnto (latest : List Content) : Content → List Content
  | .text value => pushText latest value
  | .element name attributes content =>
      .element name attributes (collectAll [] content).reverse :: latest

/-- Put items that are collected from their events in front of those collected
before. -/
def collectAll (latest : List Content) : List Content → List Content
  | [] => latest
  | item :: items => collectAll (collectOnto latest item) items

end

mutual

theorem collectOnto_of_isNormal {item : Content} {latest rest : List Content}
    (normal : isNormalList (item :: rest))
    (fresh : startsWithText [item] → startsWithText latest = false) :
    collectOnto latest item = item :: latest := by
  cases item with
  | text value => exact pushText_of_isNormal normal (fresh rfl)
  | element name attributes content =>
      have inner : isNormalList content := by
        simp only [isNormalList, isNormal, Bool.and_eq_true] at normal
        exact normal.1.1
      rw [collectOnto, collectAll_of_isNormal inner (fun _ => rfl),
        List.append_nil, List.reverse_reverse]

/-- Items without blank or adjacent runs of text are collected as they are. -/
theorem collectAll_of_isNormal {items latest : List Content}
    (normal : isNormalList items)
    (fresh : startsWithText items → startsWithText latest = false) :
    collectAll latest items = items.reverse ++ latest := by
  cases items with
  | nil => rfl
  | cons item rest =>
      rw [startsWithText_cons] at fresh
      rw [collectAll, collectOnto_of_isNormal normal fresh]
      rw [isNormalList, Bool.and_eq_true, Bool.and_eq_true, Bool.not_eq_true',
        Bool.and_eq_false_iff] at normal
      obtain ⟨⟨_, apart⟩, normalRest⟩ := normal
      have freshRest : startsWithText rest →
          startsWithText (item :: latest) = false := by
        intro starts
        rw [startsWithText_cons]
        exact apart.resolve_right (by simp [starts])
      rw [collectAll_of_isNormal normalRest freshRest, List.reverse_cons,
        List.append_assoc, List.singleton_append]

end

end Content

/-- No run of text in an element is blank or follows another one. -/
def Element.isNormal (e : Element) : Bool := Content.isNormalList e.content

namespace Stream

variable {graph : Graph} {settings : Settings}

/-- Events behind others are handled where those end well. -/
theorem handleAll_append (stream : Stream) (first second : List Event) :
    stream.handleAll graph settings (first ++ second) =
      match stream.handleAll graph settings first with
      | (last, emitted, some e) => (last, emitted, some e)
      | (next, emitted, none) =>
          let (last, later, e) := next.handleAll graph settings second
          (last, emitted ++ later, e) := by
  induction first generalizing stream with
  | nil => rfl
  | cons event rest ih =>
      rw [List.cons_append, handleAll, handleAll]
      cases stream.handle graph settings event with
      | mk between outcome =>
          cases outcome with
          | error e => rfl
          | ok here =>
              simp only [ih between]
              cases between.handleAll graph settings rest with
              | mk next results =>
                  obtain ⟨emitted, _ | e⟩ := results
                  · simp only [List.append_assoc]
                  · rfl

/-- Events that add a number of levels of elements lead from one stream to
another without a value, or to the limit on levels. -/
def Collects (graph : Graph) (settings : Settings) (stream next : Stream)
    (events : List Event) (levels : Nat) : Prop :=
  (stream.stack.length + levels ≤ settings.maxDepth →
    stream.handleAll graph settings events = (next, [], none)) ∧
  (settings.maxDepth < stream.stack.length + levels →
    ∃ last, last.phase ≠ .finished ∧
      stream.handleAll graph settings events =
        (last, [], some (.markup (.tooDeep settings.maxDepth))))

theorem Collects.append {stream next last : Stream} {first second : List Event}
    {levels more : Nat} (one : Collects graph settings stream next first levels)
    (two : Collects graph settings next last second more)
    (same : next.stack.length = stream.stack.length) :
    Collects graph settings stream last (first ++ second)
      (max levels more) := by
  constructor
  · intro fits
    simp only [handleAll_append, one.1 (by omega), two.1 (by omega)]
    rfl
  · intro exceeds
    by_cases tooDeep : settings.maxDepth < stream.stack.length + levels
    · obtain ⟨stopped, unfinished, handled⟩ := one.2 tooDeep
      exact ⟨stopped, unfinished, by rw [handleAll_append, handled]⟩
    · obtain ⟨stopped, unfinished, handled⟩ := two.2 (by omega)
      refine ⟨stopped, unfinished, ?_⟩
      simp only [handleAll_append, one.1 (by omega), handled]
      rfl

variable {depth : EmitDepth} {phase : StreamPhase} {top : OpenElement}
  {others : List OpenElement} {parent : Option Nat}

theorem collects_text (value : String) (building : phase ≠ .finished)
    (within : (top :: others).length ≤ settings.maxDepth) :
    Collects graph settings ⟨depth, phase, top :: others, parent⟩
      ⟨depth, phase,
        { top with content := Content.pushText top.content value } :: others,
        parent⟩
      [.text value] 0 := by
  constructor
  · intro _
    simp only [handleAll, handle, building, if_false, Stream.text,
      Option.toList_none, List.append_nil]
  · intro exceeds
    dsimp only at exceeds
    omega

theorem handle_start_open (name : QName) (attributes : List Attribute)
    (building : phase ≠ .finished) :
    handle graph settings ⟨depth, phase, top :: others, parent⟩
        (.start name attributes) =
      if settings.maxDepth ≤ (top :: others).length then
        (⟨depth, phase, top :: others, parent⟩,
          .error (.markup (.tooDeep settings.maxDepth)))
      else (⟨depth, phase, ⟨name, attributes, []⟩ :: top :: others, parent⟩,
        .ok none) := by
  simp only [handle, building, if_false, start, List.isEmpty_cons,
    Bool.not_false, if_true, push]

theorem handle_finish_open (name : QName) (attributes : List Attribute)
    (content : List Content) (building : phase ≠ .finished)
    (level : depth.level ≤ (top :: others).length) :
    handle graph settings
        ⟨depth, phase, ⟨name, attributes, content.reverse⟩ :: top :: others,
          parent⟩ .finish =
      (⟨depth, phase,
        { top with
          content := .element name attributes content :: top.content } ::
            others, parent⟩, .ok none) := by
  have deeper : ¬ (⟨name, attributes, content.reverse⟩ :: top ::
      others).length = depth.level := by
    rw [List.length_cons]
    omega
  simp only [handle, building, if_false, finish, List.isEmpty_cons, deeper,
    OpenElement.close, List.reverse_reverse, Content.ofElement,
    Bool.false_eq_true]

/-- An element whose content is collected is collected itself. -/
theorem collects_element {name : QName} {attributes : List Attribute}
    {content collected : List Content} (building : phase ≠ .finished)
    (level : depth.level ≤ (top :: others).length)
    (inside : (⟨name, attributes, []⟩ :: top :: others).length ≤
        settings.maxDepth →
      Collects graph settings
        ⟨depth, phase, ⟨name, attributes, []⟩ :: top :: others, parent⟩
        ⟨depth, phase, ⟨name, attributes, collected⟩ :: top :: others, parent⟩
        (eventsOfList content) (Content.depthOfList content)) :
    Collects graph settings ⟨depth, phase, top :: others, parent⟩
      ⟨depth, phase,
        { top with
          content :=
            .element name attributes collected.reverse :: top.content } ::
              others, parent⟩
      (eventsOf (.element name attributes content))
      (Content.element name attributes content).depth := by
  rw [eventsOf, Content.depth]
  by_cases full : settings.maxDepth ≤ (top :: others).length
  · constructor
    · intro fits
      dsimp only at fits
      omega
    · intro _
      exact ⟨_, building, by
        rw [handleAll, handle_start_open name attributes building,
          if_pos full]⟩
  · have within : (⟨name, attributes, []⟩ :: top :: others).length ≤
        settings.maxDepth := by
      rw [List.length_cons]
      omega
    have finished := @handle_finish_open graph settings depth phase top others
      parent name attributes collected.reverse building level
    rw [List.reverse_reverse] at finished
    obtain ⟨whenFits, whenExceeds⟩ := inside within
    simp only [List.length_cons] at whenFits whenExceeds
    constructor
    · intro fits
      simp only [List.length_cons] at fits
      rw [handleAll, handle_start_open name attributes building, if_neg full]
      simp only [handleAll_append, whenFits (by omega), handleAll, finished]
      rfl
    · intro exceeds
      simp only [List.length_cons] at exceeds
      obtain ⟨last, unfinished, handled⟩ := whenExceeds (by omega)
      refine ⟨last, unfinished, ?_⟩
      rw [handleAll, handle_start_open name attributes building, if_neg full]
      simp only [handleAll_append, handled]
      rfl

mutual

theorem collects_eventsOf (item : Content) {top : OpenElement}
    {others : List OpenElement} (building : phase ≠ .finished)
    (level : depth.level ≤ (top :: others).length)
    (within : (top :: others).length ≤ settings.maxDepth) :
    Collects graph settings ⟨depth, phase, top :: others, parent⟩
      ⟨depth, phase,
        { top with content := Content.collectOnto top.content item } :: others,
        parent⟩
      (eventsOf item) item.depth := by
  cases item with
  | text value => exact collects_text value building within
  | element name attributes content =>
      apply collects_element building level
      intro within
      exact collects_eventsOfList content ⟨name, attributes, []⟩ building
        (Nat.le_succ_of_le level) within

/-- The events of items are collected in the innermost open element. -/
theorem collects_eventsOfList (items : List Content) (top : OpenElement)
    {others : List OpenElement} (building : phase ≠ .finished)
    (level : depth.level ≤ (top :: others).length)
    (within : (top :: others).length ≤ settings.maxDepth) :
    Collects graph settings ⟨depth, phase, top :: others, parent⟩
      ⟨depth, phase,
        { top with content := Content.collectAll top.content items } :: others,
        parent⟩
      (eventsOfList items) (Content.depthOfList items) := by
  cases items with
  | nil =>
      constructor
      · intro _
        rfl
      · intro exceeds
        simp only [Content.depthOfList] at exceeds
        omega
  | cons item rest =>
      have first := collects_eventsOf item building level within
      have second := collects_eventsOfList rest
        { top with content := Content.collectOnto top.content item } building
        level within
      rw [eventsOfList, Content.depthOfList, Content.collectAll]
      exact first.append second rfl

end

/-- The events of items in normal form are collected to the same items, the latest
first. -/
theorem collects_items (items : List Content) (top : OpenElement)
    {others : List OpenElement} (building : phase ≠ .finished)
    (level : depth.level ≤ (top :: others).length)
    (within : (top :: others).length ≤ settings.maxDepth)
    (normal : Content.isNormalList items)
    (fresh : Content.startsWithText items →
      Content.startsWithText top.content = false) :
    Collects graph settings ⟨depth, phase, top :: others, parent⟩
      ⟨depth, phase,
        { top with content := items.reverse ++ top.content } :: others,
        parent⟩
      (eventsOfList items) (Content.depthOfList items) := by
  rw [← Content.collectAll_of_isNormal normal fresh]
  exact collects_eventsOfList items top building level within

end Stream

end XmlRecords
