import XmlRecords.Proofs.ContentFaults
import XmlRecords.Proofs.Levels

/-!
# Documents transcoded from their events

Where the document element becomes one value, handling the events of an element
in normal form comes to what transcoding the element comes to.
-/

namespace XmlRecords

namespace Graph

variable {graph : Graph} {settings : Settings} {root : Nat}

theorem unmarked_documentField (r : Record) (name : QName) :
    Unmarked (documentField r name) := by
  rw [documentField]
  split
  · exact .field _
  · split
    · exact .ok _
    · exact .field _

/-- The depth of an element is checked in front of all else, and nothing else is
at fault for markup. -/
theorem transcodeRoot_eq_tooDeep_iff (node : Nat) (e : Element) :
    graph.transcodeRoot settings node e =
        .error (.markup (.tooDeep settings.maxDepth)) ↔
      settings.maxDepth < e.depth := by
  rw [transcodeRoot, checkDepth]
  by_cases exceeds : settings.maxDepth < e.depth
  · rw [if_pos exceeds]
    exact iff_of_true rfl exceeds
  · rw [if_neg exceeds]
    refine iff_of_false (Unmarked.not_eq ?_ _) exceeds
    refine (Unmarked.ok ()).bind fun _ => ?_
    split
    · exact unmarked_convert _ _ _
    · refine (unmarked_documentField _ _).bind fun _ => ?_
      exact (unmarked_convert _ _ _).bind fun _ => .ok _

end Graph

namespace Stream

variable {graph : Graph} {settings : Settings} {root : Nat}

theorem handle_finish_root (rooted : graph.root = some root)
    (settings : Settings) (name : QName) (attributes : List Attribute)
    (content : List Content) :
    handle graph settings
        ⟨.root, .building, [⟨name, attributes, content.reverse⟩], none⟩
        .finish =
      (⟨.root, .finished, [], none⟩,
        (graph.transcodeRoot settings root ⟨name, attributes, content⟩).map
          fun value => some ⟨root, value⟩) := by
  have emitted : emit graph settings ⟨.root, .finished, [], none⟩
      ⟨name, attributes, content⟩ =
        (do
          let value ← graph.transcodeRoot settings root
            ⟨name, attributes, content⟩
          return ⟨root, value⟩) := by
    rw [emit, Graph.rootNode, rooted]
    rfl
  have closed : (OpenElement.mk name attributes content.reverse).close =
      ⟨name, attributes, content⟩ := by
    rw [OpenElement.close, List.reverse_reverse]
  have handled : handle graph settings
      ⟨.root, .building, [⟨name, attributes, content.reverse⟩], none⟩
      .finish =
        (⟨.root, .finished, [], none⟩,
          (emit graph settings ⟨.root, .finished, [], none⟩
            (OpenElement.mk name attributes content.reverse).close).map
              some) := by
    rfl
  rw [handled, closed, emitted]
  cases graph.transcodeRoot settings root ⟨name, attributes, content⟩ <;> rfl

/-- The start of the document element opens it, if any level is accepted. -/
theorem handle_start_root (graph : Graph) (settings : Settings) (name : QName)
    (attributes : List Attribute) :
    handle graph settings { depth := .root } (.start name attributes) =
      if settings.maxDepth ≤ 0 then
        ({ depth := .root }, .error (.markup (.tooDeep settings.maxDepth)))
      else (⟨.root, .building, [⟨name, attributes, []⟩], none⟩, .ok none) := by
  rfl

/-- The content of the document element is collected in it. -/
theorem collects_root (graph : Graph) {settings : Settings} (name : QName)
    (attributes : List Attribute) {content : List Content}
    (normal : Content.isNormalList content) (some : 0 < settings.maxDepth) :
    Collects graph settings
      ⟨.root, .building, [⟨name, attributes, []⟩], none⟩
      ⟨.root, .building, [⟨name, attributes, content.reverse⟩], none⟩
      (eventsOfList content) (Content.depthOfList content) := by
  have collected : Collects graph settings
      ⟨.root, .building, [⟨name, attributes, []⟩], none⟩
      ⟨.root, .building, [⟨name, attributes, content.reverse ++ []⟩], none⟩
      (eventsOfList content) (Content.depthOfList content) :=
    collects_items content ⟨name, attributes, []⟩ (by simp) (Nat.le_refl 1) some
      normal (fun _ => rfl)
  rwa [List.append_nil] at collected

/-- An element is collected as a whole before it is transcoded, unless it has too
many levels. -/
theorem replay_root (rooted : graph.root = some root) (settings : Settings)
    {e : Element} (normal : e.isNormal) :
    (e.depth ≤ settings.maxDepth →
      ∃ last, last.phase = .finished ∧
        ({ depth := .root } : Stream).replay graph settings e =
          match graph.transcodeRoot settings root e with
          | .ok value => (last, [⟨root, value⟩], none)
          | .error error => (last, [], some error)) ∧
    (settings.maxDepth < e.depth →
      ∃ last, last.phase ≠ .finished ∧
        ({ depth := .root } : Stream).replay graph settings e =
          (last, [], some (.markup (.tooDeep settings.maxDepth)))) := by
  obtain ⟨name, attributes, content⟩ := e
  have depth : (Element.mk name attributes content).depth =
      Content.depthOfList content + 1 := rfl
  rw [replay, Content.ofElement, eventsOf, depth]
  have started := handle_start_root graph settings name attributes
  by_cases noLevel : settings.maxDepth ≤ 0
  · rw [if_pos noLevel] at started
    constructor
    · intro fits
      omega
    · intro _
      exact ⟨{ depth := .root }, by decide, by rw [handleAll, started]⟩
  · rw [if_neg noLevel] at started
    have collected := collects_root graph name attributes normal
      (Nat.lt_of_not_le noLevel)
    have finished := handle_finish_root rooted settings name attributes content
    obtain ⟨whenFits, whenExceeds⟩ := collected
    simp only [List.length_singleton] at whenFits whenExceeds
    constructor
    · intro fits
      refine ⟨⟨.root, .finished, [], none⟩, rfl, ?_⟩
      rw [handleAll, started]
      simp only [handleAll_append, whenFits (by omega)]
      cases result : graph.transcodeRoot settings root
          ⟨name, attributes, content⟩ with
      | ok value =>
          rw [result] at finished
          simp only [handleAll, finished]
          rfl
      | error e =>
          rw [result] at finished
          simp only [handleAll, finished]
          rfl
    · intro exceeds
      obtain ⟨last, unfinished, handled⟩ := whenExceeds (by omega)
      refine ⟨last, unfinished, ?_⟩
      rw [handleAll, started]
      simp only [handleAll_append, handled]
      rfl

theorem replay_root_of_fits (rooted : graph.root = some root)
    (settings : Settings) {e : Element} (normal : e.isNormal)
    (fits : e.depth ≤ settings.maxDepth) :
    ∃ last, last.phase = .finished ∧
      ({ depth := .root } : Stream).replay graph settings e =
        match graph.transcodeDocument settings e with
        | .ok value => (last, [⟨root, value⟩], none)
        | .error error => (last, [], some error) := by
  have same : graph.transcodeDocument settings e =
      graph.transcodeRoot settings root e := by
    rw [Graph.transcodeDocument, Graph.rootNode, rooted]
    rfl
  rw [same]
  exact (replay_root rooted settings normal).1 fits

theorem transcodeDocument_of_exceeds (rooted : graph.root = some root)
    {settings : Settings} {e : Element}
    (exceeds : settings.maxDepth < e.depth) :
    graph.transcodeDocument settings e =
      .error (.markup (.tooDeep settings.maxDepth)) := by
  rw [Graph.transcodeDocument, Graph.rootNode, rooted]
  exact (Graph.transcodeRoot_eq_tooDeep_iff root e).2 exceeds

theorem transcodeDocument_ne_tooDeep (rooted : graph.root = some root)
    {settings : Settings} {e : Element} (fits : e.depth ≤ settings.maxDepth) :
    graph.transcodeDocument settings e ≠
      .error (.markup (.tooDeep settings.maxDepth)) := by
  rw [Graph.transcodeDocument, Graph.rootNode, rooted]
  intro tooDeep
  have exceeds := (Graph.transcodeRoot_eq_tooDeep_iff root e).1 tooDeep
  omega

theorem replay_root_of_ok (rooted : graph.root = some root)
    {e : Element} (normal : e.isNormal) {value : Value}
    (transcoded : graph.transcodeDocument settings e = .ok value) :
    ∃ last, ({ depth := .root } : Stream).replay graph settings e =
        (last, [⟨root, value⟩], none) ∧
      last.phase = .finished ∧ last.check = .ok () := by
  rcases Nat.lt_or_ge settings.maxDepth e.depth with exceeds | fits
  · rw [transcodeDocument_of_exceeds rooted exceeds] at transcoded
    cases transcoded
  · obtain ⟨last, finished, replayed⟩ :=
      replay_root_of_fits rooted settings normal fits
    rw [transcoded] at replayed
    exact ⟨last, replayed, finished, by rw [check, finished]⟩

theorem replay_root_of_error (rooted : graph.root = some root)
    {e : Element} (normal : e.isNormal) {error : Error}
    (transcoded : graph.transcodeDocument settings e = .error error) :
    ∃ last, ({ depth := .root } : Stream).replay graph settings e =
      (last, [], some error) := by
  rcases Nat.lt_or_ge settings.maxDepth e.depth with exceeds | fits
  · rw [transcodeDocument_of_exceeds rooted exceeds] at transcoded
    cases transcoded
    obtain ⟨last, _, replayed⟩ :=
      (replay_root rooted settings normal).2 exceeds
    exact ⟨last, replayed⟩
  · obtain ⟨last, _, replayed⟩ :=
      replay_root_of_fits rooted settings normal fits
    rw [transcoded] at replayed
    exact ⟨last, replayed⟩

/-- The limit on levels is what stops a stream in front of its end. -/
theorem replay_root_unfinished_iff (rooted : graph.root = some root)
    (settings : Settings) {e : Element} (normal : e.isNormal) :
    (∃ last, last.phase ≠ .finished ∧
        ({ depth := .root } : Stream).replay graph settings e =
          (last, [], some (.markup (.tooDeep settings.maxDepth)))) ↔
      settings.maxDepth < e.depth := by
  rcases Nat.lt_or_ge settings.maxDepth e.depth with exceeds | fits
  · exact iff_of_true ((replay_root rooted settings normal).2 exceeds) exceeds
  · refine iff_of_false ?_ (Nat.not_lt_of_le fits)
    rintro ⟨last, unfinished, replayed⟩
    obtain ⟨other, finished, replayed'⟩ :=
      replay_root_of_fits rooted settings normal fits
    have same : last.phase = other.phase := by
      have streams := replayed.symm.trans replayed'
      split at streams
      · exact congrArg (fun result => result.1.phase) streams
      · exact congrArg (fun result => result.1.phase) streams
    exact unfinished (same.trans finished)

theorem replay_root_tooDeep_iff (rooted : graph.root = some root)
    (settings : Settings) {e : Element} (normal : e.isNormal) :
    (({ depth := .root } : Stream).replay graph settings e).2.2 =
        some (.markup (.tooDeep settings.maxDepth)) ↔
      settings.maxDepth < e.depth := by
  rcases Nat.lt_or_ge settings.maxDepth e.depth with exceeds | fits
  · obtain ⟨last, _, replayed⟩ :=
      (replay_root rooted settings normal).2 exceeds
    exact iff_of_true (by rw [replayed]) exceeds
  · refine iff_of_false ?_ (Nat.not_lt_of_le fits)
    obtain ⟨last, _, replayed⟩ :=
      replay_root_of_fits rooted settings normal fits
    have other := transcodeDocument_ne_tooDeep rooted fits
    rw [replayed]
    cases transcoded : graph.transcodeDocument settings e with
    | ok value => simp
    | error error =>
        rw [transcoded] at other
        simpa using other

theorem checkDepth_eq_error_iff (settings : Settings) (e : Element) :
    Graph.checkDepth settings e =
        .error (.markup (.tooDeep settings.maxDepth)) ↔
      settings.maxDepth < e.depth := by
  rw [Graph.checkDepth]
  split
  · next exceeds => exact iff_of_true rfl exceeds
  · next fits => exact iff_of_false (by simp) fits

theorem readElement_eq_error_iff {limit : Nat} {text : String} {e : Element}
    (read : Xml.readElement limit text = .ok e) (other : Nat) :
    Xml.readElement other text = .error (.markup (.tooDeep other)) ↔
      other < e.depth := by
  rw [Xml.readElement_of_eq_ok read]
  split
  · next exceeds => exact iff_of_true rfl exceeds
  · next fits => exact iff_of_false (by simp) fits

/-- The events of an element in normal form lead to the value that the element
has as a whole, or to the error that it has as a whole.  The limit on open
elements, the limit on the levels of an element, and the limit on the levels of a
document in text refuse the same elements. -/
theorem replay_root_eq_transcodeDocument (rooted : graph.root = some root)
    (settings : Settings) {e : Element} (normal : e.isNormal) :
    (∀ value, graph.transcodeDocument settings e = .ok value →
      ∃ last, ({ depth := .root } : Stream).replay graph settings e =
          (last, [⟨root, value⟩], none) ∧
        last.phase = .finished ∧ last.check = .ok ()) ∧
    (∀ error, graph.transcodeDocument settings e = .error error →
      ∃ last, ({ depth := .root } : Stream).replay graph settings e =
        (last, [], some error)) ∧
    ((∃ last, last.phase ≠ .finished ∧
        ({ depth := .root } : Stream).replay graph settings e =
          (last, [], some (.markup (.tooDeep settings.maxDepth)))) ↔
      settings.maxDepth < e.depth) ∧
    ((({ depth := .root } : Stream).replay graph settings e).2.2 =
        some (.markup (.tooDeep settings.maxDepth)) ↔
      settings.maxDepth < e.depth) ∧
    (Graph.checkDepth settings e =
        .error (.markup (.tooDeep settings.maxDepth)) ↔
      settings.maxDepth < e.depth) ∧
    (∀ limit text, Xml.readElement limit text = .ok e →
      (Xml.readElement settings.maxDepth text =
          .error (.markup (.tooDeep settings.maxDepth)) ↔
        settings.maxDepth < e.depth)) := by
  refine ⟨?_, ?_, replay_root_unfinished_iff rooted settings normal,
    replay_root_tooDeep_iff rooted settings normal,
    checkDepth_eq_error_iff settings e, ?_⟩
  · intro value transcoded
    exact replay_root_of_ok rooted normal transcoded
  · intro error transcoded
    exact replay_root_of_error rooted normal transcoded
  · intro limit text read
    exact readElement_eq_error_iff read settings.maxDepth

/-- A document of one element with text, for a root that is a string. -/
theorem replay_root_note :
    Element.isNormal ⟨⟨"note", none⟩, [], [.text "due"]⟩ ∧ ∃ last,
      ({ depth := .root } : Stream).replay
          ⟨#[.primitive .string none], some 0⟩ { maxDepth := 1 }
          ⟨⟨"note", none⟩, [], [.text "due"]⟩ =
        (last, [⟨0, .string "due"⟩], none) ∧ last.check = .ok () := by
  have normal : Element.isNormal ⟨⟨"note", none⟩, [], [.text "due"]⟩ := by
    decide
  have rooted : (⟨#[.primitive .string none], some 0⟩ : Graph).root = some 0 :=
    rfl
  obtain ⟨transcoded, _⟩ :=
    replay_root_eq_transcodeDocument rooted { maxDepth := 1 } normal
  obtain ⟨last, replayed, _, checked⟩ := transcoded (.string "due") rfl
  exact ⟨normal, last, replayed, checked⟩

end Stream

end XmlRecords
