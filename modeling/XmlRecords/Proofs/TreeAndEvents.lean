import XmlRecords.Graph.Lowering
import XmlRecords.Proofs.Gathering
import XmlRecords.Proofs.StreamedDocument
import XmlRecords.Transcode.Lines

/-!
# Trees and events of one document

A document can be read as a tree or as events.  Where both readers find the same
tokens in it, the events are those of an element in normal form, which a stream
collects, and that element is the one that the tree becomes unless there are
comments or processing instructions beside white space that one of them keeps.
-/

namespace XmlRecords

/-- The token may stand outside of the document element. -/
def Token.IsOutside : Token → Prop
  | .aside => True
  | .text value => Text.isAllBlank value
  | .start _ _ | .finish => False

namespace Xml

/-- The items are what tokens inside of an element stand for.  All pieces of text
up to the next tag or aside are one run. -/
inductive Reported : List Token → List Tree → Prop where
  | nothing : Reported [] []
  | aside {tokens : List Token} {items : List Tree}
      (behind : Reported tokens items) : Reported (.aside :: tokens) items
  | run {pieces : List String} {tokens : List Token} {items : List Tree}
      (filled : pieces ≠ [])
      (whole : ∀ value rest, tokens ≠ .text value :: rest)
      (behind : Reported tokens items) :
      Reported (pieces.map .text ++ tokens) (.text (String.join pieces) :: items)
  | element {name : QName} {attributes : List Attribute} {scope : Scope}
      {inner tokens : List Token} {content items : List Tree}
      (inside : Reported inner content) (behind : Reported tokens items) :
      Reported (.start name attributes :: (inner ++ .finish :: tokens))
        (.element name attributes scope content :: items)

/-- The tree is what the tokens of a document stand for. -/
inductive Tree.ReportedBy : List Token → Tree → Prop where
  | document {name : QName} {attributes : List Attribute} {scope : Scope}
      {front inner back : List Token} {content : List Tree}
      (before : ∀ token ∈ front, token.IsOutside)
      (inside : Reported inner content)
      (behind : ∀ token ∈ back, token.IsOutside) :
      Tree.ReportedBy (front ++ .start name attributes :: (inner ++ .finish :: back))
        (.element name attributes scope content)

end Xml

namespace Event

open XmlRecords.Stream (eventsOf eventsOfList)
open Xml (Reported Tree)

theorem eventsOfList_append (first second : List Content) :
    eventsOfList (first ++ second) =
      eventsOfList first ++ eventsOfList second := by
  induction first with
  | nil => rfl
  | cons item rest ih =>
      rw [List.cons_append, eventsOfList, eventsOfList, ih, List.append_assoc]

theorem eventsOfList_ofText (pending : String) :
    eventsOfList (Content.ofText pending) = ofText pending := by
  rw [Content.ofText, ofText]
  split <;> rfl

theorem coalesce_pieces (complete : Bool) (pending : String)
    (pieces : List String) (tokens : List Token) :
    coalesce complete pending (pieces.map .text ++ tokens) =
      coalesce complete (pending ++ String.join pieces) tokens := by
  induction pieces generalizing pending with
  | nil => simp
  | cons piece rest ih =>
      rw [List.map_cons, List.cons_append, coalesce, ih, String.join_cons,
        String.append_assoc]

/-- The events of what is inside of an element are those of its content with all
text between two tags gathered first. -/
theorem coalesce_reported {tokens : List Token} {items : List Tree}
    (reported : Reported tokens items) (complete : Bool) (pending : String)
    (rest : List Token) :
    coalesce complete pending (tokens ++ .finish :: rest) =
      eventsOfList (Tree.gatherList (· ++ ·) pending items) ++
        .finish :: coalesce complete "" rest := by
  induction reported generalizing pending rest with
  | nothing =>
      rw [List.nil_append, coalesce, Tree.gatherList, eventsOfList_ofText]
  | aside _ ih => rw [List.cons_append, coalesce, ih]
  | run _ _ _ ih =>
      rw [List.append_assoc, coalesce_pieces, ih, Tree.gatherList]
  | element _ _ inside behind =>
      rw [List.cons_append, coalesce, List.append_assoc, List.cons_append, inside,
        behind, Tree.gatherList, eventsOfList_append, eventsOfList_ofText,
        eventsOfList, Tree.gather, eventsOf]
      · simp
      · simp

/-- Outside of the document element there are no events. -/
theorem coalesce_outside {tokens : List Token}
    (outside : ∀ token ∈ tokens, token.IsOutside) (complete : Bool)
    (pending : String) (blank : Text.isAllBlank pending) (rest : List Token) :
    ∃ later, Text.isAllBlank later ∧
      coalesce complete pending (tokens ++ rest) =
        coalesce complete later rest := by
  induction tokens generalizing pending with
  | nil => exact ⟨pending, blank, rfl⟩
  | cons token tokens ih =>
      have here := outside token List.mem_cons_self
      have others := fun token member =>
        outside token (List.mem_cons_of_mem _ member)
      cases token with
      | aside => exact ih others pending blank
      | text value =>
          have both : Text.isAllBlank (pending ++ value) := by
            rw [Text.isAllBlank_append, blank, Bool.true_and]
            exact here
          exact ih others (pending ++ value) both
      | start name attributes => cases here
      | finish => cases here

/-- The events of a document are those of its element with all text between two
tags gathered first. -/
theorem coalesce_reportedBy {tokens : List Token} {tree : Tree}
    (reported : tree.ReportedBy tokens) :
    coalesce true "" tokens = eventsOf (tree.gather (· ++ ·)) := by
  cases reported with
  | @document name attributes scope front inner back content before inside behind =>
      obtain ⟨pending, blank, same⟩ := coalesce_outside before true "" rfl
        (.start name attributes :: (inner ++ .finish :: back))
      obtain ⟨pending', blank', same'⟩ := coalesce_outside behind true "" rfl []
      rw [List.append_nil] at same'
      rw [same, coalesce, coalesce_reported inside, same', coalesce, ofText, ofText,
        if_pos blank, if_pos blank', Tree.gather, eventsOf]
      rfl

end Event

namespace Stream

variable {graph : Graph}

/-- In front of its last event a stream has collected the document element. -/
theorem exists_collected (graph : Graph) {settings : Settings} {e : Element}
    (normal : e.isNormal) (fits : e.depth ≤ settings.maxDepth) :
    ∃ last, ({ depth := .root } : Stream).handleAll graph settings
        (eventsOf (.ofElement e)).dropLast = (last, [], none) ∧
      last.stack.map OpenElement.close = [e] := by
  obtain ⟨name, attributes, content⟩ := e
  have depth : (Element.mk name attributes content).depth =
      Content.depthOfList content + 1 := rfl
  replace normal : Content.isNormalList content := normal
  have some : ¬ settings.maxDepth ≤ 0 := by omega
  have started := handle_start_root graph settings name attributes
  rw [if_neg some] at started
  have inner : (eventsOf (.ofElement ⟨name, attributes, content⟩)).dropLast =
      .start name attributes :: eventsOfList content := by
    rw [Content.ofElement, eventsOf, ← List.cons_append, List.dropLast_concat]
  have collected := (collects_root graph name attributes normal
    (Nat.lt_of_not_le some)).1 (by rw [List.length_singleton]; omega)
  refine ⟨⟨.root, .building, [⟨name, attributes, content.reverse⟩], none⟩, ?_,
    by simp [OpenElement.close]⟩
  rw [inner, handleAll, started]
  simp only [collected]
  rfl

/-- A document whose events are those of an element in normal form leads to what
the element leads to. -/
theorem transcode_root_eq {root : Nat} (rooted : graph.root = some root)
    (settings : Settings) {bytes : List UInt8} {e : Element}
    (events : Event.read bytes = (eventsOf (.ofElement e), none))
    (normal : e.isNormal) :
    transcode graph settings .root bytes =
      match graph.transcodeDocument settings e with
      | .ok value => ([⟨root, value⟩], none)
      | .error error => ([], some error) := by
  rw [transcode, events]
  cases transcoded : graph.transcodeDocument settings e with
  | ok value =>
      obtain ⟨last, replayed, _, checked⟩ :=
        replay_root_of_ok rooted normal transcoded
      rw [replay] at replayed
      simp only [replayed, checked]
  | error error =>
      obtain ⟨last, replayed⟩ := replay_root_of_error rooted normal transcoded
      rw [replay] at replayed
      simp only [replayed]

end Stream

theorem Conversion.ofText_root_eq {graph : Graph} {root : Nat}
    (rooted : graph.root = some root) {settings : Settings} {text : String}
    {e : Element} (read : Xml.readElement settings.maxDepth text = .ok e) :
    (Conversion.mk graph settings .root).ofText text =
      (graph.transcodeDocument settings e).map fun value => [⟨root, value⟩] := by
  have inside : (Conversion.mk graph settings .root).ofElement e =
      (graph.transcodeDocument settings e).map
        fun value => [⟨root, value⟩] := by
    simp only [ofElement, Graph.rootNode, rooted]
    cases graph.transcodeDocument settings e <;> rfl
  rw [ofText, read]
  exact inside

/-- Where both readers find the same tokens in a document, the events are those
of an element, which a stream collects.  It is the element that is read by way of
the tree just when all text between two tags is kept alike; and then both ways
lead to the same value, or to the same error, for every graph. -/
theorem exists_streamed_of_tokens {text : String} {tree : Xml.Tree}
    {tokens : List Token} {limit : Nat} {element : Element}
    (parsed : Xml.readTree true text = .ok tree)
    (collected : Xml.readElement limit text = .ok element)
    (tokenized : Token.read (Utf8.encode text) = (tokens, none))
    (reported : tree.ReportedBy tokens) :
    ∃ streamed : Element,
      Event.read (Utf8.encode text) =
        (Stream.eventsOf (.ofElement streamed), none) ∧
      (∀ graph settings, streamed.depth ≤ settings.maxDepth →
        ∃ last, ({ depth := .root } : Stream).handleAll graph settings
            (Event.read (Utf8.encode text)).1.dropLast = (last, [], none) ∧
          last.stack.map OpenElement.close = [streamed]) ∧
      (streamed = element ↔ tree.KeptAlike) ∧
      (tree.KeptAlike → ∀ graph root settings, graph.root = some root →
        settings.maxDepth = limit →
          (Conversion.mk graph settings .root).ofBytes (Utf8.encode text) =
            match (Conversion.mk graph settings .root).ofText text with
            | .ok emitted => (emitted, none)
            | .error error => ([], some error)) := by
  have events : Event.read (Utf8.encode text) =
      (Stream.eventsOf (tree.gather (· ++ ·)), none) := by
    rw [Event.read, tokenized]
    exact congrArg (·, none) (Event.coalesce_reportedBy reported)
  obtain ⟨tree', parsed', kept⟩ := Xml.exists_tree_of_readElement collected
  obtain rfl : tree = tree' := Except.ok.inj (parsed.symm.trans parsed')
  have filled := tree.content?_eq_gather kept
  cases reported with
  | @document name attributes scope front inner back content before inside behind =>
      let streamed : Element := ⟨name, attributes,
        Xml.Tree.gatherList (· ++ ·) "" content⟩
      have normal : streamed.isNormal :=
        Xml.Tree.isNormalList_gatherList (· ++ ·) "" content
      replace events : Event.read (Utf8.encode text) =
        (Stream.eventsOf (.ofElement streamed), none) := events
      have alike : streamed = element ↔
          (Xml.Tree.element name attributes scope content).KeptAlike := by
        rw [← Xml.Tree.gather_eq_iff, ← filled]
        constructor
        · rintro rfl
          rfl
        · intro same
          obtain ⟨name', attributes', content'⟩ := element
          cases same
          rfl
      refine ⟨streamed, events, fun graph settings fits => ?_, alike, ?_⟩
      · rw [events]
        exact Stream.exists_collected graph normal fits
      · intro keeps graph root settings rooted same
        obtain rfl := alike.2 keeps
        subst same
        rw [Conversion.ofBytes, Stream.transcode_root_eq rooted settings events
          normal, Conversion.ofText_root_eq rooted collected]
        cases graph.transcodeDocument settings streamed <;> rfl

/-- The graph of notes that are texts. -/
def noteGraph : Graph := ⟨#[.primitive .string none], some 0⟩

theorem noteGraph_root : noteGraph.root = some 0 := rfl

theorem transcodeDocument_noteGraph (e : Element) :
    noteGraph.transcodeDocument {} e =
      (Graph.checkDepth {} e).bind fun _ => .ok (.string e.text) := by
  rfl

/-- A note with text on both sides of a comment. -/
theorem ofBytes_dividedNote :
    (Conversion.mk noteGraph {} .root).ofBytes
        (Utf8.encode "<note>now<!--or--> later</note>") =
      ([⟨0, .string "now later"⟩], none) := by
  have parsed : Xml.readTree true "<note>now<!--or--> later</note>" =
      .ok (.element ⟨"note", none⟩ [] [] [.text "now", .text " later"]) := by
    rfl
  have collected : Xml.readElement ({} : Settings).maxDepth
      "<note>now<!--or--> later</note>" =
        .ok ⟨⟨"note", none⟩, [], [.text "now later"]⟩ := by
    rw [Xml.readElement_of_readTree parsed]
    rfl
  have tokenized : Token.read (Utf8.encode "<note>now<!--or--> later</note>") =
      ([] ++ .start ⟨"note", none⟩ [] ::
        ([.text "now", .aside, .text " later"] ++ [.finish]), none) := by
    decide +kernel
  have later : Xml.Reported ([" later"].map .text ++ []) [.text " later"] :=
    .run (by simp) (by simp) .nothing
  have inside : Xml.Reported (["now"].map .text ++ .aside :: [.text " later"])
      [.text "now", .text " later"] :=
    .run (by simp) (by simp) (.aside later)
  obtain ⟨_, _, _, _, values⟩ := exists_streamed_of_tokens parsed collected tokenized
    (.document (by simp) inside (by simp))
  have alike : Text.KeptAlike ["now", " later"] :=
    .inr (by decide)
  have trimmed :
      (Element.mk ⟨"note", none⟩ [] [.text "now later"]).text = "now later" := by
    decide +kernel
  rw [values alike noteGraph 0 {} noteGraph_root rfl,
    Conversion.ofText_root_eq noteGraph_root collected, transcodeDocument_noteGraph, trimmed]
  rfl

/-- White space between two comments is lost by way of the tree, and kept on the
way from the bytes. -/
theorem readers_differ_spacedNote :
    Graph.ofComponents { roots := [⟨⟨"note", none⟩, .simple .string⟩] } none =
      .ok noteGraph ∧
    (∃ tree tokens,
      Xml.readTree false "<note>now<!--or--> <!--later-->then</note>" = .ok tree ∧
      Token.read (Utf8.encode "<note>now<!--or--> <!--later-->then</note>") =
        (tokens, none) ∧ tree.ReportedBy tokens ∧ ¬ tree.KeptAlike) ∧
    (Conversion.mk noteGraph {} .root).ofText
        "<note>now<!--or--> <!--later-->then</note>" =
      .ok [⟨0, .string "nowthen"⟩] ∧
    (Conversion.mk noteGraph {} .root).ofBytes
        (Utf8.encode "<note>now<!--or--> <!--later-->then</note>") =
      ([⟨0, .string "now then"⟩], none) := by
  have parsed : ∀ allow,
      Xml.readTree allow "<note>now<!--or--> <!--later-->then</note>" =
        .ok (.element ⟨"note", none⟩ [] []
          [.text "now", .text " ", .text "then"]) := by
    rintro (_ | _) <;> rfl
  have tokenized :
      Token.read (Utf8.encode "<note>now<!--or--> <!--later-->then</note>") =
        ([] ++ .start ⟨"note", none⟩ [] ::
          ([.text "now", .aside, .text " ", .aside, .text "then"] ++ [.finish]),
            none) := by
    decide +kernel
  have last : Xml.Reported (["then"].map .text ++ []) [.text "then"] :=
    .run (by simp) (by simp) .nothing
  have middle : Xml.Reported ([" "].map .text ++ .aside :: [.text "then"])
      [.text " ", .text "then"] :=
    .run (by simp) (by simp) (.aside last)
  have inside : Xml.Reported
      (["now"].map .text ++ .aside :: [.text " ", .aside, .text "then"])
      [.text "now", .text " ", .text "then"] :=
    .run (by simp) (by simp) (.aside middle)
  have unlike : ¬ Text.KeptAlike ["now", " ", "then"] := by
    rintro (all | none)
    · exact absurd (all "now" (by simp)) (by decide)
    · exact absurd (none " " (by simp) (by decide)) (by decide)
  refine ⟨rfl, ⟨_, _, parsed false, tokenized,
    .document (by simp) inside (by simp), unlike⟩, ?_, ?_⟩
  · have collected :
        Xml.readElement ({} : Settings).maxDepth
            "<note>now<!--or--> <!--later-->then</note>" =
          .ok ⟨⟨"note", none⟩, [], [.text "nowthen"]⟩ := by
      rw [Xml.readElement_of_readTree (parsed true)]
      rfl
    have trimmed :
        (Element.mk ⟨"note", none⟩ [] [.text "nowthen"]).text = "nowthen" := by
      decide +kernel
    rw [Conversion.ofText_root_eq noteGraph_root collected, transcodeDocument_noteGraph,
      trimmed]
    rfl
  · have events :
        Event.read (Utf8.encode "<note>now<!--or--> <!--later-->then</note>") =
          (Stream.eventsOf (.ofElement
            ⟨⟨"note", none⟩, [], [.text "now then"]⟩), none) := by
      have nothing : Text.isAllBlank "" := rfl
      have filled : Text.isAllBlank "now then" = false := by decide
      rw [Event.read, tokenized]
      simp [Event.coalesce, Event.ofText, Stream.eventsOf, Stream.eventsOfList,
        Content.ofElement, nothing, filled]
    have trimmed :
        (Element.mk ⟨"note", none⟩ [] [.text "now then"]).text = "now then" := by
      decide +kernel
    rw [Conversion.ofBytes, Stream.transcode_root_eq noteGraph_root {} events (by decide),
      transcodeDocument_noteGraph, trimmed]
    rfl

end XmlRecords
