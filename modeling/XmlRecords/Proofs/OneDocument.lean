import XmlRecords.Proofs.StreamSteps
import XmlRecords.Proofs.TreeAndEvents

/-!
# Streams of exactly one document

A stream that makes its document element one value keeps the open path of what it
was fed: each open element with all that has been collected in it.  The path leads
from any events that were handled well to the next, so the events that end well are
those of one element behind white space, and the events that end early leave as
many elements open as they started and did not finish.
-/

namespace XmlRecords

/-- The event is text that is nothing but white space. -/
def Event.IsBlank : Event → Prop
  | .text value => Text.isAllBlank value
  | .start _ _ | .finish => False

/-- Recognise a start tag. -/
def Event.isStart : Event → Bool
  | .start _ _ => true
  | _ => false

/-- Recognise an end tag. -/
def Event.isFinish : Event → Bool
  | .finish => true
  | _ => false

/-- The element that comes out of the events of an element. -/
def Element.collected (e : Element) : Element :=
  ⟨e.name, e.attributes, (Content.collectAll [] e.content).reverse⟩

/-- An open element with what comes out of the events of its items. -/
def OpenElement.collected (e : OpenElement) : OpenElement :=
  ⟨e.name, e.attributes, Content.collectAll [] e.content.reverse⟩

theorem Content.collectAll_concat (latest items : List Content)
    (item : Content) :
    collectAll latest (items ++ [item]) =
      collectOnto (collectAll latest items) item := by
  induction items generalizing latest with
  | nil => rfl
  | cons first rest ih => rw [List.cons_append, collectAll, ih, collectAll]

mutual

theorem Content.depthOfList_collectOnto (latest : List Content)
    (item : Content) :
    depthOfList (collectOnto latest item) =
      max (depthOfList latest) item.depth := by
  cases item with
  | text value => rw [collectOnto, depthOfList_pushText, depth, Nat.max_zero]
  | element name attributes content =>
      rw [collectOnto, depthOfList, depth, depth, depthOfList_reverse,
        depthOfList_collectAll, depthOfList, Nat.zero_max, Nat.max_comm]

/-- Items that are collected have as many levels as before. -/
theorem Content.depthOfList_collectAll (latest items : List Content) :
    depthOfList (collectAll latest items) =
      max (depthOfList latest) (depthOfList items) := by
  cases items with
  | nil => rw [collectAll, depthOfList, Nat.max_zero]
  | cons item rest =>
      rw [collectAll, depthOfList_collectAll, depthOfList_collectOnto,
        depthOfList, Nat.max_assoc]

end

theorem Element.depth_collected (e : Element) : e.collected.depth = e.depth := by
  have same := Content.depthOfList_collectAll [] e.content
  rw [Content.depthOfList, Nat.zero_max] at same
  rw [depth, depth, Content.ofElement, Content.ofElement, Content.depth,
    Content.depth, collected, Content.depthOfList_reverse, same]

/-- One more item is collected in an open element in front of those before. -/
theorem OpenElement.collected_cons (name : QName) (attributes : List Attribute)
    (item : Content) (content : List Content) :
    (OpenElement.mk name attributes (item :: content)).collected =
      ⟨name, attributes,
        Content.collectOnto (Content.collectAll [] content.reverse) item⟩ := by
  rw [collected, List.reverse_cons, Content.collectAll_concat]

namespace Stream

variable {graph : Graph} {settings : Settings} {root limit : Nat}
  {events more : List Event} {stream : Stream}

/-- The events are blank ones and then those of one element, with no more levels
than allowed. -/
def IsDocument (limit : Nat) (events : List Event) : Prop :=
  ∃ front e, (∀ event ∈ front, Event.IsBlank event) ∧ e.depth ≤ limit ∧
    events = front ++ eventsOf (.ofElement e)

/-- A document is complete somewhere in the events, and its element is not
transcoded. -/
def Rejects (graph : Graph) (settings : Settings) (events : List Event)
    (error : Error) : Prop :=
  ∃ front e rest, (∀ event ∈ front, Event.IsBlank event) ∧
    e.depth ≤ settings.maxDepth ∧
    events = front ++ eventsOf (.ofElement e) ++ rest ∧
    graph.transcodeDocument settings e.collected = .error error

/-- Feed events to a stream whose document element becomes one value, up to the
first that fails, and check that the document is complete if none does.  The result
is the error that this leads to. -/
def feed (graph : Graph) (settings : Settings) (events : List Event) :
    Option Error :=
  match ({ depth := .root } : Stream).handleAll graph settings events with
  | (_, _, some error) => some error
  | (last, _, none) =>
      match last.check with
      | .ok () => none
      | .error error => some error

/-! ## The open path -/

/-- The events that lead to open elements with these items, the latest first. -/
def openEvents : List OpenElement → List Event
  | [] => []
  | top :: others =>
      openEvents others ++
        .start top.name top.attributes :: eventsOfList top.content.reverse

theorem openEvents_cons (name : QName) (attributes : List Attribute)
    (item : Content) (content : List Content) (others : List OpenElement) :
    openEvents (⟨name, attributes, item :: content⟩ :: others) =
      openEvents (⟨name, attributes, content⟩ :: others) ++ eventsOf item := by
  simp [openEvents, Event.eventsOfList_append, eventsOfList]

/-- An end tag makes the innermost open element an item of the next one. -/
theorem openEvents_closed (top outer : OpenElement) (rest : List OpenElement) :
    openEvents
        ({ outer with content := .ofElement top.close :: outer.content } ::
          rest) =
      openEvents (top :: outer :: rest) ++ [.finish] := by
  rw [openEvents_cons]
  simp [openEvents, OpenElement.close, Content.ofElement, eventsOf]

/-- With one open element, an end tag completes it. -/
theorem openEvents_singleton_concat (e : OpenElement) :
    openEvents [e] ++ [.finish] = eventsOf (.ofElement e.close) := by
  simp [openEvents, OpenElement.close, Content.ofElement, eventsOf]

mutual

theorem countP_eventsOf (item : Content) :
    (eventsOf item).countP Event.isStart =
      (eventsOf item).countP Event.isFinish := by
  cases item with
  | text value => rfl
  | element name attributes content =>
      have inside := countP_eventsOfList content
      simp [eventsOf, List.countP_cons, inside, Event.isStart, Event.isFinish]

/-- The events of items have as many end tags as start tags. -/
theorem countP_eventsOfList (items : List Content) :
    (eventsOfList items).countP Event.isStart =
      (eventsOfList items).countP Event.isFinish := by
  cases items with
  | nil => rfl
  | cons item rest =>
      have first := countP_eventsOf item
      have others := countP_eventsOfList rest
      simp [eventsOfList, first, others]

end

/-- Each open element has a start tag that no end tag answers. -/
theorem countP_openEvents (path : List OpenElement) :
    (openEvents path).countP Event.isStart =
      path.length + (openEvents path).countP Event.isFinish := by
  induction path with
  | nil => rfl
  | cons top others ih =>
      have inside := countP_eventsOfList top.content.reverse
      simp [openEvents, List.countP_cons, ih, inside, Event.isStart,
        Event.isFinish]
      omega

theorem countP_isBlank {front : List Event}
    (blank : ∀ event ∈ front, Event.IsBlank event) :
    front.countP Event.isStart = 0 ∧ front.countP Event.isFinish = 0 := by
  constructor <;> rw [List.countP_eq_zero] <;> intro event among is
  · cases event with
    | start => exact blank _ among
    | text | finish => cases is
  · cases event with
    | finish => exact blank _ among
    | text | start => cases is

/-! ## What events lead to -/

/-- Where events have led a stream: to no element yet, to the open path that they
leave, or behind a whole document. -/
inductive Reached (limit : Nat) : List Event → Stream → Prop where
  | before {front : List Event}
      (blank : ∀ event ∈ front, Event.IsBlank event) :
      Reached limit front { depth := .root }
  | inside {front : List Event} (blank : ∀ event ∈ front, Event.IsBlank event)
      (top : OpenElement) (others : List OpenElement)
      (fits : Fits limit (top :: others)) :
      Reached limit (front ++ openEvents (top :: others))
        ⟨.root, .building, (top :: others).map OpenElement.collected, none⟩
  | behind {events : List Event} (whole : IsDocument limit events) :
      Reached limit events ⟨.root, .finished, [], none⟩

/-- The stream is led on by an event, or the event fails: for its place among the
others, or because the element that it completes is not transcoded. -/
def LeadsOn (graph : Graph) (settings : Settings) (events : List Event) :
    Stream × Except Error (Option Emitted) → Prop
  | (next, .ok _) => Reached settings.maxDepth events next
  | (_, .error error) =>
      (∃ fault, error = .markup fault) ∨ Rejects graph settings events error

theorem leadsOn_before (graph : Graph) {front : List Event}
    (blank : ∀ event ∈ front, Event.IsBlank event) (event : Event) :
    LeadsOn graph settings (front ++ [event])
      (handle graph settings { depth := .root } event) := by
  cases event with
  | start name attributes =>
      rw [handle_start_root]
      split
      · exact .inl ⟨_, rfl⟩
      · next room =>
          have fits : Fits settings.maxDepth [⟨name, attributes, []⟩] :=
            ⟨Nat.lt_of_not_le room, trivial⟩
          exact .inside blank ⟨name, attributes, []⟩ [] fits
  | text value =>
      have handled : handle graph settings { depth := .root } (.text value) =
          if Text.isAllBlank value then ({ depth := .root }, .ok none)
          else ({ depth := .root }, .error (.markup .outsideDocument)) := rfl
      rw [handled]
      split
      · next isBlank =>
          refine .before fun event among => ?_
          rcases List.mem_append.1 among with early | last
          · exact blank event early
          · rw [List.mem_singleton.1 last]
            exact isBlank
      · exact .inl ⟨_, rfl⟩
  | finish => exact .inl ⟨_, rfl⟩

/-- The end of the document element makes it a value. -/
theorem handle_finish_collected (rooted : graph.root = some root)
    (settings : Settings) (e : Element) :
    handle graph settings
        ⟨.root, .building,
          [⟨e.name, e.attributes, Content.collectAll [] e.content⟩], none⟩
        .finish =
      (⟨.root, .finished, [], none⟩,
        (graph.transcodeDocument settings e.collected).map
          fun value => some ⟨root, value⟩) := by
  have finished := handle_finish_root rooted settings e.name e.attributes
    e.collected.content
  rw [Element.collected, List.reverse_reverse] at finished
  rw [finished, Graph.transcodeDocument, Graph.rootNode, rooted]
  rfl

theorem leadsOn_inside (rooted : graph.root = some root) {front : List Event}
    (blank : ∀ event ∈ front, Event.IsBlank event) (top : OpenElement)
    (others : List OpenElement)
    (fits : Fits settings.maxDepth (top :: others)) (event : Event) :
    LeadsOn graph settings (front ++ openEvents (top :: others) ++ [event])
      (handle graph settings
        ⟨.root, .building, (top :: others).map OpenElement.collected, none⟩
        event) := by
  rw [List.append_assoc]
  cases event with
  | start name attributes =>
      rw [List.map_cons, handle_start_open name attributes (by decide)]
      split
      · exact .inl ⟨_, rfl⟩
      · next room =>
          have deeper : Fits settings.maxDepth
              (⟨name, attributes, []⟩ :: top :: others) := by
            refine ⟨?_, fits⟩
            rw [OpenElement.depth_close]
            simp [Content.depthOfList] at room ⊢
            omega
          exact .inside blank ⟨name, attributes, []⟩ (top :: others) deeper
  | text value =>
      have told : Fits settings.maxDepth
          (⟨top.name, top.attributes, .text value :: top.content⟩ ::
            others) := by
        refine ⟨?_, fits.2⟩
        have deep := fits.1
        rw [OpenElement.depth_close] at deep ⊢
        simpa [Content.depthOfList, Content.depth] using deep
      have reached := Reached.inside blank _ _ told
      rw [openEvents_cons, List.map_cons, OpenElement.collected_cons] at reached
      exact reached
  | finish =>
      cases others with
      | nil =>
          have finished := handle_finish_collected rooted settings top.close
          have whole : front ++ (openEvents [top] ++ [.finish]) =
              front ++ eventsOf (.ofElement top.close) := by
            rw [openEvents_singleton_concat]
          have shallow : top.close.depth ≤ settings.maxDepth := by
            simpa using fits.1
          refine finished ▸ ?_
          cases outcome :
              graph.transcodeDocument settings top.close.collected with
          | ok value => exact .behind ⟨front, top.close, blank, shallow, whole⟩
          | error error =>
              exact .inr ⟨front, top.close, [], blank, shallow,
                by rw [whole, List.append_nil], outcome⟩
      | cons outer rest =>
          have closed := @handle_finish_open graph settings .root .building
            outer.collected (rest.map OpenElement.collected) none top.name
            top.attributes top.collected.content.reverse (by decide)
            (by simp [EmitDepth.level])
          rw [List.reverse_reverse] at closed
          have attached : Fits settings.maxDepth
              ({ outer with
                content := .ofElement top.close :: outer.content } ::
                  rest) := by
            refine ⟨?_, fits.2.2⟩
            have deep := fits.1
            have shallow := fits.2.1
            rw [OpenElement.depth_close] at shallow ⊢
            have same : (Content.ofElement top.close).depth =
                top.close.depth := rfl
            rw [List.length_cons] at deep
            rw [Content.depthOfList]
            omega
          have reached := Reached.inside blank _ _ attached
          rw [openEvents_closed, List.map_cons, OpenElement.collected_cons]
            at reached
          exact closed ▸ reached

/-- Each event leads a stream on, or it fails. -/
theorem Reached.leadsOn (rooted : graph.root = some root)
    (reached : Reached settings.maxDepth events stream) (event : Event) :
    LeadsOn graph settings (events ++ [event])
      (stream.handle graph settings event) := by
  cases reached with
  | before blank => exact leadsOn_before graph blank event
  | inside blank top others fits =>
      exact leadsOn_inside rooted blank top others fits event
  | behind whole => exact .inl ⟨_, rfl⟩

theorem Rejects.append {error : Error}
    (rejects : Rejects graph settings events error) (more : List Event) :
    Rejects graph settings (events ++ more) error := by
  obtain ⟨front, e, rest, blank, fits, rfl, fails⟩ := rejects
  exact ⟨front, e, rest ++ more, blank, fits, by simp, fails⟩

/-- The stream is led on by all events, or the first that fails does so for its
place or because an element is not transcoded. -/
def LeadsOnAll (graph : Graph) (settings : Settings) (events : List Event) :
    Stream × List Emitted × Option Error → Prop
  | (last, _, none) => Reached settings.maxDepth events last
  | (_, _, some error) =>
      (∃ fault, error = .markup fault) ∨ Rejects graph settings events error

theorem Reached.leadsOnAll (rooted : graph.root = some root)
    (reached : Reached settings.maxDepth events stream) (more : List Event) :
    LeadsOnAll graph settings (events ++ more)
      (stream.handleAll graph settings more) := by
  induction more generalizing events stream with
  | nil =>
      rw [List.append_nil]
      exact reached
  | cons event rest ih =>
      have step := reached.leadsOn rooted event
      rw [handleAll]
      rcases handled : stream.handle graph settings event with
        ⟨next, error | emitted⟩ <;> rw [handled] at step
      · rcases step with misplaced | rejects
        · exact .inl misplaced
        · have later := rejects.append rest
          rw [List.append_assoc] at later
          exact .inr later
      · have run := ih step
        rw [List.append_assoc, List.singleton_append] at run
        dsimp only
        rcases ended : next.handleAll graph settings rest with
          ⟨last, later, _ | error⟩ <;> rw [ended] at run <;> exact run

/-- Events lead a stream that is fed from its start to the place that they say, or
one of them fails. -/
theorem leadsOnAll_start (rooted : graph.root = some root)
    (settings : Settings) (events : List Event) :
    LeadsOnAll graph settings events
      (({ depth := .root } : Stream).handleAll graph settings events) := by
  have reached : Reached settings.maxDepth [] { depth := .root } :=
    .before (by simp)
  exact reached.leadsOnAll rooted events

/-! ## Whole documents and parts of them -/

theorem handleAll_blank (graph : Graph) (settings : Settings)
    {front : List Event} (blank : ∀ event ∈ front, Event.IsBlank event) :
    ({ depth := .root } : Stream).handleAll graph settings front =
      ({ depth := .root }, [], none) := by
  induction front with
  | nil => rfl
  | cons event rest ih =>
      have here := blank event List.mem_cons_self
      have handled : handle graph settings { depth := .root } event =
          ({ depth := .root }, .ok none) := by
        cases event with
        | text value => exact if_pos here
        | start | finish => exact absurd here id
      have others := ih fun other among =>
        blank other (List.mem_cons_of_mem event among)
      simp only [handleAll, handled, others]
      rfl

/-- The events of a document in front of the last one. -/
theorem handleAll_unclosed (graph : Graph) {front : List Event}
    (blank : ∀ event ∈ front, Event.IsBlank event) {e : Element}
    (fits : e.depth ≤ settings.maxDepth) :
    ({ depth := .root } : Stream).handleAll graph settings
        (front ++ .start e.name e.attributes :: eventsOfList e.content) =
      (⟨.root, .building,
        [⟨e.name, e.attributes, Content.collectAll [] e.content⟩], none⟩, [],
        none) := by
  have depth : e.depth = Content.depthOfList e.content + 1 := rfl
  have started := handle_start_root graph settings e.name e.attributes
  rw [if_neg (by omega)] at started
  have collected : Collects graph settings
      ⟨.root, .building, [⟨e.name, e.attributes, []⟩], none⟩ _ _ _ :=
    collects_eventsOfList e.content ⟨e.name, e.attributes, []⟩ (by decide)
      (Nat.le_refl 1) (by rw [List.length_singleton]; omega)
  simp only [handleAll_append, handleAll_blank graph settings blank, handleAll,
    started, collected.1 (by rw [List.length_singleton]; omega)]
  rfl

theorem handleAll_append_of_eq_none {first second : List Event}
    {last : Stream} {emitted : List Emitted}
    (handled : stream.handleAll graph settings (first ++ second) =
      (last, emitted, none)) :
    ∃ next early later,
      stream.handleAll graph settings first = (next, early, none) ∧
      next.handleAll graph settings second = (last, later, none) ∧
      emitted = early ++ later := by
  rw [handleAll_append] at handled
  rcases reached : stream.handleAll graph settings first with
    ⟨next, early, _ | error⟩
  · rcases ended : next.handleAll graph settings second with
      ⟨last', later, error⟩
    simp only [reached, ended] at handled
    cases handled
    exact ⟨next, early, later, rfl, ended, rfl⟩
  · simp [reached] at handled

/-- Behind a whole document no event is handled. -/
theorem handleAll_finished {last : Stream} {emitted : List Emitted}
    (finished : stream.phase = .finished)
    (handled : stream.handleAll graph settings more = (last, emitted, none)) :
    more = [] := by
  cases more with
  | nil => rfl
  | cons event rest =>
      rw [handleAll, handle.eq_def, if_pos finished] at handled
      cases handled

/-- A part of a document in which an element is started leaves as many elements
open as it has start tags more than end tags. -/
theorem handleAll_of_prefix (rooted : graph.root = some root)
    {whole : List Event} (document : IsDocument settings.maxDepth whole)
    (early : events <+: whole) (proper : events ≠ whole)
    (begun : ∃ event ∈ events, Event.isStart event) :
    ∃ last, ({ depth := .root } : Stream).handleAll graph settings events =
        (last, [], none) ∧
      ∃ count, last.check = .error (.unterminated count) ∧
        events.countP Event.isStart =
          count + events.countP Event.isFinish := by
  obtain ⟨front, e, blank, fits, rfl⟩ := document
  have unclosed := handleAll_unclosed graph blank fits
  have inner : front ++ eventsOf (.ofElement e) =
      (front ++ .start e.name e.attributes :: eventsOfList e.content) ++
        [.finish] := by
    simp [Content.ofElement, eventsOf]
  rw [inner] at early proper
  obtain ⟨more, same⟩ :=
    (List.prefix_concat_iff.1 early).resolve_left proper
  rw [← same] at unclosed
  obtain ⟨last, emitted, later, handled, rest, nothing⟩ :=
    handleAll_append_of_eq_none unclosed
  obtain ⟨rfl, rfl⟩ : emitted = [] ∧ later = [] := by simpa using nothing
  refine ⟨last, handled, ?_⟩
  have reached := leadsOnAll_start rooted settings events
  rw [handled] at reached
  cases reached with
  | before unbegun =>
      obtain ⟨event, among, starts⟩ := begun
      cases event with
      | start => exact absurd (unbegun _ among) id
      | text | finish => cases starts
  | @inside ahead blank' top others fits' =>
      obtain ⟨noStart, noFinish⟩ := countP_isBlank blank'
      refine ⟨_, rfl, ?_⟩
      simp [List.countP_append, noStart, noFinish, countP_openEvents]
  | behind whole =>
      obtain rfl := handleAll_finished rfl rest
      cases rest

theorem handleAll_document (rooted : graph.root = some root)
    {front : List Event} (blank : ∀ event ∈ front, Event.IsBlank event)
    {e : Element} (fits : e.depth ≤ settings.maxDepth) {value : Value}
    (transcoded : graph.transcodeDocument settings e.collected = .ok value) :
    ({ depth := .root } : Stream).handleAll graph settings
        (front ++ eventsOf (.ofElement e)) =
      (⟨.root, .finished, [], none⟩, [⟨root, value⟩], none) := by
  have inner : front ++ eventsOf (.ofElement e) =
      (front ++ .start e.name e.attributes :: eventsOfList e.content) ++
        [.finish] := by
    simp [Content.ofElement, eventsOf]
  have finished := handle_finish_collected rooted settings e
  rw [transcoded] at finished
  rw [inner, handleAll_append, handleAll_unclosed graph blank fits]
  simp only [handleAll, finished]
  rfl

theorem feed_eq_none_iff (rooted : graph.root = some root)
    (transcodes : ∀ error, ¬ Rejects graph settings events error) :
    feed graph settings events = none ↔
      IsDocument settings.maxDepth events := by
  constructor
  · intro accepted
    have led := leadsOnAll_start rooted settings events
    rw [feed] at accepted
    rcases handled :
        ({ depth := .root } : Stream).handleAll graph settings events with
      ⟨last, emitted, _ | error⟩
    · rw [handled] at led accepted
      cases led with
      | before | inside => cases accepted
      | behind whole => exact whole
    · rw [handled] at accepted
      cases accepted
  · rintro ⟨front, e, blank, fits, rfl⟩
    cases transcoded : graph.transcodeDocument settings e.collected with
    | ok value =>
        rw [feed, handleAll_document rooted blank fits transcoded]
        rfl
    | error error =>
        exact absurd ⟨front, e, [], blank, fits, by simp, transcoded⟩
          (transcodes error)

/-- Whatever is fed, an error that is not about the element of a complete document
says that an event is out of place or that the document is incomplete. -/
theorem feed_eq_some (rooted : graph.root = some root)
    (transcodes : ∀ error, ¬ Rejects graph settings events error)
    {error : Error} (fails : feed graph settings events = some error) :
    (∃ fault, error = .markup fault) ∨ ∃ count, error = .unterminated count := by
  have led := leadsOnAll_start rooted settings events
  rw [feed] at fails
  rcases handled :
      ({ depth := .root } : Stream).handleAll graph settings events with
    ⟨last, emitted, _ | early⟩
  · rw [handled] at led fails
    cases led with
    | before => exact .inl ⟨_, (Option.some.inj fails).symm⟩
    | inside => exact .inr ⟨_, (Option.some.inj fails).symm⟩
    | behind => cases fails
  · rw [handled] at led fails
    obtain rfl := Option.some.inj fails
    exact .inl (led.resolve_right (transcodes early))

/-- A stream accepts exactly one document, for every graph with a root and every
limit on levels, as long as the element of a complete document is transcoded.  A
part of a document that has begun is accepted event by event, and in the end the
elements that are still open are counted.  All other events fail at a place where
an event is not allowed, or in the end. -/
theorem feed_accepts_one_document (rooted : graph.root = some root)
    (settings : Settings) (events : List Event)
    (transcodes : ∀ error, ¬ Rejects graph settings events error) :
    (feed graph settings events = none ↔
      IsDocument settings.maxDepth events) ∧
    (∀ whole, IsDocument settings.maxDepth whole → events <+: whole →
      events ≠ whole → (∃ event ∈ events, Event.isStart event) →
      ∃ last, ({ depth := .root } : Stream).handleAll graph settings events =
          (last, [], none) ∧
        ∃ count, last.check = .error (.unterminated count) ∧
          events.countP Event.isStart =
            count + events.countP Event.isFinish) ∧
    (¬ IsDocument settings.maxDepth events →
      ∃ error, feed graph settings events = some error ∧
        ((∃ fault, error = .markup fault) ∨
          ∃ count, error = .unterminated count)) := by
  have accepts := feed_eq_none_iff rooted transcodes
  refine ⟨accepts, ?_, ?_⟩
  · intro whole document early proper begun
    exact handleAll_of_prefix rooted document early proper begun
  · intro other
    have fails := mt accepts.1 other
    obtain ⟨error, failed⟩ := Option.ne_none_iff_exists'.1 fails
    exact ⟨error, failed, feed_eq_some rooted transcodes failed⟩

theorem not_rejects_noteGraph (events : List Event) (error : Error) :
    ¬ Rejects noteGraph {} events error := by
  rintro ⟨front, e, rest, blank, fits, same, fails⟩
  rw [← e.depth_collected] at fits
  rw [transcodeDocument_noteGraph, Graph.checkDepth,
    if_neg (Nat.not_lt_of_le fits)] at fails
  cases fails

/-- A note behind a line break, and the part of it in front of its end tag. -/
theorem feed_note :
    feed noteGraph {}
        [.text "\n", .start ⟨"note", none⟩ [], .text "due", .finish] = none ∧
      feed noteGraph {}
          [.text "\n", .start ⟨"note", none⟩ [], .text "due"] =
        some (.unterminated 1) := by
  have document : IsDocument ({} : Settings).maxDepth
      [.text "\n", .start ⟨"note", none⟩ [], .text "due", .finish] :=
    ⟨[.text "\n"], ⟨⟨"note", none⟩, [], [.text "due"]⟩,
      by simp [Event.IsBlank, Text.isAllBlank]; decide, by decide, rfl⟩
  constructor
  · obtain ⟨accepts, _⟩ := feed_accepts_one_document noteGraph_root {}
      [.text "\n", .start ⟨"note", none⟩ [], .text "due", .finish]
      (not_rejects_noteGraph _)
    exact accepts.2 document
  · obtain ⟨_, unterminated, _⟩ := feed_accepts_one_document noteGraph_root {}
      [.text "\n", .start ⟨"note", none⟩ [], .text "due"]
      (not_rejects_noteGraph _)
    obtain ⟨last, handled, count, checked, counted⟩ := unterminated _ document
      ⟨[.finish], rfl⟩ (by simp) ⟨.start ⟨"note", none⟩ [], by simp, rfl⟩
    obtain rfl : 1 = count := counted
    simp only [feed, handled, checked]

end Stream

end XmlRecords
