import Mathlib.Data.List.Induction
import XmlRecords.Proofs.StreamedDocument

/-!
# Streams behind any events

Whatever events a stream has handled, also behind those that failed, its open
elements are within the limit on levels together with what has been collected in
them.  A document that is split is never held as a whole, phases follow each other
in one direction, and nothing is open behind the end of a document.
-/

namespace XmlRecords

/-- How phases follow each other. -/
inductive StreamPhase.Leads : StreamPhase → StreamPhase → Prop where
  | stays (phase : StreamPhase) : Leads phase phase
  | begins : Leads .beforeRoot .building
  | ends : Leads .building .finished

theorem OpenElement.depth_close (e : OpenElement) :
    e.close.depth = Content.depthOfList e.content + 1 := by
  rw [← Content.depthOfList_reverse]
  rfl

theorem Content.filterMap_element?_pushText (latest : List Content)
    (run : String) :
    (pushText latest run).filterMap element? = latest.filterMap element? := by
  unfold pushText
  split
  · rfl
  · split <;> rfl

namespace Stream

variable {graph : Graph} {settings : Settings} {stream next : Stream}
  {event : Event}

/-- The stream behind events, whether they failed or not. -/
def after (graph : Graph) (settings : Settings) (stream : Stream)
    (events : List Event) : Stream :=
  events.foldl (fun stream event => (stream.handle graph settings event).1)
    stream

theorem after_concat (graph : Graph) (settings : Settings) (stream : Stream)
    (events : List Event) (event : Event) :
    after graph settings stream (events ++ [event]) =
      ((after graph settings stream events).handle graph settings event).1 := by
  simp [after]

/-- All that an event can do to a stream. -/
inductive Steps (graph : Graph) (settings : Settings) (stream : Stream) :
    Event → Stream → Prop where
  | rejected (event : Event) (finished : stream.phase = .finished) :
      Steps graph settings stream event stream
  | tooDeep (name : QName) (attributes : List Attribute)
      (full : settings.maxDepth ≤ stream.stack.length) :
      Steps graph settings stream (.start name attributes) stream
  | refused {name : QName} {attributes : List Attribute} {error : Error}
      (going : stream.phase ≠ .finished) (alone : stream.stack = [])
      (room : 0 < settings.maxDepth) (split : stream.depth = .children)
      (refuses : checkRoot graph settings name attributes = .error error) :
      Steps graph settings stream (.start name attributes)
        { stream with phase := .building }
  | begun (name : QName) (attributes : List Attribute) (parent : Option Nat)
      (going : stream.phase ≠ .finished) (alone : stream.stack = [])
      (room : 0 < settings.maxDepth)
      (accepts : stream.depth = .children →
        ∃ node, checkRoot graph settings name attributes = .ok node) :
      Steps graph settings stream (.start name attributes)
        ({ stream with phase := .building, parent }.push name attributes)
  | opened (name : QName) (attributes : List Attribute)
      (going : stream.phase ≠ .finished) (inside : stream.stack ≠ [])
      (room : stream.stack.length < settings.maxDepth) :
      Steps graph settings stream (.start name attributes)
        (stream.push name attributes)
  | outside (value : String) (alone : stream.stack = []) :
      Steps graph settings stream (.text value) stream
  | told (value : String) {top : OpenElement} {others : List OpenElement}
      (inside : stream.stack = top :: others) :
      Steps graph settings stream (.text value)
        { stream with
          stack :=
            { top with content := Content.pushText top.content value } ::
              others }
  | unopened (alone : stream.stack = []) :
      Steps graph settings stream .finish stream
  | ended {root : OpenElement} (going : stream.phase ≠ .finished)
      (last : stream.stack = [root]) :
      Steps graph settings stream .finish
        { stream with stack := [], phase := .finished }
  | emitted {top outer : OpenElement} {rest : List OpenElement}
      (inside : stream.stack = top :: outer :: rest)
      (due : rest.length + 2 = stream.depth.level) :
      Steps graph settings stream .finish
        { stream with stack := outer :: rest }
  | attached {top outer : OpenElement} {rest : List OpenElement}
      (inside : stream.stack = top :: outer :: rest)
      (early : rest.length + 2 ≠ stream.depth.level) :
      Steps graph settings stream .finish
        { stream with
          stack :=
            { outer with content := .ofElement top.close :: outer.content } ::
              rest }

theorem steps_start (graph : Graph) (settings : Settings)
    (going : stream.phase ≠ .finished) (name : QName)
    (attributes : List Attribute) :
    Steps graph settings stream (.start name attributes)
      (stream.start graph settings name attributes).1 := by
  rw [start]
  split
  · next full => exact .tooDeep name attributes full
  · next room =>
      split
      · next inside =>
          refine .opened name attributes going ?_ (Nat.lt_of_not_le room)
          simpa using inside
      · next alone =>
          have alone : stream.stack = [] := by simpa using alone
          have room : 0 < settings.maxDepth := by
            rw [alone] at room
            exact Nat.lt_of_not_le room
          dsimp only
          split
          · next whole =>
              exact .begun name attributes stream.parent going alone room
                fun split => by simp [whole] at split
          · next split =>
              split
              · next refuses => exact .refused going alone room split refuses
              · next parent accepts =>
                  exact .begun name attributes (some parent) going alone room
                    fun _ => ⟨parent, accepts⟩

theorem steps_text (graph : Graph) (settings : Settings) (stream : Stream)
    (value : String) :
    Steps graph settings stream (.text value) (stream.text value).1 := by
  rw [text]
  split
  · next top others inside => exact .told value inside
  · next alone =>
      split
      · exact .outside value alone
      · exact .outside value alone

theorem steps_finish (graph : Graph) (settings : Settings)
    (going : stream.phase ≠ .finished) :
    Steps graph settings stream .finish (stream.finish graph settings).1 := by
  rw [finish]
  split
  · next alone => exact .unopened alone
  · next top others inside =>
      cases others with
      | nil =>
          have ended : Steps graph settings stream .finish _ :=
            .ended going inside
          dsimp only
          split <;> exact ended
      | cons outer rest =>
          rw [inside]
          dsimp only
          split
          · next due => exact .emitted inside due
          · next early => exact .attached inside early

/-- An event does one of the things that events do, also if it fails. -/
theorem steps_handle (graph : Graph) (settings : Settings) (stream : Stream)
    (event : Event) :
    Steps graph settings stream event
      (stream.handle graph settings event).1 := by
  unfold handle
  split
  · next finished => exact .rejected event finished
  · next going =>
      cases event with
      | start name attributes =>
          exact steps_start graph settings going name attributes
      | text value => exact steps_text graph settings stream value
      | finish => exact steps_finish graph settings going

/-- Open elements are within a limit on levels, each together with what has been
collected in it. -/
def Fits (limit : Nat) : List OpenElement → Prop
  | [] => True
  | top :: others =>
      others.length + top.close.depth ≤ limit ∧ Fits limit others

namespace Fits

variable {limit : Nat} {stack : List OpenElement}

theorem length_le (fits : Fits limit stack) : stack.length ≤ limit := by
  cases stack with
  | nil => exact Nat.zero_le _
  | cons top others =>
      have deep := fits.1
      rw [OpenElement.depth_close] at deep
      rw [List.length_cons]
      omega

/-- Counted from the document element, an open element has as many levels above
it as its place says. -/
theorem add_depth_le (fits : Fits limit stack) {place : Nat} {e : OpenElement}
    (found : stack.reverse[place]? = some e) :
    place + e.close.depth ≤ limit := by
  induction stack with
  | nil => simp at found
  | cons top others ih =>
      rw [List.reverse_cons, List.getElem?_append] at found
      split at found
      · exact ih fits.2 found
      · next behind =>
          rw [List.length_reverse] at found behind
          rw [List.getElem?_singleton] at found
          split at found
          · cases found
            have deep := fits.1
            omega
          · cases found

end Fits

/-- What holds of a stream behind any events: its open elements are within the
limit on levels, a document that is split keeps no child of its document element,
and nothing is open outside the document. -/
structure Bounded (settings : Settings) (depth : EmitDepth) (stream : Stream) :
    Prop where
  mode : stream.depth = depth
  fits : Fits settings.maxDepth stream.stack
  retained : depth = .children → stream.retained = 0
  unbegun : stream.phase = .beforeRoot → stream.stack = []
  ended : stream.phase = .finished → stream.stack = []

theorem retained_cons_cons (depth : EmitDepth) (phase : StreamPhase)
    (parent : Option Nat) (top outer : OpenElement) (rest : List OpenElement) :
    retained ⟨depth, phase, top :: outer :: rest, parent⟩ =
      retained ⟨depth, phase, outer :: rest, parent⟩ := by
  rw [retained, retained, List.getLast?_cons_cons]

/-- The children that a document element holds are those in its content. -/
theorem retained_singleton (depth : EmitDepth) (phase : StreamPhase)
    (parent : Option Nat) (root : OpenElement) :
    retained ⟨depth, phase, [root], parent⟩ =
      (root.content.filterMap Content.element?).length :=
  rfl

theorem retained_told (depth : EmitDepth) (phase : StreamPhase)
    (parent : Option Nat) (top : OpenElement) (others : List OpenElement)
    (value : String) :
    retained ⟨depth, phase,
        { top with content := Content.pushText top.content value } :: others,
        parent⟩ =
      retained ⟨depth, phase, top :: others, parent⟩ := by
  cases others with
  | nil =>
      rw [retained_singleton, retained_singleton,
        Content.filterMap_element?_pushText]
  | cons outer rest => rw [retained_cons_cons, retained_cons_cons]

namespace Bounded

variable {depth : EmitDepth}

theorem start (settings : Settings) (depth : EmitDepth) :
    Bounded settings depth { depth } where
  mode := rfl
  fits := trivial
  retained := fun _ => rfl
  unbegun := fun _ => rfl
  ended := fun _ => rfl

/-- Each step keeps the bounds. -/
theorem step (bounded : stream.Bounded settings depth)
    (steps : Steps graph settings stream event next) :
    next.Bounded settings depth := by
  obtain ⟨mode, phase, stack, parent⟩ := stream
  obtain ⟨rfl, fits, retained, unbegun, ended⟩ := bounded
  cases steps with
  | rejected | tooDeep | outside | unopened =>
      exact ⟨rfl, fits, retained, unbegun, ended⟩
  | refused going alone room split refuses =>
      exact ⟨rfl, fits, retained, fun _ => alone, fun _ => alone⟩
  | begun name attributes parent going alone room accepts =>
      cases alone
      exact ⟨rfl, ⟨room, trivial⟩, fun _ => rfl, by simp [Stream.push],
        by simp [Stream.push]⟩
  | opened name attributes going inside room =>
      refine ⟨rfl, ⟨room, fits⟩, ?_, fun before => absurd (unbegun before) inside,
        fun finished => absurd finished going⟩
      intro split
      cases stack with
      | nil => exact absurd rfl inside
      | cons outer rest =>
          rw [Stream.push, retained_cons_cons]
          exact retained split
  | @told value top others inside =>
      cases inside
      refine ⟨rfl, ⟨?_, fits.2⟩, ?_,
        fun before => by simpa using unbegun before,
        fun finished => by simpa using ended finished⟩
      · have deep := fits.1
        rw [OpenElement.depth_close] at deep ⊢
        rwa [Content.depthOfList_pushText]
      · intro split
        rw [retained_told]
        exact retained split
  | ended going last =>
      exact ⟨rfl, trivial, fun _ => rfl, fun _ => rfl, fun _ => rfl⟩
  | emitted inside due =>
      cases inside
      refine ⟨rfl, fits.2, ?_, fun before => by simpa using unbegun before,
        fun finished => by simpa using ended finished⟩
      intro split
      have kept := retained split
      rwa [retained_cons_cons] at kept
  | @attached top outer rest inside early =>
      cases inside
      refine ⟨rfl, ⟨?_, fits.2.2⟩, ?_,
        fun before => by simpa using unbegun before,
        fun finished => by simpa using ended finished⟩
      · have deep := fits.1
        have shallow := fits.2.1
        rw [OpenElement.depth_close] at shallow ⊢
        rw [List.length_cons] at deep
        rw [Content.depthOfList]
        have same : (Content.ofElement top.close).depth = top.close.depth := rfl
        omega
      · -- At the level of children a value is due, so the parent of what is kept
        -- is not the document element.
        intro split
        have kept := retained split
        cases split
        cases rest with
        | nil => exact absurd (show 2 = EmitDepth.children.level from rfl) early
        | cons root others =>
            rw [retained_cons_cons] at kept ⊢
            rwa [retained_cons_cons] at kept

/-- The bounds hold behind any events. -/
theorem after (graph : Graph) (settings : Settings) (depth : EmitDepth)
    (events : List Event) :
    (Stream.after graph settings { depth } events).Bounded settings depth := by
  induction events using List.reverseRecOn with
  | nil => exact .start settings depth
  | append_singleton events event ih =>
      rw [after_concat]
      exact ih.step (steps_handle graph settings _ event)

/-- A step leads to the same phase or the next one. -/
theorem leads (bounded : stream.Bounded settings depth)
    (steps : Steps graph settings stream event next) :
    stream.phase.Leads next.phase := by
  obtain ⟨mode, phase, stack, parent⟩ := stream
  cases steps with
  | refused going | begun _ _ _ going =>
      cases phase with
      | beforeRoot => exact .begins
      | building => exact .stays _
      | finished => exact absurd rfl going
  | ended going last =>
      cases phase with
      | beforeRoot =>
          have alone := last.symm.trans (bounded.unbegun rfl)
          cases alone
      | building => exact .ends
      | finished => exact absurd rfl going
  | _ => exact .stays _

/-- No open element has too many levels to be transcoded. -/
theorem checkDepth_eq_ok (bounded : stream.Bounded settings depth)
    {e : OpenElement} (inside : e ∈ stream.stack) :
    Graph.checkDepth settings e.close = .ok () := by
  obtain ⟨place, found⟩ :=
    List.getElem?_of_mem (List.mem_reverse.2 inside)
  have shallow := bounded.fits.add_depth_le found
  rw [Graph.checkDepth, if_neg (by omega)]

end Bounded

end Stream

namespace Graph

variable {graph : Graph} {settings : Settings}

theorem unmarked_transcodeRoot {e : Element}
    (fits : checkDepth settings e = .ok ()) (node : Nat) :
    Unmarked (graph.transcodeRoot settings node e) := by
  rw [transcodeRoot, fits]
  refine (Unmarked.ok ()).bind fun _ => ?_
  split
  · exact unmarked_convert _ _ _
  · refine (unmarked_documentField _ _).bind fun _ => ?_
    exact (unmarked_convert _ _ _).bind fun _ => .ok _

theorem unmarked_convertAlong (zone : Zone) (e : Element) (r : Record)
    (route : Route) : Unmarked (graph.convertAlong zone e r route) := by
  induction route generalizing r with
  | field index =>
      rw [convertAlong]
      split
      · exact .field _
      · exact (unmarked_convert _ _ _).map _
  | group index item rest ih => exact ih item
  | wildcard index =>
      rw [convertAlong]
      split
      · exact .ok _
      · exact .field _

theorem unmarked_transcodeChild {e : Element}
    (fits : checkDepth settings e = .ok ()) (r : Record) :
    Unmarked (graph.transcodeChild settings r e) := by
  rw [transcodeChild, fits]
  refine (Unmarked.ok ()).bind fun _ => ?_
  split
  · exact .field _
  · exact unmarked_convertAlong _ _ _ _

end Graph

namespace Stream

variable {graph : Graph} {settings : Settings}

/-- Only the depth of an element that is due could be at fault for markup. -/
theorem unmarked_emit {e : Element} (fits : Graph.checkDepth settings e = .ok ())
    (graph : Graph) (stream : Stream) :
    Unmarked (stream.emit graph settings e) := by
  rw [emit]
  split
  · rw [Graph.rootNode]
    split
    · refine (Unmarked.ok _).bind fun _ => ?_
      exact (Graph.unmarked_transcodeRoot fits _).bind fun _ => .ok _
    · intro fault same
      cases same
  · split
    · exact .field _
    · exact (Graph.unmarked_transcodeChild fits _).bind fun _ => .ok _

/-- What can be relied on between any two events: as many open elements as there
may be levels, each with no more collected in it than its place leaves room for;
no element that is too deep when its value is due; no child left in the document
element of a document that is split; and a phase that moves forward up to the end,
where nothing is open and nothing is accepted any more. -/
structure Steady (graph : Graph) (settings : Settings) (depth : EmitDepth)
    (stream : Stream) : Prop where
  opened : stream.stack.length ≤ settings.maxDepth
  levels : ∀ place e, stream.stack.reverse[place]? = some e →
    (place + 1) + e.close.depth - 1 ≤ settings.maxDepth
  checked : ∀ e ∈ stream.stack, Graph.checkDepth settings e.close = .ok ()
  emits : ∀ limit, (stream.handle graph settings .finish).2 ≠
    .error (.markup (.tooDeep limit))
  retained : depth = .children → stream.retained = 0
  leads : ∀ event,
    stream.phase.Leads (stream.handle graph settings event).1.phase
  ended : stream.phase = .finished → stream.stack = [] ∧
    ∀ event, stream.handle graph settings event =
      (stream, .error (.markup .afterDocument))

theorem handle_finish_ne_tooDeep {stream : Stream}
    (checked : ∀ e ∈ stream.stack, Graph.checkDepth settings e.close = .ok ())
    (graph : Graph) (limit : Nat) :
    (stream.handle graph settings .finish).2 ≠
      .error (.markup (.tooDeep limit)) := by
  unfold handle
  split
  · simp
  · dsimp only
    rw [finish]
    split
    · simp
    · next top others inside =>
        have fits := checked top (inside ▸ List.mem_cons_self)
        dsimp only
        split
        · exact (unmarked_emit fits graph _).map some _
        · split <;> simp

/-- A stream is steady behind any events, whether they failed or not. -/
theorem steady_after (graph : Graph) (settings : Settings) (depth : EmitDepth)
    (events : List Event) :
    (after graph settings { depth } events).Steady graph settings depth := by
  have bounded := Bounded.after graph settings depth events
  have checked := fun e => bounded.checkDepth_eq_ok (e := e)
  refine ⟨bounded.fits.length_le, ?_, checked,
    handle_finish_ne_tooDeep checked graph, bounded.retained, ?_, ?_⟩
  · intro place e found
    have shallow := bounded.fits.add_depth_le found
    omega
  · exact fun event => bounded.leads (steps_handle graph settings _ event)
  · intro finished
    refine ⟨bounded.ended finished, fun event => ?_⟩
    rw [handle.eq_def, if_pos finished]

end Stream

end XmlRecords
