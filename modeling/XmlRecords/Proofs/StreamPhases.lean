import XmlRecords.Proofs.StreamSteps

/-!
# What the phase of a stream says

A document is being built while elements are open.  There is one exception: a
document that is split is also taken to be begun once a start tag was refused as
its document element, though nothing is open then.  A later start tag may still
open the document.
-/

namespace XmlRecords.Stream

variable {graph : Graph} {settings : Settings} {depth : EmitDepth}
  {events : List Event} {event : Event} {stream next : Stream}

namespace Steps

/-- With nothing open, only a start tag changes anything.  It is refused as that of
the document element, or it begins the document. -/
theorem of_alone (steps : Steps graph settings stream event next)
    (alone : stream.stack = []) :
    (next = stream ∧ (stream.phase = .finished ∨ settings.maxDepth = 0 ∨
      ∀ name attributes, event ≠ .start name attributes)) ∨
    ∃ name attributes, event = .start name attributes ∧
      stream.phase ≠ .finished ∧ 0 < settings.maxDepth ∧
        next.phase = .building ∧
        ((stream.depth = .children ∧ next.stack = [] ∧
          ∃ error, checkRoot graph settings name attributes = .error error) ∨
        (next.stack ≠ [] ∧ (stream.depth = .children →
          ∃ node, checkRoot graph settings name attributes = .ok node))) := by
  cases steps with
  | rejected event finished => exact .inl ⟨rfl, .inl finished⟩
  | tooDeep name attributes full =>
      rw [alone] at full
      exact .inl ⟨rfl, .inr (.inl (Nat.le_zero.1 full))⟩
  | refused going alone room split refuses =>
      exact .inr ⟨_, _, rfl, going, room, rfl, .inl ⟨split, alone, _, refuses⟩⟩
  | begun name attributes parent going alone room accepts =>
      exact .inr ⟨name, attributes, rfl, going, room, rfl,
        .inr ⟨by simp [push], accepts⟩⟩
  | opened name attributes going inside room => exact absurd alone inside
  | outside | unopened => exact .inl ⟨rfl, .inr (.inr (by simp))⟩
  | told _ inside | ended _ inside | emitted inside | attached inside =>
      rw [alone] at inside
      cases inside

/-- While elements are open, the phase stays and the last one to close ends it. -/
theorem of_inside (steps : Steps graph settings stream event next)
    (inside : stream.stack ≠ []) :
    (next.phase = stream.phase ∧ next.stack ≠ []) ∨
      (next.phase = .finished ∧ next.stack = []) := by
  cases steps with
  | rejected | tooDeep => exact .inl ⟨rfl, inside⟩
  | refused _ alone | begun _ _ _ _ alone | outside _ alone | unopened alone =>
      exact absurd alone inside
  | opened | told | emitted | attached => exact .inl ⟨rfl, by simp [push]⟩
  | ended => exact .inr ⟨rfl, rfl⟩

end Steps

/-- There have been start tags for the document element of a document that is
split, and all of them were refused. -/
structure Refused (graph : Graph) (settings : Settings) (depth : EmitDepth)
    (events : List Event) : Prop where
  split : depth = .children
  room : 0 < settings.maxDepth
  some : ∃ name attributes, .start name attributes ∈ events
  all : ∀ name attributes, .start name attributes ∈ events →
    ∃ error, checkRoot graph settings name attributes = .error error

/-- No element was ever open. -/
def NeverOpened (graph : Graph) (settings : Settings) (depth : EmitDepth)
    (events : List Event) : Prop :=
  ∀ early, early <+: events →
    (after graph settings { depth } early).stack = []

theorem NeverOpened.nil : NeverOpened graph settings depth [] := by
  intro early front
  rw [List.prefix_nil.1 front]
  rfl

theorem neverOpened_concat :
    NeverOpened graph settings depth (events ++ [event]) ↔
      NeverOpened graph settings depth events ∧
        (after graph settings { depth } (events ++ [event])).stack = [] := by
  constructor
  · intro never
    exact ⟨fun early front => never early (front.trans (List.prefix_append _ _)),
      never _ (List.prefix_refl _)⟩
  · rintro ⟨never, alone⟩ early front
    rcases List.prefix_concat_iff.1 front with rfl | front
    · exact alone
    · exact never early front

theorem Refused.concat (refused : Refused graph settings depth events)
    (last : ∀ name attributes, event = .start name attributes →
      ∃ error, checkRoot graph settings name attributes = .error error) :
    Refused graph settings depth (events ++ [event]) where
  split := refused.split
  room := refused.room
  some := by
    obtain ⟨name, attributes, present⟩ := refused.some
    exact ⟨name, attributes, List.mem_append_left _ present⟩
  all := by
    intro name attributes present
    rcases List.mem_append.1 present with present | present
    · exact refused.all name attributes present
    · exact last name attributes (List.mem_singleton.1 present).symm

/-- Some start tag was not refused. -/
def Accepted (graph : Graph) (settings : Settings) (depth : EmitDepth)
    (events : List Event) : Prop :=
  depth = .children →
    ∃ name attributes node, .start name attributes ∈ events ∧
      checkRoot graph settings name attributes = .ok node

theorem Accepted.not_refused (accepted : Accepted graph settings depth events) :
    ¬ Refused graph settings depth events := by
  intro refused
  obtain ⟨name, attributes, node, present, checked⟩ := accepted refused.split
  obtain ⟨error, failed⟩ := refused.all name attributes present
  rw [checked] at failed
  cases failed

theorem Accepted.concat (accepted : Accepted graph settings depth events)
    (event : Event) : Accepted graph settings depth (events ++ [event]) := by
  intro split
  obtain ⟨name, attributes, node, present, checked⟩ := accepted split
  exact ⟨name, attributes, node, List.mem_append_left _ present, checked⟩

/-- How far a document can have come behind events: nothing has begun it, all that
might have begun it was refused, or an element has been open. -/
inductive Course (graph : Graph) (settings : Settings) (depth : EmitDepth)
    (events : List Event) (stream : Stream) : Prop where
  | before (phase : stream.phase = .beforeRoot) (alone : stream.stack = [])
      (never : NeverOpened graph settings depth events)
      (unbegun : settings.maxDepth = 0 ∨
        ∀ name attributes, .start name attributes ∉ events)
  | shut (phase : stream.phase = .building) (alone : stream.stack = [])
      (never : NeverOpened graph settings depth events)
      (refused : Refused graph settings depth events)
  | opened (ever : ¬ NeverOpened graph settings depth events)
      (accepted : Accepted graph settings depth events)
      (phase : stream.phase = .building ∧ stream.stack ≠ [] ∨
        stream.phase = .finished ∧ stream.stack = [])

namespace Course

/-- A first start tag that is refused shuts the document. -/
theorem shut_of_refused {name : QName} {attributes : List Attribute}
    {error : Error} (split : depth = .children) (room : 0 < settings.maxDepth)
    (refuses : checkRoot graph settings name attributes = .error error)
    (unbegun : settings.maxDepth = 0 ∨
      ∀ name attributes, .start name attributes ∉ events) :
    Refused graph settings depth (events ++ [.start name attributes]) where
  split := split
  room := room
  some := ⟨name, attributes, by simp⟩
  all := by
    intro other otherAttributes present
    rcases List.mem_append.1 present with present | present
    · rcases unbegun with none | unbegun
      · exact absurd room (by omega)
      · exact absurd present (unbegun other otherAttributes)
    · cases List.mem_singleton.1 present
      exact ⟨error, refuses⟩

/-- The document element is opened. -/
theorem open_of_begun {name : QName} {attributes : List Attribute}
    (behind : after graph settings { depth }
      (events ++ [.start name attributes]) = next)
    (accepts : depth = .children →
      ∃ node, checkRoot graph settings name attributes = .ok node)
    (phase : next.phase = .building) (inside : next.stack ≠ []) :
    Course graph settings depth (events ++ [.start name attributes]) next := by
  refine .opened (fun never => ?_) (fun split => ?_) (.inl ⟨phase, inside⟩)
  · exact inside (behind ▸ (neverOpened_concat.1 never).2)
  · obtain ⟨node, checked⟩ := accepts split
    exact ⟨name, attributes, node, by simp, checked⟩

/-- Each step takes a document along its course. -/
theorem step (course : Course graph settings depth events stream)
    (mode : stream.depth = depth)
    (steps : Steps graph settings stream event next)
    (behind : after graph settings { depth } (events ++ [event]) = next) :
    Course graph settings depth (events ++ [event]) next := by
  have never_concat : NeverOpened graph settings depth events →
      next.stack = [] → NeverOpened graph settings depth (events ++ [event]) :=
    fun never alone => neverOpened_concat.2 ⟨never, behind ▸ alone⟩
  cases course with
  | before phase alone never unbegun =>
      rcases steps.of_alone alone with
        ⟨rfl, idle⟩ | ⟨name, attributes, rfl, _, room, building, outcome⟩
      · refine .before phase alone (never_concat never alone) ?_
        rcases unbegun with none | unbegun
        · exact .inl none
        · rcases idle with finished | none | other
          · rw [phase] at finished
            cases finished
          · exact .inl none
          · refine .inr fun name attributes present => ?_
            rcases List.mem_append.1 present with present | present
            · exact unbegun name attributes present
            · exact other name attributes (List.mem_singleton.1 present).symm
      · rcases outcome with ⟨split, alone, error, refuses⟩ | ⟨inside, accepts⟩
        · exact .shut building alone (never_concat never alone)
            (shut_of_refused (mode ▸ split) room refuses unbegun)
        · exact open_of_begun behind (mode ▸ accepts) building inside
  | shut phase alone never refused =>
      -- A refused start tag shuts nothing for good: the next one may be accepted.
      rcases steps.of_alone alone with
        ⟨rfl, idle⟩ | ⟨name, attributes, rfl, _, room, building, outcome⟩
      · refine .shut phase alone (never_concat never alone)
          (refused.concat fun name attributes start => ?_)
        rcases idle with finished | none | other
        · rw [phase] at finished
          cases finished
        · exact absurd refused.room (by omega)
        · exact absurd start (other name attributes)
      · rcases outcome with ⟨split, alone, error, refuses⟩ | ⟨inside, accepts⟩
        · refine .shut building alone (never_concat never alone)
            (refused.concat fun other otherAttributes start => ?_)
          cases start
          exact ⟨error, refuses⟩
        · exact open_of_begun behind (mode ▸ accepts) building inside
  | opened ever accepted phase =>
      refine .opened (fun never => ever (neverOpened_concat.1 never).1)
        (accepted.concat event) ?_
      rcases phase with ⟨building, inside⟩ | ⟨finished, alone⟩
      · rw [← building]
        exact steps.of_inside inside
      · rcases steps.of_alone alone with
          ⟨rfl, _⟩ | ⟨_, _, _, going, _⟩
        · exact .inr ⟨finished, alone⟩
        · exact absurd finished going

/-- Behind any events a document is somewhere on its course. -/
theorem after (graph : Graph) (settings : Settings) (depth : EmitDepth)
    (events : List Event) :
    Course graph settings depth events
      (Stream.after graph settings { depth } events) := by
  induction events using List.reverseRecOn with
  | nil => exact .before rfl rfl .nil (.inr (by simp))
  | append_singleton events event ih =>
      have mode := (Bounded.after graph settings depth events).mode
      rw [after_concat]
      exact ih.step mode (steps_handle graph settings _ event)
        (after_concat graph settings _ events event)

end Course

/-- A document is being built exactly while elements are open, unless all start
tags for its document element were refused.  Likewise its end is missed exactly
with the elements that are open, and its beginning exactly where no element was
ever open. -/
theorem building_iff_of_after (graph : Graph) (settings : Settings)
    (depth : EmitDepth) (events : List Event) :
    ((after graph settings { depth } events).phase = .building ↔
      1 ≤ (after graph settings { depth } events).stack.length ∨
        Refused graph settings depth events) ∧
    (∀ count, (after graph settings { depth } events).check =
        .error (.unterminated count) ↔
      count = (after graph settings { depth } events).stack.length ∧
        (1 ≤ count ∨ Refused graph settings depth events)) ∧
    ((after graph settings { depth } events).check =
        .error (.markup .noRootElement) ↔
      NeverOpened graph settings depth events ∧
        ¬ Refused graph settings depth events) := by
  have course := Course.after graph settings depth events
  generalize after graph settings { depth } events = stream at course
  cases course with
  | before phase alone never unbegun =>
      have unrefused : ¬ Refused graph settings depth events := by
        intro refused
        obtain ⟨name, attributes, present⟩ := refused.some
        rcases unbegun with none | unbegun
        · exact absurd refused.room (by omega)
        · exact unbegun name attributes present
      simp [check, phase, alone, never, unrefused]
  | shut phase alone never refused =>
      simp [check, phase, alone, refused, eq_comm]
  | opened ever accepted phase =>
      have unrefused := accepted.not_refused
      rcases phase with ⟨phase, inside⟩ | ⟨phase, alone⟩
      · have some := List.length_pos_iff.2 inside
        simp only [check, phase, ever, unrefused, or_false, true_iff,
          Except.error.injEq, Error.unterminated.injEq, false_and, iff_false]
        exact ⟨some, fun count => by omega, by simp⟩
      · simp [check, phase, alone, ever, unrefused]

/-- Feeds of any elements. -/
def feedGraph : Graph where
  nodes := #[.record ⟨some ⟨"feed", none⟩, .type, [], none, none, none⟩]
  root := some 0

/-- With a document element refused for its attributes, a document is being built
of which nothing was ever open, and its end is missed with no element open. -/
theorem building_with_nothing_open :
    (after feedGraph {} { depth := .children }
        [.start ⟨"feed", none⟩ [⟨⟨"id", none⟩, "1"⟩]]).phase = .building ∧
      (after feedGraph {} { depth := .children }
        [.start ⟨"feed", none⟩ [⟨⟨"id", none⟩, "1"⟩]]).stack.length = 0 ∧
      (after feedGraph {} { depth := .children }
        [.start ⟨"feed", none⟩ [⟨⟨"id", none⟩, "1"⟩]]).check =
          .error (.unterminated 0) := by
  decide

end XmlRecords.Stream
