import XmlRecords.Proofs.LoweringRuns

/-!
# Visits to types

A type with a name is entered at most once in a whole run, since from then on it leads
back to its record.  A type without a name is entered only when it has been left as
often as it has been entered, that is when it is not open.  Each type that is entered
leaves fewer of them closed, and a type that is left leaves no more of them closed than
there were before, so lowering ends.
-/

namespace XmlRecords

namespace Lowering

variable {α β : Type} {components : Components} {b c d : Builder}

/-- After some visits a type may be entered: no type of its name has been, or, if it has
none, it has been left as often as it has been entered. -/
def MayEnter (components : Components) (visits : List Visit) (id : Nat) : Prop :=
  match (components.typeAt id).name with
  | some name => ∀ other, .enter other ∈ visits → (components.typeAt other).name ≠ some name
  | none => visits.count (.enter id) = visits.count (.leave id)

/-- Behind some visits, each type is entered only when it may be. -/
def Orderly (components : Components) (past visits : List Visit) : Prop :=
  ∀ before id after, visits = before ++ .enter id :: after →
    MayEnter components (past ++ before) id

/-- A type leads back to no record: it has not been entered, or it has been left and has
no name. -/
def Closed (components : Components) (b : Builder) (id : Nat) : Prop :=
  openRecord? b id (components.typeAt id) = none

instance (components : Components) (b : Builder) : DecidablePred (Closed components b) :=
  fun _ => inferInstanceAs (Decidable (_ = none))

/-- The tables of a builder account for some visits. -/
def Accounts (components : Components) (visits : List Visit) (b : Builder) : Prop :=
  ∀ id, Closed components b id → MayEnter components visits id

/-- No type is closed that was open before. -/
def StaysOpen (components : Components) (b c : Builder) : Prop :=
  ∀ id, Closed components c id → Closed components b id

/-- Each type that is entered is left. -/
def Balanced (visits : List Visit) : Prop :=
  ∀ id, visits.count (.enter id) = visits.count (.leave id)

section Tables

/-- Two builders have noted the same records of types. -/
def SameTables (b c : Builder) : Prop := c.named = b.named ∧ c.anonymous = b.anonymous

theorem SameTables.closed_iff (same : SameTables b c) {id : Nat} :
    Closed components c id ↔ Closed components b id := by
  rw [Closed, Closed, openRecord?, openRecord?, same.1, same.2]

/-- A computation that does not fail and does not note or forget records of types. -/
def Neutral (m : Build α) : Prop :=
  ∀ b, ∃ x c, m.run b = .ok (x, c) ∧ SameTables b c

namespace Neutral

theorem pure (x : α) : Neutral (pure x) := fun b => ⟨x, b, rfl, rfl, rfl⟩

theorem bind {m : Build α} {next : α → Build β} (first : Neutral m)
    (further : ∀ x, Neutral (next x)) : Neutral (m >>= next) := by
  intro b
  obtain ⟨x, c, ended, named, anonymous⟩ := first b
  obtain ⟨y, d, ended', named', anonymous'⟩ := further x c
  exact ⟨y, d, Run.bind_eq_ok.2 ⟨x, c, ended, ended'⟩, named'.trans named,
    anonymous'.trans anonymous⟩

theorem addNode (node : Node) : Neutral (addNode node) :=
  fun _ => ⟨_, _, rfl, rfl, rfl⟩

theorem setFields (id : Nat) (fields : Fields) : Neutral (setFields id fields) :=
  fun _ => ⟨_, _, rfl, rfl, rfl⟩

theorem datatypeNode (datatype : Datatype) : Neutral (datatypeNode datatype) := by
  intro b
  rw [Lowering.datatypeNode, primitiveNode, Run.get_bind]
  split
  · exact ⟨_, _, rfl, rfl, rfl⟩
  · exact ⟨_, _, rfl, rfl, rfl⟩

theorem optionalNode (inner : Nat) : Neutral (optionalNode inner) := by
  intro b
  rw [Lowering.optionalNode, Run.get_bind]
  split <;> exact ⟨_, _, rfl, rfl, rfl⟩

theorem mapNode : Neutral mapNode :=
  (datatypeNode .string).bind fun _ => addNode _

theorem occurrenceNode (repeated optional : Bool) (node : Nat) :
    Neutral (occurrenceNode repeated optional node) := by
  rw [Lowering.occurrenceNode]
  split
  · exact addNode _
  · split
    · exact optionalNode node
    · exact pure node

theorem beginGroup (compositor : Compositor) : Neutral (beginGroup compositor) :=
  fun _ => ⟨_, _, rfl, rfl, rfl⟩

theorem finishGroup (fields : Fields) (item : Nat) (inner : Fields) :
    Neutral (finishGroup fields item inner) :=
  (setFields item inner).bind fun _ => (addNode _).bind fun _ => pure _

theorem finishElement (optional : Bool) (fields : Fields) (occurs : Occurs)
    (declaration : ElementDecl) (node : Nat) :
    Neutral (finishElement optional fields occurs declaration node) :=
  (occurrenceNode _ _ node).bind fun _ => pure _

theorem addWildcard (fields : Fields) : Neutral (addWildcard fields) :=
  mapNode.bind fun _ => pure _

theorem textFields (type : ComplexType) : Neutral (textFields type) := by
  rw [Lowering.textFields]
  split
  · exact pure _
  · exact (datatypeNode _).bind fun _ => pure _

theorem attributeNode (a : AttributeUse) : Neutral (attributeNode a) := by
  refine (datatypeNode a.datatype).bind fun node => ?_
  split
  · exact pure node
  · exact optionalNode node

theorem addAttributes (fields : Fields) (attributes : List AttributeUse) :
    Neutral (addAttributes fields attributes) := by
  induction attributes generalizing fields with
  | nil => exact pure fields
  | cons a rest ih => exact (attributeNode a).bind fun _ => ih _

theorem addRest (type : ComplexType) (fields : Fields) : Neutral (addRest type fields) := by
  refine (addAttributes fields type.attributes).bind fun fields => ?_
  rw [addAttributeWildcard]
  split
  · exact mapNode.bind fun _ => pure _
  · exact pure fields

end Neutral

theorem lookup_eq_none_of_cons {κ ν : Type} [BEq κ] [LawfulBEq κ]
    {entry : κ × ν} {table : List (κ × ν)} {key : κ}
    (absent : (entry :: table).lookup key = none) : table.lookup key = none :=
  List.lookup_eq_none_iff.2 fun other member =>
    List.lookup_eq_none_iff.1 absent other (List.mem_cons_of_mem _ member)

/-- A type that begins is open, and none of the others is closed by that. -/
theorem run_beginType (components : Components) (b : Builder) (id : Nat) :
    ∃ node c, (beginType id (components.typeAt id)).run b = .ok (node, c) ∧
      StaysOpen components b c ∧ ¬ Closed components c id := by
  cases isNamed : (components.typeAt id).name with
  | some name =>
      refine ⟨_, _, run_beginType_of_name isNamed b id, ?_,
        by simp [Closed, openRecord?, isNamed]⟩
      intro other closed
      rw [Closed, openRecord?] at closed ⊢
      split <;> simp only [*] at closed
      · exact lookup_eq_none_of_cons closed
      · exact closed
  | none =>
      refine ⟨_, _, run_beginType_of_unnamed isNamed b id, ?_,
        by simp [Closed, openRecord?, isNamed]⟩
      intro other closed
      rw [Closed, openRecord?] at closed ⊢
      split <;> simp only [*] at closed
      · exact closed
      · exact lookup_eq_none_of_cons closed

/-- A type that is complete is closed if it has no name, and no other is closed by
that. -/
theorem run_finishType (components : Components) (b : Builder) (id node : Nat)
    (fields : Fields) :
    ∃ c, (finishType id (components.typeAt id) node fields).run b = .ok (node, c) ∧
      ∀ other, Closed components c other →
        Closed components b other ∨ other = id ∧ (components.typeAt id).name = none := by
  rw [finishType, closeType]
  split
  · next unnamed =>
      refine ⟨_, rfl, ?_⟩
      intro other closed
      by_cases here : other = id
      · exact .inr ⟨here, Option.isNone_iff_eq_none.1 unnamed⟩
      · left
        rw [Closed, openRecord?] at closed ⊢
        split <;> simp only [*] at closed
        · exact closed
        · refine List.lookup_eq_none_iff.2 fun entry member => ?_
          by_cases same : other = entry.1
          · refine List.lookup_eq_none_iff.1 closed entry (List.mem_filter.2 ⟨member, ?_⟩)
            simpa [← same] using here
          · simpa using same
  · exact ⟨_, rfl, fun other closed => .inl closed⟩

end Tables

section Order

variable {past visits more before after : List Visit} {id other : Nat}

theorem MayEnter.enter (may : MayEnter components past other) (apart : other ≠ id)
    (names : ∀ name, (components.typeAt other).name = some name →
      (components.typeAt id).name ≠ some name) :
    MayEnter components (past ++ [.enter id]) other := by
  rw [MayEnter] at may ⊢
  split at may
  · next name isNamed =>
      intro third member
      rcases List.mem_append.1 member with member | member
      · exact may third member
      · cases List.mem_singleton.1 member
        exact names name isNamed
  · simpa [List.count_append, apart, Ne.symm apart] using may

theorem MayEnter.append_balanced (may : MayEnter components past id)
    (unnamed : (components.typeAt id).name = none) (balanced : Balanced visits) :
    MayEnter components (past ++ visits) id := by
  simp only [MayEnter, unnamed] at may ⊢
  rw [List.count_append, List.count_append, may, balanced]

theorem MayEnter.leave (may : MayEnter components past other) (apart : other ≠ id) :
    MayEnter components (past ++ [.leave id]) other := by
  rw [MayEnter] at may ⊢
  split at may
  · intro third member
    rcases List.mem_append.1 member with member | member
    · exact may third member
    · cases List.mem_singleton.1 member
  · simpa [List.count_append, apart, Ne.symm apart] using may

theorem Balanced.nil : Balanced [] := fun _ => rfl

theorem Balanced.append (one : Balanced visits) (two : Balanced more) :
    Balanced (visits ++ more) := by
  intro id
  rw [List.count_append, List.count_append, one, two]

/-- A type that is left after all within it is balanced again. -/
theorem Balanced.around (balanced : Balanced visits) (id : Nat) :
    Balanced (.enter id :: (visits ++ [.leave id])) := by
  intro other
  by_cases here : other = id
  · simp [List.count_append, here, balanced id]
  · simp [List.count_append, Ne.symm here, balanced other]

theorem Orderly.nil : Orderly components past [] := by
  intro before id after same
  simp at same

theorem Orderly.cons_enter (may : MayEnter components past id)
    (orderly : Orderly components (past ++ [.enter id]) visits) :
    Orderly components past (.enter id :: visits) := by
  intro before other after same
  cases before with
  | nil =>
      cases same
      rw [List.append_nil]
      exact may
  | cons first before =>
      cases same
      have inside := orderly before other after rfl
      rwa [List.append_assoc] at inside

theorem Orderly.append (one : Orderly components past visits)
    (two : Orderly components (past ++ visits) more) :
    Orderly components past (visits ++ more) := by
  intro before id after same
  rcases List.append_eq_append_iff.1 same with ⟨middle, rfl, rfl⟩ | ⟨middle, rfl, split⟩
  · have inside := two middle id after rfl
    rwa [List.append_assoc] at inside
  · cases middle with
    | nil =>
        have inside := two [] id after (by simpa using split.symm)
        simpa using inside
    | cons first middle =>
        cases split
        exact one before id middle rfl

theorem Orderly.leave : Orderly components past [.leave id] := by
  intro before other after same
  cases before with
  | nil => cases same
  | cons first before => simp at same

theorem Accounts.congr (accounts : Accounts components past b) (same : SameTables b c) :
    Accounts components past c :=
  fun id closed => accounts id (same.closed_iff.1 closed)

/-- A type that is entered is open from then on. -/
theorem Accounts.enter (accounts : Accounts components past b)
    (stays : StaysOpen components b c) (opened : ¬ Closed components c id) :
    Accounts components (past ++ [.enter id]) c := by
  intro other closed
  refine (accounts other (stays other closed)).enter ?_ ?_
  · rintro rfl
    exact opened closed
  · -- Of two types with one name both are open or both are closed.
    intro name isNamed same
    apply opened
    rw [Closed, openRecord?, isNamed] at closed
    rw [Closed, openRecord?, same]
    exact closed

/-- A type that is left may be entered again if it has no name. -/
theorem Accounts.leave (start : MayEnter components past id)
    (accounts : Accounts components (past ++ .enter id :: visits) b)
    (balanced : Balanced visits) (opened : ¬ Closed components b id)
    (closes : ∀ other, Closed components c other →
      Closed components b other ∨ other = id ∧ (components.typeAt id).name = none) :
    Accounts components (past ++ .enter id :: (visits ++ [.leave id])) c := by
  intro other closed
  rcases closes other closed with before | ⟨rfl, unnamed⟩
  · have apart : other ≠ id := by
      rintro rfl
      exact opened before
    have later := (accounts other before).leave apart
    rwa [List.append_assoc, List.cons_append] at later
  · exact start.append_balanced unnamed (balanced.around other)

end Order

section Outcomes

/-- What becomes of the tables of a builder on a run: types are entered in order, the
tables account for the visits, no type is closed that was open, and each type that is
entered is left unless the run fails. -/
structure Outcome (components : Components) (b : Builder) (visits : List Visit)
    (ending : Ending α) : Prop where
  orderly : ∀ past, Accounts components past b → Orderly components past visits
  accounts : ∀ past x c, Accounts components past b → ending = .ok (x, c) →
    Accounts components (past ++ visits) c
  staysOpen : ∀ x c, ending = .ok (x, c) → StaysOpen components b c
  balanced : ∀ x c, ending = .ok (x, c) → Balanced visits

namespace Outcome

variable {visits more : List Visit} {ending : Ending α} {x : α}

/-- Nothing happens to types. -/
theorem still (same : ∀ x c, ending = .ok (x, c) → SameTables b c) :
    Outcome components b [] ending where
  orderly _ _ := .nil
  accounts past x c accounts ended := by
    rw [List.append_nil]
    exact accounts.congr (same x c ended)
  staysOpen x c ended _ := (same x c ended).closed_iff.1
  balanced _ _ _ := .nil

theorem of_neutral {m : Build α} (neutral : Neutral m) (b : Builder) :
    Outcome components b [] (m.run b) := by
  obtain ⟨x, c, ended, same⟩ := neutral b
  rw [ended]
  apply still
  rintro _ _ ⟨⟩
  exact same

theorem append (first : Outcome components b visits (.ok (x, c) : Ending α))
    {ending : Ending β} (further : Outcome components c more ending) :
    Outcome components b (visits ++ more) ending where
  orderly past accounts :=
    (first.orderly past accounts).append
      (further.orderly _ (first.accounts past x c accounts rfl))
  accounts past y d accounts ended := by
    rw [← List.append_assoc]
    exact further.accounts _ y d (first.accounts past x c accounts rfl) ended
  staysOpen y d ended id closed :=
    first.staysOpen x c rfl id (further.staysOpen y d ended id closed)
  balanced y d ended := (first.balanced x c rfl).append (further.balanced y d ended)

/-- A run that fails has had no further effect. -/
theorem of_error {e : Error} (failed : Outcome components b visits (.error e : Ending α)) :
    Outcome components b visits (.error e : Ending β) where
  orderly := failed.orderly
  accounts _ _ _ _ ended := by cases ended
  staysOpen _ _ ended := by cases ended
  balanced _ _ ended := by cases ended

theorem andThen (outcome : Outcome components b visits ending) {next : α → Build β}
    (neutral : ∀ x, Neutral (next x)) :
    Outcome components b visits (ending.andThen next) := by
  cases ending with
  | error e => exact outcome.of_error
  | ok made =>
      have both := outcome.append (of_neutral (neutral made.1) made.2)
      rwa [List.append_nil] at both

theorem after {m : Build α} (neutral : Neutral m) (ended : m.run b = .ok (x, c))
    {ending : Ending β} (outcome : Outcome components c visits ending) :
    Outcome components b visits ending := by
  have first : Outcome components b [] (m.run b) := of_neutral neutral b
  rw [ended] at first
  exact first.append outcome

/-- A type is entered, and left once its fields are made. -/
theorem entered {id node : Nat} {fields : Fields} (closed : Closed components b id)
    (begun : (beginType id (components.typeAt id)).run b = .ok (node, c))
    (filled : Outcome components c visits (.ok (fields, d) : Ending Fields)) :
    Outcome components b (.enter id :: (visits ++ [.leave id]))
      ((finishType id (components.typeAt id) node fields).run d) := by
  obtain ⟨node', c', begun', stays, opened⟩ := run_beginType components b id
  cases begun.symm.trans begun'
  obtain ⟨e, ended, closes⟩ := run_finishType components d id node fields
  rw [ended]
  have within := filled.staysOpen fields d rfl
  have balanced := filled.balanced fields d rfl
  constructor
  · intro past accounts
    exact .cons_enter (accounts id closed)
      ((filled.orderly _ (accounts.enter stays opened)).append .leave)
  · rintro past _ _ accounts ⟨⟩
    have inner := filled.accounts _ fields d (accounts.enter stays opened) rfl
    rw [List.append_assoc, List.singleton_append] at inner
    exact .leave (accounts id closed) inner balanced (fun late => opened (within id late))
      closes
  · rintro _ _ ⟨⟩ other late
    rcases closes other late with before | ⟨rfl, _⟩
    · exact stays other (within other before)
    · exact closed
  · rintro _ _ ⟨⟩
    exact balanced.around id

theorem stuck {id node : Nat} {e : Error} (closed : Closed components b id)
    (begun : (beginType id (components.typeAt id)).run b = .ok (node, c))
    (filled : Outcome components c visits (.error e : Ending Fields)) :
    Outcome components b (.enter id :: visits) (.error e : Ending Nat) := by
  obtain ⟨node', c', begun', stays, opened⟩ := run_beginType components b id
  cases begun.symm.trans begun'
  constructor
  · intro past accounts
    exact .cons_enter (accounts id closed)
      (filled.orderly _ (accounts.enter stays opened))
  · rintro _ _ _ _ ⟨⟩
  · rintro _ _ ⟨⟩
  · rintro _ _ ⟨⟩

end Outcome

/-- On each run types are entered in order. -/
theorem Runs.outcome {task : Task} {visits : List Visit} {ending : Ending task.Result}
    (runs : Runs components task b visits ending) :
    Outcome components b visits ending := by
  induction runs with
  | simple datatype b => exact .of_neutral (.datatypeNode datatype) b
  | known opened =>
      apply Outcome.still
      rintro _ _ ⟨⟩
      exact ⟨rfl, rfl⟩
  | entered closed begun filled ih => exact .entered closed begun ih
  | stuck closed begun filled ih => exact .stuck closed begun ih
  | empty b empty =>
      exact (Outcome.of_neutral (.textFields _) b).andThen fun _ => .addRest _ _
  | content present text filled ih =>
      exact (ih.after (.textFields _) text).andThen fun _ => .addRest _ _
  | prohibited fields b never => exact .of_neutral (.pure fields) b
  | element may made ih => exact ih.andThen fun _ => .finishElement _ _ _ _ _
  | repeated may often begun filled ih =>
      exact (ih.after (.beginGroup _) begun).andThen fun _ => .finishGroup _ _ _
  | group may once filled ih => exact ih
  | wildcard fields b may => exact .of_neutral (.addWildcard fields) b
  | unsupported fields b may =>
      apply Outcome.still
      rintro _ _ ⟨⟩
  | nil fields b => exact .of_neutral (.pure fields) b
  | cons first further ih₁ ih₂ => exact ih₁.append ih₂
  | failed first ih => exact ih

end Outcomes

end Lowering

end XmlRecords
