import XmlRecords.Transcode.Document

/-!
# Faults of content

What an element is matched against may refuse its content, but never finds fault
with its markup: how deep elements may nest is checked in front of all else.  A text
that is read as a primitive is at fault for nothing but what it says.
-/

namespace XmlRecords

/-- A result that finds no fault with markup. -/
def Unmarked {α : Type} (x : Except Error α) : Prop :=
  ∀ fault, x ≠ .error (.markup fault)

namespace Unmarked

variable {α β : Type} {x : Except Error α}

theorem not_eq (unmarked : Unmarked x) (fault : MarkupFault) :
    ¬ x = .error (.markup fault) :=
  unmarked fault

@[simp]
theorem ok (a : α) : Unmarked (.ok a : Except Error α) := by
  intro fault same
  cases same

@[simp]
theorem field (fault : FieldFault) :
    Unmarked (.error (.field fault) : Except Error α) := by
  intro other same
  cases same

theorem bind {f : α → Except Error β} (first : Unmarked x)
    (next : ∀ a, Unmarked (f a)) : Unmarked (x >>= f) := by
  cases x with
  | ok a => exact next a
  | error e =>
      intro fault same
      cases same
      exact first fault rfl

theorem map (first : Unmarked x) (f : α → β) : Unmarked (x.map f) := by
  cases x with
  | ok a => exact ok (f a)
  | error e =>
      intro fault same
      cases same
      exact first fault rfl

theorem mapM {xs : List β} {f : β → Except Error α}
    (each : ∀ b ∈ xs, Unmarked (f b)) : Unmarked (xs.mapM f) := by
  induction xs with
  | nil => exact ok []
  | cons b rest ih =>
      obtain ⟨first, others⟩ := List.forall_mem_cons.1 each
      rw [List.mapM_cons]
      exact first.bind fun _ => (ih others).bind fun _ => ok _

end Unmarked

/-- A result that fails at most for what a literal says. -/
def FailsOnLiteral {α : Type} (x : Except Error α) : Prop :=
  ∀ error, x = .error error → ∃ kind text fault, error = .literal kind text fault

namespace FailsOnLiteral

variable {α β : Type} {x : Except Error α}

theorem unmarked (fails : FailsOnLiteral x) : Unmarked x := by
  intro fault same
  obtain ⟨_, _, _, impossible⟩ := fails _ same
  cases impossible

theorem ok (a : α) : FailsOnLiteral (.ok a : Except Error α) := by
  intro error same
  cases same

theorem error (kind : LiteralKind) (text : String) (fault : LiteralFault) :
    FailsOnLiteral (.error (.literal kind text fault) : Except Error α) := by
  intro error same
  cases same
  exact ⟨kind, text, fault, rfl⟩

theorem bind {f : α → Except Error β} (first : FailsOnLiteral x)
    (next : ∀ a, FailsOnLiteral (f a)) : FailsOnLiteral (x >>= f) := by
  cases x with
  | ok a => exact next a
  | error e =>
      intro error same
      cases same
      exact first e rfl

theorem map (first : FailsOnLiteral x) (f : α → β) : FailsOnLiteral (x.map f) := by
  cases x with
  | ok a => exact ok (f a)
  | error e =>
      intro error same
      cases same
      exact first e rfl

theorem mapError {ε : Type} (y : Except ε α) (kind : LiteralKind)
    (text : String) (cause : ε → LiteralFault) :
    FailsOnLiteral (y.mapError fun fault => .literal kind text (cause fault)) := by
  cases y with
  | ok a => exact ok a
  | error fault => exact error kind text (cause fault)

end FailsOnLiteral

theorem Timestamp.failsOnLiteral_read (zone : Zone) (text : String) :
    FailsOnLiteral (Timestamp.read zone text) := by
  rw [read]
  split
  · exact FailsOnLiteral.mapError _ _ _ _
  · generalize splitOffset (Text.trimChars text.toList) = parts
    obtain ⟨front, _ | suffix⟩ := parts
    · refine (FailsOnLiteral.ok none).bind fun given => ?_
      refine (FailsOnLiteral.mapError _ _ _ _).bind fun time => ?_
      dsimp only
      split
      · exact .ok _
      · exact .error _ _ _
    · dsimp only
      split
      · next offset _ =>
          refine (FailsOnLiteral.ok (some offset.seconds)).bind fun given => ?_
          refine (FailsOnLiteral.mapError _ _ _ _).bind fun time => ?_
          split
          · exact .ok _
          · exact .error _ _ _
      · exact .error _ _ _

theorem Value.failsOnLiteral_readPrimitive (zone : Zone) (kind : Primitive)
    (logical : Option Logical) (text : String) :
    FailsOnLiteral (Value.readPrimitive zone kind logical text) := by
  cases kind with
  | boolean => exact .ok _
  | int => exact (FailsOnLiteral.mapError _ _ _ _).map _
  | long =>
      rw [readPrimitive]
      split
      · exact (Timestamp.failsOnLiteral_read zone text).map _
      · exact (FailsOnLiteral.mapError _ _ _ _).map _
  | float => exact (FailsOnLiteral.mapError _ _ _ _).map _
  | double => exact (FailsOnLiteral.mapError _ _ _ _).map _
  | bytes =>
      rw [readPrimitive]
      split
      · exact (FailsOnLiteral.mapError _ _ _ _).map _
      · exact (FailsOnLiteral.mapError _ _ _ _).map _
  | string => exact .ok _

namespace Graph

variable {graph : Graph}

theorem unmarked_place {child : Child} (converts : ∀ node, Unmarked (child.convert node))
    (route : Route) (r : Record) (slots : Slots) :
    Unmarked (graph.place child r route slots) := by
  induction route generalizing r slots with
  | field index =>
      rw [place]
      split
      · exact .ok _
      · split
        · exact (converts _).map _
        · split
          · exact .field _
          · exact (converts _).map _
  | group index item rest ih =>
      rw [place]
      split
      · exact (ih item _).bind fun _ => .ok _
      · exact .ok _
  | wildcard index => exact .ok _

theorem unmarked_placeChildren (r : Record) {children : List Child}
    (converts : ∀ child ∈ children, ∀ node, Unmarked (child.convert node))
    (slots : Slots) : Unmarked (graph.placeChildren r slots children) := by
  induction children generalizing slots with
  | nil => exact .ok _
  | cons child rest ih =>
      obtain ⟨first, others⟩ := List.forall_mem_cons.1 converts
      rw [placeChildren]
      split
      · exact .field _
      · exact (unmarked_place first _ r slots).bind fun _ => ih others _

theorem unmarked_placeAttribute (zone : Zone) (r : Record) (slots : Slots)
    (a : Attribute) : Unmarked (graph.placeAttribute zone r slots a) := by
  rw [placeAttribute]
  split
  · split
    · exact .ok _
    · apply Unmarked.map
      rw [readAttribute]
      split
      · exact (Value.failsOnLiteral_readPrimitive _ _ _ _).unmarked
      · exact .field _
  · split
    · exact .ok _
    · exact .field _

theorem unmarked_placeAttributes (zone : Zone) (r : Record)
    (attributes : List Attribute) (slots : Slots) :
    Unmarked (graph.placeAttributes zone r slots attributes) := by
  induction attributes generalizing slots with
  | nil => exact .ok _
  | cons a rest ih =>
      rw [placeAttributes]
      split
      · exact ih slots
      · exact (unmarked_placeAttribute zone r slots a).bind fun _ => ih _

theorem unmarked_convertWith (zone : Zone) (element : Element)
    {children : List Child}
    (converts : ∀ child ∈ children, ∀ node, Unmarked (child.convert node))
    (fuel node : Nat) :
    Unmarked (graph.convertWith zone element children fuel node) := by
  induction fuel generalizing node with
  | zero => exact .field _
  | succ fuel ih =>
      rw [convertWith]
      split
      · exact .field _
      · exact (Value.failsOnLiteral_readPrimitive _ _ _ _).unmarked
      · next r _ =>
          refine (unmarked_placeChildren r converts _).bind fun _ => ?_
          refine (unmarked_placeAttributes zone r _ _).bind fun _ => ?_
          split
          · exact (ih _).bind fun _ => .ok _
          · exact .ok _
      · exact (Unmarked.mapM fun child member => converts child member _).map _
      · exact ih _
      · exact .ok _

mutual

theorem unmarked_child (zone : Zone) (item : Content) :
    ∀ child ∈ graph.child? zone item, ∀ node, Unmarked (child.convert node) := by
  cases item with
  | text value =>
      intro child member
      cases member
  | element name attributes content =>
      intro child member node
      cases member
      exact unmarked_convertWith zone _ (unmarked_childrenOf zone content) _ node

theorem unmarked_childrenOf (zone : Zone) (items : List Content) :
    ∀ child ∈ graph.childrenOf zone items, ∀ node,
      Unmarked (child.convert node) := by
  cases items with
  | nil =>
      intro child member
      cases member
  | cons item rest =>
      intro child member
      rw [childrenOf] at member
      rcases List.mem_append.1 member with member | member
      · exact unmarked_child zone item child (Option.mem_toList.1 member)
      · exact unmarked_childrenOf zone rest child member

end

/-- The content of an element is never at fault for its markup. -/
theorem unmarked_convert (zone : Zone) (node : Nat) (element : Element) :
    Unmarked (graph.convert zone node element) :=
  unmarked_convertWith zone element
    (unmarked_childrenOf zone element.content) _ node

end Graph

end XmlRecords
