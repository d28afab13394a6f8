import Mathlib.Data.Finset.Card
import XmlRecords.Proofs.FirstMatches
import XmlRecords.Proofs.SplitDocument

/-!
# Transcoding ends

The searches and conversions of transcoding ask for each other, and nothing in a graph
as such keeps them from asking in a circle.  In a graph that was lowered, wrappers lead
to nodes in front of them, the rounds of a group lead to no record that contains them,
and the field for text is a primitive.  So each question is about a child element, or
about the same element further down in one of these orders.

The bounds of the searches are then without effect: each of them is the only function
that fulfils its equation without a bound.
-/

namespace XmlRecords

namespace Graph

variable {graph : Graph} {root id : Nat} {allowed : QName → Prop}

/-- A record is that of the rounds of a group in another. -/
def IsItem (graph : Graph) (item owner : Record) : Prop :=
  ∃ field ∈ owner.fields, graph.groupItem? field = some item

/-- What is computed while transcoding: the node below wrappers, or below those for
optional content; the route of a name; the value of an element against a node; and the
node and the value of a child of an element matched against a record. -/
inductive Question where
  | elementType (id : Nat)
  | requiredType (id : Nat)
  | route (name : QName) (record : Record)
  | value (id : Nat) (element : Element)
  | child (record : Record) (element : Element)

/-- One computation asks for the result of another.  What is asked about the children of
an element may concern any node and any record. -/
inductive Asks (graph : Graph) : Question → Question → Prop where
  | elementTypeOptional {id inner : Nat} (found : graph.node? id = some (.optional inner)) :
      Asks graph (.elementType id) (.elementType inner)
  | elementTypeArray {id inner : Nat} (found : graph.node? id = some (.array inner)) :
      Asks graph (.elementType id) (.elementType inner)
  | requiredType {id inner : Nat} (found : graph.node? id = some (.optional inner)) :
      Asks graph (.requiredType id) (.requiredType inner)
  | routeType (name : QName) {record : Record} {field : Field}
      (member : field ∈ record.fields) :
      Asks graph (.route name record) (.elementType field.node)
  | routeItem (name : QName) {record item : Record} (isItem : graph.IsItem item record) :
      Asks graph (.route name record) (.route name item)
  | valueOptional {id inner : Nat} (element : Element)
      (found : graph.node? id = some (.optional inner)) :
      Asks graph (.value id element) (.value inner element)
  | valueText {id index : Nat} {record : Record} {field : Field} (element : Element)
      (found : graph.record? id = some record) (text : record.text = some index)
      (listed : record.fields[index]? = some field) :
      Asks graph (.value id element) (.value field.node element)
  | valueChild (id : Nat) {element child : Element} (other : Nat)
      (member : child ∈ element.children) :
      Asks graph (.value id element) (.value other child)
  | valueRoute (id : Nat) {element child : Element} (record : Record)
      (member : child ∈ element.children) :
      Asks graph (.value id element) (.route child.name record)
  | valueType (id : Nat) (element : Element) (other : Nat) :
      Asks graph (.value id element) (.elementType other)
  | childRoute (record : Record) (element : Element) (item : Record) :
      Asks graph (.child record element) (.route element.name item)
  | childType (record : Record) (element : Element) (id : Nat) :
      Asks graph (.child record element) (.elementType id)
  | childValue (record : Record) (element : Element) (id : Nat) :
      Asks graph (.child record element) (.value id element)
  | childItem {record item : Record} (element : Element)
      (isItem : graph.IsItem item record) :
      Asks graph (.child record element) (.child item element)

/-- One computation is asked for by another. -/
def AskedBy (graph : Graph) (asked asker : Question) : Prop := graph.Asks asker asked

/-- The orders in which transcoding goes down. -/
structure Grounded (graph : Graph) : Prop where
  linked : ∃ pending, graph.Linked pending
  rounds : ∃ rank : Nat → Nat, ∀ id record, graph.record? id = some record →
    ∀ field ∈ record.fields, ∀ item, graph.groupItem? field = some item →
      rank (graph.elementType field.node) < rank id
  texts : ∀ id record, graph.record? id = some record → ∀ index field,
    record.text = some index → record.fields[index]? = some field →
      graph.IsPrimitive field.node

theorem record?_of_groupItem? {field : Field} {item : Record}
    (isItem : graph.groupItem? field = some item) :
    graph.record? (graph.elementType field.node) = some item := by
  rw [groupItem?] at isItem
  split at isItem
  · exact isItem
  · cases isItem

/-- A bound on how far an element may go down from a node: through optional content to a
record, and from there to its text. -/
def descent (graph : Graph) (id : Nat) : Nat :=
  match graph.node? id with
  | some (.optional _) | some (.record _) => id + 1
  | _ => 0

theorem descent_of_isPrimitive (primitive : graph.IsPrimitive id) : graph.descent id = 0 := by
  obtain ⟨kind, logical, found⟩ := primitive
  rw [descent, found]

theorem descent_le (graph : Graph) (id : Nat) : graph.descent id ≤ id + 1 := by
  rw [descent]
  split <;> omega

theorem descent_le_size (graph : Graph) (id : Nat) :
    graph.descent id ≤ graph.nodes.size := by
  cases found : graph.node? id with
  | none => simp [descent, found]
  | some node =>
      have inside := lt_size_of_node? found
      exact Nat.le_trans (graph.descent_le id) inside

namespace Grounded

theorem lt_of_wrapper (grounded : graph.Grounded) {inner : Nat}
    (found : graph.node? id = some (.optional inner) ∨
      graph.node? id = some (.array inner)) : inner < id := by
  obtain ⟨pending, linked⟩ := grounded.linked
  rcases found with found | found
  · exact linked.descends id _ found rfl inner List.mem_cons_self
  · exact linked.descends id _ found rfl inner List.mem_cons_self

theorem descent_optional (grounded : graph.Grounded) {inner : Nat}
    (found : graph.node? id = some (.optional inner)) :
    graph.descent inner < graph.descent id := by
  have below := grounded.lt_of_wrapper (.inl found)
  have high : graph.descent id = id + 1 := by rw [descent, found]
  have low := graph.descent_le inner
  omega

theorem descent_text (grounded : graph.Grounded) {record : Record} {index : Nat}
    {field : Field} (found : graph.record? id = some record)
    (text : record.text = some index) (listed : record.fields[index]? = some field) :
    graph.descent field.node < graph.descent id := by
  have low := descent_of_isPrimitive (grounded.texts id record found index field text listed)
  have high : graph.descent id = id + 1 := by
    rw [descent, record?_eq_some_iff.1 found]
  omega

section Orders

/-- Of the nodes in front of which a round comes, there are fewer than nodes. -/
theorem exists_depth (grounded : graph.Grounded) :
    ∃ depth : Nat → Nat, ∀ id record, graph.record? id = some record →
      depth id < graph.nodes.size ∧ ∀ field ∈ record.fields, ∀ item,
        graph.groupItem? field = some item →
          depth (graph.elementType field.node) < depth id := by
  obtain ⟨rank, descends⟩ := grounded.rounds
  let below (id : Nat) := (Finset.range graph.nodes.size).filter (rank · < rank id)
  refine ⟨fun id => (below id).card, fun id record found => ⟨?_, ?_⟩⟩
  · rw [← Finset.card_range graph.nodes.size]
    apply Finset.card_lt_card
    refine (Finset.filter_ssubset).2 ⟨id, ?_, Nat.lt_irrefl _⟩
    exact Finset.mem_range.2 (lt_size_of_node? (record?_eq_some_iff.1 found))
  · intro field member item isItem
    have lower := descends id record found field member item isItem
    have inside := lt_size_of_node? (record?_eq_some_iff.1 (record?_of_groupItem? isItem))
    apply Finset.card_lt_card
    refine Finset.ssubset_iff_of_subset ?_ |>.2 ⟨graph.elementType field.node,
      Finset.mem_filter.2 ⟨Finset.mem_range.2 inside, lower⟩, ?_⟩
    · intro other chosen
      obtain ⟨within, under⟩ := Finset.mem_filter.1 chosen
      exact Finset.mem_filter.2 ⟨within, Nat.lt_trans under lower⟩
    · intro chosen
      exact Nat.lt_irrefl _ (Finset.mem_filter.1 chosen).2

/-- Groups within groups come to an end, whatever record they begin in. -/
theorem wellFounded_isItem (grounded : graph.Grounded) : WellFounded graph.IsItem := by
  obtain ⟨rank, descends⟩ := grounded.rounds
  have known : ∀ bound id record, rank id < bound → graph.record? id = some record →
      Acc graph.IsItem record := by
    intro bound
    induction bound with
    | zero => exact fun id record low => absurd low (Nat.not_lt_zero _)
    | succ bound ih =>
        intro id record low found
        refine ⟨record, ?_⟩
        rintro item ⟨field, member, isItem⟩
        have lower := descends id record found field member item isItem
        exact ih _ item (by omega) (record?_of_groupItem? isItem)
  refine ⟨fun record => ⟨record, ?_⟩⟩
  rintro item ⟨field, member, isItem⟩
  exact known _ _ item (Nat.lt_succ_self _) (record?_of_groupItem? isItem)

theorem acc_elementType (grounded : graph.Grounded) (id : Nat) :
    Acc graph.AskedBy (.elementType id) := by
  induction id using Nat.strongRecOn with
  | ind id ih =>
      refine ⟨_, ?_⟩
      intro asked asks
      cases asks with
      | elementTypeOptional found => exact ih _ (grounded.lt_of_wrapper (.inl found))
      | elementTypeArray found => exact ih _ (grounded.lt_of_wrapper (.inr found))

theorem acc_requiredType (grounded : graph.Grounded) (id : Nat) :
    Acc graph.AskedBy (.requiredType id) := by
  induction id using Nat.strongRecOn with
  | ind id ih =>
      refine ⟨_, ?_⟩
      intro asked asks
      cases asks with
      | requiredType found => exact ih _ (grounded.lt_of_wrapper (.inl found))

theorem acc_route (grounded : graph.Grounded) (name : QName) (record : Record) :
    Acc graph.AskedBy (.route name record) := by
  induction record using grounded.wellFounded_isItem.induction with
  | h record ih =>
      refine ⟨_, ?_⟩
      intro asked asks
      cases asks with
      | routeType _ member => exact grounded.acc_elementType _
      | routeItem _ isItem => exact ih _ isItem

/-- An element goes down from a node until its children are asked for. -/
theorem acc_value (grounded : graph.Grounded) (id : Nat) (element : Element) :
    Acc graph.AskedBy (.value id element) := by
  induction levels : element.depth using Nat.strongRecOn generalizing id element with
  | ind levels deeper =>
      induction low : graph.descent id using Nat.strongRecOn generalizing id with
      | ind low lower =>
          subst levels low
          refine ⟨_, ?_⟩
          intro asked asks
          cases asks with
          | valueOptional _ found => exact lower _ (grounded.descent_optional found) _ rfl
          | valueText _ found text listed =>
              exact lower _ (grounded.descent_text found text listed) _ rfl
          | valueChild _ _ member =>
              exact deeper _ (depth_lt_of_mem_children member) _ _ rfl
          | valueRoute _ _ member => exact grounded.acc_route _ _
          | valueType _ _ _ => exact grounded.acc_elementType _

theorem acc_child (grounded : graph.Grounded) (record : Record) (element : Element) :
    Acc graph.AskedBy (.child record element) := by
  induction record using grounded.wellFounded_isItem.induction with
  | h record ih =>
      refine ⟨_, ?_⟩
      intro asked asks
      cases asks with
      | childRoute _ _ item => exact grounded.acc_route _ _
      | childType _ _ id => exact grounded.acc_elementType _
      | childValue _ _ id => exact grounded.acc_value _ _
      | childItem _ isItem => exact ih _ isItem

/-- There is no endless chain of questions. -/
theorem wellFounded_askedBy (grounded : graph.Grounded) : WellFounded graph.AskedBy := by
  constructor
  intro question
  cases question with
  | elementType id => exact grounded.acc_elementType id
  | requiredType id => exact grounded.acc_requiredType id
  | route name record => exact grounded.acc_route name record
  | value id element => exact grounded.acc_value id element
  | child record element => exact grounded.acc_child record element

end Orders

end Grounded

section Steps

/-- The node below one wrapper, where `next` goes on. -/
def elementTypeStep (graph : Graph) (next : Nat → Nat) (id : Nat) : Nat :=
  match graph.node? id with
  | some (.optional inner) | some (.array inner) => next inner
  | _ => id

/-- The node below one wrapper for optional content, where `next` goes on. -/
def requiredTypeStep (graph : Graph) (next : Nat → Nat) (id : Nat) : Nat :=
  match graph.node? id with
  | some (.optional inner) => next inner
  | _ => id

/-- Follow a name to a field. -/
def follow (graph : Graph) (name : QName) (record : Record) : Option Route :=
  graph.namedRoute? name (graph.nodes.size + 1) record

/-- Follow a name to a field of a record or into its groups, where `next` goes on. -/
def followStep (graph : Graph) (name : QName) (next : Record → Option Route)
    (record : Record) : Option Route :=
  match record.elementField? name with
  | some index => some (.field index)
  | none => graph.groupRoute? next 0 record.fields

/-- Make a value of a node from an element, where `next` makes those of further nodes and
of the children of the element. -/
def convertStep (graph : Graph) (zone : Zone)
    (next : Nat → Element → Except Error Value) (node : Nat) (element : Element) :
    Except Error Value :=
  let children : List Child :=
    element.children.map fun child => ⟨child, fun node => next node child⟩
  match graph.node? node with
  | none => .error (.field (.notARecord node))
  | some (.primitive kind logical) =>
      Value.readPrimitive zone kind logical element.text
  | some (.record record) => do
      let slots ← graph.placeChildren record (graph.emptySlots record) children
      let slots ← graph.placeAttributes zone record slots element.attributes
      match record.text, record.text.bind (record.fields[·]?) with
      | some index, some field => do
          let value ← next field.node element
          return .record (slots.put index value)
      | _, _ => return .record slots
  | some (.array item) =>
      (children.mapM fun (child : Child) => child.convert item).map .array
  | some (.optional inner) => next inner element
  | some (.map _) =>
      .ok (.map (children.foldl (fun entries (child : Child) =>
        Association.insert child.element.name.name
          child.element.innerMarkup entries) []))

/-- Transcode a child of an element matched against a record, where `next` goes on in the
first repeated group that its name leads into. -/
def transcodeChildStep (graph : Graph) (settings : Settings)
    (next : Record → Element → Except Error (Nat × Value)) (record : Record)
    (child : Element) : Except Error (Nat × Value) := do
  checkDepth settings child
  match record.elementField? child.name with
  | some index => graph.convertAlong settings.zone child record (.field index)
  | none =>
      match graph.groupRoute? (graph.follow child.name) 0 record.fields with
      | some (.group _ item _) => next item child
      | _ =>
          match record.elementWildcard with
          | some index => graph.convertAlong settings.zone child record (.wildcard index)
          | none => throw (.field (.unknownElement child.name record.title))

/-- Where questions come to an end, the equation of a recursion has one solution at
most. -/
theorem eq_of_steps {ι α : Type} (ends : WellFounded graph.AskedBy) (question : ι → Question)
    {step : (ι → α) → ι → α}
    (asks : ∀ f g x, (∀ y, graph.Asks (question x) (question y) → f y = g y) →
      step f x = step g x) {f g : ι → α} (first : ∀ x, f x = step f x)
    (second : ∀ x, g x = step g x) : f = g := by
  funext x
  induction x using (InvImage.wf question ends).induction with
  | h x ih =>
      rw [first, second]
      exact asks f g x ih

theorem eq_of_steps₂ {ι κ α : Type} (ends : WellFounded graph.AskedBy)
    (question : ι → κ → Question) {step : (ι → κ → α) → ι → κ → α}
    (asks : ∀ f g x y,
      (∀ x' y', graph.Asks (question x y) (question x' y') → f x' y' = g x' y') →
        step f x y = step g x y) {f g : ι → κ → α}
    (first : ∀ x y, f x y = step f x y) (second : ∀ x y, g x y = step g x y) : f = g := by
  have paired : (fun both : ι × κ => f both.1 both.2) = fun both => g both.1 both.2 := by
    refine eq_of_steps ends (fun both => question both.1 both.2)
      (fun f g both same => asks (fun x y => f (x, y)) (fun x y => g (x, y)) both.1 both.2
        fun x y => same (x, y)) ?_ ?_
    · exact fun both => first both.1 both.2
    · exact fun both => second both.1 both.2
  funext x y
  exact congrFun paired (x, y)

namespace Grounded

/-- The node below wrappers is found without a bound. -/
theorem elementType_iff (grounded : graph.Grounded) (f : Nat → Nat) :
    (∀ id, f id = graph.elementTypeStep f id) ↔ f = graph.elementType := by
  have solution : ∀ id,
      graph.elementType id = graph.elementTypeStep graph.elementType id := by
    intro id
    obtain ⟨pending, linked⟩ := grounded.linked
    rw [elementTypeStep]
    split
    · next found => exact elementType_optional linked found
    · next found => exact elementType_array linked found
    · next notOptional notArray =>
        rw [elementType, stripWrappers]
        split
        · next found => exact absurd found (notOptional _)
        · next found => exact absurd found (notArray _)
        · rfl
  constructor
  · intro fulfils
    refine eq_of_steps grounded.wellFounded_askedBy .elementType ?_ fulfils solution
    intro f g id same
    rw [elementTypeStep, elementTypeStep]
    split
    · next found => exact same _ (.elementTypeOptional found)
    · next found => exact same _ (.elementTypeArray found)
    · rfl
  · rintro rfl
    exact solution

/-- The node below wrappers for optional content is found without a bound. -/
theorem requiredType_iff (grounded : graph.Grounded) (f : Nat → Nat) :
    (∀ id, f id = graph.requiredTypeStep f id) ↔ f = graph.requiredType := by
  have solution : ∀ id,
      graph.requiredType id = graph.requiredTypeStep graph.requiredType id := by
    intro id
    obtain ⟨pending, linked⟩ := grounded.linked
    rw [requiredTypeStep]
    split
    · next found => exact requiredType_optional linked found
    · next notOptional =>
        rw [requiredType, stripOptional]
        split
        · next found => exact absurd found (notOptional _)
        · rfl
  constructor
  · intro fulfils
    refine eq_of_steps grounded.wellFounded_askedBy .requiredType ?_ fulfils solution
    intro f g id same
    rw [requiredTypeStep, requiredTypeStep]
    split
    · next found => exact same _ (.requiredType found)
    · rfl
  · rintro rfl
    exact solution

theorem namedRoute?_of_depth {depth : Nat → Nat}
    (descends : ∀ id record, graph.record? id = some record →
      ∀ field ∈ record.fields, ∀ item, graph.groupItem? field = some item →
        depth (graph.elementType field.node) < depth id)
    (name : QName) {fuel more : Nat} {record : Record}
    (found : graph.record? id = some record) (enough : depth id < fuel)
    (alsoEnough : depth id < more) :
    graph.namedRoute? name fuel record = graph.namedRoute? name more record := by
  induction fuel generalizing more id record with
  | zero => exact absurd enough (Nat.not_lt_zero _)
  | succ fuel ih =>
      obtain ⟨more, rfl⟩ := Nat.exists_eq_succ_of_ne_zero (Nat.ne_zero_of_lt alsoEnough)
      rw [namedRoute?, namedRoute?]
      cases record.elementField? name with
      | some index => rfl
      | none =>
          apply groupRoute?_congr
          intro field member item isItem
          have lower := descends id record found field member item isItem
          exact ih (record?_of_groupItem? isItem) (by omega) (by omega)

/-- The bound on searches among groups is high enough for every record, also for one that
is not in the graph. -/
theorem follow_eq_followStep (grounded : graph.Grounded) (name : QName) (record : Record) :
    graph.follow name record = graph.followStep name (graph.follow name) record := by
  obtain ⟨depth, bounds⟩ := grounded.exists_depth
  rw [follow, followStep, namedRoute?]
  cases record.elementField? name with
  | some index => rfl
  | none =>
      apply groupRoute?_congr
      intro field member item isItem
      have found := record?_of_groupItem? isItem
      have few := (bounds _ item found).1
      exact namedRoute?_of_depth (fun id record found => (bounds id record found).2) name
        found few (by omega)

/-- A name is followed through groups without a bound. -/
theorem follow_iff (grounded : graph.Grounded) (name : QName)
    (f : Record → Option Route) :
    (∀ record, f record = graph.followStep name f record) ↔ f = graph.follow name := by
  constructor
  · intro fulfils
    refine eq_of_steps grounded.wellFounded_askedBy (.route name) ?_ fulfils
      (grounded.follow_eq_followStep name)
    intro f g record same
    rw [followStep, followStep]
    cases record.elementField? name with
    | some index => rfl
    | none =>
        apply groupRoute?_congr
        intro field member item isItem
        exact same item (.routeItem name ⟨field, member, isItem⟩)
  · rintro rfl
    exact grounded.follow_eq_followStep name

/-- More steps than an element may go down from a node are enough to match it against the
node. -/
theorem convertWith_eq (grounded : graph.Grounded) (zone : Zone) (element : Element)
    (children : List Child) {fuel more : Nat} (enough : graph.descent id < fuel)
    (alsoEnough : graph.descent id < more) :
    graph.convertWith zone element children fuel id =
      graph.convertWith zone element children more id := by
  induction fuel generalizing more id with
  | zero => exact absurd enough (Nat.not_lt_zero _)
  | succ fuel ih =>
      obtain ⟨more, rfl⟩ := Nat.exists_eq_succ_of_ne_zero (Nat.ne_zero_of_lt alsoEnough)
      rw [convertWith, convertWith]
      cases found : graph.node? id with
      | none => rfl
      | some node =>
          cases node with
          | record record =>
              cases text : record.text with
              | none => simp only [text]
              | some index =>
                  cases listed : record.fields[index]? with
                  | none => simp only [text, Option.bind_some, listed]
                  | some field =>
                      have lower := grounded.descent_text
                        (record?_eq_some_iff.2 found) text listed
                      have same : graph.convertWith zone element children fuel
                          field.node = graph.convertWith zone element children
                            more field.node := ih (by omega) (by omega)
                      simp only [text, Option.bind_some, listed, same]
          | optional inner =>
              have lower := grounded.descent_optional found
              exact ih (by omega) (by omega)
          | _ => rfl

theorem convert_eq_convertStep (grounded : graph.Grounded) (zone : Zone) (id : Nat)
    (element : Element) :
    graph.convert zone id element =
      graph.convertStep zone (graph.convert zone) id element := by
  have onward : ∀ other, graph.descent other < graph.descent id →
      graph.convertWith zone element (graph.childrenOf zone element.content)
        graph.nodes.size other = graph.convert zone other element := by
    intro other lower
    have few := graph.descent_le_size id
    exact grounded.convertWith_eq zone element _ (by omega) (by omega)
  have children : graph.childrenOf zone element.content =
      element.children.map fun child =>
        ⟨child, fun node => graph.convert zone node child⟩ :=
    graph.childrenOf_eq zone element.content
  rw [convert, convertWith, convertStep, ← children]
  cases found : graph.node? id with
  | none => rfl
  | some node =>
      cases node with
      | record record =>
          cases text : record.text with
          | none => simp only [text]
          | some index =>
              cases listed : record.fields[index]? with
              | none => simp only [text, Option.bind_some, listed]
              | some field =>
                  have lower := grounded.descent_text (record?_eq_some_iff.2 found) text listed
                  simp only [text, Option.bind_some, listed, onward _ lower]
      | optional inner => exact onward inner (grounded.descent_optional found)
      | _ => rfl

theorem convertStep_congr {zone : Zone} {f g : Nat → Element → Except Error Value}
    {element : Element}
    (same : ∀ other child, graph.Asks (.value id element) (.value other child) →
      f other child = g other child) :
    graph.convertStep zone f id element = graph.convertStep zone g id element := by
  have children : (element.children.map fun child =>
        (⟨child, fun node => f node child⟩ : Child)) =
      element.children.map fun child => ⟨child, fun node => g node child⟩ := by
    apply List.map_congr_left
    intro child member
    rw [Child.mk.injEq]
    exact ⟨rfl, funext fun other => same other child (.valueChild id other member)⟩
  rw [convertStep, convertStep, children]
  cases found : graph.node? id with
  | none => rfl
  | some node =>
      cases node with
      | record record =>
          cases text : record.text with
          | none => simp only [text]
          | some index =>
              cases listed : record.fields[index]? with
              | none => simp only [text, Option.bind_some, listed]
              | some field =>
                  have asks := same field.node element
                    (.valueText element (record?_eq_some_iff.2 found) text listed)
                  simp only [text, Option.bind_some, listed, asks]
      | optional inner => exact same inner element (.valueOptional element found)
      | _ => rfl

/-- Elements are converted without a bound. -/
theorem convert_iff (grounded : graph.Grounded) (zone : Zone)
    (f : Nat → Element → Except Error Value) :
    (∀ id element, f id element = graph.convertStep zone f id element) ↔
      f = graph.convert zone := by
  constructor
  · intro fulfils
    exact eq_of_steps₂ grounded.wellFounded_askedBy .value
      (fun f g id element => convertStep_congr) fulfils
      (grounded.convert_eq_convertStep zone)
  · rintro rfl
    exact grounded.convert_eq_convertStep zone

theorem transcodeChildStep_congr {settings : Settings}
    {f g : Record → Element → Except Error (Nat × Value)} {record : Record}
    {child : Element}
    (same : ∀ item other, graph.Asks (.child record child) (.child item other) →
      f item other = g item other) :
    graph.transcodeChildStep settings f record child =
      graph.transcodeChildStep settings g record child := by
  rw [transcodeChildStep, transcodeChildStep]
  cases record.elementField? child.name with
  | some index => rfl
  | none =>
      rcases groupRoute?_cases graph (graph.follow child.name) 0 record.fields with
        ⟨index, field, item, rest, first, isItem, _, found⟩ | ⟨none, _⟩
      · have asks := same item child (.childItem child ⟨field, first.mem, isItem⟩)
        simp only [found, asks]
      · simp only [none]

/-- A child is transcoded against the records of the first group that its name leads
into. -/
theorem transcodeChild_eq_transcodeChildStep (grounded : graph.Grounded)
    (settings : Settings) (record : Record) (child : Element) :
    graph.transcodeChild settings record child =
      graph.transcodeChildStep settings (graph.transcodeChild settings) record child := by
  have searched : graph.route? record child.name =
      (graph.followStep child.name (graph.follow child.name) record).or
        (record.elementWildcard.map .wildcard) := by
    rw [← grounded.follow_eq_followStep child.name record]
    rfl
  rw [transcodeChild, transcodeChildStep, searched, followStep]
  cases checked : checkDepth settings child with
  | error e => rfl
  | ok _ =>
      cases record.elementField? child.name with
      | some index => rfl
      | none =>
          rcases groupRoute?_cases graph (graph.follow child.name) 0 record.fields with
            ⟨index, field, item, rest, first, isItem, leadsOn, found⟩ | ⟨none, _⟩
          · simp only [found]
            have within : graph.route? item child.name = some rest := by
              rw [route?, ← follow, leadsOn]
              rfl
            rw [transcodeChild, checked]
            simp only [within]
            rfl
          · simp only [none]
            cases record.elementWildcard <;> rfl

/-- Children are transcoded without a bound. -/
theorem transcodeChild_iff (grounded : graph.Grounded) (settings : Settings)
    (f : Record → Element → Except Error (Nat × Value)) :
    (∀ record child, f record child = graph.transcodeChildStep settings f record child) ↔
      f = graph.transcodeChild settings := by
  constructor
  · intro fulfils
    exact eq_of_steps₂ grounded.wellFounded_askedBy .child
      (fun f g record child => transcodeChildStep_congr) fulfils
      (grounded.transcodeChild_eq_transcodeChildStep settings)
  · rintro rfl
    exact grounded.transcodeChild_eq_transcodeChildStep settings

end Grounded

end Steps

/-- Whatever is transcoded with a graph, it comes to an end: wrappers lead to nodes in
front of them, groups within groups do not lead back, the text of a record is a primitive,
no chain of questions is endless, and each computation is the only one that fulfils its
equation without a bound. -/
structure Ends (graph : Graph) : Prop where
  wrappers : ∀ id inner, graph.node? id = some (.optional inner) ∨
    graph.node? id = some (.array inner) → inner < id
  rounds : ∀ record, ¬ Relation.TransGen graph.IsItem record record
  texts : ∀ id record, graph.record? id = some record → ∀ index field,
    record.text = some index → record.fields[index]? = some field →
      graph.IsPrimitive field.node
  questions : WellFounded graph.AskedBy
  elementType : ∀ f, (∀ id, f id = graph.elementTypeStep f id) ↔ f = graph.elementType
  requiredType : ∀ f, (∀ id, f id = graph.requiredTypeStep f id) ↔ f = graph.requiredType
  follow : ∀ name f,
    (∀ record, f record = graph.followStep name f record) ↔ f = graph.follow name
  convert : ∀ zone f, (∀ id element, f id element = graph.convertStep zone f id element) ↔
    f = graph.convert zone
  transcodeChild : ∀ settings f,
    (∀ record child, f record child = graph.transcodeChildStep settings f record child) ↔
      f = graph.transcodeChild settings

theorem Grounded.ends (grounded : graph.Grounded) : graph.Ends where
  wrappers _ _ := grounded.lt_of_wrapper
  rounds record circle := grounded.wellFounded_isItem.transGen.irrefl.irrefl record circle
  texts := grounded.texts
  questions := grounded.wellFounded_askedBy
  elementType := grounded.elementType_iff
  requiredType := grounded.requiredType_iff
  follow := grounded.follow_iff
  convert := grounded.convert_iff
  transcodeChild := grounded.transcodeChild_iff

/-- In a graph that was lowered the rounds of a group come behind the record that the
group belongs to. -/
theorem Lowered.grounded (lowered : graph.Lowered allowed root) : graph.Grounded where
  linked := ⟨_, lowered.linked⟩
  rounds := by
    refine ⟨fun id => graph.nodes.size - id, ?_⟩
    intro id record found field member item isItem
    obtain ⟨behind, _, same, isRound, later⟩ :=
      lowered.exists_round_of_groupItem? found member isItem
    have inside := lt_size_of_node? (record?_eq_some_iff.1 isRound)
    rw [same]
    dsimp only
    omega
  texts := fun id record found index field text listed =>
    lowered.primitive_of_text found text listed

end Graph

end XmlRecords
