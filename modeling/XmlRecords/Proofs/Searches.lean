import Mathlib.Data.Finset.Card
import XmlRecords.Proofs.Placing
import XmlRecords.Proofs.Twins

/-!
# How far searches go

In a graph that was lowered the rounds of a group come behind the record that
the group belongs to, so a name is followed through at most as many groups as
there are nodes that can be reached.  An element is matched against at most three
nodes one after the other: one that is optional, a record, and its text.
-/

namespace XmlRecords

namespace Graph

variable {graph copy : Graph} {place : Nat → Nat} {root id : Nat}
  {allowed : QName → Prop}

theorem groupRoute?_congr {next next' : Record → Option Route} (index : Nat)
    {fields : List Field}
    (same : ∀ field ∈ fields, ∀ item, graph.groupItem? field = some item →
      next item = next' item) :
    graph.groupRoute? next index fields =
      graph.groupRoute? next' index fields := by
  induction fields generalizing index with
  | nil => rfl
  | cons field rest ih =>
      obtain ⟨first, others⟩ := List.forall_mem_cons.1 same
      rw [groupRoute?, groupRoute?, ih (index + 1) others]
      cases found : graph.groupItem? field with
      | none => rfl
      | some item => simp only [first item found]

/-- Groups lead from records in a set to records further behind in the set. -/
def Ascends (graph : Graph) (ids : Finset Nat) : Prop :=
  ∀ id ∈ ids, ∀ r, graph.record? id = some r → ∀ field ∈ r.fields, ∀ item,
    graph.groupItem? field = some item →
      ∃ behind ∈ ids, id < behind ∧ graph.record? behind = some item

/-- As many steps as there are records behind are enough to follow a name. -/
theorem Ascends.namedRoute?_eq {ids : Finset Nat} (ascends : graph.Ascends ids)
    (name : QName) {fuel more : Nat} {r : Record} (member : id ∈ ids)
    (found : graph.record? id = some r)
    (enough : (ids.filter (id ≤ ·)).card ≤ fuel)
    (alsoEnough : (ids.filter (id ≤ ·)).card ≤ more) :
    graph.namedRoute? name fuel r = graph.namedRoute? name more r := by
  induction fuel generalizing more id r with
  | zero =>
      have present : id ∈ ids.filter (id ≤ ·) :=
        Finset.mem_filter.2 ⟨member, Nat.le_refl id⟩
      exact absurd (Finset.card_pos.2 ⟨id, present⟩) (by omega)
  | succ fuel ih =>
      have present : id ∈ ids.filter (id ≤ ·) :=
        Finset.mem_filter.2 ⟨member, Nat.le_refl id⟩
      have positive := Finset.card_pos.2 ⟨id, present⟩
      obtain ⟨more, rfl⟩ : ∃ rest, more = rest + 1 := ⟨more - 1, by omega⟩
      rw [namedRoute?, namedRoute?]
      cases r.elementField? name with
      | some index => rfl
      | none =>
          apply groupRoute?_congr
          intro field listed item leads
          obtain ⟨behind, inside, later, isItem⟩ :=
            ascends id member r found field listed item leads
          have fewer : (ids.filter (behind ≤ ·)).card <
              (ids.filter (id ≤ ·)).card := by
            apply Finset.card_lt_card
            refine Finset.ssubset_iff_of_subset ?_ |>.2 ⟨id, present, ?_⟩
            · intro other chosen
              obtain ⟨within, above⟩ := Finset.mem_filter.1 chosen
              exact Finset.mem_filter.2 ⟨within, by omega⟩
            · intro chosen
              have above := (Finset.mem_filter.1 chosen).2
              omega
          exact ih inside isItem (by omega) (by omega)

namespace Lowered

/-- A field for a group leads to the record of its rounds, which is behind that of the
field. -/
theorem exists_round (lowered : graph.Lowered allowed root) {r : Record}
    (found : graph.record? id = some r) {field : Field}
    (member : field ∈ r.fields) (group : field.origin = .group) :
    ∃ node item, graph.groupItem? field = some item ∧
      graph.node? field.node = some (.array node) ∧
        graph.elementType field.node = node ∧ graph.record? node = some item ∧
          id < node := by
  have holds := (lowered.fits id _ (record?_eq_some_iff.1 found)).holds r rfl
    field member
  rw [group] at holds
  obtain ⟨node, array, ⟨item, _, isItem, _⟩, behind⟩ := holds
  have below : graph.elementType field.node = node := by
    rw [elementType_array lowered.linked array]
    exact elementType_of_isWrapper_eq_false (record?_eq_some_iff.1 isItem) rfl
  refine ⟨node, item, ?_, array, below, isItem, behind⟩
  rw [groupItem?, if_pos group, below, isItem]

theorem exists_round_of_groupItem? (lowered : graph.Lowered allowed root) {r : Record}
    (found : graph.record? id = some r) {field : Field} (member : field ∈ r.fields)
    {item : Record} (rounds : graph.groupItem? field = some item) :
    ∃ node, graph.node? field.node = some (.array node) ∧
      graph.elementType field.node = node ∧ graph.record? node = some item ∧
        id < node := by
  obtain ⟨node, item', rounds', array, below, isItem, behind⟩ :=
    lowered.exists_round found member (origin_of_groupItem? rounds)
  cases rounds.symm.trans rounds'
  exact ⟨node, array, below, isItem, behind⟩

theorem ascends (lowered : graph.Lowered allowed root) {ids : Finset Nat}
    (closed : ∀ id ∈ ids, graph.Reachable id)
    (all : ∀ id, graph.Reachable id → id ∈ ids) : graph.Ascends ids := by
  intro id member r found field listed item leads
  obtain ⟨behind, array, _, isItem, later⟩ :=
    lowered.exists_round_of_groupItem? found listed leads
  have reachable : graph.Reachable field.node :=
    .target (closed id member) (record?_eq_some_iff.1 found)
      (List.mem_map.2 ⟨field, listed, rfl⟩)
  exact ⟨behind, all behind (.target reachable array List.mem_cons_self), later,
    isItem⟩

theorem indexed (lowered : graph.Lowered allowed root) {r : Record}
    (found : graph.record? id = some r) : r.Indexed :=
  (lowered.fits id _ (record?_eq_some_iff.1 found)).indexed r rfl

theorem primitive_of_text (lowered : graph.Lowered allowed root) {r : Record}
    (found : graph.record? id = some r) {index : Nat} {field : Field}
    (text : r.text = some index) (listed : r.fields[index]? = some field) :
    graph.IsPrimitive field.node := by
  have fits := lowered.fits id _ (record?_eq_some_iff.1 found)
  obtain ⟨field', listed', isText⟩ := Record.exists_field_of_findIdx?
    ((lowered.indexed found).text_eq.symm.trans text)
  obtain rfl := Option.some.inj (listed.symm.trans listed')
  have holds := fits.holds r rfl _ (List.mem_of_getElem? listed)
  rwa [isText] at holds

end Lowered

/-- How many further nodes an element is matched against behind one. -/
def height (graph : Graph) (id : Nat) : Nat :=
  match graph.node? id with
  | some (.optional _) => 2
  | some (.record _) => 1
  | _ => 0

theorem height_of_isPrimitive (primitive : graph.IsPrimitive id) :
    graph.height id = 0 := by
  obtain ⟨kind, logical, found⟩ := primitive
  rw [height, found]

theorem height_of_isBase (base : graph.IsBase id) : graph.height id ≤ 1 := by
  rcases base with primitive | ⟨r, found, _⟩
  · rw [height_of_isPrimitive primitive]
    exact Nat.zero_le 1
  · rw [height, record?_eq_some_iff.1 found]

/-- More steps than the height of a node are enough to match an element against
it. -/
theorem Lowered.convertWith_eq (lowered : graph.Lowered allowed root)
    (zone : Zone) (element : Element) (children : List Child) {fuel more : Nat}
    (enough : graph.height id < fuel) (alsoEnough : graph.height id < more) :
    graph.convertWith zone element children fuel id =
      graph.convertWith zone element children more id := by
  induction fuel generalizing more id with
  | zero => exact absurd enough (Nat.not_lt_zero _)
  | succ fuel ih =>
      obtain ⟨more, rfl⟩ : ∃ rest, more = rest + 1 := ⟨more - 1, by omega⟩
      rw [convertWith, convertWith]
      cases found : graph.node? id with
      | none => rfl
      | some node =>
          cases node with
          | record r =>
              have high : graph.height id = 1 := by rw [height, found]
              have isRecord := record?_eq_some_iff.2 found
              cases text : r.text with
              | none => simp only [text]
              | some index =>
                  cases listed : r.fields[index]? with
                  | none => simp only [text, Option.bind_some, listed]
                  | some field =>
                      have low := height_of_isPrimitive
                        (lowered.primitive_of_text isRecord text listed)
                      have same : graph.convertWith zone element children fuel
                          field.node = graph.convertWith zone element children
                            more field.node := ih (by omega) (by omega)
                      simp only [text, Option.bind_some, listed, same]
          | optional inner =>
              have high : graph.height id = 2 := by rw [height, found]
              have low := height_of_isBase (lowered.fits id _ found).wraps
              exact ih (by omega) (by omega)
          | _ => rfl

/-- A node that can be reached is less high than there are nodes in a copy. -/
theorem Lowered.height_le_size (lowered : graph.Lowered allowed root)
    (mirrors : copy.Mirrors graph place) (reachable : graph.Reachable id) :
    graph.height id ≤ graph.nodes.size ∧ graph.height id ≤ copy.nodes.size := by
  obtain ⟨node, found, present⟩ := mirrors.nodes id reachable
  have inside := lt_size_of_node? found
  have copyInside := lt_size_of_node? present
  rw [height, found]
  cases node with
  | optional inner =>
      have below := lowered.linked.descends id _ found rfl inner
        List.mem_cons_self
      have innerReachable : graph.Reachable inner :=
        .target reachable found List.mem_cons_self
      have innerInside := mirrors.bijective.mapsTo innerReachable
      rw [Set.mem_ofPred_eq] at innerInside
      have differs : place inner ≠ place id := by
        intro same
        have equal := mirrors.bijective.injOn innerReachable reachable same
        omega
      constructor
      · dsimp only
        omega
      · dsimp only
        omega
  | record r => exact ⟨by dsimp only; omega, by dsimp only; omega⟩
  | _ => exact ⟨Nat.zero_le _, Nat.zero_le _⟩

/-- A graph that was lowered and a copy of it are large enough to be searched. -/
theorem Lowered.twins (lowered : graph.Lowered allowed root)
    (mirrors : copy.Mirrors graph place) {pending : List Nat}
    (copyLinked : copy.Linked pending) : graph.Twins copy place where
  mirrors := mirrors
  linked := ⟨_, lowered.linked⟩
  copyLinked := ⟨_, copyLinked⟩
  routes := by
    classical
    intro id r name reachable found
    let ids := (Finset.range graph.nodes.size).filter (graph.Reachable ·)
    have listed : ∀ id, id ∈ ids ↔ graph.Reachable id := by
      intro id
      rw [Finset.mem_filter, Finset.mem_range, and_iff_right_iff_imp]
      intro reachable
      obtain ⟨node, found, _⟩ := mirrors.nodes id reachable
      exact lt_size_of_node? found
    have ascends := lowered.ascends (fun id => (listed id).1)
      (fun id => (listed id).2)
    have few : ids.card ≤ graph.nodes.size := by
      have atMost := Finset.card_filter_le (Finset.range graph.nodes.size)
        (graph.Reachable ·)
      rwa [Finset.card_range] at atMost
    have fewCopies : ids.card ≤ (Finset.range copy.nodes.size).card := by
      apply Finset.card_le_card_of_injOn place
      · intro id member
        rw [Finset.mem_coe, Finset.mem_range]
        exact mirrors.bijective.mapsTo ((listed id).1 member)
      · intro first member second member' same
        exact mirrors.bijective.injOn ((listed first).1 member)
          ((listed second).1 member') same
    rw [Finset.card_range] at fewCopies
    have fewer := Finset.card_filter_le ids (id ≤ ·)
    exact ascends.namedRoute?_eq name ((listed id).2 reachable) found
      (by omega) (by omega)
  steps := by
    intro zone element children id reachable
    obtain ⟨low, copyLow⟩ := lowered.height_le_size mirrors reachable
    exact lowered.convertWith_eq zone element children (by omega) (by omega)

end Graph

end XmlRecords
