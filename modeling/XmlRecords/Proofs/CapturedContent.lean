import XmlRecords.Proofs.RecordContents

/-!
# What wildcards capture

A wildcard captures what has no field of its own in a map from local names to texts.
So of what comes under one name the last replaces the others, and nothing is lost just
when the names are distinct.  No name leads to a wildcard in the rounds of a repeated
group, whose maps stay empty.
-/

namespace XmlRecords

namespace Association

variable {κ α β : Type} [BEq κ] [LawfulBEq κ] {related : α → β → Prop}
  {xs : List (κ × α)} {ys : List (κ × β)}

/-- Tables with the same distinct keys are related entry by entry if what they list
under each key is. -/
theorem forall₂_of_lookup (keys : xs.map (·.1) = ys.map (·.1))
    (distinct : (xs.map (·.1)).Nodup)
    (values : ∀ key x y, xs.lookup key = some x → ys.lookup key = some y →
      related x y) :
    List.Forall₂ (fun x y => x.1 = y.1 ∧ related x.2 y.2) xs ys := by
  have length : xs.length = ys.length := by simpa using congrArg List.length keys
  refine List.forall₂_iff_zip.2 ⟨length, fun {x y} both => ?_⟩
  obtain ⟨index, found⟩ := List.getElem?_of_mem both
  obtain ⟨first, second⟩ := List.getElem?_zip_eq_some.1 found
  have same : x.1 = y.1 := by
    have equal := congrArg (·[index]?) keys
    simpa [first, second] using equal
  refine ⟨same, values x.1 _ _ ?_ ?_⟩
  · exact lookup_eq_some_of_mem distinct (List.mem_of_getElem? first)
  · rw [same]
    exact lookup_eq_some_of_mem (keys ▸ distinct) (List.mem_of_getElem? second)

omit [LawfulBEq κ] in
theorem rel_lookup
    (entries : List.Forall₂ (fun x y => x.1 = y.1 ∧ related x.2 y.2) xs ys) (key : κ) :
    Option.Rel related (xs.lookup key) (ys.lookup key) := by
  induction entries with
  | nil => exact .none
  | @cons x y _ _ both _ ih =>
      obtain ⟨same, value⟩ := both
      rw [List.lookup_cons, List.lookup_cons, same]
      cases key == y.1 with
      | true => exact .some value
      | false => exact ih

end Association

namespace Captures

variable {captured entries : List (String × String)}

theorem nodup (captures : Captures captured entries) : (entries.map (·.1)).Nodup :=
  captures.keys ▸ Association.nodup_eraseDups _

/-- All that was captured is there just when no key came twice. -/
theorem eq_iff_nodup (captures : Captures captured entries) :
    entries = captured ↔ (captured.map (·.1)).Nodup := by
  constructor
  · rintro rfl
    exact captures.nodup
  · intro distinct
    have keys : entries.map (·.1) = captured.map (·.1) :=
      captures.keys.trans (Association.eraseDups_eq_self distinct)
    have same : List.Forall₂ (fun x y => x.1 = y.1 ∧ x.2 = y.2) entries captured := by
      refine Association.forall₂_of_lookup keys captures.nodup ?_
      intro key x y held found
      have reversed : (captured.reverse.map (·.1)).Nodup := by
        rw [List.map_reverse]
        exact List.nodup_reverse.2 distinct
      obtain ⟨before, behind, same, _⟩ := List.lookup_eq_some_iff.1 found
      have member : (key, y) ∈ captured.reverse := by simp [same]
      rw [captures.texts, Association.lookup_eq_some_of_mem reversed member] at held
      exact (Option.some.inj held).symm
    refine List.forall₂_eq_eq_eq ▸ same.imp ?_
    exact fun x y both => Prod.ext both.1 both.2

/-- Where the same keys come with related texts, related texts are kept. -/
theorem forall₂ {related : String → String → Prop}
    {others kept : List (String × String)} (captures : Captures captured entries)
    (again : Captures others kept)
    (together : List.Forall₂ (fun x y => x.1 = y.1 ∧ related x.2 y.2) captured others) :
    List.Forall₂ (fun x y => x.1 = y.1 ∧ related x.2 y.2) entries kept := by
  have names : captured.map (·.1) = others.map (·.1) := by
    rw [← List.forall₂_eq_eq_eq, List.forall₂_map_left_iff, List.forall₂_map_right_iff]
    exact together.imp fun _ _ both => both.1
  have keys : entries.map (·.1) = kept.map (·.1) := by
    rw [captures.keys, again.keys, names]
  refine Association.forall₂_of_lookup keys captures.nodup fun key x y held held' => ?_
  have last := Association.rel_lookup (List.rel_reverse together) key
  rw [← captures.texts, ← again.texts, held, held'] at last
  cases last with
  | some value => exact value

end Captures

/-- A map retains what was captured: each key where it first came, with the text that
came last.  So it retains all of it, entry by entry, just when no key came twice. -/
structure Retains (captured entries : List (String × String)) : Prop extends
    Captures captured entries where
  whole : entries = captured ↔ (captured.map (·.1)).Nodup

theorem Captures.retains {captured entries : List (String × String)}
    (captures : Captures captured entries) : Retains captured entries :=
  ⟨captures, captures.eq_iff_nodup⟩

namespace Graph

/-- The rounds of the repeated groups in the slots of a record, and the rounds in
these. -/
inductive RoundIn (graph : Graph) (record : Record) (slots : Slots) :
    Record → Slots → Prop where
  | direct {index : Nat} {field : Field} {item : Record} {round : Slots}
      (listed : record.fields[index]? = some field)
      (isGroup : graph.groupItem? field = some item)
      (member : .record round ∈ slots.items index) :
      RoundIn graph record slots item round
  | within {outer : Record} {above : Slots} {index : Nat} {field : Field}
      {item : Record} {round : Slots} (inside : RoundIn graph record slots outer above)
      (listed : outer.fields[index]? = some field)
      (isGroup : graph.groupItem? field = some item)
      (member : .record round ∈ above.items index) :
      RoundIn graph record slots item round

/-- The wildcards of a record keep what an element has beside the fields: the children
that are sent to the one, and the attributes without a field that carry data.  Those in
the rounds of groups keep nothing. -/
structure KeepsOthers (graph : Graph) (record : Record) (element : Element)
    (slots : Slots) : Prop where
  children : ∀ index, record.elementWildcard = some index →
    ∃ entries, slots.get? index = some (.map entries) ∧
      Retains ((graph.sentTo record index element.children).map fun child =>
        (child.name.name, child.innerMarkup)) entries
  attributes : ∀ index, record.attributeWildcard = some index →
    ∃ entries, slots.get? index = some (.map entries) ∧
      Retains ((record.otherAttributes element.attributes).map fun a =>
        (a.name.name, a.value)) entries
  rounds : ∀ item round index, graph.RoundIn record slots item round →
    item.elementWildcard = some index → round.get? index = some (.map [])

variable {graph : Graph} {allowed : QName → Prop} {root id : Nat}
  {record item : Record} {zone : Zone} {slots round : Slots}
  {children : List Element} {element : Element}

namespace Lowered

/-- A round has a share of the children, all of which it accepts. -/
theorem exists_share (lowered : graph.Lowered allowed root)
    (found : graph.record? id = some record)
    (distributes : graph.Distributes zone record children slots) {index : Nat}
    {field : Field} (listed : record.fields[index]? = some field)
    (isGroup : graph.groupItem? field = some item)
    (member : .record round ∈ slots.items index) :
    ∃ node share, graph.record? node = some item ∧
      graph.Distributes zone item share round ∧
      ∀ child ∈ share, graph.Accepts child.name item := by
  have group := origin_of_groupItem? isGroup
  obtain ⟨node, _, _, isItem, _⟩ := lowered.round_of_groupItem? found listed isGroup
  obtain ⟨rounds, held, divides, each, _⟩ :=
    (distributes.receives listed (.inr (.inl group))).exists_rounds isGroup
  rw [Slots.items_of_get? held] at member
  obtain ⟨⟨share, _⟩, within, same⟩ := List.mem_map.1 member
  cases same
  refine ⟨node, share, isItem, each _ within, fun child inShare => ?_⟩
  have sent : child ∈ graph.sentTo record index children := by
    rw [← divides.whole]
    exact List.mem_flatten.2 ⟨share, List.mem_map_of_mem within, inShare⟩
  obtain ⟨_, _, goes⟩ := lowered.exists_rest_of_mem_sentTo found listed isGroup sent
  exact goes.accepts

/-- Nothing goes to a wildcard where every child is accepted. -/
theorem sentTo_eq_nil (lowered : graph.Lowered allowed root)
    (found : graph.record? id = some item) {index : Nat}
    (wildcard : item.elementWildcard = some index)
    (accepted : ∀ child ∈ children, graph.Accepts child.name item) :
    graph.sentTo item index children = [] := by
  rw [List.eq_nil_iff_forall_not_mem]
  intro child sent
  obtain ⟨member, here⟩ := mem_sentTo.1 sent
  obtain ⟨route, field, routed, listed, arm⟩ :=
    lowered.exists_route_of_accepts found (accepted child member)
  obtain ⟨other, listed', origin, _⟩ :=
    lowered.isTextMap_of_elementWildcard found wildcard
  rw [routed, Option.map_some, Option.some.injEq] at here
  cases (here ▸ listed).symm.trans listed'
  rw [isArm, origin] at arm
  cases arm

theorem get?_elementWildcard_of_roundIn (lowered : graph.Lowered allowed root)
    (found : graph.record? id = some record)
    (distributes : graph.Distributes zone record children slots)
    (inside : graph.RoundIn record slots item round) {index : Nat}
    (wildcard : item.elementWildcard = some index) :
    round.get? index = some (.map []) := by
  have shared : ∃ node share, graph.record? node = some item ∧
      graph.Distributes zone item share round ∧
      ∀ child ∈ share, graph.Accepts child.name item := by
    clear wildcard
    induction inside with
    | direct listed isGroup member =>
        exact lowered.exists_share found distributes listed isGroup member
    | within _ listed isGroup member ih =>
        obtain ⟨_, _, found, distributes, _⟩ := ih
        exact lowered.exists_share found distributes listed isGroup member
  obtain ⟨_, share, isItem, distributes, accepted⟩ := shared
  obtain ⟨field, listed, origin, _⟩ :=
    lowered.isTextMap_of_elementWildcard isItem wildcard
  obtain ⟨entries, held, captures⟩ :=
    (distributes.receives listed (.inr (.inr origin))).exists_entries origin
  rw [lowered.sentTo_eq_nil isItem wildcard accepted] at captures
  rw [held, captures.eq_iff_nodup.2 List.nodup_nil]
  rfl

theorem keepsOthers_of_convert (lowered : graph.Lowered allowed root)
    (found : graph.record? id = some record) {value : Value}
    (converted : graph.convert zone id element = .ok value) :
    ∃ slots, value = .record slots ∧ graph.KeepsOthers record element slots := by
  obtain ⟨slots, rfl, distributes⟩ := lowered.distributes_of_convert found converted
  obtain ⟨placed, filled, _, same, placing, filling, puts⟩ :=
    (lowered.convert_record_eq_ok found).1 converted
  cases same
  refine ⟨slots, rfl, ?_, ?_, ?_⟩
  · intro index wildcard
    obtain ⟨field, listed, origin, _⟩ :=
      lowered.isTextMap_of_elementWildcard found wildcard
    obtain ⟨entries, held, captures⟩ :=
      (distributes.receives listed (.inr (.inr origin))).exists_entries origin
    exact ⟨entries, held, captures.retains⟩
  · intro index wildcard
    obtain ⟨entries, held, captures⟩ :=
      lowered.exists_captures_of_fill found placing filling puts wildcard
    exact ⟨entries, held, captures.retains⟩
  · intro item round index inside wildcard
    exact lowered.get?_elementWildcard_of_roundIn found distributes inside wildcard

end Lowered

end Graph

end XmlRecords
