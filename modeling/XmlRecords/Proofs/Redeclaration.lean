import Mathlib.Data.List.Nodup
import XmlRecords.Association
import XmlRecords.Components.Reading

/-!
# Attributes that are declared again

Attributes are declared one after the other.  One whose name is new comes last, and one
whose name is known takes the place of the attribute that was declared under it.  What
comes of this is told by names alone: the old ones stay where they are, the new ones
follow in the order in which they come first, and each name stands for what was
declared under it last.
-/

namespace XmlRecords

section Replace

variable {a other : AttributeUse} {attributes : List AttributeUse}

theorem names_replaceAttribute (a : AttributeUse) (attributes : List AttributeUse) :
    (replaceAttribute a attributes).map (·.name) =
      if a.name ∈ attributes.map (·.name) then attributes.map (·.name)
      else attributes.map (·.name) ++ [a.name] := by
  induction attributes with
  | nil => rfl
  | cons first rest ih =>
      rw [replaceAttribute]
      by_cases same : first.name = a.name
      · simp [same]
      · have differs : a.name ≠ first.name := fun equal => same equal.symm
        rw [if_neg same, List.map_cons, ih, List.map_cons]
        by_cases known : a.name ∈ rest.map (·.name)
        · rw [if_pos known, if_pos (List.mem_cons_of_mem _ known)]
        · rw [if_neg known, if_neg (List.not_mem_cons_of_ne_of_not_mem differs known),
            List.cons_append]

theorem find?_replaceAttribute (a : AttributeUse) (attributes : List AttributeUse)
    (name : QName) :
    (replaceAttribute a attributes).find? (·.name == name) =
      ([a].find? (·.name == name)).or (attributes.find? (·.name == name)) := by
  induction attributes with
  | nil => simp [replaceAttribute]
  | cons first rest ih =>
      rw [replaceAttribute]
      by_cases same : first.name = a.name
      · rw [if_pos same, List.find?_cons, List.find?_cons, List.find?_cons, same]
        cases a.name == name <;> rfl
      · rw [if_neg same]
        by_cases here : first.name = name
        · have apart : (a.name == name) = false :=
            beq_false_of_ne fun equal => same (here.trans equal.symm)
          simp [here, apart]
        · have passed : ∀ others : List AttributeUse,
              (first :: others).find? (·.name == name) =
                others.find? (·.name == name) :=
            fun _ => List.find?_cons_of_neg (by simpa using here)
          rw [passed, ih, passed]

/-- All other attributes keep their places. -/
theorem getElem?_replaceAttribute {index : Nat} (found : attributes[index]? = some other)
    (apart : other.name ≠ a.name) :
    (replaceAttribute a attributes)[index]? = some other := by
  induction attributes generalizing index with
  | nil => simp at found
  | cons first rest ih =>
      rw [replaceAttribute]
      cases index with
      | zero =>
          cases found
          rw [if_neg apart]
          rfl
      | succ index =>
          split
          · exact found
          · exact ih found

end Replace

/-- Declare attributes one after the other. -/
def redeclare (old own : List AttributeUse) : List AttributeUse :=
  own.foldl (fun attributes a => replaceAttribute a attributes) old

/-- The attributes are the old ones after some were declared, each new or again. -/
structure Redeclares (old own attributes : List AttributeUse) : Prop where
  names : attributes.map (·.name) = old.map (·.name) ++
    ((own.map (·.name)).filter fun name => name ∉ old.map (·.name)).eraseDups
  uses : ∀ name, attributes.find? (·.name == name) =
    (own.reverse.find? (·.name == name)).or (old.find? (·.name == name))
  keeps : ∀ (index : Nat) (a : AttributeUse), old[index]? = some a →
    a.name ∉ own.map (·.name) → attributes[index]? = some a

theorem redeclares_redeclare (old own : List AttributeUse) :
    Redeclares old own (redeclare old own) := by
  induction own generalizing old with
  | nil => exact ⟨by simp [redeclare], by simp [redeclare], fun _ _ found _ => found⟩
  | cons a rest ih =>
      have step := ih (replaceAttribute a old)
      refine ⟨?_, ?_, ?_⟩
      · rw [redeclare, List.foldl_cons, ← redeclare, step.names,
          names_replaceAttribute, List.map_cons]
        by_cases known : a.name ∈ old.map (·.name)
        · rw [if_pos known, List.filter_cons_of_neg (by simpa using known)]
        · rw [if_neg known, List.filter_cons_of_pos (by simpa using known),
            List.eraseDups_cons, List.append_assoc, List.singleton_append,
            List.filter_filter]
          congr 3
          refine List.filter_congr fun name _ => ?_
          by_cases same : name = a.name <;> simp [same]
      · intro name
        rw [redeclare, List.foldl_cons, ← redeclare, step.uses,
          find?_replaceAttribute, List.reverse_cons, List.find?_append, Option.or_assoc]
      · intro index b found absent
        rw [List.map_cons, List.mem_cons, not_or] at absent
        exact step.keeps index b (getElem?_replaceAttribute found absent.1) absent.2

theorem redeclare_append (old first second : List AttributeUse) :
    redeclare old (first ++ second) = redeclare (redeclare old first) second :=
  List.foldl_append

section Names

variable {old own attributes : List AttributeUse}

/-- Distinct names stay distinct. -/
theorem Redeclares.nodup (redeclares : Redeclares old own attributes)
    (distinct : (old.map (·.name)).Nodup) : (attributes.map (·.name)).Nodup := by
  rw [redeclares.names]
  refine distinct.append (Association.nodup_eraseDups _) fun name known new => ?_
  rw [List.mem_eraseDups] at new
  simpa [known] using (List.mem_filter.1 new).2

/-- Among distinct names an attribute is found by its own. -/
theorem find?_name_eq_some_iff (distinct : (attributes.map (·.name)).Nodup)
    {a : AttributeUse} :
    attributes.find? (·.name == a.name) = some a ↔ a ∈ attributes := by
  refine ⟨List.mem_of_find?_eq_some, fun member => ?_⟩
  have finds : (attributes.find? (·.name == a.name)).isSome :=
    List.find?_isSome.2 ⟨a, member, beq_self_eq_true a.name⟩
  obtain ⟨other, found⟩ := Option.isSome_iff_exists.1 finds
  have same : other.name = a.name := by simpa using List.find?_some found
  rw [found, List.inj_on_of_nodup_map distinct (List.mem_of_find?_eq_some found) member
    same]

/-- What is declared is the last of each name, and all old attributes that were not
declared again. -/
theorem Redeclares.mem_iff (redeclares : Redeclares old own attributes)
    (distinct : (old.map (·.name)).Nodup) (a : AttributeUse) :
    a ∈ attributes ↔ own.reverse.find? (·.name == a.name) = some a ∨
      a ∈ old ∧ a.name ∉ own.map (·.name) := by
  have absent : own.reverse.find? (·.name == a.name) = none ↔
      a.name ∉ own.map (·.name) := by
    simp
  rw [← find?_name_eq_some_iff (redeclares.nodup distinct), redeclares.uses,
    Option.or_eq_some_iff, absent, find?_name_eq_some_iff distinct, and_comm]

end Names

end XmlRecords
