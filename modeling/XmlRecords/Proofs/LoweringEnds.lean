import Mathlib.Data.Finset.Card
import XmlRecords.Proofs.Visits

/-!
# Lowering ends

There is a run for every task, by induction on how many types are closed: a type is
only entered if it is closed, and it is open while its fields are made.  So there is
one for all of lowering, whatever circles the types form.
-/

namespace XmlRecords

namespace Lowering

variable {components : Components} {b c : Builder} {id bound : Nat}

/-- The types that may still be entered. -/
def closedTypes (components : Components) (b : Builder) : Finset Nat :=
  (Finset.range components.types.size).filter (Closed components b)

theorem closedTypes_subset (stays : StaysOpen components b c) :
    closedTypes components c ⊆ closedTypes components b := by
  intro id member
  obtain ⟨inside, closed⟩ := Finset.mem_filter.1 member
  exact Finset.mem_filter.2 ⟨inside, stays id closed⟩

/-- When a type is entered, there is one less that may be. -/
theorem card_closedTypes_lt (stays : StaysOpen components b c)
    (inside : id < components.types.size) (closed : Closed components b id)
    (opened : ¬ Closed components c id) :
    (closedTypes components c).card < (closedTypes components b).card := by
  apply Finset.card_lt_card
  refine ⟨closedTypes_subset stays, fun subset => opened ?_⟩
  have member : id ∈ closedTypes components b :=
    Finset.mem_filter.2 ⟨Finset.mem_range.2 inside, closed⟩
  exact (Finset.mem_filter.1 (subset member)).2

/-- Fewer types than a bound may still be entered. -/
def Within (components : Components) (bound : Nat) (b : Builder) : Prop :=
  (closedTypes components b).card < bound

theorem Within.mono (within : Within components bound b)
    (stays : StaysOpen components b c) : Within components bound c :=
  Nat.lt_of_le_of_lt (Finset.card_le_card (closedTypes_subset stays)) within

/-- Where few types may still be entered, nodes of types are made in a run. -/
def RunsWithin (components : Components) (bound : Nat) (enter : TypeRef → Build Nat) :
    Prop :=
  ∀ ref b, Within components bound b →
    ∃ visits, Runs components (.node ref) b visits ((enter ref).run b)

section Particles

variable {enter : TypeRef → Build Nat}

theorem run_bind_of_ok {α β : Type} {m : Build α} {next : α → Build β} {x : α}
    (ended : m.run b = .ok (x, c)) : (m >>= next).run b = (next x).run c := by
  rw [StateT.run_bind, ended]
  rfl

theorem push_groupNode (compositor : Compositor) (fill : Build Fields) (fields : Fields) :
    (do
      let node ← groupNode compositor fill
      return fields.push groupField .group node) =
    (do
      let item ← beginGroup compositor
      let inner ← fill
      finishGroup fields item inner) := by
  simp only [groupNode, beginGroup, finishGroup, bind_assoc]

mutual

theorem exists_runs_flatten (enters : RunsWithin components bound enter)
    (optional : Bool) (fields : Fields) (particle : Particle) (b : Builder)
    (within : Within components bound b) :
    ∃ visits, Runs components (.particle optional fields particle) b visits
      ((flatten enter optional fields particle).run b) := by
  cases particle with
  | element occurs declaration =>
      simp only [flatten]
      split
      · next never => exact ⟨[], .prohibited fields b never⟩
      · next may =>
          obtain ⟨visits, made⟩ := enters declaration.type b within
          exact ⟨visits, .element may made⟩
  | group occurs compositor particles =>
      simp only [flatten]
      split
      · next never => exact ⟨[], .prohibited fields b never⟩
      · next may =>
          split
          · next often =>
              obtain ⟨item, c, begun, same⟩ := Neutral.beginGroup compositor b
              obtain ⟨visits, filled⟩ := exists_runs_flattenAll enters (compositor == .choice)
                {} particles c (within.mono fun id => same.closed_iff.1)
              refine ⟨visits, ?_⟩
              rw [push_groupNode, run_bind_of_ok begun]
              exact .repeated may often begun filled
          · next once =>
              obtain ⟨visits, filled⟩ := exists_runs_flattenAll enters
                (optional || occurs.least == 0 || compositor == .choice) fields particles b
                within
              exact ⟨visits, .group may once filled⟩
  | wildcard occurs =>
      simp only [flatten]
      split
      · next never => exact ⟨[], .prohibited fields b never⟩
      · next may => exact ⟨[], .wildcard fields b may⟩
  | unsupported occurs tag =>
      simp only [flatten]
      split
      · next never => exact ⟨[], .prohibited fields b never⟩
      · next may => exact ⟨[], .unsupported fields b may⟩

theorem exists_runs_flattenAll (enters : RunsWithin components bound enter)
    (optional : Bool) (fields : Fields) (particles : List Particle) (b : Builder) (within : Within components bound b) :
    ∃ visits, Runs components (.particles optional fields particles) b visits
      ((flattenAll enter optional fields particles).run b) := by
  cases particles with
  | nil => exact ⟨[], .nil fields b⟩
  | cons particle rest =>
      obtain ⟨visits, first⟩ := exists_runs_flatten enters optional fields particle b within
      rw [flattenAll, StateT.run_bind]
      cases ended : (flatten enter optional fields particle).run b with
      | error e =>
          rw [ended] at first
          exact ⟨visits, .failed first⟩
      | ok made =>
          obtain ⟨between, c⟩ := made
          rw [ended] at first
          have later := within.mono (first.outcome.staysOpen between c rfl)
          obtain ⟨more, further⟩ := exists_runs_flattenAll enters optional between rest c
            later
          exact ⟨visits ++ more, .cons first further⟩

end

end Particles

section Types

/-- The fields of a type are made in a run.  Only those of its content may lead to
further types. -/
theorem exists_runs_typeFields {enter : TypeRef → Build Nat} (type : ComplexType)
    (b : Builder) (enters : RunsWithin components bound enter)
    (within : type.content.isSome → Within components bound b) :
    ∃ visits, Runs components (.type type) b visits ((typeFields enter type).run b) := by
  obtain ⟨fields, c, text, same⟩ := Neutral.textFields type b
  cases present : type.content with
  | none =>
      have runs : Runs components (.type type) b []
          (Ending.andThen ((textFields type).run b) (addRest type)) := .empty b present
      rw [typeFields, run_bind_of_ok text, addContent, present, pure_bind]
      rw [text] at runs
      exact ⟨[], runs⟩
  | some content =>
      rw [present] at within
      obtain ⟨visits, filled⟩ := exists_runs_flatten enters false fields content c
        ((within rfl).mono fun id => same.closed_iff.1)
      rw [typeFields, run_bind_of_ok text, addContent, present]
      exact ⟨visits, .content present text filled⟩

theorem lt_size_of_content (present : (components.typeAt id).content.isSome) :
    id < components.types.size := by
  by_contra outside
  rw [Components.typeAt, Array.getElem?_eq_none (Nat.le_of_not_lt outside)] at present
  cases present

/-- As many types may be entered one within the other as there are closed ones. -/
theorem runsWithin_typeNode (components : Components) (fuel : Nat) :
    RunsWithin components fuel (typeNode components fuel) := by
  induction fuel with
  | zero =>
      intro ref b within
      exact absurd within (Nat.not_lt_zero _)
  | succ fuel ih =>
      intro ref b within
      cases ref with
      | simple datatype => exact ⟨[], .simple datatype b⟩
      | complex id =>
          rw [typeNode, Run.get_bind]
          cases closed : openRecord? b id (components.types[id]?.getD {}) with
          | some node => exact ⟨[], .known closed⟩
          | none =>
              obtain ⟨node, c, begun, stays, opened⟩ := run_beginType components b id
              have fewer : (components.typeAt id).content.isSome →
                  Within components fuel c := fun present =>
                Nat.lt_of_lt_of_le
                  (card_closedTypes_lt stays (lt_size_of_content present) closed opened)
                  (Nat.le_of_lt_succ within)
              obtain ⟨visits, filled⟩ :=
                exists_runs_typeFields (components.typeAt id) c ih fewer
              dsimp only
              rw [← Components.typeAt, run_bind_of_ok begun, StateT.run_bind]
              cases ended : (typeFields (typeNode components fuel)
                  (components.typeAt id)).run c with
              | error e =>
                  rw [ended] at filled
                  exact ⟨_, .stuck closed begun filled⟩
              | ok made =>
                  rw [ended] at filled
                  exact ⟨_, .entered closed begun filled⟩

end Types

section Roots

theorem within_start (components : Components) :
    Within components (components.types.size + 1) {} := by
  have most := Finset.card_filter_le (Finset.range components.types.size)
    (Closed components {})
  rw [Finset.card_range] at most
  exact Nat.lt_succ_of_le most

/-- The fields of the record for a choice of roots are those of optional elements. -/
theorem documentFields_eq (components : Components) (fields : Fields)
    (roots : List ElementDecl) :
    documentFields components fields roots =
      flattenAll (typeNode components (components.types.size + 1)) false fields
        (roots.map alternative) := by
  induction roots generalizing fields with
  | nil => rfl
  | cons root rest ih =>
      rw [documentFields, List.map_cons, alternative, flattenAll, flatten]
      simp [ih, Occurs.isProhibited, Occurs.isRepeated, occurrenceNode]

theorem accounts_start (components : Components) : Accounts components [] {} := by
  intro id closed
  rw [MayEnter]
  split
  · intro other member
    cases member
  · rfl

theorem Lowers.orderly {wanted : Option String} {visits : List Visit}
    {ending : Except Error Graph} (lowers : Lowers components wanted visits ending) :
    Orderly components [] visits := by
  cases lowers with
  | refused chosen => exact .nil
  | single chosen made => exact made.outcome.orderly [] (accounts_start components)
  | several chosen several filled =>
      exact filled.outcome.orderly [] (accounts_start components)

theorem rootNode_eq (components : Components) {roots : List ElementDecl}
    (several : roots.length ≠ 1) :
    rootNode components roots = (do
      let fields ← flattenAll (typeNode components (components.types.size + 1)) false {}
        (roots.map alternative)
      finishDocument fields) := by
  rw [← documentFields_eq]
  match roots with
  | [] | _ :: _ :: _ => rfl
  | [root] => exact absurd rfl several

theorem ofComponents_eq {wanted : Option String} {roots : List ElementDecl}
    (chosen : chosenRoots components wanted = .ok roots) :
    Graph.ofComponents components wanted =
      ((rootNode components roots).run {}).map finishGraph := by
  rw [Graph.ofComponents, chosen]
  change ((rootNode components roots).run {} >>= fun made => pure (finishGraph made)) = _
  cases (rootNode components roots).run {} <;> rfl

theorem exists_lowers (components : Components) (wanted : Option String) :
    ∃ visits, Lowers components wanted visits (Graph.ofComponents components wanted) := by
  have start := within_start components
  have enters := runsWithin_typeNode components (components.types.size + 1)
  cases chosen : chosenRoots components wanted with
  | error e =>
      rw [Graph.ofComponents, chosen]
      exact ⟨[], .refused chosen⟩
  | ok roots =>
      rw [ofComponents_eq chosen]
      by_cases single : roots.length = 1
      · obtain ⟨root, rfl⟩ := List.length_eq_one_iff.1 single
        obtain ⟨visits, made⟩ := enters root.type {} start
        exact ⟨visits, .single chosen made⟩
      · obtain ⟨visits, filled⟩ := exists_runs_flattenAll enters false {}
          (roots.map alternative) {} start
        rw [rootNode_eq components single]
        exact ⟨visits, .several chosen single filled⟩

end Roots

/-- Lowering ends, whatever circles the types form: there is one run for it and no
other.  On it a type with a name is entered at most once, and one without a name only
while it is not open. -/
theorem existsUnique_run_ofComponents (components : Components) (wanted : Option String) :
    ∃ visits,
      Lowers components wanted visits (Graph.ofComponents components wanted) ∧
      (∀ others ending, Lowers components wanted others ending →
        others = visits ∧ ending = Graph.ofComponents components wanted) ∧
      Orderly components [] visits := by
  obtain ⟨visits, lowers⟩ := exists_lowers components wanted
  exact ⟨visits, lowers, fun others ending other => other.unique lowers, lowers.orderly⟩

end Lowering

end XmlRecords
