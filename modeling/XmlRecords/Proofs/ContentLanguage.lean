import Mathlib.Data.List.Count
import XmlRecords.Proofs.Plan

/-!
# The language of a content model

A content model is a regular expression over declarations and wildcards.  A word
of it says for each child in turn what the child is matched by.  Words are made of
the declarations in the model alone.  A name that is declared once, outside of
repeated groups and not repeated itself, comes up in a word once at most.
-/

namespace XmlRecords

/-- What a child is matched by: a declaration, or else a wildcard. -/
abbrev Label := Option ElementDecl

/-- The word is one of as many rounds as there may be. -/
def Occurs.Repeats (occurs : Occurs) (spells : List Label → Prop)
    (word : List Label) : Prop :=
  ∃ rounds : List (List Label), rounds.flatten = word ∧
    occurs.least ≤ rounds.length ∧
    (∀ most ∈ occurs.greatest, rounds.length ≤ most) ∧
    ∀ round ∈ rounds, spells round

/-- The third word is made of the first two, each of them in its order. -/
inductive Interleaved {α : Type} : List α → List α → List α → Prop where
  | nil : Interleaved [] [] []
  | left {first second both : List α} (x : α)
      (rest : Interleaved first second both) :
      Interleaved (x :: first) second (x :: both)
  | right {first second both : List α} (x : α)
      (rest : Interleaved first second both) :
      Interleaved first (x :: second) (x :: both)

mutual

/-- The words of a particle. -/
def Particle.Spells : Particle → List Label → Prop
  | .element occurs declaration => occurs.Repeats (· = [some declaration])
  | .wildcard occurs => occurs.Repeats (· = [none])
  | .group occurs compositor particles =>
      occurs.Repeats (Particle.SpellsAll compositor particles)
  | .unsupported occurs _ => occurs.Repeats fun _ => False

/-- The words of several particles, one after the other, one of them, or all of
them in any order. -/
def Particle.SpellsAll (compositor : Compositor) :
    List Particle → List Label → Prop
  | [], word => compositor ≠ .choice ∧ word = []
  | particle :: rest, word =>
      match compositor with
      | .sequence => ∃ first others, particle.Spells first ∧
          Particle.SpellsAll compositor rest others ∧ first ++ others = word
      | .choice => particle.Spells word ∨
          Particle.SpellsAll compositor rest word
      | .all => ∃ first others, particle.Spells first ∧
          Particle.SpellsAll compositor rest others ∧
            Interleaved first others word

end

namespace Interleaved

variable {α : Type} {first second both : List α}

theorem perm (interleaved : Interleaved first second both) :
    both.Perm (first ++ second) := by
  induction interleaved with
  | nil => exact .nil
  | left x _ ih => exact ih.cons x
  | right x _ ih => exact (ih.cons x).trans List.perm_middle.symm

theorem append (first second : List α) :
    Interleaved first second (first ++ second) := by
  induction first with
  | nil =>
      induction second with
      | nil => exact .nil
      | cons x second ih => exact .right x ih
  | cons x first ih => exact .left x ih

end Interleaved

/-- Whatever the compositor, a word is made of one of the first particle and one of
the others, where either may be left out. -/
theorem Particle.exists_interleaved_of_spellsAll {compositor : Compositor}
    {particle : Particle} {rest : List Particle} {word : List Label}
    (spells : Particle.SpellsAll compositor (particle :: rest) word) :
    ∃ first others, (particle.Spells first ∨ first = []) ∧
      (Particle.SpellsAll compositor rest others ∨ others = []) ∧
        Interleaved first others word := by
  cases compositor with
  | sequence =>
      obtain ⟨first, others, here, there, rfl⟩ := spells
      exact ⟨first, others, .inl here, .inl there, .append first others⟩
  | choice =>
      rcases spells with here | there
      · have alone := Interleaved.append word []
        rw [List.append_nil] at alone
        exact ⟨word, [], .inl here, .inr rfl, alone⟩
      · exact ⟨[], word, .inr rfl, .inl there, .append [] word⟩
  | all =>
      obtain ⟨first, others, here, there, interleaved⟩ := spells
      exact ⟨first, others, .inl here, .inl there, interleaved⟩

namespace Occurs.Repeats

variable {occurs : Occurs} {spells : List Label → Prop} {word : List Label}

theorem exists_round (repeats : occurs.Repeats spells word) {label : Label}
    (member : label ∈ word) :
    occurs.isProhibited = false ∧ ∃ round, spells round ∧ label ∈ round := by
  obtain ⟨rounds, rfl, _, most, each⟩ := repeats
  obtain ⟨round, listed, member⟩ := List.mem_flatten.1 member
  refine ⟨?_, round, each round listed, member⟩
  rw [isProhibited, beq_eq_false_iff_ne]
  intro none
  have empty : rounds.length ≤ 0 := most 0 none
  rw [List.length_eq_zero_iff.1 (Nat.le_zero.1 empty)] at listed
  cases listed

theorem once (spelled : spells word) : Occurs.once.Repeats spells word :=
  ⟨[word], by simp, Nat.le_refl 1, by simp [Occurs.once], by simpa using spelled⟩

theorem of_once (repeats : Occurs.once.Repeats spells word) : spells word := by
  obtain ⟨rounds, rfl, least, most, each⟩ := repeats
  obtain ⟨round, rfl⟩ := List.length_eq_one_iff.1
    (Nat.le_antisymm (most 1 rfl) least)
  simpa using each

/-- What is not repeated is spelled once, or not at all. -/
theorem eq_nil_or_spells (repeats : occurs.Repeats spells word)
    (single : occurs.isRepeated = false) : word = [] ∨ spells word := by
  obtain ⟨rounds, rfl, _, most, each⟩ := repeats
  have atMost : rounds.length ≤ 1 := by
    rw [isRepeated, Bool.and_eq_false_iff] at single
    simp only [bne_eq_false_iff_eq] at single
    rcases single with never | once
    · exact (most 0 never).trans (Nat.zero_le 1)
    · exact most 1 once
  cases rounds with
  | nil => exact .inl rfl
  | cons first rest =>
      have alone : rest = [] := by
        rw [List.length_cons] at atMost
        exact List.length_eq_zero_iff.1 (by omega)
      subst alone
      have spelled := each first List.mem_cons_self
      rw [List.flatten_cons, List.flatten_nil, List.append_nil]
      exact .inr spelled

end Occurs.Repeats

mutual

/-- Words are made of the declarations in the particle. -/
theorem Particle.mem_declarations_of_spells (particle : Particle)
    {word : List Label} (spells : particle.Spells word)
    {declaration : ElementDecl} (member : some declaration ∈ word) :
    declaration ∈ particle.declarations := by
  cases particle with
  | element occurs other =>
      rw [Particle.Spells] at spells
      obtain ⟨allowed, round, rfl, member⟩ := spells.exists_round member
      rw [Particle.declarations, allowed, if_neg Bool.false_ne_true]
      simpa using member
  | group occurs compositor particles =>
      rw [Particle.Spells] at spells
      obtain ⟨allowed, round, spells, member⟩ := spells.exists_round member
      rw [Particle.declarations, allowed, if_neg Bool.false_ne_true]
      exact Particle.mem_declarationsOfAll_of_spells compositor particles spells
        member
  | wildcard occurs =>
      rw [Particle.Spells] at spells
      obtain ⟨_, round, rfl, member⟩ := spells.exists_round member
      simp at member
  | unsupported occurs tag =>
      rw [Particle.Spells] at spells
      obtain ⟨_, round, impossible, _⟩ := spells.exists_round member
      exact impossible.elim

theorem Particle.mem_declarationsOfAll_of_spells (compositor : Compositor)
    (particles : List Particle) {word : List Label}
    (spells : Particle.SpellsAll compositor particles word)
    {declaration : ElementDecl} (member : some declaration ∈ word) :
    declaration ∈ Particle.declarationsOfAll particles := by
  cases particles with
  | nil =>
      rw [Particle.SpellsAll] at spells
      rw [spells.2] at member
      cases member
  | cons particle rest =>
      obtain ⟨first, others, here, there, interleaved⟩ :=
        Particle.exists_interleaved_of_spellsAll spells
      rw [Particle.declarationsOfAll, List.mem_append]
      rcases List.mem_append.1 (interleaved.perm.mem_iff.1 member) with
        member | member
      · rcases here with here | rfl
        · exact .inl (Particle.mem_declarations_of_spells particle here member)
        · cases member
      · rcases there with there | rfl
        · exact .inr (Particle.mem_declarationsOfAll_of_spells compositor rest
            there member)
        · cases member

end

/-- The names that the declarations in a word are for. -/
def spelledNames (word : List Label) : List QName :=
  word.filterMap fun label => label.map (·.name)

/-- Recognise the fields that hold one element, which may be missing. -/
def FieldKind.isSingle : FieldKind → Bool
  | .one _ | .optional _ => true
  | _ => false

theorem FieldKind.isSingle_ofOccurrence (repeated optional : Bool)
    (type : TypeRef) :
    (FieldKind.ofOccurrence repeated optional type).isSingle = !repeated := by
  cases repeated <;> cases optional <;> rfl

/-- A field for an element is for a declaration of its name. -/
theorem FieldPlan.IsFor.name_mem {declarations : List ElementDecl}
    {plan : FieldPlan} (isFor : plan.IsFor declarations) {name : QName}
    (origin : plan.origin = .element name) : name ∈ declarations.map (·.name) := by
  cases isFor with
  | element repeated optional declared =>
      cases origin
      exact List.mem_map_of_mem declared
  | group compositor declared => cases origin
  | wildcard => cases origin

theorem count_spelledNames_eq_zero {declarations : List ElementDecl}
    {word : List Label}
    (declared : ∀ declaration, some declaration ∈ word →
      declaration ∈ declarations) {name : QName}
    (absent : name ∉ declarations.map (·.name)) :
    (spelledNames word).count name = 0 := by
  rw [List.count_eq_zero]
  intro member
  obtain ⟨label, listed, same⟩ := List.mem_filterMap.1 member
  obtain ⟨declaration, rfl, rfl⟩ := Option.map_eq_some_iff.1 same
  exact absent (List.mem_map_of_mem (declared declaration listed))

mutual

/-- A name comes up once at most in a word if it is declared once and its field is
for one element. -/
theorem Particle.count_spelledNames_le_one (particle : Particle)
    {optional : Bool} {plan : FieldPlan} {name : QName}
    (planned : plan ∈ particle.plan optional)
    (origin : plan.origin = .element name) (single : plan.kind.isSingle)
    (once : (particle.declarations.map (·.name)).count name ≤ 1)
    {word : List Label} (spells : particle.Spells word) :
    (spelledNames word).count name ≤ 1 := by
  cases particle with
  | element occurs declaration =>
      rw [Particle.plan] at planned
      split at planned
      · cases planned
      · rw [List.mem_singleton.1 planned, FieldPlan.ofElement,
          FieldKind.isSingle_ofOccurrence, Bool.not_eq_true'] at single
        rw [Particle.Spells] at spells
        rcases spells.eq_nil_or_spells single with rfl | rfl
        · exact Nat.zero_le 1
        · exact List.count_le_length
  | group occurs compositor particles =>
      rw [Particle.plan] at planned
      rw [Particle.declarations] at once
      split at planned
      · cases planned
      · next allowed =>
          rw [if_neg allowed] at once
          split at planned
          · rw [List.mem_singleton.1 planned] at origin
            cases origin
          · next alone =>
              rw [Bool.not_eq_true] at alone
              rw [Particle.Spells] at spells
              rcases spells.eq_nil_or_spells alone with rfl | spells
              · exact Nat.zero_le 1
              · exact Particle.count_spelledNames_le_one_of_all compositor
                  particles planned origin single once spells
  | wildcard occurs =>
      rw [Particle.plan] at planned
      split at planned
      · cases planned
      · rw [List.mem_singleton.1 planned] at origin
        cases origin
  | unsupported occurs tag => simp [Particle.plan] at planned

theorem Particle.count_spelledNames_le_one_of_all (compositor : Compositor)
    (particles : List Particle) {optional : Bool} {plan : FieldPlan}
    {name : QName} (planned : plan ∈ Particle.planAll optional particles)
    (origin : plan.origin = .element name) (single : plan.kind.isSingle)
    (once : ((Particle.declarationsOfAll particles).map (·.name)).count name ≤ 1)
    {word : List Label}
    (spells : Particle.SpellsAll compositor particles word) :
    (spelledNames word).count name ≤ 1 := by
  cases particles with
  | nil => simp [Particle.planAll] at planned
  | cons particle rest =>
      obtain ⟨first, others, here, there, interleaved⟩ :=
        Particle.exists_interleaved_of_spellsAll spells
      have together : (spelledNames word).count name =
          (spelledNames first).count name + (spelledNames others).count name := by
        have perm := (interleaved.perm.filterMap
          fun label : Label => label.map (·.name)).count_eq name
        rwa [List.filterMap_append, List.count_append] at perm
      rw [Particle.declarationsOfAll, List.map_append, List.count_append] at once
      rw [together]
      -- The name is declared either in front or behind, and not at all in the
      -- other part.
      rw [Particle.planAll, List.mem_append] at planned
      rcases planned with planned | planned
      · have declared := List.count_pos_iff.2
          ((particle.isFor_of_mem_plan planned).name_mem origin)
        have behind : (spelledNames others).count name = 0 := by
          rcases there with there | rfl
          · exact count_spelledNames_eq_zero
              (fun _ => Particle.mem_declarationsOfAll_of_spells compositor rest
                there) (List.count_eq_zero.1 (by omega))
          · rfl
        have inFront : (spelledNames first).count name ≤ 1 := by
          rcases here with here | rfl
          · exact Particle.count_spelledNames_le_one particle planned origin
              single (by omega) here
          · exact Nat.zero_le 1
        omega
      · have declared := List.count_pos_iff.2
          ((Particle.isFor_of_mem_planAll rest planned).name_mem origin)
        have inFront : (spelledNames first).count name = 0 := by
          rcases here with here | rfl
          · exact count_spelledNames_eq_zero
              (fun _ => Particle.mem_declarations_of_spells particle here)
              (List.count_eq_zero.1 (by omega))
          · rfl
        have behind : (spelledNames others).count name ≤ 1 := by
          rcases there with there | rfl
          · exact Particle.count_spelledNames_le_one_of_all compositor rest
              planned origin single (by omega) there
          · exact Nat.zero_le 1
        omega

end

end XmlRecords
