import Mathlib.Data.List.Chain
import Mathlib.Data.List.Forall2

/-!
# Dividing a list into runs

A list is read from its front, and each item goes to the current run as long as
the run still fits with it.  Where parts of what fits fit themselves, no other
division into runs that fit has fewer runs, and no other one is made this way.
-/

namespace XmlRecords

theorem exists_mem_of_forall₂ {α β : Type} {related : α → β → Prop} {xs : List α}
    {ys : List β} (each : List.Forall₂ related xs ys) :
    ∀ y ∈ ys, ∃ x ∈ xs, related x y := by
  induction each with
  | nil => simp
  | cons first _ ih =>
      intro y member
      rcases List.mem_cons.1 member with rfl | member
      · exact ⟨_, List.mem_cons_self, first⟩
      · obtain ⟨x, listed, both⟩ := ih y member
        exact ⟨x, List.mem_cons_of_mem _ listed, both⟩

/-- The runs divide the items: they are not empty, each of them fits, and none of
them still fits with the item behind it.  There are as few of them as there can
be. -/
structure Divides {α : Type} (fits : List α → Prop) (items : List α)
    (runs : List (List α)) : Prop where
  whole : runs.flatten = items
  occupied : ∀ run ∈ runs, run ≠ []
  fit : ∀ run ∈ runs, fits run
  ends : runs.IsChain fun run next => ∀ item ∈ next.head?, ¬ fits (run ++ [item])
  fewest : ∀ others : List (List α), others.flatten = items →
    (∀ run ∈ others, fits run) → runs.length ≤ others.length

namespace Divides

variable {α : Type} {fits : List α → Prop} {items run : List α} {item : α}
  {runs others : List (List α)}

/-- Parts of what fits fit themselves. -/
def Inherits (fits : List α → Prop) : Prop :=
  ∀ short long, short.Sublist long → fits long → fits short

/-- A run does not fit with what the runs behind it begin with. -/
theorem not_fits_of_flatten {rest : List (List α)} {later : List α}
    (occupied : ∀ run ∈ rest, run ≠ [])
    (ends : (run :: rest).IsChain fun run next =>
      ∀ item ∈ next.head?, ¬ fits (run ++ [item]))
    (same : rest.flatten = item :: later) : ¬ fits (run ++ [item]) := by
  cases rest with
  | nil => cases same
  | cons next rest =>
      obtain ⟨first, tail, rfl⟩ :=
        List.exists_cons_of_ne_nil (occupied next List.mem_cons_self)
      obtain rfl : first = item := (List.cons.inj same).1
      exact (List.isChain_cons.1 ends).1 _ rfl first rfl

/-- However other runs that fit are cut, they end no later than these.  In front of
the runs there may be items that a run of the others has begun with. -/
theorem length_le_of_isChain (inherits : Inherits fits) {front : List α}
    (occupied : ∀ run ∈ runs, run ≠ [])
    (ends : runs.IsChain fun run next =>
      ∀ item ∈ next.head?, ¬ fits (run ++ [item]))
    (same : others.flatten = front ++ runs.flatten)
    (fit : ∀ run ∈ others, fits run) : runs.length ≤ others.length := by
  induction others generalizing runs front with
  | nil =>
      cases runs with
      | nil => exact Nat.le_refl 0
      | cons run rest =>
          have empty : run = [] := by simp_all
          exact absurd empty (occupied run List.mem_cons_self)
  | cons other others ih =>
      obtain ⟨fitOther, fitRest⟩ := List.forall_mem_cons.1 fit
      cases runs with
      | nil => exact Nat.zero_le _
      | cons run rest =>
          obtain ⟨_, occupied⟩ := List.forall_mem_cons.1 occupied
          rw [List.flatten_cons, List.flatten_cons, ← List.append_assoc] at same
          rcases List.append_eq_append_iff.1 same with
            ⟨left, begun, same⟩ | ⟨more, longer, same⟩
          · exact Nat.succ_le_succ (ih occupied ends.tail same fitRest)
          · cases more with
            | nil =>
                have same : others.flatten = [] ++ rest.flatten := same.symm
                exact Nat.succ_le_succ (ih occupied ends.tail same fitRest)
            | cons item more =>
                -- The run of the others would reach into the next of the runs.
                refine absurd ?_ (not_fits_of_flatten occupied ends same)
                refine inherits _ other ?_ fitOther
                rw [longer, List.append_assoc]
                exact ((List.Sublist.refl run).append
                  (List.singleton_sublist.2 List.mem_cons_self)).trans
                    (List.sublist_append_right ..)

theorem of_ends (inherits : Inherits fits) (whole : runs.flatten = items)
    (occupied : ∀ run ∈ runs, run ≠ []) (fit : ∀ run ∈ runs, fits run)
    (ends : runs.IsChain fun run next =>
      ∀ item ∈ next.head?, ¬ fits (run ++ [item])) :
    Divides fits items runs where
  whole := whole
  occupied := occupied
  fit := fit
  ends := ends
  fewest := by
    intro others same
    have fromStart : others.flatten = [] ++ runs.flatten := same.trans whole.symm
    exact length_le_of_isChain inherits occupied ends fromStart

theorem nil (inherits : Inherits fits) : Divides fits [] [] :=
  of_ends inherits rfl (by simp) (by simp) .nil

theorem eq_nil_iff (divides : Divides fits items runs) : runs = [] ↔ items = [] := by
  rw [← divides.whole]
  constructor
  · rintro rfl
    rfl
  · intro nothing
    refine List.eq_nil_iff_forall_not_mem.2 fun run member => ?_
    exact divides.occupied run member (List.flatten_eq_nil_iff.1 nothing run member)

/-- An item that the last run has no room for begins a run. -/
theorem begin (divides : Divides fits items runs) (inherits : Inherits fits)
    (fit : fits [item]) (ended : ∀ run ∈ runs.getLast?, ¬ fits (run ++ [item])) :
    Divides fits (items ++ [item]) (runs ++ [[item]]) := by
  apply of_ends inherits
  · simp [divides.whole]
  · intro run member
    rcases List.mem_append.1 member with member | member
    · exact divides.occupied run member
    · rw [List.mem_singleton.1 member]
      exact List.cons_ne_nil _ _
  · intro run member
    rcases List.mem_append.1 member with member | member
    · exact divides.fit run member
    · rwa [List.mem_singleton.1 member]
  · refine divides.ends.append (.singleton _) ?_
    rintro run last _ ⟨⟩ _ ⟨⟩
    exact ended run last

/-- An item that the last run has room for goes there. -/
theorem extend (divides : Divides fits items (runs ++ [run]))
    (inherits : Inherits fits) (fit : fits (run ++ [item])) :
    Divides fits (items ++ [item]) (runs ++ [run ++ [item]]) := by
  have ⟨occupied, _⟩ := List.forall_mem_append.1 divides.occupied
  have ⟨fits, _⟩ := List.forall_mem_append.1 divides.fit
  apply of_ends inherits
  · simp [← divides.whole]
  · refine List.forall_mem_append.2 ⟨occupied, ?_⟩
    simp
  · refine List.forall_mem_append.2 ⟨fits, ?_⟩
    simpa using fit
  · refine divides.ends.left_of_append.append (.singleton _) ?_
    rintro before last _ ⟨⟩ next head
    have filled : run ≠ [] := divides.occupied run (by simp)
    rw [List.head?_append_of_ne_nil _ filled] at head
    exact (List.isChain_append.1 divides.ends).2.2 before last run rfl next head

/-- The runs behind the first divide what is left. -/
theorem tail (divides : Divides fits items (run :: runs)) :
    Divides fits runs.flatten runs where
  whole := rfl
  occupied := (List.forall_mem_cons.1 divides.occupied).2
  fit := (List.forall_mem_cons.1 divides.fit).2
  ends := divides.ends.tail
  fewest := by
    intro others same fit
    have fewest := divides.fewest (run :: others)
      (by rw [List.flatten_cons, same, ← divides.whole, List.flatten_cons])
      (List.forall_mem_cons.2
        ⟨divides.fit run List.mem_cons_self, fit⟩)
    exact Nat.le_of_succ_le_succ fewest

/-- No item from behind the first run fits into it. -/
theorem eq_nil_of_fits (divides : Divides fits items (run :: runs))
    (inherits : Inherits fits) {more left : List α} (fit : fits (run ++ more))
    (same : runs.flatten = more ++ left) : more = [] := by
  cases more with
  | nil => rfl
  | cons item more =>
      refine absurd ?_
        (not_fits_of_flatten divides.tail.occupied divides.ends same)
      refine inherits _ _ ?_ fit
      exact (List.Sublist.refl run).append
        (List.singleton_sublist.2 List.mem_cons_self)

/-- There is only one way to divide items. -/
theorem eq (divides : Divides fits items runs) (inherits : Inherits fits)
    (again : Divides fits items others) : runs = others := by
  induction runs generalizing items others with
  | nil =>
      have none := again.fewest [] divides.whole (by simp)
      exact (List.length_eq_zero_iff.1 (Nat.le_zero.1 none)).symm
  | cons run runs ih =>
      cases others with
      | nil =>
          have none := divides.fewest [] again.whole (by simp)
          exact absurd none (Nat.not_succ_le_zero _)
      | cons other others =>
          have whole : run ++ runs.flatten = other ++ others.flatten :=
            divides.whole.trans again.whole.symm
          have fit := divides.fit run List.mem_cons_self
          have fitOther := again.fit other List.mem_cons_self
          have first : run = other ∧ runs.flatten = others.flatten := by
            rcases List.append_eq_append_iff.1 whole with
              ⟨more, rfl, same⟩ | ⟨more, rfl, same⟩
            · obtain rfl := divides.eq_nil_of_fits inherits fitOther same
              exact ⟨(List.append_nil run).symm, same⟩
            · obtain rfl := again.eq_nil_of_fits inherits fit same
              exact ⟨List.append_nil other, same.symm⟩
          obtain ⟨rfl, rest⟩ := first
          have later : Divides fits runs.flatten others := by
            rw [rest]
            exact again.tail
          rw [ih divides.tail later]

section Related

variable {β : Type} {related : α → β → Prop} {fits' : List β → Prop}

/-- Items that are related one by one can be cut in the same places. -/
theorem exists_parts {twins : List β}
    (together : List.Forall₂ related runs.flatten twins) :
    ∃ parts, parts.flatten = twins ∧
      List.Forall₂ (List.Forall₂ related) runs parts := by
  induction runs generalizing twins with
  | nil =>
      cases together
      exact ⟨[], rfl, .nil⟩
  | cons run runs ih =>
      have flipped : List.Forall₂ (flip related) twins (run ++ runs.flatten) :=
        together.flip
      obtain ⟨parts, rest, each⟩ :=
        ih (List.forall₂_drop_append _ _ _ flipped).flip
      refine ⟨twins.take run.length :: parts, ?_,
        .cons (List.forall₂_take_append _ _ _ flipped).flip each⟩
      rw [List.flatten_cons, rest, List.take_append_drop]

theorem isChain_of_forall₂ {parts : List (List β)}
    (same : ∀ run part, List.Forall₂ related run part → (fits run ↔ fits' part))
    (each : List.Forall₂ (List.Forall₂ related) runs parts)
    (ends : runs.IsChain fun run next => ∀ item ∈ next.head?, ¬ fits (run ++ [item])) :
    parts.IsChain fun run next => ∀ item ∈ next.head?, ¬ fits' (run ++ [item]) := by
  induction each with
  | nil => exact .nil
  | @cons run part _ _ first rest ih =>
      rw [List.isChain_cons] at ends ⊢
      refine ⟨?_, ih ends.2⟩
      cases rest with
      | nil => simp
      | cons next _ =>
          rintro _ ⟨⟩ item head
          cases next with
          | nil => cases head
          | cons one _ =>
              cases head
              have misfit := ends.1 _ rfl _ rfl
              rwa [same _ _ (List.rel_append first (.cons one .nil))] at misfit

/-- Items that are related one by one are divided in the same way. -/
theorem forall₂_of_forall₂ {twins : List β} {parts : List (List β)}
    (divides : Divides fits items runs) (again : Divides fits' twins parts)
    (inherits : Inherits fits')
    (same : ∀ run part, List.Forall₂ related run part → (fits run ↔ fits' part))
    (together : List.Forall₂ related items twins) :
    List.Forall₂ (List.Forall₂ related) runs parts := by
  obtain ⟨cut, whole, each⟩ := exists_parts (divides.whole ▸ together)
  have good : ∀ part ∈ cut, part ≠ [] ∧ fits' part := by
    intro part member
    obtain ⟨run, listed, alike⟩ := exists_mem_of_forall₂ each part member
    refine ⟨?_, (same run part alike).1 (divides.fit run listed)⟩
    rintro rfl
    exact divides.occupied run listed (List.forall₂_nil_right_iff.1 alike)
  have divided : Divides fits' twins cut :=
    of_ends inherits whole (fun part member => (good part member).1)
      (fun part member => (good part member).2) (isChain_of_forall₂ same each divides.ends)
  rwa [again.eq inherits divided]

end Related

end Divides

end XmlRecords
