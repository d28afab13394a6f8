import XmlRecords.Graph.Lowering

/-!
# Runs that end well

A computation that changes a state and may fail is taken apart into its steps:
it ends well exactly when each of its steps does.  To begin a type always ends
well, in one way for a type with a name and in another for one without.
-/

namespace XmlRecords

namespace Run

variable {σ ε α β : Type}

@[simp]
theorem pure_eq_ok {a b : α} {s t : σ} :
    (pure a : StateT σ (Except ε) α).run s = .ok (b, t) ↔ b = a ∧ t = s := by
  constructor
  · intro ended
    cases ended
    exact ⟨rfl, rfl⟩
  · rintro ⟨rfl, rfl⟩
    rfl

theorem bind_eq_ok {m : StateT σ (Except ε) α}
    {next : α → StateT σ (Except ε) β} {b : β} {s u : σ} :
    (m >>= next).run s = .ok (b, u) ↔
      ∃ a t, m.run s = .ok (a, t) ∧ (next a).run t = .ok (b, u) := by
  rw [StateT.run_bind]
  cases first : m.run s with
  | error e =>
      constructor
      · intro ended
        cases ended
      · rintro ⟨a, t, impossible, _⟩
        cases impossible
  | ok result =>
      obtain ⟨a, t⟩ := result
      constructor
      · intro ended
        exact ⟨a, t, rfl, ended⟩
      · rintro ⟨a', t', same, ended⟩
        cases same
        exact ended

theorem bind_eq_error {m : StateT σ (Except ε) α}
    {next : α → StateT σ (Except ε) β} {e : ε} {s : σ} :
    (m >>= next).run s = .error e ↔
      m.run s = .error e ∨
        ∃ a t, m.run s = .ok (a, t) ∧ (next a).run t = .error e := by
  rw [StateT.run_bind]
  cases m.run s with
  | error other => simp [bind, Except.bind]
  | ok result =>
      obtain ⟨a, t⟩ := result
      constructor
      · intro ended
        exact .inr ⟨a, t, rfl, ended⟩
      · rintro (impossible | ⟨a', t', same, ended⟩)
        · cases impossible
        · cases same
          exact ended

@[simp]
theorem get_bind {next : σ → StateT σ (Except ε) β} {s : σ} :
    (get >>= next).run s = (next s).run s :=
  rfl

@[simp]
theorem modify_bind {change : σ → σ} {next : PUnit → StateT σ (Except ε) β}
    {s : σ} : (modify change >>= next).run s = (next ⟨⟩).run (change s) :=
  rfl

@[simp]
theorem throw_ne_ok {e : ε} {s : σ} {result : α × σ} :
    (throw e : StateT σ (Except ε) α).run s ≠ .ok result := by
  intro ended
  cases ended

end Run

namespace Outcome

variable {ε α β : Type}

theorem bind_eq_ok {x : Except ε α} {next : α → Except ε β} {b : β} :
    x >>= next = .ok b ↔ ∃ a, x = .ok a ∧ next a = .ok b := by
  cases x with
  | error e => simp [bind, Except.bind]
  | ok a => simp [bind, Except.bind]

theorem bind_eq_error {x : Except ε α} {next : α → Except ε β} {e : ε} :
    x >>= next = .error e ↔ x = .error e ∨ ∃ a, x = .ok a ∧ next a = .error e := by
  cases x with
  | error other => simp [bind, Except.bind]
  | ok a => simp [bind, Except.bind]

theorem map_eq_ok {x : Except ε α} {f : α → β} {b : β} :
    x.map f = .ok b ↔ ∃ a, x = .ok a ∧ f a = b := by
  cases x with
  | error e => simp [Except.map]
  | ok a => simp [Except.map]

theorem map_eq_error {x : Except ε α} {f : α → β} {e : ε} :
    x.map f = .error e ↔ x = .error e := by
  cases x with
  | error other => simp [Except.map]
  | ok a => simp [Except.map]

end Outcome

namespace Lowering

variable {type : ComplexType}

/-- A type with a name is noted under it as soon as its record has a number. -/
theorem run_beginType_of_name {name : QName}
    (isNamed : type.name = some name) (b : Builder) (id : Nat) :
    (beginType id type).run b = .ok (b.graph.nodes.size,
      { b with
        graph := (b.graph.add (.record (.empty (some name) .type))).2
        named := (name, b.graph.nodes.size) :: b.named }) := by
  rw [beginType, isNamed]
  rfl

/-- A type without a name gets one for its record, and is noted as open. -/
theorem run_beginType_of_unnamed (unnamed : type.name = none) (b : Builder)
    (id : Nat) :
    (beginType id type).run b = .ok (b.graph.nodes.size,
      { b with
        graph := (b.graph.add (.record (.empty
          (some (.unqualified ("type" ++ toString b.nextType))) .type))).2
        nextType := b.nextType + 1
        anonymous := (id, b.graph.nodes.size) :: b.anonymous }) := by
  rw [beginType, unnamed]
  rfl

end Lowering

end XmlRecords
