import Mathlib.Data.List.Forall2
import XmlRecords.Error

/-!
# Results that agree

Two computations agree when both succeed with results that belong together, or
when both fail with errors of one kind.
-/

namespace XmlRecords

/-- Results that belong together, or errors of one kind. -/
inductive Agree {α β : Type} (related : α → β → Prop) :
    Except Error α → Except Error β → Prop where
  | ok {a : α} {b : β} (pair : related a b) : Agree related (.ok a) (.ok b)
  | error {e f : Error} (kind : e.label = f.label) :
      Agree related (.error e) (.error f)

namespace Agree

variable {α β γ δ : Type} {related : α → β → Prop} {next : γ → δ → Prop}
  {x : Except Error α} {y : Except Error β}

protected theorem refl (x : Except Error α) : Agree Eq x x := by
  cases x with
  | ok a => exact .ok rfl
  | error e => exact .error rfl

theorem mono {weaker : α → β → Prop} (agree : Agree related x y)
    (weaken : ∀ a b, related a b → weaker a b) : Agree weaker x y := by
  cases agree with
  | ok pair => exact .ok (weaken _ _ pair)
  | error kind => exact .error kind

theorem bind (first : Agree related x y) {f : α → Except Error γ}
    {g : β → Except Error δ}
    (more : ∀ a b, related a b → Agree next (f a) (g b)) :
    Agree next (x >>= f) (y >>= g) := by
  cases first with
  | ok pair => exact more _ _ pair
  | error kind => exact .error kind

theorem map (first : Agree related x y) {f : α → γ} {g : β → δ}
    (more : ∀ a b, related a b → next (f a) (g b)) :
    Agree next (x.map f) (y.map g) := by
  cases first with
  | ok pair => exact .ok (more _ _ pair)
  | error kind => exact .error kind

theorem mapM {xs : List γ} {ys : List δ}
    (pairs : List.Forall₂ next xs ys) {f : γ → Except Error α}
    {g : δ → Except Error β}
    (each : ∀ a b, next a b → Agree related (f a) (g b)) :
    Agree (List.Forall₂ related) (xs.mapM f) (ys.mapM g) := by
  induction pairs with
  | nil => exact .ok .nil
  | cons pair _ ih =>
      rw [List.mapM_cons, List.mapM_cons]
      refine (each _ _ pair).bind fun a b same => ?_
      exact ih.bind fun as bs rest => .ok (.cons same rest)

end Agree

end XmlRecords
