import XmlRecords.Command.Run
import XmlRecords.Files.Disk

/-!
# Looking at a disk

An attempt changes a disk step by step until it fails.  Expanding a pattern for
paths only looks at the disk: every step leaves it as it is.
-/

namespace XmlRecords

namespace Attempt

variable {σ ε α β : Type} {s t : σ} {b : β}

/-- A computation that changes a state on the way to a failure ends well exactly when
each of its steps does. -/
theorem bind_eq_ok {x : ExceptT ε (StateM σ) α} {next : α → ExceptT ε (StateM σ) β} :
    (x >>= next).run.run s = (.ok b, t) ↔
      ∃ a u, x.run.run s = (.ok a, u) ∧ (next a).run.run u = (.ok b, t) := by
  have split : (x >>= next).run.run s =
      match x.run.run s with
      | (.ok a, u) => (next a).run.run u
      | (.error e, u) => (.error e, u) := by
    rw [ExceptT.run_bind, StateT.run_bind]
    generalize x.run.run s = outcome
    obtain ⟨result, u⟩ := outcome
    cases result <;> rfl
  rw [split]
  rcases x.run.run s with ⟨result, u⟩
  cases result with
  | error e =>
      constructor
      · intro ended
        cases ended
      · rintro ⟨_, _, impossible, _⟩
        cases impossible
  | ok a =>
      constructor
      · intro ended
        exact ⟨a, u, rfl, ended⟩
      · rintro ⟨_, _, same, ended⟩
        cases same
        exact ended

theorem pure_eq_ok {a : β} :
    (pure a : ExceptT ε (StateM σ) β).run.run s = (.ok b, t) ↔ b = a ∧ t = s := by
  constructor
  · intro ended
    cases ended
    exact ⟨rfl, rfl⟩
  · rintro ⟨rfl, rfl⟩
    rfl

/-- What cannot fail leads on from where it ends. -/
theorem lift_bind_eq_ok {x : StateM σ α} {next : α → ExceptT ε (StateM σ) β} :
    ((liftM x : ExceptT ε (StateM σ) α) >>= next).run.run s = (.ok b, t) ↔
      (next (x.run s).1).run.run (x.run s).2 = (.ok b, t) := by
  exact Iff.rfl

/-- Nothing changes, whatever the outcome. -/
def Looks (x : ExceptT ε (StateM σ) α) : Prop := ∀ s, (x.run.run s).2 = s

theorem looks_pure (a : α) : Looks (pure a : ExceptT ε (StateM σ) α) := fun _ => rfl

theorem looks_throw (e : ε) : Looks (throw e : ExceptT ε (StateM σ) α) := fun _ => rfl

theorem looks_lift {x : StateM σ α} (looks : ∀ s, (x.run s).2 = s) :
    Looks (liftM x : ExceptT ε (StateM σ) α) := looks

theorem looks_bind {x : ExceptT ε (StateM σ) α} {next : α → ExceptT ε (StateM σ) β}
    (first : Looks x) (second : ∀ a, Looks (next a)) : Looks (x >>= next) := by
  intro s
  have same := first s
  rw [ExceptT.run_bind, StateT.run_bind]
  generalize x.run.run s = outcome at same
  obtain ⟨result, u⟩ := outcome
  obtain rfl : u = s := same
  cases result with
  | error e => rfl
  | ok a => exact second a u

theorem looks_mapM {f : α → ExceptT ε (StateM σ) β} (looks : ∀ a, Looks (f a))
    (items : List α) : Looks (items.mapM f) := by
  induction items with
  | nil => exact looks_pure []
  | cons item items ih =>
      rw [List.mapM_cons]
      exact looks_bind (looks item) fun _ => looks_bind ih fun _ => looks_pure _

end Attempt

namespace PathPattern

open Attempt

variable {onlyDirectories : Bool} {part : Pattern} {rest : List Pattern}
  {directory name : String}
  {under : List Pattern → String → ExceptT ListingFault (StateM Disk) (List String)}

theorem looks_isDirectory (path : String) : Looks (isDirectory Disk.host path) :=
  looks_bind (looks_lift fun _ => rfl) fun _ => looks_pure _

theorem looks_canFollow (directory name : String) :
    Looks (canFollow Disk.host directory name) := by
  rw [canFollow]
  split
  · exact looks_isDirectory directory
  · exact looks_bind (looks_lift fun _ => rfl) fun _ => looks_pure _

theorem looks_names (directory : String) : Looks (names Disk.host directory) := by
  refine looks_bind (looks_lift fun _ => rfl) fun listed => ?_
  cases listed with
  | ok names => exact looks_pure names
  | error fault => exact looks_throw _

theorem looks_settle (looks : ∀ rest path, Looks (under rest path)) (path : String) :
    Looks (settle Disk.host onlyDirectories under rest path) := by
  rw [settle]
  split
  · exact looks rest path
  · refine looks_bind (looks_isDirectory path) fun found => ?_
    split
    · exact looks_pure []
    · exact looks_pure [path]

theorem looks_choose (looks : ∀ rest path, Looks (under rest path)) (part : Pattern)
    (rest : List Pattern) (directory name : String) :
    Looks (choose Disk.host onlyDirectories under part rest directory name) := by
  rw [choose]
  split
  · exact looks_settle looks _
  · exact looks_pure []

theorem looks_descend (looks : ∀ rest path, Looks (under rest path)) (part : Pattern)
    (rest : List Pattern) (directory name : String) :
    Looks (descend Disk.host onlyDirectories under part rest directory name) := by
  have further : ∀ (found : Bool) (rest : List Pattern)
      (last : Option (List String) →
        ExceptT ListingFault (StateM Disk) (List String)),
      (∀ below, Looks (last below)) →
      Looks (if found = true then
          Option.some <$> under (part :: rest) (entry directory name) >>= last
        else pure none >>= last) := by
    intro found rest last looksLast
    split
    · rw [map_eq_pure_bind]
      exact looks_bind (looks_bind (looks _ _) fun _ => looks_pure _) looksLast
    · exact looks_bind (looks_pure none) looksLast
  refine looks_bind (looks_isDirectory _) fun found => ?_
  split
  · refine further found _ _ fun below => ?_
    cases below with
    | some paths => exact looks_pure _
    | none => exact looks_pure []
  · refine further found _ _ fun below => ?_
    exact looks_bind (looks_choose looks _ _ _ _) fun _ => looks_pure _

theorem looks_expandUnder (onlyDirectories : Bool) (fuel : Nat) (parts : List Pattern)
    (directory : String) :
    Looks (expandUnder Disk.host onlyDirectories fuel parts directory) := by
  induction fuel generalizing parts directory with
  | zero => exact looks_pure []
  | succ fuel ih =>
      cases parts with
      | nil => exact looks_pure []
      | cons part rest =>
          rw [expandUnder]
          dsimp only
          split
          · refine looks_bind (looks_canFollow _ _) fun found => ?_
            split
            · exact looks_settle ih _
            · exact looks_pure []
          · refine looks_bind (looks_isDirectory _) fun found => ?_
            split
            · exact looks_pure []
            · refine looks_bind (looks_mapM (fun _ => looks_settle ih _) _) fun _ => ?_
              refine looks_bind (looks_names _) fun _ => ?_
              refine looks_bind (looks_mapM (fun name => ?_) _) fun _ => looks_pure _
              split
              · exact looks_descend ih _ _ _ _
              · exact looks_choose ih _ _ _ _
end PathPattern

/-- Finding the paths that inputs stand for changes nothing on a disk. -/
theorem Command.looks_inputPaths (input : String) :
    Attempt.Looks (Command.inputPaths Disk.host input) := by
  rw [Command.inputPaths]
  split
  · exact Attempt.looks_pure [input]
  · split
    · exact Attempt.looks_throw _
    · next pattern _ =>
        refine Attempt.looks_bind (Attempt.looks_lift ?_) fun outcome => ?_
        · exact PathPattern.looks_expandUnder _ _ _ _
        · split
          · exact Attempt.looks_throw _
          · exact Attempt.looks_throw _
          · exact Attempt.looks_pure _

end XmlRecords
