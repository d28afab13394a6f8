import Mathlib.Data.List.DropRight

/-!
# Stretches of a text

A stretch of characters of one kind ends in front of the first character of
another kind.
-/

namespace XmlRecords.Text

variable {α : Type} {p : α → Bool}

/-- No stretch goes on at the front of the list. -/
def Stops (p : α → Bool) (rest : List α) : Prop :=
  ∀ c, rest.head? = some c → p c = false

theorem stops_nil : Stops p [] := by
  simp [Stops]

theorem stops_cons {c : α} {rest : List α} : Stops p (c :: rest) ↔ p c = false := by
  simp [Stops]

theorem stops_dropWhile (p : α → Bool) (text : List α) :
    Stops p (text.dropWhile p) := by
  intro c first
  have kept := List.head?_dropWhile_not p text
  rw [first] at kept
  exact kept

theorem takeWhile_append_of_stops {front rest : List α} (each : ∀ c ∈ front, p c)
    (stops : Stops p rest) : (front ++ rest).takeWhile p = front := by
  rw [List.takeWhile_append_of_pos each]
  cases rest with
  | nil => simp
  | cons c rest => simp [stops_cons.1 stops]

theorem dropWhile_append_of_stops {front rest : List α} (each : ∀ c ∈ front, p c)
    (stops : Stops p rest) : (front ++ rest).dropWhile p = rest := by
  rw [List.dropWhile_append_of_pos each]
  cases rest with
  | nil => rfl
  | cons c rest => simp [stops_cons.1 stops]

theorem drop_length_takeWhile (p : α → Bool) (text : List α) :
    text.drop (text.takeWhile p).length = text.dropWhile p :=
  calc text.drop (text.takeWhile p).length
      = (text.takeWhile p ++ text.dropWhile p).drop (text.takeWhile p).length := by
        rw [List.takeWhile_append_dropWhile]
    _ = text.dropWhile p := List.drop_left

theorem all_dropWhile (p : α → Bool) (text : List α) :
    (text.dropWhile p).all p = text.all p := by
  induction text with
  | nil => rfl
  | cons c rest ih =>
      rw [List.dropWhile_cons, List.all_cons]
      split
      · next kept => rw [ih, kept, Bool.true_and]
      · rw [List.all_cons]

theorem dropWhile_append_of_not_all {front : List α} (ends : front.all p = false)
    (rest : List α) : (front ++ rest).dropWhile p = front.dropWhile p ++ rest := by
  rw [List.dropWhile_append, if_neg]
  rw [List.isEmpty_iff]
  intro nothing
  rw [← all_dropWhile, nothing] at ends
  cases ends

theorem rdropWhile_append_of_not_all {rest : List α} (ends : rest.all p = false)
    (front : List α) : (front ++ rest).rdropWhile p = front ++ rest.rdropWhile p := by
  rw [List.rdropWhile, List.reverse_append,
    dropWhile_append_of_not_all (by rwa [List.all_reverse]), List.reverse_append,
    List.reverse_reverse, List.rdropWhile]

theorem all_rdropWhile (p : α → Bool) (text : List α) :
    (text.rdropWhile p).all p = text.all p := by
  rw [List.rdropWhile, List.all_reverse, all_dropWhile, List.all_reverse]

end XmlRecords.Text
