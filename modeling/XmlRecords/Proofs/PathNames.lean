import XmlRecords.Files.Path
import XmlRecords.Proofs.Spans

/-!
# The last part of a path

What stands behind the last slash of a path is its last part, and its file name
unless it is made of points.  A name in a directory that gets another ending is
that name with the other ending in the same directory.
-/

namespace XmlRecords.Path

open Text (Stops takeWhile_append_of_stops dropWhile_append_of_stops)

theorem getLast?_splitOn {α : Type} [DecidableEq α] (mark : α) (text : List α) :
    (text.splitOn mark).getLast? =
      some (text.reverse.takeWhile (· != mark)).reverse := by
  have whole : text = (text.reverse.dropWhile (· != mark)).reverse ++
      (text.reverse.takeWhile (· != mark)).reverse := by
    rw [← List.reverse_append, List.takeWhile_append_dropWhile, List.reverse_reverse]
  have free : mark ∉ (text.reverse.takeWhile (· != mark)).reverse := by
    intro member
    have each := List.all_eq_true.1 (List.all_takeWhile (p := (· != mark))
      (l := text.reverse)) mark (by simpa using member)
    simp at each
  have last := List.splitOn_eq_singleton free
  have stops := Text.stops_dropWhile (· != mark) text.reverse
  generalize (text.reverse.takeWhile (· != mark)).reverse = back at *
  cases front : text.reverse.dropWhile (· != mark) with
  | nil => rw [whole, front, List.reverse_nil, List.nil_append, last]; rfl
  | cons c rest =>
      obtain rfl : c = mark := by
        rw [front] at stops
        simpa using Text.stops_cons.1 stops
      rw [whole, front, List.reverse_cons, List.append_assoc, List.singleton_append,
        List.splitOn_append_cons_self, last, List.getLast?_append]
      rfl

/-- The last part of a path, as far as the slashes tell. -/
theorem getLast?_parts (path : String) :
    (parts path).getLast? =
      some (String.ofList (path.toList.reverse.takeWhile (· != '/')).reverse) := by
  rw [parts, List.getLast?_map, getLast?_splitOn]
  rfl

/-- Only a slash at its end, or nothing at all, leaves a path without a last
part. -/
theorem getLast?_parts_ne_empty {path : String} (filled : path ≠ "")
    (closed : endsInSlash path = false) : (parts path).getLast? ≠ some "" := by
  rw [getLast?_parts]
  cases ends : path.toList.reverse with
  | nil => exact absurd (String.toList_eq_nil_iff.1 (by simpa using ends)) filled
  | cons c front =>
      have last : path.toList.getLast? = some c := by
        rw [← List.head?_reverse, ends]
        rfl
      have other : c ≠ '/' := by
        simpa [endsInSlash, last] using closed
      intro same
      have empty := congrArg String.toList (Option.some.inj same)
      simp [other] at empty

/-- Parts that consist of points name directories. -/
def IsPoints (name : String) : Prop := name = "." ∨ name = ".."

/-- Nothing stands in front of a name, or a slash does. -/
def IsFront (front : List Char) : Prop := Stops (· != '/') front.reverse

/-- A name as it stands in a directory. -/
structure IsName (name : String) : Prop where
  filled : name ≠ ""
  single : '/' ∉ name.toList
  named : ¬ IsPoints name

theorem eq_ofList_reverse {name : String} {chars : List Char}
    (same : name.toList.reverse = chars) : name = String.ofList chars.reverse := by
  rw [← same, List.reverse_reverse, String.ofList_toList]

theorem trimReversed_name {name : String} (isName : IsName name)
    (front : List Char) :
    trimReversed (name.toList.reverse ++ front) = name.toList.reverse ++ front := by
  have free : '/' ∉ name.toList.reverse := by simpa using isName.single
  cases back : name.toList.reverse with
  | nil => exact absurd (eq_ofList_reverse back) isName.filled
  | cons c rest =>
      rw [back] at free
      have first : c ≠ '/' := fun same => free (by simp [same])
      rw [List.cons_append]
      cases rest with
      | nil =>
          have point : c ≠ '.' := by
            rintro rfl
            exact isName.named (.inl (eq_ofList_reverse back))
          unfold trimReversed
          split <;> simp_all
      | cons second rest =>
          have next : second ≠ '/' := fun same => free (by simp [same])
          unfold trimReversed
          split <;> simp_all

section Names

variable {front : List Char} {name : String}

theorem ne_slash_of_isName (isName : IsName name) :
    ∀ c ∈ name.toList.reverse, (c != '/') = true := by
  intro c member
  rw [bne_iff_ne]
  rintro rfl
  exact isName.single (List.mem_reverse.1 member)

theorem takeWhile_name (isFront : IsFront front) (isName : IsName name) :
    (name.toList.reverse ++ front.reverse).takeWhile (· != '/') =
      name.toList.reverse :=
  takeWhile_append_of_stops (ne_slash_of_isName isName) isFront

theorem dropWhile_name (isFront : IsFront front) (isName : IsName name) :
    (name.toList.reverse ++ front.reverse).dropWhile (· != '/') = front.reverse :=
  dropWhile_append_of_stops (ne_slash_of_isName isName) isFront

/-- A name behind nothing or behind a slash is the file name of the path. -/
theorem fileName?_append (isFront : IsFront front) (isName : IsName name) :
    fileName? (String.ofList (front ++ name.toList)) = some name := by
  rw [fileName?, String.toList_ofList, List.reverse_append,
    trimReversed_name isName, takeWhile_name isFront isName]
  split
  · next none => exact absurd (eq_ofList_reverse none) isName.filled
  · next point => exact absurd (.inl (eq_ofList_reverse point)) isName.named
  · next points => exact absurd (.inr (eq_ofList_reverse points)) isName.named
  · rw [List.reverse_reverse, String.ofList_toList]

theorem getLast?_parts_append (isFront : IsFront front) (isName : IsName name) :
    (parts (String.ofList (front ++ name.toList))).getLast? = some name := by
  rw [getLast?_parts, String.toList_ofList, List.reverse_append,
    takeWhile_name isFront isName, List.reverse_reverse, String.ofList_toList]

theorem withEnding_append (isFront : IsFront front) (isName : IsName name)
    (ending : String) :
    withEnding ending (String.ofList (front ++ name.toList)) =
      String.ofList front ++ stem name ++ "." ++ ending := by
  rw [withEnding, fileName?_append isFront isName]
  simp only [String.toList_ofList, List.reverse_append]
  rw [trimReversed_name isName, dropWhile_name isFront isName,
    List.reverse_reverse]

end Names

/-- The last part of a path stands behind nothing or behind a slash. -/
theorem exists_front_of_getLast?_parts {path name : String}
    (last : (parts path).getLast? = some name) :
    ∃ front, IsFront front ∧ path = String.ofList (front ++ name.toList) ∧
      '/' ∉ name.toList := by
  rw [getLast?_parts, Option.some.injEq] at last
  refine ⟨(path.toList.reverse.dropWhile (· != '/')).reverse, ?_, ?_, ?_⟩
  · rw [IsFront, List.reverse_reverse]
    exact Text.stops_dropWhile _ _
  · rw [← last, String.toList_ofList, ← List.reverse_append,
      List.takeWhile_append_dropWhile, List.reverse_reverse, String.ofList_toList]
  · rw [← last, String.toList_ofList, List.mem_reverse]
    intro member
    have each := List.all_eq_true.1 List.all_takeWhile '/' member
    simp at each

/-- The last part of a path is its file name, unless it is made of points. -/
theorem fileName?_of_getLast?_parts {path name : String}
    (last : (parts path).getLast? = some name) (filled : name ≠ "")
    (named : ¬ IsPoints name) : fileName? path = some name ∧ IsName name := by
  obtain ⟨front, isFront, rfl, single⟩ := exists_front_of_getLast?_parts last
  have isName : IsName name := ⟨filled, single, named⟩
  exact ⟨fileName?_append isFront isName, isName⟩

theorem single_of_fileName? {path name : String} (named : fileName? path = some name) :
    '/' ∉ name.toList := by
  rw [fileName?] at named
  split at named
  · cases named
  · cases named
  · cases named
  · cases named
    intro member
    rw [String.toList_ofList, List.mem_reverse] at member
    have each := List.all_eq_true.1 List.all_takeWhile '/' member
    simp at each

/-- A stem has no characters but those of the name. -/
theorem mem_of_mem_stem {name : String} {c : Char} (member : c ∈ (stem name).toList) :
    c ∈ name.toList := by
  rw [stem] at member
  split at member
  · next point second front rest =>
      rw [String.toList_ofList, List.mem_reverse] at member
      have inside := (List.dropWhile_suffix (· != '.')).subset
        (rest ▸ List.mem_cons_of_mem point member)
      exact List.mem_reverse.1 inside
  · exact member

/-- What a directory puts in front of names. -/
theorem exists_front (directory : String) :
    ∃ front : List Char, IsFront front ∧ ∀ name, isAbsolute name = false →
      join directory name = String.ofList (front ++ name.toList) := by
  by_cases empty : directory.isEmpty
  · refine ⟨[], by simp [IsFront, Stops], fun name relative => ?_⟩
    simp [join, relative, empty]
  · by_cases slash : endsInSlash directory
    · refine ⟨directory.toList, ?_, fun name relative => ?_⟩
      · intro c first
        rw [List.head?_reverse] at first
        simpa [endsInSlash, first] using slash
      · simp [join, relative, empty, slash, String.ofList_append]
    · refine ⟨directory.toList ++ ['/'], by simp [IsFront, Stops],
        fun name relative => ?_⟩
      simp [join, relative, empty, slash, String.ofList_append, String.append_assoc]

theorem isAbsolute_of_not_mem {name : String} (single : '/' ∉ name.toList) :
    isAbsolute name = false := by
  cases chars : name.toList with
  | nil => simp [isAbsolute, chars]
  | cons c rest =>
      rw [chars] at single
      have other : c ≠ '/' := fun same => single (by simp [same])
      simp [isAbsolute, chars, other]

end XmlRecords.Path
