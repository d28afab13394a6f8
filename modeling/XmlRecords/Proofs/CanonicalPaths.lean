import XmlRecords.Proofs.DiskFiles

/-!
# Canonical paths

The canonical path to a place leads to that place, so two paths have the same
canonical path only if they lead to the same place or are the same.  A path that is
put behind the directory of a file leads on from the place of that file, by whatever
path the file is known.
-/

namespace XmlRecords.Path

theorem parts_intercalate {names : List String} (filled : names ≠ [])
    (single : ∀ name ∈ names, '/' ∉ name.toList) :
    parts ("/".intercalate names) = names := by
  rw [parts, String.toList_intercalate]
  change (List.splitOn '/' (List.intercalate ['/'] (names.map String.toList))).map
    String.ofList = names
  rw [List.splitOn_intercalate]
  · simp
  · simpa using single
  · simpa using filled

theorem parts_append_slash (front back : List Char) :
    parts (String.ofList (front ++ '/' :: back)) =
      parts (String.ofList front) ++ parts (String.ofList back) := by
  simp only [parts, String.toList_ofList, List.splitOn_append_cons_self,
    List.map_append]

theorem not_mem_of_mem_splitOn {α : Type} [DecidableEq α] {mark : α}
    (text : List α) : ∀ part ∈ text.splitOn mark, mark ∉ part := by
  induction hlen : text.length using Nat.strongRecOn generalizing text with
  | ind length ih =>
  by_cases marked : mark ∈ text
  · obtain ⟨front, back, rfl, free⟩ := List.eq_append_cons_of_mem marked
    rw [List.splitOn_append_cons_self, List.splitOn_eq_singleton free]
    rintro part (_ | ⟨_, member⟩)
    · exact free
    · exact ih back.length (by simp [← hlen]; omega) back rfl part member
  · rw [List.splitOn_eq_singleton marked]
    rintro part (_ | ⟨_, ⟨⟩⟩)
    exact marked

theorem single_of_mem_parts {path part : String} (member : part ∈ parts path) :
    '/' ∉ part.toList := by
  obtain ⟨chars, inside, rfl⟩ := List.mem_map.1 member
  rw [String.toList_ofList]
  exact not_mem_of_mem_splitOn _ chars inside

/-- A path that begins with a part is relative. -/
theorem isAbsolute_of_head?_parts {path : String}
    (begins : (parts path).head? ≠ some "") : path ≠ "" ∧ isAbsolute path = false := by
  constructor
  · rintro rfl
    exact begins rfl
  · cases chars : path.toList with
    | nil => simp [isAbsolute, chars]
    | cons c rest =>
        by_contra absolute
        obtain rfl : c = '/' := by simpa [isAbsolute, chars] using absolute
        refine begins ?_
        rw [← String.ofList_toList (s := path), chars, ← List.nil_append ('/' :: rest),
          parts_append_slash]
        rfl

section Trimming

variable {chars : List Char}

theorem getLast?_trimReversed (relative : chars.getLast? ≠ some '/') :
    (trimReversed chars).getLast? = chars.getLast? := by
  fun_induction trimReversed chars with
  | case1 => rfl
  | case2 front filled ih =>
      cases front with
      | nil => exact absurd rfl filled
      | cons c rest =>
          rw [List.getLast?_cons_cons] at relative ⊢
          exact ih relative
  | case3 => exact absurd rfl relative
  | case4 front filled ih =>
      cases front with
      | nil => exact absurd rfl filled
      | cons c rest =>
          rw [List.getLast?_cons_cons, List.getLast?_cons_cons] at relative ⊢
          exact ih relative
  | case5 => rfl

theorem head?_trimReversed (relative : chars.getLast? ≠ some '/') :
    (trimReversed chars).head? ≠ some '/' := by
  fun_induction trimReversed chars with
  | case1 => exact absurd rfl relative
  | case2 front filled ih =>
      cases front with
      | nil => exact absurd rfl filled
      | cons c rest =>
          rw [List.getLast?_cons_cons] at relative
          exact ih relative
  | case3 => exact absurd rfl relative
  | case4 front filled ih =>
      cases front with
      | nil => exact absurd rfl filled
      | cons c rest =>
          rw [List.getLast?_cons_cons, List.getLast?_cons_cons] at relative
          exact ih relative
  | case5 chars noSlash other =>
      intro first
      cases chars with
      | nil => cases first
      | cons c rest =>
          obtain rfl : c = '/' := Option.some.inj first
          exact other rest rfl

/-- What stands in front of the last part of a path, without what says nothing. -/
theorem parent?_append {front : List Char} {name : String} (isFront : IsFront front)
    (isName : IsName name) :
    parent? (String.ofList (front ++ name.toList)) =
      some (String.ofList (trimReversed front.reverse).reverse) := by
  rw [parent?, String.toList_ofList, List.reverse_append, trimReversed_name isName]
  split
  · next none =>
      exact absurd (eq_ofList_reverse (List.append_eq_nil_iff.1 none).1) isName.filled
  · next slash =>
      have member : '/' ∈ name.toList.reverse := by
        cases chars : name.toList.reverse with
        | nil => exact absurd (eq_ofList_reverse chars) isName.filled
        | cons c rest =>
            rw [chars] at slash
            simp [(List.cons.inj slash).1]
      exact absurd (List.mem_reverse.1 member) isName.single
  · rw [frontReversed, dropWhile_name isFront isName]

end Trimming

/-- In front of the slash before the last part of a relative path there is the path of
a directory. -/
theorem parent?_behind {inner : List Char} {name : String} (isName : IsName name)
    (relative : isAbsolute (String.ofList (inner ++ '/' :: name.toList)) = false) :
    inner.reverse.getLast? ≠ some '/' ∧
      parent? (String.ofList (inner ++ '/' :: name.toList)) =
        some (String.ofList (trimReversed inner.reverse).reverse) := by
  cases inner with
  | nil => simp [isAbsolute] at relative
  | cons c rest =>
      refine ⟨by simpa [isAbsolute] using relative, ?_⟩
      have isFront : IsFront (c :: rest ++ ['/']) := by simp [IsFront, Text.Stops]
      have parent := parent?_append isFront isName
      rw [List.append_assoc, List.singleton_append] at parent
      rw [parent, List.reverse_append]
      exact congrArg (fun chars => some (String.ofList chars.reverse))
        (trimReversed.eq_2 (c :: rest).reverse (by simp))

end XmlRecords.Path

namespace XmlRecords.Disk

variable {disk : Disk} {current front back place inside : List String} {target : Place}
  {path mention first second : String}

/-- A way that leads on leads to a directory first. -/
theorem Leads.of_append (leads : disk.Leads current (front ++ back) target)
    (further : back ≠ []) :
    ∃ inside, disk.Leads current front (.directory inside) ∧
      disk.Leads inside back target := by
  induction front generalizing current with
  | nil => exact ⟨current, .done, leads⟩
  | cons part front ih =>
      rw [List.cons_append] at leads
      generalize whole : front ++ back = rest at leads
      cases leads with
      | stay point next =>
          obtain ⟨inside, before, behind⟩ := ih (whole ▸ next)
          exact ⟨inside, .stay point before, behind⟩
      | top above next =>
          obtain ⟨inside, before, behind⟩ := ih (whole ▸ next)
          exact ⟨inside, .top above before, behind⟩
      | up below next =>
          obtain ⟨inside, before, behind⟩ := ih (whole ▸ next)
          exact ⟨inside, .up below before, behind⟩
      | file => exact absurd (List.append_eq_nil_iff.1 whole).2 further
      | down filled named noFile isDirectory next =>
          obtain ⟨inside, before, behind⟩ := ih (whole ▸ next)
          exact ⟨inside, .down filled named noFile isDirectory before, behind⟩

theorem Leads.unique {other : Place} (leads : disk.Leads current front target)
    (too : disk.Leads current front other) : target = other :=
  Except.ok.inj (leads.follow.symm.trans too.follow)

/-- The parts of the place of a directory lead to it, and so do those of each
directory that it lies in. -/
structure Stands (disk : Disk) (current : List String) : Prop where
  parts : ∀ part ∈ current, part ≠ "" ∧ '/' ∉ part.toList
  leads : ∀ front, front <+: current → disk.Leads [] front (.directory front)

namespace Stands

theorem nil : Stands disk [] where
  parts := by simp
  leads := by
    intro front isFront
    rw [List.prefix_nil.1 isFront]
    exact .done

theorem concat {part : String} (stands : Stands disk current)
    (filled : part ≠ "") (single : '/' ∉ part.toList)
    (next : disk.Leads current [part] (.directory (current ++ [part]))) :
    Stands disk (current ++ [part]) where
  parts := by
    intro other member
    rcases List.mem_append.1 member with member | member
    · exact stands.parts other member
    · rw [List.mem_singleton.1 member]
      exact ⟨filled, single⟩
  leads := by
    intro front isFront
    rcases List.prefix_concat_iff.1 isFront with rfl | inside
    · exact (stands.leads current List.prefix_rfl).append rfl next
    · exact stands.leads front inside

theorem dropLast (stands : Stands disk current) : Stands disk current.dropLast where
  parts := fun part member => stands.parts part ((List.dropLast_subset current member))
  leads := fun front inside =>
    stands.leads front (inside.trans (List.dropLast_prefix current))

end Stands

/-- The parts of a place lead to it. -/
def LeadsBack (disk : Disk) : Place → Prop
  | .directory parts => Stands disk parts
  | .file parts => parts ≠ [] ∧ (∀ part ∈ parts, part ≠ "" ∧ '/' ∉ part.toList) ∧
      disk.Leads [] parts (.file parts)

theorem Leads.leadsBack (leads : disk.Leads current front target)
    (stands : Stands disk current) (single : ∀ part ∈ front, '/' ∉ part.toList) :
    LeadsBack disk target := by
  induction leads with
  | done => exact stands
  | stay _ _ ih => exact ih stands fun part member => single part (by simp [member])
  | @top current _ _ above _ ih =>
      refine ih (stands.concat (by decide) (by decide) (.top above .done)) ?_
      exact fun part member => single part (by simp [member])
  | up _ _ ih => exact ih stands.dropLast fun part member => single part (by simp [member])
  | @file current part filled named isFile =>
      refine ⟨by simp, ?_, (stands.leads current List.prefix_rfl).append rfl
        (.file filled named isFile)⟩
      intro other member
      rcases List.mem_append.1 member with member | member
      · exact stands.parts other member
      · rw [List.mem_singleton.1 member]
        exact ⟨filled, single part (by simp)⟩
  | @down current _ part _ filled named noFile isDirectory _ ih =>
      refine ih (stands.concat filled (single part (by simp))
        (.down filled named noFile isDirectory .done)) ?_
      exact fun part member => single part (by simp [member])

theorem leadsBack_of_locate (found : disk.locate path = .ok target) :
    LeadsBack disk target :=
  (locate_eq_ok.1 found).2.2.leadsBack .nil fun _ => Path.single_of_mem_parts

/-- Parts that lead somewhere are the parts of a path. -/
theorem locate_intercalate (begins : front.head? ≠ some "")
    (single : ∀ part ∈ front, '/' ∉ part.toList) (filled : front ≠ [])
    (leads : disk.Leads [] front target) :
    disk.locate ("/".intercalate front) = .ok target := by
  have parts := Path.parts_intercalate filled single
  obtain ⟨nonempty, relative⟩ := Path.isAbsolute_of_head?_parts (parts ▸ begins)
  refine locate_eq_ok.2 ⟨nonempty, relative, ?_⟩
  rwa [parts]

/-- The canonical path leads where the path leads. -/
theorem locate_canonical (disk : Disk) (path : String) :
    disk.locate (disk.canonical path) = disk.locate path := by
  rw [canonical]
  cases found : disk.locate path with
  | error fault => exact found
  | ok target =>
      have back := leadsBack_of_locate found
      cases target with
      | file parts =>
          obtain ⟨filled, each, leads⟩ := back
          refine locate_intercalate ?_ (fun part member => (each part member).2) filled
            leads
          exact fun first => (each "" (List.mem_of_mem_head? first)).1 rfl
      | directory parts =>
          refine locate_intercalate ?_ ?_ (by simp) ?_
          · cases parts with
            | nil => decide
            | cons part rest =>
                simpa using (back.parts part (by simp)).1
          · intro part member
            rcases List.mem_append.1 member with member | member
            · exact (back.parts part member).2
            · rw [List.mem_singleton.1 member]
              decide
          · exact (back.leads parts List.prefix_rfl).append rfl (.stay (.inr rfl) .done)

/-- Two paths have the same canonical path where they lead to the same place. -/
theorem canonical_eq_iff (found : disk.locate first = .ok target) :
    disk.canonical first = disk.canonical second ↔
      disk.locate first = disk.locate second := by
  constructor
  · intro same
    rw [← locate_canonical, same, locate_canonical]
  · intro same
    rw [found] at same
    cases target <;> simp only [canonical, found, ← same]

/-- Parts that say nothing at the end of a path can be dropped. -/
theorem Leads.trim {chars : List Char}
    (leads : disk.Leads current (Path.parts (String.ofList chars.reverse))
      (.directory inside)) :
    disk.Leads current (Path.parts (String.ofList (Path.trimReversed chars).reverse))
      (.directory inside) := by
  fun_induction Path.trimReversed chars with
  | case1 => exact leads
  | case2 front filled ih =>
      rw [List.reverse_cons, Path.parts_append_slash] at leads
      obtain ⟨_, before, behind⟩ := leads.of_append (by decide)
      obtain ⟨rfl⟩ := behind.unique (.stay (.inl rfl) .done)
      exact ih before
  | case3 =>
      change disk.Leads current ([""] ++ ["."]) (.directory inside) at leads
      obtain ⟨_, before, behind⟩ := leads.of_append (by simp)
      obtain ⟨rfl⟩ := behind.unique (.stay (.inr rfl) .done)
      exact (before.append rfl (.stay (.inl rfl) .done) :)
  | case4 front filled ih =>
      rw [List.reverse_cons, List.reverse_cons, List.append_assoc,
        List.singleton_append, Path.parts_append_slash] at leads
      obtain ⟨_, before, behind⟩ := leads.of_append (by simp [Path.parts])
      obtain ⟨rfl⟩ := behind.unique (.stay (.inr rfl) .done)
      exact ih before
  | case5 => exact leads

theorem Leads.eq_concat_of_file {part : String}
    (leads : disk.Leads current [part] (.file place)) : place = current ++ [part] := by
  cases leads with
  | file => rfl
  | stay _ next => cases next
  | top _ next => cases next
  | up _ next => cases next
  | down _ _ _ _ next => cases next

/-- The directory of a file leads to the directory in which the file lies. -/
theorem leads_parent (found : disk.locate path = .ok (.file place)) :
    ∃ directory, Path.parent? path = some directory ∧
      Path.isAbsolute directory = false ∧ Path.endsInSlash directory = false ∧
      disk.Leads [] (Path.parts directory) (.directory place.dropLast) := by
  obtain ⟨filled, relative, leads⟩ := locate_eq_ok.1 found
  obtain ⟨name, last, _, filledName, named, _⟩ := getLast?_of_locate found
  obtain ⟨front, isFront, rfl, single⟩ := Path.exists_front_of_getLast?_parts last
  have isName : Path.IsName name := ⟨filledName, single, named⟩
  have alone : Path.parts (String.ofList name.toList) = [name] := by
    simp [Path.parts, List.splitOn_eq_singleton single]
  rcases List.eq_nil_or_concat front with rfl | ⟨inner, c, rfl⟩
  · rw [List.nil_append, alone] at leads
    refine ⟨_, Path.parent?_append isFront isName, rfl, rfl, ?_⟩
    rw [leads.eq_concat_of_file]
    exact .stay (.inl rfl) .done
  · obtain rfl : c = '/' := by simpa [Path.IsFront, Text.Stops] using isFront
    rw [List.concat_eq_append, List.append_assoc, List.singleton_append]
      at relative leads ⊢
    rw [Path.parts_append_slash, alone] at leads
    obtain ⟨inside, before, behind⟩ := leads.of_append (by simp)
    obtain rfl := behind.eq_concat_of_file
    obtain ⟨relativeInner, parent⟩ := Path.parent?_behind isName relative
    refine ⟨_, parent, ?_, ?_, ?_⟩
    · rw [Path.isAbsolute, String.toList_ofList, List.head?_reverse,
        Path.getLast?_trimReversed relativeInner]
      simpa using relativeInner
    · rw [Path.endsInSlash, String.toList_ofList, List.getLast?_reverse]
      simpa using Path.head?_trimReversed relativeInner
    · rw [List.dropLast_concat]
      exact Leads.trim (by rwa [List.reverse_reverse])

/-- What is mentioned in a file is looked for where the file lies. -/
theorem locate_join_eq_ok {other : List String}
    (found : disk.locate path = .ok (.file place))
    (relative : Path.isAbsolute mention = false) :
    disk.locate (Path.join ((Path.parent? path).getD "") mention) = .ok (.file other) ↔
      disk.Leads place.dropLast (Path.parts mention) (.file other) := by
  obtain ⟨directory, parent, relativeParent, open', leads⟩ := leads_parent found
  rw [parent, Option.getD_some, locate_eq_ok]
  by_cases here : directory = ""
  · subst here
    have top : place.dropLast = [] :=
      Place.directory.inj (leads.unique (.stay (.inl rfl) .done))
    have joined : Path.join "" mention = mention := by simp [Path.join]
    rw [joined, top]
    refine ⟨fun outcome => outcome.2.2, fun further => ⟨?_, relative, further⟩⟩
    rintro rfl
    cases further.unique (.stay (.inl rfl) .done)
  · have joined : Path.join directory mention =
        String.ofList (directory.toList ++ '/' :: mention.toList) := by
      rw [Path.join, relative, open']
      simp [here, String.ofList_append, String.append_assoc]
    have begins : Path.isAbsolute (Path.join directory mention) = false := by
      cases chars : directory.toList with
      | nil => exact absurd (String.toList_eq_nil_iff.1 chars) here
      | cons c rest =>
          rw [joined, chars]
          simpa [Path.isAbsolute, chars] using relativeParent
    have together : Path.parts (Path.join directory mention) =
        Path.parts directory ++ Path.parts mention := by
      rw [joined, Path.parts_append_slash, String.ofList_toList, String.ofList_toList]
    rw [together]
    constructor
    · rintro ⟨_, _, whole⟩
      obtain ⟨inside, before, behind⟩ := whole.of_append (by simp [Path.parts])
      rwa [Place.directory.inj (leads.unique before)]
    · intro further
      refine ⟨?_, begins, leads.append rfl further⟩
      rw [joined]
      simp

/-- What is mentioned in a file is found by whatever path the file is known. -/
theorem locate_join_of_locate_eq {other : List String}
    (found : disk.locate first = .ok (.file place))
    (too : disk.locate second = .ok (.file place))
    (mentioned : disk.locate (Path.join ((Path.parent? first).getD "") mention) =
      .ok (.file other)) :
    disk.locate (Path.join ((Path.parent? second).getD "") mention) =
      .ok (.file other) := by
  cases relative : Path.isAbsolute mention with
  | true => simpa [Path.join, relative] using mentioned
  | false =>
      rw [locate_join_eq_ok found relative] at mentioned
      rwa [locate_join_eq_ok too relative]

end XmlRecords.Disk
