import Mathlib.Data.List.Nodup
import Mathlib.Data.List.Perm.Subperm
import Mathlib.Data.List.Range
import XmlRecords.Proofs.Growth
import XmlRecords.SchemaText.Writer

/-!
# Names that are handed out

Whatever the raw name, a namer hands out a well-formed name that is not reserved
and that it has not handed out before.  Of one number more than there are used
names, one makes a free name, since different numbers make different names.  A
name that could have been handed out is handed out unchanged.
-/

namespace XmlRecords

namespace FieldName

/-- ASCII letters, digits and underscores, at least one and no digit first. -/
def IsName (name : String) : Prop :=
  name.toList ≠ [] ∧ (∀ c ∈ name.toList, c.isAlphanum || c == '_') ∧
    ∀ c ∈ name.toList.head?, c.isDigit = false

theorem sanitizeChar?_eq_self {c : Char}
    (kept : (c.isAlphanum || c == '_') = true) : sanitizeChar? c = some c := by
  rw [sanitizeChar?, if_pos kept]

theorem isAlphanum_or_underscore_of_sanitizeChar? {c kept : Char}
    (same : sanitizeChar? c = some kept) :
    (kept.isAlphanum || kept == '_') = true := by
  rw [sanitizeChar?] at same
  split at same
  · next known => cases same; exact known
  · split at same
    · cases same; rfl
    · cases same

theorem isName_ofList {letters : List Char} (nonempty : letters ≠ [])
    (known : ∀ c ∈ letters, (c.isAlphanum || c == '_') = true)
    (first : ∀ c ∈ letters.head?, c.isDigit = false) :
    IsName (String.ofList letters) := by
  rw [IsName, String.toList_ofList]
  exact ⟨nonempty, known, first⟩

theorem isName_sanitize (raw : String) : IsName (sanitize raw) := by
  have known : ∀ c ∈ raw.toList.filterMap sanitizeChar?,
      (c.isAlphanum || c == '_') = true := by
    intro c member
    obtain ⟨old, _, same⟩ := List.mem_filterMap.1 member
    exact isAlphanum_or_underscore_of_sanitizeChar? same
  unfold sanitize
  generalize raw.toList.filterMap sanitizeChar? = kept at known
  cases kept with
  | nil => simp [IsName, Char.isDigit]
  | cons first rest =>
      apply isName_ofList
      · split <;> exact List.cons_ne_nil _ _
      · intro c member
        split at member
        · rcases List.mem_cons.1 member with rfl | member
          · rfl
          · exact known c member
        · exact known c member
      · intro c head
        split at head
        · cases head
          rfl
        · next notDigit =>
            cases head
            exact Bool.eq_false_iff.2 notDigit

theorem sanitize_eq_self {name : String} (isName : IsName name) :
    sanitize name = name := by
  obtain ⟨nonempty, known, first⟩ := isName
  have kept : name.toList.filterMap sanitizeChar? = name.toList := by
    rw [List.filterMap_congr (fun c member => sanitizeChar?_eq_self
      (known c member)), List.filterMap_some]
  rw [sanitize, kept]
  cases letters : name.toList with
  | nil => exact absurd letters nonempty
  | cons c rest =>
      have notDigit : c.isDigit = false := first c (by simp [letters])
      simp only [notDigit, Bool.false_eq_true, if_false]
      rw [← letters, String.ofList_toList]

theorem isName_append_toString {base : String} (isName : IsName base)
    (number : Nat) : IsName (base ++ toString number) := by
  obtain ⟨nonempty, known, first⟩ := isName
  refine ⟨?_, ?_, ?_⟩
  · simp [String.toList_append, nonempty]
  · intro c member
    rw [String.toList_append] at member
    rcases List.mem_append.1 member with member | member
    · exact known c member
    · simp [Char.isAlphanum, isDigit_of_mem_toString member]
  · rw [String.toList_append, List.head?_append_of_ne_nil _ nonempty]
    exact first

theorem toLower_of_isDigit {c : Char} (digit : c.isDigit = true) :
    c.toLower = c := by
  refine dif_neg ?_
  intro upper
  have := upper.1
  simp only [Char.isDigit, Bool.and_eq_true, decide_eq_true_eq] at digit
  have high := digit.2
  simp only [ge_iff_le, UInt32.le_iff_toNat_le] at this high
  have zero : 'A'.val.toNat = 65 := rfl
  have nine : '9'.val.toNat = 57 := rfl
  omega

/-- No reserved word ends in a number. -/
theorem isReserved_append_toString (base : String) (number : Nat) :
    isReserved (base ++ toString number) = false := by
  have noDigits : reservedWords.all fun word =>
      word.toList.all fun c => !c.isDigit := by decide
  rw [isReserved, ← Bool.not_eq_true, List.contains_iff_mem]
  intro member
  obtain ⟨c, rest, digits⟩ := List.exists_cons_of_ne_nil (toString_ne_nil number)
  have present : c ∈ (toString number).toList := by
    rw [digits]
    exact List.mem_cons_self
  have digit := isDigit_of_mem_toString present
  have lowered : c ∈ (base ++ toString number).toList.map Char.toLower := by
    rw [String.toList_append, List.map_append, List.mem_append, List.mem_map,
      List.mem_map]
    exact .inr ⟨c, present, toLower_of_isDigit digit⟩
  have notDigit := List.all_eq_true.1 (List.all_eq_true.1 noDigits _ member) c
    (by rwa [String.toList_ofList])
  rw [digit] at notDigit
  cases notDigit

end FieldName

namespace Namer

open FieldName

theorem isFree_append_toString (namer : Namer) (base : String) (number : Nat) :
    namer.isFree (base ++ toString number) = true ↔
      base ++ toString number ∉ namer.used := by
  rw [isFree, isReserved_append_toString]
  simp

theorem isFree_freeNumber {namer : Namer} {base : String} {fuel start free : Nat}
    (behind : start ≤ free) (within : free < start + fuel)
    (isFree : namer.isFree (base ++ toString free) = true) :
    namer.isFree
      (base ++ toString (namer.freeNumber base fuel start)) = true := by
  induction fuel generalizing start with
  | zero => omega
  | succ fuel ih =>
      rw [freeNumber]
      split
      · next now => exact now
      · next notNow =>
          have differs : start ≠ free := by
            rintro rfl
            exact notNow isFree
          exact ih (by omega) (by omega)

/-- Of one number more than there are used names, one makes a free name. -/
theorem exists_free_number (namer : Namer) (base : String) :
    ∃ free < namer.used.length + 1,
      namer.isFree (base ++ toString free) = true := by
  by_contra none
  push Not at none
  have taken : ((List.range (namer.used.length + 1)).map
      fun number => base ++ toString number) ⊆ namer.used := by
    intro name member
    obtain ⟨number, inside, rfl⟩ := List.mem_map.1 member
    by_contra absent
    exact none number (List.mem_range.1 inside)
      ((namer.isFree_append_toString base number).2 absent)
  have distinct : ((List.range (namer.used.length + 1)).map
      fun number => base ++ toString number).Nodup := by
    apply List.Nodup.map _ List.nodup_range
    intro first second same
    exact toString_injective (String.append_right_inj base |>.1 same)
  have atMost := (distinct.subperm taken).length_le
  rw [List.length_map, List.length_range] at atMost
  omega

theorem isFree_choose (namer : Namer) (raw : String) :
    namer.isFree (namer.choose raw) = true := by
  rw [choose]
  split
  · next free => exact free
  · obtain ⟨free, within, isFree⟩ :=
      namer.exists_free_number (sanitize raw)
    exact isFree_freeNumber (Nat.zero_le free) (by omega) isFree

theorem isName_choose (namer : Namer) (raw : String) :
    IsName (namer.choose raw) := by
  rw [choose]
  split
  · exact isName_sanitize raw
  · exact isName_append_toString (isName_sanitize raw) _

theorem choose_eq_self {namer : Namer} {name : String} (isName : IsName name)
    (isFree : namer.isFree name = true) : namer.choose name = name := by
  rw [choose, sanitize_eq_self isName]
  exact if_pos isFree

theorem isReserved_of_isFree {namer : Namer} {name : String}
    (free : namer.isFree name = true) : FieldName.isReserved name = false := by
  rw [isFree, Bool.and_eq_true, Bool.not_eq_true'] at free
  exact free.1

theorem claimAll_cons (namer : Namer) (raw : String) (rest : List String) :
    (namer.claimAll (raw :: rest)).1 =
      (namer.claim raw).1 :: ((namer.claim raw).2.claimAll rest).1 := by
  rw [claimAll]

theorem length_claimAll (namer : Namer) (raws : List String) :
    (namer.claimAll raws).1.length = raws.length := by
  induction raws generalizing namer with
  | nil => rfl
  | cons raw rest ih => rw [claimAll_cons, List.length_cons, ih, List.length_cons]

/-- Names that were handed out one after the other are free at first, well-formed
and distinct. -/
theorem claimAll_distinct (namer : Namer) (raws : List String) :
    (∀ name ∈ (namer.claimAll raws).1,
      namer.isFree name = true ∧ IsName name) ∧
      (namer.claimAll raws).1.Nodup := by
  induction raws generalizing namer with
  | nil => simp [claimAll]
  | cons raw rest ih =>
      have free := namer.isFree_choose raw
      have isName := namer.isName_choose raw
      simp only [claimAll, claim]
      generalize namer.choose raw = first at free isName
      obtain ⟨later, distinct⟩ := ih ⟨first :: namer.used⟩
      have fresh : ∀ name ∈ (Namer.claimAll ⟨first :: namer.used⟩ rest).1,
          namer.isFree name = true ∧ name ≠ first := by
        intro name member
        have free := (later name member).1
        simp only [Namer.isFree, List.contains_cons, Bool.not_or,
          Bool.and_eq_true, Bool.not_eq_true', beq_eq_false_iff_ne] at free ⊢
        exact ⟨⟨free.1, free.2.2⟩, free.2.1⟩
      constructor
      · intro name member
        rcases List.mem_cons.1 member with rfl | member
        · exact ⟨free, isName⟩
        · exact ⟨(fresh name member).1, (later name member).2⟩
      · rw [List.nodup_cons]
        exact ⟨fun member => (fresh first member).2 rfl, distinct⟩

end Namer

namespace Graph

open FieldName

/-- The name under which a record is written. -/
def recordName (graph : Graph) (id : Nat) : String :=
  (graph.recordNames.lookup id).getD ""

theorem claimRecordNames_record (namer : Namer) (r : Record) (id : Nat)
    (rest : List (Node × Nat)) :
    let name := namer.choose ((r.name.map (·.name)).getD "record")
    claimRecordNames namer ((.record r, id) :: rest) =
      (id, name) :: claimRecordNames ⟨name :: namer.used⟩ rest :=
  rfl

theorem claimRecordNames_of_record?_eq_none (namer : Namer) {node : Node}
    (id : Nat) (rest : List (Node × Nat)) (none : node.record? = none) :
    claimRecordNames namer ((node, id) :: rest) =
      claimRecordNames namer rest := by
  cases node with
  | record r => cases none
  | _ => rfl

/-- The raw names for which records claim theirs. -/
def rawRecordNames (entries : List (Node × Nat)) : List String :=
  entries.filterMap fun entry =>
    entry.1.record?.map fun r => (r.name.map (·.name)).getD "record"

theorem map_claimRecordNames (namer : Namer) (entries : List (Node × Nat)) :
    (claimRecordNames namer entries).map (·.2) =
      (namer.claimAll (rawRecordNames entries)).1 := by
  induction entries generalizing namer with
  | nil => rfl
  | cons entry rest ih =>
      obtain ⟨node, id⟩ := entry
      cases node with
      | record record =>
          rw [claimRecordNames_record, List.map_cons, ih]
          simp only [rawRecordNames, List.filterMap_cons, Node.record?,
            Option.map_some, Namer.claimAll, Namer.claim]
      | _ =>
          rw [claimRecordNames_of_record?_eq_none namer id rest rfl, ih]
          rfl

theorem mem_claimRecordNames {namer : Namer} {entries : List (Node × Nat)}
    {id : Nat} :
    id ∈ (claimRecordNames namer entries).map (·.1) ↔
      ∃ r, (Node.record r, id) ∈ entries := by
  induction entries generalizing namer with
  | nil => simp [claimRecordNames]
  | cons entry rest ih =>
      obtain ⟨node, other⟩ := entry
      cases node with
      | record record =>
          rw [claimRecordNames_record, List.map_cons, List.mem_cons, ih]
          constructor
          · rintro (rfl | ⟨r, member⟩)
            · exact ⟨record, List.mem_cons_self⟩
            · exact ⟨r, List.mem_cons_of_mem _ member⟩
          · rintro ⟨r, member⟩
            rcases List.mem_cons.1 member with same | member
            · cases same
              exact .inl rfl
            · exact .inr ⟨r, member⟩
      | _ =>
          rw [claimRecordNames_of_record?_eq_none namer other rest rfl, ih]
          simp

theorem recordNames_distinct (graph : Graph) :
    (graph.recordNames.map (·.2)).Nodup := by
  rw [recordNames, map_claimRecordNames]
  exact (Namer.claimAll_distinct {} _).2

theorem recordNames_ids_distinct (graph : Graph) :
    (graph.recordNames.map (·.1)).Nodup := by
  have sublist : ∀ (entries : List (Node × Nat)) (namer : Namer),
      ((claimRecordNames namer entries).map (·.1)).Sublist
        (entries.map (·.2)) := by
    intro entries
    induction entries with
    | nil => exact fun _ => List.Sublist.refl _
    | cons entry rest ih =>
        intro namer
        obtain ⟨node, id⟩ := entry
        cases node with
        | record r =>
            rw [claimRecordNames_record]
            exact (ih _).cons_cons id
        | _ => exact (ih namer).cons id
  apply (sublist graph.nodes.toList.zipIdx {}).nodup
  rw [List.zipIdx_map_snd]
  exact List.nodup_range'

/-- Each record has a name of its own under which it is written. -/
theorem mem_recordNames {graph : Graph} {id : Nat} {r : Record}
    (found : graph.record? id = some r) :
    (id, graph.recordName id) ∈ graph.recordNames := by
  have listed : id ∈ graph.recordNames.map (·.1) := by
    rw [recordNames, mem_claimRecordNames]
    refine ⟨r, List.mk_mem_zipIdx_iff_getElem?.2 ?_⟩
    simpa [node?] using record?_eq_some_iff.1 found
  obtain ⟨⟨_, name⟩, member, rfl⟩ := List.mem_map.1 listed
  rw [recordName, Association.lookup_eq_some_of_mem graph.recordNames_ids_distinct member]
  exact member

theorem isName_recordName {graph : Graph} {id : Nat} {r : Record}
    (found : graph.record? id = some r) :
    IsName (graph.recordName id) ∧
      isReserved (graph.recordName id) = false := by
  have member := List.mem_map_of_mem (f := (·.2)) (mem_recordNames found)
  rw [recordNames, map_claimRecordNames] at member
  obtain ⟨free, isName⟩ := (Namer.claimAll_distinct {} _).1 _ member
  exact ⟨isName, Namer.isReserved_of_isFree free⟩

theorem recordName_injective {graph : Graph} {first second : Nat}
    {r s : Record} (found : graph.record? first = some r)
    (again : graph.record? second = some s)
    (same : graph.recordName first = graph.recordName second) :
    first = second := by
  have entry := List.inj_on_of_nodup_map graph.recordNames_distinct
    (mem_recordNames found) (mem_recordNames again) same
  exact congrArg Prod.fst entry

/-- Distinct names that could have been handed out are claimed unchanged. -/
theorem mem_claimRecordNames_of_valid {namer : Namer}
    {entries : List (Node × Nat)} (ids : (entries.map (·.2)).Nodup)
    (valid : ∀ r id, (Node.record r, id) ∈ entries →
      ∃ name, r.name = some name ∧ IsName name.name ∧
        namer.isFree name.name = true)
    (distinct : ∀ r s first second, (Node.record r, first) ∈ entries →
      (Node.record s, second) ∈ entries →
        r.name.map (·.name) = s.name.map (·.name) → first = second)
    {r : Record} {id : Nat} (member : (Node.record r, id) ∈ entries) :
    (id, (r.name.map (·.name)).getD "") ∈ claimRecordNames namer entries := by
  induction entries generalizing namer with
  | nil => cases member
  | cons entry rest ih =>
      obtain ⟨node, other⟩ := entry
      rw [List.map_cons, List.nodup_cons] at ids
      have distinctRest := fun r s first second here there =>
        distinct r s first second (List.mem_cons_of_mem _ here)
          (List.mem_cons_of_mem _ there)
      cases node with
      | record s =>
          obtain ⟨name, named, isName, free⟩ :=
            valid s other List.mem_cons_self
          rw [claimRecordNames_record, named, Option.map_some,
            Option.getD_some, Namer.choose_eq_self isName free]
          rcases List.mem_cons.1 member with same | member
          · cases same
            rw [named]
            exact List.mem_cons_self
          · apply List.mem_cons_of_mem
            refine ih ids.2 ?_ distinctRest member
            intro t place listed
            obtain ⟨title, titled, isTitle, freeTitle⟩ :=
              valid t place (List.mem_cons_of_mem _ listed)
            refine ⟨title, titled, isTitle, ?_⟩
            have differs : title.name ≠ name.name := by
              intro same
              apply ids.1
              have samePlace := distinct s t other place List.mem_cons_self
                (List.mem_cons_of_mem _ listed) (by simp [named, titled, same])
              rw [samePlace]
              exact List.mem_map.2 ⟨_, listed, rfl⟩
            rw [Namer.isFree] at freeTitle ⊢
            rw [List.contains_cons, beq_false_of_ne differs, Bool.false_or]
            exact freeTitle
      | _ =>
          rw [claimRecordNames_of_record?_eq_none namer other rest rfl]
          refine ih ids.2 (fun r id listed => valid r id
            (List.mem_cons_of_mem _ listed)) distinctRest ?_
          rcases List.mem_cons.1 member with same | member
          · cases same
          · exact member

/-- Records under distinct names that could have been handed out are written
under these. -/
theorem recordName_eq {graph : Graph}
    (valid : ∀ id r, graph.record? id = some r →
      ∃ name, r.name = some name ∧ IsName name.name ∧
        isReserved name.name = false)
    (distinct : ∀ first second r s, graph.record? first = some r →
      graph.record? second = some s →
        r.name.map (·.name) = s.name.map (·.name) → first = second)
    {id : Nat} {r : Record} (found : graph.record? id = some r) :
    graph.recordName id = (r.name.map (·.name)).getD "" := by
  have listed : ∀ id r, (Node.record r, id) ∈ graph.nodes.toList.zipIdx ↔
      graph.record? id = some r := by
    intro id r
    rw [List.mk_mem_zipIdx_iff_getElem?, record?_eq_some_iff, node?,
      Array.getElem?_toList]
  have ids : (graph.nodes.toList.zipIdx.map (·.2)).Nodup := by
    rw [List.zipIdx_map_snd]
    exact List.nodup_range'
  have member : (id, (r.name.map (·.name)).getD "") ∈ graph.recordNames := by
    apply mem_claimRecordNames_of_valid ids _ _ ((listed id r).2 found)
    · intro s place member
      obtain ⟨name, named, isName, free⟩ :=
        valid place s ((listed place s).1 member)
      exact ⟨name, named, isName, by simp [Namer.isFree, free]⟩
    · intro s t first second here there same
      exact distinct first second s t ((listed first s).1 here)
        ((listed second t).1 there) same
  rw [recordName, Association.lookup_eq_some_of_mem graph.recordNames_ids_distinct member]
  rfl

end Graph

end XmlRecords
