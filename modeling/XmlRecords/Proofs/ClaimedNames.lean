import Mathlib.Order.Bounds.Defs
import XmlRecords.Proofs.Names

/-!
# What a namer hands out for raw names

A raw name gets its sanitized form while that is free, and otherwise the sanitized
form with the least number behind it that makes it free.  No more numbers are tried
than names have been handed out.  Names that could have been handed out all
together are handed out as they are.
-/

namespace XmlRecords

namespace FieldName

/-- The name is a word that the schema language keeps for itself, in whatever letter
case. -/
def IsReservedWord (name : String) : Prop :=
  ∃ word ∈ reservedWords,
    name.toList.map Char.toLower = word.toList.map Char.toLower

theorem map_toLower_of_mem_reservedWords {word : String}
    (member : word ∈ reservedWords) :
    word.toList.map Char.toLower = word.toList := by
  revert word
  decide

theorem isReserved_iff {name : String} :
    isReserved name = true ↔ IsReservedWord name := by
  rw [isReserved, List.contains_iff_mem]
  constructor
  · intro member
    refine ⟨_, member, ?_⟩
    rw [map_toLower_of_mem_reservedWords member, String.toList_ofList]
  · rintro ⟨word, member, same⟩
    rw [map_toLower_of_mem_reservedWords member] at same
    rwa [same, String.ofList_toList]

theorem isReserved_eq_false_iff {name : String} :
    isReserved name = false ↔ ¬ IsReservedWord name := by
  rw [← isReserved_iff, Bool.not_eq_true]

theorem sanitize_sanitize (raw : String) : sanitize (sanitize raw) = sanitize raw :=
  sanitize_eq_self (isName_sanitize raw)

end FieldName

namespace Namer

open FieldName

/-- The name can be handed out behind others: it is no reserved word and not among
them. -/
def Available (earlier : List String) (name : String) : Prop :=
  ¬ IsReservedWord name ∧ name ∉ earlier

theorem isFree_iff {namer : Namer} {name : String} :
    namer.isFree name = true ↔ Available namer.used name := by
  rw [isFree, Bool.and_eq_true, Bool.not_eq_true', isReserved_eq_false_iff,
    Bool.not_eq_true', ← Bool.not_eq_true, List.contains_iff_mem]
  rfl

/-- What a raw name gets behind names that were handed out. -/
inductive Chosen (earlier : List String) (raw : String) : String → Prop where
  | plain (free : Available earlier (sanitize raw)) :
      Chosen earlier raw (sanitize raw)
  | numbered {number : Nat} (taken : ¬ Available earlier (sanitize raw))
      (least : IsLeast {n : Nat | Available earlier (sanitize raw ++ toString n)}
        number)
      (soon : number ≤ earlier.length) :
      Chosen earlier raw (sanitize raw ++ toString number)

/-- The order in which names were handed out does not matter. -/
theorem Chosen.perm {earlier other : List String} {raw name : String}
    (chosen : Chosen earlier raw name) (same : earlier.Perm other) :
    Chosen other raw name := by
  have available : Available earlier = Available other := by
    funext name
    rw [Available, Available, same.mem_iff]
  cases chosen with
  | plain free => exact .plain (available ▸ free)
  | numbered taken least soon =>
      exact .numbered (available ▸ taken) (available ▸ least)
        (same.length_eq ▸ soon)

/-- The search passes over no number that makes the name free. -/
theorem isFree_of_lt_freeNumber {namer : Namer} {base : String}
    {fuel start number : Nat} (behind : start ≤ number)
    (before : number < namer.freeNumber base fuel start) :
    namer.isFree (base ++ toString number) = false := by
  induction fuel generalizing start with
  | zero =>
      rw [freeNumber] at before
      omega
  | succ fuel ih =>
      rw [freeNumber] at before
      split at before
      · omega
      · next taken =>
          rcases Nat.eq_or_lt_of_le behind with rfl | later
          · exact Bool.not_eq_true _ ▸ taken
          · exact ih later before

theorem chosen_claim (namer : Namer) (raw : String) :
    Chosen namer.used raw (namer.claim raw).1 := by
  have free := namer.isFree_choose raw
  rw [claim]
  rw [choose] at free ⊢
  split
  · next now => exact .plain (isFree_iff.1 now)
  · next taken =>
      rw [if_neg taken] at free
      have least : IsLeast
          {n : Nat | Available namer.used (sanitize raw ++ toString n)}
          (namer.freeNumber (sanitize raw) (namer.used.length + 1) 0) := by
        refine ⟨isFree_iff.1 free, fun number available => ?_⟩
        by_contra before
        have passed := isFree_of_lt_freeNumber (Nat.zero_le number)
          (Nat.lt_of_not_le before)
        rw [isFree_iff.2 available] at passed
        cases passed
      obtain ⟨number, within, isFree⟩ := namer.exists_free_number (sanitize raw)
      exact .numbered (isFree_iff.not.1 taken) least
        ((least.2 (isFree_iff.1 isFree)).trans (Nat.le_of_lt_succ within))

theorem used_claim (namer : Namer) (raw : String) :
    (namer.claim raw).2.used = (namer.claim raw).1 :: namer.used := by
  rw [claim]

/-- Each raw name gets what it gets behind the names in front of it. -/
theorem chosen_of_claimAll {namer : Namer} {earlier : List String}
    (same : namer.used.Perm earlier) {raws : List String} {place : Nat}
    {raw name : String} (asked : raws[place]? = some raw)
    (given : (namer.claimAll raws).1[place]? = some name) :
    Chosen (earlier ++ (namer.claimAll raws).1.take place) raw name := by
  induction raws generalizing namer earlier place with
  | nil => cases asked
  | cons first rest ih =>
      rw [claimAll_cons] at given ⊢
      cases place with
      | zero =>
          have asks : first = raw := by simpa using asked
          have gives : (namer.claim first).1 = name := by simpa using given
          rw [List.take_zero, List.append_nil, ← asks, ← gives]
          exact (namer.chosen_claim first).perm same
      | succ place =>
          rw [List.getElem?_cons_succ] at asked given
          have next : (namer.claim first).2.used.Perm
              (earlier ++ [(namer.claim first).1]) := by
            rw [used_claim]
            exact (same.cons _).trans (List.perm_append_singleton _ _).symm
          have chosen := ih next asked given
          rwa [List.append_assoc, List.singleton_append] at chosen

/-- Distinct names that are free are handed out as they are. -/
theorem claimAll_eq_self {namer : Namer} {names : List String}
    (valid : ∀ name ∈ names, sanitize name = name ∧ namer.isFree name = true)
    (distinct : names.Nodup) : (namer.claimAll names).1 = names := by
  induction names generalizing namer with
  | nil => rfl
  | cons name rest ih =>
      rw [List.nodup_cons] at distinct
      obtain ⟨sanitized, free⟩ := valid name List.mem_cons_self
      have here : namer.choose name = name := by
        rw [choose, sanitized]
        exact if_pos free
      rw [claimAll_cons, claim, here, ih ?_ distinct.2]
      intro other member
      obtain ⟨sanitized, free⟩ := valid other (List.mem_cons_of_mem _ member)
      have differs : other ≠ name := ne_of_mem_of_not_mem member distinct.1
      rw [isFree_iff, Available] at free ⊢
      exact ⟨sanitized, free.1, List.not_mem_cons_of_ne_of_not_mem differs free.2⟩

/-- The names that a namer hands out are as many as were asked for, distinct,
well-formed and not reserved in any letter case.  Each is the sanitized raw name as
long as that can be handed out, and otherwise has the least number behind it with
which it can be handed out.  To sanitize a name twice is to sanitize it once, and
distinct sanitized names that are not reserved are handed out unchanged. -/
theorem chosen_claimAll (raws : List String) :
    (({} : Namer).claimAll raws).1.length = raws.length ∧
      (({} : Namer).claimAll raws).1.Nodup ∧
      (∀ name ∈ (({} : Namer).claimAll raws).1,
        IsName name ∧ ¬ IsReservedWord name) ∧
      (∀ place raw name, raws[place]? = some raw →
        (({} : Namer).claimAll raws).1[place]? = some name →
          Chosen ((({} : Namer).claimAll raws).1.take place) raw name) ∧
      (∀ raw, sanitize (sanitize raw) = sanitize raw) ∧
      (raws.Nodup → (∀ name ∈ raws, sanitize name = name ∧ ¬ IsReservedWord name) →
        (({} : Namer).claimAll raws).1 = raws) := by
  obtain ⟨valid, distinct⟩ := claimAll_distinct {} raws
  refine ⟨length_claimAll {} raws, distinct, ?_, ?_, sanitize_sanitize, ?_⟩
  · intro name member
    obtain ⟨free, isName⟩ := valid name member
    exact ⟨isName, (isFree_iff.1 free).1⟩
  · intro place raw name asked given
    have chosen := chosen_of_claimAll (.refl []) asked given
    rwa [List.nil_append] at chosen
  · intro apart sanitized
    refine claimAll_eq_self (fun name member => ?_) apart
    obtain ⟨same, unreserved⟩ := sanitized name member
    exact ⟨same, isFree_iff.2 ⟨unreserved, List.not_mem_nil⟩⟩

/-- Raw names may ask for what an earlier one got with a number behind it. -/
example : (({} : Namer).claimAll ["field", "String", "field", "field0", "a-b", "a.b"]).1 =
    ["field", "String0", "field0", "field00", "a_b", "a_b0"] := by
  decide +kernel

end Namer

end XmlRecords
