/-!
# Associations

Lists of keys and values in which no key comes twice, in the order in which the
keys were first set.
-/

namespace XmlRecords.Association

variable {α β : Type} [DecidableEq α]

/-- Set the value of a key.  A key that is already there keeps its place. -/
def insert (key : α) (value : β) : List (α × β) → List (α × β)
  | [] => [(key, value)]
  | (other, old) :: rest =>
      if other = key then (other, value) :: rest
      else (other, old) :: insert key value rest

/-- Set the values of several keys one after the other. -/
def ofList (entries : List (α × β)) : List (α × β) :=
  entries.foldl (fun all (key, value) => insert key value all) []

/-- The keys after one was set: it comes last if it is new. -/
theorem keys_insert (key : α) (value : β) (entries : List (α × β)) :
    (insert key value entries).map (·.1) =
      if key ∈ entries.map (·.1) then entries.map (·.1)
      else entries.map (·.1) ++ [key] := by
  induction entries with
  | nil => simp [insert]
  | cons entry rest ih =>
      obtain ⟨other, old⟩ := entry
      by_cases same : other = key
      · simp [insert, same]
      · have differs : ¬ key = other := fun equal => same equal.symm
        by_cases known : key ∈ rest.map (·.1)
        · simp_all [insert]
        · simp_all [insert]

theorem lookup_insert (key other : α) (value : β) (entries : List (α × β)) :
    (insert key value entries).lookup other =
      if other = key then some value else entries.lookup other := by
  induction entries with
  | nil =>
      rw [insert, List.lookup_cons]
      by_cases here : other = key
      · simp [here]
      · rw [beq_false_of_ne here, if_neg here]
  | cons entry rest ih =>
      obtain ⟨first, old⟩ := entry
      rw [insert]
      by_cases same : first = key
      · rw [if_pos same, List.lookup_cons, List.lookup_cons, ← same]
        by_cases here : other = first
        · simp [here]
        · rw [beq_false_of_ne here, if_neg here]
      · rw [if_neg same, List.lookup_cons, List.lookup_cons]
        by_cases here : other = first
        · simp [here, same]
        · rw [beq_false_of_ne here]
          exact ih

theorem insert_of_fresh {key : α} {entries : List (α × β)}
    (fresh : key ∉ entries.map (·.1)) (value : β) :
    insert key value entries = entries ++ [(key, value)] := by
  induction entries with
  | nil => rfl
  | cons entry rest ih =>
      rw [List.map_cons, List.mem_cons, not_or] at fresh
      rw [insert, if_neg (Ne.symm fresh.1), ih fresh.2, List.cons_append]

/-- Entries with distinct keys are all kept, in order. -/
theorem ofList_eq_self {entries : List (α × β)} (distinct : (entries.map (·.1)).Nodup) :
    ofList entries = entries := by
  have general : ∀ done : List (α × β), ((done ++ entries).map (·.1)).Nodup →
      entries.foldl (fun all (key, value) => insert key value all) done =
        done ++ entries := by
    clear distinct
    induction entries with
    | nil => simp
    | cons entry rest ih =>
        intro done distinct
        obtain ⟨key, value⟩ := entry
        have fresh : key ∉ done.map (·.1) := by
          rw [List.map_append, List.nodup_append] at distinct
          intro member
          exact distinct.2.2 _ member _ (by simp) rfl
        have next := ih (done ++ [(key, value)]) (by simpa using distinct)
        rw [List.append_assoc, List.singleton_append] at next
        rw [List.foldl_cons, ← next]
        simp only [insert_of_fresh fresh]
  exact general [] distinct

section First

variable {κ : Type} [BEq κ] [LawfulBEq κ]

/-- Keys in the order in which they come first are distinct. -/
theorem nodup_eraseDups (keys : List κ) : keys.eraseDups.Nodup := by
  -- What is left behind the first key is not the tail, so the induction is on the length.
  induction count : keys.length using Nat.strongRecOn generalizing keys with
  | ind n ih =>
      cases keys with
      | nil => exact .nil
      | cons key rest =>
          have fewer : (rest.filter fun other => !other == key).length < n := by
            rw [← count]
            exact Nat.lt_succ_of_le (List.length_filter_le ..)
          have fresh : key ∉ (rest.filter fun other => !other == key).eraseDups := by
            simp
          rw [List.eraseDups_cons]
          exact List.nodup_cons.2 ⟨fresh, ih _ fewer _ rfl⟩

/-- Distinct keys are in the order in which they come first. -/
theorem eraseDups_eq_self {keys : List κ} (distinct : keys.Nodup) :
    keys.eraseDups = keys := by
  induction keys with
  | nil => rfl
  | cons key rest ih =>
      rw [List.nodup_cons] at distinct
      have others : rest.filter (fun y => !y == key) = rest := by
        rw [List.filter_eq_self]
        rintro y member
        simpa using ne_of_mem_of_not_mem member distinct.1
      rw [List.eraseDups_cons, others, ih distinct.2]

end First

section Lookup

variable {κ ν : Type} [BEq κ] [LawfulBEq κ] {table : List (κ × ν)} {key other : κ}
  {value found : ν}

theorem lookup_cons_cases (known : ((key, value) :: table).lookup other = some found) :
    (other = key ∧ found = value) ∨ table.lookup other = some found := by
  rw [List.lookup_cons] at known
  split at known
  · next here =>
      cases known
      exact .inl ⟨eq_of_beq here, rfl⟩
  · exact .inr known

/-- A new key hides none of those that a table has. -/
theorem lookup_cons_of_fresh (fresh : table.lookup key = none)
    (known : table.lookup other = some found) :
    ((key, value) :: table).lookup other = some found := by
  have differs : other ≠ key := by
    rintro rfl
    cases fresh.symm.trans known
  rwa [List.lookup_cons, beq_false_of_ne differs]

theorem lookup_eq_some_of_mem (distinct : (table.map (·.1)).Nodup)
    (member : (key, value) ∈ table) : table.lookup key = some value := by
  induction table with
  | nil => cases member
  | cons entry rest ih =>
      obtain ⟨other, first⟩ := entry
      rw [List.map_cons, List.nodup_cons] at distinct
      rw [List.lookup_cons]
      rcases List.mem_cons.1 member with same | member
      · cases same
        rw [beq_self_eq_true]
      · have differs : key ≠ other := by
          intro same
          apply distinct.1
          rw [← same]
          exact List.mem_map.2 ⟨_, member, rfl⟩
        rw [beq_false_of_ne differs]
        exact ih distinct.2 member

end Lookup

end XmlRecords.Association
