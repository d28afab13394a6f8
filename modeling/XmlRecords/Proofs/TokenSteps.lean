import Mathlib.Data.List.TakeDrop
import XmlRecords.Proofs.Spans
import XmlRecords.Xml.Event

/-!
# Tokens one by one

Reading all tokens of a document is reading one after the other, each further behind in
the document, until one of them ends the reading.  So what the reader makes of a
document is what it makes of the last place that it comes to.
-/

namespace XmlRecords.Token

open Progress

variable {total fuel : Nat} {p next : Progress} {done bytes left : List UInt8}

/-- Read one token, and hand back what follows it.  An error is what the whole reading
comes to, be it a fault or not. -/
def step (total : Nat) (p : Progress) :
    List UInt8 → Except (List Token × Option MarkupFault) (Progress × List UInt8)
  | [] => .error (p.ordered, none)
  | b :: rest =>
      if b == byte '<' then
        match readMarkup? p rest with
        | none => .error (p.stop (.malformed .unexpectedMarkup))
        | some next => .ok next
      else if b == byte '&' then
        match rest.span fun b =>
            b != byte ';' && b != byte '&' && b != byte '<' with
        | (_, []) => .error (p.stop (.malformed .badReference))
        | (name, mark :: left) =>
            if mark != byte ';' then .error (p.stop (.malformed .badReference))
            else
              match Utf8.decode? name with
              | none => .error (p.stop (.malformed .notUtf8))
              | some name =>
                  match textReference? name.toList with
                  | none => .error (p.stop (.unknownEntity (total - left.length) name))
                  | some c => .ok (p.report (.text c.toString), left)
      else
        let isText := fun b => b != byte '<' && b != byte '&'
        match p.addText? (b :: rest.takeWhile isText) with
        | none => .error (p.stop (.malformed .notUtf8))
        | some p => .ok (p, rest.dropWhile isText)

theorem readFrom_succ : readFrom total (fuel + 1) p bytes =
    match step total p bytes with
    | .error result => result
    | .ok (next, left) => readFrom total fuel next left := by
  cases bytes with
  | nil => rfl
  | cons b rest =>
      rw [readFrom, step]
      split
      · cases readMarkup? p rest <;> rfl
      · split
        · generalize rest.span _ = parted
          obtain ⟨name, behind⟩ := parted
          cases behind with
          | nil => rfl
          | cons mark left =>
              dsimp only
              split
              · rfl
              · cases Utf8.decode? name with
                | none => rfl
                | some name =>
                    dsimp only
                    cases textReference? name.toList <;> rfl
        · dsimp only
          cases p.addText? _ <;> rfl

section Suffixes

theorem suffix_of_after? {mark : String} (after : after? mark bytes = some left) :
    left <:+ bytes := by
  obtain ⟨_, same⟩ := Option.ite_none_right_eq_some.1 after
  cases same
  exact List.drop_suffix _ _

theorem suffix_of_splitAtMark? {mark : String} {front : List UInt8}
    (split : splitAtMark? mark done bytes = some (front, left)) : left <:+ bytes := by
  induction bytes generalizing done with
  | nil => cases split
  | cons b rest ih =>
      rw [splitAtMark?] at split
      split at split
      · next after =>
          cases split
          exact suffix_of_after? after
      · exact (ih split).trans (List.suffix_cons _ _)

theorem suffix_of_splitTag? {quote : Option UInt8} {front : List UInt8}
    (split : splitTag? quote done bytes = some (front, left)) : left <:+ bytes := by
  induction bytes generalizing quote done with
  | nil => cases quote <;> cases split
  | cons b rest ih =>
      have longer := List.suffix_cons b rest
      cases quote with
      | none =>
          rw [splitTag?] at split
          split at split
          · cases split
            exact longer
          · split at split
            · exact (ih split).trans longer
            · exact (ih split).trans longer
      | some quote => exact (ih split).trans longer

theorem suffix_of_splitDeclaration? {depth : Nat} {front : List UInt8}
    (split : splitDeclaration? depth done bytes = some (front, left)) : left <:+ bytes := by
  induction bytes generalizing depth done with
  | nil => cases split
  | cons b rest ih =>
      have longer := List.suffix_cons b rest
      unfold splitDeclaration? at split
      split at split
      · exact (ih split).trans longer
      · split at split
        · split at split
          · cases split
            exact longer
          · exact (ih split).trans longer
        · exact (ih split).trans longer

theorem suffix_of_readEndTag? (read : readEndTag? p bytes = some (next, left)) :
    left <:+ bytes := by
  obtain ⟨⟨tag, rest⟩, split, read⟩ := Option.bind_eq_some_iff.1 read
  obtain ⟨_, _, same⟩ := Option.bind_eq_some_iff.1 read
  cases same
  exact suffix_of_splitTag? split

theorem suffix_of_readStartTag? (read : readStartTag? p bytes = some (next, left)) :
    left <:+ bytes := by
  obtain ⟨⟨tag, rest⟩, split, read⟩ := Option.bind_eq_some_iff.1 read
  have suffix := suffix_of_splitTag? split
  dsimp only at read
  split at read
  · obtain ⟨_, _, read⟩ := Option.bind_eq_some_iff.1 read
    obtain ⟨_, _, same⟩ := Option.bind_eq_some_iff.1 read
    cases same
    exact suffix
  · obtain ⟨_, _, same⟩ := Option.bind_eq_some_iff.1 read
    cases same
    exact suffix

theorem suffix_of_skipDoctype? (skip : skipDoctype? bytes = some left) : left <:+ bytes := by
  obtain ⟨⟨declaration, rest⟩, split, skip⟩ := Option.bind_eq_some_iff.1 skip
  dsimp only at skip
  split at skip
  · cases skip
    exact suffix_of_splitDeclaration? split
  · cases skip

theorem suffix_of_readMarkup? (read : readMarkup? p bytes = some (next, left)) :
    left <:+ bytes := by
  unfold readMarkup? at read
  split at read
  · next rest after =>
      obtain ⟨⟨run, behind⟩, split, read⟩ := Option.bind_eq_some_iff.1 read
      obtain ⟨_, _, same⟩ := Option.bind_eq_some_iff.1 read
      cases same
      exact (suffix_of_splitAtMark? split).trans (suffix_of_after? after)
  · next rest after _ =>
      obtain ⟨⟨_, behind⟩, split, same⟩ := Option.bind_eq_some_iff.1 read
      cases same
      exact (suffix_of_splitAtMark? split).trans (suffix_of_after? after)
  · next rest after _ _ =>
      obtain ⟨behind, skip, same⟩ := Option.bind_eq_some_iff.1 read
      cases same
      exact (suffix_of_skipDoctype? skip).trans (suffix_of_after? after)
  · next rest after _ _ _ =>
      obtain ⟨_, read⟩ := Option.ite_none_left_eq_some.1 read
      obtain ⟨⟨_, behind⟩, split, same⟩ := Option.bind_eq_some_iff.1 read
      cases same
      exact (suffix_of_splitAtMark? split).trans (suffix_of_after? after)
  · next rest after _ _ _ _ => exact (suffix_of_readEndTag? read).trans (suffix_of_after? after)
  · split at read
    · cases read
    · exact suffix_of_readStartTag? read

theorem length_lt_of_step (goesOn : step total p bytes = .ok (next, left)) :
    left.length < bytes.length := by
  cases bytes with
  | nil => cases goesOn
  | cons b rest =>
      suffices left <:+ rest from Nat.lt_succ_of_le this.length_le
      rw [step] at goesOn
      split at goesOn
      · split at goesOn
        · cases goesOn
        · next read =>
            cases goesOn
            exact suffix_of_readMarkup? read
      · split at goesOn
        · rw [List.span_eq_takeWhile_dropWhile] at goesOn
          split at goesOn
          · cases goesOn
          · next name mark behind parted =>
              have suffix : mark :: behind <:+ rest := by
                rw [← (Prod.mk.inj parted).2]
                exact List.dropWhile_suffix _
              split at goesOn
              · cases goesOn
              · split at goesOn
                · cases goesOn
                · split at goesOn
                  · cases goesOn
                  · cases goesOn
                    exact (List.suffix_cons _ _).trans suffix
        · dsimp only at goesOn
          split at goesOn
          · cases goesOn
          · cases goesOn
            exact List.dropWhile_suffix _

end Suffixes

section Runs

variable {document : List UInt8} {result : List Token × Option MarkupFault}

/-- A document without the mark that may stand in front of it. -/
def body (document : List UInt8) : List UInt8 :=
  (after? "\uFEFF" document).getD document

/-- The reader of a document comes to a place where it has reported some tokens and some
bytes are left. -/
inductive Comes (document : List UInt8) : Progress → List UInt8 → Prop where
  | start : Comes document {} (body document)
  | next {p next : Progress} {bytes left : List UInt8} (comes : Comes document p bytes)
      (goesOn : step (body document).length p bytes = .ok (next, left)) :
      Comes document next left

/-- The reading of a document is its reading from any place that it comes to. -/
theorem Comes.read_eq (comes : Comes document p bytes) :
    ∃ fuel, bytes.length < fuel ∧
      read document = readFrom (body document).length fuel p bytes := by
  induction comes with
  | start => exact ⟨_, Nat.lt_succ_self _, rfl⟩
  | next comes goesOn ih =>
      obtain ⟨fuel, enough, same⟩ := ih
      have shorter := length_lt_of_step goesOn
      cases fuel with
      | zero => omega
      | succ fuel =>
          rw [readFrom_succ, goesOn] at same
          exact ⟨fuel, by omega, same⟩

/-- From any place there is enough fuel to come to the end. -/
theorem Comes.exists_end (enough : bytes.length < fuel) (comes : Comes document p bytes) :
    ∃ last rest, Comes document last rest ∧
      step (body document).length last rest =
        .error (readFrom (body document).length fuel p bytes) := by
  induction fuel generalizing p bytes with
  | zero => omega
  | succ fuel ih =>
      rw [readFrom_succ]
      cases taken : step (body document).length p bytes with
      | error result => exact ⟨p, bytes, comes, taken⟩
      | ok place =>
          obtain ⟨next, left⟩ := place
          have shorter := length_lt_of_step taken
          exact ih (by omega) (comes.next taken)

/-- A document is read as the last place of its reading says. -/
theorem read_eq_iff : read document = result ↔
    ∃ p bytes, Comes document p bytes ∧
      step (body document).length p bytes = .error result := by
  constructor
  · rintro rfl
    exact Comes.start.exists_end (Nat.lt_succ_self _)
  · rintro ⟨p, bytes, comes, ends⟩
    obtain ⟨fuel, enough, same⟩ := comes.read_eq
    cases fuel with
    | zero => omega
    | succ fuel => rw [same, readFrom_succ, ends]

end Runs

end XmlRecords.Token
