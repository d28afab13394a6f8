import XmlRecords.Time.Calendar

/-!
# The history of a zone

A zone passes through eras, each with a standard offset and a way of saving
daylight: none, a constant amount, or rules that set the amount on certain days
of certain years.  From the eras follow the spans during which the offset of the
zone was constant.

The clock by which a change is timed is the one in force just before it.
-/

namespace XmlRecords

/-- The day of a month on which something happens.  Weekdays are counted from
Monday, which is 0. -/
inductive MonthDay where
  | on (day : Nat)
  | last (weekday : Nat)
  | onOrAfter (weekday : Nat) (day : Nat)
  deriving DecidableEq, Repr

/-- The clock that a time of day is read from. -/
inductive Clock where
  | wall
  | standard
  | universal
  deriving DecidableEq, Repr

/-- A time of some year: a month, a day in it, and a second of that day on some
clock. -/
structure YearTime where
  month : Nat
  day : MonthDay
  second : Int
  clock : Clock
  deriving DecidableEq, Repr

/-- Set the daylight saving at one time of every year from a first to a last
one. -/
structure SavingRule where
  first : Nat
  last : Nat
  time : YearTime
  saving : Int
  deriving DecidableEq, Repr

/-- How an era saves daylight. -/
inductive Saving where
  | constant (seconds : Int)
  | rules (rules : List SavingRule)

/-- An era with its standard offset, and the time at which it ends unless it is
the last one. -/
structure Era where
  standard : Int
  saving : Saving
  ending : Option (Nat × YearTime)

/-- A span of constant offset.  It lasts from a second of the common time line,
or from always, to the start of the next span. -/
structure Span where
  start : Option Int
  offset : Int
  deriving DecidableEq, Repr

/-- The weekday of a day. -/
def weekday (dayNumber : Int) : Nat := ((dayNumber + 3) % 7).toNat

/-- The number of a day given by its month. -/
def MonthDay.dayNumber (year : Nat) (month : Nat) : MonthDay → Int
  | .on day => (Date.mk year month day).dayNumber
  | .last wanted =>
      let finish := (Date.mk year month (Date.monthLength year month)).dayNumber
      finish - ((weekday finish + 7 - wanted) % 7 : Nat)
  | .onOrAfter wanted day =>
      let start := (Date.mk year month day).dayNumber
      start + ((wanted + 7 - weekday start) % 7 : Nat)

/-- The second of a time on its own clock. -/
def YearTime.clockSecond (time : YearTime) (year : Nat) : Int :=
  time.day.dayNumber year time.month * 86400 + time.second

/-- The second of the common time line at which a time occurs, under a standard
offset and an amount of daylight saving. -/
def YearTime.instant (time : YearTime) (year : Nat) (standard saving : Int) :
    Int :=
  time.clockSecond year -
    match time.clock with
    | .wall => standard + saving
    | .standard => standard
    | .universal => 0

/-- One application of a rule. -/
structure Change where
  year : Nat
  time : YearTime
  saving : Int

/-- The last year for which rules are applied. -/
def lastRuleYear : Nat := 2099

/-- All applications of a rule. -/
def SavingRule.changes (rule : SavingRule) : List Change :=
  (List.range (min rule.last lastRuleYear + 1 - rule.first)).map fun years =>
    ⟨rule.first + years, rule.time, rule.saving⟩

/-- The applications of several rules in order of time. -/
def changesOf (rules : List SavingRule) : List Change :=
  (rules.flatMap SavingRule.changes).mergeSort fun a b =>
    a.time.clockSecond a.year ≤ b.time.clockSecond b.year

namespace Era

/-- The second at which an era ends while an amount of daylight saving is in
force. -/
def endInstant (era : Era) (saving : Int) : Option Int :=
  era.ending.map fun (year, time) => time.instant year era.standard saving

/-- Follow the changes of an era.  The result is the daylight saving at the
start of the era, the spans begun by later changes, and the daylight saving at
its end. -/
def follow (era : Era) (start : Option Int) (initial saving : Int)
    (spans : List Span) : List Change → Int × List Span × Int
  | [] => (initial, spans.reverse, saving)
  | change :: rest =>
      let moment := change.time.instant change.year era.standard saving
      let ended : Bool :=
        match era.endInstant saving with
        | some last => last ≤ moment
        | none => false
      let early : Bool :=
        match start with
        | some first => moment ≤ first
        | none => false
      if ended then (initial, spans.reverse, saving)
      else if early then
        era.follow start change.saving change.saving spans rest
      else
        era.follow start initial change.saving
          (⟨some moment, era.standard + change.saving⟩ :: spans) rest

/-- The spans of an era that starts at a second, and the second at which it
ends. -/
def spans (era : Era) (start : Option Int) : List Span × Option Int :=
  match era.saving with
  | .constant seconds =>
      ([⟨start, era.standard + seconds⟩], era.endInstant seconds)
  | .rules rules =>
      let (initial, later, last) := era.follow start 0 0 [] (changesOf rules)
      (⟨start, era.standard + initial⟩ :: later, era.endInstant last)

end Era

/-- The spans of consecutive eras, the first of which starts at a second or has
always been. -/
def spansFrom : Option Int → List Era → List Span
  | _, [] => []
  | start, era :: rest =>
      let (spans, ending) := era.spans start
      spans ++ spansFrom ending rest

/-- The spans of the history of a zone. -/
def spansOf (eras : List Era) : List Span := spansFrom none eras

/-- The offset of the first span during which local clocks show a second.  A
second that clocks skip is in no span; one that they show twice is in two, of
which the earlier counts. -/
def offsetAt? (second : Int) : List Span → Option Int
  | [] => none
  | span :: rest =>
      let begun : Bool :=
        match span.start with
        | some start => start + span.offset ≤ second
        | none => true
      let ended : Bool :=
        match rest with
        | next :: _ =>
            match next.start with
            | some start => start + span.offset ≤ second
            | none => false
        | [] => false
      if begun && !ended then some span.offset else offsetAt? second rest

end XmlRecords
