import XmlRecords.Error
import XmlRecords.Time.Offset
import XmlRecords.Time.ZoneTable

/-!
# Time zones

The zone of date-times that do not name their offset: the common time line
itself, a fixed offset, or a zone with a name and a history.
-/

namespace XmlRecords

/-- A time zone. -/
inductive Zone where
  | utc
  | fixed (offset : Offset)
  | named (name : String) (spans : List Span)

namespace Zone

/-- The names of the common time line and of offsets that never change, with
the hours by which each is ahead. -/
def constantNames : List (String × Int) :=
  ["GMT", "GMT0", "GMT+0", "GMT-0", "Greenwich", "UCT", "UTC", "Universal",
      "Zulu", "Etc/GMT", "Etc/GMT0", "Etc/GMT+0", "Etc/GMT-0",
      "Etc/Greenwich", "Etc/UCT", "Etc/UTC", "Etc/Universal",
      "Etc/Zulu"].map (fun name => (name, 0)) ++
    [("EST", -5), ("MST", -7), ("HST", -10)] ++
    (List.range 12).map (fun (hours : Nat) =>
      ("Etc/GMT+" ++ toString (hours + 1), -(hours : Int) - 1)) ++
    (List.range 14).map fun (hours : Nat) =>
      ("Etc/GMT-" ++ toString (hours + 1), (hours : Int) + 1)

/-- The names of the zones with a history. -/
def eraNames : List (String × List Era) :=
  [("America/New_York", ZoneTable.newYorkEras),
    ("US/Eastern", ZoneTable.newYorkEras),
    ("America/Sao_Paulo", ZoneTable.saoPauloEras),
    ("Brazil/East", ZoneTable.saoPauloEras),
    ("Asia/Kathmandu", ZoneTable.kathmanduEras),
    ("Asia/Katmandu", ZoneTable.kathmanduEras),
    ("Asia/Kolkata", ZoneTable.kolkataEras),
    ("Asia/Calcutta", ZoneTable.kolkataEras),
    ("Asia/Tokyo", ZoneTable.tokyoEras),
    ("Japan", ZoneTable.tokyoEras),
    ("Australia/Lord_Howe", ZoneTable.lordHoweEras),
    ("Australia/LHI", ZoneTable.lordHoweEras),
    ("Europe/Berlin", ZoneTable.berlinEras),
    ("Europe/London", ZoneTable.londonEras),
    ("Europe/Belfast", ZoneTable.londonEras),
    ("GB", ZoneTable.londonEras),
    ("GB-Eire", ZoneTable.londonEras),
    ("Pacific/Apia", ZoneTable.apiaEras)]

/-- The spans of the zone with a name. -/
def spansNamed? (name : String) : Option (List Span) :=
  match constantNames.lookup name with
  | some hours => some [⟨none, hours * 3600⟩]
  | none => (eraNames.lookup name).map spansOf

/-- Recognise the name of the common time line in any letter case. -/
def isUtcName (text : List Char) : Bool :=
  text.map Char.toLower == "utc".toList

/-- Read a zone: the name of the common time line, an offset, or the name of a
zone. -/
def read (text : String) : Except Error Zone :=
  let chars := Text.trimChars text.toList
  let trimmed := String.ofList chars
  if isUtcName chars || chars == ['Z'] then .ok .utc
  else if chars.head? == some '+' || chars.head? == some '-' then
    match Offset.read? chars with
    | some offset => .ok (.fixed offset)
    | none => .error (.literal .dateTime trimmed (.offset trimmed))
  else
    match spansNamed? trimmed with
    | some spans => .ok (.named trimmed spans)
    | none => .error (.literal .timezone trimmed (.zone trimmed))

/-- Write a zone. -/
def text : Zone → String
  | .utc => "UTC"
  | .fixed offset => offset.text
  | .named name _ => name

/-- The offset of a zone while its clocks show a second, if they ever do. -/
def offsetAt? (zone : Zone) (second : Int) : Option Int :=
  match zone with
  | .utc => some 0
  | .fixed offset => some offset.seconds
  | .named _ spans => XmlRecords.offsetAt? second spans

end Zone

end XmlRecords
