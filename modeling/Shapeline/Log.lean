import Shapeline.Dictionary
import Shapeline.Log.Template
import Shapeline.Text.Lines

/-!
# Logs

A record tells at a level what happened, with further values by name. A sink takes the records from
a certain level on and writes each of them either as a line of text or as an entry with named
fields, which is also shown on the console. The time and the place in the program that a line can be
marked with are left to whoever prints it.

The mark of a sink is a part of the template of its lines, so it may hold markup and fields itself.
A mark with which the template cannot be read makes the sink unusable, and a record that lacks a
field of the mark is not written.
-/

namespace Shapeline

/-- The weight of a record. -/
inductive LogLevel
  | trace
  | debug
  | info
  | success
  | warning
  | error
  | critical
  deriving DecidableEq

namespace LogLevel

/-- All levels in ascending order. -/
def all : List LogLevel := [trace, debug, info, success, warning, error, critical]

/-- The weight of a level as a number. -/
def severity : LogLevel → Nat
  | trace => 5
  | debug => 10
  | info => 20
  | success => 25
  | warning => 30
  | error => 40
  | critical => 50

/-- A level as it is written among the settings. -/
def word : LogLevel → String
  | trace => "trace"
  | debug => "debug"
  | info => "info"
  | success => "success"
  | warning => "warning"
  | error => "error"
  | critical => "critical"

/-- A level as it is written in a record. -/
def name (level : LogLevel) : String := level.word.toUpper

/-- The level that is written in a certain way among the settings. -/
def ofWord? (word : String) : Option LogLevel := all.find? (·.word = word)

/-- The level that is written in a certain way in a record. -/
def ofName? (name : String) : Option LogLevel := all.find? (·.name = name)

end LogLevel

/-- Something that happened. -/
structure LogRecord where
  /-- The level. -/
  level : LogLevel
  /-- What happened. -/
  message : String
  /-- Further values by name. -/
  extra : Dictionary Setting := .empty

namespace LogRecord

/-- The further values that have fields of their own in an entry. -/
def ownFields : List String := ["tag", "model"]

/-- The fields of a record: level, message, the further values that have fields of their own and,
under one name, the others if there are any. -/
def entry (record : LogRecord) : Dictionary Setting :=
  let own := ownFields.filterMap fun name => (record.extra.get? name).map (name, ·)
  let others := record.extra.entries.filter fun (name, _) => !ownFields.contains name
  let nested :=
    if others.isEmpty then []
    else [("extra", .mapping (others.map fun (name, value) => (.text name, value)))]
  .ofList ([("level", .text record.level.name), ("message", .text record.message)] ++ own ++ nested)

/-- What the fields of a line can refer to: the level, what happened, and the further values, each
by its name in square brackets or all of them together. -/
def value? (record : LogRecord) (name : String) : Option Setting :=
  let extra := record.extra.entries.map fun (key, value) => (Setting.text key, value)
  match name with
  | "level" | "level.name" => some (.text record.level.name)
  | "level.no" => some (.int record.level.severity)
  | "message" => some (.text record.message)
  | "exception" => some (.text "")
  | "extra" => some (.mapping extra)
  | name => record.extra.entries.findSome? fun (key, value) =>
    if name = "extra[" ++ key ++ "]" then some value else none

end LogRecord

/-- What a sink writes for a record. -/
inductive LogLine
  /-- The lines of a text, without the time at the start of the first. -/
  | text (lines : List String)
  /-- An entry with its fields. -/
  | entry (fields : Dictionary Setting)

/-- Where records go. -/
structure LogSink where
  /-- The least level that is written. -/
  level : LogLevel
  /-- A mark for all records; an empty one counts as none. -/
  tag : Option String := none
  /-- Whether entries are written instead of lines of text. -/
  entries : Bool := false

namespace LogSink

/-- The mark for all records, if there is one. -/
def mark? (sink : LogSink) : Option String := sink.tag.filter (· != "")

/-- The sequence that ends bold print on a terminal. -/
def endBold : String := "\x1b[22m"

/-- The sequence that ends all markup on a terminal. -/
def endMarkup : String := "\x1b[0m"

/-- The form of a line behind the time: the level, then the message with the mark in front. -/
def form (sink : LogSink) : String :=
  let mark := (sink.mark?.map fun tag => "[" ++ tag ++ "] ").getD ""
  " <level>\x7blevel: >7\x7d</level> <level>" ++ endBold ++ mark ++ "\x7bmessage\x7d" ++
    endMarkup ++ "</level>"

/-- A record with the mark among its values; a mark that the record brings itself stays. -/
def marked (sink : LogSink) (record : LogRecord) : LogRecord :=
  match sink.mark? with
  | some tag => { record with extra := .ofList (("tag", .text tag) :: record.extra.entries) }
  | none => record

/-- The records that a sink takes. -/
def taken (sink : LogSink) (records : List LogRecord) : List LogRecord :=
  records.filter fun record => decide (sink.level.severity ≤ record.level.severity)

/-- What a sink writes for a sequence of records, if it can be used. -/
def writeAll? (sink : LogSink) (records : List LogRecord) : Option (List LogLine) :=
  if sink.entries then
    some ((sink.taken records).map fun record => .entry (sink.marked record).entry)
  else
    (Template.ofText? sink.form).map fun template =>
      (sink.taken records).filterMap fun record =>
        (template.line? record.value?).map fun text => .text (Text.lines text)

end LogSink

/-- What has been logged. -/
structure LogOutput where
  /-- What the log file holds. -/
  file : List LogLine := []
  /-- The entries shown on the console. -/
  console : List LogLine := []

/-- Log a sequence of records through a sink that can be used, either behind what the file holds or
in its place. -/
def LogOutput.extend? (output : LogOutput) (sink : LogSink) (append : Bool)
    (records : List LogRecord) : Option LogOutput := do
  let written ← sink.writeAll? records
  some {
    file := (if append then output.file else []) ++ written
    console := output.console ++ (if sink.entries then written else []) }

end Shapeline
