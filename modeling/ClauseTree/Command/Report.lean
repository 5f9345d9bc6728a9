import ClauseTree.Command.Options
import ClauseTree.Document.Statement

/-!
# What the command answers

The whole answer of the command as a value: its exit code and what it writes on its two
outputs. It depends on the options, on the bytes of the input and on nothing else.

While it works the command logs what it does. Warnings are always shown, the rest only if
the options ask for it. A log line is the level, what happened, and the details as
`field=value`.
-/

namespace ClauseTree

namespace StatementKind

def word : StatementKind → String
  | .select => "select"
  | .update => "update"

end StatementKind

inductive Event where
  | readingFile (file : String)
  | readingInput
  | advised (a : Advisory)
  | compiled (kind : StatementKind) (sql : String)
  | undefinedInWhere (sql : String)
  deriving DecidableEq, Repr

namespace Event

def isWarning : Event → Bool
  | .advised _ | .undefinedInWhere _ => true
  | _ => false

def message : Event → String
  | .readingFile file => "Reading clause tree path=" ++ file
  | .readingInput => "Reading clause tree from stdin"
  | .advised a => a.message
  | .compiled kind sql => "Compiled " ++ kind.word ++ " sql=" ++ sql
  | .undefinedInWhere sql => "Undefined value in where clause sql=" ++ sql

def line (e : Event) : String := (if e.isWarning then " WARN " else "DEBUG ") ++ e.message ++ "\n"

end Event

/-- What is noted of a query before its clauses are compiled. An update that lacks its table
or its assignments does not get that far. -/
def notedEvents (d : Dialect) (kind : StatementKind) (q : Query) : List Event :=
  if kind = .update && (q.table.isNone || q.update.isEmpty) then []
  else (d.advisories q).map .advised

def compiledEvents (kind : StatementKind) (s : Statement) : List Event :=
  .compiled kind s.sql :: if s.undefinedInWhere then [.undefinedInWhere s.sql] else []

structure Report where
  code : UInt32
  stdout : String
  stderr : String
  deriving DecidableEq, Repr

namespace Report

def usage : Report :=
  ⟨2, "", "usage: [-i FILE] [--strict] [--inline] [-v] select|update\n"⟩

def logText (o : Options) (events : List Event) : String :=
  String.join ((events.filter fun e => o.verbose || e.isWarning).map Event.line)

def failed (o : Options) (events : List Event) (message : String) : Report :=
  ⟨1, "", logText o events ++ "Error: " ++ message ++ "\n"⟩

def shown (o : Options) (events : List Event) (text : String) : Report :=
  ⟨0, text ++ "\n", logText o events⟩

def readingEvent (o : Options) : Event :=
  match o.input with
  | some file => .readingFile file
  | none => .readingInput

def readingFailure (o : Options) : String :=
  "Failed to read " ++ o.input.getD "stdin"

def ofText (o : Options) (kind : StatementKind) (text : String) : Report :=
  let d := Dialect.clickhouse
  let reading := readingEvent o
  match Query.parse text with
  | .error e => failed o [reading] e.message
  | .ok q =>
    let noted := reading :: notedEvents d kind q
    match d.compile kind q with
    | .error e => failed o noted e.message
    | .ok s =>
      let events := noted ++ compiledEvents kind s
      match s.check o.strict with
      | .error e => failed o events e.message
      | .ok s =>
        match s.render o.inline with
        | .error message => failed o events message
        | .ok text => shown o events text

/-- The answer to the bytes of the input, if it could be read. They have to be text. -/
def ofBytes (o : Options) (kind : StatementKind) (bytes : Option ByteArray) : Report :=
  match bytes.bind String.fromUTF8? with
  | some text => ofText o kind text
  | none => failed o [readingEvent o] (readingFailure o)

end Report

end ClauseTree
