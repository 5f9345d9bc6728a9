import ClauseTree.Statement.Compile

/-!
# Options of the command

`Options.parse?` reads the arguments of the command: options first, then the kind of
statement, then nothing more. Each option stands at most once. The input takes a value, in
the next argument or in the same one; the other options take none, and their short forms
may stand together after one dash.
-/

namespace ClauseTree

structure Options where
  /-- The file that holds the document; without one it is read from the standard input. -/
  input : Option String := none
  strict : Bool := false
  inline : Bool := false
  verbose : Bool := false
  deriving DecidableEq, Inhabited, Repr

namespace Options

def setInput (o : Options) (file : String) : Option Options :=
  if o.input.isSome || file.isEmpty then none else some { o with input := some file }

def setStrict (o : Options) : Option Options :=
  if o.strict then none else some { o with strict := true }

def setInline (o : Options) : Option Options :=
  if o.inline then none else some { o with inline := true }

def setVerbose (o : Options) : Option Options :=
  if o.verbose then none else some { o with verbose := true }

/-- Options after one dash, and whether the last of them waits for its value. -/
def short? (o : Options) : List Char → Option (Options × Bool)
  | [] => some (o, false)
  | 'v' :: cs => o.setVerbose.bind fun o => short? o cs
  | ['i'] => some (o, true)
  | 'i' :: '=' :: cs => (o.setInput (String.ofList cs)).map fun o => (o, false)
  | 'i' :: cs => (o.setInput (String.ofList cs)).map fun o => (o, false)
  | _ => none

/-- An option after two dashes, and whether it waits for its value. -/
def long? (o : Options) (name : List Char) : Option (Options × Bool) :=
  match String.ofList (name.takeWhile (· ≠ '=')), name.dropWhile (· ≠ '=') with
  | "input", [] => some (o, true)
  | "input", _ :: file => (o.setInput (String.ofList file)).map fun o => (o, false)
  | "strict", [] => o.setStrict.map fun o => (o, false)
  | "inline", [] => o.setInline.map fun o => (o, false)
  | "verbose", [] => o.setVerbose.map fun o => (o, false)
  | _, _ => none

def kind? : String → Option StatementKind
  | "select" => some .select
  | "update" => some .update
  | _ => none

/-- The argument is an option and no value of one. A single dash is a value. -/
def isOption (arg : String) : Bool :=
  match arg.toList with
  | '-' :: _ :: _ => true
  | _ => false

/-- What an argument that starts with a dash sets, and whether it waits for its value. -/
def option? (o : Options) (arg : String) : Option (Options × Bool) :=
  match arg.toList with
  | '-' :: '-' :: name => o.long? name
  | '-' :: name => o.short? name
  | _ => none

/-- The options and the kind of statement that arguments ask for. `waiting` says that the
next one is the value of the input. -/
def parseFrom? (o : Options) (waiting : Bool) : List String → Option (Options × StatementKind)
  | [] => none
  | arg :: args =>
    if waiting then
      if isOption arg then none else (o.setInput arg).bind fun o => parseFrom? o false args
    else if isOption arg then
      (o.option? arg).bind fun (o, waiting) => parseFrom? o waiting args
    else if args = [] || args = ["--"] then (kind? arg).map fun k => (o, k)
    else none

/-- The options and the kind of statement that arguments ask for. The file named by the
environment is the input if the arguments name none. -/
def parse? (args : List String) (environment : Option String) : Option (Options × StatementKind) :=
  (parseFrom? {} false args).map fun (o, k) => ({ o with input := o.input <|> environment }, k)

end Options

end ClauseTree
