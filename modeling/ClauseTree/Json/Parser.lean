import ClauseTree.Json.Basic
import ClauseTree.Decimal.Nearest

/-!
# Reading JSON text

`Json.parse` reads one JSON value and nothing after it but blanks. The grammar is followed
to the letter: no comments, no trailing commas, no leading zeros, no control characters in
text. Each reader returns the value it found and the rest of the text.

Reading keeps apart what is not JSON (`none`) and what is JSON without content
(`Json.unreadable`): a number beyond the doubles, text with an unpaired surrogate, and an
object one of whose names is such a text.
-/

namespace ClauseTree.Json.Parser

/-- Space, tab and the two line ends may stand between the parts of a value. -/
def isSpace (c : Char) : Bool := c = ' ' || c = '\t' || c = '\n' || c = '\r'

def skipSpace (s : List Char) : List Char := s.dropWhile isSpace

def hexDigit? (c : Char) : Option Nat :=
  if '0' ≤ c && c ≤ '9' then some (c.toNat - 48)
  else if 'a' ≤ c && c ≤ 'f' then some (c.toNat - 87)
  else if 'A' ≤ c && c ≤ 'F' then some (c.toNat - 55)
  else none

def hex4? (a b c d : Char) : Option Nat := do
  return 4096 * (← hexDigit? a) + 256 * (← hexDigit? b) + 16 * (← hexDigit? c) + (← hexDigit? d)

/-- One element of a quoted text: a character, or a code of four hexadecimal digits. -/
inductive Element
  | char (c : Char)
  | code (n : Nat)
  deriving DecidableEq, Repr

/-- The character that a backslash and `c` stand for. -/
def escaped? : Char → Option Char
  | '"' => some '"'
  | '\\' => some '\\'
  | '/' => some '/'
  | 'b' => some '\x08'
  | 'f' => some '\x0c'
  | 'n' => some '\n'
  | 'r' => some '\r'
  | 't' => some '\t'
  | _ => none

/-- The elements of a quoted text after its opening quote, and the rest after the closing one. -/
def elements : List Char → Option (List Element × List Char)
  | [] => none
  | '"' :: r => some ([], r)
  | '\\' :: 'u' :: a :: b :: c :: d :: r => do
    let code ← hex4? a b c d
    let (es, rest) ← elements r
    return (.code code :: es, rest)
  | '\\' :: c :: r => do
    let c ← escaped? c
    let (es, rest) ← elements r
    return (.char c :: es, rest)
  | c :: r =>
    if c.toNat < 32 then none
    else do
      let (es, rest) ← elements r
      return (.char c :: es, rest)

/-- The code is the first half of a surrogate pair. -/
def isHigh (n : Nat) : Bool := 0xD800 ≤ n && n < 0xDC00

/-- The code is the second half of a surrogate pair. -/
def isLow (n : Nat) : Bool := 0xDC00 ≤ n && n < 0xE000

/-- The characters that the elements stand for; two halves of a pair make one character, and
a half without the other makes none. -/
def characters? : List Element → Option (List Char)
  | [] => some []
  | .char c :: es => (characters? es).map (c :: ·)
  | .code a :: .code b :: es =>
    if isHigh a && isLow b then
      (characters? es).map (Char.ofNat (0x10000 + (a - 0xD800) * 0x400 + (b - 0xDC00)) :: ·)
    else if isHigh a || isLow a then none
    else (characters? (.code b :: es)).map (Char.ofNat a :: ·)
  | .code a :: es =>
    if isHigh a || isLow a then none else (characters? es).map (Char.ofNat a :: ·)

/-- A quoted text after its opening quote, if it has content, and the rest. -/
def text (s : List Char) : Option (Option String × List Char) := do
  let (es, rest) ← elements s
  return ((characters? es).map String.ofList, rest)

/-- The number that a list of decimal digits spells. -/
def ofDigits (ds : List Char) : Nat := ds.foldl (fun n c => 10 * n + (c.toNat - 48)) 0

def digits (s : List Char) : List Char × List Char :=
  (s.takeWhile Char.isDigit, s.dropWhile Char.isDigit)

/-- The digits of the whole part: a zero, or digits that do not start with one. -/
def whole : List Char → Option (List Char × List Char)
  | '0' :: r => some (['0'], r)
  | s => match digits s with
    | ([], _) => none
    | (ds, r) => some (ds, r)

/-- The digits after a point, or nothing where there is no point. -/
def fraction : List Char → Option (Option (List Char) × List Char)
  | '.' :: r => match digits r with
    | ([], _) => none
    | (ds, r) => some (some ds, r)
  | s => some (none, s)

/-- A signed power of ten after its letter. -/
def signedDigits (s : List Char) : Option (Int × List Char) :=
  let (negative, s) := match s with
    | '-' :: r => (true, r)
    | '+' :: r => (false, r)
    | _ => (false, s)
  match digits s with
  | ([], _) => none
  | (ds, r) => some (if negative then -(ofDigits ds : Int) else ofDigits ds, r)

/-- The power of ten at the end of a number, or nothing where there is none. -/
def power : List Char → Option (Option Int × List Char)
  | 'e' :: r => (signedDigits r).map fun (n, r) => (some n, r)
  | 'E' :: r => (signedDigits r).map fun (n, r) => (some n, r)
  | s => some (none, s)

/-- The double nearest to a decimal, as a value. -/
def realOf (negative : Bool) (significand : Nat) (exponent : Int) : Json :=
  match Decimal.nearest? negative significand exponent with
  | some x => .real x
  | none => .unreadable

/-- The value of a whole number: exact within the range of 64-bit words, signed for the
negative ones. A negative zero is a double, because no integer tells it from zero. -/
def wholeNumber (negative : Bool) (n : Nat) : Json :=
  if negative then
    if 0 < n && n ≤ Nat.pow 2 63 then .int (-n) else realOf true n 0
  else
    if n < Nat.pow 2 64 then .int n else realOf false n 0

/-- The value of a number from its parts. -/
def numberOf (negative : Bool) (ds : List Char) : Option (List Char) → Option Int → Json
  | none, none => wholeNumber negative (ofDigits ds)
  | frac, exp =>
    let after := frac.getD []
    realOf negative (ofDigits (ds ++ after)) (exp.getD 0 - after.length)

def unsigned (negative : Bool) (s : List Char) : Option (Json × List Char) := do
  let (ds, s) ← whole s
  let (frac, s) ← fraction s
  let (exp, s) ← power s
  return (numberOf negative ds frac exp, s)

def number : List Char → Option (Json × List Char)
  | '-' :: r => unsigned true r
  | s => unsigned false s

def objectOf (fields : List (Option String × Json)) : Json :=
  match fields.mapM fun (name, j) => name.map fun n => (n, j) with
  | some fs => .object fs
  | none => .unreadable

mutual

/-- A value. The first argument bounds the number of nested calls. -/
def value : Nat → List Char → Option (Json × List Char)
  | 0, _ => none
  | fuel + 1, s => match s with
    | 'n' :: 'u' :: 'l' :: 'l' :: r => some (.null, r)
    | 't' :: 'r' :: 'u' :: 'e' :: r => some (.bool true, r)
    | 'f' :: 'a' :: 'l' :: 's' :: 'e' :: r => some (.bool false, r)
    | '"' :: r => (text r).map fun (t, r) => (t.elim .unreadable .string, r)
    | '[' :: r => match skipSpace r with
      | ']' :: r => some (.array [], r)
      | r => (items fuel r).map fun (js, r) => (.array js, r)
    | '\x7b' :: r => match skipSpace r with
      | '\x7d' :: r => some (.object [], r)
      | r => (members fuel r).map fun (fs, r) => (objectOf fs, r)
    | s => number s

/-- The items of an array that is not empty, up to its closing bracket. -/
def items : Nat → List Char → Option (List Json × List Char)
  | 0, _ => none
  | fuel + 1, s => do
    let (j, r) ← value fuel s
    match skipSpace r with
    | ']' :: r => return ([j], r)
    | ',' :: r =>
      let (js, r) ← items fuel (skipSpace r)
      return (j :: js, r)
    | _ => none

/-- The fields of an object that is not empty, up to its closing brace. -/
def members : Nat → List Char → Option (List (Option String × Json) × List Char)
  | 0, _ => none
  | fuel + 1, s => match s with
    | '"' :: r => do
      let (name, r) ← text r
      match skipSpace r with
      | ':' :: r =>
        let (j, r) ← value fuel (skipSpace r)
        match skipSpace r with
        | '\x7d' :: r => return ([(name, j)], r)
        | ',' :: r =>
          let (fs, r) ← members fuel (skipSpace r)
          return ((name, j) :: fs, r)
        | _ => none
      | _ => none
    | _ => none

end

end ClauseTree.Json.Parser

namespace ClauseTree.Json

/-- The value that a text spells, if it is JSON. A nested call follows a character of its
own at least every second time, so twice the length of the text bounds their number. -/
def parse (s : String) : Option Json := do
  let cs := s.toList
  let (j, r) ← Parser.value (2 * cs.length + 2) (Parser.skipSpace cs)
  match Parser.skipSpace r with
  | [] => return j
  | _ => none

end ClauseTree.Json
