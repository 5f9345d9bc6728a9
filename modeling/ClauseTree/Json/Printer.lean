import ClauseTree.Json.Basic
import ClauseTree.Decimal.Shortest

/-!
# Writing JSON text

`Json.compact` writes a value on one line without blanks; `Json.pretty` writes each item and
each field on a line of its own, two blanks deeper than what is around it, and leaves empty
arrays and objects closed. Both keep the order of the fields.
-/

namespace ClauseTree.Json.Printer

/-- Doubles have the fewest digits that read back, with a fraction even if they are whole. The
power of ten is written out below `0.00001` and from `1e+16` on; of two equally near
decimals the even one is taken. -/
def realLayout : Decimal.Layout where
  positional e := -5 ≤ e && e ≤ 15
  fraction := true
  tie := .toEven

def hexDigit (n : Nat) : Char := Nat.digitChar n

/-- A character inside quotes: the quote, the backslash and the characters below the blank are
escaped, the latter by a letter where there is one. -/
def escape (c : Char) : List Char :=
  if c = '"' then ['\\', '"']
  else if c = '\\' then ['\\', '\\']
  else if c = '\x08' then ['\\', 'b']
  else if c = '\x0c' then ['\\', 'f']
  else if c = '\n' then ['\\', 'n']
  else if c = '\r' then ['\\', 'r']
  else if c = '\t' then ['\\', 't']
  else if c.toNat < 32 then
    ['\\', 'u', '0', '0', hexDigit (c.toNat / 16), hexDigit (c.toNat % 16)]
  else [c]

def quoted (s : String) : List Char := '"' :: (s.toList.flatMap escape ++ ['"'])

def integer (n : Int) : List Char :=
  if n < 0 then '-' :: Nat.toDigits 10 n.natAbs else Nat.toDigits 10 n.natAbs

/-- A double; what is not finite is written as null. -/
def real (x : Float) : List Char :=
  if x.isFinite then realLayout.write x else ['n', 'u', 'l', 'l']

/-- What is written for values that hold no others. -/
def scalar : Json → List Char
  | .bool true => ['t', 'r', 'u', 'e']
  | .bool false => ['f', 'a', 'l', 's', 'e']
  | .int n => integer n
  | .real x => real x
  | .string s => quoted s
  | _ => ['n', 'u', 'l', 'l']

mutual

def compactChars : Json → List Char
  | .array [] => ['[', ']']
  | .array (j :: js) => '[' :: (compactChars j ++ compactItems js)
  | .object [] => ['\x7b', '\x7d']
  | .object ((k, j) :: fs) => '\x7b' :: (quoted k ++ ':' :: (compactChars j ++ compactFields fs))
  | j => scalar j

/-- The items after the first one, up to the closing bracket. -/
def compactItems : List Json → List Char
  | [] => [']']
  | j :: js => ',' :: (compactChars j ++ compactItems js)

def compactFields : List (String × Json) → List Char
  | [] => ['\x7d']
  | (k, j) :: fs => ',' :: (quoted k ++ ':' :: (compactChars j ++ compactFields fs))

end

/-- A line end and the blanks of the given depth. -/
def newLine (depth : Nat) : List Char := '\n' :: List.replicate (2 * depth) ' '

mutual

def prettyChars (depth : Nat) : Json → List Char
  | .array [] => ['[', ']']
  | .array (j :: js) =>
    '[' :: (newLine (depth + 1) ++ prettyChars (depth + 1) j ++ prettyItems depth js)
  | .object [] => ['\x7b', '\x7d']
  | .object ((k, j) :: fs) =>
    '\x7b' :: (newLine (depth + 1) ++ quoted k ++ ':' :: ' ' ::
      (prettyChars (depth + 1) j ++ prettyFields depth fs))
  | j => scalar j

def prettyItems (depth : Nat) : List Json → List Char
  | [] => newLine depth ++ [']']
  | j :: js => ',' :: (newLine (depth + 1) ++ prettyChars (depth + 1) j ++ prettyItems depth js)

def prettyFields (depth : Nat) : List (String × Json) → List Char
  | [] => newLine depth ++ ['\x7d']
  | (k, j) :: fs =>
    ',' :: (newLine (depth + 1) ++ quoted k ++ ':' :: ' ' ::
      (prettyChars (depth + 1) j ++ prettyFields depth fs))

end

end ClauseTree.Json.Printer

namespace ClauseTree.Json

def compact (j : Json) : String := String.ofList (Printer.compactChars j)

def pretty (j : Json) : String := String.ofList (Printer.prettyChars 0 j)

end ClauseTree.Json
