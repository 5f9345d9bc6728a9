import ClauseTree.Value.Basic
import ClauseTree.Decimal.Shortest

/-!
# Values as literals

`Value.literal` writes a value as text of the language itself. It serves logs and
debugging; a statement is run with its values bound. A text becomes one quoted literal in
which a backslash stands before each backslash and each quote, and bytes become hexadecimal
digits, so the content of a value cannot end its literal.
-/

namespace ClauseTree.Value

/-- Doubles are written without an exponent, whole ones without a fraction. Of two equally
near decimals the greater one is taken. -/
def literalLayout : Decimal.Layout where
  positional _ := true
  fraction := false
  tie := .up

/-- A double; the three values that are not finite are written as names. -/
def floatLiteral (x : Float) : List Char :=
  if x.isNaN then "NaN".toList
  else if x.isInf then if Decimal.isNegative x then "-inf".toList else "inf".toList
  else literalLayout.write x

/-- A character inside a quoted literal. -/
def escape (c : Char) : List Char :=
  if c = '\\' then ['\\', '\\'] else if c = '\x27' then ['\\', '\x27'] else [c]

def quoted (s : List Char) : List Char := '\x27' :: (s.flatMap escape ++ ['\x27'])

/-- The upper-case hexadecimal digit of a number below sixteen. -/
def hexDigit (n : Nat) : Char := (Nat.digitChar n).toUpper

def hexByte (b : UInt8) : List Char := [hexDigit (b.toNat / 16), hexDigit (b.toNat % 16)]

def integerLiteral (n : Int) : List Char :=
  if n < 0 then '-' :: Nat.toDigits 10 n.natAbs else Nat.toDigits 10 n.natAbs

def literalChars : Value → List Char
  | .null | .undefined => "NULL".toList
  | .bool true => "true".toList
  | .bool false => "false".toList
  | .int n => integerLiteral n.toInt
  | .uint n => Nat.toDigits 10 n.toNat
  | .float x => floatLiteral x
  | .text s => quoted s.toList
  | .blob bytes => "unhex(".toList ++ '\x27' :: (bytes.flatMap hexByte ++ ['\x27', ')'])

def literal (v : Value) : String := String.ofList v.literalChars

end ClauseTree.Value
