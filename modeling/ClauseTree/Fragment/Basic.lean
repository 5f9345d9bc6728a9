import ClauseTree.Clause.Basic
import ClauseTree.Identifier

/-!
# Fragments

A `Fragment` is a stretch of a statement before it is written for a dialect: a list of
words of the language, names, bound values and raw text. Its text and its values are two
views of the same list, so a value and its placeholder cannot part.

Fragments are put together with `++`, and both views follow it.

A `Writer` says how names are quoted and what stands for a value and for raw text. The
writer of a dialect puts its placeholder for every value.
-/

namespace ClauseTree

/-- One piece of a statement. -/
inductive Piece where
  /-- Text of the language itself: words, operators, numbers, punctuation, blanks. -/
  | word (text : String)
  /-- An identifier, to be quoted. -/
  | name (identifier : String)
  | value (v : Value)
  | raw (r : Raw)
  deriving BEq, Repr

structure Writer where
  dialect : Dialect
  /-- What stands for a value. -/
  value : Value → List Char
  /-- What stands for raw text. -/
  raw : Raw → List Char

/-- The writer of a dialect: a placeholder for every value, and raw text as it stands. -/
def Dialect.writer (d : Dialect) : Writer where
  dialect := d
  value _ := d.placeholder.toList
  raw r := r.sql.toList

@[simp] theorem Dialect.dialect_writer (d : Dialect) : d.writer.dialect = d := rfl

namespace Piece

def chars (w : Writer) : Piece → List Char
  | .word text => text.toList
  | .name identifier => (Identifier.ofChars identifier.toList).chars w.dialect
  | .value v => w.value v
  | .raw r => w.raw r

def bindings : Piece → List Value
  | .word _ => []
  | .name _ => []
  | .value v => [v]
  | .raw r => r.bindings

/-- The piece is there without any text: an empty word or empty raw text. -/
def isBlank : Piece → Bool
  | .word text => text.isEmpty
  | .name _ => false
  | .value _ => false
  | .raw r => r.sql.isEmpty

end Piece

abbrev Fragment := List Piece

namespace Fragment

def chars (w : Writer) (f : Fragment) : List Char := f.flatMap (Piece.chars w)

/-- The text of a fragment as a writer writes it. -/
def written (w : Writer) (f : Fragment) : String := String.ofList (chars w f)

/-- The text of a fragment in a dialect. -/
def text (d : Dialect) (f : Fragment) : String := written d.writer f

def bindings (f : Fragment) : List Value := f.flatMap Piece.bindings

/-- The fragment has no text. It may still carry values, in raw text that is empty. -/
def isBlank (f : Fragment) : Bool := f.all Piece.isBlank

/-- The writer writes nothing for the fragment. -/
def isEmptyBy (w : Writer) (f : Fragment) : Bool := f.all fun p => (p.chars w).isEmpty

@[simp] theorem chars_nil (w : Writer) : chars w [] = [] := rfl

@[simp] theorem chars_append (w : Writer) (f g : Fragment) :
    chars w (f ++ g) = chars w f ++ chars w g := List.flatMap_append

@[simp] theorem chars_cons (w : Writer) (p : Piece) (f : Fragment) :
    chars w (p :: f) = p.chars w ++ chars w f := rfl

@[simp] theorem bindings_nil : bindings [] = [] := rfl

@[simp] theorem bindings_append (f g : Fragment) :
    bindings (f ++ g) = bindings f ++ bindings g := List.flatMap_append

@[simp] theorem bindings_cons (p : Piece) (f : Fragment) :
    bindings (p :: f) = p.bindings ++ bindings f := rfl

@[simp] theorem isBlank_append (f g : Fragment) :
    isBlank (f ++ g) = (isBlank f && isBlank g) := List.all_append

theorem isEmptyBy_iff (w : Writer) (f : Fragment) : isEmptyBy w f = true ↔ chars w f = [] := by
  simp [isEmptyBy, chars]

/-- Fragments with a word between each two. -/
def joined (word : String) : List Fragment → Fragment
  | [] => []
  | [f] => f
  | f :: fs => f ++ .word word :: joined word fs

/-- The fragments after the first one that has text: a blank before each that has text. -/
def spacedAfter (fs : List Fragment) : Fragment :=
  fs.flatMap fun f => if isBlank f then f else .word " " :: f

/-- Fragments with a single blank between those that have text. The values of the others are
kept. -/
def spaced : List Fragment → Fragment
  | [] => []
  | f :: fs => if isBlank f then f ++ spaced fs else f ++ spacedAfter fs

/-- A fragment in parentheses. -/
def parenthesized (f : Fragment) : Fragment := .word "(" :: (f ++ [.word ")"])

/-- A natural number in decimal. -/
def number (n : Nat) : Fragment := [.word (String.ofList (Nat.toDigits 10 n))]

end Fragment

end ClauseTree
