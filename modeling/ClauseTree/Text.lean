/-!
# Characters and texts

Two things about text are not those of core. A character is blank if it has the Unicode property
White_Space, a closed list of 25 characters that is larger than core's `Char.isWhitespace`. `trim`
takes the blanks off both ends of a text and leaves those inside alone.

There are two ways to ignore letter case. `lowerAscii` changes the letters `A` to `Z` only. `lower`
is the lower case of Unicode as far as it can end in ASCII: beside `A` to `Z` that is one character,
the Kelvin sign. Every other character is left as it is, so a text that is to be compared with words
in ASCII compares as its full lower case would.
-/

namespace ClauseTree.Text

/-! ## Blanks -/

/-- The first and last code point of each run of characters with the property White_Space. -/
def blankRanges : List (Nat × Nat) :=
  [(0x09, 0x0D), (0x20, 0x20), (0x85, 0x85), (0xA0, 0xA0), (0x1680, 0x1680),
   (0x2000, 0x200A), (0x2028, 0x2029), (0x202F, 0x202F), (0x205F, 0x205F), (0x3000, 0x3000)]

def isBlank (c : Char) : Bool :=
  blankRanges.any fun r => r.1 ≤ c.toNat && c.toNat ≤ r.2

def trimLeft (s : List Char) : List Char := s.dropWhile isBlank

def trimRight (s : List Char) : List Char := (trimLeft s.reverse).reverse

def trim (s : List Char) : List Char := trimRight (trimLeft s)

@[simp] theorem trim_nil : trim [] = [] := rfl

theorem mem_of_mem_trimLeft {c : Char} {s : List Char} (h : c ∈ trimLeft s) : c ∈ s :=
  (List.dropWhile_suffix isBlank).mem h

theorem mem_of_mem_trimRight {c : Char} {s : List Char} (h : c ∈ trimRight s) : c ∈ s := by
  rw [trimRight, List.mem_reverse] at h
  exact List.mem_reverse.1 (mem_of_mem_trimLeft h)

theorem mem_of_mem_trim {c : Char} {s : List Char} (h : c ∈ trim s) : c ∈ s :=
  mem_of_mem_trimLeft (mem_of_mem_trimRight h)

/-! ## Letter case -/

def lowerAscii (c : Char) : Char := c.toLower

/-- The lower case of a character where that is an ASCII letter. A letter whose lower case is none
stays as it is, which only a comparison with words outside ASCII can tell from the lower case of
Unicode. -/
def lower (c : Char) : Char := if c = '\u212A' then 'k' else c.toLower

end ClauseTree.Text
