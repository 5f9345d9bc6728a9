import ClauseTree.Dialect

/-!
# Identifiers

An identifier is given as one text: a name of segments joined by dots, and perhaps an
alias after the word `as` between blanks, in any letter case. Blanks around the whole and
around either side do not count. The first such word separates the two sides, so the name
holds no further one, while an alias may.
-/

namespace ClauseTree

/-- A name and perhaps an alias, both cut at their dots. -/
structure Identifier where
  name : List (List Char)
  alias? : Option (List (List Char))
  deriving DecidableEq, Repr

namespace Identifier

/-- The rest of a text that starts with the word `as` between two blanks. -/
def afterAs? : List Char → Option (List Char)
  | ' ' :: a :: s :: ' ' :: rest =>
    if Text.lowerAscii a = 'a' && Text.lowerAscii s = 's' then some rest else none
  | _ => none

/-- What stands before and after the first word `as` between blanks. -/
def splitAlias? : List Char → Option (List Char × List Char)
  | [] => none
  | c :: cs =>
    match afterAs? (c :: cs) with
    | some rest => some ([], rest)
    | none => (splitAlias? cs).map fun (before, after) => (c :: before, after)

def segments : List Char → List (List Char)
  | [] => [[]]
  | c :: cs =>
    if c = '.' then [] :: segments cs
    else match segments cs with
      | [] => [[c]]
      | s :: ss => (c :: s) :: ss

theorem segments_ne_nil (cs : List Char) : segments cs ≠ [] := by
  fun_induction segments cs <;> simp

/-- The two sides and the word between them make up the whole text. -/
theorem eq_of_splitAlias? {cs before after : List Char}
    (h : splitAlias? cs = some (before, after)) :
    ∃ a s, Text.lowerAscii a = 'a' ∧ Text.lowerAscii s = 's' ∧
      cs = before ++ ' ' :: a :: s :: ' ' :: after := by
  induction cs generalizing before with
  | nil => simp [splitAlias?] at h
  | cons c cs ih =>
    rw [splitAlias?] at h
    split at h
    · next rest hrest =>
      obtain ⟨rfl, rfl⟩ := Prod.mk.inj (Option.some.inj h)
      unfold afterAs? at hrest
      split at hrest
      · next a s r hcs =>
        split at hrest
        · next hw =>
          simp only [Bool.and_eq_true, decide_eq_true_eq] at hw
          exact ⟨a, s, hw.1, hw.2, by rw [hcs, ← Option.some.inj hrest]; rfl⟩
        · simp at hrest
      · simp at hrest
    · obtain ⟨⟨b, a'⟩, hb, hp⟩ := Option.map_eq_some_iff.1 h
      obtain ⟨rfl, rfl⟩ := Prod.mk.inj hp
      obtain ⟨a, s, ha, hs, rfl⟩ := ih hb
      exact ⟨a, s, ha, hs, rfl⟩

def ofChars (cs : List Char) : Identifier :=
  let cs := Text.trim cs
  match splitAlias? cs with
  | some (name, other) => ⟨segments (Text.trim name), some (segments (Text.trim other))⟩
  | none => ⟨segments cs, none⟩

theorem mem_of_mem_segments {cs s : List Char} {c : Char} (hs : s ∈ segments cs) (hc : c ∈ s) :
    c ∈ cs := by
  induction cs generalizing s with
  | nil =>
    rw [segments, List.mem_singleton] at hs
    rw [hs] at hc
    cases hc
  | cons d ds ih =>
    rw [segments] at hs
    split at hs
    · rcases List.mem_cons.1 hs with rfl | hs
      · cases hc
      · exact List.mem_cons_of_mem d (ih hs hc)
    · split at hs
      · next hnil => exact absurd hnil (segments_ne_nil ds)
      · next t ts hts =>
        rcases List.mem_cons.1 hs with rfl | hs
        · rcases List.mem_cons.1 hc with rfl | hc
          · exact List.mem_cons_self
          · exact List.mem_cons_of_mem d (ih (hts ▸ List.mem_cons_self) hc)
        · exact List.mem_cons_of_mem d (ih (hts ▸ List.mem_cons_of_mem t hs) hc)

/-- The segments of an identifier are made of characters of its text. -/
theorem mem_of_mem_ofChars {cs s : List Char} {c : Char}
    (hs : s ∈ (ofChars cs).name ++ (ofChars cs).alias?.getD []) (hc : c ∈ s) : c ∈ cs := by
  refine Text.mem_of_mem_trim ?_
  rw [ofChars] at hs
  cases hsplit : splitAlias? (Text.trim cs) with
  | none =>
    simp only [hsplit, Option.getD_none, List.append_nil] at hs
    exact mem_of_mem_segments hs hc
  | some sides =>
    obtain ⟨name, other⟩ := sides
    obtain ⟨a, b, -, -, heq⟩ := eq_of_splitAlias? hsplit
    simp only [hsplit, Option.getD_some, List.mem_append] at hs
    rw [heq]
    rcases hs with hs | hs
    · have hname : c ∈ name := Text.mem_of_mem_trim (mem_of_mem_segments hs hc)
      exact List.mem_append_left _ hname
    · have hother : c ∈ other := Text.mem_of_mem_trim (mem_of_mem_segments hs hc)
      simp [hother]

def dotted (d : Dialect) : List (List Char) → List Char
  | [] => []
  | [s] => d.quoteSegment s
  | s :: ss => d.quoteSegment s ++ '.' :: dotted d ss

def chars (d : Dialect) (i : Identifier) : List Char :=
  dotted d i.name ++ i.alias?.elim [] fun a => ' ' :: 'a' :: 's' :: ' ' :: dotted d a

end Identifier

/-- The text that a dialect writes for the identifier that a text spells. -/
def Dialect.wrap (d : Dialect) (identifier : String) : String :=
  String.ofList ((Identifier.ofChars identifier.toList).chars d)

/-- The text of a table name in a schema, as one identifier. -/
def qualified (schema : Option String) (table : String) : String :=
  schema.elim table fun s => s ++ "." ++ table

end ClauseTree
