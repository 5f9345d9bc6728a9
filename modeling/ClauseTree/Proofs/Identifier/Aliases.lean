import ClauseTree.Proofs.Identifier.Splitting
import ClauseTree.Proofs.Statement.Lexing
import Mathlib.Data.Set.Subsingleton
import Mathlib.Data.String.Basic
import Mathlib.Order.Bounds.Defs

/-!
# Names and aliases

An identifier is trimmed and then cut at the first word `as`. `Dialect.wrap_single_alias` says what
becomes of it. A text that neither starts nor ends with a blank has something else on both sides of
each word, so neither side is empty. Before the first word there is no other one, so a function that
writes the name by calling itself does so once. Every later word is part of the alias, which is
between quotes but for its dots and stars.

The word is looked for in a copy in lower case and the text is cut there, at a position in bytes.
This is a position between characters of the text too, because a letter and its lower case take up
the same bytes.
-/

namespace ClauseTree

open Lexer

namespace Identifier

/-! ## Where the word stands -/

/-- The word starts at a place of the text. -/
def AsAt (cs : List Char) (n : Nat) : Prop := " as ".toList <+: (cs.map Text.lowerAscii).drop n

theorem containsAs_iff (cs : List Char) : ContainsAs cs ↔ ∃ n, AsAt cs n := by
  constructor
  · rintro ⟨x, y, h⟩
    refine ⟨x.length, y, ?_⟩
    rw [← h, List.append_assoc, List.drop_left]
  · rintro ⟨n, h⟩
    exact h.isInfix.trans (List.drop_suffix n _).isInfix

namespace AsAt

variable {cs : List Char} {n : Nat} (h : AsAt cs n)
include h

/-- The word ends before the text does. -/
theorem add_four_le_length : n + 4 ≤ cs.length := by
  have hlength := h.length_le
  rw [List.length_drop, List.length_map] at hlength
  change 4 ≤ _ at hlength
  omega

theorem append (ds : List Char) : AsAt (cs ++ ds) n := by
  have hle := h.add_four_le_length
  rw [AsAt, List.map_append, List.drop_append_of_le_length (by rw [List.length_map]; omega)]
  exact h.trans (List.prefix_append _ _)

theorem exists_getElem? {i : Nat} (hi : i < 4) :
    ∃ c, cs[n + i]? = some c ∧ " as ".toList[i]? = some (Text.lowerAscii c) := by
  have hword : ((cs.map Text.lowerAscii).drop n)[i]? = some (" as ".toList.get ⟨i, hi⟩) :=
    List.prefix_iff_getElem?.1 h i hi
  rw [List.getElem?_drop, List.getElem?_map] at hword
  obtain ⟨c, hc, hlower⟩ := Option.map_eq_some_iff.1 hword
  exact ⟨c, hc, by rw [hlower]; exact List.getElem?_eq_getElem hi⟩

/-- It starts and ends with the same blank. -/
theorem getElem?_blank : cs[n]? = some ' ' ∧ cs[n + 3]? = some ' ' := by
  obtain ⟨c, hc, hlower⟩ := h.exists_getElem? (i := 0) (by decide)
  obtain ⟨d, hd, hlower'⟩ := h.exists_getElem? (i := 3) (by decide)
  obtain rfl := Text.eq_blank_of_lowerAscii (Option.some.inj hlower).symm
  obtain rfl := Text.eq_blank_of_lowerAscii (Option.some.inj hlower').symm
  exact ⟨hc, hd⟩

/-- What stands between the two is no blank. -/
theorem isBlank_of_getElem? {i : Nat} (hi : i = 1 ∨ i = 2) {c : Char} (hc : cs[n + i]? = some c) :
    Text.isBlank c = false := by
  obtain ⟨d, hd, hlower⟩ := h.exists_getElem? (i := i) (by omega)
  obtain rfl := Option.some.inj (hc.symm.trans hd)
  rw [← Text.isBlank_lowerAscii]
  obtain rfl | rfl := hi
  · rw [← Option.some.inj hlower]
    decide
  · rw [← Option.some.inj hlower]
    decide

end AsAt

/-- The cut is made at the first word. -/
theorem isLeast_of_splitAlias? {cs before after : List Char}
    (h : splitAlias? cs = some (before, after)) : IsLeast {n | AsAt cs n} before.length := by
  induction cs generalizing before with
  | nil => simp [splitAlias?] at h
  | cons c cs ih =>
    have hzero : AsAt (c :: cs) 0 ↔ afterAs? (c :: cs) ≠ none := by
      rw [Ne, afterAs?_eq_none_iff, not_not]
      rfl
    rw [splitAlias?] at h
    cases hafter : afterAs? (c :: cs) with
    | some rest =>
      rw [hafter] at h
      obtain ⟨rfl, rfl⟩ := Prod.mk.inj (Option.some.inj h)
      exact ⟨hzero.2 (by simp [hafter]), fun n _ => Nat.zero_le n⟩
    | none =>
      rw [hafter] at h
      obtain ⟨⟨b, a⟩, hb, hp⟩ := Option.map_eq_some_iff.1 h
      obtain ⟨rfl, rfl⟩ := Prod.mk.inj hp
      obtain ⟨hplace, hleast⟩ := ih hb
      refine ⟨hplace, fun n hn => ?_⟩
      cases n with
      | zero => exact absurd hafter (hzero.1 hn)
      | succ n => exact Nat.succ_le_succ (hleast hn)

/-! ## The two sides -/

/-- The name and the alias of a text, if there is a word between them. -/
def sides? (cs : List Char) : Option (List Char × List Char) :=
  (splitAlias? cs).map fun (before, after) => (Text.trim before, Text.trim after)

/-- A text is cut at its first word. -/
structure Sides (cs name other : List Char) (n : Nat) : Prop where
  first : IsLeast {i | AsAt cs i} n
  name_ne_nil : name ≠ []
  other_ne_nil : other ≠ []
  not_containsAs : ¬ ContainsAs name
  /-- A later word is in the alias, perhaps without the blank before it. -/
  later : ∀ i, n < i → AsAt cs i → cs.drop i <:+ other ∨ cs.drop (i + 1) = other
  /-- Between the sides there is the word, and there are the blanks around it. -/
  eq : ∃ l word r, Text.Blanks l ∧ Text.Blanks r ∧ word.map Text.lowerAscii = " as ".toList ∧
    (name ++ l).length = n ∧ cs = name ++ l ++ word ++ r ++ other

theorem exists_word_of_splitAlias? {cs before after : List Char}
    (h : splitAlias? cs = some (before, after)) :
    ∃ a s, [' ', a, s, ' '].map Text.lowerAscii = " as ".toList ∧
      before ++ [' ', a, s, ' '] ++ after = cs := by
  obtain ⟨a, s, ha, hs, rfl⟩ := eq_of_splitAlias? h
  refine ⟨a, s, ?_, by simp⟩
  simp only [List.map_cons, List.map_nil, ha, hs]
  decide

theorem not_containsAs_of_isLeast {cs before rest : List Char} (hcs : before ++ rest = cs)
    (h : IsLeast {i | AsAt cs i} before.length) : ¬ ContainsAs before := by
  rw [containsAs_iff]
  rintro ⟨n, hn⟩
  have hle : before.length ≤ n := h.2 (hcs ▸ hn.append rest)
  have hlength := hn.add_four_le_length
  omega

theorem asAt_length {word : List Char} (hword : word.map Text.lowerAscii = " as ".toList)
    (before after : List Char) : AsAt (before ++ word ++ after) before.length := by
  have hlength : (before.map Text.lowerAscii).length = before.length := List.length_map _
  rw [AsAt, List.append_assoc, List.map_append, List.map_append, hword, ← hlength, List.drop_left]
  exact List.prefix_append _ _

/-- A word after the first one starts after the letters of that, at the earliest with the same
blank, and its own letters are not among the blanks that follow. -/
theorem later_of_asAt {before word r other : List Char} {i : Nat}
    (hword : word.map Text.lowerAscii = " as ".toList) (hr : Text.Blanks r)
    (hi : before.length < i) (h : AsAt (before ++ word ++ (r ++ other)) i) :
    (before ++ word ++ (r ++ other)).drop i <:+ other ∨
      (before ++ word ++ (r ++ other)).drop (i + 1) = other := by
  have hlength : (before ++ word).length = before.length + 4 := by
    have hfour := congrArg List.length hword
    rw [List.length_map] at hfour
    rw [List.length_append, hfour]
    rfl
  have hfirst := asAt_length hword before (r ++ other)
  have hletter {j : Nat} (hj : j = 1 ∨ j = 2) : i ≠ before.length + j := by
    rintro rfl
    have hblank := hfirst.isBlank_of_getElem? hj h.getElem?_blank.1
    exact absurd hblank (by decide)
  have hone := hletter (.inl rfl)
  have htwo := hletter (.inr rfl)
  obtain ⟨k, hk⟩ : ∃ k, i + 1 = (before ++ word).length + k := Nat.exists_eq_add_of_le (by omega)
  have hge : r.length ≤ k := by
    by_contra hlt
    have hget : (before ++ word ++ (r ++ other))[i + 1]? = some (r.get ⟨k, by omega⟩) := by
      rw [hk, List.getElem?_append_right (by omega), Nat.add_sub_cancel_left,
        List.getElem?_append_left (by omega)]
      exact List.getElem?_eq_getElem (by omega)
    have hblank := h.isBlank_of_getElem? (.inl rfl) hget
    rw [hr _ (List.get_mem r _)] at hblank
    cases hblank
  rcases Nat.eq_or_lt_of_le hge with rfl | hgt
  · right
    rw [hk, ← List.append_assoc, ← List.length_append, List.drop_left]
  · left
    obtain ⟨j, hj⟩ : ∃ j, i = (before ++ word ++ r).length + j :=
      Nat.exists_eq_add_of_le (by rw [List.length_append]; omega)
    rw [hj, ← List.append_assoc, List.drop_append, List.drop_eq_nil_of_le (by omega),
      List.nil_append, Nat.add_sub_cancel_left]
    exact List.drop_suffix j other

/-- A text without blanks at its ends has something else before and after each word. -/
theorem sides_of_splitAlias? {cs before after : List Char} (htrim : Text.trim cs = cs)
    (h : splitAlias? cs = some (before, after)) :
    Sides cs (Text.trim before) (Text.trim after) before.length := by
  have hfirst := isLeast_of_splitAlias? h
  have hleft : Text.trimLeft cs = cs := htrim ▸ Text.trimLeft_trim cs
  have hright : Text.trimRight cs = cs := htrim ▸ Text.trimRight_trim cs
  obtain ⟨a, s, hword, rfl⟩ := exists_word_of_splitAlias? h
  have hbefore : Text.trimLeft before = before :=
    Text.trimLeft_of_prefix ((List.prefix_append _ _).trans (List.prefix_append _ _)) hleft
  have hafter : Text.trimRight (' ' :: after) = ' ' :: after :=
    Text.trimRight_of_suffix ⟨before ++ [' ', a, s], by simp⟩ hright
  have hbefore_ne : before ≠ [] := by
    rintro rfl
    have hblank := Text.isBlank_of_trimLeft_cons hleft
    exact absurd hblank (by decide)
  -- The outer ends of the sides are those of the text, so only their inner ends can be blank.
  obtain ⟨l, hl, hl'⟩ := Text.exists_trim_append hbefore
  obtain ⟨r, hr, hr'⟩ :=
    Text.exists_append_trim (Text.trimRight_of_suffix (List.suffix_cons ' ' after) hafter)
  refine ⟨hfirst, Text.trim_ne_nil_of_trimLeft hbefore hbefore_ne, ?_, ?_, ?_, ?_⟩
  · have hblank : Text.trim (' ' :: after) = Text.trim after := rfl
    rw [← hblank]
    exact Text.trim_ne_nil_of_trimRight hafter (List.cons_ne_nil ' ' after)
  · have hnot := not_containsAs_of_isLeast (List.append_assoc ..).symm hfirst
    exact fun hcontains => hnot (hcontains.mono (Text.infix_trim before))
  · have hcs : before ++ [' ', a, s, ' '] ++ after =
        before ++ [' ', a, s, ' '] ++ (r ++ Text.trim after) := by rw [hr']
    intro i hi hlater
    rw [hcs] at hlater ⊢
    exact later_of_asAt hword hr hi hlater
  · refine ⟨l, [' ', a, s, ' '], r, hl, hr, hword, by rw [hl'], ?_⟩
    rw [hl', List.append_assoc _ r, hr']

theorem sides?_eq_none_iff (cs : List Char) : sides? cs = none ↔ ¬ ContainsAs cs := by
  rw [sides?, Option.map_eq_none_iff, splitAlias?_eq_none_iff]

theorem exists_split_of_sides? {cs name other : List Char} (h : sides? cs = some (name, other)) :
    ∃ before after, splitAlias? cs = some (before, after) ∧ Text.trim before = name ∧
      Text.trim after = other := by
  obtain ⟨⟨before, after⟩, hsplit, hp⟩ := Option.map_eq_some_iff.1 h
  obtain ⟨hname, hother⟩ := Prod.mk.inj hp
  exact ⟨before, after, hsplit, hname, hother⟩

/-! ## The cut in bytes -/

/-- A word is found in a text behind the bytes of what stands before it. -/
def FoundAt (word s : String) (p : String.Pos.Raw) : Prop :=
  ∃ before after, s = before ++ word ++ after ∧ p = before.rawEndPos

/-- A text is cut where the word is first found in its copy in lower case. The two ends of the word
are ends of characters of the text itself. -/
structure ByteCut (s : String) (name other : List Char) (p : String.Pos.Raw) : Prop where
  found : IsLeast {q | FoundAt " as " (String.ofList (s.toList.map Text.lowerAscii)) q} p
  isValid : p.IsValid s
  isValid_end : (p + " as ").IsValid s
  name_eq : name = Text.trim (String.Pos.Raw.extract s 0 p).toList
  other_eq : other = Text.trim (String.Pos.Raw.extract s (p + " as ") s.rawEndPos).toList

theorem utf8Len_map_lowerAscii (cs : List Char) :
    String.utf8Len (cs.map Text.lowerAscii) = String.utf8Len cs := by
  induction cs with
  | nil => rfl
  | cons c cs ih => rw [List.map_cons, String.utf8Len_cons, String.utf8Len_cons, ih,
      Text.utf8Size_lowerAscii]

section Bytes

variable {before word after : List Char} (hword : word.map Text.lowerAscii = " as ".toList)
include hword

/-- The first place in characters is the first one in bytes. -/
theorem isLeast_foundAt (h : IsLeast {n | AsAt (before ++ word ++ after) n} before.length) :
    IsLeast {p | FoundAt " as "
      (String.ofList ((before ++ word ++ after).map Text.lowerAscii)) p}
      ⟨String.utf8Len before⟩ := by
  constructor
  · refine ⟨String.ofList (before.map Text.lowerAscii), String.ofList (after.map Text.lowerAscii),
      ?_, ?_⟩
    · rw [List.map_append, List.map_append, hword, String.ofList_append, String.ofList_append,
        String.ofList_toList]
    · rw [String.rawEndPos_ofList, utf8Len_map_lowerAscii]
  · rintro p ⟨x, y, hs, rfl⟩
    have hcs : (before ++ word ++ after).map Text.lowerAscii =
        x.toList ++ (" as ".toList ++ y.toList) := by
      rw [← List.append_assoc, ← String.toList_append, ← String.toList_append, ← hs,
        String.toList_ofList]
    have hplace : AsAt (before ++ word ++ after) x.toList.length := by
      rw [AsAt, hcs, List.drop_left]
      exact List.prefix_append _ _
    have hx : before.map Text.lowerAscii <+: x.toList := by
      refine List.prefix_of_prefix_length_le ?_ (hcs ▸ List.prefix_append _ _) ?_
      · rw [List.append_assoc, List.map_append]
        exact List.prefix_append _ _
      · rw [List.length_map]
        exact h.2 hplace
    have hend : x.rawEndPos = ⟨String.utf8Len x.toList⟩ := by
      rw [← String.rawEndPos_ofList, String.ofList_toList]
    rw [hend, ← utf8Len_map_lowerAscii before]
    exact String.utf8Len_le_of_prefix hx

theorem byteCut_of_isLeast (h : IsLeast {n | AsAt (before ++ word ++ after) n} before.length) :
    ByteCut (String.ofList (before ++ word ++ after)) (Text.trim before) (Text.trim after)
      ⟨String.utf8Len before⟩ := by
  have hend : (⟨String.utf8Len before⟩ : String.Pos.Raw) + " as " =
      ⟨String.utf8Len (before ++ word)⟩ := by
    rw [String.utf8Len_append, ← utf8Len_map_lowerAscii word, hword]
    rfl
  have hvalid (x y : List Char) :
      String.Pos.Raw.IsValid (String.ofList (x ++ y)) ⟨String.utf8Len x⟩ :=
    String.Pos.Raw.isValid_iff_exists_append.2
      ⟨_, _, String.ofList_append, (String.rawEndPos_ofList x).symm⟩
  have hbefore : String.Pos.Raw.extract (String.ofList (before ++ word ++ after)) 0
      ⟨String.utf8Len before⟩ = String.ofList before := by
    have hextract := String.extract_of_valid [] before (word ++ after)
    rw [List.nil_append, ← List.append_assoc, String.utf8Len_nil, Nat.zero_add] at hextract
    exact hextract
  have hafter := String.extract_of_valid (before ++ word) after []
  rw [List.append_nil, ← String.utf8Len_append] at hafter
  refine ⟨?_, ?_, ?_, ?_, ?_⟩
  · rw [String.toList_ofList]
    exact isLeast_foundAt hword h
  · rw [List.append_assoc]
    exact hvalid before (word ++ after)
  · rw [hend]
    exact hvalid (before ++ word) after
  · rw [hbefore, String.toList_ofList]
  · rw [hend, String.rawEndPos_ofList, hafter, String.toList_ofList]

end Bytes

/-- A text without blanks at its ends is cut at its first word, at a place in characters that is one
in bytes too. -/
theorem sides_of_sides? {cs name other : List Char} (htrim : Text.trim cs = cs)
    (h : sides? cs = some (name, other)) :
    ∃ n, Sides cs name other n ∧
      ByteCut (String.ofList cs) name other (String.ofList (cs.take n)).rawEndPos := by
  obtain ⟨before, after, hsplit, rfl, rfl⟩ := exists_split_of_sides? h
  have hfirst := isLeast_of_splitAlias? hsplit
  refine ⟨_, sides_of_splitAlias? htrim hsplit, ?_⟩
  obtain ⟨a, s, hword, rfl⟩ := exists_word_of_splitAlias? hsplit
  rw [List.append_assoc, List.take_left, String.rawEndPos_ofList, ← List.append_assoc]
  exact byteCut_of_isLeast hword hfirst

/-! ## The recursion -/

/-- The text of an identifier, written by a function that calls itself for the name before a word,
with at most so many calls. -/
def wrapWithin? (d : Dialect) : Nat → List Char → Option (List Char)
  | 0, _ => none
  | n + 1, cs =>
    match sides? (Text.trim cs) with
    | some (name, other) => (wrapWithin? d n name).map fun written =>
        written ++ ' ' :: 'a' :: 's' :: ' ' :: dotted d (segments other)
    | none => some (dotted d (segments (Text.trim cs)))

theorem ofChars_of_sides? {cs name other : List Char}
    (h : sides? (Text.trim cs) = some (name, other)) :
    ofChars cs = ⟨segments name, some (segments other)⟩ := by
  obtain ⟨before, after, hsplit, rfl, rfl⟩ := exists_split_of_sides? h
  rw [ofChars, hsplit]

theorem ofChars_of_sides?_eq_none {cs : List Char} (h : sides? (Text.trim cs) = none) :
    ofChars cs = ⟨segments (Text.trim cs), none⟩ := by
  rw [ofChars, Option.map_eq_none_iff.1 h]

/-- A name that is left of a word is written without another call. -/
theorem wrapWithin?_name (d : Dialect) {cs name other : List Char}
    (h : sides? (Text.trim cs) = some (name, other)) (n : Nat) :
    wrapWithin? d (n + 1) name = some (dotted d (segments name)) := by
  obtain ⟨m, hsides, -⟩ := sides_of_sides? (Text.trim_trim cs) h
  obtain ⟨before, after, -, rfl, rfl⟩ := exists_split_of_sides? h
  have hnone := (sides?_eq_none_iff _).2 hsides.not_containsAs
  rw [wrapWithin?, Text.trim_trim, hnone]

/-- Two calls are enough for every identifier. -/
theorem wrapWithin?_eq (d : Dialect) (n : Nat) (cs : List Char) :
    wrapWithin? d (n + 2) cs = some ((ofChars cs).chars d) := by
  rw [wrapWithin?, chars]
  cases h : sides? (Text.trim cs) with
  | none =>
    rw [ofChars_of_sides?_eq_none h, Option.elim_none, List.append_nil]
  | some sides =>
    obtain ⟨name, other⟩ := sides
    rw [ofChars_of_sides? h]
    dsimp only
    rw [wrapWithin?_name d h]
    rfl

/-- One is enough without a word. -/
theorem wrapWithin?_one_eq_none_iff (d : Dialect) (cs : List Char) :
    wrapWithin? d 1 cs = none ↔ ContainsAs (Text.trim cs) := by
  rw [← not_iff_not, ← sides?_eq_none_iff, wrapWithin?]
  cases sides? (Text.trim cs) with
  | none => simp
  | some sides => simp [wrapWithin?]

end Identifier

/-! ## Reading the result -/

namespace Lexer

def Token.text : Token → List Char
  | .name chars => chars
  | .char c => [c]

def Token.outside : Token → List Char
  | .name _ => []
  | .char c => [c]

/-- The text without its quotes. -/
def unquoted (ts : List Token) : List Char := ts.flatMap Token.text

/-- The text without its names. -/
def outside (ts : List Token) : List Char := ts.flatMap Token.outside

theorem outside_map_char (cs : List Char) : outside (cs.map .char) = cs := by
  induction cs with
  | nil => rfl
  | cons c cs ih => exact congrArg (c :: ·) ih

/-- Without quotes the text is the given one. Outside quotes there are only dots and stars, and what
stands between those is in one name. -/
structure Spells (cs : List Char) (ts : List Token) : Prop where
  unquoted_eq : unquoted ts = cs
  outside_joint : ∀ c ∈ outside ts, c = '.' ∨ c = '*'
  quoted : ∀ w, w <:+: cs → w ≠ [] → '.' ∉ w → '*' ∉ w → ∃ s, .name s ∈ ts ∧ w <:+: s

theorem Spells.dot {cs ds : List Char} {ts us : List Token} (h : Spells cs ts)
    (h' : Spells ds us) : Spells (cs ++ '.' :: ds) (ts ++ .char '.' :: us) := by
  refine ⟨?_, ?_, fun w hw hne hdot hstar => ?_⟩
  · rw [unquoted, List.flatMap_append, List.flatMap_cons, ← unquoted, ← unquoted, h.unquoted_eq,
      h'.unquoted_eq]
    rfl
  · rw [outside, List.flatMap_append, List.flatMap_cons]
    exact List.forall_mem_append.2
      ⟨h.outside_joint, List.forall_mem_cons.2 ⟨.inl rfl, h'.outside_joint⟩⟩
  · rcases Identifier.infix_of_infix_append_cons hdot hw with hcs | hds
    · obtain ⟨s, hs, hws⟩ := h.quoted w hcs hne hdot hstar
      exact ⟨s, List.mem_append_left _ hs, hws⟩
    · obtain ⟨s, hs, hws⟩ := h'.quoted w hds hne hdot hstar
      exact ⟨s, List.mem_append_right _ (List.mem_cons_of_mem _ hs), hws⟩

theorem Spells.blank_not_mem {cs : List Char} {ts : List Token} (h : Spells cs ts) :
    ' ' ∉ outside ts := by
  intro hmem
  have hjoint := h.outside_joint ' ' hmem
  exact absurd hjoint (by decide)

end Lexer

namespace Identifier

theorem spells_segmentToken (s : List Char) : Spells s [segmentToken s] := by
  rw [segmentToken]
  split
  · next hs =>
    refine ⟨hs.symm, by simp [outside, Token.outside], fun w hw hne hdot hstar => ?_⟩
    obtain ⟨c, hc⟩ := List.exists_mem_of_ne_nil w hne
    have hcs : c ∈ s := hw.mem hc
    rw [hs, List.mem_singleton] at hcs
    exact absurd (hcs ▸ hc) hstar
  · refine ⟨List.append_nil s, by simp [outside, Token.outside], fun w hw _ _ _ => ?_⟩
    exact ⟨s, List.mem_cons_self, hw⟩

/-- A text is cut at its dots without a loss. -/
theorem spells_dottedTokens (cs : List Char) : Spells cs (dottedTokens (segments cs)) := by
  have hdotted (ss : List (List Char)) (hss : ss ≠ []) :
      Spells (['.'].intercalate ss) (dottedTokens ss) := by
    induction ss with
    | nil => exact absurd rfl hss
    | cons s ss ih =>
      cases ss with
      | nil =>
        rw [List.intercalate_singleton]
        exact spells_segmentToken s
      | cons r rs =>
        rw [List.intercalate_cons_cons, List.append_assoc]
        exact (spells_segmentToken s).dot (ih (List.cons_ne_nil r rs))
  have hcs := hdotted (segments cs) (segments_ne_nil cs)
  rwa [intercalate_segments] at hcs

/-- The tokens are those of the two sides and of the word between them, if the text has it. -/
def SpellsSides (cs : List Char) (ts : List Token) : Prop :=
  match sides? cs with
  | some (name, other) => ∃ us vs, Spells name us ∧ Spells other vs ∧
      ts = us ++ (" as ".toList.map .char ++ vs)
  | none => Spells cs ts

theorem spellsSides_tokens (cs : List Char) : SpellsSides (Text.trim cs) (ofChars cs).tokens := by
  rw [SpellsSides]
  cases h : sides? (Text.trim cs) with
  | none =>
    rw [ofChars_of_sides?_eq_none h, tokens, Option.elim_none, List.append_nil]
    exact spells_dottedTokens _
  | some sides =>
    obtain ⟨name, other⟩ := sides
    rw [ofChars_of_sides? h]
    exact ⟨_, _, spells_dottedTokens name, spells_dottedTokens other, rfl⟩

theorem eq_length_of_asAt {xs ys : List Char} (hxs : ' ' ∉ xs) (hys : ' ' ∉ ys) {n : Nat}
    (h : AsAt (xs ++ (" as ".toList ++ ys)) n) : n = xs.length := by
  -- The two blanks are those of the word itself.
  have hblank {i : Nat} (hi : (xs ++ (" as ".toList ++ ys))[i]? = some ' ') :
      i = xs.length ∨ i = xs.length + 3 := by
    rcases Nat.lt_or_ge i xs.length with hlt | hge
    · rw [List.getElem?_append_left hlt] at hi
      exact absurd (List.mem_of_getElem? hi) hxs
    · obtain ⟨k, rfl⟩ := Nat.exists_eq_add_of_le hge
      rw [List.getElem?_append_right hge, Nat.add_sub_cancel_left] at hi
      match k, hi with
      | 0, _ => exact .inl rfl
      | 3, _ => exact .inr rfl
      | k + 4, hi => exact absurd (List.mem_of_getElem? (l := ys) (i := k) hi) hys
  obtain ⟨hfirst, hlast⟩ := h.getElem?_blank
  have hfirst := hblank hfirst
  have hlast := hblank hlast
  omega

theorem SpellsSides.subsingleton {cs : List Char} {ts : List Token} (h : SpellsSides cs ts) :
    {n | AsAt (outside ts) n}.Subsingleton := by
  rw [SpellsSides] at h
  cases hsides : sides? cs with
  | none =>
    rw [hsides] at h
    intro n hn
    exact absurd (List.mem_of_getElem? hn.getElem?_blank.1) h.blank_not_mem
  | some sides =>
    rw [hsides] at h
    obtain ⟨us, vs, hus, hvs, rfl⟩ := h
    have houtside : outside (us ++ (" as ".toList.map .char ++ vs)) =
        outside us ++ (" as ".toList ++ outside vs) := by
      rw [outside, List.flatMap_append, List.flatMap_append, ← outside, ← outside, ← outside,
        outside_map_char]
    rw [houtside]
    intro m hm n hn
    rw [eq_length_of_asAt hus.blank_not_mem hvs.blank_not_mem hm,
      eq_length_of_asAt hus.blank_not_mem hvs.blank_not_mem hn]

end Identifier

open Identifier

/-- An identifier has two sides if it contains the word. They are what stands before and after the
first one, without blanks, and the text is cut between characters. The name is written without
another cut. What is written has at most one word outside quotes, any other one is in one of the
quoted names, and without its quotes it is the identifier but for the blanks at the ends and around
the first word, and the letter case of that word. -/
theorem Dialect.wrap_single_alias (identifier : String) :
    (∃ l r, Text.Blanks l ∧ Text.Blanks r ∧
      l ++ Text.trim identifier.toList ++ r = identifier.toList) ∧
    ((sides? (Text.trim identifier.toList)).isSome ↔ ContainsAs (Text.trim identifier.toList)) ∧
    (∀ name other, sides? (Text.trim identifier.toList) = some (name, other) →
      ∃ n, Sides (Text.trim identifier.toList) name other n ∧
        ByteCut (String.ofList (Text.trim identifier.toList)) name other
          (String.ofList ((Text.trim identifier.toList).take n)).rawEndPos) ∧
    ∀ d : Dialect,
      (∀ n, wrapWithin? d (n + 2) identifier.toList = some (d.wrap identifier).toList) ∧
      (wrapWithin? d 1 identifier.toList = none ↔ ContainsAs (Text.trim identifier.toList)) ∧
      (d.quoteSegment = quoteBetween d.quote → d.quote ∉ ['.', '*', ' ', 'a', 's'] →
        ∃ ts, read? d.quote .outside (d.wrap identifier).toList = some ts ∧
          SpellsSides (Text.trim identifier.toList) ts ∧
          {n | AsAt (outside ts) n}.Subsingleton) := by
  refine ⟨Text.exists_blanks_trim _, ?_, fun name other => sides_of_sides? (Text.trim_trim _),
    fun d => ⟨fun n => ?_, wrapWithin?_one_eq_none_iff d _, fun hd hquote => ?_⟩⟩
  · rw [← not_iff_not, ← sides?_eq_none_iff, Bool.not_eq_true, Option.isSome_eq_false_iff,
      Option.isNone_iff_eq_none]
  · rw [wrapWithin?_eq, Dialect.wrap, String.toList_ofList]
  · simp only [List.mem_cons, List.not_mem_nil, or_false, not_or] at hquote
    obtain ⟨hdot, hstar, hblank, ha, hs⟩ := hquote
    have hreads := reads_chars hd hstar hdot (by simp [hblank, ha, hs]) (ofChars identifier.toList)
    have hspells := spellsSides_tokens identifier.toList
    refine ⟨_, ?_, hspells, hspells.subsingleton⟩
    rw [Dialect.wrap, String.toList_ofList]
    exact hreads.read?_eq

/-- Three words in a row that share their blanks, and a fourth one. Two letters and the blanks at
both ends take up more than one byte each. -/
def crowded : String := "\u3000été AS as As d.* as z\u00a0"

theorem Dialect.wrap_single_alias_crowded :
    ∃ ts, sides? (Text.trim crowded.toList) = some ("été".toList, "as As d.* as z".toList) ∧
      (∃ n, Sides (Text.trim crowded.toList) "été".toList "as As d.* as z".toList n ∧
        ByteCut (String.ofList (Text.trim crowded.toList)) "été".toList "as As d.* as z".toList
          (String.ofList ((Text.trim crowded.toList).take n)).rawEndPos) ∧
      wrapWithin? clickhouse 2 crowded.toList = some "`été` as `as As d`.`* as z`".toList ∧
      wrapWithin? clickhouse 1 crowded.toList = none ∧
      clickhouse.quoteSegment = quoteBetween clickhouse.quote ∧
      clickhouse.quote ∉ ['.', '*', ' ', 'a', 's'] ∧
      read? clickhouse.quote .outside (clickhouse.wrap crowded).toList = some ts ∧
      {n | AsAt (outside ts) n}.Subsingleton := by
  have hquote : clickhouse.quote ∉ ['.', '*', ' ', 'a', 's'] := by decide
  have hcut : sides? (Text.trim crowded.toList) =
      some ("été".toList, "as As d.* as z".toList) := by decide +kernel
  have htext : (clickhouse.wrap crowded).toList = "`été` as `as As d`.`* as z`".toList := by
    decide +kernel
  obtain ⟨-, hcontains, hsides, hwrap⟩ := wrap_single_alias crowded
  obtain ⟨htwo, hone, hread⟩ := hwrap clickhouse
  obtain ⟨ts, hts, -, hsingle⟩ := hread rfl hquote
  exact ⟨ts, hcut, hsides _ _ hcut, (htwo 0).trans (congrArg some htext),
    hone.2 (hcontains.1 (hcut ▸ rfl)), rfl, hquote, hts, hsingle⟩

end ClauseTree
