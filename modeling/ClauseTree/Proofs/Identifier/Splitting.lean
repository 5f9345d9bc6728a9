import ClauseTree.Identifier
import Mathlib.Data.List.DropRight

/-!
# Taking identifiers apart

An identifier is trimmed, cut at the first word `as` between blanks, and cut at its dots. The lemmas
say what each of the three makes of two texts with a dot between them. A dot is no blank and no part
of the word, so nothing reaches across it: the left text is trimmed on its left side only and the
right one on its right side only, and a word is found in one of them.
-/

namespace ClauseTree

namespace Text

/-! ## Trimming -/

section Blank

variable {c : Char} (hc : isBlank c = false)
include hc

theorem trimLeft_cons (s : List Char) : trimLeft (c :: s) = c :: s := by
  rw [trimLeft, List.dropWhile_cons, hc]
  rfl

theorem trimLeft_append_cons (s t : List Char) :
    trimLeft (s ++ c :: t) = trimLeft s ++ c :: t := by
  induction s with
  | nil => exact trimLeft_cons hc t
  | cons d s ih =>
    rw [trimLeft] at ih ⊢
    rw [List.cons_append, List.dropWhile_cons, trimLeft, List.dropWhile_cons, ih]
    split
    · rfl
    · rfl

theorem trimRight_append_cons (s t : List Char) :
    trimRight (s ++ c :: t) = s ++ c :: trimRight t := by
  have hreverse : (s ++ c :: t).reverse = t.reverse ++ c :: s.reverse := by simp
  rw [trimRight, hreverse, trimLeft_append_cons hc, trimRight]
  simp

theorem trim_append_cons (s t : List Char) :
    trim (s ++ c :: t) = trimLeft s ++ c :: trimRight t := by
  rw [trim, trimLeft_append_cons hc, trimRight_append_cons hc]

theorem trimRight_cons (s : List Char) : trimRight (c :: s) = c :: trimRight s :=
  trimRight_append_cons hc [] s

end Blank

theorem trimLeft_trimLeft (s : List Char) : trimLeft (trimLeft s) = trimLeft s :=
  List.dropWhile_idempotent ..

theorem prefix_trimRight (s : List Char) : trimRight s <+: s := by
  rw [trimRight, ← List.reverse_suffix, List.reverse_reverse]
  exact List.dropWhile_suffix isBlank

theorem infix_trim (s : List Char) : trim s <:+: s :=
  (prefix_trimRight (trimLeft s)).isInfix.trans (List.dropWhile_suffix isBlank).isInfix

/-- What the two ways of trimming make of a text: without blanks at its end it is nothing, or it
starts with blanks, none perhaps, that are all that is lost on its left side. -/
theorem trim_cases (cs : List Char) :
    trimRight cs = [] ∧ trim cs = [] ∨
      ∃ blanks c rest, (∀ b ∈ blanks, isBlank b = true) ∧ isBlank c = false ∧
        trimRight cs = blanks ++ c :: rest ∧ trim cs = c :: rest := by
  have hsplit : cs.takeWhile isBlank ++ trimLeft cs = cs := List.takeWhile_append_dropWhile
  have hblanks : ∀ b ∈ cs.takeWhile isBlank, isBlank b = true := fun b =>
    List.mem_takeWhile_imp
  cases hleft : trimLeft cs with
  | nil =>
    have hall : ∀ b ∈ cs.reverse, isBlank b = true := fun b hb =>
      List.dropWhile_eq_nil_iff.1 hleft b (List.mem_reverse.1 hb)
    have hright : trimRight cs = [] := by
      rw [trimRight, trimLeft, List.dropWhile_eq_nil_iff.2 hall, List.reverse_nil]
    exact .inl ⟨hright, by rw [trim, hleft]; rfl⟩
  | cons c rest =>
    have hc : isBlank c = false := by
      have hhead := List.head?_dropWhile_not isBlank cs
      rw [← trimLeft, hleft] at hhead
      simpa using hhead
    refine .inr ⟨cs.takeWhile isBlank, c, trimRight rest, hblanks, hc, ?_, ?_⟩
    · rw [← trimRight_append_cons hc, ← hleft, hsplit]
    · rw [trim, hleft, trimRight_cons hc]

theorem trimLeft_trim (cs : List Char) : trimLeft (trim cs) = trim cs := by
  rcases trim_cases cs with ⟨-, h⟩ | ⟨-, c, rest, -, hc, -, h⟩
  · rw [h]
    rfl
  · rw [h, trimLeft_cons hc]

/-- A text that starts with a blank is changed by trimming. -/
theorem isBlank_of_trimLeft_cons {c : Char} {cs : List Char} (h : trimLeft (c :: cs) = c :: cs) :
    isBlank c = false := by
  rw [trimLeft, List.dropWhile_cons] at h
  split at h
  · have hlength := congrArg List.length h
    have hle := (List.dropWhile_suffix (l := cs) isBlank).length_le
    rw [List.length_cons] at hlength
    omega
  · next hc => exact Bool.eq_false_iff.2 hc

theorem trimLeft_of_prefix {cs ds : List Char} (h : ds <+: cs) (hcs : trimLeft cs = cs) :
    trimLeft ds = ds := by
  cases ds with
  | nil => rfl
  | cons d ds =>
    obtain ⟨rest, rfl⟩ := h
    exact trimLeft_cons (isBlank_of_trimLeft_cons hcs) ds

theorem trimRight_of_suffix {cs ds : List Char} (h : ds <:+ cs) (hcs : trimRight cs = cs) :
    trimRight ds = ds := by
  have hreverse : trimLeft cs.reverse = cs.reverse := by
    rw [← List.reverse_eq_iff]
    exact hcs
  rw [trimRight, trimLeft_of_prefix (List.reverse_prefix.2 h) hreverse, List.reverse_reverse]

theorem trimRight_trim (cs : List Char) : trimRight (trim cs) = trim cs := by
  rw [trim, trimRight, trimRight, List.reverse_reverse, trimLeft_trimLeft]

theorem trim_trim (cs : List Char) : trim (trim cs) = trim cs := by
  rw [trim, trimLeft_trim, trimRight_trim]

theorem trim_ne_nil_of_trimLeft {cs : List Char} (h : trimLeft cs = cs) (hne : cs ≠ []) :
    trim cs ≠ [] := by
  cases cs with
  | nil => exact absurd rfl hne
  | cons c cs =>
    rw [trim, h, trimRight_cons (isBlank_of_trimLeft_cons h)]
    exact List.cons_ne_nil c _

theorem trim_ne_nil_of_trimRight {cs : List Char} (h : trimRight cs = cs) (hne : cs ≠ []) :
    trim cs ≠ [] := by
  rcases trim_cases cs with ⟨hnil, -⟩ | ⟨-, c, rest, -, -, -, htrim⟩
  · exact absurd (h.symm.trans hnil) hne
  · rw [htrim]
    exact List.cons_ne_nil c rest

/-- There is nothing but blanks in the text. -/
def Blanks (cs : List Char) : Prop := ∀ c ∈ cs, isBlank c = true

theorem exists_blanks_trimLeft (cs : List Char) : ∃ l, Blanks l ∧ l ++ trimLeft cs = cs :=
  ⟨cs.takeWhile isBlank, fun _ => List.mem_takeWhile_imp, List.takeWhile_append_dropWhile⟩

theorem exists_blanks_trimRight (cs : List Char) : ∃ r, Blanks r ∧ trimRight cs ++ r = cs := by
  obtain ⟨l, hl, hcs⟩ := exists_blanks_trimLeft cs.reverse
  refine ⟨l.reverse, fun c hc => hl c (List.mem_reverse.1 hc), ?_⟩
  rw [trimRight, ← List.reverse_append, hcs, List.reverse_reverse]

/-- Only blanks are lost. -/
theorem exists_blanks_trim (cs : List Char) :
    ∃ l r, Blanks l ∧ Blanks r ∧ l ++ trim cs ++ r = cs := by
  obtain ⟨l, hl, hleft⟩ := exists_blanks_trimLeft cs
  obtain ⟨r, hr, hright⟩ := exists_blanks_trimRight (trimLeft cs)
  exact ⟨l, r, hl, hr, by rw [trim, List.append_assoc, hright, hleft]⟩

/-- Without blanks at its beginning a text loses some at its end at most. -/
theorem exists_trim_append {cs : List Char} (h : trimLeft cs = cs) :
    ∃ r, Blanks r ∧ trim cs ++ r = cs := by
  rw [trim, h]
  exact exists_blanks_trimRight cs

theorem exists_append_trim {cs : List Char} (h : trimRight cs = cs) :
    ∃ l, Blanks l ∧ l ++ trim cs = cs := by
  have hsuffix : trimLeft cs <:+ cs := List.dropWhile_suffix isBlank
  rw [trim, trimRight_of_suffix hsuffix h]
  exact exists_blanks_trimLeft cs

/-! ## Letter case -/

/-- The lower case of a capital letter is 32 code points behind it; nothing else changes. -/
theorem lowerAscii_cases (c : Char) :
    lowerAscii c = c ∨ 65 ≤ c.toNat ∧ c.toNat ≤ 90 ∧ (lowerAscii c).toNat = c.toNat + 32 := by
  delta lowerAscii Char.toLower
  split
  · next hc =>
    have hlow : 65 ≤ c.val.toNat := UInt32.le_iff_toNat_le.1 hc.1
    have hhigh : c.val.toNat ≤ 90 := UInt32.le_iff_toNat_le.1 hc.2
    refine .inr ⟨hlow, hhigh, ?_⟩
    change (c.val.toNat + 32) % 2 ^ 32 = c.val.toNat + 32
    omega
  · exact .inl rfl

/-- Only the blank itself is a blank in lower case. -/
theorem eq_blank_of_lowerAscii {c : Char} (h : lowerAscii c = ' ') : c = ' ' := by
  rcases lowerAscii_cases c with hsame | ⟨hlow, -, hval⟩
  · rw [← hsame, h]
  · rw [h] at hval
    change 32 = c.toNat + 32 at hval
    omega

/-- A text and its copy in lower case are cut at the same bytes. -/
theorem utf8Size_lowerAscii (c : Char) : (lowerAscii c).utf8Size = c.utf8Size := by
  have hone (d : Char) (hd : d.toNat ≤ 127) : d.utf8Size = 1 :=
    if_pos (show d.val ≤ 127 from UInt32.le_iff_toNat_le.2 hd)
  rcases lowerAscii_cases c with hsame | ⟨-, hhigh, hval⟩
  · rw [hsame]
  · rw [hone c (by omega), hone (lowerAscii c) (by omega)]

theorem isBlank_of_letter {c : Char} (hlow : 65 ≤ c.toNat) (hhigh : c.toNat ≤ 122) :
    isBlank c = false := by
  have hranges : ∀ r ∈ blankRanges, r.2 < 65 ∨ 122 < r.1 := by decide
  rw [isBlank, List.any_eq_false]
  intro r hr
  have hr := hranges r hr
  simp only [Bool.and_eq_true, decide_eq_true_eq]
  omega

theorem isBlank_lowerAscii (c : Char) : isBlank (lowerAscii c) = isBlank c := by
  rcases lowerAscii_cases c with hsame | ⟨hlow, hhigh, hval⟩
  · rw [hsame]
  · rw [isBlank_of_letter hlow (by omega), isBlank_of_letter (c := lowerAscii c) (by omega)
      (by omega)]

end Text

namespace Identifier

/-! ## The word -/

/-- The word `as` stands in the text, between blanks and in any letter case. -/
def ContainsAs (cs : List Char) : Prop := " as ".toList <:+: cs.map Text.lowerAscii

instance (cs : List Char) : Decidable (ContainsAs cs) := inferInstanceAs (Decidable (_ <:+: _))

theorem ContainsAs.mono {cs ds : List Char} (h : ContainsAs cs) (hds : cs <:+: ds) :
    ContainsAs ds := List.IsInfix.trans h (hds.map Text.lowerAscii)

/-- Whether the text starts with the word. -/
theorem afterAs?_eq_none_iff (cs : List Char) :
    afterAs? cs = none ↔ ¬ " as ".toList <+: cs.map Text.lowerAscii := by
  have hblank : Text.lowerAscii ' ' = ' ' := by decide
  unfold afterAs?
  split
  · next a s rest =>
    have hstarts : " as ".toList <+: (' ' :: a :: s :: ' ' :: rest).map Text.lowerAscii ↔
        'a' = Text.lowerAscii a ∧ 's' = Text.lowerAscii s := by
      change [' ', 'a', 's', ' '] <+: Text.lowerAscii ' ' :: _ :: _ :: Text.lowerAscii ' ' :: _ ↔ _
      simp only [hblank, List.cons_prefix_cons, List.nil_prefix, true_and, and_true]
    rw [hstarts]
    by_cases h : Text.lowerAscii a = 'a' ∧ Text.lowerAscii s = 's'
    · simp [h]
    · have h' : ¬ ('a' = Text.lowerAscii a ∧ 's' = Text.lowerAscii s) :=
        fun hw => h ⟨hw.1.symm, hw.2.symm⟩
      rw [if_neg (by simpa using h)]
      exact iff_of_true rfl h'
  · next hcs =>
    refine iff_of_true rfl fun hstarts => ?_
    obtain ⟨rest, hrest⟩ := hstarts
    obtain ⟨c, cs', rfl, hc, h⟩ := List.map_eq_cons_iff.1 hrest.symm
    obtain ⟨a, cs', rfl, ha, h⟩ := List.map_eq_cons_iff.1 h
    obtain ⟨s, cs', rfl, hs, h⟩ := List.map_eq_cons_iff.1 h
    obtain ⟨d, cs', rfl, hd, h⟩ := List.map_eq_cons_iff.1 h
    obtain rfl := Text.eq_blank_of_lowerAscii hc
    obtain rfl := Text.eq_blank_of_lowerAscii hd
    exact hcs a s cs' rfl

/-- A text is cut in two if it contains the word. -/
theorem splitAlias?_eq_none_iff (cs : List Char) : splitAlias? cs = none ↔ ¬ ContainsAs cs := by
  induction cs with
  | nil => exact iff_of_true rfl (by decide)
  | cons c cs ih =>
    rw [ContainsAs, List.map_cons, List.infix_cons_iff, not_or, ← List.map_cons,
      ← afterAs?_eq_none_iff, splitAlias?]
    cases hafter : afterAs? (c :: cs) with
    | some rest => simp
    | none =>
      dsimp only
      rw [Option.map_eq_none_iff, ih, and_iff_right rfl]
      rfl

/-- A list that starts both a list with `c` in it and not with `c` itself ends before `c`. -/
theorem prefix_of_prefix_append_cons {α : Type} {w xs ys : List α} {c : α} (hc : c ∉ w)
    (h : w <+: xs ++ c :: ys) : w <+: xs := by
  rcases List.prefix_or_prefix_of_prefix h (List.prefix_append xs (c :: ys)) with hw | ⟨v, rfl⟩
  · exact hw
  · rw [List.prefix_append_right_inj] at h
    cases v with
    | nil => simp
    | cons d v =>
      obtain ⟨rfl, -⟩ := List.cons_prefix_cons.1 h
      simp at hc

/-- A list without `c` that is part of a list with `c` in it stands on one side of that. -/
theorem infix_of_infix_append_cons {α : Type} {w xs ys : List α} {c : α} (hc : c ∉ w)
    (h : w <:+: xs ++ c :: ys) : w <:+: xs ∨ w <:+: ys := by
  induction xs with
  | nil =>
    rcases List.infix_cons_iff.1 h with hstarts | hrest
    · exact .inl (prefix_of_prefix_append_cons hc hstarts).isInfix
    · exact .inr hrest
  | cons x xs ih =>
    rw [List.cons_append] at h
    rcases List.infix_cons_iff.1 h with hstarts | hrest
    · exact .inl (prefix_of_prefix_append_cons hc hstarts).isInfix
    · exact (ih hrest).imp_left fun hxs => hxs.trans (List.suffix_cons x xs).isInfix

/-- The word is not found across a dot. -/
theorem splitAlias?_append_dot {cs : List Char} (hcs : ¬ ContainsAs cs) (ds : List Char) :
    splitAlias? (cs ++ '.' :: ds) =
      (splitAlias? ds).map fun (before, after) => (cs ++ '.' :: before, after) := by
  induction cs with
  | nil => rfl
  | cons c cs ih =>
    have hdot : Text.lowerAscii '.' = '.' := by decide
    have hafter : afterAs? (c :: (cs ++ '.' :: ds)) = none := by
      rw [afterAs?_eq_none_iff, ← List.cons_append, List.map_append]
      change ¬ _ <+: (c :: cs).map Text.lowerAscii ++ Text.lowerAscii '.' :: ds.map Text.lowerAscii
      rw [hdot]
      intro hstarts
      exact hcs (prefix_of_prefix_append_cons (by decide) hstarts).isInfix
    have htail : ¬ ContainsAs cs := fun h => hcs (h.mono (List.suffix_cons c cs).isInfix)
    rw [List.cons_append, splitAlias?, hafter, ih htail]
    dsimp only
    rw [Option.map_map]
    rfl

/-! ## Dots -/

theorem segments_append_dot (cs ds : List Char) :
    segments (cs ++ '.' :: ds) = segments cs ++ segments ds := by
  induction cs with
  | nil => rfl
  | cons c cs ih =>
    rw [List.cons_append, segments, segments, ih]
    split
    · rfl
    · cases hcs : segments cs with
      | nil => exact absurd hcs (segments_ne_nil cs)
      | cons s ss => rfl

/-- With dots between them, the segments make up the text again. -/
theorem intercalate_segments (cs : List Char) : ['.'].intercalate (segments cs) = cs := by
  induction cs with
  | nil => rfl
  | cons c cs ih =>
    rw [segments]
    cases hcs : segments cs with
    | nil => exact absurd hcs (segments_ne_nil cs)
    | cons s ss =>
      rw [hcs] at ih
      split
      · next hc =>
        rw [List.intercalate_cons_cons, ih, hc]
        rfl
      · next hc =>
        cases ss with
        | nil =>
          rw [List.intercalate_singleton] at ih ⊢
          rw [ih]
        | cons t ts =>
          rw [List.intercalate_cons_cons] at ih ⊢
          rw [List.cons_append, List.cons_append, ih]

theorem segments_injective : Function.Injective segments := by
  intro cs ds h
  rw [← intercalate_segments cs, h, intercalate_segments]

end Identifier

end ClauseTree
