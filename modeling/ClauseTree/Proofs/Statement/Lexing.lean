import ClauseTree.Proofs.Fragment.Separation
import ClauseTree.Proofs.Statement.Inlining

/-!
# Reading names back from a statement

A reader of a statement that only knows about quotes takes it apart into names and into the
characters outside of them: a quote opens a name, two quotes inside a name stand for one, and a
single quote closes it. `lex_compile` says what it finds in a statement without raw text. The
names are the segments of the identifiers of the tree, in the order of the tree and with
whatever characters they have. Outside there are words of the language only.

A quote that closes a name has to be told from the first one of two, so the reader decides only
at the next character. Hence a name may not be followed by a quote, and a statement never does
that, because its leaves are kept apart by words.
-/

namespace ClauseTree.Lexer

inductive Token where
  /-- What stood between quotes. -/
  | name (chars : List Char)
  /-- A character outside quotes. -/
  | char (c : Char)
  deriving DecidableEq, Repr

def Token.name? : Token → Option (List Char)
  | .name chars => some chars
  | .char _ => none

/-- Where in the text the reader stands. -/
inductive State where
  | outside
  /-- Inside a name, of which `read` has been read. -/
  | inside (read : List Char)
  /-- After a quote in a name: it closes the name unless another one follows. -/
  | atQuote (read : List Char)
  deriving DecidableEq, Repr

/-- The state after one more character, and what has been read completely by then. -/
def State.next (quote : Char) : State → Char → State × List Token
  | .outside, c => if c = quote then (.inside [], []) else (.outside, [.char c])
  | .inside read, c => if c = quote then (.atQuote read, []) else (.inside (read ++ [c]), [])
  | .atQuote read, c =>
    if c = quote then (.inside (read ++ [c]), []) else (.outside, [.name read, .char c])

/-- What is read at the end of the text. A name that is still open cannot be read. -/
def State.finish? : State → Option (List Token)
  | .outside => some []
  | .inside _ => none
  | .atQuote read => some [.name read]

/-- The names and the other characters of a text, read on from a state. -/
def read? (quote : Char) (s : State) : List Char → Option (List Token)
  | [] => s.finish?
  | c :: cs => (read? quote (s.next quote c).1 cs).map ((s.next quote c).2 ++ ·)

def names (ts : List Token) : List (List Char) := ts.filterMap Token.name?

@[simp] theorem names_append (ts us : List Token) : names (ts ++ us) = names ts ++ names us :=
  List.filterMap_append

@[simp] theorem names_map_char (cs : List Char) : names (cs.map .char) = [] := by
  induction cs with
  | nil => rfl
  | cons c cs ih => exact ih

/-- Between the names there are only words of `P`, one after the other. -/
inductive Worded (P : String → Prop) : List Token → Prop
  | nil : Worded P []
  | name (chars : List Char) {ts : List Token} (h : Worded P ts) : Worded P (.name chars :: ts)
  | word {t : String} (ht : P t) {ts : List Token} (h : Worded P ts) :
    Worded P (t.toList.map .char ++ ts)

theorem Worded.append {P : String → Prop} {ts us : List Token} (h : Worded P ts)
    (h' : Worded P us) : Worded P (ts ++ us) := by
  induction h with
  | nil => exact h'
  | name chars _ ih => exact Worded.name chars ih
  | word ht _ ih =>
    rw [List.append_assoc]
    exact Worded.word ht ih

theorem Worded.mono {P Q : String → Prop} {ts : List Token} (h : Worded P ts)
    (hPQ : ∀ t, P t → Q t) : Worded Q ts := by
  induction h with
  | nil => exact Worded.nil
  | name chars _ ih => exact Worded.name chars ih
  | word ht _ ih => exact Worded.word (hPQ _ ht) ih

theorem Worded.of_word {P : String → Prop} {t : String} (ht : P t) :
    Worded P (t.toList.map .char) := by
  have h := Worded.word ht Worded.nil
  rwa [List.append_nil] at h

/-- Characters other than the quote are read one by one, whatever follows them. -/
theorem read?_plain {quote : Char} {cs : List Char} (h : quote ∉ cs) (rest : List Char) :
    read? quote .outside (cs ++ rest) =
      (read? quote .outside rest).map (cs.map .char ++ ·) := by
  induction cs with
  | nil => cases hread : read? quote .outside rest <;> simp [hread]
  | cons c cs ih =>
    rw [List.mem_cons, not_or] at h
    have hnext : State.outside.next quote c = (.outside, [.char c]) := by
      rw [State.next, if_neg (Ne.symm h.1)]
    rw [List.cons_append, read?, hnext, ih h.2, Option.map_map]
    rfl

/-- The rest of a name, each quote in it doubled, is read up to the quote that closes it. -/
theorem read?_inside {quote : Char} (read s : List Char) {rest : List Char}
    (hrest : rest.head? ≠ some quote) :
    read? quote (.inside read)
        (s.flatMap (fun c => if c = quote then [c, c] else [c]) ++ quote :: rest) =
      (read? quote .outside rest).map (.name (read ++ s) :: ·) := by
  induction s generalizing read with
  | nil =>
    rw [List.flatMap_nil, List.nil_append, List.append_nil, read?, State.next, if_pos rfl]
    cases rest with
    | nil => rfl
    | cons c cs =>
      have hc : c ≠ quote := by simpa using hrest
      have hnext : (State.atQuote read).next quote c = (.outside, [.name read, .char c]) := by
        rw [State.next, if_neg hc]
      have hout : State.outside.next quote c = (.outside, [.char c]) := by
        rw [State.next, if_neg hc]
      simp only [read?, hnext, hout, Option.map_map]
      rfl
  | cons c s ih =>
    have hread : read ++ c :: s = read ++ [c] ++ s := by simp
    rw [hread, ← ih, List.flatMap_cons]
    by_cases hc : c = quote
    · simp only [if_pos hc, List.cons_append, List.nil_append, read?, State.next]
      simp
    · simp only [if_neg hc, List.cons_append, List.nil_append, read?, State.next]
      simp

/-- Outside quotes the text is read as `ts`, whatever follows it other than a quote. -/
def Reads (quote : Char) (cs : List Char) (ts : List Token) : Prop :=
  ∀ rest, rest.head? ≠ some quote →
    read? quote .outside (cs ++ rest) = (read? quote .outside rest).map (ts ++ ·)

namespace Reads

variable {quote : Char} {cs ds : List Char} {ts us : List Token}

/-- A text without quotes. -/
theorem plain (h : quote ∉ cs) : Reads quote cs (cs.map .char) :=
  fun rest _ => read?_plain h rest

theorem nil (quote : Char) : Reads quote [] [] := plain List.not_mem_nil

/-- The whole text is read if nothing follows. -/
theorem read?_eq (h : Reads quote cs ts) : read? quote .outside cs = some ts := by
  have hnil := h [] (by simp)
  rw [List.append_nil] at hnil
  rw [hnil, read?, State.finish?, Option.map_some, List.append_nil]

/-- A word with something to it keeps two texts apart. -/
theorem glue {t : List Char} (h : Reads quote cs ts) (ht : t ≠ []) (hquote : quote ∉ t)
    (h' : Reads quote ds us) : Reads quote (cs ++ (t ++ ds)) (ts ++ (t.map .char ++ us)) := by
  intro rest hrest
  have hhead : (t ++ (ds ++ rest)).head? ≠ some quote := by
    cases t with
    | nil => exact absurd rfl ht
    | cons c t =>
      rintro hc
      cases hc
      exact hquote List.mem_cons_self
  rw [List.append_assoc, List.append_assoc, h _ hhead, read?_plain hquote, h' rest hrest,
    Option.map_map, Option.map_map]
  refine congrArg (Option.map · _) (funext fun ws => ?_)
  simp

/-- A segment between quotes is read as a name, unless it is the star. -/
theorem quoteBetween (segment : List Char) (hquote : quote ≠ '*') :
    Reads quote (quoteBetween quote segment)
      [if segment = ['*'] then .char '*' else .name segment] := by
  rw [ClauseTree.quoteBetween]
  split
  · next hstar =>
    rw [hstar]
    exact plain (by simpa using hquote)
  · intro rest hrest
    rw [List.cons_append, List.append_assoc, read?, State.next, if_pos rfl]
    refine (congrArg (Option.map _) (read?_inside [] segment hrest)).trans ?_
    rw [Option.map_map]
    rfl

end Reads

end ClauseTree.Lexer

namespace ClauseTree

open Lexer

/-! ## Identifiers -/

/-- The text between the names of an identifier. -/
def joints : List String := [".", " as ", "*"]

namespace Identifier

/-- The names of a list of segments, each between quotes unless it is the star. -/
def quotedNames (ss : List (List Char)) : List (List Char) := ss.filter (· ≠ ['*'])

/-- The names of an identifier in order: those of the name, then those of the alias. -/
def allNames (i : Identifier) : List (List Char) := quotedNames (i.name ++ i.alias?.getD [])

theorem quotedNames_append (ss ts : List (List Char)) :
    quotedNames (ss ++ ts) = quotedNames ss ++ quotedNames ts := List.filter_append ..

/-- How a segment is read. -/
def segmentToken (s : List Char) : Token := if s = ['*'] then .char '*' else .name s

/-- How segments with dots between them are read. -/
def dottedTokens : List (List Char) → List Token
  | [] => []
  | [s] => [segmentToken s]
  | s :: ss => segmentToken s :: .char '.' :: dottedTokens ss

/-- How an identifier is read. -/
def tokens (i : Identifier) : List Token :=
  dottedTokens i.name ++ i.alias?.elim [] fun a => " as ".toList.map .char ++ dottedTokens a

theorem dottedTokens_cons_cons (s r : List Char) (rs : List (List Char)) :
    dottedTokens (s :: r :: rs) = [segmentToken s] ++ (['.'].map .char ++ dottedTokens (r :: rs)) :=
  rfl

theorem reads_dotted {d : Dialect} (hd : d.quoteSegment = quoteBetween d.quote)
    (hstar : d.quote ≠ '*') (hdot : d.quote ≠ '.') (ss : List (List Char)) :
    Reads d.quote (dotted d ss) (dottedTokens ss) := by
  induction ss with
  | nil => exact Reads.nil d.quote
  | cons s ss ih =>
    have hsegment : Reads d.quote (d.quoteSegment s) [segmentToken s] :=
      hd ▸ Reads.quoteBetween s hstar
    cases ss with
    | nil => exact hsegment
    | cons r rs =>
      rw [dottedTokens_cons_cons]
      exact hsegment.glue (t := ['.']) (by decide) (by simpa using hdot) ih

theorem reads_chars {d : Dialect} (hd : d.quoteSegment = quoteBetween d.quote)
    (hstar : d.quote ≠ '*') (hdot : d.quote ≠ '.') (hword : d.quote ∉ [' ', 'a', 's', ' '])
    (i : Identifier) : Reads d.quote (i.chars d) i.tokens := by
  have hname := reads_dotted hd hstar hdot i.name
  rw [chars, tokens]
  cases i.alias? with
  | none => simpa using hname
  | some ss =>
    exact hname.glue (t := [' ', 'a', 's', ' ']) (by decide) hword (reads_dotted hd hstar hdot ss)

theorem names_dottedTokens (ss : List (List Char)) : names (dottedTokens ss) = quotedNames ss := by
  have hsegment (s : List Char) : names [segmentToken s] = quotedNames [s] := by
    by_cases hs : s = ['*'] <;> simp [hs, segmentToken, quotedNames, names, Token.name?]
  induction ss with
  | nil => rfl
  | cons s ss ih =>
    cases ss with
    | nil => exact hsegment s
    | cons r rs =>
      rw [dottedTokens_cons_cons, names_append, names_append, names_map_char, List.nil_append,
        hsegment, ih, ← quotedNames_append, List.singleton_append]

theorem names_tokens (i : Identifier) : names i.tokens = i.allNames := by
  rw [tokens, allNames, names_append, names_dottedTokens, quotedNames_append]
  cases i.alias? with
  | none => rfl
  | some ss =>
    rw [Option.elim_some, names_append, names_map_char, names_dottedTokens, Option.getD_some]
    rfl

theorem worded_dottedTokens (ss : List (List Char)) : Worded (· ∈ joints) (dottedTokens ss) := by
  have hsegment (s : List Char) : Worded (· ∈ joints) [segmentToken s] := by
    rw [segmentToken]
    split
    · exact Worded.of_word (P := (· ∈ joints)) (t := "*") (by decide)
    · exact Worded.name s Worded.nil
  induction ss with
  | nil => exact Worded.nil
  | cons s ss ih =>
    cases ss with
    | nil => exact hsegment s
    | cons r rs => exact (hsegment s).append (Worded.word (t := ".") (by decide) ih)

theorem worded_tokens (i : Identifier) : Worded (· ∈ joints) i.tokens := by
  refine (worded_dottedTokens i.name).append ?_
  cases i.alias? with
  | none => exact Worded.nil
  | some ss => exact Worded.word (t := " as ") (by decide) (worded_dottedTokens ss)

end Identifier

/-! ## Statements -/

/-- The names that a leaf is quoted as. Values and raw text have none. -/
def Leaf.quotedNames : Leaf → List (List Char)
  | .name identifier => (Identifier.ofChars identifier.toList).allNames
  | .value _ => []
  | .raw _ => []

/-- What stands outside of names: the text between the names of an identifier, placeholders, the
words of the dialect, and of numbers only those given. -/
def Dialect.Outside (d : Dialect) (ns : List Nat) (t : String) : Prop :=
  t ∈ joints ∨ t = d.placeholder ∨ d.SpeaksOf ns t

namespace Dialect.Scanned

variable {d : Dialect} {ns : List Nat}

theorem quote_not_mem (hd : d.Scanned) {cs : List Char} (h : Placeholder.Quiet cs) :
    d.quote ∉ cs := by
  intro hmem
  have hquote := (h d.quote hmem).1
  rw [hd.quote] at hquote
  cases hquote

theorem reads_name (hd : d.Scanned) (ns : List Nat) (n : String) :
    ∃ ts, Reads d.quote ((Piece.name n).chars d.writer) ts ∧
      names ts = (Leaf.name n).quotedNames ∧ Worded (d.Outside ns) ts := by
  have hne (c : Char) (hc : Placeholder.isQuote c = false) : d.quote ≠ c := by
    rintro rfl
    rw [hd.quote] at hc
    cases hc
  have hword : d.quote ∉ [' ', 'a', 's', ' '] := hd.quote_not_mem (by decide)
  have hreads := Identifier.reads_chars hd.quoteSegment (hne '*' (by decide)) (hne '.' (by decide))
    hword (Identifier.ofChars n.toList)
  exact ⟨_, hreads, Identifier.names_tokens _, (Identifier.worded_tokens _).mono fun t => Or.inl⟩

/-- A fragment that keeps its leaves apart is read as its names and its words. -/
theorem reads_fragment (hd : d.Scanned) (hempty : d.permits "" = false) {f : Fragment}
    (hf : Fragment.Apart d ns f) :
    ∃ ts, Reads d.quote (f.chars d.writer) ts ∧
      names ts = (Fragment.leaves f).flatMap Leaf.quotedNames ∧ Worded (d.Outside ns) ts := by
  induction hf with
  | nil => exact ⟨[], Reads.nil d.quote, rfl, Worded.nil⟩
  | name n =>
    obtain ⟨ts, hts, hnames, hworded⟩ := hd.reads_name ns n
    refine ⟨ts, ?_, ?_, hworded⟩
    · rwa [Fragment.chars_cons, Fragment.chars_nil, List.append_nil]
    · rw [hnames]
      exact (List.flatMap_singleton Leaf.quotedNames (.name n)).symm
  | value v =>
    have hmark : d.quote ∉ d.placeholder.toList := by
      rw [hd.placeholder]
      intro hmem
      have hquote := hd.quote
      rw [List.mem_singleton.1 hmem] at hquote
      exact absurd hquote (by decide)
    refine ⟨d.placeholder.toList.map .char, ?_, names_map_char _, ?_⟩
    · rw [Fragment.chars_cons, Fragment.chars_nil, List.append_nil]
      exact Reads.plain hmark
    · exact Worded.of_word (P := d.Outside ns) (Or.inr (Or.inl rfl))
  | @glue f g t hf ht hg ihf ihg =>
    obtain ⟨ts, hts, hnames, hworded⟩ := ihf
    obtain ⟨us, hus, hrest, hrestWorded⟩ := ihg
    have hne : t.toList ≠ [] := fun h => ht.ne_empty hempty (String.toList_eq_nil_iff.1 h)
    have hquote : d.quote ∉ t.toList := hd.quote_not_mem (hd.quiet_of_speaks ht.speaks)
    refine ⟨ts ++ (t.toList.map .char ++ us), ?_, ?_, ?_⟩
    · rw [Fragment.chars_append, Fragment.chars_cons]
      exact hts.glue hne hquote hus
    · rw [names_append, names_append, names_map_char, List.nil_append, hnames, hrest,
        Fragment.leaves_append, Fragment.leaves_word_cons, List.flatMap_append]
    · exact hworded.append (Worded.word (Or.inr (Or.inr ht)) hrestWorded)

/-- Every name is written with text, and so is every value. -/
theorem visible_writer (hd : d.Scanned) (hempty : d.permits "" = false) : d.writer.Visible := by
  have hsegment (s : List Char) : d.quoteSegment s ≠ [] := by
    rw [hd.quoteSegment, quoteBetween]
    split
    · next hs => simp [hs]
    · exact List.cons_ne_nil _ _
  have hdotted (ss : List (List Char)) (hss : ss ≠ []) : Identifier.dotted d ss ≠ [] := by
    cases ss with
    | nil => exact absurd rfl hss
    | cons s ss =>
      cases ss with
      | nil => exact hsegment s
      | cons r rs => simp [Identifier.dotted]
  refine ⟨?_, ?_, hempty⟩
  · intro n hn
    have hchars : (Identifier.ofChars n.toList).chars d = [] := hn
    rw [Identifier.chars, List.append_eq_nil_iff] at hchars
    refine hdotted _ ?_ hchars.1
    rw [Identifier.ofChars]
    split <;> exact Identifier.segments_ne_nil _
  · intro v hv
    have hmark : d.placeholder.toList = [] := hv
    rw [hd.placeholder] at hmark
    exact absurd hmark (by decide)

end Dialect.Scanned

/-- The leaves that a statement of a kind reads. -/
def Query.leavesOf (q : Query) : StatementKind → List Leaf
  | .select => q.selectLeaves
  | .update => q.updateLeaves

theorem Query.raws_leavesOf {q : Query} (h : q.raws = []) (kind : StatementKind) :
    Leaf.raws (q.leavesOf kind) = [] := by
  have hmem (l : Leaf) (hl : l ∈ q.leavesOf kind) : l ∈ q.leaves := by
    cases kind with
    | select => exact mem_leaves_of_mem_selectLeaves hl
    | update => exact mem_leaves_of_mem_updateLeaves hl
  refine List.eq_nil_iff_forall_not_mem.2 fun r hr => ?_
  have hraw : r ∈ q.raws := Leaf.mem_raws.2 (hmem _ (Leaf.mem_raws.1 hr))
  rw [h] at hraw
  cases hraw

/-- A statement of a tree without raw text is taken apart into names and characters outside of
them. The names are those of the identifiers that the statement reads, in the order of the tree;
outside there is nothing but words of the language, placeholders and the numbers of the limit
and the offset. -/
theorem Query.lex_compile {q : Query} (hraws : q.raws = []) {kind : StatementKind}
    {s : Statement} (hs : Dialect.clickhouse.compile kind q = .ok s) :
    ∃ ts, read? '\x60' .outside s.sql.toList = some ts ∧
      names ts = (q.leavesOf kind).flatMap Leaf.quotedNames ∧
      Worded (Dialect.clickhouse.Outside (q.numbers .clickhouse)) ts := by
  have hd : Dialect.clickhouse.Scanned := Dialect.scanned_clickhouse
  have hempty : Dialect.clickhouse.permits "" = false := by decide
  have hvisible := hd.visible_writer hempty
  have hleaves := raws_leavesOf hraws kind
  have hread (f : Fragment) (hf : Fragment.Apart .clickhouse (q.numbers .clickhouse) f)
      (hleaves : Fragment.leaves f = q.leavesOf kind) :
      ∃ ts, read? '\x60' .outside (f.written Dialect.clickhouse.writer).toList = some ts ∧
        names ts = (q.leavesOf kind).flatMap Leaf.quotedNames ∧
        Worded (Dialect.clickhouse.Outside (q.numbers .clickhouse)) ts := by
    obtain ⟨ts, hts, hnames, hworded⟩ := hd.reads_fragment hempty hf
    refine ⟨ts, ?_, hleaves ▸ hnames, hworded⟩
    rw [Fragment.written, String.toList_ofList]
    exact hts.read?_eq
  cases kind with
  | select =>
    obtain ⟨f, hf, hs⟩ := bind_eq_ok.1 hs
    cases hs
    exact hread f (apart_selectFragment hvisible hf hleaves) (leaves_selectFragment hf)
  | update =>
    obtain ⟨f, hf, hs⟩ := bind_eq_ok.1 hs
    cases hs
    exact hread f (apart_updateFragment hvisible hf hleaves) (leaves_updateFragment hf)

/-- A query whose identifiers have quotes, dots, aliases and stars in them, or nothing at all. -/
def hostile : Query where
  table := some "t` where 1 = 1 -- "
  schema := some "*"
  columns := ["", " a`.*.``b As x as `y`"]
  categories := {
    filter := [.ofMembers [.ofTest (.basic "`" " LIKE " (.value (.text "`?`"))),
      .ofTest (.isIn (.single "gone") (.list []))]] }
  update := [⟨"c.", .column "d`e"⟩]
  offset := some 7

theorem Query.lex_compile_hostile :
    ∃ s t ts us, Dialect.clickhouse.compile .select hostile = .ok s ∧
      Dialect.clickhouse.compile .update hostile = .ok t ∧
      read? '\x60' .outside s.sql.toList = some ts ∧
      read? '\x60' .outside t.sql.toList = some us ∧
      names ts = ["", "a`", "``b", "x as `y`", "t` where 1 = 1 --", "`"].map String.toList ∧
      names us = ["t` where 1 = 1 --", "c", "", "d`e", "`"].map String.toList := by
  obtain ⟨s, hs⟩ : ∃ s, Dialect.clickhouse.compile .select hostile = .ok s := ⟨_, rfl⟩
  obtain ⟨t, ht⟩ : ∃ t, Dialect.clickhouse.compile .update hostile = .ok t := ⟨_, rfl⟩
  have hraws : hostile.raws = [] := rfl
  obtain ⟨ts, hts, hnames, -⟩ := lex_compile hraws hs
  obtain ⟨us, hus, hnames', -⟩ := lex_compile hraws ht
  refine ⟨s, t, ts, us, hs, ht, hts, hus, hnames.trans ?_, hnames'.trans ?_⟩
  · decide +kernel
  · decide +kernel

end ClauseTree
