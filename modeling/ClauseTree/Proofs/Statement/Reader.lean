import ClauseTree.Proofs.Query.Normal

/-!
# A reader of conditions

The text of a `where` group says what its conditions are, up to their normal form and without
their values. The reader takes it apart. What comes next is told from the first few characters,
with two exceptions. A parenthesis opens a group or a list of columns, and the reader tries the
group first. The operators `in` and `not in` compare with one value, and before a list of values
they are no operators.

A reader gives what it has read and the rest of the text. Conditions are read with a bound on the
length of their text, which is the bound on the depth of the recursion.
-/

namespace ClauseTree

/-- What has been read, and the rest of the text. -/
abbrev Reader (α : Type) := List Char → Option (α × List Char)

namespace Reader

/-! ## Words and lists -/

/-- The text behind a word. -/
def behind? : List Char → List Char → Option (List Char)
  | [], cs => some cs
  | _ :: _, [] => none
  | c :: cs, d :: ds => if c = d then behind? cs ds else none

/-- The text behind a word. -/
def word? (w : String) (cs : List Char) : Option (List Char) := behind? w.toList cs

/-- One or more items with a word between each two. -/
def separated? {α : Type} (item : Reader α) (word : String) : Nat → Reader (List α)
  | 0, _ => none
  | n + 1, cs => do
    let (a, cs) ← item cs
    match word? word cs with
    | some cs => do
      let (as, cs) ← separated? item word n cs
      some (a :: as, cs)
    | none => some ([a], cs)

/-- The items of a list after the parenthesis that opens it. -/
def items? {α : Type} (item : Reader α) : Reader (List α) := fun cs =>
  match word? ")" cs with
  | some cs => some ([], cs)
  | none => do
    let (as, cs) ← separated? item ", " (cs.length + 1) cs
    let cs ← word? ")" cs
    some (as, cs)

theorem behind?_append (w rest : List Char) : behind? w (w ++ rest) = some rest := by
  induction w with
  | nil => rfl
  | cons c w ih => rw [List.cons_append, behind?, if_pos rfl, ih]

theorem word?_append (w : String) (rest : List Char) : word? w (w.toList ++ rest) = some rest :=
  behind?_append w.toList rest

section Lists

variable {α ι : Type} {item : Reader α} {text : ι → List Char} {out : ι → α}
  (Ends : List Char → Prop)

/-- Items that are read back one by one are read back as a list. `Ends` is what an item asks of
the text behind it. -/
theorem separated?_intercalate {word : String}
    (hitem : ∀ x rest, Ends rest → item (text x ++ rest) = some (out x, rest))
    (hword : ∀ rest, Ends (word.toList ++ rest)) {rest : List Char} (hrest : Ends rest)
    (hnone : word? word rest = none) {xs : List ι} (hne : xs ≠ []) {n : Nat}
    (hn : xs.length ≤ n) :
    separated? item word n (word.toList.intercalate (xs.map text) ++ rest) =
      some (xs.map out, rest) := by
  induction xs generalizing n with
  | nil => exact absurd rfl hne
  | cons x xs ih =>
    obtain ⟨n, rfl⟩ : ∃ m, n = m + 1 := Nat.exists_eq_succ_of_ne_zero (Nat.ne_zero_of_lt hn)
    cases xs with
    | nil =>
      rw [List.map_cons, List.map_nil, List.intercalate_singleton, separated?, hitem x rest hrest]
      simp [hnone]
    | cons y ys =>
      have hys := ih (by simp) (n := n) (by simpa using hn)
      rw [List.map_cons, List.map_cons, List.intercalate_cons_cons, ← List.map_cons,
        List.append_assoc, List.append_assoc, separated?, hitem x _ (hword _)]
      simp only [Option.bind_eq_bind, Option.bind_some, word?_append, hys]
      rfl

/-- There are not more items than their text and the words in it leave room for. -/
theorem length_le_intercalate {word : List Char} (hword : word ≠ []) (ts : List (List Char)) :
    ts.length ≤ (word.intercalate ts).length + 1 := by
  induction ts with
  | nil => simp
  | cons t ts ih =>
    cases ts with
    | nil => simp
    | cons u us =>
      have hpos : 0 < word.length := List.length_pos_iff.2 hword
      rw [List.intercalate_cons_cons, List.length_append, List.length_append, List.length_cons]
      omega

theorem items?_intercalate
    (hitem : ∀ x rest, Ends rest → item (text x ++ rest) = some (out x, rest))
    (hopen : ∀ x rest, word? ")" (text x ++ rest) = none)
    (hword : ∀ rest, Ends (", ".toList ++ rest)) (hclose : ∀ rest, Ends (')' :: rest))
    (xs : List ι) (rest : List Char) :
    items? item (", ".toList.intercalate (xs.map text) ++ ')' :: rest) =
      some (xs.map out, rest) := by
  have hbehind : word? ")" (')' :: rest) = some rest := rfl
  cases xs with
  | nil => rfl
  | cons x xs =>
    have hnone :
        word? ")" (", ".toList.intercalate ((x :: xs).map text) ++ ')' :: rest) = none := by
      cases xs with
      | nil =>
        rw [List.map_cons, List.map_nil, List.intercalate_singleton]
        exact hopen x _
      | cons y ys =>
        rw [List.map_cons, List.map_cons, List.intercalate_cons_cons, List.append_assoc,
          List.append_assoc]
        exact hopen x _
    have hcomma : ", ".toList ≠ [] := by decide
    have hlength := length_le_intercalate hcomma ((x :: xs).map text)
    rw [items?, hnone]
    dsimp only
    rw [separated?_intercalate Ends hitem hword (hclose rest) rfl (by simp)]
    · simp [hbehind]
    · simp only [List.length_map, List.length_append] at hlength ⊢
      omega

end Lists

/-! ## Names -/

/-- The rest of a segment up to the quote that closes it. Two quotes stand for one. -/
def quoted? : Reader (List Char)
  | [] => none
  | [c] => if c = '\x60' then some ([], []) else none
  | c :: d :: cs =>
    if c = '\x60' then
      if d = '\x60' then (quoted? cs).map fun (s, cs) => ('\x60' :: s, cs)
      else some ([], d :: cs)
    else (quoted? (d :: cs)).map fun (s, cs) => (c :: s, cs)

def segment? : Reader (List Char)
  | [] => none
  | c :: cs => if c = '*' then some (['*'], cs) else if c = '\x60' then quoted? cs else none

def dotted? : Reader (List (List Char)) := fun cs =>
  separated? segment? "." (cs.length + 1) cs

def identifier? : Reader Identifier := fun cs => do
  let (name, cs) ← dotted? cs
  match word? " as " cs with
  | some cs => do
    let (other, cs) ← dotted? cs
    some (⟨name, some other⟩, cs)
  | none => some (⟨name, none⟩, cs)

theorem quoted?_cons {c : Char} (hc : c ≠ '\x60') (cs : List Char) :
    quoted? (c :: cs) = (quoted? cs).map fun (s, cs) => (c :: s, cs) := by
  cases cs with
  | nil => simp [quoted?, hc]
  | cons d ds => rw [quoted?, if_neg hc]

/-- What is quoted is read back up to a quote that no other one follows. -/
theorem quoted?_doubled (s : List Char) {rest : List Char} (hrest : word? "`" rest = none) :
    quoted? (s.flatMap (fun c => if c = '\x60' then [c, c] else [c]) ++ '\x60' :: rest) =
      some (s, rest) := by
  induction s with
  | nil =>
    cases rest with
    | nil => rfl
    | cons d rest =>
      have hd : d ≠ '\x60' := by
        rintro rfl
        cases hrest
      rw [List.flatMap_nil, List.nil_append, quoted?, if_pos rfl, if_neg hd]
  | cons c s ih =>
    rw [List.flatMap_cons, List.append_assoc]
    by_cases hc : c = '\x60'
    · subst hc
      rw [if_pos rfl, List.cons_append, List.cons_append, List.nil_append, quoted?, if_pos rfl,
        if_pos rfl, ih]
      rfl
    · rw [if_neg hc, List.cons_append, List.nil_append, quoted?_cons hc, ih]
      rfl

theorem segment?_quoteSegment (s : List Char) {rest : List Char}
    (hrest : word? "`" rest = none) :
    segment? (Dialect.clickhouse.quoteSegment s ++ rest) = some (s, rest) := by
  change segment? (quoteBetween '\x60' s ++ rest) = some (s, rest)
  by_cases hs : s = ['*']
  · rw [hs]
    rfl
  · rw [quoteBetween, if_neg hs, List.cons_append, List.append_assoc]
    exact quoted?_doubled s hrest

theorem dotted_eq_intercalate (d : Dialect) (ss : List (List Char)) :
    Identifier.dotted d ss = ".".toList.intercalate (ss.map d.quoteSegment) := by
  induction ss with
  | nil => rfl
  | cons s ss ih =>
    cases ss with
    | nil => simp [Identifier.dotted]
    | cons t ts =>
      have hdotted : Identifier.dotted d (s :: t :: ts) =
          d.quoteSegment s ++ '.' :: Identifier.dotted d (t :: ts) := rfl
      rw [hdotted, ih, List.map_cons, List.map_cons, List.map_cons, List.intercalate_cons_cons,
        List.append_assoc]
      rfl

theorem dotted?_dotted {ss : List (List Char)} (hne : ss ≠ []) {rest : List Char}
    (hquote : word? "`" rest = none) (hdot : word? "." rest = none) :
    dotted? (Identifier.dotted Dialect.clickhouse ss ++ rest) = some (ss, rest) := by
  have hword (rest : List Char) : word? "`" (".".toList ++ rest) = none := rfl
  have hpoint : ".".toList ≠ [] := by decide
  have hlength := length_le_intercalate hpoint (ss.map Dialect.clickhouse.quoteSegment)
  rw [List.length_map] at hlength
  rw [dotted?, dotted_eq_intercalate]
  have hread (n : Nat) (hn : ss.length ≤ n) :
      separated? segment? "." n (".".toList.intercalate
        (ss.map Dialect.clickhouse.quoteSegment) ++ rest) = some (ss.map id, rest) :=
    separated?_intercalate (word? "`" · = none)
      (fun s rest => segment?_quoteSegment s) hword hquote hdot hne hn
  rw [hread _ (by rw [List.length_append]; omega), List.map_id]

/-- The text does not go on with what may belong to an identifier. -/
structure EndsName (cs : List Char) : Prop where
  quote : word? "`" cs = none
  dot : word? "." cs = none
  other : word? " as " cs = none

theorem identifier?_chars {i : Identifier} (hname : i.name ≠ []) (hother : i.alias? ≠ some [])
    {rest : List Char} (h : EndsName rest) :
    identifier? (i.chars Dialect.clickhouse ++ rest) = some (i, rest) := by
  obtain ⟨name, other⟩ := i
  cases other with
  | none =>
    rw [Identifier.chars, Option.elim_none, List.append_nil, identifier?,
      dotted?_dotted hname h.quote h.dot]
    simp [h.other]
  | some ss =>
    have hword (rest : List Char) :
        word? " as " (' ' :: 'a' :: 's' :: ' ' :: rest) = some rest := rfl
    have hss : ss ≠ [] := fun hnil => hother (congrArg some hnil)
    rw [Identifier.chars, Option.elim_some, List.append_assoc, identifier?,
      dotted?_dotted hname rfl rfl]
    simp [hword, dotted?_dotted hss h.quote h.dot]

theorem name_ofChars_ne_nil (cs : List Char) : (Identifier.ofChars cs).name ≠ [] := by
  rw [Identifier.ofChars]
  split <;> exact Identifier.segments_ne_nil _

theorem alias?_ofChars_ne_some_nil (cs : List Char) :
    (Identifier.ofChars cs).alias? ≠ some [] := by
  rw [Identifier.ofChars]
  split
  · exact fun hnil => Identifier.segments_ne_nil _ (Option.some.inj hnil)
  · intro hnil
    cases hnil

/-- An identifier is read back from its text. -/
theorem identifier?_ofChars (cs : List Char) {rest : List Char} (h : EndsName rest) :
    identifier? ((Identifier.ofChars cs).chars Dialect.clickhouse ++ rest) =
      some (Identifier.ofChars cs, rest) :=
  identifier?_chars (name_ofChars_ne_nil cs) (alias?_ofChars_ne_some_nil cs) h

theorem eq_ofChars_of_chars_eq {i : Identifier} (hname : i.name ≠ []) (hother : i.alias? ≠ some [])
    {cs : List Char}
    (h : i.chars Dialect.clickhouse = (Identifier.ofChars cs).chars Dialect.clickhouse) :
    i = Identifier.ofChars cs := by
  have hends : EndsName [] := ⟨rfl, rfl, rfl⟩
  have hread := identifier?_chars hname hother hends
  rw [h, identifier?_ofChars cs hends] at hread
  exact (Prod.mk.inj (Option.some.inj hread)).1.symm

/-- Identifiers are told apart by their text. -/
theorem ofChars_eq_iff (a b : String) :
    Identifier.ofChars a.toList = Identifier.ofChars b.toList ↔
      Dialect.clickhouse.wrap a = Dialect.clickhouse.wrap b := by
  constructor
  · intro h
    rw [Dialect.wrap, Dialect.wrap, h]
  · intro h
    exact eq_ofChars_of_chars_eq (name_ofChars_ne_nil _) (alias?_ofChars_ne_some_nil _)
      (String.ofList_injective h)

/-- The text starts like a name. -/
inductive StartsName : List Char → Prop
  | quote (cs : List Char) : StartsName ('\x60' :: cs)
  | star (cs : List Char) : StartsName ('*' :: cs)

theorem StartsName.word?_eq_none {cs : List Char} (h : StartsName cs) {w : String}
    (hw : ∀ tail, word? w ('\x60' :: tail) = none ∧ word? w ('*' :: tail) = none) :
    word? w cs = none := by
  cases h with
  | quote cs => exact (hw cs).1
  | star cs => exact (hw cs).2

theorem startsName_quoteSegment (s rest : List Char) :
    StartsName (Dialect.clickhouse.quoteSegment s ++ rest) := by
  change StartsName (quoteBetween '\x60' s ++ rest)
  by_cases hs : s = ['*']
  · rw [hs]
    exact StartsName.star rest
  · rw [quoteBetween, if_neg hs]
    exact StartsName.quote _

theorem startsName_chars (cs rest : List Char) :
    StartsName ((Identifier.ofChars cs).chars Dialect.clickhouse ++ rest) := by
  have hne := name_ofChars_ne_nil cs
  rw [Identifier.chars, List.append_assoc]
  generalize (Identifier.ofChars cs).name = ss at hne
  cases ss with
  | nil => exact absurd rfl hne
  | cons s ss =>
    cases ss with
    | nil => exact startsName_quoteSegment s _
    | cons t ts =>
      have hdotted : Identifier.dotted Dialect.clickhouse (s :: t :: ts) =
          Dialect.clickhouse.quoteSegment s ++
            '.' :: Identifier.dotted Dialect.clickhouse (t :: ts) := rfl
      rw [hdotted, List.append_assoc]
      exact startsName_quoteSegment s _

/-! ## Tests -/

def value? : Reader Unit := fun cs => (word? "?" cs).map fun cs => ((), cs)

def row? : Reader (List Unit) := fun cs => do
  let cs ← word? "(" cs
  items? value? cs

def operators : List String := commonOperators ++ ["global in", "global not in"]

/-- An operator between blanks. -/
def operator? : Reader String := fun cs =>
  operators.findSome? fun op => (word? (" " ++ op ++ " ") cs).map fun cs => (op, cs)

/-- What stands behind the column of a comparison. -/
def comparison? (column : Identifier) : Reader (NormalTest Unit) := fun cs => do
  let (op, cs) ← operator? cs
  match value? cs with
  | some (v, cs) => some (.basic column op v, cs)
  | none => do
    let (other, cs) ← identifier? cs
    some (.pair column op other, cs)

/-- The candidates of a membership test after the parenthesis that opens them. -/
def candidates? (columns : NormalColumns) : Reader (NormalTest Unit) := fun cs =>
  if cs.head? = some '(' then do
    let (rows, cs) ← items? row? cs
    some (.inRows columns rows, cs)
  else do
    let (values, cs) ← items? value? cs
    some (.inList columns values, cs)

/-- What stands behind the columns of a membership test. The flag is the negation. -/
def membership? (columns : NormalColumns) : Reader (NormalTest Unit × Bool) := fun cs =>
  match word? " in (" cs with
  | some cs => (candidates? columns cs).map fun (t, cs) => ((t, false), cs)
  | none => do
    let cs ← word? " not in (" cs
    (candidates? columns cs).map fun (t, cs) => ((t, true), cs)

/-- A test without values of its own behind a word. -/
def fixed? (w : String) (t : NormalTest Unit) (negated : Bool) :
    Reader (NormalTest Unit × Bool) := fun cs =>
  (word? w cs).map fun cs => ((t, negated), cs)

/-- What stands behind a single column. -/
def behindColumn? (column : Identifier) : Reader (NormalTest Unit × Bool) := fun cs =>
  ((comparison? column cs).map fun (t, cs) => ((t, false), cs)) <|>
  fixed? " is null" (.isNull column) false cs <|>
  fixed? " is not null" (.isNull column) true cs <|>
  fixed? " between ? and ?" (.between column () ()) false cs <|>
  fixed? " not between ? and ?" (.between column () ()) true cs <|>
  membership? (.single column) cs

/-! ## Conditions -/

/-- A test that starts with a word of its own. -/
def constant? : Reader (NormalTest Unit × Bool) := fun cs =>
  fixed? "1 = 0" .never false cs <|> fixed? "1 = 1" .never true cs

/-- A comparison with its negation in front. -/
def negated? : Reader (NormalTest Unit × Bool) := fun cs => do
  let cs ← word? "not " cs
  let (column, cs) ← identifier? cs
  (comparison? column cs).map fun (t, cs) => ((t, true), cs)

/-- A membership test of several columns. -/
def columns? : Reader (NormalTest Unit × Bool) := fun cs => do
  let cs ← word? "(" cs
  let (columns, cs) ← items? identifier? cs
  membership? (.multi columns) cs

def single? : Reader (NormalTest Unit × Bool) := fun cs => do
  let (column, cs) ← identifier? cs
  behindColumn? column cs

/-- A test whose connector is known. -/
def test? (k : Connector) : Reader (Condition (NormalTest Unit)) := fun cs =>
  (constant? cs <|> negated? cs <|> columns? cs <|> single? cs).map fun ((t, n), cs) =>
    (.test t n k, cs)

def connector? : Reader Connector := fun cs =>
  ((word? " and " cs).map fun cs => (.and, cs)) <|> (word? " or " cs).map fun cs => (.or, cs)

/-- A first condition and the ones behind it. -/
def chain? {α : Type} (condition : Reader α) (more : Reader (List α)) : Reader (List α) :=
  fun cs => do
    let (c, cs) ← condition cs
    let (others, cs) ← more cs
    some (c :: others, cs)

/-- A group whose connector is known, behind the parenthesis that opens it. -/
def group? {α : Type} (opening : String) (negated : Bool) (k : Connector)
    (members : Reader (List (Condition α))) : Reader (Condition α) := fun cs => do
  let cs ← word? opening cs
  let (ms, cs) ← members cs
  let cs ← word? ")" cs
  some (.group ms negated k, cs)

mutual

/-- A condition whose connector is known. -/
def condition? : Nat → Connector → Reader (Condition (NormalTest Unit))
  | 0, _, _ => none
  | n + 1, k, cs =>
    group? "(" false k (chain? (condition? n .and) (more? n)) cs <|>
    group? "not (" true k (chain? (condition? n .and) (more? n)) cs <|>
    test? k cs

/-- The conditions behind another one, each behind its connector. -/
def more? : Nat → Reader (List (Condition (NormalTest Unit)))
  | 0, _ => none
  | n + 1, cs =>
    match connector? cs with
    | some (k, cs) => chain? (condition? n k) (more? n) cs
    | none => some ([], cs)

end

/-- The conditions of a group on its own, behind its keyword. Without any there is no text. -/
def conditions? (cs : List Char) : Option (List (Condition (NormalTest Unit))) :=
  if cs.isEmpty then some []
  else do
    let cs ← word? "where " cs
    let (ms, cs) ← chain? (condition? (cs.length + 1) .and) (more? (cs.length + 1)) cs
    if cs.isEmpty then some ms else none

end Reader

end ClauseTree
