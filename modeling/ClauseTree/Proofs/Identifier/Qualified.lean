import ClauseTree.Proofs.Identifier.Splitting
import ClauseTree.Proofs.Statement.Composition
import ClauseTree.Proofs.Statement.Reader

/-!
# Tables in a schema

The name of a table in a schema is one identifier, the two texts with a dot between them. It ought
to be the schema, a dot and what the table is without a schema. `wrap_qualified` says when it is.
The two texts lose the blanks at their ends where they stand alone, but the identifier is trimmed as
a whole, so a blank before the dot or after it stays, as part of a segment or before a word `as` at
the beginning of the table.

Both ways of reading the table start from its text without the blanks at its end, and differ in the
blanks at its beginning. `ofTrimmedRight` is what they have in common.
-/

namespace ClauseTree

namespace Identifier

/-- No blank comes to stand beside the dot: the schema has none at its end and the table none at its
beginning, unless it has nothing else. -/
def Seamless (schema table : List Char) : Prop :=
  Text.trimLeft schema = Text.trim schema ∧ Text.trimRight table = Text.trim table

instance (schema table : List Char) : Decidable (Seamless schema table) :=
  inferInstanceAs (Decidable (_ ∧ _))

/-- The identifier with the segments of a text before its name. -/
def within (i : Identifier) (schema : List Char) : Identifier :=
  { i with name := segments schema ++ i.name }

/-- An identifier from a text that is trimmed on the right side only. -/
def ofTrimmedRight (cs : List Char) : Identifier :=
  match splitAlias? cs with
  | some (name, other) => ⟨segments (Text.trimRight name), some (segments (Text.trim other))⟩
  | none => ⟨segments cs, none⟩

/-- Of a qualified name, neither side is trimmed at the dot. -/
theorem ofChars_append_dot {schema : List Char} (h : ¬ ContainsAs schema) (table : List Char) :
    ofChars (schema ++ '.' :: table) =
      (ofTrimmedRight (Text.trimRight table)).within (Text.trimLeft schema) := by
  have hdot : Text.isBlank '.' = false := by decide
  have hschema : ¬ ContainsAs (Text.trimLeft schema) := fun hcontains =>
    h (hcontains.mono (List.dropWhile_suffix Text.isBlank).isInfix)
  rw [ofChars, Text.trim_append_cons hdot, splitAlias?_append_dot hschema, ofTrimmedRight]
  cases splitAlias? (Text.trimRight table) with
  | none =>
    simp only [Option.map_none, within]
    rw [segments_append_dot]
  | some sides =>
    obtain ⟨name, other⟩ := sides
    simp only [Option.map_some, within]
    rw [Text.trim_append_cons hdot, Text.trimLeft_trimLeft, segments_append_dot]

/-- Without a schema the table is trimmed on both sides. -/
theorem ofChars_eq_ofTrimmedRight (cs : List Char) :
    ofChars cs = ofTrimmedRight (Text.trim cs) := by
  rw [ofChars, ofTrimmedRight]
  cases hsplit : splitAlias? (Text.trim cs) with
  | none => rfl
  | some sides =>
    obtain ⟨name, other⟩ := sides
    obtain ⟨a, s, -, -, heq⟩ := eq_of_splitAlias? hsplit
    have hname : name <+: Text.trim cs := ⟨_, heq.symm⟩
    dsimp only
    rw [Text.trim, Text.trimLeft_of_prefix hname (Text.trimLeft_trim cs)]

/-- The name is what stands at the beginning of the text. It is empty only if the text is, or starts
with a blank before a word `as`. -/
theorem name_ofTrimmedRight (cs : List Char) :
    ∃ name, name <+: cs ∧ (ofTrimmedRight cs).name = segments name ∧
      ∀ c rest, cs = c :: rest → Text.isBlank c = false → name ≠ [] := by
  rw [ofTrimmedRight]
  cases hsplit : splitAlias? cs with
  | none => exact ⟨cs, List.prefix_rfl, rfl, fun c rest hcs _ => hcs ▸ List.cons_ne_nil c rest⟩
  | some sides =>
    obtain ⟨before, other⟩ := sides
    obtain ⟨a, s, -, -, heq⟩ := eq_of_splitAlias? hsplit
    have hbefore : before <+: cs := ⟨_, heq.symm⟩
    refine ⟨Text.trimRight before, (Text.prefix_trimRight before).trans hbefore, rfl, ?_⟩
    rintro c rest rfl hc
    cases before with
    | nil =>
      obtain rfl : c = ' ' := (List.cons.inj heq).1
      exact absurd hc (by decide)
    | cons b before =>
      obtain rfl : c = b := (List.cons.inj heq).1
      rw [Text.trimRight_cons hc]
      exact List.cons_ne_nil c _

/-- Blanks at the beginning of a table stay in its name, or leave it empty. -/
theorem trimRight_eq_trim_of_name {cs : List Char}
    (h : (ofTrimmedRight (Text.trimRight cs)).name = (ofTrimmedRight (Text.trim cs)).name) :
    Text.trimRight cs = Text.trim cs := by
  rcases Text.trim_cases cs with ⟨hright, htrim⟩ | ⟨blanks, c, rest, hblanks, hc, hright, htrim⟩
  · rw [hright, htrim]
  · cases blanks with
    | nil => rw [hright, htrim, List.nil_append]
    | cons b blanks =>
      obtain ⟨name, hname, hsegments, -⟩ := name_ofTrimmedRight (Text.trimRight cs)
      obtain ⟨name', hname', hsegments', hne⟩ := name_ofTrimmedRight (Text.trim cs)
      rw [hsegments, hsegments'] at h
      obtain rfl := segments_injective h
      rw [hright, List.cons_append] at hname
      rw [htrim] at hname'
      cases name with
      | nil => exact absurd rfl (hne c rest htrim hc)
      | cons d name =>
        obtain ⟨rfl, -⟩ := List.cons_prefix_cons.1 hname
        obtain ⟨rfl, -⟩ := List.cons_prefix_cons.1 hname'
        rw [hblanks d List.mem_cons_self] at hc
        cases hc

/-- Before a dot, nothing can be put at the end of a schema without a trace. -/
theorem eq_trimRight_of_segments {cs xs ys : List Char}
    (h : segments cs ++ segments xs = segments (Text.trimRight cs) ++ segments ys) :
    cs = Text.trimRight cs := by
  rw [← segments_append_dot, ← segments_append_dot] at h
  obtain ⟨blanks, hblanks⟩ := Text.prefix_trimRight cs
  have hdot : Text.isBlank '.' = false := by decide
  cases blanks with
  | nil =>
    rw [List.append_nil] at hblanks
    exact hblanks.symm
  | cons b blanks =>
    have htexts := segments_injective h
    nth_rewrite 1 [← hblanks] at htexts
    rw [List.append_assoc, List.append_cancel_left_eq] at htexts
    obtain rfl : b = '.' := (List.cons.inj htexts).1
    have hright : Text.trimRight cs = Text.trimRight cs ++ '.' :: Text.trimRight blanks := by
      nth_rewrite 1 [← hblanks]
      exact Text.trimRight_append_cons hdot _ _
    simp at hright

/-- A qualified name is the schema before the table exactly if no blank stands beside the dot. -/
theorem ofChars_append_dot_eq_iff {schema : List Char} (h : ¬ ContainsAs schema)
    (table : List Char) :
    ofChars (schema ++ '.' :: table) = (ofChars table).within (Text.trim schema) ↔
      Seamless schema table := by
  rw [ofChars_append_dot h, ofChars_eq_ofTrimmedRight]
  constructor
  · intro heq
    obtain ⟨name, -, hname, -⟩ := name_ofTrimmedRight (Text.trimRight table)
    obtain ⟨name', -, hname', -⟩ := name_ofTrimmedRight (Text.trim table)
    have hnames : segments (Text.trimLeft schema) ++ (ofTrimmedRight (Text.trimRight table)).name =
        segments (Text.trim schema) ++ (ofTrimmedRight (Text.trim table)).name :=
      congrArg Identifier.name heq
    have hschema : Text.trimLeft schema = Text.trim schema := by
      rw [hname, hname'] at hnames
      exact eq_trimRight_of_segments hnames
    rw [hschema, List.append_cancel_left_eq] at hnames
    exact ⟨hschema, trimRight_eq_trim_of_name hnames⟩
  · rintro ⟨hschema, htable⟩
    rw [hschema, htable]

theorem dotted_append (d : Dialect) {ss ts : List (List Char)} (hss : ss ≠ []) (hts : ts ≠ []) :
    dotted d (ss ++ ts) = dotted d ss ++ '.' :: dotted d ts := by
  induction ss with
  | nil => exact absurd rfl hss
  | cons s ss ih =>
    cases ss with
    | nil =>
      cases ts with
      | nil => exact absurd rfl hts
      | cons t ts => rfl
    | cons r rs =>
      have hcons (us : List (List Char)) :
          dotted d (s :: r :: us) = d.quoteSegment s ++ '.' :: dotted d (r :: us) := rfl
      rw [List.cons_append, List.cons_append, hcons, ← List.cons_append, ih (by simp), hcons,
        List.append_assoc, List.cons_append]

/-- The text of a table after that of a schema. -/
theorem chars_within (d : Dialect) {i : Identifier} (hname : i.name ≠ []) (schema : List Char) :
    (i.within schema).chars d = dotted d (segments schema) ++ '.' :: i.chars d := by
  rw [chars, within, dotted_append d (segments_ne_nil schema) hname, chars, List.append_assoc,
    List.cons_append]

end Identifier

open Identifier

/-- A text without the word in it has no alias. -/
theorem Dialect.wrap_of_not_containsAs (d : Dialect) {identifier : String}
    (h : ¬ ContainsAs identifier.toList) :
    d.wrap identifier = String.ofList (dotted d (segments (Text.trim identifier.toList))) := by
  have hnone : splitAlias? (Text.trim identifier.toList) = none :=
    (splitAlias?_eq_none_iff _).2 fun hcontains => h (hcontains.mono (Text.infix_trim _))
  rw [Dialect.wrap, ofChars, hnone]
  simp [chars]

/-- The schema, a dot and the table are an identifier too. -/
theorem Dialect.wrap_dot_wrap (d : Dialect) {schema : String} (h : ¬ ContainsAs schema.toList)
    (table : String) :
    d.wrap schema ++ "." ++ d.wrap table =
      String.ofList (((ofChars table.toList).within (Text.trim schema.toList)).chars d) := by
  have hdot : "." = String.ofList ['.'] := rfl
  rw [d.wrap_of_not_containsAs h, Dialect.wrap, chars_within d (Reader.name_ofChars_ne_nil _),
    hdot, ← String.ofList_append, ← String.ofList_append, List.append_assoc, List.singleton_append]

theorem Reader.ofChars_eq_within_iff {schema : String} (h : ¬ ContainsAs schema.toList)
    (name table : String) :
    ofChars name.toList = (ofChars table.toList).within (Text.trim schema.toList) ↔
      Dialect.clickhouse.wrap name =
        Dialect.clickhouse.wrap schema ++ "." ++ Dialect.clickhouse.wrap table := by
  rw [Dialect.clickhouse.wrap_dot_wrap h, Dialect.wrap]
  constructor
  · intro heq
    rw [heq]
  · intro htext
    have hname : ((ofChars table.toList).within (Text.trim schema.toList)).name ≠ [] :=
      List.append_ne_nil_of_left_ne_nil (segments_ne_nil _) _
    exact (eq_ofChars_of_chars_eq hname (alias?_ofChars_ne_some_nil table.toList)
      (String.ofList_injective htext).symm).symm

/-- The second result is the first one with a schema and a dot before the table, which stands behind
the text `front`. -/
def Statement.Qualifies (front schema table : String) :
    Except CompileError Statement → Except CompileError Statement → Prop
  | .ok s, .ok t => ∃ rest, s.sql = front ++ table ++ rest ∧
      t = { s with sql := front ++ schema ++ "." ++ table ++ rest }
  | .error e, .error e' => e = e'
  | _, _ => False

theorem Statement.qualifies_ok (front schema table rest : String) (bindings : List Value)
    (undefinedInWhere : Bool) (advisories : List Advisory) :
    Qualifies front schema table
      (.ok ⟨front ++ table ++ rest, bindings, undefinedInWhere, advisories⟩)
      (.ok ⟨front ++ (schema ++ "." ++ table) ++ rest, bindings, undefinedInWhere,
        advisories⟩) :=
  ⟨rest, rfl, by simp only [String.append_assoc]⟩

namespace Dialect

section Places

variable {d : Dialect} {schema table : String}
  (h : d.wrap (qualified (some schema) table) = d.wrap schema ++ "." ++ d.wrap table)
include h

theorem qualifies_compileSelect {q : Query} (hq : q.table = some table) :
    Statement.Qualifies ("select " ++ d.columnsText q.columns ++ " from ") (d.wrap schema)
      (d.wrap table) (d.compileSelect { q with schema := none })
      (d.compileSelect { q with schema := some schema }) := by
  have hsql (t : String) (ts : List String) :
      spacedText (("select " ++ d.columnsText q.columns) :: ("from " ++ t) :: ts) =
        "select " ++ d.columnsText q.columns ++ " from " ++ t ++ spacedAfterText ts := by
    have hfrom : " from " = " " ++ "from " := rfl
    rw [spacedText_cons (by simp), spacedAfterText_cons, if_neg (by simp), hfrom]
    simp only [String.append_assoc]
  rw [compileSelect_eq_selectFromParts, compileSelect_eq_selectFromParts, selectFromParts,
    selectFromParts]
  simp only [sourceText, hq, Option.elim_some, h, hsql]
  cases d.compileArrayJoins q.categories.arrayJoins with
  | error e => rfl
  | ok joins =>
    cases d.compilePrewhere q.categories.prewhere with
    | error e => rfl
    | ok prewhere =>
      cases d.compileWhere q.categories.filter with
      | error e => rfl
      | ok filter => exact Statement.qualifies_ok ..

theorem qualifies_compileUpdate {q : Query} (hq : q.table = some table) :
    Statement.Qualifies "update " (d.wrap schema) (d.wrap table)
      (d.compileUpdate { q with schema := none })
      (d.compileUpdate { q with schema := some schema }) := by
  have hsql (t join : String) (ts : List String) (filter order limit : String) :
      assembleUpdate t join ts filter order limit =
        "update " ++ t ++ (spacedAfterText [join] ++ " set " ++ ", ".intercalate ts ++
          spacedAfterText [filter, order, limit]) := by
    rw [assembleUpdate]
    simp only [String.append_assoc]
  rw [compileUpdate_eq_updateFromParts, compileUpdate_eq_updateFromParts, updateFromParts,
    updateFromParts]
  simp only [hq, h, hsql]
  by_cases hempty : q.update.isEmpty = true
  · rw [if_pos hempty, if_pos hempty]
    rfl
  rw [if_neg hempty, if_neg hempty]
  cases d.compileArrayJoins q.categories.arrayJoins with
  | error e => rfl
  | ok joins =>
    cases d.compileWhere q.categories.filter with
    | error e => rfl
    | ok filter => exact Statement.qualifies_ok ..

theorem qualifies_compileArrayJoins {j : ArrayJoin} (hj : j.source = .name table) :
    Statement.Qualifies (j.kind.word ++ " join ") (d.wrap schema) (d.wrap table)
      (d.compileArrayJoins [{ j with schema := none }])
      (d.compileArrayJoins [{ j with schema := some schema }]) := by
  obtain ⟨source, schema', kind, conditions⟩ := j
  obtain rfl : source = .name table := hj
  rw [compileArrayJoins_singleton, compileArrayJoins_singleton]
  by_cases hkind : kind = .raw
  · rw [hkind]
    rfl
  let head (s : Option String) : Fragment :=
    [.word kind.word, .word " join ", .name (qualified s table)]
  have hfragment (s : Option String) :
      ArrayJoin.fragment d.writer ⟨.name table, s, kind, conditions⟩ =
        (JoinCondition.members d.writer conditions).map
          ((head s ++ ·) ∘ Member.chain JoinCondition.opening) :=
    ArrayJoin.fragment_withConditions d.writer (j := ⟨.name table, s, kind, conditions⟩) hkind
      conditions
  have hsql (s : Option String) (rest : Fragment) :
      Fragment.written d.writer (head s ++ rest) =
        kind.word ++ " join " ++ d.wrap (qualified s table) ++ Fragment.written d.writer rest := by
    rw [Fragment.written_append, Fragment.written_word_cons, Fragment.written_word_cons,
      Fragment.written_name]
    simp only [String.append_assoc]
  dsimp only
  rw [hfragment, hfragment]
  cases JoinCondition.members d.writer conditions with
  | error e => rfl
  | ok ms =>
    simp only [Except.map, Function.comp_apply, Fragment.statement, hsql, h]
    exact Statement.qualifies_ok ..

end Places

/-- The name of a table in a schema is the schema, a dot and the name of the table alone if no blank
stands beside the dot. Then nothing else changes in a selection, an update or an array join. A blank
beside the dot shows in the name. -/
theorem wrap_qualified {schema : String} (hschema : ¬ ContainsAs schema.toList) (table : String) :
    (∀ d : Dialect, d.wrap (qualified (some schema) table) = String.ofList
      (((ofTrimmedRight (Text.trimRight table.toList)).within
        (Text.trimLeft schema.toList)).chars d)) ∧
    (Seamless schema.toList table.toList → ∀ d : Dialect,
      d.wrap (qualified (some schema) table) =
        d.wrap schema ++ "." ++ d.wrap (qualified none table) ∧
      (∀ q : Query, q.table = some table →
        Statement.Qualifies ("select " ++ d.columnsText q.columns ++ " from ") (d.wrap schema)
          (d.wrap table) (d.compileSelect { q with schema := none })
          (d.compileSelect { q with schema := some schema }) ∧
        Statement.Qualifies "update " (d.wrap schema) (d.wrap table)
          (d.compileUpdate { q with schema := none })
          (d.compileUpdate { q with schema := some schema })) ∧
      ∀ j : ArrayJoin, j.source = .name table →
        Statement.Qualifies (j.kind.word ++ " join ") (d.wrap schema) (d.wrap table)
          (d.compileArrayJoins [{ j with schema := none }])
          (d.compileArrayJoins [{ j with schema := some schema }])) ∧
    (¬ Seamless schema.toList table.toList →
      clickhouse.wrap (qualified (some schema) table) ≠
        clickhouse.wrap schema ++ "." ++ clickhouse.wrap (qualified none table)) := by
  have htext : (qualified (some schema) table).toList = schema.toList ++ '.' :: table.toList := by
    simp [qualified]
  refine ⟨fun d => ?_, fun hseamless d => ?_, fun hseam heq => ?_⟩
  · rw [Dialect.wrap, htext, ofChars_append_dot hschema]
  · have hname : d.wrap (qualified (some schema) table) = d.wrap schema ++ "." ++ d.wrap table := by
      rw [d.wrap_dot_wrap hschema, Dialect.wrap, htext,
        (ofChars_append_dot_eq_iff hschema _).2 hseamless]
    exact ⟨hname,
      fun q hq => ⟨qualifies_compileSelect hname hq, qualifies_compileUpdate hname hq⟩,
      fun j hj => qualifies_compileArrayJoins hname hj⟩
  · have hidentifier := (Reader.ofChars_eq_within_iff hschema _ table).2 heq
    rw [htext] at hidentifier
    exact hseam ((ofChars_append_dot_eq_iff hschema _).1 hidentifier)

theorem wrap_qualified_beforeBlank :
    ¬ ContainsAs "db as.x".toList ∧ Seamless "db as.x".toList "events as e ".toList ∧
      plain.wrap (qualified (some "db as.x") "events as e ") =
        plain.wrap "db as.x" ++ "." ++ plain.wrap "events as e " ∧
      ¬ Seamless "db as.x".toList " events".toList ∧
      clickhouse.wrap (qualified (some "db as.x") " events") ≠
        clickhouse.wrap "db as.x" ++ "." ++ clickhouse.wrap " events" := by
  have hschema : ¬ ContainsAs "db as.x".toList := by decide +kernel
  have hseamless : Seamless "db as.x".toList "events as e ".toList := by decide +kernel
  have hseam : ¬ Seamless "db as.x".toList " events".toList := by decide +kernel
  obtain ⟨-, htable, -⟩ := wrap_qualified hschema "events as e "
  obtain ⟨-, -, hblank⟩ := wrap_qualified hschema " events"
  exact ⟨hschema, hseamless, (htable hseamless plain).1, hseam, hblank hseam⟩

end Dialect

end ClauseTree
