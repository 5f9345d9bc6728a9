import ClauseTree.Proofs.Fragment.Members
import ClauseTree.Proofs.Statement.Reader

/-!
# Reading tests back

What is written for a test without raw text is read back as its normal form, whatever stands behind
it. That is shown part by part in the order of the text: the lists of a membership test, what stands
behind a column, the test. Each part asks of the text behind it that it does not go on with what
might belong to the part. Only a name asks for anything, and `EndsName` is what it asks for.
-/

namespace ClauseTree

open Condition Dialect Fragment Reader

theorem Fragment.chars_joined (w : Writer) (word : String) (fs : List Fragment) :
    chars w (joined word fs) = word.toList.intercalate (fs.map (chars w)) := by
  induction fs with
  | nil => rfl
  | cons f fs ih =>
    cases fs with
    | nil => rw [joined, List.map_cons, List.map_nil, List.intercalate_singleton]
    | cons g gs =>
      have hjoined : joined word (f :: g :: gs) = f ++ .word word :: joined word (g :: gs) := rfl
      rw [hjoined, chars_append, chars_cons, ih, List.map_cons, List.map_cons, List.map_cons,
        List.intercalate_cons_cons, List.append_assoc]
      rfl

namespace Reader

/-! ## Lists -/

theorem items?_names (names : List String) (rest : List Char) :
    items? identifier? (chars clickhouse.writer (namesFragment names) ++ ')' :: rest) =
      some (names.map fun n => Identifier.ofChars n.toList, rest) := by
  have hchars (n : String) : chars clickhouse.writer [.name n] =
      (Identifier.ofChars n.toList).chars clickhouse := List.append_nil _
  rw [namesFragment, chars_joined, List.map_map]
  refine items?_intercalate EndsName ?_ ?_ ?_ ?_ names rest
  · intro n rest hrest
    rw [Function.comp_apply, hchars, identifier?_ofChars n.toList hrest]
  · intro n rest
    rw [Function.comp_apply, hchars]
    exact (startsName_chars n.toList rest).word?_eq_none fun _ => ⟨rfl, rfl⟩
  · exact fun rest => ⟨rfl, rfl, rfl⟩
  · exact fun rest => ⟨rfl, rfl, rfl⟩

theorem items?_values (vs : List Value) (rest : List Char) :
    items? value? (chars clickhouse.writer (joined ", " (vs.map fun v => [.value v])) ++
        ')' :: rest) = some (vs.map fun _ => (), rest) := by
  rw [chars_joined, List.map_map]
  exact items?_intercalate (fun _ => True) (fun _ _ _ => rfl) (fun _ _ => rfl)
    (fun _ => trivial) (fun _ => trivial) vs rest

theorem chars_parenthesized (w : Writer) (f : Fragment) (rest : List Char) :
    chars w (parenthesized f) ++ rest = '(' :: (chars w f ++ ')' :: rest) := by
  rw [parenthesized, chars_cons, chars_append, List.append_assoc, List.append_assoc]
  rfl

theorem row?_valuesFragment (vs : List Value) (rest : List Char) :
    row? (chars clickhouse.writer (valuesFragment vs) ++ rest) =
      some (vs.map fun _ => (), rest) := by
  rw [valuesFragment, chars_parenthesized]
  exact items?_values vs rest

theorem items?_rows (rs : List (List Value)) (rest : List Char) :
    items? row? (chars clickhouse.writer (joined ", " (rs.map valuesFragment)) ++ ')' :: rest) =
      some (rs.map (List.map fun _ => ()), rest) := by
  rw [chars_joined, List.map_map]
  refine items?_intercalate (fun _ => True) (fun vs rest _ => ?_) (fun vs rest => ?_)
    (fun _ => trivial) (fun _ => trivial) rs rest
  · exact row?_valuesFragment vs rest
  · rw [Function.comp_apply, valuesFragment, chars_parenthesized]
    rfl

/-! ## Tests -/

theorem head?_joined (w : Writer) (word : String) (f : Fragment) (fs : List Fragment)
    {c : Char} (h : (chars w f).head? = some c) (rest : List Char) :
    (chars w (joined word (f :: fs)) ++ rest).head? = some c := by
  cases fs with
  | nil =>
    rw [joined, List.head?_append, h]
    rfl
  | cons g gs =>
    have hjoined : joined word (f :: g :: gs) = f ++ .word word :: joined word (g :: gs) := rfl
    rw [hjoined, chars_append, List.append_assoc, List.head?_append, h]
    rfl

theorem candidates?_list (columns : NormalColumns) {vs : List Value} (hne : vs ≠ [])
    (rest : List Char) :
    candidates? columns (chars clickhouse.writer (joined ", " (vs.map fun v => [.value v])) ++
        ')' :: rest) = some (.inList columns (vs.map fun _ => ()), rest) := by
  have hread := items?_values vs rest
  cases vs with
  | nil => exact absurd rfl hne
  | cons v vs =>
    have hhead := head?_joined clickhouse.writer ", " [.value v] (vs.map fun v => [.value v])
      (c := '?') rfl (')' :: rest)
    rw [List.map_cons] at hread ⊢
    rw [candidates?, hhead, if_neg (by decide), hread]
    rfl

theorem candidates?_rows (columns : NormalColumns) {rs : List (List Value)} (hne : rs ≠ [])
    (rest : List Char) :
    candidates? columns (chars clickhouse.writer (joined ", " (rs.map valuesFragment)) ++
        ')' :: rest) = some (.inRows columns (rs.map (List.map fun _ => ())), rest) := by
  have hread := items?_rows rs rest
  cases rs with
  | nil => exact absurd rfl hne
  | cons vs rs =>
    have hhead := head?_joined clickhouse.writer ", " (valuesFragment vs)
      (rs.map valuesFragment) (c := '(') rfl (')' :: rest)
    rw [List.map_cons] at hread ⊢
    rw [candidates?, hhead, if_pos rfl, hread]
    rfl

/-- Candidates are read back together with the columns in front of them. -/
theorem candidates?_fragment (columns : Columns) {candidates : Candidates}
    (hraw : Leaf.raws candidates.leaves = []) (hne : candidates.isEmpty = false)
    (rest : List Char) :
    ∃ text, chars clickhouse.writer candidates.fragment ++ rest = '(' :: text ∧
      candidates? columns.normal text =
        some ((NormalTest.membership columns candidates).shape, rest) := by
  cases candidates with
  | raw r => cases hraw
  | rows rs =>
    have hrs : rs ≠ [] := by
      rintro rfl
      cases hne
    refine ⟨_, chars_parenthesized _ _ rest, ?_⟩
    rw [candidates?_rows columns.normal hrs, NormalTest.membership, if_neg (by simpa using hrs)]
    rfl
  | list vs =>
    have hvs : vs ≠ [] := by
      rintro rfl
      cases hne
    refine ⟨_, chars_parenthesized _ _ rest, ?_⟩
    rw [candidates?_list columns.normal hvs, NormalTest.membership, if_neg (by simpa using hvs)]
    rfl

/-- A membership test that has candidates is read back behind its columns. -/
theorem membership?_fragment (columns : Columns) {candidates : Candidates}
    (hraw : Leaf.raws candidates.leaves = []) (hne : candidates.isEmpty = false) (n : Bool)
    (rest : List Char) :
    membership? columns.normal (chars clickhouse.writer
        ([.word " "] ++ negation n ++ [.word "in "] ++ candidates.fragment) ++ rest) =
      some (((NormalTest.membership columns candidates).shape, n), rest) := by
  obtain ⟨text, htext, hread⟩ := candidates?_fragment columns hraw hne rest
  have hin : word? " in (" (' ' :: 'i' :: 'n' :: ' ' :: '(' :: text) = some text := rfl
  have hnotIn : word? " not in (" (" not in (".toList ++ text) = some text :=
    word?_append " not in (" text
  rw [chars_append, List.append_assoc, htext]
  cases n with
  | false =>
    change membership? columns.normal (' ' :: 'i' :: 'n' :: ' ' :: '(' :: text) = _
    rw [membership?, hin]
    simp [hread]
  | true =>
    change membership? columns.normal (" not in (".toList ++ text) = _
    have hnone : word? " in (" (" not in (".toList ++ text) = none := rfl
    rw [membership?, hnone]
    simp only [hnotIn]
    simp [hread]

/-- No operator is the beginning of another one with a blank behind it. -/
theorem operator?_of_mem {op : String} (h : op ∈ operators) (rest : List Char) :
    operator? (' ' :: (op.toList ++ ' ' :: rest)) = some (op, rest) ∧
      EndsName (' ' :: (op.toList ++ ' ' :: rest)) := by
  simp only [operators, commonOperators, List.cons_append, List.nil_append, List.mem_cons,
    List.not_mem_nil, or_false] at h
  rcases h with rfl | rfl | rfl | rfl | rfl | rfl | rfl | rfl | rfl | rfl | rfl | rfl | rfl | rfl |
    rfl | rfl <;> exact ⟨rfl, rfl, rfl, rfl⟩

theorem comparison?_fragment (column : String) {operator : String}
    (hoperator : normalize operator ∈ operators) {value : Operand}
    (hraw : Leaf.raws value.leaves = []) {rest : List Char} (hrest : EndsName rest) :
    comparison? (Identifier.ofChars column.toList) (' ' :: ((normalize operator).toList ++
        ' ' :: (chars clickhouse.writer value.fragment ++ rest))) =
      some ((NormalTest.comparison column operator value).shape, rest) := by
  rw [comparison?, (operator?_of_mem hoperator _).1]
  cases value with
  | raw r => cases hraw
  | value v => rfl
  | column other =>
    have hchars : chars clickhouse.writer (Operand.column other).fragment =
        (Identifier.ofChars other.toList).chars clickhouse := List.append_nil _
    have hnone : value? ((Identifier.ofChars other.toList).chars clickhouse ++ rest) = none := by
      rw [value?, (startsName_chars other.toList rest).word?_eq_none fun _ => ⟨rfl, rfl⟩]
      rfl
    simp only [Option.bind_eq_bind, Option.bind_some, hchars, hnone,
      identifier?_ofChars other.toList hrest]
    rfl

/-! ## Tests -/

theorem chars_name_cons (name : String) (f : Fragment) (rest : List Char) :
    chars clickhouse.writer (.name name :: f) ++ rest =
      (Identifier.ofChars name.toList).chars clickhouse ++ (chars clickhouse.writer f ++ rest) := by
  rw [chars_cons, List.append_assoc]
  rfl

theorem constant?_eq_none {cs : List Char} (h : StartsName cs) : constant? cs = none := by
  rw [constant?, fixed?, fixed?, h.word?_eq_none fun _ => ⟨rfl, rfl⟩,
    h.word?_eq_none fun _ => ⟨rfl, rfl⟩]
  rfl

theorem negated?_eq_none {cs : List Char} (h : StartsName cs) : negated? cs = none := by
  rw [negated?, h.word?_eq_none fun _ => ⟨rfl, rfl⟩]
  rfl

theorem columns?_eq_none {cs : List Char} (h : StartsName cs) : columns? cs = none := by
  rw [columns?, h.word?_eq_none fun _ => ⟨rfl, rfl⟩]
  rfl

/-- Of a test that starts with the name of its column the rest is read behind the name. -/
theorem test?_name (k : Connector) (column : String) {text : List Char} (hends : EndsName text) :
    test? k ((Identifier.ofChars column.toList).chars clickhouse ++ text) =
      (behindColumn? (Identifier.ofChars column.toList) text).map fun ((t, n), cs) =>
        (.test t n k, cs) := by
  have hstart := startsName_chars column.toList text
  have hsingle : single? ((Identifier.ofChars column.toList).chars clickhouse ++ text) =
      behindColumn? (Identifier.ofChars column.toList) text := by
    rw [single?, identifier?_ofChars column.toList hends]
    rfl
  rw [test?, constant?_eq_none hstart, negated?_eq_none hstart, columns?_eq_none hstart, hsingle]
  rfl

theorem test?_single (k : Connector) (column : String) {text rest : List Char}
    (hends : EndsName text) {t : NormalTest Unit} {n : Bool}
    (h : behindColumn? (Identifier.ofChars column.toList) text = some ((t, n), rest)) :
    test? k ((Identifier.ofChars column.toList).chars clickhouse ++ text) =
      some (.test t n k, rest) := by
  rw [test?_name k column hends, h]
  rfl

theorem test?_comparison (k : Connector) (column : String) {operator : String}
    (hoperator : normalize operator ∈ operators) {value : Operand}
    (hraw : Leaf.raws value.leaves = []) (n : Bool) {rest : List Char} (hrest : EndsName rest) :
    test? k (chars clickhouse.writer (negation n ++ .name column :: [.word " ",
        .word (normalize operator), .word " "] ++ value.fragment) ++ rest) =
      some (.test (NormalTest.comparison column operator value).shape n k, rest) := by
  have hread := comparison?_fragment column hoperator hraw hrest
  obtain ⟨-, hends⟩ := operator?_of_mem hoperator (chars clickhouse.writer value.fragment ++ rest)
  have htext : chars clickhouse.writer (.name column :: [.word " ", .word (normalize operator),
      .word " "] ++ value.fragment) ++ rest =
        (Identifier.ofChars column.toList).chars clickhouse ++
          ' ' :: ((normalize operator).toList ++
            ' ' :: (chars clickhouse.writer value.fragment ++ rest)) := by
    rw [List.cons_append, chars_name_cons]
    simp [Piece.chars]
  rw [List.append_assoc, chars_append, List.append_assoc, htext]
  cases n with
  | false =>
    refine test?_single k column hends ?_
    rw [behindColumn?, hread]
    rfl
  | true =>
    have hconstant (cs : List Char) : constant? ("not ".toList ++ cs) = none := rfl
    have hnot : chars clickhouse.writer (negation true) = "not ".toList := rfl
    rw [hnot, test?, hconstant, negated?, word?_append]
    simp only [Option.bind_eq_bind, Option.bind_some, identifier?_ofChars column.toList hends,
      hread]
    rfl

theorem test?_membership (k : Connector) (columns : Columns) {candidates : Candidates}
    (hraw : Leaf.raws candidates.leaves = []) (hne : candidates.isEmpty = false) (n : Bool)
    (rest : List Char) :
    test? k (chars clickhouse.writer (columns.fragment ++ ([.word " "] ++ negation n ++
        [.word "in "] ++ candidates.fragment)) ++ rest) =
      some (.test (NormalTest.membership columns candidates).shape n k, rest) := by
  have hread := membership?_fragment columns hraw hne n rest
  rw [chars_append, List.append_assoc]
  cases columns with
  | single column =>
    obtain ⟨text, htext, -⟩ := candidates?_fragment (.single column) hraw hne rest
    have hname : chars clickhouse.writer (Columns.single column).fragment =
        (Identifier.ofChars column.toList).chars clickhouse := List.append_nil _
    rw [chars_append, List.append_assoc, htext] at hread ⊢
    rw [hname]
    cases n with
    | false => exact test?_single k column ⟨rfl, rfl, rfl⟩ hread
    | true => exact test?_single k column ⟨rfl, rfl, rfl⟩ hread
  | multi columns =>
    have hconstant (cs : List Char) : constant? ('(' :: cs) = none := rfl
    have hnegated (cs : List Char) : negated? ('(' :: cs) = none := rfl
    have hcolumns (cs : List Char) :
        columns? ('(' :: (chars clickhouse.writer (namesFragment columns) ++ ')' :: cs)) =
          membership? (Columns.multi columns).normal cs := by
      have hopen (cs : List Char) : word? "(" ('(' :: cs) = some cs := rfl
      rw [columns?, hopen]
      simp only [Option.bind_eq_bind, Option.bind_some, items?_names]
      rfl
    rw [Columns.fragment, chars_parenthesized, test?, hconstant, hnegated, hcolumns, hread]
    rfl

end Reader

open Reader

theorem mem_operators_of_operator {given op : String} (h : clickhouse.operator given = .ok op) :
    op = normalize given ∧ normalize given ∈ operators := by
  rw [Dialect.operator] at h
  split at h
  · next hpermits =>
    cases h
    exact ⟨rfl, List.contains_iff_mem.1 hpermits⟩
  · cases h

/-- A test without raw text is read back, up to its normal form and without its values. -/
theorem Test.test?_fragment {t : Test} {n : Bool} {f : Fragment}
    (h : t.fragment clickhouse n = .ok f) (hraw : Leaf.raws t.leaves = []) (k : Connector)
    {rest : List Char} (hrest : EndsName rest) :
    test? k (chars clickhouse.writer f ++ rest) = some (.test t.normal.shape n k, rest) := by
  cases t with
  | basic column operator value =>
    obtain ⟨op, hop, h⟩ := bind_eq_ok.1 h
    cases h
    obtain ⟨rfl, hoperator⟩ := mem_operators_of_operator hop
    exact test?_comparison k column hoperator hraw n hrest
  | isNull column =>
    cases h
    have hf : [.name column, .word " is "] ++ negation n ++ [.word "null"] =
      .name column :: ([.word " is "] ++ negation n ++ [.word "null"]) := rfl
    rw [hf, chars_name_cons]
    cases n with
    | false => exact test?_single k column ⟨rfl, rfl, rfl⟩ rfl
    | true => exact test?_single k column ⟨rfl, rfl, rfl⟩ rfl
  | isIn columns candidates =>
    rw [Test.fragment] at h
    rw [Test.leaves] at hraw
    split at h
    · next hempty =>
      cases h
      have hnever : (Test.isIn columns candidates).normal = .never := by
        cases candidates with
        | raw r => cases hempty
        | rows rs => exact if_pos hempty
        | list vs => exact if_pos hempty
      rw [hnever]
      cases n <;> rfl
    · next hempty =>
      cases h
      rw [if_neg hempty, Leaf.raws_append, List.append_eq_nil_iff] at hraw
      have hread := test?_membership k columns hraw.2 (by simpa using hempty) n rest
      have hnormal : (Test.isIn columns candidates).normal =
          NormalTest.membership columns candidates := rfl
      rw [hnormal]
      simpa only [List.append_assoc] using hread
  | between column low high =>
    cases h
    have hf : [.name column, .word " "] ++ negation n ++
        [.word "between ", .value low, .word " and ", .value high] =
      .name column :: ([.word " "] ++ negation n ++
        [.word "between ", .value low, .word " and ", .value high]) := rfl
    rw [hf, chars_name_cons]
    cases n with
    | false => exact test?_single k column ⟨rfl, rfl, rfl⟩ rfl
    | true => exact test?_single k column ⟨rfl, rfl, rfl⟩ rfl
  | hasRows subquery => cases hraw
  | raw r => cases hraw

end ClauseTree
