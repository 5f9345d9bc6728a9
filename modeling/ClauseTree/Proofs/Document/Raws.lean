import ClauseTree.Proofs.Document.RawRecords
import ClauseTree.Proofs.Fragment.Leaves
import ClauseTree.Proofs.Fragment.Vocabulary
import ClauseTree.Statement.Compile

/-!
# The raw text of a query

Of a document without the field `sql` one might think that it holds no raw text. `raws_parse`
says what is true: the raw texts of the query it describes are the arrays that read as raw
text at its raw places, in their order, so there are none exactly if no such array is there.
A query without raw text has a statement of words, names and placeholders alone.
-/

namespace ClauseTree

open Document

/-! ## Reading a query -/

theorem nullable?_of_ne_null {α : Type} (read : Json → Option α) {j : Json} (h : j ≠ .null) :
    nullable? read j = (read j).map some := by
  cases j with
  | null => exact absurd rfl h
  | _ => rfl

theorem Limit.rawsAt_nullable? :
    RawsAt (nullable? Limit.ofJson?) (fun l => l.elim [] Limit.leaves) fun j => [j] := by
  intro j l h hl
  by_cases hnull : j = .null
  · rw [hnull] at hl ⊢
    cases hl
    rfl
  · rw [nullable?_of_ne_null _ hnull, Option.map_eq_some_iff] at hl
    obtain ⟨l, hl, rfl⟩ := hl
    exact Limit.rawsAt_ofJson? j l h hl

theorem Categories.raws_ofFields? {fs : Fields} (h : Json.fieldsHaveKey "sql" fs = false)
    {c : Categories} (hc : Categories.ofFields? .lenient fs = some c) :
    Leaf.raws (c.arrayJoins.flatMap ArrayJoin.allLeaves) =
        ((itemsAt fs "arrayJoin").flatMap ArrayJoin.rawPlaces).filterMap Raw.ofArray? ∧
      Leaf.raws (WhereClause.leaves c.prewhere) =
        ((itemsAt fs "prewhere").flatMap WhereClause.rawPlaces).filterMap Raw.ofArray? ∧
      Leaf.raws (WhereClause.leaves c.filter) =
        ((itemsAt fs "where").flatMap WhereClause.rawPlaces).filterMap Raw.ofArray? ∧
      Leaf.raws (c.groupBy.flatMap GroupItem.leaves) =
        ((itemsAt fs "group").flatMap itemRawPlaces).filterMap Raw.ofArray? ∧
      Leaf.raws (c.orderBy.flatMap OrderItem.leaves) =
        ((itemsAt fs "order").flatMap itemRawPlaces).filterMap Raw.ofArray? := by
  obtain ⟨arrayJoins, harrayJoins, hc⟩ := Option.bind_eq_some_iff.1 hc
  obtain ⟨prewhere, hprewhere, hc⟩ := Option.bind_eq_some_iff.1 hc
  obtain ⟨filter, hfilter, hc⟩ := Option.bind_eq_some_iff.1 hc
  obtain ⟨groupBy, hgroupBy, hc⟩ := Option.bind_eq_some_iff.1 hc
  obtain ⟨orderBy, horderBy, hc⟩ := Option.bind_eq_some_iff.1 hc
  cases hc
  rw [WhereClause.leaves_eq_flatMap, WhereClause.leaves_eq_flatMap]
  exact ⟨(ArrayJoin.rawsAt_ofJson? .lenient).at_optional_list h harrayJoins,
    (WhereClause.rawsAt_ofJson? .lenient).at_optional_list h hprewhere,
    (WhereClause.rawsAt_ofJson? .lenient).at_optional_list h hfilter,
    GroupItem.rawsAt_ofJson?.at_optional_list h hgroupBy,
    OrderItem.rawsAt_ofJson?.at_optional_list h horderBy⟩

namespace Query

theorem raws_tableLeaves (q : Query) : Leaf.raws q.tableLeaves = [] := by
  rw [tableLeaves]
  cases q.table <;> rfl

theorem rawsAt_ofJson? : RawsAt Query.ofJson? Query.leaves Query.rawPlaces := by
  intro j q h hq
  cases j with
  | object fs =>
    rw [ofJson?] at hq
    split at hq
    · cases hq
    · obtain ⟨table, -, hq⟩ := Option.bind_eq_some_iff.1 hq
      obtain ⟨schema, -, hq⟩ := Option.bind_eq_some_iff.1 hq
      obtain ⟨columns, -, hq⟩ := Option.bind_eq_some_iff.1 hq
      obtain ⟨categories, hcategories, hq⟩ := Option.bind_eq_some_iff.1 hq
      obtain ⟨update, hupdate, hq⟩ := Option.bind_eq_some_iff.1 hq
      obtain ⟨limit, hlimit, hq⟩ := Option.bind_eq_some_iff.1 hq
      obtain ⟨offset, -, hq⟩ := Option.bind_eq_some_iff.1 hq
      obtain ⟨lock, -, hq⟩ := Option.bind_eq_some_iff.1 hq
      obtain ⟨returning, -, hq⟩ := Option.bind_eq_some_iff.1 hq
      cases hq
      obtain ⟨hjoins, hprewhere, hfilter, hgroupBy, horderBy⟩ :=
        Categories.raws_ofFields? h hcategories
      have hassignments := Assignment.rawsAt_ofJson?.at_optional_list h hupdate
      have hlimits := Limit.rawsAt_nullable?.at_optional_self rfl h hlimit
      simp only [leaves, rawPlaces, Leaf.raws_append, List.filterMap_append, Leaf.raws_names,
        raws_tableLeaves, List.nil_append, Json.fields, limitLeaves]
      rw [hjoins, hprewhere, hfilter, hgroupBy, horderBy, hlimits, hassignments]
  | _ => cases hq

end Query

/-! ## Skipped fields -/

theorem lookup_filter {names : List String} {name : String} (hname : names.contains name = true)
    (fs : Fields) : (fs.filter fun f => names.contains f.1).lookup name = fs.lookup name := by
  induction fs with
  | nil => rfl
  | cons f fs ih =>
    by_cases hf : names.contains f.1 = true
    · rw [List.filter_cons, if_pos hf, List.lookup_cons, List.lookup_cons, ih]
    · have hne : (name == f.1) = false := by
        rw [beq_eq_false_iff_ne]
        rintro rfl
        exact hf hname
      rw [List.filter_cons, if_neg hf, List.lookup_cons, hne, ih]

theorem distinct_filter (names : List String) (fs : Fields) :
    distinct names (fs.filter fun f => names.contains f.1) = distinct names fs := by
  have hcount (n : String) (hn : n ∈ names) :
      (fs.filter fun f => names.contains f.1).countP (fun f => f.1 == n) =
        fs.countP fun f => f.1 == n := by
    rw [List.countP_filter]
    refine List.countP_congr fun f _ => ?_
    rw [Bool.and_eq_true, beq_iff_eq, List.contains_iff_mem]
    constructor
    · exact fun h => h.1
    · rintro rfl
      exact ⟨rfl, hn⟩
  rw [Bool.eq_iff_iff, distinct, distinct, List.all_eq_true, List.all_eq_true]
  refine forall₂_congr fun n hn => ?_
  rw [hcount n hn]

theorem Json.fieldsHaveKey_filter {key : String} {fs : Fields} (p : String × Json → Bool)
    (h : fieldsHaveKey key fs = false) : fieldsHaveKey key (fs.filter p) = false := by
  refine fieldsHaveKey_eq_false.2 fun f hf => ?_
  exact fieldsHaveKey_eq_false.1 h f (List.mem_filter.1 hf).1

namespace Assignment

/-- What is skipped of an assignment is not its value. -/
theorem rawPlaces_keep (j : Json) : rawPlaces (FromDocument.keep Assignment j) = rawPlaces j := by
  cases j with
  | object fs =>
    have hvalue : (fs.filter fun f => fieldNames.contains f.1).lookup "value" = fs.lookup "value" :=
      lookup_filter (by decide) fs
    change rawPlaces (.object (fs.filter fun f => fieldNames.contains f.1)) = _
    rw [rawPlaces, rawPlaces, record?, record?, distinct_filter]
    by_cases hdistinct : distinct fieldNames fs = true
    · simp only [if_pos hdistinct, fieldAt, hvalue]
    · simp only [if_neg hdistinct]
  | _ => rfl

theorem hasKey_keep {key : String} {j : Json} (h : j.hasKey key = false) :
    (FromDocument.keep Assignment j).hasKey key = false := by
  cases j with
  | object fs => exact Json.fieldsHaveKey_filter _ h
  | _ => exact h

end Assignment

section MapItems

variable {name : String} (f : Json → Json)

theorem lookup_mapItems_of_ne {n : String} (hne : n ≠ name) (fs : Fields) :
    (mapItems name 0 f (.object fs)).fields.lookup n = fs.lookup n := by
  rw [mapItems, Json.fields]
  induction fs with
  | nil => rfl
  | cons g fs ih =>
    obtain ⟨m, j⟩ := g
    rw [List.map_cons]
    by_cases hm : m = name
    · have hbeq : (n == m) = false := by
        rw [beq_eq_false_iff_ne, hm]
        exact hne
      simp only [if_pos hm]
      rw [List.lookup_cons, List.lookup_cons, hbeq, ih]
    · simp only [if_neg hm]
      rw [List.lookup_cons, List.lookup_cons, ih]

theorem lookup_mapItems_self (fs : Fields) :
    (mapItems name 0 f (.object fs)).fields.lookup name =
      (fs.lookup name).map (mapItems.items f) := by
  rw [mapItems, Json.fields]
  induction fs with
  | nil => rfl
  | cons g fs ih =>
    obtain ⟨m, j⟩ := g
    rw [List.map_cons]
    by_cases hm : m = name
    · simp only [if_pos hm]
      rw [hm, List.lookup_cons_self, List.lookup_cons_self, Option.map_some]
    · have hbeq : (name == m) = false := by
        rw [beq_eq_false_iff_ne]
        exact Ne.symm hm
      simp only [if_neg hm]
      rw [List.lookup_cons, List.lookup_cons, hbeq, ih]

theorem itemsAt_mapItems_of_ne {n : String} (hne : n ≠ name) (fs : Fields) :
    itemsAt (mapItems name 0 f (.object fs)).fields n = itemsAt fs n := by
  rw [itemsAt, itemsAt, fieldAt, fieldAt, lookup_mapItems_of_ne f hne]

theorem itemsAt_mapItems_self (fs : Fields) :
    itemsAt (mapItems name 0 f (.object fs)).fields name = (itemsAt fs name).map f := by
  rw [itemsAt, itemsAt, fieldAt, fieldAt, lookup_mapItems_self f]
  cases fs.lookup name with
  | none => rfl
  | some j =>
    rw [Option.map_some, Option.toList_some, Option.toList_some, List.flatMap_singleton,
      List.flatMap_singleton]
    cases j <;> rfl

theorem Json.hasKey_mapItems {key : String} {f : Json → Json}
    (hf : ∀ j, j.hasKey key = false → (f j).hasKey key = false) {fs : Fields}
    (h : hasKey key (.object fs) = false) :
    (mapItems name 0 f (.object fs)).hasKey key = false := by
  refine fieldsHaveKey_eq_false.2 fun g hg => ?_
  obtain ⟨⟨m, j⟩, hmem, hg⟩ := List.mem_map.1 hg
  obtain ⟨hm, hj⟩ := fieldsHaveKey_eq_false.1 h _ hmem
  by_cases heq : m = name
  · simp only [if_pos heq] at hg
    rw [← hg]
    refine ⟨hm, ?_⟩
    cases j with
    | array js =>
      refine itemsHaveKey_eq_false.2 fun i hi => ?_
      obtain ⟨i', hi', rfl⟩ := List.mem_map.1 hi
      exact hf i' (itemsHaveKey_eq_false.1 hj i' hi')
    | _ => exact hj
  · simp only [if_neg heq] at hg
    rw [← hg]
    exact ⟨hm, hj⟩

end MapItems

namespace Query

variable {q : Query}

/-- A query is read from the document itself, although some of it is skipped before. -/
theorem raws_eq_of_parse? {text : String} {j : Json} (hj : Json.parse text = some j)
    (h : j.hasKey "sql" = false) (hq : FromDocument.parse? text = some q) :
    q.raws = (rawPlaces j).filterMap Raw.ofArray? := by
  obtain ⟨j', hj', hq⟩ := Option.bind_eq_some_iff.1 hq
  cases hj.symm.trans hj'
  change (if _ then Query.ofJson? (mapItems "update" 0 (FromDocument.keep Assignment) j)
    else none) = some q at hq
  split at hq
  · cases j with
    | object fs =>
      have hkey : (mapItems "update" 0 (FromDocument.keep Assignment) (.object fs)).hasKey "sql" =
          false := Json.hasKey_mapItems (fun _ => Assignment.hasKey_keep) h
      have hraws := rawsAt_ofJson? _ q hkey hq
      have hlimit : ("limit" : String) ≠ "update" := by decide
      rw [raws, hraws, rawPlaces, itemsAt_mapItems_of_ne _ (by decide),
        itemsAt_mapItems_of_ne _ (by decide), itemsAt_mapItems_of_ne _ (by decide),
        itemsAt_mapItems_of_ne _ (by decide), itemsAt_mapItems_of_ne _ (by decide),
        itemsAt_mapItems_self, fieldAt, lookup_mapItems_of_ne _ hlimit, List.flatMap_map]
      simp only [Assignment.rawPlaces_keep]
      rfl
    | _ => cases hq
  · cases hq

end Query

/-! ## Statements without raw text -/

namespace Query

variable {q : Query}

/-- Without raw text a statement consists of words, names and placeholders. -/
theorem exists_fragment_of_raws_eq_nil (hraws : q.raws = []) {d : Dialect} {kind : StatementKind}
    {s : Statement} (hs : d.compile kind q = .ok s) :
    ∃ f : Fragment, s.sql = f.text d ∧ s.bindings = f.bindings ∧ f.Spoken d ∧
      ∀ r, Piece.raw r ∉ f := by
  have hraw (f : Fragment) (hf : ∀ l ∈ Fragment.leaves f, l ∈ q.leaves) (r : Raw) :
      Piece.raw r ∉ f := by
    intro hr
    have hleaf : .raw r ∈ Fragment.leaves f := List.mem_filterMap.2 ⟨.raw r, hr, rfl⟩
    have hmem : r ∈ q.raws := Leaf.mem_raws.2 (hf _ hleaf)
    rw [hraws] at hmem
    cases hmem
  cases kind with
  | select =>
    obtain ⟨f, hf, hs⟩ := bind_eq_ok.1 hs
    cases hs
    refine ⟨f, rfl, rfl, spoken_selectFragment hf, hraw f ?_⟩
    rw [leaves_selectFragment hf]
    exact fun _ => mem_leaves_of_mem_selectLeaves
  | update =>
    obtain ⟨f, hf, hs⟩ := bind_eq_ok.1 hs
    cases hs
    refine ⟨f, rfl, rfl, spoken_updateFragment hf, hraw f ?_⟩
    rw [leaves_updateFragment hf]
    exact fun _ => mem_leaves_of_mem_updateLeaves

/-- A document without the field `sql` holds raw text exactly in the arrays that read as raw
text at its raw places. If there are none, no value gets into the text of a statement. -/
theorem raws_parse {text : String} {j : Json} (hj : Json.parse text = some j)
    (hkey : j.hasKey "sql" = false) (hq : Query.parse text = .ok q) :
    q.raws = (rawPlaces j).filterMap Raw.ofArray? ∧
      (q.raws = [] ↔ ∀ p ∈ rawPlaces j, Raw.ofArray? p = none) ∧
        (q.raws = [] → ∀ d kind s, Dialect.compile d kind q = .ok s →
          ∃ f : Fragment, s.sql = f.text d ∧ s.bindings = f.bindings ∧ f.Spoken d ∧
            ∀ r, Piece.raw r ∉ f) := by
  have hparse : FromDocument.parse? text = some q := by
    rw [Query.parse] at hq
    split at hq
    · next q' hq' =>
      cases hq
      exact hq'
    · cases hq
  have hraws := raws_eq_of_parse? hj hkey hparse
  refine ⟨hraws, ?_, ?_⟩
  · rw [hraws, List.filterMap_eq_nil_iff]
  · intro hnil d kind s hs
    exact exists_fragment_of_raws_eq_nil hnil hs

/-- A document with one membership test, whose candidates are given as they are written. -/
def inDocument (candidates : String) : String :=
  "\x7b\"where\":[\x7b\"type\":\"in\",\"column\":\"c\",\"value\":[" ++ candidates ++ "]\x7d]\x7d"

/-- Of a single text the test makes raw text, of two it makes values. -/
theorem raws_parse_inDocument :
    ∃ q q', Query.parse (inDocument "\"DE\"") = .ok q ∧
      Query.parse (inDocument "\"DE\",\"FR\"") = .ok q' ∧
      q.raws.map Raw.sql = ["DE"] ∧ q'.raws = [] := by
  have hread (text : String) (hjson : (Json.parse text).isSome = true)
      (hquery : (Query.parse text).isOk = true) :
      ∃ j q, Json.parse text = some j ∧ Query.parse text = .ok q := by
    obtain ⟨j, hj⟩ := Option.isSome_iff_exists.1 hjson
    cases hq : Query.parse text with
    | ok q => exact ⟨j, q, hj, rfl⟩
    | error e =>
      rw [hq] at hquery
      cases hquery
  have hat {α : Type} (g : Json → α) {text : String} {j : Json} (hj : Json.parse text = some j)
      {x : α} (h : (Json.parse text).map g = some x) : g j = x := by
    rw [hj] at h
    exact Option.some.inj h
  obtain ⟨j, q, hj, hq⟩ := hread (inDocument "\"DE\"") (by decide +kernel) (by decide +kernel)
  obtain ⟨j', q', hj', hq'⟩ :=
    hread (inDocument "\"DE\",\"FR\"") (by decide +kernel) (by decide +kernel)
  have hkey : j.hasKey "sql" = false := hat (Json.hasKey "sql") hj (by decide +kernel)
  have hkey' : j'.hasKey "sql" = false := hat (Json.hasKey "sql") hj' (by decide +kernel)
  have hsqls : ((rawPlaces j).filterMap Raw.ofArray?).map Raw.sql = ["DE"] :=
    hat (fun j => ((rawPlaces j).filterMap Raw.ofArray?).map Raw.sql) hj (by decide +kernel)
  have hsqls' : ((rawPlaces j').filterMap Raw.ofArray?).map Raw.sql = [] :=
    hat (fun j => ((rawPlaces j).filterMap Raw.ofArray?).map Raw.sql) hj' (by decide +kernel)
  have hraws := (raws_parse hj hkey hq).1
  have hraws' := (raws_parse hj' hkey' hq').1
  refine ⟨q, q', hq, hq', ?_, ?_⟩
  · rw [hraws, hsqls]
  · rw [hraws', List.map_eq_nil_iff.1 hsqls']

end Query

end ClauseTree
