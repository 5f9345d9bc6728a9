import ClauseTree.Proofs.Document.RereadingQueries
import ClauseTree.Proofs.Fragment.Replacing
import ClauseTree.Proofs.Statement.Undefined

/-!
# Reloading a query

A value that is not given in a document was never supplied, and the check of a statement notices it.
Written again, the same value is null, which is a value like any other. So a query that was read and
written is read back with null in the place of every missing value. It has the same statements as
before, but none of them raises the signal or is refused by the check.

That every other value comes back as it was includes the doubles: a double is written with digits
that round to it, and `Decimal.nearest?` rounds what it reads to the nearest double without error. A
reader that is less exact, and takes `9007199254740993.0` for another double, changes some of them.
The signal and the check look at no double, so what is said of them does not depend on it.
-/

namespace ClauseTree

open Document

/-! ## Queries -/

namespace Query

/-- The query with null for every value that was never supplied. -/
def supplied (q : Query) : Query := q.mapValues Value.supplied

theorem toJson_supplied (q : Query) : q.supplied.toJson = q.toJson :=
  q.toJson_mapValues Value.toJson_supplied

theorem hasOwnShape_supplied {c : Candidates} (h : c.hasOwnShape = true) :
    (c.mapValues Value.supplied).hasOwnShape = true := by
  cases c with
  | raw r => rfl
  | rows rs => rfl
  | list vs =>
    cases vs with
    | nil => cases h
    | cons v vs =>
      cases vs with
      | nil =>
        cases v with
        | text s => cases h
        | _ => rfl
      | cons w ws => cases v <;> rfl

/-- Skipping fields leaves the numbers of the others. -/
theorem numbersFit_keep {fs : Fields} (h : (Json.object fs).numbersFit = true) :
    (FromDocument.keep Query (.object fs)).numbersFit = true := by
  have hassignment {i : Json} (hi : i.numbersFit = true) :
      (FromDocument.keep Assignment i).numbersFit = true := by
    cases i with
    | object fs =>
      change Json.fieldsFit (fs.filter _) = true
      rw [Json.fieldsFit_iff]
      exact fun f hf => Json.fieldsFit_iff.1 hi f (List.mem_filter.1 hf).1
    | _ => exact hi
  have hitems {i : Json} (hi : i.numbersFit = true) :
      (mapItems.items (FromDocument.keep Assignment) i).numbersFit = true := by
    cases i with
    | array js =>
      change Json.itemsFit (js.map _) = true
      rw [Json.itemsFit_iff, List.forall_mem_map]
      exact fun k hk => hassignment (Json.itemsFit_iff.1 hi k hk)
    | _ => exact hi
  change Json.fieldsFit (fs.map _) = true
  rw [Json.fieldsFit_iff, List.forall_mem_map]
  rintro ⟨name, i⟩ hf
  have hfit : i.numbersFit = true := Json.fieldsFit_iff.1 h _ hf
  dsimp only
  split
  · exact hitems hfit
  · exact hfit

/-- What a text is read as, is written within the reach of a reader. -/
theorem rewritten_of_parse {text : String} {q : Query} (h : parse text = .ok q) :
    (∀ l ∈ q.leaves, l.Suppliable) ∧ (∀ c ∈ q.candidates, c.hasOwnShape = true) ∧
      q.toJson.depth ≤ Json.depthLimit := by
  obtain ⟨j, hj, hreadable, hread⟩ := parse_eq_ok_iff.1 h
  rw [Json.readable, Bool.and_eq_true, decide_eq_true_eq] at hreadable
  have hfit : (FromDocument.keep Query j).numbersFit = true := by
    cases j with
    | object fs => exact numbersFit_keep (Json.numbersFit_of_parse hj)
    | _ => cases hread
  -- The limit is an odd number.
  exact rewritten (n := 61) hfit hreadable.2 hread

/-- A query that was read and written is read back with its missing values supplied. -/
theorem parse_compact_of_parse {text : String} {q : Query} (h : parse text = .ok q) :
    parse q.toJson.compact = .ok q.supplied := by
  obtain ⟨hleaves, hcandidates, hdepth⟩ := rewritten_of_parse h
  rw [← toJson_supplied] at hdepth ⊢
  refine parse_compact_toJson ?_ ?_ hdepth
  · rw [supplied, leaves_mapValues, List.forall_mem_map]
    exact hleaves
  · rw [supplied, candidates_mapValues, List.forall_mem_map]
    exact fun c hc => hasOwnShape_supplied (hcandidates c hc)

end Query

/-! ## Statements -/

namespace Statement

/-- The statement with null for every value that was never supplied. -/
def supplied (s : Statement) : Statement :=
  { s with bindings := s.bindings.map Value.supplied, undefinedInWhere := false }

theorem undefined_notMem_supplied (s : Statement) : .undefined ∉ s.supplied.bindings := by
  intro h
  obtain ⟨v, -, hv⟩ := List.mem_map.1 h
  exact v.supplied_ne_undefined hv

theorem check_supplied (s : Statement) : s.supplied.check true = .ok s.supplied :=
  (ensureDefined_eq_ok_iff fun h => by cases h).2 ⟨rfl, s.undefined_notMem_supplied⟩

/-- The check refuses a statement for a value that was never supplied, and for nothing else. -/
theorem exists_check_eq_error_iff {s : Statement}
    (hsignal : s.undefinedInWhere = true → .undefined ∈ s.bindings) :
    (∃ sql, s.check true = .error (.undefinedBinding sql)) ↔ .undefined ∈ s.bindings := by
  constructor
  · rintro ⟨sql, herror⟩
    by_contra hdefined
    have hok : s.check true = .ok s := (ensureDefined_eq_ok_iff hsignal).2 ⟨rfl, hdefined⟩
    rw [hok] at herror
    cases herror
  · intro hmem
    exact ⟨s.sql, (ensureDefined_eq_error_iff hsignal).2 hmem⟩

end Statement

theorem WhereClause.groupUndefined_supplied (cs : List WhereClause) :
    groupUndefined (Condition.mapAll (Test.mapValues Value.supplied) cs) = false := by
  rw [Bool.eq_false_iff, Ne, groupUndefined_iff, ← values_leaves, leaves_mapAll]
  intro h
  obtain ⟨l, hl, hv⟩ := List.mem_flatMap.1 h
  obtain ⟨l', -, rfl⟩ := List.mem_map.1 hl
  rw [Leaf.values_mapValues] at hv
  obtain ⟨v, -, hv⟩ := List.mem_map.1 hv
  exact v.supplied_ne_undefined hv

/-- Supplying the values of a query supplies those of its statements, and changes nothing else. -/
theorem Dialect.compile_supplied (d : Dialect) (kind : StatementKind) (q : Query) :
    d.compile kind q.supplied = (d.compile kind q).map Statement.supplied := by
  have hfragment (F : Fragment) (signal : Bool) (advisories : List Advisory) :
      (F.mapValues Value.supplied).statement d.writer false advisories =
        (F.statement d.writer signal advisories).supplied := by
    rw [Fragment.statement, Fragment.statement, Fragment.written, Fragment.chars_mapValues,
      Fragment.bindings_mapValues]
    rfl
  have hprewhere : WhereClause.groupUndefined q.supplied.categories.prewhere = false :=
    WhereClause.groupUndefined_supplied q.categories.prewhere
  have hfilter : WhereClause.groupUndefined q.supplied.categories.filter = false :=
    WhereClause.groupUndefined_supplied q.categories.filter
  cases kind with
  | select =>
    change d.writer.compileSelect q.supplied = (d.writer.compileSelect q).map _
    rw [Writer.compileSelect, Writer.compileSelect, hprewhere, hfilter, Query.supplied,
      Query.selectFragment_mapValues]
    cases q.selectFragment d.writer with
    | error e => rfl
    | ok F => exact congrArg Except.ok (hfragment F _ _)
  | update =>
    change d.writer.compileUpdate q.supplied = (d.writer.compileUpdate q).map _
    rw [Writer.compileUpdate, Writer.compileUpdate, hfilter, Query.supplied,
      Query.updateFragment_mapValues]
    cases q.updateFragment d.writer with
    | error e => rfl
    | ok F => exact congrArg Except.ok (hfragment F _ _)

theorem compileDocument_eq {text : String} {q : Query} (h : Query.parse text = .ok q)
    (kind : StatementKind) (strict : Bool) :
    compileDocument text kind strict =
      (Dialect.clickhouse.compile kind q).bind fun s => s.check strict := by
  rw [compileDocument, h]
  rfl

namespace Query

/-- Once a query was read and written, what was never supplied is null. Its statements are those of
the original apart from that; no check refuses them. So the check is of the same opinion of both
exactly where the original is bound to no value that was never supplied. -/
theorem compileDocument_reloaded {text : String} {q : Query} (h : parse text = .ok q) :
    parse q.toJson.compact = .ok q.supplied ∧ ∀ kind,
      compileDocument q.toJson.compact kind false =
        (compileDocument text kind false).map Statement.supplied ∧
      compileDocument q.toJson.compact kind true = compileDocument q.toJson.compact kind false ∧
      (((∃ sql, compileDocument q.toJson.compact kind true = .error (.undefinedBinding sql)) ↔
          ∃ sql, compileDocument text kind true = .error (.undefinedBinding sql)) ↔
        ∀ s, compileDocument text kind false = .ok s → .undefined ∉ s.bindings) := by
  have hreloaded := parse_compact_of_parse h
  refine ⟨hreloaded, fun kind => ?_⟩
  have hsupplied := Dialect.clickhouse.compile_supplied kind q
  rw [compileDocument_eq hreloaded, compileDocument_eq hreloaded, compileDocument_eq h,
    compileDocument_eq h, hsupplied]
  cases hs : Dialect.clickhouse.compile kind q with
  | error e =>
    refine ⟨rfl, rfl, iff_of_true Iff.rfl fun s hs => ?_⟩
    cases hs
  | ok s =>
    have hnever : ¬∃ sql, s.supplied.check true = .error (.undefinedBinding sql) := by
      rw [s.check_supplied]
      rintro ⟨sql, herror⟩
      cases herror
    refine ⟨rfl, s.check_supplied, ?_⟩
    change ((∃ sql, s.supplied.check true = .error (.undefinedBinding sql)) ↔
      ∃ sql, s.check true = .error (.undefinedBinding sql)) ↔ _
    rw [iff_false_left hnever,
      Statement.exists_check_eq_error_iff (Dialect.undefined_mem_bindings hs)]
    constructor
    · intro hdefined s' hs'
      cases hs'
      exact hdefined
    · intro hdefined
      exact hdefined s rfl

/-- A document without the value of a comparison in a group and of an assignment. -/
def ungiven : String :=
  "\x7b\"table\":\"t\",\"where\":[\x7b\"type\":\"wrapped\",\"value\":[" ++
    "\x7b\"type\":\"basic\",\"column\":\"x\",\"operator\":\"=\"\x7d]\x7d]," ++
    "\"update\":[\x7b\"column\":\"y\"\x7d]\x7d"

/-- The update is refused, and is not refused any more once it was written and read again. -/
theorem compileDocument_reloaded_ungiven :
    ∃ (q : Query) (s : Statement), parse ungiven = .ok q ∧
      s.sql = "update `t` set `y` = ? where (`x` = ?)" ∧
      compileDocument ungiven .update true = .error (.undefinedBinding s.sql) ∧
      compileDocument q.toJson.compact .update true = .ok s.supplied ∧
      s.undefinedInWhere = true := by
  have hcompiled : (compileDocument ungiven .update false).toOption.map
      (fun s => (s.sql, s.bindings.any Value.isUndefined, s.undefinedInWhere)) =
        some ("update `t` set `y` = ? where (`x` = ?)", true, true) := by
    decide +kernel
  obtain ⟨s, hs, hfields⟩ := Option.map_eq_some_iff.1 hcompiled
  obtain ⟨hsql, hbindings, hsignal⟩ : s.sql = _ ∧ s.bindings.any Value.isUndefined = true ∧
      s.undefinedInWhere = true := by
    simpa only [Prod.mk.injEq] using hfields
  have hlenient : compileDocument ungiven .update false = .ok s := by
    cases hresult : compileDocument ungiven .update false with
    | error e =>
      rw [hresult] at hs
      cases hs
    | ok t =>
      rw [hresult] at hs
      exact congrArg Except.ok (Option.some.inj hs)
  obtain ⟨q, t, hq, ht, hchecked⟩ := compileDocument_eq_ok_iff.1 hlenient
  cases hchecked
  have hrefused : compileDocument ungiven .update true = .error (.undefinedBinding s.sql) := by
    rw [compileDocument_eq hq, ht]
    exact (Statement.ensureDefined_eq_error_iff (Dialect.undefined_mem_bindings ht)).2
      ((Value.any_isUndefined_iff _).1 hbindings)
  obtain ⟨-, hkind⟩ := compileDocument_reloaded hq
  obtain ⟨hreloaded, hstrict, -⟩ := hkind .update
  rw [hlenient] at hreloaded
  exact ⟨q, s, hq, hsql, hrefused, hstrict.trans hreloaded, hsignal⟩

end Query

end ClauseTree
