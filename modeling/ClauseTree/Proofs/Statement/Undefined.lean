import ClauseTree.Document.Statement
import ClauseTree.Proofs.Statement.Bindings

/-!
# Values that were never supplied

The signal of a compiled statement is read off the tree: `containsUndefined` looks at the parts
of a test one by one, and a group answers through its members. The bindings of the statement
come from its text. `groupUndefined_iff` says that the two agree on every group of conditions,
so the signal cannot be raised without such a binding, and checking a statement amounts to
looking through its bindings.
-/

namespace ClauseTree

theorem Value.any_isUndefined_iff (vs : List Value) :
    vs.any isUndefined = true ↔ .undefined ∈ vs := by
  rw [List.any_eq_true]
  constructor
  · rintro ⟨v, hv, hundefined⟩
    cases v with
    | undefined => exact hv
    | _ => cases hundefined
  · intro h
    exact ⟨.undefined, h, rfl⟩

theorem Value.isUndefined_iff (v : Value) : v.isUndefined = true ↔ .undefined ∈ [v] := by
  rw [← any_isUndefined_iff, List.any_cons, List.any_nil, Bool.or_false]

theorem Operand.containsUndefined_iff (o : Operand) :
    o.containsUndefined = true ↔ .undefined ∈ o.values := by
  cases o with
  | raw r => exact Value.any_isUndefined_iff r.bindings
  | column name => simp [containsUndefined, values]
  | value v => exact v.isUndefined_iff

theorem Candidates.containsUndefined_iff (c : Candidates) :
    c.containsUndefined = true ↔ .undefined ∈ c.values := by
  cases c with
  | raw r => exact Value.any_isUndefined_iff r.bindings
  | rows rs => rw [values, ← Value.any_isUndefined_iff, List.any_flatten, containsUndefined]
  | list vs => exact Value.any_isUndefined_iff vs

theorem Test.containsUndefined_iff (t : Test) :
    t.containsUndefined = true ↔ .undefined ∈ t.values := by
  cases t with
  | basic column operator value => exact value.containsUndefined_iff
  | isNull column => simp [containsUndefined, values]
  | isIn columns candidates => exact candidates.containsUndefined_iff
  | between column low high =>
    rw [values, ← Value.any_isUndefined_iff, List.any_cons, List.any_cons, List.any_nil,
      Bool.or_false, containsUndefined]
  | hasRows subquery => exact Value.any_isUndefined_iff subquery.bindings
  | raw r => exact Value.any_isUndefined_iff r.bindings

namespace WhereClause

/-- The signal of a group is that of its clauses in turn, and a group among them answers
through its own members. -/
theorem groupUndefined_iff (cs : List WhereClause) :
    groupUndefined cs = true ↔ .undefined ∈ WhereClause.values cs := by
  rw [groupUndefined, WhereClause.values]
  induction cs using Condition.forest_induction with
  | nil => simp [Condition.anyOf]
  | test t n k cs ih =>
    rw [Condition.anyOf, Condition.any, Bool.or_eq_true, ih, t.containsUndefined_iff,
      Condition.testsOf_test_cons, List.flatMap_cons, List.mem_append]
  | group gs n k cs ihg ih =>
    rw [Condition.anyOf, Condition.any, Bool.or_eq_true, ihg, ih,
      Condition.testsOf_group_cons, List.flatMap_append, List.mem_append]

/-- A group that is written is bound to the values of its tests. -/
theorem bindings_groupFragment {d : Dialect} {keyword : String} {cs : List WhereClause}
    {f : Fragment} (h : groupFragment d keyword cs = .ok f) :
    Fragment.bindings f = WhereClause.values cs := by
  rw [Fragment.bindings_eq_values_leaves, leaves_groupFragment h, values_leaves]

end WhereClause

namespace Dialect

variable {d : Dialect} {q : Query} {s : Statement}

/-- A selection that is compiled has compiled groups, and its signal is theirs. -/
theorem compileSelect_cases (h : d.compileSelect q = .ok s) :
    ∃ p w, d.compilePrewhere q.categories.prewhere = .ok p ∧
      d.compileWhere q.categories.filter = .ok w ∧
      p.bindings = WhereClause.values q.categories.prewhere ∧
      w.bindings = WhereClause.values q.categories.filter ∧
      s.bindings = q.selectValues ∧
      s.undefinedInWhere = (WhereClause.groupUndefined q.categories.prewhere ||
        WhereClause.groupUndefined q.categories.filter) := by
  obtain ⟨f, hf, h⟩ := bind_eq_ok.1 h
  cases h
  have hbindings : Fragment.bindings f = q.selectValues := by
    rw [Fragment.bindings_eq_values_leaves, Query.leaves_selectFragment hf,
      Query.values_selectLeaves]
  obtain ⟨joins, prewhere, filter, -, hprewhere, hfilter, -⟩ := Query.selectFragment_cases hf
  have hp : d.compilePrewhere q.categories.prewhere = .ok _ :=
    bind_eq_ok.2 ⟨prewhere, hprewhere, rfl⟩
  have hw : d.compileWhere q.categories.filter = .ok _ := bind_eq_ok.2 ⟨filter, hfilter, rfl⟩
  exact ⟨_, _, hp, hw, WhereClause.bindings_groupFragment hprewhere,
    WhereClause.bindings_groupFragment hfilter, hbindings, rfl⟩

/-- An update that is compiled has a compiled group, and its signal is that of the group. -/
theorem compileUpdate_cases (h : d.compileUpdate q = .ok s) :
    ∃ w, d.compileWhere q.categories.filter = .ok w ∧
      w.bindings = WhereClause.values q.categories.filter ∧
      s.bindings = q.updateValues ∧
      s.undefinedInWhere = WhereClause.groupUndefined q.categories.filter := by
  obtain ⟨f, hf, h⟩ := bind_eq_ok.1 h
  cases h
  have hbindings : Fragment.bindings f = q.updateValues := by
    rw [Fragment.bindings_eq_values_leaves, Query.leaves_updateFragment hf,
      Query.values_updateLeaves]
  obtain ⟨table, joins, filter, -, -, hfilter, -⟩ := Query.updateFragment_cases hf
  have hw : d.compileWhere q.categories.filter = .ok _ := bind_eq_ok.2 ⟨filter, hfilter, rfl⟩
  exact ⟨_, hw, WhereClause.bindings_groupFragment hfilter, hbindings, rfl⟩

/-- The signal is never raised without a binding. -/
theorem undefined_mem_bindings {kind : StatementKind} (h : d.compile kind q = .ok s)
    (hsignal : s.undefinedInWhere = true) : .undefined ∈ s.bindings := by
  cases kind with
  | select =>
    obtain ⟨p, w, -, -, -, -, hbindings, hflag⟩ := compileSelect_cases h
    rw [hflag, Bool.or_eq_true, WhereClause.groupUndefined_iff, WhereClause.groupUndefined_iff]
      at hsignal
    rw [hbindings, Query.selectValues]
    rcases hsignal with h | h <;> simp [h]
  | update =>
    obtain ⟨w, -, -, hbindings, hflag⟩ := compileUpdate_cases h
    rw [hflag, WhereClause.groupUndefined_iff] at hsignal
    rw [hbindings, Query.updateValues]
    simp [hsignal]

end Dialect

namespace Statement

variable {s : Statement}

/-- Where the signal comes with a binding, the check looks through the bindings. -/
theorem ensureDefined_eq (h : s.undefinedInWhere = true → .undefined ∈ s.bindings) :
    s.ensureDefined =
      if s.bindings.any Value.isUndefined then .error (.undefinedBinding s.sql) else .ok s := by
  have hor : (s.undefinedInWhere || s.bindings.any Value.isUndefined) =
      s.bindings.any Value.isUndefined := by
    rw [Bool.or_eq_right_iff_imp, Value.any_isUndefined_iff]
    exact h
  rw [ensureDefined, hor]

theorem ensureDefined_eq_error_iff (h : s.undefinedInWhere = true → .undefined ∈ s.bindings) :
    s.ensureDefined = .error (.undefinedBinding s.sql) ↔ .undefined ∈ s.bindings := by
  rw [ensureDefined_eq h, ← Value.any_isUndefined_iff]
  split
  · next hany => exact iff_of_true rfl hany
  · next hany => exact iff_of_false (fun h => nomatch h) hany

theorem ensureDefined_eq_ok_iff (h : s.undefinedInWhere = true → .undefined ∈ s.bindings)
    {s' : Statement} : s.ensureDefined = .ok s' ↔ s = s' ∧ .undefined ∉ s.bindings := by
  rw [ensureDefined_eq h, ← Value.any_isUndefined_iff]
  split
  · next hany => exact iff_of_false (fun h => nomatch h) fun h => h.2 hany
  · next hany => exact ⟨fun h => ⟨Except.ok.inj h, hany⟩, fun h => congrArg Except.ok h.1⟩

end Statement

/-- A document is compiled to what its query is compiled to, if that passes the check. -/
theorem compileDocument_eq_ok_iff {text : String} {kind : StatementKind} {strict : Bool}
    {s : Statement} : compileDocument text kind strict = .ok s ↔
      ∃ q s', Query.parse text = .ok q ∧ Dialect.clickhouse.compile kind q = .ok s' ∧
        s'.check strict = .ok s := by
  rw [compileDocument, bind_eq_ok]
  constructor
  · rintro ⟨q, hq, h⟩
    obtain ⟨s', hs', h⟩ := bind_eq_ok.1 h
    exact ⟨q, s', hq, hs', h⟩
  · rintro ⟨q, s', hq, hs', h⟩
    exact ⟨q, hq, bind_eq_ok.2 ⟨s', hs', h⟩⟩

namespace Statement

/-- The signal of a statement is raised exactly if the groups of conditions that it reads are
bound to a value that was never supplied. The check refuses exactly the statements with such a
binding anywhere, and changes nothing else about compiling a document. -/
theorem undefinedInWhere_compile :
    (∀ q d s, Dialect.compileSelect d q = .ok s →
      ∃ p w, d.compilePrewhere q.categories.prewhere = .ok p ∧
        d.compileWhere q.categories.filter = .ok w ∧
        p.bindings = WhereClause.values q.categories.prewhere ∧
        w.bindings = WhereClause.values q.categories.filter ∧
        (s.undefinedInWhere = true ↔ .undefined ∈ p.bindings ++ w.bindings)) ∧
    (∀ q d s, Dialect.compileUpdate d q = .ok s →
      ∃ w, d.compileWhere q.categories.filter = .ok w ∧
        w.bindings = WhereClause.values q.categories.filter ∧
        (s.undefinedInWhere = true ↔ .undefined ∈ w.bindings)) ∧
    (∀ q d kind s, Dialect.compile d kind q = .ok s →
      (s.undefinedInWhere = true → .undefined ∈ s.bindings) ∧
      (s.ensureDefined = .error (.undefinedBinding s.sql) ↔ .undefined ∈ s.bindings) ∧
      (s.ensureDefined = .ok s ↔ .undefined ∉ s.bindings)) ∧
    ∀ text kind s, compileDocument text kind true = .ok s ↔
      compileDocument text kind false = .ok s ∧ .undefined ∉ s.bindings := by
  refine ⟨?_, ?_, ?_, ?_⟩
  · intro q d s h
    obtain ⟨p, w, hp, hw, hpre, hfilter, -, hflag⟩ := Dialect.compileSelect_cases h
    refine ⟨p, w, hp, hw, hpre, hfilter, ?_⟩
    rw [hflag, Bool.or_eq_true, WhereClause.groupUndefined_iff, WhereClause.groupUndefined_iff,
      List.mem_append, hpre, hfilter]
  · intro q d s h
    obtain ⟨w, hw, hfilter, -, hflag⟩ := Dialect.compileUpdate_cases h
    refine ⟨w, hw, hfilter, ?_⟩
    rw [hflag, WhereClause.groupUndefined_iff, hfilter]
  · intro q d kind s h
    have hsignal := Dialect.undefined_mem_bindings h
    refine ⟨hsignal, ensureDefined_eq_error_iff hsignal, ?_⟩
    rw [ensureDefined_eq_ok_iff hsignal]
    exact and_iff_right rfl
  · intro text kind s
    rw [compileDocument_eq_ok_iff, compileDocument_eq_ok_iff]
    constructor
    · rintro ⟨q, s', hq, hs', h⟩
      obtain ⟨rfl, hdefined⟩ := (ensureDefined_eq_ok_iff (Dialect.undefined_mem_bindings hs')).1 h
      exact ⟨⟨q, s', hq, hs', rfl⟩, hdefined⟩
    · rintro ⟨⟨q, s', hq, hs', h⟩, hdefined⟩
      cases h
      have hsignal := Dialect.undefined_mem_bindings hs'
      exact ⟨q, _, hq, hs', (ensureDefined_eq_ok_iff hsignal).2 ⟨rfl, hdefined⟩⟩

/-- A query whose values were not all supplied: one is missing from a row of a group in a group
of the selection, and one from the limit. -/
def unsupplied : Query where
  table := some "visits"
  categories := {
    prewhere := [.ofTest (.isNull "z"), .ofMembers [.ofMembers [.ofTest (.isIn (.multi ["x", "y"])
      (.rows [[.int 1, .int 2], [.int 3, .undefined]]))]]]
    filter := [.ofTest (.basic "z" "=" (.column "x"))] }
  update := [⟨"x", .value (.int 0)⟩]
  limit := some (.bound .undefined)

/-- The selection raises the signal. The update does not read the group in question, but its
limit keeps it from passing the check. -/
theorem undefinedInWhere_compile_unsupplied :
    ∃ s t, Dialect.clickhouse.compileSelect unsupplied = .ok s ∧
      Dialect.clickhouse.compileUpdate unsupplied = .ok t ∧
      s.undefinedInWhere = true ∧ t.undefinedInWhere = false ∧
      s.ensureDefined = .error (.undefinedBinding s.sql) ∧
      t.ensureDefined = .error (.undefinedBinding t.sql) := by
  obtain ⟨s, hs⟩ : ∃ s, Dialect.clickhouse.compileSelect unsupplied = .ok s := ⟨_, rfl⟩
  obtain ⟨t, ht⟩ : ∃ t, Dialect.clickhouse.compileUpdate unsupplied = .ok t := ⟨_, rfl⟩
  obtain ⟨hselect, hupdate, hcheck, -⟩ := undefinedInWhere_compile
  obtain ⟨p, w, -, -, hp, -, hflag⟩ := hselect unsupplied _ s hs
  obtain ⟨w', -, hw', hflag'⟩ := hupdate unsupplied _ t ht
  have hvalues : .undefined ∈ WhereClause.values unsupplied.categories.prewhere := by
    simp [unsupplied, WhereClause.values, Condition.ofMembers, Condition.ofTest, Test.values,
      Candidates.values]
  have hsignal : s.undefinedInWhere = true :=
    hflag.2 (List.mem_append_left _ (hp ▸ hvalues))
  have hquiet : t.undefinedInWhere = false := by
    rw [Bool.eq_false_iff, Ne, hflag', hw']
    simp [unsupplied, WhereClause.values, Condition.ofTest, Test.values, Operand.values]
  have hlimit : .undefined ∈ t.bindings := by
    cases ht
    exact (Value.any_isUndefined_iff _).1 rfl
  obtain ⟨hbound, hrefused, -⟩ := hcheck unsupplied _ .select s hs
  obtain ⟨-, hrefused', -⟩ := hcheck unsupplied _ .update t ht
  exact ⟨s, t, hs, ht, hsignal, hquiet, hrefused.2 (hbound hsignal), hrefused'.2 hlimit⟩

end Statement

end ClauseTree
