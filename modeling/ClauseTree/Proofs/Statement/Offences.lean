import ClauseTree.Proofs.Fragment.Members
import ClauseTree.Statement.Compile

/-!
# Why a query is refused

`Query.selectOffences` and `Query.updateOffences` list everything that is wrong with a query, in
the order in which a walk over the tree comes across it: an array join without its raw text, and an
operator that the dialect does not permit. `compile_eq_error_iff` says that a query is refused
exactly if it has an offence, and that the error is the first one.

`Refuses x es` is the property behind it: `x` fails with the first of `es`, and succeeds if there
is none. Of two steps, one after the other, the offences of the first come before those of the
second.
-/

namespace ClauseTree

/-! ## Offences -/

/-- An operator that the dialect does not permit, in lower case and without the blanks around it.
It is quoted as it was given. -/
def Dialect.operatorOffences (d : Dialect) (operator : String) : List CompileError :=
  if d.permits (normalize operator) then [] else [.operatorNotPermitted operator]

/-- Only a comparison has an operator. -/
def Test.offences (d : Dialect) : Test → List CompileError
  | .basic _ operator _ => d.operatorOffences operator
  | .isNull _ => []
  | .isIn _ _ => []
  | .between _ _ _ => []
  | .hasRows _ => []
  | .raw _ => []

def JoinTest.offences (d : Dialect) : JoinTest → List CompileError
  | .pair _ operator _ => d.operatorOffences operator
  | .usingColumns _ => []
  | .on t => t.offences d

/-- The offences of the tests at any depth. -/
def WhereClause.offences (d : Dialect) (cs : List WhereClause) : List CompileError :=
  (Condition.testsOf cs).flatMap (Test.offences d)

/-- The offences of the tests at any depth. -/
def JoinConditions.offences (d : Dialect) (cs : JoinConditions) : List CompileError :=
  (Condition.testsOf cs).flatMap (JoinTest.offences d)

/-- A raw join needs raw text. Its conditions are not looked at. -/
def ArrayJoin.offences (d : Dialect) (j : ArrayJoin) : List CompileError :=
  match j.kind, j.source with
  | .raw, .raw _ => []
  | .raw, .name _ => [rawWithoutText]
  | _, _ => JoinConditions.offences d j.conditions

namespace Query

def joinOffences (d : Dialect) (q : Query) : List CompileError :=
  q.categories.arrayJoins.flatMap (ArrayJoin.offences d)

/-- The offences of a selection in the order of the tree. -/
def selectOffences (d : Dialect) (q : Query) : List CompileError :=
  q.joinOffences d ++ WhereClause.offences d q.categories.prewhere ++
    WhereClause.offences d q.categories.filter

/-- The offences of an update. What the whole statement lacks comes before its clauses. -/
def updateOffences (d : Dialect) (q : Query) : List CompileError :=
  (if q.table.isNone then [.missingTable] else []) ++
    (if q.update.isEmpty then [.emptyUpdate] else []) ++
    q.joinOffences d ++ WhereClause.offences d q.categories.filter

/-- The query with the joins and the conditions of `source`. -/
def withConditions (q source : Query) : Query :=
  { q with categories := { q.categories with
      arrayJoins := source.categories.arrayJoins
      prewhere := source.categories.prewhere
      filter := source.categories.filter } }

/-- The query with the table, the joins and the filter of `source`, and with the assignments of
`source` changed one by one. -/
def withUpdate (f : Assignment → Assignment) (q source : Query) : Query :=
  { q with
    table := source.table
    update := source.update.map f
    categories := { q.categories with
      arrayJoins := source.categories.arrayJoins
      filter := source.categories.filter } }

theorem selectOffences_withConditions (d : Dialect) (q source : Query) :
    (q.withConditions source).selectOffences d = source.selectOffences d := rfl

theorem updateOffences_withUpdate (d : Dialect) (f : Assignment → Assignment) (q source : Query) :
    (withUpdate f q source).updateOffences d = source.updateOffences d := by
  have hempty : (withUpdate f q source).update.isEmpty = source.update.isEmpty := List.isEmpty_map
  rw [updateOffences, updateOffences, hempty]
  rfl

end Query

/-! ## Refusals -/

/-- The first of the errors is the one that `x` fails with. Without any it succeeds. -/
def Refuses {α : Type} (x : Except CompileError α) (es : List CompileError) : Prop :=
  ∀ e, x = .error e ↔ es.head? = some e

namespace Refuses

variable {α β : Type} {x : Except CompileError α} {es es' : List CompileError}

theorem ok (a : α) : Refuses (.ok a) [] := by
  intro e
  exact iff_of_false (fun h => nomatch h) (fun h => nomatch h)

theorem error (e : CompileError) (es : List CompileError) :
    Refuses (.error e : Except CompileError α) (e :: es) := by
  intro e'
  rw [List.head?_cons]
  constructor
  · rintro ⟨⟩
    rfl
  · rintro ⟨⟩
    rfl

theorem eq_nil_of_ok {a : α} (h : Refuses (.ok a) es) : es = [] := by
  cases es with
  | nil => rfl
  | cons e es => exact nomatch (h e).2 rfl

theorem exists_ok (h : Refuses x []) : ∃ a, x = .ok a := by
  cases x with
  | error e => exact nomatch (h e).1 rfl
  | ok a => exact ⟨a, rfl⟩

/-- A second step is reached only if the first one has no offence. -/
theorem bind {f : α → Except CompileError β} (hx : Refuses x es)
    (hf : ∀ a, x = .ok a → Refuses (f a) es') : Refuses (x >>= f) (es ++ es') := by
  cases x with
  | error e =>
    cases es with
    | nil => exact nomatch (hx e).1 rfl
    | cons e' es =>
      obtain rfl : e' = e := Option.some.inj ((hx e).1 rfl)
      exact error e' (es ++ es')
  | ok a =>
    rw [eq_nil_of_ok hx, List.nil_append]
    exact hf a rfl

/-- Two computations with the same offences fail with the same error. -/
theorem error_of_error {y : Except CompileError β} (hx : Refuses x es) (hy : Refuses y es)
    {e : CompileError} (h : x = .error e) : y = .error e :=
  (hy e).2 ((hx e).1 h)

/-- What is only put together at the end adds no offence. -/
theorem bind_ok {f : α → β} (hx : Refuses x es) : Refuses (x >>= fun a => .ok (f a)) es := by
  have h : Refuses (x >>= fun a => .ok (f a)) (es ++ []) := hx.bind fun a _ => ok (f a)
  rwa [List.append_nil] at h

end Refuses

theorem Dialect.refuses_operator (d : Dialect) (given : String) :
    Refuses (d.operator given) (d.operatorOffences given) := by
  rw [operator, operatorOffences]
  split
  · exact Refuses.ok _
  · exact Refuses.error _ []

theorem Test.refuses_fragment (d : Dialect) (n : Bool) (t : Test) :
    Refuses (t.fragment d n) (t.offences d) := by
  cases t with
  | basic column operator value => exact (d.refuses_operator operator).bind_ok
  | isIn columns candidates =>
    rw [fragment]
    split <;> exact Refuses.ok _
  | _ => exact Refuses.ok _

theorem JoinTest.refuses_fragment (d : Dialect) (n : Bool) (t : JoinTest) :
    Refuses (t.fragment d n) (t.offences d) := by
  cases t with
  | pair first operator second => exact (d.refuses_operator operator).bind_ok
  | usingColumns columns => exact Refuses.ok _
  | on t => exact t.refuses_fragment d n

/-- A group is refused for the offences of its tests, whatever becomes of the group itself. -/
theorem Condition.refuses_members {α : Type} {test : Bool → α → Except CompileError Fragment}
    {group : List (Condition α) → Bool → Connector → List (Member α) → Member α}
    {own : α → List CompileError} (htest : ∀ n t, Refuses (test n t) (own t))
    (cs : List (Condition α)) : Refuses (members test group cs) ((testsOf cs).flatMap own) := by
  induction cs using forest_induction with
  | nil =>
    rw [members]
    exact Refuses.ok _
  | test t n k cs ih =>
    rw [members, member, testsOf_test_cons, List.flatMap_cons]
    exact (htest n t).bind_ok.bind fun m _ => ih.bind_ok
  | group gs n k cs ihg ih =>
    rw [members, member, testsOf_group_cons, List.flatMap_append]
    exact ihg.bind_ok.bind fun m _ => ih.bind_ok

theorem WhereClause.refuses_members (d : Dialect) (cs : List WhereClause) :
    Refuses (members d cs) (WhereClause.offences d cs) :=
  Condition.refuses_members (Test.refuses_fragment d) cs

theorem JoinCondition.refuses_members (w : Writer) (cs : List JoinCondition) :
    Refuses (members w cs) (JoinConditions.offences w.dialect cs) :=
  Condition.refuses_members (JoinTest.refuses_fragment w.dialect) cs

theorem WhereClause.refuses_groupFragment (d : Dialect) (keyword : String)
    (cs : List WhereClause) :
    Refuses (groupFragment d keyword cs) (WhereClause.offences d cs) :=
  (refuses_members d cs).bind_ok

namespace ArrayJoin

theorem refuses_fragment (w : Writer) (j : ArrayJoin) :
    Refuses (j.fragment w) (j.offences w.dialect) := by
  obtain ⟨source, schema, kind, conditions⟩ := j
  have hmembers := JoinCondition.refuses_members w conditions
  cases kind with
  | raw =>
    cases source with
    | raw r => exact Refuses.ok _
    | name table => exact Refuses.error _ []
  | inner => exact hmembers.bind_ok
  | left => exact hmembers.bind_ok

theorem refuses_fragments (w : Writer) (js : List ArrayJoin) :
    Refuses (fragments w js) (js.flatMap (ArrayJoin.offences w.dialect)) := by
  induction js with
  | nil => exact Refuses.ok _
  | cons j js ih =>
    rw [List.flatMap_cons]
    exact (refuses_fragment w j).bind fun f _ => ih.bind_ok

theorem refuses_listFragment (w : Writer) (js : List ArrayJoin) :
    Refuses (listFragment w js) (js.flatMap (ArrayJoin.offences w.dialect)) :=
  (refuses_fragments w js).bind_ok

end ArrayJoin

namespace Query

theorem refuses_selectFragment (w : Writer) (q : Query) :
    Refuses (q.selectFragment w) (q.selectOffences w.dialect) := by
  have hjoins : Refuses (ArrayJoin.listFragment w q.categories.arrayJoins)
      (q.joinOffences w.dialect) := ArrayJoin.refuses_listFragment w _
  have hprewhere := WhereClause.refuses_groupFragment w.dialect "prewhere" q.categories.prewhere
  have hfilter := WhereClause.refuses_groupFragment w.dialect "where" q.categories.filter
  rw [selectOffences, List.append_assoc]
  exact hjoins.bind fun _ _ => hprewhere.bind fun _ _ => hfilter.bind_ok

theorem refuses_updateFragment (w : Writer) (q : Query) :
    Refuses (q.updateFragment w) (q.updateOffences w.dialect) := by
  have hjoins : Refuses (ArrayJoin.listFragment w q.categories.arrayJoins)
      (q.joinOffences w.dialect) := ArrayJoin.refuses_listFragment w _
  have hfilter := WhereClause.refuses_groupFragment w.dialect "where" q.categories.filter
  rw [updateFragment, updateOffences]
  cases q.table with
  | none => exact Refuses.error _ _
  | some table =>
    dsimp only [Option.isNone_some]
    split
    · exact Refuses.error _ _
    · exact hjoins.bind fun _ _ => hfilter.bind_ok

end Query

namespace Dialect

/-- A query is refused for the first of its offences, and only if it has one. What else stands in
the query makes no difference: a selection looks for offences in its joins and its two groups of
conditions, an update in its joins, in one of the groups, and at whether there are a table and
assignments. -/
theorem compile_eq_error_iff (d : Dialect) (q : Query) (e : CompileError) :
    (d.compileSelect q = .error e ↔ (q.selectOffences d).head? = some e) ∧
      (d.compileUpdate q = .error e ↔ (q.updateOffences d).head? = some e) ∧
      (∀ q' : Query, d.compileSelect (q'.withConditions q) = .error e ↔
        d.compileSelect q = .error e) ∧
      ∀ (q' : Query) (f : Assignment → Assignment),
        d.compileUpdate (q'.withUpdate f q) = .error e ↔ d.compileUpdate q = .error e := by
  have hselect (q : Query) : Refuses (d.compileSelect q) (q.selectOffences d) :=
    (Query.refuses_selectFragment d.writer q).bind_ok
  have hupdate (q : Query) : Refuses (d.compileUpdate q) (q.updateOffences d) :=
    (Query.refuses_updateFragment d.writer q).bind_ok
  refine ⟨hselect q e, hupdate q e, ?_, ?_⟩
  · intro q'
    rw [hselect, hselect, Query.selectOffences_withConditions]
  · intro q' f
    rw [hupdate, hupdate, Query.updateOffences_withUpdate]

end Dialect

end ClauseTree
