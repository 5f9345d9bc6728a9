import ClauseTree.Query.Step
import ClauseTree.Statement.Compile

/-!
# The order of steps

A step touches one field of a query. What a run of steps does to a field is what the steps on that
field do to it, whatever stands between them (`restrict_build`). So two runs with the same steps on
each field, in the same order field by field, build the same query, and a statement asks this only
of the fields it reads. Both are in `build_of_stepsOn`.

`restrict` empties the fields that are not kept. A step on a kept field does the same before it as
behind it, and a step on any other field does nothing that is left behind it.
-/

namespace ClauseTree

namespace Query

/-- What a step touches. The table is given with the query. -/
inductive Field where
  | schema
  | columns
  | arrayJoins
  | prewhere
  | filter
  | groupBy
  | orderBy
  | update
  | limit
  | offset
  | lock
  | returning
  deriving DecidableEq, Repr

def Step.field : Step → Field
  | .schema _ => .schema
  | .columns _ => .columns
  | .arrayJoin _ => .arrayJoins
  | .prewhere _ => .prewhere
  | .filter _ => .filter
  | .groupBy _ => .groupBy
  | .orderBy _ => .orderBy
  | .set _ _ => .update
  | .limit _ => .limit
  | .offset _ => .offset
  | .lock _ => .lock
  | .returning _ => .returning

/-- The steps on a field, in order. -/
def stepsOn (f : Field) (ss : List Step) : List Step := ss.filter fun s => s.field = f

end Query

/-- The fields that a statement reads. An update has no use for the parts that only choose, group
or lock rows of a selection. -/
def StatementKind.reads : StatementKind → Query.Field → Bool
  | .select => fun f => f ≠ .update
  | .update => fun f => f ∉ [.columns, .prewhere, .groupBy, .lock]

namespace Query

/-- The query with nothing but its table in the fields that are not kept. -/
def restrict (keep : Field → Bool) (q : Query) : Query where
  table := q.table
  schema := if keep .schema then q.schema else none
  columns := if keep .columns then q.columns else []
  categories := {
    arrayJoins := if keep .arrayJoins then q.categories.arrayJoins else []
    prewhere := if keep .prewhere then q.categories.prewhere else []
    filter := if keep .filter then q.categories.filter else []
    groupBy := if keep .groupBy then q.categories.groupBy else []
    orderBy := if keep .orderBy then q.categories.orderBy else [] }
  update := if keep .update then q.update else []
  limit := if keep .limit then q.limit else none
  offset := if keep .offset then q.offset else none
  lock := if keep .lock then q.lock else none
  returning := if keep .returning then q.returning else []

/-- The query with nothing but its table and one field. -/
def only (f : Field) (q : Query) : Query := q.restrict fun g => g = f

theorem restrict_true (q : Query) : q.restrict (fun _ => true) = q := rfl

/-! ## Steps -/

section Steps

variable {keep : Field → Bool} (q : Query)

theorem restrict_apply_of_kept {s : Step} (h : keep s.field = true) :
    (q.apply s).restrict keep = (q.restrict keep).apply s := by
  cases s <;> rw [Step.field] at h <;> simp only [apply, mapCategories, restrict, if_pos h]

theorem restrict_apply_of_dropped {s : Step} (h : ¬ keep s.field = true) :
    (q.apply s).restrict keep = q.restrict keep := by
  cases s <;> rw [Step.field] at h <;> simp only [apply, mapCategories, restrict, if_neg h]

/-- Of a run, the steps on the kept fields are left. -/
theorem restrict_build (ss : List Step) :
    (q.build ss).restrict keep = (q.restrict keep).build (ss.filter fun s => keep s.field) := by
  induction ss generalizing q with
  | nil => rfl
  | cons s ss ih =>
    rw [build_cons, ih, List.filter_cons]
    by_cases h : keep s.field = true
    · rw [if_pos h, build_cons, restrict_apply_of_kept q h]
    · rw [if_neg h, restrict_apply_of_dropped q h]

theorem only_build (f : Field) (ss : List Step) :
    (q.build ss).only f = (q.only f).build (stepsOn f ss) := restrict_build q ss

theorem table_apply (s : Step) : (q.apply s).table = q.table := by cases s <;> rfl

theorem table_build (ss : List Step) : (q.build ss).table = q.table := by
  induction ss generalizing q with
  | nil => rfl
  | cons s ss ih => rw [build_cons, ih, table_apply]

end Steps

/-! ## Field by field -/

section Fields

variable {keep : Field → Bool} {q q' : Query}

/-- What is left of a field is the same in both queries if the field is, and if it is dropped. -/
theorem ite_keep_congr {α : Type} (part : Query → α) {f : Field}
    (hpart : ∀ q : Query, part (q.only f) = part q)
    (h : keep f = true → q.only f = q'.only f) (default : α) :
    (if keep f then part q else default) = if keep f then part q' else default := by
  by_cases hf : keep f = true
  · rw [if_pos hf, if_pos hf, ← hpart q, h hf, hpart q']
  · rw [if_neg hf, if_neg hf]

/-- Two queries with the same table are the same in the kept fields if they are in each of them. -/
theorem restrict_eq_of_only (htable : q.table = q'.table)
    (h : ∀ f, keep f = true → q.only f = q'.only f) : q.restrict keep = q'.restrict keep := by
  simp only [restrict, mk.injEq, Categories.mk.injEq]
  refine ⟨htable, ?_, ?_, ⟨?_, ?_, ?_, ?_, ?_⟩, ?_, ?_, ?_, ?_, ?_⟩
  · exact ite_keep_congr schema (fun _ => rfl) (h .schema) none
  · exact ite_keep_congr columns (fun _ => rfl) (h .columns) []
  · exact ite_keep_congr (fun q => q.categories.arrayJoins) (fun _ => rfl) (h .arrayJoins) []
  · exact ite_keep_congr (fun q => q.categories.prewhere) (fun _ => rfl) (h .prewhere) []
  · exact ite_keep_congr (fun q => q.categories.filter) (fun _ => rfl) (h .filter) []
  · exact ite_keep_congr (fun q => q.categories.groupBy) (fun _ => rfl) (h .groupBy) []
  · exact ite_keep_congr (fun q => q.categories.orderBy) (fun _ => rfl) (h .orderBy) []
  · exact ite_keep_congr update (fun _ => rfl) (h .update) []
  · exact ite_keep_congr limit (fun _ => rfl) (h .limit) none
  · exact ite_keep_congr offset (fun _ => rfl) (h .offset) none
  · exact ite_keep_congr lock (fun _ => rfl) (h .lock) none
  · exact ite_keep_congr returning (fun _ => rfl) (h .returning) []

/-- Runs with the same steps on each kept field are the same in the kept fields. -/
theorem restrict_build_congr (q : Query) {ss ts : List Step}
    (h : ∀ f, keep f = true → stepsOn f ss = stepsOn f ts) :
    (q.build ss).restrict keep = (q.build ts).restrict keep := by
  refine restrict_eq_of_only ?_ fun f hf => ?_
  · rw [table_build, table_build]
  · rw [only_build, only_build, h f hf]

end Fields

end Query

/-! ## Statements -/

/-- A statement does not look at the fields that it does not read, neither where it is compiled nor
where it is refused. -/
theorem Dialect.compile_restrict (d : Dialect) (kind : StatementKind) (q : Query) :
    d.compile kind (q.restrict kind.reads) = d.compile kind q := by
  cases kind with
  | select => rfl
  | update => rfl

namespace Query

/-- Steps on different fields may change places: two runs build the same query if field by field
they have the same steps in the same order. A statement asks this of the fields it reads only. Steps
on the others may be added and left out anywhere, and it is the same statement or the same error. -/
theorem build_of_stepsOn (q : Query) (ss ts : List Step) :
    ((∀ f, stepsOn f ss = stepsOn f ts) → q.build ss = q.build ts) ∧
    ∀ kind : StatementKind, (∀ f, kind.reads f = true → stepsOn f ss = stepsOn f ts) →
      ∀ d : Dialect, d.compile kind (q.build ss) = d.compile kind (q.build ts) := by
  constructor
  · intro h
    have hkept : (q.build ss).restrict (fun _ => true) = (q.build ts).restrict fun _ => true :=
      restrict_build_congr q fun f _ => h f
    rw [restrict_true, restrict_true] at hkept
    exact hkept
  · intro kind h d
    rw [← d.compile_restrict kind (q.build ss), restrict_build_congr q h, d.compile_restrict]

/-- Steps in the order in which a reader of the statement comes across them. -/
def inOrder : List Step :=
  [.schema "db", .filter (.basic "a" "=" (.value (.int 1))), .filter (.null "b"),
    .orderBy (.column "c" .desc), .limit (some (.literal 5)), .limit (some (.bound (.int 6))),
    .set "x" (.value (.int 2))]

/-- The same steps on each field in another order. -/
def shuffled : List Step :=
  [.limit (some (.literal 5)), .set "x" (.value (.int 2)),
    .filter (.basic "a" "=" (.value (.int 1))), .orderBy (.column "c" .desc),
    .limit (some (.bound (.int 6))), .filter (.null "b"), .schema "db"]

/-- The same steps on each field that an update reads, among others that no dialect would
compile. -/
def interleaved : List Step :=
  .lock .forShare :: .prewhere (.basic "p" "drop" (.value .undefined)) ::
    (shuffled ++ [.groupBy "g", .columns ["k"]])

theorem build_of_stepsOn_interleaved :
    (∀ f, stepsOn f inOrder = stepsOn f shuffled) ∧
      (ofTable "t").build inOrder = (ofTable "t").build shuffled ∧
      (∀ f, StatementKind.update.reads f = true → stepsOn f interleaved = stepsOn f inOrder) ∧
      Dialect.clickhouse.compile .update ((ofTable "t").build interleaved) =
        .ok ⟨"update `db`.`t` set `x` = ? where `a` = ? and `b` is null order by `c` desc limit ?",
          [.int 2, .int 1, .int 6], false, []⟩ ∧
      Dialect.clickhouse.compile .select ((ofTable "t").build interleaved) =
        .error (.operatorNotPermitted "drop") := by
  have hfields (f : Field) : stepsOn f inOrder = stepsOn f shuffled := by cases f <;> rfl
  have hread (f : Field) (hf : StatementKind.update.reads f = true) :
      stepsOn f interleaved = stepsOn f inOrder := by
    cases f with
    | columns | prewhere | groupBy | lock => cases hf
    | _ => rfl
  obtain ⟨hsame, -⟩ := build_of_stepsOn (ofTable "t") inOrder shuffled
  obtain ⟨-, hcompile⟩ := build_of_stepsOn (ofTable "t") interleaved inOrder
  exact ⟨hfields, hsame hfields, hread, (hcompile .update hread .clickhouse).trans rfl, rfl⟩

end Query

end ClauseTree
