import ClauseTree.Proofs.Fragment.Leaves
import ClauseTree.Proofs.Fragment.Text
import ClauseTree.Statement.Compile

/-!
# Statements from parts

The parts of a statement can be compiled on their own. `compile_eq_fromParts` says that nothing
else goes into a statement: its text, its values and its signal are put together from those
of its parts, and it fails as the first of them does.
-/

namespace ClauseTree

/-- The parts of an update put together as texts. -/
def assembleUpdate (table join : String) (assignments : List String)
    (filter order limit : String) : String :=
  "update " ++ table ++ spacedAfterText [join] ++ " set " ++ ", ".intercalate assignments ++
    spacedAfterText [filter, order, limit]

namespace Dialect

def compileGroupBy (d : Dialect) (items : List GroupItem) : Statement :=
  (Fragment.groupBy items).statement d.writer false []

def compileOrderBy (d : Dialect) (items : List OrderItem) : Statement :=
  (Fragment.orderBy items).statement d.writer false []

def compileAssignment (d : Dialect) (a : Assignment) : Statement :=
  a.fragment.statement d.writer false []

/-- The selected columns as a text. -/
def columnsText (d : Dialect) (columns : List String) : String :=
  if columns.isEmpty then "*" else ", ".intercalate (columns.map d.wrap)

/-- The table of a selection as a text. -/
def sourceText (d : Dialect) (q : Query) : String :=
  q.table.elim "" fun table => "from " ++ d.wrap (qualified q.schema table)

end Dialect

def offsetText (offset : Option UInt64) : String :=
  offset.elim "" fun n => if 0 < n then "offset " ++ toString n.toNat else ""

namespace Fragment

theorem written_name (d : Dialect) (n : String) : written d.writer [.name n] = d.wrap n := by
  rw [written, chars_cons, chars_nil, List.append_nil]
  rfl

theorem written_names (d : Dialect) (names : List String) :
    written d.writer (namesFragment names) = ", ".intercalate (names.map d.wrap) := by
  rw [namesFragment, written_joined, List.map_map]
  exact congrArg (fun f => ", ".intercalate (names.map f)) (funext (written_name d))

theorem written_selected (d : Dialect) (columns : List String) :
    written d.writer (selected columns) = "select " ++ d.columnsText columns := by
  rw [selected, written_word_cons, Dialect.columnsText]
  split
  · rw [written_word_cons, written_nil, String.append_empty]
  · rw [written_names]

theorem written_source (d : Dialect) (q : Query) :
    written d.writer (source q) = d.sourceText q := by
  rw [source, Dialect.sourceText]
  cases q.table with
  | none => rfl
  | some table =>
    rw [written_word_cons, written_name, Option.elim_some]

theorem written_offset (w : Writer) (o : Option UInt64) : written w (offset o) = offsetText o := by
  cases o with
  | none => rfl
  | some n =>
    rw [offset, offsetText, Option.elim_some]
    split
    · rw [number, written_word_cons, written_word_cons, written_nil, String.append_empty]
      rfl
    · rfl

theorem written_lock (w : Writer) (l : Option Lock) :
    written w (lock l) = l.elim "" Lock.text := by
  cases l with
  | none => rfl
  | some l => rw [lock, written_word_cons, written_nil, String.append_empty, Option.elim_some]

/-- The parts of an update are put together like their texts. -/
theorem written_update {w : Writer} {join filter order limit : Fragment}
    (hjoin : Settled w join) (hfilter : Settled w filter) (horder : Settled w order)
    (hlimit : Settled w limit) (table : Fragment) (assignments : List Fragment) :
    written w (update table join assignments filter order limit) =
      assembleUpdate (written w table) (written w join) (assignments.map (written w))
        (written w filter) (written w order) (written w limit) := by
  have htable : Settled w (.word "update " :: table) := Settled.word_cons (by decide) table
  have hset : Settled w (.word "set " :: joined ", " assignments) :=
    Settled.word_cons (by decide) _
  have hsettled : ∀ f ∈ [.word "update " :: table, join, .word "set " :: joined ", " assignments,
      filter, order, limit], Settled w f := by
    simpa using ⟨htable, hjoin, hset, hfilter, horder, hlimit⟩
  have hpart : " set " = " " ++ "set " := rfl
  have htext : ∀ t : String, "update " ++ t ≠ "" := fun t => by simp
  have htextSet : ∀ t : String, "set " ++ t ≠ "" := fun t => by simp
  rw [update, written_spaced hsettled, List.map_cons, List.map_cons, List.map_cons,
    written_word_cons, written_word_cons, written_joined, spacedText_cons (htext _),
    spacedAfterText_cons, spacedAfterText_cons, if_neg (htextSet _), assembleUpdate,
    spacedAfterText_cons, hpart]
  simp only [String.append_assoc]
  rfl

theorem bindings_selected (columns : List String) : bindings (selected columns) = [] := by
  rw [bindings_eq_values_leaves, leaves_selected, List.flatMap_map]
  exact List.flatMap_eq_nil_iff.2 fun _ _ => rfl

theorem bindings_source (q : Query) : bindings (source q) = [] := by
  rw [source]
  cases q.table <;> rfl

theorem bindings_offset (o : Option UInt64) : bindings (offset o) = [] := by
  rw [bindings_eq_values_leaves, leaves_offset, List.flatMap_nil]

theorem bindings_lock (l : Option Lock) : bindings (lock l) = [] := by
  rw [bindings_eq_values_leaves, leaves_lock, List.flatMap_nil]

/-- The values of an update without those of its words and its table. -/
theorem bindings_update (table join : Fragment) (assignments : List Fragment)
    (filter order limit : Fragment) :
    bindings (update table join assignments filter order limit) =
      bindings table ++ bindings join ++ assignments.flatMap bindings ++ bindings filter ++
        bindings order ++ bindings limit := by
  rw [update, bindings_spaced]
  simp [Piece.bindings, bindings_joined]

end Fragment

open Fragment

namespace Dialect

theorem compileArrayJoins_singleton (d : Dialect) (j : ArrayJoin) :
    d.compileArrayJoins [j] =
      (j.fragment d.writer).map fun f => f.statement d.writer false [] := by
  rw [compileArrayJoins, ArrayJoin.listFragment, ArrayJoin.fragments]
  cases j.fragment d.writer with
  | error e => rfl
  | ok f =>
    have hspaced : Fragment.spaced [f] = f := by
      rw [Fragment.spaced]
      split
      · rw [Fragment.spaced, List.append_nil]
      · rw [Fragment.spacedAfter, List.flatMap_nil, List.append_nil]
    exact congrArg (fun f => Except.ok (f.statement d.writer false [])) hspaced

/-- A selection put together from its parts. -/
def selectFromParts (d : Dialect) (q : Query) : Except CompileError Statement := do
  let joins ← d.compileArrayJoins q.categories.arrayJoins
  let prewhere ← d.compilePrewhere q.categories.prewhere
  let filter ← d.compileWhere q.categories.filter
  let group := d.compileGroupBy q.categories.groupBy
  let order := d.compileOrderBy q.categories.orderBy
  let limit := d.compileLimit q.limit q.offset
  return {
    sql := spacedText
      ["select " ++ d.columnsText q.columns, d.sourceText q, joins.sql, prewhere.sql, filter.sql,
        group.sql, order.sql, limit.sql, offsetText q.offset, q.lock.elim "" Lock.text]
    bindings := joins.bindings ++ prewhere.bindings ++ filter.bindings ++ group.bindings ++
      order.bindings ++ limit.bindings
    undefinedInWhere := prewhere.undefinedInWhere || filter.undefinedInWhere
    advisories := d.advisories q }

/-- An update put together from its parts. -/
def updateFromParts (d : Dialect) (q : Query) : Except CompileError Statement :=
  match q.table with
  | none => .error .missingTable
  | some table =>
    if q.update.isEmpty then .error .emptyUpdate
    else do
      let joins ← d.compileArrayJoins q.categories.arrayJoins
      let assignments := q.update.map d.compileAssignment
      let filter ← d.compileWhere q.categories.filter
      let order := d.compileOrderBy q.categories.orderBy
      let limit := d.compileLimit q.limit q.offset
      return {
        sql := assembleUpdate (d.wrap (qualified q.schema table)) joins.sql
          (assignments.map Statement.sql) filter.sql order.sql limit.sql
        bindings := joins.bindings ++ assignments.flatMap Statement.bindings ++ filter.bindings ++
          order.bindings ++ limit.bindings
        undefinedInWhere := filter.undefinedInWhere
        advisories := d.advisories q }

theorem compileSelect_eq_selectFromParts (d : Dialect) (q : Query) :
    d.compileSelect q = d.selectFromParts q := by
  rw [compileSelect, Writer.compileSelect, selectFromParts, Query.selectFragment, dialect_writer,
    compileArrayJoins, compilePrewhere, compileGroup, compileWhere, compileGroup]
  cases hjoins : ArrayJoin.listFragment d.writer q.categories.arrayJoins with
  | error e => rfl
  | ok joins =>
    cases hprewhere : WhereClause.groupFragment d "prewhere" q.categories.prewhere with
    | error e => rfl
    | ok prewhere =>
      cases hfilter : WhereClause.groupFragment d "where" q.categories.filter with
      | error e => rfl
      | ok filter =>
        have hsettled : ∀ f ∈ [selected q.columns, source q, joins, prewhere, filter,
            groupBy q.categories.groupBy, orderBy q.categories.orderBy,
            limit d q.limit q.offset, offset q.offset, lock q.lock], Settled d.writer f := by
          simpa using ⟨settled_selected _, settled_source _,
            ArrayJoin.settled_listFragment hjoins,
            WhereClause.settled_groupFragment (by decide) hprewhere,
            WhereClause.settled_groupFragment (by decide) hfilter,
            settled_groupBy _, settled_orderBy _, settled_limit _ _ _, settled_offset _,
            settled_lock _⟩
        refine congrArg Except.ok ?_
        rw [statement, written_spaced hsettled, bindings_spaced]
        simp [bindings_selected, bindings_source, bindings_offset, bindings_lock,
          written_selected, written_source, written_offset, written_lock, statement,
          compileGroupBy, compileOrderBy, compileLimit]

theorem compileUpdate_eq_updateFromParts (d : Dialect) (q : Query) :
    d.compileUpdate q = d.updateFromParts q := by
  rw [compileUpdate, Writer.compileUpdate, updateFromParts, Query.updateFragment, dialect_writer,
    compileArrayJoins, compileWhere, compileGroup]
  cases htable : q.table with
  | none => rfl
  | some table =>
    by_cases hempty : q.update.isEmpty = true
    · simp only [if_pos hempty]
      rfl
    simp only [if_neg hempty]
    cases hjoins : ArrayJoin.listFragment d.writer q.categories.arrayJoins with
    | error e => rfl
    | ok joins =>
      cases hfilter : WhereClause.groupFragment d "where" q.categories.filter with
      | error e => rfl
      | ok filter =>
        have hwritten := written_update (ArrayJoin.settled_listFragment hjoins)
          (WhereClause.settled_groupFragment (by decide) hfilter)
          (settled_orderBy q.categories.orderBy) (settled_limit d q.limit q.offset)
          [.name (qualified q.schema table)] (q.update.map Assignment.fragment)
        have hsql : q.update.map (written d.writer ∘ Assignment.fragment) =
            (q.update.map d.compileAssignment).map Statement.sql := by
          rw [List.map_map]
          rfl
        have hbindings : (q.update.map Assignment.fragment).flatMap bindings =
            (q.update.map d.compileAssignment).flatMap Statement.bindings := by
          rw [List.flatMap_map, List.flatMap_map]
          rfl
        refine congrArg Except.ok ?_
        rw [statement, hwritten, bindings_update, List.map_map, hsql, hbindings, written_name]
        simp [Piece.bindings, statement, compileOrderBy, compileLimit]

/-- A statement is put together from its parts, each compiled on its own. -/
theorem compile_eq_fromParts (d : Dialect) (q : Query) :
    d.compileSelect q = d.selectFromParts q ∧ d.compileUpdate q = d.updateFromParts q := by
  constructor
  · exact compileSelect_eq_selectFromParts d q
  · exact compileUpdate_eq_updateFromParts d q

end Dialect

end ClauseTree
