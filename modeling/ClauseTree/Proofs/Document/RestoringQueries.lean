import ClauseTree.Proofs.Document.Raws
import ClauseTree.Proofs.Document.RestoringConditions

/-!
# Restoring queries

The categories of a query stand beside its own fields, and an empty one is left out. So each field
is looked up through the whole list, and a category that is not found is empty.
`Query.parse_compact_toJson` puts the parts together: a query is restored from its text, as long as
its values and candidates are of the kinds that are restored and the text is not nested too deeply
for a reader.
-/

namespace ClauseTree

open Document

theorem Restores.orNull {α : Type} {read : Json → Option α} {toJson : α → Json} {x : Option α}
    (h : ∀ y ∈ x, Restores read (toJson y) y) (hnull : ∀ y ∈ x, toJson y ≠ .null) :
    Restores (nullable? read) (orNull toJson x) x := by
  cases x with
  | none => exact ⟨rfl, rfl⟩
  | some y =>
    have hy := h y rfl
    refine ⟨hy.printable, ?_⟩
    change nullable? read (toJson y) = some (some y)
    rw [nullable?_of_ne_null read (hnull y rfl), hy.read_eq]
    rfl

/-! ## Joins -/

theorem JoinSource.restores {s : JoinSource} {schema : Option String}
    (h : ∀ l ∈ s.leaves schema, l.Restorable) : Restores JoinSource.ofJson? s.toJson s := by
  cases s with
  | raw r => exact (Raw.restores (h _ List.mem_cons_self)).orElse_left JoinSource.raw _
  | name table =>
    exact ((Restores.string table).map JoinSource.name).orElse_right rfl JoinSource.raw

theorem JoinKind.restores (r : Reading) (k : JoinKind) :
    Restores (JoinKind.ofJson? r) (.string k.word) k := by
  cases k <;> exact ⟨rfl, rfl⟩

theorem JoinConditions.restores {cs : JoinConditions}
    (hleaves : ∀ l ∈ JoinConditions.leaves cs, l.Restorable)
    (hcandidates : ∀ c ∈ (Condition.testsOf cs).flatMap JoinTest.candidates, c.hasOwnShape = true)
    (r : Reading) :
    Restores (list? (JoinCondition.ofJson? r)) (.array (JoinCondition.toItems cs)) cs := by
  refine ConditionFormat.restores_toItems JoinCondition.restoring (fun t ht => ⟨?_, ?_⟩) r
  · exact fun l hl => hleaves l (List.mem_flatMap.2 ⟨t, ht, hl⟩)
  · exact fun c hc => hcandidates c (List.mem_flatMap.2 ⟨t, ht, hc⟩)

theorem WhereClauses.restore {cs : List WhereClause}
    (hleaves : ∀ l ∈ WhereClause.leaves cs, l.Restorable)
    (hcandidates : ∀ c ∈ (Condition.testsOf cs).flatMap Test.candidates, c.hasOwnShape = true)
    (r : Reading) :
    Restores (list? (WhereClause.ofJson? r)) (.array (WhereClause.toItems cs)) cs := by
  refine ConditionFormat.restores_toItems WhereClause.restoring (fun t ht => ⟨?_, ?_⟩) r
  · exact fun l hl => hleaves l (List.mem_flatMap.2 ⟨t, ht, hl⟩)
  · exact fun c hc => hcandidates c (List.mem_flatMap.2 ⟨t, ht, hc⟩)

namespace ArrayJoin

def candidates (a : ArrayJoin) : List Candidates :=
  (Condition.testsOf a.conditions).flatMap JoinTest.candidates

/-- The fields of a join in a document. -/
def toFields (a : ArrayJoin) : Fields :=
  [("table", a.source.toJson)] ++ a.schema.elim [] (fun s => [("schema", .string s)]) ++
    [("joinType", .string a.kind.word), ("clauses", .array (JoinCondition.toItems a.conditions))]

theorem record?_toJson (a : ArrayJoin) : record? fieldNames a.toJson = some a.toFields := by
  have hnodup : (a.toFields.map Prod.fst).Nodup := by
    rw [toFields]
    cases a.schema with
    | none =>
      change ["table", "joinType", "clauses"].Nodup
      decide
    | some s =>
      change ["table", "schema", "joinType", "clauses"].Nodup
      decide
  change (if distinct fieldNames a.toFields = true then some a.toFields else none) = _
  rw [if_pos (distinct_of_nodup fieldNames hnodup)]

theorem restores {a : ArrayJoin} (hleaves : ∀ l ∈ a.allLeaves, l.Restorable)
    (hcandidates : ∀ c ∈ a.candidates, c.hasOwnShape = true) (r : Reading) :
    Restores (ArrayJoin.ofJson? r) a.toJson a := by
  have hsource : Restores JoinSource.ofJson? a.source.toJson a.source :=
    JoinSource.restores fun l hl => hleaves l (List.mem_append_left _ hl)
  have hconditions : Restores (list? (JoinCondition.ofJson? r))
      (.array (JoinCondition.toItems a.conditions)) a.conditions :=
    JoinConditions.restores (fun l hl => hleaves l (List.mem_append_right _ hl)) hcandidates r
  have hkind := a.kind.restores r
  constructor
  · have hschema : ∀ f ∈ a.schema.elim [] fun s => [("schema", Json.string s)],
        f.2.printable = true := by
      cases a.schema with
      | none => exact List.forall_mem_nil _
      | some s => exact List.forall_mem_singleton.2 rfl
    rw [toJson, Json.printable, Json.fieldsPrintable_iff, List.forall_mem_append,
      List.forall_mem_append, List.forall_mem_singleton, List.forall_mem_cons,
      List.forall_mem_singleton]
    exact ⟨⟨hsource.printable, hschema⟩, hkind.printable, hconditions.printable⟩
  · have hlookup (name : String) (hname : (name == "schema") = false) :
        a.toFields.lookup name = [("table", a.source.toJson), ("joinType", .string a.kind.word),
          ("clauses", .array (JoinCondition.toItems a.conditions))].lookup name := by
      rw [toFields]
      cases a.schema with
      | none => rfl
      | some s =>
        simp only [Option.elim_some, List.cons_append, List.nil_append, List.lookup_cons, hname]
    have htable := hsource.required ((hlookup "table" (by decide)).trans rfl)
    have hschema : optional a.toFields "schema" none (nullable? string?) = some a.schema := by
      rw [toFields]
      cases a.schema <;> rfl
    have hkind := hkind.required ((hlookup "joinType" (by decide)).trans rfl)
    have hclauses := hconditions.optional ((hlookup "clauses" (by decide)).trans rfl) []
    rw [ofJson?, record?_toJson]
    change (required a.toFields "table" JoinSource.ofJson?).bind _ = _
    rw [htable, Option.bind_some, hschema]
    change (required a.toFields "joinType" (JoinKind.ofJson? r)).bind _ = _
    rw [hkind, Option.bind_some, hclauses]
    rfl

end ArrayJoin

/-! ## Entries and assignments -/

theorem word64_restores (n : UInt64) : Restores word64? (.int n.toNat) n := by
  have hhigh : n.toNat < 2 ^ 64 := n.toNat_lt
  constructor
  · rw [Json.printable, decide_eq_true (by omega), decide_eq_true (by omega)]
    rfl
  · change (if n.toNat < 2 ^ 64 then some (UInt64.ofNat n.toNat) else none) = some n
    rw [if_pos hhigh, UInt64.ofNat_toNat]

/-- Raw text behind its tag is read back, whatever the columns of the list are. -/
theorem restores_rawItem {α : Type} (r : Reading) (column : Json → Option α) (raw : Raw → α)
    {t : Raw} (h : (Leaf.raw t).Restorable) :
    Restores (item? r column raw) (.object [("type", .string "raw"), ("value", t.toJson)])
      (raw t) := by
  have hraw := Raw.restores h
  constructor
  · simp [Json.printable, Json.fieldsPrintable, hraw.printable]
  · change (required _ "value" Raw.ofJson?).bind (fun t => some (raw t)) = _
    rw [hraw.required rfl]
    rfl

theorem OrderItem.restores {i : OrderItem} (h : ∀ l ∈ i.leaves, l.Restorable) (r : Reading) :
    Restores (OrderItem.ofJson? r) i.toJson i := by
  cases i with
  | column name direction =>
    have hdirection : Restores (Direction.ofJson? .lenient) (.string direction.word) direction := by
      cases direction <;> exact ⟨rfl, rfl⟩
    let fs : Fields :=
      [("type", .string "basic"), ("column", .string name), ("direction", .string direction.word)]
    have hname : required fs "column" string? = some name := (Restores.string name).required rfl
    refine ⟨rfl, ?_⟩
    change (required fs "column" string?).bind (fun c =>
      (optional fs "direction" .asc (Direction.ofJson? .lenient)).bind fun d =>
        some (OrderItem.column c d)) = _
    rw [hname, Option.bind_some, hdirection.optional rfl .asc]
    rfl
  | raw t => exact restores_rawItem r column? .raw (h _ List.mem_cons_self)

theorem GroupItem.restores {i : GroupItem} (h : ∀ l ∈ i.leaves, l.Restorable) (r : Reading) :
    Restores (GroupItem.ofJson? r) i.toJson i := by
  cases i with
  | column name =>
    let fs : Fields := [("type", .string "basic"), ("column", .string name)]
    have hname : required fs "column" string? = some name := (Restores.string name).required rfl
    refine ⟨rfl, ?_⟩
    change (required fs "column" string?).bind (fun c => some (GroupItem.column c)) = _
    rw [hname]
    rfl
  | raw t => exact restores_rawItem r column? .raw (h _ List.mem_cons_self)

theorem Assignment.restores {a : Assignment} (h : ∀ l ∈ a.leaves, l.Restorable) :
    Restores Assignment.ofJson? a.toJson a := by
  have hvalue : Restores Operand.ofJson? a.value.toJson a.value :=
    Operand.restores fun l hl => h l (List.mem_cons_of_mem _ hl)
  constructor
  · simp [toJson, Json.printable, Json.fieldsPrintable, hvalue.printable]
  · let fs : Fields := [("column", .string a.column), ("value", a.value.toJson)]
    have hcolumn : required fs "column" string? = some a.column :=
      (Restores.string a.column).required rfl
    change (required fs "column" string?).bind (fun c =>
      (optional fs "value" default Operand.ofJson?).bind fun v => some (Assignment.mk c v)) = _
    rw [hcolumn, Option.bind_some, hvalue.optional rfl default]
    rfl

theorem Limit.restores {l : Limit} (h : ∀ i ∈ l.leaves, i.Restorable) :
    Restores Limit.ofJson? l.toJson l := by
  cases l with
  | literal n =>
    have hn : Restores word64? (.int n.toNat) n := word64_restores n
    exact hn.orElse_left Limit.literal _
  | raw r =>
    have hraw := Raw.restores (h _ List.mem_cons_self)
    exact (hraw.orElse_left Limit.raw _).orElse_right rfl Limit.literal
  | bound v =>
    have hv := Value.restores (h _ List.mem_cons_self v List.mem_cons_self)
    have hbind : Restores (onlyField? "bind" Value.ofJson?) (Limit.bound v).toJson v := by
      constructor
      · simp [toJson, Json.printable, Json.fieldsPrintable, hv.printable]
      · change required [("bind", v.toJson)] "bind" Value.ofJson? = some v
        exact hv.required rfl
    exact ((hbind.map Limit.bound).orElse_right rfl Limit.raw).orElse_right rfl Limit.literal

theorem Lock.restores (r : Reading) (l : Lock) : Restores (Lock.ofJson? r) l.toJson l := by
  cases l <;> exact ⟨rfl, rfl⟩

/-! ## Categories -/

namespace Categories

theorem lookup_category (n name : String) (js : List Json) :
    (category n js).lookup name =
      if name == n then (if js.isEmpty then none else some (.array js)) else none := by
  rw [category]
  split
  · rw [List.lookup_nil, ite_self]
  · rw [List.lookup_cons, List.lookup_nil]
    cases name == n <;> rfl

theorem forall_mem_category {P : Json → Prop} {n : String} {js : List Json} (h : P (.array js)) :
    ∀ f ∈ category n js, P f.2 := by
  rw [category]
  split
  · exact List.forall_mem_nil _
  · exact List.forall_mem_singleton.2 h

/-- A category that is left out is read as an empty one. -/
theorem optional_category {α : Type} {read : Json → Option α} {xs : List α} {js : List Json}
    {fs : Fields} {name : String} (h : Restores (list? read) (.array js) xs)
    (hfs : fs.lookup name = (category name js).lookup name) :
    optional fs name [] (list? read) = some xs := by
  rw [lookup_category, if_pos (beq_self_eq_true name)] at hfs
  split at hfs
  · next hempty =>
    have hnil : js.mapM read = some xs := h.read_eq
    rw [List.isEmpty_iff.1 hempty] at hnil
    cases hnil
    rw [Document.optional, hfs]
    rfl
  · exact h.optional hfs []

end Categories

/-! ## Queries -/

theorem mapItems_eq_self {name : String} {f : Json → Json} {fs : Fields}
    (h : ∀ j, (name, j) ∈ fs → mapItems.items f j = j) :
    mapItems name 0 f (.object fs) = .object fs := by
  have hfield : ∀ g ∈ fs, (if g.1 = name then (g.1, mapItems.items f g.2) else g) = g := by
    rintro ⟨n, j⟩ hg
    split
    · next hn =>
      cases hn
      rw [h j hg]
    · rfl
  exact congrArg Json.object ((List.map_congr_left hfield).trans (List.map_id fs))

namespace Query

/-- The candidates of all membership tests, those in the conditions of joins included. -/
def candidates (q : Query) : List Candidates :=
  q.categories.arrayJoins.flatMap ArrayJoin.candidates ++
    (Condition.testsOf q.categories.prewhere).flatMap Test.candidates ++
    (Condition.testsOf q.categories.filter).flatMap Test.candidates

/-- The fields of a query in a document. -/
def toFields (q : Query) : Fields :=
  [("table", orNull .string q.table), ("schema", orNull .string q.schema),
      ("columns", namesToJson q.columns)] ++
    q.categories.toFields ++
    [("update", .array (q.update.map Assignment.toJson)), ("limit", orNull Limit.toJson q.limit),
      ("offset", orNull (fun n => .int n.toNat) q.offset), ("lock", orNull Lock.toJson q.lock),
      ("returning", namesToJson q.returning)]

theorem toJson_eq_object (q : Query) : q.toJson = .object q.toFields := rfl

theorem nodup_toFields (q : Query) : (q.toFields.map Prod.fst).Nodup := by
  have hcategory (n : String) (js : List Json) :
      ((Categories.category n js).map Prod.fst).Sublist [n] := by
    rw [Categories.category]
    split
    · exact List.nil_sublist _
    · exact List.Sublist.refl _
  have hcategories : (q.categories.toFields.map Prod.fst).Sublist
      ["arrayJoin", "prewhere", "where", "group", "order"] := by
    simp only [Categories.toFields, List.map_append]
    exact ((((hcategory _ _).append (hcategory _ _)).append (hcategory _ _)).append
      (hcategory _ _)).append (hcategory _ _)
  have hsublist : (q.toFields.map Prod.fst).Sublist
      ["table", "schema", "columns", "arrayJoin", "prewhere", "where", "group", "order", "update",
        "limit", "offset", "lock", "returning"] := by
    simp only [toFields, List.map_append]
    exact ((List.Sublist.refl ["table", "schema", "columns"]).append hcategories).append
      (List.Sublist.refl ["update", "limit", "offset", "lock", "returning"])
  exact List.Sublist.nodup hsublist (by decide)

/-- What is found under a name: an own field, or the category of the name if it is not empty. -/
theorem lookup_toFields (q : Query) :
    q.toFields.lookup "table" = some (orNull .string q.table) ∧
      q.toFields.lookup "schema" = some (orNull .string q.schema) ∧
      q.toFields.lookup "columns" = some (namesToJson q.columns) ∧
      q.toFields.lookup "update" = some (.array (q.update.map Assignment.toJson)) ∧
      q.toFields.lookup "limit" = some (orNull Limit.toJson q.limit) ∧
      q.toFields.lookup "offset" = some (orNull (fun n => .int n.toNat) q.offset) ∧
      q.toFields.lookup "lock" = some (orNull Lock.toJson q.lock) ∧
      q.toFields.lookup "returning" = some (namesToJson q.returning) := by
  simp [toFields, Categories.toFields, List.lookup_append, Categories.lookup_category,
    List.lookup_cons]

theorem lookup_categories (q : Query) :
    q.toFields.lookup "arrayJoin" = (Categories.category "arrayJoin"
        (q.categories.arrayJoins.map ArrayJoin.toJson)).lookup "arrayJoin" ∧
      q.toFields.lookup "prewhere" = (Categories.category "prewhere"
        (WhereClause.toItems q.categories.prewhere)).lookup "prewhere" ∧
      q.toFields.lookup "where" = (Categories.category "where"
        (WhereClause.toItems q.categories.filter)).lookup "where" ∧
      q.toFields.lookup "group" = (Categories.category "group"
        (q.categories.groupBy.map GroupItem.toJson)).lookup "group" ∧
      q.toFields.lookup "order" = (Categories.category "order"
        (q.categories.orderBy.map OrderItem.toJson)).lookup "order" := by
  simp [toFields, Categories.toFields, List.lookup_append, Categories.lookup_category,
    List.lookup_cons]

variable {q : Query}

/-- The five categories are restored, those that are left out as empty ones. -/
theorem categories_restore (hleaves : ∀ l ∈ q.leaves, l.Restorable)
    (hcandidates : ∀ c ∈ q.candidates, c.hasOwnShape = true) :
    Categories.ofFields? .lenient q.toFields = some q.categories ∧
      ∀ f ∈ q.categories.toFields, f.2.printable = true := by
  simp only [leaves, List.forall_mem_append] at hleaves
  simp only [candidates, List.forall_mem_append] at hcandidates
  obtain ⟨⟨⟨⟨⟨⟨⟨⟨-, -⟩, hjoins⟩, hprewhere⟩, hfilter⟩, hgroup⟩, horder⟩, -⟩, -⟩ := hleaves
  obtain ⟨⟨hjoinCandidates, hprewhereCandidates⟩, hfilterCandidates⟩ := hcandidates
  have hjoins : Restores (list? (ArrayJoin.ofJson? .lenient))
      (.array (q.categories.arrayJoins.map ArrayJoin.toJson)) q.categories.arrayJoins := by
    refine Restores.items fun a ha => ArrayJoin.restores ?_ ?_ .lenient
    · exact fun l hl => hjoins l (List.mem_flatMap.2 ⟨a, ha, hl⟩)
    · exact fun c hc => hjoinCandidates c (List.mem_flatMap.2 ⟨a, ha, hc⟩)
  have hprewhere := WhereClauses.restore hprewhere hprewhereCandidates .lenient
  have hfilter := WhereClauses.restore hfilter hfilterCandidates .lenient
  have hgroup : Restores (list? (GroupItem.ofJson? .lenient))
      (.array (q.categories.groupBy.map GroupItem.toJson)) q.categories.groupBy :=
    Restores.items fun i hi =>
      GroupItem.restores (fun l hl => hgroup l (List.mem_flatMap.2 ⟨i, hi, hl⟩)) .lenient
  have horder : Restores (list? (OrderItem.ofJson? .lenient))
      (.array (q.categories.orderBy.map OrderItem.toJson)) q.categories.orderBy :=
    Restores.items fun i hi =>
      OrderItem.restores (fun l hl => horder l (List.mem_flatMap.2 ⟨i, hi, hl⟩)) .lenient
  obtain ⟨hjoinAt, hprewhereAt, hfilterAt, hgroupAt, horderAt⟩ := lookup_categories q
  constructor
  · rw [Categories.ofFields?, Categories.optional_category hjoins hjoinAt,
      Categories.optional_category hprewhere hprewhereAt,
      Categories.optional_category hfilter hfilterAt, Categories.optional_category hgroup hgroupAt,
      Categories.optional_category horder horderAt]
    rfl
  · simp only [Categories.toFields, List.forall_mem_append]
    have hcategory {n : String} {js : List Json} (hjs : (Json.array js).printable = true) :
        ∀ f ∈ Categories.category n js, f.2.printable = true :=
      Categories.forall_mem_category (P := fun j => j.printable = true) hjs
    exact ⟨⟨⟨⟨hcategory hjoins.printable, hcategory hprewhere.printable⟩,
      hcategory hfilter.printable⟩, hcategory hgroup.printable⟩, hcategory horder.printable⟩

theorem restores (hleaves : ∀ l ∈ q.leaves, l.Restorable)
    (hcandidates : ∀ c ∈ q.candidates, c.hasOwnShape = true) :
    Restores Query.ofJson? q.toJson q := by
  obtain ⟨hcategories, hprintable⟩ := categories_restore hleaves hcandidates
  simp only [leaves, List.forall_mem_append] at hleaves
  obtain ⟨⟨⟨⟨⟨⟨⟨⟨-, -⟩, -⟩, -⟩, -⟩, -⟩, -⟩, hupdate⟩, hlimit⟩ := hleaves
  have htext (x : Option String) : Restores (nullable? string?) (orNull .string x) x :=
    Restores.orNull (fun s _ => Restores.string s) fun s _ => Json.noConfusion
  have hupdate : Restores (list? Assignment.ofJson?) (.array (q.update.map Assignment.toJson))
      q.update :=
    Restores.items fun a ha =>
      Assignment.restores fun l hl => hupdate l (List.mem_flatMap.2 ⟨a, ha, hl⟩)
  have hlimit : Restores (nullable? Limit.ofJson?) (orNull Limit.toJson q.limit) q.limit := by
    refine Restores.orNull (fun l hl => Limit.restores ?_) fun l _ => ?_
    · rw [limitLeaves, Option.mem_def.1 hl] at hlimit
      exact hlimit
    · cases l <;> exact Json.noConfusion
  have hoffset : Restores (nullable? word64?) (orNull (fun n => .int n.toNat) q.offset) q.offset :=
    Restores.orNull (fun n _ => word64_restores n) fun n _ => Json.noConfusion
  have hlock : Restores (nullable? (Lock.ofJson? .strict)) (orNull Lock.toJson q.lock) q.lock :=
    Restores.orNull (fun l _ => Lock.restores .strict l) fun l _ => Json.noConfusion
  obtain ⟨htableAt, hschemaAt, hcolumnsAt, hupdateAt, hlimitAt, hoffsetAt, hlockAt, hreturningAt⟩ :=
    lookup_toFields q
  rw [toJson_eq_object]
  constructor
  · rw [Json.printable, Json.fieldsPrintable_iff]
    simp only [toFields, List.forall_mem_append, List.forall_mem_cons]
    exact ⟨⟨⟨(htext q.table).printable, (htext q.schema).printable,
      (namesRestore q.columns).printable, List.forall_mem_nil _⟩, hprintable⟩,
      hupdate.printable, hlimit.printable, hoffset.printable, hlock.printable,
      (namesRestore q.returning).printable, List.forall_mem_nil _⟩
  · rw [ofJson?, distinct_of_nodup _ q.nodup_toFields, Bool.not_true, if_neg Bool.false_ne_true,
      (htext q.table).optional htableAt none, (htext q.schema).optional hschemaAt none,
      (namesRestore q.columns).optional hcolumnsAt [], hcategories,
      hupdate.optional hupdateAt [], hlimit.optional hlimitAt none,
      hoffset.optional hoffsetAt none, hlock.optional hlockAt none,
      (namesRestore q.returning).optional hreturningAt []]
    rfl

/-- A query is written without fields that a reader skips. -/
theorem keep_toJson (q : Query) : FromDocument.keep Query q.toJson = q.toJson := by
  refine mapItems_eq_self fun j hj => ?_
  have hupdate : some j = some (.array (q.update.map Assignment.toJson)) :=
    (lookup_of_mem q.nodup_toFields hj).symm.trans (lookup_toFields q).2.2.2.1
  have hassignment (a : Assignment) : FromDocument.keep Assignment a.toJson = a.toJson := rfl
  rw [Option.some.inj hupdate, mapItems.items, List.map_map]
  exact congrArg Json.array (List.map_congr_left fun a _ => hassignment a)

/-- A query is restored from its text. The text may be nested as deeply as a reader follows, the
values have to be written as what they are, and a list of candidates may neither be empty nor a
single text. -/
theorem parse_compact_toJson (hleaves : ∀ l ∈ q.leaves, l.Restorable)
    (hcandidates : ∀ c ∈ q.candidates, c.hasOwnShape = true)
    (hdepth : q.toJson.depth ≤ Json.depthLimit) : Query.parse q.toJson.compact = .ok q := by
  have hq : Restores Query.ofJson? q.toJson q := restores hleaves hcandidates
  have hreadable : q.toJson.readable = true := by
    rw [Json.readable, Bool.and_eq_true, decide_eq_true_eq]
    exact ⟨Json.hasContent_of_printable _ hq.printable, hdepth⟩
  refine parse_eq_ok_iff.2 ⟨q.toJson, Json.parse_compact hq.printable, ?_, ?_⟩
  · rw [keep_toJson, hreadable]
  · rw [keep_toJson, hq.read_eq]

/-- A query with something in each place that can be told apart from another one only by its shape,
and with words, tags and numbers that are not the usual ones. -/
def shapely : Query where
  table := some "\x60\n\\"
  columns := ["", "é"]
  categories := {
    arrayJoins := [
      { source := .raw ⟨"array join ? as tag", [.null]⟩, kind := .raw
        conditions := [.ofTest (.on (.isIn (.multi []) (.list [.int 1])))] },
      { source := .name "", schema := some "s", kind := .left
        conditions := [.or (.ofTest (.usingColumns (.single "day"))),
          .not (.ofMembers [.ofTest (.pair "hour" "<" "low"), .ofMembers []])] }]
    filter := [.ofMembers [
        .or (.not (.ofTest (.isIn (.single "z") (.list [.text "x", .text "y"])))),
        .ofTest (.isIn (.multi ["x", "y"]) (.rows [[.text "x"], []])),
        .ofTest (.isIn (.single "x") (.rows []))],
      .ofTest (.isIn (.single "x") (.raw ⟨"x", []⟩)), .ofTest (.basic "z" "=" (.column "x")),
      .ofTest (.basic "z" "=" (.value (.uint 18446744073709551615)))]
    groupBy := [.raw ⟨"f(?)", [.bool false]⟩]
    orderBy := [.column "x" .desc] }
  update := [⟨"x", .value .null⟩]
  limit := some (.bound (.int (-9223372036854775808)))
  offset := some 18446744073709551615
  lock := some .forShare

theorem parse_compact_toJson_shapely : Query.parse shapely.toJson.compact = .ok shapely :=
  parse_compact_toJson (by decide) (by decide) (by decide)

end Query

end ClauseTree
