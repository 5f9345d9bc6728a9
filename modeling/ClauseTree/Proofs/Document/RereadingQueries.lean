import ClauseTree.Proofs.Document.Rereading

/-!
# Writing queries that were read

In a condition every second level of a document is an array of members, and raw text stands on one
of those levels. So it gains its further level where there is still room, and the bound on the depth
of a condition is an odd number that passes from a group to its members.
-/

namespace ClauseTree

open Document

/-! ## Conditions -/

namespace ConditionFormat

variable {τ α : Type} [DecidableEq τ] {F : ConditionFormat τ α} {own : α → List Leaf}
  {candidates : α → List Candidates}

/-- The tests that are read can be written. -/
def RewritesTests (F : ConditionFormat τ α) (own : α → List Leaf)
    (candidates : α → List Candidates) : Prop :=
  ∀ fs tag t, Json.fieldsFit fs = true → F.test? fs tag = some t →
    Rewritten (Json.depthFields fs) (Json.depthFields (F.toFields t)) (own t) (candidates t)

/-- The tests of a condition are restored. -/
def Suppliable (own : α → List Leaf) (candidates : α → List Candidates) (ts : List α) : Prop :=
  ∀ t ∈ ts, (∀ l ∈ own t, l.Suppliable) ∧ ∀ c ∈ candidates t, c.hasOwnShape = true

omit [DecidableEq τ] in
theorem depth_object (tag : τ) (fs : Fields) (negated : Bool) (k : Connector) :
    (F.object tag fs negated k).depth = Json.depthFields fs + 1 := by
  have hlast : Json.depthFields (fs ++ [("not", .bool negated), ("bool", k.toJson)]) =
      Json.depthFields fs := by
    induction fs with
    | nil => rfl
    | cons f fs ih => rw [List.cons_append, Json.depthFields, ih, Json.depthFields]
  rw [object, Json.depth, Json.depthFields, hlast]
  exact congrArg (· + 1) (Nat.zero_max _)

mutual

theorem rewritten_ofJson? (htest : F.RewritesTests own candidates) (r : Reading) :
    ∀ (j : Json) (c : Condition α) (n : Nat), j.numbersFit = true → j.depth ≤ 2 * n + 1 →
      F.ofJson? r j = some c →
      Suppliable own candidates c.tests ∧ (F.toJson c).depth ≤ 2 * n + 1
  | .object fs, c, n, hj, hdepth, hc => by
    have hfs : Json.fieldsFit fs = true := hj
    have hfields : Json.depthFields fs ≤ 2 * n := Nat.le_of_succ_le_succ hdepth
    rw [ofJson?] at hc
    obtain ⟨tag, -, hc⟩ := Option.bind_eq_some_iff.1 hc
    obtain ⟨negated, -, hc⟩ := Option.bind_eq_some_iff.1 hc
    obtain ⟨connector, -, hc⟩ := Option.bind_eq_some_iff.1 hc
    split at hc
    · cases hc
    · split at hc
      · obtain ⟨cs, hcs, hc⟩ := Option.bind_eq_some_iff.1 hc
        cases hc
        obtain ⟨htests, k, hk, hitems⟩ := rewritten_valueMembers? htest fs cs n hfs hfields hcs
        rw [Condition.tests, toJson, depth_object]
        refine ⟨htests, ?_⟩
        simp only [Json.depthFields, Json.depth]
        omega
      · obtain ⟨t, ht, hc⟩ := Option.bind_eq_some_iff.1 hc
        cases hc
        have hwritten := htest fs tag t hfs ht
        rw [Condition.tests, toJson, depth_object]
        refine ⟨List.forall_mem_singleton.2 ⟨hwritten.leaves, hwritten.candidates⟩, ?_⟩
        have hle := hwritten.le_two
        have hflat := hwritten.flat
        omega
  | .null, c, _, _, _, hc => by cases hc
  | .bool _, c, _, _, _, hc => by cases hc
  | .int _, c, _, _, _, hc => by cases hc
  | .real _, c, _, _, _, hc => by cases hc
  | .string _, c, _, _, _, hc => by cases hc
  | .array _, c, _, _, _, hc => by cases hc
  | .unreadable, c, _, _, _, hc => by cases hc

theorem rewritten_valueMembers? (htest : F.RewritesTests own candidates) :
    ∀ (fs : Fields) (cs : List (Condition α)) (n : Nat), Json.fieldsFit fs = true →
      Json.depthFields fs ≤ 2 * n → F.valueMembers? fs = some cs →
      Suppliable own candidates (Condition.testsOf cs) ∧
        ∃ k, n = k + 1 ∧ Json.depthItems (F.toItems cs) ≤ 2 * k + 1
  | [], cs, _, _, _, hcs => by cases hcs
  | (name, j) :: fs, cs, n, hfs, hdepth, hcs => by
    rw [Json.fieldsFit, Bool.and_eq_true] at hfs
    rw [Json.depthFields, Nat.max_le] at hdepth
    rw [valueMembers?] at hcs
    split at hcs
    · exact rewritten_members? htest j cs n hfs.1 hdepth.1 hcs
    · exact rewritten_valueMembers? htest fs cs n hfs.2 hdepth.2 hcs

theorem rewritten_members? (htest : F.RewritesTests own candidates) :
    ∀ (j : Json) (cs : List (Condition α)) (n : Nat), j.numbersFit = true → j.depth ≤ 2 * n →
      F.members? j = some cs →
      Suppliable own candidates (Condition.testsOf cs) ∧
        ∃ k, n = k + 1 ∧ Json.depthItems (F.toItems cs) ≤ 2 * k + 1
  | .array js, cs, n, hj, hdepth, hcs => by
    rw [Json.depth] at hdepth
    obtain ⟨k, rfl⟩ : ∃ k, n = k + 1 := ⟨n - 1, by omega⟩
    obtain ⟨htests, hitems⟩ := rewritten_ofItems? htest js cs k hj (by omega) hcs
    exact ⟨htests, k, rfl, hitems⟩
  | .null, cs, _, _, _, hcs => by cases hcs
  | .bool _, cs, _, _, _, hcs => by cases hcs
  | .int _, cs, _, _, _, hcs => by cases hcs
  | .real _, cs, _, _, _, hcs => by cases hcs
  | .string _, cs, _, _, _, hcs => by cases hcs
  | .object _, cs, _, _, _, hcs => by cases hcs
  | .unreadable, cs, _, _, _, hcs => by cases hcs

theorem rewritten_ofItems? (htest : F.RewritesTests own candidates) :
    ∀ (js : List Json) (cs : List (Condition α)) (n : Nat), Json.itemsFit js = true →
      Json.depthItems js ≤ 2 * n + 1 → F.ofItems? js = some cs →
      Suppliable own candidates (Condition.testsOf cs) ∧
        Json.depthItems (F.toItems cs) ≤ 2 * n + 1
  | [], cs, n, _, _, hcs => by
    cases hcs
    exact ⟨List.forall_mem_nil _, Nat.zero_le _⟩
  | j :: js, cs, n, hjs, hdepth, hcs => by
    rw [Json.itemsFit, Bool.and_eq_true] at hjs
    rw [Json.depthItems, Nat.max_le] at hdepth
    rw [ofItems?] at hcs
    obtain ⟨c, hc, hcs⟩ := Option.bind_eq_some_iff.1 hcs
    obtain ⟨ds, hds, hcs⟩ := Option.bind_eq_some_iff.1 hcs
    cases hcs
    obtain ⟨htest₁, hdepth₁⟩ := rewritten_ofJson? htest .lenient j c n hjs.1 hdepth.1 hc
    obtain ⟨htest₂, hdepth₂⟩ := rewritten_ofItems? htest js ds n hjs.2 hdepth.2 hds
    rw [Condition.testsOf, toItems, Json.depthItems]
    exact ⟨List.forall_mem_append.2 ⟨htest₁, htest₂⟩, Nat.max_le.2 ⟨hdepth₁, hdepth₂⟩⟩

end

end ConditionFormat

theorem WhereClause.rewritten {r : Reading} {j : Json} {c : WhereClause} {n : Nat}
    (hj : j.numbersFit = true) (hdepth : j.depth ≤ 2 * n + 1) (h : ofJson? r j = some c) :
    ConditionFormat.Suppliable Test.leaves Test.candidates c.tests ∧
      (toJson c).depth ≤ 2 * n + 1 :=
  ConditionFormat.rewritten_ofJson? (fun _ _ _ hfs ht => Test.rewritten_ofWhereTag? hfs ht) r j c n
    hj hdepth h

theorem JoinCondition.rewritten {r : Reading} {j : Json} {c : JoinCondition} {n : Nat}
    (hj : j.numbersFit = true) (hdepth : j.depth ≤ 2 * n + 1) (h : ofJson? r j = some c) :
    ConditionFormat.Suppliable JoinTest.leaves JoinTest.candidates c.tests ∧
      (toJson c).depth ≤ 2 * n + 1 :=
  ConditionFormat.rewritten_ofJson? (fun _ _ _ hfs ht => JoinTest.rewritten_ofTag? hfs ht) r j c n
    hj hdepth h

/-- The tests of several conditions are those of each of them. -/
theorem ConditionFormat.Suppliable.testsOf {α : Type} {own : α → List Leaf}
    {candidates : α → List Candidates} {cs : List (Condition α)}
    (h : ∀ c ∈ cs, Suppliable own candidates c.tests) :
    (∀ l ∈ (Condition.testsOf cs).flatMap own, l.Suppliable) ∧
      ∀ c ∈ (Condition.testsOf cs).flatMap candidates, c.hasOwnShape = true := by
  rw [Condition.testsOf_eq_flatMap]
  constructor
  · intro l hl
    obtain ⟨t, ht, hl⟩ := List.mem_flatMap.1 hl
    obtain ⟨c, hc, ht⟩ := List.mem_flatMap.1 ht
    exact (h c hc t ht).1 l hl
  · intro d hd
    obtain ⟨t, ht, hd⟩ := List.mem_flatMap.1 hd
    obtain ⟨c, hc, ht⟩ := List.mem_flatMap.1 ht
    exact (h c hc t ht).2 d hd

/-! ## Records -/

/-- A list that may be left out is read item by item. -/
theorem forall_mem_of_optional_list {α : Type} {read : Json → Option α} {P : α → Prop} {n : Nat}
    (h : ∀ j a, j.numbersFit = true → j.depth ≤ n → read j = some a → P a) {fs : Fields}
    (hfs : Json.fieldsFit fs = true) (hdepth : Json.depthFields fs ≤ n + 1) {name : String}
    {as : List α} (has : optional fs name [] (list? read) = some as) : ∀ a ∈ as, P a := by
  rcases exists_of_optional hfs has with rfl | ⟨j, hj, hle, has⟩
  · exact List.forall_mem_nil _
  · exact forall_mem_of_list? h hj (Nat.le_trans hle hdepth) has

theorem depth_array_map {α : Type} {toJson : α → Json} {as : List α} {n : Nat}
    (h : ∀ a ∈ as, (toJson a).depth ≤ n) : (Json.array (as.map toJson)).depth ≤ n + 1 := by
  rw [Json.depth, Nat.add_le_add_iff_right, Json.depthItems_le_iff, List.forall_mem_map]
  exact h

theorem ArrayJoin.rewritten {r : Reading} {j : Json} {a : ArrayJoin} {n : Nat}
    (hj : j.numbersFit = true) (hdepth : j.depth ≤ 2 * n + 3) (h : ofJson? r j = some a) :
    (∀ l ∈ a.allLeaves, l.Suppliable) ∧ (∀ c ∈ a.candidates, c.hasOwnShape = true) ∧
      a.toJson.depth ≤ 2 * n + 3 := by
  obtain ⟨fs, hrecord, h⟩ := Option.bind_eq_some_iff.1 h
  obtain ⟨source, hsource, h⟩ := Option.bind_eq_some_iff.1 h
  obtain ⟨schema, -, h⟩ := Option.bind_eq_some_iff.1 h
  obtain ⟨kind, -, h⟩ := Option.bind_eq_some_iff.1 h
  obtain ⟨conditions, hconditions, h⟩ := Option.bind_eq_some_iff.1 h
  cases h
  have hfs : Json.fieldsFit fs = true := fieldsFit_of_record? hj hrecord
  have hfields : Json.depthFields fs ≤ 2 * n + 2 := depthFields_of_record? hdepth hrecord
  have hwritten := (JoinSource.rewrites schema).at_required hfs hsource
  have hmembers : ∀ c ∈ conditions,
      ConditionFormat.Suppliable JoinTest.leaves JoinTest.candidates c.tests ∧
        (JoinCondition.toJson c).depth ≤ 2 * n + 1 :=
    forall_mem_of_optional_list (fun _ _ hi hle hc => JoinCondition.rewritten hi hle hc) hfs hfields
      hconditions
  obtain ⟨hleaves, hcandidates⟩ :=
    ConditionFormat.Suppliable.testsOf fun c hc => (hmembers c hc).1
  refine ⟨List.forall_mem_append.2 ⟨hwritten.leaves, hleaves⟩, hcandidates, ?_⟩
  have hclauses : (Json.array (JoinCondition.toItems conditions)).depth ≤ 2 * n + 2 := by
    rw [JoinCondition.toItems, ConditionFormat.toItems_eq_map]
    exact depth_array_map fun c hc => (hmembers c hc).2
  have hschema : ∀ f ∈ schema.elim [] fun s => [("schema", Json.string s)],
      f.2.depth ≤ 2 * n + 2 := by
    cases schema with
    | none => exact List.forall_mem_nil _
    | some s => exact List.forall_mem_singleton.2 (Nat.zero_le _)
  rw [toJson, Json.depth, Nat.add_le_add_iff_right, Json.depthFields_le_iff,
    List.forall_mem_append, List.forall_mem_append, List.forall_mem_singleton, List.forall_mem_cons,
    List.forall_mem_singleton]
  exact ⟨⟨Nat.le_trans hwritten.le_two (Nat.le_add_left 2 (2 * n)), hschema⟩, Nat.zero_le _,
    hclauses⟩

theorem numbersFit_of_tagged? {j t content : Json} (hj : j.numbersFit = true)
    (h : tagged? j = some (t, content)) : content.numbersFit = true := by
  cases j with
  | object fs =>
    rw [tagged?] at h
    split at h
    · obtain ⟨t', -, h⟩ := Option.map_eq_some_iff.1 h
      cases h
      exact hj
    · cases h
  | array js =>
    cases js with
    | nil => cases h
    | cons i js =>
      cases h
      rw [Json.numbersFit, Json.itemsFit, Bool.and_eq_true] at hj
      exact hj.2
  | _ => cases h

/-- An entry that is read is written in three levels, if a column is. -/
theorem rewritten_item? {α : Type} {r : Reading} {column : Json → Option α} {raw : Raw → α}
    {own : α → List Leaf} {toJson : α → Json}
    (hcolumn : ∀ j i, column j = some i → (∀ l ∈ own i, l.Suppliable) ∧ (toJson i).depth ≤ 3)
    (hown : ∀ text, own (raw text) = [.raw text])
    (htoJson : ∀ text, (toJson (raw text)).depth = text.toJson.depth + 1)
    {j : Json} {i : α} (hj : j.numbersFit = true) (h : item? r column raw j = some i) :
    (∀ l ∈ own i, l.Suppliable) ∧ (toJson i).depth ≤ 3 := by
  obtain ⟨t, content, ht, ⟨-, hi⟩ | ⟨-, fs, text, hfs, htext, rfl⟩⟩ := item?_cases h
  · exact hcolumn content i hi
  · have hfit := fieldsFit_of_record? (numbersFit_of_tagged? hj ht) hfs
    obtain ⟨k, hk, -, hread⟩ := exists_of_required hfit htext
    have hwritten := Raw.rewritten hk hread
    rw [hown, htoJson]
    exact ⟨hwritten.leaves, Nat.succ_le_succ hwritten.le_two⟩

theorem OrderItem.rewritten {r : Reading} {j : Json} {i : OrderItem} (hj : j.numbersFit = true)
    (h : ofJson? r j = some i) : (∀ l ∈ i.leaves, l.Suppliable) ∧ i.toJson.depth ≤ 3 := by
  refine rewritten_item? (fun j i hi => ?_) (fun _ => rfl) (fun text => ?_) hj h
  · obtain ⟨fs, -, hi⟩ := Option.bind_eq_some_iff.1 hi
    obtain ⟨column, -, hi⟩ := Option.bind_eq_some_iff.1 hi
    obtain ⟨direction, -, hi⟩ := Option.bind_eq_some_iff.1 hi
    cases hi
    exact ⟨Leaf.suppliable_names [column], Nat.le_add_left 1 2⟩
  · simp [toJson, Json.depth, Json.depthFields]

theorem GroupItem.rewritten {r : Reading} {j : Json} {i : GroupItem} (hj : j.numbersFit = true)
    (h : ofJson? r j = some i) : (∀ l ∈ i.leaves, l.Suppliable) ∧ i.toJson.depth ≤ 3 := by
  refine rewritten_item? (fun j i hi => ?_) (fun _ => rfl) (fun text => ?_) hj h
  · obtain ⟨fs, -, hi⟩ := Option.bind_eq_some_iff.1 hi
    obtain ⟨column, -, hi⟩ := Option.bind_eq_some_iff.1 hi
    cases hi
    exact ⟨Leaf.suppliable_names [column], Nat.le_add_left 1 2⟩
  · simp [toJson, Json.depth, Json.depthFields]

theorem Assignment.rewritten {j : Json} {a : Assignment} (hj : j.numbersFit = true)
    (h : ofJson? j = some a) : (∀ l ∈ a.leaves, l.Suppliable) ∧ a.toJson.depth ≤ 3 := by
  obtain ⟨fs, hrecord, h⟩ := Option.bind_eq_some_iff.1 h
  obtain ⟨column, -, h⟩ := Option.bind_eq_some_iff.1 h
  obtain ⟨value, hvalue, h⟩ := Option.bind_eq_some_iff.1 h
  cases h
  have hwritten : ∃ m, Rewritten m value.toJson.depth value.leaves [] := by
    rcases exists_of_optional (fieldsFit_of_record? hj hrecord) hvalue with rfl | ⟨i, hi, -, hread⟩
    · exact ⟨0, Operand.rewritten_default 0⟩
    · exact ⟨i.depth, Operand.rewrites i value hi hread⟩
  obtain ⟨m, hwritten⟩ := hwritten
  refine ⟨List.forall_mem_cons.2 ⟨Leaf.suppliable_name column, hwritten.leaves⟩, ?_⟩
  have hle := hwritten.le_two
  simp only [toJson, Json.depth, Json.depthFields]
  omega

/-! ## Queries -/

theorem Limit.rewritten {j : Json} {l : Option Limit} (hj : j.numbersFit = true)
    (h : nullable? ofJson? j = some l) :
    (∀ i ∈ l.elim [] leaves, i.Suppliable) ∧ (orNull toJson l).depth ≤ 2 := by
  by_cases hnull : j = .null
  · rw [hnull] at h
    cases h
    exact ⟨List.forall_mem_nil _, Nat.zero_le 2⟩
  · rw [nullable?_of_ne_null _ hnull, Option.map_eq_some_iff] at h
    obtain ⟨l, hl, rfl⟩ := h
    have hwritten := Limit.rewrites j l hj hl
    exact ⟨hwritten.leaves, hwritten.le_two⟩

theorem Categories.depth_category {α : Type} {toJson : α → Json} {as : List α} {name : String}
    {n : Nat} (h : ∀ a ∈ as, (toJson a).depth ≤ n) :
    ∀ f ∈ category name (as.map toJson), f.2.depth ≤ n + 1 :=
  forall_mem_category (P := fun j => j.depth ≤ n + 1) (depth_array_map h)

/-- The five categories, from a record in which the document is nested at least four levels deep. -/
theorem Categories.rewritten {r : Reading} {fs : Fields} {c : Categories} {n : Nat}
    (hfs : Json.fieldsFit fs = true) (hdepth : Json.depthFields fs ≤ 2 * n + 4)
    (h : ofFields? r fs = some c) :
    ((∀ l ∈ c.arrayJoins.flatMap ArrayJoin.allLeaves, l.Suppliable) ∧
        (∀ l ∈ WhereClause.leaves c.prewhere, l.Suppliable) ∧
        (∀ l ∈ WhereClause.leaves c.filter, l.Suppliable) ∧
        (∀ l ∈ c.groupBy.flatMap GroupItem.leaves, l.Suppliable) ∧
        ∀ l ∈ c.orderBy.flatMap OrderItem.leaves, l.Suppliable) ∧
      (∀ d ∈ c.arrayJoins.flatMap ArrayJoin.candidates ++
          (Condition.testsOf c.prewhere).flatMap Test.candidates ++
          (Condition.testsOf c.filter).flatMap Test.candidates, d.hasOwnShape = true) ∧
        ∀ f ∈ c.toFields, f.2.depth ≤ 2 * n + 4 := by
  obtain ⟨arrayJoins, harrayJoins, h⟩ := Option.bind_eq_some_iff.1 h
  obtain ⟨prewhere, hprewhere, h⟩ := Option.bind_eq_some_iff.1 h
  obtain ⟨filter, hfilter, h⟩ := Option.bind_eq_some_iff.1 h
  obtain ⟨groupBy, hgroupBy, h⟩ := Option.bind_eq_some_iff.1 h
  obtain ⟨orderBy, horderBy, h⟩ := Option.bind_eq_some_iff.1 h
  cases h
  have hjoins := forall_mem_of_optional_list
    (fun _ _ hj hle ha => ArrayJoin.rewritten hj hle ha) hfs hdepth harrayJoins
  have hprewhere := forall_mem_of_optional_list
    (fun _ _ hj hle hc => WhereClause.rewritten (n := n + 1) hj hle hc) hfs hdepth hprewhere
  have hfilter := forall_mem_of_optional_list
    (fun _ _ hj hle hc => WhereClause.rewritten (n := n + 1) hj hle hc) hfs hdepth hfilter
  have hgroups := forall_mem_of_optional_list
    (fun _ _ hj _ hi => GroupItem.rewritten hj hi) hfs hdepth hgroupBy
  have horders := forall_mem_of_optional_list
    (fun _ _ hj _ hi => OrderItem.rewritten hj hi) hfs hdepth horderBy
  have hprewhereTests := ConditionFormat.Suppliable.testsOf fun c hc => (hprewhere c hc).1
  have hfilterTests := ConditionFormat.Suppliable.testsOf fun c hc => (hfilter c hc).1
  refine ⟨⟨?_, hprewhereTests.1, hfilterTests.1, ?_, ?_⟩, ?_, ?_⟩
  · exact List.forall_mem_flatMap.2 fun a ha => (hjoins a ha).1
  · exact List.forall_mem_flatMap.2 fun i hi => (hgroups i hi).1
  · exact List.forall_mem_flatMap.2 fun i hi => (horders i hi).1
  · have hjoinCandidates : ∀ d ∈ arrayJoins.flatMap ArrayJoin.candidates, d.hasOwnShape = true :=
      List.forall_mem_flatMap.2 fun a ha => (hjoins a ha).2.1
    exact List.forall_mem_append.2
      ⟨List.forall_mem_append.2 ⟨hjoinCandidates, hprewhereTests.2⟩, hfilterTests.2⟩
  · simp only [toFields, WhereClause.toItems, ConditionFormat.toItems_eq_map,
      List.forall_mem_append]
    exact ⟨⟨⟨⟨depth_category fun a ha => (hjoins a ha).2.2,
      depth_category fun c hc => (hprewhere c hc).2⟩,
      depth_category fun c hc => (hfilter c hc).2⟩,
      depth_category fun i hi => Nat.le_trans (hgroups i hi).2 (Nat.le_add_left 3 _)⟩,
      depth_category fun i hi => Nat.le_trans (horders i hi).2 (Nat.le_add_left 3 _)⟩

namespace Query

/-- Apart from its categories, assignments and limit a query is written in two levels. -/
theorem depth_toJson_le {q : Query} {n : Nat}
    (hcategories : ∀ f ∈ q.categories.toFields, f.2.depth ≤ n + 1)
    (hupdate : ∀ a ∈ q.update, a.toJson.depth ≤ n)
    (hlimit : (orNull Limit.toJson q.limit).depth ≤ n + 1) : q.toJson.depth ≤ n + 2 := by
  have hscalar {α : Type} {toJson : α → Json} (htoJson : ∀ a, (toJson a).depth = 0)
      (x : Option α) : (orNull toJson x).depth ≤ n + 1 := by
    cases x with
    | none => exact Nat.zero_le _
    | some a => exact Nat.le_trans (Nat.le_of_eq (htoJson a)) (Nat.zero_le _)
  have hnames (names : List String) : (namesToJson names).depth ≤ n + 1 :=
    Nat.le_trans (depth_namesToJson names) (Nat.le_add_left 1 n)
  rw [toJson_eq_object, Json.depth, Nat.add_le_add_iff_right, Json.depthFields_le_iff]
  simp only [toFields, List.forall_mem_append, List.forall_mem_cons]
  exact ⟨⟨⟨hscalar (fun _ => rfl) q.table, hscalar (fun _ => rfl) q.schema, hnames q.columns,
    List.forall_mem_nil _⟩, hcategories⟩, depth_array_map hupdate, hlimit,
    hscalar (fun _ => rfl) q.offset, hscalar (fun _ => rfl) q.lock, hnames q.returning,
    List.forall_mem_nil _⟩

/-- A query that was read from a document in reach is written as a document in reach. -/
theorem rewritten {j : Json} {q : Query} {n : Nat} (hj : j.numbersFit = true)
    (hdepth : j.depth ≤ 2 * n + 5) (h : ofJson? j = some q) :
    (∀ l ∈ q.leaves, l.Suppliable) ∧ (∀ c ∈ q.candidates, c.hasOwnShape = true) ∧
      q.toJson.depth ≤ 2 * n + 5 := by
  cases j with
  | object fs =>
    have hfs : Json.fieldsFit fs = true := hj
    rw [Json.depth, Nat.add_le_add_iff_right] at hdepth
    rw [ofJson?] at h
    split at h
    · cases h
    · obtain ⟨table, -, h⟩ := Option.bind_eq_some_iff.1 h
      obtain ⟨schema, -, h⟩ := Option.bind_eq_some_iff.1 h
      obtain ⟨columns, -, h⟩ := Option.bind_eq_some_iff.1 h
      obtain ⟨categories, hcategories, h⟩ := Option.bind_eq_some_iff.1 h
      obtain ⟨update, hupdate, h⟩ := Option.bind_eq_some_iff.1 h
      obtain ⟨limit, hlimit, h⟩ := Option.bind_eq_some_iff.1 h
      obtain ⟨offset, -, h⟩ := Option.bind_eq_some_iff.1 h
      obtain ⟨lock, -, h⟩ := Option.bind_eq_some_iff.1 h
      obtain ⟨returning, -, h⟩ := Option.bind_eq_some_iff.1 h
      cases h
      obtain ⟨⟨hjoins, hprewhere, hfilter, hgroup, horder⟩, hcandidates, hfields⟩ :=
        Categories.rewritten hfs hdepth hcategories
      have hassignments := forall_mem_of_optional_list
        (fun _ _ hj _ ha => Assignment.rewritten hj ha) hfs hdepth hupdate
      have hlimits : (∀ i ∈ limit.elim [] Limit.leaves, i.Suppliable) ∧
          (orNull Limit.toJson limit).depth ≤ 2 := by
        rcases exists_of_optional hfs hlimit with rfl | ⟨i, hi, -, hread⟩
        · exact ⟨List.forall_mem_nil _, Nat.zero_le 2⟩
        · exact Limit.rewritten hi hread
      refine ⟨?_, hcandidates, ?_⟩
      · have htable : ∀ l ∈ table.elim [] fun t => [Leaf.name (qualified schema t)],
            l.Suppliable := by
          cases table with
          | none => exact List.forall_mem_nil _
          | some t => exact List.forall_mem_singleton.2 (Leaf.suppliable_name _)
        simp only [leaves, List.forall_mem_append]
        exact ⟨⟨⟨⟨⟨⟨⟨⟨Leaf.suppliable_names columns, htable⟩, hjoins⟩, hprewhere⟩, hfilter⟩,
          hgroup⟩, horder⟩, List.forall_mem_flatMap.2 fun a ha => (hassignments a ha).1⟩, hlimits.1⟩
      · exact depth_toJson_le hfields
          (fun a ha => Nat.le_trans (hassignments a ha).2 (Nat.le_add_left 3 _))
          (Nat.le_trans hlimits.2 (Nat.le_add_left 2 _))
  | _ => cases h

end Query

end ClauseTree
