import ClauseTree.Proofs.Document.RawReading

/-!
# Reading raw text in conditions and records

A condition is read along the tree of the document, so what its tests and its members contain is
put together in the order of the document. The records are read field by field.
-/

namespace ClauseTree

open Document

variable {j : Json}

/-! ## Conditions -/

namespace ConditionFormat

variable {τ α : Type} [DecidableEq τ] {F : ConditionFormat τ α} {takesRaw : τ → Bool}
  {own : α → List Leaf}

/-- A test is read with the raw text at its value, if its tag takes any. -/
def TestsRawAt (F : ConditionFormat τ α) (takesRaw : τ → Bool) (own : α → List Leaf) : Prop :=
  ∀ fs tag t, Json.fieldsHaveKey "sql" fs = false → F.test? fs tag = some t →
    Leaf.raws (own t) =
      (if takesRaw tag then fieldAt fs "value" else []).filterMap Raw.ofArray?

mutual

theorem raws_ofJson? (htest : F.TestsRawAt takesRaw own) (r : Reading) :
    ∀ (j : Json) (c : Condition α), j.hasKey "sql" = false → F.ofJson? r j = some c →
      Leaf.raws (c.tests.flatMap own) = (F.rawPlaces takesRaw j).filterMap Raw.ofArray?
  | .object fs, c, h, hc => by
    have hfields : Json.fieldsHaveKey "sql" fs = false := h
    rw [ofJson?] at hc
    obtain ⟨tag, htag, hc⟩ := Option.bind_eq_some_iff.1 hc
    obtain ⟨negated, -, hc⟩ := Option.bind_eq_some_iff.1 hc
    obtain ⟨connector, -, hc⟩ := Option.bind_eq_some_iff.1 hc
    rw [rawPlaces, htag]
    split at hc
    · cases hc
    · split at hc
      · next hwrapped =>
        obtain ⟨cs, hcs, hc⟩ := Option.bind_eq_some_iff.1 hc
        cases hc
        rw [Condition.tests]
        simp only [if_pos hwrapped]
        exact raws_valueMembers? htest fs cs hfields hcs
      · next hwrapped =>
        obtain ⟨t, ht, hc⟩ := Option.bind_eq_some_iff.1 hc
        cases hc
        rw [Condition.tests, List.flatMap_singleton]
        simp only [if_neg hwrapped]
        exact htest fs tag t hfields ht
  | .null, c, _, hc => by cases hc
  | .bool _, c, _, hc => by cases hc
  | .int _, c, _, hc => by cases hc
  | .real _, c, _, hc => by cases hc
  | .string _, c, _, hc => by cases hc
  | .array _, c, _, hc => by cases hc
  | .unreadable, c, _, hc => by cases hc

theorem raws_valueMembers? (htest : F.TestsRawAt takesRaw own) :
    ∀ (fs : Fields) (cs : List (Condition α)), Json.fieldsHaveKey "sql" fs = false →
      F.valueMembers? fs = some cs →
      Leaf.raws ((Condition.testsOf cs).flatMap own) =
        (F.valuePlaces takesRaw fs).filterMap Raw.ofArray?
  | [], cs, _, hcs => by cases hcs
  | (name, j) :: fs, cs, h, hcs => by
    rw [Json.fieldsHaveKey, Bool.or_eq_false_iff, Bool.or_eq_false_iff] at h
    rw [valueMembers?] at hcs
    change _ = (if name = "value" then F.memberPlaces takesRaw j
      else F.valuePlaces takesRaw fs).filterMap Raw.ofArray?
    by_cases hname : name = "value"
    · rw [if_pos hname] at hcs ⊢
      exact raws_members? htest j cs h.1.2 hcs
    · rw [if_neg hname] at hcs ⊢
      exact raws_valueMembers? htest fs cs h.2 hcs

theorem raws_members? (htest : F.TestsRawAt takesRaw own) :
    ∀ (j : Json) (cs : List (Condition α)), j.hasKey "sql" = false → F.members? j = some cs →
      Leaf.raws ((Condition.testsOf cs).flatMap own) =
        (F.memberPlaces takesRaw j).filterMap Raw.ofArray?
  | .array js, cs, h, hcs => raws_ofItems? htest js cs h hcs
  | .null, cs, _, hcs => by cases hcs
  | .bool _, cs, _, hcs => by cases hcs
  | .int _, cs, _, hcs => by cases hcs
  | .real _, cs, _, hcs => by cases hcs
  | .string _, cs, _, hcs => by cases hcs
  | .object _, cs, _, hcs => by cases hcs
  | .unreadable, cs, _, hcs => by cases hcs

theorem raws_ofItems? (htest : F.TestsRawAt takesRaw own) :
    ∀ (js : List Json) (cs : List (Condition α)), Json.itemsHaveKey "sql" js = false →
      F.ofItems? js = some cs →
      Leaf.raws ((Condition.testsOf cs).flatMap own) =
        (F.itemPlaces takesRaw js).filterMap Raw.ofArray?
  | [], cs, _, hcs => by
    cases hcs
    rfl
  | j :: js, cs, h, hcs => by
    rw [Json.itemsHaveKey, Bool.or_eq_false_iff] at h
    rw [ofItems?] at hcs
    obtain ⟨c, hc, hcs⟩ := Option.bind_eq_some_iff.1 hcs
    obtain ⟨ds, hds, hcs⟩ := Option.bind_eq_some_iff.1 hcs
    cases hcs
    rw [Condition.testsOf, List.flatMap_append, Leaf.raws_append, itemPlaces,
      List.filterMap_append, raws_ofJson? htest .lenient j c h.1 hc,
      raws_ofItems? htest js ds h.2 hds]

end

end ConditionFormat

theorem WhereClause.rawsAt_ofJson? (r : Reading) :
    RawsAt (WhereClause.ofJson? r) (fun c => c.tests.flatMap Test.leaves)
      WhereClause.rawPlaces := by
  have htest : ConditionFormat.TestsRawAt format WhereTag.takesRaw Test.leaves :=
    fun _ _ _ h ht => Test.raws_ofWhereTag? h ht
  exact ConditionFormat.raws_ofJson? htest r

theorem JoinCondition.rawsAt_ofJson? (r : Reading) :
    RawsAt (JoinCondition.ofJson? r) (fun c => c.tests.flatMap JoinTest.leaves)
      JoinCondition.rawPlaces := by
  have htest : ConditionFormat.TestsRawAt format JoinTag.takesRaw JoinTest.leaves :=
    fun _ _ _ h ht => JoinTest.raws_ofTag? h ht
  exact ConditionFormat.raws_ofJson? htest r

theorem WhereClause.leaves_eq_flatMap (cs : List WhereClause) :
    WhereClause.leaves cs = cs.flatMap fun c => c.tests.flatMap Test.leaves := by
  rw [WhereClause.leaves, Condition.testsOf_eq_flatMap, List.flatMap_assoc]

theorem JoinConditions.leaves_eq_flatMap (cs : JoinConditions) :
    JoinConditions.leaves cs = cs.flatMap fun c => c.tests.flatMap JoinTest.leaves := by
  rw [JoinConditions.leaves, Condition.testsOf_eq_flatMap, List.flatMap_assoc]

/-! ## Records -/

theorem Json.fieldsHaveKey_of_record? {key : String} {names : List String}
    (hnames : key ∉ names) (h : j.hasKey key = false) {fs : Fields}
    (hfs : record? names j = some fs) : fieldsHaveKey key fs = false := by
  cases j with
  | object gs =>
    rw [record?] at hfs
    split at hfs
    · cases hfs
      exact h
    · cases hfs
  | array js =>
    rw [record?] at hfs
    split at hfs
    · cases hfs
      refine fieldsHaveKey_eq_false.2 fun f hf => ?_
      obtain ⟨hname, hitem⟩ := List.of_mem_zip hf
      refine ⟨fun heq => hnames (heq ▸ hname), ?_⟩
      exact itemsHaveKey_eq_false.1 h f.2 hitem
    · cases hfs
  | _ => cases hfs

theorem Json.hasKey_of_tagged? {key : String} (h : j.hasKey key = false) {t content : Json}
    (ht : tagged? j = some (t, content)) : content.hasKey key = false := by
  cases j with
  | object fs =>
    rw [tagged?] at ht
    split at ht
    · obtain ⟨t', -, ht⟩ := Option.map_eq_some_iff.1 ht
      cases ht
      exact h
    · cases ht
  | array js =>
    cases js with
    | nil => cases ht
    | cons i js =>
      cases ht
      rw [hasKey, itemsHaveKey, Bool.or_eq_false_iff] at h
      exact h.2
  | _ => cases ht

theorem ArrayJoin.rawsAt_ofJson? (r : Reading) :
    RawsAt (ArrayJoin.ofJson? r) ArrayJoin.allLeaves ArrayJoin.rawPlaces := by
  intro j a h ha
  obtain ⟨fs, hfs, ha⟩ := Option.bind_eq_some_iff.1 ha
  obtain ⟨source, hsource, ha⟩ := Option.bind_eq_some_iff.1 ha
  obtain ⟨schema, -, ha⟩ := Option.bind_eq_some_iff.1 ha
  obtain ⟨kind, -, ha⟩ := Option.bind_eq_some_iff.1 ha
  obtain ⟨conditions, hconditions, ha⟩ := Option.bind_eq_some_iff.1 ha
  cases ha
  have hkey := Json.fieldsHaveKey_of_record? (by decide) h hfs
  have hleft := (JoinSource.rawsAt_ofJson? schema).at_required_self hkey hsource
  have hright := (JoinCondition.rawsAt_ofJson? r).at_optional_list hkey hconditions
  rw [ArrayJoin.allLeaves, Leaf.raws_append, JoinConditions.leaves_eq_flatMap,
    ArrayJoin.rawPlaces]
  simp only [hfs, List.filterMap_append]
  rw [hleft, hright]

/-- Of the entries only raw text has any. -/
theorem rawsAt_item? {α : Type} {column : Json → Option α} {raw : Raw → α} {own : α → List Leaf}
    (hcolumn : ∀ j i, column j = some i → Leaf.raws (own i) = [])
    (hraw : ∀ r, own (raw r) = [.raw r]) :
    RawsAt (item? .lenient column raw) own itemRawPlaces := by
  intro j i h hi
  obtain ⟨t, content, ht, hi⟩ := item?_cases hi
  rw [itemRawPlaces]
  simp only [ht]
  rcases hi with ⟨htag, hi⟩ | ⟨htag, fs, r, hfs, hr, rfl⟩
  · rw [hcolumn content i hi, htag]
    rfl
  · have hkey : Json.fieldsHaveKey "sql" fs = false :=
      Json.fieldsHaveKey_of_record? (by decide) (Json.hasKey_of_tagged? h ht) hfs
    rw [hraw, htag, hfs]
    exact Raw.rawsAt_ofJson?.at_required_self hkey hr

theorem OrderItem.rawsAt_ofJson? :
    RawsAt (OrderItem.ofJson? .lenient) OrderItem.leaves itemRawPlaces := by
  refine rawsAt_item? (fun j i hi => ?_) fun _ => rfl
  obtain ⟨fs, -, hi⟩ := Option.bind_eq_some_iff.1 hi
  obtain ⟨column, -, hi⟩ := Option.bind_eq_some_iff.1 hi
  obtain ⟨direction, -, hi⟩ := Option.bind_eq_some_iff.1 hi
  cases hi
  rfl

theorem GroupItem.rawsAt_ofJson? :
    RawsAt (GroupItem.ofJson? .lenient) GroupItem.leaves itemRawPlaces := by
  refine rawsAt_item? (fun j i hi => ?_) fun _ => rfl
  obtain ⟨fs, -, hi⟩ := Option.bind_eq_some_iff.1 hi
  obtain ⟨column, -, hi⟩ := Option.bind_eq_some_iff.1 hi
  cases hi
  rfl

theorem Assignment.rawsAt_ofJson? :
    RawsAt Assignment.ofJson? Assignment.leaves Assignment.rawPlaces := by
  intro j a h ha
  obtain ⟨fs, hfs, ha⟩ := Option.bind_eq_some_iff.1 ha
  obtain ⟨column, -, ha⟩ := Option.bind_eq_some_iff.1 ha
  obtain ⟨value, hvalue, ha⟩ := Option.bind_eq_some_iff.1 ha
  cases ha
  have hkey := Json.fieldsHaveKey_of_record? (by decide) h hfs
  rw [Assignment.rawPlaces]
  simp only [hfs]
  exact Operand.rawsAt_ofJson?.at_optional_self rfl hkey hvalue

end ClauseTree
