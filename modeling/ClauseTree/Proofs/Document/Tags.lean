import ClauseTree.Proofs.Document.RestoringConditions

/-!
# Tags that nobody knows

A clause of a document has a tag, and the tag is looked up among the spellings of its family. If it
is missing or spells nothing, the clause is not read, and then neither is anything around it: a
field that may be left out is not left out for it, a list does not lose it, and no choice without a
tag has another alternative for a list of clauses. So the whole document is refused
(`parse_of_lacksTag`).

`Query.ClauseAt` says where in a document clauses stand. `MemberAt` is its recursive part, the
members of a group at any depth, and the proof follows it: of a list that is read every item is
read, and of a wrapped group that is read so are the members.
-/

namespace ClauseTree

open Document

/-! ## Where clauses stand -/

/-- The spellings of tags. -/
def spellings {α : Type} (tags : List (α × List String)) : List String := tags.flatMap Prod.snd

/-- The object has no tag, or a text for a tag that is none of the spellings. -/
inductive LacksTag (names : List String) : Json → Prop
  | missing {fs : Fields} (h : ∀ t, ("type", t) ∉ fs) : LacksTag names (.object fs)
  | unknown {fs : Fields} {s : String} (h : ("type", .string s) ∈ fs) (hs : s ∉ names) :
    LacksTag names (.object fs)

/-- `c` is an item of a list of conditions, or a member of a wrapped group in it, at any depth. -/
inductive ConditionFormat.MemberAt {τ α : Type} (F : ConditionFormat τ α) (c : Json) :
    List Json → Prop
  | item {js : List Json} (h : c ∈ js) : MemberAt F c js
  | member {js ms : List Json} {fs : Fields} {t : Json} (hfs : .object fs ∈ js)
    (ht : ("type", t) ∈ fs) (hwrapped : tag? .lenient F.tags t = some F.wrapped)
    (hms : ("value", .array ms) ∈ fs) (h : MemberAt F c ms) : MemberAt F c js

/-- The conditions of an array join, which may be an array of the values of its fields. -/
inductive ArrayJoin.ConditionsAt : Json → List Json → Prop
  | field {fs : Fields} {cs : List Json} (h : ("clauses", .array cs) ∈ fs) :
    ConditionsAt (.object fs) cs
  | place (table schema kind : Json) (cs : List Json) :
    ConditionsAt (.array [table, schema, kind, .array cs]) cs

/-- `c` stands where a document has a clause with one of the spellings `names` for its tag. -/
inductive Query.ClauseAt : Json → List String → Json → Prop
  | join {fs : Fields} {js cs : List Json} {j c : Json} (hjs : ("arrayJoin", .array js) ∈ fs)
    (hj : j ∈ js) (hcs : ArrayJoin.ConditionsAt j cs) (hc : JoinCondition.format.MemberAt c cs) :
    ClauseAt (.object fs) (spellings JoinTag.all) c
  | prewhere {fs : Fields} {js : List Json} {c : Json} (hjs : ("prewhere", .array js) ∈ fs)
    (hc : WhereClause.format.MemberAt c js) : ClauseAt (.object fs) (spellings WhereTag.all) c
  | filter {fs : Fields} {js : List Json} {c : Json} (hjs : ("where", .array js) ∈ fs)
    (hc : WhereClause.format.MemberAt c js) : ClauseAt (.object fs) (spellings WhereTag.all) c
  | group {fs : Fields} {js : List Json} {c : Json} (hjs : ("group", .array js) ∈ fs)
    (hc : c ∈ js) : ClauseAt (.object fs) (spellings ItemTag.all) c
  | order {fs : Fields} {js : List Json} {c : Json} (hjs : ("order", .array js) ∈ fs)
    (hc : c ∈ js) : ClauseAt (.object fs) (spellings ItemTag.all) c

/-! ## Fields and lists that are read -/

section Fields

variable {α : Type} {read : Json → Option α} {names : List String} {name : String} {fs : Fields}
  {j : Json}

/-- A field that is declared is found, since it does not stand there twice. -/
theorem lookup_of_distinct (h : distinct names fs = true) (hname : name ∈ names)
    (hj : (name, j) ∈ fs) : fs.lookup name = some j := by
  have hcount : fs.countP (fun f => f.1 == name) ≤ 1 := by
    simpa using List.all_eq_true.1 h name hname
  clear h
  induction fs with
  | nil => cases hj
  | cons f fs ih =>
    rcases List.mem_cons.1 hj with rfl | hj
    · exact List.lookup_cons_self
    · -- Another field of the name would be the second one.
      have hpos : 0 < fs.countP fun f => f.1 == name :=
        List.countP_pos_iff.2 ⟨(name, j), hj, beq_self_eq_true name⟩
      rw [List.countP_cons] at hcount
      by_cases hf : (f.1 == name) = true
      · rw [if_pos hf] at hcount
        omega
      · have hne : (name == f.1) = false := by
          rw [beq_eq_false_iff_ne]
          rintro rfl
          exact hf (beq_self_eq_true f.1)
        rw [if_neg hf] at hcount
        rw [List.lookup_cons, hne]
        exact ih hj hcount

theorem exists_of_mapM {js : List Json} {as : List α} (h : js.mapM read = some as) (hj : j ∈ js) :
    ∃ a, read j = some a := by
  induction js generalizing as with
  | nil => cases hj
  | cons i js ih =>
    rw [List.mapM_cons] at h
    obtain ⟨a, ha, h⟩ := Option.bind_eq_some_iff.1 h
    obtain ⟨bs, hbs, -⟩ := Option.bind_eq_some_iff.1 h
    rcases List.mem_cons.1 hj with rfl | hj
    · exact ⟨a, ha⟩
    · exact ih hbs hj

/-- Of a list that may be left out, but is there, every item is read. -/
theorem mapM_of_optional (hfs : distinct names fs = true) (hname : name ∈ names) {js : List Json}
    (hjs : (name, .array js) ∈ fs) {as : List α}
    (h : optional fs name [] (list? read) = some as) : js.mapM read = some as := by
  rw [Document.optional, lookup_of_distinct hfs hname hjs] at h
  exact h

end Fields

/-! ## Clauses that are read -/

section Tags

variable {α : Type} {tags : List (α × List String)}

theorem mem_spellings_of_tag? {r : Reading} {s : String} {a : α}
    (h : tag? r tags (.string s) = some a) : s ∈ spellings tags := by
  obtain ⟨t, ht, -⟩ := Option.map_eq_some_iff.1 h
  have hs := List.find?_some ht
  exact List.mem_flatMap.2 ⟨t, List.mem_of_find?_eq_some ht, by simpa using hs⟩

/-- An object whose tag has been read has one. -/
theorem not_lacksTag {r : Reading} {names : List String} {fs : Fields} {a : α}
    (hfs : distinct names fs = true) (hnames : "type" ∈ names)
    (h : (fs.lookup "type").bind (tag? r tags) = some a) :
    ¬ LacksTag (spellings tags) (.object fs) := by
  obtain ⟨t, ht, ha⟩ := Option.bind_eq_some_iff.1 h
  intro hlacks
  cases hlacks with
  | missing hmissing =>
    obtain ⟨l, r, hfs, -⟩ := List.lookup_eq_some_iff.1 ht
    exact hmissing t (by simp [hfs])
  | unknown hs hunknown =>
    rw [lookup_of_distinct hfs hnames hs] at ht
    cases ht
    exact hunknown (mem_spellings_of_tag? ha)

end Tags

namespace ConditionFormat

variable {τ α : Type} [DecidableEq τ] {F : ConditionFormat τ α}

theorem valueMembers?_eq_bind (fs : Fields) :
    F.valueMembers? fs = (fs.lookup "value").bind F.members? := by
  induction fs with
  | nil => rfl
  | cons f fs ih =>
    obtain ⟨name, j⟩ := f
    rw [valueMembers?]
    split
    · next hname => rw [hname, List.lookup_cons_self, Option.bind_some]
    · next hname =>
      have hne : ("value" == name) = false := beq_eq_false_iff_ne.2 (Ne.symm hname)
      rw [List.lookup_cons, hne, ih]

/-- What is known of an object that is read as a condition. -/
theorem tag_of_ofJson? {r : Reading} {fs : Fields} {c : Condition α}
    (h : F.ofJson? r (.object fs) = some c) :
    ∃ tag, (fs.lookup "type").bind (tag? .lenient F.tags) = some tag ∧
      distinct (conditionFieldNames ++ F.fieldNames tag) fs = true ∧
      (tag = F.wrapped → ∃ ms, F.valueMembers? fs = some ms) := by
  rw [ofJson?] at h
  obtain ⟨tag, htag, h⟩ := Option.bind_eq_some_iff.1 h
  obtain ⟨negated, -, h⟩ := Option.bind_eq_some_iff.1 h
  obtain ⟨connector, -, h⟩ := Option.bind_eq_some_iff.1 h
  split at h
  · cases h
  · next hdistinct =>
    refine ⟨tag, htag, by simpa using hdistinct, fun hwrapped => ?_⟩
    rw [if_pos hwrapped] at h
    obtain ⟨ms, hms, -⟩ := Option.bind_eq_some_iff.1 h
    exact ⟨ms, hms⟩

theorem not_lacksTag_of_ofJson? {r : Reading} {j : Json} {c : Condition α}
    (h : F.ofJson? r j = some c) : ¬ LacksTag (spellings F.tags) j := by
  cases j with
  | object fs =>
    obtain ⟨tag, htag, hdistinct, -⟩ := tag_of_ofJson? h
    exact not_lacksTag hdistinct (by simp [conditionFieldNames]) htag
  | _ => exact fun hlacks => nomatch hlacks

/-- Of a list that is read, every condition is read, the members of its groups included. -/
theorem exists_of_memberAt (hvalue : "value" ∈ F.fieldNames F.wrapped) {js : List Json} {j : Json}
    (hj : F.MemberAt j js) {cs : List (Condition α)} (hcs : F.ofItems? js = some cs) :
    ∃ c, F.ofJson? .lenient j = some c := by
  induction hj generalizing cs with
  | item hj =>
    rw [ofItems?_eq_mapM] at hcs
    exact exists_of_mapM hcs hj
  | member hfs ht hwrapped hms _ ih =>
    rw [ofItems?_eq_mapM] at hcs
    obtain ⟨c, hc⟩ := exists_of_mapM hcs hfs
    obtain ⟨tag, htag, hdistinct, hmembers⟩ := tag_of_ofJson? hc
    rw [lookup_of_distinct hdistinct (by simp [conditionFieldNames]) ht, Option.bind_some,
      hwrapped] at htag
    obtain rfl := Option.some.inj htag
    obtain ⟨ds, hds⟩ := hmembers rfl
    rw [valueMembers?_eq_bind,
      lookup_of_distinct hdistinct (List.mem_append_right _ hvalue) hms] at hds
    exact ih hds

end ConditionFormat

theorem WhereClause.not_lacksTag_of_memberAt {js : List Json} {j : Json}
    (hj : format.MemberAt j js) {cs : List WhereClause}
    (hcs : js.mapM (WhereClause.ofJson? .lenient) = some cs) :
    ¬ LacksTag (spellings WhereTag.all) j := by
  have hitems : format.ofItems? js = some cs := (ConditionFormat.ofItems?_eq_mapM js).trans hcs
  obtain ⟨c, hc⟩ := ConditionFormat.exists_of_memberAt (by decide) hj hitems
  exact ConditionFormat.not_lacksTag_of_ofJson? hc

theorem JoinCondition.not_lacksTag_of_memberAt {js : List Json} {j : Json}
    (hj : format.MemberAt j js) {cs : List JoinCondition}
    (hcs : js.mapM (JoinCondition.ofJson? .lenient) = some cs) :
    ¬ LacksTag (spellings JoinTag.all) j := by
  have hitems : format.ofItems? js = some cs := (ConditionFormat.ofItems?_eq_mapM js).trans hcs
  obtain ⟨c, hc⟩ := ConditionFormat.exists_of_memberAt (by decide) hj hitems
  exact ConditionFormat.not_lacksTag_of_ofJson? hc

/-- The conditions of a join that is read are read. -/
theorem ArrayJoin.mapM_of_ofJson? {r : Reading} {j : Json} {a : ArrayJoin}
    (h : ofJson? r j = some a) {cs : List Json} (hcs : ConditionsAt j cs) :
    cs.mapM (JoinCondition.ofJson? r) = some a.conditions := by
  obtain ⟨fs, hfs, h⟩ := Option.bind_eq_some_iff.1 h
  obtain ⟨source, -, h⟩ := Option.bind_eq_some_iff.1 h
  obtain ⟨schema, -, h⟩ := Option.bind_eq_some_iff.1 h
  obtain ⟨kind, -, h⟩ := Option.bind_eq_some_iff.1 h
  obtain ⟨conditions, hconditions, h⟩ := Option.bind_eq_some_iff.1 h
  cases h
  cases hcs with
  | field hcs =>
    obtain ⟨hdistinct, hfs⟩ := Option.ite_none_right_eq_some.1 hfs
    cases hfs
    exact mapM_of_optional hdistinct (by decide) hcs hconditions
  | place table schema kind cs =>
    cases hfs
    exact hconditions

/-- An entry that is an object has a tag if one is found. -/
theorem not_lacksTag_of_tagged? {r : Reading} {α : Type} {tags : List (α × List String)}
    {j t content : Json} {a : α} (hj : tagged? j = some (t, content))
    (ha : tag? r tags t = some a) : ¬ LacksTag (spellings tags) j := by
  cases j with
  | object fs =>
    obtain ⟨hdistinct, hlookup⟩ := Option.ite_none_right_eq_some.1 hj
    obtain ⟨t', ht', heq⟩ := Option.map_eq_some_iff.1 hlookup
    cases heq
    exact not_lacksTag hdistinct List.mem_cons_self (Option.bind_eq_some_iff.2 ⟨t, ht', ha⟩)
  | _ => exact fun hlacks => nomatch hlacks

theorem not_lacksTag_of_item? {r : Reading} {α : Type} {column : Json → Option α} {raw : Raw → α}
    {j : Json} {i : α} (h : item? r column raw j = some i) :
    ¬ LacksTag (spellings ItemTag.all) j := by
  obtain ⟨t, content, hj, ⟨htag, -⟩ | ⟨htag, -⟩⟩ := item?_cases h
  · exact not_lacksTag_of_tagged? hj htag
  · exact not_lacksTag_of_tagged? hj htag

/-! ## Documents that are read -/

namespace Query

/-- The categories are read from the fields of the document, none of which stands there twice. -/
theorem categories_of_ofJson? {fs : Fields} {q : Query} (h : ofJson? (.object fs) = some q) :
    distinct (ownFieldNames ++ Categories.fieldNames) fs = true ∧
      Categories.ofFields? .lenient fs = some q.categories := by
  rw [ofJson?] at h
  split at h
  · cases h
  · next hdistinct =>
    obtain ⟨table, -, h⟩ := Option.bind_eq_some_iff.1 h
    obtain ⟨schema, -, h⟩ := Option.bind_eq_some_iff.1 h
    obtain ⟨columns, -, h⟩ := Option.bind_eq_some_iff.1 h
    obtain ⟨categories, hcategories, h⟩ := Option.bind_eq_some_iff.1 h
    obtain ⟨update, -, h⟩ := Option.bind_eq_some_iff.1 h
    obtain ⟨limit, -, h⟩ := Option.bind_eq_some_iff.1 h
    obtain ⟨offset, -, h⟩ := Option.bind_eq_some_iff.1 h
    obtain ⟨lock, -, h⟩ := Option.bind_eq_some_iff.1 h
    obtain ⟨returning, -, h⟩ := Option.bind_eq_some_iff.1 h
    cases h
    exact ⟨by simpa using hdistinct, hcategories⟩

/-- In a document that is read, every clause has a tag of its family. -/
theorem not_lacksTag_of_ofJson? {j : Json} {q : Query} (hq : ofJson? j = some q)
    {names : List String} {c : Json} (hc : ClauseAt j names c) : ¬ LacksTag names c := by
  cases j with
  | object fs =>
    obtain ⟨hdistinct, hcategories⟩ := categories_of_ofJson? hq
    obtain ⟨arrayJoins, harrayJoins, h⟩ := Option.bind_eq_some_iff.1 hcategories
    obtain ⟨prewhere, hprewhere, h⟩ := Option.bind_eq_some_iff.1 h
    obtain ⟨filter, hfilter, h⟩ := Option.bind_eq_some_iff.1 h
    obtain ⟨groupBy, hgroupBy, h⟩ := Option.bind_eq_some_iff.1 h
    obtain ⟨orderBy, horderBy, h⟩ := Option.bind_eq_some_iff.1 h
    cases hc with
    | join hjs hj hcs hc =>
      obtain ⟨a, ha⟩ :=
        exists_of_mapM (mapM_of_optional hdistinct (by decide) hjs harrayJoins) hj
      exact JoinCondition.not_lacksTag_of_memberAt hc (ArrayJoin.mapM_of_ofJson? ha hcs)
    | prewhere hjs hc =>
      exact WhereClause.not_lacksTag_of_memberAt hc
        (mapM_of_optional hdistinct (by decide) hjs hprewhere)
    | filter hjs hc =>
      exact WhereClause.not_lacksTag_of_memberAt hc
        (mapM_of_optional hdistinct (by decide) hjs hfilter)
    | group hjs hc =>
      obtain ⟨i, hi⟩ := exists_of_mapM (mapM_of_optional hdistinct (by decide) hjs hgroupBy) hc
      exact not_lacksTag_of_item? hi
    | order hjs hc =>
      obtain ⟨i, hi⟩ := exists_of_mapM (mapM_of_optional hdistinct (by decide) hjs horderBy) hc
      exact not_lacksTag_of_item? hi
  | _ => cases hq

/-- What is skipped of a document is no part of a clause. -/
theorem ClauseAt.keep {j : Json} {names : List String} {c : Json} (hc : ClauseAt j names c) :
    ClauseAt (FromDocument.keep Query j) names c := by
  have hfield {name : String} (hname : name ≠ "update") {i : Json} {fs : Fields}
      (hi : (name, i) ∈ fs) :
      (name, i) ∈ (mapItems "update" 0 (FromDocument.keep Assignment) (.object fs)).fields :=
    List.mem_map.2 ⟨(name, i), hi, if_neg hname⟩
  cases hc with
  | join hjs hj hcs hc => exact .join (hfield (by decide) hjs) hj hcs hc
  | prewhere hjs hc => exact .prewhere (hfield (by decide) hjs) hc
  | filter hjs hc => exact .filter (hfield (by decide) hjs) hc
  | group hjs hc => exact .group (hfield (by decide) hjs) hc
  | order hjs hc => exact .order (hfield (by decide) hjs) hc

/-- A document in which a clause anywhere has no tag, or one that its family does not know, is
refused, whatever else is in it. -/
theorem parse_of_lacksTag {text : String} {j : Json} (hj : Json.parse text = some j)
    {names : List String} {c : Json} (hc : ClauseAt j names c) (h : LacksTag names c) :
    Query.parse text = .error .malformed := by
  cases hq : Query.parse text with
  | ok q =>
    obtain ⟨j', hj', -, hq'⟩ := parse_eq_ok_iff.1 hq
    cases hj.symm.trans hj'
    exact absurd h (not_lacksTag_of_ofJson? hq' hc.keep)
  | error e =>
    rw [Query.parse] at hq
    split at hq
    · cases hq
    · cases hq
      rfl

/-- The wrapped group of a join, with one member. -/
def groupOf (member : Json) : Json :=
  .object [("type", .string "onWrapped"), ("value", .array [member])]

/-- A raw join whose second condition holds a group with `condition` in it. The join is an array of
the values of its fields. -/
def nestedDocument (condition : Json) : Json :=
  .object [("table", .string "t"),
    ("arrayJoin", .array [.array [.object [("sql", .string "array join a")], .null, .string "raw",
      .array [.object [("type", .string "using"), ("column", .string "id")],
        groupOf (groupOf condition)]]])]

/-- A condition that spells its tag in another letter case. -/
def misspelled : Json := .object [("type", .string "Using"), ("column", .string "id")]

theorem parse_of_lacksTag_misspelled :
    ∃ text, Json.parse text = some (nestedDocument misspelled) ∧
      ClauseAt (nestedDocument misspelled) (spellings JoinTag.all) misspelled ∧
      LacksTag (spellings JoinTag.all) misspelled ∧
      Query.parse text = .error .malformed := by
  have hj : Json.parse (nestedDocument misspelled).compact = some (nestedDocument misspelled) :=
    Json.parse_compact (by decide)
  have hgroup {js : List Json} {member c : Json} (hjs : groupOf member ∈ js)
      (hc : JoinCondition.format.MemberAt c [member]) : JoinCondition.format.MemberAt c js :=
    .member hjs List.mem_cons_self rfl (List.mem_cons_of_mem _ List.mem_cons_self) hc
  have hc : ClauseAt (nestedDocument misspelled) (spellings JoinTag.all) misspelled := by
    refine .join (List.mem_cons_of_mem _ List.mem_cons_self) List.mem_cons_self (.place _ _ _ _) ?_
    refine hgroup (List.mem_cons_of_mem _ List.mem_cons_self) ?_
    exact hgroup List.mem_cons_self (.item List.mem_cons_self)
  have h : LacksTag (spellings JoinTag.all) misspelled := .unknown List.mem_cons_self (by decide)
  exact ⟨_, hj, hc, h, parse_of_lacksTag hj hc h⟩

end Query

end ClauseTree
