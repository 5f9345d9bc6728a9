import ClauseTree.Proofs.Document.Restoring

/-!
# Restoring conditions

A test is read from the fields it is written as, wherever they stand in the object of its
condition. `ConditionFormat.Restoring` collects what the reading of conditions takes from the tests,
and from it follows that a tree of conditions is restored.
-/

namespace ClauseTree

open Document

/-! ## Fields -/

section Fields

variable {fs : Fields} {name : String} {j : Json} {α : Type} {read : Json → Option α} {x : α}

theorem lookup_of_mem (hnodup : (fs.map Prod.fst).Nodup) (h : (name, j) ∈ fs) :
    fs.lookup name = some j := by
  induction fs with
  | nil => cases h
  | cons f fs ih =>
    rw [List.map_cons, List.nodup_cons] at hnodup
    rcases List.mem_cons.1 h with rfl | h
    · exact List.lookup_cons_self
    · have hne : (name == f.1) = false := by
        rw [beq_eq_false_iff_ne]
        rintro rfl
        exact hnodup.1 (List.mem_map.2 ⟨_, h, rfl⟩)
      rw [List.lookup_cons, hne]
      exact ih hnodup.2 h

theorem distinct_of_nodup (names : List String) (hnodup : (fs.map Prod.fst).Nodup) :
    distinct names fs = true := by
  rw [distinct, List.all_eq_true]
  intro n _
  have hcount : fs.countP (fun f => f.1 == n) = (fs.map Prod.fst).count n := by
    rw [List.count, List.countP_map]
    rfl
  rw [hcount, decide_eq_true_eq]
  exact List.nodup_iff_count.1 hnodup n

theorem Restores.required (h : Restores read j x) (hj : fs.lookup name = some j) :
    required fs name read = some x := by
  rw [Document.required, hj]
  exact h.read_eq

theorem Restores.optional (h : Restores read j x) (hj : fs.lookup name = some j) (default : α) :
    optional fs name default read = some x := by
  rw [Document.optional, hj]
  exact h.read_eq

end Fields

/-! ## Tests -/

namespace Test

variable {fs : Fields}

def candidates : Test → List Candidates
  | .isIn _ candidates => [candidates]
  | _ => []

/-- The fields of the test are among the given ones. -/
def StandsIn (t : Test) (fs : Fields) : Prop := ∀ f ∈ t.toFields, fs.lookup f.1 = some f.2

theorem basic?_of_standsIn {column operator : String} {value : Operand} {operand? : Option Operand}
    (h : (Test.basic column operator value).StandsIn fs) (hoperand : operand? = some value) :
    basic? operand? fs = some (.basic column operator value) := by
  have hcolumn := (Restores.string column).required (h _ List.mem_cons_self)
  have hoperator :=
    (Restores.string operator).required (h _ (List.mem_cons_of_mem _ List.mem_cons_self))
  rw [basic?, hcolumn, hoperator, hoperand]
  rfl

theorem isNull?_of_standsIn {column : String} (h : (Test.isNull column).StandsIn fs) :
    isNull? fs = some (.isNull column) := by
  have hcolumn := (Restores.string column).required (h _ List.mem_cons_self)
  rw [isNull?, hcolumn]
  rfl

/-- A test without candidates has no leaves, and then neither have its candidates. -/
theorem candidates_restorable {columns : Columns} {candidates : Candidates}
    (h : ∀ l ∈ (Test.isIn columns candidates).leaves, l.Restorable) :
    ∀ l ∈ candidates.leaves, l.Restorable := by
  rw [leaves] at h
  split at h
  · next hempty =>
    have hnil : candidates.leaves = [] := by
      cases candidates with
      | raw r => cases hempty
      | rows rs => rw [Candidates.leaves, List.isEmpty_iff.1 hempty, List.flatten_nil, List.map_nil]
      | list vs => rw [Candidates.leaves, List.isEmpty_iff.1 hempty, List.map_nil]
    rw [hnil]
    exact List.forall_mem_nil _
  · exact fun l hl => h l (List.mem_append_right _ hl)

theorem isIn?_of_standsIn {columns : Columns} {candidates : Candidates}
    (h : (Test.isIn columns candidates).StandsIn fs)
    (hvalue : Restores Candidates.ofJson? candidates.toJson candidates) :
    isIn? fs = some (.isIn columns candidates) := by
  have hcolumns := columns.restores.required (h _ List.mem_cons_self)
  have hcandidates := hvalue.required (h _ (List.mem_cons_of_mem _ List.mem_cons_self))
  rw [isIn?, hcolumns, hcandidates]
  rfl

theorem bounds_restore {low high : Value} (hlow : low.Restorable) (hhigh : high.Restorable) :
    Restores bounds? (valuesToJson [low, high]) (low, high) := by
  constructor
  · refine (valuesRestore ?_).printable
    rintro v hv
    rcases List.mem_cons.1 hv with rfl | hv
    · exact hlow
    · exact List.mem_singleton.1 hv ▸ hhigh
  · change (Value.ofJson? low.toJson).bind
      (fun l => (Value.ofJson? high.toJson).bind fun h => some (l, h)) = _
    rw [(Value.restores hlow).read_eq, (Value.restores hhigh).read_eq]
    rfl

theorem between?_of_standsIn {column : String} {low high : Value}
    (h : (Test.between column low high).StandsIn fs)
    (hvalue : Restores bounds? (valuesToJson [low, high]) (low, high)) :
    between? fs = some (.between column low high) := by
  have hcolumn := (Restores.string column).required (h _ List.mem_cons_self)
  have hbounds := hvalue.required (h _ (List.mem_cons_of_mem _ List.mem_cons_self))
  rw [between?, hcolumn, hbounds]
  rfl

theorem hasRows?_of_standsIn {r : Raw} (h : (Test.hasRows r).StandsIn fs)
    (hvalue : Restores Raw.ofJson? r.toJson r) : hasRows? fs = some (.hasRows r) := by
  have hraw := hvalue.required (h _ List.mem_cons_self)
  rw [hasRows?, hraw]
  rfl

theorem raw?_of_standsIn {r : Raw} (h : (Test.raw r).StandsIn fs)
    (hvalue : Restores Raw.ofJson? r.toJson r) : raw? fs = some (.raw r) := by
  have hraw := hvalue.required (h _ List.mem_cons_self)
  rw [raw?, hraw]
  rfl

/-- A test of a `where` group is read from its fields. -/
theorem ofWhereTag?_of_standsIn {t : Test} (hleaves : ∀ l ∈ t.leaves, l.Restorable)
    (ht : ∀ c ∈ t.candidates, c.hasOwnShape = true) (h : t.StandsIn fs) :
    ofWhereTag? fs t.whereTag = some t := by
  cases t with
  | basic column operator value =>
    have hvalue := Operand.restores fun l hl => hleaves l (List.mem_cons_of_mem _ hl)
    have hlast : ("value", value.toJson) ∈ (basic column operator value).toFields :=
      List.mem_cons_of_mem _ (List.mem_cons_of_mem _ List.mem_cons_self)
    exact basic?_of_standsIn h (hvalue.optional (h _ hlast) default)
  | isNull column => exact isNull?_of_standsIn h
  | isIn columns candidates =>
    have hcandidates := ht candidates List.mem_cons_self
    exact isIn?_of_standsIn h (Candidates.restores (candidates_restorable hleaves) hcandidates)
  | between column low high =>
    refine between?_of_standsIn h (bounds_restore ?_ ?_)
    · exact hleaves (.value low) (by simp [leaves]) low List.mem_cons_self
    · exact hleaves (.value high) (by simp [leaves]) high List.mem_cons_self
  | hasRows r => exact hasRows?_of_standsIn h (Raw.restores (hleaves _ List.mem_cons_self))
  | raw r => exact raw?_of_standsIn h (Raw.restores (hleaves _ List.mem_cons_self))

theorem fieldsPrintable {t : Test} (hleaves : ∀ l ∈ t.leaves, l.Restorable)
    (ht : ∀ c ∈ t.candidates, c.hasOwnShape = true) : Json.fieldsPrintable t.toFields = true := by
  rw [Json.fieldsPrintable_iff]
  cases t with
  | basic column operator value =>
    have hvalue := Operand.restores fun l hl => hleaves l (List.mem_cons_of_mem _ hl)
    simp [toFields, Json.printable, hvalue.printable]
  | isNull column => simp [toFields, Json.printable]
  | isIn columns candidates =>
    have hvalue := Candidates.restores (candidates_restorable hleaves)
      (ht candidates List.mem_cons_self)
    simp [toFields, columns.restores.printable, hvalue.printable]
  | between column low high =>
    have hlow : low.Restorable := hleaves (.value low) (by simp [leaves]) low List.mem_cons_self
    have hhigh : high.Restorable := hleaves (.value high) (by simp [leaves]) high List.mem_cons_self
    simp [toFields, Json.printable, (bounds_restore hlow hhigh).printable]
  | hasRows r => simp [toFields, (Raw.restores (hleaves _ List.mem_cons_self)).printable]
  | raw r => simp [toFields, (Raw.restores (hleaves _ List.mem_cons_self)).printable]

end Test

namespace JoinTest

variable {fs : Fields}

def candidates : JoinTest → List Candidates
  | .on t => t.candidates
  | _ => []

/-- A test of a join is read from its fields. -/
theorem ofTag?_of_standsIn {t : JoinTest} (hleaves : ∀ l ∈ t.leaves, l.Restorable)
    (ht : ∀ c ∈ t.candidates, c.hasOwnShape = true)
    (h : ∀ f ∈ t.toFields, fs.lookup f.1 = some f.2) :
    ofTag? fs t.tag = some t := by
  cases t with
  | pair first operator second =>
    have hlast : ("value", .string second) ∈ (pair first operator second).toFields :=
      List.mem_cons_of_mem _ (List.mem_cons_of_mem _ List.mem_cons_self)
    have hfirst := (Restores.string first).required (h _ List.mem_cons_self)
    have hoperator := (Restores.string operator).required
      (h _ (List.mem_cons_of_mem _ List.mem_cons_self))
    have hsecond := (Restores.string second).required (h _ hlast)
    rw [tag, ofTag?, hfirst, hoperator, hsecond]
    rfl
  | usingColumns columns =>
    have hcolumns := columns.restores.required (h _ List.mem_cons_self)
    rw [tag, ofTag?, hcolumns]
    rfl
  | on t =>
    have hstands : t.StandsIn fs := h
    cases t with
    | basic column operator value =>
      have hvalue := Operand.restores fun l hl => hleaves l (List.mem_cons_of_mem _ hl)
      have hlast : ("value", value.toJson) ∈ (Test.basic column operator value).toFields :=
        List.mem_cons_of_mem _ (List.mem_cons_of_mem _ List.mem_cons_self)
      rw [tag, Test.joinTag, ofTag?,
        Test.basic?_of_standsIn hstands (hvalue.required (h _ hlast))]
      rfl
    | isNull column =>
      rw [tag, Test.joinTag, ofTag?, Test.isNull?_of_standsIn hstands]
      rfl
    | isIn columns candidates =>
      have hvalue := Candidates.restores (Test.candidates_restorable hleaves)
        (ht candidates List.mem_cons_self)
      rw [tag, Test.joinTag, ofTag?, Test.isIn?_of_standsIn hstands hvalue]
      rfl
    | between column low high =>
      have hvalue := Test.bounds_restore
        (hleaves (.value low) (by simp [leaves, Test.leaves]) low List.mem_cons_self)
        (hleaves (.value high) (by simp [leaves, Test.leaves]) high List.mem_cons_self)
      rw [tag, Test.joinTag, ofTag?, Test.between?_of_standsIn hstands hvalue]
      rfl
    | hasRows r =>
      have hvalue := Raw.restores (hleaves _ List.mem_cons_self)
      rw [tag, Test.joinTag, ofTag?, Test.hasRows?_of_standsIn hstands hvalue]
      rfl
    | raw r =>
      have hvalue := Raw.restores (hleaves _ List.mem_cons_self)
      rw [tag, Test.joinTag, ofTag?, Test.raw?_of_standsIn hstands hvalue]
      rfl

theorem fieldsPrintable {t : JoinTest} (hleaves : ∀ l ∈ t.leaves, l.Restorable)
    (ht : ∀ c ∈ t.candidates, c.hasOwnShape = true) : Json.fieldsPrintable t.toFields = true := by
  cases t with
  | pair first operator second =>
    simp [toFields, Json.fieldsPrintable, Json.printable]
  | usingColumns columns =>
    simp [toFields, Json.fieldsPrintable, columns.restores.printable]
  | on t => exact Test.fieldsPrintable hleaves ht

end JoinTest

/-! ## Conditions -/

namespace ConditionFormat

variable {τ α : Type} {F : ConditionFormat τ α} {P : α → Prop}

/-- Tags are read from their words, and the tests in `P` from their fields. -/
structure Restoring (F : ConditionFormat τ α) (P : α → Prop) : Prop where
  tag : ∀ tag, tag? .lenient F.tags (.string (F.word tag)) = some tag
  nodup : ∀ tag, ("type" :: (F.fieldNames tag ++ ["not", "bool"])).Nodup
  wrapped : F.fieldNames F.wrapped = ["value"]
  names : ∀ t, (F.toFields t).map Prod.fst = F.fieldNames (F.tag t)
  tag_ne : ∀ t, F.tag t ≠ F.wrapped
  printable : ∀ t, P t → Json.fieldsPrintable (F.toFields t) = true
  test : ∀ t fs, P t → (∀ f ∈ F.toFields t, fs.lookup f.1 = some f.2) →
    F.test? fs (F.tag t) = some t

theorem toItems_eq_map (cs : List (Condition α)) : F.toItems cs = cs.map F.toJson := by
  induction cs with
  | nil => rw [toItems, List.map_nil]
  | cons c cs ih => rw [toItems, ih, List.map_cons]

theorem ofItems?_eq_mapM [DecidableEq τ] (js : List Json) :
    F.ofItems? js = js.mapM (F.ofJson? .lenient) := by
  induction js with
  | nil =>
    rw [ofItems?]
    rfl
  | cons j js ih =>
    rw [ofItems?, ih, List.mapM_cons]

/-- The fields of a condition with the given tag. -/
def conditionFields (F : ConditionFormat τ α) (tag : τ) (fs : Fields) (negated : Bool)
    (k : Connector) : Fields :=
  ("type", .string (F.word tag)) :: (fs ++ [("not", .bool negated), ("bool", k.toJson)])

section Object

variable (hF : F.Restoring P) {tag : τ} {fs : Fields}
  (hnames : fs.map Prod.fst = F.fieldNames tag) (negated : Bool) (k : Connector)

include hF hnames

theorem nodup_conditionFields : ((F.conditionFields tag fs negated k).map Prod.fst).Nodup := by
  rw [conditionFields, List.map_cons, List.map_append, hnames]
  exact hF.nodup tag

theorem lookup_conditionFields {f : String × Json} (hf : f ∈ fs) :
    (F.conditionFields tag fs negated k).lookup f.1 = some f.2 :=
  lookup_of_mem (nodup_conditionFields hF hnames negated k)
    (List.mem_cons_of_mem _ (List.mem_append_left _ hf))

theorem ofJson?_object [DecidableEq τ] (r : Reading) :
    F.ofJson? r (F.object tag fs negated k) =
      if tag = F.wrapped then (F.valueMembers? (F.conditionFields tag fs negated k)).bind
        fun cs => some (.group cs negated k)
      else (F.test? (F.conditionFields tag fs negated k) tag).bind
        fun t => some (.test t negated k) := by
  have hnodup := nodup_conditionFields hF hnames negated k
  have htag : required (F.conditionFields tag fs negated k) "type" (tag? .lenient F.tags) =
      some tag := by
    rw [required, lookup_of_mem hnodup List.mem_cons_self]
    exact hF.tag tag
  have hnegated : optional (F.conditionFields tag fs negated k) "not" false flag? =
      some negated :=
    (Restores.flag negated).optional (lookup_of_mem hnodup (by simp [conditionFields])) false
  have hconnector : optional (F.conditionFields tag fs negated k) "bool" .and
      (Connector.ofJson? r) = some k :=
    (k.restores r).optional (lookup_of_mem hnodup (by simp [conditionFields])) .and
  rw [object, ← conditionFields, ofJson?, htag, hnegated, hconnector]
  change (if (!distinct (conditionFieldNames ++ F.fieldNames tag) _) = true then none else _) = _
  rw [distinct_of_nodup _ hnodup, Bool.not_true, if_neg Bool.false_ne_true]
  rfl

end Object

theorem printable_object {tag : τ} {fs : Fields} (hfs : Json.fieldsPrintable fs = true)
    (negated : Bool) (k : Connector) : (F.object tag fs negated k).printable = true := by
  have hlast : ∀ f ∈ [("not", Json.bool negated), ("bool", k.toJson)], f.2.printable = true :=
    List.forall_mem_cons.2 ⟨rfl, List.forall_mem_singleton.2 rfl⟩
  rw [object, Json.printable, Json.fieldsPrintable_iff, List.forall_mem_cons,
    List.forall_mem_append]
  exact ⟨rfl, Json.fieldsPrintable_iff.1 hfs, hlast⟩

variable [DecidableEq τ]

theorem restores_test (hF : F.Restoring P) {t : α} (ht : P t) (negated : Bool) (k : Connector)
    (r : Reading) :
    Restores (F.ofJson? r) (F.toJson (.test t negated k)) (.test t negated k) := by
  rw [toJson]
  constructor
  · exact printable_object (hF.printable t ht) negated k
  · have hread :
        F.test? (F.conditionFields (F.tag t) (F.toFields t) negated k) (F.tag t) = some t :=
      hF.test t _ ht fun f hf => lookup_conditionFields hF (hF.names t) negated k hf
    rw [ofJson?_object hF (hF.names t), if_neg (hF.tag_ne t), hread, Option.bind_some]

theorem restores_group (hF : F.Restoring P) {cs : List (Condition α)}
    (hcs : ∀ c ∈ cs, Restores (F.ofJson? .lenient) (F.toJson c) c) (negated : Bool) (k : Connector)
    (r : Reading) :
    Restores (F.ofJson? r) (F.toJson (.group cs negated k)) (.group cs negated k) := by
  have hitems : Restores (list? (F.ofJson? .lenient)) (.array (F.toItems cs)) cs := by
    rw [toItems_eq_map]
    exact Restores.items hcs
  rw [toJson]
  constructor
  · refine printable_object ?_ negated k
    rw [Json.fieldsPrintable, Json.fieldsPrintable, hitems.printable]
    rfl
  · have hmembers : F.valueMembers? (F.conditionFields F.wrapped [("value", .array (F.toItems cs))]
        negated k) = some cs := by
      have hread : F.ofItems? (F.toItems cs) = some cs := by
        rw [ofItems?_eq_mapM]
        exact hitems.read_eq
      simp [conditionFields, valueMembers?, members?, hread]
    have hnames : [("value", Json.array (F.toItems cs))].map Prod.fst = F.fieldNames F.wrapped :=
      hF.wrapped.symm
    rw [ofJson?_object hF hnames, if_pos rfl, hmembers, Option.bind_some]

/-- A condition is restored if its tests are. -/
theorem restores_toJson (hF : F.Restoring P) {cs : List (Condition α)}
    (hcs : ∀ t ∈ Condition.testsOf cs, P t) :
    ∀ c ∈ cs, ∀ r, Restores (F.ofJson? r) (F.toJson c) c := by
  induction cs using Condition.forest_induction with
  | nil => exact List.forall_mem_nil _
  | test t negated k cs ih =>
    rw [Condition.testsOf_test_cons, List.forall_mem_cons] at hcs
    exact List.forall_mem_cons.2 ⟨restores_test hF hcs.1 negated k, ih hcs.2⟩
  | group ms negated k cs ihms ih =>
    rw [Condition.testsOf_group_cons, List.forall_mem_append] at hcs
    have hms (c : Condition α) (hc : c ∈ ms) : Restores (F.ofJson? .lenient) (F.toJson c) c :=
      ihms hcs.1 c hc .lenient
    exact List.forall_mem_cons.2 ⟨restores_group hF hms negated k, ih hcs.2⟩

theorem restores_toItems (hF : F.Restoring P) {cs : List (Condition α)}
    (hcs : ∀ t ∈ Condition.testsOf cs, P t) (r : Reading) :
    Restores (list? (F.ofJson? r)) (.array (F.toItems cs)) cs := by
  rw [toItems_eq_map]
  exact Restores.items fun c hc => restores_toJson hF hcs c hc r

end ConditionFormat

def Test.Restorable (t : Test) : Prop :=
  (∀ l ∈ t.leaves, l.Restorable) ∧ ∀ c ∈ t.candidates, c.hasOwnShape = true

def JoinTest.Restorable (t : JoinTest) : Prop :=
  (∀ l ∈ t.leaves, l.Restorable) ∧ ∀ c ∈ t.candidates, c.hasOwnShape = true

theorem WhereClause.restoring : ConditionFormat.Restoring format Test.Restorable where
  tag tag := by cases tag <;> rfl
  nodup tag := by cases tag <;> decide
  wrapped := rfl
  names t := by cases t <;> rfl
  tag_ne t := by cases t <;> exact WhereTag.noConfusion
  printable _ ht := Test.fieldsPrintable ht.1 ht.2
  test _ _ ht h := Test.ofWhereTag?_of_standsIn ht.1 ht.2 h

theorem JoinCondition.restoring : ConditionFormat.Restoring format JoinTest.Restorable where
  tag tag := by cases tag <;> rfl
  nodup tag := by cases tag <;> decide
  wrapped := rfl
  names t := by
    cases t with
    | on t => cases t <;> rfl
    | _ => rfl
  tag_ne t := by
    cases t with
    | on t => cases t <;> exact JoinTag.noConfusion
    | _ => exact JoinTag.noConfusion
  printable _ ht := JoinTest.fieldsPrintable ht.1 ht.2
  test _ _ ht h := JoinTest.ofTag?_of_standsIn ht.1 ht.2 h

end ClauseTree
