import ClauseTree.Proofs.Document.RawPlaces
import ClauseTree.Query.Leaf

/-!
# Reading raw text

`RawsAt read own places` says of a reader that it finds raw text at the given places of a
document and nowhere else, if the document is without the field `sql`. It is shown of the
shapes that have no tag, passed on to lists and fields, and from these to the tests.
-/

namespace ClauseTree

open Document

/-! ## Shapes without a tag -/

variable {j : Json}

/-- An object without the field `sql` is no raw text, so only the array is left. -/
theorem Raw.ofJson?_eq_ofArray? (h : j.hasKey "sql" = false) : Raw.ofJson? j = Raw.ofArray? j := by
  cases j with
  | object fs =>
    have hlookup : fs.lookup "sql" = none := by
      rw [List.lookup_eq_none_iff]
      intro f hf
      have hne : f.1 ≠ "sql" := (Json.fieldsHaveKey_eq_false.1 h f hf).1
      simpa using hne.symm
    have hnone : Raw.ofArray? (.object fs) = none := rfl
    rw [Raw.ofJson?, hnone, record?]
    split <;> simp [required, hlookup]
  | array js =>
    cases js with
    | nil => rfl
    | cons a js =>
      cases js with
      | nil => cases a <;> rfl
      | cons b js =>
        cases js with
        | nil =>
          cases a with
          | string sql =>
            cases b with
            | array values =>
              have hread : Raw.ofJson? (.array [.string sql, .array values]) =
                  (values.mapM Value.ofJson?).bind fun vs => some ⟨sql, vs⟩ := rfl
              rw [hread, Raw.ofArray?]
              cases values.mapM Value.ofJson? <;> rfl
            | _ => rfl
          | _ => rfl
        | cons c js =>
          have hread : Raw.ofJson? (.array (a :: b :: c :: js)) = none := by
            simp [Raw.ofJson?, record?, Raw.fieldNames]
          rw [hread]
          cases a with
          | string sql => cases b <;> rfl
          | _ => rfl
  | _ => rfl

/-- From a document without the field `sql`, `read` reads the raw texts of the given places. -/
def RawsAt {α : Type} (read : Json → Option α) (own : α → List Leaf)
    (places : Json → List Json) : Prop :=
  ∀ j a, j.hasKey "sql" = false → read j = some a →
    Leaf.raws (own a) = (places j).filterMap Raw.ofArray?

theorem Raw.rawsAt_ofJson? : RawsAt Raw.ofJson? (fun r => [.raw r]) fun j => [j] := by
  intro j r h hr
  rw [Raw.ofJson?_eq_ofArray? h] at hr
  rw [List.filterMap_cons_some hr]
  rfl

/-- A choice whose first alternative is raw text, and whose others have none. -/
theorem RawsAt.orElse {α : Type} {own : α → List Leaf} {raw : Raw → α} {other : Json → Option α}
    (hraw : ∀ r, Leaf.raws (own (raw r)) = [r])
    (hother : ∀ j a, other j = some a → Leaf.raws (own a) = []) :
    RawsAt (fun j => (Raw.ofJson? j).map raw <|> other j) own fun j => [j] := by
  intro j a h ha
  simp only [Raw.ofJson?_eq_ofArray? h] at ha
  cases hr : Raw.ofArray? j with
  | none =>
    rw [hr] at ha
    rw [hother j a ha, List.filterMap_cons_none hr, List.filterMap_nil]
  | some r =>
    rw [hr] at ha
    cases ha
    rw [hraw r, List.filterMap_cons_some hr, List.filterMap_nil]

theorem exists_or_of_orElse_map {α β : Type} {x : Option β} {f : β → α} {y : Option α} {a : α}
    (h : (x.map f <|> y) = some a) : (∃ b, x = some b ∧ f b = a) ∨ x = none ∧ y = some a := by
  cases x with
  | none => exact Or.inr ⟨rfl, h⟩
  | some b => exact Or.inl ⟨b, rfl, Option.some.inj h⟩

theorem Operand.rawsAt_ofJson? : RawsAt Operand.ofJson? Operand.leaves fun j => [j] := by
  refine RawsAt.orElse (fun r => rfl) fun j o ho => ?_
  rcases exists_or_of_orElse_map ho with ⟨name, -, rfl⟩ | ⟨-, ho⟩
  · rfl
  · obtain ⟨v, -, rfl⟩ := Option.map_eq_some_iff.1 ho
    rfl

theorem Candidates.rawsAt_ofJson? : RawsAt Candidates.ofJson? Candidates.leaves fun j => [j] := by
  refine RawsAt.orElse (fun r => rfl) fun j c hc => ?_
  rcases exists_or_of_orElse_map hc with ⟨rs, -, rfl⟩ | ⟨-, hc⟩
  · exact Leaf.raws_values rs.flatten
  · obtain ⟨vs, -, rfl⟩ := Option.map_eq_some_iff.1 hc
    exact Leaf.raws_values vs

theorem JoinSource.rawsAt_ofJson? (schema : Option String) :
    RawsAt JoinSource.ofJson? (JoinSource.leaves schema) fun j => [j] := by
  refine RawsAt.orElse (fun r => rfl) fun j s hs => ?_
  obtain ⟨table, -, rfl⟩ := Option.map_eq_some_iff.1 hs
  rfl

theorem Limit.rawsAt_ofJson? : RawsAt Limit.ofJson? Limit.leaves fun j => [j] := by
  have hrest : RawsAt (fun j => (Raw.ofJson? j).map Limit.raw <|>
      (onlyField? "bind" Value.ofJson? j).map Limit.bound) Limit.leaves fun j => [j] := by
    refine RawsAt.orElse (fun r => rfl) fun j l hl => ?_
    obtain ⟨v, -, rfl⟩ := Option.map_eq_some_iff.1 hl
    rfl
  intro j l h hl
  rw [Limit.ofJson?] at hl
  cases hn : word64? j with
  | none =>
    rw [hn] at hl
    exact hrest j l h hl
  | some n =>
    -- A number is no array.
    have hnone : Raw.ofArray? j = none := by
      cases j with
      | array js => cases hn
      | _ => rfl
    rw [hn] at hl
    cases hl
    rw [List.filterMap_cons_none hnone]
    rfl

/-- A list is read item by item. -/
theorem RawsAt.mapM {α : Type} {read : Json → Option α} {own : α → List Leaf}
    {places : Json → List Json} (h : RawsAt read own places) {js : List Json}
    (hkey : Json.itemsHaveKey "sql" js = false) {as : List α} (has : js.mapM read = some as) :
    Leaf.raws (as.flatMap own) = (js.flatMap places).filterMap Raw.ofArray? := by
  induction js generalizing as with
  | nil =>
    cases has
    rfl
  | cons j js ih =>
    have hkeys := Json.itemsHaveKey_eq_false.1 hkey
    have hjs : Json.itemsHaveKey "sql" js = false :=
      Json.itemsHaveKey_eq_false.2 fun i hi => hkeys i (List.mem_cons_of_mem j hi)
    rw [List.mapM_cons] at has
    obtain ⟨a, ha, has⟩ := Option.bind_eq_some_iff.1 has
    obtain ⟨bs, hbs, has⟩ := Option.bind_eq_some_iff.1 has
    cases has
    rw [List.flatMap_cons, List.flatMap_cons, Leaf.raws_append, List.filterMap_append,
      h j a (hkeys j List.mem_cons_self) ha, ih hjs hbs]

theorem RawsAt.items {α : Type} {read : Json → Option α} {own : α → List Leaf}
    {places : Json → List Json} (h : RawsAt read own places) :
    RawsAt (list? read) (fun as => as.flatMap own) fun j => j.items.flatMap places := by
  intro j as hkey has
  cases j with
  | array js => exact h.mapM hkey has
  | _ => cases has

/-! ## Fields -/

section Fields

variable {fs : Fields}

theorem Json.hasKey_of_lookup {key name : String} (h : fieldsHaveKey key fs = false)
    (hj : fs.lookup name = some j) : hasKey key j = false := by
  obtain ⟨l, r, hfs, -⟩ := List.lookup_eq_some_iff.1 hj
  have hmem : (name, j) ∈ fs := by
    rw [hfs]
    simp
  exact (fieldsHaveKey_eq_false.1 h _ hmem).2

variable {α : Type} {own : α → List Leaf} {read : Json → Option α} {places : Json → List Json}
  {name : String} {a : α}

theorem RawsAt.at_required (hread : RawsAt read own places)
    (h : Json.fieldsHaveKey "sql" fs = false) (ha : required fs name read = some a) :
    Leaf.raws (own a) = ((fieldAt fs name).flatMap places).filterMap Raw.ofArray? := by
  obtain ⟨j, hj, ha⟩ := Option.bind_eq_some_iff.1 ha
  rw [fieldAt, hj, Option.toList_some, List.flatMap_singleton]
  exact hread j a (Json.hasKey_of_lookup h hj) ha

theorem RawsAt.at_optional (hread : RawsAt read own places) {default : α}
    (hdefault : Leaf.raws (own default) = []) (h : Json.fieldsHaveKey "sql" fs = false)
    (ha : optional fs name default read = some a) :
    Leaf.raws (own a) = ((fieldAt fs name).flatMap places).filterMap Raw.ofArray? := by
  rw [Document.optional] at ha
  cases hj : fs.lookup name with
  | none =>
    rw [hj] at ha
    cases ha
    rw [fieldAt, hj]
    exact hdefault
  | some j =>
    rw [hj] at ha
    rw [fieldAt, hj, Option.toList_some, List.flatMap_singleton]
    exact hread j a (Json.hasKey_of_lookup h hj) ha

/-- Raw text that stands for itself. -/
theorem RawsAt.at_required_self (hread : RawsAt read own fun j => [j])
    (h : Json.fieldsHaveKey "sql" fs = false) (ha : required fs name read = some a) :
    Leaf.raws (own a) = (fieldAt fs name).filterMap Raw.ofArray? := by
  have hraws := hread.at_required h ha
  rw [List.flatMap_singleton'] at hraws
  exact hraws

theorem RawsAt.at_optional_self (hread : RawsAt read own fun j => [j]) {default : α}
    (hdefault : Leaf.raws (own default) = []) (h : Json.fieldsHaveKey "sql" fs = false)
    (ha : optional fs name default read = some a) :
    Leaf.raws (own a) = (fieldAt fs name).filterMap Raw.ofArray? := by
  have hraws := hread.at_optional hdefault h ha
  rw [List.flatMap_singleton'] at hraws
  exact hraws

/-- A list that may be left out. -/
theorem RawsAt.at_optional_list (hread : RawsAt read own places)
    (h : Json.fieldsHaveKey "sql" fs = false) {as : List α}
    (has : optional fs name [] (list? read) = some as) :
    Leaf.raws (as.flatMap own) = ((itemsAt fs name).flatMap places).filterMap Raw.ofArray? := by
  have hraws := hread.items.at_optional rfl h has
  rw [itemsAt, List.flatMap_assoc]
  exact hraws

namespace Test

variable {t : Test}

theorem raws_basic? {operand? : Option Operand} {places : List Json}
    (hoperand : ∀ o, operand? = some o → Leaf.raws o.leaves = places.filterMap Raw.ofArray?)
    (ht : basic? operand? fs = some t) :
    Leaf.raws t.leaves = places.filterMap Raw.ofArray? := by
  obtain ⟨column, -, ht⟩ := Option.bind_eq_some_iff.1 ht
  obtain ⟨operator, -, ht⟩ := Option.bind_eq_some_iff.1 ht
  obtain ⟨o, ho, ht⟩ := Option.bind_eq_some_iff.1 ht
  cases ht
  exact hoperand o ho

theorem raws_isNull? (ht : isNull? fs = some t) : Leaf.raws t.leaves = [] := by
  obtain ⟨column, -, ht⟩ := Option.bind_eq_some_iff.1 ht
  cases ht
  rfl

theorem raws_between? (ht : between? fs = some t) : Leaf.raws t.leaves = [] := by
  obtain ⟨column, -, ht⟩ := Option.bind_eq_some_iff.1 ht
  obtain ⟨⟨low, high⟩, -, ht⟩ := Option.bind_eq_some_iff.1 ht
  cases ht
  rfl

/-- Candidates that are not there have no raw text either. -/
theorem raws_leaves_isIn (columns : Columns) (candidates : Candidates) :
    Leaf.raws (leaves (.isIn columns candidates)) = Leaf.raws candidates.leaves := by
  rw [leaves]
  split
  · next hempty =>
    cases candidates with
    | raw r => cases hempty
    | rows rs => exact (Leaf.raws_values rs.flatten).symm
    | list vs => exact (Leaf.raws_values vs).symm
  · rw [Leaf.raws_append, Columns.leaves, Leaf.raws_names, List.nil_append]

variable (h : Json.fieldsHaveKey "sql" fs = false)
include h

theorem raws_isIn? (ht : isIn? fs = some t) :
    Leaf.raws t.leaves = (fieldAt fs "value").filterMap Raw.ofArray? := by
  obtain ⟨columns, -, ht⟩ := Option.bind_eq_some_iff.1 ht
  obtain ⟨candidates, hcandidates, ht⟩ := Option.bind_eq_some_iff.1 ht
  cases ht
  rw [raws_leaves_isIn]
  exact Candidates.rawsAt_ofJson?.at_required_self h hcandidates

theorem raws_hasRows? (ht : hasRows? fs = some t) :
    Leaf.raws t.leaves = (fieldAt fs "value").filterMap Raw.ofArray? := by
  obtain ⟨r, hr, ht⟩ := Option.bind_eq_some_iff.1 ht
  cases ht
  exact Raw.rawsAt_ofJson?.at_required_self h hr

theorem raws_raw? (ht : raw? fs = some t) :
    Leaf.raws t.leaves = (fieldAt fs "value").filterMap Raw.ofArray? := by
  obtain ⟨r, hr, ht⟩ := Option.bind_eq_some_iff.1 ht
  cases ht
  exact Raw.rawsAt_ofJson?.at_required_self h hr

theorem raws_ofWhereTag? {tag : WhereTag} (ht : ofWhereTag? fs tag = some t) :
    Leaf.raws t.leaves =
      (if tag.takesRaw then fieldAt fs "value" else []).filterMap Raw.ofArray? := by
  cases tag with
  | basic =>
    refine raws_basic? (fun o ho => ?_) ht
    exact Operand.rawsAt_ofJson?.at_optional_self rfl h ho
  | null => exact raws_isNull? ht
  | isIn => exact raws_isIn? h ht
  | between => exact raws_between? ht
  | hasRows => exact raws_hasRows? h ht
  | wrapped => cases ht
  | raw => exact raws_raw? h ht

end Test

theorem JoinTest.raws_ofTag? (h : Json.fieldsHaveKey "sql" fs = false) {tag : JoinTag}
    {t : JoinTest} (ht : ofTag? fs tag = some t) :
    Leaf.raws t.leaves =
      (if tag.takesRaw then fieldAt fs "value" else []).filterMap Raw.ofArray? := by
  cases tag with
  | onBasic =>
    obtain ⟨first, -, ht⟩ := Option.bind_eq_some_iff.1 ht
    obtain ⟨operator, -, ht⟩ := Option.bind_eq_some_iff.1 ht
    obtain ⟨second, -, ht⟩ := Option.bind_eq_some_iff.1 ht
    cases ht
    rfl
  | onVal =>
    obtain ⟨u, hu, rfl⟩ := Option.map_eq_some_iff.1 ht
    refine Test.raws_basic? (fun o ho => ?_) hu
    exact Operand.rawsAt_ofJson?.at_required_self h ho
  | onIn =>
    obtain ⟨u, hu, rfl⟩ := Option.map_eq_some_iff.1 ht
    exact Test.raws_isIn? h hu
  | onNull =>
    obtain ⟨u, hu, rfl⟩ := Option.map_eq_some_iff.1 ht
    exact Test.raws_isNull? hu
  | onRows =>
    obtain ⟨u, hu, rfl⟩ := Option.map_eq_some_iff.1 ht
    exact Test.raws_hasRows? h hu
  | onBetween =>
    obtain ⟨u, hu, rfl⟩ := Option.map_eq_some_iff.1 ht
    exact Test.raws_between? hu
  | onWrapped => cases ht
  | onRaw =>
    obtain ⟨u, hu, rfl⟩ := Option.map_eq_some_iff.1 ht
    exact Test.raws_raw? h hu
  | onUsing =>
    obtain ⟨columns, -, ht⟩ := Option.bind_eq_some_iff.1 ht
    cases ht
    exact Leaf.raws_names columns.toList

end Fields

end ClauseTree
