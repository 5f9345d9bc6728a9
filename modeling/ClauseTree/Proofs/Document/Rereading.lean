import ClauseTree.Proofs.Json.Numbers
import ClauseTree.Proofs.Query.Replacing

/-!
# Writing what was read

An element that was read from a document is restored from the document it is written as, except for
values that were never supplied: those are written as null. This takes that its other values and its
candidates are of the kinds that are restored, and that the second document is nested no more deeply
than a reader follows.

Raw text is the one thing that can be written with more nesting than it was read with, as an object
with an array in it. `Rewritten` bounds what one field can gain by this, from nothing to nothing and
from anything else to two.
-/

namespace ClauseTree

open Document

/-! ## Depth -/

namespace Json

theorem depthItems_le_iff {js : List Json} {n : Nat} :
    depthItems js ≤ n ↔ ∀ j ∈ js, j.depth ≤ n := by
  induction js with
  | nil => simp [depthItems]
  | cons j js ih => rw [depthItems, Nat.max_le, ih, List.forall_mem_cons]

theorem depthFields_le_iff {fs : List (String × Json)} {n : Nat} :
    depthFields fs ≤ n ↔ ∀ f ∈ fs, f.2.depth ≤ n := by
  induction fs with
  | nil => simp [depthFields]
  | cons f fs ih => rw [depthFields, Nat.max_le, ih, List.forall_mem_cons]

theorem mem_of_lookup {fs : List (String × Json)} {name : String} {j : Json}
    (h : fs.lookup name = some j) : (name, j) ∈ fs := by
  obtain ⟨l, r, hfs, -⟩ := List.lookup_eq_some_iff.1 h
  rw [hfs]
  simp

end Json

/-! ## Values -/

/-- A value that was never supplied is taken for the null of the database. -/
def Value.supplied : Value → Value
  | .undefined => .null
  | v => v

theorem Value.toJson_supplied (v : Value) : v.supplied.toJson = v.toJson := by
  cases v <;> rfl

theorem Value.Restorable.supplied {v : Value} (h : v.Restorable) : v.supplied.Restorable := by
  cases v with
  | undefined => exact h.elim
  | _ => exact h

theorem Value.Restorable.depth_toJson {v : Value} (h : v.Restorable) : v.toJson.depth = 0 := by
  cases v with
  | blob bytes => exact h.elim
  | _ => rfl

theorem Value.supplied_ne_undefined (v : Value) : v.supplied ≠ .undefined := by
  cases v <;> exact Value.noConfusion

/-- The leaf is restored once its missing values are null. -/
def Leaf.Suppliable (l : Leaf) : Prop := (l.mapValues Value.supplied).Restorable

theorem Leaf.suppliable_of_forall {l : Leaf} (h : ∀ v ∈ l.values, v.Restorable) :
    l.Suppliable := by
  rw [Suppliable, Restorable, values_mapValues, List.forall_mem_map]
  exact fun v hv => (h v hv).supplied

theorem Leaf.suppliable_name (name : String) : (Leaf.name name).Suppliable :=
  suppliable_of_forall fun _ hv => by cases hv

theorem Leaf.suppliable_names (names : List String) :
    ∀ l ∈ names.map Leaf.name, l.Suppliable := by
  rw [List.forall_mem_map]
  exact fun name _ => suppliable_name name

theorem Value.restorable_ofInt {n : Int} (h : n < 2 ^ 64) : (ofInt n).Restorable := by
  cases n with
  | negSucc k => trivial
  | ofNat k =>
    have hk : k < 2 ^ 64 := Int.ofNat_lt.1 h
    rw [ofInt, ofNat, Nat.pow_eq]
    split
    · trivial
    · next hlow =>
      change 2 ^ 63 ≤ (UInt64.ofNat k).toNat
      rw [UInt64.toNat_ofNat']
      omega

theorem Value.restorable_of_ofJson? {j : Json} {v : Value} (hj : j.numbersFit = true)
    (h : ofJson? j = some v) : v.Restorable := by
  cases j with
  | int n =>
    cases h
    rw [Json.numbersFit, Bool.and_eq_true, decide_eq_true_eq, decide_eq_true_eq] at hj
    exact restorable_ofInt hj.2
  | real x =>
    cases h
    exact hj
  | array js => cases h
  | object fs => cases h
  | unreadable => cases h
  | _ =>
    cases h
    trivial

/-- Only a text is read as a text. -/
theorem Value.eq_string_of_ofJson? {j : Json} {s : String} (h : ofJson? j = some (.text s)) :
    j = .string s := by
  cases j with
  | int n =>
    have hint : ofInt n = .text s := Option.some.inj h
    cases n with
    | ofNat k =>
      rw [ofInt, ofNat] at hint
      split at hint <;> cases hint
    | negSucc k => cases hint
  | string t =>
    cases h
    rfl
  | _ => cases h

/-- A list is read item by item. -/
theorem forall_mem_of_list? {α : Type} {read : Json → Option α} {P : α → Prop} {n : Nat}
    (h : ∀ j a, j.numbersFit = true → j.depth ≤ n → read j = some a → P a) {j : Json} {as : List α}
    (hj : j.numbersFit = true) (hdepth : j.depth ≤ n + 1) (has : list? read j = some as) :
    ∀ a ∈ as, P a := by
  cases j with
  | array js =>
    rw [Json.numbersFit, Json.itemsFit_iff] at hj
    rw [Json.depth, Nat.add_le_add_iff_right, Json.depthItems_le_iff] at hdepth
    change js.mapM read = some as at has
    induction js generalizing as with
    | nil =>
      cases has
      exact List.forall_mem_nil _
    | cons j js ih =>
      rw [List.forall_mem_cons] at hj hdepth
      rw [List.mapM_cons] at has
      obtain ⟨a, ha, has⟩ := Option.bind_eq_some_iff.1 has
      obtain ⟨bs, hbs, has⟩ := Option.bind_eq_some_iff.1 has
      cases has
      exact List.forall_mem_cons.2 ⟨h j a hj.1 hdepth.1 ha, ih hj.2 hdepth.2 hbs⟩
  | _ => cases has

theorem restorable_of_list? {j : Json} {vs : List Value} (hj : j.numbersFit = true)
    (h : list? Value.ofJson? j = some vs) : ∀ v ∈ vs, v.Restorable :=
  forall_mem_of_list? (fun _ _ hi _ hv => Value.restorable_of_ofJson? hi hv) hj
    (Nat.le_succ j.depth) h

theorem depth_valuesToJson {vs : List Value} (h : ∀ v ∈ vs, v.Restorable) :
    (valuesToJson vs).depth ≤ 1 := by
  rw [valuesToJson, Json.depth, Nat.add_le_add_iff_right, Json.depthItems_le_iff,
    List.forall_mem_map]
  exact fun v hv => Nat.le_of_eq (h v hv).depth_toJson

theorem depth_namesToJson (names : List String) : (namesToJson names).depth ≤ 1 := by
  rw [namesToJson, Json.depth, Nat.add_le_add_iff_right, Json.depthItems_le_iff,
    List.forall_mem_map]
  exact fun name _ => Nat.le_refl _

/-! ## Parts without a tag -/

/-- Something read from a document of depth `m` is written as one of depth `n`, and restored from
it with its leaves and candidates. -/
structure Rewritten (m n : Nat) (ls : List Leaf) (cs : List Candidates) : Prop where
  leaves : ∀ l ∈ ls, l.Suppliable
  candidates : ∀ c ∈ cs, c.hasOwnShape = true
  le_two : n ≤ 2
  flat : m = 0 → n = 0

/-- All that is read can be written. -/
def Rewrites {α : Type} (read : Json → Option α) (toJson : α → Json) (own : α → List Leaf)
    (candidates : α → List Candidates) : Prop :=
  ∀ j a, j.numbersFit = true → read j = some a →
    Rewritten j.depth (toJson a).depth (own a) (candidates a)

theorem depth_ne_zero_of_record? {names : List String} {j : Json} {fs : Fields}
    (h : record? names j = some fs) : j.depth ≠ 0 := by
  cases j with
  | array js => exact Nat.succ_ne_zero _
  | object gs => exact Nat.succ_ne_zero _
  | _ => cases h

/-- The fields of a record are values of the document. -/
theorem mem_of_record? {names : List String} {j : Json} {fs : Fields}
    (h : record? names j = some fs) {P : Json → Prop} (harray : ∀ js, j = .array js → ∀ i ∈ js, P i)
    (hobject : ∀ gs, j = .object gs → ∀ g ∈ gs, P g.2) : ∀ f ∈ fs, P f.2 := by
  cases j with
  | array js =>
    rw [record?] at h
    split at h
    · cases h
      exact fun f hf => harray js rfl f.2 (List.of_mem_zip hf).2
    · cases h
  | object gs =>
    rw [record?] at h
    split at h
    · cases h
      exact hobject fs rfl
    · cases h
  | _ => cases h

theorem fieldsFit_of_record? {names : List String} {j : Json} {fs : Fields}
    (hj : j.numbersFit = true) (h : record? names j = some fs) : Json.fieldsFit fs = true := by
  rw [Json.fieldsFit_iff]
  refine mem_of_record? h (P := fun i => i.numbersFit = true) ?_ ?_
  · rintro js rfl
    exact Json.itemsFit_iff.1 hj
  · rintro gs rfl
    exact Json.fieldsFit_iff.1 hj

theorem depthFields_of_record? {names : List String} {j : Json} {fs : Fields} {n : Nat}
    (hj : j.depth ≤ n + 1) (h : record? names j = some fs) : Json.depthFields fs ≤ n := by
  rw [Json.depthFields_le_iff]
  refine mem_of_record? h (P := fun i => i.depth ≤ n) ?_ ?_
  · rintro js rfl
    rw [Json.depth, Nat.add_le_add_iff_right] at hj
    exact Json.depthItems_le_iff.1 hj
  · rintro gs rfl
    rw [Json.depth, Nat.add_le_add_iff_right] at hj
    exact Json.depthFields_le_iff.1 hj

section Fields

variable {fs : Fields} {name : String} {α : Type} {read : Json → Option α} {a : α}

/-- A field is read from a value of the record. -/
theorem exists_of_required (hfs : Json.fieldsFit fs = true) (h : required fs name read = some a) :
    ∃ j, j.numbersFit = true ∧ j.depth ≤ Json.depthFields fs ∧ read j = some a := by
  obtain ⟨j, hj, ha⟩ := Option.bind_eq_some_iff.1 h
  have hmem := Json.mem_of_lookup hj
  exact ⟨j, Json.fieldsFit_iff.1 hfs _ hmem, Json.depthFields_le_iff.1 (Nat.le_refl _) _ hmem, ha⟩

theorem exists_of_optional {default : α} (hfs : Json.fieldsFit fs = true)
    (h : optional fs name default read = some a) :
    a = default ∨
      ∃ j, j.numbersFit = true ∧ j.depth ≤ Json.depthFields fs ∧ read j = some a := by
  rw [Document.optional] at h
  split at h
  · cases h
    exact Or.inl rfl
  · next j hj =>
    have hrequired : required fs name read = some a := by
      rw [required, hj]
      exact h
    exact Or.inr (exists_of_required hfs hrequired)

end Fields

theorem Rewritten.mono {m m' n : Nat} {ls : List Leaf} {cs : List Candidates}
    (h : Rewritten m n ls cs) (hm : m ≤ m') : Rewritten m' n ls cs :=
  ⟨h.leaves, h.candidates, h.le_two, fun hzero => h.flat (Nat.le_zero.1 (hzero ▸ hm))⟩

theorem Raw.rewritten {j : Json} {r : Raw} (hj : j.numbersFit = true) (h : ofJson? j = some r) :
    Rewritten j.depth r.toJson.depth [.raw r] [] := by
  obtain ⟨fs, hfs, h⟩ := Option.bind_eq_some_iff.1 h
  obtain ⟨sql, -, h⟩ := Option.bind_eq_some_iff.1 h
  obtain ⟨bindings, hbindings, h⟩ := Option.bind_eq_some_iff.1 h
  cases h
  have hrestorable : ∀ v ∈ bindings, v.Restorable := by
    rcases exists_of_optional (fieldsFit_of_record? hj hfs) hbindings with rfl | ⟨i, hi, -, hread⟩
    · exact List.forall_mem_nil _
    · exact restorable_of_list? hi hread
  refine ⟨List.forall_mem_singleton.2 (Leaf.suppliable_of_forall hrestorable),
    List.forall_mem_nil _, ?_, fun hzero => absurd hzero (depth_ne_zero_of_record? hfs)⟩
  have hdepth := depth_valuesToJson hrestorable
  simp only [toJson, Json.depth, Json.depthFields]
  omega

/-- A choice whose first alternative is raw text. -/
theorem Rewrites.orElse {α : Type} {raw : Raw → α} {other : Json → Option α} {toJson : α → Json}
    {own : α → List Leaf} {candidates : α → List Candidates}
    (hraw : ∀ r, toJson (raw r) = r.toJson ∧ own (raw r) = [.raw r] ∧
      ∀ c ∈ candidates (raw r), c.hasOwnShape = true)
    (hother : ∀ j a, j.numbersFit = true → Raw.ofJson? j = none → other j = some a →
      Rewritten j.depth (toJson a).depth (own a) (candidates a)) :
    Rewrites (fun j => (Raw.ofJson? j).map raw <|> other j) toJson own candidates := by
  intro j a hj ha
  cases hr : Raw.ofJson? j with
  | none =>
    simp only [hr] at ha
    exact hother j a hj hr ha
  | some r =>
    simp only [hr] at ha
    cases ha
    obtain ⟨htoJson, hown, hcandidates⟩ := hraw r
    have hwritten := Raw.rewritten hj hr
    rw [htoJson, hown]
    exact ⟨hwritten.leaves, hcandidates, hwritten.le_two, hwritten.flat⟩

theorem depth_ne_zero_of_onlyField? {α : Type} {name : String} {read : Json → Option α} {j : Json}
    {a : α} (h : onlyField? name read j = some a) : j.depth ≠ 0 := by
  cases j with
  | object fs => exact Nat.succ_ne_zero _
  | _ => cases h

/-- A single value, which is written flat. -/
theorem rewritten_value {m n : Nat} {v : Value} (hv : v.Restorable) (hn : n = v.toJson.depth) :
    Rewritten m n [.value v] [] := by
  have hflat : n = 0 := hn.trans hv.depth_toJson
  exact ⟨List.forall_mem_singleton.2 (Leaf.suppliable_of_forall (List.forall_mem_singleton.2 hv)),
    List.forall_mem_nil _, hflat ▸ Nat.zero_le 2, fun _ => hflat⟩

theorem Operand.rewrites : Rewrites ofJson? toJson leaves fun _ => [] := by
  refine Rewrites.orElse (fun r => ⟨rfl, rfl, List.forall_mem_nil _⟩) fun j o hj _ ho => ?_
  rcases exists_or_of_orElse_map ho with ⟨name, hname, rfl⟩ | ⟨-, ho⟩
  · exact ⟨List.forall_mem_singleton.2 (Leaf.suppliable_name name), List.forall_mem_nil _,
      Nat.le_succ 1, fun hzero => absurd hzero (depth_ne_zero_of_onlyField? hname)⟩
  · obtain ⟨v, hv, rfl⟩ := Option.map_eq_some_iff.1 ho
    exact rewritten_value (Value.restorable_of_ofJson? hj hv) rfl

/-- An operand that is not given is written as null. -/
theorem Operand.rewritten_default (m : Nat) :
    Rewritten m (default : Operand).toJson.depth (default : Operand).leaves [] :=
  ⟨List.forall_mem_singleton.2 (List.forall_mem_singleton.2 trivial), List.forall_mem_nil _,
    Nat.zero_le 2, fun _ => rfl⟩

theorem suppliable_values {vs : List Value} (h : ∀ v ∈ vs, v.Restorable) :
    ∀ l ∈ vs.map Leaf.value, l.Suppliable := by
  rw [List.forall_mem_map]
  exact fun v hv => Leaf.suppliable_of_forall (List.forall_mem_singleton.2 (h v hv))

theorem depth_ne_zero_of_list? {α : Type} {read : Json → Option α} {j : Json} {as : List α}
    (h : list? read j = some as) : j.depth ≠ 0 := by
  cases j with
  | array js => exact Nat.succ_ne_zero _
  | _ => cases h

/-- A list that is neither raw text nor rows has a shape of its own. -/
theorem Candidates.hasOwnShape_list {j : Json} {vs : List Value} (hraw : Raw.ofJson? j = none)
    (hrows : list? (list? Value.ofJson?) j = none) (h : list? Value.ofJson? j = some vs) :
    (list vs).hasOwnShape = true := by
  cases j with
  | array js =>
    cases js with
    | nil => cases hrows
    | cons i js =>
      rw [list?, List.mapM_cons] at h
      obtain ⟨v, hv, h⟩ := Option.bind_eq_some_iff.1 h
      obtain ⟨ws, hws, h⟩ := Option.bind_eq_some_iff.1 h
      cases h
      cases v with
      | text s =>
        cases ws with
        | nil =>
          have hnil : js = [] := by
            cases js with
            | nil => rfl
            | cons k ks =>
              rw [List.mapM_cons] at hws
              obtain ⟨w, -, hws⟩ := Option.bind_eq_some_iff.1 hws
              obtain ⟨us, -, hws⟩ := Option.bind_eq_some_iff.1 hws
              cases hws
          -- A single text would have been raw text.
          rw [hnil, Value.eq_string_of_ofJson? hv] at hraw
          cases hraw
        | cons w ws => rfl
      | _ => rfl
  | _ => cases h

theorem Candidates.rewrites : Rewrites ofJson? toJson leaves fun c => [c] := by
  refine Rewrites.orElse (fun r => ⟨rfl, rfl, List.forall_mem_singleton.2 rfl⟩)
    fun j c hj hraw hc => ?_
  rcases exists_or_of_orElse_map hc with ⟨rs, hrs, rfl⟩ | ⟨hrows, hc⟩
  · have hrestorable : ∀ vs ∈ rs, ∀ v ∈ vs, v.Restorable :=
      forall_mem_of_list? (fun _ _ hi _ hvs => restorable_of_list? hi hvs) hj
        (Nat.le_succ j.depth) hrs
    refine ⟨suppliable_values ?_, List.forall_mem_singleton.2 rfl, ?_,
      fun hzero => absurd hzero (depth_ne_zero_of_list? hrs)⟩
    · intro v hv
      obtain ⟨vs, hvs, hv⟩ := List.mem_flatten.1 hv
      exact hrestorable vs hvs v hv
    · rw [toJson, Json.depth, Nat.add_le_add_iff_right, Json.depthItems_le_iff, List.forall_mem_map]
      exact fun vs hvs => depth_valuesToJson (hrestorable vs hvs)
  · obtain ⟨vs, hvs, rfl⟩ := Option.map_eq_some_iff.1 hc
    have hrestorable := restorable_of_list? hj hvs
    exact ⟨suppliable_values hrestorable,
      List.forall_mem_singleton.2 (hasOwnShape_list hraw hrows hvs),
      Nat.le_succ_of_le (depth_valuesToJson hrestorable),
      fun hzero => absurd hzero (depth_ne_zero_of_list? hvs)⟩

theorem JoinSource.rewrites (schema : Option String) :
    Rewrites ofJson? toJson (leaves schema) fun _ => [] := by
  refine Rewrites.orElse (fun r => ⟨rfl, rfl, List.forall_mem_nil _⟩) fun j s _ _ hs => ?_
  obtain ⟨table, -, rfl⟩ := Option.map_eq_some_iff.1 hs
  exact ⟨List.forall_mem_singleton.2 (Leaf.suppliable_name _), List.forall_mem_nil _,
    Nat.zero_le 2, fun _ => rfl⟩

theorem Limit.rewrites : Rewrites ofJson? toJson leaves fun _ => [] := by
  have hrest : Rewrites (fun j => (Raw.ofJson? j).map Limit.raw <|>
      (onlyField? "bind" Value.ofJson? j).map Limit.bound) toJson leaves fun _ => [] := by
    refine Rewrites.orElse (fun r => ⟨rfl, rfl, List.forall_mem_nil _⟩) fun j l hj _ hl => ?_
    obtain ⟨v, hv, rfl⟩ := Option.map_eq_some_iff.1 hl
    have hrestorable : v.Restorable := by
      cases j with
      | object fs =>
        rw [onlyField?] at hv
        split at hv
        · obtain ⟨i, hi, -, hv⟩ := exists_of_required hj hv
          exact Value.restorable_of_ofJson? hi hv
        · cases hv
      | _ => cases hv
    refine ⟨suppliable_values (List.forall_mem_singleton.2 hrestorable), List.forall_mem_nil _, ?_,
      fun hzero => absurd hzero (depth_ne_zero_of_onlyField? hv)⟩
    simp [toJson, Json.depth, Json.depthFields, hrestorable.depth_toJson]
  intro j l hj hl
  rcases exists_or_of_orElse_map hl with ⟨n, hn, rfl⟩ | ⟨-, hl⟩
  · exact ⟨List.forall_mem_nil _, List.forall_mem_nil _, Nat.zero_le 2, fun _ => rfl⟩
  · exact hrest j l hj hl

theorem Columns.depth_toJson {j : Json} {c : Columns} (h : ofJson? j = some c) :
    c.toJson.depth ≤ 1 ∧ (j.depth = 0 → c.toJson.depth = 0) := by
  rcases exists_or_of_orElse_map h with ⟨name, -, rfl⟩ | ⟨-, h⟩
  · exact ⟨Nat.zero_le 1, fun _ => rfl⟩
  · obtain ⟨names, hnames, rfl⟩ := Option.map_eq_some_iff.1 h
    exact ⟨depth_namesToJson names, fun hzero => absurd hzero (depth_ne_zero_of_list? hnames)⟩

/-! ## Tests -/

section Tests

variable {fs : Fields} {m : Nat}

/-- What is read from a field is written as it would be read by itself. -/
theorem Rewrites.at_required {α : Type} {read : Json → Option α} {toJson : α → Json}
    {own : α → List Leaf} {candidates : α → List Candidates}
    (hread : Rewrites read toJson own candidates) (hfs : Json.fieldsFit fs = true) {name : String}
    {a : α} (ha : required fs name read = some a) :
    Rewritten (Json.depthFields fs) (toJson a).depth (own a) (candidates a) := by
  obtain ⟨j, hj, hdepth, ha⟩ := exists_of_required hfs ha
  exact (hread j a hj ha).mono hdepth

namespace Test

variable {t : Test}

theorem rewritten_basic? {operand? : Option Operand}
    (hoperand : ∀ o, operand? = some o → Rewritten m o.toJson.depth o.leaves [])
    (ht : basic? operand? fs = some t) :
    Rewritten m (Json.depthFields t.toFields) t.leaves t.candidates := by
  obtain ⟨column, -, ht⟩ := Option.bind_eq_some_iff.1 ht
  obtain ⟨operator, -, ht⟩ := Option.bind_eq_some_iff.1 ht
  obtain ⟨o, ho, ht⟩ := Option.bind_eq_some_iff.1 ht
  cases ht
  have hwritten := hoperand o ho
  have hdepth : Json.depthFields (basic column operator o).toFields = o.toJson.depth := by
    simp [toFields, Json.depthFields, Json.depth]
  rw [hdepth]
  exact ⟨List.forall_mem_cons.2 ⟨Leaf.suppliable_name column, hwritten.leaves⟩,
    List.forall_mem_nil _, hwritten.le_two, hwritten.flat⟩

theorem rewritten_isNull? (ht : isNull? fs = some t) :
    Rewritten m (Json.depthFields t.toFields) t.leaves t.candidates := by
  obtain ⟨column, -, ht⟩ := Option.bind_eq_some_iff.1 ht
  cases ht
  exact ⟨List.forall_mem_singleton.2 (Leaf.suppliable_name column), List.forall_mem_nil _,
    Nat.zero_le 2, fun _ => rfl⟩

variable (hfs : Json.fieldsFit fs = true)

include hfs

theorem rewritten_isIn? (ht : isIn? fs = some t) :
    Rewritten (Json.depthFields fs) (Json.depthFields t.toFields) t.leaves t.candidates := by
  obtain ⟨columns, hcolumns, ht⟩ := Option.bind_eq_some_iff.1 ht
  obtain ⟨candidates, hcandidates, ht⟩ := Option.bind_eq_some_iff.1 ht
  cases ht
  obtain ⟨j, -, hj, hcolumns⟩ := exists_of_required hfs hcolumns
  obtain ⟨hle, hflat⟩ := Columns.depth_toJson hcolumns
  have hwritten := Candidates.rewrites.at_required hfs hcandidates
  have hdepth : Json.depthFields (isIn columns candidates).toFields =
      max columns.toJson.depth candidates.toJson.depth := by
    simp [toFields, Json.depthFields]
  refine ⟨?_, hwritten.candidates, ?_, fun hzero => ?_⟩
  · rw [leaves]
    split
    · exact List.forall_mem_nil _
    · exact List.forall_mem_append.2 ⟨Leaf.suppliable_names columns.toList, hwritten.leaves⟩
  · rw [hdepth]
    exact Nat.max_le.2 ⟨Nat.le_succ_of_le hle, hwritten.le_two⟩
  · rw [hdepth, hflat (Nat.le_zero.1 (hzero ▸ hj)), hwritten.flat hzero]
    rfl

theorem rewritten_between? (ht : between? fs = some t) :
    Rewritten (Json.depthFields fs) (Json.depthFields t.toFields) t.leaves t.candidates := by
  obtain ⟨column, -, ht⟩ := Option.bind_eq_some_iff.1 ht
  obtain ⟨⟨low, high⟩, hbounds, ht⟩ := Option.bind_eq_some_iff.1 ht
  cases ht
  obtain ⟨j, hj, hdepth, hbounds⟩ := exists_of_required hfs hbounds
  have hlist : list? Value.ofJson? j = some [low, high] ∧ j.depth ≠ 0 := by
    rw [bounds?.eq_def] at hbounds
    split at hbounds
    · obtain ⟨l, hl, hbounds⟩ := Option.bind_eq_some_iff.1 hbounds
      obtain ⟨h, hh, hbounds⟩ := Option.bind_eq_some_iff.1 hbounds
      cases hbounds
      refine ⟨?_, Nat.succ_ne_zero _⟩
      rw [list?, List.mapM_cons, hl, List.mapM_cons, hh]
      rfl
    · cases hbounds
  have hrestorable := restorable_of_list? hj hlist.1
  have hwritten : Json.depthFields (between column low high).toFields ≤ 1 := by
    rw [Json.depthFields_le_iff]
    exact List.forall_mem_cons.2 ⟨Nat.zero_le 1,
      List.forall_mem_singleton.2 (depth_valuesToJson hrestorable)⟩
  refine ⟨List.forall_mem_cons.2 ⟨Leaf.suppliable_name column, suppliable_values hrestorable⟩,
    List.forall_mem_nil _, Nat.le_succ_of_le hwritten, fun hzero => ?_⟩
  exact absurd (Nat.le_zero.1 (hzero ▸ hdepth)) hlist.2

omit hfs in
/-- A test that is raw text, written as the only one of its fields. -/
theorem rewritten_raw {r : Raw} (hr : Rewritten m r.toJson.depth [.raw r] [])
    (hfields : t.toFields = [("value", r.toJson)]) (hleaves : t.leaves = [.raw r])
    (hcandidates : t.candidates = []) :
    Rewritten m (Json.depthFields t.toFields) t.leaves t.candidates := by
  have hdepth : Json.depthFields t.toFields = r.toJson.depth := by
    rw [hfields, Json.depthFields, Json.depthFields, Nat.max_zero]
  rw [hdepth, hleaves, hcandidates]
  exact hr

theorem rewritten_hasRows? (ht : hasRows? fs = some t) :
    Rewritten (Json.depthFields fs) (Json.depthFields t.toFields) t.leaves t.candidates := by
  obtain ⟨r, hr, ht⟩ := Option.bind_eq_some_iff.1 ht
  cases ht
  obtain ⟨j, hj, hdepth, hr⟩ := exists_of_required hfs hr
  exact rewritten_raw ((Raw.rewritten hj hr).mono hdepth) rfl rfl rfl

theorem rewritten_raw? (ht : raw? fs = some t) :
    Rewritten (Json.depthFields fs) (Json.depthFields t.toFields) t.leaves t.candidates := by
  obtain ⟨r, hr, ht⟩ := Option.bind_eq_some_iff.1 ht
  cases ht
  obtain ⟨j, hj, hdepth, hr⟩ := exists_of_required hfs hr
  exact rewritten_raw ((Raw.rewritten hj hr).mono hdepth) rfl rfl rfl

theorem rewritten_ofWhereTag? {tag : WhereTag} (ht : ofWhereTag? fs tag = some t) :
    Rewritten (Json.depthFields fs) (Json.depthFields t.toFields) t.leaves t.candidates := by
  cases tag with
  | basic =>
    refine rewritten_basic? (fun o ho => ?_) ht
    rcases exists_of_optional hfs ho with rfl | ⟨j, hj, hdepth, ho⟩
    · exact Operand.rewritten_default _
    · exact (Operand.rewrites j o hj ho).mono hdepth
  | null => exact rewritten_isNull? ht
  | isIn => exact rewritten_isIn? hfs ht
  | between => exact rewritten_between? hfs ht
  | hasRows => exact rewritten_hasRows? hfs ht
  | wrapped => cases ht
  | raw => exact rewritten_raw? hfs ht

end Test

theorem JoinTest.rewritten_ofTag? (hfs : Json.fieldsFit fs = true) {tag : JoinTag} {t : JoinTest}
    (ht : ofTag? fs tag = some t) :
    Rewritten (Json.depthFields fs) (Json.depthFields t.toFields) t.leaves t.candidates := by
  cases tag with
  | onBasic =>
    obtain ⟨first, -, ht⟩ := Option.bind_eq_some_iff.1 ht
    obtain ⟨operator, -, ht⟩ := Option.bind_eq_some_iff.1 ht
    obtain ⟨second, -, ht⟩ := Option.bind_eq_some_iff.1 ht
    cases ht
    exact ⟨Leaf.suppliable_names [first, second], List.forall_mem_nil _, Nat.zero_le 2,
      fun _ => rfl⟩
  | onVal =>
    obtain ⟨u, hu, rfl⟩ := Option.map_eq_some_iff.1 ht
    exact Test.rewritten_basic? (fun o ho => Operand.rewrites.at_required hfs ho) hu
  | onIn =>
    obtain ⟨u, hu, rfl⟩ := Option.map_eq_some_iff.1 ht
    exact Test.rewritten_isIn? hfs hu
  | onNull =>
    obtain ⟨u, hu, rfl⟩ := Option.map_eq_some_iff.1 ht
    exact Test.rewritten_isNull? hu
  | onRows =>
    obtain ⟨u, hu, rfl⟩ := Option.map_eq_some_iff.1 ht
    exact Test.rewritten_hasRows? hfs hu
  | onBetween =>
    obtain ⟨u, hu, rfl⟩ := Option.map_eq_some_iff.1 ht
    exact Test.rewritten_between? hfs hu
  | onWrapped => cases ht
  | onRaw =>
    obtain ⟨u, hu, rfl⟩ := Option.map_eq_some_iff.1 ht
    exact Test.rewritten_raw? hfs hu
  | onUsing =>
    obtain ⟨columns, hcolumns, ht⟩ := Option.bind_eq_some_iff.1 ht
    cases ht
    obtain ⟨j, -, hj, hcolumns⟩ := exists_of_required hfs hcolumns
    obtain ⟨hle, hflat⟩ := Columns.depth_toJson hcolumns
    have hdepth : Json.depthFields (usingColumns columns).toFields = columns.toJson.depth := by
      simp [toFields, Json.depthFields]
    refine ⟨Leaf.suppliable_names columns.toList, List.forall_mem_nil _, ?_, fun hzero => ?_⟩
    · exact hdepth ▸ Nat.le_succ_of_le hle
    · exact hdepth.trans (hflat (Nat.le_zero.1 (hzero ▸ hj)))

end Tests

end ClauseTree
