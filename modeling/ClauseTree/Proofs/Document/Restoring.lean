import ClauseTree.Proofs.Document.RawReading
import ClauseTree.Proofs.Json.RoundTrip

/-!
# Restoring the parts of clauses

A document restores an element if its text can be read again and reading it gives that element.
This is shown of the documents that elements are written as.

Values have no tag, so not all of them are restored: bytes come back as a list, a value that was
never supplied as the null, an unsigned integer as a signed one if it fits, and a double that is not
finite as the null. Candidates are told apart by their shape alone. An empty list passes for rows,
and a list of a single text for raw text.
-/

namespace ClauseTree

open Document

/-- The document can be printed, and `read` takes it for `x`. -/
structure Restores {α : Type} (read : Json → Option α) (j : Json) (x : α) : Prop where
  printable : j.printable = true
  read_eq : read j = some x

namespace Restores

variable {α β : Type} {read : Json → Option α} {j : Json} {x : α}

theorem string (s : String) : Restores string? (.string s) s := ⟨rfl, rfl⟩

theorem flag (b : Bool) : Restores flag? (.bool b) b := ⟨rfl, rfl⟩

/-- An alternative that is chosen first. -/
theorem orElse_left (h : Restores read j x) (f : α → β) (other : Json → Option β) :
    Restores (fun j => (read j).map f <|> other j) j (f x) := by
  refine ⟨h.printable, ?_⟩
  rw [h.read_eq]
  rfl

/-- An alternative that is chosen because the first one does not fit. -/
theorem orElse_right {other : Json → Option β} {y : β} (h : Restores other j y)
    (hread : read j = none) (f : α → β) :
    Restores (fun j => (read j).map f <|> other j) j y := by
  refine ⟨h.printable, ?_⟩
  rw [hread]
  exact h.read_eq

theorem map (h : Restores read j x) (f : α → β) : Restores (fun j => (read j).map f) j (f x) := by
  refine ⟨h.printable, ?_⟩
  rw [h.read_eq]
  rfl

theorem items {toJson : α → Json} {xs : List α} (h : ∀ x ∈ xs, Restores read (toJson x) x) :
    Restores (list? read) (.array (xs.map toJson)) xs := by
  constructor
  · rw [Json.printable, Json.itemsPrintable_iff, List.forall_mem_map]
    exact fun x hx => (h x hx).printable
  · rw [list?]
    induction xs with
    | nil => rfl
    | cons x xs ih =>
      rw [List.map_cons, List.mapM_cons, (h x List.mem_cons_self).read_eq,
        ih fun y hy => h y (List.mem_cons_of_mem x hy)]
      rfl

end Restores

/-! ## Values -/

/-- The value is written as a scalar of its own kind. -/
def Value.Restorable : Value → Prop
  | .null | .bool _ | .int _ | .text _ => True
  | .uint n => 2 ^ 63 ≤ n.toNat
  | .float x => x.isFinite = true
  | .blob _ | .undefined => False

instance : DecidablePred Value.Restorable
  | .null | .bool _ | .int _ | .text _ => .isTrue trivial
  | .uint n => inferInstanceAs (Decidable (2 ^ 63 ≤ n.toNat))
  | .float x => inferInstanceAs (Decidable (x.isFinite = true))
  | .blob _ | .undefined => .isFalse id

def Leaf.Restorable (l : Leaf) : Prop := ∀ v ∈ l.values, v.Restorable

instance (l : Leaf) : Decidable l.Restorable := List.decidableBAll _ l.values

variable {v : Value} {vs : List Value}

theorem Value.ofInt_toInt (n : Int64) : ofInt n.toInt = .int n := by
  have hback : Int64.ofInt n.toInt = n := Int64.ofInt_toInt n
  have hhigh : n.toInt < 2 ^ 63 := n.toInt_lt
  cases hn : n.toInt with
  | ofNat k =>
    rw [hn] at hback hhigh
    rw [ofInt, ofNat, if_pos (Int.ofNat_lt.1 hhigh), ← Int64.ofInt_eq_ofNat]
    exact congrArg Value.int hback
  | negSucc k =>
    rw [hn] at hback
    exact congrArg Value.int hback

theorem Value.restores (h : v.Restorable) : Restores Value.ofJson? v.toJson v := by
  cases v with
  | int n =>
    constructor
    · have hlow : -2 ^ 63 ≤ n.toInt := n.le_toInt
      have hhigh : n.toInt < 2 ^ 63 := n.toInt_lt
      rw [toJson, Json.printable, decide_eq_true hlow, decide_eq_true (by omega)]
      rfl
    · exact congrArg some (ofInt_toInt n)
  | uint n =>
    constructor
    · have hhigh : n.toNat < 2 ^ 64 := n.toNat_lt
      rw [toJson, Json.printable, decide_eq_true (by omega), decide_eq_true (by omega)]
      rfl
    · change some (ofNat n.toNat) = _
      have hge : ¬n.toNat < 2 ^ 63 := Nat.not_lt.2 h
      rw [ofNat, Nat.pow_eq, if_neg hge, UInt64.ofNat_toNat]
  | float x => exact ⟨h, rfl⟩
  | blob _ => exact h.elim
  | undefined => exact h.elim
  | _ => exact ⟨rfl, rfl⟩

theorem valuesRestore (h : ∀ v ∈ vs, v.Restorable) :
    Restores (list? Value.ofJson?) (valuesToJson vs) vs :=
  Restores.items fun v hv => Value.restores (h v hv)

/-! ## Raw text -/

variable {r : Raw}

theorem Raw.restores (h : ∀ v ∈ r.bindings, v.Restorable) : Restores Raw.ofJson? r.toJson r := by
  have hbindings := valuesRestore h
  constructor
  · rw [toJson, Json.printable, Json.fieldsPrintable_iff]
    simp [Json.printable, hbindings.printable]
  · have hfields : record? fieldNames r.toJson =
        some [("sql", .string r.sql), ("bindings", valuesToJson r.bindings)] := by
      simp [record?, toJson, distinct, fieldNames]
    rw [ofJson?, hfields]
    change (list? Value.ofJson? (valuesToJson r.bindings)).bind (fun bs => some ⟨r.sql, bs⟩) =
      some r
    rw [hbindings.read_eq]
    rfl

/-- An array is raw text only if a text stands first. -/
theorem Raw.ofJson?_array_cons {j : Json} (hj : string? j = none) (js : List Json) :
    Raw.ofJson? (.array (j :: js)) = none := by
  rw [Raw.ofJson?, record?]
  split
  · change (string? j).bind _ = none
    rw [hj]
    rfl
  · rfl

/-- Values that are restored make no raw text, except for a single text. -/
theorem Raw.ofJson?_valuesToJson (h : ∀ v ∈ vs, v.Restorable) (htext : ∀ s, vs ≠ [.text s]) :
    Raw.ofJson? (valuesToJson vs) = none := by
  have hkey : (valuesToJson vs).hasKey "sql" = false := by
    rw [valuesToJson, Json.hasKey, Json.itemsHaveKey_eq_false, List.forall_mem_map]
    intro v hv
    cases v with
    | blob _ => exact (h _ hv).elim
    | _ => rfl
  rw [Raw.ofJson?_eq_ofArray? hkey, valuesToJson]
  cases vs with
  | nil => rfl
  | cons v ws =>
    cases v with
    | text s =>
      cases ws with
      | nil => exact absurd rfl (htext s)
      | cons w ws =>
        have hw : w.Restorable := h w (List.mem_cons_of_mem _ List.mem_cons_self)
        cases w with
        | blob _ => exact hw.elim
        | _ => cases ws <;> rfl
    | blob _ => exact (h _ List.mem_cons_self).elim
    | _ => rfl

theorem Raw.ofJson?_value (h : v.Restorable) : Raw.ofJson? v.toJson = none := by
  cases v with
  | blob _ => exact h.elim
  | _ => rfl

/-! ## Parts without a tag -/

theorem Operand.restores {o : Operand} (h : ∀ l ∈ o.leaves, l.Restorable) :
    Restores Operand.ofJson? o.toJson o := by
  cases o with
  | raw r =>
    have hr := Raw.restores (h _ List.mem_cons_self)
    exact hr.orElse_left Operand.raw _
  | column name =>
    constructor
    · rfl
    · have hraw : Raw.ofJson? (Operand.column name).toJson = none := by
        simp [Raw.ofJson?, record?, required, toJson, distinct, Raw.fieldNames, List.lookup_cons]
      have hcolumn : onlyField? "column" string? (Operand.column name).toJson = some name := by
        simp [onlyField?, required, toJson, distinct, string?]
      rw [Operand.ofJson?, hraw, hcolumn]
      rfl
  | value v =>
    have hv : v.Restorable := h _ List.mem_cons_self v List.mem_cons_self
    have hraw : Raw.ofJson? v.toJson = none := Raw.ofJson?_value hv
    have hcolumn : onlyField? "column" string? v.toJson = none := by
      cases v <;> rfl
    have hvalue := (Value.restores hv).map Operand.value
    exact (hvalue.orElse_right hcolumn Operand.column).orElse_right hraw Operand.raw

/-- The candidates are told apart from other ones by their shape. -/
def Candidates.hasOwnShape : Candidates → Bool
  | .list [] | .list [.text _] => false
  | _ => true

theorem Candidates.restores {c : Candidates} (h : ∀ l ∈ c.leaves, l.Restorable)
    (hc : c.hasOwnShape = true) : Restores Candidates.ofJson? c.toJson c := by
  cases c with
  | raw r =>
    have hr := Raw.restores (h _ List.mem_cons_self)
    exact hr.orElse_left Candidates.raw _
  | rows rs =>
    have hvalue (row : List Value) (hrow : row ∈ rs) (v : Value) (hv : v ∈ row) : v.Restorable := by
      have hleaf : Leaf.value v ∈ (Candidates.rows rs).leaves :=
        List.mem_map.2 ⟨v, List.mem_flatten.2 ⟨row, hrow, hv⟩, rfl⟩
      exact h _ hleaf v List.mem_cons_self
    have hrows : Restores (list? (list? Value.ofJson?)) (.array (rs.map valuesToJson)) rs :=
      Restores.items fun row hrow => valuesRestore (hvalue row hrow)
    have hraw : Raw.ofJson? (.array (rs.map valuesToJson)) = none := by
      cases rs with
      | nil => rfl
      | cons row rs => exact Raw.ofJson?_array_cons rfl _
    exact (hrows.orElse_left Candidates.rows _).orElse_right hraw Candidates.raw
  | list vs =>
    have hvalue (v : Value) (hv : v ∈ vs) : v.Restorable :=
      h _ (List.mem_map.2 ⟨v, hv, rfl⟩) v List.mem_cons_self
    have hraw : Raw.ofJson? (valuesToJson vs) = none := by
      refine Raw.ofJson?_valuesToJson hvalue ?_
      rintro s rfl
      cases hc
    have hrows : list? (list? Value.ofJson?) (valuesToJson vs) = none := by
      cases vs with
      | nil => cases hc
      | cons v vs =>
        have hv : list? Value.ofJson? v.toJson = none := by
          have hrestorable := hvalue v List.mem_cons_self
          cases v with
          | blob _ => exact hrestorable.elim
          | _ => rfl
        rw [valuesToJson, list?, List.map_cons, List.mapM_cons, hv]
        rfl
    have hlist := (valuesRestore hvalue).map Candidates.list
    exact (hlist.orElse_right hrows Candidates.rows).orElse_right hraw Candidates.raw

theorem namesRestore (names : List String) : Restores (list? string?) (namesToJson names) names :=
  Restores.items fun name _ => Restores.string name

theorem Columns.restores (c : Columns) : Restores Columns.ofJson? c.toJson c := by
  cases c with
  | single name => exact (Restores.string name).orElse_left Columns.single _
  | multi names =>
    exact ((namesRestore names).map Columns.multi).orElse_right rfl Columns.single

theorem Connector.restores (r : Reading) (k : Connector) :
    Restores (Connector.ofJson? r) k.toJson k := by
  cases k with
  | and => exact ⟨rfl, rfl⟩
  | or => exact ⟨rfl, rfl⟩

end ClauseTree
