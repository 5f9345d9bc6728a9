import ClauseTree.Proofs.Statement.Reloading

/-!
# Statements as JSON

What is shown of a statement is a text, and whoever reads it gets the values back from their JSON
alone. A value has no tag there, so it comes back as the first kind of value that its JSON fits.
For some values this is another kind: bytes, an unsigned integer that a signed one equals, and a
value that was never supplied. `Value.Restorable` holds of the others. The values of a document
are of these, except for those that were never supplied, and the strict check refuses a statement
with such a value. So every value of a statement that is shown comes back as it was.

Integers are kept from the text of the document to the text that is shown: within the range of
64-bit words, the digits that are read are the digits that are written. Doubles come back because a
decimal is read as the nearest one; the other values do not depend on it.
-/

namespace ClauseTree

open Document

/-! ## Integers -/

theorem Json.toString_eq_integer (n : Int) :
    toString n = String.ofList (Printer.integer n) := by
  cases n with
  | ofNat k => rfl
  | negSucc k =>
    have hsign : "-" = String.ofList ['-'] := rfl
    change "-" ++ String.ofList (Nat.toDigits 10 (k + 1)) = _
    rw [hsign, ← String.ofList_append, Printer.integer, if_pos (by omega)]
    rfl

namespace Value

variable {n : Int}

/-- The kind of an integer is decided by its size. -/
theorem ofInt_eq_ite (n : Int) :
    ofInt n = if n < 2 ^ 63 then .int (Int64.ofInt n) else .uint (UInt64.ofNat n.toNat) := by
  cases n with
  | negSucc k =>
    rw [if_pos (by omega)]
    rfl
  | ofNat k =>
    have hsize : Int.ofNat k < 2 ^ 63 ↔ k < 2 ^ 63 := Int.ofNat_lt
    rw [ofInt, ofNat, Nat.pow_eq]
    simp only [hsize]
    rfl

theorem toJson_ofInt (hlow : -2 ^ 63 ≤ n) (hhigh : n < 2 ^ 64) : (ofInt n).toJson = .int n := by
  rw [ofInt_eq_ite]
  split
  · next hn => rw [toJson, Int64.toInt_ofInt_of_le hlow hn]
  · next hn =>
    have hnat : (UInt64.ofNat n.toNat).toNat = n.toNat := by
      rw [UInt64.toNat_ofNat']
      omega
    rw [toJson, hnat]
    congr 1
    omega

/-- An integer is read from its decimal digits. -/
theorem parse?_toString (hlow : -2 ^ 63 ≤ n) (hhigh : n < 2 ^ 64) :
    FromDocument.parse? (toString n) = some (ofInt n) := by
  have hprintable : (Json.int n).printable = true := by
    rw [Json.printable, decide_eq_true hlow, decide_eq_true hhigh, Bool.and_self]
  have hcompact : (Json.int n).compact = toString n := by
    rw [Json.toString_eq_integer, Json.compact]
    rfl
  have hparse := Json.parse_compact hprintable
  rw [hcompact] at hparse
  rw [FromDocument.parse?, hparse]
  rfl

end Value

/-! ## Bindings -/

theorem Value.supplied_eq_self {v : Value} (hv : v ≠ .undefined) : v.supplied = v := by
  cases v with
  | undefined => exact absurd rfl hv
  | _ => rfl

/-- A value that was read from a document is restored, unless it was never supplied. -/
theorem Leaf.Suppliable.restorable {l : Leaf} (h : l.Suppliable) {v : Value} (hl : v ∈ l.values)
    (hv : v ≠ .undefined) : v.Restorable := by
  rw [Suppliable, Restorable, values_mapValues, List.forall_mem_map] at h
  rw [← Value.supplied_eq_self hv]
  exact h v hl

/-- What is compiled is bound to values of its tree. -/
theorem Dialect.exists_leaf_of_mem_bindings {d : Dialect} {kind : StatementKind} {q : Query}
    {s : Statement} (h : d.compile kind q = .ok s) {v : Value} (hv : v ∈ s.bindings) :
    ∃ l ∈ q.leaves, v ∈ l.values := by
  cases kind with
  | select =>
    obtain ⟨-, -, -, -, -, -, hbindings, -⟩ := compileSelect_cases h
    rw [hbindings, ← Query.values_selectLeaves] at hv
    obtain ⟨l, hl, hv⟩ := List.mem_flatMap.1 hv
    exact ⟨l, Query.mem_leaves_of_mem_selectLeaves hl, hv⟩
  | update =>
    obtain ⟨-, -, -, hbindings, -⟩ := compileUpdate_cases h
    rw [hbindings, ← Query.values_updateLeaves] at hv
    obtain ⟨l, hl, hv⟩ := List.mem_flatMap.1 hv
    exact ⟨l, Query.mem_leaves_of_mem_updateLeaves hl, hv⟩

namespace Statement

/-- The strict check leaves no value that would come back as another one. -/
theorem restorable_of_compileDocument {text : String} {kind : StatementKind} {s : Statement}
    (h : compileDocument text kind true = .ok s) : ∀ v ∈ s.bindings, v.Restorable := by
  obtain ⟨q, s', hq, hs', hcheck⟩ := compileDocument_eq_ok_iff.1 h
  obtain ⟨rfl, hdefined⟩ :=
    (ensureDefined_eq_ok_iff (Dialect.undefined_mem_bindings hs')).1 hcheck
  obtain ⟨hleaves, -, -⟩ := Query.rewritten_of_parse hq
  intro v hv
  obtain ⟨l, hl, hvalue⟩ := Dialect.exists_leaf_of_mem_bindings hs' hv
  have hne : v ≠ .undefined := fun heq => hdefined (heq ▸ hv)
  exact (hleaves l hl).restorable hvalue hne

/-! ## The text that is shown -/

variable {s : Statement}

theorem printable_toJson (h : ∀ v ∈ s.bindings, v.Restorable) : s.toJson.printable = true := by
  have hadvisories : (Json.array (s.advisories.map Advisory.toJson)).printable = true := by
    rw [Json.printable, Json.itemsPrintable_iff, List.forall_mem_map]
    rintro ⟨dialect⟩ -
    rfl
  rw [toJson, Json.printable, Json.fieldsPrintable_iff]
  simp only [List.forall_mem_cons]
  exact ⟨rfl, (valuesRestore h).printable, rfl, hadvisories, List.forall_mem_nil _⟩

theorem readable_toJson (h : ∀ v ∈ s.bindings, v.Restorable) : s.toJson.readable = true := by
  have hadvisories : (Json.array (s.advisories.map Advisory.toJson)).depth ≤ 2 := by
    rw [Json.depth, Nat.add_le_add_iff_right, Json.depthItems_le_iff, List.forall_mem_map]
    rintro ⟨dialect⟩ -
    exact Nat.le_refl _
  have hbindings : (valuesToJson s.bindings).depth ≤ 2 :=
    (depth_valuesToJson h).trans (by decide)
  have hdepth : s.toJson.depth ≤ 3 := by
    rw [toJson, Json.depth, Nat.add_le_add_iff_right, Json.depthFields_le_iff]
    simp only [List.forall_mem_cons]
    exact ⟨Nat.zero_le _, hbindings, Nat.zero_le _, hadvisories, List.forall_mem_nil _⟩
  rw [Json.readable, Bool.and_eq_true, decide_eq_true_eq]
  exact ⟨Json.hasContent_of_printable _ (printable_toJson h), hdepth.trans (by decide)⟩

/-- A statement that passes the strict check is shown as an object from which its text and its
values are read back, each value as the kind it was. An integer comes with the digits it was
written with, and is the value that is bound for the word that equals it. -/
theorem parse_render :
    (∀ text kind s, compileDocument text kind true = .ok s →
      ∃ out fs, s.render false = .ok out ∧ Json.parse out = some (.object fs) ∧
        (Json.object fs).readable = true ∧ distinct ["sql", "bindings"] fs = true ∧
        required fs "sql" string? = some s.sql ∧
        required fs "bindings" (list? Value.ofJson?) = some s.bindings) ∧
    ∀ n : Int, -2 ^ 63 ≤ n → n < 2 ^ 64 →
      ∃ v : Value, FromDocument.parse? (toString n) = some v ∧ Value.ofJson? (.int n) = some v ∧
        v = (if n < 2 ^ 63 then .int (Int64.ofInt n) else .uint (UInt64.ofNat n.toNat)) ∧
        (∀ m : Int64, m.toInt = n → v = toValue m) ∧
        (∀ m : UInt64, m.toNat = n → v = toValue m) ∧
        v.toJson.compact = toString n ∧
        ∀ depth, String.ofList (Json.Printer.prettyChars depth v.toJson) = toString n := by
  constructor
  · intro text kind s h
    have hrestorable := restorable_of_compileDocument h
    exact ⟨_, _, rfl, Json.parse_pretty (printable_toJson hrestorable),
      readable_toJson hrestorable, rfl, rfl, (valuesRestore hrestorable).read_eq⟩
  · intro n hlow hhigh
    have hjson := Value.toJson_ofInt hlow hhigh
    refine ⟨Value.ofInt n, Value.parse?_toString hlow hhigh, rfl, Value.ofInt_eq_ite n, ?_, ?_, ?_,
      fun depth => ?_⟩
    · rintro m rfl
      exact Value.ofInt_toInt m
    · rintro m rfl
      rfl
    · rw [hjson, Json.toString_eq_integer]
      rfl
    · rw [hjson, Json.toString_eq_integer]
      rfl

/-- A document with integers at both ends of both ranges, in rows, in raw text and in the limit. -/
def bordering : String :=
  "\x7b\"table\":\"t\",\"where\":[" ++
    "\x7b\"type\":\"in\",\"column\":[\"x\",\"y\"],\"value\":" ++
      "[[-9223372036854775808,9223372036854775807],[9223372036854775808,\"\\n\"]]\x7d," ++
    "\x7b\"type\":\"raw\",\"value\":[\"f(?)\",[18446744073709551615]]\x7d]," ++
    "\"limit\":\x7b\"bind\":0\x7d\x7d"

/-- The values of the document, each of the kind that is bound for it. -/
def borders : List Value :=
  [.int (-9223372036854775808), .int 9223372036854775807, .uint 9223372036854775808, .text "\n",
    .uint 18446744073709551615, .int 0]

theorem parse_render_bordering :
    ∃ s out fs, compileDocument bordering .select true = .ok s ∧ (s.bindings == borders) = true ∧
      s.render false = .ok out ∧ Json.parse out = some (.object fs) ∧
      required fs "sql" string? = some s.sql ∧
      required fs "bindings" (list? Value.ofJson?) = some s.bindings ∧
      ∃ v : Value, FromDocument.parse? (toString (2 ^ 63 : Int)) = some v ∧
        v = .uint 9223372036854775808 ∧ v = toValue (9223372036854775808 : UInt64) ∧
        v.toJson.compact = toString (2 ^ 63 : Int) := by
  obtain ⟨hrender, hinteger⟩ := parse_render
  have hcompiled : (compileDocument bordering .select true).toOption.map
      (fun s => s.bindings == borders) = some true := by
    decide +kernel
  obtain ⟨s, hs, hbindings⟩ := Option.map_eq_some_iff.1 hcompiled
  have hstrict : compileDocument bordering .select true = .ok s := by
    cases hresult : compileDocument bordering .select true with
    | error e =>
      rw [hresult] at hs
      cases hs
    | ok t =>
      rw [hresult] at hs
      exact congrArg Except.ok (Option.some.inj hs)
  obtain ⟨out, fs, hout, hparse, -, -, hsql, hvalues⟩ := hrender _ _ s hstrict
  obtain ⟨v, hread, -, hkind, -, hword, hcompact, -⟩ :=
    hinteger (2 ^ 63) (by decide) (by decide)
  exact ⟨s, out, fs, hstrict, hbindings, hout, hparse, hsql, hvalues, v, hread, hkind,
    hword _ (by decide), hcompact⟩

end Statement

end ClauseTree
