import ClauseTree.Proofs.Fragment.Agreement
import ClauseTree.Proofs.Fragment.Vocabulary
import ClauseTree.Proofs.Statement.Filling
import ClauseTree.Statement.Compile

/-!
# Inlined statements

A statement can be given its values in two ways: it is compiled with placeholders, which are
then filled, or it is compiled with the values written in their places. `inline_compile` says
that the two give the same text.

Filling finds the placeholders by a scan of the finished text, so this cannot hold of every
tree: a backslash in a quoted name hides the quote that closes it, and raw text may leave
quotes open or have a placeholder too many. `Leaf.LinesUp` excludes this for one leaf. It is
enough that it holds of the leaves that the statement reads.
-/

namespace ClauseTree

open Placeholder

/-- Raw text with its own values in the place of its placeholders. -/
def Raw.inlined (r : Raw) : List Char :=
  (inline? r.sql.toList r.bindings).getD r.sql.toList

/-- The writer that puts every value in its place. -/
def Dialect.inlineWriter (d : Dialect) : Writer where
  dialect := d
  value := Value.literalChars
  raw := Raw.inlined

/-- The raw text closes its quotes and has as many placeholders as values. -/
def Raw.LinesUp (r : Raw) : Prop :=
  State.outside.run r.sql.toList = .outside ∧ count .outside r.sql.toList = r.bindings.length

/-- The scan of a statement can pass the leaf: a name has no backslash, and raw text lines up. -/
def Leaf.LinesUp : Leaf → Prop
  | .name identifier => '\\' ∉ identifier.toList
  | .value _ => True
  | .raw r => r.LinesUp

instance (r : Raw) : Decidable r.LinesUp :=
  inferInstanceAs (Decidable (_ ∧ _))

instance (l : Leaf) : Decidable l.LinesUp :=
  match l with
  | .name identifier => inferInstanceAs (Decidable ('\\' ∉ identifier.toList))
  | .value _ => .isTrue trivial
  | .raw r => inferInstanceAs (Decidable r.LinesUp)

/-- What the scan asks of a dialect. -/
structure Dialect.Scanned (d : Dialect) : Prop where
  quote : isQuote d.quote = true
  placeholder : d.placeholder = "?"
  quoteSegment : d.quoteSegment = quoteBetween d.quote
  permits : ∀ operator, d.permits operator = true → Quiet operator.toList

namespace Dialect

theorem scanned_plain : plain.Scanned := by
  refine ⟨by decide, rfl, rfl, ?_⟩
  intro operator h
  have hquiet : ∀ t ∈ commonOperators, Quiet t.toList := by decide
  exact hquiet operator (by simpa [plain] using h)

theorem scanned_clickhouse : clickhouse.Scanned := by
  refine ⟨by decide, rfl, rfl, ?_⟩
  intro operator h
  have hquiet : ∀ t ∈ commonOperators ++ ["global in", "global not in"], Quiet t.toList := by
    decide
  exact hquiet operator (List.contains_iff_mem.1 h)

theorem Scanned.quiet_of_speaks {d : Dialect} (hd : d.Scanned) {t : String} (h : d.Speaks t) :
    Quiet t.toList := by
  rcases h with hmem | hpermits | ⟨n, rfl⟩
  · have hquiet : ∀ t ∈ vocabulary, Quiet t.toList := by decide
    exact hquiet t hmem
  · exact hd.permits t hpermits
  · rw [String.toList_ofList]
    exact quiet_toDigits n

end Dialect

/-! ## Literals and raw text -/

namespace Value

theorem integerLiteral_ne_nil (n : Int) : integerLiteral n ≠ [] := by
  rw [integerLiteral]
  split
  · exact List.cons_ne_nil _ _
  · exact Nat.toDigits_ne_nil

theorem write_literalLayout_ne_nil (x : Float) : literalLayout.write x ≠ [] := by
  have hnotation (ds : List Char) (k : Int) (hds : ds ≠ []) :
      Decimal.plainNotation false ds k ≠ [] := by
    rw [Decimal.plainNotation]
    split
    · simp [hds]
    · split
      · simp
      · exact List.cons_ne_nil _ _
  have hmagnitude (n : Decimal.Scaled) : literalLayout.magnitude n ≠ [] :=
    hnotation (Decimal.digits n.digits) n.exponent Nat.toDigits_ne_nil
  rw [Decimal.Layout.write]
  intro h
  exact hmagnitude _ (List.append_eq_nil_iff.1 h).2

theorem floatLiteral_ne_nil (x : Float) : floatLiteral x ≠ [] := by
  rw [floatLiteral]
  split
  · decide
  · split
    · split <;> decide
    · exact write_literalLayout_ne_nil x

/-- No literal is empty. -/
theorem literalChars_ne_nil (v : Value) : v.literalChars ≠ [] := by
  cases v with
  | null => decide
  | bool b => cases b <;> decide
  | int n => exact integerLiteral_ne_nil n.toInt
  | uint n => exact Nat.toDigits_ne_nil
  | float x => exact floatLiteral_ne_nil x
  | text s => exact List.cons_ne_nil _ _
  | blob bytes => exact List.cons_ne_nil _ _
  | undefined => decide

end Value

namespace Raw

/-- Raw text that lines up is filled with its own values. -/
theorem LinesUp.fills {r : Raw} (h : r.LinesUp) :
    Fills .outside r.sql.toList (r.bindings.map Value.literalChars) r.inlined .outside := by
  have hcount : count .outside r.sql.toList = (r.bindings.map Value.literalChars).length := by
    rw [List.length_map]
    exact h.2
  obtain ⟨out, hout⟩ := splice?_eq_some_of_count hcount
  refine ⟨h.1, ?_⟩
  rw [inlined, inline?, hout, Option.getD_some]

theorem LinesUp.inlined_eq_nil_iff {r : Raw} (h : r.LinesUp) :
    r.inlined = [] ↔ r.sql.toList = [] := by
  refine splice?_eq_nil_iff ?_ h.fills.splice
  intro hmem
  obtain ⟨v, -, hv⟩ := List.mem_map.1 hmem
  exact v.literalChars_ne_nil hv

end Raw

/-! ## Fragments -/

namespace Dialect.Scanned

variable {d : Dialect}

/-- Both writers leave the same leaves without text. -/
theorem agree (hd : d.Scanned) {ls : List Leaf} (h : ∀ l ∈ ls, l.LinesUp) :
    d.writer.Agree d.inlineWriter ls := by
  refine ⟨rfl, ?_, ?_⟩
  · intro v hv
    have hplaceholder : d.placeholder.toList ≠ [] := by
      rw [hd.placeholder]
      decide
    exact iff_of_false hplaceholder v.literalChars_ne_nil
  · intro r hr
    have hr : r.LinesUp := h _ hr
    exact hr.inlined_eq_nil_iff.symm

/-- A piece is filled with its own values. -/
theorem fills_piece (hd : d.Scanned) {p : Piece} (hword : ∀ t, p = .word t → d.Speaks t)
    (hleaf : ∀ l, p.leaf? = some l → l.LinesUp) :
    Fills .outside (p.chars d.writer) (p.bindings.map Value.literalChars)
      (p.chars d.inlineWriter) .outside := by
  cases p with
  | word t => exact (hd.quiet_of_speaks (hword t rfl)).fills
  | name n => exact fills_identifier hd.quoteSegment hd.quote (hleaf _ rfl)
  | value v =>
    have hmark : d.placeholder.toList = ['?'] := by
      rw [hd.placeholder]
      decide
    have hout : Piece.chars d.inlineWriter (.value v) = v.literalChars ++ [] :=
      (List.append_nil _).symm
    rw [hout]
    change Fills .outside d.placeholder.toList [v.literalChars] _ .outside
    rw [hmark]
    exact Fills.cons_placeholder (by decide) (Fills.nil .outside)
  | raw r =>
    have hr : r.LinesUp := hleaf _ rfl
    exact hr.fills

/-- A fragment is filled with its own values, piece by piece. -/
theorem fills_fragment (hd : d.Scanned) {f : Fragment} (hwords : Fragment.Spoken d f)
    (hleaves : ∀ l ∈ Fragment.leaves f, l.LinesUp) :
    Fills .outside (Fragment.chars d.writer f) ((Fragment.bindings f).map Value.literalChars)
      (Fragment.chars d.inlineWriter f) .outside := by
  induction f with
  | nil => exact Fills.nil .outside
  | cons p f ih =>
    have hp := hd.fills_piece (p := p)
      (fun t ht => hwords t (ht ▸ List.mem_cons_self))
      (fun l hl => hleaves l (List.mem_filterMap.2 ⟨p, List.mem_cons_self, hl⟩))
    have hf := ih (fun t ht => hwords t (List.mem_cons_of_mem p ht)) (fun l hl => by
      rw [← List.singleton_append, Fragment.leaves_append] at hleaves
      exact hleaves l (List.mem_append_right _ hl))
    rw [Fragment.bindings_cons, List.map_append]
    exact hp.append hf

/-- A fragment written with placeholders is inlined to the same fragment written with values. -/
theorem inline?_statement (hd : d.Scanned) {f : Fragment} (hwords : Fragment.Spoken d f)
    (hleaves : ∀ l ∈ Fragment.leaves f, l.LinesUp) (u : Bool) (as : List Advisory) :
    (f.statement d.writer u as).inline? = some (f.statement d.inlineWriter u as).sql := by
  have h := (hd.fills_fragment hwords hleaves).splice
  rw [Statement.inline?, inline?, Fragment.statement, Fragment.written, String.toList_ofList, h]
  rfl

theorem inline_compileSelect (hd : d.Scanned) {q : Query} (h : ∀ l ∈ q.selectLeaves, l.LinesUp)
    {s : Statement} (hs : d.compileSelect q = .ok s) :
    ∃ s', d.inlineWriter.compileSelect q = .ok s' ∧ s.inline? = some s'.sql := by
  obtain ⟨f, hf, hs⟩ := bind_eq_ok.1 hs
  cases hs
  have hleaves := Query.leaves_selectFragment hf
  have hwords := Query.spoken_selectFragment hf
  rw [Query.selectFragment_congr (hd.agree h)] at hf
  rw [Writer.compileSelect, hf]
  exact ⟨_, rfl, hd.inline?_statement hwords (hleaves ▸ h) _ _⟩

theorem inline_compileUpdate (hd : d.Scanned) {q : Query} (h : ∀ l ∈ q.updateLeaves, l.LinesUp)
    {s : Statement} (hs : d.compileUpdate q = .ok s) :
    ∃ s', d.inlineWriter.compileUpdate q = .ok s' ∧ s.inline? = some s'.sql := by
  obtain ⟨f, hf, hs⟩ := bind_eq_ok.1 hs
  cases hs
  have hleaves := Query.leaves_updateFragment hf
  have hwords := Query.spoken_updateFragment hf
  rw [Query.updateFragment_congr (hd.agree h)] at hf
  rw [Writer.compileUpdate, hf]
  exact ⟨_, rfl, hd.inline?_statement hwords (hleaves ▸ h) _ _⟩

end Dialect.Scanned

namespace Statement

/-- In the two dialects, a statement whose leaves the scan can pass is inlined to the text that
is written with the values in their places. -/
theorem inline_compile {d : Dialect} (hd : d = .clickhouse ∨ d = .plain) (q : Query) :
    ((∀ l ∈ q.selectLeaves, l.LinesUp) → ∀ s, d.compileSelect q = .ok s →
      ∃ s', d.inlineWriter.compileSelect q = .ok s' ∧ s.inline? = some s'.sql) ∧
    ((∀ l ∈ q.updateLeaves, l.LinesUp) → ∀ s, d.compileUpdate q = .ok s →
      ∃ s', d.inlineWriter.compileUpdate q = .ok s' ∧ s.inline? = some s'.sql) := by
  have hscanned : d.Scanned := by
    rcases hd with rfl | rfl
    · exact Dialect.scanned_clickhouse
    · exact Dialect.scanned_plain
  constructor
  · intro hleaves s hs
    exact hscanned.inline_compileSelect hleaves hs
  · intro hleaves s hs
    exact hscanned.inline_compileUpdate hleaves hs

/-- A query with question marks that are not placeholders, in a name and in quoted raw text. -/
def questioned : Query where
  table := some "t"
  columns := ["what`s up?"]
  categories := {
    arrayJoins := [
      { source := .raw ⟨"(select '?', ? as day)", [.text "it's ?"]⟩, kind := .left
        conditions := [.ofMembers [.ofMembers [.ofTest (.on (.raw ⟨"", []⟩))],
          .ofTest (.on (.isIn (.single "day") (.list [.int 1, .null])))]] }]
    filter := [.ofTest (.raw ⟨"x = '\\'?' or x = ?", [.text "?"]⟩)] }
  update := [⟨"x", .value (.bool true)⟩]

theorem inline_compile_questioned :
    ∃ s t, Dialect.clickhouse.compileSelect questioned = .ok s ∧
      Dialect.clickhouse.compileUpdate questioned = .ok t ∧
      s.inline? = some ("select `what``s up?` from `t` left join " ++
        "(select '?', 'it\\'s ?' as day) on (`day` in (1, NULL)) where x = '\\'?' or x = '?'") ∧
      t.inline? = some ("update `t` left join (select '?', 'it\\'s ?' as day) " ++
        "on (`day` in (1, NULL)) set `x` = true where x = '\\'?' or x = '?'") := by
  let sqlOf (r : Except CompileError Statement) : Option String := r.toOption.map Statement.sql
  obtain ⟨s, hs⟩ : ∃ s, Dialect.clickhouse.compileSelect questioned = .ok s := ⟨_, rfl⟩
  obtain ⟨t, ht⟩ : ∃ t, Dialect.clickhouse.compileUpdate questioned = .ok t := ⟨_, rfl⟩
  obtain ⟨hselect, hupdate⟩ := inline_compile (Or.inl rfl) questioned
  obtain ⟨s', hs', hsql⟩ := hselect (by decide) s hs
  obtain ⟨t', ht', htsql⟩ := hupdate (by decide) t ht
  have hstext : some s'.sql = sqlOf (Dialect.clickhouse.inlineWriter.compileSelect questioned) :=
    congrArg sqlOf hs'.symm
  have httext : some t'.sql = sqlOf (Dialect.clickhouse.inlineWriter.compileUpdate questioned) :=
    congrArg sqlOf ht'.symm
  refine ⟨s, t, hs, ht, (hsql.trans hstext).trans ?_, (htsql.trans httext).trans ?_⟩
  · decide +kernel
  · decide +kernel

end Statement

end ClauseTree
