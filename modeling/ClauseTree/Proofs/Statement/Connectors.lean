import ClauseTree.Proofs.Fragment.Places
import ClauseTree.Proofs.Statement.Translation

/-!
# Connectors

The text of a list of conditions should never end in a bare word: the keyword of a group stands
before a text, a connector between two. `compile_connected` says when that is so. The text is that
of the conditions that have text, with the introducing word and connectors between them,
exactly if no test without text takes a place in a chain. Of the tests of a group only empty raw
text has none, of those of a join also a list of shared columns without a column.

Both directions come from one comparison: the text is the one that it should be, or longer.
-/

namespace ClauseTree

open Condition

/-! ## Texts that are longer than they should be -/

/-- A text after a blank, unless it is empty. -/
def afterBlank (t : String) : String := if t = "" then "" else " " ++ t

theorem length_afterBlank (t : String) :
    (afterBlank t).length = if t.length = 0 then 0 else t.length + 1 := by
  have hblank : " ".length = 1 := rfl
  by_cases ht : t = ""
  · simp [afterBlank, ht]
  · simp [afterBlank, ht, hblank, Nat.add_comm]

theorem length_afterBlank_lt_iff (u t : String) :
    (afterBlank u).length < (afterBlank t).length ↔ u.length < t.length := by
  rw [length_afterBlank, length_afterBlank]
  split <;> split <;> omega

theorem afterBlank_inj {u t : String} : afterBlank u = afterBlank t ↔ u = t := by
  refine ⟨fun h => ?_, congrArg afterBlank⟩
  by_cases hu : u = "" <;> by_cases ht : t = "" <;> simp_all [afterBlank]

/-- The text `t` is the text `u`, or, without `exact`, a longer one. -/
structure Within (exact : Bool) (u t : String) : Prop where
  eq_of_exact : exact = true → u = t
  length_lt : exact = false → u.length < t.length

namespace Within

variable {exact exact' : Bool} {u u' t t' : String}

theorem refl (u : String) : Within true u u := ⟨fun _ => rfl, fun h => Bool.noConfusion h⟩

theorem length_le (h : Within exact u t) : u.length ≤ t.length := by
  cases exact with
  | true => exact Nat.le_of_eq (congrArg String.length (h.eq_of_exact rfl))
  | false => exact Nat.le_of_lt (h.length_lt rfl)

theorem eq_iff (h : Within exact u t) : t = u ↔ exact = true := by
  constructor
  · intro heq
    cases exact with
    | true => rfl
    | false => exact absurd (h.length_lt rfl) (by rw [heq]; exact Nat.lt_irrefl _)
  · intro hexact
    exact (h.eq_of_exact hexact).symm

theorem append (h : Within exact u t) (h' : Within exact' u' t') :
    Within (exact && exact') (u ++ u') (t ++ t') where
  eq_of_exact hexact := by
    rw [Bool.and_eq_true] at hexact
    rw [h.eq_of_exact hexact.1, h'.eq_of_exact hexact.2]
  length_lt hexact := by
    rw [String.length_append, String.length_append]
    rcases (Bool.and_eq_false_iff).1 hexact with hexact | hexact
    · exact Nat.add_lt_add_of_lt_of_le (h.length_lt hexact) h'.length_le
    · exact Nat.add_lt_add_of_le_of_lt h.length_le (h'.length_lt hexact)

/-- A blank before the texts that are not empty does not change which of them is longer. -/
theorem afterBlank_iff :
    Within exact (afterBlank u) (afterBlank t) ↔ Within exact u t := by
  have hlength := length_afterBlank_lt_iff u t
  constructor
  · intro h
    exact ⟨fun hexact => afterBlank_inj.1 (h.eq_of_exact hexact),
      fun hexact => hlength.1 (h.length_lt hexact)⟩
  · intro h
    exact ⟨fun hexact => afterBlank_inj.2 (h.eq_of_exact hexact),
      fun hexact => hlength.2 (h.length_lt hexact)⟩

end Within

theorem spacedAfterText_eq (ts : List String) :
    spacedAfterText ts = afterBlank (spacedText ts) := by
  induction ts with
  | nil => rfl
  | cons t ts ih =>
    rw [spacedAfterText_cons, afterBlank]
    by_cases ht : t = ""
    · rw [if_pos ht, ht, spacedText_cons_empty, String.empty_append, ih, afterBlank]
    · rw [if_neg ht, spacedText_cons ht, if_neg (by simp [ht]), String.append_assoc]

namespace Condition

variable {α : Type} {w : Writer} {text : Bool → α → List Char} {blank : Bool → α → Bool}
  {inner : Bool}

open Member

/-- Without a gap the chain is the one that there should be, and with one it is longer. -/
theorem Tracks.within {cs : List (Condition α)} {ms : List (Member α)}
    (h : Tracks w text blank inner cs ms) {opening : Condition α → Fragment}
    (hopening : ∀ c, Fragment.chars w (opening c) ≠ [])
    (hlength : ∀ c c', (Fragment.chars w (opening c)).length <
      (Fragment.chars w (opening c')).length + 4) :
    Within (gaplessAll blank inner true cs)
      (String.ofList (introduced (fun c => Fragment.chars w (opening c)) (kept text cs)))
      (Fragment.written w (chain opening ms)) := by
  have hshorter := h.shorter true
  rw [Fragment.written, chars_chain h.silent]
  constructor
  · intro hexact
    rw [hshorter.eq_of_exact hexact, shown_true]
  · intro hexact
    rw [String.length_ofList, String.length_ofList]
    exact hshorter.length_introduced_lt hopening hlength hexact

end Condition

/-! ## Tests without text -/

/-- The test is written as nothing: empty raw text without a negation before it. -/
def Test.isBlank (negated : Bool) : Test → Bool
  | .raw r => !negated && r.sql.isEmpty
  | _ => false

theorem Test.isBlank_iff {d : Dialect} {n : Bool} {t : Test} {f : Fragment}
    (h : t.fragment d n = .ok f) : t.isBlank n = true ↔ Fragment.chars d.writer f = [] := by
  rw [← Fragment.isEmptyBy_iff]
  by_cases hraw : ∃ r, t = .raw r
  · obtain ⟨r, rfl⟩ := hraw
    cases h
    cases n <;> simp [isBlank, Fragment.isEmptyBy, negation, Piece.chars, Dialect.writer]
  · have hempty := Test.isEmptyBy_fragment h fun r hr => absurd ⟨r, hr⟩ hraw
    rw [hempty]
    cases t <;> simp_all [isBlank]

/-- The test is written as nothing: empty raw text, or a list of shared columns in which there is
no column, or a single one that the dialect has no text for. -/
def JoinTest.isBlank (d : Dialect) (negated : Bool) : JoinTest → Bool
  | .pair _ _ _ => false
  | .usingColumns columns =>
    match columns.toList with
    | [] => true
    | [name] => (d.wrap name).isEmpty
    | _ => false
  | .on t => t.isBlank negated

theorem JoinTest.isBlank_iff {d : Dialect} {n : Bool} {t : JoinTest} {f : Fragment}
    (h : t.fragment d n = .ok f) : t.isBlank d n = true ↔ Fragment.chars d.writer f = [] := by
  cases t with
  | pair first operator second =>
    rw [← Fragment.isEmptyBy_iff]
    obtain ⟨op, -, h⟩ := bind_eq_ok.1 h
    cases h
    have hempty := Fragment.isEmptyBy_of_mem (w := d.writer) (t := " ") (by decide)
      (f := negation n ++ [.name first, .word " ", .word op, .word " ", .name second]) (by simp)
    simp [isBlank, hempty]
  | usingColumns columns =>
    cases h
    rw [← String.ofList_eq_empty_iff]
    change _ ↔ Fragment.written d.writer (namesFragment columns.toList) = ""
    rw [Fragment.written_names, isBlank]
    match columns.toList with
    | [] => simp
    | [name] => simp
    | name :: other :: names => simp
  | on t => exact Test.isBlank_iff h

theorem chars_negation_parenthesized (w : Writer) (n : Bool) (f : Fragment) :
    Fragment.chars w (negation n ++ Fragment.parenthesized f) =
      bracket n ++ Fragment.chars w f ++ [')'] := by
  cases n <;> simp [negation, Fragment.parenthesized, bracket, Piece.chars]

namespace WhereClause

theorem brackets (w : Writer) : Brackets w true groupMember where
  condition gs n k gms := by
    rw [groupMember]
    split <;> rfl
  counts gs n k gms h := by
    rw [groupMember, Member.shown_true, ← Member.any_counts_eq]
    cases gms.any Member.counts <;> rfl
  chars gs n k gms h := by
    rw [groupMember, Member.any_counts_eq w, Member.shown_true, bracketed]
    cases hempty : (Member.places w gms).isEmpty with
    | true =>
      rw [List.isEmpty_iff] at hempty
      simp [Member.chars_chain h, hempty, introduced]
    | false =>
      rw [Bool.not_false, if_pos rfl, if_neg Bool.false_ne_true, chars_negation_parenthesized,
        Member.chars_chain h]
      rfl

theorem tracks_members {d : Dialect} {cs : List WhereClause} {ms : List (Member Test)}
    (h : members d cs = .ok ms) :
    Tracks d.writer (testText d.writer (Test.fragment d)) Test.isBlank true cs ms :=
  Condition.tracks_members (brackets d.writer) (fun _ _ _ => Test.isBlank_iff) h

end WhereClause

namespace JoinCondition

theorem isEmptyBy_chainOfText {w : Writer} {gms : List (Member JoinTest)}
    (h : Member.Silent w gms) :
    Fragment.isEmptyBy w (Member.chainOfText w false gms) =
      (Member.shown false (Member.places w gms)).isEmpty := by
  rw [Bool.eq_iff_iff, Fragment.isEmptyBy_iff, Member.chars_chainOfText h,
    Member.introduced_shown_false_eq_nil, List.isEmpty_iff]

theorem brackets (w : Writer) : Brackets w false (groupMember w) where
  condition gs n k gms := by
    rw [groupMember]
    split <;> rfl
  counts gs n k gms h := by
    rw [groupMember, isEmptyBy_chainOfText h]
    cases (Member.shown false (Member.places w gms)).isEmpty <;> rfl
  chars gs n k gms h := by
    rw [groupMember, isEmptyBy_chainOfText h, bracketed]
    cases hempty : (Member.shown false (Member.places w gms)).isEmpty with
    | true =>
      rw [List.isEmpty_iff] at hempty
      simp [Member.chars_chainOfText h, hempty, introduced]
    | false =>
      rw [if_neg Bool.false_ne_true, if_neg Bool.false_ne_true, chars_negation_parenthesized,
        Member.chars_chainOfText h]

theorem tracks_members {d : Dialect} {cs : List JoinCondition} {ms : List (Member JoinTest)}
    (h : members d.writer cs = .ok ms) :
    Tracks d.writer (testText d.writer (JoinTest.fragment d)) (JoinTest.isBlank d) false cs ms :=
  Condition.tracks_members (brackets d.writer) (fun _ _ _ => JoinTest.isBlank_iff) h

theorem length_opening (w : Writer) (c : JoinCondition) :
    4 ≤ (Fragment.chars w (opening c)).length ∧ (Fragment.chars w (opening c)).length ≤ 7 := by
  rw [opening]
  cases c.isUsing <;> simp [Piece.chars]

end JoinCondition

/-! ## Compiling -/

namespace Dialect

open Fragment

/-- A group of conditions after its keyword: the conditions that have text, with a connector
between each two. -/
def conditionsText (d : Dialect) (keyword : String) (cs : List WhereClause) : String :=
  String.ofList (introduced (fun _ => keyword.toList ++ [' '])
    (kept (testText d.writer (Test.fragment d)) cs))

/-- A join: its source, and the conditions that have text after the word for the first of them. -/
def joinText (d : Dialect) (j : ArrayJoin) : String :=
  match j.kind, j.source with
  | .raw, .raw r => r.sql
  | _, _ => written d.writer j.head ++ String.ofList
      (introduced (fun c => Fragment.chars d.writer (JoinCondition.opening c))
        (kept (testText d.writer (JoinTest.fragment d)) j.conditions))

/-- No place among the conditions of the join is given to a test without text. A raw join has no
place for any. -/
def joinGapless (d : Dialect) (j : ArrayJoin) : Bool :=
  j.kind = .raw || gaplessAll (JoinTest.isBlank d) false true j.conditions

theorem sql_compileGroup_eq_iff {d : Dialect} {keyword : String} {cs : List WhereClause}
    {s : Statement} (h : d.compileGroup keyword cs = .ok s) :
    s.sql = d.conditionsText keyword cs ↔
      ∀ x ∈ signedOf cs, Test.isBlank x.1 x.2 = false := by
  obtain ⟨f, hf, h⟩ := bind_eq_ok.1 h
  obtain ⟨ms, hms, hf⟩ := bind_eq_ok.1 hf
  cases hf
  cases h
  have htracks := WhereClause.tracks_members hms
  have hopening : Fragment.chars d.writer [.word keyword, .word " "] = keyword.toList ++ [' '] := by
    simp [Piece.chars]
  have hwithin : Within (gaplessAll Test.isBlank true true cs) (d.conditionsText keyword cs)
      (written d.writer (Member.chain (fun _ => [.word keyword, .word " "]) ms)) := by
    rw [conditionsText, ← hopening]
    exact htracks.within (fun _ => by simp [hopening]) fun _ _ => by omega
  rw [← gaplessAll_true_iff]
  exact hwithin.eq_iff

theorem joinText_of_raw {d : Dialect} {j : ArrayJoin} {r : Raw} (hkind : j.kind = .raw)
    (hsource : j.source = .raw r) : d.joinText j = r.sql := by
  rw [joinText, hkind, hsource]

theorem joinText_of_ne_raw {d : Dialect} {j : ArrayJoin} (hkind : j.kind ≠ .raw) :
    d.joinText j = written d.writer j.head ++ String.ofList
      (introduced (fun c => Fragment.chars d.writer (JoinCondition.opening c))
        (kept (testText d.writer (JoinTest.fragment d)) j.conditions)) := by
  rw [joinText]
  split
  · next h _ => exact absurd h hkind
  · rfl

theorem within_fragment {d : Dialect} {j : ArrayJoin} {f : Fragment}
    (h : j.fragment d.writer = .ok f) :
    Within (d.joinGapless j) (d.joinText j) (written d.writer f) := by
  rcases ArrayJoin.fragment_cases h with ⟨r, hkind, hsource, rfl⟩ | ⟨hkind, ms, hms, rfl⟩
  · have hwritten : written d.writer [.raw r] = r.sql := by
      simp [written, Piece.chars, Dialect.writer]
    rw [joinGapless, hkind, joinText_of_raw hkind hsource, hwritten]
    exact .refl r.sql
  · have htracks := JoinCondition.tracks_members hms
    have hwithin : Within (gaplessAll (JoinTest.isBlank d) false true j.conditions)
        (String.ofList (introduced (fun c => Fragment.chars d.writer (JoinCondition.opening c))
          (kept (testText d.writer (JoinTest.fragment d)) j.conditions)))
        (written d.writer (Member.chain JoinCondition.opening ms)) := by
      apply htracks.within
      · intro c
        exact List.length_pos_iff.1 (Nat.lt_of_lt_of_le (by decide)
          (JoinCondition.length_opening d.writer c).1)
      · intro c c'
        have hc := (JoinCondition.length_opening d.writer c).2
        have hc' := (JoinCondition.length_opening d.writer c').1
        omega
    have hgapless : d.joinGapless j = gaplessAll (JoinTest.isBlank d) false true j.conditions := by
      simp [joinGapless, hkind]
    rw [hgapless, joinText_of_ne_raw hkind, written_append]
    exact (Within.refl (written d.writer j.head)).append hwithin

theorem within_fragments {d : Dialect} {js : List ArrayJoin} {fs : List Fragment}
    (h : ArrayJoin.fragments d.writer js = .ok fs) :
    Within (js.all d.joinGapless) (spacedAfterText (js.map d.joinText))
      (spacedAfterText (fs.map (written d.writer))) := by
  induction js generalizing fs with
  | nil =>
    cases h
    exact .refl _
  | cons j js ih =>
    obtain ⟨f, hf, h⟩ := bind_eq_ok.1 h
    obtain ⟨gs, hgs, h⟩ := bind_eq_ok.1 h
    cases h
    rw [List.map_cons, List.map_cons, spacedAfterText_cons, spacedAfterText_cons, List.all_cons]
    exact (Within.afterBlank_iff.2 (within_fragment hf)).append (ih hgs)

theorem sql_compileArrayJoins_eq_iff {d : Dialect} {js : List ArrayJoin} {s : Statement}
    (h : d.compileArrayJoins js = .ok s) :
    s.sql = spacedText (js.map d.joinText) ↔ ∀ j ∈ js, d.joinGapless j = true := by
  obtain ⟨f, hf, h⟩ := bind_eq_ok.1 h
  obtain ⟨fs, hfs, hf⟩ := bind_eq_ok.1 hf
  cases hf
  cases h
  have hsettled : ∀ f ∈ fs, Settled d.writer f := by
    intro f hf
    obtain ⟨j, -, hj⟩ := ArrayJoin.exists_of_mem_fragments hfs hf
    exact ArrayJoin.settled_fragment hj
  have hwithin := within_fragments hfs
  rw [spacedAfterText_eq, spacedAfterText_eq] at hwithin
  rw [statement, written_spaced hsettled, (Within.afterBlank_iff.1 hwithin).eq_iff,
    List.all_eq_true]

/-- A keyword introduces texts that are not empty, and a connector stands between two of them,
unless a test that is written as nothing takes a place. The text of the conditions is then longer
than it should be. In a group every such test takes one, at any depth. -/
theorem compile_connected (d : Dialect) :
    (∀ cs s, d.compileWhere cs = .ok s →
      (s.sql = d.conditionsText "where" cs ↔
        ∀ x ∈ signedOf cs, Test.isBlank x.1 x.2 = false)) ∧
    (∀ cs s, d.compilePrewhere cs = .ok s →
      (s.sql = d.conditionsText "prewhere" cs ↔
        ∀ x ∈ signedOf cs, Test.isBlank x.1 x.2 = false)) ∧
    ∀ js s, d.compileArrayJoins js = .ok s →
      (s.sql = spacedText (js.map d.joinText) ↔ ∀ j ∈ js, d.joinGapless j = true) := by
  refine ⟨fun cs s h => ?_, fun cs s h => ?_, fun js s h => ?_⟩
  · exact sql_compileGroup_eq_iff h
  · exact sql_compileGroup_eq_iff h
  · exact sql_compileArrayJoins_eq_iff h

/-- Raw text that is empty. -/
def nothing : Test := .raw ⟨"", []⟩

/-- The keyword of the group stands alone, and so does the word that introduces the conditions of
the second join. In the first one the text that is empty has no place. -/
theorem compile_connected_nothing :
    ∃ s t u, clickhouse.compileWhere [.ofTest nothing] = .ok s ∧
      clickhouse.compilePrewhere [.wrapped [.test nothing true .or]] = .ok t ∧
      clickhouse.compileArrayJoins
        [(ArrayJoin.ofTable "a" .left none).withConditions
          [.onWrapped [.ofTest (.on nothing), .onNull "b"]],
         (ArrayJoin.ofTable "c" .inner none).withConditions [.usingColumns []]] = .ok u ∧
      s.sql ≠ clickhouse.conditionsText "where" [.ofTest nothing] ∧
      t.sql = clickhouse.conditionsText "prewhere" [.wrapped [.test nothing true .or]] ∧
      u.sql ≠ spacedText (List.map clickhouse.joinText
        [(ArrayJoin.ofTable "a" .left none).withConditions
          [.onWrapped [.ofTest (.on nothing), .onNull "b"]],
         (ArrayJoin.ofTable "c" .inner none).withConditions [.usingColumns []]]) := by
  obtain ⟨hwhere, hprewhere, hjoins⟩ := compile_connected clickhouse
  refine ⟨_, _, _, rfl, rfl, rfl, ?_, ?_, ?_⟩
  · apply mt (hwhere _ _ rfl).1
    decide
  · apply (hprewhere _ _ rfl).2
    decide
  · apply mt (hjoins _ _ rfl).1
    decide

end Dialect

end ClauseTree
