import ClauseTree.Proofs.Fragment.Reading
import ClauseTree.Proofs.Statement.Undefined

/-!
# Conditions told from their text

The reader finds the shape of conditions without raw text in what is written for them. Hence two
lists of conditions with the same text have the same shape, and with the same values the same normal
form, which is `normal_of_compileWhere`.

`ReadsBack` relates the members of a group to what is read. It says so of the members as those
behind another one, which all have a connector in front, and of the members as the first ones of a
group. A member of a group that takes no place keeps it, and so does one that is read back by
itself. The condition on the text behind a member is met by the next connector and by the end of the
group.
-/

namespace ClauseTree

open Condition Dialect Fragment Reader

namespace Reader

theorem condition?_succ (m : Nat) (k : Connector) (cs : List Char) :
    condition? (m + 1) k cs =
      (group? "(" false k (chain? (condition? m .and) (more? m)) cs <|>
        group? "not (" true k (chain? (condition? m .and) (more? m)) cs <|> test? k cs) := by
  rw [condition?]

theorem group?_eq_none {opening : String} {cs : List Char} (h : word? opening cs = none)
    (n : Bool) (k : Connector) (members : Reader (List (Condition (NormalTest Unit)))) :
    group? opening n k members cs = none := by
  rw [group?, h]
  rfl

/-- Behind a name that a comma or a parenthesis follows there is no condition to be read. -/
theorem condition?_names (m : Nat) (k : Connector) (names : List String) (rest : List Char) :
    condition? m k (chars clickhouse.writer (namesFragment names) ++ ')' :: rest) = none := by
  cases m with
  | zero => rw [condition?]
  | succ m =>
    have hname (column : String) (text : List Char) (hends : EndsName text)
        (hbehind : behindColumn? (Identifier.ofChars column.toList) text = none) :
        condition? (m + 1) k ((Identifier.ofChars column.toList).chars clickhouse ++ text) =
          none := by
      have hstart := startsName_chars column.toList text
      rw [condition?_succ, group?_eq_none (hstart.word?_eq_none fun _ => ⟨rfl, rfl⟩),
        group?_eq_none (hstart.word?_eq_none fun _ => ⟨rfl, rfl⟩), test?_name k column hends,
        hbehind]
      rfl
    cases names with
    | nil =>
      rw [condition?_succ]
      rfl
    | cons column columns =>
      cases columns with
      | nil =>
        have htext : chars clickhouse.writer (namesFragment [column]) =
            (Identifier.ofChars column.toList).chars clickhouse := List.append_nil _
        rw [htext]
        exact hname column _ ⟨rfl, rfl, rfl⟩ rfl
      | cons other columns =>
        have htext : namesFragment (column :: other :: columns) =
            .name column :: .word ", " :: namesFragment (other :: columns) := rfl
        rw [htext, chars_name_cons]
        exact hname column _ ⟨rfl, rfl, rfl⟩ rfl

/-- The text starts like a test. -/
inductive StartsTest : List Char → Prop
  | name {cs : List Char} (h : StartsName cs) : StartsTest cs
  | negated {cs : List Char} (h : StartsName cs) : StartsTest ("not ".toList ++ cs)
  | constant (n : Bool) (cs : List Char) :
    StartsTest ((if n then "1 = 1" else "1 = 0").toList ++ cs)
  | columns (names : List String) (cs : List Char) :
    StartsTest ('(' :: (chars clickhouse.writer (namesFragment names) ++ ')' :: cs))

/-- Where a test starts, no group does. -/
theorem StartsTest.condition?_eq {cs : List Char} (h : StartsTest cs) (m : Nat) (k : Connector) :
    condition? (m + 1) k cs = test? k cs := by
  have hneither {cs : List Char} (hopen : word? "(" cs = none) (hnot : word? "not (" cs = none) :
      condition? (m + 1) k cs = test? k cs := by
    rw [condition?_succ, group?_eq_none hopen, group?_eq_none hnot]
    rfl
  cases h with
  | name h =>
    exact hneither (h.word?_eq_none fun _ => ⟨rfl, rfl⟩) (h.word?_eq_none fun _ => ⟨rfl, rfl⟩)
  | negated h => exact hneither rfl (by cases h <;> rfl)
  | constant n cs => cases n <;> exact hneither rfl rfl
  | columns names cs =>
    -- The parenthesis might open a group, but a list of names is no condition.
    have hopen (cs : List Char) : word? "(" ('(' :: cs) = some cs := rfl
    have hnot (cs : List Char) : word? "not (" ('(' :: cs) = none := rfl
    rw [condition?_succ, group?_eq_none (hnot _), group?, hopen]
    simp only [Option.bind_eq_bind, Option.bind_some, chain?, condition?_names]
    rfl

theorem startsTest_fragment {t : Test} {n : Bool} {f : Fragment}
    (h : t.fragment clickhouse n = .ok f) (hraw : Leaf.raws t.leaves = []) (rest : List Char) :
    StartsTest (chars clickhouse.writer f ++ rest) := by
  have hname (column : String) (g : Fragment) :
      StartsTest (chars clickhouse.writer (.name column :: g) ++ rest) := by
    rw [chars_name_cons]
    exact StartsTest.name (startsName_chars column.toList _)
  cases t with
  | basic column operator value =>
    obtain ⟨op, hop, h⟩ := bind_eq_ok.1 h
    cases h
    rw [List.append_assoc]
    cases n with
    | false => exact hname column _
    | true =>
      have hnot : chars clickhouse.writer (negation true) = "not ".toList := rfl
      rw [chars_append, hnot, List.append_assoc, List.cons_append, chars_name_cons]
      exact StartsTest.negated (startsName_chars column.toList _)
  | isNull column =>
    cases h
    exact hname column _
  | isIn columns candidates =>
    rw [Test.fragment] at h
    split at h
    · cases h
      rw [chars_cons, chars_nil, List.append_nil]
      exact StartsTest.constant n rest
    · cases h
      cases columns with
      | single column => exact hname column _
      | multi columns =>
        rw [List.append_assoc, List.append_assoc, List.append_assoc, chars_append,
          List.append_assoc, Columns.fragment, chars_parenthesized]
        exact StartsTest.columns columns _
  | between column low high =>
    cases h
    exact hname column _
  | hasRows subquery => cases hraw
  | raw r => cases hraw

/-- What stands behind the conditions of a group: nothing, or the parenthesis that closes it. -/
inductive Closes : List Char → Prop
  | nil : Closes []
  | parenthesis (cs : List Char) : Closes (')' :: cs)

theorem Closes.endsName {rest : List Char} (h : Closes rest) : EndsName rest := by
  cases h <;> exact ⟨rfl, rfl, rfl⟩

/-- What the member writes is read as the condition, whose connector stands in front of it. -/
def Readable (m : Member Test) (c : Condition (NormalTest Unit)) : Prop :=
  ∀ n k rest, EndsName rest → (chars clickhouse.writer m.fragment).length < n →
    condition? n k (chars clickhouse.writer m.fragment ++ rest) = some (c.setConnector k, rest)

/-- What the members write is read as the conditions, behind another one or as the first of them. -/
structure ReadsBack (ms : List (Member Test)) (cs : List (Condition (NormalTest Unit))) :
    Prop where
  more : ∀ n rest, Closes rest → (chars clickhouse.writer (Member.linked ms)).length < n →
    more? n (chars clickhouse.writer (Member.linked ms) ++ rest) = some (ledBehind cs, rest)
  chain : cs ≠ [] → ∀ n rest, Closes rest →
    (chars clickhouse.writer (Member.chain (fun _ => []) ms)).length < n →
    chain? (condition? n .and) (more? n)
        (chars clickhouse.writer (Member.chain (fun _ => []) ms) ++ rest) = some (led cs, rest)
  ends : ∀ rest, Closes rest → EndsName (chars clickhouse.writer (Member.linked ms) ++ rest)
  counts : ms.any Member.counts = !cs.isEmpty
  nil : cs = [] → Member.chain (fun _ => []) ms = []

theorem ReadsBack.empty : ReadsBack [] [] where
  more n rest hrest hn := by
    obtain ⟨n, rfl⟩ : ∃ m, n = m + 1 := Nat.exists_eq_succ_of_ne_zero (Nat.ne_zero_of_lt hn)
    cases hrest <;> rfl
  chain hne := absurd rfl hne
  ends rest hrest := hrest.endsName
  counts := rfl
  nil _ := rfl

/-- A member that takes no place does not matter. -/
theorem ReadsBack.skip {m : Member Test} {ms : List (Member Test)}
    {cs : List (Condition (NormalTest Unit))} (hcounts : m.counts = false)
    (hnil : m.fragment = []) (h : ReadsBack ms cs) : ReadsBack (m :: ms) cs := by
  have hlinked : Member.linked (m :: ms) = Member.linked ms := by
    rw [Member.linked_cons, hcounts, hnil, if_neg Bool.false_ne_true, List.nil_append]
  have hchain : Member.chain (fun _ => []) (m :: ms) = Member.chain (fun _ => []) ms := by
    rw [Member.chain, hcounts, hnil, if_neg Bool.false_ne_true, List.nil_append]
  constructor
  · rw [hlinked]
    exact h.more
  · rw [hchain]
    exact h.chain
  · rw [hlinked]
    exact h.ends
  · rw [List.any_cons, hcounts, Bool.false_or, h.counts]
  · rw [hchain]
    exact h.nil

theorem connector_ledWithin {α : Type} (c : Condition α) :
    (ledWithin c).connector = c.connector := by
  cases c <;> rfl

theorem connector?_link (m : Member Test) (rest : List Char) :
    connector? (chars clickhouse.writer m.link ++ rest) = some (m.condition.connector, rest) := by
  rw [Member.link]
  cases m.condition.connector <;> rfl

/-- A member that is read by itself is read in front of others. -/
theorem ReadsBack.cons {m : Member Test} {c : Condition (NormalTest Unit)}
    {ms : List (Member Test)} {cs : List (Condition (NormalTest Unit))}
    (hcounts : m.counts = true) (hconnector : m.condition.connector = c.connector)
    (hm : Readable m (ledWithin c)) (h : ReadsBack ms cs) : ReadsBack (m :: ms) (c :: cs) := by
  have hlinked : chars clickhouse.writer (Member.linked (m :: ms)) =
      chars clickhouse.writer m.link ++ (chars clickhouse.writer m.fragment ++
        chars clickhouse.writer (Member.linked ms)) := by
    rw [Member.linked_cons, hcounts, if_pos rfl, chars_append, chars_append, List.append_assoc]
  have hchain : chars clickhouse.writer (Member.chain (fun _ => []) (m :: ms)) =
      chars clickhouse.writer m.fragment ++ chars clickhouse.writer (Member.linked ms) := by
    rw [Member.chain, hcounts, if_pos rfl, List.nil_append, chars_append]
  -- With its connector or without, the member's own text comes first, then the members behind it.
  have hpair {n : Nat} (k : Connector) {rest : List Char} (hrest : Closes rest)
      (hn : (chars clickhouse.writer m.fragment).length +
        (chars clickhouse.writer (Member.linked ms)).length < n) :
      chain? (condition? n k) (more? n) (chars clickhouse.writer m.fragment ++
          (chars clickhouse.writer (Member.linked ms) ++ rest)) =
        some ((ledWithin c).setConnector k :: ledBehind cs, rest) := by
    rw [chain?, hm n k _ (h.ends rest hrest) (by omega)]
    simp [h.more n rest hrest (by omega)]
  constructor
  · intro n rest hrest hn
    have hlink : 0 < (chars clickhouse.writer m.link).length := by
      rw [Member.link]
      simp [Piece.chars]
    obtain ⟨n, rfl⟩ : ∃ l, n = l + 1 := Nat.exists_eq_succ_of_ne_zero (Nat.ne_zero_of_lt hn)
    rw [hlinked, List.length_append, List.length_append] at hn
    have hself : (ledWithin c).setConnector c.connector = ledWithin c := by
      rw [← connector_ledWithin, setConnector_connector]
    rw [hlinked, List.append_assoc, List.append_assoc, more?, connector?_link]
    dsimp only
    rw [hpair _ hrest (by omega), hconnector, hself, ledBehind]
  · intro _ n rest hrest hn
    rw [hchain, List.length_append] at hn
    rw [hchain, List.append_assoc, hpair .and hrest hn]
    rfl
  · intro rest hrest
    rw [hlinked, List.append_assoc, Member.link]
    cases m.condition.connector <;> exact ⟨rfl, rfl, rfl⟩
  · rw [List.any_cons, hcounts]
    rfl
  · intro hnil
    cases hnil

theorem readable_test {t : Test} {n : Bool} {f : Fragment}
    (h : t.fragment clickhouse n = .ok f) (hraw : Leaf.raws t.leaves = []) (k : Connector) :
    Readable ⟨.test t n k, true, f⟩ (.test t.normal.shape n k) := by
  intro m k' rest hrest hm
  obtain ⟨m, rfl⟩ : ∃ l, m = l + 1 := Nat.exists_eq_succ_of_ne_zero (Nat.ne_zero_of_lt hm)
  rw [(startsTest_fragment h hraw rest).condition?_eq, Test.test?_fragment h hraw k' hrest]
  rfl

/-- A group is readable if its members are. -/
theorem readable_group {gms : List (Member Test)} {gcs : List (Condition (NormalTest Unit))}
    (h : ReadsBack gms gcs) (hne : gcs ≠ []) (gs : List WhereClause) (n : Bool) (k : Connector) :
    Readable (WhereClause.groupMember gs n k gms) (.group (led gcs) n k) := by
  have hcounts : gms.any Member.counts = true := by
    rw [h.counts]
    simpa using hne
  intro m k' rest hrest hm
  rw [WhereClause.groupMember, if_pos hcounts] at hm ⊢
  rw [chars_append, List.length_append] at hm
  rw [chars_append, List.append_assoc, chars_parenthesized]
  obtain ⟨m, rfl⟩ : ∃ l, m = l + 1 := Nat.exists_eq_succ_of_ne_zero (Nat.ne_zero_of_lt hm)
  have hlength : (chars clickhouse.writer (Member.chain (fun _ => []) gms)).length < m := by
    have hparentheses := congrArg List.length
      (chars_parenthesized clickhouse.writer (Member.chain (fun _ => []) gms) [])
    simp only [List.append_nil, List.length_cons, List.length_append] at hparentheses
    omega
  have hread := h.chain hne m _ (Closes.parenthesis rest) hlength
  have hgroup (opening : String) (cs : List Char) (hopening : word? opening cs =
      some (chars clickhouse.writer (Member.chain (fun _ => []) gms) ++ ')' :: rest)) :
      group? opening n k' (chain? (condition? m .and) (more? m)) cs =
        some (.group (led gcs) n k', rest) := by
    have hclose : word? ")" (')' :: rest) = some rest := rfl
    rw [group?, hopening]
    simp [hread, hclose]
  have hnegation (cs : List Char) : chars clickhouse.writer (negation n) ++ '(' :: cs =
      if n then "not (".toList ++ cs else "(".toList ++ cs := by
    cases n <;> rfl
  rw [hnegation, condition?_succ]
  cases n with
  | false =>
    rw [if_neg Bool.false_ne_true, hgroup "(" _ (word?_append "(" _)]
    rfl
  | true =>
    rw [if_pos rfl, group?_eq_none rfl, hgroup "not (" _ (word?_append "not (" _)]
    rfl

end Reader

open Reader

namespace WhereClause

theorem readsBack_members {cs : List WhereClause} {ms : List (Member Test)}
    (h : members clickhouse cs = .ok ms) (hraw : Leaf.raws (leaves cs) = []) :
    ReadsBack ms (mapAll (NormalTest.shape ∘ Test.normal) (prune cs)) := by
  revert hraw
  refine members_induction (motive := fun cs ms => Leaf.raws (leaves cs) = [] →
    ReadsBack ms (mapAll (NormalTest.shape ∘ Test.normal) (prune cs))) ?_ ?_ ?_ h
  · intro _
    exact ReadsBack.empty
  · intro t n k f cs ms hf ih hraw
    rw [leaves, testsOf_test_cons, List.flatMap_cons, Leaf.raws_append,
      List.append_eq_nil_iff] at hraw
    rw [prune_test_cons, mapAll]
    exact ReadsBack.cons rfl rfl (readable_test hf hraw.1 k) (ih hraw.2)
  · intro gs gms n k cs ms ihg ih hraw
    rw [leaves, testsOf_group_cons, List.flatMap_append, Leaf.raws_append,
      List.append_eq_nil_iff] at hraw
    have hgroup := ihg hraw.1
    have hrest := ih hraw.2
    -- A group takes a place exactly if something is left of it.
    by_cases hnil : prune gs = []
    · rw [prune_group_cons_of_eq_nil hnil]
      rw [hnil, mapAll] at hgroup
      have hcounts : gms.any Member.counts = false := hgroup.counts
      refine hrest.skip ?_ ?_
      · rw [groupMember, hcounts, if_neg Bool.false_ne_true]
      · rw [groupMember, hcounts, if_neg Bool.false_ne_true]
        exact hgroup.nil rfl
    · have hne : mapAll (NormalTest.shape ∘ Test.normal) (prune gs) ≠ [] := by
        cases hgs : prune gs with
        | nil => exact absurd hgs hnil
        | cons c gs' => exact List.cons_ne_nil _ _
      have hcounts : gms.any Member.counts = true := by
        rw [hgroup.counts]
        simpa using hne
      have hread := readable_group hgroup hne gs n k
      rw [groupMember, if_pos hcounts] at hread ⊢
      rw [prune_group_cons hnil, mapAll]
      exact ReadsBack.cons rfl rfl hread hrest

/-- The reader finds the shape of the conditions in their text. -/
theorem conditions?_compileWhere {cs : List WhereClause} {s : Statement}
    (hraw : Leaf.raws (leaves cs) = []) (h : clickhouse.compileWhere cs = .ok s) :
    conditions? s.sql.toList = some (shape cs) := by
  obtain ⟨f, hf, h⟩ := bind_eq_ok.1 h
  cases h
  obtain ⟨ms, hms, hf⟩ := bind_eq_ok.1 hf
  cases hf
  have hread := readsBack_members hms hraw
  rw [shape_eq, Fragment.statement, Fragment.written, String.toList_ofList,
    Member.chain_eq_ite (fragment_eq_nil_of_not_counts hms) fun _ _ => rfl, hread.counts]
  generalize mapAll (NormalTest.shape ∘ Test.normal) (prune cs) = shapes at hread
  cases shapes with
  | nil => rfl
  | cons c shapes =>
    have htext : chars clickhouse.writer
        (if (!(c :: shapes).isEmpty) = true then
          [.word "where", .word " "] ++ Member.chain (fun _ => []) ms else []) =
        "where ".toList ++ chars clickhouse.writer (Member.chain (fun _ => []) ms) := rfl
    have hchain := hread.chain (List.cons_ne_nil c shapes) _ [] Closes.nil (Nat.lt_succ_self _)
    rw [List.append_nil] at hchain
    rw [htext, conditions?, word?_append]
    simp only [Option.bind_eq_bind, Option.bind_some, hchain]
    rfl

end WhereClause

namespace Dialect

open WhereClause

theorem bindings_compileWhere {d : Dialect} {cs : List WhereClause} {s : Statement}
    (h : d.compileWhere cs = .ok s) : s.bindings = values cs := by
  obtain ⟨f, hf, h⟩ := bind_eq_ok.1 h
  cases h
  exact bindings_groupFragment hf

/-- Identifiers are told apart by their text, and so are conditions without raw text, up to their
normal form and without their values. If the values are the same as well, so are the normal
forms. -/
theorem normal_of_compileWhere :
    (∀ a b : String, Identifier.ofChars a.toList = Identifier.ofChars b.toList ↔
      clickhouse.wrap a = clickhouse.wrap b) ∧
    ∀ (cs cs' : List WhereClause) (s s' : Statement),
      Leaf.raws (leaves cs) = [] → Leaf.raws (leaves cs') = [] →
      clickhouse.compileWhere cs = .ok s → clickhouse.compileWhere cs' = .ok s' →
      s.sql = s'.sql →
      shape cs = shape cs' ∧ (s.bindings = s'.bindings → normal cs = normal cs') := by
  refine ⟨ofChars_eq_iff, ?_⟩
  intro cs cs' s s' hraw hraw' h h' hsql
  have hshape : shape cs = shape cs' := by
    have hread := conditions?_compileWhere hraw h
    rw [hsql, conditions?_compileWhere hraw' h'] at hread
    exact (Option.some.inj hread).symm
  refine ⟨hshape, fun hbindings => normal_eq_of_shape_eq hraw hraw' hshape ?_⟩
  rw [← bindings_compileWhere h, ← bindings_compileWhere h', hbindings]

/-- Words of the language in names, a group without a test, and constants. -/
def spelled : List WhereClause :=
  [.group [] true .or,
    .test (.basic " x.not in AS a and b" " NOT Like" (.value (.text "v"))) true .or,
    .group [.test (.isIn (.multi ["a", "b"]) (.rows [])) true .or, .ofTest (.isNull "`")] false .or]

/-- The same conditions in another spelling. -/
def respelled : List WhereClause :=
  [.test (.basic "x.not in as a and b " "not like" (.value (.text "v"))) true .and,
    .group [.test (.isIn (.single "c") (.list [])) true .and, .group [.group [] true .or] true .or,
      .ofTest (.isNull "` ")] false .or]

theorem normal_of_compileWhere_spelled :
    ∃ s, clickhouse.compileWhere spelled = .ok s ∧ clickhouse.compileWhere respelled = .ok s ∧
      shape spelled = shape respelled ∧ normal spelled = normal respelled := by
  let s : Statement :=
    ⟨"where not `x`.`not in` as `a and b` not like ? or (1 = 1 and ```` is null)", [.text "v"],
      false, []⟩
  have hspelled : clickhouse.compileWhere spelled = .ok s := rfl
  have hrespelled : clickhouse.compileWhere respelled = .ok s := rfl
  obtain ⟨-, htold⟩ := normal_of_compileWhere
  obtain ⟨hshape, hnormal⟩ := htold spelled respelled s s rfl rfl hspelled hrespelled rfl
  exact ⟨s, hspelled, hrespelled, hshape, hnormal rfl⟩

end Dialect

end ClauseTree
