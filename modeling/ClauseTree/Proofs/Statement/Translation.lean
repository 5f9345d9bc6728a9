import ClauseTree.Proofs.Statement.Composition
import ClauseTree.Proofs.Statement.Offences

/-!
# Conditions of a join for those of a group

Every condition of a `where` group may stand in a join as well. `compile_toJoin` says that it is
written there as it is in the group: the two groups and the joins of a statement differ in the
word that introduces the conditions and in nothing else, whether the conditions stand alone or
are members of one group.

The chains are told apart by what a member has to have to take a place in them. In a `where`
group a test has it, in a group of a join a text. `Solid` says that this is the same: what counts
has text and what does not count has none. It fails of raw text that is empty and of nothing else.
-/

namespace ClauseTree

open Condition

/-- The conditions as those of a join. -/
def WhereClause.toJoin (cs : List WhereClause) : JoinConditions := mapAll JoinTest.on cs

/-! ## Solid members -/

namespace Member

variable {α β : Type} {w : Writer}

/-- The member counts exactly if the writer writes something for it. If it does not count, there
is no fragment either. -/
def Solid (w : Writer) (m : Member α) : Prop :=
  if m.counts then Fragment.isEmptyBy w m.fragment = false else m.fragment = []

namespace Solid

theorem isEmptyBy {m : Member α} (h : m.Solid w) (hcounts : m.counts = true) :
    Fragment.isEmptyBy w m.fragment = false := by
  rwa [Solid, if_pos hcounts] at h

theorem fragment_eq_nil {m : Member α} (h : m.Solid w) (hcounts : m.counts = false) :
    m.fragment = [] := by
  rwa [Solid, hcounts, if_neg Bool.false_ne_true] at h

end Solid

/-- The first solid member that counts starts the text. -/
theorem chainOfText_of_solid {ms : List (Member α)} (h : ∀ m ∈ ms, m.Solid w) :
    chainOfText w false ms = chain (fun _ => []) ms := by
  induction ms with
  | nil => rfl
  | cons m ms ih =>
    have hm : m.Solid w := h m List.mem_cons_self
    rw [chainOfText, chain, Bool.and_false, if_neg Bool.false_ne_true, List.nil_append,
      Bool.false_or]
    cases hcounts : m.counts with
    | true =>
      rw [hm.isEmptyBy hcounts, if_pos rfl, Bool.not_false, chainOfText_started]
    | false =>
      rw [hm.fragment_eq_nil hcounts, if_neg Bool.false_ne_true]
      exact ih fun x hx => h x (List.mem_cons_of_mem m hx)

theorem chain_eq_of_solid {opening : Condition α → Fragment} {f : Fragment}
    {ms : List (Member α)} (h : ∀ m ∈ ms, m.Solid w)
    (hopening : ∀ m ∈ ms, opening m.condition = f) :
    chain opening ms = if ms.any counts then f ++ chain (fun _ => []) ms else [] :=
  chain_eq_ite (fun m hm => (h m hm).fragment_eq_nil) hopening

theorem isEmptyBy_chain {ms : List (Member α)} (h : ∀ m ∈ ms, m.Solid w) :
    Fragment.isEmptyBy w (chain (fun _ => []) ms) = !ms.any counts := by
  induction ms with
  | nil => rfl
  | cons m ms ih =>
    have hm : m.Solid w := h m List.mem_cons_self
    rw [chain, List.any_cons]
    cases hcounts : m.counts with
    | true =>
      have hempty := hm.isEmptyBy hcounts
      rw [Fragment.isEmptyBy] at hempty
      rw [if_pos rfl, List.nil_append, Fragment.isEmptyBy, List.all_append, hempty]
      rfl
    | false =>
      rw [hm.fragment_eq_nil hcounts, if_neg Bool.false_ne_true]
      exact ih fun x hx => h x (List.mem_cons_of_mem m hx)

/-- The member of the condition with its tests changed. -/
def translate (g : α → β) (m : Member α) : Member β :=
  ⟨m.condition.map g, m.counts, m.fragment⟩

theorem link_translate (g : α → β) (m : Member α) : (m.translate g).link = m.link := by
  rw [link, link, translate, connector_map]

theorem linked_translate (g : α → β) (ms : List (Member α)) :
    linked (ms.map (translate g)) = linked ms := by
  induction ms with
  | nil => rfl
  | cons m ms ih =>
    rw [List.map_cons, linked_cons, linked_cons, ih, link_translate]
    rfl

theorem chain_translate (g : α → β) (ms : List (Member α)) :
    chain (fun _ => []) (ms.map (translate g)) = chain (fun _ => []) ms := by
  induction ms with
  | nil => rfl
  | cons m ms ih =>
    rw [List.map_cons, chain, chain, ih, linked_translate]
    rfl

end Member

/-! ## Members of a join -/

theorem Fragment.isEmptyBy_of_mem {w : Writer} {t : String} (ht : t ≠ "") {f : Fragment}
    (h : .word t ∈ f) : isEmptyBy w f = false := by
  rw [isEmptyBy, List.all_eq_false]
  refine ⟨.word t, h, ?_⟩
  simpa [Piece.chars] using ht

/-- Every test but raw text has a word of its own. -/
theorem Test.isEmptyBy_fragment {d : Dialect} {n : Bool} {t : Test} {f : Fragment}
    (h : t.fragment d n = .ok f) (hraw : ∀ r, t = .raw r → r.sql ≠ "") :
    Fragment.isEmptyBy d.writer f = false := by
  have hblank : " " ≠ "" := by decide
  cases t with
  | basic column operator value =>
    obtain ⟨op, -, h⟩ := bind_eq_ok.1 h
    cases h
    exact Fragment.isEmptyBy_of_mem hblank (by simp)
  | isNull column =>
    cases h
    exact Fragment.isEmptyBy_of_mem (t := "null") (by decide) (by simp)
  | isIn columns candidates =>
    rw [fragment] at h
    split at h
    · cases h
      exact Fragment.isEmptyBy_of_mem (by cases n <;> decide) List.mem_cons_self
    · cases h
      exact Fragment.isEmptyBy_of_mem hblank (by simp)
  | between column low high =>
    cases h
    exact Fragment.isEmptyBy_of_mem hblank (by simp)
  | hasRows subquery =>
    cases h
    exact Fragment.isEmptyBy_of_mem (t := "exists ") (by decide) (by simp)
  | raw r =>
    cases h
    have hsql : r.sql ≠ "" := hraw r rfl
    rw [Fragment.isEmptyBy, List.all_eq_false]
    exact ⟨.raw r, by simp, by simpa [Piece.chars, Dialect.writer] using hsql⟩

namespace WhereClause

open Member

variable {w : Writer}

theorem groupMember_translate {gms : List (Member Test)} (h : ∀ m ∈ gms, m.Solid w)
    (gs : List WhereClause) (n : Bool) (k : Connector) :
    JoinCondition.groupMember w (toJoin gs) n k (gms.map (translate .on)) =
      (groupMember gs n k gms).translate .on := by
  have hsolid : ∀ m ∈ gms.map (translate JoinTest.on), m.Solid w := by
    intro m hm
    obtain ⟨m', hm', rfl⟩ := List.mem_map.1 hm
    exact h m' hm'
  rw [JoinCondition.groupMember, groupMember, chainOfText_of_solid hsolid, chain_translate,
    isEmptyBy_chain h]
  cases gms.any counts <;> rfl

theorem solid_groupMember {gms : List (Member Test)} (h : ∀ m ∈ gms, m.Solid w)
    (gs : List WhereClause) (n : Bool) (k : Connector) : (groupMember gs n k gms).Solid w := by
  rw [groupMember]
  split
  · have hempty : Fragment.isEmptyBy w (negation n ++
        Fragment.parenthesized (chain (fun _ => []) gms)) = false :=
      Fragment.isEmptyBy_of_mem (t := "(") (by decide)
        (List.mem_append_right _ List.mem_cons_self)
    rw [Solid, if_pos rfl, hempty]
  · next hany =>
    have hnil : chain (fun _ => []) gms = [] := by
      rw [chain_eq_of_solid h fun _ _ => rfl, if_neg hany]
    rw [Solid, if_neg Bool.false_ne_true, hnil]

/-- The members of a join stand for the translated conditions and write the same. -/
theorem members_toJoin {d : Dialect} {cs : List WhereClause} {ms : List (Member Test)}
    (h : members d cs = .ok ms) (hraw : ∀ r, Test.raw r ∈ testsOf cs → r.sql ≠ "") :
    JoinCondition.members d.writer (toJoin cs) = .ok (ms.map (translate .on)) ∧
      ∀ m ∈ ms, m.Solid d.writer := by
  revert hraw
  refine members_induction (motive := fun cs ms => (∀ r, Test.raw r ∈ testsOf cs → r.sql ≠ "") →
    JoinCondition.members d.writer (toJoin cs) = .ok (ms.map (translate .on)) ∧
      ∀ m ∈ ms, m.Solid d.writer) ?_ ?_ ?_ h
  · intro _
    exact ⟨by rw [toJoin, mapAll, JoinCondition.members, Condition.members]; rfl, by simp⟩
  · intro t n k f cs ms hf ih hraw
    rw [testsOf_test_cons] at hraw
    obtain ⟨hms, hsolid⟩ := ih fun r hr => hraw r (List.mem_cons_of_mem t hr)
    have hsolidTest : Solid d.writer ⟨.test t n k, true, f⟩ := by
      have hempty := Test.isEmptyBy_fragment hf fun r hr => hraw r (hr ▸ List.mem_cons_self)
      rw [Solid, if_pos rfl, hempty]
    refine ⟨members_test_cons k hf hms, ?_⟩
    intro m hm
    rcases List.mem_cons.1 hm with rfl | hm
    · exact hsolidTest
    · exact hsolid m hm
  · intro gs gms n k cs ms ihg ih hraw
    rw [testsOf_group_cons] at hraw
    obtain ⟨hgms, hgsolid⟩ := ihg fun r hr => hraw r (List.mem_append_left _ hr)
    obtain ⟨hms, hsolid⟩ := ih fun r hr => hraw r (List.mem_append_right _ hr)
    refine ⟨?_, ?_⟩
    · rw [List.map_cons, ← groupMember_translate hgsolid]
      exact members_group_cons n k hgms hms
    · intro m hm
      rcases List.mem_cons.1 hm with rfl | hm
      · exact solid_groupMember hgsolid gs n k
      · exact hsolid m hm

end WhereClause

/-! ## Statements -/

/-- A text between two others. Without it they are not written either. -/
def enclosed (before text after : String) : String :=
  if text = "" then "" else before ++ text ++ after

theorem enclosed_enclosed (before opening text closing : String) (h : opening ≠ "") :
    enclosed before (enclosed opening text closing) "" =
      enclosed (before ++ opening) text closing := by
  by_cases htext : text = ""
  · rw [enclosed, enclosed, enclosed, if_pos htext, if_pos htext, if_pos rfl]
  · have hne : opening ++ text ++ closing ≠ "" := by simp [h]
    rw [enclosed, enclosed, enclosed, if_neg htext, if_neg htext, if_neg hne]
    simp [String.append_assoc]

namespace Member

variable {α : Type} {w : Writer} {ms : List (Member α)}

theorem written_chain_eq_empty_iff (h : ∀ m ∈ ms, m.Solid w) :
    Fragment.written w (chain (fun _ => []) ms) = "" ↔ ms.any counts = false := by
  rw [Fragment.written, String.ofList_eq_empty_iff, ← Fragment.isEmptyBy_iff, isEmptyBy_chain h,
    Bool.not_eq_true']

variable {opening : Condition α → Fragment} {f : Fragment}

/-- The text of a chain is that of its members after the words that introduce it. -/
theorem written_chain_of_solid (h : ∀ m ∈ ms, m.Solid w)
    (hopening : ∀ m ∈ ms, opening m.condition = f) :
    Fragment.written w (chain opening ms) =
      enclosed (Fragment.written w f) (Fragment.written w (chain (fun _ => []) ms)) "" := by
  have hempty := written_chain_eq_empty_iff h
  rw [chain_eq_of_solid h hopening, enclosed]
  cases hany : ms.any counts with
  | true =>
    rw [if_pos rfl, if_neg (by simp [hempty, hany])]
    simp
  | false =>
    rw [if_neg Bool.false_ne_true, if_pos (hempty.2 hany)]
    rfl

theorem bindings_chain_of_solid (h : ∀ m ∈ ms, m.Solid w)
    (hopening : ∀ m ∈ ms, opening m.condition = f) (hf : Fragment.bindings f = []) :
    Fragment.bindings (chain opening ms) = Fragment.bindings (chain (fun _ => []) ms) := by
  rw [chain_eq_of_solid h hopening, chain_eq_of_solid h fun _ _ => rfl]
  split
  · simp [hf]
  · rfl

end Member

/-- A condition of a group has no columns to share. -/
theorem JoinCondition.opening_map_on (c : WhereClause) :
    opening (c.map JoinTest.on) = [.word " on "] := by
  cases c <;> rfl

namespace Dialect

open Member WhereClause Fragment

variable {d : Dialect} {cs : List WhereClause} {ms : List (Member Test)}

theorem compileGroup_of_solid (keyword : String) (h : members d cs = .ok ms)
    (hsolid : ∀ m ∈ ms, m.Solid d.writer) :
    d.compileGroup keyword cs = .ok
      ⟨enclosed (keyword ++ " ") ((chain (fun _ => []) ms).text d) "",
        Fragment.bindings (chain (fun _ => []) ms), groupUndefined cs, []⟩ := by
  have hword : Fragment.written d.writer [.word keyword, .word " "] = keyword ++ " " := by simp
  rw [compileGroup, groupFragment, h]
  refine congrArg Except.ok ?_
  rw [Fragment.statement, written_chain_of_solid hsolid fun _ _ => rfl,
    bindings_chain_of_solid hsolid (fun _ _ => rfl) rfl, hword]
  rfl

theorem compileArrayJoins_of_solid (table : String) (schema : Option String)
    (h : JoinCondition.members d.writer (toJoin cs) = .ok (ms.map (translate .on)))
    (hsolid : ∀ m ∈ ms, m.Solid d.writer) :
    d.compileArrayJoins [(ArrayJoin.ofTable table .left schema).withConditions (toJoin cs)] = .ok
      ⟨"left join " ++ d.wrap (qualified schema table) ++
          enclosed " on " ((chain (fun _ => []) ms).text d) "",
        Fragment.bindings (chain (fun _ => []) ms), false, []⟩ := by
  have htranslated : ∀ m ∈ ms.map (translate JoinTest.on), m.Solid d.writer ∧
      JoinCondition.opening m.condition = [.word " on "] := by
    intro m hm
    obtain ⟨m', hm', rfl⟩ := List.mem_map.1 hm
    exact ⟨hsolid m' hm', JoinCondition.opening_map_on m'.condition⟩
  have hwritten := written_chain_of_solid (fun m hm => (htranslated m hm).1)
    fun m hm => (htranslated m hm).2
  have hbindings := bindings_chain_of_solid (fun m hm => (htranslated m hm).1)
    (fun m hm => (htranslated m hm).2) rfl
  have hon : Fragment.written d.writer [.word " on "] = " on " := by simp
  have hhead : Fragment.written d.writer (ArrayJoin.ofTable table .left schema).head =
      "left join " ++ d.wrap (qualified schema table) := by
    change Fragment.written d.writer
      [.word "left", .word " join ", .name (qualified schema table)] = _
    rw [written_word_cons, written_word_cons, written_name, ← String.append_assoc]
    rfl
  rw [chain_translate, hon] at hwritten
  rw [chain_translate] at hbindings
  have hkind : (ArrayJoin.ofTable table .left schema).kind ≠ .raw := JoinKind.noConfusion
  rw [compileArrayJoins_singleton, ArrayJoin.fragment_withConditions _ hkind, h]
  refine congrArg Except.ok ?_
  change Fragment.statement d.writer ((ArrayJoin.ofTable table .left schema).head ++
    chain JoinCondition.opening (ms.map (translate .on))) false [] = _
  rw [Fragment.statement, written_append, bindings_append, hwritten, hbindings, hhead]
  rfl

/-- Conditions as the members of one group: the same text in parentheses, the same values. -/
theorem chain_groupMember (cs : List WhereClause) (h : ∀ m ∈ ms, m.Solid d.writer)
    (k : Connector) :
    (chain (fun _ => []) [groupMember cs false k ms]).text d =
        enclosed "(" ((chain (fun _ => []) ms).text d) ")" ∧
      bindings (chain (fun _ => []) [groupMember cs false k ms]) =
        bindings (chain (fun _ => []) ms) := by
  have hempty := written_chain_eq_empty_iff h
  rw [groupMember, enclosed, Fragment.text, Fragment.text]
  cases hany : ms.any counts with
  | true =>
    have hsingle (c : WhereClause) (f : Fragment) :
        chain (fun _ => []) [⟨c, true, f⟩] = f := by simp [chain, linked]
    rw [if_pos rfl, hsingle, if_neg (by simp [hempty, hany])]
    simp [negation, parenthesized, Piece.bindings, String.append_assoc]
  | false =>
    have hnil : chain (fun _ => []) ms = [] := by
      rw [chain_eq_of_solid h fun _ _ => rfl, hany, if_neg Bool.false_ne_true]
    rw [if_neg Bool.false_ne_true, hnil]
    exact ⟨rfl, rfl⟩

theorem offences_toJoin (d : Dialect) (cs : List WhereClause) :
    JoinConditions.offences d (toJoin cs) = WhereClause.offences d cs := by
  rw [JoinConditions.offences, toJoin, testsOf_mapAll, List.flatMap_map]
  rfl

theorem refuses_compileGroup (d : Dialect) (keyword : String) (cs : List WhereClause) :
    Refuses (d.compileGroup keyword cs) (WhereClause.offences d cs) :=
  (refuses_groupFragment d keyword cs).bind_ok

theorem refuses_compileArrayJoin (d : Dialect) (table : String) (schema : Option String)
    (cs : JoinConditions) :
    Refuses (d.compileArrayJoins [(ArrayJoin.ofTable table .left schema).withConditions cs])
      (JoinConditions.offences d cs) := by
  have h := ArrayJoin.refuses_listFragment d.writer
    [(ArrayJoin.ofTable table .left schema).withConditions cs]
  rw [List.flatMap_cons, List.flatMap_nil, List.append_nil] at h
  exact h.bind_ok

/-- Conditions are written alike in the two groups and in a join, alone or as the members of one
group. If they are refused, they are refused everywhere with the same error. -/
theorem compile_toJoin (d : Dialect) (table : String) (schema : Option String)
    (v : List WhereClause) :
    (∀ e, (WhereClause.offences d v).head? = some e →
      d.compilePrewhere v = .error e ∧ d.compileWhere v = .error e ∧
      d.compileWhere [.wrapped v] = .error e ∧
      d.compileArrayJoins [(ArrayJoin.ofTable table .left schema).withConditions
        (toJoin v)] = .error e ∧
      d.compileArrayJoins [(ArrayJoin.ofTable table .left schema).withConditions
        [.onWrapped (toJoin v)]] = .error e) ∧
    (WhereClause.offences d v = [] → (∀ r, Test.raw r ∈ testsOf v → r.sql ≠ "") →
      ∃ text values undefined,
        d.compilePrewhere v = .ok ⟨enclosed "prewhere " text "", values, undefined, []⟩ ∧
        d.compileWhere v = .ok ⟨enclosed "where " text "", values, undefined, []⟩ ∧
        d.compileWhere [.wrapped v] = .ok ⟨enclosed "where (" text ")", values, undefined, []⟩ ∧
        d.compileArrayJoins [(ArrayJoin.ofTable table .left schema).withConditions (toJoin v)] =
          .ok ⟨"left join " ++ d.wrap (qualified schema table) ++ enclosed " on " text "",
            values, false, []⟩ ∧
        d.compileArrayJoins [(ArrayJoin.ofTable table .left schema).withConditions
            [.onWrapped (toJoin v)]] =
          .ok ⟨"left join " ++ d.wrap (qualified schema table) ++ enclosed " on (" text ")",
            values, false, []⟩) := by
  constructor
  · intro e he
    have hgroup : WhereClause.offences d [.wrapped v] = WhereClause.offences d v := by
      rw [WhereClause.offences, WhereClause.offences, wrapped, testsOf_ofMembers]
    have hjoin : JoinConditions.offences d [.onWrapped (toJoin v)] = WhereClause.offences d v := by
      rw [JoinConditions.offences, JoinCondition.onWrapped, testsOf_ofMembers, ← offences_toJoin,
        JoinConditions.offences]
    refine ⟨(refuses_compileGroup d "prewhere" v e).2 he,
      (refuses_compileGroup d "where" v e).2 he,
      (refuses_compileGroup d "where" [.wrapped v] e).2 ?_,
      (refuses_compileArrayJoin d table schema (toJoin v) e).2 ?_,
      (refuses_compileArrayJoin d table schema [.onWrapped (toJoin v)] e).2 ?_⟩
    · rwa [hgroup]
    · rwa [offences_toJoin]
    · rwa [hjoin]
  · intro hoffences hraw
    have hmembers := refuses_members d v
    rw [hoffences] at hmembers
    obtain ⟨ms, hms⟩ := hmembers.exists_ok
    obtain ⟨hjoin, hsolid⟩ := members_toJoin hms hraw
    have hgroup : members d [.wrapped v] = .ok [groupMember v false .and ms] :=
      members_group_cons false .and hms (by rw [Condition.members])
    obtain ⟨hgroupJoin, hgroupSolid⟩ := members_toJoin hgroup (testsOf_ofMembers v ▸ hraw)
    obtain ⟨htext, hvalues⟩ := chain_groupMember v hsolid .and
    have hundefined : groupUndefined [.wrapped v] = groupUndefined v := by
      simp [groupUndefined, wrapped, ofMembers, anyOf, any]
    have hwhere := compileGroup_of_solid "where" hgroup hgroupSolid
    have hon := compileArrayJoins_of_solid table schema hgroupJoin hgroupSolid
    rw [htext, hvalues, enclosed_enclosed _ _ _ _ (by decide), hundefined] at hwhere
    rw [htext, hvalues, enclosed_enclosed _ _ _ _ (by decide)] at hon
    exact ⟨(chain (fun _ => []) ms).text d, _, _, compileGroup_of_solid "prewhere" hms hsolid,
      compileGroup_of_solid "where" hms hsolid, hwhere,
      compileArrayJoins_of_solid table schema hjoin hsolid, hon⟩

/-- Raw text in a group that is negated, with groups without a test around it. -/
def translated : List WhereClause :=
  [.group [] true .or, .test (.basic "a" " LIKE " (.value (.text "x"))) true .or,
    .group [.group [] false .and, .test (.raw ⟨"f(?)", [.int 1]⟩) false .or,
      .test (.isIn (.multi []) (.rows [])) true .and] true .or]

/-- The refused operator stands behind a condition that is written. -/
def untranslatable : List WhereClause :=
  [.ofTest (.isNull "a"), .wrapped [.ofTest (.basic "a" "Is" (.value .null))]]

theorem compile_toJoin_translated :
    clickhouse.compileArrayJoins [(ArrayJoin.ofTable "t" .left none).withConditions
        [.onWrapped (toJoin untranslatable)]] = .error (.operatorNotPermitted "Is") ∧
      ∃ text undefined,
        clickhouse.compilePrewhere translated =
          .ok ⟨enclosed "prewhere " text "", [.text "x", .int 1], undefined, []⟩ ∧
        clickhouse.compileArrayJoins [(ArrayJoin.ofTable "t" .left none).withConditions
            [.onWrapped (toJoin translated)]] =
          .ok ⟨"left join `t`" ++ enclosed " on (" text ")", [.text "x", .int 1], false, []⟩ := by
  have hraw : ∀ r, Test.raw r ∈ testsOf translated → r.sql ≠ "" := by
    intro r hr
    simp [translated] at hr
    simp [hr]
  obtain ⟨hrefused, -⟩ := compile_toJoin clickhouse "t" none untranslatable
  obtain ⟨-, haccepted⟩ := compile_toJoin clickhouse "t" none translated
  obtain ⟨-, -, -, -, honWrapped⟩ := hrefused (.operatorNotPermitted "Is") rfl
  obtain ⟨text, values, undefined, hprewhere, -, -, -, hon⟩ := haccepted rfl hraw
  obtain rfl : [.text "x", .int 1] = values :=
    Except.ok.inj (congrArg (Except.map Statement.bindings) hprewhere)
  exact ⟨honWrapped, text, undefined, hprewhere, hon⟩

end Dialect

end ClauseTree
