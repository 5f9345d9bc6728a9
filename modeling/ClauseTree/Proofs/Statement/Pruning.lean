import ClauseTree.Proofs.Statement.Composition
import ClauseTree.Proofs.Statement.Offences

/-!
# Empty groups

A group without a test at any depth writes nothing, and nothing can be told of it from a statement.
`prune` takes such groups out of a tree, at every depth, and `compile_prune` says that the tree is
compiled to the same statement, or refused with the same error. What stands behind empty groups is
written as if it stood in front: it follows the word that introduces the conditions, and its own
connector is not written.

The three kinds of chains skip an empty group each in its own way. `Thins` relates the members of a
list of conditions to those of the pruned list, and each chain of the one is the chain of the other.
-/

namespace ClauseTree

namespace Condition

variable {α : Type}

mutual

/-- The condition with the groups in it pruned. Nothing is left of a group that has no test. -/
def prune? : Condition α → Option (Condition α)
  | .test t n k => some (.test t n k)
  | .group ms n k => if (prune ms).isEmpty then none else some (.group (prune ms) n k)

/-- The conditions without the groups that have no test, at every depth. -/
def prune : List (Condition α) → List (Condition α)
  | [] => []
  | c :: cs => (prune? c).toList ++ prune cs

end

theorem prune_nil : prune ([] : List (Condition α)) = [] := rfl

theorem prune_test_cons (t : α) (n : Bool) (k : Connector) (cs : List (Condition α)) :
    prune (.test t n k :: cs) = .test t n k :: prune cs := rfl

theorem prune_group_cons_of_eq_nil {ms : List (Condition α)} (h : prune ms = []) (n : Bool)
    (k : Connector) (cs : List (Condition α)) : prune (.group ms n k :: cs) = prune cs := by
  rw [prune, prune?, h]
  rfl

theorem prune_group_cons {ms : List (Condition α)} (h : prune ms ≠ []) (n : Bool) (k : Connector)
    (cs : List (Condition α)) :
    prune (.group ms n k :: cs) = .group (prune ms) n k :: prune cs := by
  rw [prune, prune?, if_neg (by simpa using h)]
  rfl

theorem prune_append (cs ds : List (Condition α)) : prune (cs ++ ds) = prune cs ++ prune ds := by
  induction cs with
  | nil => rfl
  | cons c cs ih => rw [List.cons_append, prune, prune, ih, List.append_assoc]

/-- Pruning takes no test away. -/
theorem testsOf_prune (cs : List (Condition α)) : testsOf (prune cs) = testsOf cs := by
  induction cs using forest_induction with
  | nil => rfl
  | test t n k cs ih => rw [prune_test_cons, testsOf_test_cons, testsOf_test_cons, ih]
  | group ms n k cs ihms ih =>
    rw [testsOf_group_cons, ← ihms, ← ih]
    by_cases h : prune ms = []
    · rw [prune_group_cons_of_eq_nil h, h, testsOf_nil, List.nil_append]
    · rw [prune_group_cons h, testsOf_group_cons]

theorem anyOf_eq_any_testsOf (p : α → Bool) (cs : List (Condition α)) :
    anyOf p cs = (testsOf cs).any p := by
  induction cs using forest_induction with
  | nil => rfl
  | test t n k cs ih => rw [anyOf, any, ih, testsOf_test_cons, List.any_cons]
  | group ms n k cs ihms ih => rw [anyOf, any, ihms, ih, testsOf_group_cons, List.any_append]

/-- The condition without the members of a group. -/
def bare : Condition α → Condition α
  | .test t n k => .test t n k
  | .group _ n k => .group [] n k

theorem connector_bare (c : Condition α) : c.bare.connector = c.connector := by
  cases c <;> rfl

end Condition

open Condition

/-! ## Members -/

namespace Member

variable {α : Type}

/-- The members write the same. If they stand for groups, the groups may have other members. -/
structure Alike (m m' : Member α) : Prop where
  bare : m.condition.bare = m'.condition.bare
  counts : m.counts = m'.counts
  fragment : m.fragment = m'.fragment

theorem Alike.link {m m' : Member α} (h : Alike m m') : m.link = m'.link := by
  rw [Member.link, Member.link, ← connector_bare, h.bare, connector_bare]

/-- The second list is the first one without some members that take no place and write nothing. -/
inductive Thins : List (Member α) → List (Member α) → Prop
  | nil : Thins [] []
  | skip {m : Member α} {ms ms' : List (Member α)} (hcounts : m.counts = false)
      (hnil : m.fragment = []) (h : Thins ms ms') : Thins (m :: ms) ms'
  | keep {m m' : Member α} {ms ms' : List (Member α)} (hm : Alike m m') (h : Thins ms ms') :
      Thins (m :: ms) (m' :: ms')

namespace Thins

variable {ms ms' : List (Member α)}

theorem any_counts (h : Thins ms ms') : ms.any counts = ms'.any counts := by
  induction h with
  | nil => rfl
  | skip hcounts _ _ ih => rw [List.any_cons, hcounts, Bool.false_or, ih]
  | keep hm _ ih => rw [List.any_cons, List.any_cons, hm.counts, ih]

theorem linked (h : Thins ms ms') : linked ms = Member.linked ms' := by
  induction h with
  | nil => rfl
  | skip hcounts hnil _ ih =>
    rw [linked_cons, hcounts, hnil, if_neg Bool.false_ne_true, List.nil_append, ih]
  | keep hm _ ih => rw [linked_cons, linked_cons, hm.counts, hm.link, hm.fragment, ih]

theorem chain {opening : Condition α → Fragment}
    (hopening : ∀ c c', c.bare = c'.bare → opening c = opening c') (h : Thins ms ms') :
    chain opening ms = Member.chain opening ms' := by
  induction h with
  | nil => rfl
  | skip hcounts hnil _ ih =>
    rw [Member.chain, hcounts, hnil, if_neg Bool.false_ne_true, List.nil_append, ih]
  | keep hm hms ih =>
    rw [Member.chain, Member.chain, hm.counts, hm.fragment, hopening _ _ hm.bare, hms.linked, ih]

theorem chainOfText (w : Writer) (started : Bool) (h : Thins ms ms') :
    chainOfText w started ms = Member.chainOfText w started ms' := by
  induction h generalizing started with
  | nil => rfl
  | skip hcounts hnil _ ih =>
    rw [Member.chainOfText, hcounts, hnil, ih]
    simp [Fragment.isEmptyBy]
  | keep hm _ ih =>
    rw [Member.chainOfText, Member.chainOfText, hm.counts, hm.link, hm.fragment, ih]

end Thins

end Member

open Member

/-- If a group is written as its members are, and an empty one is not written at all, the pruned
conditions are written as all of them are. -/
theorem Condition.thins_members_prune {α : Type} {test : Bool → α → Except CompileError Fragment}
    {group : List (Condition α) → Bool → Connector → List (Member α) → Member α}
    (hempty : ∀ gs n k gms, Thins gms [] →
      (group gs n k gms).counts = false ∧ (group gs n k gms).fragment = [])
    (hgroup : ∀ gs gs' n k gms gms', Thins gms gms' →
      Alike (group gs n k gms) (group gs' n k gms'))
    {cs : List (Condition α)} {ms : List (Member α)} (h : members test group cs = .ok ms) :
    ∃ ms', members test group (prune cs) = .ok ms' ∧ Thins ms ms' := by
  refine members_induction
    (motive := fun cs ms => ∃ ms', members test group (prune cs) = .ok ms' ∧ Thins ms ms')
    ?_ ?_ ?_ h
  · exact ⟨[], by rw [prune_nil, members], Thins.nil⟩
  · rintro t n k f cs ms hf ⟨ms', hms', hthins⟩
    exact ⟨_, members_test_cons k hf hms', Thins.keep ⟨rfl, rfl, rfl⟩ hthins⟩
  · rintro gs gms n k cs ms ⟨gms', hgms', hgthins⟩ ⟨ms', hms', hthins⟩
    -- If nothing is left of the group, its members thin to none and it writes nothing.
    by_cases hnil : prune gs = []
    · obtain rfl : gms' = [] := by
        rw [hnil, members] at hgms'
        exact (Except.ok.inj hgms').symm
      obtain ⟨hcounts, hfragment⟩ := hempty gs n k gms hgthins
      rw [prune_group_cons_of_eq_nil hnil]
      exact ⟨ms', hms', Thins.skip hcounts hfragment hthins⟩
    · rw [prune_group_cons hnil]
      exact ⟨_, members_group_cons n k hgms' hms',
        Thins.keep (hgroup gs (prune gs) n k gms gms' hgthins) hthins⟩

namespace WhereClause

theorem offences_prune (d : Dialect) (cs : List WhereClause) :
    offences d (prune cs) = offences d cs := by
  rw [offences, offences, testsOf_prune]

theorem groupUndefined_prune (cs : List WhereClause) :
    groupUndefined (prune cs) = groupUndefined cs := by
  rw [groupUndefined, groupUndefined, anyOf_eq_any_testsOf, anyOf_eq_any_testsOf, testsOf_prune]

theorem alike_groupMember (gs gs' : List WhereClause) (n : Bool) (k : Connector)
    (gms gms' : List (Member Test)) (h : Thins gms gms') :
    Alike (groupMember gs n k gms) (groupMember gs' n k gms') := by
  rw [groupMember, groupMember, h.any_counts, h.chain fun _ _ _ => rfl]
  split <;> exact ⟨rfl, rfl, rfl⟩

theorem groupMember_of_thins_nil (gs : List WhereClause) (n : Bool) (k : Connector)
    (gms : List (Member Test)) (h : Thins gms []) :
    (groupMember gs n k gms).counts = false ∧ (groupMember gs n k gms).fragment = [] := by
  have halike := alike_groupMember gs gs n k gms [] h
  rw [halike.counts, halike.fragment]
  exact ⟨rfl, rfl⟩

theorem groupFragment_prune (d : Dialect) (keyword : String) (cs : List WhereClause) :
    groupFragment d keyword (prune cs) = groupFragment d keyword cs := by
  cases hms : members d cs with
  | error e =>
    have hpruned : members d (prune cs) = .error e :=
      (refuses_members d cs).error_of_error (offences_prune d cs ▸ refuses_members d _) hms
    rw [groupFragment, groupFragment, hms, hpruned]
  | ok ms =>
    obtain ⟨ms', hms', hthins⟩ :=
      Condition.thins_members_prune groupMember_of_thins_nil alike_groupMember hms
    have hpruned : members d (prune cs) = .ok ms' := hms'
    rw [groupFragment, groupFragment, hms, hpruned]
    exact congrArg Except.ok (hthins.chain fun _ _ _ => rfl).symm

end WhereClause

namespace JoinCondition

theorem alike_groupMember (w : Writer) (gs gs' : List JoinCondition) (n : Bool) (k : Connector)
    (gms gms' : List (Member JoinTest)) (h : Thins gms gms') :
    Alike (groupMember w gs n k gms) (groupMember w gs' n k gms') := by
  rw [groupMember, groupMember, h.chainOfText]
  split <;> exact ⟨rfl, rfl, rfl⟩

theorem groupMember_of_thins_nil (w : Writer) (gs : List JoinCondition) (n : Bool) (k : Connector)
    (gms : List (Member JoinTest)) (h : Thins gms []) :
    (groupMember w gs n k gms).counts = false ∧ (groupMember w gs n k gms).fragment = [] := by
  have halike := alike_groupMember w gs gs n k gms [] h
  rw [halike.counts, halike.fragment]
  exact ⟨rfl, rfl⟩

/-- The word that introduces a group does not depend on its members. -/
theorem opening_eq_of_bare (c c' : JoinCondition) (h : c.bare = c'.bare) :
    opening c = opening c' := by
  have hopening (c : JoinCondition) : opening c.bare = opening c := by
    cases c <;> rfl
  rw [← hopening, h, hopening]

end JoinCondition

/-! ## Queries -/

/-- The join with its conditions pruned. -/
def ArrayJoin.prune (j : ArrayJoin) : ArrayJoin :=
  { j with conditions := Condition.prune j.conditions }

/-- The query without the groups that have no test, in all its lists of conditions. -/
def Query.prune (q : Query) : Query :=
  { q with categories := { q.categories with
      arrayJoins := q.categories.arrayJoins.map ArrayJoin.prune
      prewhere := Condition.prune q.categories.prewhere
      filter := Condition.prune q.categories.filter } }

namespace ArrayJoin

variable {w : Writer}

theorem members_prune (w : Writer) (cs : List JoinCondition) :
    (∃ e, JoinCondition.members w cs = .error e ∧
      JoinCondition.members w (Condition.prune cs) = .error e) ∨
    ∃ ms ms', JoinCondition.members w cs = .ok ms ∧
      JoinCondition.members w (Condition.prune cs) = .ok ms' ∧ Thins ms ms' := by
  cases hms : JoinCondition.members w cs with
  | error e =>
    have hoffences : JoinConditions.offences w.dialect (Condition.prune cs) =
        JoinConditions.offences w.dialect cs := by
      rw [JoinConditions.offences, JoinConditions.offences, testsOf_prune]
    exact Or.inl ⟨e, rfl, (JoinCondition.refuses_members w cs).error_of_error
      (hoffences ▸ JoinCondition.refuses_members w _) hms⟩
  | ok ms =>
    obtain ⟨ms', hms', hthins⟩ := Condition.thins_members_prune
      (JoinCondition.groupMember_of_thins_nil w) (JoinCondition.alike_groupMember w) hms
    exact Or.inr ⟨ms, ms', rfl, hms', hthins⟩

theorem fragment_prune (w : Writer) (j : ArrayJoin) : j.prune.fragment w = j.fragment w := by
  obtain ⟨source, schema, kind, conditions⟩ := j
  have hwritten (head : Fragment) :
      (do
        let ms ← JoinCondition.members w (Condition.prune conditions)
        return head ++ Member.chain JoinCondition.opening ms : Except CompileError Fragment) =
      (do
        let ms ← JoinCondition.members w conditions
        return head ++ Member.chain JoinCondition.opening ms) := by
    rcases members_prune w conditions with ⟨e, h, h'⟩ | ⟨ms, ms', h, h', hthins⟩
    · rw [h, h']
    · rw [h, h']
      exact congrArg (fun f => Except.ok (head ++ f))
        (hthins.chain JoinCondition.opening_eq_of_bare).symm
  cases kind with
  | raw => cases source <;> rfl
  | inner => exact hwritten _
  | left => exact hwritten _

theorem listFragment_prune (w : Writer) (js : List ArrayJoin) :
    listFragment w (js.map ArrayJoin.prune) = listFragment w js := by
  have hfragments : fragments w (js.map ArrayJoin.prune) = fragments w js := by
    induction js with
    | nil => rfl
    | cons j js ih => rw [List.map_cons, fragments, fragments, fragment_prune, ih]
  rw [listFragment, listFragment, hfragments]

end ArrayJoin

namespace Query

theorem selectFragment_prune (w : Writer) (q : Query) :
    q.prune.selectFragment w = q.selectFragment w := by
  have hsource : Fragment.source q.prune = Fragment.source q := rfl
  rw [selectFragment, selectFragment, hsource]
  simp only [prune, ArrayJoin.listFragment_prune, WhereClause.groupFragment_prune]

theorem updateFragment_prune (w : Writer) (q : Query) :
    q.prune.updateFragment w = q.updateFragment w := by
  rw [updateFragment, updateFragment]
  simp only [prune, ArrayJoin.listFragment_prune, WhereClause.groupFragment_prune]

end Query

/-! ## The first condition -/

namespace Condition

variable {α : Type} {test : Bool → α → Except CompileError Fragment}
  {group : List (Condition α) → Bool → Connector → List (Member α) → Member α}

theorem setConnector_connector (c : Condition α) : c.setConnector c.connector = c := by
  cases c <;> rfl

theorem prune_append_cons {es : List (Condition α)} (hes : prune es = []) (c : Condition α)
    (cs : List (Condition α)) : prune (es ++ c :: cs) = prune (c :: cs) := by
  rw [prune_append, hes, List.nil_append]

/-- The connector of the first condition is not written. -/
theorem map_chain_setConnector {β : Type} {opening : Condition α → Fragment}
    (hopening : ∀ c k, opening (setConnector k c) = opening c)
    (hgroup : ∀ gs n k k' gms, group gs n k gms =
      ⟨.group gs n k, (group gs n k' gms).counts, (group gs n k' gms).fragment⟩)
    (finish : Fragment → β) (c : Condition α) (k : Connector) (cs : List (Condition α)) :
    (members test group (c.setConnector k :: cs)).map (finish ∘ Member.chain opening) =
      (members test group (c :: cs)).map (finish ∘ Member.chain opening) := by
  cases c with
  | test t n k' =>
    rw [setConnector, members, members, member, member]
    cases test n t with
    | error e => rfl
    | ok f =>
      cases members test group cs with
      | error e => rfl
      | ok ms =>
        have hopen : opening (.test t n k) = opening (.test t n k') := hopening (.test t n k') k
        exact congrArg (fun g => Except.ok (finish (g ++ f ++ Member.linked ms))) hopen
  | group gs n k' =>
    rw [setConnector, members, members, member, member]
    cases members test group gs with
    | error e => rfl
    | ok gms =>
      cases members test group cs with
      | error e => rfl
      | ok ms =>
        have hopen : opening (.group gs n k) = opening (.group gs n k') :=
          hopening (.group gs n k') k
        refine congrArg (Except.ok ∘ finish) ?_
        rw [hgroup gs n k k', hgroup gs n k' k', Member.chain, Member.chain, hopen]

/-- What the first condition writes stands behind the word that introduces it, if it counts. -/
theorem chain_of_members_cons (opening : Condition α → Fragment) {c : Condition α}
    {cs : List (Condition α)} {m : Member α} {ms : List (Member α)}
    (hm : members test group [c] = .ok [m]) (hcounts : m.counts = true)
    (hms : members test group (c :: cs) = .ok ms) :
    ∃ rest, Member.chain opening ms = opening m.condition ++ m.fragment ++ rest := by
  obtain ⟨m', hm', hms⟩ := bind_eq_ok.1 hms
  obtain ⟨ms', -, hms⟩ := bind_eq_ok.1 hms
  cases hms
  obtain rfl : m' = m := by
    rw [members, hm'] at hm
    cases hm
    rfl
  exact ⟨Member.linked ms', by rw [Member.chain, if_pos hcounts]⟩

end Condition

namespace JoinCondition

theorem opening_setConnector (c : JoinCondition) (k : Connector) :
    opening (c.setConnector k) = opening c := by
  cases c with
  | test t n k' => cases t <;> rfl
  | group gs n k' => rfl

theorem opening_of_members {w : Writer} {c : JoinCondition} {m : Member JoinTest}
    (h : members w [c] = .ok [m]) : opening m.condition = opening c := by
  obtain ⟨m', hm', h⟩ := bind_eq_ok.1 h
  cases h
  cases c with
  | test t n k =>
    obtain ⟨f, -, hm'⟩ := bind_eq_ok.1 hm'
    cases hm'
    rfl
  | group gs n k =>
    obtain ⟨gms, -, hm'⟩ := bind_eq_ok.1 hm'
    cases hm'
    rw [groupMember]
    split <;> rfl

end JoinCondition

namespace ArrayJoin

theorem fragment_append_cons (w : Writer) (j : ArrayJoin) {es : JoinConditions}
    (hes : Condition.prune es = []) (c : JoinCondition) (cs : JoinConditions) :
    (j.withConditions (es ++ c :: cs)).fragment w = (j.withConditions (c :: cs)).fragment w := by
  rw [← fragment_prune, ← fragment_prune w (j.withConditions (c :: cs))]
  exact congrArg (fun cs => (j.withConditions cs).fragment w) (prune_append_cons hes c cs)

theorem fragment_setConnector (w : Writer) (j : ArrayJoin) (c : JoinCondition) (k : Connector)
    (cs : JoinConditions) :
    (j.withConditions (c.setConnector k :: cs)).fragment w =
      (j.withConditions (c :: cs)).fragment w := by
  by_cases hkind : j.kind = .raw
  · obtain ⟨source, schema, kind, conditions⟩ := j
    cases hkind
    cases source <;> rfl
  · rw [fragment_withConditions w hkind, fragment_withConditions w hkind]
    refine Condition.map_chain_setConnector JoinCondition.opening_setConnector ?_ _ c k cs
    intro gs n k k' gms
    rw [JoinCondition.groupMember, JoinCondition.groupMember]
    split <;> rfl

end ArrayJoin

namespace WhereClause

theorem groupFragment_append_cons (d : Dialect) (keyword : String) {es : List WhereClause}
    (hes : Condition.prune es = []) (c : WhereClause) (cs : List WhereClause) :
    groupFragment d keyword (es ++ c :: cs) = groupFragment d keyword (c :: cs) := by
  rw [← groupFragment_prune, prune_append_cons hes, groupFragment_prune]

theorem groupFragment_setConnector (d : Dialect) (keyword : String) (c : WhereClause)
    (k : Connector) (cs : List WhereClause) :
    groupFragment d keyword (c.setConnector k :: cs) = groupFragment d keyword (c :: cs) := by
  have hmap (cs : List WhereClause) : groupFragment d keyword cs =
      (members d cs).map (id ∘ Member.chain fun _ => [.word keyword, .word " "]) := by
    rw [groupFragment]
    cases members d cs <;> rfl
  rw [hmap, hmap]
  refine Condition.map_chain_setConnector (fun _ _ => rfl) ?_ id c k cs
  intro gs n k k' gms
  rw [groupMember, groupMember]
  split <;> rfl

theorem groupUndefined_append_cons {es : List WhereClause} (hes : Condition.prune es = [])
    (c : WhereClause) (k : Connector) (cs : List WhereClause) :
    groupUndefined (es ++ c :: cs) = groupUndefined (c.setConnector k :: cs) := by
  rw [← groupUndefined_prune, prune_append_cons hes, groupUndefined_prune]
  cases c <;> rfl

end WhereClause

namespace Dialect

variable {d : Dialect}

theorem compileSelect_prune (d : Dialect) (q : Query) :
    d.compileSelect q.prune = d.compileSelect q := by
  rw [compileSelect, compileSelect, Writer.compileSelect, Writer.compileSelect,
    Query.selectFragment_prune]
  simp only [Query.prune, WhereClause.groupUndefined_prune]
  rfl

theorem compileUpdate_prune (d : Dialect) (q : Query) :
    d.compileUpdate q.prune = d.compileUpdate q := by
  rw [compileUpdate, compileUpdate, Writer.compileUpdate, Writer.compileUpdate,
    Query.updateFragment_prune]
  simp only [Query.prune, WhereClause.groupUndefined_prune]
  rfl

theorem compileGroup_append_cons (d : Dialect) (keyword : String) {es : List WhereClause}
    (hes : Condition.prune es = []) (c : WhereClause) (k : Connector) (cs : List WhereClause) :
    d.compileGroup keyword (es ++ c :: cs) = d.compileGroup keyword (c.setConnector k :: cs) := by
  rw [compileGroup, compileGroup, WhereClause.groupFragment_append_cons d keyword hes,
    WhereClause.groupFragment_setConnector, WhereClause.groupUndefined_append_cons hes c k]

/-- The first condition that counts stands behind the keyword. -/
theorem sql_compileGroup {keyword : String} {c : WhereClause} {cs : List WhereClause}
    {m : Member Test} {s : Statement} (hm : WhereClause.members d [c] = .ok [m])
    (hcounts : m.counts = true) (h : d.compileGroup keyword (c :: cs) = .ok s) :
    ∃ rest, s.sql = keyword ++ " " ++ m.fragment.text d ++ rest := by
  obtain ⟨f, hf, h⟩ := bind_eq_ok.1 h
  cases h
  obtain ⟨ms, hms, hf⟩ := bind_eq_ok.1 hf
  cases hf
  obtain ⟨rest, hrest⟩ := Condition.chain_of_members_cons
    (fun _ => [.word keyword, .word " "]) hm hcounts hms
  refine ⟨rest.text d, ?_⟩
  rw [Fragment.statement, hrest]
  simp [Fragment.text, String.append_assoc]

theorem compileArrayJoins_append_cons (d : Dialect) (j : ArrayJoin) {es : JoinConditions}
    (hes : Condition.prune es = []) (c : JoinCondition) (k : Connector) (cs : JoinConditions) :
    d.compileArrayJoins [j.withConditions (es ++ c :: cs)] =
      d.compileArrayJoins [j.withConditions (c.setConnector k :: cs)] := by
  rw [compileArrayJoins_singleton, compileArrayJoins_singleton,
    ArrayJoin.fragment_append_cons _ j hes, ArrayJoin.fragment_setConnector]

/-- The first condition that counts stands behind the word it asks for. -/
theorem sql_compileArrayJoins {j : ArrayJoin} {c : JoinCondition} {cs : JoinConditions}
    {m : Member JoinTest} {s : Statement} (hkind : j.kind ≠ .raw)
    (hm : JoinCondition.members d.writer [c] = .ok [m]) (hcounts : m.counts = true)
    (h : d.compileArrayJoins [j.withConditions (c :: cs)] = .ok s) :
    ∃ rest, s.sql = j.head.text d ++ (if c.isUsing then " using " else " on ") ++
      m.fragment.text d ++ rest := by
  rw [compileArrayJoins_singleton, ArrayJoin.fragment_withConditions _ hkind] at h
  cases hms : JoinCondition.members d.writer (c :: cs) with
  | error e =>
    rw [hms] at h
    cases h
  | ok ms =>
    rw [hms] at h
    cases h
    obtain ⟨rest, hrest⟩ :=
      Condition.chain_of_members_cons JoinCondition.opening hm hcounts hms
    rw [JoinCondition.opening_of_members hm, JoinCondition.opening] at hrest
    refine ⟨rest.text d, ?_⟩
    change Fragment.written d.writer (j.head ++ Member.chain JoinCondition.opening ms) = _
    rw [hrest]
    simp [Fragment.text, String.append_assoc]

/-- Groups without a test make no difference to a statement, nor to the error if it is refused.
The condition that is the first one without them has no connector and stands behind the word
that introduces the conditions. In a join that word is its own. -/
theorem compile_prune (d : Dialect) :
    (∀ q : Query, d.compileSelect q.prune = d.compileSelect q ∧
      d.compileUpdate q.prune = d.compileUpdate q) ∧
    (∀ (keyword : String) (es : List WhereClause) (c : WhereClause) (cs : List WhereClause),
      Condition.prune es = [] →
      (∀ k, d.compileGroup keyword (es ++ c :: cs) =
        d.compileGroup keyword (c.setConnector k :: cs)) ∧
      ∀ m s, WhereClause.members d [c] = .ok [m] → m.counts = true →
        d.compileGroup keyword (es ++ c :: cs) = .ok s →
        ∃ rest, s.sql = keyword ++ " " ++ m.fragment.text d ++ rest) ∧
    ∀ (j : ArrayJoin) (es : JoinConditions) (c : JoinCondition) (cs : JoinConditions),
      Condition.prune es = [] →
      (∀ k, d.compileArrayJoins [j.withConditions (es ++ c :: cs)] =
        d.compileArrayJoins [j.withConditions (c.setConnector k :: cs)]) ∧
      ∀ m s, j.kind ≠ .raw → JoinCondition.members d.writer [c] = .ok [m] → m.counts = true →
        d.compileArrayJoins [j.withConditions (es ++ c :: cs)] = .ok s →
        ∃ rest, s.sql = j.head.text d ++ (if c.isUsing then " using " else " on ") ++
          m.fragment.text d ++ rest := by
  refine ⟨fun q => ⟨compileSelect_prune d q, compileUpdate_prune d q⟩, ?_, ?_⟩
  · intro keyword es c cs hes
    refine ⟨fun k => compileGroup_append_cons d keyword hes c k cs, fun m s hm hcounts h => ?_⟩
    rw [compileGroup_append_cons d keyword hes c c.connector, setConnector_connector] at h
    exact sql_compileGroup hm hcounts h
  · intro j es c cs hes
    refine ⟨fun k => compileArrayJoins_append_cons d j hes c k cs,
      fun m s hkind hm hcounts h => ?_⟩
    rw [compileArrayJoins_append_cons d j hes c c.connector, setConnector_connector] at h
    exact sql_compileArrayJoins hkind hm hcounts h

/-- Groups without a test, one of them of groups without a test. -/
def hollow {α : Type} : List (Condition α) :=
  [.group [] true .or, .group [.group [] false .or, .group [] true .and] false .and]

theorem compile_prune_hollow :
    ∃ s t, clickhouse.compileWhere
        (hollow ++ .test (.isNull "a") true .or :: (hollow ++ [.ofTest (.isNull "b")])) = .ok s ∧
      clickhouse.compileArrayJoins [(ArrayJoin.ofTable "t" .left none).withConditions
        (hollow ++ .test (.usingColumns (.single "k")) false .or :: hollow)] = .ok t ∧
      (∃ rest, s.sql = "where `a` is not null" ++ rest) ∧
      ∃ rest, t.sql = "left join `t` using `k`" ++ rest := by
  obtain ⟨-, hgroup, hjoin⟩ := compile_prune clickhouse
  refine ⟨_, _, rfl, rfl, ?_, ?_⟩
  · exact (hgroup "where" hollow (.test (.isNull "a") true .or)
      (hollow ++ [.ofTest (.isNull "b")]) rfl).2 _ _ rfl rfl rfl
  · exact (hjoin (.ofTable "t" .left none) hollow (.test (.usingColumns (.single "k")) false .or)
      hollow rfl).2 _ _ (by decide) rfl rfl rfl

end Dialect

end ClauseTree
