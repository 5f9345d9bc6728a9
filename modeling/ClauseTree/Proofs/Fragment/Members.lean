import ClauseTree.Fragment.Statement

/-!
# Successful fragments

A group is written only if every test in it is. `members_induction` is induction over a list
of conditions together with the members that were made of it: the two lists grow side by
side, and a group stands beside the members of its own. The remaining statements say what an
array join and a statement consist of once they are written.
-/

namespace ClauseTree

/-- A sequence of two steps succeeds if the first one does and the second one does with what
the first one gave. -/
theorem bind_eq_ok {ε α β : Type} {x : Except ε α} {f : α → Except ε β} {b : β} :
    x >>= f = .ok b ↔ ∃ a, x = .ok a ∧ f a = .ok b := by
  cases x with
  | ok a =>
    constructor
    · intro h
      exact ⟨a, rfl, h⟩
    · rintro ⟨a', ha, h⟩
      cases ha
      exact h
  | error e =>
    constructor
    · intro h
      cases h
    · rintro ⟨a, ha, h⟩
      cases ha

namespace Condition

variable {α : Type} {test : Bool → α → Except CompileError Fragment}
  {group : List (Condition α) → Bool → Connector → List (Member α) → Member α}

@[elab_as_elim]
theorem members_induction {motive : List (Condition α) → List (Member α) → Prop}
    (onNil : motive [] [])
    (onTest : ∀ t n k f cs ms, test n t = .ok f → motive cs ms →
      motive (.test t n k :: cs) (⟨.test t n k, true, f⟩ :: ms))
    (onGroup : ∀ gs gms n k cs ms, motive gs gms → motive cs ms →
      motive (.group gs n k :: cs) (group gs n k gms :: ms))
    {cs : List (Condition α)} {ms : List (Member α)} (h : members test group cs = .ok ms) :
    motive cs ms := by
  induction cs using forest_induction generalizing ms with
  | nil =>
    rw [members] at h
    cases h
    exact onNil
  | test t n k cs ih =>
    rw [members, member] at h
    obtain ⟨m, hm, h⟩ := bind_eq_ok.1 h
    obtain ⟨f, hf, hm⟩ := bind_eq_ok.1 hm
    obtain ⟨ms, hms, h⟩ := bind_eq_ok.1 h
    cases hm
    cases h
    exact onTest t n k f cs ms hf (ih hms)
  | group gs n k cs ihg ih =>
    rw [members, member] at h
    obtain ⟨m, hm, h⟩ := bind_eq_ok.1 h
    obtain ⟨gms, hgms, hm⟩ := bind_eq_ok.1 hm
    obtain ⟨ms, hms, h⟩ := bind_eq_ok.1 h
    cases hm
    cases h
    exact onGroup gs gms n k cs ms (ihg hgms) (ih hms)

theorem members_test_cons {t : α} {n : Bool} (k : Connector) {f : Fragment}
    {cs : List (Condition α)} {ms : List (Member α)} (hf : test n t = .ok f)
    (hms : members test group cs = .ok ms) :
    members test group (.test t n k :: cs) = .ok (⟨.test t n k, true, f⟩ :: ms) := by
  rw [members, member, hf, hms]
  rfl

theorem members_group_cons {gs cs : List (Condition α)} (n : Bool) (k : Connector)
    {gms ms : List (Member α)} (hgms : members test group gs = .ok gms)
    (hms : members test group cs = .ok ms) :
    members test group (.group gs n k :: cs) = .ok (group gs n k gms :: ms) := by
  rw [members, member, hgms, hms]
  rfl

end Condition

/-- Once there is some text, every member that counts has its connector. -/
theorem Member.chainOfText_started {α : Type} (w : Writer) (ms : List (Member α)) :
    chainOfText w true ms = linked ms := by
  induction ms with
  | nil => rfl
  | cons m ms ih =>
    rw [chainOfText, linked_cons, Bool.true_or, ih]
    cases m.counts <;> rfl

namespace ArrayJoin

variable {w : Writer}

/-- A raw join is its source. Any other join has its conditions after its source. -/
theorem fragment_cases {j : ArrayJoin} {f : Fragment} (h : j.fragment w = .ok f) :
    (∃ r, j.kind = .raw ∧ j.source = .raw r ∧ f = [.raw r]) ∨
      (j.kind ≠ .raw ∧ ∃ ms, JoinCondition.members w j.conditions = .ok ms ∧
        f = [.word j.kind.word, .word " join "] ++ j.source.fragment j.schema ++
          Member.chain JoinCondition.opening ms) := by
  obtain ⟨source, schema, kind, conditions⟩ := j
  cases kind with
  | raw =>
    cases source with
    | raw r =>
      cases h
      exact Or.inl ⟨r, rfl, rfl, rfl⟩
    | name table => cases h
  | inner =>
    obtain ⟨ms, hms, h⟩ := bind_eq_ok.1 h
    cases h
    exact Or.inr ⟨(fun hkind => nomatch hkind), ms, hms, rfl⟩
  | left =>
    obtain ⟨ms, hms, h⟩ := bind_eq_ok.1 h
    cases h
    exact Or.inr ⟨(fun hkind => nomatch hkind), ms, hms, rfl⟩

/-- The join with other conditions. -/
def withConditions (cs : JoinConditions) (j : ArrayJoin) : ArrayJoin :=
  { j with conditions := cs }

/-- What stands before the conditions of a join. -/
def head (j : ArrayJoin) : Fragment :=
  [.word j.kind.word, .word " join "] ++ j.source.fragment j.schema

theorem fragment_withConditions (w : Writer) {j : ArrayJoin} (hkind : j.kind ≠ .raw)
    (cs : JoinConditions) :
    (j.withConditions cs).fragment w =
      (JoinCondition.members w cs).map ((j.head ++ ·) ∘ Member.chain JoinCondition.opening) := by
  obtain ⟨source, schema, kind, conditions⟩ := j
  cases kind with
  | raw => exact absurd rfl hkind
  | inner =>
    rw [withConditions, fragment]
    cases JoinCondition.members w cs <;> rfl
  | left =>
    rw [withConditions, fragment]
    cases JoinCondition.members w cs <;> rfl

theorem exists_of_mem_fragments {js : List ArrayJoin} {fs : List Fragment}
    (h : fragments w js = .ok fs) {f : Fragment} (hf : f ∈ fs) :
    ∃ j ∈ js, j.fragment w = .ok f := by
  induction js generalizing fs with
  | nil =>
    cases h
    cases hf
  | cons j js ih =>
    obtain ⟨g, hg, h⟩ := bind_eq_ok.1 h
    obtain ⟨gs, hgs, h⟩ := bind_eq_ok.1 h
    cases h
    rcases List.mem_cons.1 hf with rfl | hf
    · exact ⟨j, List.mem_cons_self, hg⟩
    · obtain ⟨i, hi, hfi⟩ := ih hgs hf
      exact ⟨i, List.mem_cons_of_mem j hi, hfi⟩

end ArrayJoin

namespace Query

variable {w : Writer} {q : Query} {f : Fragment}

theorem selectFragment_cases (h : q.selectFragment w = .ok f) :
    ∃ joins prewhere filter,
      ArrayJoin.listFragment w q.categories.arrayJoins = .ok joins ∧
      WhereClause.groupFragment w.dialect "prewhere" q.categories.prewhere = .ok prewhere ∧
      WhereClause.groupFragment w.dialect "where" q.categories.filter = .ok filter ∧
      f = Fragment.spaced
        [Fragment.selected q.columns, Fragment.source q, joins, prewhere, filter,
          Fragment.groupBy q.categories.groupBy, Fragment.orderBy q.categories.orderBy,
          Fragment.limit w.dialect q.limit q.offset, Fragment.offset q.offset,
          Fragment.lock q.lock] := by
  obtain ⟨joins, hjoins, h⟩ := bind_eq_ok.1 h
  obtain ⟨prewhere, hprewhere, h⟩ := bind_eq_ok.1 h
  obtain ⟨filter, hfilter, h⟩ := bind_eq_ok.1 h
  cases h
  exact ⟨joins, prewhere, filter, hjoins, hprewhere, hfilter, rfl⟩

theorem updateFragment_cases (h : q.updateFragment w = .ok f) :
    ∃ table joins filter,
      q.table = some table ∧
      ArrayJoin.listFragment w q.categories.arrayJoins = .ok joins ∧
      WhereClause.groupFragment w.dialect "where" q.categories.filter = .ok filter ∧
      f = Fragment.update [.name (qualified q.schema table)] joins
        (q.update.map Assignment.fragment) filter (Fragment.orderBy q.categories.orderBy)
        (Fragment.limit w.dialect q.limit q.offset) := by
  rw [updateFragment] at h
  split at h
  · cases h
  · next table htable =>
    split at h
    · cases h
    · obtain ⟨joins, hjoins, h⟩ := bind_eq_ok.1 h
      obtain ⟨filter, hfilter, h⟩ := bind_eq_ok.1 h
      cases h
      exact ⟨table, joins, filter, htable, hjoins, hfilter, rfl⟩

end Query

end ClauseTree
