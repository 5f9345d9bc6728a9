import ClauseTree.Fragment.Statement
import ClauseTree.Proofs.Fragment.Members
import ClauseTree.Query.Leaf

/-!
# The leaves of a fragment

A fragment without its words is a list of leaves. The main statements, `leaves_selectFragment`
and `leaves_updateFragment`, say that these are the leaves of the tree in the order of the
tree: whatever a statement skips, joins or puts in parentheses, it neither drops nor repeats
nor moves a name, a value or raw text.
-/

namespace ClauseTree

/-- The leaf that a piece stands for, unless it is a word. -/
def Piece.leaf? : Piece → Option Leaf
  | .word _ => none
  | .name identifier => some (.name identifier)
  | .value v => some (.value v)
  | .raw r => some (.raw r)

namespace Fragment

/-- The leaves of a fragment in order. -/
def leaves (f : Fragment) : List Leaf := f.filterMap Piece.leaf?

@[simp] theorem leaves_nil : leaves [] = [] := rfl

@[simp] theorem leaves_word_cons (t : String) (f : Fragment) :
    leaves (.word t :: f) = leaves f := rfl

@[simp] theorem leaves_name_cons (n : String) (f : Fragment) :
    leaves (.name n :: f) = .name n :: leaves f := rfl

@[simp] theorem leaves_value_cons (v : Value) (f : Fragment) :
    leaves (.value v :: f) = .value v :: leaves f := rfl

@[simp] theorem leaves_raw_cons (r : Raw) (f : Fragment) :
    leaves (.raw r :: f) = .raw r :: leaves f := rfl

@[simp] theorem leaves_append (f g : Fragment) : leaves (f ++ g) = leaves f ++ leaves g :=
  List.filterMap_append

/-- The values of a fragment are those of its leaves. -/
theorem bindings_eq_values_leaves (f : Fragment) :
    bindings f = (leaves f).flatMap Leaf.values := by
  induction f with
  | nil => rfl
  | cons p f ih =>
    rw [bindings_cons, ih]
    cases p <;> rfl

@[simp] theorem leaves_joined (word : String) (fs : List Fragment) :
    leaves (joined word fs) = fs.flatMap leaves := by
  induction fs with
  | nil => rfl
  | cons f fs ih =>
    cases fs with
    | nil => simp [joined]
    | cons g gs =>
      rw [List.flatMap_cons, ← ih]
      exact leaves_append f _

theorem leaves_spacedAfter (fs : List Fragment) : leaves (spacedAfter fs) = fs.flatMap leaves := by
  induction fs with
  | nil => rfl
  | cons f fs ih =>
    rw [spacedAfter, List.flatMap_cons, leaves_append, ← spacedAfter, ih, List.flatMap_cons]
    split
    · rfl
    · rw [leaves_word_cons]

@[simp] theorem leaves_spaced (fs : List Fragment) : leaves (spaced fs) = fs.flatMap leaves := by
  induction fs with
  | nil => rfl
  | cons f fs ih =>
    rw [spaced, List.flatMap_cons]
    split
    · rw [leaves_append, ih]
    · rw [leaves_append, leaves_spacedAfter]

theorem flatMap_bindings (fs : List Fragment) :
    fs.flatMap bindings = (fs.flatMap leaves).flatMap Leaf.values := by
  rw [List.flatMap_assoc]
  exact congrArg (fs.flatMap ·) (funext bindings_eq_values_leaves)

theorem bindings_joined (word : String) (fs : List Fragment) :
    bindings (joined word fs) = fs.flatMap bindings := by
  rw [bindings_eq_values_leaves, leaves_joined, flatMap_bindings]

theorem bindings_spaced (fs : List Fragment) : bindings (spaced fs) = fs.flatMap bindings := by
  rw [bindings_eq_values_leaves, leaves_spaced, flatMap_bindings]

@[simp] theorem leaves_parenthesized (f : Fragment) : leaves (parenthesized f) = leaves f := by
  simp [parenthesized]

@[simp] theorem leaves_negation (n : Bool) : leaves (negation n) = [] := by
  cases n <;> rfl

@[simp] theorem leaves_namesFragment (names : List String) :
    leaves (namesFragment names) = names.map .name := by
  rw [namesFragment, leaves_joined, List.flatMap_map]
  exact List.map_eq_flatMap.symm

theorem leaves_valuesFragment (vs : List Value) : leaves (valuesFragment vs) = vs.map .value := by
  rw [valuesFragment, leaves_parenthesized, leaves_joined, List.flatMap_map]
  exact List.map_eq_flatMap.symm

end Fragment

open Fragment

@[simp] theorem Columns.leaves_fragment (c : Columns) : Fragment.leaves c.fragment = c.leaves := by
  cases c with
  | single name => rfl
  | multi names => simp [Columns.fragment, Columns.leaves, Columns.toList]

@[simp] theorem Operand.leaves_fragment (o : Operand) : Fragment.leaves o.fragment = o.leaves := by
  cases o <;> rfl

@[simp] theorem Candidates.leaves_fragment (c : Candidates) :
    Fragment.leaves c.fragment = c.leaves := by
  cases c with
  | raw r => rfl
  | list vs => exact leaves_valuesFragment vs
  | rows rs =>
    rw [Candidates.fragment, leaves_parenthesized, leaves_joined, List.flatMap_map,
      Candidates.leaves, List.map_flatten]
    simp only [leaves_valuesFragment]
    exact List.flatMap_def ..

theorem Test.leaves_fragment {d : Dialect} {n : Bool} {t : Test} {f : Fragment}
    (h : t.fragment d n = .ok f) : Fragment.leaves f = t.leaves := by
  cases t with
  | basic column operator value =>
    obtain ⟨op, -, h⟩ := bind_eq_ok.1 h
    cases h
    simp [Test.leaves]
  | isNull column =>
    cases h
    simp [Test.leaves]
  | isIn columns candidates =>
    rw [Test.fragment] at h
    rw [Test.leaves]
    split at h
    · next hempty =>
      cases h
      rw [if_pos hempty, leaves_word_cons, leaves_nil]
    · next hempty =>
      cases h
      rw [if_neg hempty]
      simp
  | between column low high =>
    cases h
    simp [Test.leaves]
  | hasRows subquery =>
    cases h
    simp [Test.leaves]
  | raw r =>
    cases h
    simp [Test.leaves]

theorem JoinTest.leaves_fragment {d : Dialect} {n : Bool} {t : JoinTest} {f : Fragment}
    (h : t.fragment d n = .ok f) : Fragment.leaves f = t.leaves := by
  cases t with
  | pair first operator second =>
    obtain ⟨op, -, h⟩ := bind_eq_ok.1 h
    cases h
    simp [JoinTest.leaves]
  | usingColumns columns =>
    cases h
    simp [JoinTest.leaves, Columns.leaves]
  | on t => exact Test.leaves_fragment h

/-! ## Groups -/

namespace Member

variable {α : Type}

/-- The leaves of the members of a group in order. -/
def leaves (ms : List (Member α)) : List Leaf := ms.flatMap fun m => Fragment.leaves m.fragment

theorem leaves_cons (m : Member α) (ms : List (Member α)) :
    leaves (m :: ms) = Fragment.leaves m.fragment ++ leaves ms := List.flatMap_cons

theorem leaves_linked (ms : List (Member α)) : Fragment.leaves (linked ms) = leaves ms := by
  induction ms with
  | nil => rfl
  | cons m ms ih =>
    rw [linked, List.flatMap_cons, ← linked, leaves_append, ih, leaves_cons]
    split
    · simp [link]
    · rfl

theorem leaves_chain {opening : Condition α → Fragment}
    (h : ∀ c, Fragment.leaves (opening c) = []) (ms : List (Member α)) :
    Fragment.leaves (chain opening ms) = leaves ms := by
  induction ms with
  | nil => rfl
  | cons m ms ih =>
    rw [chain, leaves_cons]
    split
    · rw [leaves_append, leaves_append, h, List.nil_append, leaves_linked]
    · rw [leaves_append, ih]

theorem leaves_chainOfText (w : Writer) (started : Bool) (ms : List (Member α)) :
    Fragment.leaves (chainOfText w started ms) = leaves ms := by
  induction ms generalizing started with
  | nil => rfl
  | cons m ms ih =>
    rw [chainOfText, leaves_append, leaves_append, ih, leaves_cons]
    split
    · simp [link]
    · rfl

end Member

/-- If a test is written with its own leaves and a group with those of its members, a list of
conditions is written with the leaves of its tests. -/
theorem Condition.leaves_members {α : Type} {test : Bool → α → Except CompileError Fragment}
    {group : List (Condition α) → Bool → Connector → List (Member α) → Member α}
    {own : α → List Leaf}
    (htest : ∀ n t f, test n t = .ok f → Fragment.leaves f = own t)
    (hgroup : ∀ cs n k ms, Fragment.leaves (group cs n k ms).fragment = Member.leaves ms)
    {cs : List (Condition α)} {ms : List (Member α)} (h : members test group cs = .ok ms) :
    Member.leaves ms = (testsOf cs).flatMap own := by
  refine members_induction (motive := fun cs ms => Member.leaves ms = (testsOf cs).flatMap own)
    ?_ ?_ ?_ h
  · rfl
  · intro t n k f cs ms hf ih
    rw [Member.leaves_cons, htest n t f hf, ih, testsOf_test_cons, List.flatMap_cons]
  · intro gs gms n k cs ms ihg ih
    rw [Member.leaves_cons, hgroup, ihg, ih, testsOf_group_cons, List.flatMap_append]

theorem WhereClause.leaves_groupMember (cs : List WhereClause) (n : Bool) (k : Connector)
    (ms : List (Member Test)) :
    Fragment.leaves (groupMember cs n k ms).fragment = Member.leaves ms := by
  have hinner : Fragment.leaves (Member.chain (fun _ => []) ms) = Member.leaves ms :=
    Member.leaves_chain (fun _ => rfl) ms
  rw [groupMember]
  split
  · rw [leaves_append, leaves_negation, List.nil_append, leaves_parenthesized, hinner]
  · exact hinner

theorem JoinCondition.leaves_groupMember (w : Writer) (cs : List JoinCondition) (n : Bool)
    (k : Connector) (ms : List (Member JoinTest)) :
    Fragment.leaves (groupMember w cs n k ms).fragment = Member.leaves ms := by
  have hinner := Member.leaves_chainOfText w false ms
  rw [groupMember]
  split
  · exact hinner
  · rw [leaves_append, leaves_negation, List.nil_append, leaves_parenthesized, hinner]

theorem WhereClause.leaves_members {d : Dialect} {cs : List WhereClause} {ms : List (Member Test)}
    (h : members d cs = .ok ms) : Member.leaves ms = WhereClause.leaves cs := by
  have htest (n : Bool) (t : Test) (f : Fragment) (hf : t.fragment d n = .ok f) :
      Fragment.leaves f = t.leaves := Test.leaves_fragment hf
  exact Condition.leaves_members htest leaves_groupMember h

theorem JoinCondition.leaves_members {w : Writer} {cs : List JoinCondition}
    {ms : List (Member JoinTest)} (h : members w cs = .ok ms) :
    Member.leaves ms = JoinConditions.leaves cs := by
  have htest (n : Bool) (t : JoinTest) (f : Fragment) (hf : t.fragment w.dialect n = .ok f) :
      Fragment.leaves f = t.leaves := JoinTest.leaves_fragment hf
  exact Condition.leaves_members htest (leaves_groupMember w) h

theorem WhereClause.leaves_groupFragment {d : Dialect} {keyword : String}
    {cs : List WhereClause} {f : Fragment} (h : groupFragment d keyword cs = .ok f) :
    Fragment.leaves f = WhereClause.leaves cs := by
  obtain ⟨ms, hms, h⟩ := bind_eq_ok.1 h
  cases h
  rw [Member.leaves_chain (fun _ => rfl), leaves_members hms]

/-! ## Array joins -/

theorem JoinSource.leaves_fragment (schema : Option String) (s : JoinSource) :
    Fragment.leaves (s.fragment schema) = s.leaves schema := by
  cases s <;> rfl

namespace ArrayJoin

theorem leaves_fragment {w : Writer} {j : ArrayJoin} {f : Fragment}
    (h : j.fragment w = .ok f) : Fragment.leaves f = j.leaves := by
  rcases fragment_cases h with ⟨r, hkind, hsource, rfl⟩ | ⟨hkind, ms, hms, rfl⟩
  · rw [ArrayJoin.leaves, hkind, hsource]
    rfl
  · have hchain : Fragment.leaves (Member.chain JoinCondition.opening ms) = Member.leaves ms :=
      Member.leaves_chain (fun _ => rfl) ms
    have hleaves : j.leaves = j.source.leaves j.schema ++ JoinConditions.leaves j.conditions := by
      rw [ArrayJoin.leaves]
      split
      · next hraw => exact absurd hraw hkind
      · rfl
    rw [hleaves, leaves_append, leaves_append, hchain, JoinSource.leaves_fragment,
      JoinCondition.leaves_members hms]
    rfl

theorem leaves_fragments {w : Writer} {js : List ArrayJoin} {fs : List Fragment}
    (h : fragments w js = .ok fs) :
    fs.flatMap Fragment.leaves = js.flatMap ArrayJoin.leaves := by
  induction js generalizing fs with
  | nil =>
    cases h
    rfl
  | cons j js ih =>
    obtain ⟨f, hf, h⟩ := bind_eq_ok.1 h
    obtain ⟨gs, hgs, h⟩ := bind_eq_ok.1 h
    cases h
    rw [List.flatMap_cons, List.flatMap_cons, leaves_fragment hf, ih hgs]

theorem leaves_listFragment {w : Writer} {js : List ArrayJoin} {f : Fragment}
    (h : listFragment w js = .ok f) : Fragment.leaves f = js.flatMap ArrayJoin.leaves := by
  obtain ⟨fs, hfs, h⟩ := bind_eq_ok.1 h
  cases h
  rw [leaves_spaced, leaves_fragments hfs]

end ArrayJoin

/-! ## Statements -/

@[simp] theorem OrderItem.leaves_fragment (i : OrderItem) :
    Fragment.leaves i.fragment = i.leaves := by
  cases i <;> rfl

@[simp] theorem GroupItem.leaves_fragment (i : GroupItem) :
    Fragment.leaves i.fragment = i.leaves := by
  cases i <;> rfl

@[simp] theorem Assignment.leaves_fragment (a : Assignment) :
    Fragment.leaves a.fragment = a.leaves := by
  simp [Assignment.fragment, Assignment.leaves]

@[simp] theorem Limit.leaves_fragment (l : Limit) : Fragment.leaves l.fragment = l.leaves := by
  cases l <;> rfl

namespace Fragment

theorem leaves_listed (keyword : String) (items : List Fragment) :
    leaves (listed keyword items) = items.flatMap leaves := by
  cases items with
  | nil => rfl
  | cons f fs =>
    rw [listed, if_neg (by simp), leaves_word_cons, leaves_word_cons, leaves_joined]

@[simp] theorem leaves_orderBy (items : List OrderItem) :
    leaves (orderBy items) = items.flatMap OrderItem.leaves := by
  simp [orderBy, leaves_listed, List.flatMap_map]

@[simp] theorem leaves_groupBy (items : List GroupItem) :
    leaves (groupBy items) = items.flatMap GroupItem.leaves := by
  simp [groupBy, leaves_listed, List.flatMap_map]

@[simp] theorem leaves_limit (d : Dialect) (l : Option Limit) (o : Option UInt64) :
    leaves (limit d l o) = l.elim [] Limit.leaves := by
  cases l with
  | some l => simp [limit]
  | none =>
    rw [limit]
    split <;> rfl

@[simp] theorem leaves_offset (o : Option UInt64) : leaves (offset o) = [] := by
  cases o with
  | none => rfl
  | some n =>
    rw [offset]
    split <;> rfl

@[simp] theorem leaves_lock (l : Option Lock) : leaves (lock l) = [] := by
  cases l <;> rfl

@[simp] theorem leaves_selected (columns : List String) :
    leaves (selected columns) = columns.map .name := by
  cases columns with
  | nil => rfl
  | cons c cs => simp [selected]

@[simp] theorem leaves_source (q : Query) : leaves (source q) = q.tableLeaves := by
  rw [source, Query.tableLeaves]
  cases q.table <;> rfl

end Fragment

namespace Query

/-- A selection is written with the leaves that it reads, in their order. -/
theorem leaves_selectFragment {w : Writer} {q : Query} {f : Fragment}
    (h : q.selectFragment w = .ok f) : Fragment.leaves f = q.selectLeaves := by
  obtain ⟨joins, prewhere, filter, hjoins, hprewhere, hfilter, rfl⟩ := selectFragment_cases h
  simp [selectLeaves, joinLeaves, limitLeaves, ArrayJoin.leaves_listFragment hjoins,
    WhereClause.leaves_groupFragment hprewhere, WhereClause.leaves_groupFragment hfilter]

/-- An update is written with the leaves that it reads, in their order. -/
theorem leaves_updateFragment {w : Writer} {q : Query} {f : Fragment}
    (h : q.updateFragment w = .ok f) : Fragment.leaves f = q.updateLeaves := by
  obtain ⟨table, joins, filter, htable, hjoins, hfilter, rfl⟩ := updateFragment_cases h
  simp [updateLeaves, tableLeaves, joinLeaves, limitLeaves, Fragment.update, htable,
    ArrayJoin.leaves_listFragment hjoins, WhereClause.leaves_groupFragment hfilter,
    List.flatMap_map]

end Query

end ClauseTree
