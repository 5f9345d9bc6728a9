import ClauseTree.Fragment.Statement
import ClauseTree.Proofs.Query.Replacing

/-!
# The text of a statement does not depend on its values

A dialect has one placeholder for all values, so the fragment of a tree with other values in it is
the fragment of the tree with other values in it. Only the wrapped groups of joins look at the text
of their members before it is written; the writer of a dialect shows them the same text.
-/

namespace ClauseTree

variable (f : Value → Value)

def Piece.mapValues : Piece → Piece
  | .word text => .word text
  | .name identifier => .name identifier
  | .value v => .value (f v)
  | .raw r => .raw (r.mapValues f)

namespace Fragment

def mapValues (F : Fragment) : Fragment := F.map (Piece.mapValues f)

@[simp] theorem mapValues_cons (p : Piece) (F : Fragment) :
    mapValues f (p :: F) = p.mapValues f :: mapValues f F := rfl

@[simp] theorem mapValues_append (F G : Fragment) :
    mapValues f (F ++ G) = mapValues f F ++ mapValues f G := List.map_append

/-- A placeholder and the text of a raw are the same for all values. -/
theorem chars_mapValues (d : Dialect) (F : Fragment) :
    chars d.writer (mapValues f F) = chars d.writer F := by
  induction F with
  | nil => rfl
  | cons p F ih =>
    rw [mapValues_cons, chars_cons, chars_cons, ih]
    cases p <;> rfl

theorem bindings_mapValues (F : Fragment) : bindings (mapValues f F) = (bindings F).map f := by
  induction F with
  | nil => rfl
  | cons p F ih =>
    rw [mapValues_cons, bindings_cons, bindings_cons, ih, List.map_append]
    cases p <;> rfl

theorem isBlank_mapValues (F : Fragment) : isBlank (mapValues f F) = isBlank F := by
  rw [isBlank, isBlank, mapValues, List.all_map]
  congr 1
  funext p
  cases p <;> rfl

/-- What a wrapped group of a join asks of its members. -/
theorem isEmptyBy_mapValues (d : Dialect) (F : Fragment) :
    isEmptyBy d.writer (mapValues f F) = isEmptyBy d.writer F := by
  rw [Bool.eq_iff_iff, isEmptyBy_iff, isEmptyBy_iff, chars_mapValues]

theorem mapValues_joined (word : String) (Fs : List Fragment) :
    mapValues f (joined word Fs) = joined word (Fs.map (mapValues f)) := by
  induction Fs with
  | nil => rfl
  | cons F Fs ih =>
    cases Fs with
    | nil => rfl
    | cons G Gs =>
      rw [joined, mapValues_append, mapValues_cons, ih]
      · rfl
      · exact List.cons_ne_nil _ _

theorem mapValues_parenthesized (F : Fragment) :
    mapValues f (parenthesized F) = parenthesized (mapValues f F) := by
  rw [parenthesized, mapValues_cons, mapValues_append]
  rfl

theorem mapValues_spacedAfter (Fs : List Fragment) :
    mapValues f (spacedAfter Fs) = spacedAfter (Fs.map (mapValues f)) := by
  induction Fs with
  | nil => rfl
  | cons F Fs ih =>
    rw [spacedAfter, List.flatMap_cons, mapValues_append, List.map_cons, spacedAfter,
      List.flatMap_cons, isBlank_mapValues]
    congr 1
    split <;> rfl

/-- Blanks stand between fragments by their pieces, not by their text. -/
theorem mapValues_spaced (Fs : List Fragment) :
    mapValues f (spaced Fs) = spaced (Fs.map (mapValues f)) := by
  induction Fs with
  | nil => rfl
  | cons F Fs ih =>
    rw [spaced, List.map_cons, spaced, isBlank_mapValues]
    split
    · rw [mapValues_append, ih]
    · rw [mapValues_append, mapValues_spacedAfter]

theorem mapValues_listed (keyword : String) (Fs : List Fragment) :
    mapValues f (listed keyword Fs) = listed keyword (Fs.map (mapValues f)) := by
  rw [listed, listed, List.isEmpty_map]
  split
  · rfl
  · rw [mapValues_cons, mapValues_cons, mapValues_joined]
    rfl

end Fragment

/-! ## Tests -/

theorem mapValues_negation (n : Bool) : Fragment.mapValues f (negation n) = negation n := by
  cases n <;> rfl

theorem mapValues_namesFragment (names : List String) :
    Fragment.mapValues f (namesFragment names) = namesFragment names := by
  rw [namesFragment, Fragment.mapValues_joined, List.map_map]
  rfl

theorem Columns.mapValues_fragment (c : Columns) :
    Fragment.mapValues f c.fragment = c.fragment := by
  cases c with
  | single name => rfl
  | multi names => rw [fragment, Fragment.mapValues_parenthesized, mapValues_namesFragment]

theorem Operand.fragment_mapValues (o : Operand) :
    (o.mapValues f).fragment = Fragment.mapValues f o.fragment := by
  cases o <;> rfl

theorem valuesFragment_map (vs : List Value) :
    valuesFragment (vs.map f) = Fragment.mapValues f (valuesFragment vs) := by
  rw [valuesFragment, valuesFragment, Fragment.mapValues_parenthesized, Fragment.mapValues_joined,
    List.map_map, List.map_map]
  rfl

theorem Candidates.fragment_mapValues (c : Candidates) :
    (c.mapValues f).fragment = Fragment.mapValues f c.fragment := by
  cases c with
  | raw r => rfl
  | rows rs =>
    rw [mapValues, fragment, fragment, Fragment.mapValues_parenthesized,
      Fragment.mapValues_joined, List.map_map, List.map_map]
    exact congrArg (fun g => Fragment.parenthesized (Fragment.joined ", " (rs.map g)))
      (funext (valuesFragment_map f))
  | list vs => exact valuesFragment_map f vs

/-- The same operators are refused, and the replaced values are bound. -/
theorem Test.fragment_mapValues (d : Dialect) (n : Bool) (t : Test) :
    (t.mapValues f).fragment d n = (t.fragment d n).map (Fragment.mapValues f) := by
  cases t with
  | basic column operator value =>
    rw [mapValues, fragment, fragment, Operand.fragment_mapValues]
    cases d.operator operator with
    | error e => rfl
    | ok op =>
      change Except.ok _ = Except.ok _
      rw [Fragment.mapValues_append, Fragment.mapValues_append, mapValues_negation]
      rfl
  | isNull column =>
    rw [mapValues, fragment, Except.map, Fragment.mapValues_append, Fragment.mapValues_append,
      mapValues_negation]
    rfl
  | isIn columns candidates =>
    rw [mapValues, fragment, fragment, Candidates.isEmpty_mapValues, Candidates.fragment_mapValues]
    split
    · rfl
    · rw [Except.map, Fragment.mapValues_append, Fragment.mapValues_append,
        Fragment.mapValues_append, Fragment.mapValues_append, mapValues_negation,
        Columns.mapValues_fragment]
      rfl
  | between column low high =>
    rw [mapValues, fragment, fragment, Except.map, Fragment.mapValues_append,
      Fragment.mapValues_append, mapValues_negation]
    rfl
  | hasRows subquery =>
    rw [mapValues, fragment, fragment, Except.map, Fragment.mapValues_append,
      Fragment.mapValues_append, mapValues_negation]
    rfl
  | raw r =>
    rw [mapValues, fragment, fragment, Except.map, Fragment.mapValues_append, mapValues_negation]
    rfl

theorem JoinTest.fragment_mapValues (d : Dialect) (n : Bool) (t : JoinTest) :
    (t.mapValues f).fragment d n = (t.fragment d n).map (Fragment.mapValues f) := by
  cases t with
  | pair first operator second =>
    rw [mapValues, fragment]
    · cases d.operator operator with
      | error e => rfl
      | ok op =>
        change Except.ok _ = Except.ok _
        rw [Fragment.mapValues_append, mapValues_negation]
        rfl
    · intro t ht
      cases ht
  | usingColumns columns =>
    exact congrArg Except.ok (mapValues_namesFragment f columns.toList).symm
  | on t => exact t.fragment_mapValues f d n

/-! ## Groups -/

namespace Member

variable {α : Type} (g : α → α)

/-- The member of the condition with other tests, which writes other values. -/
def mapValues (m : Member α) : Member α where
  condition := m.condition.map g
  counts := m.counts
  fragment := m.fragment.mapValues f

theorem mapValues_link (m : Member α) : m.link.mapValues f = (m.mapValues f g).link := by
  change m.link = _
  rw [link, link, mapValues, Condition.connector_map]

theorem mapValues_linked (ms : List (Member α)) :
    (linked ms).mapValues f = linked (ms.map (mapValues f g)) := by
  induction ms with
  | nil => rfl
  | cons m ms ih =>
    rw [linked_cons, List.map_cons, linked_cons, Fragment.mapValues_append, ih, ← mapValues_link]
    congr 1
    change _ = if m.counts then _ else _
    split
    · exact Fragment.mapValues_append f _ _
    · rfl

/-- The keyword before the first member may depend on its condition. -/
theorem mapValues_chain {opening : Condition α → Fragment}
    (h : ∀ c, (opening c).mapValues f = opening (c.map g)) (ms : List (Member α)) :
    (chain opening ms).mapValues f = chain opening (ms.map (mapValues f g)) := by
  induction ms with
  | nil => rfl
  | cons m ms ih =>
    rw [chain, List.map_cons, chain, ← ih, ← mapValues_linked]
    change _ = if m.counts then opening (m.condition.map g) ++ _ ++ _ else _
    rw [← h]
    split
    · rw [Fragment.mapValues_append, Fragment.mapValues_append]
      rfl
    · exact Fragment.mapValues_append f _ _

/-- A connector depends on the text before it, which stays. -/
theorem mapValues_chainOfText (d : Dialect) (started : Bool) (ms : List (Member α)) :
    (chainOfText d.writer started ms).mapValues f =
      chainOfText d.writer started (ms.map (mapValues f g)) := by
  induction ms generalizing started with
  | nil => rfl
  | cons m ms ih =>
    have hempty : Fragment.isEmptyBy d.writer (m.mapValues f g).fragment =
        Fragment.isEmptyBy d.writer m.fragment := Fragment.isEmptyBy_mapValues f d m.fragment
    rw [chainOfText, List.map_cons, chainOfText, Fragment.mapValues_append,
      Fragment.mapValues_append, ih, hempty, ← mapValues_link]
    congr 2
    change _ = if m.counts && started then _ else _
    split <;> rfl

end Member

section Members

variable {α : Type} {test : Bool → α → Except CompileError Fragment}
  {group : List (Condition α) → Bool → Connector → List (Member α) → Member α} {g : α → α}

/-- If other values change no more than the values of the tests and of the groups, they change no
more than the values of the members. -/
theorem Condition.members_mapAll
    (htest : ∀ n t, test n (g t) = (test n t).map (Fragment.mapValues f))
    (hgroup : ∀ cs n k ms, group (mapAll g cs) n k (ms.map (Member.mapValues f g)) =
      (group cs n k ms).mapValues f g) (cs : List (Condition α)) :
    members test group (mapAll g cs) =
      (members test group cs).map (List.map (Member.mapValues f g)) := by
  induction cs using forest_induction with
  | nil =>
    rw [mapAll, members]
    rfl
  | test t n k cs ih =>
    rw [mapAll, map, members, members, member, member, htest, ih]
    cases test n t with
    | error e => rfl
    | ok F => cases members test group cs <;> rfl
  | group gs n k cs ihg ih =>
    rw [mapAll, map, members, members, member, member, ihg, ih]
    cases members test group gs with
    | error e => rfl
    | ok gms =>
      cases members test group cs with
      | error e => rfl
      | ok ms => exact congrArg (fun m => Except.ok (m :: ms.map _)) (hgroup gs n k gms)

end Members

namespace WhereClause

theorem groupMember_mapValues (cs : List WhereClause) (n : Bool) (k : Connector)
    (ms : List (Member Test)) :
    groupMember (Condition.mapAll (Test.mapValues f) cs) n k
        (ms.map (Member.mapValues f (Test.mapValues f))) =
      (groupMember cs n k ms).mapValues f (Test.mapValues f) := by
  have hcounts : (ms.map (Member.mapValues f (Test.mapValues f))).any Member.counts =
      ms.any Member.counts := List.any_map
  rw [groupMember, groupMember, hcounts, ← Member.mapValues_chain f _ fun _ => rfl]
  split
  · rw [Member.mapValues, Condition.map, Fragment.mapValues_append, mapValues_negation,
      Fragment.mapValues_parenthesized]
  · rw [Member.mapValues, Condition.map]

/-- A `where` or `prewhere` group after its keyword. -/
theorem groupFragment_mapValues (d : Dialect) (keyword : String) (cs : List WhereClause) :
    groupFragment d keyword (Condition.mapAll (Test.mapValues f) cs) =
      (groupFragment d keyword cs).map (Fragment.mapValues f) := by
  have hmembers : members d (Condition.mapAll (Test.mapValues f) cs) =
      (members d cs).map (List.map (Member.mapValues f (Test.mapValues f))) :=
    Condition.members_mapAll f (Test.fragment_mapValues f d) (groupMember_mapValues f) cs
  rw [groupFragment, groupFragment, hmembers]
  cases members d cs with
  | error e => rfl
  | ok ms => exact congrArg Except.ok (Member.mapValues_chain f _ (fun _ => rfl) ms).symm

end WhereClause

namespace JoinCondition

theorem groupMember_mapValues (d : Dialect) (cs : List JoinCondition) (n : Bool) (k : Connector)
    (ms : List (Member JoinTest)) :
    groupMember d.writer (Condition.mapAll (JoinTest.mapValues f) cs) n k
        (ms.map (Member.mapValues f (JoinTest.mapValues f))) =
      (groupMember d.writer cs n k ms).mapValues f (JoinTest.mapValues f) := by
  rw [groupMember, groupMember, ← Member.mapValues_chainOfText, Fragment.isEmptyBy_mapValues]
  split
  · rw [Member.mapValues, Condition.map]
  · rw [Member.mapValues, Condition.map, Fragment.mapValues_append, mapValues_negation,
      Fragment.mapValues_parenthesized]

theorem members_mapValues (d : Dialect) (cs : List JoinCondition) :
    members d.writer (Condition.mapAll (JoinTest.mapValues f) cs) =
      (members d.writer cs).map (List.map (Member.mapValues f (JoinTest.mapValues f))) :=
  Condition.members_mapAll f (JoinTest.fragment_mapValues f d) (groupMember_mapValues f d) cs

/-- Which word introduces the conditions of a join is a matter of their kind. -/
theorem mapValues_opening (c : JoinCondition) :
    (opening c).mapValues f = opening (c.map (JoinTest.mapValues f)) := by
  have hisUsing : isUsing (c.map (JoinTest.mapValues f)) = isUsing c := by
    cases c with
    | test t n k => cases t <;> rfl
    | group cs n k => rfl
  rw [opening, opening, hisUsing]
  rfl

end JoinCondition

/-! ## Array joins -/

namespace ArrayJoin

/-- A join with its source and conditions; the first refused operator stays the error. -/
theorem fragment_mapValues (d : Dialect) (j : ArrayJoin) :
    (j.mapValues f).fragment d.writer = (j.fragment d.writer).map (Fragment.mapValues f) := by
  obtain ⟨source, schema, kind, conditions⟩ := j
  have hsource : (source.mapValues f).fragment schema = (source.fragment schema).mapValues f := by
    cases source <;> rfl
  have hwritten (word : String) :
      (do
        let ms ← JoinCondition.members d.writer
          (Condition.mapAll (JoinTest.mapValues f) conditions)
        return [.word word, .word " join "] ++ (source.mapValues f).fragment schema ++
          Member.chain JoinCondition.opening ms : Except CompileError Fragment) =
      (do
        let ms ← JoinCondition.members d.writer conditions
        return [.word word, .word " join "] ++ source.fragment schema ++
          Member.chain JoinCondition.opening ms : Except CompileError Fragment).map
            (Fragment.mapValues f) := by
    rw [JoinCondition.members_mapValues, hsource]
    cases JoinCondition.members d.writer conditions with
    | error e => rfl
    | ok ms =>
      change Except.ok _ = Except.ok _
      rw [Fragment.mapValues_append, Fragment.mapValues_append,
        Member.mapValues_chain f _ (JoinCondition.mapValues_opening f)]
      rfl
  cases kind with
  | raw => cases source <;> rfl
  | inner => exact hwritten _
  | left => exact hwritten _

theorem fragments_mapValues (d : Dialect) (js : List ArrayJoin) :
    fragments d.writer (js.map (ArrayJoin.mapValues f)) =
      (fragments d.writer js).map (List.map (Fragment.mapValues f)) := by
  induction js with
  | nil => rfl
  | cons j js ih =>
    rw [List.map_cons, fragments, fragments, fragment_mapValues, ih]
    cases j.fragment d.writer with
    | error e => rfl
    | ok F => cases fragments d.writer js <;> rfl

theorem listFragment_mapValues (d : Dialect) (js : List ArrayJoin) :
    listFragment d.writer (js.map (ArrayJoin.mapValues f)) =
      (listFragment d.writer js).map (Fragment.mapValues f) := by
  rw [listFragment, listFragment, fragments_mapValues]
  cases fragments d.writer js with
  | error e => rfl
  | ok Fs => exact congrArg Except.ok (Fragment.mapValues_spaced f Fs).symm

end ArrayJoin

/-! ## Statements -/

theorem OrderItem.fragment_mapValues (i : OrderItem) :
    (i.mapValues f).fragment = i.fragment.mapValues f := by
  cases i <;> rfl

theorem GroupItem.fragment_mapValues (i : GroupItem) :
    (i.mapValues f).fragment = i.fragment.mapValues f := by
  cases i <;> rfl

theorem Assignment.fragment_mapValues (a : Assignment) :
    (a.mapValues f).fragment = a.fragment.mapValues f := by
  rw [fragment, fragment, Fragment.mapValues_append, ← Operand.fragment_mapValues]
  rfl

namespace Fragment

/-- A list of items that are written one by one. -/
theorem map_fragment {α : Type} {fragment : α → Fragment} {map : α → α}
    (h : ∀ a, fragment (map a) = (fragment a).mapValues f) (as : List α) :
    (as.map map).map fragment = (as.map fragment).map (mapValues f) := by
  rw [List.map_map, List.map_map]
  exact List.map_congr_left fun a _ => h a

theorem orderBy_mapValues (is : List OrderItem) :
    orderBy (is.map (OrderItem.mapValues f)) = (orderBy is).mapValues f := by
  rw [orderBy, orderBy, mapValues_listed, map_fragment f (OrderItem.fragment_mapValues f)]

theorem groupBy_mapValues (is : List GroupItem) :
    groupBy (is.map (GroupItem.mapValues f)) = (groupBy is).mapValues f := by
  rw [groupBy, groupBy, mapValues_listed, map_fragment f (GroupItem.fragment_mapValues f)]

theorem limit_mapValues (d : Dialect) (l : Option Limit) (o : Option UInt64) :
    limit d (l.map (Limit.mapValues f)) o = (limit d l o).mapValues f := by
  cases l with
  | none =>
    change limit d none o = _
    rw [limit]
    split <;> rfl
  | some l => cases l <;> rfl

theorem mapValues_selected (columns : List String) :
    (selected columns).mapValues f = selected columns := by
  rw [selected, mapValues_cons]
  split
  · rfl
  · rw [mapValues_namesFragment]
    rfl

theorem mapValues_source (q : Query) : (source q).mapValues f = source q := by
  rw [source]
  cases q.table <;> rfl

theorem mapValues_offset (o : Option UInt64) : (offset o).mapValues f = offset o := by
  cases o with
  | none => rfl
  | some n =>
    rw [offset]
    split <;> rfl

theorem mapValues_lock (l : Option Lock) : (lock l).mapValues f = lock l := by
  cases l <;> rfl

theorem mapValues_update (table join : Fragment) (assignments : List Fragment)
    (filter order limit : Fragment) :
    (update table join assignments filter order limit).mapValues f =
      update (table.mapValues f) (join.mapValues f) (assignments.map (mapValues f))
        (filter.mapValues f) (order.mapValues f) (limit.mapValues f) := by
  rw [update, update, mapValues_spaced]
  simp only [List.map_cons, List.map_nil, mapValues_cons, mapValues_joined]
  rfl

end Fragment

namespace Query

theorem selectFragment_mapValues (d : Dialect) (q : Query) :
    (q.mapValues f).selectFragment d.writer =
      (q.selectFragment d.writer).map (Fragment.mapValues f) := by
  have hsource : Fragment.source (q.mapValues f) = Fragment.source q := rfl
  rw [selectFragment, selectFragment, hsource]
  simp only [mapValues, Categories.mapValues, ArrayJoin.listFragment_mapValues,
    WhereClause.groupFragment_mapValues, Fragment.groupBy_mapValues, Fragment.orderBy_mapValues,
    Fragment.limit_mapValues]
  cases ArrayJoin.listFragment d.writer q.categories.arrayJoins with
  | error e => rfl
  | ok joins =>
    cases WhereClause.groupFragment d.writer.dialect "prewhere" q.categories.prewhere with
    | error e => rfl
    | ok prewhere =>
      cases WhereClause.groupFragment d.writer.dialect "where" q.categories.filter with
      | error e => rfl
      | ok filter =>
        change Except.ok _ = Except.ok _
        rw [Fragment.mapValues_spaced]
        simp only [List.map_cons, List.map_nil, Fragment.mapValues_selected,
          Fragment.mapValues_source, Fragment.mapValues_offset, Fragment.mapValues_lock]

theorem updateFragment_mapValues (d : Dialect) (q : Query) :
    (q.mapValues f).updateFragment d.writer =
      (q.updateFragment d.writer).map (Fragment.mapValues f) := by
  rw [updateFragment, updateFragment]
  simp only [mapValues, Categories.mapValues, ArrayJoin.listFragment_mapValues,
    WhereClause.groupFragment_mapValues, Fragment.orderBy_mapValues, Fragment.limit_mapValues,
    Fragment.map_fragment f (Assignment.fragment_mapValues f), List.isEmpty_map]
  cases q.table with
  | none => rfl
  | some table =>
    dsimp only
    split
    · rfl
    · cases ArrayJoin.listFragment d.writer q.categories.arrayJoins with
      | error e => rfl
      | ok joins =>
        cases WhereClause.groupFragment d.writer.dialect "where" q.categories.filter with
        | error e => rfl
        | ok filter =>
          change Except.ok _ = Except.ok _
          rw [Fragment.mapValues_update]
          rfl

end Query

end ClauseTree
