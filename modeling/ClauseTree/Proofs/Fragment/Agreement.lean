import ClauseTree.Proofs.Fragment.Leaves

/-!
# What a fragment depends on

A fragment is put together before it is written, and only the wrapped groups of joins look at
the text that their members will have. They ask no more than whether there is any. So two
writers for one dialect that leave the same leaves of a tree without text are given the same
fragment of it.
-/

namespace ClauseTree

/-- Both writers are for one dialect, and leave the same of the leaves without text. -/
structure Writer.Agree (w w' : Writer) (ls : List Leaf) : Prop where
  dialect : w.dialect = w'.dialect
  value : ∀ v, .value v ∈ ls → (w.value v = [] ↔ w'.value v = [])
  raw : ∀ r, .raw r ∈ ls → (w.raw r = [] ↔ w'.raw r = [])

variable {w w' : Writer}

theorem Writer.Agree.mono {ls ls' : List Leaf} (h : w.Agree w' ls) (hls : ∀ l ∈ ls', l ∈ ls) :
    w.Agree w' ls' := by
  refine ⟨h.dialect, ?_, ?_⟩
  · intro v hv
    exact h.value v (hls _ hv)
  · intro r hr
    exact h.raw r (hls _ hr)

namespace Fragment

theorem isEmptyBy_cons (w : Writer) (p : Piece) (f : Fragment) :
    isEmptyBy w (p :: f) = ((p.chars w).isEmpty && isEmptyBy w f) := rfl

theorem isEmptyBy_congr {f : Fragment} (h : w.Agree w' (leaves f)) :
    isEmptyBy w f = isEmptyBy w' f := by
  induction f with
  | nil => rfl
  | cons p f ih =>
    have hf : isEmptyBy w f = isEmptyBy w' f := by
      refine ih (h.mono fun l hl => ?_)
      rw [← List.singleton_append, leaves_append]
      exact List.mem_append_right _ hl
    have hp : (p.chars w).isEmpty = (p.chars w').isEmpty := by
      rw [Bool.eq_iff_iff, List.isEmpty_iff, List.isEmpty_iff]
      cases p with
      | word t => rfl
      | name n => rw [Piece.chars, Piece.chars, h.dialect]
      | value v => exact h.value v (by simp)
      | raw r => exact h.raw r (by simp)
    rw [isEmptyBy_cons, isEmptyBy_cons, hp, hf]

end Fragment

theorem Member.chainOfText_congr {α : Type} {ms : List (Member α)} (started : Bool)
    (h : w.Agree w' (leaves ms)) : chainOfText w started ms = chainOfText w' started ms := by
  induction ms generalizing started with
  | nil => rfl
  | cons m ms ih =>
    rw [leaves_cons] at h
    have hm : Fragment.isEmptyBy w m.fragment = Fragment.isEmptyBy w' m.fragment :=
      Fragment.isEmptyBy_congr (h.mono fun l hl => List.mem_append_left _ hl)
    rw [chainOfText, chainOfText, hm, ih _ (h.mono fun l hl => List.mem_append_right _ hl)]

namespace JoinCondition

theorem groupMember_congr {ms : List (Member JoinTest)} (cs : List JoinCondition) (n : Bool)
    (k : Connector) (h : w.Agree w' (Member.leaves ms)) :
    groupMember w cs n k ms = groupMember w' cs n k ms := by
  have hinner : Member.chainOfText w false ms = Member.chainOfText w' false ms :=
    Member.chainOfText_congr false h
  have hempty : Fragment.isEmptyBy w (Member.chainOfText w' false ms) =
      Fragment.isEmptyBy w' (Member.chainOfText w' false ms) := by
    refine Fragment.isEmptyBy_congr ?_
    rw [Member.leaves_chainOfText]
    exact h
  rw [groupMember, groupMember, hinner, hempty]

theorem members_congr {cs : List JoinCondition} (h : w.Agree w' (JoinConditions.leaves cs)) :
    members w cs = members w' cs := by
  rw [members, members, h.dialect]
  induction cs using Condition.forest_induction with
  | nil => rfl
  | test t n k cs ih =>
    have hcs := ih (h.mono fun l hl => by
      rw [JoinConditions.leaves, Condition.testsOf_test_cons, List.flatMap_cons]
      exact List.mem_append_right _ hl)
    rw [Condition.members, Condition.members, hcs, Condition.member, Condition.member]
  | group gs n k cs ihg ih =>
    have hleaves : JoinConditions.leaves (.group gs n k :: cs) =
        JoinConditions.leaves gs ++ JoinConditions.leaves cs := by
      rw [JoinConditions.leaves, Condition.testsOf_group_cons, List.flatMap_append]
      rfl
    rw [hleaves] at h
    have hagree : w.Agree w' (JoinConditions.leaves gs) :=
      h.mono fun l hl => List.mem_append_left _ hl
    have hgs := ihg hagree
    have hcs := ih (h.mono fun l hl => List.mem_append_right _ hl)
    rw [Condition.members, Condition.members, hcs, Condition.member, Condition.member, hgs]
    cases hgms : Condition.members (JoinTest.fragment w'.dialect) (groupMember w') gs with
    | error e => rfl
    | ok gms =>
      have hms : Member.leaves gms = JoinConditions.leaves gs := leaves_members (w := w') hgms
      have hgroup : groupMember w gs n k gms = groupMember w' gs n k gms :=
        groupMember_congr gs n k (hms ▸ hagree)
      exact congrArg (fun m : Member JoinTest => do
        let ms ← Condition.members (JoinTest.fragment w'.dialect) (groupMember w') cs
        return m :: ms) hgroup

end JoinCondition

namespace ArrayJoin

theorem fragment_congr {j : ArrayJoin} (h : w.Agree w' j.leaves) :
    j.fragment w = j.fragment w' := by
  obtain ⟨source, schema, kind, conditions⟩ := j
  have hmembers (hleaves : w.Agree w' (source.leaves schema ++ JoinConditions.leaves conditions)) :
      JoinCondition.members w conditions = JoinCondition.members w' conditions :=
    JoinCondition.members_congr (hleaves.mono fun l hl => List.mem_append_right _ hl)
  cases kind with
  | raw => cases source <;> rfl
  | inner =>
    simp only [fragment]
    rw [hmembers h]
  | left =>
    simp only [fragment]
    rw [hmembers h]

theorem fragments_congr {js : List ArrayJoin} (h : w.Agree w' (js.flatMap ArrayJoin.leaves)) :
    fragments w js = fragments w' js := by
  induction js with
  | nil => rfl
  | cons j js ih =>
    rw [List.flatMap_cons] at h
    rw [fragments, fragments, fragment_congr (h.mono fun l hl => List.mem_append_left _ hl),
      ih (h.mono fun l hl => List.mem_append_right _ hl)]

theorem listFragment_congr {js : List ArrayJoin} (h : w.Agree w' (js.flatMap ArrayJoin.leaves)) :
    listFragment w js = listFragment w' js := by
  rw [listFragment, listFragment, fragments_congr h]

end ArrayJoin

namespace Query

theorem selectFragment_congr {q : Query} (h : w.Agree w' q.selectLeaves) :
    q.selectFragment w = q.selectFragment w' := by
  have hagree : w.Agree w' (q.categories.arrayJoins.flatMap ArrayJoin.leaves) := by
    refine h.mono fun l hl => ?_
    simp [selectLeaves, joinLeaves, hl]
  have hjoins := ArrayJoin.listFragment_congr hagree
  rw [selectFragment, selectFragment, hjoins, h.dialect]

theorem updateFragment_congr {q : Query} (h : w.Agree w' q.updateLeaves) :
    q.updateFragment w = q.updateFragment w' := by
  have hagree : w.Agree w' (q.categories.arrayJoins.flatMap ArrayJoin.leaves) := by
    refine h.mono fun l hl => ?_
    simp [updateLeaves, joinLeaves, hl]
  have hjoins := ArrayJoin.listFragment_congr hagree
  rw [updateFragment, updateFragment, hjoins, h.dialect]

end Query

end ClauseTree
