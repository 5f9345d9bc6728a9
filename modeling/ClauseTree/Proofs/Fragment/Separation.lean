import ClauseTree.Proofs.Fragment.Text
import ClauseTree.Proofs.Fragment.Vocabulary
import ClauseTree.Query.Leaf

/-!
# Fragments without raw text

In a tree without raw text every leaf is a name or a value, and a statement keeps its leaves
apart: between each two of them stands a word. `Apart` is that property, together with the
words it is about. They are those of `Dialect.Speaks`, except that a number has to be one of a
given list; of a statement these are the numbers of its limit and its offset.

Members of a group that take no place in it have no text. Without raw text they have no pieces
either, so nothing is left of them that could touch the leaves of another member.
-/

namespace ClauseTree

/-- The dialect has the word, and a number only if it is one of `ns`. -/
def Dialect.SpeaksOf (d : Dialect) (ns : List Nat) (t : String) : Prop :=
  t ∈ vocabulary ∨ d.permits t = true ∨ ∃ n ∈ ns, t = String.ofList (Nat.toDigits 10 n)

theorem Dialect.SpeaksOf.speaks {d : Dialect} {ns : List Nat} {t : String}
    (h : d.SpeaksOf ns t) : d.Speaks t := by
  rcases h with h | h | ⟨n, -, h⟩
  · exact Or.inl h
  · exact Or.inr (Or.inl h)
  · exact Or.inr (Or.inr ⟨n, h⟩)

theorem Dialect.SpeaksOf.ne_empty {d : Dialect} (hd : d.permits "" = false) {ns : List Nat}
    {t : String} (h : d.SpeaksOf ns t) : t ≠ "" := by
  rintro rfl
  rcases h with h | h | ⟨n, -, h⟩
  · exact absurd h (by decide)
  · rw [hd] at h
    cases h
  · have hnil : Nat.toDigits 10 n = [] := by
      rw [← String.toList_ofList (l := Nat.toDigits 10 n), ← h]
      rfl
    exact Nat.toDigits_ne_nil hnil

/-- The writer has text for every name and value, and its operators are no empty text. -/
structure Writer.Visible (w : Writer) : Prop where
  name : ∀ n, (Piece.name n).chars w ≠ []
  value : ∀ v, (Piece.value v).chars w ≠ []
  operator : w.dialect.permits "" = false

theorem Dialect.speaksOf_of_operator {d : Dialect} {ns : List Nat} {given t : String}
    (h : d.operator given = .ok t) : d.SpeaksOf ns t := by
  rw [Dialect.operator] at h
  split at h
  · next hpermits =>
    cases h
    exact Or.inr (Or.inl hpermits)
  · cases h

namespace Fragment

/-- Names and values with words between each two of them, and any number of further words. -/
inductive Apart (d : Dialect) (ns : List Nat) : Fragment → Prop
  | nil : Apart d ns []
  | name (n : String) : Apart d ns [.name n]
  | value (v : Value) : Apart d ns [.value v]
  | glue {f g : Fragment} {t : String} (hf : Apart d ns f) (ht : d.SpeaksOf ns t)
      (hg : Apart d ns g) : Apart d ns (f ++ .word t :: g)

namespace Apart

variable {d : Dialect} {ns : List Nat} {f g : Fragment} {t u : String}

theorem word_cons (ht : d.SpeaksOf ns t) (hf : Apart d ns f) : Apart d ns (.word t :: f) :=
  glue nil ht hf

theorem fixed_cons (ht : t ∈ vocabulary) (hf : Apart d ns f) : Apart d ns (.word t :: f) :=
  word_cons (Or.inl ht) hf

theorem fixed (ht : t ∈ vocabulary) : Apart d ns [.word t] := fixed_cons ht nil

theorem append_fixed (hf : Apart d ns f) (ht : t ∈ vocabulary) (hg : Apart d ns g) :
    Apart d ns (f ++ .word t :: g) := glue hf (Or.inl ht) hg

theorem name_cons (n : String) (ht : d.SpeaksOf ns t) (hf : Apart d ns f) :
    Apart d ns (.name n :: .word t :: f) := glue (name n) ht hf

theorem value_cons (v : Value) (ht : d.SpeaksOf ns t) (hf : Apart d ns f) :
    Apart d ns (.value v :: .word t :: f) := glue (value v) ht hf

/-- A fragment may follow another one directly if the one in front is made of words. -/
theorem negation_append (n : Bool) (hf : Apart d ns f) : Apart d ns (negation n ++ f) := by
  cases n with
  | false => exact hf
  | true => exact fixed_cons (by decide) hf

theorem parenthesized (hf : Apart d ns f) : Apart d ns (parenthesized f) :=
  fixed_cons (by decide) (hf.append_fixed (by decide) nil)

theorem number {n : Nat} (hn : n ∈ ns) : Apart d ns (number n) :=
  word_cons (Or.inr (Or.inr ⟨n, hn, rfl⟩)) nil

theorem joined {word : String} (hword : word ∈ vocabulary) {fs : List Fragment}
    (h : ∀ f ∈ fs, Apart d ns f) : Apart d ns (joined word fs) := by
  induction fs with
  | nil => exact nil
  | cons f fs ih =>
    have hf : Apart d ns f := h f List.mem_cons_self
    have hfs := ih fun g hg => h g (List.mem_cons_of_mem f hg)
    cases fs with
    | nil => exact hf
    | cons g gs => exact hf.append_fixed hword hfs

theorem joined_map {α : Type} {part : α → Fragment} {as : List α}
    (h : ∀ a ∈ as, Apart d ns (part a)) : Apart d ns (Fragment.joined ", " (as.map part)) := by
  refine joined (by decide) fun f hf => ?_
  obtain ⟨a, ha, rfl⟩ := List.mem_map.1 hf
  exact h a ha

theorem namesFragment (names : List String) : Apart d ns (namesFragment names) :=
  joined_map fun n _ => name n

theorem valuesFragment (vs : List Value) : Apart d ns (valuesFragment vs) :=
  (joined_map fun v _ => value v).parenthesized

/-- Apart from nothing at all, something is always written. -/
theorem eq_nil_or (hf : Apart d ns f) :
    f = [] ∨ ∃ p ∈ f, (∃ n, p = .name n) ∨ (∃ v, p = .value v) ∨
      ∃ t, d.SpeaksOf ns t ∧ p = .word t := by
  cases hf with
  | nil => exact Or.inl rfl
  | name n => exact Or.inr ⟨_, List.mem_singleton_self _, Or.inl ⟨n, rfl⟩⟩
  | value v => exact Or.inr ⟨_, List.mem_singleton_self _, Or.inr (Or.inl ⟨v, rfl⟩)⟩
  | glue hf ht hg => exact Or.inr ⟨_, by simp, Or.inr (Or.inr ⟨_, ht, rfl⟩)⟩

theorem eq_nil_of_isBlank (hd : d.permits "" = false) (hf : Apart d ns f)
    (hblank : isBlank f = true) : f = [] := by
  rcases hf.eq_nil_or with h | ⟨p, hp, h⟩
  · exact h
  · have hpiece : p.isBlank = true := List.all_eq_true.1 hblank p hp
    rcases h with ⟨n, rfl⟩ | ⟨v, rfl⟩ | ⟨t, ht, rfl⟩
    · cases hpiece
    · cases hpiece
    · exact absurd (by simpa [Piece.isBlank] using hpiece) (ht.ne_empty hd)

theorem eq_nil_of_isEmptyBy {w : Writer} (hw : w.Visible) {f : Fragment}
    (hf : Apart w.dialect ns f) (hempty : isEmptyBy w f = true) : f = [] := by
  rcases hf.eq_nil_or with h | ⟨p, hp, h⟩
  · exact h
  · have hpiece : p.chars w = [] := by simpa using List.all_eq_true.1 hempty p hp
    rcases h with ⟨n, rfl⟩ | ⟨v, rfl⟩ | ⟨t, ht, rfl⟩
    · exact absurd hpiece (hw.name n)
    · exact absurd hpiece (hw.value v)
    · exact absurd (String.toList_eq_nil_iff.1 hpiece) (ht.ne_empty hw.operator)

/-- After a fragment, others follow with a blank before each that has pieces. -/
theorem append_spacedAfter (hd : d.permits "" = false) (hf : Apart d ns f) {fs : List Fragment}
    (h : ∀ g ∈ fs, Apart d ns g) : Apart d ns (f ++ spacedAfter fs) := by
  induction fs generalizing f with
  | nil => simpa [Fragment.spacedAfter] using hf
  | cons g gs ih =>
    have hg : Apart d ns g := h g List.mem_cons_self
    have hgs : ∀ k ∈ gs, Apart d ns k := fun k hk => h k (List.mem_cons_of_mem g hk)
    rw [Fragment.spacedAfter, List.flatMap_cons, ← List.append_assoc, ← Fragment.spacedAfter]
    refine ih ?_ hgs
    split
    · next hblank => simpa [hg.eq_nil_of_isBlank hd hblank] using hf
    · exact hf.append_fixed (by decide) hg

theorem spaced (hd : d.permits "" = false) {fs : List Fragment} (h : ∀ f ∈ fs, Apart d ns f) :
    Apart d ns (spaced fs) := by
  induction fs with
  | nil => exact nil
  | cons f fs ih =>
    have hf : Apart d ns f := h f List.mem_cons_self
    have hfs : ∀ g ∈ fs, Apart d ns g := fun g hg => h g (List.mem_cons_of_mem f hg)
    rw [Fragment.spaced]
    split
    · next hblank => simpa [hf.eq_nil_of_isBlank hd hblank] using ih hfs
    · exact hf.append_spacedAfter hd hfs

end Apart

end Fragment

open Fragment

variable {d : Dialect} {ns : List Nat}

theorem Columns.apart_fragment (c : Columns) : Apart d ns c.fragment := by
  cases c with
  | single name => exact Apart.name name
  | multi names => exact (Apart.namesFragment names).parenthesized

theorem Operand.apart_fragment {o : Operand} (h : Leaf.raws o.leaves = []) :
    Apart d ns o.fragment := by
  cases o with
  | raw r => cases h
  | column name => exact Apart.name name
  | value v => exact Apart.value v

theorem Candidates.apart_fragment {c : Candidates} (h : Leaf.raws c.leaves = []) :
    Apart d ns c.fragment := by
  cases c with
  | raw r => cases h
  | list vs => exact Apart.valuesFragment vs
  | rows rs => exact (Apart.joined_map fun row _ => Apart.valuesFragment row).parenthesized

theorem Test.apart_fragment {n : Bool} {t : Test} {f : Fragment} (h : t.fragment d n = .ok f)
    (hraws : Leaf.raws t.leaves = []) : Apart d ns f := by
  cases t with
  | basic column operator value =>
    obtain ⟨op, hop, h⟩ := bind_eq_ok.1 h
    cases h
    have hvalue : Apart d ns value.fragment := Operand.apart_fragment hraws
    have hop : Apart d ns (.word op :: .word " " :: value.fragment) :=
      Apart.word_cons (Dialect.speaksOf_of_operator hop) (Apart.fixed_cons (by decide) hvalue)
    rw [List.append_assoc]
    exact (Apart.name_cons column (Or.inl (by decide)) hop).negation_append n
  | isNull column =>
    cases h
    have hnull : Apart d ns (negation n ++ [.word "null"]) :=
      (Apart.fixed (by decide)).negation_append n
    rw [List.append_assoc]
    exact Apart.name_cons column (Or.inl (by decide)) hnull
  | isIn columns candidates =>
    rw [Test.fragment] at h
    rw [Test.leaves] at hraws
    split at h
    · cases h
      cases n <;> exact Apart.fixed (by decide)
    · next hempty =>
      cases h
      rw [if_neg hempty, Leaf.raws_append] at hraws
      have hcandidates : Apart d ns candidates.fragment :=
        Candidates.apart_fragment (List.append_eq_nil_iff.1 hraws).2
      have hin : Apart d ns (negation n ++ .word "in " :: candidates.fragment) :=
        (Apart.fixed_cons (by decide) hcandidates).negation_append n
      simpa using (Columns.apart_fragment columns).append_fixed (t := " ") (by decide) hin
  | between column low high =>
    cases h
    have hbounds : Apart d ns [.word "between ", .value low, .word " and ", .value high] :=
      Apart.fixed_cons (by decide) <|
        Apart.value_cons low (Or.inl (by decide)) (Apart.value high)
    rw [List.append_assoc]
    exact Apart.name_cons column (Or.inl (by decide)) (hbounds.negation_append n)
  | hasRows subquery => cases hraws
  | raw r => cases hraws

theorem JoinTest.apart_fragment {n : Bool} {t : JoinTest} {f : Fragment}
    (h : t.fragment d n = .ok f) (hraws : Leaf.raws t.leaves = []) : Apart d ns f := by
  cases t with
  | pair first operator second =>
    obtain ⟨op, hop, h⟩ := bind_eq_ok.1 h
    cases h
    have hop : Apart d ns [.word op, .word " ", .name second] :=
      Apart.word_cons (Dialect.speaksOf_of_operator hop)
        (Apart.fixed_cons (by decide) (Apart.name second))
    exact (Apart.name_cons first (Or.inl (by decide)) hop).negation_append n
  | usingColumns columns =>
    cases h
    exact Apart.namesFragment columns.toList
  | on t => exact Test.apart_fragment h hraws

/-! ## Groups -/

/-- The members keep their leaves apart, and nothing is written for one that takes no place. -/
def Member.Apart {α : Type} (d : Dialect) (ns : List Nat) (ms : List (Member α)) : Prop :=
  ∀ m ∈ ms, Fragment.Apart d ns m.fragment ∧ (m.counts = false → m.fragment = [])

namespace Member.Apart

variable {α : Type} {ms : List (Member α)} {f : Fragment}

theorem nil : Apart d ns ([] : List (Member α)) := fun _ h => nomatch h

theorem cons {m : Member α} (hm : Fragment.Apart d ns m.fragment)
    (hnil : m.counts = false → m.fragment = []) (h : Apart d ns ms) : Apart d ns (m :: ms) := by
  intro x hx
  rcases List.mem_cons.1 hx with rfl | hx
  · exact ⟨hm, hnil⟩
  · exact h x hx

theorem tail {m : Member α} (h : Apart d ns (m :: ms)) : Apart d ns ms :=
  fun x hx => h x (List.mem_cons_of_mem m hx)

theorem append_link {m : Member α} (hf : Fragment.Apart d ns f)
    (hm : Fragment.Apart d ns m.fragment) : Fragment.Apart d ns (f ++ (m.link ++ m.fragment)) := by
  have hconnector : m.condition.connector.word ∈ vocabulary := by
    cases m.condition.connector <;> decide
  exact hf.append_fixed (by decide) <|
    Fragment.Apart.fixed_cons hconnector (Fragment.Apart.fixed_cons (by decide) hm)

theorem append_linked (hf : Fragment.Apart d ns f) (h : Apart d ns ms) :
    Fragment.Apart d ns (f ++ linked ms) := by
  induction ms generalizing f with
  | nil => simpa [linked] using hf
  | cons m ms ih =>
    obtain ⟨hm, hnil⟩ := h m List.mem_cons_self
    rw [linked_cons, ← List.append_assoc]
    refine ih ?_ h.tail
    split
    · exact append_link hf hm
    · next hcounts => simpa [hnil (by simpa using hcounts)] using hf

/-- A chain may follow a fragment if what opens it keeps it apart from the fragment. -/
theorem append_chain {opening : Condition α → Fragment} (hf : Fragment.Apart d ns f)
    (hopening : ∀ c g, Fragment.Apart d ns g → Fragment.Apart d ns (f ++ (opening c ++ g)))
    (h : Apart d ns ms) : Fragment.Apart d ns (f ++ chain opening ms) := by
  induction ms with
  | nil => simpa [chain] using hf
  | cons m ms ih =>
    obtain ⟨hm, hnil⟩ := h m List.mem_cons_self
    rw [chain]
    split
    · rw [← List.append_assoc]
      exact append_linked (hopening m.condition m.fragment hm) h.tail
    · next hcounts =>
      rw [hnil (by simpa using hcounts)]
      exact ih h.tail

theorem chain_bare (h : Apart d ns ms) : Fragment.Apart d ns (chain (fun _ => []) ms) :=
  append_chain Fragment.Apart.nil (fun _ _ hg => hg) h

theorem chain_keyword {keyword : String} (hkeyword : keyword ∈ vocabulary) (h : Apart d ns ms) :
    Fragment.Apart d ns (chain (fun _ => [.word keyword, .word " "]) ms) :=
  append_chain Fragment.Apart.nil
    (fun _ _ hg => Fragment.Apart.fixed_cons hkeyword (Fragment.Apart.fixed_cons (by decide) hg)) h

/-- As long as no text has gone before, nothing has. -/
theorem append_chainOfText {w : Writer} (hw : w.Visible) {started : Bool} {f : Fragment}
    {ms : List (Member α)} (hf : Fragment.Apart w.dialect ns f)
    (hstarted : started = false → f = []) (h : Apart w.dialect ns ms) :
    Fragment.Apart w.dialect ns (f ++ chainOfText w started ms) := by
  induction ms generalizing f started with
  | nil => simpa [chainOfText] using hf
  | cons m ms ih =>
    obtain ⟨hm, hnil⟩ := h m List.mem_cons_self
    rw [chainOfText, ← List.append_assoc]
    refine ih ?_ ?_ h.tail
    · cases hcounts : m.counts with
      | false => simpa [hnil hcounts] using hf
      | true =>
        cases started with
        | false => simpa [hstarted rfl] using hm
        | true => exact append_link hf hm
    · intro hnone
      obtain ⟨hs, hempty⟩ : started = false ∧ isEmptyBy w m.fragment = true := by
        simpa using hnone
      rw [hstarted hs, hm.eq_nil_of_isEmptyBy hw hempty, hs]
      simp

end Member.Apart

/-- If tests keep their leaves apart and groups those of their members, so do all members. -/
theorem Condition.apart_members {α : Type} {test : Bool → α → Except CompileError Fragment}
    {group : List (Condition α) → Bool → Connector → List (Member α) → Member α}
    {own : α → List Leaf}
    (htest : ∀ n t f, test n t = .ok f → Leaf.raws (own t) = [] → Apart d ns f)
    (hgroup : ∀ cs n k ms, Member.Apart d ns ms → Apart d ns (group cs n k ms).fragment ∧
      ((group cs n k ms).counts = false → (group cs n k ms).fragment = []))
    {cs : List (Condition α)} {ms : List (Member α)} (h : members test group cs = .ok ms)
    (hraws : Leaf.raws ((testsOf cs).flatMap own) = []) : Member.Apart d ns ms := by
  refine members_induction
    (motive := fun cs ms => Leaf.raws ((testsOf cs).flatMap own) = [] → Member.Apart d ns ms)
    ?_ ?_ ?_ h hraws
  · exact fun _ => Member.Apart.nil
  · intro t n k f cs ms hf ih hraws
    rw [testsOf_test_cons, List.flatMap_cons, Leaf.raws_append, List.append_eq_nil_iff] at hraws
    exact Member.Apart.cons (htest n t f hf hraws.1) (fun h => nomatch h) (ih hraws.2)
  · intro gs gms n k cs ms ihg ih hraws
    rw [testsOf_group_cons, List.flatMap_append, Leaf.raws_append, List.append_eq_nil_iff]
      at hraws
    obtain ⟨hg, hnil⟩ := hgroup gs n k gms (ihg hraws.1)
    exact Member.Apart.cons hg hnil (ih hraws.2)

namespace WhereClause

theorem apart_groupMember (cs : List WhereClause) (n : Bool) (k : Connector)
    (ms : List (Member Test)) (h : Member.Apart d ns ms) :
    Apart d ns (groupMember cs n k ms).fragment ∧
      ((groupMember cs n k ms).counts = false → (groupMember cs n k ms).fragment = []) := by
  rw [groupMember]
  split
  · exact ⟨h.chain_bare.parenthesized.negation_append n, fun hcounts => by cases hcounts⟩
  · next hany =>
    refine ⟨h.chain_bare, fun _ => ?_⟩
    have hnone : ∀ m ∈ ms, m.counts = false := by simpa using hany
    exact Member.chain_eq_nil hnone fun m hm => (h m hm).2 (hnone m hm)

theorem apart_groupFragment {keyword : String} (hkeyword : keyword ∈ vocabulary)
    {cs : List WhereClause} {f : Fragment} (h : groupFragment d keyword cs = .ok f)
    (hraws : Leaf.raws (WhereClause.leaves cs) = []) : Apart d ns f := by
  obtain ⟨ms, hms, h⟩ := bind_eq_ok.1 h
  cases h
  have htest (n : Bool) (t : Test) (f : Fragment) (hf : t.fragment d n = .ok f)
      (hraws : Leaf.raws t.leaves = []) : Apart d ns f := Test.apart_fragment hf hraws
  have hmembers : Member.Apart d ns ms :=
    Condition.apart_members htest apart_groupMember hms hraws
  exact hmembers.chain_keyword hkeyword

end WhereClause

namespace JoinCondition

variable {w : Writer}

theorem apart_groupMember (hw : w.Visible) (cs : List JoinCondition) (n : Bool) (k : Connector)
    (ms : List (Member JoinTest)) (h : Member.Apart w.dialect ns ms) :
    Apart w.dialect ns (groupMember w cs n k ms).fragment ∧
      ((groupMember w cs n k ms).counts = false → (groupMember w cs n k ms).fragment = []) := by
  have hinner : Apart w.dialect ns (Member.chainOfText w false ms) :=
    Member.Apart.append_chainOfText hw Apart.nil (fun _ => rfl) h
  rw [groupMember]
  split
  · next hempty => exact ⟨hinner, fun _ => hinner.eq_nil_of_isEmptyBy hw hempty⟩
  · exact ⟨hinner.parenthesized.negation_append n, fun hcounts => by cases hcounts⟩

theorem apart_members (hw : w.Visible) {cs : List JoinCondition} {ms : List (Member JoinTest)}
    (h : members w cs = .ok ms) (hraws : Leaf.raws (JoinConditions.leaves cs) = []) :
    Member.Apart w.dialect ns ms := by
  have htest (n : Bool) (t : JoinTest) (f : Fragment) (hf : t.fragment w.dialect n = .ok f)
      (hraws : Leaf.raws t.leaves = []) : Apart w.dialect ns f := JoinTest.apart_fragment hf hraws
  exact Condition.apart_members htest (apart_groupMember hw) h hraws

end JoinCondition

/-! ## Array joins -/

theorem JoinSource.apart_fragment {schema : Option String} {s : JoinSource}
    (hraws : Leaf.raws (s.leaves schema) = []) : Apart d ns (s.fragment schema) := by
  cases s with
  | raw r => cases hraws
  | name table => exact Apart.name _

namespace ArrayJoin

variable {w : Writer}

theorem apart_fragment (hw : w.Visible) {j : ArrayJoin} {f : Fragment}
    (h : j.fragment w = .ok f) (hraws : Leaf.raws j.leaves = []) : Apart w.dialect ns f := by
  rcases fragment_cases h with ⟨r, hkind, hsource, rfl⟩ | ⟨hkind, ms, hms, rfl⟩
  · rw [ArrayJoin.leaves, hkind, hsource] at hraws
    cases hraws
  · have hleaves : j.leaves = j.source.leaves j.schema ++ JoinConditions.leaves j.conditions := by
      rw [ArrayJoin.leaves]
      split
      · next hraw => exact absurd hraw hkind
      · rfl
    rw [hleaves, Leaf.raws_append, List.append_eq_nil_iff] at hraws
    have hword : j.kind.word ∈ vocabulary := by cases j.kind <;> decide
    have hhead : Apart w.dialect ns
        ([.word j.kind.word, .word " join "] ++ j.source.fragment j.schema) :=
      Apart.fixed_cons hword <|
        Apart.fixed_cons (by decide) (JoinSource.apart_fragment hraws.1)
    refine Member.Apart.append_chain hhead (fun c g hg => ?_)
      (JoinCondition.apart_members hw hms hraws.2)
    refine hhead.append_fixed ?_ hg
    split <;> decide

theorem apart_fragments (hw : w.Visible) {js : List ArrayJoin} {fs : List Fragment}
    (h : fragments w js = .ok fs) (hraws : Leaf.raws (js.flatMap ArrayJoin.leaves) = []) :
    ∀ f ∈ fs, Apart w.dialect ns f := by
  induction js generalizing fs with
  | nil =>
    cases h
    exact fun f hf => nomatch hf
  | cons j js ih =>
    obtain ⟨g, hg, h⟩ := bind_eq_ok.1 h
    obtain ⟨gs, hgs, h⟩ := bind_eq_ok.1 h
    cases h
    rw [List.flatMap_cons, Leaf.raws_append, List.append_eq_nil_iff] at hraws
    intro f hf
    rcases List.mem_cons.1 hf with rfl | hf
    · exact apart_fragment hw hg hraws.1
    · exact ih hgs hraws.2 f hf

theorem apart_listFragment (hw : w.Visible) {js : List ArrayJoin} {f : Fragment}
    (h : listFragment w js = .ok f) (hraws : Leaf.raws (js.flatMap ArrayJoin.leaves) = []) :
    Apart w.dialect ns f := by
  obtain ⟨fs, hfs, h⟩ := bind_eq_ok.1 h
  cases h
  exact Apart.spaced hw.operator (apart_fragments hw hfs hraws)

end ArrayJoin

/-! ## Statements -/

theorem OrderItem.apart_fragment {i : OrderItem} (hraws : Leaf.raws i.leaves = []) :
    Apart d ns i.fragment := by
  cases i with
  | column name direction =>
    have hdirection : direction.word ∈ vocabulary := by cases direction <;> decide
    exact Apart.name_cons name (Or.inl (by decide)) (Apart.fixed hdirection)
  | raw r => cases hraws

theorem GroupItem.apart_fragment {i : GroupItem} (hraws : Leaf.raws i.leaves = []) :
    Apart d ns i.fragment := by
  cases i with
  | column name => exact Apart.name name
  | raw r => cases hraws

theorem Assignment.apart_fragment {a : Assignment} (hraws : Leaf.raws a.leaves = []) :
    Apart d ns a.fragment :=
  Apart.name_cons a.column (Or.inl (by decide)) (Operand.apart_fragment hraws)

/-- The number that a limit writes into the text. -/
def Limit.number? : Limit → Option Nat
  | .literal n => some n.toNat
  | .raw _ => none
  | .bound _ => none

/-- The numbers that a dialect can write for the limit and the offset of a query. -/
def Query.numbers (d : Dialect) (q : Query) : List Nat :=
  q.limit.elim [d.maxLimit.toNat] (fun l => l.number?.toList) ++ q.offset.toList.map UInt64.toNat

namespace Fragment

theorem apart_listed {keyword : String} (hkeyword : keyword ∈ vocabulary) {α : Type}
    {part : α → Fragment} {own : α → List Leaf} {as : List α}
    (hpart : ∀ a, Leaf.raws (own a) = [] → Apart d ns (part a))
    (hraws : Leaf.raws (as.flatMap own) = []) : Apart d ns (listed keyword (as.map part)) := by
  rw [listed]
  split
  · exact Apart.nil
  · refine Apart.fixed_cons hkeyword (Apart.fixed_cons (by decide) (Apart.joined_map ?_))
    intro a ha
    exact hpart a (Leaf.raws_eq_nil_of_mem hraws ha)

theorem apart_limit {q : Query} (hraws : Leaf.raws q.limitLeaves = []) :
    Apart d (q.numbers d) (limit d q.limit q.offset) := by
  rw [Query.limitLeaves] at hraws
  cases hlimit : q.limit with
  | some l =>
    rw [hlimit] at hraws
    refine Apart.fixed_cons (by decide) ?_
    cases l with
    | literal n => exact Apart.number (by simp [Query.numbers, hlimit, Limit.number?])
    | raw r => cases hraws
    | bound v => exact Apart.value v
  | none =>
    rw [limit]
    split
    · exact Apart.fixed_cons (by decide) (Apart.number (by simp [Query.numbers, hlimit]))
    · exact Apart.nil

theorem apart_offset (q : Query) : Apart d (q.numbers d) (offset q.offset) := by
  cases hoffset : q.offset with
  | none => exact Apart.nil
  | some n =>
    rw [offset]
    split
    · exact Apart.fixed_cons (by decide) (Apart.number (by simp [Query.numbers, hoffset]))
    · exact Apart.nil

theorem apart_lock (l : Option Lock) : Apart d ns (lock l) := by
  cases l with
  | none => exact Apart.nil
  | some l => cases l <;> exact Apart.fixed (by decide)

theorem apart_selected (columns : List String) : Apart d ns (selected columns) := by
  refine Apart.fixed_cons (by decide) ?_
  split
  · exact Apart.fixed (by decide)
  · exact Apart.namesFragment columns

theorem apart_source (q : Query) : Apart d ns (source q) := by
  rw [source]
  split
  · exact Apart.fixed_cons (by decide) (Apart.name _)
  · exact Apart.nil

end Fragment

namespace Query

variable {w : Writer} {q : Query} {f : Fragment}

theorem apart_selectFragment (hw : w.Visible) (h : q.selectFragment w = .ok f)
    (hraws : Leaf.raws q.selectLeaves = []) : Apart w.dialect (q.numbers w.dialect) f := by
  obtain ⟨joins, prewhere, filter, hjoins, hprewhere, hfilter, rfl⟩ := selectFragment_cases h
  simp only [selectLeaves, Leaf.raws_append, List.append_eq_nil_iff] at hraws
  obtain ⟨⟨⟨⟨⟨⟨⟨-, -⟩, hjoin⟩, hpre⟩, hfil⟩, hgroup⟩, horder⟩, hlimit⟩ := hraws
  refine Apart.spaced hw.operator ?_
  simpa using ⟨apart_selected q.columns, apart_source q,
    ArrayJoin.apart_listFragment hw hjoins hjoin,
    WhereClause.apart_groupFragment (by decide) hprewhere hpre,
    WhereClause.apart_groupFragment (by decide) hfilter hfil,
    apart_listed (by decide) (fun _ => GroupItem.apart_fragment) hgroup,
    apart_listed (by decide) (fun _ => OrderItem.apart_fragment) horder,
    apart_limit hlimit, apart_offset q, apart_lock q.lock⟩

theorem apart_updateFragment (hw : w.Visible) (h : q.updateFragment w = .ok f)
    (hraws : Leaf.raws q.updateLeaves = []) : Apart w.dialect (q.numbers w.dialect) f := by
  obtain ⟨table, joins, filter, -, hjoins, hfilter, rfl⟩ := updateFragment_cases h
  simp only [updateLeaves, Leaf.raws_append, List.append_eq_nil_iff] at hraws
  obtain ⟨⟨⟨⟨⟨-, hjoin⟩, hset⟩, hfil⟩, horder⟩, hlimit⟩ := hraws
  have htable : Apart w.dialect (q.numbers w.dialect)
      [.word "update ", .name (qualified q.schema table)] :=
    Apart.fixed_cons (by decide) (Apart.name _)
  have hassignments : Apart w.dialect (q.numbers w.dialect)
      (.word "set " :: joined ", " (q.update.map Assignment.fragment)) :=
    Apart.fixed_cons (by decide) <| Apart.joined_map fun a ha =>
      Assignment.apart_fragment (Leaf.raws_eq_nil_of_mem hset ha)
  refine Apart.spaced hw.operator ?_
  simpa using ⟨htable, ArrayJoin.apart_listFragment hw hjoins hjoin, hassignments,
    WhereClause.apart_groupFragment (by decide) hfilter hfil,
    apart_listed (by decide) (fun _ => OrderItem.apart_fragment) horder, apart_limit hlimit⟩

end Query

end ClauseTree
