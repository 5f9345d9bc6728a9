import ClauseTree.Fragment.Statement
import ClauseTree.Proofs.Fragment.Members

/-!
# The words of a statement

What a statement says by itself, apart from the leaves of its tree, is drawn from a fixed list
of words, the operators of the dialect and the decimal numbers. `spoken_selectFragment` and
`spoken_updateFragment` say so of every statement; in particular no text that the author of a
tree gives becomes a word, an operator aside, which the dialect has to permit.
-/

namespace ClauseTree

/-- The words that do not depend on the tree, blanks and punctuation included. -/
def vocabulary : List String :=
  ["select ", "*", "from ", "update ", "set ", " = ", "inner", "left", "raw", " join ", " using ",
    " on ", "prewhere", "where", "group by", "order by", "asc", "desc", "limit ", "offset ",
    "for update", "lock in share mode", "and", "or", "not ", " is ", "null", "in ", "1 = 1",
    "1 = 0", "between ", " and ", "exists ", "(", ")", ", ", " "]

/-- The dialect has the word. -/
def Dialect.Speaks (d : Dialect) (t : String) : Prop :=
  t ∈ vocabulary ∨ d.permits t = true ∨ ∃ n, t = String.ofList (Nat.toDigits 10 n)

/-- The dialect has the words of the fragment. -/
def Fragment.Spoken (d : Dialect) (f : Fragment) : Prop := ∀ t, .word t ∈ f → d.Speaks t

variable {d : Dialect}

theorem Dialect.speaks_of_operator {given t : String} (h : d.operator given = .ok t) :
    d.Speaks t := by
  rw [Dialect.operator] at h
  split at h
  · next hpermits =>
    cases h
    exact Or.inr (Or.inl hpermits)
  · cases h

namespace Fragment.Spoken

theorem nil (d : Dialect) : Spoken d [] := fun _ h => nomatch h

theorem append {f g : Fragment} (hf : Spoken d f) (hg : Spoken d g) : Spoken d (f ++ g) := by
  intro t ht
  rcases List.mem_append.1 ht with h | h
  · exact hf t h
  · exact hg t h

theorem word_cons {t : String} {f : Fragment} (ht : d.Speaks t) (hf : Spoken d f) :
    Spoken d (.word t :: f) := by
  intro u hu
  rcases List.mem_cons.1 hu with h | h
  · cases h
    exact ht
  · exact hf u h

theorem fixed_cons {t : String} {f : Fragment} (ht : t ∈ vocabulary) (hf : Spoken d f) :
    Spoken d (.word t :: f) := word_cons (Or.inl ht) hf

theorem word {t : String} (ht : t ∈ vocabulary) : Spoken d [.word t] := fixed_cons ht (nil d)

/-- A piece that is no word says nothing. -/
theorem cons {p : Piece} {f : Fragment} (hp : ∀ t, p ≠ .word t) (hf : Spoken d f) :
    Spoken d (p :: f) := by
  intro t ht
  rcases List.mem_cons.1 ht with h | h
  · exact absurd h.symm (hp t)
  · exact hf t h

theorem name_cons (n : String) {f : Fragment} (hf : Spoken d f) : Spoken d (.name n :: f) :=
  cons (fun _ h => nomatch h) hf

theorem value_cons (v : Value) {f : Fragment} (hf : Spoken d f) : Spoken d (.value v :: f) :=
  cons (fun _ h => nomatch h) hf

theorem raw_cons (r : Raw) {f : Fragment} (hf : Spoken d f) : Spoken d (.raw r :: f) :=
  cons (fun _ h => nomatch h) hf

theorem joined {word : String} (hword : word ∈ vocabulary) {fs : List Fragment}
    (h : ∀ f ∈ fs, Spoken d f) : Spoken d (joined word fs) := by
  induction fs with
  | nil => exact nil d
  | cons f fs ih =>
    have hf : Spoken d f := h f List.mem_cons_self
    have hfs := ih fun g hg => h g (List.mem_cons_of_mem f hg)
    cases fs with
    | nil => exact hf
    | cons g gs => exact hf.append (fixed_cons hword hfs)

theorem flatMap {α : Type} {f : α → Fragment} {as : List α} (h : ∀ a ∈ as, Spoken d (f a)) :
    Spoken d (as.flatMap f) := by
  intro t ht
  obtain ⟨a, ha, hta⟩ := List.mem_flatMap.1 ht
  exact h a ha t hta

theorem spacedAfter {fs : List Fragment} (h : ∀ f ∈ fs, Spoken d f) :
    Spoken d (spacedAfter fs) := by
  refine flatMap fun f hf => ?_
  split
  · exact h f hf
  · exact fixed_cons (by decide) (h f hf)

theorem spaced {fs : List Fragment} (h : ∀ f ∈ fs, Spoken d f) : Spoken d (spaced fs) := by
  induction fs with
  | nil => exact nil d
  | cons f fs ih =>
    have hf : Spoken d f := h f List.mem_cons_self
    have hfs : ∀ g ∈ fs, Spoken d g := fun g hg => h g (List.mem_cons_of_mem f hg)
    rw [Fragment.spaced]
    split
    · exact hf.append (ih hfs)
    · exact hf.append (spacedAfter hfs)

theorem parenthesized {f : Fragment} (hf : Spoken d f) : Spoken d (parenthesized f) :=
  fixed_cons (by decide) (hf.append (word (by decide)))

theorem number (n : Nat) : Spoken d (number n) :=
  word_cons (Or.inr (Or.inr ⟨n, rfl⟩)) (nil d)

theorem negation (n : Bool) : Spoken d (negation n) := by
  cases n with
  | false => exact nil d
  | true => exact word (by decide)

theorem namesFragment (names : List String) : Spoken d (namesFragment names) := by
  refine joined (by decide) fun f hf => ?_
  obtain ⟨n, -, rfl⟩ := List.mem_map.1 hf
  exact name_cons n (nil d)

theorem valuesFragment (vs : List Value) : Spoken d (valuesFragment vs) := by
  refine parenthesized (joined (by decide) fun f hf => ?_)
  obtain ⟨v, -, rfl⟩ := List.mem_map.1 hf
  exact value_cons v (nil d)

end Fragment.Spoken

open Fragment

theorem Columns.spoken_fragment (c : Columns) : Spoken d c.fragment := by
  cases c with
  | single name => exact Spoken.name_cons name (Spoken.nil d)
  | multi names => exact Spoken.parenthesized (Spoken.namesFragment names)

theorem Operand.spoken_fragment (o : Operand) : Spoken d o.fragment := by
  cases o with
  | raw r => exact Spoken.raw_cons r (Spoken.nil d)
  | column name => exact Spoken.name_cons name (Spoken.nil d)
  | value v => exact Spoken.value_cons v (Spoken.nil d)

theorem Candidates.spoken_fragment (c : Candidates) : Spoken d c.fragment := by
  cases c with
  | raw r => exact Spoken.parenthesized (Spoken.raw_cons r (Spoken.nil d))
  | list vs => exact Spoken.valuesFragment vs
  | rows rs =>
    refine Spoken.parenthesized (Spoken.joined (by decide) fun f hf => ?_)
    obtain ⟨row, -, rfl⟩ := List.mem_map.1 hf
    exact Spoken.valuesFragment row

theorem Test.spoken_fragment {n : Bool} {t : Test} {f : Fragment} (h : t.fragment d n = .ok f) :
    Spoken d f := by
  cases t with
  | basic column operator value =>
    obtain ⟨op, hop, h⟩ := bind_eq_ok.1 h
    cases h
    have hblank : Spoken d [.word " "] := Spoken.word (by decide)
    have hvalue : Spoken d ([.word " "] ++ value.fragment) :=
      hblank.append (Operand.spoken_fragment value)
    have hrest : Spoken d (.name column :: .word " " :: .word op :: .word " " :: value.fragment) :=
      Spoken.name_cons column <| Spoken.fixed_cons (by decide) <|
        Spoken.word_cons (Dialect.speaks_of_operator hop) hvalue
    rw [List.append_assoc]
    exact (Spoken.negation n).append hrest
  | isNull column =>
    cases h
    have hcolumn : Spoken d [.name column, .word " is "] :=
      Spoken.name_cons column (Spoken.word (by decide))
    exact (hcolumn.append (Spoken.negation n)).append (Spoken.word (by decide))
  | isIn columns candidates =>
    rw [Test.fragment] at h
    split at h
    · cases h
      cases n <;> exact Spoken.word (by decide)
    · cases h
      have hcolumns : Spoken d (columns.fragment ++ [.word " "]) :=
        (Columns.spoken_fragment columns).append (Spoken.word (by decide))
      exact ((hcolumns.append (Spoken.negation n)).append (Spoken.word (by decide))).append
        (Candidates.spoken_fragment candidates)
  | between column low high =>
    cases h
    have hcolumn : Spoken d [.name column, .word " "] :=
      Spoken.name_cons column (Spoken.word (by decide))
    have hbounds : Spoken d [.word "between ", .value low, .word " and ", .value high] :=
      Spoken.fixed_cons (by decide) <| Spoken.value_cons low <|
        Spoken.fixed_cons (by decide) <| Spoken.value_cons high (Spoken.nil d)
    exact (hcolumn.append (Spoken.negation n)).append hbounds
  | hasRows subquery =>
    cases h
    exact ((Spoken.negation n).append (Spoken.word (by decide))).append
      (Spoken.parenthesized (Spoken.raw_cons subquery (Spoken.nil d)))
  | raw r =>
    cases h
    exact (Spoken.negation n).append (Spoken.raw_cons r (Spoken.nil d))

theorem JoinTest.spoken_fragment {n : Bool} {t : JoinTest} {f : Fragment}
    (h : t.fragment d n = .ok f) : Spoken d f := by
  cases t with
  | pair first operator second =>
    obtain ⟨op, hop, h⟩ := bind_eq_ok.1 h
    cases h
    have hpair : Spoken d [.name first, .word " ", .word op, .word " ", .name second] :=
      Spoken.name_cons first <| Spoken.fixed_cons (by decide) <|
        Spoken.word_cons (Dialect.speaks_of_operator hop) <|
          Spoken.fixed_cons (by decide) <| Spoken.name_cons second (Spoken.nil d)
    exact (Spoken.negation n).append hpair
  | usingColumns columns =>
    cases h
    exact Spoken.namesFragment columns.toList
  | on t => exact Test.spoken_fragment h

/-! ## Groups -/

/-- The dialect has the words of all members of a group. -/
def Member.Spoken {α : Type} (d : Dialect) (ms : List (Member α)) : Prop :=
  ∀ m ∈ ms, Fragment.Spoken d m.fragment

namespace Member

variable {α : Type}

theorem spoken_link (m : Member α) : Fragment.Spoken d m.link := by
  have hconnector : d.Speaks m.condition.connector.word := by
    cases m.condition.connector <;> exact Or.inl (by decide)
  exact Spoken.fixed_cons (by decide)
    (Spoken.word_cons hconnector (Spoken.word (by decide)))

theorem Spoken.linked {ms : List (Member α)} (h : Spoken d ms) :
    Fragment.Spoken d (linked ms) := by
  refine Fragment.Spoken.flatMap fun m hm => ?_
  split
  · exact (spoken_link m).append (h m hm)
  · exact h m hm

theorem Spoken.chain {opening : Condition α → Fragment}
    (hopening : ∀ c, Fragment.Spoken d (opening c)) {ms : List (Member α)} (h : Spoken d ms) :
    Fragment.Spoken d (chain opening ms) := by
  induction ms with
  | nil => exact Fragment.Spoken.nil d
  | cons m ms ih =>
    have hm : Fragment.Spoken d m.fragment := h m List.mem_cons_self
    have hms : Spoken d ms := fun x hx => h x (List.mem_cons_of_mem m hx)
    rw [Member.chain]
    split
    · exact ((hopening m.condition).append hm).append hms.linked
    · exact hm.append (ih hms)

theorem Spoken.chainOfText (w : Writer) (started : Bool) {ms : List (Member α)}
    (h : Spoken d ms) : Fragment.Spoken d (chainOfText w started ms) := by
  induction ms generalizing started with
  | nil => exact Fragment.Spoken.nil d
  | cons m ms ih =>
    have hm : Fragment.Spoken d m.fragment := h m List.mem_cons_self
    have hms : Spoken d ms := fun x hx => h x (List.mem_cons_of_mem m hx)
    have hlink : Fragment.Spoken d (if m.counts && started then m.link else []) := by
      split
      · exact spoken_link m
      · exact Fragment.Spoken.nil d
    exact (hlink.append hm).append (ih _ hms)

end Member

/-- If the words of the tests are those of the dialect, and groups add no others, those of the
members are. -/
theorem Condition.spoken_members {α : Type} {test : Bool → α → Except CompileError Fragment}
    {group : List (Condition α) → Bool → Connector → List (Member α) → Member α}
    (htest : ∀ n t f, test n t = .ok f → Spoken d f)
    (hgroup : ∀ cs n k ms, Member.Spoken d ms → Spoken d (group cs n k ms).fragment)
    {cs : List (Condition α)} {ms : List (Member α)} (h : members test group cs = .ok ms) :
    Member.Spoken d ms := by
  refine members_induction (motive := fun _ ms => Member.Spoken d ms) ?_ ?_ ?_ h
  · intro m hm
    cases hm
  · intro t n k f cs ms hf ih m hm
    rcases List.mem_cons.1 hm with rfl | hm
    · exact htest n t f hf
    · exact ih m hm
  · intro gs gms n k cs ms ihg ih m hm
    rcases List.mem_cons.1 hm with rfl | hm
    · exact hgroup gs n k gms ihg
    · exact ih m hm

theorem WhereClause.spoken_groupMember (cs : List WhereClause) (n : Bool) (k : Connector)
    (ms : List (Member Test)) (h : Member.Spoken d ms) :
    Spoken d (groupMember cs n k ms).fragment := by
  have hinner : Spoken d (Member.chain (fun _ => []) ms) := h.chain fun _ => Spoken.nil d
  rw [groupMember]
  split
  · exact (Spoken.negation n).append hinner.parenthesized
  · exact hinner

theorem JoinCondition.spoken_groupMember (w : Writer) (cs : List JoinCondition) (n : Bool)
    (k : Connector) (ms : List (Member JoinTest)) (h : Member.Spoken d ms) :
    Spoken d (groupMember w cs n k ms).fragment := by
  have hinner : Spoken d (Member.chainOfText w false ms) := h.chainOfText w false
  rw [groupMember]
  split
  · exact hinner
  · exact (Spoken.negation n).append hinner.parenthesized

theorem WhereClause.spoken_groupFragment {keyword : String} (hkeyword : keyword ∈ vocabulary)
    {cs : List WhereClause} {f : Fragment} (h : groupFragment d keyword cs = .ok f) :
    Spoken d f := by
  obtain ⟨ms, hms, h⟩ := bind_eq_ok.1 h
  cases h
  have hspoken : Member.Spoken d ms :=
    Condition.spoken_members (fun _ _ _ => Test.spoken_fragment) spoken_groupMember hms
  exact hspoken.chain fun _ => Spoken.fixed_cons hkeyword (Spoken.word (by decide))

theorem JoinCondition.spoken_members {w : Writer} {cs : List JoinCondition}
    {ms : List (Member JoinTest)} (h : members w cs = .ok ms) : Member.Spoken w.dialect ms :=
  Condition.spoken_members (fun _ _ _ => JoinTest.spoken_fragment) (spoken_groupMember w) h

/-! ## Array joins -/

theorem JoinSource.spoken_fragment (schema : Option String) (s : JoinSource) :
    Spoken d (s.fragment schema) := by
  cases s with
  | raw r => exact Spoken.raw_cons r (Spoken.nil d)
  | name table => exact Spoken.name_cons _ (Spoken.nil d)

namespace ArrayJoin

theorem spoken_fragment {w : Writer} {j : ArrayJoin} {f : Fragment} (h : j.fragment w = .ok f) :
    Spoken w.dialect f := by
  rcases fragment_cases h with ⟨r, -, -, rfl⟩ | ⟨-, ms, hms, rfl⟩
  · exact Spoken.raw_cons r (Spoken.nil _)
  · have hopening (c : JoinCondition) : Spoken w.dialect (JoinCondition.opening c) := by
      rw [JoinCondition.opening]
      split <;> exact Spoken.word (by decide)
    have hkind : j.kind.word ∈ vocabulary := by cases j.kind <;> decide
    have hjoin : Spoken w.dialect [.word j.kind.word, .word " join "] :=
      Spoken.fixed_cons hkind (Spoken.word (by decide))
    exact (hjoin.append (JoinSource.spoken_fragment j.schema j.source)).append
      ((JoinCondition.spoken_members hms).chain hopening)

theorem spoken_listFragment {w : Writer} {js : List ArrayJoin} {f : Fragment}
    (h : listFragment w js = .ok f) : Spoken w.dialect f := by
  obtain ⟨fs, hfs, h⟩ := bind_eq_ok.1 h
  cases h
  refine Spoken.spaced fun f hf => ?_
  obtain ⟨j, -, hj⟩ := exists_of_mem_fragments hfs hf
  exact spoken_fragment hj

end ArrayJoin

/-! ## Statements -/

theorem OrderItem.spoken_fragment (i : OrderItem) : Spoken d i.fragment := by
  cases i with
  | column name direction =>
    have hdirection : d.Speaks direction.word := by
      cases direction <;> exact Or.inl (by decide)
    exact Spoken.name_cons name <|
      Spoken.fixed_cons (by decide) (Spoken.word_cons hdirection (Spoken.nil d))
  | raw r => exact Spoken.raw_cons r (Spoken.nil d)

theorem GroupItem.spoken_fragment (i : GroupItem) : Spoken d i.fragment := by
  cases i with
  | column name => exact Spoken.name_cons name (Spoken.nil d)
  | raw r => exact Spoken.raw_cons r (Spoken.nil d)

theorem Assignment.spoken_fragment (a : Assignment) : Spoken d a.fragment :=
  Spoken.name_cons a.column <|
    Spoken.fixed_cons (by decide) (Operand.spoken_fragment a.value)

theorem Limit.spoken_fragment (l : Limit) : Spoken d l.fragment := by
  cases l with
  | literal n => exact Spoken.number n.toNat
  | raw r => exact Spoken.raw_cons r (Spoken.nil d)
  | bound v => exact Spoken.value_cons v (Spoken.nil d)

namespace Fragment

theorem spoken_listed {keyword : String} (hkeyword : keyword ∈ vocabulary) {items : List Fragment}
    (h : ∀ f ∈ items, Spoken d f) : Spoken d (listed keyword items) := by
  rw [listed]
  split
  · exact Spoken.nil d
  · exact Spoken.fixed_cons hkeyword <|
      Spoken.fixed_cons (by decide) (Spoken.joined (by decide) h)

theorem spoken_groupBy (items : List GroupItem) : Spoken d (groupBy items) := by
  refine spoken_listed (by decide) fun f hf => ?_
  obtain ⟨i, -, rfl⟩ := List.mem_map.1 hf
  exact i.spoken_fragment

theorem spoken_orderBy (items : List OrderItem) : Spoken d (orderBy items) := by
  refine spoken_listed (by decide) fun f hf => ?_
  obtain ⟨i, -, rfl⟩ := List.mem_map.1 hf
  exact i.spoken_fragment

theorem spoken_limit (l : Option Limit) (o : Option UInt64) : Spoken d (limit d l o) := by
  cases l with
  | some l => exact Spoken.fixed_cons (by decide) l.spoken_fragment
  | none =>
    rw [limit]
    split
    · exact Spoken.fixed_cons (by decide) (Spoken.number _)
    · exact Spoken.nil d

theorem spoken_offset (o : Option UInt64) : Spoken d (offset o) := by
  cases o with
  | none => exact Spoken.nil d
  | some n =>
    rw [offset]
    split
    · exact Spoken.fixed_cons (by decide) (Spoken.number _)
    · exact Spoken.nil d

theorem spoken_lock (l : Option Lock) : Spoken d (lock l) := by
  cases l with
  | none => exact Spoken.nil d
  | some l => cases l <;> exact Spoken.word (by decide)

theorem spoken_selected (columns : List String) : Spoken d (selected columns) := by
  refine Spoken.fixed_cons (by decide) ?_
  split
  · exact Spoken.word (by decide)
  · exact Spoken.namesFragment columns

theorem spoken_source (q : Query) : Spoken d (source q) := by
  rw [source]
  split
  · exact Spoken.fixed_cons (by decide) (Spoken.name_cons _ (Spoken.nil d))
  · exact Spoken.nil d

end Fragment

namespace Query

theorem spoken_selectFragment {w : Writer} {q : Query} {f : Fragment}
    (h : q.selectFragment w = .ok f) : Spoken w.dialect f := by
  obtain ⟨joins, prewhere, filter, hjoins, hprewhere, hfilter, rfl⟩ := selectFragment_cases h
  refine Spoken.spaced ?_
  simpa using ⟨spoken_selected _, spoken_source _, ArrayJoin.spoken_listFragment hjoins,
    WhereClause.spoken_groupFragment (by decide) hprewhere,
    WhereClause.spoken_groupFragment (by decide) hfilter, spoken_groupBy _, spoken_orderBy _,
    spoken_limit _ _, spoken_offset _, spoken_lock _⟩

theorem spoken_updateFragment {w : Writer} {q : Query} {f : Fragment}
    (h : q.updateFragment w = .ok f) : Spoken w.dialect f := by
  obtain ⟨table, joins, filter, -, hjoins, hfilter, rfl⟩ := updateFragment_cases h
  have htable : Spoken w.dialect [.word "update ", .name (qualified q.schema table)] :=
    Spoken.fixed_cons (by decide) (Spoken.name_cons _ (Spoken.nil _))
  have hset : Spoken w.dialect
      (.word "set " :: joined ", " (q.update.map Assignment.fragment)) := by
    refine Spoken.fixed_cons (by decide) (Spoken.joined (by decide) fun f hf => ?_)
    obtain ⟨a, -, rfl⟩ := List.mem_map.1 hf
    exact a.spoken_fragment
  refine Spoken.spaced ?_
  simpa using ⟨htable, ArrayJoin.spoken_listFragment hjoins, hset,
    WhereClause.spoken_groupFragment (by decide) hfilter, spoken_orderBy _, spoken_limit _ _⟩

end Query

end ClauseTree
